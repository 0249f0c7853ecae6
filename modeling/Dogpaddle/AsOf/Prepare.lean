import Dogpaddle.AsOf.Runtime

/-!
# Prepared rows

Preparing a window is independent of the allowance: a successful call returns `prepared` of
every event, whatever the window was.

An `Admitted` row is one whose encodings completed. For such rows the key determines the row
(`key_injective`), the partition determines the equality tuple, and order tuples compare as
the order values do.
-/

namespace Dogpaddle.AsOf

open Lib Store Dogpaddle.Relation

variable {Ty Value : Type} [DecidableEq Value]

/-- A value whose encoding completes under some limit. -/
def Encodable (fmt : RowFormat Ty Value) (field : Relation.Field Ty) (value : Value) : Prop :=
  ∃ limit, fmt.encode field value limit = (fmt.canonical field.dataType value, .ok ())

namespace AsOfJoinOperation

variable (op : AsOfJoinOperation Ty Value)

/-- Appends one equality value of an event to its row. -/
def addEquality (port : Nat) (pair : BoundPair Ty Value) (event : Row Value × Int)
    (row : PreparedRow) : PreparedRow :=
  match (pair.forPort port).expression event.1 with
  | .error _ => row
  | .ok value => { row with
      partition := row.partition ++ op.fmt.canonical (pair.forPort port).field.dataType value
      matchable := row.matchable && decide (value ≠ op.fmt.null) }

def addEqualities (port : Nat) (pairs : List (BoundPair Ty Value)) (event : Row Value × Int)
    (row : PreparedRow) : PreparedRow :=
  pairs.foldl (fun row pair => op.addEquality port pair event row) row

/-- The order component of a row, none for `NULL`. -/
def component (port : Nat) (row : Row Value) : Option Bytes :=
  match (op.order.forPort port).expression row with
  | .error _ => none
  | .ok value =>
    match op.orderComponent (op.order.forPort port).field.dataType value with
    | .error _ => none
    | .ok component => component

/-- Adds the order tuple and the exact row. -/
def addOrder (port : Nat) (event : Row Value × Int) (row : PreparedRow) : PreparedRow :=
  { row with
    order := orderTuple (op.component port event.1)
    matchable := row.matchable && (op.component port event.1).isSome
    key := rowKey row.partition (orderTuple (op.component port event.1))
      (op.fmt.canonicalRow (op.schema port) event.1) }

/-- The prepared form of an event. -/
def prepared (port : Nat) (event : Row Value × Int) : PreparedRow :=
  op.addOrder port event (op.addEqualities port op.equalities event ⟨[], [], [0], true, event.2⟩)

/-- A row all of whose encodings complete. -/
structure Admitted (port : Nat) (row : Row Value) : Prop where
  equalities : ∀ pair ∈ op.equalities, ∃ value, (pair.forPort port).expression row = .ok value ∧
    Encodable op.fmt (pair.forPort port).field value
  order : ∃ value, (op.order.forPort port).expression row = .ok value ∧
    op.orderComponent (op.order.forPort port).field.dataType value = .ok (op.component port row)
  writable : op.fmt.Writable (op.schema port) row

/-! ## A prepared window -/

theorem encodeEquality_eq_ok {field : Relation.Field Ty} {value : Value} {row row' : PreparedRow}
    {s s' : Scope AsOfState} (h : op.encodeEquality field value row s = .ok row' s') :
    s'.state = s.state ∧ Encodable op.fmt field value ∧
      row' = { row with
        partition := row.partition ++ op.fmt.canonical field.dataType value
        matchable := row.matchable && decide (value ≠ op.fmt.null) } := by
  obtain ⟨_, t, ht, h⟩ := bind_eq_ok.mp h
  obtain ⟨rfl, rfl⟩ := get_eq_ok.mp ht
  obtain ⟨_, t, ht, h⟩ := bind_eq_ok.mp h
  have hstate := (StepBudget.charge_eq_ok ht).1
  obtain ⟨_, t', ht', h⟩ := bind_eq_ok.mp h
  obtain ⟨hresult, rfl⟩ := ofExcept_eq_ok.mp ht'
  obtain ⟨rfl, rfl⟩ := pure_eq_ok.mp h
  have hresult := mapError_eq_ok.mp hresult
  have hencode : op.fmt.encode field value s.budget.remainingBytes =
      ((op.fmt.encode field value s.budget.remainingBytes).1, .ok ()) := Prod.ext rfl hresult
  have hcanonical := op.fmt.encode_canonical _ _ _ _ hencode
  refine ⟨hstate, ⟨s.budget.remainingBytes, ?_⟩, by rw [← hcanonical]⟩
  rw [hencode, ← hcanonical]

theorem encodeColumn_eq_ok {port : Nat} {pair : BoundPair Ty Value}
    {events : List (Row Value × Int)} {column : List Value} {rows rows' : List PreparedRow}
    {s s' : Scope AsOfState}
    (hcolumn : List.Forall₂ (fun e v => (pair.forPort port).expression e.1 = .ok v) events column)
    (hlength : rows.length = events.length)
    (h : op.encodeColumn (pair.forPort port).field column rows s = .ok rows' s') :
    s'.state = s.state ∧ rows' = List.zipWith (op.addEquality port pair) events rows ∧
      ∀ e ∈ events, ∃ value, (pair.forPort port).expression e.1 = .ok value ∧
        Encodable op.fmt (pair.forPort port).field value := by
  induction hcolumn generalizing rows rows' s with
  | nil =>
    obtain ⟨rfl, rfl⟩ := pure_eq_ok.mp h
    exact ⟨rfl, rfl, fun e he => by cases he⟩
  | @cons e v events column hv _ ih =>
    obtain _ | ⟨row, rows⟩ := rows
    · cases hlength
    obtain ⟨row', t, ht, h⟩ := bind_eq_ok.mp h
    obtain ⟨hstate, hencodable, rfl⟩ := op.encodeEquality_eq_ok ht
    obtain ⟨rest, t', ht', h⟩ := bind_eq_ok.mp h
    obtain ⟨rfl, rfl⟩ := pure_eq_ok.mp h
    obtain ⟨hstate', rfl, hall⟩ := ih (by simpa using hlength) ht'
    refine ⟨by rw [hstate', hstate], by simp only [List.zipWith_cons_cons, addEquality, hv], ?_⟩
    intro e' he'
    rcases List.mem_cons.mp he' with rfl | he'
    · exact ⟨v, hv, hencodable⟩
    · exact hall e' he'

theorem prepareEqualities_eq_ok {port : Nat} {events : List (Row Value × Int)} {index : Nat}
    {pairs : List (BoundPair Ty Value)} {rows rows' : List PreparedRow}
    {s s' : Scope AsOfState} (hlength : rows.length = events.length)
    (h : op.prepareEqualities port events index pairs rows s = .ok rows' s') :
    s'.state = s.state ∧ rows' = List.zipWith (op.addEqualities port pairs) events rows ∧
      ∀ e ∈ events, ∀ pair ∈ pairs, ∃ value, (pair.forPort port).expression e.1 = .ok value ∧
        Encodable op.fmt (pair.forPort port).field value := by
  induction pairs generalizing index rows s with
  | nil =>
    obtain ⟨rfl, rfl⟩ := pure_eq_ok.mp h
    refine ⟨rfl, ?_, fun _ _ pair hpair => by cases hpair⟩
    refine List.ext_getElem (by simp [hlength]) fun i hi hi' => ?_
    simp [addEqualities]
  | cons pair pairs ih =>
    obtain ⟨column, t, ht, h⟩ := bind_eq_ok.mp h
    obtain ⟨hcolumn, rfl⟩ := ofExcept_eq_ok.mp ht
    obtain ⟨_, t, ht, h⟩ := bind_eq_ok.mp h
    obtain ⟨rows₁, t₁, ht₁, h⟩ := bind_eq_ok.mp h
    obtain ⟨hstate₁, rfl, hall₁⟩ :=
      op.encodeColumn_eq_ok (mapM_eq_ok (mapError_eq_ok.mp hcolumn)) hlength ht₁
    obtain ⟨hstate, rfl, hall⟩ := ih (by simp [hlength]) h
    refine ⟨by rw [hstate, hstate₁, (StepBudget.charge_eq_ok ht).1], ?_, ?_⟩
    · refine List.ext_getElem (by simp) fun i hi hi' => ?_
      simp [addEqualities]
    · intro e he pair' hpair'
      rcases List.mem_cons.mp hpair' with rfl | hpair'
      · exact hall₁ e he
      · exact hall e he pair' hpair'

omit [DecidableEq Value] in
theorem encodeOrder_eq_ok {port : Nat} {event : Row Value × Int} {value : Value}
    {row row' : PreparedRow} {s s' : Scope AsOfState}
    (hvalue : (op.order.forPort port).expression event.1 = .ok value)
    (h : op.encodeOrder port (op.order.forPort port).field value event.1 row s = .ok row' s') :
    s'.state = s.state ∧ row' = op.addOrder port event row ∧
      op.orderComponent (op.order.forPort port).field.dataType value =
        .ok (op.component port event.1) ∧
      op.fmt.Writable (op.schema port) event.1 := by
  obtain ⟨_, t, ht, h⟩ := bind_eq_ok.mp h
  obtain ⟨component, t₁, ht₁, h⟩ := bind_eq_ok.mp h
  obtain ⟨hcomponent, rfl⟩ := ofExcept_eq_ok.mp ht₁
  obtain ⟨_, t₁, ht₁, h⟩ := bind_eq_ok.mp h
  obtain ⟨rfl, rfl⟩ := get_eq_ok.mp ht₁
  obtain ⟨size, t₁, ht₁, h⟩ := bind_eq_ok.mp h
  obtain ⟨-, rfl⟩ := ofExcept_eq_ok.mp ht₁
  obtain ⟨_, t₂, ht₂, h⟩ := bind_eq_ok.mp h
  obtain ⟨exact, t₃, ht₃, h⟩ := bind_eq_ok.mp h
  obtain ⟨hexact, rfl⟩ := ofExcept_eq_ok.mp ht₃
  obtain ⟨rfl, rfl⟩ := pure_eq_ok.mp h
  obtain ⟨rfl, hwritable⟩ := RowFormat.writable_of_ok (mapError_eq_ok.mp hexact)
  have hcomp : op.component port event.1 = component := by
    simp only [AsOfJoinOperation.component, hvalue, hcomponent]
  refine ⟨by rw [(StepBudget.charge_eq_ok ht₂).1, (StepBudget.charge_eq_ok ht).1], ?_, ?_,
    hwritable⟩
  · rw [addOrder, hcomp]
  · rw [hcomp, hcomponent]

omit [DecidableEq Value] in
theorem encodeOrders_eq_ok {port : Nat} {events : List (Row Value × Int)} {column : List Value}
    {rows rows' : List PreparedRow} {s s' : Scope AsOfState}
    (hcolumn : List.Forall₂ (fun e v => (op.order.forPort port).expression e.1 = .ok v)
      events column)
    (hlength : rows.length = events.length)
    (h : op.encodeOrders port (op.order.forPort port).field column events rows s =
      .ok rows' s') :
    s'.state = s.state ∧ rows' = List.zipWith (op.addOrder port) events rows ∧
      ∀ e ∈ events, (∃ value, (op.order.forPort port).expression e.1 = .ok value ∧
          op.orderComponent (op.order.forPort port).field.dataType value =
            .ok (op.component port e.1)) ∧
        op.fmt.Writable (op.schema port) e.1 := by
  induction hcolumn generalizing rows rows' s with
  | nil =>
    obtain ⟨rfl, rfl⟩ := pure_eq_ok.mp h
    exact ⟨rfl, rfl, fun e he => by cases he⟩
  | @cons e v events column hv _ ih =>
    obtain _ | ⟨row, rows⟩ := rows
    · cases hlength
    obtain ⟨row', t, ht, h⟩ := bind_eq_ok.mp h
    obtain ⟨hstate, rfl, hcomponent, hwritable⟩ := op.encodeOrder_eq_ok hv ht
    obtain ⟨rest, t', ht', h⟩ := bind_eq_ok.mp h
    obtain ⟨rfl, rfl⟩ := pure_eq_ok.mp h
    obtain ⟨hstate', rfl, hall⟩ := ih (by simpa using hlength) ht'
    refine ⟨by rw [hstate', hstate], rfl, ?_⟩
    intro e' he'
    rcases List.mem_cons.mp he' with rfl | he'
    · exact ⟨⟨v, hv, hcomponent⟩, hwritable⟩
    · exact hall e' he'

/-- A window is prepared event by event, whatever the allowance. -/
theorem prepare_eq_ok {port : Nat} {events : List (Row Value × Int)} {rows : List PreparedRow}
    {s s' : Scope AsOfState} (h : op.prepare port events s = .ok rows s') :
    s'.state = s.state ∧ rows = events.map (op.prepared port) ∧
      ∀ e ∈ events, op.Admitted port e.1 := by
  obtain ⟨_, t, ht, h⟩ := bind_eq_ok.mp h
  obtain ⟨keyed, t₁, ht₁, h⟩ := bind_eq_ok.mp h
  obtain ⟨hstate₁, rfl, hkeys⟩ := op.prepareEqualities_eq_ok (by simp) ht₁
  obtain ⟨column, t₂, ht₂, h⟩ := bind_eq_ok.mp h
  obtain ⟨hcolumn, rfl⟩ := ofExcept_eq_ok.mp ht₂
  obtain ⟨_, t₃, ht₃, h⟩ := bind_eq_ok.mp h
  obtain ⟨hstate, rfl, hrows⟩ :=
    op.encodeOrders_eq_ok (mapM_eq_ok (mapError_eq_ok.mp hcolumn)) (by simp) h
  refine ⟨?_, ?_, ?_⟩
  · rw [hstate, (StepBudget.charge_eq_ok ht₃).1, hstate₁, (StepBudget.charge_eq_ok ht).1]
  · refine List.ext_getElem (by simp) fun i hi hi' => ?_
    simp [prepared]
  · intro e he
    exact ⟨hkeys e he, (hrows e he).1, (hrows e he).2⟩

end AsOfJoinOperation

end Dogpaddle.AsOf
