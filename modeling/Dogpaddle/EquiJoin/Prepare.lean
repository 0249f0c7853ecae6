import Dogpaddle.EquiJoin.Runtime

/-!
# Prepared rows

Preparing a window is independent of the allowance: a successful call returns
`prepared` of every event, whatever the window was.

An `Admitted` row is one whose encodings completed. For such rows the canonical
bytes determine the row and the key bytes determine the key tuple
(`prepared_row_injective`, `keysMatch_iff`).
-/

namespace Dogpaddle.EquiJoin

open Lib Store Dogpaddle.Relation

variable {Ty Value : Type} [DecidableEq Value]

/-- A value whose encoding completes under some limit. -/
def Encodable (fmt : RowFormat Ty Value) (field : Relation.Field Ty) (value : Value) : Prop :=
  ∃ limit, fmt.encode field value limit = (fmt.canonical field.dataType value, .ok ())

namespace EquiJoinOperation

variable (op : EquiJoinOperation Ty Value)

/-- Appends one key value of an event to its row. -/
def addKey (port : Nat) (pair : BoundKeyPair Ty Value) (event : Row Value × Int)
    (row : PreparedRow) : PreparedRow :=
  match (pair.forPort port).expression event.1 with
  | .error _ => row
  | .ok value => { row with
      key := row.key ++ op.fmt.canonical (pair.forPort port).field.dataType value
      matchable := row.matchable && decide (value ≠ op.fmt.null) }

/-- Appends the values of several keys. -/
def addKeys (port : Nat) (pairs : List (BoundKeyPair Ty Value)) (event : Row Value × Int)
    (row : PreparedRow) : PreparedRow :=
  pairs.foldl (fun row pair => op.addKey port pair event row) row

/-- The prepared form of an event. -/
def prepared (port : Nat) (event : Row Value × Int) : PreparedRow :=
  { op.addKeys port op.keys event ⟨[], [], true, event.2⟩ with
    row := op.fmt.canonicalRow (op.schema port) event.1 }

/-- The key tuple of a row. -/
def keyValues (port : Nat) (row : Row Value) : Except OperationError (List Value) :=
  op.keys.mapM fun pair => (pair.forPort port).expression row

/-- A row all of whose encodings complete. -/
structure Admitted (port : Nat) (row : Row Value) : Prop where
  keys : ∀ pair ∈ op.keys, ∃ value, (pair.forPort port).expression row = .ok value ∧
    Encodable op.fmt (pair.forPort port).field value
  writable : op.fmt.Writable (op.schema port) row

omit [DecidableEq Value] in
variable {op} in
theorem Admitted.decodes {port : Nat} {row : Row Value} (h : op.Admitted port row) :
    op.fmt.decodeRow (op.schema port) (op.fmt.canonicalRow (op.schema port) row) = .ok row :=
  h.writable.decodes

/-! ## A prepared window -/

theorem encodeKey_eq_ok {field : Relation.Field Ty} {value : Value} {row row' : PreparedRow}
    {s s' : Scope JoinState} (h : op.encodeKey field value row s = .ok row' s') :
    s'.state = s.state ∧ Encodable op.fmt field value ∧
      row' = { row with
        key := row.key ++ op.fmt.canonical field.dataType value
        matchable := row.matchable && decide (value ≠ op.fmt.null) } := by
  obtain ⟨_, t, ht, h⟩ := bind_eq_ok.mp h
  obtain ⟨rfl, rfl⟩ := get_eq_ok.mp ht
  obtain ⟨_, t, ht, h⟩ := bind_eq_ok.mp h
  have hstate := (StepBudget.charge_eq_ok ht).1
  obtain ⟨_, t', ht', h⟩ := bind_eq_ok.mp h
  obtain ⟨hresult, rfl⟩ := ofExcept_eq_ok.mp ht'
  obtain ⟨rfl, rfl⟩ := pure_eq_ok.mp h
  cases hencode : op.fmt.encode field value s.budget.remainingBytes with
  | mk bytes result =>
    rw [hencode] at hresult
    cases result with
    | error e => cases hresult
    | ok u =>
      have hcanonical := op.fmt.encode_canonical _ _ _ _ hencode
      refine ⟨hstate, ⟨s.budget.remainingBytes, ?_⟩, ?_⟩
      · rw [hencode, hcanonical]
      · rw [← hcanonical]

theorem encodeColumn_eq_ok {port : Nat} {pair : BoundKeyPair Ty Value}
    {events : List (Row Value × Int)} {column : List Value} {rows rows' : List PreparedRow}
    {s s' : Scope JoinState}
    (hcolumn : List.Forall₂ (fun e v => (pair.forPort port).expression e.1 = .ok v) events column)
    (hlength : rows.length = events.length)
    (h : op.encodeColumn (pair.forPort port).field column rows s = .ok rows' s') :
    s'.state = s.state ∧ rows' = List.zipWith (op.addKey port pair) events rows ∧
      ∀ e ∈ events, ∃ value, (pair.forPort port).expression e.1 = .ok value ∧
        Encodable op.fmt (pair.forPort port).field value := by
  induction hcolumn generalizing rows rows' s with
  | nil =>
    obtain ⟨rfl, rfl⟩ := pure_eq_ok.mp h
    exact ⟨rfl, rfl, fun e he => by cases he⟩
  | @cons e v events column hv _ ih =>
    cases rows with
    | nil => cases hlength
    | cons row rows =>
      obtain ⟨row', t, ht, h⟩ := bind_eq_ok.mp h
      obtain ⟨hstate, hencodable, rfl⟩ := op.encodeKey_eq_ok ht
      obtain ⟨rest, t', ht', h⟩ := bind_eq_ok.mp h
      obtain ⟨rfl, rfl⟩ := pure_eq_ok.mp h
      obtain ⟨hstate', rfl, hall⟩ := ih (by simpa using hlength) ht'
      refine ⟨by rw [hstate', hstate], ?_, ?_⟩
      · simp only [List.zipWith_cons_cons, addKey, hv]
      · intro e' he'
        rcases List.mem_cons.mp he' with rfl | he'
        · exact ⟨v, hv, hencodable⟩
        · exact hall e' he'

theorem prepareKeys_eq_ok {port : Nat} {events : List (Row Value × Int)} {key : Nat}
    {pairs : List (BoundKeyPair Ty Value)} {rows rows' : List PreparedRow}
    {s s' : Scope JoinState} (hlength : rows.length = events.length)
    (h : op.prepareKeys port events key pairs rows s = .ok rows' s') :
    s'.state = s.state ∧ rows' = List.zipWith (op.addKeys port pairs) events rows ∧
      ∀ e ∈ events, ∀ pair ∈ pairs, ∃ value, (pair.forPort port).expression e.1 = .ok value ∧
        Encodable op.fmt (pair.forPort port).field value := by
  induction pairs generalizing key rows s with
  | nil =>
    obtain ⟨rfl, rfl⟩ := pure_eq_ok.mp h
    refine ⟨rfl, ?_, fun _ _ pair hpair => by cases hpair⟩
    refine List.ext_getElem (by simp [hlength]) fun i hi hi' => ?_
    simp [addKeys]
  | cons pair pairs ih =>
    obtain ⟨column, t, ht, h⟩ := bind_eq_ok.mp h
    obtain ⟨hcolumn, rfl⟩ := ofExcept_eq_ok.mp ht
    obtain ⟨_, t, ht, h⟩ := bind_eq_ok.mp h
    obtain ⟨rows₁, t₁, ht₁, h⟩ := bind_eq_ok.mp h
    have hvalues : events.mapM (fun e => (pair.forPort port).expression e.1) = .ok column := by
      cases hm : events.mapM fun e => (pair.forPort port).expression e.1 with
      | error e => rw [hm] at hcolumn; cases hcolumn
      | ok c => rw [hm] at hcolumn; cases hcolumn; rfl
    obtain ⟨hstate₁, rfl, hall₁⟩ := op.encodeColumn_eq_ok (mapM_eq_ok hvalues) hlength ht₁
    obtain ⟨hstate, rfl, hall⟩ := ih (by simp [hlength]) h
    refine ⟨by rw [hstate, hstate₁, (StepBudget.charge_eq_ok ht).1], ?_, ?_⟩
    · refine List.ext_getElem (by simp) fun i hi hi' => ?_
      simp [addKeys]
    · intro e he pair' hpair'
      rcases List.mem_cons.mp hpair' with rfl | hpair'
      · exact hall₁ e he
      · exact hall e he pair' hpair'

omit [DecidableEq Value] in
theorem encodeRows_eq_ok {port : Nat} {events : List (Row Value × Int)}
    {rows rows' : List PreparedRow} {s s' : Scope JoinState}
    (hlength : rows.length = events.length)
    (h : op.encodeRows port events rows s = .ok rows' s') :
    s'.state = s.state ∧ rows' = List.zipWith (fun e (row : PreparedRow) =>
        { row with row := op.fmt.canonicalRow (op.schema port) e.1 }) events rows ∧
      ∀ e ∈ events, op.fmt.Writable (op.schema port) e.1 := by
  induction events generalizing rows rows' s with
  | nil =>
    cases rows with
    | cons _ _ => cases hlength
    | nil =>
      obtain ⟨rfl, rfl⟩ := pure_eq_ok.mp h
      exact ⟨rfl, rfl, fun e he => by cases he⟩
  | cons e events ih =>
    cases rows with
    | nil => cases hlength
    | cons row rows =>
      obtain ⟨_, t, ht, h⟩ := bind_eq_ok.mp h
      obtain ⟨rfl, rfl⟩ := get_eq_ok.mp ht
      obtain ⟨size, t, ht, h⟩ := bind_eq_ok.mp h
      obtain ⟨-, rfl⟩ := ofExcept_eq_ok.mp ht
      obtain ⟨_, t, ht, h⟩ := bind_eq_ok.mp h
      obtain ⟨encoded, t₁, ht₁, h⟩ := bind_eq_ok.mp h
      obtain ⟨hencoded, rfl⟩ := ofExcept_eq_ok.mp ht₁
      obtain ⟨rest, t₂, ht₂, h⟩ := bind_eq_ok.mp h
      obtain ⟨rfl, rfl⟩ := pure_eq_ok.mp h
      obtain ⟨hstate, rfl, hall⟩ := ih (by simpa using hlength) ht₂
      have hrow : op.fmt.canonicalRowBounded (op.schema port) e.1 size = .ok encoded := by
        cases hr : op.fmt.canonicalRowBounded (op.schema port) e.1 size with
        | error e => rw [hr] at hencoded; cases hencoded
        | ok b => rw [hr] at hencoded; cases hencoded; rfl
      obtain ⟨hcanonical, hwritable⟩ := RowFormat.writable_of_ok hrow
      refine ⟨by rw [hstate, (StepBudget.charge_eq_ok ht).1], ?_, ?_⟩
      · rw [List.zipWith_cons_cons, hcanonical]
      · intro e' he'
        rcases List.mem_cons.mp he' with rfl | he'
        · exact hwritable
        · exact hall e' he'

/-- A window is prepared event by event, whatever the allowance. -/
theorem prepareWindow_eq_ok {port : Nat} {events : List (Row Value × Int)}
    {rows : List PreparedRow} {s s' : Scope JoinState}
    (h : op.prepareWindow port events s = .ok rows s') :
    s'.state = s.state ∧ rows = events.map (op.prepared port) ∧
      ∀ e ∈ events, op.Admitted port e.1 := by
  obtain ⟨_, t, ht, h⟩ := bind_eq_ok.mp h
  obtain ⟨keyed, t₁, ht₁, h⟩ := bind_eq_ok.mp h
  obtain ⟨hstate₁, rfl, hkeys⟩ := op.prepareKeys_eq_ok (by simp) ht₁
  obtain ⟨hstate, rfl, hrows⟩ := op.encodeRows_eq_ok (by simp) h
  refine ⟨by rw [hstate, hstate₁, (StepBudget.charge_eq_ok ht).1], ?_, ?_⟩
  · refine List.ext_getElem (by simp) fun i hi hi' => ?_
    simp [prepared]
  · intro e he
    exact ⟨hkeys e he, hrows e he⟩

/-! ## Identity of prepared rows -/

theorem addKeys_difference (port : Nat) (pairs : List (BoundKeyPair Ty Value))
    (event : Row Value × Int) (row : PreparedRow) :
    (op.addKeys port pairs event row).difference = row.difference := by
  induction pairs generalizing row with
  | nil => rfl
  | cons pair pairs ih =>
    simp only [addKeys, List.foldl_cons] at ih ⊢
    rw [ih]
    unfold addKey
    split <;> rfl

@[simp] theorem prepared_difference (port : Nat) (event : Row Value × Int) :
    (op.prepared port event).difference = event.2 :=
  op.addKeys_difference port op.keys event _

@[simp] theorem prepared_row (port : Nat) (event : Row Value × Int) :
    (op.prepared port event).row = op.fmt.canonicalRow (op.schema port) event.1 := rfl

omit [DecidableEq Value] in
/-- The canonical bytes of an admitted row determine it. -/
theorem prepared_row_injective {port : Nat} {r r' : Row Value} (h : op.Admitted port r)
    (h' : op.Admitted port r')
    (heq : op.fmt.canonicalRow (op.schema port) r = op.fmt.canonicalRow (op.schema port) r') :
    r = r' := by
  have := h.decodes
  rw [heq, h'.decodes] at this
  exact (Except.ok.inj this).symm

/-- Whether two key tuples make a pair: equal and free of `NULL`. -/
def keysMatch (left right : Row Value) : Bool :=
  match op.keyValues 0 left, op.keyValues 1 right with
  | .ok vs, .ok ws => vs == ws && vs.all fun v => decide (v ≠ op.fmt.null)
  | _, _ => false

/-- The key bytes of a tuple, one canonical value after another. -/
def keyBytes : List (BoundKeyPair Ty Value) → List Value → Bytes
  | pair :: pairs, value :: values =>
    op.fmt.canonical pair.left.field.dataType value ++ keyBytes pairs values
  | _, _ => []

omit [DecidableEq Value] in
theorem forPort_dataType (port : Nat) (pair : BoundKeyPair Ty Value) :
    (pair.forPort port).field.dataType = pair.left.field.dataType := by
  unfold BoundKeyPair.forPort
  split
  · rfl
  · exact pair.sameType.symm

/-- The keys of a row whose expressions all succeed. -/
theorem addKeys_eq {port : Nat} {pairs : List (BoundKeyPair Ty Value)} (event : Row Value × Int)
    (h : ∀ pair ∈ pairs, ∃ value, (pair.forPort port).expression event.1 = .ok value ∧
      Encodable op.fmt (pair.forPort port).field value) :
    ∃ values, (pairs.mapM fun pair => (pair.forPort port).expression event.1) = .ok values ∧
      List.Forall₂ (fun pair value => Encodable op.fmt (pair.forPort port).field value)
        pairs values ∧
      ∀ row, op.addKeys port pairs event row = { row with
        key := row.key ++ op.keyBytes pairs values
        matchable := row.matchable && values.all fun v => decide (v ≠ op.fmt.null) } := by
  induction pairs with
  | nil => exact ⟨[], rfl, .nil, fun row => by simp [addKeys, keyBytes]⟩
  | cons pair pairs ih =>
    obtain ⟨value, hvalue, hencodable⟩ := h pair (by simp)
    obtain ⟨values, hvalues, hall, hadd⟩ := ih fun p hp => h p (by simp [hp])
    refine ⟨value :: values, ?_, .cons hencodable hall, fun row => ?_⟩
    · rw [List.mapM_cons, hvalue, hvalues]
      rfl
    · show op.addKeys port pairs event (op.addKey port pair event row) = _
      rw [hadd]
      simp only [addKey, hvalue, keyBytes, forPort_dataType, List.append_assoc, List.all_cons,
        Bool.and_assoc]

omit [DecidableEq Value] in
/-- Key bytes determine the tuple: values are encoded one after another and each
encoding shows its own end. -/
theorem keyBytes_injective {pairs : List (BoundKeyPair Ty Value)} {p q : Nat}
    {values values' : List Value}
    (h : List.Forall₂ (fun pair value => Encodable op.fmt (pair.forPort p).field value)
      pairs values)
    (h' : List.Forall₂ (fun pair value => Encodable op.fmt (pair.forPort q).field value)
      pairs values')
    (heq : op.keyBytes pairs values = op.keyBytes pairs values') : values = values' := by
  induction h generalizing values' with
  | nil =>
    cases h'
    rfl
  | @cons pair value pairs values hv _ ih =>
    cases h' with
    | @cons _ value' _ values' hv' hrest =>
      obtain ⟨n, hv⟩ := hv
      obtain ⟨n', hv'⟩ := hv'
      simp only [keyBytes] at heq
      have hd := op.fmt.decode_encode _ _ _ _ hv (op.keyBytes pairs values)
      have hd' := op.fmt.decode_encode _ _ _ _ hv' (op.keyBytes pairs values')
      rw [forPort_dataType] at hd hd'
      rw [heq, hd'] at hd
      simp only [Except.ok.injEq, Prod.mk.injEq] at hd
      rw [hd.1, ih hrest hd.2.symm]

/-- The key tuple of an admitted row, as prepared. -/
theorem Admitted.values {op : EquiJoinOperation Ty Value} {port : Nat} {row : Row Value}
    (h : op.Admitted port row) : ∃ values, op.keyValues port row = .ok values ∧
      List.Forall₂ (fun pair value => Encodable op.fmt (pair.forPort port).field value)
        op.keys values ∧
      ∀ d, (op.prepared port (row, d)).key = op.keyBytes op.keys values ∧
        (op.prepared port (row, d)).matchable =
          values.all fun v => decide (v ≠ op.fmt.null) := by
  obtain ⟨values, hvalues, hall, _⟩ := op.addKeys_eq (row, 0) h.keys
  refine ⟨values, hvalues, hall, fun d => ?_⟩
  obtain ⟨values', hvalues', _, hadd⟩ := op.addKeys_eq (row, d) h.keys
  obtain rfl : values' = values := Except.ok.inj (hvalues'.symm.trans hvalues)
  unfold prepared
  rw [hadd]
  simp

/-- A pair matches when both rows lie in one partition of matchable rows. -/
theorem keysMatch_iff {l r : Row Value} (hl : op.Admitted 0 l) (hr : op.Admitted 1 r) (d d' : Int) :
    op.keysMatch l r = true ↔ (op.prepared 0 (l, d)).matchable = true ∧
      (op.prepared 0 (l, d)).key = (op.prepared 1 (r, d')).key := by
  obtain ⟨vs, hvs, hvall, hv⟩ := hl.values
  obtain ⟨ws, hws, hwall, hw⟩ := hr.values
  simp only [keysMatch, hvs, hws, (hv d).1, (hv d).2, (hw d').1, Bool.and_eq_true, beq_iff_eq]
  constructor
  · rintro ⟨rfl, hnull⟩
    exact ⟨hnull, rfl⟩
  · rintro ⟨hnull, hkey⟩
    exact ⟨op.keyBytes_injective hvall hwall hkey, hnull⟩

/-- Rows of one partition agree on matchability, on either port. -/
theorem matchable_of_key {p q : Nat} {r r' : Row Value} (h : op.Admitted p r)
    (h' : op.Admitted q r') {d d' : Int}
    (hkey : (op.prepared p (r, d)).key = (op.prepared q (r', d')).key) :
    (op.prepared p (r, d)).matchable = (op.prepared q (r', d')).matchable := by
  obtain ⟨vs, -, hvall, hv⟩ := h.values
  obtain ⟨ws, -, hwall, hw⟩ := h'.values
  rw [(hv d).1, (hw d').1] at hkey
  rw [(hv d).2, (hw d').2, op.keyBytes_injective hvall hwall hkey]

end EquiJoinOperation

end Dogpaddle.EquiJoin
