import Dogpaddle.AsOf.Order
import Dogpaddle.AsOf.Whole
import Dogpaddle.EquiJoin.Relate
import Dogpaddle.Lib.Nearest

/-!
# Rows and relations of the ordered join

* `Joinable`, `Wins`: when a right row may join a left row, and when it is the nearest such row,
  by equality values and order values;
* `joinable_iff`: the same by the bytes of the index;
* `Stored`: the rows kept for a port are a relation;
* `reference`: the join of two relations, over pairs of a left row and an optional right row.
-/

namespace Dogpaddle.AsOf

open Lib Store Dogpaddle.Relation

variable {Ty Value : Type}

/-! ## Directions -/

/-- Whether a right order value is on the joined side of a left one. -/
def AsOfDirection.Admits (direction : AsOfDirection) (left right : ScalarValue) : Prop :=
  match direction with
  | .backward allowExact => if allowExact then ¬ left.Lt right else right.Lt left
  | .forward allowExact => if allowExact then ¬ right.Lt left else left.Lt right

/-- Whether the second of two right order values on the joined side is the nearer one. -/
def AsOfDirection.Nearer (direction : AsOfDirection) (a b : ScalarValue) : Prop :=
  match direction with
  | .backward _ => a.Lt b
  | .forward _ => b.Lt a

/-- The same of order tuples: the first is further away. -/
def AsOfDirection.further (direction : AsOfDirection) (o o' : Bytes) : Prop :=
  match direction with
  | .backward _ => o < o'
  | .forward _ => o' < o

instance (direction : AsOfDirection) : IsStrictTotalOrder Bytes direction.further := by
  cases direction with
  | backward _ => exact inferInstanceAs (IsStrictTotalOrder Bytes (· < ·))
  | forward _ => exact inferInstanceAs (IsStrictTotalOrder Bytes (· > ·))

namespace AsOfJoinOperation

/-! ## Equality tuples -/

section Rows

variable [DecidableEq Value] (op : AsOfJoinOperation Ty Value)

/-- The canonical bytes of a row. -/
def rowBytes (port : Nat) (row : Row Value) : Bytes := op.fmt.canonicalRow (op.schema port) row

/-- The partition of a row. -/
def rowPartition (port : Nat) (row : Row Value) : Bytes := (op.prepared port (row, 0)).partition

/-- The order tuple of a row. -/
def rowOrder (port : Nat) (row : Row Value) : Bytes := orderTuple (op.component port row)

/-- Whether a row can match at all. -/
def rowMatchable (port : Nat) (row : Row Value) : Bool := (op.prepared port (row, 0)).matchable

/-- The index key of a row. -/
def indexKey (port : Nat) (row : Row Value) : Bytes :=
  rowKey (op.rowPartition port row) (op.rowOrder port row) (op.rowBytes port row)

theorem addEqualities_difference (port : Nat) (pairs : List (BoundPair Ty Value))
    (row : Row Value) (d : Int) (prepared : PreparedRow) :
    op.addEqualities port pairs (row, d) { prepared with difference := d } =
      { op.addEqualities port pairs (row, 0) prepared with difference := d } := by
  induction pairs generalizing prepared with
  | nil => rfl
  | cons pair pairs ih =>
    show op.addEqualities port pairs (row, d) (op.addEquality port pair (row, d) _) =
      { op.addEqualities port pairs (row, 0) (op.addEquality port pair (row, 0) prepared) with
        difference := d }
    rw [← ih]
    congr 1
    unfold addEquality
    cases (pair.forPort port).expression row <;> rfl

/-- Preparing a row with another difference changes that only. -/
theorem prepared_eq (port : Nat) (event : Row Value × Int) : op.prepared port event =
    ⟨op.indexKey port event.1, op.rowPartition port event.1, op.rowOrder port event.1,
      op.rowMatchable port event.1, event.2⟩ := by
  obtain ⟨row, d⟩ := event
  unfold indexKey rowPartition rowMatchable rowOrder rowBytes prepared addOrder
  rw [op.addEqualities_difference port op.equalities row d ⟨[], [], [0], true, 0⟩]

/-- The equality tuple of a row. -/
def equalityValues (port : Nat) (row : Row Value) : Except OperationError (List Value) :=
  op.equalities.mapM fun pair => (pair.forPort port).expression row

/-- The partition bytes of a tuple, one canonical value after another. -/
def equalityBytes : List (BoundPair Ty Value) → List Value → Bytes
  | pair :: pairs, value :: values =>
    op.fmt.canonical pair.left.field.dataType value ++ equalityBytes pairs values
  | _, _ => []

theorem addEqualities_eq {port : Nat} {pairs : List (BoundPair Ty Value)}
    (event : Row Value × Int)
    (h : ∀ pair ∈ pairs, ∃ value, (pair.forPort port).expression event.1 = .ok value ∧
      Encodable op.fmt (pair.forPort port).field value) :
    ∃ values, (pairs.mapM fun pair => (pair.forPort port).expression event.1) = .ok values ∧
      List.Forall₂ (fun pair value => Encodable op.fmt (pair.forPort port).field value)
        pairs values ∧
      ∀ row, op.addEqualities port pairs event row = { row with
        partition := row.partition ++ op.equalityBytes pairs values
        matchable := row.matchable && values.all fun v => decide (v ≠ op.fmt.null) } := by
  induction pairs with
  | nil => exact ⟨[], rfl, .nil, fun row => by simp [addEqualities, equalityBytes]⟩
  | cons pair pairs ih =>
    obtain ⟨value, hvalue, hencodable⟩ := h pair (by simp)
    obtain ⟨values, hvalues, hall, hadd⟩ := ih fun p hp => h p (by simp [hp])
    refine ⟨value :: values, ?_, .cons hencodable hall, ?_⟩
    · rw [List.mapM_cons, hvalue, hvalues]
      rfl
    · intro row
      show op.addEqualities port pairs event (op.addEquality port pair event row) = _
      rw [hadd]
      simp only [addEquality, hvalue, equalityBytes, forPort_dataType, List.append_assoc,
        List.all_cons, Bool.and_assoc]

omit [DecidableEq Value] in
/-- Partition bytes determine the tuple: each encoding shows its own end. -/
theorem equalityBytes_injective {pairs : List (BoundPair Ty Value)} {p q : Nat}
    {values values' : List Value}
    (h : List.Forall₂ (fun pair value => Encodable op.fmt (pair.forPort p).field value)
      pairs values)
    (h' : List.Forall₂ (fun pair value => Encodable op.fmt (pair.forPort q).field value)
      pairs values')
    (heq : op.equalityBytes pairs values = op.equalityBytes pairs values') :
    values = values' := by
  induction h generalizing values' with
  | nil =>
    cases h'
    rfl
  | @cons pair value pairs values hv _ ih =>
    cases h' with
    | @cons _ value' _ values' hv' hrest =>
      obtain ⟨n, hv⟩ := hv
      obtain ⟨n', hv'⟩ := hv'
      simp only [equalityBytes] at heq
      have hd := op.fmt.decode_encode _ _ _ _ hv (op.equalityBytes pairs values)
      have hd' := op.fmt.decode_encode _ _ _ _ hv' (op.equalityBytes pairs values')
      rw [forPort_dataType] at hd hd'
      rw [heq, hd'] at hd
      simp only [Except.ok.injEq, Prod.mk.injEq] at hd
      rw [hd.1, ih hrest hd.2.symm]

variable {op}

/-- The tuple of an admitted row, as prepared. -/
theorem Admitted.values {port : Nat} {row : Row Value} (h : op.Admitted port row) :
    ∃ values, op.equalityValues port row = .ok values ∧
      List.Forall₂ (fun pair value => Encodable op.fmt (pair.forPort port).field value)
        op.equalities values ∧
      op.rowPartition port row = op.equalityBytes op.equalities values ∧
      op.rowMatchable port row = ((values.all fun v => decide (v ≠ op.fmt.null)) &&
        (op.component port row).isSome) := by
  obtain ⟨values, hvalues, hall, hadd⟩ := op.addEqualities_eq (row, 0) h.equalities
  refine ⟨values, hvalues, hall, ?_, ?_⟩
  · simp [rowPartition, prepared, addOrder, hadd]
  · simp [rowMatchable, prepared, addOrder, hadd]

/-- Rows of one partition have one tuple, on either port. -/
theorem Admitted.values_of_partition {p q : Nat} {r r' : Row Value} (h : op.Admitted p r)
    (h' : op.Admitted q r') (heq : op.rowPartition p r = op.rowPartition q r') :
    op.equalityValues p r = op.equalityValues q r' := by
  obtain ⟨vs, hvs, hall, hpartition, -⟩ := h.values
  obtain ⟨ws, hws, hall', hpartition', -⟩ := h'.values
  rw [hpartition, hpartition'] at heq
  rw [hvs, hws, op.equalityBytes_injective hall hall' heq]

omit [DecidableEq Value] in
theorem Admitted.decodes {port : Nat} {row : Row Value} (h : op.Admitted port row) :
    op.fmt.decodeRow (op.schema port) (op.rowBytes port row) = .ok row :=
  h.writable.decodes

omit [DecidableEq Value] in
theorem rowBytes_inj {port : Nat} {r r' : Row Value} (h : op.Admitted port r)
    (h' : op.Admitted port r') : op.rowBytes port r = op.rowBytes port r' ↔ r = r' := by
  refine ⟨fun heq => ?_, fun heq => by rw [heq]⟩
  have := h.decodes
  rw [heq, h'.decodes] at this
  exact (Except.ok.inj this).symm

/-- The index key of an admitted row determines it. -/
theorem indexKey_inj {port : Nat} {r r' : Row Value} (h : op.Admitted port r)
    (h' : op.Admitted port r') : op.indexKey port r = op.indexKey port r' ↔ r = r' := by
  unfold indexKey
  rw [rowKey_inj, ← rowBytes_inj h h']
  refine ⟨fun heq => heq.2.2, fun heq => ?_⟩
  rw [rowBytes_inj h h'] at heq
  rw [heq]
  exact ⟨rfl, rfl, rfl⟩

theorem head_of_matchable {port : Nat} {row : Row Value} (h : op.Admitted port row)
    (hmatchable : op.rowMatchable port row = true) : (op.rowOrder port row).head? = some 1 := by
  obtain ⟨values, -, -, -, hm⟩ := h.values
  rw [hm, Bool.and_eq_true] at hmatchable
  obtain ⟨c, hc⟩ := Option.isSome_iff_exists.mp hmatchable.2
  rw [rowOrder, hc]
  rfl

/-- A row with an order value in the partition of a matchable row is matchable. -/
theorem matchable_of_partition {p q : Nat} {r r' : Row Value} (h : op.Admitted p r)
    (h' : op.Admitted q r') (hmatchable : op.rowMatchable p r = true)
    (heq : op.rowPartition q r' = op.rowPartition p r)
    (hhead : (op.rowOrder q r').head? = some 1) : op.rowMatchable q r' = true := by
  obtain ⟨vs, hvs, -, -, hm⟩ := h.values
  obtain ⟨ws, hws, -, -, hm'⟩ := h'.values
  have hsame := h.values_of_partition h' heq.symm
  rw [hvs, hws] at hsame
  cases hsame
  rw [hm, Bool.and_eq_true] at hmatchable
  rw [hm', Bool.and_eq_true]
  refine ⟨hmatchable.1, ?_⟩
  unfold rowOrder at hhead
  cases hc : op.component q r' with
  | none =>
    rw [hc] at hhead
    cases hhead
  | some c => rfl

/-! ## Joinable rows -/

variable (op)

/-- A right row a left row may join: equal tuples without `NULL`, and an order value on the
joined side. -/
def Joinable (left right : Row Value) : Prop :=
  ∃ values a b, op.equalityValues 0 left = .ok values ∧ op.equalityValues 1 right = .ok values ∧
    (∀ v ∈ values, v ≠ op.fmt.null) ∧ op.OrderScalar 0 left a ∧ op.OrderScalar 1 right b ∧
    a.isNull = false ∧ b.isNull = false ∧ op.direction.Admits a b

variable {op}

omit [DecidableEq Value] in
/-- The order component of a row with an order value is its key. -/
theorem Admitted.component {port : Nat} {row : Row Value} (h : op.Admitted port row)
    {a : ScalarValue} (ha : op.OrderScalar port row a) :
    orderKey op.orderType a = .ok (op.component port row) := by
  obtain ⟨a', ha', hkey⟩ := h.orderScalar
  rw [← ha'.unique ha]
  exact hkey

omit [DecidableEq Value] in
/-- Order tuples of rows with order values compare as the values do. -/
theorem rowOrder_lt {p q : Nat} {r r' : Row Value} (h : op.Admitted p r) (h' : op.Admitted q r')
    {a b : ScalarValue} (ha : op.OrderScalar p r a) (hb : op.OrderScalar q r' b)
    (hnull : a.isNull = false) (hnull' : b.isNull = false) :
    op.rowOrder p r < op.rowOrder q r' ↔ a.Lt b := by
  have hkey := h.component ha
  have hkey' := h'.component hb
  unfold rowOrder
  cases hc : op.component p r with
  | none =>
    rw [hc] at hkey
    rw [(isNull_of_orderKey hkey).mpr rfl] at hnull
    cases hnull
  | some c =>
    cases hc' : op.component q r' with
    | none =>
      rw [hc'] at hkey'
      rw [(isNull_of_orderKey hkey').mpr rfl] at hnull'
      cases hnull'
    | some c' =>
      rw [hc] at hkey
      rw [hc'] at hkey'
      rw [orderTuple_lt, orderKey_lt hkey hkey']

omit [DecidableEq Value] in
/-- An order value is on the joined side when its tuple is. -/
theorem admits_iff {l r : Row Value} (hl : op.Admitted 0 l) (hr : op.Admitted 1 r)
    {a b : ScalarValue} (ha : op.OrderScalar 0 l a) (hb : op.OrderScalar 1 r b)
    (hnull : a.isNull = false) (hnull' : b.isNull = false) : op.direction.Admits a b ↔
      Below op.direction.further op.direction.allowExact (op.rowOrder 1 r) (op.rowOrder 0 l) := by
  have hleft := rowOrder_lt hl hr ha hb hnull hnull'
  have hright := rowOrder_lt hr hl hb ha hnull' hnull
  unfold Below
  cases op.direction with
  | backward allowExact =>
    simp only [AsOfDirection.Admits, AsOfDirection.further, AsOfDirection.allowExact]
    cases allowExact with
    | true => simp [← hleft, le_iff_lt_or_eq]
    | false => simp [hright]
  | forward allowExact =>
    simp only [AsOfDirection.Admits, AsOfDirection.further, AsOfDirection.allowExact]
    cases allowExact with
    | true => simp [← hright, le_iff_lt_or_eq, eq_comm]
    | false => simp [hleft]

omit [DecidableEq Value] in
/-- A right row is nearer than another one when its order tuple is. -/
theorem nearer_iff {r r' : Row Value} (hr : op.Admitted 1 r) (hr' : op.Admitted 1 r')
    {a b : ScalarValue} (ha : op.OrderScalar 1 r a) (hb : op.OrderScalar 1 r' b)
    (hnull : a.isNull = false) (hnull' : b.isNull = false) :
    op.direction.Nearer a b ↔ op.direction.further (op.rowOrder 1 r) (op.rowOrder 1 r') := by
  cases op.direction with
  | backward _ => exact (rowOrder_lt hr hr' ha hb hnull hnull').symm
  | forward _ => exact (rowOrder_lt hr' hr hb ha hnull' hnull).symm

/-- Joinable rows are matchable rows of one partition on the right sides. -/
theorem joinable_iff {l r : Row Value} (hl : op.Admitted 0 l) (hr : op.Admitted 1 r) :
    op.Joinable l r ↔ op.rowMatchable 0 l = true ∧ op.rowMatchable 1 r = true ∧
      op.rowPartition 1 r = op.rowPartition 0 l ∧
      Below op.direction.further op.direction.allowExact (op.rowOrder 1 r) (op.rowOrder 0 l) := by
  obtain ⟨vs, hvs, hall, hpartition, hm⟩ := hl.values
  obtain ⟨ws, hws, hall', hpartition', hm'⟩ := hr.values
  obtain ⟨a, ha, hkey⟩ := hl.orderScalar
  obtain ⟨b, hb, hkey'⟩ := hr.orderScalar
  have hnull : (op.component 0 l).isSome = true ↔ a.isNull = false := by
    have := isNull_of_orderKey hkey
    cases hc : op.component 0 l <;> simp [hc] at this ⊢ <;> exact this
  have hnull' : (op.component 1 r).isSome = true ↔ b.isNull = false := by
    have := isNull_of_orderKey hkey'
    cases hc : op.component 1 r <;> simp [hc] at this ⊢ <;> exact this
  rw [hm, hm', hpartition, hpartition', Bool.and_eq_true, Bool.and_eq_true, hnull, hnull']
  simp only [List.all_eq_true, decide_eq_true_eq]
  constructor
  · intro h
    obtain ⟨values, a', b', hleft, hright, hvalues, ha', hb', hn, hn', hadmits⟩ := h
    obtain rfl := ha'.unique ha
    obtain rfl := hb'.unique hb
    rw [hvs] at hleft
    rw [hws] at hright
    cases hleft
    cases hright
    exact ⟨⟨hvalues, hn⟩, ⟨hvalues, hn'⟩, rfl, (admits_iff hl hr ha hb hn hn').mp hadmits⟩
  · intro h
    obtain ⟨⟨hvalues, hn⟩, ⟨-, hn'⟩, hsame, hbelow⟩ := h
    obtain rfl := op.equalityBytes_injective hall' hall hsame
    exact ⟨ws, a, b, hvs, hws, hvalues, ha, hb, hn, hn', (admits_iff hl hr ha hb hn hn').mpr hbelow⟩

/-! ## The reference join -/

/-- A present right row that a left row may join and that no other such row is nearer than. -/
structure Wins (op : AsOfJoinOperation Ty Value) (right : Bag (Row Value)) (l r : Row Value) :
    Prop where
  present : 0 < right r
  joinable : op.Joinable l r
  nearest : ∀ r', 0 < right r' → op.Joinable l r' → ∀ b b', op.OrderScalar 1 r b →
    op.OrderScalar 1 r' b' → ¬ op.direction.Nearer b b'

variable (op) in
open scoped Classical in
/-- The ordered left join of two relations: a left row with its nearest right row, or alone.
The weights of the right rows do not count. -/
noncomputable def reference (left right : Bag (Row Value)) :
    Bag (Row Value × Option (Row Value))
  | (l, some r) => if op.Wins right l r then left l else 0
  | (l, none) => if ∃ r, 0 < right r ∧ op.Joinable l r then 0 else left l

variable (op) in
/-- The right rows a left row is joined with by the index. -/
def Competes (right : Bag (Row Value)) (l r : Row Value) : Prop :=
  0 < right r ∧ op.rowMatchable 0 l = true ∧ op.rowMatchable 1 r = true ∧
    op.rowPartition 1 r = op.rowPartition 0 l

variable (op) in
/-- The winner of a left row by the index, if it has one. -/
def Won (right : Bag (Row Value)) (l : Row Value) (w : Option (Row Value)) : Prop :=
  Lib.Winner op.direction.further op.direction.allowExact (op.Competes right l) (op.rowOrder 1)
    (op.rowOrder 0 l) w

theorem joinable_of_competes {right : Bag (Row Value)} {l r : Row Value} (hl : op.Admitted 0 l)
    (hright : ∀ r, 0 < right r → op.Admitted 1 r) (h : op.Competes right l r)
    (hbelow : Below op.direction.further op.direction.allowExact (op.rowOrder 1 r)
      (op.rowOrder 0 l)) : op.Joinable l r :=
  (joinable_iff hl (hright r h.1)).mpr ⟨h.2.1, h.2.2.1, h.2.2.2, hbelow⟩

theorem competes_of_joinable {right : Bag (Row Value)} {l r : Row Value} (hl : op.Admitted 0 l)
    (hright : ∀ r, 0 < right r → op.Admitted 1 r) (hpos : 0 < right r) (h : op.Joinable l r) :
    op.Competes right l r ∧ Below op.direction.further op.direction.allowExact
      (op.rowOrder 1 r) (op.rowOrder 0 l) := by
  obtain ⟨hml, hmr, hpartition, hbelow⟩ := (joinable_iff hl (hright r hpos)).mp h
  exact ⟨⟨hpos, hml, hmr, hpartition⟩, hbelow⟩

/-- The nearest rows by values are the nearest ones by the index. -/
theorem wins_iff {right : Bag (Row Value)} {l r : Row Value} (hl : op.Admitted 0 l)
    (hright : ∀ r, 0 < right r → op.Admitted 1 r) : op.Wins right l r ↔
      Nearest op.direction.further op.direction.allowExact (op.Competes right l)
        (op.rowOrder 1) (op.rowOrder 0 l) r := by
  constructor
  · intro h
    obtain ⟨hcompetes, hbelow⟩ := competes_of_joinable hl hright h.present h.joinable
    refine ⟨hcompetes, hbelow, ?_⟩
    intro r' hr' hbelow' hfurther
    have hjoinable' := joinable_of_competes hl hright hr' hbelow'
    obtain ⟨_, _, b, _, _, _, _, hb, _, hn, _⟩ := h.joinable
    have hnearest := h.nearest r' hr'.1 hjoinable'
    obtain ⟨_, _, b', _, _, _, _, hb', _, hn', _⟩ := hjoinable'
    apply hnearest b b' hb hb'
    exact (nearer_iff (hright r h.present) (hright r' hr'.1) hb hb' hn hn').mpr hfurther
  · intro h
    have hjoinable := joinable_of_competes hl hright h.mem h.below
    refine ⟨h.mem.1, hjoinable, ?_⟩
    intro r' hpos hjoinable' b b' hb hb' hnearer
    obtain ⟨hcompetes', hbelow'⟩ := competes_of_joinable hl hright hpos hjoinable'
    obtain ⟨_, _, c, _, _, _, _, hc, _, hn, _⟩ := hjoinable
    obtain ⟨_, _, c', _, _, _, _, hc', _, hn', _⟩ := hjoinable'
    rw [hc.unique hb] at hn
    rw [hc'.unique hb'] at hn'
    apply h.least r' hcompetes' hbelow'
    exact (nearer_iff (hright r h.mem.1) (hright r' hpos) hb hb' hn hn').mp hnearer

/-- The reference of a left row with a winner. -/
theorem reference_of_won {left right : Bag (Row Value)} {l : Row Value} {w : Option (Row Value)}
    (hl : op.Admitted 0 l) (hright : ∀ r, 0 < right r → op.Admitted 1 r)
    (h : op.Won right l w) (x : Option (Row Value)) :
    op.reference left right (l, x) = if x = w then left l else 0 := by
  cases w with
  | none =>
    have hnone : ∀ r, 0 < right r → ¬ op.Joinable l r := by
      intro r hpos hjoinable
      obtain ⟨hcompetes, hbelow⟩ := competes_of_joinable hl hright hpos hjoinable
      exact h r hcompetes hbelow
    cases x with
    | none =>
      rw [reference, if_neg, if_pos rfl]
      intro hex
      obtain ⟨r, hpos, hjoinable⟩ := hex
      exact hnone r hpos hjoinable
    | some r =>
      rw [reference, if_neg, if_neg (by simp)]
      intro hwins
      exact hnone r hwins.present hwins.joinable
  | some r₀ =>
    have hwins : ∀ r, op.Wins right l r ↔ r = r₀ := by
      intro r
      rw [wins_iff hl hright]
      constructor
      · exact h.2 r
      · intro heq
        rw [heq]
        exact h.1
    cases x with
    | none =>
      have hw := (hwins r₀).mpr rfl
      rw [reference, if_pos ⟨r₀, hw.present, hw.joinable⟩, if_neg (by simp)]
    | some r =>
      rw [reference]
      simp only [hwins, Option.some.injEq]

/-! ## Stored relations -/

/-- The rows kept for a port are a relation. -/
structure Stored (op : AsOfJoinOperation Ty Value) (s : AsOfState) (port : Nat)
    (relation : Bag (Row Value)) : Prop where
  weight : ∀ r, op.Admitted port r →
    (multiplicity (s.rows port) (op.indexKey port r) : Int) = relation r
  absent : ∀ r, ¬ op.Admitted port r → relation r = 0
  rows : ∀ key, 0 < multiplicity (s.rows port) key →
    ∃ r, op.Admitted port r ∧ key = op.indexKey port r

variable (op) in
theorem stored_initial (port : Nat) : op.Stored AsOfState.initial port 0 := by
  have hempty : AsOfState.initial.rows port = OrdMap.empty := by
    unfold AsOfState.rows AsOfState.initial
    split <;> rfl
  refine ⟨?_, fun _ _ => rfl, ?_⟩
  · intro r _
    rw [hempty]
    rfl
  · intro key h
    rw [hempty] at h
    exact absurd h (lt_irrefl _)

variable {s : AsOfState} {port : Nat} {relation : Bag (Row Value)}

theorem Stored.admitted (h : op.Stored s port relation) {r : Row Value} (hpos : 0 < relation r) :
    op.Admitted port r := by
  by_contra ha
  rw [h.absent r ha] at hpos
  exact lt_irrefl _ hpos

theorem Stored.nonneg (h : op.Stored s port relation) (r : Row Value) : 0 ≤ relation r := by
  by_cases ha : op.Admitted port r
  · rw [← h.weight r ha]
    exact Int.natCast_nonneg _
  · rw [h.absent r ha]

/-- The entries of a map are its rows with their weights. -/
theorem Stored.mem_entries (h : op.Stored s port relation) {key : Bytes} {w : ℕ+} :
    (key, w) ∈ (s.rows port).entries ↔
      ∃ r, op.Admitted port r ∧ op.indexKey port r = key ∧ relation r = ((w : Nat) : Int) := by
  rw [mem_entries_iff_multiplicity]
  constructor
  · intro hw
    obtain ⟨r, ha, rfl⟩ := h.rows key (by rw [hw]; exact w.pos)
    exact ⟨r, ha, rfl, by rw [← h.weight r ha, hw]⟩
  · intro hex
    obtain ⟨r, ha, rfl, hw⟩ := hex
    rw [← h.weight r ha] at hw
    exact_mod_cast hw

omit [DecidableEq Value] in
theorem rows_setRow {q : Nat} (hport : port < 2) (hq : q < 2) (s : AsOfState) (key : Bytes)
    (w : Nat) : (s.setRow port key w).rows q =
      if q = port then setMultiplicity (s.rows port) key w else s.rows q := by
  obtain rfl | rfl : port = 0 ∨ port = 1 := by omega
  all_goals obtain rfl | rfl : q = 0 ∨ q = 1 := by omega
  all_goals simp [AsOfState.setRow, AsOfState.rows]

/-- Storing a driving row steps its relation and keeps the opposite one. -/
theorem Stored.setRow {own opposite : Bag (Row Value)} (hport : port < 2)
    (hown : op.Stored s port own) (hopposite : op.Stored s (1 - port) opposite) {x : Row Value}
    (hx : op.Admitted port x) {d : Int} {after : Nat} (hafter : (after : Int) = own x + d) :
    op.Stored (s.setRow port (op.indexKey port x) after) port (EquiJoin.stepped own x d) ∧
      op.Stored (s.setRow port (op.indexKey port x) after) (1 - port) opposite := by
  have hq : 1 - port < 2 := by omega
  have hne : 1 - port ≠ port := by omega
  refine ⟨⟨?_, ?_, ?_⟩, ⟨?_, hopposite.absent, ?_⟩⟩
  · intro r ha
    rw [rows_setRow hport hport, if_pos rfl, multiplicity_setMultiplicity,
      EquiJoin.stepped_apply]
    by_cases hr : r = x
    · subst hr
      simp [hafter]
    · rw [if_neg fun heq => hr ((indexKey_inj ha hx).mp heq), if_neg hr, add_zero, hown.weight r ha]
  · intro r ha
    rw [EquiJoin.stepped_apply, hown.absent r ha, if_neg fun h : r = x => ha (h ▸ hx), add_zero]
  · intro key hpos
    rw [rows_setRow hport hport, if_pos rfl, multiplicity_setMultiplicity] at hpos
    by_cases hkey : key = op.indexKey port x
    · exact ⟨x, hx, hkey⟩
    · rw [if_neg hkey] at hpos
      exact hown.rows key hpos
  · intro r ha
    rw [rows_setRow hport hq, if_neg hne]
    exact hopposite.weight r ha
  · intro key hpos
    rw [rows_setRow hport hq, if_neg hne] at hpos
    exact hopposite.rows key hpos

omit [DecidableEq Value] in
/-- A checked weight is the old one plus the difference. -/
theorem checkedWeight_eq_ok {before after : Nat} {d : Int}
    (h : checkedWeight before d = .ok after) : (after : Int) = before + d := by
  unfold checkedWeight at h
  split at h
  · split at h
    · cases h
      omega
    · cases h
  · split at h
    · cases h
      omega
    · cases h

end Rows

end AsOfJoinOperation

end Dogpaddle.AsOf
