import Dogpaddle.AsOf.Event

/-!
# What the index ranges select

The ranges the join scans are built from prefixes and their successors:

* `rangeForPartition` selects the rows of a partition with an order value
  (`rangeForPartition_contains`);
* `bucketRange` those of one order value (`bucketRange_contains`);
* `neighborRange` those of a partition beyond an order value, on one side of it
  (`neighborRange_contains`).

No range reaches into another partition. Within a partition, prepared rows compare as their
order values do (`prepared_key_lt`).
-/

namespace Dogpaddle.AsOf

open Lib Store Dogpaddle.Relation

variable {Ty Value : Type}

/-! ## Ends of ranges -/

theorem withinLower_fromPrefix {key bytes : Bytes} :
    withinLower key (fromPrefix bytes) = true ↔ bytes ≤ key := by
  unfold withinLower fromPrefix
  rw [le_iff_lt_or_eq, eq_comm (a := bytes)]
  simp only [Bool.and_true, Bool.or_eq_true, decide_eq_true_eq]

theorem withinUpper_upToPrefix {key bytes : Bytes} :
    withinUpper key (upToPrefix bytes) = true ↔ key < bytes ∨ bytes <+: key := by
  unfold withinUpper upToPrefix
  cases hend : prefixSuccessor bytes with
  | none => simpa using lt_or_prefix_of_prefixSuccessor hend key
  | some t =>
    rw [← lt_prefixSuccessor hend]
    simp

theorem withinUpper_beforePrefix {key bytes : Bytes} :
    withinUpper key (beforePrefix bytes) = true ↔ key < bytes := by
  simp [withinUpper, beforePrefix]

/-- The start after a prefix: whatever is neither below it nor begins with it. A prefix
without a successor has nothing after it, but then the start is open. -/
theorem withinLower_afterPrefix {key bytes end_ : Bytes} (h : prefixSuccessor bytes = some end_) :
    withinLower key (afterPrefix bytes) = true ↔ ¬ (key < bytes ∨ bytes <+: key) := by
  unfold withinLower afterPrefix
  rw [h, ← lt_prefixSuccessor h, not_lt, le_iff_lt_or_eq, eq_comm (a := end_)]
  simp only [Option.map_some, Bool.and_true, Bool.or_eq_true, decide_eq_true_eq]

theorem orderPrefix_successor (partition order : Bytes) :
    prefixSuccessor (orderPrefix partition order) =
      some (partitionPrefix partition ++ (escape order ++ [0, 1])) := by
  have h := prefixSuccessor_concat (partitionPrefix partition ++ (escape order ++ [0]))
    (b := 0) (by decide)
  unfold orderPrefix frame
  rw [show partitionPrefix partition ++ (escape order ++ [0, 0]) =
    partitionPrefix partition ++ (escape order ++ [0]) ++ [0] by simp, h]
  simp

/-- A range from a prefix up to it selects the keys that begin with it. -/
theorem prefixRange_contains {bytes key : Bytes} :
    rangeContains (fromPrefix bytes, upToPrefix bytes) key = true ↔ bytes <+: key := by
  unfold rangeContains
  rw [Bool.and_eq_true, withinLower_fromPrefix, withinUpper_upToPrefix]
  constructor
  · rintro ⟨hle, hlt | hprefix⟩
    · exact absurd hlt (not_lt.mpr hle)
    · exact hprefix
  · rintro ⟨rest, rfl⟩
    exact ⟨le_append _ _, .inr ⟨rest, rfl⟩⟩

/-! ## The ranges of the join -/

theorem rangeForPartition_contains {p q o r : Bytes} :
    rangeContains (rangeForPartition p) (rowKey q o r) = true ↔ q = p ∧ o.head? = some 1 := by
  unfold rangeForPartition
  rw [prefixRange_contains, matchable_isPrefix_rowKey, eq_comm]

theorem bucketRange_contains {p o q o' r : Bytes} :
    rangeContains (bucketRange p o) (rowKey q o' r) = true ↔ q = p ∧ o' = o := by
  unfold bucketRange
  rw [prefixRange_contains, orderPrefix_isPrefix_rowKey, eq_comm, eq_comm (a := o)]

theorem frame_append_lt_one {order rest : Bytes} : frame order ++ rest < [1] ↔ order < [1] := by
  cases order with
  | nil => simp [List.cons_lt_cons_iff]
  | cons x order =>
    rw [frame_cons]
    by_cases hx : x = 0
    · simp [hx, List.cons_lt_cons_iff]
    · simp [hx, List.cons_lt_cons_iff]

theorem rowKey_lt_matchable {p q o r : Bytes} :
    rowKey q o r < matchablePartitionPrefix p ↔ q < p ∨ q = p ∧ o < [1] := by
  unfold matchablePartitionPrefix rowKey orderPrefix partitionPrefix
  rw [List.append_assoc, frame_append_lt, frame_append_lt_one]

theorem one_le_of_head {order : Bytes} (h : order.head? = some 1) : [1] ≤ order := by
  cases order with
  | nil => cases h
  | cons x order =>
    obtain rfl : x = 1 := Option.some.inj h
    exact le_append [1] order

theorem head_of_one_le {a b : Bytes} (ha : [1] ≤ a) (hab : a < b) (hb : b.head? = some 1) :
    a.head? = some 1 := by
  cases a with
  | nil => exact absurd ha (by decide)
  | cons x a =>
    cases b with
    | nil => cases hb
    | cons y b =>
      obtain rfl : y = 1 := Option.some.inj hb
      rw [List.cons_lt_cons_iff] at hab
      rcases hab with hx | ⟨rfl, -⟩
      · -- a smaller first byte is zero, and then the string is below `[1]`
        refine absurd ?_ (not_lt.mpr ha)
        rw [List.cons_lt_cons_iff]
        exact .inl hx
      · rfl

/-- The rows of a partition that have an order value on one side of a given one. -/
theorem neighborRange_contains {row : PreparedRow} {forward : Bool} {q o r : Bytes}
    (hrow : row.order.head? = some 1) :
    rangeContains (AsOfJoinOperation.neighborRange row forward) (rowKey q o r) = true ↔
      q = row.partition ∧ o.head? = some 1 ∧
        if forward then row.order < o else o < row.order := by
  unfold AsOfJoinOperation.neighborRange
  have hone := one_le_of_head hrow
  cases forward with
  | true =>
    simp only [if_true, rangeContains, Bool.and_eq_true]
    rw [withinLower_afterPrefix (orderPrefix_successor _ _), orderPrefix_isPrefix_rowKey,
      rowKey_lt_orderPrefix]
    show _ ∧ withinUpper _ (upToPrefix _) = true ↔ _
    rw [withinUpper_upToPrefix, matchable_isPrefix_rowKey, rowKey_lt_matchable]
    constructor
    · rintro ⟨hafter, (hq | ⟨rfl, ho⟩) | ⟨rfl, ho⟩⟩
      · exact absurd (.inl (.inl hq)) hafter
      · exact absurd (.inl (.inr ⟨rfl, ho.trans_le hone⟩)) hafter
      · refine ⟨rfl, ho, lt_of_le_of_ne (not_lt.mp fun h => ?_) fun h => ?_⟩
        · exact hafter (.inl (.inr ⟨rfl, h⟩))
        · exact hafter (.inr ⟨rfl, h⟩)
    · rintro ⟨rfl, ho, hlt⟩
      refine ⟨?_, .inr ⟨rfl, ho⟩⟩
      rintro ((h | ⟨-, h⟩) | ⟨-, h⟩)
      · exact lt_irrefl _ h
      · exact lt_asymm hlt h
      · exact hlt.ne h
  | false =>
    simp only [Bool.false_eq_true, if_false, rangeContains, Bool.and_eq_true]
    rw [withinUpper_beforePrefix, rowKey_lt_orderPrefix]
    show withinLower _ (fromPrefix _) = true ∧ _ ↔ _
    rw [withinLower_fromPrefix, ← not_lt, rowKey_lt_matchable]
    constructor
    · rintro ⟨hfrom, hq | ⟨rfl, ho⟩⟩
      · exact absurd (.inl hq) hfrom
      · exact ⟨rfl, head_of_one_le (not_lt.mp fun h => hfrom (.inr ⟨rfl, h⟩)) ho hrow, ho⟩
    · rintro ⟨rfl, ho, hlt⟩
      refine ⟨?_, .inr ⟨rfl, hlt⟩⟩
      rintro (h | ⟨-, h⟩)
      · exact lt_irrefl _ h
      · exact not_lt.mpr (one_le_of_head ho) h

/-! ## Prepared rows compare as their order values -/

namespace AsOfJoinOperation

variable (op : AsOfJoinOperation Ty Value)

/-- The order value of a row, read as a scalar. -/
def OrderScalar (port : Nat) (row : Row Value) (scalar : ScalarValue) : Prop :=
  ∃ value, (op.order.forPort port).expression row = .ok value ∧
    op.view.scalar (op.order.forPort port).field.dataType value = .ok scalar

/-- The type of the order values, which is that of both ports. -/
def orderType : DataType := op.view.dataType op.order.left.field.dataType

theorem forPort_dataType (pair : BoundPair Ty Value) (port : Nat) :
    (pair.forPort port).field.dataType = pair.left.field.dataType := by
  unfold BoundPair.forPort
  split
  · rfl
  · exact pair.sameType.symm

theorem OrderScalar.unique {op : AsOfJoinOperation Ty Value} {port : Nat} {row : Row Value}
    {a b : ScalarValue} (ha : op.OrderScalar port row a) (hb : op.OrderScalar port row b) :
    a = b := by
  obtain ⟨value, hvalue, ha⟩ := ha
  obtain ⟨value', hvalue', hb⟩ := hb
  rw [hvalue] at hvalue'
  cases hvalue'
  rw [ha] at hb
  exact Except.ok.inj hb

/-- The order component of an admitted row is the key of its order value. -/
theorem Admitted.orderScalar {op : AsOfJoinOperation Ty Value} {port : Nat} {row : Row Value}
    (h : op.Admitted port row) : ∃ scalar, op.OrderScalar port row scalar ∧
      orderKey op.orderType scalar = .ok (op.component port row) := by
  obtain ⟨value, hvalue, hcomponent⟩ := h.order
  unfold orderComponent at hcomponent
  cases hscalar : op.view.scalar (op.order.forPort port).field.dataType value with
  | error e => rw [hscalar] at hcomponent; cases hcomponent
  | ok scalar =>
    rw [hscalar] at hcomponent
    refine ⟨scalar, ⟨value, hvalue, hscalar⟩, ?_⟩
    rw [orderType, ← forPort_dataType op.order port]
    exact mapError_eq_ok.mp hcomponent

variable [DecidableEq Value]

/-- Only the index key of a prepared row depends on the exact row. -/
theorem prepared_key (port : Nat) (event : Row Value × Int) :
    (op.prepared port event).key = rowKey (op.prepared port event).partition
      (orderTuple (op.component port event.1)) (op.fmt.canonicalRow (op.schema port) event.1) :=
  rfl

theorem orderTuple_lt {c c' : Bytes} :
    orderTuple (some c) < orderTuple (some c') ↔ c < c' := by
  simp [orderTuple]

theorem orderTuple_inj {c c' : Bytes} :
    orderTuple (some c) = orderTuple (some c') ↔ c = c' := by
  simp [orderTuple]

/-- Within a partition, a row with an order value stands before another one when its value
is smaller, or its exact bytes are among equal values. -/
theorem prepared_key_lt {port port' : Nat} {event event' : Row Value × Int} {a b : ScalarValue}
    (hadmitted : op.Admitted port event.1) (hadmitted' : op.Admitted port' event'.1)
    (ha : op.OrderScalar port event.1 a) (hb : op.OrderScalar port' event'.1 b)
    (hnull : a.isNull = false) (hnull' : b.isNull = false)
    (hpartition : (op.prepared port event).partition = (op.prepared port' event').partition) :
    (op.prepared port event).key < (op.prepared port' event').key ↔
      a.Lt b ∨ ¬ a.Lt b ∧ ¬ b.Lt a ∧ op.fmt.canonicalRow (op.schema port) event.1 <
        op.fmt.canonicalRow (op.schema port') event'.1 := by
  obtain ⟨a', ha', hkey⟩ := hadmitted.orderScalar
  obtain rfl := ha'.unique ha
  obtain ⟨b', hb', hkey'⟩ := hadmitted'.orderScalar
  obtain rfl := hb'.unique hb
  have hsome := isNull_of_orderKey hkey
  have hsome' := isNull_of_orderKey hkey'
  rw [op.prepared_key, op.prepared_key, hpartition, rowKey_lt]
  cases hc : op.component port event.1 with
  | none => rw [hsome.mpr hc] at hnull; cases hnull
  | some c =>
    cases hc' : op.component port' event'.1 with
    | none => rw [hsome'.mpr hc'] at hnull'; cases hnull'
    | some c' =>
      rw [hc] at hkey
      rw [hc'] at hkey'
      rw [orderTuple_lt, orderTuple_inj, ← orderKey_lt hkey hkey', ← orderKey_lt hkey' hkey]
      simp only [lt_irrefl, false_or, true_and, not_lt]
      constructor
      · rintro (h | ⟨rfl, h⟩)
        · exact .inl h
        · exact .inr ⟨le_rfl, le_rfl, h⟩
      · rintro (h | ⟨hle, hge, h⟩)
        · exact .inl h
        · exact .inr ⟨le_antisymm hge hle, h⟩

/-- The matchable range of a partition has a prepared row exactly when the row is of the
partition and has an order value. -/
theorem prepared_in_partition {port : Nat} {event : Row Value × Int} {a : ScalarValue}
    (hadmitted : op.Admitted port event.1) (ha : op.OrderScalar port event.1 a) (p : Bytes) :
    rangeContains (rangeForPartition p) (op.prepared port event).key = true ↔
      (op.prepared port event).partition = p ∧ a.isNull = false := by
  obtain ⟨a', ha', hkey⟩ := hadmitted.orderScalar
  obtain rfl := ha'.unique ha
  rw [op.prepared_key, rangeForPartition_contains]
  have hsome := isNull_of_orderKey hkey
  cases hc : op.component port event.1 with
  | none => simp [hsome.mpr hc, orderTuple]
  | some c =>
    have hnull : a'.isNull = false := by
      rw [← Bool.not_eq_true, hsome, hc]
      exact Option.some_ne_none c
    simp [hnull, orderTuple]

end AsOfJoinOperation

/-- Index keys order rows exactly: the key is injective, compares by partition, order and row,
and is read back from its images only; the scanned ranges hold exactly the rows they are meant
for; and within a partition the prepared rows stand in the order of their order values, which
the components give back. -/
theorem index_orders_rows {Ty Value : Type} [DecidableEq Value]
    (op : AsOfJoinOperation Ty Value) :
    (∀ p o r p' o' r' : Bytes, rowKey p o r = rowKey p' o' r' → p = p' ∧ o = o' ∧ r = r') ∧
    (∀ p o r p' o' r' : Bytes, rowKey p o r < rowKey p' o' r' ↔
      p < p' ∨ p = p' ∧ (o < o' ∨ o = o' ∧ r < r')) ∧
    (∀ encoded parsed, parseRowKey encoded = .ok parsed ↔
      encoded = rowKey parsed.partition parsed.order parsed.row) ∧
    (∀ encoded, rowSuffix encoded = (parseRowKey encoded).map ParsedIndexKey.row) ∧
    (∀ p q o r : Bytes, rangeContains (rangeForPartition p) (rowKey q o r) = true ↔
      q = p ∧ o.head? = some 1) ∧
    (∀ p o q o' r : Bytes, rangeContains (bucketRange p o) (rowKey q o' r) = true ↔
      q = p ∧ o' = o) ∧
    (∀ row forward (q o r : Bytes), row.order.head? = some 1 →
      (rangeContains (AsOfJoinOperation.neighborRange row forward) (rowKey q o r) = true ↔
        q = row.partition ∧ o.head? = some 1 ∧
          if forward then row.order < o else o < row.order)) ∧
    (∀ port events rows s s', op.prepare port events s = .ok rows s' →
      rows.length = events.length ∧
      ∀ (i : Nat) e row, events[i]? = some e → rows[i]? = some row → ∃ a,
        op.OrderScalar port e.1 a ∧ ∀ p, rangeContains (rangeForPartition p) row.key = true ↔
          row.partition = p ∧ a.isNull = false) ∧
    (∀ port events rows s s' port' events' rows' t t',
      op.prepare port events s = .ok rows s' → op.prepare port' events' t = .ok rows' t' →
      ∀ (i j : Nat) e e' row row', events[i]? = some e → rows[i]? = some row →
        events'[j]? = some e' → rows'[j]? = some row' →
        ∀ a b, op.OrderScalar port e.1 a → op.OrderScalar port' e'.1 b → a.isNull = false →
          b.isNull = false → row.partition = row'.partition →
          (row.key < row'.key ↔ a.Lt b ∨ ¬ a.Lt b ∧ ¬ b.Lt a ∧
            op.fmt.canonicalRow (op.schema port) e.1 <
              op.fmt.canonicalRow (op.schema port') e'.1)) ∧
    (∀ dataType value x, value.dataType = dataType ∧ orderKey dataType value = .ok (some x) ↔
      orderedValue dataType x = .ok value) := by
  refine ⟨fun p o r p' o' r' => rowKey_inj.mp, fun p o r p' o' r' => rowKey_lt,
    fun encoded parsed => parseRowKey_eq_ok, rowSuffix_eq_map,
    fun p q o r => rangeForPartition_contains, fun p o q o' r => bucketRange_contains,
    fun row forward q o r hrow => neighborRange_contains hrow, ?_, ?_,
    fun dataType value x => orderKey_iff_orderedValue⟩
  · intro port events rows s s' h
    obtain ⟨-, rfl, hadmitted⟩ := op.prepare_eq_ok h
    refine ⟨List.length_map _, ?_⟩
    intro i e row he hrow
    rw [List.getElem?_map, he] at hrow
    cases hrow
    have hadmitted := hadmitted e (List.mem_of_getElem? he)
    obtain ⟨a, ha, -⟩ := hadmitted.orderScalar
    exact ⟨a, ha, op.prepared_in_partition hadmitted ha⟩
  · intro port events rows s s' port' events' rows' t t' h h' i j e e' row row' he hrow he' hrow'
      a b ha hb hnull hnull' hpartition
    obtain ⟨-, rfl, hadmitted⟩ := op.prepare_eq_ok h
    obtain ⟨-, rfl, hadmitted'⟩ := op.prepare_eq_ok h'
    rw [List.getElem?_map, he] at hrow
    rw [List.getElem?_map, he'] at hrow'
    cases hrow
    cases hrow'
    exact op.prepared_key_lt (hadmitted e (List.mem_of_getElem? he))
      (hadmitted' e' (List.mem_of_getElem? he')) ha hb hnull hnull' hpartition

/-! ## A join of byte rows -/

/-- Nullable bytes as scalars. -/
def byteView : ScalarView byteFormat where
  dataType _ := .uint8
  scalar _ value := .ok (match value with
    | none => .null .uint8
    | some b => .uint8 b)
  scalar_isNull _ value s h := by
    cases h
    cases value <;> simp [ScalarValue.isNull, byteFormat]

/-- Joins on the first of two byte columns, ordered by the second. -/
def byteAsOf (direction : AsOfDirection) : AsOfJoinOperation Unit (Option UInt8) where
  fmt := byteFormat
  view := byteView
  direction := direction
  leftSchema := [⟨(), true⟩, ⟨(), true⟩]
  rightSchema := [⟨(), true⟩, ⟨(), true⟩]
  bound _ _ := true
  equalities := [⟨⟨fun row => .ok (row.headD none), ⟨(), true⟩⟩,
    ⟨fun row => .ok (row.headD none), ⟨(), true⟩⟩, rfl⟩]
  order := ⟨⟨fun row => .ok (row.tail.headD none), ⟨(), true⟩⟩,
    ⟨fun row => .ok (row.tail.headD none), ⟨(), true⟩⟩, rfl⟩

/-- Two rows of a partition with a zero byte, in the order of their second column. -/
def byteOrdered : List (Row (Option UInt8) × Int) :=
  [([some 0, some 7], 1), ([some 0, some 255], 1)]

theorem index_orders_rows_bytes :
    ∃ rows s', (byteAsOf (.backward true)).prepare 0 byteOrdered ⟨.initial, 8, 4096⟩ =
        .ok rows s' ∧
      ∀ row row', rows[0]? = some row → rows[1]? = some row' → row.key < row'.key := by
  cases hp : (byteAsOf (.backward true)).prepare 0 byteOrdered ⟨.initial, 8, 4096⟩ with
  | error e t =>
    have hok : (match (byteAsOf (.backward true)).prepare 0 byteOrdered ⟨.initial, 8, 4096⟩ with
        | .ok _ _ => true
        | .error _ _ => false) = true := by decide +kernel
    rw [hp] at hok
    cases hok
  | ok rows t =>
    refine ⟨rows, t, rfl, ?_⟩
    intro row row' hrow hrow'
    obtain ⟨-, -, -, -, -, -, -, -, hlt, -⟩ := index_orders_rows (byteAsOf (.backward true))
    have hpartition : row.partition = row'.partition := by
      obtain ⟨-, rfl, -⟩ := (byteAsOf (.backward true)).prepare_eq_ok hp
      cases hrow
      cases hrow'
      rfl
    refine (hlt 0 _ _ _ _ 0 _ _ _ _ hp hp 0 1 _ _ row row' rfl hrow rfl hrow' (.uint8 7)
      (.uint8 255) ⟨_, rfl, rfl⟩ ⟨_, rfl, rfl⟩ rfl rfl hpartition).mpr (.inl ?_)
    show (7 : UInt8) < 255
    decide

end Dogpaddle.AsOf
