import Dogpaddle.AsOf.Relate

/-!
# Winners read off the index

What the join reads of the right rows of a partition, said of the rows:

* `bucket_sole`: a bucket gives the only row of an order value;
* `neighbor_spec`: a neighbour is the next order value on one side;
* `select_won`: the nearest eligible keys give the winner of a left row;
* `affectedRange_contains`: the corrected range holds the left rows whose nearest order value
  is that of the event.
-/

namespace Dogpaddle.AsOf

open Lib Store Dogpaddle.Relation

variable {Ty Value : Type} [DecidableEq Value]

namespace AsOfJoinOperation

variable {op : AsOfJoinOperation Ty Value} {s : AsOfState} {right : Bag (Row Value)}

/-! ## Rows of a range -/

variable (op) in
/-- The index entry of a right row. -/
def named (r : Row Value) : Winner := ⟨op.indexKey 1 r, op.rowBytes 1 r⟩

variable (op) in
/-- The present right rows of a partition that have an order value. -/
def InPartition (right : Bag (Row Value)) (p : Bytes) (r : Row Value) : Prop :=
  0 < right r ∧ op.rowPartition 1 r = p ∧ (op.rowOrder 1 r).head? = some 1

theorem parseRowKey_indexKey (port : Nat) (r : Row Value) :
    parseRowKey (op.indexKey port r) =
      .ok ⟨op.rowPartition port r, op.rowOrder port r, op.rowBytes port r⟩ :=
  parseRowKey_eq_ok.mpr rfl

theorem rowSuffix_indexKey (port : Nat) (r : Row Value) :
    rowSuffix (op.indexKey port r) = .ok (op.rowBytes port r) := by
  rw [rowSuffix_eq_map, parseRowKey_indexKey]
  rfl

/-- The keys of a range are those of the rows in it. -/
theorem mem_rangeKeys (h : op.Stored s 1 right) {range : Range} {direction : ScanDirection}
    {key : Bytes} : key ∈ rangeKeys s.rightRows range direction ↔
      ∃ r, 0 < right r ∧ op.indexKey 1 r = key ∧ rangeContains range key = true := by
  unfold rangeKeys
  rw [List.mem_map]
  constructor
  · intro hmem
    obtain ⟨⟨_, w⟩, hmem, rfl⟩ := hmem
    obtain ⟨hmem, hlow, hup⟩ := mem_inRange.mp hmem
    obtain ⟨r, _, hkey, hw⟩ := h.mem_entries.mp hmem
    refine ⟨r, ?_, hkey, ?_⟩
    · rw [hw]
      exact_mod_cast w.pos
    · unfold rangeContains
      rw [Bool.and_eq_true]
      exact ⟨hlow, hup⟩
  · intro hex
    obtain ⟨r, hpos, rfl, hrange⟩ := hex
    unfold rangeContains at hrange
    rw [Bool.and_eq_true] at hrange
    obtain ⟨w, hw⟩ : ∃ w : ℕ+, right r = ((w : Nat) : Int) :=
      ⟨⟨(right r).toNat, by omega⟩, (Int.toNat_of_nonneg hpos.le).symm⟩
    have hmem := h.mem_entries.mpr ⟨r, h.admitted hpos, rfl, hw⟩
    exact ⟨(_, w), mem_inRange.mpr ⟨hmem, hrange.1, hrange.2⟩, rfl⟩

/-- The keys of a range stand in the order of the scan. -/
theorem rangeKeys_pairwise (m : OrdMap Bytes ℕ+) (range : Range) (direction : ScanDirection) :
    (rangeKeys m range direction).Pairwise fun a b => visitsBefore direction a b = true :=
  List.pairwise_map.mpr (pairwise_inRange m range.1 range.2 direction)

/-! ## Buckets -/

omit [DecidableEq Value] in
/-- A checked bucket has one key or none. -/
theorem bucketAt_checked {keys : List Bytes} {c : Candidates} {winner : Option Winner}
    (hbucket : bucketAt keys = .ok c) (hchecked : c.checked = .ok winner) :
    keys = [] ∧ winner = none ∨
      ∃ key row, keys = [key] ∧ rowSuffix key = .ok row ∧ winner = some ⟨key, row⟩ := by
  cases keys with
  | nil =>
    cases hbucket
    cases hchecked
    exact .inl ⟨rfl, rfl⟩
  | cons key rest =>
    right
    unfold bucketAt at hbucket
    cases hrow : rowSuffix key with
    | error e =>
      simp [hrow] at hbucket
    | ok row =>
      simp only [hrow, Except.ok.injEq] at hbucket
      subst hbucket
      cases rest with
      | cons _ _ => cases hchecked
      | nil =>
        cases hchecked
        exact ⟨key, row, rfl, hrow, rfl⟩

/-- A checked bucket of the keys of some rows names the only one of them. -/
theorem sole_of_bucket {keys : List Bytes} {c : Candidates} {winner : Option Winner}
    {P : Row Value → Prop} {o : Bytes} (hadmitted : ∀ r, P r → op.Admitted 1 r)
    (hkeys : ∀ key, key ∈ keys ↔ ∃ r, P r ∧ op.rowOrder 1 r = o ∧ op.indexKey 1 r = key)
    (hbucket : bucketAt keys = .ok c) (hchecked : c.checked = .ok winner) :
    ∃ w, winner = w.map op.named ∧ Sole P (op.rowOrder 1) o w := by
  rcases bucketAt_checked hbucket hchecked with ⟨rfl, rfl⟩ | ⟨key, row, rfl, hrow, rfl⟩
  · refine ⟨none, rfl, ?_⟩
    intro r hr horder
    have := (hkeys (op.indexKey 1 r)).mpr ⟨r, hr, horder, rfl⟩
    cases this
  · obtain ⟨r, hr, horder, rfl⟩ := (hkeys key).mp (by simp)
    rw [rowSuffix_indexKey] at hrow
    cases hrow
    refine ⟨some r, rfl, hr, horder, ?_⟩
    intro r' hr' horder'
    have hmem := (hkeys (op.indexKey 1 r')).mpr ⟨r', hr', horder', rfl⟩
    rw [List.mem_singleton] at hmem
    exact (indexKey_inj (hadmitted r' hr') (hadmitted r hr)).mp hmem

/-- The keys of a bucket are those of its rows. -/
theorem mem_bucketRange (h : op.Stored s 1 right) {p o key : Bytes} (ho : o.head? = some 1) :
    key ∈ rangeKeys s.rightRows (bucketRange p o) .ascending ↔
      ∃ r, op.InPartition right p r ∧ op.rowOrder 1 r = o ∧ op.indexKey 1 r = key := by
  rw [mem_rangeKeys h]
  constructor
  · intro hex
    obtain ⟨r, hpos, rfl, hrange⟩ := hex
    obtain ⟨hpartition, horder⟩ := bucketRange_contains.mp hrange
    exact ⟨r, ⟨hpos, hpartition, by rw [horder]; exact ho⟩, horder, rfl⟩
  · intro hex
    obtain ⟨r, ⟨hpos, hpartition, -⟩, horder, rfl⟩ := hex
    exact ⟨r, hpos, rfl, bucketRange_contains.mpr ⟨hpartition, horder⟩⟩

omit [DecidableEq Value] in
theorem take_of_length_take {α : Type} {l : List α} {n : Nat} (h : (l.take n).length < n) :
    l.take n = l := by
  rw [List.length_take] at h
  exact List.take_of_length_le (by omega)

/-- A bucket gives the only present row of an order value. -/
theorem bucket_sole (h : op.Stored s 1 right) {p o : Bytes} (ho : o.head? = some 1)
    {c : Candidates} {winner : Option Winner}
    (hbucket : bucketAt (bucketKeys s.rightRows p o) = .ok c)
    (hchecked : c.checked = .ok winner) :
    ∃ w, winner = w.map op.named ∧ Sole (op.InPartition right p) (op.rowOrder 1) o w := by
  have hshort : (bucketKeys s.rightRows p o).length < 3 := by
    rcases bucketAt_checked hbucket hchecked with ⟨hkeys, -⟩ | ⟨key, row, hkeys, -⟩ <;>
      rw [hkeys] <;> simp
  have hall : bucketKeys s.rightRows p o =
      rangeKeys s.rightRows (bucketRange p o) .ascending := take_of_length_take hshort
  rw [hall] at hbucket
  exact sole_of_bucket (fun r hr => h.admitted hr.1) (fun key => mem_bucketRange h ho) hbucket
    hchecked

omit [DecidableEq Value] in
/-- Taking one element out of a list without repetitions shortens it by one at most. -/
theorem length_le_filter_ne {α : Type} [DecidableEq α] {l : List α} (h : l.Nodup) (a : α) :
    l.length ≤ (l.filter fun b => decide (b ≠ a)).length + 1 := by
  have hsame : (l.filter fun b => decide (b ≠ a)) = l.erase a := by
    rw [h.erase_eq_filter a]
    apply List.filter_congr
    intro b _
    by_cases hb : b = a <;> simp [hb]
  rw [hsame, List.length_erase]
  split <;> omega

/-- The bucket of an order value after one of its rows has come or gone. -/
theorem bucket_sole_after (h : op.Stored s 1 right) {right' : Bag (Row Value)} {x : Row Value}
    (hx : op.Admitted 1 x) (hsame : ∀ r, r ≠ x → (0 < right r ↔ 0 < right' r))
    (hhead : (op.rowOrder 1 x).head? = some 1) {present : Bool}
    (hpresent : 0 < right' x ↔ present = true) {c : Candidates} {winner : Option Winner}
    (hbucket : bucketAt (overlaid (some (op.indexKey 1 x, present))
      (bucketKeys s.rightRows (op.rowPartition 1 x) (op.rowOrder 1 x))) = .ok c)
    (hchecked : c.checked = .ok winner) :
    ∃ w, winner = w.map op.named ∧
      Sole (op.InPartition right' (op.rowPartition 1 x)) (op.rowOrder 1) (op.rowOrder 1 x) w := by
  -- the keys of the other rows are at most one, so the bucket was read whole
  have hshort : (overlaid (some (op.indexKey 1 x, present))
      (bucketKeys s.rightRows (op.rowPartition 1 x) (op.rowOrder 1 x))).length ≤ 1 := by
    rcases bucketAt_checked hbucket hchecked with ⟨hkeys, -⟩ | ⟨key, row, hkeys, -⟩ <;>
      rw [hkeys] <;> simp
  have hnodup : (rangeKeys s.rightRows (bucketRange (op.rowPartition 1 x) (op.rowOrder 1 x))
      .ascending).Nodup := by
    refine (rangeKeys_pairwise s.rightRows _ _).imp ?_
    intro a b hab heq
    rw [heq, visitsBefore_irrefl] at hab
    cases hab
  have hall : bucketKeys s.rightRows (op.rowPartition 1 x) (op.rowOrder 1 x) = rangeKeys
      s.rightRows (bucketRange (op.rowPartition 1 x) (op.rowOrder 1 x)) .ascending := by
    apply take_of_length_take
    show (bucketKeys s.rightRows (op.rowPartition 1 x) (op.rowOrder 1 x)).length < 3
    have hlength := length_le_filter_ne
      ((List.take_sublist 3 _).nodup hnodup) (op.indexKey 1 x)
    unfold overlaid at hshort
    rw [List.length_append] at hshort
    unfold bucketKeys at hshort ⊢
    omega
  rw [hall] at hbucket
  have hmem : ∀ r, op.InPartition right' (op.rowPartition 1 x) r → op.Admitted 1 r := by
    intro r hr
    by_cases hrx : r = x
    · rw [hrx]
      exact hx
    · exact h.admitted ((hsame r hrx).mpr hr.1)
  refine sole_of_bucket hmem ?_ hbucket hchecked
  intro key
  unfold overlaid
  rw [List.mem_append, List.mem_filter, mem_bucketRange h hhead, decide_eq_true_eq]
  constructor
  · intro hkey
    rcases hkey with ⟨⟨r, hr, horder, rfl⟩, hne⟩ | hkey
    · have hrx : r ≠ x := fun heq => hne (by rw [heq])
      exact ⟨r, ⟨(hsame r hrx).mp hr.1, hr.2⟩, horder, rfl⟩
    · cases present with
      | false => cases hkey
      | true =>
        rw [if_pos rfl, List.mem_singleton] at hkey
        exact ⟨x, ⟨hpresent.mpr rfl, rfl, hhead⟩, rfl, hkey.symm⟩
  · intro hex
    obtain ⟨r, hr, horder, rfl⟩ := hex
    by_cases hrx : r = x
    · right
      rw [hrx] at hr ⊢
      rw [hpresent.mp hr.1]
      simp
    · left
      refine ⟨⟨r, ⟨(hsame r hrx).mpr hr.1, hr.2⟩, horder, rfl⟩, ?_⟩
      intro hkey
      exact hrx ((indexKey_inj (hmem r hr) hx).mp hkey)

/-! ## Ranges of one partition -/

omit [DecidableEq Value] in
/-- A range of a partition, by the order tuples its ends admit. -/
theorem rangeContains_rowKey {low up : EncodedBound Bytes} {p q o r : Bytes}
    {lower upper : Prop}
    (hlower : withinLower (rowKey q o r) low = true ↔ p < q ∨ q = p ∧ lower)
    (hupper : withinUpper (rowKey q o r) up = true ↔ q < p ∨ q = p ∧ upper) :
    rangeContains (low, up) (rowKey q o r) = true ↔ q = p ∧ lower ∧ upper := by
  unfold rangeContains
  rw [Bool.and_eq_true, hlower, hupper]
  constructor
  · intro h
    obtain ⟨hlt | ⟨heq, hl⟩, hgt | ⟨heq', hu⟩⟩ := h
    · exact absurd hlt (lt_asymm hgt)
    · exact absurd hlt (by rw [heq']; exact lt_irrefl _)
    · exact absurd hgt (by rw [heq]; exact lt_irrefl _)
    · exact ⟨heq, hl, hu⟩
  · intro h
    exact ⟨.inr ⟨h.1, h.2.1⟩, .inr ⟨h.1, h.2.2⟩⟩

section Ends

variable {p q o o' r : Bytes}

omit [DecidableEq Value] in
theorem lower_fromOrder : withinLower (rowKey q o r) (fromPrefix (orderPrefix p o')) = true ↔
    p < q ∨ q = p ∧ ¬ o < o' := by
  rw [withinLower_fromPrefix, ← not_lt, rowKey_lt_orderPrefix]
  rcases lt_trichotomy p q with h | rfl | h
  · simp [h, h.not_gt, h.ne']
  · simp
  · simp [h, h.not_gt, h.ne]

omit [DecidableEq Value] in
theorem lower_afterOrder : withinLower (rowKey q o r) (afterPrefix (orderPrefix p o')) = true ↔
    p < q ∨ q = p ∧ o' < o := by
  rw [withinLower_afterPrefix (orderPrefix_successor _ _), orderPrefix_isPrefix_rowKey,
    rowKey_lt_orderPrefix]
  rcases lt_trichotomy p q with h | rfl | h
  · simp [h, h.not_gt, h.ne', h.ne]
  · rcases lt_trichotomy o o' with ho | rfl | ho
    · simp [ho, ho.not_gt]
    · simp
    · simp [ho, ho.not_gt, ho.ne]
  · simp [h, h.not_gt, h.ne]

omit [DecidableEq Value] in
theorem upper_beforeOrder : withinUpper (rowKey q o r) (beforePrefix (orderPrefix p o')) = true ↔
    q < p ∨ q = p ∧ o < o' := by
  rw [withinUpper_beforePrefix, rowKey_lt_orderPrefix]

omit [DecidableEq Value] in
theorem upper_upToOrder : withinUpper (rowKey q o r) (upToPrefix (orderPrefix p o')) = true ↔
    q < p ∨ q = p ∧ ¬ o' < o := by
  rw [withinUpper_upToPrefix, orderPrefix_isPrefix_rowKey, rowKey_lt_orderPrefix, or_assoc,
    eq_comm (a := p), ← and_or_left, not_lt, le_iff_lt_or_eq, eq_comm (a := o')]

omit [DecidableEq Value] in
theorem lower_partition :
    withinLower (rowKey q o r) (rangeForPartition p).1 = true ↔ p < q ∨ q = p ∧ ¬ o < [1] := by
  show withinLower _ (fromPrefix _) = true ↔ _
  rw [withinLower_fromPrefix, ← not_lt, rowKey_lt_matchable]
  rcases lt_trichotomy p q with h | rfl | h
  · simp [h, h.not_gt, h.ne']
  · simp
  · simp [h, h.not_gt, h.ne]

omit [DecidableEq Value] in
theorem upper_partition : withinUpper (rowKey q o r) (rangeForPartition p).2 = true ↔
    q < p ∨ q = p ∧ (o < [1] ∨ o.head? = some 1) := by
  show withinUpper _ (upToPrefix _) = true ↔ _
  rw [withinUpper_upToPrefix, matchable_isPrefix_rowKey, rowKey_lt_matchable, or_assoc,
    eq_comm (a := p), ← and_or_left]

end Ends

/-! ## The two sides of an order value -/

section Sides

variable {o o' : Bytes}

theorem not_lt_one_iff (ho' : o'.head? = some 1) (h : o ≤ o') :
    ¬ o < [1] ↔ o.head? = some 1 := by
  constructor
  · intro hone
    rcases h.lt_or_eq with hlt | heq
    · exact head_of_one_le (not_lt.mp hone) hlt ho'
    · rw [heq]
      exact ho'
  · intro hhead
    exact not_lt.mpr (one_le_of_head hhead)

theorem lt_one_or_iff (ho' : o'.head? = some 1) (h : o' ≤ o) :
    o < [1] ∨ o.head? = some 1 ↔ o.head? = some 1 := by
  constructor
  · intro hor
    rcases hor with hlt | hhead
    · exact absurd hlt (not_lt.mpr ((one_le_of_head ho').trans h))
    · exact hhead
  · exact .inr

theorem below_backward (exact : Bool) : Below (AsOfDirection.backward exact).further exact o o' ↔
    if exact then o ≤ o' else o < o' := by
  unfold Below
  cases exact with
  | true => simp [AsOfDirection.further, le_iff_lt_or_eq]
  | false => simp [AsOfDirection.further]

theorem below_forward (exact : Bool) : Below (AsOfDirection.forward exact).further exact o o' ↔
    if exact then o' ≤ o else o' < o := by
  unfold Below
  cases exact with
  | true => simp [AsOfDirection.further, le_iff_lt_or_eq, eq_comm]
  | false => simp [AsOfDirection.further]

end Sides

omit [DecidableEq Value] in
/-- The eligible keys of a left row are those of its partition below it. -/
theorem selectRange_contains {left : PreparedRow} {q o r : Bytes}
    (hleft : left.order.head? = some 1) :
    rangeContains (op.selectRange left) (rowKey q o r) = true ↔ q = left.partition ∧
      o.head? = some 1 ∧ Below op.direction.further op.direction.allowExact o left.order := by
  unfold selectRange
  cases op.direction with
  | backward exact =>
    simp only [AsOfDirection.isForward, Bool.false_eq_true, if_false, AsOfDirection.allowExact]
    rw [below_backward]
    cases exact with
    | true =>
      show rangeContains (_, upToPrefix _) _ = true ↔ _
      rw [rangeContains_rowKey lower_partition upper_upToOrder, if_pos rfl, not_lt (b := o)]
      exact and_congr_right fun _ => and_congr_left fun h => not_lt_one_iff hleft h
    | false =>
      show rangeContains (_, beforePrefix _) _ = true ↔ _
      rw [rangeContains_rowKey lower_partition upper_beforeOrder, if_neg (by simp)]
      exact and_congr_right fun _ => and_congr_left fun h => not_lt_one_iff hleft h.le
  | forward exact =>
    simp only [AsOfDirection.isForward, if_true, AsOfDirection.allowExact]
    rw [below_forward, and_comm (a := o.head? = some 1)]
    cases exact with
    | true =>
      show rangeContains (fromPrefix _, _) _ = true ↔ _
      rw [rangeContains_rowKey lower_fromOrder upper_partition, if_pos rfl, not_lt]
      exact and_congr_right fun _ => and_congr_right fun h => lt_one_or_iff hleft h
    | false =>
      show rangeContains (afterPrefix _, _) _ = true ↔ _
      rw [rangeContains_rowKey lower_afterOrder upper_partition, if_neg (by simp)]
      exact and_congr_right fun _ => and_congr_right fun h => lt_one_or_iff hleft h.le

omit [DecidableEq Value] in
/-- The corrected range of a right row: the left rows above it, but not above the next order
value. -/
theorem affectedRange_contains {right : PreparedRow} {outer : Option Bytes} {q o r : Bytes}
    (hright : right.order.head? = some 1)
    (houter : ∀ next, outer = some next → next.head? = some 1) :
    rangeContains (op.affectedRange right outer) (rowKey q o r) = true ↔
      q = right.partition ∧ o.head? = some 1 ∧
        Below op.direction.further op.direction.allowExact right.order o ∧
        ∀ next, outer = some next →
          ¬ Below op.direction.further op.direction.allowExact next o := by
  unfold affectedRange
  cases op.direction with
  | backward exact =>
    simp only [AsOfDirection.isForward, Bool.false_eq_true, if_false, AsOfDirection.allowExact,
      below_backward]
    cases outer with
    | none =>
      simp only [reduceCtorEq, false_implies, implies_true, and_true]
      rw [and_comm (a := o.head? = some 1)]
      cases exact with
      | true =>
        show rangeContains (fromPrefix _, _) _ = true ↔ _
        rw [rangeContains_rowKey lower_fromOrder upper_partition, if_pos rfl, not_lt]
        exact and_congr_right fun _ => and_congr_right fun h => lt_one_or_iff hright h
      | false =>
        show rangeContains (afterPrefix _, _) _ = true ↔ _
        rw [rangeContains_rowKey lower_afterOrder upper_partition, if_neg (by simp)]
        exact and_congr_right fun _ => and_congr_right fun h => lt_one_or_iff hright h.le
    | some next =>
      have hnext := houter next rfl
      simp only [Option.some.injEq, forall_eq']
      cases exact with
      | true =>
        show rangeContains (fromPrefix _, beforePrefix _) _ = true ↔ _
        rw [rangeContains_rowKey lower_fromOrder upper_beforeOrder, if_pos rfl, if_pos rfl,
          not_lt, not_le]
        refine and_congr_right fun _ => ?_
        rw [← and_assoc, and_comm (a := o.head? = some 1), and_assoc]
        refine and_congr_right fun h => ?_
        rw [and_iff_right_of_imp fun hlt => head_of_one_le ((one_le_of_head hright).trans h)
          hlt hnext]
      | false =>
        show rangeContains (afterPrefix _, upToPrefix _) _ = true ↔ _
        rw [rangeContains_rowKey lower_afterOrder upper_upToOrder, if_neg (by simp),
          if_neg (by simp)]
        refine and_congr_right fun _ => ?_
        rw [← and_assoc, and_comm (a := o.head? = some 1), and_assoc]
        refine and_congr_right fun h => ?_
        rw [and_iff_right_of_imp fun hle => (not_lt_one_iff hnext (not_lt.mp hle)).mp
          (not_lt.mpr ((one_le_of_head hright).trans h.le))]
  | forward exact =>
    simp only [AsOfDirection.isForward, if_true, AsOfDirection.allowExact, below_forward]
    cases outer with
    | none =>
      simp only [reduceCtorEq, false_implies, implies_true, and_true]
      cases exact with
      | true =>
        show rangeContains (_, upToPrefix _) _ = true ↔ _
        rw [rangeContains_rowKey lower_partition upper_upToOrder, if_pos rfl, not_lt (b := o)]
        exact and_congr_right fun _ => and_congr_left fun h => not_lt_one_iff hright h
      | false =>
        show rangeContains (_, beforePrefix _) _ = true ↔ _
        rw [rangeContains_rowKey lower_partition upper_beforeOrder, if_neg (by simp)]
        exact and_congr_right fun _ => and_congr_left fun h => not_lt_one_iff hright h.le
    | some next =>
      have hnext := houter next rfl
      have hone := one_le_of_head hnext
      simp only [Option.some.injEq, forall_eq']
      cases exact with
      | true =>
        show rangeContains (afterPrefix _, upToPrefix _) _ = true ↔ _
        rw [rangeContains_rowKey lower_afterOrder upper_upToOrder, if_pos rfl, if_pos rfl,
          not_lt, not_le, and_comm (a := next < o)]
        refine and_congr_right fun _ => ?_
        rw [and_left_comm]
        refine and_congr_right fun h => ?_
        rw [and_iff_right_of_imp fun hlt : next < o => (not_lt_one_iff hright h).mp
          (not_lt.mpr (hone.trans hlt.le))]
      | false =>
        show rangeContains (fromPrefix _, beforePrefix _) _ = true ↔ _
        rw [rangeContains_rowKey lower_fromOrder upper_beforeOrder, if_neg (by simp),
          if_neg (by simp), and_comm (a := ¬ o < next)]
        refine and_congr_right fun _ => ?_
        rw [and_left_comm]
        refine and_congr_right fun h => ?_
        rw [and_iff_right_of_imp fun hle => (not_lt_one_iff hright h.le).mp
          (not_lt.mpr (hone.trans (not_lt.mp hle)))]

/-! ## Neighbours -/

/-- One order value beyond another one, in the direction of a scan. -/
def Beyond (forward : Bool) (a b : Bytes) : Prop := if forward then a < b else b < a

omit [DecidableEq Value] in
/-- A key visited earlier has no order value beyond that of a later one. -/
theorem not_beyond_of_visits {forward : Bool} {p o o' r r' : Bytes}
    (h : visitsBefore (scanDirection forward) (rowKey p o r) (rowKey p o' r') = true) :
    ¬ Beyond forward o' o := by
  unfold Beyond
  cases forward with
  | true =>
    have hlt := rowKey_lt.mp (visitsBefore_ascending.mp h)
    simp only [lt_irrefl, false_or, true_and] at hlt
    rw [if_pos rfl, not_lt]
    rcases hlt with hlt | ⟨heq, -⟩
    · exact hlt.le
    · exact heq.le
  | false =>
    have hlt := rowKey_lt.mp (visitsBefore_descending.mp h)
    simp only [lt_irrefl, false_or, true_and] at hlt
    rw [if_neg (by simp), not_lt]
    rcases hlt with hlt | ⟨heq, -⟩
    · exact hlt.le
    · exact heq.le

/-- A neighbour is the next order value on its side. -/
structure Next (P : Row Value → Prop) (order : Row Value → Bytes) (forward : Bool) (o : Bytes)
    (next : Option Bytes) : Prop where
  found : ∀ q, next = some q → Beyond forward o q ∧ ∃ r, P r ∧ order r = q
  least : ∀ r, P r → Beyond forward o (order r) →
    ∃ q, next = some q ∧ ¬ Beyond forward (order r) q

theorem neighbor_spec (h : op.Stored s 1 right) {row : PreparedRow} {forward : Bool}
    (hrow : row.order.head? = some 1) {next : Option Bytes}
    (hnext : neighborAt s.rightRows row forward = .ok next) :
    Next (op.InPartition right row.partition) (op.rowOrder 1) forward row.order next := by
  have hmem : ∀ key, key ∈ rangeKeys s.rightRows (neighborRange row forward)
      (scanDirection forward) ↔ ∃ r, op.InPartition right row.partition r ∧
        Beyond forward row.order (op.rowOrder 1 r) ∧ op.indexKey 1 r = key := by
    intro key
    rw [mem_rangeKeys h]
    constructor
    · intro hex
      obtain ⟨r, hpos, hkey, hrange⟩ := hex
      rw [← hkey] at hrange
      obtain ⟨hpartition, hhead, hbeyond⟩ := (neighborRange_contains hrow).mp hrange
      exact ⟨r, ⟨hpos, hpartition, hhead⟩, hbeyond, hkey⟩
    · intro hex
      obtain ⟨r, ⟨hpos, hpartition, hhead⟩, hbeyond, hkey⟩ := hex
      refine ⟨r, hpos, hkey, ?_⟩
      rw [← hkey]
      exact (neighborRange_contains hrow).mpr ⟨hpartition, hhead, hbeyond⟩
  have hpairwise := rangeKeys_pairwise s.rightRows (neighborRange row forward)
    (scanDirection forward)
  unfold neighborAt at hnext
  cases hkeys : rangeKeys s.rightRows (neighborRange row forward) (scanDirection forward) with
  | nil =>
    rw [hkeys] at hnext hmem
    cases hnext
    refine ⟨fun q hq => (by cases hq), ?_⟩
    intro r hr hbeyond
    cases (hmem (op.indexKey 1 r)).mpr ⟨r, hr, hbeyond, rfl⟩
  | cons key rest =>
    rw [hkeys] at hnext hmem hpairwise
    obtain ⟨r₀, hr₀, hbeyond₀, rfl⟩ := (hmem key).mp (by simp)
    simp only [parseRowKey_indexKey, Except.ok.injEq] at hnext
    subst hnext
    refine ⟨?_, ?_⟩
    · intro q hq
      cases hq
      exact ⟨hbeyond₀, r₀, hr₀, rfl⟩
    · intro r hr hbeyond
      refine ⟨_, rfl, ?_⟩
      have hkey := (hmem (op.indexKey 1 r)).mpr ⟨r, hr, hbeyond, rfl⟩
      rcases List.mem_cons.mp hkey with heq | hrest
      · -- the row of the first key itself
        rw [(indexKey_inj (h.admitted hr.1) (h.admitted hr₀.1)).mp heq]
        unfold Beyond
        split <;> exact lt_irrefl _
      · have hvisits := (List.pairwise_cons.mp hpairwise).1 _ hrest
        unfold indexKey at hvisits
        rw [hr.2.1, hr₀.2.1] at hvisits
        exact not_beyond_of_visits hvisits

/-! ## The winner of a left row -/

/-- The rows that compete for a matchable left row are those of its partition. -/
theorem competes_iff (h : ∀ r, 0 < right r → op.Admitted 1 r) {l : Row Value}
    (hl : op.Admitted 0 l) (hmatchable : op.rowMatchable 0 l = true) (r : Row Value) :
    op.Competes right l r ↔ op.InPartition right (op.rowPartition 0 l) r := by
  constructor
  · intro hr
    exact ⟨hr.1, hr.2.2.2, head_of_matchable (h r hr.1) hr.2.2.1⟩
  · intro hr
    exact ⟨hr.1, hmatchable,
      matchable_of_partition hl (h r hr.1) hmatchable hr.2.1 hr.2.2, hr.2.1⟩

theorem further_iff_beyond (direction : AsOfDirection) (o o' : Bytes) :
    direction.further o o' ↔ Beyond direction.isForward o' o := by
  unfold AsOfDirection.further Beyond
  cases direction with
  | backward _ => rfl
  | forward _ => rfl

theorem eq_of_not_further {direction : AsOfDirection} {o o' : Bytes}
    (h : ¬ direction.further o o') (h' : ¬ direction.further o' o) : o = o' := by
  rcases trichotomous_of direction.further o o' with hlt | heq | hgt
  · exact absurd hlt h
  · exact heq
  · exact absurd hgt h'

/-- The nearest eligible keys give the winner of a left row. -/
theorem select_won (h : op.Stored s 1 right) {l : Row Value} {d : Int} (hl : op.Admitted 0 l)
    {c : Candidates} {winner : Option Winner}
    (hselect : op.selectAt s.rightRows (op.prepared 0 (l, d)) = .ok c)
    (hchecked : c.checked = .ok winner) :
    ∃ w, winner = w.map op.named ∧ op.Won right l w := by
  have hadmitted : ∀ r, 0 < right r → op.Admitted 1 r := fun r hr => h.admitted hr
  rw [op.prepared_eq] at hselect
  unfold selectAt at hselect
  dsimp only at hselect
  by_cases hmatchable : op.rowMatchable 0 l = true
  · rw [if_pos hmatchable] at hselect
    have hhead := head_of_matchable hl hmatchable
    -- the eligible keys are those of the competing rows below the left row
    have hmem : ∀ key, key ∈ op.eligibleKeys s.rightRows (op.prepared 0 (l, d)) ↔
        ∃ r, op.Competes right l r ∧ Below op.direction.further op.direction.allowExact
          (op.rowOrder 1 r) (op.rowOrder 0 l) ∧ op.indexKey 1 r = key := by
      intro key
      unfold eligibleKeys
      rw [mem_rangeKeys h, op.prepared_eq]
      constructor
      · intro hex
        obtain ⟨r, hpos, hkey, hrange⟩ := hex
        rw [← hkey] at hrange
        obtain ⟨hpartition, hrow, hbelow⟩ := (selectRange_contains hhead).mp hrange
        exact ⟨r, (competes_iff hadmitted hl hmatchable r).mpr ⟨hpos, hpartition, hrow⟩, hbelow,
          hkey⟩
      · intro hex
        obtain ⟨r, hr, hbelow, hkey⟩ := hex
        refine ⟨r, hr.1, hkey, ?_⟩
        rw [← hkey]
        exact (selectRange_contains hhead).mpr
          ⟨hr.2.2.2, head_of_matchable (hadmitted r hr.1) hr.2.2.1, hbelow⟩
    have hpairwise := rangeKeys_pairwise s.rightRows (op.selectRange (op.prepared 0 (l, d)))
      (scanDirection op.direction.isForward)
    rw [op.prepared_eq] at hmem hpairwise
    change (op.eligibleKeys _ _).Pairwise _ at hpairwise
    generalize op.eligibleKeys s.rightRows _ = keys at hselect hmem hpairwise
    -- a later key has no nearer order value
    have hlater : ∀ {r r'}, op.Competes right l r → op.Competes right l r' →
        visitsBefore (scanDirection op.direction.isForward) (op.indexKey 1 r)
          (op.indexKey 1 r') = true →
        ¬ op.direction.further (op.rowOrder 1 r) (op.rowOrder 1 r') := by
      intro r r' hr hr' hvisits
      unfold indexKey at hvisits
      rw [hr.2.2.2, hr'.2.2.2] at hvisits
      rw [further_iff_beyond]
      exact not_beyond_of_visits hvisits
    cases keys with
    | nil =>
      cases hselect
      cases hchecked
      refine ⟨none, rfl, ?_⟩
      intro r hr hbelow
      cases (hmem _).mpr ⟨r, hr, hbelow, rfl⟩
    | cons first rest =>
      obtain ⟨r₀, hr₀, hbelow₀, rfl⟩ := (hmem first).mp (by simp)
      obtain ⟨hfirst, hrest⟩ := List.pairwise_cons.mp hpairwise
      have hwinner : winner = some (op.named r₀) := by
        cases rest with
        | nil =>
          simp only [List.take, selectedAt, parseRowKey_indexKey] at hselect
          cases hselect
          cases hchecked
          rfl
        | cons second rest =>
          obtain ⟨r₁, -, -, rfl⟩ := (hmem second).mp (by simp)
          simp only [List.take, selectedAt, parseRowKey_indexKey] at hselect
          cases hselect
          unfold Candidates.checked at hchecked
          split at hchecked
          · cases hchecked
          · cases hchecked
            rfl
      refine ⟨some r₀, hwinner, ⟨hr₀, hbelow₀, ?_⟩, ?_⟩
      · intro r hr hbelow
        rcases List.mem_cons.mp ((hmem _).mpr ⟨r, hr, hbelow, rfl⟩) with heq | hin
        · rw [(indexKey_inj (hadmitted r hr.1) (hadmitted r₀ hr₀.1)).mp heq]
          exact irrefl _
        · exact hlater hr₀ hr (hfirst _ hin)
      · intro r hr
        rcases List.mem_cons.mp ((hmem _).mpr ⟨r, hr.mem, hr.below, rfl⟩) with heq | hin
        · exact (indexKey_inj (hadmitted r hr.mem.1) (hadmitted r₀ hr₀.1)).mp heq
        · -- the second key would have the same order value
          exfalso
          cases rest with
          | nil => cases hin
          | cons second rest =>
            obtain ⟨r₁, hr₁, hbelow₁, rfl⟩ := (hmem second).mp (by simp)
            simp only [List.take, selectedAt, parseRowKey_indexKey] at hselect
            cases hselect
            have hdiffer : op.rowOrder 1 r₁ ≠ op.rowOrder 1 r₀ := by
              intro heq
              unfold Candidates.checked at hchecked
              rw [if_pos (decide_eq_true heq)] at hchecked
              cases hchecked
            have hsame : op.rowOrder 1 r = op.rowOrder 1 r₀ :=
              eq_of_not_further (hr.least r₀ hr₀ hbelow₀) (hlater hr₀ hr.mem (hfirst _ hin))
            rcases List.mem_cons.mp hin with heq | hin
            · apply hdiffer
              rw [← hsame, (indexKey_inj (hadmitted r hr.mem.1) (hadmitted r₁ hr₁.1)).mp heq]
            · have hbetween := hlater hr₁ hr.mem ((List.pairwise_cons.mp hrest).1 _ hin)
              rw [hsame] at hbetween
              exact hdiffer (eq_of_not_further hbetween (hlater hr₀ hr₁ (hfirst _ (by simp))))
  · rw [if_neg hmatchable] at hselect
    cases hselect
    cases hchecked
    refine ⟨none, rfl, ?_⟩
    intro r hr _
    exact hmatchable hr.2.1

end AsOfJoinOperation

end Dogpaddle.AsOf
