import Dogpaddle.Lib.Bytes
import Dogpaddle.Store.Scan
import Mathlib.Data.PNat.Basic

/-!
# Partitioned maps of positive weights

An ordered map whose keys are pairs of a partition and a local key. The views
below only ever work on one partition, so the map is given by the sub-map of
each partition.

Weights are positive; an absent key has multiplicity zero, and a multiplicity
set to zero erases its key.
-/

namespace Dogpaddle.Store

open Lib

/-- An ordered map over partition keys, as the sub-map of each partition. -/
abbrev PartitionedMap (V : Type) := Bytes → OrdMap Bytes V

/-- The framed length of a partition: zero bytes are escaped, two bytes end it. -/
def partitionBytes (key : Bytes) : Nat := key.length + key.count 0 + 2

section Weights

variable {K : Type} [LinearOrder K]

/-- The weight stored under a key, or zero for an absent key. -/
def multiplicity (m : OrdMap K ℕ+) (key : K) : Nat :=
  match m.get? key with
  | none => 0
  | some weight => weight

/-- Writes a weight; zero erases its key. -/
def setMultiplicity (m : OrdMap K ℕ+) (key : K) (weight : Nat) : OrdMap K ℕ+ :=
  if h : weight = 0 then m.erase key else m.put key (weight.toPNat (Nat.pos_of_ne_zero h))

/-- Whether a partition has no entries. -/
def isEmpty (m : OrdMap K ℕ+) : Bool := m.entries.isEmpty

/-- Whether a partition contains another key. At most two keys are inspected. -/
def hasOtherKey (m : OrdMap K ℕ+) (key : K) : Bool :=
  match m.entries with
  | [] => false
  | e :: rest => if e.1 = key then !rest.isEmpty else true

@[simp] theorem multiplicity_empty (key : K) : multiplicity OrdMap.empty key = 0 := rfl

@[simp] theorem multiplicity_setMultiplicity (m : OrdMap K ℕ+) (key key' : K) (weight : Nat) :
    multiplicity (setMultiplicity m key weight) key' =
      if key' = key then weight else multiplicity m key' := by
  unfold setMultiplicity multiplicity
  by_cases hw : weight = 0
  · rw [dif_pos hw, OrdMap.get?_erase]
    by_cases hk : key' = key <;> simp [hw, hk]
  · rw [dif_neg hw, OrdMap.get?_put]
    by_cases hk : key' = key <;> simp [hk, Nat.toPNat]

theorem mem_entries_iff_multiplicity (m : OrdMap K ℕ+) (key : K) (weight : ℕ+) :
    (key, weight) ∈ m.entries ↔ multiplicity m key = weight := by
  rw [OrdMap.mem_entries]
  unfold multiplicity
  cases m.get? key with
  | none =>
    have hpos : 0 < (weight : Nat) := weight.pos
    exact iff_of_false (fun h => by cases h) (ne_of_lt hpos)
  | some w => exact Option.some_inj.trans PNat.coe_inj.symm

theorem mem_keys_iff_multiplicity (m : OrdMap K ℕ+) (key : K) :
    key ∈ m.entries.map (·.1) ↔ 0 < multiplicity m key := by
  constructor
  · intro h
    obtain ⟨⟨k, w⟩, he, rfl⟩ := List.mem_map.mp h
    rw [(mem_entries_iff_multiplicity m k w).mp he]
    exact w.pos
  · intro h
    exact List.mem_map.mpr ⟨(key, Nat.toPNat _ h),
      (mem_entries_iff_multiplicity m key (Nat.toPNat _ h)).mpr rfl, rfl⟩

/-- Maps with the same multiplicities are equal. -/
theorem ext_multiplicity {m n : OrdMap K ℕ+} (h : ∀ k, multiplicity m k = multiplicity n k) :
    m = n := by
  apply OrdMap.ext_get?
  intro k
  apply Option.ext
  intro w
  rw [← OrdMap.mem_entries, ← OrdMap.mem_entries, mem_entries_iff_multiplicity,
    mem_entries_iff_multiplicity, h k]

theorem setMultiplicity_self (m : OrdMap K ℕ+) (key : K) :
    setMultiplicity m key (multiplicity m key) = m := by
  apply ext_multiplicity
  intro k
  rw [multiplicity_setMultiplicity]
  split
  · next h => rw [h]
  · rfl

/-- The last write of a key wins. -/
theorem setMultiplicity_again (m : OrdMap K ℕ+) (key : K) (w w' : Nat) :
    setMultiplicity (setMultiplicity m key w) key w' = setMultiplicity m key w' := by
  apply ext_multiplicity
  intro k
  simp only [multiplicity_setMultiplicity]
  split <;> rfl

theorem isEmpty_iff (m : OrdMap K ℕ+) : isEmpty m = true ↔ ∀ key, multiplicity m key = 0 := by
  unfold isEmpty
  rw [List.isEmpty_iff]
  constructor
  · intro h key
    have := mem_keys_iff_multiplicity m key
    simp only [h, List.map_nil, List.not_mem_nil, false_iff] at this
    omega
  · intro h
    refine List.eq_nil_iff_forall_not_mem.mpr fun e he => ?_
    have := (mem_keys_iff_multiplicity m e.1).mp (List.mem_map_of_mem he)
    have := h e.1
    omega

theorem hasOtherKey_iff (m : OrdMap K ℕ+) (key : K) :
    hasOtherKey m key = true ↔ ∃ key', key' ≠ key ∧ 0 < multiplicity m key' := by
  simp only [← mem_keys_iff_multiplicity]
  unfold hasOtherKey
  have hsorted := m.sorted
  cases hm : m.entries with
  | nil => simp
  | cons e rest =>
    rw [hm] at hsorted
    obtain ⟨hlt, -⟩ := List.pairwise_cons.mp hsorted
    dsimp only
    by_cases he : e.1 = key
    · rw [if_pos he]
      cases rest with
      | nil => simp [he]
      | cons e' _ =>
        refine iff_of_true rfl ⟨e'.1, ?_, by simp⟩
        rw [← he]
        exact ne_of_gt (hlt e' (by simp))
    · rw [if_neg he]
      exact iff_of_true rfl ⟨e.1, he, by simp⟩

end Weights

/-- Returns one page of a partition; the limit includes partition framing, key
and value bytes. -/
def scanPartition (m : PartitionedMap ℕ+) (partition : Bytes) (direction : ScanDirection)
    (resumeAfter : Option Bytes) (limit : ScanLimit) :
    Except StoreError (OrderedMapPage Bytes ℕ+) :=
  scan (m partition) (fun e => partitionBytes partition + e.1.length + 8) none none direction
    resumeAfter limit

/-- The entries of a partition after a key, in ascending order. -/
def entriesAfter (m : OrdMap Bytes ℕ+) (resumeAfter : Option Bytes) : List (Bytes × ℕ+) :=
  remaining m none none .ascending resumeAfter

@[simp] theorem entriesAfter_none (m : OrdMap Bytes ℕ+) : entriesAfter m none = m.entries := by
  simp [entriesAfter, remaining, inRange, laterBound, withinLower, withinUpper]

end Dogpaddle.Store
