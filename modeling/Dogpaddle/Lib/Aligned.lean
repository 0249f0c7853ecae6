import Mathlib.Algebra.Ring.Nat

/-!
# Aligned placement

Chunks placed one after the other, each at the next multiple of an alignment.

* `alignUp a n` is the least multiple of `a` that is at least `n`.
* `extent a start lengths` is the aligned end of the last chunk; it is the sum of the aligned
  lengths (`extent_eq_sum`), and no chunk ends behind it (`le_extent`).
-/

namespace Lib

def alignUp (a n : Nat) : Nat := (n + (a - 1)) / a * a

variable {a : Nat}

theorem dvd_alignUp (a n : Nat) : a ∣ alignUp a n := Nat.dvd_mul_left a _

theorem le_alignUp (ha : 0 < a) (n : Nat) : n ≤ alignUp a n := by
  have h := Nat.div_add_mod (n + (a - 1)) a
  have hlt := Nat.mod_lt (n + (a - 1)) ha
  have hcomm : alignUp a n = a * ((n + (a - 1)) / a) := Nat.mul_comm _ _
  omega

/-- Whole multiples pass through. -/
theorem alignUp_add (ha : 0 < a) {m : Nat} (hm : a ∣ m) (n : Nat) :
    alignUp a (m + n) = m + alignUp a n := by
  obtain ⟨k, rfl⟩ := hm
  unfold alignUp
  rw [Nat.add_assoc, Nat.mul_add_div ha, Nat.add_mul, Nat.mul_comm k a]

theorem alignUp_zero (ha : 0 < a) : alignUp a 0 = 0 := by
  unfold alignUp
  rw [Nat.zero_add, Nat.div_eq_of_lt (by omega), Nat.zero_mul]

theorem alignUp_of_dvd (ha : 0 < a) {m : Nat} (hm : a ∣ m) : alignUp a m = m := by
  have h := alignUp_add ha hm 0
  rwa [Nat.add_zero, alignUp_zero ha, Nat.add_zero] at h

theorem alignUp_mono {m n : Nat} (h : m ≤ n) : alignUp a m ≤ alignUp a n :=
  Nat.mul_le_mul_right a (Nat.div_le_div_right (by omega))

/-- No multiple lies between a number and the next one. -/
theorem alignUp_le (ha : 0 < a) {m n : Nat} (hm : a ∣ m) (h : n ≤ m) : alignUp a n ≤ m := by
  have hmono := alignUp_mono (a := a) h
  rwa [alignUp_of_dvd ha hm] at hmono

/-- The aligned end of chunks of the given lengths placed from `start` on. -/
def extent (a : Nat) : (start : Nat) → (lengths : List Nat) → Nat
  | start, [] => start
  | start, n :: lengths => extent a (alignUp a (start + n)) lengths

theorem extent_append (start : Nat) (l₁ l₂ : List Nat) :
    extent a start (l₁ ++ l₂) = extent a (extent a start l₁) l₂ := by
  induction l₁ generalizing start with
  | nil => rfl
  | cons n l₁ ih => exact ih _

theorem extent_eq_sum (ha : 0 < a) {start : Nat} (h : a ∣ start) (lengths : List Nat) :
    extent a start lengths = start + (lengths.map (alignUp a)).sum := by
  induction lengths generalizing start with
  | nil => rfl
  | cons n lengths ih =>
    have hend : a ∣ alignUp a (start + n) := dvd_alignUp a _
    calc extent a (alignUp a (start + n)) lengths
        = alignUp a (start + n) + (lengths.map (alignUp a)).sum := ih hend
      _ = start + alignUp a n + (lengths.map (alignUp a)).sum := by rw [alignUp_add ha h]
      _ = start + ((n :: lengths).map (alignUp a)).sum := by
        rw [List.map_cons, List.sum_cons, Nat.add_assoc]

theorem le_extent (ha : 0 < a) (start : Nat) (lengths : List Nat) :
    start ≤ extent a start lengths := by
  induction lengths generalizing start with
  | nil => exact Nat.le_refl start
  | cons n lengths ih =>
    have hend := le_alignUp ha (start + n)
    have hrest := ih (alignUp a (start + n))
    show start ≤ extent a (alignUp a (start + n)) lengths
    omega

end Lib
