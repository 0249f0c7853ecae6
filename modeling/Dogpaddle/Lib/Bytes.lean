import Mathlib.Order.Lattice
import Mathlib.Data.List.Lex
import Mathlib.Algebra.Ring.Int.Defs
import Mathlib.Algebra.Ring.Nat
import Mathlib.Data.List.Induction

/-!
# Byte strings

Byte strings are lists of `UInt8` compared lexicographically, shorter prefixes
first, as slices of unsigned bytes are. Numbers of one width compare as their
big-endian bytes do (`toBE_lt`); flipping the top bit turns two's complement order
into that of unsigned numbers (`flipTop_toBE`).
-/

namespace Lib

/-- A byte string. -/
abbrev Bytes := List UInt8

instance linearOrderUInt8 : LinearOrder UInt8 where
  le_refl := UInt8.le_refl
  le_trans _ _ _ := UInt8.le_trans
  le_antisymm _ _ := UInt8.le_antisymm
  le_total := UInt8.le_total
  lt_iff_le_not_ge a b := by
    simp only [UInt8.lt_iff_toNat_lt, UInt8.le_iff_toNat_le]
    omega
  toDecidableLE := inferInstance

/-- The `width` big-endian bytes of a number below `256 ^ width`. -/
def toBE : (width : Nat) → Nat → Bytes
  | 0, _ => []
  | width + 1, n => toBE width (n / 256) ++ [UInt8.ofNat n]

/-- Among strings of one length, what follows them decides only between equals. -/
theorem append_lt_append_iff {a b x y : Bytes} (h : a.length = b.length) :
    a ++ x < b ++ y ↔ a < b ∨ a = b ∧ x < y := by
  induction a generalizing b with
  | nil =>
    cases b with
    | nil => simp
    | cons _ _ => cases h
  | cons c a ih =>
    cases b with
    | nil => cases h
    | cons d b =>
      simp only [List.cons_append, List.cons_lt_cons_iff, ih (Nat.succ.inj h), List.cons.injEq]
      tauto

/-- A string stands before its extensions. -/
theorem le_append (a b : Bytes) : a ≤ a ++ b := by
  refine not_lt.mp fun h => ?_
  induction a with
  | nil => exact List.not_lt_nil _ h
  | cons c a ih =>
    rw [List.cons_append, List.cons_lt_cons_iff] at h
    rcases h with h | ⟨-, h⟩
    · exact lt_irrefl _ h
    · exact ih h

@[simp] theorem length_toBE (width n : Nat) : (toBE width n).length = width := by
  induction width generalizing n with
  | zero => rfl
  | succ width ih => simp [toBE, ih]

theorem toBE_inj {width m n : Nat} (hm : m < 256 ^ width) (hn : n < 256 ^ width) :
    toBE width m = toBE width n ↔ m = n := by
  refine ⟨fun h => ?_, fun h => by rw [h]⟩
  induction width generalizing m n with
  | zero =>
    rw [pow_zero] at hm hn
    omega
  | succ width ih =>
    rw [pow_succ] at hm hn
    obtain ⟨hhigh, hlow⟩ := List.append_inj h (by simp)
    have hhigh := ih (by omega) (by omega) hhigh
    have hlow : (UInt8.ofNat m).toNat = (UInt8.ofNat n).toNat :=
      congrArg UInt8.toNat (List.cons.inj hlow).1
    simp only [UInt8.toNat_ofNat'] at hlow
    omega

/-- Big-endian bytes compare as the numbers do. -/
theorem toBE_lt {width m n : Nat} (hm : m < 256 ^ width) (hn : n < 256 ^ width) :
    toBE width m < toBE width n ↔ m < n := by
  induction width generalizing m n with
  | zero =>
    rw [pow_zero] at hm hn
    simp only [toBE, lt_irrefl, false_iff]
    omega
  | succ width ih =>
    rw [pow_succ] at hm hn
    have hm' : m / 256 < 256 ^ width := by omega
    have hn' : n / 256 < 256 ^ width := by omega
    have hlow : [UInt8.ofNat m] < [UInt8.ofNat n] ↔ m % 256 < n % 256 := by
      simp [List.cons_lt_cons_iff, UInt8.lt_iff_toNat_lt]
    rw [toBE, toBE, append_lt_append_iff (by simp), ih hm' hn', toBE_inj hm' hn', hlow]
    omega

/-- The number of big-endian bytes. -/
def fromBE (bytes : Bytes) : Nat := bytes.foldl (fun n b => n * 256 + b.toNat) 0

theorem fromBE_toBE {width n : Nat} (h : n < 256 ^ width) : fromBE (toBE width n) = n := by
  induction width generalizing n with
  | zero =>
    rw [pow_zero] at h
    show 0 = n
    omega
  | succ width ih =>
    rw [pow_succ] at h
    have hhigh : fromBE (toBE width (n / 256)) = n / 256 := ih (by omega)
    unfold fromBE at hhigh ⊢
    rw [toBE, List.foldl_append, hhigh]
    simp only [List.foldl_cons, List.foldl_nil, UInt8.toNat_ofNat']
    omega

theorem fromBE_concat (bytes : Bytes) (b : UInt8) :
    fromBE (bytes ++ [b]) = fromBE bytes * 256 + b.toNat := by
  simp [fromBE]

theorem toBE_fromBE {width : Nat} {bytes : Bytes} (h : bytes.length = width) :
    toBE width (fromBE bytes) = bytes := by
  induction width generalizing bytes with
  | zero =>
    rw [List.length_eq_zero_iff] at h
    rw [h]
    rfl
  | succ width ih =>
    obtain ⟨init, b, rfl⟩ := List.eq_nil_or_concat bytes |>.resolve_left (by
      rintro rfl
      cases h)
    rw [List.concat_eq_append] at h ⊢
    have hlength : init.length = width := by simpa using h
    have hlt := b.toNat_lt
    have hdiv : (fromBE init * 256 + b.toNat) / 256 = fromBE init := by omega
    have hbyte : UInt8.ofNat (fromBE init * 256 + b.toNat) = b := by
      apply UInt8.toNat_inj.mp
      rw [UInt8.toNat_ofNat']
      omega
    rw [fromBE_concat, toBE, hdiv, hbyte, ih hlength]

theorem fromBE_lt (bytes : Bytes) : fromBE bytes < 256 ^ bytes.length := by
  induction bytes using List.reverseRecOn with
  | nil => exact Nat.one_pos
  | append_singleton init b ih =>
    have := b.toNat_lt
    rw [fromBE_concat, List.length_append, List.length_singleton, pow_succ]
    omega

/-- Flips the top bit of the first byte. -/
def flipTop : Bytes → Bytes
  | [] => []
  | b :: rest => (b ^^^ 128) :: rest

@[simp] theorem length_flipTop (bytes : Bytes) : (flipTop bytes).length = bytes.length := by
  cases bytes <;> rfl

@[simp] theorem flipTop_flipTop (bytes : Bytes) : flipTop (flipTop bytes) = bytes := by
  cases bytes with
  | nil => rfl
  | cons b rest => simp [flipTop, UInt8.xor_assoc]

theorem toNat_xor_top (b : UInt8) :
    (b ^^^ 128).toNat = if b.toNat < 128 then b.toNat + 128 else b.toNat - 128 := by
  have h : ∀ n : Fin 256, (UInt8.ofNat n.val ^^^ 128).toNat =
      if n.val < 128 then n.val + 128 else n.val - 128 := by decide +kernel
  simpa using h ⟨b.toNat, b.toNat_lt⟩

/-- Flipping the top bit swaps the two halves of the range. -/
theorem flipTop_toBE {width n : Nat} (hn : n < 256 ^ (width + 1)) :
    flipTop (toBE (width + 1) n) = toBE (width + 1)
      (if n < 128 * 256 ^ width then n + 128 * 256 ^ width else n - 128 * 256 ^ width) := by
  induction width generalizing n with
  | zero =>
    simp only [toBE, List.nil_append, flipTop, pow_zero, mul_one]
    rw [zero_add, pow_one] at hn
    congr 1
    apply UInt8.toNat_inj.mp
    rw [toNat_xor_top]
    simp only [UInt8.toNat_ofNat']
    split <;> split <;> omega
  | succ width ih =>
    have hsplit : ∀ b : Bytes, b ≠ [] → ∀ c, flipTop (b ++ c) = flipTop b ++ c := by
      intro b hb c
      cases b with
      | nil => exact absurd rfl hb
      | cons _ _ => rfl
    have hne : toBE (width + 1) (n / 256) ≠ [] := by
      rw [← List.length_pos_iff]
      simp
    have hpow : 256 ^ (width + 1 + 1) = 256 * 256 ^ (width + 1) := by rw [pow_succ, mul_comm]
    have hpow' : 256 ^ (width + 1) = 256 * 256 ^ width := by rw [pow_succ, mul_comm]
    rw [toBE, hsplit _ hne, ih (by omega)]
    conv_rhs => rw [toBE]
    congr 2
    · split <;> split <;> omega
    · apply UInt8.toNat_inj.mp
      simp only [UInt8.toNat_ofNat']
      split <;> omega

end Lib
