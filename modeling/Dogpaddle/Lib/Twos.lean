import Dogpaddle.Lib.Bytes
import Mathlib.Data.Nat.Size
import Mathlib.Tactic.Ring
import Mathlib.Tactic.Linarith

/-!
# Two's complement

Signed numbers as big-endian bytes: `fromTwos` reads any width, `toTwos` writes a width
that is wide enough, and repeating the sign in front changes nothing (`fromTwos_signExtend`).
`minimalTwos` is the shortest string that reads as a number.
-/

namespace Lib

theorem fromBE_cons (b : UInt8) (bytes : Bytes) :
    fromBE (b :: bytes) = b.toNat * 256 ^ bytes.length + fromBE bytes := by
  induction bytes using List.reverseRecOn with
  | nil => simp [fromBE]
  | append_singleton init c ih =>
    rw [← List.cons_append, fromBE_concat, fromBE_concat, ih, List.length_append,
      List.length_singleton, pow_succ]
    ring

/-- The signed number of big-endian bytes. -/
def fromTwos (bytes : Bytes) : Int :=
  if 2 * fromBE bytes < 256 ^ bytes.length then fromBE bytes
  else (fromBE bytes : Int) - 256 ^ bytes.length

/-- The `width` big-endian bytes of a signed number. -/
def toTwos (width : Nat) (v : Int) : Bytes := toBE width (v % 256 ^ width).toNat

@[simp] theorem length_toTwos (width : Nat) (v : Int) : (toTwos width v).length = width :=
  length_toBE width _

/-- A string of bytes reads as a number of its width. -/
theorem fromTwos_bounds (bytes : Bytes) :
    -(256 ^ bytes.length : Int) ≤ 2 * fromTwos bytes ∧
      2 * fromTwos bytes < 256 ^ bytes.length := by
  have hlt : (fromBE bytes : Int) < 256 ^ bytes.length := by exact_mod_cast fromBE_lt bytes
  unfold fromTwos
  split
  · next h =>
    have h' : (2 * fromBE bytes : Int) < 256 ^ bytes.length := by exact_mod_cast h
    have : (0 : Int) ≤ fromBE bytes := Int.natCast_nonneg _
    constructor <;> linarith
  · next h =>
    have h' : (256 ^ bytes.length : Int) ≤ 2 * fromBE bytes := by exact_mod_cast not_lt.mp h
    constructor <;> linarith

theorem fromTwos_toTwos {width : Nat} {v : Int} (hlow : -(256 ^ width : Int) ≤ 2 * v)
    (hhigh : 2 * v < 256 ^ width) : fromTwos (toTwos width v) = v := by
  have hpos : (0 : Int) < 256 ^ width := by positivity
  have hnonneg : 0 ≤ v % 256 ^ width := Int.emod_nonneg v hpos.ne'
  have hlt : (v % 256 ^ width).toNat < 256 ^ width := by
    have := Int.emod_lt_of_pos v hpos
    zify
    rwa [Int.toNat_of_nonneg hnonneg]
  have hvalue : fromBE (toTwos width v) = (v % 256 ^ width).toNat := fromBE_toBE hlt
  have hcast : ((v % 256 ^ width).toNat : Int) = v % 256 ^ width := Int.toNat_of_nonneg hnonneg
  unfold fromTwos
  rw [hvalue, length_toTwos, hcast]
  rcases lt_or_ge v 0 with hneg | hneg
  · have hmod : v % 256 ^ width = v + 256 ^ width := by
      rw [← Int.add_emod_right, Int.emod_eq_of_lt (by linarith) (by linarith)]
    rw [if_neg, hmod]
    · ring
    · intro h
      have h' : 2 * ((v % 256 ^ width).toNat : Int) < 256 ^ width := by exact_mod_cast h
      rw [hcast, hmod] at h'
      linarith
  · have hmod : v % 256 ^ width = v := Int.emod_eq_of_lt hneg (by linarith)
    rw [if_pos, hmod]
    zify
    rw [hcast, hmod]
    linarith

/-- A string is the writing of what it reads as. -/
theorem toTwos_fromTwos (bytes : Bytes) : toTwos bytes.length (fromTwos bytes) = bytes := by
  have hlt : (fromBE bytes : Int) < 256 ^ bytes.length := by exact_mod_cast fromBE_lt bytes
  have hnonneg : (0 : Int) ≤ fromBE bytes := Int.natCast_nonneg _
  have hmod : fromTwos bytes % 256 ^ bytes.length = fromBE bytes := by
    unfold fromTwos
    split
    · exact Int.emod_eq_of_lt hnonneg hlt
    · rw [Int.sub_emod_right, Int.emod_eq_of_lt hnonneg hlt]
  unfold toTwos
  rw [hmod, Int.toNat_natCast]
  exact toBE_fromBE rfl

/-! ## Sign extension -/

/-- The byte that stands in front of `bytes` at any larger width. -/
def signByte (first : UInt8) : UInt8 := if first &&& 0x80 = 0 then 0 else 0xff

theorem signByte_eq (first : UInt8) : signByte first = if first.toNat < 128 then 0 else 0xff := by
  have hall : ∀ i : Fin 256, signByte (UInt8.ofNat i.val) =
      if (UInt8.ofNat i.val).toNat < 128 then 0 else 0xff := by decide +kernel
  simpa using hall ⟨first.toNat, first.toNat_lt⟩

theorem signByte_signByte (first : UInt8) : signByte (signByte first) = signByte first := by
  rw [signByte_eq first]
  split <;> decide

/-- The sign is that of the first byte. -/
theorem fromTwos_cons (first : UInt8) (rest : Bytes) :
    fromTwos (first :: rest) =
      (if first.toNat < 128 then (first.toNat : Int) else (first.toNat : Int) - 256)
        * 256 ^ rest.length + fromBE rest := by
  have hrest := fromBE_lt rest
  have hfirst := first.toNat_lt
  unfold fromTwos
  rw [fromBE_cons, List.length_cons, pow_succ]
  split
  · next h =>
    have hbyte : first.toNat < 128 := by
      by_contra hge
      have : 128 * 256 ^ rest.length ≤ first.toNat * 256 ^ rest.length :=
        Nat.mul_le_mul_right _ (not_lt.mp hge)
      omega
    rw [if_pos hbyte]
    push_cast
    ring
  · next h =>
    have hbyte : ¬ first.toNat < 128 := by
      intro hlt
      have : first.toNat * 256 ^ rest.length ≤ 127 * 256 ^ rest.length :=
        Nat.mul_le_mul_right _ (by omega)
      omega
    rw [if_neg hbyte]
    push_cast
    ring

theorem fromTwos_signByte_cons (first : UInt8) (rest : Bytes) :
    fromTwos (signByte first :: first :: rest) = fromTwos (first :: rest) := by
  rw [fromTwos_cons, fromTwos_cons, fromBE_cons, List.length_cons, pow_succ, signByte_eq]
  by_cases h : first.toNat < 128
  · simp only [h, if_true]
    norm_num
  · have hbyte : (0xff : UInt8).toNat = 255 := rfl
    simp only [h, if_false, hbyte]
    push_cast
    norm_num
    ring

theorem fromTwos_signExtend (n : Nat) (first : UInt8) (rest : Bytes) :
    fromTwos (List.replicate n (signByte first) ++ first :: rest) = fromTwos (first :: rest) := by
  induction n with
  | zero => rfl
  | succ n ih =>
    rw [List.replicate_succ, List.cons_append]
    cases n with
    | zero => exact fromTwos_signByte_cons first rest
    | succ n =>
      rw [List.replicate_succ, List.cons_append] at ih ⊢
      have h := fromTwos_signByte_cons (signByte first)
        (List.replicate n (signByte first) ++ first :: rest)
      rw [signByte_signByte] at h
      rw [h, ih]

/-! ## Shortest strings -/

/-- The bits of a number next to its sign. -/
def bitLength (v : Int) : Nat := (if 0 ≤ v then v.toNat else (-v - 1).toNat).size

/-- The shortest string that reads as `v`. -/
def minimalTwos (v : Int) : Bytes := toTwos (bitLength v / 8 + 1) v

theorem bitLength_le {v : Int} {n : Nat} : bitLength v ≤ n ↔ -(2 ^ n) ≤ v ∧ v < 2 ^ n := by
  unfold bitLength
  rw [Nat.size_le]
  have hpos : (0 : Int) < 2 ^ n := by positivity
  split
  · next h =>
    zify
    rw [Int.toNat_of_nonneg h]
    constructor
    · intro hlt
      exact ⟨by linarith, hlt⟩
    · exact And.right
  · next h =>
    zify
    rw [Int.toNat_of_nonneg (by omega)]
    constructor
    · intro hlt
      exact ⟨by linarith, by linarith⟩
    · rintro ⟨hlow, -⟩
      linarith

/-- A width holds a number when its bits, but the one for the sign, do. -/
theorem bitLength_le_width {v : Int} {width : Nat} :
    bitLength v ≤ 8 * width + 7 ↔
      -(256 ^ (width + 1) : Int) ≤ 2 * v ∧ 2 * v < 256 ^ (width + 1) := by
  have hpow : (256 ^ (width + 1) : Int) = 2 * 2 ^ (8 * width + 7) := by
    rw [show (256 : Int) = 2 ^ 8 from rfl, ← pow_mul, ← pow_succ']
    congr 1
  rw [bitLength_le, hpow]
  constructor
  · rintro ⟨hlow, hhigh⟩
    constructor <;> linarith
  · rintro ⟨hlow, hhigh⟩
    constructor <;> linarith

theorem fromTwos_minimalTwos (v : Int) : fromTwos (minimalTwos v) = v := by
  have hwidth : bitLength v ≤ 8 * (bitLength v / 8) + 7 := by omega
  have h := bitLength_le_width.mp hwidth
  exact fromTwos_toTwos h.1 h.2

theorem minimalTwos_ne_nil (v : Int) : minimalTwos v ≠ [] := by
  intro h
  have := congrArg List.length h
  rw [minimalTwos, length_toTwos] at this
  cases this

/-- No other string that reads as the number is shorter. -/
theorem length_minimalTwos_le {bytes : Bytes} (hne : bytes ≠ []) :
    (minimalTwos (fromTwos bytes)).length ≤ bytes.length := by
  obtain ⟨first, rest, rfl⟩ := List.exists_cons_of_ne_nil hne
  have h := bitLength_le_width.mpr (fromTwos_bounds (first :: rest))
  rw [minimalTwos, length_toTwos, List.length_cons]
  omega

end Lib
