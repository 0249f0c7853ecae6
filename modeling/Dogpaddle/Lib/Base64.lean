import Dogpaddle.Lib.Bytes

/-!
# Base64

The standard alphabet with canonical padding: the last group of four letters is padded, and
the bits that padding leaves over are zero.
-/

namespace Lib.Base64

/-! ## Letters -/

/-- The letter of a number below 64. -/
def letter (n : Nat) : Char :=
  Char.ofNat (if n < 26 then n + 65 else if n < 52 then n + 71 else if n < 62 then n - 4
    else if n = 62 then 43 else 47)

/-- The number of a letter. -/
def sextet (c : Char) : Option Nat :=
  if 65 ≤ c.toNat ∧ c.toNat ≤ 90 then some (c.toNat - 65)
  else if 97 ≤ c.toNat ∧ c.toNat ≤ 122 then some (c.toNat - 71)
  else if 48 ≤ c.toNat ∧ c.toNat ≤ 57 then some (c.toNat + 4)
  else if c.toNat = 43 then some 62
  else if c.toNat = 47 then some 63
  else none

def pad : Char := '='

@[simp] theorem sextet_letter {n : Nat} (h : n < 64) : sextet (letter n) = some n := by
  have hall : ∀ i : Fin 64, sextet (letter i.val) = some i.val := by decide
  exact hall ⟨n, h⟩

@[simp] theorem sextet_pad : sextet pad = none := by decide

theorem letter_ne_pad {n : Nat} (h : n < 64) : letter n ≠ pad := by
  intro hpad
  have hs := sextet_letter h
  rw [hpad, sextet_pad] at hs
  cases hs

theorem letter_of_sextet {c : Char} {n : Nat} (h : sextet c = some n) :
    n < 64 ∧ letter n = c := by
  have hc : Char.ofNat c.toNat = c := Char.ofNat_toNat c
  have key : n < 64 ∧ (if n < 26 then n + 65 else if n < 52 then n + 71 else if n < 62 then n - 4
      else if n = 62 then 43 else 47) = c.toNat := by
    unfold sextet at h
    split at h
    · cases h
      split <;> omega
    · split at h
      · cases h
        split
        · omega
        · split <;> omega
      · split at h
        · cases h
          split
          · omega
          · split
            · omega
            · split <;> omega
        · split at h
          · cases h
            simp_all
          · split at h
            · cases h
              simp_all
            · cases h
  exact ⟨key.1, by rw [letter, key.2, hc]⟩

/-! ## Groups -/

/-- The letters of a byte string. -/
def encode : Bytes → List Char
  | [] => []
  | [a] => [letter (a.toNat / 4), letter (a.toNat % 4 * 16), pad, pad]
  | [a, b] =>
    [letter (a.toNat / 4), letter (a.toNat % 4 * 16 + b.toNat / 16), letter (b.toNat % 16 * 4),
      pad]
  | a :: b :: c :: rest =>
    letter (a.toNat / 4) :: letter (a.toNat % 4 * 16 + b.toNat / 16)
      :: letter (b.toNat % 16 * 4 + c.toNat / 64) :: letter (c.toNat % 64) :: encode rest

/-- The byte of a group with two pads. -/
def one (a b : Char) : Option Bytes := do
  let w ← sextet a
  let x ← sextet b
  if x % 16 = 0 then some [UInt8.ofNat (w * 4 + x / 16)] else none

/-- The bytes of a group with one pad. -/
def two (a b c : Char) : Option Bytes := do
  let w ← sextet a
  let x ← sextet b
  let y ← sextet c
  if y % 4 = 0 then
    some [UInt8.ofNat (w * 4 + x / 16), UInt8.ofNat (x % 16 * 16 + y / 4)]
  else none

/-- The bytes of a group without pads. -/
def three (a b c d : Char) : Option Bytes := do
  let w ← sextet a
  let x ← sextet b
  let y ← sextet c
  let z ← sextet d
  some [UInt8.ofNat (w * 4 + x / 16), UInt8.ofNat (x % 16 * 16 + y / 4),
    UInt8.ofNat (y % 4 * 64 + z)]

/-- The byte string that letters encode; only the last group may be padded. -/
def decode : List Char → Option Bytes
  | [] => some []
  | a :: b :: c :: d :: rest =>
    if d = pad then
      if rest = [] then if c = pad then one a b else two a b c else none
    else do
      let group ← three a b c d
      let tail ← decode rest
      some (group ++ tail)
  | _ => none

/-! ## Round trips -/

theorem one_eq_some_iff {a b : Char} {bytes : Bytes} :
    one a b = some bytes ↔ ∃ x : UInt8, bytes = [x] ∧ a = letter (x.toNat / 4) ∧
      b = letter (x.toNat % 4 * 16) := by
  constructor
  · intro h
    simp only [one, Option.bind_eq_bind, Option.bind_eq_some_iff] at h
    obtain ⟨w, hw, x, hx, h⟩ := h
    obtain ⟨hw, rfl⟩ := letter_of_sextet hw
    obtain ⟨hx, rfl⟩ := letter_of_sextet hx
    split at h
    · cases h
      refine ⟨_, rfl, ?_, ?_⟩
      · congr 1
        rw [UInt8.toNat_ofNat']
        omega
      · congr 1
        rw [UInt8.toNat_ofNat']
        omega
    · cases h
  · rintro ⟨x, rfl, rfl, rfl⟩
    have := x.toNat_lt
    simp only [one, sextet_letter (n := x.toNat / 4) (by omega),
      sextet_letter (n := x.toNat % 4 * 16) (by omega), Option.bind_eq_bind, Option.bind_some]
    rw [if_pos (by omega)]
    congr 2
    apply UInt8.toNat_inj.mp
    rw [UInt8.toNat_ofNat']
    omega

theorem two_eq_some_iff {a b c : Char} {bytes : Bytes} :
    two a b c = some bytes ↔ ∃ x y : UInt8, bytes = [x, y] ∧ a = letter (x.toNat / 4) ∧
      b = letter (x.toNat % 4 * 16 + y.toNat / 16) ∧ c = letter (y.toNat % 16 * 4) := by
  constructor
  · intro h
    simp only [two, Option.bind_eq_bind, Option.bind_eq_some_iff] at h
    obtain ⟨u, hu, v, hv, w, hw, h⟩ := h
    obtain ⟨hu, rfl⟩ := letter_of_sextet hu
    obtain ⟨hv, rfl⟩ := letter_of_sextet hv
    obtain ⟨hw, rfl⟩ := letter_of_sextet hw
    split at h
    · cases h
      refine ⟨_, _, rfl, ?_, ?_, ?_⟩ <;>
      · congr 1
        simp only [UInt8.toNat_ofNat']
        omega
    · cases h
  · rintro ⟨x, y, rfl, rfl, rfl, rfl⟩
    have := x.toNat_lt
    have := y.toNat_lt
    simp only [two, sextet_letter (n := x.toNat / 4) (by omega),
      sextet_letter (n := x.toNat % 4 * 16 + y.toNat / 16) (by omega),
      sextet_letter (n := y.toNat % 16 * 4) (by omega), Option.bind_eq_bind, Option.bind_some]
    rw [if_pos (by omega)]
    simp only [Option.some.injEq, List.cons.injEq, and_true, ← UInt8.toNat_inj,
      UInt8.toNat_ofNat']
    omega

theorem three_eq_some_iff {a b c d : Char} {bytes : Bytes} :
    three a b c d = some bytes ↔ ∃ x y z : UInt8, bytes = [x, y, z] ∧
      a = letter (x.toNat / 4) ∧ b = letter (x.toNat % 4 * 16 + y.toNat / 16) ∧
      c = letter (y.toNat % 16 * 4 + z.toNat / 64) ∧ d = letter (z.toNat % 64) := by
  constructor
  · intro h
    simp only [three, Option.bind_eq_bind, Option.bind_eq_some_iff, Option.some.injEq] at h
    obtain ⟨t, ht, u, hu, v, hv, w, hw, rfl⟩ := h
    obtain ⟨ht, rfl⟩ := letter_of_sextet ht
    obtain ⟨hu, rfl⟩ := letter_of_sextet hu
    obtain ⟨hv, rfl⟩ := letter_of_sextet hv
    obtain ⟨hw, rfl⟩ := letter_of_sextet hw
    refine ⟨_, _, _, rfl, ?_, ?_, ?_, ?_⟩ <;>
    · congr 1
      simp only [UInt8.toNat_ofNat']
      omega
  · rintro ⟨x, y, z, rfl, rfl, rfl, rfl, rfl⟩
    have := x.toNat_lt
    have := y.toNat_lt
    have := z.toNat_lt
    simp only [three, sextet_letter (n := x.toNat / 4) (by omega),
      sextet_letter (n := x.toNat % 4 * 16 + y.toNat / 16) (by omega),
      sextet_letter (n := y.toNat % 16 * 4 + z.toNat / 64) (by omega),
      sextet_letter (n := z.toNat % 64) (by omega), Option.bind_eq_bind, Option.bind_some,
      Option.some.injEq, List.cons.injEq, and_true, ← UInt8.toNat_inj, UInt8.toNat_ofNat']
    omega

theorem decode_encode (bytes : Bytes) : decode (encode bytes) = some bytes := by
  induction bytes using encode.induct with
  | case1 => rfl
  | case2 a =>
    have h : one (letter (a.toNat / 4)) (letter (a.toNat % 4 * 16)) = some [a] :=
      one_eq_some_iff.mpr ⟨a, rfl, rfl, rfl⟩
    simpa [encode, decode] using h
  | case3 a b =>
    have := a.toNat_lt
    have := b.toNat_lt
    have h : two (letter (a.toNat / 4)) (letter (a.toNat % 4 * 16 + b.toNat / 16))
        (letter (b.toNat % 16 * 4)) = some [a, b] :=
      two_eq_some_iff.mpr ⟨a, b, rfl, rfl, rfl, rfl⟩
    have hne : letter (b.toNat % 16 * 4) ≠ pad := letter_ne_pad (by omega)
    simpa [encode, decode, hne] using h
  | case4 a b c rest ih =>
    have h : three (letter (a.toNat / 4)) (letter (a.toNat % 4 * 16 + b.toNat / 16))
        (letter (b.toNat % 16 * 4 + c.toNat / 64)) (letter (c.toNat % 64)) = some [a, b, c] :=
      three_eq_some_iff.mpr ⟨a, b, c, rfl, rfl, rfl, rfl, rfl⟩
    have hne : letter (c.toNat % 64) ≠ pad := letter_ne_pad (by omega)
    simp only [encode, decode, hne, if_false, h, ih, Option.bind_eq_bind, Option.bind_some,
      List.cons_append, List.nil_append]

/-- Only the encoding of a byte string decodes to it. -/
theorem encode_of_decode {letters : List Char} {bytes : Bytes} (h : decode letters = some bytes) :
    encode bytes = letters := by
  induction letters using decode.induct generalizing bytes with
  | case1 =>
    cases h
    rfl
  | case2 a b =>
    simp only [decode, if_true] at h
    obtain ⟨x, rfl, rfl, rfl⟩ := one_eq_some_iff.mp h
    rfl
  | case3 a b c hc =>
    simp only [decode, if_true, hc, if_false] at h
    obtain ⟨x, y, rfl, rfl, rfl, rfl⟩ := two_eq_some_iff.mp h
    rfl
  | case4 a b c rest hrest =>
    simp only [decode, if_true, hrest, if_false] at h
    cases h
  | case5 a b c d rest hd ih =>
    simp only [decode, hd, if_false, Option.bind_eq_bind, Option.bind_eq_some_iff,
      Option.some.injEq] at h
    obtain ⟨group, hgroup, tail, htail, rfl⟩ := h
    obtain ⟨x, y, z, rfl, rfl, rfl, rfl, rfl⟩ := three_eq_some_iff.mp hgroup
    rw [← ih htail]
    rfl
  | case6 letters hnil hcons =>
    rw [decode] at h
    · cases h
    · exact hnil
    · exact hcons

theorem decode_eq_some_iff {letters : List Char} {bytes : Bytes} :
    decode letters = some bytes ↔ encode bytes = letters :=
  ⟨encode_of_decode, fun h => h ▸ decode_encode bytes⟩

/-- Four letters for every three bytes begun. -/
theorem length_encode (bytes : Bytes) : (encode bytes).length = (bytes.length + 2) / 3 * 4 := by
  induction bytes using encode.induct with
  | case1 => rfl
  | case2 a => simp [encode]
  | case3 a b => simp [encode]
  | case4 a b c rest ih =>
    simp only [encode, List.length_cons, ih]
    omega

/-- Letters are ASCII. -/
theorem utf8Size_of_mem_encode {bytes : Bytes} {c : Char} (h : c ∈ encode bytes) :
    c.utf8Size = 1 := by
  have hletter : ∀ n < 64, (letter n).utf8Size = 1 := by
    have hall : ∀ i : Fin 64, (letter i.val).utf8Size = 1 := by decide
    exact fun n hn => hall ⟨n, hn⟩
  have hpad : pad.utf8Size = 1 := rfl
  induction bytes using encode.induct with
  | case1 => cases h
  | case2 a =>
    have := a.toNat_lt
    simp only [encode, List.mem_cons, List.not_mem_nil, or_false] at h
    rcases h with rfl | rfl | rfl | rfl
    · exact hletter _ (by omega)
    · exact hletter _ (by omega)
    · exact hpad
    · exact hpad
  | case3 a b =>
    have := a.toNat_lt
    have := b.toNat_lt
    simp only [encode, List.mem_cons, List.not_mem_nil, or_false] at h
    rcases h with rfl | rfl | rfl | rfl
    · exact hletter _ (by omega)
    · exact hletter _ (by omega)
    · exact hletter _ (by omega)
    · exact hpad
  | case4 a b c rest ih =>
    have := a.toNat_lt
    have := b.toNat_lt
    have := c.toNat_lt
    simp only [encode, List.mem_cons] at h
    rcases h with rfl | rfl | rfl | rfl | h
    · exact hletter _ (by omega)
    · exact hletter _ (by omega)
    · exact hletter _ (by omega)
    · exact hletter _ (by omega)
    · exact ih h

theorem utf8ByteSize_ofList (letters : List Char) :
    (String.ofList letters).utf8ByteSize = (letters.map Char.utf8Size).sum := by
  induction letters with
  | nil => rfl
  | cons c letters ih =>
    rw [String.ofList_cons, String.utf8ByteSize_append, String.utf8ByteSize_singleton, ih,
      List.map_cons, List.sum_cons]

/-- The encoding as a string has as many bytes as letters. -/
theorem utf8ByteSize_encode (bytes : Bytes) :
    (String.ofList (encode bytes)).utf8ByteSize = (bytes.length + 2) / 3 * 4 := by
  rw [utf8ByteSize_ofList, List.map_eq_replicate_iff.mpr fun c h => utf8Size_of_mem_encode h,
    List.sum_replicate_nat, mul_one, length_encode]

end Lib.Base64
