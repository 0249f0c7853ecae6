import Dogpaddle.Cdc.Value
import Dogpaddle.Lib.Twos

/-!
# Decimals

A Connect decimal is the standard Base64 of the big-endian two's complement of its unscaled
value. `parseDecimal` reads every such string of at most sixteen bytes, whatever its sign
extension, and nothing else.
-/

namespace Dogpaddle.Cdc

open Lib

/-- The unscaled value of a decimal, as an `i128`. -/
def parseDecimal (engine : Engine) (value : Value) (precision : Nat) : Option Int := do
  if ¬ (1 ≤ precision ∧ precision ≤ 38) then none
  else
    let encodedValue ← value.asStr
    -- At most 16 decoded bytes fit in i128; a 24-byte Base64 input needs an 18-byte output
    -- slice for the decoder's conservative size estimate.
    if 24 < encodedValue.utf8ByteSize then none
    else
      let bytes ← engine.decodeSlice encodedValue 18
      let first ← bytes.head?
      if 16 < bytes.length then none
      else
        let encoded :=
          List.replicate (16 - bytes.length) (if first &&& 0x80 = 0 then 0 else 0xff) ++ bytes
        let unscaled := fromTwos encoded
        if unscaled.natAbs < 10 ^ precision then some unscaled else none

variable {engine : Engine}

/-- The strings that fit the buffer are decoded. -/
theorem decodeSlice_of_short (standard : engine.Standard) {s : String}
    (h : ¬ 24 < s.utf8ByteSize) : engine.decodeSlice s 18 = engine.decode s := by
  apply standard.decodeSlice_eq
  unfold Engine.decodedLenEstimate
  omega

/-- What is accepted is the encoding of a short string that reads as the value. -/
theorem parseDecimal_eq_some_iff (standard : engine.Standard) {value : Value} {precision : Nat}
    (hp : 1 ≤ precision ∧ precision ≤ 38) {v : Int} :
    parseDecimal engine value precision = some v ↔
      ∃ bytes : Bytes, bytes ≠ [] ∧ bytes.length ≤ 16 ∧ fromTwos bytes = v ∧
        value = .string (String.ofList (Base64.encode bytes)) ∧ v.natAbs < 10 ^ precision := by
  unfold parseDecimal
  rw [if_neg (not_not.mpr hp)]
  constructor
  · intro h
    simp only [Option.bind_eq_bind, Option.bind_eq_some_iff] at h
    obtain ⟨s, hs, h⟩ := h
    split at h
    · cases h
    · next hshort =>
      simp only [Option.bind_eq_some_iff] at h
      obtain ⟨bytes, hbytes, first, hfirst, h⟩ := h
      rw [decodeSlice_of_short standard hshort, standard.decode_iff] at hbytes
      obtain ⟨rest, rfl⟩ := List.head?_eq_some_iff.mp hfirst
      split at h
      · cases h
      · next hlength =>
        have hsign := fromTwos_signExtend (16 - (first :: rest).length) first rest
        unfold signByte at hsign
        simp only [hsign] at h
        split at h
        · next hbound =>
          cases h
          exact ⟨first :: rest, List.cons_ne_nil _ _, not_lt.mp hlength, rfl,
            by rw [Value.asStr_eq_some_iff.mp hs, hbytes], hbound⟩
        · cases h
  · rintro ⟨bytes, hne, hlength, rfl, rfl, hbound⟩
    have hshort : ¬ 24 < (String.ofList (Base64.encode bytes)).utf8ByteSize := by
      rw [Base64.utf8ByteSize_encode]
      omega
    have hdecode := (standard.decode_iff _ bytes).mpr rfl
    rw [← decodeSlice_of_short standard hshort] at hdecode
    obtain ⟨first, rest, rfl⟩ := List.exists_cons_of_ne_nil hne
    have hsign := fromTwos_signExtend (16 - (first :: rest).length) first rest
    unfold signByte at hsign
    simp only [Value.asStr, Option.bind_eq_bind, Option.bind_some, hshort, if_false, hdecode,
      List.head?_cons, not_lt.mpr hlength, hsign, hbound, if_true]

/-- Every value of the largest precision fits sixteen bytes. -/
theorem length_minimalTwos_le_of_natAbs {v : Int} {precision : Nat} (hp : precision ≤ 38)
    (h : v.natAbs < 10 ^ precision) : (minimalTwos v).length ≤ 16 := by
  have hpow : 10 ^ precision ≤ 10 ^ 38 := Nat.pow_le_pow_right (by decide) hp
  have hbits : bitLength v ≤ 127 := by
    rw [bitLength_le]
    have hnum : (10 ^ 38 : Nat) < 2 ^ 127 := by decide
    omega
  rw [minimalTwos, length_toTwos]
  omega

/-- A decimal of a precision is read exactly: each of its encodings of at most sixteen bytes
gives its value when the precision holds it and is refused otherwise, no other string gives a
value, and every value the precision holds has a shortest encoding that gives it back. -/
theorem parseDecimal_exact (engine : Engine) (standard : engine.Standard) (precision : Nat)
    (hp : 1 ≤ precision ∧ precision ≤ 38) :
    (∀ (v : Int) (bytes : Bytes), bytes ≠ [] → bytes.length ≤ 16 → fromTwos bytes = v →
      parseDecimal engine (.string (String.ofList (Base64.encode bytes))) precision =
        if v.natAbs < 10 ^ precision then some v else none) ∧
    (∀ (value : Value) (v : Int), parseDecimal engine value precision = some v →
      ∃ bytes : Bytes, bytes ≠ [] ∧ bytes.length ≤ 16 ∧ fromTwos bytes = v ∧
        value = .string (String.ofList (Base64.encode bytes))) ∧
    (∀ v : Int, v.natAbs < 10 ^ precision →
      parseDecimal engine (.string (String.ofList (Base64.encode (minimalTwos v)))) precision =
        some v ∧
      fromTwos (minimalTwos v) = v ∧
      ∀ bytes : Bytes, bytes ≠ [] → fromTwos bytes = v →
        (minimalTwos v).length ≤ bytes.length) := by
  refine ⟨?_, ?_, ?_⟩
  · intro v bytes hne hlength hv
    split
    · next hbound =>
      exact (parseDecimal_eq_some_iff standard hp).mpr ⟨bytes, hne, hlength, hv, rfl, hbound⟩
    · next hbound =>
      refine Option.eq_none_iff_forall_ne_some.mpr fun w hw => hbound ?_
      obtain ⟨other, -, -, hother, hsame, hlt⟩ := (parseDecimal_eq_some_iff standard hp).mp hw
      have hletters := String.ofList_injective (Value.string.inj hsame)
      have hbytes : some bytes = some other := by
        rw [← Base64.decode_encode bytes, ← Base64.decode_encode other, hletters]
      cases hbytes
      rwa [← hv, hother]
  · intro value v h
    obtain ⟨bytes, hne, hlength, hv, hvalue, -⟩ := (parseDecimal_eq_some_iff standard hp).mp h
    exact ⟨bytes, hne, hlength, hv, hvalue⟩
  · intro v hv
    refine ⟨?_, fromTwos_minimalTwos v, ?_⟩
    · exact (parseDecimal_eq_some_iff standard hp).mpr ⟨minimalTwos v, minimalTwos_ne_nil v,
        length_minimalTwos_le_of_natAbs hp.2 hv, fromTwos_minimalTwos v, rfl, hv⟩
    · rintro bytes hne rfl
      exact length_minimalTwos_le hne

/-- Sign-extended ninety-nine has two digits, one hundred does not. -/
theorem parseDecimal_two_digits :
    parseDecimal Engine.standard (.string (String.ofList (Base64.encode [0, 0, 99]))) 2 =
      some 99 ∧
    parseDecimal Engine.standard (.string (String.ofList (Base64.encode [100]))) 2 = none := by
  have h := parseDecimal_exact Engine.standard Engine.standard_standard 2 (by decide)
  exact ⟨(h.1 99 [0, 0, 99] (by decide) (by decide) (by decide)).trans (if_pos (by decide)),
    (h.1 100 [100] (by decide) (by decide) (by decide)).trans (if_neg (by decide))⟩

end Dogpaddle.Cdc
