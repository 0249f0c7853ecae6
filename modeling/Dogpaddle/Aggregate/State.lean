import Dogpaddle.Lib.Reader

/-!
# The stored state of an aggregate group

* `GroupState.encodeValue` and `GroupState.decodeValue` are the two halves of the codec.
* A decoder fails with an error of its own or panics; `NoPanic` is the absence of the second.
* Both readers of the lists are exact for what the encoder writes, although they look at the
  bytes behind the item they read: an item that leaves too little for the others is refused.
-/

namespace Dogpaddle.Aggregate

open Lib

/-! ## States -/

def groupStateVersion : UInt8 := 1

def statisticBytes : Nat := 32

/-- The largest `u64`, which is the largest `usize` as well. -/
def maxU64 : Nat := 2 ^ 64 - 1

inductive Statistic
  | count (count : UInt64)
  | signed (count : UInt64) (sum : BitVec 128)
  | unsigned (count : UInt64) (sum : BitVec 128)
deriving DecidableEq, Repr

structure GroupState where
  id : UInt64
  weight : UInt64
  statistics : List Statistic
  /-- Present empty keys are valid, so absence has its own wire marker. -/
  extremes : List (Option Bytes)
deriving DecidableEq, Repr

def saturatingAdd (a b : Nat) : Nat := min (a + b) maxU64

def saturatingMul (a b : Nat) : Nat := min (a * b) maxU64

def checkedAdd (a b : Nat) : Option Nat := if a + b ≤ maxU64 then some (a + b) else none

def checkedMul (a b : Nat) : Option Nat := if a * b ≤ maxU64 then some (a * b) else none

/-- The bytes of a key and of its length. -/
def keyBytes (key : Option Bytes) : Nat := 8 + key.elim 0 List.length

def GroupState.logicalBytes (s : GroupState) : Nat :=
  saturatingAdd (saturatingAdd 24 (saturatingMul s.statistics.length statisticBytes))
    (s.extremes.map keyBytes).sum

/-! ## Encoding -/

/-- The tag, the count and the sum of a statistic. -/
def statisticParts : Statistic → UInt8 × UInt64 × Bytes
  | .count count => (0, count, List.replicate 16 0)
  | .signed count sum => (1, count, toBE 16 sum.toNat)
  | .unsigned count sum => (2, count, toBE 16 sum.toNat)

def encodeStatistic (statistic : Statistic) : Bytes :=
  let parts := statisticParts statistic
  parts.1 :: toBE 8 parts.2.1.toNat ++ parts.2.2 ++ List.replicate 7 0

def encodeKey : Option Bytes → Bytes
  | none => toBE 8 maxU64
  | some key => toBE 8 key.length ++ key

namespace GroupState

def encodeValue (s : GroupState) : Except String Bytes :=
  if s.weight = 0 then .error "aggregate group has zero weight"
  else if 2 ^ 32 ≤ s.statistics.length then .error "aggregate group has too many statistics"
  else if 2 ^ 32 ≤ s.extremes.length then .error "aggregate group has too many cached extrema"
  else if s.extremes.any fun key => key.any fun bytes => maxU64 < bytes.length then
    .error "aggregate extreme key is too large"
  else .ok (groupStateVersion :: toBE 8 s.id.toNat ++ toBE 8 s.weight.toNat
    ++ toBE 4 s.statistics.length ++ toBE 4 s.extremes.length
    ++ s.statistics.flatMap encodeStatistic ++ s.extremes.flatMap encodeKey)

end GroupState

/-! ## Decoding -/

/-- How a decoder ends without a value. -/
inductive Failure
  | codec (message : String)
  | panic (message : String)
deriving DecidableEq, Repr

abbrev Decoder (α : Type) := StateT Bytes (Except Failure) α

def fail {α : Type} (message : String) : Decoder α := throw (.codec message)

def take (length : Nat) : Decoder Bytes :=
  Reader.takeElse (.codec "aggregate state is truncated") length

/-- `split_at`, which panics behind the end. -/
def splitAt (mid : Nat) : Decoder Bytes := Reader.takeElse (.panic "mid > len") mid

/-- `-` on `usize`. -/
def sub (a b : Nat) : Decoder Nat :=
  if b ≤ a then pure (a - b) else throw (.panic "attempt to subtract with overflow")

/-- `*` on `usize`. -/
def mul (a b : Nat) : Decoder Nat :=
  if a * b ≤ maxU64 then pure (a * b) else throw (.panic "attempt to multiply with overflow")

/-- A big-endian `u64`. -/
def u64 : Decoder UInt64 := do
  let bytes ← take 8
  pure (UInt64.ofNat (fromBE bytes))

/-- A big-endian `u32`. -/
def u32 : Decoder Nat := do
  let bytes ← take 4
  pure (fromBE bytes)

/-- The statistic of its fixed-width bytes. -/
def statisticOf (bytes : Bytes) : Decoder Statistic :=
  if (bytes.drop 25).any (· ≠ 0) then fail "noncanonical aggregate statistic padding"
  else
    let count := UInt64.ofNat (fromBE ((bytes.drop 1).take 8))
    let sum := (bytes.drop 9).take 16
    if bytes.headD 0 = 0 ∧ sum = List.replicate 16 0 then pure (.count count)
    else if bytes.headD 0 = 1 then pure (.signed count (.ofNat 128 (fromBE sum)))
    else if bytes.headD 0 = 2 then pure (.unsigned count (.ofNat 128 (fromBE sum)))
    else fail "invalid aggregate statistic"

def decodeStatistic : Decoder Statistic := do
  let bytes ← take statisticBytes
  statisticOf bytes

def decodeStatistics : Nat → Decoder (List Statistic)
  | 0 => pure []
  | left + 1 => do
    let statistic ← decodeStatistic
    let statistics ← decodeStatistics left
    pure (statistic :: statistics)

/-- The key of one index; space is kept for the lengths of the keys still to come. -/
def decodeKey (extremeCount index : Nat) : Decoder (Option Bytes) := do
  let length ← u64
  let length := length.toNat
  if length = maxU64 then pure none
  else
    let left ← sub extremeCount index
    let left ← sub left 1
    let reserved ← mul left 8
    let remaining ← get
    if remaining.length - reserved < length then
      fail "aggregate extreme key exceeds its payload"
    else
      let key ← splitAt length
      pure (some key)

def decodeKeys (extremeCount : Nat) : Nat → Nat → Decoder (List (Option Bytes))
  | _, 0 => pure []
  | index, left + 1 => do
    let key ← decodeKey extremeCount index
    let keys ← decodeKeys extremeCount (index + 1) left
    pure (key :: keys)

/-- The declared numbers of statistics and keys, which what remains can hold. -/
def decodeCounts : Decoder (Nat × Nat) := do
  let statistics ← u32
  let extremes ← u32
  let minimum := (checkedMul statistics statisticBytes).bind fun bytes =>
    (checkedMul extremes 8).bind fun keys => checkedAdd bytes keys
  let remaining ← get
  if minimum = none then fail "aggregate state count overflows"
  else if remaining.length < minimum.getD 0 then fail "aggregate state count exceeds its payload"
  else pure (statistics, extremes)

def decodeGroupState : Decoder GroupState := do
  let version ← take 1
  if version ≠ [groupStateVersion] then fail "unsupported aggregate group state version"
  else
    let id ← u64
    let weight ← u64
    if weight = 0 then fail "aggregate group has zero weight"
    else
      let counts ← decodeCounts
      let statistics ← decodeStatistics counts.1
      let extremes ← decodeKeys counts.2 0 counts.2
      let remaining ← get
      if remaining ≠ [] then fail "aggregate state has trailing bytes"
      else
        pure { id := id, weight := weight, statistics := statistics, extremes := extremes }

def GroupState.decodeValue (bytes : Bytes) : Except Failure GroupState :=
  (decodeGroupState bytes).map Prod.fst

/-! ## What the readers read -/

open Reader

theorem exact_u64 : Exact u64 fun n w => w = toBE 8 n.toNat := by
  refine ((exact_takeElse _ 8).bind fun bytes => exact_pure _).congr fun n w => ?_
  constructor
  · rintro ⟨bytes, w₁, w₂, ⟨rfl, hlength⟩, ⟨rfl, rfl⟩, rfl⟩
    have hlt : fromBE w₁ < 2 ^ 64 := by
      have := fromBE_lt w₁
      rwa [hlength] at this
    rw [List.append_nil, UInt64.toNat_ofNat', Nat.mod_eq_of_lt hlt, toBE_fromBE hlength]
  · rintro rfl
    have hlt : n.toNat < 256 ^ 8 := n.toNat_lt
    refine ⟨toBE 8 n.toNat, toBE 8 n.toNat, [], ⟨rfl, length_toBE 8 _⟩, ⟨?_, rfl⟩,
      (List.append_nil _).symm⟩
    rw [fromBE_toBE hlt, UInt64.ofNat_toNat]

theorem exact_u32 : Exact u32 fun n w => n < 2 ^ 32 ∧ w = toBE 4 n := by
  refine ((exact_takeElse _ 4).bind fun bytes => exact_pure _).congr fun n w => ?_
  constructor
  · rintro ⟨bytes, w₁, w₂, ⟨rfl, hlength⟩, ⟨rfl, rfl⟩, rfl⟩
    have hlt := fromBE_lt w₁
    rw [hlength] at hlt
    exact ⟨hlt, by rw [List.append_nil, toBE_fromBE hlength]⟩
  · rintro ⟨hlt, rfl⟩
    exact ⟨toBE 4 n, toBE 4 n, [], ⟨rfl, length_toBE 4 n⟩, ⟨(fromBE_toBE hlt).symm, rfl⟩,
      (List.append_nil _).symm⟩

@[simp] theorem length_statisticParts (s : Statistic) : (statisticParts s).2.2.length = 16 := by
  cases s <;> simp [statisticParts]

@[simp] theorem length_encodeStatistic (s : Statistic) :
    (encodeStatistic s).length = statisticBytes := by
  simp [encodeStatistic, statisticBytes]

/-- The four fields of a statistic's bytes. -/
theorem statistic_fields (tag : UInt8) (count sum padding : Bytes) (hcount : count.length = 8)
    (hsum : sum.length = 16) :
    (tag :: count ++ sum ++ padding).headD 0 = tag ∧
      ((tag :: count ++ sum ++ padding).drop 1).take 8 = count ∧
      ((tag :: count ++ sum ++ padding).drop 9).take 16 = sum ∧
      (tag :: count ++ sum ++ padding).drop 25 = padding := by
  refine ⟨rfl, ?_, ?_, ?_⟩
  · simp [← hcount]
  · rw [List.cons_append, List.cons_append, List.drop_succ_cons, List.append_assoc,
      List.drop_left' hcount, List.take_left' hsum]
  · rw [List.cons_append, List.cons_append, List.drop_succ_cons]
    exact List.drop_left' (by simp [hcount, hsum])

/-- Any string of that length has the four fields. -/
theorem exists_statistic_fields {bytes : Bytes} (h : bytes.length = statisticBytes) :
    ∃ tag count sum padding, bytes = tag :: count ++ sum ++ padding ∧ count.length = 8 ∧
      sum.length = 16 ∧ padding.length = 7 := by
  cases bytes with
  | nil => cases h
  | cons tag rest =>
    have hrest : rest.length = 31 := Nat.succ.inj h
    refine ⟨tag, rest.take 8, (rest.drop 8).take 16, rest.drop 24, ?_, ?_, ?_, ?_⟩
    · have hdrop : rest.drop 24 = (rest.drop 8).drop 16 := by rw [List.drop_drop]
      rw [hdrop, List.cons_append, List.cons_append, List.append_assoc, List.take_append_drop,
        List.take_append_drop]
    · simp [hrest]
    · simp [hrest]
    · simp [hrest]

theorem any_ne_zero {bytes : Bytes} :
    (bytes.any (· ≠ 0)) = false ↔ bytes = List.replicate bytes.length 0 := by
  rw [List.eq_replicate_iff, List.any_eq_false]
  simp

theorem toBE_ofNat_u64 {bytes : Bytes} (h : bytes.length = 8) :
    toBE 8 (UInt64.ofNat (fromBE bytes)).toNat = bytes := by
  have hlt : fromBE bytes < 2 ^ 64 := by
    have := fromBE_lt bytes
    rwa [h] at this
  rw [UInt64.toNat_ofNat', Nat.mod_eq_of_lt hlt, toBE_fromBE h]

theorem toBE_ofNat_u128 {bytes : Bytes} (h : bytes.length = 16) :
    toBE 16 (BitVec.ofNat 128 (fromBE bytes)).toNat = bytes := by
  have hlt : fromBE bytes < 2 ^ 128 := by
    have := fromBE_lt bytes
    rwa [h] at this
  rw [BitVec.toNat_ofNat, Nat.mod_eq_of_lt hlt, toBE_fromBE h]

theorem statisticOf_encodeStatistic (s : Statistic) (input : Bytes) :
    statisticOf (encodeStatistic s) input = .ok (s, input) := by
  obtain ⟨htag, hcount, hsum, hpadding⟩ := statistic_fields (statisticParts s).1
    (toBE 8 (statisticParts s).2.1.toNat) (statisticParts s).2.2 (List.replicate 7 0)
    (length_toBE 8 _) (length_statisticParts s)
  have hvalue : ∀ count : UInt64, UInt64.ofNat (fromBE (toBE 8 count.toNat)) = count := fun count => by
    rw [fromBE_toBE (show count.toNat < 256 ^ 8 from count.toNat_lt), UInt64.ofNat_toNat]
  have htotal : ∀ sum : BitVec 128, BitVec.ofNat 128 (fromBE (toBE 16 sum.toNat)) = sum :=
    fun sum => by
      rw [fromBE_toBE (show sum.toNat < 256 ^ 16 from sum.isLt), BitVec.ofNat_toNat,
        BitVec.setWidth_eq]
  unfold statisticOf encodeStatistic
  simp only [htag, hcount, hsum, hpadding, hvalue]
  rw [if_neg (by decide)]
  cases s with
  | count count => rfl
  | signed count sum =>
    simp only [statisticParts, htotal]
    rfl
  | unsigned count sum =>
    simp only [statisticParts, htotal]
    rfl

/-- Only the bytes of a statistic give one. -/
theorem eq_of_statisticOf {bytes input rest : Bytes} {s : Statistic}
    (hlength : bytes.length = statisticBytes) (h : statisticOf bytes input = .ok (s, rest)) :
    bytes = encodeStatistic s ∧ rest = input := by
  obtain ⟨tag, count, sum, padding, rfl, hcount, hsum, hpadding⟩ := exists_statistic_fields hlength
  obtain ⟨ftag, fcount, fsum, fpadding⟩ := statistic_fields tag count sum padding hcount hsum
  unfold statisticOf at h
  simp only [ftag, fcount, fsum, fpadding] at h
  split at h
  · cases h
  · next hzero =>
    have hzero := any_ne_zero.mp (Bool.not_eq_true _ ▸ hzero)
    rw [hpadding] at hzero
    have hbytes := toBE_ofNat_u64 hcount
    split at h
    · next htag =>
      cases h
      refine ⟨?_, rfl⟩
      simp only [encodeStatistic, statisticParts, hbytes, hzero, htag]
    · split at h
      · next htag =>
        cases h
        refine ⟨?_, rfl⟩
        simp only [encodeStatistic, statisticParts, hbytes, hzero, htag, toBE_ofNat_u128 hsum]
      · split at h
        · next htag =>
          cases h
          refine ⟨?_, rfl⟩
          simp only [encodeStatistic, statisticParts, hbytes, hzero, htag, toBE_ofNat_u128 hsum]
        · cases h

theorem exact_statistic : Exact decodeStatistic fun s w => w = encodeStatistic s := by
  intro input s rest
  unfold decodeStatistic
  rw [Reader.bind_eq_ok]
  constructor
  · rintro ⟨bytes, mid, htake, h⟩
    obtain ⟨w, ⟨rfl, hlength⟩, rfl⟩ := (exact_takeElse _ _ _ _ _).mp htake
    obtain ⟨rfl, rfl⟩ := eq_of_statisticOf hlength h
    exact ⟨_, rfl, rfl⟩
  · rintro ⟨w, rfl, rfl⟩
    exact ⟨encodeStatistic s, rest,
      (exact_takeElse _ _ _ _ _).mpr ⟨_, ⟨rfl, length_encodeStatistic s⟩, rfl⟩,
      statisticOf_encodeStatistic s rest⟩

theorem exact_statistics (left : Nat) :
    Exact (decodeStatistics left) fun l w => l.length = left ∧ w = l.flatMap encodeStatistic := by
  induction left with
  | zero =>
    refine (exact_pure []).congr fun l w => ?_
    constructor
    · rintro ⟨rfl, rfl⟩
      exact ⟨rfl, rfl⟩
    · rintro ⟨hlength, rfl⟩
      rw [List.length_eq_zero_iff] at hlength
      rw [hlength]
      exact ⟨rfl, rfl⟩
  | succ left ih =>
    refine (exact_statistic.bind fun s => ih.bind fun l => exact_pure (s :: l)).congr
      fun l w => ?_
    constructor
    · rintro ⟨s, w₁, w₂, rfl, ⟨tail, w₃, w₄, ⟨hlength, rfl⟩, ⟨rfl, rfl⟩, rfl⟩, rfl⟩
      exact ⟨by rw [List.length_cons, hlength], by rw [List.append_nil, List.flatMap_cons]⟩
    · rintro ⟨hlength, rfl⟩
      cases l with
      | nil => cases hlength
      | cons s tail =>
        exact ⟨s, _, _, rfl, ⟨tail, _, [], ⟨Nat.succ.inj hlength, rfl⟩, ⟨rfl, rfl⟩, rfl⟩,
          by rw [List.append_nil, List.flatMap_cons]⟩

/-! ## Keys and what is kept for them -/

/-- A key that its length can stand in front of. -/
def KeyFits (key : Option Bytes) : Prop := ∀ bytes, key = some bytes → bytes.length < maxU64

theorem length_encodeKey (key : Option Bytes) : (encodeKey key).length = keyBytes key := by
  cases key with
  | none => rfl
  | some bytes => simp [encodeKey, keyBytes]

theorem toNat_lt_maxU64_succ (n : UInt64) : n.toNat ≤ maxU64 := Nat.le_pred_of_lt n.toNat_lt

theorem sub_eq {a b : Nat} (h : b ≤ a) : sub a b = pure (a - b) := if_pos h

theorem mul_eq {a b : Nat} (h : a * b ≤ maxU64) : mul a b = pure (a * b) := if_pos h

/-- For an index in range the reserved space is computed without a panic. -/
theorem decodeKey_eq {extremeCount index : Nat} (hindex : index < extremeCount)
    (hcount : extremeCount < 2 ^ 32) :
    decodeKey extremeCount index = (do
      let length ← u64
      if length.toNat = maxU64 then pure none
      else
        let remaining ← get
        if remaining.length - (extremeCount - index - 1) * 8 < length.toNat then
          fail "aggregate extreme key exceeds its payload"
        else
          let key ← splitAt length.toNat
          pure (some key)) := by
  have hmul : (extremeCount - index - 1) * 8 ≤ maxU64 := by
    unfold maxU64
    omega
  unfold decodeKey
  simp only [sub_eq (show index ≤ extremeCount by omega),
    sub_eq (show 1 ≤ extremeCount - index by omega), mul_eq hmul, pure_bind]

/-- A key is read when its bytes are there and, unless it is empty, the lengths of those to come
fit behind it. -/
theorem decodeKey_eq_ok {extremeCount index : Nat} (hindex : index < extremeCount)
    (hcount : extremeCount < 2 ^ 32) {input rest : Bytes} {key : Option Bytes} :
    decodeKey extremeCount index input = .ok (key, rest) ↔
      KeyFits key ∧ input = encodeKey key ++ rest ∧
        (key.getD [] ≠ [] → (extremeCount - index - 1) * 8 ≤ rest.length) := by
  rw [decodeKey_eq hindex hcount, Reader.bind_eq_ok]
  constructor
  · rintro ⟨length, mid, hlength, h⟩
    obtain ⟨w, rfl, rfl⟩ := (exact_u64 _ _ _).mp hlength
    split at h
    · next hnone =>
      cases h
      refine ⟨(fun bytes hb => nomatch hb), ?_, fun hb => absurd rfl hb⟩
      rw [encodeKey, hnone]
    · next hsome =>
      rw [Reader.bind_eq_ok] at h
      obtain ⟨remaining, mid', hget, h⟩ := h
      cases hget
      split at h
      · cases h
      · next hroom =>
        rw [Reader.bind_eq_ok] at h
        obtain ⟨bytes, rest', hsplit, h⟩ := h
        cases h
        obtain ⟨w, ⟨rfl, hbytes⟩, rfl⟩ := (exact_takeElse _ _ _ _ _).mp hsplit
        have hle := toNat_lt_maxU64_succ length
        rw [List.length_append] at hroom
        refine ⟨fun bytes hb => ?_, ?_, fun hne => ?_⟩
        · cases hb
          omega
        · rw [encodeKey, hbytes, List.append_assoc]
        · have hpos := List.length_pos_iff.mpr hne
          rw [Option.getD_some] at hpos
          omega
  · rintro ⟨hfits, rfl, hroom⟩
    cases key with
    | none =>
      refine ⟨UInt64.ofNat maxU64, rest, (exact_u64 _ _ _).mpr ⟨_, rfl, rfl⟩, ?_⟩
      rw [if_pos (by decide)]
      rfl
    | some bytes =>
      have hlt := hfits bytes rfl
      have hvalue : (UInt64.ofNat bytes.length).toNat = bytes.length := by
        rw [UInt64.toNat_ofNat', Nat.mod_eq_of_lt (Nat.lt_trans hlt (by decide))]
      have hroom : bytes ≠ [] → (extremeCount - index - 1) * 8 ≤ rest.length := hroom
      refine ⟨UInt64.ofNat bytes.length, bytes ++ rest,
        (exact_u64 _ _ _).mpr ⟨_, rfl, ?_⟩, ?_⟩
      · rw [hvalue, encodeKey, List.append_assoc]
      · rw [hvalue, if_neg hlt.ne, Reader.bind_eq_ok]
        refine ⟨bytes ++ rest, bytes ++ rest, rfl, ?_⟩
        have hfree : ¬ (bytes ++ rest).length - (extremeCount - index - 1) * 8 < bytes.length := by
          rw [List.length_append]
          by_cases hne : bytes = []
          · subst hne
            exact Nat.not_lt_zero _
          · have := hroom hne
            omega
        rw [if_neg hfree, Reader.bind_eq_ok]
        exact ⟨bytes, rest, (exact_takeElse _ _ _ _ _).mpr ⟨bytes, ⟨rfl, rfl⟩, rfl⟩, rfl⟩

theorem length_encodeKeys (keys : List (Option Bytes)) :
    keys.length * 8 ≤ (keys.flatMap encodeKey).length := by
  induction keys with
  | nil => exact Nat.le_refl 0
  | cons key keys ih =>
    rw [List.flatMap_cons, List.length_append, length_encodeKey, List.length_cons, keyBytes]
    omega

/-- The keys that are written keep the space the reader asks for. -/
theorem exact_keys {extremeCount : Nat} (hcount : extremeCount < 2 ^ 32) (left : Nat) :
    ∀ index, index + left = extremeCount →
      Exact (decodeKeys extremeCount index left) fun keys w =>
        keys.length = left ∧ (∀ key ∈ keys, KeyFits key) ∧ w = keys.flatMap encodeKey := by
  induction left with
  | zero =>
    intro index hindex
    refine (exact_pure []).congr fun keys w => ?_
    constructor
    · rintro ⟨rfl, rfl⟩
      exact ⟨rfl, fun key hkey => absurd hkey List.not_mem_nil, rfl⟩
    · rintro ⟨hlength, -, rfl⟩
      rw [List.length_eq_zero_iff] at hlength
      rw [hlength]
      exact ⟨rfl, rfl⟩
  | succ left ih =>
    intro index hindex input keys rest
    rw [decodeKeys, Reader.bind_eq_ok]
    constructor
    · rintro ⟨key, mid, hkey, h⟩
      obtain ⟨hfits, rfl, -⟩ := (decodeKey_eq_ok (by omega) hcount).mp hkey
      rw [Reader.bind_eq_ok] at h
      obtain ⟨tail, mid', htail, h⟩ := h
      cases h
      obtain ⟨w, ⟨hlength, hall, rfl⟩, rfl⟩ := (ih (index + 1) (by omega) _ _ _).mp htail
      exact ⟨_, ⟨by rw [List.length_cons, hlength], List.forall_mem_cons.mpr ⟨hfits, hall⟩, rfl⟩,
        by rw [List.flatMap_cons, List.append_assoc]⟩
    · rintro ⟨w, ⟨hlength, hall, rfl⟩, rfl⟩
      cases keys with
      | nil => cases hlength
      | cons key tail =>
        obtain ⟨hfits, hall⟩ := List.forall_mem_cons.mp hall
        have hlength := Nat.succ.inj hlength
        have hroom := length_encodeKeys tail
        refine ⟨key, tail.flatMap encodeKey ++ rest,
          (decodeKey_eq_ok (by omega) hcount).mpr ⟨hfits, ?_, fun _ => ?_⟩, ?_⟩
        · rw [List.flatMap_cons, List.append_assoc]
        · rw [List.length_append]
          omega
        · rw [Reader.bind_eq_ok]
          exact ⟨tail, rest, (ih (index + 1) (by omega) _ _ _).mpr ⟨_, ⟨hlength, hall, rfl⟩, rfl⟩,
            rfl⟩

/-! ## Declared numbers -/

/-- What is declared fits what remains. -/
theorem decodeCounts_eq_ok {input rest : Bytes} {counts : Nat × Nat} :
    decodeCounts input = .ok (counts, rest) ↔
      (counts.1 < 2 ^ 32 ∧ counts.2 < 2 ^ 32 ∧
        input = toBE 4 counts.1 ++ toBE 4 counts.2 ++ rest ∧
        counts.1 * statisticBytes + counts.2 * 8 ≤ rest.length) := by
  have hminimum : ∀ s e : Nat, s < 2 ^ 32 → e < 2 ^ 32 →
      ((checkedMul s statisticBytes).bind fun bytes =>
        (checkedMul e 8).bind fun keys => checkedAdd bytes keys) =
        some (s * statisticBytes + e * 8) := by
    intro s e hs he
    unfold checkedMul checkedAdd statisticBytes
    rw [if_pos (by unfold maxU64; omega), Option.bind_some, if_pos (by unfold maxU64; omega),
      Option.bind_some, if_pos (by unfold maxU64; omega)]
  unfold decodeCounts
  rw [Reader.bind_eq_ok]
  constructor
  · rintro ⟨s, mid, hread, h⟩
    obtain ⟨w₁, ⟨hs, rfl⟩, rfl⟩ := (exact_u32 _ _ _).mp hread
    rw [Reader.bind_eq_ok] at h
    obtain ⟨e, mid', hread', h⟩ := h
    obtain ⟨w₂, ⟨he, rfl⟩, rfl⟩ := (exact_u32 _ _ _).mp hread'
    simp only [hminimum s e hs he] at h
    rw [Reader.bind_eq_ok] at h
    obtain ⟨remaining, mid, hget, h⟩ := h
    cases hget
    rw [if_neg (by simp), Option.getD_some] at h
    split at h
    · cases h
    · next hroom =>
      cases h
      exact ⟨hs, he, (List.append_assoc _ _ _).symm, not_lt.mp hroom⟩
  · obtain ⟨s, e⟩ := counts
    rintro ⟨hs, he, rfl, hroom⟩
    refine ⟨s, toBE 4 e ++ rest, (exact_u32 _ _ _).mpr ⟨_, ⟨hs, rfl⟩, List.append_assoc _ _ _⟩, ?_⟩
    rw [Reader.bind_eq_ok]
    refine ⟨e, rest, (exact_u32 _ _ _).mpr ⟨_, ⟨he, rfl⟩, rfl⟩, ?_⟩
    simp only [hminimum s e hs he]
    rw [Reader.bind_eq_ok]
    refine ⟨rest, rest, rfl, ?_⟩
    rw [if_neg (by simp), Option.getD_some, if_neg (not_lt.mpr hroom)]
    rfl

end Dogpaddle.Aggregate
