import Dogpaddle.Aggregate.State
import Mathlib.Algebra.Order.BigOperators.Group.List
import Mathlib.Algebra.Order.Group.Nat

/-!
# The group state codec

Encoder and decoder are inverse to each other (`encodeValue_eq_ok`, `decodeValue_eq_ok` name
the same bytes), the decoder never panics, and the encoding is one byte longer than
`GroupState.logicalBytes`.
-/

namespace Dogpaddle.Aggregate

open Lib Reader

/-! ## The bytes of a state -/

def GroupState.body (s : GroupState) : Bytes :=
  [groupStateVersion] ++ (toBE 8 s.id.toNat ++ (toBE 8 s.weight.toNat
    ++ (toBE 4 s.statistics.length ++ toBE 4 s.extremes.length
      ++ (s.statistics.flatMap encodeStatistic ++ s.extremes.flatMap encodeKey))))

/-- What both halves of the codec ask of a state. -/
structure GroupState.Valid (s : GroupState) : Prop where
  weight : s.weight ≠ 0
  statistics : s.statistics.length < 2 ^ 32
  extremes : s.extremes.length < 2 ^ 32
  keys : ∀ key ∈ s.extremes, KeyFits key

/-- The largest length of a vector. -/
def maxVecLength : Nat := 2 ^ 63 - 1

/-- A state in memory: its statistics and its keys take more room than their encodings, and
all of them together no more than the address space has. -/
def GroupState.Resident (s : GroupState) : Prop :=
  25 + s.statistics.length * statisticBytes + (s.extremes.map keyBytes).sum ≤ maxVecLength

theorem length_encodeStatistics (statistics : List Statistic) :
    (statistics.flatMap encodeStatistic).length = statistics.length * statisticBytes := by
  induction statistics with
  | nil => rfl
  | cons s statistics ih =>
    rw [List.flatMap_cons, List.length_append, length_encodeStatistic, List.length_cons, ih,
      Nat.succ_mul, Nat.add_comm]

theorem length_keys (keys : List (Option Bytes)) :
    (keys.flatMap encodeKey).length = (keys.map keyBytes).sum := by
  induction keys with
  | nil => rfl
  | cons key keys ih =>
    rw [List.flatMap_cons, List.length_append, length_encodeKey, List.map_cons, List.sum_cons, ih]

theorem GroupState.length_body (s : GroupState) :
    s.body.length =
      25 + s.statistics.length * statisticBytes + (s.extremes.map keyBytes).sum := by
  simp only [GroupState.body, List.length_append, length_toBE, length_encodeStatistics,
    length_keys, List.length_singleton]
  omega

theorem keyBytes_le_sum {keys : List (Option Bytes)} {key : Option Bytes} (h : key ∈ keys) :
    keyBytes key ≤ (keys.map keyBytes).sum :=
  List.le_sum_of_mem (List.mem_map_of_mem h)

/-- No key in memory is as long as the marker of an absent one says. -/
theorem GroupState.Resident.keys {s : GroupState} (h : s.Resident) :
    ∀ key ∈ s.extremes, KeyFits key := by
  rintro key hkey bytes rfl
  have hle := keyBytes_le_sum hkey
  unfold GroupState.Resident maxVecLength at h
  have hbytes : keyBytes (some bytes) = 8 + bytes.length := rfl
  have hmax : maxU64 = 2 ^ 64 - 1 := rfl
  omega

theorem GroupState.Resident.logicalBytes {s : GroupState} (h : s.Resident) :
    s.body.length = s.logicalBytes + 1 := by
  have hlength := s.length_body
  unfold GroupState.Resident maxVecLength at h
  unfold GroupState.logicalBytes saturatingAdd saturatingMul
  have hmax : maxU64 = 2 ^ 64 - 1 := rfl
  omega

/-! ## Encoding and decoding -/

theorem encodeValue_of_valid {s : GroupState} (h : s.Valid) : s.encodeValue = .ok s.body := by
  have hkeys : (s.extremes.any fun key => key.any fun bytes => decide (maxU64 < bytes.length)) =
      false := by
    rw [List.any_eq_false]
    intro key hkey hany
    cases key with
    | none => cases hany
    | some bytes =>
      have hlong : maxU64 < bytes.length := of_decide_eq_true hany
      exact absurd (h.keys _ hkey bytes rfl) (not_lt.mpr hlong.le)
  unfold GroupState.encodeValue
  rw [if_neg h.weight, if_neg (not_le.mpr h.statistics), if_neg (not_le.mpr h.extremes), hkeys]
  simp only [Bool.false_eq_true, if_false, GroupState.body, List.append_assoc,
    List.cons_append, List.nil_append]

theorem decodeGroupState_body {s : GroupState} (h : s.Valid) :
    decodeGroupState s.body = .ok (s, []) := by
  unfold decodeGroupState GroupState.body
  rw [Reader.bind_eq_ok]
  refine ⟨[groupStateVersion], _, (exact_takeElse _ 1 _ _ _).mpr ⟨_, ⟨rfl, rfl⟩, rfl⟩, ?_⟩
  rw [if_neg (not_not.mpr rfl), Reader.bind_eq_ok]
  refine ⟨s.id, _, (exact_u64 _ _ _).mpr ⟨_, rfl, rfl⟩, ?_⟩
  rw [Reader.bind_eq_ok]
  refine ⟨s.weight, _, (exact_u64 _ _ _).mpr ⟨_, rfl, rfl⟩, ?_⟩
  rw [if_neg h.weight, Reader.bind_eq_ok]
  have hroom := length_encodeKeys s.extremes
  refine ⟨(s.statistics.length, s.extremes.length), _,
    decodeCounts_eq_ok.mpr ⟨h.statistics, h.extremes, rfl, ?_⟩, ?_⟩
  · show s.statistics.length * statisticBytes + s.extremes.length * 8 ≤ _
    rw [List.length_append, length_encodeStatistics]
    omega
  · rw [Reader.bind_eq_ok]
    refine ⟨s.statistics, s.extremes.flatMap encodeKey,
      (exact_statistics _ _ _ _).mpr ⟨_, ⟨rfl, rfl⟩, rfl⟩, ?_⟩
    rw [Reader.bind_eq_ok]
    refine ⟨s.extremes, [], (exact_keys h.extremes _ 0 (Nat.zero_add _) _ _ _).mpr
      ⟨_, ⟨rfl, h.keys, rfl⟩, (List.append_nil _).symm⟩, ?_⟩
    rw [Reader.bind_eq_ok]
    exact ⟨[], [], rfl, rfl⟩

theorem of_decodeGroupState {input rest : Bytes} {s : GroupState}
    (h : decodeGroupState input = .ok (s, rest)) : s.Valid ∧ input = s.body := by
  unfold decodeGroupState at h
  rw [Reader.bind_eq_ok] at h
  obtain ⟨version, mid, htake, h⟩ := h
  obtain ⟨w, ⟨rfl, -⟩, rfl⟩ := (exact_takeElse _ _ _ _ _).mp htake
  split at h
  · cases h
  · next hversion =>
    rw [Reader.bind_eq_ok] at h
    obtain ⟨id, mid, hid, h⟩ := h
    obtain ⟨w₁, rfl, rfl⟩ := (exact_u64 _ _ _).mp hid
    rw [Reader.bind_eq_ok] at h
    obtain ⟨weight, mid, hweight, h⟩ := h
    obtain ⟨w₂, rfl, rfl⟩ := (exact_u64 _ _ _).mp hweight
    split at h
    · cases h
    · next hnonzero =>
      rw [Reader.bind_eq_ok] at h
      obtain ⟨counts, mid, hcounts, h⟩ := h
      obtain ⟨hs, he, rfl, -⟩ := decodeCounts_eq_ok.mp hcounts
      rw [Reader.bind_eq_ok] at h
      obtain ⟨statistics, mid, hstatistics, h⟩ := h
      obtain ⟨w₃, ⟨hslength, rfl⟩, rfl⟩ := (exact_statistics _ _ _ _).mp hstatistics
      rw [Reader.bind_eq_ok] at h
      obtain ⟨keys, mid, hkeys, h⟩ := h
      obtain ⟨w₄, ⟨hklength, hfits, rfl⟩, rfl⟩ :=
        (exact_keys he _ 0 (Nat.zero_add _) _ _ _).mp hkeys
      rw [Reader.bind_eq_ok] at h
      obtain ⟨remaining, mid, hget, h⟩ := h
      cases hget
      split at h
      · cases h
      · next hend =>
        cases h
        refine ⟨⟨hnonzero, by rw [hslength]; exact hs, by rw [hklength]; exact he, hfits⟩, ?_⟩
        rw [not_not.mp hend, not_not.mp hversion]
        simp only [GroupState.body, hslength, hklength, List.append_nil]

theorem decodeValue_eq_ok {bytes : Bytes} {s : GroupState} :
    GroupState.decodeValue bytes = .ok s ↔ s.Valid ∧ bytes = s.body := by
  unfold GroupState.decodeValue
  constructor
  · intro h
    cases hrun : decodeGroupState bytes with
    | error e =>
      rw [hrun] at h
      cases h
    | ok out =>
      obtain ⟨t, rest⟩ := out
      rw [hrun] at h
      cases h
      exact of_decodeGroupState hrun
  · rintro ⟨hvalid, rfl⟩
    rw [decodeGroupState_body hvalid]
    rfl

/-! ## No panic -/

def NoPanic {α : Type} (r : Decoder α) : Prop := ∀ input message, r input ≠ .error (.panic message)

section NoPanic

variable {α β : Type}

theorem NoPanic.pure (a : α) : NoPanic (Pure.pure a : Decoder α) := fun _ _ h => nomatch h

theorem NoPanic.fail (message : String) : NoPanic (fail message : Decoder α) := by
  intro input reason h
  cases h

theorem NoPanic.get : NoPanic (MonadState.get : Decoder Bytes) := fun _ _ h => nomatch h

theorem NoPanic.take (length : Nat) : NoPanic (take length) := by
  intro input message h
  unfold Aggregate.take takeElse at h
  split at h
  · cases h
  · cases h

/-- What follows may rely on what was read. -/
theorem NoPanic.bind {r : Decoder α} {f : α → Decoder β} (hr : NoPanic r)
    (hf : ∀ input a rest, r input = .ok (a, rest) → NoPanic (f a)) : NoPanic (r >>= f) := by
  intro input message h
  rw [bind_run] at h
  cases hrun : r input with
  | error e =>
    rw [hrun] at h
    cases h
    exact hr _ _ hrun
  | ok out =>
    rw [hrun] at h
    exact hf _ _ _ hrun _ _ h

theorem NoPanic.ite {c : Prop} [Decidable c] {r r' : Decoder α} (h : c → NoPanic r)
    (h' : ¬ c → NoPanic r') : NoPanic (if c then r else r') := by
  split
  · next hc => exact h hc
  · next hc => exact h' hc

end NoPanic

theorem noPanic_u64 : NoPanic u64 := (NoPanic.take 8).bind fun _ _ _ _ => NoPanic.pure _

theorem noPanic_u32 : NoPanic u32 := (NoPanic.take 4).bind fun _ _ _ _ => NoPanic.pure _

theorem noPanic_statistics (left : Nat) : NoPanic (decodeStatistics left) := by
  induction left with
  | zero => exact NoPanic.pure _
  | succ left ih =>
    refine NoPanic.bind ?_ fun _ _ _ _ => ih.bind fun _ _ _ _ => NoPanic.pure _
    refine (NoPanic.take _).bind fun _ _ _ _ => ?_
    refine NoPanic.ite (fun _ => NoPanic.fail _) fun _ => ?_
    refine NoPanic.ite (fun _ => NoPanic.pure _) fun _ => ?_
    refine NoPanic.ite (fun _ => NoPanic.pure _) fun _ => ?_
    exact NoPanic.ite (fun _ => NoPanic.pure _) fun _ => NoPanic.fail _

/-- The length was compared with what remains before the split. -/
theorem noPanic_key {extremeCount index : Nat} (hindex : index < extremeCount)
    (hcount : extremeCount < 2 ^ 32) : NoPanic (decodeKey extremeCount index) := by
  rw [decodeKey_eq hindex hcount]
  refine noPanic_u64.bind fun _ length _ _ => NoPanic.ite (fun _ => NoPanic.pure _) fun _ => ?_
  intro input message h
  rw [bind_run] at h
  change (if input.length - (extremeCount - index - 1) * 8 < length.toNat then
      fail "aggregate extreme key exceeds its payload"
    else do
      let key ← splitAt length.toNat
      Pure.pure (some key) : Decoder (Option Bytes)) input = .error (.panic message) at h
  split at h
  · cases h
  · next hroom =>
    have hle : length.toNat ≤ input.length := by omega
    have hsplit : splitAt length.toNat input =
        .ok (input.take length.toNat, input.drop length.toNat) := if_pos hle
    rw [bind_run, hsplit] at h
    cases h

theorem noPanic_keys {extremeCount : Nat} (hcount : extremeCount < 2 ^ 32) (left : Nat) :
    ∀ index, index + left = extremeCount → NoPanic (decodeKeys extremeCount index left) := by
  induction left with
  | zero =>
    intro index _
    exact NoPanic.pure _
  | succ left ih =>
    intro index hindex
    refine (noPanic_key (by omega) hcount).bind fun _ _ _ _ => ?_
    exact (ih (index + 1) (by omega)).bind fun _ _ _ _ => NoPanic.pure _

theorem noPanic_counts : NoPanic decodeCounts := by
  refine noPanic_u32.bind fun _ _ _ _ => noPanic_u32.bind fun _ _ _ _ => ?_
  refine NoPanic.get.bind fun _ _ _ _ => ?_
  refine NoPanic.ite (fun _ => NoPanic.fail _) fun _ => ?_
  exact NoPanic.ite (fun _ => NoPanic.fail _) fun _ => NoPanic.pure _

theorem noPanic_groupState : NoPanic decodeGroupState := by
  refine (NoPanic.take 1).bind fun _ _ _ _ => NoPanic.ite (fun _ => NoPanic.fail _) fun _ => ?_
  refine noPanic_u64.bind fun _ _ _ _ => noPanic_u64.bind fun _ _ _ _ => ?_
  refine NoPanic.ite (fun _ => NoPanic.fail _) fun _ => ?_
  refine noPanic_counts.bind fun _ counts _ hcounts => ?_
  refine (noPanic_statistics _).bind fun _ _ _ _ => ?_
  have he : counts.2 < 2 ^ 32 := (decodeCounts_eq_ok.mp hcounts).2.1
  refine (noPanic_keys he _ 0 (Nat.zero_add _)).bind fun _ _ _ _ => ?_
  refine NoPanic.get.bind fun _ _ _ _ => ?_
  exact NoPanic.ite (fun _ => NoPanic.fail _) fun _ => NoPanic.pure _

theorem decodeValue_ne_panic (bytes : Bytes) (message : String) :
    GroupState.decodeValue bytes ≠ .error (.panic message) := by
  unfold GroupState.decodeValue
  intro h
  cases hrun : decodeGroupState bytes with
  | error e =>
    rw [hrun] at h
    cases h
    exact noPanic_groupState _ _ hrun
  | ok out =>
    rw [hrun] at h
    cases h

/-! ## The codec -/

/-- A state of positive weight with fewer than `2 ^ 32` statistics and keys is encoded in one
byte more than its logical size and decoded back; only encodings are decoded; no byte string
makes the decoder panic, and none declares more than its rest can hold. -/
theorem groupState_codec :
    (∀ s : GroupState, s.weight ≠ 0 → s.statistics.length < 2 ^ 32 → s.extremes.length < 2 ^ 32 →
      s.Resident → ∃ bytes, s.encodeValue = .ok bytes ∧
        GroupState.decodeValue bytes = .ok s ∧ bytes.length = s.logicalBytes + 1) ∧
    (∀ bytes s, GroupState.decodeValue bytes = .ok s → s.encodeValue = .ok bytes) ∧
    (∀ bytes message, GroupState.decodeValue bytes ≠ .error (.panic message)) ∧
    (∀ input counts rest, decodeCounts input = .ok (counts, rest) →
      counts.1 * statisticBytes + counts.2 * 8 ≤ rest.length) := by
  refine ⟨?_, ?_, decodeValue_ne_panic, ?_⟩
  · intro s hweight hstatistics hextremes hresident
    have hvalid : s.Valid := ⟨hweight, hstatistics, hextremes, hresident.keys⟩
    exact ⟨s.body, encodeValue_of_valid hvalid, decodeValue_eq_ok.mpr ⟨hvalid, rfl⟩,
      hresident.logicalBytes⟩
  · intro bytes s h
    obtain ⟨hvalid, rfl⟩ := decodeValue_eq_ok.mp h
    exact encodeValue_of_valid hvalid
  · intro input counts rest h
    exact (decodeCounts_eq_ok.mp h).2.2.2

/-- An empty key, an absent one and a key of two bytes. -/
def threeKeys : GroupState :=
  ⟨7, 3, [.count 2, .signed 1 (-2)], [some [], none, some [0x80, 0x2a]]⟩

theorem groupState_codec_threeKeys :
    ∃ bytes, threeKeys.encodeValue = .ok bytes ∧ GroupState.decodeValue bytes = .ok threeKeys ∧
      bytes.length = threeKeys.logicalBytes + 1 :=
  groupState_codec.1 threeKeys (by decide) (by decide) (by decide)
    (by unfold GroupState.Resident; decide)

/-- A state with so many absent keys. -/
def absentKeys (count : Nat) : GroupState := ⟨1, 1, [], List.replicate count none⟩

theorem length_absentKeys (count : Nat) : (absentKeys count).extremes.length = count :=
  List.length_replicate

theorem encodeValue_absentKeys {count : Nat} (h : 2 ^ 32 ≤ count) :
    (absentKeys count).encodeValue = .error "aggregate group has too many cached extrema" := by
  unfold GroupState.encodeValue
  rw [length_absentKeys, if_pos h]
  rfl

theorem resident_absentKeys {count : Nat} (h : count ≤ 2 ^ 33) : (absentKeys count).Resident := by
  have hsum : ((absentKeys count).extremes.map keyBytes).sum = count * 8 := by
    unfold absentKeys
    rw [List.map_replicate, List.sum_replicate_nat]
    rfl
  unfold GroupState.Resident maxVecLength
  rw [hsum]
  show 25 + 0 * statisticBytes + count * 8 ≤ _
  omega

/-- A state with `2 ^ 32` absent keys is refused. -/
theorem groupState_many_keys :
    ¬ ∀ s : GroupState, s.weight ≠ 0 → s.statistics.length < 2 ^ 32 → s.Resident →
      ∃ bytes, s.encodeValue = .ok bytes ∧ GroupState.decodeValue bytes = .ok s := by
  intro h
  obtain ⟨bytes, hencode, -⟩ := h (absentKeys (2 ^ 32)) (by unfold absentKeys; simp)
    (by unfold absentKeys; simp) (resident_absentKeys (by omega))
  rw [encodeValue_absentKeys (Nat.le_refl _)] at hencode
  cases hencode

end Dogpaddle.Aggregate
