import Dogpaddle.Store.Pages

/-!
# Partitions see their own entries

A partition key is the framed partition followed by the local key. The framing

* is read back from its images only (`splitFrame_eq_ok`), so that the codec of a pair is as
  strict as those of its parts (`partitionKeyCodec_strict`);
* keeps the order of tuples (`frame_append_lt`);
* makes the keys of a partition one run of the namespace: an iterator positioned at it meets
  them first (`seek_partition`), which is why looking at one or two raw keys is enough.
-/

namespace Dogpaddle.Store

open Lib

/-! ## The codec of a partition key -/

/-- A codec that reads only what it writes. -/
def Codec.Strict {α : Type} (codec : Codec α) : Prop :=
  ∀ bytes a, codec.decode bytes = .ok a → codec.encode a = .ok bytes

theorem splitFrame_cons {byte : UInt8} (h : byte ≠ 0) (rest : Bytes) :
    splitFrame (byte :: rest) =
      (splitFrame rest).map fun parts => (byte :: parts.1, parts.2) := by
  rw [splitFrame]
  · exact fun hzero _ => h hzero
  · exact fun _ hzero _ => h hzero
  · exact fun _ hzero _ => h hzero
  · exact fun _ _ hzero _ => h hzero

theorem splitFrame_frame (partition rest : Bytes) :
    splitFrame (frame partition ++ rest) = .ok (partition, rest) := by
  induction partition with
  | nil => rfl
  | cons byte partition ih =>
    rw [frame_cons]
    by_cases hzero : byte = 0
    · subst hzero
      show (splitFrame (frame partition ++ rest)).map _ = _
      rw [ih]
      rfl
    · rw [if_neg hzero, List.cons_append, splitFrame_cons hzero, ih]
      rfl

/-- A split is exactly of a framed partition and what follows it. -/
theorem splitFrame_eq_ok {bytes partition rest : Bytes} :
    splitFrame bytes = .ok (partition, rest) ↔ bytes = frame partition ++ rest := by
  constructor
  · intro h
    induction bytes using splitFrame.induct generalizing partition rest with
    | case1 => cases h
    | case2 => cases h
    | case3 tail =>
      obtain ⟨rfl, rfl⟩ := Prod.mk.inj (Except.ok.inj h)
      rfl
    | case4 tail ih =>
      obtain ⟨parts, hparts, heq⟩ := map_eq_ok.mp h
      obtain ⟨rfl, rfl⟩ := Prod.mk.inj heq
      rw [ih hparts]
      rfl
    | case5 marker tail hzero hescape =>
      rw [splitFrame] at h
      · cases h
      · exact hzero
      · exact hescape
    | case6 byte tail hlast _ _ hmore ih =>
      have hbyte : byte ≠ 0 := by
        intro hzero
        cases tail with
        | nil => exact hlast hzero rfl
        | cons marker tail => exact hmore marker tail hzero rfl
      rw [splitFrame_cons hbyte] at h
      obtain ⟨parts, hparts, heq⟩ := map_eq_ok.mp h
      obtain ⟨rfl, rfl⟩ := Prod.mk.inj heq
      rw [ih hparts, frame_cons, if_neg hbyte]
      rfl
  · rintro rfl
    exact splitFrame_frame partition rest

section Codec

variable {P K : Type} {partition : Codec P} {key : Codec K} {encPartition : P → Bytes}
  {enc : K → Bytes}

/-- The codec of a pair reads back what it writes. -/
theorem partitionKeyCodec_roundTrips (hpartition : partition.RoundTrips encPartition)
    (hkey : key.RoundTrips enc) :
    (partitionKeyCodec partition key).RoundTrips
      fun k => frame (encPartition k.1) ++ enc k.2 := by
  refine ⟨fun k => ?_, fun k => ?_⟩
  · show (partitionPrefix partition k.1 >>= _) = _
    rw [partitionPrefix, hpartition.encode]
    show (key.encode k.2 >>= _) = _
    rw [hkey.encode]
    rfl
  · show (splitFrame (frame (encPartition k.1) ++ enc k.2) >>= _) = _
    rw [splitFrame_frame]
    show (partition.decode (encPartition k.1) >>= _) = _
    rw [hpartition.decode]
    show (key.decode (enc k.2) >>= _) = _
    rw [hkey.decode]
    rfl

/-- A pair is read from its own bytes only, when its parts are. -/
theorem partitionKeyCodec_strict (hpartition : partition.Strict) (hkey : key.Strict) :
    (partitionKeyCodec partition key).Strict := by
  rintro bytes ⟨p, k⟩ h
  obtain ⟨⟨encoded, suffix⟩, hsplit, h⟩ := except_bind_eq_ok.mp h
  obtain ⟨p', hp, h⟩ := except_bind_eq_ok.mp h
  obtain ⟨k', hk, h⟩ := except_bind_eq_ok.mp h
  obtain ⟨rfl, rfl⟩ := Prod.mk.inj (Except.ok.inj h)
  rw [splitFrame_eq_ok.mp hsplit]
  show (partitionPrefix partition p' >>= _) = _
  rw [partitionPrefix, hpartition _ _ hp]
  show (key.encode k' >>= _) = _
  rw [hkey _ _ hk]
  rfl

end Codec

/-! ## The raw keys of a partition -/

section Seek

variable {K V : Type} [LinearOrder K] {key : Codec K} {enc : K → Bytes} {encValue : V → Bytes}
  {data start : Bytes} {m : OrdMap K V} {db : Database}

/-- A property that the earlier entries have when the later ones do holds of a first run. -/
theorem filter_append_filter_not {α : Type} {p : α → Bool} {l : List α}
    (h : l.Pairwise fun a b => p b = true → p a = true) :
    l.filter p ++ l.filter (fun a => !p a) = l := by
  induction l with
  | nil => rfl
  | cons a l ih =>
    obtain ⟨hhead, htail⟩ := List.pairwise_cons.mp h
    cases hp : p a with
    | true => simp [hp, ih htail]
    | false =>
      -- nothing after the first entry without the property has it
      have hnone : l.filter p = [] := by
        refine List.filter_eq_nil_iff.mpr fun b hb hpb => ?_
        rw [hhead b hb hpb] at hp
        cases hp
      have hrest := ih htail
      rw [hnone, List.nil_append] at hrest
      simp [hp, hnone, hrest]

/-- An iterator at the start of a partition meets its entries first, and none later. -/
theorem seek_partition (hdata : (prefixSuccessor data).isSome = true)
    (hstart : (prefixSuccessor (physicalKey data start)).isSome = true) (hkey : key.Ordered enc)
    (hrep : Represents data start enc encValue m db) :
    ∃ rest, seek db [] (namespaceEnd data) (physicalKey data start) =
        m.entries.map (physicalEntry data start enc encValue) ++ rest ∧
      ∀ e ∈ rest, strip (physicalKey data start) e.1 = none := by
  set target := physicalKey data start with htarget
  set iterator := seek db [] (namespaceEnd data) target with hiterator
  have hsorted : iterator.Pairwise fun a b => a.1 < b.1 := db.sorted.filter _
  have hmem : ∀ e, e ∈ iterator ↔ e ∈ db.entries ∧ e.1 < namespaceEnd data ∧ target ≤ e.1 := by
    intro e
    have hnil : ([] : Bytes) ≤ e.1 := le_append [] e.1
    simp [hiterator, seek, hnil]
  have hruns : iterator.Pairwise fun a b =>
      (strip target b.1).isSome = true → (strip target a.1).isSome = true := by
    refine hsorted.imp_of_mem fun {a b} ha _ hlt hb => ?_
    obtain ⟨rest, hrest⟩ := Option.isSome_iff_exists.mp hb
    rw [strip_eq_some] at hrest
    have hle : a.1 ≤ target ++ rest := hrest ▸ le_of_lt hlt
    obtain ⟨rest', hrest'⟩ := prefix_of_between hstart ((hmem a).mp ha).2.2 hle
    rw [← hrest', strip_append]
    rfl
  refine ⟨iterator.filter fun e => !(strip target e.1).isSome, ?_, ?_⟩
  · refine (filter_append_filter_not hruns).symm.trans (congrArg (· ++ _) ?_)
    refine eq_of_pairwise_visits ((hsorted.filter _).imp visitsBefore_ascending.mpr) ?_
      fun e => ?_
    · refine List.pairwise_map.mpr (m.sorted.imp fun {a b} h => visitsBefore_ascending.mpr ?_)
      show physicalKey data (start ++ enc a.1) < physicalKey data (start ++ enc b.1)
      rw [physicalKey_lt, ← physicalKey, ← physicalKey, physicalKey_lt]
      exact (hkey.lt_iff _ _).mpr h
    · rw [List.mem_filter, hmem, List.mem_map]
      constructor
      · rintro ⟨⟨he, -⟩, hstrip⟩
        obtain ⟨rest, hrest⟩ := Option.isSome_iff_exists.mp hstrip
        rw [strip_eq_some, htarget, physicalKey, List.append_assoc] at hrest
        have hget := (OrdMap.mem_entries _ _ _).mp he
        rw [hrest] at hget
        obtain ⟨e', he', hk, hv⟩ := (hrep rest e.2).mp hget
        exact ⟨e', he', Prod.ext (by rw [hrest, ← hk]; rfl) hv⟩
      · rintro ⟨e', he', rfl⟩
        have hkey' : (physicalEntry data start enc encValue e').1 = target ++ enc e'.1 := by
          rw [htarget, physicalKey, List.append_assoc]
          rfl
        refine ⟨⟨(OrdMap.mem_entries _ _ _).mpr ((hrep _ _).mpr ⟨e', he', rfl, rfl⟩),
          lt_namespaceEnd hdata (List.prefix_append _ _), hkey' ▸ le_append _ _⟩, ?_⟩
        rw [hkey', strip_append]
        rfl
  · intro e he
    simpa using (List.mem_filter.mp he).2

/-- Whether a partition has no entry besides an excluded one, from its raw keys. -/
theorem namespaceIsEmpty_partition (hdata : (prefixSuccessor data).isSome = true)
    (hstart : (prefixSuccessor (physicalKey data start)).isSome = true) (hne : start ≠ [])
    (hkey : key.Ordered enc) (hrep : Represents data start enc encValue m db)
    (excluded : Option K) :
    namespaceIsEmpty db data start (excluded.map enc) =
      !m.entries.any fun e => decide (excluded ≠ some e.1) := by
  obtain ⟨rest, hseek, hrest⟩ := seek_partition hdata hstart hkey hrep
  have hfirst : ∀ l : List (K × V),
      ((l.map (physicalEntry data start enc encValue) ++ rest).head?.any fun e =>
        (physicalKey data start).isPrefixOf e.1) = !l.isEmpty := by
    intro l
    cases l with
    | nil =>
      cases rest with
      | nil => rfl
      | cons e rest =>
        have hnone := strip_eq_none.mp (hrest e List.mem_cons_self)
        rw [← List.isPrefixOf_iff_prefix, Bool.not_eq_true] at hnone
        exact hnone
    | cons e l =>
      show (physicalKey data start).isPrefixOf (physicalKey data (start ++ enc e.1)) = true
      rw [List.isPrefixOf_iff_prefix, physicalKey, physicalKey, ← List.append_assoc]
      exact List.prefix_append _ _
  have hstrip : ∀ e : K × V, strip (physicalKey data start)
      (physicalEntry data start enc encValue e).1 = some (enc e.1) := by
    intro e
    show strip (data ++ start) (data ++ (start ++ enc e.1)) = _
    rw [← List.append_assoc, strip_append]
  unfold namespaceIsEmpty
  rw [if_neg hne]
  dsimp only
  rw [hseek]
  congr 1
  cases excluded with
  | none =>
    show Option.any _ (_ ++ rest).head? = _
    rw [hfirst]
    cases m.entries with
    | nil => rfl
    | cons e l => simp
  | some k =>
    show Option.any _ (List.head? (if _ = some (enc k) then _ else _)) = _
    have hsorted := m.sorted
    cases hm : m.entries with
    | nil =>
      -- no entry of the partition: the iterator stands beyond it
      rw [if_neg]
      · exact hfirst []
      · cases rest with
        | nil => simp
        | cons e rest => simp [hrest e List.mem_cons_self]
    | cons e l =>
      rw [hm] at hsorted
      obtain ⟨hhead, -⟩ := List.pairwise_cons.mp hsorted
      have hcond : ((List.map (physicalEntry data start enc encValue) (e :: l) ++ rest).head?.bind
          fun e => strip (physicalKey data start) e.1) = some (enc k) ↔ e.1 = k := by
        show strip (physicalKey data start) (physicalEntry data start enc encValue e).1 = _ ↔ _
        rw [hstrip, Option.some.injEq]
        exact ⟨fun h => hkey.inj h, fun h => by rw [h]⟩
      by_cases hk : e.1 = k
      · rw [if_pos (hcond.mpr hk)]
        show Option.any _ (List.map (physicalEntry data start enc encValue) l ++ rest).head? = _
        rw [hfirst, List.any_cons]
        subst hk
        cases l with
        | nil => simp
        | cons e' l =>
          have hother : e.1 ≠ e'.1 := ne_of_lt (hhead e' List.mem_cons_self)
          simp [hother]
      · rw [if_neg fun h => hk (hcond.mp h), hfirst]
        have hother : k ≠ e.1 := fun h => hk h.symm
        simp [hother]

end Seek

/-! ## The views of one partition -/

section Views

variable {K V : Type} [LinearOrder K] {enc : K → Bytes} {encValue : V → Bytes}
  {tx : Transaction} {m : OrdMap K V}

/-- The entry at an end of a map, when its encoding fits the bound. -/
def boundedEntry (size : K × V → Nat) (entry : Option (K × V)) (maxBytes : Nat) :
    Except Failure (Option (K × V)) :=
  if maxBytes = 0 then .error .invalidScanLimit
  else match entry with
    | none => .ok none
    | some e => if maxBytes < size e then .error (.itemTooLarge (size e) maxBytes) else .ok (some e)

/-- How a calm transaction answers. -/
def answer {α : Type} (result : Except Failure α) (tx : Transaction) :
    EStateM.Result Failure Transaction α :=
  match result with
  | .ok a => .ok a tx
  | .error e => .error e tx

theorem prefixSuccessor_physicalKey (data partition : Bytes) :
    (prefixSuccessor (physicalKey data (frame partition))).isSome = true := by
  have hframe : physicalKey data (frame partition) = data ++ (escape partition ++ [0]) ++ [0] := by
    simp [physicalKey, frame]
  rw [hframe, prefixSuccessor_concat _ (by decide)]
  rfl

theorem frame_ne_nil (partition : Bytes) : frame partition ≠ [] := by
  simp [frame]

/-- One entry of a scan without a start is the first one it would visit. -/
theorem scan_one (size : K × V → Nat) (direction : ScanDirection) {maxBytes : Nat}
    (hpos : 0 < maxBytes) :
    ((scan m size none none direction none ⟨1, maxBytes, Nat.one_pos, hpos⟩).mapError
        StoreError.failure).map (fun page => page.entries.getLast?) =
      boundedEntry size (inRange m none none direction).head? maxBytes := by
  unfold boundedEntry
  rw [if_neg (by omega), ← remaining_none]
  rcases scan_cases m size none none direction ⟨1, maxBytes, Nat.one_pos, hpos⟩ none with
    ⟨e, rest, hrest, hlarge, hscan⟩ | ⟨hfits, page, hscan, hpage, hwithin⟩
  · rw [hscan, hrest]
    simp only [List.head?_cons]
    rw [if_pos hlarge]
    rfl
  · rw [hscan]
    show Except.ok page.entries.getLast? = _
    have hlength : page.entries.length ≤ 1 := hwithin.1
    cases htodo : remaining m none none direction none with
    | nil =>
      have hrun := hpage.run.1
      rw [htodo] at hrun
      rw [List.prefix_nil.mp hrun]
      rfl
    | cons e rest =>
      rw [htodo] at hfits
      have hentries : page.entries = [e] := by
        obtain ⟨hrun, hmore⟩ := hpage.run
        rw [htodo] at hrun
        cases hp : page.entries with
        | nil =>
          -- an empty page would leave something without a continuation
          unfold IsPage at hpage
          split at hpage
          · rw [htodo, hp] at hpage
            cases hpage
          · exact absurd hp (ne_nil_of_getLast?_key hpage.1)
        | cons e' l =>
          rw [hp] at hrun hlength
          have hl : l = [] := List.eq_nil_of_length_eq_zero (by simpa using hlength)
          rw [hl, (List.cons_prefix_cons.mp hrun).1]
      have hsmall : ¬ maxBytes < size e := not_lt.mpr (hfits e rfl)
      simp only [List.head?_cons, hentries]
      rw [if_neg hsmall]
      rfl

namespace MapPartition

variable (part : MapPartition K V) {partition : Bytes} (hstart : part.start = frame partition)
  (hcalm : tx.Calm) (hdata : (prefixSuccessor part.data).isSome = true)
  (hkey : part.key.Ordered enc) (hvalue : part.value.RoundTrips encValue)
  (hrep : Represents part.data part.start enc encValue m tx.view)
include hstart hcalm hdata hkey hrep

theorem isEmpty_eq : part.isEmpty tx = .ok m.entries.isEmpty tx := by
  have hempty := namespaceIsEmpty_partition hdata
    (hstart ▸ prefixSuccessor_physicalKey part.data partition) (hstart ▸ frame_ne_nil partition)
    hkey hrep none
  have hcalmly : part.isEmpty tx = .ok (namespaceIsEmpty tx.view part.data part.start none) tx := by
    obtain ⟨snapshot, staged, token, poisoned, hasWrites, faults⟩ := tx
    obtain ⟨rfl, rfl⟩ := hcalm
    rfl
  rw [hcalmly, show namespaceIsEmpty tx.view part.data part.start none = _ from hempty]
  cases m.entries with
  | nil => rfl
  | cons e l => simp

theorem hasOtherKey_eq (k : K) :
    part.hasOtherKey k tx = .ok (m.entries.any fun e => decide (e.1 ≠ k)) tx := by
  have hempty := namespaceIsEmpty_partition hdata
    (hstart ▸ prefixSuccessor_physicalKey part.data partition) (hstart ▸ frame_ne_nil partition)
    hkey hrep (some k)
  have hcalmly : part.hasOtherKey k tx =
      .ok (!namespaceIsEmpty tx.view part.data part.start (some (enc k))) tx := by
    unfold MapPartition.hasOtherKey
    rw [hkey.encode]
    obtain ⟨snapshot, staged, token, poisoned, hasWrites, faults⟩ := tx
    obtain ⟨rfl, rfl⟩ := hcalm
    rfl
  rw [hcalmly, show namespaceIsEmpty tx.view part.data part.start (some (enc k)) = _ from hempty,
    Bool.not_not]
  congr 2
  funext e
  simp [eq_comm]

include hvalue

theorem endBounded_eq (direction : ScanDirection) (maxBytes : Nat) :
    part.endBounded direction maxBytes tx =
      answer (boundedEntry (entrySize part.start enc encValue)
        (inRange m none none direction).head? maxBytes) tx := by
  unfold endBounded ScanLimit.new
  by_cases hpos : 0 < maxBytes
  · rw [dif_pos ⟨Nat.one_pos, hpos⟩, ← scan_one _ direction hpos]
    have hscan := part.scan_eq hstart hcalm hdata hkey hvalue hrep direction none
      ⟨1, maxBytes, Nat.one_pos, hpos⟩
    show (part.scan direction none _ >>= _) tx = _
    cases hresult : Store.scan m (entrySize part.start enc encValue) none none direction none
        ⟨1, maxBytes, Nat.one_pos, hpos⟩ with
    | error e =>
      rw [hresult] at hscan
      exact bind_of_error hscan
    | ok page =>
      rw [hresult] at hscan
      exact bind_of_ok hscan
  · have hzero : maxBytes = 0 := by omega
    subst hzero
    rfl

end MapPartition

end Views

section Isolation

variable {P K V : Type} [LinearOrder P] [LinearOrder K]

theorem inRange_ascending (m : OrdMap K V) : inRange m none none .ascending = m.entries := by
  simp [inRange, withinLower, withinUpper]

theorem inRange_descending (m : OrdMap K V) :
    inRange m none none .descending = m.entries.reverse := by
  simp [inRange, withinLower, withinUpper]

/-- Framed keys compare as the tuples they stand for. -/
theorem partitionKeyCodec_ordered {partition : Codec P} {key : Codec K} {encPartition : P → Bytes}
    {enc : K → Bytes} (hpartition : partition.Ordered encPartition) (hkey : key.Ordered enc)
    {p p' : P} {k k' : K} {b b' : Bytes}
    (hb : (partitionKeyCodec partition key).encode (p, k) = .ok b)
    (hb' : (partitionKeyCodec partition key).encode (p', k') = .ok b') :
    (b < b' ↔ p < p' ∨ p = p' ∧ k < k') ∧ (b = b' ↔ p = p' ∧ k = k') := by
  have hround := partitionKeyCodec_roundTrips hpartition.toRoundTrips hkey.toRoundTrips
  rw [hround.encode] at hb hb'
  obtain rfl := Except.ok.inj hb
  obtain rfl := Except.ok.inj hb'
  have hp : encPartition p = encPartition p' ↔ p = p' :=
    ⟨fun h => hpartition.inj h, fun h => by rw [h]⟩
  have hk : enc k = enc k' ↔ k = k' := ⟨fun h => hkey.inj h, fun h => by rw [h]⟩
  dsimp only
  rw [frame_append_lt, frame_append_inj, hpartition.lt_iff, hkey.lt_iff, hp, hk]
  exact ⟨Iff.rfl, Iff.rfl⟩

/-- Partition keys are injective, ordered as tuples and read from their own bytes only; and
each view of a partition answers from the sub-map of that partition alone, whatever the
other partitions hold. -/
theorem partitions_isolated (dataId : Nat) (partition : Codec P) (key : Codec K)
    (value : Codec V) (encPartition : P → Bytes) (enc : K → Bytes) (encValue : V → Bytes)
    (hpartition : partition.Ordered encPartition) (hkey : key.Ordered enc)
    (hvalue : value.RoundTrips encValue) :
    (∀ p k p' k' b b' : Bytes, (partitionKeyCodec bytesCodec bytesCodec).encode (p, k) = .ok b →
      (partitionKeyCodec bytesCodec bytesCodec).encode (p', k') = .ok b' →
      (b < b' ↔ p < p' ∨ p = p' ∧ k < k') ∧ (b = b' ↔ p = p' ∧ k = k')) ∧
    (∀ p k p' k' b b', (partitionKeyCodec partition key).encode (p, k) = .ok b →
      (partitionKeyCodec partition key).encode (p', k') = .ok b' →
      (b < b' ↔ p < p' ∨ p = p' ∧ k < k') ∧ (b = b' ↔ p = p' ∧ k = k')) ∧
    (∀ k, ∃ b, (partitionKeyCodec partition key).encode k = .ok b ∧
      (partitionKeyCodec partition key).decode b = .ok k) ∧
    (partition.Strict → key.Strict → ∀ b k, (partitionKeyCodec partition key).decode b = .ok k →
      (partitionKeyCodec partition key).encode k = .ok b) ∧
    ∀ (m : P → OrdMap K V) (tx : Transaction), tx.Calm →
      RepresentsPartitions (dataPrefix dataId) encPartition enc encValue m tx.view →
      ∀ p, ∃ part, OrderedMapAccess.partition
          ⟨dataPrefix dataId, partitionKeyCodec partition key, value⟩ partition key p tx =
            .ok part tx ∧
        part.isEmpty tx = .ok (m p).entries.isEmpty tx ∧
        (∀ k, part.hasOtherKey k tx = .ok ((m p).entries.any fun e => decide (e.1 ≠ k)) tx) ∧
        (∀ direction resumeAfter limit, part.scan direction resumeAfter limit tx =
          respond (scan (m p) (entrySize (frame (encPartition p)) enc encValue) none none
            direction resumeAfter limit) tx) ∧
        (∀ maxBytes, part.firstBounded maxBytes tx =
          answer (boundedEntry (entrySize (frame (encPartition p)) enc encValue)
            (m p).entries.head? maxBytes) tx) ∧
        (∀ maxBytes, part.lastBounded maxBytes tx =
          answer (boundedEntry (entrySize (frame (encPartition p)) enc encValue)
            (m p).entries.getLast? maxBytes) tx) := by
  have hbytes : bytesCodec.Ordered id := ⟨⟨fun _ => rfl, fun _ => rfl⟩, fun _ _ => Iff.rfl⟩
  have hround := partitionKeyCodec_roundTrips hpartition.toRoundTrips hkey.toRoundTrips
  have hdata := prefixSuccessor_dataPrefix dataId
  refine ⟨fun p k p' k' b b' => partitionKeyCodec_ordered hbytes hbytes,
    fun p k p' k' b b' => partitionKeyCodec_ordered hpartition hkey,
    fun k => ⟨_, hround.encode k, hround.decode k⟩,
    fun hp hk => partitionKeyCodec_strict hp hk, ?_⟩
  intro m tx hcalm hmap p
  have hrep := hmap.partition hpartition.toRoundTrips p
  let part : MapPartition K V := ⟨dataPrefix dataId, frame (encPartition p), key, value⟩
  have hend : ∀ direction maxBytes, part.endBounded direction maxBytes tx =
      answer (boundedEntry (entrySize (frame (encPartition p)) enc encValue)
        (inRange (m p) none none direction).head? maxBytes) tx :=
    part.endBounded_eq rfl hcalm hdata hkey hvalue hrep
  refine ⟨part, ?_, part.isEmpty_eq rfl hcalm hdata hkey hrep,
    part.hasOtherKey_eq rfl hcalm hdata hkey hrep,
    part.scan_eq rfl hcalm hdata hkey hvalue hrep, ?_, ?_⟩
  · unfold OrderedMapAccess.partition partitionPrefix
    rw [hpartition.encode]
    rfl
  · intro maxBytes
    have h := hend .ascending maxBytes
    rw [inRange_ascending] at h
    exact h
  · intro maxBytes
    have h := hend .descending maxBytes
    rw [inRange_descending, List.head?_reverse] at h
    exact h

end Isolation

/-! ## A partition and its extension by a zero byte -/

/-- One entry in the partition `[1]`, one in `[1, 0]`. -/
def bytePartitions (p : Bytes) : OrdMap Bytes Bytes :=
  if p = [1] then OrdMap.put OrdMap.empty [5] [6]
  else if p = [1, 0] then OrdMap.put OrdMap.empty [7] [8] else OrdMap.empty

def bytePartitionsView : Database :=
  OrdMap.put (OrdMap.put OrdMap.empty (physicalKey (dataPrefix 0) (frame [1] ++ [5])) [6])
    (physicalKey (dataPrefix 0) (frame [1, 0] ++ [7])) [8]

theorem partitions_isolated_bytes :
    ∃ part, OrderedMapAccess.partition
        ⟨dataPrefix 0, partitionKeyCodec bytesCodec bytesCodec, bytesCodec⟩ bytesCodec bytesCodec
        [1] (.start bytePartitionsView 0 []) = .ok part (.start bytePartitionsView 0 []) ∧
      part.hasOtherKey [5] (.start bytePartitionsView 0 []) =
        .ok false (.start bytePartitionsView 0 []) := by
  have hcodec : bytesCodec.RoundTrips id := ⟨fun _ => rfl, fun _ => rfl⟩
  have hordered : bytesCodec.Ordered id := ⟨hcodec, fun _ _ => Iff.rfl⟩
  have hrep : RepresentsPartitions (dataPrefix 0) id id id bytePartitions
      (Transaction.start bytePartitionsView 0 []).view := by
    intro b v
    have hview : (Transaction.start bytePartitionsView 0 []).view.get?
        (physicalKey (dataPrefix 0) b) = if b = frame [1, 0] ++ [7] then some [8]
          else if b = frame [1] ++ [5] then some [6] else none := by
      show bytePartitionsView.get? (physicalKey (dataPrefix 0) b) = _
      simp only [bytePartitionsView, OrdMap.get?_put, physicalKey, List.append_cancel_left_eq,
        OrdMap.get?_empty]
    rw [hview]
    constructor
    · intro h
      split at h
      · next hb => exact ⟨[1, 0], ([7], [8]), by decide, hb.symm, Option.some.inj h⟩
      · split at h
        · next hb => exact ⟨[1], ([5], [6]), by decide, hb.symm, Option.some.inj h⟩
        · cases h
    · rintro ⟨p, e, he, rfl, rfl⟩
      unfold bytePartitions at he
      split at he
      · next hp =>
        obtain rfl : e = ([5], [6]) := List.mem_singleton.mp he
        rw [hp]
        decide
      · split at he
        · next hp =>
          obtain rfl : e = ([7], [8]) := List.mem_singleton.mp he
          rw [hp]
          decide
        · cases he
  obtain ⟨-, -, -, -, hviews⟩ := partitions_isolated 0 bytesCodec bytesCodec bytesCodec id id id
    hordered hordered hcodec
  obtain ⟨part, hpart, -, hother, -⟩ := hviews bytePartitions _ ⟨rfl, rfl⟩ hrep [1]
  exact ⟨part, hpart, hother [5]⟩

end Dogpaddle.Store
