import Dogpaddle.Store.Collections

/-!
# Scans over an engine iterator

A scan runs an iterator over physical keys, skips or stops at those outside its range,
and decodes the rest. Here that loop is the abstract `scan` of `Store.Scan`, for every
namespace that represents an ordered map through lawful codecs:

* the loop sees only the matching entries (`scanLoop_filter`);
* over these it admits and decodes as `admitEntries` does (`scanLoop_map`);
* the matching entries of the iterator are those of the range, in its direction
  (`filter_seek`, `filter_seekForPrev`).

`start` is what all keys of a partition begin with; it is empty for a whole map.
-/

namespace Dogpaddle.Store

open Lib

/-! ## Lawful codecs -/

/-- A codec that encodes every value and reads it back. -/
structure Codec.RoundTrips {α : Type} (codec : Codec α) (enc : α → Bytes) : Prop where
  encode : ∀ a, codec.encode a = .ok (enc a)
  decode : ∀ a, codec.decode (enc a) = .ok a

/-- A key codec whose byte order is the order of the keys. -/
structure Codec.Ordered {K : Type} [LinearOrder K] (codec : Codec K) (enc : K → Bytes) : Prop
    extends codec.RoundTrips enc where
  lt_iff : ∀ j k, enc j < enc k ↔ j < k

theorem Codec.RoundTrips.inj {α : Type} {codec : Codec α} {enc : α → Bytes}
    (h : codec.RoundTrips enc) {a b : α} (heq : enc a = enc b) : a = b := by
  have hdecode := h.decode a
  rw [heq, h.decode b] at hdecode
  exact (Except.ok.inj hdecode).symm

section Scan

variable {K V : Type} {key : Codec K} {value : Codec V} {data : DataAccess}
  {direction : ScanDirection} {lower upper : EncodedBound Bytes} {limit : ScanLimit}
  {start : Bytes}

/-! ## The loop sees the matching entries -/

/-- Whether an entry of the iterator lies in the namespace and the range. -/
def matching (data : DataAccess) (lower upper : EncodedBound Bytes) (e : Bytes × Bytes) : Bool :=
  match strip data e.1 with
  | none => false
  | some k => withinLower k lower && withinUpper k upper

/-- Whether the loop ends at an entry that does not match. -/
def stopping (data : DataAccess) (direction : ScanDirection) (lower upper : EncodedBound Bytes)
    (e : Bytes × Bytes) : Bool :=
  match strip data e.1 with
  | none => direction = .ascending
  | some k =>
    if withinLower k lower then direction = .ascending && !withinUpper k upper
    else direction = .descending

theorem scanLoop_skip (e : Bytes × Bytes) (iterator : List (Bytes × Bytes))
    (entries : List (K × V)) (bytes : Nat) (hmatch : matching data lower upper e = false) :
    scanLoop key value data direction lower upper limit start (e :: iterator) entries bytes =
      if stopping data direction lower upper e then .ok (entries, false)
      else scanLoop key value data direction lower upper limit start iterator entries bytes := by
  unfold matching at hmatch
  unfold stopping
  conv => lhs; unfold scanLoop
  cases hstrip : strip data e.1 with
  | none => cases direction <;> simp
  | some k =>
    rw [hstrip] at hmatch
    cases hlow : withinLower k lower with
    | false => cases direction <;> simp [hlow]
    | true =>
      have hup : withinUpper k upper = false := by simpa [hlow] using hmatch
      cases direction <;> simp [hlow, hup]

/-- The loop over an iterator is the loop over its matching entries, when nothing matches
after a stop. -/
theorem scanLoop_filter (iterator : List (Bytes × Bytes)) (entries : List (K × V)) (bytes : Nat)
    (hstop : iterator.Pairwise fun a b => stopping data direction lower upper a = true →
      matching data lower upper b = false) :
    scanLoop key value data direction lower upper limit start iterator entries bytes =
      scanLoop key value data direction lower upper limit start
        (iterator.filter (matching data lower upper)) entries bytes := by
  induction iterator generalizing entries bytes with
  | nil => rfl
  | cons e iterator ih =>
    obtain ⟨hhead, htail⟩ := List.pairwise_cons.mp hstop
    cases hmatch : matching data lower upper e with
    | false =>
      rw [scanLoop_skip e iterator entries bytes hmatch, List.filter_cons_of_neg (by simp [hmatch])]
      split
      · next hs =>
        have hnone : iterator.filter (matching data lower upper) = [] :=
          List.filter_eq_nil_iff.mpr fun e' he' => by simp [hhead e' he' hs]
        rw [hnone]
        rfl
      · exact ih entries bytes htail
    | true =>
      rw [List.filter_cons_of_pos hmatch]
      unfold scanLoop
      simp only [ih _ _ htail]

/-! ## Decoding the matching entries -/

/-- The failures of an abstract scan. -/
def StoreError.failure : StoreError → Failure
  | .itemTooLarge size limit => .itemTooLarge size limit

/-- The physical entry of a key and a value. -/
def physicalEntry (data start : Bytes) (enc : K → Bytes) (encValue : V → Bytes) (e : K × V) :
    Bytes × Bytes := (physicalKey data (start ++ enc e.1), encValue e.2)

/-- The logical size of an entry: all bytes of its key within the namespace, and of its
value. -/
def entrySize (start : Bytes) (enc : K → Bytes) (encValue : V → Bytes) (e : K × V) : Nat :=
  (start ++ enc e.1).length + (encValue e.2).length

variable {enc : K → Bytes} {encValue : V → Bytes}

theorem scanLoop_map (hkey : key.RoundTrips enc) (hvalue : value.RoundTrips encValue)
    (todo entries : List (K × V)) (bytes : Nat)
    (hmatch : ∀ e ∈ todo, matching data lower upper (physicalEntry data start enc encValue e) = true) :
    scanLoop key value data direction lower upper limit start
        (todo.map (physicalEntry data start enc encValue)) entries bytes =
      (admitEntries (entrySize start enc encValue) limit todo entries bytes).mapError
        StoreError.failure := by
  induction todo generalizing entries bytes with
  | nil => rfl
  | cons e todo ih =>
    have hstrip : strip data (physicalEntry data start enc encValue e).1 = some (start ++ enc e.1) :=
      strip_append _ _
    have hwithin := hmatch e (by simp)
    unfold matching at hwithin
    rw [hstrip] at hwithin
    obtain ⟨hlow, hup⟩ := Bool.and_eq_true_iff.mp hwithin
    rw [List.map_cons]
    unfold scanLoop admitEntries
    simp only [hstrip, hlow, hup, not_true_eq_false, if_false]
    by_cases hitems : entries.length = limit.maxItems
    · rw [if_pos hitems, if_pos hitems]
      rfl
    · rw [if_neg hitems, if_neg hitems]
      have hsize : (start ++ enc e.1).length + (physicalEntry data start enc encValue e).2.length =
          entrySize start enc encValue e := rfl
      rw [hsize]
      by_cases hbytes : limit.maxBytes < bytes + entrySize start enc encValue e
      · rw [if_pos hbytes, if_pos hbytes]
        split <;> rfl
      · have hvalue' : value.decode (physicalEntry data start enc encValue e).2 = .ok e.2 :=
          hvalue.decode e.2
        rw [if_neg hbytes, if_neg hbytes, strip_append]
        simp only [hkey.decode e.1, hvalue']
        exact ih _ _ fun e' he' => hmatch e' (by simp [he'])

/-! ## What the iterator visits -/

/-- A database holds a map below the bytes its keys begin with. -/
def Represents (data start : Bytes) (enc : K → Bytes) (encValue : V → Bytes) [LinearOrder K]
    (m : OrdMap K V) (db : Database) : Prop :=
  ∀ b v, db.get? (physicalKey data (start ++ b)) = some v ↔
    ∃ e ∈ m.entries, enc e.1 = b ∧ encValue e.2 = v

/-- The first key an iterator may visit. -/
def lowerKey (data : DataAccess) (lower : EncodedBound Bytes) : Bytes :=
  match lower with
  | none => data
  | some (k, _) => physicalKey data k

/-- The key a descending iterator starts at. -/
def upperKey (data : DataAccess) (upper : EncodedBound Bytes) : Bytes :=
  match upper with
  | none => namespaceEnd data
  | some (k, _) => physicalKey data k

/-- The iterator of a scan. -/
def iteratorOf (db : Database) (data : DataAccess) (direction : ScanDirection)
    (lower upper : EncodedBound Bytes) : List (Bytes × Bytes) :=
  match direction with
  | .ascending => seek db (lowerKey data lower) (namespaceEnd data) (lowerKey data lower)
  | .descending => seekForPrev db (lowerKey data lower) (upperKey data upper)

theorem physicalKey_lt {a b : Bytes} : physicalKey data a < physicalKey data b ↔ a < b := by
  unfold physicalKey
  rw [append_lt_append_iff rfl]
  simp

theorem physicalKey_le {a b : Bytes} : physicalKey data a ≤ physicalKey data b ↔ a ≤ b := by
  rw [← not_lt, ← not_lt, physicalKey_lt]

theorem matching_iff {e : Bytes × Bytes} : matching data lower upper e = true ↔
    ∃ k, e.1 = physicalKey data k ∧ withinLower k lower = true ∧ withinUpper k upper = true := by
  unfold matching
  cases hstrip : strip data e.1 with
  | none =>
    refine iff_of_false (by simp) ?_
    rintro ⟨k, hk, -⟩
    rw [hk, physicalKey, strip_append] at hstrip
    cases hstrip
  | some k =>
    have hk : e.1 = physicalKey data k := strip_eq_some.mp hstrip
    dsimp only
    rw [Bool.and_eq_true]
    constructor
    · exact fun h => ⟨k, hk, h⟩
    · rintro ⟨k', hk', h⟩
      rw [hk] at hk'
      rw [List.append_cancel_left hk']
      exact h

theorem withinLower_mono {a b : Bytes} (h : a ≤ b) (ha : withinLower a lower = true) :
    withinLower b lower = true := by
  rcases lower with _ | ⟨k, inclusive⟩
  · rfl
  · simp only [withinLower, Bool.or_eq_true, Bool.and_eq_true, decide_eq_true_eq] at ha ⊢
    rcases ha with ha | ⟨rfl, hi⟩
    · exact .inl (lt_of_lt_of_le ha h)
    · rcases lt_or_eq_of_le h with h | h
      · exact .inl h
      · exact .inr ⟨h.symm, hi⟩

theorem withinUpper_mono {a b : Bytes} (h : a ≤ b) (hb : withinUpper b upper = true) :
    withinUpper a upper = true := by
  rcases upper with _ | ⟨k, inclusive⟩
  · rfl
  · simp only [withinUpper, Bool.or_eq_true, Bool.and_eq_true, decide_eq_true_eq] at hb ⊢
    rcases hb with hb | ⟨rfl, hi⟩
    · exact .inl (lt_of_le_of_lt h hb)
    · rcases lt_or_eq_of_le h with h | h
      · exact .inl h
      · exact .inr ⟨h, hi⟩

theorem lowerKey_le {k : Bytes} (h : withinLower k lower = true) :
    lowerKey data lower ≤ physicalKey data k := by
  rcases lower with _ | ⟨b, inclusive⟩
  · exact le_append data k
  · simp only [withinLower, Bool.or_eq_true, Bool.and_eq_true, decide_eq_true_eq] at h
    refine physicalKey_le.mpr ?_
    rcases h with h | ⟨rfl, -⟩
    · exact le_of_lt h
    · exact le_refl _

theorem le_upperKey {k : Bytes} (hdata : (prefixSuccessor data).isSome = true)
    (h : withinUpper k upper = true) : physicalKey data k ≤ upperKey data upper := by
  rcases upper with _ | ⟨b, inclusive⟩
  · exact le_of_lt (lt_namespaceEnd hdata (List.prefix_append _ _))
  · simp only [withinUpper, Bool.or_eq_true, Bool.and_eq_true, decide_eq_true_eq] at h
    refine physicalKey_le.mpr ?_
    rcases h with h | ⟨rfl, -⟩
    · exact le_of_lt h
    · exact le_refl _

theorem data_le_lowerKey : data ≤ lowerKey data lower := by
  rcases lower with _ | ⟨b, inclusive⟩
  · exact le_refl data
  · exact le_append data b

/-- An iterator visits its entries in the order of its direction. -/
theorem pairwise_iteratorOf (db : Database) :
    (iteratorOf db data direction lower upper).Pairwise fun a b =>
      visitsBefore direction a.1 b.1 = true := by
  cases direction with
  | ascending => exact (db.sorted.filter _).imp visitsBefore_ascending.mpr
  | descending =>
    exact List.pairwise_reverse.mpr ((db.sorted.filter _).imp visitsBefore_descending.mpr)

theorem mem_iteratorOf {db : Database} {e : Bytes × Bytes}
    (hdata : (prefixSuccessor data).isSome = true) (hmatch : matching data lower upper e = true) :
    e ∈ iteratorOf db data direction lower upper ↔ e ∈ db.entries := by
  obtain ⟨k, hk, hlow, hup⟩ := matching_iff.mp hmatch
  have hle : lowerKey data lower ≤ e.1 := hk ▸ lowerKey_le hlow
  cases direction with
  | ascending =>
    have hlt : e.1 < namespaceEnd data := hk ▸ lt_namespaceEnd hdata (List.prefix_append _ _)
    simp [iteratorOf, seek, hle, hlt]
  | descending =>
    have hle' : e.1 ≤ upperKey data upper := hk ▸ le_upperKey hdata hup
    simp [iteratorOf, seekForPrev, hle, hle']

/-- After a stop nothing matches. -/
theorem stops_iteratorOf (db : Database) (hdata : (prefixSuccessor data).isSome = true) :
    (iteratorOf db data direction lower upper).Pairwise fun a b =>
      stopping data direction lower upper a = true → matching data lower upper b = false := by
  refine (pairwise_iteratorOf db).imp_of_mem fun {a b} ha hb hbefore hstop => ?_
  rw [← Bool.not_eq_true]
  intro hmatch
  obtain ⟨k, hk, hlow, hup⟩ := matching_iff.mp hmatch
  unfold stopping at hstop
  cases direction with
  | ascending =>
    have hlt : a.1 < b.1 := visitsBefore_ascending.mp hbefore
    cases hstrip : strip data a.1 with
    | none =>
      -- a key between the namespace and one of its keys belongs to it
      have hge : data ≤ a.1 := by
        have hlower : data ≤ lowerKey data lower := data_le_lowerKey
        simp only [iteratorOf, seek, List.mem_filter, decide_eq_true_eq] at ha
        exact le_trans hlower ha.2.1
      exact strip_eq_none.mp hstrip (prefix_of_between hdata hge (hk ▸ le_of_lt hlt))
    | some j =>
      have hj : a.1 = physicalKey data j := strip_eq_some.mp hstrip
      rw [hj, hk, physicalKey_lt] at hlt
      have hup' := withinUpper_mono (le_of_lt hlt) hup
      rw [hstrip] at hstop
      simp [hup'] at hstop
  | descending =>
    have hlt : b.1 < a.1 := visitsBefore_descending.mp hbefore
    cases hstrip : strip data a.1 with
    | none =>
      rw [hstrip] at hstop
      simp at hstop
    | some j =>
      have hj : a.1 = physicalKey data j := strip_eq_some.mp hstrip
      rw [hj, hk, physicalKey_lt] at hlt
      have hlow' := withinLower_mono (le_of_lt hlt) hlow
      rw [hstrip] at hstop
      simp [hlow'] at hstop

/-! ## A scan of what a namespace represents -/

variable [LinearOrder K] {m : OrdMap K V} {db : Database} {low up : EncodedBound K}

/-- The ends of a range over keys and over their bytes agree. -/
structure Bounds (start : Bytes) (enc : K → Bytes) (low up : EncodedBound K)
    (lower upper : EncodedBound Bytes) : Prop where
  lower_eq : ∀ k, withinLower (start ++ enc k) lower = withinLower k low
  upper_eq : ∀ k, withinUpper (start ++ enc k) upper = withinUpper k up
  starts : ∀ b, withinLower b lower = true → withinUpper b upper = true → start <+: b

theorem Represents.mem_iff (hrep : Represents data start enc encValue m db)
    (hbounds : Bounds start enc low up lower upper) {e : Bytes × Bytes} :
    (e ∈ db.entries ∧ matching data lower upper e = true) ↔
      e ∈ (inRange m low up direction).map (physicalEntry data start enc encValue) := by
  rw [List.mem_map]
  constructor
  · rintro ⟨hmem, hmatch⟩
    obtain ⟨k, hk, hlow, hup⟩ := matching_iff.mp hmatch
    obtain ⟨b, rfl⟩ := hbounds.starts k hlow hup
    have hget := (OrdMap.mem_entries _ _ _).mp hmem
    rw [hk] at hget
    obtain ⟨e', he', hkey, hvalue⟩ := (hrep b e.2).mp hget
    subst hkey
    rw [hbounds.lower_eq] at hlow
    rw [hbounds.upper_eq] at hup
    exact ⟨e', mem_inRange.mpr ⟨he', hlow, hup⟩, Prod.ext hk.symm hvalue⟩
  · rintro ⟨e', he', rfl⟩
    obtain ⟨he', hlow, hup⟩ := mem_inRange.mp he'
    refine ⟨(OrdMap.mem_entries _ _ _).mpr ((hrep _ _).mpr ⟨e', he', rfl, rfl⟩), ?_⟩
    refine matching_iff.mpr ⟨start ++ enc e'.1, rfl, ?_, ?_⟩
    · rw [hbounds.lower_eq, hlow]
    · rw [hbounds.upper_eq, hup]

/-- The matching entries of the iterator are the entries of the range. -/
theorem filter_iteratorOf (hdata : (prefixSuccessor data).isSome = true)
    (hkey : key.Ordered enc) (hrep : Represents data start enc encValue m db)
    (hbounds : Bounds start enc low up lower upper) :
    (iteratorOf db data direction lower upper).filter (matching data lower upper) =
      (inRange m low up direction).map (physicalEntry data start enc encValue) := by
  refine eq_of_pairwise_visits ((pairwise_iteratorOf db).filter _) ?_ fun e => ?_
  · refine List.pairwise_map.mpr ((pairwise_inRange m low up direction).imp fun {a b} h => ?_)
    have hlt : ∀ j k, physicalKey data (start ++ enc j) < physicalKey data (start ++ enc k) ↔
        j < k := by
      intro j k
      rw [physicalKey_lt, ← physicalKey, ← physicalKey, physicalKey_lt, hkey.lt_iff]
    cases direction with
    | ascending => exact visitsBefore_ascending.mpr ((hlt _ _).mpr (visitsBefore_ascending.mp h))
    | descending => exact visitsBefore_descending.mpr ((hlt _ _).mpr (visitsBefore_descending.mp h))
  · rw [← hrep.mem_iff hbounds, List.mem_filter]
    constructor
    · rintro ⟨hmem, hmatch⟩
      exact ⟨(mem_iteratorOf hdata hmatch).mp hmem, hmatch⟩
    · rintro ⟨hmem, hmatch⟩
      exact ⟨(mem_iteratorOf hdata hmatch).mpr hmem, hmatch⟩

/-- The page of what was admitted. -/
def pageOf (admitted : List (K × V) × Bool) : OrderedMapPage K V :=
  ⟨admitted.1, if admitted.2 then admitted.1.getLast?.map (·.1) else none⟩

omit [LinearOrder K] in
theorem continuationOf_eq (hkey : key.RoundTrips enc) (entries : List (K × V)) (limited : Bool) :
    continuationOf key entries limited =
      .ok (if limited then entries.getLast?.map (·.1) else none) := by
  unfold continuationOf rebuildKey
  cases entries.getLast? with
  | none => cases limited <;> rfl
  | some e =>
    cases limited with
    | false => rfl
    | true =>
      simp only [hkey.encode, hkey.decode]
      rfl

omit [LinearOrder K] in
/-- A scan is a loop over an iterator. -/
theorem scanData_iterator (db : Database) :
    scanData key value db data direction lower upper limit start =
      match scanLoop key value data direction lower upper limit start
        (iteratorOf db data direction lower upper) [] 0 with
      | .error e => .error e
      | .ok (entries, limited) =>
        match continuationOf key entries limited with
        | .error message => .error (.codec message)
        | .ok continuation => .ok ⟨entries, continuation⟩ := by
  cases direction <;> rfl

/-- A scan of a namespace is the scan of the map it represents. -/
theorem scanData_eq (hdata : (prefixSuccessor data).isSome = true) (hkey : key.Ordered enc)
    (hvalue : value.RoundTrips encValue) (hrep : Represents data start enc encValue m db)
    (hbounds : Bounds start enc low up lower upper) :
    scanData key value db data direction lower upper limit start =
      ((admitEntries (entrySize start enc encValue) limit (inRange m low up direction) [] 0).mapError
        StoreError.failure).map pageOf := by
  have hiterator : scanLoop key value data direction lower upper limit start
      (iteratorOf db data direction lower upper) [] 0 =
      (admitEntries (entrySize start enc encValue) limit (inRange m low up direction) [] 0).mapError
        StoreError.failure := by
    rw [scanLoop_filter _ _ _ (stops_iteratorOf db hdata),
      filter_iteratorOf hdata hkey hrep hbounds]
    refine scanLoop_map hkey.toRoundTrips hvalue _ _ _ fun e he => ?_
    exact ((hrep.mem_iff hbounds).mpr (List.mem_map_of_mem he)).2
  rw [scanData_iterator, hiterator]
  cases admitEntries (entrySize start enc encValue) limit (inRange m low up direction) [] 0 with
  | error e => rfl
  | ok admitted =>
    obtain ⟨entries, limited⟩ := admitted
    simp only [Except.mapError, continuationOf_eq hkey.toRoundTrips]
    rfl

end Scan

end Dogpaddle.Store
