import Dogpaddle.Store.Iterator
import Mathlib.Algebra.Order.BigOperators.Group.List
import Mathlib.Algebra.Order.Group.Nat

/-!
# Repeated scans

A reader repeats a scan with the continuation it got until there is none. The pages it
sees are exactly the entries of the range, in the direction of the scan and each once;
only an entry that exceeds the byte limit alone stops it, and that at the scan which
starts at this entry.

`CompleteScan` says this of any way to scan; whole maps and single partitions are its two
instances.
-/

namespace Dogpaddle.Store

open Lib

section Repeat

variable {K V : Type}

/-- Repeats a scan with the returned continuation, at most `fuel` times. The second part
says how it ended, if it did. -/
def scanPages (scan : Option K → TxM (OrderedMapPage K V)) (tx : Transaction) :
    Nat → Option K → List (OrderedMapPage K V) × Option (Except Failure Unit)
  | 0, _ => ([], none)
  | fuel + 1, resumeAfter =>
    match scan resumeAfter tx with
    | .error e _ => ([], some (.error e))
    | .ok page _ =>
      match page.continuation with
      | none => ([page], some (.ok ()))
      | some key =>
        let (pages, ended) := scanPages scan tx fuel (some key)
        (page :: pages, ended)

/-- A page respects both limits. -/
def OrderedMapPage.Within (page : OrderedMapPage K V) (size : K × V → Nat) (limit : ScanLimit) :
    Prop :=
  page.entries.length ≤ limit.maxItems ∧ (page.entries.map size).sum ≤ limit.maxBytes

/-- Scanning is complete for what it has to visit. -/
structure CompleteScan (todo : Option K → List (K × V)) (size : K × V → Nat) (limit : ScanLimit)
    (scan : Option K → TxM (OrderedMapPage K V)) (tx : Transaction) : Prop where
  /-- A scan returns a first run of what remains, and a continuation exactly when more
  remains. -/
  page : ∀ resumeAfter, (∀ e, (todo resumeAfter).head? = some e → size e ≤ limit.maxBytes) →
    ∃ page, scan resumeAfter tx = .ok page tx ∧ page.entries <+: todo resumeAfter ∧
      page.Within size limit ∧
      (page.continuation.isSome = true ↔ page.entries ≠ todo resumeAfter)
  /-- A scan that starts at an entry above the byte limit fails and changes nothing. -/
  tooLarge : ∀ resumeAfter e, (todo resumeAfter).head? = some e → limit.maxBytes < size e →
    scan resumeAfter tx = .error (.itemTooLarge (size e) limit.maxBytes) tx
  /-- Without such an entry, repeating the scan yields everything. -/
  whole : (∀ e ∈ todo none, size e ≤ limit.maxBytes) → ∀ fuel, (todo none).length < fuel →
    ∃ pages, scanPages scan tx fuel none = (pages, some (.ok ())) ∧
      pages.flatMap (·.entries) = todo none ∧ ∀ page ∈ pages, page.Within size limit
  /-- With one, it yields everything before it. -/
  stops : ∀ before e after, todo none = before ++ e :: after →
    (∀ e ∈ before, size e ≤ limit.maxBytes) → limit.maxBytes < size e →
    ∀ fuel, (todo none).length < fuel →
    ∃ pages, scanPages scan tx fuel none =
        (pages, some (.error (.itemTooLarge (size e) limit.maxBytes))) ∧
      pages.flatMap (·.entries) = before ∧ ∀ page ∈ pages, page.Within size limit

/-! ## What one scan admits -/

theorem admitEntries_within {size : K × V → Nat} {limit : ScanLimit} {todo entries : List (K × V)}
    {bytes : Nat} {out : List (K × V)} {limited : Bool} (hitems : entries.length ≤ limit.maxItems)
    (hbytes : (entries.map size).sum = bytes) (hle : bytes ≤ limit.maxBytes)
    (h : admitEntries size limit todo entries bytes = .ok (out, limited)) :
    out.length ≤ limit.maxItems ∧ (out.map size).sum ≤ limit.maxBytes := by
  induction todo generalizing entries bytes with
  | nil =>
    cases h
    exact ⟨hitems, hbytes ▸ hle⟩
  | cons e todo ih =>
    unfold admitEntries at h
    split at h
    · cases h
      exact ⟨hitems, hbytes ▸ hle⟩
    · next hroom =>
      split at h
      · split at h
        · cases h
        · cases h
          exact ⟨hitems, hbytes ▸ hle⟩
      · next hfits =>
        refine ih ?_ ?_ (by omega) h
        · rw [List.length_append, List.length_singleton]
          omega
        · simp [hbytes]

/-- Once something is admitted, the loop does not fail. -/
theorem admitEntries_ok {size : K × V → Nat} {limit : ScanLimit} (todo entries : List (K × V))
    (bytes : Nat) (hne : entries ≠ []) :
    ∃ admitted, admitEntries size limit todo entries bytes = .ok admitted := by
  induction todo generalizing entries bytes with
  | nil => exact ⟨_, rfl⟩
  | cons e todo ih =>
    unfold admitEntries
    split
    · exact ⟨_, rfl⟩
    · split
      · exact ⟨_, rfl⟩
      · exact ih _ _ (by simp)

/-- The loop fails at a first entry above the byte limit. -/
theorem admitEntries_head (size : K × V → Nat) (limit : ScanLimit) (e : K × V)
    (todo : List (K × V)) :
    if limit.maxBytes < size e then
      admitEntries size limit (e :: todo) [] 0 = .error (.itemTooLarge (size e) limit.maxBytes)
    else ∃ admitted, admitEntries size limit (e :: todo) [] 0 = .ok admitted := by
  have hitems : ([] : List (K × V)).length ≠ limit.maxItems := by
    have := limit.items_pos
    simp only [List.length_nil]
    omega
  unfold admitEntries
  rw [if_neg hitems, Nat.zero_add]
  split
  · rfl
  · exact admitEntries_ok todo _ _ (by simp)

end Repeat

section Whole

variable {K V : Type} [LinearOrder K] {m : OrdMap K V} {size : K × V → Nat}
  {low up : EncodedBound K} {direction : ScanDirection} {limit : ScanLimit}

/-- How a calm transaction answers a scan. -/
def respond {α : Type} (result : Except StoreError α) (tx : Transaction) :
    EStateM.Result Failure Transaction α :=
  match result with
  | .ok a => .ok a tx
  | .error e => .error e.failure tx

/-- A scan of what remains either fails at its first entry or returns a page of it. -/
theorem scan_cases (m : OrdMap K V) (size : K × V → Nat) (low up : EncodedBound K)
    (direction : ScanDirection) (limit : ScanLimit) (resumeAfter : Option K) :
    (∃ e rest, remaining m low up direction resumeAfter = e :: rest ∧ limit.maxBytes < size e ∧
      scan m size low up direction resumeAfter limit =
        .error (.itemTooLarge (size e) limit.maxBytes)) ∨
    ((∀ e, (remaining m low up direction resumeAfter).head? = some e → size e ≤ limit.maxBytes) ∧
      ∃ page, scan m size low up direction resumeAfter limit = .ok page ∧
        IsPage (remaining m low up direction) resumeAfter page ∧ page.Within size limit) := by
  have hpage : ∀ admitted, admitEntries size limit (remaining m low up direction resumeAfter) [] 0 =
      .ok admitted → ∃ page, scan m size low up direction resumeAfter limit = .ok page ∧
        IsPage (remaining m low up direction) resumeAfter page ∧ page.Within size limit := by
    rintro ⟨out, limited⟩ hadmitted
    have hscan : scan m size low up direction resumeAfter limit =
        .ok ⟨out, if limited then out.getLast?.map (·.1) else none⟩ := by
      unfold scan
      rw [hadmitted]
    exact ⟨_, hscan, scan_isPage hscan,
      admitEntries_within (Nat.zero_le _) rfl (Nat.zero_le _) hadmitted⟩
  cases htodo : remaining m low up direction resumeAfter with
  | nil =>
    rw [htodo] at hpage
    exact .inr ⟨fun e he => (by cases he), hpage _ rfl⟩
  | cons e rest =>
    have hhead := admitEntries_head size limit e rest
    by_cases hlarge : limit.maxBytes < size e
    · rw [if_pos hlarge, ← htodo] at hhead
      refine .inl ⟨e, rest, rfl, hlarge, ?_⟩
      unfold scan
      rw [hhead]
    · rw [if_neg hlarge, ← htodo] at hhead
      obtain ⟨admitted, hadmitted⟩ := hhead
      refine .inr ⟨fun e' he' => ?_, hpage admitted hadmitted⟩
      rw [← Option.some.inj he']
      omega

variable {scanFn : Option K → TxM (OrderedMapPage K V)} {tx : Transaction}

omit [LinearOrder K] in
/-- A page of a scan is a first run of what remains; it has a continuation exactly when
more remains. -/
theorem IsPage.run {todo : Option K → List (K × V)} {resumeAfter : Option K}
    {page : OrderedMapPage K V} (h : IsPage todo resumeAfter page) :
    page.entries <+: todo resumeAfter ∧
      (page.continuation.isSome = true ↔ page.entries ≠ todo resumeAfter) := by
  unfold IsPage at h
  cases hnext : page.continuation with
  | none =>
    rw [hnext] at h
    have htodo : todo resumeAfter = page.entries := h
    rw [htodo]
    exact ⟨List.prefix_rfl, by simp⟩
  | some key =>
    rw [hnext] at h
    obtain ⟨-, hmore, htodo⟩ := h
    rw [htodo]
    refine ⟨List.prefix_append _ _, iff_of_true rfl fun hc => hmore ?_⟩
    exact List.self_eq_append_right.mp hc

omit [LinearOrder K] in
/-- Every entry of a page within the byte limit fits alone. -/
theorem OrderedMapPage.Within.fits {page : OrderedMapPage K V} (h : page.Within size limit)
    {e : K × V} (he : e ∈ page.entries) : size e ≤ limit.maxBytes :=
  le_trans (List.le_sum_of_mem (List.mem_map_of_mem he)) h.2

/-- Repeated scans, split at the first entry above the byte limit, if there is one. -/
theorem scanPages_eq
    (hscan : ∀ r, scanFn r tx = respond (scan m size low up direction r limit) tx)
    (fuel : Nat) (resumeAfter : Option K) (fitting rest : List (K × V))
    (htodo : remaining m low up direction resumeAfter = fitting ++ rest)
    (hfits : ∀ e ∈ fitting, size e ≤ limit.maxBytes)
    (hrest : ∀ e, rest.head? = some e → limit.maxBytes < size e)
    (hfuel : (fitting ++ rest).length < fuel) :
    ∃ pages, scanPages scanFn tx fuel resumeAfter = (pages, some (match rest.head? with
        | none => .ok ()
        | some e => .error (.itemTooLarge (size e) limit.maxBytes))) ∧
      pages.flatMap (·.entries) = fitting ∧ ∀ page ∈ pages, page.Within size limit := by
  induction fuel generalizing resumeAfter fitting with
  | zero => omega
  | succ fuel ih =>
    unfold scanPages
    rw [hscan resumeAfter]
    rcases scan_cases m size low up direction limit resumeAfter with
      ⟨e, others, hhead, hlarge, hfail⟩ | ⟨-, page, hok, hpage, hwithin⟩
    · -- the first entry is above the limit, so nothing fits before it
      rw [htodo] at hhead
      cases fitting with
      | cons e' fitting =>
        have := hfits e' (by simp)
        rw [List.cons_append] at hhead
        rw [(List.cons.inj hhead).1] at this
        omega
      | nil =>
        rw [List.nil_append] at hhead
        rw [hfail, hhead]
        exact ⟨[], rfl, rfl, by simp⟩
    · unfold IsPage at hpage
      rw [hok]
      dsimp only [respond]
      cases hnext : page.continuation with
      | none =>
        have hall : remaining m low up direction resumeAfter = page.entries := by
          rw [hnext] at hpage
          exact hpage
        have hnone : rest = [] := by
          cases hcases : rest with
          | nil => rfl
          | cons e others =>
            have hlarge := hrest e (by rw [hcases]; rfl)
            have hmem : e ∈ page.entries := by
              rw [← hall, htodo, hcases]
              simp
            have := hwithin.fits hmem
            omega
        subst hnone
        rw [List.append_nil] at htodo
        refine ⟨[page], rfl, ?_, by simpa using hwithin⟩
        simp [← hall, htodo]
      | some key =>
        rw [hnext] at hpage
        obtain ⟨hlast, -, hsplit⟩ := hpage
        -- the page holds entries that fit, so it ends before the rest begins
        obtain ⟨fitting', hfitting, hmore⟩ : ∃ fitting', fitting = page.entries ++ fitting' ∧
            remaining m low up direction (some key) = fitting' ++ rest := by
          rw [htodo] at hsplit
          rcases List.append_eq_append_iff.mp hsplit with ⟨c, hc, hrest'⟩ | ⟨c, hc, hrest'⟩
          · cases c with
            | nil => exact ⟨[], by simpa using hc.symm, by simpa using hrest'.symm⟩
            | cons e c =>
              have hlarge := hrest e (by rw [hrest']; rfl)
              have := hwithin.fits (e := e) (by rw [hc]; simp)
              omega
          · exact ⟨c, hc, hrest'⟩
        have hpos := List.length_pos_iff.mpr (ne_nil_of_getLast?_key hlast)
        obtain ⟨pages, hpages, hentries, hlimits⟩ := ih (some key) fitting' hmore
          (fun e he => hfits e (by rw [hfitting]; simp [he])) (by
            rw [hfitting, List.append_assoc, List.length_append] at hfuel
            omega)
        dsimp only
        rw [hpages]
        refine ⟨page :: pages, rfl, ?_, ?_⟩
        · rw [List.flatMap_cons, hentries, hfitting]
        · intro p hp
          rcases List.mem_cons.mp hp with rfl | hp
          · exact hwithin
          · exact hlimits p hp

/-- Any way to scan that answers as the abstract scan is complete. -/
theorem completeScan_of_scan
    (hscan : ∀ r, scanFn r tx = respond (scan m size low up direction r limit) tx) :
    CompleteScan (remaining m low up direction) size limit scanFn tx where
  page resumeAfter hhead := by
    rcases scan_cases m size low up direction limit resumeAfter with
      ⟨e, others, htodo, hlarge, -⟩ | ⟨-, page, hok, hpage, hwithin⟩
    · have := hhead e (by rw [htodo]; rfl)
      omega
    · refine ⟨page, ?_, hpage.run.1, hwithin, hpage.run.2⟩
      rw [hscan, hok]
      rfl
  tooLarge resumeAfter e hhead hlarge := by
    rcases scan_cases m size low up direction limit resumeAfter with
      ⟨e', others, htodo, -, hfail⟩ | ⟨hfits, -⟩
    · rw [htodo] at hhead
      cases hhead
      rw [hscan, hfail]
      rfl
    · have := hfits e hhead
      omega
  whole hfits fuel hfuel := by
    exact scanPages_eq hscan fuel none _ [] (List.append_nil _).symm hfits
      (fun e he => (by cases he)) (by rw [List.append_nil]; exact hfuel)
  stops before e after htodo hfits hlarge fuel hfuel := by
    refine scanPages_eq hscan fuel none before (e :: after) htodo hfits (fun e' he' => ?_)
      (htodo ▸ hfuel)
    cases he'
    exact hlarge

end Whole

/-! ## Maps and partitions -/

section Instances

variable {K V : Type} [LinearOrder K] {key : Codec K} {value : Codec V} {enc : K → Bytes}
  {encValue : V → Bytes} {data start : Bytes} {tx : Transaction}

/-- A range end over the bytes of its key. -/
def byteBound (start : Bytes) (enc : K → Bytes) (bound : EncodedBound K) : EncodedBound Bytes :=
  bound.map fun b => (start ++ enc b.1, b.2)

theorem start_lt_iff (hkey : key.Ordered enc) (start : Bytes) (j k : K) :
    start ++ enc j < start ++ enc k ↔ j < k := by
  rw [← physicalKey, ← physicalKey, physicalKey_lt, hkey.lt_iff]

theorem start_eq_iff (hkey : key.Ordered enc) (start : Bytes) (j k : K) :
    start ++ enc j = start ++ enc k ↔ j = k := by
  constructor
  · exact fun h => hkey.inj (List.append_cancel_left h)
  · rintro rfl
    rfl

theorem withinLower_byteBound (hkey : key.Ordered enc) (start : Bytes) (k : K)
    (bound : EncodedBound K) :
    withinLower (start ++ enc k) (byteBound start enc bound) = withinLower k bound := by
  rcases bound with _ | ⟨b, inclusive⟩
  · rfl
  · simp only [byteBound, Option.map_some, withinLower, start_lt_iff hkey, start_eq_iff hkey]

theorem withinUpper_byteBound (hkey : key.Ordered enc) (start : Bytes) (k : K)
    (bound : EncodedBound K) :
    withinUpper (start ++ enc k) (byteBound start enc bound) = withinUpper k bound := by
  rcases bound with _ | ⟨b, inclusive⟩
  · rfl
  · simp only [byteBound, Option.map_some, withinUpper, start_lt_iff hkey, start_eq_iff hkey]

/-- A byte range that agrees with a key range still does so after a resume key. -/
theorem Bounds.resume (hkey : key.Ordered enc) {low up : EncodedBound K}
    {lower upper : EncodedBound Bytes} (h : Bounds start enc low up lower upper)
    (direction : ScanDirection) (resumeAfter : Option K) :
    match direction with
    | .ascending => Bounds start enc (laterBound low (resumeAfter.map fun k => (k, false))) up
        (laterBound lower ((resumeAfter.map (start ++ enc ·)).map fun b => (b, false))) upper
    | .descending => Bounds start enc low (earlierBound up (resumeAfter.map fun k => (k, false)))
        lower (earlierBound upper ((resumeAfter.map (start ++ enc ·)).map fun b => (b, false))) := by
  have hresume : ((resumeAfter.map (start ++ enc ·)).map fun b => (b, false)) =
      byteBound start enc (resumeAfter.map fun k => (k, false)) := by
    cases resumeAfter <;> rfl
  rw [hresume]
  cases direction with
  | ascending =>
    refine ⟨fun k => ?_, h.upper_eq, fun b hlow hup => ?_⟩
    · rw [withinLower_laterBound, withinLower_laterBound, h.lower_eq, withinLower_byteBound hkey]
    · rw [withinLower_laterBound, Bool.and_eq_true] at hlow
      exact h.starts b hlow.1 hup
  | descending =>
    refine ⟨h.lower_eq, fun k => ?_, fun b hlow hup => ?_⟩
    · rw [withinUpper_earlierBound, withinUpper_earlierBound, h.upper_eq,
        withinUpper_byteBound hkey]
    · rw [withinUpper_earlierBound, Bool.and_eq_true] at hup
      exact h.starts b hlow hup.1

/-- A scan of a namespace answers as the scan of the map it represents. -/
theorem scanKeySuffix_eq (hcalm : tx.Calm) (hdata : (prefixSuccessor data).isSome = true)
    (hkey : key.Ordered enc) (hvalue : value.RoundTrips encValue) {m : OrdMap K V}
    (hrep : Represents data start enc encValue m tx.view) {low up : EncodedBound K}
    {lower upper : EncodedBound Bytes} (h : Bounds start enc low up lower upper)
    (direction : ScanDirection) (resumeAfter : Option K) (limit : ScanLimit) :
    DataAccess.scanKeySuffix data key value lower upper direction
        (resumeAfter.map (start ++ enc ·)) limit start tx =
      respond (scan m (entrySize start enc encValue) low up direction resumeAfter limit) tx := by
  have hresult : ∀ result : Except StoreError (List (K × V) × Bool),
      (recordResult ((result.mapError StoreError.failure).map pageOf) :
        TxM (OrderedMapPage K V)) tx = respond (result.map pageOf) tx := by
    rintro (⟨size, limit⟩ | admitted) <;> rfl
  have hscan : ∀ lower' upper', DataAccess.scanKeySuffix data key value lower upper direction
      (resumeAfter.map (start ++ enc ·)) limit start tx =
        recordResult (scanData key value tx.view data direction lower' upper' limit start) tx →
      ∀ low' up', Bounds start enc low' up' lower' upper' →
      inRange m low' up' direction = remaining m low up direction resumeAfter →
      DataAccess.scanKeySuffix data key value lower upper direction
        (resumeAfter.map (start ++ enc ·)) limit start tx =
      respond (scan m (entrySize start enc encValue) low up direction resumeAfter limit) tx := by
    intro lower' upper' hrun low' up' hbounds hrange
    rw [hrun, scanData_eq hdata hkey hvalue hrep hbounds, hresult, hrange]
    unfold scan
    cases admitEntries (entrySize start enc encValue) limit
      (remaining m low up direction resumeAfter) [] 0 <;> rfl
  have hbounds := h.resume hkey direction resumeAfter
  have hstep : ∀ lower' upper', (do
      ensureHealthy
      let result ← engineRead "scan data" fun db =>
        scanData key value db data direction lower' upper' limit start
      recordResult (result.bind id) : TxM (OrderedMapPage K V)) tx =
        recordResult (scanData key value tx.view data direction lower' upper' limit start) tx := by
    intro lower' upper'
    obtain ⟨snapshot, staged, token, poisoned, hasWrites, faults⟩ := tx
    obtain ⟨rfl, rfl⟩ := hcalm
    rfl
  cases direction with
  | ascending => exact hscan _ _ (hstep _ _) _ _ hbounds rfl
  | descending => exact hscan _ _ (hstep _ _) _ _ hbounds rfl

theorem OrderedMapAccess.scan_eq (map : OrderedMapAccess K V) (hcalm : tx.Calm)
    (hdata : (prefixSuccessor map.data).isSome = true) (hkey : map.key.Ordered enc)
    (hvalue : map.value.RoundTrips encValue) {m : OrdMap K V}
    (hrep : Represents map.data [] enc encValue m tx.view) (low up : EncodedBound K)
    (direction : ScanDirection) (resumeAfter : Option K) (limit : ScanLimit) :
    map.scan low up direction resumeAfter limit tx =
      respond (Store.scan m (entrySize [] enc encValue) low up direction resumeAfter limit) tx := by
  have hbound : ∀ bound : EncodedBound K,
      encodeBound map.key bound = .ok (byteBound [] enc bound) := by
    rintro (_ | ⟨k, inclusive⟩)
    · rfl
    · simp only [encodeBound, hkey.encode]
      rfl
  have hresume : encodeResume map.key resumeAfter = .ok (resumeAfter.map ([] ++ enc ·)) := by
    cases resumeAfter with
    | none => rfl
    | some k =>
      simp only [encodeResume, hkey.encode]
      rfl
  have hbounds : Bounds [] enc low up (byteBound [] enc low) (byteBound [] enc up) :=
    ⟨fun k => withinLower_byteBound hkey [] k low, fun k => withinUpper_byteBound hkey [] k up,
      fun b _ _ => List.nil_prefix⟩
  rw [← scanKeySuffix_eq hcalm hdata hkey hvalue hrep hbounds direction resumeAfter limit]
  unfold OrderedMapAccess.scan
  rw [hbound, hbound, hresume]
  rfl

/-- The byte after the last one of a framed partition ends its keys. -/
theorem prefixSuccessor_frame (partition : Bytes) :
    prefixSuccessor (frame partition) = some (incrementLast (frame partition)) := by
  have hframe : frame partition = (escape partition ++ [0]) ++ [0] := by simp [frame]
  rw [hframe, incrementLast_concat]
  exact prefixSuccessor_concat _ (by decide)

/-- The keys of a partition are those between its framed key and the successor. -/
theorem bounds_partition (partition : Bytes) :
    Bounds (frame partition) enc none none (some (frame partition, true))
      (some (incrementLast (frame partition), false)) := by
  have hsuccessor := lt_prefixSuccessor (prefixSuccessor_frame partition)
  refine ⟨fun k => ?_, fun k => ?_, fun b hlow hup => ?_⟩
  · simp only [withinLower, Bool.and_true, Bool.or_eq_true, decide_eq_true_eq]
    rcases lt_or_eq_of_le (le_append (frame partition) (enc k)) with h | h
    · exact .inl h
    · exact .inr h.symm
  · simp only [withinUpper, Bool.and_false, Bool.or_false, decide_eq_true_eq]
    exact (hsuccessor _).mpr (.inr (List.prefix_append _ _))
  · simp only [withinLower, withinUpper, Bool.and_true, Bool.and_false, Bool.or_false,
      Bool.or_eq_true, decide_eq_true_eq] at hlow hup
    rcases (hsuccessor b).mp hup with hlt | hstart
    · rcases hlow with hgt | rfl
      · exact absurd (lt_trans hlt hgt) (lt_irrefl _)
      · exact absurd hlt (lt_irrefl _)
    · exact hstart

theorem MapPartition.scan_eq (part : MapPartition K V) {partition : Bytes}
    (hstart : part.start = frame partition) (hcalm : tx.Calm)
    (hdata : (prefixSuccessor part.data).isSome = true) (hkey : part.key.Ordered enc)
    (hvalue : part.value.RoundTrips encValue) {m : OrdMap K V}
    (hrep : Represents part.data part.start enc encValue m tx.view) (direction : ScanDirection)
    (resumeAfter : Option K) (limit : ScanLimit) :
    part.scan direction resumeAfter limit tx =
      respond (Store.scan m (entrySize part.start enc encValue) none none direction resumeAfter
        limit) tx := by
  have hbounds : Bounds part.start enc none none (some (part.start, true))
      (some (incrementLast part.start, false)) := hstart ▸ bounds_partition partition
  have hresume : part.encodeResumeKey resumeAfter tx =
      .ok (resumeAfter.map (part.start ++ enc ·)) tx := by
    cases resumeAfter with
    | none => rfl
    | some k =>
      have hencoded : part.encodeKey k tx = .ok (part.start ++ enc k) tx := by
        unfold MapPartition.encodeKey
        rw [hkey.encode]
        rfl
      exact bind_of_ok hencoded
  rw [← scanKeySuffix_eq hcalm hdata hkey hvalue hrep hbounds direction resumeAfter limit]
  unfold MapPartition.scan
  rw [bind_of_ok hresume]

/-- A database holds a partitioned map. -/
def RepresentsPartitions {P : Type} (data : Bytes) (encPartition : P → Bytes) (enc : K → Bytes)
    (encValue : V → Bytes) (m : P → OrdMap K V) (db : Database) : Prop :=
  ∀ b v, db.get? (physicalKey data b) = some v ↔
    ∃ p, ∃ e ∈ (m p).entries, frame (encPartition p) ++ enc e.1 = b ∧ encValue e.2 = v

theorem RepresentsPartitions.partition {P : Type} {partition : Codec P} {encPartition : P → Bytes}
    (hpartition : partition.RoundTrips encPartition) {m : P → OrdMap K V} {db : Database}
    (h : RepresentsPartitions data encPartition enc encValue m db) (p : P) :
    Represents data (frame (encPartition p)) enc encValue (m p) db := by
  intro b v
  rw [h]
  constructor
  · rintro ⟨p', e, he, hkey, hvalue⟩
    obtain ⟨hp, hb⟩ := frame_append_inj.mp hkey
    cases hpartition.inj hp
    exact ⟨e, he, hb, hvalue⟩
  · rintro ⟨e, he, rfl, hvalue⟩
    exact ⟨p, e, he, rfl, hvalue⟩

theorem remaining_none (m : OrdMap K V) (low up : EncodedBound K) (direction : ScanDirection) :
    remaining m low up direction none = inRange m low up direction := by
  rw [remaining_eq_filter]
  simp

/-- Paged scans of an ordered map and of a partition are complete, for every content, range,
direction and limit. -/
theorem scans_complete {P : Type} (dataId : Nat) (partition : Codec P) (encPartition : P → Bytes)
    (hkey : key.Ordered enc) (hvalue : value.RoundTrips encValue)
    (hpartition : partition.RoundTrips encPartition) (hcalm : tx.Calm) :
    (∀ m : OrdMap K V, Represents (dataPrefix dataId) [] enc encValue m tx.view →
      ∀ low up direction limit,
        remaining m low up direction none = inRange m low up direction ∧
        CompleteScan (remaining m low up direction) (entrySize [] enc encValue) limit
          (fun resumeAfter => OrderedMapAccess.scan ⟨dataPrefix dataId, key, value⟩ low up
            direction resumeAfter limit) tx) ∧
    ∀ m : P → OrdMap K V,
      RepresentsPartitions (dataPrefix dataId) encPartition enc encValue m tx.view →
      ∀ p direction limit,
        remaining (m p) none none direction none = inRange (m p) none none direction ∧
        CompleteScan (remaining (m p) none none direction)
          (entrySize (frame (encPartition p)) enc encValue) limit
          (fun resumeAfter => do
            let part ← OrderedMapAccess.partition
              ⟨dataPrefix dataId, partitionKeyCodec partition key, value⟩ partition key p
            part.scan direction resumeAfter limit) tx := by
  have hdata := prefixSuccessor_dataPrefix dataId
  refine ⟨fun m hrep low up direction limit => ⟨remaining_none m low up direction, ?_⟩,
    fun m hrep p direction limit => ⟨remaining_none (m p) none none direction, ?_⟩⟩
  · exact completeScan_of_scan fun resumeAfter =>
      OrderedMapAccess.scan_eq ⟨dataPrefix dataId, key, value⟩ hcalm hdata hkey hvalue hrep low up
        direction resumeAfter limit
  · refine completeScan_of_scan fun resumeAfter => ?_
    have hpart : OrderedMapAccess.partition
        ⟨dataPrefix dataId, partitionKeyCodec partition key, value⟩ partition key p tx =
          .ok ⟨dataPrefix dataId, frame (encPartition p), key, value⟩ tx := by
      unfold OrderedMapAccess.partition partitionPrefix
      rw [hpartition.encode]
      rfl
    rw [bind_of_ok hpart]
    exact MapPartition.scan_eq ⟨dataPrefix dataId, frame (encPartition p), key, value⟩ rfl hcalm
      hdata hkey hvalue (hrep.partition hpartition p) direction resumeAfter limit

end Instances

/-- A map of one entry, stored under its own bytes. -/
theorem scans_complete_bytes :
    let m : OrdMap Bytes Bytes := OrdMap.put OrdMap.empty [1] [2]
    let db : Database := OrdMap.put OrdMap.empty (physicalKey (dataPrefix 0) [1]) [2]
    ∀ limit : ScanLimit, CompleteScan (remaining m none (some ([9], true)) .descending)
      (entrySize [] id id) limit (fun resumeAfter => OrderedMapAccess.scan
        ⟨dataPrefix 0, bytesCodec, bytesCodec⟩ none (some ([9], true)) .descending resumeAfter limit)
      (.start db 0 []) := by
  intro m db limit
  have hcodec : bytesCodec.RoundTrips id := ⟨fun _ => rfl, fun _ => rfl⟩
  have hrep : Represents (dataPrefix 0) [] id id m (Transaction.start db 0 []).view := by
    intro b v
    have hdb : (Transaction.start db 0 []).view.get? (physicalKey (dataPrefix 0) ([] ++ b)) =
        m.get? b := by
      show OrdMap.get? (OrdMap.put OrdMap.empty (physicalKey (dataPrefix 0) [1]) [2])
        (physicalKey (dataPrefix 0) b) = OrdMap.get? (OrdMap.put OrdMap.empty [1] [2]) b
      by_cases hb : b = [1] <;> simp [physicalKey, hb]
    rw [hdb]
    constructor
    · exact fun h => ⟨(b, v), (OrdMap.mem_entries _ _ _).mpr h, rfl, rfl⟩
    · rintro ⟨e, he, rfl, rfl⟩
      exact (OrdMap.mem_entries _ _ _).mp he
  exact ((scans_complete 0 bytesCodec id ⟨hcodec, fun _ _ => Iff.rfl⟩ hcodec hcodec
    ⟨rfl, rfl⟩).1 m hrep none (some ([9], true)) .descending limit).2

end Dogpaddle.Store
