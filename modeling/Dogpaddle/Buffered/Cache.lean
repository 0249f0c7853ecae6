import Dogpaddle.Buffered.Exact
import Dogpaddle.Lib.Agree

/-!
# The head cache is invisible

The cache keeps a decoded entry, the last position of a load and the size of one row. A load
reads all three, and a load that was never settled leaves a position ahead of the head.

* `Right`: what is cached of a stored entry is what a load without it would compute.
* `Sized`, `reachable_sized`: no call ever caches a wrong size.
* `load_agree`: two loads with right caches give one result, by a relation between the two
  loaders that each function of the load keeps.
-/

namespace Dogpaddle.Buffered

open Lib

variable {Row : Type}

/-- The limits of a delivery of so many events. -/
def deliveryLimits (maxEvents : Nat) : LoadLimits :=
  ⟨maxEvents, maxDeliveryBytes, maxDeliveryBytes, maxTargetBatchBytes⟩

/-! ## Cached sizes -/

section Sizes

variable {codec : SchemaBoundChangeCodec Row}
  {sizeEvent : Change Row → Nat → Except OperationError Nat}
  {buffer : OrdMap Nat Bytes} {before : BufferState} {limits : LoadLimits}

/-- The charge of one unit of a row, as it is cached. -/
def unitBytes (sizeEvent : Change Row → Nat → Except OperationError Nat) (change : Change Row)
    (row : Nat) : Except OperationError Nat := do
  let bytes ← sizeEvent change row
  if bytes = 0 then .error (invalid "target event byte charge must be nonzero") else .ok bytes

/-- The cached size is the size of its row. -/
def Sized (sizeEvent : Change Row → Nat → Except OperationError Nat) (cached : EntryCache Row) :
    Prop :=
  ∀ row bytes, cached.eventBytes = some (row, bytes) →
    unitBytes sizeEvent cached.change row = .ok bytes

def CacheSized (sizeEvent : Change Row → Nat → Except OperationError Nat)
    (cache : Option (EntryCache Row)) : Prop :=
  ∀ cached, cache = some cached → Sized sizeEvent cached

/-- The load works on the cached entry. -/
def Keeps (sizeEvent : Change Row → Nat → Except OperationError Nat) (change : Change Row)
    (l : Loader Row) : Prop :=
  ∃ cached, l.cache = some cached ∧ cached.change = change ∧ Sized sizeEvent cached

theorem Keeps.sized {change : Change Row} {l : Loader Row} (h : Keeps sizeEvent change l) :
    CacheSized sizeEvent l.cache := by
  obtain ⟨cached, hcached, -, hsized⟩ := h
  intro cached' hcached'
  rw [hcached] at hcached'
  cases hcached'
  exact hsized

theorem unitBytes_eq_ok {change : Change Row} {row bytes : Nat} :
    unitBytes sizeEvent change row = .ok bytes ↔ sizeEvent change row = .ok bytes ∧ bytes ≠ 0 := by
  unfold unitBytes
  rw [except_bind_eq_ok]
  constructor
  · rintro ⟨bytes', hbytes, h⟩
    obtain ⟨hne, h⟩ := except_ite_eq_ok.mp h
    cases h
    exact ⟨hbytes, hne⟩
  · rintro ⟨hbytes, hne⟩
    exact ⟨bytes, hbytes, by rw [if_neg hne]⟩

theorem currentPosition_keeps {change : Change Row} :
    Triple (Keeps sizeEvent change) currentPosition (fun _ => Keeps sizeEvent change)
      (Keeps sizeEvent change) := by
  unfold currentPosition
  refine Triple.get ?_
  rintro l ⟨cached, hcached, hchange, hsized⟩
  refine Triple.set_bind (Triple.pure _ ?_)
  rintro t rfl
  refine ⟨_, by rw [hcached]; rfl, ?_⟩
  dsimp only
  split
  · exact ⟨hchange, hsized⟩
  · exact ⟨hchange, hsized⟩

theorem eventBytes_keeps {change : Change Row} :
    Triple (Keeps sizeEvent change) (eventBytes sizeEvent change)
      (fun _ => Keeps sizeEvent change) (Keeps sizeEvent change) := by
  unfold eventBytes
  refine Triple.get ?_
  intro l hl
  have hfail : ∀ u, u = l → Keeps sizeEvent change u := by
    rintro u rfl
    exact hl
  split
  · exact Triple.pure _ hfail
  · refine lift_bind hfail fun bytes hbytes => Triple.ite (fun _ => Triple.throw _ hfail)
      fun hne => Triple.set_bind (Triple.pure _ ?_)
    rintro t rfl
    obtain ⟨cached, hcached, hchange, hsized⟩ := hl
    refine ⟨{ cached with eventBytes := some (l.rowIndex, bytes) }, by rw [hcached]; rfl,
      hchange, ?_⟩
    rintro row size ⟨⟩
    rw [show cached.change = change from hchange]
    exact unitBytes_eq_ok.mpr ⟨hbytes, hne⟩

/-- An update of other variables than the cache. -/
theorem Keeps.congr {change : Change Row} {l t : Loader Row} (h : Keeps sizeEvent change l)
    (hcache : t.cache = l.cache) : Keeps sizeEvent change t := by
  obtain ⟨cached, hcached, hrest⟩ := h
  exact ⟨cached, hcache.trans hcached, hrest⟩

theorem charge_keeps {change : Change Row} (take bytesPerEvent : Nat) :
    Triple (Keeps sizeEvent change) (charge take bytesPerEvent)
      (fun _ => Keeps sizeEvent change) (Keeps sizeEvent change) := by
  unfold charge
  refine Triple.get ?_
  intro l hl
  have hfail : ∀ u, u = l → Keeps sizeEvent change u := by
    rintro u rfl
    exact hl
  refine orInvalid_bind hfail fun _ _ => orInvalid_bind hfail fun _ _ =>
    Triple.ite (fun _ => Triple.throw _ hfail) fun _ => Triple.set _ fun _ _ => ?_
  exact hl.congr rfl

theorem advanceRow_keeps {change : Change Row} (itemBytes : Nat) :
    Triple (Keeps sizeEvent change) (advanceRow before itemBytes change)
      (fun _ => Keeps sizeEvent change) (Keeps sizeEvent change) := by
  unfold advanceRow
  refine Triple.pointwise ?_
  intro l hl
  have hkeeps : ∀ u : Loader Row, u.cache = l.cache → Keeps sizeEvent change u := fun u hu =>
    hl.congr hu
  refine Triple.modify_bind (Triple.get ?_)
  rintro t rfl
  have hfail : ∀ u : Loader Row, u = { l with rowIndex := l.rowIndex + 1 } →
      Keeps sizeEvent change u := by
    rintro u rfl
    exact hkeeps _ rfl
  refine Triple.ite (fun _ => ?_) fun _ => ?_
  · refine Triple.ite (fun _ => Triple.throw _ hfail) fun _ =>
      Triple.ite (fun _ => Triple.throw _ hfail) fun _ => Triple.set_bind ?_
    refine Triple.ite (fun _ => Triple.pure _ ?_) fun _ => Triple.ite (fun _ => Triple.pure _ ?_)
      fun _ => Triple.modify_bind (Triple.pure _ ?_)
    · rintro u rfl
      exact hkeeps _ rfl
    · rintro u rfl
      exact hkeeps _ rfl
    · rintro u rfl
      exact hkeeps _ rfl
  · cases change.events[l.rowIndex + 1]? with
    | none => exact Triple.throw _ hfail
    | some event =>
      refine Triple.set_bind (Triple.ite (fun _ => ?_) fun _ => Triple.pure _ ?_)
      · refine Triple.bind (currentPosition_keeps.weaken ?_ (fun _ _ h => h) fun _ h => h)
          fun _ => Triple.pure _ fun _ h => h
        rintro u rfl
        exact hkeeps _ rfl
      · rintro u rfl
        exact hkeeps _ rfl

theorem consumeRows_keeps {change : Change Row} (itemBytes : Nat) (rows : List (Row × Int))
    (localDiffs : List Int) :
    Triple (Keeps sizeEvent change)
      (consumeRows sizeEvent before itemBytes change rows localDiffs)
      (fun _ => Keeps sizeEvent change) (Keeps sizeEvent change) := by
  induction rows generalizing localDiffs with
  | nil => exact Triple.throw _ fun _ h => h
  | cons event rows ih =>
    unfold consumeRows
    refine Triple.bind eventBytes_keeps fun bytesPerEvent => Triple.get ?_
    intro l hl
    have hfail : ∀ u, u = l → Keeps sizeEvent change u := by
      rintro u rfl
      exact hl
    refine Triple.ite (fun _ => Triple.ite (fun _ => Triple.throw _ hfail) fun _ => ?_)
      fun _ => ?_
    · exact Triple.bind (currentPosition_keeps.weaken hfail (fun _ _ h => h) fun _ h => h)
        fun _ => Triple.pure _ fun _ h => h
    · refine lift_bind hfail fun diff _ => Triple.bind
        ((charge_keeps _ _).weaken hfail (fun _ _ h => h) fun _ h => h) fun _ => Triple.get ?_
      intro t ht
      have hkeep : ∀ u, u = t → Keeps sizeEvent change u := by
        rintro u rfl
        exact ht
      refine Triple.ite (fun _ => ?_) fun _ => ?_
      · exact Triple.bind (currentPosition_keeps.weaken hkeep (fun _ _ h => h) fun _ h => h)
          fun _ => Triple.pure _ fun _ h => h
      · refine Triple.bind ((advanceRow_keeps itemBytes).weaken hkeep (fun _ _ h => h)
          fun _ h => h) fun progress => ?_
        cases progress with
        | some progress => exact Triple.pure _ fun _ h => h
        | none => exact ih _

theorem locatePosition_keeps {change : Change Row} :
    Triple (Keeps sizeEvent change) (locatePosition change) (fun _ => Keeps sizeEvent change)
      (Keeps sizeEvent change) := by
  unfold locatePosition
  refine Triple.get ?_
  intro l hl
  have hfail : ∀ u, u = l → Keeps sizeEvent change u := by
    rintro u rfl
    exact hl
  refine Triple.ite (fun _ => Triple.throw _ hfail) fun _ => ?_
  split
  · exact Triple.set _ fun _ _ => hl.congr rfl
  · exact lift_bind hfail fun _ _ => Triple.set _ fun _ _ => hl.congr rfl

theorem pushRows_keeps {change : Change Row} (firstRow : Nat) (localDiffs : List Int) :
    Triple (Keeps sizeEvent change) (pushRows firstRow change localDiffs)
      (fun _ => Keeps sizeEvent change) (Keeps sizeEvent change) := by
  unfold pushRows
  refine Triple.ite (fun _ => Triple.pure _ fun _ h => h) fun _ => Triple.modify _ ?_
  intro l hl
  exact hl.congr rfl

theorem consumeEntry_keeps {change : Change Row} (itemBytes : Nat) :
    Triple (Keeps sizeEvent change) (consumeEntry sizeEvent before limits itemBytes change)
      (fun _ => Keeps sizeEvent change) (Keeps sizeEvent change) := by
  unfold consumeEntry
  refine Triple.get ?_
  intro l hl
  have hfail : ∀ u, u = l → Keeps sizeEvent change u := by
    rintro u rfl
    exact hl
  refine Triple.ite (fun _ => Triple.throw _ hfail) fun _ => orInvalid_bind hfail fun _ _ =>
    Triple.ite (fun _ => Triple.pure _ hfail) fun _ => Triple.set_bind ?_
  refine Triple.bind (locatePosition_keeps.weaken ?_ (fun _ _ h => h) fun _ h => h) fun _ =>
    Triple.bind (Triple.modify _ ?_ : Triple _ _ (fun _ => Keeps sizeEvent change) _) fun _ =>
      Triple.get ?_
  · rintro u rfl
    exact hl.congr rfl
  · intro t ht
    exact ht.congr rfl
  · intro t ht
    refine Triple.bind ((consumeRows_keeps _ _ _).weaken ?_ (fun _ _ h => h) fun _ h => h)
      fun _ => Triple.bind (pushRows_keeps _ _) fun _ => Triple.pure _ fun _ h => h
    rintro u rfl
    exact ht

/-- An entry is cached without a size. -/
theorem loadEntry_keeps :
    Triple (fun l : Loader Row => CacheSized sizeEvent l.cache)
      (loadEntry codec buffer before limits)
      (fun found => Keeps sizeEvent found.2) (fun l => CacheSized sizeEvent l.cache) := by
  unfold loadEntry
  refine Triple.get ?_
  intro l hl
  have hfail : ∀ u, u = l → CacheSized sizeEvent u.cache := by
    rintro u rfl
    exact hl
  cases hcached : cachedAt l.entryStart l.cache with
  | some cached =>
    have hcache := (Option.filter_eq_some_iff.mp hcached).1
    refine Triple.set_bind (Triple.ite (fun _ => Triple.throw _ ?_) fun _ => Triple.pure _ ?_)
    · rintro u rfl
      exact hl
    · rintro u rfl
      exact ⟨cached, hcache, rfl, hl cached hcache⟩
  | none =>
    dsimp only
    split
    · exact Triple.throw _ hfail
    · refine Triple.ite (fun _ => Triple.throw _ hfail) fun _ => lift_bind hfail fun _ _ =>
        lift_bind hfail fun change _ => lift_bind hfail fun stop _ => Triple.set_bind
          (Triple.ite (fun _ => Triple.throw _ ?_) fun _ => Triple.set_bind (Triple.pure _ ?_))
      · rintro u rfl
        exact hl
      · rintro u rfl
        exact ⟨_, rfl, rfl, fun _ _ h => by cases h⟩

theorem run_sized (rounds : Nat) :
    Triple (fun l : Loader Row => CacheSized sizeEvent l.cache)
      (run codec sizeEvent buffer before limits rounds)
      (fun _ l => CacheSized sizeEvent l.cache) (fun l => CacheSized sizeEvent l.cache) := by
  induction rounds with
  | zero => exact Triple.throw _ fun _ h => h
  | succ rounds ih =>
    refine Triple.get ?_
    intro l hl
    have hfail : ∀ u, u = l → CacheSized sizeEvent u.cache := by
      rintro u rfl
      exact hl
    refine Triple.ite (fun _ => Triple.throw _ hfail) fun _ =>
      Triple.bind (loadEntry_keeps.weaken hfail (fun _ _ h => h) fun _ h => h) fun found =>
        Triple.bind ((consumeEntry_keeps _).weaken (fun _ h => h) (fun _ _ h => h)
          fun _ h => h.sized) fun progress => ?_
    cases progress with
    | stop after => exact Triple.pure _ fun _ h => h.sized
    | «continue» => exact ih.weaken (fun _ h => h.sized) (fun _ _ h => h) fun _ h => h

theorem finish_sized (after : Position) :
    Triple (fun l : Loader Row => CacheSized sizeEvent l.cache) (finish before after)
      (fun _ l => CacheSized sizeEvent l.cache) (fun l => CacheSized sizeEvent l.cache) := by
  unfold finish
  refine Triple.get ?_
  intro l hl
  have hfail : ∀ u, u = l → CacheSized sizeEvent u.cache := by
    rintro u rfl
    exact hl
  split
  · exact Triple.throw _ hfail
  · exact lift_bind hfail fun _ _ => lift_bind hfail fun _ _ => lift_bind hfail fun _ _ =>
      Triple.pure _ hfail

/-- Whatever a load does, it leaves no wrong size. -/
theorem load_sized {cache : Option (EntryCache Row)} (hcache : CacheSized sizeEvent cache) :
    CacheSized sizeEvent (load codec sizeEvent buffer before limits cache).2 := by
  have htriple : Triple (fun l : Loader Row => CacheSized sizeEvent l.cache)
      (loadBatch codec sizeEvent buffer before limits)
      (fun _ l => CacheSized sizeEvent l.cache) (fun l => CacheSized sizeEvent l.cache) := by
    unfold loadBatch
    exact lift_bind (fun _ h => h) fun _ _ => lift_bind (fun _ h => h) fun _ _ =>
      Triple.ite (fun _ => Triple.throw _ fun _ h => h) fun _ =>
        Triple.bind (run_sized _) fun after => finish_sized after
  have hspec := htriple (.start before limits cache) hcache
  unfold load
  cases hrun : loadBatch codec sizeEvent buffer before limits (.start before limits cache) with
  | ok batch t =>
    rw [hrun] at hspec
    exact hspec
  | error error t =>
    rw [hrun] at hspec
    exact hspec

end Sizes

/-! ## Positions -/

theorem count_take_mono (events : List (Row × Int)) {m n : Nat} (h : m ≤ n) :
    count (events.take m) ≤ count (events.take n) := by
  have hle := count_take_le (events.take n) m
  rwa [List.take_take, min_eq_left h] at hle

/-- A row that starts after the offset does not hold it. -/
theorem Located.not_lt {e : Entry Row} {offset row row' remaining remaining' : Nat}
    (h : Located e offset row remaining) (h' : Located e offset row' remaining') :
    ¬ row < row' := by
  intro hlt
  obtain ⟨event, hevent, hpos, hle, hsum⟩ := h
  obtain ⟨event', hevent', hpos', hle', hsum'⟩ := h'
  have hsucc := count_take_succ hevent'
  have hmono := count_take_mono e.change.events (show row + 1 ≤ row' from hlt)
  omega

/-- An offset is at one place of its entry. -/
theorem Located.unique {e : Entry Row} {offset row row' remaining remaining' : Nat}
    (h : Located e offset row remaining) (h' : Located e offset row' remaining') :
    row = row' ∧ remaining = remaining' := by
  have hrow : row = row' := by
    have := h.not_lt h'
    have := h'.not_lt h
    omega
  subst hrow
  obtain ⟨event, hevent, hpos, hle, hsum⟩ := h
  obtain ⟨event', hevent', hpos', hle', hsum'⟩ := h'
  exact ⟨rfl, by omega⟩

/-- The walk to an offset of the entry reaches it. -/
theorem locateRow_total {e : Entry Row} {offset : Nat} (done : List (Row × Int))
    {rows : List (Row × Int)} (hrows : e.change.events = done ++ rows)
    (hoffset : e.key + count done ≤ offset) (hstop : offset < e.stop)
    (hbounded : e.stop < 2 ^ 64) :
    ∃ found, locateRow offset rows done.length (e.key + count done) = .ok found := by
  induction rows generalizing done with
  | nil =>
    unfold Entry.stop at hstop
    rw [hrows, List.append_nil] at hstop
    omega
  | cons event rows ih =>
    have hle : e.key + count done + event.2.natAbs < 2 ^ 64 := by
      unfold Entry.stop at hbounded
      rw [hrows, count_append, count_cons] at hbounded
      omega
    rw [locateRow, checkedAdd_eq_some.mpr ⟨rfl, hle⟩]
    dsimp only
    split
    · exact ⟨_, rfl⟩
    · have hnext := ih (done ++ [event]) (by simp [hrows]) (by
        rw [count_append, count_cons, count_nil]
        omega)
      rw [count_append, count_cons, count_nil, Nat.add_zero, ← Nat.add_assoc,
        List.length_append] at hnext
      exact hnext

/-- In every state of every run the cached size is right. -/
theorem reachable_sized {sink : BufferedSink Row} {s : System Row}
    (h : System.Reachable sink s) : CacheSized sink.eventBytes s.memory.headCache := by
  induction h with
  | fresh =>
    intro cached hcached
    cases hcached
  | @step s action hreach ih =>
    unfold System.step
    cases action with
    | enqueue page committed =>
      cases committed with
      | false => exact ih
      | true =>
        show CacheSized _ (s.enqueue sink page).memory.headCache
        unfold System.enqueue
        split
        · exact ih
        · exact ih
    | load limits =>
      have hload : CacheSized sink.eventBytes (sink.load s.outbox s.memory limits).2.headCache := by
        unfold BufferedSink.load
        split
        · exact ih
        · exact ih
        · exact ih
        · next ready _ =>
          have hsized : CacheSized sink.eventBytes (Buffered.load sink.codec sink.eventBytes
            s.outbox.buffer ready limits s.memory.headCache).2 := load_sized ih
          split
          · exact ih
          · split
            · next hbatch =>
              rw [hbatch] at hsized
              exact hsized
            · next hbatch =>
              rw [hbatch] at hsized
              exact hsized
      show CacheSized _ (s.load sink limits).memory.headCache
      unfold System.load
      split
      · next hrun =>
        rw [hrun] at hload
        exact hload
      · next hrun =>
        rw [hrun] at hload
        exact hload
    | persistInitialize index committed =>
      dsimp only
      split
      · exact ih
      · split
        · split
          · exact ih
          · exact ih
        · exact ih
    | settle index committed =>
      dsimp only
      split
      · exact ih
      · unfold System.settle
        split
        · exact ih
        · next outbox memory hrun =>
          unfold BufferedSink.settle at hrun
          obtain ⟨⟨ready, buffer⟩, -, hrun⟩ := except_bind_eq_ok.mp hrun
          cases hrun
          have hkept : CacheSized sink.eventBytes
              (BufferedSink.refreshCache ready s.memory).headCache := by
            intro cached hcached
            exact ih cached (Option.filter_eq_some_iff.mp hcached).1
          split
          · exact hkept
          · exact hkept
    | reopen =>
      intro cached hcached
      cases hcached

/-! ## Two loads -/

section Agreement

variable {codec : SchemaBoundChangeCodec Row}
  {sizeEvent : Change Row → Nat → Except OperationError Nat}
  {buffer : OrdMap Nat Bytes} {before : BufferState} {limits : LoadLimits}
  {start : Nat} {es : List (Entry Row)} {e : Entry Row}

/-- What is cached of a stored entry is what a load without it would compute. -/
structure Right (sizeEvent : Change Row → Nat → Except OperationError Nat) (e : Entry Row)
    (cached : EntryCache Row) : Prop where
  shown : Shown e cached
  sized : Sized sizeEvent cached

/-- An entry the limits of a delivery admit. -/
structure Loadable (codec : SchemaBoundChangeCodec Row) (limits : LoadLimits) (tail : Nat)
    (e : Entry Row) : Prop where
  decoded : codec.decode e.encoded = .ok e.change
  small : e.bytes ≤ limits.itemBytes
  sized : limits.itemBytes < 2 ^ 64
  stop : e.stop ≤ tail
  bounded : tail < 2 ^ 64

/-- An admitted entry is read, whether it is cached or not. -/
theorem loadEntry_raises (hstored : buffer.entries = stored es) (he : e ∈ es)
    (hload : Loadable codec limits before.tail e) {l : Loader Row}
    (hstart : l.entryStart = e.key) (hsafe : Safe es before l) :
    Raises (fun _ => False) (loadEntry codec buffer before limits) l := by
  unfold loadEntry
  refine Raises.get ?_
  have hstop := hload.stop
  have hsmall := hload.small
  have hsized := hload.sized
  have hbounded := hload.bounded
  cases hcached : cachedAt l.entryStart l.cache with
  | some cached =>
    obtain ⟨hcache, hkey⟩ := Option.filter_eq_some_iff.mp hcached
    have hkey' : cached.entryStart = l.entryStart := by simpa using hkey
    have hshown := (hsafe cached hcache).2 e he (by rw [hkey', hstart])
    refine Raises.set_bind (Raises.ite (fun hover => ?_) fun _ => Raises.pure _)
    rw [hshown.entryEnd] at hover
    omega
  | none =>
    dsimp only
    rw [hstart, get?_of_mem hstored he]
    have hitem : encodedItemBytes e.encoded = .ok e.bytes :=
      encodedItemBytes_eq_ok.mpr ⟨rfl, by omega⟩
    have hdecode : decodeEntry codec e.key e.encoded limits.itemBytes = .ok e.change := by
      unfold decodeEntry
      rw [hitem]
      show (if e.bytes > limits.itemBytes then _ else _) = _
      rw [if_neg (by omega), hload.decoded]
      rfl
    refine Raises.ite (fun hover => ?_) fun _ => Raises.ofExcept_bind hitem
      (Raises.ofExcept_bind hdecode (Raises.ofExcept_bind
        (entryEnd_eq_ok.mpr ⟨rfl, show e.stop < 2 ^ 64 by omega⟩) (Raises.set_bind
          (Raises.ite (fun hover => ?_) fun _ => Raises.set_bind (Raises.pure _)))))
    · unfold Entry.bytes at hsmall
      omega
    · have : e.stop > before.tail := hover
      omega

/-- What a load holds of an admitted entry after reading it. -/
theorem loadEntry_right (hstored : buffer.entries = stored es)
    (hload : ∀ e ∈ es, Loadable codec limits before.tail e) (he : e ∈ es)
    {l : Loader Row} (hstart : l.entryStart = e.key) (hsafe : Safe es before l)
    (hsized : CacheSized sizeEvent l.cache) :
    ∃ cached, Right sizeEvent e cached ∧ loadEntry codec buffer before limits l =
      .ok (e.bytes, e.change) { l with cache := some cached, entryEnd := e.stop } := by
  obtain ⟨found, t, hrun⟩ := (loadEntry_raises hstored he (hload e he) hstart hsafe).exists_ok
  obtain ⟨rfl, cached, hshown, rfl⟩ := (loadEntry_spec hstored (fun e he => (hload e he).decoded)
    he hstart hsafe).of_ok rfl hrun
  obtain ⟨cached', hcached', -, hkept⟩ := loadEntry_keeps.of_ok (s := l) hsized hrun
  cases hcached'
  exact ⟨cached, ⟨hshown, hkept⟩, hrun⟩

/-- The loaders differ in their caches only. -/
def Alike (l m : Loader Row) : Prop := ∃ cache, m = { l with cache }

/-- Both loads are inside the entry, with right caches. -/
def Inside (sizeEvent : Change Row → Nat → Except OperationError Nat) (e : Entry Row)
    (l m : Loader Row) : Prop :=
  ∃ c d, Right sizeEvent e c ∧ Right sizeEvent e d ∧ l.entryEnd = e.stop ∧ l.cache = some c ∧
    m = { l with cache := some d }

theorem Inside.alike {l m : Loader Row} (h : Inside sizeEvent e l m) : Alike l m := by
  obtain ⟨c, d, -, -, -, -, hm⟩ := h
  exact ⟨some d, hm⟩

/-- Whether the load goes on, and with what. -/
def AfterRows (sizeEvent : Change Row → Nat → Except OperationError Nat) (e : Entry Row) :
    Option LoadProgress → Loader Row → Loader Row → Prop
  | some (.stop _), l, m => Alike l m
  | some .continue, l, m => Inside sizeEvent e l m ∧ l.entryStart = e.stop
  | none, l, m => Inside sizeEvent e l m

/-- Where a load inside the entry finds itself does not depend on its hint. -/
theorem locatePosition_ok (hbounded : e.stop < 2 ^ 64) {l : Loader Row} (hl : Holds e l)
    (hrange : ¬ (l.eventOffset < l.entryStart ∨ l.eventOffset ≥ l.entryEnd)) :
    ∃ row remaining, Located e l.eventOffset row remaining ∧
      locatePosition e.change l = .ok () { l with rowIndex := row, remaining } := by
  have hstart := hl.entryStart
  have hend := hl.entryEnd
  have hraises : Raises (fun _ => False) (locatePosition e.change) l := by
    refine Raises.get (Raises.ite (fun h => absurd h hrange) fun _ => ?_)
    split
    · exact Raises.set _
    · obtain ⟨found, hfound⟩ : ∃ found, locateRow l.eventOffset e.change.events 0 e.key =
          .ok found :=
        locateRow_total [] rfl (by rw [count_nil]; omega) (by omega) hbounded
      rw [hstart]
      exact Raises.ofExcept_bind hfound (Raises.set _)
  have htiled : Tiled e.key [e] (⟨⟨0, 0⟩, e.stop, 0⟩ : BufferState).tail := ⟨rfl, rfl⟩
  obtain ⟨_, t, hrun⟩ := hraises.exists_ok
  obtain ⟨row, remaining, hlocated, rfl⟩ :=
    (locatePosition_spec htiled List.mem_cons_self hl).of_ok rfl hrun
  exact ⟨row, remaining, hlocated, hrun⟩

theorem locatePosition_agree (hbounded : e.stop < 2 ^ 64) :
    Agree (fun l m => Inside sizeEvent e l m ∧ l.entryStart = e.key) (locatePosition e.change)
      (locatePosition e.change) (fun _ => Inside sizeEvent e) := by
  rintro l m ⟨⟨c, d, hc, hd, hend, hcache, rfl⟩, hstart⟩
  by_cases hrange : l.eventOffset < l.entryStart ∨ l.eventOffset ≥ l.entryEnd
  · have hthrow : ∀ cache, locatePosition e.change { l with cache } =
        .error (invalid "buffer position does not match its Change") { l with cache } := by
      intro cache
      unfold locatePosition
      show (if l.eventOffset < l.entryStart ∨ l.eventOffset ≥ l.entryEnd then _ else _ :
        LoadM Row Unit) { l with cache } = _
      rw [if_pos hrange]
      rfl
    rw [hthrow (some d), show locatePosition e.change l = _ from hthrow l.cache]
  · obtain ⟨row, remaining, hlocated, hrun⟩ := locatePosition_ok hbounded
      ⟨hstart, hend, c, hcache, hc.shown⟩ hrange
    obtain ⟨row', remaining', hlocated', hrun'⟩ := locatePosition_ok hbounded
      (l := { l with cache := some d }) ⟨hstart, hend, d, rfl, hd.shown⟩ hrange
    obtain ⟨rfl, rfl⟩ := hlocated.unique hlocated'
    rw [hrun, hrun']
    exact ⟨rfl, c, d, hc, hd, hend, hcache, rfl⟩

/-- A right cache gives the size of the row, cached or not. -/
theorem eventBytes_right {l : Loader Row} {c : EntryCache Row} (hcache : l.cache = some c)
    (hc : Right sizeEvent e c) :
    eventBytes sizeEvent e.change l =
      match unitBytes sizeEvent e.change l.rowIndex with
      | .ok bytes => .ok bytes { l with
          cache := some { c with eventBytes := some (l.rowIndex, bytes) } }
      | .error error => .error error l := by
  have hchange := hc.shown.change
  unfold eventBytes
  rw [bind_of_ok (show (get : LoadM Row (Loader Row)) l = .ok l l from rfl), hcache,
    Option.bind_some]
  cases hfilter : c.eventBytes.filter fun sized => sized.1 = l.rowIndex with
  | some sized =>
    obtain ⟨hbytes, hrow⟩ := Option.filter_eq_some_iff.mp hfilter
    have hrow' : sized.1 = l.rowIndex := by simpa using hrow
    have hsized := hc.sized sized.1 sized.2 hbytes
    rw [hchange, hrow'] at hsized
    have hsame : { c with eventBytes := some (l.rowIndex, sized.2) } = c := by
      rw [← hrow']
      show { c with eventBytes := some sized } = c
      rw [← hbytes]
    rw [hsized]
    show EStateM.Result.ok sized.2 l = .ok sized.2 { l with
      cache := some { c with eventBytes := some (l.rowIndex, sized.2) } }
    rw [hsame, ← hcache]
  | none =>
    unfold unitBytes
    cases hbytes : sizeEvent e.change l.rowIndex with
    | error error => rfl
    | ok bytes =>
      simp only [bind, Except.bind]
      by_cases hzero : bytes = 0
      · rw [if_pos hzero]
        show (if bytes = 0 then _ else _ : LoadM Row Nat) l = _
        rw [if_pos hzero]
        rfl
      · rw [if_neg hzero]
        show (if bytes = 0 then _ else _ : LoadM Row Nat) l = _
        rw [if_neg hzero]
        rfl

theorem eventBytes_agree :
    Agree (Inside sizeEvent e) (eventBytes sizeEvent e.change) (eventBytes sizeEvent e.change)
      (fun _ => Inside sizeEvent e) := by
  rintro l m ⟨c, d, hc, hd, hend, hcache, rfl⟩
  rw [eventBytes_right hcache hc, eventBytes_right rfl hd]
  have hright : ∀ {c : EntryCache Row} {bytes : Nat}, Right sizeEvent e c →
      unitBytes sizeEvent e.change l.rowIndex = .ok bytes →
      Right sizeEvent e { c with eventBytes := some (l.rowIndex, bytes) } := by
    intro c bytes hc hbytes
    have hshown := hc.shown
    refine ⟨⟨hshown.entryStart, hshown.itemBytes, hshown.change, hshown.entryEnd,
      hshown.hint⟩, ?_⟩
    rintro row size ⟨⟩
    rw [show c.change = e.change from hshown.change]
    exact hbytes
  dsimp only
  cases hbytes : unitBytes sizeEvent e.change l.rowIndex with
  | error error => exact rfl
  | ok bytes => exact ⟨rfl, _, _, hright hc hbytes, hright hd hbytes, hend, rfl, rfl⟩

theorem orInvalid_agree {β : Type} {message : String} {x : Option Nat} {f g : Nat → LoadM Row β}
    {P : Loader Row → Loader Row → Prop} {R : β → Loader Row → Loader Row → Prop}
    (h : ∀ n, x = some n → Agree P (f n) (g n) R) :
    Agree P (orInvalid message x >>= f) (orInvalid message x >>= g) R := by
  cases x with
  | none => exact fun _ _ _ => rfl
  | some n => exact h n rfl

theorem charge_agree (take bytesPerEvent : Nat) :
    Agree (Inside sizeEvent e) (charge take bytesPerEvent) (charge take bytesPerEvent)
      (fun _ => Inside sizeEvent e) := by
  unfold charge
  refine Agree.get ?_
  rintro l m ⟨c, d, hc, hd, hend, hcache, rfl⟩
  refine orInvalid_agree fun _ _ => orInvalid_agree fun _ _ =>
    Agree.ite (fun _ => Agree.throw _) fun _ => Agree.set ?_
  exact ⟨c, d, hc, hd, hend, hcache, rfl⟩

theorem currentPosition_agree :
    Agree (@Alike Row) currentPosition currentPosition (fun _ => Alike) := by
  unfold currentPosition
  refine Agree.get ?_
  rintro l m ⟨cache, rfl⟩
  refine Agree.set_bind (Agree.pure _ ?_)
  rintro l' m' ⟨rfl, rfl⟩
  exact ⟨_, rfl⟩

/-- Ending a walk over rows where the load stands. -/
theorem stopHere_agree {P : Loader Row → Loader Row → Prop} (diffs : List Int)
    (h : ∀ l m, P l m → Alike l m) :
    Agree P
      (currentPosition >>= fun position => pure (diffs, LoadProgress.stop position))
      (currentPosition >>= fun position => pure (diffs, LoadProgress.stop position))
      (fun out => AfterRows sizeEvent e (some out.2)) :=
  Agree.bind (currentPosition_agree.strengthen h) fun _ => Agree.pure _ fun _ _ h => h

theorem advanceRow_agree (itemBytes : Nat) :
    Agree (Inside sizeEvent e) (advanceRow before itemBytes e.change)
      (advanceRow before itemBytes e.change) (AfterRows sizeEvent e) := by
  unfold advanceRow
  refine Agree.bind (Agree.modify ?_ : Agree _ _ _ fun _ => Inside sizeEvent e) fun _ =>
    Agree.get ?_
  · rintro l m ⟨c, d, hc, hd, hend, hcache, rfl⟩
    exact ⟨c, d, hc, hd, hend, hcache, rfl⟩
  rintro l m ⟨c, d, hc, hd, hend, hcache, rfl⟩
  refine Agree.ite (fun _ => ?_) fun _ => ?_
  · refine Agree.ite (fun _ => Agree.throw _) fun _ => Agree.ite (fun _ => Agree.throw _)
      fun _ => Agree.set_bind (Agree.ite (fun _ => Agree.pure _ ?_) fun _ =>
        Agree.ite (fun _ => Agree.pure _ ?_) fun _ => Agree.bind
          (Agree.modify ?_ : Agree _ _ _ fun _ => AfterRows sizeEvent e (some .continue))
          fun _ => Agree.pure _ fun _ _ h => h)
    · rintro l' m' ⟨rfl, rfl⟩
      exact ⟨_, rfl⟩
    · rintro l' m' ⟨rfl, rfl⟩
      exact ⟨_, rfl⟩
    · rintro l' m' ⟨rfl, rfl⟩
      exact ⟨⟨c, d, hc, hd, hend, hcache, rfl⟩, hend⟩
  · dsimp only
    split
    · exact Agree.throw _
    · refine Agree.set_bind (Agree.ite (fun _ => ?_) fun _ => Agree.pure _ ?_)
      · refine Agree.bind (currentPosition_agree.strengthen ?_) fun _ => Agree.pure _ fun _ _ h => h
        rintro l' m' ⟨rfl, rfl⟩
        exact ⟨_, rfl⟩
      · rintro l' m' ⟨rfl, rfl⟩
        exact ⟨c, d, hc, hd, hend, hcache, rfl⟩

theorem consumeRows_agree (itemBytes : Nat) (rows : List (Row × Int)) (localDiffs : List Int) :
    Agree (Inside sizeEvent e) (consumeRows sizeEvent before itemBytes e.change rows localDiffs)
      (consumeRows sizeEvent before itemBytes e.change rows localDiffs)
      (fun out => AfterRows sizeEvent e (some out.2)) := by
  induction rows generalizing localDiffs with
  | nil => exact Agree.throw _
  | cons event rows ih =>
    unfold consumeRows
    refine Agree.bind eventBytes_agree fun bytesPerEvent => Agree.get ?_
    rintro l m ⟨c, d, hc, hd, hend, hcache, rfl⟩
    have hinside : ∀ l' m', l' = l ∧ m' = { l with cache := some d } →
        Inside sizeEvent e l' m' := by
      rintro l' m' ⟨rfl, rfl⟩
      exact ⟨c, d, hc, hd, hend, hcache, rfl⟩
    refine Agree.ite (fun _ => Agree.ite (fun _ => Agree.throw _) fun _ =>
      stopHere_agree _ fun l' m' h => (hinside l' m' h).alike) fun _ => ?_
    refine Agree.ofExcept_bind fun diff _ => Agree.bind
      ((charge_agree _ _).strengthen hinside) fun _ => Agree.get ?_
    rintro l' m' ⟨c', d', hc', hd', hend', hcache', rfl⟩
    have hinside' : ∀ l'' m'', l'' = l' ∧ m'' = { l' with cache := some d' } →
        Inside sizeEvent e l'' m'' := by
      rintro l'' m'' ⟨rfl, rfl⟩
      exact ⟨c', d', hc', hd', hend', hcache', rfl⟩
    refine Agree.ite (fun _ => ?_) fun _ => ?_
    · exact stopHere_agree _ fun l m h => (hinside' l m h).alike
    · refine Agree.bind ((advanceRow_agree itemBytes).strengthen hinside') fun progress => ?_
      cases progress with
      | some progress => exact Agree.pure _ fun _ _ h => h
      | none => exact ih _

theorem consumeEntry_agree (hbounded : e.stop < 2 ^ 64) (itemBytes : Nat) :
    Agree (fun l m => Inside sizeEvent e l m ∧ l.entryStart = e.key)
      (consumeEntry sizeEvent before limits itemBytes e.change)
      (consumeEntry sizeEvent before limits itemBytes e.change)
      (fun progress => AfterRows sizeEvent e (some progress)) := by
  unfold consumeEntry
  refine Agree.get ?_
  rintro l m ⟨⟨c, d, hc, hd, hend, hcache, rfl⟩, hstart⟩
  refine Agree.ite (fun _ => Agree.throw _) fun _ => orInvalid_agree fun next _ =>
    Agree.ite (fun _ => Agree.pure _ ?_) fun _ => Agree.set_bind ?_
  · rintro l' m' ⟨rfl, rfl⟩
    exact ⟨_, rfl⟩
  have hlocate : Agree _ _ _ fun _ => Inside sizeEvent e := locatePosition_agree hbounded
  refine Agree.bind (hlocate.strengthen ?_) fun _ => Agree.bind
    (Agree.modify ?_ : Agree _ _ _ fun _ => Inside sizeEvent e) fun _ => Agree.get ?_
  · rintro l' m' ⟨rfl, rfl⟩
    exact ⟨⟨c, d, hc, hd, hend, hcache, rfl⟩, hstart⟩
  · rintro l' m' ⟨c', d', hc', hd', hend', hcache', rfl⟩
    exact ⟨c', d', hc', hd', hend', hcache', rfl⟩
  · rintro l' m' ⟨c', d', hc', hd', hend', hcache', rfl⟩
    refine Agree.bind ((consumeRows_agree itemBytes _ _).strengthen ?_) fun out => Agree.bind
      (?_ : Agree _ _ _ fun _ => AfterRows sizeEvent e (some out.2)) fun _ =>
        Agree.pure _ fun _ _ h => h
    · rintro l'' m'' ⟨rfl, rfl⟩
      exact ⟨c', d', hc', hd', hend', hcache', rfl⟩
    · unfold pushRows
      refine Agree.ite (fun _ => Agree.pure _ fun _ _ h => h) fun _ => Agree.modify ?_
      intro s t hst
      obtain ⟨localDiffs, progress⟩ := out
      cases progress with
      | stop after =>
        obtain ⟨cache, rfl⟩ := hst
        exact ⟨cache, rfl⟩
      | «continue» =>
        obtain ⟨⟨c'', d'', hc'', hd'', hend'', hcache'', rfl⟩, hnext⟩ := hst
        exact ⟨⟨c'', d'', hc'', hd'', hend'', hcache'', rfl⟩, hnext⟩

/-- A cache that is right about every stored entry. -/
def CacheRight (sizeEvent : Change Row → Nat → Except OperationError Nat) (es : List (Entry Row))
    (tail : Nat) (cache : Option (EntryCache Row)) : Prop :=
  CacheOk es tail cache ∧ CacheSized sizeEvent cache

theorem Right.cacheRight {cached : EntryCache Row} (h : Right sizeEvent e cached)
    (htiled : Tiled start es before.tail) (he : e ∈ es) :
    CacheRight sizeEvent es before.tail (some cached) := by
  refine ⟨h.shown.cacheOk htiled he, ?_⟩
  rintro cached' ⟨⟩
  exact h.sized

/-- Both loads stand at the top of their loop, before the same entries. -/
def Beside (sizeEvent : Change Row → Nat → Except OperationError Nat) (before : BufferState)
    (es : List (Entry Row)) (l m : Loader Row) : Prop :=
  Alike l m ∧ CacheRight sizeEvent es before.tail l.cache ∧
    CacheRight sizeEvent es before.tail m.cache ∧
    ∃ gone rest, es = gone ++ rest ∧ Tiled l.entryStart rest before.tail

theorem run_agree (hstored : buffer.entries = stored es) (htiled : Tiled start es before.tail)
    (hload : ∀ e ∈ es, Loadable codec limits before.tail e) (rounds : Nat) :
    Agree (Beside sizeEvent before es) (run codec sizeEvent buffer before limits rounds)
      (run codec sizeEvent buffer before limits rounds) (fun _ => Alike) := by
  induction rounds with
  | zero => exact Agree.throw _
  | succ rounds ih =>
    refine Agree.get ?_
    rintro l m ⟨⟨cache, rfl⟩, hl, hm, gone, rest, hsplit, hrest⟩
    refine Agree.ite (fun _ => Agree.throw _) fun hlt => ?_
    obtain _ | ⟨e, rest⟩ := rest
    · exact absurd (le_of_eq hrest.symm) hlt
    have he : e ∈ es := by
      rw [hsplit]
      exact List.mem_append_right _ List.mem_cons_self
    have hstart : l.entryStart = e.key := hrest.1.symm
    have hstop := (hload e he).stop
    have hbounded := (hload e he).bounded
    -- both loads read the entry, from the store or from a cache that is right
    refine Agree.bind (Agree.of_ok ?_ : Agree _ _ _ fun found l' m' =>
      found = (e.bytes, e.change) ∧ Inside sizeEvent e l' m' ∧ l'.entryStart = e.key)
      fun found => ?_
    · rintro l' m' ⟨rfl, rfl⟩
      obtain ⟨c, hc, hrun⟩ := loadEntry_right hstored hload he hstart hl.1 hl.2
      obtain ⟨d, hd, hrun'⟩ := loadEntry_right (l := { l' with cache }) hstored hload he hstart
        hm.1 hm.2
      exact ⟨_, _, _, hrun, hrun', rfl, ⟨c, d, hc, hd, rfl, rfl, rfl⟩, hstart⟩
    · obtain ⟨itemBytes, change⟩ := found
      intro s t hst
      obtain ⟨hfound, hinside, hstart'⟩ := hst
      cases hfound
      refine Agree.bind (consumeEntry_agree (by omega) e.bytes) (fun progress => ?_) s t
        ⟨hinside, hstart'⟩
      cases progress with
      | stop after => exact Agree.pure _ fun _ _ h => h
      | «continue» =>
        refine ih.strengthen ?_
        rintro l' m' ⟨⟨c, d, hc, hd, hend, hcache, rfl⟩, hnext⟩
        refine ⟨⟨_, rfl⟩, ?_, hd.cacheRight htiled he, gone ++ [e], rest, by simp [hsplit], ?_⟩
        · rw [hcache]
          exact hc.cacheRight htiled he
        · rw [hnext]
          exact hrest.2

theorem finish_agree (after : Position) :
    Agree (@Alike Row) (finish before after) (finish before after) (fun _ => Alike) := by
  unfold finish
  refine Agree.get ?_
  rintro l m ⟨cache, rfl⟩
  dsimp only
  split
  · exact Agree.throw _
  · refine Agree.ofExcept_bind fun _ _ => Agree.ofExcept_bind fun _ _ =>
      Agree.ofExcept_bind fun _ _ => Agree.pure _ ?_
    rintro l' m' ⟨rfl, rfl⟩
    exact ⟨cache, rfl⟩

/-- Two loads with right caches give the same batch or the same error. -/
theorem load_agree (hstored : buffer.entries = stored es)
    (htiled : Tiled before.head.entryStart es before.tail)
    (hload : ∀ e ∈ es, Loadable codec limits before.tail e)
    {cache cache' : Option (EntryCache Row)} (hcache : CacheRight sizeEvent es before.tail cache)
    (hcache' : CacheRight sizeEvent es before.tail cache') :
    (load codec sizeEvent buffer before limits cache).1 =
      (load codec sizeEvent buffer before limits cache').1 := by
  have hagree : Agree (Beside sizeEvent before es) (loadBatch codec sizeEvent buffer before limits)
      (loadBatch codec sizeEvent buffer before limits) (fun _ => Alike) := by
    unfold loadBatch
    exact Agree.ofExcept_bind fun _ _ => Agree.ofExcept_bind fun _ _ => Agree.ite
      (fun _ => Agree.throw _) fun _ => Agree.bind (run_agree hstored htiled hload _)
        fun after => finish_agree after
  have hruns := hagree (.start before limits cache) (.start before limits cache')
    ⟨⟨cache', rfl⟩, hcache, hcache', [], es, rfl, htiled⟩
  unfold load
  cases hrun : loadBatch codec sizeEvent buffer before limits (.start before limits cache) <;>
    cases hrun' : loadBatch codec sizeEvent buffer before limits (.start before limits cache')
  · rw [hrun, hrun'] at hruns
    show Except.ok _ = Except.ok _
    rw [hruns.1]
  · rw [hrun, hrun'] at hruns
    exact hruns.elim
  · rw [hrun, hrun'] at hruns
    exact hruns.elim
  · rw [hrun, hrun'] at hruns
    show Except.error _ = Except.error _
    rw [hruns]

end Agreement

/-! ## Over every run -/

/-- What an outbox admitted, the limits of a delivery admit. -/
theorem Rep.loadable {sink : BufferedSink Row} {b : BufferState} {es : List (Entry Row)}
    (h : Rep sink b es) (maxEvents : Nat) :
    ∀ e ∈ es, Loadable sink.codec (deliveryLimits maxEvents) b.tail e := by
  intro e he
  have hadmitted := h.admitted e he
  exact ⟨hadmitted.decoded, hadmitted.small, (by decide : maxDeliveryBytes < 2 ^ 64), (h.tiled.mem_range he).2, h.bounded⟩

/-- What a load of the sink finds, by the state it restores. -/
def found (sink : BufferedSink Row) (outbox : Outbox) (cache : Option (EntryCache Row))
    (limits : LoadLimits) : Option State → Except OperationError (Option (SinkPending Row))
  | none => .ok (some (.initialization true))
  | some .initializing => .ok (some (.initialization false))
  | some (.ready ready) =>
    if ready.isEmpty then .ok none
    else (load sink.codec sink.eventBytes outbox.buffer ready limits cache).1.map fun batch =>
      some (.loaded ready batch)

theorem load_fst (sink : BufferedSink Row) (outbox : Outbox) (memory : Memory Row)
    (limits : LoadLimits) :
    (sink.load outbox memory limits).1 =
      (sink.decodeRestored outbox memory.recovered).bind
        (found sink outbox memory.headCache limits) := by
  unfold BufferedSink.load
  split
  · next hrestored => rw [hrestored]; rfl
  · next hrestored => rw [hrestored]; rfl
  · next hrestored => rw [hrestored]; rfl
  · next ready hrestored =>
    rw [hrestored]
    show _ = (if ready.isEmpty then .ok none
      else (load sink.codec sink.eventBytes outbox.buffer ready limits memory.headCache).1.map
        fun batch => some (SinkPending.loaded ready batch) :
          Except OperationError (Option (SinkPending Row)))
    by_cases hempty : ready.isEmpty
    · rw [if_pos hempty, if_pos hempty]
    · rw [if_neg hempty, if_neg hempty]
      split
      · next hload => rw [hload]; rfl
      · next hload => rw [hload]; rfl

/-- In every state of every run, a load gives the same result with the cache that was left and
without one. -/
theorem head_cache_invisible (sink : BufferedSink Row) (s : System Row)
    (h : System.Reachable sink s) (maxEvents : Nat) :
    (sink.load s.outbox s.memory (deliveryLimits maxEvents)).1 =
      (sink.load s.outbox { s.memory with headCache := none } (deliveryLimits maxEvents)).1 := by
  obtain ⟨b, es, hinv⟩ := reachable_inv h
  have hrep := hinv.held.rep
  rw [load_fst, load_fst]
  cases hrestored : sink.decodeRestored s.outbox s.memory.recovered with
  | error error => rfl
  | ok state =>
    show found sink s.outbox s.memory.headCache _ state = found sink s.outbox none _ state
    match state with
    | none => rfl
    | some .initializing => rfl
    | some (.ready ready) =>
      obtain rfl := decodeRestored_ready hinv.held hrestored
      have hnone : CacheRight sink.eventBytes es ready.tail none :=
        ⟨fun cached hcached => (by cases hcached), fun cached hcached => (by cases hcached)⟩
      have hagree := load_agree hinv.held.stored hrep.tiled (hrep.loadable maxEvents)
        ⟨hinv.cache, reachable_sized h⟩ hnone
      simp only [found, hagree]

/-! ### A hint ahead of the head -/

/-- Initialization, a change, and a load of two events that is never settled. -/
def aheadRun : List (Action Unit) :=
  [.load ⟨2, 100, 100, 100⟩, .persistInitialize 0 true, .settle 0 true, .enqueue threeAndTwo true,
    .load ⟨2, 100, 100, 100⟩]

def aheadSystem : System Unit := aheadRun.foldl (System.step weightSink) {}

/-- The number of the first event of the batch that was found, and the differences of its rows. -/
def foundBatch : Except OperationError (Option (SinkPending Unit)) → Option (Nat × List Int)
  | .ok (some (.loaded _ batch)) =>
    some (batch.delivery.firstEventOffset, batch.delivery.change.events.map (·.2))
  | _ => none

/-- The cached position is event 3, the durable head is event 1, and both loads start there. -/
theorem head_cache_invisible_ahead :
    (aheadSystem.memory.headCache.bind (·.positionHint)).map (·.eventOffset) = some 3 ∧
      nextDelivery aheadSystem.outbox = 1 ∧
      foundBatch (weightSink.load aheadSystem.outbox aheadSystem.memory (deliveryLimits 4)).1 =
        some (1, [3, -1]) ∧
      (weightSink.load aheadSystem.outbox aheadSystem.memory (deliveryLimits 4)).1 =
        (weightSink.load aheadSystem.outbox { aheadSystem.memory with headCache := none }
          (deliveryLimits 4)).1 :=
  ⟨by decide +kernel, by decide +kernel, by decide +kernel,
    head_cache_invisible weightSink aheadSystem (reachable_foldl aheadRun .fresh) 4⟩

end Dogpaddle.Buffered
