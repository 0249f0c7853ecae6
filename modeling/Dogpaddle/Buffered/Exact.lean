import Dogpaddle.Buffered.Represent

/-!
# Nothing is lost or delivered twice

Over every run of enqueues, loads, settlements, rollbacks and reopenings:

* what was settled, followed by what the outbox still holds, is what was accepted, event by
  event and number by number;
* the entries tile the event numbers between the head and the tail, and the control state
  counts their bytes;
* the check of a reopened runtime accepts the outbox.

A load that is settled late meets more entries than it saw, never fewer: `Load.pending`
says so, and numbers are never reused, so that a load made before another settlement is
refused.
-/

namespace Dogpaddle.Buffered

open Lib

variable {Row : Type} {sink : BufferedSink Row} {outbox : Outbox} {b : BufferState}
  {es : List (Entry Row)}

/-! ## Enqueueing -/

/-- What is known of an admission. -/
theorem prepareAdmission_spec {page : Change Row} {events : Nat}
    {admission : BufferedSink.Admission} (h : sink.prepareAdmission page events = .ok admission) :
    events ≤ maxBufferedEvents ∧ sink.validateEventSizes page = .ok () ∧
      sink.codec.decode admission.encodedChange = .ok page ∧
      admission.itemBytes = admission.encodedChange.length + mapKeyBytes ∧
      admission.itemBytes ≤ maxDeliveryBytes ∧ admission.events = events := by
  unfold BufferedSink.prepareAdmission at h
  obtain ⟨-, h⟩ := except_ite_eq_ok.mp h
  obtain ⟨hfew, h⟩ := except_ite_eq_ok.mp h
  obtain ⟨⟨⟩, hsized, h⟩ := except_bind_eq_ok.mp h
  obtain ⟨encoded, hencoded, h⟩ := except_bind_eq_ok.mp h
  obtain ⟨itemBytes, hitem, h⟩ := except_bind_eq_ok.mp h
  obtain ⟨hsmall, h⟩ := except_ite_eq_ok.mp h
  cases h
  refine ⟨by omega, hsized, ?_, (encodedItemBytes_eq_ok.mp hitem).1,
    Nat.le_of_not_lt hsmall, rfl⟩
  exact sink.codec.decode_encode _ _ _ (mapError_eq_ok.mp hencoded)

theorem fits_spec {admission : BufferedSink.Admission}
    (h : BufferedSink.fits b admission = true) :
    b.pendingEvents + admission.events ≤ maxBufferedEvents ∧
      b.retainedBytes + admission.itemBytes ≤ maxRetainedBytes := by
  unfold BufferedSink.fits checkedAdd at h
  split at h
  · cases h
  · split at * <;> split at * <;> simp_all

/-- An accepted change is one more entry, at the tail. -/
theorem tryEnqueue_spec (h : Held sink outbox b es) {page : Change Row} {next : Outbox}
    (hrun : sink.tryEnqueue outbox page = .ok (some next)) :
    outbox.control = some (State.ready b).encode ∧ ∃ encoded,
      Held sink next ⟨b.head, b.tail + count page.events, b.retainedBytes + (encoded.length + 8)⟩
        (es ++ [⟨b.tail, encoded, page⟩]) := by
  unfold BufferedSink.tryEnqueue at hrun
  obtain ⟨-, hrun⟩ := except_ite_eq_ok.mp hrun
  split at hrun
  · cases hrun
  next encoded hcontrol =>
  split at hrun
  · cases hrun
  · cases hrun
  next ready hdecode =>
  obtain ⟨rfl, hready⟩ := h.eq_of_decode hcontrol hdecode
  refine ⟨hready, ?_⟩
  have hrep := h.rep
  unfold BufferedSink.enqueueReady at hrun
  obtain ⟨-, -, hrun⟩ := except_bind_eq_ok.mp hrun
  obtain ⟨events, hcount, hrun⟩ := except_bind_eq_ok.mp hrun
  obtain ⟨rfl, -⟩ := eventCount_eq_ok.mp hcount
  split at hrun
  · cases hrun
  next tail htail =>
  obtain ⟨rfl, hbounded⟩ := checkedAdd_eq_some.mp htail
  obtain ⟨admission, hadmission, hrun⟩ := except_bind_eq_ok.mp hrun
  obtain ⟨hfew, hsized, hdecoded, hitem, hsmall, hevents⟩ := prepareAdmission_spec hadmission
  split at hrun
  · cases hrun
  next hfits =>
  obtain ⟨hpending, hretained⟩ := fits_spec (by simpa using hfits)
  obtain ⟨-, -, hrun⟩ := except_bind_eq_ok.mp hrun
  obtain ⟨-, hrun⟩ := except_ite_eq_ok.mp hrun
  cases hrun
  have hlast : ∀ entry ∈ outbox.buffer.entries, entry.1 < ready.tail := by
    intro entry hentry
    rw [h.stored] at hentry
    obtain ⟨e, he, rfl⟩ := List.mem_map.mp hentry
    have hrange := (hrep.tiled.mem_range he).2
    have hlt := e.key_lt_stop
    show e.key < ready.tail
    omega
  refine ⟨admission.encodedChange, .ready ?_ ?_ ?_⟩
  · rw [hitem]
    rfl
  · rw [OrdMap.entries_put_of_lt _ hlast, h.stored]
    simp [stored]
  · have hrange := hrep.head_range
    refine ⟨?_, ?_, ?_, ?_, hrep.started, ?_, ?_, hbounded⟩
    · exact Tiled.append_iff.mpr ⟨ready.tail, hrep.tiled, rfl, rfl⟩
    · intro e he
      rcases List.mem_append.mp he with he | he
      · exact hrep.admitted e he
      · rw [List.mem_singleton.mp he]
        exact ⟨hdecoded, by rw [← show _ = Entry.bytes _ from hitem]; exact hsmall, hsized, hfew⟩
    · exact hrep.placed.append hrep.tiled ⟨rfl, rfl⟩
    · rw [weight_append, ← hrep.bytes]
      rfl
    · show ready.tail + count page.events - ready.head.eventOffset ≤ _
      unfold BufferState.pendingEvents at hpending
      omega
    · show ready.retainedBytes + (_ + 8) ≤ _
      rw [hitem] at hretained
      exact hretained

/-! ## Settling -/

/-- What is still to be delivered, with its numbers. -/
def waiting (b : BufferState) (es : List (Entry Row)) : List ((Row × Bool) × Nat) :=
  ((units (stock es)).drop (b.head.eventOffset - b.head.entryStart)).zipIdx b.head.eventOffset

/-- A load of this runtime and the outbox as it is now: another load was settled since, or
the entries it saw are still there, followed by newer ones. -/
inductive Load.Pending (b : BufferState) (es : List (Entry Row)) : SinkPending Row → Prop
  | initialization (fresh : Bool) : Load.Pending b es (.initialization fresh)
  | settled {before : BufferState} {batch : LoadedBatch Row}
      (past : before.head.eventOffset < b.head.eventOffset) : Load.Pending b es (.loaded before batch)
  | standing {before : BufferState} {batch : LoadedBatch Row} {gone rest extra : List (Entry Row)}
      (head : before.head = b.head) (split : es = gone ++ rest ++ extra)
      (placed : HeadIn before.head (gone ++ rest))
      (newer : Tiled before.tail extra b.tail) (bytes : before.retainedBytes = weight (gone ++ rest))
      (cut : Cut before (gone ++ rest) batch gone rest) : Load.Pending b es (.loaded before batch)

namespace Cut

variable {before : BufferState} {batch : LoadedBatch Row} {gone rest : List (Entry Row)}

theorem tiled (h : Cut before es batch gone rest) : Tiled before.head.entryStart es before.tail := by
  rw [h.split]
  exact Tiled.append_iff.mpr ⟨_, h.before_tiled, h.after_tiled⟩

/-- The head moves by the number of units delivered. -/
theorem offset (h : Cut before es batch gone rest) (hplaced : HeadIn before.head es) :
    before.head.eventOffset + count batch.delivery.change.events =
      batch.after.head.eventOffset := by
  have hbefore := hplaced.range_iff h.tiled
  have hafter := h.placed.range_iff h.after_tiled
  have hlength := congrArg List.length h.delivered
  rw [List.length_append, List.length_drop, List.length_drop, length_units, length_units,
    length_units] at hlength
  have htail := h.tiled.tail_eq
  have htail' := h.after_tiled.tail_eq
  omega

end Cut

/-- Removing the first entries leaves the others. -/
theorem removeConsumed_spec {gone rest : List (Entry Row)} {start tail : Nat}
    {buffer next : OrdMap Nat Bytes} (hstored : buffer.entries = stored (gone ++ rest))
    (htiled : Tiled start (gone ++ rest) tail)
    (h : BufferedSink.removeConsumed (gone.map Entry.key) buffer = .ok next) :
    next.entries = stored rest := by
  induction gone generalizing buffer start with
  | nil =>
    cases h
    exact hstored
  | cons e gone ih =>
    obtain ⟨rfl, htiled⟩ := htiled
    rw [List.map_cons, BufferedSink.removeConsumed] at h
    split at h
    · refine ih ?_ htiled h
      have hrest : ∀ entry ∈ stored (gone ++ rest), decide (entry.1 ≠ e.key) = true := by
        intro entry hentry
        obtain ⟨f, hf, rfl⟩ := List.mem_map.mp hentry
        have hle := (htiled.mem_range hf).1
        have hlt := e.key_lt_stop
        have hne : f.key ≠ e.key := by omega
        exact decide_eq_true hne
      show buffer.entries.filter _ = _
      rw [hstored]
      show List.filter _ ((e.key, e.encoded) :: stored (gone ++ rest)) = _
      rw [List.filter_cons_of_neg (by simp), List.filter_eq_self.mpr hrest]
    · cases h

/-- A settlement of a load removes what it delivered from the front. -/
theorem settleLoaded_spec (hrep : Rep sink b es) (hstored : outbox.buffer.entries = stored es)
    {before : BufferState} {batch : LoadedBatch Row} {next : BufferState}
    {buffer : OrdMap Nat Bytes} (hpending : Load.Pending b es (.loaded before batch))
    (hrun : BufferedSink.settleLoaded outbox b before batch = .ok (next, buffer)) :
    ∃ es', buffer.entries = stored es' ∧ Rep sink next es' ∧ (∀ e ∈ es', e ∈ es) ∧
      next.tail = b.tail ∧ b.head.eventOffset < next.head.eventOffset ∧
      waiting b es = System.delivered (.loaded before batch) ++ waiting next es' := by
  unfold BufferedSink.settleLoaded at hrun
  obtain ⟨-, -, hrun⟩ := except_bind_eq_ok.mp hrun
  obtain ⟨hfront, hrun⟩ := except_ite_eq_ok.mp hrun
  obtain ⟨hunder, hrun⟩ := except_ite_eq_ok.mp hrun
  obtain ⟨hconsumed, hrun⟩ := except_ite_eq_ok.mp hrun
  obtain ⟨-, -, hrun⟩ := except_bind_eq_ok.mp hrun
  obtain ⟨buffer', hremove, hrun⟩ := except_bind_eq_ok.mp hrun
  cases hrun
  have hhead : b.head = before.head := by
    by_contra hne
    exact hfront (.inl hne)
  cases hpending with
  | settled past =>
    rw [hhead] at past
    exact absurd past (lt_irrefl _)
  | @standing _ _ gone rest extra head split placed newer bytes cut =>
    have hmoved := cut.offset placed
    have hpos := count_pos batch.delivery.change
    have hbytes := hrep.bytes
    subst split
    rw [List.append_assoc] at hstored hrep
    refine ⟨rest ++ extra, ?_, ?_, ?_, rfl, ?_, ?_⟩
    · rw [cut.keys] at hremove
      exact removeConsumed_spec hstored hrep.tiled hremove
    · refine ⟨?_, ?_, ?_, ?_, ?_, ?_, ?_, hrep.bounded⟩
      · exact Tiled.append_iff.mpr ⟨_, cut.after_tiled, newer⟩
      · intro e he
        exact hrep.admitted e (List.mem_append_right _ he)
      · exact cut.placed.append cut.after_tiled newer
      · show b.retainedBytes - (before.retainedBytes - batch.after.retainedBytes) = _
        rw [hbytes, bytes, cut.bytes]
        simp only [weight_append]
        omega
      · have hstart := cut.before_tiled.tail_eq
        have hstarted := hrep.started
        rw [hhead] at hstarted
        show 0 < batch.after.head.entryStart
        omega
      · have hevents := hrep.events
        unfold BufferState.pendingEvents at hevents ⊢
        rw [hhead] at hevents
        show b.tail - batch.after.head.eventOffset ≤ _
        omega
      · exact (Nat.sub_le _ _).trans hrep.retained
    · intro e he
      rw [List.append_assoc]
      exact List.mem_append_right _ he
    · rw [hhead]
      show before.head.eventOffset < batch.after.head.eventOffset
      omega
    · have hrange := placed.range_iff cut.tiled
      have htail := cut.tiled.tail_eq
      have hrange' := cut.placed.range_iff cut.after_tiled
      have htail' := cut.after_tiled.tail_eq
      show waiting b _ = numbered _ _ ++ _
      unfold waiting numbered
      dsimp only
      rw [hhead, stock_append (gone ++ rest), units_append, List.drop_append_of_le_length
        (by rw [length_units]; omega), ← cut.delivered, List.append_assoc, List.zipIdx_append,
        length_units, cut.first, hmoved, stock_append rest, units_append,
        List.drop_append_of_le_length (by rw [length_units]; omega)]

/-! ## The invariant -/

/-- What holds of every state of every run. -/
structure Inv (sink : BufferedSink Row) (s : System Row) (b : BufferState)
    (es : List (Entry Row)) : Prop where
  held : Held sink s.outbox b es
  history : s.accepted = s.settled ++ waiting b es
  cache : CacheOk es b.tail s.memory.headCache
  loads : ∀ pending ∈ s.loads, Load.Pending b es pending

theorem CacheOk.mono {tail tail' : Nat} {es' : List (Entry Row)}
    {cache : Option (EntryCache Row)} (h : CacheOk es tail cache) (htail : tail ≤ tail')
    (hold : ∀ e ∈ es', e ∈ es ∨ tail ≤ e.key) : CacheOk es' tail' cache := by
  intro cached hcached
  obtain ⟨hlt, hshown⟩ := h cached hcached
  refine ⟨by omega, ?_⟩
  intro e he hkey
  rcases hold e he with hin | hnew
  · exact hshown e hin hkey
  · omega

theorem CacheOk.filter {tail : Nat} {cache : Option (EntryCache Row)} (h : CacheOk es tail cache)
    (keep : EntryCache Row → Bool) : CacheOk es tail (cache.filter keep) := by
  intro cached hcached
  exact h cached (Option.filter_eq_some_iff.mp hcached).1

/-- Newer entries behind those a load saw. -/
theorem Load.Pending.append {pending : SinkPending Row} (h : Load.Pending b es pending)
    {b' : BufferState} {extra : List (Entry Row)} (hhead : b'.head = b.head)
    (htiled : Tiled b.tail extra b'.tail) : Load.Pending b' (es ++ extra) pending := by
  cases h with
  | initialization fresh => exact .initialization fresh
  | settled past => exact .settled (by rw [hhead]; exact past)
  | standing head split placed newer bytes cut =>
    refine .standing (head.trans hhead.symm) (by rw [split, List.append_assoc]) placed ?_ bytes cut
    exact Tiled.append_iff.mpr ⟨_, newer, htiled⟩

/-- After another settlement a load is late. -/
theorem Load.Pending.late {pending : SinkPending Row} (h : Load.Pending b es pending)
    {b' : BufferState} {es' : List (Entry Row)}
    (hmoved : b.head.eventOffset < b'.head.eventOffset) : Load.Pending b' es' pending := by
  cases h with
  | initialization fresh => exact .initialization fresh
  | settled past => exact .settled (past.trans hmoved)
  | standing head split placed newer bytes cut => exact .settled (by rw [head]; exact hmoved)

/-- An accepted change waits behind everything else. -/
theorem waiting_append (hrep : Rep sink b es) (e : Entry Row)
    (b' : BufferState) (hhead : b'.head = b.head) :
    waiting b' (es ++ [e]) = waiting b es ++ numbered b.tail e.change.events := by
  obtain ⟨hle, hlast, -⟩ := hrep.head_range
  have htail := hrep.tiled.tail_eq
  unfold waiting numbered
  rw [hhead, stock_append, units_append, List.drop_append_of_le_length
    (by rw [length_units]; omega), List.zipIdx_append, List.length_drop, length_units, stock_cons,
    stock_nil, List.append_nil]
  congr 2
  omega

/-- A restored ready state is the control state. -/
theorem decodeRestored_ready (h : Held sink outbox b es) {recovered : Bool} {ready : BufferState}
    (hrun : sink.decodeRestored outbox recovered = .ok (some (.ready ready))) : ready = b := by
  unfold BufferedSink.decodeRestored at hrun
  split at hrun
  · obtain ⟨-, -, hrun⟩ := except_bind_eq_ok.mp hrun
    cases hrun
  · next encoded hcontrol =>
    obtain ⟨state, hdecode, hrun⟩ := except_bind_eq_ok.mp hrun
    obtain ⟨-, -, hrun⟩ := except_bind_eq_ok.mp hrun
    cases hrun
    exact (h.eq_of_decode hcontrol hdecode).1

/-- A load leaves the cache right, and what it found is what stands. -/
theorem load_spec (h : Held sink outbox b es) {memory : Memory Row}
    (hcache : CacheOk es b.tail memory.headCache) (limits : LoadLimits) :
    CacheOk es b.tail (sink.load outbox memory limits).2.headCache ∧
      ∀ pending, (sink.load outbox memory limits).1 = .ok (some pending) →
        Load.Pending b es pending := by
  unfold BufferedSink.load
  split
  · exact ⟨hcache, fun pending hload => by cases hload⟩
  · refine ⟨hcache, ?_⟩
    rintro pending ⟨⟩
    exact .initialization true
  · refine ⟨hcache, ?_⟩
    rintro pending ⟨⟩
    exact .initialization false
  · next ready hrestored =>
    obtain rfl := decodeRestored_ready h hrestored
    have hrep := h.rep
    split
    · exact ⟨hcache, fun pending hload => by cases hload⟩
    · have hcut : CacheOk es ready.tail (Buffered.load sink.codec sink.eventBytes outbox.buffer
          ready limits memory.headCache).2 ∧ _ :=
        load_cut h.stored hrep.tiled (fun e he => (hrep.admitted e he).decoded) hrep.placed
          hrep.bytes hcache
      split
      · next batch headCache hbatch =>
        rw [hbatch] at hcut
        refine ⟨hcut.1, ?_⟩
        rintro pending ⟨⟩
        obtain ⟨gone, rest, hcut⟩ := hcut.2 batch rfl
        have hsplit := hcut.split
        subst hsplit
        exact .standing rfl (List.append_nil _).symm hrep.placed rfl hrep.bytes hcut
      · next error headCache hbatch =>
        rw [hbatch] at hcut
        exact ⟨hcut.1, fun pending hload => by cases hload⟩

section Steps

variable {s : System Row}

theorem enqueue_inv (h : Inv sink s b es) (page : Change Row) :
    ∃ b' es', Inv sink (s.enqueue sink page) b' es' := by
  unfold System.enqueue
  split
  · next outbox hrun =>
    obtain ⟨hcontrol, encoded, hheld⟩ := tryEnqueue_spec h.held hrun
    have hrep := h.held.rep
    have hnext : System.nextEvent s.outbox = b.tail := by
      unfold System.nextEvent
      rw [hcontrol, Option.map_some, hrep.decode_encode]
    refine ⟨_, _, hheld, ?_, ?_, ?_⟩
    · rw [waiting_append hrep _ ⟨b.head, b.tail + count page.events, _⟩ rfl, h.history, hnext,
        List.append_assoc]
    · refine h.cache.mono (Nat.le_add_right _ _) fun e he => ?_
      rcases List.mem_append.mp he with hin | hnew
      · exact .inl hin
      · rw [List.mem_singleton.mp hnew]
        exact .inr le_rfl
    · exact fun pending hpending => (h.loads pending hpending).append rfl ⟨rfl, rfl⟩
  · exact ⟨b, es, h⟩

theorem load_inv (h : Inv sink s b es) (limits : LoadLimits) :
    Inv sink (s.load sink limits) b es := by
  obtain ⟨hcache, hpending⟩ := load_spec h.held h.cache limits
  unfold System.load
  split
  · next pending memory hload =>
    rw [hload] at hcache hpending
    refine ⟨h.held, h.history, hcache, fun pending' hmem => ?_⟩
    rcases List.mem_append.mp hmem with hin | hnew
    · exact h.loads pending' hin
    · rw [List.mem_singleton.mp hnew]
      exact hpending pending rfl
  · next result memory _ hload =>
    rw [hload] at hcache
    exact ⟨h.held, h.history, hcache, h.loads⟩

theorem persistInitialize_inv (h : Inv sink s b es) {pending : SinkPending Row} {outbox : Outbox}
    (hrun : BufferedSink.persistInitialize s.outbox pending = .ok outbox) :
    Inv sink { s with outbox } b es := by
  suffices hheld : Held sink outbox b es from ⟨hheld, h.history, h.cache, h.loads⟩
  unfold BufferedSink.persistInitialize at hrun
  split at hrun
  · split at hrun
    · next hcontrol =>
      cases hrun
      cases h.held with
      | ready control entries rep => rw [hcontrol] at control; cases control
      | fresh control entries buffer entry => exact .fresh (.inr rfl) entries buffer entry
    · split at hrun
      · cases hrun
      · cases hrun
        exact h.held
      · cases hrun
  · cases hrun

/-- What a settlement does to the outbox. -/
theorem settleReady_spec (h : Inv sink s b es) {pending : SinkPending Row} (hmem : pending ∈ s.loads)
    {next : BufferState} {buffer : OrdMap Nat Bytes}
    (hrun : BufferedSink.settleReady s.outbox pending = .ok (next, buffer)) :
    ∃ es', buffer.entries = stored es' ∧ Rep sink next es' ∧ (∀ e ∈ es', e ∈ es) ∧
      next.tail = b.tail ∧ (∀ pending, Load.Pending b es pending → Load.Pending next es' pending) ∧
      waiting b es = System.delivered pending ++ waiting next es' := by
  unfold BufferedSink.settleReady at hrun
  split at hrun
  · cases hrun
  next encoded hcontrol =>
  split at hrun
  · cases hrun
  · next hdecode =>
    -- initialization: the outbox is empty and stays so
    obtain ⟨rfl, rfl⟩ := h.held.of_initializing hcontrol hdecode
    cases hrun
    exact ⟨[], h.held.stored, rep_empty, fun e he => he, rfl, fun _ hp => hp, rfl⟩
  · next current before batch hdecode =>
    obtain ⟨rfl, -⟩ := h.held.eq_of_decode hcontrol hdecode
    obtain ⟨es', hstored, hrep, hsub, htail, hmoved, hwaiting⟩ :=
      settleLoaded_spec h.held.rep h.held.stored (h.loads _ hmem) hrun
    exact ⟨es', hstored, hrep, hsub, htail, fun _ hp => hp.late hmoved, hwaiting⟩
  · cases hrun

theorem settle_inv (h : Inv sink s b es) {pending : SinkPending Row} (hmem : pending ∈ s.loads)
    (committed : Bool) : ∃ b' es', Inv sink (s.settle pending committed) b' es' := by
  unfold System.settle
  split
  · exact ⟨b, es, h⟩
  next outbox memory hrun =>
  unfold BufferedSink.settle at hrun
  obtain ⟨⟨next, buffer⟩, hready, hrun⟩ := except_bind_eq_ok.mp hrun
  cases hrun
  obtain ⟨es', hstored, hrep, hsub, htail, hloads, hwaiting⟩ := settleReady_spec h hmem hready
  cases committed with
  | false => exact ⟨b, es, h.held, h.history, h.cache.filter _, h.loads⟩
  | true =>
    refine ⟨next, es', .ready rfl hstored hrep, ?_, ?_, ?_⟩
    · show s.accepted = s.settled ++ System.delivered pending ++ waiting next es'
      rw [h.history, hwaiting, List.append_assoc]
    · exact (h.cache.filter _).mono htail.symm.le fun e he => .inl (hsub e he)
    · exact fun pending hpending => hloads pending (h.loads pending hpending)

theorem step_inv (h : Inv sink s b es) (action : Action Row) :
    ∃ b' es', Inv sink (s.step sink action) b' es' := by
  unfold System.step
  cases action with
  | enqueue page committed =>
    cases committed with
    | true => exact enqueue_inv h page
    | false => exact ⟨b, es, h⟩
  | load limits => exact ⟨b, es, load_inv h limits⟩
  | persistInitialize index committed =>
    dsimp only
    split
    · exact ⟨b, es, h⟩
    · split
      · next outbox hrun =>
        cases committed with
        | true => exact ⟨b, es, persistInitialize_inv h hrun⟩
        | false => exact ⟨b, es, h⟩
      · exact ⟨b, es, h⟩
  | settle index committed =>
    dsimp only
    split
    · exact ⟨b, es, h⟩
    · next pending hpending => exact settle_inv h (List.mem_of_getElem? hpending) committed
  | reopen =>
    refine ⟨b, es, h.held, h.history, ?_, ?_⟩
    · intro cached hcached
      cases hcached
    · intro pending hmem
      cases hmem

end Steps

theorem reachable_inv {s : System Row} (h : System.Reachable sink s) : ∃ b es, Inv sink s b es := by
  induction h with
  | fresh =>
    refine ⟨.empty, [], .fresh (.inl rfl) rfl rfl rfl, rfl, ?_, ?_⟩
    · intro cached hcached
      cases hcached
    · intro pending hmem
      cases hmem
  | step action hreach ih =>
    obtain ⟨b, es, hinv⟩ := ih
    exact step_inv hinv action

/-! ## Over every run -/

/-- The number of the next event to deliver. -/
def nextDelivery (outbox : Outbox) : Nat :=
  match outbox.control.map decode with
  | some (.ok (.ready ready)) => ready.head.eventOffset
  | _ => 1

/-- The events an outbox still holds: those of its stored entries, each entry numbered from
its key on, without the ones before the head. -/
def remaining (sink : BufferedSink Row) (outbox : Outbox) : List ((Row × Bool) × Nat) :=
  (outbox.buffer.entries.flatMap fun entry =>
    match sink.codec.decode entry.2 with
    | .ok change => numbered entry.1 change.events
    | .error _ => []).filter fun event => nextDelivery outbox ≤ event.2

/-- The representation invariant of an outbox. -/
def Represents (sink : BufferedSink Row) (outbox : Outbox) : Prop :=
  match outbox.control.map decode with
  | none => outbox.buffer.entries = []
  | some (.error _) => False
  | some (.ok .initializing) => outbox.buffer.entries = []
  | some (.ok (.ready ready)) =>
    ∃ es : List (Entry Row), outbox.buffer.entries = stored es ∧
      (∀ e ∈ es, sink.codec.decode e.encoded = .ok e.change) ∧
      Tiled ready.head.entryStart es ready.tail ∧ HeadIn ready.head es ∧
      ready.retainedBytes = (outbox.buffer.entries.map fun entry => entry.2.length + 8).sum ∧
      sink.validateBuffer ready outbox.buffer = .ok ()

/-- The entries' events, numbered by their keys, are numbered in one sequence. -/
theorem flatMap_numbered (hdecoded : ∀ e ∈ es, sink.codec.decode e.encoded = .ok e.change)
    {start tail : Nat} (htiled : Tiled start es tail) :
    ((stored es).flatMap fun entry =>
      match sink.codec.decode entry.2 with
      | .ok change => numbered entry.1 change.events
      | .error _ => []) = numbered start (stock es) := by
  induction es generalizing start with
  | nil => rfl
  | cons e es ih =>
    obtain ⟨rfl, htiled⟩ := htiled
    show _ ++ List.flatMap _ (stored es) = _
    rw [ih (fun f hf => hdecoded f (List.mem_cons_of_mem _ hf)) htiled]
    dsimp only
    rw [hdecoded e List.mem_cons_self]
    unfold numbered
    rw [stock_cons, units_append, List.zipIdx_append, length_units]
    rfl

/-- Leaving out the numbers before the head leaves out the units before it. -/
theorem filter_zipIdx {α : Type} (l : List α) (start offset : Nat) (h : start ≤ offset) :
    (l.zipIdx start).filter (fun x => decide (offset ≤ x.2)) =
      (l.drop (offset - start)).zipIdx offset := by
  induction l generalizing start with
  | nil => simp
  | cons a l ih =>
    rcases Nat.eq_or_lt_of_le h with rfl | hlt
    · rw [Nat.sub_self, List.drop_zero, List.filter_eq_self]
      intro x hx
      have := List.le_snd_of_mem_zipIdx hx
      simpa using this
    · rw [List.zipIdx_cons, List.filter_cons_of_neg (by simpa using hlt), ih _ hlt]
      congr 1
      rw [show offset - start = (offset - (start + 1)) + 1 by omega, List.drop_succ_cons]

theorem remaining_of_held (h : Held sink outbox b es) : remaining sink outbox = waiting b es := by
  have hrep := h.rep
  have hnext : nextDelivery outbox = b.head.eventOffset := by
    unfold nextDelivery
    cases h with
    | ready control entries rep => rw [control, Option.map_some, rep.decode_encode]
    | fresh control entries buffer entry =>
      subst buffer
      rcases control with control | control
      · rw [control]
        rfl
      · rw [control, Option.map_some, decode_initializing]
        rfl
  unfold remaining
  rw [h.stored, flatMap_numbered (fun e he => (hrep.admitted e he).decoded) hrep.tiled, hnext]
  exact filter_zipIdx _ _ _ hrep.head_range.1

theorem represents_of_held (h : Held sink outbox b es) : Represents sink outbox := by
  unfold Represents
  cases h with
  | ready control entries rep =>
    rw [control, Option.map_some, rep.decode_encode]
    refine ⟨es, entries, fun e he => (rep.admitted e he).decoded, rep.tiled, rep.placed, ?_,
      validateBuffer_of_rep rep entries⟩
    rw [rep.bytes, entries, stored, List.map_map]
    rfl
  | fresh control entries buffer entry =>
    rcases control with control | control
    · rw [control]
      exact entries
    · rw [control, Option.map_some, decode_initializing]
      exact entries

/-- In every state of every run nothing is lost or delivered twice, the outbox is well
formed, and a reopened runtime accepts it. -/
theorem outbox_exact (sink : BufferedSink Row) (s : System Row) (h : System.Reachable sink s) :
    s.settled ++ remaining sink s.outbox = s.accepted ∧ Represents sink s.outbox ∧
      ∃ state, sink.decodeRestored s.outbox false = .ok state := by
  obtain ⟨b, es, hinv⟩ := reachable_inv h
  refine ⟨?_, represents_of_held hinv.held, hinv.held.decodeRestored false⟩
  rw [remaining_of_held hinv.held, hinv.history]

/-! ### A delivery that ends inside a row -/

/-- One byte per row of a table without columns: its difference, the high bit a retraction. -/
def decodeWeights (encoded : Bytes) : Option (Change Unit) :=
  Change.tryNew 0 (encoded.map fun byte =>
    ((), if byte.toNat < 128 then (byte.toNat : Int) else -((byte.toNat - 128 : Nat) : Int)))

def encodeWeights (change : Change Unit) : Bytes :=
  change.events.map fun event =>
    UInt8.ofNat (if 0 < event.2 then event.2.natAbs else 128 + event.2.natAbs)

/-- The codec of such a table, for differences that fit. -/
def weightCodec : SchemaBoundChangeCodec Unit where
  encodeBounded change limit :=
    if decodeWeights (encodeWeights change) = some change then
      if (encodeWeights change).length ≤ limit then .ok (encodeWeights change)
      else .error (.encodedSizeLimitExceeded limit)
    else .error (.invalid "a difference does not fit a byte")
  decode encoded :=
    match decodeWeights encoded with
    | some change => .ok change
    | none => .error (.invalid "a change cannot be empty")
  decode_encode change limit encoded h := by
    obtain ⟨hdecode, h⟩ := ite_eq_iff.mp h |>.resolve_right fun h => by cases h.2
    obtain ⟨-, h⟩ := ite_eq_iff.mp h |>.resolve_right fun h => by cases h.2
    cases h
    rw [hdecode]
  length_encode change limit encoded h := by
    obtain ⟨-, h⟩ := ite_eq_iff.mp h |>.resolve_right fun h => by cases h.2
    obtain ⟨hle, h⟩ := ite_eq_iff.mp h |>.resolve_right fun h => by cases h.2
    cases h
    exact hle

/-- A target that charges a byte for an event. -/
def weightSink : BufferedSink Unit := ⟨weightCodec, fun _ => true, fun _ _ => .ok 1⟩

/-- A change of three insertions and two retractions, and one more insertion. -/
def threeAndTwo : Change Unit := ⟨0, [((), 3), ((), -2)], by decide, by decide⟩

def oneMore : Change Unit := ⟨0, [((), 1)], by decide, by decide⟩

/-- Initialization, a change, a load of two events, another change, and the settlement. -/
def weightRun : List (Action Unit) :=
  [.load ⟨2, 100, 100, 100⟩, .persistInitialize 0 true, .settle 0 true, .enqueue threeAndTwo true,
    .load ⟨2, 100, 100, 100⟩, .enqueue oneMore true, .settle 1 true]

def weightSystem : System Unit := weightRun.foldl (System.step weightSink) {}

theorem reachable_foldl (actions : List (Action Row)) {s : System Row}
    (h : System.Reachable sink s) :
    System.Reachable sink (actions.foldl (System.step sink) s) := by
  induction actions generalizing s with
  | nil => exact h
  | cons action actions ih => exact ih (.step action h)

theorem outbox_exact_inside_row :
    weightSystem.settled.map (·.2) = [1, 2] ∧ weightSystem.accepted.map (·.2) = [1, 2, 3, 4, 5, 6] ∧
      weightSystem.settled ++ remaining weightSink weightSystem.outbox = weightSystem.accepted := by
  have hreach : System.Reachable weightSink weightSystem := reachable_foldl weightRun .fresh
  exact ⟨by decide +kernel, by decide +kernel, (outbox_exact weightSink weightSystem hreach).1⟩

end Dogpaddle.Buffered
