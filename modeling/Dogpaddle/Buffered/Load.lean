import Dogpaddle.Buffered.Entries

/-!
# What a load cuts

A load that succeeds returns a cut of the stored entries: the units it delivers, followed
by what the entries still hold after the new head, are what they held after the old one.

* one triple per function of the loader, each with what it leaves of the loader;
* `Walk`: the invariant at the top of the loop over the entries;
* `Cut`, `load_cut`: what a load returns.

A failed load leaves a cache that is still right, which every triple keeps on its failures.
-/

namespace Dogpaddle.Buffered

open Lib

variable {Row : Type}

section Loader

variable {codec : SchemaBoundChangeCodec Row}
  {sizeEvent : Change Row → Nat → Except OperationError Nat}
  {buffer : OrdMap Nat Bytes} {before : BufferState} {limits : LoadLimits}
  {start : Nat} {es : List (Entry Row)} {e : Entry Row}

/-- What every failure keeps. -/
abbrev Safe (es : List (Entry Row)) (before : BufferState) (l : Loader Row) : Prop :=
  CacheOk es before.tail l.cache

/-- The load is inside the entry: its variables and the cached entry are the entry's. -/
structure Holds (e : Entry Row) (l : Loader Row) : Prop where
  entryStart : l.entryStart = e.key
  entryEnd : l.entryEnd = e.stop
  cached : ∃ cached, l.cache = some cached ∧ Shown e cached

theorem Holds.safe {l : Loader Row} (h : Holds e l) (htiled : Tiled start es before.tail)
    (he : e ∈ es) : Safe es before l := by
  obtain ⟨cached, hcached, hshown⟩ := h.cached
  unfold Safe
  rw [hcached]
  exact hshown.cacheOk htiled he

theorem lift_bind {α β : Type} {x : Except OperationError α} {f : α → LoadM Row β}
    {P : Loader Row → Prop} {R : β → Loader Row → Prop} {E : Loader Row → Prop}
    (herr : ∀ l, P l → E l) (h : ∀ a, x = .ok a → Triple P (f a) R E) :
    Triple P (lift x >>= f) R E := Triple.ofExcept_bind herr h

theorem orInvalid_bind {β : Type} {message : String} {x : Option Nat} {f : Nat → LoadM Row β}
    {P : Loader Row → Prop} {R : β → Loader Row → Prop} {E : Loader Row → Prop}
    (herr : ∀ l, P l → E l) (h : ∀ n, x = some n → Triple P (f n) R E) :
    Triple P (orInvalid message x >>= f) R E := by
  cases x with
  | none => exact fun l hl => herr l hl
  | some n => exact h n rfl

theorem get?_of_mem (hstored : buffer.entries = stored es) (he : e ∈ es) :
    buffer.get? e.key = some e.encoded := by
  apply (buffer.mem_entries _ _).mp
  rw [hstored]
  exact List.mem_map.mpr ⟨e, he, rfl⟩

theorem decodeEntry_eq_ok {entryStart maxBytes : Nat} {encoded : Bytes} {change : Change Row}
    (h : decodeEntry codec entryStart encoded maxBytes = .ok change) :
    codec.decode encoded = .ok change := by
  unfold decodeEntry at h
  cases hitem : encodedItemBytes encoded with
  | error error => rw [hitem] at h; cases h
  | ok bytes =>
    rw [hitem] at h
    change (if bytes > maxBytes then _ else _) = _ at h
    split at h
    · cases h
    · exact mapError_eq_ok.mp h

/-- The stored entry is decoded, once. -/
theorem loadEntry_spec (hstored : buffer.entries = stored es)
    (hdecoded : ∀ e ∈ es, codec.decode e.encoded = .ok e.change) (he : e ∈ es)
    {l : Loader Row} (hstart : l.entryStart = e.key) (hsafe : Safe es before l) :
    Triple (· = l) (loadEntry codec buffer before limits)
      (fun found t => found = (e.bytes, e.change) ∧ ∃ cached, Shown e cached ∧
        t = { l with cache := some cached, entryEnd := e.stop })
      (Safe es before) := by
  unfold loadEntry
  have hfail : ∀ u, u = l → Safe es before u := by
    rintro u rfl
    exact hsafe
  refine Triple.get ?_
  rintro t rfl
  cases hcached : cachedAt t.entryStart t.cache with
  | some cached =>
    -- the cached entry has the key of the stored one, so it is the stored one
    obtain ⟨hcache, hkey⟩ := Option.filter_eq_some_iff.mp hcached
    have hstored : cached.entryStart = t.entryStart := by simpa using hkey
    have hshown := (hsafe cached hcache).2 e he (by rw [hstored, hstart])
    refine Triple.set_bind (Triple.ite (fun _ => Triple.throw _ ?_) fun _ => Triple.pure _ ?_)
    · rintro u rfl
      exact hsafe
    · rintro u rfl
      refine ⟨by rw [hshown.itemBytes, hshown.change], cached, hshown, ?_⟩
      rw [hshown.entryEnd, hcache]
  | none =>
    dsimp only
    rw [hstart, get?_of_mem hstored he]
    refine Triple.ite (fun _ => Triple.throw _ hfail) fun _ => ?_
    refine lift_bind hfail fun itemBytes hitem => ?_
    refine lift_bind hfail fun change hchange => ?_
    refine lift_bind hfail fun stop hstop => ?_
    obtain ⟨rfl, -⟩ := encodedItemBytes_eq_ok.mp hitem
    cases decodeEntry_eq_ok hchange |>.symm.trans (hdecoded e he)
    obtain ⟨rfl, -⟩ := entryEnd_eq_ok.mp hstop
    refine Triple.set_bind (Triple.ite (fun _ => Triple.throw _ ?_) fun _ => ?_)
    · rintro u rfl
      exact hsafe
    · refine Triple.set_bind (Triple.pure _ ?_)
      rintro u rfl
      refine ⟨rfl, ⟨e.key, e.bytes, e.change, e.stop, none, none⟩, ?_, rfl⟩
      exact ⟨rfl, rfl, rfl, rfl, fun _ h => by cases h⟩

/-- The position found is inside the entry. -/
theorem locatePosition_spec (htiled : Tiled start es before.tail) (he : e ∈ es)
    {l : Loader Row} (hl : Holds e l) :
    Triple (· = l) (locatePosition e.change)
      (fun _ t => ∃ rowIndex remaining, Located e l.eventOffset rowIndex remaining ∧
        t = { l with rowIndex, remaining })
      (Safe es before) := by
  have hfail : ∀ u, u = l → Safe es before u := by
    rintro u rfl
    exact hl.safe htiled he
  unfold locatePosition
  refine Triple.get ?_
  rintro t rfl
  refine Triple.ite (fun _ => Triple.throw _ hfail) fun hrange => ?_
  cases hhint : hintAt t.eventOffset t.cache with
  | some hint =>
    obtain ⟨hsome, hoffset⟩ := Option.filter_eq_some_iff.mp hhint
    obtain ⟨cached, hcached, hshown⟩ := hl.cached
    rw [hcached] at hsome
    have hlocated := hshown.hint hint hsome
    rw [show hint.eventOffset = t.eventOffset by simpa using hoffset] at hlocated
    exact Triple.set _ fun _ _ => ⟨_, _, hlocated, rfl⟩
  | none =>
    refine lift_bind hfail fun found hfound => ?_
    rw [hl.entryStart] at hfound hrange
    have hlocated := locateRow_eq_ok [] rfl (by rw [count_nil]; omega) hfound
    exact Triple.set _ fun _ _ => ⟨_, _, hlocated, rfl⟩

/-- The position returned is where the load stands. -/
theorem currentPosition_spec {l : Loader Row} (hl : Holds e l)
    (hlocated : Located e l.eventOffset l.rowIndex l.remaining) :
    Triple (· = l) currentPosition
      (fun position t => position = ⟨e.key, l.eventOffset⟩ ∧ ∃ cached, Shown e cached ∧
        t = { l with cache := some cached })
      (Safe es before) := by
  unfold currentPosition
  refine Triple.get ?_
  rintro t rfl
  obtain ⟨cached, hcached, hshown⟩ := hl.cached
  refine Triple.set_bind (Triple.pure _ ?_)
  rintro u rfl
  refine ⟨by rw [hl.entryStart], _, ?_, by rw [hcached]; rfl⟩
  dsimp only
  rw [hl.entryStart, if_pos hshown.entryStart]
  refine ⟨hshown.entryStart, hshown.itemBytes, hshown.change, hshown.entryEnd, ?_⟩
  rintro hint ⟨⟩
  exact hlocated

/-- Sizing a row changes only what the cache remembers of sizes. -/
theorem eventBytes_spec (htiled : Tiled start es before.tail) (he : e ∈ es)
    {l : Loader Row} (hl : Holds e l) :
    Triple (· = l) (eventBytes sizeEvent e.change)
      (fun _ t => ∃ cached, Shown e cached ∧ t = { l with cache := some cached })
      (Safe es before) := by
  have hfail : ∀ u, u = l → Safe es before u := by
    rintro u rfl
    exact hl.safe htiled he
  unfold eventBytes
  refine Triple.get ?_
  rintro t rfl
  obtain ⟨cached, hcached, hshown⟩ := hl.cached
  split
  · refine Triple.pure _ ?_
    rintro u rfl
    exact ⟨cached, hshown, by rw [← hcached]⟩
  · refine lift_bind hfail fun bytes _ => Triple.ite (fun _ => Triple.throw _ hfail) fun _ => ?_
    refine Triple.set_bind (Triple.pure _ ?_)
    rintro u rfl
    refine ⟨_, ?_, by rw [hcached]; rfl⟩
    exact ⟨hshown.entryStart, hshown.itemBytes, hshown.change, hshown.entryEnd, hshown.hint⟩

theorem charge_spec (htiled : Tiled start es before.tail) (he : e ∈ es)
    {l : Loader Row} (hl : Holds e l) (take bytesPerEvent : Nat) :
    Triple (· = l) (charge take bytesPerEvent)
      (fun _ t => t = { l with
        deliveredEvents := l.deliveredEvents + take
        eventOffset := l.eventOffset + take
        eventBudget := l.eventBudget - take
        targetByteBudget := l.targetByteBudget - take * bytesPerEvent
        remaining := l.remaining - take })
      (Safe es before) := by
  have hfail : ∀ u, u = l → Safe es before u := by
    rintro u rfl
    exact hl.safe htiled he
  unfold charge
  refine Triple.get ?_
  rintro t rfl
  refine orInvalid_bind hfail fun deliveredEvents hdelivered => ?_
  refine orInvalid_bind hfail fun eventOffset hoffset => ?_
  obtain ⟨rfl, -⟩ := checkedAdd_eq_some.mp hdelivered
  obtain ⟨rfl, -⟩ := checkedAdd_eq_some.mp hoffset
  exact Triple.ite (fun _ => Triple.throw _ hfail) fun _ => Triple.set _ fun _ _ => rfl

/-! ## The rows of an entry -/

/-- What a walk over the rows leaves alone. -/
def Same (l t : Loader Row) : Prop :=
  t.firstEntry = l.firstEntry ∧ t.encodedBytes = l.encodedBytes ∧
    t.recordBatches = l.recordBatches ∧ t.diffs = l.diffs

/-- A walk over the rows of an entry ends inside the entry or past it. -/
inductive Ended (e : Entry Row) (l : Loader Row) : LoadProgress → Loader Row → Prop
  | inside {t : Loader Row} {position : Position} (ended : position = ⟨e.key, t.eventOffset⟩)
      (start : t.entryStart = e.key) (range : e.key ≤ t.eventOffset ∧ t.eventOffset < e.stop)
      (keys : t.consumedKeys = l.consumedKeys) (bytes : t.retainedBytes = l.retainedBytes) :
      Ended e l (.stop position) t
  | past {t : Loader Row} {progress : LoadProgress}
      (ended : progress = .continue ∨ progress = .stop (.atEntry e.stop))
      (start : t.entryStart = e.stop) (offset : t.eventOffset = e.stop)
      (keys : t.consumedKeys = l.consumedKeys ++ [e.key])
      (bytes : l.retainedBytes = e.bytes + t.retainedBytes) : Ended e l progress t

/-- The part of the loader an ending speaks of. -/
def Loader.place (l : Loader Row) : Position × List Nat × Nat :=
  (⟨l.entryStart, l.eventOffset⟩, l.consumedKeys, l.retainedBytes)

theorem Ended.congr {l l' t t' : Loader Row} {progress : LoadProgress}
    (h : Ended e l progress t) (hl : l.place.2 = l'.place.2) (ht : t'.place = t.place) :
    Ended e l' progress t' := by
  simp only [Loader.place, Prod.mk.injEq, Position.mk.injEq] at hl ht
  obtain ⟨hkeys, hbytes⟩ := hl
  obtain ⟨⟨hstart, hoffset⟩, hkeys', hbytes'⟩ := ht
  cases h with
  | inside ended start range keys bytes =>
    refine .inside (by rw [ended, hoffset]) (hstart.trans start) (by rwa [hoffset]) ?_ ?_
    · rw [hkeys', keys, hkeys]
    · rw [hbytes', bytes, hbytes]
  | past ended start offset keys bytes =>
    refine .past ended (hstart.trans start) (hoffset.trans offset) ?_ ?_
    · rw [hkeys', keys, hkeys]
    · rw [hbytes', ← hbytes, bytes]

/-- The row after a boundary is located there. -/
theorem located_boundary {row offset : Nat} {event : Row × Int}
    (hoffset : offset = e.key + count (e.change.events.take row))
    (hevent : e.change.events[row]? = some event) : Located e offset row event.2.natAbs := by
  have hnonzero := e.change.nonzero event (List.mem_of_getElem? hevent)
  have hsucc := count_take_succ hevent
  exact ⟨event, hevent, by omega, le_rfl, by omega⟩

/-- Leaving a used-up row reaches the next row, or ends the walk. -/
theorem advanceRow_spec (htiled : Tiled start es before.tail) (he : e ∈ es)
    {l : Loader Row} (hl : Holds e l)
    (hoffset : l.eventOffset = e.key + count (e.change.events.take (l.rowIndex + 1))) :
    Triple (· = l) (advanceRow before e.bytes e.change)
      (fun progress t => match progress with
        | none => ∃ event, e.change.events[l.rowIndex + 1]? = some event ∧
            t = { l with rowIndex := l.rowIndex + 1, remaining := event.2.natAbs }
        | some progress => Ended e l progress t ∧ t.eventOffset = l.eventOffset ∧ Same l t ∧
            Safe es before t)
      (Safe es before) := by
  have hsafe := hl.safe htiled he
  have hfail : ∀ u : Loader Row, u = { l with rowIndex := l.rowIndex + 1 } →
      Safe es before u := by
    rintro u rfl
    exact hsafe
  unfold advanceRow
  refine Triple.modify_bind (Triple.get ?_)
  rintro t rfl
  refine Triple.ite (fun hlast => ?_) fun hmore => ?_
  · -- the entry is used up
    refine Triple.ite (fun _ => Triple.throw _ hfail) fun hbytes =>
      Triple.ite (fun _ => Triple.throw _ hfail) fun hend => Triple.set_bind ?_
    have hstop : l.eventOffset = e.stop := by
      have := not_not.mp hend
      rwa [hl.entryEnd] at this
    have hpast : ∀ (t : Loader Row) (progress : LoadProgress),
        (progress = .continue ∨ progress = .stop (.atEntry e.stop)) →
        t.entryStart = l.entryEnd → t.eventOffset = l.eventOffset →
        t.consumedKeys = l.consumedKeys ++ [l.entryStart] →
        t.retainedBytes = l.retainedBytes - e.bytes → Ended e l progress t := by
      intro t progress hended hstart hoffset hkeys hretained
      refine .past hended (hstart.trans hl.entryEnd) (hoffset.trans hstop) ?_ ?_
      · rw [hkeys, hl.entryStart]
      · have : ¬ e.bytes > l.retainedBytes := hbytes
        omega
    refine Triple.ite (fun _ => Triple.pure _ ?_) fun _ => Triple.ite (fun _ => Triple.pure _ ?_)
      fun _ => Triple.modify_bind (Triple.pure _ ?_)
    · rintro u rfl
      refine ⟨hpast _ _ (.inr ?_) rfl rfl rfl rfl, rfl, ⟨rfl, rfl, rfl, rfl⟩, hsafe⟩
      rw [hl.entryEnd]
    · rintro u rfl
      refine ⟨hpast _ _ (.inr ?_) rfl rfl rfl rfl, rfl, ⟨rfl, rfl, rfl, rfl⟩, hsafe⟩
      rw [hl.entryEnd]
    · rintro u rfl
      exact ⟨hpast _ _ (.inl rfl) rfl rfl rfl rfl, rfl, ⟨rfl, rfl, rfl, rfl⟩, hsafe⟩
  · cases hevent : e.change.events[l.rowIndex + 1]? with
    | none => exact Triple.throw _ hfail
    | some event =>
      have hlocated := located_boundary hoffset hevent
      refine Triple.set_bind (Triple.ite (fun _ => ?_) fun _ => Triple.pure _ ?_)
      · refine Triple.bind (currentPosition_spec
          ⟨hl.entryStart, hl.entryEnd, hl.cached⟩ hlocated) fun position => Triple.pure _ ?_
        rintro u ⟨rfl, cached, hshown, rfl⟩
        exact ⟨.inside rfl hl.entryStart hlocated.range rfl rfl, rfl, ⟨rfl, rfl, rfl, rfl⟩,
          hshown.cacheOk htiled he⟩
      · rintro u rfl
        exact ⟨event, rfl, rfl⟩

/-- The units of a delivered difference are the units taken of the row. -/
theorem replicate_signedCount {original diff : Int} {n : Nat} (row : Row)
    (h : signedCount original n = .ok diff) :
    List.replicate diff.natAbs (row, decide (0 < diff)) =
      List.replicate n (row, decide (0 < original)) := by
  unfold signedCount at h
  split at h
  · next hpos =>
    split at h
    · cases h
      rcases Nat.eq_zero_or_pos n with rfl | hn
      · rfl
      · rw [Int.natAbs_natCast, decide_eq_true (by omega), decide_eq_true hpos]
    · cases h
  · next hneg =>
    split at h
    · cases h
      rw [Int.natAbs_neg, Int.natAbs_natCast, decide_eq_false (by omega),
        decide_eq_false hneg]
    · cases h

theorem units_zip_cons (event : Row × Int) (rows : List (Row × Int)) (diff : Int)
    (taken : List Int) :
    units (((event :: rows).map (·.1)).zip (diff :: taken)) =
      List.replicate diff.natAbs (event.1, decide (0 < diff)) ++
        units ((rows.map (·.1)).zip taken) := rfl

theorem units_zip_nil (rows : List (Row × Int)) :
    units ((rows.map (·.1)).zip ([] : List Int)) = [] := by
  rw [List.zip_nil_right, units_nil]

/-- How a walk over the rows ends: what it took, followed by what is left of the entry at its
end, is what was left before. -/
def Walked (es : List (Entry Row)) (before : BufferState) (e : Entry Row) (l : Loader Row)
    (rows : List (Row × Int)) (localDiffs : List Int) (out : List Int × LoadProgress)
    (t : Loader Row) : Prop :=
  ∃ taken, out.1 = localDiffs ++ taken ∧ taken.length ≤ rows.length ∧
    units ((rows.map (·.1)).zip taken) ++ left e t.eventOffset = left e l.eventOffset ∧
    Ended e l out.2 t ∧ Same l t ∧ Safe es before t

theorem consumeRows_spec (htiled : Tiled start es before.tail) (he : e ∈ es)
    (rows : List (Row × Int)) (localDiffs : List Int) {l : Loader Row} (hl : Holds e l)
    (hrows : e.change.events.drop l.rowIndex = rows)
    (hlocated : Located e l.eventOffset l.rowIndex l.remaining) :
    Triple (· = l) (consumeRows sizeEvent before e.bytes e.change rows localDiffs)
      (Walked es before e l rows localDiffs) (Safe es before) := by
  induction rows generalizing l localDiffs with
  | nil =>
    refine Triple.throw _ ?_
    rintro u rfl
    exact hl.safe htiled he
  | cons event rows ih =>
    have hevent : e.change.events[l.rowIndex]? = some event := by
      rw [← Nat.add_zero l.rowIndex, ← List.getElem?_drop, hrows]
      rfl
    have hrest : e.change.events.drop (l.rowIndex + 1) = rows := by
      rw [← List.drop_drop, hrows]
      rfl
    have hleft := hlocated.left_eq hevent
    rw [hrest] at hleft
    unfold consumeRows
    refine Triple.bind (eventBytes_spec htiled he hl) fun bytesPerEvent => Triple.get ?_
    rintro l' ⟨cached, hshown, rfl⟩
    have hl' : Holds e { l with cache := some cached } :=
      ⟨hl.entryStart, hl.entryEnd, cached, rfl, hshown⟩
    have hfail : ∀ u, u = { l with cache := some cached } → Safe es before u := by
      rintro u rfl
      exact hl'.safe htiled he
    refine Triple.ite (fun _ => Triple.ite (fun _ => Triple.throw _ hfail) fun _ => ?_)
      fun _ => ?_
    · -- the target takes no more of this row
      refine Triple.bind (currentPosition_spec hl' hlocated) fun position => Triple.pure _ ?_
      rintro u ⟨rfl, cached', hshown', rfl⟩
      refine ⟨[], (List.append_nil _).symm, Nat.zero_le _, by simp, ?_, ⟨rfl, rfl, rfl, rfl⟩,
        hshown'.cacheOk htiled he⟩
      exact .inside rfl hl.entryStart hlocated.range rfl rfl
    · dsimp only
      generalize hn : min (min l.remaining l.eventBudget) (l.targetByteBudget / bytesPerEvent) = n
      have hle : n ≤ l.remaining := by omega
      refine lift_bind hfail fun diff hdiff => ?_
      refine Triple.bind (charge_spec htiled he hl' _ _) fun _ => Triple.get ?_
      rintro u rfl
      have hunits := replicate_signedCount event.1 hdiff
      have hcharged : ∀ t : Loader Row, t.entryStart = l.entryStart → t.entryEnd = l.entryEnd →
          t.cache = some cached → Holds e t := fun t hstart hend hcache =>
        ⟨hstart.trans hl.entryStart, hend.trans hl.entryEnd, cached, hcache, hshown⟩
      refine Triple.ite (fun hmore => ?_) fun hdone => ?_
      · -- the row is cut
        have hcut := hlocated.take (n := n) (by have : l.remaining - n ≠ 0 := hmore; omega)
        refine Triple.bind (currentPosition_spec (hcharged _ rfl rfl rfl) hcut) fun position =>
          Triple.pure _ ?_
        rintro u ⟨rfl, cached', hshown', rfl⟩
        refine ⟨[diff], rfl, by simp, ?_, ?_, ⟨rfl, rfl, rfl, rfl⟩, hshown'.cacheOk htiled he⟩
        · show _ ++ left e (l.eventOffset + n) = left e l.eventOffset
          rw [units_zip_cons, units_zip_nil, List.append_nil, hunits, hcut.left_eq hevent, hleft,
            hrest, ← List.append_assoc, List.replicate_append_replicate]
          congr 2
          omega
        · exact .inside rfl hl.entryStart hcut.range rfl rfl
      · -- the row is used up
        have hall : n = l.remaining := by
          have : ¬ l.remaining - n ≠ 0 := hdone
          omega
        have hboundary : l.eventOffset + n =
            e.key + count (e.change.events.take (l.rowIndex + 1)) := by
          obtain ⟨_, _, _, _, hsum⟩ := hlocated
          omega
        have hafter : left e (l.eventOffset + n) = units rows := by
          unfold left
          rw [hboundary, Nat.add_sub_cancel_left, drop_count_take, hrest]
        refine Triple.bind (advanceRow_spec htiled he (hcharged _ rfl rfl rfl) hboundary) fun out => ?_
        cases out with
        | some progress =>
          refine Triple.pure _ ?_
          rintro u ⟨hended, hoffset, hsame, hsafe⟩
          refine ⟨[diff], rfl, by simp, ?_, ?_, hsame, hsafe⟩
          · rw [hoffset, units_zip_cons, units_zip_nil, List.append_nil, hunits, hafter, hleft, hall]
          · exact hended.congr rfl rfl
        | none =>
          rintro u ⟨next, hnext, hu⟩
          have hnextAt : Located e u.eventOffset u.rowIndex u.remaining := by
            rw [hu]
            exact located_boundary hboundary hnext
          have hu' : Holds e u := hcharged u (by rw [hu]) (by rw [hu]) (by rw [hu])
          refine (ih (l := u) (localDiffs ++ [diff]) hu' (by rw [hu]; exact hrest) hnextAt).weaken
            (fun _ h => h) ?_ (fun _ h => h) u rfl
          subst hu
          rintro out t ⟨taken, hout, hlength, hwalk, hended, hsame, hsafe⟩
          refine ⟨diff :: taken, by rw [hout]; simp, by simpa using hlength, ?_,
            hended.congr rfl rfl, hsame, hsafe⟩
          rw [units_zip_cons, List.append_assoc, hwalk, hunits, hafter, hleft, hall]

/-! ## The entries of a delivery -/

/-- The delivery so far. -/
def gathered (l : Loader Row) : List (Row × Int) := l.recordBatches.flatten.zip l.diffs

/-- The position is in the first entry, or at the end of all of them. -/
def HeadIn (position : Position) : List (Entry Row) → Prop
  | [] => position.eventOffset = position.entryStart
  | e :: _ => e.key = position.entryStart ∧ e.key ≤ position.eventOffset ∧
      position.eventOffset < e.stop

/-- A head stays where it is when entries are added behind. -/
theorem HeadIn.append {position : Position} {es extra : List (Entry Row)} {mid tail : Nat}
    (h : HeadIn position es) (htiled : Tiled position.entryStart es mid)
    (hextra : Tiled mid extra tail) : HeadIn position (es ++ extra) := by
  cases es with
  | cons e es => exact h
  | nil =>
    have hoffset : position.eventOffset = position.entryStart := h
    obtain rfl : position.entryStart = mid := htiled
    cases extra with
    | nil => exact h
    | cons e extra =>
      have hkey := hextra.1
      have hlt := e.key_lt_stop
      exact ⟨hkey, by omega, by omega⟩

/-- The entries are cut at a position: those before it are consumed, and the delivery
followed by what is left after it is what was left before. -/
structure Walk (before : BufferState) (es : List (Entry Row)) (position : Position)
    (gone rest : List (Entry Row)) (l : Loader Row) : Prop where
  split : es = gone ++ rest
  before_tiled : Tiled before.head.entryStart gone position.entryStart
  after_tiled : Tiled position.entryStart rest before.tail
  placed : HeadIn position rest
  keys : l.consumedKeys = gone.map Entry.key
  bytes : l.retainedBytes = weight rest
  lengths : l.recordBatches.flatten.length = l.diffs.length
  delivered : units (gathered l) ++
      (units (stock rest)).drop (position.eventOffset - position.entryStart) =
    (units (stock es)).drop (before.head.eventOffset - before.head.entryStart)

/-- What is left of the entries from an offset in the first one on. -/
theorem drop_stock_cons (rest : List (Entry Row)) {offset : Nat} (hstop : offset ≤ e.stop) :
    (units (stock (e :: rest))).drop (offset - e.key) = left e offset ++ units (stock rest) := by
  unfold Entry.stop at hstop
  rw [stock_cons, units_append, List.drop_append_of_le_length (by rw [length_units]; omega), left]

/-- The delivery with what was taken of the rows of an entry. -/
theorem gathered_push {l t : Loader Row} {rows : List (Row × Int)} {taken : List Int}
    (hlengths : l.recordBatches.flatten.length = l.diffs.length)
    (hlength : taken.length ≤ rows.length)
    (hbatches : t.recordBatches.flatten = l.recordBatches.flatten ++
      (rows.take taken.length).map (·.1))
    (hdiffs : t.diffs = l.diffs ++ taken) :
    gathered t = gathered l ++ (rows.map (·.1)).zip taken := by
  unfold gathered
  rw [hbatches, hdiffs, List.zip_append hlengths, List.map_take]
  congr 1
  have hzip : (rows.map (·.1)).zip taken = _ := List.zip_eq_zip_take_min
  rw [hzip, List.length_map, min_eq_right hlength, List.take_length]

/-- A walk over the rows of the first entry extends the cut. -/
theorem Walk.extend {gone rest : List (Entry Row)} {l t : Loader Row} {taken : List Int}
    {firstRow : Nat} {progress : LoadProgress}
    (h : Walk before es ⟨l.entryStart, l.eventOffset⟩ gone (e :: rest) l)
    (hlength : taken.length ≤ (e.change.events.drop firstRow).length)
    (hunits : units (((e.change.events.drop firstRow).map (·.1)).zip taken) ++
      left e t.eventOffset = left e l.eventOffset)
    (hended : Ended e l progress t)
    (hbatches : t.recordBatches.flatten = l.recordBatches.flatten ++
      ((e.change.events.drop firstRow).take taken.length).map (·.1))
    (hdiffs : t.diffs = l.diffs ++ taken) :
    match progress with
    | .stop after => ∃ gone' rest', Walk before es after gone' rest' t
    | .continue => Walk before es ⟨t.entryStart, t.eventOffset⟩ (gone ++ [e]) rest t ∧
        t.eventOffset = t.entryStart := by
  have hgathered := gathered_push h.lengths hlength hbatches hdiffs
  have hlengths : t.recordBatches.flatten.length = t.diffs.length := by
    rw [hbatches, hdiffs, List.length_append, List.length_append, h.lengths, List.length_map,
      List.length_take, min_eq_left hlength]
  obtain ⟨hkey, hfirst, hlast⟩ := h.placed
  have hold := h.delivered
  rw [← hkey, drop_stock_cons rest hlast.le, ← hunits, List.append_assoc,
    ← List.append_assoc (units (gathered l)), ← units_append, ← hgathered] at hold
  cases hended with
  | inside ended start range keys bytes =>
    subst ended
    refine ⟨gone, e :: rest, h.split, ?_, ?_, ⟨rfl, range⟩, ?_, ?_, hlengths, ?_⟩
    · rw [hkey]
      exact h.before_tiled
    · rw [hkey]
      exact h.after_tiled
    · rw [keys, h.keys]
    · rw [bytes, h.bytes]
    · rw [drop_stock_cons rest range.2.le]
      exact hold
  | past ended start offset keys bytes =>
    have htiled : Tiled before.head.entryStart (gone ++ [e]) e.stop :=
      Tiled.append_iff.mpr ⟨_, h.before_tiled, hkey, rfl⟩
    have hrest : Tiled e.stop rest before.tail := h.after_tiled.2
    have hwalk : Walk before es ⟨e.stop, e.stop⟩ (gone ++ [e]) rest t := by
      refine ⟨by rw [h.split]; simp, htiled, hrest, ?_, ?_, ?_, hlengths, ?_⟩
      · cases rest with
        | nil => rfl
        | cons f rest => exact ⟨hrest.1, hrest.1.le, by rw [← hrest.1]; exact f.key_lt_stop⟩
      · rw [keys, h.keys, List.map_append]
        rfl
      · have := h.bytes
        rw [weight_cons] at this
        omega
      · rw [offset, left_stop, List.nil_append] at hold
        rw [Nat.sub_self, List.drop_zero]
        exact hold
    rcases ended with rfl | rfl
    · rw [start, offset]
      exact ⟨hwalk, rfl⟩
    · exact ⟨_, _, hwalk⟩

/-- The load stands at the top of its loop. -/
def AtTop (before : BufferState) (es rest : List (Entry Row)) (l : Loader Row) : Prop :=
  (∃ gone, Walk before es ⟨l.entryStart, l.eventOffset⟩ gone rest l) ∧
    (l.encodedBytes ≠ 0 → l.eventOffset = l.entryStart) ∧ Safe es before l

/-- What the consumption of an entry leads to. -/
def Consumed (before : BufferState) (es rest : List (Entry Row)) (progress : LoadProgress)
    (t : Loader Row) : Prop :=
  match progress with
  | .stop after => (∃ gone' rest', Walk before es after gone' rest' t) ∧ Safe es before t
  | .continue => AtTop before es rest t

/-- The rows taken go to the delivery, with their differences. -/
theorem pushRows_spec (firstRow : Nat) (change : Change Row) (localDiffs : List Int)
    {l : Loader Row} :
    Triple (· = l) (pushRows firstRow change localDiffs)
      (fun _ t => t.recordBatches.flatten = l.recordBatches.flatten ++
          ((change.events.drop firstRow).take localDiffs.length).map (·.1) ∧
        t.diffs = l.diffs ++ localDiffs ∧
        t = { l with recordBatches := t.recordBatches, diffs := t.diffs })
      (Safe es before) := by
  unfold pushRows
  refine Triple.ite (fun hempty => Triple.pure _ ?_) fun _ => Triple.modify _ ?_
  · rintro t rfl
    rw [List.isEmpty_iff.mp hempty]
    exact ⟨by simp, by simp, rfl⟩
  · rintro t rfl
    exact ⟨by simp, rfl, rfl⟩

theorem consumeEntry_spec (htiled : Tiled start es before.tail) (he : e ∈ es)
    {rest : List (Entry Row)} {l : Loader Row} (htop : AtTop before es (e :: rest) l)
    (hl : Holds e l) :
    Triple (· = l) (consumeEntry sizeEvent before limits e.bytes e.change)
      (Consumed before es rest) (Safe es before) := by
  obtain ⟨⟨gone, hwalk⟩, hboundary, hsafe⟩ := htop
  have hfail : ∀ u, u = l → Safe es before u := by
    rintro u rfl
    exact hsafe
  unfold consumeEntry
  refine Triple.get ?_
  rintro t rfl
  refine Triple.ite (fun _ => Triple.throw _ hfail) fun _ => orInvalid_bind hfail fun next _ =>
    Triple.ite (fun hfull => Triple.pure _ ?_) fun _ => Triple.set_bind ?_
  · -- the entry does not fit, and the load stands at its start
    rintro u rfl
    have hoffset := hboundary hfull.1
    rw [hoffset] at hwalk
    exact ⟨⟨_, _, hwalk⟩, hsafe⟩
  have hl' : Holds e { t with encodedBytes := next } := ⟨hl.entryStart, hl.entryEnd, hl.cached⟩
  refine Triple.bind (locatePosition_spec htiled he hl') fun _ => Triple.pointwise ?_
  rintro u ⟨rowIndex, remaining, hlocated, rfl⟩
  refine Triple.modify_bind (Triple.get ?_)
  rintro u hu
  have hheld : Holds e u := ⟨by rw [hu]; exact hl.entryStart, by rw [hu]; exact hl.entryEnd,
    by rw [hu]; exact hl.cached⟩
  refine Triple.bind (consumeRows_spec htiled he _ [] hheld rfl (by rw [hu]; exact hlocated))
    fun out => Triple.pointwise ?_
  rintro v ⟨taken, hout, hlength, hunits, hended, hsame, hsafe'⟩
  obtain ⟨localDiffs, progress⟩ := out
  obtain rfl : localDiffs = taken := hout
  refine Triple.bind (pushRows_spec u.rowIndex e.change localDiffs) fun _ => Triple.pure _ ?_
  rintro w ⟨hbatches, hdiffs, hpushed⟩
  obtain ⟨-, hencoded, hbatches', hdiffs'⟩ := hsame
  have hoffset : w.eventOffset = v.eventOffset := by rw [hpushed]
  have hcut := hwalk.extend (t := w) hlength
    (by rw [hoffset, hunits, hu]) (hended.congr (by rw [hu]; rfl) (by rw [hpushed]; rfl))
    (by rw [hbatches, hbatches', hu]) (by rw [hdiffs, hdiffs', hu])
  have hsafe'' : Safe es before w := by
    rw [hpushed]
    exact hsafe'
  cases progress with
  | stop after => exact ⟨hcut, hsafe''⟩
  | «continue» => exact ⟨⟨_, hcut.1⟩, fun _ => hcut.2, hsafe''⟩

/-- The loop ends with a cut. -/
theorem run_spec (hstored : buffer.entries = stored es) (htiled : Tiled start es before.tail)
    (hdecoded : ∀ e ∈ es, codec.decode e.encoded = .ok e.change) (rounds : Nat) :
    Triple (fun l => ∃ rest, AtTop before es rest l)
      (run codec sizeEvent buffer before limits rounds)
      (fun after t => (∃ gone rest, Walk before es after gone rest t) ∧ Safe es before t)
      (Safe es before) := by
  induction rounds with
  | zero =>
    refine Triple.throw _ ?_
    rintro l ⟨rest, -, -, hsafe⟩
    exact hsafe
  | succ rounds ih =>
    refine Triple.get ?_
    rintro l ⟨rest, htop⟩
    obtain ⟨⟨gone, hwalk⟩, hboundary, hsafe⟩ := htop
    refine Triple.ite (fun _ => Triple.throw _ ?_) fun hlt => ?_
    · rintro u rfl
      exact hsafe
    -- before the tail there is an entry, and the tiling keys it by where the load stands
    obtain _ | ⟨e, rest⟩ := rest
    · exact absurd (le_of_eq hwalk.after_tiled.symm) hlt
    have he : e ∈ es := by
      rw [hwalk.split]
      exact List.mem_append_right _ List.mem_cons_self
    refine Triple.bind (loadEntry_spec hstored hdecoded he hwalk.after_tiled.1.symm hsafe)
      fun found => Triple.pointwise ?_
    rintro u ⟨rfl, cached, hshown, hu⟩
    have hheld : Holds e u := by
      rw [hu]
      exact ⟨hwalk.after_tiled.1.symm, rfl, cached, rfl, hshown⟩
    have htop : AtTop before es (e :: rest) u := by
      refine ⟨⟨gone, ?_⟩, by rw [hu]; exact hboundary, hheld.safe htiled he⟩
      rw [hu]
      exact ⟨hwalk.split, hwalk.before_tiled, hwalk.after_tiled, hwalk.placed, hwalk.keys,
        hwalk.bytes, hwalk.lengths, hwalk.delivered⟩
    refine Triple.bind (consumeEntry_spec htiled he htop hheld) fun progress => ?_
    cases progress with
    | stop after => exact Triple.pure _ fun t ht => ht
    | «continue» => exact ih.weaken (fun t ht => ⟨rest, ht⟩) (fun _ _ h => h) fun _ h => h

/-! ## Deliveries -/

/-- A batch cuts the entries of an outbox. -/
structure Cut (before : BufferState) (es : List (Entry Row)) (batch : LoadedBatch Row)
    (gone rest : List (Entry Row)) : Prop where
  split : es = gone ++ rest
  before_tiled : Tiled before.head.entryStart gone batch.after.head.entryStart
  after_tiled : Tiled batch.after.head.entryStart rest before.tail
  placed : HeadIn batch.after.head rest
  keys : batch.consumedKeys = gone.map Entry.key
  bytes : batch.after.retainedBytes = weight rest
  first : batch.delivery.firstEventOffset = before.head.eventOffset
  delivered : units batch.delivery.change.events ++
      (units (stock rest)).drop (batch.after.head.eventOffset - batch.after.head.entryStart) =
    (units (stock es)).drop (before.head.eventOffset - before.head.entryStart)

theorem events_of_tryNew {columns : Nat} {rows : List Row} {diffs : List Int}
    {change : Change Row} (h : tryNew columns rows diffs = .ok change) :
    change.events = rows.zip diffs := by
  unfold tryNew at h
  split at h
  · cases h
  · cases hnew : Change.tryNew columns (rows.zip diffs) with
    | none => rw [hnew] at h; cases h
    | some new =>
      rw [hnew] at h
      cases h
      unfold Change.tryNew at hnew
      split at hnew
      · cases hnew
        rfl
      · cases hnew

theorem finish_spec {after : Position} :
    Triple (fun t => (∃ gone rest, Walk before es after gone rest t) ∧ Safe es before t)
      (finish before after)
      (fun batch t => (∃ gone rest, Cut before es batch gone rest) ∧ Safe es before t)
      (Safe es before) := by
  refine Triple.get ?_
  rintro l ⟨⟨gone, rest, hwalk⟩, hsafe⟩
  have hfail : ∀ u, u = l → Safe es before u := by
    rintro u rfl
    exact hsafe
  cases l.firstEntry with
  | none => exact Triple.throw _ hfail
  | some firstEntry =>
    refine lift_bind hfail fun change hchange => lift_bind hfail fun delivery hdelivery =>
      lift_bind hfail fun _ _ => Triple.pure _ ?_
    rintro u rfl
    obtain rfl : delivery = ⟨change, before.head.eventOffset⟩ := by
      unfold DeliveryBatch.new at hdelivery
      cases hcount : eventCount change with
      | error error => rw [hcount] at hdelivery; cases hdelivery
      | ok events =>
        rw [hcount] at hdelivery
        change (if _ then _ else _) = _ at hdelivery
        split at hdelivery
        · cases hdelivery
        · cases hdelivery
          rfl
    refine ⟨⟨gone, rest, ?_⟩, hsafe⟩
    refine ⟨hwalk.split, hwalk.before_tiled, hwalk.after_tiled, hwalk.placed, hwalk.keys,
      hwalk.bytes, rfl, ?_⟩
    rw [events_of_tryNew hchange]
    exact hwalk.delivered

theorem loadBatch_spec (hstored : buffer.entries = stored es)
    (htiled : Tiled start es before.tail)
    (hdecoded : ∀ e ∈ es, codec.decode e.encoded = .ok e.change) {l : Loader Row}
    (htop : AtTop before es es l) :
    Triple (· = l) (loadBatch codec sizeEvent buffer before limits)
      (fun batch t => (∃ gone rest, Cut before es batch gone rest) ∧ Safe es before t)
      (Safe es before) := by
  have hfail : ∀ u, u = l → Safe es before u := by
    rintro u rfl
    exact htop.2.2
  refine lift_bind hfail fun _ _ => lift_bind hfail fun _ _ => Triple.ite
    (fun _ => Triple.throw _ hfail) fun _ => Triple.bind ?_ fun after => finish_spec
  refine (run_spec hstored htiled hdecoded _).weaken ?_ (fun _ _ h => h) fun _ h => h
  rintro u rfl
  exact ⟨es, htop⟩

/-- A load leaves a right cache, and returns a cut of the stored entries. -/
theorem load_cut (hstored : buffer.entries = stored es)
    (htiled : Tiled before.head.entryStart es before.tail)
    (hdecoded : ∀ e ∈ es, codec.decode e.encoded = .ok e.change)
    (hplaced : HeadIn before.head es) (hbytes : before.retainedBytes = weight es)
    {cache : Option (EntryCache Row)} (hcache : CacheOk es before.tail cache) :
    CacheOk es before.tail (load codec sizeEvent buffer before limits cache).2 ∧
      ∀ batch, (load codec sizeEvent buffer before limits cache).1 = .ok batch →
        ∃ gone rest, Cut before es batch gone rest := by
  have htop : AtTop before es es (.start before limits cache) :=
    ⟨⟨[], rfl, rfl, htiled, hplaced, rfl, hbytes, rfl, rfl⟩, fun h => absurd rfl h, hcache⟩
  have htriple : Triple _ (loadBatch codec sizeEvent buffer before limits) _ _ :=
    loadBatch_spec hstored htiled hdecoded htop
  have hspec := htriple _ rfl
  unfold load
  cases hrun : loadBatch codec sizeEvent buffer before limits (.start before limits cache) with
  | ok batch t =>
    rw [hrun] at hspec
    refine ⟨hspec.2, ?_⟩
    rintro batch' ⟨⟩
    exact hspec.1
  | error error t =>
    rw [hrun] at hspec
    exact ⟨hspec, fun batch h => by cases h⟩

end Loader

end Dogpaddle.Buffered
