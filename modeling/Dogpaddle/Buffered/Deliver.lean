import Dogpaddle.Buffered.Cache

/-!
# A load of admitted entries succeeds

Admission charges every row alone; a load charges units against two budgets, across entries.
With the limits of a delivery the charges nest: a load never fails, takes at least one unit
and at most the event limit, and what it takes costs at most the target budget.

* `bill`: what a list of weighted rows costs at so much for a unit of each row.
* `Spent`: the budgets of a loader, against what it has gathered.
* one totality lemma per function of the loader, from `charge` up to `load`.
-/

namespace Dogpaddle.Buffered

open Lib

variable {Row : Type}

/-! ## Costs -/

/-- What the units of weighted rows cost. -/
def bill (cost : Row → Nat) (events : List (Row × Int)) : Nat :=
  (events.map fun event => event.2.natAbs * cost event.1).sum

@[simp] theorem bill_nil (cost : Row → Nat) : bill cost [] = 0 := rfl

@[simp] theorem bill_cons (cost : Row → Nat) (event : Row × Int) (events : List (Row × Int)) :
    bill cost (event :: events) = event.2.natAbs * cost event.1 + bill cost events := by
  simp [bill]

@[simp] theorem bill_append (cost : Row → Nat) (a b : List (Row × Int)) :
    bill cost (a ++ b) = bill cost a + bill cost b := by
  simp [bill]

/-- Every row of an entry can be charged alone, at no less than its cost. -/
def Chargeable (sizeEvent : Change Row → Nat → Except OperationError Nat) (cost : Row → Nat)
    (change : Change Row) : Prop :=
  ∀ row event, change.events[row]? = some event → ∃ bytes,
    unitBytes sizeEvent change row = .ok bytes ∧ bytes ≤ maxTargetBatchBytes ∧ cost event.1 ≤ bytes

section Loader

variable {codec : SchemaBoundChangeCodec Row}
  {sizeEvent : Change Row → Nat → Except OperationError Nat} {cost : Row → Nat}
  {buffer : OrdMap Nat Bytes} {before : BufferState} {limits : LoadLimits}
  {start : Nat} {es : List (Entry Row)} {e : Entry Row}

/-! ## One row -/

/-- The load is inside the entry, with a right cache. -/
structure Holding (sizeEvent : Change Row → Nat → Except OperationError Nat) (e : Entry Row)
    (l : Loader Row) : Prop where
  entryStart : l.entryStart = e.key
  entryEnd : l.entryEnd = e.stop
  cached : ∃ cached, l.cache = some cached ∧ Right sizeEvent e cached

theorem Holding.holds {l : Loader Row} (h : Holding sizeEvent e l) : Holds e l := by
  obtain ⟨cached, hcached, hright⟩ := h.cached
  exact ⟨h.entryStart, h.entryEnd, cached, hcached, hright.shown⟩

/-- A row of an entry has a charge, and sizing it changes only what the cache remembers. -/
theorem eventBytes_ok {l : Loader Row} (h : Holding sizeEvent e l) {bytes : Nat}
    (hbytes : unitBytes sizeEvent e.change l.rowIndex = .ok bytes) :
    ∃ cached, Right sizeEvent e cached ∧
      eventBytes sizeEvent e.change l = .ok bytes { l with cache := some cached } := by
  obtain ⟨cached, hcached, hright⟩ := h.cached
  have hshown := hright.shown
  rw [eventBytes_right hcached hright, hbytes]
  refine ⟨{ cached with eventBytes := some (l.rowIndex, bytes) }, ⟨⟨hshown.entryStart,
    hshown.itemBytes, hshown.change, hshown.entryEnd, hshown.hint⟩, ?_⟩, rfl⟩
  rintro row size ⟨⟩
  rw [show cached.change = e.change from hshown.change]
  exact hbytes

theorem charge_ok {l : Loader Row} {take bytesPerEvent : Nat}
    (hdelivered : l.deliveredEvents + take < 2 ^ 64) (hoffset : l.eventOffset + take < 2 ^ 64)
    (hbytes : take * bytesPerEvent < 2 ^ 64) :
    charge take bytesPerEvent l = .ok () { l with
      deliveredEvents := l.deliveredEvents + take
      eventOffset := l.eventOffset + take
      eventBudget := l.eventBudget - take
      targetByteBudget := l.targetByteBudget - take * bytesPerEvent
      remaining := l.remaining - take } := by
  have hget : (get : LoadM Row (Loader Row)) l = .ok l l := rfl
  unfold charge
  rw [bind_of_ok hget, checkedAdd_eq_some.mpr ⟨rfl, hdelivered⟩,
    checkedAdd_eq_some.mpr ⟨rfl, hoffset⟩]
  show (if take * bytesPerEvent ≥ 2 ^ 64 then throw _ else set _ : LoadM Row Unit) l = _
  rw [if_neg (by omega)]
  rfl

/-- Remembering a position never fails, and changes the cache only. -/
theorem currentPosition_ok (l : Loader Row) :
    ∃ cache, currentPosition l = .ok ⟨l.entryStart, l.eventOffset⟩ { l with cache } :=
  ⟨_, rfl⟩

theorem currentPosition_alike {l : Loader Row} :
    Triple (· = l) currentPosition (fun _ t => Alike l t) (fun _ => True) := by
  rintro s rfl
  obtain ⟨cache, hrun⟩ := currentPosition_ok s
  rw [hrun]
  exact ⟨cache, rfl⟩

theorem currentPosition_raises {P : OperationError → Prop} {l : Loader Row} :
    Raises P currentPosition l := by
  obtain ⟨cache, hrun⟩ := currentPosition_ok l
  intro error t h
  rw [hrun] at h
  cases h

/-- What leaving a used-up row does to the budgets, and when the load goes on. -/
structure Advanced (before : BufferState) (l : Loader Row) (progress : Option LoadProgress)
    (t : Loader Row) : Prop where
  eventBudget : t.eventBudget = l.eventBudget
  targetByteBudget : t.targetByteBudget = l.targetByteBudget
  deliveredEvents : t.deliveredEvents = l.deliveredEvents
  more : progress = none ∨ progress = some .continue → 0 < l.eventBudget
  next : progress = some .continue → t.entryStart ≠ before.tail ∧ t.cache = l.cache

theorem advanceRow_advanced (itemBytes : Nat) (change : Change Row) {l : Loader Row} :
    Triple (· = l) (advanceRow before itemBytes change) (Advanced before l) (fun _ => True) := by
  unfold advanceRow
  refine Triple.modify_bind (Triple.get ?_)
  rintro t rfl
  refine Triple.ite (fun _ => ?_) fun _ => ?_
  · refine Triple.ite (fun _ => Triple.throw _ fun _ _ => trivial) fun _ =>
      Triple.ite (fun _ => Triple.throw _ fun _ _ => trivial) fun _ => Triple.set_bind
        (Triple.ite (fun _ => Triple.pure _ ?_) fun htail => Triple.ite
          (fun _ => Triple.pure _ ?_) fun hbudget => Triple.modify_bind (Triple.pure _ ?_))
    · rintro u rfl
      exact ⟨rfl, rfl, rfl, by simp, by simp⟩
    · rintro u rfl
      exact ⟨rfl, rfl, rfl, by simp, by simp⟩
    · rintro u rfl
      exact ⟨rfl, rfl, rfl, fun _ => Nat.pos_of_ne_zero hbudget, fun _ => ⟨htail, rfl⟩⟩
  · cases change.events[l.rowIndex + 1]? with
    | none => exact Triple.throw _ fun _ _ => trivial
    | some event =>
      refine Triple.set_bind (Triple.ite (fun _ => Triple.bind currentPosition_alike fun _ =>
        Triple.pure _ ?_) fun hbudget => Triple.pure _ ?_)
      · rintro t ⟨cache, rfl⟩
        exact ⟨rfl, rfl, rfl, by simp, by simp⟩
      · rintro u rfl
        exact ⟨rfl, rfl, rfl, fun _ => Nat.pos_of_ne_zero hbudget, by simp⟩

theorem advanceRow_raises {l : Loader Row} (hl : Holding sizeEvent e l)
    (hrow : l.rowIndex < e.change.numRows) (hbytes : e.bytes ≤ l.retainedBytes)
    (hoffset : l.eventOffset = e.key + count (e.change.events.take (l.rowIndex + 1))) :
    Raises (fun _ => False) (advanceRow before e.bytes e.change) l := by
  unfold advanceRow
  refine Raises.modify_bind (Raises.get (Raises.ite (fun hlast => ?_) fun hmore => ?_))
  · refine Raises.ite (fun hover => ?_) fun _ => Raises.ite (fun hspan => ?_) fun _ =>
      Raises.set_bind (Raises.ite (fun _ => Raises.pure _) fun _ => Raises.ite
        (fun _ => Raises.pure _) fun _ => Raises.modify_bind (Raises.pure _))
    · have : e.bytes > l.retainedBytes := hover
      omega
    · refine absurd ?_ hspan
      have hall : l.rowIndex + 1 = e.change.events.length := hlast
      show l.eventOffset = l.entryEnd
      rw [hoffset, hall, List.take_length, hl.entryEnd]
      rfl
  · have hlt : l.rowIndex + 1 < e.change.events.length := by
      have : l.rowIndex + 1 ≠ e.change.numRows := hmore
      unfold Change.numRows at hrow this
      omega
    dsimp only
    rw [List.getElem?_eq_getElem hlt]
    exact Raises.set_bind (Raises.ite (fun _ => Raises.bind currentPosition_raises
      fun _ _ _ => Raises.pure _) fun _ => Raises.pure _)

/-! ## The rows of an entry -/

/-- What the walk over the rows of an entry starts from. -/
structure Standing (sizeEvent : Change Row → Nat → Except OperationError Nat) (e : Entry Row)
    (l : Loader Row) : Prop where
  holding : Holding sizeEvent e l
  located : Located e l.eventOffset l.rowIndex l.remaining
  open_ : 0 < l.eventBudget
  fresh : l.deliveredEvents = 0 → maxTargetBatchBytes ≤ l.targetByteBudget
  small : l.targetByteBudget ≤ maxTargetBatchBytes
  few : l.deliveredEvents + l.eventBudget < 2 ^ 63
  bytes : e.bytes ≤ l.retainedBytes

/-- What the walk over the rows of an entry took, and what it leaves of the budgets. -/
structure Taken (cost : Row → Nat) (before : BufferState) (l : Loader Row)
    (got : List (Row × Int)) (progress : LoadProgress) (t : Loader Row) : Prop where
  events : t.eventBudget + count got = l.eventBudget
  delivered : t.deliveredEvents = l.deliveredEvents + count got
  charged : t.targetByteBudget + bill cost got ≤ l.targetByteBudget
  nonzero : ∀ event ∈ got, event.2 ≠ 0
  some_ : t.deliveredEvents ≠ 0
  next : progress = .continue → 0 < t.eventBudget ∧ t.entryStart ≠ before.tail

theorem signedCount_ok {original : Int} {n : Nat} (hn : n < 2 ^ 63) :
    ∃ diff, signedCount original n = .ok diff ∧ diff.natAbs = n := by
  unfold signedCount
  by_cases hpos : original > 0
  · rw [if_pos hpos, if_pos hn]
    exact ⟨n, rfl, Int.natAbs_natCast n⟩
  · rw [if_neg hpos, if_pos hn.le]
    exact ⟨-n, rfl, by rw [Int.natAbs_neg, Int.natAbs_natCast]⟩

/-- Taking units of a row and stopping. -/
theorem Taken.single {l t : Loader Row} {event : Row × Int} {rows : List (Row × Int)} {diff : Int}
    {n bytes : Nat} {progress : LoadProgress} (hdiff : diff.natAbs = n) (hn : 0 < n)
    (hbudget : n ≤ l.eventBudget) (hbytes : n * bytes ≤ l.targetByteBudget)
    (hcost : cost event.1 ≤ bytes) (hevents : t.eventBudget = l.eventBudget - n)
    (htarget : t.targetByteBudget = l.targetByteBudget - n * bytes)
    (hdelivered : t.deliveredEvents = l.deliveredEvents + n)
    (hnext : progress = .continue → 0 < t.eventBudget ∧ t.entryStart ≠ before.tail) :
    Taken cost before l (((event :: rows).map (·.1)).zip [diff]) progress t := by
  have hle : n * cost event.1 ≤ n * bytes := Nat.mul_le_mul_left n hcost
  have hgot : ((event :: rows).map (·.1)).zip [diff] = [(event.1, diff)] := by simp
  rw [hgot]
  refine ⟨?_, ?_, ?_, ?_, by omega, hnext⟩
  · rw [count_cons, count_nil, hdiff]
    omega
  · rw [count_cons, count_nil, hdiff]
    omega
  · rw [bill_cons, bill_nil, hdiff]
    show t.targetByteBudget + (n * cost event.1 + 0) ≤ l.targetByteBudget
    omega
  · intro event' hevent'
    rw [List.mem_singleton.mp hevent']
    show diff ≠ 0
    omega

theorem consumeRows_ok (htiled : Tiled start es before.tail) (he : e ∈ es)
    (hbounded : before.tail < 2 ^ 64) (hcharge : Chargeable sizeEvent cost e.change)
    (rows : List (Row × Int)) (localDiffs : List Int) {l : Loader Row}
    (hl : Standing sizeEvent e l) (hrows : e.change.events.drop l.rowIndex = rows) :
    ∃ taken progress t,
      consumeRows sizeEvent before e.bytes e.change rows localDiffs l =
        .ok (localDiffs ++ taken, progress) t ∧
      Taken cost before l ((rows.map (·.1)).zip taken) progress t := by
  induction rows generalizing l localDiffs with
  | nil =>
    obtain ⟨event, hevent, -⟩ := hl.located
    have := (List.getElem?_eq_some_iff.mp hevent).1
    rw [List.drop_eq_nil_iff] at hrows
    omega
  | cons event rows ih =>
    have hevent : e.change.events[l.rowIndex]? = some event := by
      rw [← Nat.add_zero l.rowIndex, ← List.getElem?_drop, hrows]
      rfl
    have hrest : e.change.events.drop (l.rowIndex + 1) = rows := by
      rw [← List.drop_drop, hrows]
      rfl
    obtain ⟨bytes, hunit, hmax, hcost⟩ := hcharge _ _ hevent
    have hbytes := (unitBytes_eq_ok.mp hunit).2
    obtain ⟨cached, hright, hsize⟩ := eventBytes_ok hl.holding hunit
    have hget : (get : LoadM Row (Loader Row)) { l with cache := some cached } =
      .ok { l with cache := some cached } { l with cache := some cached } := rfl
    rw [consumeRows, bind_of_ok hsize, bind_of_ok hget]
    have hopen := hl.open_
    have hsmall := hl.small
    have hfew := hl.few
    by_cases hzero : l.targetByteBudget / bytes = 0
    · -- the target takes no more of this row
      have hsome : l.deliveredEvents ≠ 0 := by
        intro hnone
        have hfull := hl.fresh hnone
        have : 0 < l.targetByteBudget / bytes := Nat.div_pos (by omega) (by omega)
        omega
      obtain ⟨cache, hposition⟩ := currentPosition_ok { l with cache := some cached }
      dsimp only
      rw [if_pos hzero, if_neg hsome, bind_of_ok hposition]
      refine ⟨[], .stop ⟨l.entryStart, l.eventOffset⟩, _, by rw [List.append_nil]; rfl, ?_⟩
      rw [List.zip_nil_right]
      exact ⟨rfl, rfl, le_rfl, by simp, hsome, by simp⟩
    dsimp only
    rw [if_neg hzero]
    generalize hn : min (min l.remaining l.eventBudget) (l.targetByteBudget / bytes) = n
    have hremaining : 0 < l.remaining := by
      obtain ⟨_, _, hpos, _⟩ := hl.located
      exact hpos
    have htake : 0 < n ∧ n ≤ l.remaining ∧ n ≤ l.eventBudget ∧ n ≤ l.targetByteBudget / bytes := by
      omega
    obtain ⟨hpos, hleft, hbudget, htarget⟩ := htake
    have hcharged : n * bytes ≤ l.targetByteBudget :=
      (Nat.mul_le_mul_right bytes htarget).trans (Nat.div_mul_le_self _ _)
    have hword : n * bytes < 2 ^ 64 := by
      have : maxTargetBatchBytes < 2 ^ 64 := by decide
      omega
    have hoffset : l.eventOffset + n < 2 ^ 64 := by
      obtain ⟨_, _, _, _, hsum⟩ := hl.located
      have hcount := count_take_le e.change.events (l.rowIndex + 1)
      have hstop := (htiled.mem_range he).2
      unfold Entry.stop at hstop
      omega
    obtain ⟨diff, hdiff, habs⟩ : ∃ diff, signedCount event.2 n = .ok diff ∧ diff.natAbs = n :=
      signedCount_ok (by omega)
    have hlift : (lift (signedCount event.2 n) : LoadM Row Int) { l with cache := some cached } =
        .ok diff { l with cache := some cached } := by
      rw [hdiff]
      rfl
    have hpay : charge n bytes { l with cache := some cached } = .ok () _ :=
      charge_ok (show l.deliveredEvents + n < 2 ^ 64 by omega) hoffset hword
    rw [bind_of_ok hlift, bind_of_ok hpay]
    set u : Loader Row := { l with
      cache := some cached
      deliveredEvents := l.deliveredEvents + n
      eventOffset := l.eventOffset + n
      eventBudget := l.eventBudget - n
      targetByteBudget := l.targetByteBudget - n * bytes
      remaining := l.remaining - n } with hu
    have hget' : (get : LoadM Row (Loader Row)) u = .ok u u := rfl
    rw [bind_of_ok hget']
    by_cases hmore : u.remaining ≠ 0
    · -- the row is cut
      obtain ⟨cache, hposition⟩ := currentPosition_ok u
      rw [if_pos hmore, bind_of_ok hposition]
      exact ⟨[diff], _, _, rfl, Taken.single habs hpos hbudget hcharged hcost rfl rfl rfl (by simp)⟩
    -- the row is used up
    rw [if_neg hmore]
    have hall : n = l.remaining := by
      have : ¬ l.remaining - n ≠ 0 := hmore
      omega
    have hholding : Holding sizeEvent e u :=
      ⟨hl.holding.entryStart, hl.holding.entryEnd, cached, rfl, hright⟩
    have hboundary : u.eventOffset = e.key + count (e.change.events.take (u.rowIndex + 1)) := by
      obtain ⟨_, _, _, _, hsum⟩ := hl.located
      show l.eventOffset + n = e.key + count (e.change.events.take (l.rowIndex + 1))
      omega
    have hrow : u.rowIndex < e.change.numRows := (List.getElem?_eq_some_iff.mp hevent).1
    obtain ⟨out, t, hadvance⟩ : ∃ out t, advanceRow before e.bytes e.change u = .ok out t :=
      (advanceRow_raises hholding hrow hl.bytes hboundary).exists_ok
    have hspec := (advanceRow_spec htiled he hholding.holds hboundary).of_ok rfl hadvance
    have hadvanced := (advanceRow_advanced e.bytes e.change).of_ok rfl hadvance
    rw [bind_of_ok hadvance]
    cases out with
    | some progress =>
      refine ⟨[diff], progress, t, rfl, ?_⟩
      refine Taken.single habs hpos hbudget hcharged hcost hadvanced.eventBudget
        hadvanced.targetByteBudget hadvanced.deliveredEvents ?_
      rintro rfl
      exact ⟨by rw [hadvanced.eventBudget]; exact hadvanced.more (.inr rfl),
        (hadvanced.next rfl).1⟩
    | none =>
      obtain ⟨next, hnext, ht⟩ := hspec
      have hstanding : Standing sizeEvent e t := by
        have hmore' := hadvanced.more (.inl rfl)
        rw [ht]
        refine ⟨⟨hl.holding.entryStart, hl.holding.entryEnd, cached, rfl, hright⟩,
          located_boundary hboundary hnext, hmore', ?_, ?_, ?_, hl.bytes⟩
        · intro hnone
          have : l.deliveredEvents + n = 0 := hnone
          omega
        · show l.targetByteBudget - n * bytes ≤ _
          omega
        · show l.deliveredEvents + n + (l.eventBudget - n) < 2 ^ 63
          omega
      obtain ⟨taken, progress, v, hrun, htaken⟩ := ih (localDiffs ++ [diff]) hstanding
        (by rw [ht]; exact hrest)
      refine ⟨diff :: taken, progress, v, ?_, ?_⟩
      · show consumeRows sizeEvent before e.bytes e.change rows (localDiffs ++ [diff]) t = _
        rw [hrun, List.append_assoc]
        rfl
      · have hone : Taken cost before l (((event :: rows).map (·.1)).zip [diff]) (.stop ⟨0, 0⟩) t :=
          Taken.single habs hpos hbudget hcharged hcost (by rw [ht]) (by rw [ht]) (by rw [ht])
            (by simp)
        have hsplit : ((event :: rows).map (·.1)).zip (diff :: taken) =
            ((event :: rows).map (·.1)).zip [diff] ++ (rows.map (·.1)).zip taken := by simp
        have hevents := htaken.events
        have hdelivered := htaken.delivered
        have hbill := htaken.charged
        have hevents' := hone.events
        have hdelivered' := hone.delivered
        have hbill' := hone.charged
        rw [hsplit]
        refine ⟨?_, ?_, ?_, ?_, htaken.some_, htaken.next⟩
        · rw [count_append]
          omega
        · rw [count_append]
          omega
        · rw [bill_append]
          omega
        · intro event' hmem
          rcases List.mem_append.mp hmem with hin | hin
          · exact hone.nonzero event' hin
          · exact htaken.nonzero event' hin

/-! ## The entries of a delivery -/

/-- The budgets of a load, against what it has gathered. -/
structure Spent (cost : Row → Nat) (maxEvents : Nat) (l : Loader Row) : Prop where
  events : l.eventBudget + count (gathered l) = maxEvents
  delivered : l.deliveredEvents = count (gathered l)
  charged : l.targetByteBudget + bill cost (gathered l) ≤ maxTargetBatchBytes
  nonzero : ∀ event ∈ gathered l, event.2 ≠ 0

/-- The load has something to deliver. -/
structure Delivering (cost : Row → Nat) (maxEvents : Nat) (l : Loader Row) : Prop where
  spent : Spent cost maxEvents l
  some_ : l.deliveredEvents ≠ 0
  first : l.firstEntry.isSome

/-- The load goes on. -/
structure Going (cost : Row → Nat) (maxEvents : Nat) (l : Loader Row) : Prop where
  spent : Spent cost maxEvents l
  open_ : 0 < l.eventBudget
  encoded : l.encodedBytes ≤ maxDeliveryBytes
  begun : l.encodedBytes ≠ 0 → l.deliveredEvents ≠ 0 ∧ l.firstEntry.isSome
  fresh : l.deliveredEvents = 0 → l.targetByteBudget = maxTargetBatchBytes

theorem pushRows_raises {P : OperationError → Prop} (firstRow : Nat) (change : Change Row)
    (localDiffs : List Int) (l : Loader Row) : Raises P (pushRows firstRow change localDiffs) l :=
  Raises.ite (fun _ => Raises.pure _) fun _ => Raises.modify _

/-- The load as it starts to take rows of an entry. -/
def Loader.entered (l : Loader Row) (itemBytes row remaining : Nat) (change : Change Row) :
    Loader Row :=
  { l with
    encodedBytes := l.encodedBytes + itemBytes
    rowIndex := row
    remaining
    firstEntry := l.firstEntry.or (some change) }

/-- An entry is left for the next delivery, or its rows are taken. -/
theorem consumeEntry_enters (sizeEvent : Change Row → Nat → Except OperationError Nat)
    (before : BufferState) (maxEvents : Nat) (hbounded : e.stop < 2 ^ 64)
    (hsmall : e.bytes ≤ maxDeliveryBytes) {l : Loader Row} (hl : Holds e l)
    (hencoded : l.encodedBytes ≤ maxDeliveryBytes)
    (hrange : e.key ≤ l.eventOffset ∧ l.eventOffset < e.stop) :
    (l.encodedBytes ≠ 0 ∧
      consumeEntry sizeEvent before (deliveryLimits maxEvents) e.bytes e.change l =
        .ok (.stop (.atEntry l.entryStart)) l) ∨
    (l.encodedBytes + e.bytes ≤ maxDeliveryBytes ∧ ∃ row remaining,
      Located e l.eventOffset row remaining ∧
      consumeEntry sizeEvent before (deliveryLimits maxEvents) e.bytes e.change l =
        (consumeRows sizeEvent before e.bytes e.change (e.change.events.drop row) [] >>= fun out =>
          pushRows row e.change out.1 >>= fun _ => pure out.2)
          (l.entered e.bytes row remaining e.change)) := by
  have hword : maxDeliveryBytes + maxDeliveryBytes < 2 ^ 64 := by decide
  have hget : (get : LoadM Row (Loader Row)) l = .ok l l := rfl
  have hlimit : ¬ e.bytes > (deliveryLimits maxEvents).encodedBytes := Nat.not_lt.mpr hsmall
  have hdef : consumeEntry sizeEvent before (deliveryLimits maxEvents) e.bytes e.change l =
      (if l.encodedBytes ≠ 0 ∧ l.encodedBytes + e.bytes > maxDeliveryBytes then
        pure (.stop (.atEntry l.entryStart))
      else do
        set { l with encodedBytes := l.encodedBytes + e.bytes }
        locatePosition e.change
        modify fun l => { l with firstEntry := l.firstEntry.or (some e.change) }
        let firstRow := (← get).rowIndex
        let out ← consumeRows sizeEvent before e.bytes e.change (e.change.events.drop firstRow) []
        pushRows firstRow e.change out.1
        pure out.2 : LoadM Row LoadProgress) l := by
    unfold consumeEntry
    rw [bind_of_ok hget, if_neg hlimit, checkedAdd_eq_some.mpr ⟨rfl, by omega⟩]
    rfl
  rw [hdef]
  by_cases hfull : l.encodedBytes ≠ 0 ∧ l.encodedBytes + e.bytes > maxDeliveryBytes
  · rw [if_pos hfull]
    exact .inl ⟨hfull.1, rfl⟩
  · rw [if_neg hfull]
    refine .inr ⟨by omega, ?_⟩
    have hset : (set { l with encodedBytes := l.encodedBytes + e.bytes } : LoadM Row PUnit) l =
      .ok ⟨⟩ { l with encodedBytes := l.encodedBytes + e.bytes } := rfl
    obtain ⟨row, remaining, hlocated, hlocate⟩ := locatePosition_ok
      (l := { l with encodedBytes := l.encodedBytes + e.bytes }) hbounded
      ⟨hl.entryStart, hl.entryEnd, hl.cached⟩ (by
        show ¬ (l.eventOffset < l.entryStart ∨ l.eventOffset ≥ l.entryEnd)
        rw [hl.entryStart, hl.entryEnd]
        omega)
    rw [bind_of_ok hset, bind_of_ok hlocate]
    exact ⟨row, remaining, hlocated, rfl⟩

/-- What was spent on the rows of an entry is spent by the load. -/
theorem Spent.push {maxEvents : Nat} {l u t w : Loader Row} {got : List (Row × Int)}
    {progress : LoadProgress} (h : Spent cost maxEvents l)
    (hbudgets : u.eventBudget = l.eventBudget ∧ u.deliveredEvents = l.deliveredEvents ∧
      u.targetByteBudget = l.targetByteBudget)
    (htaken : Taken cost before u got progress t)
    (hsame : w.eventBudget = t.eventBudget ∧ w.deliveredEvents = t.deliveredEvents ∧
      w.targetByteBudget = t.targetByteBudget)
    (hgathered : gathered w = gathered l ++ got) : Spent cost maxEvents w := by
  obtain ⟨hevents, hdelivered, htarget⟩ := hbudgets
  obtain ⟨hevents', hdelivered', htarget'⟩ := hsame
  have h1 := h.events
  have h2 := h.delivered
  have h3 := h.charged
  have h4 := htaken.events
  have h5 := htaken.delivered
  have h6 := htaken.charged
  refine ⟨?_, ?_, ?_, ?_⟩
  · rw [hgathered, count_append]
    omega
  · rw [hgathered, count_append]
    omega
  · rw [hgathered, bill_append]
    omega
  · rw [hgathered]
    intro event hmem
    rcases List.mem_append.mp hmem with hin | hin
    · exact h.nonzero event hin
    · exact htaken.nonzero event hin

/-- An entry is consumed without a failure, and the load goes on or has something to deliver. -/
theorem consumeEntry_ok {maxEvents : Nat} (hfew : maxEvents < 2 ^ 63)
    (htiled : Tiled start es before.tail) (he : e ∈ es) (hbounded : before.tail < 2 ^ 64)
    (hcharge : Chargeable sizeEvent cost e.change) (hsmall : e.bytes ≤ maxDeliveryBytes)
    {rest : List (Entry Row)} {l : Loader Row} (htop : AtTop before es (e :: rest) l)
    (hl : Holding sizeEvent e l) (hgoing : Going cost maxEvents l) :
    ∃ progress t,
      consumeEntry sizeEvent before (deliveryLimits maxEvents) e.bytes e.change l =
        .ok progress t ∧
      (progress = .continue → Going cost maxEvents t ∧ t.entryStart ≠ before.tail) ∧
      (∀ after, progress = .stop after → Delivering cost maxEvents t) := by
  obtain ⟨⟨gone, hwalk⟩, -, -⟩ := htop
  have hstop := (htiled.mem_range he).2
  obtain ⟨hbegun, hrun⟩ | ⟨hencoded, row, remaining, hlocated, hrun⟩ :=
    consumeEntry_enters sizeEvent before maxEvents (by omega) hsmall hl.holds hgoing.encoded
      hwalk.placed.2
  · -- the entry does not fit, and the load has something from the entries before it
    refine ⟨_, l, hrun, fun h => (by cases h), fun _ _ => ?_⟩
    exact ⟨hgoing.spent, (hgoing.begun hbegun).1, (hgoing.begun hbegun).2⟩
  have hspent := hgoing.spent
  have hstanding : Standing sizeEvent e (l.entered e.bytes row remaining e.change) := by
    have hevents := hspent.events
    have hdelivered := hspent.delivered
    have hcharged := hspent.charged
    refine ⟨⟨hl.entryStart, hl.entryEnd, hl.cached⟩, hlocated, hgoing.open_, ?_, ?_, ?_, ?_⟩
    · intro hnone
      exact (hgoing.fresh hnone).symm.le
    · show l.targetByteBudget ≤ _
      omega
    · show l.deliveredEvents + l.eventBudget < 2 ^ 63
      omega
    · show e.bytes ≤ l.retainedBytes
      rw [hwalk.bytes, weight_cons]
      omega
  obtain ⟨taken, progress, v, hrows, htaken⟩ :=
    consumeRows_ok htiled he hbounded hcharge _ [] hstanding rfl
  obtain ⟨taken', htaken', hlength, -, -, hsame, -⟩ :=
    (consumeRows_spec htiled he _ [] hstanding.holding.holds rfl hlocated).of_ok rfl hrows
  obtain rfl : taken = taken' := htaken'
  obtain ⟨_, w, hpush⟩ := (pushRows_raises (P := fun _ => False) row e.change taken v).exists_ok
  have hpushed : Triple (· = v) _ _ (Safe es before) := pushRows_spec row e.change taken
  obtain ⟨hbatches, hdiffs, hw⟩ := hpushed.of_ok rfl hpush
  obtain ⟨hfirst, hbytes, hbatches', hdiffs'⟩ := hsame
  have hfirst' : v.firstEntry.isSome := by
    rw [hfirst]
    show (l.firstEntry.or (some e.change)).isSome
    rw [Option.isSome_or]
    exact Bool.or_true _
  have hdone : Spent cost maxEvents w := by
    refine hspent.push (u := l.entered e.bytes row remaining e.change) (t := v) ⟨rfl, rfl, rfl⟩
      htaken ⟨by rw [hw], by rw [hw], by rw [hw]⟩ ?_
    exact gathered_push hwalk.lengths hlength (by rw [hbatches, hbatches']; rfl)
      (by rw [hdiffs, hdiffs']; rfl)
  have hrows' : consumeRows sizeEvent before e.bytes e.change (e.change.events.drop row) []
      (l.entered e.bytes row remaining e.change) = .ok (taken, progress) v := hrows
  refine ⟨progress, w, by rw [hrun, bind_of_ok hrows', bind_of_ok hpush]; rfl, ?_, ?_⟩
  · rintro rfl
    obtain ⟨hopen, htail⟩ := htaken.next rfl
    have hsome := htaken.some_
    rw [hw] at hdone ⊢
    refine ⟨⟨hdone, hopen, ?_, fun _ => ⟨hsome, hfirst'⟩, fun hnone => absurd hnone hsome⟩, htail⟩
    show v.encodedBytes ≤ _
    rw [hbytes]
    exact hencoded
  · intro after _
    have hsome := htaken.some_
    rw [hw] at hdone ⊢
    exact ⟨hdone, hsome, hfirst'⟩

/-- The entries a load can go through. -/
structure Stocked (codec : SchemaBoundChangeCodec Row)
    (sizeEvent : Change Row → Nat → Except OperationError Nat) (cost : Row → Nat)
    (buffer : OrdMap Nat Bytes) (before : BufferState) (es : List (Entry Row)) : Prop where
  stored : buffer.entries = stored es
  tiled : Tiled before.head.entryStart es before.tail
  bounded : before.tail < 2 ^ 64
  decoded : ∀ e ∈ es, codec.decode e.encoded = .ok e.change
  small : ∀ e ∈ es, e.bytes ≤ maxDeliveryBytes
  chargeable : ∀ e ∈ es, Chargeable sizeEvent cost e.change

theorem Stocked.loadable (h : Stocked codec sizeEvent cost buffer before es) (maxEvents : Nat) :
    ∀ e ∈ es, Loadable codec (deliveryLimits maxEvents) before.tail e := by
  intro e he
  exact ⟨h.decoded e he, h.small e he, (by decide : maxDeliveryBytes < 2 ^ 64),
    (h.tiled.mem_range he).2, h.bounded⟩

theorem run_ok {maxEvents : Nat} (hfew : maxEvents < 2 ^ 63)
    (hstock : Stocked codec sizeEvent cost buffer before es) (rounds : Nat)
    {rest : List (Entry Row)} {l : Loader Row} (htop : AtTop before es rest l)
    (hsized : CacheSized sizeEvent l.cache) (hgoing : Going cost maxEvents l)
    (hlt : l.entryStart < before.tail) (hrounds : before.tail - l.entryStart ≤ rounds) :
    ∃ after t, run codec sizeEvent buffer before (deliveryLimits maxEvents) rounds l =
      .ok after t ∧ Delivering cost maxEvents t := by
  induction rounds generalizing l rest with
  | zero => omega
  | succ rounds ih =>
    have htiled := hstock.tiled
    have hload := hstock.loadable maxEvents
    obtain ⟨⟨gone, hwalk⟩, hboundary, hsafe⟩ := htop
    obtain _ | ⟨e, rest⟩ := rest
    · have : l.entryStart = before.tail := hwalk.after_tiled
      omega
    have he : e ∈ es := by
      rw [hwalk.split]
      exact List.mem_append_right _ List.mem_cons_self
    have hkey : l.entryStart = e.key := hwalk.after_tiled.1.symm
    obtain ⟨cached, hright, hread⟩ := loadEntry_right hstock.stored hload he hkey hsafe hsized
    set u : Loader Row := { l with cache := some cached, entryEnd := e.stop } with hu
    have hholding : Holding sizeEvent e u := ⟨hkey, rfl, cached, rfl, hright⟩
    have htop' : AtTop before es (e :: rest) u :=
      ⟨⟨gone, hwalk.split, hwalk.before_tiled, hwalk.after_tiled, hwalk.placed, hwalk.keys,
        hwalk.bytes, hwalk.lengths, hwalk.delivered⟩, hboundary, hholding.holds.safe htiled he⟩
    have hgoing' : Going cost maxEvents u :=
      ⟨⟨hgoing.spent.events, hgoing.spent.delivered, hgoing.spent.charged, hgoing.spent.nonzero⟩,
        hgoing.open_, hgoing.encoded, hgoing.begun, hgoing.fresh⟩
    obtain ⟨progress, t, hconsume, hcontinue, hstop⟩ := consumeEntry_ok hfew htiled he
      hstock.bounded (hstock.chargeable e he) (hstock.small e he) htop' hholding hgoing'
    have hconsumed := (consumeEntry_spec htiled he htop' hholding.holds).of_ok rfl hconsume
    have hget : (get : LoadM Row (Loader Row)) l = .ok l l := rfl
    rw [run, bind_of_ok hget, if_neg (by omega), bind_of_ok hread]
    show ∃ after t, (consumeEntry sizeEvent before (deliveryLimits maxEvents) e.bytes e.change >>=
      _ : LoadM Row Position) u = .ok after t ∧ _
    rw [bind_of_ok hconsume]
    cases progress with
    | stop after => exact ⟨after, t, rfl, hstop after rfl⟩
    | «continue» =>
      obtain ⟨hgoing'', htail⟩ := hcontinue rfl
      have hsized' : CacheSized sizeEvent t.cache := by
        have hkeeps : Keeps sizeEvent e.change u := ⟨cached, rfl, hright.shown.change, hright.sized⟩
        exact ((consumeEntry_keeps e.bytes).of_ok hkeeps hconsume).sized
      have htop'' : AtTop before es rest t := hconsumed
      obtain ⟨gone', hwalk'⟩ := htop''.1
      have hle : before.tail = t.entryStart + count (stock rest) := hwalk'.after_tiled.tail_eq
      have hnext : e.stop = t.entryStart := by
        have hall : before.tail = l.entryStart + count (stock (e :: rest)) :=
          hwalk.after_tiled.tail_eq
        rw [stock_cons, count_append] at hall
        unfold Entry.stop
        omega
      have hkeylt := e.key_lt_stop
      exact ih htop'' hsized' hgoing'' (by omega) (by omega)

/-- The delivery of a load that has gathered something. -/
theorem finish_ok {maxEvents : Nat} {after : Position} {gone rest : List (Entry Row)}
    {t : Loader Row} (hwalk : Walk before es after gone rest t)
    (hdelivering : Delivering cost maxEvents t) (hstarted : 0 < before.head.entryStart)
    (hplaced : HeadIn before.head es) (htiled : Tiled before.head.entryStart es before.tail)
    (hbounded : before.tail < 2 ^ 64) :
    ∃ batch, finish before after t = .ok batch t ∧ batch.delivery.change.events = gathered t ∧
      batch.delivery.firstEventOffset = before.head.eventOffset ∧
      before.head.eventOffset + count (gathered t) ≤ before.tail := by
  obtain ⟨firstEntry, hfirst⟩ := Option.isSome_iff_exists.mp hdelivering.first
  have hspent := hdelivering.spent
  have hsome := hdelivering.some_
  have hrange := hplaced.range_iff htiled
  have hafter := hwalk.placed.range_iff hwalk.after_tiled
  have hstart := hwalk.before_tiled.tail_eq
  have hcount : count (gathered t) + (before.tail - after.eventOffset) =
      before.tail - before.head.eventOffset := by
    have hlength := congrArg List.length hwalk.delivered
    rw [List.length_append, List.length_drop, List.length_drop, length_units, length_units,
      length_units] at hlength
    have htail := htiled.tail_eq
    have htail' := hwalk.after_tiled.tail_eq
    omega
  have hnonempty : gathered t ≠ [] := by
    intro hnil
    have hdelivered := hspent.delivered
    rw [hnil, count_nil] at hdelivered
    exact hsome hdelivered
  have hnew : tryNew firstEntry.numColumns t.recordBatches.flatten t.diffs =
      .ok ⟨firstEntry.numColumns, gathered t, hnonempty, hspent.nonzero⟩ := by
    unfold tryNew
    rw [if_neg (not_not.mpr hwalk.lengths)]
    have hchange : Change.tryNew firstEntry.numColumns (gathered t) =
        some ⟨firstEntry.numColumns, gathered t, hnonempty, hspent.nonzero⟩ := by
      unfold Change.tryNew
      rw [dif_pos ⟨hnonempty, hspent.nonzero⟩]
    unfold gathered at hchange
    rw [hchange]
    rfl
  have hdelivery : DeliveryBatch.new
      ⟨firstEntry.numColumns, gathered t, hnonempty, hspent.nonzero⟩ before.head.eventOffset =
      .ok ⟨⟨firstEntry.numColumns, gathered t, hnonempty, hspent.nonzero⟩,
        before.head.eventOffset⟩ := by
    have hdelivered := hspent.delivered
    unfold DeliveryBatch.new
    rw [eventCount_eq_ok.mpr ⟨rfl, show count (gathered t) < 2 ^ 64 by omega⟩]
    show (if before.head.eventOffset = 0 ∨ count (gathered t) = 0 ∨
      checkedAdd before.head.eventOffset (count (gathered t)) = none then _ else _) = _
    rw [if_neg]
    rintro (hzero | hnone | hover)
    · omega
    · omega
    · rw [checkedAdd_eq_some.mpr ⟨rfl, by omega⟩] at hover
      cases hover
  have hvalidate : (⟨after, before.tail, t.retainedBytes⟩ : BufferState).validate = .ok () :=
    BufferState.validate_of_tiled hwalk.after_tiled hwalk.placed hwalk.bytes
      (show 0 < after.entryStart by omega)
  have hget : (get : LoadM Row (Loader Row)) t = .ok t t := rfl
  refine ⟨⟨⟨⟨firstEntry.numColumns, gathered t, hnonempty, hspent.nonzero⟩,
    before.head.eventOffset⟩, ⟨after, before.tail, t.retainedBytes⟩, firstEntry,
    t.consumedKeys⟩, ?_, rfl, rfl, by omega⟩
  unfold finish
  rw [bind_of_ok hget, hfirst]
  dsimp only
  rw [hnew]
  show (lift (DeliveryBatch.new _ _) >>= _ : LoadM Row (LoadedBatch Row)) t = _
  rw [hdelivery]
  show (lift (BufferState.validate _) >>= _ : LoadM Row (LoadedBatch Row)) t = _
  rw [hvalidate]
  rfl

/-- What is known of a load of admitted entries: what it delivers starts at the head, is within
the event limit and costs at most the target budget. -/
theorem load_ok {maxEvents : Nat} (hpos : 0 < maxEvents) (hfew : maxEvents < 2 ^ 63)
    (hstock : Stocked codec sizeEvent cost buffer before es) (hplaced : HeadIn before.head es)
    (hbytes : before.retainedBytes = weight es) (hstarted : 0 < before.head.entryStart)
    (hnonempty : es ≠ []) {cache : Option (EntryCache Row)}
    (hcache : CacheRight sizeEvent es before.tail cache) :
    ∃ batch, (load codec sizeEvent buffer before (deliveryLimits maxEvents) cache).1 = .ok batch ∧
      batch.delivery.firstEventOffset = before.head.eventOffset ∧
      before.head.eventOffset + count batch.delivery.change.events ≤ before.tail ∧
      count batch.delivery.change.events ≤ maxEvents ∧
      bill cost batch.delivery.change.events ≤ maxTargetBatchBytes := by
  have htiled := hstock.tiled
  have hvalidate : before.validate = .ok () :=
    BufferState.validate_of_tiled htiled hplaced hbytes hstarted
  obtain ⟨hle, hlast, hiff⟩ := hplaced.range_iff htiled
  have hpending : before.head.eventOffset ≠ before.tail := fun h => hnonempty (hiff.mp h)
  have hempty : ¬ before.isEmpty = true := fun h => hpending (of_decide_eq_true h)
  have hlimits : (deliveryLimits maxEvents).validate = .ok () := by
    unfold LoadLimits.validate deliveryLimits
    dsimp only
    rw [if_neg (by omega), if_neg (by decide), if_neg (by decide), if_neg (by decide)]
  set l : Loader Row := .start before (deliveryLimits maxEvents) cache with hl
  have htop : AtTop before es es l :=
    ⟨⟨[], rfl, rfl, htiled, hplaced, rfl, hbytes, rfl, rfl⟩, fun h => absurd rfl h, hcache.1⟩
  have hgoing : Going cost maxEvents l := by
    refine ⟨⟨rfl, rfl, le_rfl, ?_⟩, hpos, Nat.zero_le _, fun h => absurd rfl h, fun _ => rfl⟩
    intro event hmem
    cases hmem
  obtain ⟨after, t, hrun, hdelivering⟩ := run_ok hfew hstock (before.tail - before.head.entryStart)
    htop hcache.2 hgoing (show before.head.entryStart < before.tail by omega) le_rfl
  have hspec : Triple (fun l => ∃ rest, AtTop before es rest l)
      (run codec sizeEvent buffer before (deliveryLimits maxEvents)
        (before.tail - before.head.entryStart)) _ _ :=
    run_spec hstock.stored htiled hstock.decoded _
  obtain ⟨⟨gone, rest, hwalk⟩, -⟩ := hspec.of_ok ⟨es, htop⟩ hrun
  obtain ⟨batch, hfinish, hevents, hfirst, hinside⟩ :=
    finish_ok hwalk hdelivering hstarted hplaced htiled hstock.bounded
  have hload : loadBatch codec sizeEvent buffer before (deliveryLimits maxEvents) l =
      .ok batch t := by
    unfold loadBatch
    rw [hvalidate, hlimits]
    show (if before.isEmpty then _ else _ : LoadM Row (LoadedBatch Row)) l = _
    rw [if_neg hempty, bind_of_ok hrun, hfinish]
  have hspent := hdelivering.spent
  refine ⟨batch, ?_, hfirst, ?_, ?_, ?_⟩
  · unfold load
    rw [hload]
  · rw [hevents]
    exact hinside
  · rw [hevents]
    have := hspent.events
    omega
  · rw [hevents]
    have := hspent.charged
    omega

end Loader

end Dogpaddle.Buffered
