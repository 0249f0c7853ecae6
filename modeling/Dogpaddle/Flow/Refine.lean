import Dogpaddle.Flow.Stack
import Dogpaddle.Flow.Advance
import Dogpaddle.Operation.Stateless

/-!
# Rounds refine calls

Every commit of every run keeps one invariant (`Kept`): the committed events
are completed root calls followed by the part of one more call that the durable
stack stands for. It survives failed and uncertain commits, because a world is
only ever the old one or the one a whole transaction publishes, and it speaks of
the store alone, so a reopen changes nothing.
-/

namespace Dogpaddle.Flow

open Dogpaddle Lib

variable {S Q Row : Type}

/-! ## The committed history -/

/-- The events of all committed computations. -/
def committed (log : List (Effect Row)) : List (Event Row) :=
  log.flatMap fun
    | .compute events => events
    | _ => []

/-- The items a source has published. -/
def captured (source : Nat) (log : List (Effect Row)) : List Bytes :=
  log.flatMap fun
    | .capture s items => if s = source then items else []
    | _ => []

/-- The items removed from a source's queue. -/
def consumed (source : Nat) (events : List (Event Row)) : List Bytes :=
  events.filterMap fun
    | .consume s item => if s = source then some item else none
    | _ => none

/-- A root returns, if at all, at the end of its transaction, together with the
removal of its item. -/
def ReturnsWhole (events : List (Event Row)) : Prop :=
  (∀ e ∈ events, e.isReturn = false) ∨
    ∃ before source item, events = before ++ [.finish source none] ++ [.consume source item] ∧
      ∀ e ∈ before, e.isReturn = false

/-- What the durable stack stands for: nothing, or one unfinished root call on
the front of its source's queue. -/
inductive Situation (rt : Runtime S Q Row) (store : Store S Q) (σ : Nat → S) :
    List (Event Row) → Prop
  | idle : store.states = σ → Clear store 0 → Situation rt store σ []
  | busy {source : Nat} {item : Bytes} {rest : List Bytes} {input : Change Row} {top : Task Row}
      {below : List (Task Row)} {events : List (Event Row)} :
      store.queues source = item :: rest →
      (rt.operation source).isSource = true →
      (rt.codec source).decode item = .ok input →
      Standing rt store source (top :: below) →
      Moves rt [rootCall rt source input] σ events (top :: below) store.states →
      (∀ e ∈ events, e.isReturn = false) →
      Situation rt store σ events

/-- The invariant of every commit. -/
structure Kept (rt : Runtime S Q Row) (states : Nat → S) (store : Store S Q)
    (log : List (Effect Row)) : Prop where
  trace : ∃ served σ events, Served rt states served σ ∧ Situation rt store σ events ∧
    committed log = served ++ events
  queued : ∀ source, captured source log = consumed source (committed log) ++ store.queues source
  returns : ∀ events, Effect.compute events ∈ log → ReturnsWhole events

@[simp] theorem committed_append (log log' : List (Effect Row)) :
    committed (log ++ log') = committed log ++ committed log' := by
  simp [committed]

@[simp] theorem captured_append (source : Nat) (log log' : List (Effect Row)) :
    captured source (log ++ log') = captured source log ++ captured source log' := by
  simp [captured]

@[simp] theorem consumed_append (source : Nat) (events events' : List (Event Row)) :
    consumed source (events ++ events') = consumed source events ++ consumed source events' := by
  simp [consumed]

@[simp] theorem committed_compute (events : List (Event Row)) :
    committed [.compute events] = events := by
  simp [committed]

@[simp] theorem committed_capture (source : Nat) (items : List Bytes) :
    committed ([.capture source items] : List (Effect Row)) = [] := rfl

@[simp] theorem captured_compute (source : Nat) (events : List (Event Row)) :
    captured source [.compute events] = [] := rfl

@[simp] theorem captured_capture (source s : Nat) (items : List Bytes) :
    captured source ([.capture s items] : List (Effect Row)) = if s = source then items else [] := by
  simp [captured]

@[simp] theorem consumed_nil (source : Nat) :
    consumed source ([] : List (Event Row)) = [] := rfl

@[simp] theorem consumed_finish (source head : Nat) (port : Option Nat)
    (events : List (Event Row)) :
    consumed source (.finish head port :: events) = consumed source events := rfl

@[simp] theorem consumed_consume (source s : Nat) (item : Bytes) (events : List (Event Row)) :
    consumed source (.consume s item :: events) =
      if s = source then item :: consumed source events else consumed source events := by
  by_cases h : s = source <;> simp [consumed, h]

/-- Nothing is consumed before a return. -/
theorem consumed_eq_nil {events : List (Event Row)} (source : Nat)
    (h : ∀ e ∈ events, e.isReturn = false) : consumed source events = [] := by
  unfold consumed
  rw [List.filterMap_eq_nil_iff]
  intro e he
  cases e with
  | consume s item => exact absurd (h _ he) (by simp [Event.isReturn])
  | _ => rfl

section Kept

variable {rt : Runtime S Q Row} {states : Nat → S} {store : Store S Q} {log : List (Effect Row)}

/-- Only operator states, queues and frames matter to the invariant. -/
theorem Situation.congr {store' : Store S Q} {σ : Nat → S} {events : List (Event Row)}
    (h : Situation rt store σ events) (hstates : store'.states = store.states)
    (hcontrols : store'.controls = store.controls) (houtputs : store'.outputs = store.outputs)
    (hqueues : ∀ source item rest, store.queues source = item :: rest →
      ∃ rest', store'.queues source = item :: rest') : Situation rt store' σ events := by
  cases h with
  | idle hs hc =>
    refine .idle (hstates.trans hs) fun d hd => ?_
    rw [hcontrols, houtputs]
    exact hc d hd
  | @busy source item rest input top below _ hq hs hd hstand hm hquiet =>
    obtain ⟨rest', hq'⟩ := hqueues _ _ _ hq
    refine .busy hq' hs hd ⟨?_, fun d hd => ?_⟩ (hstates ▸ hm) hquiet
    · refine hstand.stacked.frame (show Agree _ (top :: below).length _ _ from ⟨?_, ?_, ?_⟩) le_rfl
      · exact fun d _ => by rw [hcontrols]
      · exact fun d _ => by rw [houtputs]
      · rw [hq, hq']
        rfl
    · rw [hcontrols, houtputs]
      exact hstand.clear d hd

/-- Effects that neither compute nor publish. -/
def Effect.inert : Effect Row → Bool
  | .compute _ => false
  | .capture _ _ => false
  | _ => true

theorem Kept.effect (h : Kept rt states store log) {e : Effect Row} (he : e.inert = true) :
    Kept rt states store (log ++ [e]) := by
  have hcommitted : committed [e] = [] := by cases e <;> first | rfl | cases he
  have hcaptured : ∀ source, captured source [e] = [] := by
    intro source
    cases e <;> first | rfl | cases he
  refine ⟨?_, fun source => ?_, fun events hmem => ?_⟩
  · simpa [hcommitted] using h.trace
  · simpa [hcommitted, hcaptured] using h.queued source
  · rcases List.mem_append.mp hmem with hmem | hmem
    · exact h.returns events hmem
    · rw [← List.mem_singleton.mp hmem] at he
      cases he

/-- Publishing at the end of a source's queue keeps every front. -/
theorem Kept.capture (h : Kept rt states store log) (source : Nat) (items : List Bytes) :
    Kept rt states
      { store with queues :=
        Function.update store.queues source (store.queues source ++ items) }
      (log ++ [.capture source items]) := by
  obtain ⟨served, σ, events, hserved, hsituation, hlog⟩ := h.trace
  refine ⟨⟨served, σ, events, hserved, hsituation.congr rfl rfl rfl ?_, ?_⟩, fun s => ?_,
    fun e hmem => ?_⟩
  · intro s item rest hq
    by_cases hs : s = source
    · subst hs
      exact ⟨rest ++ items, by simp [hq]⟩
    · exact ⟨rest, by simp [hs, hq]⟩
  · simpa using hlog
  · by_cases hs : s = source
    · subst hs
      simp [h.queued s]
    · simp [h.queued s, hs, Ne.symm hs]
  · rcases List.mem_append.mp hmem with hmem | hmem
    · exact h.returns e hmem
    · cases List.mem_singleton.mp hmem

/-- A sink's outbox is beside the stack. -/
theorem Kept.outboxes (h : Kept rt states store log) (outboxes : Nat → Q) :
    Kept rt states { store with outboxes } log := by
  obtain ⟨served, σ, events, hserved, hsituation, hlog⟩ := h.trace
  exact ⟨⟨served, σ, events, hserved,
    hsituation.congr rfl rfl rfl fun _ _ rest hq => ⟨rest, hq⟩, hlog⟩, h.queued, h.returns⟩

/-- A committed transaction of an unfinished root call. -/
theorem Kept.transacted {source : Nat} {item : Bytes} {rest : List Bytes} {input : Change Row}
    {served events : List (Event Row)} {σ : Nat → S} {tasks : List (Task Row)}
    {txn : Txn S Q Row} (h : Kept rt states store log) (hserved : Served rt states served σ)
    (hlog : committed log = served ++ events) (hq : store.queues source = item :: rest)
    (hs : (rt.operation source).isSource = true) (hd : (rt.codec source).decode item = .ok input)
    (hm : Moves rt [rootCall rt source input] σ events tasks store.states)
    (hquiet : ∀ e ∈ events, e.isReturn = false)
    (ht : Transacted rt source store.queues tasks store.states txn) :
    Kept rt states txn.store (log ++ [.compute txn.events]) := by
  cases ht with
  | standing hu hstand =>
    refine ⟨⟨served, σ, events ++ txn.events, hserved, ?_, ?_⟩, fun s => ?_, fun e hmem => ?_⟩
    · refine .busy (hu.queues ▸ hq) hs hd hstand (hm.trans hu.moves) fun e he => ?_
      rcases List.mem_append.mp he with he | he
      · exact hquiet e he
      · exact hu.quiet e he
    · simp [hlog]
    · simp [hu.queues, consumed_eq_nil s hu.quiet, h.queued s]
    · rcases List.mem_append.mp hmem with hmem | hmem
      · exact h.returns e hmem
      · cases List.mem_singleton.mp hmem
        exact .inl hu.quiet
  | @returned store' events' item' rest' hmoves hquiet' hq' hstand hqueues =>
    obtain ⟨rfl, rfl⟩ : item = item' ∧ rest = rest' := by
      rw [hq] at hq'
      exact List.cons.inj hq'
    have hnone := fun s => consumed_eq_nil s hquiet'
    have hserved' := hserved.snoc hs hd (hm.trans hmoves).runs_finished
    refine ⟨⟨_, store'.states, [], hserved', .idle rfl hstand.clear, ?_⟩, fun s => ?_,
      fun e hmem => ?_⟩
    · simp [hlog]
    · by_cases hsource : s = source
      · subst hsource
        simp [h.queued s, hqueues, hq, hnone]
      · simp [h.queued s, hqueues, hnone, hsource, Ne.symm hsource]
    · rcases List.mem_append.mp hmem with hmem | hmem
      · exact h.returns e hmem
      · cases List.mem_singleton.mp hmem
        exact .inr ⟨events', source, item, rfl, hquiet'⟩

end Kept

/-! ## The top of the stack -/

section Top

variable {rt : Runtime S Q Row} {store : Store S Q} {source : Nat}

/-- The frame that stands for a task. -/
theorem Held.control {depth : Nat} {task : Task Row} (h : Held rt store depth task) :
    ∃ phase, store.controls.get? depth = some ⟨task.head, task.port, phase⟩ := by
  cases task with
  | call head port input resume => exact ⟨_, h.1⟩
  | send head port input visits after =>
    obtain ⟨next, _, _, hcontrol, _⟩ := h
    exact ⟨_, hcontrol⟩

/-- The greatest control is the topmost task's. -/
theorem Standing.last? {top : Task Row} {below : List (Task Row)}
    (h : Standing rt store source (top :: below)) :
    ∃ phase, store.controls.last? = some (below.length, ⟨top.head, top.port, phase⟩) ∧
      store.controls.get? below.length = some ⟨top.head, top.port, phase⟩ := by
  obtain ⟨phase, hphase⟩ := h.stacked.1.control
  refine ⟨phase, (OrdMap.last?_eq_some_iff _ _ _).mpr ⟨hphase, fun d frame hd => ?_⟩, hphase⟩
  by_contra hgt
  have hnone := (h.clear d (by simp; omega)).1
  rw [hnone] at hd
  cases hd

/-- A consumer's port is fed by the last node of the head's chain. -/
theorem producer_of_consumer {parent next : Nat} {c : Consumer}
    (h : (rt.topology.consumers parent)[next]? = some c) :
    rt.producer c.operation c.port = chainEnd rt.topology.tails parent := by
  have hmem : c ∈ rt.topology.consumers parent := List.mem_of_getElem? h
  rw [(resolve_eq_ok rt.resolved).2.2 parent, mem_consumersOf] at hmem
  obtain ⟨node, hnode, hport⟩ := hmem
  simp [Runtime.producer, hnode, List.getD, hport]

/-- What a source publishes is the front of its queue. -/
theorem published_eq_some {item : Bytes} (h : Runtime.published store source = .ok (some item)) :
    (store.queues source).head? = some item := by
  unfold Runtime.published at h
  split at h
  · cases h
  · next front hfront =>
    rw [except_ite_eq_ok] at h
    obtain ⟨-, h⟩ := h
    cases h
    exact hfront

/-- The scheduler decodes exactly the input the frame was called with. -/
theorem Fed.decode {depth : Nat} {frame : Frame} {input : Change Row} {bytes : Bytes}
    (h : Fed rt store source depth frame.head frame.inputPort input)
    (hb : rt.input store depth frame = .ok bytes) :
    (rt.inputCodec frame).decode bytes = .ok input := by
  cases depth with
  | zero =>
    obtain ⟨hh, hp, hs, item, hitem, hdecode⟩ := h
    have hop : rt.operation source = .source := by
      cases hop : rt.operation source <;> simp_all [Operation.isSource]
    simp only [Runtime.input, hh, hop] at hb
    have hb' : item = bytes := by
      split at hb
      · cases hb
      · next found hfound =>
        cases hb
        exact Option.some.inj (hitem.symm.trans (published_eq_some hfound))
      · cases hb
    subst hb'
    simpa [Runtime.inputCodec, hp, hh] using hdecode
  | succ depth =>
    obtain ⟨parent, parentPort, next, after, c, encoded, _, hc, hh, hp, _, hout, hlen, hdecode⟩ := h
    have hb' : encoded = bytes := by
      simpa [Runtime.input, Runtime.output, hout, Nat.not_lt.mpr hlen] using hb
    subst hb'
    simpa [Runtime.inputCodec, hp, hh, producer_of_consumer hc, Runtime.outputCodec] using hdecode

end Top

/-! ## Rounds -/

section Rounds

variable {rt : Runtime S Q Row} {states : Nat → S} {env : Env Q}

/-- The invariant of a world. -/
def Safe (rt : Runtime S Q Row) (states : Nat → S) (w : World S Q Row) : Prop :=
  Kept rt states w.store w.log

/-- Nothing was committed since `store` and `log`. -/
def At (store : Store S Q) (log : List (Effect Row)) (w : World S Q Row) : Prop :=
  w.store = store ∧ w.log = log

/-- A failed action left the invariant, and only an uncertain commit can have
changed anything. -/
def Halted (rt : Runtime S Q Row) (states : Nat → S) (store : Store S Q) (log : List (Effect Row))
    (w : World S Q Row) : Prop :=
  Safe rt states w ∧ (w.needsReopen = false → At store log w)

variable {store store' : Store S Q} {log : List (Effect Row)}

theorem At.safe {w : World S Q Row} (h : At store log w) (hk : Kept rt states store log) :
    Safe rt states w := by
  unfold Safe
  rw [h.1, h.2]
  exact hk

theorem commit_spec {e : Effect Row} (hk : Kept rt states store log)
    (hk' : Kept rt states store' (log ++ [e])) :
    Triple (At store log) (commit env store' e) (fun _ => Safe rt states)
      (Halted rt states store log) := by
  unfold commit
  refine Triple.get fun w hw => ?_
  cases env.fate w.log.length with
  | done =>
    refine Triple.set _ fun _ _ => ?_
    simpa [Safe, hw.2] using hk'
  | failed =>
    refine Triple.bind (Triple.set _ fun _ _ => ?_) fun _ => Triple.throw _ fun _ h => h
    exact ⟨hw.safe hk, nofun⟩
  | crashed =>
    refine Triple.bind (Triple.set _ fun _ _ => ?_) fun _ => Triple.throw _ fun _ h => h
    exact ⟨by simpa [Safe, hw.2] using hk', nofun⟩

theorem sync_spec : Triple (Safe rt states) (sync env : FlowM S Q Row Unit)
    (fun _ => Safe rt states) (Safe rt states) := by
  unfold sync
  refine Triple.get fun w hw => ?_
  refine Triple.ite (fun _ => ?_) fun _ => Triple.pure _ fun s hs => hs ▸ hw
  cases env.fate w.log.length with
  | done => exact Triple.set _ fun _ _ => hw.effect rfl
  | failed | crashed =>
    exact Triple.bind (Triple.set _ fun _ _ => hw) fun _ => Triple.throw _ fun _ h => h

/-- Spending touches neither the store nor the log. -/
theorem spend_spec {bytes : Nat} (hk : Kept rt states store log) :
    Triple (At store log) (spend bytes : FlowM S Q Row Unit) (fun _ => At store log)
      (Halted rt states store log) := by
  unfold spend
  refine Triple.get fun w hw => ?_
  refine Triple.ite (fun _ => Triple.set _ fun _ _ => hw) fun _ => ?_
  refine Triple.bind (Triple.modify _ fun s hs => ?_) fun _ => Triple.throw _ fun _ h => h
  exact ⟨(hs ▸ hw : At store log s).safe hk, nofun⟩

theorem liftError_spec {α β : Type} {x : Except OperationError α} {f : α → FlowM S Q Row β}
    {Post : β → World S Q Row → Prop} {E : World S Q Row → Prop}
    (hE : ∀ w, At store log w → E w)
    (hf : ∀ a, x = .ok a → Triple (At store log) (f a) Post E) :
    Triple (At store log) (liftError x >>= f) Post E := by
  cases x with
  | ok a => exact hf a rfl
  | error e =>
    exact Triple.bind (Q := fun _ _ => False) (Triple.throw _ fun s hs => hE s hs) fun _ _ => nofun

theorem At.halted {w : World S Q Row} (h : At store log w) (hk : Kept rt states store log) :
    Halted rt states store log w :=
  ⟨h.safe hk, fun _ => h⟩

theorem fail_spec {α : Type} {error : OperationError} {Post : α → World S Q Row → Prop}
    (hk : Kept rt states store log) :
    Triple (At store log) (fail error : FlowM S Q Row α) Post (Halted rt states store log) :=
  Triple.throw _ fun _ hs => hs.halted hk

/-- Every successful page of a frame, from any allowance, keeps the invariant. -/
def PagesKeep (rt : Runtime S Q Row) (states : Nat → S) (store : Store S Q)
    (log : List (Effect Row)) (depth : Nat) (frame : Frame) (input : Change Row) : Prop :=
  ∀ budget outcome s, rt.runPage depth frame input ⟨⟨store, []⟩, budget⟩ = .ok outcome s →
    Kept rt states s.state.store (log ++ [.compute s.state.events])

section Frame

variable {depth : Nat} {frame : Frame} {input : Change Row}

theorem attemptPage_spec {exponent : Nat}
    {retry : OperationError → FlowM S Q Row AdvanceOutcome} (hk : Kept rt states store log)
    (hp : PagesKeep rt states store log depth frame input)
    (hr : ∀ e, Triple (At store log) (retry e) (fun _ => Safe rt states)
      (Halted rt states store log)) :
    Triple (At store log) (rt.attemptPage env depth frame input exponent retry)
      (fun _ => Safe rt states) (Halted rt states store log) := by
  unfold Runtime.attemptPage
  refine Triple.get fun w hw => ?_
  rw [hw.1]
  refine Triple.weaken (P := At store log) ?_ (fun _ hs => hs ▸ hw) (fun _ _ h => h) fun _ h => h
  cases hpage : rt.runPage depth frame input ⟨⟨store, []⟩, ⟨2 ^ exponent, stepBytes⟩⟩ with
  | ok outcome t =>
    refine Triple.bind (spend_spec hk) fun _ => ?_
    refine Triple.bind (commit_spec hk (hp _ _ _ hpage)) fun _ => ?_
    exact Triple.pure _ fun _ h => h
  | error e t => exact Triple.bind (spend_spec hk) fun _ => hr e

/-- A whole retry sequence. -/
theorem runFrame_spec (hk : Kept rt states store log)
    (hp : PagesKeep rt states store log depth frame input) (exponent : Nat) :
    Triple (At store log) (rt.runFrame env depth frame input exponent)
      (fun _ => Safe rt states) (Halted rt states store log) := by
  induction exponent with
  | zero => exact attemptPage_spec hk hp fun _ => fail_spec hk
  | succ exponent ih =>
    exact attemptPage_spec hk hp fun e => Triple.ite (fun _ => ih) fun _ => fail_spec hk

end Frame

/-- A transaction that has done nothing yet. -/
theorem Underway.start (store : Store S Q) (tasks : List (Task Row)) :
    Underway rt store.queues tasks store.states ⟨store, []⟩ tasks :=
  ⟨.refl, by simp, rfl⟩

/-- An unfinished root call, with everything a transaction on it needs. -/
structure Calling (rt : Runtime S Q Row) (states : Nat → S) (store : Store S Q)
    (log : List (Effect Row)) (source : Nat) (tasks : List (Task Row)) : Prop where
  kept : Kept rt states store log
  publishes : ∀ txn, Transacted rt source store.queues tasks store.states txn →
    Kept rt states txn.store (log ++ [.compute txn.events])

/-- With a frame on the stack, an unfinished call stands there. -/
theorem Kept.calling {depth : Nat} {frame : Frame} (hk : Kept rt states store log)
    (hl : store.controls.last? = some (depth, frame)) :
    ∃ source top below, Calling rt states store log source (top :: below) ∧
      Standing rt store source (top :: below) ∧ depth = below.length ∧
      store.controls.get? depth = some frame ∧ frame.head = top.head ∧
      frame.inputPort = top.port := by
  obtain ⟨served, σ, events, hserved, hsituation, hlog⟩ := hk.trace
  cases hsituation with
  | idle hs hc =>
    have hnone := (OrdMap.last?_eq_none_iff _).mpr fun d => (hc d (Nat.zero_le d)).1
    rw [hnone] at hl
    cases hl
  | @busy source item rest input top below _ hq hs hd hstand hm hquiet =>
    obtain ⟨phase, hlast, hget⟩ := hstand.last?
    rw [hlast] at hl
    cases hl
    exact ⟨source, top, below, ⟨hk, fun txn => hk.transacted hserved hlog hq hs hd hm hquiet⟩,
      hstand, rfl, hget, rfl, rfl⟩

/-- Computing the next page of the topmost frame. -/
theorem Calling.pagesKeep {source : Nat} {frame : Frame} {input : Change Row} {resume : Resume}
    {below : List (Task Row)}
    (h : Calling rt states store log source
      (.call frame.head frame.inputPort input resume :: below))
    (hphase : frame.phase = .run resume)
    (ha : Active rt store source below frame.head frame.inputPort input) :
    PagesKeep rt states store log below.length frame input :=
  fun _ _ s hs => h.publishes s.state (runPage_spec hphase hs (.start store _) ha)

theorem sendPage_spec {source next : Nat} {frame : Frame} {after : Progress} {input : Change Row}
    {visits : List (Consumer × Change Row)} {below : List (Task Row)}
    (h : Calling rt states store log source
      (.send frame.head frame.inputPort input visits after :: below))
    (hphase : frame.phase = .send next after)
    (hget : store.controls.get? below.length = some frame)
    (hstand : Standing rt store source
      (.send frame.head frame.inputPort input visits after :: below)) :
    Triple (At store log) (rt.sendPage env below.length frame next after)
      (fun _ => Safe rt states) (Halted rt states store log) := by
  obtain ⟨n, encoded, page, hcontrol, houtput, hlength, hdecode, hn, hvisits⟩ := hstand.stacked.1
  obtain rfl : next = n := by
    rw [hget, Option.some.injEq] at hcontrol
    rw [hcontrol] at hphase
    cases hphase
    rfl
  unfold Runtime.sendPage
  refine Triple.get fun w hw => ?_
  rw [hw.1]
  refine Triple.weaken (P := At store log) ?_ (fun _ hs => hs ▸ hw) (fun _ _ h => h) fun _ h => h
  refine Triple.ite (fun hall => ?_) fun _ => ?_
  · -- Every consumer had the page already: the frame returns or moves on.
    have hvisited : visits = [] := by
      rw [hvisits, hall, List.drop_length]
      rfl
    rw [hvisited] at h hstand
    split
    · exact fail_spec h.kept
    · next s hs =>
      refine Triple.bind (commit_spec h.kept (h.publishes s.state ?_)) fun _ =>
        Triple.pure _ fun _ hw => hw
      exact finishFrame_spec hs (.start store _) hstand.active
  · refine liftError_spec (fun _ hw => hw.halted h.kept) fun bytes hbytes => ?_
    obtain rfl : encoded = bytes := by
      simpa [Runtime.output, houtput, Nat.not_lt.mpr hlength] using hbytes
    refine Triple.ite (fun _ => fail_spec h.kept) fun _ => ?_
    split
    · exact fail_spec h.kept
    · next s hs =>
      refine Triple.bind (commit_spec h.kept (h.publishes s.state ?_)) fun _ =>
        Triple.pure _ fun _ hw => hw
      rw [hvisits] at hstand ⊢
      exact routePage_spec hs (.inr rfl) (fun _ => ⟨hcontrol, houtput⟩) hlength hdecode hn
        (.start store _) hstand.active

/-- One action on the topmost frame. -/
theorem advanceFrame_spec {depth : Nat} {frame : Frame} (hk : Kept rt states store log)
    (hl : store.controls.last? = some (depth, frame)) :
    Triple (At store log) (rt.advanceFrame env depth frame) (fun _ => Safe rt states)
      (Halted rt states store log) := by
  obtain ⟨source, top, below, hcalling, hstand, rfl, hget, hh, hp⟩ := hk.calling hl
  have hactive := hstand.active
  rw [← hh, ← hp] at hactive
  unfold Runtime.advanceFrame
  cases top with
  | call head port input resume =>
    cases hh
    cases hp
    have hphase : frame.phase = .run resume := by
      rw [hstand.stacked.1.1, Option.some.injEq] at hget
      rw [← hget]
    have hrun : ∀ bytes, rt.input store below.length frame = .ok bytes →
        ∀ input', ((rt.inputCodec frame).decode bytes).mapError codecError = .ok input' →
          Triple (At store log) (rt.runFrame env below.length frame input' 8)
            (fun _ => Safe rt states) (Halted rt states store log) := by
      intro bytes hbytes input' hinput
      rw [hactive.fed.decode hbytes] at hinput
      cases hinput
      exact runFrame_spec hk (hcalling.pagesKeep hphase hactive) 8
    have hread : Triple (At store log) (do
        let w ← get
        let bytes ← liftError (rt.input w.store below.length frame)
        spend bytes.length
        let input ← liftError (((rt.inputCodec frame).decode bytes).mapError codecError)
        rt.runFrame env below.length frame input 8) (fun _ => Safe rt states)
        (Halted rt states store log) := by
      refine Triple.get fun w hw => ?_
      rw [hw.1]
      refine Triple.weaken ?_ (fun _ hs => hs ▸ hw) (fun _ _ h => h) fun _ h => h
      refine liftError_spec (fun _ hw => hw.halted hk) fun bytes hbytes => ?_
      refine Triple.bind (spend_spec hk) fun _ => ?_
      exact liftError_spec (fun _ hw => hw.halted hk) (hrun bytes hbytes)
    rw [hphase]
    refine Triple.ite (fun _ => Triple.bind (spend_spec hk) fun _ => hread) fun _ => hread
  | send head port input visits after =>
    cases hh
    cases hp
    obtain ⟨next, encoded, page, hcontrol, _⟩ := hstand.stacked.1
    have hphase : frame.phase = .send next after := by
      rw [hcontrol, Option.some.injEq] at hget
      rw [← hget]
    rw [hphase]
    refine Triple.bind (spend_spec hk) fun _ => ?_
    exact sendPage_spec hcalling hphase hget hstand

/-- Whatever the cursor is, the rotation picks a source. -/
theorem source_of_rotation (rt : Runtime S Q Row) (cursor : Nat) :
    (rt.operation (rt.sources.getD cursor 0)).isSource = true := by
  rw [List.getD_eq_getElem?_getD]
  cases hget : rt.sources[cursor]? with
  | none =>
    obtain ⟨node, hnode, hsource⟩ := first_isSource rt.validated rt.resolved
    simpa [Runtime.operation, hnode] using hsource
  | some source => exact (List.mem_filter.mp (List.mem_of_getElem? hget)).2

/-- With an empty stack, a published front starts a fresh root call. -/
theorem Kept.starting {source : Nat} {item : Bytes} {rest : List Bytes} {input : Change Row}
    (hk : Kept rt states store log) (hl : store.controls.last? = none)
    (hq : store.queues source = item :: rest) (hs : (rt.operation source).isSource = true)
    (hd : (rt.codec source).decode item = .ok input) :
    Calling rt states store log source [rootCall rt source input] ∧ Clear store 0 := by
  obtain ⟨served, σ, events, hserved, hsituation, hlog⟩ := hk.trace
  cases hsituation with
  | idle hstates hclear =>
    subst hstates
    exact ⟨⟨hk, fun txn => hk.transacted hserved hlog hq hs hd .refl (by simp)⟩, hclear⟩
  | busy _ _ _ hstand _ _ =>
    obtain ⟨phase, hlast, _⟩ := hstand.last?
    rw [hlast] at hl
    cases hl

/-- Pinning a root call that has not computed anything. -/
theorem Kept.pin {source : Nat} {item : Bytes} {rest : List Bytes} {input : Change Row}
    (hk : Kept rt states store log) (hl : store.controls.last? = none)
    (hq : store.queues source = item :: rest) (hs : (rt.operation source).isSource = true)
    (hd : (rt.codec source).decode item = .ok input) (frame : Frame) :
    Kept rt states
      { store with
        controls := store.controls.put 0 ⟨source, none, .run (rt.operation source).initialResume⟩ }
      (log ++ [.pin 0 frame]) := by
  apply Kept.effect _ rfl
  refine ⟨?_, hk.queued, hk.returns⟩
  obtain ⟨served, σ, events, hserved, hsituation, hlog⟩ := hk.trace
  cases hsituation with
  | idle hstates hclear =>
    have hfed : Fed rt store source 0 source none input :=
      ⟨rfl, rfl, hs, item, by rw [hq]; rfl, hd⟩
    have hstand := Standing.push (r := (rt.operation source).initialResume)
      (⟨trivial, hclear⟩ : Standing rt store source []) hfed
    exact ⟨served, σ, [], hserved, .busy hq hs hd hstand (hstates ▸ .refl) (by simp), hlog⟩
  | busy _ _ _ hstand _ _ =>
    obtain ⟨phase, hlast, _⟩ := hstand.last?
    rw [hlast] at hl
    cases hl

theorem spend_safe {bytes : Nat} (hk : Kept rt states store log) :
    Triple (At store log) (spend bytes : FlowM S Q Row Unit) (fun _ => At store log)
      (Safe rt states) :=
  (spend_spec hk).weaken (fun _ h => h) (fun _ _ h => h) fun _ h => h.1

/-- Starting the next published root. -/
theorem advanceNextRoot_spec (hk : Kept rt states store log)
    (hl : store.controls.last? = none) (tries : Nat) :
    Triple (At store log) (rt.advanceNextRoot env tries) (fun _ => Safe rt states)
      (Safe rt states) := by
  induction tries with
  | zero => exact Triple.pure _ fun _ hs => hs.safe hk
  | succ tries ih =>
    unfold Runtime.advanceNextRoot
    refine Triple.get fun w hw => ?_
    refine Triple.weaken (P := At store log) ?_ (fun _ hs => hs ▸ hw) (fun _ _ h => h) fun _ h => h
    refine Triple.ite (fun _ => Triple.pure _ fun _ hs => hs.safe hk) fun _ => ?_
    refine Triple.bind (Triple.modify (K := fun _ => At store log) _ fun _ hs => hs) fun _ => ?_
    refine Triple.bind (spend_safe hk) fun _ => ?_
    rw [hw.1]
    have hs := source_of_rotation rt w.rootCursor
    generalize rt.sources.getD w.rootCursor 0 = source at hs
    refine liftError_spec (fun _ hw => hw.safe hk) fun front hfront => ?_
    cases front with
    | none => exact ih
    | some item =>
      obtain ⟨rest, hq⟩ := List.head?_eq_some_iff.mp (published_eq_some hfront)
      refine Triple.bind (spend_safe hk) fun _ => ?_
      refine liftError_spec (fun _ hw => hw.safe hk) fun input hinput => ?_
      have hd : (rt.codec source).decode item = .ok input := by
        cases hdecode : (rt.codec source).decode item <;>
          simp_all [Runtime.inputCodec, Except.mapError]
      obtain ⟨hcalling, hclear⟩ := hk.starting hl hq hs hd
      have hactive : Active rt store source [] source none input :=
        ⟨trivial, ⟨rfl, rfl, hs, item, by rw [hq]; rfl, hd⟩, fun d _ => hclear d (Nat.zero_le d)⟩
      refine liftError_spec (fun _ hw => hw.safe hk) fun _ _ => ?_
      let frame : Frame := ⟨source, none, .run (rt.operation source).initialResume⟩
      have hpages : PagesKeep rt states store log ([] : List (Task Row)).length frame input :=
        Calling.pagesKeep hcalling rfl hactive
      refine Triple.tryCatch (runFrame_spec hk hpages 8) fun halt => ?_
      refine Triple.get fun w hw => ?_
      refine Triple.ite (fun hopen => ?_) fun _ => Triple.throw _ fun _ hs => hs ▸ hw.1
      -- Nothing was committed, so the stack is still empty and the root can be pinned.
      have hat : At store log w := hw.2 (by simpa using hopen)
      refine Triple.weaken (P := At store log) ?_ (fun _ hs => hs ▸ hat) (fun _ _ h => h)
        fun _ h => h
      refine Triple.bind (spend_safe hk) fun _ => ?_
      rw [hat.1]
      split
      · exact Triple.bind (Q := fun _ _ => False) (Triple.throw _ fun _ hw => hw.safe hk)
          fun _ _ => nofun
      · next s hput =>
        have hstore := putFrame_eq_ok hput
        refine Triple.bind ((commit_spec hk ?_).weaken (fun _ h => h) (fun _ _ h => h)
          fun _ h => h.1) fun _ => Triple.throw _ fun _ h => h
        rw [hstore]
        exact hk.pin hl hq hs hd _

theorem modify_safe {f : World S Q Row → World S Q Row} (hstore : ∀ w, (f w).store = w.store)
    (hlog : ∀ w, (f w).log = w.log) :
    Triple (Safe rt states) (modify f : FlowM S Q Row PUnit) (fun _ => Safe rt states)
      (Safe rt states) :=
  Triple.modify _ fun w hw => by
    unfold Safe
    rw [hstore, hlog]
    exact hw

theorem liftSafe {α : Type} {x : Except OperationError α} :
    Triple (Safe rt states) (liftError x : FlowM S Q Row α) (fun _ => Safe rt states)
      (Safe rt states) :=
  Triple.ofExcept (fun _ _ _ h => h) fun _ h => h

theorem liftFenced_safe {α : Type} {x : Except OperationError α} :
    Triple (Safe rt states) (liftFenced x : FlowM S Q Row α) (fun _ => Safe rt states)
      (Safe rt states) := by
  cases x with
  | ok a => exact Triple.pure a fun _ h => h
  | error e =>
    exact Triple.bind (modify_safe (fun _ => rfl) fun _ => rfl) fun _ => Triple.throw _ fun _ h => h

theorem effect_safe {e : Effect Row} (he : e.inert = true) :
    Triple (Safe rt states) (effect e : FlowM S Q Row Unit) (fun _ => Safe rt states)
      (Safe rt states) :=
  Triple.modify _ fun _ hw => hw.effect he

/-- A commit right after its world was read. -/
theorem commit_safe {w : World S Q Row} {e : Effect Row} (hw : Safe rt states w)
    (hk : Kept rt states store' (w.log ++ [e])) :
    Triple (· = w) (commit env store' e) (fun _ => Safe rt states) (Safe rt states) :=
  (commit_spec (show Kept rt states w.store w.log from hw) hk).weaken
    (fun _ hs => hs ▸ ⟨rfl, rfl⟩) (fun _ _ h => h) fun _ h => h.1

theorem pollSource_spec (index : Nat) :
    Triple (Safe rt states) (Runtime.pollSource env index : FlowM S Q Row Unit)
      (fun _ => Safe rt states) (Safe rt states) := by
  refine Triple.get fun w hw => ?_
  refine Triple.weaken ?_ (fun _ hs => hs ▸ hw) (fun _ _ h => h) fun _ h => h
  refine Triple.ite (fun _ => ?_) fun _ => Triple.pure _ fun _ h => h
  exact Triple.bind liftFenced_safe fun _ => modify_safe (fun _ => rfl) fun _ => rfl

theorem recordDelivery_spec (index : Nat) (delivery : Delivery) :
    Triple (Safe rt states) (Runtime.recordDelivery env index delivery) (fun _ => Safe rt states)
      (Safe rt states) := by
  refine Triple.bind liftSafe fun recorded =>
    Triple.ite (fun _ => ?_) fun _ => Triple.pure _ fun _ h => h
  have hack : Triple (Safe rt states) (do
      modify fun w : World S Q Row =>
        { w with pending := Function.update w.pending index none }
      liftFenced env.ack
      effect (.ack index)
      pure AdvanceOutcome.progressed) (fun _ => Safe rt states) (Safe rt states) :=
    Triple.bind (modify_safe (fun _ => rfl) fun _ => rfl) fun _ =>
      Triple.bind liftFenced_safe fun _ =>
        Triple.bind (effect_safe rfl) fun _ => Triple.pure _ fun _ h => h
  refine Triple.get fun w hw => ?_
  refine Triple.bind (commit_safe hw (hw.capture index delivery.items)) fun _ => ?_
  exact Triple.ite (fun _ => Triple.bind sync_spec fun _ => hack) fun _ => hack

theorem capture_spec (index : Nat) :
    Triple (Safe rt states) (Runtime.capture env index) (fun _ => Safe rt states)
      (Safe rt states) := by
  refine Triple.bind (pollSource_spec index) fun _ => Triple.get fun w hw => ?_
  refine Triple.weaken ?_ (fun _ hs => hs ▸ hw) (fun _ _ h => h) fun _ h => h
  split
  · exact Triple.pure _ fun _ h => h
  · exact recordDelivery_spec index _

theorem initializeSink_spec (index : Nat) :
    Triple (Safe rt states) (Runtime.initializeSink env index) (fun _ => Safe rt states)
      (Safe rt states) := by
  refine Triple.bind liftFenced_safe fun _ =>
    Triple.ite (fun _ => ?_) fun _ => Triple.pure _ fun _ h => h
  refine Triple.bind liftSafe fun outbox => Triple.get fun w hw => ?_
  exact commit_safe hw ((Kept.outboxes hw _).effect rfl)

theorem drain_spec (index : Nat) :
    Triple (Safe rt states) (Runtime.drain env index) (fun _ => Safe rt states)
      (Safe rt states) := by
  refine Triple.bind liftSafe fun loaded =>
    Triple.ite (fun _ => ?_) fun _ => Triple.pure _ fun _ h => h
  refine Triple.bind (initializeSink_spec index) fun _ => Triple.bind sync_spec fun _ =>
    Triple.bind (effect_safe rfl) fun _ => Triple.bind liftFenced_safe fun _ =>
      Triple.bind liftFenced_safe fun outbox => Triple.get fun w hw => ?_
  refine Triple.bind (commit_safe hw ((Kept.outboxes hw _).effect rfl)) fun _ => ?_
  exact Triple.pure _ fun _ h => h

theorem stackAction_spec {top : Option (Nat × Frame)} (hk : Kept rt states store log)
    (hl : store.controls.last? = top) :
    Triple (At store log) (rt.stackAction env top) (fun _ => Safe rt states) (Safe rt states) := by
  cases top with
  | none => exact advanceNextRoot_spec hk hl _
  | some entry =>
    exact (advanceFrame_spec hk hl).weaken (fun _ h => h) (fun _ _ h => h) fun _ h => h.1

theorem stackActions_spec (actions : Nat) (outcome : AdvanceOutcome) :
    Triple (Safe rt states) (rt.stackActions env actions outcome) (fun _ => Safe rt states)
      (Safe rt states) := by
  induction actions generalizing outcome with
  | zero => exact Triple.pure _ fun _ h => h
  | succ actions ih =>
    unfold Runtime.stackActions
    refine Triple.get fun w hw => ?_
    refine Triple.weaken (P := At w.store w.log) ?_ (fun _ hs => hs ▸ ⟨rfl, rfl⟩) (fun _ _ h => h)
      fun _ h => h
    refine Triple.ite (fun _ => Triple.pure _ fun _ hs => hs.safe hw) fun _ => ?_
    refine Triple.bind (spend_safe hw) fun _ => Triple.get fun w₁ hw₁ => Triple.get fun w₂ hw₂ => ?_
    subst hw₂
    refine Triple.weaken (P := At w.store w.log) ?_ (fun _ hs => hs ▸ hw₁) (fun _ _ h => h)
      fun _ h => h
    refine Triple.ite (fun _ => Triple.pure _ fun _ hs => hs.safe hw) fun _ => ?_
    rw [hw₁.1]
    refine Triple.bind (stackAction_spec hw rfl) fun action => ?_
    exact Triple.ite (fun _ => Triple.pure _ fun _ h => h) fun _ => ih _

theorem round_spec : Triple (Safe rt states) (rt.round env) (fun _ => Safe rt states)
    (Safe rt states) := by
  refine Triple.get fun w hw => ?_
  refine Triple.weaken ?_ (fun _ hs => hs ▸ hw) (fun _ _ h => h) fun _ h => h
  refine Triple.bind (modify_safe (fun _ => rfl) fun _ => rfl) fun _ =>
    Triple.bind (capture_spec _) fun captured =>
      Triple.bind (modify_safe (fun _ => rfl) fun _ => rfl) fun _ =>
        Triple.bind (stackActions_spec _ _) fun outcome => Triple.get fun w₁ hw₁ => ?_
  refine Triple.weaken ?_ (fun _ hs => hs ▸ hw₁) (fun _ _ h => h) fun _ h => h
  exact Triple.bind (modify_safe (fun _ => rfl) fun _ => rfl) fun _ =>
    Triple.bind (drain_spec _) fun _ => Triple.pure _ fun _ h => h

/-- One call of the scheduling entry point keeps the invariant, however it ends. -/
theorem advance_spec {w : World S Q Row} (hw : Safe rt states w) :
    Safe rt states (endState (rt.advance env w)) := by
  have hsync : ∀ w : World S Q Row, Safe rt states w → Safe rt states (endState (sync env w)) := by
    intro w hw
    have hspec : Triple (Safe rt states) (sync env : FlowM S Q Row Unit) (fun _ => Safe rt states)
        (Safe rt states) := sync_spec
    have h := hspec w hw
    cases hr : sync env w <;> simpa [hr, endState] using h
  unfold Runtime.advance
  split
  · exact hw
  · have hspec : Triple (Safe rt states) (rt.round env) (fun _ => Safe rt states)
        (Safe rt states) := round_spec
    have hround := hspec { w with unsynced := false } hw
    cases hr : rt.round env { w with unsynced := false } with
    | ok outcome w' =>
      rw [hr] at hround
      have h := hsync w' hround
      dsimp only
      cases hs : sync env w' <;> simpa [hs, endState] using h
    | error halt w' =>
      rw [hr] at hround
      cases halt with
      | panicked => exact hround
      | failed e =>
        have h := hsync w' hround
        dsimp only
        cases hs : sync env w' <;> simpa [hs, endState] using h

end Rounds

/-! ## Reachable worlds -/

theorem kept_initial (rt : Runtime S Q Row) (states : Nat → S) (outboxes : Nat → Q) :
    Kept rt states (.initial states outboxes) [] := by
  refine ⟨⟨[], states, [], .nil, .idle rfl ?_, rfl⟩, fun _ => rfl, fun _ h => by cases h⟩
  exact fun _ _ => ⟨rfl, rfl⟩

theorem reachable_safe {rt : Runtime S Q Row} {states : Nat → S} {outboxes : Nat → Q}
    {w : World S Q Row} (h : Reachable rt states outboxes w) : Safe rt states w := by
  induction h with
  | build => exact kept_initial rt states outboxes
  | advance env _ ih => exact advance_spec ih
  | reopen _ ih => exact ih


/-- The committed history of a world is one of reference calls: completed root
calls in order, then as much of one more as the durable stack stands for. Every
published item is consumed or still queued, in order and once, and an item is
consumed exactly by the commit that ends its root call. -/
structure RefinesCalls (rt : Runtime S Q Row) (states : Nat → S) (w : World S Q Row) : Prop where
  calls : ∃ served σ rest, Served rt states served σ ∧ committed w.log = served ++ rest ∧
    match w.store.controls.last? with
    | none => rest = [] ∧ w.store.states = σ
    | some _ => ∃ source item input, (w.store.queues source).head? = some item ∧
        (rt.operation source).isSource = true ∧ (rt.codec source).decode item = .ok input ∧
        Runs rt (rootCall rt source input) σ rest false w.store.states
  queues : ∀ source,
    captured source w.log = consumed source (committed w.log) ++ w.store.queues source
  returns : ∀ events, Effect.compute events ∈ w.log → ReturnsWhole events

/-- One byte per inserted row of a table without columns. -/
def unitCodec : SchemaBoundChangeCodec Unit where
  encodeBounded c n :=
    if c.numColumns = 0 ∧ ∀ e ∈ c.events, e.2 = 1 then
      if c.events.length ≤ n then .ok (c.events.map fun _ => 1)
      else .error (.encodedSizeLimitExceeded n)
    else .error (.invalid "not an insertion of empty rows")
  decode b :=
    match Change.tryNew 0 (b.map fun _ => ((), 1)) with
    | some c => .ok c
    | none => .error (.invalid "a change cannot be empty")
  decode_encode c n b h := by
    split at h
    · next hc =>
      split at h
      · cases h
        have he : (c.events.map fun _ => (1 : UInt8)).map (fun _ => ((), (1 : Int))) =
            c.events := by
          rw [List.map_map]
          conv_rhs => rw [← List.map_id c.events]
          refine List.map_congr_left fun e he => ?_
          exact Prod.ext rfl (hc.2 e he).symm
        obtain ⟨columns, events, hne, hnz⟩ := c
        cases hc.1
        have hall : events ≠ [] ∧ ∀ e ∈ events, e.2 ≠ 0 := ⟨hne, hnz⟩
        simp only [Change.tryNew, he, dif_pos hall]
      · cases h
    · cases h
  length_encode c n b h := by
    split at h
    · split at h
      · next hn =>
        cases h
        simpa using hn
      · cases h
    · cases h

/-- `UNION ALL` over two ports. -/
def unitUnion : UnionAll Unit := ⟨2, fun _ => true, fun c => c.numRows * 8⟩

/-- A source, its union with itself, and a sink that counts rows. -/
def diamondNodes : List (RuntimeNode Unit Nat Unit) :=
  [ { id := "a", inputCount := 0, inputs := [], operation := .source, codec := unitCodec
      arity := ⟨fun _ => rfl, nofun⟩ },
    { id := "b", inputCount := 2, inputs := [0, 0], operation := .atomic ⟨unitUnion.apply⟩
      codec := unitCodec, arity := ⟨nofun, nofun⟩ },
    { id := "c", inputCount := 1, inputs := [1], codec := unitCodec
      operation := .sink ⟨fun page outbox => .ok (some (outbox + page.numRows))⟩
      arity := ⟨nofun, fun _ => rfl⟩ } ]

theorem diamondNodes_validated : validateDefinition diamondNodes = .ok () := by
  have ha : "a".utf8ByteSize = 1 := by rfl
  have hb : "b".utf8ByteSize = 1 := by rfl
  have hc : "c".utf8ByteSize = 1 := by rfl
  simp [validateDefinition, diamondNodes, checkIds, idReason, checkInputs, maxOperations,
    checkEarlier, bind, Except.bind, ha, hb, hc]

/-- Two inputs keep the union from being fused. -/
def diamond : Runtime Unit Nat Unit where
  nodes := diamondNodes
  topology :=
    { tails := fun _ => []
      consumers := fun i => consumersOf diamondNodes i
      heads := fun _ => true }
  validated := diamondNodes_validated
  producers := rfl
  resolved := rfl

/-- The source delivers two items; everything succeeds. -/
def diamondEnv : Env Nat where
  fate _ := .done
  poll := .ok (some ⟨[[1, 1], [1]], true⟩)
  record := .ok true
  ack := .ok ()
  load := .ok false
  prepareInitialize := .ok false
  persistInitialize := .ok 0
  deliver := .ok ()
  settle := .ok 0

/-- The diamond after one round. -/
def diamondWorld : World Unit Nat Unit :=
  endState (diamond.advance diamondEnv (.opened (.initial (fun _ => ()) (fun _ => 0)) []))

theorem diamondWorld_reachable : Reachable diamond (fun _ => ()) (fun _ => 0) diamondWorld :=
  .advance diamondEnv .build

end Dogpaddle.Flow
