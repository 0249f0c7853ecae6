import Dogpaddle.Flow.Durability

/-!
# Write-ahead ordering

What is told to the outside is durable first, over the whole life of a runtime.

* `Synced`: every write that was committed is covered by a barrier.
* `Inv`: what happened was permitted when it happened, a batch that is not pending has
  nothing left to synchronize, and a runtime that saw an uncertain step is fenced off.
* `write_ahead`: the ordering of acknowledgements, deliveries, returns and failures.
-/

namespace Dogpaddle.Flow.Durability

open Lib

/-- Every committed write is covered by a barrier, a commit of unknown outcome included. -/
def Synced : List Event → Prop
  | [] => True
  | .synced :: _ => True
  | .committed _ true :: _ | .failed (.commit true) :: _ => False
  | _ :: before => Synced before

/-- After this, the runtime must be reopened. -/
def Event.Fatal : Event → Prop
  | .failed _ | .panicked => True
  | _ => False

/-- What may happen after what happened before. -/
def Permitted (before : List Event) : Event → Prop
  | .acked source delivery => delivery.requiresAckBarrier = true →
      ∃ between earlier, before = between ++ .synced :: earlier ∧
        .committed (.capture source delivery) true ∈ earlier
  | .delivering _ => Synced before
  | _ => True

/-- Everything that happened was permitted when it happened. -/
def Orderly (trace : List Event) : Prop :=
  ∀ event before, event :: before <:+ trace → Permitted before event

theorem Orderly.nil : Orderly [] := by
  intro event before hsuffix
  cases List.eq_nil_of_suffix_nil hsuffix

theorem Orderly.cons {trace : List Event} {event : Event} (h : Orderly trace)
    (hpermitted : Permitted trace event) : Orderly (event :: trace) := by
  intro event' before hsuffix
  rcases List.suffix_cons_iff.mp hsuffix with hnow | hearlier
  · obtain ⟨rfl, rfl⟩ := List.cons.inj hnow
    exact hpermitted
  · exact h event' before hearlier

/-- What holds at every point of a round. -/
structure Inv (s : Session) : Prop where
  orderly : Orderly s.trace
  synced : s.batchPending = false → Synced s.trace
  fenced : ∀ event ∈ s.trace, event.Fatal → s.needsReopen = true

/-! ## Steps -/

/-- A computation keeps the invariant, however it ends. -/
def Keeps {α : Type} (x : RoundM α) : Prop := Triple Inv x (fun _ => Inv) Inv

namespace Keeps

variable {α β : Type}

theorem pure (a : α) : Keeps (pure a : RoundM α) := Triple.pure a fun _ h => h

theorem throw (halt : Halt) : Keeps (throw halt : RoundM α) := Triple.throw halt fun _ h => h

theorem bind {x : RoundM α} {f : α → RoundM β} (hx : Keeps x) (hf : ∀ a, Keeps (f a)) :
    Keeps (x >>= f) := Triple.bind hx hf

theorem ite {c : Prop} [Decidable c] {x y : RoundM α} (hx : Keeps x) (hy : Keeps y) :
    Keeps (if c then x else y) := Triple.ite (fun _ => hx) fun _ => hy

theorem get {f : Session → RoundM β} (hf : ∀ s, Inv s → Keeps (f s)) : Keeps (get >>= f) := by
  refine Triple.get fun s hs => ?_
  exact (hf s hs).weaken (fun t ht => ht ▸ hs) (fun _ _ h => h) fun _ h => h

/-- An update that touches neither trace nor batch nor fence. -/
theorem modify {g : Session → Session} (htrace : ∀ s, (g s).trace = s.trace)
    (hbatch : ∀ s, (g s).batchPending = s.batchPending)
    (hfence : ∀ s, (g s).needsReopen = s.needsReopen) : Keeps (modify g : RoundM PUnit) := by
  refine Triple.modify g fun s hs => ⟨?_, ?_, ?_⟩
  · rw [htrace]
    exact hs.orderly
  · rw [htrace, hbatch]
    exact hs.synced
  · rw [htrace, hfence]
    exact hs.fenced

end Keeps

theorem Inv.called {s : Session} (h : Inv s) (calls : Nat) : Inv { s with calls } :=
  ⟨h.orderly, h.synced, h.fenced⟩

theorem keeps_call {α : Type} (answer : Nat → Answer α) : Keeps (call answer) := by
  refine Keeps.get fun s hs => Keeps.bind (Triple.set _ fun _ _ => hs.called _) fun _ => ?_
  cases answer s.calls with
  | returns value => exact Keeps.pure value
  | fails error => exact Keeps.throw _
  | panics => exact Keeps.throw _

/-- The runtime goes no further. -/
def Fenced (s : Session) : Prop := Inv s ∧ s.needsReopen = true

/-- An uncertain step fences the runtime off. A failed commit that wrote has made the batch
pending before. -/
theorem fence_spec {α : Type} {Q : α → Session → Prop} (step : Step) (error : OperationError) :
    Triple (fun s => Inv s ∧ (step = .commit true → s.batchPending = true))
      (fence step error : RoundM α) Q Fenced := by
  refine Triple.bind (Q := fun _ => Fenced) (Triple.modify _ fun s hs => ?_) fun _ =>
    Triple.throw _ fun _ h => h
  obtain ⟨hinv, hpending⟩ := hs
  refine ⟨⟨hinv.orderly.cons trivial, ?_, fun _ _ _ => rfl⟩, rfl⟩
  intro hbatch
  have hbefore := hinv.synced hbatch
  cases step with
  | commit wrote =>
    cases wrote with
    | true => exact absurd (hpending rfl) (by rw [hbatch]; decide)
    | false => exact hbefore
  | _ => exact hbefore

theorem keeps_callFenced {α : Type} (step : Step) (hstep : step ≠ .commit true)
    (answer : Nat → Answer α) : Keeps (callFenced step answer) := by
  refine Keeps.get fun s hs => Keeps.bind (Triple.set _ fun _ _ => hs.called _) fun _ => ?_
  cases answer s.calls with
  | returns value => exact Keeps.pure value
  | fails error =>
    exact (fence_spec step error).weaken (fun t ht => ⟨ht, fun h => absurd h hstep⟩)
      (fun _ _ h => h) fun _ h => h.1
  | panics => exact Keeps.throw _

theorem keeps_spend (bytes : Nat) : Keeps (spend bytes) := by
  refine Keeps.get fun s hs => Keeps.ite ?_ (Keeps.throw _)
  exact Triple.set _ fun _ _ => ⟨hs.orderly, hs.synced, hs.fenced⟩

/-- A commit that wrote is the newest event, and its batch is pending. -/
theorem commit_spec (env : Env) (work : Work) (wrote : Bool) :
    Triple Inv (commit env work wrote) (fun _ s => Inv s ∧ (wrote = true → s.batchPending = true) ∧
      .committed work wrote ∈ s.trace) Inv := by
  refine Triple.get fun s hs => ?_
  refine Triple.bind (Q := fun _ t => Inv t ∧ (wrote = true → t.batchPending = true)) ?_ fun _ => ?_
  · refine Triple.set _ fun _ _ => ⟨⟨hs.orderly, ?_, hs.fenced⟩, ?_⟩
    · intro hbatch
      exact hs.synced (Bool.or_eq_false_iff.mp hbatch).1
    · rintro rfl
      exact Bool.or_true _
  · cases env.commit s.calls with
    | ok _ =>
      refine Triple.modify _ fun t ht => ⟨⟨ht.1.orderly.cons trivial, ?_, ?_⟩, ht.2, ?_⟩
      · intro hbatch
        cases wrote with
        | true => exact absurd (ht.2 rfl) (by rw [hbatch]; decide)
        | false => exact ht.1.synced hbatch
      · intro event hevent hfatal
        rcases List.mem_cons.mp hevent with rfl | hevent
        · exact hfatal.elim
        · exact ht.1.fenced event hevent hfatal
      · exact List.mem_cons_self
    | error error =>
      refine (fence_spec (.commit wrote) error).weaken ?_ (fun _ _ h => h) fun _ h => h.1
      rintro t ⟨ht, hpending⟩
      refine ⟨ht, fun h => hpending ?_⟩
      cases h
      rfl

theorem keeps_commit (env : Env) (work : Work) (wrote : Bool) : Keeps (commit env work wrote) :=
  (commit_spec env work wrote).weaken (fun _ h => h) (fun _ _ h => h.1) fun _ h => h

/-- What is observed without harm. -/
theorem Inv.observe {s : Session} (h : Inv s) {event : Event} (hpermitted : Permitted s.trace event)
    (hfatal : ¬ event.Fatal) (hsynced : Synced s.trace → Synced (event :: s.trace)) :
    Inv { s with trace := event :: s.trace } := by
  refine ⟨h.orderly.cons hpermitted, fun hbatch => hsynced (h.synced hbatch), ?_⟩
  intro event' hevent hfatal'
  rcases List.mem_cons.mp hevent with rfl | hevent
  · exact absurd hfatal' hfatal
  · exact h.fenced event' hevent hfatal'

/-- The barrier of a pending batch covers all that happened before. -/
theorem barrier_spec (env : Env) (seen : List Event → Prop) :
    Triple (fun s => Inv s ∧ s.batchPending = true ∧ seen s.trace) (sync env)
      (fun _ s => Inv s ∧ s.batchPending = false ∧
        ∃ before, s.trace = .synced :: before ∧ seen before) Fenced := by
  refine Triple.get fun s ⟨hs, hpending, hseen⟩ => ?_
  rw [if_pos hpending]
  refine Triple.bind (Q := fun _ t => t = { s with calls := s.calls + 1 })
    (Triple.set _ fun _ _ => rfl) fun _ => ?_
  cases env.sync s.calls with
  | ok _ =>
    refine Triple.modify _ fun t ht => ?_
    subst ht
    refine ⟨⟨hs.orderly.cons trivial, fun _ => trivial, ?_⟩, rfl, s.trace, rfl, hseen⟩
    intro event hevent hfatal
    rcases List.mem_cons.mp hevent with rfl | hevent
    · exact hfatal.elim
    · exact hs.fenced event hevent hfatal
  | error error =>
    refine (fence_spec .sync error).weaken ?_ (fun _ _ h => h) fun _ h => h
    rintro t rfl
    exact ⟨hs.called _, nofun⟩

/-- After `sync`, everything is synced. -/
theorem sync_spec (env : Env) :
    Triple Inv (sync env) (fun _ s => Inv s ∧ Synced s.trace) Fenced := by
  intro s hs
  cases hpending : s.batchPending with
  | true =>
    have h := barrier_spec env (fun _ => True) s ⟨hs, hpending, trivial⟩
    cases hrun : sync env s with
    | ok _ t =>
      rw [hrun] at h
      exact ⟨h.1, h.1.synced h.2.1⟩
    | error _ t =>
      rw [hrun] at h
      exact h
  | false =>
    have hrun : sync env s = .ok () s := by
      change (if s.batchPending = true then _ else _ : RoundM Unit) s = _
      rw [hpending]
      rfl
    rw [hrun]
    exact ⟨hs, hs.synced hpending⟩

theorem keeps_sync (env : Env) : Keeps (sync env) :=
  (sync_spec env).weaken (fun _ h => h) (fun _ _ h => h.1) fun _ h => h.1

/-! ## The round -/

theorem keeps_poll (env : Env) (source : Nat) : Keeps (poll env source) := by
  refine Keeps.get fun s _ => Keeps.ite ?_ (Keeps.pure _)
  refine Keeps.bind (keeps_callFenced .poll nofun _) fun polled => ?_
  exact Keeps.modify (fun _ => rfl) (fun _ => rfl) fun _ => rfl

/-- A delivery is acknowledged after its commit, and a connector's after a barrier too. -/
theorem keeps_recordDelivery (env : Env) (source : Nat) (delivery : SourceDelivery) :
    Keeps (recordDelivery env source delivery) := by
  refine Keeps.bind (keeps_call _) fun accepted => Keeps.ite ?_ (Keeps.pure _)
  refine Triple.bind (commit_spec env (.capture source delivery) true) fun _ => ?_
  let Ready := fun s : Session => Inv s ∧ Permitted s.trace (.acked source delivery)
  refine Triple.bind (Q := fun _ => Ready) ?_ fun _ => ?_
  · unfold ackBarrier
    refine Triple.ite (fun hbarrier => ?_) fun hbarrier => ?_
    · let committed : List Event → Prop :=
        fun trace => .committed (.capture source delivery) true ∈ trace
      refine (barrier_spec env committed).weaken ?_ ?_ fun _ h => h.1
      · rintro s ⟨hs, hpending, hcommitted⟩
        exact ⟨hs, hpending rfl, hcommitted⟩
      · rintro _ s ⟨hs, -, before, htrace, hcommitted⟩
        exact ⟨hs, fun _ => ⟨[], before, htrace, hcommitted⟩⟩
    · exact Triple.pure _ fun s hs => ⟨hs.1, fun h => absurd h hbarrier⟩
  · refine Triple.bind (Q := fun _ => Ready) (Triple.modify _ fun s hs => ?_) fun _ => ?_
    · exact ⟨⟨hs.1.orderly, hs.1.synced, hs.1.fenced⟩, hs.2⟩
    · refine Triple.bind (Q := fun _ => Inv) (Triple.modify _ fun s hs => ?_) fun _ => ?_
      · exact hs.1.observe hs.2 id id
      · exact Keeps.bind (keeps_callFenced .ack nofun _) fun _ => Keeps.pure _

theorem keeps_capture (env : Env) (source : Nat) : Keeps (capture env source) := by
  refine Keeps.bind (keeps_poll env source) fun _ => Keeps.get fun s _ => ?_
  cases s.pending source with
  | none => exact Keeps.pure _
  | some delivery => exact keeps_recordDelivery env source delivery

theorem keeps_attemptPage (env : Env) {retry : OperationError → RoundM AdvanceOutcome}
    (hretry : ∀ error, Keeps (retry error)) : Keeps (attemptPage env retry) := by
  refine Keeps.get fun s hs => Keeps.bind (Triple.set _ fun _ _ => hs.called _) fun _ => ?_
  cases env.page s.calls with
  | done outcome wrote spent =>
    refine Keeps.bind (keeps_spend spent) fun _ => ?_
    exact Keeps.bind (keeps_commit env .page wrote) fun _ => Keeps.pure _
  | failed error spent => exact Keeps.bind (keeps_spend spent) fun _ => hretry error
  | panics => exact Keeps.throw _

theorem keeps_runFrame (env : Env) (exponent : Nat) : Keeps (runFrame env exponent) := by
  induction exponent with
  | zero => exact keeps_attemptPage env fun _ => Keeps.throw _
  | succ exponent ih => exact keeps_attemptPage env fun _ => Keeps.ite ih (Keeps.throw _)

theorem keeps_advanceFrame (env : Env) (top : Top) : Keeps (advanceFrame env top) := by
  cases top with
  | running root =>
    refine Keeps.bind (keeps_spend _) fun _ => ?_
    refine Keeps.bind (keeps_call _) fun length => Keeps.bind (keeps_spend length) fun _ => ?_
    exact Keeps.bind (keeps_call _) fun _ => keeps_runFrame env 8
  | sending =>
    refine Keeps.bind (keeps_spend _) fun _ => Keeps.bind (keeps_call _) fun sent => ?_
    exact Keeps.bind (keeps_commit env .page _) fun _ => Keeps.pure _

theorem keeps_pinRoot (env : Env) : Keeps (pinRoot env) := by
  refine Keeps.get fun s _ => Keeps.ite (Keeps.pure _) ?_
  refine Keeps.bind (keeps_spend _) fun _ => Keeps.bind (keeps_call _) fun _ => ?_
  exact keeps_commit env .pin true

theorem keeps_runRoot (env : Env) : Keeps (runRoot env) := by
  refine Triple.tryCatch (keeps_runFrame env 8) fun halt => ?_
  cases halt with
  | panicked => exact Keeps.throw _
  | failed error => exact Keeps.bind (keeps_pinRoot env) fun _ => Keeps.throw _

theorem keeps_advanceNextRoot (roles : Roles) (env : Env) (tries : Nat) :
    Keeps (advanceNextRoot roles env tries) := by
  induction tries with
  | zero => exact Keeps.pure _
  | succ tries ih =>
    refine Keeps.get fun s _ => Keeps.ite (Keeps.pure _) ?_
    refine Keeps.bind (Keeps.modify (fun _ => rfl) (fun _ => rfl) fun _ => rfl) fun _ => ?_
    refine Keeps.bind (keeps_spend 64) fun _ => Keeps.bind (keeps_call _) fun published => ?_
    cases published with
    | none => exact ih
    | some length =>
      refine Keeps.bind (keeps_spend length) fun _ => Keeps.bind (keeps_call _) fun _ => ?_
      exact keeps_runRoot env

theorem keeps_stackAction (roles : Roles) (env : Env) (top : Option Top) :
    Keeps (stackAction roles env top) := by
  cases top with
  | none => exact keeps_advanceNextRoot roles env _
  | some top => exact keeps_advanceFrame env top

theorem keeps_stackActions (roles : Roles) (env : Env) (actions : Nat) (outcome : AdvanceOutcome) :
    Keeps (stackActions roles env actions outcome) := by
  induction actions generalizing outcome with
  | zero => exact Keeps.pure _
  | succ actions ih =>
    refine Keeps.get fun s _ => Keeps.ite (Keeps.pure _) ?_
    refine Keeps.bind (keeps_spend _) fun _ => Keeps.bind (keeps_call _) fun top => ?_
    refine Keeps.get fun s _ => Keeps.ite (Keeps.pure _) ?_
    refine Keeps.bind (keeps_stackAction roles env top) fun action => ?_
    exact Keeps.ite (Keeps.pure _) (ih _)

theorem keeps_initializeSink (env : Env) (sink : Nat) : Keeps (initializeSink env sink) := by
  refine Keeps.bind (keeps_callFenced .prepareInitialize nofun _) fun needed => ?_
  refine Keeps.ite ?_ (Keeps.pure _)
  exact Keeps.bind (keeps_call _) fun wrote => keeps_commit env (.initialization sink) wrote

/-- A delivery to a target starts right after a barrier. -/
theorem keeps_drain (env : Env) (sink : Nat) : Keeps (drain env sink) := by
  refine Keeps.bind (keeps_call _) fun loaded => Keeps.ite ?_ (Keeps.pure _)
  refine Keeps.bind (keeps_initializeSink env sink) fun _ => ?_
  have hsync := (sync_spec env).weaken (fun _ h => h) (fun _ _ h => h) fun _ h => h.1
  refine Triple.bind hsync fun _ => ?_
  refine Triple.bind (Q := fun _ => Inv) (Triple.modify _ fun s hs => ?_) fun _ => ?_
  · exact hs.1.observe hs.2 id id
  · refine Keeps.bind (keeps_callFenced .deliver nofun _) fun _ => ?_
    refine Keeps.bind (keeps_callFenced .settle nofun _) fun wrote => ?_
    exact Keeps.bind (keeps_commit env (.settle sink) wrote) fun _ => Keeps.pure _

theorem keeps_round (roles : Roles) (env : Env) : Keeps (round roles env) := by
  refine Keeps.get fun s _ => ?_
  refine Keeps.bind (Keeps.modify (fun _ => rfl) (fun _ => rfl) fun _ => rfl) fun _ => ?_
  refine Keeps.bind (keeps_capture env _) fun captured => ?_
  refine Keeps.bind (Keeps.modify (fun _ => rfl) (fun _ => rfl) fun _ => rfl) fun _ => ?_
  refine Keeps.bind (keeps_stackActions roles env _ captured) fun outcome => ?_
  refine Keeps.get fun s _ => ?_
  refine Keeps.bind (Keeps.modify (fun _ => rfl) (fun _ => rfl) fun _ => rfl) fun _ => ?_
  exact Keeps.bind (keeps_drain env _) fun drained => Keeps.pure _

/-! ## The life of a runtime -/

/-- What holds between rounds: a runtime that may go on has nothing left to synchronize. -/
structure Rested (s : Session) : Prop where
  orderly : Orderly s.trace
  synced : s.needsReopen = false → Synced s.trace
  fenced : ∀ event ∈ s.trace, event.Fatal → s.needsReopen = true

/-- The final barrier, or the fence. -/
theorem finish_spec {α : Type} (env : Env) (result : Except OperationError α) :
    Triple Inv (finish env result) (fun _ s => Rested s ∧ Synced s.trace) Rested := by
  let Settled := fun s : Session => Rested s ∧ Synced s.trace
  have hsync : Triple Inv (sync env) (fun _ => Settled) Rested := by
    refine (sync_spec env).weaken (fun _ h => h) ?_ ?_
    · rintro _ s ⟨hs, hsynced⟩
      exact ⟨⟨hs.orderly, fun _ => hsynced, hs.fenced⟩, hsynced⟩
    · rintro s ⟨hs, hreopen⟩
      exact ⟨hs.orderly, fun h => absurd h (by rw [hreopen]; decide), hs.fenced⟩
  refine Triple.bind hsync fun _ => ?_
  exact Triple.ofExcept (fun _ _ _ hs => hs) fun _ hs => hs.1

/-- A fenced runtime refuses, and touches nothing. -/
theorem advance_refused (roles : Roles) (env : Env) {s : Session} (h : s.needsReopen = true) :
    advance roles env s = .error (.failed (.message "flow must be reopened")) s := by
  unfold advance
  rw [h]
  rfl

theorem advance_spec (roles : Roles) (env : Env) :
    Triple Rested (advance roles env) (fun _ s => Rested s ∧ Synced s.trace) Rested := by
  intro s hs
  cases hopen : s.needsReopen with
  | true =>
    rw [advance_refused roles env hopen]
    exact hs
  | false =>
    have hinv : Inv { s with batchPending := false } :=
      ⟨hs.orderly, fun _ => hs.synced hopen, hs.fenced⟩
    have hround := keeps_round roles env _ hinv
    have hrun : advance roles env s =
        conclude env (round roles env { s with batchPending := false }) := by
      unfold advance
      rw [if_neg (by rw [hopen]; decide)]
    rw [hrun]
    generalize round roles env _ = result at hround
    match result, hround with
    | .error .panicked t, ht => exact ⟨ht.orderly.cons trivial, nofun, fun _ _ _ => rfl⟩
    | .error (.failed error) t, ht => exact finish_spec env (.error error) t ht
    | .ok outcome t, ht => exact finish_spec env (.ok outcome) t ht

theorem Lived.rested {roles : Roles} {s : Session} (h : Lived roles s) : Rested s := by
  induction h with
  | opened => exact ⟨Orderly.nil, fun _ => trivial, nofun⟩
  | @advanced s env _ ih =>
    have hadvance := advance_spec roles env s ih
    cases hrun : advance roles env s with
    | ok outcome t =>
      rw [hrun] at hadvance
      exact hadvance.1
    | error halt t =>
      rw [hrun] at hadvance
      exact hadvance

/-- A connector with a delivery at hand, an empty stack and a target with a batch. -/
def busyEnv : Env where
  poll _ := .returns (some (.cdc [1] none false true))
  record _ := .returns true
  ack _ := .returns ()
  top _ := .returns none
  input _ := .returns 0
  page _ := .done .idle false 0
  send _ := .returns (.idle, false)
  published _ := .returns none
  decode _ := .returns ()
  pin _ := .returns ()
  load _ := .returns true
  prepareInitialize _ := .returns true
  persistInitialize _ := .returns true
  deliver _ := .returns ()
  settle _ := .returns true
  commit _ := .ok ()
  sync _ := .ok ()

end Dogpaddle.Flow.Durability
