import Dogpaddle.Flow.Commits

/-!
# Turns of the call stack

What one transaction can do to the frames, said once:

* `Turn`: the frame at a depth returns, moves on, keeps sending, or calls a consumer;
* `finishFrame_turn`, `routePage_turn`: the routing of a page is a turn;
* `runPage_turn`: a computed page is a step of the head, its tails, and a turn.
-/

namespace Dogpaddle.Flow

open Dogpaddle Lib

variable {S Q Row : Type}

/-- The pages after a turn that may have persisted a fresh one. -/
def storedPages (outputs : OrdMap Nat Bytes) (depth : Nat) : Option Bytes → OrdMap Nat Bytes
  | some encoded => outputs.put depth encoded
  | none => outputs

/-- The frame of a called consumer. -/
def Runtime.childFrame (rt : Runtime S Q Row) (c : Consumer) : Frame :=
  ⟨c.operation, some c.port, .run (rt.operation c.operation).initialResume⟩

/-- What a transaction does to the frame at `depth` and to the frames above it. -/
inductive Turn (rt : Runtime S Q Row) (depth : Nat) (frame : Frame) (after : Progress)
    (fresh : Option Bytes) (store : Store S Q) : Store S Q → Prop
  | returned (queues : Nat → List Bytes) (outboxes : Nat → Q) : after = .done →
      (depth ≠ 0 → queues = store.queues) →
      Turn rt depth frame after fresh store
        { store with
          controls := store.controls.erase depth
          outputs := store.outputs.erase depth
          queues, outboxes }
  | moved {resume : Resume} (outboxes : Nat → Q) : after = .more resume →
      Turn rt depth frame after fresh store
        { store with
          controls := store.controls.put depth { frame with phase := .run resume }
          outputs := store.outputs.erase depth
          outboxes }
  | stopped {next : Nat} (outboxes : Nat → Q) :
      Turn rt depth frame after fresh store
        { store with
          controls := store.controls.put depth { frame with phase := .send next after }
          outputs := storedPages store.outputs depth fresh
          outboxes }
  | called {next : Nat} {c : Consumer} (outboxes : Nat → Q) :
      (rt.topology.consumers frame.head)[next]? = some c →
      (rt.operation c.operation).isSink = false →
      Turn rt depth frame after fresh store
        { store with
          controls := (store.controls.put depth { frame with phase := .send (next + 1) after }).put
            (depth + 1) (rt.childFrame c)
          outputs := storedPages store.outputs depth fresh
          outboxes }
  | still (outboxes : Nat → Q) : fresh = none →
      Turn rt depth frame after fresh store { store with outboxes }

variable {rt : Runtime S Q Row} {depth : Nat} {frame : Frame} {after : Progress}

theorem consumePublished_store {source : Nat} {u : Unit} {s s' : Scope (Txn S Q Row)}
    (h : (consumePublished source : TxnM S Q Row Unit) s = .ok u s') :
    ∃ queues, s'.state.store = { s.state.store with queues } := by
  cases hq : s.state.store.queues source with
  | nil =>
    unfold consumePublished at h
    obtain ⟨_, t, ht, h⟩ := bind_eq_ok.mp h
    obtain ⟨rfl, rfl⟩ := get_eq_ok.mp ht
    rw [hq] at h
    obtain ⟨_, rfl⟩ := pure_eq_ok.mp h
    exact ⟨_, rfl⟩
  | cons item rest =>
    rw [consumePublished_eq_ok h hq]
    exact ⟨_, rfl⟩

/-- A frame that has sent its page returns or moves on. -/
theorem finishFrame_turn {u : Unit} {s s' : Scope (Txn S Q Row)} (fresh : Option Bytes)
    {store : Store S Q} (outboxes : Nat → Q) (hs : s.state.store = { store with outboxes })
    (h : rt.finishFrame depth frame after s = .ok u s') :
    Turn rt depth frame after fresh store s'.state.store := by
  cases after with
  | more resume =>
    obtain ⟨_, t, hwrite, h⟩ := bind_eq_ok.mp h
    rw [putFrame_eq_ok h, write_eq_ok hwrite, hs]
    exact .moved outboxes rfl
  | done =>
    obtain ⟨_, t, hemit, h⟩ := bind_eq_ok.mp h
    have ht := emit_eq_ok hemit
    have hpop : ∀ (t : Scope (Txn S Q Row)) (queues : Nat → List Bytes),
        t.state.store = { s.state.store with queues } →
        (depth ≠ 0 → queues = store.queues) → (popFrame depth : TxnM S Q Row Unit) t = .ok u s' →
        Turn rt depth frame .done fresh store s'.state.store := by
      intro t queues hstore hsame hpop
      rw [write_eq_ok hpop]
      dsimp only
      rw [hstore, hs]
      exact .returned queues outboxes rfl hsame
    split at h
    · next hroot =>
      cases hop : rt.operation frame.head with
      | source =>
        rw [hop] at h
        obtain ⟨_, t₁, hconsume, h⟩ := bind_eq_ok.mp h
        obtain ⟨queues, hqueues⟩ := consumePublished_store hconsume
        rw [ht] at hqueues
        exact hpop t₁ queues hqueues (fun hne => absurd hroot hne) h
      | _ =>
        rw [hop] at h
        obtain ⟨_, _, hthrow, _⟩ := bind_eq_ok.mp h
        exact (throw_eq_ok.mp hthrow).elim
    · refine hpop t s.state.store.queues (by rw [ht]) (fun _ => ?_) h
      rw [hs]

/-- The routing loop touches nothing but outboxes. -/
theorem routeLoop_store {head next : Nat} {encoded : Bytes} {consumers : List Consumer}
    {output : Option (Change Row)} {routed : Runtime.Routed} {s s' : Scope (Txn S Q Row)}
    (h : rt.routeLoop head encoded consumers next output s = .ok routed s') :
    ∃ served remaining outboxes, consumers = served ++ remaining ∧
      s'.state.store = { s.state.store with outboxes } ∧
      Remaining rt next served remaining routed := by
  induction consumers generalizing next output s with
  | nil =>
    obtain ⟨rfl, rfl⟩ := pure_eq_ok.mp h
    exact ⟨[], [], _, rfl, rfl, rfl⟩
  | cons c rest ih =>
    unfold Runtime.routeLoop at h
    cases hop : rt.operation c.operation with
    | sink sink =>
      rw [hop] at h
      obtain ⟨_, t, ht, h⟩ := bind_eq_ok.mp h
      obtain ⟨rfl, rfl⟩ := get_eq_ok.mp ht
      split at h
      · obtain ⟨rfl, rfl⟩ := pure_eq_ok.mp h
        exact ⟨[], c :: rest, _, rfl, rfl, rfl⟩
      · obtain ⟨_, t₁, hcharge, h⟩ := bind_eq_ok.mp h
        obtain ⟨hcharged, -⟩ := StepBudget.charge_eq_ok hcharge
        obtain ⟨shown, t₂, hshown, h⟩ := bind_eq_ok.mp h
        have ht₂ : t₂.state = t₁.state := by
          cases output with
          | some page =>
            obtain ⟨_, rfl⟩ := pure_eq_ok.mp hshown
            rfl
          | none =>
            obtain ⟨_, rfl⟩ := ofExcept_eq_ok.mp hshown
            rfl
        obtain ⟨accepted, t₃, henqueue, h⟩ := bind_eq_ok.mp h
        cases accepted with
        | false =>
          obtain ⟨rfl, rfl⟩ := pure_eq_ok.mp h
          rw [tryEnqueue_refused henqueue, ht₂, hcharged]
          exact ⟨[], c :: rest, _, rfl, rfl, rfl⟩
        | true =>
          obtain ⟨outbox, hstate⟩ := tryEnqueue_accepted henqueue
          obtain ⟨served, remaining, outboxes, rfl, hstore, hrest⟩ := ih h
          refine ⟨c :: served, remaining, outboxes, rfl, ?_, hrest.cons c⟩
          rw [hstore, hstate, ht₂, hcharged]
    | _ =>
      rw [hop] at h
      obtain ⟨rfl, rfl⟩ := pure_eq_ok.mp h
      refine ⟨[], c :: rest, _, rfl, rfl, c, rest, rfl, rfl, ?_, ?_⟩
      · rw [hop]; rfl
      · rw [hop]

theorem storeFresh_store {output : Option (Change Row)} {encoded : Bytes} {u : Unit}
    {s s' : Scope (Txn S Q Row)}
    (h : (Runtime.storeFresh output.isSome depth encoded : TxnM S Q Row Unit) s = .ok u s') :
    s'.state.store = { s.state.store with
      outputs := storedPages s.state.store.outputs depth (output.map fun _ => encoded) } := by
  unfold Runtime.storeFresh at h
  cases output with
  | none =>
    obtain ⟨_, rfl⟩ := pure_eq_ok.mp h
    rfl
  | some page =>
    rw [Option.isSome_some, if_pos rfl] at h
    rw [write_eq_ok h]
    rfl

/-- Routing a page is a turn of its frame. -/
theorem routePage_turn {next : Nat} {encoded : Bytes} {output : Option (Change Row)}
    {outcome : AdvanceOutcome} {s s' : Scope (Txn S Q Row)}
    (h : rt.routePage depth frame next after output encoded s = .ok outcome s') :
    Turn rt depth frame after (output.map fun _ => encoded) s.state.store s'.state.store := by
  unfold Runtime.routePage at h
  obtain ⟨routed, t, hloop, h⟩ := bind_eq_ok.mp h
  obtain ⟨served, remaining, outboxes, hsplit, hstore, hremaining⟩ := routeLoop_store hloop
  cases routed with
  | exhausted =>
    obtain ⟨_, t₁, hfinish, h⟩ := bind_eq_ok.mp h
    obtain ⟨_, rfl⟩ := pure_eq_ok.mp h
    exact finishFrame_turn _ outboxes hstore hfinish
  | stopped stop blocked =>
    obtain ⟨_, t₁, hfresh, h⟩ := bind_eq_ok.mp h
    have ht₁ := storeFresh_store hfresh
    rw [hstore] at ht₁
    split at h
    · obtain ⟨_, t₂, hput, h⟩ := bind_eq_ok.mp h
      obtain ⟨_, rfl⟩ := pure_eq_ok.mp h
      rw [putFrame_eq_ok hput, ht₁]
      exact .stopped outboxes
    · next hsame =>
      obtain ⟨_, rfl⟩ := pure_eq_ok.mp h
      rw [ht₁]
      cases output with
      | some page => exact absurd (.inl rfl) hsame
      | none => exact .still outboxes rfl
  | child stop child =>
    obtain ⟨c, rest, hrest, hstop, hsink, hchild⟩ := hremaining
    obtain ⟨_, t₁, hfresh, h⟩ := bind_eq_ok.mp h
    have ht₁ := storeFresh_store hfresh
    rw [hstore] at ht₁
    obtain ⟨_, t₂, hput, h⟩ := bind_eq_ok.mp h
    obtain ⟨_, t₃, hput', h⟩ := bind_eq_ok.mp h
    obtain ⟨_, rfl⟩ := pure_eq_ok.mp h
    have hc : (rt.topology.consumers frame.head)[next + served.length]? = some c := by
      rw [← List.getElem?_drop, hsplit, hrest]
      simp
    rw [putFrame_eq_ok hput', putFrame_eq_ok hput, ht₁, hchild, hstop]
    exact .called outboxes hc hsink

/-- The tails of a page change the states of atomic operations only. -/
theorem Tails.states {tails : List Nat} {σ σ' : Nat → S} {raw page : Option (Change Row)}
    {events : List (Event Row)} (h : Tails rt tails σ raw events page σ') {i : Nat}
    (hi : (rt.operation i).isAtomic = false) : σ' i = σ i := by
  induction h with
  | nil => rfl
  | empty => rfl
  | @apply σ σ' tail rest operation change output page s events hop _ _ ih =>
    have hne : i ≠ tail := by
      rintro rfl
      rw [hop] at hi
      cases hi
    rw [ih, Function.update_of_ne hne]

/-- What a computed page did before it was routed: a step of the head and its tails; a page
to route is encoded within the limits of a page. -/
structure Computed (rt : Runtime S Q Row) (frame : Frame) (input : Change Row) (resume : Resume)
    (progress : Progress) (fresh : Option Bytes) (store store' : Store S Q) : Prop where
  steps : ∃ raw state states, Performs
    ((rt.operation frame.head).step (frame.inputPort.getD 0) input resume)
      (store.states frame.head) ⟨raw, progress⟩ state ∧
    store' = { store with states } ∧
    ∀ i, (rt.operation i).isAtomic = false →
      states i = Function.update store.states frame.head state i
  page : ∀ encoded, fresh = some encoded → encoded.length ≤ pageBytes ∧
    ∃ page, (rt.outputCodec frame.head).decode encoded = .ok page ∧
      checkShape page 256 16384 = .ok ()

/-- A computed page is a step of the head, its tails, and a turn of the frame. -/
theorem runPage_turn {input : Change Row} {resume : Resume} {outcome : AdvanceOutcome}
    {s s' : Scope (Txn S Q Row)} (hphase : frame.phase = .run resume)
    (h : rt.runPage depth frame input s = .ok outcome s') :
    ∃ progress fresh store, Computed rt frame input resume progress fresh s.state.store store ∧
      Turn rt depth frame progress fresh store s'.state.store := by
  unfold Runtime.runPage at h
  rw [hphase] at h
  obtain ⟨_, t, hcharge, h⟩ := bind_eq_ok.mp h
  obtain ⟨hcharged, -⟩ := StepBudget.charge_eq_ok hcharge
  obtain ⟨⟨raw, progress⟩, t₁, hstep, h⟩ := bind_eq_ok.mp h
  obtain ⟨state, hperforms, ht₁⟩ := onNode_eq_ok hstep
  rw [hcharged] at hperforms ht₁
  dsimp only at h
  split at h
  · obtain ⟨_, _, hthrow, _⟩ := bind_eq_ok.mp h
    exact (throw_eq_ok.mp hthrow).elim
  obtain ⟨_, t₂, hemit, h⟩ := bind_eq_ok.mp h
  have ht₂ := emit_eq_ok hemit
  rw [ht₁] at ht₂
  obtain ⟨page, t₃, hrun, h⟩ := bind_eq_ok.mp h
  obtain ⟨events, states, htails, ht₃, -⟩ := runTails_spec hrun
  rw [ht₂] at htails ht₃
  have hstates : ∀ i, (rt.operation i).isAtomic = false →
      states i = Function.update s.state.store.states frame.head state i :=
    fun i hi => htails.states hi
  have hstore : t₃.state.store = { s.state.store with states } := by
    rw [ht₃]
  cases page with
  | none =>
    obtain ⟨_, t₄, hcharge, h⟩ := bind_eq_ok.mp h
    obtain ⟨hcharged, -⟩ := StepBudget.charge_eq_ok hcharge
    obtain ⟨_, t₅, hfinish, h⟩ := bind_eq_ok.mp h
    obtain ⟨_, rfl⟩ := pure_eq_ok.mp h
    refine ⟨progress, none, { s.state.store with states },
      ⟨⟨raw, state, states, hperforms, rfl, hstates⟩, nofun⟩, ?_⟩
    refine finishFrame_turn none s.state.store.outboxes ?_ hfinish
    rw [hcharged, hstore]
  | some page =>
    obtain ⟨_, t₄, hshape, h⟩ := bind_eq_ok.mp h
    obtain ⟨hshaped, rfl⟩ := ofExcept_eq_ok.mp hshape
    obtain ⟨encoded, t₄, hencode, h⟩ := bind_eq_ok.mp h
    obtain ⟨rfl, hlength, hdecode⟩ := encodePage_eq_ok hencode
    obtain ⟨_, t₅, hcharge, h⟩ := bind_eq_ok.mp h
    obtain ⟨_, t₆, hcharge', h⟩ := bind_eq_ok.mp h
    have hcharged : t₆.state = t₃.state :=
      (StepBudget.charge_eq_ok hcharge').1.trans (StepBudget.charge_eq_ok hcharge).1
    have hturn := routePage_turn h
    rw [hcharged, hstore] at hturn
    refine ⟨progress, some encoded, { s.state.store with states },
      ⟨⟨raw, state, states, hperforms, rfl, hstates⟩, ?_⟩, hturn⟩
    intro bytes hbytes
    cases hbytes
    exact ⟨hlength, page, hdecode, hshaped⟩

end Dogpaddle.Flow
