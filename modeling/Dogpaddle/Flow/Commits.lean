import Dogpaddle.Flow.Refine
import Mathlib.Logic.Relation

/-!
# Commits of a run

Whatever a round does, it changes the committed store only by whole commits:

* `Called`: the frame and the input a page is computed for;
* `StoreStep`: what one commit makes of the committed store;
* `Reachable.steps`: every reachable store comes from the built one by commits, so what
  every commit keeps holds in every run.
-/

namespace Dogpaddle.Flow

open Dogpaddle Lib

variable {S Q Row : Type}

/-- A published front of a source, decoded and admitted, with an empty stack. -/
structure Starts (rt : Runtime S Q Row) (store : Store S Q) (source : Nat) (item : Bytes)
    (input : Change Row) : Prop where
  empty : store.controls.last? = none
  role : (rt.operation source).isSource = true
  front : Runtime.published store source = .ok (some item)
  decoded : (rt.codec source).decode item = .ok input
  shape : checkShape input 4096 65536 = .ok ()

/-- The frame of a root call that has not computed anything. -/
def Runtime.rootFrame (rt : Runtime S Q Row) (source : Nat) : Frame :=
  ⟨source, none, .run (rt.operation source).initialResume⟩

/-- The frame a page is computed for, with its input: the top of the stack, or a fresh root. -/
inductive Called (rt : Runtime S Q Row) (store : Store S Q) : Nat → Frame → Change Row → Prop
  | top {depth : Nat} {frame : Frame} {bytes : Bytes} {input : Change Row} :
      store.controls.last? = some (depth, frame) → rt.input store depth frame = .ok bytes →
      (rt.inputCodec frame).decode bytes = .ok input → Called rt store depth frame input
  | root {source : Nat} {item : Bytes} {input : Change Row} : Starts rt store source item input →
      Called rt store 0 (rt.rootFrame source) input

/-- What one commit makes of the committed store. -/
inductive StoreStep (rt : Runtime S Q Row) (store : Store S Q) : Store S Q → Prop
  | page {depth : Nat} {frame : Frame} {input : Change Row} {budget : StepBudget}
      {outcome : AdvanceOutcome} {s : Scope (Txn S Q Row)} : Called rt store depth frame input →
      rt.runPage depth frame input ⟨⟨store, []⟩, budget⟩ = .ok outcome s →
      StoreStep rt store s.state.store
  | sent {depth next : Nat} {frame : Frame} {after : Progress} {budget : StepBudget} {u : Unit}
      {s : Scope (Txn S Q Row)} : store.controls.last? = some (depth, frame) →
      frame.phase = .send next after → next = (rt.topology.consumers frame.head).length →
      rt.finishFrame depth frame after ⟨⟨store, []⟩, budget⟩ = .ok u s →
      StoreStep rt store s.state.store
  | route {depth next : Nat} {frame : Frame} {after : Progress} {encoded : Bytes}
      {budget : StepBudget} {outcome : AdvanceOutcome} {s : Scope (Txn S Q Row)} :
      store.controls.last? = some (depth, frame) → frame.phase = .send next after →
      Runtime.output store depth = .ok encoded →
      rt.routePage depth frame next after none encoded ⟨⟨store, []⟩, budget⟩ = .ok outcome s →
      StoreStep rt store s.state.store
  | pin {source : Nat} {item : Bytes} {input : Change Row} {budget : StepBudget} {u : Unit}
      {s : Scope (Txn S Q Row)} : Starts rt store source item input →
      putFrame 0 (rt.rootFrame source) ⟨⟨store, []⟩, budget⟩ = .ok u s →
      StoreStep rt store s.state.store
  | capture (source : Nat) (items : List Bytes) : StoreStep rt store
      { store with queues := Function.update store.queues source (store.queues source ++ items) }
  | outboxes (outboxes : Nat → Q) : StoreStep rt store { store with outboxes }

/-! ## Rounds -/

section Rounds

variable {rt : Runtime S Q Row} {I : Store S Q → Prop} {env : Env Q} {store store' : Store S Q}

/-- A step of a round that keeps a predicate of the committed store, however it ends. -/
def Stays {α : Type} (I : Store S Q → Prop) (x : FlowM S Q Row α) : Prop :=
  Triple (fun w => I w.store) x (fun _ w => I w.store) fun w => I w.store

/-- A failed action kept the predicate, and only an uncertain commit can have changed the store. -/
def Paused (I : Store S Q → Prop) (store : Store S Q) (w : World S Q Row) : Prop :=
  I w.store ∧ (w.needsReopen = false → w.store = store)

/-- An action on a known store, with what its failures leave. -/
def StaysAt {α : Type} (I : Store S Q → Prop) (store : Store S Q) (E : World S Q Row → Prop)
    (x : FlowM S Q Row α) : Prop :=
  Triple (fun w => w.store = store) x (fun _ w => I w.store) E

namespace Stays

variable {α β : Type}

theorem pure (a : α) : Stays I (pure a : FlowM S Q Row α) :=
  Triple.pure a fun _ h => h

theorem throw (e : Halt) : Stays I (throw e : FlowM S Q Row α) :=
  Triple.throw e fun _ h => h

theorem bind {x : FlowM S Q Row α} {f : α → FlowM S Q Row β} (hx : Stays I x)
    (hf : ∀ a, Stays I (f a)) : Stays I (x >>= f) :=
  Triple.bind hx hf

theorem ite {c : Prop} [Decidable c] {x y : FlowM S Q Row α} (hx : Stays I x) (hy : Stays I y) :
    Stays I (if c then x else y) :=
  Triple.ite (fun _ => hx) fun _ => hy

theorem get {f : World S Q Row → FlowM S Q Row β} (h : ∀ w, Stays I (f w)) :
    Stays I (MonadState.get >>= f) :=
  Triple.get fun w hw => (h w).weaken (fun _ hs => hs ▸ hw) (fun _ _ h => h) fun _ h => h

/-- Volatile state alone. -/
theorem modify {f : World S Q Row → World S Q Row} (h : ∀ w, (f w).store = w.store) :
    Stays I (modify f : FlowM S Q Row PUnit) :=
  Triple.modify _ fun w hw => by
    rw [h]
    exact hw

theorem liftError (x : Except OperationError α) : Stays I (liftError x : FlowM S Q Row α) :=
  Triple.ofExcept (fun _ _ _ h => h) fun _ h => h

theorem liftFenced (x : Except OperationError α) : Stays I (liftFenced x : FlowM S Q Row α) := by
  cases x with
  | ok a => exact pure a
  | error e => exact bind (modify fun _ => rfl) fun _ => throw _

theorem effect (e : Effect Row) : Stays I (effect e : FlowM S Q Row Unit) :=
  modify fun _ => rfl

theorem sync (env : Env Q) : Stays I (sync env : FlowM S Q Row Unit) := by
  refine Triple.get fun w hw => Triple.ite (fun _ => ?_) fun _ => ?_
  · cases env.fate w.log.length with
    | done => exact Triple.set _ fun _ _ => hw
    | failed => exact Triple.bind (Triple.set _ fun _ _ => hw) fun _ => throw _
    | crashed => exact Triple.bind (Triple.set _ fun _ _ => hw) fun _ => throw _
  · exact Triple.pure _ fun s hs => hs ▸ hw

end Stays

/-- Reading the store fixes it. -/
theorem Triple.atStore {α : Type} {x : FlowM S Q Row α} {Post : α → World S Q Row → Prop}
    {E : World S Q Row → Prop} {w : World S Q Row}
    (h : Triple (fun w' => w'.store = w.store) x Post E) : Triple (· = w) x Post E :=
  h.weaken (fun _ hs => hs ▸ rfl) (fun _ _ h => h) fun _ h => h

/-- What the failures of an action on a known store must admit. -/
def Admits (I : Store S Q → Prop) (store : Store S Q) (E : World S Q Row → Prop) : Prop :=
  ∀ w : World S Q Row, Paused I store w → E w

section At

variable {α β : Type} {E : World S Q Row → Prop}

theorem staysAt_throw (hI : I store) (hE : Admits I store E) (e : Halt) :
    StaysAt I store E (throw e : FlowM S Q Row α) :=
  Triple.throw e fun w hs => hE w ⟨hs.symm ▸ hI, fun _ => hs⟩

theorem staysAt_pure (hI : I store) (a : α) : StaysAt I store E (pure a : FlowM S Q Row α) :=
  Triple.pure a fun _ hs => hs.symm ▸ hI

/-- Spending the allowance of a round does not touch the store. -/
theorem staysAt_spend {bytes : Nat} {f : Unit → FlowM S Q Row α} (hI : I store)
    (hE : Admits I store E) (hf : StaysAt I store E (f ())) :
    StaysAt I store E (spend bytes >>= f) := by
  refine Triple.bind (Q := fun (_ : Unit) (w : World S Q Row) => w.store = store) ?_ fun _ => hf
  refine Triple.get fun w hw => Triple.ite (fun _ => Triple.set _ fun _ _ => hw) fun _ => ?_
  refine Triple.bind (Triple.modify (K := fun _ => Paused I store) _ fun s hs => ?_)
    fun _ => Triple.throw _ hE
  exact ⟨hs ▸ hw.symm ▸ hI, nofun⟩

theorem staysAt_liftError {x : Except OperationError α} {f : α → FlowM S Q Row β}
    (hI : I store) (hE : Admits I store E) (hf : ∀ a, x = .ok a → StaysAt I store E (f a)) :
    StaysAt I store E (liftError x >>= f) := by
  cases x with
  | ok a => exact hf a rfl
  | error e => exact staysAt_throw hI hE _

/-- A commit publishes the new store or leaves the old one. -/
theorem staysAt_commit {e : Effect Row} (hI : I store) (hE : Admits I store E) (hI' : I store') :
    StaysAt I store E (commit env store' e) := by
  refine Triple.get fun w hw => ?_
  cases env.fate w.log.length with
  | done => exact Triple.set _ fun _ _ => hI'
  | failed =>
    refine Triple.bind (Triple.set (K := fun _ => Paused I store) _ fun _ _ => ?_)
      fun _ => Triple.throw _ hE
    exact ⟨hw.symm ▸ hI, nofun⟩
  | crashed =>
    refine Triple.bind (Triple.set (K := fun _ => Paused I store) _ fun _ _ => ?_)
      fun _ => Triple.throw _ hE
    exact ⟨hI', nofun⟩

/-- A commit at the end of an action. -/
theorem staysAt_committed {e : Effect Row} {a : α} (hI : I store) (hE : Admits I store E)
    (hI' : I store') :
    StaysAt I store E (do commit env store' e; pure a) :=
  Triple.bind (staysAt_commit hI hE hI') fun _ => Triple.pure _ fun _ h => h

/-- An action on the store just read. -/
theorem stays_of_staysAt {x : FlowM S Q Row α} {f : α → FlowM S Q Row β}
    {w : World S Q Row} (hx : StaysAt I w.store (fun w => I w.store) x)
    (hf : ∀ a, Stays I (f a)) :
    Triple (· = w) (x >>= f) (fun _ w => I w.store) fun w => I w.store :=
  Triple.bind (hx.weaken (fun _ hs => hs ▸ rfl) (fun _ _ h => h) fun _ h => h) hf

end At

section Closed

variable {E : World S Q Row → Prop}

section Actions

variable (hclosed : ∀ store store', I store → StoreStep rt store store' → I store') (hI : I store)
  (hE : Admits I store E)
include hclosed hI hE

theorem staysAt_attemptPage {depth : Nat} {frame : Frame} {input : Change Row} {exponent : Nat}
    {retry : OperationError → FlowM S Q Row AdvanceOutcome}
    (hcalled : Called rt store depth frame input) (hretry : ∀ e, StaysAt I store E (retry e)) :
    StaysAt I store E (rt.attemptPage env depth frame input exponent retry) := by
  refine Triple.get fun w hw => ?_
  rw [hw]
  refine Triple.weaken ?_ (fun _ hs => hs ▸ hw) (fun _ _ h => h) fun _ h => h
  cases hpage : rt.runPage depth frame input ⟨⟨store, []⟩, ⟨2 ^ exponent, stepBytes⟩⟩ with
  | ok outcome s =>
    exact staysAt_spend hI hE
      (staysAt_committed hI hE (hclosed _ _ hI (.page hcalled hpage)))
  | error e s => exact staysAt_spend hI hE (hretry e)

variable (env) in
/-- Every allowance the page is tried with commits it whole, or not at all. -/
theorem staysAt_runFrame {depth : Nat} {frame : Frame} {input : Change Row}
    (hcalled : Called rt store depth frame input) (exponent : Nat) :
    StaysAt I store E (rt.runFrame env depth frame input exponent) := by
  induction exponent with
  | zero =>
    exact staysAt_attemptPage hclosed hI hE hcalled fun _ => staysAt_throw hI hE _
  | succ exponent ih =>
    exact staysAt_attemptPage hclosed hI hE hcalled fun _ =>
      Triple.ite (fun _ => ih) fun _ => staysAt_throw hI hE _

theorem staysAt_sendPage {depth next : Nat} {frame : Frame} {after : Progress}
    (hlast : store.controls.last? = some (depth, frame)) (hphase : frame.phase = .send next after) :
    StaysAt I store E (rt.sendPage env depth frame next after) := by
  refine Triple.get fun w hw => ?_
  rw [hw]
  refine Triple.weaken ?_ (fun _ hs => hs ▸ hw) (fun _ _ h => h) fun _ h => h
  refine Triple.ite (fun hall => ?_) fun _ => ?_
  · split
    · exact staysAt_throw hI hE _
    · next s hs =>
      exact staysAt_committed hI hE (hclosed _ _ hI (.sent hlast hphase hall hs))
  · refine staysAt_liftError hI hE fun encoded hencoded => ?_
    refine Triple.ite (fun _ => staysAt_throw hI hE _) fun _ => ?_
    split
    · exact staysAt_throw hI hE _
    · next s hs =>
      exact staysAt_committed hI hE (hclosed _ _ hI (.route hlast hphase hencoded hs))

theorem staysAt_advanceFrame {depth : Nat} {frame : Frame}
    (hlast : store.controls.last? = some (depth, frame)) :
    StaysAt I store E (rt.advanceFrame env depth frame) := by
  unfold Runtime.advanceFrame
  split
  · have hread : StaysAt I store E (do
        let w ← get
        let bytes ← liftError (rt.input w.store depth frame)
        spend bytes.length
        let input ← liftError (((rt.inputCodec frame).decode bytes).mapError codecError)
        rt.runFrame env depth frame input 8) := by
      refine Triple.get fun w hw => ?_
      rw [hw]
      refine Triple.weaken ?_ (fun _ hs => hs ▸ hw) (fun _ _ h => h) fun _ h => h
      refine staysAt_liftError hI hE fun bytes hbytes => staysAt_spend hI hE ?_
      refine staysAt_liftError hI hE fun input hinput => ?_
      have hcalled : Called rt store depth frame input :=
        .top hlast hbytes (mapError_eq_ok.mp hinput)
      exact staysAt_runFrame env hclosed hI hE hcalled 8
    exact Triple.ite (fun _ => staysAt_spend hI hE hread) fun _ => hread
  · next next after hphase =>
    exact staysAt_spend hI hE (staysAt_sendPage hclosed hI hE hlast hphase)

end Actions

variable (hclosed : ∀ store store', I store → StoreStep rt store store' → I store')
include hclosed

theorem staysAt_advanceNextRoot (hI : I store) (hlast : store.controls.last? = none)
    (tries : Nat) : StaysAt I store (fun w => I w.store) (rt.advanceNextRoot env tries) := by
  have hE : Admits I store fun w : World S Q Row => I w.store := fun _ h => h.1
  induction tries with
  | zero => exact staysAt_pure hI _
  | succ tries ih =>
    refine Triple.get fun w hw => ?_
    refine Triple.weaken (P := fun w => w.store = store) ?_ (fun _ hs => hs ▸ hw)
      (fun _ _ h => h) fun _ h => h
    refine Triple.ite (fun _ => staysAt_pure hI _) fun _ => ?_
    refine Triple.bind (Triple.modify (K := fun _ w => w.store = store) _ fun _ hs => hs)
      fun _ => ?_
    refine staysAt_spend hI hE ?_
    rw [hw]
    have hrole := source_of_rotation rt w.rootCursor
    generalize rt.sources.getD w.rootCursor 0 = source at hrole
    refine staysAt_liftError hI hE fun front hfront => ?_
    cases front with
    | none => exact ih
    | some item =>
      refine staysAt_spend hI hE (staysAt_liftError hI hE fun input hinput => ?_)
      refine staysAt_liftError hI hE fun _ hshape => ?_
      have hstarts : Starts rt store source item input :=
        ⟨hlast, hrole, hfront, mapError_eq_ok.mp hinput, hshape⟩
      have hrun := staysAt_runFrame env hclosed hI (fun _ h => h) (.root hstarts) 8
      refine Triple.tryCatch hrun fun halt => ?_
      refine Triple.get fun w hw => ?_
      refine Triple.ite (fun hopen => ?_) fun _ => Triple.throw _ fun _ hs => hs ▸ hw.1
      -- nothing was committed, so the stack is still empty and the root can be pinned
      have hstore : w.store = store := hw.2 (by simpa using hopen)
      refine Triple.weaken ?_ (fun _ hs => hs ▸ hstore) (fun _ _ h => h) fun _ h => h
      refine staysAt_spend hI hE ?_
      rw [hstore]
      split
      · exact Triple.bind (Q := fun _ _ => False) (Triple.throw _ fun _ hs => hs ▸ hI)
          fun _ _ => nofun
      · next s hput =>
        have hI' := hclosed _ _ hI (.pin hstarts hput)
        exact Triple.bind (staysAt_commit hI hE hI') fun _ => Triple.throw _ fun _ h => h

theorem stays_recordDelivery (index : Nat) (delivery : Delivery) :
    Stays I (Runtime.recordDelivery env index delivery : FlowM S Q Row AdvanceOutcome) := by
  refine Stays.bind (.liftError _) fun recorded => Stays.ite ?_ (.pure _)
  have hack : Stays I (do
      modify fun w : World S Q Row =>
        { w with pending := Function.update w.pending index none }
      liftFenced env.ack
      effect (.ack index)
      pure AdvanceOutcome.progressed) :=
    Stays.bind (.modify fun _ => rfl) fun _ => Stays.bind (.liftFenced _) fun _ =>
      Stays.bind (.effect _) fun _ => .pure _
  refine Triple.get fun w hw => ?_
  refine stays_of_staysAt
    (staysAt_commit hw (fun _ h => h.1) (hclosed _ _ hw (.capture index delivery.items)))
    fun _ => ?_
  exact Stays.ite (Stays.bind (.sync env) fun _ => hack) hack

theorem stays_capture (index : Nat) :
    Stays I (Runtime.capture env index : FlowM S Q Row AdvanceOutcome) := by
  refine Stays.bind ?_ fun _ => Stays.get fun w => ?_
  · exact Stays.get fun w => Stays.ite
      (Stays.bind (.liftFenced _) fun _ => .modify fun _ => rfl) (.pure _)
  · split
    · exact Stays.pure _
    · exact stays_recordDelivery hclosed index _

variable (env) in
/-- A commit that replaces an outbox. -/
theorem stays_outbox (index : Nat) (outbox : Q) (e : Effect Row) :
    Stays I (do
      let w ← get
      commit env { w.store with outboxes := Function.update w.store.outboxes index outbox } e) := by
  refine Triple.get fun w hw => ?_
  have hstep := hclosed _ _ hw (.outboxes (Function.update w.store.outboxes index outbox))
  exact (staysAt_commit (E := fun w => I w.store) hw (fun _ h => h.1) hstep).weaken
    (fun _ hs => hs ▸ rfl) (fun _ _ h => h) fun _ h => h

theorem stays_drain (index : Nat) :
    Stays I (Runtime.drain env index : FlowM S Q Row AdvanceOutcome) := by
  refine Stays.bind (.liftError _) fun loaded => Stays.ite ?_ (.pure _)
  refine Stays.bind ?_ fun _ => Stays.bind (.sync env) fun _ => Stays.bind (.effect _) fun _ =>
    Stays.bind (.liftFenced _) fun _ => Stays.bind (.liftFenced _) fun outbox => ?_
  · refine Stays.bind (.liftFenced _) fun _ => Stays.ite ?_ (.pure _)
    exact Stays.bind (.liftError _) fun outbox => stays_outbox env hclosed index outbox _
  · have h := stays_outbox env hclosed index outbox (.settle index)
    exact fun w hw => (Triple.bind h fun _ => Triple.pure AdvanceOutcome.progressed
      fun _ h => h) w hw

theorem stays_stackActions (actions : Nat) (outcome : AdvanceOutcome) :
    Stays I (rt.stackActions env actions outcome) := by
  induction actions generalizing outcome with
  | zero => exact Stays.pure _
  | succ actions ih =>
    refine Triple.get fun w hw => ?_
    refine Triple.weaken (P := fun w' => w'.store = w.store) ?_ (fun _ hs => hs ▸ rfl)
      (fun _ _ h => h) fun _ h => h
    have hE : Admits I w.store fun w : World S Q Row => I w.store := fun _ h => h.1
    refine Triple.ite (fun _ => staysAt_pure hw _) fun _ => staysAt_spend hw hE ?_
    refine Triple.get fun w₁ hw₁ => Triple.get fun w₂ hw₂ => ?_
    subst hw₂
    refine Triple.weaken (P := fun w' => w'.store = w.store) ?_ (fun _ hs => hs ▸ hw₁)
      (fun _ _ h => h) fun _ h => h
    refine Triple.ite (fun _ => staysAt_pure hw _) fun _ => ?_
    rw [hw₁]
    have hrest : ∀ action : AdvanceOutcome, Stays I (if action ≠ .progressed then
        pure (outcome.join action) else rt.stackActions env actions (outcome.join action)) :=
      fun _ => Stays.ite (.pure _) (ih _)
    refine Triple.bind ?_ hrest
    cases htop : w.store.controls.last? with
    | none => exact staysAt_advanceNextRoot hclosed hw htop _
    | some top => exact staysAt_advanceFrame hclosed hw hE htop

variable (env) in
theorem stays_round : Stays I (rt.round env) :=
  Stays.get fun _ => Stays.bind (.modify fun _ => rfl) fun _ =>
    Stays.bind (stays_capture hclosed _) fun _ => Stays.bind (.modify fun _ => rfl) fun _ =>
      Stays.bind (stays_stackActions hclosed _ _) fun _ => Stays.get fun _ =>
        Stays.bind (.modify fun _ => rfl) fun _ => Stays.bind (stays_drain hclosed _) fun _ =>
          .pure _

theorem stays_advance {w : World S Q Row} (hw : I w.store) :
    I (endState (rt.advance env w)).store := by
  have hsync : ∀ w : World S Q Row, I w.store → I (endState (sync env w)).store := by
    intro w hw
    have h := Stays.sync env w hw
    cases hr : sync env w <;> simpa [hr, endState] using h
  unfold Runtime.advance
  split
  · exact hw
  · have hround := stays_round env hclosed { w with unsynced := false } hw
    cases hr : rt.round env { w with unsynced := false } with
    | ok outcome w' =>
      rw [hr] at hround
      have h := hsync w' hround
      dsimp only
      cases hs : sync env w' <;> simpa [hs, endState] using h
    | error halt w' =>
      rw [hr] at hround
      cases halt with
      | panicked => exact hround
      | failed e =>
        have h := hsync w' hround
        dsimp only
        cases hs : sync env w' <;> simpa [hs, endState] using h

end Closed

/-- What every commit keeps holds of every reachable store. -/
theorem Reachable.store_induction {states : Nat → S} {outboxes : Nat → Q} {w : World S Q Row}
    (h : Reachable rt states outboxes w) (hinitial : I (.initial states outboxes))
    (hclosed : ∀ store store', I store → StoreStep rt store store' → I store') : I w.store := by
  induction h with
  | build => exact hinitial
  | advance env _ ih => exact stays_advance hclosed ih
  | reopen _ ih => exact ih

/-- Every reachable store comes from the built one by commits. -/
theorem Reachable.steps {states : Nat → S} {outboxes : Nat → Q} {w : World S Q Row}
    (h : Reachable rt states outboxes w) :
    Relation.ReflTransGen (StoreStep rt) (.initial states outboxes) w.store :=
  h.store_induction .refl fun _ _ => .tail

end Rounds

end Dogpaddle.Flow
