import Dogpaddle.Flow.Page

/-!
# Scheduling rounds

One round services a source, at most 32 stack actions and a sink, as
`Flow::advance` does. What the round cannot decide itself is an `Env`: what the
source polls and whether it records, how the sink's boundary calls end, and the
fate of every commit and barrier. A commit can succeed, fail without effect, or
take effect although its caller never learns so; the last one is a crash right
after the commit. A crash that loses commits no barrier covered is the run that
crashed at the last commit left.

`Reachable` closes the fresh flow under rounds and reopens.
-/

namespace Dogpaddle.Flow

open Dogpaddle Lib

variable {S Q Row : Type}

def stackActionLimit : Nat := 32
def stackRoundBytes : Nat := 80 * pageBytes

/-- What happens to a commit or a barrier. -/
inductive Fate
  | done
  | failed
  | crashed
deriving DecidableEq, Repr

/-- A polled source delivery: the items its record publishes, and whether its
acknowledgement needs a durable barrier. -/
structure Delivery where
  items : List Bytes
  requiresAckBarrier : Bool
deriving DecidableEq, Repr

/-- The outside of one round. The fate of a commit is looked up by the number
of effects before it. -/
structure Env (Q : Type) where
  fate : Nat → Fate
  poll : Except OperationError (Option Delivery)
  record : Except OperationError Bool
  ack : Except OperationError Unit
  load : Except OperationError Bool
  prepareInitialize : Except OperationError Bool
  persistInitialize : Except OperationError Q
  deliver : Except OperationError Unit
  settle : Except OperationError Q

/-- Durable and external effects, in order. -/
inductive Effect (Row : Type)
  | compute (events : List (Event Row))
  | capture (source : Nat) (items : List Bytes)
  | pin (depth : Nat) (frame : Frame)
  | initialized (sink : Nat)
  | settle (sink : Nat)
  | sync
  | ack (source : Nat)
  | deliver (sink : Nat)

/-- Why a round stopped early. -/
inductive Halt
  | failed (error : OperationError)
  | panicked
deriving DecidableEq, Repr

/-- The committed store, the effect log and the runtime's volatile state. -/
structure World (S Q Row : Type) where
  store : Store S Q
  log : List (Effect Row)
  sourceCursor : Nat
  sinkCursor : Nat
  rootCursor : Nat
  pending : Nat → Option Delivery
  needsReopen : Bool
  /-- The durability batch has commits that no barrier covers yet. -/
  unsynced : Bool
  /-- Stack allowance left in this round. -/
  remaining : Nat

abbrev FlowM (S Q Row α : Type) := EStateM Halt (World S Q Row) α

def fail {α : Type} (error : OperationError) : FlowM S Q Row α := throw (.failed error)

/-- Lifts a boundary result. -/
def liftError {α : Type} (x : Except OperationError α) : FlowM S Q Row α :=
  MonadExcept.ofExcept (x.mapError Halt.failed)

def fenceOff : FlowM S Q Row Unit := modify fun w => { w with needsReopen := true }

/-- Lifts a boundary result whose failure leaves the runtime uncertain. -/
def liftFenced {α : Type} (x : Except OperationError α) : FlowM S Q Row α :=
  match x with
  | .ok a => pure a
  | .error e => do
    fenceOff
    fail e

/-- Publishes a store as one commit. -/
def commit (env : Env Q) (store : Store S Q) (effect : Effect Row) : FlowM S Q Row Unit := do
  let w ← get
  match env.fate w.log.length with
  | .done => set { w with store, log := w.log ++ [effect], unsynced := true }
  | .failed => do
    set { w with needsReopen := true, unsynced := true }
    fail (.message "commit failed")
  | .crashed => do
    set { w with store, log := w.log ++ [effect], needsReopen := true, unsynced := true }
    fail (.message "commit outcome is unknown")

/-- The durability barrier; a batch without pending writes skips it. -/
def sync (env : Env Q) : FlowM S Q Row Unit := do
  let w ← get
  if w.unsynced then
    match env.fate w.log.length with
    | .done => set { w with log := w.log ++ [Effect.sync], unsynced := false }
    | _ => do
      set { w with needsReopen := true }
      fail (.message "synchronize durability batch")

/-- Spends stack allowance; an underflow would be an arithmetic panic. -/
def spend (bytes : Nat) : FlowM S Q Row Unit := do
  let w ← get
  if bytes ≤ w.remaining then set { w with remaining := w.remaining - bytes }
  else do
    fenceOff
    throw .panicked

/-- Adds an external effect to the log. -/
def effect (e : Effect Row) : FlowM S Q Row Unit := modify fun w => { w with log := w.log ++ [e] }

namespace Runtime

/-- One attempt at the next page with `2 ^ exponent` head items. Its
transaction is committed on success and dropped on failure. -/
def attemptPage (rt : Runtime S Q Row) (env : Env Q) (depth : Nat) (frame : Frame)
    (input : Change Row) (exponent : Nat)
    (retry : OperationError → FlowM S Q Row AdvanceOutcome) : FlowM S Q Row AdvanceOutcome := do
  let w ← get
  match rt.runPage depth frame input ⟨⟨w.store, []⟩, ⟨2 ^ exponent, stepBytes⟩⟩ with
  | .ok outcome s => do
    spend (stepBytes - s.budget.remainingBytes)
    commit env s.state.store (.compute s.state.events)
    pure outcome
  | .error e s => do
    spend (stepBytes - s.budget.remainingBytes)
    retry e

/-- A whole retry sequence: the head items are halved after every budget
failure, down to one. -/
def runFrame (rt : Runtime S Q Row) (env : Env Q) (depth : Nat) (frame : Frame)
    (input : Change Row) : (exponent : Nat) → FlowM S Q Row AdvanceOutcome
  | 0 => rt.attemptPage env depth frame input 0 fail
  | exponent + 1 => rt.attemptPage env depth frame input (exponent + 1) fun e =>
      if isBudgetError e then runFrame rt env depth frame input exponent else fail e

/-- The stored output page of a frame. -/
def output (store : Store S Q) (depth : Nat) : Except OperationError Bytes :=
  match store.outputs.get? depth with
  | none => .error (.message "frame output is missing")
  | some encoded =>
    if encoded.length > pageBytes then .error (.message "stored item is too large") else .ok encoded

/-- The front of a source's queue; a source reads at most a root's input. -/
def published (store : Store S Q) (source : Nat) : Except OperationError (Option Bytes) :=
  match (store.queues source).head? with
  | none => .ok none
  | some item =>
    if item.length > rootBytes then .error (.message "stored item is too large")
    else .ok (some item)

/-- The encoded input of a frame: its parent's page or its source's front. -/
def input (rt : Runtime S Q Row) (store : Store S Q) (depth : Nat) (frame : Frame) :
    Except OperationError Bytes :=
  match depth with
  | parent + 1 => output store parent
  | 0 =>
    match rt.operation frame.head with
    | .source =>
      match published store frame.head with
      | .error e => .error e
      | .ok (some item) => .ok item
      | .ok none => .error (.message "root source has no published input")
    | _ => .error (.message "root frame is not a source")

/-- Continues the routing of the page a frame is sending. -/
def sendPage (rt : Runtime S Q Row) (env : Env Q) (depth : Nat) (frame : Frame)
    (nextConsumer : Nat) (after : Progress) : FlowM S Q Row AdvanceOutcome := do
  let w ← get
  let charged := stepBytes - (2 * controlBytes + 12)
  if nextConsumer = (rt.topology.consumers frame.head).length then
    match rt.finishFrame depth frame after ⟨⟨w.store, []⟩, ⟨1, charged⟩⟩ with
    | .error e _ => fail e
    | .ok _ s => do
      commit env s.state.store (.compute s.state.events)
      pure .progressed
  else do
    let encoded ← liftError (output w.store depth)
    if encoded.length > charged then fail .budgetExceeded
    else
      match rt.routePage depth frame nextConsumer after none encoded
          ⟨⟨w.store, []⟩, ⟨1, charged - encoded.length⟩⟩ with
      | .error e _ => fail e
      | .ok outcome s => do
        commit env s.state.store (.compute s.state.events)
        pure outcome

/-- One action on the top frame. -/
def advanceFrame (rt : Runtime S Q Row) (env : Env Q) (depth : Nat) (frame : Frame) :
    FlowM S Q Row AdvanceOutcome :=
  match frame.phase with
  | .run _ => do
    if depth = 0 then spend 64
    let w ← get
    let bytes ← liftError (rt.input w.store depth frame)
    spend bytes.length
    let input ← liftError (((rt.inputCodec frame).decode bytes).mapError codecError)
    rt.runFrame env depth frame input 8
  | .send nextConsumer after => do
    spend stepBytes
    rt.sendPage env depth frame nextConsumer after

/-- Starts the next published root, trying each source at most once. -/
def advanceNextRoot (rt : Runtime S Q Row) (env : Env Q) :
    (tries : Nat) → FlowM S Q Row AdvanceOutcome
  | 0 => pure .idle
  | tries + 1 => do
    let w ← get
    if w.remaining < rootBytes + 9 * stepBytes + controlBytes + 64 then pure .idle
    else do
      let index := rt.sources.getD w.rootCursor 0
      modify fun w => { w with rootCursor := (w.rootCursor + 1) % rt.sources.length }
      spend 64
      match ← liftError (published w.store index) with
      | none => advanceNextRoot rt env tries
      | some bytes => do
        spend bytes.length
        let frame : Frame :=
          { head := index, inputPort := none, phase := .run (rt.operation index).initialResume }
        let input ← liftError (((rt.inputCodec frame).decode bytes).mapError codecError)
        liftError (checkShape input 4096 65536)
        try
          rt.runFrame env 0 frame input 8
        catch halt => do
          let w ← get
          if ¬ w.needsReopen then
            -- The failed page has rolled back; pin only its identity.
            spend controlBytes
            match (putFrame 0 frame : TxnM S Q Row Unit) ⟨⟨w.store, []⟩, ⟨1, stepBytes⟩⟩ with
            | .error e _ => fail e
            | .ok _ s => commit env s.state.store (.pin 0 frame)
          throw halt

/-- Polls a source unless a delivery is still pending. -/
def pollSource (env : Env Q) (index : Nat) : FlowM S Q Row Unit := do
  if ((← get).pending index).isNone then
    let polled ← liftFenced env.poll
    modify fun w => { w with pending := Function.update w.pending index polled }

/-- Records a pending delivery and acknowledges it. -/
def recordDelivery (env : Env Q) (index : Nat) (delivery : Delivery) :
    FlowM S Q Row AdvanceOutcome := do
  if ← liftError env.record then
    let w ← get
    let queues := Function.update w.store.queues index (w.store.queues index ++ delivery.items)
    commit env { w.store with queues } (.capture index delivery.items)
    if delivery.requiresAckBarrier then sync env
    modify fun w => { w with pending := Function.update w.pending index none }
    liftFenced env.ack
    effect (.ack index)
    pure .progressed
  else pure .backpressured

/-- Captures one source delivery and acknowledges it. -/
def capture (env : Env Q) (index : Nat) : FlowM S Q Row AdvanceOutcome := do
  pollSource env index
  match (← get).pending index with
  | none => pure .idle
  | some delivery => recordDelivery env index delivery

/-- Persists a sink's initialization intent when it has none yet. -/
def initializeSink (env : Env Q) (index : Nat) : FlowM S Q Row Unit := do
  if ← liftFenced env.prepareInitialize then
    let outbox ← liftError env.persistInitialize
    let w ← get
    commit env { w.store with outboxes := Function.update w.store.outboxes index outbox }
      (.initialized index)

/-- Delivers one bounded prefix of a sink's outbox and settles it. -/
def drain (env : Env Q) (index : Nat) : FlowM S Q Row AdvanceOutcome := do
  if ← liftError env.load then
    initializeSink env index
    sync env
    effect (.deliver index)
    liftFenced env.deliver
    let outbox ← liftFenced env.settle
    let w ← get
    commit env { w.store with outboxes := Function.update w.store.outboxes index outbox }
      (.settle index)
    pure .progressed
  else pure .idle

/-- The worst case of the next stack action. -/
def allowance : Option (Nat × Frame) → Nat
  | some (_, frame) =>
    match frame.phase with
    | .run _ => rootBytes + 9 * stepBytes + 64
    | .send _ _ => stepBytes
  | none => rootBytes + 9 * stepBytes + controlBytes

/-- One stack action: on the top frame, or on the next published root. -/
def stackAction (rt : Runtime S Q Row) (env : Env Q) :
    Option (Nat × Frame) → FlowM S Q Row AdvanceOutcome
  | some (depth, frame) => rt.advanceFrame env depth frame
  | none => rt.advanceNextRoot env rt.sources.length

/-- At most `actions` stack actions, as far as the allowance admits them. -/
def stackActions (rt : Runtime S Q Row) (env : Env Q) :
    (actions : Nat) → AdvanceOutcome → FlowM S Q Row AdvanceOutcome
  | 0, outcome => pure outcome
  | actions + 1, outcome => do
    if (← get).remaining < controlBytes then pure outcome
    else do
      spend controlBytes
      let top := (← get).store.controls.last?
      if (← get).remaining < allowance top then pure outcome
      else do
        let action ← rt.stackAction env top
        let outcome := outcome.join action
        if action ≠ .progressed then pure outcome else stackActions rt env actions outcome

/-- One bounded scheduling round. -/
def round (rt : Runtime S Q Row) (env : Env Q) : FlowM S Q Row AdvanceOutcome := do
  let source := rt.sources.getD (← get).sourceCursor 0
  modify fun w => { w with sourceCursor := (w.sourceCursor + 1) % rt.sources.length }
  let captured ← capture env source
  modify fun w => { w with remaining := stackRoundBytes }
  let outcome ← rt.stackActions env stackActionLimit captured
  let sink := rt.sinks.getD (← get).sinkCursor 0
  modify fun w => { w with sinkCursor := (w.sinkCursor + 1) % rt.sinks.length }
  let drained ← drain env sink
  pure (outcome.join drained)

/-- One call of the public scheduling entry point. -/
def advance (rt : Runtime S Q Row) (env : Env Q) : FlowM S Q Row AdvanceOutcome := fun w =>
  if w.needsReopen then .error (.failed (.message "flow must be reopened")) w
  else
    match rt.round env { w with unsynced := false } with
    | .error .panicked w => .error .panicked { w with needsReopen := true }
    | .error (.failed e) w =>
      match sync env w with
      | .ok _ w => .error (.failed e) w
      | .error e w => .error e w
    | .ok outcome w =>
      match sync env w with
      | .ok _ w => .ok outcome w
      | .error e w => .error e w

end Runtime

/-- The runtime of a freshly opened flow over a durable store. -/
def World.opened (store : Store S Q) (log : List (Effect Row)) : World S Q Row :=
  { store, log, sourceCursor := 0, sinkCursor := 0, rootCursor := 0, pending := fun _ => none
    needsReopen := false, unsynced := false, remaining := 0 }

/-- The store a build publishes: no frames, no pages, nothing captured. -/
def Store.initial (states : Nat → S) (outboxes : Nat → Q) : Store S Q :=
  { controls := .empty, outputs := .empty, states, queues := fun _ => [], outboxes }

/-- The state a computation ends in, whether it succeeds or not. -/
def endState {ε σ α : Type} : EStateM.Result ε σ α → σ
  | .ok _ s => s
  | .error _ s => s

/-- Every state a run of rounds and reopens can be in. -/
inductive Reachable (rt : Runtime S Q Row) (states : Nat → S) (outboxes : Nat → Q) :
    World S Q Row → Prop
  | build : Reachable rt states outboxes (.opened (.initial states outboxes) [])
  | advance {w : World S Q Row} (env : Env Q) : Reachable rt states outboxes w →
      Reachable rt states outboxes (endState (rt.advance env w))
  | reopen {w : World S Q Row} : Reachable rt states outboxes w →
      Reachable rt states outboxes (.opened w.store w.log)

end Dogpaddle.Flow
