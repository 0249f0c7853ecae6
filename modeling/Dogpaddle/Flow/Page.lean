import Dogpaddle.Flow.Topology
import Dogpaddle.Flow.Frame

/-!
# One computed page and its routing

What one transaction does to the durable call stack: compute a page of the top
frame with its fused tails, offer it to the consumers of the head, and return
or continue the frame when every consumer has it.

A transaction also collects the events it will publish (`Event`); they are a
ghost record used to state what has been computed and delivered, and no
function reads them.
-/

namespace Dogpaddle.Flow

open Dogpaddle Lib

variable {S Q Row : Type}

/-- A bound flow: its nodes passed admission and resolved to `topology`. -/
structure Runtime (S Q Row : Type) where
  nodes : List (RuntimeNode S Q Row)
  topology : ResolvedTopology
  validated : validateDefinition nodes = .ok ()
  producers : checkProducers nodes = .ok ()
  resolved : resolve nodes = .ok topology

namespace Runtime

/-- The operation at an ordinal; ordinals beyond the graph never occur. -/
def operation (rt : Runtime S Q Row) (index : Nat) : Operation S Q Row :=
  match rt.nodes[index]? with
  | some node => node.operation
  | none => .source

/-- The codec at an ordinal. -/
def codec (rt : Runtime S Q Row) (index : Nat) : SchemaBoundChangeCodec Row :=
  match rt.nodes[index]? with
  | some node => node.codec
  | none =>
    { encodeBounded := fun _ _ => .error (.invalid "no schema")
      decode := fun _ => .error (.invalid "no schema")
      decode_encode := nofun
      length_encode := nofun }

/-- The node that feeds one port of a consumer. -/
def producer (rt : Runtime S Q Row) (index port : Nat) : Nat :=
  match rt.nodes[index]? with
  | some node => node.inputs.getD port index
  | none => index

/-- The codec of a frame's input: the source's own, or the feeding producer's. -/
def inputCodec (rt : Runtime S Q Row) (frame : Frame) : SchemaBoundChangeCodec Row :=
  match frame.inputPort with
  | none => rt.codec frame.head
  | some port => rt.codec (rt.producer frame.head port)

/-- The codec of a head's pages: the last node of its fused chain. -/
def outputCodec (rt : Runtime S Q Row) (head : Nat) : SchemaBoundChangeCodec Row :=
  rt.codec (chainEnd rt.topology.tails head)

def sources (rt : Runtime S Q Row) : List Nat :=
  (List.range rt.nodes.length).filter fun i => (rt.operation i).isSource

def sinks (rt : Runtime S Q Row) : List Nat :=
  (List.range rt.nodes.length).filter fun i => (rt.operation i).isSink

end Runtime

/-- The durable state: the two frame maps, each operation's private state, each
source's published queue and each sink's outbox. -/
structure Store (S Q : Type) where
  controls : OrdMap Nat Frame
  outputs : OrdMap Nat Bytes
  states : Nat → S
  queues : Nat → List Bytes
  outboxes : Nat → Q

/-- What a committed transaction did, in order. -/
inductive Event (Row : Type)
  | step (head : Nat) (port : Option Nat) (input : Change Row) (resume : Resume)
      (output : Option (Change Row)) (progress : Progress)
  | tail (node : Nat) (input : Change Row) (output : Option (Change Row))
  | enqueue (sink port : Nat) (page : Change Row)
  | finish (head : Nat) (port : Option Nat)
  | consume (source : Nat) (item : Bytes)

/-- A write transaction: the store it would publish and its events. -/
structure Txn (S Q Row : Type) where
  store : Store S Q
  events : List (Event Row)

abbrev TxnM (S Q Row α : Type) := Attempt OperationError (Txn S Q Row) α

/-- Aggregate outcome of one bounded scheduling round. -/
inductive AdvanceOutcome
  | idle
  | backpressured
  | progressed
deriving DecidableEq, Repr

def AdvanceOutcome.join : AdvanceOutcome → AdvanceOutcome → AdvanceOutcome
  | .progressed, _ | _, .progressed => .progressed
  | .backpressured, _ | _, .backpressured => .backpressured
  | .idle, .idle => .idle

/-- Records an event. -/
def emit (e : Event Row) : TxnM S Q Row Unit :=
  modify fun s => { s with state := { s.state with events := s.state.events ++ [e] } }

/-- Rewrites the transaction's view of the store. -/
def write (f : Store S Q → Store S Q) : TxnM S Q Row Unit :=
  modify fun s => { s with state := { s.state with store := f s.state.store } }

/-- Runs an operation's attempt on its private state. -/
def onNode {α : Type} (index : Nat) (x : Attempt OperationError S α) : TxnM S Q Row α := fun s =>
  match x ⟨s.state.store.states index, s.budget⟩ with
  | .ok a t =>
    let states := Function.update s.state.store.states index t.state
    .ok a { state := { s.state with store := { s.state.store with states } }, budget := t.budget }
  | .error e t => .error e { s with budget := t.budget }

def codecError : CodecError → OperationError
  | .encodedSizeLimitExceeded _ => .message "encoded Change exceeds its size limit"
  | .invalid reason => .message reason

/-- Stores one frame control. -/
def putFrame (depth : Nat) (frame : Frame) : TxnM S Q Row Unit := do
  let _ ← MonadExcept.ofExcept (frame.encodeValue.mapError codecError)
  write fun store => { store with controls := store.controls.put depth frame }

/-- Removes a frame's control and output page. -/
def popFrame (depth : Nat) : TxnM S Q Row Unit :=
  write fun store =>
    { store with
      controls := store.controls.erase depth
      outputs := store.outputs.erase depth }

/-- Page shape admission: at most `maxRows` rows and `maxSlots` scalar slots. -/
def checkShape (change : Change Row) (maxRows maxSlots : Nat) : Except OperationError Unit :=
  if change.numRows > maxRows ∨ change.numRows * change.numColumns > maxSlots then
    .error .budgetExceeded
  else .ok ()

/-- Removes a source's published front. -/
def consumePublished (source : Nat) : TxnM S Q Row Unit := do
  match (← get).state.store.queues source with
  | [] => pure ()
  | item :: rest =>
    write fun store => { store with queues := Function.update store.queues source rest }
    emit (.consume source item)

/-- Appends a page to a sink's outbox unless it has no room. -/
def tryEnqueue (sink : SinkOperation Q Row) (consumer : Consumer) (page : Change Row) :
    TxnM S Q Row Bool := do
  let outbox := (← get).state.store.outboxes consumer.operation
  match ← MonadExcept.ofExcept (sink.tryEnqueue page outbox) with
  | none => pure false
  | some outbox =>
    write fun store =>
      { store with outboxes := Function.update store.outboxes consumer.operation outbox }
    emit (.enqueue consumer.operation consumer.port page)
    pure true

namespace Runtime

/-- Applies the fused tails in order, stopping when a page becomes empty. -/
def runTails (rt : Runtime S Q Row) :
    List Nat → Option (Change Row) → TxnM S Q Row (Option (Change Row))
  | [], output => pure output
  | _ :: _, none => pure none
  | tail :: rest, some change =>
    match rt.operation tail with
    | .atomic operation => do
      let output ← onNode tail (operation.apply 0 change)
      emit (.tail tail change output)
      runTails rt rest output
    | _ => throw (.message "validated atomic tail")

/-- Returns a frame whose page has reached every consumer, or moves it to its
next position. -/
def finishFrame (rt : Runtime S Q Row) (depth : Nat) (frame : Frame) (after : Progress) :
    TxnM S Q Row Unit :=
  match after with
  | .done => do
    emit (.finish frame.head frame.inputPort)
    if depth = 0 then
      match rt.operation frame.head with
      | .source => consumePublished frame.head
      | _ => throw (.message "root source role")
    popFrame depth
  | .more resume => do
    write fun store => { store with outputs := store.outputs.erase depth }
    putFrame depth { frame with phase := .run resume }

/-- How the routing loop over the remaining consumers ended. -/
inductive Routed
  | exhausted
  | stopped (nextConsumer : Nat) (blocked : Bool)
  | child (nextConsumer : Nat) (frame : Frame)

/-- The page to enqueue; a page read back from the store is decoded once. -/
def decodedPage (rt : Runtime S Q Row) (head : Nat) (encoded : Bytes) :
    Option (Change Row) → TxnM S Q Row (Change Row)
  | some page => pure page
  | none => MonadExcept.ofExcept (((rt.outputCodec head).decode encoded).mapError codecError)

/-- Offers a page to the remaining consumers, up to the first computation. -/
def routeLoop (rt : Runtime S Q Row) (head : Nat) (encoded : Bytes) :
    List Consumer → (nextConsumer : Nat) → (output : Option (Change Row)) → TxnM S Q Row Routed
  | [], _, _ => pure .exhausted
  | consumer :: rest, nextConsumer, output =>
    match rt.operation consumer.operation with
    | .sink sink => do
      let bytes := encoded.length * 2 + 128
      if bytes > (← get).budget.remainingBytes then
        pure (.stopped nextConsumer false)
      else
        StepBudget.charge bytes
        let page ← rt.decodedPage head encoded output
        if ← tryEnqueue sink consumer page then
          routeLoop rt head encoded rest (nextConsumer + 1) (some page)
        else pure (.stopped nextConsumer true)
    | operation =>
      pure (.child (nextConsumer + 1)
        { head := consumer.operation
          inputPort := some consumer.port
          phase := .run operation.initialResume })

/-- Persists a page that was computed in this transaction. -/
def storeFresh (fresh : Bool) (depth : Nat) (encoded : Bytes) : TxnM S Q Row Unit :=
  if fresh then write fun store => { store with outputs := store.outputs.put depth encoded }
  else pure ()

/-- Routes a page from `nextConsumer` on. A fresh page is persisted unless it
reaches every consumer at once. -/
def routePage (rt : Runtime S Q Row) (depth : Nat) (frame : Frame) (nextConsumer : Nat)
    (after : Progress) (output : Option (Change Row)) (encoded : Bytes) :
    TxnM S Q Row AdvanceOutcome := do
  let fresh := output.isSome
  let remaining := (rt.topology.consumers frame.head).drop nextConsumer
  match ← rt.routeLoop frame.head encoded remaining nextConsumer output with
  | .exhausted =>
    rt.finishFrame depth frame after
    pure .progressed
  | .stopped next blocked =>
    storeFresh fresh depth encoded
    if fresh ∨ next ≠ nextConsumer then
      putFrame depth { frame with phase := .send next after }
      pure .progressed
    else pure (if blocked then .backpressured else .idle)
  | .child next child =>
    storeFresh fresh depth encoded
    putFrame depth { frame with phase := .send next after }
    putFrame (depth + 1) child
    pure .progressed

/-- Encodes a page within the page limit and the remaining allowance. -/
def encodePage (rt : Runtime S Q Row) (head : Nat) (output : Change Row) :
    TxnM S Q Row Bytes := do
  let limit := min pageBytes (← get).budget.remainingBytes
  match (rt.outputCodec head).encodeBounded output limit with
  | .ok encoded => pure encoded
  | .error (.encodedSizeLimitExceeded _) =>
    StepBudget.charge limit
    throw .budgetExceeded
  | .error error => throw (codecError error)

/-- Computes one page of a running frame with all its tails, and routes it. -/
def runPage (rt : Runtime S Q Row) (depth : Nat) (frame : Frame) (input : Change Row) :
    TxnM S Q Row AdvanceOutcome :=
  match frame.phase with
  | .send _ _ => throw (.message "running frame")
  | .run resume => do
    StepBudget.charge controlBytes
    let step ← onNode frame.head
      ((rt.operation frame.head).step (frame.inputPort.getD 0) input resume)
    if step.progress = .more resume then
      throw (.message "computation returned an unchanged position")
    emit (.step frame.head frame.inputPort input resume step.output step.progress)
    let output ← rt.runTails (rt.topology.tails frame.head) step.output
    match output with
    | some output =>
      MonadExcept.ofExcept (checkShape output 256 16384)
      let encoded ← rt.encodePage frame.head output
      StepBudget.charge encoded.length
      StepBudget.charge (encoded.length + (2 * controlBytes + 12))
      rt.routePage depth frame 0 step.progress (some output) encoded
    | none =>
      StepBudget.charge (2 * controlBytes + 12)
      rt.finishFrame depth frame step.progress
      pure .progressed

end Runtime

end Dogpaddle.Flow
