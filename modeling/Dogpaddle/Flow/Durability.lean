import Dogpaddle.Flow.Advance

/-!
# The durability of a round

`Flow::advance` again, seen from its durability batch. What a transaction stages is not
looked at here, only whether it writes, and every call into a source, the store or a
target may return, fail or panic as it likes:

* `Answer`, `Env`: how each call comes back, by the number of calls made before it;
* `Event`: what the outside world can tell, in the order it happened;
* `Session`: the volatile state of one runtime between its opening and its end;
* `advance`: one round with its barriers, from `poll` to the final `finish`.

The bytes of a page and the errors' texts decide nothing about durability and are left to
`Flow.Advance`. RocksDB's own calls return with or without an error; they do not panic.
-/

namespace Dogpaddle.Flow.Durability

open Lib

/-! ## The outside -/

/-- How a call comes back. -/
inductive Answer (α : Type)
  | returns (value : α)
  | fails (error : OperationError)
  | panics

/-- What a source hands over. -/
inductive DeliveryKind
  | beginCapture
  | reset
  | cdc (checkpoint : Bytes) (encoded : Option Bytes) (snapshotSealed streaming : Bool)
  | sequence (next : Nat) (encoded : Bytes)
deriving DecidableEq

/-- A polled delivery, told apart from any other by the call that returned it. -/
structure SourceDelivery where
  kind : DeliveryKind
  serial : Nat
deriving DecidableEq

/-- Only a connector's delivery is acknowledged to the outside. -/
def SourceDelivery.requiresAckBarrier (delivery : SourceDelivery) : Bool :=
  match delivery.kind with
  | .cdc .. => true
  | _ => false

/-- What a transaction is for. -/
inductive Work
  | capture (source : Nat) (delivery : SourceDelivery)
  | page
  | pin
  | initialization (sink : Nat)
  | settle (sink : Nat)
deriving DecidableEq

/-- The steps whose failure leaves the runtime uncertain. -/
inductive Step
  | poll
  | commit (wrote : Bool)
  | sync
  | ack
  | prepareInitialize
  | deliver
  | settle
deriving DecidableEq

inductive Event
  /-- A commit took effect, with or without writes. -/
  | committed (work : Work) (wrote : Bool)
  /-- The WAL was written out and synchronized. -/
  | synced
  /-- A delivery is acknowledged to its source. -/
  | acked (source : Nat) (delivery : SourceDelivery)
  /-- A delivery to a target starts. -/
  | delivering (sink : Nat)
  | failed (step : Step)
  /-- A round panicked. -/
  | panicked
deriving DecidableEq

/-- The top of the call stack, as far as it decides what a stack action costs. -/
inductive Top
  | running (root : Bool)
  | sending

/-- One try at a page, with the bytes it spent. -/
inductive Page
  | done (outcome : AdvanceOutcome) (wrote : Bool) (spent : Nat)
  | failed (error : OperationError) (spent : Nat)
  | panics

/-- The outside of one round. Each call is answered by the number of calls before it. -/
structure Env where
  poll : Nat → Answer (Option DeliveryKind)
  record : Nat → Answer Bool
  ack : Nat → Answer Unit
  top : Nat → Answer (Option Top)
  /-- The length of a running frame's input. -/
  input : Nat → Answer Nat
  page : Nat → Page
  /-- Staging the rest of a page, and whether it wrote. -/
  send : Nat → Answer (AdvanceOutcome × Bool)
  /-- The length of a source's front, if it has one. -/
  published : Nat → Answer (Option Nat)
  decode : Nat → Answer Unit
  pin : Nat → Answer Unit
  load : Nat → Answer Bool
  prepareInitialize : Nat → Answer Bool
  persistInitialize : Nat → Answer Bool
  deliver : Nat → Answer Unit
  settle : Nat → Answer Bool
  commit : Nat → Except OperationError Unit
  sync : Nat → Except OperationError Unit

/-! ## The runtime -/

/-- One runtime, from its opening on. -/
structure Session where
  /-- What happened, the newest first. -/
  trace : List Event := []
  /-- How many calls into sources, store and targets were made. -/
  calls : Nat := 0
  needsReopen : Bool := false
  pending : Nat → Option SourceDelivery := fun _ => none
  sourceCursor : Nat := 0
  sinkCursor : Nat := 0
  rootCursor : Nat := 0
  /-- `DurabilityBatch::pending`. -/
  batchPending : Bool := false
  remaining : Nat := 0

/-- The sources and sinks of a topology. -/
structure Roles where
  sources : List Nat
  sinks : List Nat

abbrev RoundM (α : Type) := EStateM Halt Session α

def observe (event : Event) : RoundM Unit := modify fun s => { s with trace := event :: s.trace }

/-- A call whose failure the round passes on. -/
def call {α : Type} (answer : Nat → Answer α) : RoundM α := do
  let s ← get
  set { s with calls := s.calls + 1 }
  match answer s.calls with
  | .returns value => pure value
  | .fails error => throw (.failed error)
  | .panics => throw .panicked

/-- A failure that leaves the runtime uncertain. -/
def fence {α : Type} (step : Step) (error : OperationError) : RoundM α := do
  modify fun s => { s with trace := .failed step :: s.trace, needsReopen := true }
  throw (.failed error)

/-- A call whose failure leaves the runtime uncertain. -/
def callFenced {α : Type} (step : Step) (answer : Nat → Answer α) : RoundM α := do
  let s ← get
  set { s with calls := s.calls + 1 }
  match answer s.calls with
  | .returns value => pure value
  | .fails error => fence step error
  | .panics => throw .panicked

/-- A write commit joins the batch's next barrier before it is attempted. -/
def commit (env : Env) (work : Work) (wrote : Bool) : RoundM Unit := do
  let s ← get
  set { s with calls := s.calls + 1, batchPending := s.batchPending || wrote }
  match env.commit s.calls with
  | .ok _ => observe (.committed work wrote)
  | .error error => fence (.commit wrote) error

/-- The barrier. A batch without pending writes does not enter RocksDB. -/
def sync (env : Env) : RoundM Unit := do
  let s ← get
  if s.batchPending then do
    set { s with calls := s.calls + 1 }
    match env.sync s.calls with
    | .ok _ => modify fun s => { s with trace := .synced :: s.trace, batchPending := false }
    | .error error => fence .sync error

/-- Spends stack allowance. -/
def spend (bytes : Nat) : RoundM Unit := do
  let s ← get
  if bytes ≤ s.remaining then set { s with remaining := s.remaining - bytes }
  else throw .panicked

/-! ## The round -/

/-- Takes a new delivery unless one is pending. -/
def poll (env : Env) (source : Nat) : RoundM Unit := do
  let s ← get
  if (s.pending source).isNone then
    let polled ← callFenced .poll env.poll
    let delivery := polled.map fun kind => ⟨kind, s.calls⟩
    modify fun s => { s with pending := Function.update s.pending source delivery }

/-- Only an acknowledgement to the outside forces durability. -/
def ackBarrier (env : Env) (delivery : SourceDelivery) : RoundM Unit :=
  if delivery.requiresAckBarrier then sync env else pure ()

/-- Records a delivery and completes it. A record that is accepted has written: its
checkpoint, its position or its phase. -/
def recordDelivery (env : Env) (source : Nat) (delivery : SourceDelivery) :
    RoundM AdvanceOutcome := do
  if ← call env.record then
    commit env (.capture source delivery) true
    ackBarrier env delivery
    modify fun s => { s with pending := Function.update s.pending source none }
    observe (.acked source delivery)
    callFenced .ack env.ack
    pure .progressed
  else pure .backpressured

def capture (env : Env) (source : Nat) : RoundM AdvanceOutcome := do
  poll env source
  match (← get).pending source with
  | none => pure .idle
  | some delivery => recordDelivery env source delivery

/-- One try at a page. Its transaction is committed on success and dropped on failure. -/
def attemptPage (env : Env) (retry : OperationError → RoundM AdvanceOutcome) :
    RoundM AdvanceOutcome := do
  let s ← get
  set { s with calls := s.calls + 1 }
  match env.page s.calls with
  | .done outcome wrote spent => do
    spend spent
    commit env .page wrote
    pure outcome
  | .failed error spent => do
    spend spent
    retry error
  | .panics => throw .panicked

/-- The tries at a page with `2 ^ exponent` head items and less. -/
def runFrame (env : Env) : (exponent : Nat) → RoundM AdvanceOutcome
  | 0 => attemptPage env fun error => throw (.failed error)
  | exponent + 1 => attemptPage env fun error =>
      if isBudgetError error then runFrame env exponent else throw (.failed error)

def advanceFrame (env : Env) : Top → RoundM AdvanceOutcome
  | .running root => do
    spend (if root then 64 else 0)
    let length ← call env.input
    spend length
    call env.decode
    runFrame env 8
  | .sending => do
    spend stepBytes
    let (outcome, wrote) ← call env.send
    commit env .page wrote
    pure outcome

/-- A failed page has rolled back; pin the identity of its root. -/
def pinRoot (env : Env) : RoundM Unit := do
  if (← get).needsReopen then pure ()
  else do
    spend controlBytes
    call env.pin
    commit env .pin true

/-- The first page of a root. -/
def runRoot (env : Env) : RoundM AdvanceOutcome :=
  tryCatch (runFrame env 8) fun
    | .panicked => throw .panicked
    | .failed error => do
      pinRoot env
      throw (.failed error)

/-- Tries each source at most once. -/
def advanceNextRoot (roles : Roles) (env : Env) : (tries : Nat) → RoundM AdvanceOutcome
  | 0 => pure .idle
  | tries + 1 => do
    if (← get).remaining < rootBytes + 9 * stepBytes + controlBytes + 64 then pure .idle
    else do
      modify fun s => { s with rootCursor := (s.rootCursor + 1) % roles.sources.length }
      spend 64
      match ← call env.published with
      | none => advanceNextRoot roles env tries
      | some length => do
        spend length
        call env.decode
        runRoot env

/-- The worst case of the next stack action. -/
def allowance : Option Top → Nat
  | some (.running _) => rootBytes + 9 * stepBytes + 64
  | some .sending => stepBytes
  | none => rootBytes + 9 * stepBytes + controlBytes

def stackAction (roles : Roles) (env : Env) : Option Top → RoundM AdvanceOutcome
  | some top => advanceFrame env top
  | none => advanceNextRoot roles env roles.sources.length

def stackActions (roles : Roles) (env : Env) :
    (actions : Nat) → AdvanceOutcome → RoundM AdvanceOutcome
  | 0, outcome => pure outcome
  | actions + 1, outcome => do
    if (← get).remaining < controlBytes then pure outcome
    else do
      spend controlBytes
      let top ← call env.top
      if (← get).remaining < allowance top then pure outcome
      else do
        let action ← stackAction roles env top
        let outcome := outcome.join action
        if action ≠ .progressed then pure outcome else stackActions roles env actions outcome

/-- Persists the intent to initialize a target that needs it. -/
def initializeSink (env : Env) (sink : Nat) : RoundM Unit := do
  if ← callFenced .prepareInitialize env.prepareInitialize then
    let wrote ← call env.persistInitialize
    commit env (.initialization sink) wrote

/-- Makes everything durable, delivers, and settles the delivery. -/
def drain (env : Env) (sink : Nat) : RoundM AdvanceOutcome := do
  if ← call env.load then
    initializeSink env sink
    sync env
    observe (.delivering sink)
    callFenced .deliver env.deliver
    let wrote ← callFenced .settle env.settle
    commit env (.settle sink) wrote
    pure .progressed
  else pure .idle

def round (roles : Roles) (env : Env) : RoundM AdvanceOutcome := do
  let source := roles.sources.getD (← get).sourceCursor 0
  modify fun s => { s with sourceCursor := (s.sourceCursor + 1) % roles.sources.length }
  let captured ← capture env source
  modify fun s => { s with remaining := stackRoundBytes }
  let outcome ← stackActions roles env stackActionLimit captured
  let sink := roles.sinks.getD (← get).sinkCursor 0
  modify fun s => { s with sinkCursor := (s.sinkCursor + 1) % roles.sinks.length }
  let drained ← drain env sink
  pure (outcome.join drained)

/-- The end of a round: the final barrier, then what the round came to. -/
def finish {α : Type} (env : Env) (result : Except OperationError α) : RoundM α := do
  sync env
  MonadExcept.ofExcept (result.mapError Halt.failed)

/-- What `advance` makes of a round: a panic is passed on without the final barrier. -/
def conclude (env : Env) :
    EStateM.Result Halt Session AdvanceOutcome → EStateM.Result Halt Session AdvanceOutcome
  | .error .panicked s =>
    .error .panicked { s with trace := .panicked :: s.trace, needsReopen := true }
  | .error (.failed error) s => finish env (.error error) s
  | .ok outcome s => finish env (.ok outcome) s

/-- `Flow::advance`. -/
def advance (roles : Roles) (env : Env) : RoundM AdvanceOutcome := fun s =>
  if s.needsReopen then .error (.failed (.message "flow must be reopened")) s
  else conclude env (round roles env { s with batchPending := false })

/-- A runtime that was opened and advanced any number of times, whatever came back. -/
inductive Lived (roles : Roles) : Session → Prop
  | opened : Lived roles {}
  | advanced {s : Session} (env : Env) : Lived roles s →
      Lived roles (endState (advance roles env s))

end Dogpaddle.Flow.Durability
