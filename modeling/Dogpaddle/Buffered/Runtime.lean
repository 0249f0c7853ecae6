import Dogpaddle.Buffered.Batch

/-!
# The buffered sink

An outbox between the flow and a target: `tryEnqueue` appends a change in the caller's
transaction, `load` cuts the next delivery from a snapshot, and `settle` removes it in a
later transaction, which may see more entries than the load did.

* `Outbox`: the durable part, a control cell and a map of entries.
* `Memory`: what one runtime keeps, a cached head entry and whether it validated.
* `step`: one call, committed or rolled back, and reopening.

Two histories record what was accepted and what was settled, event by event with the
numbers each side gave it. No function reads them.
-/

namespace Dogpaddle.Buffered

open Lib

variable {Row : Type}

/-- A bound sink: the codec of its schema, whether a change has it, and what the target
charges for one unit of a row. -/
structure BufferedSink (Row : Type) where
  codec : SchemaBoundChangeCodec Row
  bound : Change Row → Bool
  eventBytes : Change Row → Nat → Except OperationError Nat

structure Outbox where
  control : Option Bytes := none
  buffer : OrdMap Nat Bytes := .empty

structure Memory (Row : Type) where
  headCache : Option (EntryCache Row) := none
  recovered : Bool := false

/-- What a load found to do. -/
inductive SinkPending (Row : Type)
  | initialization (fresh : Bool)
  | loaded (before : BufferState) (batch : LoadedBatch Row)

/-! ## Validation -/

def validateCapacity (buffer : BufferState) : Except OperationError Unit :=
  if buffer.pendingEvents > maxBufferedEvents ∨ buffer.retainedBytes > maxRetainedBytes then
    .error (invalid "buffer control state exceeds its capacity")
  else .ok ()

namespace BufferedSink

variable (sink : BufferedSink Row)

/-- Every unit of every row has a charge the target accepts. -/
def validateEventSizes (change : Change Row) : Except OperationError Unit :=
  (List.range change.numRows).forM fun row => do
    let bytes ← sink.eventBytes change row
    if bytes = 0 then .error (invalid "target event byte charge must be nonzero")
    else if bytes > maxTargetBatchBytes then
      .error (invalid "one target mutation exceeds the target batch byte limit")
    else .ok ()

/-- No entry has a key in the range. -/
def requireEmptyRange (range : Nat → Bool) (buffer : OrdMap Nat Bytes) :
    Except OperationError Unit :=
  if buffer.entries.any fun entry => range entry.1 then
    .error (invalid "buffer contains an entry outside its control-state range")
  else .ok ()

def requireEmptyBuffer (buffer : OrdMap Nat Bytes) : Except OperationError Unit :=
  requireEmptyRange (fun _ => true) buffer

/-- One entry of the scan: where the next one starts, and the bytes so far. -/
def validateEntry (state : BufferState) (scanned : Nat × Nat) (entry : Nat × Bytes) :
    Except OperationError (Nat × Nat) := do
  let (expectedStart, retainedBytes) := scanned
  let (entryStart, encoded) := entry
  if entryStart ≠ expectedStart then
    .error (invalid s!"buffer entry {expectedStart} is missing")
  else do
    let itemBytes ← encodedItemBytes encoded
    let change ← decodeEntry sink.codec entryStart encoded maxDeliveryBytes
    sink.validateEventSizes change
    let stop ← entryEnd change entryStart
    if stop - entryStart > maxBufferedEvents then
      .error (invalid "buffer entry exceeds the buffered-event capacity")
    else if stop > state.tail ∨
        (entryStart = state.head.entryStart ∧ state.head.eventOffset ≥ stop) then
      .error (invalid "buffer head or entry span does not match its Change")
    else
      match checkedAdd retainedBytes itemBytes with
      | none => .error (invalid "buffer retained-byte count exceeds u64")
      | some retainedBytes =>
        if retainedBytes > state.retainedBytes then
          .error (invalid "buffer contents exceed their control-state accounting")
        else .ok (stop, retainedBytes)

/-- The scan reads every entry of the range in order, however its pages fall. -/
def validateBuffer (state : BufferState) (buffer : OrdMap Nat Bytes) :
    Except OperationError Unit :=
  if state.isEmpty then requireEmptyBuffer buffer
  else do
    requireEmptyRange (fun key => key < state.head.entryStart) buffer
    requireEmptyRange (fun key => state.tail ≤ key) buffer
    let (expectedStart, retainedBytes) ←
      buffer.entries.foldlM (sink.validateEntry state) (state.head.entryStart, 0)
    if expectedStart ≠ state.tail then
      .error (invalid s!"buffer entry {expectedStart} is missing")
    else if retainedBytes ≠ state.retainedBytes then
      .error (invalid "buffer contents do not match their control-state accounting")
    else .ok ()

/-- What a control state is checked for. A runtime that has not validated its buffer does. -/
def checkRestored (buffer : OrdMap Nat Bytes) (recovered : Bool) :
    State → Except OperationError Unit
  | .initializing => requireEmptyBuffer buffer
  | .ready ready => do
    validateCapacity ready
    if recovered then .ok () else sink.validateBuffer ready buffer

/-- Reads the control cell. -/
def decodeRestored (outbox : Outbox) (recovered : Bool) :
    Except OperationError (Option State) :=
  match outbox.control with
  | none => do
    requireEmptyBuffer outbox.buffer
    pure none
  | some encoded => do
    let state ← decode encoded
    sink.checkRestored outbox.buffer recovered state
    pure (some state)

/-! ## Enqueueing -/

structure Admission where
  encodedChange : Bytes
  itemBytes : Nat
  events : Nat

def prepareAdmission (input : Change Row) (events : Nat) : Except OperationError Admission := do
  if events = 0 then .error (invalid "Change contains no events")
  else if events > maxBufferedEvents then
    .error (invalid "Change exceeds the buffered-event capacity")
  else do
    sink.validateEventSizes input
    let encodedChange ← (sink.codec.encodeBounded input maxDeliveryBytes).mapError codecFailure
    let itemBytes ← encodedItemBytes encodedChange
    if itemBytes > maxDeliveryBytes then
      .error (invalid "encoded Change exceeds the single-item byte capacity")
    else .ok ⟨encodedChange, itemBytes, events⟩

def fits (ready : BufferState) (admission : Admission) : Bool :=
  match checkedAdd ready.pendingEvents admission.events with
  | none => false
  | some pendingEvents =>
    (checkedAdd ready.retainedBytes admission.itemBytes).any (· ≤ maxRetainedBytes) &&
      decide (pendingEvents ≤ maxBufferedEvents)

/-- Appends a change of `events` events to a ready outbox; `none` has no room. -/
def enqueueReady (outbox : Outbox) (ready : BufferState) (page : Change Row) :
    Except OperationError (Option Outbox) := do
  validateCapacity ready
  let events ← eventCount page
  match checkedAdd ready.tail events with
  | none => .error (invalid "buffer event offset is exhausted")
  | some tail => do
    let admission ← sink.prepareAdmission page events
    if !fits ready admission then pure none
    else do
      let next : BufferState := ⟨ready.head, tail, ready.retainedBytes + admission.itemBytes⟩
      next.validate
      if (outbox.buffer.get? ready.tail).isSome then
        .error (invalid "outbox entry_start already exists")
      else pure (some
        { control := some (State.ready next).encode
          buffer := outbox.buffer.put ready.tail admission.encodedChange })

/-- The outbox after a change was appended; `none` is a refusal without writes. -/
def tryEnqueue (outbox : Outbox) (page : Change Row) : Except OperationError (Option Outbox) :=
  if !sink.bound page then .error (invalid "input Schema differs from the bound Schema")
  else
    match outbox.control with
    | none => .ok none
    | some encoded =>
      match decode encoded with
      | .error error => .error error
      | .ok .initializing => .ok none
      | .ok (.ready ready) => sink.enqueueReady outbox ready page

/-! ## Delivering -/

/-- The next thing to do, with the memory the call leaves. -/
def load (outbox : Outbox) (memory : Memory Row) (limits : LoadLimits) :
    Except OperationError (Option (SinkPending Row)) × Memory Row :=
  match sink.decodeRestored outbox memory.recovered with
  | .error error => (.error error, memory)
  | .ok none => (.ok (some (.initialization true)), { memory with recovered := true })
  | .ok (some .initializing) =>
    (.ok (some (.initialization false)), { memory with recovered := true })
  | .ok (some (.ready ready)) =>
    if ready.isEmpty then (.ok none, { memory with recovered := true })
    else
      match Buffered.load sink.codec sink.eventBytes outbox.buffer ready limits memory.headCache with
      | (.ok batch, headCache) => (.ok (some (.loaded ready batch)), ⟨headCache, true⟩)
      | (.error error, headCache) => (.error error, ⟨headCache, true⟩)

/-- The outbox with the intent to initialize its target. -/
def persistInitialize (outbox : Outbox) : SinkPending Row → Except OperationError Outbox
  | .initialization true =>
    match outbox.control with
    | none => .ok { outbox with control := some State.initializing.encode }
    | some encoded =>
      match decode encoded with
      | .error error => .error error
      | .ok .initializing => .ok outbox
      | .ok (.ready _) => .error (invalid "outbox front changed during initialization")
  | _ => .error (invalid "only fresh initialization requires persistence")

/-- Removes the consumed entries. -/
def removeConsumed : List Nat → OrdMap Nat Bytes → Except OperationError (OrdMap Nat Bytes)
  | [], buffer => .ok buffer
  | key :: keys, buffer =>
    if (buffer.get? key).isSome then removeConsumed keys (buffer.erase key)
    else .error (invalid "settled outbox entry is missing")

/-- Settles a loaded batch against the control state as it is now. -/
def settleLoaded (outbox : Outbox) (current before : BufferState) (batch : LoadedBatch Row) :
    Except OperationError (BufferState × OrdMap Nat Bytes) := do
  validateCapacity current
  if current.head ≠ before.head ∨ current.tail < before.tail ∨
      current.retainedBytes < before.retainedBytes then
    .error (invalid "outbox front changed during settlement")
  else if before.retainedBytes < batch.after.retainedBytes then
    .error (invalid "settlement retained-byte count underflow")
  else
    let consumedBytes := before.retainedBytes - batch.after.retainedBytes
    if current.retainedBytes < consumedBytes then
      .error (invalid "settlement retained-byte count underflow")
    else do
      let next : BufferState :=
        ⟨batch.after.head, current.tail, current.retainedBytes - consumedBytes⟩
      next.validate
      let buffer ← removeConsumed batch.consumedKeys outbox.buffer
      pure (next, buffer)

/-- The control state and the entries a settlement leaves. -/
def settleReady (outbox : Outbox) (pending : SinkPending Row) :
    Except OperationError (BufferState × OrdMap Nat Bytes) :=
  match outbox.control with
  | none => .error (invalid "outbox control is missing during settlement")
  | some encoded =>
    match decode encoded, pending with
    | .error error, _ => .error error
    | .ok .initializing, .initialization _ => .ok (.empty, outbox.buffer)
    | .ok (.ready current), .loaded before batch => settleLoaded outbox current before batch
    | _, _ => .error (invalid "outbox front differs during settlement")

/-- Forgets a cached entry that is not the head any more. -/
def refreshCache (ready : BufferState) (memory : Memory Row) : Memory Row :=
  { memory with headCache := memory.headCache.filter fun cached =>
      !(cached.entryStart ≠ ready.head.entryStart || ready.isEmpty) }

def settle (outbox : Outbox) (memory : Memory Row) (pending : SinkPending Row) :
    Except OperationError (Outbox × Memory Row) := do
  let (ready, buffer) ← settleReady outbox pending
  pure ({ control := some (State.ready ready).encode, buffer }, refreshCache ready memory)

end BufferedSink

/-! ## Runs -/

/-- The units of a list of weighted rows: each row as often as its difference says, with
its sign. -/
def units (events : List (Row × Int)) : List (Row × Bool) :=
  events.flatMap fun event => List.replicate event.2.natAbs (event.1, decide (0 < event.2))

/-- Units with their absolute event numbers. -/
def numbered (start : Nat) (events : List (Row × Int)) : List ((Row × Bool) × Nat) :=
  (units events).zipIdx start

structure System (Row : Type) where
  outbox : Outbox := {}
  memory : Memory Row := {}
  /-- The loads of this runtime. -/
  loads : List (SinkPending Row) := []
  /-- What was accepted, as `tryEnqueue` numbers it. -/
  accepted : List ((Row × Bool) × Nat) := []
  /-- What was settled, as the delivered batches number it. -/
  settled : List ((Row × Bool) × Nat) := []

inductive Action (Row : Type)
  | enqueue (page : Change Row) (committed : Bool)
  | load (limits : LoadLimits)
  | persistInitialize (index : Nat) (committed : Bool)
  | settle (index : Nat) (committed : Bool)
  | reopen

namespace System

variable (sink : BufferedSink Row)

/-- The number of the next event of a ready outbox. -/
def nextEvent (outbox : Outbox) : Nat :=
  match outbox.control.map decode with
  | some (.ok (.ready ready)) => ready.tail
  | _ => 1

def enqueue (s : System Row) (page : Change Row) : System Row :=
  match sink.tryEnqueue s.outbox page with
  | .ok (some outbox) =>
    { s with outbox, accepted := s.accepted ++ numbered (nextEvent s.outbox) page.events }
  | _ => s

def load (s : System Row) (limits : LoadLimits) : System Row :=
  match sink.load s.outbox s.memory limits with
  | (.ok (some pending), memory) => { s with memory, loads := s.loads ++ [pending] }
  | (_, memory) => { s with memory }

/-- The events a settlement reports. -/
def delivered : SinkPending Row → List ((Row × Bool) × Nat)
  | .initialization _ => []
  | .loaded _ batch => numbered batch.delivery.firstEventOffset batch.delivery.change.events

/-- A settlement changes the runtime's memory even when its transaction is rolled back. -/
def settle (s : System Row) (pending : SinkPending Row) (committed : Bool) : System Row :=
  match BufferedSink.settle s.outbox s.memory pending with
  | .error _ => s
  | .ok (outbox, memory) =>
    if committed then
      { s with outbox, memory, settled := s.settled ++ delivered pending }
    else { s with memory }

/-- One call. A call that fails, or is rolled back, leaves the outbox as it was. -/
def step (s : System Row) : Action Row → System Row
  | .enqueue page committed => if committed then s.enqueue sink page else s
  | .load limits => s.load sink limits
  | .persistInitialize index committed =>
    match s.loads[index]? with
    | none => s
    | some pending =>
      match BufferedSink.persistInitialize s.outbox pending with
      | .ok outbox => if committed then { s with outbox } else s
      | .error _ => s
  | .settle index committed =>
    match s.loads[index]? with
    | none => s
    | some pending => s.settle pending committed
  | .reopen => { s with memory := {}, loads := [] }

/-- Every state of every run, from a fresh outbox on. -/
inductive Reachable : System Row → Prop
  | fresh : Reachable {}
  | step {s : System Row} (action : Action Row) : Reachable s → Reachable (s.step sink action)

end System

end Dogpaddle.Buffered
