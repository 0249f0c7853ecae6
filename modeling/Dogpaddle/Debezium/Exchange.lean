import Dogpaddle.Debezium.Checkpoint

/-!
# The bridge: offset store, exchange and engine thread

Three parties share two monitors. The engine thread runs `handleBatch`: it previews the
checkpoint of a batch, installs a delivery, waits for its decision, and on ACK lets
Debezium write the offsets. The host polls, acknowledges, stops and abandons. Debezium
writes its offset store whenever it likes.

* `Entry`, `DeliveryExchange`: the two monitors, one function per method.
* `Engine`: where the engine thread stands in `handleBatch`.
* `step`: one atomic step of any party, with what it lets others observe.

A method that throws leaves its monitor as it was. An action that only throws to its
caller, or that is not enabled, is no step.
-/

namespace Dogpaddle.Debezium.Java

open Lib

/-! ## The offset store -/

/-- A previewed commit. `id` is the identity of the object, which `disarm` compares. -/
structure PreparedCheckpoint where
  id : Nat
  delta : Delta
  checkpoint : Checkpoint
deriving DecidableEq

/-- `OffsetStoreRegistry.Entry`. -/
structure Entry where
  current : Checkpoint
  attached : Bool := false
  started : Bool := false
  expectedCommit : Option PreparedCheckpoint := none

namespace Entry

/-- The engine name, as the messages quote it. -/
def name (entry : Entry) : String := String.ofList entry.current.engineName.val

def attach (entry : Entry) : Except String Entry :=
  let engine := entry.name
  if entry.attached then .error s!"offset store is already attached to engine '{engine}'"
  else .ok { entry with attached := true }

def start (entry : Entry) : Except String Entry :=
  let engine := entry.name
  if !entry.attached || entry.started then
    .error s!"offset store cannot start in its current state for engine '{engine}'"
  else .ok { entry with started := true }

def stop (entry : Entry) : Entry := { entry with started := false }

def requireStarted (entry : Entry) : Except String Unit :=
  let engine := entry.name
  if entry.started then .ok () else .error s!"offset store is not started for engine '{engine}'"

/-- The delta is what `OffsetPreviewer` reads off the records of the batch. -/
def preview (entry : Entry) (id : Nat) (delta : Delta) : Except String PreparedCheckpoint := do
  entry.requireStarted
  if entry.expectedCommit.isSome then .error "an offset commit is already armed"
  else .ok ⟨id, delta, entry.current.merge delta⟩

def arm (entry : Entry) (prepared : PreparedCheckpoint) : Except String Entry := do
  entry.requireStarted
  if entry.expectedCommit.isSome then .error "an offset commit is already armed"
  else if entry.current.merge prepared.delta ≠ prepared.checkpoint then
    .error "prepared checkpoint does not match current offsets"
  else .ok { entry with expectedCommit := some prepared }

/-- What `OffsetBackingStore.set` does. -/
def applyActual (entry : Entry) (values : Delta) : Except String Entry := do
  entry.requireStarted
  match entry.expectedCommit with
  | none => .error "Debezium attempted an offset write outside an acknowledged delivery"
  | some expected =>
    if values ≠ expected.delta then
      .error "Debezium offset write differs from the pre-ACK checkpoint preview"
    else .ok { entry with current := expected.checkpoint, expectedCommit := none }

def disarm (entry : Entry) (prepared : PreparedCheckpoint) : Entry :=
  if entry.expectedCommit.map (·.id) = some prepared.id then { entry with expectedCommit := none }
  else entry

def requireCommitted (entry : Entry) (prepared : PreparedCheckpoint) : Except String Unit :=
  if entry.expectedCommit.isSome then .error "Debezium did not commit the pre-ACK checkpoint"
  else if entry.current ≠ prepared.checkpoint then
    .error "Debezium committed a different checkpoint than the pre-ACK preview"
  else .ok ()

end Entry

/-! ## The exchange -/

inductive Decision
  | ack
  | abort
deriving DecidableEq

/-- A delivery and its two futures. The frame carries the encoding of the checkpoint. -/
structure Delivery where
  checkpoint : Checkpoint
  encoded : Bytes
  carries : encode checkpoint = .ok encoded
  decision : Option Decision := none
  /-- Whether the settled future was completed, and if so, whether exceptionally. -/
  settled : Option Bool := none

namespace Delivery

/-- `decision.complete`, on a future that is completed at most once. -/
def decide (delivery : Delivery) (decision : Decision) : Delivery :=
  { delivery with decision := delivery.decision.or (some decision) }

def settle (delivery : Delivery) (failed : Bool) : Delivery :=
  { delivery with settled := delivery.settled.or (some failed) }

end Delivery

/-- `DeliveryExchange`, with every delivery ever installed; a delivery is its position. -/
structure DeliveryExchange where
  outstanding : Option Nat := none
  closed : Bool := false
  deliveries : List Delivery := []

namespace DeliveryExchange

/-- The part of `install` after its wait, which ends when nothing is outstanding or the
exchange is closed. -/
def install (exchange : DeliveryExchange) (delivery : Delivery) :
    Except String DeliveryExchange :=
  if exchange.closed then .error "delivery exchange is stopping"
  else .ok { exchange with
    outstanding := some exchange.deliveries.length
    deliveries := exchange.deliveries ++ [delivery] }

/-- The part of `poll` after its wait. -/
def poll (exchange : DeliveryExchange) : Option Nat :=
  if exchange.closed then none else exchange.outstanding

def decisionOf (exchange : DeliveryExchange) (delivery : Nat) : Option Decision :=
  exchange.deliveries[delivery]?.bind (·.decision)

def decide (exchange : DeliveryExchange) (delivery : Nat) (decision : Decision) :
    DeliveryExchange :=
  { exchange with deliveries := exchange.deliveries.modify delivery (·.decide decision) }

/-- The synchronized part of `ack`: the delivery it decided. -/
def ack (exchange : DeliveryExchange) : Except String (Nat × DeliveryExchange) :=
  match exchange.outstanding with
  | none => .error "there is no outstanding delivery"
  | some delivery =>
    if (exchange.decisionOf delivery).isSome then .error "delivery has already been decided"
    else .ok (delivery, exchange.decide delivery .ack)

def close (exchange : DeliveryExchange) : DeliveryExchange :=
  match exchange.outstanding with
  | none => { exchange with closed := true }
  | some delivery => { exchange with closed := true }.decide delivery .abort

/-- The synchronized part of `settle`. -/
def release (exchange : DeliveryExchange) (delivery : Nat) : DeliveryExchange :=
  if exchange.outstanding = some delivery then { exchange with outstanding := none } else exchange

/-- The rest of `settle`. -/
def complete (exchange : DeliveryExchange) (delivery : Nat) (failed : Bool) : DeliveryExchange :=
  { exchange with deliveries := exchange.deliveries.modify delivery (·.settle failed) }

end DeliveryExchange

/-! ## The engine thread -/

/-- Where the engine thread stands in `handleBatch`. -/
inductive Engine
  /-- Outside, or before the preview. -/
  | idle
  /-- Before `install`. -/
  | prepared (prepared : PreparedCheckpoint)
  /-- In `awaitDecision`. -/
  | awaiting (delivery : Nat) (prepared : PreparedCheckpoint)
  /-- Before `arm`. -/
  | acknowledged (delivery : Nat) (prepared : PreparedCheckpoint)
  /-- In `markProcessed`, `markBatchFinished`, or before `requireCommitted`. -/
  | processing (delivery : Nat) (prepared : PreparedCheckpoint)
  /-- At `finally`, with or without a `deliveryFailure`. -/
  | disarming (delivery : Nat) (prepared : PreparedCheckpoint) (failed : Bool)
  /-- Before the synchronized part of `settle`. -/
  | releasing (delivery : Nat) (failed : Bool)
  /-- Before the completion of the settled future. -/
  | completing (delivery : Nat) (failed : Bool)

structure State where
  offsets : Entry
  exchange : DeliveryExchange := {}
  engine : Engine := .idle
  /-- The calls of `ack` that wait for their delivery to settle. -/
  acks : List Nat := []
  /-- The identity of the next prepared checkpoint. -/
  next : Nat := 0

/-- What an `ack` comes back with. -/
inductive AckResult
  | returned (settled : Bool)
  | threw
deriving DecidableEq

/-- What a step lets the other parties observe. -/
inductive Event
  | installed (delivery : Nat) (checkpoint : Checkpoint)
  | polled (delivery : Option Nat)
  | decided (delivery : Nat) (decision : Decision)
  | armed (delivery : Nat)
  | disarmed (delivery : Nat)
  /-- `current` was assigned. -/
  | written (checkpoint : Checkpoint)
  /-- A settled future was completed, while `current` was as given. -/
  | settled (delivery : Nat) (failed : Bool) (current : Checkpoint)
  | acked (delivery : Nat) (result : AckResult)

inductive Action
  /-- The connector attaches, starts or stops its offset store. -/
  | attach
  | start
  | stop
  /-- Debezium writes offsets, from any thread and at any moment. -/
  | applyActual (values : Delta)
  /-- The engine thread previews the next batch. -/
  | preview (delta : Delta)
  /-- It encodes the frame and installs it. -/
  | install
  /-- The frame exceeds its limit, or the wait in `install` is interrupted. -/
  | installThrows
  | awaitDecision
  | awaitInterrupted
  | arm
  /-- `markProcessed` or `markBatchFinished` throws. -/
  | markThrows
  | requireCommitted
  | disarm
  | release
  | complete
  /-- The host polls; calls `ack`; comes back from it, after settlement or a timeout. -/
  | poll
  | ack
  | ackReturns (delivery : Nat)
  | ackTimesOut (delivery : Nat)
  | ackInterrupted (delivery : Nat)
  /-- `stop`, `abandon` or the end of the engine closes the exchange. -/
  | close

namespace State

/-- The decision that closing the exchange makes. -/
def closeEvents (exchange : DeliveryExchange) : List Event :=
  match exchange.outstanding with
  | none => []
  | some delivery =>
    if (exchange.decisionOf delivery).isSome then [] else [.decided delivery .abort]

/-- The engine thread installs the delivery of a prepared checkpoint, or throws. -/
def install (s : State) (prepared : PreparedCheckpoint) : State × List Event :=
  match h : encode prepared.checkpoint with
  | .error _ => ({ s with engine := .idle }, [])
  | .ok encoded =>
    match s.exchange.install ⟨prepared.checkpoint, encoded, h, none, none⟩ with
    | .error _ => ({ s with engine := .idle }, [])
    | .ok exchange =>
      let delivery := s.exchange.deliveries.length
      ({ s with exchange, engine := .awaiting delivery prepared },
        [.installed delivery prepared.checkpoint])

def arm (s : State) (delivery : Nat) (prepared : PreparedCheckpoint) : State × List Event :=
  match s.offsets.arm prepared with
  | .error _ => ({ s with engine := .disarming delivery prepared true }, [])
  | .ok offsets => ({ s with offsets, engine := .processing delivery prepared }, [.armed delivery])

/-- One step of a party. -/
def step (s : State) : Action → Option (State × List Event)
  | .attach => s.offsets.attach.toOption.map fun offsets => ({ s with offsets }, [])
  | .start => s.offsets.start.toOption.map fun offsets => ({ s with offsets }, [])
  | .stop => some ({ s with offsets := s.offsets.stop }, [])
  | .applyActual values => (s.offsets.applyActual values).toOption.map fun offsets =>
      ({ s with offsets }, [.written offsets.current])
  | .preview delta =>
    match s.engine with
    | .idle => (s.offsets.preview s.next delta).toOption.map fun prepared =>
        ({ s with engine := .prepared prepared, next := s.next + 1 }, [])
    | _ => none
  | .install =>
    match s.engine with
    | .prepared prepared =>
      if s.exchange.outstanding.isSome && !s.exchange.closed then none
      else some (s.install prepared)
    | _ => none
  | .installThrows =>
    match s.engine with
    | .prepared _ => some ({ s with engine := .idle }, [])
    | _ => none
  | .awaitDecision =>
    match s.engine with
    | .awaiting delivery prepared =>
      match s.exchange.decisionOf delivery with
      | none => none
      | some .abort => some ({ s with engine := .disarming delivery prepared false }, [])
      | some .ack => some ({ s with engine := .acknowledged delivery prepared }, [])
    | _ => none
  | .awaitInterrupted =>
    match s.engine with
    | .awaiting delivery prepared =>
      some ({ s with engine := .disarming delivery prepared true }, [])
    | _ => none
  | .arm =>
    match s.engine with
    | .acknowledged delivery prepared => some (s.arm delivery prepared)
    | _ => none
  | .markThrows =>
    match s.engine with
    | .processing delivery prepared =>
      some ({ s with engine := .disarming delivery prepared true }, [])
    | _ => none
  | .requireCommitted =>
    match s.engine with
    | .processing delivery prepared =>
      let failed := !(s.offsets.requireCommitted prepared).isOk
      some ({ s with engine := .disarming delivery prepared failed }, [])
    | _ => none
  | .disarm =>
    match s.engine with
    | .disarming delivery prepared failed =>
      some ({ s with offsets := s.offsets.disarm prepared, engine := .releasing delivery failed },
        [.disarmed delivery])
    | _ => none
  | .release =>
    match s.engine with
    | .releasing delivery failed =>
      some ({ s with
        exchange := s.exchange.release delivery, engine := .completing delivery failed }, [])
    | _ => none
  | .complete =>
    match s.engine with
    | .completing delivery failed =>
      some ({ s with exchange := s.exchange.complete delivery failed, engine := .idle },
        [.settled delivery failed s.offsets.current])
    | _ => none
  | .poll => some (s, [.polled s.exchange.poll])
  | .ack => s.exchange.ack.toOption.map fun (delivery, exchange) =>
      ({ s with exchange, acks := delivery :: s.acks }, [.decided delivery .ack])
  | .ackReturns delivery =>
    if delivery ∈ s.acks then
      (s.exchange.deliveries[delivery]?.bind (·.settled)).map fun failed =>
        ({ s with acks := s.acks.erase delivery },
          [.acked delivery (if failed then .threw else .returned true)])
    else none
  | .ackTimesOut delivery =>
    if delivery ∈ s.acks then
      some ({ s with acks := s.acks.erase delivery }, [.acked delivery (.returned false)])
    else none
  | .ackInterrupted delivery =>
    if delivery ∈ s.acks then
      some ({ s with acks := s.acks.erase delivery }, [.acked delivery .threw])
    else none
  | .close => some ({ s with exchange := s.exchange.close }, closeEvents s.exchange)

end State

/-- The runs of a connector that starts from a checkpoint, each with what was observed in
it, the newest first. -/
inductive Run (initial : Checkpoint) : List Event → State → Prop
  | created : Run initial [] { offsets := { current := initial } }
  | step {past : List Event} {s t : State} {events : List Event} (action : Action) :
      Run initial past s → s.step action = some (t, events) → Run initial (events ++ past) t

end Dogpaddle.Debezium.Java
