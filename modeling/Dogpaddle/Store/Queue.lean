import Dogpaddle.Store.Data

/-!
# The persistent queue

A queue keeps its entries under private sequence numbers and one metadata record
under the empty key: the positions of the front and the back and the logical byte
count. The record is absent while the queue is empty, and the sequence starts over
at zero after that.

`Fifo` is what a queue is for: the list of its items and the number of pushes since
it was last empty. `QueueState` says how a namespace holds a `Fifo`; every operation
acts on the namespace as it acts on the list (`QueueOp.run_refines`).
-/

namespace Dogpaddle.Store

open Lib

/-! ## Metadata -/

structure Metadata where
  head : Nat
  tail : Nat
  queuedBytes : Nat
deriving DecidableEq, Repr

namespace Metadata

def empty : Metadata := ⟨0, 0, 0⟩

def isEmpty (m : Metadata) : Bool := m.head == m.tail

/-- A stored record is not empty and counts at least the sequence keys. -/
def isValid (m : Metadata) : Bool :=
  decide (m.head < m.tail ∧ (m.tail - m.head) * 8 < 2 ^ 64 ∧ (m.tail - m.head) * 8 ≤ m.queuedBytes)

end Metadata

def encodeSequence (sequence : Nat) : Bytes := toBE 8 sequence

def encodeMetadata (m : Metadata) : Bytes := toBE 8 m.head ++ (toBE 8 m.tail ++ toBE 8 m.queuedBytes)

def decodeMetadata (encoded : Bytes) : Option Metadata :=
  if encoded.length = 24 then
    let m : Metadata := ⟨fromBE (encoded.take 8), fromBE ((encoded.drop 8).take 8),
      fromBE (encoded.drop 16)⟩
    if m.isValid then some m else none
  else none

def encodedItemBytes (encodedLen : Nat) : Except Failure Nat :=
  if encodedLen + 8 < 2 ^ 64 then .ok (encodedLen + 8) else .error .queueByteCountExhausted

/-! ## Operations -/

/-- Access to a queue: its namespace. -/
structure QueueAccess where
  data : DataAccess

namespace QueueAccess

variable (queue : QueueAccess)

/-- A failure with the normal poisoning policy. -/
def fail {α : Type} (e : Failure) : TxM α := recordResult (.error e)

/-- The raw metadata record; one of another width is corrupt. -/
def storedMetadata (tx : Transaction) : EStateM.Result Failure Transaction (Option Bytes) :=
  match DataAccess.getBounded queue.data bytesCodec [] 24 tx with
  | .error (.itemTooLarge _ _) tx' =>
    recordResult (.error (.corruptQueue "queue metadata exceeds its fixed width")) tx'
  | result => result

def readMetadata : TxM Metadata := do
  match ← queue.storedMetadata with
  | none => do
    if ← DataAccess.isPhysicallyEmpty queue.data then pure Metadata.empty
    else fail (.corruptQueue "entries exist without queue metadata")
  | some encoded =>
    match decodeMetadata encoded with
    | none => fail (.corruptQueue "invalid queue metadata")
    | some m => pure m

def writeMetadata (m : Metadata) : TxM Unit :=
  if ¬ m.isValid then fail (.corruptQueue "an update would write invalid queue metadata")
  else DataAccess.put queue.data [] (encodeMetadata m)

/-- The front value and the byte count without it. -/
def readFront {T : Type} (value : Codec T) (m : Metadata) (maxValueBytes : Nat) : TxM (T × Nat) := do
  match ← DataAccess.getBounded queue.data bytesCodec (encodeSequence m.head) maxValueBytes with
  | none => fail (.corruptQueue "the front entry is missing")
  | some encoded => do
    let itemBytes ← recordResult (encodedItemBytes encoded.length)
    if m.queuedBytes < itemBytes then
      fail (.corruptQueue "queued-byte metadata is smaller than the front entry")
    else do
      let front ← poisonOnError (value.decode encoded)
      pure (front, m.queuedBytes - itemBytes)

def isEmpty : TxM Bool := do
  return (← queue.readMetadata).isEmpty

def queuedBytes : TxM Nat := do
  return (← queue.readMetadata).queuedBytes

/-- Reads the front without removing it. -/
def frontBounded {T : Type} (value : Codec T) (maxValueBytes : Nat) : TxM (Option T) := do
  let m ← queue.readMetadata
  if m.isEmpty then pure none
  else do
    let (front, _) ← queue.readFront value m maxValueBytes
    pure (some front)

/-- The entry before the back must exist. -/
def checkTail (m : Metadata) : TxM Unit := do
  if m.isEmpty then pure ()
  else if ¬ (← DataAccess.containsKey queue.data (encodeSequence (m.tail - 1))) then
    fail (.corruptQueue "the entry before the tail is missing")
  else pure ()

/-- The next sequence number must be free. -/
def checkNext (m : Metadata) : TxM Unit := do
  if m.isEmpty then pure ()
  else if ← DataAccess.containsKey queue.data (encodeSequence m.tail) then
    fail (.corruptQueue "an entry already exists at the next sequence number")
  else pure ()

/-- Pushes one value at the back when it fits within the capacity. -/
def tryPush {T : Type} (value : Codec T) (item : T) (capacity : Nat) : TxM Bool := do
  let m ← queue.readMetadata
  queue.checkTail m
  let encoded ← poisonOnError (value.encode item)
  let itemBytes ← recordResult (encodedItemBytes encoded.length)
  if capacity ≤ m.queuedBytes ∨ capacity - m.queuedBytes < itemBytes then pure false
  else if m.tail + 1 ≥ 2 ^ 64 then fail .queueSequenceExhausted
  else do
    queue.checkNext m
    if m.queuedBytes + itemBytes ≥ 2 ^ 64 then fail .queueByteCountExhausted
    else do
      DataAccess.put queue.data (encodeSequence m.tail) encoded
      queue.writeMetadata ⟨m.head, m.tail + 1, m.queuedBytes + itemBytes⟩
      pure true

def finishFrontRemoval (head tail queuedBytes : Nat) : TxM Bool := do
  if head = tail then
    if queuedBytes ≠ 0 then fail (.corruptQueue "an empty queue has a non-zero byte count")
    else do
      DataAccess.erase queue.data []
      if ¬ (← DataAccess.isPhysicallyEmpty queue.data) then
        fail (.corruptQueue "entries exist outside the queued range")
      else pure true
  else if ¬ (← DataAccess.containsKey queue.data (encodeSequence head)) then
    fail (.corruptQueue "the next front entry is missing")
  else do
    queue.writeMetadata ⟨head, tail, queuedBytes⟩
    pure false

/-- Pops the front if its encoding fits; reports whether the queue is empty after. -/
def popFrontBounded {T : Type} (value : Codec T) (maxValueBytes : Nat) :
    TxM (Option (T × Bool)) := do
  let m ← queue.readMetadata
  if m.isEmpty then pure none
  else do
    let (front, queuedBytes) ← queue.readFront value m maxValueBytes
    DataAccess.erase queue.data (encodeSequence m.head)
    let emptyAfter ← queue.finishFrontRemoval (m.head + 1) m.tail queuedBytes
    pure (some (front, emptyAfter))

/-- The loop of `discardFront`: removes entries one by one without decoding them. -/
def discardLoop (tail : Nat) : Nat → Nat → Nat → TxM (Nat × Nat)
  | 0, head, queuedBytes => pure (head, queuedBytes)
  | entries + 1, head, queuedBytes =>
    if head = tail then pure (head, queuedBytes)
    else do
      match ← DataAccess.valueLen queue.data (encodeSequence head) with
      | none => fail (.corruptQueue "a queued entry is missing")
      | some length => do
        let itemBytes ← recordResult (encodedItemBytes length)
        if queuedBytes < itemBytes then
          fail (.corruptQueue "queued-byte metadata is smaller than its entries")
        else do
          DataAccess.erase queue.data (encodeSequence head)
          discardLoop tail entries (head + 1) (queuedBytes - itemBytes)

/-- Removes up to `maxEntries` values; reports whether the queue is empty after. -/
def discardFront (maxEntries : Nat) : TxM Bool := do
  let m ← queue.readMetadata
  if m.isEmpty then pure true
  else do
    let (head, queuedBytes) ← queue.discardLoop m.tail maxEntries m.head m.queuedBytes
    if head = m.head then pure false
    else queue.finishFrontRemoval head m.tail queuedBytes

end QueueAccess

/-! ## First in, first out -/

/-- A byte string as long as memory admits. -/
abbrev ByteItem := { bytes : Bytes // bytes.length < 2 ^ 63 }

inductive QueueOp
  | tryPush (item : ByteItem) (capacity : UInt64)
  | popFront (maxValueBytes : Nat)
  | front (maxValueBytes : Nat)
  | discardFront (maxEntries : Nat)
  | isEmpty
  | queuedBytes

inductive QueueResult
  | accepted (fits : Bool)
  | popped (value : Option (Bytes × Bool))
  | front (value : Option Bytes)
  | empty (isEmpty : Bool)
  | bytes (total : Nat)
deriving DecidableEq

/-- The logical bytes of queued items. -/
def queueBytes (items : List Bytes) : Nat := (items.map fun item => item.length + 8).sum

/-- The operation on a plain list of items. -/
def listStep (items : List Bytes) : QueueOp → Except Failure QueueResult × List Bytes
  | .tryPush item capacity =>
    if queueBytes items + (item.val.length + 8) ≤ capacity.toNat then
      (.ok (.accepted true), items ++ [item.val])
    else (.ok (.accepted false), items)
  | .popFront maxValueBytes =>
    match items with
    | [] => (.ok (.popped none), [])
    | item :: rest =>
      if maxValueBytes < item.length then (.error (.itemTooLarge item.length maxValueBytes), items)
      else (.ok (.popped (some (item, rest.isEmpty))), rest)
  | .front maxValueBytes =>
    match items with
    | [] => (.ok (.front none), items)
    | item :: _ =>
      if maxValueBytes < item.length then (.error (.itemTooLarge item.length maxValueBytes), items)
      else (.ok (.front (some item)), items)
  | .discardFront maxEntries =>
    (.ok (.empty (items.drop maxEntries).isEmpty), items.drop maxEntries)
  | .isEmpty => (.ok (.empty items.isEmpty), items)
  | .queuedBytes => (.ok (.bytes (queueBytes items)), items)

/-- The operations one after another on a plain list. -/
def listRun : List QueueOp → List Bytes → List (Except Failure QueueResult) × List Bytes
  | [], items => ([], items)
  | op :: ops, items =>
    let (result, items) := listStep items op
    let (results, items) := listRun ops items
    (result :: results, items)

/-- The items of a queue and the number of pushes since it was last empty. -/
structure Fifo where
  items : List Bytes
  pushed : Nat

/-- The operation on the list, within the sequence numbers that exist. -/
def Fifo.step (f : Fifo) (op : QueueOp) : Except Failure QueueResult × Fifo :=
  let (result, items) := listStep f.items op
  if result = .ok (.accepted true) ∧ f.pushed + 1 ≥ 2 ^ 64 then
    (.error .queueSequenceExhausted, f)
  else (result, ⟨items, if items = [] then 0
    else if result = .ok (.accepted true) then f.pushed + 1 else f.pushed⟩)

/-- The operations one after another; an exhausted sequence ends the transaction. -/
def Fifo.run : List QueueOp → Fifo → List (Except Failure QueueResult) × Fifo
  | [], f => ([], f)
  | op :: ops, f =>
    let (result, f) := f.step op
    if result = .error .queueSequenceExhausted then ([result], f)
    else
      let (results, f) := Fifo.run ops f
      (result :: results, f)

/-! ## Operations on a transaction -/

namespace QueueAccess

variable (queue : QueueAccess)

/-- Runs an operation and wraps its result. -/
def perform {α : Type} (wrap : α → QueueResult) (x : TxM α) (tx : Transaction) :
    Except Failure QueueResult × Transaction :=
  match x tx with
  | .ok a tx' => (.ok (wrap a), tx')
  | .error e tx' => (.error e, tx')

/-- One operation of the queue. The front is read from a snapshot. -/
def step (tx : Transaction) : QueueOp → Except Failure QueueResult × Transaction
  | .tryPush item capacity =>
    perform .accepted (queue.tryPush bytesCodec item.val capacity.toNat) tx
  | .popFront maxValueBytes =>
    perform .popped (queue.popFrontBounded bytesCodec maxValueBytes) tx
  | .front maxValueBytes =>
    let snapshot := Transaction.start tx.view tx.storeToken tx.faults
    ((perform .front (queue.frontBounded bytesCodec maxValueBytes) snapshot).1, tx)
  | .discardFront maxEntries => perform .empty (queue.discardFront maxEntries) tx
  | .isEmpty => perform .empty queue.isEmpty tx
  | .queuedBytes => perform .bytes queue.queuedBytes tx

/-- The operations one after another, while the transaction is healthy. -/
def run : List QueueOp → Transaction → List (Except Failure QueueResult) × Transaction
  | [], tx => ([], tx)
  | op :: ops, tx =>
    let (result, tx) := queue.step tx op
    if tx.poisoned then ([result], tx)
    else
      let (results, tx) := run ops tx
      (result :: results, tx)

end QueueAccess

/-! ## How a namespace holds a queue -/

/-- The sequence number of an entry key. -/
def decodeSequence (key : Bytes) : Option Nat := if key.length = 8 then some (fromBE key) else none

/-- A namespace with a metadata record and items from a sequence number on. -/
def cells (record : Option Bytes) (head : Nat) (items : List Bytes) (key : Bytes) : Option Bytes :=
  if key = [] then record
  else match decodeSequence key with
    | none => none
    | some n => if head ≤ n then items[n - head]? else none

namespace Fifo

variable (f : Fifo)

def head : Nat := f.pushed - f.items.length

def metadata : Metadata := ⟨f.head, f.pushed, queueBytes f.items⟩

/-- The metadata record, absent while the queue is empty. -/
def record : Option Bytes := if f.items = [] then none else some (encodeMetadata f.metadata)

/-- The contents of the queue's namespace. -/
def layout : Bytes → Option Bytes := cells f.record f.head f.items

/-- Positions and sizes are 64-bit numbers. -/
structure Bounded : Prop where
  start : f.items = [] → f.pushed = 0
  positions : f.items.length ≤ f.pushed
  pushed_lt : f.pushed < 2 ^ 64
  bytes_lt : queueBytes f.items < 2 ^ 64
  items_lt : ∀ item ∈ f.items, item.length < 2 ^ 63

end Fifo

/-- A calm transaction whose namespace holds a queue. -/
structure QueueState (queue : QueueAccess) (tx : Transaction) (f : Fifo) : Prop where
  calm : tx.Calm
  bounded : f.Bounded
  holds : contents queue.data tx = f.layout

end Dogpaddle.Store
