import Dogpaddle.Operation.Compute
import Dogpaddle.Lib.Reader

/-!
# The control state of an outbox

An outbox numbers its events from 1 on and never reuses a number. Its control cell holds
where the next delivery starts (`head`), one past the last event (`tail`) and the bytes of
the stored entries. Reading the cell back checks the state again.
-/

namespace Dogpaddle.Buffered

open Lib

/-- `u64::checked_add`. -/
def checkedAdd (a b : Nat) : Option Nat := if a + b < 2 ^ 64 then some (a + b) else none

theorem checkedAdd_eq_some {a b c : Nat} : checkedAdd a b = some c ↔ c = a + b ∧ a + b < 2 ^ 64 := by
  unfold checkedAdd
  split
  · simp_all [eq_comm]
  · simp_all

/-- The text of an outbox failure. -/
def invalid (message : String) : OperationError := .message s!"buffered sink: {message}"

def mapKeyBytes : Nat := 8
def maxBufferedEvents : Nat := 1048576
def maxRetainedBytes : Nat := 64 * 1024 * 1024
def maxDeliveryBytes : Nat := 8 * 1024 * 1024
def maxTargetBatchBytes : Nat := 8 * 1024 * 1024

/-- A position in the event sequence, with the first event of the entry it is in. -/
structure Position where
  entryStart : Nat
  eventOffset : Nat
deriving DecidableEq, Repr

/-- The position at the start of an entry. -/
def Position.atEntry (eventOffset : Nat) : Position := ⟨eventOffset, eventOffset⟩

structure BufferState where
  head : Position
  tail : Nat
  retainedBytes : Nat
deriving DecidableEq, Repr

namespace BufferState

def empty : BufferState := ⟨.atEntry 1, 1, 0⟩

def isEmpty (state : BufferState) : Bool := state.head.eventOffset = state.tail

def pendingEvents (state : BufferState) : Nat := state.tail - state.head.eventOffset

def validate (state : BufferState) : Except OperationError Unit :=
  if state.head.entryStart = 0 ∨ state.head.entryStart > state.head.eventOffset ∨
      state.head.eventOffset > state.tail ∨
      (if state.isEmpty then state.head.entryStart ≠ state.tail ∨ state.retainedBytes ≠ 0
        else state.retainedBytes < 8) then
    .error (invalid "invalid buffer control state")
  else .ok ()

end BufferState

/-- What the control cell holds. -/
inductive State
  | initializing
  | ready (buffer : BufferState)
deriving DecidableEq, Repr

/-! ## The layout of the cell -/

def encodeBuffer (buffer : BufferState) : Bytes :=
  toBE 8 buffer.head.entryStart ++ toBE 8 buffer.head.eventOffset ++ toBE 8 buffer.tail ++
    toBE 8 buffer.retainedBytes

def State.encode : State → Bytes
  | .initializing => [1, 0]
  | .ready buffer => [1, 1] ++ encodeBuffer buffer

/-- The four numbers of a ready control state. -/
def readBuffer : Reader BufferState := do
  let entryStart ← Reader.unsigned 8
  let eventOffset ← Reader.unsigned 8
  let tail ← Reader.unsigned 8
  let retainedBytes ← Reader.unsigned 8
  pure ⟨⟨entryStart, eventOffset⟩, tail, retainedBytes⟩

def decodeBuffer (input : Bytes) : Except OperationError (BufferState × Bytes) :=
  match readBuffer input with
  | .error _ => .error (invalid "truncated control state")
  | .ok (buffer, rest) => do
    buffer.validate
    pure (buffer, rest)

def requireEnd (input : Bytes) : Except OperationError Unit :=
  if input.isEmpty then .ok () else .error (invalid "trailing control-state bytes")

def decode : Bytes → Except OperationError State
  | [] | [1] => .error (invalid "truncated control state")
  | version :: phase :: input =>
    if version ≠ 1 then .error (invalid "unknown control-state version")
    else if phase = 0 then do
      requireEnd input
      pure .initializing
    else if phase = 1 then do
      let (buffer, rest) ← decodeBuffer input
      requireEnd rest
      pure (.ready buffer)
    else .error (invalid "unknown control-state phase")
  | _ :: _ => .error (invalid "unknown control-state version")

/-- The numbers of the state fit their fields. -/
def BufferState.Fits (state : BufferState) : Prop :=
  state.head.entryStart < 2 ^ 64 ∧ state.head.eventOffset < 2 ^ 64 ∧ state.tail < 2 ^ 64 ∧
    state.retainedBytes < 2 ^ 64

theorem readBuffer_encodeBuffer {buffer : BufferState} (h : buffer.Fits) :
    readBuffer (encodeBuffer buffer) = .ok (buffer, []) := by
  obtain ⟨hstart, hoffset, htail, hretained⟩ := h
  have hread : ∀ {n : Nat} (rest : Bytes), n < 2 ^ 64 →
      Reader.unsigned 8 (toBE 8 n ++ rest) = .ok (n, rest) := by
    intro n rest hn
    exact (Reader.exact_unsigned 8 _ _ _).mpr ⟨toBE 8 n, ⟨hn, rfl⟩, rfl⟩
  unfold encodeBuffer
  rw [List.append_assoc, List.append_assoc]
  unfold readBuffer
  show (Reader.unsigned 8 >>= fun _ => _) _ = _
  simp only [bind, StateT.bind, Except.bind, hread _ hstart, hread _ hoffset, hread _ htail]
  rw [← List.append_nil (toBE 8 buffer.retainedBytes), hread _ hretained]
  rfl

/-- A valid control state is read back as it was written. -/
theorem decode_encode_ready {buffer : BufferState} (hfits : buffer.Fits)
    (hvalid : buffer.validate = .ok ()) : decode (State.ready buffer).encode = .ok (.ready buffer) := by
  have hdecode : decodeBuffer (encodeBuffer buffer) = .ok (buffer, []) := by
    unfold decodeBuffer
    rw [readBuffer_encodeBuffer hfits]
    simp only [hvalid]
    rfl
  change (do
    let (buffer, rest) ← decodeBuffer (encodeBuffer buffer)
    requireEnd rest
    pure (State.ready buffer)) = _
  rw [hdecode]
  rfl

end Dogpaddle.Buffered
