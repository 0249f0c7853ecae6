import Dogpaddle.Operation.Compute
import Dogpaddle.Lib.OrdMap

/-!
# Durable frames

A frame is the only durable execution position; a child borrows its parent's
output page. Controls and output pages are two ordered maps keyed by depth, and
the greatest control key is the top of the stack.
-/

namespace Dogpaddle.Flow

open Dogpaddle Lib

def pageBytes : Nat := 1024 * 1024
def rootBytes : Nat := 8 * pageBytes
def controlBytes : Nat := 64 * 1024 + 32
def stepBytes : Nat := 4 * pageBytes

/-- What a frame does next. -/
inductive FramePhase
  | run (resume : Resume)
  | send (nextConsumer : Nat) (after : Progress)
deriving DecidableEq, Repr

/-- The only durable execution position. -/
structure Frame where
  head : Nat
  inputPort : Option Nat
  phase : FramePhase
deriving DecidableEq, Repr

/-! ## Control encoding -/

/-- The variable-length big-endian integers of the resume format. -/
def varint (n : Nat) : Bytes :=
  if n < 251 then [UInt8.ofNat n]
  else if n < 2 ^ 16 then 251 :: toBE 2 n
  else if n < 2 ^ 32 then 252 :: toBE 4 n
  else 253 :: toBE 8 n

/-- An optional byte string: a tag, then length and payload. -/
def optionalBytes : Option Bytes → Bytes
  | none => [0]
  | some bytes => 1 :: (varint bytes.length ++ bytes)

def cursorBytes : Cursor → Bytes
  | .batch => varint 0
  | .equiJoin c => varint 1 ++ (if c.foundMatch then 1 else 0) :: optionalBytes c.resumeAfter
  | .asOf c => varint 2 ++ optionalBytes c.leftResumeAfter

/-- Strict encoding of a position, at most 64 KiB. -/
def encodeResume (resume : Resume) : Except CodecError Bytes :=
  let encoded := 1 :: (varint resume.ordinal ++ cursorBytes resume.cursor)
  if encoded.length > 64 * 1024 then .error (.invalid "resume exceeds control byte limit")
  else .ok encoded

/-- Indices are stored as big-endian `u32`. -/
def writeIndex (index : Nat) : Except CodecError Bytes :=
  if index < 2 ^ 32 then .ok (toBE 4 index) else .error (.invalid "frame index exceeds u32")

/-- The stored form of a frame control. -/
def Frame.encodeValue (frame : Frame) : Except CodecError Bytes := do
  let head ← writeIndex frame.head
  let port ← match frame.inputPort with
    | none => pure [0]
    | some port => do
      let index ← writeIndex port
      pure (1 :: index)
  let phase ← match frame.phase with
    | .run resume => do
      let encoded ← encodeResume resume
      pure (0 :: encoded)
    | .send nextConsumer after => do
      let index ← writeIndex nextConsumer
      let rest ← match after with
        | .done => pure [0]
        | .more resume => do
          let encoded ← encodeResume resume
          pure (1 :: encoded)
      pure (1 :: (index ++ rest))
  let encoded := 1 :: (head ++ port ++ phase)
  if encoded.length > controlBytes then throw (.invalid "frame control is too large")
  pure encoded

end Dogpaddle.Flow
