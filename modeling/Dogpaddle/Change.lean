import Dogpaddle.Lib.Bytes
import Mathlib.Data.List.Basic

/-!
# Changes and their schema-bound codec

A `Change` is a non-empty ordered run of events, each a row and a non-zero
signed difference. Rows are a parameter: the scheduler never looks inside one.

The Arrow IPC writer and reader behind the codec are not part of this
repository, so `SchemaBoundChangeCodec` is a structure that carries the two
facts its users rely on: what was encoded decodes to itself, and the bound
passed to `encodeBounded` is respected.
-/

namespace Dogpaddle

open Lib

/-- A change construction failure. -/
inductive ChangeError
  | empty
  | sliceOutOfBounds (offset length rows : Nat)
deriving DecidableEq, Repr

/-- A non-empty contiguous segment of an ordered change sequence. -/
structure Change (Row : Type) where
  /-- Top-level fields of the record batch. -/
  numColumns : Nat
  /-- Record row `i` and difference `i`. -/
  events : List (Row × Int)
  nonempty : events ≠ []
  nonzero : ∀ e ∈ events, e.2 ≠ 0

namespace Change

variable {Row : Type}

instance [DecidableEq Row] : DecidableEq (Change Row) := fun a b =>
  decidable_of_iff (a.numColumns = b.numColumns ∧ a.events = b.events)
    ⟨fun h => by cases a; cases b; cases h.1; cases h.2; rfl, fun h => by simp [h]⟩

/-- The number of change rows. -/
def numRows (c : Change Row) : Nat := c.events.length

theorem numRows_pos (c : Change Row) : 0 < c.numRows :=
  List.length_pos_iff.mpr c.nonempty

/-- Builds a change from events that satisfy the two invariants. -/
def tryNew (numColumns : Nat) (events : List (Row × Int)) : Option (Change Row) :=
  if h : events ≠ [] ∧ ∀ e ∈ events, e.2 ≠ 0 then some ⟨numColumns, events, h.1, h.2⟩ else none

/-- An order-preserving slice. -/
def trySlice (c : Change Row) (offset length : Nat) : Except ChangeError (Change Row) :=
  if hlen : length = 0 then .error .empty
  else if hend : offset + length ≤ c.numRows then
    .ok {
      numColumns := c.numColumns
      events := (c.events.drop offset).take length
      nonempty := by
        intro h
        have hl := congrArg List.length h
        simp only [List.length_take, List.length_drop, List.length_nil] at hl
        have : c.events.length = c.numRows := rfl
        omega
      nonzero := fun e he => c.nonzero e (List.mem_of_mem_drop (List.mem_of_mem_take he)) }
  else .error (.sliceOutOfBounds offset length c.numRows)

/-- A successful slice holds the addressed events. -/
theorem events_trySlice {c d : Change Row} {offset length : Nat}
    (h : c.trySlice offset length = .ok d) :
    d.events = (c.events.drop offset).take length ∧ offset + length ≤ c.numRows := by
  unfold trySlice at h
  split at h
  · cases h
  · split at h
    · next hend =>
      cases h
      exact ⟨rfl, hend⟩
    · cases h

end Change

/-- A codec failure; only the size limit is told apart by its callers. -/
inductive CodecError
  | encodedSizeLimitExceeded (limit : Nat)
  | invalid (reason : String)
deriving DecidableEq, Repr

/-- The codec of one exact schema. -/
structure SchemaBoundChangeCodec (Row : Type) where
  encodeBounded : Change Row → Nat → Except CodecError Bytes
  decode : Bytes → Except CodecError (Change Row)
  decode_encode : ∀ c n b, encodeBounded c n = .ok b → decode b = .ok c
  length_encode : ∀ c n b, encodeBounded c n = .ok b → b.length ≤ n

end Dogpaddle
