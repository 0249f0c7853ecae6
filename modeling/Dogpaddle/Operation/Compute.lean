import Dogpaddle.Change
import Dogpaddle.Lib.Attempt

/-!
# Bounded computation steps

The allowance of one transaction attempt (`StepBudget`), the position a calling
frame owns (`Resume`), and `Operation.step`, which computes one page of any
computation head.

An attempt threads the state it may write and its allowance through
`Attempt`; a failed attempt keeps the allowance it used, and its state is
dropped by the caller.
-/

namespace Dogpaddle

open Lib

/-- One transaction's shared logical byte and head work-item allowance. -/
structure StepBudget where
  headRemaining : Nat
  remainingBytes : Nat
deriving DecidableEq, Repr

/-- The state a transaction attempt may write, with its allowance. -/
structure Scope (S : Type) where
  state : S
  budget : StepBudget

/-- A transaction attempt over state `S`. -/
abbrev Attempt (ε S α : Type) := EStateM ε (Scope S) α

/-- Errors that can report an exhausted allowance. -/
class BudgetError (ε : Type) where
  budgetExceeded : ε

export BudgetError (budgetExceeded)

namespace StepBudget

variable {ε S : Type} [BudgetError ε]

/-- Charges logical bytes shared by the head and all atomic tails. -/
def charge (bytes : Nat) : Attempt ε S Unit := fun s =>
  if bytes ≤ s.budget.remainingBytes then
    .ok () { s with budget := { s.budget with remainingBytes := s.budget.remainingBytes - bytes } }
  else .error budgetExceeded s

/-- Consumes head work items. -/
def consumeHead (items : Nat) : Attempt ε S Unit := fun s =>
  if items ≤ s.budget.headRemaining then
    .ok () { s with budget := { s.budget with headRemaining := s.budget.headRemaining - items } }
  else .error budgetExceeded s

theorem raises_charge {P : ε → Prop} (h : P budgetExceeded) (bytes : Nat) (s : Scope S) :
    Raises P (charge bytes : Attempt ε S Unit) s := by
  intro e t he
  unfold charge at he
  split at he
  · cases he
  · cases he
    exact h

theorem raises_consumeHead {P : ε → Prop} (h : P budgetExceeded) (items : Nat) (s : Scope S) :
    Raises P (consumeHead items : Attempt ε S Unit) s := by
  intro e t he
  unfold consumeHead at he
  split at he
  · cases he
  · cases he
    exact h

/-- A charge never touches the state. -/
theorem charge_eq_ok {bytes : Nat} {u : Unit} {s s' : Scope S} :
    (charge bytes : Attempt ε S Unit) s = .ok u s' →
      s'.state = s.state ∧ s'.budget.headRemaining = s.budget.headRemaining := by
  unfold charge
  split
  · rintro ⟨⟩
    exact ⟨rfl, rfl⟩
  · rintro ⟨⟩

/-- Head consumption never touches the state. -/
theorem consumeHead_eq_ok {items : Nat} {u : Unit} {s s' : Scope S} :
    (consumeHead items : Attempt ε S Unit) s = .ok u s' → s'.state = s.state := by
  unfold consumeHead
  split
  · rintro ⟨⟩
    rfl
  · rintro ⟨⟩

end StepBudget

/-- Position of an equality join inside one driving event. -/
structure JoinCursor where
  foundMatch : Bool
  resumeAfter : Option Bytes
deriving DecidableEq, Repr

/-- Last fully corrected left key of the current right ASOF event. -/
structure AsOfCursor where
  leftResumeAfter : Option Bytes
deriving DecidableEq, Repr

/-- The kernel part of a position. -/
inductive Cursor
  | batch
  | equiJoin (cursor : JoinCursor)
  | asOf (cursor : AsOfCursor)
deriving DecidableEq, Repr

/-- Opaque position owned only by the calling frame. -/
structure Resume where
  ordinal : Nat
  cursor : Cursor
deriving DecidableEq, Repr

/-- Initial position for a captured source page or atomic computation head. -/
def Resume.batch : Resume := ⟨0, .batch⟩

/-- Progress through a frame's complete immutable input. -/
inductive Progress
  | more (resume : Resume)
  | done
deriving DecidableEq, Repr

/-- One bounded computation page and its sole next position. -/
structure Step (Row : Type) where
  output : Option (Change Row)
  progress : Progress

/-- A boxed failure: a message, optionally with the error that caused it. -/
inductive OperationError
  | budgetExceeded
  | message (text : String)
  | wrapped (text : String) (source : OperationError)
deriving DecidableEq, Repr

instance : BudgetError OperationError := ⟨.budgetExceeded⟩

/-- Whether a budget failure stands anywhere in the error's source chain. -/
def isBudgetError : OperationError → Bool
  | .budgetExceeded => true
  | .message _ => false
  | .wrapped _ source => isBudgetError source

/-- A restored position does not belong to this kernel or immutable input. -/
def invalidResume : OperationError := .message "operation resume is invalid"

/-- A transform that completes the offered slice in the caller's transaction. -/
structure AtomicOperation (S Row : Type) where
  apply : (port : Nat) → Change Row → Attempt OperationError S (Option (Change Row))

/-- A computation whose input may require multiple transactional pages. -/
structure PagedOperation (S Row : Type) where
  initialResume : Resume
  validateResume : (port : Nat) → Change Row → Resume → Except OperationError Unit
  step : (port : Nat) → Change Row → Resume → Attempt OperationError S (Step Row)

/-- A sink's outbox admission. `none` is a capacity rejection, which by the
boundary contract performs no writes. -/
structure SinkOperation (Q Row : Type) where
  tryEnqueue : Change Row → Q → Except OperationError (Option Q)

/-- One materialized operation with its validated execution capability. -/
inductive Operation (S Q Row : Type)
  | atomic (operation : AtomicOperation S Row)
  | paged (operation : PagedOperation S Row)
  | source
  | sink (operation : SinkOperation Q Row)

namespace Operation

variable {S Q Row : Type}

/-- Whether the operation is a sink. -/
def isSink : Operation S Q Row → Bool
  | .sink _ => true
  | _ => false

/-- Whether the operation is a source. -/
def isSource : Operation S Q Row → Bool
  | .source => true
  | _ => false

/-- Whether the operation is atomic. -/
def isAtomic : Operation S Q Row → Bool
  | .atomic _ => true
  | _ => false

/-- The pure initial position for a computation head. -/
def initialResume : Operation S Q Row → Resume
  | .paged operation => operation.initialResume
  | _ => Resume.batch

/-- Validates a position against this kernel and complete immutable input. -/
def validateResume (op : Operation S Q Row) (port : Nat) (change : Change Row)
    (resume : Resume) : Except OperationError Unit :=
  match op with
  | .paged operation => operation.validateResume port change resume
  | .sink _ => .error invalidResume
  | .atomic _ | .source =>
    if resume.cursor = .batch ∧ resume.ordinal < change.numRows then .ok ()
    else .error invalidResume

/-- Maps a change failure into the boxed error. -/
def changeError (e : ChangeError) : OperationError :=
  match e with
  | .empty => .message "a change cannot be empty"
  | .sliceOutOfBounds .. => .message "slice is outside the change"

/-- The slice of the input that one atomic or source page covers. -/
def window (change : Change Row) (start length : Nat) : Except OperationError (Change Row) :=
  if start = 0 ∧ length = change.numRows then .ok change
  else (change.trySlice start length).mapError changeError

/-- What an atomic or source head makes of one window. -/
def applyWindow (op : Operation S Q Row) (port : Nat) (slice : Change Row) :
    Attempt OperationError S (Option (Change Row)) :=
  match op with
  | .atomic operation => operation.apply port slice
  | .source => pure (some slice)
  | _ => throw invalidResume

/-- One page of an atomic or source head: as many rows as the allowance admits. -/
def stepWindow (op : Operation S Q Row) (port : Nat) (change : Change Row) (resume : Resume) :
    Attempt OperationError S (Step Row) := do
  MonadExcept.ofExcept (op.validateResume port change resume)
  let start := resume.ordinal
  let length := min (← get).budget.headRemaining (change.numRows - start)
  if length = 0 then throw .budgetExceeded
  else do
    let slice ← MonadExcept.ofExcept (window change start length)
    StepBudget.consumeHead length
    let output ← op.applyWindow port slice
    let next := start + length
    let progress := if next = change.numRows then Progress.done
      else Progress.more { ordinal := next, cursor := .batch }
    pure { output, progress }

/-- Computes one page using the same allowance as all fused atomic tails. -/
def step (op : Operation S Q Row) (port : Nat) (change : Change Row) (resume : Resume) :
    Attempt OperationError S (Step Row) :=
  match op with
  | .paged operation => operation.step port change resume
  | op => op.stepWindow port change resume

end Operation

end Dogpaddle
