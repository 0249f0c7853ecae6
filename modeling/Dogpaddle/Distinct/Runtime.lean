import Dogpaddle.Operation.Batching
import Dogpaddle.Relation.Row
import Dogpaddle.Store.Partition

/-!
# The exact-row distinct

`DistinctOperation` keeps the multiplicity of every complete row. A row that becomes
present is inserted, a row whose multiplicity returns to zero is retracted, every
other event emits nothing.

Adjacent events of one row share a `PendingWeight`: the stored weight is read when
the run starts and written back when it ends, if it changed at all.
-/

namespace Dogpaddle.Distinct

open Lib Store Dogpaddle.Relation

/-- Failure during one distinct page. -/
inductive DistinctError
  | budget
  | invalidInputPort (port : Nat)
  | inputSchemaMismatch
  | negativeWeight
  | weightOverflow
  | canonicalRow (source : RowError)
  | change
  /-- The adjustment that was to report a rejected prefix went through. -/
  | panicked
deriving DecidableEq, Repr

instance : RowFailure DistinctError where
  budgetExceeded := .budget
  ofRow := .canonicalRow

/-- The boxed form of a distinct failure. -/
def DistinctError.boxed : DistinctError → OperationError
  | .budget => .budgetExceeded
  | .invalidInputPort port => .message s!"distinct does not accept input port {port}"
  | .inputSchemaMismatch => .message "distinct input Schema differs from its bound Schema"
  | .negativeWeight => .message "distinct input would make a row weight negative"
  | .weightOverflow => .message "distinct row weight overflow"
  | .canonicalRow (.sizeLimit maxBytes) =>
    .message s!"canonical row exceeds its {maxBytes}-byte limit"
  | .canonicalRow .trailingBytes => .message "canonical row contains trailing bytes"
  | .canonicalRow (.invalidValue reason) => .message reason
  | .change => .message "a change cannot be empty"
  | .panicked => .message "the checked prefix rejected this adjustment"

/-- The durable row weights. -/
abbrev Weights := OrdMap Bytes ℕ+

/-- One contiguous run; only its current weight stays in memory. -/
structure PendingWeight where
  key : Bytes
  persisted : Nat
  current : Nat
deriving DecidableEq, Repr

/-- What the loop over the rows of a change keeps. -/
structure Selection where
  pending : Option PendingWeight
  selected : List Bool
  outputDiffs : List Int
deriving DecidableEq, Repr

abbrev DistinctAttempt (α : Type) := Attempt DistinctError Weights α

/-- A weight after a difference, within 64 bits. -/
def adjustedWeight (before : Nat) (difference : Int) : Option Nat :=
  if difference > 0 then
    if before + difference.natAbs < 2 ^ 64 then some (before + difference.natAbs) else none
  else if difference.natAbs ≤ before then some (before - difference.natAbs)
  else none

/-- The store's own checked adjustment, with its errors mapped. -/
def checkedWeight (before : Nat) (difference : Int) : Except DistinctError Nat :=
  if difference ≥ 0 then
    if before + difference.natAbs < 2 ^ 64 then .ok (before + difference.natAbs)
    else .error .weightOverflow
  else if difference.natAbs ≤ before then .ok (before - difference.natAbs)
  else .error .negativeWeight

/-- What a weight transition emits. -/
def outputDifference (before after : Nat) : Option Int :=
  if before = 0 ∧ after > 0 then some 1
  else if before > 0 ∧ after = 0 then some (-1)
  else none

/-- Writes a run back, unless it ended at its stored weight. -/
def flushWeight (pending : PendingWeight) : DistinctAttempt Unit :=
  if pending.current ≠ pending.persisted then do
    StepBudget.charge (pending.key.length + 8)
    modify fun s => { s with state := setMultiplicity s.state pending.key pending.current }
  else pure ()

/-- Starts the run of a row from its stored weight. -/
def loadWeight (row : Bytes) : DistinctAttempt PendingWeight := do
  StepBudget.charge (row.length + 8)
  let persisted := multiplicity (← get).state row
  pure { key := row, persisted, current := persisted }

/-- The run of a row: the pending one, or a new one after the pending one is written. -/
def runOf (row : Bytes) : Option PendingWeight → DistinctAttempt PendingWeight
  | none => loadWeight row
  | some pending =>
    if pending.key ≠ row then do
      flushWeight pending
      loadWeight row
    else pure pending

/-- Reports a rejected adjustment through the store, after the run so far is written. -/
def reject {α : Type} (pending : PendingWeight) (difference : Int) : DistinctAttempt α := do
  flushWeight pending
  StepBudget.charge (pending.key.length + 8)
  match checkedWeight (multiplicity (← get).state pending.key) difference with
  | .error e => throw e
  | .ok _ => throw .panicked

/-- A materialized exact-row distinct. -/
structure DistinctOperation (Ty Value : Type) where
  fmt : RowFormat Ty Value
  inputSchema : Schema Ty
  /-- Whether a change has the bound schema. -/
  bound : Change (Row Value) → Bool
  logicalBytes : Change (Row Value) → Nat

namespace DistinctOperation

variable {Ty Value : Type} (op : DistinctOperation Ty Value)

/-- The canonical bytes of one row; a size limit is an exhausted allowance. -/
def encodeRow (row : Row Value) : DistinctAttempt Bytes := do
  let limit := (← get).budget.remainingBytes
  let rowBytes ← MonadExcept.ofExcept
    ((op.fmt.canonicalRowSizeBounded op.inputSchema row limit).mapError decodeError)
  StepBudget.charge rowBytes
  MonadExcept.ofExcept
    ((op.fmt.canonicalRowBounded op.inputSchema row rowBytes).mapError DistinctError.canonicalRow)

/-- Takes one event of the change into its run. -/
def applyRow (loop : Selection) (event : Row Value × Int) : DistinctAttempt Selection := do
  let row ← op.encodeRow event.1
  let pending ← runOf row loop.pending
  match adjustedWeight pending.current event.2 with
  | none => reject pending event.2
  | some after =>
    let difference := outputDifference pending.current after
    pure {
      pending := some { pending with current := after }
      selected := loop.selected ++ [difference.isSome]
      outputDiffs := loop.outputDiffs ++ difference.toList }

/-- The rows at the selected positions. -/
def filterRows (events : List (Row Value × Int)) (selected : List Bool) : List (Row Value) :=
  (events.zip selected).filterMap fun e => if e.2 then some e.1.1 else none

/-- The output of a change whose rows have all been taken in. -/
def finish (change : Change (Row Value)) (loop : Selection) :
    DistinctAttempt (Option (Change (Row Value))) := do
  if loop.outputDiffs = [] then pure none
  else do
    let records ← if loop.outputDiffs.length = change.numRows then
        pure (change.events.map (·.1))
      else do
        StepBudget.charge (op.logicalBytes change)
        pure (filterRows change.events loop.selected)
    match Change.tryNew op.inputSchema.length (records.zip loop.outputDiffs) with
    | none => throw .change
    | some output => pure (some output)

/-- Takes a whole change in. -/
def apply (port : Nat) (change : Change (Row Value)) :
    DistinctAttempt (Option (Change (Row Value))) :=
  if port ≠ 0 then throw (.invalidInputPort port)
  else if ¬ op.bound change then throw .inputSchemaMismatch
  else do
    StepBudget.charge (op.logicalBytes change)
    StepBudget.charge (change.numRows * 9)
    let loop ← change.events.foldlM op.applyRow ⟨none, [], []⟩
    match loop.pending with
    | none => pure ()
    | some pending => flushWeight pending
    op.finish change loop

/-- The distinct as an atomic operator. -/
def atomic : AtomicOperation Weights (Row Value) :=
  Application.atomic op.apply DistinctError.boxed

end DistinctOperation

end Dogpaddle.Distinct
