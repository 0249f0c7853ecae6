import Dogpaddle.Aggregate.Runtime

/-!
# The aggregate without its caches

`rowMachine` is the aggregate as its definition describes it: every event reads its group,
its keys and its extremes from the state, and writes them back at once. There is no
allowance, and nothing is carried from one event to the next but the state.
-/

namespace Dogpaddle.Aggregate

open Lib Store Dogpaddle.Relation

variable {Ty Value : Type}

/-! ## Failures -/

/-- Failures that an event and the state before it decide. -/
def Hard : AggregateError → Prop
  | .groupWeightUnderflow | .callWeightUnderflow | .extremaWeightUnderflow | .groupIdExhausted
  | .arithmeticOverflow | .invalidState | .dataFusion _ | .change | .panicked => True
  | _ => False

/-- Why a partition rejects a difference. -/
def rejection (difference : Int) : AggregateError :=
  if difference > 0 then .arithmeticOverflow else .extremaWeightUnderflow

theorem budget_soft : ¬ Hard AggregateError.budget := id

/-- A charge fails softly. -/
theorem soft_charge (bytes : Nat) (t : Scope AggregateState) :
    Raises (fun e => ¬ Hard e) (StepBudget.charge bytes : AggregateAttempt Unit) t :=
  StepBudget.raises_charge budget_soft bytes t

theorem charge_state {bytes : Nat} {u : Unit} {t t' : Scope AggregateState}
    (h : (StepBudget.charge bytes : AggregateAttempt Unit) t = .ok u t') : t'.state = t.state :=
  (StepBudget.charge_eq_ok h).1

theorem decodeError_soft (e : RowError) : ¬ Hard (decodeError e : AggregateError) := by
  cases e with
  | sizeLimit => exact id
  | trailingBytes => exact id
  | invalidValue => exact id

/-! ## One event at once -/

/-- Writes or removes the state of a group. -/
def writeGroup (groups : OrdMap Bytes GroupState) (key : Bytes) (state : Option GroupState) :
    OrdMap Bytes GroupState :=
  match state with
  | some state => groups.put key state
  | none => groups.erase key

/-- Adjusts the weight of a key in its partition. -/
def adjusted (entries : Entries) (partition : EntryPartition) (key : Bytes) (difference : Int) :
    Except AggregateError ((Nat × Nat) × Entries) :=
  let before := multiplicity (entries partition) key
  match checkedExtremaWeight before difference with
  | none => .error (rejection difference)
  | some after => .ok ((before, after), setEntry entries partition key after)

/-- The key a scan of a partition finds first. -/
def extremeKey (m : OrdMap Bytes ℕ+) (direction : ScanDirection) : Option Bytes :=
  (remaining m none none direction none).head?.map (·.1)

/-- One slot, read again if its key left the partition. -/
def refreshedSlot (m : OrdMap Bytes ℕ+) (direction : ScanDirection) (key : Bytes)
    (slot : Option Nat) (extremes : List (Option Bytes)) :
    Except AggregateError (List (Option Bytes)) :=
  match slot with
  | none => .ok extremes
  | some slot =>
    match extremes[slot]? with
    | none => .error .panicked
    | some cached =>
      .ok (if cached = some key then extremes.set slot (extremeKey m direction) else extremes)

/-- Both slots of a layout. -/
def refreshed (layout : BoundExtrema) (m : OrdMap Bytes ℕ+) (key : Bytes)
    (extremes : List (Option Bytes)) : Except AggregateError (List (Option Bytes)) := do
  let extremes ← refreshedSlot m .ascending key layout.minSlot extremes
  refreshedSlot m .descending key layout.maxSlot extremes

namespace AggregateOperation

variable (op : AggregateOperation Ty Value)

def groupFields : Schema Ty := op.groups.map (·.field)

/-- The key of the group of a row. -/
def groupKey (row : EventRow Value) : Bytes := op.fmt.canonicalRow op.groupFields row.groups

/-- Applies one event to the entries and the cached extremes. -/
def extremaRow (group : UInt64) (difference : Int) : List (BoundArgument Ty Value) →
    List Value → List (Option Bytes) → Entries →
    Except AggregateError (List (Option Bytes) × Entries)
  | a :: arguments, value :: values, extremes, entries =>
    match a.extrema with
    | none => extremaRow group difference arguments values extremes entries
    | some layout => do
      match ← op.entryKey a value with
      | none => extremaRow group difference arguments values extremes entries
      | some key => do
        let ((before, after), entries) ←
          adjusted entries ⟨layout.partition, group⟩ key difference
        let extremes ← if before = 0 then promoteCachedExtreme layout extremes key
          else pure extremes
        if after = 0 ∧ cachesKey layout extremes key then do
          let extremes ← refreshed layout (entries ⟨layout.partition, group⟩) key extremes
          extremaRow group difference arguments values extremes entries
        else extremaRow group difference arguments values extremes entries
  | _, _, extremes, entries => .ok (extremes, entries)

/-- The state a row starts from. -/
def started (s : AggregateState) (group : Bytes) (difference : Int) :
    Except AggregateError (GroupState × Option UInt64) :=
  match s.groups.get? group with
  | some state => .ok (state, s.control)
  | none =>
    if difference < 0 then .error .groupWeightUnderflow
    else do
      let (state, next) ← op.newGroupState s.control none
      pure (state, some next)

/-- The output of a group that was there. -/
def outputOf (existed : Bool) (state : GroupState) :
    Except AggregateError (Option (List CallValue)) :=
  if existed then do
    let calls ← op.groupOutput state
    pure (some calls)
  else pure none

/-- Applies one event to the state of its group. -/
def rowState (row : EventRow Value) (state : GroupState) (entries : Entries) :
    Except AggregateError (GroupState × Entries) := do
  let weight ← applyWeight state.weight row.difference .group
  let (extremes, entries) ←
    if op.layout.counts.layouts > 0 then
      op.extremaRow state.id row.difference op.arguments row.arguments state.extremes entries
    else pure (state.extremes, entries)
  let statistics ←
    if op.layout.counts.statistics > 0 then
      op.applyStatisticsRow row.difference op.arguments row.arguments state.statistics
    else pure state.statistics
  pure ({ state with weight, extremes, statistics }, entries)

def outputRow (row : EventRow Value) (calls : List CallValue) : Row Value :=
  row.groups ++ calls.map op.cell

/-- What an event changed, and the state its group keeps. -/
def emitted (row : EventRow Value) (old : Option (List CallValue)) (state : GroupState) :
    Except AggregateError (Option GroupState × List (Row Value × Int)) :=
  if state.weight = 0 then do
    let old ← match old with
      | none => .error .panicked
      | some old => pure old
    if leftover state then .error .invalidState
    else pure (none, [(op.outputRow row old, -1)])
  else do
    let new ← op.groupOutput state
    match old with
    | none => pure (some state, [(op.outputRow row new, 1)])
    | some old =>
      if old ≠ new then
        pure (some state, [(op.outputRow row old, -1), (op.outputRow row new, 1)])
      else pure (some state, [])

/-- Takes one event into its group. -/
def rowStep (s : AggregateState) (row : EventRow Value) :
    Except AggregateError (List (Row Value × Int) × AggregateState) := do
  let group := op.groupKey row
  let (state, control) ← op.started s group row.difference
  if state.statistics.length ≠ op.layout.counts.statistics ∨
      state.extremes.length ≠ op.layout.counts.extrema then .error .invalidState
  else do
    let old ← op.outputOf (s.groups.get? group).isSome state
    let (state, entries) ← op.rowState row state s.entries
    let (kept, output) ← op.emitted row old state
    pure (output, ⟨writeGroup s.groups group kept, entries, control⟩)

/-- The aggregate over evaluated rows. -/
def rowMachine : Machine AggregateState (EventRow Value) (Row Value × Int) AggregateError :=
  ⟨op.rowStep⟩

/-- The evaluated expressions of one event. -/
def eventRow (event : Row Value × Int) : Except AggregateError (EventRow Value) := do
  let groups ← op.groupExpressions.mapM fun e => (e.2.expression event.1).mapError e.1
  let arguments ← op.argumentExpressions.mapM fun e => (e.2.expression event.1).mapError e.1
  pure ⟨groups, arguments, event.2⟩

/-- The aggregate, one event at a time. -/
def eventMachine : Machine AggregateState (Row Value × Int) (Row Value × Int) AggregateError :=
  op.rowMachine.comapExcept op.eventRow

end AggregateOperation

end Dogpaddle.Aggregate
