import Dogpaddle.Aggregate.Definition
import Dogpaddle.Operation.Batching
import Dogpaddle.Store.Partition

/-!
# The grouped aggregate

`AggregateOperation` keeps one `GroupState` for each present group: its weight, its
statistics and its cached extreme keys. The keys of an extrema argument are counted in
`entries`, one ordered partition for each layout and group id; a group that comes back
after it was removed has a fresh id.

Within one change, adjacent events of one group share a `PendingGroup`, and each
layout keeps one `PendingExtreme`; both are written back when the group or the key
changes, and at the end.
-/

namespace Dogpaddle.Aggregate

open Lib Store Dogpaddle.Relation

/-! ## Stored data -/

/-- The partition of the ordered entries of a layout and a group id. -/
structure EntryPartition where
  layout : Nat
  group : UInt64
deriving DecidableEq, Repr

def EntryPartition.encodeKey (partition : EntryPartition) : Bytes :=
  toBE 4 partition.layout ++ toBE 8 partition.group.toNat

abbrev Entries := EntryPartition → OrdMap Bytes ℕ+

structure AggregateState where
  groups : OrdMap Bytes GroupState
  entries : Entries
  /-- The next group id. -/
  control : Option UInt64

def AggregateState.initial : AggregateState := ⟨.empty, fun _ => .empty, none⟩

abbrev AggregateAttempt (α : Type) := Attempt AggregateError AggregateState α

/-- Writes the weight of one key into its partition. -/
def setEntry (entries : Entries) (partition : EntryPartition) (key : Bytes) (weight : Nat) :
    Entries :=
  Function.update entries partition (setMultiplicity (entries partition) key weight)

/-! ## Run caches -/

/-- State for one contiguous run of the same canonical group key. -/
structure PendingGroup where
  key : Bytes
  wasPresent : Bool
  /-- The original state, kept only when a multi-row run may end unchanged. -/
  comparisonBaseline : Option GroupState
  state : Option GroupState

/-- The last adjusted key of a layout. -/
structure PendingExtreme where
  group : UInt64
  key : Bytes
  stored : Nat
  current : Nat

/-- One key for each layout. -/
abbrev PendingExtrema := Nat → Option PendingExtreme

/-- The evaluated columns of one event. -/
structure EventRow (Value : Type) where
  groups : List Value
  arguments : List Value
  difference : Int

/-! ## Cached extremes -/

/-- Whether either slot of a layout caches a key. -/
def cachesKey (layout : BoundExtrema) (extremes : List (Option Bytes)) (key : Bytes) : Bool :=
  (layout.minSlot.toList ++ layout.maxSlot.toList).any fun slot => extremes[slot]? = some (some key)

/-- Whether a cached key does not stand against a new one. -/
def beats (better : Bytes → Bytes → Bool) (key : Bytes) (current : Option Bytes) : Bool :=
  match current with
  | none => true
  | some current => better key current

/-- Promotes a key into one slot if it beats what is cached there. -/
def promoteSlot (better : Bytes → Bytes → Bool) (key : Bytes) (slot : Option Nat)
    (extremes : List (Option Bytes)) : Except AggregateError (List (Option Bytes)) :=
  match slot with
  | none => .ok extremes
  | some slot =>
    match extremes[slot]? with
    | none => .error .panicked
    | some current =>
      .ok (if beats better key current then extremes.set slot (some key) else extremes)

/-- Promotes a key that just entered its partition. -/
def promoteCachedExtreme (layout : BoundExtrema) (extremes : List (Option Bytes)) (key : Bytes) :
    Except AggregateError (List (Option Bytes)) := do
  let extremes ← promoteSlot (fun key current => decide (key < current)) key layout.minSlot extremes
  promoteSlot (fun key current => decide (current < key)) key layout.maxSlot extremes

/-! ## Weights of extrema keys -/

def checkedExtremaWeight (before : Nat) (difference : Int) : Option Nat :=
  if difference > 0 then
    if before + difference.natAbs < 2 ^ 64 then some (before + difference.natAbs) else none
  else if difference.natAbs ≤ before then some (before - difference.natAbs)
  else none

/-- The store's own checked adjustment, with its errors mapped. -/
def checkedWeight (before : Nat) (difference : Int) : Except AggregateError Nat :=
  if difference ≥ 0 then
    if before + difference.natAbs < 2 ^ 64 then .ok (before + difference.natAbs)
    else .error .arithmeticOverflow
  else if difference.natAbs ≤ before then .ok (before - difference.natAbs)
  else .error .extremaWeightUnderflow

/-- Reports a rejected adjustment through the store. -/
def rejectEntry {α : Type} (partition : EntryPartition) (key : Bytes) (difference : Int) :
    AggregateAttempt α := do
  match checkedWeight (multiplicity ((← get).state.entries partition) key) difference with
  | .error e => throw e
  | .ok _ => throw .invalidState

/-- Writes the pending key of a layout back, unless its stored weight is current. -/
def flushSlot (layout : Nat) (pending : PendingExtrema) : AggregateAttempt PendingExtrema :=
  match pending layout with
  | none => pure pending
  | some slot =>
    if slot.current = slot.stored then pure pending
    else do
      StepBudget.charge (slot.key.length + 34)
      modify fun s => { s with state := { s.state with
        entries := setEntry s.state.entries ⟨layout, slot.group⟩ slot.key slot.current } }
      pure (Function.update pending layout (some { slot with stored := slot.current }))

/-- Writes the pending keys of all layouts back and forgets them. -/
def flushAll : Nat → PendingExtrema → AggregateAttempt PendingExtrema
  | 0, pending => pure pending
  | layouts + 1, pending => do
    let pending ← flushAll layouts pending
    let pending ← flushSlot layouts pending
    pure (Function.update pending layouts none)

/-- Adjusts the weight of a key: in the pending slot, or in one that replaces it. -/
def adjustEntry (pending : PendingExtrema) (layout : Nat) (group : UInt64) (key : Bytes)
    (difference : Int) : AggregateAttempt ((Nat × Nat) × PendingExtrema) := do
  match (pending layout).filter fun slot => slot.group = group ∧ slot.key = key with
  | some slot =>
    match checkedExtremaWeight slot.current difference with
    | some after =>
      pure ((slot.current, after),
        Function.update pending layout (some { slot with current := after }))
    | none => do
      let _ ← flushSlot layout pending
      rejectEntry ⟨layout, group⟩ key difference
  | none => do
    let pending ← flushSlot layout pending
    StepBudget.charge (key.length + 34)
    let before := multiplicity ((← get).state.entries ⟨layout, group⟩) key
    match checkedExtremaWeight before difference with
    | none => rejectEntry ⟨layout, group⟩ key difference
    | some after => do
      StepBudget.charge key.length
      pure ((before, after), Function.update pending layout (some ⟨group, key, before, after⟩))

/-- The first or last key of a partition; a scan that does not fit is out of budget. -/
def readExtreme (partition : EntryPartition) (direction : ScanDirection) :
    AggregateAttempt (Option Bytes) := do
  let s ← get
  if hpos : 0 < s.budget.remainingBytes then
    match scan (s.state.entries partition)
        (fun e => partitionBytes partition.encodeKey + e.1.length + 8) none none direction none
        ⟨1, s.budget.remainingBytes, Nat.one_pos, hpos⟩ with
    | .error _ => throw .budget
    | .ok page => page.entries.head?.mapM fun entry => do
      StepBudget.charge (entry.1.length + 34)
      pure entry.1
  else throw .budget

/-- Re-reads one slot if its key just left the partition. -/
def refreshSlot (partition : EntryPartition) (direction : ScanDirection) (key : Bytes)
    (slot : Option Nat) (extremes : List (Option Bytes)) :
    AggregateAttempt (List (Option Bytes)) :=
  match slot with
  | none => pure extremes
  | some slot =>
    match extremes[slot]? with
    | none => throw .panicked
    | some cached =>
      if cached = some key then do
        let extreme ← readExtreme partition direction
        pure (extremes.set slot extreme)
      else pure extremes

/-- Re-reads the cached extremes whose key just left the partition. -/
def refreshCachedExtreme (layout : BoundExtrema) (partition : EntryPartition) (key : Bytes)
    (extremes : List (Option Bytes)) : AggregateAttempt (List (Option Bytes)) := do
  let extremes ← refreshSlot partition .ascending key layout.minSlot extremes
  refreshSlot partition .descending key layout.maxSlot extremes

/-! ## Groups -/

/-- Reads the state of a group under the remaining allowance. -/
def PendingGroup.load (key : Bytes) (continues : Bool) : AggregateAttempt PendingGroup := do
  let s ← get
  let state := s.state.groups.get? key
  match state with
  | none => pure ()
  | some state =>
    if s.budget.remainingBytes < state.logicalBytes + 1 then throw .budget
    else do
      StepBudget.charge state.logicalBytes
      if continues then StepBudget.charge state.logicalBytes
  pure {
    key
    wasPresent := state.isSome
    comparisonBaseline := if continues then state else none
    state }

/-- Writes a run back, unless it ended as it started. -/
def flushPendingGroup (pending : PendingGroup) : AggregateAttempt Unit :=
  if pending.comparisonBaseline.isSome ∧ pending.state = pending.comparisonBaseline then pure ()
  else match pending.state with
    | some state => do
      StepBudget.charge (pending.key.length + state.logicalBytes)
      modify fun s => { s with state := { s.state with
        groups := s.state.groups.put pending.key state } }
    | none =>
      if pending.wasPresent then do
        StepBudget.charge pending.key.length
        modify fun s => { s with state := { s.state with
          groups := s.state.groups.erase pending.key } }
      else pure ()

/-- What the loop over the rows of a change keeps. -/
structure Loop (Value : Type) where
  /-- The encoded key of the next row, which may have failed to encode. -/
  nextGroup : Option (Except AggregateError Bytes)
  pendingGroup : Option PendingGroup
  pendingExtrema : PendingExtrema
  nextGroupId : Option UInt64
  output : List (Row Value × Int)

/-- Stores the next group id, if the change took one. -/
def writeControl (nextGroupId : Option UInt64) : AggregateAttempt Unit :=
  match nextGroupId with
  | none => pure ()
  | some id => do
    StepBudget.charge 8
    modify fun s => { s with state := { s.state with control := some id } }

/-- Keeps the outcome of an attempt whose failure is reported later. -/
def captured {α : Type} (x : AggregateAttempt α) : AggregateAttempt (Except AggregateError α) :=
  fun s => match x s with
    | .ok a t => .ok (.ok a) t
    | .error e t => .ok (.error e) t

/-- A materialized grouped aggregate. -/
structure AggregateOperation (Ty Value : Type) where
  fmt : RowFormat Ty Value
  view : ColumnView fmt
  /-- Whether a change has the bound schema. -/
  bound : Change (Row Value) → Bool
  layout : AggregateLayout Ty Value
  wellFormed : layout.WellFormed view.dataType
  /-- The bits of a sum and a count as a quotient of doubles. -/
  ratio : Int → UInt64 → UInt64
  /-- The column value of a call result. -/
  cell : CallValue → Value
  /-- Memory sizes of a scalar, of a group value and of a call result. -/
  scalarBytes : Nat
  valueBytes : Value → Nat
  callBytes : CallValue → Nat

namespace AggregateOperation

variable {Ty Value : Type} (op : AggregateOperation Ty Value)

def groups : List (BoundExpression Ty Value) := op.layout.groupExpressions

def arguments : List (BoundArgument Ty Value) := op.layout.arguments

/-! ### Evaluation -/

/-- Evaluates expressions over all events, one column at a time. -/
def evaluate (expressions : List ((OperationError → AggregateError) × BoundExpression Ty Value))
    (events : List (Row Value × Int)) : Except AggregateError (List (List Value)) :=
  expressions.mapM fun e => (events.mapM fun event => e.2.expression event.1).mapError e.1

/-- The expressions of a change in evaluation order, each with its failure. -/
def groupExpressions : List ((OperationError → AggregateError) × BoundExpression Ty Value) :=
  op.groups.zipIdx.map fun e => (.groupExpression e.2, e.1)

def argumentExpressions : List ((OperationError → AggregateError) × BoundExpression Ty Value) :=
  op.arguments.map fun a => (.aggregateExpression a.owner, a.expression)

/-- The values of one row. -/
def rowOf (columns : List (List Value)) (row : Nat) : List Value :=
  columns.filterMap (·[row]?)

/-- The rows of evaluated columns. -/
def eventRows (groups arguments : List (List Value)) (events : List (Row Value × Int)) :
    List (EventRow Value) :=
  events.zipIdx.map fun e => ⟨rowOf groups e.2, rowOf arguments e.2, e.1.2⟩

/-- Encodes one value onto a tuple. -/
def encodeValue (field : Relation.Field Ty) (value : Value) (encoded : Bytes) :
    AggregateAttempt Bytes := do
  let limit := (← get).budget.remainingBytes
  let bytes := op.fmt.encode field value limit
  StepBudget.charge bytes.1.length
  MonadExcept.ofExcept (bytes.2.mapError decodeError)
  pure (encoded ++ bytes.1)

/-- Encodes the group key of a row. -/
def encodeTuple : List (BoundExpression Ty Value) → List Value → Bytes → AggregateAttempt Bytes
  | e :: expressions, value :: values, encoded => do
    let encoded ← op.encodeValue e.field value encoded
    encodeTuple expressions values encoded
  | _, _, encoded => pure encoded

/-! ### Groups -/

/-- The state of a group that just became present, under the next id. -/
def newGroupState (control nextGroupId : Option UInt64) :
    Except AggregateError (GroupState × UInt64) :=
  let id := match nextGroupId with
    | some id => id
    | none => control.getD 0
  if id.toNat + 1 < 2 ^ 64 then
    let empty := List.replicate op.layout.counts.statistics (Statistic.count 0)
    let statistics := op.arguments.foldl (fun statistics a => match a.statistic with
      | none => statistics
      | some b => statistics.set b.index b.kind.empty) empty
    .ok (⟨id, 0, statistics, List.replicate op.layout.counts.extrema none⟩, id + 1)
  else .error .groupIdExhausted

/-- The result of one call on the state of a group. -/
def callOutput (state : GroupState) (call : AggregateCall Nat) : Except AggregateError CallValue :=
  let statistic (index : Nat) : Except AggregateError Statistic :=
    match (op.arguments[index]?).bind (·.statistic) with
    | none => .error .panicked
    | some b => match state.statistics[b.index]? with
      | none => .error .panicked
      | some statistic => .ok statistic
  let extreme (index : Nat) (slot : BoundExtrema → Option Nat) : Except AggregateError CallValue :=
    match op.arguments[index]? with
    | none => .error .panicked
    | some a =>
      match ((a.extrema.bind slot).bind (state.extremes[·]?)) with
      | none => .error .panicked
      | some none => .ok (.scalar (.null (op.view.dataType a.expression.field.dataType)))
      | some (some key) =>
        match orderedValue (op.view.dataType a.expression.field.dataType) key with
        | .error _ => .error .invalidState
        | .ok value => .ok (.scalar value)
  match call with
  | .countAll => countValue state.weight
  | .count index => do countValue (← statistic index).tracked
  | .sum index => do (← statistic index).sum
  | .avg index => do (← statistic index).average op.ratio
  | .min index => extreme index (·.minSlot)
  | .max index => extreme index (·.maxSlot)

def groupOutput (state : GroupState) : Except AggregateError (List CallValue) :=
  op.layout.calls.mapM (op.callOutput state)

/-- Applies one event to the statistics. -/
def applyStatisticsRow (difference : Int) : List (BoundArgument Ty Value) → List Value →
    List Statistic → Except AggregateError (List Statistic)
  | a :: arguments, value :: values, statistics =>
    match a.statistic with
    | none => applyStatisticsRow difference arguments values statistics
    | some b => do
      let statistic ← match statistics[b.index]? with
        | none => .error .panicked
        | some statistic => .ok statistic
      if ¬ b.kind.matches statistic then .error .invalidState
      else do
        let value ← (op.view.scalar a.expression.field.dataType value).mapError .dataFusion
        let statistic ← statistic.apply value difference
        if b.countOutput then
          let _ ← countValue statistic.tracked
        if b.sumOutput then match statistic with
          | .count _ => .error .invalidState
          | .signed _ sum =>
            if ¬ (-2 ^ 63 ≤ sum.toInt ∧ sum.toInt < 2 ^ 63) then .error .arithmeticOverflow
          | .unsigned _ sum =>
            if ¬ sum.toNat < 2 ^ 64 then .error .arithmeticOverflow
        applyStatisticsRow difference arguments values (statistics.set b.index statistic)
  | _, _, statistics => .ok statistics

/-- The ordered key of a value; `NULL` has none. -/
def entryKey (a : BoundArgument Ty Value) (value : Value) : Except AggregateError (Option Bytes) :=
  match op.view.scalar a.expression.field.dataType value with
  | .error e => .error (.dataFusion e)
  | .ok (.other _) => .error .invalidState
  | .ok (.ordered scalar) =>
    (orderKey (op.view.dataType a.expression.field.dataType) scalar).mapError fun _ => .invalidState

/-- Applies one event to the ordered partitions and the cached extremes. -/
def applyExtremaRow (group : UInt64) (difference : Int) : List (BoundArgument Ty Value) →
    List Value → List (Option Bytes) → PendingExtrema →
    AggregateAttempt (List (Option Bytes) × PendingExtrema)
  | a :: arguments, value :: values, extremes, pending =>
    match a.extrema with
    | none => applyExtremaRow group difference arguments values extremes pending
    | some layout => do
      StepBudget.charge
        (op.fmt.arrayBytes a.expression.field.dataType [value] * 2 + op.scalarBytes)
      match ← (MonadExcept.ofExcept (op.entryKey a value) : AggregateAttempt _) with
      | none => applyExtremaRow group difference arguments values extremes pending
      | some key => do
        let ((before, after), pending) ← adjustEntry pending layout.partition group key difference
        let extremes ← if before = 0 then do
            StepBudget.charge (key.length * 2)
            MonadExcept.ofExcept (promoteCachedExtreme layout extremes key)
          else pure extremes
        if after = 0 ∧ cachesKey layout extremes key then do
          let pending ← flushSlot layout.partition pending
          let extremes ← refreshCachedExtreme layout ⟨layout.partition, group⟩ key extremes
          applyExtremaRow group difference arguments values extremes pending
        else applyExtremaRow group difference arguments values extremes pending
  | _, _, extremes, pending => pure (extremes, pending)

/-! ### Output -/

/-- Appends one output row. -/
def pushOutput (groups : List Value) (calls : List CallValue) (difference : Int)
    (output : List (Row Value × Int)) : AggregateAttempt (List (Row Value × Int)) := do
  StepBudget.charge ((calls.map op.callBytes).sum + 8)
  groups.forM fun value => StepBudget.charge (op.valueBytes value)
  pure (output ++ [(groups ++ calls.map op.cell, difference)])

/-- The output of a change whose rows have all been taken in. -/
def finishOutput (output : List (Row Value × Int)) :
    AggregateAttempt (Option (Change (Row Value))) :=
  if output = [] then pure none
  else do
    StepBudget.charge ((output.map fun e => (e.1.map op.valueBytes).sum).sum + output.length * 8)
    match Change.tryNew (op.groups.length + op.layout.calls.length) output with
    | none => throw .change
    | some change => pure (some change)

/-! ### One event -/

/-- Ends the run of the pending group if the row belongs to another one. -/
def closeRun (startsRun : Bool) (loop : Loop Value) : AggregateAttempt (Loop Value) :=
  if startsRun then do
    let pendingExtrema ← flushAll op.layout.counts.layouts loop.pendingExtrema
    match loop.pendingGroup with
    | none => pure ()
    | some pending => flushPendingGroup pending
    pure { loop with pendingExtrema, pendingGroup := none }
  else pure loop

/-- Encodes the key of the next row, if there is one. -/
def encodeNext : List (EventRow Value) → AggregateAttempt (Option (Except AggregateError Bytes))
  | [] => pure none
  | next :: _ => do
    let encoded ← captured (op.encodeTuple op.groups next.groups [])
    pure (some encoded)

/-- The state an event starts from: the pending one, or a fresh one for an insertion. -/
def startState (difference : Int) (loop : Loop Value) (pending : PendingGroup) :
    AggregateAttempt (GroupState × Option UInt64) :=
  match pending.state with
  | some state => pure (state, loop.nextGroupId)
  | none =>
    if difference < 0 then throw .groupWeightUnderflow
    else do
      StepBudget.charge (op.layout.counts.statistics * 32 + op.layout.counts.extrema * 8 + 24)
      let (state, next) ← MonadExcept.ofExcept
        (op.newGroupState (← get).state.control loop.nextGroupId)
      pure (state, some next)

/-- The output of a group before an event. -/
def outputBefore (existed : Bool) (state : GroupState) :
    AggregateAttempt (Option (List CallValue)) :=
  if existed then do
    StepBudget.charge (state.logicalBytes + op.layout.calls.length * 64)
    let calls ← MonadExcept.ofExcept (op.groupOutput state)
    pure (some calls)
  else pure none

/-- Applies one event to the state of its group. -/
def applyState (row : EventRow Value) (state : GroupState) (pending : PendingExtrema) :
    AggregateAttempt (GroupState × PendingExtrema) := do
  let weight ← MonadExcept.ofExcept (applyWeight state.weight row.difference .group)
  let (extremes, pending) ←
    if op.layout.counts.layouts > 0 then
      op.applyExtremaRow state.id row.difference op.arguments row.arguments state.extremes pending
    else pure (state.extremes, pending)
  let statistics ←
    if op.layout.counts.statistics > 0 then
      MonadExcept.ofExcept
        (op.applyStatisticsRow row.difference op.arguments row.arguments state.statistics)
    else pure state.statistics
  pure ({ state with weight, extremes, statistics }, pending)

/-- Whether a group of no rows still holds something. -/
def leftover (state : GroupState) : Bool :=
  (state.statistics.any fun statistic => !statistic.isEmpty) || state.extremes.any Option.isSome

/-- Emits what an event changed, and gives the state its group keeps. -/
def emit (row : EventRow Value) (old : Option (List CallValue)) (state : GroupState)
    (loop : Loop Value) : AggregateAttempt (Option GroupState × Loop Value) :=
  if state.weight = 0 then do
    let old ← match old with
      | none => throw .panicked
      | some old => pure old
    let output ← op.pushOutput row.groups old (-1) loop.output
    if leftover state then throw .invalidState
    else do
      let pendingExtrema ← flushAll op.layout.counts.layouts loop.pendingExtrema
      pure (none, { loop with output, pendingExtrema })
  else do
    StepBudget.charge (state.logicalBytes + op.layout.calls.length * 64)
    let new ← MonadExcept.ofExcept (op.groupOutput state)
    match old with
    | none => do
      let output ← op.pushOutput row.groups new 1 loop.output
      pure (some state, { loop with output })
    | some old =>
      if old ≠ new then do
        let output ← op.pushOutput row.groups old (-1) loop.output
        let output ← op.pushOutput row.groups new 1 output
        pure (some state, { loop with output })
      else pure (some state, loop)

/-- Takes one event into its group. -/
def applyPending (row : EventRow Value) (pending : PendingGroup) (loop : Loop Value) :
    AggregateAttempt (Loop Value) := do
  let (state, nextGroupId) ← op.startState row.difference loop pending
  if state.statistics.length ≠ op.layout.counts.statistics ∨
      state.extremes.length ≠ op.layout.counts.extrema then throw .invalidState
  else do
    let old ← op.outputBefore pending.state.isSome state
    let (state, pendingExtrema) ← op.applyState row state loop.pendingExtrema
    let (state, loop) ← op.emit row old state { loop with nextGroupId, pendingExtrema }
    pure { loop with pendingGroup := some { pending with state } }

/-- Takes one event of the change in; `rest` are the events after it. -/
def applyRow (loop : Loop Value) (row : EventRow Value) (rest : List (EventRow Value)) :
    AggregateAttempt (Loop Value) := do
  let group ← match loop.nextGroup with
    | none => throw .panicked
    | some group => MonadExcept.ofExcept group
  let startsRun := (loop.pendingGroup.filter fun pending => pending.key = group).isNone
  let loop ← op.closeRun startsRun loop
  let nextGroup ← op.encodeNext rest
  let loop := { loop with nextGroup }
  let pending ← match loop.pendingGroup with
    | some pending => pure pending
    | none => PendingGroup.load group (match nextGroup with
      | some (.ok next) => decide (next = group)
      | _ => false)
  op.applyPending row pending loop

/-- Writes what the loop still holds. -/
def close (loop : Loop Value) : AggregateAttempt Unit := do
  let _ ← flushAll op.layout.counts.layouts loop.pendingExtrema
  match loop.pendingGroup with
  | none => pure ()
  | some pending => flushPendingGroup pending
  writeControl loop.nextGroupId

/-- Takes a whole change in. -/
def apply (port : Nat) (change : Change (Row Value)) :
    AggregateAttempt (Option (Change (Row Value))) :=
  if port ≠ 0 then throw (.invalidInputPort port)
  else if ¬ op.bound change then throw .inputSchemaMismatch
  else do
    let groups ← MonadExcept.ofExcept (evaluate op.groupExpressions change.events)
    let arguments ← MonadExcept.ofExcept (evaluate op.argumentExpressions change.events)
    (op.groups.zip groups ++ (op.arguments.map (·.expression)).zip arguments).forM fun e =>
      StepBudget.charge (op.fmt.arrayBytes e.1.field.dataType e.2)
    let rows := eventRows groups arguments change.events
    let nextGroup ← op.encodeNext rows
    let loop ← foldTails op.applyRow ⟨nextGroup, none, fun _ => none, none, []⟩ rows
    op.close loop
    op.finishOutput loop.output

/-- The aggregate as an atomic operator. -/
def atomic : AtomicOperation AggregateState (Row Value) :=
  Application.atomic op.apply AggregateError.boxed

end AggregateOperation

end Dogpaddle.Aggregate
