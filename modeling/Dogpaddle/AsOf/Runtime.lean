import Dogpaddle.AsOf.Index
import Dogpaddle.Relation.Order
import Dogpaddle.Store.Partition

/-!
# The ordered join

`AsOfJoinOperation` keeps both input relations in ordered weight maps under the keys of
`Index`. A left event reads the nearest eligible right row of its partition and puts out one
pair. A right event that makes a row appear or disappear corrects every left row whose
winner it changes: those lie in one key range, which is visited in bounded pages. The
position in the range is the caller's (`AsOfCursor`), and the right row is stored when its
last page is complete.

Expressions are row-local; a bound expression is a function of the row that may fail. How a
value is read as a scalar is the `ScalarView` of the join.
-/

namespace Dogpaddle.AsOf

open Lib Store Dogpaddle.Relation

/-- Ordered candidate search direction. -/
inductive AsOfDirection
  | backward (allowExact : Bool)
  | forward (allowExact : Bool)
deriving DecidableEq, Repr

def AsOfDirection.allowExact : AsOfDirection → Bool
  | .backward allowExact | .forward allowExact => allowExact

def AsOfDirection.isForward : AsOfDirection → Bool
  | .backward _ => false
  | .forward _ => true

/-- Failure during one join step. -/
inductive AsOfJoinError
  | budget
  | invalidInputPort (port : Nat)
  | inputSchemaMismatch (port : Nat)
  | expression (role : String) (index port : Nat) (source : OperationError)
  | negativeWeight
  | weightOverflow
  | outputDifferenceOverflow
  | ambiguousTie
  | index (source : IndexCodecError)
  | invalidResume (reason : String)
  | canonicalRow (source : RowError)
  | scalar (source : OperationError)
  | order (source : OrderError)
  | change
deriving DecidableEq, Repr

instance : RowFailure AsOfJoinError where
  budgetExceeded := .budget
  ofRow := .canonicalRow

/-- The boxed form of a join failure. -/
def AsOfJoinError.boxed : AsOfJoinError → OperationError
  | .budget => .budgetExceeded
  | .invalidInputPort port => .message s!"ASOF join does not accept input port {port}"
  | .inputSchemaMismatch port =>
    .message s!"ASOF join input {port} Schema differs from its bound Schema"
  | .expression role key port source =>
    .wrapped s!"ASOF join {role} expression {key} failed for input {port}" source
  | .negativeWeight => .message "ASOF join input would make an exact row weight negative"
  | .weightOverflow => .message "ASOF join row weight overflow"
  | .outputDifferenceOverflow => .message "ASOF join output difference overflow"
  | .ambiguousTie => .message "ASOF join winning right order value is ambiguous"
  | .index .truncatedComponent => .message "ASOF index component is truncated"
  | .index .invalidEscape => .message "ASOF index component escape is invalid"
  | .invalidResume reason => .message s!"ASOF join resume is invalid: {reason}"
  | .canonicalRow _ => .message "row"
  | .scalar source => source
  | .order _ => .message "ordered key"
  | .change => .message "join output violates the change invariant"

/-- An expression bound to one input and its column. -/
structure BoundScalar (Ty Value : Type) where
  expression : Row Value → Except OperationError Value
  field : Relation.Field Ty

/-- The two sides of a key; binding admits one exact common type only. -/
structure BoundPair (Ty Value : Type) where
  left : BoundScalar Ty Value
  right : BoundScalar Ty Value
  sameType : left.field.dataType = right.field.dataType

def BoundPair.forPort {Ty Value : Type} (pair : BoundPair Ty Value) (port : Nat) :
    BoundScalar Ty Value :=
  if port = 0 then pair.left else pair.right

structure AsOfJoinOperation (Ty Value : Type) where
  fmt : RowFormat Ty Value
  view : ScalarView fmt
  direction : AsOfDirection
  leftSchema : Schema Ty
  rightSchema : Schema Ty
  /-- Whether a change has the schema bound to a port. -/
  bound : Nat → Change (Row Value) → Bool
  equalities : List (BoundPair Ty Value)
  order : BoundPair Ty Value

/-- The durable data of a join. -/
structure AsOfState where
  leftRows : OrdMap Bytes ℕ+
  rightRows : OrdMap Bytes ℕ+

def AsOfState.initial : AsOfState := ⟨.empty, .empty⟩

/-- The rows of one port. -/
def AsOfState.rows (s : AsOfState) (port : Nat) : OrdMap Bytes ℕ+ :=
  if port = 0 then s.leftRows else s.rightRows

/-- Sets a multiplicity of one port. -/
def AsOfState.setRow (s : AsOfState) (port : Nat) (key : Bytes) (weight : Nat) : AsOfState :=
  if port = 0 then { s with leftRows := setMultiplicity s.leftRows key weight }
  else { s with rightRows := setMultiplicity s.rightRows key weight }

/-- An event with its index key; a `NULL` key part makes it unmatchable. -/
structure PreparedRow where
  key : Bytes
  partition : Bytes
  order : Bytes
  matchable : Bool
  difference : Int
deriving DecidableEq

structure Winner where
  key : Bytes
  row : Bytes
deriving DecidableEq

structure Candidates where
  winner : Option Winner := none
  ambiguous : Bool := false

def Candidates.checked (candidates : Candidates) : Except AsOfJoinError (Option Winner) :=
  if candidates.ambiguous then .error .ambiguousTie else .ok candidates.winner

abbrev Range := EncodedBound Bytes × EncodedBound Bytes

abbrev AsOfAttempt (α : Type) := Attempt AsOfJoinError AsOfState α

def checkedWeight (before : Nat) (difference : Int) : Except AsOfJoinError Nat :=
  if difference ≥ 0 then
    if before + difference.natAbs < 2 ^ 64 then .ok (before + difference.natAbs)
    else .error .weightOverflow
  else if difference.natAbs ≤ before then .ok (before - difference.natAbs)
  else .error .negativeWeight

/-! ## Ranges of the indexes -/

/-- The end after every key with a prefix. -/
def upToPrefix (bytes : Bytes) : EncodedBound Bytes := (prefixSuccessor bytes).map fun t => (t, false)

/-- The start after every key with a prefix. -/
def afterPrefix (bytes : Bytes) : EncodedBound Bytes := (prefixSuccessor bytes).map fun t => (t, true)

/-- The start at the first key with a prefix. -/
def fromPrefix (bytes : Bytes) : EncodedBound Bytes := some (bytes, true)

/-- The end before the first key with a prefix. -/
def beforePrefix (bytes : Bytes) : EncodedBound Bytes := some (bytes, false)

def rangeForPartition (partition : Bytes) : Range :=
  (fromPrefix (matchablePartitionPrefix partition),
    upToPrefix (matchablePartitionPrefix partition))

def rangeContains (range : Range) (key : Bytes) : Bool :=
  withinLower key range.1 && withinUpper key range.2

/-- Lifts an index failure. -/
def liftIndex {α : Type} (x : Except IndexCodecError α) : AsOfAttempt α :=
  MonadExcept.ofExcept (x.mapError AsOfJoinError.index)

/-- One page of a range. -/
def scan (rows : OrdMap Bytes ℕ+) (range : Range) (direction : ScanDirection)
    (resume : Option Bytes) (items : Nat) (hitems : 0 < items) :
    AsOfAttempt (OrderedMapPage Bytes ℕ+) := do
  let budget := (← get).budget
  match Store.scan rows (fun e => e.1.length + 8) range.1 range.2 direction resume
    ⟨items, max budget.remainingBytes 1, hitems, by omega⟩ with
  | .error (.itemTooLarge _ _) => throw .budget
  | .ok page => do
    StepBudget.charge ((page.entries.map fun e => e.1.length + 8).sum)
    pure page

namespace AsOfJoinOperation

variable {Ty Value : Type} [DecidableEq Value] (op : AsOfJoinOperation Ty Value)

def schema (port : Nat) : Schema Ty := if port = 0 then op.leftSchema else op.rightSchema

def inputSchemas : List (Schema Ty) := [op.leftSchema, op.rightSchema]

/-- The width of the output schema. -/
def columns : Nat := (op.inputSchemas.map List.length).sum

/-! ## Preparing a window -/

/-- Encodes one equality value onto its row's partition. -/
def encodeEquality (field : Relation.Field Ty) (value : Value) (row : PreparedRow) :
    AsOfAttempt PreparedRow := do
  let limit := (← get).budget.remainingBytes
  let encoded := op.fmt.encode field value limit
  StepBudget.charge encoded.1.length
  MonadExcept.ofExcept (encoded.2.mapError decodeError)
  pure { row with
    partition := row.partition ++ encoded.1
    matchable := row.matchable && decide (value ≠ op.fmt.null) }

/-- Encodes one evaluated equality column. -/
def encodeColumn (field : Relation.Field Ty) : List Value → List PreparedRow →
    AsOfAttempt (List PreparedRow)
  | value :: values, row :: rows => do
    let row ← op.encodeEquality field value row
    let rows ← encodeColumn field values rows
    pure (row :: rows)
  | _, _ => pure []

/-- Evaluates and encodes the equality columns, one at a time. -/
def prepareEqualities (port : Nat) (events : List (Row Value × Int)) :
    Nat → List (BoundPair Ty Value) → List PreparedRow → AsOfAttempt (List PreparedRow)
  | _, [], rows => pure rows
  | index, pair :: pairs, rows => do
    let scalar := pair.forPort port
    let column ← MonadExcept.ofExcept ((events.mapM fun e => scalar.expression e.1).mapError
      (AsOfJoinError.expression "equality" index port))
    StepBudget.charge (op.fmt.arrayBytes scalar.field.dataType column)
    let rows ← op.encodeColumn scalar.field column rows
    prepareEqualities port events (index + 1) pairs rows

/-- The order tuple of a value: marked, with a component unless it is `NULL`. -/
def orderComponent (ty : Ty) (value : Value) : Except AsOfJoinError (Option Bytes) :=
  match op.view.scalar ty value with
  | .error e => .error (.scalar e)
  | .ok scalar => (orderKey (op.view.dataType ty) scalar).mapError AsOfJoinError.order

def orderTuple : Option Bytes → Bytes
  | none => [0]
  | some component => 1 :: frame component

/-- Adds the order tuple and the exact row, which complete the key. -/
def encodeOrder (port : Nat) (field : Relation.Field Ty) (value : Value) (row : Row Value)
    (prepared : PreparedRow) : AsOfAttempt PreparedRow := do
  StepBudget.charge (op.fmt.arrayBytes field.dataType [value] * 4 + 2)
  let component ← MonadExcept.ofExcept (op.orderComponent field.dataType value)
  let order := orderTuple component
  let limit := (← get).budget.remainingBytes
  let exactSize ← MonadExcept.ofExcept
    ((op.fmt.canonicalRowSizeBounded (op.schema port) row limit).mapError decodeError)
  StepBudget.charge
    (exactSize + ((prepared.partition.length + order.length + exactSize) * 2 + 8))
  let exact ← MonadExcept.ofExcept
    ((op.fmt.canonicalRowBounded (op.schema port) row exactSize).mapError
      AsOfJoinError.canonicalRow)
  pure { prepared with
    order
    matchable := prepared.matchable && component.isSome
    key := rowKey prepared.partition order exact }

/-- Completes the rows of a window. -/
def encodeOrders (port : Nat) (field : Relation.Field Ty) :
    List Value → List (Row Value × Int) → List PreparedRow → AsOfAttempt (List PreparedRow)
  | value :: values, event :: events, row :: rows => do
    let row ← op.encodeOrder port field value event.1 row
    let rows ← encodeOrders port field values events rows
    pure (row :: rows)
  | _, _, _ => pure []

/-- Prepares the events of a window. -/
def prepare (port : Nat) (events : List (Row Value × Int)) : AsOfAttempt (List PreparedRow) := do
  StepBudget.charge (events.length * 88)
  let rows := events.map fun e => ⟨[], [], [0], true, e.2⟩
  let rows ← op.prepareEqualities port events 0 op.equalities rows
  let scalar := op.order.forPort port
  let column ← MonadExcept.ofExcept ((events.mapM fun e => scalar.expression e.1).mapError
    (AsOfJoinError.expression "order" 0 port))
  StepBudget.charge (op.fmt.arrayBytes scalar.field.dataType column)
  op.encodeOrders port scalar.field column events rows

/-! ## Positions -/

def validateInput (port : Nat) (change : Change (Row Value)) : Except AsOfJoinError Unit :=
  if port > 1 then .error (.invalidInputPort port)
  else if ¬ op.bound port change then .error (.inputSchemaMismatch port)
  else .ok ()

/-- The cursor of a position inside the input. -/
def cursor (port : Nat) (change : Change (Row Value)) (resume : Resume) :
    Except AsOfJoinError AsOfCursor :=
  match op.validateInput port change with
  | .error e => .error e
  | .ok () =>
    match resume.cursor with
    | .asOf cursor =>
      if resume.ordinal ≥ change.numRows ∨ (port = 0 ∧ cursor.leftResumeAfter.isSome) then
        .error (.invalidResume "cursor is outside input or wrong port")
      else .ok cursor
    | _ => .error (.invalidResume "cursor belongs to another kernel")

/-- Whether a right row with the second order is eligible for a left row with the first. -/
def eligible (left right : Bytes) : Bool :=
  match op.direction with
  | .backward allowExact => decide (right < left) || (allowExact && decide (left = right))
  | .forward allowExact => decide (left < right) || (allowExact && decide (left = right))

/-- A cursor must name a left row that the driving right row can influence. -/
def validateCursorBinding (cursor : AsOfCursor) (driving : PreparedRow) : AsOfAttempt Unit :=
  match cursor.leftResumeAfter with
  | none => pure ()
  | some key => do
    StepBudget.charge (key.length * 2)
    let parsed ← MonadExcept.ofExcept ((parseRowKey key).mapError
      fun _ => AsOfJoinError.invalidResume "left key framing is invalid")
    if ¬ driving.matchable ∨ parsed.partition ≠ driving.partition ∨
        parsed.order.head? ≠ some 1 ∨ ¬ op.eligible parsed.order driving.order then
      throw (.invalidResume "left cursor is outside the driving influence interval")
    else do
      admitBatchShape op.fmt op.leftSchema
      admitRow op.fmt op.leftSchema parsed.row
      let _ ← MonadExcept.ofExcept ((op.fmt.decodeRow op.leftSchema parsed.row).mapError
        AsOfJoinError.canonicalRow)

/-! ## Right rows -/

/-- The winner a key stands for. -/
def winnerOf (key : Bytes) : AsOfAttempt Winner := do
  let row ← liftIndex (rowSuffix key)
  pure ⟨key, row⟩

/-- The first key of a bucket; a second one makes it ambiguous. -/
def bucketWinner (keys : List Bytes) : AsOfAttempt Candidates :=
  match keys with
  | [] => pure {}
  | key :: rest => do
    let winner ← winnerOf key
    pure ⟨some winner, !rest.isEmpty⟩

/-- The keys with one row added or taken away. -/
def overlaid (overlay : Option (Bytes × Bool)) (keys : List Bytes) : List Bytes :=
  match overlay with
  | none => keys
  | some (key, present) => (keys.filter fun k => decide (k ≠ key)) ++ if present then [key] else []

/-- The right rows of one order value, with one row as it is after its event. -/
def bucket (partition order : Bytes) (overlay : Option (Bytes × Bool)) :
    AsOfAttempt Candidates := do
  let s ← get
  let page ← scan s.state.rightRows
    (fromPrefix (orderPrefix partition order), upToPrefix (orderPrefix partition order))
    .ascending none 3 (by decide)
  if page.continuation.isSome ∧ page.entries.length < 3 then throw .budget
  else bucketWinner (overlaid overlay (page.entries.map (·.1)))

def scanDirection (forward : Bool) : ScanDirection := if forward then .ascending else .descending

/-- The range of the right rows beyond a row's order value. -/
def neighborRange (row : PreparedRow) (forward : Bool) : Range :=
  if forward then
    (afterPrefix (orderPrefix row.partition row.order), (rangeForPartition row.partition).2)
  else ((rangeForPartition row.partition).1, beforePrefix (orderPrefix row.partition row.order))

/-- The order value next to a right row. -/
def neighbor (row : PreparedRow) (forward : Bool) : AsOfAttempt (Option Bytes) := do
  let s ← get
  let page ← scan s.state.rightRows (neighborRange row forward) (scanDirection forward) none 1
    (by decide)
  match page.entries with
  | [] => pure none
  | entry :: _ => do
    let parsed ← liftIndex (parseRowKey entry.1)
    pure (some parsed.order)

/-- The eligible right rows of a left row. -/
def selectRange (left : PreparedRow) : Range :=
  let at_ := orderPrefix left.partition left.order
  let partition := rangeForPartition left.partition
  if op.direction.isForward then
    (if op.direction.allowExact then fromPrefix at_ else afterPrefix at_, partition.2)
  else (partition.1, if op.direction.allowExact then upToPrefix at_ else beforePrefix at_)

/-- The winner of a left row: the nearest eligible key, ambiguous if the next one has the
same order value. -/
def selected : List (Bytes × ℕ+) → AsOfAttempt Candidates
  | [] => pure {}
  | [first] => do
    let parsed ← liftIndex (parseRowKey first.1)
    pure ⟨some ⟨first.1, parsed.row⟩, false⟩
  | first :: second :: _ => do
    let parsed ← liftIndex (parseRowKey first.1)
    let next ← liftIndex (parseRowKey second.1)
    pure ⟨some ⟨first.1, parsed.row⟩, decide (next.order = parsed.order)⟩

def select (left : PreparedRow) : AsOfAttempt Candidates :=
  if ¬ left.matchable then pure {}
  else do
    let s ← get
    let page ← scan s.state.rightRows (op.selectRange left)
      (scanDirection op.direction.isForward) none 2 (by decide)
    if page.continuation.isSome ∧ page.entries.length < 2 then throw .budget
    else selected page.entries

def applyWeight (port : Nat) (row : PreparedRow) (after : Nat) : AsOfAttempt Unit := do
  StepBudget.charge (row.key.length + 8)
  modify fun s => { s with state := s.state.setRow port row.key after }

/-- The left rows whose winner a right row can change: up to the next right order value on
the side they come from. -/
def affectedRange (right : PreparedRow) (outerNeighbor : Option Bytes) : Range :=
  let at_ := orderPrefix right.partition right.order
  let inclusive := op.direction.allowExact
  let partition := rangeForPartition right.partition
  let outer := fun order => orderPrefix right.partition order
  if op.direction.isForward then
    (match outerNeighbor with
      | none => partition.1
      | some order => if inclusive then afterPrefix (outer order) else fromPrefix (outer order),
      if inclusive then upToPrefix at_ else beforePrefix at_)
  else
    (if inclusive then fromPrefix at_ else afterPrefix at_,
      match outerNeighbor with
      | none => partition.2
      | some order => if inclusive then beforePrefix (outer order) else upToPrefix (outer order))

/-- The correction of one left row: out with the old winner, in with the new one. -/
def correction (old new : Option Winner) (entry : Bytes × ℕ+) :
    List (Except AsOfJoinError Item) :=
  let item := fun (winner : Option Winner) (sign : Int) =>
    match rowSuffix entry.1 with
    | .error e => .error (AsOfJoinError.index e)
    | .ok row =>
      if (entry.2 : Nat) < 2 ^ 63 then
        .ok (([some row, winner.map (·.row)] : List (Option Bytes)), sign * ((entry.2 : Nat) : Int))
      else .error .outputDifferenceOverflow
  [item old (-1), item new 1]

/-- The position must be in the range and name a stored left row. -/
def checkPosition (range : Range) (cursor : AsOfCursor) : AsOfAttempt Unit :=
  match cursor.leftResumeAfter with
  | none => pure ()
  | some key =>
    if ¬ rangeContains range key then
      throw (.invalidResume "left cursor exceeds the adjacent influence interval")
    else do
      StepBudget.charge (key.length + 8)
      if ((← get).state.leftRows.get? key).isNone then
        throw (.invalidResume "left cursor row is absent")
      else pure ()

/-- What fills the place of an empty bucket. -/
def replacementBucket (right : PreparedRow) (order : Option Bytes) (needed : Bool) :
    AsOfAttempt Candidates :=
  match order with
  | some order => if needed then bucket right.partition order none else pure {}
  | none => pure {}

/-- The winners before and after a right event, for the rows of its range. -/
def winners (right : PreparedRow) (present : Bool) (replacementOrder : Option Bytes) :
    AsOfAttempt (Option Winner × Option Winner) := do
  let oldBucket ← bucket right.partition right.order none
  let newBucket ← bucket right.partition right.order (some (right.key, present))
  let replacement ← replacementBucket right replacementOrder
    (oldBucket.winner.isNone || newBucket.winner.isNone)
  let replacement ← MonadExcept.ofExcept replacement.checked
  let old ← MonadExcept.ofExcept oldBucket.checked
  let new ← MonadExcept.ofExcept newBucket.checked
  pure (old.or replacement, new.or replacement)

/-- The corrections of a page of left rows. -/
def correctPage (right : PreparedRow) (present : Bool) (replacementOrder : Option Bytes)
    (entries : List (Bytes × ℕ+)) (output : ArrowOutput Value) :
    AsOfAttempt (ArrowOutput Value) :=
  if entries.isEmpty then pure output
  else do
    let (old, new) ← winners right present replacementOrder
    if old.map (·.key) ≠ new.map (·.key) then
      output.extend op.fmt op.inputSchemas (entries.flatMap (correction old new))
    else pure output

/-- One page of a right event. The flag says whether the event is complete. -/
def rightPage (right : PreparedRow) (before after : Nat) (cursor : AsOfCursor)
    (output : ArrowOutput Value) : AsOfAttempt (AsOfCursor × ArrowOutput Value × Bool) := do
  if ¬ right.matchable ∨ (before ≠ 0 ↔ after ≠ 0) then
    if cursor.leftResumeAfter.isSome then
      throw (.invalidResume "non-presence event has a left cursor")
    else do
      StepBudget.consumeHead 1
      applyWeight 1 right after
      pure (cursor, output, true)
  else do
    let forward := op.direction.isForward
    let outerNeighbor ← neighbor right (!forward)
    let replacementOrder ← neighbor right forward
    let range := op.affectedRange right outerNeighbor
    checkPosition range cursor
    let s ← get
    let page ← scan s.state.leftRows range .ascending cursor.leftResumeAfter
      (max s.budget.headRemaining 1) (by omega)
    StepBudget.consumeHead (max page.entries.length 1)
    let output ← op.correctPage right (after ≠ 0) replacementOrder page.entries output
    match page.continuation with
    | some key => pure (⟨some key⟩, output, false)
    | none => do
      applyWeight 1 right after
      pure (⟨none⟩, output, true)

/-! ## One window -/

/-- The loop variables of a window. -/
structure Driving (Value : Type) where
  cursor : AsOfCursor
  output : ArrowOutput Value
  next : Nat

/-- A left event: one pair with its winner. -/
def leftRow (row : PreparedRow) (after : Nat) (output : ArrowOutput Value) :
    AsOfAttempt (ArrowOutput Value) := do
  let candidates ← op.select row
  let winner ← MonadExcept.ofExcept candidates.checked
  let left ← liftIndex (rowSuffix row.key)
  let output ← output.extend op.fmt op.inputSchemas
    [.ok ([some left, winner.map (·.row)], row.difference)]
  applyWeight 0 row after
  StepBudget.consumeHead 1
  pure output

/-- Drives one row. The flag says whether it is complete. -/
def driveRow (port : Nat) (row : PreparedRow) (v : Driving Value) :
    AsOfAttempt (Driving Value × Bool) := do
  StepBudget.charge (row.key.length + 8)
  let before := multiplicity ((← get).state.rows port) row.key
  let after ← MonadExcept.ofExcept (checkedWeight before row.difference)
  if port = 0 then do
    let output ← op.leftRow row after v.output
    pure ({ v with output, next := v.next + 1 }, true)
  else do
    let (cursor, output, complete) ← op.rightPage row before after v.cursor v.output
    pure ({ cursor, output, next := if complete then v.next + 1 else v.next }, complete)

/-- Drives the rows of a window until the items are used up or a row is not complete. -/
def driveWindow (port : Nat) : List PreparedRow → Driving Value → AsOfAttempt (Driving Value)
  | [], v => pure v
  | row :: rows, v => do
    if (← get).budget.headRemaining = 0 then pure v
    else do
      let (v, complete) ← op.driveRow port row v
      if complete then driveWindow port rows v else pure v

/-- One bounded page of an input. -/
def step (port : Nat) (change : Change (Row Value)) (resume : Resume) :
    AsOfAttempt (Step (Row Value)) := do
  let cursor ← MonadExcept.ofExcept (op.cursor port change resume)
  let start := resume.ordinal
  let length := min (← get).budget.headRemaining (change.numRows - start)
  if length = 0 then throw .budget
  else do
    let window ← op.prepare port ((change.events.drop start).take length)
    match window with
    | [] => throw .change
    | driving :: _ => op.validateCursorBinding cursor driving
    let v ← op.driveWindow port window ⟨cursor, .empty, start⟩
    let progress := if v.next = change.numRows then Progress.done
      else Progress.more ⟨v.next, .asOf v.cursor⟩
    if progress = .more resume then throw .budget
    else do
      let output ← MonadExcept.ofExcept (v.output.finish op.columns AsOfJoinError.change)
      pure ⟨output, progress⟩

/-- Validates a position against a complete input. -/
def validateResume (port : Nat) (change : Change (Row Value)) (resume : Resume) :
    Except AsOfJoinError Unit :=
  match op.cursor port change resume with
  | .error e => .error e
  | .ok cursor =>
    if cursor.leftResumeAfter.isNone then .ok ()
    else
      let check : AsOfAttempt Unit := do
        match ← op.prepare port ((change.events.drop resume.ordinal).take 1) with
        | [] => throw .change
        | driving :: _ => op.validateCursorBinding cursor driving
      match check ⟨.initial, 1, 4 * 1024 * 1024⟩ with
      | .ok () _ => .ok ()
      | .error e _ => .error e

/-- The initial position of an input. -/
def initialResume : Resume := ⟨0, .asOf ⟨none⟩⟩

/-- The join as a paged operator. -/
def paged : PagedOperation AsOfState (Row Value) where
  initialResume := initialResume
  validateResume port change resume :=
    (op.validateResume port change resume).mapError AsOfJoinError.boxed
  step port change resume :=
    EStateM.adaptExcept AsOfJoinError.boxed (op.step port change resume)

end AsOfJoinOperation

end Dogpaddle.AsOf
