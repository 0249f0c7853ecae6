import Dogpaddle.Relation.Row
import Dogpaddle.Store.Partition

/-!
# The equality join

`EquiJoinOperation` keeps both input relations in partitioned weight maps: the
partition is the encoded key tuple, the local key the canonical row. Each event of
an input is driven through the opposite partition in bounded pages; the caller
owns the position (`JoinCursor`) and the driving row is stored when its last page
is complete.

Without a residual predicate, presence of the whole key partition decides
unmatched rows. With one, `matchCounts` stores for each row of a tracked port the
number of opposite rows that qualify with it.

Key and residual expressions are row-local; a bound expression is a function of
the row that may fail.
-/

namespace Dogpaddle.EquiJoin

open Lib Store Dogpaddle.Relation

/-- Relational output semantics of an equality join. -/
inductive EquiJoinKind
  | inner
  | leftSemi
  | leftAnti
  | leftOuter
  | fullOuter
deriving DecidableEq, Repr

def EquiJoinKind.leftOnly : EquiJoinKind → Bool
  | .leftSemi | .leftAnti => true
  | _ => false

def EquiJoinKind.preserves (kind : EquiJoinKind) (port : Nat) : Bool :=
  match kind with
  | .fullOuter => true
  | .leftOuter => port == 0
  | _ => false

/-- Failure during one join step. -/
inductive EquiJoinError
  | budget
  | invalidInputPort (port : Nat)
  | inputSchemaMismatch (port : Nat)
  | keyExpression (port key : Nat) (source : OperationError)
  | residualExpression (source : OperationError)
  | negativeWeight
  | weightOverflow
  | matchCountOverflow
  | matchCountUnderflow
  | invalidMatchCount (reason : String)
  | outputDifferenceOverflow
  | invalidResume (reason : String)
  | canonicalRow (source : RowError)
  | change
deriving DecidableEq, Repr

instance : RowFailure EquiJoinError where
  budgetExceeded := .budget
  ofRow := .canonicalRow

/-- The boxed form of a join failure. -/
def EquiJoinError.boxed : EquiJoinError → OperationError
  | .budget => .budgetExceeded
  | .invalidInputPort port => .message s!"equi-join does not accept input port {port}"
  | .inputSchemaMismatch port =>
    .message s!"equi-join input {port} Schema differs from its bound Schema"
  | .keyExpression port key source =>
    .wrapped s!"equi-join key expression {key} failed for input {port}" source
  | .residualExpression source =>
    .wrapped "equi-join residual predicate evaluation failed" source
  | .negativeWeight => .message "equi-join input would make an exact row weight negative"
  | .weightOverflow => .message "equi-join row weight overflow"
  | .matchCountOverflow => .message "equi-join match count overflow"
  | .matchCountUnderflow => .message "equi-join match count underflow"
  | .invalidMatchCount reason => .message s!"equi-join match count is invalid: {reason}"
  | .outputDifferenceOverflow => .message "equi-join output difference overflow"
  | .invalidResume reason => .message s!"equi-join resume is invalid: {reason}"
  | .canonicalRow _ => .wrapped "equi-join canonical row processing failed" (.message "row")
  | .change => .message "join output violates the change invariant"

/-- A key expression bound to one input and its column. -/
structure BoundKey (Ty Value : Type) where
  expression : Row Value → Except OperationError Value
  field : Relation.Field Ty

/-- The two sides of one equality; binding admits one exact common type only. -/
structure BoundKeyPair (Ty Value : Type) where
  left : BoundKey Ty Value
  right : BoundKey Ty Value
  sameType : left.field.dataType = right.field.dataType

def BoundKeyPair.forPort {Ty Value : Type} (pair : BoundKeyPair Ty Value) (port : Nat) :
    BoundKey Ty Value :=
  if port = 0 then pair.left else pair.right

/-- A materialized equality join. -/
structure EquiJoinOperation (Ty Value : Type) where
  fmt : RowFormat Ty Value
  kind : EquiJoinKind
  leftSchema : Schema Ty
  rightSchema : Schema Ty
  /-- Whether a change has the schema bound to a port. -/
  bound : Nat → Change (Row Value) → Bool
  keys : List (BoundKeyPair Ty Value)
  residual : Option (Row Value → Except OperationError (Option Bool))

/-- The durable data of a join. -/
structure JoinState where
  leftRows : PartitionedMap ℕ+
  rightRows : PartitionedMap ℕ+
  matchCounts : OrdMap Bytes Nat

def JoinState.initial : JoinState := ⟨fun _ => .empty, fun _ => .empty, .empty⟩

/-- How the presence of a key changes with the driving row. -/
inductive KeyTransition
  | none
  | first
  | last
deriving DecidableEq, Repr

/-- How the support of one opposite row changes. -/
inductive MatchTransition
  | none
  | becameMatched
  | becameUnmatched
deriving DecidableEq, Repr

structure RowEffect where
  matched : Bool
  transition : KeyTransition
deriving DecidableEq

/-- A driving event: canonical row, encoded key tuple, whether all keys are non-null. -/
structure PreparedRow where
  row : Bytes
  key : Bytes
  matchable : Bool
  difference : Int
deriving DecidableEq

structure PreparedMatch where
  row : Bytes
  multiplicity : Nat
  transition : MatchTransition
deriving DecidableEq

structure ResidualPage where
  matchRows : List PreparedMatch
  qualifying : Nat
  continuation : Option Bytes
  items : Nat

abbrev JoinAttempt (α : Type) := Attempt EquiJoinError JoinState α

/-- The rows of one port. -/
def JoinState.rows (s : JoinState) (port : Nat) : PartitionedMap ℕ+ :=
  if port = 0 then s.leftRows else s.rightRows

/-- Sets a multiplicity in one partition of a port. -/
def JoinState.setRow (s : JoinState) (port : Nat) (key row : Bytes) (weight : Nat) : JoinState :=
  let update := fun rows : PartitionedMap ℕ+ =>
    Function.update rows key (setMultiplicity (rows key) row weight)
  if port = 0 then { s with leftRows := update s.leftRows }
  else { s with rightRows := update s.rightRows }

/-- The key of one row's committed qualifying-match count. -/
def actualMatchKey (port : Nat) (row : Bytes) : Bytes := UInt8.ofNat port :: row

/-! ## Checked arithmetic -/

def adjustedWeight (weight : Nat) (difference : Int) : Except EquiJoinError Nat :=
  if difference > 0 then
    if weight + difference.natAbs < 2 ^ 64 then .ok (weight + difference.natAbs)
    else .error .weightOverflow
  else if difference.natAbs ≤ weight then .ok (weight - difference.natAbs)
  else .error .negativeWeight

def adjustMatchCount (count : Nat) (transition : KeyTransition) (amount : Nat) :
    Except EquiJoinError Nat :=
  match transition with
  | .none => .ok count
  | .first => if count + amount < 2 ^ 64 then .ok (count + amount) else .error .matchCountOverflow
  | .last => if amount ≤ count then .ok (count - amount) else .error .matchCountUnderflow

def matchTransition (before after : Nat) : MatchTransition :=
  if before = 0 ∧ after ≠ 0 then .becameMatched
  else if before ≠ 0 ∧ after = 0 then .becameUnmatched
  else .none

def outputDifference (difference : Int) : Except EquiJoinError Int :=
  if -2 ^ 63 ≤ difference ∧ difference < 2 ^ 63 then .ok difference
  else .error .outputDifferenceOverflow

/-- An output item whose difference is checked against the signed 64-bit range. -/
def checkedItem (item : Item) : Except EquiJoinError Item :=
  match outputDifference item.2 with
  | .error e => .error e
  | .ok difference => .ok (item.1, difference)

def storedRowBytes (row : PreparedRow) : Nat := partitionBytes row.key + 8 + row.row.length

def scannedBytes (row : PreparedRow) (matchRows : List (Bytes × ℕ+)) : Nat :=
  (matchRows.map fun m => partitionBytes row.key + m.1.length + 8).sum

def canStart (budget : StepBudget) (row : PreparedRow) : Bool :=
  decide (0 < budget.headRemaining ∧ storedRowBytes row ≤ budget.remainingBytes)

def exhausted (budget : StepBudget) : Bool :=
  budget.headRemaining == 0 || budget.remainingBytes == 0

def maxScanItems (budget : StepBudget) (row : PreparedRow) (repeatsInput : Bool) : Nat :=
  if repeatsInput then
    min (max budget.headRemaining 1) (max (budget.remainingBytes / 2 / max row.row.length 1) 1)
  else max budget.headRemaining 1

def scanBytes (budget : StepBudget) : Nat := max (budget.remainingBytes / 2) 1

theorem maxScanItems_pos (budget : StepBudget) (row : PreparedRow) (repeatsInput : Bool) :
    0 < maxScanItems budget row repeatsInput := by
  unfold maxScanItems
  split <;> omega

theorem scanBytes_pos (budget : StepBudget) : 0 < scanBytes budget := by
  unfold scanBytes
  omega

/-! ## Match counts -/

def actualMatchCount (counts : OrdMap Bytes Nat) (port : Nat) (row : Bytes) :
    Except EquiJoinError Nat :=
  match counts.get? (actualMatchKey port row) with
  | some 0 => .error (.invalidMatchCount "committed match count is zero instead of absent")
  | some value => .ok value
  | none => .ok 0

def adjustActualMatchCount (counts : OrdMap Bytes Nat) (port : Nat) (row : Bytes)
    (transition : KeyTransition) (amount : Nat) :
    Except EquiJoinError (OrdMap Bytes Nat × MatchTransition) :=
  match actualMatchCount counts port row with
  | .error e => .error e
  | .ok before =>
    match adjustMatchCount before transition amount with
    | .error e => .error e
    | .ok after =>
      let key := actualMatchKey port row
      .ok (if after = 0 then counts.erase key else counts.put key after,
        matchTransition before after)

namespace EquiJoinOperation

variable {Ty Value : Type} [DecidableEq Value] (op : EquiJoinOperation Ty Value)

def schema (port : Nat) : Schema Ty := if port = 0 then op.leftSchema else op.rightSchema

/-- The schemas whose fragments make an output row. -/
def outputSchemas : List (Schema Ty) :=
  if op.kind.leftOnly then [op.leftSchema] else [op.leftSchema, op.rightSchema]

/-- The width of the output schema. -/
def columns : Nat := (op.outputSchemas.map List.length).sum

/-- Whether the join stores match counts. -/
def hasMatchCounts : Bool := op.kind != .inner && op.residual.isSome

def tracksMatchCount (port : Nat) : Bool :=
  match op.kind with
  | .inner => false
  | .fullOuter => true
  | .leftSemi | .leftAnti | .leftOuter => port == 0

/-! ## Preparing a window -/

/-- Encodes one key value onto its row's key tuple. -/
def encodeKey (field : Relation.Field Ty) (value : Value) (row : PreparedRow) :
    JoinAttempt PreparedRow := do
  let limit := (← get).budget.remainingBytes
  let encoded := op.fmt.encode field value limit
  StepBudget.charge encoded.1.length
  MonadExcept.ofExcept (encoded.2.mapError decodeError)
  pure { row with
    key := row.key ++ encoded.1
    matchable := row.matchable && decide (value ≠ op.fmt.null) }

/-- Encodes one evaluated key column. -/
def encodeColumn (field : Relation.Field Ty) : List Value → List PreparedRow →
    JoinAttempt (List PreparedRow)
  | value :: values, row :: rows => do
    let row ← op.encodeKey field value row
    let rows ← encodeColumn field values rows
    pure (row :: rows)
  | _, _ => pure []

/-- Evaluates and encodes the key columns, one at a time. -/
def prepareKeys (port : Nat) (events : List (Row Value × Int)) :
    Nat → List (BoundKeyPair Ty Value) → List PreparedRow → JoinAttempt (List PreparedRow)
  | _, [], rows => pure rows
  | key, pair :: pairs, rows => do
    let bound := pair.forPort port
    let column ← MonadExcept.ofExcept ((events.mapM fun e => bound.expression e.1).mapError
      (EquiJoinError.keyExpression port key))
    StepBudget.charge (op.fmt.arrayBytes bound.field.dataType column)
    let rows ← op.encodeColumn bound.field column rows
    prepareKeys port events (key + 1) pairs rows

/-- Encodes the exact rows. -/
def encodeRows (port : Nat) : List (Row Value × Int) → List PreparedRow →
    JoinAttempt (List PreparedRow)
  | event :: events, row :: rows => do
    let limit := (← get).budget.remainingBytes
    let size ← MonadExcept.ofExcept
      ((op.fmt.canonicalRowSizeBounded (op.schema port) event.1 limit).mapError decodeError)
    StepBudget.charge size
    let encoded ← MonadExcept.ofExcept
      ((op.fmt.canonicalRowBounded (op.schema port) event.1 size).mapError
        EquiJoinError.canonicalRow)
    let rows ← encodeRows port events rows
    pure ({ row with row := encoded } :: rows)
  | _, _ => pure []

/-- Prepares the events of a window. -/
def prepareWindow (port : Nat) (events : List (Row Value × Int)) :
    JoinAttempt (List PreparedRow) := do
  StepBudget.charge (events.length * 64)
  let rows := events.map fun e => { row := [], key := [], matchable := true, difference := e.2 }
  let rows ← op.prepareKeys port events 0 op.keys rows
  op.encodeRows port events rows

/-! ## Positions -/

def validateInput (port : Nat) (change : Change (Row Value)) : Except EquiJoinError Unit :=
  if port ≥ 2 then .error (.invalidInputPort port)
  else if ¬ op.bound port change then .error (.inputSchemaMismatch port)
  else .ok ()

/-- The join cursor of a position inside the input. -/
def cursor (port : Nat) (change : Change (Row Value)) (resume : Resume) :
    Except EquiJoinError JoinCursor :=
  match op.validateInput port change with
  | .error e => .error e
  | .ok () =>
    match resume.cursor with
    | .equiJoin cursor =>
      if resume.ordinal ≥ change.numRows ∨ (cursor.foundMatch ∧ cursor.resumeAfter = none) ∨
          (op.residual.isNone ∧ cursor.foundMatch) then
        .error (.invalidResume "cursor is outside input or invalid for kernel")
      else .ok cursor
    | _ => .error (.invalidResume "cursor belongs to another kernel")

/-- Decodes and prepares the opposite row a cursor names. -/
def candidate (port : Nat) (key : Bytes) : JoinAttempt (List PreparedRow) := do
  admitBatchShape op.fmt (op.schema (1 - port))
  admitRow op.fmt (op.schema (1 - port)) key
  let row ← MonadExcept.ofExcept ((op.fmt.decodeRow (op.schema (1 - port)) key).mapError
    EquiJoinError.canonicalRow)
  op.prepareWindow (1 - port) [(row, 1)]

/-- A cursor must name an opposite row of the driving row's partition. -/
def validateCursorBinding (port : Nat) (cursor : JoinCursor) (driving : PreparedRow) :
    JoinAttempt Unit :=
  match cursor.resumeAfter with
  | none => pure ()
  | some key =>
    if ¬ driving.matchable ∨ (op.residual.isNone ∧ op.kind.leftOnly ∧ port = 0) then
      throw (.invalidResume "row cannot have an opposite cursor")
    else do
      StepBudget.charge (key.length * 2)
      let candidate ← op.candidate port key
      if candidate.all fun c => c.matchable && c.key == driving.key then pure ()
      else throw (.invalidResume "candidate cursor is outside the driving partition")

/-! ## One event -/

/-- The presence transition of the driving row and its checked new weight. -/
def eventEffect (row : PreparedRow) (partition : OrdMap Bytes ℕ+) :
    Except EquiJoinError (RowEffect × Nat) :=
  let before := multiplicity partition row.row
  match adjustedWeight before row.difference with
  | .error e => .error e
  | .ok after =>
    let transition : KeyTransition :=
      if op.residual.isSome then
        if before = 0 ∧ after ≠ 0 then .first
        else if before ≠ 0 ∧ after = 0 then .last
        else .none
      else if op.kind ≠ .inner ∧ row.matchable then
        if before = 0 ∧ after > 0 ∧ isEmpty partition then .first
        else if before > 0 ∧ after = 0 ∧ ¬ hasOtherKey partition row.row then .last
        else .none
      else .none
    .ok (⟨row.matchable, transition⟩, after)

/-- One page of the opposite partition. -/
def scanOpposite (port : Nat) (row : PreparedRow) (resumeAfter : Option Bytes)
    (limit : ScanLimit) : JoinAttempt (OrderedMapPage Bytes ℕ+) := do
  match scanPartition ((← get).state.rows (1 - port)) row.key .ascending resumeAfter limit with
  | .error (.itemTooLarge _ _) => throw .budget
  | .ok page => do
    StepBudget.charge (scannedBytes row page.entries)
    pure page

/-- Whether the opposite partition decides the driving row's match. -/
def oppositeMatched (s : JoinState) (port : Nat) (row : PreparedRow) (effect : RowEffect) :
    Bool :=
  if op.kind ≠ .inner then !isEmpty (s.rows (1 - port) row.key) else effect.matched

/-- Candidates of an event without a residual. -/
def scanMatches (port : Nat) (row : PreparedRow) (effect : RowEffect)
    (resumeAfter : Option Bytes) : JoinAttempt (RowEffect × OrderedMapPage Bytes ℕ+) := do
  if ¬ row.matchable ∨ (op.kind.leftOnly ∧ port = 1 ∧ effect.transition = .none) then
    pure (effect, ⟨[], none⟩)
  else do
    let scope ← get
    let matched := op.oppositeMatched scope.state port row effect
    let effect := { effect with matched }
    if ¬ matched ∨ (op.kind.leftOnly ∧ port = 0) then pure (effect, ⟨[], none⟩)
    else do
      let repeatsInput := !(op.kind.leftOnly && port == 1)
      let page ← scanOpposite port row resumeAfter
        ⟨maxScanItems scope.budget row repeatsInput, scanBytes scope.budget,
          maxScanItems_pos _ _ _, scanBytes_pos _⟩
      pure (effect, page)

/-- The fragments of a joined pair, seen from the driving port. -/
def pairFragments (port : Nat) (own opposite : Bytes) : List (Option Bytes) :=
  if port = 0 then [some own, some opposite] else [some opposite, some own]

/-- A driving row on its own. -/
def ownFragments (port : Nat) (own : Bytes) : List (Option Bytes) :=
  if port = 0 then [some own, none] else [none, some own]

/-- An opposite row on its own. -/
def oppositeFragments (port : Nat) (opposite : Bytes) : List (Option Bytes) :=
  if port = 0 then [none, some opposite] else [some opposite, none]

/-- Existence output of the left-only kinds. -/
def existenceItems (port : Nat) (input : PreparedRow) (effect : RowEffect)
    (matchRows : List (Bytes × ℕ+)) : List (Except EquiJoinError Item) :=
  let semi := op.kind == .leftSemi
  if port = 0 then
    if effect.matched = semi then [.ok ([some input.row, none], input.difference)] else []
  else
    let signed := fun sign : Int => matchRows.map fun m =>
      checkedItem ([some m.1, none], sign * (if semi then 1 else -1) * (m.2 : Int))
    match effect.transition with
    | .first => signed 1
    | .last => signed (-1)
    | .none => []

/-- Output of one page without a residual. A match and its `NULL`-row correction
share one cursor position. -/
def outputItems (port : Nat) (input : PreparedRow) (effect : RowEffect)
    (matchRows : List (Bytes × ℕ+)) : List (Except EquiJoinError Item) :=
  if op.kind.leftOnly then op.existenceItems port input effect matchRows
  else if matchRows = [] then
    if ¬ effect.matched ∧ op.kind.preserves port then
      [.ok (ownFragments port input.row, input.difference)]
    else []
  else matchRows.flatMap fun m =>
    let corrects := op.kind.preserves (1 - port)
    ((if corrects ∧ effect.transition = .first then
        [(oppositeFragments port m.1, -(m.2 : Int))] else []) ++
      [(pairFragments port input.row m.1, input.difference * (m.2 : Int))] ++
      (if corrects ∧ effect.transition = .last then
        [(oppositeFragments port m.1, (m.2 : Int))] else [])).map checkedItem

/-! ## One event with a residual -/

def residualBatchItemLimit (candidateFields : Nat) : Nat :=
  max 1 (min 256 (16384 / max candidateFields 1))

/-- Items and bytes of a page of raw candidates. -/
def residualWork (port : Nat) (effect : RowEffect) (candidates : List (Bytes × ℕ+)) : Nat × Nat :=
  let support :=
    if op.tracksMatchCount (1 - port) ∧ effect.transition ≠ .none then
      (candidates.map fun c => (c.1.length + 9) * 3).sum
    else 0
  (max candidates.length 1, candidates.length * 40 + support)

/-- The candidate rows on which the residual is evaluated. -/
def candidateRows (port : Nat) (input : PreparedRow) (entries : List (Bytes × ℕ+)) :
    JoinAttempt (ArrowOutput Value) :=
  ArrowOutput.empty.extend op.fmt [op.leftSchema, op.rightSchema]
    (entries.map fun e => .ok (pairFragments port input.row e.1, 1))

/-- Evaluates the residual on a page; a left-only driving row only counts. -/
def evaluateResidualMatches (residual : Row Value → Except OperationError (Option Bool))
    (port : Nat) (input : PreparedRow) (entries : List (Bytes × ℕ+)) :
    JoinAttempt (List PreparedMatch × Nat) := do
  if entries = [] then pure ([], 0)
  else do
    let candidates ← op.candidateRows port input entries
    let predicate ← MonadExcept.ofExcept ((candidates.rows.mapM fun r => residual r.1).mapError
      EquiJoinError.residualExpression)
    let qualified := (entries.zip predicate).filterMap fun e =>
      if e.2 = some true then some e.1 else none
    let kept := if op.kind.leftOnly ∧ port = 0 then []
      else qualified.map fun e => (⟨e.1, e.2, .none⟩ : PreparedMatch)
    pure (kept, qualified.length)

/-- The candidates of an event with a residual; `none` when their work does not
fit the rest of the allowance. -/
def scanResidualMatches (residual : Row Value → Except OperationError (Option Bool))
    (port : Nat) (row : PreparedRow) (effect : RowEffect) (resumeAfter : Option Bytes) :
    JoinAttempt (Option ResidualPage) := do
  if ¬ row.matchable ∨ (op.kind.leftOnly ∧ effect.transition = .none) then
    pure (some ⟨[], 0, none, 1⟩)
  else do
    let budget := (← get).budget
    let fields := op.leftSchema.length + op.rightSchema.length
    let page ← scanOpposite port row resumeAfter
      ⟨min (maxScanItems budget row true) (residualBatchItemLimit fields),
        min (scanBytes budget) (1024 * 1024),
        by have := maxScanItems_pos budget row true; unfold residualBatchItemLimit; omega,
        by have := scanBytes_pos budget; omega⟩
    let work := op.residualWork port effect page.entries
    let budget := (← get).budget
    if ¬ (work.1 ≤ budget.headRemaining ∧ work.2 ≤ budget.remainingBytes) then pure none
    else do
      StepBudget.charge work.2
      let (matchRows, qualifying) ← op.evaluateResidualMatches residual port row page.entries
      pure (some ⟨matchRows, qualifying, page.continuation, work.1⟩)

/-- Match-count state, which a tracked port needs. -/
def countsAccess (counts : OrdMap Bytes Nat) : Except EquiJoinError (OrdMap Bytes Nat) :=
  if op.hasMatchCounts then .ok counts
  else .error (.invalidMatchCount "tracked residual join has no match-count state")

/-- Adjusts the driving row's own support by a page's qualifying candidates. -/
def adjustOwn (port : Nat) (input : PreparedRow) (effect : RowEffect) (qualifying : Nat)
    (counts : OrdMap Bytes Nat) : Except EquiJoinError (OrdMap Bytes Nat) :=
  if op.tracksMatchCount port ∧ effect.transition ≠ .none ∧ qualifying ≠ 0 then
    match op.countsAccess counts with
    | .error e => .error e
    | .ok counts =>
      (adjustActualMatchCount counts port input.row effect.transition qualifying).map (·.1)
  else .ok counts

/-- Adjusts the support of one matched opposite row. -/
def adjustOpposite (port : Nat) (effect : RowEffect) (matched : PreparedMatch)
    (counts : OrdMap Bytes Nat) : Except EquiJoinError (OrdMap Bytes Nat × PreparedMatch) :=
  if op.tracksMatchCount (1 - port) ∧ effect.transition ≠ .none then
    match op.countsAccess counts with
    | .error e => .error e
    | .ok counts =>
      (adjustActualMatchCount counts (1 - port) matched.row effect.transition 1).map
        fun r => (r.1, { matched with transition := r.2 })
  else .ok (counts, { matched with transition := .none })

/-- Adjusts the support of all matched opposite rows, in order. -/
def adjustMatches (port : Nat) (effect : RowEffect) :
    List PreparedMatch → OrdMap Bytes Nat →
      Except EquiJoinError (OrdMap Bytes Nat × List PreparedMatch)
  | [], counts => .ok (counts, [])
  | matched :: rest, counts =>
    match op.adjustOpposite port effect matched counts with
    | .error e => .error e
    | .ok (counts, matched) => (adjustMatches port effect rest counts).map
        fun r => (r.1, matched :: r.2)

/-- The driving row's support must agree with its qualifying candidates. -/
def validateCurrentMatchCount (port : Nat) (input : PreparedRow) (effect : RowEffect)
    (foundMatch : Bool) (counts : OrdMap Bytes Nat) : Except EquiJoinError Unit :=
  if ¬ op.tracksMatchCount port then .ok ()
  else
    match op.countsAccess counts with
    | .error e => .error e
    | .ok counts =>
      match actualMatchCount counts port input.row with
      | .error e => .error e
      | .ok count =>
        let valid := match effect.transition with
          | .last => count == 0
          | .first | .none => decide (count > 0) == foundMatch
        if valid then .ok ()
        else .error
          (.invalidMatchCount "current row support disagrees with its qualifying candidates")

/-- The correction of an opposite row that becomes matched. -/
def correction (port : Nat) (matched : PreparedMatch) : Item :=
  if op.kind.preserves (1 - port) then
    (oppositeFragments port matched.row, -(matched.multiplicity : Int))
  else ([some matched.row, none],
    if op.kind = .leftSemi then (matched.multiplicity : Int) else -(matched.multiplicity : Int))

/-- The output of one match: its correction and pair. -/
def matchItems (port : Nat) (input : PreparedRow) (matched : PreparedMatch) : List Item :=
  let correction := op.correction port matched
  (if matched.transition = .becameMatched then [correction] else []) ++
    (if ¬ op.kind.leftOnly then
      [(pairFragments port input.row matched.row,
        input.difference * (matched.multiplicity : Int))] else []) ++
    (if matched.transition = .becameUnmatched then [(correction.1, -correction.2)] else [])

/-- The driving row on its own, after its last page. -/
def currentItems (port : Nat) (input : PreparedRow) (foundMatch : Bool) : List Item :=
  if op.kind.leftOnly ∧ port = 0 then
    if foundMatch = decide (op.kind = .leftSemi) then [([some input.row, none], input.difference)]
    else []
  else if op.kind.preserves port ∧ ¬ foundMatch then
    [(ownFragments port input.row, input.difference)]
  else []

/-- Output of one page with a residual. -/
def residualItems (port : Nat) (input : PreparedRow) (page : ResidualPage) (foundMatch : Bool) :
    List Item :=
  page.matchRows.flatMap (op.matchItems port input) ++
    if page.continuation.isSome then [] else op.currentItems port input foundMatch

/-- The count updates and checks of one page. -/
def settleCounts (port : Nat) (input : PreparedRow) (effect : RowEffect) (page : ResidualPage)
    (foundMatch : Bool) (counts : OrdMap Bytes Nat) :
    Except EquiJoinError (OrdMap Bytes Nat × List PreparedMatch) :=
  match op.adjustOwn port input effect page.qualifying counts with
  | .error e => .error e
  | .ok counts =>
    match op.adjustMatches port effect page.matchRows counts with
    | .error e => .error e
    | .ok (counts, matchRows) =>
      if page.continuation.isSome then .ok (counts, matchRows)
      else (op.validateCurrentMatchCount port input effect foundMatch counts).map
        fun _ => (counts, matchRows)

/-- Applies one residual page: support, checks and output. -/
def emitResidualPage (port : Nat) (input : PreparedRow) (effect : RowEffect) (page : ResidualPage)
    (foundMatch : Bool) (output : ArrowOutput Value) : JoinAttempt (ArrowOutput Value) := do
  let counts := (← get).state.matchCounts
  let (counts, matchRows) ← MonadExcept.ofExcept
    (op.settleCounts port input effect page foundMatch counts)
  modify fun s => { s with state := { s.state with matchCounts := counts } }
  output.extend op.fmt op.outputSchemas
    ((op.residualItems port input { page with matchRows } foundMatch).map checkedItem)

/-- A stable left-only row reads its match from the stored support. -/
def stableLeftOnlyFoundMatch (port : Nat) (input : PreparedRow) (counts : OrdMap Bytes Nat) :
    Except EquiJoinError Bool :=
  if port = 1 ∨ ¬ input.matchable then .ok false
  else if ¬ op.hasMatchCounts then
    .error (.invalidMatchCount "residual left-only join has no match-count state")
  else (actualMatchCount counts port input.row).map fun count => decide (count > 0)

/-! ## One window -/

/-- The loop variables of a window. -/
structure Driving (Value : Type) where
  cursor : JoinCursor
  output : ArrowOutput Value
  next : Nat

/-- What became of one row's page: nothing fitted, or a page with the position
of its rest. -/
abbrev PageResult (Value : Type) := Option (JoinCursor × ArrowOutput Value × Option Bytes)

/-- One page of an event without a residual. -/
def plainPage (port : Nat) (row : PreparedRow) (effect : RowEffect) (cursor : JoinCursor)
    (output : ArrowOutput Value) : JoinAttempt (PageResult Value) := do
  let (effect, page) ← op.scanMatches port row effect cursor.resumeAfter
  StepBudget.consumeHead (max page.entries.length 1)
  let output ← output.extend op.fmt op.outputSchemas
    (op.outputItems port row effect page.entries)
  pure (some (cursor, output, page.continuation))

/-- Whether a match was found by the pages before this one. -/
def carriedMatch (port : Nat) (row : PreparedRow) (effect : RowEffect) (cursor : JoinCursor)
    (counts : OrdMap Bytes Nat) : Except EquiJoinError Bool :=
  if op.kind.leftOnly ∧ effect.transition = .none then
    if cursor.resumeAfter.isSome then .error (.invalidResume "stable row has candidate cursor")
    else op.stableLeftOnlyFoundMatch port row counts
  else .ok cursor.foundMatch

/-- One page of an event with a residual. -/
def residualPage (residual : Row Value → Except OperationError (Option Bool)) (port : Nat)
    (row : PreparedRow) (effect : RowEffect) (cursor : JoinCursor) (output : ArrowOutput Value) :
    JoinAttempt (PageResult Value) := do
  let counts := (← get).state.matchCounts
  let carried ← MonadExcept.ofExcept (op.carriedMatch port row effect cursor counts)
  match ← op.scanResidualMatches residual port row effect cursor.resumeAfter with
  | none => pure none
  | some page => do
    StepBudget.consumeHead page.items
    let foundMatch := carried || page.qualifying != 0
    let output ← op.emitResidualPage port row effect page foundMatch output
    pure (some ({ cursor with foundMatch }, output, page.continuation))

/-- The charges for admitting one driving row. -/
def chargeRow (row : PreparedRow) : JoinAttempt Unit := do
  StepBudget.charge (storedRowBytes row * 2)
  if op.residual.isNone ∧ op.kind ≠ .inner ∧ row.matchable then
    StepBudget.charge ((partitionBytes row.key + 10) * 2)
  if op.hasMatchCounts then StepBudget.charge ((row.row.length + 9) * 3)

/-- One page of a driving row. -/
def rowPage (port : Nat) (row : PreparedRow) (effect : RowEffect) (v : Driving Value) :
    JoinAttempt (PageResult Value) :=
  match op.residual with
  | some residual => op.residualPage residual port row effect v.cursor v.output
  | none => op.plainPage port row effect v.cursor v.output

/-- Drives one row. The flag says whether the window goes on. -/
def driveRow (port : Nat) (row : PreparedRow) (v : Driving Value) :
    JoinAttempt (Driving Value × Bool) := do
  op.chargeRow row
  let (effect, after) ← MonadExcept.ofExcept
    (op.eventEffect row ((← get).state.rows port row.key))
  match ← op.rowPage port row effect v with
  | none => pure (v, false)
  | some (cursor, output, some key) =>
    pure ({ v with output, cursor := { cursor with resumeAfter := some key } }, false)
  | some (_, output, none) => do
    modify fun s => { s with state := s.state.setRow port row.key row.row after }
    pure ({ cursor := ⟨false, none⟩, output, next := v.next + 1 },
      !exhausted (← get).budget)

/-- Drives the rows of a window until one of them stops it. -/
def driveWindow (port : Nat) : List PreparedRow → Driving Value → JoinAttempt (Driving Value)
  | [], v => pure v
  | row :: rows, v => do
    if ¬ canStart (← get).budget row then pure v
    else do
      let (v, more) ← op.driveRow port row v
      if more then driveWindow port rows v else pure v

/-- One bounded page of an input. -/
def computeWindow (port : Nat) (change : Change (Row Value)) (resume : Resume) :
    JoinAttempt (Step (Row Value)) := do
  let cursor ← MonadExcept.ofExcept (op.cursor port change resume)
  let start := resume.ordinal
  let length := min (← get).budget.headRemaining (change.numRows - start)
  if length = 0 then throw .budget
  else do
    let window ← op.prepareWindow port ((change.events.drop start).take length)
    match window with
    | [] => throw .change
    | driving :: _ => op.validateCursorBinding port cursor driving
    let v ← op.driveWindow port window ⟨cursor, .empty, start⟩
    let progress := if v.next = change.numRows then Progress.done
      else Progress.more ⟨v.next, .equiJoin v.cursor⟩
    if progress = .more resume then throw .budget
    else do
      let output ← MonadExcept.ofExcept (v.output.finish op.columns EquiJoinError.change)
      pure ⟨output, progress⟩

/-- Validates a position against a complete input. -/
def validateResume (port : Nat) (change : Change (Row Value)) (resume : Resume) :
    Except EquiJoinError Unit :=
  match op.cursor port change resume with
  | .error e => .error e
  | .ok cursor =>
    if cursor.resumeAfter.isNone then .ok ()
    else
      let check : JoinAttempt Unit := do
        match ← op.prepareWindow port ((change.events.drop resume.ordinal).take 1) with
        | [] => throw .change
        | driving :: _ => op.validateCursorBinding port cursor driving
      match check ⟨.initial, 1, 4 * 1024 * 1024⟩ with
      | .ok () _ => .ok ()
      | .error e _ => .error e

/-- The initial position of an input. -/
def initialResume : Resume := ⟨0, .equiJoin ⟨false, none⟩⟩

/-- The join as a paged operator. -/
def paged : PagedOperation JoinState (Row Value) where
  initialResume := initialResume
  validateResume port change resume :=
    (op.validateResume port change resume).mapError EquiJoinError.boxed
  step port change resume :=
    EStateM.adaptExcept EquiJoinError.boxed (op.computeWindow port change resume)

end EquiJoinOperation

end Dogpaddle.EquiJoin
