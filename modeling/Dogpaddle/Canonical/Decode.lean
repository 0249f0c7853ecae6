import Dogpaddle.Canonical.Encode
import Dogpaddle.Operation.Compute

/-!
# Decoding canonical rows

Decoding goes over the bytes twice. `checkValue` parses a row, rejects what is malformed and
counts the Arrow bytes its values will take; only when the whole page is admitted,
`appendValue` parses it again and appends to the builders of its columns.

A builder is a tree of its own: the values of a list and the children of a struct are
builders too, and a failure in the middle of a row leaves them longer than their parent.
`Builder.finish` reads the slots off a builder.
-/

namespace Dogpaddle.Canonical

open Lib Dogpaddle.Relation

/-! ## Reading bytes -/

/-- Consumes the front of a row. -/
abbrev RowCursor (α : Type) := EStateM RowError Bytes α

namespace RowCursor

/-- The next bytes, when there are that many. -/
def take (length : Nat) : RowCursor Bytes := fun remaining =>
  if length ≤ remaining.length then .ok (remaining.take length) (remaining.drop length)
  else .error .truncated remaining

def u8 : RowCursor UInt8 := do
  let bytes ← take 1
  pure (bytes.headD 0)

def length : RowCursor Nat := do
  let bytes ← take 8
  pure (fromBE bytes)

def bytes : RowCursor Bytes := do
  let length ← length
  take length

def skip (length : Nat) : RowCursor Unit := do
  let _ ← take length
  pure ()

def finish : RowCursor Unit := do
  if (← get).isEmpty then pure () else throw .trailingBytes

/-- Runs on the cursor of a larger state. -/
def lift {σ α : Type} (x : RowCursor α) : EStateM RowError (Bytes × σ) α := fun s =>
  match x s.1 with
  | .ok a remaining => .ok a (remaining, s.2)
  | .error e remaining => .error e (remaining, s.2)

end RowCursor

/-- Repeats a statement. -/
def times {m : Type → Type} [Monad m] : Nat → m Unit → m Unit
  | 0, _ => pure ()
  | n + 1, x => do
    x
    times n x

/-! ## Admission -/

def saturatingMul (a b : Nat) : Nat := min (a * b) (usize - 1)

/-- The bytes of an array reference. -/
def arrayRef : Nat := 16

def DataType.isNullType : DataType → Bool
  | .null => true
  | _ => false

mutual

/-- Adds the Arrow bytes of some null or absent slots, or of an empty array. -/
def decodedArrayShape : Field → Nat → Nat → Nat → Except RowError Nat
  | .mk _ dataType _, rows, size, maxBytes =>
    match dataType with
    | .null => .ok size
    | .list child => do
      let size ← addSize size (saturatingMul (max rows 1) 4) maxBytes
      let size ← if rows = 0 then do
          let size ← addSize size (2 * arrayRef) maxBytes
          decodedArrayShape child 0 size maxBytes
        else .ok size
      addSize size ((rows + 7) / 8) maxBytes
    | .struct fields => do
      let size ← if rows = 0 then
          addSize size (saturatingMul fields.length (2 * arrayRef)) maxBytes
        else .ok size
      let size ← decodedShapes fields rows size maxBytes
      addSize size ((rows + 7) / 8) maxBytes
    | .utf8 | .binary => do
      let size ← addSize size (saturatingMul (max rows 1) 4) maxBytes
      addSize size ((rows + 7) / 8) maxBytes
    | .boolean => do
      let size ← addSize size (saturatingMul rows 1) maxBytes
      addSize size ((rows + 7) / 8) maxBytes
    | .fixed type => do
      let size ← addSize size (saturatingMul rows type.width) maxBytes
      addSize size ((rows + 7) / 8) maxBytes

def decodedShapes : List Field → Nat → Nat → Nat → Except RowError Nat
  | [], _, size, _ => .ok size
  | field :: fields, rows, size, maxBytes => do
    let size ← decodedArrayShape field rows size maxBytes
    decodedShapes fields rows size maxBytes

end

/-- Parses a value and counts its Arrow bytes. -/
abbrev Checker := EStateM RowError (Bytes × Nat) Unit

/-- Counts bytes under a limit. -/
def count (f : Nat → Except RowError Nat) : Checker := do
  let (remaining, size) ← get
  let size ← MonadExcept.ofExcept (f size)
  set (remaining, size)

mutual

/-- Checks one value of a field. -/
def checkValue : Field → Nat → Checker
  | .mk name dataType nullable, maxBytes => do
    let marker ← RowCursor.u8.lift
    if marker = 0 then
      if nullable = false ∧ dataType.isNullType = false then throw (.unexpectedNull name)
      else count fun size => decodedArrayShape (.mk name dataType nullable) 1 size maxBytes
    else if marker = 1 then checkPresent dataType maxBytes
    else throw .invalidNullMarker

/-- Checks a value that is there. -/
def checkPresent : DataType → Nat → Checker
  | .null, _ => throw .invalidNullMarker
  | .boolean, maxBytes => do
    let value ← RowCursor.u8.lift
    if 1 < value then throw .invalidBoolean
    else count fun size => addSize size 2 maxBytes
  | .utf8, maxBytes => do
    let value ← RowCursor.bytes.lift
    if 2 ^ 31 ≤ value.length then throw .lengthOverflow
    else if (fromUtf8 value).isNone then throw .invalidUtf8
    else count fun size => addSize size (value.length + 5) maxBytes
  | .binary, maxBytes => do
    let value ← RowCursor.bytes.lift
    if 2 ^ 31 ≤ value.length then throw .lengthOverflow
    else count fun size => addSize size (value.length + 5) maxBytes
  | .list child, maxBytes => do
    let length ← RowCursor.length.lift
    if 2 ^ 31 ≤ length then throw .lengthOverflow
    else if (← get).1.length < length then throw .truncated
    else do
      count fun size => addSize size 5 maxBytes
      times length (checkValue child maxBytes)
  | .struct fields, maxBytes => do
    count fun size => addSize size 1 maxBytes
    checkFields fields maxBytes
  | .fixed type, maxBytes => do
    (RowCursor.skip type.width).lift
    count fun size => addSize size (type.width + 1) maxBytes

/-- Checks one value of each field. -/
def checkFields : List Field → Nat → Checker
  | [], _ => pure ()
  | field :: fields, maxBytes => do
    checkValue field maxBytes
    checkFields fields maxBytes

end

/-- The Arrow bytes of a row that is well formed to its end. -/
def decodedSize (schema : Schema) (encoded : Bytes) (maxBytes : Nat) : Except RowError Nat :=
  match (do checkFields schema maxBytes; RowCursor.finish.lift : Checker) (encoded, 0) with
  | .ok () (_, size) => .ok size
  | .error e _ => .error e

/-- Errors that can carry a row failure. -/
class RowFailure (ε : Type) extends BudgetError ε where
  ofRow : RowError → ε

section Admission

variable {ε S : Type} [RowFailure ε]

/-- A size limit hit while admitting is an exhausted allowance. -/
def decodeError : RowError → ε
  | .sizeLimit _ => budgetExceeded
  | e => RowFailure.ofRow e

/-- Charges what a computation under the remaining allowance counts. -/
def chargeCounted (f : Nat → Except RowError Nat) : Attempt ε S Unit := do
  let limit := (← get).budget.remainingBytes
  let size ← MonadExcept.ofExcept ((f limit).mapError decodeError)
  StepBudget.charge size

def admitBatchShape (schema : Schema) : Attempt ε S Unit := do
  StepBudget.charge (saturatingMul schema.length (2 * arrayRef))
  schema.forM fun field => chargeCounted (decodedArrayShape field 0 0)

def admitRow (schema : Schema) (encoded : Bytes) : Attempt ε S Unit :=
  chargeCounted (decodedSize schema encoded)

end Admission

/-! ## Builders -/

/-- The builders without builders below them. -/
inductive Flat
  | null
  | boolean
  | fixed (type : FixedType)
  | utf8
  | binary
deriving DecidableEq, Repr

/-- An array under construction. -/
inductive Builder
  | flat (kind : Flat) (slots : List Value)
  /-- The end offset and the validity of each slot, and the values of all of them. -/
  | list (ends : List (Nat × Bool)) (values : Builder)
  | struct (validity : List Bool) (children : List Builder)

namespace Builder

def length : Builder → Nat
  | flat _ slots => slots.length
  | list ends _ => ends.length
  | struct validity _ => validity.length

/-- The slots of a list array between their offsets. -/
def listSlots (values : List Value) : Nat → List (Nat × Bool) → List Value
  | _, [] => []
  | start, (stop, valid) :: ends =>
    (if valid then .list ((values.take stop).drop start) else .null) ::
      listSlots values stop ends

/-- The slots of a struct array across its children. -/
def structSlots (columns : List (List Value)) : Nat → List Bool → List Value
  | _, [] => []
  | index, valid :: validity =>
    (if valid then .struct (rowValues columns index) else .masked (rowValues columns index)) ::
      structSlots columns (index + 1) validity

mutual

/-- The finished array. -/
def finish : Builder → List Value
  | flat _ slots => slots
  | list ends values => listSlots values.finish 0 ends
  | struct validity children => structSlots (finishAll children) 0 validity

def finishAll : List Builder → List (List Value)
  | [] => []
  | builder :: builders => builder.finish :: finishAll builders

end

/-- The bytes in the value buffer of a string or binary builder. -/
def valuesLength (slots : List Value) : Nat := (slots.map Value.byteLength).sum

end Builder

mutual

/-- An empty builder for a type. -/
def rowBuilder : Field → Builder
  | .mk _ dataType _ =>
    match dataType with
    | .null => .flat .null []
    | .boolean => .flat .boolean []
    | .fixed type => .flat (.fixed type) []
    | .utf8 => .flat .utf8 []
    | .binary => .flat .binary []
    | .list child => .list [] (rowBuilder child)
    | .struct fields => .struct [] (rowBuilders fields)

def rowBuilders : List Field → List Builder
  | [] => []
  | field :: fields => rowBuilder field :: rowBuilders fields

end

/-! ## Appending -/

/-- Appends to builders; a failure leaves what was appended before it. -/
abbrev Appender (σ α : Type) := EStateM RowError (Bytes × σ) α

/-- Appends a slot to a flat builder of a kind, made from what the cursor reads next and
from the slots that are there. -/
def appendFlat (kind : Flat) (slot : List Value → RowCursor Value) : Appender Builder Unit :=
  fun (remaining, builder) =>
    match builder with
    | .flat actual slots =>
      if actual = kind then
        match slot slots remaining with
        | .ok value remaining => .ok () (remaining, .flat actual (slots ++ [value]))
        | .error e remaining => .error e (remaining, builder)
      else .error .invalidValue (remaining, builder)
    | _ => .error .invalidValue (remaining, builder)

/-- The next bytes as a string or binary slot, when the value buffer has room for them. -/
def bytesSlot (decode : Bytes → Except RowError Value) (slots : List Value) :
    RowCursor Value := do
  let value ← RowCursor.bytes
  if 2 ^ 31 ≤ Builder.valuesLength slots + value.length then throw .lengthOverflow
  else MonadExcept.ofExcept (decode value)

def utf8Slot (value : Bytes) : Except RowError Value :=
  match fromUtf8 value with
  | some value => .ok (.utf8 value)
  | none => .error .invalidUtf8

def binarySlot (value : Bytes) : Except RowError Value := .ok (.binary value)

def booleanSlot (_ : List Value) : RowCursor Value := do
  pure (.boolean (decide ((← RowCursor.u8) ≠ 0)))

def fixedSlot (type : FixedType) (_ : List Value) : RowCursor Value := do
  pure (.fixed type.width (fromBeBytes (8 * type.width) (← RowCursor.take type.width)))

/-- A slot when there is a value, else a null. -/
def optionSlot (present : Bool) (slot : List Value → RowCursor Value) (slots : List Value) :
    RowCursor Value :=
  if present then slot slots else pure .null

/-- Whether a value follows; nothing is written of the children of a null. -/
def readPresent (parentNull : Bool) : Appender Builder Bool :=
  if parentNull then pure false
  else do
    let marker ← RowCursor.u8.lift
    pure (decide (marker = 1))

mutual

/-- Appends one value, a null when its parent is one. -/
def appendValue : Field → Bool → Appender Builder Unit
  | .mk _ dataType _, parentNull => do
    let present ← readPresent parentNull
    appendSlot dataType present

/-- Appends a value that is there or a null. -/
def appendSlot : DataType → Bool → Appender Builder Unit
  | .null, _ => appendFlat .null (optionSlot false fun _ => pure .null)
  | .boolean, present => appendFlat .boolean (optionSlot present booleanSlot)
  | .fixed type, present => appendFlat (.fixed type) (optionSlot present (fixedSlot type))
  | .utf8, present => appendFlat .utf8 (optionSlot present (bytesSlot utf8Slot))
  | .binary, present => appendFlat .binary (optionSlot present (bytesSlot binarySlot))
  | .list child, present => fun (remaining, builder) =>
    match builder with
    | .list ends values =>
      -- the items go to the builder of the values, whatever becomes of the rest
      let items : Appender Builder Unit :=
        if present then do
          let length ← RowCursor.length.lift
          if 2 ^ 31 ≤ values.length + length then throw .lengthOverflow
          else times length (appendValue child false)
        else pure ()
      match items (remaining, values) with
      | .ok () (remaining, values) =>
        .ok () (remaining, .list (ends ++ [(values.length, present)]) values)
      | .error e (remaining, values) => .error e (remaining, .list ends values)
    | _ => .error .invalidValue (remaining, builder)
  | .struct fields, present => fun (remaining, builder) =>
    match builder with
    | .struct validity children =>
      match appendFields fields (!present) (remaining, children) with
      | .ok () (remaining, children) =>
        .ok () (remaining, .struct (validity ++ [present]) children)
      | .error e (remaining, children) => .error e (remaining, .struct validity children)
    | _ => .error .invalidValue (remaining, builder)

/-- Appends to the children of a struct. -/
def appendFields : List Field → Bool → Appender (List Builder) Unit
  | field :: fields, parentNull => fun (remaining, builders) =>
    match builders with
    | [] => .ok () (remaining, [])
    | builder :: builders =>
      match appendValue field parentNull (remaining, builder) with
      | .error e (remaining, builder) => .error e (remaining, builder :: builders)
      | .ok () (remaining, builder) =>
        match appendFields fields parentNull (remaining, builders) with
        | .error e (remaining, builders) => .error e (remaining, builder :: builders)
        | .ok () (remaining, builders) => .ok () (remaining, builder :: builders)
  | [], _ => pure ()

end

/-! ## Rows of fragments -/

/-- Appends to one builder for each field. -/
def appendColumns : List Field → Bool → Appender (List Builder) Unit
  | [], _ => pure ()
  | field :: fields, absent => fun (remaining, builders) =>
    match builders with
    | [] => .error .invalidValue (remaining, [])
    | builder :: builders =>
      match appendValue field absent (remaining, builder) with
      | .error e (remaining, builder) => .error e (remaining, builder :: builders)
      | .ok () (remaining, builder) =>
        match appendColumns fields absent (remaining, builders) with
        | .error e (remaining, builders) => .error e (remaining, builder :: builders)
        | .ok () (remaining, builders) => .ok () (remaining, builder :: builders)

/-- A fragment for each port, absent where a row has none. -/
abbrev Fragments := Option Bytes × Option Bytes

def Fragments.toList (fragments : Fragments) : List (Option Bytes) := [fragments.1, fragments.2]

/-- Appends one complete fragment to the builders of its schema. -/
def appendFragment (schema : Schema) (fragment : Option Bytes) :
    EStateM RowError (List Builder) Unit := fun builders =>
  match (do appendColumns schema fragment.isNone; RowCursor.finish.lift :
      Appender (List Builder) Unit) (fragment.getD [], builders) with
  | .ok () (_, builders) => .ok () builders
  | .error e (_, builders) => .error e builders

/-- Appends one fragment after another, each to the next builders. -/
def appendFragments : List Schema → List (Option Bytes) → List Builder →
    EStateM.Result RowError (List Builder) Unit
  | schema :: schemas, fragment :: fragments, builders =>
    match appendFragment schema fragment (builders.take schema.length) with
    | .error e front => .error e (front ++ builders.drop schema.length)
    | .ok () front =>
      match appendFragments schemas fragments (builders.drop schema.length) with
      | .error e back => .error e (front ++ back)
      | .ok () back => .ok () (front ++ back)
  | _, _, builders =>
    if builders.isEmpty then .ok () builders else .error .invalidValue builders

def appendRow (schemas : List Schema) (fragments : Fragments) :
    EStateM RowError (List Builder) Unit :=
  appendFragments schemas fragments.toList

/-- The columns of a record batch, as the constructor of batches admits them. -/
def finishBuilders (schema : Schema) (builders : List Builder) (count : Nat) :
    Except RowError (List (List Value)) :=
  let columns := Builder.finishAll builders
  if columns.length = schema.length ∧ (∀ column ∈ columns, column.length = count) ∧
      (∀ entry ∈ schema.zip columns, entry.1.isNullable = true ∨
        entry.1.dataType.isNullType = true ∨ ∀ value ∈ entry.2, value.isNull = false) then
    .ok columns
  else .error .invalidValue

/-- The columns of rows that were admitted. -/
def decodeRows (schema : Schema) (rows : List Bytes) : Except RowError (List (List Value)) :=
  match rows.forM (fun row => appendRow [schema] (some row, none)) (rowBuilders schema) with
  | .error e _ => .error e
  | .ok () builders => finishBuilders schema builders rows.length

/-! ## Pages -/

/-- Step-local Arrow output. -/
structure ArrowOutput where
  builders : List Builder
  differences : List Int

def ArrowOutput.default : ArrowOutput := ⟨[], []⟩

/-- A row of fragments with its difference. -/
abbrev Item := Fragments × Int

section Pages

variable {ε S : Type} [RowFailure ε]

/-- Admits all rows before it decodes one. -/
def decodeCanonicalRowsBounded (schema : Schema) (rows : List Bytes) :
    Attempt ε S (List (List Value)) := do
  admitBatchShape schema
  rows.forM (admitRow schema)
  MonadExcept.ofExcept ((decodeRows schema rows).mapError RowFailure.ofRow)

def admitFragment (schema : Schema) (fragment : Option Bytes) : Attempt ε S Unit :=
  match fragment with
  | some encoded => admitRow schema encoded
  | none => schema.forM fun field => chargeCounted (decodedArrayShape field 1 0)

/-- Admits a complete page, with the shape of its arrays if they are new. -/
def admitItems (schemas : List Schema) (first : Bool) :
    List (Except ε Item) → Attempt ε S Unit
  | [] => pure ()
  | item :: items => do
    let (fragments, _) ← MonadExcept.ofExcept item
    if first then schemas.forM admitBatchShape
    (schemas.zip fragments.toList).forM fun port => admitFragment port.1 port.2
    StepBudget.charge 8
    admitItems schemas false items

/-- Appends one row to the output; a failure keeps what it changed. -/
def appendItem (schemas : List Schema) (item : Except ε Item) : Attempt ε ArrowOutput Unit := do
  let (fragments, difference) ← MonadExcept.ofExcept item
  let output := (← get).state
  match appendRow schemas fragments output.builders with
  | .error e builders => do
    modify fun s => { s with state := { output with builders } }
    throw (RowFailure.ofRow e)
  | .ok () builders =>
    modify fun s => { s with state :=
      { builders, differences := output.differences ++ [difference] } }

/-- Appends a page of rows, admitted as a whole. -/
def ArrowOutput.extend (schemas : List Schema) (items : List (Except ε Item)) :
    Attempt ε ArrowOutput Unit := do
  let first := (← get).state.differences.isEmpty
  admitItems schemas first items
  if first ∧ items.length ≠ 0 then
    modify fun s => { s with state := { s.state with builders := schemas.flatMap rowBuilders } }
  items.forM (appendItem schemas)

end Pages

end Dogpaddle.Canonical
