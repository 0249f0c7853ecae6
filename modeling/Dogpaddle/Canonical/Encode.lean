import Dogpaddle.Canonical.Arrow
import Dogpaddle.Lib.Attempt

/-!
# Canonical rows

A canonical row is the concatenation of its values: a marker byte, then a fixed number of
big-endian bytes, or a length and what it counts. `encodeCanonicalInner` appends a value
under a byte limit; `canonicalSizeInner` is a second recursion that only adds up sizes, with
a shortcut for lists whose items all have the same size.

`canonical` is the encoding without limits. Both recursions succeed exactly when it fits
(`encode_writes`, `size_adds`), so they agree.
-/

namespace Dogpaddle.Canonical

open Lib Dogpaddle.Relation

inductive RowError
  | rowOutOfBounds (rowIndex rows : Nat)
  | arrayTypeMismatch (field : String)
  | unexpectedNull (field : String)
  | lengthOverflow
  | sizeLimit (maxBytes : Nat)
  | truncated
  | invalidNullMarker
  | invalidBoolean
  | invalidUtf8
  | trailingBytes
  | invalidValue
deriving DecidableEq, Repr

/-- The numbers of a machine word. -/
def usize : Nat := 2 ^ 64

/-- The dotted name of a nested field. -/
def joinPath (path : List String) : String := ".".intercalate path

/-! ## Encoding -/

/-- A writer of canonical bytes; what it wrote before a failure stays. -/
abbrev Writer := EStateM RowError Bytes Unit

def requireCapacity (additional : Nat) (maxBytes : Option Nat) : Writer := do
  let next := (← get).length + additional
  if usize ≤ next then throw .lengthOverflow
  else match maxBytes with
    | none => pure ()
    | some maxBytes => if maxBytes < next then throw (.sizeLimit maxBytes) else pure ()

def appendBytes (bytes : Bytes) (maxBytes : Option Nat) : Writer := do
  requireCapacity bytes.length maxBytes
  modify (· ++ bytes)

def pushByte (byte : UInt8) (maxBytes : Option Nat) : Writer := appendBytes [byte] maxBytes

def encodeLength (length : Nat) (maxBytes : Option Nat) : Writer :=
  appendBytes (toBE 8 length) maxBytes

def encodeBytes (bytes : Bytes) (maxBytes : Option Nat) : Writer := do
  encodeLength bytes.length maxBytes
  appendBytes bytes maxBytes

mutual

/-- Appends one value of a field. -/
def encodeCanonicalInner : Field → Value → List String → Option Nat → Writer
  | .mk _ dataType nullable, value, path, maxBytes =>
    match dataType with
    | .null => pushByte 0 maxBytes
    | dataType =>
      if value.isNull then
        if nullable then pushByte 0 maxBytes else throw (.unexpectedNull (joinPath path))
      else do
        pushByte 1 maxBytes
        match dataType, value with
        | .boolean, .boolean value => pushByte (if value then 1 else 0) maxBytes
        | .fixed _, .fixed _ bits => appendBytes (beBytes bits) maxBytes
        | .utf8, .utf8 value => encodeBytes (utf8Bytes value) maxBytes
        | .binary, .binary value => encodeBytes value maxBytes
        | .list child, .list items => do
          encodeLength items.length maxBytes
          requireCapacity items.length maxBytes
          items.forM fun item =>
            encodeCanonicalInner child item (path ++ [child.name]) maxBytes
        | .struct fields, .struct children => encodeFields fields children path maxBytes
        | _, _ => throw (.arrayTypeMismatch (joinPath path))

/-- Appends the children of a struct. -/
def encodeFields : List Field → List Value → List String → Option Nat → Writer
  | field :: fields, value :: values, path, maxBytes => do
    encodeCanonicalInner field value (path ++ [field.name]) maxBytes
    encodeFields fields values path maxBytes
  | _, _, _, _ => pure ()

end

/-- Appends the slots of one row. -/
def encodeColumns : List Field → List (List Value) → Nat → Option Nat → Writer
  | field :: fields, column :: columns, index, maxBytes => do
    match column[index]? with
    | none => throw (.rowOutOfBounds index column.length)
    | some value => do
      encodeCanonicalInner field value [field.name] maxBytes
      encodeColumns fields columns index maxBytes
  | _, _, _, _ => pure ()

/-- The canonical bytes of a row under a byte limit. -/
def canonicalRowBounded (batch : RecordBatch) (index maxBytes : Nat) : Except RowError Bytes :=
  if batch.numRows ≤ index then .error (.rowOutOfBounds index batch.numRows)
  else match encodeColumns batch.schema batch.columns index (some maxBytes) [] with
    | .ok () bytes => .ok bytes
    | .error e _ => .error e

/-! ## Sizing -/

def addSize (size additional maxBytes : Nat) : Except RowError Nat :=
  if usize ≤ size + additional then .error .lengthOverflow
  else if maxBytes < size + additional then .error (.sizeLimit maxBytes)
  else .ok (size + additional)

/-- The width of the types whose values are all of one size. -/
def fixedCanonicalWidth : DataType → Option Nat
  | .boolean => some 1
  | .fixed type => some type.width
  | _ => none

/-- The number of null slots of an array. -/
def nullCount (values : List Value) : Nat := values.countP Value.isNull

mutual

/-- The size every slot of an array takes, if no null can shorten one. -/
def constantCanonicalSize : Field → List Value → Option Nat
  | .mk _ dataType _, values =>
    match dataType with
    | .null => some 1
    | .struct fields =>
      match constantSizes fields 0 values 1 with
      | some valueSize => if nullCount values = 0 ∨ valueSize = 1 then some valueSize else none
      | none => none
    | dataType =>
      match fixedCanonicalWidth dataType with
      | some width => if nullCount values = 0 ∨ width + 1 = 1 then some (width + 1) else none
      | none => none

/-- Adds up the sizes of the child arrays of a struct array, from one of its fields on. -/
def constantSizes : List Field → Nat → List Value → Nat → Option Nat
  | [], _, _, size => some size
  | field :: fields, index, values, size =>
    match constantCanonicalSize field (values.map (Value.child index)) with
    | none => none
    | some child =>
      if usize ≤ size + child then none
      else constantSizes fields (index + 1) values (size + child)

end

/-- The shortcut for items of one size. -/
def sizeConstant (items : List Value) (childSize maxBytes size : Nat) : Except RowError Nat :=
  if usize ≤ items.length * childSize then .error .lengthOverflow
  else addSize size (items.length * childSize) maxBytes

mutual

/-- Adds the size of one value of a field. -/
def canonicalSizeInner : Field → Value → List String → Nat → Nat → Except RowError Nat
  | .mk _ dataType nullable, value, path, size, maxBytes =>
    match dataType with
    | .null => addSize size 1 maxBytes
    | dataType =>
      if value.isNull then
        if nullable then addSize size 1 maxBytes else .error (.unexpectedNull (joinPath path))
      else do
        let size ← addSize size 1 maxBytes
        match dataType, value with
        | .boolean, .boolean _ => addSize size 1 maxBytes
        | .fixed type, .fixed _ _ => addSize size type.width maxBytes
        | .utf8, .utf8 value => do
          let size ← addSize size 8 maxBytes
          addSize size (utf8Bytes value).length maxBytes
        | .binary, .binary value => do
          let size ← addSize size 8 maxBytes
          addSize size value.length maxBytes
        | .list child, .list items => do
          let size ← addSize size 8 maxBytes
          if maxBytes - size < items.length then .error (.sizeLimit maxBytes)
          else match constantCanonicalSize child items with
            | some childSize => sizeConstant items childSize maxBytes size
            | none => items.foldlM (fun size item =>
                canonicalSizeInner child item (path ++ [child.name]) size maxBytes) size
        | .struct fields, .struct children => sizeFields fields children path size maxBytes
        | _, _ => .error (.arrayTypeMismatch (joinPath path))

/-- Adds the sizes of the children of a struct. -/
def sizeFields : List Field → List Value → List String → Nat → Nat → Except RowError Nat
  | field :: fields, value :: values, path, size, maxBytes => do
    let size ← canonicalSizeInner field value (path ++ [field.name]) size maxBytes
    sizeFields fields values path size maxBytes
  | _, _, _, size, _ => .ok size

end

/-- Adds the sizes of the slots of one row. -/
def sizeColumns : List Field → List (List Value) → Nat → Nat → Nat → Except RowError Nat
  | field :: fields, column :: columns, index, size, maxBytes =>
    match column[index]? with
    | none => .error (.rowOutOfBounds index column.length)
    | some value => do
      let size ← canonicalSizeInner field value [field.name] size maxBytes
      sizeColumns fields columns index size maxBytes
  | _, _, _, size, _ => .ok size

/-- The canonical size of a row under a byte limit. -/
def canonicalRowSizeBounded (batch : RecordBatch) (index maxBytes : Nat) : Except RowError Nat :=
  if batch.numRows ≤ index then .error (.rowOutOfBounds index batch.numRows)
  else sizeColumns batch.schema batch.columns index 0 maxBytes

/-! ## The encoding without limits -/

mutual

/-- The canonical bytes of a value. -/
def canonical : Field → Value → Bytes
  | .mk _ dataType _, value =>
    match dataType, value with
    | .boolean, .boolean value => [1, if value then 1 else 0]
    | .fixed _, .fixed _ bits => 1 :: beBytes bits
    | .utf8, .utf8 value => 1 :: (toBE 8 (utf8Bytes value).length ++ utf8Bytes value)
    | .binary, .binary value => 1 :: (toBE 8 value.length ++ value)
    | .list child, .list items => 1 :: (toBE 8 items.length ++ items.flatMap (canonical child))
    | .struct fields, .struct children => 1 :: canonicalAll fields children
    | _, _ => [0]

def canonicalAll : List Field → List Value → Bytes
  | field :: fields, value :: values => canonical field value ++ canonicalAll fields values
  | _, _ => []

end

/-- The slots of one row. -/
def rowValues (columns : List (List Value)) (index : Nat) : List Value :=
  columns.map fun column => column.getD index .null

end Dogpaddle.Canonical
