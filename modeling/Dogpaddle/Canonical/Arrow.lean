import Dogpaddle.Relation.Order

/-!
# Arrow types, values and record batches

The types that canonical rows support, and the columns of a record batch as the lists of
their slots.

* `Value` is what a slot holds. A null slot of a struct array keeps the children that stand
  behind it (`masked`), because the child arrays have them; `Value.logical` drops them.
* `Fits` says that a slot is one of an array of a field: it has its type, a null only where
  the field allows one, and lengths that 32-bit offsets can tell apart.
* `Within` says that the offsets of a whole column do not overflow, down to its innermost
  child array.
* `RecordBatch` carries both, as the constructors of Arrow arrays check them.
-/

namespace Dogpaddle.Canonical

open Lib Dogpaddle.Relation

/-! ## Types -/

/-- The types of a fixed number of bytes. -/
inductive FixedType
  | int8
  | int16
  | int32
  | int64
  | uint8
  | uint16
  | uint32
  | uint64
  | float32
  | float64
  | date32
  | timestamp (unit : TimeUnit) (timezone : Option String)
  | decimal128 (precision : Nat) (scale : Int)
deriving DecidableEq, Repr

def FixedType.width : FixedType → Nat
  | .int8 | .uint8 => 1
  | .int16 | .uint16 => 2
  | .int32 | .uint32 | .float32 | .date32 => 4
  | .int64 | .uint64 | .float64 | .timestamp _ _ => 8
  | .decimal128 _ _ => 16

mutual

inductive DataType
  | null
  | boolean
  | fixed (type : FixedType)
  | utf8
  | binary
  | list (child : Field)
  | struct (fields : List Field)

inductive Field
  | mk (name : String) (dataType : DataType) (nullable : Bool)

end

abbrev Schema := List Field

def Field.name : Field → String
  | .mk name _ _ => name

def Field.dataType : Field → DataType
  | .mk _ dataType _ => dataType

def Field.isNullable : Field → Bool
  | .mk _ _ nullable => nullable

mutual

/-- What holds of a field when it holds of the fields below it holds of every field. -/
theorem Field.induction {P : Field → Prop}
    (step : ∀ name dataType nullable, (∀ child, dataType = .list child → P child) →
      (∀ fields, dataType = .struct fields → ∀ f ∈ fields, P f) →
      P (.mk name dataType nullable)) : (field : Field) → P field
  | .mk name (.list child) nullable =>
    step name (.list child) nullable (fun c h => by cases h; exact Field.induction step child)
      (fun fs h => by cases h)
  | .mk name (.struct fields) nullable =>
    step name (.struct fields) nullable (fun c h => by cases h)
      (fun fs h => by cases h; exact Field.inductionAll step fields)
  | .mk name .null nullable =>
    step name .null nullable (fun c h => by cases h) (fun fs h => by cases h)
  | .mk name .boolean nullable =>
    step name .boolean nullable (fun c h => by cases h) (fun fs h => by cases h)
  | .mk name (.fixed type) nullable =>
    step name (.fixed type) nullable (fun c h => by cases h) (fun fs h => by cases h)
  | .mk name .utf8 nullable =>
    step name .utf8 nullable (fun c h => by cases h) (fun fs h => by cases h)
  | .mk name .binary nullable =>
    step name .binary nullable (fun c h => by cases h) (fun fs h => by cases h)

theorem Field.inductionAll {P : Field → Prop}
    (step : ∀ name dataType nullable, (∀ child, dataType = .list child → P child) →
      (∀ fields, dataType = .struct fields → ∀ f ∈ fields, P f) →
      P (.mk name dataType nullable)) : (fields : List Field) → ∀ f ∈ fields, P f
  | [] => fun _ hf => absurd hf List.not_mem_nil
  | field :: fields => List.forall_mem_cons.mpr
      ⟨Field.induction step field, Field.inductionAll step fields⟩

end

/-! ## Values -/

/-- What a slot of an array holds. Numbers, dates and floats are their bit patterns. -/
inductive Value
  | null
  | boolean (value : Bool)
  | fixed (width : Nat) (bits : BitVec (8 * width))
  | utf8 (value : String)
  | binary (value : Bytes)
  | list (items : List Value)
  | struct (children : List Value)
  /-- A null struct slot and the children behind it. -/
  | masked (children : List Value)

namespace Value

def isNull : Value → Bool
  | null => true
  | masked _ => true
  | _ => false

/-- The items of a list slot. -/
def items : Value → List Value
  | list items => items
  | _ => []

/-- The slot of a child array of a struct. -/
def child (index : Nat) : Value → Value
  | struct children => children.getD index null
  | masked children => children.getD index null
  | _ => null

/-- The bytes a slot takes in the value buffer of a string or binary array. -/
def byteLength : Value → Nat
  | utf8 value => (utf8Bytes value).length
  | binary value => value.length
  | _ => 0

mutual

/-- The value without what stands behind null structs. -/
def logical : Value → Value
  | null => null
  | boolean value => boolean value
  | fixed width bits => fixed width bits
  | utf8 value => utf8 value
  | binary value => binary value
  | list items => list (logicalAll items)
  | struct children => struct (logicalAll children)
  | masked _ => null

def logicalAll : List Value → List Value
  | [] => []
  | value :: values => value.logical :: logicalAll values

end

theorem logicalAll_eq_map (values : List Value) : logicalAll values = values.map logical := by
  induction values with
  | nil => rw [logicalAll, List.map_nil]
  | cons value values ih => rw [logicalAll, ih, List.map_cons]

mutual

theorem logical_logical : (value : Value) → value.logical.logical = value.logical
  | null => by rw [logical, logical]
  | boolean _ => by rw [logical, logical]
  | fixed _ _ => by rw [logical, logical]
  | utf8 _ => by rw [logical, logical]
  | binary _ => by rw [logical, logical]
  | list items => by rw [logical, logical, logicalAll_logicalAll items]
  | struct children => by rw [logical, logical, logicalAll_logicalAll children]
  | masked _ => by rw [logical, logical]

theorem logicalAll_logicalAll :
    (values : List Value) → logicalAll (logicalAll values) = logicalAll values
  | [] => by rw [logicalAll, logicalAll]
  | value :: values => by
    rw [logicalAll, logicalAll, logical_logical value, logicalAll_logicalAll values]

end

@[simp] theorem isNull_logical (value : Value) : value.logical.isNull = value.isNull := by
  cases value <;> rw [logical] <;> rfl

end Value

/-! ## Slots of a field -/

mutual

/-- A slot of an array of the field. -/
def Fits : Field → Value → Prop
  | .mk _ dataType nullable, value =>
    match dataType, value with
    | .null, .null => True
    | .boolean, .boolean _ => True
    | .fixed type, .fixed width _ => width = type.width
    | .utf8, .utf8 value => (utf8Bytes value).length < 2 ^ 31
    | .binary, .binary value => value.length < 2 ^ 31
    | .list child, .list items => items.length < 2 ^ 31 ∧ ∀ item ∈ items, Fits child item
    | .struct fields, .struct children => FitsAll fields children
    | .struct fields, .masked children => nullable = true ∧ children.length = fields.length
    | _, .null => nullable = true
    | _, _ => False

def FitsAll : List Field → List Value → Prop
  | [], [] => True
  | field :: fields, value :: values => Fits field value ∧ FitsAll fields values
  | _, _ => False

end

theorem fitsAll_iff {fields : List Field} {values : List Value} :
    FitsAll fields values ↔ List.Forall₂ Fits fields values := by
  induction fields generalizing values with
  | nil => cases values <;> simp [FitsAll]
  | cons field fields ih => cases values <;> simp [FitsAll, ih]

/-- The slots of a field, one case for each way to be one. -/
inductive Slot : DataType → Bool → Value → Prop
  | nullType {nullable : Bool} : Slot .null nullable .null
  | null {dataType : DataType} {value : Value} : dataType ≠ .null → value.isNull = true →
      Slot dataType true value
  | boolean {nullable value : Bool} : Slot .boolean nullable (.boolean value)
  | fixed {type : FixedType} {nullable : Bool} {bits : BitVec (8 * type.width)} :
      Slot (.fixed type) nullable (.fixed type.width bits)
  | utf8 {nullable : Bool} {value : String} : (utf8Bytes value).length < 2 ^ 31 →
      Slot .utf8 nullable (.utf8 value)
  | binary {nullable : Bool} {value : Bytes} : value.length < 2 ^ 31 →
      Slot .binary nullable (.binary value)
  | list {child : Field} {nullable : Bool} {items : List Value} : items.length < 2 ^ 31 →
      (∀ item ∈ items, Fits child item) → Slot (.list child) nullable (.list items)
  | struct {fields : List Field} {nullable : Bool} {children : List Value} :
      FitsAll fields children → Slot (.struct fields) nullable (.struct children)

theorem Fits.slot {name : String} {dataType : DataType} {nullable : Bool} {value : Value}
    (h : Fits (.mk name dataType nullable) value) : Slot dataType nullable value := by
  rw [Fits.eq_def] at h
  cases dataType <;> cases value <;> simp only at h
  case null.null => exact .nullType
  case boolean.boolean => exact .boolean
  case fixed.fixed type width bits =>
    subst h
    exact .fixed
  case utf8.utf8 => exact .utf8 h
  case binary.binary => exact .binary h
  case list.list => exact .list h.1 h.2
  case struct.struct => exact .struct h
  case struct.masked =>
    rw [h.1]
    exact .null (by simp) rfl
  all_goals
    rw [h]
    exact .null (by simp) rfl

/-! ## Offsets of a column -/

mutual

/-- The offsets of a column and of the child arrays below it stay within 32 bits. -/
def Within : Field → List Value → Prop
  | .mk _ dataType _, column =>
    match dataType with
    | .utf8 => (column.map Value.byteLength).sum < 2 ^ 31
    | .binary => (column.map Value.byteLength).sum < 2 ^ 31
    | .list child => (column.flatMap Value.items).length < 2 ^ 31 ∧
        Within child (column.flatMap Value.items)
    | .struct fields => WithinAll fields 0 column
    | _ => True

/-- The child arrays of a struct array, from one of its fields on. -/
def WithinAll : List Field → Nat → List Value → Prop
  | [], _, _ => True
  | field :: fields, index, column =>
    Within field (column.map (Value.child index)) ∧ WithinAll fields (index + 1) column

end

/-! ## Record batches -/

/-- An array of a field with a number of slots. -/
structure ColumnOf (numRows : Nat) (field : Field) (column : List Value) : Prop where
  length : column.length = numRows
  fits : ∀ value ∈ column, Fits field value
  within : Within field (column.map Value.logical)

/-- A record batch whose columns are arrays of its schema. -/
structure RecordBatch where
  schema : Schema
  numRows : Nat
  columns : List (List Value)
  valid : List.Forall₂ (ColumnOf numRows) schema columns

end Dogpaddle.Canonical
