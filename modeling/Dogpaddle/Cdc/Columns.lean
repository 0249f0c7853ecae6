import Dogpaddle.Cdc.Decimal
import Dogpaddle.Relation.Order

/-!
# Source columns

The flat columns of a CDC source, and the arrays, record batches and changes built from its
rows. An array is the list of its slots.

* `parseScalar` is what one slot of a column may hold. The array builder (`columnArray_eq_ok`)
  and the validator of a column that nobody reads (`validateColumnValue_eq_ok`) accept the same
  values.
* A schema that validates still does when columns are left out (`validateSchema_sublist`).
-/

namespace Dogpaddle.Cdc

open Lib

/-! ## Types -/

/-- The types that a source column can have; other Arrow types are refused before. -/
inductive DataType
  | boolean
  | int16
  | int32
  | int64
  | float32
  | float64
  | utf8
  | binary
  | date32
  | timestamp (unit : Relation.TimeUnit) (timezone : Option String)
  | decimal128 (precision : Nat) (scale : Int)
deriving DecidableEq, Repr

structure Field where
  name : String
  dataType : DataType
  isNullable : Bool
deriving DecidableEq, Repr

abbrev Schema := List Field

inductive SchemaError
  | tooManyFields
  | tooManyTextBytes (owner : String)
  | duplicateField (name : String)
  | reservedFieldName (field : String)
  | invalidDecimal128 (precision : Nat) (scale : Int) (field : String)
  | emptyTimestampTimezone (field : String)
deriving DecidableEq, Repr

inductive ChangeError
  | empty
  | lengthMismatch (records diffs : Nat)
  | zeroDiff (index : Nat)
  | invalidDecimal128Value (field : String) (index : Nat) (value : Int)
  | schema (error : SchemaError)
deriving DecidableEq, Repr

inductive ConvertError
  | invalid (message : String)
  | incompleteImage
  | arrow (message : String)
  | change (error : ChangeError)
  /-- A panic of an index or of an array builder. -/
  | panicked (message : String)
deriving DecidableEq, Repr

def invalid {α : Type} (message : String) : Except ConvertError α := .error (.invalid message)

/-! ## Schemas -/

def maxSchemaFields : Nat := 16384
def maxSchemaTextBytes : Nat := 8 * 1024 * 1024
def reservedFieldPrefix : String := "$dogpaddle."

structure SchemaBudget where
  fields : Nat
  textBytes : Nat

def chargeText (budget : SchemaBudget) (bytes : Nat) (path : String) :
    Except SchemaError SchemaBudget :=
  if budget.textBytes + bytes ≤ maxSchemaTextBytes then
    .ok { budget with textBytes := budget.textBytes + bytes }
  else .error (.tooManyTextBytes path)

def validDecimal128Parameters (precision : Nat) (scale : Int) : Bool :=
  decide (0 < precision ∧ precision ≤ 38 ∧ (scale ≤ 0 ∨ scale ≤ precision))

/-- The checks on one type, after its name. -/
def validateType (field : Field) (budget : SchemaBudget) : Except SchemaError SchemaBudget :=
  match field.dataType with
  | .decimal128 precision scale =>
    if validDecimal128Parameters precision scale then .ok budget
    else .error (.invalidDecimal128 precision scale field.name)
  | .timestamp _ (some timezone) => do
    let budget ← chargeText budget timezone.utf8ByteSize field.name
    if timezone.isEmpty then .error (.emptyTimestampTimezone field.name) else pure budget
  | _ => .ok budget

def validateField (field : Field) (budget : SchemaBudget) : Except SchemaError SchemaBudget := do
  if maxSchemaFields < budget.fields + 1 then .error .tooManyFields
  else
    let budget ← chargeText { budget with fields := budget.fields + 1 }
      field.name.utf8ByteSize field.name
    if field.name.startsWith reservedFieldPrefix then .error (.reservedFieldName field.name)
    else validateType field budget

def validateFields (names : List String) (budget : SchemaBudget) :
    List Field → Except SchemaError Unit
  | [] => .ok ()
  | field :: fields => do
    if field.name ∈ names then .error (.duplicateField field.name)
    else
      let budget ← validateField field budget
      validateFields (field.name :: names) budget fields

/-- The checks of a flat schema without metadata. -/
def validateSchema (schema : Schema) : Except SchemaError Unit :=
  if maxSchemaFields < schema.length then .error .tooManyFields
  else validateFields [] ⟨0, 0⟩ schema

/-! ## Arrays -/

inductive Scalar
  | boolean (value : Bool)
  | int (value : Int)
  | float32 (value : Float32)
  | float64 (value : Float)
  | utf8 (value : String)
  | binary (value : Bytes)

/-- The bytes a slot adds to the data buffer of its array. -/
def Scalar.byteLength : Scalar → Nat
  | .utf8 value => value.utf8ByteSize
  | .binary value => value.length
  | _ => 0

structure ArrayRef where
  dataType : DataType
  slots : List (Option Scalar)

/-- An array of values of one type. -/
def arrayOf {α : Type} (dataType : DataType) (scalar : α → Scalar) (values : List (Option α)) :
    ArrayRef :=
  ⟨dataType, values.map (·.map scalar)⟩

def dataBytes (slots : List (Option Scalar)) : Nat := (slots.map (·.elim 0 Scalar.byteLength)).sum

/-- An array with 32-bit offsets into its data buffer; its builder panics when they overflow. -/
def byteArrayOf {α : Type} (dataType : DataType) (scalar : α → Scalar)
    (values : List (Option α)) : Except ConvertError ArrayRef :=
  if 2 ^ 31 ≤ dataBytes (values.map (·.map scalar)) then
    .error (.panicked "byte array offset overflow")
  else .ok (arrayOf dataType scalar values)

def withPrecisionAndScale (array : ArrayRef) (precision : Nat) (scale : Int) :
    Except ConvertError ArrayRef :=
  if precision = 0 then .error (.arrow "precision cannot be 0")
  else if 38 < precision then .error (.arrow "precision is greater than max 38")
  else if 38 < scale then .error (.arrow "scale is greater than max 38")
  else if 0 < scale ∧ precision < scale then .error (.arrow "scale is greater than precision")
  else .ok { array with dataType := .decimal128 precision scale }

/-! ## Record batches and changes -/

structure RecordBatch where
  schema : Schema
  columns : List ArrayRef
  numRows : Nat

def checkNulls : List (ArrayRef × Field) → Except ConvertError Unit
  | [] => .ok ()
  | (array, field) :: rest =>
    if ¬ field.isNullable ∧ array.slots.any Option.isNone then
      .error (.arrow s!"Column {field.name} is declared as non-nullable but contains null values")
    else checkNulls rest

def RecordBatch.tryNewWithOptions (schema : Schema) (columns : List ArrayRef) (rowCount : Nat) :
    Except ConvertError RecordBatch := do
  if schema.length ≠ columns.length then
    .error (.arrow "number of columns must match number of fields in schema")
  else
    checkNulls (columns.zip schema)
    if columns.any (·.slots.length ≠ rowCount) then
      .error (.arrow "all columns in a record batch must have the specified row count")
    else if (columns.zip schema).any (fun column => column.1.dataType ≠ column.2.dataType) then
      .error (.arrow "column types must match schema types")
    else pure ⟨schema, columns, rowCount⟩

structure Change where
  records : RecordBatch
  diffs : List Int

/-- A decimal slot outside the declared precision. -/
def overflows (precision : Nat) : Option Scalar → Option Int
  | some (.int value) =>
    if -10 ^ precision < value ∧ value < 10 ^ precision then none else some value
  | _ => none

def validateDecimal128Array (field : Field) (array : ArrayRef) : Except ChangeError Unit :=
  match field.dataType with
  | .decimal128 precision _ =>
    array.slots.zipIdx.forM fun slot =>
      match overflows precision slot.1 with
      | some value => .error (.invalidDecimal128Value field.name slot.2 value)
      | none => .ok ()
  | _ => .ok ()

/-- The checks of a change that its differences and its decimals pass. -/
def Change.check (records : RecordBatch) (diffs : List Int) : Except ChangeError Unit := do
  if records.numRows = 0 then .error .empty
  else if records.numRows ≠ diffs.length then
    .error (.lengthMismatch records.numRows diffs.length)
  else
    match diffs.idxOf? 0 with
    | some index => .error (.zeroDiff index)
    | none => do
      (validateSchema records.schema).mapError .schema
      (records.schema.zip records.columns).forM fun column =>
        validateDecimal128Array column.1 column.2

def Change.tryNew (records : RecordBatch) (diffs : List Int) : Except ConvertError Change := do
  (Change.check records diffs).mapError .change
  pure ⟨records, diffs⟩

/-- What a projection keeps of the columns. -/
def pick {α : Type} (projection : List Nat) (columns : List α) : List α :=
  projection.filterMap (columns[·]?)

/-- The change without the columns that a projection leaves out. -/
def Change.project (projection : List Nat) (change : Change) : Change :=
  { change with
    records :=
      { change.records with
        schema := pick projection change.records.schema
        columns := pick projection change.records.columns } }

/-! ## Parsing values -/

/-- A point in time, as the RFC 3339 parser hands it over. -/
structure DateTime where
  timestampSubsecNanos : Nat
  timestampMicros : Int

/-- The libraries that conversion calls. -/
structure Host where
  /-- The JSON parser. -/
  fromSlice : Bytes → Option Value
  engine : Engine
  parseFromRfc3339 : String → Option DateTime

def parseInt16 (value : Value) : Option Int := do
  let number ← value.asI64
  if -2 ^ 15 ≤ number ∧ number < 2 ^ 15 then some number else none

def parseInt32 (value : Value) : Option Int := do
  let number ← value.asI64
  if -2 ^ 31 ≤ number ∧ number < 2 ^ 31 then some number else none

def parseDate (value : Value) : Option Int := do
  let days ← parseInt32 value
  -- Earlier values include Debezium's wrapped PostgreSQL infinity sentinels.
  if days ≥ -2440588 then some days else none

def parseTimestamp (value : Value) : Option Int := do
  let micros ← value.asI64
  if micros = 9223372036825200000 ∨ micros = -9223372036832400000 then none else some micros

def parseFloat64 (value : Value) : Option Float :=
  match value.asF64 with
  | some number => some number
  | none =>
    match value.asStr with
    | some "NaN" => some (0.0 / 0.0)
    | some "Infinity" => some (1.0 / 0.0)
    | some "-Infinity" => some (-1.0 / 0.0)
    | _ => none

def parseFloat32 (value : Value) : Option Float32 := do
  let parsed ← parseFloat64 value
  let narrowed := parsed.toFloat32
  if ¬ parsed.isFinite ∨ narrowed.isFinite then some narrowed else none

namespace Host

variable (host : Host)

def parseBinary (value : Value) : Option Bytes := do host.engine.decode (← value.asStr)

def validBinary (value : Value) : Bool := value.asStr.any host.engine.read

def parseTimestampTz (value : Value) : Option Int := do
  let timestamp ← host.parseFromRfc3339 (← value.asStr)
  if timestamp.timestampSubsecNanos < 1000000000 ∧ timestamp.timestampSubsecNanos % 1000 = 0 then
    some timestamp.timestampMicros
  else none

end Host

def invalidColumnValue {α : Type} (column : Field) : Except ConvertError α :=
  invalid s!"invalid or unsupported value in column {column.name}"

/-- The cell of one row. -/
def columnValue {α : Type} (column : Field) (parse : Value → Option α) (row : Row) :
    Except ConvertError (Option α) :=
  match row.get column.name with
  | none => .error (.panicked "no entry found for key")
  | some value =>
    if value.isNull then .ok none
    else
      match parse value with
      | some parsed => .ok (some parsed)
      | none => invalidColumnValue column

def columnValues {α : Type} (column : Field) (rows : List Row) (parse : Value → Option α) :
    Except ConvertError (List (Option α)) :=
  rows.mapM (columnValue column parse)

def validateColumnValue (host : Host) (column : Field) (value : Value) : Except ConvertError Unit :=
  let valid := value.isNull ||
    match column.dataType with
    | .boolean => value.asBool.isSome
    | .int16 => (parseInt16 value).isSome
    | .int32 => (parseInt32 value).isSome
    | .int64 => value.asI64.isSome
    | .float32 => (parseFloat32 value).isSome
    | .float64 => (parseFloat64 value).isSome
    | .utf8 => value.asStr.isSome
    | .binary => host.validBinary value
    | .date32 => (parseDate value).isSome
    | .timestamp .microsecond none => (parseTimestamp value).isSome
    | .timestamp .microsecond (some zone) =>
      if zone = "UTC" then (host.parseTimestampTz value).isSome else false
    | .timestamp _ _ => false
    | .decimal128 precision _ => (parseDecimal host.engine value precision).isSome
  if valid then .ok () else invalidColumnValue column

def columnArray (host : Host) (column : Field) (rows : List Row) : Except ConvertError ArrayRef :=
  match column.dataType with
  | .boolean => do
    pure (arrayOf .boolean .boolean (← columnValues column rows Value.asBool))
  | .int16 => do
    pure (arrayOf .int16 .int (← columnValues column rows parseInt16))
  | .int32 => do
    pure (arrayOf .int32 .int (← columnValues column rows parseInt32))
  | .int64 => do
    pure (arrayOf .int64 .int (← columnValues column rows Value.asI64))
  | .float32 => do
    pure (arrayOf .float32 .float32 (← columnValues column rows parseFloat32))
  | .float64 => do
    pure (arrayOf .float64 .float64 (← columnValues column rows parseFloat64))
  | .utf8 => do
    byteArrayOf .utf8 .utf8 (← columnValues column rows Value.asStr)
  | .binary => do
    byteArrayOf .binary .binary (← columnValues column rows host.parseBinary)
  | .date32 => do
    pure (arrayOf .date32 .int (← columnValues column rows parseDate))
  | .timestamp .microsecond none => do
    pure (arrayOf (.timestamp .microsecond none) .int (← columnValues column rows parseTimestamp))
  | .timestamp .microsecond (some zone) =>
    if zone = "UTC" then do
      let values ← columnValues column rows host.parseTimestampTz
      pure (arrayOf (.timestamp .microsecond (some "UTC")) .int values)
    else invalid "unsupported source column type"
  | .timestamp _ _ => invalid "unsupported source column type"
  | .decimal128 precision scale => do
    let values ← columnValues column rows fun value => parseDecimal host.engine value precision
    withPrecisionAndScale (arrayOf (.decimal128 38 10) .int values) precision scale

/-! ## What a slot may hold -/

/-- The scalar of a value that is not null, in a column of a type. -/
def parseScalar (host : Host) (dataType : DataType) (value : Value) : Option Scalar :=
  match dataType with
  | .boolean => value.asBool.map .boolean
  | .int16 => (parseInt16 value).map .int
  | .int32 => (parseInt32 value).map .int
  | .int64 => value.asI64.map .int
  | .float32 => (parseFloat32 value).map .float32
  | .float64 => (parseFloat64 value).map .float64
  | .utf8 => value.asStr.map .utf8
  | .binary => (host.parseBinary value).map .binary
  | .date32 => (parseDate value).map .int
  | .timestamp .microsecond none => (parseTimestamp value).map .int
  | .timestamp .microsecond (some zone) =>
    if zone = "UTC" then (host.parseTimestampTz value).map .int else none
  | .timestamp _ _ => none
  | .decimal128 precision _ => (parseDecimal host.engine value precision).map .int

/-- The types that both sources take their columns from. -/
def DataType.Supported : DataType → Prop
  | .timestamp unit timezone =>
    unit = .microsecond ∧ (timezone = none ∨ timezone = some "UTC")
  | .decimal128 precision scale =>
    1 ≤ precision ∧ precision ≤ 38 ∧ 0 ≤ scale ∧ scale ≤ precision
  | _ => True

/-- The slot a value fills, if it may stand in the column. -/
def parseSlot (host : Host) (column : Field) (value : Value) : Option (Option Scalar) :=
  if value.isNull then some none else (parseScalar host column.dataType value).map some

/-- The slot a row fills. -/
def rowSlot (host : Host) (column : Field) (row : Row) : Option (Option Scalar) :=
  (row.get column.name).bind (parseSlot host column)

/-- The slot a row fills, or a null. -/
def slotOf (host : Host) (column : Field) (row : Row) : Option Scalar :=
  (rowSlot host column row).join

variable {host : Host} {column : Field} {rows : List Row}

theorem validBinary_eq (hread : ∀ s, host.engine.read s = (host.engine.decode s).isSome)
    (value : Value) : host.validBinary value = (host.parseBinary value).isSome := by
  unfold Host.validBinary Host.parseBinary
  cases value.asStr with
  | none => rfl
  | some s => exact hread s

theorem isSome_parseSlot {value : Value} :
    (parseSlot host column value).isSome =
      (value.isNull || (parseScalar host column.dataType value).isSome) := by
  unfold parseSlot
  cases value.isNull
  · simp
  · simp

/-- A column nobody reads takes the values that its array would take. -/
theorem validateColumnValue_eq_ok (hread : ∀ s, host.engine.read s = (host.engine.decode s).isSome)
    {value : Value} :
    validateColumnValue host column value = .ok () ↔ (parseSlot host column value).isSome := by
  have hvalid : validateColumnValue host column value =
      if (parseSlot host column value).isSome then .ok () else invalidColumnValue column := by
    unfold validateColumnValue
    rw [isSome_parseSlot]
    unfold parseScalar
    cases column.dataType with
    | binary => simp only [validBinary_eq hread, Option.isSome_map]
    | timestamp unit timezone =>
      cases unit with
      | microsecond =>
        cases timezone with
        | none => simp only [Option.isSome_map]
        | some zone =>
          by_cases hzone : zone = "UTC"
          · simp only [hzone, if_true, Option.isSome_map]
          · simp only [hzone, if_false, Option.isSome_none]
      | second | millisecond | nanosecond => rfl
    | _ => simp only [Option.isSome_map]
  rw [hvalid]
  split
  · next h => exact ⟨fun _ => h, fun _ => rfl⟩
  · next h => exact ⟨fun hok => (nomatch hok), fun hsome => absurd hsome h⟩

/-! ## Arrays of slots -/

theorem columnValue_map {α β : Type} (parse : Value → Option α) (f : α → β) (row : Row) :
    columnValue column (fun value => (parse value).map f) row =
      (columnValue column parse row).map (·.map f) := by
  unfold columnValue
  cases row.get column.name with
  | none => rfl
  | some value =>
    dsimp only
    split
    · rfl
    · cases parse value <;> rfl

theorem columnValues_map {α β : Type} (parse : Value → Option α) (f : α → β) :
    columnValues column rows (fun value => (parse value).map f) =
      (columnValues column rows parse).map (·.map (·.map f)) := by
  unfold columnValues
  induction rows with
  | nil => rfl
  | cons row rows ih =>
    rw [List.mapM_cons, List.mapM_cons, columnValue_map, ih]
    cases columnValue column parse row with
    | error e => rfl
    | ok value => cases rows.mapM (columnValue column parse) <;> rfl

/-- The array of some slots, if 32-bit offsets reach all of their bytes. -/
def slotArray (dataType : DataType) (slots : List (Option Scalar)) : Except ConvertError ArrayRef :=
  if 2 ^ 31 ≤ dataBytes slots then .error (.panicked "byte array offset overflow")
  else .ok ⟨dataType, slots⟩

theorem dataBytes_map_eq_zero {α : Type} {f : α → Scalar} (hf : ∀ a, (f a).byteLength = 0)
    (values : List (Option α)) : dataBytes (values.map (·.map f)) = 0 := by
  unfold dataBytes
  induction values with
  | nil => rfl
  | cons value values ih =>
    rw [List.map_cons, List.map_cons, List.sum_cons, ih]
    cases value with
    | none => rfl
    | some a => exact hf a

/-- The arrays without a data buffer. -/
theorem arrayOf_eq {α : Type} {f : α → Scalar} (hf : ∀ a, (f a).byteLength = 0)
    (dataType : DataType) (parse : Value → Option α) :
    (do pure (arrayOf dataType f (← columnValues column rows parse))) =
      columnValues column rows (fun value => (parse value).map f) >>= slotArray dataType := by
  rw [columnValues_map]
  cases columnValues column rows parse with
  | error e => rfl
  | ok values =>
    show Except.ok _ = slotArray dataType (values.map (·.map f))
    rw [slotArray, dataBytes_map_eq_zero hf, if_neg (by decide)]
    rfl

theorem byteArrayOf_eq {α : Type} (f : α → Scalar) (dataType : DataType)
    (parse : Value → Option α) :
    (do byteArrayOf dataType f (← columnValues column rows parse)) =
      columnValues column rows (fun value => (parse value).map f) >>= slotArray dataType := by
  rw [columnValues_map]
  cases columnValues column rows parse <;> rfl

/-- Every supported column is built the same way from its slots. -/
theorem columnArray_eq (h : column.dataType.Supported) :
    columnArray host column rows =
      columnValues column rows (parseScalar host column.dataType) >>=
        slotArray column.dataType := by
  have hint : ∀ n : Int, (Scalar.int n).byteLength = 0 := fun _ => rfl
  unfold columnArray
  cases htype : column.dataType with
  | boolean => exact arrayOf_eq (fun _ => rfl) .boolean Value.asBool
  | int16 => exact arrayOf_eq hint .int16 parseInt16
  | int32 => exact arrayOf_eq hint .int32 parseInt32
  | int64 => exact arrayOf_eq hint .int64 Value.asI64
  | float32 => exact arrayOf_eq (fun _ => rfl) .float32 parseFloat32
  | float64 => exact arrayOf_eq (fun _ => rfl) .float64 parseFloat64
  | utf8 => exact byteArrayOf_eq .utf8 .utf8 Value.asStr
  | binary => exact byteArrayOf_eq .binary .binary host.parseBinary
  | date32 => exact arrayOf_eq hint .date32 parseDate
  | timestamp unit timezone =>
    rw [htype] at h
    obtain ⟨rfl, rfl | rfl⟩ := h
    · exact arrayOf_eq hint (.timestamp .microsecond none) parseTimestamp
    · exact arrayOf_eq hint (.timestamp .microsecond (some "UTC")) host.parseTimestampTz
  | decimal128 precision scale =>
    rw [htype] at h
    obtain ⟨hlow, hhigh, hscale, hle⟩ := h
    refine Eq.trans ?_ (arrayOf_eq hint (.decimal128 precision scale)
      fun value => parseDecimal host.engine value precision)
    dsimp only
    cases columnValues column rows fun value => parseDecimal host.engine value precision with
    | error e => rfl
    | ok values =>
      show withPrecisionAndScale _ precision scale = _
      unfold withPrecisionAndScale
      rw [if_neg (by omega), if_neg (by omega), if_neg (by omega), if_neg (by omega)]
      rfl

theorem columnValue_eq_ok {row : Row} {slot : Option Scalar} :
    columnValue column (parseScalar host column.dataType) row = .ok slot ↔
      rowSlot host column row = some slot := by
  unfold columnValue rowSlot parseSlot
  cases row.get column.name with
  | none => exact ⟨fun h => (nomatch h), fun h => (nomatch h)⟩
  | some value =>
    rw [Option.bind_some]
    dsimp only
    split
    · rw [Except.ok.injEq, Option.some.injEq]
    · cases parseScalar host column.dataType value with
      | none => exact ⟨fun h => (nomatch h), fun h => (nomatch h)⟩
      | some scalar => rw [Option.map_some, Except.ok.injEq, Option.some.injEq]

/-- A column is read when every row fills its slot. -/
theorem columnValues_eq_ok {slots : List (Option Scalar)} :
    columnValues column rows (parseScalar host column.dataType) = .ok slots ↔
      (∀ row ∈ rows, (rowSlot host column row).isSome) ∧
        slots = rows.map (slotOf host column) := by
  refine mapM_eq_ok_iff fun row _ slot => columnValue_eq_ok.trans ?_
  unfold slotOf
  cases rowSlot host column row with
  | none => simp
  | some filled => simp [eq_comm]

/-- A column's array is the slots that its rows fill. -/
theorem columnArray_eq_ok {array : ArrayRef} (h : column.dataType.Supported) :
    columnArray host column rows = .ok array ↔
      (∀ row ∈ rows, (rowSlot host column row).isSome) ∧
        dataBytes (rows.map (slotOf host column)) < 2 ^ 31 ∧
        array = ⟨column.dataType, rows.map (slotOf host column)⟩ := by
  rw [columnArray_eq h, except_bind_eq_ok]
  constructor
  · rintro ⟨slots, hslots, harray⟩
    obtain ⟨hall, rfl⟩ := columnValues_eq_ok.mp hslots
    unfold slotArray at harray
    split at harray
    · cases harray
    · next hfits =>
      cases harray
      exact ⟨hall, not_le.mp hfits, rfl⟩
  · rintro ⟨hall, hfits, rfl⟩
    exact ⟨_, columnValues_eq_ok.mpr ⟨hall, rfl⟩, if_neg (not_le.mpr hfits)⟩

/-! ## Schemas without some columns -/

/-- One budget has no more used up than another. -/
structure SchemaBudget.Le (a b : SchemaBudget) : Prop where
  fields : a.fields ≤ b.fields
  textBytes : a.textBytes ≤ b.textBytes

theorem SchemaBudget.Le.trans {a b c : SchemaBudget} (h : a.Le b) (h' : b.Le c) : a.Le c :=
  ⟨h.1.trans h'.1, h.2.trans h'.2⟩

/-- A check that uses up some of the budget passes with more of it as well. -/
def Charges (check : SchemaBudget → Except SchemaError SchemaBudget) : Prop :=
  ∀ b b₁, check b = .ok b₁ →
    b.Le b₁ ∧ ∀ a : SchemaBudget, a.Le b → ∃ a₁, check a = .ok a₁ ∧ a₁.Le b₁

theorem charges_ok : Charges (fun b => .ok b) := by
  intro b b₁ h
  cases h
  exact ⟨⟨le_rfl, le_rfl⟩, fun a ha => ⟨a, rfl, ha⟩⟩

theorem charges_error (e : SchemaError) : Charges (fun _ => .error e) := fun _ _ h => (nomatch h)

theorem Charges.bind {f g : SchemaBudget → Except SchemaError SchemaBudget} (hf : Charges f)
    (hg : Charges g) : Charges (fun b => f b >>= g) := by
  intro b b₂ h
  obtain ⟨b₁, h₁, h₂⟩ := except_bind_eq_ok.mp h
  obtain ⟨hle₁, hmore₁⟩ := hf b b₁ h₁
  obtain ⟨hle₂, hmore₂⟩ := hg b₁ b₂ h₂
  refine ⟨hle₁.trans hle₂, fun a ha => ?_⟩
  obtain ⟨a₁, ha₁, hle⟩ := hmore₁ a ha
  obtain ⟨a₂, ha₂, hle'⟩ := hmore₂ a₁ hle
  exact ⟨a₂, except_bind_eq_ok.mpr ⟨a₁, ha₁, ha₂⟩, hle'⟩

theorem charges_chargeText (bytes : Nat) (path : String) :
    Charges (fun b => chargeText b bytes path) := by
  intro b b₁ h
  unfold chargeText at h ⊢
  dsimp only at h ⊢
  split at h
  · next hroom =>
    cases h
    refine ⟨⟨le_rfl, Nat.le_add_right _ _⟩, fun a ha => ?_⟩
    have htext := ha.textBytes
    rw [if_pos (by omega)]
    exact ⟨_, rfl, ha.fields, Nat.add_le_add_right htext bytes⟩
  · cases h

theorem charges_validateType (field : Field) : Charges (validateType field) := by
  have hplain := charges_ok
  unfold validateType
  cases field.dataType with
  | decimal128 precision scale =>
    dsimp only
    split
    · exact hplain
    · exact charges_error _
  | timestamp unit timezone =>
    cases timezone with
    | none => exact hplain
    | some timezone =>
      refine (charges_chargeText _ _).bind ?_
      by_cases hempty : timezone.isEmpty
      · simp only [hempty, if_true]
        exact charges_error _
      · simp only [hempty]
        exact hplain
  | _ => exact hplain

theorem charges_validateField (field : Field) : Charges (validateField field) := by
  have hcount : Charges fun b =>
      if maxSchemaFields < b.fields + 1 then .error .tooManyFields
      else .ok { b with fields := b.fields + 1 } := by
    intro b b₁ h
    dsimp only at h ⊢
    split at h
    · cases h
    · next hroom =>
      cases h
      refine ⟨⟨Nat.le_succ _, le_rfl⟩, fun a ha => ?_⟩
      have hfields := ha.fields
      rw [if_neg (by omega)]
      exact ⟨_, rfl, Nat.succ_le_succ hfields, ha.textBytes⟩
  have hname := charges_chargeText field.name.utf8ByteSize field.name
  have htype : Charges fun b =>
      if field.name.startsWith reservedFieldPrefix then .error (.reservedFieldName field.name)
      else validateType field b := by
    split
    · exact charges_error _
    · exact charges_validateType field
  have hall := hcount.bind (hname.bind htype)
  have hform : validateField field = fun b =>
      (if maxSchemaFields < b.fields + 1 then .error .tooManyFields
        else .ok { b with fields := b.fields + 1 }) >>= fun b =>
      chargeText b field.name.utf8ByteSize field.name >>= fun b =>
      if field.name.startsWith reservedFieldPrefix then .error (.reservedFieldName field.name)
      else validateType field b := by
    funext b
    unfold validateField
    split <;> rfl
  rw [hform]
  exact hcount.bind (hname.bind htype)

theorem validateFields_sublist {fields fields' : List Field} (h : List.Sublist fields' fields) :
    ∀ {names names' : List String} {b b' : SchemaBudget}, names' ⊆ names → b'.Le b →
      validateFields names b fields = .ok () → validateFields names' b' fields' = .ok () := by
  have hdrop : ∀ {names : List String} {b : SchemaBudget} {field : Field} {rest : List Field},
      validateFields names b (field :: rest) = .ok () →
        field.name ∉ names ∧ ∃ b₁, validateField field b = .ok b₁ ∧
          validateFields (field.name :: names) b₁ rest = .ok () := by
    intro names b field rest h
    unfold validateFields at h
    split at h
    · cases h
    · next hnew => exact ⟨hnew, except_bind_eq_ok.mp h⟩
  induction h with
  | slnil => exact fun _ _ _ => rfl
  | cons field _ ih =>
    intro names names' b b' hnames hle hvalid
    obtain ⟨-, b₁, hfield, hrest⟩ := hdrop hvalid
    have hgrown := (charges_validateField field b b₁ hfield).1
    exact ih (List.Subset.trans hnames (List.subset_cons_self _ _)) (hle.trans hgrown) hrest
  | cons_cons field _ ih =>
    intro names names' b b' hnames hle hvalid
    obtain ⟨hnew, b₁, hfield, hrest⟩ := hdrop hvalid
    obtain ⟨b₁', hfield', hle'⟩ := (charges_validateField field b b₁ hfield).2 b' hle
    unfold validateFields
    rw [if_neg fun hmem => hnew (hnames hmem)]
    exact except_bind_eq_ok.mpr ⟨b₁', hfield', ih (List.cons_subset_cons _ hnames) hle' hrest⟩

/-- A schema stays valid when columns are left out. -/
theorem validateSchema_sublist {schema schema' : Schema} (h : List.Sublist schema' schema)
    (hvalid : validateSchema schema = .ok ()) : validateSchema schema' = .ok () := by
  unfold validateSchema at hvalid ⊢
  have hlength := h.length_le
  split at hvalid
  · cases hvalid
  · rw [if_neg (by omega)]
    exact validateFields_sublist h (List.Subset.refl _) ⟨le_rfl, le_rfl⟩ hvalid

end Dogpaddle.Cdc
