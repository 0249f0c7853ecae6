import Dogpaddle.Cdc.Columns

/-!
# Conversion of deliveries

What both CDC sources do with the records of a delivery: every record is checked against the
source's topics, its envelope and the phase of the capture, and row images become one change.
A delivery seals the capture when it has the completion notification.

`Source` is what the two sources differ in; `MySqlCdcScanSpec.source` and
`PostgresCdcScanSpec.source` are the sources.
-/

namespace Dogpaddle.Cdc

open Lib

structure SnapshotProgress where
  sawSnapshotRow : Bool
  snapshotComplete : Bool
deriving DecidableEq, Repr

def SnapshotProgress.default : SnapshotProgress := ⟨false, false⟩

inductive SnapshotMarker
  | snapshot
  | last
  | streaming
deriving DecidableEq, Repr

/-- What a database-specific source adds to the conversion. -/
structure Source where
  captureAcceptsStreaming : Bool
  streamingTombstones : Bool
  columns : List Field
  outputProjection : List Nat
  engineName : String
  tableTopic : String
  snapshotMarker : (payload : Row) → (capturing : Bool) → Except ConvertError SnapshotMarker

/-- A delivered record: its topic and its value. -/
structure Record where
  topic : Option String
  value : Option Bytes

structure Captured where
  change : Option Change
  isSealed : Bool
  progress : SnapshotProgress

/-! ## Schemas and envelopes -/

def validDecimal (precision : Nat) (scale : Int) : Bool :=
  decide (1 ≤ precision ∧ precision ≤ 38 ∧ 0 ≤ scale ∧ scale ≤ precision)

def connectType : DataType → Except ConvertError (String × Option String)
  | .boolean => .ok ("boolean", none)
  | .int16 => .ok ("int16", none)
  | .int32 => .ok ("int32", none)
  | .int64 => .ok ("int64", none)
  | .float32 => .ok ("float", none)
  | .float64 => .ok ("double", none)
  | .utf8 => .ok ("string", none)
  | .binary => .ok ("bytes", none)
  | .date32 => .ok ("int32", some "io.debezium.time.Date")
  | .timestamp .microsecond none => .ok ("int64", some "io.debezium.time.MicroTimestamp")
  | .timestamp .microsecond (some zone) =>
    if zone = "UTC" then .ok ("string", some "io.debezium.time.ZonedTimestamp")
    else invalid "unsupported source column type"
  | .timestamp _ _ => invalid "unsupported source column type"
  | .decimal128 precision scale =>
    if validDecimal precision scale then
      .ok ("bytes", some "org.apache.kafka.connect.data.Decimal")
    else invalid "unsupported source column type"

inductive DefinitionError
  | message (message : String)
  | schema (error : SchemaError)
deriving DecidableEq, Repr

def checkColumns (supported : DataType → Bool) (names : List String) :
    List Field → Except DefinitionError Unit
  | [] => .ok ()
  | field :: fields =>
    if ¬ supported field.dataType then .error (.message "unsupported source column type")
    else if field.name.isEmpty ∨ '\x00' ∈ field.name.toList ∨ field.name ∈ names then
      .error (.message "column names must be nonempty, NUL-free, and unique")
    else checkColumns supported (field.name :: names) fields

/-- The columns a source can have are its schema. -/
def sourceSchema (columns : List Field) (supported : DataType → Bool) :
    Except DefinitionError Schema := do
  if columns.isEmpty ∨ 1600 < columns.length then
    .error (.message "table must have between 1 and 1600 columns")
  else
    checkColumns supported [] columns
    (validateSchema columns).mapError .schema
    pure columns

def objectField (value : Value) (field : String) : Except ConvertError Row :=
  match (value.get field).bind Value.asObject with
  | some row => .ok row
  | none => invalid s!"missing object field {field}"

def textField (row : Row) (field : String) : Option String := (row.get field).bind Value.asStr

/-- The text member of a value that is an object. -/
def Value.textAt (value : Value) (field : String) : Option String :=
  (value.get field).bind Value.asStr

def validateSnapshotNotification (payload : Row) : Except ConvertError Bool :=
  if textField payload "aggregate_type" ≠ some "Initial Snapshot" then
    invalid "unexpected Debezium notification aggregate"
  else
    match textField payload "type" with
    | some "STARTED" | some "IN_PROGRESS" | some "TABLE_SCAN_COMPLETED" => .ok false
    | some "COMPLETED" => .ok true
    | some "ABORTED" | some "SKIPPED" =>
      invalid "Debezium initial snapshot did not complete successfully"
    | _ => invalid "unexpected Debezium initial snapshot notification"

/-- One column of a row schema. -/
def validateColumnSchema (column : Field) (field : Value) : Except ConvertError Unit := do
  let (literal, logical) ← connectType column.dataType
  let logicalMatches : Bool :=
    match logical, field.get "name" with
    | none, none => true
    | some expected, some (.string actual) => decide (actual = expected)
    | _, _ => false
  if field.textAt "field" ≠ some column.name ∨ field.textAt "type" ≠ some literal ∨
      ¬ logicalMatches ∨ (field.get "optional").bind Value.asBool ≠ some column.isNullable then
    invalid s!"schema changed at column {column.name}"
  else
    match column.dataType with
    | .decimal128 precision scale => do
      let parameters ← objectField field "parameters"
      if textField parameters "scale" ≠ some (toString scale) ∨
          textField parameters "connect.decimal.precision" ≠ some (toString precision) then
        invalid s!"decimal schema changed at column {column.name}"
    | _ => pure ()

/-- The schema of the `before` or the `after` row of an envelope. -/
def validateRowSchema (columns : List Field) (fields : List Value) (rowName : String) :
    Except ConvertError Unit :=
  match fields.filter fun field => field.textAt "field" = some rowName with
  | [] => invalid "missing row schema"
  | row :: others =>
    if ¬ others.isEmpty ∨ row.textAt "type" ≠ some "struct" ∨
        (row.get "optional").bind Value.asBool ≠ some true then
      invalid "row schema must be one optional struct"
    else
      match (row.get "fields").bind Value.asArray with
      | none => invalid "row schema has no fields"
      | some fields =>
        if fields.length ≠ columns.length then
          invalid "table schema changed its column count"
        else (columns.zip fields).forM fun column => validateColumnSchema column.1 column.2

def validateEnvelope (columns : List Field) (schema : Row) : Except ConvertError Unit :=
  if textField schema "type" ≠ some "struct" then invalid "envelope schema must be a struct"
  else
    match (schema.get "fields").bind Value.asArray with
    | none => invalid "envelope schema has no fields"
    | some fields => do
      validateRowSchema columns fields "before"
      validateRowSchema columns fields "after"

def validateHeartbeat (schema payload : Row) : Except ConvertError Unit :=
  match (schema.get "fields").bind Value.asArray with
  | some [timestamp] =>
    if textField schema "type" ≠ some "struct" ∨
        textField schema "name" ≠ some "io.debezium.connector.common.Heartbeat" ∨
        timestamp.textAt "field" ≠ some "ts_ms" ∨ timestamp.textAt "type" ≠ some "int64" ∨
        (timestamp.get "optional").bind Value.asBool ≠ some false ∨
        (timestamp.get "name").isSome ∨ payload.length ≠ 1 ∨
        ((payload.get "ts_ms").bind Value.asI64).isNone then
      invalid "unexpected heartbeat record"
    else .ok ()
  | _ => invalid "unexpected heartbeat schema"

/-! ## Rows -/

/-- The columns of a row image from some index on, keeping the projected ones. -/
def completeColumns (host : Host) :
    (columns : List Field) → (index : Nat) → (projection : List Nat) → Row →
      Except ConvertError Row
  | [], _, _, row => .ok row
  | column :: columns, index, projection, row =>
    match row.get column.name with
    | none => invalid s!"row image is missing column {column.name}"
    | some value =>
      if value.isNull ∧ ¬ column.isNullable then
        invalid s!"non-null column {column.name} contains null"
      else if projection.head? = some index then
        completeColumns host columns (index + 1) projection.tail row
      else do
        validateColumnValue host column value
        completeColumns host columns (index + 1) projection (row.remove column.name)

def completeRow (host : Host) (columns : List Field) (outputProjection : List Nat)
    (value : Value) : Except ConvertError Row :=
  match value with
  | .object row =>
    if row.length ≠ columns.length then
      invalid "row image does not contain exactly the declared columns"
    else completeColumns host columns 0 outputProjection row
  | _ => .error .incompleteImage

def buildChange (host : Host) (columns : List Field) (outputProjection : List Nat)
    (outputSchema : Schema) (rows : List Row) (diffs : List Int) :
    Except ConvertError (Option Change) :=
  if rows.isEmpty then .ok none
  else do
    let arrays ← outputProjection.mapM fun index =>
      match columns[index]? with
      | some column => columnArray host column rows
      | none => invalid "output projection is outside the source schema"
    let records ← RecordBatch.tryNewWithOptions outputSchema arrays rows.length
    let change ← Change.tryNew records diffs
    pure (some change)

/-! ## Deliveries -/

/-- What one record leaves to the next ones of its delivery. -/
structure Conversion where
  progress : SnapshotProgress
  isSealed : Bool
deriving DecidableEq, Repr

def applySnapshotNotification (source : Source) (payload : Row) (s : Conversion) :
    Except ConvertError Conversion := do
  if ← validateSnapshotNotification payload then
    if s.isSealed then invalid "snapshot completion notification is duplicated"
    else if s.progress.sawSnapshotRow ∧ ¬ s.progress.snapshotComplete then
      invalid "snapshot completed before Debezium marked the last snapshot row"
    else
      let complete := source.captureAcceptsStreaming || s.progress.snapshotComplete
      pure ⟨{ s.progress with snapshotComplete := complete }, true⟩
  else pure s

def heartbeatTopic (source : Source) : String := s!"__debezium-heartbeat.{source.engineName}"

def notificationTopic (source : Source) : String :=
  s!"__dogpaddle-notification.{source.engineName}"

section Records

/-! A record adds its rows and their differences to the delivery's. Rows are what `complete`
makes of a row image. -/

variable {α : Type} (complete : Value → Except ConvertError α) (host : Host) (source : Source)
  (capturing : Bool)

/-- The rows of one change event. -/
def convertEvent (payload : Row) (marker : SnapshotMarker) (before after : Value)
    (s : Conversion) : Except ConvertError (Conversion × List (α × Int)) :=
  let streaming := !capturing || (source.captureAcceptsStreaming && s.progress.snapshotComplete)
  let op := textField payload "op"
  if op = some "r" ∧ marker ≠ .streaming ∧ before.isNull then
    if ¬ capturing then invalid "snapshot record arrived while streaming"
    else if s.isSealed ∨ s.progress.snapshotComplete then
      invalid "snapshot record arrived after snapshot completion"
    else do
      let row ← complete after
      let complete := decide (marker = .last) || s.progress.snapshotComplete
      pure (⟨⟨true, complete⟩, s.isSealed⟩, [(row, 1)])
  else if op = some "c" ∧ marker = .streaming ∧ streaming ∧ before.isNull then do
    let row ← complete after
    pure (s, [(row, 1)])
  else if op = some "u" ∧ marker = .streaming ∧ streaming then do
    let old ← complete before
    let row ← complete after
    pure (s, [(old, -1), (row, 1)])
  else if op = some "d" ∧ marker = .streaming ∧ streaming ∧ after.isNull then do
    let old ← complete before
    pure (s, [(old, -1)])
  else invalid "record operation or snapshot marker is invalid for the current CDC phase"

/-- A record of the table, with a value. -/
def convertTableRecord (value : Value) (schema : Row) (s : Conversion) :
    Except ConvertError (Conversion × List (α × Int)) :=
  if capturing ∧ ¬ source.captureAcceptsStreaming ∧
      (s.isSealed ∨ s.progress.snapshotComplete) then
    invalid "snapshot record arrived after snapshot completion"
  else do
    validateEnvelope source.columns schema
    let payload ← objectField value "payload"
    let marker ← source.snapshotMarker payload capturing
    match payload.get "before" with
    | none => invalid "missing before"
    | some before =>
      match (payload.remove "before").get "after" with
      | none => invalid "missing after"
      | some after =>
        convertEvent complete source capturing ((payload.remove "before").remove "after") marker
          before after s

def convertRecord (s : Conversion) (record : Record) :
    Except ConvertError (Conversion × List (α × Int)) :=
  let notification := capturing && decide (record.topic = some (notificationTopic source))
  if record.topic ≠ some source.tableTopic ∧ record.topic ≠ some (heartbeatTopic source) ∧
      ¬ notification then
    invalid "record has an unexpected topic"
  else
    match record.value with
    | none =>
      if ¬ capturing ∧ source.streamingTombstones ∧ record.topic = some source.tableTopic then
        .ok (s, [])
      else invalid "CDC records cannot be tombstones"
    | some bytes =>
      match host.fromSlice bytes with
      | none => invalid "record is not valid schemas-enabled Connect JSON"
      | some value => do
        let schema ← objectField value "schema"
        if notification then do
          let payload ← objectField value "payload"
          let s ← applySnapshotNotification source payload s
          pure (s, [])
        else if record.topic = some (heartbeatTopic source) then do
          let payload ← objectField value "payload"
          validateHeartbeat schema payload
          pure (s, [])
        else convertTableRecord complete source capturing value schema s

/-- The loop over a delivery. -/
def convertRecords (s : Conversion) :
    List Record → Except ConvertError (Conversion × List (α × Int))
  | [] => .ok (s, [])
  | record :: records => do
    let converted ← convertRecord complete host source capturing s record
    let rest ← convertRecords converted.1 records
    pure (rest.1, converted.2 ++ rest.2)

end Records

/-- Converts the records of one delivery, from the capture's progress or while streaming. -/
def convertValues (host : Host) (source : Source) (outputSchema : Schema) (values : List Record)
    (progress : Option SnapshotProgress) : Except ConvertError Captured := do
  let converted ← convertRecords
    (completeRow host source.columns source.outputProjection) host source progress.isSome
    ⟨progress.getD .default, false⟩ values
  let change ← buildChange host source.columns source.outputProjection outputSchema
    (converted.2.map (·.1)) (converted.2.map (·.2))
  pure ⟨change, converted.1.isSealed, converted.1.progress⟩

/-! ## The two sources -/

/-- The table a record's metadata names. -/
def checkMetadata (metadata : Row) (message : String) :
    List (String × String) → Except ConvertError Unit
  | [] => .ok ()
  | (field, expected) :: rest =>
    if textField metadata field ≠ some expected then invalid s!"{message} {field}"
    else checkMetadata metadata message rest

namespace Postgres

def compile (columns : List Field) : Except DefinitionError Schema :=
  sourceSchema columns fun
    | .int16 | .int32 | .int64 | .float64 | .utf8 | .binary | .boolean | .float32 | .date32 => true
    | .timestamp .microsecond none => true
    | .timestamp .microsecond (some zone) => decide (zone = "UTC")
    | .timestamp _ _ => false
    | .decimal128 precision scale => validDecimal precision scale

def validateMetadata (payload : Row) (tableSchema table : String) :
    Except ConvertError SnapshotMarker :=
  match (payload.get "source").bind Value.asObject with
  | none => invalid "missing Debezium CDC metadata"
  | some metadata => do
    checkMetadata metadata "Debezium CDC metadata does not match configured"
      [("schema", tableSchema), ("table", table), ("connector", "postgresql")]
    match metadata.get "snapshot" with
    | some (.string "true") | some (.string "first") => pure .snapshot
    | some (.string "last") => pure .last
    | some .null => pure .streaming
    | _ => invalid "Debezium CDC metadata has an invalid snapshot marker"

end Postgres

structure PostgresCdcScanSpec where
  engineName : String
  schema : String
  table : String
  columns : List Field
  compiled : Postgres.compile columns = .ok columns

def PostgresCdcScanSpec.source (spec : PostgresCdcScanSpec) (outputProjection : List Nat) :
    Source where
  captureAcceptsStreaming := true
  streamingTombstones := false
  columns := spec.columns
  outputProjection
  engineName := spec.engineName
  tableTopic := s!"{spec.engineName}.{spec.schema}.{spec.table}"
  snapshotMarker payload _ := Postgres.validateMetadata payload spec.schema spec.table

namespace MySql

def compile (columns : List Field) : Except DefinitionError Schema :=
  sourceSchema columns fun
    | .int16 | .int32 | .int64 | .float64 | .utf8 | .binary => true
    | .decimal128 precision scale => validDecimal precision scale
    | _ => false

/-- Whether a record of the initial snapshot is its last one. -/
def validateSnapshotMetadata (payload : Row) (database table : String) :
    Except ConvertError Bool :=
  match (payload.get "source").bind Value.asObject with
  | none => invalid "missing Debezium snapshot metadata"
  | some metadata => do
    checkMetadata metadata "Debezium snapshot metadata does not match configured"
      [("db", database), ("table", table), ("connector", "mysql")]
    match textField metadata "snapshot" with
    | some "true" | some "first" | some "first_in_data_collection" => pure false
    | some "last" | some "last_in_data_collection" => pure true
    | _ => invalid "Debezium record is not part of the initial snapshot"

def validateMetadata (payload : Row) (database table : String) : Except ConvertError Unit :=
  match (payload.get "source").bind Value.asObject with
  | none => invalid "missing Debezium CDC metadata"
  | some metadata => do
    checkMetadata metadata "Debezium CDC metadata does not match configured"
      [("db", database), ("table", table), ("connector", "mysql")]
    -- An unset marker and a false one both say that the record streams.
    match metadata.get "snapshot" with
    | some .null | some (.bool false) | some (.string "false") => pure ()
    | _ => invalid "Debezium CDC metadata does not identify a non-snapshot record"

end MySql

structure MySqlCdcScanSpec where
  engineName : String
  database : String
  table : String
  columns : List Field
  compiled : MySql.compile columns = .ok columns

def MySqlCdcScanSpec.source (spec : MySqlCdcScanSpec) (outputProjection : List Nat) : Source where
  captureAcceptsStreaming := false
  streamingTombstones := true
  columns := spec.columns
  outputProjection
  engineName := spec.engineName
  tableTopic := s!"{spec.engineName}.{spec.database}.{spec.table}"
  snapshotMarker payload capturing :=
    if capturing then
      (MySql.validateSnapshotMetadata payload spec.database spec.table).map fun last =>
        if last then .last else .snapshot
    else (MySql.validateMetadata payload spec.database spec.table).map fun _ => .streaming

end Dogpaddle.Cdc
