import Dogpaddle.Buffered.Deliver
import Dogpaddle.Canonical.Sizes

/-!
# What an outbox admits, its target can plan

A relation sink plans a delivery before it writes: `plan` checks the number of events, their
range and the canonical bytes of all rows together, on one path for a delivery of insertions
only and on another for the rest. The outbox has charged every row before that, for each unit
more than its canonical bytes.

* `SchemaRow`: a row of the bound schema.
* `relationEventBytes`: the least charge of a target.
* `planInput`: the checks of `plan` before it reads the target.
* `admitted_deliverable`: no admitted change fails them.
-/

namespace Dogpaddle.Sink

open Lib Dogpaddle.Canonical Dogpaddle.Buffered

/-! ## Rows of a schema -/

/-- The values of a row of the schema. -/
abbrev SchemaRow (schema : Schema) := { values : List Value // FitsAll schema values }

variable {schema : Schema}

/-- A row error, boxed. -/
def rowFailure : RowError → OperationError
  | .rowOutOfBounds rowIndex rows =>
    .message s!"row index {rowIndex} is outside a record batch with {rows} rows"
  | .arrayTypeMismatch field => .message s!"array for field {field.quote} has another type"
  | .unexpectedNull field => .message s!"non-nullable field {field.quote} contains a null value"
  | .lengthOverflow =>
    .message "nested value length cannot be represented by the canonical row format"
  | .sizeLimit maxBytes => .message s!"canonical row exceeds its {maxBytes}-byte limit"
  | .truncated => .message "canonical row is truncated"
  | .invalidNullMarker => .message "canonical row contains an invalid null marker"
  | .invalidBoolean => .message "canonical row contains an invalid boolean value"
  | .invalidUtf8 => .message "canonical row contains invalid UTF-8"
  | .trailingBytes => .message "canonical row contains trailing bytes"
  | .invalidValue => .message "canonical row could not be reconstructed as Arrow values"

/-- `canonical_row_size_bounded` of one row. -/
def rowSizeBounded (row : SchemaRow schema) (maxBytes : Nat) : Except OperationError Nat :=
  (sizeFields schema row.1 [] 0 maxBytes).mapError rowFailure

/-- `canonical_row_bounded` of one row. -/
def rowBounded (row : SchemaRow schema) (maxBytes : Nat) : Except OperationError Bytes :=
  match encodeFields schema row.1 [] (some maxBytes) [] with
  | .ok () bytes => .ok bytes
  | .error error _ => .error (rowFailure error)

/-- The canonical bytes of a row. -/
def SchemaRow.bytes (row : SchemaRow schema) : Nat := (canonicalAll schema row.1).length

theorem rowSizeBounded_eq_ok {row : SchemaRow schema} {maxBytes n : Nat} :
    rowSizeBounded row maxBytes = .ok n ↔ Room (some maxBytes) n ∧ n = row.bytes := by
  have hadds := sizeFields_adds [] row.2
    (fun f _ value path => size_adds maxBytes f value path) 0
    (room_some.mpr ⟨by decide, Nat.zero_le _⟩)
  rw [Nat.zero_add] at hadds
  dsimp only at hadds
  unfold rowSizeBounded
  rw [mapError_eq_ok]
  by_cases hroom : Room (some maxBytes) row.bytes
  · rw [hadds.1 hroom]
    constructor
    · intro h
      cases h
      exact ⟨hroom, rfl⟩
    · rintro ⟨-, rfl⟩
      rfl
  · obtain ⟨error, herror⟩ := hadds.2 hroom
    rw [herror]
    constructor
    · intro h
      cases h
    · rintro ⟨h, rfl⟩
      exact absurd h hroom

theorem rowBounded_of_room {row : SchemaRow schema} {maxBytes : Nat}
    (h : Room (some maxBytes) row.bytes) :
    rowBounded row maxBytes = .ok (canonicalAll schema row.1) := by
  have hwrites := encodeFields_writes [] row.2
    (fun f _ value path => encode_writes (some maxBytes) f value path) []
    (room_some.mpr ⟨by decide, Nat.zero_le _⟩)
  rw [List.nil_append, List.length_nil, Nat.zero_add] at hwrites
  unfold rowBounded
  rw [hwrites.1 h]

/-- A row of a record batch. -/
def recordRow (batch : RecordBatch) (index : Nat) (h : index < batch.numRows) :
    SchemaRow batch.schema :=
  ⟨rowValues batch.columns index, rowValues_fit batch.valid h⟩

/-- Sizing a row of a record batch is sizing its values. -/
theorem rowSizeBounded_recordRow (batch : RecordBatch) {index : Nat} (h : index < batch.numRows)
    (maxBytes : Nat) :
    rowSizeBounded (recordRow batch index h) maxBytes =
      (canonicalRowSizeBounded batch index maxBytes).mapError rowFailure := by
  unfold canonicalRowSizeBounded
  rw [if_neg (by omega), sizeColumns_eq batch.valid h]
  rfl

/-- Encoding a row of a record batch is encoding its values. -/
theorem rowBounded_recordRow (batch : RecordBatch) {index : Nat} (h : index < batch.numRows)
    (maxBytes : Nat) :
    rowBounded (recordRow batch index h) maxBytes =
      (canonicalRowBounded batch index maxBytes).mapError rowFailure := by
  unfold canonicalRowBounded rowBounded
  rw [if_neg (by omega), encodeColumns_eq batch.valid h]
  show (match encodeFields batch.schema (rowValues batch.columns index) [] (some maxBytes) [] with
    | .ok () bytes => Except.ok bytes
    | .error error _ => .error (rowFailure error)) = _
  cases encodeFields batch.schema (rowValues batch.columns index) [] (some maxBytes) [] with
  | ok _ bytes => rfl
  | error error out => rfl

/-! ## Charges -/

/-- The text of a relation sink failure. -/
def invalid (message : String) : OperationError := .message s!"relation sink: {message}"

def technicalValueBytes : Nat := 8 + 16

def parameterFramingBytes : Nat := 8

def relationEventBytes (input : Change (SchemaRow schema)) (rowIndex : Nat) :
    Except OperationError Nat :=
  match input.events[rowIndex]? with
  | none => .error (rowFailure (.rowOutOfBounds rowIndex input.numRows))
  | some event => do
    let canonicalBytes ← rowSizeBounded event.1 maxTargetBatchBytes
    if usize ≤ input.numColumns + 2 then
      .error (invalid "target mutation column count exceeds usize")
    else
      let framing := (input.numColumns + 2) * parameterFramingBytes
      if usize ≤ canonicalBytes + technicalValueBytes ∨ usize ≤ framing ∨
          usize ≤ canonicalBytes + technicalValueBytes + framing then
        .error (invalid "target mutation byte charge exceeds u64")
      else .ok (canonicalBytes + technicalValueBytes + framing)

/-- A target charges no less than a relation does. -/
def ChargesRelation (sink : BufferedSink (SchemaRow schema)) : Prop :=
  ∀ change row bytes, sink.eventBytes change row = .ok bytes →
    ∃ least, relationEventBytes change row = .ok least ∧ least ≤ bytes

/-! ## The input of a plan -/

def maxMutationsPerBatch : Nat := 1024
def firstTechnicalId : Nat := 1
def maxTechnicalId : Nat := 2 ^ 64 - 2
def maxCanonicalBatchBytes : Nat := 8 * 1024 * 1024

def validateTechnicalId (id : Nat) : Except OperationError Unit :=
  if firstTechnicalId ≤ id ∧ id ≤ maxTechnicalId then .ok ()
  else .error (invalid "technical ID is outside 1..u64::MAX")

/-- The sum of the multiplicities, when it is a `u64`. -/
def checkedEvents (input : Change (SchemaRow schema)) : Option Nat :=
  input.events.foldlM (fun total event => checkedAdd total event.2.natAbs) 0

def validateInput (input : DeliveryBatch (SchemaRow schema)) : Except OperationError Nat := do
  validateTechnicalId input.firstEventOffset
  match checkedEvents input.change with
  | none => .error (invalid "relation batch event count exceeds u64")
  | some events =>
    if events = 0 ∨ events > maxMutationsPerBatch then
      .error (invalid "relation batch exceeds its mutation limit")
    else if (checkedAdd input.firstEventOffset events).isNone then
      .error (invalid "relation batch event range exceeds u64")
    else .ok events

def endEventOffset (input : DeliveryBatch (SchemaRow schema)) : Except OperationError Nat := do
  let events ← eventCount input.change
  match checkedAdd input.firstEventOffset events with
  | some stop => .ok stop
  | none => .error (Buffered.invalid "delivery interval exceeds the event domain")

/-- The bytes left after every row was sized. -/
def sizeRows : List (SchemaRow schema × Int) → (remaining : Nat) → Except OperationError Nat
  | [], remaining => .ok remaining
  | event :: events, remaining => do
    let size ← rowSizeBounded event.1 remaining
    sizeRows events (remaining - size)

def checkCanonicalBudget (input : Change (SchemaRow schema)) : Except OperationError Unit := do
  let _ ← sizeRows input.events maxCanonicalBatchBytes
  pure ()

/-- The canonical rows, each one under the bytes the ones before it leave. -/
def encodeRows : List (SchemaRow schema × Int) → (remaining : Nat) →
    Except OperationError (List Bytes)
  | [], _ => .ok []
  | event :: events, remaining => do
    let encoded ← rowBounded event.1 remaining
    let rows ← encodeRows events (remaining - encoded.length)
    pure (encoded :: rows)

def boundedCanonicalRows (input : Change (SchemaRow schema)) :
    Except OperationError (List Bytes) :=
  encodeRows input.events maxCanonicalBatchBytes

/-- What `plan` checks before it reads the target. -/
def planInput (input : DeliveryBatch (SchemaRow schema)) (start tail originalHead : Nat) :
    Except OperationError Unit := do
  let _ ← validateInput input
  let stop ← endEventOffset input
  if start < input.firstEventOffset ∨ start > tail ∨ stop > tail ∨ originalHead = 0 ∨
      originalHead > input.firstEventOffset then
    .error (invalid "invalid delivery prefix bounds")
  else if input.change.events.all fun event => event.2 > 0 then
    checkCanonicalBudget input.change
  else do
    let _ ← boundedCanonicalRows input.change
    pure ()

/-! ## The charges nest -/

theorem relationEventBytes_eq_ok {input : Change (SchemaRow schema)} {rowIndex bytes : Nat}
    (h : relationEventBytes input rowIndex = .ok bytes) {event : SchemaRow schema × Int}
    (hevent : input.events[rowIndex]? = some event) : event.1.bytes ≤ bytes := by
  unfold relationEventBytes at h
  rw [hevent] at h
  obtain ⟨canonicalBytes, hsize, h⟩ := except_bind_eq_ok.mp h
  obtain ⟨-, rfl⟩ := rowSizeBounded_eq_ok.mp hsize
  obtain ⟨-, h⟩ := except_ite_eq_ok.mp h
  obtain ⟨-, h⟩ := except_ite_eq_ok.mp h
  cases h
  omega

/-- What admission has checked of a row. -/
theorem chargeable_of_validated {sink : BufferedSink (SchemaRow schema)}
    (hcharge : ChargesRelation sink) {change : Change (SchemaRow schema)}
    (h : sink.validateEventSizes change = .ok ()) :
    Chargeable sink.eventBytes SchemaRow.bytes change := by
  intro row event hevent
  have hrow : row ∈ List.range change.numRows :=
    List.mem_range.mpr (List.getElem?_eq_some_iff.mp hevent).1
  obtain ⟨bytes, hbytes, hcheck⟩ := except_bind_eq_ok.mp (except_forM_eq_ok h row hrow)
  obtain ⟨hne, hcheck⟩ := except_ite_eq_ok.mp hcheck
  obtain ⟨hmax, -⟩ := except_ite_eq_ok.mp hcheck
  obtain ⟨least, hleast, hle⟩ := hcharge change row bytes hbytes
  exact ⟨bytes, unitBytes_eq_ok.mpr ⟨hbytes, hne⟩, Nat.le_of_not_lt hmax,
    (relationEventBytes_eq_ok hleast hevent).trans hle⟩

/-- The canonical bytes of the rows are within their charge. -/
theorem sum_bytes_le_bill {events : List (SchemaRow schema × Int)}
    (hnonzero : ∀ event ∈ events, event.2 ≠ 0) :
    (events.map fun event => event.1.bytes).sum ≤ bill SchemaRow.bytes events := by
  induction events with
  | nil => exact le_rfl
  | cons event events ih =>
    have hne := hnonzero event List.mem_cons_self
    have hrest := ih fun e he => hnonzero e (List.mem_cons_of_mem _ he)
    have hone : 1 * event.1.bytes ≤ event.2.natAbs * event.1.bytes :=
      Nat.mul_le_mul_right _ (by omega)
    rw [List.map_cons, List.sum_cons, bill_cons]
    omega

theorem sizeRows_ok {events : List (SchemaRow schema × Int)} {remaining : Nat}
    (hword : remaining < usize)
    (h : (events.map fun event => event.1.bytes).sum ≤ remaining) :
    ∃ left, sizeRows events remaining = .ok left := by
  induction events generalizing remaining with
  | nil => exact ⟨remaining, rfl⟩
  | cons event events ih =>
    rw [List.map_cons, List.sum_cons] at h
    have hsize : rowSizeBounded event.1 remaining = .ok event.1.bytes :=
      rowSizeBounded_eq_ok.mpr ⟨room_some.mpr ⟨by omega, by omega⟩, rfl⟩
    obtain ⟨left, hleft⟩ := @ih (remaining - event.1.bytes) (by omega) (by omega)
    exact ⟨left, except_bind_eq_ok.mpr ⟨_, hsize, hleft⟩⟩

theorem encodeRows_ok {events : List (SchemaRow schema × Int)} {remaining : Nat}
    (hword : remaining < usize)
    (h : (events.map fun event => event.1.bytes).sum ≤ remaining) :
    encodeRows events remaining = .ok (events.map fun event => canonicalAll schema event.1.1) := by
  induction events generalizing remaining with
  | nil => rfl
  | cons event events ih =>
    rw [List.map_cons, List.sum_cons] at h
    have hbytes : rowBounded event.1 remaining = .ok (canonicalAll schema event.1.1) :=
      rowBounded_of_room (room_some.mpr ⟨by omega, by omega⟩)
    have hleft : (canonicalAll schema event.1.1).length = event.1.bytes := rfl
    have hrest := @ih (remaining - event.1.bytes) (by omega) (by omega)
    rw [encodeRows, hbytes]
    show (encodeRows events (remaining - (canonicalAll schema event.1.1).length) >>= _) = _
    rw [hleft, hrest]
    rfl

/-- The count loop of the planner. -/
theorem foldlM_checkedEvents (events : List (SchemaRow schema × Int)) (start : Nat)
    (h : start + count events < 2 ^ 64) :
    events.foldlM (fun total event => checkedAdd total event.2.natAbs) start =
      some (start + count events) := by
  induction events generalizing start with
  | nil => rfl
  | cons event events ih =>
    rw [count_cons] at h
    rw [List.foldlM_cons, checkedAdd_eq_some.mpr ⟨rfl, by omega⟩, count_cons, ← Nat.add_assoc]
    exact ih _ (by omega)

section Checks

variable {input : DeliveryBatch (SchemaRow schema)} {tail : Nat}

theorem validateInput_ok (hfirst : 0 < input.firstEventOffset)
    (hstop : input.firstEventOffset + count input.change.events ≤ tail) (htail : tail < 2 ^ 64)
    (hfew : count input.change.events ≤ maxMutationsPerBatch) :
    validateInput input = .ok (count input.change.events) := by
  have hpos := count_pos input.change
  have hevents : checkedEvents input.change = some (count input.change.events) := by
    unfold checkedEvents
    rw [foldlM_checkedEvents _ _ (by omega), Nat.zero_add]
  have hid : validateTechnicalId input.firstEventOffset = .ok () := by
    unfold validateTechnicalId firstTechnicalId maxTechnicalId
    rw [if_pos (by omega)]
  unfold validateInput
  rw [hid, hevents]
  show (if count input.change.events = 0 ∨ count input.change.events > maxMutationsPerBatch then _
    else if (checkedAdd input.firstEventOffset (count input.change.events)).isNone then _
    else _) = _
  rw [if_neg (by omega), checkedAdd_eq_some.mpr ⟨rfl, by omega⟩]
  rfl

theorem endEventOffset_ok
    (hstop : input.firstEventOffset + count input.change.events ≤ tail) (htail : tail < 2 ^ 64) :
    endEventOffset input = .ok (input.firstEventOffset + count input.change.events) := by
  unfold endEventOffset
  rw [eventCount_eq_ok.mpr ⟨rfl, by omega⟩]
  show (match checkedAdd input.firstEventOffset (count input.change.events) with
    | some stop => Except.ok stop
    | none => .error _) = _
  rw [checkedAdd_eq_some.mpr ⟨rfl, by omega⟩]

theorem checkCanonicalBudget_ok
    (h : bill SchemaRow.bytes input.change.events ≤ maxCanonicalBatchBytes) :
    checkCanonicalBudget input.change = .ok () := by
  obtain ⟨left, hleft⟩ := sizeRows_ok (by decide : maxCanonicalBatchBytes < usize)
    ((sum_bytes_le_bill input.change.nonzero).trans h)
  exact except_bind_eq_ok.mpr ⟨left, hleft, rfl⟩

theorem boundedCanonicalRows_ok
    (h : bill SchemaRow.bytes input.change.events ≤ maxCanonicalBatchBytes) :
    boundedCanonicalRows input.change =
      .ok (input.change.events.map fun event => canonicalAll schema event.1.1) :=
  encodeRows_ok (by decide : maxCanonicalBatchBytes < usize)
    ((sum_bytes_le_bill input.change.nonzero).trans h)

end Checks

/-- In every state of every run in which events wait, a load succeeds with a batch within the
mutation limit, and every check of its plan accepts it, on both paths and from every start the
target may ask for. -/
theorem admitted_deliverable (sink : BufferedSink (SchemaRow schema))
    (hcharge : ChargesRelation sink) (s : System (SchemaRow schema))
    (h : System.Reachable sink s) (hwaiting : Buffered.remaining sink s.outbox ≠ []) :
    ∃ before batch,
      (sink.load s.outbox s.memory (deliveryLimits maxMutationsPerBatch)).1 =
        .ok (some (.loaded before batch)) ∧
      1 ≤ count batch.delivery.change.events ∧
      count batch.delivery.change.events ≤ maxMutationsPerBatch ∧
      validateInput batch.delivery = .ok (count batch.delivery.change.events) ∧
      checkCanonicalBudget batch.delivery.change = .ok () ∧
      (∃ rows, boundedCanonicalRows batch.delivery.change = .ok rows) ∧
      ∀ start, batch.delivery.firstEventOffset ≤ start → start ≤ before.tail →
        planInput batch.delivery start before.tail before.head.entryStart = .ok () := by
  obtain ⟨b, es, hinv⟩ := reachable_inv h
  have hrep := hinv.held.rep
  have hnonempty : es ≠ [] := by
    rintro rfl
    rw [remaining_of_held hinv.held] at hwaiting
    exact hwaiting (by simp [waiting])
  have hstock : Stocked sink.codec sink.eventBytes SchemaRow.bytes s.outbox.buffer b es :=
    ⟨hinv.held.stored, hrep.tiled, hrep.bounded, fun e he => (hrep.admitted e he).decoded,
      fun e he => (hrep.admitted e he).small,
      fun e he => chargeable_of_validated hcharge (hrep.admitted e he).sized⟩
  obtain ⟨batch, hload, hfirst, hstop, hfew, hbill⟩ :=
    load_ok (by decide : 0 < maxMutationsPerBatch) (by decide) hstock hrep.placed hrep.bytes
      hrep.started hnonempty ⟨hinv.cache, reachable_sized h⟩
  rw [← hfirst] at hstop
  have hhead := hrep.head_range
  have hstarted := hrep.started
  have hpositive : 0 < batch.delivery.firstEventOffset := by omega
  have hempty : ¬ b.isEmpty = true := fun hempty => hnonempty (hrep.isEmpty_iff.mp hempty)
  have hinput := validateInput_ok hpositive hstop hrep.bounded hfew
  have hbudget := checkCanonicalBudget_ok hbill
  have hrows := boundedCanonicalRows_ok hbill
  refine ⟨b, batch, ?_, count_pos _, hfew, hinput, hbudget, ⟨_, hrows⟩, ?_⟩
  · rw [load_fst, hinv.held.decodeRestored_of_ne_nil hnonempty]
    show found sink s.outbox s.memory.headCache _ (some (.ready b)) = _
    simp only [found, if_neg hempty, hload]
    rfl
  · intro start hstart hlast
    unfold planInput
    rw [hinput, endEventOffset_ok hstop hrep.bounded]
    show (if start < batch.delivery.firstEventOffset ∨ start > b.tail ∨
        batch.delivery.firstEventOffset + count batch.delivery.change.events > b.tail ∨
        b.head.entryStart = 0 ∨ b.head.entryStart > batch.delivery.firstEventOffset then _
      else if _ then _ else _) = _
    rw [if_neg (by omega), hbudget, hrows]
    split
    · rfl
    · rfl

/-! ### A table without columns -/

/-- The row of a table without columns. -/
def blankRow : SchemaRow [] := ⟨[], by rw [FitsAll]; trivial⟩

theorem eq_blankRow (row : SchemaRow []) : row = blankRow := by
  obtain ⟨values, hvalues⟩ := row
  cases values with
  | nil => rfl
  | cons value values => simp [FitsAll] at hvalues

def blankChange (change : Change Unit) : Change (SchemaRow []) where
  numColumns := change.numColumns
  events := change.events.map fun event => (blankRow, event.2)
  nonempty := by simpa using change.nonempty
  nonzero := by
    intro event hevent
    obtain ⟨unit, hunit, rfl⟩ := List.mem_map.mp hevent
    exact change.nonzero unit hunit

def bareChange (change : Change (SchemaRow [])) : Change Unit where
  numColumns := change.numColumns
  events := change.events.map fun event => ((), event.2)
  nonempty := by simpa using change.nonempty
  nonzero := by
    intro event hevent
    obtain ⟨row, hrow, rfl⟩ := List.mem_map.mp hevent
    exact change.nonzero row hrow

theorem blankChange_bareChange (change : Change (SchemaRow [])) :
    blankChange (bareChange change) = change := by
  obtain ⟨numColumns, events, nonempty, nonzero⟩ := change
  have hevents : (events.map fun event => ((), event.2)).map (fun event => (blankRow, event.2)) =
      events := by
    rw [List.map_map]
    refine (List.map_congr_left fun event _ => ?_).trans (List.map_id events)
    exact Prod.ext (eq_blankRow event.1).symm rfl
  simp only [blankChange, bareChange, hevents]

/-- The codec of such a table, and a target that charges what a relation does. -/
def blankSink : BufferedSink (SchemaRow []) where
  codec :=
    { encodeBounded := fun change limit => weightCodec.encodeBounded (bareChange change) limit
      decode := fun encoded => (weightCodec.decode encoded).map blankChange
      decode_encode := by
        intro change limit encoded h
        rw [weightCodec.decode_encode _ _ _ h]
        show Except.ok (blankChange (bareChange change)) = _
        rw [blankChange_bareChange]
      length_encode := fun change limit encoded h => weightCodec.length_encode _ _ _ h }
  bound := fun _ => true
  eventBytes := relationEventBytes

/-- Initialization, and a change of three insertions and two retractions. -/
def blankRun : List (Action (SchemaRow [])) :=
  [.load ⟨2, 100, 100, 100⟩, .persistInitialize 0 true, .settle 0 true,
    .enqueue (blankChange threeAndTwo) true]

def blankSystem : System (SchemaRow []) := blankRun.foldl (System.step blankSink) {}

theorem admitted_deliverable_blank :
    (Buffered.remaining blankSink blankSystem.outbox).map (·.2) = [1, 2, 3, 4, 5] ∧
      ∃ before batch,
        (blankSink.load blankSystem.outbox blankSystem.memory (deliveryLimits 1024)).1 =
          .ok (some (.loaded before batch)) ∧ 1 ≤ count batch.delivery.change.events ∧
        validateInput batch.delivery = .ok (count batch.delivery.change.events) := by
  have hevents : (Buffered.remaining blankSink blankSystem.outbox).map (·.2) = [1, 2, 3, 4, 5] := by
    decide +kernel
  have hwaiting : Buffered.remaining blankSink blankSystem.outbox ≠ [] := by
    intro hnil
    rw [hnil] at hevents
    cases hevents
  have hcharge : ChargesRelation blankSink := fun change row bytes h => ⟨bytes, h, le_rfl⟩
  obtain ⟨before, batch, hload, hpos, -, hinput, -⟩ := admitted_deliverable blankSink hcharge
    blankSystem (reachable_foldl blankRun .fresh) hwaiting
  exact ⟨hevents, before, batch, hload, hpos, hinput⟩

end Dogpaddle.Sink
