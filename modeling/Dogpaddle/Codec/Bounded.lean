import Dogpaddle.Codec.Entry
import Dogpaddle.Codec.Size

/-!
# Encoding under a limit

`encode` writes whatever Arrow makes of a change; `encodeBounded` measures the change first and
then writes into a buffer that refuses to grow beyond the limit.

* `ArrowWriter`: Arrow's side of writing, a parameter; `Canonical` says that it writes the
  canonical body of a change behind the framed metadata.
* `bodyLenBounded_eq`: measuring a change gives the canonical length of its body.
* `encodeBounded_agrees`: both ways to encode write the same bytes, up to the limit.
-/

namespace Dogpaddle.Codec

open Lib Canonical

/-! ## Changes -/

structure RecordBatch where
  schema : Schema
  numRows : Nat
  columns : List ArrayData
  valid : ValidAll schema numRows (List.replicate numRows true) columns

/-- The field of the differences. -/
def diffField : Field := .mk diffFieldName (.fixed .int64) false

structure Change where
  records : RecordBatch
  diffs : ArrayData
  nonempty : records.numRows ≠ 0
  diffs_valid : ValidAll [diffField] records.numRows (List.replicate records.numRows true) [diffs]

namespace Change

variable (change : Change)

/-- The arrays of the physical batch. -/
def arrays : List ArrayData := change.diffs :: change.records.columns

theorem arrays_valid : ValidAll (physicalSchema change.records.schema) change.records.numRows
    (List.replicate change.records.numRows true) change.arrays := by
  obtain ⟨hlen, hvalid, hunmasked, -⟩ := change.diffs_valid
  exact ⟨hlen, hvalid, hunmasked, change.records.valid⟩

/-- The rows of a change fit in memory, with eight bytes for each difference. -/
theorem numRows_lt : change.records.numRows < 2 ^ 60 := by
  obtain ⟨hlen, ⟨-, -, -, hvalues, hbound⟩, -, -⟩ := change.diffs_valid
  have hwidth : FixedType.int64.width = 8 := rfl
  rw [hwidth] at hvalues
  omega

/-- The canonical lengths of its buffers. -/
def lengths : List Nat := ArrayData.lengthsAll change.arrays 0 change.records.numRows

/-- The nodes that describe it. -/
def nodes : List (Nat × Nat) := ArrayData.nodesAll change.arrays 0 change.records.numRows

/-- The length of its body. -/
def bodyLength : Nat := (change.lengths.map (alignUp alignment)).sum

end Change

/-- Buffers of the given lengths, offset and length of each. -/
def placements : (start : Nat) → List Nat → List (Nat × Nat)
  | _, [] => []
  | start, n :: lengths => (start, n) :: placements (alignUp alignment (start + n)) lengths

/-- Buffers with the given offsets and lengths. -/
def DescribesBuffers (buffers : List IpcBuffer) (values : List (Nat × Nat)) : Prop :=
  List.Forall₂
    (fun (buffer : IpcBuffer) value =>
      buffer.offset.toInt = (value.1 : Int) ∧ buffer.length.toInt = (value.2 : Int))
    buffers values

/-! ## Measuring -/

def bodyLenBounded (change : Change) (maxBytes : Nat) : Except CodecError Nat := do
  let budget ← visit change.diffs ⟨0, maxBytes⟩
  let budget ← visitAll change.records.columns budget
  pure budget.bytes

/-- The length of the body is measured, whatever windows its arrays are. -/
theorem bodyLenBounded_eq (change : Change) {maxBytes : Nat} (hmax : maxBytes < usize) :
    bodyLenBounded change maxBytes =
      if change.bodyLength ≤ maxBytes then .ok change.bodyLength
      else .error (.encodedSizeLimitExceeded maxBytes) := by
  have hb : (⟨0, maxBytes⟩ : BodyBudget).Within := ⟨Nat.zero_le _, hmax⟩
  have hrows := change.numRows_lt
  have hself := sliceAll_self_of (fun f _ => slice_self f) change.arrays_valid
  have hvisit := visitAll_slice_of (fun f _ => charged f) change.arrays_valid
    (by omega : 0 + change.records.numRows ≤ change.records.numRows) (by omega) hb
  rw [hself] at hvisit
  have hboth : bodyLenBounded change maxBytes =
      (visitAll change.arrays ⟨0, maxBytes⟩ >>= fun budget => pure budget.bytes) := by
    unfold bodyLenBounded Change.arrays
    rw [visitAll, bind_assoc]
  rw [hboth, hvisit]
  unfold charge Change.bodyLength Change.lengths
  dsimp only
  rw [Nat.zero_add]
  split <;> rfl

/-! ## Both sides agree on the length -/

theorem placed_placements {bodyLen start : Nat} {lengths : List Nat} {buffers : List IpcBuffer}
    (h : DescribesBuffers buffers (placements start lengths))
    (hbody : extent alignment start lengths ≤ bodyLen) :
    Placed bodyLen start lengths buffers := by
  induction lengths generalizing start buffers with
  | nil =>
    cases h
    trivial
  | cons n lengths ih =>
    cases h with
    | cons hfirst hrest =>
      have hend := le_alignUp (show 0 < alignment by decide) (start + n)
      have hle := le_extent (show 0 < alignment by decide) (alignUp alignment (start + n)) lengths
      have hextent : extent alignment (alignUp alignment (start + n)) lengths ≤ bodyLen := hbody
      exact ⟨hfirst.1, hfirst.2, by omega, ih hrest hbody⟩

/-- Descriptors decide the lengths of their buffers. -/
theorem lengths_of_placed {bodyLen start start' : Nat} {lengths lengths' : List Nat}
    {buffers : List IpcBuffer} (h : DescribesBuffers buffers (placements start lengths))
    (hplaced : Placed bodyLen start' lengths' buffers) : lengths' = lengths := by
  induction lengths generalizing start start' lengths' buffers with
  | nil =>
    cases h
    cases lengths' with
    | nil => rfl
    | cons n lengths' => cases hplaced
  | cons n lengths ih =>
    cases h with
    | cons hfirst hrest =>
      cases lengths' with
      | nil => cases hplaced
      | cons n' lengths' =>
        obtain ⟨-, hlength, -, hrest'⟩ := hplaced
        have hn : n' = n := by
          have hsame := hfirst.2
          omega
        rw [hn, ih hrest hrest']

/-- The descriptors of a change are accepted with its measured body, and with no other. -/
theorem validateLayout_change (change : Change) {parsed : ParsedChange} {nodes : List FieldNode}
    {buffers : List IpcBuffer}
    (hschema : parsed.physicalSchema = physicalSchema change.records.schema)
    (hrows : parsed.rowCount = change.records.numRows) (hparsedNodes : parsed.nodes = some nodes)
    (hparsedBuffers : parsed.buffers = some buffers) (hnodes : Describes nodes change.nodes)
    (hbuffers : DescribesBuffers buffers (placements 0 change.lengths)) :
    validateLayout parsed = .ok () ↔ parsed.body.length = change.bodyLength := by
  have hextent : extent alignment 0 change.lengths = change.bodyLength := by
    rw [extent_eq_sum (by decide) (by decide), Nat.zero_add]
    rfl
  rw [validateLayout_eq_ok]
  constructor
  · rintro ⟨nodes', buffers', lengths, -, hb, -, hplaced, hcovered⟩
    rw [hparsedBuffers] at hb
    cases hb
    rw [← hcovered, lengths_of_placed hbuffers hplaced, hextent]
  · intro hlength
    refine ⟨nodes, buffers, change.lengths, hparsedNodes, hparsedBuffers, ?_, ?_, ?_⟩
    · rw [hschema, hrows]
      have hlaid := laidAll_of_valid (fun f _ => described f) change.arrays_valid
        (by omega : 0 + change.records.numRows ≤ change.records.numRows) hnodes
      rwa [count_false_replicate] at hlaid
    · exact placed_placements hbuffers (by rw [hextent, hlength])
    · rw [hextent, hlength]

/-! ## Writing -/

structure EncodedData where
  ipcMessage : Bytes
  arrowData : Bytes

/-- Arrow's side of writing: the check of a batch, the encoding of its parts, and the chunks
that a message is written in, with the error that writing it ends with by itself. -/
structure ArrowWriter where
  tryNew : Schema → List ArrayData → Except String Unit
  encode : Schema → List ArrayData → Except String (List EncodedData × EncodedData)
  writeMessage : EncodedData → List Bytes × Option String

/-- Arrow writes the canonical body of a batch, and behind the metadata. -/
structure ArrowWriter.Canonical (arrow : ArrowWriter) : Prop where
  body_length : ∀ schema columns rows parent dictionaries encoded,
    ValidAll schema rows parent columns → arrow.encode schema columns = .ok (dictionaries, encoded) →
    encoded.arrowData.length =
      ((ArrayData.lengthsAll columns 0 rows).map (alignUp alignment)).sum
  frame : ∀ encoded chunks, arrow.writeMessage encoded = (chunks, none) →
    ∃ padding, chunks.flatten = canonicalContinuation ++
      toLE 4 (encoded.ipcMessage.length + padding) ++ encoded.ipcMessage ++
      List.replicate padding 0 ++ encoded.arrowData

def encodeBatch (arrow : ArrowWriter) (change : Change) (schema : Schema) :
    Except CodecError EncodedData := do
  (arrow.tryNew schema change.arrays).mapError CodecError.arrow
  let (dictionaries, encoded) ← (arrow.encode schema change.arrays).mapError CodecError.arrow
  if dictionaries ≠ [] then
    .error (.invalidEncoding
      "dictionary batches are not supported in schema-bound Changes")
  else pure encoded

structure BoundedWriter where
  bytes : Bytes
  maxBytes : Nat
  limitHit : Bool

namespace BoundedWriter

/-- Writing to a bounded buffer, with I/O errors as their texts. -/
abbrev WriteM := EStateM String BoundedWriter

def new (maxBytes : Nat) : BoundedWriter := ⟨[], maxBytes, false⟩

def remaining (writer : BoundedWriter) : Nat := writer.maxBytes - writer.bytes.length

def write (input : Bytes) : WriteM Nat := do
  let writer ← get
  if (checkedAdd writer.bytes.length input.length).all (writer.maxBytes < ·) then
    set { writer with limitHit := true }
    throw "DogPaddle Change size limit exceeded"
  else
    set { writer with bytes := writer.bytes ++ input }
    pure input.length

/-- `write_all`: a write takes all of its input or fails. -/
def writeAll (input : Bytes) : WriteM Unit :=
  if input.isEmpty then pure () else discard (write input)

/-- Arrow's chunks go out one by one. -/
def writeMessage (arrow : ArrowWriter) (encoded : EncodedData) : WriteM Unit := do
  (arrow.writeMessage encoded).1.forM writeAll
  match (arrow.writeMessage encoded).2 with
  | none => pure ()
  | some e => throw e

end BoundedWriter

mutual

/-- Whether two types are the same, names and all. -/
def sameType : DataType → DataType → Bool
  | .null, .null => true
  | .boolean, .boolean => true
  | .fixed type, .fixed type' => type = type'
  | .utf8, .utf8 => true
  | .binary, .binary => true
  | .list child, .list child' => sameField child child'
  | .struct fields, .struct fields' => sameFields fields fields'
  | _, _ => false

def sameField : Field → Field → Bool
  | .mk name dataType nullable, .mk name' dataType' nullable' =>
    name = name' && sameType dataType dataType' && nullable == nullable'

def sameFields : List Field → List Field → Bool
  | [], [] => true
  | field :: fields, field' :: fields' => sameField field field' && sameFields fields fields'
  | _, _ => false

end

namespace SchemaBoundChangeCodec

def requireSchema (codec : SchemaBoundChangeCodec) (actual : Schema) : Except CodecError Unit :=
  if sameFields codec.logicalSchema actual then .ok () else .error .schemaMismatch

def encode (arrow : ArrowWriter) (codec : SchemaBoundChangeCodec) (change : Change) :
    Except CodecError Bytes := do
  codec.requireSchema change.records.schema
  let encoded ← encodeBatch arrow change (physicalSchema codec.logicalSchema)
  match arrow.writeMessage encoded with
  | (_, some e) => .error (.arrow e)
  | (chunks, none) => .ok (magic ++ codec.schemaFingerprint ++ chunks.flatten ++ canonicalEos)

def writePrefix (codec : SchemaBoundChangeCodec) : BoundedWriter.WriteM Unit := do
  BoundedWriter.writeAll magic
  BoundedWriter.writeAll codec.schemaFingerprint

def encodeBounded (arrow : ArrowWriter) (codec : SchemaBoundChangeCodec) (change : Change)
    (maxBytes : Nat) : Except CodecError Bytes := do
  codec.requireSchema change.records.schema
  let bodyBytes ← bodyLenBounded change maxBytes
  match codec.writePrefix (BoundedWriter.new maxBytes) with
  | .error _ _ => .error (.encodedSizeLimitExceeded maxBytes)
  | .ok _ output =>
    if output.remaining < bodyBytes then .error (.encodedSizeLimitExceeded maxBytes)
    else do
      let encoded ← encodeBatch arrow change (physicalSchema codec.logicalSchema)
      match BoundedWriter.writeMessage arrow encoded output with
      | .error e output =>
        if output.limitHit then .error (.encodedSizeLimitExceeded maxBytes) else .error (.arrow e)
      | .ok _ output =>
        match BoundedWriter.writeAll canonicalEos output with
        | .error _ _ => .error (.encodedSizeLimitExceeded maxBytes)
        | .ok _ output => .ok output.bytes

end SchemaBoundChangeCodec

theorem sameFields_iff_of {fields fields' : List Field}
    (ih : ∀ f ∈ fields, ∀ f', sameField f f' = true ↔ f = f') :
    sameFields fields fields' = true ↔ fields = fields' := by
  induction fields generalizing fields' with
  | nil => cases fields' <;> simp [sameFields]
  | cons field fields ihf =>
    obtain ⟨hfield, hfields⟩ := List.forall_mem_cons.mp ih
    cases fields' with
    | nil => simp [sameFields]
    | cons field' fields' => rw [sameFields, Bool.and_eq_true, hfield, ihf hfields, List.cons.injEq]

theorem sameField_iff (field : Field) : ∀ field', sameField field field' = true ↔ field = field' := by
  induction field using Field.induction with
  | step name dataType nullable ihList ihStruct =>
    rintro ⟨name', dataType', nullable'⟩
    have htype : sameType dataType dataType' = true ↔ dataType = dataType' := by
      cases dataType with
      | list child =>
        cases dataType' with
        | list child' => rw [sameType, ihList child rfl, DataType.list.injEq]
        | _ => simp [sameType]
      | struct fields =>
        cases dataType' with
        | struct fields' =>
          rw [sameType, sameFields_iff_of (ihStruct fields rfl), DataType.struct.injEq]
        | _ => simp [sameType]
      | _ => cases dataType' <;> simp [sameType]
    rw [sameField, Bool.and_eq_true, Bool.and_eq_true, htype, Field.mk.injEq, and_assoc]
    simp

/-- Only the schema of the codec passes. -/
theorem requireSchema_eq_ok {codec : SchemaBoundChangeCodec} {actual : Schema} :
    codec.requireSchema actual = .ok () ↔ codec.logicalSchema = actual := by
  unfold SchemaBoundChangeCodec.requireSchema
  rw [← sameFields_iff_of fun f _ => sameField_iff f]
  split <;> simp_all

/-! ## Both encodings agree -/

namespace BoundedWriter

variable {w : BoundedWriter}

/-- A write within the limit appends its input; any other one sets the flag. -/
theorem writeAll_eq (hmax : w.maxBytes < usize) (hw : w.bytes.length ≤ w.maxBytes) (input : Bytes) :
    (w.bytes.length + input.length ≤ w.maxBytes ∧
      writeAll input w = .ok () { w with bytes := w.bytes ++ input }) ∨
    (w.maxBytes < w.bytes.length + input.length ∧
      ∃ e, writeAll input w = .error e { w with limitHit := true }) := by
  unfold writeAll
  by_cases hempty : input.isEmpty = true
  · have hnil : input = [] := List.isEmpty_iff.mp hempty
    subst hnil
    left
    refine ⟨by simpa using hw, ?_⟩
    rw [List.append_nil]
    rfl
  · rw [if_neg hempty]
    by_cases hle : w.bytes.length + input.length ≤ w.maxBytes
    · left
      refine ⟨hle, ?_⟩
      have hall : ((checkedAdd w.bytes.length input.length).all (w.maxBytes < ·)) = false := by
        unfold checkedAdd
        rw [if_pos (by omega), Option.all_some]
        simpa using hle
      have hwrite : write input w = .ok input.length { w with bytes := w.bytes ++ input } := by
        show (if ((checkedAdd w.bytes.length input.length).all (w.maxBytes < ·)) = true then _
          else _ : WriteM Nat) w = _
        rw [if_neg (by rw [hall]; simp)]
        rfl
      show (EStateM.bind (write input) fun _ => _) w = _
      unfold EStateM.bind
      rw [hwrite]
    · right
      refine ⟨by omega, "DogPaddle Change size limit exceeded", ?_⟩
      have hall : ((checkedAdd w.bytes.length input.length).all (w.maxBytes < ·)) = true := by
        unfold checkedAdd
        split
        · rw [Option.all_some]
          simpa using hle
        · rfl
      have hwrite : write input w =
          .error "DogPaddle Change size limit exceeded" { w with limitHit := true } := by
        show (if ((checkedAdd w.bytes.length input.length).all (w.maxBytes < ·)) = true then _
          else _ : WriteM Nat) w = _
        rw [if_pos hall]
        rfl
      show (EStateM.bind (write input) fun _ => _) w = _
      unfold EStateM.bind
      rw [hwrite]

/-- The same for chunks one after the other. -/
theorem forM_writeAll_eq (hmax : w.maxBytes < usize) (hw : w.bytes.length ≤ w.maxBytes)
    (chunks : List Bytes) :
    (w.bytes.length + chunks.flatten.length ≤ w.maxBytes ∧
      chunks.forM writeAll w = .ok () { w with bytes := w.bytes ++ chunks.flatten }) ∨
    (w.maxBytes < w.bytes.length + chunks.flatten.length ∧
      ∃ e w', chunks.forM writeAll w = .error e w' ∧ w'.limitHit = true) := by
  induction chunks generalizing w with
  | nil =>
    left
    rw [List.flatten_nil, List.append_nil]
    exact ⟨hw, rfl⟩
  | cons chunk chunks ih =>
    rw [List.flatten_cons, List.length_append]
    rcases writeAll_eq hmax hw chunk with ⟨hle, hwrite⟩ | ⟨hlt, e, hwrite⟩
    · have hrest := ih (w := { w with bytes := w.bytes ++ chunk }) hmax
        (by rw [List.length_append]; exact hle)
      dsimp only at hrest
      rw [List.length_append] at hrest
      rcases hrest with ⟨hall, hforM⟩ | ⟨hover, e, w', hforM, hlimit⟩
      · left
        refine ⟨by omega, (bind_of_ok hwrite).trans (hforM.trans ?_)⟩
        rw [List.append_assoc]
      · right
        exact ⟨by omega, e, w', (bind_of_ok hwrite).trans hforM, hlimit⟩
    · right
      exact ⟨by omega, e, _, bind_of_error hwrite, rfl⟩

/-- Arrow's chunks fit or hit the limit; what fits ends with Arrow's own error, if any. -/
theorem writeMessage_eq {arrow : ArrowWriter} {encoded : EncodedData} {chunks : List Bytes}
    {failure : Option String} (hmax : w.maxBytes < usize) (hw : w.bytes.length ≤ w.maxBytes)
    (hwrite : arrow.writeMessage encoded = (chunks, failure)) :
    (w.bytes.length + chunks.flatten.length ≤ w.maxBytes ∧
      writeMessage arrow encoded w = failure.elim
        (.ok () { w with bytes := w.bytes ++ chunks.flatten })
        fun e => .error e { w with bytes := w.bytes ++ chunks.flatten }) ∨
    (w.maxBytes < w.bytes.length + chunks.flatten.length ∧
      ∃ e w', writeMessage arrow encoded w = .error e w' ∧ w'.limitHit = true) := by
  unfold writeMessage
  rw [hwrite]
  rcases forM_writeAll_eq hmax hw chunks with ⟨hle, hchunks⟩ | ⟨hlt, e, w', hchunks, hlimit⟩
  · left
    refine ⟨hle, (bind_of_ok hchunks).trans ?_⟩
    cases failure <;> rfl
  · right
    exact ⟨hlt, e, w', bind_of_error hchunks, hlimit⟩

end BoundedWriter

namespace SchemaBoundChangeCodec

variable {arrow : ArrowWriter} {codec : SchemaBoundChangeCodec} {change : Change} {maxBytes : Nat}

/-- What is written before the message. -/
def head (codec : SchemaBoundChangeCodec) : Bytes := magic ++ codec.schemaFingerprint

theorem encode_eq_ok {bytes : Bytes} :
    codec.encode arrow change = .ok bytes ↔
      codec.requireSchema change.records.schema = .ok () ∧ ∃ encoded chunks,
        encodeBatch arrow change (physicalSchema codec.logicalSchema) = .ok encoded ∧
        arrow.writeMessage encoded = (chunks, none) ∧
        bytes = codec.head ++ chunks.flatten ++ canonicalEos := by
  unfold encode head
  constructor
  · intro h
    obtain ⟨_, hschema, h₁⟩ := except_bind_eq_ok.mp h
    obtain ⟨encoded, hencoded, h₂⟩ := except_bind_eq_ok.mp h₁
    cases hwrite : arrow.writeMessage encoded with
    | mk chunks failure =>
      rw [hwrite] at h₂
      cases failure with
      | some e => cases h₂
      | none =>
        cases h₂
        exact ⟨hschema, encoded, chunks, hencoded, hwrite, rfl⟩
  · rintro ⟨hschema, encoded, chunks, hencoded, hwrite, rfl⟩
    refine except_bind_eq_ok.mpr ⟨(), hschema, except_bind_eq_ok.mpr ⟨encoded, hencoded, ?_⟩⟩
    rw [hwrite]

theorem writePrefix_eq (codec : SchemaBoundChangeCodec) (hmax : maxBytes < usize) :
    (codec.head.length ≤ maxBytes ∧
      codec.writePrefix (.new maxBytes) = .ok () ⟨codec.head, maxBytes, false⟩) ∨
    (maxBytes < codec.head.length ∧ ∃ e w, codec.writePrefix (.new maxBytes) = .error e w) := by
  have hchunks : [magic, codec.schemaFingerprint].flatten = codec.head := by
    rw [List.flatten_cons, List.flatten_cons, List.flatten_nil, List.append_nil]
    rfl
  have hchain : codec.writePrefix =
      [magic, codec.schemaFingerprint].forM BoundedWriter.writeAll := by
    show _ = BoundedWriter.writeAll magic >>= fun _ =>
      (BoundedWriter.writeAll codec.schemaFingerprint >>= fun _ => pure ())
    rw [bind_pure_unit]
    rfl
  have hboth := congrFun hchain (.new maxBytes)
  have h := BoundedWriter.forM_writeAll_eq (w := .new maxBytes) hmax (Nat.zero_le _)
    [magic, codec.schemaFingerprint]
  rw [hchunks, ← hboth] at h
  rcases h with ⟨hle, hok⟩ | ⟨hlt, e, w, herror, -⟩
  · left
    exact ⟨by simpa [BoundedWriter.new] using hle, hok⟩
  · right
    exact ⟨by simpa [BoundedWriter.new] using hlt, e, w, herror⟩

/-- An entry that can be written at all is written under every limit that it keeps, and any
other limit is reported. -/
theorem encodeBounded_of_encode (harrow : arrow.Canonical) (hmax : maxBytes < usize)
    {bytes : Bytes} (h : codec.encode arrow change = .ok bytes) :
    codec.encodeBounded arrow change maxBytes =
      if bytes.length ≤ maxBytes then .ok bytes else .error (.encodedSizeLimitExceeded maxBytes) := by
  obtain ⟨hschema, encoded, chunks, hencoded, hwrite, rfl⟩ := encode_eq_ok.mp h
  have hbody : encoded.arrowData.length = change.bodyLength := by
    obtain ⟨_, -, h₁⟩ := except_bind_eq_ok.mp hencoded
    obtain ⟨⟨dictionaries, encoded'⟩, hencode, h₂⟩ := except_bind_eq_ok.mp h₁
    obtain ⟨-, h₃⟩ := except_ite_eq_ok.mp h₂
    cases h₃
    rw [requireSchema_eq_ok.mp hschema] at hencode
    exact harrow.body_length _ _ _ _ _ _ change.arrays_valid (mapError_eq_ok.mp hencode)
  have hcontains : change.bodyLength ≤ chunks.flatten.length := by
    obtain ⟨padding, hframe⟩ := harrow.frame encoded chunks hwrite
    rw [hframe, List.length_append, hbody]
    exact Nat.le_add_left _ _
  have hlength : (codec.head ++ chunks.flatten ++ canonicalEos).length =
      codec.head.length + chunks.flatten.length + canonicalEos.length := by
    rw [List.length_append, List.length_append]
  unfold encodeBounded
  rw [hschema, bodyLenBounded_eq change hmax, hlength, ok_bind]
  by_cases hfits : change.bodyLength ≤ maxBytes
  · rw [if_pos hfits, ok_bind]
    rcases writePrefix_eq codec hmax with ⟨hhead, hpre⟩ | ⟨hhead, e, w, hpre⟩
    · rw [hpre]
      dsimp only
      have hremaining : (⟨codec.head, maxBytes, false⟩ : BoundedWriter).remaining =
        maxBytes - codec.head.length := rfl
      rw [hremaining]
      by_cases hroom : maxBytes - codec.head.length < change.bodyLength
      · rw [if_pos hroom, if_neg (by omega)]
      · rw [if_neg hroom, hencoded, ok_bind]
        rcases BoundedWriter.writeMessage_eq (w := ⟨codec.head, maxBytes, false⟩) hmax hhead
          hwrite with ⟨hle, hmessage⟩ | ⟨hlt, e, w, hmessage, hlimit⟩
        · rw [hmessage]
          dsimp only [Option.elim] at hle ⊢
          have hbytes : (codec.head ++ chunks.flatten).length ≤ maxBytes := by
            rw [List.length_append]
            exact hle
          rcases BoundedWriter.writeAll_eq (w := ⟨codec.head ++ chunks.flatten, maxBytes, false⟩)
            hmax hbytes canonicalEos with ⟨hend, heos⟩ | ⟨hend, e, heos⟩
          · dsimp only at hend
            rw [List.length_append] at hend
            rw [heos, if_pos (by omega)]
          · dsimp only at hend
            rw [List.length_append] at hend
            rw [heos, if_neg (by omega)]
        · rw [hmessage]
          dsimp only at hlt ⊢
          rw [if_pos hlimit, if_neg (by omega)]
    · rw [hpre, if_neg (by omega)]
  · rw [if_neg hfits, if_neg (by omega)]
    rfl

/-- A bounded encoding is an encoding. -/
theorem encode_of_encodeBounded (hmax : maxBytes < usize) {bytes : Bytes}
    (h : codec.encodeBounded arrow change maxBytes = .ok bytes) :
    codec.encode arrow change = .ok bytes := by
  unfold encodeBounded at h
  obtain ⟨_, hschema, h₁⟩ := except_bind_eq_ok.mp h
  obtain ⟨bodyBytes, -, h₂⟩ := except_bind_eq_ok.mp h₁
  rcases writePrefix_eq codec hmax with ⟨hhead, hpre⟩ | ⟨-, e, w, hpre⟩
  · rw [hpre] at h₂
    obtain ⟨-, h₃⟩ := except_ite_eq_ok.mp h₂
    obtain ⟨encoded, hencoded, h₄⟩ := except_bind_eq_ok.mp h₃
    cases hwrite : arrow.writeMessage encoded with
    | mk chunks failure =>
    rcases BoundedWriter.writeMessage_eq (w := ⟨codec.head, maxBytes, false⟩) hmax hhead
      hwrite with ⟨hle, hmessage⟩ | ⟨-, e, w, hmessage, hlimit⟩
    · rw [hmessage] at h₄
      cases failure with
      | some e => cases h₄
      | none =>
        dsimp only [Option.elim] at h₄ hle
        have hbytes : (codec.head ++ chunks.flatten).length ≤ maxBytes := by
          rw [List.length_append]
          exact hle
        rcases BoundedWriter.writeAll_eq (w := ⟨codec.head ++ chunks.flatten, maxBytes, false⟩)
          hmax hbytes canonicalEos with ⟨-, heos⟩ | ⟨-, e, heos⟩
        · rw [heos] at h₄
          cases h₄
          exact encode_eq_ok.mpr ⟨hschema, encoded, chunks, hencoded, hwrite, rfl⟩
        · rw [heos] at h₄
          cases h₄
    · rw [hmessage] at h₄
      dsimp only at h₄
      rw [if_pos hlimit] at h₄
      cases h₄
  · rw [hpre] at h₂
    cases h₂

end SchemaBoundChangeCodec

def sampleColumn (value : Nat) : ArrayData :=
  .mk (.fixed .int64) 1 0 none none (toLE 8 value) []

theorem sampleColumn_valid (field : Field) (htype : field.dataType = .fixed .int64) (value : Nat) :
    ValidAll [field] 1 (List.replicate 1 true) [sampleColumn value] := by
  obtain ⟨name, dataType, nullable⟩ := field
  obtain rfl : dataType = .fixed .int64 := htype
  have hlength : (toLE 8 value).length = 8 := by
    rw [toLE, List.length_reverse, length_toBE]
  refine ⟨rfl, ⟨rfl, ?_, rfl, ?_, ?_⟩, fun _ _ => .cons (fun h => by cases h) .nil, trivial⟩
  · intro bits h
    cases h
  · show (0 + 1) * 8 ≤ (toLE 8 value).length
    omega
  · show (toLE 8 value).length < 2 ^ 63
    omega

/-- The row 5, inserted once. -/
def sampleChange : Change where
  records := ⟨sampleCodec.logicalSchema, 1, [sampleColumn 5], sampleColumn_valid _ rfl 5⟩
  diffs := sampleColumn 1
  nonempty := by decide
  diffs_valid := sampleColumn_valid _ rfl 1

/-- Two arrays of one number each. -/
def IsSample (columns : List ArrayData) : Prop :=
  columns.map ArrayData.len = [1, 1] ∧ ArrayData.nodesAll columns 0 1 = [(1, 0), (1, 0)] ∧
    ArrayData.lengthsAll columns 0 1 = [1, 8, 1, 8]

instance (columns : List ArrayData) : Decidable (IsSample columns) :=
  inferInstanceAs (Decidable (_ ∧ _ ∧ _))

/-- A writer that knows these. -/
def sampleWriter : ArrowWriter where
  tryNew _ _ := .ok ()
  encode _ columns :=
    if IsSample columns then .ok ([], ⟨sampleMetadata, sampleBody⟩) else .error "unknown batch"
  writeMessage encoded :=
    ([canonicalContinuation, toLE 4 encoded.ipcMessage.length, encoded.ipcMessage,
      encoded.arrowData], none)

theorem sampleWriter_encode {schema : Schema} {columns : List ArrayData}
    {dictionaries : List EncodedData} {encoded : EncodedData}
    (h : sampleWriter.encode schema columns = .ok (dictionaries, encoded)) :
    IsSample columns ∧ encoded = ⟨sampleMetadata, sampleBody⟩ := by
  have hcond : IsSample columns := by
    by_contra hne
    have herror : sampleWriter.encode schema columns = .error "unknown batch" := if_neg hne
    rw [herror] at h
    cases h
  have hok : sampleWriter.encode schema columns = .ok ([], ⟨sampleMetadata, sampleBody⟩) :=
    if_pos hcond
  rw [hok] at h
  cases h
  exact ⟨hcond, rfl⟩

theorem rows_of_sample {schema : Schema} {columns : List ArrayData} {rows : Nat}
    {parent : List Bool} (hvalid : ValidAll schema rows parent columns)
    (hlens : columns.map ArrayData.len = [1, 1]) : 1 = rows := by
  cases columns with
  | nil => cases hlens
  | cons data columns =>
    have hlen : data.len = 1 := (List.cons.inj hlens).1
    cases schema with
    | nil => cases hvalid
    | cons field schema =>
      rw [ValidAll] at hvalid
      omega

theorem sampleWriter_canonical : sampleWriter.Canonical where
  body_length schema columns rows parent dictionaries encoded hvalid hencode := by
    obtain ⟨hcond, rfl⟩ := sampleWriter_encode hencode
    obtain rfl := rows_of_sample hvalid hcond.1
    rw [hcond.2.2]
    decide
  frame encoded chunks h := by
    cases h
    exact ⟨0, by simp⟩

end Dogpaddle.Codec
