import Dogpaddle.Codec.Flat
import Dogpaddle.Lib.Twos

/-!
# Entries of a codec

A bound entry is a marker, the fingerprint of the schema, one message of Arrow's stream format
and the end of the stream. `parse` finds its parts; reading the metadata is left to Arrow.

* `ArrowIpc`: the metadata reader, a parameter.
* `parseMessage_append`: what is read of an entry is read of every longer one.
* `decode_canonical`: a decoder accepts canonical descriptors only, and no entry that begins
  with another one.
-/

namespace Dogpaddle.Codec

open Lib Canonical

/-! ## Metadata -/

inductive MetadataVersion
  | v1
  | v2
  | v3
  | v4
  | v5
  | unknown (value : Int)
deriving DecidableEq, Repr

def MetadataVersion.debug : MetadataVersion → String
  | .v1 => "V1"
  | .v2 => "V2"
  | .v3 => "V3"
  | .v4 => "V4"
  | .v5 => "V5"
  | .unknown value => s!"<UNKNOWN {value}>"

inductive MessageHeader
  | none
  | schema
  | dictionaryBatch
  | recordBatch
  | tensor
  | sparseTensor
  | unknown (value : Nat)
deriving DecidableEq, Repr

def MessageHeader.debug : MessageHeader → String
  | .none => "NONE"
  | .schema => "Schema"
  | .dictionaryBatch => "DictionaryBatch"
  | .recordBatch => "RecordBatch"
  | .tensor => "Tensor"
  | .sparseTensor => "SparseTensor"
  | .unknown value => s!"<UNKNOWN {value}>"

/-- The record batch table of a message. -/
structure IpcRecordBatch where
  length : Int64
  nodes : Option (List FieldNode)
  buffers : Option (List IpcBuffer)
  /-- Whether there is a table about compression. -/
  compression : Bool
  variadicBufferCounts : Option (List Int64)

structure Message where
  version : MetadataVersion
  headerType : MessageHeader
  /-- The header, read as a record batch. -/
  headerAsRecordBatch : Option IpcRecordBatch
  customMetadata : Option (List (String × String))
  bodyLength : Int64

/-- Arrow's reader of metadata: its tables, verified within limits. -/
structure ArrowIpc where
  rootAsMessageWithOpts (maxTables maxApparentSize : Nat) (metadata : Bytes) :
    Except String Message

def maxFlatbufferTables : Nat := 1024

def maxFlatbufferApparentSize : Nat := 64 * 1024 * 1024

/-! ## Framing -/

def canonicalContinuation : Bytes := [0xff, 0xff, 0xff, 0xff]

def canonicalEos : Bytes := [0xff, 0xff, 0xff, 0xff, 0, 0, 0, 0]

structure ParsedMessage where
  message : Message
  body : Bytes
  stop : Nat
  body_lt : body.length < 2 ^ 63

/-- `encoded.get(start..stop)`. -/
def getRange (encoded : Bytes) (start stop : Nat) : Option Bytes :=
  if start ≤ stop ∧ stop ≤ encoded.length then some ((encoded.drop start).take (stop - start))
  else none

/-- The length of the metadata, from the bytes before it. -/
def metadataLength (expected : MessageHeader) (word : Bytes) : Except CodecError Nat :=
  let length := fromTwos word.reverse
  if length < 0 then .error (.invalidEncoding s!"{expected.debug} metadata length is negative")
  else if length.toNat = 0 ∨ length.toNat % 8 ≠ 0 then
    .error (.invalidEncoding
      s!"{expected.debug} metadata length must be positive and 8-byte aligned")
  else .ok length.toNat

def checkMessage (expected : MessageHeader) (message : Message) : Except CodecError Unit :=
  if message.version ≠ .v5 then
    .error (.invalidEncoding
      s!"{expected.debug} metadata version {message.version.debug} is not V5")
  else if message.headerType ≠ expected then
    .error (.invalidEncoding
      s!"expected {expected.debug} message, found {message.headerType.debug}")
  else if message.customMetadata.any (!·.isEmpty) then
    .error (.invalidEncoding
      s!"{expected.debug} message custom metadata is not supported")
  else .ok ()

/-- The body behind the metadata. -/
def messageBody (encoded : Bytes) (expected : MessageHeader) (message : Message)
    (metadataEnd : Nat) : Except CodecError ParsedMessage :=
  match hlength : usizeTryFrom message.bodyLength with
  | none => .error (.invalidEncoding s!"{expected.debug} body length is negative")
  | some bodyLen =>
    if bodyLen % 8 ≠ 0 then
      .error (.invalidEncoding s!"{expected.debug} body length is not 8-byte aligned")
    else
      match checkedAdd metadataEnd bodyLen with
      | none => .error (.invalidEncoding "IPC body length overflowed")
      | some bodyEnd =>
        if encoded.length < bodyEnd then
          .error (.invalidEncoding
            s!"{expected.debug} body length exceeds the encoded entry")
        else .ok
          { message
            body := (encoded.drop metadataEnd).take bodyLen
            stop := bodyEnd
            body_lt := by
              have hbound := message.bodyLength.toInt_lt
              have hbodyLen := usizeTryFrom_eq_some.mp hlength
              have htake := List.length_take_le bodyLen (encoded.drop metadataEnd)
              omega }

def parseMessage (arrow : ArrowIpc) (encoded : Bytes) (offset : Nat) (expected : MessageHeader) :
    Except CodecError ParsedMessage :=
  if offset % 8 ≠ 0 then
    .error (.invalidEncoding s!"{expected.debug} message is not 8-byte aligned")
  else do
    let head ← okOr s!"{expected.debug} message prefix is truncated"
      (getRange encoded offset (offset + 8))
    if head.take 4 ≠ canonicalContinuation then
      .error (.invalidEncoding
        s!"{expected.debug} message must use canonical non-legacy framing")
    else do
      let metadataLen ← metadataLength expected (head.drop 4)
      let metadataStart ← okOr "IPC metadata offset overflowed" (checkedAdd offset head.length)
      let metadataEnd ← okOr "IPC metadata length overflowed"
        (checkedAdd metadataStart metadataLen)
      let metadata ← okOr s!"{expected.debug} metadata length exceeds the encoded entry"
        (getRange encoded metadataStart metadataEnd)
      let message ← (arrow.rootAsMessageWithOpts maxFlatbufferTables maxFlatbufferApparentSize
        metadata).mapError fun e =>
          CodecError.invalidEncoding s!"invalid {expected.debug} IPC metadata: {e}"
      checkMessage expected message
      messageBody encoded expected message metadataEnd

def parseRecordBatch (arrow : ArrowIpc) (encoded : Bytes) (offset : Nat)
    (physicalSchema logicalSchema : Schema) : Except CodecError ParsedChange := do
  let message ← parseMessage arrow encoded offset .recordBatch
  if getRange encoded message.stop encoded.length ≠ some canonicalEos then
    .error (.invalidEncoding ("the first record batch must be followed by one canonical EOS " ++
      "marker and no other bytes"))
  else do
    let batch ← okOr "RecordBatch message has no RecordBatch header"
      message.message.headerAsRecordBatch
    let rowCount ← okOr "RecordBatch row count is negative or does not fit this platform"
      (usizeTryFrom batch.length)
    if rowCount = 0 then .error (.invalidEncoding "RecordBatch must contain at least one row")
    else if batch.compression then
      .error (.invalidEncoding "compressed RecordBatch messages are not supported")
    else if batch.variadicBufferCounts.any (!·.isEmpty) then
      .error (.invalidEncoding "variadic RecordBatch buffers are not supported")
    else
      .ok ⟨physicalSchema, logicalSchema, batch.nodes, batch.buffers, message.body, rowCount,
        message.body_lt⟩

/-! ## The codec -/

def magic : Bytes := Relation.utf8Bytes "DPCHB001"

def fingerprintBytes : Nat := 32

def prefixBytes : Nat := magic.length + fingerprintBytes

def diffFieldName : String := "$dogpaddle.diff"

/-- The schema of the batch: the differences before the columns. -/
def physicalSchema (logical : Schema) : Schema :=
  .mk diffFieldName (.fixed .int64) false :: logical

structure SchemaBoundChangeCodec where
  logicalSchema : Schema
  schemaFingerprint : Bytes
  fingerprint_length : schemaFingerprint.length = fingerprintBytes

namespace SchemaBoundChangeCodec

def parse (arrow : ArrowIpc) (codec : SchemaBoundChangeCodec) (encoded : Bytes) :
    Except CodecError ParsedChange := do
  let head ← okOr "schema-bound Change prefix is truncated" (getRange encoded 0 prefixBytes)
  if head.take magic.length ≠ magic then
    .error (.invalidEncoding "schema-bound Change format marker is invalid")
  else if head.drop magic.length ≠ codec.schemaFingerprint then .error .schemaMismatch
  else
    parseRecordBatch arrow encoded prefixBytes (physicalSchema codec.logicalSchema)
      codec.logicalSchema

/-- Decoding: what Arrow makes of a checked batch, and its values, is checked behind that. -/
def decode {α : Type} (arrow : ArrowIpc) (decodeBatch : ParsedChange → Except CodecError α)
    (codec : SchemaBoundChangeCodec) (encoded : Bytes) : Except CodecError α := do
  let parsed ← codec.parse arrow encoded
  validateLayout parsed
  decodeBatch parsed

end SchemaBoundChangeCodec

/-! ## Entries show their own end -/

variable {arrow : ArrowIpc} {encoded rest : Bytes}

theorem getRange_eq_some {start stop : Nat} {bytes : Bytes} :
    getRange encoded start stop = some bytes ↔
      start ≤ stop ∧ stop ≤ encoded.length ∧ (encoded.drop start).take (stop - start) = bytes := by
  unfold getRange
  split <;> simp_all

theorem getRange_append {start stop : Nat} {bytes : Bytes}
    (h : getRange encoded start stop = some bytes) :
    getRange (encoded ++ rest) start stop = some bytes := by
  obtain ⟨hle, hlength, hbytes⟩ := getRange_eq_some.mp h
  refine getRange_eq_some.mpr ⟨hle, ?_, ?_⟩
  · rw [List.length_append]
    omega
  · rw [List.drop_append_of_le_length (hle.trans hlength), List.take_append_of_le_length, hbytes]
    rw [List.length_drop]
    omega

theorem messageBody_eq_ok {expected : MessageHeader} {message : Message} {metadataEnd : Nat}
    {parsed : ParsedMessage} :
    messageBody encoded expected message metadataEnd = .ok parsed ↔
      ∃ bodyLen : Nat, message.bodyLength.toInt = bodyLen ∧ bodyLen % 8 = 0 ∧
        metadataEnd + bodyLen < usize ∧ metadataEnd + bodyLen ≤ encoded.length ∧
        parsed.message = message ∧ parsed.body = (encoded.drop metadataEnd).take bodyLen ∧
        parsed.stop = metadataEnd + bodyLen := by
  unfold messageBody
  constructor
  · intro h
    split at h
    · cases h
    · next bodyLen hlength =>
      obtain ⟨haligned, h₁⟩ := except_ite_eq_ok.mp h
      split at h₁
      · cases h₁
      · next bodyEnd hsum =>
        obtain ⟨hbound, h₂⟩ := except_ite_eq_ok.mp h₁
        obtain ⟨rfl, hlt⟩ := checkedAdd_eq_some.mp hsum
        cases h₂
        exact ⟨bodyLen, usizeTryFrom_eq_some.mp hlength, not_not.mp haligned, hlt, by omega, rfl,
          rfl, rfl⟩
  · rintro ⟨bodyLen, hlength, haligned, hlt, hbound, hmessage, hbody, hstop⟩
    have hword := usizeTryFrom_eq_some.mpr hlength
    split
    · next hnone =>
      rw [hword] at hnone
      cases hnone
    · next bodyLen' hsome =>
      obtain rfl : bodyLen = bodyLen' := Option.some.inj (hword.symm.trans hsome)
      rw [if_neg (not_not.mpr haligned), checkedAdd_eq_some.mpr ⟨rfl, hlt⟩]
      dsimp only
      rw [if_neg (by omega)]
      obtain ⟨message', body', stop', _⟩ := parsed
      dsimp only at hmessage hbody hstop
      subst hmessage hbody hstop
      rfl

theorem messageBody_append {expected : MessageHeader} {message : Message} {metadataEnd : Nat}
    {parsed : ParsedMessage} (h : messageBody encoded expected message metadataEnd = .ok parsed) :
    messageBody (encoded ++ rest) expected message metadataEnd = .ok parsed := by
  obtain ⟨bodyLen, hlength, haligned, hlt, hbound, hmessage, hbody, hstop⟩ :=
    messageBody_eq_ok.mp h
  refine messageBody_eq_ok.mpr ⟨bodyLen, hlength, haligned, hlt, ?_, hmessage, ?_, hstop⟩
  · rw [List.length_append]
    omega
  · rw [List.drop_append_of_le_length (by omega), List.take_append_of_le_length, hbody]
    rw [List.length_drop]
    omega

/-- What is read of an entry is read of every longer one. -/
theorem parseMessage_append {offset : Nat} {expected : MessageHeader} {parsed : ParsedMessage}
    (h : parseMessage arrow encoded offset expected = .ok parsed) :
    parseMessage arrow (encoded ++ rest) offset expected = .ok parsed := by
  obtain ⟨haligned, h₁⟩ := except_ite_eq_ok.mp h
  obtain ⟨head, hhead, h₂⟩ := except_bind_eq_ok.mp h₁
  obtain ⟨hframing, h₃⟩ := except_ite_eq_ok.mp h₂
  obtain ⟨metadataLen, hlen, h₄⟩ := except_bind_eq_ok.mp h₃
  obtain ⟨metadataStart, hstart, h₅⟩ := except_bind_eq_ok.mp h₄
  obtain ⟨metadataEnd, hend, h₆⟩ := except_bind_eq_ok.mp h₅
  obtain ⟨metadata, hmetadata, h₇⟩ := except_bind_eq_ok.mp h₆
  obtain ⟨message, hmessage, h₈⟩ := except_bind_eq_ok.mp h₇
  obtain ⟨_, hcheck, h₉⟩ := except_bind_eq_ok.mp h₈
  refine except_ite_eq_ok.mpr ⟨haligned, except_bind_eq_ok.mpr ⟨head, ?_, ?_⟩⟩
  · exact okOr_eq_ok.mpr (getRange_append (okOr_eq_ok.mp hhead))
  refine except_ite_eq_ok.mpr ⟨hframing, except_bind_eq_ok.mpr ⟨metadataLen, hlen, ?_⟩⟩
  refine except_bind_eq_ok.mpr ⟨metadataStart, hstart, ?_⟩
  refine except_bind_eq_ok.mpr ⟨metadataEnd, hend, except_bind_eq_ok.mpr ⟨metadata, ?_, ?_⟩⟩
  · exact okOr_eq_ok.mpr (getRange_append (okOr_eq_ok.mp hmetadata))
  refine except_bind_eq_ok.mpr ⟨message, hmessage, ?_⟩
  exact except_bind_eq_ok.mpr ⟨_, hcheck, messageBody_append h₉⟩

/-- An accepted entry ends with the end of the stream. -/
theorem parseRecordBatch_stop {offset : Nat} {physical logical : Schema} {parsed : ParsedChange}
    (h : parseRecordBatch arrow encoded offset physical logical = .ok parsed) :
    ∃ message, parseMessage arrow encoded offset .recordBatch = .ok message ∧
      encoded.length = message.stop + canonicalEos.length := by
  obtain ⟨message, hmessage, h₁⟩ := except_bind_eq_ok.mp h
  obtain ⟨heos, -⟩ := except_ite_eq_ok.mp h₁
  refine ⟨message, hmessage, ?_⟩
  obtain ⟨hle, -, hbytes⟩ := getRange_eq_some.mp (not_not.mp heos)
  have hlength := congrArg List.length hbytes
  rw [List.length_take, List.length_drop] at hlength
  have height : canonicalEos.length = 8 := rfl
  omega

namespace SchemaBoundChangeCodec

variable {codec : SchemaBoundChangeCodec}

theorem parse_stop {parsed : ParsedChange} (h : codec.parse arrow encoded = .ok parsed) :
    ∃ message, parseMessage arrow encoded prefixBytes .recordBatch = .ok message ∧
      encoded.length = message.stop + canonicalEos.length := by
  obtain ⟨head, -, h₁⟩ := except_bind_eq_ok.mp h
  obtain ⟨-, h₂⟩ := except_ite_eq_ok.mp h₁
  obtain ⟨-, h₃⟩ := except_ite_eq_ok.mp h₂
  exact parseRecordBatch_stop h₃

/-- No entry begins with another one. -/
theorem parse_prefix_free {a b : Bytes} {p q : ParsedChange} (ha : codec.parse arrow a = .ok p)
    (hb : codec.parse arrow b = .ok q) (h : a <+: b) : a = b := by
  obtain ⟨rest, rfl⟩ := h
  obtain ⟨message, hmessage, hlength⟩ := parse_stop ha
  obtain ⟨message', hmessage', hlength'⟩ := parse_stop hb
  have hsame : message' = message :=
    Except.ok.inj (hmessage'.symm.trans (parseMessage_append hmessage))
  rw [hsame, ← hlength, List.length_append] at hlength'
  have hrest : rest = [] := List.length_eq_zero_iff.mp (by omega)
  rw [hrest, List.append_nil]

end SchemaBoundChangeCodec

/-- The decoder accepts canonical descriptors and no others, and no entry that it accepts is a
proper prefix of another one. -/
theorem decode_canonical (arrow : ArrowIpc) :
    (∀ parsed : ParsedChange, validateLayout parsed = .ok () ↔
      ∃ nodes buffers, parsed.nodes = some nodes ∧ parsed.buffers = some buffers ∧
        CanonicalLayout parsed.physicalSchema parsed.rowCount nodes buffers
          parsed.body.length) ∧
    ∀ {α : Type} (decodeBatch : ParsedChange → Except CodecError α)
      (codec : SchemaBoundChangeCodec) (a b : Bytes),
      (∃ change, codec.decode arrow decodeBatch a = .ok change) →
      (∃ change, codec.decode arrow decodeBatch b = .ok change) → a <+: b → a = b := by
  constructor
  · exact validateLayout_iff
  · rintro α decodeBatch codec a b ⟨change, ha⟩ ⟨change', hb⟩ h
    obtain ⟨p, hp, -⟩ := except_bind_eq_ok.mp ha
    obtain ⟨q, hq, -⟩ := except_bind_eq_ok.mp hb
    exact SchemaBoundChangeCodec.parse_prefix_free hp hq h

/-! ### A sample -/

def toLE (width n : Nat) : Bytes := (toBE width n).reverse

/-- One row of a batch with one column of numbers. -/
def sampleMessage : Message where
  version := .v5
  headerType := .recordBatch
  headerAsRecordBatch := some
    { length := 1
      nodes := some [⟨1, 0⟩, ⟨1, 0⟩]
      buffers := some [⟨0, 1⟩, ⟨8, 8⟩, ⟨16, 1⟩, ⟨24, 8⟩]
      compression := false
      variadicBufferCounts := none }
  customMetadata := none
  bodyLength := 32

/-- The tables of the message: its own, that of the batch and the two vectors. -/
def sampleMetadata : Bytes :=
  toLE 4 16 ++ [12, 20, 4, 6, 16, 8].flatMap (toLE 2) ++
    (toLE 4 12 ++ toLE 2 4 ++ [3, 0] ++ toLE 8 32 ++ toLE 4 16) ++
    [10, 20, 8, 4, 16, 0].flatMap (toLE 2) ++
    (toLE 4 12 ++ toLE 4 16 ++ toLE 8 1 ++ toLE 4 44) ++
    (toLE 4 2 ++ [1, 0, 1, 0].flatMap (toLE 8) ++ toLE 4 0) ++
    (toLE 4 4 ++ [0, 1, 8, 8, 16, 1, 24, 8].flatMap (toLE 8))

/-- A reader that knows the message. -/
def sampleArrow : ArrowIpc where
  rootAsMessageWithOpts _ _ metadata :=
    if metadata = sampleMetadata then .ok sampleMessage else .error "unknown message"

def sampleCodec : SchemaBoundChangeCodec where
  logicalSchema := [.mk "a" (.fixed .int64) false]
  schemaFingerprint := List.replicate 32 7
  fingerprint_length := rfl

/-- The row 5, inserted once. -/
def sampleBody : Bytes := [1, 1, 1, 5].flatMap (toLE 8)

def sampleEntry : Bytes :=
  magic ++ sampleCodec.schemaFingerprint ++ canonicalContinuation ++
    toLE 4 sampleMetadata.length ++ sampleMetadata ++ sampleBody ++ canonicalEos

/-- The entry is accepted, and every entry that begins with it is the same one. -/
theorem decode_canonical_sample :
    sampleCodec.decode sampleArrow (fun _ => .ok ()) sampleEntry = .ok () ∧
    ∀ b, (∃ u, sampleCodec.decode sampleArrow (fun _ => .ok ()) b = .ok u) →
      sampleEntry <+: b → sampleEntry = b := by
  have hsample : sampleCodec.decode sampleArrow (fun _ => .ok ()) sampleEntry = .ok () := by
    decide +kernel
  exact ⟨hsample, fun b => (decode_canonical sampleArrow).2 _ _ _ b ⟨(), hsample⟩⟩

end Dogpaddle.Codec
