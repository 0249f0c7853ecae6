import Dogpaddle.Lib.Reader
import Dogpaddle.Lib.OrdMap

/-!
# The checkpoint format, on both sides of the bridge

A checkpoint is an image of the connector's offset store: the engine name and the
connector class it is bound to, and the offset entries in the order of their keys. The
host validates its bytes (`Rust.validate`), the bridge writes and reads them
(`Java.encode`, `Java.decode`).

Strings are lists of characters: a Java `Checkpoint` holds only strings that survive
UTF-8. `newString` stands for the decoding constructor of Java's `String`, which replaces
malformed input; all that is used of it is that it reads back what `getBytes` writes.
-/

namespace Dogpaddle.Debezium

open Lib

/-! ## What both sides share -/

/-- `DPDBCP01` in ASCII. -/
def magic : Bytes := [68, 80, 68, 66, 67, 80, 48, 49]

def version : Nat := 1

def maxCheckpointBytes : Nat := 64 * 1024 * 1024

def maxBindingBytes : Nat := 1024 * 1024

def maxEntryBytes : Nat := 32 * 1024 * 1024

def maxEntries : Nat := 1000000

/-- One bit of the reflected CRC-32 polynomial. -/
def crcStep (crc : UInt32) : UInt32 :=
  if crc &&& 1 = 1 then (crc >>> 1) ^^^ 0xEDB88320 else crc >>> 1

/-- CRC-32, as both sides compute it. -/
def crc32 (bytes : Bytes) : UInt32 :=
  (bytes.foldl (fun crc byte => crcStep^[8] (crc ^^^ byte.toUInt32)) 0xFFFFFFFF) ^^^ 0xFFFFFFFF

/-- The UTF-8 bytes of a string. -/
def encodeUtf8 (s : List Char) : Bytes := s.flatMap String.utf8EncodeChar

/-- The string of well-formed UTF-8. -/
def decodeUtf8 (bytes : Bytes) : Option (List Char) :=
  bytes.toByteArray.utf8Decode?.map Array.toList

/-- Unicode `White_Space`, which `str::trim` removes. -/
def isWhiteSpace (c : Char) : Bool :=
  let n := c.toNat
  (9 ≤ n && n ≤ 13) || n == 0x20 || n == 0x85 || n == 0xA0 || n == 0x1680 ||
    (0x2000 ≤ n && n ≤ 0x200A) || n == 0x2028 || n == 0x2029 || n == 0x202F || n == 0x205F ||
    n == 0x3000

/-- `Character.isWhitespace`: separators that may break, and some control characters. -/
def isJavaWhitespace (c : Char) : Bool :=
  let n := c.toNat
  (9 ≤ n && n ≤ 13) || (0x1C ≤ n && n ≤ 0x20) || n == 0x1680 || (0x2000 ≤ n && n ≤ 0x2006) ||
    (0x2008 ≤ n && n ≤ 0x200A) || n == 0x2028 || n == 0x2029 || n == 0x205F || n == 0x3000

/-! ## The host -/

namespace Rust

/-- `s.trim().is_empty()`. -/
def isBlank (s : List Char) : Bool := s.all isWhiteSpace

/-- A length and that many bytes, within a limit. -/
def bytesU32 (maximum : Nat) (label : String) : Reader Bytes := do
  let length ← Reader.unsigned 4
  if length > maximum then throw s!"checkpoint {label} exceeds the protocol limit"
  else Reader.take length

def utf8U32 (label : String) (maximum : Nat) : Reader (List Char) := do
  let bytes ← bytesU32 maximum label
  match decodeUtf8 bytes with
  | none => throw s!"checkpoint {label} is not valid UTF-8"
  | some s => pure s

/-- A signed number of four bytes. -/
def i32 : Reader Int := do
  let n ← Reader.unsigned 4
  return if n < 2 ^ 31 then (n : Int) else (n : Int) - 2 ^ 32

/-- The loop over the offset entries. -/
def readEntries : Nat → Option Bytes → Reader Unit
  | 0, _ => pure ()
  | entries + 1, previousKey => do
    let key ← bytesU32 maxEntryBytes "offset key"
    if key = [] then throw "checkpoint offset key must not be empty"
    else if previousKey.any fun previous => decide (key ≤ previous) then
      throw "checkpoint offset keys must be unique and strictly sorted"
    else do
      let valueLength ← i32
      if valueLength < 0 then throw "checkpoint offset value has an invalid length"
      else if valueLength.toNat > maxEntryBytes then
        throw "checkpoint offset value exceeds the protocol limit"
      else do
        let _ ← Reader.take valueLength.toNat
        readEntries entries (some key)

/-- The body of a checkpoint, up to its end. -/
def readBody : Reader Unit := do
  let found ← Reader.take 8
  if found ≠ magic then throw "checkpoint magic does not match"
  else do
    let found ← Reader.unsigned 2
    if found ≠ version then throw "checkpoint version is not supported"
    else do
      let engineName ← utf8U32 "engine name" maxBindingBytes
      let connectorClass ← utf8U32 "connector class" maxBindingBytes
      if isBlank engineName ∨ isBlank connectorClass then
        throw "checkpoint connector binding must not be blank"
      else do
        let entries ← Reader.unsigned 4
        if entries > maxEntries then throw "checkpoint has too many offset entries"
        else readEntries entries none

def validate (bytes : Bytes) : Except String Unit :=
  if bytes.length > maxCheckpointBytes then
    .error "checkpoint exceeds the 64 MiB protocol limit"
  else if bytes.length < 8 + 2 + 4 then .error "checkpoint is truncated"
  else
    let body := bytes.take (bytes.length - 4)
    let checksum := bytes.drop (bytes.length - 4)
    if (crc32 body).toNat ≠ fromBE checksum then .error "checkpoint checksum does not match"
    else
      match readBody body with
      | .error message => .error message
      | .ok (_, rest) => if rest ≠ [] then .error "checkpoint has trailing bytes" else .ok ()

/-- `Checkpoint::from_bytes` takes the bytes. -/
def accepts (bytes : Bytes) : Bool := (validate bytes).isOk

end Rust

/-! ## The bridge -/

namespace Java

/-- `String.isBlank`. -/
def isBlank (s : List Char) : Bool := s.all isJavaWhitespace

/-- A name a checkpoint may be bound to. -/
abbrev Binding :=
  { s : List Char // isBlank s = false ∧ (encodeUtf8 s).length ≤ maxBindingBytes }

/-- A connector-bound snapshot of the offset store, as its constructor admits it. -/
structure Checkpoint where
  engineName : Binding
  connectorClass : Binding
  entries : OrdMap Bytes Bytes
deriving DecidableEq

/-- Offsets as they are written: `none` is the null value, which removes its key. -/
abbrev Delta := OrdMap Bytes (Option Bytes)

def Checkpoint.mergeEntry (entries : OrdMap Bytes Bytes) (entry : Bytes × Option Bytes) :
    OrdMap Bytes Bytes :=
  match entry.2 with
  | none => entries.erase entry.1
  | some value => entries.put entry.1 value

/-- The checkpoint with the offsets of a delta written over its own. -/
def Checkpoint.merge (checkpoint : Checkpoint) (delta : Delta) : Checkpoint :=
  { checkpoint with entries := delta.entries.foldl mergeEntry checkpoint.entries }

section Decode

variable (newString : Bytes → List Char)

def requireNonBlank (value : List Char) (description : String) : Except String Binding :=
  if hblank : isBlank value = true then .error s!"{description} must not be blank"
  else if value ≠ newString (encodeUtf8 value) then .error s!"{description} is not canonical UTF-8"
  else if hlength : (encodeUtf8 value).length > maxBindingBytes then
    .error s!"{description} exceeds {maxBindingBytes} UTF-8 bytes"
  else .ok ⟨value, by simpa using hblank, by omega⟩

/-- The constructor. -/
def Checkpoint.new (engineName connectorClass : List Char) (entries : OrdMap Bytes Bytes) :
    Except String Checkpoint := do
  let engineName ← requireNonBlank newString engineName "engine name"
  let connectorClass ← requireNonBlank newString connectorClass "connector class"
  pure ⟨engineName, connectorClass, entries⟩

/-- A signed number of four bytes. -/
def readInt : Reader Int := do
  let n ← Reader.unsigned 4
  return if n < 2 ^ 31 then (n : Int) else (n : Int) - 2 ^ 32

def readRequiredBytes (maximum : Nat) : Reader Bytes := do
  let length ← readInt
  let available ← Reader.available
  if length < 0 ∨ length > maximum ∨ length > available then
    throw s!"invalid checkpoint component length {length}"
  else Reader.takeUpTo length.toNat

def readRequiredUtf8 : Reader (List Char) := do
  let encoded ← readRequiredBytes maxBindingBytes
  let value := newString encoded
  if encoded ≠ encodeUtf8 value then throw "checkpoint binding is not canonical UTF-8"
  else pure value

def readCount (maximum : Nat) (description : String) : Reader Nat := do
  let value ← readInt
  if value < 0 ∨ value > maximum then throw s!"invalid {description} {value}"
  else pure value.toNat

/-- The loop over the offset entries. -/
def readEntries : Nat → Option Bytes → OrdMap Bytes Bytes → Reader (OrdMap Bytes Bytes)
  | 0, _, entries => pure entries
  | count + 1, previous, entries => do
    let key ← readRequiredBytes maxEntryBytes
    if key.length = 0 then throw "checkpoint offset key must not be empty"
    else if previous.any fun previous => decide (key ≤ previous) then
      throw "checkpoint keys are not in canonical order"
    else do
      let value ← readRequiredBytes maxEntryBytes
      readEntries count (some key) (entries.put key value)

/-- The body of a checkpoint: its bindings and entries. -/
def readBody : Reader (List Char × List Char × OrdMap Bytes Bytes) := do
  let found ← Reader.takeUpTo 8
  if found ≠ magic then throw "checkpoint magic mismatch"
  else do
    let found ← Reader.unsigned 2
    if found ≠ version then throw s!"unsupported checkpoint version {found}"
    else do
      let engineName ← readRequiredUtf8 newString
      let connectorClass ← readRequiredUtf8 newString
      let entryCount ← readCount maxEntries "checkpoint entry count"
      let entries ← readEntries entryCount none OrdMap.empty
      pure (engineName, connectorClass, entries)

def decode (encoded : Bytes) : Except String Checkpoint :=
  if encoded.length > maxCheckpointBytes then
    .error s!"checkpoint exceeds {maxCheckpointBytes} bytes"
  else if encoded.length < 8 + 2 + 4 * 3 + 2 + 4 then .error "checkpoint is truncated"
  else
    let body := encoded.take (encoded.length - 4)
    if (crc32 body).toNat ≠ fromBE (encoded.drop (encoded.length - 4)) then
      .error "checkpoint checksum mismatch"
    else
      match readBody newString body with
      | .error message => .error message
      | .ok ((engineName, connectorClass, entries), rest) =>
        if rest.length ≠ 0 then .error "checkpoint has trailing bytes"
        else Checkpoint.new newString engineName connectorClass entries

end Decode

/-- Appends to a buffer that leaves room for the checksum. -/
def write (buffer bytes : Bytes) : Except String Bytes :=
  if buffer.length + bytes.length > maxCheckpointBytes - 4 then
    .error s!"checkpoint exceeds {maxCheckpointBytes} bytes"
  else .ok (buffer ++ bytes)

def writeRequiredBytes (buffer value : Bytes) : Except String Bytes := do
  let buffer ← write buffer (toBE 4 value.length)
  write buffer value

/-- The loop over the offset entries. -/
def writeEntries : List (Bytes × Bytes) → Bytes → Except String Bytes
  | [], buffer => .ok buffer
  | entry :: entries, buffer => do
    if entry.1.length = 0 then .error "checkpoint offset key must not be empty"
    else if entry.1.length > maxEntryBytes ∨ entry.2.length > maxEntryBytes then
      .error s!"checkpoint offset entry exceeds {maxEntryBytes} bytes"
    else do
      let buffer ← writeRequiredBytes buffer entry.1
      let buffer ← writeRequiredBytes buffer entry.2
      writeEntries entries buffer

def encode (checkpoint : Checkpoint) : Except String Bytes := do
  let buffer ← write [] magic
  let buffer ← write buffer (toBE 2 version)
  let buffer ← writeRequiredBytes buffer (encodeUtf8 checkpoint.engineName.val)
  let buffer ← writeRequiredBytes buffer (encodeUtf8 checkpoint.connectorClass.val)
  if checkpoint.entries.entries.length > maxEntries then
    .error "checkpoint has too many offset entries"
  else do
    let buffer ← write buffer (toBE 4 checkpoint.entries.entries.length)
    let buffer ← writeEntries checkpoint.entries.entries buffer
    pure (buffer ++ toBE 4 (crc32 buffer).toNat)

end Java

end Dogpaddle.Debezium
