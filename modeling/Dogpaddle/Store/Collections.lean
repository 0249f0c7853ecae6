import Dogpaddle.Store.Queue
import Mathlib.Data.PNat.Defs

/-!
# Cells, ordered maps and partitions

The typed collections over one namespace. Every method follows the source: arguments
are encoded first, a codec failure poisons the transaction, and the encoded operation
decides about the rest.

* a cell keeps one value under the empty key;
* an ordered map keeps a value per encoded key, and one of positive weights is a
  multiset;
* a partition is the part of an ordered map below one framed partition key.
-/

namespace Dogpaddle.Store

open Lib

/-- No bound on the size of a value. -/
def usizeMax : Nat := 2 ^ 64 - 1

/-! ## Cells -/

structure CellAccess (T : Type) where
  data : DataAccess
  value : Codec T

namespace CellAccess

variable {T : Type} (cell : CellAccess T)

def getBounded (maxBytes : Nat) : TxM (Option T) :=
  DataAccess.getBounded cell.data cell.value [] maxBytes

def get : TxM (Option T) := cell.getBounded usizeMax

def set (value : T) : TxM Unit := do
  let encoded ← poisonOnError (cell.value.encode value)
  DataAccess.put cell.data [] encoded

/-- Removes the value and reports whether there was one. -/
def clear : TxM Bool := DataAccess.delete cell.data []

end CellAccess

/-! ## Weights -/

/-- A positive weight is stored in eight bytes. -/
def weightCodec : Codec ℕ+ where
  encode weight := .ok (toBE 8 weight)
  decode bytes :=
    if bytes.length ≠ 8 then .error "invalid u64 value length"
    else if h : 0 < fromBE bytes then .ok ⟨fromBE bytes, h⟩
    else .error "stored positive weight is zero"

structure MultiplicityChange where
  before : Nat
  after : Nat
deriving DecidableEq, Repr

/-- A weight after a difference, within 64 bits. -/
def checkedWeight (before : Nat) (difference : Int) : Except Failure Nat :=
  if 0 ≤ difference then
    if before + difference.natAbs < 2 ^ 64 then .ok (before + difference.natAbs)
    else .error .multiplicityOverflow
  else if difference.natAbs ≤ before then .ok (before - difference.natAbs)
  else .error .multiplicityUnderflow

/-- Poisons on every failure. -/
def poisonOnFailure {α : Type} (result : Except Failure α) : TxM α :=
  match result with
  | .ok a => pure a
  | .error e => do
    poison
    throw e

/-- The stored weight; one of another width is a codec failure. -/
def storedWeight (data : DataAccess) (key : Bytes) (tx : Transaction) :
    EStateM.Result Failure Transaction (Option ℕ+) :=
  match DataAccess.getBounded data weightCodec key 8 tx with
  | .error (.itemTooLarge _ _) tx' =>
    poisonOnFailure (.error (.codec "positive weight is not eight bytes")) tx'
  | result => result

def readWeight (data : DataAccess) (key : Bytes) : TxM Nat := do
  match ← storedWeight data key with
  | none => pure 0
  | some weight => pure weight

def setEncoded (data : DataAccess) (key : Bytes) (weight : Nat) : TxM Unit :=
  if weight = 0 then DataAccess.erase data key
  else DataAccess.put data key (toBE 8 weight)

def adjustEncoded (data : DataAccess) (key : Bytes) (difference : Int) :
    TxM MultiplicityChange := do
  let before ← readWeight data key
  let after ← poisonOnFailure (checkedWeight before difference)
  if before ≠ after then setEncoded data key after
  pure ⟨before, after⟩

/-! ## Ordered maps -/

structure OrderedMapAccess (K V : Type) where
  data : DataAccess
  key : Codec K
  value : Codec V

namespace OrderedMapAccess

section Values

variable {K V : Type} (map : OrderedMapAccess K V)

def getBounded (k : K) (maxBytes : Nat) : TxM (Option V) := do
  let encodedKey ← poisonOnError (map.key.encode k)
  DataAccess.getBounded map.data map.value encodedKey maxBytes

def get (k : K) : TxM (Option V) := map.getBounded k usizeMax

def put (k : K) (v : V) : TxM Unit := do
  let encodedKey ← poisonOnError (map.key.encode k)
  let encodedValue ← poisonOnError (map.value.encode v)
  DataAccess.put map.data encodedKey encodedValue

/-- Removes a key and reports whether it existed. -/
def remove (k : K) : TxM Bool := do
  let encodedKey ← poisonOnError (map.key.encode k)
  DataAccess.delete map.data encodedKey

def erase (k : K) : TxM Unit := do
  let encodedKey ← poisonOnError (map.key.encode k)
  DataAccess.erase map.data encodedKey

/-- One page of a key range, from after an earlier page. -/
def scan (lower upper : EncodedBound K) (direction : ScanDirection) (resumeAfter : Option K)
    (limit : ScanLimit) : TxM (OrderedMapPage K V) := do
  let lower ← poisonOnError (encodeBound map.key lower)
  let upper ← poisonOnError (encodeBound map.key upper)
  let resume ← poisonOnError (encodeResume map.key resumeAfter)
  DataAccess.scanKeySuffix map.data map.key map.value lower upper direction resume limit []

end Values

section Weights

variable {K : Type} (map : OrderedMapAccess K ℕ+)

def multiplicity (k : K) : TxM Nat := do
  let encodedKey ← poisonOnError (map.key.encode k)
  readWeight map.data encodedKey

def adjust (k : K) (difference : Int) : TxM MultiplicityChange := do
  let encodedKey ← poisonOnError (map.key.encode k)
  adjustEncoded map.data encodedKey difference

def setMultiplicity (k : K) (weight : Nat) : TxM Unit := do
  let encodedKey ← poisonOnError (map.key.encode k)
  setEncoded map.data encodedKey weight

end Weights

end OrderedMapAccess

/-! ## Partitions -/

/-- The framed partition key. -/
def partitionPrefix {P : Type} (partition : Codec P) (p : P) : Except String Bytes :=
  (partition.encode p).map frame

/-- The framed part of a partition key and what follows its terminator. -/
def splitFrame : Bytes → Except String (Bytes × Bytes)
  | [] => .error "partition key has no terminator"
  | [0] => .error "invalid partition key framing"
  | 0 :: 0 :: rest => .ok ([], rest)
  | 0 :: 255 :: rest => (splitFrame rest).map fun parts => (0 :: parts.1, parts.2)
  | 0 :: _ :: _ => .error "invalid partition key framing"
  | byte :: rest => (splitFrame rest).map fun parts => (byte :: parts.1, parts.2)

/-- The framed partition, then the local key. -/
def partitionKeyCodec {P K : Type} (partition : Codec P) (key : Codec K) : Codec (P × K) where
  encode k := do
    let encoded ← partitionPrefix partition k.1
    let suffix ← key.encode k.2
    pure (encoded ++ suffix)
  decode bytes := do
    let (encodedPartition, suffix) ← splitFrame bytes
    let p ← partition.decode encodedPartition
    let k ← key.decode suffix
    pure (p, k)

/-- One partition of an ordered map: the bytes its keys begin with. -/
structure MapPartition (K V : Type) where
  data : DataAccess
  start : Bytes
  key : Codec K
  value : Codec V

/-- The partition of an ordered map at a key. -/
def OrderedMapAccess.partition {P K V : Type} (map : OrderedMapAccess (P × K) V)
    (partition : Codec P) (key : Codec K) (p : P) : TxM (MapPartition K V) := do
  let start ← poisonOnError (partitionPrefix partition p)
  pure ⟨map.data, start, key, map.value⟩

/-- Hard bounds of one scan, checked. -/
def ScanLimit.new (maxItems maxBytes : Nat) : Except Failure ScanLimit :=
  if h : 0 < maxItems ∧ 0 < maxBytes then .ok ⟨maxItems, maxBytes, h.1, h.2⟩
  else .error .invalidScanLimit

/-- The bytes with the last one increased. -/
def incrementLast (bytes : Bytes) : Bytes :=
  match bytes.reverse with
  | [] => []
  | last :: rest => rest.reverse ++ [last + 1]

theorem incrementLast_concat (s : Bytes) (b : UInt8) : incrementLast (s ++ [b]) = s ++ [b + 1] := by
  simp [incrementLast]

namespace MapPartition

section Values

variable {K V : Type} (part : MapPartition K V)

def encodeKey (k : K) : TxM Bytes := do
  let key ← poisonOnError (part.key.encode k)
  pure (part.start ++ key)

def isEmpty : TxM Bool := DataAccess.partitionIsEmpty part.data part.start none

def hasOtherKey (k : K) : TxM Bool := do
  let key ← poisonOnError (part.key.encode k)
  let empty ← DataAccess.partitionIsEmpty part.data part.start (some key)
  pure (!empty)

def getBounded (k : K) (maxBytes : Nat) : TxM (Option V) := do
  let key ← part.encodeKey k
  DataAccess.getBounded part.data part.value key maxBytes

def get (k : K) : TxM (Option V) := part.getBounded k usizeMax

def put (k : K) (v : V) : TxM Unit := do
  let key ← part.encodeKey k
  let value ← poisonOnError (part.value.encode v)
  DataAccess.put part.data key value

def erase (k : K) : TxM Unit := do
  let key ← part.encodeKey k
  DataAccess.erase part.data key

def encodeResumeKey (resumeAfter : Option K) : TxM (Option Bytes) :=
  match resumeAfter with
  | none => pure none
  | some k => do
    let key ← part.encodeKey k
    pure (some key)

/-- One page of the partition, from after an earlier page. -/
def scan (direction : ScanDirection) (resumeAfter : Option K) (limit : ScanLimit) :
    TxM (OrderedMapPage K V) := do
  let resume ← part.encodeResumeKey resumeAfter
  DataAccess.scanKeySuffix part.data part.key part.value (some (part.start, true))
    (some (incrementLast part.start, false)) direction resume limit part.start

/-- The entry at one end, when its encoding fits. A zero bound is rejected before the
transaction is asked. -/
def endBounded (direction : ScanDirection) (maxBytes : Nat) : TxM (Option (K × V)) :=
  match ScanLimit.new 1 maxBytes with
  | .error e => throw e
  | .ok limit => do
    let page ← part.scan direction none limit
    pure page.entries.getLast?

def firstBounded (maxBytes : Nat) : TxM (Option (K × V)) := part.endBounded .ascending maxBytes

def lastBounded (maxBytes : Nat) : TxM (Option (K × V)) := part.endBounded .descending maxBytes

end Values

section Weights

variable {K : Type} (part : MapPartition K ℕ+)

def multiplicity (k : K) : TxM Nat := do
  let key ← part.encodeKey k
  readWeight part.data key

def adjust (k : K) (difference : Int) : TxM MultiplicityChange := do
  let key ← part.encodeKey k
  adjustEncoded part.data key difference

def setMultiplicity (k : K) (weight : Nat) : TxM Unit := do
  let key ← part.encodeKey k
  setEncoded part.data key weight

end Weights

end MapPartition

end Dogpaddle.Store
