import Dogpaddle.Relation.Row
import Mathlib.Data.Nat.Init

/-!
# Ordered scalar keys

`orderKey` encodes a scalar so that byte order is its logical ascending order
(`orderKey_lt`): integers are big-endian with the sign bit flipped, strings and
binaries are their bytes. A `NULL` has no key.

How a column value becomes a scalar is a parameter: `ScalarView` reads the values
of a row format as scalars and keeps `NULL` apart.
-/

namespace Dogpaddle.Relation

open Lib

inductive TimeUnit
  | second
  | millisecond
  | microsecond
  | nanosecond
deriving DecidableEq, Repr

/-- The types with an ordered key; `other` stands for all the rest. -/
inductive DataType
  | null
  | boolean
  | int8
  | int16
  | int32
  | int64
  | uint8
  | uint16
  | uint32
  | uint64
  | utf8
  | binary
  | date32
  | timestamp (unit : TimeUnit) (timezone : Option String)
  | decimal128 (precision : Nat) (scale : Int)
  | other (name : String)
deriving DecidableEq, Repr

/-- A scalar of an ordered type. -/
inductive ScalarValue
  | null (dataType : DataType)
  | boolean (value : Bool)
  | int8 (value : Int8)
  | int16 (value : Int16)
  | int32 (value : Int32)
  | int64 (value : Int64)
  | uint8 (value : UInt8)
  | uint16 (value : UInt16)
  | uint32 (value : UInt32)
  | uint64 (value : UInt64)
  | utf8 (value : String)
  | binary (value : Bytes)
  | date32 (value : Int32)
  | timestamp (unit : TimeUnit) (value : Int64) (timezone : Option String)
  | decimal128 (value : BitVec 128) (precision : Nat) (scale : Int)
deriving DecidableEq

def ScalarValue.isNull : ScalarValue → Bool
  | .null _ => true
  | _ => false

/-- The bytes of a string. -/
def utf8Bytes (value : String) : Bytes := value.toByteArray.data.toList

/-- The logical order of the scalars of one type. Strings compare by their bytes. -/
def ScalarValue.Lt : ScalarValue → ScalarValue → Prop
  | .boolean a, .boolean b => a = false ∧ b = true
  | .int8 a, .int8 b => a.toInt < b.toInt
  | .int16 a, .int16 b => a.toInt < b.toInt
  | .int32 a, .int32 b => a.toInt < b.toInt
  | .int64 a, .int64 b => a.toInt < b.toInt
  | .uint8 a, .uint8 b => a < b
  | .uint16 a, .uint16 b => a < b
  | .uint32 a, .uint32 b => a < b
  | .uint64 a, .uint64 b => a < b
  | .utf8 a, .utf8 b => utf8Bytes a < utf8Bytes b
  | .binary a, .binary b => a < b
  | .date32 a, .date32 b => a.toInt < b.toInt
  | .timestamp _ a _, .timestamp _ b _ => a.toInt < b.toInt
  | .decimal128 a _ _, .decimal128 b _ _ => a.toInt < b.toInt
  | _, _ => False

inductive OrderError
  | invalidValue
  | invalidEncoding
deriving DecidableEq, Repr

/-- The big-endian bytes of a fixed-width integer. -/
def beBytes {w : Nat} (value : BitVec w) : Bytes := toBE (w / 8) value.toNat

/-- A signed integer: its sign bit is flipped. -/
def signed (bytes : Bytes) : Bytes := flipTop bytes

/-- Encodes one scalar so byte order equals its logical ascending order. -/
def orderKey (dataType : DataType) (value : ScalarValue) : Except OrderError (Option Bytes) :=
  if value.isNull then .ok none
  else match dataType, value with
    | .boolean, .boolean value => .ok (some [if value then 1 else 0])
    | .int8, .int8 value => .ok (some (signed (beBytes value.toBitVec)))
    | .int16, .int16 value => .ok (some (signed (beBytes value.toBitVec)))
    | .int32, .int32 value => .ok (some (signed (beBytes value.toBitVec)))
    | .date32, .date32 value => .ok (some (signed (beBytes value.toBitVec)))
    | .int64, .int64 value => .ok (some (signed (beBytes value.toBitVec)))
    | .uint8, .uint8 value => .ok (some [value])
    | .uint16, .uint16 value => .ok (some (beBytes value.toBitVec))
    | .uint32, .uint32 value => .ok (some (beBytes value.toBitVec))
    | .uint64, .uint64 value => .ok (some (beBytes value.toBitVec))
    | .utf8, .utf8 value => .ok (some (utf8Bytes value))
    | .binary, .binary value => .ok (some value)
    | .timestamp unit _, .timestamp unit' value _ =>
      if unit = unit' then .ok (some (signed (beBytes value.toBitVec))) else .error .invalidValue
    | .decimal128 precision scale, .decimal128 value p s =>
      if precision = p ∧ scale = s then .ok (some (signed (beBytes value)))
      else .error .invalidValue
    | _, _ => .error .invalidValue

/-- The type of a scalar. -/
def ScalarValue.dataType : ScalarValue → DataType
  | .null dataType => dataType
  | .boolean _ => .boolean
  | .int8 _ => .int8
  | .int16 _ => .int16
  | .int32 _ => .int32
  | .int64 _ => .int64
  | .uint8 _ => .uint8
  | .uint16 _ => .uint16
  | .uint32 _ => .uint32
  | .uint64 _ => .uint64
  | .utf8 _ => .utf8
  | .binary _ => .binary
  | .date32 _ => .date32
  | .timestamp unit _ timezone => .timestamp unit timezone
  | .decimal128 _ precision scale => .decimal128 precision scale

/-- The string of valid bytes. -/
def fromUtf8 (encoded : Bytes) : Option String := String.fromUTF8? ⟨encoded.toArray⟩

/-- The fixed-width integer of its big-endian bytes. -/
def fromBeBytes (w : Nat) (bytes : Bytes) : BitVec w := BitVec.ofNat w (fromBE bytes)

/-- Exactly `n` bytes. -/
def fixed (n : Nat) (encoded : Bytes) : Except OrderError Bytes :=
  if encoded.length = n then .ok encoded else .error .invalidEncoding

def unsigned (n : Nat) (encoded : Bytes) : Except OrderError Bytes :=
  (fixed n encoded).map flipTop

/-- Decodes one complete scalar component produced by `orderKey`. -/
def orderedValue (dataType : DataType) (encoded : Bytes) : Except OrderError ScalarValue :=
  match dataType with
  | .boolean =>
    if encoded = [0] then .ok (.boolean false)
    else if encoded = [1] then .ok (.boolean true)
    else .error .invalidEncoding
  | .int8 => (unsigned 1 encoded).map fun b => .int8 ⟨⟨fromBeBytes 8 b⟩⟩
  | .int16 => (unsigned 2 encoded).map fun b => .int16 ⟨⟨fromBeBytes 16 b⟩⟩
  | .int32 => (unsigned 4 encoded).map fun b => .int32 ⟨⟨fromBeBytes 32 b⟩⟩
  | .int64 => (unsigned 8 encoded).map fun b => .int64 ⟨⟨fromBeBytes 64 b⟩⟩
  | .uint8 => (fixed 1 encoded).map fun b => .uint8 ⟨fromBeBytes 8 b⟩
  | .uint16 => (fixed 2 encoded).map fun b => .uint16 ⟨fromBeBytes 16 b⟩
  | .uint32 => (fixed 4 encoded).map fun b => .uint32 ⟨fromBeBytes 32 b⟩
  | .uint64 => (fixed 8 encoded).map fun b => .uint64 ⟨fromBeBytes 64 b⟩
  | .utf8 =>
    match fromUtf8 encoded with
    | some value => .ok (.utf8 value)
    | none => .error .invalidEncoding
  | .binary => .ok (.binary encoded)
  | .date32 => (unsigned 4 encoded).map fun b => .date32 ⟨⟨fromBeBytes 32 b⟩⟩
  | .timestamp unit timezone =>
    (unsigned 8 encoded).map fun b => .timestamp unit ⟨⟨fromBeBytes 64 b⟩⟩ timezone
  | .decimal128 precision scale =>
    (unsigned 16 encoded).map fun b => .decimal128 (fromBeBytes 128 b) precision scale
  | .null | .other _ => .error .invalidValue

/-! ## Byte order is value order -/

theorem pow_bytes (k : Nat) : 256 ^ (k + 1) = 2 ^ (8 * (k + 1)) := by
  rw [pow_mul]
  rfl

theorem beBytes_lt {w k : Nat} (hw : w = 8 * (k + 1)) (a b : BitVec w) :
    beBytes a < beBytes b ↔ a.toNat < b.toNat := by
  subst hw
  unfold beBytes
  rw [Nat.mul_div_cancel_left _ (by omega)]
  exact toBE_lt (by rw [pow_bytes]; exact a.isLt) (by rw [pow_bytes]; exact b.isLt)

/-- A signed integer as the unsigned number its key stands for. -/
theorem signed_beBytes {w k : Nat} (hw : w = 8 * (k + 1)) (a : BitVec w) :
    ∃ n, signed (beBytes a) = toBE (k + 1) n ∧ n < 256 ^ (k + 1) ∧
      (n : Int) = a.toInt + 128 * ((256 ^ k : Nat) : Int) := by
  subst hw
  have hlt : a.toNat < 256 ^ (k + 1) := by rw [pow_bytes]; exact a.isLt
  have hpow : 256 ^ (k + 1) = 256 * 256 ^ k := by rw [pow_succ, mul_comm]
  have htoInt := BitVec.toInt_eq_toNat_cond a
  rw [← pow_bytes] at htoInt
  refine ⟨if a.toNat < 128 * 256 ^ k then a.toNat + 128 * 256 ^ k else a.toNat - 128 * 256 ^ k,
    ?_, ?_, ?_⟩
  · unfold signed beBytes
    rw [Nat.mul_div_cancel_left _ (by omega)]
    exact flipTop_toBE hlt
  · split <;> omega
  · rw [htoInt, hpow]
    generalize 256 ^ k = half
    split <;> split <;> omega

theorem signed_lt {w k : Nat} (hw : w = 8 * (k + 1)) (a b : BitVec w) :
    signed (beBytes a) < signed (beBytes b) ↔ a.toInt < b.toInt := by
  obtain ⟨m, ha, hm, hma⟩ := signed_beBytes hw a
  obtain ⟨n, hb, hn, hnb⟩ := signed_beBytes hw b
  rw [ha, hb, toBE_lt hm hn]
  omega

/-- The key bytes of two scalars of one type compare as the scalars do. -/
theorem orderKey_lt {dataType : DataType} {a b : ScalarValue} {x y : Bytes}
    (ha : orderKey dataType a = .ok (some x)) (hb : orderKey dataType b = .ok (some y)) :
    x < y ↔ a.Lt b := by
  unfold orderKey at ha hb
  cases dataType <;> cases a <;> first
    | (exfalso; revert ha; simp [ScalarValue.isNull]; done)
    | skip
  all_goals cases b <;> first
    | (exfalso; revert hb; simp [ScalarValue.isNull]; done)
    | skip
  all_goals simp only [ScalarValue.isNull, Bool.false_eq_true, if_false, Except.ok.injEq,
    Option.some.injEq] at ha hb
  all_goals first | (subst ha hb) | skip
  case boolean.boolean.boolean a b => cases a <;> cases b <;> simp [ScalarValue.Lt] <;> decide
  case uint8.uint8.uint8 a b => simp [ScalarValue.Lt, List.cons_lt_cons_iff]
  case utf8.utf8.utf8 a b => exact Iff.rfl
  case binary.binary.binary a b => exact Iff.rfl
  case int8.int8.int8 a b => exact signed_lt (k := 0) rfl _ _
  case int16.int16.int16 a b => exact signed_lt (k := 1) rfl _ _
  case int32.int32.int32 a b => exact signed_lt (k := 3) rfl _ _
  case date32.date32.date32 a b => exact signed_lt (k := 3) rfl _ _
  case int64.int64.int64 a b => exact signed_lt (k := 7) rfl _ _
  case uint16.uint16.uint16 a b => exact beBytes_lt (k := 1) rfl _ _
  case uint32.uint32.uint32 a b => exact beBytes_lt (k := 3) rfl _ _
  case uint64.uint64.uint64 a b => exact beBytes_lt (k := 7) rfl _ _
  case timestamp.timestamp.timestamp =>
    split at ha
    · split at hb
      · obtain rfl := Option.some.inj (Except.ok.inj ha)
        obtain rfl := Option.some.inj (Except.ok.inj hb)
        exact signed_lt (k := 7) rfl _ _
      · cases hb
    · cases ha
  case decimal128.decimal128.decimal128 =>
    split at ha
    · split at hb
      · obtain rfl := Option.some.inj (Except.ok.inj ha)
        obtain rfl := Option.some.inj (Except.ok.inj hb)
        exact signed_lt (k := 15) rfl _ _
      · cases hb
    · cases ha

/-! ## A key gives its value back -/

theorem fromBeBytes_beBytes {w k : Nat} (hw : w = 8 * (k + 1)) (a : BitVec w) :
    fromBeBytes w (beBytes a) = a := by
  subst hw
  unfold fromBeBytes beBytes
  rw [Nat.mul_div_cancel_left _ (by omega), fromBE_toBE (by rw [pow_bytes]; exact a.isLt),
    BitVec.ofNat_toNat, BitVec.setWidth_eq]

theorem beBytes_fromBeBytes {w k : Nat} (hw : w = 8 * (k + 1)) {bytes : Bytes}
    (h : bytes.length = k + 1) : beBytes (fromBeBytes w bytes) = bytes := by
  subst hw
  have hlt := fromBE_lt bytes
  rw [h, pow_bytes] at hlt
  unfold fromBeBytes beBytes
  rw [Nat.mul_div_cancel_left _ (by omega), BitVec.toNat_ofNat, Nat.mod_eq_of_lt hlt,
    toBE_fromBE h]

theorem length_beBytes {w k : Nat} (hw : w = 8 * (k + 1)) (a : BitVec w) :
    (beBytes a).length = k + 1 := by
  subst hw
  rw [beBytes, length_toBE, Nat.mul_div_cancel_left _ (by omega)]

theorem fixed_eq_ok {n : Nat} {x y : Bytes} : fixed n x = .ok y ↔ x.length = n ∧ y = x := by
  unfold fixed
  split <;> simp_all [eq_comm]

theorem unsigned_eq_ok {n : Nat} {x y : Bytes} :
    unsigned n x = .ok y ↔ x.length = n ∧ y = flipTop x := by
  unfold unsigned fixed
  split
  · next h => simp [Except.map, h, eq_comm]
  · next h => simp [Except.map, h]

/-- A signed component is exactly what `signed` produces. -/
theorem unsigned_iff {w k : Nat} (hw : w = 8 * (k + 1)) {x : Bytes} {a : BitVec w} :
    (∃ y, unsigned (k + 1) x = .ok y ∧ fromBeBytes w y = a) ↔ signed (beBytes a) = x := by
  constructor
  · rintro ⟨y, hy, rfl⟩
    obtain ⟨hlength, rfl⟩ := unsigned_eq_ok.mp hy
    rw [beBytes_fromBeBytes hw (by rw [length_flipTop, hlength])]
    exact flipTop_flipTop x
  · rintro rfl
    refine ⟨beBytes a, unsigned_eq_ok.mpr ⟨?_, (flipTop_flipTop _).symm⟩,
      fromBeBytes_beBytes hw a⟩
    rw [signed, length_flipTop, length_beBytes hw]

theorem fixed_iff {w k : Nat} (hw : w = 8 * (k + 1)) {x : Bytes} {a : BitVec w} :
    (∃ y, fixed (k + 1) x = .ok y ∧ fromBeBytes w y = a) ↔ beBytes a = x := by
  constructor
  · rintro ⟨y, hy, rfl⟩
    obtain ⟨hlength, rfl⟩ := fixed_eq_ok.mp hy
    exact beBytes_fromBeBytes hw hlength
  · rintro rfl
    exact ⟨beBytes a, fixed_eq_ok.mpr ⟨length_beBytes hw a, rfl⟩, fromBeBytes_beBytes hw a⟩

theorem fromUtf8_eq_some {x : Bytes} {value : String} :
    fromUtf8 x = some value ↔ utf8Bytes value = x := by
  unfold fromUtf8 String.fromUTF8? utf8Bytes
  constructor
  · intro h
    split at h
    · obtain rfl := Option.some.inj h
      rfl
    · cases h
  · rintro rfl
    have hvalid : (⟨value.toByteArray.data.toList.toArray⟩ : ByteArray).IsValidUTF8 :=
      value.isValidUTF8
    rw [dif_pos hvalid]
    rfl

/-- A type whose values are all built by one constructor has their components and no others. -/
theorem encodes_iff {α : Type} {dataType : DataType} (make : α → ScalarValue) (code : α → Bytes)
    (hcode : ∀ a, orderKey dataType (make a) = .ok (some (code a)))
    (htype : ∀ a, (make a).dataType = dataType)
    (hall : ∀ v : ScalarValue, v.dataType = dataType → v.isNull = false → ∃ a, make a = v)
    {value : ScalarValue} {x : Bytes} :
    value.dataType = dataType ∧ orderKey dataType value = .ok (some x) ↔
      ∃ a, code a = x ∧ make a = value := by
  constructor
  · rintro ⟨hvalue, hkey⟩
    have hnull : value.isNull = false := by
      cases hnull : value.isNull with
      | false => rfl
      | true =>
        unfold orderKey at hkey
        rw [if_pos hnull] at hkey
        cases hkey
    obtain ⟨a, rfl⟩ := hall value hvalue hnull
    rw [hcode] at hkey
    exact ⟨a, Option.some.inj (Except.ok.inj hkey), rfl⟩
  · rintro ⟨a, rfl, rfl⟩
    exact ⟨htype a, hcode a⟩

theorem signed_encodes_iff {w k : Nat} (hw : w = 8 * (k + 1)) {dataType : DataType}
    (make : BitVec w → ScalarValue)
    (hcode : ∀ a, orderKey dataType (make a) = .ok (some (signed (beBytes a))))
    (htype : ∀ a, (make a).dataType = dataType)
    (hall : ∀ v : ScalarValue, v.dataType = dataType → v.isNull = false → ∃ a, make a = v)
    {value : ScalarValue} {x : Bytes} :
    value.dataType = dataType ∧ orderKey dataType value = .ok (some x) ↔
      (unsigned (k + 1) x).map (fun y => make (fromBeBytes w y)) = .ok value := by
  rw [encodes_iff make _ hcode htype hall, map_eq_ok]
  constructor
  · rintro ⟨a, hx, rfl⟩
    obtain ⟨y, hy, rfl⟩ := (unsigned_iff hw).mpr hx
    exact ⟨y, hy, rfl⟩
  · rintro ⟨y, hy, rfl⟩
    exact ⟨_, (unsigned_iff hw).mp ⟨y, hy, rfl⟩, rfl⟩

theorem fixed_encodes_iff {w k : Nat} (hw : w = 8 * (k + 1)) {dataType : DataType}
    (make : BitVec w → ScalarValue)
    (hcode : ∀ a, orderKey dataType (make a) = .ok (some (beBytes a)))
    (htype : ∀ a, (make a).dataType = dataType)
    (hall : ∀ v : ScalarValue, v.dataType = dataType → v.isNull = false → ∃ a, make a = v)
    {value : ScalarValue} {x : Bytes} :
    value.dataType = dataType ∧ orderKey dataType value = .ok (some x) ↔
      (fixed (k + 1) x).map (fun y => make (fromBeBytes w y)) = .ok value := by
  rw [encodes_iff make _ hcode htype hall, map_eq_ok]
  constructor
  · rintro ⟨a, hx, rfl⟩
    obtain ⟨y, hy, rfl⟩ := (fixed_iff hw).mpr hx
    exact ⟨y, hy, rfl⟩
  · rintro ⟨y, hy, rfl⟩
    exact ⟨_, (fixed_iff hw).mp ⟨y, hy, rfl⟩, rfl⟩

theorem beBytes_byte (a : BitVec 8) : beBytes a = [⟨a⟩] := by
  show [UInt8.ofNat a.toNat] = _
  congr 1
  apply UInt8.toNat_inj.mp
  rw [UInt8.toNat_ofNat', Nat.mod_eq_of_lt a.isLt]
  rfl

/-- The component of a value and the value of a component are the same relation. -/
theorem orderKey_iff_orderedValue {dataType : DataType} {value : ScalarValue} {x : Bytes} :
    value.dataType = dataType ∧ orderKey dataType value = .ok (some x) ↔
      orderedValue dataType x = .ok value := by
  -- One constructor of scalars for each type: read its values back one type at a time.
  cases dataType with
  | null =>
    constructor
    · rintro ⟨hvalue, hkey⟩
      cases value <;> simp [ScalarValue.dataType, orderKey, ScalarValue.isNull] at hvalue hkey
    · intro h
      cases h
  | other name =>
    constructor
    · rintro ⟨hvalue, hkey⟩
      cases value <;> simp [ScalarValue.dataType, orderKey, ScalarValue.isNull] at hvalue hkey
    · intro h
      cases h
  | boolean =>
    rw [encodes_iff .boolean (fun a => [if a then 1 else 0]) (fun _ => rfl) (fun _ => rfl) (by
      intro v hv hnull
      cases v <;> cases hv <;> first | exact ⟨_, rfl⟩ | cases hnull)]
    show _ ↔ (if x = [0] then Except.ok (ScalarValue.boolean false)
      else if x = [1] then Except.ok (.boolean true)
      else Except.error OrderError.invalidEncoding) = _
    constructor
    · rintro ⟨a, rfl, rfl⟩
      cases a <;> rfl
    · intro h
      split at h
      · next hx =>
        cases h
        exact ⟨false, hx.symm, rfl⟩
      · split at h
        · next hx =>
          cases h
          exact ⟨true, hx.symm, rfl⟩
        · cases h
  | int8 =>
    refine signed_encodes_iff (k := 0) rfl (fun a => .int8 ⟨⟨a⟩⟩) (fun _ => rfl) (fun _ => rfl) ?_
    intro v hv hnull
    cases v <;> cases hv <;> first | exact ⟨_, rfl⟩ | cases hnull
  | int16 =>
    refine signed_encodes_iff (k := 1) rfl (fun a => .int16 ⟨⟨a⟩⟩) (fun _ => rfl) (fun _ => rfl) ?_
    intro v hv hnull
    cases v <;> cases hv <;> first | exact ⟨_, rfl⟩ | cases hnull
  | int32 =>
    refine signed_encodes_iff (k := 3) rfl (fun a => .int32 ⟨⟨a⟩⟩) (fun _ => rfl) (fun _ => rfl) ?_
    intro v hv hnull
    cases v <;> cases hv <;> first | exact ⟨_, rfl⟩ | cases hnull
  | int64 =>
    refine signed_encodes_iff (k := 7) rfl (fun a => .int64 ⟨⟨a⟩⟩) (fun _ => rfl) (fun _ => rfl) ?_
    intro v hv hnull
    cases v <;> cases hv <;> first | exact ⟨_, rfl⟩ | cases hnull
  | date32 =>
    refine signed_encodes_iff (k := 3) rfl (fun a => .date32 ⟨⟨a⟩⟩) (fun _ => rfl) (fun _ => rfl) ?_
    intro v hv hnull
    cases v <;> cases hv <;> first | exact ⟨_, rfl⟩ | cases hnull
  | uint8 =>
    refine fixed_encodes_iff (k := 0) rfl (fun a => .uint8 ⟨a⟩)
      (fun a => by rw [beBytes_byte]; rfl) (fun _ => rfl) ?_
    intro v hv hnull
    cases v <;> cases hv <;> first | exact ⟨_, rfl⟩ | cases hnull
  | uint16 =>
    refine fixed_encodes_iff (k := 1) rfl (fun a => .uint16 ⟨a⟩) (fun _ => rfl) (fun _ => rfl) ?_
    intro v hv hnull
    cases v <;> cases hv <;> first | exact ⟨_, rfl⟩ | cases hnull
  | uint32 =>
    refine fixed_encodes_iff (k := 3) rfl (fun a => .uint32 ⟨a⟩) (fun _ => rfl) (fun _ => rfl) ?_
    intro v hv hnull
    cases v <;> cases hv <;> first | exact ⟨_, rfl⟩ | cases hnull
  | uint64 =>
    refine fixed_encodes_iff (k := 7) rfl (fun a => .uint64 ⟨a⟩) (fun _ => rfl) (fun _ => rfl) ?_
    intro v hv hnull
    cases v <;> cases hv <;> first | exact ⟨_, rfl⟩ | cases hnull
  | utf8 =>
    rw [encodes_iff .utf8 utf8Bytes (fun _ => rfl) (fun _ => rfl) (by
      intro v hv hnull
      cases v <;> cases hv <;> first | exact ⟨_, rfl⟩ | cases hnull)]
    unfold orderedValue
    constructor
    · rintro ⟨a, hx, rfl⟩
      rw [fromUtf8_eq_some.mpr hx]
    · intro h
      cases hread : fromUtf8 x with
      | none =>
        rw [hread] at h
        cases h
      | some a =>
        rw [hread] at h
        exact ⟨a, fromUtf8_eq_some.mp hread, Except.ok.inj h⟩
  | binary =>
    rw [encodes_iff .binary (fun a => a) (fun _ => rfl) (fun _ => rfl) (by
      intro v hv hnull
      cases v <;> cases hv <;> first | exact ⟨_, rfl⟩ | cases hnull)]
    constructor
    · rintro ⟨a, rfl, rfl⟩
      rfl
    · intro h
      exact ⟨x, rfl, Except.ok.inj h⟩
  | timestamp unit timezone =>
    refine signed_encodes_iff (k := 7) rfl (fun a => .timestamp unit ⟨⟨a⟩⟩ timezone)
      (fun a => by simp [orderKey, ScalarValue.isNull]; rfl) (fun _ => rfl) ?_
    intro v hv hnull
    cases v <;> cases hv <;> first | exact ⟨_, rfl⟩ | cases hnull
  | decimal128 precision scale =>
    refine signed_encodes_iff (k := 15) rfl (fun a => .decimal128 a precision scale)
      (fun a => by simp [orderKey, ScalarValue.isNull]) (fun _ => rfl) ?_
    intro v hv hnull
    cases v <;> cases hv <;> first | exact ⟨_, rfl⟩ | cases hnull

/-- Exactly `NULL` has no key. -/
theorem isNull_of_orderKey {dataType : DataType} {a : ScalarValue} {key : Option Bytes}
    (h : orderKey dataType a = .ok key) : a.isNull = true ↔ key = none := by
  unfold orderKey at h
  split at h
  · next hnull =>
    cases h
    simp [hnull]
  · next hnull =>
    have hsome : ∃ x, key = some x := by
      split at h
      all_goals first
        | exact ⟨_, (Except.ok.inj h).symm⟩
        | (split at h; exact ⟨_, (Except.ok.inj h).symm⟩; cases h)
        | cases h
    obtain ⟨x, rfl⟩ := hsome
    simp [hnull]

/-- How the values of a row format are read as scalars. -/
structure ScalarView {Ty Value : Type} (fmt : RowFormat Ty Value) where
  dataType : Ty → DataType
  scalar : Ty → Value → Except OperationError ScalarValue
  /-- Exactly `NULL` is read as a null scalar. -/
  scalar_isNull : ∀ ty value s, scalar ty value = .ok s → (s.isNull = true ↔ value = fmt.null)

end Dogpaddle.Relation
