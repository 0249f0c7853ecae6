import Dogpaddle.Lib.Base64

/-!
# JSON values

What the JSON parser hands over, and the accessors that conversion reads it with. A number
is unsigned, negative, or a double, as the parser tells them apart; an object is the list of
its members.
-/

namespace Dogpaddle.Cdc

open Lib

inductive Number
  | posInt (n : UInt64)
  | negInt (n : Int64)
  | float (x : Float)

inductive Value
  | null
  | bool (value : Bool)
  | number (n : Number)
  | string (value : String)
  | array (items : List Value)
  | object (members : List (String × Value))

/-- The members of an object. -/
abbrev Row := List (String × Value)

namespace Row

def get (row : Row) (name : String) : Option Value := row.lookup name

/-- The row without a member. -/
def remove (row : Row) (name : String) : Row := row.filter (·.1 ≠ name)

@[simp] theorem get_remove_self (row : Row) (name : String) :
    (row.remove name).get name = none := by
  rw [get, List.lookup_eq_none_iff]
  intro member hmember
  have hne : member.1 ≠ name := of_decide_eq_true (List.mem_filter.mp hmember).2
  exact bne_iff_ne.mpr hne.symm

@[simp] theorem get_remove_of_ne (row : Row) {name other : String} (h : other ≠ name) :
    (row.remove name).get other = row.get other := by
  unfold get remove
  induction row with
  | nil => rfl
  | cons member row ih =>
    by_cases hname : member.1 = name
    · have hother : (other == member.1) = false := by simp [hname, h]
      rw [List.filter_cons_of_neg (by simp [hname]), ih, List.lookup_cons, hother]
    · rw [List.filter_cons_of_pos (by simp [hname]), List.lookup_cons, List.lookup_cons, ih]

end Row

namespace Value

def isNull : Value → Bool
  | .null => true
  | _ => false

def asBool : Value → Option Bool
  | .bool value => some value
  | _ => none

def asI64 : Value → Option Int
  | .number (.posInt n) => if n.toNat < 2 ^ 63 then some n.toNat else none
  | .number (.negInt n) => some n.toInt
  | _ => none

def asF64 : Value → Option Float
  | .number (.posInt n) => some n.toFloat
  | .number (.negInt n) => some n.toFloat
  | .number (.float x) => some x
  | _ => none

def asStr : Value → Option String
  | .string value => some value
  | _ => none

def asArray : Value → Option (List Value)
  | .array items => some items
  | _ => none

def asObject : Value → Option Row
  | .object members => some members
  | _ => none

/-- The member of a value that is an object. -/
def get (value : Value) (name : String) : Option Value := value.asObject.bind (·.get name)

@[simp] theorem isNull_iff {value : Value} : value.isNull ↔ value = .null := by
  cases value <;> simp [isNull]

theorem asStr_eq_some_iff {value : Value} {s : String} :
    value.asStr = some s ↔ value = .string s := by
  cases value <;> simp [asStr]

end Value

/-! ## The Base64 engine -/

/-- The engine of the standard alphabet, as three entry points of its library. -/
structure Engine where
  /-- The bytes of a string. -/
  decode : String → Option Bytes
  /-- The bytes of a string, into a buffer of some size. -/
  decodeSlice : String → Nat → Option Bytes
  /-- Whether a reader gets to the end of a string. -/
  read : String → Bool

namespace Engine

/-- The size a buffer must have for a string of some length. -/
def decodedLenEstimate (length : Nat) : Nat := (length + 3) / 4 * 3

/-- What the library documents: strings are decoded when they are canonical, and into a
buffer when it has the estimated size. -/
structure Standard (engine : Engine) : Prop where
  decode_iff : ∀ s bytes, engine.decode s = some bytes ↔ s = String.ofList (Base64.encode bytes)
  decodeSlice_eq : ∀ s size, decodedLenEstimate s.utf8ByteSize ≤ size →
    engine.decodeSlice s size = engine.decode s

/-- An engine that decodes as the standard says. -/
def standard : Engine where
  decode s := Base64.decode s.toList
  decodeSlice s size :=
    if decodedLenEstimate s.utf8ByteSize ≤ size then Base64.decode s.toList else none
  read s := (Base64.decode s.toList).isSome

theorem standard_standard : standard.Standard where
  decode_iff s bytes := by
    show Base64.decode s.toList = some bytes ↔ _
    rw [Base64.decode_eq_some_iff]
    constructor
    · intro h
      rw [h, String.ofList_toList]
    · rintro rfl
      exact String.toList_ofList.symm
  decodeSlice_eq s size h := if_pos h

end Engine

end Dogpaddle.Cdc
