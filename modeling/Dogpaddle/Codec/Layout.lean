import Dogpaddle.Canonical.Arrow
import Dogpaddle.Lib.Aligned
import Dogpaddle.Lib.Attempt

/-!
# Descriptors of a record batch

A record batch is described by a list of field nodes and a list of buffers in its body. The
decoder walks the schema over both before Arrow reads a byte of the body.

* `validateLayout` is the walk, one cursor over both lists.
* `Laid` says which nodes and buffer lengths describe the arrays of a field, without a cursor:
  what the field's own node has to be, then what its children have.
* `Placed` says that buffers of given lengths stand one after the other in a body.
* `consumeFieldLayout_eq_ok`: the walk consumes exactly a described prefix of both lists.
-/

namespace Dogpaddle.Codec

open Lib Canonical

inductive CodecError
  | encodedSizeLimitExceeded (maxBytes : Nat)
  | schemaMismatch
  | invalidEncoding (message : String)
  /-- An error of the Arrow library, or of a value that the library decoded. -/
  | arrow (error : String)
deriving DecidableEq, Repr

/-- The numbers of a machine word. -/
def usize : Nat := 2 ^ 64

def checkedAdd (a b : Nat) : Option Nat := if a + b < usize then some (a + b) else none

def checkedMul (a b : Nat) : Option Nat := if a * b < usize then some (a * b) else none

theorem checkedAdd_eq_some {a b n : Nat} :
    checkedAdd a b = some n ↔ a + b = n ∧ n < usize := by
  unfold checkedAdd
  split <;> simp <;> omega

theorem checkedMul_eq_some {a b n : Nat} :
    checkedMul a b = some n ↔ a * b = n ∧ n < usize := by
  unfold checkedMul
  split <;> simp <;> omega

/-- `value.ok_or_else(..)`. -/
def okOr {α : Type} (message : String) : Option α → Except CodecError α
  | some a => .ok a
  | none => .error (.invalidEncoding message)

@[simp] theorem okOr_eq_ok {α : Type} {message : String} {value : Option α} {a : α} :
    okOr message value = .ok a ↔ value = some a := by
  cases value <;> simp [okOr]

/-- The word of a signed number. -/
def usizeTryFrom (n : Int64) : Option Nat := if n.toInt < 0 then none else some n.toInt.toNat

theorem usizeTryFrom_eq_some {n : Int64} {m : Nat} : usizeTryFrom n = some m ↔ n.toInt = m := by
  unfold usizeTryFrom
  split
  · simp only [reduceCtorEq, false_iff]
    omega
  · rw [Option.some.injEq]
    omega

/-! ## Layouts -/

/-- The buffers of an array, by its type; the children of lists and structs come behind. -/
inductive DataTypeLayout
  | null
  | bitmap
  | fixedWidth (width : Nat)
  | variableWidth
  | list
  | struct
deriving DecidableEq, Repr

def DataTypeLayout.classify : DataType → DataTypeLayout
  | .null => .null
  | .boolean => .bitmap
  | .fixed type => .fixedWidth type.width
  | .utf8 | .binary => .variableWidth
  | .list _ => .list
  | .struct _ => .struct

/-! ## The cursor -/

structure FieldNode where
  length : Int64
  nullCount : Int64
deriving DecidableEq, Repr

structure IpcBuffer where
  offset : Int64
  length : Int64
deriving DecidableEq, Repr

structure LayoutCursor where
  nodes : List FieldNode
  buffers : List IpcBuffer
  nextOffset : Nat
  bodyLen : Nat
deriving DecidableEq, Repr

def bitmapByteLen (length : Nat) : Except CodecError Nat :=
  (okOr "Arrow bitmap length overflowed" (checkedAdd length 7)).map (· / 8)

def fixedWidthByteLen (elements byteWidth : Nat) : Except CodecError Nat :=
  okOr "Arrow fixed-width buffer length overflowed" (checkedMul elements byteWidth)

/-- `(value + 7) & !7`. -/
def alignToEight (value : Nat) : Except CodecError Nat :=
  (okOr "Arrow IPC alignment overflowed" (checkedAdd value 7)).map (· / 8 * 8)

/-- The next buffer, of the expected length. -/
def LayoutCursor.buffer (cursor : LayoutCursor) (expectedLength : Option Nat) :
    Except CodecError LayoutCursor :=
  match cursor.buffers with
  | [] => .error (.invalidEncoding "RecordBatch has too few buffers")
  | buffer :: buffers => do
    let offset ← okOr "RecordBatch buffer offset is negative or oversized"
      (usizeTryFrom buffer.offset)
    let length ← okOr "RecordBatch buffer length is negative or oversized"
      (usizeTryFrom buffer.length)
    if offset ≠ cursor.nextOffset then
      .error (.invalidEncoding "RecordBatch buffer offset is not canonical")
    else do
      let stop ← okOr "RecordBatch buffer exceeds the declared body"
        ((checkedAdd offset length).filter (· ≤ cursor.bodyLen))
      if expectedLength.any (length ≠ ·) then
        .error (.invalidEncoding "RecordBatch buffer length differs from its field layout")
      else do
        let nextOffset ← alignToEight stop
        pure { cursor with buffers, nextOffset }

def LayoutCursor.finish (cursor : LayoutCursor) : Except CodecError Unit :=
  if cursor.nodes.length ≠ 0 ∨ cursor.buffers.length ≠ 0 then
    .error (.invalidEncoding "RecordBatch has unconsumed field nodes or buffers")
  else if cursor.nextOffset ≠ cursor.bodyLen then
    .error (.invalidEncoding "RecordBatch buffers do not cover the declared body")
  else .ok ()

/-- The node of a field: its length, its null count and the cursor behind it. -/
def LayoutCursor.node (cursor : LayoutCursor) (layout : DataTypeLayout) (isNullable : Bool)
    (expectedLength : Option Nat) (maskedNulls : Nat) :
    Except CodecError (Nat × Nat × LayoutCursor) :=
  match cursor.nodes with
  | [] => .error (.invalidEncoding "RecordBatch has too few field nodes")
  | node :: nodes => do
    let length ← okOr "RecordBatch field length is negative or oversized"
      (usizeTryFrom node.length)
    let nullCount ← okOr "RecordBatch field null count is negative or oversized"
      (usizeTryFrom node.nullCount)
    if length < nullCount then
      .error (.invalidEncoding "RecordBatch field has more nulls than rows")
    else if layout ≠ .null ∧ isNullable = false ∧ maskedNulls < nullCount then
      .error (.invalidEncoding "RecordBatch non-nullable field has unmasked nulls")
    else if expectedLength.any (length ≠ ·) then
      .error (.invalidEncoding "RecordBatch field length differs from its parent")
    else if layout = .null ∧ nullCount ≠ length then
      .error (.invalidEncoding "RecordBatch Null field must mark every row as null")
    else .ok (length, nullCount, { cursor with nodes })

/-- The next buffer is a bitmap. -/
def LayoutCursor.bitmap (cursor : LayoutCursor) (length : Nat) : Except CodecError LayoutCursor := do
  let bytes ← bitmapByteLen length
  cursor.buffer (some bytes)

def LayoutCursor.fixedWidth (cursor : LayoutCursor) (elements byteWidth : Nat) :
    Except CodecError LayoutCursor := do
  let bytes ← fixedWidthByteLen elements byteWidth
  cursor.buffer (some bytes)

def LayoutCursor.offsets (cursor : LayoutCursor) (length : Nat) :
    Except CodecError LayoutCursor := do
  let offsets ← okOr "Arrow offset count overflowed" (checkedAdd length 1)
  cursor.fixedWidth offsets 4

/-- The buffers of a field's own array; every array but a Null one has a validity bitmap. -/
def LayoutCursor.fieldBuffers (cursor : LayoutCursor) (layout : DataTypeLayout) (length : Nat) :
    Except CodecError LayoutCursor :=
  match layout with
  | .null => .ok cursor
  | .bitmap => do
    let cursor ← cursor.bitmap length
    cursor.bitmap length
  | .fixedWidth width => do
    let cursor ← cursor.bitmap length
    cursor.fixedWidth length width
  | .variableWidth => do
    let cursor ← cursor.bitmap length
    let cursor ← cursor.offsets length
    cursor.buffer none
  | .list => do
    let cursor ← cursor.bitmap length
    cursor.offsets length
  | .struct => cursor.bitmap length

mutual

/-- The descriptors of a field and of the fields below it. -/
def consumeFieldLayout : Field → (expectedLength : Option Nat) → (maskedNulls : Nat) →
    LayoutCursor → Except CodecError LayoutCursor
  | .mk _ dataType nullable, expectedLength, maskedNulls, cursor => do
    let (length, nullCount, cursor) ←
      cursor.node (.classify dataType) nullable expectedLength maskedNulls
    let cursor ← cursor.fieldBuffers (.classify dataType) length
    consumeNestedLayouts dataType length nullCount cursor

/-- What follows the descriptors of an array of the given type. -/
def consumeNestedLayouts : DataType → (length nullCount : Nat) → LayoutCursor →
    Except CodecError LayoutCursor
  | .list child, _, _, cursor => consumeFieldLayout child none 0 cursor
  | .struct children, length, nullCount, cursor =>
    consumeChildLayouts children (some length) nullCount cursor
  | _, _, _, cursor => pure cursor

/-- The same for fields that stand side by side. -/
def consumeChildLayouts : List Field → (expectedLength : Option Nat) → (maskedNulls : Nat) →
    LayoutCursor → Except CodecError LayoutCursor
  | [], _, _, cursor => pure cursor
  | field :: fields, expectedLength, maskedNulls, cursor => do
    let cursor ← consumeFieldLayout field expectedLength maskedNulls cursor
    consumeChildLayouts fields expectedLength maskedNulls cursor

end

/-- The message of a record batch, as far as the layout goes. -/
structure ParsedChange where
  physicalSchema : Schema
  logicalSchema : Schema
  /-- The vectors of the metadata, where it has them. -/
  nodes : Option (List FieldNode)
  buffers : Option (List IpcBuffer)
  body : Bytes
  rowCount : Nat
  /-- The length of the body is a signed field of the message. -/
  body_lt : body.length < 2 ^ 63

def validateLayout (parsed : ParsedChange) : Except CodecError Unit := do
  let nodes ← okOr "RecordBatch metadata has no field nodes" parsed.nodes
  let buffers ← okOr "RecordBatch metadata has no buffers" parsed.buffers
  let cursor ← consumeChildLayouts parsed.physicalSchema (some parsed.rowCount) 0
    ⟨nodes, buffers, 0, parsed.body.length⟩
  cursor.finish

/-! ## What describes a field -/

/-- The end of a chunk, in the unit of the format. -/
abbrev alignment : Nat := 8

/-- The lengths of the buffers of an array, where `dataLength` bytes of strings are stored. -/
def DataTypeLayout.lengths : DataTypeLayout → (length dataLength : Nat) → List Nat
  | .null, _, _ => []
  | .bitmap, length, _ => [(length + 7) / 8, (length + 7) / 8]
  | .fixedWidth width, length, _ => [(length + 7) / 8, length * width]
  | .variableWidth, length, dataLength => [(length + 7) / 8, (length + 1) * 4, dataLength]
  | .list, length, _ => [(length + 7) / 8, (length + 1) * 4]
  | .struct, length, _ => [(length + 7) / 8]

/-- The node of a field of the given type, below a parent that hides `maskedNulls` of it. -/
structure NodeOf (dataType : DataType) (nullable : Bool) (expectedLength : Option Nat)
    (maskedNulls : Nat) (length nullCount : Nat) : Prop where
  nullCount_le : nullCount ≤ length
  length_eq : ∀ n, expectedLength = some n → length = n
  null : dataType = .null → nullCount = length
  masked : dataType ≠ .null → nullable = false → nullCount ≤ maskedNulls

mutual

/-- Nodes and buffer lengths describe an array of a field. -/
def Laid : Field → (expectedLength : Option Nat) → (maskedNulls : Nat) →
    List FieldNode → List Nat → Prop
  | .mk _ dataType nullable, expectedLength, maskedNulls, nodes, lengths =>
    ∃ (node : FieldNode) (nodes' : List FieldNode) (length nullCount dataLength : Nat)
      (lengths' : List Nat),
      nodes = node :: nodes' ∧ node.length.toInt = length ∧ node.nullCount.toInt = nullCount ∧
      NodeOf dataType nullable expectedLength maskedNulls length nullCount ∧
      lengths = (DataTypeLayout.classify dataType).lengths length dataLength ++ lengths' ∧
      LaidBelow dataType length nullCount nodes' lengths'

/-- What describes the arrays below an array of the given type. -/
def LaidBelow : DataType → (length nullCount : Nat) → List FieldNode → List Nat → Prop
  | .list child, _, _, nodes, lengths => Laid child none 0 nodes lengths
  | .struct children, length, nullCount, nodes, lengths =>
    LaidAll children (some length) nullCount nodes lengths
  | _, _, _, nodes, lengths => nodes = [] ∧ lengths = []

/-- The same for fields that stand side by side. -/
def LaidAll : List Field → (expectedLength : Option Nat) → (maskedNulls : Nat) →
    List FieldNode → List Nat → Prop
  | [], _, _, nodes, lengths => nodes = [] ∧ lengths = []
  | field :: fields, expectedLength, maskedNulls, nodes, lengths =>
    ∃ nodes₁ nodes₂ lengths₁ lengths₂, nodes = nodes₁ ++ nodes₂ ∧
      lengths = lengths₁ ++ lengths₂ ∧
      Laid field expectedLength maskedNulls nodes₁ lengths₁ ∧
      LaidAll fields expectedLength maskedNulls nodes₂ lengths₂

end

/-- Buffers of the given lengths, one after the other from `start` on. -/
def Placed (bodyLen : Nat) : (start : Nat) → List Nat → List IpcBuffer → Prop
  | _, [], [] => True
  | start, n :: lengths, buffer :: buffers =>
    buffer.offset.toInt = start ∧ buffer.length.toInt = n ∧ start + n ≤ bodyLen ∧
      Placed bodyLen (alignUp alignment (start + n)) lengths buffers
  | _, _, _ => False

theorem placed_append {bodyLen start : Nat} {l₁ l₂ : List Nat} {buffers : List IpcBuffer} :
    Placed bodyLen start (l₁ ++ l₂) buffers ↔
      ∃ b₁ b₂, buffers = b₁ ++ b₂ ∧ Placed bodyLen start l₁ b₁ ∧
        Placed bodyLen (extent alignment start l₁) l₂ b₂ := by
  induction l₁ generalizing start buffers with
  | nil =>
    constructor
    · intro h
      exact ⟨[], buffers, rfl, trivial, h⟩
    · rintro ⟨b₁, b₂, rfl, h₁, h₂⟩
      cases b₁ with
      | nil => exact h₂
      | cons b b₁ => cases h₁
  | cons n l₁ ih =>
    constructor
    · intro h
      cases buffers with
      | nil => cases h
      | cons b buffers =>
        obtain ⟨hoffset, hlength, hle, h⟩ := h
        obtain ⟨b₁, b₂, rfl, h₁, h₂⟩ := ih.mp h
        exact ⟨b :: b₁, b₂, rfl, ⟨hoffset, hlength, hle, h₁⟩, h₂⟩
    · rintro ⟨b₁, b₂, rfl, h₁, h₂⟩
      cases b₁ with
      | nil => cases h₁
      | cons b b₁ =>
        obtain ⟨hoffset, hlength, hle, h₁⟩ := h₁
        exact ⟨hoffset, hlength, hle, ih.mpr ⟨b₁, b₂, rfl, h₁, h₂⟩⟩

/-- What a cursor has gone over: nodes, and buffers of the given lengths. -/
structure Consumes (cursor : LayoutCursor) (nodes : List FieldNode) (lengths : List Nat)
    (cursor' : LayoutCursor) : Prop where
  nodes : cursor.nodes = nodes ++ cursor'.nodes
  buffers : ∃ buffers, cursor.buffers = buffers ++ cursor'.buffers ∧
    Placed cursor.bodyLen cursor.nextOffset lengths buffers
  nextOffset : cursor'.nextOffset = extent alignment cursor.nextOffset lengths
  bodyLen : cursor'.bodyLen = cursor.bodyLen

namespace Consumes

variable {c c' c'' : LayoutCursor} {n₁ n₂ : List FieldNode} {l₁ l₂ : List Nat}

theorem refl (c : LayoutCursor) : Consumes c [] [] c where
  nodes := rfl
  buffers := ⟨[], rfl, trivial⟩
  nextOffset := rfl
  bodyLen := rfl

theorem eq_of_nil (h : Consumes c [] [] c') : c' = c := by
  obtain ⟨hnodes, ⟨buffers, hbuffers, hplaced⟩, hoffset, hbody⟩ := h
  cases buffers with
  | nil =>
    obtain ⟨nodes, buffers, nextOffset, bodyLen⟩ := c
    obtain ⟨nodes', buffers', nextOffset', bodyLen'⟩ := c'
    simp only [List.nil_append] at hnodes hbuffers hoffset hbody
    subst hnodes hbuffers hoffset hbody
    rfl
  | cons b buffers => cases hplaced

theorem append (h₁ : Consumes c n₁ l₁ c') (h₂ : Consumes c' n₂ l₂ c'') :
    Consumes c (n₁ ++ n₂) (l₁ ++ l₂) c'' where
  nodes := by rw [h₁.nodes, h₂.nodes, List.append_assoc]
  buffers := by
    obtain ⟨b₁, hb₁, hp₁⟩ := h₁.buffers
    obtain ⟨b₂, hb₂, hp₂⟩ := h₂.buffers
    refine ⟨b₁ ++ b₂, by rw [hb₁, hb₂, List.append_assoc], ?_⟩
    rw [h₁.nextOffset, h₁.bodyLen] at hp₂
    exact placed_append.mpr ⟨b₁, b₂, rfl, hp₁, hp₂⟩
  nextOffset := by rw [h₂.nextOffset, h₁.nextOffset, extent_append]
  bodyLen := by rw [h₂.bodyLen, h₁.bodyLen]

/-- A cursor can stop between two parts. -/
theorem split (h : Consumes c (n₁ ++ n₂) (l₁ ++ l₂) c'') :
    ∃ c', Consumes c n₁ l₁ c' ∧ Consumes c' n₂ l₂ c'' := by
  obtain ⟨buffers, hbuffers, hplaced⟩ := h.buffers
  obtain ⟨b₁, b₂, rfl, hp₁, hp₂⟩ := placed_append.mp hplaced
  refine ⟨⟨n₂ ++ c''.nodes, b₂ ++ c''.buffers, extent alignment c.nextOffset l₁, c.bodyLen⟩,
    ⟨?_, ⟨b₁, ?_, hp₁⟩, rfl, rfl⟩, rfl, ⟨b₂, rfl, hp₂⟩, ?_, h.bodyLen⟩
  · rw [h.nodes, List.append_assoc]
  · rw [hbuffers, List.append_assoc]
  · rw [h.nextOffset, extent_append]

end Consumes

/-! ## The walk consumes what describes the schema -/

variable {c c' : LayoutCursor}

theorem alignToEight_eq_ok {value n : Nat} :
    alignToEight value = .ok n ↔ alignUp alignment value = n ∧ value + 7 < usize := by
  unfold alignToEight alignUp
  rw [map_eq_ok]
  constructor
  · rintro ⟨sum, hsum, rfl⟩
    obtain ⟨rfl, hlt⟩ := checkedAdd_eq_some.mp (okOr_eq_ok.mp hsum)
    exact ⟨rfl, hlt⟩
  · rintro ⟨rfl, hlt⟩
    exact ⟨value + 7, okOr_eq_ok.mpr (checkedAdd_eq_some.mpr ⟨rfl, hlt⟩), rfl⟩

/-- A buffer is the next one of the body. -/
theorem buffer_eq_ok {expectedLength : Option Nat} (hbody : c.bodyLen < 2 ^ 63) :
    c.buffer expectedLength = .ok c' ↔
      ∃ n, (∀ m, expectedLength = some m → n = m) ∧ Consumes c [] [n] c' := by
  obtain ⟨nodes, buffers, nextOffset, bodyLen⟩ := c
  unfold LayoutCursor.buffer
  dsimp only at hbody ⊢
  have husize : usize = 2 ^ 64 := rfl
  constructor
  · intro h
    cases buffers with
    | nil => cases h
    | cons b buffers =>
      obtain ⟨offset, hoffset, h₁⟩ := except_bind_eq_ok.mp h
      obtain ⟨length, hlength, h₂⟩ := except_bind_eq_ok.mp h₁
      obtain ⟨hnext, h₃⟩ := except_ite_eq_ok.mp h₂
      obtain ⟨stop, hstop, h₄⟩ := except_bind_eq_ok.mp h₃
      obtain ⟨hexpected, h₅⟩ := except_ite_eq_ok.mp h₄
      obtain ⟨next, halign, h₆⟩ := except_bind_eq_ok.mp h₅
      have hoffset' := usizeTryFrom_eq_some.mp (okOr_eq_ok.mp hoffset)
      have hlength' := usizeTryFrom_eq_some.mp (okOr_eq_ok.mp hlength)
      obtain ⟨hsum, hle⟩ := Option.filter_eq_some_iff.mp (okOr_eq_ok.mp hstop)
      obtain ⟨rfl, -⟩ := checkedAdd_eq_some.mp hsum
      obtain ⟨rfl, -⟩ := alignToEight_eq_ok.mp halign
      obtain rfl : offset = nextOffset := by simpa using hnext
      cases h₆
      refine ⟨length, ?_, rfl, ⟨[b], rfl, hoffset', hlength', of_decide_eq_true hle, trivial⟩,
        rfl, rfl⟩
      intro m hm
      subst hm
      simpa using hexpected
  · rintro ⟨n, hexpected, hnodes, ⟨bs, hbuffers, hplaced⟩, hoffset, hlen⟩
    dsimp only at hnodes hbuffers hplaced hoffset hlen
    cases bs with
    | nil => cases hplaced
    | cons b bs =>
      cases bs with
      | cons b' bs => cases hplaced.2.2.2
      | nil =>
        obtain ⟨hb, hn, hle, -⟩ := hplaced
        subst hbuffers
        have hany : expectedLength.any (n ≠ ·) = false := by
          cases expectedLength with
          | none => rfl
          | some m => simp [hexpected m rfl]
        have hsum : checkedAdd nextOffset n = some (nextOffset + n) :=
          checkedAdd_eq_some.mpr ⟨rfl, by omega⟩
        have halign : alignToEight (nextOffset + n) = .ok (alignUp alignment (nextOffset + n)) :=
          alignToEight_eq_ok.mpr ⟨rfl, by omega⟩
        have hfilter : (some (nextOffset + n)).filter (fun stop => decide (stop ≤ bodyLen)) =
            some (nextOffset + n) := Option.filter_eq_some_iff.mpr ⟨rfl, decide_eq_true hle⟩
        dsimp only [List.cons_append, List.nil_append]
        rw [usizeTryFrom_eq_some.mpr hb, usizeTryFrom_eq_some.mpr hn]
        show (if nextOffset ≠ nextOffset then _ else _) = _
        rw [if_neg (by simp), hsum, hfilter]
        show (if expectedLength.any (n ≠ ·) = true then _ else _) = _
        rw [hany, if_neg (by simp), halign]
        obtain ⟨nodes', buffers', nextOffset', bodyLen'⟩ := c'
        simp only [List.nil_append] at hnodes hoffset hlen
        subst hnodes hoffset hlen
        rfl

theorem classify_eq_null {dataType : DataType} :
    DataTypeLayout.classify dataType = .null ↔ dataType = .null := by
  cases dataType <;> simp [DataTypeLayout.classify]

theorem node_eq_ok {dataType : DataType} {nullable : Bool} {expectedLength : Option Nat}
    {maskedNulls length nullCount : Nat} :
    c.node (.classify dataType) nullable expectedLength maskedNulls =
        .ok (length, nullCount, c') ↔
      ∃ node : FieldNode, node.length.toInt = length ∧ node.nullCount.toInt = nullCount ∧
        NodeOf dataType nullable expectedLength maskedNulls length nullCount ∧
        Consumes c [node] [] c' := by
  obtain ⟨nodes, buffers, nextOffset, bodyLen⟩ := c
  unfold LayoutCursor.node
  constructor
  · intro h
    cases nodes with
    | nil => cases h
    | cons node nodes =>
      obtain ⟨length, hlength, h₁⟩ := except_bind_eq_ok.mp h
      obtain ⟨nullCount, hnulls, h₂⟩ := except_bind_eq_ok.mp h₁
      obtain ⟨hle, h₃⟩ := except_ite_eq_ok.mp h₂
      obtain ⟨hmasked, h₄⟩ := except_ite_eq_ok.mp h₃
      obtain ⟨hexpected, h₅⟩ := except_ite_eq_ok.mp h₄
      obtain ⟨hnull, h₆⟩ := except_ite_eq_ok.mp h₅
      cases h₆
      refine ⟨node, usizeTryFrom_eq_some.mp (okOr_eq_ok.mp hlength),
        usizeTryFrom_eq_some.mp (okOr_eq_ok.mp hnulls), ⟨by omega, ?_, ?_, ?_⟩,
        ⟨rfl, ⟨[], rfl, trivial⟩, rfl, rfl⟩⟩
      · intro n hn
        subst hn
        simpa using hexpected
      · intro htype
        by_contra hne
        exact hnull ⟨classify_eq_null.mpr htype, hne⟩
      · intro htype hnullable
        by_contra hlt
        exact hmasked ⟨mt classify_eq_null.mp htype, hnullable, by omega⟩
  · rintro ⟨node, hlength, hnulls, ⟨hle, hexpected, hnull, hmasked⟩, hnodes, ⟨bs, hbuffers, hplaced⟩,
      hoffset, hbody⟩
    cases bs with
    | cons b bs => cases hplaced
    | nil =>
      dsimp only at hnodes hbuffers hoffset hbody
      subst hnodes
      have hany : expectedLength.any (length ≠ ·) = false := by
        cases expectedLength with
        | none => rfl
        | some m => simp [hexpected m rfl]
      have hmask : ¬ (DataTypeLayout.classify dataType ≠ .null ∧ nullable = false ∧
          maskedNulls < nullCount) := by
        rintro ⟨htype, hnullable, hlt⟩
        have hbound := hmasked (mt classify_eq_null.mpr htype) hnullable
        omega
      have hall : ¬ (DataTypeLayout.classify dataType = .null ∧ nullCount ≠ length) := by
        rintro ⟨htype, hne⟩
        exact hne (hnull (classify_eq_null.mp htype))
      dsimp only [List.cons_append, List.nil_append]
      rw [usizeTryFrom_eq_some.mpr hlength, usizeTryFrom_eq_some.mpr hnulls]
      show (if length < nullCount then _ else _) = _
      rw [if_neg (by omega), if_neg hmask, hany, if_neg (by simp), if_neg hall]
      obtain ⟨nodes', buffers', nextOffset', bodyLen'⟩ := c'
      simp only [List.nil_append] at hbuffers hoffset hbody
      subst hbuffers hoffset hbody
      rfl

theorem bitmap_eq_ok (hbody : c.bodyLen < 2 ^ 63) {length : Nat} (hlength : length < 2 ^ 63) :
    c.bitmap length = .ok c' ↔ Consumes c [] [(length + 7) / 8] c' := by
  have husize : length + 7 < usize := by
    unfold usize
    omega
  have hbytes : bitmapByteLen length = .ok ((length + 7) / 8) :=
    map_eq_ok.mpr ⟨_, okOr_eq_ok.mpr (checkedAdd_eq_some.mpr ⟨rfl, husize⟩), rfl⟩
  unfold LayoutCursor.bitmap
  rw [hbytes]
  show c.buffer (some ((length + 7) / 8)) = .ok c' ↔ _
  rw [buffer_eq_ok hbody]
  constructor
  · rintro ⟨n, hn, h⟩
    rwa [hn _ rfl] at h
  · intro h
    exact ⟨_, fun m hm => by cases hm; rfl, h⟩

/-- A length that overflows is not the length of a buffer. -/
theorem fixedWidth_eq_ok (hbody : c.bodyLen < 2 ^ 63) {elements byteWidth : Nat} :
    c.fixedWidth elements byteWidth = .ok c' ↔ Consumes c [] [elements * byteWidth] c' := by
  unfold LayoutCursor.fixedWidth
  rw [except_bind_eq_ok]
  constructor
  · rintro ⟨n, hn, h⟩
    obtain ⟨rfl, -⟩ := checkedMul_eq_some.mp (okOr_eq_ok.mp hn)
    obtain ⟨m, hm, hconsumes⟩ := (buffer_eq_ok hbody).mp h
    rwa [hm _ rfl] at hconsumes
  · intro h
    have hlt : elements * byteWidth < usize := by
      obtain ⟨buffers, -, hplaced⟩ := h.buffers
      cases buffers with
      | nil => cases hplaced
      | cons b buffers =>
        have hlength := hplaced.2.1
        have hbound := b.length.toInt_lt
        unfold usize
        omega
    exact ⟨_, okOr_eq_ok.mpr (checkedMul_eq_some.mpr ⟨rfl, hlt⟩),
      (buffer_eq_ok hbody).mpr ⟨_, fun m hm => by cases hm; rfl, h⟩⟩

theorem offsets_eq_ok (hbody : c.bodyLen < 2 ^ 63) {length : Nat} (hlength : length < 2 ^ 63) :
    c.offsets length = .ok c' ↔ Consumes c [] [(length + 1) * 4] c' := by
  have husize : length + 1 < usize := by
    unfold usize
    omega
  unfold LayoutCursor.offsets
  rw [checkedAdd_eq_some.mpr ⟨rfl, husize⟩]
  exact fixedWidth_eq_ok hbody

theorem free_buffer_eq_ok (hbody : c.bodyLen < 2 ^ 63) :
    c.buffer none = .ok c' ↔ ∃ n, Consumes c [] [n] c' := by
  rw [buffer_eq_ok hbody]
  exact exists_congr fun n => and_iff_right fun m hm => by cases hm

/-- Buffers one after the other. -/
theorem buffers_eq_ok {x : Except CodecError LayoutCursor}
    {f : LayoutCursor → Except CodecError LayoutCursor} {l₁ l₂ : List Nat}
    (hx : ∀ d, x = .ok d ↔ Consumes c [] l₁ d)
    (hf : ∀ d, d.bodyLen = c.bodyLen → (f d = .ok c' ↔ Consumes d [] l₂ c')) :
    (x >>= f) = .ok c' ↔ Consumes c [] (l₁ ++ l₂) c' := by
  rw [except_bind_eq_ok]
  constructor
  · rintro ⟨d, hd, h⟩
    have h₁ := (hx d).mp hd
    exact h₁.append ((hf d h₁.bodyLen).mp h)
  · intro h
    have hboth : Consumes c ([] ++ []) (l₁ ++ l₂) c' := h
    obtain ⟨d, h₁, h₂⟩ := hboth.split
    exact ⟨d, (hx d).mpr h₁, (hf d h₁.bodyLen).mpr h₂⟩

/-- The buffers of a field's own array, whatever its strings take. -/
theorem fieldBuffers_eq_ok {layout : DataTypeLayout} {length : Nat} (hbody : c.bodyLen < 2 ^ 63)
    (hlength : length < 2 ^ 63) :
    c.fieldBuffers layout length = .ok c' ↔
      ∃ dataLength, Consumes c [] (layout.lengths length dataLength) c' := by
  have hbitmap : ∀ d, c.bitmap length = .ok d ↔ Consumes c [] [(length + 7) / 8] d :=
    fun d => bitmap_eq_ok hbody hlength
  have hrest : ∀ {d : LayoutCursor}, d.bodyLen = c.bodyLen → d.bodyLen < 2 ^ 63 :=
    fun hd => by rwa [hd]
  cases layout with
  | null =>
    show Except.ok c = .ok c' ↔ ∃ _, Consumes c [] [] c'
    constructor
    · rintro ⟨⟩
      exact ⟨0, .refl c⟩
    · rintro ⟨-, h⟩
      rw [h.eq_of_nil]
  | bitmap =>
    have h : c.fieldBuffers .bitmap length = .ok c' ↔ Consumes c [] ([_] ++ [_]) c' :=
      buffers_eq_ok hbitmap fun d hd => bitmap_eq_ok (hrest hd) hlength
    exact h.trans ⟨fun h => ⟨0, h⟩, fun ⟨_, h⟩ => h⟩
  | fixedWidth width =>
    have h : c.fieldBuffers (.fixedWidth width) length = .ok c' ↔ Consumes c [] ([_] ++ [_]) c' :=
      buffers_eq_ok hbitmap fun d hd => fixedWidth_eq_ok (hrest hd)
    exact h.trans ⟨fun h => ⟨0, h⟩, fun ⟨_, h⟩ => h⟩
  | variableWidth =>
    constructor
    · intro h
      obtain ⟨d, hd, h₁⟩ := except_bind_eq_ok.mp h
      obtain ⟨e, he, h₂⟩ := except_bind_eq_ok.mp h₁
      have hfirst := (hbitmap d).mp hd
      have hsecond := (offsets_eq_ok (hrest hfirst.bodyLen) hlength).mp he
      obtain ⟨n, hthird⟩ :=
        (free_buffer_eq_ok (hrest (hsecond.bodyLen.trans hfirst.bodyLen))).mp h₂
      exact ⟨n, (hfirst.append hsecond).append hthird⟩
    · rintro ⟨n, h⟩
      have hparts : Consumes c ([] ++ ([] ++ [])) ([_] ++ ([_] ++ [n])) c' := h
      obtain ⟨d, hfirst, htail⟩ := hparts.split
      obtain ⟨e, hsecond, hthird⟩ := htail.split
      refine except_bind_eq_ok.mpr ⟨d, (hbitmap d).mpr hfirst, except_bind_eq_ok.mpr ⟨e, ?_, ?_⟩⟩
      · exact (offsets_eq_ok (hrest hfirst.bodyLen) hlength).mpr hsecond
      · exact (free_buffer_eq_ok (hrest (hsecond.bodyLen.trans hfirst.bodyLen))).mpr ⟨n, hthird⟩
  | list =>
    have h : c.fieldBuffers .list length = .ok c' ↔ Consumes c [] ([_] ++ [_]) c' :=
      buffers_eq_ok hbitmap fun d hd => offsets_eq_ok (hrest hd) hlength
    exact h.trans ⟨fun h => ⟨0, h⟩, fun ⟨_, h⟩ => h⟩
  | struct =>
    exact (hbitmap c').trans ⟨fun h => ⟨0, h⟩, fun ⟨_, h⟩ => h⟩

theorem pure_eq_ok_consumes : (pure c : Except CodecError LayoutCursor) = .ok c' ↔
    ∃ nodes lengths, (nodes = [] ∧ lengths = []) ∧ Consumes c nodes lengths c' := by
  constructor
  · rintro ⟨⟩
    exact ⟨[], [], ⟨rfl, rfl⟩, .refl c⟩
  · rintro ⟨-, -, ⟨rfl, rfl⟩, h⟩
    rw [h.eq_of_nil]
    rfl

/-- The walk over a field consumes nodes and buffers that describe it, and no others. -/
def WalksExactly (field : Field) : Prop :=
  ∀ (c c' : LayoutCursor) (expectedLength : Option Nat) (maskedNulls : Nat),
    c.bodyLen < 2 ^ 63 → (consumeFieldLayout field expectedLength maskedNulls c = .ok c' ↔
      ∃ nodes lengths, Laid field expectedLength maskedNulls nodes lengths ∧
        Consumes c nodes lengths c')

theorem consumeChildLayouts_eq_ok_of {fields : List Field} (ih : ∀ f ∈ fields, WalksExactly f)
    {expectedLength : Option Nat} {maskedNulls : Nat} (hbody : c.bodyLen < 2 ^ 63) :
    consumeChildLayouts fields expectedLength maskedNulls c = .ok c' ↔
      ∃ nodes lengths, LaidAll fields expectedLength maskedNulls nodes lengths ∧
        Consumes c nodes lengths c' := by
  induction fields generalizing c with
  | nil =>
    rw [consumeChildLayouts]
    exact pure_eq_ok_consumes
  | cons field fields ihf =>
    obtain ⟨hfield, hfields⟩ := List.forall_mem_cons.mp ih
    rw [consumeChildLayouts, except_bind_eq_ok]
    constructor
    · rintro ⟨d, hd, h⟩
      obtain ⟨nodes₁, lengths₁, hlaid₁, hconsumes₁⟩ := (hfield c d _ _ hbody).mp hd
      obtain ⟨nodes₂, lengths₂, hlaid₂, hconsumes₂⟩ :=
        (ihf hfields (by rwa [hconsumes₁.bodyLen])).mp h
      exact ⟨_, _, ⟨nodes₁, nodes₂, lengths₁, lengths₂, rfl, rfl, hlaid₁, hlaid₂⟩,
        hconsumes₁.append hconsumes₂⟩
    · rintro ⟨-, -, ⟨nodes₁, nodes₂, lengths₁, lengths₂, rfl, rfl, hlaid₁, hlaid₂⟩, h⟩
      obtain ⟨d, h₁, h₂⟩ := h.split
      exact ⟨d, (hfield c d _ _ hbody).mpr ⟨nodes₁, lengths₁, hlaid₁, h₁⟩,
        (ihf hfields (by rwa [h₁.bodyLen])).mpr ⟨nodes₂, lengths₂, hlaid₂, h₂⟩⟩

theorem consumeFieldLayout_eq_ok (field : Field) : WalksExactly field := by
  induction field using Field.induction with
  | step name dataType nullable ihList ihStruct =>
    intro c c' expectedLength maskedNulls hbody
    have hnested : ∀ {d : LayoutCursor} {length nullCount : Nat}, d.bodyLen < 2 ^ 63 →
        (consumeNestedLayouts dataType length nullCount d = .ok c' ↔
          ∃ nodes lengths, LaidBelow dataType length nullCount nodes lengths ∧
            Consumes d nodes lengths c') := by
      intro d length nullCount hd
      cases dataType with
      | list child =>
        rw [consumeNestedLayouts]
        simp only [LaidBelow]
        exact ihList child rfl d c' none 0 hd
      | struct children =>
        rw [consumeNestedLayouts]
        simp only [LaidBelow]
        exact consumeChildLayouts_eq_ok_of (ihStruct children rfl) hd
      | _ =>
        simp only [consumeNestedLayouts, LaidBelow]
        exact pure_eq_ok_consumes
    have hlt : ∀ {node : FieldNode} {length : Nat}, node.length.toInt = length →
        length < 2 ^ 63 := by
      intro node length h
      have hbound := node.length.toInt_lt
      omega
    rw [consumeFieldLayout, except_bind_eq_ok]
    constructor
    · rintro ⟨⟨length, nullCount, d⟩, hnode, h⟩
      obtain ⟨node, hlength, hnulls, hnodeOf, hfirst⟩ := node_eq_ok.mp hnode
      obtain ⟨e, hbuffers, hchildren⟩ := except_bind_eq_ok.mp h
      have hd : d.bodyLen < 2 ^ 63 := by rwa [hfirst.bodyLen]
      obtain ⟨dataLength, hsecond⟩ := (fieldBuffers_eq_ok hd (hlt hlength)).mp hbuffers
      have he : e.bodyLen < 2 ^ 63 := by rwa [hsecond.bodyLen]
      obtain ⟨nodes', lengths', hlaid, hthird⟩ := (hnested he).mp hchildren
      refine ⟨node :: nodes', _, ?_, (hfirst.append hsecond).append hthird⟩
      rw [Laid]
      exact ⟨node, nodes', length, nullCount, dataLength, lengths', rfl, hlength, hnulls, hnodeOf,
        rfl, hlaid⟩
    · rintro ⟨nodes, lengths, hlaid, h⟩
      rw [Laid] at hlaid
      obtain ⟨node, nodes', length, nullCount, dataLength, lengths', rfl, hlength, hnulls, hnodeOf,
        rfl, hbelow⟩ := hlaid
      have hparts : Consumes c ([node] ++ ([] ++ nodes'))
          ([] ++ ((DataTypeLayout.classify dataType).lengths length dataLength ++ lengths')) c' := h
      obtain ⟨d, hfirst, htail⟩ := hparts.split
      obtain ⟨e, hsecond, hthird⟩ := htail.split
      have hd : d.bodyLen < 2 ^ 63 := by rwa [hfirst.bodyLen]
      have he : e.bodyLen < 2 ^ 63 := by rwa [hsecond.bodyLen]
      refine ⟨(length, nullCount, d), node_eq_ok.mpr ⟨node, hlength, hnulls, hnodeOf, hfirst⟩, ?_⟩
      refine except_bind_eq_ok.mpr ⟨e, ?_, (hnested he).mpr ⟨nodes', lengths', hbelow, hthird⟩⟩
      exact (fieldBuffers_eq_ok hd (hlt hlength)).mpr ⟨dataLength, hsecond⟩

/-- Descriptors are accepted exactly where they describe the schema and nothing is left. -/
theorem validateLayout_eq_ok {parsed : ParsedChange} :
    validateLayout parsed = .ok () ↔
      ∃ nodes buffers lengths, parsed.nodes = some nodes ∧ parsed.buffers = some buffers ∧
        LaidAll parsed.physicalSchema (some parsed.rowCount) 0 nodes lengths ∧
        Placed parsed.body.length 0 lengths buffers ∧
        extent alignment 0 lengths = parsed.body.length := by
  have hwalk : ∀ {c c' : LayoutCursor}, c.bodyLen < 2 ^ 63 →
      (consumeChildLayouts parsed.physicalSchema (some parsed.rowCount) 0 c = .ok c' ↔ _) :=
    fun hc => consumeChildLayouts_eq_ok_of (fun f _ => consumeFieldLayout_eq_ok f) hc
  unfold validateLayout
  constructor
  · intro h
    obtain ⟨nodes, hnodes, h₁⟩ := except_bind_eq_ok.mp h
    obtain ⟨buffers, hbuffers, h₂⟩ := except_bind_eq_ok.mp h₁
    obtain ⟨c, hc, hfinish⟩ := except_bind_eq_ok.mp h₂
    obtain ⟨nodes', lengths, hlaid, hconsumes⟩ := (hwalk parsed.body_lt).mp hc
    obtain ⟨hleft, hfinish₁⟩ := except_ite_eq_ok.mp hfinish
    obtain ⟨hcovered, -⟩ := except_ite_eq_ok.mp hfinish₁
    obtain ⟨bs, hbs, hplaced⟩ := hconsumes.buffers
    have hnone : c.nodes = [] ∧ c.buffers = [] := by
      simpa [not_or] using hleft
    have hall := hconsumes.nodes
    rw [hnone.1, List.append_nil] at hall
    rw [hnone.2, List.append_nil] at hbs
    subst hall hbs
    refine ⟨nodes, buffers, lengths, okOr_eq_ok.mp hnodes, okOr_eq_ok.mp hbuffers, hlaid, hplaced,
      ?_⟩
    rw [← hconsumes.nextOffset, not_not.mp hcovered, hconsumes.bodyLen]
  · rintro ⟨nodes, buffers, lengths, hnodes, hbuffers, hlaid, hplaced, hextent⟩
    rw [hnodes, hbuffers]
    refine except_bind_eq_ok.mpr ⟨nodes, rfl, except_bind_eq_ok.mpr ⟨buffers, rfl, ?_⟩⟩
    refine except_bind_eq_ok.mpr ⟨⟨[], [], parsed.body.length, parsed.body.length⟩, ?_, ?_⟩
    · refine (hwalk parsed.body_lt).mpr ⟨nodes, lengths, hlaid, ?_, ⟨buffers, ?_, hplaced⟩, ?_, rfl⟩
      · exact (List.append_nil nodes).symm
      · exact (List.append_nil buffers).symm
      · exact hextent.symm
    · unfold LayoutCursor.finish
      simp

end Dogpaddle.Codec
