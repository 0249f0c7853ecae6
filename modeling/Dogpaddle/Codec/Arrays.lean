import Dogpaddle.Codec.Layout
import Mathlib.Data.List.Forall2

/-!
# Arrays behind a change

The physical data of an array: its slots are a window of shared buffers, and a slice moves the
window. Lists keep whole child arrays and read them through 32-bit offsets; the children of
structs are sliced with their parent.

* `Valid` says what the constructors of Arrow arrays have checked.
* `ArrayData.nodes` and `ArrayData.lengths` are the canonical descriptors of a window: what a
  writer emits that leaves nothing in front of the window and nothing behind it.
* `laid_nodes_lengths`: these describe a field in the sense of the decoder.
-/

namespace Dogpaddle.Codec

open Lib Canonical

/-! ## Array data -/

/-- `offsets` is the first buffer of strings and lists, read as 32-bit numbers; `values` are the
bytes of the value buffer. -/
inductive ArrayData
  | mk (dataType : DataType) (len offset : Nat) (nulls : Option (List Bool))
    (offsets : Option (List Int)) (values : Bytes) (childData : List ArrayData)

namespace ArrayData

def dataType : ArrayData → DataType
  | mk dataType _ _ _ _ _ _ => dataType

def len : ArrayData → Nat
  | mk _ len _ _ _ _ _ => len

def offset : ArrayData → Nat
  | mk _ _ offset _ _ _ _ => offset

/-- Whether each slot is valid, where the array has a validity bitmap. -/
def nulls : ArrayData → Option (List Bool)
  | mk _ _ _ nulls _ _ _ => nulls

def offsets : ArrayData → Option (List Int)
  | mk _ _ _ _ offsets _ _ => offsets

def values : ArrayData → Bytes
  | mk _ _ _ _ _ values _ => values

def childData : ArrayData → List ArrayData
  | mk _ _ _ _ _ _ childData => childData

mutual

/-- The window of `length` slots from `start` on. -/
def slice : ArrayData → (start length : Nat) → ArrayData
  | mk dataType _ offset nulls offsets values childData, start, length =>
    mk dataType length (offset + start) (nulls.map fun bits => (bits.drop start).take length)
      offsets values
      (match dataType with
        | .struct _ => sliceAll childData start length
        | _ => childData)

def sliceAll : List ArrayData → (start length : Nat) → List ArrayData
  | [], _, _ => []
  | child :: children, start, length => child.slice start length :: sliceAll children start length

end

/-! ## Canonical descriptors -/

/-- The valid slots, with or without a bitmap. -/
def bits (data : ArrayData) : List Bool := data.nulls.getD (List.replicate data.len true)

/-- The nulls of a window. -/
def nullCount (data : ArrayData) (start length : Nat) : Nat :=
  match data.dataType with
  | .null => length
  | _ => ((data.bits.drop start).take length).count false

/-- Where the offsets of a window begin, and how far they reach. -/
def span (data : ArrayData) (start length : Nat) : Nat × Nat :=
  let offsets := data.offsets.getD []
  let first := (offsets.getD (data.offset + start) 0).toNat
  if length = 0 then (0, 0)
  else (first, (offsets.getD (data.offset + start + length) 0).toNat - first)

/-- The window of the arrays below, for a window of the array. -/
def inner (data : ArrayData) (start length : Nat) : Nat × Nat :=
  match data.dataType with
  | .list _ => data.span start length
  | _ => (start, length)

mutual

/-- The node of a window, and those of the arrays below it. -/
def nodes : ArrayData → (start length : Nat) → List (Nat × Nat)
  | mk dataType len offset nulls offsets values childData, start, length =>
    let data := mk dataType len offset nulls offsets values childData
    let window := data.inner start length
    (length, data.nullCount start length) :: nodesAll childData window.1 window.2

def nodesAll : List ArrayData → (start length : Nat) → List (Nat × Nat)
  | [], _, _ => []
  | child :: children, start, length =>
    child.nodes start length ++ nodesAll children start length

end

mutual

/-- The lengths of the buffers of a window, and of the arrays below it. -/
def lengths : ArrayData → (start length : Nat) → List Nat
  | mk dataType len offset nulls offsets values childData, start, length =>
    let data := mk dataType len offset nulls offsets values childData
    let window := data.inner start length
    (DataTypeLayout.classify dataType).lengths length (data.span start length).2 ++
      lengthsAll childData window.1 window.2

def lengthsAll : List ArrayData → (start length : Nat) → List Nat
  | [], _, _ => []
  | child :: children, start, length =>
    child.lengths start length ++ lengthsAll children start length

end

end ArrayData

/-! ## Valid arrays -/

/-- The offsets of an array reach over its window, ascend and stay within `limit`. -/
structure OffsetsValid (data : ArrayData) (offsets : List Int) (limit : Nat) : Prop where
  nonneg : ∀ n ∈ offsets, 0 ≤ n
  lt : ∀ n ∈ offsets, n < 2 ^ 31
  ascending : offsets.Pairwise (· ≤ ·)
  le_limit : ∀ n ∈ offsets, n ≤ limit
  /-- No allocation holds more than a signed number of bytes. -/
  length_lt : 4 * offsets.length < 2 ^ 63
  /-- An array without slots needs no offsets. -/
  window : data.len ≠ 0 → data.offset + data.len < offsets.length

/-- What no null is behind: a slot that is null where the parent is not. -/
def Unmasked (dataType : DataType) (nullable : Bool) (bits parent : List Bool) : Prop :=
  dataType ≠ .null → nullable = false →
    List.Forall₂ (fun child parent => child = false → parent = false) bits parent

mutual

/-- Arrow has accepted the array as one of the field. -/
def Valid : Field → ArrayData → Prop
  | .mk _ dataType _, data =>
    data.dataType = dataType ∧ (∀ bits, data.nulls = some bits → bits.length = data.len) ∧
      ValidBelow dataType data

/-- The buffers and the children of an array of the type. -/
def ValidBelow : DataType → ArrayData → Prop
  | .null, data => data.childData = []
  | .boolean, data => data.childData = []
  | .fixed type, data =>
    data.childData = [] ∧ (data.offset + data.len) * type.width ≤ data.values.length ∧
      data.values.length < 2 ^ 63
  | .utf8, data =>
    data.childData = [] ∧ ∃ offsets, data.offsets = some offsets ∧
      OffsetsValid data offsets data.values.length
  | .binary, data =>
    data.childData = [] ∧ ∃ offsets, data.offsets = some offsets ∧
      OffsetsValid data offsets data.values.length
  | .list child, data =>
    ∃ values offsets, data.childData = [values] ∧ data.offsets = some offsets ∧
      OffsetsValid data offsets values.len ∧ Valid child values ∧
      Unmasked child.dataType child.isNullable values.bits (List.replicate values.len true)
  | .struct fields, data => ValidAll fields data.len data.bits data.childData

/-- Arrays of fields that stand side by side. -/
def ValidAll : List Field → (len : Nat) → (parent : List Bool) → List ArrayData → Prop
  | [], _, _, [] => True
  | field :: fields, len, parent, data :: children =>
    data.len = len ∧ Valid field data ∧
      Unmasked field.dataType field.isNullable data.bits parent ∧
      ValidAll fields len parent children
  | _, _, _, _ => False

end

/-! ## Windows of valid arrays -/

namespace OffsetsValid

variable {data : ArrayData} {offsets : List Int} {limit start length : Nat}

/-- The ends of a window that has slots. -/
theorem ends (h : OffsetsValid data offsets limit) (hoffsets : data.offsets = some offsets)
    (hwindow : start + length ≤ data.len) (hne : length ≠ 0) :
    ∃ a b : Nat, offsets[data.offset + start]? = some (a : Int) ∧
      offsets[data.offset + start + length]? = some (b : Int) ∧ a ≤ b ∧ b ≤ limit ∧ b < 2 ^ 31 ∧
      data.span start length = (a, b - a) := by
  have hreach := h.window (by omega)
  have hi : data.offset + start < offsets.length := by omega
  have hj : data.offset + start + length < offsets.length := by omega
  have hmemi := List.getElem_mem hi
  have hmemj := List.getElem_mem hj
  have hle : offsets[data.offset + start] ≤ offsets[data.offset + start + length] :=
    List.pairwise_iff_getElem.mp h.ascending _ _ hi hj (by omega)
  have hnonnegi := h.nonneg _ hmemi
  have hnonnegj := h.nonneg _ hmemj
  have hlimit := h.le_limit _ hmemj
  have hlt := h.lt _ hmemj
  refine ⟨offsets[data.offset + start].toNat, offsets[data.offset + start + length].toNat,
    ?_, ?_, by omega, by omega, by omega, ?_⟩
  · rw [List.getElem?_eq_getElem hi, Int.toNat_of_nonneg hnonnegi]
  · rw [List.getElem?_eq_getElem hj, Int.toNat_of_nonneg hnonnegj]
  · unfold ArrayData.span
    dsimp only
    rw [if_neg hne, hoffsets, Option.getD_some, List.getD_eq_getElem?_getD,
      List.getD_eq_getElem?_getD, List.getElem?_eq_getElem hi, List.getElem?_eq_getElem hj]
    rfl

theorem span_le (h : OffsetsValid data offsets limit) (hoffsets : data.offsets = some offsets)
    (hwindow : start + length ≤ data.len) :
    (data.span start length).1 + (data.span start length).2 ≤ limit ∧
      (data.span start length).2 < 2 ^ 31 := by
  by_cases hne : length = 0
  · unfold ArrayData.span
    simp [hne]
  · obtain ⟨a, b, -, -, hab, hlimit, hlt, hspan⟩ := h.ends hoffsets hwindow hne
    rw [hspan]
    dsimp only
    omega

end OffsetsValid

theorem count_false_le {bits parent : List Bool}
    (h : List.Forall₂ (fun child parent => child = false → parent = false) bits parent) :
    bits.count false ≤ parent.count false := by
  induction h with
  | nil => exact Nat.le_refl 0
  | @cons child parent bits parents hfirst _ ih =>
    cases child with
    | true =>
      rw [List.count_cons_of_ne (by simp)]
      exact ih.trans List.count_le_count_cons
    | false =>
      rw [hfirst rfl, List.count_cons_self, List.count_cons_self]
      omega

theorem nullCount_of_ne {data : ArrayData} (h : data.dataType ≠ .null) (start length : Nat) :
    data.nullCount start length = ((data.bits.drop start).take length).count false := by
  unfold ArrayData.nullCount
  split
  · next hnull => exact absurd hnull h
  · rfl

/-- A window of an unmasked array has no more nulls than its parent's. -/
theorem Unmasked.nullCount_le {data : ArrayData} {nullable : Bool} {parent : List Bool}
    (h : Unmasked data.dataType nullable data.bits parent) (hne : data.dataType ≠ .null)
    (hnullable : nullable = false) (start length : Nat) :
    data.nullCount start length ≤ ((parent.drop start).take length).count false := by
  rw [nullCount_of_ne hne]
  exact count_false_le (List.forall₂_take _ (List.forall₂_drop _ (h hne hnullable)))

theorem count_false_replicate (n start length : Nat) :
    (((List.replicate n true).drop start).take length).count false = 0 := by
  rw [List.drop_replicate, List.take_replicate, List.count_replicate]
  rfl

theorem nullCount_le {data : ArrayData} (start length : Nat) :
    data.nullCount start length ≤ length := by
  unfold ArrayData.nullCount
  split
  · exact Nat.le_refl length
  · exact List.count_le_length.trans (List.length_take_le _ _)

/-! ## Descriptors of windows describe the fields -/

/-- Nodes with the given lengths and null counts. -/
def Describes (nodes : List FieldNode) (values : List (Nat × Nat)) : Prop :=
  List.Forall₂ (fun node value => node.length.toInt = value.1 ∧ node.nullCount.toInt = value.2)
    nodes values

theorem describes_append {nodes : List FieldNode} {v₁ v₂ : List (Nat × Nat)} :
    Describes nodes (v₁ ++ v₂) ↔
      ∃ n₁ n₂, nodes = n₁ ++ n₂ ∧ Describes n₁ v₁ ∧ Describes n₂ v₂ := by
  unfold Describes
  constructor
  · intro h
    refine ⟨nodes.take v₁.length, nodes.drop v₁.length, (List.take_append_drop _ _).symm, ?_, ?_⟩
    · have htake := List.forall₂_take v₁.length h
      rwa [List.take_left] at htake
    · have hdrop := List.forall₂_drop v₁.length h
      rwa [List.drop_left] at hdrop
  · rintro ⟨n₁, n₂, rfl, h₁, h₂⟩
    exact List.rel_append h₁ h₂

/-- The descriptors of every window of an array of the field describe it. -/
def Described (field : Field) : Prop :=
  ∀ (data : ArrayData) (start length : Nat) (expectedLength : Option Nat) (maskedNulls : Nat)
    (nodes : List FieldNode), Valid field data → start + length ≤ data.len →
    (∀ n, expectedLength = some n → length = n) →
    (field.dataType ≠ .null → field.isNullable = false →
      data.nullCount start length ≤ maskedNulls) →
    Describes nodes (data.nodes start length) →
    Laid field expectedLength maskedNulls nodes (data.lengths start length)

theorem laidAll_of_valid {fields : List Field} (ih : ∀ f ∈ fields, Described f) {len : Nat}
    {parent : List Bool} {children : List ArrayData} {start length : Nat}
    {nodes : List FieldNode} (hvalid : ValidAll fields len parent children)
    (hwindow : start + length ≤ len)
    (hnodes : Describes nodes (ArrayData.nodesAll children start length)) :
    LaidAll fields (some length) (((parent.drop start).take length).count false) nodes
      (ArrayData.lengthsAll children start length) := by
  induction fields generalizing children nodes with
  | nil =>
    cases children with
    | nil =>
      cases hnodes
      exact ⟨rfl, rfl⟩
    | cons data children => cases hvalid
  | cons field fields ihf =>
    cases children with
    | nil => cases hvalid
    | cons data children =>
      rw [ValidAll] at hvalid
      obtain ⟨hlen, hdata, hunmasked, hrest⟩ := hvalid
      obtain ⟨hfield, hfields⟩ := List.forall_mem_cons.mp ih
      rw [ArrayData.nodesAll] at hnodes
      obtain ⟨n₁, n₂, rfl, hn₁, hn₂⟩ := describes_append.mp hnodes
      rw [LaidAll, ArrayData.lengthsAll]
      refine ⟨n₁, n₂, _, _, rfl, rfl, ?_, ihf hfields hrest hn₂⟩
      refine hfield data start length _ _ n₁ hdata (by omega) (fun n hn => by cases hn; rfl) ?_ hn₁
      intro hne hnullable
      obtain ⟨name, dataType, nullable⟩ := field
      rw [Valid] at hdata
      have htype : data.dataType = dataType := hdata.1
      exact Unmasked.nullCount_le (htype ▸ hunmasked) (htype ▸ hne) hnullable start length

/-- What an array says of itself and of the arrays below it. -/
theorem nodes_eq (data : ArrayData) (start length : Nat) :
    data.nodes start length = (length, data.nullCount start length) ::
      ArrayData.nodesAll data.childData (data.inner start length).1
        (data.inner start length).2 := by
  cases data
  rw [ArrayData.nodes]
  rfl

theorem lengths_eq (data : ArrayData) (start length : Nat) :
    data.lengths start length =
      (DataTypeLayout.classify data.dataType).lengths length (data.span start length).2 ++
      ArrayData.lengthsAll data.childData (data.inner start length).1
        (data.inner start length).2 := by
  cases data
  rw [ArrayData.lengths]
  rfl

theorem described (field : Field) : Described field := by
  induction field using Field.induction with
  | step name dataType nullable ihList ihStruct =>
    intro data start length expectedLength maskedNulls nodes hvalid hwindow hexpected hmasked hnodes
    rw [Valid] at hvalid
    obtain ⟨htype, hbits, hbelow⟩ := hvalid
    rw [nodes_eq] at hnodes
    cases hnodes with
    | @cons node _ nodes' _ hnode hnodes =>
    rw [Laid]
    refine ⟨node, nodes', length, data.nullCount start length, (data.span start length).2,
      ArrayData.lengthsAll data.childData (data.inner start length).1
        (data.inner start length).2, rfl, hnode.1, hnode.2, ?_, ?_, ?_⟩
    · refine ⟨nullCount_le start length, hexpected, fun hnull => ?_, fun hne hnullable => ?_⟩
      · unfold ArrayData.nullCount
        rw [htype, hnull]
      · exact hmasked hne hnullable
    · rw [lengths_eq, htype]
    · have hleaf : data.childData = [] → nodes' = [] ∧ ArrayData.lengthsAll data.childData
          (data.inner start length).1 (data.inner start length).2 = [] := by
        intro hnone
        rw [hnone] at hnodes ⊢
        cases hnodes
        exact ⟨rfl, rfl⟩
      cases dataType with
      | list child =>
        simp only [ValidBelow] at hbelow
        obtain ⟨values, offsets, hchild, hoffsets, hoffsetsValid, hvalues, hunmasked⟩ := hbelow
        have hinner : data.inner start length = data.span start length := by
          unfold ArrayData.inner
          rw [htype]
        have hspan := hoffsetsValid.span_le hoffsets hwindow
        rw [hchild, hinner] at hnodes ⊢
        rw [ArrayData.nodesAll, ArrayData.nodesAll, List.append_nil] at hnodes
        rw [ArrayData.lengthsAll, ArrayData.lengthsAll, List.append_nil]
        simp only [LaidBelow]
        refine ihList child rfl values _ _ _ _ _ hvalues hspan.1 (fun n hn => by cases hn) ?_ hnodes
        intro hne hnullable
        obtain ⟨name', dataType', nullable'⟩ := child
        rw [Valid] at hvalues
        have htype' : values.dataType = dataType' := hvalues.1
        have hle := Unmasked.nullCount_le (htype' ▸ hunmasked) (htype' ▸ hne) hnullable
          (data.span start length).1 (data.span start length).2
        rwa [count_false_replicate] at hle
      | struct fields =>
        simp only [ValidBelow] at hbelow
        have hinner : data.inner start length = (start, length) := by
          unfold ArrayData.inner
          rw [htype]
        have hne : data.dataType ≠ .null := by
          rw [htype]
          simp
        have hnull := nullCount_of_ne hne start length
        rw [hinner] at hnodes ⊢
        simp only [LaidBelow]
        rw [hnull]
        exact laidAll_of_valid (ihStruct fields rfl) hbelow hwindow hnodes
      | null => exact hleaf hbelow
      | boolean => exact hleaf hbelow
      | fixed type => exact hleaf hbelow.1
      | utf8 => exact hleaf hbelow.1
      | binary => exact hleaf hbelow.1

end Dogpaddle.Codec
