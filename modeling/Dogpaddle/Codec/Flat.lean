import Dogpaddle.Codec.Layout
import Mathlib.Data.List.Forall2

/-!
# Canonical descriptors

The descriptors of a record batch, stated without recursion on arrays: the schema is flattened
depth first, so that the `i`th field has the `i`th node, and every nested field knows the index
of the struct that it is a child of.

* `NodeValid`: the node of one flattened field.
* `CanonicalLayout`: one valid node per field, and the buffers these nodes determine.
* `validateLayout_iff`: the decoder accepts exactly canonical descriptors.
-/

namespace Dogpaddle.Codec

open Lib Canonical

/-! ## The flattened schema -/

/-- What a field hangs below: the batch, the struct of a flattened field, or a list. -/
inductive Parent
  | root
  | list
  | struct (index : Nat)
deriving DecidableEq, Repr

structure FlatField where
  dataType : DataType
  nullable : Bool
  parent : Parent

mutual

/-- The fields from one field on, which stands at `index`. -/
def flatten : Field → Parent → (index : Nat) → List FlatField
  | .mk _ dataType nullable, parent, index =>
    ⟨dataType, nullable, parent⟩ :: flattenBelow dataType index

def flattenBelow : DataType → (index : Nat) → List FlatField
  | .list child, index => flatten child .list (index + 1)
  | .struct fields, index => flattenAll fields (.struct index) (index + 1)
  | _, _ => []

def flattenAll : List Field → Parent → (index : Nat) → List FlatField
  | [], _, _ => []
  | field :: fields, parent, index =>
    flatten field parent index ++
      flattenAll fields parent (index + (flatten field parent index).length)

end

/-! ## Nodes -/

def FieldNode.rows (node : FieldNode) : Nat := node.length.toInt.toNat

def FieldNode.nulls (node : FieldNode) : Nat := node.nullCount.toInt.toNat

/-- The rows that a field has to have, where its parent says so. -/
def Parent.expectedLength (rowCount : Nat) (nodes : List FieldNode) : Parent → Option Nat
  | .root => some rowCount
  | .list => none
  | .struct index => nodes[index]?.map FieldNode.rows

/-- The nulls of a field that an enclosing struct hides. -/
def Parent.maskedNulls (nodes : List FieldNode) : Parent → Nat
  | .root | .list => 0
  | .struct index => nodes[index]?.elim 0 FieldNode.nulls

/-- The node of a flattened field, among all nodes. -/
structure NodeValid (rowCount : Nat) (nodes : List FieldNode) (field : FlatField)
    (node : FieldNode) : Prop where
  length_nonneg : 0 ≤ node.length.toInt
  nullCount_nonneg : 0 ≤ node.nullCount.toInt
  valid : NodeOf field.dataType field.nullable (field.parent.expectedLength rowCount nodes)
    (field.parent.maskedNulls nodes) node.rows node.nulls

/-! ## Buffers -/

/-- The buffers of an array and their lengths, but for the bytes of strings. -/
def DataTypeLayout.bufferLengths : DataTypeLayout → (rows : Nat) → List (Option Nat)
  | .null, _ => []
  | .bitmap, rows => [some ((rows + 7) / 8), some ((rows + 7) / 8)]
  | .fixedWidth width, rows => [some ((rows + 7) / 8), some (rows * width)]
  | .variableWidth, rows => [some ((rows + 7) / 8), some ((rows + 1) * 4), none]
  | .list, rows => [some ((rows + 7) / 8), some ((rows + 1) * 4)]
  | .struct, rows => [some ((rows + 7) / 8)]

def bufferLengths (fields : List FlatField) (nodes : List FieldNode) : List (Option Nat) :=
  (fields.zip nodes).flatMap fun e =>
    (DataTypeLayout.classify e.1.dataType).bufferLengths e.2.rows

/-- A buffer of the expected length, of any length where none is expected. -/
structure BufferValid (expected : Option Nat) (buffer : IpcBuffer) : Prop where
  length_nonneg : 0 ≤ buffer.length.toInt
  length_eq : ∀ n : Nat, expected = some n → buffer.length.toInt = n

/-- The end of a buffer, where the next one starts. -/
def IpcBuffer.alignedEnd (buffer : IpcBuffer) : Nat :=
  alignUp alignment (buffer.offset.toInt.toNat + buffer.length.toInt.toNat)

/-- The descriptors that describe rows of a schema in a body. -/
structure CanonicalLayout (schema : Schema) (rowCount : Nat) (nodes : List FieldNode)
    (buffers : List IpcBuffer) (bodyLen : Nat) : Prop where
  /-- One node for each field. -/
  nodes_valid : List.Forall₂ (NodeValid rowCount nodes) (flattenAll schema .root 0) nodes
  /-- The buffers that the nodes determine. -/
  buffers_valid :
    List.Forall₂ BufferValid (bufferLengths (flattenAll schema .root 0) nodes) buffers
  /-- Every buffer starts at the aligned end of the one before, and the body ends there. -/
  offsets : buffers.map (fun buffer => buffer.offset.toInt) ++ [(bodyLen : Int)] =
    0 :: buffers.map (fun buffer => (buffer.alignedEnd : Int))

/-! ## Descriptions of fields are descriptions of their flattening -/

theorem forall₂_append_left {α β : Type} {R : α → β → Prop} {a b : List α} {l : List β} :
    List.Forall₂ R (a ++ b) l ↔
      ∃ l₁ l₂, l = l₁ ++ l₂ ∧ List.Forall₂ R a l₁ ∧ List.Forall₂ R b l₂ := by
  induction a generalizing l with
  | nil =>
    constructor
    · intro h
      exact ⟨[], l, rfl, .nil, h⟩
    · rintro ⟨l₁, l₂, rfl, h₁, h₂⟩
      cases h₁
      exact h₂
  | cons x a ih =>
    rw [List.cons_append, List.forall₂_cons_left_iff]
    constructor
    · rintro ⟨y, l', hxy, h, rfl⟩
      obtain ⟨l₁, l₂, rfl, h₁, h₂⟩ := ih.mp h
      exact ⟨y :: l₁, l₂, rfl, .cons hxy h₁, h₂⟩
    · rintro ⟨l₁, l₂, rfl, h₁, h₂⟩
      cases h₁ with
      | cons hxy h₁ => exact ⟨_, _, hxy, ih.mpr ⟨_, _, rfl, h₁, h₂⟩, rfl⟩

/-- The lengths of buffers where these are expected. -/
def Expects (expected : Option Nat) (n : Nat) : Prop := ∀ m, expected = some m → n = m

theorem forall₂_expects_map {expected lengths : List Nat} :
    List.Forall₂ Expects (expected.map some) lengths ↔ lengths = expected := by
  have hsome : ∀ m n : Nat, Expects (some m) n ↔ m = n := by
    intro m n
    unfold Expects
    rw [eq_comm]
    simp
  rw [List.forall₂_map_left_iff]
  simp only [hsome, List.forall₂_eq_eq_eq]
  exact eq_comm

/-- Only strings have a buffer of free length. -/
theorem bufferLengths_eq_map {layout : DataTypeLayout} (h : layout ≠ .variableWidth)
    (rows dataLength : Nat) :
    layout.bufferLengths rows = (layout.lengths rows dataLength).map some := by
  cases layout with
  | variableWidth => exact absurd rfl h
  | _ => rfl

theorem forall₂_expects_lengths {layout : DataTypeLayout} {rows : Nat} {lengths : List Nat} :
    List.Forall₂ Expects (layout.bufferLengths rows) lengths ↔
      ∃ dataLength, lengths = layout.lengths rows dataLength := by
  by_cases h : layout = .variableWidth
  · subst h
    have hsplit : DataTypeLayout.variableWidth.bufferLengths rows =
        [(rows + 7) / 8, (rows + 1) * 4].map some ++ [none] := rfl
    rw [hsplit, forall₂_append_left]
    constructor
    · rintro ⟨l₁, l₂, rfl, h₁, h₂⟩
      rw [forall₂_expects_map.mp h₁]
      cases h₂ with
      | cons _ htail =>
        cases htail
        exact ⟨_, rfl⟩
    · rintro ⟨dataLength, rfl⟩
      exact ⟨_, _, rfl, forall₂_expects_map.mpr rfl, .cons (fun m hm => by cases hm) .nil⟩
  · constructor
    · intro hexpects
      rw [bufferLengths_eq_map h rows 0] at hexpects
      exact ⟨0, forall₂_expects_map.mp hexpects⟩
    · rintro ⟨dataLength, rfl⟩
      rw [bufferLengths_eq_map h rows dataLength]
      exact forall₂_expects_map.mpr rfl

theorem bufferLengths_cons {field : FlatField} {fields : List FlatField} {node : FieldNode}
    {nodes : List FieldNode} : bufferLengths (field :: fields) (node :: nodes) =
      (DataTypeLayout.classify field.dataType).bufferLengths node.rows ++
        bufferLengths fields nodes := rfl

theorem bufferLengths_append {f₁ f₂ : List FlatField} {n₁ n₂ : List FieldNode}
    (h : f₁.length = n₁.length) :
    bufferLengths (f₁ ++ f₂) (n₁ ++ n₂) = bufferLengths f₁ n₁ ++ bufferLengths f₂ n₂ := by
  unfold bufferLengths
  rw [List.zip_append h, List.flatMap_append]

variable {rowCount : Nat} {all : List FieldNode}

/-- The nodes and the lengths of some flattened fields, which are among all nodes. -/
structure Flattened (rowCount : Nat) (all : List FieldNode) (fields : List FlatField)
    (nodes : List FieldNode) (lengths : List Nat) : Prop where
  nodes_valid : List.Forall₂ (NodeValid rowCount all) fields nodes
  lengths_expected : List.Forall₂ Expects (bufferLengths fields nodes) lengths

theorem flattened_nil {nodes : List FieldNode} {lengths : List Nat} :
    Flattened rowCount all [] nodes lengths ↔ nodes = [] ∧ lengths = [] := by
  constructor
  · rintro ⟨hnodes, hlengths⟩
    cases hnodes
    cases hlengths
    exact ⟨rfl, rfl⟩
  · rintro ⟨rfl, rfl⟩
    exact ⟨.nil, .nil⟩

theorem flattened_append {f₁ f₂ : List FlatField} {nodes : List FieldNode} {lengths : List Nat} :
    Flattened rowCount all (f₁ ++ f₂) nodes lengths ↔
      ∃ n₁ n₂ l₁ l₂, nodes = n₁ ++ n₂ ∧ lengths = l₁ ++ l₂ ∧
        Flattened rowCount all f₁ n₁ l₁ ∧ Flattened rowCount all f₂ n₂ l₂ := by
  constructor
  · rintro ⟨hnodes, hlengths⟩
    obtain ⟨n₁, n₂, rfl, h₁, h₂⟩ := forall₂_append_left.mp hnodes
    rw [bufferLengths_append h₁.length_eq] at hlengths
    obtain ⟨l₁, l₂, rfl, hl₁, hl₂⟩ := forall₂_append_left.mp hlengths
    exact ⟨n₁, n₂, l₁, l₂, rfl, rfl, ⟨h₁, hl₁⟩, ⟨h₂, hl₂⟩⟩
  · rintro ⟨n₁, n₂, l₁, l₂, rfl, rfl, ⟨h₁, hl₁⟩, ⟨h₂, hl₂⟩⟩
    refine ⟨forall₂_append_left.mpr ⟨n₁, n₂, rfl, h₁, h₂⟩, ?_⟩
    rw [bufferLengths_append h₁.length_eq]
    exact forall₂_append_left.mpr ⟨l₁, l₂, rfl, hl₁, hl₂⟩

/-- One field and those behind it. -/
theorem flattened_cons {field : FlatField} {fields : List FlatField} {nodes : List FieldNode}
    {lengths : List Nat} :
    Flattened rowCount all (field :: fields) nodes lengths ↔
      ∃ (node : FieldNode) (nodes' : List FieldNode) (dataLength : Nat) (lengths' : List Nat),
        nodes = node :: nodes' ∧ NodeValid rowCount all field node ∧
        lengths = (DataTypeLayout.classify field.dataType).lengths node.rows dataLength ++ lengths' ∧
        Flattened rowCount all fields nodes' lengths' := by
  constructor
  · rintro ⟨hnodes, hlengths⟩
    cases hnodes with
    | cons hnode hnodes =>
      rw [bufferLengths_cons] at hlengths
      obtain ⟨l₁, l₂, rfl, hl₁, hl₂⟩ := forall₂_append_left.mp hlengths
      obtain ⟨dataLength, rfl⟩ := forall₂_expects_lengths.mp hl₁
      exact ⟨_, _, dataLength, l₂, rfl, hnode, rfl, hnodes, hl₂⟩
  · rintro ⟨node, nodes', dataLength, lengths', rfl, hnode, rfl, hnodes, hlengths⟩
    refine ⟨.cons hnode hnodes, ?_⟩
    rw [bufferLengths_cons]
    exact forall₂_append_left.mpr
      ⟨_, _, rfl, forall₂_expects_lengths.mpr ⟨dataLength, rfl⟩, hlengths⟩

theorem nodeValid_iff {field : FlatField} {node : FieldNode} {length nullCount : Nat}
    (hlength : node.length.toInt = length) (hnulls : node.nullCount.toInt = nullCount) :
    NodeValid rowCount all field node ↔
      NodeOf field.dataType field.nullable (field.parent.expectedLength rowCount all)
        (field.parent.maskedNulls all) length nullCount := by
  have hrows : node.rows = length := by
    unfold FieldNode.rows
    rw [hlength, Int.toNat_natCast]
  have hnull : node.nulls = nullCount := by
    unfold FieldNode.nulls
    rw [hnulls, Int.toNat_natCast]
  constructor
  · rintro ⟨-, -, hvalid⟩
    rwa [hrows, hnull] at hvalid
  · intro hvalid
    refine ⟨by omega, by omega, ?_⟩
    rwa [hrows, hnull]

/-- A description of a field is one of its flattening, wherever this stands among all nodes. -/
def FlattensTo (rowCount : Nat) (all : List FieldNode) (field : Field) : Prop :=
  ∀ (pre nodes post : List FieldNode) (parent : Parent) (lengths : List Nat),
    all = pre ++ nodes ++ post →
    (Laid field (parent.expectedLength rowCount all) (parent.maskedNulls all) nodes lengths ↔
      Flattened rowCount all (flatten field parent pre.length) nodes lengths)

theorem laidAll_iff_of {fields : List Field}
    (ih : ∀ f ∈ fields, FlattensTo rowCount all f) {pre nodes post : List FieldNode}
    {parent : Parent} {lengths : List Nat} (hall : all = pre ++ nodes ++ post) :
    LaidAll fields (parent.expectedLength rowCount all) (parent.maskedNulls all) nodes lengths ↔
      Flattened rowCount all (flattenAll fields parent pre.length) nodes lengths := by
  induction fields generalizing pre nodes lengths with
  | nil =>
    rw [LaidAll, flattenAll]
    exact flattened_nil.symm
  | cons field fields ihf =>
    obtain ⟨hfield, hfields⟩ := List.forall_mem_cons.mp ih
    rw [LaidAll, flattenAll, flattened_append]
    refine exists_congr fun n₁ => exists_congr fun n₂ => exists_congr fun l₁ =>
      exists_congr fun l₂ => and_congr_right fun hn => and_congr_right fun _ => ?_
    subst hn
    have hleft : all = pre ++ n₁ ++ (n₂ ++ post) := by rw [hall]; simp
    have hright : all = (pre ++ n₁) ++ n₂ ++ post := by rw [hall]; simp
    rw [hfield pre n₁ (n₂ ++ post) parent l₁ hleft]
    refine and_congr_right fun h₁ => ?_
    rw [ihf hfields hright, List.length_append, h₁.nodes_valid.length_eq]

theorem laidBelow_iff_of {dataType : DataType}
    (ihList : ∀ child, dataType = .list child → FlattensTo rowCount all child)
    (ihStruct : ∀ fields, dataType = .struct fields → ∀ f ∈ fields, FlattensTo rowCount all f)
    {pre nodes post : List FieldNode} {node : FieldNode} {lengths : List Nat}
    (hall : all = pre ++ node :: nodes ++ post) :
    LaidBelow dataType node.rows node.nulls nodes lengths ↔
      Flattened rowCount all (flattenBelow dataType pre.length) nodes lengths := by
  have hrest : all = (pre ++ [node]) ++ nodes ++ post := by rw [hall]; simp
  have hindex : (pre ++ [node]).length = pre.length + 1 := List.length_append
  cases dataType with
  | list child =>
    have hchild := ihList child rfl (pre ++ [node]) nodes post .list lengths hrest
    rw [hindex] at hchild
    simp only [LaidBelow, flattenBelow]
    exact hchild
  | struct fields =>
    have hnode : all[pre.length]? = some node := by rw [hall]; simp
    have hexpected : (Parent.struct pre.length).expectedLength rowCount all = some node.rows :=
      congrArg (Option.map FieldNode.rows) hnode
    have hmasked : (Parent.struct pre.length).maskedNulls all = node.nulls :=
      congrArg (Option.elim · 0 FieldNode.nulls) hnode
    have hfields : LaidAll fields ((Parent.struct pre.length).expectedLength rowCount all)
        ((Parent.struct pre.length).maskedNulls all) nodes lengths ↔ _ :=
      laidAll_iff_of (ihStruct fields rfl) hrest
    rw [hindex, hexpected, hmasked] at hfields
    simp only [LaidBelow, flattenBelow]
    exact hfields
  | _ =>
    simp only [LaidBelow, flattenBelow]
    exact flattened_nil.symm

theorem laid_iff (field : Field) : FlattensTo rowCount all field := by
  induction field using Field.induction with
  | step name dataType nullable ihList ihStruct =>
    intro pre nodes post parent lengths hall
    rw [Laid, flatten, flattened_cons]
    constructor
    · rintro ⟨node, nodes', length, nullCount, dataLength, lengths', rfl, hlength, hnulls, hnodeOf,
        rfl, hbelow⟩
      have hrows : node.rows = length := by
        unfold FieldNode.rows
        rw [hlength, Int.toNat_natCast]
      have hnull : node.nulls = nullCount := by
        unfold FieldNode.nulls
        rw [hnulls, Int.toNat_natCast]
      refine ⟨node, nodes', dataLength, lengths', rfl, (nodeValid_iff hlength hnulls).mpr hnodeOf,
        by rw [hrows], (laidBelow_iff_of ihList ihStruct hall).mp ?_⟩
      rwa [hrows, hnull]
    · rintro ⟨node, nodes', dataLength, lengths', rfl, hvalid, rfl, hbelow⟩
      exact ⟨node, nodes', node.rows, node.nulls, dataLength, lengths', rfl,
        (Int.toNat_of_nonneg hvalid.length_nonneg).symm,
        (Int.toNat_of_nonneg hvalid.nullCount_nonneg).symm, hvalid.valid, rfl,
        (laidBelow_iff_of ihList ihStruct hall).mpr hbelow⟩

theorem laidAll_iff {schema : Schema} {nodes : List FieldNode} {lengths : List Nat} :
    LaidAll schema (some rowCount) 0 nodes lengths ↔
      Flattened rowCount nodes (flattenAll schema .root 0) nodes lengths := by
  have hall : nodes = [] ++ nodes ++ [] := by simp
  have h : LaidAll schema (Parent.root.expectedLength rowCount nodes)
      (Parent.root.maskedNulls nodes) nodes lengths ↔ _ :=
    laidAll_iff_of (fun f _ => laid_iff f) hall
  exact h

/-! ## Placed buffers are chained -/

theorem placed_iff {bodyLen start : Nat} {lengths : List Nat} {buffers : List IpcBuffer} :
    Placed bodyLen start lengths buffers ∧ extent alignment start lengths = bodyLen ↔
      List.Forall₂ (fun (n : Nat) (buffer : IpcBuffer) => buffer.length.toInt = n) lengths
        buffers ∧
      buffers.map (fun buffer => buffer.offset.toInt) ++ [(bodyLen : Int)] =
        (start : Int) :: buffers.map (fun buffer => (buffer.alignedEnd : Int)) := by
  induction lengths generalizing start buffers with
  | nil =>
    cases buffers with
    | nil =>
      show True ∧ start = bodyLen ↔ _
      simp [eq_comm]
    | cons b buffers =>
      constructor
      · rintro ⟨⟨⟩, -⟩
      · rintro ⟨h, -⟩
        cases h
  | cons n lengths ih =>
    cases buffers with
    | nil =>
      constructor
      · rintro ⟨⟨⟩, -⟩
      · rintro ⟨h, -⟩
        cases h
    | cons b buffers =>
      have hstop : b.offset.toInt = start → b.length.toInt = n →
          b.alignedEnd = alignUp alignment (start + n) := by
        intro hoffset hlength
        unfold IpcBuffer.alignedEnd
        rw [hoffset, hlength, Int.toNat_natCast, Int.toNat_natCast]
      rw [List.forall₂_cons, List.map_cons, List.map_cons, List.cons_append, List.cons.injEq]
      constructor
      · rintro ⟨⟨hoffset, hlength, -, hplaced⟩, hextent⟩
        obtain ⟨hlengths, hoffsets⟩ := ih.mp ⟨hplaced, hextent⟩
        rw [hstop hoffset hlength]
        exact ⟨⟨hlength, hlengths⟩, hoffset, hoffsets⟩
      · rintro ⟨⟨hlength, hlengths⟩, hoffset, hoffsets⟩
        rw [hstop hoffset hlength] at hoffsets
        obtain ⟨hplaced, hextent⟩ := ih.mpr ⟨hlengths, hoffsets⟩
        have hle : start + n ≤ bodyLen := by
          have hend := le_alignUp (show 0 < alignment by decide) (start + n)
          have hrest := le_extent (show 0 < alignment by decide) (alignUp alignment (start + n))
            lengths
          omega
        exact ⟨⟨hoffset, hlength, hle, hplaced⟩, hextent⟩

theorem exists_lengths_iff {expected : List (Option Nat)} {buffers : List IpcBuffer} :
    (∃ lengths, List.Forall₂ Expects expected lengths ∧
      List.Forall₂ (fun (n : Nat) (buffer : IpcBuffer) => buffer.length.toInt = n) lengths
        buffers) ↔ List.Forall₂ BufferValid expected buffers := by
  constructor
  · rintro ⟨lengths, hexpected, hlengths⟩
    induction hexpected generalizing buffers with
    | nil =>
      cases hlengths
      exact .nil
    | cons hfirst _ ih =>
      cases hlengths with
      | cons hlength hrest =>
        refine .cons ⟨by omega, fun m hm => ?_⟩ (ih hrest)
        rw [hlength, hfirst m hm]
  · intro h
    induction h with
    | nil => exact ⟨[], .nil, .nil⟩
    | cons hfirst _ ih =>
      obtain ⟨lengths, hexpected, hlengths⟩ := ih
      refine ⟨_ :: lengths, .cons (fun m hm => ?_) hexpected,
        .cons (Int.toNat_of_nonneg hfirst.length_nonneg).symm hlengths⟩
      rw [hfirst.length_eq m hm, Int.toNat_natCast]

/-- The decoder accepts exactly canonical descriptors. No other clause is needed for overflow:
the lengths are the signed numbers of the descriptors, and the body has a signed length. -/
theorem validateLayout_iff (parsed : ParsedChange) :
    validateLayout parsed = .ok () ↔
      ∃ nodes buffers, parsed.nodes = some nodes ∧ parsed.buffers = some buffers ∧
        CanonicalLayout parsed.physicalSchema parsed.rowCount nodes buffers
          parsed.body.length := by
  rw [validateLayout_eq_ok]
  constructor
  · rintro ⟨nodes, buffers, lengths, hnodes, hbuffers, hlaid, hplaced, hextent⟩
    obtain ⟨hvalid, hexpected⟩ := laidAll_iff.mp hlaid
    obtain ⟨hlengths, hoffsets⟩ := placed_iff.mp ⟨hplaced, hextent⟩
    exact ⟨nodes, buffers, hnodes, hbuffers, hvalid,
      exists_lengths_iff.mp ⟨lengths, hexpected, hlengths⟩, hoffsets⟩
  · rintro ⟨nodes, buffers, hnodes, hbuffers, hvalid, hbuffersValid, hoffsets⟩
    obtain ⟨lengths, hexpected, hlengths⟩ := exists_lengths_iff.mpr hbuffersValid
    obtain ⟨hplaced, hextent⟩ := placed_iff.mpr ⟨hlengths, hoffsets⟩
    exact ⟨nodes, buffers, lengths, hnodes, hbuffers, laidAll_iff.mpr ⟨hvalid, hexpected⟩,
      hplaced, hextent⟩

end Dogpaddle.Codec
