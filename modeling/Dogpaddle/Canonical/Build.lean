import Dogpaddle.Canonical.Check
import Mathlib.Algebra.Order.BigOperators.Group.List
import Mathlib.Algebra.Order.Group.Nat
import Mathlib.Data.List.Flatten

/-!
# What the appender builds

`Represents` reads a tree of builders as one column of logical values: the values of a list
builder are the items of all its slots, and the children of a struct builder are as long as
the struct. On the canonical bytes of a value the appender extends the column by that value
(`appendValue_appends`), unless an offset of the column overflows; a null extends every
column (`appendSlot_null`).

A finished builder has the slots of its column (`Represents.finish`).
-/

namespace Dogpaddle.Canonical

open Lib Dogpaddle.Relation

/-! ## Builders as columns -/

/-- The builder of a type without types below it. -/
def flatKind : DataType → Option Flat
  | .null => some .null
  | .boolean => some .boolean
  | .fixed type => some (.fixed type)
  | .utf8 => some .utf8
  | .binary => some .binary
  | _ => none

/-- The end offsets and validities of the slots of a list column. -/
def offsets : Nat → List Value → List (Nat × Bool)
  | _, [] => []
  | start, value :: column =>
    (start + value.items.length, !value.isNull) :: offsets (start + value.items.length) column

mutual

/-- A builder of a field that holds a column. -/
def Represents : Field → Builder → List Value → Prop
  | .mk _ dataType _, builder, column =>
    match dataType, builder with
    | .list child, .list ends values =>
      ends = offsets 0 column ∧ Represents child values (column.flatMap Value.items)
    | .struct fields, .struct validity children =>
      validity = column.map (fun value => !value.isNull) ∧ RepresentsAll fields 0 children column
    | dataType, .flat kind slots => flatKind dataType = some kind ∧ slots = column
    | _, _ => False

/-- The children of a struct, from one of its fields on. -/
def RepresentsAll : List Field → Nat → List Builder → List Value → Prop
  | [], _, [], _ => True
  | field :: fields, index, builder :: builders, column =>
    Represents field builder (column.map (Value.child index)) ∧
      RepresentsAll fields (index + 1) builders column
  | _, _, _, _ => False

end

theorem representsAll_cons {field : Field} {fields : List Field} {index : Nat}
    {builders : List Builder} {column : List Value} :
    RepresentsAll (field :: fields) index builders column ↔ ∃ builder rest,
      builders = builder :: rest ∧ Represents field builder (column.map (Value.child index)) ∧
        RepresentsAll fields (index + 1) rest column := by
  cases builders with
  | nil => simp [RepresentsAll]
  | cons builder builders =>
    rw [RepresentsAll]
    constructor
    · exact fun h => ⟨builder, builders, rfl, h⟩
    · rintro ⟨b, bs, heq, h⟩
      cases heq
      exact h

/-- The builders of a field, one case for each kind. -/
inductive Built : DataType → Builder → List Value → Prop
  | flat {dataType : DataType} {kind : Flat} {column : List Value} :
      flatKind dataType = some kind → Built dataType (.flat kind column) column
  | list {child : Field} {values : Builder} {column : List Value} :
      Represents child values (column.flatMap Value.items) →
      Built (.list child) (.list (offsets 0 column) values) column
  | struct {fields : List Field} {children : List Builder} {column : List Value} :
      RepresentsAll fields 0 children column →
      Built (.struct fields) (.struct (column.map fun value => !value.isNull) children) column

theorem represents_iff {name : String} {dataType : DataType} {nullable : Bool} {builder : Builder}
    {column : List Value} :
    Represents (.mk name dataType nullable) builder column ↔ Built dataType builder column := by
  rw [Represents.eq_def]
  constructor
  · intro h
    cases dataType <;> cases builder <;> simp only at h
    case list.list =>
      obtain ⟨rfl, hvalues⟩ := h
      exact .list hvalues
    case struct.struct =>
      obtain ⟨rfl, hchildren⟩ := h
      exact .struct hchildren
    all_goals
      obtain ⟨hkind, rfl⟩ := h
      exact .flat hkind
  · intro h
    cases h with
    | @flat _ kind _ hkind => cases dataType <;> exact ⟨hkind, rfl⟩
    | list hvalues => exact ⟨rfl, hvalues⟩
    | struct hchildren => exact ⟨rfl, hchildren⟩

theorem length_offsets (start : Nat) (column : List Value) :
    (offsets start column).length = column.length := by
  induction column generalizing start with
  | nil => rfl
  | cons value column ih => rw [offsets, List.length_cons, ih, List.length_cons]

theorem offsets_append (start : Nat) (column : List Value) (value : Value) :
    offsets start (column ++ [value]) = offsets start column ++
      [(start + (column.flatMap Value.items).length + value.items.length, !value.isNull)] := by
  induction column generalizing start with
  | nil => rfl
  | cons first column ih =>
    rw [List.cons_append, offsets, ih, offsets, List.cons_append, List.flatMap_cons,
      List.length_append, Nat.add_assoc start]

theorem Represents.length {field : Field} {builder : Builder} {column : List Value}
    (h : Represents field builder column) : builder.length = column.length := by
  cases field with
  | mk name dataType nullable =>
    cases represents_iff.mp h with
    | flat => rfl
    | list => exact length_offsets 0 column
    | struct => exact List.length_map _

/-! ## Children -/

/-- The children of a slot of a struct, from one of its fields on. -/
def childrenFrom : List Field → Nat → Value → List Value
  | [], _, _ => []
  | _ :: fields, index, value => value.child index :: childrenFrom fields (index + 1) value

theorem childrenFrom_row {fields : List Field} {row : List Value} {index : Nat}
    (h : row.length = index + fields.length) :
    childrenFrom fields index (.struct row) = row.drop index := by
  induction fields generalizing index with
  | nil => rw [childrenFrom, List.drop_eq_nil_of_le (by simpa using h.le)]
  | cons field fields ih =>
    rw [List.length_cons] at h
    have hlt : index < row.length := by omega
    rw [childrenFrom, ih (by omega), List.drop_eq_getElem_cons hlt, Value.child, List.getD,
      List.getElem?_eq_getElem hlt, Option.getD_some]

theorem childrenFrom_struct {fields : List Field} {children : List Value}
    (h : FitsAll fields children) : childrenFrom fields 0 (.struct children) = children := by
  have hlength := (fitsAll_iff.mp h).length_eq
  exact childrenFrom_row (by omega)

/-- A null has null children. -/
theorem childrenFrom_null (fields : List Field) (index : Nat) :
    childrenFrom fields index .null = List.replicate fields.length .null := by
  induction fields generalizing index with
  | nil => rfl
  | cons field fields ih =>
    rw [childrenFrom, ih]
    rfl

/-! ## Empty builders -/

theorem rowBuilders_represent {fields : List Field} (index : Nat)
    (ih : ∀ f ∈ fields, Represents f (rowBuilder f) []) :
    RepresentsAll fields index (rowBuilders fields) [] := by
  induction fields generalizing index with
  | nil => simp [rowBuilders, RepresentsAll]
  | cons field fields ihf =>
    rw [rowBuilders, RepresentsAll]
    exact ⟨ih field List.mem_cons_self, ihf _ fun f hf => ih f (List.mem_cons_of_mem _ hf)⟩

theorem rowBuilder_represents (field : Field) : Represents field (rowBuilder field) [] := by
  induction field using Field.induction with
  | step name dataType nullable ihList ihStruct =>
    rw [represents_iff]
    cases dataType with
    | list child =>
      rw [rowBuilder]
      show Built _ (.list (offsets 0 []) _) []
      exact .list (ihList child rfl)
    | struct fields =>
      rw [rowBuilder]
      show Built _ (.struct (List.map (fun value => !Value.isNull value) []) _) []
      exact .struct (rowBuilders_represent 0 (ihStruct fields rfl))
    | _ =>
      rw [rowBuilder]
      exact .flat rfl

/-! ## Offsets of longer columns -/

theorem WithinAll.sublist {fields : List Field} {index : Nat} {column column' : List Value}
    (ih : ∀ f ∈ fields, ∀ {column column' : List Value}, column.Sublist column' →
      Within f column' → Within f column)
    (hsub : column.Sublist column') (h : WithinAll fields index column') :
    WithinAll fields index column := by
  induction fields generalizing index with
  | nil => simp [WithinAll]
  | cons field fields ihf =>
    rw [WithinAll] at h ⊢
    exact ⟨ih field List.mem_cons_self (hsub.map _) h.1,
      ihf (fun f hf => ih f (List.mem_cons_of_mem _ hf)) h.2⟩

/-- A part of a column has smaller offsets. -/
theorem Within.sublist (field : Field) : ∀ {column column' : List Value},
    column.Sublist column' → Within field column' → Within field column := by
  induction field using Field.induction with
  | step name dataType nullable ihList ihStruct =>
    intro column column' hsub h
    have hsum := (hsub.map Value.byteLength).sum_le_sum (by simp)
    cases dataType with
    | utf8 => rw [Within] at h ⊢; omega
    | binary => rw [Within] at h ⊢; omega
    | list child =>
      rw [Within] at h ⊢
      have hitems := hsub.flatMap Value.items
      exact ⟨lt_of_le_of_lt hitems.length_le h.1, ihList child rfl hitems h.2⟩
    | struct fields =>
      rw [Within] at h ⊢
      exact WithinAll.sublist (ihStruct fields rfl) hsub h
    | _ => simp [Within]

theorem withinAll_nil {fields : List Field} {index : Nat} (ih : ∀ f ∈ fields, Within f []) :
    WithinAll fields index [] := by
  induction fields generalizing index with
  | nil => simp [WithinAll]
  | cons field fields ihf =>
    rw [WithinAll]
    exact ⟨ih field List.mem_cons_self, ihf fun f hf => ih f (List.mem_cons_of_mem _ hf)⟩

/-- An empty column has no offsets. -/
theorem within_nil (field : Field) : Within field [] := by
  induction field using Field.induction with
  | step name dataType nullable ihList ihStruct =>
    cases dataType with
    | list child =>
      rw [Within]
      exact ⟨by decide, ihList child rfl⟩
    | struct fields =>
      rw [Within]
      exact withinAll_nil (ihStruct fields rfl)
    | _ => simp [Within]

theorem WithinAll.null {fields : List Field} {index : Nat} {column : List Value} {value : Value}
    (hnull : childrenFrom fields index value = List.replicate fields.length .null)
    (ih : ∀ f ∈ fields, ∀ {column : List Value}, Within f column → Within f (column ++ [.null]))
    (h : WithinAll fields index column) : WithinAll fields index (column ++ [value]) := by
  induction fields generalizing index with
  | nil => simp [WithinAll]
  | cons field fields ihf =>
    rw [childrenFrom, List.length_cons, List.replicate_succ, List.cons.injEq] at hnull
    rw [WithinAll] at h ⊢
    rw [List.map_append, List.map_singleton, hnull.1]
    exact ⟨ih field List.mem_cons_self h.1,
      ihf hnull.2 (fun f hf => ih f (List.mem_cons_of_mem _ hf)) h.2⟩

/-- A null takes no room. -/
theorem Within.null (field : Field) : ∀ {column : List Value}, Within field column →
    Within field (column ++ [.null]) := by
  induction field using Field.induction with
  | step name dataType nullable ihList ihStruct =>
    intro column h
    cases dataType with
    | utf8 =>
      rw [Within] at h ⊢
      simpa [Value.byteLength] using h
    | binary =>
      rw [Within] at h ⊢
      simpa [Value.byteLength] using h
    | list child =>
      rw [Within] at h ⊢
      simpa [List.flatMap_append, Value.items] using h
    | struct fields =>
      rw [Within] at h ⊢
      exact h.null (childrenFrom_null _ _) (ihStruct fields rfl)
    | _ => simp [Within]

/-! ## Appending a null -/

theorem appendFlat_eq {kind : Flat} {slot : List Value → RowCursor Value} {slots : List Value}
    {input rest : Bytes} {value : Value} (h : slot slots input = .ok value rest) :
    appendFlat kind slot (input, .flat kind slots) =
      .ok () (rest, .flat kind (slots ++ [value])) := by
  unfold appendFlat
  dsimp only
  rw [if_pos rfl, h]

theorem appendValue_absent {name : String} {dataType : DataType} {nullable : Bool}
    (s : Bytes × Builder) :
    appendValue (.mk name dataType nullable) true s = appendSlot dataType false s := by
  rw [appendValue]
  rfl

theorem appendFields_null {fields : List Field} {index : Nat} {builders : List Builder}
    {column : List Value} {value : Value} (input : Bytes)
    (hnull : childrenFrom fields index value = List.replicate fields.length .null)
    (hrep : RepresentsAll fields index builders column)
    (ih : ∀ f ∈ fields, ∀ builder column input, Represents f builder column →
      ∃ builder', appendValue f true (input, builder) = .ok () (input, builder') ∧
        Represents f builder' (column ++ [.null])) :
    ∃ builders', appendFields fields true (input, builders) = .ok () (input, builders') ∧
      RepresentsAll fields index builders' (column ++ [value]) := by
  induction fields generalizing index builders with
  | nil =>
    cases builders with
    | nil => exact ⟨[], by rw [appendFields]; rfl, by simp [RepresentsAll]⟩
    | cons builder builders => simp [RepresentsAll] at hrep
  | cons field fields ihf =>
    obtain ⟨builder, rest, rfl, hfirst, hrest⟩ := representsAll_cons.mp hrep
    rw [childrenFrom, List.length_cons, List.replicate_succ, List.cons.injEq] at hnull
    obtain ⟨builder', happend, hrep'⟩ := ih field List.mem_cons_self _ _ input hfirst
    obtain ⟨rest', happends, hreps'⟩ :=
      ihf hnull.2 hrest fun f hf => ih f (List.mem_cons_of_mem _ hf)
    refine ⟨builder' :: rest', ?_, ?_⟩
    · rw [appendFields]
      dsimp only
      rw [happend]
      dsimp only
      rw [happends]
    · rw [RepresentsAll, List.map_append, List.map_singleton, hnull.1]
      exact ⟨hrep', hreps'⟩

/-- A null extends the column of a field, whatever the cursor stands on. -/
theorem appendSlot_null (field : Field) : ∀ builder column input,
    Represents field builder column →
      ∃ builder', appendValue field true (input, builder) = .ok () (input, builder') ∧
        Represents field builder' (column ++ [.null]) := by
  induction field using Field.induction with
  | step name dataType nullable ihList ihStruct =>
    intro builder column input hrep
    rw [appendValue_absent]
    simp only [represents_iff] at hrep ⊢
    cases hrep with
    | @flat _ kind _ hkind =>
      refine ⟨.flat kind (column ++ [.null]), ?_, .flat hkind⟩
      cases dataType <;> cases hkind <;> rw [appendSlot] <;> exact appendFlat_eq rfl
    | @list child values _ hvalues =>
      refine ⟨.list (offsets 0 (column ++ [.null])) values, ?_, .list ?_⟩
      · rw [appendSlot, offsets_append, Nat.zero_add, ← hvalues.length]
        rfl
      · rw [List.flatMap_append]
        simpa [Value.items] using hvalues
    | @struct fields children _ hchildren =>
      obtain ⟨children', happends, hreps⟩ :=
        appendFields_null input (childrenFrom_null _ _) hchildren (ihStruct fields rfl)
      refine ⟨.struct ((column ++ [Value.null]).map fun value => !value.isNull) children', ?_,
        .struct hreps⟩
      have hfields : appendFields fields (!false) (input, children) = .ok () (input, children') :=
        happends
      rw [appendSlot, List.map_append]
      dsimp only
      rw [hfields]
      rfl

/-! ## Appending a value -/

/-- Reads up to a rest and leaves a good state when there is room, and fails otherwise. -/
def Outcome {σ : Type} (result : EStateM.Result RowError (Bytes × σ) Unit) (rest : Bytes)
    (room : Prop) (good : σ → Prop) : Prop :=
  (room ∧ ∃ builder, result = .ok () (rest, builder) ∧ good builder) ∨
    (¬ room ∧ ∃ e s, result = .error e s)

theorem appendValue_null {name : String} {dataType : DataType} {nullable : Bool} (input : Bytes)
    (builder : Builder) :
    appendValue (.mk name dataType nullable) false (0 :: input, builder) =
      appendSlot dataType false (input, builder) := by
  rw [appendValue]
  rfl

theorem appendValue_present {name : String} {dataType : DataType} {nullable : Bool}
    (input : Bytes) (builder : Builder) :
    appendValue (.mk name dataType nullable) false (1 :: input, builder) =
      appendSlot dataType true (input, builder) := by
  rw [appendValue]
  rfl

theorem logical_mem {items : List Value} (h : items.map Value.logical = items) {item : Value}
    (hitem : item ∈ items) : item.logical = item := by
  induction items with
  | nil => cases hitem
  | cons first items ih =>
    rw [List.map_cons, List.cons.injEq] at h
    rcases List.mem_cons.mp hitem with rfl | hrest
    · exact h.1
    · exact ih h.2 hrest

/-- The value of a canonical field appended to its column. -/
def AppendsValue (field : Field) : Prop :=
  ∀ value builder column rest, Fits field value → value.logical = value →
    Represents field builder column → Within field column →
      Outcome (appendValue field false (canonical field value ++ rest, builder)) rest
        (Within field (column ++ [value])) fun builder' =>
          Represents field builder' (column ++ [value])

theorem times_appends {child : Field} (ih : AppendsValue child) {items : List Value}
    {builder : Builder} {column : List Value} (rest : Bytes)
    (hfits : ∀ item ∈ items, Fits child item) (hlogical : ∀ item ∈ items, item.logical = item)
    (hrep : Represents child builder column) (hwithin : Within child column) :
    Outcome (times items.length (appendValue child false)
        (items.flatMap (canonical child) ++ rest, builder)) rest
      (Within child (column ++ items)) fun builder' =>
        Represents child builder' (column ++ items) := by
  induction items generalizing builder column with
  | nil =>
    rw [List.append_nil]
    exact .inl ⟨hwithin, builder, rfl, hrep⟩
  | cons item items ihi =>
    rw [List.flatMap_cons, List.append_assoc, List.length_cons, times]
    rcases ih item builder column (items.flatMap (canonical child) ++ rest)
      (hfits item List.mem_cons_self) (hlogical item List.mem_cons_self) hrep hwithin with
      ⟨hwithin', builder', hok, hrep'⟩ | ⟨hroom, e, s, herror⟩
    · rw [bind_of_ok hok]
      have hrest := ihi (fun i hi => hfits i (List.mem_cons_of_mem _ hi))
        (fun i hi => hlogical i (List.mem_cons_of_mem _ hi)) hrep' hwithin'
      rwa [List.append_assoc, List.singleton_append] at hrest
    · refine .inr ⟨fun h => hroom (h.sublist child ?_), e, s, bind_of_error herror⟩
      exact (List.Sublist.refl column).append (List.singleton_sublist.mpr List.mem_cons_self)

theorem appendFields_appends {fields : List Field} {index : Nat} {builders : List Builder}
    {column : List Value} {value : Value} (rest : Bytes)
    (ih : ∀ f ∈ fields, AppendsValue f) (hfits : FitsAll fields (childrenFrom fields index value))
    (hlogical : ∀ child ∈ childrenFrom fields index value, child.logical = child)
    (hrep : RepresentsAll fields index builders column)
    (hwithin : WithinAll fields index column) :
    Outcome (appendFields fields false
        (canonicalAll fields (childrenFrom fields index value) ++ rest, builders)) rest
      (WithinAll fields index (column ++ [value])) fun builders' =>
        RepresentsAll fields index builders' (column ++ [value]) := by
  induction fields generalizing index builders with
  | nil =>
    cases builders with
    | nil =>
      refine .inl ⟨by simp [WithinAll], [], ?_, by simp [RepresentsAll]⟩
      rw [appendFields, canonicalAll.eq_def]
      rfl
    | cons builder builders => simp [RepresentsAll] at hrep
  | cons field fields ihf =>
    obtain ⟨builder, builders, rfl, hfirst, hrest⟩ := representsAll_cons.mp hrep
    rw [childrenFrom, FitsAll] at hfits
    rw [childrenFrom, List.forall_mem_cons] at hlogical
    rw [WithinAll] at hwithin
    rw [childrenFrom, canonicalAll, List.append_assoc, appendFields, WithinAll, List.map_append]
    rcases ih field List.mem_cons_self _ builder _
      (canonicalAll fields (childrenFrom fields (index + 1) value) ++ rest) hfits.1 hlogical.1
      hfirst hwithin.1 with ⟨hwithin', builder', hok, hrep'⟩ | ⟨hroom, e, ⟨t, b⟩, herror⟩
    · dsimp only
      rw [hok]
      dsimp only
      rcases ihf (fun f hf => ih f (List.mem_cons_of_mem _ hf)) hfits.2 hlogical.2 hrest hwithin.2
        with ⟨hwithins, builders', hoks, hreps⟩ | ⟨hroom, e, ⟨t, bs⟩, herror⟩
      · rw [hoks]
        refine .inl ⟨⟨hwithin', hwithins⟩, builder' :: builders', rfl, representsAll_cons.mpr ?_⟩
        rw [List.map_append]
        exact ⟨builder', builders', rfl, hrep', hreps⟩
      · rw [herror]
        exact .inr ⟨fun h => hroom h.2, e, _, rfl⟩
    · dsimp only
      rw [herror]
      exact .inr ⟨fun h => hroom h.1, e, _, rfl⟩

/-- Strings and binaries go through one value buffer. -/
theorem bytesSlot_outcome {kind : Flat} {dataType : DataType}
    {decode : Bytes → Except RowError Value} {bytes rest : Bytes} {value : Value}
    {column : List Value} (hlength : bytes.length < 2 ^ 31)
    (hdecode : decode bytes = .ok value) (hvalue : value.byteLength = bytes.length)
    (hkind : flatKind dataType = some kind) :
    Outcome (appendFlat kind (optionSlot true (bytesSlot decode))
        (toBE 8 bytes.length ++ (bytes ++ rest), .flat kind column)) rest
      (((column ++ [value]).map Value.byteLength).sum < 2 ^ 31) fun builder =>
        Built dataType builder (column ++ [value]) := by
  have hsum : ((column ++ [value]).map Value.byteLength).sum =
      Builder.valuesLength column + bytes.length := by
    rw [List.map_append, List.sum_append, List.map_singleton, List.sum_singleton, hvalue]
    rfl
  have hread : RowCursor.bytes (toBE 8 bytes.length ++ (bytes ++ rest)) = .ok bytes rest :=
    RowCursor.bytes_eq_ok.mpr ⟨by omega, rfl⟩
  rw [hsum]
  by_cases hroom : 2 ^ 31 ≤ Builder.valuesLength column + bytes.length
  · refine .inr ⟨by omega, .lengthOverflow, (rest, .flat kind column), ?_⟩
    unfold appendFlat optionSlot bytesSlot
    dsimp only
    rw [if_pos rfl, if_pos rfl, bind_of_ok hread, if_pos hroom]
    rfl
  · refine .inl ⟨by omega, .flat kind (column ++ [value]), appendFlat_eq ?_, .flat hkind⟩
    unfold optionSlot bytesSlot
    rw [if_pos rfl, bind_of_ok hread, if_neg hroom, hdecode]
    rfl

/-- On the bytes of a value the appender extends the column by it. -/
theorem appendValue_appends (field : Field) : AppendsValue field := by
  induction field using Field.induction with
  | step name dataType nullable ihList ihStruct =>
    intro value builder column rest hfits hlogical hrep hwithin
    by_cases hnull : value.isNull = true
    · obtain rfl : value = .null := by rw [← hlogical, logical_of_isNull hnull]
      rw [canonical_of_isNull rfl, List.singleton_append, appendValue_null, ← appendValue_absent]
      obtain ⟨builder', hok, hrep'⟩ := appendSlot_null _ builder column rest hrep
      exact .inl ⟨hwithin.null, builder', hok, hrep'⟩
    simp only [represents_iff] at hrep ⊢
    cases hfits.slot with
    | nullType => exact absurd rfl hnull
    | null _ htrue => exact absurd htrue hnull
    | @boolean _ b =>
      cases hrep with
      | flat hkind =>
        cases hkind
        rw [canonical, List.cons_append, appendValue_present, appendSlot]
        refine .inl ⟨by simp [Within], _, appendFlat_eq ?_, .flat rfl⟩
        cases b <;> rfl
    | @fixed type _ bits =>
      cases hrep with
      | flat hkind =>
        cases hkind
        obtain ⟨k, hk⟩ := type.width_eq_succ
        rw [canonical, List.cons_append, appendValue_present, appendSlot]
        refine .inl ⟨by simp [Within], _, appendFlat_eq ?_, .flat rfl⟩
        show fixedSlot type column _ = _
        rw [fixedSlot, bind_of_ok (RowCursor.take_eq_ok.mpr ⟨type.length_beBytes bits, rfl⟩),
          fromBeBytes_beBytes (by rw [hk])]
        rfl
    | @utf8 _ value hlength =>
      cases hrep with
      | flat hkind =>
        cases hkind
        rw [canonical, List.cons_append, List.append_assoc, appendValue_present, appendSlot, Within]
        have hdecode : utf8Slot (utf8Bytes value) = .ok (.utf8 value) := by
          unfold utf8Slot
          rw [fromUtf8_eq_some.mpr rfl]
        exact bytesSlot_outcome hlength hdecode rfl rfl
    | @binary _ value hlength =>
      cases hrep with
      | flat hkind =>
        cases hkind
        rw [canonical, List.cons_append, List.append_assoc, appendValue_present, appendSlot, Within]
        have hdecode : binarySlot value = .ok (.binary value) := rfl
        exact bytesSlot_outcome hlength hdecode rfl rfl
    | @list child _ items hlength hitems =>
      cases hrep with
      | flat hkind => cases hkind
      | @list _ values _ hvalues =>
        rw [Value.logical, Value.logicalAll_eq_map, Value.list.injEq] at hlogical
        rw [Within] at hwithin
        rw [canonical, List.cons_append, List.append_assoc, appendValue_present, appendSlot, Within]
        dsimp only
        rw [if_pos rfl, bind_of_ok (RowCursor.lift_eq_ok.mpr
          ⟨_, RowCursor.length_eq_ok.mpr ⟨by omega, rfl⟩, rfl⟩), List.flatMap_append,
          List.flatMap_singleton, Value.items, List.length_append, ← hvalues.length]
        by_cases hroom : 2 ^ 31 ≤ values.length + items.length
        · rw [if_pos hroom]
          exact .inr ⟨fun h => absurd h.1 (by omega), _, _, rfl⟩
        rw [if_neg hroom]
        rcases times_appends (ihList child rfl) rest hitems (fun _ => logical_mem hlogical) hvalues
          hwithin.2 with ⟨hwithin', values', hok, hrep'⟩ | ⟨hfull, e, ⟨t, b⟩, herror⟩
        · rw [hok]
          refine .inl ⟨⟨by omega, hwithin'⟩,
            .list (offsets 0 (column ++ [.list items])) values', ?_, .list ?_⟩
          · have hlen := hrep'.length
            rw [List.length_append] at hlen
            rw [offsets_append, Nat.zero_add, Value.items, ← hlen]
            rfl
          · rw [List.flatMap_append, List.flatMap_singleton]
            exact hrep'
        · rw [herror]
          exact .inr ⟨fun h => hfull h.2, e, _, rfl⟩
    | @struct fields _ children hchildren =>
      cases hrep with
      | flat hkind => cases hkind
      | @struct _ builders _ hbuilders =>
        rw [Value.logical, Value.logicalAll_eq_map, Value.struct.injEq] at hlogical
        rw [Within] at hwithin
        rw [canonical, List.cons_append, appendValue_present, appendSlot, Within]
        dsimp only
        have hfrom : childrenFrom fields 0 (.struct children) = children :=
          childrenFrom_struct hchildren
        have houtcome := appendFields_appends rest (ihStruct fields rfl) (by rwa [hfrom])
          (by rw [hfrom]; exact fun _ => logical_mem hlogical) hbuilders hwithin
        rw [hfrom] at houtcome
        rcases houtcome with
          ⟨hwithin', builders', hok, hrep'⟩ | ⟨hfull, e, ⟨t, b⟩, herror⟩
        · have hfields : appendFields fields (!true)
              (canonicalAll fields children ++ rest, builders) = .ok () (rest, builders') := hok
          rw [hfields]
          refine .inl ⟨hwithin',
            .struct ((column ++ [Value.struct children]).map fun value => !value.isNull) builders',
            ?_, .struct hrep'⟩
          rw [List.map_append]
          rfl
        · have hfields : appendFields fields (!true)
              (canonicalAll fields children ++ rest, builders) = .error e (t, b) := herror
          rw [hfields]
          exact .inr ⟨hfull, e, _, rfl⟩

/-! ## Finished builders -/

/-- A finished slot of a value: nulls may have children behind them. -/
def Finished (field : Field) (value slot : Value) : Prop :=
  slot.logical = value ∧ (Fits field value → Fits field slot)

/-- The values a column may hold: those of the field, and nulls below a null. -/
def Holdable (field : Field) (value : Value) : Prop :=
  value.logical = value ∧ (Fits field value ∨ value = .null)

/-- The finished slots of a field's builders. -/
def Finishes (field : Field) : Prop :=
  ∀ builder column, Represents field builder column → (∀ value ∈ column, Holdable field value) →
    List.Forall₂ (Finished field) column builder.finish

theorem finished_logical {field : Field} {values slots : List Value}
    (h : List.Forall₂ (Finished field) values slots) : slots.map Value.logical = values := by
  induction h with
  | nil => rfl
  | cons hfirst _ ih => rw [List.map_cons, hfirst.1, ih]

theorem finished_fits {field : Field} {values slots : List Value}
    (h : List.Forall₂ (Finished field) values slots) (hfits : ∀ value ∈ values, Fits field value) :
    ∀ slot ∈ slots, Fits field slot := by
  induction h with
  | nil => simp
  | cons hfirst _ ih =>
    rw [List.forall_mem_cons] at hfits ⊢
    exact ⟨hfirst.2 hfits.1, ih hfits.2⟩

theorem listSlots_finished {name : String} {child : Field} {nullable : Bool}
    {values : List Value} {column : List Value} (before : List Value)
    (hvalues : List.Forall₂ (Finished child) (before ++ column.flatMap Value.items) values)
    (hcolumn : ∀ value ∈ column, Holdable (.mk name (.list child) nullable) value) :
    List.Forall₂ (Finished (.mk name (.list child) nullable)) column
      (Builder.listSlots values before.length (offsets before.length column)) := by
  induction column generalizing before with
  | nil => exact .nil
  | cons value column ih =>
    rw [List.flatMap_cons, ← List.append_assoc] at hvalues
    have hrest := ih _ hvalues fun v hv => hcolumn v (List.mem_cons_of_mem _ hv)
    rw [List.length_append] at hrest
    rw [offsets, Builder.listSlots]
    refine .cons ?_ hrest
    obtain ⟨hlogical, hfits | rfl⟩ := hcolumn value List.mem_cons_self
    · cases hfits.slot with
      | null hne hnull =>
        rw [hnull]
        refine ⟨?_, fun h => ?_⟩
        · rw [← hlogical, logical_of_isNull hnull]
          exact logical_of_isNull rfl
        · rw [← hlogical, logical_of_isNull hnull] at h
          exact h
      | @list _ _ items hlength hitems =>
        -- the slot is the part of the values that its offsets enclose
        have hpart : List.Forall₂ (Finished child) items
            ((values.take (before.length + items.length)).drop before.length) := by
          have h := List.forall₂_drop before.length
            (List.forall₂_take (before.length + items.length) hvalues)
          rw [Value.items, ← List.length_append, List.take_left, List.drop_left,
            List.length_append] at h
          exact h
        have hlen := hpart.length_eq
        refine ⟨?_, fun _ => ?_⟩
        · show Value.logical (.list _) = _
          rw [Value.logical, Value.logicalAll_eq_map, Value.items, finished_logical hpart]
        · show Fits _ (.list _)
          rw [Fits, Value.items]
          exact ⟨by omega, finished_fits hpart hitems⟩
    · exact ⟨logical_of_isNull rfl, id⟩

/-- The finished children of a row. -/
def FinishedAll : List Field → List Value → List Value → Prop
  | field :: fields, value :: values, slot :: slots =>
    Finished field value slot ∧ FinishedAll fields values slots
  | [], [], [] => True
  | _, _, _ => False

theorem FinishedAll.logical {fields : List Field} {values slots : List Value}
    (h : FinishedAll fields values slots) :
    slots.map Value.logical = values ∧ slots.length = fields.length ∧
      (FitsAll fields values → FitsAll fields slots) := by
  induction fields generalizing values slots with
  | nil =>
    cases values <;> cases slots <;> simp_all [FinishedAll]
  | cons field fields ih =>
    cases values with
    | nil => cases slots <;> simp [FinishedAll] at h
    | cons value values =>
      cases slots with
      | nil => simp [FinishedAll] at h
      | cons slot slots =>
        rw [FinishedAll] at h
        obtain ⟨hlogical, hlength, hfits⟩ := ih h.2
        rw [List.map_cons, h.1.1, hlogical, List.length_cons, hlength, FitsAll, FitsAll]
        exact ⟨rfl, rfl, fun hall => ⟨h.1.2 hall.1, hfits hall.2⟩⟩

/-- The values the columns of some fields may hold in one row. -/
def HoldableAll (fields : List Field) (index : Nat) (value : Value) : Prop :=
  List.Forall₂ Holdable fields (childrenFrom fields index value)

theorem holdable_of_fits {fields : List Field} {values : List Value}
    (hfits : FitsAll fields values) (hlogical : ∀ value ∈ values, value.logical = value) :
    List.Forall₂ Holdable fields values := by
  rw [fitsAll_iff] at hfits
  induction hfits with
  | nil => exact .nil
  | cons hfirst _ ih =>
    rw [List.forall_mem_cons] at hlogical
    exact .cons ⟨hlogical.1, .inl hfirst⟩ (ih hlogical.2)

theorem holdable_null (fields : List Field) :
    List.Forall₂ Holdable fields (List.replicate fields.length .null) := by
  induction fields with
  | nil => exact .nil
  | cons field fields ih => exact .cons ⟨logical_of_isNull rfl, .inr rfl⟩ ih

/-- The children of the slots of a struct, from one of its fields on. -/
theorem rowValues_finished {fields : List Field} {index : Nat} {builders : List Builder}
    {column : List Value} (ih : ∀ f ∈ fields, Finishes f)
    (hrep : RepresentsAll fields index builders column)
    (hcolumn : ∀ value ∈ column, HoldableAll fields index value) (i : Nat)
    (hi : i < column.length) :
    FinishedAll fields (childrenFrom fields index column[i])
      (rowValues (Builder.finishAll builders) i) := by
  induction fields generalizing index builders with
  | nil =>
    cases builders with
    | cons builder builders => simp [RepresentsAll] at hrep
    | nil => rw [Builder.finishAll, rowValues, List.map_nil, childrenFrom, FinishedAll]; trivial
  | cons field fields ihf =>
    obtain ⟨builder, builders, rfl, hfirst, hrest⟩ := representsAll_cons.mp hrep
    simp only [HoldableAll, childrenFrom, List.forall₂_cons] at hcolumn
    have hchild := ih field List.mem_cons_self builder _ hfirst
      (List.forall_mem_map.mpr fun value hvalue => (hcolumn value hvalue).1)
    have htail := ihf (fun f hf => ih f (List.mem_cons_of_mem _ hf)) hrest
      fun value hvalue => (hcolumn value hvalue).2
    have hlen : i < builder.finish.length := by
      have := hchild.length_eq
      rw [List.length_map] at this
      omega
    -- the slot of the first child at this row
    have hslot := hchild.get (by rwa [List.length_map]) hlen
    rw [List.get_eq_getElem, List.get_eq_getElem, List.getElem_map] at hslot
    rw [Builder.finishAll, rowValues, List.map_cons, childrenFrom, FinishedAll, List.getD,
      List.getElem?_eq_getElem hlen]
    exact ⟨hslot, htail⟩

theorem structSlots_finished {field : Field} {columns : List (List Value)} {index : Nat}
    {column : List Value}
    (h : ∀ i (hi : i < column.length), Finished field column[i]
      (if !column[i].isNull then .struct (rowValues columns (index + i))
        else .masked (rowValues columns (index + i)))) :
    List.Forall₂ (Finished field) column (Builder.structSlots columns index
      (column.map fun value => !value.isNull)) := by
  induction column generalizing index with
  | nil => exact .nil
  | cons value column ih =>
    rw [List.map_cons, Builder.structSlots]
    refine .cons (h 0 (Nat.succ_pos _)) (ih fun i hi => ?_)
    have hnext := h (i + 1) (Nat.succ_lt_succ hi)
    rwa [List.getElem_cons_succ, show index + (i + 1) = index + 1 + i by omega] at hnext

/-- A finished builder has a slot for every value of its column. -/
theorem Represents.finish (field : Field) : Finishes field := by
  induction field using Field.induction with
  | step name dataType nullable ihList ihStruct =>
    intro builder column hrep hcolumn
    cases represents_iff.mp hrep with
    | flat =>
      rw [Builder.finish]
      exact List.forall₂_same.mpr fun value hvalue => ⟨(hcolumn value hvalue).1, id⟩
    | @list child values _ hvalues =>
      rw [Builder.finish]
      refine listSlots_finished [] (ihList child rfl values _ hvalues ?_) hcolumn
      intro item hitem
      obtain ⟨value, hvalue, hmem⟩ := List.mem_flatMap.mp hitem
      obtain ⟨hlogical, hfits | rfl⟩ := hcolumn value hvalue
      · cases hfits.slot with
        | null hne hnull =>
          rw [← hlogical, logical_of_isNull hnull] at hmem
          cases hmem
        | @list _ _ items hlength hitems =>
          rw [Value.logical, Value.logicalAll_eq_map, Value.list.injEq] at hlogical
          exact ⟨logical_mem hlogical hmem, .inl (hitems item hmem)⟩
      · cases hmem
    | @struct fields children _ hchildren =>
      rw [Builder.finish]
      have hrows : ∀ value ∈ column, HoldableAll fields 0 value := by
        intro value hvalue
        unfold HoldableAll
        obtain ⟨hlogical, hfits | rfl⟩ := hcolumn value hvalue
        · cases hfits.slot with
          | null hne hnull =>
            rw [← hlogical, logical_of_isNull hnull, childrenFrom_null]
            exact holdable_null fields
          | @struct _ _ values hvalues =>
            rw [Value.logical, Value.logicalAll_eq_map, Value.struct.injEq] at hlogical
            rw [childrenFrom_struct hvalues]
            exact holdable_of_fits hvalues fun _ => logical_mem hlogical
        · rw [childrenFrom_null]
          exact holdable_null fields
      refine structSlots_finished fun i hi => ?_
      rw [Nat.zero_add]
      obtain ⟨hlogicals, hlength, hrow⟩ :=
        (rowValues_finished (ihStruct fields rfl) hchildren hrows i hi).logical
      have hmem := List.getElem_mem hi
      generalize column[i] = value at hmem hlogicals hrow
      by_cases hnull : value.isNull = true
      · rw [hnull]
        refine ⟨?_, fun h => ?_⟩
        · rw [← (hcolumn value hmem).1, logical_of_isNull hnull]
          exact logical_of_isNull rfl
        · show Fits _ (.masked _)
          rw [Fits]
          refine ⟨?_, hlength⟩
          cases h.slot with
          | null => rfl
          | struct => cases hnull
      · obtain ⟨hlogical, hfits | rfl⟩ := hcolumn value hmem
        · cases hfits.slot with
          | null _ htrue => exact absurd htrue hnull
          | @struct _ _ values hvalues =>
            have hfrom : childrenFrom fields 0 (.struct values) = values :=
              childrenFrom_struct hvalues
            rw [hfrom] at hlogicals hrow
            refine ⟨?_, fun _ => ?_⟩
            · show Value.logical (.struct _) = _
              rw [Value.logical, Value.logicalAll_eq_map, hlogicals]
            · show Fits _ (.struct _)
              rw [Fits]
              exact hrow hvalues
        · exact absurd rfl hnull

end Dogpaddle.Canonical
