import Dogpaddle.Canonical.Rows

/-!
# The canonical row codec is exact

* Decoding the encodings of rows of a batch gives these rows back, under any allowance that
  covers them (`decodeCanonicalRowsBounded_spends`).
* Rows with the same encoding are equal, and no encoding is the beginning of another
  (`canonicalRow_append_inj`).
* What the decoder accepts are the encodings of the rows it returns
  (`decodeCanonicalRowsBounded_strict`).

Rows are compared by their logical values: floats by their bits, and a null by being one.
-/

namespace Dogpaddle.Canonical

open Lib Dogpaddle.Relation

/-! ## Spending the allowance -/

section Spending

variable {ε S : Type} [RowFailure ε]

/-- The scope after a charge. -/
def spend (n : Nat) (s : Scope S) : Scope S :=
  { s with budget := { s.budget with remainingBytes := s.budget.remainingBytes - n } }

/-- Succeeds and charges a number when the allowance covers it. -/
def Spends (x : Attempt ε S Unit) (n : Nat) : Prop :=
  ∀ s : Scope S, n ≤ s.budget.remainingBytes → s.budget.remainingBytes < usize →
    x s = .ok () (spend n s)

variable {x y : Attempt ε S Unit} {m n : Nat}

theorem spend_spend (m n : Nat) (s : Scope S) : spend n (spend m s) = spend (m + n) s := by
  unfold spend
  rw [Nat.sub_sub]

omit [RowFailure ε] in
theorem Spends.bind {α : Type} {f : Unit → Attempt ε S α} (hx : Spends x m) {s : Scope S}
    (hle : m ≤ s.budget.remainingBytes) (hlt : s.budget.remainingBytes < usize) :
    (x >>= f) s = f () (spend m s) :=
  bind_of_ok (hx s hle hlt)

omit [RowFailure ε] in
theorem Spends.seq (hx : Spends x m) (hy : Spends y n) : Spends (x >>= fun _ => y) (m + n) := by
  intro s hle hlt
  rw [hx.bind (by omega) hlt, hy (spend m s) (by show _ ≤ _ - _; omega)
    (by show _ - _ < _; omega), spend_spend]

theorem Spends.charge (n : Nat) : Spends (StepBudget.charge n : Attempt ε S Unit) n := by
  intro s hle _
  unfold StepBudget.charge
  rw [if_pos hle]
  rfl

theorem Spends.counted {f : Nat → Except RowError Nat}
    (hf : ∀ limit, Room (some limit) n → f limit = .ok n) :
    Spends (chargeCounted f : Attempt ε S Unit) n := by
  intro s hle hlt
  have hcount := hf s.budget.remainingBytes (room_some.mpr ⟨by omega, hle⟩)
  unfold chargeCounted
  rw [bind_of_ok (get_eq_ok.mpr ⟨rfl, rfl⟩), hcount]
  exact Spends.charge n s hle hlt

omit [RowFailure ε] in
theorem Spends.forM {α : Type} {f : α → Attempt ε S Unit} {g : α → Nat} {items : List α}
    (h : ∀ item ∈ items, Spends (f item) (g item)) : Spends (items.forM f) (items.map g).sum := by
  induction items with
  | nil => exact fun s _ _ => rfl
  | cons item items ih =>
    rw [List.map_cons, List.sum_cons]
    exact .seq (h item List.mem_cons_self) (ih fun i hi => h i (List.mem_cons_of_mem _ hi))

theorem decodedArrayShape_eq {field : Field} {rows limit : Nat}
    (h : Room (some limit) (shapeSize field rows)) :
    decodedArrayShape field rows 0 limit = .ok (shapeSize field rows) := by
  have hadds := (decodedArrayShape_adds limit field rows 0 (h.mono (Nat.zero_le _))).1
  rw [Nat.zero_add] at hadds
  exact hadds h

/-- The Arrow bytes of empty columns. -/
def batchShape (schema : Schema) : Nat :=
  saturatingMul schema.length (2 * arrayRef) + (schema.map fun field => shapeSize field 0).sum

theorem admitBatchShape_spends (schema : Schema) :
    Spends (admitBatchShape schema : Attempt ε S Unit) (batchShape schema) :=
  .seq (.charge _) (.forM fun _ _ => .counted fun _ => decodedArrayShape_eq)

theorem admitRow_spends {schema : Schema} {values : List Value} (h : FitsAll schema values) :
    Spends (admitRow schema (canonicalAll schema values) : Attempt ε S Unit)
      (valueSizes schema values) :=
  .counted fun _ => decodedSize_complete h

/-! ## What was admitted -/

omit [RowFailure ε] in
theorem forM_eq_ok {α : Type} {f : α → Attempt ε S Unit} {P : α → Prop}
    (hf : ∀ a s s', f a s = .ok () s' → P a) {items : List α} {s s' : Scope S}
    (h : items.forM f s = .ok () s') : ∀ item ∈ items, P item := by
  induction items generalizing s with
  | nil => simp
  | cons item items ih =>
    obtain ⟨_, t, hfirst, hrest⟩ := bind_eq_ok.mp h
    exact List.forall_mem_cons.mpr ⟨hf item s t hfirst, ih hrest⟩

omit [RowFailure ε] in
theorem exists_forall₂ {α β : Type} {R : α → β → Prop} {items : List α}
    (h : ∀ item ∈ items, ∃ b, R item b) : ∃ bs, List.Forall₂ R items bs := by
  induction items with
  | nil => exact ⟨[], .nil⟩
  | cons item items ih =>
    obtain ⟨⟨b, hb⟩, hrest⟩ := List.forall_mem_cons.mp h
    obtain ⟨bs, hbs⟩ := ih hrest
    exact ⟨b :: bs, .cons hb hbs⟩

theorem chargeCounted_eq_ok {f : Nat → Except RowError Nat} {s s' : Scope S}
    (h : (chargeCounted f : Attempt ε S Unit) s = .ok () s') :
    ∃ limit size, f limit = .ok size := by
  unfold chargeCounted at h
  obtain ⟨t, u, hget, h⟩ := bind_eq_ok.mp h
  obtain ⟨size, v, hcount, -⟩ := bind_eq_ok.mp h
  obtain ⟨hmap, -⟩ := ofExcept_eq_ok.mp hcount
  exact ⟨_, size, mapError_eq_ok.mp hmap⟩

theorem admitRow_sound {schema : Schema} {encoded : Bytes} {s s' : Scope S}
    (h : (admitRow schema encoded : Attempt ε S Unit) s = .ok () s') :
    ∃ values, RowOf schema encoded values := by
  obtain ⟨limit, size, hsize⟩ := chargeCounted_eq_ok h
  exact decodedSize_sound hsize

end Spending

/-! ## Finished pages -/

/-- The columns of a page are arrays of their fields. -/
theorem columnOf_finish {fields : List Field} {index : Nat} {builders : List Builder}
    {column : List Value} (hrep : RepresentsAll fields index builders column)
    (hwithin : WithinAll fields index column)
    (hrows : ∀ value ∈ column, FitsAll fields (childrenFrom fields index value) ∧
      ∀ child ∈ childrenFrom fields index value, child.logical = child) :
    List.Forall₂ (ColumnOf column.length) fields (Builder.finishAll builders) := by
  induction fields generalizing index builders with
  | nil =>
    cases builders with
    | nil => rw [Builder.finishAll]; exact .nil
    | cons builder builders => simp [RepresentsAll] at hrep
  | cons field fields ih =>
    obtain ⟨builder, builders, rfl, hfirst, hrest⟩ := representsAll_cons.mp hrep
    rw [WithinAll] at hwithin
    simp only [childrenFrom, FitsAll, List.forall_mem_cons] at hrows
    have hfits : ∀ value ∈ column.map (Value.child index), Fits field value :=
      List.forall_mem_map.mpr fun value hvalue => (hrows value hvalue).1.1
    have hfinish := Represents.finish field builder _ hfirst
      (List.forall_mem_map.mpr fun value hvalue =>
        ⟨(hrows value hvalue).2.1, .inl (hrows value hvalue).1.1⟩)
    rw [Builder.finishAll]
    refine .cons ⟨?_, finished_fits hfinish hfits, ?_⟩ (ih hrest hwithin.2 ?_)
    · rw [← hfinish.length_eq, List.length_map]
    · rw [finished_logical hfinish]
      exact hwithin.1
    · exact fun value hvalue => ⟨(hrows value hvalue).1.2, (hrows value hvalue).2.2⟩

/-- The rows of a decoded page. -/
structure PageOf (schema : Schema) (rows : List (List Value)) (columns : List (List Value)) :
    Prop where
  valid : List.Forall₂ (ColumnOf rows.length) schema columns
  row_eq : ∀ i (h : i < rows.length), (rowValues columns i).map Value.logical = rows[i]

theorem pageOf_finish {schema : Schema} {builders : List Builder} {rows : List (List Value)}
    (hrep : HoldsRows schema builders rows) (hwithin : RowsWithin schema rows)
    (hfits : ∀ row ∈ rows, FitsAll schema row)
    (hlogical : ∀ row ∈ rows, row.map Value.logical = row) :
    PageOf schema rows (Builder.finishAll builders) := by
  have hrows : ∀ value ∈ rows.map Value.struct, FitsAll schema (childrenFrom schema 0 value) ∧
      ∀ child ∈ childrenFrom schema 0 value, child.logical = child := by
    refine List.forall_mem_map.mpr fun row hrow => ?_
    rw [childrenFrom_struct (hfits row hrow)]
    exact ⟨hfits row hrow, fun _ => logical_mem (hlogical row hrow)⟩
  constructor
  · have hcolumns := columnOf_finish hrep hwithin hrows
    rwa [List.length_map] at hcolumns
  · intro i hi
    have hfinished := rowValues_finished (fun f _ => Represents.finish f) hrep
      (fun value hvalue => holdable_of_fits (hrows value hvalue).1 (hrows value hvalue).2) i
      (by rwa [List.length_map])
    rw [List.getElem_map, childrenFrom_struct (hfits _ (List.getElem_mem hi))] at hfinished
    exact hfinished.logical.1

/-- The constructor of batches admits the columns of a page. -/
theorem finishBuilders_eq {schema : Schema} {builders : List Builder} {count : Nat}
    (h : List.Forall₂ (ColumnOf count) schema (Builder.finishAll builders)) :
    finishBuilders schema builders count = .ok (Builder.finishAll builders) := by
  unfold finishBuilders
  refine if_pos ⟨h.length_eq.symm, ?_, ?_⟩
  · generalize Builder.finishAll builders = columns at h
    induction h with
    | nil => simp
    | cons hfirst _ ih => exact List.forall_mem_cons.mpr ⟨hfirst.length, ih⟩
  · intro entry hentry
    have hcolumn := (List.forall₂_iff_zip.mp h).2 hentry
    by_cases hnullable : entry.1.isNullable = true
    · exact .inl hnullable
    by_cases htype : entry.1.dataType.isNullType = true
    · exact .inr (.inl htype)
    refine .inr (.inr fun value hvalue => ?_)
    obtain ⟨⟨name, dataType, nullable⟩, column⟩ := entry
    cases (hcolumn.fits value hvalue).slot with
    | nullType => exact absurd rfl htype
    | null => exact absurd rfl hnullable
    | _ => rfl

/-! ## Decoding -/

/-- The values of rows of one schema. -/
theorem decodes_rows {schema : Schema} {rows : List Bytes} {values : List (List Value)}
    (h : List.Forall₂ (RowOf schema) rows values) :
    List.Forall₂ (fun fragments => Decodes [schema] (Fragments.toList fragments))
      (rows.map fun row => (some row, none)) values := by
  rw [List.forall₂_map_left_iff]
  refine h.imp fun row vs hrow => ?_
  have hdecodes : Decodes [schema] [some row, none] (vs ++ []) := .present hrow .nil
  rwa [List.append_nil] at hdecodes

theorem forM_map {ε σ α β : Type} {f : β → EStateM ε σ Unit} {g : α → β} (items : List α) :
    (items.map g).forM f = items.forM fun item => f (g item) := by
  induction items with
  | nil => rfl
  | cons item items ih =>
    show (f (g item) >>= fun _ => (items.map g).forM f) = _
    rw [ih]
    rfl

/-- Admitted rows are decoded exactly when the columns have room for them. -/
theorem decodeRows_eq {schema : Schema} {rows : List Bytes} {values : List (List Value)}
    (h : List.Forall₂ (RowOf schema) rows values) :
    (RowsWithin schema values ∧ ∃ columns, decodeRows schema rows = .ok columns ∧
      PageOf schema values columns) ∨
    (¬ RowsWithin schema values ∧ ∃ e, decodeRows schema rows = .error e) := by
  have hflatten : [schema].flatten = schema := List.flatten_singleton
  have hfits : ∀ row ∈ values, FitsAll schema row ∧ row.map Value.logical = row := by
    clear hflatten
    induction h with
    | nil => simp
    | cons hrow _ ih => exact List.forall_mem_cons.mpr ⟨⟨hrow.fits, hrow.logical⟩, ih⟩
  have hempty : HoldsRows [schema].flatten (rowBuilders schema) [] := by
    rw [hflatten]
    exact rowBuilders_represent 0 fun f _ => rowBuilder_represents f
  have hnone : RowsWithin [schema].flatten [] := withinAll_nil fun f _ => within_nil f
  have hextends := appendRows_appends (decodes_rows h) hempty hnone
  rw [hflatten, List.nil_append, forM_map] at hextends
  unfold decodeRows
  rcases hextends with ⟨hwithin, builders, hok, hrep⟩ | ⟨hfull, e, builders, herror⟩
  · have hpage := pageOf_finish hrep hwithin (fun row hrow => (hfits row hrow).1)
      fun row hrow => (hfits row hrow).2
    refine .inl ⟨hwithin, Builder.finishAll builders, ?_, hpage⟩
    rw [hok, h.length_eq]
    exact finishBuilders_eq hpage.valid
  · refine .inr ⟨hfull, e, ?_⟩
    rw [herror]

/-- The logical values of a row of a batch. -/
def RecordBatch.row (batch : RecordBatch) (index : Nat) : List Value :=
  (rowValues batch.columns index).map Value.logical

theorem map_range_getD {column : List Value} {rows : Nat} (h : column.length = rows) :
    (List.range rows).map (fun i => (column.getD i .null).logical) = column.map Value.logical := by
  subst h
  refine List.ext_getElem (by simp) fun i hi hi' => ?_
  rw [List.length_map] at hi'
  simp [List.getD, hi']

theorem withinAll_of_columns {fields : List Field} {rows : Nat} (before : List (List Value))
    {columns : List (List Value)} {indices : List Nat}
    (hvalid : List.Forall₂ (ColumnOf rows) fields columns)
    (hsub : indices.Sublist (List.range rows)) :
    WithinAll fields before.length (indices.map fun i =>
      .struct ((rowValues (before ++ columns) i).map Value.logical)) := by
  induction hvalid generalizing before with
  | nil => simp [WithinAll]
  | @cons field column fields columns hcolumn _ ih =>
    rw [WithinAll, List.map_map]
    constructor
    · refine Within.sublist field ?_ hcolumn.within
      rw [← map_range_getD hcolumn.length]
      have hmap : indices.map (Value.child before.length ∘ fun i =>
          .struct ((rowValues (before ++ column :: columns) i).map Value.logical)) =
          indices.map fun i => (column.getD i .null).logical := by
        refine List.map_congr_left fun i _ => ?_
        simp [Value.child, rowValues]
      rw [hmap]
      exact hsub.map _
    · have hrest := ih (before ++ [column])
      rwa [List.append_assoc, List.singleton_append, List.length_append] at hrest

theorem RecordBatch.rowsWithin (batch : RecordBatch) {indices : List Nat}
    (h : indices.Sublist (List.range batch.numRows)) :
    RowsWithin batch.schema (indices.map batch.row) := by
  unfold RowsWithin
  rw [List.map_map]
  exact withinAll_of_columns [] batch.valid h

theorem RecordBatch.rowOf (batch : RecordBatch) {index : Nat} (h : index < batch.numRows) :
    RowOf batch.schema (batch.canonicalRow index) (batch.row index) := by
  have hfits := rowValues_fit batch.valid h
  refine ⟨fitsAll_logical hfits, ?_, ?_⟩
  · unfold RecordBatch.row
    rw [List.map_map]
    exact List.map_congr_left fun value _ => value.logical_logical
  · unfold RecordBatch.canonicalRow RecordBatch.row
    rw [canonicalAll_logical _ fun f _ => canonical_logical f]

section Codec

variable {ε S : Type} [RowFailure ε]

/-- The Arrow bytes of some rows of a batch. -/
def RecordBatch.pageSize (batch : RecordBatch) (indices : List Nat) : Nat :=
  batchShape batch.schema +
    (indices.map fun index => valueSizes batch.schema (batch.row index)).sum

/-- Admitting and decoding rows of a batch under an allowance that covers them. -/
theorem decodeCanonicalRowsBounded_spends (batch : RecordBatch) {indices : List Nat}
    (h : indices.Sublist (List.range batch.numRows)) {s : Scope S}
    (hle : batch.pageSize indices ≤ s.budget.remainingBytes)
    (hlt : s.budget.remainingBytes < usize) :
    ∃ columns, (decodeCanonicalRowsBounded batch.schema (indices.map batch.canonicalRow) :
        Attempt ε S (List (List Value))) s = .ok columns (spend (batch.pageSize indices) s) ∧
      PageOf batch.schema (indices.map batch.row) columns := by
  have hindex : ∀ index ∈ indices, index < batch.numRows := fun index hindex =>
    List.mem_range.mp (h.subset hindex)
  have hrows : List.Forall₂ (RowOf batch.schema) (indices.map batch.canonicalRow)
      (indices.map batch.row) := by
    rw [List.forall₂_map_left_iff, List.forall₂_map_right_iff, List.forall₂_same]
    exact fun index hmem => batch.rowOf (hindex index hmem)
  have hadmit : Spends ((indices.map batch.canonicalRow).forM (admitRow batch.schema) :
      Attempt ε S Unit)
      (indices.map fun index => valueSizes batch.schema (batch.row index)).sum := by
    rw [forM_map]
    refine .forM fun index hmem => ?_
    have hrow := batch.rowOf (hindex index hmem)
    rw [hrow.encoded_eq]
    exact admitRow_spends hrow.fits
  unfold RecordBatch.pageSize at hle ⊢
  rcases decodeRows_eq hrows with ⟨-, columns, hdecode, hpage⟩ | ⟨hfull, -⟩
  · refine ⟨columns, ?_, hpage⟩
    unfold decodeCanonicalRowsBounded
    rw [(admitBatchShape_spends batch.schema).bind (by omega) hlt,
      hadmit.bind (by show _ ≤ _ - _; omega) (by show _ - _ < _; omega), spend_spend, hdecode]
    rfl
  · exact absurd (batch.rowsWithin h) hfull

/-- Accepted rows are the encodings of the rows of the batch they decode to. -/
theorem decodeCanonicalRowsBounded_strict {schema : Schema} {rows : List Bytes}
    {columns : List (List Value)} {s s' : Scope S}
    (h : (decodeCanonicalRowsBounded schema rows : Attempt ε S (List (List Value))) s =
      .ok columns s') :
    ∃ batch : RecordBatch, batch.schema = schema ∧ batch.numRows = rows.length ∧
      batch.columns = columns ∧ ∀ i (h : i < rows.length), batch.canonicalRow i = rows[i] := by
  unfold decodeCanonicalRowsBounded at h
  obtain ⟨_, t, -, h⟩ := bind_eq_ok.mp h
  obtain ⟨_, u, hadmit, h⟩ := bind_eq_ok.mp h
  obtain ⟨hmap, -⟩ := ofExcept_eq_ok.mp h
  have hdecode := mapError_eq_ok.mp hmap
  obtain ⟨values, hvalues⟩ :=
    exists_forall₂ (forM_eq_ok (fun _ _ _ h => admitRow_sound h) hadmit)
  rcases decodeRows_eq hvalues with ⟨-, columns', hok, hpage⟩ | ⟨-, e, herror⟩
  · rw [hok, Except.ok.injEq] at hdecode
    subst hdecode
    have hvalid := hpage.valid
    rw [← hvalues.length_eq] at hvalid
    refine ⟨⟨schema, rows.length, columns', hvalid⟩, rfl, rfl, rfl, fun i hi => ?_⟩
    have hrow := hvalues.get hi (by rw [← hvalues.length_eq]; exact hi)
    rw [List.get_eq_getElem, List.get_eq_getElem] at hrow
    rw [hrow.encoded_eq, ← hpage.row_eq i (by rw [← hvalues.length_eq]; exact hi)]
    exact (canonicalAll_logical _ fun f _ => canonical_logical f).symm
  · rw [herror] at hdecode
    cases hdecode

end Codec

/-- Encodings of one schema show their own end. -/
theorem canonicalRow_append_inj {batch batch' : RecordBatch}
    (hschema : batch.schema = batch'.schema) {index index' : Nat} (h : index < batch.numRows)
    (h' : index' < batch'.numRows) {rest : Bytes}
    (heq : batch.canonicalRow index ++ rest = batch'.canonicalRow index') :
    batch.row index = batch'.row index' ∧ rest = [] := by
  have hfits := rowValues_fit batch.valid h
  have hfits' := rowValues_fit batch'.valid h'
  unfold RecordBatch.canonicalRow at heq
  rw [← hschema] at heq hfits'
  rw [← List.append_nil (canonicalAll batch.schema (rowValues batch'.columns index'))] at heq
  exact canonicalAll_append_inj hfits hfits' (fun f _ => canonical_append_inj f) heq

/-- The encodings of rows of a batch are decoded to these rows, an encoding starts with another
of its schema only if the two rows are equal, and accepted bytes are the encodings of the rows
they are decoded to. -/
theorem canonical_codec_exact {ε S : Type} [RowFailure ε] (schema : Schema) :
    (∀ (batch : RecordBatch) (indices : List Nat) (rows : List Bytes) (maxBytes : Nat),
      batch.schema = schema → indices.Sublist (List.range batch.numRows) →
      List.Forall₂ (fun index bytes => canonicalRowBounded batch index maxBytes = .ok bytes)
        indices rows →
      ∃ need, ∀ s : Scope S, need ≤ s.budget.remainingBytes → s.budget.remainingBytes < usize →
        ∃ columns s', (decodeCanonicalRowsBounded schema rows :
            Attempt ε S (List (List Value))) s = .ok columns s' ∧
          ∀ k (h : k < indices.length),
            (rowValues columns k).map Value.logical = batch.row indices[k]) ∧
    (∀ (batch batch' : RecordBatch) (index index' maxBytes maxBytes' : Nat) (bytes bytes' : Bytes),
      batch.schema = schema → batch'.schema = schema →
      canonicalRowBounded batch index maxBytes = .ok bytes →
      canonicalRowBounded batch' index' maxBytes' = .ok bytes' → bytes <+: bytes' →
      bytes = bytes' ∧ batch.row index = batch'.row index') ∧
    (∀ (rows : List Bytes) (columns : List (List Value)) (s s' : Scope S),
      (decodeCanonicalRowsBounded schema rows : Attempt ε S (List (List Value))) s =
        .ok columns s' →
      ∃ batch : RecordBatch, batch.schema = schema ∧ batch.numRows = rows.length ∧
        batch.columns = columns ∧ ∀ k (h : k < rows.length) (maxBytes : Nat), maxBytes < usize →
          rows[k].length ≤ maxBytes → canonicalRowBounded batch k maxBytes = .ok rows[k]) := by
  refine ⟨?_, ?_, ?_⟩
  · rintro batch indices rows maxBytes rfl hsub hencoded
    obtain rfl : rows = indices.map batch.canonicalRow := by
      clear hsub
      induction hencoded with
      | nil => rfl
      | cons hfirst _ ih =>
        rw [List.map_cons, ih, (RecordBatch.canonicalRowBounded_eq_ok.mp hfirst).2.2]
    refine ⟨batch.pageSize indices, fun s hle hlt => ?_⟩
    obtain ⟨columns, hdecode, hpage⟩ :=
      decodeCanonicalRowsBounded_spends (ε := ε) batch hsub hle hlt
    refine ⟨columns, _, hdecode, fun k hk => ?_⟩
    rw [hpage.row_eq k (by rwa [List.length_map]), List.getElem_map]
  · rintro batch batch' index index' maxBytes maxBytes' bytes bytes' hschema hschema' h h' hprefix
    obtain ⟨hindex, -, rfl⟩ := RecordBatch.canonicalRowBounded_eq_ok.mp h
    obtain ⟨hindex', -, rfl⟩ := RecordBatch.canonicalRowBounded_eq_ok.mp h'
    obtain ⟨rest, heq⟩ := hprefix
    obtain ⟨hrow, rfl⟩ :=
      canonicalRow_append_inj (hschema.trans hschema'.symm) hindex hindex' heq
    rw [List.append_nil] at heq
    exact ⟨heq, hrow⟩
  · intro rows columns s s' h
    obtain ⟨batch, hschema, hrows, hcolumns, hall⟩ := decodeCanonicalRowsBounded_strict h
    refine ⟨batch, hschema, hrows, hcolumns, fun k hk maxBytes hword hle => ?_⟩
    refine RecordBatch.canonicalRowBounded_eq_ok.mpr ⟨by rw [hrows]; exact hk, ?_, (hall k hk).symm⟩
    exact room_some.mpr ⟨by omega, hle⟩

/-- Row errors, or nothing for an exhausted allowance. -/
instance : RowFailure (Option RowError) where
  budgetExceeded := none
  ofRow := some

theorem canonical_codec_exact_points :
    ∃ batch : RecordBatch, batch.schema = points.schema ∧ batch.numRows = 2 ∧
      canonicalRowBounded batch 0 64 = .ok (points.canonicalRow 0) ∧
      batch.row 1 = points.row 1 := by
  have hexact := canonical_codec_exact (ε := Option RowError) (S := Unit) points.schema
  obtain ⟨batch, hschema, hrows, hcolumns, hall⟩ :=
    hexact.2.2 [points.canonicalRow 0, points.canonicalRow 1] _ ⟨(), ⟨0, 4096⟩⟩ _ rfl
  refine ⟨batch, hschema, hrows, hall 0 (by decide) 64 (by decide) (by decide +kernel), ?_⟩
  have hsecond := hall 1 (by decide) 64 (by decide) (by decide +kernel)
  exact (hexact.2.1 batch points 1 1 64 64 _ _ hschema rfl hsecond rfl List.prefix_rfl).2

end Dogpaddle.Canonical
