import Dogpaddle.Canonical.Build

/-!
# Rows and fragments

A fragment is read like the children of a struct that is there, and an absent one like those
of a null struct. So the builders of all ports hold one column of structs, whose children are
the columns of the ports one after another, and what is proved of the fields of a struct
holds of the rows of a page.

* `decodedSize` accepts exactly the canonical rows (`decodedSize_sound`,
  `decodedSize_complete`).
* `appendRow` extends the column by the row its fragments decode to (`appendRows_appends`).
-/

namespace Dogpaddle.Canonical

open Lib Dogpaddle.Relation

/-! ## Admitted rows -/

/-- The values of a well-formed row. -/
structure RowOf (schema : Schema) (encoded : Bytes) (values : List Value) : Prop where
  fits : FitsAll schema values
  logical : values.map Value.logical = values
  encoded_eq : encoded = canonicalAll schema values

theorem RowOf.unique {schema : Schema} {encoded : Bytes} {values values' : List Value}
    (h : RowOf schema encoded values) (h' : RowOf schema encoded values') : values = values' := by
  have heq : canonicalAll schema values ++ [] = canonicalAll schema values' ++ [] := by
    rw [← h.encoded_eq, ← h'.encoded_eq]
  have hlogical := (canonicalAll_append_inj h.fits h'.fits
    (fun f _ => canonical_append_inj f) heq).1
  rwa [h.logical, h'.logical] at hlogical

theorem decodedSize_eq_ok {schema : Schema} {encoded : Bytes} {maxBytes n : Nat} :
    decodedSize schema encoded maxBytes = .ok n ↔
      checkFields schema maxBytes (encoded, 0) = .ok () ([], n) := by
  unfold decodedSize
  cases hcheck : checkFields schema maxBytes (encoded, 0) with
  | error e s => rw [bind_of_error hcheck]; simp
  | ok u s =>
    obtain ⟨rest, size⟩ := s
    rw [bind_of_ok hcheck]
    cases rest with
    | nil =>
      show Except.ok size = .ok n ↔ _
      simp
    | cons b rest =>
      show Except.error _ = .ok n ↔ _
      simp

/-- Only well-formed rows are admitted. -/
theorem decodedSize_sound {schema : Schema} {encoded : Bytes} {maxBytes n : Nat}
    (h : decodedSize schema encoded maxBytes = .ok n) : ∃ values, RowOf schema encoded values := by
  obtain ⟨values, hfits, hlogical, hencoded⟩ :=
    checkFields_sound (fun f _ => checkValue_sound maxBytes f) (decodedSize_eq_ok.mp h)
  rw [List.append_nil] at hencoded
  exact ⟨values, hfits, hlogical, hencoded⟩

/-- Well-formed rows are admitted when their Arrow bytes fit. -/
theorem decodedSize_complete {schema : Schema} {values : List Value} {maxBytes : Nat}
    (hfits : FitsAll schema values) (hroom : Room (some maxBytes) (valueSizes schema values)) :
    decodedSize schema (canonicalAll schema values) maxBytes = .ok (valueSizes schema values) := by
  have haccepts := checkFields_accepts hfits (fun f _ => checkValue_complete maxBytes f) [] 0
    (by rwa [Nat.zero_add])
  rw [List.append_nil, Nat.zero_add] at haccepts
  exact decodedSize_eq_ok.mpr haccepts

/-! ## Fragments -/

/-- The row of a fragment for each port; a port without one has nulls. Fragments of ports that
are not there are not read. -/
inductive Decodes : List Schema → List (Option Bytes) → List Value → Prop
  | nil {fragments : List (Option Bytes)} : Decodes [] fragments []
  | absent {schema : Schema} {schemas : List Schema} {fragments : List (Option Bytes)}
      {row : List Value} : Decodes schemas fragments row →
      Decodes (schema :: schemas) (none :: fragments)
        (List.replicate schema.length .null ++ row)
  | present {schema : Schema} {schemas : List Schema} {encoded : Bytes}
      {fragments : List (Option Bytes)} {values row : List Value} :
      RowOf schema encoded values → Decodes schemas fragments row →
      Decodes (schema :: schemas) (some encoded :: fragments) (values ++ row)

theorem Decodes.unique {schemas : List Schema} {fragments : List (Option Bytes)}
    {row row' : List Value} (h : Decodes schemas fragments row)
    (h' : Decodes schemas fragments row') : row = row' := by
  induction h generalizing row' with
  | nil => cases h'; rfl
  | absent _ ih =>
    cases h' with
    | absent h' => rw [ih h']
  | present hrow _ ih =>
    cases h' with
    | present hrow' h' => rw [hrow.unique hrow', ih h']

theorem FitsAll.length {fields : List Field} {values : List Value} (h : FitsAll fields values) :
    values.length = fields.length :=
  (fitsAll_iff.mp h).length_eq.symm

theorem Decodes.length {schemas : List Schema} {fragments : List (Option Bytes)}
    {row : List Value} (h : Decodes schemas fragments row) :
    row.length = schemas.flatten.length := by
  induction h with
  | nil => rfl
  | absent _ ih => rw [List.length_append, List.length_replicate, ih, List.flatten_cons,
      List.length_append]
  | present hrow _ ih => rw [List.length_append, hrow.fits.length, ih, List.flatten_cons,
      List.length_append]

/-! ## Columns of several ports -/

theorem childrenFrom_append (a b : List Field) (index : Nat) (value : Value) :
    childrenFrom (a ++ b) index value =
      childrenFrom a index value ++ childrenFrom b (index + a.length) value := by
  induction a generalizing index with
  | nil => rfl
  | cons field a ih =>
    rw [List.cons_append, childrenFrom, childrenFrom, ih, List.cons_append, List.length_cons,
      Nat.add_assoc, Nat.add_comm 1]

theorem length_childrenFrom (fields : List Field) (index : Nat) (value : Value) :
    (childrenFrom fields index value).length = fields.length := by
  induction fields generalizing index with
  | nil => rfl
  | cons field fields ih => rw [childrenFrom, List.length_cons, ih, List.length_cons]

theorem representsAll_append {a b : List Field} {index : Nat} {builders : List Builder}
    {column : List Value} :
    RepresentsAll (a ++ b) index builders column ↔ ∃ front back, builders = front ++ back ∧
      RepresentsAll a index front column ∧ RepresentsAll b (index + a.length) back column := by
  induction a generalizing index builders with
  | nil =>
    constructor
    · exact fun h => ⟨[], builders, rfl, by simp [RepresentsAll], h⟩
    · rintro ⟨front, back, rfl, hfront, hback⟩
      cases front with
      | nil => exact hback
      | cons builder front => simp [RepresentsAll] at hfront
  | cons field a ih =>
    rw [List.cons_append, representsAll_cons, List.length_cons, ← Nat.add_assoc,
      Nat.add_right_comm]
    constructor
    · rintro ⟨builder, rest, rfl, hfirst, hrest⟩
      obtain ⟨front, back, rfl, hfront, hback⟩ := ih.mp hrest
      exact ⟨builder :: front, back, rfl,
        representsAll_cons.mpr ⟨builder, front, rfl, hfirst, hfront⟩, hback⟩
    · rintro ⟨front, back, rfl, hfront, hback⟩
      obtain ⟨builder, front, rfl, hfirst, hrest⟩ := representsAll_cons.mp hfront
      exact ⟨builder, front ++ back, rfl, hfirst, ih.mpr ⟨front, back, rfl, hrest, hback⟩⟩

theorem withinAll_append {a b : List Field} {index : Nat} {column : List Value} :
    WithinAll (a ++ b) index column ↔
      WithinAll a index column ∧ WithinAll b (index + a.length) column := by
  induction a generalizing index with
  | nil => simp [WithinAll]
  | cons field a ih =>
    rw [List.cons_append, WithinAll, WithinAll, ih, and_assoc, List.length_cons,
      ← Nat.add_assoc, Nat.add_right_comm]

theorem RepresentsAll.length {fields : List Field} {index : Nat} {builders : List Builder}
    {column : List Value} (h : RepresentsAll fields index builders column) :
    builders.length = fields.length := by
  induction fields generalizing index builders with
  | nil =>
    cases builders with
    | nil => rfl
    | cons builder builders => simp [RepresentsAll] at h
  | cons field fields ih =>
    obtain ⟨builder, rest, rfl, -, hrest⟩ := representsAll_cons.mp h
    rw [List.length_cons, ih hrest, List.length_cons]

/-! ## Appending a row -/

/-- With a builder for each field, the columns of a port are like the fields of a struct. -/
theorem appendColumns_eq {fields : List Field} {absent : Bool} {input : Bytes}
    {builders : List Builder} (h : builders.length = fields.length) :
    appendColumns fields absent (input, builders) =
      appendFields fields absent (input, builders) := by
  induction fields generalizing builders input with
  | nil => rw [appendColumns, appendFields]
  | cons field fields ih =>
    cases builders with
    | nil => cases h
    | cons builder builders =>
      rw [appendColumns, appendFields]
      dsimp only
      cases appendValue field absent (input, builder) with
      | error e s => rfl
      | ok u s => simp only [ih (Nat.succ.inj h)]

/-- Leaves good builders when there is room, and fails otherwise. -/
def Extends (result : EStateM.Result RowError (List Builder) Unit) (room : Prop)
    (good : List Builder → Prop) : Prop :=
  (room ∧ ∃ builders, result = .ok () builders ∧ good builders) ∨
    (¬ room ∧ ∃ e builders, result = .error e builders)

theorem appendFragment_absent {schema : Schema} {index : Nat} {builders : List Builder}
    {column : List Value} {value : Value}
    (hnull : childrenFrom schema index value = List.replicate schema.length .null)
    (hrep : RepresentsAll schema index builders column)
    (hwithin : WithinAll schema index column) :
    Extends (appendFragment schema none builders) (WithinAll schema index (column ++ [value]))
      fun builders' => RepresentsAll schema index builders' (column ++ [value]) := by
  obtain ⟨builders', hok, hrep'⟩ :=
    appendFields_null [] hnull hrep fun f _ => appendSlot_null f
  rw [← appendColumns_eq hrep.length] at hok
  refine .inl ⟨hwithin.null hnull fun f _ => Within.null f, builders', ?_, hrep'⟩
  unfold appendFragment
  dsimp only [Option.isNone_none, Option.getD_none]
  rw [bind_of_ok hok]
  rfl

theorem appendFragment_present {schema : Schema} {encoded : Bytes} {index : Nat}
    {builders : List Builder} {column : List Value} {value : Value}
    (hrow : RowOf schema encoded (childrenFrom schema index value))
    (hrep : RepresentsAll schema index builders column)
    (hwithin : WithinAll schema index column) :
    Extends (appendFragment schema (some encoded) builders)
      (WithinAll schema index (column ++ [value]))
      fun builders' => RepresentsAll schema index builders' (column ++ [value]) := by
  have houtcome := appendFields_appends [] (fun f _ => appendValue_appends f) hrow.fits
    (fun _ => logical_mem hrow.logical) hrep hwithin
  rw [List.append_nil, ← hrow.encoded_eq, ← appendColumns_eq hrep.length] at houtcome
  unfold appendFragment
  dsimp only [Option.isNone_some, Option.getD_some]
  rcases houtcome with ⟨hwithin', builders', hok, hrep'⟩ | ⟨hfull, e, ⟨t, b⟩, herror⟩
  · refine .inl ⟨hwithin', builders', ?_, hrep'⟩
    rw [bind_of_ok hok]
    rfl
  · refine .inr ⟨hfull, e, b, ?_⟩
    rw [bind_of_error herror]

/-- One port after another. -/
theorem Extends.cons {schema : Schema} {schemas : List Schema} {fragment : Option Bytes}
    {fragments : List (Option Bytes)} {index : Nat} {front back : List Builder}
    {column : List Value} (hlength : front.length = schema.length)
    (hfront : Extends (appendFragment schema fragment front) (WithinAll schema index column)
      fun builders => RepresentsAll schema index builders column)
    (hback : Extends (appendFragments schemas fragments back)
      (WithinAll schemas.flatten (index + schema.length) column)
      fun builders => RepresentsAll schemas.flatten (index + schema.length) builders column) :
    Extends (appendFragments (schema :: schemas) (fragment :: fragments) (front ++ back))
      (WithinAll (schema :: schemas).flatten index column)
      fun builders => RepresentsAll (schema :: schemas).flatten index builders column := by
  rw [appendFragments, ← hlength, List.take_left, List.drop_left, List.flatten_cons,
    withinAll_append]
  simp only [representsAll_append]
  rcases hfront with ⟨hwithin, front', hok, hrep⟩ | ⟨hfull, e, front', herror⟩
  · rw [hok]
    rcases hback with ⟨hwithins, back', hoks, hreps⟩ | ⟨hfull, e, back', herror⟩
    · rw [hoks]
      exact .inl ⟨⟨hwithin, hwithins⟩, _, rfl, front', back', rfl, hrep, hreps⟩
    · rw [herror]
      exact .inr ⟨fun h => hfull h.2, e, _, rfl⟩
  · rw [herror]
    exact .inr ⟨fun h => hfull h.1, e, _, rfl⟩

theorem appendFragments_appends {schemas : List Schema} {fragments : List (Option Bytes)}
    {row : List Value} (hdecodes : Decodes schemas fragments row) :
    ∀ {index : Nat} {builders : List Builder} {column : List Value} {value : Value},
      childrenFrom schemas.flatten index value = row →
      RepresentsAll schemas.flatten index builders column →
      WithinAll schemas.flatten index column →
      Extends (appendFragments schemas fragments builders)
        (WithinAll schemas.flatten index (column ++ [value]))
        fun builders' => RepresentsAll schemas.flatten index builders' (column ++ [value]) := by
  induction hdecodes with
  | nil =>
    intro index builders column value _ hrep hwithin
    cases builders with
    | nil =>
      refine .inl ⟨by simp [WithinAll], [], ?_, by simp [RepresentsAll]⟩
      rw [appendFragments.eq_def]
      rfl
    | cons builder builders => simp [RepresentsAll] at hrep
  | @absent schema schemas fragments row _ ih =>
    intro index builders column value hvalue hrep hwithin
    rw [List.flatten_cons, childrenFrom_append] at hvalue
    obtain ⟨hfirst, hrest⟩ := List.append_inj hvalue
      (by rw [length_childrenFrom, List.length_replicate])
    obtain ⟨front, back, rfl, hfront, hback⟩ := representsAll_append.mp hrep
    obtain ⟨hwithinf, hwithinb⟩ := withinAll_append.mp hwithin
    exact .cons hfront.length (appendFragment_absent hfirst hfront hwithinf)
      (ih hrest hback hwithinb)
  | @present schema schemas encoded fragments values row hrow _ ih =>
    intro index builders column value hvalue hrep hwithin
    rw [List.flatten_cons, childrenFrom_append] at hvalue
    obtain ⟨rfl, hrest⟩ := List.append_inj hvalue
      (by rw [length_childrenFrom, hrow.fits.length])
    obtain ⟨front, back, rfl, hfront, hback⟩ := representsAll_append.mp hrep
    obtain ⟨hwithinf, hwithinb⟩ := withinAll_append.mp hwithin
    exact .cons hfront.length (appendFragment_present hrow hfront hwithinf)
      (ih hrest hback hwithinb)

/-! ## Pages -/

/-- The rows a page of builders holds, as one column of structs. -/
def HoldsRows (schema : Schema) (builders : List Builder) (rows : List (List Value)) : Prop :=
  RepresentsAll schema 0 builders (rows.map Value.struct)

/-- The offsets of the columns of some rows. -/
def RowsWithin (schema : Schema) (rows : List (List Value)) : Prop :=
  WithinAll schema 0 (rows.map Value.struct)

theorem RowsWithin.sublist {schema : Schema} {rows rows' : List (List Value)}
    (h : RowsWithin schema rows') (hsub : rows.Sublist rows') : RowsWithin schema rows :=
  WithinAll.sublist (fun f _ => Within.sublist f) (hsub.map _) h

theorem appendRow_appends {schemas : List Schema} {fragments : Fragments} {row : List Value}
    {builders : List Builder} {rows : List (List Value)}
    (hdecodes : Decodes schemas fragments.toList row)
    (hrep : HoldsRows schemas.flatten builders rows) (hwithin : RowsWithin schemas.flatten rows) :
    Extends (appendRow schemas fragments builders) (RowsWithin schemas.flatten (rows ++ [row]))
      fun builders' => HoldsRows schemas.flatten builders' (rows ++ [row]) := by
  unfold RowsWithin HoldsRows
  rw [List.map_append]
  refine appendFragments_appends hdecodes ?_ hrep hwithin
  exact childrenFrom_row (by rw [hdecodes.length, Nat.zero_add])

/-- A page of rows is appended when the columns have room for all of them. -/
theorem appendRows_appends {schemas : List Schema} {page : List Fragments}
    {added : List (List Value)}
    (hdecodes : List.Forall₂ (fun fragments => Decodes schemas fragments.toList) page added)
    {builders : List Builder} {rows : List (List Value)}
    (hrep : HoldsRows schemas.flatten builders rows) (hwithin : RowsWithin schemas.flatten rows) :
    Extends (page.forM (appendRow schemas) builders) (RowsWithin schemas.flatten (rows ++ added))
      fun builders' => HoldsRows schemas.flatten builders' (rows ++ added) := by
  induction hdecodes generalizing builders rows with
  | nil =>
    rw [List.append_nil]
    exact .inl ⟨hwithin, builders, rfl, hrep⟩
  | @cons fragments row page added hrow _ ih =>
    rcases appendRow_appends hrow hrep hwithin with
      ⟨hwithin', builders', hok, hrep'⟩ | ⟨hfull, e, builders', herror⟩
    · have hrest := ih hrep' hwithin'
      rw [List.append_assoc, List.singleton_append] at hrest
      show Extends ((appendRow schemas fragments >>= fun _ =>
        page.forM (appendRow schemas)) builders) _ _
      rwa [bind_of_ok hok]
    · refine .inr ⟨fun h => hfull (h.sublist ?_), e, builders', bind_of_error herror⟩
      exact (List.Sublist.refl rows).append (List.singleton_sublist.mpr List.mem_cons_self)

end Dogpaddle.Canonical
