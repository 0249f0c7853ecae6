import Dogpaddle.Cdc.Convert
import Mathlib.Data.List.Sort

/-!
# Row images and projections

A row image can be read when every column has a value that it takes. Completing it keeps the
projected columns and checks the others, and building the change reads what was kept.

* `completeRow_whole`: a completed row can be read when its image is whole, whatever the
  projection, and its slots are those of the image (`get_completeRow`).
* `buildChange_eq_ok`: rows become a change when every slot that is kept can be filled.
-/

namespace Dogpaddle.Cdc

open Lib

/-! ## Row images -/

/-- A column of a row image has a value; when nobody reads it, one that it takes. -/
def Admits (host : Host) (column : Field) (isRead : Prop) (row : Row) : Prop :=
  ∃ value, row.get column.name = some value ∧ (value.isNull → column.isNullable = true) ∧
    (isRead ∨ (parseSlot host column value).isSome)

variable {host : Host}

theorem Admits.congr {column : Field} {isRead isRead' : Prop} {row row' : Row}
    (h : Admits host column isRead row) (hrow : row'.get column.name = row.get column.name)
    (hread : isRead → isRead') : Admits host column isRead' row' := by
  obtain ⟨value, hvalue, hnull, hslot⟩ := h
  exact ⟨value, hrow.trans hvalue, hnull, hslot.imp_left hread⟩

/-- The columns a projection leaves out have none of a name. -/
def Keeps (columns : List Field) (k : Nat) (p : List Nat) (name : String) : Prop :=
  ∀ e ∈ columns.zipIdx k, e.2 ∉ p → e.1.name ≠ name

theorem head?_eq_some_iff_mem {p : List Nat} {k : Nat} (hp : p.Pairwise (· < ·))
    (hge : ∀ i ∈ p, k ≤ i) : p.head? = some k ↔ k ∈ p := by
  cases p with
  | nil => simp
  | cons i p =>
    rw [List.head?_cons, Option.some.injEq, List.mem_cons]
    refine ⟨fun h => .inl h.symm, ?_⟩
    rintro (rfl | hmem)
    · rfl
    · have hlt := List.rel_of_pairwise_cons hp hmem
      have hle := hge i List.mem_cons_self
      omega

/-- The columns after the first have another name and a later index. -/
theorem later_of_nodup {column : Field} {columns : List Field} {k : Nat}
    (hnames : ((column :: columns).map (·.name)).Nodup) {e : Field × Nat}
    (he : e ∈ columns.zipIdx (k + 1)) : k < e.2 ∧ e.1.name ≠ column.name := by
  refine ⟨List.le_snd_of_mem_zipIdx he, fun hsame => (List.nodup_cons.mp hnames).1 ?_⟩
  exact List.mem_map.mpr ⟨e.1, List.fst_mem_of_mem_zipIdx he, hsame⟩

/-- The indices left for the columns after the first. -/
theorem ge_of_ne_head {p : List Nat} {k : Nat} (hp : p.Pairwise (· < ·)) (hge : ∀ i ∈ p, k ≤ i) :
    ∀ i ∈ (if p.head? = some k then p.tail else p), k + 1 ≤ i := by
  intro i hi
  split at hi
  · next hhead =>
    obtain ⟨tail, rfl⟩ := List.head?_eq_some_iff.mp hhead
    exact List.rel_of_pairwise_cons hp hi
  · next hhead =>
    have hne : k ≠ i := fun h => hhead ((head?_eq_some_iff_mem hp hge).mpr (h ▸ hi))
    have hle := hge i hi
    omega

theorem mem_tail_iff {p : List Nat} {k i : Nat} (hhead : p.head? = some k) (hi : k < i) :
    i ∈ p.tail ↔ i ∈ p := by
  obtain ⟨tail, rfl⟩ := List.head?_eq_some_iff.mp hhead
  rw [List.tail_cons, List.mem_cons, or_iff_right (by omega)]

section Images

variable (hread : ∀ s, host.engine.read s = (host.engine.decode s).isSome)
include hread

/-- One column, read or not. -/
theorem completeColumns_cons {column : Field} {columns : List Field} {k : Nat} {p : List Nat}
    {row row' : Row} :
    completeColumns host (column :: columns) k p row = .ok row' ↔
      Admits host column (p.head? = some k) row ∧
        completeColumns host columns (k + 1) (if p.head? = some k then p.tail else p)
          (if p.head? = some k then row else row.remove column.name) = .ok row' := by
  conv_lhs => unfold completeColumns
  unfold Admits
  cases hvalue : row.get column.name with
  | none => exact ⟨fun h => (nomatch h), fun h => by obtain ⟨⟨_, h, _⟩, _⟩ := h; cases h⟩
  | some value =>
    dsimp only
    by_cases hnull : value.isNull ∧ ¬ column.isNullable
    · rw [if_pos hnull]
      refine ⟨fun h => (nomatch h), fun h => ?_⟩
      obtain ⟨⟨_, hsame, hok, -⟩, -⟩ := h
      cases hsame
      exact absurd (hok hnull.1) hnull.2
    · rw [if_neg hnull]
      have hok : value.isNull = true → column.isNullable = true := fun h =>
        Decidable.not_not.mp fun hne => hnull ⟨h, hne⟩
      by_cases hhead : p.head? = some k
      · simp only [hhead, if_true, true_or, and_true]
        exact ⟨fun h => ⟨⟨value, rfl, hok⟩, h⟩, fun h => h.2⟩
      · simp only [hhead, if_false, false_or]
        rw [except_bind_eq_ok]
        constructor
        · rintro ⟨_, hvalid, h⟩
          exact ⟨⟨value, rfl, hok, (validateColumnValue_eq_ok hread).mp hvalid⟩, h⟩
        · rintro ⟨⟨_, hsame, -, hslot⟩, h⟩
          cases hsame
          exact ⟨(), (validateColumnValue_eq_ok hread).mpr hslot, h⟩

theorem completeColumns_iff {columns : List Field} {k : Nat} {p : List Nat} {row : Row}
    (hnames : (columns.map (·.name)).Nodup) (hp : p.Pairwise (· < ·)) (hge : ∀ i ∈ p, k ≤ i) :
    (∃ row', completeColumns host columns k p row = .ok row') ↔
      ∀ e ∈ columns.zipIdx k, Admits host e.1 (e.2 ∈ p) row := by
  induction columns generalizing k p row with
  | nil => exact ⟨fun _ => by simp, fun _ => ⟨row, rfl⟩⟩
  | cons column columns ih =>
    have hrest := ge_of_ne_head hp hge
    have hp' : (if p.head? = some k then p.tail else p).Pairwise (· < ·) := by
      split
      · exact hp.sublist (List.tail_sublist p)
      · exact hp
    have hhead := head?_eq_some_iff_mem hp hge
    simp only [completeColumns_cons hread, exists_and_left]
    rw [ih (List.nodup_cons.mp hnames).2 hp' hrest, List.zipIdx_cons, List.forall_mem_cons]
    refine and_congr ⟨fun h => h.congr rfl hhead.mp, fun h => h.congr rfl hhead.mpr⟩ ?_
    refine forall₂_congr fun e he => ?_
    obtain ⟨hlater, hname⟩ := later_of_nodup hnames he
    by_cases hk : p.head? = some k
    · rw [if_pos hk, if_pos hk, mem_tail_iff hk hlater]
    · rw [if_neg hk, if_neg hk]
      have hget := Row.get_remove_of_ne row hname
      exact ⟨fun h => h.congr hget.symm id, fun h => h.congr hget id⟩

/-- Completing a row only takes columns away. -/
theorem get_of_completeColumns {columns : List Field} {k : Nat} {p : List Nat} {row row' : Row}
    (h : completeColumns host columns k p row = .ok row') {name : String} {value : Value}
    (hget : row'.get name = some value) : row.get name = some value := by
  induction columns generalizing k p row with
  | nil =>
    cases h
    exact hget
  | cons column columns ih =>
    have hrow := ih ((completeColumns_cons hread).mp h).2
    split at hrow
    · exact hrow
    · by_cases hname : name = column.name
      · rw [hname, Row.get_remove_self] at hrow
        cases hrow
      · rwa [Row.get_remove_of_ne row hname] at hrow

theorem get_completeColumns {columns : List Field} {k : Nat} {p : List Nat} {row row' : Row}
    (hp : p.Pairwise (· < ·)) (hge : ∀ i ∈ p, k ≤ i)
    (h : completeColumns host columns k p row = .ok row') {name : String}
    (hname : Keeps columns k p name) : row'.get name = row.get name := by
  induction columns generalizing k p row with
  | nil =>
    cases h
    rfl
  | cons column columns ih =>
    have hrest := ge_of_ne_head hp hge
    have hhead := head?_eq_some_iff_mem hp hge
    obtain ⟨-, h⟩ := (completeColumns_cons hread).mp h
    rw [Keeps, List.zipIdx_cons, List.forall_mem_cons] at hname
    by_cases hk : p.head? = some k
    · rw [if_pos hk] at hrest h
      rw [if_pos hk] at h
      refine ih (hp.sublist (List.tail_sublist p)) hrest h fun e he hnot => hname.2 e he ?_
      rwa [mem_tail_iff hk (List.le_snd_of_mem_zipIdx he)] at hnot
    · rw [if_neg hk] at hrest h
      rw [if_neg hk] at h
      have hne : name ≠ column.name := (hname.1 fun hmem => hk (hhead.mpr hmem)).symm
      rw [ih hp hrest h hname.2, Row.get_remove_of_ne row hne]

end Images

/-! ## Projections -/

/-- Indices that a source definition takes as its projection. -/
structure Ordered (p : List Nat) (length : Nat) : Prop where
  increasing : p.Pairwise (· < ·)
  inRange : ∀ i ∈ p, i < length

theorem mem_pick {α : Type} {p : List Nat} {l : List α} {a : α} :
    a ∈ pick p l ↔ ∃ i ∈ p, l[i]? = some a := List.mem_filterMap

theorem pick_map {α β : Type} (f : α → β) (p : List Nat) (l : List α) :
    pick p (l.map f) = (pick p l).map f := by
  unfold pick
  rw [List.map_filterMap]
  simp only [List.getElem?_map]

theorem pick_range {α : Type} (l : List α) : pick (List.range l.length) l = l := by
  unfold pick
  induction l using List.reverseRecOn with
  | nil => rfl
  | append_singleton l a ih =>
    rw [List.length_append, List.length_singleton, List.range_succ, List.filterMap_append]
    have hbefore : (List.range l.length).filterMap ((l ++ [a])[·]?) =
        (List.range l.length).filterMap (l[·]?) := by
      refine List.filterMap_congr fun i hi => ?_
      exact List.getElem?_append_left (List.mem_range.mp hi)
    rw [hbefore, ih]
    simp

/-- A projection keeps the order of the columns. -/
theorem pick_sublist {α : Type} {p : List Nat} {l : List α} (hp : Ordered p l.length) :
    List.Sublist (pick p l) l := by
  have hrange : List.Sublist p (List.range l.length) := by
    refine List.sublist_of_subperm_of_pairwise ?_ hp.increasing List.pairwise_lt_range
    refine List.subperm_of_subset (hp.increasing.imp fun h => h.ne) fun i hi => ?_
    exact List.mem_range.mpr (hp.inRange i hi)
  have hkept : List.Sublist (pick p l) (pick (List.range l.length) l) :=
    hrange.filterMap (l[·]?)
  rwa [pick_range] at hkept

theorem ordered_range (length : Nat) : Ordered (List.range length) length :=
  ⟨List.pairwise_lt_range, fun _ hi => List.mem_range.mp hi⟩

/-! ## Whole rows -/

/-- A row image in which every column can be read. -/
def Whole (host : Host) (columns : List Field) (row : Row) : Prop :=
  row.length = columns.length ∧ ∀ column ∈ columns, Admits host column False row

/-- A completed row whose projected columns can be read. -/
def Readable (host : Host) (columns : List Field) (row : Row) : Prop :=
  ∀ column ∈ columns, (rowSlot host column row).isSome

section Rows

variable {columns : List Field} {p : List Nat} {value : Value}
  (hread : ∀ s, host.engine.read s = (host.engine.decode s).isSome)
  (hnames : (columns.map (·.name)).Nodup) (hp : Ordered p columns.length)
include hread hnames hp

theorem completeRow_iff :
    (∃ row', completeRow host columns p value = .ok row') ↔
      ∃ row, value = .object row ∧ row.length = columns.length ∧
        ∀ e ∈ columns.zipIdx, Admits host e.1 (e.2 ∈ p) row := by
  have hzero : ∀ i ∈ p, 0 ≤ i := fun i _ => Nat.zero_le i
  unfold completeRow
  cases value with
  | object row =>
    dsimp only
    by_cases hlength : row.length = columns.length
    · rw [if_neg (not_not.mpr hlength), completeColumns_iff hread hnames hp.increasing hzero]
      refine ⟨fun h => ⟨row, rfl, hlength, h⟩, ?_⟩
      rintro ⟨_, ⟨⟩, -, h⟩
      exact h
    · rw [if_pos hlength]
      refine ⟨fun ⟨_, h⟩ => (nomatch h), ?_⟩
      rintro ⟨_, ⟨⟩, hsame, -⟩
      exact absurd hsame hlength
  | _ => exact ⟨fun ⟨_, h⟩ => (nomatch h), fun ⟨_, h, _⟩ => (nomatch h)⟩

/-- The projected columns keep their values. -/
theorem get_completeRow {row row' : Row} (h : completeRow host columns p (.object row) = .ok row')
    {column : Field} (hcolumn : column ∈ pick p columns) :
    row'.get column.name = row.get column.name := by
  have hzero : ∀ i ∈ p, 0 ≤ i := fun i _ => Nat.zero_le i
  unfold completeRow at h
  dsimp only at h
  split at h
  · cases h
  · refine get_completeColumns hread hp.increasing hzero h fun e he hnot hsame => hnot ?_
    obtain ⟨i, hi, hget⟩ := mem_pick.mp hcolumn
    have hget' := List.mem_zipIdx_iff_getElem?.mp he
    have hname : (columns.map (·.name))[e.2]? = (columns.map (·.name))[i]? := by
      rw [List.getElem?_map, List.getElem?_map, hget, hget', Option.map_some, Option.map_some,
        hsame]
    have hlt : e.2 < (columns.map (·.name)).length := by
      rw [List.length_map]
      exact List.getElem?_eq_some_iff.mp hget' |>.1
    rwa [(List.getElem?_inj hlt hnames).mp hname]

/-- A completed row is readable when its image is whole, whatever the projection. -/
theorem completeRow_whole :
    (∃ row', completeRow host columns p value = .ok row' ∧ Readable host (pick p columns) row') ↔
      ∃ row, value = .object row ∧ Whole host columns row := by
  constructor
  · rintro ⟨row', hrow', hreadable⟩
    obtain ⟨row, rfl, hlength, hall⟩ := (completeRow_iff hread hnames hp).mp ⟨row', hrow'⟩
    refine ⟨row, rfl, hlength, fun column hcolumn => ?_⟩
    obtain ⟨i, hi⟩ := List.getElem?_of_mem hcolumn
    obtain ⟨value, hvalue, hnull, hkept | hslot⟩ :=
      hall (column, i) (List.mem_zipIdx_iff_getElem?.mpr hi)
    · have hcell := hreadable column (mem_pick.mpr ⟨i, hkept, hi⟩)
      rw [rowSlot, get_completeRow hread hnames hp hrow' (mem_pick.mpr ⟨i, hkept, hi⟩), hvalue,
        Option.bind_some] at hcell
      exact ⟨value, hvalue, hnull, .inr hcell⟩
    · exact ⟨value, hvalue, hnull, .inr hslot⟩
  · rintro ⟨row, rfl, hlength, hall⟩
    obtain ⟨row', hrow'⟩ := (completeRow_iff hread hnames hp).mpr ⟨row, rfl, hlength, fun e he =>
      (hall e.1 (List.fst_mem_of_mem_zipIdx he)).congr rfl False.elim⟩
    refine ⟨row', hrow', fun column hcolumn => ?_⟩
    obtain ⟨i, -, hi⟩ := mem_pick.mp hcolumn
    obtain ⟨value, hvalue, -, hfalse | hslot⟩ := hall column (List.mem_of_getElem? hi)
    · exact hfalse.elim
    · rwa [rowSlot, get_completeRow hread hnames hp hrow' hcolumn, hvalue, Option.bind_some]

end Rows

/-! ## Building a change -/

/-- What a source's definition guarantees of its columns. -/
structure Compiled (columns : List Field) : Prop where
  names : (columns.map (·.name)).Nodup
  supported : ∀ column ∈ columns, column.dataType.Supported
  valid : validateSchema columns = .ok ()

/-- The array of a column. -/
def slotsOf (host : Host) (rows : List Row) (column : Field) : ArrayRef :=
  ⟨column.dataType, rows.map (slotOf host column)⟩

/-- The change of some rows, as the slots that they fill. -/
def changeOf (host : Host) (columns : List Field) (rows : List Row) (diffs : List Int) :
    Option Change :=
  if rows.isEmpty then none
  else
    some
      { records :=
          { schema := columns
            columns := columns.map (slotsOf host rows)
            numRows := rows.length }
        diffs }

theorem natAbs_of_parseDecimal {engine : Engine} {value : Value} {precision : Nat} {v : Int}
    (h : parseDecimal engine value precision = some v) : v.natAbs < 10 ^ precision := by
  unfold parseDecimal at h
  split at h
  · cases h
  · simp only [Option.bind_eq_bind, Option.bind_eq_some_iff] at h
    obtain ⟨s, -, h⟩ := h
    split at h
    · cases h
    · simp only [Option.bind_eq_some_iff] at h
      obtain ⟨bytes, -, first, -, h⟩ := h
      split at h
      · cases h
      · rw [Option.ite_none_right_eq_some, Option.some.injEq] at h
        obtain ⟨hbound, rfl⟩ := h
        exact hbound

/-- The slots of a decimal column fit its precision. -/
theorem overflows_slotOf {column : Field} {precision : Nat} {scale : Int}
    (htype : column.dataType = .decimal128 precision scale) (row : Row) :
    overflows precision (slotOf host column row) = none := by
  unfold slotOf rowSlot
  cases row.get column.name with
  | none => rfl
  | some value =>
    rw [Option.bind_some, parseSlot]
    split
    · rfl
    · unfold parseScalar
      rw [htype]
      dsimp only
      cases hparse : parseDecimal host.engine value precision with
      | none => rfl
      | some v =>
        have hbound := natAbs_of_parseDecimal hparse
        have hcast : (v.natAbs : Int) < 10 ^ precision := by exact_mod_cast hbound
        have hfits : -10 ^ precision < v ∧ v < 10 ^ precision := by omega
        exact if_pos hfits

theorem checkNulls_eq_ok {columns : List (ArrayRef × Field)}
    (h : ∀ column ∈ columns, column.2.isNullable = false →
      ∀ slot ∈ column.1.slots, slot.isNone = false) : checkNulls columns = .ok () := by
  induction columns with
  | nil => rfl
  | cons column columns ih =>
    obtain ⟨hcolumn, hrest⟩ := List.forall_mem_cons.mp h
    obtain ⟨array, field⟩ := column
    unfold checkNulls
    rw [if_neg, ih hrest]
    rintro ⟨hnullable, hnone⟩
    obtain ⟨slot, hslot, hisNone⟩ := List.any_eq_true.mp hnone
    rw [hcolumn (by simpa using hnullable) slot hslot] at hisNone
    cases hisNone

section Build

variable {columns : List Field} {p : List Nat} {rows : List Row} {diffs : List Int}

theorem tryNewWithOptions_eq_ok
    (hnull : ∀ column ∈ columns, column.isNullable = false → ∀ row ∈ rows,
      (slotOf host column row).isNone = false) :
    RecordBatch.tryNewWithOptions columns (columns.map (slotsOf host rows)) rows.length =
      .ok ⟨columns, columns.map (slotsOf host rows), rows.length⟩ := by
  have hzip : ∀ e ∈ (columns.map (slotsOf host rows)).zip columns,
      e.2 ∈ columns ∧ e.1 = slotsOf host rows e.2 := by
    intro e he
    rw [← List.map_prod_right_eq_zip, List.mem_map] at he
    obtain ⟨column, hcolumn, rfl⟩ := he
    exact ⟨hcolumn, rfl⟩
  have hnulls : checkNulls ((columns.map (slotsOf host rows)).zip columns) = .ok () := by
    refine checkNulls_eq_ok fun e he hnullable slot hslot => ?_
    obtain ⟨hcolumn, harray⟩ := hzip e he
    rw [harray] at hslot
    obtain ⟨row, hrow, rfl⟩ := List.mem_map.mp hslot
    exact hnull e.2 hcolumn hnullable row hrow
  unfold RecordBatch.tryNewWithOptions
  rw [if_neg (by rw [List.length_map]; exact not_not.mpr rfl), hnulls]
  show (if _ then _ else _) = _
  rw [if_neg, if_neg]
  · rfl
  · intro h
    obtain ⟨e, he, hne⟩ := List.any_eq_true.mp h
    rw [(hzip e he).2] at hne
    simp [slotsOf] at hne
  · intro h
    obtain ⟨array, harray, hne⟩ := List.any_eq_true.mp h
    obtain ⟨column, -, rfl⟩ := List.mem_map.mp harray
    simp [slotsOf] at hne

theorem tryNew_eq_ok (hvalid : validateSchema columns = .ok ()) (hrows : rows ≠ [])
    (hlength : diffs.length = rows.length) (hdiffs : 0 ∉ diffs) :
    Change.tryNew ⟨columns, columns.map (slotsOf host rows), rows.length⟩ diffs =
      .ok ⟨⟨columns, columns.map (slotsOf host rows), rows.length⟩, diffs⟩ := by
  have hdecimals : ((columns.zip (columns.map (slotsOf host rows))).forM fun column =>
      validateDecimal128Array column.1 column.2) = .ok () := by
    refine except_forM_of_ok fun e he => ?_
    rw [← List.map_prod_left_eq_zip, List.mem_map] at he
    obtain ⟨column, -, rfl⟩ := he
    unfold validateDecimal128Array
    cases htype : column.dataType with
    | decimal128 precision scale =>
      refine except_forM_of_ok fun slot hslot => ?_
      obtain ⟨row, -, hrow⟩ := List.mem_map.mp (List.fst_mem_of_mem_zipIdx hslot)
      rw [← hrow, overflows_slotOf htype]
    | _ => rfl
  have hcheck : Change.check ⟨columns, columns.map (slotsOf host rows), rows.length⟩ diffs =
      .ok () := by
    unfold Change.check
    rw [if_neg (by simpa using hrows), if_neg (by simpa using hlength.symm)]
    rw [show diffs.idxOf? 0 = none from List.idxOf?_eq_none_iff.mpr hdiffs]
    dsimp only
    rw [hvalid]
    exact hdecimals
  unfold Change.tryNew
  rw [hcheck]
  rfl

/-- Indices in range name the columns of the projection. -/
theorem mapM_pick {α : Type} {f : Field → Except ConvertError α} {message : String}
    (hp : ∀ i ∈ p, i < columns.length) :
    (p.mapM fun index =>
      match columns[index]? with
      | some column => f column
      | none => invalid message) = (pick p columns).mapM f := by
  induction p with
  | nil => rfl
  | cons i p ih =>
    obtain ⟨hi, hp⟩ := List.forall_mem_cons.mp hp
    have hpick : pick (i :: p) columns = columns[i] :: pick p columns := by
      unfold pick
      rw [List.filterMap_cons, List.getElem?_eq_getElem hi]
    rw [hpick, List.mapM_cons, List.mapM_cons, ih hp, List.getElem?_eq_getElem hi]

/-- Rows become a change when every slot that the projection keeps can be filled. -/
theorem buildChange_eq_ok (hcolumns : Compiled columns) (hp : Ordered p columns.length)
    (hlength : diffs.length = rows.length) (hdiffs : 0 ∉ diffs)
    (hslots : (∀ row ∈ rows, Readable host (pick p columns) row) →
      ∀ column ∈ pick p columns, dataBytes (rows.map (slotOf host column)) < 2 ^ 31 ∧
        (column.isNullable = false → ∀ row ∈ rows, (slotOf host column row).isNone = false))
    {change : Option Change} :
    buildChange host columns p (pick p columns) rows diffs = .ok change ↔
      (∀ row ∈ rows, Readable host (pick p columns) row) ∧
        change = changeOf host (pick p columns) rows diffs := by
  have hsub := pick_sublist hp
  unfold buildChange changeOf
  by_cases hrows : rows = []
  · subst hrows
    simp [eq_comm]
  · have harrays : ∀ {arrays : List ArrayRef}, (p.mapM fun index =>
        match columns[index]? with
        | some column => columnArray host column rows
        | none => invalid "output projection is outside the source schema") = .ok arrays ↔
        (∀ row ∈ rows, Readable host (pick p columns) row) ∧
          arrays = (pick p columns).map (slotsOf host rows) := by
      intro arrays
      have heach : ∀ column ∈ pick p columns, ∀ array, columnArray host column rows = .ok array ↔
          ((∀ row ∈ rows, (rowSlot host column row).isSome) ∧
            dataBytes (rows.map (slotOf host column)) < 2 ^ 31) ∧
            array = slotsOf host rows column := by
        intro column hcolumn array
        rw [columnArray_eq_ok (hcolumns.supported column (hsub.subset hcolumn)), and_assoc]
        rfl
      rw [mapM_pick hp.inRange, mapM_eq_ok_iff heach]
      refine and_congr_left fun _ => ⟨?_, ?_⟩
      · exact fun h row hrow column hcolumn => (h column hcolumn).1 row hrow
      · exact fun h column hcolumn =>
          ⟨fun row hrow => h row hrow column hcolumn, (hslots h column hcolumn).1⟩
    rw [if_neg (by simpa using hrows), if_neg (by simpa using hrows), except_bind_eq_ok]
    have hchange : Change.tryNew
        ⟨pick p columns, (pick p columns).map (slotsOf host rows), rows.length⟩ diffs =
          .ok ⟨⟨_, _, _⟩, _⟩ :=
      tryNew_eq_ok (validateSchema_sublist hsub hcolumns.valid) hrows hlength hdiffs
    have hbuilt : (∀ row ∈ rows, Readable host (pick p columns) row) →
        (RecordBatch.tryNewWithOptions (pick p columns)
          ((pick p columns).map (slotsOf host rows)) rows.length >>= fun records =>
            Change.tryNew records diffs >>= fun change => pure (some change)) =
        .ok (some ⟨⟨pick p columns, (pick p columns).map (slotsOf host rows), rows.length⟩,
          diffs⟩) := by
      intro hreadable
      rw [tryNewWithOptions_eq_ok fun column hcolumn => (hslots hreadable column hcolumn).2]
      show (Change.tryNew _ _ >>= _) = _
      rw [hchange]
      rfl
    constructor
    · rintro ⟨arrays, h, hrest⟩
      obtain ⟨hreadable, rfl⟩ := harrays.mp h
      rw [hbuilt hreadable] at hrest
      cases hrest
      exact ⟨hreadable, rfl⟩
    · rintro ⟨hreadable, rfl⟩
      exact ⟨_, harrays.mpr ⟨hreadable, rfl⟩, hbuilt hreadable⟩

end Build

end Dogpaddle.Cdc
