import Dogpaddle.Canonical.RoundTrip

/-!
# Arrow output is extended as a whole

`ArrowOutput.extend` admits a page before it appends a value of it. The checker accepts only
canonical fragments and the appender decodes all of these, so that after the admission
nothing can fail but the offsets of a column:

* a page that succeeds extends the rows of the output by the rows of its fragments, and the
  differences by its differences;
* a page that fails leaves the output as it was.
-/

namespace Dogpaddle.Canonical

open Lib Dogpaddle.Relation

/-! ## The rows of an output -/

/-- The logical rows that the finished builders have. -/
def ArrowOutput.rows (output : ArrowOutput) : List (List Value) :=
  (List.range output.differences.length).map fun index =>
    (rowValues (Builder.finishAll output.builders) index).map Value.logical

/-- The builders of the schemas hold the rows, one for each difference. -/
structure Held (schemas : List Schema) (output : ArrowOutput) (rows : List (List Value)) :
    Prop where
  length : rows.length = output.differences.length
  builders : HoldsRows schemas.flatten output.builders rows
  within : RowsWithin schemas.flatten rows
  decoded : ∀ row ∈ rows, ∃ fragments, Decodes schemas fragments row

/-- An output for the schemas: a new one, or one that holds rows of them. -/
def ArrowOutput.For (schemas : List Schema) (output : ArrowOutput) : Prop :=
  output.differences = [] ∨ ∃ rows, Held schemas output rows

theorem ArrowOutput.default_for (schemas : List Schema) :
    ArrowOutput.default.For schemas := .inl rfl

theorem Decodes.holdable {schemas : List Schema} {fragments : List (Option Bytes)}
    {row : List Value} (h : Decodes schemas fragments row) :
    List.Forall₂ Holdable schemas.flatten row := by
  induction h with
  | nil => exact .nil
  | absent _ ih =>
    rw [List.flatten_cons]
    exact List.rel_append (holdable_null _) ih
  | present hrow _ ih =>
    rw [List.flatten_cons]
    exact List.rel_append (holdable_of_fits hrow.fits fun _ => logical_mem hrow.logical) ih

/-- The rows held are the rows that come out. -/
theorem Held.rows_eq {schemas : List Schema} {output : ArrowOutput} {rows : List (List Value)}
    (h : Held schemas output rows) : output.rows = rows := by
  have hfrom : ∀ row ∈ rows, childrenFrom schemas.flatten 0 (.struct row) = row := by
    intro row hrow
    obtain ⟨fragments, hdecodes⟩ := h.decoded row hrow
    exact childrenFrom_row (by rw [hdecodes.length, Nat.zero_add])
  have hholdable : ∀ value ∈ rows.map Value.struct, HoldableAll schemas.flatten 0 value := by
    refine List.forall_mem_map.mpr fun row hrow => ?_
    obtain ⟨fragments, hdecodes⟩ := h.decoded row hrow
    unfold HoldableAll
    rw [hfrom row hrow]
    exact hdecodes.holdable
  unfold ArrowOutput.rows
  rw [← h.length]
  refine List.ext_getElem (by simp) fun i hi hi' => ?_
  have hfinished := rowValues_finished (fun f _ => Represents.finish f) h.builders hholdable i
    (by rwa [List.length_map])
  rw [List.getElem_map, hfrom _ (List.getElem_mem hi')] at hfinished
  rw [List.getElem_map, List.getElem_range, hfinished.logical.1]

theorem ArrowOutput.rows_of_new {output : ArrowOutput} (h : output.differences = []) :
    output.rows = [] := by
  unfold ArrowOutput.rows
  rw [h]
  rfl

/-! ## Admission -/

section Extending

variable {ε : Type} [RowFailure ε]

/-- An item with the row and the difference it adds. -/
def ItemOf (schemas : List Schema) (item : Except ε Item) (added : List Value × Int) : Prop :=
  ∃ fragments, item = .ok (fragments, added.2) ∧ Decodes schemas fragments.toList added.1

/-- The output is this one. -/
def At (output : ArrowOutput) (s : Scope ArrowOutput) : Prop := s.state = output

variable {output : ArrowOutput}

theorem charge_keeps (n : Nat) :
    Triple (At output) (StepBudget.charge n : Attempt ε ArrowOutput Unit)
      (fun _ => At output) (At output) := by
  intro s hs
  unfold StepBudget.charge
  split
  · next h =>
    split at h
    · cases h
      exact hs
    · cases h
  · next h =>
    split at h
    · cases h
    · cases h
      exact hs

/-- Counting charges and succeeds only if the count does. -/
theorem chargeCounted_keeps (f : Nat → Except RowError Nat) :
    Triple (At output) (chargeCounted f : Attempt ε ArrowOutput Unit)
      (fun _ s => At output s ∧ ∃ limit size, f limit = .ok size) (At output) := by
  unfold chargeCounted
  refine Triple.get fun t ht => Triple.ofExcept_bind (fun s hs => hs ▸ ht) fun size hsize => ?_
  have hf := mapError_eq_ok.mp hsize
  exact (charge_keeps size).weaken (fun s hs => hs ▸ ht) (fun _ s hs => ⟨hs, _, size, hf⟩)
    fun s hs => hs

omit [RowFailure ε] in
/-- A loop that keeps the output and gathers a fact of each item. -/
theorem forM_keeps {α : Type} {f : α → Attempt ε ArrowOutput Unit} {P : α → Prop}
    (hf : ∀ a, Triple (At output) (f a) (fun _ s => At output s ∧ P a) (At output))
    (items : List α) :
    Triple (At output) (items.forM f) (fun _ s => At output s ∧ ∀ item ∈ items, P item)
      (At output) := by
  induction items with
  | nil => exact Triple.pure _ fun s hs => ⟨hs, by simp⟩
  | cons item items ih =>
    refine Triple.bind (hf item) fun _ => Triple.pointwise fun t ht => ?_
    refine ih.weaken (fun s hs => hs ▸ ht.1) (fun _ s hs => ⟨hs.1, ?_⟩) fun s hs => hs
    exact List.forall_mem_cons.mpr ⟨ht.2, hs.2⟩

theorem admitBatchShape_keeps (schema : Schema) :
    Triple (At output) (admitBatchShape schema : Attempt ε ArrowOutput Unit)
      (fun _ => At output) (At output) := by
  refine Triple.bind (charge_keeps _) fun _ => ?_
  exact (forM_keeps (fun field => chargeCounted_keeps _) schema).weaken (fun _ hs => hs)
    (fun _ _ hs => hs.1) fun _ hs => hs

theorem admitShapes_keeps (schemas : List Schema) :
    Triple (At output) (schemas.forM admitBatchShape : Attempt ε ArrowOutput Unit)
      (fun _ => At output) (At output) := by
  have hkeeps : ∀ schema, Triple (At output) (admitBatchShape schema : Attempt ε ArrowOutput Unit)
      (fun _ s => At output s ∧ True) (At output) := fun schema =>
    (admitBatchShape_keeps schema).weaken (fun _ hs => hs) (fun _ _ hs => ⟨hs, trivial⟩)
      fun _ hs => hs
  exact (forM_keeps hkeeps schemas).weaken (fun _ hs => hs) (fun _ _ hs => hs.1) fun _ hs => hs

/-- A fragment that is admitted is absent or well formed. -/
theorem admitFragment_keeps (schema : Schema) (fragment : Option Bytes) :
    Triple (At output) (admitFragment schema fragment : Attempt ε ArrowOutput Unit)
      (fun _ s => At output s ∧ ∀ encoded, fragment = some encoded →
        ∃ values, RowOf schema encoded values) (At output) := by
  cases fragment with
  | none =>
    exact (forM_keeps (fun field => chargeCounted_keeps _) schema).weaken (fun _ hs => hs)
      (fun _ _ hs => ⟨hs.1, by simp⟩) fun _ hs => hs
  | some encoded =>
    refine (chargeCounted_keeps _).weaken (fun _ hs => hs) (fun _ s hs => ⟨hs.1, ?_⟩)
      fun _ hs => hs
    intro bytes hbytes
    cases hbytes
    obtain ⟨limit, size, hsize⟩ := hs.2
    exact decodedSize_sound hsize

omit [RowFailure ε] in
theorem decodes_of_admitted {schemas : List Schema} {fragments : List (Option Bytes)}
    (hlength : schemas.length ≤ fragments.length)
    (h : ∀ port ∈ schemas.zip fragments, ∀ encoded, port.2 = some encoded →
      ∃ values, RowOf port.1 encoded values) : ∃ row, Decodes schemas fragments row := by
  induction schemas generalizing fragments with
  | nil => exact ⟨[], .nil⟩
  | cons schema schemas ih =>
    cases fragments with
    | nil => simp at hlength
    | cons fragment fragments =>
      rw [List.zip_cons_cons, List.forall_mem_cons] at h
      obtain ⟨row, hrow⟩ := ih (by simpa using hlength) h.2
      cases fragment with
      | none => exact ⟨_, .absent hrow⟩
      | some encoded =>
        obtain ⟨values, hvalues⟩ := h.1 encoded rfl
        exact ⟨_, .present hvalues hrow⟩

/-- An admitted page decodes, and the output is still the same. -/
theorem admitItems_keeps {schemas : List Schema} (hports : schemas.length ≤ 2) (first : Bool)
    (items : List (Except ε Item)) :
    Triple (At output) (admitItems schemas first items)
      (fun _ s => At output s ∧ ∃ added, List.Forall₂ (ItemOf schemas) items added)
      (At output) := by
  induction items generalizing first with
  | nil => exact Triple.pure _ fun s hs => ⟨hs, [], .nil⟩
  | cons item items ih =>
    rw [admitItems]
    refine Triple.ofExcept_bind (fun _ hs => hs) fun content hitem => ?_
    obtain ⟨fragments, difference⟩ := content
    -- the ports, the charge and the remaining items
    have hrest : Triple (At output) (do
        (schemas.zip fragments.toList).forM fun port => admitFragment port.1 port.2
        StepBudget.charge 8
        admitItems schemas false items : Attempt ε ArrowOutput Unit)
        (fun _ s => At output s ∧ ∃ added, List.Forall₂ (ItemOf schemas) (item :: items) added)
        (At output) := by
      refine Triple.bind (forM_keeps (fun port : Schema × Option Bytes =>
        admitFragment_keeps port.1 port.2) _) fun _ => Triple.pointwise fun t ht => ?_
      obtain ⟨row, hrow⟩ := decodes_of_admitted hports ht.2
      refine Triple.bind ((charge_keeps 8).weaken (fun s hs => hs ▸ ht.1) (fun _ _ hs => hs)
        fun _ hs => hs) fun _ => ?_
      refine (ih false).weaken (fun _ hs => hs) (fun _ s hs => ⟨hs.1, ?_⟩) fun _ hs => hs
      obtain ⟨added, hadded⟩ := hs.2
      exact ⟨(row, difference) :: added, .cons ⟨fragments, hitem, hrow⟩ hadded⟩
    refine Triple.ite (fun _ => ?_) fun _ => hrest
    exact Triple.bind (admitShapes_keeps schemas) fun _ => hrest

/-! ## Appending -/

theorem appendItem_eq {schemas : List Schema} {item : Except ε Item} {added : List Value × Int}
    {rows : List (List Value)} (hitem : ItemOf schemas item added) (output : ArrowOutput)
    (budget : StepBudget)
    (hrep : HoldsRows schemas.flatten output.builders rows)
    (hwithin : RowsWithin schemas.flatten (rows ++ [added.1])) :
    ∃ builders, appendItem schemas item ⟨output, budget⟩ =
        .ok () ⟨⟨builders, output.differences ++ [added.2]⟩, budget⟩ ∧
      HoldsRows schemas.flatten builders (rows ++ [added.1]) := by
  obtain ⟨fragments, rfl, hdecodes⟩ := hitem
  rcases appendRow_appends hdecodes hrep (hwithin.sublist (List.sublist_append_left _ _)) with
    ⟨-, builders, hok, hrep'⟩ | ⟨hfull, -⟩
  · refine ⟨builders, ?_, hrep'⟩
    unfold appendItem
    rw [bind_of_ok (ofExcept_eq_ok.mpr ⟨rfl, rfl⟩)]
    dsimp only
    rw [bind_of_ok (get_eq_ok.mpr ⟨rfl, rfl⟩)]
    dsimp only
    rw [hok]
    rfl
  · exact absurd hwithin hfull

/-- An admitted page is appended to its end. -/
theorem appendItems_eq {schemas : List Schema} {items : List (Except ε Item)}
    {added : List (List Value × Int)} (hitems : List.Forall₂ (ItemOf schemas) items added)
    {rows : List (List Value)} (output : ArrowOutput) (budget : StepBudget)
    (hrep : HoldsRows schemas.flatten output.builders rows)
    (hwithin : RowsWithin schemas.flatten (rows ++ added.map Prod.fst)) :
    ∃ builders, items.forM (appendItem schemas) ⟨output, budget⟩ =
        .ok () ⟨⟨builders, output.differences ++ added.map Prod.snd⟩, budget⟩ ∧
      HoldsRows schemas.flatten builders (rows ++ added.map Prod.fst) := by
  induction hitems generalizing output rows with
  | nil =>
    refine ⟨output.builders, ?_, by rwa [List.map_nil, List.append_nil]⟩
    rw [List.map_nil, List.append_nil]
    rfl
  | @cons item first items added hitem _ ih =>
    rw [List.map_cons, List.append_cons] at hwithin
    obtain ⟨builders, hok, hrep'⟩ := appendItem_eq hitem output budget hrep
      (hwithin.sublist (List.sublist_append_left _ _))
    obtain ⟨builders', hoks, hreps⟩ := ih ⟨builders, output.differences ++ [first.2]⟩
      hrep' hwithin
    refine ⟨builders', ?_, by rwa [List.map_cons, List.append_cons]⟩
    show (appendItem schemas item >>= fun _ => items.forM (appendItem schemas)) _ = _
    rw [bind_of_ok hok, hoks, List.map_cons]
    simp [List.append_assoc]

end Extending

theorem rowBuilders_append (a b : List Field) :
    rowBuilders (a ++ b) = rowBuilders a ++ rowBuilders b := by
  induction a with
  | nil => rfl
  | cons field a ih => rw [List.cons_append, rowBuilders, ih, rowBuilders, List.cons_append]

theorem rowBuilders_flatten (schemas : List Schema) :
    schemas.flatMap rowBuilders = rowBuilders schemas.flatten := by
  induction schemas with
  | nil => rfl
  | cons schema schemas ih => rw [List.flatMap_cons, ih, List.flatten_cons, rowBuilders_append]

/-! ## The whole page -/

/-- An admitted page on an output that holds rows. -/
theorem appendItems_held {ε : Type} [RowFailure ε] {schemas : List Schema} (output : ArrowOutput)
    {rows : List (List Value)} {items : List (Except ε Item)} {added : List (List Value × Int)}
    (hlength : rows.length = output.differences.length)
    (hrep : HoldsRows schemas.flatten output.builders rows)
    (hdecoded : ∀ row ∈ rows, ∃ fragments, Decodes schemas fragments row)
    (hitems : List.Forall₂ (ItemOf schemas) items added) (budget : StepBudget)
    (hwithin : RowsWithin schemas.flatten (rows ++ added.map Prod.fst)) :
    ∃ output', items.forM (appendItem schemas) ⟨output, budget⟩ = .ok () ⟨output', budget⟩ ∧
      Held schemas output' (rows ++ added.map Prod.fst) ∧
      output'.differences = output.differences ++ added.map Prod.snd := by
  obtain ⟨builders, hok, hrep'⟩ := appendItems_eq hitems output budget hrep hwithin
  refine ⟨_, hok, ⟨?_, hrep', hwithin, ?_⟩, rfl⟩
  · rw [List.length_append, List.length_append, hlength, List.length_map, List.length_map]
  · rw [List.forall_mem_append]
    refine ⟨hdecoded, List.forall_mem_map.mpr ?_⟩
    clear hlength hdecoded hrep hwithin hok hrep'
    induction hitems with
    | nil => simp
    | cons hitem _ ih =>
      obtain ⟨fragments, -, hdecodes⟩ := hitem
      exact List.forall_mem_cons.mpr ⟨⟨_, hdecodes⟩, ih⟩

/-- A page extends the output by exactly its rows and differences, or it fails and leaves the
output as it was. -/
theorem extend_atomic_exact {ε : Type} [RowFailure ε] (schemas : List Schema)
    (hports : schemas.length ≤ 2) (output : ArrowOutput) (hfor : output.For schemas)
    (items : List (Except ε Item)) (budget : StepBudget)
    (hoffsets : ∀ added, List.Forall₂ (ItemOf schemas) items added →
      RowsWithin schemas.flatten (output.rows ++ added.map Prod.fst)) :
    match ArrowOutput.extend schemas items ⟨output, budget⟩ with
    | .ok () s => ∃ added, List.Forall₂ (ItemOf schemas) items added ∧
        s.state.rows = output.rows ++ added.map Prod.fst ∧
        s.state.differences = output.differences ++ added.map Prod.snd ∧ s.state.For schemas
    | .error _ s => s.state = output := by
  have hadmit := admitItems_keeps hports output.differences.isEmpty items ⟨output, budget⟩ rfl
  unfold ArrowOutput.extend
  rw [bind_of_ok (get_eq_ok.mpr ⟨rfl, rfl⟩)]
  dsimp only
  cases hrun : admitItems schemas output.differences.isEmpty items ⟨output, budget⟩ with
  | error e s =>
    rw [hrun] at hadmit
    rw [bind_of_error hrun]
    exact hadmit
  | ok u s =>
    obtain ⟨state, budget'⟩ := s
    rw [hrun] at hadmit
    obtain ⟨hstate, added, hadded⟩ := hadmit
    obtain rfl : state = output := hstate
    rw [bind_of_ok hrun]
    have hwithin := hoffsets added hadded
    by_cases hfirst : state.differences.isEmpty = true ∧ items.length ≠ 0
    · -- a new output gets its builders first
      have hnew : state.differences = [] := List.isEmpty_iff.mp hfirst.1
      have hempty : HoldsRows schemas.flatten (schemas.flatMap rowBuilders) [] := by
        rw [rowBuilders_flatten]
        exact rowBuilders_represent 0 fun f _ => rowBuilder_represents f
      rw [ArrowOutput.rows_of_new hnew] at hwithin ⊢
      obtain ⟨output', hok, hheld, hdifferences⟩ :=
        appendItems_held ⟨schemas.flatMap rowBuilders, state.differences⟩
          (by rw [hnew]; rfl) hempty (by simp) hadded budget' hwithin
      rw [if_pos hfirst, bind_of_ok (modify_eq_ok (u := ⟨⟩) |>.mpr rfl), hok]
      exact ⟨added, hadded, hheld.rows_eq, hdifferences, .inr ⟨_, hheld⟩⟩
    rw [if_neg hfirst]
    rcases hfor with hnew | ⟨rows, hheld⟩
    · -- no rows on a new output
      have hnil : items = [] := by
        by_contra hne
        exact hfirst ⟨by rw [hnew]; rfl, fun h => hne (List.length_eq_zero_iff.mp h)⟩
      subst hnil
      cases hadded
      refine ⟨[], .nil, ?_, ?_, .inl hnew⟩
      · rw [List.map_nil, List.append_nil]
      · rw [List.map_nil, List.append_nil]
    · rw [hheld.rows_eq] at hwithin ⊢
      obtain ⟨output', hok, hheld', hdifferences⟩ :=
        appendItems_held state hheld.length hheld.builders hheld.decoded hadded budget' hwithin
      rw [hok]
      exact ⟨added, hadded, hheld'.rows_eq, hdifferences, .inr ⟨_, hheld'⟩⟩

/-- One column of numbers. -/
def number : Schema := [.mk "x" (.fixed .int32) false]

theorem extend_atomic_exact_number :
    ∃ s, ArrowOutput.extend [number] [(.ok ((some [1, 0, 0, 0, 5], none), 3) :
        Except (Option RowError) Item)] ⟨.default, ⟨0, 4096⟩⟩ = .ok () s ∧
      s.state.differences = [3] := by
  have h := extend_atomic_exact [number] (by decide) .default (.inl rfl)
    [(.ok ((some [1, 0, 0, 0, 5], none), 3) : Except (Option RowError) Item)] ⟨0, 4096⟩
    (fun added _ => by simp [RowsWithin, number, WithinAll, Within])
  obtain ⟨s, hs⟩ : ∃ s, ArrowOutput.extend [number] [(.ok ((some [1, 0, 0, 0, 5], none), 3) :
      Except (Option RowError) Item)] ⟨.default, ⟨0, 4096⟩⟩ = .ok () s := ⟨_, rfl⟩
  rw [hs] at h
  obtain ⟨added, hadded, -, hdifferences, -⟩ := h
  refine ⟨s, hs, ?_⟩
  obtain ⟨row, rest, hrow, hrest, rfl⟩ := List.forall₂_cons_left_iff.mp hadded
  cases hrest
  obtain ⟨fragments, hitem, -⟩ := hrow
  rw [Except.ok.injEq, Prod.mk.injEq] at hitem
  rw [hdifferences, List.map_cons, ← hitem.2]
  rfl

end Dogpaddle.Canonical
