import Dogpaddle.Aggregate.Exact
import Dogpaddle.Aggregate.Tally
import Dogpaddle.Lib.Prefix

/-!
# What the aggregate maintains

`shown` has one row for each stored group. Every run of the machine keeps the groups
tallied, and its outputs add up to what the groups show (`run_maintains`), so the runtime
does too (`aggregate_incremental`).
-/

namespace Dogpaddle.Aggregate

open Lib Store Dogpaddle.Relation

variable {Ty Value : Type}

namespace AggregateOperation

variable {op : AggregateOperation Ty Value}

/-! ## What the groups show -/

/-- The output row of a stored group. -/
def groupRow (op : AggregateOperation Ty Value) (key : Bytes) (state : GroupState) :
    Option (Row Value) :=
  match op.fmt.decodeRow op.groupFields key, op.groupOutput state with
  | .ok groups, .ok calls => some (groups ++ calls.map op.cell)
  | _, _ => none

section Shown

variable [DecidableEq Value]

/-- How often the group of a key shows a row. -/
def shownBy (op : AggregateOperation Ty Value) (key : Bytes) (state : Option GroupState)
    (row : Row Value) : Int :=
  if state.bind (op.groupRow key) = some row then 1 else 0

/-- One row for each stored group: a row is shown by the group of its first values. -/
def shown (op : AggregateOperation Ty Value) (s : AggregateState) : Bag (Row Value) :=
  fun row =>
    let key := op.fmt.canonicalRow op.groupFields (row.take op.groupFields.length)
    op.shownBy key (s.groups.get? key) row

/-- A group shows rows under its own values only. -/
theorem shownBy_eq_zero {row : EventRow Value} {r : Row Value}
    (hkey : op.fmt.decodeRow op.groupFields (op.groupKey row) = .ok row.groups)
    (hlength : row.groups.length = op.groupFields.length)
    (hne : op.fmt.canonicalRow op.groupFields (r.take op.groupFields.length) ≠ op.groupKey row)
    (state : Option GroupState) : op.shownBy (op.groupKey row) state r = 0 := by
  unfold shownBy
  rw [if_neg]
  intro hshown
  obtain ⟨state, -, hrow⟩ := Option.bind_eq_some_iff.mp hshown
  unfold groupRow at hrow
  rw [hkey] at hrow
  cases hcalls : op.groupOutput state with
  | error e =>
    rw [hcalls] at hrow
    cases hrow
  | ok calls =>
    rw [hcalls] at hrow
    cases hrow
    apply hne
    rw [← hlength, List.take_left]
    rfl

theorem shownBy_some {row : EventRow Value} {state : GroupState} {calls : List CallValue}
    (hkey : op.fmt.decodeRow op.groupFields (op.groupKey row) = .ok row.groups)
    (hcalls : op.groupOutput state = .ok calls) (r : Row Value) :
    op.shownBy (op.groupKey row) (some state) r = if op.outputRow row calls = r then 1 else 0 := by
  unfold shownBy groupRow
  rw [Option.bind_some, hkey, hcalls]
  simp only [Option.some.injEq]
  rfl

/-- What one row emits takes its group from what it showed to what it shows, and never below. -/
theorem emitted_spec {row : EventRow Value} {before kept : Option GroupState}
    {old : Option (List CallValue)} {state : GroupState} {output : List (Row Value × Int)}
    (hkey : op.fmt.decodeRow op.groupFields (op.groupKey row) = .ok row.groups)
    (hold : ∀ r, op.shownBy (op.groupKey row) before r =
      if old.map (op.outputRow row) = some r then 1 else 0)
    (h : op.emitted row old state = .ok (kept, output)) :
    (∀ r, op.shownBy (op.groupKey row) before r + weight output r =
      op.shownBy (op.groupKey row) kept r) ∧
    ∀ out, (∀ calls, weight out (op.outputRow row calls) =
        op.shownBy (op.groupKey row) before (op.outputRow row calls)) →
      Prefixes (fun d => 0 ≤ d ∧ d ≤ 1) out →
      Prefixes (fun d => 0 ≤ d ∧ d ≤ 1) (out ++ output) := by
  rcases emitted_eq_ok h with ⟨-, -, rfl, calls, rfl, rfl⟩ | ⟨-, rfl, calls, hcalls, houtput⟩
  · refine ⟨?_, ?_⟩
    · intro r
      rw [hold, weight_singleton]
      show _ = (0 : Int)
      by_cases hr : op.outputRow row calls = r
      · simp [hr]
      · simp [hr]
    · intro out hout hsteps
      refine hsteps.concat ?_
      rw [hout, hold]
      simp
  · rcases houtput with ⟨rfl, rfl⟩ | ⟨rfl, rfl⟩ | ⟨before, rfl, rfl⟩
    · refine ⟨?_, ?_⟩
      · intro r
        rw [hold, weight_singleton, shownBy_some hkey hcalls]
        simp
      · intro out hout hsteps
        refine hsteps.concat ?_
        rw [hout, hold]
        simp
    · refine ⟨?_, ?_⟩
      · intro r
        rw [hold, shownBy_some hkey hcalls]
        simp
      · intro out _ hsteps
        rw [List.append_nil]
        exact hsteps
    · refine ⟨?_, ?_⟩
      · intro r
        rw [hold, weight_cons_apply, weight_singleton, shownBy_some hkey hcalls]
        by_cases hr : op.outputRow row before = r
        · simp [hr]
        · simp [hr]
      · intro out hout hsteps
        -- the old row is gone before the new one comes
        have hgone : Prefixes (fun d => 0 ≤ d ∧ d ≤ 1) (out ++ [(op.outputRow row before, -1)]) := by
          refine hsteps.concat ?_
          rw [hout, hold]
          simp
        rw [List.append_cons]
        refine hgone.concat ?_
        rw [weight_append]
        show 0 ≤ weight out (op.outputRow row calls) + weight [(op.outputRow row before, -1)] _ + 1 ∧
          weight out (op.outputRow row calls) + weight [(op.outputRow row before, -1)] _ + 1 ≤ 1
        rw [hout, hold, weight_singleton]
        by_cases hr : op.outputRow row before = op.outputRow row calls
        · simp [hr]
        · simp [hr]

/-! ## One row -/

/-- A row of the right widths whose group can be read back from its key. -/
structure Readable (op : AggregateOperation Ty Value) (row : EventRow Value) : Prop where
  groups : row.groups.length = op.groupFields.length
  arguments : row.arguments.length = op.arguments.length
  key : op.fmt.decodeRow op.groupFields (op.groupKey row) = .ok row.groups

/-- What the machine maintains over the rows it has taken in. -/
structure Maintains (op : AggregateOperation Ty Value) (done : List (EventRow Value))
    (s : AggregateState) (out : List (Row Value × Int)) : Prop where
  tallied : ∀ key, Tallied op (op.rowsOf key done) (op.held s key).1 (op.held s key).2
  present : ∀ key state, s.groups.get? key = some state → state.weight ≠ 0
  rows : weight out = op.shown s
  steps : Prefixes (fun d => 0 ≤ d ∧ d ≤ 1) out

theorem outputOf_spec {row : EventRow Value} {before : Option GroupState} {state : GroupState}
    {old : Option (List CallValue)}
    (hkey : op.fmt.decodeRow op.groupFields (op.groupKey row) = .ok row.groups)
    (hbefore : ∀ stored, before = some stored → stored = state)
    (h : op.outputOf before.isSome state = .ok old) (r : Row Value) :
    op.shownBy (op.groupKey row) before r =
      if old.map (op.outputRow row) = some r then 1 else 0 := by
  cases before with
  | none =>
    cases h
    rfl
  | some stored =>
    cases hbefore stored rfl
    obtain ⟨calls, hcalls, h⟩ := except_bind_eq_ok.mp h
    cases h
    rw [shownBy_some hkey hcalls]
    simp

theorem maintains_nil : Maintains op [] .initial [] where
  tallied := fun _ => tallied_nil
  present := fun _ _ h => by cases h
  rows := rfl
  steps := .nil ⟨le_rfl, by decide⟩

/-- One row of the machine keeps what it maintains. -/
theorem rowStep_maintains {done : List (EventRow Value)} {row : EventRow Value}
    {s s' : AggregateState} {out more : List (Row Value × Int)} (h : Maintains op done s out)
    (hrow : op.Readable row) (hstep : op.rowStep s row = .ok (more, s')) :
    Maintains op (done ++ [row]) s' (out ++ more) := by
  unfold rowStep at hstep
  obtain ⟨⟨state, control⟩, hstarted, hstep⟩ := except_bind_eq_ok.mp hstep
  dsimp only at hstep
  split at hstep
  · cases hstep
  obtain ⟨old, hold, hstep⟩ := except_bind_eq_ok.mp hstep
  obtain ⟨⟨state', entries'⟩, hstate, hstep⟩ := except_bind_eq_ok.mp hstep
  obtain ⟨⟨kept, output⟩, hemitted, hstep⟩ := except_bind_eq_ok.mp hstep
  cases hstep
  obtain ⟨hheld, hstored⟩ := started_eq_ok hstarted
  obtain ⟨hshown, hsteps⟩ :=
    emitted_spec hrow.key (outputOf_spec hrow.key hstored hold) hemitted
  have hkept := emitted_eq_ok hemitted
  -- the row belongs to its own group
  have hown : Tallied op (op.rowsOf (op.groupKey row) done ++ [row]) state'.weight
      state'.statistics := by
    have hbefore := h.tallied (op.groupKey row)
    rw [hheld] at hbefore
    exact hbefore.take hrow.arguments hstate
  refine ⟨?_, ?_, ?_, ?_⟩
  · intro key
    rw [rowsOf_concat]
    by_cases hkey : op.groupKey row = key
    · subst hkey
      rw [if_pos rfl]
      simp only [held, get?_writeGroup, if_true]
      rcases hkept with ⟨hzero, hleft, rfl, -⟩ | ⟨-, rfl, -⟩
      · rw [hzero] at hown
        refine hown.emptied ?_
        intro st hst
        have hleft := (Bool.or_eq_false_iff.mp hleft).1
        simpa using List.any_eq_false.mp hleft st hst
      · exact hown
    · rw [if_neg hkey]
      have hne : key ≠ op.groupKey row := fun heq => hkey heq.symm
      simp only [held, get?_writeGroup, if_neg hne]
      exact h.tallied key
  · intro key st hst
    simp only [get?_writeGroup] at hst
    split at hst
    · rcases hkept with ⟨-, -, rfl, -⟩ | ⟨hpositive, rfl, -⟩
      · cases hst
      · cases hst
        exact hpositive
    · exact h.present key st hst
  · funext r
    rw [weight_append, h.rows]
    show op.shown s r + weight output r = _
    unfold shown
    dsimp only
    rw [get?_writeGroup]
    by_cases hk : op.fmt.canonicalRow op.groupFields (r.take op.groupFields.length) =
        op.groupKey row
    · rw [hk, if_pos rfl]
      exact hshown r
    -- no other group can show or emit a row with these values
    · have hquiet := hshown r
      rw [shownBy_eq_zero hrow.key hrow.groups hk, shownBy_eq_zero hrow.key hrow.groups hk,
        zero_add] at hquiet
      rw [if_neg hk, hquiet, add_zero]
  · refine hsteps out ?_ h.steps
    intro calls
    have htake : (op.outputRow row calls).take op.groupFields.length = row.groups := by
      rw [← hrow.groups]
      exact List.take_left
    rw [h.rows]
    unfold shown
    dsimp only
    rw [htake]
    rfl

/-- Every run of the machine keeps what it maintains. -/
theorem run_maintains {done rows : List (EventRow Value)} {s s' : AggregateState}
    {out more : List (Row Value × Int)} (h : Maintains op done s out)
    (hrows : ∀ row ∈ rows, op.Readable row) (hrun : op.rowMachine.run s rows = .ok (more, s')) :
    Maintains op (done ++ rows) s' (out ++ more) := by
  exact Machine.run_keeps rowStep_maintains h hrows hrun

end Shown

/-! ## Every run of the operator -/

theorem exists_rows {events : List (Row Value × Int)} (h : ∀ event ∈ events, op.Grouped event) :
    ∃ rows, List.Forall₂ (fun event row => op.eventRow event = .ok row) events rows ∧
      ∀ row ∈ rows, op.Readable row := by
  induction events with
  | nil => exact ⟨[], .nil, fun _ hrow => by cases hrow⟩
  | cons event events ih =>
    obtain ⟨⟨row, hrow, hkey⟩, hrest⟩ := List.forall_mem_cons.mp h
    obtain ⟨rows, hrows, hreadable⟩ := ih hrest
    refine ⟨row :: rows, .cons hrow hrows, List.forall_mem_cons.mpr ⟨?_, hreadable⟩⟩
    obtain ⟨hgroups, harguments, -⟩ := eventRow_eq_ok hrow
    exact ⟨hgroups, harguments, hkey⟩

theorem grouped_of_appliesAll {s s' : AggregateState} {changes : List (Change (Row Value))}
    {outputs : List (Option (Change (Row Value)))}
    (h : Application.AppliesAll op.apply s changes outputs s') :
    ∀ event ∈ inputsEvents changes, op.Grouped event := by
  induction h with
  | nil => exact fun _ he => by cases he
  | cons happly _ ih =>
    rw [inputsEvents_cons]
    intro event he
    rcases List.mem_append.mp he with he | he
    · obtain ⟨_, -, -, -, hgrouped⟩ := (apply_mirrors 0 _ _).ok _ _ happly
      exact hgrouped event he
    · exact ih event he

end AggregateOperation

open AggregateOperation

/-- Over any inputs the stored groups are those with rows, their weights and statistics are those
of their rows, and the outputs add up to one row for each of them; after every emitted event every
row has been emitted as often as retracted, or once more. -/
theorem aggregate_incremental [DecidableEq Value] (op : AggregateOperation Ty Value)
    (inputs : List (Nat × Change (Row Value))) (outputs : List (Option (Change (Row Value))))
    (s : AggregateState)
    (h : HandlesAll (.atomic op.atomic : Operation AggregateState Unit (Row Value)) .initial inputs
      outputs s) (hports : ∀ i ∈ inputs, i.1 < 1) :
    ∃ rows, List.Forall₂ (fun event row => op.eventRow event = .ok row)
        (inputsEvents (inputs.map (·.2))) rows ∧
      (∀ key, Tallied op (op.rowsOf key rows) (op.held s key).1 (op.held s key).2 ∧
        ((s.groups.get? key).isSome ↔ ((op.rowsOf key rows).map (·.difference)).sum ≠ 0)) ∧
      outputsBag outputs = op.shown s ∧
      Prefixes (fun d => 0 ≤ d ∧ d ≤ 1) (outputsEvents outputs) := by
  have happlies := Application.appliesAll_of_handlesAll h fun i hi =>
    Nat.lt_one_iff.mp (hports i hi)
  obtain ⟨rows, hrows, hreadable⟩ := exists_rows (grouped_of_appliesAll happlies)
  have hrun := op.followsEvents.run happlies
  unfold eventMachine at hrun
  rw [Machine.run_comapExcept _ _ hrows] at hrun
  have hmaintains : Maintains op rows s (outputsEvents outputs) := by
    simpa using run_maintains maintains_nil hreadable hrun
  refine ⟨rows, hrows, ?_, ?_, hmaintains.steps⟩
  · intro key
    have htallied := hmaintains.tallied key
    refine ⟨htallied, ?_⟩
    rw [← htallied.weight]
    unfold held
    cases hget : s.groups.get? key with
    | none => simp
    | some state =>
      have hpositive := hmaintains.present key state hget
      have hne : state.weight.toNat ≠ 0 := fun hzero => hpositive (UInt64.toNat_inj.mp hzero)
      simpa using hne
  · rw [← weight_outputsEvents, hmaintains.rows]

/-- The bytes of a column as unsigned scalars. -/
def byteView : ColumnView byteFormat where
  dataType _ := .uint64
  scalar _ value := .ok (.ordered (value.elim (.null .uint64) fun b => .uint64 b.toUInt64))
  scalar_isNull := by
    intro _ value s h
    cases h
    cases value with
    | none => exact ⟨fun _ => rfl, fun _ => rfl⟩
    | some b => exact ⟨fun h => (by cases h), fun h => (by cases h)⟩
  scalar_dataType := by
    intro _ value s h
    cases h
    cases value with
    | none => rfl
    | some b => rfl

def byteColumn (index : Nat) : BoundExpression Unit (Option UInt8) :=
  ⟨fun row => .ok (row[index]?.getD none), ⟨(), true⟩⟩

/-- `COUNT(*)`, `SUM` and `MAX` of the second column for each value of the first. -/
def byteAggregate : AggregateOperation Unit (Option UInt8) where
  fmt := byteFormat
  view := byteView
  bound := fun _ => true
  layout := ⟨[byteColumn 0], [.countAll, .sum 0, .max 0],
    [⟨1, byteColumn 1, some ⟨0, .unsigned, false, true⟩, some ⟨0, none, some 0⟩⟩], ⟨1, 1, 1⟩⟩
  wellFormed := by
    refine ⟨⟨.refl _, .refl _, .refl _, ?_⟩, ?_⟩
    · intro a ha
      rw [List.mem_singleton.mp ha]
      refine ⟨?_, ?_, ?_, ?_⟩
      · intro b hb
        cases hb
        exact fun h => by cases h
      · exact fun _ _ _ => rfl
      · intro b hb _
        cases hb
        exact fun h => by cases h
      · intro x hx
        cases hx
        exact ⟨rfl, by simp [BoundArgument.cacheSlots]⟩
    · intro call hcall
      simp only [List.mem_cons, List.not_mem_nil, or_false] at hcall
      rcases hcall with rfl | rfl | rfl
      · trivial
      · exact ⟨_, _, rfl, rfl, by simp, rfl⟩
      · exact ⟨_, _, rfl, rfl, by simp⟩
  ratio := fun _ _ => 0
  cell
    | .scalar (.int64 value) => some (.ofNat value.toInt.toNat)
    | .scalar (.uint64 value) => some value.toUInt8
    | _ => none
  scalarBytes := 8
  valueBytes := fun _ => 1
  callBytes := fun _ => 8

/-- Two groups, one of them with a `NULL`; the largest value leaves again. -/
def byteGroups : List (Nat × Change (Row (Option UInt8))) :=
  [(0, ⟨2, [([some 7, some 5], 2), ([some 7, some 9], 1), ([some 8, none], 1)], by simp, by simp⟩),
    (0, ⟨2, [([some 7, some 9], -1), ([some 8, none], -1)], by simp, by simp⟩)]

theorem byteAggregate_incremental : ∃ outputs s rows,
    HandlesAll (.atomic byteAggregate.atomic : Operation AggregateState Unit _) .initial byteGroups
      outputs s ∧
    outputsEvents outputs =
      [([some 7, some 2, some 10, some 5], 1), ([some 7, some 2, some 10, some 5], -1),
        ([some 7, some 3, some 19, some 9], 1), ([some 8, some 1, none, none], 1),
        ([some 7, some 3, some 19, some 9], -1), ([some 7, some 2, some 10, some 5], 1),
        ([some 8, some 1, none, none], -1)] ∧
    outputsBag outputs = byteAggregate.shown s ∧
    (∀ key, byteAggregate.Tallied (byteAggregate.rowsOf key rows) (byteAggregate.held s key).1
      (byteAggregate.held s key).2) := by
  have h : (runInputs (.atomic byteAggregate.atomic : Operation AggregateState Unit _)
      ⟨8, 4096⟩ 1 .initial byteGroups).map (fun r => outputsEvents r.1) =
        some [([some 7, some 2, some 10, some 5], 1), ([some 7, some 2, some 10, some 5], -1),
          ([some 7, some 3, some 19, some 9], 1), ([some 8, some 1, none, none], 1),
          ([some 7, some 3, some 19, some 9], -1), ([some 7, some 2, some 10, some 5], 1),
          ([some 8, some 1, none, none], -1)] := by
    decide +kernel
  obtain ⟨⟨outputs, s⟩, hrun, hevents⟩ := Option.map_eq_some_iff.mp h
  have hhandles := handlesAll_of_runInputs hrun
  obtain ⟨rows, -, hgroups, hshown, -⟩ :=
    aggregate_incremental byteAggregate _ _ _ hhandles (by decide)
  exact ⟨outputs, s, rows, hhandles, hevents, hshown, fun key => (hgroups key).1⟩

end Dogpaddle.Aggregate
