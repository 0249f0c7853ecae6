import Dogpaddle.Aggregate.Groups

/-!
# The aggregate is its machine

* `Running`: what the loop keeps between two events.
* `applyRow_mirrors`: one row of the loop is one row of the machine.
* `apply_mirrors`: one call runs the machine over the events of its change.

So neither the runs nor the cuts of the input are visible (`aggregate_batching`).
-/

namespace Dogpaddle.Aggregate

open Lib Store Dogpaddle.Relation

variable {Ty Value : Type}

namespace AggregateOperation

variable {op : AggregateOperation Ty Value}

/-! ## One row of the loop -/

/-- What the loop keeps between two events, next to the state and the outputs of the machine. -/
structure Running (op : AggregateOperation Ty Value) (done todo : List (EventRow Value))
    (loop : Loop Value) (t : Scope AggregateState) (s : AggregateState)
    (out : List (Row Value × Int)) : Prop where
  next : op.Awaits todo loop.nextGroup
  groups : GroupRun t.state.groups loop.pendingGroup s.groups
  slots : Slots op.layout.counts.layouts t.state.entries loop.pendingExtrema s.entries
  control : s.control = loop.nextGroupId.or t.state.control
  output : out = loop.output
  nonzero : ∀ e ∈ out, e.2 ≠ 0
  keyed : ∀ row ∈ done, op.Keyed row

theorem applyPending_mirrors {row : EventRow Value} {p : PendingGroup} {loop : Loop Value}
    {t : Scope AggregateState} {s : AggregateState} (hkey : p.key = op.groupKey row)
    (hgroups : GroupRun t.state.groups (some p) s.groups)
    (hslots : Slots op.layout.counts.layouts t.state.entries loop.pendingExtrema s.entries)
    (hcontrol : s.control = loop.nextGroupId.or t.state.control) :
    Mirrors Hard (op.applyPending row p loop) t (op.rowStep s row) fun loop' t' r =>
      GroupRun t'.state.groups loop'.pendingGroup r.2.groups ∧
        Slots op.layout.counts.layouts t'.state.entries loop'.pendingExtrema r.2.entries ∧
        r.2.control = loop'.nextGroupId.or t'.state.control ∧
        loop'.output = loop.output ++ r.1 ∧ (∀ e ∈ r.1, e.2 ≠ 0) ∧
        loop'.nextGroup = loop.nextGroup := by
  unfold applyPending rowStep
  have hget : s.groups.get? (op.groupKey row) = p.state := by rw [← hkey, hgroups.get?]
  refine .bind (startState_mirrors hcontrol hget) ?_
  rintro ⟨state, next⟩ t₁ ⟨state', control⟩ ⟨heq, hstate₁, hnext⟩
  cases heq
  dsimp only at hnext ⊢
  refine .ite (fun _ => .throw _) fun _ => ?_
  rw [hget]
  refine .bind (outputBefore_mirrors _ _ _) ?_
  rintro old t₂ old' ⟨rfl, hstate₂⟩
  rw [← hstate₁, ← hstate₂] at hslots
  refine .bind (applyState_mirrors row state op.partition_lt hslots) ?_
  rintro ⟨state₃, pending₃⟩ t₃ ⟨state₃', entries₃⟩ ⟨heq, hslots₃, hsame₃⟩
  cases heq
  dsimp only at hslots₃ ⊢
  refine .bind (emit_mirrors row old state₃ hslots₃) ?_
  rintro ⟨kept, loop₄⟩ t₄ ⟨kept', output⟩ ⟨heq, houtput, hnonzero, hslots₄, hsame₄, hnextGroup, hid⟩
  cases heq
  have hsame : SameGroups t.state t₄.state :=
    ((SameGroups.of_eq (hstate₂.trans hstate₁)).trans hsame₃).trans hsame₄
  refine .pure ⟨?_, hslots₄, ?_, houtput, hnonzero, hnextGroup⟩
  · rw [hsame.1, ← hkey]
    exact hgroups.update kept
  · rw [hsame.2]
    show control = loop₄.nextGroupId.or t.state.control
    rw [show loop₄.nextGroupId = next from hid]
    exact hnext

/-- One row of the loop is one row of the machine. -/
theorem applyRow_mirrors {done rest : List (EventRow Value)} {row : EventRow Value}
    {loop : Loop Value} {t : Scope AggregateState} {s : AggregateState}
    {out : List (Row Value × Int)} (hrun : op.Running done (row :: rest) loop t s out) :
    Mirrors Hard (op.applyRow loop row rest) t (op.rowMachine.step s row) fun loop' t' r =>
      op.Running (done ++ [row]) rest loop' t' r.2 (out ++ r.1) := by
  obtain ⟨group, hgroup, hbytes, hsoft⟩ := hrun.next row rest rfl
  unfold applyRow
  rw [hgroup]
  cases group with
  | error e => exact .soft_bind (.throw (hsoft e rfl)) fun a t' h => (throw_eq_ok.mp h).elim
  | ok group =>
    obtain ⟨rfl, hkeyed⟩ := hbytes group rfl
    simp only [pure_bind]
    refine .soft_bind (.ofExcept (.of_ok rfl)) fun group t₁ hok => ?_
    obtain ⟨hok, rfl⟩ := ofExcept_eq_ok.mp hok
    cases hok
    refine .soft_bind (closeRun_soft _ _ _) fun loop₁ t₁ hclose => ?_
    obtain ⟨hgroups₁, hslots₁, hcontrol₁, hid₁, houtput₁, hpending₁⟩ :=
      closeRun_eq_ok hrun.groups hrun.slots hclose
    refine .soft_bind (encodeNext_soft _ _) fun next t₂ hencode => ?_
    obtain ⟨hstate₂, hawaits⟩ := encodeNext_eq_ok hencode
    rw [← hstate₂] at hgroups₁ hslots₁ hcontrol₁
    have hcontrol : s.control = loop₁.nextGroupId.or t₂.state.control := by
      rw [hcontrol₁, hid₁]
      exact hrun.control
    -- the row joins its group, whichever way the group came to be pending
    have hfinish : ∀ p (loop₂ : Loop Value) (t₃ : Scope AggregateState), t₃.state = t₂.state →
        loop₂.pendingExtrema = loop₁.pendingExtrema → loop₂.nextGroupId = loop₁.nextGroupId →
        loop₂.output = loop₁.output → loop₂.nextGroup = next → p.key = op.groupKey row →
        GroupRun t₂.state.groups (some p) s.groups →
        Mirrors Hard (op.applyPending row p loop₂) t₃ (op.rowMachine.step s row)
          fun loop' t' r => op.Running (done ++ [row]) rest loop' t' r.2 (out ++ r.1) := by
      intro p loop₂ t₃ hstate₃ hslots₂ hid₂ houtput₂ hnext₂ hkey hgroups
      rw [← hstate₃] at hgroups hslots₁ hcontrol
      rw [← hslots₂] at hslots₁
      rw [← hid₂] at hcontrol
      refine (applyPending_mirrors hkey hgroups hslots₁ hcontrol).weaken ?_
      rintro loop' t' r ⟨hgroups', hslots', hcontrol', houtput', hnonzero, hnext'⟩
      refine ⟨?_, hgroups', hslots', hcontrol', ?_, ?_, ?_⟩
      · rw [hnext', hnext₂]
        exact hawaits
      · rw [houtput', houtput₂, houtput₁, hrun.output]
      · intro e he
        rcases List.mem_append.mp he with he | he
        · exact hrun.nonzero e he
        · exact hnonzero e he
      · intro row' hrow'
        rcases List.mem_append.mp hrow' with hrow' | hrow'
        · exact hrun.keyed row' hrow'
        · rw [List.mem_singleton.mp hrow']
          exact hkeyed
    cases hpending : loop₁.pendingGroup with
    | some p =>
      have hkey : p.key = op.groupKey row := by
        rw [hpending] at hpending₁
        split at hpending₁
        · cases hpending₁
        · next hcontinues =>
          rw [Bool.not_eq_true, Option.isNone_eq_false_iff, Option.isSome_iff_exists] at hcontinues
          obtain ⟨q, hq⟩ := hcontinues
          obtain ⟨hq, hsame⟩ := Option.filter_eq_some_iff.mp hq
          rw [← hpending₁] at hq
          cases hq
          exact of_decide_eq_true hsame
      rw [hpending] at hgroups₁
      exact hfinish p _ t₂ rfl rfl rfl rfl rfl hkey hgroups₁
    | none =>
      rw [hpending] at hgroups₁
      have hstored : s.groups = t₂.state.groups := hgroups₁.groups
      refine .soft_bind (load_soft _ _ _) fun p t₃ hload => ?_
      obtain ⟨hstate₃, hkey, hloaded⟩ := load_eq_ok hload
      have hloaded' : GroupRun t₂.state.groups (some p) s.groups := by
        rw [hstored]
        exact hloaded
      exact hfinish p _ t₃ hstate₃ rfl rfl rfl rfl hkey hloaded'

theorem running_nil {rows : List (EventRow Value)}
    {next : Option (Except AggregateError Bytes)} (t : Scope AggregateState)
    (hnext : op.Awaits rows next) :
    op.Running [] rows ⟨next, none, fun _ => none, none, []⟩ t t.state [] where
  next := hnext
  groups := .none _
  slots := .none _
  control := rfl
  output := rfl
  nonzero := fun _ h => by cases h
  keyed := fun _ h => by cases h

/-! ## One change -/

/-- Closing writes back what the loop still holds. -/
theorem close_eq_ok {done : List (EventRow Value)} {loop : Loop Value} {t t' : Scope AggregateState}
    {s : AggregateState} {out : List (Row Value × Int)} {u : Unit}
    (hrun : op.Running done [] loop t s out) (h : op.close loop t = .ok u t') : t'.state = s := by
  obtain ⟨pending, t₁, hflush, h⟩ := bind_eq_ok.mp h
  obtain ⟨hslots, hnone, hsame⟩ := flushAll_eq_ok hrun.slots hflush
  have hentries := hslots.stored_eq hnone
  have hgroups := hrun.groups
  have hcontrol := hrun.control
  rw [← hsame.1] at hgroups
  rw [← hsame.2] at hcontrol
  have hstate : ∀ {u : Scope AggregateState} {v : Unit},
      u.state = ⟨s.groups, t₁.state.entries, t₁.state.control⟩ →
      writeControl loop.nextGroupId u = .ok v t' → t'.state = s := by
    intro u v hu hwrite
    unfold writeControl at hwrite
    cases hid : loop.nextGroupId with
    | none =>
      simp only [hid] at hwrite
      rw [hid] at hcontrol
      obtain ⟨-, rfl⟩ := pure_eq_ok.mp hwrite
      rw [hu, hentries]
      show (⟨s.groups, s.entries, t₁.state.control⟩ : AggregateState) = s
      rw [← show s.control = t₁.state.control from hcontrol]
    | some id =>
      simp only [hid] at hwrite
      rw [hid] at hcontrol
      obtain ⟨_, u₁, hcharge, hwrite⟩ := bind_eq_ok.mp hwrite
      rw [← modify_eq_ok.mp hwrite, charge_state hcharge, hu, hentries]
      show (⟨s.groups, s.entries, some id⟩ : AggregateState) = s
      rw [← show s.control = some id from hcontrol]
  cases hpending : loop.pendingGroup with
  | none =>
    rw [hpending] at hgroups
    simp only [hpending] at h
    have hstored : s.groups = t₁.state.groups := hgroups.groups
    refine hstate ?_ h
    rw [hstored]
  | some p =>
    rw [hpending] at hgroups
    simp only [hpending] at h
    obtain ⟨_, t₂, hwrite, h⟩ := bind_eq_ok.mp h
    exact hstate (flushPendingGroup_eq_ok hgroups hwrite) h

theorem close_soft (loop : Loop Value) (t : Scope AggregateState) :
    Raises (fun e => ¬ Hard e) (op.close loop) t := by
  have hcontrol : ∀ u, Raises (fun e => ¬ Hard e) (writeControl loop.nextGroupId) u := by
    intro u
    unfold writeControl
    cases loop.nextGroupId with
    | none => exact .pure _
    | some id => exact .bind (soft_charge _ _) fun _ _ _ => .modify _
  refine .bind (flushAll_soft _ _ _) fun _ _ _ => ?_
  cases loop.pendingGroup with
  | none => exact hcontrol _
  | some p => exact .bind (flushPendingGroup_soft _ _) fun _ _ _ => hcontrol _

/-- The finished output holds what was emitted, and it can always be built. -/
theorem finishOutput_spec (op : AggregateOperation Ty Value) {output : List (Row Value × Int)}
    (hnonzero : ∀ e ∈ output, e.2 ≠ 0) (t : Scope AggregateState) :
    (∀ change t', op.finishOutput output t = .ok change t' →
      t'.state = t.state ∧ outputEvents change = output) ∧
    Raises (fun e => ¬ Hard e) (op.finishOutput output) t := by
  unfold finishOutput
  by_cases hnil : output = []
  · rw [if_pos hnil]
    refine ⟨?_, .pure _⟩
    intro change t' h
    obtain ⟨rfl, rfl⟩ := pure_eq_ok.mp h
    exact ⟨rfl, hnil.symm⟩
  · rw [if_neg hnil]
    have hnew : Change.tryNew (op.groups.length + op.layout.calls.length) output =
        some ⟨op.groups.length + op.layout.calls.length, output, hnil, hnonzero⟩ := by
      unfold Change.tryNew
      rw [dif_pos ⟨hnil, hnonzero⟩]
    simp only [hnew]
    refine ⟨?_, .bind (soft_charge _ _) fun _ _ _ => .pure _⟩
    intro change t' h
    obtain ⟨_, t₁, hcharge, h⟩ := bind_eq_ok.mp h
    obtain ⟨rfl, rfl⟩ := pure_eq_ok.mp h
    exact ⟨charge_state hcharge, rfl⟩

/-! ### Evaluated columns -/

/-- The columns hold the values of the expressions, event by event. -/
def Evaluated (expressions : List ((OperationError → AggregateError) × BoundExpression Ty Value))
    (events : List (Row Value × Int)) (columns : List (List Value)) : Prop :=
  List.Forall₂ (fun e column =>
    List.Forall₂ (fun event value => e.2.expression event.1 = .ok value) events column)
    expressions columns

section Evaluated

variable {expressions : List ((OperationError → AggregateError) × BoundExpression Ty Value)}
  {events : List (Row Value × Int)} {columns : List (List Value)}

theorem evaluate_eq_ok (h : evaluate expressions events = .ok columns) :
    Evaluated expressions events columns :=
  (mapM_eq_ok h).imp fun _ _ hcolumn => mapM_eq_ok (mapError_eq_ok.mp hcolumn)

/-- An expression that fails reports itself. -/
theorem evaluate_fails {P : AggregateError → Prop}
    (hP : ∀ e ∈ expressions, ∀ source, P (e.1 source)) : Fails P (evaluate expressions events) :=
  .mapM fun e he => .mapError (hP e he)

/-- A row of the columns is what the expressions give for its event. -/
theorem Evaluated.row (h : Evaluated expressions events columns) {i : Nat}
    (hi : i < events.length) :
    expressions.mapM (fun e => (e.2.expression events[i].1).mapError e.1) =
      .ok (rowOf columns i) := by
  unfold Evaluated at h
  induction h with
  | nil => rfl
  | @cons e column expressions columns hcolumn _ ih =>
    have hi' : i < column.length := hcolumn.length_eq ▸ hi
    have hexpression : e.2.expression events[i].1 = .ok column[i] := hcolumn.get hi hi'
    rw [List.mapM_cons, mapError_eq_ok.mpr hexpression, ih]
    have hrow : rowOf (column :: columns) i = column[i] :: rowOf columns i :=
      List.filterMap_cons_some (List.getElem?_eq_getElem hi')
    rw [hrow]
    rfl

end Evaluated

theorem groupExpressions_soft :
    ∀ e ∈ op.groupExpressions, ∀ source, ¬ Hard (e.1 source) := by
  intro e he source
  obtain ⟨x, -, rfl⟩ := List.mem_map.mp he
  exact id

theorem argumentExpressions_soft :
    ∀ e ∈ op.argumentExpressions, ∀ source, ¬ Hard (e.1 source) := by
  intro e he source
  obtain ⟨a, -, rfl⟩ := List.mem_map.mp he
  exact id

/-- The rows of the columns are the rows of the events. -/
theorem eventRows_spec {groups arguments : List (List Value)} {events : List (Row Value × Int)}
    (hgroups : Evaluated op.groupExpressions events groups)
    (harguments : Evaluated op.argumentExpressions events arguments) :
    List.Forall₂ (fun event row => op.eventRow event = .ok row) events
      (eventRows groups arguments events) := by
  unfold eventRows
  rw [List.forall₂_map_right_iff, List.forall₂_iff_get]
  refine ⟨List.length_zipIdx.symm, ?_⟩
  intro i hi hi'
  rw [List.get_eq_getElem, List.get_eq_getElem, List.getElem_zipIdx, Nat.zero_add]
  unfold eventRow
  rw [hgroups.row hi, harguments.row hi]
  rfl

/-! ### The whole call -/

/-- The loop over the rows runs the machine. -/
theorem rows_mirror (rows : List (EventRow Value)) {next : Option (Except AggregateError Bytes)}
    {t : Scope AggregateState} (hnext : op.Awaits rows next) :
    Mirrors Hard (foldTails op.applyRow ⟨next, none, fun _ => none, none, []⟩ rows) t
      (op.rowMachine.run t.state rows) fun loop t' r => op.Running rows [] loop t' r.2 r.1 := by
  have hcomputes : Computes op.rowMachine Hard op.Running op.applyRow :=
    .of_mirrors fun _ _ _ _ _ _ _ hrun => applyRow_mirrors hrun
  constructor
  · intro loop t' h
    obtain ⟨out, s', hmachine, hrun⟩ := hcomputes.run (running_nil t hnext) h
    exact ⟨(out, s'), hmachine, hrun⟩
  · intro e t' h hard
    exact hcomputes.run_error (running_nil t hnext) h hard

/-- The values of a group can be read back from its key. -/
theorem Keyed.decodes {row : EventRow Value} (h : op.Keyed row)
    (hlength : row.groups.length = op.groupFields.length) :
    op.fmt.decodeRow op.groupFields (op.groupKey row) = .ok row.groups := by
  unfold groupKey
  unfold Keyed at h
  generalize op.groupFields = fields at h hlength
  generalize row.groups = values at h hlength
  induction fields generalizing values with
  | nil =>
    cases values with
    | nil => rfl
    | cons _ _ => cases hlength
  | cons field fields ih =>
    cases values with
    | nil => cases hlength
    | cons value values =>
      rw [List.zip_cons_cons] at h
      obtain ⟨⟨limit, bytes, hvalue⟩, hrest⟩ := List.forall_mem_cons.mp h
      have hrow := ih values hrest (Nat.succ.inj hlength)
      simp only [RowFormat.canonicalRow, RowFormat.decodeRow]
      rw [← op.fmt.encode_canonical _ _ _ _ hvalue]
      simp only [op.fmt.decode_encode _ _ _ _ hvalue, hrow, Except.map]

/-- An evaluated row has the widths of the layout and the difference of its event. -/
theorem eventRow_eq_ok {event : Row Value × Int} {row : EventRow Value}
    (h : op.eventRow event = .ok row) : row.groups.length = op.groupFields.length ∧
      row.arguments.length = op.arguments.length ∧ row.difference = event.2 := by
  obtain ⟨groups, hgroups, h⟩ := except_bind_eq_ok.mp h
  obtain ⟨arguments, harguments, h⟩ := except_bind_eq_ok.mp h
  cases h
  refine ⟨?_, ?_, rfl⟩
  · rw [← (mapM_eq_ok hgroups).length_eq]
    simp [groupExpressions, groupFields]
  · rw [← (mapM_eq_ok harguments).length_eq]
    simp [argumentExpressions]

/-- An event whose group can be read back from its key. -/
def Grouped (op : AggregateOperation Ty Value) (event : Row Value × Int) : Prop :=
  ∃ row, op.eventRow event = .ok row ∧
    op.fmt.decodeRow op.groupFields (op.groupKey row) = .ok row.groups

theorem grouped_of_keyed {events : List (Row Value × Int)} {rows : List (EventRow Value)}
    (hrows : List.Forall₂ (fun event row => op.eventRow event = .ok row) events rows)
    (hkeyed : ∀ row ∈ rows, op.Keyed row) : ∀ event ∈ events, op.Grouped event := by
  induction hrows with
  | nil => exact fun _ h => by cases h
  | cons hrow _ ih =>
    obtain ⟨hfirst, hrest⟩ := List.forall_mem_cons.mp hkeyed
    exact List.forall_mem_cons.mpr ⟨⟨_, hrow, hfirst.decodes (eventRow_eq_ok hrow).1⟩, ih hrest⟩

/-- A call does what the machine does with the events of its change. -/
theorem apply_mirrors (port : Nat) (change : Change (Row Value)) (t : Scope AggregateState) :
    Mirrors Hard (op.apply port change) t (op.eventMachine.run t.state change.events)
      fun output t' r => outputEvents output = r.1 ∧ t'.state = r.2 ∧
        ∀ event ∈ change.events, op.Grouped event := by
  unfold apply
  by_cases hport : port ≠ 0
  · rw [if_pos hport]
    exact .soft_throw id
  rw [if_neg hport]
  by_cases hbound : ¬ op.bound change
  · rw [if_pos hbound]
    exact .soft_throw id
  rw [if_neg hbound]
  refine .soft_bind (.ofExcept (evaluate_fails groupExpressions_soft)) fun groups t₁ hgroups => ?_
  obtain ⟨hcolumns, rfl⟩ := ofExcept_eq_ok.mp hgroups
  refine .soft_bind (.ofExcept (evaluate_fails argumentExpressions_soft))
    fun arguments t₁ harguments => ?_
  obtain ⟨hcolumns', rfl⟩ := ofExcept_eq_ok.mp harguments
  -- with its columns there, the call is a loop over rows
  have hrows := eventRows_spec (evaluate_eq_ok hcolumns) (evaluate_eq_ok hcolumns')
  unfold eventMachine
  rw [Machine.run_comapExcept _ _ hrows]
  refine .soft_bind (.forM (fun _ u => soft_charge _ u) _) fun _ t₁ hcharges => ?_
  refine .soft_bind (encodeNext_soft _ _) fun next t₂ hnext => ?_
  obtain ⟨hstate, hawaits⟩ := encodeNext_eq_ok hnext
  rw [← forM_charge_state hcharges, ← hstate]
  refine .bind_soft (rows_mirror _ hawaits) fun loop t₃ r hrun => ?_
  -- what the loop still holds is written before the output is built
  refine .soft_bind (close_soft _ _) fun _ t₄ hclose => ?_
  have hclosed := close_eq_ok hrun hclose
  have hnonzero : ∀ e ∈ loop.output, e.2 ≠ 0 := by
    rw [← hrun.output]
    exact hrun.nonzero
  obtain ⟨hfinish, hsoft⟩ := op.finishOutput_spec hnonzero t₄
  refine .of_soft hsoft fun output t₅ hok => ?_
  obtain ⟨hstate₅, houtput⟩ := hfinish output t₅ hok
  exact ⟨houtput.trans hrun.output.symm, hstate₅.trans hclosed,
    grouped_of_keyed hrows hrun.keyed⟩

/-- The runtime computes the machine. -/
theorem followsEvents (op : AggregateOperation Ty Value) :
    Application.FollowsEvents op.apply op.eventMachine Hard where
  ok := by
    intro change s s' output budget budget' h
    obtain ⟨⟨out, s''⟩, hrun, rfl, rfl, -⟩ := (apply_mirrors 0 change _).ok _ _ h
    exact hrun
  error := fun h hard => (apply_mirrors 0 _ _).error _ _ h hard

end AggregateOperation

open AggregateOperation

/-- The runtime computes the uncached aggregate event by event: every event reads its group and
its keys from the state and writes them back at once. So the cuts of an event sequence are
invisible: outputs, groups, partitions and the next id agree, and so does the event that a
rejected prefix stops at. The key of a group that took an event in gives the values of the group
back, so no two groups share one. -/
theorem aggregate_batching (op : AggregateOperation Ty Value) :
    Application.FollowsEvents op.apply op.eventMachine Hard ∧
      Application.BatchIndependent op.apply Hard ∧
      ∀ port change t output t', op.apply port change t = .ok output t' →
        ∀ event ∈ change.events, ∃ row, op.eventRow event = .ok row ∧
          op.fmt.decodeRow op.groupFields (op.groupKey row) = .ok row.groups := by
  refine ⟨op.followsEvents, op.followsEvents.batchIndependent, ?_⟩
  intro port change t output t' h
  obtain ⟨r, -, -, -, hgrouped⟩ := (apply_mirrors port change t).ok output t' h
  exact hgrouped

end Dogpaddle.Aggregate
