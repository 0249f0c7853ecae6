import Dogpaddle.Lib.Mirror
import Dogpaddle.Operation.Batching
import Dogpaddle.Relation.Row

/-!
# The running event count

`RunningEventCountOperation` counts input events, whatever their differences, and emits
every updated count as an insertion. A change is counted as a whole; one event at a time
the counts are the same, so the cuts of the input are invisible, and over any inputs the
outputs are the numbers from one (`runningEventCount_exact`).
-/

namespace Dogpaddle.RunningEventCount

open Lib Dogpaddle.Relation

/-- Failure during one turn. -/
inductive RunningEventCountError
  | budget
  | invalidInputPort (port : Nat)
  | inputSchemaMismatch
  | overflow
  | change
deriving DecidableEq, Repr

instance : BudgetError RunningEventCountError where
  budgetExceeded := .budget

/-- The boxed form of a failure. -/
def RunningEventCountError.boxed : RunningEventCountError → OperationError
  | .budget => .budgetExceeded
  | .invalidInputPort port => .message s!"running event count does not accept input port {port}"
  | .inputSchemaMismatch =>
    .message "running event count input schema differs from its bound schema"
  | .overflow => .message "running event count overflow"
  | .change => .message "a change cannot be empty"

/-- The stored count; there is none before the first event. -/
abbrev Count := Option UInt64

/-- A materialized running event count. -/
structure RunningEventCountOperation (Value : Type) where
  /-- Whether a change has the bound schema. -/
  bound : Change (Row Value) → Bool
  /-- The column value of a count. -/
  cell : UInt64 → Value
  /-- Logical bytes of a change. -/
  logicalBytes : Change (Row Value) → Nat

/-- `checked_add` on `u64`. -/
def checkedCount (count : UInt64) (rows : Nat) : Option UInt64 :=
  if count.toNat + rows < 2 ^ 64 then some (.ofNat (count.toNat + rows)) else none

variable {Value : Type}

namespace RunningEventCountOperation

variable (op : RunningEventCountOperation Value)

/-- The counts after `count`, each an insertion. -/
def counts (count : UInt64) (rows : Nat) : List (Row Value × Int) :=
  (List.range rows).map fun row => ([op.cell (.ofNat (count.toNat + 1 + row))], 1)

/-- Counts a whole change. -/
def apply (port : Nat) (change : Change (Row Value)) :
    Attempt RunningEventCountError Count (Option (Change (Row Value))) := do
  StepBudget.charge (op.logicalBytes change)
  if port ≠ 0 then throw (.invalidInputPort port)
  else if ¬ op.bound change then throw .inputSchemaMismatch
  else do
    StepBudget.charge (16 + change.numRows * 16)
    let current := (← get).state.getD 0
    match checkedCount current change.numRows with
    | none => throw .overflow
    | some final =>
      match Change.tryNew 1 (op.counts current change.numRows) with
      | none => throw .change
      | some output => do
        modify fun s => { s with state := some final }
        pure (some output)

/-- The running event count as an atomic operator. -/
def atomic : AtomicOperation Count (Row Value) :=
  Application.atomic op.apply RunningEventCountError.boxed

/-! ## One event at a time -/

/-- Counts one event. -/
def eventStep (count : Count) (_ : Row Value × Int) :
    Except RunningEventCountError (List (Row Value × Int) × Count) :=
  match checkedCount (count.getD 0) 1 with
  | none => .error .overflow
  | some next => .ok ([([op.cell next], 1)], some next)

def eventMachine :
    Machine Count (Row Value × Int) (Row Value × Int) RunningEventCountError :=
  ⟨op.eventStep⟩

end RunningEventCountOperation

/-- A count is exhausted, or an output is empty. -/
def Hard : RunningEventCountError → Prop
  | .overflow | .change => True
  | _ => False

namespace RunningEventCountOperation

variable {op : RunningEventCountOperation Value}

theorem checkedCount_eq_some {count final : UInt64} {rows : Nat}
    (h : checkedCount count rows = some final) :
    count.toNat + rows < 2 ^ 64 ∧ final.toNat = count.toNat + rows := by
  unfold checkedCount at h
  split at h
  · next hroom =>
    cases h
    exact ⟨hroom, by rw [UInt64.toNat_ofNat', Nat.mod_eq_of_lt hroom]⟩
  · cases h

/-- The first count, then those after it. -/
theorem counts_succ {count next : UInt64} (h : checkedCount count 1 = some next) (rows : Nat) :
    op.counts count (rows + 1) = ([op.cell next], 1) :: op.counts next rows := by
  obtain ⟨-, hnext⟩ := checkedCount_eq_some h
  unfold counts
  rw [List.range_succ_eq_map, List.map_cons, List.map_map]
  have hfirst : UInt64.ofNat (count.toNat + 1 + 0) = next := by
    rw [Nat.add_zero, ← hnext, UInt64.ofNat_toNat]
  rw [hfirst]
  congr 1
  apply List.map_congr_left
  intro row _
  show ([op.cell (.ofNat (count.toNat + 1 + (row + 1)))], (1 : Int)) = _
  rw [hnext]
  congr 4
  omega

/-- A run of the machine counts its events, and it fails exactly where the count overflows. -/
theorem run_eq (events : List (Row Value × Int)) (count : Count) :
    op.eventMachine.run count events =
      if (count.getD 0).toNat + events.length < 2 ^ 64 then
        .ok (op.counts (count.getD 0) events.length,
          if events = [] then count else some (.ofNat ((count.getD 0).toNat + events.length)))
      else .error .overflow := by
  -- the induction generalizes the count: every event moves it by one
  induction events generalizing count with
  | nil =>
    rw [if_pos (by simpa using (count.getD 0).toNat_lt)]
    rfl
  | cons event events ih =>
    cases hnext : checkedCount (count.getD 0) 1 with
    | none =>
      have hstep : op.eventMachine.step count event = .error .overflow := by
        show op.eventStep count event = _
        simp only [eventStep, hnext]
      rw [Machine.run_cons_of_error hstep, if_neg]
      unfold checkedCount at hnext
      split at hnext
      · cases hnext
      · next hfull =>
        rw [List.length_cons]
        omega
    | some next =>
      have hstep : op.eventMachine.step count event = .ok ([([op.cell next], 1)], some next) := by
        show op.eventStep count event = _
        simp only [eventStep, hnext]
      obtain ⟨-, hsum⟩ := checkedCount_eq_some hnext
      rw [Machine.run_cons_of_ok hstep, ih (some next), Option.getD_some, List.length_cons,
        counts_succ hnext, hsum, Nat.add_assoc, Nat.add_comm 1 events.length]
      split
      · cases events with
        | nil =>
          rw [if_pos rfl, if_neg (List.cons_ne_nil _ _)]
          have hfinal : UInt64.ofNat ((count.getD 0).toNat + (0 + 1)) = next := by
            rw [Nat.zero_add, ← hsum, UInt64.ofNat_toNat]
          rw [List.length_nil, hfinal]
          rfl
        | cons _ _ =>
          rw [if_neg (List.cons_ne_nil _ _), if_neg (List.cons_ne_nil _ _)]
          rfl
      · rfl

theorem length_counts (op : RunningEventCountOperation Value) (count : UInt64) (rows : Nat) : (op.counts count rows).length = rows := by
  simp [counts]

/-- One call counts the events of its change one after another. -/
theorem apply_mirrors (port : Nat) (change : Change (Row Value)) (t : Scope Count) :
    Mirrors Hard (op.apply port change) t (op.eventMachine.run t.state change.events)
      fun output t' r => outputEvents output = r.1 ∧ t'.state = r.2 := by
  have hsoft : ∀ bytes (u : Scope Count), Raises (fun e => ¬ Hard e)
      (StepBudget.charge bytes : Attempt RunningEventCountError Count Unit) u :=
    fun bytes u => StepBudget.raises_charge (show ¬ Hard .budget from id) bytes u
  unfold apply
  refine .soft_bind (hsoft _ _) fun _ t₁ hcharge => ?_
  by_cases hport : port ≠ 0
  · rw [if_pos hport]
    exact .soft_throw id
  rw [if_neg hport]
  by_cases hbound : ¬ op.bound change
  · rw [if_pos hbound]
    exact .soft_throw id
  rw [if_neg hbound]
  refine .soft_bind (hsoft _ _) fun _ t₂ hcharge' => .get ?_
  have hstate : t₂.state = t.state :=
    (StepBudget.charge_eq_ok hcharge').1.trans (StepBudget.charge_eq_ok hcharge).1
  rw [hstate, run_eq]
  dsimp only
  by_cases hroom : (t.state.getD 0).toNat + change.events.length < 2 ^ 64
  · have hchecked : checkedCount (t.state.getD 0) change.numRows =
        some (.ofNat ((t.state.getD 0).toNat + change.events.length)) := if_pos hroom
    have hnew : ∃ output, Change.tryNew 1 (op.counts (t.state.getD 0) change.numRows) =
        some output ∧ output.events = op.counts (t.state.getD 0) change.numRows := by
      unfold Change.tryNew
      rw [dif_pos]
      · exact ⟨_, rfl, rfl⟩
      · refine ⟨?_, ?_⟩
        · intro hnil
          have hlength := op.length_counts (t.state.getD 0) change.numRows
          rw [hnil] at hlength
          exact absurd hlength (Nat.ne_of_lt change.numRows_pos)
        · intro e he
          obtain ⟨_, -, rfl⟩ := List.mem_map.mp he
          exact one_ne_zero
    obtain ⟨output, houtput, hevents⟩ := hnew
    rw [if_pos hroom, if_neg change.nonempty]
    simp only [hchecked, houtput]
    exact .modify_bind (.pure ⟨hevents, rfl⟩)
  · have hchecked : checkedCount (t.state.getD 0) change.numRows = none := if_neg hroom
    rw [if_neg hroom]
    simp only [hchecked]
    exact .throw _

theorem followsEvents (op : RunningEventCountOperation Value) :
    Application.FollowsEvents op.apply op.eventMachine Hard where
  ok := by
    intro change s s' output budget budget' h
    obtain ⟨⟨out, s''⟩, hrun, rfl, rfl⟩ := (apply_mirrors 0 change _).ok _ _ h
    exact hrun
  error := fun h hard => (apply_mirrors 0 _ _).error _ _ h hard

end RunningEventCountOperation

open RunningEventCountOperation

/-- The cuts of the input are invisible, and the first events of a count emit the numbers from
one, as long as they fit. -/
theorem runningEventCount_exact (op : RunningEventCountOperation Value) :
    Application.BatchIndependent op.apply Hard ∧
      ∀ changes outputs s, Application.AppliesAll op.apply none changes outputs s →
        (inputsEvents changes).length < 2 ^ 64 ∧
        outputsEvents outputs = (List.range (inputsEvents changes).length).map
          fun row => ([op.cell (.ofNat (row + 1))], 1) := by
  refine ⟨op.followsEvents.batchIndependent, ?_⟩
  intro changes outputs s h
  have hrun := op.followsEvents.run h
  rw [run_eq] at hrun
  split at hrun
  · next hroom =>
    obtain ⟨hcounts, -⟩ := Prod.mk.inj (Except.ok.inj hrun)
    refine ⟨by simpa using hroom, ?_⟩
    rw [← hcounts]
    unfold counts
    apply List.map_congr_left
    intro row _
    show ([op.cell (.ofNat (0 + 1 + row))], (1 : Int)) = _
    rw [Nat.zero_add, Nat.add_comm]
  · cases hrun

def byteCount : RunningEventCountOperation (Option UInt8) :=
  ⟨fun _ => true, fun count => some count.toUInt8, fun change => change.numRows * 8⟩

/-- Three events in two changes; one of them is a retraction. -/
def byteEvents : List (Nat × Change (Row (Option UInt8))) :=
  [(0, ⟨1, [([some 7], 2), ([some 7], -2)], by simp, by simp⟩),
    (0, ⟨1, [([none], 5)], by simp, by simp⟩)]

theorem byteCount_exact : ∃ outputs s,
    Application.AppliesAll byteCount.apply none (byteEvents.map (·.2)) outputs s ∧
    outputsEvents outputs = [([some 1], 1), ([some 2], 1), ([some 3], 1)] := by
  have h : (runInputs (.atomic byteCount.atomic : Operation Count Unit _)
      ⟨8, 4096⟩ 1 none byteEvents).isSome = true := by
    decide +kernel
  obtain ⟨⟨outputs, s⟩, hrun⟩ := Option.isSome_iff_exists.mp h
  have happlies := Application.appliesAll_of_handlesAll (handlesAll_of_runInputs hrun) (by decide)
  refine ⟨outputs, s, happlies, ?_⟩
  rw [((runningEventCount_exact byteCount).2 _ _ _ happlies).2]
  rfl

end Dogpaddle.RunningEventCount
