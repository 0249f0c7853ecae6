import Dogpaddle.Distinct.Runtime
import Dogpaddle.Lib.Prefix

/-!
# Distinct without its cache

`eventMachine` is the distinct as its definition describes it: every event reads,
adjusts and writes the weight of its row. The runtime computes this machine, so

* neither the runs nor the cuts of the input are visible (`distinct_batching`);
* the outputs add up to one row for each row that is present, and no prefix of
  them retracts a row that is not there (`distinct_incremental`).
-/

namespace Dogpaddle.Distinct

open Lib Store Dogpaddle.Relation

variable {Ty Value : Type}

/-- Failures that are no fault of the allowance, the caller or a malformed row. -/
def Hard : DistinctError → Prop
  | .negativeWeight | .weightOverflow | .panicked | .change => True
  | _ => False

/-- Why a weight rejects a difference. -/
def rejection (difference : Int) : DistinctError :=
  if difference > 0 then .weightOverflow else .negativeWeight

namespace DistinctOperation

variable (op : DistinctOperation Ty Value)

/-- The key of a row. -/
def key (row : Row Value) : Bytes := op.fmt.canonicalRow op.inputSchema row

/-- One event, with its weight read and written at once. -/
def eventStep (weights : Weights) (event : Row Value × Int) :
    Except DistinctError (List (Row Value × Int) × Weights) :=
  let before := multiplicity weights (op.key event.1)
  match adjustedWeight before event.2 with
  | none => .error (rejection event.2)
  | some after => .ok ((outputDifference before after).toList.map fun d => (event.1, d),
      setMultiplicity weights (op.key event.1) after)

/-- Distinct, one event at a time. -/
def eventMachine : Machine Weights (Row Value × Int) (Row Value × Int) DistinctError :=
  ⟨op.eventStep⟩

end DistinctOperation

/-! ## Runs -/

/-- The weights with the pending run written back. -/
def written (weights : Weights) : Option PendingWeight → Weights
  | none => weights
  | some pending => setMultiplicity weights pending.key pending.current

/-- The pending run holds the stored weight it started from. -/
def Loaded (weights : Weights) (pending : Option PendingWeight) : Prop :=
  ∀ p, pending = some p → multiplicity weights p.key = p.persisted

theorem flushWeight_eq_ok {pending : PendingWeight} {t t' : Scope Weights} {u : Unit}
    (hloaded : multiplicity t.state pending.key = pending.persisted)
    (h : flushWeight pending t = .ok u t') : t'.state = written t.state (some pending) := by
  unfold flushWeight at h
  split at h
  · obtain ⟨_, t₁, hcharge, h⟩ := bind_eq_ok.mp h
    rw [← modify_eq_ok.mp h, ← (StepBudget.charge_eq_ok hcharge).1]
    rfl
  · next hsame =>
    obtain ⟨-, rfl⟩ := pure_eq_ok.mp h
    rw [not_not] at hsame
    show t.state = setMultiplicity t.state pending.key pending.current
    rw [hsame, ← hloaded, setMultiplicity_self]

theorem loadWeight_eq_ok {row : Bytes} {p : PendingWeight} {t t' : Scope Weights}
    (h : loadWeight row t = .ok p t') : t'.state = t.state ∧
      p = ⟨row, multiplicity t.state row, multiplicity t.state row⟩ := by
  obtain ⟨_, t₁, hcharge, h⟩ := bind_eq_ok.mp h
  obtain ⟨_, t₂, hget, h⟩ := bind_eq_ok.mp h
  obtain ⟨rfl, rfl⟩ := get_eq_ok.mp hget
  obtain ⟨rfl, rfl⟩ := pure_eq_ok.mp h
  rw [(StepBudget.charge_eq_ok hcharge).1]
  exact ⟨rfl, rfl⟩

/-- The run of a row holds its weight, and the weights as they would be written stay. -/
theorem runOf_eq_ok {row : Bytes} {pending : Option PendingWeight} {p : PendingWeight}
    {t t' : Scope Weights} (hloaded : Loaded t.state pending)
    (h : runOf row pending t = .ok p t') :
    p.key = row ∧ p.current = multiplicity (written t.state pending) row ∧
      Loaded t'.state (some p) ∧ written t'.state (some p) = written t.state pending := by
  have hload : ∀ {t : Scope Weights}, loadWeight row t = .ok p t' →
      p.key = row ∧ p.current = multiplicity t.state row ∧
        Loaded t'.state (some p) ∧ written t'.state (some p) = t.state := by
    intro t h
    obtain ⟨hstate, rfl⟩ := loadWeight_eq_ok h
    refine ⟨rfl, rfl, ?_, ?_⟩
    · intro q hq
      cases hq
      show multiplicity t'.state row = multiplicity t.state row
      rw [hstate]
    · show setMultiplicity t'.state row (multiplicity t.state row) = t.state
      rw [hstate, setMultiplicity_self]
  cases pending with
  | none => exact hload h
  | some q =>
    by_cases hkey : q.key ≠ row
    · simp only [runOf, if_pos hkey] at h
      obtain ⟨_, t₁, hflush, h⟩ := bind_eq_ok.mp h
      rw [← flushWeight_eq_ok (hloaded q rfl) hflush]
      exact hload h
    · simp only [runOf, if_neg hkey] at h
      obtain ⟨rfl, rfl⟩ := pure_eq_ok.mp h
      rw [not_not] at hkey
      refine ⟨hkey, ?_, hloaded, rfl⟩
      show q.current = multiplicity (setMultiplicity t.state q.key q.current) row
      rw [hkey, multiplicity_setMultiplicity, if_pos rfl]

/-! ## Failures -/

theorem budget_soft : ¬ Hard DistinctError.budget := id

/-- A charge fails softly. -/
theorem soft_charge (bytes : Nat) (t : Scope Weights) :
    Raises (fun e => ¬ Hard e) (StepBudget.charge bytes : DistinctAttempt Unit) t :=
  StepBudget.raises_charge budget_soft bytes t

theorem flushWeight_soft (pending : PendingWeight) (t : Scope Weights) :
    Raises (fun e => ¬ Hard e) (flushWeight pending) t :=
  .ite (fun _ => .bind (soft_charge _ _) fun _ _ _ => .modify _) fun _ => .pure _

theorem loadWeight_soft (row : Bytes) (t : Scope Weights) :
    Raises (fun e => ¬ Hard e) (loadWeight row) t :=
  .bind (soft_charge _ _) fun _ _ _ => .get (.pure _)

theorem runOf_soft (row : Bytes) (pending : Option PendingWeight) (t : Scope Weights) :
    Raises (fun e => ¬ Hard e) (runOf row pending) t := by
  cases pending with
  | none => exact loadWeight_soft row t
  | some p =>
    exact .ite (fun _ => .bind (flushWeight_soft p t) fun _ t₁ _ => loadWeight_soft row t₁)
      fun _ => .pure _

theorem decodeError_soft (e : RowError) : ¬ Hard (decodeError e : DistinctError) := by
  cases e with
  | sizeLimit => exact id
  | trailingBytes => exact id
  | invalidValue => exact id

/-- The store rejects what the run rejected, with the error of its sign. -/
theorem checkedWeight_of_rejected {before : Nat} {difference : Int}
    (h : adjustedWeight before difference = none) :
    checkedWeight before difference = .error (rejection difference) := by
  unfold adjustedWeight at h
  unfold checkedWeight rejection
  split at h
  · next hpos =>
    split at h
    · cases h
    · next hover => rw [if_pos hpos.le, if_neg hover, if_pos hpos]
  · next hpos =>
    split at h
    · cases h
    · next hunder =>
      have hneg : ¬ difference ≥ 0 := by omega
      rw [if_neg hneg, if_neg hunder, if_neg hpos]

/-- A rejected prefix is reported with the error of its sign, or the allowance ends. -/
theorem reject_raises {α : Type} {pending : PendingWeight} {difference : Int}
    {t : Scope Weights} (hloaded : Loaded t.state (some pending))
    (hnone : adjustedWeight pending.current difference = none) :
    Raises (fun e => e = .budget ∨ e = rejection difference)
      (reject pending difference : DistinctAttempt α) t := by
  refine .bind ?_ fun _ t₁ hflush => .bind ?_ fun _ t₂ hcharge => .get ?_
  · exact .ite (fun _ => .bind (StepBudget.raises_charge (.inl rfl) _ _) fun _ _ _ => .modify _)
      fun _ => .pure _
  · exact StepBudget.raises_charge (.inl rfl) _ _
  · have hstate : multiplicity t₂.state pending.key = pending.current := by
      rw [(StepBudget.charge_eq_ok hcharge).1, flushWeight_eq_ok (hloaded pending rfl) hflush]
      simp [written]
    rw [hstate, checkedWeight_of_rejected hnone]
    exact .throw (.inr rfl)

theorem reject_ne_ok {α : Type} {pending : PendingWeight} {difference : Int}
    {t t' : Scope Weights} {a : α} :
    (reject pending difference : DistinctAttempt α) t ≠ .ok a t' := by
  intro h
  obtain ⟨_, t₁, _, h⟩ := bind_eq_ok.mp h
  obtain ⟨_, t₂, _, h⟩ := bind_eq_ok.mp h
  obtain ⟨s, t₃, _, h⟩ := bind_eq_ok.mp h
  cases hchecked : checkedWeight (multiplicity s.state pending.key) difference with
  | error e =>
    simp only [hchecked] at h
    exact (throw_eq_ok.mp h).elim
  | ok after =>
    simp only [hchecked] at h
    exact (throw_eq_ok.mp h).elim

/-! ## One event -/

theorem filterRows_append {done : List (Row Value × Int)} {selected : List Bool}
    (hlength : selected.length = done.length) (event : Row Value × Int) (b : Bool) :
    DistinctOperation.filterRows (done ++ [event]) (selected ++ [b]) =
      DistinctOperation.filterRows done selected ++ if b then [event.1] else [] := by
  unfold DistinctOperation.filterRows
  rw [List.zip_append hlength.symm, List.filterMap_append]
  cases b <;> simp

theorem filterRows_length_le (events : List (Row Value × Int)) (selected : List Bool) :
    (DistinctOperation.filterRows events selected).length ≤ events.length := by
  refine (List.length_filterMap_le _ _).trans ?_
  rw [List.length_zip]
  exact Nat.min_le_left _ _

/-- Where nothing is dropped, everything is selected. -/
theorem filterRows_full {events : List (Row Value × Int)} {selected : List Bool}
    (h : (DistinctOperation.filterRows events selected).length = events.length) :
    DistinctOperation.filterRows events selected = events.map (·.1) := by
  induction events generalizing selected with
  | nil => rfl
  | cons e events ih =>
    cases selected with
    | nil => cases h
    | cons b selected =>
      have hle := filterRows_length_le events selected
      unfold DistinctOperation.filterRows at h hle ih ⊢
      cases b with
      | false =>
        simp at h hle
        omega
      | true =>
        simp only [List.zip_cons_cons, List.filterMap_cons, if_true, List.length_cons,
          Nat.add_right_cancel_iff] at h
        simp [ih h]

namespace DistinctOperation

variable {op : DistinctOperation Ty Value}

/-- What the loop keeps after `done`, next to the weights and the outputs of the machine. -/
structure Running (op : DistinctOperation Ty Value) (done : List (Row Value × Int))
    (loop : Selection) (t : Scope Weights) (weights : Weights) (out : List (Row Value × Int)) :
    Prop where
  weights : weights = written t.state loop.pending
  loaded : Loaded t.state loop.pending
  writable : ∀ e ∈ done, op.fmt.Writable op.inputSchema e.1
  selected : loop.selected.length = done.length
  rows : (filterRows done loop.selected).length = loop.outputDiffs.length
  diffs : ∀ d ∈ loop.outputDiffs, d ≠ 0
  out : out = (filterRows done loop.selected).zip loop.outputDiffs

theorem encodeRow_eq_ok {row : Row Value} {bytes : Bytes} {t t' : Scope Weights}
    (h : op.encodeRow row t = .ok bytes t') :
    t'.state = t.state ∧ bytes = op.key row ∧ op.fmt.Writable op.inputSchema row := by
  obtain ⟨_, t₁, hget, h⟩ := bind_eq_ok.mp h
  obtain ⟨rfl, rfl⟩ := get_eq_ok.mp hget
  obtain ⟨size, t₁, hsize, h⟩ := bind_eq_ok.mp h
  obtain ⟨-, rfl⟩ := ofExcept_eq_ok.mp hsize
  obtain ⟨_, t₂, hcharge, h⟩ := bind_eq_ok.mp h
  obtain ⟨hbytes, rfl⟩ := ofExcept_eq_ok.mp h
  obtain ⟨hkey, hwritable⟩ := RowFormat.writable_of_ok (mapError_eq_ok.mp hbytes)
  exact ⟨(StepBudget.charge_eq_ok hcharge).1, hkey, hwritable⟩

theorem encodeRow_soft (row : Row Value) (t : Scope Weights) :
    Raises (fun e => ¬ Hard e) (op.encodeRow row) t :=
  .get <| .bind (.ofExcept (.mapError decodeError_soft)) fun _ _ _ =>
    .bind (soft_charge _ _) fun _ _ _ => .ofExcept (.mapError fun _ => id)

theorem outputDifference_ne_zero {before after : Nat} {d : Int}
    (h : outputDifference before after = some d) : d ≠ 0 := by
  unfold outputDifference at h
  split at h
  · cases h
    decide
  · split at h
    · cases h
      decide
    · cases h

theorem zip_toList {rows : List (Row Value)} {diffs : List Int}
    (hlength : rows.length = diffs.length) (row : Row Value) (d : Option Int) :
    (rows ++ if d.isSome then [row] else []).zip (diffs ++ d.toList) =
      rows.zip diffs ++ d.toList.map fun d => (row, d) := by
  rw [List.zip_append hlength]
  cases d <;> rfl

/-- One event of the loop is one event of the machine. -/
theorem applyRow_computes : Computes op.eventMachine Hard (fun done _ => op.Running done)
    fun loop event _ => op.applyRow loop event where
  ok := by
    intro done rest loop loop' t t' weights out event hrun h
    obtain ⟨bytes, t₁, hencode, h⟩ := bind_eq_ok.mp h
    obtain ⟨hstate, rfl, hwritable⟩ := encodeRow_eq_ok hencode
    obtain ⟨p, t₂, hpending, h⟩ := bind_eq_ok.mp h
    have hloaded := hrun.loaded
    have hweights := hrun.weights
    rw [← hstate] at hloaded hweights
    obtain ⟨hkey, hcurrent, hloaded', hwritten⟩ := runOf_eq_ok hloaded hpending
    rw [← hweights] at hcurrent hwritten
    cases hafter : adjustedWeight p.current event.2 with
    | none =>
      simp only [hafter] at h
      exact (reject_ne_ok h).elim
    | some after =>
      simp only [hafter] at h
      obtain ⟨rfl, rfl⟩ := pure_eq_ok.mp h
      refine ⟨(outputDifference p.current after).toList.map fun d => (event.1, d),
        setMultiplicity weights (op.key event.1) after, ?_, ?_, ?_, ?_, ?_, ?_, ?_, ?_⟩
      · show op.eventStep weights event = _
        simp only [eventStep, ← hcurrent, hafter]
      · show _ = setMultiplicity t₂.state p.key after
        rw [← hwritten, ← hkey]
        exact setMultiplicity_again _ _ _ _
      · intro q hq
        cases hq
        exact hloaded' p rfl
      · intro e he
        rcases List.mem_append.mp he with he | he
        · exact hrun.writable e he
        · rw [List.mem_singleton.mp he]
          exact hwritable
      · simp [hrun.selected]
      · rw [filterRows_append hrun.selected, List.length_append, List.length_append, hrun.rows]
        cases outputDifference p.current after <;> rfl
      · intro d hd
        rcases List.mem_append.mp hd with hd | hd
        · exact hrun.diffs d hd
        · exact outputDifference_ne_zero (Option.mem_toList.mp hd)
      · rw [filterRows_append hrun.selected, hrun.out]
        exact (zip_toList hrun.rows _ _).symm
  error := by
    intro done rest loop t t' weights out event e hrun h hard
    show op.eventStep weights event = .error e
    cases hencode : op.encodeRow event.1 t with
    | error e' t₁ =>
      unfold applyRow at h
      rw [bind_of_error hencode] at h
      cases h
      exact absurd hard (encodeRow_soft _ _ _ _ hencode)
    | ok bytes t₁ =>
      unfold applyRow at h
      rw [bind_of_ok hencode] at h
      obtain ⟨hstate, rfl, -⟩ := encodeRow_eq_ok hencode
      have hloaded := hrun.loaded
      have hweights := hrun.weights
      rw [← hstate] at hloaded hweights
      cases hpending : runOf (op.key event.1) loop.pending t₁ with
      | error e' t₂ =>
        rw [bind_of_error hpending] at h
        cases h
        exact absurd hard (runOf_soft _ _ _ _ _ hpending)
      | ok p t₂ =>
        rw [bind_of_ok hpending] at h
        obtain ⟨-, hcurrent, hloaded', -⟩ := runOf_eq_ok hloaded hpending
        rw [← hweights] at hcurrent
        cases hafter : adjustedWeight p.current event.2 with
        | none =>
          simp only [hafter] at h
          rcases reject_raises hloaded' hafter _ _ h with rfl | rfl
          · exact absurd hard budget_soft
          · simp only [eventStep, ← hcurrent, hafter]
        | some after =>
          simp only [hafter] at h
          cases h

/-! ## One change -/

theorem outputs_nonzero {done : List (Row Value × Int)} {loop : Selection} {t : Scope Weights}
    {weights : Weights} {out : List (Row Value × Int)}
    (hrun : op.Running done loop t weights out) : ∀ e ∈ out, e.2 ≠ 0 := by
  intro e he
  rw [hrun.out] at he
  exact hrun.diffs e.2 (List.of_mem_zip he).2

/-- The output is what the machine emitted. -/
theorem finish_spec {change : Change (Row Value)} {loop : Selection} {t u : Scope Weights}
    {weights : Weights} {out : List (Row Value × Int)}
    (hrun : op.Running change.events loop t weights out) :
    (∀ output u', op.finish change loop u = .ok output u' →
      u'.state = u.state ∧ outputEvents output = out) ∧
    Raises (fun e => ¬ Hard e) (op.finish change loop) u := by
  have hbuild : ∀ (records : List (Row Value)) (u : Scope Weights),
      records = filterRows change.events loop.selected → loop.outputDiffs ≠ [] →
      ∃ output, Change.tryNew op.inputSchema.length (records.zip loop.outputDiffs) = some output ∧
        output.events = out := by
    intro records u hrecords hdiffs
    have hout : records.zip loop.outputDiffs = out := by rw [hrecords, hrun.out]
    have hne : out ≠ [] := by
      intro hnil
      have hlength := congrArg List.length hrun.out
      rw [hnil, List.length_zip, hrun.rows, Nat.min_self] at hlength
      exact hdiffs (List.length_eq_zero_iff.mp hlength.symm)
    unfold Change.tryNew
    rw [hout, dif_pos ⟨hne, outputs_nonzero hrun⟩]
    exact ⟨_, rfl, rfl⟩
  unfold finish
  by_cases hdiffs : loop.outputDiffs = []
  · rw [if_pos hdiffs]
    refine ⟨?_, .pure _⟩
    intro output u' h
    obtain ⟨rfl, rfl⟩ := pure_eq_ok.mp h
    refine ⟨rfl, ?_⟩
    rw [hrun.out, hdiffs, List.zip_nil_right]
    rfl
  rw [if_neg hdiffs]
  by_cases hfull : loop.outputDiffs.length = change.numRows
  · rw [if_pos hfull]
    have hall := filterRows_full (hrun.rows.trans hfull)
    obtain ⟨built, hnew, hevents⟩ := hbuild _ u hall.symm hdiffs
    refine ⟨?_, ?_⟩
    · intro output u' h
      obtain ⟨records, u₁, hrecords, h⟩ := bind_eq_ok.mp h
      obtain ⟨rfl, rfl⟩ := pure_eq_ok.mp hrecords
      simp only [hnew] at h
      obtain ⟨rfl, rfl⟩ := pure_eq_ok.mp h
      exact ⟨rfl, hevents⟩
    · refine .bind (.pure _) fun records u₁ hrecords => ?_
      obtain ⟨rfl, rfl⟩ := pure_eq_ok.mp hrecords
      simp only [hnew]
      exact .pure _
  · rw [if_neg hfull]
    obtain ⟨built, hnew, hevents⟩ := hbuild _ u rfl hdiffs
    refine ⟨?_, ?_⟩
    · intro output u' h
      obtain ⟨_, u₁, hcharge, h⟩ := bind_eq_ok.mp h
      obtain ⟨records, u₂, hrecords, h⟩ := bind_eq_ok.mp h
      obtain ⟨rfl, rfl⟩ := pure_eq_ok.mp hrecords
      simp only [hnew] at h
      obtain ⟨rfl, rfl⟩ := pure_eq_ok.mp h
      exact ⟨(StepBudget.charge_eq_ok hcharge).1, hevents⟩
    · refine .bind (soft_charge _ _) fun _ _ _ => .bind (.pure _) fun records u₁ hrecords => ?_
      obtain ⟨rfl, rfl⟩ := pure_eq_ok.mp hrecords
      simp only [hnew]
      exact .pure _

theorem running_nil (t : Scope Weights) : op.Running [] ⟨none, [], []⟩ t t.state [] where
  weights := rfl
  loaded := fun _ h => by cases h
  writable := fun _ h => by cases h
  selected := rfl
  rows := rfl
  diffs := fun _ h => by cases h
  out := rfl

/-- A change that is taken in runs the machine on its events. -/
theorem apply_eq_ok {port : Nat} {change : Change (Row Value)} {t t' : Scope Weights}
    {output : Option (Change (Row Value))} (h : op.apply port change t = .ok output t') :
    port = 0 ∧ op.eventMachine.run t.state change.events = .ok (outputEvents output, t'.state) ∧
      ∀ e ∈ change.events, op.fmt.Writable op.inputSchema e.1 := by
  unfold apply at h
  split at h
  · exact (throw_eq_ok.mp h).elim
  next hport =>
  split at h
  · exact (throw_eq_ok.mp h).elim
  obtain ⟨_, t₁, hcharge, h⟩ := bind_eq_ok.mp h
  obtain ⟨_, t₂, hcharge', h⟩ := bind_eq_ok.mp h
  have hstate : t₂.state = t.state := by
    rw [(StepBudget.charge_eq_ok hcharge').1, (StepBudget.charge_eq_ok hcharge).1]
  obtain ⟨loop, t₃, hloop, h⟩ := bind_eq_ok.mp h
  rw [foldlM_eq_foldTails] at hloop
  obtain ⟨out, weights, hmachine, hrun⟩ := applyRow_computes.run (running_nil t₂) hloop
  rw [List.nil_append] at hrun
  rw [hstate] at hmachine
  have hout : t'.state = weights ∧ outputEvents output = out := by
    rw [hrun.weights]
    cases hpending : loop.pending with
    | none =>
      simp only [hpending] at h
      exact (finish_spec hrun).1 _ _ h
    | some p =>
      simp only [hpending] at h
      obtain ⟨_, t₄, hflush, h⟩ := bind_eq_ok.mp h
      rw [← flushWeight_eq_ok (hrun.loaded p hpending) hflush]
      exact (finish_spec hrun).1 _ _ h
  refine ⟨not_not.mp hport, ?_, hrun.writable⟩
  rw [hmachine, hout.1, hout.2]

/-- A change that fails hard fails where the machine does. -/
theorem apply_error {port : Nat} {change : Change (Row Value)} {t t' : Scope Weights}
    {e : DistinctError} (h : op.apply port change t = .error e t') (hard : Hard e) :
    op.eventMachine.run t.state change.events = .error e := by
  have hraises : Raises (fun e => Hard e → op.eventMachine.run t.state change.events = .error e)
      (op.apply port change) t := by
    refine .ite (fun _ => .throw fun h => h.elim) fun _ => .ite (fun _ => .throw fun h => h.elim)
      fun _ => .bind ((soft_charge _ _).imp fun _ hsoft h => absurd h hsoft) fun _ t₁ hcharge =>
        .bind ((soft_charge _ _).imp fun _ hsoft h => absurd h hsoft) fun _ t₂ hcharge' => ?_
    have hstate : t₂.state = t.state := by
      rw [(StepBudget.charge_eq_ok hcharge').1, (StepBudget.charge_eq_ok hcharge).1]
    rw [← hstate]
    refine .bind ?_ fun loop t₃ hloop => ?_
    · intro e t' herror hard
      rw [foldlM_eq_foldTails] at herror
      exact applyRow_computes.run_error (running_nil t₂) herror hard
    · rw [foldlM_eq_foldTails] at hloop
      obtain ⟨out, weights, -, hrun⟩ := applyRow_computes.run (running_nil t₂) hloop
      rw [List.nil_append] at hrun
      have hfinish : ∀ u, Raises (fun e => Hard e →
          op.eventMachine.run t₂.state change.events = .error e) (op.finish change loop) u :=
        fun _ => (finish_spec hrun).2.imp fun _ hsoft h => absurd h hsoft
      cases hpending : loop.pending with
      | none => exact hfinish _
      | some p =>
        exact .bind ((flushWeight_soft _ _).imp fun _ hsoft h => absurd h hsoft)
          fun _ _ _ => hfinish _
  exact hraises e t' h hard

/-- The runtime computes the machine. -/
theorem followsEvents (op : DistinctOperation Ty Value) :
    Application.FollowsEvents op.apply op.eventMachine Hard where
  ok := fun h => (apply_eq_ok h).2.1
  error := fun h hard => apply_error h hard

end DistinctOperation

open DistinctOperation

variable {op : DistinctOperation Ty Value}

/-- The runtime computes the uncached machine event by event. So the cuts of an event sequence are
invisible: outputs, stored weights and the event of a rejected prefix agree. The adjustment that
reports a rejected prefix never goes through, and the output is never empty. -/
theorem distinct_batching (op : DistinctOperation Ty Value) :
    Application.FollowsEvents op.apply op.eventMachine Hard ∧
      Application.BatchIndependent op.apply Hard ∧
      ∀ port change t e t', op.apply port change t = .error e t' → e ≠ .panicked ∧ e ≠ .change := by
  refine ⟨op.followsEvents, op.followsEvents.batchIndependent, ?_⟩
  intro port change t e t' h
  have hmachine : Hard e → ∃ k, op.eventMachine.Stops t.state change.events k e :=
    fun hard => Machine.exists_stops (apply_error h hard)
  have hreject : ∀ {k}, op.eventMachine.Stops t.state change.events k e →
      ∃ difference, e = rejection difference := by
    intro k hstops
    obtain ⟨_, weights, event, _, _, hstep⟩ := hstops
    refine ⟨event.2, ?_⟩
    have hstep : op.eventStep weights event = .error e := hstep
    unfold eventStep at hstep
    dsimp only at hstep
    split at hstep
    · cases hstep
      rfl
    · cases hstep
  constructor
  · rintro rfl
    obtain ⟨k, hk⟩ := hmachine trivial
    obtain ⟨difference, hd⟩ := hreject hk
    unfold rejection at hd
    split at hd <;> cases hd
  · rintro rfl
    obtain ⟨k, hk⟩ := hmachine trivial
    obtain ⟨difference, hd⟩ := hreject hk
    unfold rejection at hd
    split at hd <;> cases hd

/-! ## The relation it maintains -/

section Present

variable [DecidableEq Value]

/-- One row for each row that is present. -/
def distinctRows (relation : Bag (Row Value)) : Bag (Row Value) :=
  fun row => if 0 < relation row then 1 else 0

/-- After `done`: the weights are those of the rows, and the outputs so far hold the
rows that are present. -/
structure Present (op : DistinctOperation Ty Value) (done : List (Row Value × Int))
    (weights : Weights) (out : List (Row Value × Int)) : Prop where
  weights : ∀ row, op.fmt.Writable op.inputSchema row →
    (multiplicity weights (op.key row) : Int) = weight done row
  absent : ∀ row, ¬ op.fmt.Writable op.inputSchema row → weight done row = 0
  steps : Prefixes (fun d => 0 ≤ d ∧ d ≤ 1) out
  rows : weight out = distinctRows (weight done)

omit [DecidableEq Value] in
theorem key_injective {row row' : Row Value} (h : op.fmt.Writable op.inputSchema row)
    (h' : op.fmt.Writable op.inputSchema row') (heq : op.key row = op.key row') : row = row' := by
  have hdecodes := h.decodes
  rw [show op.fmt.canonicalRow op.inputSchema row = op.key row' from heq] at hdecodes
  exact (Except.ok.inj (h'.decodes.symm.trans hdecodes)).symm

theorem adjustedWeight_eq_some {before after : Nat} {d : Int}
    (h : adjustedWeight before d = some after) : (after : Int) = before + d := by
  unfold adjustedWeight at h
  split at h
  · split at h
    · cases h
      omega
    · cases h
  · split at h
    · cases h
      omega
    · cases h

theorem present_nil : Present op [] OrdMap.empty [] where
  weights := fun _ _ => rfl
  absent := fun _ _ => rfl
  steps := .nil ⟨le_rfl, by decide⟩
  rows := rfl

/-- What one transition adds to the presence of its row. -/
theorem outputDifference_presence (before after : Nat) :
    (outputDifference before after).getD 0 =
      (if 0 < (after : Int) then 1 else 0) - (if 0 < (before : Int) then 1 else 0) := by
  unfold outputDifference
  rcases Nat.eq_zero_or_pos before with hb | hb
  · rcases Nat.eq_zero_or_pos after with ha | ha
    · simp [hb, ha]
    · simp [hb, ha]
  · rcases Nat.eq_zero_or_pos after with ha | ha
    · simp [hb, ha, hb.ne']
    · simp [hb, ha, hb.ne', ha.ne']

theorem weight_toList (row a : Row Value) (d : Option Int) :
    weight (d.toList.map fun d => (row, d)) a = if row = a then d.getD 0 else 0 := by
  cases d with
  | none => simp
  | some d => simp

omit [DecidableEq Value] in
theorem distinctRows_bounds (relation : Bag (Row Value)) (row : Row Value) :
    0 ≤ distinctRows relation row ∧ distinctRows relation row ≤ 1 := by
  unfold distinctRows
  split
  · decide
  · decide

theorem eventStep_present {done : List (Row Value × Int)} {weights weights' : Weights}
    {out more : List (Row Value × Int)} {event : Row Value × Int}
    (hpresent : Present op done weights out) (hwritable : op.fmt.Writable op.inputSchema event.1)
    (h : op.eventMachine.step weights event = .ok (more, weights')) :
    Present op (done ++ [event]) weights' (out ++ more) := by
  have hstep : op.eventStep weights event = .ok (more, weights') := h
  unfold eventStep at hstep
  dsimp only at hstep
  cases hafter : adjustedWeight (multiplicity weights (op.key event.1)) event.2 with
  | none =>
    rw [hafter] at hstep
    cases hstep
  | some after =>
    rw [hafter] at hstep
    obtain ⟨rfl, rfl⟩ := Prod.mk.inj (Except.ok.inj hstep)
    have hbefore := hpresent.weights event.1 hwritable
    have hsum := adjustedWeight_eq_some hafter
    rw [hbefore] at hsum
    have hdone : ∀ row, weight (done ++ [event]) row =
        weight done row + if event.1 = row then event.2 else 0 := by
      intro row
      rw [weight_append]
      show weight done row + weight [(event.1, event.2)] row = _
      rw [weight_singleton]
    -- the row of the event is present exactly as its new weight says
    have hrows : weight (out ++ ((outputDifference (multiplicity weights (op.key event.1))
        after).toList.map fun d => (event.1, d))) = distinctRows (weight (done ++ [event])) := by
      funext row
      show weight (out ++ _) row = if 0 < weight (done ++ [event]) row then 1 else 0
      rw [weight_append]
      show weight out row + _ = _
      rw [weight_toList, hpresent.rows, hdone row]
      unfold distinctRows
      by_cases hrow : event.1 = row
      · subst hrow
        rw [if_pos rfl, if_pos rfl, outputDifference_presence, hbefore, hsum]
        omega
      · rw [if_neg hrow, if_neg hrow, add_zero, add_zero]
    refine ⟨?_, ?_, ?_, hrows⟩
    · intro row hrow
      rw [multiplicity_setMultiplicity, hdone row]
      by_cases heq : event.1 = row
      · subst heq
        rw [if_pos rfl, if_pos rfl, hsum]
      · have hkey : op.key row ≠ op.key event.1 := by
          intro hkey
          exact heq (key_injective hwritable hrow hkey.symm)
        rw [if_neg hkey, if_neg heq, add_zero]
        exact hpresent.weights row hrow
    · intro row hrow
      have hne : event.1 ≠ row := by
        rintro rfl
        exact hrow hwritable
      rw [hdone row, if_neg hne, add_zero]
      exact hpresent.absent row hrow
    · cases hdiff : outputDifference (multiplicity weights (op.key event.1)) after with
      | none =>
        simp only [Option.toList_none, List.map_nil, List.append_nil]
        exact hpresent.steps
      | some d =>
        rw [hdiff] at hrows
        apply hpresent.steps.concat
        have hrow := congrFun hrows event.1
        rw [weight_append] at hrow
        have hrow : weight out event.1 + d = distinctRows (weight (done ++ [event])) event.1 := by
          simpa using hrow
        rw [hrow]
        exact distinctRows_bounds _ _

/-- The machine maintains the distinct rows of what it has seen. -/
theorem run_present {done events : List (Row Value × Int)} {weights weights' : Weights}
    {out more : List (Row Value × Int)} (hpresent : Present op done weights out)
    (hwritable : ∀ e ∈ events, op.fmt.Writable op.inputSchema e.1)
    (h : op.eventMachine.run weights events = .ok (more, weights')) :
    Present op (done ++ events) weights' (out ++ more) := by
  exact Machine.run_keeps eventStep_present hpresent hwritable h

theorem present_of_appliesAll {s s' : Weights} {done out : List (Row Value × Int)}
    {changes : List (Change (Row Value))} {outputs : List (Option (Change (Row Value)))}
    (hpresent : Present op done s out)
    (h : Application.AppliesAll op.apply s changes outputs s') :
    Present op (done ++ inputsEvents changes) s' (out ++ outputsEvents outputs) := by
  induction h generalizing done out with
  | nil =>
    rw [inputsEvents_nil, outputsEvents_nil, List.append_nil, List.append_nil]
    exact hpresent
  | cons happly _ ih =>
    obtain ⟨-, hrun, hwritable⟩ := apply_eq_ok happly
    rw [inputsEvents_cons, outputsEvents_cons, ← List.append_assoc, ← List.append_assoc]
    exact ih (run_present hpresent hwritable hrun)

/-- Over any inputs the distinct emits one row for each row of positive weight, and after every
emitted event every row has been emitted as often as retracted, or once more. -/
theorem distinct_incremental (op : DistinctOperation Ty Value) :
    Incremental (.atomic op.atomic : Operation Weights Unit (Row Value)) 1 OrdMap.empty
      (fun inputs => distinctRows (inputs 0)) ∧
    ∀ inputs outputs s,
      HandlesAll (.atomic op.atomic : Operation Weights Unit (Row Value)) OrdMap.empty inputs
        outputs s → (∀ i ∈ inputs, i.1 < 1) →
      Prefixes (fun d => 0 ≤ d ∧ d ≤ 1) (outputsEvents outputs) := by
  have hall : ∀ inputs outputs s,
      HandlesAll (.atomic op.atomic : Operation Weights Unit (Row Value)) OrdMap.empty inputs
        outputs s → (∀ i ∈ inputs, i.1 < 1) →
      Present op (inputsEvents (inputs.map (·.2))) s (outputsEvents outputs) := by
    intro inputs outputs s h hports
    have happlies := Application.appliesAll_of_handlesAll h fun i hi =>
      Nat.lt_one_iff.mp (hports i hi)
    simpa using present_of_appliesAll present_nil happlies
  constructor
  · intro inputs outputs s h hports
    have hports' : ∀ i ∈ inputs, i.1 = 0 := fun i hi => Nat.lt_one_iff.mp (hports i hi)
    rw [← weight_outputsEvents, (hall inputs outputs s h hports).rows,
      weight_inputsEvents hports']
  · intro inputs outputs s h hports
    exact (hall inputs outputs s h hports).steps

end Present

/-- A distinct over one byte column. -/
def byteDistinct : DistinctOperation Unit (Option UInt8) :=
  ⟨byteFormat, [⟨(), true⟩], fun _ => true, fun change => change.numRows * 8⟩

/-- Two rows, one of them gone and back inside one run. -/
def byteRows : List (Nat × Change (Row (Option UInt8))) :=
  [(0, ⟨1, [([some 7], 2), ([some 7], -2), ([some 7], 1), ([some 8], 3)], by simp, by simp⟩),
    (0, ⟨1, [([some 8], -1), ([some 7], -1)], by simp, by simp⟩)]

theorem byteDistinct_incremental : ∃ outputs s,
    HandlesAll (.atomic byteDistinct.atomic : Operation Weights Unit _) OrdMap.empty byteRows
      outputs s ∧
    outputsEvents outputs =
      [([some 7], 1), ([some 7], -1), ([some 7], 1), ([some 8], 1), ([some 7], -1)] ∧
    outputsBag outputs = distinctRows (inputsBag byteRows 0) := by
  have h : (runInputs (.atomic byteDistinct.atomic : Operation Weights Unit _)
      ⟨8, 4096⟩ 1 OrdMap.empty byteRows).map (fun r => outputsEvents r.1) =
        some [([some 7], 1), ([some 7], -1), ([some 7], 1), ([some 8], 1), ([some 7], -1)] := by
    decide +kernel
  obtain ⟨⟨outputs, s⟩, hrun, hevents⟩ := Option.map_eq_some_iff.mp h
  have hhandles := handlesAll_of_runInputs hrun
  exact ⟨outputs, s, hhandles, hevents,
    (distinct_incremental byteDistinct).1 _ _ _ hhandles (by decide)⟩

end Dogpaddle.Distinct
