import Dogpaddle.Lib.Machine
import Dogpaddle.Operation.Run

/-!
# Batching

An atomic operator is called with whatever slices of its input the scheduler
admits. `BatchIndependent` says that the cuts are invisible:

* two ways to cut one event sequence emit the same events and leave the same state;
* a hard failure of one of them is a failure of every other, with the same error
  and at the same event.

Both follow when the operator computes an event machine (`FollowsEvents`).
-/

namespace Dogpaddle

open Lib

variable {S Q Row ε : Type}

/-- The events of a sequence of inputs, in order. -/
def inputsEvents (inputs : List (Change Row)) : List (Row × Int) :=
  inputs.flatMap (·.events)

@[simp] theorem inputsEvents_nil : inputsEvents ([] : List (Change Row)) = [] := rfl

@[simp] theorem inputsEvents_cons (c : Change Row) (l : List (Change Row)) :
    inputsEvents (c :: l) = c.events ++ inputsEvents l := by
  simp [inputsEvents]

@[simp] theorem inputsEvents_append (l r : List (Change Row)) :
    inputsEvents (l ++ r) = inputsEvents l ++ inputsEvents r := by
  simp [inputsEvents]

/-- The events of inputs that all came through port zero make their bag. -/
theorem weight_inputsEvents [DecidableEq Row] {inputs : List (Nat × Change Row)}
    (h : ∀ i ∈ inputs, i.1 = 0) :
    weight (inputsEvents (inputs.map (·.2))) = inputsBag inputs 0 := by
  induction inputs with
  | nil => rfl
  | cons i inputs ih =>
    rw [List.map_cons, inputsEvents_cons, weight_append, inputsBag_cons,
      if_pos (h i List.mem_cons_self), ih fun j hj => h j (List.mem_cons_of_mem _ hj)]
    rfl

/-- A typed application of the only input port of an operator. -/
abbrev Application (ε S Row : Type) := (port : Nat) → Change Row →
  Attempt ε S (Option (Change Row))

/-- The atomic operator of a typed application. -/
def Application.atomic (apply : Application ε S Row) (boxed : ε → OperationError) :
    AtomicOperation S Row where
  apply port change := EStateM.adaptExcept boxed (apply port change)

namespace Application

variable (apply : Application ε S Row)

/-- A sequence of changes through port zero, one call after another. -/
inductive AppliesAll : S → List (Change Row) → List (Option (Change Row)) → S → Prop
  | nil {s : S} : AppliesAll s [] [] s
  | cons {s s₁ s₂ : S} {change : Change Row} {changes : List (Change Row)}
      {output : Option (Change Row)} {outputs : List (Option (Change Row))}
      {budget budget' : StepBudget} :
      apply 0 change ⟨s, budget⟩ = .ok output ⟨s₁, budget'⟩ → AppliesAll s₁ changes outputs s₂ →
      AppliesAll s (change :: changes) (output :: outputs) s₂

/-- The call that follows `done` fails with `e`. -/
def FailsAfter (s : S) (done : List (Change Row)) (change : Change Row) (e : ε) : Prop :=
  ∃ outputs t budget t', AppliesAll apply s done outputs t ∧
    apply 0 change ⟨t, budget⟩ = .error e t'

/-- What an application does is invisible in how its events are cut into calls. -/
structure BatchIndependent (Hard : ε → Prop) : Prop where
  /-- Two cuts of one sequence emit the same events and leave the same state. -/
  same : ∀ {s t t' : S} {changes changes' : List (Change Row)}
    {outputs outputs' : List (Option (Change Row))},
    inputsEvents changes = inputsEvents changes' →
    AppliesAll apply s changes outputs t → AppliesAll apply s changes' outputs' t' →
    outputsEvents outputs = outputsEvents outputs' ∧ t = t'
  /-- Where one cut fails hard, no other cut gets through. -/
  stuck : ∀ {s t : S} {done changes' : List (Change Row)} {change : Change Row} {e : ε}
    {outputs' : List (Option (Change Row))},
    inputsEvents (done ++ [change]) <+: inputsEvents changes' →
    apply.FailsAfter s done change e → Hard e → ¬ AppliesAll apply s changes' outputs' t
  /-- Two cuts that fail hard fail with the same error, at an event both calls hold. -/
  meet : ∀ {s : S} {done later done' later' : List (Change Row)} {change change' : Change Row}
    {e e' : ε}, inputsEvents (done ++ change :: later) = inputsEvents (done' ++ change' :: later') →
    apply.FailsAfter s done change e → Hard e → apply.FailsAfter s done' change' e' → Hard e' →
    e = e' ∧ ∃ n, (inputsEvents done).length ≤ n ∧ n < (inputsEvents (done ++ [change])).length ∧
      (inputsEvents done').length ≤ n ∧ n < (inputsEvents (done' ++ [change'])).length

/-- An application computes an event machine. -/
structure FollowsEvents (m : Machine S (Row × Int) (Row × Int) ε) (Hard : ε → Prop) : Prop where
  ok : ∀ {change s s' output budget budget'},
    apply 0 change ⟨s, budget⟩ = .ok output ⟨s', budget'⟩ →
    m.run s change.events = .ok (outputEvents output, s')
  error : ∀ {change s t e budget}, apply 0 change ⟨s, budget⟩ = .error e t → Hard e →
    m.run s change.events = .error e

variable {apply} {m : Machine S (Row × Int) (Row × Int) ε} {Hard : ε → Prop}

namespace FollowsEvents

/-- A sequence of calls runs the machine over all events. -/
theorem run (h : apply.FollowsEvents m Hard) {s s' : S} {changes : List (Change Row)}
    {outputs : List (Option (Change Row))} (hall : AppliesAll apply s changes outputs s') :
    m.run s (inputsEvents changes) = .ok (outputsEvents outputs, s') := by
  induction hall with
  | nil => rfl
  | cons happly _ ih =>
    rw [inputsEvents_cons, outputsEvents_cons]
    exact Machine.run_append_ok (h.ok happly) ih

/-- A call that fails hard holds the event the machine stops at. -/
theorem stops (h : apply.FollowsEvents m Hard) {s : S} {done : List (Change Row)}
    {change : Change Row} {e : ε} (hfail : apply.FailsAfter s done change e) (hard : Hard e) :
    ∃ n, m.Stops s (inputsEvents (done ++ [change])) n e ∧ (inputsEvents done).length ≤ n := by
  obtain ⟨outputs, t, budget, t', hdone, herror⟩ := hfail
  obtain ⟨k, hk⟩ := Machine.exists_stops (h.error herror hard)
  have hstops := Machine.Stops.after (h.run hdone) hk
  refine ⟨_, ?_, Nat.le_add_right _ k⟩
  simpa using hstops

/-- Cuts are invisible to an application that computes a machine. -/
theorem batchIndependent (h : apply.FollowsEvents m Hard) : apply.BatchIndependent Hard where
  same := by
    intro s t t' changes changes' outputs outputs' heq hall hall'
    have hrun := h.run hall
    rw [heq, h.run hall'] at hrun
    obtain ⟨houtputs, hstate⟩ := Prod.mk.inj (Except.ok.inj hrun)
    exact ⟨houtputs.symm, hstate.symm⟩
  stuck := by
    intro s t done changes' change e outputs' hprefix hfail hard hall
    obtain ⟨n, hstops, -⟩ := h.stops hfail hard
    obtain ⟨rest, hrest⟩ := hprefix
    have herror := (hstops.append rest).run
    rw [hrest, h.run hall] at herror
    cases herror
  meet := by
    intro s done later done' later' change change' e e' heq hfail hard hfail' hard'
    obtain ⟨n, hstops, hn⟩ := h.stops hfail hard
    obtain ⟨n', hstops', hn'⟩ := h.stops hfail' hard'
    have hall := hstops.append (inputsEvents later)
    have hall' := hstops'.append (inputsEvents later')
    rw [← inputsEvents_append, List.append_assoc, List.singleton_append] at hall hall'
    rw [← heq] at hall'
    obtain ⟨rfl, rfl⟩ := hall.unique hall'
    exact ⟨rfl, n, hn, hstops.lt, hn', hstops'.lt⟩

end FollowsEvents

/-- Inputs that all came through port zero were applied one after another. -/
theorem appliesAll_of_handlesAll {boxed : ε → OperationError} {s s' : S}
    {inputs : List (Nat × Change Row)} {outputs : List (Option (Change Row))}
    (h : HandlesAll (.atomic (apply.atomic boxed) : Operation S Q Row) s inputs outputs s')
    (hports : ∀ i ∈ inputs, i.1 = 0) : AppliesAll apply s (inputs.map (·.2)) outputs s' := by
  induction h with
  | nil => exact .nil
  | @cons s s₁ s₂ input inputs outputs rest hh _ ih =>
    have hport := hports input List.mem_cons_self
    have hrest := ih fun i hi => hports i (List.mem_cons_of_mem _ hi)
    cases hh with
    | atomic hp =>
      obtain ⟨budget, budget', happly⟩ := hp
      dsimp only at hport
      subst hport
      exact .cons (adaptExcept_eq_ok.mp happly) hrest

end Application

end Dogpaddle
