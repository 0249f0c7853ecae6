import Dogpaddle.Operation.Compute
import Dogpaddle.Lib.Bag

/-!
# Whole inputs

What an operator does with complete inputs, whatever allowances its pages got:

* `Pages` steps one input from a position to `done`;
* `HandlesAll` handles a sequence of `(port, change)` inputs one after another;
* `Reaches` is a position between two pages of an input, after other inputs;
* `Incremental` is the law of an operator: from its initial state, the bag of all
  outputs is a function of the input bags.

An atomic operator at the head of a chain sees its input in windows;
`Pages.windows` turns such a call into a sequence of inputs with the same bag.
-/

namespace Dogpaddle

open Lib

variable {S Q Row : Type}

/-- An attempt on one operator's state succeeds under some allowance. -/
def Performs {α : Type} (x : Attempt OperationError S α) (s : S) (a : α) (s' : S) : Prop :=
  ∃ budget budget' : StepBudget, x ⟨s, budget⟩ = .ok a ⟨s', budget'⟩

/-- One input stepped from a position to its end; the outputs of all pages. -/
inductive Pages (op : Operation S Q Row) (port : Nat) (input : Change Row) :
    Resume → S → List (Option (Change Row)) → S → Prop
  | last {resume : Resume} {s s' : S} {output : Option (Change Row)} :
      Performs (op.step port input resume) s ⟨output, .done⟩ s' →
      Pages op port input resume s [output] s'
  | next {resume r : Resume} {s s₁ s₂ : S} {output : Option (Change Row)}
      {outputs : List (Option (Change Row))} :
      Performs (op.step port input resume) s ⟨output, .more r⟩ s₁ →
      Pages op port input r s₁ outputs s₂ →
      Pages op port input resume s (output :: outputs) s₂

/-- One input handled to its end. -/
inductive Handles : Operation S Q Row → S → Nat × Change Row → List (Option (Change Row)) → S →
    Prop
  | atomic {operation : AtomicOperation S Row} {port : Nat} {change : Change Row} {s s' : S}
      {output : Option (Change Row)} :
      Performs (operation.apply port change) s output s' →
      Handles (.atomic operation) s (port, change) [output] s'
  | paged {operation : PagedOperation S Row} {port : Nat} {change : Change Row} {s s' : S}
      {outputs : List (Option (Change Row))} :
      Pages (.paged operation : Operation S Q Row) port change operation.initialResume s outputs s' →
      Handles (.paged operation) s (port, change) outputs s'

/-- A sequence of inputs, each handled to its end before the next. -/
inductive HandlesAll (op : Operation S Q Row) :
    S → List (Nat × Change Row) → List (Option (Change Row)) → S → Prop
  | nil {s : S} : HandlesAll op s [] [] s
  | cons {s s₁ s₂ : S} {input : Nat × Change Row} {inputs : List (Nat × Change Row)}
      {outputs rest : List (Option (Change Row))} :
      Handles op s input outputs s₁ → HandlesAll op s₁ inputs rest s₂ →
      HandlesAll op s (input :: inputs) (outputs ++ rest) s₂

/-- Pages of one input from a position to a later one. -/
inductive Ahead (op : Operation S Q Row) (port : Nat) (input : Change Row) :
    Resume → S → List (Option (Change Row)) → Resume → S → Prop
  | refl {resume : Resume} {s : S} : Ahead op port input resume s [] resume s
  | next {resume r r' : Resume} {s s₁ s₂ : S} {output : Option (Change Row)}
      {outputs : List (Option (Change Row))} :
      Performs (op.step port input resume) s ⟨output, .more r⟩ s₁ →
      Ahead op port input r s₁ outputs r' s₂ →
      Ahead op port input resume s (output :: outputs) r' s₂

/-- A paged operator between two pages of an input, after earlier inputs. -/
structure Reaches (operation : PagedOperation S Row) (initial : S)
    (inputs : List (Nat × Change Row)) (port : Nat) (change : Change Row) (resume : Resume)
    (outputs : List (Option (Change Row))) (s : S) : Prop where
  split : ∃ s₀ before pages, outputs = before ++ pages ∧
    HandlesAll (.paged operation : Operation S Unit Row) initial inputs before s₀ ∧
    Ahead (.paged operation : Operation S Unit Row) port change operation.initialResume s₀ pages
      resume s

theorem HandlesAll.append {op : Operation S Q Row} {s s₁ s₂ : S}
    {inputs inputs' : List (Nat × Change Row)} {outputs outputs' : List (Option (Change Row))}
    (h : HandlesAll op s inputs outputs s₁) (h' : HandlesAll op s₁ inputs' outputs' s₂) :
    HandlesAll op s (inputs ++ inputs') (outputs ++ outputs') s₂ := by
  induction h with
  | nil => exact h'
  | cons hh _ ih =>
    rw [List.append_assoc]
    exact .cons hh (ih h')

theorem HandlesAll.single {op : Operation S Q Row} {s s' : S} {input : Nat × Change Row}
    {outputs : List (Option (Change Row))} (h : Handles op s input outputs s') :
    HandlesAll op s [input] outputs s' := by
  simpa using HandlesAll.cons h .nil

/-! ## Running inputs -/

section Runner

variable (op : Operation S Q Row) (budget : StepBudget)

/-- Steps one input to its end under a fixed allowance for each page. -/
def runPages (port : Nat) (input : Change Row) :
    Nat → Resume → S → Option (List (Option (Change Row)) × S)
  | 0, _, _ => none
  | pages + 1, resume, s =>
    match op.step port input resume ⟨s, budget⟩ with
    | .error _ _ => none
    | .ok ⟨output, .done⟩ t => some ([output], t.state)
    | .ok ⟨output, .more r⟩ t => (runPages port input pages r t.state).map
        fun (outputs, s) => (output :: outputs, s)

/-- Steps one page of an input that ends at a later position. -/
def runPage (port : Nat) (input : Change Row) (resume : Resume) (s : S) :
    Option (Option (Change Row) × Resume × S) :=
  match op.step port input resume ⟨s, budget⟩ with
  | .ok ⟨output, .more r⟩ t => some (output, r, t.state)
  | _ => none

/-- Handles one input of a computation. -/
def runInput (pages : Nat) (s : S) (input : Nat × Change Row) :
    Option (List (Option (Change Row)) × S) :=
  match op with
  | .atomic operation =>
    match operation.apply input.1 input.2 ⟨s, budget⟩ with
    | .error _ _ => none
    | .ok output t => some ([output], t.state)
  | .paged operation =>
    runPages (.paged operation : Operation S Q Row) budget input.1 input.2 pages
      operation.initialResume s
  | _ => none

/-- Handles a sequence of inputs. -/
def runInputs (pages : Nat) : S → List (Nat × Change Row) → Option (List (Option (Change Row)) × S)
  | s, [] => some ([], s)
  | s, input :: inputs =>
    match runInput op budget pages s input with
    | none => none
    | some (outputs, s) => (runInputs pages s inputs).map
        fun (rest, s) => (outputs ++ rest, s)

variable {op budget}

theorem pages_of_runPages {port : Nat} {input : Change Row} {pages : Nat} {resume : Resume}
    {s s' : S} {outputs : List (Option (Change Row))}
    (h : runPages op budget port input pages resume s = some (outputs, s')) :
    Pages op port input resume s outputs s' := by
  induction pages generalizing resume s outputs with
  | zero => cases h
  | succ pages ih =>
    unfold runPages at h
    cases hstep : op.step port input resume ⟨s, budget⟩ with
    | error e t => rw [hstep] at h; cases h
    | ok a t =>
      obtain ⟨output, progress⟩ := a
      rw [hstep] at h
      cases progress with
      | done =>
        cases h
        exact .last ⟨budget, t.budget, hstep⟩
      | more r =>
        obtain ⟨⟨rest, s₁⟩, hrest, heq⟩ := Option.map_eq_some_iff.mp h
        cases heq
        exact .next ⟨budget, t.budget, hstep⟩ (ih hrest)

theorem performs_of_runPage {port : Nat} {input : Change Row} {resume r : Resume} {s s' : S}
    {output : Option (Change Row)}
    (h : runPage op budget port input resume s = some (output, r, s')) :
    Performs (op.step port input resume) s ⟨output, .more r⟩ s' := by
  unfold runPage at h
  split at h
  · next output' r' t hstep =>
    cases h
    exact ⟨budget, t.budget, hstep⟩
  · cases h

theorem handles_of_runInput {pages : Nat} {s s' : S} {input : Nat × Change Row}
    {outputs : List (Option (Change Row))}
    (h : runInput op budget pages s input = some (outputs, s')) :
    Handles op s input outputs s' := by
  obtain ⟨port, change⟩ := input
  cases op with
  | source => cases h
  | sink operation => cases h
  | paged operation => exact .paged (pages_of_runPages h)
  | atomic operation =>
    simp only [runInput] at h
    cases happly : operation.apply port change ⟨s, budget⟩ with
    | error e t => rw [happly] at h; cases h
    | ok output t =>
      rw [happly] at h
      cases h
      exact .atomic ⟨budget, t.budget, happly⟩

/-- What the runner computes is a handled sequence. -/
theorem handlesAll_of_runInputs {pages : Nat} {s s' : S} {inputs : List (Nat × Change Row)}
    {outputs : List (Option (Change Row))}
    (h : runInputs op budget pages s inputs = some (outputs, s')) :
    HandlesAll op s inputs outputs s' := by
  induction inputs generalizing s outputs with
  | nil =>
    cases h
    exact .nil
  | cons input inputs ih =>
    unfold runInputs at h
    cases hinput : runInput op budget pages s input with
    | none => rw [hinput] at h; cases h
    | some r =>
      obtain ⟨first, s₁⟩ := r
      rw [hinput] at h
      obtain ⟨⟨rest, s₂⟩, hrest, heq⟩ := Option.map_eq_some_iff.mp h
      cases heq
      exact .cons (handles_of_runInput hinput) (ih hrest)

end Runner

/-! ## Events and bags of changes -/

/-- The events of an output, which may be empty. -/
def outputEvents : Option (Change Row) → List (Row × Int)
  | none => []
  | some c => c.events

/-- The events of all outputs, in order. -/
def outputsEvents (outputs : List (Option (Change Row))) : List (Row × Int) :=
  outputs.flatMap outputEvents

@[simp] theorem outputsEvents_nil : outputsEvents ([] : List (Option (Change Row))) = [] := rfl

@[simp] theorem outputsEvents_cons (o : Option (Change Row)) (l : List (Option (Change Row))) :
    outputsEvents (o :: l) = outputEvents o ++ outputsEvents l := by
  simp [outputsEvents]

@[simp] theorem outputsEvents_append (l r : List (Option (Change Row))) :
    outputsEvents (l ++ r) = outputsEvents l ++ outputsEvents r := by
  simp [outputsEvents]

section Bags

variable [DecidableEq Row]

/-- The bag of one change. -/
def Change.bag (c : Change Row) : Bag Row := weight c.events

/-- The bag of an output, which may be empty. -/
def outputBag : Option (Change Row) → Bag Row
  | none => 0
  | some c => c.bag

/-- The bag of all outputs. -/
def outputsBag (outputs : List (Option (Change Row))) : Bag Row := (outputs.map outputBag).sum

/-- The bag of the inputs that came through one port. -/
def inputsBag (inputs : List (Nat × Change Row)) (port : Nat) : Bag Row :=
  (inputs.map fun i => if i.1 = port then i.2.bag else 0).sum

@[simp] theorem outputBag_none : outputBag (none : Option (Change Row)) = 0 := rfl

@[simp] theorem outputBag_some (c : Change Row) : outputBag (some c) = c.bag := rfl

@[simp] theorem outputsBag_nil : outputsBag ([] : List (Option (Change Row))) = 0 := rfl

@[simp] theorem outputsBag_cons (o : Option (Change Row)) (l : List (Option (Change Row))) :
    outputsBag (o :: l) = outputBag o + outputsBag l := by
  simp [outputsBag]

@[simp] theorem outputsBag_append (l r : List (Option (Change Row))) :
    outputsBag (l ++ r) = outputsBag l + outputsBag r := by
  simp [outputsBag]

theorem weight_outputsEvents (outputs : List (Option (Change Row))) :
    weight (outputsEvents outputs) = outputsBag outputs := by
  induction outputs with
  | nil => rfl
  | cons o outputs ih =>
    rw [outputsEvents_cons, weight_append, outputsBag_cons, ih]
    cases o <;> rfl

@[simp] theorem inputsBag_nil (port : Nat) :
    inputsBag ([] : List (Nat × Change Row)) port = 0 := rfl

@[simp] theorem inputsBag_cons (i : Nat × Change Row) (l : List (Nat × Change Row)) (port : Nat) :
    inputsBag (i :: l) port = (if i.1 = port then i.2.bag else 0) + inputsBag l port := by
  simp [inputsBag]

@[simp] theorem inputsBag_append (l r : List (Nat × Change Row)) (port : Nat) :
    inputsBag (l ++ r) port = inputsBag l port + inputsBag r port := by
  simp [inputsBag]

theorem inputsBag_eq_zero {inputs : List (Nat × Change Row)} {port : Nat}
    (h : ∀ i ∈ inputs, i.1 ≠ port) : inputsBag inputs port = 0 := by
  refine List.sum_eq_zero fun b hb => ?_
  obtain ⟨i, hi, rfl⟩ := List.mem_map.mp hb
  exact if_neg (h i hi)

/-- The law of an operator with `arity` inputs: over any sequence of inputs,
its outputs add up to `sem` of what came through each port. -/
def Incremental (op : Operation S Q Row) (arity : Nat) (initial : S)
    (sem : (Nat → Bag Row) → Bag Row) : Prop :=
  ∀ (inputs : List (Nat × Change Row)) (outputs : List (Option (Change Row))) (s : S),
    HandlesAll op initial inputs outputs s → (∀ i ∈ inputs, i.1 < arity) →
    outputsBag outputs = sem (inputsBag inputs)

end Bags

/-! ## Windows -/

/-- One page of an atomic or source head covers a window of its input. -/
structure Window (input : Change Row) (start : Nat) (slice : Change Row) (progress : Progress) :
    Prop where
  events : ∃ length, slice.events = (input.events.drop start).take length ∧
    progress = if start + length = input.numRows then .done
      else .more ⟨start + length, .batch⟩
  bounded : start < input.numRows

theorem window_eq_ok {change slice : Change Row} {start length : Nat}
    (h : Operation.window change start length = .ok slice) :
    slice.events = (change.events.drop start).take length := by
  unfold Operation.window at h
  split at h
  · next hall =>
    cases h
    rw [hall.1, hall.2, List.drop_zero]
    exact (List.take_length).symm
  · cases hslice : change.trySlice start length with
    | error e => simp [hslice, Except.mapError] at h
    | ok c =>
      simp only [hslice, Except.mapError, Except.ok.injEq] at h
      subst h
      exact (Change.events_trySlice hslice).1

/-- Only batch positions inside the input are admitted by an unpaged head. -/
theorem step_window {op : Operation S Q Row} {port : Nat} {input : Change Row} {resume : Resume}
    {s s' : S} {output : Option (Change Row)} {progress : Progress}
    (h : Performs (op.stepWindow port input resume) s ⟨output, progress⟩ s') :
    ∃ slice, Window input resume.ordinal slice progress ∧
      Performs (op.applyWindow port slice) s output s' := by
  obtain ⟨budget, budget', h⟩ := h
  unfold Operation.stepWindow at h
  obtain ⟨_, t, ht, h⟩ := bind_eq_ok.mp h
  obtain ⟨hvalid, rfl⟩ := ofExcept_eq_ok.mp ht
  obtain ⟨_, t, ht, h⟩ := bind_eq_ok.mp h
  obtain ⟨rfl, rfl⟩ := get_eq_ok.mp ht
  split at h
  · exact (throw_eq_ok.mp h).elim
  · next hlength =>
    obtain ⟨slice, t, ht, h⟩ := bind_eq_ok.mp h
    obtain ⟨hslice, rfl⟩ := ofExcept_eq_ok.mp ht
    obtain ⟨_, t, ht, h⟩ := bind_eq_ok.mp h
    have hstate := StepBudget.consumeHead_eq_ok ht
    obtain ⟨out, t', happly, h⟩ := bind_eq_ok.mp h
    obtain ⟨hstep, rfl⟩ := pure_eq_ok.mp h
    cases hstep
    refine ⟨slice, ⟨⟨_, window_eq_ok hslice, rfl⟩, ?_⟩, t.budget, budget', ?_⟩
    · dsimp only at hlength
      omega
    · rw [← happly]
      congr 1
      cases t
      cases hstate
      rfl

section Windows

variable [DecidableEq Row]

/-- The last window reaches the end of the input. -/
theorem Window.last {input slice : Change Row} {start : Nat}
    (h : Window input start slice .done) : slice.bag = weight (input.events.drop start) := by
  obtain ⟨length, hslice, hprogress⟩ := h.events
  split at hprogress
  · next hend =>
    unfold Change.bag
    rw [hslice, List.take_of_length_le]
    have : input.numRows = input.events.length := rfl
    rw [List.length_drop]
    omega
  · cases hprogress

/-- The next window starts where this one ends. -/
theorem Window.next {input slice : Change Row} {start : Nat} {r : Resume}
    (h : Window input start slice (.more r)) :
    slice.bag + weight (input.events.drop r.ordinal) = weight (input.events.drop start) := by
  obtain ⟨length, hslice, hprogress⟩ := h.events
  split at hprogress
  · cases hprogress
  · cases hprogress
    unfold Change.bag
    rw [hslice, ← List.drop_drop, weight_take_add_drop]

/-- The remaining windows of an atomic head are a sequence of inputs that add
up to the rest of its input. -/
theorem Pages.windows {operation : AtomicOperation S Row} {port : Nat} {input : Change Row}
    {resume : Resume} {s s' : S} {outputs : List (Option (Change Row))}
    (h : Pages (.atomic operation : Operation S Q Row) port input resume s outputs s') :
    ∃ inputs, HandlesAll (.atomic operation : Operation S Q Row) s inputs outputs s' ∧
      (∀ i ∈ inputs, i.1 = port) ∧
      ∀ p, inputsBag inputs p =
        if port = p then weight (input.events.drop resume.ordinal) else 0 := by
  induction h with
  | last hstep =>
    obtain ⟨slice, hwindow, happly⟩ := step_window hstep
    refine ⟨[(port, slice)], .single (.atomic happly), by simp, fun p => ?_⟩
    simp [hwindow.last]
  | next hstep _ ih =>
    obtain ⟨slice, hwindow, happly⟩ := step_window hstep
    obtain ⟨inputs, hall, hports, hbag⟩ := ih
    refine ⟨(port, slice) :: inputs, .cons (.atomic happly) hall, ?_, fun p => ?_⟩
    · intro i hi
      rcases List.mem_cons.mp hi with rfl | hi
      · rfl
      · exact hports i hi
    · rw [inputsBag_cons, hbag, ← hwindow.next]
      by_cases hp : port = p <;> simp [hp]

/-- The windows of a source add up to the rest of its item. -/
theorem Pages.source {port : Nat} {input : Change Row}
    {resume : Resume} {s s' : S} {outputs : List (Option (Change Row))}
    (h : Pages (.source : Operation S Q Row) port input resume s outputs s') :
    outputsBag outputs = weight (input.events.drop resume.ordinal) := by
  induction h with
  | last hstep =>
    obtain ⟨slice, hwindow, _, _, happly⟩ := step_window hstep
    obtain ⟨rfl, _⟩ := pure_eq_ok.mp happly
    simp [hwindow.last]
  | next hstep _ ih =>
    obtain ⟨slice, hwindow, _, _, happly⟩ := step_window hstep
    obtain ⟨rfl, _⟩ := pure_eq_ok.mp happly
    rw [outputsBag_cons, ih, ← hwindow.next, outputBag_some]

end Windows

end Dogpaddle
