import Dogpaddle.Flow.Page
import Dogpaddle.Operation.Run

/-!
# The reference call

`Runs` says what a flow computes, with no store, transaction or scheduler:
to call a head, compute a page with its fused tails, hand it to every consumer
of the head in list order, each consumer's call completed before the next one,
then return or continue from the position the page ended at.

* `Page` is one computed page: the head's step and the tails after it. How much
  of the input it covers is the operator's choice under some allowance.
* `Runs task σ events finished σ'` performs `task` from the operator states `σ`,
  completely or up to some point in between.
* `Served` is a sequence of completed root calls, each closed by the removal of
  its item from the source queue.

`Move` is the same semantics in small steps over an explicit stack of tasks;
`Moves.runs` folds any sequence of moves back into `Runs`.
-/

namespace Dogpaddle.Flow

open Dogpaddle Lib

variable {S Q Row : Type}

/-- The fused tails, in order, on one page; an empty page skips the rest. -/
inductive Tails (rt : Runtime S Q Row) :
    List Nat → (Nat → S) → Option (Change Row) → List (Event Row) → Option (Change Row) →
      (Nat → S) → Prop
  | nil {σ : Nat → S} {output : Option (Change Row)} : Tails rt [] σ output [] output σ
  | empty {σ : Nat → S} {tail : Nat} {rest : List Nat} : Tails rt (tail :: rest) σ none [] none σ
  | apply {σ σ' : Nat → S} {tail : Nat} {rest : List Nat} {operation : AtomicOperation S Row}
      {change : Change Row} {output page : Option (Change Row)} {s : S}
      {events : List (Event Row)} :
      rt.operation tail = .atomic operation →
      Performs (operation.apply 0 change) (σ tail) output s →
      Tails rt rest (Function.update σ tail s) output events page σ' →
      Tails rt (tail :: rest) σ (some change) (.tail tail change output :: events) page σ'

/-- One page of a call: the head's step, then its tails. -/
inductive Page (rt : Runtime S Q Row) (head : Nat) (port : Option Nat) (input : Change Row)
    (resume : Resume) :
    (Nat → S) → List (Event Row) → Option (Change Row) → Progress → (Nat → S) → Prop
  | mk {σ σ' : Nat → S} {raw page : Option (Change Row)} {progress : Progress} {s : S}
      {events : List (Event Row)} :
      Performs ((rt.operation head).step (port.getD 0) input resume) (σ head) ⟨raw, progress⟩ s →
      progress ≠ .more resume →
      Tails rt (rt.topology.tails head) (Function.update σ head s) raw events page σ' →
      Page rt head port input resume σ
        (.step head port input resume raw progress :: events) page progress σ'

/-- What is left to do for one frame: compute on from a position, or hand the
current page to the remaining consumers and then go on as `after` says. -/
inductive Task (Row : Type)
  | call (head : Nat) (port : Option Nat) (input : Change Row) (resume : Resume)
  | send (head : Nat) (port : Option Nat) (input : Change Row)
      (visits : List (Consumer × Change Row)) (after : Progress)

namespace Task

/-- The head a task belongs to. -/
def head : Task Row → Nat
  | .call head .. => head
  | .send head .. => head

/-- The port a task was called through. -/
def port : Task Row → Option Nat
  | .call _ port .. => port
  | .send _ port .. => port

/-- The input a task works on. -/
def input : Task Row → Change Row
  | .call _ _ input _ => input
  | .send _ _ input _ _ => input

@[simp] theorem head_call (head : Nat) (port : Option Nat) (input : Change Row)
    (resume : Resume) : (call head port input resume).head = head := rfl

@[simp] theorem head_send (head : Nat) (port : Option Nat) (input : Change Row)
    (visits : List (Consumer × Change Row)) (after : Progress) :
    (send head port input visits after).head = head := rfl

end Task

/-- The consumers a page goes to: all of the head's, in order, unless it is empty. -/
def visits (rt : Runtime S Q Row) (head : Nat) :
    Option (Change Row) → List (Consumer × Change Row)
  | none => []
  | some page => (rt.topology.consumers head).map (·, page)

/-- The call that hands a page to a computing consumer. -/
def childCall (rt : Runtime S Q Row) (c : Consumer) (page : Change Row) : Task Row :=
  .call c.operation (some c.port) page (rt.operation c.operation).initialResume

/-- Performing a task, to its end (`true`) or up to some point (`false`). -/
inductive Runs (rt : Runtime S Q Row) :
    Task Row → (Nat → S) → List (Event Row) → Bool → (Nat → S) → Prop
  | pause {task : Task Row} {σ : Nat → S} : Runs rt task σ [] false σ
  | page {head : Nat} {port : Option Nat} {input : Change Row} {resume : Resume}
      {σ σ₁ σ₂ : Nat → S} {page : Option (Change Row)} {progress : Progress}
      {events rest : List (Event Row)} {finished : Bool} :
      Page rt head port input resume σ events page progress σ₁ →
      Runs rt (.send head port input (visits rt head page) progress) σ₁ rest finished σ₂ →
      Runs rt (.call head port input resume) σ (events ++ rest) finished σ₂
  | enqueue {head : Nat} {port : Option Nat} {input page : Change Row} {after : Progress}
      {c : Consumer} {later : List (Consumer × Change Row)} {σ σ' : Nat → S}
      {rest : List (Event Row)} {finished : Bool} :
      (rt.operation c.operation).isSink = true →
      Runs rt (.send head port input later after) σ rest finished σ' →
      Runs rt (.send head port input ((c, page) :: later) after) σ
        (.enqueue c.operation c.port page :: rest) finished σ'
  | inside {head : Nat} {port : Option Nat} {input page : Change Row} {after : Progress}
      {c : Consumer} {later : List (Consumer × Change Row)} {σ σ' : Nat → S}
      {events : List (Event Row)} :
      (rt.operation c.operation).isSink = false →
      Runs rt (childCall rt c page) σ events false σ' →
      Runs rt (.send head port input ((c, page) :: later) after) σ events false σ'
  | consumer {head : Nat} {port : Option Nat} {input page : Change Row} {after : Progress}
      {c : Consumer} {later : List (Consumer × Change Row)} {σ σ₁ σ₂ : Nat → S}
      {events rest : List (Event Row)} {finished : Bool} :
      (rt.operation c.operation).isSink = false →
      Runs rt (childCall rt c page) σ events true σ₁ →
      Runs rt (.send head port input later after) σ₁ rest finished σ₂ →
      Runs rt (.send head port input ((c, page) :: later) after) σ (events ++ rest) finished σ₂
  | more {head : Nat} {port : Option Nat} {input : Change Row} {next : Resume}
      {σ σ' : Nat → S} {events : List (Event Row)} {finished : Bool} :
      Runs rt (.call head port input next) σ events finished σ' →
      Runs rt (.send head port input [] (.more next)) σ events finished σ'
  | finish {head : Nat} {port : Option Nat} {input : Change Row} {σ : Nat → S} :
      Runs rt (.send head port input [] .done) σ [.finish head port] true σ

/-- The call of a source on one of its published items. -/
def rootCall (rt : Runtime S Q Row) (source : Nat) (input : Change Row) : Task Row :=
  .call source none input (rt.operation source).initialResume

/-- Completed root calls, one after another, from the initial operator states. -/
inductive Served (rt : Runtime S Q Row) (states : Nat → S) :
    List (Event Row) → (Nat → S) → Prop
  | nil : Served rt states [] states
  | snoc {served events : List (Event Row)} {σ σ' : Nat → S} {source : Nat} {item : Bytes}
      {input : Change Row} :
      Served rt states served σ →
      (rt.operation source).isSource = true →
      (rt.codec source).decode item = .ok input →
      Runs rt (rootCall rt source input) σ events true σ' →
      Served rt states (served ++ (events ++ [.consume source item])) σ'

/-! ## Small steps -/

/-- One step of the topmost task of a stack. -/
inductive Move (rt : Runtime S Q Row) :
    List (Task Row) → (Nat → S) → List (Event Row) → List (Task Row) → (Nat → S) → Prop
  | page {head : Nat} {port : Option Nat} {input : Change Row} {resume : Resume}
      {σ σ' : Nat → S} {page : Option (Change Row)} {progress : Progress}
      {events : List (Event Row)} {below : List (Task Row)} :
      Page rt head port input resume σ events page progress σ' →
      Move rt (.call head port input resume :: below) σ events
        (.send head port input (visits rt head page) progress :: below) σ'
  | enqueue {head : Nat} {port : Option Nat} {input page : Change Row} {after : Progress}
      {c : Consumer} {later : List (Consumer × Change Row)} {σ : Nat → S}
      {below : List (Task Row)} :
      (rt.operation c.operation).isSink = true →
      Move rt (.send head port input ((c, page) :: later) after :: below) σ
        [.enqueue c.operation c.port page] (.send head port input later after :: below) σ
  | enter {head : Nat} {port : Option Nat} {input page : Change Row} {after : Progress}
      {c : Consumer} {later : List (Consumer × Change Row)} {σ : Nat → S}
      {below : List (Task Row)} :
      (rt.operation c.operation).isSink = false →
      Move rt (.send head port input ((c, page) :: later) after :: below) σ []
        (childCall rt c page :: .send head port input later after :: below) σ
  | more {head : Nat} {port : Option Nat} {input : Change Row} {next : Resume} {σ : Nat → S}
      {below : List (Task Row)} :
      Move rt (.send head port input [] (.more next) :: below) σ []
        (.call head port input next :: below) σ
  | finish {head : Nat} {port : Option Nat} {input : Change Row} {σ : Nat → S}
      {below : List (Task Row)} :
      Move rt (.send head port input [] .done :: below) σ [.finish head port] below σ

/-- Any number of moves. -/
inductive Moves (rt : Runtime S Q Row) :
    List (Task Row) → (Nat → S) → List (Event Row) → List (Task Row) → (Nat → S) → Prop
  | refl {tasks : List (Task Row)} {σ : Nat → S} : Moves rt tasks σ [] tasks σ
  | step {tasks tasks₁ tasks₂ : List (Task Row)} {σ σ₁ σ₂ : Nat → S}
      {events rest : List (Event Row)} :
      Move rt tasks σ events tasks₁ σ₁ → Moves rt tasks₁ σ₁ rest tasks₂ σ₂ →
      Moves rt tasks σ (events ++ rest) tasks₂ σ₂

/-- Performing a whole stack, topmost task first. -/
inductive RunsAll (rt : Runtime S Q Row) :
    List (Task Row) → (Nat → S) → List (Event Row) → Bool → (Nat → S) → Prop
  | nil {σ : Nat → S} : RunsAll rt [] σ [] true σ
  | inside {task : Task Row} {below : List (Task Row)} {σ σ' : Nat → S}
      {events : List (Event Row)} :
      Runs rt task σ events false σ' → RunsAll rt (task :: below) σ events false σ'
  | cons {task : Task Row} {below : List (Task Row)} {σ σ₁ σ₂ : Nat → S}
      {events rest : List (Event Row)} {finished : Bool} :
      Runs rt task σ events true σ₁ → RunsAll rt below σ₁ rest finished σ₂ →
      RunsAll rt (task :: below) σ (events ++ rest) finished σ₂

variable {rt : Runtime S Q Row}

/-- Moves compose. -/
theorem Moves.trans {tasks tasks₁ tasks₂ : List (Task Row)} {σ σ₁ σ₂ : Nat → S}
    {events rest : List (Event Row)} (h : Moves rt tasks σ events tasks₁ σ₁)
    (h' : Moves rt tasks₁ σ₁ rest tasks₂ σ₂) :
    Moves rt tasks σ (events ++ rest) tasks₂ σ₂ := by
  induction h with
  | refl => exact h'
  | step hm _ ih =>
    rw [List.append_assoc]
    exact .step hm (ih h')

theorem Moves.single {tasks tasks' : List (Task Row)} {σ σ' : Nat → S} {events : List (Event Row)}
    (h : Move rt tasks σ events tasks' σ') : Moves rt tasks σ events tasks' σ' := by
  simpa using Moves.step h .refl

/-- What the stack after a move still does, the stack before it does after the
move's events. -/
theorem Move.runsAll {tasks tasks' : List (Task Row)} {σ σ₁ σ₂ : Nat → S}
    {events rest : List (Event Row)} {finished : Bool} (h : Move rt tasks σ events tasks' σ₁)
    (hr : RunsAll rt tasks' σ₁ rest finished σ₂) :
    RunsAll rt tasks σ (events ++ rest) finished σ₂ := by
  cases h with
  | page hp =>
    cases hr with
    | inside hs => exact .inside (.page hp hs)
    | cons hs hb =>
      rw [← List.append_assoc]
      exact .cons (.page hp hs) hb
  | enqueue hc =>
    cases hr with
    | inside hs => exact .inside (.enqueue hc hs)
    | cons hs hb =>
      rw [← List.append_assoc]
      exact .cons (.enqueue hc hs) hb
  | enter hc =>
    rw [List.nil_append]
    cases hr with
    | inside hs => exact .inside (.inside hc hs)
    | cons hs hb =>
      -- The child returned; the parent's task may itself stop or end.
      cases hb with
      | inside hp => exact .inside (.consumer hc hs hp)
      | cons hp hb =>
        rw [← List.append_assoc]
        exact .cons (.consumer hc hs hp) hb
  | more =>
    rw [List.nil_append]
    cases hr with
    | inside hs => exact .inside (.more hs)
    | cons hs hb => exact .cons (.more hs) hb
  | finish => exact .cons .finish hr

theorem Moves.runsAll {tasks tasks' : List (Task Row)} {σ σ₁ σ₂ : Nat → S}
    {events rest : List (Event Row)} {finished : Bool} (h : Moves rt tasks σ events tasks' σ₁)
    (hr : RunsAll rt tasks' σ₁ rest finished σ₂) :
    RunsAll rt tasks σ (events ++ rest) finished σ₂ := by
  induction h with
  | refl => exact hr
  | step hm _ ih =>
    rw [List.append_assoc]
    exact hm.runsAll (ih hr)

theorem RunsAll.singleton {task : Task Row} {σ σ' : Nat → S} {events : List (Event Row)}
    {finished : Bool} (h : RunsAll rt [task] σ events finished σ') :
    Runs rt task σ events finished σ' := by
  cases h with
  | inside h => exact h
  | cons h hb =>
    cases hb
    simpa using h

/-- A stack that grew out of one task and is empty again performed it. -/
theorem Moves.runs_finished {task : Task Row} {σ σ' : Nat → S} {events : List (Event Row)}
    (h : Moves rt [task] σ events [] σ') : Runs rt task σ events true σ' := by
  simpa using (h.runsAll .nil).singleton

/-- A stack that grew out of one task and is not empty is somewhere inside it. -/
theorem Moves.runs_inside {task top : Task Row} {below : List (Task Row)} {σ σ' : Nat → S}
    {events : List (Event Row)} (h : Moves rt [task] σ events (top :: below) σ') :
    Runs rt task σ events false σ' := by
  simpa using (h.runsAll (.inside .pause)).singleton

end Dogpaddle.Flow
