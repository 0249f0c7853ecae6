import Dogpaddle.Operation.Run
import Mathlib.Algebra.BigOperators.Group.Finset.Piecewise

/-!
# Stateless operators

`UNION ALL`, the row filter and the expression projection. None of them owns
store data, so the state type is free.

Expressions are evaluated by a library outside this repository. The definitions
admit immutable row-local expressions only, so a bound expression is a function
of the row that may fail.
-/

namespace Dogpaddle

open Lib

variable {S Q Row : Type}

/-- A bound `UNION ALL`: its input count and its common input schema. -/
structure UnionAll (Row : Type) where
  inputCount : Nat
  /-- Whether a change has the bound schema. -/
  bound : Change Row → Bool
  logicalBytes : Change Row → Nat

/-- A bound row filter. -/
structure Filter (Row : Type) where
  predicate : Row → Except OperationError (Option Bool)
  logicalBytes : Change Row → Nat

/-- A bound projection; `columns` is the width of its output. -/
structure Select (Row : Type) where
  bound : Change Row → Bool
  project : Row → Except OperationError Row
  columns : Nat
  logicalBytes : Change Row → Nat

/-- Forwards the offered slice unchanged. -/
def UnionAll.apply (op : UnionAll Row) (port : Nat) (change : Change Row) :
    Attempt OperationError S (Option (Change Row)) := do
  if port ≥ op.inputCount then
    let inputCount := op.inputCount
    throw (.message s!"union-all does not accept input port {port}; it has {inputCount} inputs")
  else if ¬ op.bound change then
    throw (.message s!"union-all input {port} Schema differs from its bound Schema")
  else do
    StepBudget.charge (op.logicalBytes change)
    pure (some change)

/-- Keeps the rows whose predicate is a non-null `true`. -/
def Filter.apply (op : Filter Row) (port : Nat) (change : Change Row) :
    Attempt OperationError S (Option (Change Row)) := do
  StepBudget.charge (op.logicalBytes change)
  if port ≠ 0 then throw (.message s!"filter does not accept input port {port}")
  else do
    let predicate ← MonadExcept.ofExcept (change.events.mapM fun e => op.predicate e.1)
    StepBudget.charge ((predicate.length + 7) / 8)
    let selected := (change.events.zip predicate).filterMap fun e =>
      if e.2 = some true then some e.1 else none
    if selected.length = change.numRows then pure (some change)
    else
      match Change.tryNew change.numColumns selected with
      | none => pure none
      | some output => do
        StepBudget.charge (op.logicalBytes output)
        pure (some output)

/-- Projects every row and keeps the differences. -/
def Select.apply (op : Select Row) (port : Nat) (change : Change Row) :
    Attempt OperationError S (Option (Change Row)) := do
  StepBudget.charge (op.logicalBytes change)
  if port ≠ 0 then throw (.message s!"expression projection does not accept input port {port}")
  else if ¬ op.bound change then
    throw (.message "expression projection input schema differs from its bound schema")
  else do
    let rows ← MonadExcept.ofExcept (change.events.mapM fun e => op.project e.1)
    match Change.tryNew op.columns (rows.zip (change.events.map (·.2))) with
    | none => throw (.message "a change cannot be empty")
    | some output => do
      StepBudget.charge (op.logicalBytes output)
      pure (some output)

/-! ## `UNION ALL` adds its inputs up -/

theorem UnionAll.apply_eq_ok {op : UnionAll Row} {port : Nat} {change : Change Row} {s s' : S}
    {output : Option (Change Row)} (h : Performs (op.apply port change) s output s') :
    output = some change ∧ port < op.inputCount := by
  obtain ⟨b, b', h⟩ := h
  unfold UnionAll.apply at h
  split at h
  · exact (throw_eq_ok.mp h).elim
  · split at h
    · exact (throw_eq_ok.mp h).elim
    · obtain ⟨_, _, _, h⟩ := bind_eq_ok.mp h
      exact ⟨(pure_eq_ok.mp h).1.symm, by omega⟩

/-- The law of `UNION ALL`. -/
theorem UnionAll.incremental [DecidableEq Row] (op : UnionAll Row) (s : S) :
    Incremental (.atomic ⟨op.apply⟩ : Operation S Q Row) op.inputCount s
      (fun inputs => ∑ p ∈ Finset.range op.inputCount, inputs p) := by
  intro inputs outputs s' h hports
  induction h with
  | nil => simp
  | @cons s s₁ s₂ input inputs outputs rest hh _ ih =>
    cases hh with
    | atomic hp =>
      obtain ⟨rfl, hport⟩ := UnionAll.apply_eq_ok hp
      rw [outputsBag_append, ih fun i hi => hports i (List.mem_cons_of_mem _ hi)]
      simp [Finset.sum_add_distrib, hport]

end Dogpaddle
