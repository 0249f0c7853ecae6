import Dogpaddle.EquiJoin.Event

/-!
# How a page can fail

Apart from its match counts and its position, a page fails for ordinary reasons only: the
allowance, the rows, the expressions, or arithmetic that leaves its range.
-/

namespace Dogpaddle.EquiJoin

open Lib Store Dogpaddle.Relation

/-- Errors that report broken match counts. -/
def EquiJoinError.countFault : EquiJoinError → Bool
  | .matchCountUnderflow | .invalidMatchCount _ => true
  | _ => false

/-- Errors that report a position. -/
def EquiJoinError.resumeFault : EquiJoinError → Bool
  | .invalidResume _ => true
  | _ => false

/-- Errors that say nothing against the match counts or the position. -/
def Ordinary (e : EquiJoinError) : Prop := e.countFault = false ∧ e.resumeFault = false

theorem ordinary_budget : Ordinary (budgetExceeded : EquiJoinError) := ⟨rfl, rfl⟩

theorem ordinary_row (e : RowError) : Ordinary (RowFailure.ofRow e) := ⟨rfl, rfl⟩

theorem ordinary_decodeError (e : RowError) : Ordinary (decodeError e) :=
  decodeError_raises ordinary_budget ordinary_row e

theorem ordinary_charge (bytes : Nat) (s : Scope JoinState) :
    Raises Ordinary (StepBudget.charge bytes : JoinAttempt Unit) s :=
  StepBudget.raises_charge ordinary_budget bytes s

variable {Ty Value : Type}

namespace EquiJoinOperation

variable [DecidableEq Value] (op : EquiJoinOperation Ty Value)

theorem encodeColumn_raises (field : Relation.Field Ty) (values : List Value) (rows : List PreparedRow)
    (s : Scope JoinState) : Raises Ordinary (op.encodeColumn field values rows) s := by
  induction values generalizing rows s with
  | nil => exact .pure _
  | cons value values ih =>
    cases rows with
    | nil => exact .pure _
    | cons row rows =>
      refine .bind ?_ fun _ _ _ => .bind (ih _ _) fun _ _ _ => .pure _
      exact .get <| .bind (ordinary_charge _ _) fun _ _ _ =>
        .bind (.ofExcept (.mapError ordinary_decodeError)) fun _ _ _ => .pure _

theorem prepareKeys_raises (port : Nat) (events : List (Row Value × Int)) (key : Nat)
    (pairs : List (BoundKeyPair Ty Value)) (rows : List PreparedRow) (s : Scope JoinState) :
    Raises Ordinary (op.prepareKeys port events key pairs rows) s := by
  induction pairs generalizing key rows s with
  | nil => exact .pure _
  | cons pair pairs ih =>
    exact .bind (.ofExcept (.mapError fun _ => ⟨rfl, rfl⟩)) fun _ _ _ =>
      .bind (ordinary_charge _ _) fun _ _ _ =>
        .bind (op.encodeColumn_raises _ _ _ _) fun _ _ _ => ih _ _ _

omit [DecidableEq Value] in
theorem encodeRows_raises (port : Nat) (events : List (Row Value × Int)) (rows : List PreparedRow)
    (s : Scope JoinState) : Raises Ordinary (op.encodeRows port events rows) s := by
  induction events generalizing rows s with
  | nil => exact .pure _
  | cons event events ih =>
    cases rows with
    | nil => exact .pure _
    | cons row rows =>
      exact .get <| .bind (.ofExcept (.mapError ordinary_decodeError)) fun _ _ _ =>
        .bind (ordinary_charge _ _) fun _ _ _ =>
          .bind (.ofExcept (.mapError fun _ => ⟨rfl, rfl⟩)) fun _ _ _ =>
            .bind (ih _ _) fun _ _ _ => .pure _

theorem prepareWindow_raises (port : Nat) (events : List (Row Value × Int))
    (s : Scope JoinState) : Raises Ordinary (op.prepareWindow port events) s :=
  .bind (ordinary_charge _ _) fun _ _ _ =>
    .bind (op.prepareKeys_raises _ _ _ _ _ _) fun _ _ _ => op.encodeRows_raises _ _ _ _

theorem candidate_raises (port : Nat) (key : Bytes) (s : Scope JoinState) :
    Raises Ordinary (op.candidate port key) s :=
  .bind (raises_admitBatchShape op.fmt ordinary_budget _ _) fun _ _ _ =>
    .bind (raises_admitRow op.fmt ordinary_budget ordinary_row _ _ _) fun _ _ _ =>
      .bind (.ofExcept (.mapError fun _ => ⟨rfl, rfl⟩)) fun _ _ _ => op.prepareWindow_raises _ _ _

omit [DecidableEq Value] in
theorem scanOpposite_raises (port : Nat) (row : PreparedRow) (resumeAfter : Option Bytes)
    (limit : ScanLimit) (s : Scope JoinState) :
    Raises Ordinary (scanOpposite port row resumeAfter limit) s := by
  refine .get ?_
  cases scanPartition (s.state.rows (1 - port)) row.key .ascending resumeAfter limit with
  | error e => exact .throw ⟨rfl, rfl⟩
  | ok page => exact .bind (ordinary_charge _ _) fun _ _ _ => .pure _

omit [DecidableEq Value] in
theorem scanResidualMatches_raises
    (residual : Row Value → Except OperationError (Option Bool)) (port : Nat) (row : PreparedRow)
    (effect : RowEffect) (resumeAfter : Option Bytes) (s : Scope JoinState) :
    Raises Ordinary (op.scanResidualMatches residual port row effect resumeAfter) s := by
  refine .ite (fun _ => .pure _) fun _ => .get <| .bind (scanOpposite_raises _ _ _ _ _)
    fun page t _ => .get <| .ite (fun _ => .pure _) fun _ =>
      .bind (ordinary_charge _ _) fun _ t _ => .bind ?_ fun _ _ _ => .pure _
  refine .ite (fun _ => .pure _) fun _ => .bind ?_ fun _ _ _ =>
    .bind (.ofExcept (.mapError fun _ => ⟨rfl, rfl⟩)) fun _ _ _ => .pure _
  refine ArrowOutput.raises_extend op.fmt ordinary_budget ordinary_row _ ?_ _ _
  intro item hitem
  obtain ⟨e, -, rfl⟩ := List.mem_map.mp hitem
  exact fun _ h => by cases h

omit [DecidableEq Value] in
theorem chargeRow_raises (row : PreparedRow) (s : Scope JoinState) :
    Raises Ordinary (op.chargeRow row) s := by
  have hcounts : ∀ t, Raises Ordinary (if op.hasMatchCounts then
      StepBudget.charge ((row.row.length + 9) * 3) else pure () : JoinAttempt Unit) t :=
    fun t => .ite (fun _ => ordinary_charge _ _) fun _ => .pure _
  exact .bind (ordinary_charge _ _) fun _ t _ =>
    .ite (fun _ => .bind (ordinary_charge _ _) fun _ _ _ => hcounts _) fun _ => hcounts _

omit [DecidableEq Value] in
theorem eventEffect_fails (row : PreparedRow) (partition : OrdMap Bytes ℕ+) :
    Fails Ordinary (op.eventEffect row partition) := by
  intro e he
  unfold eventEffect at he
  cases hadjust : adjustedWeight (multiplicity partition row.row) row.difference with
  | ok w => simp only [hadjust] at he; cases he
  | error e' =>
    simp only [hadjust, Except.error.injEq] at he
    subst he
    unfold adjustedWeight at hadjust
    split at hadjust
    · split at hadjust <;> cases hadjust
      exact ⟨rfl, rfl⟩
    · split at hadjust <;> cases hadjust
      exact ⟨rfl, rfl⟩

omit [DecidableEq Value] in
theorem checkedItem_fails (item : Item) : Fails Ordinary (checkedItem item) := by
  intro e he
  unfold checkedItem outputDifference at he
  by_cases hd : -2 ^ 63 ≤ item.2 ∧ item.2 < 2 ^ 63
  · rw [if_pos hd] at he
    cases he
  · rw [if_neg hd] at he
    cases he
    exact ⟨rfl, rfl⟩

omit [DecidableEq Value] in
theorem extend_raises (schemas : List (Schema Ty)) {items : List (Except EquiJoinError Item)}
    (hitems : ∀ item ∈ items, Fails Ordinary item) (output : ArrowOutput Value)
    (s : Scope JoinState) : Raises Ordinary (output.extend op.fmt schemas items) s :=
  ArrowOutput.raises_extend op.fmt ordinary_budget ordinary_row schemas hitems output s

omit [DecidableEq Value] in
/-- Checked items go wrong in their differences only. -/
theorem extend_checked_raises (schemas : List (Schema Ty)) (items : List Item)
    (output : ArrowOutput Value) (s : Scope JoinState) :
    Raises Ordinary (output.extend op.fmt schemas (items.map checkedItem)) s := by
  refine op.extend_raises schemas (fun item hitem => ?_) output s
  obtain ⟨i, -, rfl⟩ := List.mem_map.mp hitem
  exact checkedItem_fails i

omit [DecidableEq Value] in
theorem finish_fails (columns : Nat) (output : ArrowOutput Value) :
    Fails Ordinary (output.finish columns EquiJoinError.change) := by
  intro e he
  unfold ArrowOutput.finish at he
  split at he
  · cases he
  · cases hnew : Change.tryNew columns output.rows with
    | none =>
      rw [hnew] at he
      cases he
      exact ⟨rfl, rfl⟩
    | some change =>
      rw [hnew] at he
      cases he

end EquiJoinOperation

end Dogpaddle.EquiJoin
