import Dogpaddle.Operation.Run
import Mathlib.Data.Prod.Lex
import Mathlib.Order.OrderIsoNat

/-!
# Positions of an input

A position is an event and, inside it, the key after which the next page starts. Pages that
leave a position move it forward (`Resume.Before`); where a measure of what is left falls
along with it, an input is finished after finitely many pages. `Operation.Resumes` is what
reopening relies on: an operation accepts the positions it starts from and leaves.
-/

namespace Dogpaddle

open Lib

/-- The key after which a cursor resumes. -/
def Cursor.key : Cursor → Option Bytes
  | .batch => none
  | .equiJoin cursor => cursor.resumeAfter
  | .asOf cursor => cursor.leftResumeAfter

theorem key_lt_trans {a b c : Option Bytes} (hab : a < b) (hbc : b < c) : a < c := by
  cases c with
  | none => exact (Option.not_lt_none hbc).elim
  | some c =>
    cases a with
    | none => exact Option.none_lt_some
    | some a =>
      cases b with
      | none => exact (Option.not_lt_none hab).elim
      | some b =>
        have hlt : a < b := Option.some_lt_some.mp hab
        exact Option.some_lt_some.mpr (lt_trans hlt (Option.some_lt_some.mp hbc))

/-- A later event, or a later key inside the same one. -/
def Resume.Before (r r' : Resume) : Prop :=
  r.ordinal < r'.ordinal ∨ r.ordinal = r'.ordinal ∧ r.cursor.key < r'.cursor.key

/-- Endless successful pages of one input, starting at a position. -/
structure Endless {S Q Row : Type} (op : Operation S Q Row) (port : Nat) (input : Change Row)
    (resume : Resume) (s : S) : Prop where
  run : ∃ (resumes : Nat → Resume) (states : Nat → S) (outputs : Nat → Option (Change Row)),
    resumes 0 = resume ∧ states 0 = s ∧ ∀ n,
      Performs (op.step port input (resumes n)) (states n) ⟨outputs n, .more (resumes (n + 1))⟩
        (states (n + 1))

/-- Pages that decrease a measure of what is left do not go on for ever. -/
theorem not_endless {S Q Row : Type} {op : Operation S Q Row} {port : Nat} {input : Change Row}
    (P : Resume → S → Prop) (μ : Resume → S → Nat ×ₗ Nat)
    (hstep : ∀ r s output r' s', P r s → Performs (op.step port input r) s ⟨output, .more r'⟩ s' →
      P r' s' ∧ μ r' s' < μ r s)
    {resume : Resume} {s : S} (h : P resume s) : ¬ Endless op port input resume s := by
  rintro ⟨resumes, states, outputs, rfl, rfl, hrun⟩
  have hall : ∀ n, P (resumes n) (states n) := by
    intro n
    induction n with
    | zero => exact h
    | succ n ih => exact (hstep _ _ _ _ _ ih (hrun n)).1
  have hfalls : ∀ n, μ (resumes (n + 1)) (states (n + 1)) < μ (resumes n) (states n) :=
    fun n => (hstep _ _ _ _ _ (hall n) (hrun n)).2
  exact not_strictAnti_of_wellFoundedLT (fun n => μ (resumes n) (states n))
    (strictAnti_nat_of_succ_lt hfalls)

/-! ## Checked positions -/

variable {S Q Row : Type}

/-- What reopening relies on of an operation: on the inputs it is bound to, its check accepts
the first position and, in states it can be in, every position a page leaves. -/
structure Operation.Resumes (op : Operation S Q Row) (E : OperationError → Prop) (I : S → Prop)
    (accepts : Nat → Change Row → Prop) : Prop where
  initial : ∀ port change, accepts port change →
    Fails E (op.validateResume port change op.initialResume)
  step : ∀ {port change r s output progress s'}, I s → accepts port change →
    Fails E (op.validateResume port change r) →
    Performs (op.step port change r) s ⟨output, progress⟩ s' →
      I s' ∧ ∀ r', progress = .more r' → Fails E (op.validateResume port change r')

/-- Fewer inputs to be bound to ask for less. -/
theorem Operation.Resumes.mono {op : Operation S Q Row} {E : OperationError → Prop}
    {I : S → Prop} {accepts accepts' : Nat → Change Row → Prop} (h : op.Resumes E I accepts)
    (haccepts : ∀ port change, accepts' port change → accepts port change) :
    op.Resumes E I accepts' where
  initial port change ha := h.initial port change (haccepts port change ha)
  step hI ha hr hstep := h.step hI (haccepts _ _ ha) hr hstep

/-- A window that leaves a position leaves one inside its input. -/
theorem stepWindow_more {op : Operation S Q Row} {port : Nat} {change : Change Row}
    {resume r : Resume} {s s' : S} {output : Option (Change Row)}
    (h : Performs (op.stepWindow port change resume) s ⟨output, .more r⟩ s') :
    ∃ ordinal, r = ⟨ordinal, .batch⟩ ∧ ordinal < change.numRows := by
  obtain ⟨budget, budget', h⟩ := h
  unfold Operation.stepWindow at h
  obtain ⟨_, t, _, h⟩ := bind_eq_ok.mp h
  obtain ⟨scope, t, _, h⟩ := bind_eq_ok.mp h
  split at h
  · exact (throw_eq_ok.mp h).elim
  obtain ⟨slice, t, _, h⟩ := bind_eq_ok.mp h
  obtain ⟨_, t, _, h⟩ := bind_eq_ok.mp h
  obtain ⟨out, t, _, h⟩ := bind_eq_ok.mp h
  obtain ⟨hstep, -⟩ := pure_eq_ok.mp h
  injection hstep with _ hprogress
  split at hprogress
  · cases hprogress
  · next hend =>
    cases hprogress
    refine ⟨_, rfl, ?_⟩
    omega

/-- Heads that are not paged keep a batch position inside their input. -/
theorem Operation.resumes_batch {op : Operation S Q Row} {E : OperationError → Prop}
    {I : S → Prop} {accepts : Nat → Change Row → Prop} (hsink : op.isSink = false)
    (hpaged : ∀ operation, op ≠ .paged operation) (hI : ∀ s, I s) :
    op.Resumes E I accepts := by
  have hvalid : ∀ port (change : Change Row) ordinal, ordinal < change.numRows →
      Fails E (op.validateResume port change ⟨ordinal, .batch⟩) := by
    intro port change ordinal hlt e he
    cases op with
    | paged operation => exact absurd rfl (hpaged operation)
    | sink operation => cases hsink
    | atomic operation =>
      rw [Operation.validateResume, if_pos ⟨rfl, hlt⟩] at he
      cases he
    | source =>
      rw [Operation.validateResume, if_pos ⟨rfl, hlt⟩] at he
      cases he
  constructor
  · intro port change _
    have hinitial : op.initialResume = ⟨0, .batch⟩ := by
      cases op with
      | paged operation => exact absurd rfl (hpaged operation)
      | _ => rfl
    rw [hinitial]
    exact hvalid port change 0 change.numRows_pos
  · intro port change r s output progress s' _ _ _ hstep
    refine ⟨hI s', fun r' hmore => ?_⟩
    have hwindow : Performs (op.stepWindow port change r) s ⟨output, progress⟩ s' := by
      cases op with
      | paged operation => exact absurd rfl (hpaged operation)
      | _ => exact hstep
    rw [hmore] at hwindow
    obtain ⟨ordinal, rfl, hlt⟩ := stepWindow_more hwindow
    exact hvalid port change ordinal hlt

end Dogpaddle
