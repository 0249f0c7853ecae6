import Dogpaddle.EquiJoin.Prepare
import Dogpaddle.Operation.Run

/-!
# Whole events

A run of pages drives each row of an input through all its candidates. This
module forgets allowances and page cuts:

* `Visit` is what one page of candidates does, given as a list;
* `Partial` and `Final` are the two outcomes of driving a row;
* `Partial.final` joins the pages of one event: in the end every event is a single
  `Final` over all its candidates.
-/

namespace Dogpaddle.EquiJoin

open Lib Store Dogpaddle.Relation

variable {Ty Value : Type}

/-- Whether a residual is a non-null `true` on a joined row. -/
def accepts (residual : Row Value → Except OperationError (Option Bool)) (row : Row Value) :
    Bool :=
  match residual row with
  | .ok (some true) => true
  | _ => false

namespace EquiJoinOperation

variable (op : EquiJoinOperation Ty Value)

/-- Whether an event visits the opposite partition. -/
def scans (s : JoinState) (port : Nat) (row : PreparedRow) (effect : RowEffect) : Bool :=
  if op.residual.isSome then
    decide (¬ (¬ row.matchable ∨ (op.kind.leftOnly ∧ effect.transition = .none)))
  else
    decide (¬ (¬ row.matchable ∨ (op.kind.leftOnly ∧ port = 1 ∧ effect.transition = .none)) ∧
      ¬ (¬ op.oppositeMatched s port row effect ∨ (op.kind.leftOnly ∧ port = 0)))

/-- The candidates of an event after a resume key. -/
def candidates (s : JoinState) (port : Nat) (row : PreparedRow) (effect : RowEffect)
    (resumeAfter : Option Bytes) : List (Bytes × ℕ+) :=
  if op.scans s port row effect then entriesAfter (s.rows (1 - port) row.key) resumeAfter else []

/-- The effect as the scan without a residual leaves it. -/
def scannedEffect (s : JoinState) (port : Nat) (row : PreparedRow) (effect : RowEffect) :
    RowEffect :=
  if ¬ row.matchable ∨ (op.kind.leftOnly ∧ port = 1 ∧ effect.transition = .none) then effect
  else { effect with matched := op.oppositeMatched s port row effect }

/-- Whether the residual accepts a pair. -/
def qualifies (residual : Row Value → Except OperationError (Option Bool)) (port : Nat)
    (own opposite : Bytes) : Bool :=
  match op.fmt.appendRow [op.leftSchema, op.rightSchema] (pairFragments port own opposite) with
  | .error _ => false
  | .ok row => accepts residual row

/-- The matches kept from a page's qualifying candidates. -/
def keptMatches (port : Nat) (qualified : List (Bytes × ℕ+)) : List PreparedMatch :=
  if op.kind.leftOnly ∧ port = 0 then [] else qualified.map fun e => ⟨e.1, e.2, .none⟩

/-- One page of an event, given by its candidates: the next match flag and state
and the rows put out. -/
inductive Visit (port : Nat) (row : PreparedRow) (effect : RowEffect) (s : JoinState)
    (cursor : JoinCursor) (entries : List (Bytes × ℕ+)) (continuation : Option Bytes)
    (out : List (Row Value × Int)) : Bool → JoinState → Prop
  | plain :
      op.residual = none →
      List.Forall₂ (Appended op.fmt op.outputSchemas)
        (op.outputItems port row (op.scannedEffect s port row effect) entries) out →
      Visit port row effect s cursor entries continuation out cursor.foundMatch s
  | residual {residual : Row Value → Except OperationError (Option Bool)} {carried : Bool}
      {qualified : List (Bytes × ℕ+)} {counts : OrdMap Bytes Nat} {found : List PreparedMatch} :
      op.residual = some residual →
      op.carriedMatch port row effect cursor s.matchCounts = .ok carried →
      qualified = entries.filter (fun e => op.qualifies residual port row.row e.1) →
      op.settleCounts port row effect ⟨op.keptMatches port qualified, qualified.length,
        continuation, 0⟩ (carried || qualified.length != 0) s.matchCounts = .ok (counts, found) →
      List.Forall₂ (Appended op.fmt op.outputSchemas)
        ((found.flatMap (op.matchItems port row) ++ (if continuation.isSome then [] else
          op.currentItems port row (carried || qualified.length != 0))).map checkedItem) out →
      Visit port row effect s cursor entries continuation out
        (carried || qualified.length != 0) { s with matchCounts := counts }

/-- A page that leaves candidates for another one. -/
structure Partial (port : Nat) (row : PreparedRow) (s : JoinState) (cursor : JoinCursor)
    (out : List (Row Value × Int)) (s' : JoinState) (cursor' : JoinCursor) : Prop where
  visited : ∃ effect after entries key,
    op.eventEffect row (s.rows port row.key) = .ok (effect, after) ∧
    IsPage (op.candidates s port row effect) cursor.resumeAfter ⟨entries, some key⟩ ∧
    op.Visit port row effect s cursor entries (some key) out cursor'.foundMatch s' ∧
    cursor'.resumeAfter = some key

/-- The page that completes an event and stores its row. -/
structure Final (port : Nat) (row : PreparedRow) (s : JoinState) (cursor : JoinCursor)
    (out : List (Row Value × Int)) (s' : JoinState) : Prop where
  visited : ∃ effect after found s₁,
    op.eventEffect row (s.rows port row.key) = .ok (effect, after) ∧
    op.Visit port row effect s cursor (op.candidates s port row effect cursor.resumeAfter) none
      out found s₁ ∧
    s' = s₁.setRow port row.key row.row after

/-! ## One page in the code -/

theorem scanOpposite_eq_ok {port : Nat} {row : PreparedRow} {resumeAfter : Option Bytes}
    {limit : ScanLimit} {page : OrderedMapPage Bytes ℕ+} {s s' : Scope JoinState}
    (h : scanOpposite port row resumeAfter limit s = .ok page s') :
    s'.state = s.state ∧
      IsPage (entriesAfter (s.state.rows (1 - port) row.key)) resumeAfter page := by
  obtain ⟨_, t, ht, h⟩ := bind_eq_ok.mp h
  obtain ⟨rfl, rfl⟩ := get_eq_ok.mp ht
  cases hscan : scanPartition (s.state.rows (1 - port)) row.key .ascending resumeAfter limit with
  | error e =>
    rw [hscan] at h
    exact (throw_eq_ok.mp h).elim
  | ok p =>
    rw [hscan] at h
    obtain ⟨_, t, ht, h⟩ := bind_eq_ok.mp h
    obtain ⟨rfl, rfl⟩ := pure_eq_ok.mp h
    exact ⟨(StepBudget.charge_eq_ok ht).1, scan_isPage hscan⟩

theorem isPage_nil (resumeAfter : Option Bytes) :
    IsPage (fun _ => ([] : List (Bytes × ℕ+))) resumeAfter ⟨[], none⟩ := rfl

theorem scanMatches_eq_ok {port : Nat} {row : PreparedRow} {effect effect' : RowEffect}
    {resumeAfter : Option Bytes} {page : OrderedMapPage Bytes ℕ+} {s s' : Scope JoinState}
    (hplain : op.residual = none)
    (h : op.scanMatches port row effect resumeAfter s = .ok (effect', page) s') :
    s'.state = s.state ∧ effect' = op.scannedEffect s.state port row effect ∧
      IsPage (op.candidates s.state port row effect) resumeAfter page := by
  unfold scanMatches at h
  unfold scannedEffect candidates scans
  simp only [hplain, Option.isSome_none, Bool.false_eq_true, if_false]
  split at h
  · next hskip =>
    obtain ⟨hpage, rfl⟩ := pure_eq_ok.mp h
    cases hpage
    simp only [hskip, not_true_eq_false, false_and, decide_false, Bool.false_eq_true, if_false,
      if_true]
    exact ⟨trivial, trivial, isPage_nil _⟩
  · next hskip =>
    obtain ⟨scope, t, ht, h⟩ := bind_eq_ok.mp h
    obtain ⟨rfl, rfl⟩ := get_eq_ok.mp ht
    split at h
    · next hnone =>
      obtain ⟨hpage, rfl⟩ := pure_eq_ok.mp h
      cases hpage
      simp only [hskip, hnone, not_false_eq_true, not_true_eq_false, and_false, decide_false,
        Bool.false_eq_true, if_false]
      exact ⟨trivial, trivial, isPage_nil _⟩
    · next hnone =>
      obtain ⟨p, t, ht, h⟩ := bind_eq_ok.mp h
      obtain ⟨hpage, rfl⟩ := pure_eq_ok.mp h
      cases hpage
      obtain ⟨hstate, hpage⟩ := scanOpposite_eq_ok ht
      simp only [hskip, hnone, not_false_eq_true, and_self, decide_true, if_false, if_true]
      exact ⟨hstate, trivial, hpage⟩

theorem plainPage_eq_ok {port : Nat} {row : PreparedRow} {effect : RowEffect}
    {cursor : JoinCursor} {output : ArrowOutput Value} {result : PageResult Value}
    {s s' : Scope JoinState} (hplain : op.residual = none)
    (h : op.plainPage port row effect cursor output s = .ok result s') :
    ∃ cursor' output' entries continuation out, result = some (cursor', output', continuation) ∧
      output'.rows = output.rows ++ out ∧
      IsPage (op.candidates s.state port row effect) cursor.resumeAfter
        ⟨entries, continuation⟩ ∧
      op.Visit port row effect s.state cursor entries continuation out cursor'.foundMatch
        s'.state := by
  obtain ⟨⟨effect', page⟩, t, ht, h⟩ := bind_eq_ok.mp h
  obtain ⟨hstate, rfl, hpage⟩ := op.scanMatches_eq_ok hplain ht
  obtain ⟨_, t₁, ht₁, h⟩ := bind_eq_ok.mp h
  obtain ⟨output', t₂, ht₂, h⟩ := bind_eq_ok.mp h
  obtain ⟨rfl, rfl⟩ := pure_eq_ok.mp h
  obtain ⟨hstate₂, out, hout, hrows⟩ := ArrowOutput.extend_eq_ok op.fmt ht₂
  refine ⟨cursor, output', page.entries, page.continuation, out, rfl, hout, hpage, ?_⟩
  rw [hstate₂, StepBudget.consumeHead_eq_ok ht₁, hstate]
  exact .plain hplain hrows

/-- Filtering by the evaluated predicate keeps the qualifying candidates. -/
theorem filterMap_predicate {residual : Row Value → Except OperationError (Option Bool)}
    {port : Nat} {own : Bytes} {entries : List (Bytes × ℕ+)} {rows : List (Row Value × Int)}
    {predicate : List (Option Bool)}
    (hrows : List.Forall₂ (Appended op.fmt [op.leftSchema, op.rightSchema])
      (entries.map fun e => (.ok (pairFragments port own e.1, 1) : Except EquiJoinError Item)) rows)
    (hpredicate : List.Forall₂ (fun r p => residual r.1 = .ok p) rows predicate) :
    ((entries.zip predicate).filterMap fun e => if e.2 = some true then some e.1 else none) =
      entries.filter fun e => op.qualifies residual port own e.1 := by
  induction entries generalizing rows predicate with
  | nil => rfl
  | cons e entries ih =>
    cases hrows with
    | @cons _ row _ rows hrow hrest =>
      cases hpredicate with
      | @cons _ p _ predicate hp hprest =>
        obtain ⟨fragments, hitem, happend⟩ := hrow
        obtain ⟨rfl, -⟩ := Prod.mk.inj (Except.ok.inj hitem)
        have hq : op.qualifies residual port own e.1 = decide (p = some true) := by
          simp only [qualifies, accepts, happend, hp]
          rcases p with _ | _ | _ <;> rfl
        rw [List.zip_cons_cons, List.filterMap_cons, List.filter_cons, hq, ih hrest hprest]
        by_cases hp' : p = some true <;> simp [hp']

theorem evaluateResidualMatches_eq_ok
    {residual : Row Value → Except OperationError (Option Bool)} {port : Nat} {row : PreparedRow}
    {entries : List (Bytes × ℕ+)} {kept : List PreparedMatch} {qualifying : Nat}
    {s s' : Scope JoinState}
    (h : op.evaluateResidualMatches residual port row entries s = .ok (kept, qualifying) s') :
    s'.state = s.state ∧
      kept = op.keptMatches port
        (entries.filter fun e => op.qualifies residual port row.row e.1) ∧
      qualifying = (entries.filter fun e => op.qualifies residual port row.row e.1).length := by
  unfold evaluateResidualMatches at h
  split at h
  · next hnil =>
    obtain ⟨hresult, rfl⟩ := pure_eq_ok.mp h
    cases hresult
    subst hnil
    refine ⟨rfl, ?_, rfl⟩
    unfold keptMatches
    split <;> rfl
  · obtain ⟨candidates, t, ht, h⟩ := bind_eq_ok.mp h
    obtain ⟨hstate, rows, hcandidates, hrows⟩ := ArrowOutput.extend_eq_ok op.fmt ht
    obtain ⟨predicate, t₁, ht₁, h⟩ := bind_eq_ok.mp h
    obtain ⟨hpredicate, rfl⟩ := ofExcept_eq_ok.mp ht₁
    obtain ⟨hresult, rfl⟩ := pure_eq_ok.mp h
    have hp := mapM_eq_ok (mapError_eq_ok.mp hpredicate)
    rw [hcandidates] at hp
    rw [op.filterMap_predicate hrows hp] at hresult
    cases hresult
    exact ⟨hstate, rfl, rfl⟩

theorem scanResidualMatches_eq_ok
    {residual : Row Value → Except OperationError (Option Bool)} {port : Nat} {row : PreparedRow}
    {effect : RowEffect} {resumeAfter : Option Bytes} {result : Option ResidualPage}
    {s s' : Scope JoinState} (hresidual : op.residual = some residual)
    (h : op.scanResidualMatches residual port row effect resumeAfter s = .ok result s') :
    s'.state = s.state ∧ ∀ page, result = some page → ∃ entries,
      IsPage (op.candidates s.state port row effect) resumeAfter ⟨entries, page.continuation⟩ ∧
      page.matchRows = op.keptMatches port
        (entries.filter fun e => op.qualifies residual port row.row e.1) ∧
      page.qualifying =
        (entries.filter fun e => op.qualifies residual port row.row e.1).length := by
  unfold scanResidualMatches at h
  unfold candidates scans
  simp only [hresidual, Option.isSome_some, if_true]
  split at h
  · next hskip =>
    obtain ⟨rfl, rfl⟩ := pure_eq_ok.mp h
    refine ⟨rfl, fun page hpage => ⟨[], ?_, ?_, ?_⟩⟩ <;> cases hpage
    · simp only [hskip, not_true_eq_false, decide_false, Bool.false_eq_true, if_false]
      exact isPage_nil _
    · unfold keptMatches
      split <;> rfl
    · rfl
  · next hskip =>
    obtain ⟨_, t, ht, h⟩ := bind_eq_ok.mp h
    obtain ⟨rfl, rfl⟩ := get_eq_ok.mp ht
    obtain ⟨page, t, ht, h⟩ := bind_eq_ok.mp h
    obtain ⟨hstate, hpage⟩ := scanOpposite_eq_ok ht
    obtain ⟨_, t₁, ht₁, h⟩ := bind_eq_ok.mp h
    obtain ⟨rfl, rfl⟩ := get_eq_ok.mp ht₁
    split at h
    · obtain ⟨rfl, rfl⟩ := pure_eq_ok.mp h
      exact ⟨hstate, fun page hpage => by cases hpage⟩
    · obtain ⟨_, t₂, ht₂, h⟩ := bind_eq_ok.mp h
      obtain ⟨⟨kept, qualifying⟩, t₃, ht₃, h⟩ := bind_eq_ok.mp h
      obtain ⟨rfl, rfl⟩ := pure_eq_ok.mp h
      obtain ⟨hstate₃, rfl, rfl⟩ := op.evaluateResidualMatches_eq_ok ht₃
      refine ⟨by rw [hstate₃, (StepBudget.charge_eq_ok ht₂).1, hstate], ?_⟩
      intro page' hpage'
      cases hpage'
      refine ⟨page.entries, ?_, rfl, rfl⟩
      simp only [hskip, not_false_eq_true, decide_true, if_true]
      exact hpage

theorem settleCounts_items (port : Nat) (row : PreparedRow) (effect : RowEffect)
    (page : ResidualPage) (items : Nat) (foundMatch : Bool) (counts : OrdMap Bytes Nat) :
    op.settleCounts port row effect page foundMatch counts =
      op.settleCounts port row effect { page with items } foundMatch counts := rfl

theorem residualPage_eq_ok {residual : Row Value → Except OperationError (Option Bool)}
    {port : Nat} {row : PreparedRow} {effect : RowEffect} {cursor : JoinCursor}
    {output : ArrowOutput Value} {result : PageResult Value} {s s' : Scope JoinState}
    (hresidual : op.residual = some residual)
    (h : op.residualPage residual port row effect cursor output s = .ok result s') :
    (result = none ∧ s'.state = s.state) ∨
    ∃ cursor' output' entries continuation out, result = some (cursor', output', continuation) ∧
      output'.rows = output.rows ++ out ∧
      IsPage (op.candidates s.state port row effect) cursor.resumeAfter
        ⟨entries, continuation⟩ ∧
      op.Visit port row effect s.state cursor entries continuation out cursor'.foundMatch
        s'.state := by
  obtain ⟨_, t, ht, h⟩ := bind_eq_ok.mp h
  obtain ⟨rfl, rfl⟩ := get_eq_ok.mp ht
  obtain ⟨carried, t, ht, h⟩ := bind_eq_ok.mp h
  obtain ⟨hcarried, rfl⟩ := ofExcept_eq_ok.mp ht
  obtain ⟨scanned, t, ht, h⟩ := bind_eq_ok.mp h
  obtain ⟨hstate, hscanned⟩ := op.scanResidualMatches_eq_ok hresidual ht
  cases scanned with
  | none =>
    obtain ⟨rfl, rfl⟩ := pure_eq_ok.mp h
    exact .inl ⟨rfl, hstate⟩
  | some page =>
    obtain ⟨entries, hpage, hkept, hqualifying⟩ := hscanned page rfl
    obtain ⟨_, t₁, ht₁, h⟩ := bind_eq_ok.mp h
    obtain ⟨output', t₂, ht₂, h⟩ := bind_eq_ok.mp h
    obtain ⟨rfl, rfl⟩ := pure_eq_ok.mp h
    -- Count updates, then the output of the page.
    obtain ⟨_, u, hu, ht₂⟩ := bind_eq_ok.mp ht₂
    obtain ⟨rfl, rfl⟩ := get_eq_ok.mp hu
    obtain ⟨⟨counts, found⟩, u, hu, ht₂⟩ := bind_eq_ok.mp ht₂
    obtain ⟨hsettle, rfl⟩ := ofExcept_eq_ok.mp hu
    obtain ⟨_, u, hu, ht₂⟩ := bind_eq_ok.mp ht₂
    obtain rfl := modify_eq_ok.mp hu
    obtain ⟨hstate₂, out, hout, hrows⟩ := ArrowOutput.extend_eq_ok op.fmt ht₂
    have hstate₁ : t₁.state = s.state := by rw [StepBudget.consumeHead_eq_ok ht₁, hstate]
    refine .inr ⟨_, output', entries, page.continuation, out, rfl, hout, hpage, ?_⟩
    rw [hstate₂]
    dsimp only
    rw [hstate₁] at hsettle ⊢
    rw [op.settleCounts_items _ _ _ _ 0] at hsettle
    obtain ⟨matchRows, qualifying, continuation, items⟩ := page
    simp only at hkept hqualifying
    subst hkept hqualifying
    exact .residual hresidual hcarried rfl hsettle hrows

theorem chargeRow_state {row : PreparedRow} {s s' : Scope JoinState} {u : Unit}
    (h : op.chargeRow row s = .ok u s') : s'.state = s.state := by
  unfold chargeRow at h
  obtain ⟨_, t, ht, h⟩ := bind_eq_ok.mp h
  rw [← (StepBudget.charge_eq_ok ht).1]
  have hcounts : ∀ {t : Scope JoinState}, ((if op.hasMatchCounts then
      StepBudget.charge ((row.row.length + 9) * 3) else pure () : JoinAttempt Unit) t = .ok u s' →
      s'.state = t.state) := by
    intro t h
    split at h
    · exact (StepBudget.charge_eq_ok h).1
    · rw [← (pure_eq_ok.mp h).2]
  split at h
  · obtain ⟨_, t₁, ht₁, h⟩ := bind_eq_ok.mp h
    rw [hcounts h, (StepBudget.charge_eq_ok ht₁).1]
  · exact hcounts h

theorem rowPage_eq_ok {port : Nat} {row : PreparedRow} {effect : RowEffect} {v : Driving Value}
    {result : PageResult Value} {s s' : Scope JoinState}
    (h : op.rowPage port row effect v s = .ok result s') :
    (result = none ∧ s'.state = s.state) ∨
    ∃ cursor' output' entries continuation out, result = some (cursor', output', continuation) ∧
      output'.rows = v.output.rows ++ out ∧
      IsPage (op.candidates s.state port row effect) v.cursor.resumeAfter
        ⟨entries, continuation⟩ ∧
      op.Visit port row effect s.state v.cursor entries continuation out cursor'.foundMatch
        s'.state := by
  unfold rowPage at h
  cases hresidual : op.residual with
  | none =>
    rw [hresidual] at h
    exact .inr (op.plainPage_eq_ok hresidual h)
  | some residual =>
    rw [hresidual] at h
    exact op.residualPage_eq_ok hresidual h

/-- Driving one row does nothing, leaves candidates, or completes the event. -/
theorem driveRow_eq_ok {port : Nat} {row : PreparedRow} {v v' : Driving Value} {more : Bool}
    {s s' : Scope JoinState} (h : op.driveRow port row v s = .ok (v', more) s') :
    (v' = v ∧ more = false ∧ s'.state = s.state) ∨
    (∃ out, op.Partial port row s.state v.cursor out s'.state v'.cursor ∧
      v'.output.rows = v.output.rows ++ out ∧ v'.next = v.next ∧ more = false) ∨
    (∃ out, op.Final port row s.state v.cursor out s'.state ∧ v'.cursor = ⟨false, none⟩ ∧
      v'.output.rows = v.output.rows ++ out ∧ v'.next = v.next + 1) := by
  obtain ⟨_, t, ht, h⟩ := bind_eq_ok.mp h
  have hstate := op.chargeRow_state ht
  obtain ⟨_, t₁, ht₁, h⟩ := bind_eq_ok.mp h
  obtain ⟨rfl, rfl⟩ := get_eq_ok.mp ht₁
  obtain ⟨⟨effect, after⟩, t₁, ht₁, h⟩ := bind_eq_ok.mp h
  obtain ⟨heffect, rfl⟩ := ofExcept_eq_ok.mp ht₁
  obtain ⟨result, t₁, ht₁, h⟩ := bind_eq_ok.mp h
  rw [hstate] at heffect
  rcases op.rowPage_eq_ok ht₁ with ⟨rfl, hstate₁⟩ |
    ⟨cursor', output', entries, continuation, out, rfl, hout, hpage, hvisit⟩
  · obtain ⟨hresult, rfl⟩ := pure_eq_ok.mp h
    cases hresult
    exact .inl ⟨rfl, rfl, by rw [hstate₁, hstate]⟩
  · rw [hstate] at hpage hvisit
    cases continuation with
    | some key =>
      obtain ⟨hresult, rfl⟩ := pure_eq_ok.mp h
      cases hresult
      exact .inr (.inl ⟨out, ⟨effect, after, entries, key, heffect, hpage, hvisit, rfl⟩, hout,
        rfl, rfl⟩)
    | none =>
      obtain ⟨_, t₂, ht₂, h⟩ := bind_eq_ok.mp h
      obtain rfl := modify_eq_ok.mp ht₂
      obtain ⟨_, t₃, ht₃, h⟩ := bind_eq_ok.mp h
      obtain ⟨rfl, rfl⟩ := get_eq_ok.mp ht₃
      obtain ⟨hresult, rfl⟩ := pure_eq_ok.mp h
      cases hresult
      refine .inr (.inr ⟨out, ⟨effect, after, cursor'.foundMatch, t₁.state, heffect, ?_, rfl⟩,
        rfl, hout, rfl⟩)
      rw [show op.candidates s.state port row effect v.cursor.resumeAfter = entries from hpage]
      exact hvisit

/-! ## Runs of pages -/

section Steps

variable [DecidableEq Value]

/-- Events driven one after another from a cursor, with all outputs, up to the
events that are left. -/
inductive Drives (port : Nat) : List (Row Value × Int) → JoinCursor → JoinState →
    List (Row Value × Int) → List (Row Value × Int) → JoinCursor → JoinState → Prop
  | refl {events : List (Row Value × Int)} {cursor : JoinCursor} {s : JoinState} :
      Drives port events cursor s [] events cursor s
  | part {event : Row Value × Int} {events rest : List (Row Value × Int)}
      {cursor cursor₁ cursor' : JoinCursor} {s s₁ s' : JoinState}
      {out out' : List (Row Value × Int)} :
      op.Admitted port event.1 →
      op.Partial port (op.prepared port event) s cursor out s₁ cursor₁ →
      Drives port (event :: events) cursor₁ s₁ out' rest cursor' s' →
      Drives port (event :: events) cursor s (out ++ out') rest cursor' s'
  | full {event : Row Value × Int} {events rest : List (Row Value × Int)}
      {cursor cursor' : JoinCursor} {s s₁ s' : JoinState} {out out' : List (Row Value × Int)} :
      op.Admitted port event.1 →
      op.Final port (op.prepared port event) s cursor out s₁ →
      Drives port events ⟨false, none⟩ s₁ out' rest cursor' s' →
      Drives port (event :: events) cursor s (out ++ out') rest cursor' s'

theorem Drives.trans {op : EquiJoinOperation Ty Value} {port : Nat}
    {events events₁ events₂ : List (Row Value × Int)} {c c₁ c₂ : JoinCursor} {s s₁ s₂ : JoinState}
    {out out' : List (Row Value × Int)} (h : op.Drives port events c s out events₁ c₁ s₁)
    (h' : op.Drives port events₁ c₁ s₁ out' events₂ c₂ s₂) :
    op.Drives port events c s (out ++ out') events₂ c₂ s₂ := by
  induction h with
  | refl => exact h'
  | part ha hp _ ih =>
    rw [List.append_assoc]
    exact .part ha hp (ih h')
  | full ha hf _ ih =>
    rw [List.append_assoc]
    exact .full ha hf (ih h')

theorem driveWindow_eq_ok {port : Nat} {window : List (Row Value × Int)}
    (tail : List (Row Value × Int)) {v v' : Driving Value} {s s' : Scope JoinState}
    (hadmitted : ∀ e ∈ window, op.Admitted port e.1)
    (h : op.driveWindow port (window.map (op.prepared port)) v s = .ok v' s') :
    ∃ out n, n ≤ window.length ∧ v'.next = v.next + n ∧
      v'.output.rows = v.output.rows ++ out ∧
      op.Drives port (window ++ tail) v.cursor s.state out ((window ++ tail).drop n) v'.cursor
        s'.state := by
  induction window generalizing v s with
  | nil =>
    obtain ⟨rfl, rfl⟩ := pure_eq_ok.mp h
    exact ⟨[], 0, le_rfl, rfl, by simp, .refl⟩
  | cons event window ih =>
    rw [List.map_cons] at h
    unfold driveWindow at h
    have ha := hadmitted event (by simp)
    obtain ⟨_, t, ht, h⟩ := bind_eq_ok.mp h
    obtain ⟨rfl, rfl⟩ := get_eq_ok.mp ht
    split at h
    · obtain ⟨rfl, rfl⟩ := pure_eq_ok.mp h
      exact ⟨[], 0, Nat.zero_le _, rfl, by simp, .refl⟩
    · obtain ⟨⟨v₁, more⟩, t, ht, h⟩ := bind_eq_ok.mp h
      rcases op.driveRow_eq_ok ht with ⟨rfl, rfl, hstate⟩ | ⟨out, hpart, hout, hnext, rfl⟩ |
        ⟨out, hfull, hcursor, hout, hnext⟩
      · obtain ⟨rfl, rfl⟩ := pure_eq_ok.mp h
        rw [hstate]
        exact ⟨[], 0, Nat.zero_le _, rfl, by simp, .refl⟩
      · obtain ⟨rfl, rfl⟩ := pure_eq_ok.mp h
        refine ⟨out, 0, Nat.zero_le _, hnext, hout, ?_⟩
        rw [← List.append_nil out]
        exact .part ha hpart .refl
      · cases more with
        | false =>
          obtain ⟨rfl, rfl⟩ := pure_eq_ok.mp h
          refine ⟨out, 1, by simp, hnext, hout, ?_⟩
          rw [hcursor, ← List.append_nil out]
          exact .full ha hfull .refl
        | true =>
          obtain ⟨out', n, hn, hnext', hout', hdrives⟩ :=
            ih (fun e he => hadmitted e (by simp [he])) h
          rw [hcursor] at hdrives
          refine ⟨out ++ out', n + 1, by simpa using hn, by omega, ?_, ?_⟩
          · rw [hout', hout, List.append_assoc]
          · exact .full ha hfull hdrives

/-! ## Runs of steps -/

omit [DecidableEq Value] in
theorem cursor_eq_ok {port : Nat} {change : Change (Row Value)} {resume : Resume}
    {cursor : JoinCursor} (h : op.cursor port change resume = .ok cursor) :
    port < 2 ∧ resume.cursor = .equiJoin cursor ∧ resume.ordinal < change.numRows := by
  unfold EquiJoinOperation.cursor validateInput at h
  by_cases hport : port ≥ 2
  · simp [hport] at h
  · by_cases hbound : op.bound port change = true
    · rw [if_neg hport, if_neg (by simpa using hbound)] at h
      cases hc : resume.cursor with
      | equiJoin c =>
        simp only [hc] at h
        split at h
        · cases h
        · next hvalid =>
          cases h
          refine ⟨by omega, rfl, ?_⟩
          by_contra hlt
          exact hvalid (.inl (by omega))
      | batch => simp [hc] at h
      | asOf c => simp [hc] at h
    · simp [hport, hbound] at h

omit [DecidableEq Value] in
theorem finish_eq_ok {columns : Nat} {output : ArrowOutput Value} {invalid : EquiJoinError}
    {change : Option (Change (Row Value))} (h : output.finish columns invalid = .ok change) :
    outputEvents change = output.rows := by
  rw [← ArrowOutput.finish_eq_ok h]
  cases change <;> rfl

theorem validateCursorBinding_state {port : Nat} {cursor : JoinCursor} {driving : PreparedRow}
    {s s' : Scope JoinState} {u : Unit}
    (h : op.validateCursorBinding port cursor driving s = .ok u s') : s'.state = s.state := by
  unfold validateCursorBinding at h
  cases hkey : cursor.resumeAfter with
  | none =>
    rw [hkey] at h
    rw [(pure_eq_ok.mp h).2]
  | some key =>
    rw [hkey] at h
    dsimp only at h
    split at h
    · exact (throw_eq_ok.mp h).elim
    · obtain ⟨_, t, ht, h⟩ := bind_eq_ok.mp h
      obtain ⟨candidate, t₁, ht₁, h⟩ := bind_eq_ok.mp h
      obtain ⟨_, u₁, hu₁, ht₁⟩ := bind_eq_ok.mp ht₁
      obtain ⟨_, u₂, hu₂, ht₁⟩ := bind_eq_ok.mp ht₁
      obtain ⟨row, u₃, hu₃, ht₁⟩ := bind_eq_ok.mp ht₁
      obtain ⟨-, rfl⟩ := ofExcept_eq_ok.mp hu₃
      have hstate : t₁.state = s.state := by
        rw [(op.prepareWindow_eq_ok ht₁).1, admitRow_state op.fmt hu₂,
          admitBatchShape_state op.fmt hu₁, (StepBudget.charge_eq_ok ht).1]
      split at h
      · rw [← (pure_eq_ok.mp h).2, hstate]
      · exact (throw_eq_ok.mp h).elim

/-- A step drives some rows of its input. -/
theorem computeWindow_eq_ok {port : Nat} {change : Change (Row Value)} {resume : Resume}
    {output : Option (Change (Row Value))} {progress : Progress} {s s' : Scope JoinState}
    (h : op.computeWindow port change resume s = .ok ⟨output, progress⟩ s') :
    ∃ cursor cursor' n, port < 2 ∧ resume.cursor = .equiJoin cursor ∧
      op.Drives port (change.events.drop resume.ordinal) cursor s.state (outputEvents output)
        (change.events.drop (resume.ordinal + n)) cursor' s'.state ∧
      resume.ordinal + n ≤ change.numRows ∧
      progress = if resume.ordinal + n = change.numRows then .done
        else .more ⟨resume.ordinal + n, .equiJoin cursor'⟩ := by
  unfold computeWindow at h
  obtain ⟨cursor, t, ht, h⟩ := bind_eq_ok.mp h
  obtain ⟨hcursor, rfl⟩ := ofExcept_eq_ok.mp ht
  obtain ⟨hport, hresume, hordinal⟩ := op.cursor_eq_ok hcursor
  obtain ⟨_, t, ht, h⟩ := bind_eq_ok.mp h
  obtain ⟨rfl, rfl⟩ := get_eq_ok.mp ht
  split at h
  · exact (throw_eq_ok.mp h).elim
  · obtain ⟨window, t, ht, h⟩ := bind_eq_ok.mp h
    obtain ⟨hstate, rfl, hadmitted⟩ := op.prepareWindow_eq_ok ht
    set length := min s.budget.headRemaining (change.numRows - resume.ordinal) with hlength
    -- Validating the cursor only charges.
    have hvalidate : ∃ t₁ : Scope JoinState, t₁.state = s.state ∧ (do
        let v ← op.driveWindow port
          (((change.events.drop resume.ordinal).take length).map (op.prepared port))
          ⟨cursor, .empty, resume.ordinal⟩
        let progress := if v.next = change.numRows then Progress.done
          else Progress.more ⟨v.next, .equiJoin v.cursor⟩
        if progress = .more resume then throw EquiJoinError.budget
        else do
          let output ← MonadExcept.ofExcept (v.output.finish op.columns EquiJoinError.change)
          pure (⟨output, progress⟩ : Step (Row Value)) : JoinAttempt (Step (Row Value))) t₁ =
            .ok ⟨output, progress⟩ s' := by
      cases hwindow : ((change.events.drop resume.ordinal).take length).map (op.prepared port) with
      | nil =>
        rw [hwindow] at h
        obtain ⟨_, _, ht₁, _⟩ := bind_eq_ok.mp h
        exact (throw_eq_ok.mp ht₁).elim
      | cons driving rest =>
        rw [hwindow] at h
        obtain ⟨_, t₁, ht₁, h⟩ := bind_eq_ok.mp h
        exact ⟨t₁, by rw [op.validateCursorBinding_state ht₁, hstate], h⟩
    obtain ⟨t₁, hstate₁, h⟩ := hvalidate
    obtain ⟨v, t₂, hdrive, h⟩ := bind_eq_ok.mp h
    generalize hp : (if v.next = change.numRows then Progress.done
      else Progress.more ⟨v.next, .equiJoin v.cursor⟩) = p at h
    split at h
    · exact (throw_eq_ok.mp h).elim
    · obtain ⟨output', t₃, ht₃, h⟩ := bind_eq_ok.mp h
      obtain ⟨hfinish, rfl⟩ := ofExcept_eq_ok.mp ht₃
      obtain ⟨hstep, rfl⟩ := pure_eq_ok.mp h
      cases hstep
      obtain ⟨out, n, hn, hnext, hrows, hdrives⟩ := op.driveWindow_eq_ok
        ((change.events.drop resume.ordinal).drop length) hadmitted hdrive
      have hnumRows : change.numRows = change.events.length := rfl
      have hn' : n ≤ length := by
        refine le_trans hn ?_
        rw [List.length_take]
        omega
      refine ⟨cursor, v.cursor, n, hport, hresume, ?_, by omega, ?_⟩
      · rw [List.take_append_drop, List.drop_drop, hstate₁] at hdrives
        rw [finish_eq_ok hfinish, hrows]
        exact hdrives
      · rw [← hp, hnext]

/-- Pages to the end drive all events of the input. -/
theorem drives_of_pages {Q : Type} {port : Nat} {change : Change (Row Value)} {resume : Resume}
    {s s' : JoinState} {outputs : List (Option (Change (Row Value)))}
    (h : Pages (.paged op.paged : Operation JoinState Q (Row Value)) port change resume s
      outputs s') :
    ∃ cursor cursor', port < 2 ∧ resume.cursor = .equiJoin cursor ∧
      op.Drives port (change.events.drop resume.ordinal) cursor s (outputsEvents outputs) []
        cursor' s' := by
  induction h with
  | last hstep =>
    obtain ⟨b, b', hstep⟩ := hstep
    obtain ⟨cursor, cursor', n, hport, hresume, hdrives, hle, hprogress⟩ :=
      op.computeWindow_eq_ok (adaptExcept_eq_ok.mp hstep)
    split at hprogress
    · next hend =>
      have hnil : change.events.drop (_ + n) = [] := List.drop_eq_nil_of_le (le_of_eq hend.symm)
      rw [hnil] at hdrives
      exact ⟨cursor, cursor', hport, hresume, by simpa using hdrives⟩
    · cases hprogress
  | next hstep _ ih =>
    obtain ⟨b, b', hstep⟩ := hstep
    obtain ⟨cursor, cursor', n, hport, hresume, hdrives, hle, hprogress⟩ :=
      op.computeWindow_eq_ok (adaptExcept_eq_ok.mp hstep)
    split at hprogress
    · cases hprogress
    · cases hprogress
      obtain ⟨cursor₁, cursor₂, -, hresume₁, hdrives₁⟩ := ih
      cases hresume₁
      rw [outputsEvents_cons]
      exact ⟨cursor, cursor₂, hport, hresume, hdrives.trans hdrives₁⟩

end Steps

end EquiJoinOperation

end Dogpaddle.EquiJoin
