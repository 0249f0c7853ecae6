import Dogpaddle.AsOf.Cursor
import Dogpaddle.Relation.Limits

/-!
# Reopening an ordered join

The check of a reopened position prepares its driving row and reads the left row its cursor
names. Rows that were admitted once are prepared again under every allowance that covers them.

* `prepare_budget`: preparing admitted rows fails by the allowance only;
* `validateResume_placed`: so does the check of a placed position;
* `asOf_resumes`: a join accepts the positions it starts from and leaves;
* `asOf_positions`: over a whole run, positions are accepted, move forward and come to an end.
-/

namespace Dogpaddle.AsOf

open Lib Store Dogpaddle.Relation

variable {Ty Value : Type} [DecidableEq Value]

namespace AsOfJoinOperation

variable {op : AsOfJoinOperation Ty Value} {port : Nat} {change : Change (Row Value)}
  {resume : Resume} {s s' : AsOfState}

/-! ## Admitted rows fail by the allowance only -/

/-- The failure of an allowance. -/
def OutOfBudget (e : AsOfJoinError) : Prop := e = .budget

theorem outOfBudget_budget : OutOfBudget budgetExceeded := rfl

theorem fails_decodeError {α : Type} {x : Except RowError α} (h : Fails IsLimit x) :
    Fails OutOfBudget (x.mapError decodeError) := by
  intro e he
  cases x with
  | ok a => cases he
  | error e' =>
    cases he
    obtain ⟨maxBytes, rfl⟩ := h e' rfl
    rfl

theorem outOfBudget_charge (bytes : Nat) (t : Scope AsOfState) :
    Raises OutOfBudget (StepBudget.charge bytes : AsOfAttempt Unit) t :=
  StepBudget.raises_charge outOfBudget_budget bytes t

section Limited

variable (hlimited : op.fmt.Limited)
include hlimited

theorem encodeColumn_budget (field : Relation.Field Ty) {values : List Value}
    (h : ∀ value ∈ values, Encodable op.fmt field value) (rows : List PreparedRow)
    (t : Scope AsOfState) : Raises OutOfBudget (op.encodeColumn field values rows) t := by
  induction values generalizing rows t with
  | nil => exact .pure _
  | cons value values ih =>
    cases rows with
    | nil => exact .pure _
    | cons row rows =>
      obtain ⟨limit, hencode⟩ := h value (by simp)
      refine .bind ?_ fun _ _ _ =>
        .bind (ih (fun v hv => h v (by simp [hv])) _ _) fun _ _ _ => .pure _
      exact .get <| .bind (outOfBudget_charge _ _) fun _ _ _ =>
        .bind (.ofExcept (fails_decodeError (hlimited.encode_fails _ _ _ _ hencode _)))
          fun _ _ _ => .pure _

theorem prepareEqualities_budget {events : List (Row Value × Int)} (index : Nat)
    {pairs : List (BoundPair Ty Value)}
    (h : ∀ e ∈ events, ∀ pair ∈ pairs, ∃ value, (pair.forPort port).expression e.1 = .ok value ∧
      Encodable op.fmt (pair.forPort port).field value)
    (rows : List PreparedRow) (t : Scope AsOfState) :
    Raises OutOfBudget (op.prepareEqualities port events index pairs rows) t := by
  induction pairs generalizing index rows t with
  | nil => exact .pure _
  | cons pair pairs ih =>
    -- every row of the window has a value of this equality
    obtain ⟨column, hcolumn, hencodable⟩ := exists_mapM_eq_ok fun e he => h e he pair (by simp)
    exact .ofExcept_bind (by rw [hcolumn]; rfl) <| .bind (outOfBudget_charge _ _) fun _ _ _ =>
      .bind (encodeColumn_budget hlimited _ hencodable _ _) fun _ _ _ =>
        ih _ (fun e he p hp => h e he p (by simp [hp])) _ _

omit [DecidableEq Value] in
theorem encodeOrder_budget {value : Value} {row : Row Value} {component : Option Bytes}
    (hcomponent : op.orderComponent (op.order.forPort port).field.dataType value = .ok component)
    (hwritable : op.fmt.Writable (op.schema port) row) (prepared : PreparedRow)
    (t : Scope AsOfState) :
    Raises OutOfBudget (op.encodeOrder port (op.order.forPort port).field value row prepared)
      t := by
  refine .bind (outOfBudget_charge _ _) fun _ t₁ _ => .ofExcept_bind hcomponent <| .get ?_
  obtain ⟨hfails, hsize⟩ :=
    RowFormat.canonicalRowSizeBounded_spec hlimited hwritable t₁.budget.remainingBytes
  refine .bind (.ofExcept (fails_decodeError hfails)) fun size t₂ ht₂ => ?_
  obtain ⟨hok, rfl⟩ := ofExcept_eq_ok.mp ht₂
  have hexact := hsize size (mapError_eq_ok.mp hok)
  -- the row is written under exactly its own size
  have hbytes := RowFormat.canonicalRowBounded_ok hlimited hwritable (le_of_eq hexact.symm)
  exact .bind (outOfBudget_charge _ _) fun _ _ _ =>
    .ofExcept_bind (by rw [hbytes]; rfl) (.pure _)

omit [DecidableEq Value] in
theorem encodeOrders_budget {events : List (Row Value × Int)} {column : List Value}
    (hcolumn : List.Forall₂ (fun e value =>
      op.orderComponent (op.order.forPort port).field.dataType value =
        .ok (op.component port e.1)) events column)
    (h : ∀ e ∈ events, op.fmt.Writable (op.schema port) e.1) (rows : List PreparedRow)
    (t : Scope AsOfState) :
    Raises OutOfBudget (op.encodeOrders port (op.order.forPort port).field column events rows)
      t := by
  induction hcolumn generalizing rows t with
  | nil => exact .pure _
  | cons hvalue _ ih =>
    cases rows with
    | nil => exact .pure _
    | cons row rows =>
      exact .bind (encodeOrder_budget hlimited hvalue (h _ (by simp)) _ _) fun _ _ _ =>
        .bind (ih (fun e he => h e (by simp [he])) _ _) fun _ _ _ => .pure _

/-- A window of admitted rows is prepared, or too large. -/
theorem prepare_budget {events : List (Row Value × Int)}
    (h : ∀ e ∈ events, op.Admitted port e.1) (t : Scope AsOfState) :
    Raises OutOfBudget (op.prepare port events) t := by
  have horder : ∃ column, (events.mapM fun e => (op.order.forPort port).expression e.1) =
      .ok column ∧ List.Forall₂ (fun e value =>
        op.orderComponent (op.order.forPort port).field.dataType value =
          .ok (op.component port e.1)) events column := by
    induction events with
    | nil => exact ⟨[], rfl, .nil⟩
    | cons e events ih =>
      obtain ⟨column, hcolumn, hall⟩ := ih fun e' he' => h e' (by simp [he'])
      obtain ⟨value, hvalue, hcomponent⟩ := (h e (by simp)).order
      refine ⟨value :: column, ?_, .cons hcomponent hall⟩
      rw [List.mapM_cons, hvalue, hcolumn]
      rfl
  obtain ⟨column, hcolumn, hall⟩ := horder
  exact .bind (outOfBudget_charge _ _) fun _ _ _ =>
    .bind (prepareEqualities_budget hlimited _ (fun e he => (h e he).equalities) _ _)
      fun _ _ _ => .ofExcept_bind (by rw [hcolumn]; rfl) <|
        .bind (outOfBudget_charge _ _) fun _ _ _ =>
          encodeOrders_budget hlimited hall (fun e he => (h e he).writable) _ _

omit [DecidableEq Value] in
/-- A stored left row is admitted, or too large. -/
theorem admitRow_budget {l : Row Value} (h : op.Admitted 0 l) (t : Scope AsOfState) :
    Raises OutOfBudget (admitRow op.fmt op.leftSchema (op.rowBytes 0 l) : AsOfAttempt Unit) t := by
  have hwritable : op.fmt.Writable op.leftSchema l := h.writable
  exact .get <| .bind (.ofExcept (fails_decodeError
    (RowFormat.decodedSize_fails hlimited hwritable _))) fun _ _ _ => outOfBudget_charge _ _

end Limited

/-! ## Placed positions -/

/-- Reopening accepts a placed position, unless its rows exceed the check's allowance. -/
theorem validateResume_placed (hlimited : op.fmt.Limited)
    (hvalid : op.validateInput port change = .ok ()) (h : op.PlacedAt port change resume s) :
    Fails OutOfBudget (op.validateResume port change resume) := by
  obtain ⟨cursor, hcursor, hplaced⟩ := h.cursor_ok hvalid
  intro e he
  unfold validateResume at he
  rw [hcursor] at he
  dsimp only at he
  split at he
  · cases he
  · next hsome =>
    rcases hplaced with rfl | ⟨rfl, event, tail, hevents, hat⟩
    · exact absurd rfl hsome
    · rw [hevents] at he
      split at he
      · cases he
      · next hcheck =>
        cases he
        have hadmitted : ∀ e ∈ (event :: tail).take 1, op.Admitted 1 e.1 := by
          intro e he
          rw [List.take_succ_cons, List.take_zero, List.mem_singleton] at he
          rw [he]
          exact hat.admitted
        refine Raises.bind (prepare_budget hlimited hadmitted _) (fun window t ht => ?_) _ _
          hcheck
        obtain ⟨-, rfl, -⟩ := op.prepare_eq_ok ht
        exact hat.bound h.filed outOfBudget_budget
          (fun l hl t => admitRow_budget hlimited hl t) t

theorem fails_boxed {x : Except AsOfJoinError Unit} (h : Fails OutOfBudget x) :
    Fails (· = OperationError.budgetExceeded) (x.mapError AsOfJoinError.boxed) := by
  cases x with
  | ok u => exact .of_ok rfl
  | error e =>
    obtain rfl := h e rfl
    exact .error rfl

/-- A join accepts the positions it starts from and leaves, in every filed state. -/
theorem asOf_resumes {Q : Type} (hlimited : op.fmt.Limited) :
    (.paged op.paged : Operation AsOfState Q (Row Value)).Resumes (· = .budgetExceeded) op.Filed
      fun port change => op.validateInput port change = .ok () where
  initial port change hvalid := by
    have hinitial : op.validateResume port change initialResume = .ok () := by
      unfold validateResume
      rw [AsOfJoinOperation.cursor_ok hvalid (rfl : _ = Cursor.asOf freshCursor)
        change.numRows_pos fun _ => rfl]
      rfl
    refine .of_ok (a := ()) ?_
    show (op.validateResume port change initialResume).mapError _ = _
    rw [hinitial]
    rfl
  step := by
    intro port change r s output progress s' hfiled hvalid _ hstep
    obtain ⟨hfiled', hplaced⟩ := step_settles hfiled hstep
    refine ⟨hfiled', fun r' hmore e he => ?_⟩
    exact fails_boxed (validateResume_placed hlimited hvalid (hplaced r' hmore)) e he

/-! ## Whole runs -/

/-- The pages of an input keep a run placed. -/
theorem ahead_placed {r : Resume} {outputs : List (Option (Change (Row Value)))}
    (h : Ahead (.paged op.paged : Operation AsOfState Unit (Row Value)) port change resume s
      outputs r s') (hplaced : op.PlacedAt port change resume s) :
    op.PlacedAt port change r s' := by
  induction h with
  | refl => exact hplaced
  | next hstep _ ih => exact ih ((step_settles hplaced.filed hstep).2 _ rfl)

theorem pages_filed {outputs : List (Option (Change (Row Value)))}
    (h : Pages (.paged op.paged : Operation AsOfState Unit (Row Value)) port change resume s
      outputs s') (hfiled : op.Filed s) : op.Filed s' := by
  induction h with
  | last hstep => exact (step_settles hfiled hstep).1
  | next hstep _ ih => exact ih (step_settles hfiled hstep).1

theorem handlesAll_filed {inputs : List (Nat × Change (Row Value))}
    {outputs : List (Option (Change (Row Value)))}
    (h : HandlesAll (.paged op.paged : Operation AsOfState Unit (Row Value)) s inputs outputs s')
    (hfiled : op.Filed s) : op.Filed s' := by
  induction h with
  | nil => exact hfiled
  | cons hinput _ ih =>
    cases hinput with
    | paged hpages => exact ih (pages_filed hpages hfiled)

end AsOfJoinOperation

open AsOfJoinOperation
open EquiJoin (byteInsert)

variable {op : AsOfJoinOperation Ty Value}

/-- Wherever a run stands, its position is accepted unless the check runs out of its allowance,
no page reports the position, and pages that leave a position move it forward and come to an
end. -/
theorem asOf_positions (hlimited : op.fmt.Limited) {inputs : List (Nat × Change (Row Value))}
    {port : Nat} {change : Change (Row Value)} {resume : Resume}
    {outputs : List (Option (Change (Row Value)))} {s : AsOfState}
    (hvalid : op.validateInput port change = .ok ())
    (h : Reaches op.paged AsOfState.initial inputs port change resume outputs s) :
    (∀ e, op.validateResume port change resume = .error e → e = .budget) ∧
    (∀ budget e t, op.step port change resume ⟨s, budget⟩ = .error e t →
      ∀ reason, e ≠ .invalidResume reason) ∧
    (∀ output r s', Performs (op.paged.step port change resume) s ⟨output, .more r⟩ s' →
      resume.Before r) ∧
    ¬ Endless (.paged op.paged : Operation AsOfState Unit (Row Value)) port change resume s := by
  obtain ⟨s₀, before, pages, -, hhandles, hahead⟩ := h.split
  have hplaced : op.PlacedAt port change resume s :=
    ahead_placed hahead (.initial (handlesAll_filed hhandles filed_initial))
  refine ⟨validateResume_placed hlimited hvalid hplaced, ?_, ?_, ?_⟩
  · intro budget e t herror reason heq
    rw [heq] at herror
    cases step_position hvalid hplaced budget _ _ herror
  · intro output r s' hstep
    exact (step_more hplaced hstep).2.1
  · refine not_endless (op.PlacedAt port change) (leftOver change) ?_ hplaced
    intro r s output r' s' hplaced hstep
    obtain ⟨hplaced', -, hless⟩ := step_more hplaced hstep
    exact ⟨hplaced', hless⟩

/-- Two left rows that a right row is nearest to. -/
def byteWaiting : List (Nat × Change (Row (Option UInt8))) :=
  [byteInsert 0 (some 1) 8 0, byteInsert 0 (some 1) 9 0]

/-- With one item for each page, a right row stands at the first of the two left rows; from
there its pages come to an end. -/
theorem byteAsOf_positions : ∃ outputs resume s,
    Reaches (byteAsOf (.backward true)).paged AsOfState.initial byteWaiting 1
      (byteInsert 1 (some 1) 7 0).2 resume outputs s ∧ resume.ordinal = 0 ∧
    resume.cursor.key.isSome = true ∧
    ¬ Endless (.paged (byteAsOf (.backward true)).paged : Operation AsOfState Unit _) 1
      (byteInsert 1 (some 1) 7 0).2 resume s := by
  have h : ((runInputs (.paged (byteAsOf (.backward true)).paged : Operation AsOfState Unit _)
      ⟨1, 4096⟩ 4 AsOfState.initial byteWaiting).bind fun r =>
        (runPage (.paged (byteAsOf (.backward true)).paged : Operation AsOfState Unit _) ⟨1, 4096⟩ 1
          (byteInsert 1 (some 1) 7 0).2 initialResume r.2).map fun page =>
            (page.2.1.ordinal, page.2.1.cursor.key.isSome)) = some (0, true) := by
    decide +kernel
  obtain ⟨⟨before, s₀⟩, hrun, hrest⟩ := Option.bind_eq_some_iff.mp h
  obtain ⟨⟨output, resume, s⟩, hpage, hcursor⟩ := Option.map_eq_some_iff.mp hrest
  obtain ⟨hordinal, hkey⟩ := Prod.mk.inj hcursor
  have hreaches : Reaches (byteAsOf (.backward true)).paged AsOfState.initial byteWaiting 1
      (byteInsert 1 (some 1) 7 0).2 resume (before ++ [output]) s :=
    ⟨s₀, before, [output], rfl, handlesAll_of_runInputs hrun,
      .next (performs_of_runPage hpage) .refl⟩
  exact ⟨_, resume, s, hreaches, hordinal, hkey,
    (asOf_positions byteFormat_limited rfl hreaches).2.2.2⟩

end Dogpaddle.AsOf
