import Dogpaddle.EquiJoin.Cursor
import Dogpaddle.EquiJoin.Exact
import Dogpaddle.Relation.Limits

/-!
# Reopening an equality join

The check of a reopened position prepares its driving row and the candidate its cursor names.
Rows that were admitted once are prepared again under every allowance that covers them.

* `prepareWindow_budget`, `candidate_budget`: preparing fails by the allowance only;
* `validateResume_placed`: so does the check of a placed position;
* `join_resumes`: a join accepts the positions it starts from and leaves;
* `join_positions`: over a whole run, positions are accepted, move forward and come to an end.
-/

namespace Dogpaddle.EquiJoin

open Lib Store Dogpaddle.Relation

variable {Ty Value : Type} [DecidableEq Value]

namespace EquiJoinOperation

variable {op : EquiJoinOperation Ty Value} {port : Nat} {event : Row Value × Int}
  {change : Change (Row Value)} {resume : Resume} {s s' : JoinState} {cursor : JoinCursor}

/-! ## Admitted rows fail by the allowance only -/

/-- The failure of an allowance. -/
def OutOfBudget (e : EquiJoinError) : Prop := e = .budget

theorem outOfBudget_decodeError {e : RowError} (h : IsLimit e) :
    OutOfBudget (decodeError e) := by
  obtain ⟨maxBytes, rfl⟩ := h
  rfl

omit [DecidableEq Value] in
theorem fails_mapError {α : Type} {x : Except RowError α} (h : Fails IsLimit x) :
    Fails OutOfBudget (x.mapError decodeError) := by
  intro e he
  cases x with
  | ok a => cases he
  | error e' =>
    cases he
    exact outOfBudget_decodeError (h e' rfl)

theorem outOfBudget_charge (bytes : Nat) (t : Scope JoinState) :
    Raises OutOfBudget (StepBudget.charge bytes : JoinAttempt Unit) t :=
  have hbudget : OutOfBudget budgetExceeded := rfl
  StepBudget.raises_charge hbudget bytes t

section Limited

variable (hlimited : op.fmt.Limited)
include hlimited

theorem encodeColumn_budget (field : Relation.Field Ty) {values : List Value}
    (h : ∀ value ∈ values, Encodable op.fmt field value) (rows : List PreparedRow)
    (t : Scope JoinState) : Raises OutOfBudget (op.encodeColumn field values rows) t := by
  induction values generalizing rows t with
  | nil => exact .pure _
  | cons value values ih =>
    cases rows with
    | nil => exact .pure _
    | cons row rows =>
      obtain ⟨limit, hencode⟩ := h value (by simp)
      refine .bind ?_ fun _ _ _ =>
        .bind (ih (fun v hv => h v (by simp [hv])) _ _) fun _ _ _ => .pure _
      exact .get <| .bind (outOfBudget_charge _ _) fun _ _ _ =>
        .bind (.ofExcept (fails_mapError (hlimited.encode_fails _ _ _ _ hencode _)))
          fun _ _ _ => .pure _

theorem prepareKeys_budget {port : Nat} {events : List (Row Value × Int)}
    (key : Nat) {pairs : List (BoundKeyPair Ty Value)}
    (h : ∀ e ∈ events, ∀ pair ∈ pairs, ∃ value, (pair.forPort port).expression e.1 = .ok value ∧
      Encodable op.fmt (pair.forPort port).field value)
    (rows : List PreparedRow) (t : Scope JoinState) :
    Raises OutOfBudget (op.prepareKeys port events key pairs rows) t := by
  induction pairs generalizing key rows t with
  | nil => exact .pure _
  | cons pair pairs ih =>
    -- every row of the window has a value of this key
    obtain ⟨column, hcolumn, hencodable⟩ := exists_mapM_eq_ok fun e he => h e he pair (by simp)
    exact .ofExcept_bind (by rw [hcolumn]; rfl) <| .bind (outOfBudget_charge _ _) fun _ _ _ =>
      .bind (encodeColumn_budget hlimited _ hencodable _ _) fun _ _ _ =>
        ih _ (fun e he p hp => h e he p (by simp [hp])) _ _

omit [DecidableEq Value] in
theorem encodeRows_budget {port : Nat} {events : List (Row Value × Int)}
    (h : ∀ e ∈ events, op.fmt.Writable (op.schema port) e.1) (rows : List PreparedRow)
    (t : Scope JoinState) : Raises OutOfBudget (op.encodeRows port events rows) t := by
  induction events generalizing rows t with
  | nil => exact .pure _
  | cons event events ih =>
    cases rows with
    | nil => exact .pure _
    | cons row rows =>
      have hwritable := h event (by simp)
      obtain ⟨hfails, hsize⟩ :=
        RowFormat.canonicalRowSizeBounded_spec hlimited hwritable t.budget.remainingBytes
      refine .get <| .bind (.ofExcept (fails_mapError hfails)) fun size t₁ ht₁ => ?_
      obtain ⟨hok, rfl⟩ := ofExcept_eq_ok.mp ht₁
      have hexact := hsize size (mapError_eq_ok.mp hok)
      -- the row is written under exactly its own size
      have hbytes := RowFormat.canonicalRowBounded_ok hlimited hwritable (le_of_eq hexact.symm)
      refine .bind (outOfBudget_charge _ _) fun _ _ _ =>
        .ofExcept_bind (by rw [hbytes]; rfl) <|
          .bind (ih (fun e he => h e (by simp [he])) _ _) fun _ _ _ => .pure _

/-- A window of admitted rows is prepared, or too large. -/
theorem prepareWindow_budget {port : Nat} {events : List (Row Value × Int)}
    (h : ∀ e ∈ events, op.Admitted port e.1) (t : Scope JoinState) :
    Raises OutOfBudget (op.prepareWindow port events) t :=
  .bind (outOfBudget_charge _ _) fun _ _ _ =>
    .bind (prepareKeys_budget hlimited _ (fun e he => (h e he).keys) _ _) fun _ _ _ =>
      encodeRows_budget hlimited (fun e he => (h e he).writable) _ _

/-- A stored row is read back, or too large. -/
theorem candidate_budget {r : Row Value} (h : op.Admitted (1 - port) r) (t : Scope JoinState) :
    Raises OutOfBudget (op.candidate port (op.rowBytes (1 - port) r)) t := by
  have hbudget : OutOfBudget budgetExceeded := rfl
  refine .bind (raises_admitBatchShape op.fmt hbudget _ _) fun _ _ _ => .bind (.get <|
    .bind (.ofExcept (fails_mapError
      (RowFormat.decodedSize_fails hlimited h.writable _))) fun _ _ _ => outOfBudget_charge _ _)
    fun _ _ _ => .ofExcept_bind (by rw [rowBytes, h.decodes]; rfl) <|
      prepareWindow_budget hlimited (fun e he => ?_) _
  rw [List.mem_singleton] at he
  rw [he]
  exact h

end Limited

/-! ## Placed positions -/

/-- Reopening accepts a placed position, unless its rows exceed the check's allowance. -/
theorem validateResume_placed (hlimited : op.fmt.Limited)
    (hvalid : op.validateInput port change = .ok ()) (h : op.PlacedAt port change resume s) :
    Fails OutOfBudget (op.validateResume port change resume) := by
  have hport := validateInput_eq_ok hvalid
  obtain ⟨cursor, hcursor, hplaced⟩ := h.cursor_ok hvalid
  intro e he
  unfold validateResume at he
  rw [hcursor] at he
  dsimp only at he
  split at he
  · cases he
  · next hsome =>
    rcases hplaced with rfl | ⟨event, tail, hevents, hat⟩
    · exact absurd rfl hsome
    · rw [hevents] at he
      split at he
      · cases he
      · next hcheck =>
        cases he
        have hadmitted : ∀ e ∈ (event :: tail).take 1, op.Admitted port e.1 := by
          intro e he
          rw [List.take_succ_cons, List.take_zero, List.mem_singleton] at he
          rw [he]
          exact hat.admitted
        have hbudget : OutOfBudget .budget := rfl
        refine Raises.bind (prepareWindow_budget hlimited hadmitted _)
          (fun window t ht => ?_) _ _ hcheck
        obtain ⟨-, rfl, -⟩ := op.prepareWindow_eq_ok ht
        exact hat.bound hport h.filed hbudget (fun r hr t => candidate_budget hlimited hr t) t

theorem fails_boxed {x : Except EquiJoinError Unit} (h : Fails OutOfBudget x) :
    Fails (· = OperationError.budgetExceeded) (x.mapError EquiJoinError.boxed) := by
  cases x with
  | ok u => exact .of_ok rfl
  | error e =>
    obtain rfl := h e rfl
    exact .error rfl

/-- A join accepts the positions it starts from and leaves, in every filed state. -/
theorem join_resumes {Q : Type} (hlimited : op.fmt.Limited) :
    (.paged op.paged : Operation JoinState Q (Row Value)).Resumes (· = .budgetExceeded) op.Filed
      fun port change => op.validateInput port change = .ok () where
  initial port change hvalid := by
    have hinitial : op.validateResume port change initialResume = .ok () := by
      unfold validateResume
      rw [EquiJoinOperation.cursor_ok hvalid (rfl : _ = Cursor.equiJoin freshCursor)
        change.numRows_pos fun hfound => by cases hfound]
      rfl
    refine .of_ok (a := ()) ?_
    show (op.validateResume port change initialResume).mapError _ = _
    rw [hinitial]
    rfl
  step := by
    intro port change r s output progress s' hfiled hvalid _ hstep
    obtain ⟨hfiled', hplaced⟩ := computeWindow_settles hfiled hstep
    refine ⟨hfiled', fun r' hmore e he => ?_⟩
    exact fails_boxed (validateResume_placed hlimited hvalid (hplaced r' hmore)) e he

/-! ## Whole runs -/

/-- The pages of an input keep a run placed. -/
theorem ahead_placed {r : Resume} {outputs : List (Option (Change (Row Value)))}
    (h : Ahead (.paged op.paged : Operation JoinState Unit (Row Value)) port change resume s
      outputs r s') (hplaced : op.PlacedAt port change resume s) :
    op.PlacedAt port change r s' := by
  induction h with
  | refl => exact hplaced
  | next hstep _ ih => exact ih ((computeWindow_settles hplaced.filed hstep).2 _ rfl)

theorem pages_filed {outputs : List (Option (Change (Row Value)))}
    (h : Pages (.paged op.paged : Operation JoinState Unit (Row Value)) port change resume s
      outputs s') (hfiled : op.Filed s) : op.Filed s' := by
  induction h with
  | last hstep => exact (computeWindow_settles hfiled hstep).1
  | next hstep _ ih => exact ih (computeWindow_settles hfiled hstep).1

theorem handlesAll_filed {inputs : List (Nat × Change (Row Value))}
    {outputs : List (Option (Change (Row Value)))}
    (h : HandlesAll (.paged op.paged : Operation JoinState Unit (Row Value)) s inputs outputs s')
    (hfiled : op.Filed s) : op.Filed s' := by
  induction h with
  | nil => exact hfiled
  | cons hinput _ ih =>
    cases hinput with
    | paged hpages => exact ih (pages_filed hpages hfiled)

end EquiJoinOperation

open EquiJoinOperation

variable {op : EquiJoinOperation Ty Value}

/-- Wherever a run stands, its position is accepted unless the check runs out of its allowance,
no page reports the position, and pages that leave a position move it forward and come to an
end. -/
theorem join_positions (hlimited : op.fmt.Limited) {inputs : List (Nat × Change (Row Value))}
    {port : Nat} {change : Change (Row Value)} {resume : Resume}
    {outputs : List (Option (Change (Row Value)))} {s : JoinState}
    (hvalid : op.validateInput port change = .ok ())
    (h : Reaches op.paged JoinState.initial inputs port change resume outputs s) :
    (∀ e, op.validateResume port change resume = .error e → e = .budget) ∧
    (∀ budget e t, op.computeWindow port change resume ⟨s, budget⟩ = .error e t →
      ∀ reason, e ≠ .invalidResume reason) ∧
    (∀ output r s', Performs (op.paged.step port change resume) s ⟨output, .more r⟩ s' →
      resume.Before r) ∧
    ¬ Endless (.paged op.paged : Operation JoinState Unit (Row Value)) port change resume s := by
  obtain ⟨s₀, before, pages, -, hhandles, hahead⟩ := h.split
  have hplaced : op.PlacedAt port change resume s :=
    ahead_placed hahead (.initial (handlesAll_filed hhandles filed_initial))
  refine ⟨validateResume_placed hlimited hvalid hplaced, fun budget e t herror reason => ?_,
    fun output r s' hstep => (computeWindow_more hplaced hstep).2.1, ?_⟩
  · rintro rfl
    cases computeWindow_position hvalid hplaced budget _ _ herror
  · refine not_endless (op.PlacedAt port change) (op.leftOver port change)
      (fun r s output r' s' hplaced hstep => ?_) hplaced
    obtain ⟨hplaced', -, hless⟩ := computeWindow_more hplaced hstep
    exact ⟨hplaced', hless⟩

/-- Two right rows that a left row can match. -/
def byteCandidates : List (Nat × Change (Row (Option UInt8))) :=
  [byteInsert 1 (some 1) 5 0, byteInsert 1 (some 1) 8 0]

/-- With one item for each page, a left row stands at the first of its two candidates; from
there its pages come to an end. -/
theorem byteJoin_positions : ∃ outputs resume s,
    Reaches (byteJoin .leftOuter (some byteResidual)).paged JoinState.initial byteCandidates 0
      (byteInsert 0 (some 1) 5 0).2 resume outputs s ∧ resume.ordinal = 0 ∧
    resume.cursor.key.isSome = true ∧
    ¬ Endless (.paged (byteJoin .leftOuter (some byteResidual)).paged :
      Operation JoinState Unit _) 0 (byteInsert 0 (some 1) 5 0).2 resume s := by
  have h : ((runInputs (.paged (byteJoin .leftOuter (some byteResidual)).paged :
      Operation JoinState Unit _) ⟨1, 4096⟩ 4 JoinState.initial byteCandidates).bind fun r =>
        (runPage (.paged (byteJoin .leftOuter (some byteResidual)).paged :
          Operation JoinState Unit _) ⟨1, 4096⟩ 0 (byteInsert 0 (some 1) 5 0).2 initialResume
            r.2).map fun page =>
              (page.2.1.ordinal, page.2.1.cursor.key.isSome)) = some (0, true) := by
    decide +kernel
  obtain ⟨⟨before, s₀⟩, hrun, hrest⟩ := Option.bind_eq_some_iff.mp h
  obtain ⟨⟨output, resume, s⟩, hpage, hcursor⟩ := Option.map_eq_some_iff.mp hrest
  obtain ⟨hordinal, hkey⟩ := Prod.mk.inj hcursor
  have hreaches : Reaches (byteJoin .leftOuter (some byteResidual)).paged JoinState.initial
      byteCandidates 0 (byteInsert 0 (some 1) 5 0).2 resume (before ++ [output]) s :=
    ⟨s₀, before, [output], rfl, handlesAll_of_runInputs hrun,
      .next (performs_of_runPage hpage) .refl⟩
  exact ⟨_, resume, s, hreaches, hordinal, hkey,
    (join_positions byteFormat_limited rfl hreaches).2.2.2⟩

end Dogpaddle.EquiJoin
