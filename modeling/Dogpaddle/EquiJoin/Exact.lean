import Dogpaddle.EquiJoin.Faults
import Dogpaddle.EquiJoin.Plain

/-!
# Joins with a residual are incremental

* `driveFirst` cuts a page after some of its rows, so that a statement can speak
  about the state after each event.
* `CountsExact`: the stored counts are the numbers of qualifying rows, and nothing
  else is stored.
* `residualJoin_incremental` puts it together: the outputs add up to the reference
  join, the counts are exact after every event, and no step reports a broken count.
-/

namespace Dogpaddle.EquiJoin

open Lib Store Dogpaddle.Relation

variable {Ty Value : Type} [DecidableEq Value]

namespace EquiJoinOperation

/-- `computeWindow` cut after the first `k` rows of its window. -/
def driveFirst (op : EquiJoinOperation Ty Value) (k : Nat) (port : Nat)
    (change : Change (Row Value)) (resume : Resume) : JoinAttempt (Driving Value) := do
  let cursor ← MonadExcept.ofExcept (op.cursor port change resume)
  let start := resume.ordinal
  let length := min (← get).budget.headRemaining (change.numRows - start)
  if length = 0 then throw .budget
  else do
    let window ← op.prepareWindow port ((change.events.drop start).take length)
    match window with
    | [] => throw .change
    | driving :: _ => op.validateCursorBinding port cursor driving
    op.driveWindow port (window.take k) ⟨cursor, .empty, start⟩

/-- The match counts are exactly the numbers of present opposite rows that join
with the present rows of the tracked ports. -/
structure CountsExact (op : EquiJoinOperation Ty Value)
    (residual : Row Value → Except OperationError (Option Bool)) (s : JoinState)
    (relation : Nat → Bag (Row Value)) : Prop where
  present : ∀ port < 2, op.tracksMatchCount port = true → ∀ r, 0 < relation port r →
    (partners (op.joins residual) port (relation (1 - port)) r).Finite ∧
    s.matchCounts.get? (actualMatchKey port (op.rowBytes port r)) =
      if (partners (op.joins residual) port (relation (1 - port)) r).ncard = 0 then none
      else some (partners (op.joins residual) port (relation (1 - port)) r).ncard
  absent : ∀ key count, s.matchCounts.get? key = some count → ∃ port r, port < 2 ∧
    op.tracksMatchCount port = true ∧ 0 < relation port r ∧
    key = actualMatchKey port (op.rowBytes port r)

variable {op : EquiJoinOperation Ty Value}
  {residual : Row Value → Except OperationError (Option Bool)}
  {relation : Nat → Bag (Row Value)} {port : Nat} {s : JoinState}

theorem Counted.exact (h : op.Counted (op.joins residual) s.matchCounts relation)
    (hrelations : op.Relations s relation) : op.CountsExact residual s relation := by
  refine ⟨fun port hport htracks r hpos => ?_, fun key count hget => ?_⟩
  · have hr := (hrelations.stored hport).admitted hpos
    have hcount := h.count hport hr
    rw [if_pos ⟨htracks, hpos⟩] at hcount
    refine ⟨Stored.partners_finite hport (hrelations.stored (by omega)) hr, ?_⟩
    have hget := get?_eq_of_noZero h.noZero (op.countKey port r)
    rwa [hcount] at hget
  · have hne : countAt s.matchCounts key ≠ 0 := by
      intro hzero
      rw [get?_eq_of_noZero h.noZero, if_pos hzero] at hget
      cases hget
    obtain ⟨port, r, hport, hr, rfl⟩ := h.key hne
    rw [h.count hport hr] at hne
    have hpos : op.kind.tracks port = true ∧ 0 < relation port r := by
      by_contra hnot
      exact hne (if_neg hnot)
    exact ⟨port, r, hport, hpos.1, hpos.2, rfl⟩

/-! ## Positions of a run -/

/-- Driven events keep a run standing. -/
theorem Drives.standing_drop (hresidual : op.residual = some residual) (hport : port < 2)
    {events : List (Row Value × Int)} {n : Nat} {cursor cursor' : JoinCursor} {s' : JoinState}
    {out : List (Row Value × Int)} (hd : ∀ e ∈ events, e.2 ≠ 0)
    (h : op.Drives port events cursor s out (events.drop n) cursor' s')
    (hs : op.Standing residual relation port events cursor s) :
    op.Standing residual (relation + eventsBag ((events.take n).map fun e => (port, e))) port
      (events.drop n) cursor' s' := by
  obtain ⟨m, hdrop, hstanding⟩ := h.standing hresidual hport hd hs
  have htake : events.take n = events.take m := by
    have hsame : events.take n ++ events.drop n = events.take m ++ events.drop n := by
      rw [List.take_append_drop, hdrop, List.take_append_drop]
    exact List.append_cancel_right hsame
  rw [htake]
  exact hstanding

/-- The pages of an input keep a run standing. -/
theorem ahead_standing (hresidual : op.residual = some residual) {change : Change (Row Value)}
    {resume resume' : Resume} {s' : JoinState} {outputs : List (Option (Change (Row Value)))}
    (h : Ahead (.paged op.paged : Operation JoinState Unit (Row Value)) port change resume s
      outputs resume' s')
    (hs : ∀ cursor, resume.cursor = .equiJoin cursor → op.Standing residual
      (relation + eventsBag ((change.events.take resume.ordinal).map fun e => (port, e))) port
      (change.events.drop resume.ordinal) cursor s) :
    ∀ cursor, resume'.cursor = .equiJoin cursor → op.Standing residual
      (relation + eventsBag ((change.events.take resume'.ordinal).map fun e => (port, e))) port
      (change.events.drop resume'.ordinal) cursor s' := by
  induction h with
  | refl => exact hs
  | @next resume r r' s s₁ s₂ output outputs hstep _ ih =>
    refine ih fun cursor hcursor => ?_
    obtain ⟨b, b', hstep⟩ := hstep
    obtain ⟨cursor₀, cursor₁, n, hport, hresume, hdrives, hle, hprogress⟩ :=
      op.computeWindow_eq_ok (adaptExcept_eq_ok.mp hstep)
    split at hprogress
    · cases hprogress
    · cases hprogress
      cases hcursor
      rw [← List.drop_drop] at hdrives
      have hstanding := hdrives.standing_drop hresidual hport
        (fun e he => change.nonzero e (List.mem_of_mem_drop he)) (hs cursor₀ hresume)
      rw [List.drop_drop] at hstanding
      have htake : change.events.take (resume.ordinal + n) =
          change.events.take resume.ordinal ++ (change.events.drop resume.ordinal).take n :=
        List.take_add ..
      rw [htake, List.map_append, eventsBag_append, ← add_assoc]
      exact hstanding

/-- Every position of a run is standing. -/
theorem reaches_standing (hresidual : op.residual = some residual)
    {inputs : List (Nat × Change (Row Value))} {change : Change (Row Value)} {resume : Resume}
    {outputs : List (Option (Change (Row Value)))}
    (h : Reaches op.paged JoinState.initial inputs port change resume outputs s)
    (cursor : JoinCursor) (hcursor : resume.cursor = .equiJoin cursor) :
    op.Standing residual (eventsBag (portEvents inputs ++
      (change.events.take resume.ordinal).map fun e => (port, e))) port
      (change.events.drop resume.ordinal) cursor s := by
  obtain ⟨s₀, before, pages, -, hhandles, hahead⟩ := h.split
  have hinitial : op.Relations JoinState.initial 0 ∧
      op.Counted (op.joins residual) JoinState.initial.matchCounts 0 :=
    ⟨⟨op.stored_initial 0, op.stored_initial 1⟩, counted_initial _⟩
  obtain ⟨⟨hrelations, hcounted⟩, -⟩ :=
    (op.events_of_handlesAll hhandles).counted hresidual hinitial
  rw [zero_add] at hrelations hcounted
  rw [eventsBag_append]
  refine ahead_standing hresidual hahead (fun cursor hcursor => ?_) cursor hcursor
  cases hcursor
  refine ⟨s₀, ?_, ?_, .inl ⟨rfl, rfl⟩⟩
  · simpa [paged, initialResume, eventsBag_nil] using hrelations
  · simpa [paged, initialResume, eventsBag_nil] using hcounted

theorem driveFirst_eq_ok (hresidual : op.residual = some residual) {change : Change (Row Value)}
    {resume : Resume} {k : Nat} {v : Driving Value} {s t : Scope JoinState}
    (h : op.driveFirst k port change resume s = .ok v t)
    (hs : ∀ cursor, resume.cursor = .equiJoin cursor → op.Standing residual
      (relation + eventsBag ((change.events.take resume.ordinal).map fun e => (port, e))) port
      (change.events.drop resume.ordinal) cursor s.state) :
    op.Standing residual
      (relation + eventsBag ((change.events.take v.next).map fun e => (port, e))) port
      (change.events.drop v.next) v.cursor t.state := by
  obtain ⟨cursor, u, hu, h⟩ := bind_eq_ok.mp h
  obtain ⟨hcursor, rfl⟩ := ofExcept_eq_ok.mp hu
  obtain ⟨hport, hresume, -⟩ := op.cursor_eq_ok hcursor
  obtain ⟨_, u, hu, h⟩ := bind_eq_ok.mp h
  obtain ⟨rfl, rfl⟩ := get_eq_ok.mp hu
  split at h
  · exact (throw_eq_ok.mp h).elim
  · obtain ⟨window, u, hu, h⟩ := bind_eq_ok.mp h
    obtain ⟨hstate, rfl, hadmitted⟩ := op.prepareWindow_eq_ok hu
    set length := min s.budget.headRemaining (change.numRows - resume.ordinal)
    have hdrive : ∃ u₁ : Scope JoinState, u₁.state = s.state ∧ op.driveWindow port
        ((((change.events.drop resume.ordinal).take length).map (op.prepared port)).take k)
        ⟨cursor, .empty, resume.ordinal⟩ u₁ = .ok v t := by
      cases hwindow : ((change.events.drop resume.ordinal).take length).map (op.prepared port) with
      | nil =>
        rw [hwindow] at h
        obtain ⟨_, _, hu₁, _⟩ := bind_eq_ok.mp h
        exact (throw_eq_ok.mp hu₁).elim
      | cons driving rest =>
        rw [hwindow] at h
        obtain ⟨_, u₁, hu₁, h⟩ := bind_eq_ok.mp h
        exact ⟨u₁, by rw [op.validateCursorBinding_state hu₁, hstate], h⟩
    obtain ⟨u₁, hstate₁, hdrive⟩ := hdrive
    rw [← List.map_take, List.take_take] at hdrive
    obtain ⟨out, n, -, hnext, -, hdrives⟩ := op.driveWindow_eq_ok
      ((change.events.drop resume.ordinal).drop (min k length))
      (fun e he => hadmitted e (List.take_subset_take_left _ (min_le_right _ _) he)) hdrive
    rw [List.take_append_drop, hstate₁] at hdrives
    have hstanding := hdrives.standing_drop hresidual hport
      (fun e he => change.nonzero e (List.mem_of_mem_drop he)) (hs cursor hresume)
    simp only at hnext
    rw [List.drop_drop, ← hnext] at hstanding
    have htake : change.events.take v.next =
        change.events.take resume.ordinal ++ (change.events.drop resume.ordinal).take n := by
      rw [hnext]
      exact List.take_add ..
    rw [htake, List.map_append, eventsBag_append, ← add_assoc]
    exact hstanding

/-- Outside an event, a standing run is exact. -/
theorem Standing.exact {events : List (Row Value × Int)}
    (h : op.Standing residual relation port events freshCursor s) :
    op.CountsExact residual s relation := by
  obtain ⟨s₀, hrelations, hcounted, ⟨-, rfl⟩ | ⟨event, tail, out, -, -, hpart⟩⟩ := h.start
  · exact hcounted.exact hrelations
  · obtain ⟨_, _, _, key, _, _, _, hkey⟩ := hpart.visited
    cases hkey

theorem not_fault_of_harmless {e : EquiJoinError} (h : Harmless e) :
    e ≠ .matchCountUnderflow ∧ ∀ reason, e ≠ .invalidMatchCount reason := by
  refine ⟨?_, fun reason => ?_⟩ <;> rintro rfl <;> cases h

theorem validateResume_fails (op : EquiJoinOperation Ty Value) (port : Nat)
    (change : Change (Row Value)) (resume : Resume) :
    Fails Harmless (op.validateResume port change resume) := by
  intro e he
  unfold validateResume at he
  cases hcursor : op.cursor port change resume with
  | error e' =>
    rw [hcursor] at he
    cases he
    exact op.cursor_fails _ _ _ e hcursor
  | ok cursor =>
    rw [hcursor] at he
    dsimp only at he
    split at he
    · cases he
    · split at he
      · cases he
      · next hcheck =>
        cases he
        refine Raises.bind ((op.prepareWindow_raises _ _ _).imp fun _ => Ordinary.harmless)
          (fun window t _ => ?_) _ _ hcheck
        cases window with
        | nil => exact .throw rfl
        | cons driving rest => exact op.validateCursorBinding_raises _ _ _ _

end EquiJoinOperation

open EquiJoinOperation

variable {Q : Type}

/-- A join with a residual puts out the bag join of its inputs, its match counts are
exact after every event, and no step or position check reports a broken count. -/
theorem residualJoin_incremental (op : EquiJoinOperation Ty Value)
    {residual : Row Value → Except OperationError (Option Bool)}
    (hresidual : op.residual = some residual) :
    Incremental (.paged op.paged : Operation JoinState Q (Row Value)) 2 JoinState.initial
      (fun inputs => push op.render
        (reference op.kind (op.joins residual) (inputs 0) (inputs 1))) ∧
    ∀ inputs port change resume outputs s,
      Reaches op.paged JoinState.initial inputs port change resume outputs s →
      (∀ k budget v t, op.driveFirst k port change resume ⟨s, budget⟩ = .ok v t →
        v.cursor = ⟨false, none⟩ → op.CountsExact residual t.state (eventsBag (portEvents inputs ++
          (change.events.take v.next).map fun e => (port, e)))) ∧
      (∀ budget e t, op.computeWindow port change resume ⟨s, budget⟩ = .error e t →
        e ≠ .matchCountUnderflow ∧ ∀ reason, e ≠ .invalidMatchCount reason) ∧
      ∀ e, op.validateResume port change resume = .error e →
        e ≠ .matchCountUnderflow ∧ ∀ reason, e ≠ .invalidMatchCount reason := by
  refine ⟨?_, fun inputs port change resume outputs s h => ⟨?_, ?_, ?_⟩⟩
  · intro inputs outputs s h _
    have hinitial : op.Relations JoinState.initial 0 ∧
        op.Counted (op.joins residual) JoinState.initial.matchCounts 0 :=
      ⟨⟨op.stored_initial 0, op.stored_initial 1⟩, counted_initial _⟩
    exact op.outputsBag_of_accounts ((op.events_of_handlesAll h).counted hresidual hinitial).2
  · intro k budget v t hdrive hcursor
    have hstanding := reaches_standing hresidual h
    rw [eventsBag_append] at hstanding ⊢
    have := driveFirst_eq_ok hresidual hdrive hstanding
    rw [hcursor] at this
    exact this.exact
  · intro budget e t herror
    exact not_fault_of_harmless
      (computeWindow_raises hresidual (reaches_standing hresidual h) e t herror)
  · intro e herror
    exact not_fault_of_harmless (op.validateResume_fails port change resume e herror)

/-! ## A left outer join with a residual -/

/-- Accepts pairs whose second columns differ; a `NULL` gives `NULL`. -/
def byteResidual (row : Row (Option UInt8)) : Except OperationError (Option Bool) :=
  match row with
  | [_, some a, _, some b] => .ok (some (a != b))
  | _ => .ok none

/-- Two right rows and a left row that qualifies with one of them only. -/
def byteResidualInputs : List (Nat × Change (Row (Option UInt8))) :=
  [byteInsert 1 (some 1) 5 0, byteInsert 1 (some 1) 8 0, byteInsert 0 (some 1) 5 0,
    byteRetract 1 (some 1) 8 0]

/-- With one item for each page, the left row is driven over two pages and carries
its match; taking the qualifying row back brings the padded row. -/
theorem byteJoin_residual :
    (byteJoin .leftOuter (some byteResidual)).residual = some byteResidual ∧ ∃ outputs s,
      HandlesAll (.paged (byteJoin .leftOuter (some byteResidual)).paged :
        Operation JoinState Unit _) JoinState.initial byteResidualInputs outputs s ∧
      outputsEvents outputs =
        [([some 1, some 5, some 1, some 8], 1), ([some 1, some 5, some 1, some 8], -1),
          ([some 1, some 5, none, none], 1)] ∧
      outputsBag outputs = push (byteJoin .leftOuter (some byteResidual)).render
        (reference .leftOuter ((byteJoin .leftOuter (some byteResidual)).joins byteResidual)
          (inputsBag byteResidualInputs 0) (inputsBag byteResidualInputs 1)) := by
  have h : (runInputs (.paged (byteJoin .leftOuter (some byteResidual)).paged :
      Operation JoinState Unit _) ⟨1, 4096⟩ 4 JoinState.initial byteResidualInputs).map
        (fun r => outputsEvents r.1) =
        some [([some 1, some 5, some 1, some 8], 1), ([some 1, some 5, some 1, some 8], -1),
          ([some 1, some 5, none, none], 1)] := by
    decide +kernel
  obtain ⟨⟨outputs, s⟩, hrun, hevents⟩ := Option.map_eq_some_iff.mp h
  have hhandles := handlesAll_of_runInputs hrun
  exact ⟨rfl, outputs, s, hhandles, hevents,
    (residualJoin_incremental _ rfl).1 _ _ _ hhandles (by decide)⟩

end Dogpaddle.EquiJoin
