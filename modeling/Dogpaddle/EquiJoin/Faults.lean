import Dogpaddle.EquiJoin.Failures
import Dogpaddle.EquiJoin.Residual

/-!
# Match counts never fail

While the counts of a join with a residual are exact, no step reports an
underflow or an invalid count, also in the middle of an event.

* `Midway` describes an event after some of its pages: the visited rows are cut in
  two, and the counts have moved by the first part.
* `settleCounts_fails` checks one more page against it.
* `Standing` is the invariant of a run between two pages; `computeWindow_raises`
  and `Drives.standing` are its two uses.
-/

namespace Dogpaddle.EquiJoin

open Lib Store Dogpaddle.Relation

/-- Errors that say nothing against the match counts. -/
def Harmless (e : EquiJoinError) : Prop := e.countFault = false

theorem Ordinary.harmless {e : EquiJoinError} (h : Ordinary e) : Harmless e := h.1

variable {Ty Value : Type}

namespace EquiJoinOperation

/-! ## Everything around the counts -/

section Surroundings

variable [DecidableEq Value] (op : EquiJoinOperation Ty Value)

theorem validateCursorBinding_raises (port : Nat) (cursor : JoinCursor) (driving : PreparedRow)
    (s : Scope JoinState) : Raises Harmless (op.validateCursorBinding port cursor driving) s := by
  unfold validateCursorBinding
  cases cursor.resumeAfter with
  | none => exact .pure _
  | some key =>
    exact .ite (fun _ => .throw rfl) fun _ =>
      .bind ((ordinary_charge _ _).imp fun _ => Ordinary.harmless) fun _ _ _ =>
        .bind ((op.candidate_raises _ _ _).imp fun _ => Ordinary.harmless) fun _ _ _ =>
          .ite (fun _ => .pure _) fun _ => .throw rfl

omit [DecidableEq Value] in
theorem cursor_fails (port : Nat) (change : Change (Row Value)) (resume : Resume) :
    Fails Harmless (op.cursor port change resume) := by
  unfold EquiJoinOperation.cursor validateInput
  intro e he
  by_cases hport : port ≥ 2
  · rw [if_pos hport] at he
    cases he
    rfl
  · rw [if_neg hport] at he
    by_cases hbound : ¬ op.bound port change = true
    · rw [if_pos hbound] at he
      cases he
      rfl
    · rw [if_neg hbound] at he
      cases hc : resume.cursor with
      | equiJoin c =>
        simp only [hc] at he
        split at he <;> cases he
        rfl
      | batch => simp only [hc] at he; cases he; rfl
      | asOf c => simp only [hc] at he; cases he; rfl

end Surroundings

/-! ## Checked counts -/

section Counts

variable (op : EquiJoinOperation Ty Value)

theorem hasMatchCounts_of_tracks {port : Nat} (hresidual : op.residual.isSome = true)
    (h : op.kind.tracks port = true) : op.hasMatchCounts = true := by
  unfold hasMatchCounts
  rw [hresidual, Bool.and_true, bne_iff_ne]
  exact not_inner_of_tracks h

theorem actualMatchCount_ok {c : OrdMap Bytes Nat} (hc : NoZero c) (port : Nat) (row : Bytes) :
    actualMatchCount c port row = .ok (countAt c (actualMatchKey port row)) :=
  actualMatchCount_eq_ok.mpr ⟨hc _, rfl⟩

theorem adjust_fails {c : OrdMap Bytes Nat} {port : Nat} {row : Bytes}
    {transition : KeyTransition} {amount : Nat} (hc : NoZero c)
    (h : transition = .last → amount ≤ countAt c (actualMatchKey port row)) :
    Fails Harmless (adjustActualMatchCount c port row transition amount) := by
  intro e he
  unfold adjustActualMatchCount at he
  rw [actualMatchCount_ok hc] at he
  cases transition with
  | none => cases he
  | first =>
    simp only [adjustMatchCount] at he
    split at he
    · next hadjust =>
      split at hadjust <;> cases hadjust
      cases he
      rfl
    · cases he
  | last =>
    simp only [adjustMatchCount, if_pos (h rfl)] at he
    cases he

theorem adjustOwn_fails {port : Nat} {input : PreparedRow} {effect : RowEffect} {q : Nat}
    {c : OrdMap Bytes Nat} (hresidual : op.residual.isSome = true) (hc : NoZero c)
    (h : op.kind.tracks port = true → effect.transition = .last →
      q ≤ countAt c (actualMatchKey port input.row)) :
    Fails Harmless (op.adjustOwn port input effect q c) := by
  unfold adjustOwn
  split
  · next ht =>
    rw [op.countsAccess_eq_ok.mpr ⟨op.hasMatchCounts_of_tracks hresidual ht.1, rfl⟩]
    exact .map (adjust_fails hc (h ht.1))
  · exact fun e he => by cases he

theorem adjustOpposite_fails {port : Nat} {effect : RowEffect} {m : PreparedMatch}
    {c : OrdMap Bytes Nat} (hresidual : op.residual.isSome = true) (hc : NoZero c)
    (h : op.kind.tracks (1 - port) = true → effect.transition = .last →
      1 ≤ countAt c (actualMatchKey (1 - port) m.row)) :
    Fails Harmless (op.adjustOpposite port effect m c) := by
  unfold adjustOpposite
  split
  · next ht =>
    rw [op.countsAccess_eq_ok.mpr ⟨op.hasMatchCounts_of_tracks hresidual ht.1, rfl⟩]
    exact .map (adjust_fails hc (h ht.1))
  · exact fun e he => by cases he

/-- Rows without duplicates are adjusted one after another; no adjustment takes
from the count of a later one. -/
theorem adjustMatches_fails {port : Nat} (hport : port < 2) {effect : RowEffect}
    {ms : List PreparedMatch} {c : OrdMap Bytes Nat} (hresidual : op.residual.isSome = true)
    (hc : NoZero c) (hnodup : (ms.map (·.row)).Nodup)
    (h : ∀ m ∈ ms, op.kind.tracks (1 - port) = true → effect.transition = .last →
      1 ≤ countAt c (actualMatchKey (1 - port) m.row)) :
    Fails Harmless (op.adjustMatches port effect ms c) := by
  have hq : 1 - port < 2 := by omega
  induction ms generalizing c with
  | nil => exact fun e he => by cases he
  | cons m ms ih =>
    rw [List.map_cons, List.nodup_cons] at hnodup
    simp only [adjustMatches]
    cases hm : op.adjustOpposite port effect m c with
    | error e =>
      intro e' he
      cases he
      exact op.adjustOpposite_fails hresidual hc (h m (by simp)) e hm
    | ok r =>
      obtain ⟨c₁, m'⟩ := r
      obtain ⟨hc₁, hcount, -⟩ := op.adjustOpposite_countAt hc hm
      refine .map (ih hc₁ hnodup.2 fun m₂ hm₂ htracks hlast => ?_)
      rw [hcount, if_neg]
      · exact h m₂ (by simp [hm₂]) htracks hlast
      · rintro ⟨-, heq⟩
        have hrow := ((actualMatchKey_inj hq hq).mp heq).2
        exact hnodup.1 (List.mem_map.mpr ⟨m₂, hm₂, hrow⟩)

theorem validateCurrentMatchCount_fails {port : Nat} {input : PreparedRow} {effect : RowEffect}
    {foundMatch : Bool} {c : OrdMap Bytes Nat} (hresidual : op.residual.isSome = true)
    (hc : NoZero c)
    (hlast : op.kind.tracks port = true → effect.transition = .last →
      countAt c (actualMatchKey port input.row) = 0)
    (hother : op.kind.tracks port = true → effect.transition ≠ .last →
      (foundMatch = true ↔ 0 < countAt c (actualMatchKey port input.row))) :
    op.validateCurrentMatchCount port input effect foundMatch c = .ok () := by
  unfold validateCurrentMatchCount
  rw [tracksMatchCount_eq]
  by_cases ht : op.kind.tracks port = true
  · rw [if_neg (by simpa using ht),
      op.countsAccess_eq_ok.mpr ⟨op.hasMatchCounts_of_tracks hresidual ht, rfl⟩]
    dsimp only
    rw [actualMatchCount_ok hc]
    dsimp only
    have hfound : effect.transition ≠ .last →
        (decide (countAt c (actualMatchKey port input.row) > 0) == foundMatch) = true := by
      intro hne
      rw [beq_iff_eq, Bool.eq_iff_iff, hother ht hne, decide_eq_true_iff]
    cases heffect : effect.transition with
    | last => simp [hlast ht heffect]
    | first => rw [if_pos (hfound (by rw [heffect]; decide))]
    | none => rw [if_pos (hfound (by rw [heffect]; decide))]
  · rw [if_pos (by simpa using ht)]

theorem carriedMatch_fails {port : Nat} {row : PreparedRow}
    {effect : RowEffect} {cursor : JoinCursor} {c : OrdMap Bytes Nat}
    (hresidual : op.residual.isSome = true) (hc : NoZero c) :
    Fails Harmless (op.carriedMatch port row effect cursor c) := by
  intro e he
  unfold carriedMatch at he
  split at he
  · next hstable =>
    split at he
    · cases he
      rfl
    · unfold stableLeftOnlyFoundMatch at he
      split at he
      · cases he
      · have hleft : op.hasMatchCounts = true := by
          unfold hasMatchCounts
          rw [hresidual, Bool.and_true, bne_iff_ne]
          intro hinner
          rw [hinner] at hstable
          cases hstable.1
        rw [if_neg (by simpa using hleft), actualMatchCount_ok hc] at he
        cases he
  · cases he

end Counts

/-! ## The middle of an event -/

section Midway

variable [DecidableEq Value] {op : EquiJoinOperation Ty Value}
  {residual : Row Value → Except OperationError (Option Bool)}
  {relation : Nat → Bag (Row Value)} {s₀ s : JoinState} {port : Nat} {x : Row Value} {d : Int}
  {effect : RowEffect} {after : Nat} {cursor : JoinCursor} {rows : List (Row Value × ℕ+)}

/-- An event that started at `s₀` and has visited the rows `before`; `rest` are
left. -/
structure Midway (op : EquiJoinOperation Ty Value)
    (residual : Row Value → Except OperationError (Option Bool)) (s₀ s : JoinState) (port : Nat)
    (x : Row Value) (d : Int) (effect : RowEffect) (cursor : JoinCursor)
    (rows before rest : List (Row Value × ℕ+)) : Prop where
  sameRows : s.leftRows = s₀.leftRows ∧ s.rightRows = s₀.rightRows
  visited : op.visitedRows residual port x effect rows = before ++ rest
  noZero : NoZero s.matchCounts
  count : ∀ {p r}, p < 2 → op.Admitted p r → countAt s.matchCounts (op.countKey p r) =
    op.settledCount port x effect before p r (countAt s₀.matchCounts (op.countKey p r))
  candidates : (op.candidates s port (op.prepared port (x, d)) effect cursor.resumeAfter).filter
      (fun e => op.qualifies residual port (op.prepared port (x, d)).row e.1) =
    rest.map fun e => (op.rowBytes (1 - port) e.1, e.2)
  carried : ∀ {carried}, op.kind.tracks port = true →
    op.carriedMatch port (op.prepared port (x, d)) effect cursor s.matchCounts = .ok carried →
    ((carried || rest.length != 0) = true ↔ op.joinedRows residual port x rows ≠ [])

theorem settledCount_nil (p : Nat) (r : Row Value) (n : Nat) :
    op.settledCount port x effect [] p r n = n := by
  unfold settledCount
  cases effect.transition <;> simp [KeyTransition.shift]

/-- Before its first page, all visited rows of an event are left. -/
theorem midway_fresh (hresidual : op.residual = some residual) (hrelations : op.Relations s relation)
    (hcounted : op.Counted (op.joins residual) s.matchCounts relation) (hport : port < 2)
    (hx : op.Admitted port x) (hd : d ≠ 0)
    (heffect : op.eventEffect (op.prepared port (x, d)) (s.rows port (op.rowKey port x)) =
      .ok (effect, after))
    (hrows : op.PartitionRows s port (relation (1 - port)) x rows) :
    op.Midway residual s s port x d effect freshCursor rows []
      (op.visitedRows residual port x effect rows) := by
  obtain ⟨-, htransition⟩ := residual_transition hresidual (hrelations.stored hport) hx hd heffect
  refine ⟨⟨rfl, rfl⟩, rfl, hcounted.noZero, fun _ _ => (settledCount_nil _ _ _).symm,
    hrows.qualified effect hresidual hx, fun htracks hcarried => ?_⟩
  exact foundMatch_iff hcounted hrelations hport hx htracks (present_of_stable htransition) hrows
    hcarried

/-- After some pages of an event, the visited rows are cut at the cursor. -/
theorem midway_partial (hresidual : op.residual = some residual)
    (hcounted : op.Counted (op.joins residual) s₀.matchCounts relation) (hport : port < 2)
    (hx : op.Admitted port x)
    (heffect : op.eventEffect (op.prepared port (x, d)) (s₀.rows port (op.rowKey port x)) =
      .ok (effect, after))
    (hrows : op.PartitionRows s₀ port (relation (1 - port)) x rows) {out : List (Row Value × Int)}
    (h : op.Partial port (op.prepared port (x, d)) s₀ freshCursor out s cursor) :
    ∃ before rest, op.Midway residual s₀ s port x d effect cursor rows before rest := by
  obtain ⟨effect', after', entries, key, heffect', ⟨-, hrest, hpage⟩, hvisit, hkey⟩ := h.visited
  have hpkey : (op.prepared port (x, d)).key = op.rowKey port x := by
    rw [op.prepared_eq (x, d) hx]
  rw [hpkey, heffect] at heffect'
  cases heffect'
  have hsome : op.residual.isSome = true := by rw [hresidual]; rfl
  have hscans := op.scans_of_candidates hrest
  obtain ⟨hscans', hsame⟩ := op.candidates_congr hvisit.rows port (op.prepared port (x, d)) effect
  have hjoined : op.visitedRows residual port x effect rows =
      op.joinedRows residual port x rows := by
    unfold scans at hscans
    rw [if_pos hsome, decide_eq_true_eq] at hscans
    exact if_neg fun hstable => hscans (.inr hstable)
  -- The cut of the candidates is a cut of the visited rows.
  have hcut := hrows.qualified (d := d) effect hresidual hx
  rw [show op.candidates s₀ port (op.prepared port (x, d)) effect none =
    entries ++ op.candidates s₀ port (op.prepared port (x, d)) effect (some key) from hpage,
    List.filter_append] at hcut
  obtain ⟨before, rest, hvisited, hbefore, hafter⟩ := List.map_eq_append_iff.mp hcut.symm
  have hsub : before.Sublist (op.joinedRows residual port x rows) := by
    rw [← hjoined, hvisited]
    exact List.sublist_append_left _ _
  have hadmitted : ∀ e ∈ before, op.Admitted (1 - port) e.1 := fun e he =>
    (hrows.row e ((PartitionRows.joined_sublist op residual port x rows).subset
      (hsub.subset he))).1
  generalize hfound : cursor.foundMatch = found at hvisit
  cases hvisit with
  | plain hplain => rw [hresidual] at hplain; cases hplain
  | @residual residual' carried qualified counts matchRows hresidual' hcarried hqualified hsettle
      hout =>
    obtain rfl : residual' = residual := Option.some.inj (hresidual'.symm.trans hresidual)
    rw [op.carriedMatch_of_scans hsome hscans] at hcarried
    cases hcarried
    rw [← hbefore] at hqualified
    rw [hqualified, List.length_map] at hsettle hfound
    obtain ⟨hc', hcount, -, -⟩ := settled_counts hport hx hadmitted
      ((hrows.joined_nodup residual').sublist (hsub.map _)) hcounted.noZero hsettle
    refine ⟨before, rest, ⟨rfl, rfl⟩, hvisited, hc', hcount, ?_, fun _ hcarried => ?_⟩
    · rw [hkey, hsame, hafter]
    · rw [op.carriedMatch_of_scans hsome (hscans'.trans hscans), hfound] at hcarried
      cases hcarried
      rw [← hjoined, hvisited]
      simp only [freshCursor]
      cases before <;> cases rest <;> simp

/-- A row of the page still counts the driving row. -/
theorem Midway.supports (hrelations : op.Relations s₀ relation)
    (hcounted : op.Counted (op.joins residual) s₀.matchCounts relation) (hport : port < 2)
    (hx : op.Admitted port x) (hrows : op.PartitionRows s₀ port (relation (1 - port)) x rows)
    {before page rest : List (Row Value × ℕ+)}
    (h : op.Midway residual s₀ s port x d effect cursor rows before (page ++ rest))
    (htracks : op.kind.tracks (1 - port) = true) (hpresent : 0 < relation port x)
    (hnodup : ((before ++ (page ++ rest)).map (·.1)).Nodup) {e : Row Value × ℕ+} (he : e ∈ page)
    {c₁ : OrdMap Bytes Nat} {n : Nat} (hcount₁ : ∀ key, countAt c₁ key =
      if op.tracksMatchCount port = true ∧ key = actualMatchKey port (op.rowBytes port x)
        then effect.transition.shift (countAt s.matchCounts key) n
        else countAt s.matchCounts key) :
    1 ≤ countAt c₁ (actualMatchKey (1 - port) (op.rowBytes (1 - port) e.1)) := by
  have hq : 1 - port < 2 := by omega
  have hback : 1 - (1 - port) = port := by omega
  have hjoined : e ∈ op.joinedRows residual port x rows := by
    refine (visitedRows_sublist op residual port x effect rows).subset ?_
    rw [h.visited]
    simp [he]
  have hb := (hrows.row e ((PartitionRows.joined_sublist op residual port x rows).subset
    hjoined)).1
  obtain ⟨hpos, hpair⟩ := (hrows.mem_joined residual hport (hrelations.stored hq) hx e.1).mp
    (List.mem_map.mpr ⟨e, hjoined, rfl⟩)
  have hnot : e.1 ∉ before.map (·.1) := by
    rw [List.map_append, List.nodup_append] at hnodup
    exact fun hmem => hnodup.2.2 e.1 hmem e.1 (List.mem_map.mpr ⟨e, by simp [he], rfl⟩) rfl
  have hne : actualMatchKey (1 - port) (op.rowBytes (1 - port) e.1) ≠
      actualMatchKey port (op.rowBytes port x) := (actualMatchKey_ne hport _ _).symm
  rw [hcount₁, if_neg fun h => hne h.2]
  change 1 ≤ countAt s.matchCounts (op.countKey (1 - port) e.1)
  rw [h.count hq hb, hcounted.count hq hb, if_pos ⟨htracks, hpos⟩]
  unfold settledCount
  rw [if_neg (by omega), if_neg fun h => hnot h.2, hback]
  have hown : op.Stored s₀ (1 - (1 - port)) (relation port) := by
    rw [hback]
    exact hrelations.stored hport
  refine (Set.ncard_pos (Stored.partners_finite hq hown hb)).mpr ⟨x, hpresent, ?_⟩
  rw [pairsAt_swap hport]
  exact hpair

/-- The counts of one more page hold. -/
theorem Midway.settle_fails (hresidual : op.residual = some residual)
    (hrelations : op.Relations s₀ relation)
    (hcounted : op.Counted (op.joins residual) s₀.matchCounts relation) (hport : port < 2)
    (hx : op.Admitted port x) (hrows : op.PartitionRows s₀ port (relation (1 - port)) x rows)
    (htransition : (relation port x = 0 ∧ 0 < relation port x + d ∧ effect.transition = .first) ∨
      (0 < relation port x ∧ relation port x + d = 0 ∧ effect.transition = .last) ∨
      (0 < relation port x ∧ 0 < relation port x + d ∧ effect.transition = .none))
    {before page rest : List (Row Value × ℕ+)}
    (h : op.Midway residual s₀ s port x d effect cursor rows before (page ++ rest))
    {continuation : Option Bytes} (hend : continuation = none → rest = []) {carried : Bool}
    (hcarried : op.carriedMatch port (op.prepared port (x, d)) effect cursor s.matchCounts =
      .ok carried) (items : Nat) :
    Fails Harmless (op.settleCounts port (op.prepared port (x, d)) effect
      ⟨op.keptMatches port (page.map fun e => (op.rowBytes (1 - port) e.1, e.2)), page.length,
        continuation, items⟩ (carried || page.length != 0) s.matchCounts) := by
  have hq : 1 - port < 2 := by omega
  have hback : 1 - (1 - port) = port := by omega
  have hsome : op.residual.isSome = true := by rw [hresidual]; rfl
  have hopposite := hrelations.stored hq
  have hvisited := h.visited
  have hjoinedSub := visitedRows_sublist op residual port x effect rows
  have hsub : page.Sublist (op.visitedRows residual port x effect rows) := by
    rw [hvisited]
    exact (List.sublist_append_left _ _).trans (List.sublist_append_right _ _)
  have hnodup : ((before ++ (page ++ rest)).map (·.1)).Nodup := by
    rw [← hvisited]
    exact (hrows.joined_nodup residual).sublist (hjoinedSub.map _)
  have hjoined : ∀ e ∈ page, e ∈ op.joinedRows residual port x rows :=
    fun e he => hjoinedSub.subset (hsub.subset he)
  have hadmitted : ∀ e ∈ page, op.Admitted (1 - port) e.1 := fun e he =>
    (hrows.row e ((PartitionRows.joined_sublist op residual port x rows).subset
      (hjoined e he))).1
  have hn := hrows.ncard_partners residual hport hopposite hx
  have hrowBytes : (op.prepared port (x, d)).row = op.rowBytes port x := by
    rw [op.prepared_eq (x, d) hx]
  -- The count of the driving row, before this page.
  have hown : op.kind.tracks port = true → countAt s.matchCounts (op.countKey port x) =
      effect.transition.shift (if 0 < relation port x
        then (op.joinedRows residual port x rows).length else 0) before.length := by
    intro htracks
    rw [h.count hport hx, hcounted.count hport hx, hn]
    simp only [settledCount, htracks, and_self, if_true, true_and]
  have htotal : effect.transition ≠ .none → (op.joinedRows residual port x rows).length =
      before.length + page.length + rest.length := by
    intro hne
    rw [← visitedRows_of_transition hne, hvisited, List.length_append, List.length_append]
    omega
  have hlastOwn : effect.transition = .last → 0 < relation port x := by
    intro ht
    rcases htransition with ⟨-, -, ht'⟩ | ⟨hpos, -, -⟩ | ⟨hpos, -, -⟩
    · rw [ht] at ht'
      cases ht'
    · exact hpos
    · exact hpos
  unfold settleCounts
  cases hadjust : op.adjustOwn port (op.prepared port (x, d)) effect page.length s.matchCounts with
  | error e =>
    intro e' he
    cases he
    refine op.adjustOwn_fails hsome h.noZero (fun htracks ht => ?_) e hadjust
    rw [hrowBytes]
    change page.length ≤ countAt s.matchCounts (op.countKey port x)
    rw [hown htracks, ht, if_pos (hlastOwn ht), htotal (by rw [ht]; decide)]
    simp only [KeyTransition.shift]
    omega
  | ok c₁ =>
    obtain ⟨hc₁, hcount₁⟩ := op.adjustOwn_countAt h.noZero hadjust
    rw [hrowBytes] at hcount₁
    have hpageNodup : (page.map (·.1)).Nodup :=
      (hrows.joined_nodup residual).sublist ((hsub.trans hjoinedSub).map _)
    have hsupported : ∀ m ∈ op.keptMatches port (page.map fun e => (op.rowBytes (1 - port) e.1, e.2)),
        op.kind.tracks (1 - port) = true → effect.transition = .last →
        1 ≤ countAt c₁ (actualMatchKey (1 - port) m.row) := by
      intro m hm htracks ht
      rw [keptMatches_rows] at hm
      split at hm
      · cases hm
      · obtain ⟨e, he, rfl⟩ := List.mem_map.mp hm
        exact h.supports hrelations hcounted hport hx hrows htracks (hlastOwn ht) hnodup he hcount₁
    dsimp only
    cases hmatches : op.adjustMatches port effect
        (op.keptMatches port (page.map fun e => (op.rowBytes (1 - port) e.1, e.2))) c₁ with
    | error e =>
      intro e' he
      cases he
      exact op.adjustMatches_fails hport hsome hc₁ (keptMatches_nodup hadmitted hpageNodup)
        hsupported e hmatches
    | ok r =>
      obtain ⟨c', found⟩ := r
      dsimp only
      cases continuation with
      | some key => exact fun e he => by cases he
      | none =>
        obtain rfl := hend rfl
        rw [Option.isSome_none, if_neg Bool.false_ne_true]
        -- The counts of the page, without its check.
        have hsettle : op.settleCounts port (op.prepared port (x, d)) effect
            ⟨op.keptMatches port (page.map fun e => (op.rowBytes (1 - port) e.1, e.2)), page.length,
              some [], 0⟩ true s.matchCounts = .ok (c', found) :=
          op.settleCounts_eq_ok.mpr ⟨c₁, hadjust, hmatches, fun h => by cases h⟩
        obtain ⟨hc', hcount', -, -⟩ := settled_counts hport hx hadmitted hpageNodup h.noZero hsettle
        have hfinal : op.kind.tracks port = true → countAt c' (op.countKey port x) =
            effect.transition.shift (effect.transition.shift (if 0 < relation port x
              then (op.joinedRows residual port x rows).length else 0) before.length)
              page.length := by
          intro htracks
          rw [hcount' hport hx, hown htracks]
          simp only [settledCount, htracks, and_self, if_true]
        have hfound := fun htracks => h.carried htracks hcarried
        rw [List.append_nil] at hfound
        suffices hvalid : op.validateCurrentMatchCount port (op.prepared port (x, d)) effect
            (carried || page.length != 0) c' = .ok () by
          rw [hvalid]
          exact fun e he => by cases he
        refine op.validateCurrentMatchCount_fails hsome hc' ?_ ?_
        · intro htracks ht
          rw [hrowBytes]
          change countAt c' (op.countKey port x) = 0
          rw [hfinal htracks, ht, if_pos (hlastOwn ht), htotal (by rw [ht]; decide)]
          simp only [KeyTransition.shift, List.length_nil]
          omega
        · intro htracks hne
          rw [hrowBytes, hfound htracks, ← List.length_pos_iff]
          change _ ↔ 0 < countAt c' (op.countKey port x)
          rw [hfinal htracks]
          rcases htransition with ⟨hbefore, -, ht⟩ | ⟨-, -, ht⟩ | ⟨hpos, -, ht⟩
          · rw [ht, hbefore, if_neg (by omega), htotal (by rw [ht]; decide)]
            simp only [KeyTransition.shift, List.length_nil]
            omega
          · exact absurd ht hne
          · rw [ht, if_pos hpos]
            rfl

end Midway

/-! ## Between two pages -/

section Standing

variable [DecidableEq Value] {op : EquiJoinOperation Ty Value}
  {residual : Row Value → Except OperationError (Option Bool)}
  {relation : Nat → Bag (Row Value)} {port : Nat} {events : List (Row Value × Int)}
  {cursor : JoinCursor} {s : JoinState}

/-- A run between two pages: everything is exact, or was when the event in
progress started. -/
structure Standing (op : EquiJoinOperation Ty Value)
    (residual : Row Value → Except OperationError (Option Bool))
    (relation : Nat → Bag (Row Value)) (port : Nat) (events : List (Row Value × Int))
    (cursor : JoinCursor) (s : JoinState) : Prop where
  start : ∃ s₀, op.Relations s₀ relation ∧
    op.Counted (op.joins residual) s₀.matchCounts relation ∧
    ((cursor = freshCursor ∧ s = s₀) ∨ ∃ event tail out, events = event :: tail ∧
      op.Admitted port event.1 ∧
      op.Partial port (op.prepared port event) s₀ freshCursor out s cursor)

/-- Whole events keep relations and counts exact. -/
theorem Events.counted (hresidual : op.residual = some residual)
    {events : List (Nat × (Row Value × Int))} {s s' : JoinState} {out : List (Row Value × Int)}
    (h : op.Events events s out s')
    (hinv : op.Relations s relation ∧ op.Counted (op.joins residual) s.matchCounts relation) :
    (op.Relations s' (relation + eventsBag events) ∧
      op.Counted (op.joins residual) s'.matchCounts (relation + eventsBag events)) ∧
      op.Accounts (op.joins residual) relation (relation + eventsBag events) out :=
  h.accounts (fun s relation => op.Relations s relation ∧
      op.Counted (op.joins residual) s.matchCounts relation)
    (fun hinv hport hd hx hfinal => residual_step hresidual hinv.1 hinv.2 hport hd hx hfinal) hinv

theorem Drives.standing (hresidual : op.residual = some residual) (hport : port < 2)
    {rest : List (Row Value × Int)} {cursor' : JoinCursor} {s' : JoinState}
    {out : List (Row Value × Int)} (hd : ∀ e ∈ events, e.2 ≠ 0)
    (h : op.Drives port events cursor s out rest cursor' s')
    (hs : op.Standing residual relation port events cursor s) :
    ∃ n, rest = events.drop n ∧ op.Standing residual
      (relation + eventsBag ((events.take n).map fun e => (port, e))) port rest cursor' s' := by
  obtain ⟨s₀, hrelations, hcounted, hstart⟩ := hs.start
  have hstart' : ∃ out₀, (cursor = freshCursor ∧ s = s₀ ∧ out₀ = []) ∨ ∃ event tail,
      events = event :: tail ∧ op.Admitted port event.1 ∧
      op.Partial port (op.prepared port event) s₀ freshCursor out₀ s cursor := by
    rcases hstart with ⟨rfl, rfl⟩ | ⟨event, tail, out₀, rfl, ha, hpart⟩
    · exact ⟨[], .inl ⟨rfl, rfl, rfl⟩⟩
    · exact ⟨out₀, .inr ⟨event, tail, rfl, ha, hpart⟩⟩
  obtain ⟨out₀, hstart'⟩ := hstart'
  obtain ⟨n, s₁, out₁, out₂, hrest, -, hevents, hend⟩ := h.events hport hd hstart'
  obtain ⟨⟨hrelations₁, hcounted₁⟩, -⟩ := hevents.counted hresidual ⟨hrelations, hcounted⟩
  refine ⟨n, hrest, s₁, hrelations₁, hcounted₁, ?_⟩
  rcases hend with ⟨rfl, rfl, -⟩ | ⟨event, tail, hcons, ha, hpart⟩
  · exact .inl ⟨rfl, rfl⟩
  · exact .inr ⟨event, tail, out₂, hcons, ha, hpart⟩

/-- The completing page of an event. -/
theorem Final.standing (hresidual : op.residual = some residual) (hport : port < 2)
    {event : Row Value × Int} {tail : List (Row Value × Int)} (hd : event.2 ≠ 0)
    (hx : op.Admitted port event.1) {s' : JoinState} {out : List (Row Value × Int)}
    (h : op.Final port (op.prepared port event) s cursor out s')
    (hs : op.Standing residual relation port (event :: tail) cursor s) :
    op.Standing residual (stepAt relation port event) port tail freshCursor s' := by
  obtain ⟨s₀, hrelations, hcounted, hstart⟩ := hs.start
  have hwhole : ∃ out, op.Final port (op.prepared port event) s₀ freshCursor out s' := by
    rcases hstart with ⟨rfl, rfl⟩ | ⟨event', tail', out₀, heq, -, hpart⟩
    · exact ⟨out, h⟩
    · cases heq
      exact ⟨_, hpart.final hport h⟩
  obtain ⟨out', hfinal⟩ := hwhole
  obtain ⟨⟨hrelations', hcounted'⟩, -⟩ :=
    residual_step hresidual hrelations hcounted hport hd hx hfinal
  exact ⟨s', hrelations', hcounted', .inl ⟨rfl, rfl⟩⟩

/-- The effect of the event in progress is the one it had at its start. -/
theorem Standing.midway (hresidual : op.residual = some residual) (hport : port < 2)
    {x : Row Value} {d : Int} {tail : List (Row Value × Int)} (hd : d ≠ 0)
    (hx : op.Admitted port x) {effect : RowEffect} {after : Nat}
    (heffect : op.eventEffect (op.prepared port (x, d)) (s.rows port (op.prepared port (x, d)).key) =
      .ok (effect, after))
    (hs : op.Standing residual relation port ((x, d) :: tail) cursor s) :
    ∃ s₀ rows before rest, op.Relations s₀ relation ∧
      op.Counted (op.joins residual) s₀.matchCounts relation ∧
      op.PartitionRows s₀ port (relation (1 - port)) x rows ∧
      ((relation port x = 0 ∧ 0 < relation port x + d ∧ effect.transition = .first) ∨
        (0 < relation port x ∧ relation port x + d = 0 ∧ effect.transition = .last) ∨
        (0 < relation port x ∧ 0 < relation port x + d ∧ effect.transition = .none)) ∧
      op.Midway residual s₀ s port x d effect cursor rows before rest := by
  have hkey : (op.prepared port (x, d)).key = op.rowKey port x := by
    rw [op.prepared_eq (x, d) hx]
  rw [hkey] at heffect
  obtain ⟨s₀, hrelations, hcounted, hstart⟩ := hs.start
  obtain ⟨rows, hrows⟩ := (hrelations.stored (show 1 - port < 2 by omega)).partition x
  rcases hstart with ⟨rfl, rfl⟩ | ⟨event, tail', out, heq, -, hpart⟩
  · obtain ⟨-, htransition⟩ := residual_transition hresidual (hrelations.stored hport) hx hd heffect
    exact ⟨s, rows, [], _, hrelations, hcounted, hrows, htransition,
      midway_fresh hresidual hrelations hcounted hport hx hd heffect hrows⟩
  · cases heq
    obtain ⟨_, _, _, _, _, _, hvisit, _⟩ := hpart.visited
    rw [rows_congr hvisit.rows] at heffect
    obtain ⟨-, htransition⟩ := residual_transition hresidual (hrelations.stored hport) hx hd heffect
    obtain ⟨before, rest, hmidway⟩ :=
      midway_partial hresidual hcounted hport hx heffect hrows hpart
    exact ⟨s₀, rows, before, rest, hrelations, hcounted, hrows, htransition, hmidway⟩

/-- The rows of one page of candidates are the next of the visited rows. -/
theorem Midway.cut {s₀ : JoinState} {x : Row Value} {d : Int} {effect : RowEffect}
    {rows before rest : List (Row Value × ℕ+)}
    (h : op.Midway residual s₀ s port x d effect cursor rows before rest)
    {entries : List (Bytes × ℕ+)} {continuation : Option Bytes}
    (hpage : IsPage (op.candidates s port (op.prepared port (x, d)) effect) cursor.resumeAfter
      ⟨entries, continuation⟩) :
    ∃ page rest', rest = page ++ rest' ∧ (continuation = none → rest' = []) ∧
      entries.filter (fun e => op.qualifies residual port (op.prepared port (x, d)).row e.1) =
        page.map fun e => (op.rowBytes (1 - port) e.1, e.2) := by
  have hrest := h.candidates
  cases continuation with
  | none =>
    rw [show op.candidates s port (op.prepared port (x, d)) effect cursor.resumeAfter = entries
      from hpage] at hrest
    exact ⟨rest, [], (List.append_nil _).symm, fun _ => rfl, hrest⟩
  | some key =>
    rw [show op.candidates s port (op.prepared port (x, d)) effect cursor.resumeAfter =
      entries ++ op.candidates s port (op.prepared port (x, d)) effect (some key)
      from hpage.2.2, List.filter_append] at hrest
    obtain ⟨page, rest', rfl, hleft, -⟩ := List.map_eq_append_iff.mp hrest.symm
    exact ⟨page, rest', rfl, fun h => (by cases h), hleft.symm⟩

theorem residualPage_raises (hresidual : op.residual = some residual) (hport : port < 2)
    {x : Row Value} {d : Int} {tail : List (Row Value × Int)} (hd : d ≠ 0)
    (hx : op.Admitted port x) {effect : RowEffect} {after : Nat} {s : Scope JoinState}
    (heffect : op.eventEffect (op.prepared port (x, d))
      (s.state.rows port (op.prepared port (x, d)).key) = .ok (effect, after))
    (hs : op.Standing residual relation port ((x, d) :: tail) cursor s.state)
    (output : ArrowOutput Value) :
    Raises Harmless
      (op.residualPage residual port (op.prepared port (x, d)) effect cursor output) s := by
  have hsome : op.residual.isSome = true := by rw [hresidual]; rfl
  obtain ⟨s₀, rows, before, rest, hrelations, hcounted, hrows, htransition, hmidway⟩ :=
    hs.midway hresidual hport hd hx heffect
  refine .get <| .bind (.ofExcept (op.carriedMatch_fails hsome hmidway.noZero))
    fun carried t ht => ?_
  obtain ⟨hcarried, rfl⟩ := ofExcept_eq_ok.mp ht
  refine .bind ((op.scanResidualMatches_raises _ _ _ _ _ _).imp fun _ => Ordinary.harmless)
    fun scanned t ht => ?_
  obtain ⟨hstate, hscanned⟩ := op.scanResidualMatches_eq_ok hresidual ht
  cases scanned with
  | none => exact .pure _
  | some page =>
    obtain ⟨entries, hpage, hkept, hqualifying⟩ := hscanned page rfl
    obtain ⟨pageRows, rest', rfl, hend, hfilter⟩ := hmidway.cut hpage
    rw [hfilter] at hkept hqualifying
    rw [List.length_map] at hqualifying
    refine .bind (StepBudget.raises_consumeHead ordinary_budget.harmless _ _) fun _ t₁ ht₁ =>
      .bind ?_ fun _ _ _ => .pure _
    refine .get <| .bind (.ofExcept ?_) fun _ _ _ => .bind (.modify _) fun _ _ _ => ?_
    · rw [StepBudget.consumeHead_eq_ok ht₁, hstate]
      obtain ⟨matchRows, qualifying, continuation, items⟩ := page
      simp only at hkept hqualifying hend
      subst hkept hqualifying
      exact hmidway.settle_fails hresidual hrelations hcounted hport hx hrows htransition hend
        hcarried items
    · exact (op.extend_checked_raises _ _ _ _).imp fun _ => Ordinary.harmless

theorem driveRow_raises (hresidual : op.residual = some residual) (hport : port < 2)
    {event : Row Value × Int} {tail : List (Row Value × Int)} (hd : event.2 ≠ 0)
    (hx : op.Admitted port event.1) {v : Driving Value} {s : Scope JoinState}
    (hs : op.Standing residual relation port (event :: tail) v.cursor s.state) :
    Raises Harmless (op.driveRow port (op.prepared port event) v) s := by
  refine .bind ((op.chargeRow_raises _ _).imp fun _ => Ordinary.harmless) fun _ t ht => .get <|
    .bind (.ofExcept ((op.eventEffect_fails _ _).imp fun _ => Ordinary.harmless))
      fun r t₁ ht₁ => ?_
  obtain ⟨effect, after⟩ := r
  obtain ⟨heffect, rfl⟩ := ofExcept_eq_ok.mp ht₁
  rw [← op.chargeRow_state ht] at hs
  refine .bind ?_ fun result t₂ _ => ?_
  · unfold rowPage
    rw [hresidual]
    exact residualPage_raises hresidual hport hd hx heffect hs _
  · match result with
    | none => exact .pure _
    | some (_, _, some _) => exact .pure _
    | some (_, _, none) => exact .bind (.modify _) fun _ _ _ => .get (.pure _)

theorem driveWindow_raises (hresidual : op.residual = some residual) (hport : port < 2)
    {window tail : List (Row Value × Int)} (hd : ∀ e ∈ window, e.2 ≠ 0)
    (hx : ∀ e ∈ window, op.Admitted port e.1) {v : Driving Value} {s : Scope JoinState}
    (hs : op.Standing residual relation port (window ++ tail) v.cursor s.state) :
    Raises Harmless (op.driveWindow port (window.map (op.prepared port)) v) s := by
  induction window generalizing relation v s with
  | nil => exact .pure _
  | cons event window ih =>
    rw [List.map_cons]
    unfold driveWindow
    have hx₀ := hx event (by simp)
    have hd₀ := hd event (by simp)
    refine .get <| .ite (fun _ => .pure _) fun _ =>
      .bind (driveRow_raises hresidual hport hd₀ hx₀ hs) fun r t ht => ?_
    obtain ⟨v₁, more⟩ := r
    refine .ite (fun hmore => ?_) fun _ => .pure _
    -- Only a completed event goes on to the next row.
    rcases op.driveRow_eq_ok ht with ⟨-, rfl, -⟩ | ⟨-, -, -, -, rfl⟩ | ⟨out, hfinal, hcursor, -, -⟩
    · cases hmore
    · cases hmore
    · have hnext := hfinal.standing hresidual hport hd₀ hx₀ hs
      rw [← show v₁.cursor = freshCursor from hcursor] at hnext
      exact ih (fun e he => hd e (by simp [he])) (fun e he => hx e (by simp [he])) hnext

/-- A page from a standing run fails for other reasons than its counts. -/
theorem computeWindow_raises (hresidual : op.residual = some residual)
    {change : Change (Row Value)} {resume : Resume} {s : Scope JoinState}
    (hs : ∀ cursor, resume.cursor = .equiJoin cursor →
      op.Standing residual relation port (change.events.drop resume.ordinal) cursor s.state) :
    Raises Harmless (op.computeWindow port change resume) s := by
  refine .bind (.ofExcept (op.cursor_fails _ _ _)) fun cursor t ht => ?_
  obtain ⟨hcursor, rfl⟩ := ofExcept_eq_ok.mp ht
  obtain ⟨hport, hresume, -⟩ := op.cursor_eq_ok hcursor
  refine .get <| .ite (fun _ => .throw rfl) fun _ =>
    .bind ((op.prepareWindow_raises _ _ _).imp fun _ => Ordinary.harmless) fun window t ht => ?_
  obtain ⟨hstate, rfl, hadmitted⟩ := op.prepareWindow_eq_ok ht
  set length := min s.budget.headRemaining (change.numRows - resume.ordinal)
  have hdrive : ∀ t₁ : Scope JoinState, t₁.state = s.state → Raises Harmless (op.driveWindow port
      (((change.events.drop resume.ordinal).take length).map (op.prepared port))
      ⟨cursor, .empty, resume.ordinal⟩) t₁ := by
    intro t₁ hstate₁
    have hstanding := hs cursor hresume
    rw [← List.take_append_drop length (change.events.drop resume.ordinal), ← hstate₁] at hstanding
    refine driveWindow_raises hresidual hport (fun e he => change.nonzero e ?_) hadmitted hstanding
    exact List.mem_of_mem_drop (List.mem_of_mem_take he)
  cases hwindow : ((change.events.drop resume.ordinal).take length).map (op.prepared port) with
  | nil => exact .bind (.throw rfl) fun _ _ h => (throw_eq_ok.mp h).elim
  | cons driving rest =>
    rw [hwindow] at hdrive
    refine .bind (op.validateCursorBinding_raises _ _ _ _) fun _ t₁ ht₁ =>
      .bind (hdrive t₁ ?_) fun v _ _ =>
        .ite (fun _ => .throw rfl) fun _ =>
          .bind (.ofExcept ((finish_fails _ v.output).imp fun _ => Ordinary.harmless))
            fun _ _ _ => .pure _
    rw [op.validateCursorBinding_state ht₁, hstate]

end Standing

end EquiJoinOperation

end Dogpaddle.EquiJoin
