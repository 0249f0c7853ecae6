import Dogpaddle.EquiJoin.Failures
import Dogpaddle.EquiJoin.Relate
import Dogpaddle.EquiJoin.Whole
import Dogpaddle.Operation.Position

/-!
# Cursors of the equality join

* `Filed`: every stored row is an admitted row in the partition of its key.
* `Placed`: a run stands before the candidates of its next event, or at one of them.
* `AtCandidate.bound`: the candidate lies in the partition of its event.
* `computeWindow_position`: a page from a placed position never reports it.
* `computeWindow_settles`, `computeWindow_more`: what a page leaves is placed, and further on.
-/

namespace Dogpaddle.EquiJoin

open Lib Store Dogpaddle.Relation

variable {Ty Value : Type} [DecidableEq Value]

namespace EquiJoinOperation

variable (op : EquiJoinOperation Ty Value)

/-- Every stored row is an admitted row in the partition of its key. -/
def Filed (s : JoinState) : Prop :=
  ∀ port < 2, ∀ key bytes, 0 < multiplicity (s.rows port key) bytes →
    ∃ r, op.Admitted port r ∧ key = op.rowKey port r ∧ bytes = op.rowBytes port r

/-- A cursor at a stored candidate of an event. -/
structure AtCandidate (port : Nat) (event : Row Value × Int) (s : JoinState)
    (cursor : JoinCursor) : Prop where
  admitted : op.Admitted port event.1
  plain : op.residual = none → cursor.foundMatch = false
  candidate : ∃ effect after key,
    op.eventEffect (op.prepared port event) (s.rows port (op.prepared port event).key) =
      .ok (effect, after) ∧
    op.scans s port (op.prepared port event) effect = true ∧ cursor.resumeAfter = some key ∧
    0 < multiplicity (s.rows (1 - port) (op.prepared port event).key) key

/-- Where a run stands in its input. -/
def Placed (port : Nat) (events : List (Row Value × Int)) (s : JoinState)
    (cursor : JoinCursor) : Prop :=
  cursor = freshCursor ∨
    ∃ event tail, events = event :: tail ∧ op.AtCandidate port event s cursor

/-- A position of an input, in a state. -/
structure PlacedAt (port : Nat) (change : Change (Row Value)) (resume : Resume)
    (s : JoinState) : Prop where
  filed : op.Filed s
  inside : resume.ordinal < change.numRows
  placed : ∃ cursor, resume.cursor = .equiJoin cursor ∧
    op.Placed port (change.events.drop resume.ordinal) s cursor

/-- The candidates left after a key in the partition of the next event. -/
def candidatesLeft (port : Nat) (events : List (Row Value × Int)) (s : JoinState)
    (resumeAfter : Option Bytes) : Nat :=
  match events with
  | [] => 0
  | event :: _ =>
    (entriesAfter (s.rows (1 - port) (op.prepared port event).key) resumeAfter).length

/-- The events left in an input, and the candidates of the first of them. -/
def leftOver (port : Nat) (change : Change (Row Value)) (resume : Resume) (s : JoinState) :
    Nat ×ₗ Nat :=
  toLex (change.numRows - resume.ordinal,
    op.candidatesLeft port (change.events.drop resume.ordinal) s resume.cursor.key)

variable {op} {port : Nat} {event : Row Value × Int} {events rest : List (Row Value × Int)}
  {s s' : JoinState} {cursor cursor' : JoinCursor} {out : List (Row Value × Int)}

/-! ## Pages and positions -/

theorem filed_initial : op.Filed JoinState.initial := by
  intro port _ key bytes h
  have hempty : JoinState.initial.rows port key = OrdMap.empty := by
    unfold JoinState.rows JoinState.initial
    split <;> rfl
  rw [hempty] at h
  exact absurd h (lt_irrefl _)

theorem Filed.congr (hrows : s'.leftRows = s.leftRows ∧ s'.rightRows = s.rightRows)
    (h : op.Filed s) : op.Filed s' := by
  intro port hport key bytes hpos
  rw [rows_congr hrows] at hpos
  exact h port hport key bytes hpos

theorem Filed.setRow (hport : port < 2) (h : op.Filed s) (hx : op.Admitted port event.1)
    (after : Nat) : op.Filed
      (s.setRow port (op.prepared port event).key (op.prepared port event).row after) := by
  rw [op.prepared_eq event hx]
  intro q hq key bytes hpos
  rw [rows_setRow hport hq] at hpos
  split at hpos
  · next hsame =>
    obtain ⟨rfl, rfl⟩ := hsame
    rw [multiplicity_setMultiplicity] at hpos
    split at hpos
    · next hbytes => exact ⟨event.1, hx, rfl, hbytes⟩
    · exact h q hq _ _ hpos
  · exact h q hq _ _ hpos

theorem mem_entriesAfter {m : OrdMap Bytes ℕ+} {resumeAfter : Option Bytes} {key : Bytes} {w : ℕ+}
    (h : (key, w) ∈ entriesAfter m resumeAfter) :
    0 < multiplicity m key ∧ resumeAfter < some key := by
  obtain ⟨hmem, hafter⟩ := mem_remaining_ascending h
  refine ⟨?_, hafter⟩
  rw [(mem_entries_iff_multiplicity m key w).mp (mem_inRange.mp hmem).1]
  exact w.pos

omit [DecidableEq Value] in
/-- Without a residual, a page keeps the match flag. -/
theorem Visit.plain_found {row : PreparedRow} {effect : RowEffect}
    {entries : List (Bytes × ℕ+)} {continuation : Option Bytes} {found : Bool}
    (h : op.Visit port row effect s cursor entries continuation out found s')
    (hplain : op.residual = none) : found = cursor.foundMatch := by
  cases h with
  | plain _ _ => rfl
  | residual hresidual =>
    rw [hplain] at hresidual
    cases hresidual

theorem Partial.atCandidate (rest : List (Row Value × Int)) (hx : op.Admitted port event.1)
    (hplain : op.residual = none → cursor.foundMatch = false)
    (h : op.Partial port (op.prepared port event) s cursor out s' cursor') :
    op.AtCandidate port event s' cursor' ∧ cursor.resumeAfter < cursor'.resumeAfter ∧
      op.candidatesLeft port (event :: rest) s' cursor'.resumeAfter <
        op.candidatesLeft port (event :: rest) s cursor.resumeAfter := by
  obtain ⟨effect, after, entries, key, heffect, ⟨hlast, hrest, hpage⟩, hvisit, hkey⟩ := h.visited
  have hrows := hvisit.rows
  have hscans := op.scans_of_candidates hrest
  have hcandidates : ∀ resumeAfter, op.candidates s port (op.prepared port event) effect
      resumeAfter = entriesAfter (s.rows (1 - port) (op.prepared port event).key) resumeAfter :=
    fun resumeAfter => if_pos hscans
  rw [hcandidates, hcandidates] at hpage
  obtain ⟨w, hw⟩ := mem_of_getLast?_key hlast
  have hmem := mem_entriesAfter (show (key, w) ∈ entriesAfter
    (s.rows (1 - port) (op.prepared port event).key) cursor.resumeAfter by
      rw [hpage]
      exact List.mem_append_left _ hw)
  refine ⟨⟨hx, fun hnone => ?_, effect, after, key, ?_, ?_, hkey, ?_⟩, ?_, ?_⟩
  · rw [hvisit.plain_found hnone]
    exact hplain hnone
  · rw [rows_congr hrows]
    exact heffect
  · rw [(op.candidates_congr hrows port _ effect).1]
    exact hscans
  · rw [rows_congr hrows]
    exact hmem.1
  · rw [hkey]
    exact hmem.2
  · unfold candidatesLeft
    dsimp only
    rw [rows_congr hrows, hkey, hpage, List.length_append]
    have := List.length_pos_iff.mpr (ne_nil_of_getLast?_key hlast)
    dsimp only at this ⊢
    omega

theorem Placed.plain (h : op.Placed port events s cursor) (hplain : op.residual = none) :
    cursor.foundMatch = false := by
  rcases h with rfl | ⟨event, tail, -, hat⟩
  · rfl
  · exact hat.plain hplain

/-- Driven events keep the rows filed. -/
theorem Drives.filed (hport : port < 2) (h : op.Drives port events cursor s out rest cursor' s')
    (hfiled : op.Filed s) : op.Filed s' := by
  induction h with
  | refl => exact hfiled
  | part _ hpart _ ih =>
    obtain ⟨_, _, _, _, _, _, hvisit, _⟩ := hpart.visited
    exact ih (hfiled.congr hvisit.rows)
  | full hx hfinal _ ih =>
    obtain ⟨effect, after, found, s₂, -, hvisit, rfl⟩ := hfinal.visited
    exact ih ((hfiled.congr hvisit.rows).setRow hport hx after)

/-- Driven events leave the run where it was, or placed. -/
theorem Drives.settled (h : op.Drives port events cursor s out rest cursor' s')
    (hplain : op.residual = none → cursor.foundMatch = false) :
    (rest = events ∧ cursor' = cursor ∧ s' = s) ∨ op.Placed port rest s' cursor' := by
  induction h with
  | refl => exact .inl ⟨rfl, rfl, rfl⟩
  | @part event events rest cursor cursor₁ cursor' s s₁ s' out out' hx hpart _ ih =>
    right
    have hat := (hpart.atCandidate events hx hplain).1
    rcases ih hat.plain with ⟨rfl, rfl, rfl⟩ | hplaced
    · exact .inr ⟨event, events, rfl, hat⟩
    · exact hplaced
  | full _ _ _ ih =>
    right
    rcases ih fun _ => rfl with ⟨rfl, rfl, rfl⟩ | hplaced
    · exact .inl rfl
    · exact hplaced

/-- Driven events move on: to a later event, or to a later candidate of the same one. -/
theorem Drives.advance (h : op.Drives port events cursor s out rest cursor' s')
    (hplaced : op.Placed port events s cursor) :
    rest.length < events.length ∨ rest = events ∧ (cursor' = cursor ∧ s' = s ∨
      cursor.resumeAfter < cursor'.resumeAfter ∧
        op.candidatesLeft port rest s' cursor'.resumeAfter <
          op.candidatesLeft port events s cursor.resumeAfter) := by
  induction h with
  | refl => exact .inr ⟨rfl, .inl ⟨rfl, rfl⟩⟩
  | @part event events rest cursor cursor₁ cursor' s s₁ s' out out' hx hpart _ ih =>
    obtain ⟨hat, hlater, hless⟩ := hpart.atCandidate events hx hplaced.plain
    rcases ih (.inr ⟨event, events, rfl, hat⟩) with hshort | ⟨rfl, ⟨rfl, rfl⟩ | ⟨hmore, hfewer⟩⟩
    · exact .inl hshort
    · exact .inr ⟨rfl, .inr ⟨hlater, hless⟩⟩
    · exact .inr ⟨rfl, .inr ⟨key_lt_trans hlater hmore, lt_trans hfewer hless⟩⟩
  | @full event events rest cursor cursor' s s₁ s' out out' hx hfinal _ ih =>
    left
    rcases ih (.inl rfl) with hshort | ⟨rfl, -⟩
    · exact lt_trans hshort (Nat.lt_succ_self _)
    · exact Nat.lt_succ_self _

/-! ## One page -/

variable {change : Change (Row Value)} {resume : Resume}

/-- A page never leaves the position it started from. -/
theorem computeWindow_ne : Triple (fun _ => True) (op.computeWindow port change resume)
    (fun step _ => step.progress ≠ .more resume) fun _ => True := by
  refine .bind (.any _) fun cursor => .get fun t _ =>
    .ite (fun _ => .throw _ fun _ _ => trivial) fun _ => .bind (.any _) fun window => ?_
  cases window with
  | nil => exact .bind (Q := fun _ _ => False) (.throw _ fun _ _ => trivial) fun _ _ h => h.elim
  | cons driving rest =>
    refine .bind (.any _) fun _ => .bind (.any _) fun v =>
      .ite (fun _ => .throw _ fun _ _ => trivial) fun hne => .bind (.any _) fun output => ?_
    exact .pure _ fun _ _ => hne

theorem PlacedAt.initial (hfiled : op.Filed s) : op.PlacedAt port change initialResume s :=
  ⟨hfiled, change.numRows_pos, freshCursor, rfl, .inl rfl⟩

/-! ## The candidate of a position -/

/-- A candidate in a filed partition is the bytes of an admitted row with the same key. -/
theorem AtCandidate.row (hport : port < 2) (hfiled : op.Filed s)
    (h : op.AtCandidate port event s cursor) : ∃ r, op.Admitted (1 - port) r ∧
      cursor.resumeAfter = some (op.rowBytes (1 - port) r) ∧
      (op.prepared port event).key = op.rowKey (1 - port) r := by
  obtain ⟨_, _, key, -, -, hkey, hpos⟩ := h.candidate
  obtain ⟨r, hr, hpartition, rfl⟩ := hfiled (1 - port) (by omega) _ key hpos
  exact ⟨r, hr, hkey, hpartition⟩

/-- The driving row of a candidate visits the opposite partition. -/
theorem AtCandidate.visits (h : op.AtCandidate port event s cursor) :
    ¬ (¬ (op.prepared port event).matchable = true ∨
      (op.residual.isNone = true ∧ op.kind.leftOnly = true ∧ port = 0)) := by
  obtain ⟨effect, _, _, -, hscans, -⟩ := h.candidate
  unfold scans at hscans
  cases hresidual : op.residual with
  | some residual =>
    rw [hresidual, Option.isSome_some, if_pos rfl, decide_eq_true_eq] at hscans
    simp only [Option.isNone_some, Bool.false_eq_true, false_and, or_false]
    exact fun hnot => hscans (.inl hnot)
  | none =>
    rw [hresidual, Option.isSome_none, if_neg Bool.false_ne_true, decide_eq_true_eq] at hscans
    rintro (hnot | ⟨-, hleft⟩)
    · exact hscans.1 (.inl hnot)
    · exact hscans.2 (.inr hleft)

theorem candidate_eq_ok {r : Row Value} (hr : op.Admitted (1 - port) r)
    {candidate : List PreparedRow} {t t' : Scope JoinState}
    (h : op.candidate port (op.rowBytes (1 - port) r) t = .ok candidate t') :
    candidate = [op.prepared (1 - port) (r, 1)] := by
  obtain ⟨_, t₁, -, h⟩ := bind_eq_ok.mp h
  obtain ⟨_, t₂, -, h⟩ := bind_eq_ok.mp h
  obtain ⟨row, t₃, ht₃, h⟩ := bind_eq_ok.mp h
  obtain ⟨hrow, rfl⟩ := ofExcept_eq_ok.mp ht₃
  rw [mapError_eq_ok, rowBytes, hr.decodes] at hrow
  cases hrow
  exact (op.prepareWindow_eq_ok h).2.1

/-- The binding of a candidate holds: what can fail is reading the candidate. -/
theorem AtCandidate.bound {P : EquiJoinError → Prop} (hport : port < 2) (hfiled : op.Filed s)
    (h : op.AtCandidate port event s cursor) (hbudget : P .budget)
    (hcandidate : ∀ r, op.Admitted (1 - port) r → ∀ t,
      Raises P (op.candidate port (op.rowBytes (1 - port) r)) t) (t : Scope JoinState) :
    Raises P (op.validateCursorBinding port cursor (op.prepared port event)) t := by
  obtain ⟨r, hr, hkey, hpartition⟩ := h.row hport hfiled
  unfold validateCursorBinding
  rw [hkey]
  refine .ite (fun hnot => absurd hnot h.visits) fun _ =>
    .bind (StepBudget.raises_charge hbudget _ _) fun _ _ _ =>
      .bind (hcandidate r hr _) fun candidate _ hc => .ite (fun _ => .pure _) fun hnot => ?_
  -- the candidate has the key of the driving row, so both can match
  obtain rfl := candidate_eq_ok hr hc
  have hsame : (op.prepared (1 - port) (r, 1)).key = (op.prepared port event).key := by
    rw [op.prepared_eq (r, 1) hr, hpartition]
  have hmatchable := op.matchable_of_key hr h.admitted hsame
  have hvisits := h.visits
  push Not at hvisits
  have hall : ([op.prepared (1 - port) (r, 1)].all fun c =>
      c.matchable && c.key == (op.prepared port event).key) = true := by
    simp [hsame, hmatchable, hvisits.1]
  exact absurd hall hnot

omit [DecidableEq Value] in
theorem validateInput_eq_ok (h : op.validateInput port change = .ok ()) : port < 2 := by
  unfold validateInput at h
  split at h
  · cases h
  · omega

omit [DecidableEq Value] in
theorem cursor_ok (hvalid : op.validateInput port change = .ok ())
    (hcursor : resume.cursor = .equiJoin cursor) (hinside : resume.ordinal < change.numRows)
    (hfound : cursor.foundMatch = true → op.residual.isNone = false ∧ cursor.resumeAfter ≠ none) :
    op.cursor port change resume = .ok cursor := by
  unfold EquiJoinOperation.cursor
  rw [hvalid, hcursor]
  refine if_neg ?_
  rintro (houtside | ⟨hmatch, hnone⟩ | ⟨hnone, hmatch⟩)
  · omega
  · exact (hfound hmatch).2 hnone
  · rw [(hfound hmatch).1] at hnone
    cases hnone

theorem PlacedAt.cursor_ok (hvalid : op.validateInput port change = .ok ())
    (h : op.PlacedAt port change resume s) : ∃ cursor, op.cursor port change resume = .ok cursor ∧
      op.Placed port (change.events.drop resume.ordinal) s cursor := by
  obtain ⟨cursor, hcursor, hplaced⟩ := h.placed
  refine ⟨cursor, EquiJoinOperation.cursor_ok hvalid hcursor h.inside fun hfound => ?_, hplaced⟩
  rcases hplaced with rfl | ⟨event, tail, -, hat⟩
  · cases hfound
  · obtain ⟨_, _, key, -, -, hkey, -⟩ := hat.candidate
    refine ⟨?_, by rw [hkey]; nofun⟩
    cases hresidual : op.residual with
    | some residual => rfl
    | none =>
      rw [hat.plain hresidual] at hfound
      cases hfound

/-! ## Pages of a placed run -/

/-- Errors that say nothing against the position. -/
def NoResumeFault (e : EquiJoinError) : Prop := e.resumeFault = false

theorem noResumeFault_budget : NoResumeFault budgetExceeded := rfl

theorem Ordinary.noResumeFault {e : EquiJoinError} (h : Ordinary e) : NoResumeFault e := h.2

theorem actualMatchCount_noResumeFault (counts : OrdMap Bytes Nat) (port : Nat) (row : Bytes) :
    Fails NoResumeFault (actualMatchCount counts port row) := by
  intro e he
  unfold actualMatchCount at he
  split at he <;> cases he
  rfl

theorem adjustActualMatchCount_noResumeFault (counts : OrdMap Bytes Nat) (port : Nat)
    (row : Bytes) (transition : KeyTransition) (amount : Nat) :
    Fails NoResumeFault (adjustActualMatchCount counts port row transition amount) := by
  intro e he
  unfold adjustActualMatchCount at he
  split at he
  · next hcount =>
    cases he
    exact actualMatchCount_noResumeFault _ _ _ _ hcount
  · split at he
    · next hadjust =>
      cases he
      unfold adjustMatchCount at hadjust
      cases transition with
      | none => cases hadjust
      | first => dsimp only at hadjust; split at hadjust <;> cases hadjust; rfl
      | last => dsimp only at hadjust; split at hadjust <;> cases hadjust; rfl
    · cases he

omit [DecidableEq Value] in
theorem countsAccess_noResumeFault (counts : OrdMap Bytes Nat) :
    Fails NoResumeFault (op.countsAccess counts) := by
  intro e he
  unfold countsAccess at he
  split at he <;> cases he
  rfl

omit [DecidableEq Value] in
theorem adjustMatches_noResumeFault (effect : RowEffect) (found : List PreparedMatch)
    (counts : OrdMap Bytes Nat) :
    Fails NoResumeFault (op.adjustMatches port effect found counts) := by
  induction found generalizing counts with
  | nil => exact fun e he => by cases he
  | cons matched rest ih =>
    unfold adjustMatches
    split
    · next hopposite =>
      intro e he
      cases he
      unfold adjustOpposite at hopposite
      split at hopposite
      · split at hopposite
        · next haccess =>
          cases hopposite
          exact countsAccess_noResumeFault _ _ haccess
        · exact (adjustActualMatchCount_noResumeFault _ _ _ _ _).map _ hopposite
      · cases hopposite
    · exact .map (ih _)

omit [DecidableEq Value] in
theorem validateCurrentMatchCount_noResumeFault (input : PreparedRow) (effect : RowEffect)
    (found : Bool) (counts : OrdMap Bytes Nat) :
    Fails NoResumeFault (op.validateCurrentMatchCount port input effect found counts) := by
  unfold validateCurrentMatchCount
  refine .ite (fun _ => .of_ok rfl) fun _ => ?_
  cases haccess : op.countsAccess counts with
  | error e => exact .error (countsAccess_noResumeFault _ _ haccess)
  | ok counts =>
    dsimp only
    cases hcount : actualMatchCount counts port input.row with
    | error e => exact .error (actualMatchCount_noResumeFault _ _ _ _ hcount)
    | ok count => exact .ite (fun _ => .of_ok rfl) fun _ => .error rfl

omit [DecidableEq Value] in
/-- Count updates never report a position. -/
theorem settleCounts_noResumeFault (input : PreparedRow) (effect : RowEffect)
    (page : ResidualPage) (found : Bool) (counts : OrdMap Bytes Nat) :
    Fails NoResumeFault (op.settleCounts port input effect page found counts) := by
  unfold settleCounts
  split
  · next hown =>
    intro e he
    cases he
    unfold adjustOwn at hown
    split at hown
    · split at hown
      · next haccess =>
        cases hown
        exact countsAccess_noResumeFault _ _ haccess
      · exact (adjustActualMatchCount_noResumeFault _ _ _ _ _).map _ hown
    · cases hown
  · split
    · next hmatches =>
      intro e he
      cases he
      exact adjustMatches_noResumeFault _ _ _ _ hmatches
    · split
      · exact .of_ok rfl
      · exact .map (validateCurrentMatchCount_noResumeFault _ _ _ _)

/-- A run that stands at a candidate is not refused as a stable row. -/
theorem Placed.carriedMatch {tail : List (Row Value × Int)} {effect : RowEffect} {after : Nat}
    (h : op.Placed port (event :: tail) s cursor)
    (hresidual : op.residual.isSome = true)
    (heffect : op.eventEffect (op.prepared port event)
      (s.rows port (op.prepared port event).key) = .ok (effect, after)) :
    Fails NoResumeFault
      (op.carriedMatch port (op.prepared port event) effect cursor s.matchCounts) := by
  intro e he
  unfold EquiJoinOperation.carriedMatch at he
  split at he
  · next hstable =>
    split at he
    · next hsome =>
      rcases h with rfl | ⟨event', tail', hevents, hat⟩
      · cases hsome
      · cases hevents
        obtain ⟨effect', _, _, heffect', hscans, -⟩ := hat.candidate
        rw [heffect] at heffect'
        cases heffect'
        unfold scans at hscans
        rw [if_pos hresidual, decide_eq_true_eq] at hscans
        exact absurd (.inr hstable) hscans
    · unfold stableLeftOnlyFoundMatch at he
      split at he
      · cases he
      · split at he
        · cases he
          rfl
        · exact (actualMatchCount_noResumeFault _ _ _).map _ he
  · cases he

omit [DecidableEq Value] in
theorem outputItems_noResumeFault (row : PreparedRow) (effect : RowEffect)
    (entries : List (Bytes × ℕ+)) :
    ∀ item ∈ op.outputItems port row effect entries, Fails Ordinary item := by
  have hchecked : ∀ items : List Item, ∀ item ∈ items.map checkedItem, Fails Ordinary item := by
    intro items item hitem
    obtain ⟨i, -, rfl⟩ := List.mem_map.mp hitem
    exact checkedItem_fails i
  have hsingle : ∀ (c : Prop) [Decidable c] (own : Item) (item : Except EquiJoinError Item),
      item ∈ (if c then [.ok own] else []) → Fails Ordinary item := by
    intro c _ own item hitem
    split at hitem
    · rw [List.mem_singleton] at hitem
      exact .of_ok hitem
    · cases hitem
  intro item hitem
  unfold outputItems at hitem
  split at hitem
  · unfold existenceItems at hitem
    dsimp only at hitem
    split at hitem
    · exact hsingle _ _ item hitem
    · -- an opposite row starts or stops being matched
      cases htransition : effect.transition with
      | none =>
        rw [htransition] at hitem
        cases hitem
      | _ =>
        rw [htransition] at hitem
        obtain ⟨m, -, rfl⟩ := List.mem_map.mp hitem
        exact checkedItem_fails _
  · split at hitem
    · exact hsingle _ _ item hitem
    · obtain ⟨m, -, hitem⟩ := List.mem_flatMap.mp hitem
      exact hchecked _ item hitem

omit [DecidableEq Value] in
theorem plainPage_noResumeFault (row : PreparedRow) (effect : RowEffect) (cursor : JoinCursor)
    (output : ArrowOutput Value) (t : Scope JoinState) :
    Raises NoResumeFault (op.plainPage port row effect cursor output) t := by
  refine .bind ?_ fun found _ _ => .bind (StepBudget.raises_consumeHead noResumeFault_budget _ _) fun _ _ _ =>
    .bind ((op.extend_raises _ (fun item hitem => ?_) _ _).imp fun _ => Ordinary.noResumeFault)
      fun _ _ _ => .pure _
  · unfold scanMatches
    refine .ite (fun _ => .pure _) fun _ => .get <| .ite (fun _ => .pure _) fun _ => .bind ?_
      fun _ _ _ => .pure _
    exact (scanOpposite_raises _ _ _ _ _).imp fun _ => Ordinary.noResumeFault
  · exact outputItems_noResumeFault _ _ _ item hitem

theorem residualPage_noResumeFault
    {residual : Row Value → Except OperationError (Option Bool)}
    {tail : List (Row Value × Int)} {effect : RowEffect} {after : Nat}
    (hresidual : op.residual = some residual) {t : Scope JoinState}
    (h : op.Placed port (event :: tail) t.state cursor)
    (heffect : op.eventEffect (op.prepared port event)
      (t.state.rows port (op.prepared port event).key) = .ok (effect, after))
    (output : ArrowOutput Value) : Raises NoResumeFault
      (op.residualPage residual port (op.prepared port event) effect cursor output) t := by
  have hsome : op.residual.isSome = true := by rw [hresidual]; rfl
  refine .get <| .bind (.ofExcept (h.carriedMatch hsome heffect)) fun _ _ _ =>
    .bind ((op.scanResidualMatches_raises _ _ _ _ _ _).imp fun _ => Ordinary.noResumeFault)
      fun scanned _ _ => ?_
  cases scanned with
  | none => exact .pure _
  | some page =>
    refine .bind (StepBudget.raises_consumeHead noResumeFault_budget _ _) fun _ _ _ => .bind ?_ fun _ _ _ => .pure _
    refine .get <| .bind (.ofExcept (settleCounts_noResumeFault _ _ _ _ _)) fun _ _ _ =>
      .bind (.modify _) fun _ _ _ => ?_
    exact (op.extend_checked_raises _ _ _ _).imp fun _ => Ordinary.noResumeFault

theorem driveRow_noResumeFault {tail : List (Row Value × Int)} {v : Driving Value}
    {t : Scope JoinState} (h : op.Placed port (event :: tail) t.state v.cursor) :
    Raises NoResumeFault (op.driveRow port (op.prepared port event) v) t := by
  refine .bind ((op.chargeRow_raises _ _).imp fun _ => Ordinary.noResumeFault) fun _ t₁ ht₁ =>
    .get <| .bind (.ofExcept ((op.eventEffect_fails _ _).imp fun _ => Ordinary.noResumeFault))
      fun r t₂ ht₂ => .bind ?_ fun result _ _ => ?_
  · obtain ⟨effect, after⟩ := r
    obtain ⟨heffect, rfl⟩ := ofExcept_eq_ok.mp ht₂
    rw [← op.chargeRow_state ht₁] at h
    unfold rowPage
    cases hresidual : op.residual with
    | none => exact plainPage_noResumeFault _ _ _ _ _
    | some residual => exact residualPage_noResumeFault hresidual h heffect _
  · match result with
    | none => exact .pure _
    | some (_, _, some _) => exact .pure _
    | some (_, _, none) => exact .bind (.modify _) fun _ _ _ => .get (.pure _)

theorem driveWindow_noResumeFault {window : List (Row Value × Int)} {v : Driving Value}
    {t : Scope JoinState} (hadmitted : ∀ e ∈ window, op.Admitted port e.1)
    (h : op.Placed port window t.state v.cursor) :
    Raises NoResumeFault (op.driveWindow port (window.map (op.prepared port)) v) t := by
  induction window generalizing v t with
  | nil => exact .pure _
  | cons event window ih =>
    rw [List.map_cons]
    unfold driveWindow
    refine .get <| .ite (fun _ => .pure _) fun _ => .bind (driveRow_noResumeFault h)
      fun r t₁ ht₁ => .ite (fun hmore => ?_) fun _ => .pure _
    obtain ⟨v₁, more⟩ := r
    -- only a completed event goes on to the next row, from a fresh cursor
    rcases op.driveRow_eq_ok ht₁ with ⟨-, rfl, -⟩ | ⟨-, -, -, -, rfl⟩ | ⟨-, -, hcursor, -⟩
    · cases hmore
    · cases hmore
    · exact ih (fun e he => hadmitted e (by simp [he])) (.inl hcursor)

/-- A page that starts at a placed position never reports the position. -/
theorem computeWindow_position (hvalid : op.validateInput port change = .ok ())
    (h : op.PlacedAt port change resume s) (budget : StepBudget) :
    Raises NoResumeFault (op.computeWindow port change resume) ⟨s, budget⟩ := by
  have hport := validateInput_eq_ok hvalid
  obtain ⟨cursor, hcursor, hplaced⟩ := h.cursor_ok hvalid
  refine .ofExcept_bind hcursor <| .get <| .ite (fun _ => .throw rfl) fun hlength =>
    .bind ((op.prepareWindow_raises _ _ _).imp fun _ => Ordinary.noResumeFault)
      fun window t ht => ?_
  obtain ⟨hstate, rfl, hadmitted⟩ := op.prepareWindow_eq_ok ht
  dsimp only at hlength hstate
  generalize hn : min budget.headRemaining (change.numRows - resume.ordinal) = n at *
  cases hdrop : change.events.drop resume.ordinal with
  | nil =>
    have := congrArg List.length hdrop
    have hinside := h.inside
    have hnumRows : change.numRows = change.events.length := rfl
    rw [List.length_drop, List.length_nil] at this
    omega
  | cons event tail =>
    rw [hdrop] at hplaced hadmitted
    obtain ⟨m, rfl⟩ : ∃ m, n = m + 1 := ⟨n - 1, by omega⟩
    rw [List.take_succ_cons] at hadmitted ⊢
    have hrest : op.Placed port (event :: tail.take m) t.state cursor := by
      rw [hstate]
      rcases hplaced with hfresh | ⟨event', tail', hevents, hat⟩
      · exact .inl hfresh
      · cases hevents
        exact .inr ⟨event, _, rfl, hat⟩
    rw [List.map_cons]
    refine .bind ?_ fun _ t₁ ht₁ => .bind ?_ fun v _ _ => .ite (fun _ => .throw rfl) fun _ =>
      .bind (.ofExcept ((finish_fails _ v.output).imp fun _ => Ordinary.noResumeFault))
        fun _ _ _ => .pure _
    · rcases hplaced with rfl | ⟨event', tail', hevents, hat⟩
      · exact .pure _
      · cases hevents
        exact hat.bound hport h.filed noResumeFault_budget
          (fun r _ t => (op.candidate_raises _ _ t).imp fun _ => Ordinary.noResumeFault) t
    · rw [← List.map_cons]
      refine driveWindow_noResumeFault hadmitted ?_
      rw [op.validateCursorBinding_state ht₁]
      exact hrest

omit [DecidableEq Value] in
/-- Without a residual, a valid cursor carries no match. -/
theorem cursor_plain (h : op.cursor port change resume = .ok cursor)
    (hplain : op.residual = none) : cursor.foundMatch = false := by
  unfold EquiJoinOperation.cursor at h
  cases hvalid : op.validateInput port change with
  | error e =>
    rw [hvalid] at h
    cases h
  | ok u =>
    rw [hvalid] at h
    dsimp only at h
    split at h
    · split at h
      · cases h
      · next hnot =>
        cases h
        rw [hplain] at hnot
        simpa using fun hfound => hnot (.inr (.inr ⟨rfl, hfound⟩))
    · cases h

/-- A page keeps the rows filed, and whatever position it leaves is placed. -/
theorem computeWindow_settles {output : Option (Change (Row Value))} {progress : Progress}
    (hfiled : op.Filed s)
    (hstep : Performs (op.paged.step port change resume) s ⟨output, progress⟩ s') :
    op.Filed s' ∧ ∀ r, progress = .more r → op.PlacedAt port change r s' := by
  obtain ⟨budget, budget', hstep⟩ := hstep
  have hpage := adaptExcept_eq_ok.mp hstep
  have hmoved := computeWindow_ne.of_ok trivial hpage
  obtain ⟨cursor₀, t₀, ht₀, -⟩ := bind_eq_ok.mp hpage
  obtain ⟨hcursor, -⟩ := ofExcept_eq_ok.mp ht₀
  obtain ⟨-, hresume₀, -⟩ := op.cursor_eq_ok hcursor
  obtain ⟨cursor, cursor', n, hport, hresume, hdrives, hle, hprogress⟩ :=
    op.computeWindow_eq_ok hpage
  obtain rfl : cursor₀ = cursor := by
    rw [hresume] at hresume₀
    cases hresume₀
    rfl
  have hfiled' := hdrives.filed hport hfiled
  refine ⟨hfiled', fun r hmore => ?_⟩
  rw [hmore] at hprogress hmoved
  split at hprogress
  · cases hprogress
  next hopen =>
  cases hprogress
  refine ⟨hfiled', by dsimp only; omega, cursor', rfl, ?_⟩
  rcases hdrives.settled (cursor_plain hcursor) with ⟨hsame, rfl, -⟩ | hplaced
  · -- nothing moved, which the page reports as an exhausted allowance
    have hlength := congrArg List.length hsame
    have hnumRows : change.numRows = change.events.length := rfl
    rw [List.length_drop, List.length_drop] at hlength
    obtain rfl : n = 0 := by omega
    obtain ⟨ordinal, kernel⟩ := resume
    cases hresume
    exact absurd rfl hmoved
  · exact hplaced

/-- A page that leaves a position leaves a placed one, further on. -/
theorem computeWindow_more {output : Option (Change (Row Value))} {r : Resume}
    (h : op.PlacedAt port change resume s)
    (hstep : Performs (op.paged.step port change resume) s ⟨output, .more r⟩ s') :
    op.PlacedAt port change r s' ∧ resume.Before r ∧
      op.leftOver port change r s' < op.leftOver port change resume s := by
  refine ⟨(computeWindow_settles h.filed hstep).2 r rfl, ?_⟩
  obtain ⟨budget, budget', hstep⟩ := hstep
  have hpage := adaptExcept_eq_ok.mp hstep
  have hmoved := computeWindow_ne.of_ok trivial hpage
  obtain ⟨cursor, cursor', n, -, hresume, hdrives, hle, hprogress⟩ := op.computeWindow_eq_ok hpage
  obtain ⟨cursor₀, hcursor₀, hplaced⟩ := h.placed
  obtain rfl : cursor₀ = cursor := by
    rw [hresume] at hcursor₀
    cases hcursor₀
    rfl
  split at hprogress
  · cases hprogress
  next hopen =>
  cases hprogress
  have hinside := h.inside
  have hnumRows : change.numRows = change.events.length := rfl
  rcases hdrives.advance hplaced with hshort | ⟨hsame, ⟨rfl, rfl⟩ | ⟨hlater, hfewer⟩⟩
  · -- a later event
    rw [List.length_drop, List.length_drop] at hshort
    refine ⟨.inl (by dsimp only; omega), Prod.Lex.toLex_lt_toLex.mpr (.inl ?_)⟩
    dsimp only
    omega
  · -- nothing moved, which the page reports as an exhausted allowance
    have hlength := congrArg List.length hsame
    rw [List.length_drop, List.length_drop] at hlength
    obtain rfl : n = 0 := by omega
    obtain ⟨ordinal, kernel⟩ := resume
    cases hresume
    exact absurd rfl hmoved
  · -- a later candidate of the same event
    have hlength := congrArg List.length hsame
    rw [List.length_drop, List.length_drop] at hlength
    obtain rfl : n = 0 := by omega
    rw [Nat.add_zero] at hfewer ⊢
    refine ⟨.inr ⟨rfl, ?_⟩, Prod.Lex.toLex_lt_toLex.mpr (.inr ⟨rfl, ?_⟩)⟩
    · rw [hresume]
      exact hlater
    · rw [hresume]
      exact hfewer

end EquiJoinOperation

end Dogpaddle.EquiJoin
