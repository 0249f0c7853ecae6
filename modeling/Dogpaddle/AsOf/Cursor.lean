import Dogpaddle.AsOf.Exact
import Dogpaddle.Operation.Position

/-!
# Cursors of the ordered join

* `Filed`: every stored key is the index key of an admitted row.
* `Placed`: a run stands at the start of its next event, or at a left row in the range of a
  right one.
* `AtLeft.bound`: that left row is eligible for the event.
* `step_position`: a page from a placed position never reports it.
* `step_settles`, `step_more`: what a page leaves is placed, and further on.
-/

namespace Dogpaddle.AsOf

open Lib Store Dogpaddle.Relation

variable {Ty Value : Type} [DecidableEq Value]

namespace AsOfJoinOperation

variable (op : AsOfJoinOperation Ty Value)

/-- Every stored key is the index key of an admitted row. -/
def Filed (s : AsOfState) : Prop :=
  ∀ port < 2, ∀ key, 0 < multiplicity (s.rows port) key →
    ∃ r, op.Admitted port r ∧ key = op.indexKey port r

/-- A cursor at a stored left row in the range of a right event. -/
structure AtLeft (event : Row Value × Int) (s : AsOfState) (cursor : AsOfCursor) : Prop where
  admitted : op.Admitted 1 event.1
  visited : ∃ after range next key,
    checkedWeight (multiplicity s.rightRows (op.prepared 1 event).key) event.2 = .ok after ∧
    ¬ Quiet (op.prepared 1 event) (multiplicity s.rightRows (op.prepared 1 event).key) after ∧
    op.Influence (op.prepared 1 event) s range next ∧ cursor.leftResumeAfter = some key ∧
    rangeContains range key = true ∧ 0 < multiplicity s.leftRows key

/-- Where a run stands in its input. -/
def Placed (port : Nat) (events : List (Row Value × Int)) (s : AsOfState)
    (cursor : AsOfCursor) : Prop :=
  cursor = freshCursor ∨
    port = 1 ∧ ∃ event tail, events = event :: tail ∧ op.AtLeft event s cursor

/-- A position of an input, in a state. -/
structure PlacedAt (port : Nat) (change : Change (Row Value)) (resume : Resume)
    (s : AsOfState) : Prop where
  filed : op.Filed s
  inside : resume.ordinal < change.numRows
  placed : ∃ cursor, resume.cursor = .asOf cursor ∧
    op.Placed port (change.events.drop resume.ordinal) s cursor

omit [DecidableEq Value] in
/-- The left rows after a key. -/
def leftsAfter (s : AsOfState) (resumeAfter : Option Bytes) : List (Bytes × ℕ+) :=
  s.leftRows.entries.filter fun e => resumeAfter.all fun key => decide (key < e.1)

/-- The events left in an input, and the left rows after the position. -/
def leftOver (change : Change (Row Value)) (resume : Resume) (s : AsOfState) : Nat ×ₗ Nat :=
  toLex (change.numRows - resume.ordinal, (leftsAfter s resume.cursor.key).length)

variable {op} {port : Nat} {event : Row Value × Int} {events rest : List (Row Value × Int)}
  {s s' : AsOfState} {cursor cursor' : AsOfCursor} {out : List (Row Value × Int)}

/-! ## Pages and positions -/

theorem filed_initial : op.Filed AsOfState.initial := by
  intro port hport key h
  exact ((op.stored_initial port).rows key h)

open scoped Classical in
/-- Filed rows are the stored rows of a relation. -/
theorem Filed.stored (h : op.Filed s) (hport : port < 2) :
    ∃ relation, op.Stored s port relation := by
  refine ⟨fun r => if op.Admitted port r then
    ((multiplicity (s.rows port) (op.indexKey port r) : Nat) : Int) else 0, ?_, ?_, ?_⟩
  · intro r hr
    exact (if_pos hr).symm
  · intro r hr
    exact if_neg hr
  · exact h port hport

theorem Filed.setRow (hport : port < 2) (h : op.Filed s) (hx : op.Admitted port event.1)
    (after : Nat) : op.Filed (s.setRow port (op.prepared port event).key after) := by
  rw [op.prepared_eq]
  intro q hq key hpos
  rw [rows_setRow hport hq] at hpos
  split at hpos
  · next hsame =>
    subst hsame
    rw [multiplicity_setMultiplicity] at hpos
    split at hpos
    · next hkey => exact ⟨event.1, hx, hkey⟩
    · exact h q hq key hpos
  · exact h q hq key hpos

omit [DecidableEq Value] in
theorem mem_rangeAfter {range : Range} {resumeAfter : Option Bytes} {key : Bytes} {w : ℕ+}
    (h : (key, w) ∈ rangeAfter s range resumeAfter) :
    rangeContains range key = true ∧ 0 < multiplicity s.leftRows key ∧
      resumeAfter < some key := by
  obtain ⟨hmem, hafter⟩ := mem_remaining_ascending h
  obtain ⟨hentry, hlow, hup⟩ := mem_inRange.mp hmem
  refine ⟨?_, ?_, hafter⟩
  · unfold rangeContains
    rw [Bool.and_eq_true]
    exact ⟨hlow, hup⟩
  · rw [(mem_entries_iff_multiplicity _ key w).mp hentry]
    exact w.pos

theorem all_lt_iff {resumeAfter : Option Bytes} {key : Bytes} :
    (resumeAfter.all fun k => decide (k < key)) = true ↔ resumeAfter < some key := by
  cases resumeAfter with
  | none => simp
  | some k => simp

omit [DecidableEq Value] in
/-- Fewer left rows follow a later key that one of them has. -/
theorem leftsAfter_lt {resumeAfter : Option Bytes} {key : Bytes}
    (hpos : 0 < multiplicity s.leftRows key) (hlt : resumeAfter < some key) :
    (leftsAfter s (some key)).length < (leftsAfter s resumeAfter).length := by
  have hmem : (key, (⟨multiplicity s.leftRows key, hpos⟩ : ℕ+)) ∈ s.leftRows.entries :=
    (mem_entries_iff_multiplicity _ _ _).mpr rfl
  have hsub : leftsAfter s (some key) =
      (leftsAfter s resumeAfter).filter fun e => decide (key < e.1) := by
    unfold leftsAfter
    rw [List.filter_filter]
    apply List.filter_congr
    intro e _
    rw [Option.all_some]
    by_cases hkey : key < e.1
    · rw [decide_eq_true hkey, Bool.true_and]
      exact (all_lt_iff.mpr (key_lt_trans hlt (Option.some_lt_some.mpr hkey))).symm
    · rw [decide_eq_false hkey, Bool.false_and]
  rw [hsub]
  -- the entry of the key itself is left out
  apply List.length_filter_lt_length_iff_exists.mpr
  refine ⟨_, List.mem_filter.mpr ⟨hmem, all_lt_iff.mpr hlt⟩, ?_⟩
  simp

theorem Partial.atLeft (hx : op.Admitted 1 event.1)
    (h : op.Partial (op.prepared 1 event) s cursor out cursor') :
    op.AtLeft event s cursor' ∧ cursor.leftResumeAfter < cursor'.leftResumeAfter ∧
      (leftsAfter s cursor'.leftResumeAfter).length <
        (leftsAfter s cursor.leftResumeAfter).length := by
  obtain ⟨after, range, next, entries, key, hafter, hloud, hinfluence, hpage, -, rfl⟩ := h.visited
  obtain ⟨hlast, -, hentries⟩ := hpage
  obtain ⟨w, hw⟩ := mem_of_getLast?_key hlast
  obtain ⟨hrange, hpos, hlater⟩ := mem_rangeAfter (show (key, w) ∈
    rangeAfter s range cursor.leftResumeAfter by
      rw [hentries]
      exact List.mem_append_left _ hw)
  have hdifference : (op.prepared 1 event).difference = event.2 := by rw [op.prepared_eq]
  rw [hdifference] at hafter
  exact ⟨⟨hx, after, range, next, key, hafter, hloud, hinfluence, rfl, hrange, hpos⟩, hlater,
    leftsAfter_lt hpos hlater⟩

omit [DecidableEq Value] in
/-- A completed event stores its row. -/
theorem Completes.stores {row : PreparedRow} (hport : port < 2)
    (h : op.Completes port row s cursor out s') :
    ∃ after, s' = s.setRow port row.key after := by
  unfold Completes at h
  split at h
  · next hzero =>
    obtain ⟨after, _, _, _, _, _, _, _, _, rfl⟩ := h
    exact ⟨after, by rw [hzero]⟩
  · next hone =>
    obtain ⟨after, _, rfl, _⟩ := h.visited
    have hone : port = 1 := by omega
    exact ⟨after, by rw [hone]⟩

/-- Driven events keep the rows filed. -/
theorem Drives.filed (hport : port < 2) (h : op.Drives port events cursor s out rest cursor' s')
    (hfiled : op.Filed s) : op.Filed s' := by
  induction h with
  | refl => exact hfiled
  | part _ _ _ _ ih => exact ih hfiled
  | full hx _ hcompletes _ ih =>
    obtain ⟨after, rfl⟩ := hcompletes.stores hport
    exact ih (hfiled.setRow hport hx after)

/-- Driven events leave the run where it was, or placed. -/
theorem Drives.settled (hport : port < 2) (hleft : port = 0 → cursor = freshCursor)
    (h : op.Drives port events cursor s out rest cursor' s') :
    (rest = events ∧ cursor' = cursor ∧ s' = s) ∨ op.Placed port rest s' cursor' := by
  induction h with
  | refl => exact .inl ⟨rfl, rfl, rfl⟩
  | @part event events rest cursor cursor₁ cursor' s s' out out' hx hne hpart _ ih =>
    right
    have hone : port = 1 := by omega
    subst hone
    have hat := (hpart.atLeft hx).1
    rcases ih (fun hzero => by cases hzero) with ⟨rfl, rfl, rfl⟩ | hplaced
    · exact .inr ⟨rfl, event, events, rfl, hat⟩
    · exact hplaced
  | @full event events rest cursor cursor₁ cursor' s s₁ s' out out' _ hcursor _ _ ih =>
    right
    have hfresh : cursor₁ = freshCursor := by
      rw [hcursor]
      split
      · next hzero => exact hleft hzero
      · rfl
    rcases ih fun _ => hfresh with ⟨rfl, rfl, rfl⟩ | hplaced
    · exact .inl hfresh
    · exact hplaced

theorem Placed.left (h : op.Placed port events s cursor) (hzero : port = 0) :
    cursor = freshCursor := by
  rcases h with rfl | ⟨hone, -⟩
  · rfl
  · omega

/-- Driven events move on: to a later event, or to a later left row of the same one. -/
theorem Drives.advance (hport : port < 2) (hleft : port = 0 → cursor = freshCursor)
    (h : op.Drives port events cursor s out rest cursor' s') :
    rest.length < events.length ∨ rest = events ∧ (cursor' = cursor ∧ s' = s ∨
      cursor.leftResumeAfter < cursor'.leftResumeAfter ∧
        (leftsAfter s' cursor'.leftResumeAfter).length <
          (leftsAfter s cursor.leftResumeAfter).length) := by
  induction h with
  | refl => exact .inr ⟨rfl, .inl ⟨rfl, rfl⟩⟩
  | @part event events rest cursor cursor₁ cursor' s s' out out' hx hne hpart _ ih =>
    have hone : port = 1 := by omega
    subst hone
    obtain ⟨-, hlater, hless⟩ := hpart.atLeft hx
    rcases ih (fun hzero => by cases hzero) with hshort | ⟨rfl, ⟨rfl, rfl⟩ | ⟨hmore, hfewer⟩⟩
    · exact .inl hshort
    · exact .inr ⟨rfl, .inr ⟨hlater, hless⟩⟩
    · exact .inr ⟨rfl, .inr ⟨key_lt_trans hlater hmore, lt_trans hfewer hless⟩⟩
  | @full event events rest cursor cursor₁ cursor' s s₁ s' out out' _ hcursor _ _ ih =>
    left
    have hfresh : port = 0 → cursor₁ = freshCursor := by
      intro hzero
      rw [hcursor, if_pos hzero]
      exact hleft hzero
    rcases ih hfresh with hshort | ⟨rfl, -⟩
    · exact lt_trans hshort (Nat.lt_succ_self _)
    · exact Nat.lt_succ_self _

/-! ## One page -/

variable {change : Change (Row Value)} {resume : Resume}

/-- A page never leaves the position it started from. -/
theorem step_ne : Triple (fun _ => True) (op.step port change resume)
    (fun step _ => step.progress ≠ .more resume) fun _ => True := by
  refine .bind (.any _) fun cursor => .get fun t _ =>
    .ite (fun _ => .throw _ fun _ _ => trivial) fun _ => .bind (.any _) fun window => ?_
  cases window with
  | nil => exact .bind (Q := fun _ _ => False) (.throw _ fun _ _ => trivial) fun _ _ h => h.elim
  | cons driving rest =>
    refine .bind (.any _) fun _ => .bind (.any _) fun v =>
      .ite (fun _ => .throw _ fun _ _ => trivial) fun hne => .bind (.any _) fun output => ?_
    exact .pure _ fun _ _ => hne

theorem PlacedAt.initial (hfiled : op.Filed s) : op.PlacedAt port change initialResume s :=
  ⟨hfiled, change.numRows_pos, freshCursor, rfl, .inl rfl⟩

/-! ## The left row of a position -/

omit [DecidableEq Value] in
/-- A right row below a left one is eligible for it. -/
theorem eligible_of_below {left right : Bytes}
    (h : Below op.direction.further op.direction.allowExact right left) :
    op.eligible left right = true := by
  unfold eligible
  cases hdirection : op.direction with
  | backward exact =>
    rw [hdirection] at h
    have h := (below_backward exact).mp h
    cases exact with
    | true =>
      rw [if_pos rfl] at h
      rcases h.lt_or_eq with hlt | heq
      · simp [hlt]
      · simp [heq]
    | false => simpa using h
  | forward exact =>
    rw [hdirection] at h
    have h := (below_forward exact).mp h
    cases exact with
    | true => simpa [le_iff_lt_or_eq] using h
    | false => simpa using h

/-- The left row of a position is an admitted row for which the event is eligible. -/
theorem AtLeft.row (hfiled : op.Filed s) (h : op.AtLeft event s cursor) :
    ∃ l, op.Admitted 0 l ∧ cursor.leftResumeAfter = some (op.indexKey 0 l) ∧
      op.rowMatchable 1 event.1 = true ∧ op.rowPartition 0 l = op.rowPartition 1 event.1 ∧
      (op.rowOrder 0 l).head? = some 1 ∧
      op.eligible (op.rowOrder 0 l) (op.rowOrder 1 event.1) = true := by
  obtain ⟨after, range, next, key, -, hloud, hinfluence, hkey, hrange, hpos⟩ := h.visited
  obtain ⟨l, hl, rfl⟩ := hfiled 0 (by omega) key hpos
  obtain ⟨right, hright⟩ : ∃ right, op.Stored s 1 right := hfiled.stored (by omega)
  have hmatchable : op.rowMatchable 1 event.1 = true := by
    by_contra hnot
    apply hloud
    left
    rw [op.prepared_eq]
    exact hnot
  obtain ⟨outer, -, hcontains⟩ := around_of_influence (d := event.2) hright h.admitted hmatchable
    hinfluence
  obtain ⟨hpartition, hhead, hbelow, -⟩ := (hcontains l).mp hrange
  exact ⟨l, hl, hkey, hmatchable, hpartition, hhead, eligible_of_below hbelow⟩

/-- The binding of a left row holds: what can fail is reading the row. -/
theorem AtLeft.bound {P : AsOfJoinError → Prop} (hfiled : op.Filed s)
    (h : op.AtLeft event s cursor) (hbudget : P .budget)
    (hread : ∀ l, op.Admitted 0 l → ∀ t, Raises P (admitRow op.fmt op.leftSchema
      (op.rowBytes 0 l) : AsOfAttempt Unit) t) (t : Scope AsOfState) :
    Raises P (op.validateCursorBinding cursor (op.prepared 1 event)) t := by
  obtain ⟨l, hl, hkey, hmatchable, hpartition, hhead, heligible⟩ := h.row hfiled
  unfold validateCursorBinding
  rw [hkey, op.prepared_eq]
  dsimp only
  refine .bind (StepBudget.raises_charge hbudget _ _) fun _ _ _ =>
    .ofExcept_bind (by rw [parseRowKey_indexKey]; rfl) <| .ite (fun hnot => ?_) fun _ =>
      .bind (raises_admitBatchShape op.fmt hbudget _ _) fun _ _ _ =>
        .bind (hread l hl _) fun _ _ _ => .ofExcept_bind (a := l) ?_ (.pure _)
  · rcases hnot with hnot | hnot | hnot | hnot
    · exact absurd hmatchable hnot
    · exact absurd hpartition hnot
    · exact absurd hhead hnot
    · exact absurd heligible hnot
  · have hdecodes : op.fmt.decodeRow op.leftSchema (op.rowBytes 0 l) = .ok l := hl.decodes
    rw [hdecodes]
    rfl

omit [DecidableEq Value] in
theorem validateInput_eq_ok (h : op.validateInput port change = .ok ()) : port < 2 := by
  unfold validateInput at h
  split at h
  · cases h
  · omega

omit [DecidableEq Value] in
theorem cursor_ok (hvalid : op.validateInput port change = .ok ())
    (hcursor : resume.cursor = .asOf cursor) (hinside : resume.ordinal < change.numRows)
    (hleft : port = 0 → cursor = freshCursor) :
    op.cursor port change resume = .ok cursor := by
  unfold AsOfJoinOperation.cursor
  rw [hvalid, hcursor]
  apply if_neg
  intro hnot
  rcases hnot with houtside | ⟨hzero, hsome⟩
  · omega
  · rw [hleft hzero] at hsome
    cases hsome

theorem PlacedAt.cursor_ok (hvalid : op.validateInput port change = .ok ())
    (h : op.PlacedAt port change resume s) : ∃ cursor, op.cursor port change resume = .ok cursor ∧
      op.Placed port (change.events.drop resume.ordinal) s cursor := by
  obtain ⟨cursor, hcursor, hplaced⟩ := h.placed
  exact ⟨cursor, AsOfJoinOperation.cursor_ok hvalid hcursor h.inside hplaced.left, hplaced⟩

/-! ## Pages of a placed run -/

/-- Errors that say nothing against the position. -/
def NoResumeFault (e : AsOfJoinError) : Prop := e.resumeFault = false

theorem noResumeFault_budget : NoResumeFault budgetExceeded := rfl

theorem Ordinary.noResumeFault {e : AsOfJoinError} (h : Ordinary e) : NoResumeFault e := h.2

theorem checked_noResumeFault (c : Candidates) : Fails NoResumeFault c.checked :=
  .ite (fun _ => .error rfl) fun _ => .of_ok rfl

omit [DecidableEq Value] in
theorem leftRow_noResumeFault (row : PreparedRow) (after : Nat) (output : ArrowOutput Value)
    (t : Scope AsOfState) : Raises NoResumeFault (op.leftRow row after output) t := by
  refine .bind ((op.select_raises _ _).imp fun _ => Ordinary.noResumeFault) fun c _ _ =>
    .bind (.ofExcept (checked_noResumeFault c)) fun winner _ _ =>
      .bind ((ordinary_index _ _).imp fun _ => Ordinary.noResumeFault) fun left _ _ =>
        .bind ((op.extend_raises ?_ _ _).imp fun _ => Ordinary.noResumeFault) fun _ _ _ =>
          .bind ((applyWeight_raises _ _ _ _).imp fun _ => Ordinary.noResumeFault) fun _ _ _ =>
            .bind (StepBudget.raises_consumeHead noResumeFault_budget _ _) fun _ _ _ => .pure _
  intro item hitem
  rw [List.mem_singleton.mp hitem]
  exact .of_ok rfl

theorem winners_noResumeFault (right : PreparedRow) (present : Bool) (next : Option Bytes)
    (t : Scope AsOfState) : Raises NoResumeFault (winners right present next) t :=
  .bind ((bucket_raises _ _ _ _).imp fun _ => Ordinary.noResumeFault) fun _ _ _ =>
    .bind ((bucket_raises _ _ _ _).imp fun _ => Ordinary.noResumeFault) fun _ _ _ =>
      .bind ((replacementBucket_raises _ _ _ _).imp fun _ => Ordinary.noResumeFault)
        fun _ _ _ => .bind (.ofExcept (checked_noResumeFault _)) fun _ _ _ =>
          .bind (.ofExcept (checked_noResumeFault _)) fun _ _ _ =>
            .bind (.ofExcept (checked_noResumeFault _)) fun _ _ _ => .pure _

omit [DecidableEq Value] in
theorem correctPage_noResumeFault (right : PreparedRow) (present : Bool) (next : Option Bytes)
    (entries : List (Bytes × ℕ+)) (output : ArrowOutput Value) (t : Scope AsOfState) :
    Raises NoResumeFault (op.correctPage right present next entries output) t := by
  refine .ite (fun _ => .pure _) fun _ => .bind (winners_noResumeFault _ _ _ _) fun r _ _ =>
    .ite (fun _ => (op.extend_raises ?_ _ _).imp fun _ => Ordinary.noResumeFault)
      fun _ => .pure _
  intro item hitem
  obtain ⟨entry, -, hitem⟩ := List.mem_flatMap.mp hitem
  exact correction_fails _ _ _ item hitem

/-- A page of a right event never reports a placed position. -/
theorem rightPage_noResumeFault {tail : List (Row Value × Int)} {after : Nat}
    {output : ArrowOutput Value} {t : Scope AsOfState}
    (h : op.Placed 1 (event :: tail) t.state cursor)
    (hafter : checkedWeight (multiplicity t.state.rightRows (op.prepared 1 event).key) event.2 =
      .ok after) :
    Raises NoResumeFault (op.rightPage (op.prepared 1 event)
      (multiplicity t.state.rightRows (op.prepared 1 event).key) after cursor output) t := by
  refine .ite (fun hquiet => .ite (fun hsome => ?_) fun _ => ?_) fun _ => ?_
  · -- an event without influence has visited no left row
    exfalso
    rcases h with rfl | ⟨-, event', tail', heq, hat⟩
    · cases hsome
    · cases heq
      obtain ⟨after', _, _, _, hafter', hloud, -⟩ := hat.visited
      obtain rfl : after = after' := Except.ok.inj (hafter.symm.trans hafter')
      exact hloud hquiet
  · exact .bind (StepBudget.raises_consumeHead noResumeFault_budget _ _) fun _ _ _ =>
      .bind ((applyWeight_raises _ _ _ _).imp fun _ => Ordinary.noResumeFault) fun _ _ _ =>
        .pure _
  refine .bind ((neighbor_raises _ _ _).imp fun _ => Ordinary.noResumeFault) fun outer t₁ ht₁ =>
    .bind ((neighbor_raises _ _ _).imp fun _ => Ordinary.noResumeFault) fun next t₂ ht₂ => ?_
  obtain ⟨hstate₁, houter⟩ := neighbor_eq_ok ht₁
  obtain ⟨hstate₂, hnext⟩ := neighbor_eq_ok ht₂
  rw [hstate₁] at hstate₂ hnext
  refine .bind ?_ fun _ t₃ _ => .get <| .bind ((scan_raises _ _ _ _ _ _ _).imp fun _ =>
    Ordinary.noResumeFault) fun page _ _ => .bind (StepBudget.raises_consumeHead
      noResumeFault_budget _ _) fun _ _ _ => .bind (op.correctPage_noResumeFault _ _ _ _ _ _)
        fun _ _ _ => ?_
  · rcases h with rfl | ⟨-, event', tail', heq, hat⟩
    · exact .pure _
    cases heq
    obtain ⟨_, range, next', key, -, -, hinfluence, hkey, hrange, hpos⟩ := hat.visited
    obtain ⟨rfl, -⟩ := hinfluence.unique ⟨outer, houter, hnext, rfl⟩
    unfold checkPosition
    rw [hkey]
    dsimp only
    refine .ite (fun hout => absurd hrange hout) fun _ =>
      .bind ((ordinary_charge _ _).imp fun _ => Ordinary.noResumeFault) fun _ t₄ ht₄ => .get <|
        .ite (fun hnone => ?_) fun _ => .pure _
    -- the left row of the position is stored
    rw [(StepBudget.charge_eq_ok ht₄).1, hstate₂] at hnone
    rw [Option.isNone_iff_eq_none] at hnone
    unfold Store.multiplicity at hpos
    rw [hnone] at hpos
    exact absurd hpos (lt_irrefl _)
  · cases page.continuation with
    | some key => exact .pure _
    | none =>
      exact .bind ((applyWeight_raises _ _ _ _).imp fun _ => Ordinary.noResumeFault)
        fun _ _ _ => .pure _

theorem driveRow_noResumeFault {tail : List (Row Value × Int)} {v : Driving Value}
    {t : Scope AsOfState} (hport : port < 2)
    (h : op.Placed port (event :: tail) t.state v.cursor) :
    Raises NoResumeFault (op.driveRow port (op.prepared port event) v) t := by
  refine .bind ((ordinary_charge _ _).imp fun _ => Ordinary.noResumeFault) fun _ t₁ ht₁ => .get <|
    .bind ((Raises.ofExcept (checkedWeight_fails _ _)).imp fun _ => Ordinary.noResumeFault)
      fun after t₂ ht₂ => .ite (fun _ => .bind (leftRow_noResumeFault _ _ _ _) fun _ _ _ =>
        .pure _) fun hne => .bind ?_ fun _ _ _ => .pure _
  obtain ⟨hafter, rfl⟩ := ofExcept_eq_ok.mp ht₂
  have hone : port = 1 := by omega
  subst hone
  rw [← (StepBudget.charge_eq_ok ht₁).1] at h
  have hdifference : (op.prepared 1 event).difference = event.2 := by rw [op.prepared_eq]
  rw [hdifference] at hafter
  exact rightPage_noResumeFault h hafter

theorem driveWindow_noResumeFault {window : List (Row Value × Int)} {v : Driving Value}
    {t : Scope AsOfState} (hport : port < 2)
    (h : op.Placed port window t.state v.cursor) :
    Raises NoResumeFault (op.driveWindow port (window.map (op.prepared port)) v) t := by
  induction window generalizing v t with
  | nil => exact .pure _
  | cons event window ih =>
    rw [List.map_cons]
    unfold driveWindow
    refine .get <| .ite (fun _ => .pure _) fun _ => .bind (driveRow_noResumeFault hport h)
      fun r t₁ ht₁ => .ite (fun hcomplete => ?_) fun _ => .pure _
    -- only a completed event goes on to the next row, from a fresh cursor
    obtain ⟨v₁, complete⟩ := r
    obtain ⟨out, -, hrow⟩ := op.driveRow_eq_ok ht₁
    rw [if_pos hcomplete] at hrow
    apply ih
    left
    show v₁.cursor = freshCursor
    rw [hrow.2.2]
    split
    · next hzero => exact h.left hzero
    · rfl

/-- A page that starts at a placed position never reports the position. -/
theorem step_position (hvalid : op.validateInput port change = .ok ())
    (h : op.PlacedAt port change resume s) (budget : StepBudget) :
    Raises NoResumeFault (op.step port change resume) ⟨s, budget⟩ := by
  have hport := validateInput_eq_ok hvalid
  obtain ⟨cursor, hcursor, hplaced⟩ := h.cursor_ok hvalid
  refine .ofExcept_bind hcursor <| .get <| .ite (fun _ => .throw rfl) fun hlength =>
    .bind ((op.prepare_raises _ _ _).imp fun _ => Ordinary.noResumeFault) fun window t ht => ?_
  obtain ⟨hstate, rfl, -⟩ := op.prepare_eq_ok ht
  dsimp only at hlength hstate
  generalize hn : min budget.headRemaining (change.numRows - resume.ordinal) = n at *
  cases hdrop : change.events.drop resume.ordinal with
  | nil =>
    have := congrArg List.length hdrop
    have hinside := h.inside
    have hnumRows : change.numRows = change.events.length := rfl
    rw [List.length_drop, List.length_nil] at this
    omega
  | cons event tail =>
    rw [hdrop] at hplaced
    obtain ⟨m, rfl⟩ : ∃ m, n = m + 1 := ⟨n - 1, by omega⟩
    rw [List.take_succ_cons]
    have hrest : op.Placed port (event :: tail.take m) t.state cursor := by
      rw [hstate]
      rcases hplaced with hfresh | ⟨hone, event', tail', hevents, hat⟩
      · exact .inl hfresh
      · cases hevents
        exact .inr ⟨hone, event, _, rfl, hat⟩
    rw [List.map_cons]
    refine .bind ?_ fun _ t₁ ht₁ => .bind ?_ fun v _ _ => .ite (fun _ => .throw rfl) fun _ =>
      .bind (.ofExcept ((finish_fails _ v.output).imp fun _ => Ordinary.noResumeFault))
        fun _ _ _ => .pure _
    · rcases hplaced with rfl | ⟨rfl, event', tail', hevents, hat⟩
      · exact .pure _
      · cases hevents
        exact hat.bound h.filed noResumeFault_budget
          (fun l _ t => (raises_admitRow op.fmt ordinary_budget ordinary_row _ _ _).imp
            fun _ => Ordinary.noResumeFault) t
    · rw [← List.map_cons]
      apply driveWindow_noResumeFault hport
      rw [op.validateCursorBinding_state ht₁]
      exact hrest

/-- A page keeps the rows filed, and whatever position it leaves is placed. -/
theorem step_settles {output : Option (Change (Row Value))} {progress : Progress}
    (hfiled : op.Filed s)
    (hstep : Performs (op.paged.step port change resume) s ⟨output, progress⟩ s') :
    op.Filed s' ∧ ∀ r, progress = .more r → op.PlacedAt port change r s' := by
  obtain ⟨budget, budget', hstep⟩ := hstep
  have hpage := adaptExcept_eq_ok.mp hstep
  have hmoved := step_ne.of_ok trivial hpage
  obtain ⟨cursor, cursor', n, hport, hresume, hleft, hdrives, hle, hprogress⟩ :=
    op.step_eq_ok hpage
  have hfiled' := hdrives.filed hport hfiled
  refine ⟨hfiled', fun r hmore => ?_⟩
  rw [hmore] at hprogress hmoved
  split at hprogress
  · cases hprogress
  next hopen =>
  cases hprogress
  refine ⟨hfiled', by dsimp only; omega, cursor', rfl, ?_⟩
  rcases hdrives.settled hport hleft with ⟨hsame, rfl, -⟩ | hplaced
  · -- nothing moved, which the page reports as an exhausted allowance
    have hlength := congrArg List.length hsame
    have hnumRows : change.numRows = change.events.length := rfl
    rw [List.length_drop, List.length_drop] at hlength
    obtain rfl : n = 0 := by omega
    obtain ⟨ordinal, kernel⟩ := resume
    cases hresume
    exact absurd rfl hmoved
  · exact hplaced

/-- A page that leaves a position leaves a placed one, further on. -/
theorem step_more {output : Option (Change (Row Value))} {r : Resume}
    (h : op.PlacedAt port change resume s)
    (hstep : Performs (op.paged.step port change resume) s ⟨output, .more r⟩ s') :
    op.PlacedAt port change r s' ∧ resume.Before r ∧
      leftOver change r s' < leftOver change resume s := by
  refine ⟨(step_settles h.filed hstep).2 r rfl, ?_⟩
  obtain ⟨budget, budget', hstep⟩ := hstep
  have hpage := adaptExcept_eq_ok.mp hstep
  have hmoved := step_ne.of_ok trivial hpage
  obtain ⟨cursor, cursor', n, hport, hresume, hleft, hdrives, hle, hprogress⟩ :=
    op.step_eq_ok hpage
  split at hprogress
  · cases hprogress
  next hopen =>
  cases hprogress
  have hinside := h.inside
  have hnumRows : change.numRows = change.events.length := rfl
  rcases hdrives.advance hport hleft with hshort | ⟨hsame, ⟨rfl, rfl⟩ | ⟨hlater, hfewer⟩⟩
  · -- a later event
    rw [List.length_drop, List.length_drop] at hshort
    refine ⟨.inl (by dsimp only; omega), Prod.Lex.toLex_lt_toLex.mpr (.inl ?_)⟩
    dsimp only
    omega
  · -- nothing moved, which the page reports as an exhausted allowance
    have hlength := congrArg List.length hsame
    rw [List.length_drop, List.length_drop] at hlength
    obtain rfl : n = 0 := by omega
    obtain ⟨ordinal, kernel⟩ := resume
    cases hresume
    exact absurd rfl hmoved
  · -- a later left row of the same event
    have hlength := congrArg List.length hsame
    rw [List.length_drop, List.length_drop] at hlength
    obtain rfl : n = 0 := by omega
    rw [Nat.add_zero]
    refine ⟨.inr ⟨rfl, ?_⟩, Prod.Lex.toLex_lt_toLex.mpr (.inr ⟨rfl, ?_⟩)⟩
    · rw [hresume]
      exact hlater
    · rw [hresume]
      exact hfewer

end AsOfJoinOperation

end Dogpaddle.AsOf
