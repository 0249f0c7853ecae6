import Dogpaddle.AsOf.Failures
import Dogpaddle.AsOf.Winners
import Dogpaddle.EquiJoin.Plain

/-!
# The ordered join is incremental

* `Around`: the order values next to that of a right event, on both sides;
* `winners_won`, `won_outside`: a right event changes the winners of the left rows in its range,
  from the old one to the new one, and those of no others;
* `left_accounts`, `final_accounts`: an event puts out the change of the reference join;
* `asOfJoin_incremental`: any run of inputs puts out the reference join of what was put in.
-/

namespace Dogpaddle.AsOf

open Lib Store Dogpaddle.Relation

variable {Ty Value : Type} [DecidableEq Value]

namespace AsOfJoinOperation

variable {op : AsOfJoinOperation Ty Value} {s : AsOfState} {right right' : Bag (Row Value)}
  {x : Row Value} {d : Int}

/-! ## The range of a right event -/

variable (op) in
/-- The order values next to one of a partition: the nearer one, which bounds the range, and
the one further away, which takes over. -/
structure Around (right : Bag (Row Value)) (p o : Bytes) (outer next : Option Bytes) : Prop where
  outer_found : ∀ q, outer = some q →
    op.direction.further o q ∧ ∃ r, op.InPartition right p r ∧ op.rowOrder 1 r = q
  outer_least : ∀ r, op.InPartition right p r → op.direction.further o (op.rowOrder 1 r) →
    ∃ q, outer = some q ∧ ¬ op.direction.further (op.rowOrder 1 r) q
  next_found : ∀ q, next = some q →
    op.direction.further q o ∧ ∃ r, op.InPartition right p r ∧ op.rowOrder 1 r = q
  next_least : ∀ r, op.InPartition right p r → op.direction.further (op.rowOrder 1 r) o →
    ∃ q, next = some q ∧ ¬ op.direction.further q (op.rowOrder 1 r)

theorem beyond_not (forward : Bool) (a b : Bytes) : Beyond (!forward) a b ↔ Beyond forward b a := by
  cases forward <;> simp [Beyond]

theorem around_of_neighbors (h : op.Stored s 1 right) {row : PreparedRow}
    (hrow : row.order.head? = some 1) {outer next : Option Bytes}
    (houter : neighborAt s.rightRows row (!op.direction.isForward) = .ok outer)
    (hnext : neighborAt s.rightRows row op.direction.isForward = .ok next) :
    op.Around right row.partition row.order outer next := by
  have houter := neighbor_spec h hrow houter
  have hnext := neighbor_spec h hrow hnext
  refine ⟨?_, ?_, ?_, ?_⟩
  · intro q hq
    obtain ⟨hbeyond, hfound⟩ := houter.found q hq
    exact ⟨(further_iff_beyond _ _ _).mpr ((beyond_not _ _ _).mp hbeyond), hfound⟩
  · intro r hr hfurther
    obtain ⟨q, hq, hleast⟩ := houter.least r hr
      ((beyond_not _ _ _).mpr ((further_iff_beyond _ _ _).mp hfurther))
    refine ⟨q, hq, fun hlt => hleast ?_⟩
    exact (beyond_not _ _ _).mpr ((further_iff_beyond _ _ _).mp hlt)
  · intro q hq
    obtain ⟨hbeyond, hfound⟩ := hnext.found q hq
    exact ⟨(further_iff_beyond _ _ _).mpr hbeyond, hfound⟩
  · intro r hr hfurther
    obtain ⟨q, hq, hleast⟩ := hnext.least r hr ((further_iff_beyond _ _ _).mp hfurther)
    exact ⟨q, hq, fun hlt => hleast ((further_iff_beyond _ _ _).mp hlt)⟩

/-- Two relations of right rows that differ in the presence of one row only. -/
def SameBut (x : Row Value) (right right' : Bag (Row Value)) : Prop :=
  ∀ r, r ≠ x → (0 < right r ↔ 0 < right' r)

omit [DecidableEq Value] in
theorem SameBut.symm (h : SameBut x right right') : SameBut x right' right :=
  fun r hr => (h r hr).symm

/-- Presence of a row of an order value does not change the order values next to it. -/
theorem Around.congr {p : Bytes} {outer next : Option Bytes}
    (h : op.Around right p (op.rowOrder 1 x) outer next) (hsame : SameBut x right right') :
    op.Around right' p (op.rowOrder 1 x) outer next := by
  have hmem : ∀ r, op.rowOrder 1 r ≠ op.rowOrder 1 x →
      (op.InPartition right p r ↔ op.InPartition right' p r) := by
    intro r hne
    exact and_congr_left fun _ => hsame r fun heq => hne (by rw [heq])
  have hne : ∀ {o o'}, op.direction.further o o' → o' ≠ o := by
    intro o o' hlt heq
    rw [heq] at hlt
    exact irrefl _ hlt
  refine ⟨?_, ?_, ?_, ?_⟩
  · intro q hq
    obtain ⟨hlt, r, hr, rfl⟩ := h.outer_found q hq
    exact ⟨hlt, r, (hmem r (hne hlt)).mp hr, rfl⟩
  · intro r hr hlt
    exact h.outer_least r ((hmem r (hne hlt)).mpr hr) hlt
  · intro q hq
    obtain ⟨hlt, r, hr, rfl⟩ := h.next_found q hq
    exact ⟨hlt, r, (hmem r (hne hlt).symm).mp hr, rfl⟩
  · intro r hr hlt
    exact h.next_least r ((hmem r (hne hlt).symm).mpr hr) hlt

/-- The winner of a left row in the range: the row of the bucket, or else the one that takes
over. -/
theorem Around.won {p o : Bytes} {outer next : Option Bytes} (h : op.Around right p o outer next)
    (hright : ∀ r, 0 < right r → op.Admitted 1 r) {l : Row Value} (hl : op.Admitted 0 l)
    (hmatchable : op.rowMatchable 0 l = true) (hpartition : op.rowPartition 0 l = p)
    (hbelow : Below op.direction.further op.direction.allowExact o (op.rowOrder 0 l))
    (houter : ∀ q, outer = some q →
      ¬ Below op.direction.further op.direction.allowExact q (op.rowOrder 0 l))
    {b rep : Option (Row Value)} (hb : Sole (op.InPartition right p) (op.rowOrder 1) o b)
    (hrep : b = none → ∀ q, next = some q → Sole (op.InPartition right p) (op.rowOrder 1) q rep)
    (hnone : next = none → rep = none) : op.Won right l (b.or rep) := by
  have hcompetes : op.Competes right l = op.InPartition right p := by
    funext r
    rw [← hpartition]
    exact propext (competes_iff hright hl hmatchable r)
  unfold Won
  rw [hcompetes]
  -- a nearer row below the left row would stand at or beyond the outer end
  have hgap : ∀ r, op.InPartition right p r →
      Below op.direction.further op.direction.allowExact (op.rowOrder 1 r) (op.rowOrder 0 l) →
      ¬ op.direction.further o (op.rowOrder 1 r) := by
    intro r hr hrl hlt
    obtain ⟨q, hq, hleast⟩ := h.outer_least r hr hlt
    apply houter q hq
    rcases trichotomous_of op.direction.further (op.rowOrder 1 r) q with hrq | heq | hqr
    · exact absurd hrq hleast
    · rw [← heq]
      exact hrl
    · exact hrl.of_lt hqr
  cases b with
  | some r => exact winner_of_sole hbelow hgap hb
  | none =>
    refine winner_of_next hbelow hgap hb h.next_least (fun q hq => (h.next_found q hq).1)
      (hrep rfl) hnone ?_
    intro hsome hempty
    obtain ⟨q, hq⟩ := Option.ne_none_iff_exists'.mp hsome
    obtain ⟨-, r, hr, horder⟩ := h.next_found q hq
    have hsole := hrep rfl q hq
    change rep = none at hempty
    rw [hempty] at hsole
    exact hsole r hr horder

/-- A range of left rows is that of the order values next to the event. -/
theorem around_of_influence (h : op.Stored s 1 right) (hx : op.Admitted 1 x)
    (hmatchable : op.rowMatchable 1 x = true) {range : Range} {next : Option Bytes}
    (hinfluence : op.Influence (op.prepared 1 (x, d)) s range next) :
    ∃ outer, op.Around right (op.rowPartition 1 x) (op.rowOrder 1 x) outer next ∧
      ∀ l, rangeContains range (op.indexKey 0 l) = true ↔
        op.rowPartition 0 l = op.rowPartition 1 x ∧ (op.rowOrder 0 l).head? = some 1 ∧
          Below op.direction.further op.direction.allowExact (op.rowOrder 1 x)
            (op.rowOrder 0 l) ∧
          ∀ q, outer = some q →
            ¬ Below op.direction.further op.direction.allowExact q (op.rowOrder 0 l) := by
  obtain ⟨outer, houter, hnext, rfl⟩ := hinfluence
  have hhead := head_of_matchable hx hmatchable
  rw [op.prepared_eq] at houter hnext ⊢
  have haround := around_of_neighbors h hhead houter hnext
  refine ⟨outer, haround, ?_⟩
  intro l
  apply affectedRange_contains hhead
  intro q hq
  obtain ⟨-, r, hr, rfl⟩ := haround.outer_found q hq
  exact hr.2.2

omit [DecidableEq Value] in
theorem checked_eq_ok {c : Candidates} {winner : Option Winner} (h : c.checked = .ok winner) :
    winner = c.winner := by
  unfold Candidates.checked at h
  split at h
  · cases h
  · exact (Except.ok.inj h).symm

/-- What takes over is the only row of the next order value, where it is needed. -/
theorem replacement_sole (h : op.Stored s 1 right) {row : PreparedRow} {outer next : Option Bytes}
    (haround : op.Around right row.partition row.order outer next) {needed : Bool}
    {c : Candidates} {rep : Option Winner}
    (hreplacement : replacementAt s.rightRows row next needed = .ok c)
    (hchecked : c.checked = .ok rep) :
    ∃ repRow, rep = repRow.map op.named ∧ (next = none → repRow = none) ∧
      (needed = true → ∀ q, next = some q →
        Sole (op.InPartition right row.partition) (op.rowOrder 1) q repRow) := by
  unfold replacementAt at hreplacement
  cases next with
  | none =>
    cases hreplacement
    cases hchecked
    exact ⟨none, rfl, fun _ => rfl, fun _ q hq => (by cases hq)⟩
  | some q =>
    cases needed with
    | false =>
      cases hreplacement
      cases hchecked
      exact ⟨none, rfl, fun hq => (by cases hq), fun hneeded => (by cases hneeded)⟩
    | true =>
      obtain ⟨-, r, hr, rfl⟩ := haround.next_found q rfl
      obtain ⟨repRow, hrep, hsole⟩ := bucket_sole h hr.2.2 hreplacement hchecked
      refine ⟨repRow, hrep, fun hq => (by cases hq), ?_⟩
      intro _ q hq
      cases hq
      exact hsole

/-- The winners before and after a right event are those of all left rows in its range. -/
theorem winners_won (h : op.Stored s 1 right) (hx : op.Admitted 1 x)
    (hmatchable : op.rowMatchable 1 x = true) (hsame : SameBut x right right') {present : Bool}
    (hpresent : 0 < right' x ↔ present = true) {range : Range} {next : Option Bytes}
    (hinfluence : op.Influence (op.prepared 1 (x, d)) s range next)
    {old new : Option Winner}
    (hwinners : winnersAt s.rightRows (op.prepared 1 (x, d)) present next = .ok (old, new)) :
    ∃ oldRow newRow, old = oldRow.map op.named ∧ new = newRow.map op.named ∧
      ∀ l, op.Admitted 0 l → rangeContains range (op.indexKey 0 l) = true →
        op.Won right l oldRow ∧ op.Won right' l newRow := by
  obtain ⟨outer, haround, hrange⟩ := around_of_influence h hx hmatchable hinfluence
  have haround' := haround.congr hsame
  have hhead := head_of_matchable hx hmatchable
  have hright : ∀ r, 0 < right r → op.Admitted 1 r := fun r hr => h.admitted hr
  have hright' : ∀ r, 0 < right' r → op.Admitted 1 r := by
    intro r hr
    by_cases hrx : r = x
    · rw [hrx]
      exact hx
    · exact hright r ((hsame r hrx).mpr hr)
  unfold winnersAt at hwinners
  rw [op.prepared_eq] at hwinners
  obtain ⟨oldBucket, hold, hwinners⟩ := except_bind_eq_ok.mp hwinners
  obtain ⟨newBucket, hnew, hwinners⟩ := except_bind_eq_ok.mp hwinners
  obtain ⟨replacement, hreplacement, hwinners⟩ := except_bind_eq_ok.mp hwinners
  obtain ⟨rep, hrep, hwinners⟩ := except_bind_eq_ok.mp hwinners
  obtain ⟨old', holdChecked, hwinners⟩ := except_bind_eq_ok.mp hwinners
  obtain ⟨new', hnewChecked, hwinners⟩ := except_bind_eq_ok.mp hwinners
  cases hwinners
  obtain ⟨oldRow, rfl, holdSole⟩ := bucket_sole h hhead hold holdChecked
  obtain ⟨newRow, rfl, hnewSole⟩ := bucket_sole_after h hx hsame hhead hpresent hnew hnewChecked
  obtain ⟨repRow, rfl, hnone, hrepSole⟩ := replacement_sole h haround hreplacement hrep
  rw [← checked_eq_ok holdChecked, ← checked_eq_ok hnewChecked] at hrepSole
  refine ⟨oldRow.or repRow, newRow.or repRow, ?_, ?_, ?_⟩
  · cases oldRow <;> rfl
  · cases newRow <;> rfl
  · intro l hl hin
    obtain ⟨hpartition, hleft, hbelow, houter⟩ := (hrange l).mp hin
    have hleft := matchable_of_partition hx hl hmatchable hpartition hleft
    constructor
    · apply haround.won hright hl hleft hpartition hbelow houter holdSole ?_ hnone
      intro hempty
      apply hrepSole
      rw [hempty]
      rfl
    · apply haround'.won hright' hl hleft hpartition hbelow houter hnewSole ?_ hnone
      intro hempty q hq
      have hneeded : ((oldRow.map op.named).isNone || (newRow.map op.named).isNone) = true := by
        rw [hempty]
        exact Bool.or_true _
      refine (hrepSole hneeded q hq).congr ?_
      intro r horder
      refine and_congr_left fun _ => hsame r ?_
      intro heq
      have hlt := (haround.next_found q hq).1
      rw [← horder, heq] at hlt
      exact irrefl _ hlt

/-- The winners of other left rows do not change. -/
theorem won_outside (h : op.Stored s 1 right) (hx : op.Admitted 1 x)
    (hmatchable : op.rowMatchable 1 x = true) (hsame : SameBut x right right') {range : Range}
    {next : Option Bytes} (hinfluence : op.Influence (op.prepared 1 (x, d)) s range next)
    {l : Row Value} (hl : op.Admitted 0 l) (hout : ¬ rangeContains range (op.indexKey 0 l) = true)
    {w : Option (Row Value)} (hw : op.Won right l w) : op.Won right' l w := by
  obtain ⟨outer, haround, hrange⟩ := around_of_influence h hx hmatchable hinfluence
  have haround' := haround.congr hsame
  rw [hrange] at hout
  have hcompetes : ∀ r, r ≠ x → (op.Competes right l r ↔ op.Competes right' l r) := by
    intro r hr
    exact and_congr_left fun _ => hsame r hr
  by_cases hx' : op.rowMatchable 0 l = true ∧ op.rowPartition 1 x = op.rowPartition 0 l
  · obtain ⟨hleft, hpartition⟩ := hx'
    refine Winner.congr hcompetes ?_ hw
    by_cases hbelow : Below op.direction.further op.direction.allowExact (op.rowOrder 1 x)
        (op.rowOrder 0 l)
    · -- a row of the outer order value hides the event
      right
      have houter : ∃ q, outer = some q ∧
          Below op.direction.further op.direction.allowExact q (op.rowOrder 0 l) := by
        by_contra hno
        push Not at hno
        exact hout ⟨hpartition.symm, head_of_matchable hl hleft, hbelow, hno⟩
      obtain ⟨q, hq, hqbelow⟩ := houter
      obtain ⟨hlt, r, hr, rfl⟩ := haround.outer_found q hq
      have hne : r ≠ x := by
        intro heq
        rw [heq] at hlt
        exact irrefl _ hlt
      have hmatch := matchable_of_partition hx (h.admitted hr.1) hmatchable hr.2.1 hr.2.2
      have hcomp : op.Competes right l r := ⟨hr.1, hleft, hmatch, hr.2.1.trans hpartition⟩
      exact ⟨r, hcomp, (hcompetes r hne).mp hcomp, hqbelow, hlt⟩
    · exact .inl hbelow
  · -- the row of the event does not compete at all
    have heq : op.Competes right l = op.Competes right' l := by
      funext r
      by_cases hr : r = x
      · rw [hr]
        apply propext
        constructor
        · intro hc
          exact absurd ⟨hc.2.1, hc.2.2.2⟩ hx'
        · intro hc
          exact absurd ⟨hc.2.1, hc.2.2.2⟩ hx'
      · exact propext (hcompetes r hr)
    unfold Won at hw ⊢
    rw [← heq]
    exact hw

/-- A right event that is quiet changes no winner. -/
theorem won_quiet (hsame : SameBut x right right')
    (hquiet : ¬ op.rowMatchable 1 x = true ∨ (0 < right x ↔ 0 < right' x)) {l : Row Value}
    {w : Option (Row Value)} (hw : op.Won right l w) : op.Won right' l w := by
  have heq : op.Competes right l = op.Competes right' l := by
    funext r
    by_cases hr : r = x
    · rw [hr]
      apply propext
      rcases hquiet with hnot | hpresence
      · constructor
        · intro hc
          exact absurd hc.2.2.1 hnot
        · intro hc
          exact absurd hc.2.2.1 hnot
      · exact and_congr_left fun _ => hpresence
    · exact propext (and_congr_left fun _ => hsame r hr)
  unfold Won at hw ⊢
  rw [← heq]
  exact hw

/-! ## Output rows -/

variable (op) in
/-- The output row of a left row and its winner. -/
def render (pair : Row Value × Option (Row Value)) : Row Value :=
  pair.1 ++ pair.2.getD (op.fmt.nullRow op.rightSchema)

/-- The row appended for a left row and its winner. -/
theorem appended_pair {l : Row Value} (hl : op.Admitted 0 l) {w : Option (Row Value)}
    (hw : ∀ r ∈ w, op.Admitted 1 r) {e : Int} {row : Row Value × Int}
    (h : Appended op.fmt op.inputSchemas (.ok ([some (op.rowBytes 0 l),
      (w.map op.named).map (·.row)], e) : Except AsOfJoinError Item) row) :
    row = (op.render (l, w), e) := by
  obtain ⟨fragments, hfragments, happend⟩ := h
  cases hfragments
  have hleft : op.fmt.decodeRow op.leftSchema (op.rowBytes 0 l) = .ok l := hl.decodes
  have hright : op.fmt.decodeFragment op.rightSchema ((w.map op.named).map (·.row)) =
      .ok (w.getD (op.fmt.nullRow op.rightSchema)) := by
    cases w with
    | none => rfl
    | some r => exact (hw r rfl).decodes
  unfold inputSchemas at happend
  simp only [RowFormat.appendRow, hright, Except.map] at happend
  rw [RowFormat.decodeFragment, hleft] at happend
  simp only [List.append_nil, Except.ok.injEq] at happend
  exact Prod.ext happend.symm rfl

/-- The rows appended for the correction of a left row. -/
theorem appended_correction {l : Row Value} (hl : op.Admitted 0 l)
    {oldRow newRow : Option (Row Value)} (hold : ∀ r ∈ oldRow, op.Admitted 1 r)
    (hnew : ∀ r ∈ newRow, op.Admitted 1 r) {w : ℕ+} {out : List (Row Value × Int)}
    (h : List.Forall₂ (Appended op.fmt op.inputSchemas)
      (correction (oldRow.map op.named) (newRow.map op.named) (op.indexKey 0 l, w)) out) :
    out = [(op.render (l, oldRow), -((w : Nat) : Int)),
      (op.render (l, newRow), ((w : Nat) : Int))] := by
  unfold correction at h
  simp only [rowSuffix_indexKey] at h
  by_cases hw : (w : Nat) < 2 ^ 63
  · rw [if_pos hw, if_pos hw] at h
    obtain _ | ⟨hfirst, _ | ⟨hsecond, hrest⟩⟩ := h
    cases hrest
    rw [appended_pair hl hold hfirst, appended_pair hl hnew hsecond, neg_one_mul, one_mul]
  · rw [if_neg hw] at h
    obtain _ | ⟨hfirst, _⟩ := h
    obtain ⟨_, hfragments, _⟩ := hfirst
    cases hfragments

/-! ## The left rows of a range -/

omit [DecidableEq Value] in
theorem rangeAfter_none (s : AsOfState) (range : Range) :
    rangeAfter s range none = inRange s.leftRows range.1 range.2 .ascending :=
  remaining_none _ _ _

/-- The entries of a range are the present left rows in it, each once. -/
theorem rangeRows {left : Bag (Row Value)} (h : op.Stored s 0 left) (range : Range) :
    ∃ rows : List (Row Value × ℕ+),
      rangeAfter s range none = rows.map (fun e => (op.indexKey 0 e.1, e.2)) ∧
      (rows.map (·.1)).Nodup ∧
      (∀ e ∈ rows, op.Admitted 0 e.1 ∧ left e.1 = ((e.2 : Nat) : Int) ∧
        rangeContains range (op.indexKey 0 e.1) = true) ∧
      ∀ l, 0 < left l → rangeContains range (op.indexKey 0 l) = true → l ∈ rows.map (·.1) := by
  rw [rangeAfter_none]
  have hpairwise := pairwise_inRange s.leftRows range.1 range.2 .ascending
  have hmem : ∀ e, e ∈ inRange s.leftRows range.1 range.2 .ascending ↔
      ∃ l, op.Admitted 0 l ∧ op.indexKey 0 l = e.1 ∧ left l = ((e.2 : Nat) : Int) ∧
        rangeContains range e.1 = true := by
    intro e
    unfold rangeContains
    rw [mem_inRange, Bool.and_eq_true]
    have hentries : (e.1, e.2) ∈ (s.rows 0).entries ↔
        ∃ l, op.Admitted 0 l ∧ op.indexKey 0 l = e.1 ∧ left l = ((e.2 : Nat) : Int) :=
      h.mem_entries
    constructor
    · intro he
      obtain ⟨l, hl, hkey, hw⟩ := hentries.mp he.1
      exact ⟨l, hl, hkey, hw, he.2⟩
    · intro hex
      obtain ⟨l, hl, hkey, hw, hrange⟩ := hex
      exact ⟨hentries.mpr ⟨l, hl, hkey, hw⟩, hrange⟩
  generalize inRange s.leftRows range.1 range.2 .ascending = entries at hpairwise hmem
  have hread : ∃ rows : List (Row Value × ℕ+),
      entries = rows.map (fun e => (op.indexKey 0 e.1, e.2)) ∧
      ∀ e ∈ rows, op.Admitted 0 e.1 ∧ left e.1 = ((e.2 : Nat) : Int) ∧
        rangeContains range (op.indexKey 0 e.1) = true := by
    have hall := fun e he => (hmem e).mp he
    clear hmem hpairwise
    induction entries with
    | nil => exact ⟨[], rfl, fun e he => by cases he⟩
    | cons e entries ih =>
      obtain ⟨l, hl, hkey, hw, hrange⟩ := hall e (by simp)
      obtain ⟨rows, hrows, hgood⟩ := ih fun e' he' => hall e' (by simp [he'])
      refine ⟨(l, e.2) :: rows, ?_, ?_⟩
      · rw [List.map_cons, hrows, hkey]
      · intro e' he'
        rcases List.mem_cons.mp he' with rfl | he'
        · refine ⟨hl, hw, ?_⟩
          rw [hkey]
          exact hrange
        · exact hgood e' he'
  obtain ⟨rows, rfl, hgood⟩ := hread
  refine ⟨rows, rfl, ?_, hgood, ?_⟩
  · rw [List.pairwise_map] at hpairwise
    rw [List.Nodup, List.pairwise_map]
    refine hpairwise.imp ?_
    intro a b hab heq
    rw [heq, visitsBefore_irrefl] at hab
    cases hab
  · intro l hpos hrange
    obtain ⟨w, hw⟩ : ∃ w : ℕ+, left l = ((w : Nat) : Int) :=
      ⟨⟨(left l).toNat, by omega⟩, (Int.toNat_of_nonneg hpos.le).symm⟩
    have hl := h.admitted hpos
    obtain ⟨e, he, heq⟩ := List.mem_map.mp
      ((hmem (op.indexKey 0 l, w)).mpr ⟨l, hl, rfl, hw, hrange⟩)
    rw [Prod.mk.injEq] at heq
    exact List.mem_map.mpr ⟨e, he, (indexKey_inj (hgood e he).1 hl).mp heq.1⟩

/-! ## Events -/

variable (op) in
/-- Both stored relations, and a winner for every left row. -/
structure Held (s : AsOfState) (relation : Nat → Bag (Row Value)) : Prop where
  left : op.Stored s 0 (relation 0)
  right : op.Stored s 1 (relation 1)
  won : ∀ l, 0 < relation 0 l → ∃ w, op.Won (relation 1) l w

variable (op) in
/-- Events that put out the change of the reference, rendered. -/
def Accounts (relation relation' : Nat → Bag (Row Value)) (out : List (Row Value × Int)) : Prop :=
  ∃ items : List ((Row Value × Option (Row Value)) × Int),
    out = items.map (fun e => (op.render e.1, e.2)) ∧
    weight items + op.reference (relation 0) (relation 1) =
      op.reference (relation' 0) (relation' 1)

theorem Won.admitted {w : Option (Row Value)} {l : Row Value} (h : op.Won right l w)
    (hright : ∀ r, 0 < right r → op.Admitted 1 r) : ∀ r ∈ w, op.Admitted 1 r := by
  intro r hr
  cases hr
  exact hright r h.1.mem.1

omit [DecidableEq Value] in
/-- A row without weight has none in the reference. -/
theorem reference_eq_zero {left : Bag (Row Value)} {l : Row Value} (h : left l = 0)
    (w : Option (Row Value)) : op.reference left right (l, w) = 0 := by
  cases w with
  | none => rw [reference, h, ite_self]
  | some r => rw [reference, h, ite_self]

omit [DecidableEq Value] in
/-- The reference of a left row depends on its own weight only. -/
theorem reference_congr {left left' : Bag (Row Value)} {l : Row Value} (h : left l = left' l)
    (w : Option (Row Value)) : op.reference left right (l, w) = op.reference left' right (l, w) := by
  cases w with
  | none => rw [reference, reference, h]
  | some r => rw [reference, reference, h]

/-- A left event puts out its row with its winner. -/
theorem left_accounts {relation : Nat → Bag (Row Value)} {l : Row Value} {s' : AsOfState}
    {out : List (Row Value × Int)} (h : op.Held s relation) (hl : op.Admitted 0 l)
    (hevent : op.Left (op.prepared 0 (l, d)) s out s') :
    op.Held s' (EquiJoin.EquiJoinOperation.stepAt relation 0 (l, d)) ∧
      op.Accounts relation (EquiJoin.EquiJoinOperation.stepAt relation 0 (l, d)) out := by
  obtain ⟨after, candidates, winner, bytes, hafter, hselect, hchecked, hbytes, hout, rfl⟩ := hevent
  obtain ⟨w, rfl, hwon⟩ := select_won h.right hl hselect hchecked
  rw [op.prepared_eq] at hafter hbytes hout ⊢
  dsimp only at hafter hbytes hout ⊢
  rw [rowSuffix_indexKey] at hbytes
  cases hbytes
  have hafter : (after : Int) = relation 0 l + d := by
    rw [checkedWeight_eq_ok hafter, ← h.left.weight l hl]
    rfl
  obtain ⟨hown, hopposite⟩ := h.left.setRow (by omega) h.right hl hafter
  have hadmitted : ∀ r, 0 < relation 1 r → op.Admitted 1 r := fun r hr => h.right.admitted hr
  refine ⟨⟨hown, hopposite, ?_⟩, [((l, w), d)], ?_, ?_⟩
  · intro l' hpos
    show ∃ w, op.Won (relation 1) l' w
    by_cases hl' : l' = l
    · exact ⟨w, by rw [hl']; exact hwon⟩
    · apply h.won l'
      have hstep : EquiJoin.EquiJoinOperation.stepAt relation 0 (l, d) 0 l' = relation 0 l' := by
        rw [EquiJoin.EquiJoinOperation.stepAt_own, EquiJoin.stepped_apply, if_neg hl', add_zero]
      rw [← hstep]
      exact hpos
  · obtain _ | ⟨hrow, hrest⟩ := hout
    cases hrest
    rw [appended_pair hl (hwon.admitted hadmitted) hrow]
    rfl
  · funext pair
    obtain ⟨l', w'⟩ := pair
    show weight [((l, w), d)] (l', w') + op.reference (relation 0) (relation 1) (l', w') =
      op.reference (EquiJoin.EquiJoinOperation.stepAt relation 0 (l, d) 0) (relation 1) (l', w')
    rw [weight_singleton, EquiJoin.EquiJoinOperation.stepAt_own]
    by_cases hl' : l' = l
    · subst hl'
      rw [reference_of_won hl hadmitted hwon, reference_of_won hl hadmitted hwon,
        EquiJoin.stepped_apply, if_pos rfl]
      by_cases hw : w' = w
      · subst hw
        simp [add_comm]
      · rw [if_neg (by simp [Ne.symm hw]), if_neg hw, if_neg hw, add_zero]
    · rw [if_neg (by simp [Ne.symm hl']), zero_add]
      apply reference_congr
      rw [EquiJoin.stepped_apply, if_neg hl', add_zero]

/-- The corrections of some left rows, rendered. -/
theorem eq_of_corrections {oldRow newRow : Option (Row Value)}
    (hold : ∀ r ∈ oldRow, op.Admitted 1 r) (hnew : ∀ r ∈ newRow, op.Admitted 1 r)
    {rows : List (Row Value × ℕ+)} (hrows : ∀ e ∈ rows, op.Admitted 0 e.1)
    {out : List (Row Value × Int)}
    (h : List.Forall₂ (Appended op.fmt op.inputSchemas)
      ((rows.map fun e => (op.indexKey 0 e.1, e.2)).flatMap
        (correction (oldRow.map op.named) (newRow.map op.named))) out) :
    out = (rows.flatMap fun e => [((e.1, oldRow), -((e.2 : Nat) : Int)),
      ((e.1, newRow), ((e.2 : Nat) : Int))]).map fun e => (op.render e.1, e.2) := by
  induction rows generalizing out with
  | nil =>
    cases h
    rfl
  | cons e rows ih =>
    rw [List.map_cons, List.flatMap_cons] at h
    -- a correction is two items
    obtain _ | ⟨hfirst, _ | ⟨hsecond, hrest⟩⟩ := h
    have hout := appended_correction (hrows e (by simp)) hold hnew
      (.cons hfirst (.cons hsecond .nil))
    have hrest := ih (fun e' he' => hrows e' (List.mem_cons_of_mem _ he')) hrest
    rw [List.flatMap_cons, List.map_append, ← hrest]
    exact congrArg (· ++ _) hout

/-- The weights of the corrections of some left rows, from one winner to another. -/
theorem weight_corrections {rows : List (Row Value × ℕ+)} (hnodup : (rows.map (·.1)).Nodup)
    (oldRow newRow : Option (Row Value)) (l : Row Value) (w : Option (Row Value)) {n : Int}
    (hn : ∀ e ∈ rows, e.1 = l → ((e.2 : Nat) : Int) = n) :
    weight (rows.flatMap fun e => [((e.1, oldRow), -((e.2 : Nat) : Int)),
      ((e.1, newRow), ((e.2 : Nat) : Int))]) (l, w) =
        if l ∈ rows.map (·.1) then
          (if w = newRow then n else 0) - (if w = oldRow then n else 0)
        else 0 := by
  rw [weight_flatMap]
  induction rows with
  | nil => rfl
  | cons e rows ih =>
    rw [List.map_cons, List.nodup_cons] at hnodup
    have ih := ih hnodup.2 fun e' he' => hn e' (List.mem_cons_of_mem _ he')
    rw [List.map_cons, List.sum_cons, ih, weight_cons_apply, weight_singleton]
    by_cases hl : e.1 = l
    · have hout : l ∉ rows.map (·.1) := by
        rw [← hl]
        exact hnodup.1
      have hin : l ∈ (e :: rows).map (·.1) := by simp [hl]
      rw [if_neg hout, if_pos hin, hn e (by simp) hl]
      simp only [hl, Prod.mk.injEq, true_and, eq_comm (a := w), add_zero]
      by_cases hold : oldRow = w
      · by_cases hnew : newRow = w
        · simp [hold, hnew]
        · simp [hold, hnew]
      · by_cases hnew : newRow = w
        · simp [hold, hnew]
        · simp [hold, hnew]
    · have hmem : l ∈ (e :: rows).map (·.1) ↔ l ∈ rows.map (·.1) := by
        simp [Ne.symm hl]
      simp only [Prod.mk.injEq, hl, false_and, if_false, zero_add, hmem]

/-- What a right event puts out for the left rows of its range, if anything. -/
theorem corrects_accounts {relation : Nat → Bag (Row Value)} (h : op.Held s relation)
    (hx : op.Admitted 1 x) (hmatchable : op.rowMatchable 1 x = true)
    (hsame : SameBut x (relation 1) right') {present : Bool}
    (hpresent : 0 < right' x ↔ present = true) {range : Range} {next : Option Bytes}
    (hinfluence : op.Influence (op.prepared 1 (x, d)) s range next)
    {out : List (Row Value × Int)}
    (hcorrects : op.Corrects (op.prepared 1 (x, d)) s present next (rangeAfter s range none)
      out) :
    ∃ oldRow newRow, (∀ l, 0 < relation 0 l → rangeContains range (op.indexKey 0 l) = true →
        op.Won (relation 1) l oldRow ∧ op.Won right' l newRow) ∧
      ∃ items : List ((Row Value × Option (Row Value)) × Int),
        out = items.map (fun e => (op.render e.1, e.2)) ∧
        ∀ l w, weight items (l, w) =
          if 0 < relation 0 l ∧ rangeContains range (op.indexKey 0 l) = true then
            (if w = newRow then relation 0 l else 0) - (if w = oldRow then relation 0 l else 0)
          else 0 := by
  obtain ⟨rows, hentries, hnodup, hrows, hall⟩ := rangeRows h.left range
  have hin : ∀ l, l ∈ rows.map (·.1) ↔
      0 < relation 0 l ∧ rangeContains range (op.indexKey 0 l) = true := by
    intro l
    constructor
    · intro hmem
      obtain ⟨e, he, rfl⟩ := List.mem_map.mp hmem
      obtain ⟨-, hweight, hrange⟩ := hrows e he
      refine ⟨?_, hrange⟩
      rw [hweight]
      exact_mod_cast e.2.pos
    · intro hl
      exact hall l hl.1 hl.2
  rw [hentries] at hcorrects
  unfold Corrects at hcorrects
  cases rows with
  | nil =>
    rw [List.map_nil, if_pos rfl] at hcorrects
    refine ⟨none, none, ?_, [], hcorrects, ?_⟩
    · intro l hpos hrange
      cases (hin l).mpr ⟨hpos, hrange⟩
    · intro l w
      rw [sub_self, ite_self]
      rfl
  | cons e rows =>
    rw [if_neg (by simp)] at hcorrects
    obtain ⟨old, new, hwinners, hout⟩ := hcorrects
    obtain ⟨oldRow, newRow, rfl, rfl, hwon⟩ :=
      winners_won h.right hx hmatchable hsame hpresent hinfluence hwinners
    have hwon : ∀ l, 0 < relation 0 l → rangeContains range (op.indexKey 0 l) = true →
        op.Won (relation 1) l oldRow ∧ op.Won right' l newRow := by
      intro l hpos hrange
      exact hwon l (h.left.admitted hpos) hrange
    -- the first left row of the range shows that both winners are admitted
    have hadmitted : ∀ r, 0 < relation 1 r → op.Admitted 1 r := fun r hr => h.right.admitted hr
    have hadmitted' : ∀ r, 0 < right' r → op.Admitted 1 r := by
      intro r hr
      by_cases hrx : r = x
      · rw [hrx]
        exact hx
      · exact hadmitted r ((hsame r hrx).mpr hr)
    obtain ⟨hpos, hrange⟩ := (hin e.1).mp (by simp)
    have hold := (hwon e.1 hpos hrange).1.admitted hadmitted
    have hnew := (hwon e.1 hpos hrange).2.admitted hadmitted'
    refine ⟨oldRow, newRow, hwon, ?_⟩
    split at hout
    · refine ⟨_, eq_of_corrections hold hnew (fun e he => (hrows e he).1) hout, ?_⟩
      intro l w
      have hweights : ∀ e' ∈ e :: rows, e'.1 = l → ((e'.2 : Nat) : Int) = relation 0 l := by
        intro e' he' hl
        rw [← hl, (hrows e' he').2.1]
      rw [weight_corrections hnodup oldRow newRow l w hweights]
      simp only [hin]
    · next hkeys =>
      have hequal : oldRow = newRow := by
        rw [not_not] at hkeys
        cases oldRow with
        | none =>
          cases newRow with
          | none => rfl
          | some r => cases hkeys
        | some r =>
          cases newRow with
          | none => cases hkeys
          | some r' =>
            rw [(indexKey_inj (hold r rfl) (hnew r' rfl)).mp (Option.some.inj hkeys)]
      refine ⟨[], hout, ?_⟩
      intro l w
      rw [hequal, sub_self, ite_self]
      rfl

/-- A right event puts out the corrections of the left rows whose winner it changes. -/
theorem final_accounts {relation : Nat → Bag (Row Value)} {s' : AsOfState}
    {out : List (Row Value × Int)} (h : op.Held s relation) (hx : op.Admitted 1 x)
    (hevent : op.Final (op.prepared 1 (x, d)) s freshCursor out s') :
    op.Held s' (EquiJoin.EquiJoinOperation.stepAt relation 1 (x, d)) ∧
      op.Accounts relation (EquiJoin.EquiJoinOperation.stepAt relation 1 (x, d)) out := by
  obtain ⟨after, hafter, hstate, hvisited⟩ := hevent.visited
  subst hstate
  have hprepared := op.prepared_eq 1 (x, d)
  have hkey : (op.prepared 1 (x, d)).key = op.indexKey 1 x := by rw [hprepared]
  have hdifference : (op.prepared 1 (x, d)).difference = d := by rw [hprepared]
  have hmatch : (op.prepared 1 (x, d)).matchable = op.rowMatchable 1 x := by rw [hprepared]
  rw [hkey] at hafter hvisited ⊢
  rw [hdifference] at hafter
  have hbefore : ((multiplicity s.rightRows (op.indexKey 1 x) : Nat) : Int) = relation 1 x :=
    h.right.weight x hx
  have hafter : (after : Int) = relation 1 x + d := by
    rw [checkedWeight_eq_ok hafter, hbefore]
  obtain ⟨hown, hopposite⟩ := h.right.setRow (by omega) h.left hx hafter
  set relation' := EquiJoin.EquiJoinOperation.stepAt relation 1 (x, d) with hrelation'
  have hright' : relation' 1 = EquiJoin.stepped (relation 1) x d :=
    EquiJoin.EquiJoinOperation.stepAt_own relation 1 (x, d)
  have hleft' : relation' 0 = relation 0 :=
    EquiJoin.EquiJoinOperation.stepAt_opposite (by omega) relation (x, d)
  have hsame : SameBut x (relation 1) (relation' 1) := by
    intro r hr
    rw [hright', EquiJoin.stepped_apply, if_neg hr, add_zero]
  have hpresent : 0 < relation' 1 x ↔ decide (after ≠ 0) = true := by
    rw [hright', EquiJoin.stepped_apply, if_pos rfl, ← hafter, decide_eq_true_eq]
    omega
  have hadmitted : ∀ r, 0 < relation 1 r → op.Admitted 1 r := fun r hr => h.right.admitted hr
  have hadmitted' : ∀ r, 0 < relation' 1 r → op.Admitted 1 r := by
    intro r hr
    by_cases hrx : r = x
    · rw [hrx]
      exact hx
    · exact hadmitted r ((hsame r hrx).mpr hr)
  -- a left row keeps its winner, or its two winners differ in the reference
  have hheld : (∀ l, 0 < relation 0 l → ∃ w, op.Won (relation' 1) l w) →
      op.Held (s.setRow 1 (op.indexKey 1 x) after) relation' := by
    intro hwon
    refine ⟨?_, ?_, ?_⟩
    · rw [hleft']
      exact hopposite
    · rw [hright']
      exact hown
    · rw [hleft']
      exact hwon
  split at hvisited
  · next hquiet =>
    obtain ⟨-, rfl⟩ := hvisited
    have hquiet : ¬ op.rowMatchable 1 x = true ∨ (0 < relation 1 x ↔ 0 < relation' 1 x) := by
      rcases hquiet with hnot | hiff
      · left
        rw [← hmatch]
        exact hnot
      · right
        rw [hpresent, decide_eq_true_eq, ← hiff, ← hbefore]
        omega
    refine ⟨hheld ?_, [], rfl, ?_⟩
    · intro l hpos
      obtain ⟨w, hw⟩ := h.won l hpos
      exact ⟨w, won_quiet hsame hquiet hw⟩
    · rw [weight_nil, zero_add]
      funext pair
      obtain ⟨l, w⟩ := pair
      rw [hleft']
      rcases (h.left.nonneg l).eq_or_lt with hzero | hpos
      · rw [reference_eq_zero hzero.symm, reference_eq_zero hzero.symm]
      · obtain ⟨w', hw'⟩ := h.won l hpos
        have hl := h.left.admitted hpos
        rw [reference_of_won hl hadmitted hw',
          reference_of_won hl hadmitted' (won_quiet hsame hquiet hw')]
  · next hloud =>
    have hmatchable : op.rowMatchable 1 x = true := by
      by_contra hnot
      exact hloud (.inl (by rw [hmatch]; exact hnot))
    obtain ⟨range, next, hinfluence, hcorrects⟩ := hvisited
    obtain ⟨oldRow, newRow, hwon, items, hout, hweight⟩ :=
      corrects_accounts h hx hmatchable hsame hpresent hinfluence hcorrects
    have hwon' : ∀ l, 0 < relation 0 l → ¬ rangeContains range (op.indexKey 0 l) = true →
        ∃ w, op.Won (relation 1) l w ∧ op.Won (relation' 1) l w := by
      intro l hpos hrange
      obtain ⟨w, hw⟩ := h.won l hpos
      exact ⟨w, hw, won_outside h.right hx hmatchable hsame hinfluence (h.left.admitted hpos)
        hrange hw⟩
    refine ⟨hheld ?_, items, hout, ?_⟩
    · intro l hpos
      by_cases hrange : rangeContains range (op.indexKey 0 l) = true
      · exact ⟨newRow, (hwon l hpos hrange).2⟩
      · obtain ⟨w, -, hw⟩ := hwon' l hpos hrange
        exact ⟨w, hw⟩
    · funext pair
      obtain ⟨l, w⟩ := pair
      rw [Pi.add_apply, hweight, hleft']
      rcases (h.left.nonneg l).eq_or_lt with hzero | hpos
      · rw [if_neg (by omega), reference_eq_zero hzero.symm, reference_eq_zero hzero.symm,
          add_zero]
      · have hl := h.left.admitted hpos
        by_cases hrange : rangeContains range (op.indexKey 0 l) = true
        · obtain ⟨hold, hnew⟩ := hwon l hpos hrange
          rw [if_pos ⟨hpos, hrange⟩, reference_of_won hl hadmitted hold,
            reference_of_won hl hadmitted' hnew, sub_add_cancel]
        · obtain ⟨w', hold, hnew⟩ := hwon' l hpos hrange
          rw [if_neg fun hin => hrange hin.2, zero_add, reference_of_won hl hadmitted hold,
            reference_of_won hl hadmitted' hnew]

/-! ## Runs -/

open EquiJoin.EquiJoinOperation (portEvents stepAt eventsBag eventsBag_nil eventsBag_cons
  eventsBag_append eventsBag_portEvents)

/-- A run of whole events puts out the change of the reference. -/
theorem Events.accounts {events : List (Nat × (Row Value × Int))} {s' : AsOfState}
    {out : List (Row Value × Int)} (h : op.Events events s out s')
    {relation : Nat → Bag (Row Value)} (hheld : op.Held s relation) :
    op.Held s' (relation + eventsBag events) ∧
      op.Accounts relation (relation + eventsBag events) out := by
  induction h generalizing relation with
  | nil =>
    rw [eventsBag_nil, add_zero]
    exact ⟨hheld, [], rfl, by simp⟩
  | @cons port event events s s₁ s' out out' hport hne hadmitted hcompletes _ ih =>
    have hevent : op.Held s₁ (stepAt relation port event) ∧
        op.Accounts relation (stepAt relation port event) out := by
      obtain ⟨row, d⟩ := event
      unfold Completes at hcompletes
      obtain rfl | rfl : port = 0 ∨ port = 1 := by omega
      · rw [if_pos rfl] at hcompletes
        exact left_accounts hheld hadmitted hcompletes
      · rw [if_neg (by simp)] at hcompletes
        exact final_accounts hheld hadmitted hcompletes
    obtain ⟨hheld₁, items, rfl, hitems⟩ := hevent
    obtain ⟨hheld', items', rfl, hitems'⟩ := ih hheld₁
    rw [eventsBag_cons]
    refine ⟨hheld', items ++ items', (List.map_append ..).symm, ?_⟩
    rw [weight_append, add_comm (weight items), add_assoc, hitems, hitems']

variable (op) in
theorem held_initial : op.Held AsOfState.initial 0 :=
  ⟨op.stored_initial 0, op.stored_initial 1, fun _ hpos => absurd hpos (lt_irrefl _)⟩

variable {Q : Type}

/-- Inputs stepped to their end are a run of whole events. -/
theorem events_of_handlesAll {inputs : List (Nat × Change (Row Value))}
    {outputs : List (Option (Change (Row Value)))} {s' : AsOfState}
    (h : HandlesAll (.paged op.paged : Operation AsOfState Q (Row Value)) s inputs outputs s') :
    op.Events (portEvents inputs) s (outputsEvents outputs) s' := by
  induction h with
  | nil => exact .nil
  | cons hhandles _ ih =>
    rw [outputsEvents_append]
    exact (op.events_of_handles hhandles).append ih

variable (op) in
/-- Where a run stands inside an input: the stored relations are those of the completed events,
and the next one is at its start or part way through its left rows. -/
structure Standing (relation : Nat → Bag (Row Value)) (port : Nat)
    (rest : List (Row Value × Int)) (cursor : AsOfCursor) (s : AsOfState) : Prop where
  held : op.Held s relation
  midway : ∃ out, op.Midway port rest s cursor out

theorem Standing.drives {relation : Nat → Bag (Row Value)} {port : Nat} (hport : port < 2)
    {events rest : List (Row Value × Int)} {cursor cursor' : AsOfCursor} {s' : AsOfState}
    {out : List (Row Value × Int)} (h : op.Standing relation port events cursor s)
    (hnonzero : ∀ e ∈ events, e.2 ≠ 0)
    (hdrives : op.Drives port events cursor s out rest cursor' s') :
    ∃ n, rest = events.drop n ∧
      op.Standing (relation + eventsBag ((events.take n).map fun e => (port, e))) port rest
        cursor' s' := by
  obtain ⟨out₀, hmidway⟩ := h.midway
  obtain ⟨n, out₁, out₂, hrest, -, hevents, hend⟩ := hdrives.events hport hnonzero hmidway
  exact ⟨n, hrest, (hevents.accounts h.held).1, out₂, hend⟩

/-- The pages of an input keep a run standing. -/
theorem ahead_standing {relation : Nat → Bag (Row Value)} {port : Nat}
    {change : Change (Row Value)} {resume resume' : Resume} {s' : AsOfState}
    {outputs : List (Option (Change (Row Value)))}
    (h : Ahead (.paged op.paged : Operation AsOfState Unit (Row Value)) port change resume s
      outputs resume' s')
    (hs : ∀ cursor, resume.cursor = .asOf cursor → op.Standing
      (relation + eventsBag ((change.events.take resume.ordinal).map fun e => (port, e))) port
      (change.events.drop resume.ordinal) cursor s) :
    ∀ cursor, resume'.cursor = .asOf cursor → op.Standing
      (relation + eventsBag ((change.events.take resume'.ordinal).map fun e => (port, e))) port
      (change.events.drop resume'.ordinal) cursor s' := by
  induction h with
  | refl => exact hs
  | @next resume r r' s s₁ s₂ output outputs hstep _ ih =>
    apply ih
    intro cursor hcursor
    obtain ⟨b, b', hstep⟩ := hstep
    obtain ⟨cursor₀, cursor₁, n, hport, hresume, -, hdrives, hle, hprogress⟩ :=
      op.step_eq_ok (adaptExcept_eq_ok.mp hstep)
    split at hprogress
    · cases hprogress
    · cases hprogress
      cases hcursor
      obtain ⟨m, hdrop, hstanding⟩ := (hs cursor₀ hresume).drives hport
        (fun e he => change.nonzero e (List.mem_of_mem_drop he)) hdrives
      -- the completed events are those before the position
      have htake : (change.events.drop resume.ordinal).take m =
          (change.events.drop resume.ordinal).take n := by
        have hsame := List.take_append_drop m (change.events.drop resume.ordinal)
        rw [← hdrop, ← List.drop_drop] at hsame
        exact List.append_cancel_right
          (hsame.trans (List.take_append_drop n (change.events.drop resume.ordinal)).symm)
      rw [htake] at hstanding
      have htake : change.events.take (resume.ordinal + n) =
          change.events.take resume.ordinal ++ (change.events.drop resume.ordinal).take n :=
        List.take_add ..
      rw [htake, List.map_append, eventsBag_append, ← add_assoc]
      exact hstanding

/-- Every position of a run is standing. -/
theorem reaches_standing {inputs : List (Nat × Change (Row Value))} {port : Nat}
    {change : Change (Row Value)} {resume : Resume}
    {outputs : List (Option (Change (Row Value)))}
    (h : Reaches op.paged AsOfState.initial inputs port change resume outputs s)
    (cursor : AsOfCursor) (hcursor : resume.cursor = .asOf cursor) :
    op.Standing (eventsBag (portEvents inputs ++
      (change.events.take resume.ordinal).map fun e => (port, e))) port
      (change.events.drop resume.ordinal) cursor s := by
  obtain ⟨s₀, before, pages, -, hhandles, hahead⟩ := h.split
  have hheld := ((events_of_handlesAll hhandles).accounts op.held_initial).1
  rw [zero_add] at hheld
  rw [eventsBag_append]
  refine ahead_standing hahead ?_ cursor hcursor
  intro cursor hcursor
  cases hcursor
  refine ⟨?_, [], .inl ⟨rfl, rfl⟩⟩
  simpa [paged, initialResume, eventsBag_nil] using hheld

/-- Every position of a run is one of the join. -/
theorem reaches_cursor {inputs : List (Nat × Change (Row Value))} {port : Nat}
    {change : Change (Row Value)} {resume : Resume}
    {outputs : List (Option (Change (Row Value)))}
    (h : Reaches op.paged AsOfState.initial inputs port change resume outputs s) :
    ∃ cursor, resume.cursor = .asOf cursor := by
  obtain ⟨s₀, before, pages, -, -, hahead⟩ := h.split
  have hinitial : ∃ cursor, op.paged.initialResume.cursor = .asOf cursor := ⟨_, rfl⟩
  clear h
  generalize op.paged.initialResume = resume₀ at hahead hinitial
  induction hahead with
  | refl => exact hinitial
  | next hstep _ ih =>
    apply ih
    obtain ⟨b, b', hstep⟩ := hstep
    obtain ⟨_, cursor, _, _, _, _, _, _, hprogress⟩ :=
      op.step_eq_ok (adaptExcept_eq_ok.mp hstep)
    split at hprogress
    · cases hprogress
    · cases hprogress
      exact ⟨cursor, rfl⟩

/-! ## Ties -/

/-- A row with a winner is won by one row at most. -/
theorem Held.unique {relation : Nat → Bag (Row Value)} (h : op.Held s relation) {l r r' : Row Value}
    (hpos : 0 < relation 0 l) (hr : op.Wins (relation 1) l r) (hr' : op.Wins (relation 1) l r') :
    r = r' := by
  obtain ⟨w, hw⟩ := h.won l hpos
  have hright : ∀ r, 0 < relation 1 r → op.Admitted 1 r := fun r hr => h.right.admitted hr
  have hl := h.left.admitted hpos
  have hr := (wins_iff hl hright).mp hr
  have hr' := (wins_iff hl hright).mp hr'
  cases w with
  | none => exact absurd hr.below (hw r hr.mem)
  | some r₀ => rw [hw.2 r hr, hw.2 r' hr']

/-- Errors other than ties. -/
def NoTie (e : AsOfJoinError) : Prop := e.tieFault = false

theorem noTie_budget : NoTie budgetExceeded := rfl

theorem Ordinary.noTie {e : AsOfJoinError} (h : Ordinary e) : NoTie e := h.1

omit [DecidableEq Value] in
/-- Winners that were found once are found without a tie under every allowance. -/
theorem winners_noTie {row : PreparedRow} {present : Bool} {next : Option Bytes}
    {found : Option Winner × Option Winner}
    (h : winnersAt s.rightRows row present next = .ok found) {t : Scope AsOfState}
    (ht : t.state = s) : Raises NoTie (winners row present next) t := by
  unfold winnersAt at h
  obtain ⟨oldBucket, hold, h⟩ := except_bind_eq_ok.mp h
  obtain ⟨newBucket, hnew, h⟩ := except_bind_eq_ok.mp h
  obtain ⟨replacement, hreplacement, h⟩ := except_bind_eq_ok.mp h
  obtain ⟨rep, hrep, h⟩ := except_bind_eq_ok.mp h
  obtain ⟨old, holdChecked, h⟩ := except_bind_eq_ok.mp h
  obtain ⟨new, hnewChecked, -⟩ := except_bind_eq_ok.mp h
  refine .bind ((bucket_raises _ _ _ _).imp fun _ => Ordinary.noTie) fun c t₁ ht₁ => ?_
  obtain ⟨hstate₁, hc⟩ := bucket_eq_ok ht₁
  rw [ht] at hstate₁ hc
  obtain rfl : oldBucket = c := Except.ok.inj (hold.symm.trans hc)
  refine .bind ((bucket_raises _ _ _ _).imp fun _ => Ordinary.noTie) fun c t₂ ht₂ => ?_
  obtain ⟨hstate₂, hc⟩ := bucket_eq_ok ht₂
  rw [hstate₁] at hstate₂ hc
  obtain rfl : newBucket = c := Except.ok.inj (hnew.symm.trans hc)
  refine .bind ((replacementBucket_raises _ _ _ _).imp fun _ => Ordinary.noTie)
    fun c t₃ ht₃ => ?_
  obtain ⟨-, hc⟩ := replacementBucket_eq_ok ht₃
  rw [hstate₂] at hc
  obtain rfl : replacement = c := Except.ok.inj (hreplacement.symm.trans hc)
  exact .ofExcept_bind hrep <| .ofExcept_bind holdChecked <| .ofExcept_bind hnewChecked <|
    .pure _

omit [DecidableEq Value] in
/-- A right event that has left a page is never rejected for a tie. -/
theorem rightPage_noTie {row : PreparedRow} {after : Nat} {cursor : AsOfCursor}
    {out : List (Row Value × Int)} (h : op.Partial row s freshCursor out cursor)
    (hafter : checkedWeight (multiplicity s.rightRows row.key) row.difference = .ok after)
    (output : ArrowOutput Value) {t : Scope AsOfState} (ht : t.state = s) :
    Raises NoTie (op.rightPage row (multiplicity s.rightRows row.key) after cursor output) t := by
  obtain ⟨after', range, next, entries, key, hafter', -, ⟨outer, -, hnext, -⟩, hpage, hcorrects, -⟩ :=
    h.visited
  obtain rfl : after' = after := Except.ok.inj (hafter'.symm.trans hafter)
  -- the page had a left row, so its winners were found
  have hfound : ∃ found, winnersAt s.rightRows row (after' ≠ 0) next = .ok found := by
    unfold Corrects at hcorrects
    rw [if_neg (ne_nil_of_getLast?_key hpage.1)] at hcorrects
    obtain ⟨old, new, hwinners, -⟩ := hcorrects
    exact ⟨_, hwinners⟩
  obtain ⟨found, hfound⟩ := hfound
  refine .ite (fun _ => .ite (fun _ => .throw rfl) fun _ => ?_) fun _ => ?_
  · exact .bind (StepBudget.raises_consumeHead noTie_budget _ _) fun _ _ _ =>
      .bind ((applyWeight_raises _ _ _ _).imp fun _ => Ordinary.noTie) fun _ _ _ => .pure _
  refine .bind ((neighbor_raises _ _ _).imp fun _ => Ordinary.noTie) fun outer' t₁ ht₁ => ?_
  refine .bind ((neighbor_raises _ _ _).imp fun _ => Ordinary.noTie) fun next' t₂ ht₂ => ?_
  have hstate₁ := (neighbor_eq_ok ht₁).1
  obtain ⟨hstate₂, hnext'⟩ := neighbor_eq_ok ht₂
  rw [hstate₁, ht] at hstate₂ hnext'
  obtain rfl : next = next' := Except.ok.inj (hnext.symm.trans hnext')
  refine .bind ?_ fun _ t₃ ht₃ => .get <| .bind ((scan_raises _ _ _ _ _ _ _).imp fun _ =>
    Ordinary.noTie) fun page t₄ ht₄ => .bind (StepBudget.raises_consumeHead noTie_budget _ _)
      fun _ t₅ ht₅ => .bind ?_ fun output' _ _ => ?_
  · unfold checkPosition
    cases cursor.leftResumeAfter with
    | none => exact .pure _
    | some key =>
      exact .ite (fun _ => .throw rfl) fun _ => .bind ((ordinary_charge _ _).imp fun _ =>
        Ordinary.noTie) fun _ _ _ => .get <| .ite (fun _ => .throw rfl) fun _ => .pure _
  · refine .ite (fun _ => .pure _) fun _ => .bind (winners_noTie hfound ?_) fun r _ _ => ?_
    · rw [StepBudget.consumeHead_eq_ok ht₅, (scan_eq_ok ht₄).1, checkPosition_state ht₃, hstate₂]
    · refine .ite (fun _ => (op.extend_raises ?_ _ _).imp fun _ => Ordinary.noTie)
        fun _ => .pure _
      intro item hitem
      obtain ⟨entry, -, hitem⟩ := List.mem_flatMap.mp hitem
      exact correction_fails _ _ _ item hitem
  · cases page.continuation with
    | some key => exact .pure _
    | none =>
      exact .bind ((applyWeight_raises _ _ _ _).imp fun _ => Ordinary.noTie) fun _ _ _ => .pure _

/-- Between the pages of an event, the next page of it is not rejected for a tie. -/
theorem Standing.noTie {relation : Nat → Bag (Row Value)} {port : Nat} {event : Row Value × Int}
    {tail : List (Row Value × Int)} {v : Driving Value} {budget : StepBudget}
    (h : op.Standing relation port (event :: tail) v.cursor s)
    (hvisited : v.cursor.leftResumeAfter ≠ none) :
    Raises NoTie (op.driveRow port (op.prepared port event) v) ⟨s, budget⟩ := by
  obtain ⟨out, hmidway⟩ := h.midway
  rcases hmidway with ⟨hfresh, -⟩ | ⟨event', tail', heq, hport, -, hpart⟩
  · exact absurd (by rw [hfresh]; rfl) hvisited
  cases heq
  refine .bind ((ordinary_charge _ _).imp fun _ => Ordinary.noTie) fun _ t ht => .get <|
    .bind ((Raises.ofExcept (checkedWeight_fails _ _)).imp fun _ => Ordinary.noTie)
      fun after t₁ ht₁ => .ite (fun hzero => absurd hzero hport) fun _ => .bind ?_
        fun _ _ _ => .pure _
  obtain ⟨hafter, rfl⟩ := ofExcept_eq_ok.mp ht₁
  have hstate := (StepBudget.charge_eq_ok ht).1
  have hrows : t.state.rows port = s.rightRows := by
    rw [hstate]
    exact if_neg hport
  rw [hrows] at hafter ⊢
  exact rightPage_noTie hpart hafter v.output hstate

end AsOfJoinOperation

open AsOfJoinOperation
open EquiJoin (byteInsert byteRetract)
open EquiJoin.EquiJoinOperation (portEvents eventsBag eventsBag_portEvents)

/-- The ordered join puts out the reference join of its inputs. Wherever a run stands, no present
left row has two nearest right rows, and an event that has left a page is not rejected for a tie
any more. -/
theorem asOfJoin_incremental {Q : Type} (op : AsOfJoinOperation Ty Value) :
    Incremental (.paged op.paged : Operation AsOfState Q (Row Value)) 2 AsOfState.initial
      (fun inputs => push op.render (op.reference (inputs 0) (inputs 1))) ∧
    ∀ inputs port change resume outputs s,
      Reaches op.paged AsOfState.initial inputs port change resume outputs s →
      (∀ relation, relation = eventsBag (portEvents inputs ++
          (change.events.take resume.ordinal).map fun e => (port, e)) →
        ∀ l, 0 < relation 0 l → ∀ r r', op.Wins (relation 1) l r → op.Wins (relation 1) l r' →
          r = r') ∧
      ∀ event v, change.events[resume.ordinal]? = some event →
        resume.cursor = .asOf v.cursor → v.cursor.leftResumeAfter ≠ none →
        ∀ budget e t, op.driveRow port (op.prepared port event) v ⟨s, budget⟩ = .error e t →
          e ≠ .ambiguousTie := by
  constructor
  · intro inputs outputs s h _
    obtain ⟨-, items, hout, hitems⟩ := (events_of_handlesAll h).accounts op.held_initial
    rw [zero_add, eventsBag_portEvents] at hitems
    have hzero : op.reference ((0 : Nat → Bag (Row Value)) 0) ((0 : Nat → Bag (Row Value)) 1) =
        0 := by
      funext pair
      exact reference_eq_zero rfl pair.2
    rw [hzero, add_zero] at hitems
    show outputsBag outputs = push op.render (op.reference (inputsBag inputs 0)
      (inputsBag inputs 1))
    rw [← hitems, push_weight, ← hout, weight_outputsEvents]
  · intro inputs port change resume outputs s h
    obtain ⟨cursor, hcursor⟩ := reaches_cursor h
    have hstanding := reaches_standing h cursor hcursor
    constructor
    · intro relation hrelation l hpos r r' hr hr'
      rw [← hrelation] at hstanding
      exact hstanding.held.unique hpos hr hr'
    · intro event v hevent hv hvisited budget e t herror
      obtain rfl : cursor = v.cursor := by
        rw [hcursor] at hv
        exact Cursor.asOf.inj hv
      obtain ⟨hlt, hget⟩ := List.getElem?_eq_some_iff.mp hevent
      rw [List.drop_eq_getElem_cons hlt, hget] at hstanding
      have := hstanding.noTie hvisited e t herror
      intro htie
      rw [htie] at this
      cases this

/-! ## A row that comes and goes between two left rows -/

/-- A left row, a right row that it joins, a nearer one, and the nearer one taken back. -/
def byteChanges : List (Nat × Change (Row (Option UInt8))) :=
  [byteInsert 1 (some 1) 5 1, byteInsert 0 (some 1) 8 1, byteInsert 1 (some 1) 7 0,
    byteRetract 1 (some 1) 7 0]

theorem byteAsOf_incremental : ∃ outputs s,
    HandlesAll (.paged (byteAsOf (.backward true)).paged : Operation AsOfState Unit _)
      AsOfState.initial byteChanges outputs s ∧
    outputsEvents outputs =
      [([some 1, some 8, some 1, some 5], 2), ([some 1, some 8, some 1, some 5], -2),
        ([some 1, some 8, some 1, some 7], 2), ([some 1, some 8, some 1, some 7], -2),
        ([some 1, some 8, some 1, some 5], 2)] ∧
    outputsBag outputs = push (byteAsOf (.backward true)).render
      ((byteAsOf (.backward true)).reference (inputsBag byteChanges 0)
        (inputsBag byteChanges 1)) := by
  have h : (runInputs (.paged (byteAsOf (.backward true)).paged : Operation AsOfState Unit _)
      ⟨1, 4096⟩ 4 AsOfState.initial byteChanges).map (fun r => outputsEvents r.1) =
        some [([some 1, some 8, some 1, some 5], 2), ([some 1, some 8, some 1, some 5], -2),
          ([some 1, some 8, some 1, some 7], 2), ([some 1, some 8, some 1, some 7], -2),
          ([some 1, some 8, some 1, some 5], 2)] := by
    decide +kernel
  obtain ⟨⟨outputs, s⟩, hrun, hevents⟩ := Option.map_eq_some_iff.mp h
  have hhandles := handlesAll_of_runInputs hrun
  exact ⟨outputs, s, hhandles, hevents,
    (asOfJoin_incremental _).1 _ _ _ hhandles (by decide)⟩

end Dogpaddle.AsOf
