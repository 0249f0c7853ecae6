import Dogpaddle.EquiJoin.Relate

/-!
# Joins without a residual

Without a residual, all rows of a matchable partition pair with all opposite rows
of it. So the presence of the driving row's partition decides the support of the
opposite rows (`changeOf_supports`), an event observes what the reference needs
(`plain_observed`), and the join is incremental.
-/

namespace Dogpaddle.EquiJoin

open Lib Store Dogpaddle.Relation

variable {Ty Value : Type} [DecidableEq Value]

/-- The change of support a key transition stands for. -/
def KeyTransition.change : KeyTransition → MatchTransition
  | .none => .none
  | .first => .becameMatched
  | .last => .becameUnmatched

namespace EquiJoinOperation

variable {op : EquiJoinOperation Ty Value} {s : JoinState} {port : Nat}
  {own opposite : Bag (Row Value)} {x : Row Value} {d : Int} {effect : RowEffect} {after : Nat}

/-- Support of an opposite row that pairs with `x` is presence of the partition of `x`. -/
theorem supports_iff (hport : port < 2) (hown : ∀ a, 0 < own a → op.Admitted port a)
    (hx : op.Admitted port x) {b : Row Value} (hb : op.Admitted (1 - port) b)
    (hpair : pairsAt op.keysMatch port x b = true) :
    Supports op.keysMatch port own b ↔
      ∃ a, 0 < own a ∧ op.rowKey port a = op.rowKey port x := by
  obtain ⟨hm, hkey⟩ := (op.pairsAt_keysMatch_iff hport hx hb).mp hpair
  constructor
  · rintro ⟨a, hpos, ha⟩
    exact ⟨a, hpos, ((op.pairsAt_keysMatch_iff hport (hown a hpos) hb).mp ha).2.symm.trans hkey⟩
  · rintro ⟨a, hpos, ha⟩
    refine ⟨a, hpos, (op.pairsAt_keysMatch_iff hport (hown a hpos) hb).mpr
      ⟨?_, hkey.trans ha.symm⟩⟩
    rw [← hm]
    exact op.matchable_of_key (hown a hpos) hx ha

/-- A partition is present when its row or another one is. -/
theorem partition_present {relation : Bag (Row Value)} :
    (∃ a, 0 < relation a ∧ op.rowKey port a = op.rowKey port x) ↔
      0 < relation x ∨ ∃ a, a ≠ x ∧ 0 < relation a ∧ op.rowKey port a = op.rowKey port x := by
  constructor
  · rintro ⟨a, hpos, hkey⟩
    by_cases ha : a = x
    · exact .inl (ha ▸ hpos)
    · exact .inr ⟨a, ha, hpos, hkey⟩
  · rintro (hpos | ⟨a, -, hpos, hkey⟩)
    · exact ⟨x, hpos, rfl⟩
    · exact ⟨a, hpos, hkey⟩

/-- The key transition is the change of support of every row that pairs with `x`. -/
theorem changeOf_supports (hport : port < 2) (hplain : op.residual = none)
    (hkind : op.kind ≠ .inner) (hown : op.Stored s port own) (hx : op.Admitted port x)
    (heffect : op.eventEffect (op.prepared port (x, d)) (s.rows port (op.rowKey port x)) =
      .ok (effect, after)) {b : Row Value} (hb : op.Admitted (1 - port) b)
    (hpair : pairsAt op.keysMatch port x b = true) :
    changeOf (Supports op.keysMatch port own b)
      (Supports op.keysMatch port (stepped own x d) b) = effect.transition.change := by
  obtain ⟨hafter, -, htransition⟩ := op.eventEffect_eq_ok heffect
  have hm := ((op.pairsAt_keysMatch_iff hport hx hb).mp hpair).1
  rw [op.prepared_eq (x, d) hx] at hafter htransition
  dsimp only at hafter htransition
  have hbefore := hown.weight x hx
  have hempty := hown.partition_isEmpty (op.rowKey port x)
  have hother := hown.partition_hasOtherKey hx
  generalize multiplicity (s.rows port (op.rowKey port x)) (op.rowBytes port x) = before
    at hafter htransition hbefore
  have hadmitted : ∀ a, 0 < stepped own x d a → op.Admitted port a := by
    intro a hpos
    by_cases ha : a = x
    · rwa [ha]
    · rw [stepped_apply, if_neg ha, add_zero] at hpos
      exact hown.admitted hpos
  have hstep : stepped own x d x = after := by
    rw [stepped_apply, if_pos rfl, ← hbefore, hafter]
  -- Presence before and after, by the row itself and by the other rows of its partition.
  set other := ∃ a, a ≠ x ∧ 0 < own a ∧ op.rowKey port a = op.rowKey port x with hdef
  have hother' : (∃ a, a ≠ x ∧ 0 < stepped own x d a ∧ op.rowKey port a = op.rowKey port x) ↔
      other := by
    refine exists_congr fun a => and_congr_right fun ha => ?_
    rw [stepped_apply, if_neg ha, add_zero]
  have hpresent : (∃ a, 0 < own a ∧ op.rowKey port a = op.rowKey port x) ↔
      0 < before ∨ other := by
    rw [partition_present, ← hbefore]
    exact or_congr_left Int.natCast_pos
  have hpresent' : (∃ a, 0 < stepped own x d a ∧ op.rowKey port a = op.rowKey port x) ↔
      0 < after ∨ other := by
    rw [partition_present, hstep, hother']
    exact or_congr_left Int.natCast_pos
  have hempty' : isEmpty (s.rows port (op.rowKey port x)) = true ↔ ¬ (0 < before ∨ other) := by
    rw [hempty, ← hpresent]
    simp
  rw [supports_iff hport (fun _ => hown.admitted) hx hb hpair,
    supports_iff hport hadmitted hx hb hpair, hpresent, hpresent', htransition]
  generalize isEmpty (s.rows port (op.rowKey port x)) = empty at hempty'
  generalize hasOtherKey (s.rows port (op.rowKey port x)) (op.rowBytes port x) = more at hother
  simp only [hplain, Option.isSome_none, Bool.false_eq_true, if_false, hkind, ne_eq,
    not_false_eq_true, hm, and_self, if_true]
  unfold changeOf
  by_cases ho : other
  · have hmore : more = true := hother.mpr ho
    have hne : empty = false := Bool.not_eq_true _ ▸ fun h => hempty'.mp h (.inr ho)
    simp [ho, hmore, hne, KeyTransition.change]
  · have hmore : more = false := Bool.not_eq_true _ ▸ fun h => ho (hother.mp h)
    simp only [ho, or_false] at hempty' ⊢
    by_cases h0 : before = 0
    · have he : empty = true := hempty'.mpr (by omega)
      by_cases h1 : after = 0 <;>
        simp [h0, h1, he, Nat.pos_iff_ne_zero, KeyTransition.change]
    · have he : empty = false := Bool.not_eq_true _ ▸ fun h => hempty'.mp h (by omega)
      by_cases h1 : after = 0 <;>
        simp [h0, h1, he, hmore, Nat.pos_iff_ne_zero, KeyTransition.change]

/-- An event finds a match when its partition is present on the other side. -/
theorem supported_iff (hport : port < 2) (hopposite : op.Stored s (1 - port) opposite)
    (hx : op.Admitted port x) : Supported op.keysMatch port opposite x ↔
      op.rowMatchable port x = true ∧
        isEmpty (s.rows (1 - port) (op.rowKey port x)) = false := by
  rw [← Bool.not_eq_true, hopposite.partition_isEmpty]
  constructor
  · rintro ⟨b, hpos, hpair⟩
    obtain ⟨hm, hkey⟩ := (op.pairsAt_keysMatch_iff hport hx (hopposite.admitted hpos)).mp hpair
    exact ⟨hm, fun h => h b hpos hkey⟩
  · rintro ⟨hm, h⟩
    push Not at h
    obtain ⟨b, hpos, hkey⟩ := h
    exact ⟨b, hpos,
      (op.pairsAt_keysMatch_iff hport hx (hopposite.admitted hpos)).mpr ⟨hm, hkey⟩⟩

/-- The matches of an event, from the rows of the opposite partition. -/
def plainMatches (op : EquiJoinOperation Ty Value) (s : JoinState) (port : Nat) (x : Row Value)
    (d : Int) (effect : RowEffect) (rows : List (Row Value × ℕ+)) : List (Match (Row Value)) :=
  if op.scans s port (op.prepared port (x, d)) effect then
    rows.map fun e => ⟨e.1, e.2, if op.kind.tracks (1 - port) then effect.transition.change
      else .none⟩
  else []

theorem scans_plain_iff (effect : RowEffect) (hplain : op.residual = none) (hx : op.Admitted port x) :
    op.scans s port (op.prepared port (x, d)) effect = true ↔
      (op.rowMatchable port x = true ∧
        ¬ (op.kind.leftOnly = true ∧ port = 1 ∧ effect.transition = .none)) ∧
      op.oppositeMatched s port (op.prepared port (x, d)) effect = true ∧
        ¬ (op.kind.leftOnly = true ∧ port = 0) := by
  unfold scans
  rw [op.prepared_eq (x, d) hx]
  simp only [hplain, Option.isSome_none, Bool.false_eq_true, if_false, decide_eq_true_eq]
  tauto

/-- Presence of the opposite partition, as the scan reads it. -/
theorem oppositeMatched_iff (hport : port < 2) (hopposite : op.Stored s (1 - port) opposite)
    (hx : op.Admitted port x) (hm : op.rowMatchable port x = true)
    (hmatched : effect.matched = op.rowMatchable port x) :
    op.oppositeMatched s port (op.prepared port (x, d)) effect = true ↔
      op.kind = .inner ∨ Supported op.keysMatch port opposite x := by
  unfold oppositeMatched
  rw [op.prepared_eq (x, d) hx, supported_iff hport hopposite hx]
  by_cases hkind : op.kind = .inner
  · simp [hkind, hmatched, hm]
  · simp [hkind, hm]

/-- An event without a residual observes what the reference needs. -/
theorem plain_observed (hport : port < 2) (hplain : op.residual = none)
    (hown : op.Stored s port own) (hopposite : op.Stored s (1 - port) opposite)
    (hx : op.Admitted port x)
    (heffect : op.eventEffect (op.prepared port (x, d)) (s.rows port (op.rowKey port x)) =
      .ok (effect, after)) {rows : List (Row Value × ℕ+)} (hnodup : (rows.map (·.1)).Nodup)
    (hrows : ∀ e ∈ rows, op.Admitted (1 - port) e.1 ∧
      op.rowKey (1 - port) e.1 = op.rowKey port x ∧ opposite e.1 = ((e.2 : Nat) : Int))
    (hall : ∀ r, 0 < opposite r → op.rowKey (1 - port) r = op.rowKey port x →
      r ∈ rows.map (·.1)) :
    Observed op.kind op.keysMatch port own (stepped own x d) opposite x
      (op.plainMatches s port x d effect rows)
      (op.scannedEffect s port (op.prepared port (x, d)) effect).matched := by
  have hmatched : effect.matched = op.rowMatchable port x := by
    rw [(op.eventEffect_eq_ok heffect).2.1, op.prepared_eq (x, d) hx]
  have hpairs : ∀ {b}, 0 < opposite b → (pairsAt op.keysMatch port x b = true ↔
      op.rowMatchable port x = true ∧ op.rowKey (1 - port) b = op.rowKey port x) :=
    fun hpos => op.pairsAt_keysMatch_iff hport hx (hopposite.admitted hpos)
  -- The matches are the rows of the partition, when it is scanned at all.
  have hmem : ∀ m ∈ op.plainMatches s port x d effect rows, op.rowMatchable port x = true ∧
      ∃ e ∈ rows, m = ⟨e.1, e.2, if op.kind.tracks (1 - port) then effect.transition.change
        else .none⟩ := by
    intro m hm
    unfold plainMatches at hm
    split at hm
    · next hscans =>
      obtain ⟨e, he, rfl⟩ := List.mem_map.mp hm
      exact ⟨((scans_plain_iff effect hplain hx).mp hscans).1.1, e, he, rfl⟩
    · cases hm
  have hfound : op.scans s port (op.prepared port (x, d)) effect = true →
      (op.plainMatches s port x d effect rows).map (·.row) = rows.map (·.1) := by
    intro hscans
    unfold plainMatches
    rw [if_pos hscans, List.map_map]
    rfl
  have hscanned : ∀ b, 0 < opposite b → pairsAt op.keysMatch port x b = true →
      b ∉ (op.plainMatches s port x d effect rows).map (·.row) →
      op.kind.leftOnly = true ∧ (port = 1 → effect.transition = .none) := by
    intro b hpos hpair hb
    obtain ⟨hm, hkey⟩ := (hpairs hpos).mp hpair
    have hno : ¬ op.scans s port (op.prepared port (x, d)) effect = true := by
      intro hscans
      rw [hfound hscans] at hb
      exact hb (hall b hpos hkey)
    rw [scans_plain_iff effect hplain hx, oppositeMatched_iff hport hopposite hx hm hmatched] at hno
    have hsupported : Supported op.keysMatch port opposite x := ⟨b, hpos, hpair⟩
    simp only [hm, hsupported, or_true, true_and] at hno
    by_cases hleft : op.kind.leftOnly = true
    · refine ⟨hleft, fun h1 => ?_⟩
      by_contra hne
      exact hno ⟨fun h => hne h.2.2, fun h => by omega⟩
    · exact absurd ⟨fun h => hleft h.1, fun h => hleft h.1⟩ hno
  refine ⟨?_, ?_, ?_, ?_, ?_, ?_⟩
  · unfold plainMatches
    split
    · rw [List.map_map]
      exact hnodup
    · exact List.nodup_nil
  · intro m hm
    obtain ⟨hmatchable, e, he, rfl⟩ := hmem m hm
    obtain ⟨ha, hkey, hw⟩ := hrows e he
    exact ⟨e.2.pos, hw.symm, (op.pairsAt_keysMatch_iff hport hx ha).mpr ⟨hmatchable, hkey⟩⟩
  · intro hleft b hpos hpair
    by_contra hb
    rw [(hscanned b hpos hpair hb).1] at hleft
    cases hleft
  · intro m hm
    obtain ⟨hmatchable, e, he, rfl⟩ := hmem m hm
    obtain ⟨ha, hkey, -⟩ := hrows e he
    dsimp only
    cases htracks : op.kind.tracks (1 - port) with
    | false => rfl
    | true =>
      simp only [if_true]
      exact (changeOf_supports hport hplain (not_inner_of_tracks htracks) hown hx heffect ha
        ((op.pairsAt_keysMatch_iff hport hx ha).mpr ⟨hmatchable, hkey⟩)).symm
  · intro htracks b hpos hb
    cases hpair : pairsAt op.keysMatch port x b with
    | false => exact supports_stepped_of_not_pairs hpair
    | true =>
      obtain ⟨hleft, hnone⟩ := hscanned b hpos hpair hb
      have hport1 : port = 1 := by have := leftOnly_tracks hleft htracks; omega
      have hchange := changeOf_supports hport hplain (not_inner_of_tracks htracks) hown hx heffect
        (hopposite.admitted hpos) hpair
      rw [hnone hport1] at hchange
      unfold changeOf KeyTransition.change at hchange
      by_contra hiff
      by_cases h1 : Supports op.keysMatch port own b <;>
        by_cases h2 : Supports op.keysMatch port (stepped own x d) b <;> simp_all
  · intro htracks
    have hkind := not_inner_of_tracks htracks
    cases hm : op.rowMatchable port x with
    | false =>
      have hskip : op.scannedEffect s port (op.prepared port (x, d)) effect = effect := by
        unfold scannedEffect
        rw [op.prepared_eq (x, d) hx]
        simp [hm]
      rw [hskip, hmatched, supported_iff hport hopposite hx, hm]
      simp
    | true =>
      have hleft : ¬ (op.kind.leftOnly = true ∧ port = 1 ∧ effect.transition = .none) := by
        rintro ⟨hleft, h1, -⟩
        have := leftOnly_tracks hleft htracks
        omega
      have hscan : op.scannedEffect s port (op.prepared port (x, d)) effect =
          { effect with
            matched := op.oppositeMatched s port (op.prepared port (x, d)) effect } := by
        unfold scannedEffect
        rw [op.prepared_eq (x, d) hx]
        simp only [hm, not_true_eq_false, false_or, hleft, if_false]
      rw [hscan]
      show op.oppositeMatched s port (op.prepared port (x, d)) effect = true ↔ _
      rw [oppositeMatched_iff hport hopposite hx hm hmatched]
      simp [hkind]

omit [DecidableEq Value] in
/-- The items of one match of an event that is not left-only. -/
theorem pair_emits (hport : port < 2) (hleft : op.kind.leftOnly = false) (hx : op.Admitted port x)
    {b : Row Value} (hb : op.Admitted (1 - port) b) (w : ℕ+) (transition : KeyTransition) :
    List.Forall₂ op.Emits
      (((if op.kind.preserves (1 - port) ∧ transition = .first then
          [(oppositeFragments port (op.rowBytes (1 - port) b), -(w : Int))] else []) ++
        [(pairFragments port (op.rowBytes port x) (op.rowBytes (1 - port) b), d * (w : Int))] ++
        (if op.kind.preserves (1 - port) ∧ transition = .last then
          [(oppositeFragments port (op.rowBytes (1 - port) b), (w : Int))] else [])).map checkedItem)
      (matchRows op.kind port x d
        ⟨b, w, if op.kind.tracks (1 - port) then transition.change else .none⟩) := by
  have hpair : op.Emits (checkedItem (pairFragments port (op.rowBytes port x)
      (op.rowBytes (1 - port) b), d * (w : Int))) (side port (some x) (some b), d * (w : Int)) := by
    refine ⟨(op.fragmentsAdmitted_side hport).mpr ⟨?_, ?_⟩, .inr ?_⟩
    · rintro _ ⟨⟩
      exact hx
    · rintro _ ⟨⟩
      exact hb
    · rw [op.pairFragments_eq hport]
  have hopposite : ∀ w' : Int, op.Emits (checkedItem (oppositeFragments port
      (op.rowBytes (1 - port) b), w')) (side port none (some b), w') := by
    intro w'
    refine ⟨(op.fragmentsAdmitted_side hport).mpr ⟨fun _ h => (by cases h), ?_⟩, .inr ?_⟩
    · rintro _ ⟨⟩
      exact hb
    · rw [op.oppositeFragments_eq hport]
  unfold matchRows correctionWeight
  rw [preserves_eq_tracks hleft]
  cases htracks : op.kind.tracks (1 - port) with
  | false => simpa [hleft] using hpair
  | true =>
    cases transition with
    | none => simpa [hleft, KeyTransition.change] using hpair
    | first => simpa [hleft, KeyTransition.change] using ⟨hopposite _, hpair⟩
    | last => simpa [hleft, KeyTransition.change] using ⟨hpair, hopposite _⟩

/-- The output of an event is its items. -/
theorem plain_emits (effect : RowEffect) (hport : port < 2) (hplain : op.residual = none)
    (hx : op.Admitted port x) {rows : List (Row Value × ℕ+)}
    (hrows : ∀ e ∈ rows, op.Admitted (1 - port) e.1)
    (hentries : (s.rows (1 - port) (op.rowKey port x)).entries =
      rows.map fun e => (op.rowBytes (1 - port) e.1, e.2)) :
    List.Forall₂ op.Emits
      (op.outputItems port (op.prepared port (x, d))
        (op.scannedEffect s port (op.prepared port (x, d)) effect)
        (op.candidates s port (op.prepared port (x, d)) effect none))
      (eventItems op.kind port x d (op.plainMatches s port x d effect rows)
        (op.scannedEffect s port (op.prepared port (x, d)) effect).matched) := by
  have hscans := scans_plain_iff (s := s) (d := d) effect hplain hx
  have htransition : (op.scannedEffect s port (op.prepared port (x, d)) effect).transition =
      effect.transition := by
    unfold scannedEffect
    split <;> rfl
  have hcandidates : op.candidates s port (op.prepared port (x, d)) effect none =
      if op.scans s port (op.prepared port (x, d)) effect then
        rows.map fun e => (op.rowBytes (1 - port) e.1, e.2) else [] := by
    unfold candidates
    rw [entriesAfter_none, op.prepared_eq (x, d) hx, hentries]
  have hown : op.Emits (.ok (ownFragments port (op.rowBytes port x), d))
      (side port (some x) none, d) := by
    refine ⟨(op.fragmentsAdmitted_side hport).mpr ⟨?_, fun _ h => by cases h⟩, .inl ?_⟩
    · rintro _ ⟨⟩
      exact hx
    · rw [op.ownFragments_eq hport]
  rw [hcandidates]
  generalize hscanned : op.scannedEffect s port (op.prepared port (x, d)) effect = scanned
    at htransition
  have hprepared := op.prepared_eq (x, d) hx
  unfold outputItems eventItems plainMatches
  cases hleft : op.kind.leftOnly with
  | true =>
    simp only [if_true]
    unfold existenceItems
    obtain rfl | rfl : port = 0 ∨ port = 1 := by omega
    · -- A left row of a left-only kind never scans.
      have hno : ¬ op.scans s 0 (op.prepared 0 (x, d)) effect = true :=
        fun h => (hscans.mp h).2.2 ⟨hleft, rfl⟩
      simp only [hno, if_true, Bool.false_eq_true, if_false, List.flatMap_nil, List.nil_append]
      unfold currentRows
      simp only [hleft, and_self, if_true]
      have hsemi : (op.kind == .leftSemi) = decide (op.kind = .leftSemi) := rfl
      rw [hsemi, hprepared]
      split
      · exact .cons hown .nil
      · exact .nil
    · have hcurrent : currentRows op.kind 1 x d scanned.matched = [] := by
        unfold currentRows
        simp [leftOnly_preserves hleft]
      rw [if_neg one_ne_zero, htransition, hcurrent, List.append_nil]
      by_cases hscan : op.scans s 1 (op.prepared 1 (x, d)) effect = true
      · rw [if_pos hscan, if_pos hscan, List.flatMap_map]
        have htracks : op.kind.tracks 0 = true := by
          cases hk : op.kind <;> simp_all [EquiJoinKind.leftOnly, EquiJoinKind.tracks]
        have hitem : ∀ e ∈ rows, ∀ sign : Int, op.Emits
            (checkedItem ([some (op.rowBytes 0 e.1), none],
              sign * (if op.kind == .leftSemi then 1 else -1) * ((e.2 : Nat) : Int)))
            (side 1 none (some e.1), sign * correctionWeight op.kind 1 e.2) := by
          intro e he sign
          refine ⟨(op.fragmentsAdmitted_side hport).mpr ⟨fun _ h => (by cases h), ?_⟩, .inr ?_⟩
          · rintro _ ⟨⟩
            exact hrows e he
          · rw [leftOnly_correctionWeight hleft, ← mul_assoc]
            rfl
        have hnone : effect.transition ≠ .none :=
          fun h => (hscans.mp hscan).1.2 ⟨hleft, rfl, h⟩
        cases ht : effect.transition with
        | none => exact absurd ht hnone
        | first =>
          dsimp only
          rw [List.map_map, List.map_eq_flatMap]
          refine forall₂_flatMap fun e he => ?_
          simpa [matchRows, hleft, htracks, KeyTransition.change] using hitem e he 1
        | last =>
          dsimp only
          rw [List.map_map, List.map_eq_flatMap]
          refine forall₂_flatMap fun e he => ?_
          simpa [matchRows, hleft, htracks, KeyTransition.change] using hitem e he (-1)
      · rw [if_neg hscan, if_neg hscan]
        cases effect.transition <;> exact .nil
  | false =>
    have hcurrent : currentRows op.kind port x d scanned.matched =
        if scanned.matched = false ∧ op.kind.preserves port = true then
          [(side port (some x) none, d)] else [] := by
      unfold currentRows
      simp [hleft, and_comm]
    simp only [Bool.false_eq_true, if_false]
    rw [hcurrent]
    by_cases hscan : op.scans s port (op.prepared port (x, d)) effect = true
    · rw [if_pos hscan, if_pos hscan, List.flatMap_map, List.flatMap_map]
      -- A scanned partition was found matched, so the driving row itself is not put out.
      have hmatched : scanned.matched = true := by
        obtain ⟨⟨hm, hskip⟩, hmatched, -⟩ := hscans.mp hscan
        rw [← hscanned]
        unfold scannedEffect
        rw [if_neg]
        · exact hmatched
        · rw [hprepared]
          simpa [hm] using hskip
      simp only [hmatched, Bool.true_eq_false, false_and, if_false, List.append_nil,
        not_true_eq_false, List.map_eq_nil_iff]
      split
      · next hnil =>
        subst hnil
        exact .nil
      · refine forall₂_flatMap fun e he => ?_
        rw [hprepared, htransition]
        exact pair_emits hport hleft hx (hrows e he) e.2 effect.transition
    · rw [if_neg hscan, if_neg hscan, if_pos rfl, List.flatMap_nil, List.nil_append]
      simp only [Bool.not_eq_true]
      split
      · rw [hprepared]
        exact .cons hown .nil
      · exact .nil

/-- An event of a join without a residual keeps the relations and puts out the
change of the reference. -/
theorem plain_step (hplain : op.residual = none) {relation : Nat → Bag (Row Value)}
    {event : Row Value × Int} {out : List (Row Value × Int)} {s' : JoinState}
    (h : op.Relations s relation) (hport : port < 2) (hx : op.Admitted port event.1)
    (hfinal : op.Final port (op.prepared port event) s freshCursor out s') :
    op.Relations s' (stepAt relation port event) ∧
      op.Accounts op.keysMatch relation (stepAt relation port event) out := by
  obtain ⟨effect, after, found, s₁, heffect, hvisit, rfl⟩ := hfinal.visited
  obtain ⟨x, d⟩ := event
  have hq : 1 - port < 2 := by omega
  have hown := h.stored hport
  have hopposite := h.stored hq
  cases hvisit with
  | residual hresidual => rw [hplain] at hresidual; cases hresidual
  | plain _ hout =>
    have hkey : (op.prepared port (x, d)).key = op.rowKey port x := by
      rw [op.prepared_eq (x, d) hx]
    rw [hkey] at heffect ⊢
    obtain ⟨rows, hentries, hnodup, hrows, hall⟩ := hopposite.partitionRows (op.rowKey port x)
    have hobserved := plain_observed hport hplain hown hopposite hx heffect hnodup hrows hall
    have hemits := plain_emits (s := s) (d := d) effect hport hplain hx
      (fun e he => (hrows e he).1) hentries
    have hafter : (after : Int) = relation port x + d := by
      rw [(op.eventEffect_eq_ok heffect).1, op.prepared_eq (x, d) hx,
        ← hown.weight x hx]
    obtain ⟨hown', hopposite'⟩ := hown.setRow hport hopposite hx hafter
    refine ⟨?_, _, Emits.rows hemits hout, ?_⟩
    · obtain rfl | rfl : port = 0 ∨ port = 1 := by omega
      · exact ⟨hown', hopposite'⟩
      · exact ⟨hopposite', hown'⟩
    · obtain ⟨hbefore, hafter'⟩ := referenceAt_stepAt op.kind op.keysMatch hport relation (x, d)
      rw [← hbefore, ← hafter']
      exact weight_eventItems hport hobserved hopposite.nonneg

end EquiJoinOperation

variable {Q : Type}

/-- A join without a residual puts out the bag join of its inputs. -/
theorem equiJoin_incremental (op : EquiJoinOperation Ty Value) (hplain : op.residual = none) :
    Incremental (.paged op.paged : Operation JoinState Q (Row Value)) 2 JoinState.initial
      (fun inputs => push op.render (reference op.kind op.keysMatch (inputs 0) (inputs 1))) := by
  intro inputs outputs s h _
  have hevents := op.events_of_handlesAll h
  have hinitial : op.Relations JoinState.initial 0 := ⟨op.stored_initial 0, op.stored_initial 1⟩
  exact op.outputsBag_of_accounts
    (hevents.accounts op.Relations
      (fun hinv hport _ hx hfinal => EquiJoinOperation.plain_step hplain hinv hport hx hfinal)
      hinitial).2

/-! ## A full outer join of two-column rows -/

/-- Joins on the first of two byte columns. -/
def byteJoin (kind : EquiJoinKind)
    (residual : Option (Row (Option UInt8) → Except OperationError (Option Bool))) :
    EquiJoinOperation Unit (Option UInt8) where
  fmt := byteFormat
  kind := kind
  leftSchema := [⟨(), true⟩, ⟨(), true⟩]
  rightSchema := [⟨(), true⟩, ⟨(), true⟩]
  bound _ _ := true
  keys := [⟨⟨fun row => .ok (row.headD none), (), true⟩,
    ⟨fun row => .ok (row.headD none), (), true⟩, rfl⟩]
  residual := residual

/-- A row and `more` copies of it as an input. -/
def byteInsert (port : Nat) (key : Option UInt8) (value : UInt8) (more : Nat) :
    Nat × Change (Row (Option UInt8)) :=
  (port, ⟨2, [([key, some value], more + 1)], by simp, by simp; omega⟩)

/-- A row and `more` copies of it taken back. -/
def byteRetract (port : Nat) (key : Option UInt8) (value : UInt8) (more : Nat) :
    Nat × Change (Row (Option UInt8)) :=
  (port, ⟨2, [([key, some value], -(more + 1))], by simp, by simp; omega⟩)

/-- Two right rows, a left row that matches both, and a left row without a key. -/
def byteInputs : List (Nat × Change (Row (Option UInt8))) :=
  [byteInsert 1 (some 1) 7 1, byteInsert 1 (some 1) 8 0, byteInsert 0 (some 1) 5 0,
    byteInsert 0 none 6 0]

/-- With one item for each page, the matching left row takes two pages; the
outputs add up to the full outer join. -/
theorem byteJoin_incremental :
    (byteJoin .fullOuter none).residual = none ∧ ∃ outputs s,
      HandlesAll (.paged (byteJoin .fullOuter none).paged : Operation JoinState Unit _)
        JoinState.initial byteInputs outputs s ∧ outputs.length = 5 ∧
      outputsEvents outputs =
        [([none, none, some 1, some 7], 2), ([none, none, some 1, some 8], 1),
          ([none, none, some 1, some 7], -2), ([some 1, some 5, some 1, some 7], 2),
          ([none, none, some 1, some 8], -1), ([some 1, some 5, some 1, some 8], 1),
          ([none, some 6, none, none], 1)] ∧
      outputsBag outputs = push (byteJoin .fullOuter none).render
        (reference .fullOuter (byteJoin .fullOuter none).keysMatch (inputsBag byteInputs 0)
          (inputsBag byteInputs 1)) := by
  have h : (runInputs (.paged (byteJoin .fullOuter none).paged : Operation JoinState Unit _)
      ⟨1, 4096⟩ 4 JoinState.initial byteInputs).map (fun r => (r.1.length, outputsEvents r.1)) =
        some (5, [([none, none, some 1, some 7], 2), ([none, none, some 1, some 8], 1),
          ([none, none, some 1, some 7], -2), ([some 1, some 5, some 1, some 7], 2),
          ([none, none, some 1, some 8], -1), ([some 1, some 5, some 1, some 8], 1),
          ([none, some 6, none, none], 1)]) := by
    decide +kernel
  obtain ⟨⟨outputs, s⟩, hrun, hout⟩ := Option.map_eq_some_iff.mp h
  have hhandles := handlesAll_of_runInputs hrun
  obtain ⟨hlength, hevents⟩ := Prod.mk.inj hout
  exact ⟨rfl, outputs, s, hhandles, hlength, hevents,
    equiJoin_incremental _ rfl _ _ _ hhandles (by decide)⟩

end Dogpaddle.EquiJoin
