import Dogpaddle.EquiJoin.Runtime
import Dogpaddle.Lib.Bag
import Mathlib.Tactic.Ring
import Mathlib.Data.Set.Card

/-!
# The reference join and the delta of one event

`reference` is the bag join of two relations, over pairs of optional rows: a
`none` stands for the `NULL` columns of an unmatched row.

`Observed` says what an event must know about the two relations: the matching
opposite rows with their weights, which of them change between matched and
unmatched, and whether the driving row has a match. From that alone, the items of
the event add up to the difference of the reference before and after it
(`weight_eventItems`).

Everything here is about arbitrary rows and an arbitrary pairing.
-/

namespace Dogpaddle.EquiJoin

open Lib

/-- An output row by its left and right fragments. -/
abbrev Fragments (R : Type) := Option R × Option R

section Reference

open scoped Classical in
/-- The bag join of two relations. -/
noncomputable def reference {R : Type} (kind : EquiJoinKind) (pairs : R → R → Bool)
    (left right : Bag R) : Bag (Fragments R)
  | (some l, some r) => if kind.leftOnly = false ∧ pairs l r then left l * right r else 0
  | (some l, none) =>
    let supported := ∃ r, 0 < right r ∧ pairs l r
    match kind with
    | .inner => 0
    | .leftSemi => if supported then left l else 0
    | .leftAnti | .leftOuter | .fullOuter => if supported then 0 else left l
  | (none, some r) =>
    let supported := ∃ l, 0 < left l ∧ pairs l r
    match kind with
    | .fullOuter => if supported then 0 else right r
    | _ => 0
  | (none, none) => 0

end Reference

/-! ## Seen from one port -/

section Port

variable {R : Type}

/-- The fragments of an own and an opposite row. -/
def side (port : Nat) (own opposite : Option R) : Fragments R :=
  if port = 0 then (own, opposite) else (opposite, own)

/-- The pairing of an own and an opposite row. -/
def pairsAt (pairs : R → R → Bool) (port : Nat) (own opposite : R) : Bool :=
  if port = 0 then pairs own opposite else pairs opposite own

/-- The contribution of a row of a port on its own, by whether it has a match. -/
def alone (kind : EquiJoinKind) (port : Nat) (matched : Bool) (weight : Int) : Int :=
  if kind.leftOnly ∧ port = 0 then if matched = decide (kind = .leftSemi) then weight else 0
  else if kind.preserves port ∧ ¬ matched then weight else 0

/-- The reference with the relations given as own and opposite. -/
noncomputable def referenceAt (kind : EquiJoinKind) (pairs : R → R → Bool) (port : Nat)
    (own opposite : Bag R) : Bag (Fragments R) :=
  if port = 0 then reference kind pairs own opposite else reference kind pairs opposite own

theorem alone_add (kind : EquiJoinKind) (port : Nat) (matched : Bool) (v w : Int) :
    alone kind port matched (v + w) = alone kind port matched v + alone kind port matched w := by
  unfold alone
  split
  · split <;> simp
  · split <;> simp

/-- Whether an own row has a match. -/
def Supported (pairs : R → R → Bool) (port : Nat) (opposite : Bag R) (own : R) : Prop :=
  ∃ b, 0 < opposite b ∧ pairsAt pairs port own b = true

/-- Whether an opposite row has a match. -/
def Supports (pairs : R → R → Bool) (port : Nat) (own : Bag R) (opposite : R) : Prop :=
  ∃ a, 0 < own a ∧ pairsAt pairs port a opposite = true

variable (kind : EquiJoinKind) (pairs : R → R → Bool) {port : Nat}

theorem referenceAt_pair (own opposite : Bag R) (a b : R) :
    referenceAt kind pairs port own opposite (side port (some a) (some b)) =
      if kind.leftOnly = false ∧ pairsAt pairs port a b then own a * opposite b else 0 := by
  unfold referenceAt side pairsAt
  by_cases hport : port = 0
  · simp [hport, reference]
  · simp only [hport, if_false, reference]
    rw [mul_comm]

open scoped Classical in
theorem referenceAt_own (hport : port < 2) (own opposite : Bag R) (a : R) :
    referenceAt kind pairs port own opposite (side port (some a) none) =
      alone kind port (decide (Supported pairs port opposite a)) (own a) := by
  unfold referenceAt side Supported pairsAt
  obtain rfl | rfl : port = 0 ∨ port = 1 := by omega
  · simp only [if_true, reference]
    by_cases hs : ∃ r, 0 < opposite r ∧ pairs a r = true <;>
      cases kind <;> simp only [hs, if_true, if_false] <;> rfl
  · simp only [one_ne_zero, if_false, reference]
    by_cases hs : ∃ l, 0 < opposite l ∧ pairs l a = true <;>
      cases kind <;> simp only [hs, if_true, if_false] <;> rfl

open scoped Classical in
theorem referenceAt_opposite (hport : port < 2) (own opposite : Bag R) (b : R) :
    referenceAt kind pairs port own opposite (side port none (some b)) =
      alone kind (1 - port) (decide (Supports pairs port own b)) (opposite b) := by
  unfold referenceAt side Supports pairsAt
  obtain rfl | rfl : port = 0 ∨ port = 1 := by omega
  · simp only [if_true, reference]
    by_cases hs : ∃ l, 0 < own l ∧ pairs l b = true <;>
      cases kind <;> simp only [hs, if_true, if_false] <;> rfl
  · simp only [one_ne_zero, if_false, reference]
    by_cases hs : ∃ r, 0 < own r ∧ pairs b r = true <;>
      cases kind <;> simp only [hs, if_true, if_false] <;> rfl

theorem referenceAt_none (own opposite : Bag R) :
    referenceAt kind pairs port own opposite (side port none none) = 0 := by
  unfold referenceAt side
  by_cases hport : port = 0 <;> simp [hport, reference]

theorem side_surjective (port : Nat) (f : Fragments R) : ∃ own opposite, f = side port own opposite := by
  obtain ⟨l, r⟩ := f
  by_cases hport : port = 0
  · exact ⟨l, r, by simp [side, hport]⟩
  · exact ⟨r, l, by simp [side, hport]⟩

@[simp] theorem side_inj {own own' opposite opposite' : Option R} :
    side port own opposite = side port own' opposite' ↔ own = own' ∧ opposite = opposite' := by
  unfold side
  by_cases hport : port = 0 <;> simp [hport, and_comm]

end Port

/-! ## One event -/

section Event

variable {R : Type} [DecidableEq R]

/-- An opposite row met by an event. -/
structure Match (R : Type) where
  row : R
  weight : Nat
  transition : MatchTransition

/-- The correction of an opposite row that becomes matched. -/
def correctionWeight (kind : EquiJoinKind) (port : Nat) (weight : Nat) : Int :=
  if kind.preserves (1 - port) then -(weight : Int)
  else if kind = .leftSemi then (weight : Int) else -(weight : Int)

/-- The items of one match. -/
def matchRows (kind : EquiJoinKind) (port : Nat) (own : R) (difference : Int) (m : Match R) :
    List (Fragments R × Int) :=
  let correction := correctionWeight kind port m.weight
  (if m.transition = .becameMatched then [(side port none (some m.row), correction)] else []) ++
    (if ¬ kind.leftOnly then
      [(side port (some own) (some m.row), difference * (m.weight : Int))] else []) ++
    (if m.transition = .becameUnmatched then [(side port none (some m.row), -correction)] else [])

/-- The driving row on its own. -/
def currentRows (kind : EquiJoinKind) (port : Nat) (own : R) (difference : Int)
    (foundMatch : Bool) : List (Fragments R × Int) :=
  if kind.leftOnly ∧ port = 0 then
    if foundMatch = decide (kind = .leftSemi) then [(side port (some own) none, difference)] else []
  else if kind.preserves port ∧ ¬ foundMatch then [(side port (some own) none, difference)]
  else []

/-- The items of an event. -/
def eventItems (kind : EquiJoinKind) (port : Nat) (own : R) (difference : Int)
    (found : List (Match R)) (foundMatch : Bool) : List (Fragments R × Int) :=
  found.flatMap (matchRows kind port own difference) ++
    currentRows kind port own difference foundMatch

/-- Whether unmatched rows of a port show in the output. -/
def EquiJoinKind.tracks (kind : EquiJoinKind) (port : Nat) : Bool :=
  match kind with
  | .inner => false
  | .fullOuter => true
  | .leftSemi | .leftAnti | .leftOuter => port == 0

theorem not_inner_of_tracks {kind : EquiJoinKind} {p : Nat} (h : kind.tracks p = true) :
    kind ≠ .inner := by
  rintro rfl
  cases h

theorem leftOnly_tracks {kind : EquiJoinKind} {p : Nat} (hleft : kind.leftOnly = true)
    (h : kind.tracks p = true) : p = 0 := by
  cases kind <;> simp_all [EquiJoinKind.leftOnly, EquiJoinKind.tracks]

/-- Outside the left-only kinds, corrections are made exactly for tracked ports. -/
theorem preserves_eq_tracks {kind : EquiJoinKind} (hleft : kind.leftOnly = false) (p : Nat) :
    kind.preserves p = kind.tracks p := by
  cases kind <;> simp_all [EquiJoinKind.leftOnly, EquiJoinKind.preserves, EquiJoinKind.tracks]

theorem leftOnly_preserves {kind : EquiJoinKind} (hleft : kind.leftOnly = true) (p : Nat) :
    kind.preserves p = false := by
  cases kind <;> simp_all [EquiJoinKind.leftOnly, EquiJoinKind.preserves]

theorem leftOnly_correctionWeight {kind : EquiJoinKind} (hleft : kind.leftOnly = true) (p w : Nat) :
    correctionWeight kind p w = (if kind == .leftSemi then 1 else -1) * (w : Int) := by
  unfold correctionWeight
  rw [leftOnly_preserves hleft]
  by_cases hsemi : kind = .leftSemi <;> simp [hsemi]

open scoped Classical in
/-- How support changes. -/
noncomputable def changeOf (before after : Prop) : MatchTransition :=
  if ¬ before ∧ after then .becameMatched else if before ∧ ¬ after then .becameUnmatched else .none

/-- What an event knows about the relations when its row goes from `own` to
`own'`. -/
structure Observed (kind : EquiJoinKind) (pairs : R → R → Bool) (port : Nat)
    (own own' opposite : Bag R) (row : R) (found : List (Match R)) (foundMatch : Bool) : Prop where
  nodup : (found.map (·.row)).Nodup
  present : ∀ m ∈ found, 0 < m.weight ∧ (m.weight : Int) = opposite m.row ∧
    pairsAt pairs port row m.row = true
  complete : kind.leftOnly = false →
    ∀ b, 0 < opposite b → pairsAt pairs port row b = true → b ∈ found.map (·.row)
  transition : ∀ m ∈ found, m.transition = if kind.tracks (1 - port) then
    changeOf (Supports pairs port own m.row) (Supports pairs port own' m.row) else .none
  unchanged : kind.tracks (1 - port) = true → ∀ b, 0 < opposite b → b ∉ found.map (·.row) →
    (Supports pairs port own b ↔ Supports pairs port own' b)
  foundMatch : kind.tracks port = true → (foundMatch = true ↔ Supported pairs port opposite row)

/-- Rows of a port without output of their own contribute nothing. -/
theorem alone_of_not_tracks {kind : EquiJoinKind} {port : Nat} (h : kind.tracks port = false)
    (matched : Bool) (w : Int) : alone kind port matched w = 0 := by
  unfold alone
  cases kind <;> simp_all [EquiJoinKind.tracks, EquiJoinKind.leftOnly, EquiJoinKind.preserves]

/-- The correction is the change of an opposite row's own contribution. -/
theorem correctionWeight_eq {kind : EquiJoinKind} {port : Nat} (hport : port < 2)
    (h : kind.tracks (1 - port) = true) (w : Nat) : correctionWeight kind port w =
      alone kind (1 - port) true w - alone kind (1 - port) false w := by
  obtain rfl | rfl : port = 0 ∨ port = 1 := by omega
  all_goals cases kind <;>
    simp_all [correctionWeight, alone, EquiJoinKind.tracks, EquiJoinKind.leftOnly,
      EquiJoinKind.preserves]

theorem weight_currentRows_own (kind : EquiJoinKind) (port : Nat) (own : R) (d : Int)
    (foundMatch : Bool) (a : R) :
    weight (currentRows kind port own d foundMatch) (side port (some a) none) =
      if a = own then alone kind port foundMatch d else 0 := by
  unfold currentRows alone
  split
  · split <;> simp [eq_comm]
  · split <;> simp [eq_comm]

theorem weight_currentRows_other (kind : EquiJoinKind) (port : Nat) (own : R) (d : Int)
    (foundMatch : Bool) (u : Option R) (b : R) :
    weight (currentRows kind port own d foundMatch) (side port u (some b)) = 0 := by
  unfold currentRows
  split
  · split <;> simp
  · split <;> simp

theorem weight_matchRows_pair (kind : EquiJoinKind) (port : Nat) (own : R) (d : Int) (m : Match R)
    (a b : R) : weight (matchRows kind port own d m) (side port (some a) (some b)) =
      if m.row = b ∧ a = own ∧ kind.leftOnly = false then d * m.weight else 0 := by
  unfold matchRows
  simp only [weight_append, Pi.add_apply]
  have hskip : ∀ (c : Prop) [Decidable c] (w : Int),
      weight (if c then [(side port none (some m.row), w)] else [])
        (side port (some a) (some b)) = 0 := by
    intro c _ w
    split <;> simp
  rw [hskip, hskip]
  cases kind.leftOnly <;> simp [eq_comm, and_comm]

theorem weight_matchRows_own (kind : EquiJoinKind) (port : Nat) (own : R) (d : Int) (m : Match R)
    (u : Option R) : weight (matchRows kind port own d m) (side port u none) = 0 := by
  unfold matchRows
  simp only [weight_append, Pi.add_apply]
  split <;> split <;> split <;> simp

theorem weight_matchRows_opposite (kind : EquiJoinKind) (port : Nat) (own : R) (d : Int)
    (m : Match R) (b : R) : weight (matchRows kind port own d m) (side port none (some b)) =
      if m.row = b then match m.transition with
        | .none => 0
        | .becameMatched => correctionWeight kind port m.weight
        | .becameUnmatched => -correctionWeight kind port m.weight
      else 0 := by
  unfold matchRows
  simp only [weight_append, Pi.add_apply]
  have hpair : weight (if ¬ kind.leftOnly then
      [(side port (some own) (some m.row), d * (m.weight : Int))] else [])
        (side port none (some b)) = 0 := by
    split <;> simp
  rw [hpair]
  cases m.transition <;> simp

/-- Of rows without duplicates, at most one contributes to an element. -/
theorem sum_map_match {found : List (Match R)} (hnodup : (found.map (·.row)).Nodup) (b : R)
    (f : Match R → Int) : (∃ m ∈ found, m.row = b ∧
      (found.map fun m => if m.row = b then f m else 0).sum = f m) ∨
      (b ∉ found.map (·.row) ∧ (found.map fun m => if m.row = b then f m else 0).sum = 0) := by
  induction found with
  | nil => exact .inr ⟨by simp, rfl⟩
  | cons m found ih =>
    rw [List.map_cons, List.nodup_cons] at hnodup
    rw [List.map_cons, List.sum_cons]
    by_cases hm : m.row = b
    · refine .inl ⟨m, by simp, hm, ?_⟩
      rcases ih hnodup.2 with ⟨m', hm', hb, -⟩ | ⟨-, hsum⟩
      · exact absurd (List.mem_map.mpr ⟨m', hm', hb.trans hm.symm⟩) hnodup.1
      · rw [if_pos hm, hsum, add_zero]
    · rw [if_neg hm, zero_add]
      rcases ih hnodup.2 with ⟨m', hm', hb, hsum⟩ | ⟨hb, hsum⟩
      · exact .inl ⟨m', by simp [hm'], hb, hsum⟩
      · refine .inr ⟨?_, hsum⟩
        rw [List.map_cons, List.mem_cons]
        exact fun h => h.elim (fun h => hm h.symm) hb

variable {kind : EquiJoinKind} {pairs : R → R → Bool} {port : Nat} {own own' opposite : Bag R}
  {row : R} {found : List (Match R)} {foundMatch : Bool} {d : Int}

/-- The relation after an event. -/
def stepped (own : Bag R) (row : R) (d : Int) : Bag R := own + weight [(row, d)]

theorem stepped_apply (own : Bag R) (row a : R) (d : Int) :
    stepped own row d a = own a + if a = row then d else 0 := by
  unfold stepped
  rw [Pi.add_apply, weight_singleton]
  simp only [eq_comm]

/-- An event only changes the support of the rows it pairs with. -/
theorem supports_stepped_of_not_pairs {b : R} (h : pairsAt pairs port row b = false) :
    Supports pairs port own b ↔ Supports pairs port (stepped own row d) b := by
  have hsame : ∀ a, pairsAt pairs port a b = true → stepped own row d a = own a := by
    intro a ha
    have hne : a ≠ row := fun heq => by rw [heq, h] at ha; cases ha
    rw [stepped_apply, if_neg hne, add_zero]
  constructor
  · rintro ⟨a, hpos, ha⟩
    exact ⟨a, by rwa [hsame a ha], ha⟩
  · rintro ⟨a, hpos, ha⟩
    exact ⟨a, by rwa [← hsame a ha], ha⟩

theorem pair_delta (h : Observed kind pairs port own (stepped own row d) opposite row found
    foundMatch) (hopposite : ∀ b, 0 ≤ opposite b) (a b : R) :
    weight (eventItems kind port row d found foundMatch) (side port (some a) (some b)) +
        referenceAt kind pairs port own opposite (side port (some a) (some b)) =
      referenceAt kind pairs port (stepped own row d) opposite (side port (some a) (some b)) := by
  rw [referenceAt_pair, referenceAt_pair]
  unfold eventItems
  rw [weight_append, Pi.add_apply, weight_currentRows_other, add_zero, weight_flatMap]
  simp only [weight_matchRows_pair]
  cases hleft : kind.leftOnly with
  | true => simp
  | false =>
    by_cases ha : a = row
    · subst ha
      simp only [and_true, true_and]
      have hstep : stepped own a d a = own a + d := by simp [stepped_apply]
      rcases sum_map_match h.nodup b (fun m => d * (m.weight : Int)) with
        ⟨m, hm, rfl, hsum⟩ | ⟨hb, hsum⟩
      · obtain ⟨-, hw, hpair⟩ := h.present m hm
        rw [hsum, hpair, if_pos rfl, if_pos rfl, hw, hstep]
        ring
      · rw [hsum]
        by_cases hpair : pairsAt pairs port a b = true
        · -- A pair that is not among the matches has an absent opposite row.
          have hzero : opposite b = 0 := by
            have hnot : ¬ 0 < opposite b := fun hpos => hb (h.complete hleft b hpos hpair)
            have := hopposite b
            omega
          rw [if_pos hpair, if_pos hpair, hzero]
          simp
        · simp [hpair]
    · simp [ha, stepped_apply]

theorem own_delta (hport : port < 2) (h : Observed kind pairs port own (stepped own row d)
    opposite row found foundMatch) (a : R) :
    weight (eventItems kind port row d found foundMatch) (side port (some a) none) +
        referenceAt kind pairs port own opposite (side port (some a) none) =
      referenceAt kind pairs port (stepped own row d) opposite (side port (some a) none) := by
  classical
  rw [referenceAt_own kind pairs hport, referenceAt_own kind pairs hport]
  unfold eventItems
  rw [weight_append, Pi.add_apply, weight_currentRows_own, weight_flatMap]
  simp only [weight_matchRows_own, List.map_const', List.sum_replicate, smul_zero, zero_add]
  rw [stepped_apply]
  by_cases ha : a = row
  · subst ha
    rw [if_pos rfl, if_pos rfl, alone_add, add_comm]
    congr 1
    cases ht : kind.tracks port with
    | false => rw [alone_of_not_tracks ht, alone_of_not_tracks ht]
    | true =>
      congr 1
      exact Bool.eq_iff_iff.mpr ((h.foundMatch ht).trans decide_eq_true_iff.symm)
  · simp [ha]

theorem opposite_delta (hport : port < 2) (h : Observed kind pairs port own own' opposite row
    found foundMatch) (hopposite : ∀ b, 0 ≤ opposite b) (b : R) :
    weight (eventItems kind port row d found foundMatch) (side port none (some b)) +
        referenceAt kind pairs port own opposite (side port none (some b)) =
      referenceAt kind pairs port own' opposite (side port none (some b)) := by
  classical
  rw [referenceAt_opposite kind pairs hport, referenceAt_opposite kind pairs hport]
  unfold eventItems
  rw [weight_append, Pi.add_apply, weight_currentRows_other, add_zero, weight_flatMap]
  simp only [weight_matchRows_opposite]
  cases ht : kind.tracks (1 - port) with
  | false =>
    rw [alone_of_not_tracks ht, alone_of_not_tracks ht, add_zero]
    refine List.sum_eq_zero fun x hx => ?_
    obtain ⟨m, hm, rfl⟩ := List.mem_map.mp hx
    have := h.transition m hm
    simp only [ht, Bool.false_eq_true, if_false] at this
    simp [this]
  | true =>
    rcases sum_map_match h.nodup b (fun m => match m.transition with
        | .none => 0
        | .becameMatched => correctionWeight kind port m.weight
        | .becameUnmatched => -correctionWeight kind port m.weight) with
      ⟨m, hm, rfl, hsum⟩ | ⟨hb, hsum⟩
    · rw [hsum, h.transition m hm, if_pos ht, correctionWeight_eq hport ht, (h.present m hm).2.1]
      unfold changeOf
      by_cases hbefore : Supports pairs port own m.row <;>
        by_cases hafter : Supports pairs port own' m.row <;> simp [hbefore, hafter]
    · rw [hsum, zero_add]
      rcases lt_or_eq_of_le (hopposite b) with hpos | hzero
      · rw [show decide (Supports pairs port own b) = decide (Supports pairs port own' b) from
          decide_eq_decide.mpr (h.unchanged ht b hpos hb)]
      · rw [← hzero]
        unfold alone
        simp

/-- The items of an event add up to the change of the reference. -/
theorem weight_eventItems (hport : port < 2)
    (h : Observed kind pairs port own (stepped own row d) opposite row found foundMatch)
    (hopposite : ∀ b, 0 ≤ opposite b) :
    weight (eventItems kind port row d found foundMatch) +
        referenceAt kind pairs port own opposite =
      referenceAt kind pairs port (stepped own row d) opposite := by
  funext f
  rw [Pi.add_apply]
  obtain ⟨u, v, rfl⟩ := side_surjective port f
  cases u with
  | some a =>
    cases v with
    | some b => exact pair_delta h hopposite a b
    | none => exact own_delta hport h a
  | none =>
    cases v with
    | some b => exact opposite_delta hport h hopposite b
    | none =>
      rw [referenceAt_none, referenceAt_none, add_zero]
      refine weight_eq_zero fun hmem => ?_
      obtain ⟨e, he, hf⟩ := List.mem_map.mp hmem
      unfold eventItems matchRows currentRows at he
      simp only [List.mem_append, List.mem_flatMap] at he
      rcases he with ⟨m, -, he⟩ | he
      · rcases he with (he | he) | he <;> split at he <;> simp at he <;> subst he <;> simp at hf
      · split at he <;> split at he <;> simp at he <;> subst he <;> simp at hf

end Event

/-! ## Numbers of partners -/

section Partners

variable {R : Type} {pairs : R → R → Bool} {port : Nat}

/-- The present opposite rows a row pairs with. -/
def partners (pairs : R → R → Bool) (port : Nat) (opposite : Bag R) (row : R) : Set R :=
  {b | 0 < opposite b ∧ pairsAt pairs port row b = true}

theorem pairsAt_swap (hport : port < 2) (a b : R) :
    pairsAt pairs (1 - port) b a = pairsAt pairs port a b := by
  obtain rfl | rfl : port = 0 ∨ port = 1 := by omega
  all_goals rfl

theorem supported_iff_partners {opposite : Bag R} {row : R}
    (hfinite : (partners pairs port opposite row).Finite) :
    Supported pairs port opposite row ↔ (partners pairs port opposite row).ncard ≠ 0 := by
  rw [← Nat.pos_iff_ne_zero, Set.ncard_pos hfinite]
  exact Iff.rfl

theorem supports_iff_partners (hport : port < 2) {own : Bag R} {b : R}
    (hfinite : (partners pairs (1 - port) own b).Finite) :
    Supports pairs port own b ↔ (partners pairs (1 - port) own b).ncard ≠ 0 := by
  rw [← supported_iff_partners hfinite]
  unfold Supported Supports
  simp only [pairsAt_swap hport]

variable [DecidableEq R] {own : Bag R} {x b : R} {d : Int}

/-- An event leaves the partners of the rows it does not pair with. -/
theorem partners_stepped_of_not_pairs (hport : port < 2) (h : pairsAt pairs port x b = false) :
    partners pairs (1 - port) (stepped own x d) b = partners pairs (1 - port) own b := by
  ext a
  unfold partners
  simp only [Set.mem_ofPred_eq, pairsAt_swap hport]
  refine and_congr_left fun ha => ?_
  have hne : a ≠ x := fun heq => by rw [heq, h] at ha; cases ha
  rw [stepped_apply, if_neg hne, add_zero]

/-- An event that keeps its row present keeps all partners. -/
theorem partners_stepped_of_present (hbefore : 0 < own x) (hafter : 0 < own x + d) :
    partners pairs (1 - port) (stepped own x d) b = partners pairs (1 - port) own b := by
  ext a
  unfold partners
  simp only [Set.mem_ofPred_eq, stepped_apply]
  refine and_congr_left fun _ => ?_
  by_cases ha : a = x
  · subst ha
    simp [hbefore, hafter]
  · simp [ha]

theorem ncard_partners_first (hport : port < 2) (h : pairsAt pairs port x b = true)
    (hfinite : (partners pairs (1 - port) own b).Finite) (hbefore : own x = 0)
    (hafter : 0 < own x + d) : (partners pairs (1 - port) (stepped own x d) b).ncard =
      (partners pairs (1 - port) own b).ncard + 1 := by
  have hinsert : partners pairs (1 - port) (stepped own x d) b =
      insert x (partners pairs (1 - port) own b) := by
    ext a
    unfold partners
    simp only [Set.mem_ofPred_eq, Set.mem_insert_iff, pairsAt_swap hport, stepped_apply]
    by_cases ha : a = x
    · subst ha
      simp [hafter, h]
    · simp [ha]
  rw [hinsert, Set.ncard_insert_of_notMem _ hfinite]
  exact fun hmem => by
    rw [partners, Set.mem_ofPred_eq, hbefore] at hmem
    exact lt_irrefl _ hmem.1

theorem ncard_partners_last (hport : port < 2) (h : pairsAt pairs port x b = true)
    (hfinite : (partners pairs (1 - port) own b).Finite) (hbefore : 0 < own x)
    (hafter : own x + d = 0) : (partners pairs (1 - port) (stepped own x d) b).ncard + 1 =
      (partners pairs (1 - port) own b).ncard := by
  have hmem : x ∈ partners pairs (1 - port) own b := by
    rw [partners, Set.mem_ofPred_eq, pairsAt_swap hport]
    exact ⟨hbefore, h⟩
  have herase : partners pairs (1 - port) (stepped own x d) b =
      partners pairs (1 - port) own b \ {x} := by
    ext a
    unfold partners
    simp only [Set.mem_ofPred_eq, Set.mem_sdiff, Set.mem_singleton_iff, stepped_apply]
    by_cases ha : a = x
    · subst ha
      simp [hafter]
    · simp [ha]
  rw [herase, Set.ncard_sdiff_singleton_add_one hmem hfinite]

end Partners

end Dogpaddle.EquiJoin
