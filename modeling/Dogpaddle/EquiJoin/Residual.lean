import Dogpaddle.EquiJoin.Relate

/-!
# Joins with a residual

With a residual, a row is unmatched or matched by the number of opposite rows it
qualifies with, and the join stores that number for each row of a tracked port.

* `joinedRows` are the rows of the opposite partition that join with a driving
  row; the event visits exactly their bytes.
* `Counted` says that the stored numbers are the exact ones; `settled_counts` is
  what a page does to them, `residual_step` what an event does.
* `residual_observed`: from exact counts, an event knows what the reference needs.
-/

namespace Dogpaddle.EquiJoin

open Lib Store Dogpaddle.Relation

variable {Ty Value : Type} [DecidableEq Value]

namespace EquiJoinOperation

/-- A pair joins when its keys match and the residual accepts it. -/
def joins (op : EquiJoinOperation Ty Value)
    (residual : Row Value → Except OperationError (Option Bool)) (l r : Row Value) : Bool :=
  op.keysMatch l r && accepts residual (l ++ r)

variable {op : EquiJoinOperation Ty Value}
  {residual : Row Value → Except OperationError (Option Bool)} {s : JoinState} {port : Nat}
  {own opposite : Bag (Row Value)} {x : Row Value} {d : Int} {effect : RowEffect} {after : Nat}

/-! ## The rows an event joins with -/

theorem pairsAt_joins (hport : port < 2) {a b : Row Value} (ha : op.Admitted port a)
    (hb : op.Admitted (1 - port) b) :
    pairsAt (op.joins residual) port a b =
      (pairsAt op.keysMatch port a b &&
        op.qualifies residual port (op.rowBytes port a) (op.rowBytes (1 - port) b)) := by
  have hda := op.decodeFragment_map port (f := some a) (by rintro _ ⟨⟩; exact ha)
  have hdb := op.decodeFragment_map (1 - port) (f := some b) (by rintro _ ⟨⟩; exact hb)
  obtain rfl | rfl : port = 0 ∨ port = 1 := by omega
  all_goals
    simp only [Option.map_some, Option.getD_some, schema, if_true, one_ne_zero, if_false,
      Nat.sub_self, Nat.sub_zero] at hda hdb
    simp [pairsAt, joins, qualifies, pairFragments, RowFormat.appendRow, hda, hdb,
      Except.map]

/-- The rows of the opposite partition that join with a driving row. -/
def joinedRows (op : EquiJoinOperation Ty Value)
    (residual : Row Value → Except OperationError (Option Bool)) (port : Nat) (x : Row Value)
    (rows : List (Row Value × ℕ+)) : List (Row Value × ℕ+) :=
  if op.rowMatchable port x then rows.filter fun e =>
    op.qualifies residual port (op.rowBytes port x) (op.rowBytes (1 - port) e.1)
  else []

/-- The joined rows an event visits: none when a stable left-only row reads its
count instead. -/
def visitedRows (op : EquiJoinOperation Ty Value)
    (residual : Row Value → Except OperationError (Option Bool)) (port : Nat) (x : Row Value)
    (effect : RowEffect) (rows : List (Row Value × ℕ+)) : List (Row Value × ℕ+) :=
  if op.kind.leftOnly ∧ effect.transition = .none then [] else op.joinedRows residual port x rows

/-- A partition given as rows. -/
structure PartitionRows (op : EquiJoinOperation Ty Value) (s : JoinState) (port : Nat)
    (opposite : Bag (Row Value)) (x : Row Value) (rows : List (Row Value × ℕ+)) : Prop where
  entries : (s.rows (1 - port) (op.rowKey port x)).entries =
    rows.map fun e => (op.rowBytes (1 - port) e.1, e.2)
  nodup : (rows.map (·.1)).Nodup
  row : ∀ e ∈ rows, op.Admitted (1 - port) e.1 ∧
    op.rowKey (1 - port) e.1 = op.rowKey port x ∧ opposite e.1 = ((e.2 : Nat) : Int)
  all : ∀ r, 0 < opposite r → op.rowKey (1 - port) r = op.rowKey port x → r ∈ rows.map (·.1)

namespace PartitionRows

variable {rows : List (Row Value × ℕ+)}

theorem joined_sublist (op : EquiJoinOperation Ty Value)
    (residual : Row Value → Except OperationError (Option Bool)) (port : Nat) (x : Row Value)
    (rows : List (Row Value × ℕ+)) : (op.joinedRows residual port x rows).Sublist rows := by
  unfold joinedRows
  split
  · exact List.filter_sublist
  · exact List.nil_sublist _

theorem joined_nodup (h : op.PartitionRows s port opposite x rows)
    (residual : Row Value → Except OperationError (Option Bool)) :
    ((op.joinedRows residual port x rows).map (·.1)).Nodup :=
  h.nodup.sublist ((joined_sublist op residual port x rows).map _)

/-- The joined rows are the partners of the driving row. -/
theorem mem_joined (h : op.PartitionRows s port opposite x rows)
    (residual : Row Value → Except OperationError (Option Bool)) (hport : port < 2)
    (hopposite : op.Stored s (1 - port) opposite) (hx : op.Admitted port x) (b : Row Value) :
    b ∈ (op.joinedRows residual port x rows).map (·.1) ↔
      b ∈ partners (op.joins residual) port opposite x := by
  unfold partners
  rw [Set.mem_ofPred_eq]
  constructor
  · intro hb
    obtain ⟨e, he, rfl⟩ := List.mem_map.mp hb
    obtain ⟨ha, hkey, hw⟩ := h.row e ((joined_sublist op residual port x rows).subset he)
    unfold joinedRows at he
    split at he
    · next hm =>
      refine ⟨by rw [hw]; exact_mod_cast e.2.pos, ?_⟩
      rw [pairsAt_joins hport hx ha, Bool.and_eq_true, op.pairsAt_keysMatch_iff hport hx ha]
      exact ⟨⟨hm, hkey⟩, (List.mem_filter.mp he).2⟩
    · cases he
  · rintro ⟨hpos, hpair⟩
    have ha := hopposite.admitted hpos
    rw [pairsAt_joins hport hx ha, Bool.and_eq_true, op.pairsAt_keysMatch_iff hport hx ha]
      at hpair
    obtain ⟨⟨hm, hkey⟩, hq⟩ := hpair
    obtain ⟨e, he, rfl⟩ := List.mem_map.mp (h.all b hpos hkey)
    refine List.mem_map.mpr ⟨e, ?_, rfl⟩
    unfold joinedRows
    rw [if_pos hm]
    exact List.mem_filter.mpr ⟨he, hq⟩

theorem partners_eq (h : op.PartitionRows s port opposite x rows)
    (residual : Row Value → Except OperationError (Option Bool)) (hport : port < 2)
    (hopposite : op.Stored s (1 - port) opposite) (hx : op.Admitted port x) :
    partners (op.joins residual) port opposite x =
      (((op.joinedRows residual port x rows).map (·.1)).toFinset : Set (Row Value)) := by
  ext b
  rw [← h.mem_joined residual hport hopposite hx]
  simp

theorem ncard_partners (h : op.PartitionRows s port opposite x rows)
    (residual : Row Value → Except OperationError (Option Bool)) (hport : port < 2)
    (hopposite : op.Stored s (1 - port) opposite) (hx : op.Admitted port x) :
    (partners (op.joins residual) port opposite x).ncard =
      (op.joinedRows residual port x rows).length := by
  rw [h.partners_eq residual hport hopposite hx, Set.ncard_coe_finset,
    List.toFinset_card_of_nodup (h.joined_nodup residual), List.length_map]

/-- The qualifying candidates of an event. -/
theorem qualified (h : op.PartitionRows s port opposite x rows) (effect : RowEffect)
    (hresidual : op.residual = some residual) (hx : op.Admitted port x) :
    (op.candidates s port (op.prepared port (x, d)) effect none).filter
        (fun e => op.qualifies residual port (op.prepared port (x, d)).row e.1) =
      (op.visitedRows residual port x effect rows).map
        fun e => (op.rowBytes (1 - port) e.1, e.2) := by
  unfold candidates scans visitedRows joinedRows
  rw [entriesAfter_none, op.prepared_eq (x, d) hx, h.entries]
  simp only [hresidual, Option.isSome_some, if_true, decide_eq_true_eq]
  by_cases hstable : op.kind.leftOnly = true ∧ effect.transition = .none
  · simp [hstable]
  · rw [if_neg hstable]
    cases op.rowMatchable port x with
    | false => simp
    | true =>
      simp only [hstable, not_true_eq_false, or_self, not_false_eq_true, if_true,
        List.filter_map]
      rfl

end PartitionRows

theorem Stored.partition (hopposite : op.Stored s (1 - port) opposite) (x : Row Value) :
    ∃ rows, op.PartitionRows s port opposite x rows := by
  obtain ⟨rows, hentries, hnodup, hrow, hall⟩ := hopposite.partitionRows (op.rowKey port x)
  exact ⟨rows, hentries, hnodup, hrow, hall⟩

theorem Stored.partners_finite (hport : port < 2) (hopposite : op.Stored s (1 - port) opposite)
    (hx : op.Admitted port x) : (partners (op.joins residual) port opposite x).Finite := by
  obtain ⟨rows, h⟩ := hopposite.partition x
  rw [h.partners_eq residual hport hopposite hx]
  exact Finset.finite_toSet _

/-! ## What a page does to the counts -/

/-- The key of a row's count. -/
def countKey (op : EquiJoinOperation Ty Value) (port : Nat) (row : Row Value) : Bytes :=
  actualMatchKey port (op.rowBytes port row)

omit [DecidableEq Value] in
theorem countKey_inj {p q : Nat} (hp : p < 2) (hq : q < 2) {r r' : Row Value}
    (hr : op.Admitted p r) (hr' : op.Admitted q r') :
    op.countKey p r = op.countKey q r' ↔ p = q ∧ r = r' := by
  unfold countKey
  rw [actualMatchKey_inj hp hq]
  constructor
  · rintro ⟨rfl, h⟩
    exact ⟨rfl, (op.rowBytes_inj hr hr').mp h⟩
  · rintro ⟨rfl, rfl⟩
    exact ⟨rfl, rfl⟩

omit [DecidableEq Value] in
theorem tracksMatchCount_eq (port : Nat) : op.tracksMatchCount port = op.kind.tracks port := rfl

/-- The matches of a page, with the transitions its counts give them. -/
def countedMatches (op : EquiJoinOperation Ty Value) (port : Nat) (effect : RowEffect)
    (counts : OrdMap Bytes Nat) (joined : List (Row Value × ℕ+)) : List (Match (Row Value)) :=
  if op.kind.leftOnly ∧ port = 0 then [] else joined.map fun e => ⟨e.1, e.2,
    if op.kind.tracks (1 - port) then matchTransition (countAt counts (op.countKey (1 - port) e.1))
      (effect.transition.shift (countAt counts (op.countKey (1 - port) e.1)) 1)
    else .none⟩

/-- A match as the page carries it. -/
def encodeMatch (op : EquiJoinOperation Ty Value) (port : Nat) (m : Match (Row Value)) :
    PreparedMatch :=
  ⟨op.rowBytes (1 - port) m.row, m.weight, m.transition⟩

/-- The count of a row after a page: the driving row moves by the number of joined
rows, each of these by one. -/
def settledCount (op : EquiJoinOperation Ty Value) (port : Nat) (x : Row Value)
    (effect : RowEffect) (joined : List (Row Value × ℕ+)) (p : Nat) (r : Row Value)
    (count : Nat) : Nat :=
  if p = port then
    if op.kind.tracks port = true ∧ r = x then effect.transition.shift count joined.length
    else count
  else if op.kind.tracks p = true ∧ r ∈ joined.map (·.1) then effect.transition.shift count 1
  else count

omit [DecidableEq Value] in
theorem keptMatches_rows (op : EquiJoinOperation Ty Value) (port : Nat)
    (joined : List (Row Value × ℕ+)) :
    op.keptMatches port (joined.map fun e => (op.rowBytes (1 - port) e.1, e.2)) =
      if op.kind.leftOnly ∧ port = 0 then [] else
        joined.map fun e => (⟨op.rowBytes (1 - port) e.1, e.2, .none⟩ : PreparedMatch) := by
  unfold keptMatches
  rw [List.map_map]
  rfl

omit [DecidableEq Value] in
theorem keptMatches_nodup {joined : List (Row Value × ℕ+)}
    (hjoined : ∀ e ∈ joined, op.Admitted (1 - port) e.1) (hnodup : (joined.map (·.1)).Nodup) :
    ((op.keptMatches port (joined.map fun e => (op.rowBytes (1 - port) e.1, e.2))).map
      (·.row)).Nodup := by
  rw [keptMatches_rows]
  split
  · exact List.nodup_nil
  · rw [List.map_map]
    refine (List.nodup_map_iff_inj_on (hnodup.of_map _)).mpr fun e he e' he' heq => ?_
    have hrow := (op.rowBytes_inj (hjoined e he) (hjoined e' he')).mp heq
    exact List.inj_on_of_nodup_map hnodup he he' hrow

theorem settled_counts (hport : port < 2) (hx : op.Admitted port x)
    {joined : List (Row Value × ℕ+)} (hjoined : ∀ e ∈ joined, op.Admitted (1 - port) e.1)
    (hnodup : (joined.map (·.1)).Nodup) {continuation : Option Bytes} {f : Bool}
    {c c' : OrdMap Bytes Nat} {found : List PreparedMatch} (hc : NoZero c)
    (h : op.settleCounts port (op.prepared port (x, d)) effect
      ⟨op.keptMatches port (joined.map fun e => (op.rowBytes (1 - port) e.1, e.2)), joined.length,
        continuation, 0⟩ f c = .ok (c', found)) :
    NoZero c' ∧
      (∀ {p r}, p < 2 → op.Admitted p r → countAt c' (op.countKey p r) =
        op.settledCount port x effect joined p r (countAt c (op.countKey p r))) ∧
      (∀ key, countAt c' key ≠ 0 → countAt c key ≠ 0 ∨
        ∃ p r, p < 2 ∧ op.Admitted p r ∧ key = op.countKey p r) ∧
      found = (op.countedMatches port effect c joined).map (op.encodeMatch port) := by
  have hq : 1 - port < 2 := by omega
  have hswap : 1 - port ≠ port := by omega
  obtain ⟨c₁, hown, hmatches, -⟩ := op.settleCounts_eq_ok.mp h
  obtain ⟨hc₁, hcount₁⟩ := op.adjustOwn_countAt hc hown
  rw [op.prepared_eq (x, d) hx] at hcount₁
  change ∀ key, countAt c₁ key = if op.kind.tracks port = true ∧ key = op.countKey port x
    then effect.transition.shift (countAt c key) joined.length else countAt c key at hcount₁
  set kept := op.keptMatches port (joined.map fun e => (op.rowBytes (1 - port) e.1, e.2))
    with hkept
  have hkeptEq := keptMatches_rows op port joined
  rw [← hkept] at hkeptEq
  have hrows : (kept.map (·.row)).Nodup := keptMatches_nodup hjoined hnodup
  obtain ⟨hc', hcount, hfound⟩ := op.adjustMatches_countAt hport hc₁ hrows hmatches
  simp only [tracksMatchCount_eq] at hcount hfound
  -- A left-only driving row keeps no matches, and then the other port is not tracked.
  have hkeys : op.kind.tracks (1 - port) = true →
      kept.map (fun m => actualMatchKey (1 - port) m.row) =
        joined.map fun e => op.countKey (1 - port) e.1 := by
    intro htracks
    rw [hkeptEq, if_neg, List.map_map]
    · rfl
    · rintro ⟨hleft, h0⟩
      have := leftOnly_tracks hleft htracks
      omega
  refine ⟨hc', ?_, ?_, ?_⟩
  · intro p r hp hr
    rw [hcount, hcount₁]
    unfold settledCount
    by_cases hpp : p = port
    · subst hpp
      have hnot : ¬ (op.kind.tracks (1 - p) = true ∧ op.countKey p r ∈
          kept.map fun m => actualMatchKey (1 - p) m.row) := by
        rintro ⟨htracks, hmem⟩
        rw [hkeys htracks] at hmem
        obtain ⟨e, he, heq⟩ := List.mem_map.mp hmem
        exact hswap ((countKey_inj hq hp (hjoined e he) hr).mp heq).1
      refine (if_neg hnot).trans ?_
      rw [if_pos rfl]
      exact if_congr (and_congr_right fun _ =>
        (countKey_inj hp hp hr hx).trans (and_iff_right rfl)) rfl rfl
    · obtain rfl : p = 1 - port := by omega
      have hne : op.countKey (1 - port) r ≠ op.countKey port x :=
        fun heq => hpp ((countKey_inj hp hport hr hx).mp heq).1
      rw [if_neg hpp, if_neg (c := op.kind.tracks port = true ∧ _) fun h => hne h.2]
      refine if_congr (and_congr_right fun htracks => ?_) rfl rfl
      rw [hkeys htracks, List.mem_map, List.mem_map]
      constructor
      · rintro ⟨e, he, heq⟩
        exact ⟨e, he, ((countKey_inj hq hq (hjoined e he) hr).mp heq).2⟩
      · rintro ⟨e, he, rfl⟩
        exact ⟨e, he, rfl⟩
  · intro key hne
    rw [hcount, hcount₁] at hne
    by_cases hmem : op.kind.tracks (1 - port) = true ∧
        key ∈ kept.map fun m => actualMatchKey (1 - port) m.row
    · rw [hkeys hmem.1] at hmem
      obtain ⟨e, he, heq⟩ := List.mem_map.mp hmem.2
      exact .inr ⟨1 - port, e.1, hq, hjoined e he, heq.symm⟩
    · by_cases hown : op.kind.tracks port = true ∧ key = op.countKey port x
      · exact .inr ⟨port, x, hport, hx, hown.2⟩
      · exact .inl fun hzero => hne (((if_neg hmem).trans (if_neg hown)).trans hzero)
  · rw [hfound, hkeptEq]
    unfold countedMatches
    by_cases hleft : op.kind.leftOnly = true ∧ port = 0
    · rw [if_pos hleft, if_pos hleft]
      rfl
    · rw [if_neg hleft, if_neg hleft, List.map_map, List.map_map]
      refine List.map_congr_left fun e he => ?_
      have hne : op.countKey (1 - port) e.1 ≠ op.countKey port x :=
        fun heq => hswap ((countKey_inj hq hport (hjoined e he) hx).mp heq).1
      have hsame : countAt c₁ (op.countKey (1 - port) e.1) =
          countAt c (op.countKey (1 - port) e.1) := by
        rw [hcount₁, if_neg fun h => hne h.2]
      unfold countKey at hsame
      simp only [Function.comp_apply, encodeMatch, countKey, hsame]

/-! ## Exact counts -/

/-- The stored counts are the numbers of partners of the present rows. -/
structure Counted (op : EquiJoinOperation Ty Value) (pairs : Row Value → Row Value → Bool)
    (counts : OrdMap Bytes Nat) (relation : Nat → Bag (Row Value)) : Prop where
  noZero : NoZero counts
  count : ∀ {port r}, port < 2 → op.Admitted port r → countAt counts (op.countKey port r) =
    if op.kind.tracks port = true ∧ 0 < relation port r
      then (partners pairs port (relation (1 - port)) r).ncard else 0
  key : ∀ {key}, countAt counts key ≠ 0 →
    ∃ port r, port < 2 ∧ op.Admitted port r ∧ key = op.countKey port r

omit [DecidableEq Value] in
theorem counted_initial (pairs : Row Value → Row Value → Bool) :
    op.Counted pairs JoinState.initial.matchCounts 0 := by
  have hzero : ∀ key, countAt JoinState.initial.matchCounts key = 0 := fun _ => rfl
  refine ⟨fun key h => (by cases h), fun _ _ => ?_, fun h => absurd (hzero _) h⟩
  rw [hzero, if_neg]
  rintro ⟨-, h⟩
  exact lt_irrefl _ h

/-- Presence of the driving row before and after an event decides its transition. -/
theorem residual_transition (hresidual : op.residual = some residual)
    (hown : op.Stored s port own) (hx : op.Admitted port x) (hd : d ≠ 0)
    (heffect : op.eventEffect (op.prepared port (x, d)) (s.rows port (op.rowKey port x)) =
      .ok (effect, after)) : (after : Int) = own x + d ∧
      ((own x = 0 ∧ 0 < own x + d ∧ effect.transition = .first) ∨
        (0 < own x ∧ own x + d = 0 ∧ effect.transition = .last) ∨
        (0 < own x ∧ 0 < own x + d ∧ effect.transition = .none)) := by
  obtain ⟨hafter, -, htransition⟩ := op.eventEffect_eq_ok heffect
  rw [op.prepared_eq (x, d) hx] at hafter htransition
  simp only [hresidual, Option.isSome_some, if_true] at htransition
  dsimp only at hafter
  have hbefore := hown.weight x hx
  generalize multiplicity (s.rows port (op.rowKey port x)) (op.rowBytes port x) = before
    at hafter htransition hbefore
  rw [htransition, ← hbefore]
  refine ⟨hafter, ?_⟩
  by_cases h0 : before = 0
  · by_cases h1 : after = 0
    · omega
    · exact .inl ⟨by omega, by omega, by rw [if_pos ⟨h0, h1⟩]⟩
  · by_cases h1 : after = 0
    · exact .inr (.inl ⟨by omega, by omega, by rw [if_neg fun h => h0 h.1, if_pos ⟨h0, h1⟩]⟩)
    · exact .inr (.inr ⟨by omega, by omega,
        by rw [if_neg fun h => h0 h.1, if_neg fun h => h1 h.2]⟩)

theorem visitedRows_of_transition {rows : List (Row Value × ℕ+)}
    (h : effect.transition ≠ .none) :
    op.visitedRows residual port x effect rows = op.joinedRows residual port x rows :=
  if_neg fun hstable => h hstable.2

theorem visitedRows_sublist (op : EquiJoinOperation Ty Value)
    (residual : Row Value → Except OperationError (Option Bool)) (port : Nat) (x : Row Value)
    (effect : RowEffect) (rows : List (Row Value × ℕ+)) :
    (op.visitedRows residual port x effect rows).Sublist (op.joinedRows residual port x rows) := by
  unfold visitedRows
  split
  · exact List.nil_sublist _
  · exact List.Sublist.refl _

/-- An event keeps the counts exact. -/
theorem Counted.settled {relation : Nat → Bag (Row Value)} {c c' : OrdMap Bytes Nat}
    (h : op.Counted (op.joins residual) c relation) (hrelations : op.Relations s relation)
    (hport : port < 2) (hx : op.Admitted port x) {rows : List (Row Value × ℕ+)}
    (hrows : op.PartitionRows s port (relation (1 - port)) x rows)
    (htransition : (relation port x = 0 ∧ 0 < relation port x + d ∧ effect.transition = .first) ∨
      (0 < relation port x ∧ relation port x + d = 0 ∧ effect.transition = .last) ∨
      (0 < relation port x ∧ 0 < relation port x + d ∧ effect.transition = .none))
    (hc' : NoZero c')
    (hcount : ∀ {p r}, p < 2 → op.Admitted p r → countAt c' (op.countKey p r) =
      op.settledCount port x effect (op.visitedRows residual port x effect rows) p r
        (countAt c (op.countKey p r)))
    (hkey : ∀ key, countAt c' key ≠ 0 → countAt c key ≠ 0 ∨
      ∃ p r, p < 2 ∧ op.Admitted p r ∧ key = op.countKey p r) :
    op.Counted (op.joins residual) c' (stepAt relation port (x, d)) := by
  have hq : 1 - port < 2 := by omega
  have hopposite := hrelations.stored hq
  refine ⟨hc', ?_, fun hne => (hkey _ hne).elim h.key id⟩
  intro p r hp hr
  rw [hcount hp hr, h.count hp hr]
  unfold settledCount
  by_cases hpp : p = port
  · subst hpp
    rw [if_pos rfl, stepAt_own, stepAt_opposite hport, stepped_apply]
    by_cases hrx : r = x
    · subst hrx
      have hn := hrows.ncard_partners residual hport hopposite hx
      cases htracks : op.kind.tracks p with
      | false => simp
      | true =>
        simp only [true_and, and_self, if_true]
        rcases htransition with ⟨hbefore, hafter, ht⟩ | ⟨hbefore, hafter, ht⟩ |
          ⟨hbefore, hafter, ht⟩
        · rw [visitedRows_of_transition (by rw [ht]; decide), ht, ← hn, hbefore, if_neg (by omega),
            if_pos (by omega)]
          exact Nat.zero_add _
        · rw [visitedRows_of_transition (by rw [ht]; decide), ht, ← hn, if_pos hbefore,
            if_neg (by omega)]
          exact Nat.sub_self _
        · rw [ht, if_pos hbefore, if_pos hafter]
          rfl
    · simp only [hrx, and_false, if_false, add_zero]
  · obtain rfl : p = 1 - port := by omega
    have hback : 1 - (1 - port) = port := by omega
    rw [if_neg hpp, stepAt_opposite hport, hback, stepAt_own]
    cases htracks : op.kind.tracks (1 - port) with
    | false => simp
    | true =>
      simp only [true_and]
      have hmem := hrows.mem_joined residual hport hopposite hx r
      by_cases hpos : 0 < relation (1 - port) r
      · rw [if_pos hpos, if_pos hpos]
        have hown := hrelations.stored hport
        have hfinite : (partners (op.joins residual) (1 - port) (relation port) r).Finite :=
          Stored.partners_finite hq (by rw [hback]; exact hown) hr
        cases hpair : pairsAt (op.joins residual) port x r with
        | false =>
          have hnot : r ∉ (op.visitedRows residual port x effect rows).map (·.1) := by
            intro h
            have hp := hmem.mp (((visitedRows_sublist op residual port x effect rows).map _).subset h)
            rw [partners, Set.mem_ofPred_eq, hpair] at hp
            cases hp.2
          rw [if_neg hnot, partners_stepped_of_not_pairs hport hpair]
        | true =>
          have hjoined : r ∈ (op.joinedRows residual port x rows).map (·.1) :=
            hmem.mpr ⟨hpos, hpair⟩
          rcases htransition with ⟨hbefore, hafter, ht⟩ | ⟨hbefore, hafter, ht⟩ |
            ⟨hbefore, hafter, ht⟩
          · rw [visitedRows_of_transition (by rw [ht]; decide), if_pos hjoined, ht,
              ncard_partners_first hport hpair hfinite hbefore hafter]
            rfl
          · rw [visitedRows_of_transition (by rw [ht]; decide), if_pos hjoined, ht,
              ← ncard_partners_last hport hpair hfinite hbefore hafter]
            exact Nat.add_sub_cancel _ _
          · rw [ht, partners_stepped_of_present hbefore hafter]
            split <;> rfl
      · have hnot : r ∉ (op.visitedRows residual port x effect rows).map (·.1) :=
          fun h => hpos (hmem.mp (((visitedRows_sublist op residual port x effect rows).map _).subset h)).1
        rw [if_neg hpos, if_neg hpos, if_neg hnot]

/-! ## One event -/

/-- An event with exact counts observes what the reference needs. -/
theorem residual_observed {relation : Nat → Bag (Row Value)} {c : OrdMap Bytes Nat}
    (h : op.Counted (op.joins residual) c relation) (hrelations : op.Relations s relation)
    (hport : port < 2) (hx : op.Admitted port x) {rows : List (Row Value × ℕ+)}
    (hrows : op.PartitionRows s port (relation (1 - port)) x rows)
    (htransition : (relation port x = 0 ∧ 0 < relation port x + d ∧ effect.transition = .first) ∨
      (0 < relation port x ∧ relation port x + d = 0 ∧ effect.transition = .last) ∨
      (0 < relation port x ∧ 0 < relation port x + d ∧ effect.transition = .none))
    {foundMatch : Bool} (hfound : op.kind.tracks port = true →
      (foundMatch = true ↔ op.joinedRows residual port x rows ≠ [])) :
    Observed op.kind (op.joins residual) port (relation port) (stepped (relation port) x d)
      (relation (1 - port)) x
      (op.countedMatches port effect c (op.visitedRows residual port x effect rows))
      foundMatch := by
  have hq : 1 - port < 2 := by omega
  have hback : 1 - (1 - port) = port := by omega
  have hown := hrelations.stored hport
  have hopposite := hrelations.stored hq
  have hmem := hrows.mem_joined residual hport hopposite hx
  have hfinite : ∀ {b}, op.Admitted (1 - port) b →
      (partners (op.joins residual) (1 - port) (relation port) b).Finite :=
    fun hb => Stored.partners_finite hq (by rw [hback]; exact hown) hb
  have hvisited : ∀ e ∈ op.visitedRows residual port x effect rows,
      e ∈ op.joinedRows residual port x rows := (visitedRows_sublist op residual port x effect rows).subset
  have hcounted : ∀ m ∈ op.countedMatches port effect c
      (op.visitedRows residual port x effect rows), ∃ e ∈ op.joinedRows residual port x rows,
      m = ⟨e.1, e.2, if op.kind.tracks (1 - port) then
        matchTransition (countAt c (op.countKey (1 - port) e.1))
          (effect.transition.shift (countAt c (op.countKey (1 - port) e.1)) 1) else .none⟩ := by
    intro m hm
    unfold countedMatches at hm
    split at hm
    · cases hm
    · obtain ⟨e, he, rfl⟩ := List.mem_map.mp hm
      exact ⟨e, hvisited e he, rfl⟩
  have hall : op.kind.leftOnly = false →
      (op.countedMatches port effect c (op.visitedRows residual port x effect rows)).map (·.row) =
        (op.joinedRows residual port x rows).map (·.1) := by
    intro hleft
    unfold countedMatches visitedRows
    simp [hleft, Function.comp_def]
  refine ⟨?_, ?_, ?_, ?_, ?_, ?_⟩
  · unfold countedMatches
    split
    · exact List.nodup_nil
    · rw [List.map_map]
      exact (hrows.joined_nodup residual).sublist ((visitedRows_sublist op residual port x effect rows).map _)
  · intro m hm
    obtain ⟨e, he, rfl⟩ := hcounted m hm
    obtain ⟨hpos, hpair⟩ := (hmem e.1).mp (List.mem_map.mpr ⟨e, he, rfl⟩)
    refine ⟨e.2.pos, ?_, hpair⟩
    exact ((hrows.row e ((PartitionRows.joined_sublist op residual port x rows).subset he)).2.2).symm
  · intro hleft b hpos hpair
    rw [hall hleft]
    exact (hmem b).mpr ⟨hpos, hpair⟩
  · intro m hm
    obtain ⟨e, he, rfl⟩ := hcounted m hm
    obtain ⟨hpos, hpair⟩ := (hmem e.1).mp (List.mem_map.mpr ⟨e, he, rfl⟩)
    have hb := hopposite.admitted hpos
    dsimp only
    refine ite_congr rfl (fun htracks => ?_) fun _ => rfl
    have hcount := h.count hq hb
    rw [if_pos ⟨htracks, hpos⟩, hback] at hcount
    rw [hcount]
    have hstepped : (partners (op.joins residual) (1 - port) (stepped (relation port) x d)
        e.1).Finite := by
      refine ((hfinite hb).insert x).subset fun a ha => ?_
      by_cases hax : a = x
      · exact .inl hax
      · refine .inr ⟨?_, ha.2⟩
        have := ha.1
        rwa [stepped_apply, if_neg hax, add_zero] at this
    unfold matchTransition changeOf
    simp only [supports_iff_partners hport (hfinite hb), supports_iff_partners hport hstepped]
    rcases htransition with ⟨hbefore, hafter, ht⟩ | ⟨hbefore, hafter, ht⟩ | ⟨hbefore, hafter, ht⟩
    · rw [ht, ncard_partners_first hport hpair (hfinite hb) hbefore hafter]
      simp [KeyTransition.shift]
    · rw [ht, ← ncard_partners_last hport hpair (hfinite hb) hbefore hafter]
      simp [KeyTransition.shift]
    · rw [ht, partners_stepped_of_present hbefore hafter]
      simp
  · intro htracks b hpos hb
    by_cases hpair : pairsAt (op.joins residual) port x b = true
    · -- A joined row is left out only by a stable left-only row.
      have hadmitted := hopposite.admitted hpos
      have hstable : effect.transition = .none := by
        by_contra hne
        refine hb ?_
        unfold countedMatches
        rw [visitedRows_of_transition hne, if_neg, List.map_map]
        · exact (hmem b).mpr ⟨hpos, hpair⟩
        · rintro ⟨hleft, h0⟩
          have := leftOnly_tracks hleft htracks
          omega
      rcases htransition with ⟨-, -, ht⟩ | ⟨-, -, ht⟩ | ⟨hbefore, hafter, -⟩
      · rw [hstable] at ht
        cases ht
      · rw [hstable] at ht
        cases ht
      · have hsame : partners (op.joins residual) (1 - port) (stepped (relation port) x d) b =
            partners (op.joins residual) (1 - port) (relation port) b :=
          partners_stepped_of_present hbefore hafter
        rw [supports_iff_partners hport (hfinite hadmitted),
          supports_iff_partners hport (by rw [hsame]; exact hfinite hadmitted), hsame]
    · exact supports_stepped_of_not_pairs (Bool.not_eq_true _ ▸ hpair)
  · intro htracks
    rw [hfound htracks, supported_iff_partners (Stored.partners_finite hport hopposite hx),
      hrows.ncard_partners residual hport hopposite hx, ne_eq, ne_eq, List.length_eq_zero_iff]

omit [DecidableEq Value] in
theorem emits_checked {es : List (Fragments (Row Value) × Int)}
    (h : ∀ e ∈ es, op.FragmentsAdmitted e.1) :
    List.Forall₂ op.Emits (es.map fun e => checkedItem (op.encodeItem e)) es := by
  induction es with
  | nil => exact .nil
  | cons e es ih =>
    exact .cons ⟨h e (by simp), .inr rfl⟩ (ih fun e' he' => h e' (by simp [he']))

/-- The items of a match are those of the reference. -/
theorem matchItems_eq (hport : port < 2) (hx : op.Admitted port x) (m : Match (Row Value))
    (htracks : m.transition ≠ .none → op.kind.tracks (1 - port) = true) :
    op.matchItems port (op.prepared port (x, d)) (op.encodeMatch port m) =
      (matchRows op.kind port x d m).map op.encodeItem := by
  obtain ⟨b, w, t⟩ := m
  have hcorrection : t ≠ .none → op.correction port (op.encodeMatch port ⟨b, w, t⟩) =
      op.encodeItem (side port none (some b), correctionWeight op.kind port w) := by
    intro ht
    have htracks := htracks ht
    unfold correction correctionWeight encodeMatch
    split
    · exact op.oppositeFragments_eq hport b _
    · next hpreserves =>
      have hleft : op.kind.leftOnly = true := by
        by_contra hleft
        rw [preserves_eq_tracks (Bool.not_eq_true _ ▸ hleft)] at hpreserves
        exact hpreserves htracks
      have h0 := leftOnly_tracks hleft htracks
      obtain rfl : port = 1 := by omega
      rfl
  have hpair : (pairFragments port (op.rowBytes port x) (op.rowBytes (1 - port) b),
      d * (w : Int)) = op.encodeItem (side port (some x) (some b), d * (w : Int)) :=
    op.pairFragments_eq hport x b _
  unfold matchItems matchRows
  rw [op.prepared_eq (x, d) hx]
  simp only [List.map_append]
  congr 1
  · congr 1
    · rw [apply_ite (List.map op.encodeItem)]
      refine ite_congr rfl (fun ht => ?_) fun _ => rfl
      rw [hcorrection (by rintro rfl; cases ht)]
      rfl
    · rw [apply_ite (List.map op.encodeItem), List.map_singleton, ← hpair]
      rfl
  · rw [apply_ite (List.map op.encodeItem)]
    refine ite_congr rfl (fun ht => ?_) fun _ => rfl
    rw [hcorrection (by rintro rfl; cases ht)]
    rfl

theorem currentItems_eq (hport : port < 2) (hx : op.Admitted port x) (foundMatch : Bool) :
    op.currentItems port (op.prepared port (x, d)) foundMatch =
      (currentRows op.kind port x d foundMatch).map op.encodeItem := by
  have hown := op.ownFragments_eq hport x d
  unfold currentItems currentRows
  rw [op.prepared_eq (x, d) hx]
  split
  · next hleft =>
    obtain ⟨-, rfl⟩ := hleft
    split
    · rw [List.map_singleton, ← hown]
      rfl
    · rfl
  · split
    · rw [List.map_singleton, ← hown]
    · rfl

theorem joinedRows_of_unmatchable {rows : List (Row Value × ℕ+)}
    (h : op.rowMatchable port x = false) : op.joinedRows residual port x rows = [] := by
  unfold joinedRows
  simp [h]

/-- A stable left-only row reads whether it joins with a row from its count. -/
theorem stableLeftOnlyFoundMatch_eq_ok {relation : Nat → Bag (Row Value)} {c : OrdMap Bytes Nat}
    (h : op.Counted (op.joins residual) c relation) (hrelations : op.Relations s relation)
    (hport : port < 2) (hx : op.Admitted port x) (htracks : op.kind.tracks port = true)
    (hleft : op.kind.leftOnly = true) (hpresent : 0 < relation port x)
    {rows : List (Row Value × ℕ+)}
    (hrows : op.PartitionRows s port (relation (1 - port)) x rows) {found : Bool}
    (hfound : op.stableLeftOnlyFoundMatch port (op.prepared port (x, d)) c = .ok found) :
    found = true ↔ op.joinedRows residual port x rows ≠ [] := by
  obtain rfl := leftOnly_tracks hleft htracks
  have hn := hrows.ncard_partners residual hport (hrelations.stored (by omega)) hx
  have hcount := h.count hport hx
  rw [if_pos ⟨htracks, hpresent⟩, hn] at hcount
  unfold stableLeftOnlyFoundMatch at hfound
  rw [op.prepared_eq (x, d) hx] at hfound
  cases hm : op.rowMatchable 0 x with
  | false =>
    simp only [hm, zero_ne_one, Bool.false_eq_true, not_false_eq_true, or_true, if_true] at hfound
    cases hfound
    simp [joinedRows_of_unmatchable hm]
  | true =>
    simp only [hm, zero_ne_one, not_true_eq_false, or_self, if_false] at hfound
    split at hfound
    · cases hfound
    · cases hget : actualMatchCount c 0 (op.rowBytes 0 x) with
      | error e => rw [hget] at hfound; cases hfound
      | ok n =>
        rw [hget] at hfound
        cases hfound
        obtain ⟨-, rfl⟩ := actualMatchCount_eq_ok.mp hget
        have hvalue : countOf c 0 (op.rowBytes 0 x) =
            (op.joinedRows residual 0 x rows).length := hcount
        rw [hvalue, decide_eq_true_iff, gt_iff_lt, List.length_pos_iff]

/-- Whether an event finds a match, when it starts with its first page. -/
theorem foundMatch_iff {relation : Nat → Bag (Row Value)} {c : OrdMap Bytes Nat}
    (h : op.Counted (op.joins residual) c relation) (hrelations : op.Relations s relation)
    (hport : port < 2) (hx : op.Admitted port x) (htracks : op.kind.tracks port = true)
    (hpresent : effect.transition = .none → 0 < relation port x)
    {rows : List (Row Value × ℕ+)}
    (hrows : op.PartitionRows s port (relation (1 - port)) x rows) {carried : Bool}
    (hcarried : op.carriedMatch port (op.prepared port (x, d)) effect freshCursor c =
      .ok carried) :
    (carried || (op.visitedRows residual port x effect rows).length != 0) = true ↔
      op.joinedRows residual port x rows ≠ [] := by
  unfold carriedMatch at hcarried
  unfold visitedRows
  by_cases hstable : op.kind.leftOnly = true ∧ effect.transition = .none
  · rw [if_pos hstable] at hcarried ⊢
    have hread : op.stableLeftOnlyFoundMatch port (op.prepared port (x, d)) c = .ok carried :=
      hcarried
    rw [← stableLeftOnlyFoundMatch_eq_ok h hrelations hport hx htracks hstable.1
      (hpresent hstable.2) hrows hread]
    simp
  · rw [if_neg hstable] at hcarried ⊢
    cases hcarried
    simp [freshCursor]

theorem present_of_stable {w : Int}
    (h : (w = 0 ∧ 0 < w + d ∧ effect.transition = .first) ∨
      (0 < w ∧ w + d = 0 ∧ effect.transition = .last) ∨
      (0 < w ∧ 0 < w + d ∧ effect.transition = .none)) (ht : effect.transition = .none) :
    0 < w := by
  rcases h with ⟨-, -, ht'⟩ | ⟨-, -, ht'⟩ | ⟨hpos, -, -⟩
  · rw [ht] at ht'
    cases ht'
  · rw [ht] at ht'
    cases ht'
  · exact hpos

/-- Counts are not part of the stored relations. -/
theorem Stored.counts (h : op.Stored s port own) (counts : OrdMap Bytes Nat) :
    op.Stored { s with matchCounts := counts } port own :=
  ⟨h.weight, h.absent, h.rows⟩

theorem setRow_matchCounts (s : JoinState) (port : Nat) (key row : Bytes) (w : Nat) :
    (s.setRow port key row w).matchCounts = s.matchCounts := by
  unfold JoinState.setRow
  split <;> rfl

/-- The items of an event are those of the reference, checked. -/
theorem residualItems_eq (hport : port < 2) (hx : op.Admitted port x)
    (found : List (Match (Row Value))) (foundMatch : Bool)
    (htracks : ∀ m ∈ found, m.transition ≠ .none → op.kind.tracks (1 - port) = true) :
    ((found.map (op.encodeMatch port)).flatMap (op.matchItems port (op.prepared port (x, d))) ++
        op.currentItems port (op.prepared port (x, d)) foundMatch).map checkedItem =
      (eventItems op.kind port x d found foundMatch).map
        fun e => checkedItem (op.encodeItem e) := by
  have hmatches : (found.map (op.encodeMatch port)).flatMap
      (op.matchItems port (op.prepared port (x, d))) =
        (found.flatMap (matchRows op.kind port x d)).map op.encodeItem := by
    rw [List.flatMap_map, List.map_flatMap]
    exact List.flatMap_congr fun m hm => matchItems_eq hport hx m (htracks m hm)
  unfold eventItems
  rw [hmatches, currentItems_eq hport hx, ← List.map_append, List.map_map]
  rfl

omit [DecidableEq Value] in
theorem eventItems_admitted (kind : EquiJoinKind) (d : Int) (foundMatch : Bool) (hport : port < 2)
    (hx : op.Admitted port x) {found : List (Match (Row Value))}
    (hfound : ∀ m ∈ found, op.Admitted (1 - port) m.row) :
    ∀ e ∈ eventItems kind port x d found foundMatch, op.FragmentsAdmitted e.1 := by
  have hsome : ∀ r ∈ some x, op.Admitted port r := by
    rintro _ ⟨⟩
    exact hx
  have hnone : ∀ {p : Nat}, ∀ r ∈ (none : Option (Row Value)), op.Admitted p r :=
    fun _ h => by cases h
  intro e he
  unfold eventItems at he
  rcases List.mem_append.mp he with he | he
  · obtain ⟨m, hm, he⟩ := List.mem_flatMap.mp he
    have hb : ∀ r ∈ some m.row, op.Admitted (1 - port) r := by
      rintro _ ⟨⟩
      exact hfound m hm
    unfold matchRows at he
    rcases List.mem_append.mp he with he | he
    · rcases List.mem_append.mp he with he | he
      · split at he
        · obtain rfl := List.mem_singleton.mp he
          exact (op.fragmentsAdmitted_side hport).mpr ⟨hnone, hb⟩
        · cases he
      · split at he
        · obtain rfl := List.mem_singleton.mp he
          exact (op.fragmentsAdmitted_side hport).mpr ⟨hsome, hb⟩
        · cases he
    · split at he
      · obtain rfl := List.mem_singleton.mp he
        exact (op.fragmentsAdmitted_side hport).mpr ⟨hnone, hb⟩
      · cases he
  · unfold currentRows at he
    have hown : e ∈ [(side port (some x) none, d)] → op.FragmentsAdmitted e.1 := by
      intro he
      obtain rfl := List.mem_singleton.mp he
      exact (op.fragmentsAdmitted_side hport).mpr ⟨hsome, hnone⟩
    split at he
    · split at he
      · exact hown he
      · cases he
    · split at he
      · exact hown he
      · cases he

/-- An event of a join with a residual keeps relations and counts exact and puts
out the change of the reference. -/
theorem residual_step (hresidual : op.residual = some residual)
    {relation : Nat → Bag (Row Value)} {event : Row Value × Int} {out : List (Row Value × Int)}
    {s' : JoinState} (h : op.Relations s relation)
    (hcounted : op.Counted (op.joins residual) s.matchCounts relation) (hport : port < 2)
    (hd : event.2 ≠ 0) (hx : op.Admitted port event.1)
    (hfinal : op.Final port (op.prepared port event) s freshCursor out s') :
    (op.Relations s' (stepAt relation port event) ∧
      op.Counted (op.joins residual) s'.matchCounts (stepAt relation port event)) ∧
      op.Accounts (op.joins residual) relation (stepAt relation port event) out := by
  obtain ⟨effect, after, found, s₁, heffect, hvisit, rfl⟩ := hfinal.visited
  obtain ⟨x, d⟩ := event
  have hq : 1 - port < 2 := by omega
  have hown := h.stored hport
  have hopposite := h.stored hq
  cases hvisit with
  | plain hplain => rw [hresidual] at hplain; cases hplain
  | @residual residual' carried qualified counts matchRows hresidual' hcarried hqualified hsettle
      hout =>
    obtain rfl : residual' = residual := Option.some.inj (hresidual'.symm.trans hresidual)
    have hkey : (op.prepared port (x, d)).key = op.rowKey port x := by
      rw [op.prepared_eq (x, d) hx]
    rw [hkey] at heffect ⊢
    obtain ⟨hafter, htransition⟩ := residual_transition hresidual hown hx hd heffect
    obtain ⟨rows, hrows⟩ := hopposite.partition x
    rw [show freshCursor.resumeAfter = none from rfl, hrows.qualified effect hresidual hx] at hqualified
    rw [hqualified, List.length_map] at hsettle hout
    have hvisited := visitedRows_sublist op residual' port x effect rows
    have hjoined : ∀ e ∈ op.visitedRows residual' port x effect rows,
        op.Admitted (1 - port) e.1 := fun e he =>
      (hrows.row e ((PartitionRows.joined_sublist op residual' port x rows).subset
        (hvisited.subset he))).1
    obtain ⟨hc', hcount, hkeys, rfl⟩ := settled_counts hport hx hjoined
      ((hrows.joined_nodup residual').sublist (hvisited.map _)) hcounted.noZero hsettle
    have hcounted' := hcounted.settled h hport hx hrows htransition hc' hcount hkeys
    have hobserved := residual_observed hcounted h hport hx hrows htransition
      fun htracks => foundMatch_iff hcounted h hport hx htracks
        (present_of_stable htransition) hrows hcarried
    obtain ⟨hown', hopposite'⟩ := (hown.counts counts).setRow hport (hopposite.counts counts) hx
      hafter
    have hmatches : ∀ m ∈ op.countedMatches port effect s.matchCounts
        (op.visitedRows residual' port x effect rows), op.Admitted (1 - port) m.row ∧
        (m.transition ≠ .none → op.kind.tracks (1 - port) = true) := by
      intro m hm
      unfold countedMatches at hm
      split at hm
      · cases hm
      · obtain ⟨e, he, rfl⟩ := List.mem_map.mp hm
        refine ⟨hjoined e he, fun hne => ?_⟩
        by_contra htracks
        exact hne (if_neg htracks)
    rw [Option.isSome_none, if_neg Bool.false_ne_true,
      residualItems_eq hport hx _ _ fun m hm => (hmatches m hm).2] at hout
    have hemits := emits_checked (eventItems_admitted op.kind d
      (carried || (op.visitedRows residual' port x effect rows).length != 0) hport hx
      fun m hm => (hmatches m hm).1)
    refine ⟨⟨?_, by rwa [setRow_matchCounts]⟩, _, Emits.rows hemits hout, ?_⟩
    · obtain rfl | rfl : port = 0 ∨ port = 1 := by omega
      · exact ⟨hown', hopposite'⟩
      · exact ⟨hopposite', hown'⟩
    · obtain ⟨hbefore, hafter'⟩ := referenceAt_stepAt op.kind (op.joins residual') hport relation (x, d)
      rw [← hbefore, ← hafter']
      exact weight_eventItems hport hobserved hopposite.nonneg

end EquiJoinOperation

end Dogpaddle.EquiJoin
