import Dogpaddle.EquiJoin.Runtime

/-!
# Match counts

The stored support of a row is a number that is absent when it is zero. Adjusting
it is checked addition or subtraction on that number (`adjust_eq_ok`); adjustments
of one key add up and adjustments of different keys commute, which is why the cuts
of an event into pages do not show in the counts (`settleCounts_append`).
-/

namespace Dogpaddle.EquiJoin

open Lib Store Dogpaddle.Relation

/-! ## One count -/

/-- The support of a row, zero when absent. -/
def countOf (counts : OrdMap Bytes Nat) (port : Nat) (row : Bytes) : Nat :=
  (counts.get? (actualMatchKey port row)).getD 0

/-- Stores a count; zero erases its key. -/
def storeCount (counts : OrdMap Bytes Nat) (key : Bytes) (count : Nat) : OrdMap Bytes Nat :=
  if count = 0 then counts.erase key else counts.put key count

theorem get?_storeCount (counts : OrdMap Bytes Nat) (key key' : Bytes) (count : Nat) :
    (storeCount counts key count).get? key' =
      if key' = key then (if count = 0 then none else some count) else counts.get? key' := by
  unfold storeCount
  split <;> simp_all

theorem storeCount_storeCount (counts : OrdMap Bytes Nat) (key : Bytes) (m n : Nat) :
    storeCount (storeCount counts key m) key n = storeCount counts key n := by
  refine OrdMap.ext_get? fun k => ?_
  simp only [get?_storeCount]
  split <;> rfl

theorem storeCount_comm (counts : OrdMap Bytes Nat) {key key' : Bytes} (h : key ≠ key')
    (m n : Nat) : storeCount (storeCount counts key m) key' n =
      storeCount (storeCount counts key' n) key m := by
  refine OrdMap.ext_get? fun k => ?_
  simp only [get?_storeCount]
  by_cases hk : k = key
  · subst hk
    simp [h]
  · simp [hk]

theorem countOf_storeCount (counts : OrdMap Bytes Nat) (port port' : Nat) (row row' : Bytes)
    (count : Nat) : countOf (storeCount counts (actualMatchKey port row) count) port' row' =
      if actualMatchKey port' row' = actualMatchKey port row then count
      else countOf counts port' row' := by
  unfold countOf
  rw [get?_storeCount]
  split
  · split <;> simp_all
  · rfl

theorem actualMatchCount_eq_ok {counts : OrdMap Bytes Nat} {port : Nat} {row : Bytes} {n : Nat} :
    actualMatchCount counts port row = .ok n ↔
      counts.get? (actualMatchKey port row) ≠ some 0 ∧ n = countOf counts port row := by
  unfold actualMatchCount countOf
  cases h : counts.get? (actualMatchKey port row) with
  | none => simp [eq_comm]
  | some value => cases value <;> simp [eq_comm]

/-- An adjustment is checked arithmetic on the stored number. -/
theorem adjust_eq_ok {counts counts' : OrdMap Bytes Nat} {port : Nat} {row : Bytes}
    {transition : KeyTransition} {amount : Nat} {m : MatchTransition} :
    adjustActualMatchCount counts port row transition amount = .ok (counts', m) ↔
      counts.get? (actualMatchKey port row) ≠ some 0 ∧ ∃ after,
        adjustMatchCount (countOf counts port row) transition amount = .ok after ∧
        counts' = storeCount counts (actualMatchKey port row) after ∧
        m = matchTransition (countOf counts port row) after := by
  unfold adjustActualMatchCount
  cases hcount : actualMatchCount counts port row with
  | error e =>
    have hzero : counts.get? (actualMatchKey port row) = some 0 := by
      by_contra hne
      rw [actualMatchCount_eq_ok.mpr ⟨hne, rfl⟩] at hcount
      cases hcount
    simp [hzero]
  | ok before =>
    obtain ⟨hne, rfl⟩ := actualMatchCount_eq_ok.mp hcount
    dsimp only
    cases hafter : adjustMatchCount (countOf counts port row) transition amount with
    | error e => simp
    | ok after =>
      simp only [Except.ok.injEq, Prod.mk.injEq, exists_eq_left', storeCount, hne, ne_eq,
        not_false_eq_true, true_and]
      exact ⟨fun h => ⟨h.1.symm, h.2.symm⟩, fun h => ⟨h.1.symm, h.2.symm⟩⟩

theorem adjustMatchCount_add {count mid after : Nat} {transition : KeyTransition} {a b : Nat}
    (h : adjustMatchCount count transition a = .ok mid)
    (h' : adjustMatchCount mid transition b = .ok after) :
    adjustMatchCount count transition (a + b) = .ok after := by
  cases transition with
  | none =>
    cases h
    exact h'
  | first =>
    simp only [adjustMatchCount] at h h' ⊢
    split at h
    · cases h
      split at h'
      · cases h'
        rw [if_pos (by omega), Nat.add_assoc]
      · cases h'
    · cases h
  | last =>
    simp only [adjustMatchCount] at h h' ⊢
    split at h
    · cases h
      split at h'
      · cases h'
        rw [if_pos (by omega), Nat.sub_sub]
      · cases h'
    · cases h

/-- Two adjustments of one count are one adjustment. -/
theorem adjust_add {c c₁ c₂ : OrdMap Bytes Nat} {port : Nat} {row : Bytes}
    {transition : KeyTransition} {a b : Nat} {m₁ m₂ : MatchTransition}
    (h : adjustActualMatchCount c port row transition a = .ok (c₁, m₁))
    (h' : adjustActualMatchCount c₁ port row transition b = .ok (c₂, m₂)) :
    ∃ m, adjustActualMatchCount c port row transition (a + b) = .ok (c₂, m) := by
  obtain ⟨hne, mid, hmid, rfl, -⟩ := adjust_eq_ok.mp h
  obtain ⟨-, after, hafter, rfl, -⟩ := adjust_eq_ok.mp h'
  rw [countOf_storeCount, if_pos rfl] at hafter
  refine ⟨_, adjust_eq_ok.mpr ⟨hne, after, adjustMatchCount_add hmid hafter, ?_, rfl⟩⟩
  rw [storeCount_storeCount]

/-- Adjustments of different keys commute. -/
theorem adjust_comm {c c₁ c₂ : OrdMap Bytes Nat} {p q : Nat} {row row' : Bytes}
    {t t' : KeyTransition} {a b : Nat} {m₁ m₂ : MatchTransition}
    (hkey : actualMatchKey p row ≠ actualMatchKey q row')
    (h : adjustActualMatchCount c p row t a = .ok (c₁, m₁))
    (h' : adjustActualMatchCount c₁ q row' t' b = .ok (c₂, m₂)) :
    ∃ c₁', adjustActualMatchCount c q row' t' b = .ok (c₁', m₂) ∧
      adjustActualMatchCount c₁' p row t a = .ok (c₂, m₁) := by
  obtain ⟨hne, mid, hmid, rfl, rfl⟩ := adjust_eq_ok.mp h
  obtain ⟨hne', after, hafter, rfl, rfl⟩ := adjust_eq_ok.mp h'
  rw [countOf_storeCount, if_neg hkey.symm] at hafter ⊢
  rw [get?_storeCount, if_neg hkey.symm] at hne'
  refine ⟨_, adjust_eq_ok.mpr ⟨hne', after, hafter, rfl, rfl⟩, adjust_eq_ok.mpr ⟨?_, mid, ?_, ?_, ?_⟩⟩
  · rwa [get?_storeCount, if_neg hkey]
  · rwa [countOf_storeCount, if_neg hkey]
  · rw [storeCount_comm _ hkey]
  · rw [countOf_storeCount, if_neg hkey]

/-- Counts of the two ports have different keys. -/
theorem actualMatchKey_ne {port : Nat} (hport : port < 2) (row row' : Bytes) :
    actualMatchKey port row ≠ actualMatchKey (1 - port) row' := by
  obtain rfl | rfl : port = 0 ∨ port = 1 := by omega
  · simp [actualMatchKey]
  · simp [actualMatchKey]

theorem actualMatchKey_inj {p q : Nat} (hp : p < 2) (hq : q < 2) {row row' : Bytes} :
    actualMatchKey p row = actualMatchKey q row' ↔ p = q ∧ row = row' := by
  obtain rfl | rfl : p = 0 ∨ p = 1 := by omega
  all_goals obtain rfl | rfl : q = 0 ∨ q = 1 := by omega
  all_goals simp [actualMatchKey]

/-! ## Counts as a function -/

/-- No stored count is zero. -/
def NoZero (counts : OrdMap Bytes Nat) : Prop := ∀ key, counts.get? key ≠ some 0

/-- The number stored under a key, zero when absent. -/
def countAt (counts : OrdMap Bytes Nat) (key : Bytes) : Nat := (counts.get? key).getD 0

theorem get?_eq_of_noZero {counts : OrdMap Bytes Nat} (h : NoZero counts) (key : Bytes) :
    counts.get? key = if countAt counts key = 0 then none else some (countAt counts key) := by
  have hne := h key
  unfold countAt
  cases hget : counts.get? key with
  | none => rfl
  | some n =>
    cases n with
    | zero => exact absurd hget hne
    | succ n => simp

theorem countAt_storeCount (counts : OrdMap Bytes Nat) (key key' : Bytes) (n : Nat) :
    countAt (storeCount counts key n) key' = if key' = key then n else countAt counts key' := by
  unfold countAt
  rw [get?_storeCount]
  by_cases hk : key' = key
  · by_cases hn : n = 0 <;> simp [hk, hn]
  · simp [hk]

theorem noZero_storeCount {counts : OrdMap Bytes Nat} (h : NoZero counts) (key : Bytes) (n : Nat) :
    NoZero (storeCount counts key n) := by
  intro key' hzero
  rw [get?_storeCount] at hzero
  by_cases hk : key' = key
  · rw [if_pos hk] at hzero
    split at hzero
    · cases hzero
    · next hn => exact hn (Option.some.inj hzero)
  · rw [if_neg hk] at hzero
    exact h key' hzero

/-- A count moved by a transition. -/
def KeyTransition.shift (transition : KeyTransition) (count amount : Nat) : Nat :=
  match transition with
  | .none => count
  | .first => count + amount
  | .last => count - amount

@[simp] theorem KeyTransition.shift_none (count amount : Nat) :
    KeyTransition.none.shift count amount = count := rfl

@[simp] theorem matchTransition_self (count : Nat) : matchTransition count count = .none := by
  unfold matchTransition
  rw [if_neg (by omega), if_neg (by omega)]

theorem adjustMatchCount_eq_ok {count after : Nat} {transition : KeyTransition} {amount : Nat}
    (h : adjustMatchCount count transition amount = .ok after) :
    after = transition.shift count amount ∧ (transition = .last → amount ≤ count) := by
  cases transition with
  | none =>
    cases h
    exact ⟨rfl, fun h => by cases h⟩
  | first =>
    simp only [adjustMatchCount] at h
    split at h
    · cases h
      exact ⟨rfl, fun h => by cases h⟩
    · cases h
  | last =>
    simp only [adjustMatchCount] at h
    split at h
    · next hle =>
      cases h
      exact ⟨rfl, fun _ => hle⟩
    · cases h

/-- An adjustment moves one count. -/
theorem adjust_countAt {c c' : OrdMap Bytes Nat} {port : Nat} {row : Bytes}
    {transition : KeyTransition} {amount : Nat} {m : MatchTransition} (hc : NoZero c)
    (h : adjustActualMatchCount c port row transition amount = .ok (c', m)) :
    NoZero c' ∧
      (∀ key, countAt c' key = if key = actualMatchKey port row
        then transition.shift (countAt c key) amount else countAt c key) ∧
      m = matchTransition (countAt c (actualMatchKey port row))
        (transition.shift (countAt c (actualMatchKey port row)) amount) := by
  obtain ⟨-, after, hafter, rfl, rfl⟩ := adjust_eq_ok.mp h
  obtain ⟨rfl, -⟩ := adjustMatchCount_eq_ok hafter
  refine ⟨noZero_storeCount hc _ _, fun key => ?_, rfl⟩
  rw [countAt_storeCount]
  by_cases hk : key = actualMatchKey port row
  · rw [if_pos hk, if_pos hk, hk]
    rfl
  · rw [if_neg hk, if_neg hk]

/-! ## The counts of a page -/

namespace EquiJoinOperation

variable {Ty Value : Type} (op : EquiJoinOperation Ty Value)

theorem countsAccess_eq_ok {counts counts' : OrdMap Bytes Nat} :
    op.countsAccess counts = .ok counts' ↔ op.hasMatchCounts = true ∧ counts' = counts := by
  unfold countsAccess
  by_cases hc : op.hasMatchCounts = true
  · rw [if_pos hc, Except.ok.injEq]
    exact ⟨fun h => ⟨hc, h.symm⟩, fun h => h.2.symm⟩
  · rw [if_neg hc]
    exact ⟨fun h => (by cases h), fun h => absurd h.1 hc⟩

theorem adjustOwn_eq_ok {port : Nat} {input : PreparedRow} {effect : RowEffect} {q : Nat}
    {c c' : OrdMap Bytes Nat} : op.adjustOwn port input effect q c = .ok c' ↔
      if op.tracksMatchCount port ∧ effect.transition ≠ .none ∧ q ≠ 0 then
        op.hasMatchCounts = true ∧
          ∃ m, adjustActualMatchCount c port input.row effect.transition q = .ok (c', m)
      else c' = c := by
  unfold adjustOwn
  split
  · by_cases hc : op.hasMatchCounts = true
    · simp only [op.countsAccess_eq_ok.mpr ⟨hc, rfl⟩, hc, true_and]
      cases adjustActualMatchCount c port input.row effect.transition q with
      | error e => simp [Except.map]
      | ok r =>
        obtain ⟨c₁, m⟩ := r
        simp [Except.map]
    · simp [countsAccess, hc]
  · rw [Except.ok.injEq, eq_comm]

theorem adjustOpposite_eq_ok {port : Nat} {effect : RowEffect} {m m' : PreparedMatch}
    {c c' : OrdMap Bytes Nat} : op.adjustOpposite port effect m c = .ok (c', m') ↔
      if op.tracksMatchCount (1 - port) ∧ effect.transition ≠ .none then
        op.hasMatchCounts = true ∧
          ∃ t, adjustActualMatchCount c (1 - port) m.row effect.transition 1 = .ok (c', t) ∧
            m' = { m with transition := t }
      else c' = c ∧ m' = { m with transition := .none } := by
  unfold adjustOpposite
  split
  · by_cases hc : op.hasMatchCounts = true
    · simp only [op.countsAccess_eq_ok.mpr ⟨hc, rfl⟩, hc, true_and]
      cases adjustActualMatchCount c (1 - port) m.row effect.transition 1 with
      | error e => simp [Except.map]
      | ok r =>
        obtain ⟨c₁, t⟩ := r
        simp only [Except.map, Except.ok.injEq, Prod.mk.injEq]
        constructor
        · rintro ⟨rfl, rfl⟩
          exact ⟨t, ⟨rfl, rfl⟩, rfl⟩
        · rintro ⟨t', ⟨rfl, rfl⟩, rfl⟩
          exact ⟨rfl, rfl⟩
    · simp [countsAccess, hc]
  · simp only [Except.ok.injEq, Prod.mk.injEq]
    exact ⟨fun h => ⟨h.1.symm, h.2.symm⟩, fun h => ⟨h.1.symm, h.2.symm⟩⟩

theorem adjustMatches_cons_eq_ok {port : Nat} {effect : RowEffect} {m : PreparedMatch}
    {ms found : List PreparedMatch} {c c' : OrdMap Bytes Nat} :
    op.adjustMatches port effect (m :: ms) c = .ok (c', found) ↔
      ∃ c₁ m' found', op.adjustOpposite port effect m c = .ok (c₁, m') ∧
        op.adjustMatches port effect ms c₁ = .ok (c', found') ∧ found = m' :: found' := by
  simp only [adjustMatches]
  constructor
  · intro h
    cases hm : op.adjustOpposite port effect m c with
    | error e => rw [hm] at h; cases h
    | ok r =>
      obtain ⟨c₁, m'⟩ := r
      rw [hm] at h
      dsimp only at h
      cases hms : op.adjustMatches port effect ms c₁ with
      | error e => rw [hms] at h; cases h
      | ok r =>
        obtain ⟨c₂, found'⟩ := r
        rw [hms] at h
        cases h
        exact ⟨c₁, m', found', rfl, hms, rfl⟩
  · rintro ⟨c₁, m', found', hm, hms, rfl⟩
    rw [hm]
    dsimp only
    rw [hms]
    rfl

theorem adjustMatches_append {port : Nat} {effect : RowEffect} {ms ms' found found' : List PreparedMatch}
    {c c₁ c₂ : OrdMap Bytes Nat}
    (h : op.adjustMatches port effect ms c = .ok (c₁, found))
    (h' : op.adjustMatches port effect ms' c₁ = .ok (c₂, found')) :
    op.adjustMatches port effect (ms ++ ms') c = .ok (c₂, found ++ found') := by
  induction ms generalizing c found with
  | nil =>
    cases h
    exact h'
  | cons m ms ih =>
    obtain ⟨c', m', rest, hm, hrest, rfl⟩ := op.adjustMatches_cons_eq_ok.mp h
    exact op.adjustMatches_cons_eq_ok.mpr ⟨c', m', _, hm, ih hrest, rfl⟩

theorem adjustOwn_add {port : Nat} {input : PreparedRow} {effect : RowEffect} {q q' : Nat}
    {c c₁ c₂ : OrdMap Bytes Nat} (h : op.adjustOwn port input effect q c = .ok c₁)
    (h' : op.adjustOwn port input effect q' c₁ = .ok c₂) :
    op.adjustOwn port input effect (q + q') c = .ok c₂ := by
  rw [adjustOwn_eq_ok] at h h' ⊢
  by_cases ht : op.tracksMatchCount port = true ∧ effect.transition ≠ .none
  · by_cases hq : q = 0
    · subst hq
      rw [if_neg (by simp)] at h
      subst h
      simpa using h'
    · by_cases hq' : q' = 0
      · subst hq'
        rw [if_neg (by simp)] at h'
        subst h'
        simpa using h
      · rw [if_pos ⟨ht.1, ht.2, hq⟩] at h
        rw [if_pos ⟨ht.1, ht.2, hq'⟩] at h'
        rw [if_pos ⟨ht.1, ht.2, by omega⟩]
        obtain ⟨hc, _, h⟩ := h
        obtain ⟨-, _, h'⟩ := h'
        exact ⟨hc, adjust_add h h'⟩
  · rw [if_neg (fun hx => ht ⟨hx.1, hx.2.1⟩)] at h h' ⊢
    rw [h', h]

/-- The driving row's own adjustment can be made before those of its matches. -/
theorem adjustOwn_comm {port : Nat} (hport : port < 2) {input : PreparedRow} {effect : RowEffect}
    {q : Nat} {ms found : List PreparedMatch} {c c₁ c₂ : OrdMap Bytes Nat}
    (h : op.adjustMatches port effect ms c = .ok (c₁, found))
    (h' : op.adjustOwn port input effect q c₁ = .ok c₂) :
    ∃ c₁', op.adjustOwn port input effect q c = .ok c₁' ∧
      op.adjustMatches port effect ms c₁' = .ok (c₂, found) := by
  induction ms generalizing c found with
  | nil =>
    cases h
    exact ⟨c₂, h', rfl⟩
  | cons m ms ih =>
    obtain ⟨cm, m', rest, hm, hrest, rfl⟩ := op.adjustMatches_cons_eq_ok.mp h
    obtain ⟨co, hown, hms⟩ := ih hrest
    have hstep : ∃ c₁', op.adjustOwn port input effect q c = .ok c₁' ∧
        op.adjustOpposite port effect m c₁' = .ok (co, m') := by
      rw [adjustOwn_eq_ok] at hown
      rw [adjustOpposite_eq_ok] at hm
      by_cases ho : op.tracksMatchCount port = true ∧ effect.transition ≠ .none ∧ q ≠ 0
      · rw [if_pos ho] at hown
        obtain ⟨hc, tm, hown⟩ := hown
        by_cases hp : op.tracksMatchCount (1 - port) = true ∧ effect.transition ≠ .none
        · rw [if_pos hp] at hm
          obtain ⟨-, t, hm, rfl⟩ := hm
          obtain ⟨c₁', hown', hm'⟩ :=
            adjust_comm (actualMatchKey_ne hport input.row m.row).symm hm hown
          refine ⟨c₁', ?_, ?_⟩
          · rw [adjustOwn_eq_ok, if_pos ho]
            exact ⟨hc, tm, hown'⟩
          · rw [adjustOpposite_eq_ok, if_pos hp]
            exact ⟨hc, t, hm', rfl⟩
        · rw [if_neg hp] at hm
          obtain ⟨rfl, rfl⟩ := hm
          refine ⟨co, ?_, ?_⟩
          · rw [adjustOwn_eq_ok, if_pos ho]
            exact ⟨hc, tm, hown⟩
          · rw [adjustOpposite_eq_ok, if_neg hp]
            exact ⟨rfl, rfl⟩
      · rw [if_neg ho] at hown
        subst hown
        exact ⟨c, by rw [adjustOwn_eq_ok, if_neg ho], by rw [adjustOpposite_eq_ok]; exact hm⟩
    obtain ⟨c₁', hown', hm'⟩ := hstep
    exact ⟨c₁', hown', op.adjustMatches_cons_eq_ok.mpr ⟨co, m', rest, hm', hms, rfl⟩⟩

theorem settleCounts_eq_ok {port : Nat} {input : PreparedRow} {effect : RowEffect}
    {page : ResidualPage} {foundMatch : Bool} {c c' : OrdMap Bytes Nat}
    {found : List PreparedMatch} :
    op.settleCounts port input effect page foundMatch c = .ok (c', found) ↔
      ∃ c₁, op.adjustOwn port input effect page.qualifying c = .ok c₁ ∧
        op.adjustMatches port effect page.matchRows c₁ = .ok (c', found) ∧
        (page.continuation = none →
          op.validateCurrentMatchCount port input effect foundMatch c' = .ok ()) := by
  unfold settleCounts
  cases op.adjustOwn port input effect page.qualifying c with
  | error e => simp
  | ok c₁ =>
    simp only [Except.ok.injEq, exists_eq_left']
    cases op.adjustMatches port effect page.matchRows c₁ with
    | error e => simp
    | ok r =>
      obtain ⟨c₂, found'⟩ := r
      dsimp only
      cases page.continuation with
      | some key => simp
      | none =>
        simp only [Option.isSome_none, Bool.false_eq_true, if_false, true_implies]
        cases hv : op.validateCurrentMatchCount port input effect foundMatch c₂ with
        | error e =>
          simp only [Except.map, reduceCtorEq, false_iff, not_and, Except.ok.injEq, Prod.mk.injEq]
          rintro ⟨rfl, rfl⟩ hv'
          rw [hv] at hv'
          cases hv'
        | ok u =>
          simp only [Except.map, Except.ok.injEq, Prod.mk.injEq]
          constructor
          · rintro ⟨rfl, rfl⟩
            exact ⟨⟨rfl, rfl⟩, hv⟩
          · exact fun h => h.1

/-- Two pages of counts are one page. -/
theorem settleCounts_append {port : Nat} (hport : port < 2) {input : PreparedRow}
    {effect : RowEffect} {ms ms' found found' : List PreparedMatch} {q q' : Nat} {key : Bytes}
    {continuation : Option Bytes} {f f' : Bool} {c c₁ c₂ : OrdMap Bytes Nat}
    (h : op.settleCounts port input effect ⟨ms, q, some key, 0⟩ f c = .ok (c₁, found))
    (h' : op.settleCounts port input effect ⟨ms', q', continuation, 0⟩ f' c₁ =
      .ok (c₂, found')) :
    op.settleCounts port input effect ⟨ms ++ ms', q + q', continuation, 0⟩ f' c =
      .ok (c₂, found ++ found') := by
  obtain ⟨co, hown, hms, -⟩ := op.settleCounts_eq_ok.mp h
  obtain ⟨co', hown', hms', hvalid⟩ := op.settleCounts_eq_ok.mp h'
  obtain ⟨cx, hx, hx'⟩ := op.adjustOwn_comm hport hms hown'
  exact op.settleCounts_eq_ok.mpr
    ⟨cx, op.adjustOwn_add hown hx, op.adjustMatches_append hx' hms', hvalid⟩

/-! ## What a page does to the counts -/

theorem adjustOwn_countAt {port : Nat} {input : PreparedRow} {effect : RowEffect} {q : Nat}
    {c c' : OrdMap Bytes Nat} (hc : NoZero c)
    (h : op.adjustOwn port input effect q c = .ok c') :
    NoZero c' ∧ ∀ key, countAt c' key =
      if op.tracksMatchCount port = true ∧ key = actualMatchKey port input.row
        then effect.transition.shift (countAt c key) q else countAt c key := by
  rw [adjustOwn_eq_ok] at h
  split at h
  · next ht =>
    obtain ⟨-, m, h⟩ := h
    obtain ⟨hc', hcount, -⟩ := adjust_countAt hc h
    refine ⟨hc', fun key => ?_⟩
    rw [hcount]
    simp [ht.1]
  · next ht =>
    subst h
    refine ⟨hc, fun key => ?_⟩
    split
    · next hk =>
      -- Nothing moves without a transition or a qualifying candidate.
      by_cases hq : q = 0
      · subst hq
        cases effect.transition <;> simp [KeyTransition.shift]
      · have hnone : effect.transition = .none := by
          by_contra hne
          exact ht ⟨hk.1, hne, hq⟩
        rw [hnone]
        rfl
    · rfl

/-- A matched row moves its own count by one. -/
theorem adjustOpposite_countAt {port : Nat} {effect : RowEffect} {m m' : PreparedMatch}
    {c c₁ : OrdMap Bytes Nat} (hc : NoZero c)
    (h : op.adjustOpposite port effect m c = .ok (c₁, m')) :
    NoZero c₁ ∧ (∀ key, countAt c₁ key =
      if op.tracksMatchCount (1 - port) = true ∧ key = actualMatchKey (1 - port) m.row
        then effect.transition.shift (countAt c key) 1 else countAt c key) ∧
      m' = { m with
        transition := if op.tracksMatchCount (1 - port) then
          matchTransition (countAt c (actualMatchKey (1 - port) m.row))
            (effect.transition.shift (countAt c (actualMatchKey (1 - port) m.row)) 1)
          else .none } := by
  rw [adjustOpposite_eq_ok] at h
  split at h
  · next ht =>
    obtain ⟨-, t, h, rfl⟩ := h
    obtain ⟨hc₁, hcount, rfl⟩ := adjust_countAt hc h
    refine ⟨hc₁, fun key => ?_, ?_⟩
    · rw [hcount]
      simp [ht.1]
    · simp [ht.1]
  · next ht =>
    obtain ⟨rfl, rfl⟩ := h
    refine ⟨hc, fun key => ?_, ?_⟩
    · split
      · next hk =>
        have hnone : effect.transition = .none := by
          by_contra hne
          exact ht ⟨hk.1, hne⟩
        rw [hnone]
        rfl
      · rfl
    · split
      · next htracks =>
        have hnone : effect.transition = .none := by
          by_contra hne
          exact ht ⟨htracks, hne⟩
        rw [hnone, KeyTransition.shift_none, matchTransition_self]
      · rfl

theorem adjustMatches_countAt {port : Nat} {effect : RowEffect} {ms found : List PreparedMatch}
    {c c' : OrdMap Bytes Nat} (hport : port < 2) (hc : NoZero c) (hnodup : (ms.map (·.row)).Nodup)
    (h : op.adjustMatches port effect ms c = .ok (c', found)) :
    NoZero c' ∧
      (∀ key, countAt c' key = if op.tracksMatchCount (1 - port) = true ∧
          key ∈ ms.map (fun m => actualMatchKey (1 - port) m.row)
        then effect.transition.shift (countAt c key) 1 else countAt c key) ∧
      found = ms.map fun m => { m with
        transition := if op.tracksMatchCount (1 - port) then
          matchTransition (countAt c (actualMatchKey (1 - port) m.row))
            (effect.transition.shift (countAt c (actualMatchKey (1 - port) m.row)) 1)
          else .none } := by
  have hq : 1 - port < 2 := by omega
  induction ms generalizing c found with
  | nil =>
    cases h
    exact ⟨hc, fun key => by simp, rfl⟩
  | cons m ms ih =>
    obtain ⟨c₁, m', rest, hm, hms, rfl⟩ := op.adjustMatches_cons_eq_ok.mp h
    rw [List.map_cons, List.nodup_cons] at hnodup
    obtain ⟨hc₁, hcount₁, rfl⟩ := op.adjustOpposite_countAt hc hm
    obtain ⟨hc', hcount, rfl⟩ := ih hc₁ hnodup.2 hms
    have hother : ∀ m₂ ∈ ms, actualMatchKey (1 - port) m₂.row ≠ actualMatchKey (1 - port) m.row := by
      intro m₂ hm₂ heq
      have hrow := ((actualMatchKey_inj hq hq).mp heq).2
      exact hnodup.1 (List.mem_map.mpr ⟨m₂, hm₂, hrow⟩)
    refine ⟨hc', fun key => ?_, ?_⟩
    · rw [hcount, hcount₁]
      cases htracks : op.tracksMatchCount (1 - port) with
      | false => simp
      | true =>
        simp only [true_and, List.map_cons, List.mem_cons]
        by_cases hk : key = actualMatchKey (1 - port) m.row
        · subst hk
          have hnot : actualMatchKey (1 - port) m.row ∉
              ms.map fun m => actualMatchKey (1 - port) m.row := by
            intro hmem
            obtain ⟨m₂, hm₂, heq⟩ := List.mem_map.mp hmem
            exact hother m₂ hm₂ heq
          simp [hnot]
        · simp [hk]
    · rw [List.map_cons]
      congr 1
      refine List.map_congr_left fun m₂ hm₂ => ?_
      have hsame : countAt c₁ (actualMatchKey (1 - port) m₂.row) =
          countAt c (actualMatchKey (1 - port) m₂.row) := by
        rw [hcount₁, if_neg fun h => hother m₂ hm₂ h.2]
      rw [hsame]

end EquiJoinOperation

end Dogpaddle.EquiJoin
