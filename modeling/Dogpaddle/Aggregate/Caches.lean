import Dogpaddle.Aggregate.Machine

/-!
# Cached extremes

* `First`: the first key of a partition in a direction, which is what a scan finds.
* `Turns`: what a change of the cached extremes does to the two slots of a layout.
* `Caches`: the slots of a layout cache the first keys of a partition. A key whose weight
  changes keeps this (`turned_spec`), though only a cached key that left is read again.
-/

namespace Dogpaddle.Aggregate

open Lib Store Dogpaddle.Relation

/-! ## First keys -/

/-- The first key of a partition in a direction, if there is any. -/
def First (m : OrdMap Bytes ℕ+) (direction : ScanDirection) : Option Bytes → Prop
  | none => ∀ k, multiplicity m k = 0
  | some key => 0 < multiplicity m key ∧
      ∀ k, 0 < multiplicity m k → k ≠ key → visitsBefore direction key k = true

theorem multiplicity_pos_iff {m : OrdMap Bytes ℕ+} {key : Bytes} :
    0 < multiplicity m key ↔ ∃ w, (key, w) ∈ m.entries := by
  unfold Store.multiplicity
  simp only [OrdMap.mem_entries]
  cases m.get? key with
  | none => simp
  | some w => simp

theorem visitsBefore_total {direction : ScanDirection} {a b : Bytes} (h : a ≠ b) :
    visitsBefore direction a b = true ∨ visitsBefore direction b a = true := by
  rcases lt_or_gt_of_ne h with hlt | hlt
  · cases direction with
    | ascending => exact .inl (visitsBefore_ascending.mpr hlt)
    | descending => exact .inr (visitsBefore_descending.mpr hlt)
  · cases direction with
    | ascending => exact .inr (visitsBefore_ascending.mpr hlt)
    | descending => exact .inl (visitsBefore_descending.mpr hlt)

theorem First.unique {m : OrdMap Bytes ℕ+} {direction : ScanDirection} {o o' : Option Bytes}
    (h : First m direction o) (h' : First m direction o') : o = o' := by
  cases o with
  | none =>
    cases o' with
    | none => rfl
    | some key' => exact absurd (h key') (Nat.ne_of_gt h'.1)
  | some key =>
    cases o' with
    | none => exact absurd (h' key) (Nat.ne_of_gt h.1)
    | some key' =>
      by_contra hne
      have hne : key' ≠ key := fun heq => hne (by rw [heq])
      have hbefore := visitsBefore_asymm (h.2 key' h'.1 hne)
      rw [h'.2 key h.1 (Ne.symm hne)] at hbefore
      cases hbefore

theorem first_extremeKey (m : OrdMap Bytes ℕ+) (direction : ScanDirection) :
    First m direction (extremeKey m direction) := by
  have hmem : ∀ e, e ∈ remaining m none none direction none ↔ e ∈ m.entries := by
    intro e
    rw [remaining_eq_filter]
    cases direction with
    | ascending => simp [inRange, withinLower, withinUpper]
    | descending => simp [inRange, withinLower, withinUpper]
  have hsorted : (remaining m none none direction none).Pairwise fun a b =>
      visitsBefore direction a.1 b.1 = true := by
    rw [remaining_eq_filter]
    exact (pairwise_inRange m none none direction).filter _
  unfold extremeKey
  generalize remaining m none none direction none = l at hmem hsorted
  cases l with
  | nil =>
    intro k
    by_contra hk
    obtain ⟨w, hw⟩ := multiplicity_pos_iff.mp (Nat.pos_of_ne_zero hk)
    exact absurd ((hmem _).mpr hw) List.not_mem_nil
  | cons e l =>
    refine ⟨multiplicity_pos_iff.mpr ⟨e.2, (hmem e).mp List.mem_cons_self⟩, ?_⟩
    intro k hk hne
    obtain ⟨w, hw⟩ := multiplicity_pos_iff.mp hk
    rcases List.mem_cons.mp ((hmem _).mpr hw) with heq | hl
    · exact absurd (congrArg Prod.fst heq) hne
    · exact (List.pairwise_cons.mp hsorted).1 _ hl

theorem extremeKey_eq {m : OrdMap Bytes ℕ+} {direction : ScanDirection} {o : Option Bytes}
    (h : First m direction o) : extremeKey m direction = o :=
  (first_extremeKey m direction).unique h

/-- A key that enters is first where it stands before the one that was. -/
theorem extremeKey_enter {m : OrdMap Bytes ℕ+} {key : Bytes} {after : Nat}
    (hbefore : multiplicity m key = 0) (hafter : 0 < after) (direction : ScanDirection) :
    extremeKey (setMultiplicity m key after) direction =
      if (extremeKey m direction).all (visitsBefore direction key) then some key
      else extremeKey m direction := by
  apply extremeKey_eq
  have hfirst := first_extremeKey m direction
  cases hm : extremeKey m direction with
  | none =>
    rw [hm] at hfirst
    refine ⟨?_, ?_⟩
    · rw [multiplicity_setMultiplicity, if_pos rfl]
      exact hafter
    · intro k hk hne
      rw [multiplicity_setMultiplicity, if_neg hne, hfirst k] at hk
      exact absurd hk (Nat.lt_irrefl 0)
  | some first =>
    rw [hm] at hfirst
    obtain ⟨hpos, hothers⟩ := hfirst
    have hne : first ≠ key := by
      rintro rfl
      exact absurd hbefore (Nat.ne_of_gt hpos)
    rw [Option.all_some]
    split
    · next hbeats =>
      refine ⟨?_, ?_⟩
      · rw [multiplicity_setMultiplicity, if_pos rfl]
        exact hafter
      · intro k hk hk'
        rw [multiplicity_setMultiplicity, if_neg hk'] at hk
        by_cases hfirst : k = first
        · rw [hfirst]
          exact hbeats
        · exact visitsBefore_trans hbeats (hothers k hk hfirst)
    · next hbeaten =>
      refine ⟨?_, ?_⟩
      · rw [multiplicity_setMultiplicity, if_neg hne]
        exact hpos
      · intro k hk hk'
        rw [multiplicity_setMultiplicity] at hk
        by_cases hkey : k = key
        · rw [hkey]
          exact (visitsBefore_total hne).resolve_right hbeaten
        · rw [if_neg hkey] at hk
          exact hothers k hk hk'

/-- A key that stays or leaves changes the first key only by leaving it. -/
theorem extremeKey_stay {m : OrdMap Bytes ℕ+} {key : Bytes} {after : Nat}
    (hbefore : 0 < multiplicity m key) (direction : ScanDirection)
    (h : 0 < after ∨ extremeKey m direction ≠ some key) :
    extremeKey (setMultiplicity m key after) direction = extremeKey m direction := by
  apply extremeKey_eq
  have hfirst := first_extremeKey m direction
  cases hm : extremeKey m direction with
  | none =>
    rw [hm] at hfirst
    exact absurd (hfirst key) (Nat.ne_of_gt hbefore)
  | some first =>
    rw [hm] at hfirst h
    obtain ⟨hpos, hothers⟩ := hfirst
    refine ⟨?_, ?_⟩
    · rw [multiplicity_setMultiplicity]
      split
      · next heq =>
        rcases h with h | h
        · exact h
        · exact absurd (congrArg some heq) h
      · exact hpos
    · intro k hk hne
      rw [multiplicity_setMultiplicity] at hk
      split at hk
      · next heq =>
        rw [heq] at hne ⊢
        exact hothers key hbefore hne
      · exact hothers k hk hne

/-! ## Slots -/

/-- The slot of a layout that caches the first key of a direction. -/
def BoundExtrema.slot (x : BoundExtrema) : ScanDirection → Option Nat
  | .ascending => x.minSlot
  | .descending => x.maxSlot

/-- The slots of a layout. -/
def BoundExtrema.slots (x : BoundExtrema) : List Nat := x.minSlot.toList ++ x.maxSlot.toList

theorem BoundExtrema.mem_slots {x : BoundExtrema} {direction : ScanDirection} {i : Nat}
    (h : x.slot direction = some i) : i ∈ x.slots := by
  cases direction with
  | ascending => exact List.mem_append_left _ (by rw [show x.minSlot = some i from h]; simp)
  | descending => exact List.mem_append_right _ (by rw [show x.maxSlot = some i from h]; simp)

theorem BoundExtrema.exists_slot {x : BoundExtrema} {i : Nat} (h : i ∈ x.slots) :
    ∃ direction, x.slot direction = some i := by
  rcases List.mem_append.mp h with h | h
  · exact ⟨.ascending, Option.mem_toList.mp h⟩
  · exact ⟨.descending, Option.mem_toList.mp h⟩

/-- Every cached slot of a layout goes through `f`, and no other slot changes. -/
structure Turns (x : BoundExtrema) (f : ScanDirection → Option Bytes → Option Bytes)
    (extremes extremes' : List (Option Bytes)) : Prop where
  own : ∀ direction i, x.slot direction = some i →
    ∃ cached, extremes[i]? = some cached ∧ extremes'[i]? = some (f direction cached)
  other : ∀ i, i ∉ x.slots → extremes'[i]? = extremes[i]?

/-- One slot goes through `f`. -/
def Moves (slot : Option Nat) (f : Option Bytes → Option Bytes)
    (extremes extremes' : List (Option Bytes)) : Prop :=
  ∀ i, (slot = some i → ∃ cached, extremes[i]? = some cached ∧ extremes'[i]? = some (f cached)) ∧
    (slot ≠ some i → extremes'[i]? = extremes[i]?)

/-- A write that may be left out moves its slot. -/
theorem moves_set {i : Nat} {cached value : Option Bytes} {extremes : List (Option Bytes)}
    (h : extremes[i]? = some cached) {c : Prop} [Decidable c]
    {f : Option Bytes → Option Bytes} (hf : f cached = if c then value else cached) :
    Moves (some i) f extremes (if c then extremes.set i value else extremes) := by
  have hlt := (List.getElem?_eq_some_iff.mp h).1
  intro j
  refine ⟨?_, ?_⟩
  · intro hj
    cases hj
    refine ⟨cached, h, ?_⟩
    rw [hf]
    split
    · exact List.getElem?_set_self hlt
    · exact h
  · intro hj
    have hne : i ≠ j := fun heq => hj (congrArg some heq)
    split
    · exact List.getElem?_set_ne hne
    · rfl

theorem moves_none (f : Option Bytes → Option Bytes) (extremes : List (Option Bytes)) :
    Moves none f extremes extremes :=
  fun _ => ⟨fun h => (by cases h), fun _ => rfl⟩

/-- Both slots move, one after the other. -/
theorem turns_of_moves {x : BoundExtrema} {f : ScanDirection → Option Bytes → Option Bytes}
    {extremes₁ extremes₂ extremes₃ : List (Option Bytes)} (hnodup : x.slots.Nodup)
    (h : Moves x.minSlot (f .ascending) extremes₁ extremes₂)
    (h' : Moves x.maxSlot (f .descending) extremes₂ extremes₃) : Turns x f extremes₁ extremes₃ where
  own := by
    have hdistinct : ∀ i, x.minSlot = some i → x.maxSlot ≠ some i := by
      intro i hmin hmax
      unfold BoundExtrema.slots at hnodup
      rw [hmin, hmax] at hnodup
      simp at hnodup
    intro direction i hi
    cases direction with
    | ascending =>
      obtain ⟨cached, hcached, hmoved⟩ := (h i).1 hi
      exact ⟨cached, hcached, ((h' i).2 (hdistinct i hi)).trans hmoved⟩
    | descending =>
      obtain ⟨cached, hcached, hmoved⟩ := (h' i).1 hi
      rw [(h i).2 fun hmin => hdistinct i hmin hi] at hcached
      exact ⟨cached, hcached, hmoved⟩
  other := by
    intro i hi
    have hmin : x.minSlot ≠ some i := fun hmin =>
      hi (BoundExtrema.mem_slots (show x.slot .ascending = some i from hmin))
    have hmax : x.maxSlot ≠ some i := fun hmax =>
      hi (BoundExtrema.mem_slots (show x.slot .descending = some i from hmax))
    rw [(h' i).2 hmax, (h i).2 hmin]

theorem promoteSlot_moves {better : Bytes → Bytes → Bool} {key : Bytes} {slot : Option Nat}
    {extremes extremes' : List (Option Bytes)}
    (h : promoteSlot better key slot extremes = .ok extremes') :
    Moves slot (fun cached => if cached.all (better key) then some key else cached) extremes
      extremes' := by
  cases slot with
  | none =>
    cases h
    exact moves_none _ _
  | some i =>
    unfold promoteSlot at h
    dsimp only at h
    split at h
    · cases h
    · next cached hcached =>
      cases h
      refine moves_set hcached ?_
      cases cached with
      | none => rfl
      | some current => rfl

theorem refreshedSlot_moves {m : OrdMap Bytes ℕ+} {direction : ScanDirection} {key : Bytes}
    {slot : Option Nat} {extremes extremes' : List (Option Bytes)}
    (h : refreshedSlot m direction key slot extremes = .ok extremes') :
    Moves slot (fun cached => if cached = some key then extremeKey m direction else cached)
      extremes extremes' := by
  cases slot with
  | none =>
    cases h
    exact moves_none _ _
  | some i =>
    unfold refreshedSlot at h
    dsimp only at h
    split at h
    · cases h
    · next cached hcached =>
      cases h
      exact moves_set hcached rfl

theorem visitsBefore_ascending_eq :
    visitsBefore .ascending = fun key current : Bytes => decide (key < current) := by
  funext a b
  exact decide_eq_decide.mpr Iff.rfl

theorem visitsBefore_descending_eq :
    visitsBefore .descending = fun key current : Bytes => decide (current < key) := by
  funext a b
  exact decide_eq_decide.mpr Iff.rfl

theorem promoteCachedExtreme_turns {x : BoundExtrema} {extremes extremes' : List (Option Bytes)}
    {key : Bytes} (hnodup : x.slots.Nodup)
    (h : promoteCachedExtreme x extremes key = .ok extremes') :
    Turns x (fun direction cached =>
      if cached.all (visitsBefore direction key) then some key else cached) extremes extremes' := by
  obtain ⟨extremes₁, hmin, hmax⟩ := except_bind_eq_ok.mp h
  rw [← visitsBefore_ascending_eq] at hmin
  rw [← visitsBefore_descending_eq] at hmax
  exact turns_of_moves hnodup (promoteSlot_moves hmin) (promoteSlot_moves hmax)

theorem refreshed_turns {x : BoundExtrema} {m : OrdMap Bytes ℕ+}
    {extremes extremes' : List (Option Bytes)} {key : Bytes} (hnodup : x.slots.Nodup)
    (h : refreshed x m key extremes = .ok extremes') :
    Turns x (fun direction cached =>
      if cached = some key then extremeKey m direction else cached) extremes extremes' := by
  obtain ⟨extremes₁, hmin, hmax⟩ := except_bind_eq_ok.mp h
  exact turns_of_moves hnodup (refreshedSlot_moves hmin) (refreshedSlot_moves hmax)

/-- The slots of a layout cache the first keys of a partition. -/
def Caches (x : BoundExtrema) (extremes : List (Option Bytes)) (m : OrdMap Bytes ℕ+) : Prop :=
  ∀ direction i, x.slot direction = some i → extremes[i]? = some (extremeKey m direction)

theorem Turns.caches {x : BoundExtrema} {f : ScanDirection → Option Bytes → Option Bytes}
    {extremes extremes' : List (Option Bytes)} {m m' : OrdMap Bytes ℕ+}
    (h : Turns x f extremes extremes') (hcaches : Caches x extremes m)
    (hf : ∀ direction, extremeKey m' direction = f direction (extremeKey m direction)) :
    Caches x extremes' m' := by
  intro direction i hi
  obtain ⟨cached, hcached, hmoved⟩ := h.own direction i hi
  rw [hcaches direction i hi] at hcached
  cases hcached
  rw [hmoved, hf]

/-! ## One key -/

/-- When the weight of a key changes, the cached extremes stay the first keys. -/
theorem turned_spec {x : BoundExtrema} {m : OrdMap Bytes ℕ+} {key : Bytes} {after : Nat}
    {extremes extremes₁ extremes' : List (Option Bytes)} (hnodup : x.slots.Nodup)
    (hne : after ≠ multiplicity m key)
    (hpromote : if multiplicity m key = 0 then promoteCachedExtreme x extremes key = .ok extremes₁
      else extremes₁ = extremes)
    (h : if after = 0 ∧ cachesKey x extremes₁ key then
        refreshed x (setMultiplicity m key after) key extremes₁ = .ok extremes'
      else extremes' = extremes₁) :
    (∀ i, i ∉ x.slots → extremes'[i]? = extremes[i]?) ∧
      (Caches x extremes m → Caches x extremes' (setMultiplicity m key after)) := by
  by_cases hbefore : multiplicity m key = 0
  -- a key that enters is promoted and cannot leave in the same event
  · have hpos : 0 < after := Nat.pos_of_ne_zero fun hzero => hne (hzero.trans hbefore.symm)
    rw [if_pos hbefore] at hpromote
    rw [if_neg fun hboth => absurd hboth.1 (Nat.ne_of_gt hpos)] at h
    subst h
    have hturns := promoteCachedExtreme_turns hnodup hpromote
    exact ⟨hturns.other, fun hcaches =>
      hturns.caches hcaches fun direction => extremeKey_enter hbefore hpos direction⟩
  · have hpos := Nat.pos_of_ne_zero hbefore
    rw [if_neg hbefore] at hpromote
    subst hpromote
    split at h
    · have hturns := refreshed_turns hnodup h
      refine ⟨hturns.other, fun hcaches => hturns.caches hcaches fun direction => ?_⟩
      split
      · rfl
      · next hother => exact extremeKey_stay hpos direction (.inr hother)
    · next hquiet =>
      subst h
      refine ⟨fun _ _ => rfl, ?_⟩
      intro hcaches direction i hi
      rw [hcaches direction i hi, extremeKey_stay hpos direction]
      by_cases hzero : after = 0
      -- a key that left was cached nowhere, so it was first in no direction
      · refine .inr fun hkey => hquiet ⟨hzero, ?_⟩
        unfold cachesKey
        rw [List.any_eq_true]
        refine ⟨i, BoundExtrema.mem_slots hi, ?_⟩
        rw [hcaches direction i hi, hkey]
        simp
      · exact .inl (Nat.pos_of_ne_zero hzero)

end Dogpaddle.Aggregate
