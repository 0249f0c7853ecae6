import Dogpaddle.Aggregate.Machine
import Dogpaddle.Lib.Mirror

/-!
# Pending keys of the aggregate

Each layout holds one key whose weight is not written back yet. `Slots` says that the
entries are the stored ones with the pending keys written back:

* flushing a slot makes its layout `Clean`, and a clean slot can be replaced;
* an adjustment mirrors `adjusted`, and a cached extreme is only read again from a
  clean layout, so that it mirrors `refreshed`.
-/

namespace Dogpaddle.Aggregate

open Lib Store Dogpaddle.Relation

variable {Ty Value : Type}

/-! ## Pending keys -/

/-- The entries with the pending keys written back. -/
def writtenEntries (entries : Entries) (pending : PendingExtrema) : Entries := fun partition =>
  match pending partition.layout with
  | none => entries partition
  | some slot =>
    if slot.group = partition.group then
      setMultiplicity (entries partition) slot.key slot.current
    else entries partition

/-- The pending keys hold the stored weights they were loaded with. -/
structure Slots (layouts : Nat) (stored : Entries) (pending : PendingExtrema)
    (entries : Entries) : Prop where
  entries : entries = writtenEntries stored pending
  loaded : ∀ layout slot, pending layout = some slot →
    multiplicity (stored ⟨layout, slot.group⟩) slot.key = slot.stored
  below : ∀ layout slot, pending layout = some slot → layout < layouts

/-- The stored entries of a layout are current. -/
def Clean (stored entries : Entries) (layout : Nat) : Prop :=
  ∀ group, stored ⟨layout, group⟩ = entries ⟨layout, group⟩

namespace Slots

variable {layouts layout : Nat} {stored entries : Entries} {pending : PendingExtrema}

theorem none (entries : Entries) : Slots layouts entries (fun _ => none) entries where
  entries := rfl
  loaded := fun _ _ h => by cases h
  below := fun _ _ h => by cases h

theorem at_slot (h : Slots layouts stored pending entries) {slot : PendingExtreme}
    (hslot : pending layout = some slot) :
    entries ⟨layout, slot.group⟩ =
      setMultiplicity (stored ⟨layout, slot.group⟩) slot.key slot.current := by
  rw [h.entries]
  simp only [writtenEntries, hslot, if_true]

/-- A clean slot can be forgotten. -/
theorem drop (h : Slots layouts stored pending entries) (hclean : Clean stored entries layout) :
    Slots layouts stored (Function.update pending layout Option.none) entries where
  entries := by
    funext partition
    obtain ⟨l, group⟩ := partition
    by_cases hl : l = layout
    · subst hl
      simp only [writtenEntries, Function.update_self]
      exact (hclean group).symm
    · rw [h.entries]
      simp only [writtenEntries, Function.update_of_ne hl]
  loaded := by
    intro l slot hslot
    by_cases hl : l = layout
    · subst hl
      rw [Function.update_self] at hslot
      cases hslot
    · rw [Function.update_of_ne hl] at hslot
      exact h.loaded l slot hslot
  below := by
    intro l slot hslot
    by_cases hl : l = layout
    · subst hl
      rw [Function.update_self] at hslot
      cases hslot
    · rw [Function.update_of_ne hl] at hslot
      exact h.below l slot hslot

/-- A slot takes a weight that stands for its partition: what its other keys hold is stored. -/
theorem put (h : Slots layouts stored pending entries) (slot : PendingExtreme) (after : Nat)
    (hbelow : layout < layouts)
    (hloaded : multiplicity (stored ⟨layout, slot.group⟩) slot.key = slot.stored)
    (hwritten : ∀ group, entries ⟨layout, group⟩ =
      if slot.group = group then setMultiplicity (stored ⟨layout, group⟩) slot.key slot.current
      else stored ⟨layout, group⟩) :
    Slots layouts stored (Function.update pending layout (some { slot with current := after }))
      (setEntry entries ⟨layout, slot.group⟩ slot.key after) where
  entries := by
    funext partition
    obtain ⟨l, group⟩ := partition
    unfold setEntry
    by_cases hl : l = layout
    · subst hl
      simp only [writtenEntries, Function.update_self]
      by_cases hgroup : slot.group = group
      · subst hgroup
        rw [Function.update_self, if_pos rfl, hwritten, if_pos rfl, setMultiplicity_again]
      · have hne : (⟨l, group⟩ : EntryPartition) ≠ ⟨l, slot.group⟩ := by
          intro heq
          exact hgroup (congrArg EntryPartition.group heq).symm
        rw [Function.update_of_ne hne, if_neg hgroup, hwritten, if_neg hgroup]
    · have hne : (⟨l, group⟩ : EntryPartition) ≠ ⟨layout, slot.group⟩ := by
        intro heq
        exact hl (congrArg EntryPartition.layout heq)
      rw [Function.update_of_ne hne, h.entries]
      simp only [writtenEntries, Function.update_of_ne hl]
  loaded := by
    intro l slot' hslot
    by_cases hl : l = layout
    · subst hl
      rw [Function.update_self] at hslot
      cases hslot
      exact hloaded
    · rw [Function.update_of_ne hl] at hslot
      exact h.loaded l slot' hslot
  below := by
    intro l slot' hslot
    by_cases hl : l = layout
    · subst hl
      exact hbelow
    · rw [Function.update_of_ne hl] at hslot
      exact h.below l slot' hslot

/-- The pending key of a layout takes a new weight. -/
theorem adjust (h : Slots layouts stored pending entries) {slot : PendingExtreme} (after : Nat)
    (hslot : pending layout = some slot) :
    Slots layouts stored (Function.update pending layout (some { slot with current := after }))
      (setEntry entries ⟨layout, slot.group⟩ slot.key after) := by
  refine h.put slot after (h.below _ _ hslot) (h.loaded _ _ hslot) ?_
  intro group
  rw [h.entries]
  simp only [writtenEntries, hslot]

/-- A clean slot takes a new key. -/
theorem load (h : Slots layouts stored pending entries) (hclean : Clean stored entries layout)
    (hbelow : layout < layouts) (group : UInt64) (key : Bytes) (after : Nat) :
    Slots layouts stored (Function.update pending layout
      (some ⟨group, key, multiplicity (entries ⟨layout, group⟩) key, after⟩))
      (setEntry entries ⟨layout, group⟩ key after) := by
  have hloaded : multiplicity (stored ⟨layout, group⟩) key =
      multiplicity (entries ⟨layout, group⟩) key := by rw [hclean group]
  refine h.put ⟨group, key, multiplicity (entries ⟨layout, group⟩) key,
    multiplicity (entries ⟨layout, group⟩) key⟩ after hbelow hloaded ?_
  intro group'
  rw [hclean group']
  by_cases hgroup : group = group'
  · subst hgroup
    rw [if_pos rfl, setMultiplicity_self]
  · rw [if_neg hgroup]

end Slots

/-- The groups and the next id are the same. -/
def SameGroups (s t : AggregateState) : Prop := t.groups = s.groups ∧ t.control = s.control

theorem SameGroups.refl (s : AggregateState) : SameGroups s s := ⟨rfl, rfl⟩

theorem SameGroups.trans {s t u : AggregateState} (h : SameGroups s t) (h' : SameGroups t u) :
    SameGroups s u := ⟨h'.1.trans h.1, h'.2.trans h.2⟩

theorem SameGroups.of_eq {s t : AggregateState} (h : t = s) : SameGroups s t := by
  subst h
  exact .refl _

/-! ### Flushing -/

/-- Flushing a layout makes it clean and leaves the other slots. -/
theorem flushSlot_eq_ok {layouts layout : Nat} {pending pending' : PendingExtrema}
    {entries : Entries} {t t' : Scope AggregateState}
    (hslots : Slots layouts t.state.entries pending entries)
    (h : flushSlot layout pending t = .ok pending' t') :
    Slots layouts t'.state.entries pending' entries ∧ Clean t'.state.entries entries layout ∧
      (∀ l, l ≠ layout → pending' l = pending l) ∧ SameGroups t.state t'.state := by
  unfold flushSlot at h
  cases hslot : pending layout with
  | none =>
    simp only [hslot] at h
    obtain ⟨rfl, rfl⟩ := pure_eq_ok.mp h
    refine ⟨hslots, ?_, fun _ _ => rfl, .refl _⟩
    intro group
    rw [hslots.entries]
    simp only [writtenEntries, hslot]
  | some slot =>
    simp only [hslot] at h
    have hloaded := hslots.loaded _ _ hslot
    split at h
    · next hsame =>
      obtain ⟨rfl, rfl⟩ := pure_eq_ok.mp h
      refine ⟨hslots, ?_, fun _ _ => rfl, .refl _⟩
      intro group
      rw [hslots.entries]
      simp only [writtenEntries, hslot]
      split
      · next hgroup =>
        subst hgroup
        rw [hsame, ← hloaded, setMultiplicity_self]
      · rfl
    · obtain ⟨_, t₁, hcharge, h⟩ := bind_eq_ok.mp h
      obtain ⟨_, t₂, hmodify, h⟩ := bind_eq_ok.mp h
      obtain ⟨rfl, rfl⟩ := pure_eq_ok.mp h
      have hstate := charge_state hcharge
      have hwrite := modify_eq_ok.mp hmodify
      subst hwrite
      have hclean : Clean (setEntry t₁.state.entries ⟨layout, slot.group⟩ slot.key slot.current)
          entries layout := by
        intro group
        rw [hstate, hslots.entries]
        unfold setEntry
        simp only [writtenEntries, hslot]
        by_cases hgroup : slot.group = group
        · subst hgroup
          rw [Function.update_self, if_pos rfl]
        · have hne : (⟨layout, group⟩ : EntryPartition) ≠ ⟨layout, slot.group⟩ := by
            intro heq
            exact hgroup (congrArg EntryPartition.group heq).symm
          rw [Function.update_of_ne hne, if_neg hgroup]
      refine ⟨⟨?_, ?_, ?_⟩, hclean, ?_, ?_⟩
      · funext partition
        obtain ⟨l, group⟩ := partition
        by_cases hl : l = layout
        · subst hl
          rw [← hclean group]
          simp only [writtenEntries, Function.update_self, setEntry]
          split
          · next hgroup =>
            subst hgroup
            rw [Function.update_self, setMultiplicity_again]
          · rfl
        · have hne : (⟨l, group⟩ : EntryPartition) ≠ ⟨layout, slot.group⟩ := by
            intro heq
            exact hl (congrArg EntryPartition.layout heq)
          rw [hslots.entries]
          simp only [writtenEntries, Function.update_of_ne hl, setEntry,
            Function.update_of_ne hne, hstate]
      · intro l slot' hslot'
        by_cases hl : l = layout
        · subst hl
          rw [Function.update_self] at hslot'
          cases hslot'
          show multiplicity (setEntry t₁.state.entries ⟨l, slot.group⟩ slot.key slot.current
            ⟨l, slot.group⟩) slot.key = slot.current
          unfold setEntry
          rw [Function.update_self, multiplicity_setMultiplicity, if_pos rfl]
        · rw [Function.update_of_ne hl] at hslot'
          have hne : (⟨l, slot'.group⟩ : EntryPartition) ≠ ⟨layout, slot.group⟩ := by
            intro heq
            exact hl (congrArg EntryPartition.layout heq)
          show multiplicity (setEntry t₁.state.entries ⟨layout, slot.group⟩ slot.key slot.current
            ⟨l, slot'.group⟩) slot'.key = slot'.stored
          unfold setEntry
          rw [Function.update_of_ne hne, hstate]
          exact hslots.loaded l slot' hslot'
      · intro l slot' hslot'
        by_cases hl : l = layout
        · subst hl
          exact hslots.below _ _ hslot
        · rw [Function.update_of_ne hl] at hslot'
          exact hslots.below l slot' hslot'
      · exact fun l hl => Function.update_of_ne hl _ _
      · show t₁.state.groups = t.state.groups ∧ t₁.state.control = t.state.control
        rw [hstate]
        exact ⟨rfl, rfl⟩

theorem flushSlot_soft (layout : Nat) (pending : PendingExtrema) (t : Scope AggregateState) :
    Raises (fun e => ¬ Hard e) (flushSlot layout pending) t := by
  unfold flushSlot
  cases pending layout with
  | none => exact .pure _
  | some slot =>
    exact .ite (fun _ => .pure _) fun _ =>
      .bind (soft_charge _ _) fun _ _ _ => .bind (.modify _) fun _ _ _ => .pure _

/-- Flushing the first layouts forgets their slots. -/
theorem flushAll_eq_ok {layouts n : Nat} {pending pending' : PendingExtrema} {entries : Entries}
    {t t' : Scope AggregateState} (hslots : Slots layouts t.state.entries pending entries)
    (h : flushAll n pending t = .ok pending' t') :
    Slots layouts t'.state.entries pending' entries ∧ (∀ l, l < n → pending' l = none) ∧
      SameGroups t.state t'.state := by
  induction n generalizing pending' t' with
  | zero =>
    obtain ⟨rfl, rfl⟩ := pure_eq_ok.mp h
    exact ⟨hslots, fun l hl => absurd hl (Nat.not_lt_zero l), .refl _⟩
  | succ n ih =>
    obtain ⟨pending₁, t₁, hfirst, h⟩ := bind_eq_ok.mp h
    obtain ⟨pending₂, t₂, hflush, h⟩ := bind_eq_ok.mp h
    obtain ⟨rfl, rfl⟩ := pure_eq_ok.mp h
    obtain ⟨hslots₁, hnone, hsame⟩ := ih hfirst
    obtain ⟨hslots₂, hclean, hother, hsame'⟩ := flushSlot_eq_ok hslots₁ hflush
    refine ⟨hslots₂.drop hclean, ?_, hsame.trans hsame'⟩
    intro l hl
    by_cases hln : l = n
    · subst hln
      rw [Function.update_self]
    · rw [Function.update_of_ne hln, hother l hln]
      exact hnone l (by omega)

theorem flushAll_soft (n : Nat) (pending : PendingExtrema) (t : Scope AggregateState) :
    Raises (fun e => ¬ Hard e) (flushAll n pending) t := by
  induction n with
  | zero => exact .pure _
  | succ n ih => exact .bind ih fun _ _ _ => .bind (flushSlot_soft _ _ _) fun _ _ _ => .pure _

/-- Without pending keys the stored entries are current. -/
theorem Slots.stored_eq {layouts : Nat} {stored entries : Entries} {pending : PendingExtrema}
    (h : Slots layouts stored pending entries)
    (hnone : ∀ l, l < layouts → pending l = Option.none) :
    stored = entries := by
  rw [h.entries]
  funext partition
  unfold writtenEntries
  cases hslot : pending partition.layout with
  | none => rfl
  | some slot =>
    rw [hnone _ (h.below _ _ hslot)] at hslot
    cases hslot

/-! ### Adjusting -/

/-- The store rejects what the run rejected, with the error of its sign. -/
theorem checkedWeight_of_rejected {before : Nat} {difference : Int}
    (h : checkedExtremaWeight before difference = none) :
    checkedWeight before difference = .error (rejection difference) := by
  unfold checkedExtremaWeight at h
  unfold checkedWeight rejection
  split at h
  · next hpos =>
    split at h
    · cases h
    · next hover => rw [if_pos hpos.le, if_neg hover, if_pos hpos]
  · next hpos =>
    split at h
    · cases h
    · next hunder =>
      have hneg : ¬ difference ≥ 0 := by omega
      rw [if_neg hneg, if_neg hunder, if_neg hpos]

theorem rejectEntry_ne_ok {α : Type} {partition : EntryPartition} {key : Bytes}
    {difference : Int} {t t' : Scope AggregateState} {a : α} :
    (rejectEntry partition key difference : AggregateAttempt α) t ≠ .ok a t' := by
  intro h
  obtain ⟨s, t₁, _, h⟩ := bind_eq_ok.mp h
  cases hchecked : checkedWeight (multiplicity (s.state.entries partition) key) difference with
  | error e =>
    simp only [hchecked] at h
    exact (throw_eq_ok.mp h).elim
  | ok after =>
    simp only [hchecked] at h
    exact (throw_eq_ok.mp h).elim

theorem rejectEntry_raises {α : Type} {partition : EntryPartition} {key : Bytes}
    {difference : Int} {t : Scope AggregateState}
    (h : checkedExtremaWeight (multiplicity (t.state.entries partition) key) difference = none) :
    Raises (fun e => ¬ Hard e ∨ e = rejection difference)
      (rejectEntry partition key difference : AggregateAttempt α) t := by
  refine .get ?_
  rw [checkedWeight_of_rejected h]
  exact .throw (.inr rfl)

theorem adjustEntry_mirrors {layouts layout : Nat} {pending : PendingExtrema} {entries : Entries}
    {t : Scope AggregateState} (hslots : Slots layouts t.state.entries pending entries)
    (hlayout : layout < layouts) (group : UInt64) (key : Bytes) (difference : Int) :
    Mirrors Hard (adjustEntry pending layout group key difference) t
      (adjusted entries ⟨layout, group⟩ key difference)
      fun r t' r' => r.1 = r'.1 ∧ Slots layouts t'.state.entries r.2 r'.2 ∧
        SameGroups t.state t'.state := by
  unfold adjustEntry adjusted
  cases hmatch : (pending layout).filter fun slot => slot.group = group ∧ slot.key = key with
  | some slot =>
    obtain ⟨hslot, hkey⟩ := Option.filter_eq_some_iff.mp hmatch
    obtain ⟨rfl, rfl⟩ := of_decide_eq_true hkey
    have hbefore : multiplicity (entries ⟨layout, slot.group⟩) slot.key = slot.current := by
      rw [hslots.at_slot hslot, multiplicity_setMultiplicity, if_pos rfl]
    simp only [hbefore]
    cases hafter : checkedExtremaWeight slot.current difference with
    | some after => exact .pure ⟨rfl, hslots.adjust after hslot, .refl _⟩
    | none =>
      refine .soft_bind (flushSlot_soft _ _ _) fun _ t₁ hflush => ?_
      obtain ⟨-, hclean, -, -⟩ := flushSlot_eq_ok hslots hflush
      refine .fails (fun _ _ => rejectEntry_ne_ok) (rejectEntry_raises ?_) rfl
      rw [hclean, hbefore]
      exact hafter
  | none =>
    refine .soft_bind (flushSlot_soft _ _ _) fun pending₁ t₁ hflush => ?_
    obtain ⟨hslots₁, hclean, -, hsame⟩ := flushSlot_eq_ok hslots hflush
    refine .soft_bind (soft_charge _ _) fun _ t₂ hcharge => .get ?_
    have hstate := charge_state hcharge
    have hbefore : multiplicity (t₂.state.entries ⟨layout, group⟩) key =
        multiplicity (entries ⟨layout, group⟩) key := by rw [hstate, hclean group]
    simp only [hbefore]
    cases hafter : checkedExtremaWeight (multiplicity (entries ⟨layout, group⟩) key) difference with
    | none =>
      refine .fails (fun _ _ => rejectEntry_ne_ok) (rejectEntry_raises ?_) rfl
      rw [hbefore]
      exact hafter
    | some after =>
      refine .soft_bind (soft_charge _ _) fun _ t₃ hcharge' => .pure ⟨rfl, ?_, ?_⟩
      · rw [charge_state hcharge', hstate]
        exact hslots₁.load hclean hlayout group key after
      · rw [charge_state hcharge', hstate]
        exact hsame

/-! ### Extremes -/

theorem scan_head {m : OrdMap Bytes ℕ+} {size : Bytes × ℕ+ → Nat} {direction : ScanDirection}
    {limit : ScanLimit} {page : OrderedMapPage Bytes ℕ+}
    (h : scan m size none none direction none limit = .ok page) :
    page.entries.head?.map (·.1) = extremeKey m direction := by
  have hpage := scan_isPage h
  unfold IsPage at hpage
  unfold extremeKey
  cases hcontinuation : page.continuation with
  | none =>
    simp only [hcontinuation] at hpage
    rw [hpage]
  | some key =>
    simp only [hcontinuation] at hpage
    obtain ⟨hlast, -, hrest⟩ := hpage
    have hne := ne_nil_of_getLast?_key hlast
    rw [hrest, List.head?_append_of_ne_nil _ hne]

theorem readExtreme_eq_ok {partition : EntryPartition} {direction : ScanDirection}
    {t t' : Scope AggregateState} {key : Option Bytes}
    (h : readExtreme partition direction t = .ok key t') :
    t'.state = t.state ∧ key = extremeKey (t.state.entries partition) direction := by
  obtain ⟨s, t₁, hget, h⟩ := bind_eq_ok.mp h
  obtain ⟨rfl, rfl⟩ := get_eq_ok.mp hget
  by_cases hpos : 0 < t.budget.remainingBytes
  · simp only [dif_pos hpos] at h
    cases hscan : scan (t.state.entries partition)
        (fun e => partitionBytes partition.encodeKey + e.1.length + 8) none none direction none
        ⟨1, t.budget.remainingBytes, Nat.one_pos, hpos⟩ with
    | error e =>
      rw [hscan] at h
      exact (throw_eq_ok.mp h).elim
    | ok page =>
      rw [hscan] at h
      rw [← scan_head hscan]
      cases hhead : page.entries.head? with
      | none =>
        simp only [hhead] at h
        obtain ⟨rfl, rfl⟩ := pure_eq_ok.mp h
        exact ⟨rfl, rfl⟩
      | some entry =>
        simp only [hhead] at h
        obtain ⟨k, t₁, hread, h⟩ := bind_eq_ok.mp h
        obtain ⟨_, t₂, hcharge, hread⟩ := bind_eq_ok.mp hread
        obtain ⟨rfl, rfl⟩ := pure_eq_ok.mp hread
        obtain ⟨rfl, rfl⟩ := pure_eq_ok.mp h
        exact ⟨charge_state hcharge, rfl⟩
  · simp only [dif_neg hpos] at h
    exact (throw_eq_ok.mp h).elim

theorem readExtreme_soft (partition : EntryPartition) (direction : ScanDirection)
    (t : Scope AggregateState) :
    Raises (fun e => ¬ Hard e) (readExtreme partition direction) t := by
  refine .get ?_
  split
  · split
    · exact .throw budget_soft
    · next page _ =>
      cases page.entries.head? with
      | none => exact .pure _
      | some entry =>
        exact .bind (.bind (soft_charge _ _) fun _ _ _ => .pure _) fun _ _ _ => .pure _
  · exact .throw budget_soft

theorem refreshSlot_mirrors (partition : EntryPartition) (direction : ScanDirection) (key : Bytes)
    (slot : Option Nat) (extremes : List (Option Bytes)) (t : Scope AggregateState) :
    Mirrors Hard (refreshSlot partition direction key slot extremes) t
      (refreshedSlot (t.state.entries partition) direction key slot extremes)
      fun r t' r' => r = r' ∧ t'.state = t.state := by
  unfold refreshSlot refreshedSlot
  cases slot with
  | none => exact .pure ⟨rfl, rfl⟩
  | some slot =>
    cases hcached : extremes[slot]? with
    | none => simp only [hcached]; exact .throw _
    | some cached =>
      simp only [hcached]
      by_cases hkey : cached = some key
      · simp only [if_pos hkey]
        refine .soft_bind (readExtreme_soft _ _ _) fun extreme t₁ hread => ?_
        obtain ⟨hstate, rfl⟩ := readExtreme_eq_ok hread
        exact .pure ⟨rfl, hstate⟩
      · simp only [if_neg hkey]
        exact .pure ⟨rfl, rfl⟩

theorem refreshCachedExtreme_mirrors (layout : BoundExtrema) (partition : EntryPartition)
    (key : Bytes) (extremes : List (Option Bytes)) (t : Scope AggregateState) :
    Mirrors Hard (refreshCachedExtreme layout partition key extremes) t
      (refreshed layout (t.state.entries partition) key extremes)
      fun r t' r' => r = r' ∧ t'.state = t.state := by
  refine .bind (refreshSlot_mirrors _ _ _ _ _ _) ?_
  rintro r t₁ r' ⟨rfl, hstate⟩
  have hsecond := refreshSlot_mirrors partition .descending key layout.maxSlot r t₁
  rw [hstate] at hsecond
  exact hsecond

namespace AggregateOperation

variable {op : AggregateOperation Ty Value} {layouts : Nat}

theorem applyExtremaRow_mirrors (group : UInt64) (difference : Int)
    {arguments : List (BoundArgument Ty Value)} {values : List Value}
    {extremes : List (Option Bytes)} {pending : PendingExtrema} {entries : Entries}
    {t : Scope AggregateState}
    (hbelow : ∀ a ∈ arguments, ∀ x, a.extrema = some x → x.partition < layouts)
    (hslots : Slots layouts t.state.entries pending entries) :
    Mirrors Hard (op.applyExtremaRow group difference arguments values extremes pending) t
      (op.extremaRow group difference arguments values extremes entries)
      fun r t' r' => r.1 = r'.1 ∧ Slots layouts t'.state.entries r.2 r'.2 ∧
        SameGroups t.state t'.state := by
  induction arguments generalizing values extremes pending entries t with
  | nil => exact .pure ⟨rfl, hslots, .refl _⟩
  | cons a arguments ih =>
    cases values with
    | nil => exact .pure ⟨rfl, hslots, .refl _⟩
    | cons value values =>
      obtain ⟨ha, hrest⟩ := List.forall_mem_cons.mp hbelow
      simp only [applyExtremaRow, extremaRow]
      cases hx : a.extrema with
      | none => exact ih hrest hslots
      | some layout =>
        refine .soft_bind (soft_charge _ _) fun _ t₁ hcharge => .ofExcept_bind fun key hkey => ?_
        have hslots₁ : Slots layouts t₁.state.entries pending entries := by
          rw [charge_state hcharge]
          exact hslots
        cases key with
        | none =>
          refine (ih hrest hslots₁).weaken ?_
          rintro r t' r' ⟨hextremes, hslots', hsame⟩
          exact ⟨hextremes, hslots', (SameGroups.of_eq (charge_state hcharge)).trans hsame⟩
        | some key =>
          refine .bind (adjustEntry_mirrors hslots₁ (ha layout hx) group key difference) ?_
          rintro ⟨⟨before, after⟩, pending₂⟩ t₂ ⟨⟨before', after'⟩, entries₂⟩ ⟨heq, hslots₂, hsame₂⟩
          cases heq
          have hsame : SameGroups t.state t₂.state :=
            (SameGroups.of_eq (charge_state hcharge)).trans hsame₂
          dsimp only at hslots₂ ⊢
          simp only [pure_bind]
          -- what follows the promotion, from any extremes and the same state
          have hfinish : ∀ extremes (u : Scope AggregateState), u.state = t₂.state →
              Mirrors Hard (if after = 0 ∧ cachesKey layout extremes key = true then do
                  let pending ← flushSlot layout.partition pending₂
                  let extremes ← refreshCachedExtreme layout ⟨layout.partition, group⟩ key extremes
                  op.applyExtremaRow group difference arguments values extremes pending
                else op.applyExtremaRow group difference arguments values extremes pending₂) u
                (if after = 0 ∧ cachesKey layout extremes key = true then do
                  let extremes ←
                    refreshed layout (entries₂ ⟨layout.partition, group⟩) key extremes
                  op.extremaRow group difference arguments values extremes entries₂
                else op.extremaRow group difference arguments values extremes entries₂)
                fun r t' r' => r.1 = r'.1 ∧ Slots layouts t'.state.entries r.2 r'.2 ∧
                  SameGroups t.state t'.state := by
            intro extremes u hu
            rw [← hu] at hslots₂ hsame
            refine .ite (fun _ => ?_) fun _ => ?_
            · refine .soft_bind (flushSlot_soft _ _ _) fun pending₃ u₁ hflush => ?_
              obtain ⟨hslots₃, hclean, -, hsame₃⟩ := flushSlot_eq_ok hslots₂ hflush
              rw [← hclean group]
              refine .bind (refreshCachedExtreme_mirrors _ _ _ _ _) ?_
              rintro r u₂ r' ⟨rfl, hstate⟩
              rw [← hstate] at hslots₃ hsame₃
              refine (ih hrest hslots₃).weaken ?_
              rintro r t' r' ⟨hextremes, hslots', hsame'⟩
              exact ⟨hextremes, hslots', (hsame.trans hsame₃).trans hsame'⟩
            · refine (ih hrest hslots₂).weaken ?_
              rintro r t' r' ⟨hextremes, hslots', hsame'⟩
              exact ⟨hextremes, hslots', hsame.trans hsame'⟩
          refine .ite (fun _ => ?_) fun _ => hfinish extremes t₂ rfl
          refine .soft_bind (soft_charge _ _) fun _ u hu => .ofExcept_bind fun extremes _ => ?_
          exact hfinish extremes u (charge_state hu)

end AggregateOperation

end Dogpaddle.Aggregate
