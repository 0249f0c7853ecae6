import Dogpaddle.Aggregate.Caches
import Dogpaddle.Aggregate.View

/-!
# The extremes of the aggregate

`Ranked` says that the ordered partitions of a group count the keys of its rows, and that
its cached extremes are the first keys of the partitions in either direction. Every run of
the machine keeps the stored groups ranked, under ids of their own (`run_arranged`), and so
does the runtime (`aggregate_extremes`).
-/

namespace Dogpaddle.Aggregate

open Lib Store Dogpaddle.Relation

variable {Ty Value : Type}

/-! ## One value -/

theorem adjusted_eq_ok {entries entries' : Entries} {partition : EntryPartition} {key : Bytes}
    {difference : Int} {before after : Nat}
    (h : adjusted entries partition key difference = .ok ((before, after), entries')) :
    before = multiplicity (entries partition) key ∧ (after : Int) = before + difference ∧
      entries' = setEntry entries partition key after := by
  unfold adjusted at h
  dsimp only at h
  cases hafter : checkedExtremaWeight (multiplicity (entries partition) key) difference with
  | none =>
    rw [hafter] at h
    cases h
  | some after =>
    rw [hafter] at h
    cases h
    refine ⟨rfl, ?_, rfl⟩
    unfold checkedExtremaWeight at hafter
    split at hafter
    · split at hafter
      · cases hafter
        omega
      · cases hafter
    · split at hafter
      · cases hafter
        omega
      · cases hafter

namespace AggregateOperation

/-- How often an argument files a value under a key. -/
def filed (op : AggregateOperation Ty Value) (a : BoundArgument Ty Value) (key : Bytes)
    (value : Value) : Int :=
  match op.entryKey a value with
  | .ok (some filed) => if filed = key then 1 else 0
  | _ => 0

variable {op : AggregateOperation Ty Value}

/-- One value is filed in its partition, and the cached extremes follow it. -/
structure Files (op : AggregateOperation Ty Value) (a : BoundArgument Ty Value) (x : BoundExtrema)
    (group : UInt64) (difference : Int) (value : Value) (extremes extremes' : List (Option Bytes))
    (entries entries' : Entries) : Prop where
  others : ∀ partition, partition ≠ ⟨x.partition, group⟩ → entries' partition = entries partition
  weights : ∀ key, (multiplicity (entries' ⟨x.partition, group⟩) key : Int) =
    multiplicity (entries ⟨x.partition, group⟩) key + op.filed a key value * difference
  slots : ∀ i, i ∉ x.slots → extremes'[i]? = extremes[i]?
  caches : Caches x extremes (entries ⟨x.partition, group⟩) →
    Caches x extremes' (entries' ⟨x.partition, group⟩)

theorem extremaRow_cons_eq_ok {group : UInt64} {difference : Int} {a : BoundArgument Ty Value}
    {x : BoundExtrema} {arguments : List (BoundArgument Ty Value)} {value : Value}
    {values : List Value} {extremes extremes' : List (Option Bytes)} {entries entries' : Entries}
    (hx : a.extrema = some x) (hnodup : x.slots.Nodup) (hdifference : difference ≠ 0)
    (h : op.extremaRow group difference (a :: arguments) (value :: values) extremes entries =
      .ok (extremes', entries')) :
    ∃ extremes₁ entries₁,
      Files op a x group difference value extremes extremes₁ entries entries₁ ∧
      op.extremaRow group difference arguments values extremes₁ entries₁ =
        .ok (extremes', entries') := by
  simp only [extremaRow, hx] at h
  obtain ⟨key, hkey, h⟩ := except_bind_eq_ok.mp h
  cases key with
  | none =>
    refine ⟨extremes, entries, ⟨fun _ _ => rfl, ?_, fun _ _ => rfl, id⟩, h⟩
    intro key
    simp [filed, hkey]
  | some key =>
    obtain ⟨⟨⟨before, after⟩, entries₁⟩, hadjusted, h⟩ := except_bind_eq_ok.mp h
    obtain ⟨rfl, hafter, rfl⟩ := adjusted_eq_ok hadjusted
    have hne : after ≠ multiplicity (entries ⟨x.partition, group⟩) key := by omega
    have hown : setEntry entries ⟨x.partition, group⟩ key after ⟨x.partition, group⟩ =
        setMultiplicity (entries ⟨x.partition, group⟩) key after := Function.update_self ..
    have hfiles : ∀ extremes₁ extremes₂,
        (if multiplicity (entries ⟨x.partition, group⟩) key = 0 then
          promoteCachedExtreme x extremes key = .ok extremes₁ else extremes₁ = extremes) →
        (if after = 0 ∧ cachesKey x extremes₁ key then
          refreshed x (setMultiplicity (entries ⟨x.partition, group⟩) key after) key extremes₁ =
            .ok extremes₂
          else extremes₂ = extremes₁) →
        Files op a x group difference value extremes extremes₂ entries
          (setEntry entries ⟨x.partition, group⟩ key after) := by
      intro extremes₁ extremes₂ hpromote hrefresh
      obtain ⟨hslots, hcaches⟩ := turned_spec hnodup hne hpromote hrefresh
      refine ⟨fun _ hpartition => Function.update_of_ne hpartition _ _, ?_, hslots, ?_⟩
      · intro key'
        rw [hown, multiplicity_setMultiplicity]
        simp only [filed, hkey]
        by_cases heq : key' = key
        · rw [if_pos heq, if_pos heq.symm, heq, hafter, one_mul]
        · rw [if_neg heq, if_neg fun h => heq h.symm, zero_mul, add_zero]
      · rw [hown]
        exact hcaches
    dsimp only at h
    rw [hown] at h
    have hrest : ∀ extremes₁,
        (if multiplicity (entries ⟨x.partition, group⟩) key = 0 then
          promoteCachedExtreme x extremes key = .ok extremes₁ else extremes₁ = extremes) →
        (if after = 0 ∧ cachesKey x extremes₁ key then do
            let extremes ←
              refreshed x (setMultiplicity (entries ⟨x.partition, group⟩) key after) key extremes₁
            op.extremaRow group difference arguments values extremes
              (setEntry entries ⟨x.partition, group⟩ key after)
          else op.extremaRow group difference arguments values extremes₁
            (setEntry entries ⟨x.partition, group⟩ key after)) = .ok (extremes', entries') →
        ∃ extremes₁ entries₁,
          Files op a x group difference value extremes extremes₁ entries entries₁ ∧
          op.extremaRow group difference arguments values extremes₁ entries₁ =
            .ok (extremes', entries') := by
      intro extremes₁ hpromote h
      split at h
      · next hleft =>
        obtain ⟨extremes₂, hrefresh, h⟩ := except_bind_eq_ok.mp h
        refine ⟨extremes₂, _, hfiles extremes₁ extremes₂ hpromote ?_, h⟩
        rw [if_pos hleft]
        exact hrefresh
      · next hquiet =>
        refine ⟨extremes₁, _, hfiles extremes₁ extremes₁ hpromote ?_, h⟩
        rw [if_neg hquiet]
    split at h
    · next hzero =>
      obtain ⟨extremes₁, hpromote, h⟩ := except_bind_eq_ok.mp h
      refine hrest extremes₁ ?_ h
      rw [if_pos hzero]
      exact hpromote
    · next hpresent =>
      refine hrest extremes ?_ h
      rw [if_neg hpresent]

/-! ### All values of a row -/

theorem mem_partitionSlots {arguments : List (BoundArgument Ty Value)} {a : BoundArgument Ty Value}
    {x : BoundExtrema} (ha : a ∈ arguments) (hx : a.extrema = some x) :
    x.partition ∈ arguments.flatMap (·.partitionSlots) :=
  List.mem_flatMap.mpr ⟨a, ha, by simp [BoundArgument.partitionSlots, hx]⟩

theorem cacheSlots_eq {a : BoundArgument Ty Value} {x : BoundExtrema} (hx : a.extrema = some x) :
    a.cacheSlots = x.slots := by
  simp [BoundArgument.cacheSlots, BoundExtrema.slots, hx]

theorem mem_cacheSlots {arguments : List (BoundArgument Ty Value)} {a : BoundArgument Ty Value}
    {x : BoundExtrema} {i : Nat} (ha : a ∈ arguments) (hx : a.extrema = some x) (hi : i ∈ x.slots) :
    i ∈ arguments.flatMap (·.cacheSlots) :=
  List.mem_flatMap.mpr ⟨a, ha, by rw [cacheSlots_eq hx]; exact hi⟩

/-- Every argument files its value once, in its own partition and under its own slots. -/
theorem extremaRow_eq_ok {group : UInt64} {difference : Int}
    {arguments : List (BoundArgument Ty Value)} {values : List Value}
    {extremes extremes' : List (Option Bytes)} {entries entries' : Entries}
    (hdifference : difference ≠ 0)
    (hpartitions : (arguments.flatMap (·.partitionSlots)).Nodup)
    (hslots : (arguments.flatMap (·.cacheSlots)).Nodup)
    (hlength : values.length = arguments.length)
    (h : op.extremaRow group difference arguments values extremes entries =
      .ok (extremes', entries')) :
    (∀ partition, (partition.group = group →
        partition.layout ∉ arguments.flatMap (·.partitionSlots)) →
      entries' partition = entries partition) ∧
    (∀ i, i ∉ arguments.flatMap (·.cacheSlots) → extremes'[i]? = extremes[i]?) ∧
    ∀ (index : Nat) a x, arguments[index]? = some a → a.extrema = some x →
      ∃ value, values[index]? = some value ∧
        (∀ key, (multiplicity (entries' ⟨x.partition, group⟩) key : Int) =
          multiplicity (entries ⟨x.partition, group⟩) key + op.filed a key value * difference) ∧
        (Caches x extremes (entries ⟨x.partition, group⟩) →
          Caches x extremes' (entries' ⟨x.partition, group⟩)) := by
  -- partitions and slots are distinct, so no argument disturbs another
  induction arguments generalizing values extremes entries with
  | nil =>
    cases h
    exact ⟨fun _ _ => rfl, fun _ _ => rfl, fun _ _ _ ha => by cases ha⟩
  | cons a arguments ih =>
    cases values with
    | nil => cases hlength
    | cons value values =>
      have hlength := Nat.succ.inj hlength
      simp only [List.flatMap_cons] at hpartitions hslots ⊢
      cases hx : a.extrema with
      | none =>
        have hp : a.partitionSlots = [] := by simp [BoundArgument.partitionSlots, hx]
        have hc : a.cacheSlots = [] := by simp [BoundArgument.cacheSlots, hx]
        simp only [hp, hc, List.nil_append] at hpartitions hslots ⊢
        simp only [extremaRow, hx] at h
        obtain ⟨hentries, hextremes, hown⟩ := ih hpartitions hslots hlength h
        refine ⟨hentries, hextremes, ?_⟩
        intro index a' x' ha' hx'
        cases index with
        | zero =>
          cases ha'
          rw [hx] at hx'
          cases hx'
        | succ index => exact hown index a' x' ha' hx'
      | some x =>
        have hp : a.partitionSlots = [x.partition] := by simp [BoundArgument.partitionSlots, hx]
        simp only [hp, cacheSlots_eq hx, List.singleton_append] at hpartitions hslots ⊢
        obtain ⟨hfresh, hpartitions⟩ := List.nodup_cons.mp hpartitions
        obtain ⟨hnodup, hslots, hdisjoint⟩ := List.nodup_append.mp hslots
        obtain ⟨extremes₁, entries₁, hfiles, h⟩ := extremaRow_cons_eq_ok hx hnodup hdifference h
        obtain ⟨hentries, hextremes, hown⟩ := ih hpartitions hslots hlength h
        refine ⟨?_, ?_, ?_⟩
        · intro partition hpartition
          rw [hentries partition fun hgroup hmem =>
            hpartition hgroup (List.mem_cons_of_mem _ hmem)]
          apply hfiles.others
          rintro rfl
          exact hpartition rfl List.mem_cons_self
        · intro i hi
          obtain ⟨hi, hi'⟩ := not_or.mp (List.mem_append.not.mp hi)
          rw [hextremes i hi', hfiles.slots i hi]
        · intro index a' x' ha' hx'
          cases index with
          | zero =>
            cases ha'
            rw [hx] at hx'
            cases hx'
            have hkept : entries' ⟨x.partition, group⟩ = entries₁ ⟨x.partition, group⟩ :=
              hentries _ fun _ => hfresh
            refine ⟨value, rfl, ?_, ?_⟩
            · rw [hkept]
              exact hfiles.weights
            · intro hcaches direction i hi
              have hi' : i ∉ arguments.flatMap (·.cacheSlots) := fun hmem =>
                hdisjoint i (BoundExtrema.mem_slots hi) i hmem rfl
              rw [hextremes i hi', hkept]
              exact hfiles.caches hcaches direction i hi
          | succ index =>
            have hmem : a' ∈ arguments := List.mem_of_getElem? ha'
            obtain ⟨value', hvalue', hweights, hcaches⟩ := hown index a' x' ha' hx'
            have hne : (⟨x'.partition, group⟩ : EntryPartition) ≠ ⟨x.partition, group⟩ := by
              intro heq
              have hlayout : x'.partition = x.partition := congrArg EntryPartition.layout heq
              rw [← hlayout] at hfresh
              exact hfresh (mem_partitionSlots hmem hx')
            rw [hfiles.others _ hne] at hweights hcaches
            refine ⟨value', hvalue', hweights, fun hcached => hcaches ?_⟩
            intro direction i hi
            have hi' : i ∉ x.slots := fun hmem' =>
              hdisjoint i hmem' i (mem_cacheSlots hmem hx' (BoundExtrema.mem_slots hi)) rfl
            rw [hfiles.slots i hi']
            exact hcached direction i hi

/-! ## One group -/

/-- The partitions of a group count the keys of its rows, and its cached extremes are their
first keys. -/
structure Ranked (op : AggregateOperation Ty Value) (rows : List (EventRow Value))
    (entries : Entries) (group : UInt64) (extremes : List (Option Bytes)) : Prop where
  weights : ∀ (index : Nat) a x, op.arguments[index]? = some a → a.extrema = some x → ∀ key,
    (multiplicity (entries ⟨x.partition, group⟩) key : Int) = total (op.filed a key) index rows
  cached : ∀ a ∈ op.arguments, ∀ x, a.extrema = some x →
    Caches x extremes (entries ⟨x.partition, group⟩)

/-- Only the partitions of the group matter. -/
theorem Ranked.congr {rows : List (EventRow Value)} {entries entries' : Entries} {group : UInt64}
    {extremes : List (Option Bytes)} (h : Ranked op rows entries group extremes)
    (heq : ∀ partition, partition.group = group → entries' partition = entries partition) :
    Ranked op rows entries' group extremes where
  weights := by
    intro index a x ha hx key
    rw [heq _ rfl]
    exact h.weights index a x ha hx key
  cached := by
    intro a ha x hx
    rw [heq _ rfl]
    exact h.cached a ha x hx

/-- One row is filed in its group, and no other group changes. -/
theorem Ranked.take {rows : List (EventRow Value)} {row : EventRow Value}
    {state state' : GroupState} {entries entries' : Entries}
    (h : Ranked op rows entries state.id state.extremes)
    (hlength : row.arguments.length = op.arguments.length) (hdifference : row.difference ≠ 0)
    (hstate : op.rowState row state entries = .ok (state', entries')) :
    Ranked op (rows ++ [row]) entries' state.id state'.extremes ∧
      ∀ partition, partition.group ≠ state.id → entries' partition = entries partition := by
  obtain ⟨_, extremes, _, rfl, -, hextrema, hnone, -⟩ := rowState_eq_ok hstate
  dsimp only
  by_cases hpos : op.layout.counts.layouts > 0
  · have hpartitions : (op.arguments.flatMap (·.partitionSlots)).Nodup :=
      op.wellFormed.addressed.layouts.nodup_iff.mpr List.nodup_range
    have hslots : (op.arguments.flatMap (·.cacheSlots)).Nodup :=
      op.wellFormed.addressed.extrema.nodup_iff.mpr List.nodup_range
    obtain ⟨hentries, -, hown⟩ :=
      extremaRow_eq_ok hdifference hpartitions hslots hlength (hextrema hpos)
    refine ⟨⟨?_, ?_⟩, fun partition hne => hentries partition fun heq => absurd heq hne⟩
    · intro index a x ha hx key
      obtain ⟨value, hvalue, hweights, -⟩ := hown index a x ha hx
      rw [hweights, h.weights index a x ha hx, total_concat _ _ _ hvalue]
    · intro a ha x hx
      obtain ⟨index, hindex⟩ := List.mem_iff_getElem?.mp ha
      obtain ⟨_, -, -, hcaches⟩ := hown index a x hindex hx
      exact hcaches (h.cached a ha x hx)
  · obtain ⟨hextremes, rfl⟩ := hnone hpos
    have habsent : ∀ a ∈ op.arguments, ∀ x, a.extrema = some x → False := fun a ha x hx =>
      hpos (Nat.zero_lt_of_lt (op.partition_lt a ha x hx))
    refine ⟨⟨?_, ?_⟩, fun _ _ => rfl⟩
    · exact fun index a x ha hx => (habsent a (List.mem_of_getElem? ha) x hx).elim
    · exact fun a ha x hx => (habsent a ha x hx).elim

/-- A group without cached extremes has no keys left. -/
theorem Ranked.emptied {rows : List (EventRow Value)} {entries : Entries} {group : UInt64}
    {extremes : List (Option Bytes)} (h : Ranked op rows entries group extremes)
    (hnone : ∀ cached ∈ extremes, cached = none) {index : Nat} {a : BoundArgument Ty Value}
    {x : BoundExtrema} (ha : op.arguments[index]? = some a) (hx : a.extrema = some x)
    (key : Bytes) : total (op.filed a key) index rows = 0 := by
  have hmem : a ∈ op.arguments := List.mem_of_getElem? ha
  rw [← h.weights index a x ha hx]
  have hslots := ((op.wellFormed.addressed.sound a hmem).extrema x hx).2
  rw [cacheSlots_eq hx] at hslots
  obtain ⟨i, hi⟩ := List.exists_mem_of_ne_nil _ hslots
  obtain ⟨direction, hi⟩ := BoundExtrema.exists_slot hi
  have hcached := h.cached a hmem x hx direction i hi
  have hempty := hnone _ (List.mem_of_getElem? hcached)
  have hfirst := first_extremeKey (entries ⟨x.partition, group⟩) direction
  rw [hempty] at hfirst
  rw [hfirst key]
  rfl

/-! ## All groups -/

/-- Stored groups are ranked under ids of their own; absent groups and later ids hold nothing. -/
structure Arranged (op : AggregateOperation Ty Value) (done : List (EventRow Value))
    (s : AggregateState) : Prop where
  ranked : ∀ key state, s.groups.get? key = some state →
    Ranked op (op.rowsOf key done) s.entries state.id state.extremes
  absent : ∀ key, s.groups.get? key = none → ∀ (index : Nat) a x, op.arguments[index]? = some a →
    a.extrema = some x → ∀ filed, total (op.filed a filed) index (op.rowsOf key done) = 0
  unique : ∀ key key' state state', s.groups.get? key = some state →
    s.groups.get? key' = some state' → state.id = state'.id → key = key'
  below : ∀ key state, s.groups.get? key = some state → state.id.toNat < (s.control.getD 0).toNat
  fresh : ∀ partition, (s.control.getD 0).toNat ≤ partition.group.toNat →
    s.entries partition = .empty

theorem arranged_nil : Arranged op [] .initial where
  ranked := fun _ _ h => by cases h
  absent := fun _ _ _ _ _ _ _ _ => rfl
  unique := fun _ _ _ _ h => by cases h
  below := fun _ _ h => by cases h
  fresh := fun _ _ => rfl

/-- The state a row starts from is ranked, under an id no other group has. -/
theorem started_arranged {done : List (EventRow Value)} {s : AggregateState} {key : Bytes}
    {difference : Int} {state : GroupState} {control : Option UInt64} (h : Arranged op done s)
    (hstarted : op.started s key difference = .ok (state, control)) :
    Ranked op (op.rowsOf key done) s.entries state.id state.extremes ∧
      (s.control.getD 0).toNat ≤ (control.getD 0).toNat ∧
      state.id.toNat < (control.getD 0).toNat ∧
      ∀ key' stored, s.groups.get? key' = some stored → stored.id = state.id → key' = key := by
  unfold started at hstarted
  cases hget : s.groups.get? key with
  | some stored =>
    simp only [hget] at hstarted
    cases hstarted
    exact ⟨h.ranked key _ hget, le_rfl, h.below key _ hget, fun key' stored' hstored hid =>
      h.unique key' key stored' _ hstored hget hid⟩
  | none =>
    simp only [hget] at hstarted
    split at hstarted
    · cases hstarted
    obtain ⟨⟨state', next⟩, hnew, hstarted⟩ := except_bind_eq_ok.mp hstarted
    cases hstarted
    unfold newGroupState at hnew
    dsimp only at hnew
    split at hnew
    · next hroom =>
      cases hnew
      have hnext : (s.control.getD 0 + 1).toNat = (s.control.getD 0).toNat + 1 := by
        rw [UInt64.toNat_add]
        exact Nat.mod_eq_of_lt hroom
      -- nothing was ever filed under the next id
      have hempty : ∀ (layout : Nat), s.entries ⟨layout, s.control.getD 0⟩ = .empty :=
        fun layout => h.fresh _ le_rfl
      refine ⟨⟨?_, ?_⟩, ?_, ?_, ?_⟩
      · intro index a x ha hx filed
        rw [h.absent key hget index a x ha hx filed, hempty]
        rfl
      · intro a ha x hx direction i hi
        have hlt := List.mem_range.mp (op.wellFormed.addressed.extrema.mem_iff.mp
          (mem_cacheSlots ha hx (BoundExtrema.mem_slots hi)))
        dsimp only
        rw [hempty, List.getElem?_replicate, if_pos hlt,
          extremeKey_eq (o := none) fun k => rfl]
      · show _ ≤ (s.control.getD 0 + 1).toNat
        omega
      · show _ < (s.control.getD 0 + 1).toNat
        dsimp only
        omega
      · intro key' stored hstored hid
        have hbelow := h.below key' stored hstored
        rw [hid] at hbelow
        exact absurd hbelow (Nat.lt_irrefl _)
    · cases hnew

/-- One row of the machine keeps the groups arranged. -/
theorem rowStep_arranged {done : List (EventRow Value)} {row : EventRow Value}
    {s s' : AggregateState} {more : List (Row Value × Int)} (h : Arranged op done s)
    (hlength : row.arguments.length = op.arguments.length) (hdifference : row.difference ≠ 0)
    (hstep : op.rowStep s row = .ok (more, s')) : Arranged op (done ++ [row]) s' := by
  unfold rowStep at hstep
  obtain ⟨⟨state, control⟩, hstarted, hstep⟩ := except_bind_eq_ok.mp hstep
  dsimp only at hstep
  split at hstep
  · cases hstep
  obtain ⟨old, -, hstep⟩ := except_bind_eq_ok.mp hstep
  obtain ⟨⟨state', entries'⟩, hstate, hstep⟩ := except_bind_eq_ok.mp hstep
  obtain ⟨⟨kept, output⟩, hemitted, hstep⟩ := except_bind_eq_ok.mp hstep
  cases hstep
  obtain ⟨hranked, hcontrol, hbelow, hunique⟩ := started_arranged h hstarted
  obtain ⟨htaken, hothers⟩ := hranked.take hlength hdifference hstate
  have hid : state'.id = state.id := by
    obtain ⟨_, _, _, rfl, -⟩ := rowState_eq_ok hstate
    rfl
  rw [← hid] at htaken hbelow hothers
  -- what is stored afterwards is the group of the row, or was stored before under another id
  have hstored : ∀ key stored, (writeGroup s.groups (op.groupKey row) kept).get? key = some stored →
      (key = op.groupKey row ∧ stored = state') ∨
        (key ≠ op.groupKey row ∧ s.groups.get? key = some stored ∧ stored.id ≠ state'.id) := by
    intro key stored hget
    rw [get?_writeGroup] at hget
    by_cases hkey : key = op.groupKey row
    · rw [if_pos hkey] at hget
      rcases emitted_eq_ok hemitted with ⟨-, -, rfl, -⟩ | ⟨-, rfl, -⟩
      · cases hget
      · exact .inl ⟨hkey, (Option.some.inj hget).symm⟩
    · rw [if_neg hkey] at hget
      refine .inr ⟨hkey, hget, fun heq => hkey (hunique key stored hget ?_)⟩
      rw [heq, hid]
  refine ⟨?_, ?_, ?_, ?_, ?_⟩
  · intro key stored hget
    rw [rowsOf_concat]
    rcases hstored key stored hget with ⟨rfl, rfl⟩ | ⟨hkey, hbefore, hne⟩
    · rw [if_pos rfl]
      exact htaken
    · rw [if_neg (Ne.symm hkey)]
      refine (h.ranked key stored hbefore).congr ?_
      intro partition hpartition
      apply hothers
      rw [hpartition]
      exact hne
  · intro key hget index a x ha hx filed
    rw [rowsOf_concat]
    dsimp only at hget
    rw [get?_writeGroup] at hget
    by_cases hkey : key = op.groupKey row
    · subst hkey
      rw [if_pos rfl] at hget ⊢
      rcases emitted_eq_ok hemitted with ⟨-, hleft, -⟩ | ⟨-, rfl, -⟩
      · refine htaken.emptied ?_ ha hx filed
        intro cached hcached
        have hnone := List.any_eq_false.mp (Bool.or_eq_false_iff.mp hleft).2 cached hcached
        simpa using hnone
      · cases hget
    · rw [if_neg hkey] at hget
      rw [if_neg (Ne.symm hkey)]
      exact h.absent key hget index a x ha hx filed
  · intro key key' stored stored' hget hget' heq
    rcases hstored key stored hget with ⟨rfl, rfl⟩ | ⟨-, hbefore, hne⟩
    · rcases hstored key' stored' hget' with ⟨rfl, rfl⟩ | ⟨-, -, hne'⟩
      · rfl
      · exact absurd heq.symm hne'
    · rcases hstored key' stored' hget' with ⟨rfl, rfl⟩ | ⟨-, hbefore', -⟩
      · exact absurd heq hne
      · exact h.unique key key' stored stored' hbefore hbefore' heq
  · intro key stored hget
    rcases hstored key stored hget with ⟨rfl, rfl⟩ | ⟨-, hbefore, -⟩
    · exact hbelow
    · exact Nat.lt_of_lt_of_le (h.below key stored hbefore) hcontrol
  · intro partition hpartition
    dsimp only at hpartition ⊢
    rw [hothers]
    · exact h.fresh partition (Nat.le_trans hcontrol hpartition)
    · intro heq
      rw [heq] at hpartition
      exact absurd hbelow (Nat.not_lt.mpr hpartition)

/-- Every run of the machine keeps the groups arranged. -/
theorem run_arranged {done rows : List (EventRow Value)} {s s' : AggregateState}
    {more : List (Row Value × Int)} (h : Arranged op done s)
    (hrows : ∀ row ∈ rows, row.arguments.length = op.arguments.length ∧ row.difference ≠ 0)
    (hrun : op.rowMachine.run s rows = .ok (more, s')) : Arranged op (done ++ rows) s' := by
  -- the outputs play no part in it
  exact @Machine.run_keeps _ _ _ _ op.rowMachine _ (fun done s _ => Arranged op done s)
    (fun h hrow hstep => rowStep_arranged h hrow.1 hrow.2 hstep) done rows s s' [] more h hrows hrun

/-! ## Every run of the operator -/

/-- Evaluated rows carry the differences of their events. -/
theorem nonzero_of_rows {events : List (Row Value × Int)} {rows : List (EventRow Value)}
    (hrows : List.Forall₂ (fun event row => op.eventRow event = .ok row) events rows)
    (h : ∀ event ∈ events, event.2 ≠ 0) : ∀ row ∈ rows, row.difference ≠ 0 := by
  induction hrows with
  | nil => exact fun _ hrow => by cases hrow
  | cons hrow _ ih =>
    obtain ⟨hfirst, hrest⟩ := List.forall_mem_cons.mp h
    refine List.forall_mem_cons.mpr ⟨?_, ih hrest⟩
    rw [(eventRow_eq_ok hrow).2.2]
    exact hfirst

end AggregateOperation

open AggregateOperation

/-- Over any inputs the ordered partitions of a stored group, which no other stored group shares,
count the keys of the rows of the group, and every cached extreme is the first key of its partition
in its direction: a minimum or a maximum over the rows, or none where there is no key. -/
theorem aggregate_extremes (op : AggregateOperation Ty Value)
    (inputs : List (Nat × Change (Row Value))) (outputs : List (Option (Change (Row Value))))
    (s : AggregateState)
    (h : HandlesAll (.atomic op.atomic : Operation AggregateState Unit (Row Value)) .initial inputs
      outputs s) (hports : ∀ i ∈ inputs, i.1 < 1) :
    ∃ rows, List.Forall₂ (fun event row => op.eventRow event = .ok row)
        (inputsEvents (inputs.map (·.2))) rows ∧
      ∀ key state, s.groups.get? key = some state →
        (∀ key' state', s.groups.get? key' = some state' → state'.id = state.id → key' = key) ∧
        ∀ (index : Nat) a x, op.arguments[index]? = some a → a.extrema = some x →
          (∀ filed, (multiplicity (s.entries ⟨x.partition, state.id⟩) filed : Int) =
            total (op.filed a filed) index (op.rowsOf key rows)) ∧
          ∀ direction i, x.slot direction = some i → ∃ cached, state.extremes[i]? = some cached ∧
            First (s.entries ⟨x.partition, state.id⟩) direction cached := by
  have happlies := Application.appliesAll_of_handlesAll h fun i hi =>
    Nat.lt_one_iff.mp (hports i hi)
  obtain ⟨rows, hrows, hreadable⟩ := exists_rows (grouped_of_appliesAll happlies)
  have hrun := op.followsEvents.run happlies
  unfold eventMachine at hrun
  rw [Machine.run_comapExcept _ _ hrows] at hrun
  have hevents : ∀ event ∈ inputsEvents (inputs.map (·.2)), event.2 ≠ 0 := by
    intro event he
    obtain ⟨change, -, he⟩ := List.mem_flatMap.mp he
    exact change.nonzero event he
  have harranged : Arranged op rows s :=
    run_arranged arranged_nil (fun row hrow =>
      ⟨(hreadable row hrow).arguments, nonzero_of_rows hrows hevents row hrow⟩) hrun
  refine ⟨rows, hrows, ?_⟩
  intro key state hget
  refine ⟨fun key' state' hget' hid => harranged.unique _ _ _ _ hget' hget hid, ?_⟩
  intro index a x ha hx
  have hranked := harranged.ranked key state hget
  refine ⟨hranked.weights index a x ha hx, ?_⟩
  intro direction i hi
  exact ⟨_, hranked.cached a (List.mem_of_getElem? ha) x hx direction i hi, first_extremeKey _ _⟩

/-- The largest value of the group has left: the one before it is cached again. -/
theorem byteAggregate_extremes : ∃ outputs s state,
    HandlesAll (.atomic byteAggregate.atomic : Operation AggregateState Unit _) .initial byteGroups
      outputs s ∧
    s.groups.get? [1, 7] = some state ∧
    state.extremes = [some [0, 0, 0, 0, 0, 0, 0, 5]] ∧
    First (s.entries ⟨0, state.id⟩) .descending (some [0, 0, 0, 0, 0, 0, 0, 5]) := by
  have h : (runInputs (.atomic byteAggregate.atomic : Operation AggregateState Unit _)
      ⟨8, 4096⟩ 1 .initial byteGroups).bind (fun r =>
        (r.2.groups.get? [1, 7]).map fun state => state.extremes) =
        some [some [0, 0, 0, 0, 0, 0, 0, 5]] := by
    decide +kernel
  obtain ⟨⟨outputs, s⟩, hrun, hgroup⟩ := Option.bind_eq_some_iff.mp h
  obtain ⟨state, hget, hextremes⟩ := Option.map_eq_some_iff.mp hgroup
  have hhandles := handlesAll_of_runInputs hrun
  obtain ⟨rows, -, hgroups⟩ := aggregate_extremes byteAggregate _ _ _ hhandles (by decide)
  obtain ⟨cached, hcached, hfirst⟩ :=
    ((hgroups _ state hget).2 0 _ _ rfl rfl).2 .descending 0 rfl
  rw [hextremes] at hcached
  cases hcached
  exact ⟨outputs, s, state, hhandles, hget, hextremes, hfirst⟩

end Dogpaddle.Aggregate
