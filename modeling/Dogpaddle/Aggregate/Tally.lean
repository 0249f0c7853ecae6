import Dogpaddle.Aggregate.Machine

/-!
# The groups and their rows

`Tallied` says that the weight and the statistics of a group are those of its rows. A new
group starts `tallied_nil`, a row that is taken in adds its share (`Tallied.take`), and a
group that leaves with nothing left over is as if it had never been (`Tallied.emptied`).
-/

namespace Dogpaddle.Aggregate

open Lib Store Dogpaddle.Relation

variable {Ty Value : Type}

namespace AggregateOperation

variable (op : AggregateOperation Ty Value)

/-! ## Tallies -/

/-- The rows of a group. -/
def rowsOf (key : Bytes) (rows : List (EventRow Value)) : List (EventRow Value) :=
  rows.filter fun row => op.groupKey row = key

/-- How much a value of an argument counts. -/
def counted (a : BoundArgument Ty Value) (value : Value) : Int :=
  match op.view.scalar a.expression.field.dataType value with
  | .ok scalar => scalar.counted
  | .error _ => 0

/-- How much a value of an argument adds to its sum. -/
def summed (a : BoundArgument Ty Value) (value : Value) : Int :=
  match op.view.scalar a.expression.field.dataType value with
  | .ok scalar => scalar.summed
  | .error _ => 0

/-- The statistics of a group without rows. -/
def emptyStatistics : List Statistic :=
  op.arguments.foldl (fun statistics a => match a.statistic with
    | none => statistics
    | some b => statistics.set b.index b.kind.empty)
    (List.replicate op.layout.counts.statistics (Statistic.count 0))

/-- The weight and the statistics stored for a key. -/
def held (s : AggregateState) (key : Bytes) : UInt64 × List Statistic :=
  match s.groups.get? key with
  | none => (0, op.emptyStatistics)
  | some state => (state.weight, state.statistics)

/-- A measure of one argument, summed over rows with their differences. -/
def total (f : Value → Int) (index : Nat) (rows : List (EventRow Value)) : Int :=
  (rows.map fun row => ((row.arguments[index]?).map f).getD 0 * row.difference).sum

/-- A weight and statistics are those of some rows. -/
structure Tallied (rows : List (EventRow Value)) (weight : UInt64) (statistics : List Statistic) :
    Prop where
  weight : (weight.toNat : Int) = (rows.map (·.difference)).sum
  statistics : ∀ (index : Nat) a b, op.arguments[index]? = some a → a.statistic = some b →
    ∃ statistic, statistics[b.index]? = some statistic ∧
      b.kind.Holds statistic (total (op.counted a) index rows) (total (op.summed a) index rows)

variable {op}

theorem total_concat (f : Value → Int) (index : Nat) (rows : List (EventRow Value))
    {row : EventRow Value} {value : Value} (h : row.arguments[index]? = some value) :
    total f index (rows ++ [row]) = total f index rows + f value * row.difference := by
  simp [total, h]

theorem rowsOf_concat (key : Bytes) (rows : List (EventRow Value)) (row : EventRow Value) :
    op.rowsOf key (rows ++ [row]) =
      if op.groupKey row = key then op.rowsOf key rows ++ [row] else op.rowsOf key rows := by
  unfold rowsOf
  rw [List.filter_append]
  by_cases hkey : op.groupKey row = key
  · simp [hkey]
  · simp [hkey]

/-! ### Empty statistics -/

/-- Clearing statistics reaches exactly the addresses of the arguments. -/
theorem cleared_spec {arguments : List (BoundArgument Ty Value)} {statistics : List Statistic}
    (hnodup : (arguments.flatMap (·.statisticSlots)).Nodup)
    (hbelow : ∀ i ∈ arguments.flatMap (·.statisticSlots), i < statistics.length) :
    let cleared := arguments.foldl (fun statistics a => match a.statistic with
      | none => statistics
      | some b => statistics.set b.index b.kind.empty) statistics
    (∀ i, i ∉ arguments.flatMap (·.statisticSlots) → cleared[i]? = statistics[i]?) ∧
      ∀ a ∈ arguments, ∀ b, a.statistic = some b → cleared[b.index]? = some b.kind.empty := by
  induction arguments generalizing statistics with
  | nil => exact ⟨fun _ _ => rfl, fun a ha => by cases ha⟩
  | cons a arguments ih =>
    rw [List.flatMap_cons] at hnodup hbelow
    rw [List.foldl_cons, List.flatMap_cons]
    cases ha : a.statistic with
    | none =>
      have hslots : a.statisticSlots = [] := by simp [BoundArgument.statisticSlots, ha]
      rw [hslots, List.nil_append] at hnodup hbelow ⊢
      obtain ⟨hother, hown⟩ := ih hnodup hbelow
      refine ⟨hother, ?_⟩
      intro a' ha' b hb
      rcases List.mem_cons.mp ha' with rfl | ha'
      · rw [ha] at hb
        cases hb
      · exact hown a' ha' b hb
    | some b =>
      have hslots : a.statisticSlots = [b.index] := by simp [BoundArgument.statisticSlots, ha]
      rw [hslots, List.singleton_append] at hnodup hbelow ⊢
      obtain ⟨hfresh, hnodup⟩ := List.nodup_cons.mp hnodup
      obtain ⟨hfirst, hrest⟩ := List.forall_mem_cons.mp hbelow
      have hrest : ∀ i ∈ arguments.flatMap (·.statisticSlots),
          i < (statistics.set b.index b.kind.empty).length := by
        rw [List.length_set]
        exact hrest
      obtain ⟨hother, hown⟩ := ih hnodup hrest
      refine ⟨?_, ?_⟩
      · intro i hi
        obtain ⟨hne, hi⟩ := not_or.mp (List.mem_cons.not.mp hi)
        exact (hother i hi).trans (List.getElem?_set_ne (Ne.symm hne))
      · intro a' ha' b' hb'
        rcases List.mem_cons.mp ha' with rfl | ha'
        · rw [ha] at hb'
          cases hb'
          exact (hother _ hfresh).trans (List.getElem?_set_self hfirst)
        · exact hown a' ha' b' hb'

theorem nodup_statistics (op : AggregateOperation Ty Value) :
    (op.arguments.flatMap (·.statisticSlots)).Nodup :=
  op.wellFormed.addressed.statistics.nodup_iff.mpr List.nodup_range

theorem statistics_lt (op : AggregateOperation Ty Value) :
    ∀ i ∈ op.arguments.flatMap (·.statisticSlots), i < op.layout.counts.statistics :=
  fun _ hi => List.mem_range.mp (op.wellFormed.addressed.statistics.mem_iff.mp hi)

theorem mem_statisticSlots {arguments : List (BoundArgument Ty Value)} {a : BoundArgument Ty Value}
    {b : BoundStatistic} (ha : a ∈ arguments) (hb : a.statistic = some b) :
    b.index ∈ arguments.flatMap (·.statisticSlots) :=
  List.mem_flatMap.mpr ⟨a, ha, by simp [BoundArgument.statisticSlots, hb]⟩

theorem emptyStatistics_spec (op : AggregateOperation Ty Value) {a : BoundArgument Ty Value}
    {b : BoundStatistic} (ha : a ∈ op.arguments) (hb : a.statistic = some b) :
    op.emptyStatistics[b.index]? = some b.kind.empty := by
  refine (cleared_spec op.nodup_statistics ?_).2 a ha b hb
  rw [List.length_replicate]
  exact op.statistics_lt

theorem tallied_nil : Tallied op [] 0 op.emptyStatistics where
  weight := rfl
  statistics := fun _ _ b ha hb =>
    ⟨b.kind.empty, op.emptyStatistics_spec (List.mem_of_getElem? ha) hb, b.kind.holds_empty⟩

/-- Where nothing is left over, the rows of a group add up to nothing. -/
theorem Tallied.emptied {rows : List (EventRow Value)} {statistics : List Statistic}
    (h : Tallied op rows 0 statistics) (hempty : ∀ st ∈ statistics, st.isEmpty = true) :
    Tallied op rows 0 op.emptyStatistics where
  weight := h.weight
  statistics := by
    intro index a b ha hb
    obtain ⟨statistic, hstatistic, hholds⟩ := h.statistics index a b ha hb
    refine ⟨b.kind.empty, op.emptyStatistics_spec (List.mem_of_getElem? ha) hb, ?_⟩
    rw [← hholds.eq_empty (hempty _ (List.mem_of_getElem? hstatistic))]
    exact hholds

/-! ### One value -/

/-- The first argument takes its value, then the others take theirs. -/
theorem applyStatisticsRow_cons_eq_ok {difference : Int} {a : BoundArgument Ty Value}
    {b : BoundStatistic} {arguments : List (BoundArgument Ty Value)} {value : Value}
    {values : List Value} {statistics statistics' : List Statistic} (ha : a.statistic = some b)
    (h : op.applyStatisticsRow difference (a :: arguments) (value :: values) statistics =
      .ok statistics') :
    ∃ before scalar after, statistics[b.index]? = some before ∧
      op.view.scalar a.expression.field.dataType value = .ok scalar ∧
      before.apply scalar difference = .ok after ∧
      op.applyStatisticsRow difference arguments values (statistics.set b.index after) =
        .ok statistics' := by
  simp only [applyStatisticsRow, ha] at h
  cases hbefore : statistics[b.index]? with
  | none =>
    simp only [hbefore] at h
    cases h
  | some before =>
    simp only [hbefore] at h
    rw [ok_bind] at h
    split at h
    · cases h
    obtain ⟨scalar, hscalar, h⟩ := except_bind_eq_ok.mp h
    obtain ⟨after, hafter, h⟩ := except_bind_eq_ok.mp h
    refine ⟨before, scalar, after, rfl, mapError_eq_ok.mp hscalar, hafter, ?_⟩
    split at h
    on_goal 1 => obtain ⟨_, -, h⟩ := except_bind_eq_ok.mp h
    -- the checks on what the outputs can show come before the others
    all_goals
      split at h
      · cases after with
        | count n => cases h
        | signed n sum =>
          dsimp only at h
          split at h
          · cases h
          · exact h
        | unsigned n sum =>
          dsimp only at h
          split at h
          · cases h
          · exact h
      · exact h

/-- Every argument takes its value once, at its own address. -/
theorem applyStatisticsRow_eq_ok {difference : Int} {arguments : List (BoundArgument Ty Value)}
    {values : List Value} {statistics statistics' : List Statistic}
    (hnodup : (arguments.flatMap (·.statisticSlots)).Nodup)
    (hlength : values.length = arguments.length)
    (h : op.applyStatisticsRow difference arguments values statistics = .ok statistics') :
    (∀ i, i ∉ arguments.flatMap (·.statisticSlots) → statistics'[i]? = statistics[i]?) ∧
      ∀ (index : Nat) a b, arguments[index]? = some a → a.statistic = some b →
        ∃ value before scalar after, values[index]? = some value ∧
          statistics[b.index]? = some before ∧
          op.view.scalar a.expression.field.dataType value = .ok scalar ∧
          before.apply scalar difference = .ok after ∧ statistics'[b.index]? = some after := by
  -- the addresses are distinct, so the arguments after the first leave its statistic alone
  induction arguments generalizing values statistics with
  | nil =>
    cases h
    exact ⟨fun _ _ => rfl, fun _ _ _ ha => by cases ha⟩
  | cons a arguments ih =>
    cases values with
    | nil => cases hlength
    | cons value values =>
      have hlength := Nat.succ.inj hlength
      rw [List.flatMap_cons] at hnodup ⊢
      cases ha : a.statistic with
      | none =>
        have hslots : a.statisticSlots = [] := by simp [BoundArgument.statisticSlots, ha]
        rw [hslots, List.nil_append] at hnodup ⊢
        simp only [applyStatisticsRow, ha] at h
        obtain ⟨hother, hown⟩ := ih hnodup hlength h
        refine ⟨hother, ?_⟩
        intro index a' b ha' hb
        cases index with
        | zero =>
          cases ha'
          rw [ha] at hb
          cases hb
        | succ index => exact hown index a' b ha' hb
      | some b =>
        have hslots : a.statisticSlots = [b.index] := by simp [BoundArgument.statisticSlots, ha]
        rw [hslots, List.singleton_append] at hnodup ⊢
        obtain ⟨hfresh, hnodup⟩ := List.nodup_cons.mp hnodup
        obtain ⟨before, scalar, after, hbefore, hscalar, hafter, h⟩ :=
          applyStatisticsRow_cons_eq_ok ha h
        obtain ⟨hother, hown⟩ := ih hnodup hlength h
        have hset : ∀ {i : Nat}, i ≠ b.index →
            (statistics.set b.index after)[i]? = statistics[i]? :=
          fun hne => List.getElem?_set_ne (Ne.symm hne)
        refine ⟨?_, ?_⟩
        · intro i hi
          obtain ⟨hne, hi⟩ := not_or.mp (List.mem_cons.not.mp hi)
          rw [hother i hi, hset hne]
        · intro index a' b' ha' hb'
          cases index with
          | zero =>
            cases ha'
            rw [ha] at hb'
            cases hb'
            have hlt := (List.getElem?_eq_some_iff.mp hbefore).1
            exact ⟨value, before, scalar, after, rfl, hbefore, hscalar, hafter,
              (hother _ hfresh).trans (List.getElem?_set_self hlt)⟩
          | succ index =>
            obtain ⟨value', before', scalar', after', hvalue', hbefore', hrest⟩ :=
              hown index a' b' ha' hb'
            have hne : b'.index ≠ b.index := by
              intro heq
              rw [← heq] at hfresh
              exact hfresh (mem_statisticSlots (List.mem_of_getElem? ha') hb')
            rw [hset hne] at hbefore'
            exact ⟨value', before', scalar', after', hvalue', hbefore', hrest⟩

/-- A row changes the weight and, where there are any, the statistics and the extremes. -/
theorem rowState_eq_ok {row : EventRow Value} {state state' : GroupState}
    {entries entries' : Entries} (h : op.rowState row state entries = .ok (state', entries')) :
    ∃ weight extremes statistics, state' = { state with weight, extremes, statistics } ∧
      applyWeight state.weight row.difference .group = .ok weight ∧
      (op.layout.counts.layouts > 0 →
        op.extremaRow state.id row.difference op.arguments row.arguments state.extremes entries =
          .ok (extremes, entries')) ∧
      (¬ op.layout.counts.layouts > 0 → extremes = state.extremes ∧ entries' = entries) ∧
      (op.layout.counts.statistics > 0 →
        op.applyStatisticsRow row.difference op.arguments row.arguments state.statistics =
          .ok statistics) := by
  unfold rowState at h
  obtain ⟨weight, hweight, h⟩ := except_bind_eq_ok.mp h
  -- the statistics come last, whether or not there are extremes
  have hfinish : ∀ (extremes : List (Option Bytes)) (entries₁ : Entries),
      (if op.layout.counts.statistics > 0 then do
          let statistics ←
            op.applyStatisticsRow row.difference op.arguments row.arguments state.statistics
          pure ({ state with weight, extremes, statistics }, entries₁)
        else pure ({ state with weight, extremes }, entries₁)) =
          (Except.ok (state', entries') : Except AggregateError _) →
      ∃ statistics, state' = { state with weight, extremes, statistics } ∧ entries' = entries₁ ∧
        (op.layout.counts.statistics > 0 →
          op.applyStatisticsRow row.difference op.arguments row.arguments state.statistics =
            .ok statistics) := by
    intro extremes entries₁ h
    split at h
    · obtain ⟨statistics, hstatistics, h⟩ := except_bind_eq_ok.mp h
      cases h
      exact ⟨statistics, rfl, rfl, fun _ => hstatistics⟩
    · next hnone =>
      cases h
      exact ⟨state.statistics, rfl, rfl, fun hpos => absurd hpos hnone⟩
  dsimp only at h
  split at h
  · next hpos =>
    obtain ⟨⟨extremes, entries₁⟩, hextrema, h⟩ := except_bind_eq_ok.mp h
    obtain ⟨statistics, hstate, rfl, hstatistics⟩ := hfinish extremes entries₁ h
    exact ⟨weight, extremes, statistics, hstate, hweight, fun _ => hextrema,
      fun hnone => absurd hpos hnone, hstatistics⟩
  · next hnone =>
    obtain ⟨statistics, hstate, rfl, hstatistics⟩ := hfinish state.extremes entries h
    exact ⟨weight, state.extremes, statistics, hstate, hweight, fun hpos => absurd hpos hnone,
      fun _ => ⟨rfl, rfl⟩, hstatistics⟩

/-- One row adds its share to a group. -/
theorem Tallied.take {rows : List (EventRow Value)} {row : EventRow Value}
    {state state' : GroupState} {entries entries' : Entries}
    (h : Tallied op rows state.weight state.statistics)
    (hlength : row.arguments.length = op.arguments.length)
    (hstate : op.rowState row state entries = .ok (state', entries')) :
    Tallied op (rows ++ [row]) state'.weight state'.statistics := by
  obtain ⟨weight, _, statistics, rfl, hweight, -, -, hstatistics⟩ := rowState_eq_ok hstate
  dsimp only
  refine ⟨?_, ?_⟩
  · rw [applyWeight_eq_ok hweight, h.weight]
    simp
  · intro index a b ha hb
    have hpos : op.layout.counts.statistics > 0 :=
      Nat.zero_lt_of_lt (op.statistics_lt _ (mem_statisticSlots (List.mem_of_getElem? ha) hb))
    obtain ⟨value, before, scalar, after, hvalue, hbefore, hscalar, hafter, hstored⟩ :=
      (applyStatisticsRow_eq_ok op.nodup_statistics hlength (hstatistics hpos)).2 index a b ha hb
    obtain ⟨statistic, hstatistic, hholds⟩ := h.statistics index a b ha hb
    rw [hbefore] at hstatistic
    cases hstatistic
    refine ⟨after, hstored, ?_⟩
    rw [total_concat _ _ _ hvalue, total_concat _ _ _ hvalue]
    have hcounted : op.counted a value = scalar.counted := by simp only [counted, hscalar]
    have hsummed : op.summed a value = scalar.summed := by simp only [summed, hscalar]
    rw [hcounted, hsummed]
    exact Statistic.apply_holds hholds hafter

/-! ### One group -/

theorem newGroupState_eq_ok {control next : Option UInt64} {state : GroupState} {id : UInt64}
    (h : op.newGroupState control next = .ok (state, id)) :
    state.weight = 0 ∧ state.statistics = op.emptyStatistics := by
  unfold newGroupState at h
  cases next with
  | none =>
    dsimp only at h
    split at h
    · cases h
      exact ⟨rfl, rfl⟩
    · cases h
  | some _ =>
    dsimp only at h
    split at h
    · cases h
      exact ⟨rfl, rfl⟩
    · cases h

theorem started_eq_ok {s : AggregateState} {key : Bytes} {difference : Int} {state : GroupState}
    {control : Option UInt64} (h : op.started s key difference = .ok (state, control)) :
    op.held s key = (state.weight, state.statistics) ∧
      ∀ stored, s.groups.get? key = some stored → stored = state := by
  unfold started at h
  unfold held
  cases hget : s.groups.get? key with
  | some stored =>
    simp only [hget] at h ⊢
    cases h
    refine ⟨rfl, ?_⟩
    intro stored' hstored
    exact (Option.some.inj hstored).symm
  | none =>
    simp only [hget] at h ⊢
    split at h
    · cases h
    · obtain ⟨⟨state', id⟩, hnew, h⟩ := except_bind_eq_ok.mp h
      cases h
      obtain ⟨hweight, hstatistics⟩ := newGroupState_eq_ok hnew
      rw [hweight, hstatistics]
      exact ⟨rfl, fun _ hstored => by cases hstored⟩

/-- A group stays exactly while it has rows, and it leaves with nothing left over. -/
theorem emitted_eq_ok {row : EventRow Value} {old : Option (List CallValue)} {state : GroupState}
    {kept : Option GroupState} {output : List (Row Value × Int)}
    (h : op.emitted row old state = .ok (kept, output)) :
    (state.weight = 0 ∧ leftover state = false ∧ kept = none ∧
      ∃ calls, old = some calls ∧ output = [(op.outputRow row calls, -1)]) ∨
    (state.weight ≠ 0 ∧ kept = some state ∧ ∃ calls, op.groupOutput state = .ok calls ∧
      (old = none ∧ output = [(op.outputRow row calls, 1)] ∨ old = some calls ∧ output = [] ∨
        ∃ before, old = some before ∧
          output = [(op.outputRow row before, -1), (op.outputRow row calls, 1)])) := by
  unfold emitted at h
  split at h
  · next hzero =>
    cases old with
    | none => cases h
    | some old =>
      simp only [pure_bind] at h
      split at h
      · cases h
      · next hleft =>
        cases h
        exact .inl ⟨hzero, Bool.eq_false_iff.mpr hleft, rfl, old, rfl, rfl⟩
  · next hpositive =>
    obtain ⟨new, hnew, h⟩ := except_bind_eq_ok.mp h
    cases old with
    | none =>
      cases h
      exact .inr ⟨hpositive, rfl, new, hnew, .inl ⟨rfl, rfl⟩⟩
    | some old =>
      dsimp only at h
      split at h
      · cases h
        exact .inr ⟨hpositive, rfl, new, hnew, .inr (.inr ⟨old, rfl, rfl⟩)⟩
      · next hsame =>
        cases h
        refine .inr ⟨hpositive, rfl, new, hnew, .inr (.inl ⟨?_, rfl⟩)⟩
        rw [not_not.mp hsame]

end AggregateOperation

end Dogpaddle.Aggregate
