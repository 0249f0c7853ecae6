import Dogpaddle.Aggregate.Extrema

/-!
# Pending groups of the aggregate

Adjacent events of one group share a pending state. `GroupRun` says that the groups are
the stored ones with the pending run written back, whether or not the run ends where it
began. The parts of one event mirror the parts of `rowStep`.
-/

namespace Dogpaddle.Aggregate

open Lib Store Dogpaddle.Relation

variable {Ty Value : Type}

/-! ## Pending groups -/

theorem get?_writeGroup (groups : OrdMap Bytes GroupState) (key key' : Bytes)
    (state : Option GroupState) :
    (writeGroup groups key state).get? key' = if key' = key then state else groups.get? key' := by
  cases state with
  | none =>
    show (groups.erase key).get? key' = _
    rw [OrdMap.get?_erase]
    by_cases hk : key' = key
    · rw [if_pos hk, if_pos hk]
    · rw [if_neg hk, if_neg hk]
  | some state =>
    show (groups.put key state).get? key' = _
    rw [OrdMap.get?_put]
    by_cases hk : key' = key
    · rw [if_pos hk, if_pos hk]
    · rw [if_neg hk, if_neg hk]

/-- The last write of a group wins. -/
theorem writeGroup_again (groups : OrdMap Bytes GroupState) (key : Bytes)
    (state state' : Option GroupState) :
    writeGroup (writeGroup groups key state) key state' = writeGroup groups key state' := by
  apply OrdMap.ext_get?
  intro k
  simp only [get?_writeGroup]
  split <;> rfl

theorem writeGroup_self {groups : OrdMap Bytes GroupState} {key : Bytes}
    {state : Option GroupState} (h : groups.get? key = state) :
    writeGroup groups key state = groups := by
  apply OrdMap.ext_get?
  intro k
  rw [get?_writeGroup]
  split
  · next hk => rw [hk, h]
  · rfl

/-- The groups with the pending run written back. -/
def writtenGroups (groups : OrdMap Bytes GroupState) :
    Option PendingGroup → OrdMap Bytes GroupState
  | none => groups
  | some pending => writeGroup groups pending.key pending.state

/-- A pending run knows the stored state it was loaded from. -/
structure GroupRun (stored : OrdMap Bytes GroupState) (pending : Option PendingGroup)
    (groups : OrdMap Bytes GroupState) : Prop where
  groups : groups = writtenGroups stored pending
  present : ∀ p, pending = some p → p.wasPresent = (stored.get? p.key).isSome
  baseline : ∀ p state, pending = some p → p.comparisonBaseline = some state →
    stored.get? p.key = some state

namespace GroupRun

variable {stored groups : OrdMap Bytes GroupState} {p : PendingGroup}

theorem none (groups : OrdMap Bytes GroupState) : GroupRun groups Option.none groups where
  groups := rfl
  present := fun _ h => by cases h
  baseline := fun _ _ h => by cases h

theorem get? (h : GroupRun stored (some p) groups) : groups.get? p.key = p.state := by
  rw [h.groups]
  show (writeGroup stored p.key p.state).get? p.key = p.state
  rw [get?_writeGroup, if_pos rfl]

/-- The run goes on with another state. -/
theorem update (h : GroupRun stored (some p) groups) (state : Option GroupState) :
    GroupRun stored (some { p with state }) (writeGroup groups p.key state) where
  groups := by
    rw [h.groups]
    exact writeGroup_again stored p.key p.state state
  present := by
    intro q hq
    cases hq
    exact h.present p rfl
  baseline := by
    intro q base hq hbase
    cases hq
    exact h.baseline p base rfl hbase

end GroupRun

theorem flushPendingGroup_eq_ok {p : PendingGroup} {groups : OrdMap Bytes GroupState}
    {t t' : Scope AggregateState} {u : Unit} (hrun : GroupRun t.state.groups (some p) groups)
    (h : flushPendingGroup p t = .ok u t') : t'.state = { t.state with groups } := by
  have hgroups : groups = writeGroup t.state.groups p.key p.state := hrun.groups
  unfold flushPendingGroup at h
  split at h
  · next hsame =>
    obtain ⟨hsome, hsame⟩ := hsame
    obtain ⟨base, hbase⟩ := Option.isSome_iff_exists.mp hsome
    obtain ⟨-, rfl⟩ := pure_eq_ok.mp h
    have hstored := hrun.baseline p base rfl hbase
    rw [hgroups, writeGroup_self (by rw [hstored, hsame, hbase])]
  · cases hstate : p.state with
    | some state =>
      simp only [hstate] at h
      obtain ⟨_, t₁, hcharge, h⟩ := bind_eq_ok.mp h
      rw [← modify_eq_ok.mp h, charge_state hcharge, hgroups, hstate]
      rfl
    | none =>
      simp only [hstate] at h
      split at h
      · obtain ⟨_, t₁, hcharge, h⟩ := bind_eq_ok.mp h
        rw [← modify_eq_ok.mp h, charge_state hcharge, hgroups, hstate]
        rfl
      · next habsent =>
        obtain ⟨-, rfl⟩ := pure_eq_ok.mp h
        rw [hrun.present p rfl, Bool.not_eq_true, Option.isSome_eq_false_iff,
          Option.isNone_iff_eq_none] at habsent
        rw [hgroups, writeGroup_self (by rw [habsent, hstate])]

theorem flushPendingGroup_soft (p : PendingGroup) (t : Scope AggregateState) :
    Raises (fun e => ¬ Hard e) (flushPendingGroup p) t := by
  unfold flushPendingGroup
  refine .ite (fun _ => .pure _) fun _ => ?_
  cases p.state with
  | some state => exact .bind (soft_charge _ _) fun _ _ _ => .modify _
  | none =>
    exact .ite (fun _ => .bind (soft_charge _ _) fun _ _ _ => .modify _) fun _ => .pure _

theorem load_eq_ok {key : Bytes} {continues : Bool} {p : PendingGroup} {t t' : Scope AggregateState}
    (h : PendingGroup.load key continues t = .ok p t') :
    t'.state = t.state ∧ p.key = key ∧ GroupRun t.state.groups (some p) t.state.groups := by
  obtain ⟨s, t₁, hget, h⟩ := bind_eq_ok.mp h
  obtain ⟨rfl, rfl⟩ := get_eq_ok.mp hget
  have hloaded : ∀ {u u' : Scope AggregateState}, u.state = t.state →
      (pure { key, wasPresent := (t.state.groups.get? key).isSome
              comparisonBaseline := if continues then t.state.groups.get? key else none
              state := t.state.groups.get? key } : AggregateAttempt PendingGroup) u = .ok p u' →
      u'.state = t.state ∧ p.key = key ∧ GroupRun t.state.groups (some p) t.state.groups := by
    intro u u' hu hp
    obtain ⟨rfl, rfl⟩ := pure_eq_ok.mp hp
    refine ⟨hu, rfl, ?_, ?_, ?_⟩
    · exact (writeGroup_self rfl).symm
    · intro q hq
      cases hq
      rfl
    · intro q base hq hbase
      cases hq
      dsimp only at hbase
      split at hbase
      · exact hbase
      · cases hbase
  cases hstate : t.state.groups.get? key with
  | none =>
    rw [hstate] at hloaded
    simp only [hstate] at h
    exact hloaded rfl h
  | some state =>
    rw [hstate] at hloaded
    simp only [hstate] at h
    split at h
    · exact (throw_eq_ok.mp h).elim
    · obtain ⟨_, t₁, hcharge, h⟩ := bind_eq_ok.mp h
      have hfirst := charge_state hcharge
      split at h
      · next hcontinues =>
        obtain ⟨_, t₂, hcharge', h⟩ := bind_eq_ok.mp h
        rw [if_pos hcontinues] at hloaded
        exact hloaded ((charge_state hcharge').trans hfirst) h
      · next hcontinues =>
        rw [if_neg hcontinues] at hloaded
        exact hloaded hfirst h

theorem load_soft (key : Bytes) (continues : Bool) (t : Scope AggregateState) :
    Raises (fun e => ¬ Hard e) (PendingGroup.load key continues) t := by
  refine .get ?_
  cases t.state.groups.get? key with
  | none => exact .pure _
  | some state =>
    refine .ite (fun _ => .throw budget_soft) fun _ => .bind (soft_charge _ _) fun _ _ _ => ?_
    exact .ite (fun _ => .bind (soft_charge _ _) fun _ _ _ => .pure _) fun _ => .pure _

namespace AggregateOperation

variable {op : AggregateOperation Ty Value} {layouts : Nat}

/-- The partitions of the arguments are those of the layout. -/
theorem partition_lt (op : AggregateOperation Ty Value) :
    ∀ a ∈ op.arguments, ∀ x, a.extrema = some x → x.partition < op.layout.counts.layouts := by
  intro a ha x hx
  have hmem : x.partition ∈ op.layout.arguments.flatMap (·.partitionSlots) := by
    refine List.mem_flatMap.mpr ⟨a, ha, ?_⟩
    simp [BoundArgument.partitionSlots, hx]
  exact List.mem_range.mp (op.wellFormed.addressed.layouts.mem_iff.mp hmem)

/-! ## Keys -/

/-- A row whose group values can all be encoded. -/
def Keyed (op : AggregateOperation Ty Value) (row : EventRow Value) : Prop :=
  ∀ p ∈ op.groupFields.zip row.groups, ∃ limit bytes, op.fmt.encode p.1 p.2 limit = (bytes, .ok ())

/-- A failed charge leaves the state as well. -/
theorem charge_keeps (bytes : Nat) (s : AggregateState) :
    Triple (fun t => t.state = s) (StepBudget.charge bytes : AggregateAttempt Unit)
      (fun _ t => t.state = s) fun t => t.state = s := by
  intro t ht
  unfold StepBudget.charge
  split
  · next h =>
    split at h
    · cases h
      exact ht
    · cases h
  · next h =>
    split at h
    · cases h
    · cases h
      exact ht

theorem encodeTuple_keeps (op : AggregateOperation Ty Value)
    (expressions : List (BoundExpression Ty Value)) (values : List Value) (encoded : Bytes)
    (s : AggregateState) :
    Triple (fun t => t.state = s) (op.encodeTuple expressions values encoded)
      (fun _ t => t.state = s) fun t => t.state = s := by
  induction expressions generalizing values encoded with
  | nil => exact .pure _ fun _ h => h
  | cons e expressions ih =>
    cases values with
    | nil => exact .pure _ fun _ h => h
    | cons value values =>
      refine .bind (.get fun t ht => ?_) fun encoded => ih values encoded
      refine .weaken ?_ (fun u hu => (show u.state = s by rw [hu, ht])) (fun _ _ h => h)
        fun _ h => h
      refine .bind (charge_keeps _ _) fun _ => ?_
      exact .ofExcept_bind (fun _ h => h) fun _ _ => .pure _ fun _ h => h

theorem encodeTuple_eq_ok {expressions : List (BoundExpression Ty Value)} {values : List Value}
    {encoded bytes : Bytes} {t t' : Scope AggregateState}
    (h : op.encodeTuple expressions values encoded t = .ok bytes t') :
    bytes = encoded ++ op.fmt.canonicalRow (expressions.map (·.field)) values ∧
      ∀ p ∈ (expressions.map (·.field)).zip values,
        ∃ limit bytes, op.fmt.encode p.1 p.2 limit = (bytes, .ok ()) := by
  induction expressions generalizing values encoded t with
  | nil =>
    obtain ⟨rfl, -⟩ := pure_eq_ok.mp h
    exact ⟨(List.append_nil _).symm, fun p hp => by cases hp⟩
  | cons e expressions ih =>
    cases values with
    | nil =>
      obtain ⟨rfl, -⟩ := pure_eq_ok.mp h
      exact ⟨(List.append_nil _).symm, fun p hp => by cases hp⟩
    | cons value values =>
      obtain ⟨encoded₁, t₁, hvalue, h⟩ := bind_eq_ok.mp h
      obtain ⟨s, t₂, hget, hvalue⟩ := bind_eq_ok.mp hvalue
      obtain ⟨rfl, rfl⟩ := get_eq_ok.mp hget
      obtain ⟨_, t₃, _, hvalue⟩ := bind_eq_ok.mp hvalue
      obtain ⟨_, t₄, hresult, hvalue⟩ := bind_eq_ok.mp hvalue
      obtain ⟨rfl, -⟩ := pure_eq_ok.mp hvalue
      have hencode := mapError_eq_ok.mp (ofExcept_eq_ok.mp hresult).1
      have hpair : op.fmt.encode e.field value t.budget.remainingBytes =
          ((op.fmt.encode e.field value t.budget.remainingBytes).1, .ok ()) := by
        rw [← hencode]
      obtain ⟨rfl, hrest⟩ := ih h
      refine ⟨?_, ?_⟩
      · rw [op.fmt.encode_canonical _ _ _ _ hpair, List.append_assoc]
        rfl
      · intro p hp
        rw [List.map_cons, List.zip_cons_cons] at hp
        rcases List.mem_cons.mp hp with rfl | hp
        · exact ⟨_, _, hpair⟩
        · exact hrest p hp

theorem encodeTuple_soft (expressions : List (BoundExpression Ty Value)) (values : List Value)
    (encoded : Bytes) (t : Scope AggregateState) :
    Raises (fun e => ¬ Hard e) (op.encodeTuple expressions values encoded) t := by
  induction expressions generalizing values encoded t with
  | nil => exact .pure _
  | cons e expressions ih =>
    cases values with
    | nil => exact .pure _
    | cons value values =>
      refine .bind (.get ?_) fun encoded t₁ _ => ih values encoded t₁
      exact .bind (soft_charge _ _) fun _ _ _ =>
        .bind (.ofExcept (.mapError decodeError_soft)) fun _ _ _ => .pure _

theorem forM_charge_state {α : Type} {f : α → Nat} {l : List α} {u : Unit}
    {t t' : Scope AggregateState}
    (h : (l.forM fun a => StepBudget.charge (f a) : AggregateAttempt Unit) t = .ok u t') :
    t'.state = t.state := by
  induction l generalizing t with
  | nil =>
    obtain ⟨-, rfl⟩ := pure_eq_ok.mp h
    rfl
  | cons a l ih =>
    obtain ⟨_, t₁, hcharge, h⟩ := bind_eq_ok.mp h
    rw [ih h, charge_state hcharge]

/-- What was encoded ahead is the key of the next row, or a soft failure. -/
def Awaits (op : AggregateOperation Ty Value) (rest : List (EventRow Value))
    (next : Option (Except AggregateError Bytes)) : Prop :=
  ∀ row tail, rest = row :: tail → ∃ group, next = some group ∧
    (∀ bytes, group = .ok bytes → bytes = op.groupKey row ∧ op.Keyed row) ∧
    ∀ e, group = .error e → ¬ Hard e

theorem encodeNext_eq_ok {rest : List (EventRow Value)}
    {next : Option (Except AggregateError Bytes)} {t t' : Scope AggregateState}
    (h : op.encodeNext rest t = .ok next t') : t'.state = t.state ∧ op.Awaits rest next := by
  cases rest with
  | nil =>
    obtain ⟨-, rfl⟩ := pure_eq_ok.mp h
    exact ⟨rfl, fun _ _ hrest => by cases hrest⟩
  | cons row rest =>
    obtain ⟨group, t₁, hcaptured, h⟩ := bind_eq_ok.mp h
    obtain ⟨rfl, rfl⟩ := pure_eq_ok.mp h
    have hkeeps := op.encodeTuple_keeps op.groups row.groups [] t.state t rfl
    unfold captured at hcaptured
    cases hencode : op.encodeTuple op.groups row.groups [] t with
    | ok bytes u =>
      rw [hencode] at hkeeps
      simp only [hencode] at hcaptured
      cases hcaptured
      obtain ⟨hbytes, hkeyed⟩ := encodeTuple_eq_ok hencode
      refine ⟨hkeeps, ?_⟩
      intro row' tail hrest
      cases hrest
      refine ⟨.ok bytes, rfl, ?_, fun e he => by cases he⟩
      intro bytes' heq
      cases heq
      exact ⟨hbytes, hkeyed⟩
    | error e u =>
      rw [hencode] at hkeeps
      simp only [hencode] at hcaptured
      cases hcaptured
      refine ⟨hkeeps, ?_⟩
      intro row' tail hrest
      cases hrest
      refine ⟨.error e, rfl, fun bytes hbytes => (by cases hbytes), ?_⟩
      intro e' he
      cases he
      exact encodeTuple_soft _ _ _ _ _ _ hencode

theorem encodeNext_soft (rest : List (EventRow Value)) (t : Scope AggregateState) :
    Raises (fun e => ¬ Hard e) (op.encodeNext rest) t := by
  cases rest with
  | nil => exact .pure _
  | cons row rest =>
    refine .bind ?_ fun _ _ _ => .pure _
    intro e u h
    unfold captured at h
    split at h
    · cases h
    · cases h

/-! ## One event -/

theorem closeRun_eq_ok {startsRun : Bool} {loop loop' : Loop Value} {entries : Entries}
    {groups : OrdMap Bytes GroupState} {t t' : Scope AggregateState}
    (hgroups : GroupRun t.state.groups loop.pendingGroup groups)
    (hslots : Slots op.layout.counts.layouts t.state.entries loop.pendingExtrema entries)
    (h : op.closeRun startsRun loop t = .ok loop' t') :
    GroupRun t'.state.groups loop'.pendingGroup groups ∧
      Slots op.layout.counts.layouts t'.state.entries loop'.pendingExtrema entries ∧
      t'.state.control = t.state.control ∧ loop'.nextGroupId = loop.nextGroupId ∧
      loop'.output = loop.output ∧
      loop'.pendingGroup = if startsRun then none else loop.pendingGroup := by
  unfold closeRun at h
  cases startsRun with
  | false =>
    obtain ⟨rfl, rfl⟩ := pure_eq_ok.mp h
    exact ⟨hgroups, hslots, rfl, rfl, rfl, rfl⟩
  | true =>
    obtain ⟨pending, t₁, hflush, h⟩ := bind_eq_ok.mp h
    obtain ⟨hslots₁, -, hsame⟩ := flushAll_eq_ok hslots hflush
    rw [← hsame.1] at hgroups
    cases hrun : loop.pendingGroup with
    | none =>
      rw [hrun] at hgroups
      simp only [hrun] at h
      obtain ⟨rfl, rfl⟩ := pure_eq_ok.mp h
      exact ⟨hgroups, hslots₁, hsame.2, rfl, rfl, rfl⟩
    | some p =>
      rw [hrun] at hgroups
      simp only [hrun] at h
      obtain ⟨_, t₂, hwrite, h⟩ := bind_eq_ok.mp h
      obtain ⟨rfl, rfl⟩ := pure_eq_ok.mp h
      have hstate := flushPendingGroup_eq_ok hgroups hwrite
      rw [hstate]
      exact ⟨.none _, hslots₁, hsame.2, rfl, rfl, rfl⟩

theorem closeRun_soft (startsRun : Bool) (loop : Loop Value) (t : Scope AggregateState) :
    Raises (fun e => ¬ Hard e) (op.closeRun startsRun loop) t := by
  refine .ite (fun _ => .bind (flushAll_soft _ _ _) fun _ _ _ => ?_) fun _ => .pure _
  cases loop.pendingGroup with
  | none => exact .pure _
  | some p => exact .bind (flushPendingGroup_soft _ _) fun _ _ _ => .pure _

theorem newGroupState_or (control nextGroupId : Option UInt64) :
    op.newGroupState control nextGroupId = op.newGroupState (nextGroupId.or control) none := by
  cases nextGroupId <;> rfl

theorem startState_mirrors {s : AggregateState} {group : Bytes} {difference : Int}
    {loop : Loop Value} {p : PendingGroup} {t : Scope AggregateState}
    (hcontrol : s.control = loop.nextGroupId.or t.state.control)
    (hgroup : s.groups.get? group = p.state) :
    Mirrors Hard (op.startState difference loop p) t (op.started s group difference)
      fun r t' r' => r.1 = r'.1 ∧ t'.state = t.state ∧ r'.2 = r.2.or t.state.control := by
  unfold startState started
  rw [hgroup]
  cases p.state with
  | some state => exact .pure ⟨rfl, rfl, hcontrol⟩
  | none =>
    refine .ite (fun _ => .throw _) fun _ => ?_
    refine .soft_bind (soft_charge _ _) fun _ t₁ hcharge => .get ?_
    rw [newGroupState_or, charge_state hcharge, ← hcontrol]
    exact .ofExcept_bind fun r _ => .pure ⟨rfl, charge_state hcharge, rfl⟩

theorem outputBefore_mirrors (existed : Bool) (state : GroupState) (t : Scope AggregateState) :
    Mirrors Hard (op.outputBefore existed state) t (op.outputOf existed state)
      fun r t' r' => r = r' ∧ t'.state = t.state :=
  .ite (fun _ => .soft_bind (soft_charge _ _) fun _ _ hcharge =>
    .ofExcept_bind fun _ _ => .pure ⟨rfl, charge_state hcharge⟩) fun _ => .pure ⟨rfl, rfl⟩

theorem applyState_mirrors (row : EventRow Value) (state : GroupState) {pending : PendingExtrema}
    {entries : Entries} {t : Scope AggregateState}
    (hbelow : ∀ a ∈ op.arguments, ∀ x, a.extrema = some x → x.partition < layouts)
    (hslots : Slots layouts t.state.entries pending entries) :
    Mirrors Hard (op.applyState row state pending) t (op.rowState row state entries)
      fun r t' r' => r.1 = r'.1 ∧ Slots layouts t'.state.entries r.2 r'.2 ∧
        SameGroups t.state t'.state := by
  unfold applyState rowState
  refine .ofExcept_bind fun weight _ => ?_
  simp only [pure_bind]
  -- the statistics, after the extrema
  have hfinish : ∀ extremes pending' entries' (u : Scope AggregateState),
      Slots layouts u.state.entries pending' entries' → SameGroups t.state u.state →
      Mirrors Hard (if op.layout.counts.statistics > 0 then do
          let statistics ← MonadExcept.ofExcept
            (op.applyStatisticsRow row.difference op.arguments row.arguments state.statistics)
          pure ({ state with weight, extremes, statistics }, pending')
        else pure ({ state with weight, extremes }, pending')) u
        (if op.layout.counts.statistics > 0 then do
          let statistics ←
            op.applyStatisticsRow row.difference op.arguments row.arguments state.statistics
          pure ({ state with weight, extremes, statistics }, entries')
        else pure ({ state with weight, extremes }, entries'))
        fun r t' r' => r.1 = r'.1 ∧ Slots layouts t'.state.entries r.2 r'.2 ∧
          SameGroups t.state t'.state := by
    intro extremes pending' entries' u hslots' hsame
    exact .ite (fun _ => .ofExcept_bind fun statistics _ => .pure ⟨rfl, hslots', hsame⟩)
      fun _ => .pure ⟨rfl, hslots', hsame⟩
  refine .ite (fun _ => ?_) fun _ => hfinish _ _ _ _ hslots (.refl _)
  refine .bind (applyExtremaRow_mirrors _ _ hbelow hslots) ?_
  rintro ⟨extremes, pending'⟩ u ⟨extremes', entries'⟩ ⟨heq, hslots', hsame⟩
  cases heq
  exact hfinish _ _ _ _ hslots' hsame

/-! ## Output -/

theorem pushOutput_eq_ok {row : EventRow Value} {calls : List CallValue} {difference : Int}
    {output output' : List (Row Value × Int)} {t t' : Scope AggregateState}
    (h : op.pushOutput row.groups calls difference output t = .ok output' t') :
    t'.state = t.state ∧ output' = output ++ [(op.outputRow row calls, difference)] := by
  obtain ⟨_, t₁, hcharge, h⟩ := bind_eq_ok.mp h
  obtain ⟨_, t₂, hcharges, h⟩ := bind_eq_ok.mp h
  obtain ⟨rfl, rfl⟩ := pure_eq_ok.mp h
  exact ⟨(forM_charge_state hcharges).trans (charge_state hcharge), rfl⟩

theorem pushOutput_soft (row : EventRow Value) (calls : List CallValue) (difference : Int)
    (output : List (Row Value × Int)) (t : Scope AggregateState) :
    Raises (fun e => ¬ Hard e) (op.pushOutput row.groups calls difference output) t :=
  .bind (soft_charge _ _) fun _ _ _ =>
    .bind (.forM (fun _ u => soft_charge _ u) _) fun _ _ _ => .pure _

theorem emit_mirrors (row : EventRow Value) (old : Option (List CallValue)) (state : GroupState)
    {loop : Loop Value} {entries : Entries} {t : Scope AggregateState}
    (hslots : Slots layouts t.state.entries loop.pendingExtrema entries) :
    Mirrors Hard (op.emit row old state loop) t (op.emitted row old state)
      fun r t' r' => r.1 = r'.1 ∧ r.2.output = loop.output ++ r'.2 ∧ (∀ e ∈ r'.2, e.2 ≠ 0) ∧
        Slots layouts t'.state.entries r.2.pendingExtrema entries ∧
        SameGroups t.state t'.state ∧ r.2.nextGroup = loop.nextGroup ∧
        r.2.nextGroupId = loop.nextGroupId := by
  unfold emit emitted
  refine .ite (fun _ => ?_) fun _ => ?_
  · cases old with
    | none => exact .throw _
    | some old =>
      simp only [pure_bind]
      refine .soft_bind (pushOutput_soft _ _ _ _ _) fun output t₁ hpush => ?_
      obtain ⟨hstate, rfl⟩ := pushOutput_eq_ok hpush
      rw [← hstate] at hslots
      refine .ite (fun _ => .throw _) fun _ => ?_
      refine .soft_bind (flushAll_soft _ _ _) fun pending t₂ hflush => ?_
      obtain ⟨hslots₂, -, hsame⟩ := flushAll_eq_ok hslots hflush
      refine .pure ⟨rfl, rfl, ?_, hslots₂, (SameGroups.of_eq hstate).trans hsame, rfl, rfl⟩
      simp
  · refine .soft_bind (soft_charge _ _) fun _ t₁ hcharge => .ofExcept_bind fun new _ => ?_
    have hstate₁ := charge_state hcharge
    rw [← hstate₁] at hslots
    cases old with
    | none =>
      refine .soft_bind (pushOutput_soft _ _ _ _ _) fun output t₂ hpush => ?_
      obtain ⟨hstate, rfl⟩ := pushOutput_eq_ok hpush
      rw [← hstate] at hslots
      refine .pure ⟨rfl, rfl, ?_, hslots, .of_eq (hstate.trans hstate₁), rfl, rfl⟩
      simp
    | some old =>
      refine .ite (fun _ => ?_) fun _ => ?_
      · refine .soft_bind (pushOutput_soft _ _ _ _ _) fun output t₂ hpush => ?_
        obtain ⟨hstate, rfl⟩ := pushOutput_eq_ok hpush
        refine .soft_bind (pushOutput_soft _ _ _ _ _) fun output' t₃ hpush' => ?_
        obtain ⟨hstate', rfl⟩ := pushOutput_eq_ok hpush'
        rw [← hstate, ← hstate'] at hslots
        refine .pure ⟨rfl, List.append_assoc _ _ _, ?_, hslots,
          .of_eq (hstate'.trans (hstate.trans hstate₁)), rfl, rfl⟩
        simp
      · exact .pure ⟨rfl, (List.append_nil _).symm, fun e he => (by cases he), hslots,
          .of_eq hstate₁, rfl, rfl⟩

end AggregateOperation

end Dogpaddle.Aggregate
