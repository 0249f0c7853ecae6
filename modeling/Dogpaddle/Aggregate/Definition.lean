import Dogpaddle.Aggregate.Functions
import Mathlib.Data.List.Perm.Basic
import Mathlib.Data.List.Range

/-!
# The layout of an aggregate

`compileLayout` turns the calls of a definition into arguments with addresses: equal
expressions share an argument, the counts and sums of an argument share a statistic,
its minimum and maximum share one ordered partition and have a cache slot each.

`WellFormed` is what the runtime relies on, and `compileLayout_wellFormed` that every
compiled layout has it: every address is used exactly once, every call finds the
address it reads, and numeric statistics stand on numeric columns.
-/

namespace Dogpaddle.Aggregate

open Lib Dogpaddle.Relation

/-! ## Definitions -/

/-- One built-in aggregate invocation. -/
inductive AggregateCall (E : Type)
  | countAll
  | count (argument : E)
  | sum (argument : E)
  | avg (argument : E)
  | min (argument : E)
  | max (argument : E)
deriving DecidableEq, Repr

/-- Rejection of a definition or of its binding to an input schema. -/
inductive LayoutError
  | emptyGroupBy
  | tooManyFields
  | fieldNameTooLong
  | groupExpression (group : Nat) (source : OperationError)
  | aggregateExpression (aggregate : Nat) (source : OperationError)
  | floatGroupKey (group : Nat)
  | unsupportedArgument (function : String) (dataType : DataType)
  /-- An index outside the arguments. -/
  | panicked
deriving DecidableEq, Repr

/-- An expression bound to the input schema, with the field of its column. -/
structure BoundExpression (Ty Value : Type) where
  expression : Row Value → Except OperationError Value
  field : Relation.Field Ty

/-- Addresses of the statistic of an argument. -/
structure BoundStatistic where
  index : Nat
  kind : StatisticKind
  countOutput : Bool
  sumOutput : Bool
deriving DecidableEq, Repr

/-- Addresses of the ordered partition and the cached directions of an argument. -/
structure BoundExtrema where
  partition : Nat
  minSlot : Option Nat
  maxSlot : Option Nat
deriving DecidableEq, Repr

structure BoundArgument (Ty Value : Type) where
  /-- The call that first used the argument. -/
  owner : Nat
  expression : BoundExpression Ty Value
  statistic : Option BoundStatistic
  extrema : Option BoundExtrema

/-- A grouped aggregate over stored expressions. -/
structure AggregateDefinition (E : Type) where
  groups : List (String × E)
  calls : List (String × AggregateCall E)

/-- How many statistics, partitions and cache slots there are. -/
structure Counts where
  statistics : Nat
  layouts : Nat
  extrema : Nat
deriving DecidableEq, Repr

structure AggregateLayout (Ty Value : Type) where
  groupExpressions : List (BoundExpression Ty Value)
  calls : List (AggregateCall Nat)
  arguments : List (BoundArgument Ty Value)
  counts : Counts

/-- What binding needs to know: how an expression binds and what its types are. -/
structure Binder (E Ty Value : Type) where
  bind : E → Except OperationError (BoundExpression Ty Value)
  dataType : Ty → DataType
  containsFloat : Ty → Bool

/-! ## Compiling -/

/-- The types with an ordered key. -/
def indexable : DataType → Bool
  | .other _ => false
  | _ => true

def numericKind (function : String) (dataType : DataType) : Except LayoutError StatisticKind :=
  match dataType with
  | .int64 => .ok .signed
  | .uint64 => .ok .unsigned
  | other => .error (.unsupportedArgument function other)

namespace AggregateDefinition

variable {E : Type} (definition : AggregateDefinition E)

/-- An index whose count and a name whose length fit 32 bits. -/
def validateField (index : Nat) (name : String) : Except LayoutError Unit :=
  if ¬ index + 1 < 2 ^ 32 then .error .tooManyFields
  else if ¬ name.utf8ByteSize < 2 ^ 32 then .error .fieldNameTooLong
  else .ok ()

def validate : Except LayoutError Unit :=
  if definition.groups = [] then .error .emptyGroupBy
  else do
    definition.groups.zipIdx.forM fun e => validateField e.2 e.1.1
    definition.calls.zipIdx.forM fun e => validateField e.2 e.1.1

end AggregateDefinition

section Compile

variable {E Ty Value : Type} [DecidableEq E] (binder : Binder E Ty Value)

/-- The arguments so far, each under the expression it was bound from. -/
abbrev Arguments (E Ty Value : Type) := List (E × BoundArgument Ty Value)

/-- The argument of an expression; an expression that is new is bound and appended. -/
def indexedArgument (arguments : Arguments E Ty Value) (stored : E) (owner : Nat) :
    Except LayoutError (Nat × Arguments E Ty Value) :=
  match arguments.findIdx? fun existing => existing.1 = stored with
  | some index => .ok (index, arguments)
  | none =>
    match binder.bind stored with
    | .error e => .error (.aggregateExpression owner e)
    | .ok expression =>
      .ok (arguments.length, arguments ++ [(stored, ⟨owner, expression, none, none⟩)])

/-- The statistic of an argument; a numeric kind replaces a plain count. -/
def statisticOfArgument (argument : BoundArgument Ty Value) (counts : Counts)
    (kind : StatisticKind) : BoundStatistic × Counts :=
  let (statistic, counts) := match argument.statistic with
    | some statistic => (statistic, counts)
    | none => (⟨counts.statistics, kind, false, false⟩,
        { counts with statistics := counts.statistics + 1 })
  (if kind ≠ .count then { statistic with kind } else statistic, counts)

/-- The partition of an argument, with a cache slot for one direction. -/
def extremaOfArgument (argument : BoundArgument Ty Value) (counts : Counts) (isMin : Bool) :
    BoundExtrema × Counts :=
  let (extrema, counts) := match argument.extrema with
    | some extrema => (extrema, counts)
    | none => (⟨counts.layouts, none, none⟩, { counts with layouts := counts.layouts + 1 })
  match if isMin then extrema.minSlot else extrema.maxSlot with
  | some _ => (extrema, counts)
  | none =>
    let slot := some counts.extrema
    (if isMin then { extrema with minSlot := slot } else { extrema with maxSlot := slot },
      { counts with extrema := counts.extrema + 1 })

/-- Assigns the addresses one call needs. -/
def configureCall (call : AggregateCall Nat) (arguments : Arguments E Ty Value)
    (counts : Counts) : Except LayoutError (Arguments E Ty Value × Counts) :=
  let withStatistic (index : Nat) (kind : DataType → Except LayoutError StatisticKind)
      (isCount isSum : Bool) : Except LayoutError (Arguments E Ty Value × Counts) :=
    match arguments[index]? with
    | none => .error .panicked
    | some (stored, argument) =>
      match kind (binder.dataType argument.expression.field.dataType) with
      | .error e => .error e
      | .ok kind =>
        let (statistic, counts) := statisticOfArgument argument counts kind
        let statistic := { statistic with
          countOutput := statistic.countOutput || isCount
          sumOutput := statistic.sumOutput || isSum }
        .ok (arguments.set index (stored, { argument with statistic := some statistic }), counts)
  let withExtrema (index : Nat) (isMin : Bool) :
      Except LayoutError (Arguments E Ty Value × Counts) :=
    match arguments[index]? with
    | none => .error .panicked
    | some (stored, argument) =>
      let dataType := binder.dataType argument.expression.field.dataType
      if ¬ indexable dataType then
        .error (.unsupportedArgument (if isMin then "MIN" else "MAX") dataType)
      else
        let (extrema, counts) := extremaOfArgument argument counts isMin
        .ok (arguments.set index (stored, { argument with extrema := some extrema }), counts)
  match call with
  | .countAll => .ok (arguments, counts)
  | .count index => withStatistic index (fun _ => .ok .count) true false
  | .sum index => withStatistic index (numericKind "SUM") false true
  | .avg index => withStatistic index (numericKind "AVG") false false
  | .min index => withExtrema index true
  | .max index => withExtrema index false

/-- Replaces the expression of a call by the index of its argument. -/
def indexCall (call : AggregateCall E) (arguments : Arguments E Ty Value) (owner : Nat) :
    Except LayoutError (AggregateCall Nat × Arguments E Ty Value) :=
  let indexed (stored : E) (make : Nat → AggregateCall Nat) :=
    (indexedArgument binder arguments stored owner).map fun r => (make r.1, r.2)
  match call with
  | .countAll => .ok (.countAll, arguments)
  | .count stored => indexed stored .count
  | .sum stored => indexed stored .sum
  | .avg stored => indexed stored .avg
  | .min stored => indexed stored .min
  | .max stored => indexed stored .max

/-- Compiles the calls from an index on. -/
def compileCalls : Nat → List (AggregateCall E) → Arguments E Ty Value → Counts →
    Except LayoutError (List (AggregateCall Nat) × Arguments E Ty Value × Counts)
  | _, [], arguments, counts => .ok ([], arguments, counts)
  | owner, call :: calls, arguments, counts =>
    match indexCall binder call arguments owner with
    | .error e => .error e
    | .ok (call, arguments) =>
      match configureCall binder call arguments counts with
      | .error e => .error e
      | .ok (arguments, counts) =>
        (compileCalls (owner + 1) calls arguments counts).map
          fun (calls, rest) => (call :: calls, rest)

/-- Binds the grouping expressions from an index on. -/
def bindGroups : Nat → List E → Except LayoutError (List (BoundExpression Ty Value))
  | _, [] => .ok []
  | group, stored :: groups =>
    match binder.bind stored with
    | .error e => .error (.groupExpression group e)
    | .ok expression =>
      if binder.containsFloat expression.field.dataType then .error (.floatGroupKey group)
      else (bindGroups (group + 1) groups).map (expression :: ·)

/-- Compiles a definition against an input schema. -/
def compileLayout (definition : AggregateDefinition E) :
    Except LayoutError (AggregateLayout Ty Value) := do
  definition.validate
  let groupExpressions ← bindGroups binder 0 (definition.groups.map (·.2))
  let (calls, arguments, counts) ←
    compileCalls binder 0 (definition.calls.map (·.2)) [] ⟨0, 0, 0⟩
  pure { groupExpressions, calls, arguments := arguments.map (·.2), counts }

end Compile

/-! ## Well-formed layouts -/

section WellFormed

variable {E Ty Value : Type}

namespace BoundArgument

variable (argument : BoundArgument Ty Value)

def statisticSlots : List Nat := argument.statistic.toList.map (·.index)

def partitionSlots : List Nat := argument.extrema.toList.map (·.partition)

def cacheSlots : List Nat :=
  argument.extrema.toList.flatMap fun x => x.minSlot.toList ++ x.maxSlot.toList

/-- Numeric statistics stand on their own type; extrema have an ordered type and a slot. -/
structure Sound (dataType : Ty → DataType) : Prop where
  signed : ∀ b, argument.statistic = some b → b.kind = .signed →
    dataType argument.expression.field.dataType = .int64
  unsigned : ∀ b, argument.statistic = some b → b.kind = .unsigned →
    dataType argument.expression.field.dataType = .uint64
  summed : ∀ b, argument.statistic = some b → b.sumOutput = true → b.kind ≠ .count
  extrema : ∀ x, argument.extrema = some x →
    indexable (dataType argument.expression.field.dataType) = true ∧ argument.cacheSlots ≠ []

end BoundArgument

/-- Every address is used by exactly one argument, and every argument is sound. -/
structure Addressed (dataType : Ty → DataType) (arguments : List (BoundArgument Ty Value))
    (counts : Counts) : Prop where
  statistics : (arguments.flatMap (·.statisticSlots)).Perm (List.range counts.statistics)
  layouts : (arguments.flatMap (·.partitionSlots)).Perm (List.range counts.layouts)
  extrema : (arguments.flatMap (·.cacheSlots)).Perm (List.range counts.extrema)
  sound : ∀ a ∈ arguments, a.Sound dataType

/-- The argument of a call has the addresses the call reads. -/
def CallBound (arguments : List (BoundArgument Ty Value)) : AggregateCall Nat → Prop
  | .countAll => True
  | .count index => ∃ a b, arguments[index]? = some a ∧ a.statistic = some b ∧
      b.countOutput = true
  | .sum index => ∃ a b, arguments[index]? = some a ∧ a.statistic = some b ∧
      b.kind ≠ .count ∧ b.sumOutput = true
  | .avg index => ∃ a b, arguments[index]? = some a ∧ a.statistic = some b ∧ b.kind ≠ .count
  | .min index => ∃ a x, arguments[index]? = some a ∧ a.extrema = some x ∧ x.minSlot ≠ none
  | .max index => ∃ a x, arguments[index]? = some a ∧ a.extrema = some x ∧ x.maxSlot ≠ none

/-- An argument that has gained addresses and lost none. -/
structure BoundArgument.Grows (a a' : BoundArgument Ty Value) : Prop where
  expression : a'.expression = a.expression
  statistic : ∀ b, a.statistic = some b → ∃ b', a'.statistic = some b' ∧
    (b.kind ≠ .count → b'.kind ≠ .count) ∧ (b.countOutput = true → b'.countOutput = true) ∧
    (b.sumOutput = true → b'.sumOutput = true)
  extrema : ∀ x, a.extrema = some x → ∃ x', a'.extrema = some x' ∧
    (x.minSlot ≠ none → x'.minSlot ≠ none) ∧ (x.maxSlot ≠ none → x'.maxSlot ≠ none)

theorem BoundArgument.Grows.refl (a : BoundArgument Ty Value) : a.Grows a where
  expression := rfl
  statistic := fun b hb => ⟨b, hb, id, id, id⟩
  extrema := fun x hx => ⟨x, hx, id, id⟩

theorem BoundArgument.Grows.trans {a b c : BoundArgument Ty Value} (h : a.Grows b)
    (h' : b.Grows c) : a.Grows c where
  expression := h'.expression.trans h.expression
  statistic := by
    intro s hs
    obtain ⟨s', hs', hkind, hcount, hsum⟩ := h.statistic s hs
    obtain ⟨s'', hs'', hkind', hcount', hsum'⟩ := h'.statistic s' hs'
    exact ⟨s'', hs'', fun hk => hkind' (hkind hk), fun hc => hcount' (hcount hc),
      fun hm => hsum' (hsum hm)⟩
  extrema := by
    intro x hx
    obtain ⟨x', hx', hmin, hmax⟩ := h.extrema x hx
    obtain ⟨x'', hx'', hmin', hmax'⟩ := h'.extrema x' hx'
    exact ⟨x'', hx'', fun hm => hmin' (hmin hm), fun hm => hmax' (hmax hm)⟩

/-- Later arguments contain the earlier ones, at their places and under their expressions. -/
def Extends (arguments arguments' : Arguments E Ty Value) : Prop :=
  ∀ (i : Nat) (stored : E) (a : BoundArgument Ty Value), arguments[i]? = some (stored, a) →
    ∃ a', arguments'[i]? = some (stored, a') ∧ a.Grows a'

theorem Extends.refl (arguments : Arguments E Ty Value) : Extends arguments arguments :=
  fun _ _ a ha => ⟨a, ha, .refl a⟩

theorem Extends.trans {arguments₁ arguments₂ arguments₃ : Arguments E Ty Value}
    (h : Extends arguments₁ arguments₂) (h' : Extends arguments₂ arguments₃) :
    Extends arguments₁ arguments₃ := by
  intro i stored a ha
  obtain ⟨a', ha', hgrows⟩ := h i stored a ha
  obtain ⟨a'', ha'', hgrows'⟩ := h' i stored a' ha'
  exact ⟨a'', ha'', hgrows.trans hgrows'⟩

/-- Growing one argument extends. -/
theorem extends_set {arguments : Arguments E Ty Value} {index : Nat} {stored : E}
    {a a' : BoundArgument Ty Value} (hindex : arguments[index]? = some (stored, a))
    (hgrows : a.Grows a') : Extends arguments (arguments.set index (stored, a')) := by
  intro i stored' b hb
  by_cases hi : index = i
  · subst hi
    rw [hindex] at hb
    cases hb
    refine ⟨a', ?_, hgrows⟩
    rw [List.getElem?_set_self (List.getElem?_eq_some_iff.mp hindex).1]
  · refine ⟨b, ?_, .refl b⟩
    rw [List.getElem?_set_ne hi]
    exact hb

theorem extends_append (arguments : Arguments E Ty Value) (e : E × BoundArgument Ty Value) :
    Extends arguments (arguments ++ [e]) := by
  intro i stored a ha
  refine ⟨a, ?_, .refl a⟩
  rw [List.getElem?_append_left (List.getElem?_eq_some_iff.mp ha).1]
  exact ha

theorem getElem?_snd {arguments : Arguments E Ty Value} {i : Nat} {a : BoundArgument Ty Value} :
    (arguments.map (·.2))[i]? = some a ↔ ∃ stored, arguments[i]? = some (stored, a) := by
  rw [List.getElem?_map, Option.map_eq_some_iff]
  constructor
  · intro h
    obtain ⟨⟨stored, a'⟩, ha, rfl⟩ := h
    exact ⟨stored, ha⟩
  · intro h
    obtain ⟨stored, ha⟩ := h
    exact ⟨_, ha, rfl⟩

/-- What a call reads stays where it is. -/
theorem CallBound.mono {arguments arguments' : Arguments E Ty Value}
    (hext : Extends arguments arguments') {call : AggregateCall Nat}
    (h : CallBound (arguments.map (·.2)) call) : CallBound (arguments'.map (·.2)) call := by
  have hlater : ∀ {i : Nat} {a : BoundArgument Ty Value}, (arguments.map (·.2))[i]? = some a →
      ∃ a', (arguments'.map (·.2))[i]? = some a' ∧ a.Grows a' := by
    intro i a ha
    obtain ⟨stored, ha⟩ := getElem?_snd.mp ha
    obtain ⟨a', ha', hgrows⟩ := hext i stored a ha
    exact ⟨a', getElem?_snd.mpr ⟨stored, ha'⟩, hgrows⟩
  cases call with
  | countAll => trivial
  | count index =>
    obtain ⟨a, b, ha, hb, hcount⟩ := h
    obtain ⟨a', ha', hgrows⟩ := hlater ha
    obtain ⟨b', hb', -, hcount', -⟩ := hgrows.statistic b hb
    exact ⟨a', b', ha', hb', hcount' hcount⟩
  | sum index =>
    obtain ⟨a, b, ha, hb, hkind, hsum⟩ := h
    obtain ⟨a', ha', hgrows⟩ := hlater ha
    obtain ⟨b', hb', hkind', -, hsum'⟩ := hgrows.statistic b hb
    exact ⟨a', b', ha', hb', hkind' hkind, hsum' hsum⟩
  | avg index =>
    obtain ⟨a, b, ha, hb, hkind⟩ := h
    obtain ⟨a', ha', hgrows⟩ := hlater ha
    obtain ⟨b', hb', hkind', -, -⟩ := hgrows.statistic b hb
    exact ⟨a', b', ha', hb', hkind' hkind⟩
  | min index =>
    obtain ⟨a, x, ha, hx, hmin⟩ := h
    obtain ⟨a', ha', hgrows⟩ := hlater ha
    obtain ⟨x', hx', hmin', -⟩ := hgrows.extrema x hx
    exact ⟨a', x', ha', hx', hmin' hmin⟩
  | max index =>
    obtain ⟨a, x, ha, hx, hmax⟩ := h
    obtain ⟨a', ha', hgrows⟩ := hlater ha
    obtain ⟨x', hx', -, hmax'⟩ := hgrows.extrema x hx
    exact ⟨a', x', ha', hx', hmax' hmax⟩

/-- Replacing one argument adds its new addresses to the others. -/
theorem perm_flatMap_set {arguments : Arguments E Ty Value} {index : Nat} {stored : E}
    {a a' : BoundArgument Ty Value} (hindex : arguments[index]? = some (stored, a))
    {slots : BoundArgument Ty Value → List Nat} {new : List Nat}
    (hslots : (slots a').Perm (new ++ slots a)) :
    (((arguments.set index (stored, a')).map (·.2)).flatMap slots).Perm
      (new ++ (arguments.map (·.2)).flatMap slots) := by
  induction arguments generalizing index with
  | nil => cases hindex
  | cons e arguments ih =>
    cases index with
    | zero =>
      cases hindex
      simp only [List.set_cons_zero, List.map_cons, List.flatMap_cons]
      rw [← List.append_assoc]
      exact hslots.append_right _
    | succ index =>
      simp only [List.set_cons_succ, List.map_cons, List.flatMap_cons]
      refine ((ih hindex).append_left _).trans ?_
      rw [← List.append_assoc, ← List.append_assoc]
      exact List.perm_append_comm.append_right _

theorem perm_range_succ {slots slots' : List Nat} {n : Nat} (h : slots.Perm (List.range n))
    (h' : slots'.Perm ([n] ++ slots)) : slots'.Perm (List.range (n + 1)) := by
  rw [List.range_succ]
  exact h'.trans ((h.append_left _).trans List.perm_append_comm)

/-! ## Compiling keeps layouts well-formed -/

/-- Replacing one argument by a sound one that only gained the addresses `counts'` counts. -/
theorem Addressed.set {dataType : Ty → DataType} {arguments : Arguments E Ty Value}
    {counts counts' : Counts} {index : Nat} {stored : E} {a a' : BoundArgument Ty Value}
    (h : Addressed dataType (arguments.map (·.2)) counts)
    (hindex : arguments[index]? = some (stored, a)) (hsound : a'.Sound dataType)
    (hstatistics : (a'.statisticSlots.Perm a.statisticSlots ∧
        counts'.statistics = counts.statistics) ∨
      (a'.statisticSlots.Perm ([counts.statistics] ++ a.statisticSlots) ∧
        counts'.statistics = counts.statistics + 1))
    (hlayouts : (a'.partitionSlots.Perm a.partitionSlots ∧ counts'.layouts = counts.layouts) ∨
      (a'.partitionSlots.Perm ([counts.layouts] ++ a.partitionSlots) ∧
        counts'.layouts = counts.layouts + 1))
    (hextrema : (a'.cacheSlots.Perm a.cacheSlots ∧ counts'.extrema = counts.extrema) ∨
      (a'.cacheSlots.Perm ([counts.extrema] ++ a.cacheSlots) ∧
        counts'.extrema = counts.extrema + 1)) :
    Addressed dataType ((arguments.set index (stored, a')).map (·.2)) counts' := by
  have hkeep : ∀ {slots : BoundArgument Ty Value → List Nat} {n n' : Nat},
      ((arguments.map (·.2)).flatMap slots).Perm (List.range n) →
      ((slots a').Perm (slots a) ∧ n' = n ∨ (slots a').Perm ([n] ++ slots a) ∧ n' = n + 1) →
      (((arguments.set index (stored, a')).map (·.2)).flatMap slots).Perm (List.range n') := by
    intro slots n n' hperm hnew
    rcases hnew with ⟨hsame, rfl⟩ | ⟨hmore, rfl⟩
    · rw [← List.nil_append (slots a)] at hsame
      exact (perm_flatMap_set hindex hsame).trans hperm
    · exact perm_range_succ hperm (perm_flatMap_set hindex hmore)
  refine ⟨hkeep h.statistics hstatistics, hkeep h.layouts hlayouts, hkeep h.extrema hextrema, ?_⟩
  intro b hb
  obtain ⟨⟨stored', b'⟩, hmem, rfl⟩ := List.mem_map.mp hb
  rcases List.mem_or_eq_of_mem_set hmem with hmem | heq
  · exact h.sound b' (List.mem_map.mpr ⟨_, hmem, rfl⟩)
  · cases heq
    exact hsound

theorem Addressed.sound_at {dataType : Ty → DataType} {arguments : Arguments E Ty Value}
    {counts : Counts} {index : Nat} {stored : E} {a : BoundArgument Ty Value}
    (h : Addressed dataType (arguments.map (·.2)) counts)
    (hindex : arguments[index]? = some (stored, a)) : a.Sound dataType :=
  h.sound a (List.mem_map.mpr ⟨_, List.mem_of_getElem? hindex, rfl⟩)

variable [DecidableEq E] {binder : Binder E Ty Value}

theorem numericKind_eq_ok {function : String} {dataType : DataType} {kind : StatisticKind}
    (h : numericKind function dataType = .ok kind) :
    kind ≠ .count ∧ (kind = .signed → dataType = .int64) ∧
      (kind = .unsigned → dataType = .uint64) := by
  unfold numericKind at h
  split at h
  · cases h
    exact ⟨by decide, fun _ => rfl, fun h => by cases h⟩
  · cases h
    exact ⟨by decide, fun h => (by cases h), fun _ => rfl⟩
  · cases h

/-- The statistic that a call configures: what it keeps, and what it adds. -/
theorem statisticOfArgument_spec (a : BoundArgument Ty Value) (counts : Counts)
    (kind : StatisticKind) :
    let r := statisticOfArgument a counts kind
    r.2.layouts = counts.layouts ∧ r.2.extrema = counts.extrema ∧
    (kind ≠ .count → r.1.kind = kind) ∧
    ((a.statistic = none ∧ r.1 = ⟨counts.statistics, kind, false, false⟩ ∧
        r.2.statistics = counts.statistics + 1) ∨
      ∃ b, a.statistic = some b ∧ r.1.index = b.index ∧ r.1.countOutput = b.countOutput ∧
        r.1.sumOutput = b.sumOutput ∧ (kind = .count → r.1.kind = b.kind) ∧
        r.2.statistics = counts.statistics) := by
  unfold statisticOfArgument
  cases hstatistic : a.statistic with
  | none =>
    by_cases hkind : kind ≠ .count
    · simp [hkind]
    · simp [hkind]
  | some b =>
    by_cases hkind : kind ≠ .count
    · simp [hkind]
    · simp [hkind]

omit [DecidableEq E] in
/-- One statistical call. -/
theorem withStatistic_spec {arguments : Arguments E Ty Value} {counts : Counts} {index : Nat}
    {stored : E} {a : BoundArgument Ty Value} {kind : StatisticKind} (isCount isSum : Bool)
    (hindex : arguments[index]? = some (stored, a))
    (hkind : kind = .count ∨ kind ≠ .count ∧
      (kind = .signed → binder.dataType a.expression.field.dataType = .int64) ∧
      (kind = .unsigned → binder.dataType a.expression.field.dataType = .uint64))
    (hsum : isSum = true → kind ≠ .count)
    (h : Addressed binder.dataType (arguments.map (·.2)) counts) :
    let r := statisticOfArgument a counts kind
    let b : BoundStatistic := { r.1 with
      countOutput := r.1.countOutput || isCount, sumOutput := r.1.sumOutput || isSum }
    let arguments' := arguments.set index (stored, { a with statistic := some b })
    Addressed binder.dataType (arguments'.map (·.2)) r.2 ∧ Extends arguments arguments' ∧
      ∃ a', (arguments'.map (·.2))[index]? = some a' ∧ a'.statistic = some b ∧
        (kind ≠ .count → b.kind ≠ .count) ∧ (isCount = true → b.countOutput = true) ∧
        (isSum = true → b.sumOutput = true) := by
  intro r b arguments'
  obtain ⟨hlayouts, hextrema, hset, hcases⟩ := statisticOfArgument_spec a counts kind
  have hsound := h.sound_at hindex
  have hcount : kind = .count → b.kind = .count ∨
      ∃ b₀, a.statistic = some b₀ ∧ b.kind = b₀.kind := by
    intro hkind
    rcases hcases with ⟨-, hb, -⟩ | ⟨b₀, hb₀, -, -, -, hsame, -⟩
    · left
      show r.1.kind = .count
      rw [show r.1 = _ from hb]
      exact hkind
    · right
      exact ⟨b₀, hb₀, hsame hkind⟩
  have hnumeric : kind ≠ .count → b.kind = kind := hset
  have hsound' : ({ a with statistic := some b } : BoundArgument Ty Value).Sound
      binder.dataType := by
    refine ⟨?_, ?_, ?_, hsound.extrema⟩
    · intro b' hb' hsigned
      cases hb'
      rcases hkind with hkind | ⟨hkind, htype, -⟩
      · rcases hcount hkind with hb | ⟨b₀, hb₀, hb⟩
        · rw [hb] at hsigned
          cases hsigned
        · exact hsound.signed b₀ hb₀ (hb ▸ hsigned)
      · exact htype ((hnumeric hkind).symm.trans hsigned)
    · intro b' hb' hunsigned
      cases hb'
      rcases hkind with hkind | ⟨hkind, -, htype⟩
      · rcases hcount hkind with hb | ⟨b₀, hb₀, hb⟩
        · rw [hb] at hunsigned
          cases hunsigned
        · exact hsound.unsigned b₀ hb₀ (hb ▸ hunsigned)
      · exact htype ((hnumeric hkind).symm.trans hunsigned)
    · intro b' hb' hsummed
      cases hb'
      by_cases hzero : kind = .count
      · have hnot : isSum = false := by
          cases isSum with
          | false => rfl
          | true => exact absurd hzero (hsum rfl)
        have hsummed : r.1.sumOutput = true := by simpa [b, hnot] using hsummed
        rcases hcases with ⟨-, hb, -⟩ | ⟨b₀, hb₀, -, -, hsame, hkeep, -⟩
        · rw [show r.1 = _ from hb] at hsummed
          cases hsummed
        · rw [show b.kind = b₀.kind from hkeep hzero]
          exact hsound.summed b₀ hb₀ (hsame ▸ hsummed)
      · rw [hnumeric hzero]
        exact hzero
  have hgrows : a.Grows { a with statistic := some b } := by
    refine ⟨rfl, ?_, fun x hx => ⟨x, hx, id, id⟩⟩
    intro b₀ hb₀
    rcases hcases with ⟨hnone, -, -⟩ | ⟨b₁, hb₁, -, hoc, hos, hkeep, -⟩
    · rw [hnone] at hb₀
      cases hb₀
    · rw [hb₁] at hb₀
      obtain rfl := Option.some.inj hb₀
      refine ⟨b, rfl, ?_, ?_, ?_⟩
      · intro hne
        by_cases hzero : kind = .count
        · rw [show b.kind = b₁.kind from hkeep hzero]
          exact hne
        · rw [hnumeric hzero]
          exact hzero
      · intro hc
        show (r.1.countOutput || isCount) = true
        rw [show r.1.countOutput = b₁.countOutput from hoc, hc, Bool.true_or]
      · intro hs
        show (r.1.sumOutput || isSum) = true
        rw [show r.1.sumOutput = b₁.sumOutput from hos, hs, Bool.true_or]
  refine ⟨h.set hindex hsound' ?_ (.inl ⟨.refl _, hlayouts⟩) (.inl ⟨.refl _, hextrema⟩),
    extends_set hindex hgrows, { a with statistic := some b }, ?_, rfl, ?_, ?_, ?_⟩
  · rcases hcases with ⟨hnone, hb, hn⟩ | ⟨b₀, hb₀, hi, -, -, -, hn⟩
    · right
      refine ⟨?_, hn⟩
      show ([b.index] : List Nat).Perm ([counts.statistics] ++ a.statistic.toList.map (·.index))
      rw [hnone, show b.index = counts.statistics from by rw [show b.index = r.1.index from rfl,
        show r.1 = _ from hb]]
      exact .refl _
    · left
      refine ⟨?_, hn⟩
      show ([b.index] : List Nat).Perm (a.statistic.toList.map (·.index))
      rw [hb₀, show b.index = b₀.index from hi]
      exact .refl _
  · exact getElem?_snd.mpr ⟨stored, List.getElem?_set_self (List.getElem?_eq_some_iff.mp hindex).1⟩
  · intro hne
    rw [hnumeric hne]
    exact hne
  · intro hc
    show (r.1.countOutput || isCount) = true
    rw [hc, Bool.or_true]
  · intro hs
    show (r.1.sumOutput || isSum) = true
    rw [hs, Bool.or_true]

/-- The partition and slots that a call configures. -/
theorem extremaOfArgument_spec (a : BoundArgument Ty Value) (counts : Counts) (isMin : Bool) :
    let r := extremaOfArgument a counts isMin
    let a' : BoundArgument Ty Value := { a with extrema := some r.1 }
    r.2.statistics = counts.statistics ∧
    (a'.partitionSlots.Perm a.partitionSlots ∧ r.2.layouts = counts.layouts ∨
      a'.partitionSlots.Perm ([counts.layouts] ++ a.partitionSlots) ∧
        r.2.layouts = counts.layouts + 1) ∧
    (a'.cacheSlots.Perm a.cacheSlots ∧ r.2.extrema = counts.extrema ∨
      a'.cacheSlots.Perm ([counts.extrema] ++ a.cacheSlots) ∧
        r.2.extrema = counts.extrema + 1) ∧
    (if isMin then r.1.minSlot ≠ none else r.1.maxSlot ≠ none) ∧
    ∀ x, a.extrema = some x → (x.minSlot ≠ none → r.1.minSlot ≠ none) ∧
      (x.maxSlot ≠ none → r.1.maxSlot ≠ none) := by
  unfold extremaOfArgument BoundArgument.partitionSlots BoundArgument.cacheSlots
  cases hextrema : a.extrema with
  | none => cases isMin <;> simp
  | some x =>
    obtain ⟨partition, minSlot, maxSlot⟩ := x
    cases isMin with
    | true =>
      cases minSlot with
      | none => simp
      | some slot => simp
    | false =>
      cases maxSlot with
      | none =>
        simp
      | some slot => simp

omit [DecidableEq E] in
/-- One extrema call. -/
theorem withExtrema_spec {arguments : Arguments E Ty Value} {counts : Counts} {index : Nat}
    {stored : E} {a : BoundArgument Ty Value} (isMin : Bool)
    (hindex : arguments[index]? = some (stored, a))
    (htype : indexable (binder.dataType a.expression.field.dataType) = true)
    (h : Addressed binder.dataType (arguments.map (·.2)) counts) :
    let r := extremaOfArgument a counts isMin
    let arguments' := arguments.set index (stored, { a with extrema := some r.1 })
    Addressed binder.dataType (arguments'.map (·.2)) r.2 ∧ Extends arguments arguments' ∧
      ∃ a', (arguments'.map (·.2))[index]? = some a' ∧ a'.extrema = some r.1 ∧
        if isMin then r.1.minSlot ≠ none else r.1.maxSlot ≠ none := by
  intro r arguments'
  obtain ⟨hstatistics, hlayouts, hextrema, hslot, hkeep⟩ := extremaOfArgument_spec a counts isMin
  have hsound := h.sound_at hindex
  have hslots : ({ a with extrema := some r.1 } : BoundArgument Ty Value).cacheSlots ≠ [] := by
    intro hnil
    have hnil : r.1.minSlot.toList ++ r.1.maxSlot.toList = [] := by
      simpa [BoundArgument.cacheSlots] using hnil
    obtain ⟨hmin, hmax⟩ := List.append_eq_nil_iff.mp hnil
    rw [Option.toList_eq_nil_iff] at hmin hmax
    have hslot : if isMin then r.1.minSlot ≠ none else r.1.maxSlot ≠ none := hslot
    split at hslot
    · exact hslot hmin
    · exact hslot hmax
  refine ⟨h.set hindex ⟨hsound.signed, hsound.unsigned, hsound.summed, ?_⟩
    (.inl ⟨.refl _, hstatistics⟩) hlayouts hextrema, extends_set hindex ⟨rfl, ?_, ?_⟩,
    { a with extrema := some r.1 }, ?_, rfl, hslot⟩
  · intro x hx
    cases hx
    exact ⟨htype, hslots⟩
  · exact fun b hb => ⟨b, hb, id, id, id⟩
  · intro x hx
    exact ⟨r.1, rfl, hkeep x hx⟩
  · exact getElem?_snd.mpr ⟨stored, List.getElem?_set_self (List.getElem?_eq_some_iff.mp hindex).1⟩

omit [DecidableEq E] in
/-- Configuring a call keeps the addresses unique and gives the call what it reads. -/
theorem configureCall_spec {call : AggregateCall Nat} {arguments arguments' : Arguments E Ty Value}
    {counts counts' : Counts} (h : Addressed binder.dataType (arguments.map (·.2)) counts)
    (hconfigure : configureCall binder call arguments counts = .ok (arguments', counts')) :
    Addressed binder.dataType (arguments'.map (·.2)) counts' ∧ Extends arguments arguments' ∧
      arguments'.length = arguments.length ∧ CallBound (arguments'.map (·.2)) call := by
  cases call with
  | countAll =>
    cases hconfigure
    exact ⟨h, .refl _, rfl, trivial⟩
  | count index =>
    simp only [configureCall] at hconfigure
    cases hindex : arguments[index]? with
    | none => rw [hindex] at hconfigure; cases hconfigure
    | some e =>
      obtain ⟨stored, a⟩ := e
      rw [hindex] at hconfigure
      obtain ⟨haddr, hext, a', ha', hb, -, hcount, -⟩ := withStatistic_spec true false hindex (.inl rfl) (fun h => by cases h) h
      cases hconfigure
      exact ⟨haddr, hext, List.length_set, a', _, ha', hb, hcount rfl⟩
  | sum index =>
    simp only [configureCall] at hconfigure
    cases hindex : arguments[index]? with
    | none => rw [hindex] at hconfigure; cases hconfigure
    | some e =>
      obtain ⟨stored, a⟩ := e
      simp only [hindex] at hconfigure
      cases hkind : numericKind "SUM" (binder.dataType a.expression.field.dataType) with
      | error e => rw [hkind] at hconfigure; cases hconfigure
      | ok kind =>
        rw [hkind] at hconfigure
        have hnumeric := numericKind_eq_ok hkind
        obtain ⟨haddr, hext, a', ha', hb, hne, -, hsum⟩ := withStatistic_spec false true hindex
          (.inr hnumeric) (fun _ => hnumeric.1) h
        cases hconfigure
        exact ⟨haddr, hext, List.length_set, a', _, ha', hb, hne hnumeric.1, hsum rfl⟩
  | avg index =>
    simp only [configureCall] at hconfigure
    cases hindex : arguments[index]? with
    | none => rw [hindex] at hconfigure; cases hconfigure
    | some e =>
      obtain ⟨stored, a⟩ := e
      simp only [hindex] at hconfigure
      cases hkind : numericKind "AVG" (binder.dataType a.expression.field.dataType) with
      | error e => rw [hkind] at hconfigure; cases hconfigure
      | ok kind =>
        rw [hkind] at hconfigure
        have hnumeric := numericKind_eq_ok hkind
        obtain ⟨haddr, hext, a', ha', hb, hne, -, -⟩ := withStatistic_spec false false hindex
          (.inr hnumeric) (fun h => by cases h) h
        cases hconfigure
        exact ⟨haddr, hext, List.length_set, a', _, ha', hb, hne hnumeric.1⟩
  | min index =>
    simp only [configureCall] at hconfigure
    cases hindex : arguments[index]? with
    | none => rw [hindex] at hconfigure; cases hconfigure
    | some e =>
      obtain ⟨stored, a⟩ := e
      simp only [hindex] at hconfigure
      split at hconfigure
      · cases hconfigure
      · next htype =>
        rw [not_not] at htype
        obtain ⟨haddr, hext, a', ha', hx, hmin⟩ := withExtrema_spec true hindex htype h
        cases hconfigure
        exact ⟨haddr, hext, List.length_set, a', _, ha', hx, hmin⟩
  | max index =>
    simp only [configureCall] at hconfigure
    cases hindex : arguments[index]? with
    | none => rw [hindex] at hconfigure; cases hconfigure
    | some e =>
      obtain ⟨stored, a⟩ := e
      simp only [hindex] at hconfigure
      split at hconfigure
      · cases hconfigure
      · next htype =>
        rw [not_not] at htype
        obtain ⟨haddr, hext, a', ha', hx, hmax⟩ := withExtrema_spec false hindex htype h
        cases hconfigure
        exact ⟨haddr, hext, List.length_set, a', _, ha', hx, hmax⟩

/-- Two calls of one kind, with related arguments. -/
inductive AggregateCall.Rel {E F : Type} (R : E → F → Prop) :
    AggregateCall E → AggregateCall F → Prop
  | countAll : Rel R .countAll .countAll
  | count {e : E} {f : F} : R e f → Rel R (.count e) (.count f)
  | sum {e : E} {f : F} : R e f → Rel R (.sum e) (.sum f)
  | avg {e : E} {f : F} : R e f → Rel R (.avg e) (.avg f)
  | min {e : E} {f : F} : R e f → Rel R (.min e) (.min f)
  | max {e : E} {f : F} : R e f → Rel R (.max e) (.max f)

omit [DecidableEq E] in
theorem AggregateCall.Rel.imp {F : Type} {R R' : E → F → Prop} (hR : ∀ e f, R e f → R' e f)
    {call : AggregateCall E} {call' : AggregateCall F} (h : AggregateCall.Rel R call call') :
    AggregateCall.Rel R' call call' := by
  cases h with
  | countAll => exact .countAll
  | count h => exact .count (hR _ _ h)
  | sum h => exact .sum (hR _ _ h)
  | avg h => exact .avg (hR _ _ h)
  | min h => exact .min (hR _ _ h)
  | max h => exact .max (hR _ _ h)

/-- An index names the argument that was bound from an expression. -/
def Names (arguments : Arguments E Ty Value) (stored : E) (index : Nat) : Prop :=
  ∃ a, arguments[index]? = some (stored, a)

/-- What holds of the arguments at every point of the compilation. -/
structure Compiled (binder : Binder E Ty Value) (arguments : Arguments E Ty Value)
    (counts : Counts) : Prop where
  addressed : Addressed binder.dataType (arguments.map (·.2)) counts
  bound : ∀ e ∈ arguments, binder.bind e.1 = .ok e.2.expression

omit [DecidableEq E] in
theorem Names.mono {arguments arguments' : Arguments E Ty Value} (h : Extends arguments arguments')
    {stored : E} {index : Nat} (hnames : Names arguments stored index) :
    Names arguments' stored index := by
  obtain ⟨a, ha⟩ := hnames
  obtain ⟨a', ha', -⟩ := h index stored a ha
  exact ⟨a', ha'⟩

theorem indexedArgument_spec {arguments arguments' : Arguments E Ty Value} {counts : Counts}
    {stored : E} {owner index : Nat} (h : Compiled binder arguments counts)
    (hindexed : indexedArgument binder arguments stored owner = .ok (index, arguments')) :
    Compiled binder arguments' counts ∧ Extends arguments arguments' ∧
      Names arguments' stored index := by
  unfold indexedArgument at hindexed
  cases hfind : arguments.findIdx? fun existing => existing.1 = stored with
  | some i =>
    rw [hfind] at hindexed
    cases hindexed
    obtain ⟨hi, hstored, -⟩ := List.findIdx?_eq_some_iff_getElem.mp hfind
    refine ⟨h, .refl _, arguments[index].2, ?_⟩
    rw [List.getElem?_eq_getElem hi, ← of_decide_eq_true hstored]
  | none =>
    rw [hfind] at hindexed
    cases hbind : binder.bind stored with
    | error e =>
      rw [hbind] at hindexed
      cases hindexed
    | ok expression =>
      rw [hbind] at hindexed
      cases hindexed
      refine ⟨⟨?_, ?_⟩, extends_append _ _, ⟨owner, expression, none, none⟩, by simp⟩
      · have haddr := h.addressed
        refine ⟨?_, ?_, ?_, ?_⟩
        · simpa [BoundArgument.statisticSlots] using haddr.statistics
        · simpa [BoundArgument.partitionSlots] using haddr.layouts
        · simpa [BoundArgument.cacheSlots] using haddr.extrema
        · intro a ha
          rw [List.map_append, List.mem_append] at ha
          rcases ha with ha | ha
          · exact haddr.sound a ha
          · rw [List.map_singleton, List.mem_singleton] at ha
            subst ha
            exact ⟨fun b hb => (by cases hb), fun b hb => (by cases hb), fun b hb => (by cases hb),
              fun x hx => (by cases hx)⟩
      · intro e he
        rcases List.mem_append.mp he with he | he
        · exact h.bound e he
        · rw [List.mem_singleton.mp he]
          exact hbind

theorem indexCall_spec {arguments arguments' : Arguments E Ty Value} {counts : Counts}
    {call : AggregateCall E} {call' : AggregateCall Nat} {owner : Nat}
    (h : Compiled binder arguments counts)
    (hcall : indexCall binder call arguments owner = .ok (call', arguments')) :
    Compiled binder arguments' counts ∧ Extends arguments arguments' ∧
      AggregateCall.Rel (Names arguments') call call' := by
  have hindexed : ∀ {stored : E} {make : Nat → AggregateCall Nat},
      (indexedArgument binder arguments stored owner).map (fun r => (make r.1, r.2)) =
        .ok (call', arguments') →
      ∃ index, Compiled binder arguments' counts ∧ Extends arguments arguments' ∧
        Names arguments' stored index ∧ call' = make index := by
    intro stored make hmap
    obtain ⟨⟨index, arguments₁⟩, hindexed, heq⟩ := map_eq_ok.mp hmap
    cases heq
    obtain ⟨hcompiled, hext, hnames⟩ := indexedArgument_spec h hindexed
    exact ⟨index, hcompiled, hext, hnames, rfl⟩
  cases call with
  | countAll =>
    cases hcall
    exact ⟨h, .refl _, .countAll⟩
  | count stored =>
    obtain ⟨index, hcompiled, hext, hnames, rfl⟩ := hindexed hcall
    exact ⟨hcompiled, hext, .count hnames⟩
  | sum stored =>
    obtain ⟨index, hcompiled, hext, hnames, rfl⟩ := hindexed hcall
    exact ⟨hcompiled, hext, .sum hnames⟩
  | avg stored =>
    obtain ⟨index, hcompiled, hext, hnames, rfl⟩ := hindexed hcall
    exact ⟨hcompiled, hext, .avg hnames⟩
  | min stored =>
    obtain ⟨index, hcompiled, hext, hnames, rfl⟩ := hindexed hcall
    exact ⟨hcompiled, hext, .min hnames⟩
  | max stored =>
    obtain ⟨index, hcompiled, hext, hnames, rfl⟩ := hindexed hcall
    exact ⟨hcompiled, hext, .max hnames⟩

omit [DecidableEq E] in
/-- Growing keeps what an argument was bound from. -/
theorem bound_of_extends {arguments arguments' : Arguments E Ty Value}
    (h : ∀ e ∈ arguments, binder.bind e.1 = .ok e.2.expression)
    (hext : Extends arguments arguments') (hlength : arguments'.length = arguments.length) :
    ∀ e ∈ arguments', binder.bind e.1 = .ok e.2.expression := by
  intro e he
  obtain ⟨i, hi, rfl⟩ := List.getElem_of_mem he
  have hi' : i < arguments.length := hlength ▸ hi
  obtain ⟨a', ha', hgrows⟩ := hext i arguments[i].1 arguments[i].2
    (List.getElem?_eq_getElem hi')
  rw [List.getElem?_eq_getElem hi] at ha'
  have heq := Option.some.inj ha'
  rw [heq, hgrows.expression]
  exact h _ (List.getElem_mem hi')

/-- The calls from an index on: what they name, and what they read. -/
theorem compileCalls_spec {calls : List (AggregateCall E)} {calls' : List (AggregateCall Nat)}
    {arguments arguments' : Arguments E Ty Value} {counts counts' : Counts} {owner : Nat}
    (h : Compiled binder arguments counts)
    (hcompile : compileCalls binder owner calls arguments counts =
      .ok (calls', arguments', counts')) :
    Compiled binder arguments' counts' ∧ Extends arguments arguments' ∧
      List.Forall₂ (AggregateCall.Rel (Names arguments')) calls calls' ∧
      ∀ call ∈ calls', CallBound (arguments'.map (·.2)) call := by
  induction calls generalizing calls' arguments counts owner with
  | nil =>
    cases hcompile
    exact ⟨h, .refl _, .nil, fun call hcall => by cases hcall⟩
  | cons call calls ih =>
    simp only [compileCalls] at hcompile
    cases hindex : indexCall binder call arguments owner with
    | error e => rw [hindex] at hcompile; cases hcompile
    | ok r =>
      obtain ⟨call₁, arguments₁⟩ := r
      simp only [hindex] at hcompile
      obtain ⟨hcompiled₁, hext₁, hrel⟩ := indexCall_spec h hindex
      cases hconfigure : configureCall binder call₁ arguments₁ counts with
      | error e => rw [hconfigure] at hcompile; cases hcompile
      | ok r =>
        obtain ⟨arguments₂, counts₂⟩ := r
        simp only [hconfigure] at hcompile
        obtain ⟨haddr₂, hext₂, hlength, hbound⟩ :=
          configureCall_spec hcompiled₁.addressed hconfigure
        obtain ⟨⟨rest, arguments₃, counts₃⟩, hrest, heq⟩ := map_eq_ok.mp hcompile
        cases heq
        obtain ⟨hcompiled, hext, hcalls, hreads⟩ :=
          ih ⟨haddr₂, bound_of_extends hcompiled₁.bound hext₂ hlength⟩ hrest
        have hlater := hext₂.trans hext
        refine ⟨hcompiled, hext₁.trans hlater, .cons ?_ hcalls, ?_⟩
        · exact hrel.imp fun _ _ hnames => hnames.mono hlater
        · intro c hc
          rcases List.mem_cons.mp hc with rfl | hc
          · exact hbound.mono hext
          · exact hreads c hc

omit [DecidableEq E] in
theorem bindGroups_spec {groups : List E} {expressions : List (BoundExpression Ty Value)}
    {group : Nat} (h : bindGroups binder group groups = .ok expressions) :
    List.Forall₂ (fun stored expression => binder.bind stored = .ok expression) groups
      expressions := by
  induction groups generalizing group expressions with
  | nil =>
    cases h
    exact .nil
  | cons stored groups ih =>
    simp only [bindGroups] at h
    cases hbind : binder.bind stored with
    | error e => rw [hbind] at h; cases h
    | ok expression =>
      simp only [hbind] at h
      split at h
      · cases h
      · obtain ⟨rest, hrest, rfl⟩ := map_eq_ok.mp h
        exact .cons hbind (ih hrest)

/-- What the runtime relies on. -/
structure AggregateLayout.WellFormed (dataType : Ty → DataType) (layout : AggregateLayout Ty Value) :
    Prop where
  addressed : Addressed dataType layout.arguments layout.counts
  calls : ∀ call ∈ layout.calls, CallBound layout.arguments call

/-- A compiled layout is well-formed, groups by the definition's expressions, and each of its calls
is the definition's call over an argument bound from the definition's expression. -/
theorem compileLayout_wellFormed {definition : AggregateDefinition E}
    {layout : AggregateLayout Ty Value} (h : compileLayout binder definition = .ok layout) :
    layout.WellFormed binder.dataType ∧
      List.Forall₂ (fun stored expression => binder.bind stored = .ok expression)
        (definition.groups.map (·.2)) layout.groupExpressions ∧
      List.Forall₂ (AggregateCall.Rel fun stored index => ∃ a, layout.arguments[index]? = some a ∧
        binder.bind stored = .ok a.expression) (definition.calls.map (·.2)) layout.calls := by
  unfold compileLayout at h
  obtain ⟨_, -, h⟩ := except_bind_eq_ok.mp h
  obtain ⟨groups, hgroups, h⟩ := except_bind_eq_ok.mp h
  obtain ⟨⟨calls, arguments, counts⟩, hcalls, h⟩ := except_bind_eq_ok.mp h
  cases h
  have hempty : Compiled binder [] ⟨0, 0, 0⟩ :=
    ⟨⟨.refl _, .refl _, .refl _, fun a ha => by cases ha⟩, fun e he => by cases he⟩
  obtain ⟨hcompiled, -, hrel, hreads⟩ := compileCalls_spec hempty hcalls
  refine ⟨⟨hcompiled.addressed, hreads⟩, bindGroups_spec hgroups, ?_⟩
  refine hrel.imp fun call call' hcall => hcall.imp ?_
  intro stored index hnames
  obtain ⟨a, ha⟩ := hnames
  exact ⟨a, getElem?_snd.mpr ⟨stored, ha⟩, hcompiled.bound _ (List.mem_of_getElem? ha)⟩

end WellFormed

end Dogpaddle.Aggregate
