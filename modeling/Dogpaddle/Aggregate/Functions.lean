import Dogpaddle.Aggregate.State
import Dogpaddle.Relation.Order

/-!
# Aggregate statistics

The tracked counts and sums of one aggregate argument (`Statistic`), how one signed
value changes them, and what they are worth.

* Arithmetic is that of the stored words: a count is a `u64`, a signed sum an `i128`,
  an unsigned sum a `u128`, and whatever leaves its word is an overflow.
* The average is a floating-point quotient; its bits are a parameter (`ratio`).
-/

namespace Dogpaddle.Aggregate

open Lib Dogpaddle.Relation

/-! ## Failures -/

/-- Failure during one aggregate page. -/
inductive AggregateError
  | budget
  | invalidInputPort (port : Nat)
  | inputSchemaMismatch
  | groupExpression (group : Nat) (source : OperationError)
  | aggregateExpression (aggregate : Nat) (source : OperationError)
  | groupWeightUnderflow
  | callWeightUnderflow
  | extremaWeightUnderflow
  | groupIdExhausted
  | arithmeticOverflow
  | invalidState
  | dataFusion (source : OperationError)
  | canonicalRow (source : RowError)
  | change
  /-- An index outside a vector, or an expectation that did not hold. -/
  | panicked
deriving DecidableEq, Repr

instance : RowFailure AggregateError where
  budgetExceeded := .budget
  ofRow := .canonicalRow

/-- The boxed form of an aggregate failure. -/
def AggregateError.boxed : AggregateError → OperationError
  | .budget => .budgetExceeded
  | .invalidInputPort port => .message s!"aggregate does not accept input port {port}"
  | .inputSchemaMismatch => .message "aggregate input Schema differs from its bound Schema"
  | .groupExpression group source =>
    .wrapped s!"aggregate group expression {group} evaluation failed" source
  | .aggregateExpression aggregate source =>
    .wrapped s!"aggregate call {aggregate} expression evaluation failed" source
  | .groupWeightUnderflow => .message "aggregate input would make a group row count negative"
  | .callWeightUnderflow =>
    .message "aggregate input would make an aggregate call's non-null count negative"
  | .extremaWeightUnderflow =>
    .message "aggregate input would make an extrema argument weight negative"
  | .groupIdExhausted => .message "aggregate group identifiers are exhausted"
  | .arithmeticOverflow => .message "aggregate arithmetic overflow"
  | .invalidState => .message "aggregate durable state is invalid"
  | .dataFusion source => source
  | .canonicalRow (.sizeLimit maxBytes) =>
    .message s!"canonical row exceeds its {maxBytes}-byte limit"
  | .canonicalRow .trailingBytes => .message "canonical row contains trailing bytes"
  | .canonicalRow (.invalidValue reason) => .message reason
  | .change => .message "a change cannot be empty"
  | .panicked => .message "a panic"

/-! ## Scalars -/

/-- A scalar of a column: one of an ordered type, or a value of another type. -/
inductive Scalar
  | ordered (value : ScalarValue)
  | other (dataType : String)
deriving DecidableEq

def Scalar.isNull : Scalar → Bool
  | .ordered value => value.isNull
  | .other _ => false

def Scalar.dataType : Scalar → DataType
  | .ordered value => value.dataType
  | .other dataType => .other dataType

/-- How the values of a row format are read as scalars; a scalar has the type of its
column, and exactly `NULL` is a null scalar. -/
structure ColumnView {Ty Value : Type} (fmt : RowFormat Ty Value) where
  dataType : Ty → DataType
  scalar : Ty → Value → Except OperationError Scalar
  scalar_isNull : ∀ ty value s, scalar ty value = .ok s → (s.isNull = true ↔ value = fmt.null)
  scalar_dataType : ∀ ty value s, scalar ty value = .ok s → s.dataType = dataType ty

/-- The result of one call. -/
inductive CallValue
  | scalar (value : ScalarValue)
  /-- A nullable double, by its bits. -/
  | float64 (bits : Option UInt64)
deriving DecidableEq

/-! ## Words -/

/-- Whether a difference underflows the rows of a group or the values of a call. -/
inductive TrackedWeight
  | group
  | call
deriving DecidableEq, Repr

def applyWeight (weight : UInt64) (difference : Int) (tracked : TrackedWeight) :
    Except AggregateError UInt64 :=
  if difference > 0 then
    if weight.toNat + difference.natAbs < 2 ^ 64 then
      .ok (UInt64.ofNat (weight.toNat + difference.natAbs))
    else .error .arithmeticOverflow
  else if difference.natAbs ≤ weight.toNat then
    .ok (UInt64.ofNat (weight.toNat - difference.natAbs))
  else .error (match tracked with
    | .group => .groupWeightUnderflow
    | .call => .callWeightUnderflow)

/-- `checked_add` on `i128`. -/
def addSigned (sum : BitVec 128) (delta : Int) : Except AggregateError (BitVec 128) :=
  if -2 ^ 127 ≤ sum.toInt + delta ∧ sum.toInt + delta < 2 ^ 127 then
    .ok (.ofInt 128 (sum.toInt + delta))
  else .error .arithmeticOverflow

/-- `checked_add` and `checked_sub` on `u128`. -/
def addUnsigned (sum : BitVec 128) (value : Nat) (difference : Int) :
    Except AggregateError (BitVec 128) :=
  let delta := value * difference.natAbs
  if difference > 0 then
    if sum.toNat + delta < 2 ^ 128 then .ok (.ofNat 128 (sum.toNat + delta))
    else .error .arithmeticOverflow
  else if delta ≤ sum.toNat then .ok (.ofNat 128 (sum.toNat - delta))
  else .error .arithmeticOverflow

/-- A count as a nullable `Int64`. -/
def countValue (count : UInt64) : Except AggregateError CallValue :=
  if count.toNat < 2 ^ 63 then .ok (.scalar (.int64 (.ofNat count.toNat)))
  else .error .arithmeticOverflow

/-! ## Statistics -/

inductive StatisticKind
  | count
  | signed
  | unsigned
deriving DecidableEq, Repr

def StatisticKind.empty : StatisticKind → Statistic
  | .count => .count 0
  | .signed => .signed 0 0
  | .unsigned => .unsigned 0 0

/-- Whether a stored statistic has a kind. -/
def StatisticKind.matches : StatisticKind → Statistic → Bool
  | .count, .count _ => true
  | .signed, .signed .. => true
  | .unsigned, .unsigned .. => true
  | _, _ => false

namespace Statistic

/-- Applies one signed value; a `NULL` changes nothing. -/
def apply (statistic : Statistic) (value : Scalar) (difference : Int) :
    Except AggregateError Statistic :=
  if value.isNull then .ok statistic
  else match statistic, value with
    | .count n, _ => do
      let n ← applyWeight n difference .call
      pure (.count n)
    | .signed n total, .ordered (.int64 value) => do
      let n ← applyWeight n difference .call
      let total ← addSigned total (value.toInt * difference)
      pure (.signed n total)
    | .unsigned n total, .ordered (.uint64 value) => do
      let n ← applyWeight n difference .call
      let total ← addUnsigned total value.toNat difference
      pure (.unsigned n total)
    | _, _ => .error .invalidState

def tracked : Statistic → UInt64
  | .count n => n
  | .signed n _ => n
  | .unsigned n _ => n

def isEmpty : Statistic → Bool
  | .count n => n == 0
  | .signed n total => n == 0 && total == 0
  | .unsigned n total => n == 0 && total == 0

def sum : Statistic → Except AggregateError CallValue
  | .signed n total =>
    if n = 0 then .ok (.scalar (.null .int64))
    else if -2 ^ 63 ≤ total.toInt ∧ total.toInt < 2 ^ 63 then
      .ok (.scalar (.int64 (.ofInt total.toInt)))
    else .error .arithmeticOverflow
  | .unsigned n total =>
    if n = 0 then .ok (.scalar (.null .uint64))
    else if total.toNat < 2 ^ 64 then .ok (.scalar (.uint64 (.ofNat total.toNat)))
    else .error .arithmeticOverflow
  | .count _ => .error .invalidState

/-- The average; `ratio` gives the bits of a sum and a count as a quotient of doubles. -/
def average (ratio : Int → UInt64 → UInt64) : Statistic → Except AggregateError CallValue
  | .signed n total =>
    .ok (.float64 (if n > 0 then some (ratio total.toInt n) else none))
  | .unsigned n total =>
    .ok (.float64 (if n > 0 then some (ratio total.toNat n) else none))
  | .count _ => .error .invalidState

end Statistic

/-! ## What the words stand for -/

/-- A statistic of a kind holds a count and a sum. -/
def StatisticKind.Holds : StatisticKind → Statistic → Int → Int → Prop
  | .count, .count n, values, _ => (n.toNat : Int) = values
  | .signed, .signed n total, values, sum => (n.toNat : Int) = values ∧ total.toInt = sum
  | .unsigned, .unsigned n total, values, sum =>
    (n.toNat : Int) = values ∧ (total.toNat : Int) = sum
  | _, _, _, _ => False

theorem applyWeight_eq_ok {weight after : UInt64} {difference : Int} {tracked : TrackedWeight}
    (h : applyWeight weight difference tracked = .ok after) :
    (after.toNat : Int) = weight.toNat + difference := by
  have hlt := weight.toNat_lt
  unfold applyWeight at h
  split at h
  · split at h
    · next hroom =>
      cases h
      rw [UInt64.toNat_ofNat', Nat.mod_eq_of_lt hroom]
      omega
    · cases h
  · split at h
    · cases h
      rw [UInt64.toNat_ofNat', Nat.mod_eq_of_lt (by omega)]
      omega
    · cases h

theorem addSigned_eq_ok {sum after : BitVec 128} {delta : Int}
    (h : addSigned sum delta = .ok after) : after.toInt = sum.toInt + delta := by
  unfold addSigned at h
  split at h
  · next hroom =>
    cases h
    rw [BitVec.toInt_ofInt]
    exact Int.bmod_eq_of_le (by omega) (by omega)
  · cases h

theorem addUnsigned_eq_ok {sum after : BitVec 128} {value : Nat} {difference : Int}
    (h : addUnsigned sum value difference = .ok after) :
    (after.toNat : Int) = sum.toNat + value * difference := by
  have hlt := sum.isLt
  unfold addUnsigned at h
  dsimp only at h
  split at h
  · next hpos =>
    split at h
    · next hroom =>
      cases h
      rw [BitVec.toNat_ofNat, Nat.mod_eq_of_lt hroom]
      have habs : (difference.natAbs : Int) = difference := by omega
      rw [Int.natCast_add, Int.natCast_mul, habs]
    · cases h
  · next hpos =>
    split at h
    · next hroom =>
      cases h
      rw [BitVec.toNat_ofNat, Nat.mod_eq_of_lt (by omega)]
      have habs : (difference.natAbs : Int) = -difference := by omega
      have hsub : ((sum.toNat - value * difference.natAbs : Nat) : Int) =
          sum.toNat - value * (difference.natAbs : Int) := by
        rw [Int.natCast_sub hroom, Int.natCast_mul]
      rw [hsub, habs, Int.mul_neg, Int.sub_neg]
    · cases h

/-- How much one value counts. -/
def Scalar.counted (value : Scalar) : Int := if value.isNull then 0 else 1

/-- How much one value adds to a sum of its kind. -/
def Scalar.summed : Scalar → Int
  | .ordered (.int64 value) => value.toInt
  | .ordered (.uint64 value) => value.toNat
  | _ => 0

theorem StatisticKind.holds_empty (kind : StatisticKind) : kind.Holds kind.empty 0 0 := by
  cases kind with
  | count => rfl
  | signed => exact ⟨rfl, rfl⟩
  | unsigned => exact ⟨rfl, rfl⟩

/-- One value adds its share to what a statistic holds. -/
theorem Statistic.apply_holds {kind : StatisticKind} {statistic after : Statistic}
    {value : Scalar} {difference count sum : Int} (hholds : kind.Holds statistic count sum)
    (h : statistic.apply value difference = .ok after) :
    kind.Holds after (count + value.counted * difference) (sum + value.summed * difference) := by
  unfold Statistic.apply at h
  unfold Scalar.counted
  split at h
  · next hnull =>
    cases h
    rw [if_pos hnull, zero_mul, add_zero]
    have hzero : value.summed = 0 := by
      cases value with
      | other => rfl
      | ordered value => cases value <;> first | rfl | cases hnull
    rw [hzero, zero_mul, add_zero]
    exact hholds
  · next hnull =>
    rw [if_neg hnull, one_mul]
    split at h
    · cases kind with
      | count =>
        obtain ⟨c, hc, h⟩ := except_bind_eq_ok.mp h
        cases h
        show ((c.toNat : Nat) : Int) = count + difference
        rw [applyWeight_eq_ok hc]
        exact congrArg (· + difference) hholds
      | signed => exact hholds.elim
      | unsigned => exact hholds.elim
    · cases kind with
      | signed =>
        obtain ⟨c, hc, h⟩ := except_bind_eq_ok.mp h
        obtain ⟨s, hs, h⟩ := except_bind_eq_ok.mp h
        cases h
        refine ⟨?_, ?_⟩
        · rw [applyWeight_eq_ok hc, hholds.1]
        · rw [addSigned_eq_ok hs, hholds.2]
          rfl
      | count => exact hholds.elim
      | unsigned => exact hholds.elim
    · cases kind with
      | unsigned =>
        obtain ⟨c, hc, h⟩ := except_bind_eq_ok.mp h
        obtain ⟨s, hs, h⟩ := except_bind_eq_ok.mp h
        cases h
        refine ⟨?_, ?_⟩
        · rw [applyWeight_eq_ok hc, hholds.1]
        · rw [addUnsigned_eq_ok hs, hholds.2]
          rfl
      | count => exact hholds.elim
      | signed => exact hholds.elim
    · cases h

/-- An empty statistic is the one its kind starts from. -/
theorem StatisticKind.Holds.eq_empty {kind : StatisticKind} {statistic : Statistic}
    {count sum : Int} (h : kind.Holds statistic count sum) (hempty : statistic.isEmpty = true) :
    statistic = kind.empty := by
  cases kind <;> cases statistic
  case count.count n =>
    rw [show n = 0 from beq_iff_eq.mp hempty]
    rfl
  case signed.signed n total =>
    obtain ⟨hn, htotal⟩ := (Bool.and_eq_true _ _).mp hempty
    rw [beq_iff_eq.mp hn, beq_iff_eq.mp htotal]
    rfl
  case unsigned.unsigned n total =>
    obtain ⟨hn, htotal⟩ := (Bool.and_eq_true _ _).mp hempty
    rw [beq_iff_eq.mp hn, beq_iff_eq.mp htotal]
    rfl
  all_goals exact h.elim

end Dogpaddle.Aggregate
