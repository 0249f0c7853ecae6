import Dogpaddle.AsOf.Order
import Dogpaddle.AsOf.Whole
import Dogpaddle.EquiJoin.Exact

/-!
# Page cuts are invisible

Both joins cut an input into pages at places that depend on the allowance of each step. The
pages of one event join up to the whole event, which is a function of the state it starts
from, so neither the events put out nor the stored data depend on the cuts.
-/

namespace Dogpaddle.Joins

open Lib Store Dogpaddle.Relation Dogpaddle.EquiJoin Dogpaddle.AsOf

variable {Ty Value Q : Type} [DecidableEq Value]

theorem equiJoin_handles_unique (op : EquiJoinOperation Ty Value) {port : Nat}
    {change : Change (Row Value)} {s s₁ s₂ : JoinState}
    {outputs outputs' : List (Option (Change (Row Value)))}
    (h : Handles (.paged op.paged : Operation JoinState Q (Row Value)) s (port, change) outputs s₁)
    (h' : Handles (.paged op.paged : Operation JoinState Q (Row Value)) s (port, change) outputs'
      s₂) :
    outputsEvents outputs = outputsEvents outputs' ∧ s₁ = s₂ :=
  (op.events_of_handlesAll (.single h)).unique (op.events_of_handlesAll (.single h'))

theorem asOfJoin_handles_unique (op : AsOfJoinOperation Ty Value) {port : Nat}
    {change : Change (Row Value)} {s s₁ s₂ : AsOfState}
    {outputs outputs' : List (Option (Change (Row Value)))}
    (h : Handles (.paged op.paged : Operation AsOfState Q (Row Value)) s (port, change) outputs s₁)
    (h' : Handles (.paged op.paged : Operation AsOfState Q (Row Value)) s (port, change) outputs'
      s₂) :
    outputsEvents outputs = outputsEvents outputs' ∧ s₁ = s₂ :=
  (op.events_of_handles h).unique (op.events_of_handles h')

/-- However the allowances cut an input into pages, both joins put out the same events in the
same order and leave the same stored rows, weights and match counts. -/
theorem joins_ignore_page_cuts (equiJoin : EquiJoinOperation Ty Value)
    (asOfJoin : AsOfJoinOperation Ty Value) (port : Nat) (change : Change (Row Value)) :
    (∀ (s : JoinState) outputs s₁ outputs' s₂,
      Handles (.paged equiJoin.paged : Operation JoinState Q (Row Value)) s (port, change)
        outputs s₁ →
      Handles (.paged equiJoin.paged : Operation JoinState Q (Row Value)) s (port, change)
        outputs' s₂ →
      outputsEvents outputs = outputsEvents outputs' ∧ s₁ = s₂) ∧
    (∀ (s : AsOfState) outputs s₁ outputs' s₂,
      Handles (.paged asOfJoin.paged : Operation AsOfState Q (Row Value)) s (port, change)
        outputs s₁ →
      Handles (.paged asOfJoin.paged : Operation AsOfState Q (Row Value)) s (port, change)
        outputs' s₂ →
      outputsEvents outputs = outputsEvents outputs' ∧ s₁ = s₂) := by
  constructor
  · intro s outputs s₁ outputs' s₂ h h'
    exact equiJoin_handles_unique equiJoin h h'
  · intro s outputs s₁ outputs' s₂ h h'
    exact asOfJoin_handles_unique asOfJoin h h'

/-! ## One right row against two left rows -/

/-- Two left rows of one partition. -/
def byteLefts : List (Nat × Change (Row (Option UInt8))) :=
  [byteInsert 0 (some 1) 8 0, byteInsert 0 (some 1) 9 0]

def byteRight : Nat × Change (Row (Option UInt8)) := byteInsert 1 (some 1) 7 0

/-- A right event that corrects two left rows, on two pages and on one. -/
theorem joins_ignore_page_cuts_bytes :
    ∃ s outputs s₁ outputs' s₂,
      Handles (.paged (byteAsOf (.backward true)).paged : Operation AsOfState Unit _) s byteRight
        outputs s₁ ∧ outputs.length = 2 ∧
      Handles (.paged (byteAsOf (.backward true)).paged : Operation AsOfState Unit _) s byteRight
        outputs' s₂ ∧ outputs'.length = 1 ∧
      outputsEvents outputs = outputsEvents outputs' ∧ s₁ = s₂ := by
  have hlefts : (runInputs (.paged (byteAsOf (.backward true)).paged : Operation AsOfState Unit _)
      ⟨1, 4096⟩ 4 AsOfState.initial byteLefts).isSome = true := by
    decide +kernel
  obtain ⟨⟨lefts, s⟩, hs⟩ := Option.isSome_iff_exists.mp hlefts
  have hcut : ((runInputs (.paged (byteAsOf (.backward true)).paged : Operation AsOfState Unit _)
      ⟨1, 4096⟩ 4 AsOfState.initial byteLefts).bind fun r =>
        (runInput (.paged (byteAsOf (.backward true)).paged : Operation AsOfState Unit _) ⟨1, 4096⟩
          4 r.2 byteRight).map fun r => r.1.length) = some 2 := by
    decide +kernel
  have hwhole : ((runInputs (.paged (byteAsOf (.backward true)).paged : Operation AsOfState Unit _)
      ⟨1, 4096⟩ 4 AsOfState.initial byteLefts).bind fun r =>
        (runInput (.paged (byteAsOf (.backward true)).paged : Operation AsOfState Unit _) ⟨8, 4096⟩
          4 r.2 byteRight).map fun r => r.1.length) = some 1 := by
    decide +kernel
  rw [hs, Option.bind_some] at hcut hwhole
  obtain ⟨⟨outputs, s₁⟩, hrun, hlength⟩ := Option.map_eq_some_iff.mp hcut
  obtain ⟨⟨outputs', s₂⟩, hrun', hlength'⟩ := Option.map_eq_some_iff.mp hwhole
  have h := handles_of_runInput hrun
  have h' := handles_of_runInput hrun'
  exact ⟨s, outputs, s₁, outputs', s₂, h, hlength, h', hlength',
    (joins_ignore_page_cuts (byteJoin .inner none) (byteAsOf (.backward true)) _ _).2 _ _ _ _ _
      h h'⟩

end Dogpaddle.Joins
