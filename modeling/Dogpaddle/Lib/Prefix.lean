import Dogpaddle.Lib.Bag

/-!
# Prefixes of signed sequences

A sequence of signed elements is read from the front; what a reader has seen after
`n` elements is the bag of a prefix. `Prefixes P l` says that every multiplicity of
every such bag satisfies `P`; with `0 ≤ ·` no element is ever retracted before it
is there.
-/

namespace Lib

variable {α : Type} [DecidableEq α]

/-- Every multiplicity of every prefix satisfies `P`. -/
def Prefixes (P : Int → Prop) (l : List (α × Int)) : Prop := ∀ n a, P (weight (l.take n) a)

namespace Prefixes

variable {P : Int → Prop} {l r : List (α × Int)}

theorem nil (h : P 0) : Prefixes P ([] : List (α × Int)) := by
  intro n a
  rw [List.take_nil]
  exact h

theorem imp {P' : Int → Prop} (h : Prefixes P l) (hP : ∀ d, P d → P' d) : Prefixes P' l :=
  fun n a => hP _ (h n a)

theorem whole (h : Prefixes P l) (a : α) : P (weight l a) := by
  have := h l.length a
  rwa [List.take_length] at this

theorem left (h : Prefixes P (l ++ r)) : Prefixes P l := by
  intro n a
  have := h (min n l.length) a
  rwa [List.take_append_of_le_length (Nat.min_le_right _ _), ← List.take_take,
    List.take_length] at this

/-- A sequence continues with elements that keep every multiplicity in `P`. -/
theorem append (h : Prefixes P l) (hr : ∀ n a, P (weight l a + weight (r.take n) a)) :
    Prefixes P (l ++ r) := by
  intro n a
  rw [List.take_append, weight_append]
  by_cases hn : n ≤ l.length
  · rw [Nat.sub_eq_zero_of_le hn, List.take_zero, weight_nil, add_zero]
    exact h n a
  · rw [List.take_of_length_le (Nat.le_of_not_le hn)]
    exact hr _ a

/-- One more element. -/
theorem concat (h : Prefixes P l) {e : α × Int} (he : P (weight l e.1 + e.2)) :
    Prefixes P (l ++ [e]) := by
  refine h.append ?_
  intro n a
  cases n with
  | zero =>
    rw [List.take_zero, weight_nil]
    simpa using h.whole a
  | succ n =>
    rw [List.take_succ_cons, List.take_nil, weight_singleton]
    by_cases ha : e.1 = a
    · rw [if_pos ha, ← ha]
      exact he
    · rw [if_neg ha, add_zero]
      exact h.whole a

end Prefixes

end Lib
