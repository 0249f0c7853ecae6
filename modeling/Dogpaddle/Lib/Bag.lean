import Mathlib.Algebra.BigOperators.Group.List.Basic
import Mathlib.Algebra.Group.Pi.Basic
import Mathlib.Algebra.BigOperators.Finprod
import Mathlib.Algebra.Ring.Int.Defs
import Mathlib.Algebra.Ring.Nat

/-!
# Signed bags

A bag gives every element a signed multiplicity. `weight` is the bag a list of
signed elements adds up to; it turns concatenation into addition, so the order
and the cuts of a change sequence do not matter to it. `push` is the image of a bag
under a function, which adds up the elements that become equal.
-/

namespace Lib

/-- A signed multiplicity for every element. -/
abbrev Bag (α : Type) := α → Int

variable {α : Type} [DecidableEq α]

/-- The bag a list of signed elements adds up to. -/
def weight (l : List (α × Int)) : Bag α := fun a => (l.map fun e => if e.1 = a then e.2 else 0).sum

@[simp] theorem weight_nil : weight ([] : List (α × Int)) = 0 := rfl

@[simp] theorem weight_append (l r : List (α × Int)) : weight (l ++ r) = weight l + weight r := by
  funext a
  simp [weight]

theorem weight_cons (e : α × Int) (l : List (α × Int)) : weight (e :: l) = weight [e] + weight l :=
  weight_append [e] l

/-- A list splits into a window and the rest. -/
theorem weight_take_add_drop (l : List (α × Int)) (n : Nat) :
    weight (l.take n) + weight (l.drop n) = weight l := by
  rw [← weight_append, List.take_append_drop]

@[simp] theorem weight_singleton (a b : α) (d : Int) :
    weight [(a, d)] b = if a = b then d else 0 := by
  simp [weight]

theorem weight_cons_apply (e : α × Int) (l : List (α × Int)) (a : α) :
    weight (e :: l) a = (if e.1 = a then e.2 else 0) + weight l a := by
  simp [weight]

/-- An element that does not occur has no weight. -/
theorem weight_eq_zero {l : List (α × Int)} {a : α} (h : a ∉ l.map (·.1)) : weight l a = 0 := by
  induction l with
  | nil => rfl
  | cons e l ih =>
    rw [weight_cons_apply, ih fun h' => h (by simp [h']), if_neg fun h' => h (by simp [h'])]
    rfl

/-- A list flattened by an element: only the elements that touch it count. -/
theorem weight_flatMap {β : Type} (l : List β) (f : β → List (α × Int)) (a : α) :
    weight (l.flatMap f) a = (l.map fun b => weight (f b) a).sum := by
  induction l with
  | nil => rfl
  | cons b l ih => simp [List.flatMap_cons, ih]

/-! ## Images -/

section Push

variable {β : Type} [DecidableEq β]

/-- The image of a bag under a function. -/
noncomputable def push (f : α → β) (b : Bag α) : Bag β :=
  fun y => finsum fun x => if f x = y then b x else 0

theorem finite_support_weight (l : List (α × Int)) : (Function.support (weight l)).Finite := by
  refine (l.map (·.1)).finite_toSet.subset fun a ha => ?_
  by_contra h
  exact ha (weight_eq_zero h)

/-- The image of what a list adds up to is what its image adds up to. -/
theorem push_weight (f : α → β) (l : List (α × Int)) :
    push f (weight l) = weight (l.map fun e => (f e.1, e.2)) := by
  funext y
  have hfinite : ∀ l : List (α × Int),
      (Function.support fun x => if f x = y then weight l x else 0).Finite := by
    intro l
    refine (finite_support_weight l).subset fun x hx hzero => hx ?_
    simp [hzero]
  induction l with
  | nil => simp [push]
  | cons e l ih =>
    have hsplit : (fun x => if f x = y then weight (e :: l) x else 0) =
        fun x => (if f x = y then weight [e] x else 0) + if f x = y then weight l x else 0 := by
      funext x
      rw [weight_cons]
      split <;> simp
    have hsingle : (finsum fun x => if f x = y then weight [e] x else 0) =
        if f e.1 = y then e.2 else 0 := by
      have hx : ∀ x, x ≠ e.1 → (if f x = y then weight [e] x else 0) = 0 := by
        intro x hx
        rw [weight_eq_zero (by simpa using hx), ite_self]
      rw [finsum_eq_single _ e.1 hx, weight_cons_apply]
      simp
    show (finsum fun x => if f x = y then weight (e :: l) x else 0) = _
    rw [hsplit, finsum_add_distrib (hfinite [e]) (hfinite l), hsingle, List.map_cons,
      weight_cons_apply, ← ih]
    rfl

end Push

end Lib
