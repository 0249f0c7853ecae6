import Mathlib.Order.RelClasses

/-!
# Nearest elements

Elements carry a value of a total order, seen from one side: `lt o o'` says that `o'` is the
nearer of two values below a point. A `Winner` of a point is the one element whose value is
nearest to it, if any element is below it at all.

* `Winner.unique`: a point has at most one winner;
* `winner_of_sole`, `winner_of_next`: the winner is read off the elements of one value, or of
  the next value further away where there are none;
* `Winner.congr`: an element that is not below the point, or that another one hides, does not
  count.
-/

namespace Lib

variable {α β : Type}

/-- A value below a point, or at it where that is allowed. -/
def Below (lt : α → α → Prop) (exact : Bool) (o a : α) : Prop := lt o a ∨ exact = true ∧ o = a

/-- An element below a point that no other one is nearer than. -/
structure Nearest (lt : α → α → Prop) (exact : Bool) (P : β → Prop) (order : β → α) (a : α)
    (b : β) : Prop where
  mem : P b
  below : Below lt exact (order b) a
  least : ∀ b', P b' → Below lt exact (order b') a → ¬ lt (order b) (order b')

/-- The only nearest element, or that there is none below the point. -/
def Winner (lt : α → α → Prop) (exact : Bool) (P : β → Prop) (order : β → α) (a : α) :
    Option β → Prop
  | none => ∀ b, P b → ¬ Below lt exact (order b) a
  | some b => Nearest lt exact P order a b ∧ ∀ b', Nearest lt exact P order a b' → b' = b

/-- The only element of a value, or that there is none. -/
def Sole (P : β → Prop) (order : β → α) (o : α) : Option β → Prop
  | none => ∀ b, P b → order b ≠ o
  | some b => P b ∧ order b = o ∧ ∀ b', P b' → order b' = o → b' = b

theorem Sole.congr {P P' : β → Prop} {order : β → α} {o : α} {w : Option β}
    (h : Sole P order o w) (hsame : ∀ b, order b = o → (P b ↔ P' b)) : Sole P' order o w := by
  cases w with
  | none =>
    intro b hb horder
    exact h b ((hsame b horder).mpr hb) horder
  | some b =>
    obtain ⟨hb, horder, honly⟩ := h
    refine ⟨(hsame b horder).mp hb, horder, ?_⟩
    intro b' hb' horder'
    exact honly b' ((hsame b' horder').mpr hb') horder'

section Order

variable {lt : α → α → Prop} [IsStrictTotalOrder α lt] {exact : Bool} {P P' : β → Prop}
  {order : β → α} {a o : α} {w w' : Option β}

omit [IsStrictTotalOrder α lt] in
theorem Winner.unique (h : Winner lt exact P order a w) (h' : Winner lt exact P order a w') :
    w = w' := by
  cases w with
  | none =>
    cases w' with
    | none => rfl
    | some b => exact absurd h'.1.below (h b h'.1.mem)
  | some b =>
    cases w' with
    | none => exact absurd h.1.below (h' b h.1.mem)
    | some b' => exact congrArg some (h'.2 b h.1)

/-- Whatever is further than a value below the point is below the point. -/
theorem Below.of_lt (h : Below lt exact o a) {o' : α} (hlt : lt o' o) : Below lt exact o' a := by
  rcases h with h | ⟨_, rfl⟩
  · exact .inl (trans_of lt hlt h)
  · exact .inl hlt

/-- Where no element below the point is nearer than a value, the only one at it wins. -/
theorem winner_of_sole {b : β} (hbelow : Below lt exact o a)
    (hgap : ∀ b, P b → Below lt exact (order b) a → ¬ lt o (order b))
    (hsole : Sole P order o (some b)) : Winner lt exact P order a (some b) := by
  obtain ⟨hmem, horder, honly⟩ := hsole
  refine ⟨⟨hmem, by rw [horder]; exact hbelow, ?_⟩, ?_⟩
  · intro b' hb' hbelow'
    rw [horder]
    exact hgap b' hb' hbelow'
  · intro b' hb'
    apply honly b' hb'.mem
    -- neither of the two is nearer than the other
    rcases trichotomous_of lt o (order b') with hlt | heq | hgt
    · exact absurd hlt (hgap b' hb'.mem hb'.below)
    · exact heq.symm
    · have := hb'.least b hmem (by rw [horder]; exact hbelow)
      rw [horder] at this
      exact absurd hgt this

/-- Where there is no element at the value either, the next value further away decides. -/
theorem winner_of_next {next : Option α} (hbelow : Below lt exact o a)
    (hgap : ∀ b, P b → Below lt exact (order b) a → ¬ lt o (order b))
    (hempty : Sole P order o none)
    (hnext : ∀ b, P b → lt (order b) o → ∃ q, next = some q ∧ ¬ lt q (order b))
    (hfurther : ∀ q, next = some q → lt q o)
    (hsole : ∀ q, next = some q → Sole P order q w) (hnone : next = none → w = none)
    (hfound : next ≠ none → w ≠ none) : Winner lt exact P order a w := by
  have hlower : ∀ b, P b → Below lt exact (order b) a → lt (order b) o := by
    intro b hb hb'
    rcases trichotomous_of lt (order b) o with hlt | heq | hgt
    · exact hlt
    · exact absurd heq (hempty b hb)
    · exact absurd hgt (hgap b hb hb')
  cases hq : next with
  | none =>
    rw [hnone hq]
    intro b hb hb'
    obtain ⟨q, hsome, -⟩ := hnext b hb (hlower b hb hb')
    rw [hq] at hsome
    cases hsome
  | some q =>
    cases w with
    | none => exact absurd rfl (hfound (by rw [hq]; simp))
    | some b =>
      refine winner_of_sole (hbelow.of_lt (hfurther q hq)) ?_ (hsole q hq)
      intro b' hb' hbelow'
      obtain ⟨q', hsome, hnot⟩ := hnext b' hb' (hlower b' hb' hbelow')
      rw [hq] at hsome
      cases hsome
      exact hnot

/-- Two sets of elements that differ in one only have the same winner when that one is not
below the point, or another one of both sets is nearer. -/
theorem Winner.congr {r : β} (hsame : ∀ b, b ≠ r → (P b ↔ P' b))
    (hr : ¬ Below lt exact (order r) a ∨
      ∃ b, P b ∧ P' b ∧ Below lt exact (order b) a ∧ lt (order r) (order b))
    (h : Winner lt exact P order a w) : Winner lt exact P' order a w := by
  -- what wins among one set is not the differing element, and wins among the other
  have hnearest : ∀ {P P' : β → Prop}, (∀ b, b ≠ r → (P b ↔ P' b)) →
      (¬ Below lt exact (order r) a ∨
        ∃ b, P b ∧ P' b ∧ Below lt exact (order b) a ∧ lt (order r) (order b)) →
      ∀ b, Nearest lt exact P order a b → Nearest lt exact P' order a b := by
    intro P P' hsame hr b hb
    have hne : b ≠ r := by
      intro heq
      subst heq
      rcases hr with hr | ⟨b', hb', -, hbelow', hlt⟩
      · exact hr hb.below
      · exact hb.least b' hb' hbelow' hlt
    refine ⟨(hsame b hne).mp hb.mem, hb.below, ?_⟩
    intro b' hb' hbelow' hlt
    by_cases heq : b' = r
    · subst heq
      rcases hr with hr | ⟨b'', hb'', -, hbelow'', hlt'⟩
      · exact hr hbelow'
      · exact hb.least b'' hb'' hbelow'' (trans_of lt hlt hlt')
    · exact hb.least b' ((hsame b' heq).mpr hb') hbelow' hlt
  have hback : ¬ Below lt exact (order r) a ∨
      ∃ b, P' b ∧ P b ∧ Below lt exact (order b) a ∧ lt (order r) (order b) := by
    rcases hr with hr | ⟨b, hb, hb', hbelow, hlt⟩
    · exact .inl hr
    · exact .inr ⟨b, hb', hb, hbelow, hlt⟩
  cases w with
  | none =>
    intro b hb hbelow
    by_cases heq : b = r
    · subst heq
      rcases hr with hr | ⟨b', hb', -, hbelow', -⟩
      · exact hr hbelow
      · exact h b' hb' hbelow'
    · exact h b ((hsame b heq).mpr hb) hbelow
  | some b =>
    refine ⟨hnearest hsame hr b h.1, ?_⟩
    intro b' hb'
    exact h.2 b' (hnearest (fun b hb => (hsame b hb).symm) hback b' hb')

end Order

end Lib
