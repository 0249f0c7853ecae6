import Dogpaddle.Lib.Machine

/-!
# Pure descriptions of stateful computations

`Mirrors Hard x s y Q`: from `s`, the computation `x` does what the pure `y` does.

* Where `x` succeeds, `y` succeeds, and `Q` relates the results and the state left.
* Where `x` fails hard, `y` fails with the same error. Failures outside `Hard` are
  those the pure description knows nothing of.

There is one rule per statement: one for a statement that both sides have, and one
for a statement that only the stateful side has.
-/

namespace Lib

variable {ε σ α β γ δ : Type}

/-- From `s`, `x` does what `y` does, up to failures that are not hard. -/
structure Mirrors (Hard : ε → Prop) (x : EStateM ε σ α) (s : σ) (y : Except ε β)
    (Q : α → σ → β → Prop) : Prop where
  ok : ∀ a t, x s = .ok a t → ∃ b, y = .ok b ∧ Q a t b
  error : ∀ e t, x s = .error e t → Hard e → y = .error e

namespace Mirrors

variable {Hard : ε → Prop} {s : σ} {Q Q' : α → σ → β → Prop} {R : γ → σ → δ → Prop}

theorem weaken {x : EStateM ε σ α} {y : Except ε β} (h : Mirrors Hard x s y Q)
    (hQ : ∀ a t b, Q a t b → Q' a t b) : Mirrors Hard x s y Q' where
  ok := by
    intro a t hx
    obtain ⟨b, hb, hq⟩ := h.ok a t hx
    exact ⟨b, hb, hQ a t b hq⟩
  error := h.error

/-! ## Ends -/

theorem pure {a : α} {b : β} (h : Q a s b) : Mirrors Hard (pure a) s (.ok b) Q where
  ok := by
    intro a' t hx
    obtain ⟨rfl, rfl⟩ := pure_eq_ok.mp hx
    exact ⟨b, rfl, h⟩
  error := fun e t hx => by cases hx

theorem throw (e : ε) : Mirrors Hard (throw e) s (.error e) Q where
  ok := fun a t hx => (throw_eq_ok.mp hx).elim
  error := by
    intro e' t hx _
    cases hx
    rfl

/-- A computation that never succeeds, and fails hard as the description does. -/
theorem fails {x : EStateM ε σ α} {e : ε} {y : Except ε β} (hne : ∀ a t, x s ≠ .ok a t)
    (h : Raises (fun e' => ¬ Hard e' ∨ e' = e) x s) (hy : y = .error e) : Mirrors Hard x s y Q where
  ok := fun a t hx => absurd hx (hne a t)
  error := by
    intro e' t hx hard
    rcases h e' t hx with hsoft | rfl
    · exact absurd hard hsoft
    · exact hy

theorem soft_throw {e : ε} {y : Except ε β} (h : ¬ Hard e) :
    Mirrors Hard (MonadExcept.throw e) s y Q where
  ok := fun a t hx => (throw_eq_ok.mp hx).elim
  error := by
    intro e' t hx hard
    cases hx
    exact absurd hard h

theorem ofExcept (x : Except ε α) :
    Mirrors Hard (MonadExcept.ofExcept x : EStateM ε σ α) s x fun a t b => a = b ∧ t = s where
  ok := by
    intro a t hx
    obtain ⟨hy, rfl⟩ := ofExcept_eq_ok.mp hx
    exact ⟨a, hy, rfl, rfl⟩
  error := by
    intro e t hx _
    cases hy : x with
    | ok a => rw [hy] at hx; cases hx
    | error e' =>
      rw [hy] at hx
      cases hx
      rfl

/-! ## Statements -/

theorem bind {x : EStateM ε σ α} {y : Except ε β} {f : α → EStateM ε σ γ} {g : β → Except ε δ}
    (h : Mirrors Hard x s y Q) (hf : ∀ a t b, Q a t b → Mirrors Hard (f a) t (g b) R) :
    Mirrors Hard (x >>= f) s (y >>= g) R where
  ok := by
    intro c u hx
    obtain ⟨a, t, hx, hrest⟩ := bind_eq_ok.mp hx
    obtain ⟨b, rfl, hq⟩ := h.ok a t hx
    exact (hf a t b hq).ok c u hrest
  error := by
    intro e u hx hard
    cases hfirst : x s with
    | error e' t =>
      rw [bind_of_error hfirst] at hx
      cases hx
      rw [h.error _ _ hfirst hard]
      rfl
    | ok a t =>
      rw [bind_of_ok hfirst] at hx
      obtain ⟨b, rfl, hq⟩ := h.ok a t hfirst
      exact (hf a t b hq).error e u hx hard

/-- A statement the description does not have: its failures are soft. -/
theorem soft_bind {x : EStateM ε σ α} {f : α → EStateM ε σ γ} {z : Except ε δ}
    (hsoft : Raises (fun e => ¬ Hard e) x s)
    (hf : ∀ a t, x s = .ok a t → Mirrors Hard (f a) t z R) : Mirrors Hard (x >>= f) s z R where
  ok := by
    intro c u hx
    obtain ⟨a, t, hx, hrest⟩ := bind_eq_ok.mp hx
    exact (hf a t hx).ok c u hrest
  error := by
    intro e u hx hard
    cases hfirst : x s with
    | error e' t =>
      rw [bind_of_error hfirst] at hx
      cases hx
      exact absurd hard (hsoft _ _ hfirst)
    | ok a t =>
      rw [bind_of_ok hfirst] at hx
      exact (hf a t hfirst).error e u hx hard

/-- What follows the description: it is soft and gives what the description gave. -/
theorem bind_soft {x : EStateM ε σ α} {y : Except ε β} {f : α → EStateM ε σ γ} {R : γ → σ → β → Prop}
    (h : Mirrors Hard x s y Q) (hf : ∀ a t b, Q a t b → Mirrors Hard (f a) t (.ok b) R) :
    Mirrors Hard (x >>= f) s y R := by
  have hy : y = y >>= .ok := by cases y <;> rfl
  rw [hy]
  exact h.bind hf

/-- A soft computation whose results are known. -/
theorem of_soft {x : EStateM ε σ α} {b : β} (hsoft : Raises (fun e => ¬ Hard e) x s)
    (hok : ∀ a t, x s = .ok a t → Q a t b) : Mirrors Hard x s (.ok b) Q where
  ok := fun a t hx => ⟨b, rfl, hok a t hx⟩
  error := fun e t hx hard => absurd hard (hsoft e t hx)

theorem get {f : σ → EStateM ε σ γ} {z : Except ε δ} (h : Mirrors Hard (f s) s z R) :
    Mirrors Hard (get >>= f) s z R := ⟨h.ok, h.error⟩

theorem modify_bind {g : σ → σ} {f : PUnit → EStateM ε σ γ} {z : Except ε δ}
    (h : Mirrors Hard (f ⟨⟩) (g s) z R) :
    Mirrors Hard ((modifyThe σ g : EStateM ε σ PUnit) >>= f) s z R := ⟨h.ok, h.error⟩

theorem ofExcept_bind {x : Except ε α} {f : α → EStateM ε σ γ} {g : α → Except ε δ}
    (h : ∀ a, x = .ok a → Mirrors Hard (f a) s (g a) R) :
    Mirrors Hard (MonadExcept.ofExcept x >>= f) s (x >>= g) R := by
  cases hx : x with
  | ok a => exact ⟨(h a hx).ok, (h a hx).error⟩
  | error e =>
    refine ⟨fun c u hc => (by cases hc), ?_⟩
    intro e' u he _
    cases he
    rfl

theorem ite {c : Prop} [Decidable c] {x x' : EStateM ε σ α} {y y' : Except ε β}
    (hx : c → Mirrors Hard x s y Q) (hx' : ¬ c → Mirrors Hard x' s y' Q) :
    Mirrors Hard (if c then x else x') s (if c then y else y') Q := by
  by_cases h : c
  · rw [if_pos h, if_pos h]
    exact hx h
  · rw [if_neg h, if_neg h]
    exact hx' h

end Mirrors

/-! ## Loops -/

/-- A loop body that mirrors the steps of a machine computes it. -/
theorem Computes.of_mirrors {κ : Type} {m : Machine γ α β ε} {Hard : ε → Prop}
    {Rel : List α → List α → κ → σ → γ → List β → Prop} {body : κ → α → List α → EStateM ε σ κ}
    (h : ∀ done rest k t s out a, Rel done (a :: rest) k t s out →
      Mirrors Hard (body k a rest) t (m.step s a)
        fun k' t' r => Rel (done ++ [a]) rest k' t' r.2 (out ++ r.1)) :
    Computes m Hard Rel body where
  ok := by
    intro done rest k k' t t' s out a hrel hbody
    obtain ⟨⟨more, s'⟩, hstep, hrel'⟩ := (h done rest k t s out a hrel).ok k' t' hbody
    exact ⟨more, s', hstep, hrel'⟩
  error := by
    intro done rest k t t' s out a e hrel hbody hard
    exact (h done rest k t s out a hrel).error e t' hbody hard

end Lib
