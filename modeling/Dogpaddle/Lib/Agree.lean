import Dogpaddle.Lib.Attempt

/-!
# Two runs side by side

`Agree P x y Q`: started in states related by `P`, `x` and `y` both succeed with one value, in
states related by `Q`, or both fail with one error. One rule per statement, as for triples.
-/

namespace Lib

variable {ε σ τ α β : Type}

/-- Two computations give the same value or the same error. -/
def Agree (P : σ → τ → Prop) (x : EStateM ε σ α) (y : EStateM ε τ α) (Q : α → σ → τ → Prop) :
    Prop :=
  ∀ s t, P s t → match x s, y t with
    | .ok a s', .ok b t' => a = b ∧ Q a s' t'
    | .error e _, .error f _ => e = f
    | _, _ => False

namespace Agree

variable {P P' : σ → τ → Prop} {Q : α → σ → τ → Prop} {R : β → σ → τ → Prop}

theorem pure (a : α) (h : ∀ s t, P s t → Q a s t) :
    Agree P (pure a : EStateM ε σ α) (pure a : EStateM ε τ α) Q :=
  fun s t hst => ⟨rfl, h s t hst⟩

theorem throw (e : ε) : Agree P (throw e : EStateM ε σ α) (throw e : EStateM ε τ α) Q :=
  fun _ _ _ => rfl

theorem bind {x : EStateM ε σ α} {y : EStateM ε τ α} {f : α → EStateM ε σ β}
    {g : α → EStateM ε τ β} (hx : Agree P x y Q) (hf : ∀ a, Agree (Q a) (f a) (g a) R) :
    Agree P (x >>= f) (y >>= g) R := by
  intro s t hst
  have h := hx s t hst
  cases hxs : x s with
  | ok a s' =>
    cases hyt : y t with
    | ok b t' =>
      rw [hxs, hyt] at h
      obtain ⟨rfl, hQ⟩ := h
      rw [bind_of_ok hxs, bind_of_ok hyt]
      exact hf a s' t' hQ
    | error e t' =>
      rw [hxs, hyt] at h
      exact h.elim
  | error e s' =>
    cases hyt : y t with
    | ok b t' =>
      rw [hxs, hyt] at h
      exact h.elim
    | error f t' =>
      rw [hxs, hyt] at h
      rw [bind_of_error hxs, bind_of_error hyt]
      exact h

/-- Reading the states: what follows may assume that they are those read. -/
theorem get {f : σ → EStateM ε σ β} {g : τ → EStateM ε τ β}
    (h : ∀ s t, P s t → Agree (fun s' t' => s' = s ∧ t' = t) (f s) (g t) R) :
    Agree P (get >>= f) (get >>= g) R :=
  fun s t hst => h s t hst s t ⟨rfl, rfl⟩

/-- After two writes, the states are those written. -/
theorem set_bind {s' : σ} {t' : τ} {f : PUnit → EStateM ε σ β} {g : PUnit → EStateM ε τ β}
    (h : Agree (fun s t => s = s' ∧ t = t') (f ⟨⟩) (g ⟨⟩) R) :
    Agree P (MonadStateOf.set s' >>= f) (MonadStateOf.set t' >>= g) R :=
  fun _ _ _ => h s' t' ⟨rfl, rfl⟩

theorem set {K : PUnit → σ → τ → Prop} {s' : σ} {t' : τ} (h : K ⟨⟩ s' t') :
    Agree P (set s' : EStateM ε σ PUnit) (set t' : EStateM ε τ PUnit) K :=
  fun _ _ _ => ⟨rfl, h⟩

theorem modify {K : PUnit → σ → τ → Prop} {f : σ → σ} {g : τ → τ}
    (h : ∀ s t, P s t → K ⟨⟩ (f s) (g t)) :
    Agree P (modify f : EStateM ε σ PUnit) (modify g : EStateM ε τ PUnit) K :=
  fun s t hst => ⟨rfl, h s t hst⟩

theorem ofExcept_bind {x : Except ε α} {f : α → EStateM ε σ β} {g : α → EStateM ε τ β}
    (h : ∀ a, x = .ok a → Agree P (f a) (g a) R) :
    Agree P (MonadExcept.ofExcept x >>= f) (MonadExcept.ofExcept x >>= g) R := by
  intro s t hst
  cases hx : x with
  | ok a => exact h a hx s t hst
  | error e => exact rfl

theorem ite {c : Prop} [Decidable c] {x x' : EStateM ε σ α} {y y' : EStateM ε τ α}
    (h : c → Agree P x y Q) (h' : ¬ c → Agree P x' y' Q) :
    Agree P (if c then x else x') (if c then y else y') Q := by
  by_cases hc : c
  · rw [if_pos hc, if_pos hc]
    exact h hc
  · rw [if_neg hc, if_neg hc]
    exact h' hc

/-- Two runs that are known to succeed. -/
theorem of_ok {x : EStateM ε σ α} {y : EStateM ε τ α}
    (h : ∀ s t, P s t → ∃ a s' t', x s = .ok a s' ∧ y t = .ok a t' ∧ Q a s' t') :
    Agree P x y Q := by
  intro s t hst
  obtain ⟨a, s', t', hx, hy, hQ⟩ := h s t hst
  rw [hx, hy]
  exact ⟨rfl, hQ⟩

theorem strengthen {x : EStateM ε σ α} {y : EStateM ε τ α} (h : Agree P x y Q)
    (hP : ∀ s t, P' s t → P s t) : Agree P' x y Q :=
  fun s t hst => h s t (hP s t hst)

end Agree

end Lib
