import Mathlib.Algebra.Ring.Int.Defs
import Mathlib.Algebra.Ring.Nat
import Mathlib.Data.List.Forall2

/-!
# Fallible stateful computations

`EStateM ε σ` keeps the state of a failed computation, which is what a caller
that charges failed attempts needs. This module gives the two ways the proofs
read such a computation:

* **inversion** — a successful `do` block is a chain of successful statements
  (`bind_eq_ok` and its companions);
* **triples** — `Triple P x Q E`: from a state in `P`, `x` ends in `Q` on
  success and in `E` on failure, with one rule per statement;
* **failures** — `Raises P x s`: from `s`, `x` fails only with errors in `P`.
-/

namespace Lib

variable {ε σ α β : Type}

/-! ## Inversion of success -/

theorem bind_eq_ok {x : EStateM ε σ α} {f : α → EStateM ε σ β} {s s' : σ} {b : β} :
    (x >>= f) s = .ok b s' ↔ ∃ a t, x s = .ok a t ∧ f a t = .ok b s' := by
  show EStateM.bind x f s = _ ↔ _
  unfold EStateM.bind
  cases hx : x s with
  | ok a t =>
    constructor
    · exact fun h => ⟨a, t, rfl, h⟩
    · rintro ⟨a', t', h, hf⟩
      cases h
      exact hf
  | error e t => simp

/-- Running on after a success. -/
theorem bind_of_ok {x : EStateM ε σ α} {f : α → EStateM ε σ β} {s t : σ} {a : α}
    (h : x s = .ok a t) : (x >>= f) s = f a t := by
  show EStateM.bind x f s = _
  unfold EStateM.bind
  rw [h]

/-- A failure ends the block. -/
theorem bind_of_error {x : EStateM ε σ α} {f : α → EStateM ε σ β} {s t : σ} {e : ε}
    (h : x s = .error e t) : (x >>= f) s = .error e t := by
  show EStateM.bind x f s = _
  unfold EStateM.bind
  rw [h]

theorem pure_eq_ok {a b : α} {s s' : σ} :
    (pure a : EStateM ε σ α) s = .ok b s' ↔ a = b ∧ s = s' := by
  show (EStateM.Result.ok a s : EStateM.Result ε σ α) = _ ↔ _
  simp

theorem throw_eq_ok {e : ε} {b : α} {s s' : σ} :
    (throw e : EStateM ε σ α) s = .ok b s' ↔ False := by
  show (EStateM.Result.error e s : EStateM.Result ε σ α) = _ ↔ _
  simp

theorem get_eq_ok {t s s' : σ} :
    (get : EStateM ε σ σ) s = .ok t s' ↔ s = t ∧ s = s' := by
  show (EStateM.Result.ok s s : EStateM.Result ε σ σ) = _ ↔ _
  simp

theorem set_eq_ok {u : PUnit} {t s s' : σ} :
    (set t : EStateM ε σ PUnit) s = .ok u s' ↔ t = s' := by
  show (EStateM.Result.ok PUnit.unit t : EStateM.Result ε σ PUnit) = _ ↔ _
  simp

theorem modify_eq_ok {f : σ → σ} {u : PUnit} {s s' : σ} :
    (modify f : EStateM ε σ PUnit) s = .ok u s' ↔ f s = s' := by
  show (EStateM.Result.ok PUnit.unit (f s) : EStateM.Result ε σ PUnit) = _ ↔ _
  simp

/-- A failure carried by an `Except` value. -/
theorem ofExcept_eq_ok {x : Except ε α} {b : α} {s s' : σ} :
    (MonadExcept.ofExcept x : EStateM ε σ α) s = .ok b s' ↔ x = .ok b ∧ s = s' := by
  cases x with
  | ok a =>
    show (Pure.pure a : EStateM ε σ α) s = _ ↔ _
    rw [pure_eq_ok, Except.ok.injEq]
  | error e =>
    show (MonadExcept.throw e : EStateM ε σ α) s = _ ↔ _
    simp [throw_eq_ok]

/-- Translating errors keeps successes. -/
theorem adaptExcept_eq_ok {ε' : Type} {f : ε → ε'} {x : EStateM ε σ α} {s s' : σ} {a : α} :
    EStateM.adaptExcept f x s = .ok a s' ↔ x s = .ok a s' := by
  unfold EStateM.adaptExcept
  cases x s <;> simp

theorem except_bind_eq_ok {x : Except ε α} {f : α → Except ε β} {b : β} :
    (x >>= f) = .ok b ↔ ∃ a, x = .ok a ∧ f a = .ok b := by
  cases x with
  | ok a =>
    constructor
    · intro h
      exact ⟨a, rfl, h⟩
    · rintro ⟨a', ⟨⟩, h⟩
      exact h
  | error e =>
    constructor
    · intro h
      cases h
    · rintro ⟨a', h, -⟩
      cases h

/-- A guard that fails is no success. -/
theorem except_ite_eq_ok {c : Prop} [Decidable c] {e : ε} {x : Except ε α} {a : α} :
    (if c then Except.error e else x) = .ok a ↔ ¬ c ∧ x = .ok a := by
  split <;> simp_all

theorem map_eq_ok {f : α → β} {x : Except ε α} {b : β} :
    x.map f = .ok b ↔ ∃ a, x = .ok a ∧ f a = b := by
  cases x <;> simp [Except.map]

theorem mapError_eq_ok {ε' : Type} {f : ε → ε'} {x : Except ε α} {a : α} :
    x.mapError f = .ok a ↔ x = .ok a := by
  cases x <;> simp [Except.mapError]

theorem ok_bind (a : α) (f : α → Except ε β) : (Except.ok a >>= f) = f a := rfl

/-- A successful traversal is a success at every element. -/
theorem mapM_eq_ok {f : α → Except ε β} {l : List α} {r : List β} (h : l.mapM f = .ok r) :
    List.Forall₂ (fun a b => f a = .ok b) l r := by
  induction l generalizing r with
  | nil =>
    cases h
    exact .nil
  | cons a l ih =>
    rw [List.mapM_cons] at h
    cases ha : f a with
    | error e => rw [ha] at h; cases h
    | ok b =>
      rw [ha] at h
      cases hl : l.mapM f with
      | error e => rw [hl] at h; cases h
      | ok bs =>
        rw [hl] at h
        cases h
        exact .cons ha (ih hl)

/-- A traversal succeeds where every element does, with what the elements give. -/
theorem exists_mapM_eq_ok {f : α → Except ε β} {P : β → Prop} {l : List α}
    (h : ∀ a ∈ l, ∃ b, f a = .ok b ∧ P b) : ∃ r, l.mapM f = .ok r ∧ ∀ b ∈ r, P b := by
  induction l with
  | nil => exact ⟨[], rfl, fun b hb => by cases hb⟩
  | cons a l ih =>
    obtain ⟨ha, hl⟩ := List.forall_mem_cons.mp h
    obtain ⟨b, hb, hP⟩ := ha
    obtain ⟨r, hr, hall⟩ := ih hl
    refine ⟨b :: r, ?_, List.forall_mem_cons.mpr ⟨hP, hall⟩⟩
    rw [List.mapM_cons, hb, hr]
    rfl

/-- Mapping a list succeeds when each element does. -/
theorem mapM_eq_ok_iff {f : α → Except ε β} {g : α → β} {P : α → Prop} {l : List α} {r : List β}
    (h : ∀ a ∈ l, ∀ b, f a = .ok b ↔ P a ∧ b = g a) :
    l.mapM f = .ok r ↔ (∀ a ∈ l, P a) ∧ r = l.map g := by
  induction l generalizing r with
  | nil => exact ⟨fun h => ⟨by simp, (Except.ok.inj h).symm⟩, fun h => by rw [h.2]; rfl⟩
  | cons a l ih =>
    obtain ⟨ha, hl⟩ := List.forall_mem_cons.mp h
    rw [List.mapM_cons, List.forall_mem_cons, List.map_cons]
    constructor
    · intro h
      obtain ⟨b, hb, h⟩ := except_bind_eq_ok.mp h
      obtain ⟨rest, hrest, h⟩ := except_bind_eq_ok.mp h
      cases h
      obtain ⟨hP, rfl⟩ := (ha b).mp hb
      obtain ⟨hall, rfl⟩ := (ih hl).mp hrest
      exact ⟨⟨hP, hall⟩, rfl⟩
    · rintro ⟨⟨hP, hall⟩, rfl⟩
      rw [(ha _).mpr ⟨hP, rfl⟩, (ih hl).mpr ⟨hall, rfl⟩]
      rfl

theorem except_forM_of_ok {f : α → Except ε Unit} {l : List α} (h : ∀ a ∈ l, f a = .ok ()) :
    l.forM f = .ok () := by
  induction l with
  | nil => rfl
  | cons a l ih =>
    obtain ⟨ha, hl⟩ := List.forall_mem_cons.mp h
    exact except_bind_eq_ok.mpr ⟨(), ha, ih hl⟩

/-- A loop that succeeds succeeds at every element. -/
theorem except_forM_eq_ok {f : α → Except ε Unit} {l : List α} (h : l.forM f = .ok ()) :
    ∀ a ∈ l, f a = .ok () := by
  induction l with
  | nil =>
    intro a ha
    cases ha
  | cons b l ih =>
    obtain ⟨_, hb, hl⟩ := except_bind_eq_ok.mp h
    intro a ha
    rcases List.mem_cons.mp ha with rfl | hin
    · exact hb
    · exact ih hl a hin

/-! ## Triples -/

/-- From a state in `P`, `x` ends in `Q` on success and in `E` on failure. -/
def Triple (P : σ → Prop) (x : EStateM ε σ α) (Q : α → σ → Prop) (E : σ → Prop) : Prop :=
  ∀ s, P s → match x s with
    | .ok a t => Q a t
    | .error _ t => E t

namespace Triple

variable {P P' : σ → Prop} {Q Q' : α → σ → Prop} {R : β → σ → Prop} {E E' : σ → Prop}

theorem pure (a : α) (h : ∀ s, P s → Q a s) : Triple P (pure a : EStateM ε σ α) Q E :=
  fun s hs => h s hs

theorem throw (e : ε) (h : ∀ s, P s → E s) : Triple P (throw e : EStateM ε σ α) Q E :=
  fun s hs => h s hs

/-- Whatever happens. -/
theorem any (x : EStateM ε σ α) : Triple P x (fun _ _ => True) fun _ => True := by
  intro s _
  cases x s <;> trivial

theorem bind {x : EStateM ε σ α} {f : α → EStateM ε σ β}
    (hx : Triple P x Q E) (hf : ∀ a, Triple (Q a) (f a) R E) : Triple P (x >>= f) R E := by
  intro s hs
  have h := hx s hs
  show match EStateM.bind x f s with
    | .ok a t => R a t
    | .error _ t => E t
  unfold EStateM.bind
  cases hxs : x s with
  | ok a t =>
    rw [hxs] at h
    exact hf a t h
  | error e t =>
    rw [hxs] at h
    exact h

/-- Reading the state: what follows may assume that it is the one read. -/
theorem get {f : σ → EStateM ε σ β} (h : ∀ t, P t → Triple (· = t) (f t) R E) :
    Triple P (get >>= f) R E :=
  fun s hs => h s hs s rfl

theorem modify {K : PUnit → σ → Prop} (g : σ → σ) (h : ∀ s, P s → K PUnit.unit (g s)) :
    Triple P (modify g : EStateM ε σ PUnit) K E :=
  fun s hs => h s hs

theorem set {K : PUnit → σ → Prop} (t : σ) (h : ∀ s, P s → K PUnit.unit t) :
    Triple P (set t : EStateM ε σ PUnit) K E :=
  fun s hs => h s hs

/-- A handler starts where the failed computation stopped. -/
theorem tryCatch {x : EStateM ε σ α} {handler : ε → EStateM ε σ α}
    (hx : Triple P x Q E') (hh : ∀ e, Triple E' (handler e) Q E) :
    Triple P (MonadExcept.tryCatch x handler) Q E := by
  intro s hs
  have h := hx s hs
  show match EStateM.tryCatch x handler s with
    | .ok a t => Q a t
    | .error _ t => E t
  unfold EStateM.tryCatch
  cases hxs : x s with
  | ok a t =>
    rw [hxs] at h
    exact h
  | error e t =>
    rw [hxs] at h
    exact hh e t h

theorem ofExcept {x : Except ε α} (hok : ∀ a, x = .ok a → ∀ s, P s → Q a s)
    (herr : ∀ s, P s → E s) : Triple P (MonadExcept.ofExcept x : EStateM ε σ α) Q E := by
  intro s hs
  cases hx : x with
  | ok a => exact hok a hx s hs
  | error e => exact herr s hs

theorem ite {c : Prop} [Decidable c] {x y : EStateM ε σ α}
    (hx : c → Triple P x Q E) (hy : ¬ c → Triple P y Q E) :
    Triple P (if c then x else y) Q E := by
  by_cases h : c
  · rw [if_pos h]; exact hx h
  · rw [if_neg h]; exact hy h

/-- It is enough to start from each state alone. -/
theorem pointwise {x : EStateM ε σ α} (h : ∀ t, P t → Triple (· = t) x Q E) : Triple P x Q E :=
  fun s hs => h s hs s rfl

/-- After a pure step, what follows may assume its result. -/
theorem ofExcept_bind {x : Except ε α} {f : α → EStateM ε σ β} (herr : ∀ s, P s → E s)
    (h : ∀ a, x = .ok a → Triple P (f a) R E) :
    Triple P (MonadExcept.ofExcept x >>= f) R E := by
  intro s hs
  cases hx : x with
  | ok a => exact h a hx s hs
  | error e => exact herr s hs

/-- After a write, the state is the one written. -/
theorem set_bind {t : σ} {f : PUnit → EStateM ε σ β} (h : Triple (· = t) (f ⟨⟩) R E) :
    Triple P (MonadStateOf.set t >>= f) R E :=
  fun _ _ => h t rfl

/-- After an update of a known state, the state is known. -/
theorem modify_bind {g : σ → σ} {t : σ} {f : PUnit → EStateM ε σ β}
    (h : Triple (· = g t) (f ⟨⟩) R E) :
    Triple (· = t) ((modifyThe σ g : EStateM ε σ PUnit) >>= f) R E := by
  rintro s rfl
  exact h (g s) rfl

/-- What a triple says of a success. -/
theorem of_ok {x : EStateM ε σ α} (h : Triple P x Q E) {s t : σ} {a : α} (hs : P s)
    (hx : x s = .ok a t) : Q a t := by
  have hpost := h s hs
  rwa [hx] at hpost

/-- Strengthen the precondition and weaken both postconditions. -/
theorem weaken {x : EStateM ε σ α} (h : Triple P x Q E) (hP : ∀ s, P' s → P s)
    (hQ : ∀ a s, Q a s → Q' a s) (hE : ∀ s, E s → E' s) : Triple P' x Q' E' := by
  intro s hs
  have hx := h s (hP s hs)
  cases hxs : x s with
  | ok a t => rw [hxs] at hx; exact hQ a t hx
  | error e t => rw [hxs] at hx; exact hE t hx

end Triple

/-! ## Failures -/

/-- Every failure of `x` from `s` is one of `P`. -/
def Raises (P : ε → Prop) (x : EStateM ε σ α) (s : σ) : Prop := ∀ e t, x s = .error e t → P e

/-- Every failure of an `Except` value is one of `P`. -/
def Fails (P : ε → Prop) (x : Except ε α) : Prop := ∀ e, x = .error e → P e

namespace Fails

variable {P P' : ε → Prop}

theorem imp {x : Except ε α} (h : Fails P x) (hP : ∀ e, P e → P' e) : Fails P' x :=
  fun e he => hP e (h e he)

theorem error {e : ε} (h : P e) : Fails P (.error e : Except ε α) := by
  intro e' he
  cases he
  exact h

theorem of_ok {x : Except ε α} {a : α} (h : x = .ok a) : Fails P x := by
  intro e he
  rw [h] at he
  cases he

theorem bind {x : Except ε α} {f : α → Except ε β} (hx : Fails P x)
    (hf : ∀ a, x = .ok a → Fails P (f a)) : Fails P (x >>= f) := by
  cases h : x with
  | ok a => exact hf a h
  | error e =>
    intro e' he
    cases he
    exact hx e h

theorem ite {c : Prop} [Decidable c] {x y : Except ε α} (hx : c → Fails P x)
    (hy : ¬ c → Fails P y) : Fails P (if c then x else y) := by
  split
  · next h => exact hx h
  · next h => exact hy h

theorem map {f : α → β} {x : Except ε α} (h : Fails P x) : Fails P (x.map f) := by
  intro e he
  cases hx : x with
  | error e' =>
    rw [hx] at he
    cases he
    exact h e hx
  | ok a => rw [hx] at he; cases he

theorem mapM {f : α → Except ε β} {l : List α} (h : ∀ a ∈ l, Fails P (f a)) :
    Fails P (l.mapM f) := by
  induction l with
  | nil => exact .of_ok rfl
  | cons a l ih =>
    obtain ⟨ha, hl⟩ := List.forall_mem_cons.mp h
    rw [List.mapM_cons]
    exact .bind ha fun b _ => .bind (ih hl) fun bs _ => .of_ok rfl

theorem mapError {ε' : Type} {f : ε' → ε} {x : Except ε' α} (h : ∀ e, P (f e)) :
    Fails P (x.mapError f) := by
  intro e he
  cases hx : x with
  | error e' =>
    rw [hx] at he
    cases he
    exact h e'
  | ok a => rw [hx] at he; cases he

end Fails

namespace Raises

variable {P P' : ε → Prop} {s : σ}

theorem imp {x : EStateM ε σ α} (h : Raises P x s) (hP : ∀ e, P e → P' e) : Raises P' x s :=
  fun e t he => hP e (h e t he)

theorem pure (a : α) : Raises P (pure a : EStateM ε σ α) s := fun _ _ h => by cases h

theorem throw {e : ε} (h : P e) : Raises P (throw e : EStateM ε σ α) s := by
  intro e' t h'
  cases h'
  exact h

theorem bind {x : EStateM ε σ α} {f : α → EStateM ε σ β} (hx : Raises P x s)
    (hf : ∀ a t, x s = .ok a t → Raises P (f a) t) : Raises P (x >>= f) s := by
  intro e t h
  change EStateM.bind x f s = _ at h
  unfold EStateM.bind at h
  cases hxs : x s with
  | ok a u =>
    rw [hxs] at h
    exact hf a u hxs e t h
  | error e' u =>
    rw [hxs] at h
    cases h
    exact hx e t hxs

theorem get {f : σ → EStateM ε σ β} (h : Raises P (f s) s) : Raises P (get >>= f) s := h

theorem set_bind {t : σ} {f : PUnit → EStateM ε σ β} (h : Raises P (f ⟨⟩) t) :
    Raises P (MonadStateOf.set t >>= f) s := h

theorem set (t : σ) : Raises P (set t : EStateM ε σ PUnit) s := fun _ _ h => by cases h

theorem modify_bind {g : σ → σ} {f : PUnit → EStateM ε σ β} (h : Raises P (f ⟨⟩) (g s)) :
    Raises P ((modifyThe σ g : EStateM ε σ PUnit) >>= f) s := h

/-- After a pure step that succeeds. -/
theorem ofExcept_bind {x : Except ε α} {a : α} {f : α → EStateM ε σ β} (hx : x = .ok a)
    (h : Raises P (f a) s) : Raises P (MonadExcept.ofExcept x >>= f) s := by
  rw [hx]
  exact h

/-- A computation without failures succeeds. -/
theorem exists_ok {x : EStateM ε σ α} (h : Raises (fun _ => False) x s) :
    ∃ a t, x s = .ok a t := by
  cases hx : x s with
  | ok a t => exact ⟨a, t, rfl⟩
  | error e t => exact (h e t hx).elim

theorem modify (g : σ → σ) : Raises P (modify g : EStateM ε σ PUnit) s := fun _ _ h => by cases h

theorem ofExcept {x : Except ε α} (h : Fails P x) :
    Raises P (MonadExcept.ofExcept x : EStateM ε σ α) s := by
  intro e t he
  cases hx : x with
  | ok a => rw [hx] at he; cases he
  | error e' =>
    rw [hx] at he
    cases he
    exact h e hx

theorem ite {c : Prop} [Decidable c] {x y : EStateM ε σ α} (hx : c → Raises P x s)
    (hy : ¬ c → Raises P y s) : Raises P (if c then x else y) s := by
  by_cases h : c
  · rw [if_pos h]
    exact hx h
  · rw [if_neg h]
    exact hy h

theorem forM {f : α → EStateM ε σ PUnit} (hf : ∀ a t, Raises P (f a) t) (l : List α) :
    Raises P (l.forM f) s := by
  induction l generalizing s with
  | nil => exact pure _
  | cons a l ih => exact bind (hf a s) fun _ _ _ => ih

end Raises

end Lib
