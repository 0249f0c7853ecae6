import Dogpaddle.Lib.Attempt

/-!
# Event machines

A `Machine` consumes one event at a time: it answers with some outputs and its
next state, or it fails. It is the plain form of a loop that keeps caches and
pays for its steps.

* `Machine.run` runs a list of events, `run_append` cuts a run in two, and `run_keeps` is
  its invariant rule;
* `Machine.Stops` says at which event a run fails, and with what;
* `Computes` relates the body of an effectful loop to a machine, step for step,
  and `Computes.run` lifts it to the whole loop.
-/

namespace Lib

variable {σ α β ε : Type}

/-- A deterministic consumer of events. -/
structure Machine (σ α β ε : Type) where
  step : σ → α → Except ε (List β × σ)

namespace Machine

variable (m : Machine σ α β ε)

/-- Runs a list of events and collects the outputs. -/
def run : σ → List α → Except ε (List β × σ)
  | s, [] => .ok ([], s)
  | s, a :: as =>
    match m.step s a with
    | .error e => .error e
    | .ok (out, s) => (run s as).map fun (rest, s) => (out ++ rest, s)

/-- The run fails with `e` at event `k`; the events before it succeed. -/
def Stops (s : σ) (l : List α) (k : Nat) (e : ε) : Prop :=
  ∃ out t a, m.run s (l.take k) = .ok (out, t) ∧ l[k]? = some a ∧ m.step t a = .error e

variable {m}

@[simp] theorem run_nil (s : σ) : m.run s [] = .ok ([], s) := rfl

theorem run_cons_of_ok {s t : σ} {a : α} {as : List α} {out : List β}
    (h : m.step s a = .ok (out, t)) :
    m.run s (a :: as) = (m.run t as).map fun (rest, s) => (out ++ rest, s) := by
  simp only [run, h]

theorem run_cons_of_error {s : σ} {a : α} {as : List α} {e : ε} (h : m.step s a = .error e) :
    m.run s (a :: as) = .error e := by
  simp only [run, h]

/-- A successful run is a successful step and a successful run of the rest. -/
theorem run_cons_eq_ok {s u : σ} {a : α} {as : List α} {all : List β} :
    m.run s (a :: as) = .ok (all, u) ↔
      ∃ out t rest, m.step s a = .ok (out, t) ∧ m.run t as = .ok (rest, u) ∧
        all = out ++ rest := by
  constructor
  · intro h
    cases hstep : m.step s a with
    | error e =>
      rw [run_cons_of_error hstep] at h
      cases h
    | ok r =>
      obtain ⟨out, t⟩ := r
      rw [run_cons_of_ok hstep] at h
      obtain ⟨⟨rest, u'⟩, hrest, heq⟩ := map_eq_ok.mp h
      cases heq
      exact ⟨out, t, rest, rfl, hrest, rfl⟩
  · intro h
    obtain ⟨out, t, rest, hstep, hrest, rfl⟩ := h
    rw [run_cons_of_ok hstep, hrest]
    rfl

@[simp] theorem run_singleton (s : σ) (a : α) :
    m.run s [a] = m.step s a := by
  cases h : m.step s a with
  | error e => rw [run_cons_of_error h]
  | ok r =>
    rw [run_cons_of_ok h]
    simp [Except.map]

/-- A run that succeeds continues with the events after it. -/
theorem run_append {s t : σ} {l r : List α} {out : List β} (h : m.run s l = .ok (out, t)) :
    m.run s (l ++ r) = (m.run t r).map fun (rest, s) => (out ++ rest, s) := by
  induction l generalizing s out with
  | nil =>
    cases h
    rw [List.nil_append]
    cases m.run t r with
    | error e => rfl
    | ok _ => rfl
  | cons a l ih =>
    obtain ⟨out₁, s₁, rest, hstep, hrest, rfl⟩ := run_cons_eq_ok.mp h
    rw [List.cons_append, run_cons_of_ok hstep, ih hrest]
    cases m.run t r with
    | error e => rfl
    | ok _ => simp [Except.map]

/-- Two successful runs make one. -/
theorem run_append_ok {s t u : σ} {l r : List α} {out out' : List β}
    (h : m.run s l = .ok (out, t)) (h' : m.run t r = .ok (out', u)) :
    m.run s (l ++ r) = .ok (out ++ out', u) := by
  rw [run_append h, h']
  rfl

/-- A run that fails fails whatever comes after it. -/
theorem run_append_error {s : σ} {l r : List α} {e : ε} (h : m.run s l = .error e) :
    m.run s (l ++ r) = .error e := by
  induction l generalizing s with
  | nil => cases h
  | cons a l ih =>
    rw [List.cons_append]
    cases hstep : m.step s a with
    | error e' =>
      rw [run_cons_of_error hstep] at h ⊢
      exact h
    | ok p =>
      obtain ⟨out, t⟩ := p
      rw [run_cons_of_ok hstep] at h ⊢
      cases hrest : m.run t l with
      | ok _ => rw [hrest] at h; cases h
      | error e' =>
        rw [hrest] at h
        cases h
        rw [ih hrest]
        rfl

/-- What every step keeps, a run keeps. -/
theorem run_keeps {R : α → Prop} {P : List α → σ → List β → Prop}
    (hstep : ∀ {done s s' out more a}, P done s out → R a → m.step s a = .ok (more, s') →
      P (done ++ [a]) s' (out ++ more))
    {done l : List α} {s s' : σ} {out more : List β} (h : P done s out) (hl : ∀ a ∈ l, R a)
    (hrun : m.run s l = .ok (more, s')) : P (done ++ l) s' (out ++ more) := by
  induction l generalizing done s out more with
  | nil =>
    cases hrun
    rw [List.append_nil, List.append_nil]
    exact h
  | cons a l ih =>
    obtain ⟨ha, hl⟩ := List.forall_mem_cons.mp hl
    obtain ⟨first, s₁, rest, hfirst, hrest, rfl⟩ := run_cons_eq_ok.mp hrun
    rw [List.append_cons, ← List.append_assoc]
    exact ih (hstep h ha hfirst) hl hrest

/-! ## Where a run fails -/

theorem Stops.run {s : σ} {l : List α} {k : Nat} {e : ε} (h : m.Stops s l k e) :
    m.run s l = .error e := by
  obtain ⟨out, t, a, hrun, ha, hstep⟩ := h
  obtain ⟨hk, rfl⟩ := List.getElem?_eq_some_iff.mp ha
  rw [← List.take_append_drop k l, run_append hrun, List.drop_eq_getElem_cons hk,
    run_cons_of_error hstep]
  rfl

theorem Stops.lt {s : σ} {l : List α} {k : Nat} {e : ε} (h : m.Stops s l k e) : k < l.length := by
  obtain ⟨_, _, a, _, ha, _⟩ := h
  exact (List.getElem?_eq_some_iff.mp ha).1

/-- Events after the failing one do not matter. -/
theorem Stops.append {s : σ} {l : List α} {k : Nat} {e : ε} (h : m.Stops s l k e) (r : List α) :
    m.Stops s (l ++ r) k e := by
  obtain ⟨out, t, a, hrun, ha, hstep⟩ := h
  have hk := (List.getElem?_eq_some_iff.mp ha).1
  refine ⟨out, t, a, ?_, ?_, hstep⟩
  · rw [List.take_append_of_le_length (Nat.le_of_lt hk)]
    exact hrun
  · rw [List.getElem?_append_left hk]
    exact ha

/-- Events that succeed shift the failing one. -/
theorem Stops.after {s t : σ} {l r : List α} {out : List β} {k : Nat} {e : ε}
    (hrun : m.run s l = .ok (out, t)) (h : m.Stops t r k e) :
    m.Stops s (l ++ r) (l.length + k) e := by
  obtain ⟨out', u, a, hrun', ha, hstep⟩ := h
  refine ⟨out ++ out', u, a, ?_, ?_, hstep⟩
  · rw [List.take_length_add_append]
    exact run_append_ok hrun hrun'
  · rw [List.getElem?_append_right (Nat.le_add_right _ _), Nat.add_sub_cancel_left]
    exact ha

/-- A failing run stops at an event. -/
theorem exists_stops {s : σ} {l : List α} {e : ε} (h : m.run s l = .error e) :
    ∃ k, m.Stops s l k e := by
  induction l generalizing s with
  | nil => cases h
  | cons a l ih =>
    cases hstep : m.step s a with
    | error e' =>
      rw [run_cons_of_error hstep] at h
      cases h
      exact ⟨0, [], s, a, rfl, rfl, hstep⟩
    | ok p =>
      obtain ⟨out, t⟩ := p
      rw [run_cons_of_ok hstep] at h
      cases hrest : m.run t l with
      | ok _ => rw [hrest] at h; cases h
      | error e' =>
        rw [hrest] at h
        cases h
        obtain ⟨k, hk⟩ := ih hrest
        have hfirst : m.run s [a] = .ok (out, t) := by rw [run_singleton, hstep]
        exact ⟨_, Stops.after hfirst hk⟩

/-- A run stops at one event only. -/
theorem Stops.unique {s : σ} {l : List α} {k k' : Nat} {e e' : ε} (h : m.Stops s l k e)
    (h' : m.Stops s l k' e') : k = k' ∧ e = e' := by
  have hle : ∀ {k k' : Nat} {e e' : ε}, m.Stops s l k e → m.Stops s l k' e' → k' ≤ k := by
    intro k k' e e' h h'
    by_contra hlt
    obtain ⟨out, t, a, hrun, ha, hstep⟩ := h
    obtain ⟨out', t', _, hrun', _⟩ := h'
    obtain ⟨hk, rfl⟩ := List.getElem?_eq_some_iff.mp ha
    have hstops : m.Stops s (l.take k') k e := by
      refine ⟨out, t, l[k], ?_, ?_, hstep⟩
      · rw [List.take_take, Nat.min_eq_left (by omega)]
        exact hrun
      · rw [List.getElem?_take_of_lt (by omega)]
        exact ha
    rw [hstops.run] at hrun'
    cases hrun'
  have hk := Nat.le_antisymm (hle h' h) (hle h h')
  refine ⟨hk, ?_⟩
  have herror := h.run
  rw [h'.run] at herror
  exact (Except.error.inj herror).symm

/-- A machine behind a translation of its events that may fail. -/
def comapExcept {γ : Type} (f : γ → Except ε α) (m : Machine σ α β ε) : Machine σ γ β ε :=
  ⟨fun s c => f c >>= m.step s⟩

theorem run_comapExcept {γ : Type} {f : γ → Except ε α} {cs : List γ} {as : List α}
    (m : Machine σ α β ε) (s : σ) (h : List.Forall₂ (fun c a => f c = .ok a) cs as) :
    (m.comapExcept f).run s cs = m.run s as := by
  induction h generalizing s with
  | nil => rfl
  | @cons c a cs as hf _ ih =>
    have hfirst : (m.comapExcept f).step s c = m.step s a := by
      show (f c >>= m.step s) = m.step s a
      rw [hf]
      rfl
    cases hstep : m.step s a with
    | error e =>
      rw [run_cons_of_error hstep, run_cons_of_error (hfirst.trans hstep)]
    | ok p =>
      obtain ⟨out, t⟩ := p
      rw [run_cons_of_ok hstep, run_cons_of_ok (hfirst.trans hstep), ih]

end Machine

/-! ## Loops that compute a machine -/

section Loops

variable {τ κ : Type}

/-- A loop over a list whose body also sees the elements still to come. -/
def foldTails (body : κ → α → List α → EStateM ε τ κ) : κ → List α → EStateM ε τ κ
  | k, [] => pure k
  | k, a :: rest => do
    let k ← body k a rest
    foldTails body k rest

theorem foldlM_eq_foldTails (body : κ → α → EStateM ε τ κ) (k : κ) (l : List α) :
    l.foldlM body k = foldTails (fun k a _ => body k a) k l := by
  induction l generalizing k with
  | nil => rfl
  | cons a l ih =>
    rw [List.foldlM_cons]
    exact congrArg (body k a >>= ·) (funext fun k => ih k)

/-- The body of a loop over `κ` computes one step of a machine: `Rel` relates the
events so far and to come, the loop state, the effectful state, the machine state and
the outputs so far. Errors in `Hard` are the machine's own. -/
structure Computes (m : Machine σ α β ε) (Hard : ε → Prop)
    (Rel : List α → List α → κ → τ → σ → List β → Prop)
    (body : κ → α → List α → EStateM ε τ κ) : Prop where
  ok : ∀ {done rest k k' t t' s out a}, Rel done (a :: rest) k t s out →
    body k a rest t = .ok k' t' →
    ∃ more s', m.step s a = .ok (more, s') ∧ Rel (done ++ [a]) rest k' t' s' (out ++ more)
  error : ∀ {done rest k t t' s out a e}, Rel done (a :: rest) k t s out →
    body k a rest t = .error e t' → Hard e → m.step s a = .error e

namespace Computes

variable {m : Machine σ α β ε} {Hard : ε → Prop}
  {Rel : List α → List α → κ → τ → σ → List β → Prop} {body : κ → α → List α → EStateM ε τ κ}

/-- A loop that completes has run the machine. -/
theorem run (h : Computes m Hard Rel body) {done : List α} {k k' : κ} {t t' : τ} {s : σ}
    {out : List β} {l : List α} (hrel : Rel done l k t s out)
    (hrun : foldTails body k l t = .ok k' t') :
    ∃ more s', m.run s l = .ok (more, s') ∧ Rel (done ++ l) [] k' t' s' (out ++ more) := by
  induction l generalizing done k t s out with
  | nil =>
    obtain ⟨rfl, rfl⟩ := pure_eq_ok.mp hrun
    refine ⟨[], s, rfl, ?_⟩
    rw [List.append_nil, List.append_nil]
    exact hrel
  | cons a l ih =>
    obtain ⟨k₁, t₁, hbody, hrest⟩ := bind_eq_ok.mp hrun
    obtain ⟨first, s₁, hstep, hrel₁⟩ := h.ok hrel hbody
    obtain ⟨rest, s', hmachine, hrel'⟩ := ih hrel₁ hrest
    refine ⟨first ++ rest, s', ?_, ?_⟩
    · rw [Machine.run_cons_of_ok hstep, hmachine]
      rfl
    · rw [List.append_cons, ← List.append_assoc]
      exact hrel'

/-- A loop that fails hard stops where the machine does. -/
theorem run_error (h : Computes m Hard Rel body) {done : List α} {k : κ} {t t' : τ} {s : σ}
    {out : List β} {l : List α} {e : ε} (hrel : Rel done l k t s out)
    (hrun : foldTails body k l t = .error e t') (hard : Hard e) : m.run s l = .error e := by
  induction l generalizing done k t s out with
  | nil => cases hrun
  | cons a l ih =>
    have hrun : (body k a l >>= fun k => foldTails body k l) t = .error e t' := hrun
    cases hbody : body k a l t with
    | error e' t₁ =>
      rw [bind_of_error hbody] at hrun
      cases hrun
      exact Machine.run_cons_of_error (h.error hrel hbody hard)
    | ok k₁ t₁ =>
      rw [bind_of_ok hbody] at hrun
      obtain ⟨first, s₁, hstep, hrel₁⟩ := h.ok hrel hbody
      rw [Machine.run_cons_of_ok hstep, ih hrel₁ hrun]
      rfl

end Computes

end Loops

end Lib
