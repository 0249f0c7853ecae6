import Dogpaddle.Lib.Bytes

/-!
# Readers of binary formats

A reader consumes the front of a byte string. It is exact for a relation between values
and the bytes they are written as, when it returns a value exactly on those bytes. Exact
readers compose as the format does, so both directions of a parser are proved at once:

* what it accepts is well formed;
* what is well formed it accepts, with the same value.
-/

namespace Lib

/-- Consumes the front of the input, or fails with a message. -/
abbrev Reader (α : Type) := StateT Bytes (Except String) α

namespace Reader

variable {α β ε : Type}

/-- The next bytes, when there are that many. -/
def takeElse (error : ε) (length : Nat) : StateT Bytes (Except ε) Bytes := fun input =>
  if length ≤ input.length then .ok (input.take length, input.drop length) else .error error

/-- The next bytes, when there are that many. -/
def take (length : Nat) : Reader Bytes := fun input =>
  if length ≤ input.length then .ok (input.take length, input.drop length)
  else .error "truncated"

/-- The next bytes, as many as there are up to a length. -/
def takeUpTo (length : Nat) : Reader Bytes := fun input =>
  .ok (input.take length, input.drop length)

/-- How many bytes are left. -/
def available : Reader Nat := fun input => .ok (input.length, input)

/-- A big-endian number. -/
def unsigned (width : Nat) : Reader Nat := do
  let bytes ← take width
  return fromBE bytes

theorem bind_run (r : StateT Bytes (Except ε) α) (f : α → StateT Bytes (Except ε) β)
    (input : Bytes) : (r >>= f) input = (r input).bind fun out => f out.1 out.2 := rfl

theorem bind_eq_ok {r : StateT Bytes (Except ε) α} {f : α → StateT Bytes (Except ε) β}
    {input rest : Bytes} {b : β} :
    (r >>= f) input = .ok (b, rest) ↔
      ∃ a mid, r input = .ok (a, mid) ∧ f a mid = .ok (b, rest) := by
  rw [bind_run]
  cases r input with
  | error e => simp [Except.bind]
  | ok out =>
    obtain ⟨a, mid⟩ := out
    simp [Except.bind]

/-! ## Exact readers -/

/-- The reader returns a value exactly on the bytes the value is written as. -/
def Exact (r : StateT Bytes (Except ε) α) (writes : α → Bytes → Prop) : Prop :=
  ∀ input a rest, r input = .ok (a, rest) ↔ ∃ w, writes a w ∧ input = w ++ rest

theorem Exact.congr {r : StateT Bytes (Except ε) α} {writes writes' : α → Bytes → Prop} (h : Exact r writes)
    (heq : ∀ a w, writes a w ↔ writes' a w) : Exact r writes' := by
  intro input a rest
  rw [h input a rest]
  exact exists_congr fun w => and_congr_left fun _ => heq a w

theorem exact_pure (a : α) :
    Exact (pure a : StateT Bytes (Except ε) α) fun b w => b = a ∧ w = [] := by
  intro input b rest
  show Except.ok (a, input) = .ok (b, rest) ↔ _
  constructor
  · intro h
    cases h
    exact ⟨[], ⟨rfl, rfl⟩, rfl⟩
  · rintro ⟨w, ⟨rfl, rfl⟩, rfl⟩
    rfl

theorem exact_throw (error : ε) :
    Exact (throw error : StateT Bytes (Except ε) α) fun _ _ => False := by
  intro input a rest
  constructor
  · intro h
    cases h
  · rintro ⟨w, hw, -⟩
    exact hw.elim

/-- One reader after another reads one format after another. -/
theorem Exact.bind {r : StateT Bytes (Except ε) α} {f : α → StateT Bytes (Except ε) β} {writes : α → Bytes → Prop}
    {writes' : α → β → Bytes → Prop} (h : Exact r writes) (h' : ∀ a, Exact (f a) (writes' a)) :
    Exact (r >>= f) fun b w => ∃ a w₁ w₂, writes a w₁ ∧ writes' a b w₂ ∧ w = w₁ ++ w₂ := by
  intro input b rest
  rw [bind_eq_ok]
  constructor
  · rintro ⟨a, mid, hr, hf⟩
    obtain ⟨w₁, hw₁, rfl⟩ := (h _ _ _).mp hr
    obtain ⟨w₂, hw₂, rfl⟩ := (h' a _ _ _).mp hf
    exact ⟨w₁ ++ w₂, ⟨a, w₁, w₂, hw₁, hw₂, rfl⟩, (List.append_assoc _ _ _).symm⟩
  · rintro ⟨w, ⟨a, w₁, w₂, hw₁, hw₂, rfl⟩, rfl⟩
    refine ⟨a, w₂ ++ rest, (h _ _ _).mpr ⟨w₁, hw₁, List.append_assoc _ _ _⟩, ?_⟩
    exact (h' a _ _ _).mpr ⟨w₂, hw₂, rfl⟩

/-- A check before the rest of the format. -/
theorem Exact.guard {r : StateT Bytes (Except ε) α} {writes : α → Bytes → Prop} (c : Prop)
    [Decidable c] (error : ε) (h : ¬ c → Exact r writes) :
    Exact (if c then throw error else r) fun a w => ¬ c ∧ writes a w := by
  by_cases hc : c
  · rw [if_pos hc]
    refine (exact_throw error).congr fun a w => ?_
    exact ⟨fun hf => hf.elim, fun hw => hw.1 hc⟩
  · rw [if_neg hc]
    exact (h hc).congr fun a w => ⟨fun hw => ⟨hc, hw⟩, fun hw => hw.2⟩

theorem exact_takeElse (error : ε) (length : Nat) :
    Exact (takeElse error length) fun b w => w = b ∧ b.length = length := by
  intro input b rest
  unfold takeElse
  constructor
  · intro h
    split at h
    · next hle =>
      cases h
      refine ⟨input.take length, ⟨rfl, ?_⟩, (List.take_append_drop _ _).symm⟩
      rw [List.length_take]
      omega
    · cases h
  · rintro ⟨w, ⟨rfl, rfl⟩, rfl⟩
    rw [if_pos (by simp), List.take_left, List.drop_left]

theorem exact_take (length : Nat) : Exact (take length) fun b w => w = b ∧ b.length = length :=
  exact_takeElse "truncated" length

/-- A number is written in its width. -/
theorem exact_unsigned (width : Nat) :
    Exact (unsigned width) fun n w => n < 256 ^ width ∧ w = toBE width n := by
  refine ((exact_take width).bind fun bytes => exact_pure (fromBE bytes)).congr fun n w => ?_
  constructor
  · rintro ⟨bytes, w₁, w₂, ⟨rfl, hlength⟩, ⟨rfl, rfl⟩, rfl⟩
    have hlt := fromBE_lt w₁
    rw [hlength] at hlt
    exact ⟨hlt, by rw [List.append_nil, toBE_fromBE hlength]⟩
  · rintro ⟨hlt, rfl⟩
    exact ⟨toBE width n, toBE width n, [], ⟨rfl, length_toBE width n⟩, ⟨(fromBE_toBE hlt).symm, rfl⟩,
      (List.append_nil _).symm⟩

/-- A whole input is read when nothing is left. -/
theorem Exact.whole {r : StateT Bytes (Except ε) α} {writes : α → Bytes → Prop} (h : Exact r writes)
    {input : Bytes} {a : α} : r input = .ok (a, []) ↔ writes a input := by
  rw [h]
  constructor
  · rintro ⟨w, hw, rfl⟩
    rw [List.append_nil]
    exact hw
  · intro hw
    exact ⟨input, hw, (List.append_nil _).symm⟩

end Reader

end Lib
