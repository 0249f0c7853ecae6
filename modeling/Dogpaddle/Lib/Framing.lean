import Dogpaddle.Lib.Bytes

/-!
# Framed components of byte keys

A composite key is a concatenation of framed components. `frame` escapes zero
bytes and ends with a terminator that no escaped byte can start, so that

* byte order of concatenations is the lexicographic order of their components
  (`frame_append_lt`), whatever follows them;
* a framed component shows its own end (`frame_append_inj`, `frame_prefix_iff`).

`prefixSuccessor` turns a prefix into the end of a key range (`lt_prefixSuccessor`).
-/

namespace Lib

/-- Zero bytes are followed by `255`, so that `0, 0` can end a component. -/
def escape : Bytes → Bytes
  | [] => []
  | b :: rest => if b = 0 then 0 :: 255 :: escape rest else b :: escape rest

/-- An escaped component and its terminator. -/
def frame (component : Bytes) : Bytes := escape component ++ [0, 0]

@[simp] theorem frame_nil : frame [] = [0, 0] := rfl

theorem frame_cons (b : UInt8) (rest : Bytes) :
    frame (b :: rest) = if b = 0 then 0 :: 255 :: frame rest else b :: frame rest := by
  unfold frame
  rw [escape]
  split <;> rfl

theorem zero_lt_of_ne {b : UInt8} (h : b ≠ 0) : (0 : UInt8) < b := by
  rw [UInt8.lt_iff_toNat_lt]
  have hne : b.toNat ≠ 0 := fun h0 => h (UInt8.toNat_inj.mp h0)
  exact Nat.pos_of_ne_zero hne

theorem frame_append_lt (a b x y : Bytes) :
    frame a ++ x < frame b ++ y ↔ a < b ∨ a = b ∧ x < y := by
  induction a generalizing b with
  | nil =>
    cases b with
    | nil => simp
    | cons c b =>
      rw [frame_cons]
      by_cases hc : c = 0
      · simp [hc, List.cons_lt_cons_iff]
      · simp [hc, List.cons_lt_cons_iff, zero_lt_of_ne hc]
  | cons d a ih =>
    cases b with
    | nil =>
      rw [frame_cons]
      by_cases hd : d = 0
      · simp [hd, List.cons_lt_cons_iff]
      · simp [hd, List.cons_lt_cons_iff, not_lt_of_gt (zero_lt_of_ne hd)]
    | cons c b =>
      rw [frame_cons, frame_cons]
      by_cases hd : d = 0 <;> by_cases hc : c = 0
      · simp only [hd, hc, if_true, List.cons_append, List.cons_lt_cons_iff, lt_irrefl, false_or,
          true_and, ih, List.cons.injEq]
      · simp [hd, hc, List.cons_lt_cons_iff, zero_lt_of_ne hc, Ne.symm hc]
      · simp [hd, hc, List.cons_lt_cons_iff, not_lt_of_gt (zero_lt_of_ne hd)]
      · simp only [hd, hc, if_false, List.cons_append, List.cons_lt_cons_iff, ih, List.cons.injEq]
        tauto

/-- A framed component shows its own end. -/
theorem frame_append_inj {a b x y : Bytes} : frame a ++ x = frame b ++ y ↔ a = b ∧ x = y := by
  constructor
  · intro h
    have hab : ¬ (a < b ∨ a = b ∧ x < y) := by rw [← frame_append_lt, h]; exact lt_irrefl _
    have hba : ¬ (b < a ∨ b = a ∧ y < x) := by rw [← frame_append_lt, h]; exact lt_irrefl _
    obtain rfl : a = b :=
      le_antisymm (not_lt.mp fun h => hba (.inl h)) (not_lt.mp fun h => hab (.inl h))
    exact ⟨rfl, le_antisymm (not_lt.mp fun h => hba (.inr ⟨rfl, h⟩))
      (not_lt.mp fun h => hab (.inr ⟨rfl, h⟩))⟩
  · rintro ⟨rfl, rfl⟩
    rfl

@[simp] theorem frame_lt {a b : Bytes} : frame a < frame b ↔ a < b := by
  simpa using frame_append_lt a b [] []

@[simp] theorem frame_inj {a b : Bytes} : frame a = frame b ↔ a = b := by
  have h := frame_append_inj (a := a) (b := b) (x := []) (y := [])
  rw [List.append_nil, List.append_nil] at h
  rw [h]
  exact and_iff_left rfl

theorem frame_append_prefix_iff {a b x y : Bytes} :
    frame a ++ x <+: frame b ++ y ↔ a = b ∧ x <+: y := by
  constructor
  · rintro ⟨rest, h⟩
    rw [List.append_assoc, frame_append_inj] at h
    exact ⟨h.1, rest, h.2⟩
  · rintro ⟨rfl, rest, rfl⟩
    exact ⟨rest, by rw [List.append_assoc]⟩

/-! ## Ends of prefix ranges -/

/-- Pops trailing `255` bytes of a reversed prefix and increments the byte before. -/
def successorLoop : Bytes → Option Bytes
  | [] => none
  | last :: rest => if last ≠ 255 then some ((last + 1) :: rest).reverse else successorLoop rest

/-- The smallest key above every key that begins with the prefix. -/
def prefixSuccessor (key : Bytes) : Option Bytes := successorLoop key.reverse

theorem successorLoop_append (l : Bytes) (b : UInt8) :
    successorLoop (l ++ [b]) = match successorLoop l with
      | some t => some (b :: t)
      | none => if b ≠ 255 then some [b + 1] else none := by
  induction l with
  | nil => simp [successorLoop]
  | cons c l ih =>
    rw [List.cons_append, successorLoop, successorLoop]
    by_cases hc : c = 255
    · simp only [hc, ne_eq, not_true_eq_false, if_false]
      exact ih
    · simp [hc]

theorem prefixSuccessor_cons (b : UInt8) (s : Bytes) :
    prefixSuccessor (b :: s) = match prefixSuccessor s with
      | some t => some (b :: t)
      | none => if b ≠ 255 then some [b + 1] else none := by
  unfold prefixSuccessor
  rw [List.reverse_cons, successorLoop_append]

theorem lt_add_one_iff {b c : UInt8} (h : b ≠ 255) : c < b + 1 ↔ c ≤ b := by
  have hb : b.toNat ≠ 255 := fun h0 => h (UInt8.toNat_inj.mp h0)
  have := b.toNat_lt
  rw [UInt8.lt_iff_toNat_lt, UInt8.le_iff_toNat_le, UInt8.toNat_add]
  simp only [UInt8.reduceToNat]
  omega

theorem lt_cons_iff {x s : Bytes} {b : UInt8} :
    (x < b :: s ∨ b :: s <+: x) ↔ x = [] ∨ ∃ c y, x = c :: y ∧
      (c < b ∨ c = b ∧ (y < s ∨ s <+: y)) := by
  cases x with
  | nil => simp
  | cons c y =>
    simp only [List.cons_lt_cons_iff, List.cons_prefix_cons, reduceCtorEq, false_or,
      List.cons.injEq]
    constructor
    · rintro ((h | ⟨rfl, h⟩) | ⟨rfl, h⟩)
      · exact ⟨c, y, ⟨rfl, rfl⟩, .inl h⟩
      · exact ⟨c, y, ⟨rfl, rfl⟩, .inr ⟨rfl, .inl h⟩⟩
      · exact ⟨b, y, ⟨rfl, rfl⟩, .inr ⟨rfl, .inr h⟩⟩
    · rintro ⟨_, _, ⟨rfl, rfl⟩, h | ⟨rfl, h | h⟩⟩
      · exact .inl (.inl h)
      · exact .inl (.inr ⟨rfl, h⟩)
      · exact .inr ⟨rfl, h⟩

/-- Without a successor, nothing lies beyond the prefix. -/
theorem lt_or_prefix_of_prefixSuccessor {s : Bytes} (h : prefixSuccessor s = none) (x : Bytes) :
    x < s ∨ s <+: x := by
  induction s generalizing x with
  | nil => exact .inr List.nil_prefix
  | cons b s ih =>
    rw [prefixSuccessor_cons] at h
    cases hs : prefixSuccessor s with
    | some t => rw [hs] at h; cases h
    | none =>
      rw [hs] at h
      have hb : b = 255 := by
        by_contra hne
        simp [hne] at h
      rw [lt_cons_iff]
      cases x with
      | nil => exact .inl rfl
      | cons c y =>
        refine .inr ⟨c, y, rfl, ?_⟩
        rcases lt_or_eq_of_le (show c ≤ b by
          rw [hb, UInt8.le_iff_toNat_le]; have := c.toNat_lt; simp; omega) with hlt | heq
        · exact .inl hlt
        · exact .inr ⟨heq, ih hs y⟩

/-- The successor separates the keys below the prefix and those that begin with it
from all others. -/
theorem lt_prefixSuccessor {s t : Bytes} (h : prefixSuccessor s = some t) (x : Bytes) :
    x < t ↔ x < s ∨ s <+: x := by
  induction s generalizing t x with
  | nil => cases h
  | cons b s ih =>
    rw [prefixSuccessor_cons] at h
    rw [lt_cons_iff]
    cases hs : prefixSuccessor s with
    | some t' =>
      rw [hs] at h
      cases h
      cases x with
      | nil => simp
      | cons c y =>
        rw [List.cons_lt_cons_iff, ih hs]
        simp
    | none =>
      rw [hs] at h
      by_cases hb : b = 255
      · simp [hb] at h
      · simp only [ne_eq, hb, not_false_eq_true, if_true, Option.some.injEq] at h
        subst h
        cases x with
        | nil => simp
        | cons c y =>
          have hall := lt_or_prefix_of_prefixSuccessor hs y
          simp [List.cons_lt_cons_iff, lt_add_one_iff hb, hall, le_iff_lt_or_eq]

/-- A prefix that does not end in `255` has a successor. -/
theorem prefixSuccessor_concat (s : Bytes) {b : UInt8} (h : b ≠ 255) :
    prefixSuccessor (s ++ [b]) = some (s ++ [b + 1]) := by
  simp [prefixSuccessor, successorLoop, h]

end Lib
