import Mathlib.Algebra.Ring.Int.Defs
import Mathlib.Algebra.Ring.Nat
import Mathlib.Data.List.Pairwise
import Mathlib.Data.List.Basic
import Mathlib.Order.Lattice
import Mathlib.Data.List.Lex

/-!
# Ordered maps

A finite map over a linearly ordered key type, kept as the list of its entries
in strictly ascending key order. The order proof is a field, so every value of
the type is a map and a traversal of `entries` is a traversal in key order.

The operations are characterised by `get?` alone (`get?_put`, `get?_erase`,
`mem_entries`), and two maps with the same `get?` are equal (`ext_get?`).
-/

namespace Lib

/-- The elements of a list are numbered in ascending order. -/
theorem pairwise_zipIdx {α : Type} (l : List α) :
    l.zipIdx.Pairwise fun a b => a.2 < b.2 := by
  have h : (l.zipIdx.map Prod.snd).Pairwise (· < ·) := by
    rw [List.zipIdx_map_snd]
    exact List.pairwise_lt_range'
  exact List.pairwise_map.mp h

/-- A finite map as its strictly ascending entry list. -/
structure OrdMap (K V : Type) [LinearOrder K] where
  entries : List (K × V)
  sorted : entries.Pairwise (fun a b => a.1 < b.1)

namespace OrdMap

variable {K V : Type} [LinearOrder K]

/-- The map without entries. -/
def empty : OrdMap K V := ⟨[], List.Pairwise.nil⟩

instance : Inhabited (OrdMap K V) := ⟨empty⟩

instance [DecidableEq V] : DecidableEq (OrdMap K V) := fun a b =>
  decidable_of_iff (a.entries = b.entries) ⟨fun h => by cases a; cases b; cases h; rfl,
    fun h => by rw [h]⟩

/-- The value stored under a key. -/
def get? (m : OrdMap K V) (k : K) : Option V :=
  (m.entries.find? (fun e => decide (e.1 = k))).map (·.2)

/-- Stores a value under a key, replacing the previous one. -/
def put (m : OrdMap K V) (k : K) (v : V) : OrdMap K V where
  entries := m.entries.filter (fun e => decide (e.1 < k)) ++
    (k, v) :: m.entries.filter (fun e => decide (k < e.1))
  sorted := by
    rw [List.pairwise_append]
    refine ⟨m.sorted.filter _, List.pairwise_cons.mpr ⟨?_, m.sorted.filter _⟩, ?_⟩
    · intro e he
      simpa using (List.mem_filter.mp he).2
    · intro a ha b hb
      have hak : a.1 < k := by simpa using (List.mem_filter.mp ha).2
      rcases List.mem_cons.mp hb with rfl | hb
      · exact hak
      · exact lt_trans hak (by simpa using (List.mem_filter.mp hb).2)

/-- Removes a key. -/
def erase (m : OrdMap K V) (k : K) : OrdMap K V :=
  ⟨m.entries.filter (fun e => decide (e.1 ≠ k)), m.sorted.filter _⟩

/-- The entry with the greatest key. -/
def last? (m : OrdMap K V) : Option (K × V) := m.entries.getLast?

/-- A sorted entry list holds at most one value for a key. -/
theorem value_unique (m : OrdMap K V) {k : K} {v w : V}
    (hv : (k, v) ∈ m.entries) (hw : (k, w) ∈ m.entries) : v = w := by
  have h := m.sorted
  generalize m.entries = l at hv hw h
  induction l with
  | nil => cases hv
  | cons e rest ih =>
    obtain ⟨hlt, hrest⟩ := List.pairwise_cons.mp h
    rcases List.mem_cons.mp hv with hv | hv <;> rcases List.mem_cons.mp hw with hw | hw
    · exact (Prod.mk.inj (hv.trans hw.symm)).2
    · exact absurd (hlt _ hw) (by rw [← hv]; exact lt_irrefl _)
    · exact absurd (hlt _ hv) (by rw [← hw]; exact lt_irrefl _)
    · exact ih hv hw hrest

/-- Lookup is membership among the entries. -/
theorem mem_entries (m : OrdMap K V) (k : K) (v : V) :
    (k, v) ∈ m.entries ↔ m.get? k = some v := by
  unfold get?
  constructor
  · intro h
    cases hf : m.entries.find? (fun e => decide (e.1 = k)) with
    | none =>
      have := List.find?_eq_none.mp hf (k, v) h
      simp at this
    | some e =>
      have hk : e.1 = k := by simpa using List.find?_some hf
      have hmem := List.mem_of_find?_eq_some hf
      have : e.2 = v := m.value_unique (k := k) (hk ▸ hmem) h
      simp [this]
  · intro h
    obtain ⟨e, he, hv⟩ := Option.map_eq_some_iff.mp h
    have hk : e.1 = k := by simpa using List.find?_some he
    have hmem := List.mem_of_find?_eq_some he
    rw [← hk, ← hv]
    exact hmem

@[simp] theorem get?_empty (k : K) : (empty : OrdMap K V).get? k = none := rfl

@[simp] theorem get?_put (m : OrdMap K V) (k k' : K) (v : V) :
    (m.put k v).get? k' = if k' = k then some v else m.get? k' := by
  apply Option.ext
  intro w
  rw [← mem_entries]
  by_cases h : k' = k
  · subst h
    simp [put, eq_comm]
  · have hlt : k' < k ∨ k < k' := lt_or_gt_of_ne h
    simp only [put, List.mem_append, List.mem_filter, List.mem_cons, Prod.mk.injEq, h,
      false_and, false_or, decide_eq_true_eq, if_false, ← mem_entries]
    tauto

@[simp] theorem get?_erase (m : OrdMap K V) (k k' : K) :
    (m.erase k).get? k' = if k' = k then none else m.get? k' := by
  apply Option.ext
  intro w
  rw [← mem_entries]
  by_cases h : k' = k <;> simp [erase, h, ← mem_entries]

/-- Maps are equal when their lookups agree. -/
theorem ext_get? {m n : OrdMap K V} (h : ∀ k, m.get? k = n.get? k) : m = n := by
  have hmem : ∀ e, e ∈ m.entries ↔ e ∈ n.entries := by
    rintro ⟨k, v⟩
    rw [mem_entries, mem_entries, h]
  have hperm : m.entries.Perm n.entries := by
    refine (List.perm_ext_iff_of_nodup ?_ ?_).mpr hmem
    · exact m.sorted.imp (fun hlt he => by rw [he] at hlt; exact lt_irrefl _ hlt)
    · exact n.sorted.imp (fun hlt he => by rw [he] at hlt; exact lt_irrefl _ hlt)
  have : m.entries = n.entries := by
    refine hperm.eq_of_pairwise ?_ m.sorted n.sorted
    intro a b _ _ hab hba
    exact absurd (lt_trans hab hba) (lt_irrefl _)
  cases m; cases n; cases this; rfl

/-- Storing under a new key adds one entry. -/
theorem length_put_of_none {m : OrdMap K V} {k : K} (v : V) (h : m.get? k = none) :
    (m.put k v).entries.length = m.entries.length + 1 := by
  have hne : ∀ e ∈ m.entries, e.1 ≠ k := by
    rintro ⟨k', w⟩ he rfl
    rw [(m.mem_entries _ w).mp he] at h
    cases h
  have hafter : m.entries.filter (fun e => decide (k < e.1)) =
      m.entries.filter (fun e => !decide (e.1 < k)) := by
    refine List.filter_congr fun e he => ?_
    rw [← decide_not, decide_eq_decide, not_lt]
    exact ⟨le_of_lt, fun hle => lt_of_le_of_ne hle (hne e he).symm⟩
  show (m.entries.filter _ ++ (k, v) :: m.entries.filter _).length = _
  rw [hafter, List.length_append, List.length_cons, ← Nat.add_assoc]
  exact congrArg (· + 1) (List.length_eq_length_filter_add _).symm

/-- Storing entries with different keys one by one leaves each of them. -/
theorem get?_foldl_put {es : List (K × V)} (h : (es.map (·.1)).Nodup) (m : OrdMap K V) (k : K)
    (v : V) : (es.foldl (fun m e => m.put e.1 e.2) m).get? k = some v ↔
      (k, v) ∈ es ∨ (∀ e ∈ es, e.1 ≠ k) ∧ m.get? k = some v := by
  induction es generalizing m with
  | nil => simp
  | cons e es ih =>
    obtain ⟨hhead, htail⟩ := List.nodup_cons.mp h
    have hfresh : ∀ e' ∈ es, e'.1 ≠ e.1 := fun e' he' heq =>
      hhead (List.mem_map.mpr ⟨e', he', heq⟩)
    rw [List.foldl_cons, ih htail, get?_put]
    by_cases hk : k = e.1
    · subst hk
      rw [if_pos rfl]
      constructor
      · rintro (hmem | ⟨-, hv⟩)
        · exact absurd rfl (hfresh (e.1, v) hmem)
        · cases hv
          exact .inl (by simp)
      · rintro (hmem | ⟨hne, -⟩)
        · rcases List.mem_cons.mp hmem with heq | hmem
          · exact .inr ⟨hfresh, congrArg some (congrArg Prod.snd heq).symm⟩
          · exact absurd rfl (hfresh (e.1, v) hmem)
        · exact absurd rfl (hne e (by simp))
    · rw [if_neg hk]
      constructor
      · rintro (hmem | ⟨hne, hv⟩)
        · exact .inl (List.mem_cons_of_mem _ hmem)
        · refine .inr ⟨fun e' he' => ?_, hv⟩
          rcases List.mem_cons.mp he' with rfl | he'
          · exact fun heq => hk heq.symm
          · exact hne e' he'
      · rintro (hmem | ⟨hne, hv⟩)
        · rcases List.mem_cons.mp hmem with heq | hmem
          · exact absurd (congrArg Prod.fst heq) hk
          · exact .inl hmem
        · exact .inr ⟨fun e' he' => hne e' (List.mem_cons_of_mem _ he'), hv⟩

/-- A key above all others goes to the end. -/
theorem entries_put_of_lt {m : OrdMap K V} {k : K} (v : V) (h : ∀ e ∈ m.entries, e.1 < k) :
    (m.put k v).entries = m.entries ++ [(k, v)] := by
  have hbefore : m.entries.filter (fun e => decide (e.1 < k)) = m.entries :=
    List.filter_eq_self.mpr fun e he => by simpa using h e he
  have hafter : m.entries.filter (fun e => decide (k < e.1)) = [] :=
    List.filter_eq_nil_iff.mpr fun e he => by simpa using le_of_lt (h e he)
  show m.entries.filter _ ++ (k, v) :: m.entries.filter _ = _
  rw [hbefore, hafter]

/-- Storing sorted entries one by one keeps their order. -/
theorem entries_foldl_put (es : List (K × V)) (m : OrdMap K V)
    (h : ∀ a ∈ m.entries, ∀ b ∈ es, a.1 < b.1) (hsorted : es.Pairwise fun a b => a.1 < b.1) :
    (es.foldl (fun m e => m.put e.1 e.2) m).entries = m.entries ++ es := by
  induction es generalizing m with
  | nil => simp
  | cons e es ih =>
    obtain ⟨hhead, htail⟩ := List.pairwise_cons.mp hsorted
    have hput := entries_put_of_lt e.2 fun a ha => h a ha e (by simp)
    rw [List.foldl_cons, ih (m.put e.1 e.2) ?_ htail, hput, List.append_assoc]
    · rfl
    · intro a ha b hb
      rw [hput] at ha
      rcases List.mem_append.mp ha with ha | ha
      · exact h a ha b (by simp [hb])
      · rw [List.mem_singleton.mp ha]
        exact hhead b hb

/-- A map over the positions of a list is that list, numbered. -/
theorem entries_eq_of_get? {m : OrdMap Nat V} {l : List V} (h : ∀ i, m.get? i = l[i]?) :
    m.entries = l.zipIdx.map fun e => (e.2, e.1) := by
  have hsorted : (l.zipIdx.map fun e => (e.2, e.1)).Pairwise fun a b => a.1 < b.1 :=
    List.pairwise_map.mpr (pairwise_zipIdx l)
  have hm : m = ⟨_, hsorted⟩ := by
    refine ext_get? fun i => Option.ext fun v => ?_
    rw [h, ← mem_entries, List.mem_map]
    constructor
    · exact fun hv => ⟨(v, i), List.mem_zipIdx_iff_getElem?.mpr hv, rfl⟩
    · rintro ⟨⟨v', i'⟩, hmem, heq⟩
      cases heq
      exact List.mem_zipIdx_iff_getElem?.mp hmem
  rw [hm]

/-- A map over the positions of a list holds its elements in order. -/
theorem values_eq_of_get? {m : OrdMap Nat V} {l : List V} (h : ∀ i, m.get? i = l[i]?) :
    m.entries.map (·.2) = l := by
  rw [entries_eq_of_get? h, List.map_map]
  show l.zipIdx.map Prod.fst = l
  exact List.zipIdx_map_fst 0 l

/-- The last entry is the one with the greatest key. -/
theorem last?_eq_some_iff (m : OrdMap K V) (k : K) (v : V) :
    m.last? = some (k, v) ↔ m.get? k = some v ∧ ∀ k' v', m.get? k' = some v' → k' ≤ k := by
  unfold last?
  constructor
  · intro h
    obtain ⟨init, hinit⟩ := List.getLast?_eq_some_iff.mp h
    have hsorted := m.sorted
    rw [hinit, List.pairwise_append] at hsorted
    refine ⟨?_, ?_⟩
    · rw [← mem_entries, hinit]
      simp
    · intro k' v' hk'
      rw [← mem_entries, hinit, List.mem_append] at hk'
      rcases hk' with hk' | hk'
      · exact le_of_lt (hsorted.2.2 _ hk' (k, v) (by simp))
      · simp only [List.mem_singleton, Prod.mk.injEq] at hk'
        exact le_of_eq hk'.1
  · rintro ⟨hget, hmax⟩
    rw [← mem_entries] at hget
    cases hl : m.entries.getLast? with
    | none =>
      rw [List.getLast?_eq_none_iff] at hl
      rw [hl] at hget
      cases hget
    | some e =>
      obtain ⟨init, hinit⟩ := List.getLast?_eq_some_iff.mp hl
      have hsorted := m.sorted
      rw [hinit, List.pairwise_append] at hsorted
      rw [hinit, List.mem_append, List.mem_singleton] at hget
      rcases hget with hget | hget
      · have hlt : k < e.1 := hsorted.2.2 _ hget e (by simp)
        have hle : e.1 ≤ k := hmax e.1 e.2 (by rw [← mem_entries, hinit]; simp)
        exact absurd hlt (not_lt_of_ge hle)
      · rw [hget]

/-- A map has no last entry exactly when every lookup fails. -/
theorem last?_eq_none_iff (m : OrdMap K V) : m.last? = none ↔ ∀ k, m.get? k = none := by
  unfold last?
  rw [List.getLast?_eq_none_iff]
  constructor
  · intro h k
    simp [get?, h]
  · intro h
    apply List.eq_nil_iff_forall_not_mem.mpr
    rintro ⟨k, v⟩ hmem
    rw [mem_entries, h] at hmem
    cases hmem

end OrdMap

end Lib
