import Dogpaddle.Flow.Topology
import Dogpaddle.Lib.OrdMap
import Mathlib.Data.List.Nodup
import Mathlib.Data.List.Infix

/-!
# Fused chains

The tails of a head form a chain: each node's only consumer edge is port 0 of
the next one. The fusion pass keeps this for every head while it appends nodes
(`FusionInv`), so every edge of the graph is either a link of one chain or leaves
the last node of one.
-/

namespace Dogpaddle.Flow

open Dogpaddle Lib

variable {S Q Row : Type} {nodes : List (RuntimeNode S Q Row)}

/-! ## Consumer edges -/

/-- An input edge has one producer. -/
theorem producer_unique {p q : Nat} {c : Consumer} (hp : c ∈ consumersOf nodes p)
    (hq : c ∈ consumersOf nodes q) : p = q := by
  obtain ⟨node, hnode, hport⟩ := mem_consumersOf.mp hp
  obtain ⟨node', hnode', hport'⟩ := mem_consumersOf.mp hq
  rw [hnode] at hnode'
  cases hnode'
  rw [hport] at hport'
  exact Option.some.inj hport'

/-- Edges of an admitted graph go to later declarations. -/
theorem lt_of_mem_consumersOf {u : Unit} (hv : validateDefinition nodes = .ok u) {p : Nat}
    {c : Consumer} (h : c ∈ consumersOf nodes p) : p < c.operation := by
  obtain ⟨node, hnode, hport⟩ := mem_consumersOf.mp h
  exact (inputs_of_validate hv hnode).2 p (List.mem_of_getElem? hport)

/-- Every edge is listed once. -/
theorem nodup_consumersOf (nodes : List (RuntimeNode S Q Row)) (p : Nat) :
    (consumersOf nodes p).Nodup := by
  unfold consumersOf List.Nodup
  rw [List.pairwise_flatMap]
  refine ⟨fun entry _ => ?_, ?_⟩
  · rw [List.pairwise_filterMap]
    refine (pairwise_zipIdx entry.1.inputs).imp ?_
    intro a b hab c hc d hd
    dsimp only at hc hd
    split at hc <;> simp only [reduceCtorEq, Option.some.injEq] at hc
    split at hd <;> simp only [reduceCtorEq, Option.some.injEq] at hd
    rw [← hc, ← hd]
    simp only [ne_eq, Consumer.mk.injEq, not_and]
    omega
  · refine (pairwise_zipIdx nodes).imp ?_
    intro a b hab c hc d hd
    obtain ⟨_, _, hc⟩ := List.mem_filterMap.mp hc
    obtain ⟨_, _, hd⟩ := List.mem_filterMap.mp hd
    dsimp only at hc hd
    split at hc <;> simp only [reduceCtorEq, Option.some.injEq] at hc
    split at hd <;> simp only [reduceCtorEq, Option.some.injEq] at hd
    rw [← hc, ← hd]
    simp only [ne_eq, Consumer.mk.injEq, not_and]
    omega

/-! ## Chains -/

/-- Each node of the list is the only consumer of the one before, at port 0. -/
def ChainFrom (nodes : List (RuntimeNode S Q Row)) : Nat → List Nat → Prop
  | _, [] => True
  | prev, t :: rest => consumersOf nodes prev = [⟨t, 0⟩] ∧ ChainFrom nodes t rest

theorem ChainFrom.snoc {prev k : Nat} {l : List Nat} (h : ChainFrom nodes prev l)
    (hk : consumersOf nodes (l.getLast?.getD prev) = [⟨k, 0⟩]) :
    ChainFrom nodes prev (l ++ [k]) := by
  induction l generalizing prev with
  | nil => exact ⟨hk, trivial⟩
  | cons t rest ih =>
    refine ⟨h.1, ih h.2 ?_⟩
    rwa [List.getLast?_cons, Option.getD_some] at hk

/-- What the fusion pass has established before node `k`: every node is still
the end of its chain, unless its only consumer was appended. -/
structure FusionInv (nodes : List (RuntimeNode S Q Row)) (k : Nat) (f : Fusion) : Prop where
  chain : ∀ head, ChainFrom nodes head (f.tails head)
  last : ∀ x, chainEnd f.tails (f.headOf x) = x ∨ ∃ y, y < k ∧ consumersOf nodes x = [⟨y, 0⟩]

theorem fusedTo_eq_some {node : RuntimeNode S Q Row} {k producer : Nat}
    (hnode : nodes[k]? = some node) (h : fusedTo nodes node = some producer) :
    consumersOf nodes producer = [⟨k, 0⟩] := by
  unfold fusedTo at h
  split at h
  · next p hinputs =>
    split at h
    · next hfused =>
      cases h
      obtain ⟨c, hc⟩ := List.length_eq_one_iff.mp hfused.2
      have hmem : (⟨k, 0⟩ : Consumer) ∈ consumersOf nodes producer :=
        mem_consumersOf.mpr ⟨node, hnode, by rw [hinputs]; rfl⟩
      rw [hc, List.mem_singleton] at hmem
      rw [hc, hmem]
    · cases h
  · cases h

theorem FusionInv.fuse {k : Nat} {f : Fusion} {node : RuntimeNode S Q Row}
    (h : FusionInv nodes k f) (hnode : nodes[k]? = some node) :
    FusionInv nodes (k + 1) (fuse nodes f (node, k)) := by
  unfold Flow.fuse
  cases hfused : fusedTo nodes node with
  | none =>
    refine ⟨h.chain, fun x => (h.last x).imp_right ?_⟩
    rintro ⟨y, hy, hc⟩
    exact ⟨y, by omega, hc⟩
  | some producer =>
    have hc := fusedTo_eq_some hnode hfused
    -- The producer's only consumer is this node, so nothing was appended after it.
    have hend : chainEnd f.tails (f.headOf producer) = producer := by
      rcases h.last producer with he | ⟨y, hy, hy'⟩
      · exact he
      · rw [hc] at hy'
        cases hy'
        omega
    refine ⟨fun head => ?_, fun x => ?_⟩
    · by_cases hhead : head = f.headOf producer
      · subst hhead
        simp only [Function.update_self]
        refine (h.chain _).snoc ?_
        rw [← hc]
        congr 1
      · simpa [hhead] using h.chain head
    · by_cases hx : x = k
      · subst hx
        left
        simp [chainEnd]
      · by_cases hhead : f.headOf x = f.headOf producer
        · -- The old end of this chain is the producer; it has a successor now.
          right
          rcases h.last x with he | ⟨y, hy, hy'⟩
          · rw [hhead, hend] at he
            exact ⟨k, by omega, by rw [← he, hc]⟩
          · exact ⟨y, by omega, hy'⟩
        · rcases h.last x with he | ⟨y, hy, hy'⟩
          · left
            simpa [chainEnd, hx, hhead] using he
          · exact .inr ⟨y, by omega, hy'⟩

/-- A pass over the numbered elements keeps an invariant that each step advances. -/
theorem foldl_zipIdx_inv {α β : Type} {g : β → α × Nat → β} {Inv : Nat → β → Prop} {l : List α}
    {b : β} (hstart : Inv 0 b)
    (hstep : ∀ k a acc, l[k]? = some a → Inv k acc → Inv (k + 1) (g acc (a, k))) :
    Inv l.length (l.zipIdx.foldl g b) := by
  have hfold : ∀ (rest : List α) (k : Nat) (acc : β),
      (∀ i a, rest[i]? = some a → l[k + i]? = some a) → Inv k acc →
      Inv (k + rest.length) ((rest.zipIdx k).foldl g acc) := by
    intro rest
    induction rest with
    | nil => exact fun _ _ _ h => h
    | cons a rest ih =>
      intro k acc hget h
      rw [List.zipIdx_cons, List.foldl_cons, List.length_cons,
        show k + (rest.length + 1) = k + 1 + rest.length by omega]
      refine ih (k + 1) _ (fun i a' hi => ?_) (hstep k a acc (hget 0 a rfl) h)
      have := hget (i + 1) a' (by simpa using hi)
      rwa [show k + 1 + i = k + (i + 1) by omega]
  simpa using hfold l 0 b (by simp) hstart

theorem fusionInv_fusion (nodes : List (RuntimeNode S Q Row)) :
    FusionInv nodes nodes.length (fusion nodes) := by
  have hstart : FusionInv nodes 0 Fusion.start :=
    ⟨fun _ => trivial, fun _ => .inl rfl⟩
  exact foldl_zipIdx_inv hstart fun _ _ _ hnode h => h.fuse hnode

/-- A chain runs forward. -/
theorem ChainFrom.lt {u : Unit} (hv : validateDefinition nodes = .ok u) {prev : Nat} {l : List Nat}
    (h : ChainFrom nodes prev l) : ∀ t ∈ l, prev < t := by
  induction l generalizing prev with
  | nil => simp
  | cons t rest ih =>
    have hlt : prev < t := lt_of_mem_consumersOf hv (c := ⟨t, 0⟩) (by rw [h.1]; simp)
    intro x hx
    rcases List.mem_cons.mp hx with rfl | hx
    · exact hlt
    · exact lt_trans hlt (ih h.2 x hx)

/-- The tails of a resolved head are a chain. -/
theorem chainFrom_of_resolve {t : ResolvedTopology} (h : resolve nodes = .ok t) (head : Nat) :
    ChainFrom nodes head (t.tails head) := by
  rw [(resolve_eq_ok h).1]
  exact (fusionInv_fusion nodes).chain head

end Dogpaddle.Flow
