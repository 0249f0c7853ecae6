import Dogpaddle.Flow.Chain
import Dogpaddle.Flow.Refine

/-!
# Resolved graphs

What resolution makes of a graph with backward input edges:

* every node is a head or a tail of one head, at one place (`StandsOnce`);
* the tails of a head are the longest chain of fused nodes after it (`Fused`);
* the links of the chains and the consumers of the heads are the edges of the graph, each
  once (`evaluation`);
* a path of heads is no longer than the depth of its last one (`length_le_depth`), and the
  durable stack is such a path.
-/

namespace Dogpaddle.Flow

open Dogpaddle Lib

variable {S Q Row : Type} {nodes : List (RuntimeNode S Q Row)}

/-- Every input refers to an earlier node. -/
def Backward (nodes : List (RuntimeNode S Q Row)) : Prop :=
  ∀ (i : Nat) (node : RuntimeNode S Q Row), nodes[i]? = some node →
    ∀ input ∈ node.inputs, input < i

/-- A single-input atomic node that is the only consumer of its producer. -/
def Fused (nodes : List (RuntimeNode S Q Row)) (producer i : Nat) : Prop :=
  consumersOf nodes producer = [⟨i, 0⟩] ∧
    ∃ node, nodes[i]? = some node ∧ node.operation.isAtomic = true ∧ node.inputs = [producer]

theorem fusedTo_iff {node : RuntimeNode S Q Row} {i producer : Nat}
    (hnode : nodes[i]? = some node) :
    fusedTo nodes node = some producer ↔ Fused nodes producer i := by
  constructor
  · intro h
    refine ⟨fusedTo_eq_some hnode h, node, hnode, ?_⟩
    unfold fusedTo at h
    split at h
    · next p hinputs =>
      split at h
      · next hfused =>
        cases h
        exact ⟨hfused.1, hinputs⟩
      · cases h
    · cases h
  · rintro ⟨hconsumers, node', hnode', hatomic, hinputs⟩
    rw [hnode, Option.some.injEq] at hnode'
    subst hnode'
    unfold fusedTo
    rw [hinputs]
    exact if_pos ⟨hatomic, by rw [hconsumers]; rfl⟩

theorem Fused.producer_unique {p q i : Nat} (hp : Fused nodes p i) (hq : Fused nodes q i) :
    p = q := by
  obtain ⟨node, hnode, -, hinputs⟩ := hp.2
  obtain ⟨node', hnode', -, hinputs'⟩ := hq.2
  rw [hnode, Option.some.injEq] at hnode'
  rw [hnode', hinputs'] at hinputs
  exact (List.cons.inj hinputs).1.symm

theorem Fused.lt (hback : Backward nodes) {producer i : Nat} (h : Fused nodes producer i) :
    producer < i := by
  obtain ⟨node, hnode, -, hinputs⟩ := h.2
  exact hback i node hnode producer (by simp [hinputs])

theorem Fused.lt_length {producer i : Nat} (h : Fused nodes producer i) : i < nodes.length := by
  obtain ⟨node, hnode, -⟩ := h.2
  exact (List.getElem?_eq_some_iff.mp hnode).1

/-! ## Heads and tails -/

/-- The tables after the first `k` nodes: later nodes are their own heads, fused nodes are
tails of the head of their producer, in declaration order. -/
structure TablesInv (nodes : List (RuntimeNode S Q Row)) (k : Nat) (f : Fusion) : Prop where
  fresh : ∀ x, k ≤ x → f.heads x = true
  root : ∀ x, f.heads (f.headOf x) = true ∧ f.headOf x ≤ x
  own : ∀ x, f.heads x = true → f.headOf x = x
  fused : ∀ x, x < k → (f.heads x = false ↔ ∃ producer, Fused nodes producer x)
  linked : ∀ x producer, f.heads x = false → Fused nodes producer x →
    f.headOf x = f.headOf producer
  member : ∀ head x, x ∈ f.tails head ↔ f.heads x = false ∧ f.headOf x = head
  sorted : ∀ head, (f.tails head).Pairwise (· < ·)

theorem TablesInv.lt {k : Nat} {f : Fusion} (h : TablesInv nodes k f) {head x : Nat}
    (hx : x ∈ f.tails head) : x < k := by
  by_contra hle
  have hfresh := h.fresh x (by omega)
  rw [((h.member head x).mp hx).1] at hfresh
  cases hfresh

theorem TablesInv.fuse (hback : Backward nodes) {k : Nat} {f : Fusion}
    {node : RuntimeNode S Q Row} (h : TablesInv nodes k f) (hnode : nodes[k]? = some node) :
    TablesInv nodes (k + 1) (fuse nodes f (node, k)) := by
  unfold Flow.fuse
  cases hfused : fusedTo nodes node with
  | none =>
    refine ⟨fun x hx => h.fresh x (by omega), h.root, h.own, fun x hx => ?_, h.linked, h.member,
      h.sorted⟩
    rcases Nat.lt_or_eq_of_le (Nat.le_of_lt_succ hx) with hlt | rfl
    · exact h.fused x hlt
    · rw [h.fresh x le_rfl]
      refine ⟨fun hfalse => (nomatch hfalse), fun ⟨producer, hproducer⟩ => ?_⟩
      rw [(fusedTo_iff hnode).mpr hproducer] at hfused
      cases hfused
  | some producer =>
    have hproducer := (fusedTo_iff hnode).mp hfused
    have hlt : producer < k := hproducer.lt hback
    have hhead := h.root producer
    have hne : f.headOf producer ≠ k := by omega
    have hheads : ∀ x, Function.update f.heads k false x = if x = k then false else f.heads x :=
      fun x => by rw [Function.update_apply]
    refine ⟨fun x hx => ?_, fun x => ?_, fun x hx => ?_, fun x hx => ?_, fun x p hx hp => ?_,
      fun head x => ?_, fun head => ?_⟩
    · dsimp only
      rw [hheads, if_neg (by omega)]
      exact h.fresh x (by omega)
    · dsimp only
      by_cases hx : x = k
      · subst hx
        rw [Function.update_self, hheads, if_neg hne]
        exact ⟨hhead.1, by omega⟩
      · have hroot := h.root x
        have hother : f.headOf x ≠ k := by
          intro heq
          rw [heq] at hroot
          have hown := h.own x (h.fresh x hroot.2)
          omega
        rw [Function.update_of_ne hx, hheads, if_neg hother]
        exact hroot
    · dsimp only at hx ⊢
      rw [hheads] at hx
      split at hx
      · cases hx
      · next hxk =>
        rw [Function.update_of_ne hxk]
        exact h.own x hx
    · dsimp only
      rw [hheads]
      split
      · next heq =>
        rw [heq]
        exact ⟨fun _ => ⟨producer, hproducer⟩, fun _ => rfl⟩
      · exact h.fused x (by omega)
    · dsimp only at hx ⊢
      rw [hheads] at hx
      split at hx
      · next heq =>
        subst heq
        have hsame := hp.producer_unique hproducer
        subst hsame
        rw [Function.update_self, Function.update_of_ne (by omega)]
      · next hxk =>
        have hxlt : x < k := by
          by_contra hle
          rw [h.fresh x (by omega)] at hx
          cases hx
        have hpx := hp.lt hback
        rw [Function.update_of_ne hxk, Function.update_of_ne (by omega)]
        exact h.linked x p hx hp
    · dsimp only
      rw [hheads, Function.update_apply, Function.update_apply]
      by_cases hx : x = k
      · subst hx
        have hout : x ∉ f.tails head := fun hmem => lt_irrefl _ (h.lt hmem)
        rw [if_pos rfl, if_pos rfl]
        split
        · next heq => simp [heq]
        · next hhd => simp [hout, eq_comm, hhd]
      · rw [if_neg hx, if_neg hx, ← h.member]
        split
        · next heq => simp [hx, heq]
        · rfl
    · dsimp only
      rw [Function.update_apply]
      split
      · refine List.pairwise_append.mpr ⟨h.sorted _, List.pairwise_singleton _ _, ?_⟩
        intro x hx y hy
        rw [List.mem_singleton.mp hy]
        exact h.lt hx
      · exact h.sorted head

theorem tablesInv_fusion (hback : Backward nodes) :
    TablesInv nodes nodes.length (fusion nodes) := by
  have hstart : TablesInv nodes 0 Fusion.start := by
    refine ⟨fun _ _ => rfl, fun _ => ⟨rfl, le_rfl⟩, fun _ _ => rfl, fun _ h => (nomatch h),
      fun _ _ h => (nomatch h), fun head x => ?_, fun _ => .nil⟩
    exact ⟨fun h => (nomatch h), fun h => (nomatch h.1)⟩
  exact foldl_zipIdx_inv hstart fun _ _ _ hnode h => h.fuse hback hnode

/-! ## Chains -/

/-- A node stands as a head, or at one place in the tails of one earlier head. -/
def StandsOnce (t : ResolvedTopology) (i : Nat) : Prop :=
  (t.heads i = true ∧ ∀ head, i ∉ t.tails head) ∨
    (t.heads i = false ∧ ∃ head, head < i ∧ t.heads head = true ∧
      (t.tails head).count i = 1 ∧ ∀ other, i ∈ t.tails other → other = head)

/-- Nothing in ascending order comes after the last one. -/
theorem le_getLast {l : List Nat} (h : l.Pairwise (· < ·)) {x : Nat} (hx : x ∈ l) (d : Nat) :
    x ≤ l.getLast?.getD d := by
  cases hlast : l.getLast? with
  | none =>
    rw [List.getLast?_eq_none_iff.mp hlast] at hx
    cases hx
  | some last =>
    obtain ⟨init, rfl⟩ := List.getLast?_eq_some_iff.mp hlast
    rcases List.mem_append.mp hx with hinit | hend
    · exact le_of_lt ((List.pairwise_append.mp h).2.2 x hinit last (by simp))
    · rw [List.mem_singleton.mp hend]
      rfl

section Resolved

variable {t : ResolvedTopology}

/-- The tables of a resolved graph. -/
theorem tablesInv_of_resolve (hback : Backward nodes) (h : resolve nodes = .ok t) :
    TablesInv nodes nodes.length ⟨t.tails, t.heads, (fusion nodes).headOf⟩ := by
  obtain ⟨htails, hheads, -⟩ := resolve_eq_ok h
  rw [htails, hheads]
  exact tablesInv_fusion hback

theorem standsOnce (hback : Backward nodes) (h : resolve nodes = .ok t) (i : Nat) :
    StandsOnce t i := by
  have hinv := tablesInv_of_resolve hback h
  cases hi : t.heads i with
  | true =>
    refine .inl ⟨hi, fun head hmem => ?_⟩
    have hfalse := ((hinv.member head i).mp hmem).1
    dsimp only at hfalse
    rw [hi] at hfalse
    cases hfalse
  | false =>
    have hmem := (hinv.member ((fusion nodes).headOf i) i).mpr ⟨hi, rfl⟩
    obtain ⟨hroot, hle⟩ := hinv.root i
    dsimp only at hmem hroot hle
    have hne : (fusion nodes).headOf i ≠ i := by
      intro heq
      rw [heq, hi] at hroot
      cases hroot
    have hnodup := (hinv.sorted ((fusion nodes).headOf i)).imp fun hlt => hlt.ne
    refine .inr ⟨hi, (fusion nodes).headOf i, by omega, hroot,
      List.count_eq_one_of_mem hnodup hmem, fun other hother => ?_⟩
    exact ((hinv.member other i).mp hother).2.symm

/-- The nodes of a chain have its head as theirs. -/
theorem headOf_of_mem_chain (hback : Backward nodes) (h : resolve nodes = .ok t) {head x : Nat}
    (hhead : t.heads head = true) (hx : x ∈ head :: t.tails head) :
    (fusion nodes).headOf x = head := by
  have hinv := tablesInv_of_resolve hback h
  rcases List.mem_cons.mp hx with rfl | hx
  · exact hinv.own x hhead
  · exact ((hinv.member head x).mp hx).2

theorem chainEnd_mem (tails : Nat → List Nat) (head : Nat) :
    chainEnd tails head ∈ head :: tails head := by
  unfold chainEnd
  cases hlast : (tails head).getLast? with
  | none => exact List.mem_cons_self
  | some last => exact List.mem_cons_of_mem _ (List.mem_of_getLast? hlast)

theorem ChainFrom.isChain {prev : Nat} {l : List Nat} (h : ChainFrom nodes prev l)
    (hfused : ∀ x ∈ l, ∃ producer, Fused nodes producer x) :
    (prev :: l).IsChain (Fused nodes) := by
  induction l generalizing prev with
  | nil => exact .singleton _
  | cons x rest ih =>
    obtain ⟨producer, hproducer⟩ := hfused x (by simp)
    have hsame : producer = prev := Flow.producer_unique (c := ⟨x, 0⟩)
      (by rw [hproducer.1]; simp) (by rw [h.1]; simp)
    subst hsame
    exact .cons_cons hproducer (ih h.2 fun y hy => hfused y (by simp [hy]))

/-- The tails of a head are the longest chain of fused nodes after it, in declaration order. -/
theorem tails_chain (hback : Backward nodes) (h : resolve nodes = .ok t) {head : Nat}
    (hhead : t.heads head = true) :
    (head :: t.tails head).IsChain (Fused nodes) ∧
      (head :: t.tails head).Pairwise (· < ·) ∧
      ∀ x, ¬ Fused nodes (chainEnd t.tails head) x := by
  have hinv := tablesInv_of_resolve hback h
  have hfused : ∀ x ∈ t.tails head, ∃ producer, Fused nodes producer x := fun x hx =>
    (hinv.fused x (hinv.lt hx)).mp ((hinv.member head x).mp hx).1
  have hchain := (chainFrom_of_resolve h head).isChain hfused
  have hsorted : (head :: t.tails head).Pairwise (· < ·) :=
    List.isChain_iff_pairwise.mp (hchain.imp fun _ _ hlink => hlink.lt hback)
  refine ⟨hchain, hsorted, fun x hx => ?_⟩
  -- A node fused to the end of the chain would be one of its tails and come after the last.
  have hfalse : t.heads x = false := (hinv.fused x hx.lt_length).mpr ⟨_, hx⟩
  have hof : (fusion nodes).headOf x = head :=
    (hinv.linked x _ hfalse hx).trans
      (headOf_of_mem_chain hback h hhead (chainEnd_mem t.tails head))
  have hle := le_getLast (hinv.sorted head) ((hinv.member head x).mpr ⟨hfalse, hof⟩) head
  exact absurd (hx.lt hback) (not_lt.mpr hle)

/-- The consumers of a head are heads. -/
theorem heads_of_mem_consumers (hback : Backward nodes) (h : resolve nodes = .ok t) {head : Nat}
    (hhead : t.heads head = true) {c : Consumer} (hc : c ∈ t.consumers head) :
    t.heads c.operation = true := by
  have hinv := tablesInv_of_resolve hback h
  rw [(resolve_eq_ok h).2.2 head] at hc
  obtain ⟨node, hnode, hport⟩ := mem_consumersOf.mp hc
  by_contra hfalse
  obtain ⟨producer, hproducer⟩ := (hinv.fused c.operation
    (List.getElem?_eq_some_iff.mp hnode).1).mp (Bool.not_eq_true _ ▸ hfalse)
  obtain ⟨node', hnode', -, hinputs⟩ := hproducer.2
  rw [hnode, Option.some.injEq] at hnode'
  rw [hnode', hinputs] at hport
  have hsame : chainEnd t.tails head = producer :=
    List.mem_singleton.mp (List.mem_of_getElem? hport)
  rw [← hsame] at hproducer
  exact (tails_chain hback h hhead).2.2 c.operation hproducer

/-! ## Edges -/

/-- The edges out of a node. -/
def edgesFrom (nodes : List (RuntimeNode S Q Row)) (producer : Nat) : List (Nat × Consumer) :=
  (consumersOf nodes producer).map (producer, ·)

/-- The links of a chain. -/
def links : Nat → List Nat → List (Nat × Consumer)
  | _, [] => []
  | prev, tail :: rest => (prev, ⟨tail, 0⟩) :: links tail rest

/-- What one page of a head crosses: the links to its tails, then the edges to its consumers. -/
def ResolvedTopology.evaluates (t : ResolvedTopology) (head : Nat) : List (Nat × Consumer) :=
  links head (t.tails head) ++ (t.consumers head).map (chainEnd t.tails head, ·)

/-- What the pages of all heads cross. -/
def ResolvedTopology.evaluation (t : ResolvedTopology) (count : Nat) : List (Nat × Consumer) :=
  ((List.range count).filter fun head => t.heads head).flatMap t.evaluates

theorem ChainFrom.edges {prev : Nat} {l : List Nat} (h : ChainFrom nodes prev l) :
    links prev l ++ edgesFrom nodes (l.getLast?.getD prev) =
      (prev :: l).flatMap (edgesFrom nodes) := by
  induction l generalizing prev with
  | nil => simp [links]
  | cons tail rest ih =>
    have hlink : edgesFrom nodes prev = [(prev, ⟨tail, 0⟩)] := by
      rw [edgesFrom, h.1]
      rfl
    rw [links, List.flatMap_cons, hlink, ← ih h.2, List.getLast?_cons, Option.getD_some]
    rfl

/-- A head and its tails cross the edges out of each of them. -/
theorem evaluates_eq (h : resolve nodes = .ok t) (head : Nat) :
    t.evaluates head = (head :: t.tails head).flatMap (edgesFrom nodes) := by
  rw [← (chainFrom_of_resolve h head).edges, ResolvedTopology.evaluates,
    (resolve_eq_ok h).2.2 head]
  rfl

/-- The chains of all heads are the nodes, each once. -/
theorem chains_perm (hback : Backward nodes) (h : resolve nodes = .ok t) :
    (((List.range nodes.length).filter fun head => t.heads head).flatMap
      fun head => head :: t.tails head).Perm (List.range nodes.length) := by
  have hinv := tablesInv_of_resolve hback h
  have hmem : ∀ head ∈ (List.range nodes.length).filter fun head => t.heads head,
      t.heads head = true := fun head hhead => (List.mem_filter.mp hhead).2
  refine (List.perm_ext_iff_of_nodup ?_ List.nodup_range).mpr fun x => ?_
  · refine List.pairwise_flatMap.mpr ⟨fun head hhead => ?_, ?_⟩
    · exact (tails_chain hback h (hmem head hhead)).2.1.imp fun hlt => hlt.ne
    · refine (List.nodup_range.filter _).imp_of_mem fun {a b} ha hb hne x hx y hy heq => hne ?_
      rw [← headOf_of_mem_chain hback h (hmem a ha) hx, heq,
        headOf_of_mem_chain hback h (hmem b hb) hy]
  · rw [List.mem_flatMap, List.mem_range]
    constructor
    · rintro ⟨head, hhead, hx⟩
      rcases List.mem_cons.mp hx with rfl | hx
      · exact List.mem_range.mp (List.mem_filter.mp hhead).1
      · exact hinv.lt hx
    · intro hx
      rcases standsOnce hback h x with ⟨hhead, -⟩ | ⟨hfalse, head, hlt, hhead, hcount, -⟩
      · exact ⟨x, List.mem_filter.mpr ⟨List.mem_range.mpr hx, hhead⟩, List.mem_cons_self⟩
      · refine ⟨head, List.mem_filter.mpr ⟨List.mem_range.mpr (by omega), hhead⟩, ?_⟩
        exact List.mem_cons_of_mem _ (List.count_pos_iff.mp (by omega))

/-- Every edge of the graph is crossed by the pages of the heads, and once. -/
theorem evaluation_exact (hback : Backward nodes) (h : resolve nodes = .ok t) :
    (t.evaluation nodes.length).Nodup ∧
      ∀ p c, (p, c) ∈ t.evaluation nodes.length ↔
        ∃ node, nodes[c.operation]? = some node ∧ node.inputs[c.port]? = some p := by
  have hperm : (t.evaluation nodes.length).Perm
      ((List.range nodes.length).flatMap (edgesFrom nodes)) := by
    have hchains := (chains_perm hback h).flatMap_right (edgesFrom nodes)
    rw [List.flatMap_assoc] at hchains
    unfold ResolvedTopology.evaluation
    rwa [show t.evaluates = _ from funext fun head => evaluates_eq h head]
  constructor
  · refine hperm.nodup_iff.mpr (List.pairwise_flatMap.mpr ⟨fun p _ => ?_, ?_⟩)
    · exact (nodup_consumersOf nodes p).map fun _ _ heq => (Prod.mk.inj heq).2
    · refine List.nodup_range.imp fun {p q} hne a ha b hb heq => hne ?_
      obtain ⟨c, -, rfl⟩ := List.mem_map.mp ha
      obtain ⟨d, -, rfl⟩ := List.mem_map.mp hb
      exact (Prod.mk.inj heq).1
  · intro p c
    rw [hperm.mem_iff, ← mem_consumersOf, List.mem_flatMap]
    constructor
    · rintro ⟨q, -, hq⟩
      obtain ⟨d, hd, heq⟩ := List.mem_map.mp hq
      cases heq
      exact hd
    · intro hc
      obtain ⟨node, hnode, hport⟩ := mem_consumersOf.mp hc
      have hlt := hback c.operation node hnode p (List.mem_of_getElem? hport)
      have hlength := (List.getElem?_eq_some_iff.mp hnode).1
      exact ⟨p, List.mem_range.mpr (by omega), List.mem_map.mpr ⟨c, hc, rfl⟩⟩

/-! ## Depth -/

/-- The depths of the heads, as resolution computes them. -/
def depths (nodes : List (RuntimeNode S Q Row)) : Except TopologyError (Nat → Nat) :=
  nodes.zipIdx.foldlM (deepen (fusion nodes)) (fun _ => 0)

/-- A node that is given a depth. -/
def Computes (nodes : List (RuntimeNode S Q Row)) (i : Nat) : Prop :=
  ∃ node, nodes[i]? = some node ∧ node.operation.isSink = false

/-- Computing heads below `k` are at most `maxDepth` deep, and deeper than what feeds them. -/
structure DepthInv (nodes : List (RuntimeNode S Q Row)) (k : Nat) (depth : Nat → Nat) : Prop where
  bounded : ∀ i, depth i ≤ maxDepth
  deeper : ∀ i node, i < k → (fusion nodes).heads i = true → nodes[i]? = some node →
    node.operation.isSink = false →
    0 < depth i ∧ ∀ input ∈ node.inputs, depth ((fusion nodes).headOf input) < depth i

theorem le_foldl_max (l : List Nat) (init : Nat) :
    init ≤ l.foldl max init ∧ ∀ x ∈ l, x ≤ l.foldl max init := by
  induction l generalizing init with
  | nil => exact ⟨le_rfl, fun _ h => (nomatch h)⟩
  | cons a l ih =>
    obtain ⟨hinit, hmem⟩ := ih (max init a)
    refine ⟨(le_max_left init a).trans hinit, fun x hx => ?_⟩
    rcases List.mem_cons.mp hx with rfl | hx
    · exact (le_max_right init x).trans hinit
    · exact hmem x hx

theorem DepthInv.deepen (hback : Backward nodes) {k : Nat} {depth depth' : Nat → Nat}
    {node : RuntimeNode S Q Row} (h : DepthInv nodes k depth) (hnode : nodes[k]? = some node)
    (hok : deepen (fusion nodes) depth (node, k) = .ok depth') :
    DepthInv nodes (k + 1) depth' := by
  have htables := tablesInv_fusion hback
  unfold Flow.deepen at hok
  split at hok
  · next hskip =>
    cases hok
    refine ⟨h.bounded, fun i node' hi hhead hnode' hsink => ?_⟩
    rcases Nat.lt_or_eq_of_le (Nat.le_of_lt_succ hi) with hlt | rfl
    · exact h.deeper i node' hlt hhead hnode' hsink
    · rw [hnode, Option.some.injEq] at hnode'
      subst hnode'
      rcases hskip with hskip | hskip
      · exact absurd hhead hskip
      · exact absurd hskip (by simp [hsink])
  · rw [except_ite_eq_ok] at hok
    obtain ⟨hbound, hok⟩ := hok
    cases hok
    -- what feeds a node has an earlier head, whose depth stays
    have hkept : ∀ (i : Nat) (node' : RuntimeNode S Q Row), i ≤ k → nodes[i]? = some node' →
        ∀ input ∈ node'.inputs, (fusion nodes).headOf input ≠ k := by
      intro i node' hi hnode' input hinput
      have hlt := hback i node' hnode' input hinput
      have hle := (htables.root input).2
      omega
    refine ⟨fun i => ?_, fun i node' hi hhead hnode' hsink => ?_⟩
    · rw [Function.update_apply]
      split
      · exact not_lt.mp hbound
      · exact h.bounded i
    · rcases Nat.lt_or_eq_of_le (Nat.le_of_lt_succ hi) with hlt | rfl
      · obtain ⟨hpos, hdeeper⟩ := h.deeper i node' hlt hhead hnode' hsink
        rw [Function.update_of_ne (by omega)]
        refine ⟨hpos, fun input hinput => ?_⟩
        rw [Function.update_of_ne (hkept i node' (by omega) hnode' input hinput)]
        exact hdeeper input hinput
      · rw [hnode, Option.some.injEq] at hnode'
        subst hnode'
        rw [Function.update_self]
        refine ⟨Nat.succ_pos _, fun input hinput => ?_⟩
        rw [Function.update_of_ne (hkept i node le_rfl hnode input hinput)]
        exact Nat.lt_succ_of_le ((le_foldl_max _ _).2 _ (List.mem_map.mpr ⟨input, hinput, rfl⟩))

/-- A fallible pass over the numbered elements keeps an invariant that each step advances. -/
theorem foldlM_zipIdx_inv {ε α β : Type} {g : β → α × Nat → Except ε β} {Inv : Nat → β → Prop}
    {l : List α} {b b' : β} (hstart : Inv 0 b)
    (hstep : ∀ k a acc acc', l[k]? = some a → Inv k acc → g acc (a, k) = .ok acc' →
      Inv (k + 1) acc')
    (h : l.zipIdx.foldlM g b = .ok b') : Inv l.length b' := by
  have hfold : ∀ (rest : List α) (k : Nat) (acc : β),
      (∀ i a, rest[i]? = some a → l[k + i]? = some a) → Inv k acc →
      (rest.zipIdx k).foldlM g acc = .ok b' → Inv (k + rest.length) b' := by
    intro rest
    induction rest with
    | nil =>
      intro k acc _ hacc hrest
      cases hrest
      exact hacc
    | cons a rest ih =>
      intro k acc hget hacc hrest
      rw [List.zipIdx_cons, List.foldlM_cons, except_bind_eq_ok] at hrest
      obtain ⟨acc', hfirst, hrest⟩ := hrest
      rw [List.length_cons, show k + (rest.length + 1) = k + 1 + rest.length by omega]
      refine ih (k + 1) acc' (fun i a' hi => ?_) (hstep k a acc acc' (hget 0 a rfl) hacc hfirst)
        hrest
      have := hget (i + 1) a' (by simpa using hi)
      rwa [show k + 1 + i = k + (i + 1) by omega]
  simpa using hfold l 0 b (by simp) hstart h

theorem depths_of_resolve (hback : Backward nodes) (h : resolve nodes = .ok t) :
    ∃ depth, depths nodes = .ok depth ∧ DepthInv nodes nodes.length depth := by
  unfold resolve at h
  rw [except_bind_eq_ok] at h
  obtain ⟨-, -, h⟩ := h
  rw [except_bind_eq_ok] at h
  obtain ⟨depth, hdepth, -⟩ := h
  refine ⟨depth, hdepth, ?_⟩
  have hstart : DepthInv nodes 0 fun _ => 0 :=
    ⟨fun _ => Nat.zero_le _, fun _ _ hi => absurd hi (Nat.not_lt_zero _)⟩
  exact foldlM_zipIdx_inv hstart
    (fun _ _ _ _ hnode hinv hok => hinv.deepen hback hnode hok) hdepth

/-- Heads on a stack, topmost first: at the bottom any computing head, and above each one a
computing consumer of it. -/
inductive CallPath (nodes : List (RuntimeNode S Q Row)) (t : ResolvedTopology) :
    List Nat → Prop
  | root {head : Nat} : t.heads head = true → Computes nodes head → CallPath nodes t [head]
  | call {head : Nat} {below : List Nat} {c : Consumer} : CallPath nodes t (head :: below) →
      c ∈ t.consumers head → Computes nodes c.operation →
      CallPath nodes t (c.operation :: head :: below)

theorem CallPath.heads (hback : Backward nodes) (h : resolve nodes = .ok t) {path : List Nat}
    (hpath : CallPath nodes t path) : ∀ head ∈ path, t.heads head = true := by
  induction hpath with
  | root hhead =>
    intro head hmem
    rw [List.mem_singleton.mp hmem]
    exact hhead
  | call _ hc _ ih =>
    intro head hmem
    rcases List.mem_cons.mp hmem with rfl | hmem
    · exact heads_of_mem_consumers hback h (ih _ (by simp)) hc
    · exact ih head hmem

/-- A stack is at most as high as its topmost head is deep. -/
theorem CallPath.length_le (hback : Backward nodes) (h : resolve nodes = .ok t)
    {depth : Nat → Nat} (hdepth : DepthInv nodes nodes.length depth) {head : Nat}
    {below : List Nat} (hpath : CallPath nodes t (head :: below)) :
    (head :: below).length ≤ depth head := by
  have htables := tablesInv_of_resolve hback h
  have hheads : t.heads = (fusion nodes).heads := (resolve_eq_ok h).2.1
  induction below generalizing head with
  | nil =>
    cases hpath with
    | root hhead hcomputes =>
      obtain ⟨node, hnode, hsink⟩ := hcomputes
      rw [hheads] at hhead
      exact (hdepth.deeper head node (List.getElem?_eq_some_iff.mp hnode).1 hhead hnode hsink).1
  | cons parent below ih =>
    have htop := hpath.heads hback h head (by simp)
    cases hpath with
    | @call _ _ c hbelow hc hcomputes =>
      have hparent := hbelow.heads hback h parent (by simp)
      have hle := ih hbelow
      obtain ⟨node, hnode, hsink⟩ := hcomputes
      rw [(resolve_eq_ok h).2.2 parent] at hc
      obtain ⟨node', hnode', hport⟩ := mem_consumersOf.mp hc
      rw [hnode, Option.some.injEq] at hnode'
      subst hnode'
      rw [hheads] at htop
      have hlt := (hdepth.deeper _ node (List.getElem?_eq_some_iff.mp hnode).1 htop hnode hsink).2
        _ (List.mem_of_getElem? hport)
      rw [headOf_of_mem_chain hback h hparent (chainEnd_mem t.tails parent)] at hlt
      rw [List.length_cons]
      omega

end Resolved

/-! ## The durable stack -/

section Stack

variable {rt : Runtime S Q Row} {store : Store S Q} {source : Nat}

theorem backward_of_validate {u : Unit} (h : validateDefinition nodes = .ok u) : Backward nodes :=
  fun _ _ hnode => (inputs_of_validate h hnode).2

theorem computes_of_operation {i : Nat} (hi : i < rt.nodes.length)
    (h : (rt.operation i).isSink = false) : Computes rt.nodes i := by
  refine ⟨rt.nodes[i], List.getElem?_eq_getElem hi, ?_⟩
  simpa [Runtime.operation, List.getElem?_eq_getElem hi] using h

/-- The tasks of a standing stack call each other. -/
theorem Stacked.callPath {task : Task Row} {below : List (Task Row)}
    (h : Stacked rt store source (task :: below)) (hsource : source < rt.nodes.length) :
    CallPath rt.nodes rt.topology ((task :: below).map Task.head) := by
  induction below generalizing task with
  | nil =>
    obtain ⟨hhead, -, hrole, -⟩ := h.2.1
    have hsink : (rt.operation source).isSink = false := by
      cases hop : rt.operation source <;> simp_all [Operation.isSource, Operation.isSink]
    have hcomputes := computes_of_operation hsource hsink
    rw [List.map_singleton, hhead]
    refine .root ?_ hcomputes
    by_contra hfalse
    -- a source has no input, so it is fused to nothing
    have hinv := tablesInv_of_resolve (backward_of_validate rt.validated) rt.resolved
    obtain ⟨producer, hproducer⟩ := (hinv.fused source hsource).mp (Bool.not_eq_true _ ▸ hfalse)
    obtain ⟨node, hnode, hatomic, -⟩ := hproducer.2
    have hop : rt.operation source = node.operation := by simp [Runtime.operation, hnode]
    rw [hop] at hrole
    cases hnode : node.operation <;> simp_all [Operation.isSource, Operation.isAtomic]
  | cons parent below ih =>
    obtain ⟨-, hfed, hbelow⟩ := h
    obtain ⟨head, port, next, after, c, encoded, hcontrol, hc, hhead, -, hsink, -⟩ := hfed
    obtain ⟨phase, hphase⟩ := hbelow.1.control
    rw [hphase, Option.some.injEq, Frame.mk.injEq] at hcontrol
    obtain ⟨rfl, -⟩ := hcontrol
    have hmem : c ∈ rt.topology.consumers parent.head := List.mem_of_getElem? hc
    have hedge := hmem
    rw [(resolve_eq_ok rt.resolved).2.2, mem_consumersOf] at hedge
    obtain ⟨node, hnode, -⟩ := hedge
    rw [hhead] at hsink
    have hcomputes := computes_of_operation (List.getElem?_eq_some_iff.mp hnode).1 hsink
    rw [List.map_cons, hhead]
    exact .call (ih hbelow) hmem hcomputes

/-- The controls of a standing stack, from the bottom up. -/
theorem Stacked.frames {tasks : List (Task Row)} (h : Stacked rt store source tasks) :
    ∃ frames : List Frame, frames.map Frame.head = (tasks.map Task.head).reverse ∧
      ∀ d, d < tasks.length → store.controls.get? d = frames[d]? := by
  induction tasks with
  | nil => exact ⟨[], rfl, fun _ hd => (nomatch hd)⟩
  | cons task below ih =>
    obtain ⟨frames, hheads, hget⟩ := ih h.2.2
    obtain ⟨phase, hphase⟩ := h.1.control
    have hlength : frames.length = below.length := by
      have := congrArg List.length hheads
      simpa using this
    refine ⟨frames ++ [⟨task.head, task.port, phase⟩], by simp [hheads], fun d hd => ?_⟩
    rcases Nat.lt_or_eq_of_le (Nat.le_of_lt_succ hd) with hlt | heq
    · rw [List.getElem?_append_left (by omega)]
      exact hget d hlt
    · rw [heq, hphase, ← hlength]
      simp

/-- In every run the heads on the durable stack call each other. -/
theorem stack_callPath {states : Nat → S} {outboxes : Nat → Q} {w : World S Q Row}
    (h : Reachable rt states outboxes w) : w.store.controls.entries = [] ∨
      ∃ path, CallPath rt.nodes rt.topology path ∧
        w.store.controls.entries.map (·.2.head) = path.reverse := by
  have hkept : Kept rt states w.store w.log := reachable_safe h
  obtain ⟨served, σ, events, -, hsituation, -⟩ := hkept.trace
  cases hsituation with
  | idle hstates hclear =>
    left
    refine List.eq_nil_iff_forall_not_mem.mpr fun e he => ?_
    have hget := (OrdMap.mem_entries _ e.1 e.2).mp he
    rw [(hclear e.1 (Nat.zero_le _)).1] at hget
    cases hget
  | @busy source item rest input top below _ hq hs hd hstand _ _ =>
    right
    have hsource : source < rt.nodes.length := by
      by_contra hle
      have hnone : rt.nodes[source]? = none := List.getElem?_eq_none (by omega)
      rw [Runtime.codec, hnone] at hd
      cases hd
    obtain ⟨frames, hheads, hget⟩ := hstand.stacked.frames
    have hlength : frames.length = (top :: below).length := by
      have := congrArg List.length hheads
      simpa using this
    have hvalues : w.store.controls.entries.map (·.2) = frames := by
      refine OrdMap.values_eq_of_get? fun d => ?_
      by_cases hlt : d < (top :: below).length
      · exact hget d hlt
      · rw [(hstand.clear d (by omega)).1, List.getElem?_eq_none (by omega)]
    refine ⟨_, hstand.stacked.callPath hsource, ?_⟩
    rw [← hheads, ← hvalues, List.map_map]
    rfl

end Stack

/-- A resolved graph: every node is a head or a tail at one place; tails are the chains of
fused nodes; the pages of the heads cross every edge once; and stacks of heads, which in every
run the durable stack is, are no higher than the depth of their topmost head. -/
theorem resolve_sound {t : ResolvedTopology} (hback : Backward nodes) (h : resolve nodes = .ok t) :
    (∀ i < nodes.length, StandsOnce t i) ∧
    (∀ head, t.heads head = true →
      (head :: t.tails head).IsChain (Fused nodes) ∧
      (head :: t.tails head).Pairwise (· < ·) ∧
      (∀ x, ¬ Fused nodes (chainEnd t.tails head) x) ∧
      t.consumers head = consumersOf nodes (chainEnd t.tails head)) ∧
    (t.evaluation nodes.length).Nodup ∧
    (∀ p c, (p, c) ∈ t.evaluation nodes.length ↔
      ∃ node, nodes[c.operation]? = some node ∧ node.inputs[c.port]? = some p) ∧
    (∃ depth, depths nodes = .ok depth ∧ ∀ head below, CallPath nodes t (head :: below) →
      (head :: below).length ≤ depth head ∧ depth head ≤ maxDepth) ∧
    ∀ rt : Runtime S Q Row, rt.nodes = nodes → ∀ states outboxes w,
      Reachable rt states outboxes w → w.store.controls.entries = [] ∨
        ∃ path, CallPath nodes t path ∧
          w.store.controls.entries.map (·.2.head) = path.reverse := by
  obtain ⟨hnodup, hedges⟩ := evaluation_exact hback h
  obtain ⟨depth, hdepths, hdepth⟩ := depths_of_resolve hback h
  refine ⟨fun i _ => standsOnce hback h i, fun head hhead => ?_, hnodup, hedges,
    ⟨depth, hdepths, fun head below hpath => ⟨hpath.length_le hback h hdepth, hdepth.bounded _⟩⟩,
    fun rt hnodes states outboxes w hw => ?_⟩
  · obtain ⟨hchain, hsorted, hlongest⟩ := tails_chain hback h hhead
    exact ⟨hchain, hsorted, hlongest, (resolve_eq_ok h).2.2 head⟩
  · subst hnodes
    have hsame := rt.resolved
    rw [h, Except.ok.injEq] at hsame
    rw [hsame]
    exact stack_callPath hw

/-- The source that feeds both ports of a union is two edges, each crossed once. -/
theorem resolve_sound_diamond :
    (diamond.topology.evaluation 3).Nodup ∧
      (0, ⟨1, 0⟩) ∈ diamond.topology.evaluation 3 ∧
      (0, ⟨1, 1⟩) ∈ diamond.topology.evaluation 3 := by
  have hsound := resolve_sound (backward_of_validate diamond.validated) diamond.resolved
  refine ⟨hsound.2.2.1, (hsound.2.2.2.1 0 ⟨1, 0⟩).mpr ?_, (hsound.2.2.2.1 0 ⟨1, 1⟩).mpr ?_⟩
  · exact ⟨_, rfl, rfl⟩
  · exact ⟨_, rfl, rfl⟩

end Dogpaddle.Flow
