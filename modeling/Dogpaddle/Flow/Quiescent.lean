import Dogpaddle.Flow.Refine
import Dogpaddle.Flow.Balance

/-!
# End to end

With an empty stack, everything a source published and the scheduler consumed
has run through the whole graph. `denote` is the relational meaning of a graph:
the bag at each node as a function of the bags its sources have published. Given
the law of every operator, the bag ever enqueued at a sink is what `denote` says.
-/

namespace Dogpaddle.Flow

open Dogpaddle Lib

variable {S Q Row : Type}

/-! ## The meaning of a graph -/

section Denote

/-- The bag that arrives at one port. -/
def portBag (node : RuntimeNode S Q Row) (values : Nat → Bag Row) (p : Nat) : Bag Row :=
  match node.inputs[p]? with
  | some q => values q
  | none => 0

/-- The bag at one node, from the bags at the nodes before it. -/
def nodeBag (sem : Nat → (Nat → Bag Row) → Bag Row) (published : Nat → Bag Row)
    (node : RuntimeNode S Q Row) (index : Nat) (values : Nat → Bag Row) : Bag Row :=
  match node.operation with
  | .source => published index
  | .sink _ => portBag node values 0
  | _ => sem index (portBag node values)

/-- Evaluates one more node. -/
def denoteNode (sem : Nat → (Nat → Bag Row) → Bag Row) (published : Nat → Bag Row)
    (values : Nat → Bag Row) (entry : RuntimeNode S Q Row × Nat) : Nat → Bag Row :=
  Function.update values entry.2 (nodeBag sem published entry.1 entry.2 values)

/-- The bag at every node, evaluated in declaration order. -/
def denote (nodes : List (RuntimeNode S Q Row)) (sem : Nat → (Nat → Bag Row) → Bag Row)
    (published : Nat → Bag Row) : Nat → Bag Row :=
  nodes.zipIdx.foldl (denoteNode sem published) fun _ => 0

variable {nodes : List (RuntimeNode S Q Row)} {sem : Nat → (Nat → Bag Row) → Bag Row}
  {published : Nat → Bag Row}

/-- A node only looks at the nodes before it. -/
theorem nodeBag_congr {u : Unit} (hv : validateDefinition nodes = .ok u) {i : Nat}
    {node : RuntimeNode S Q Row} (hnode : nodes[i]? = some node) {values values' : Nat → Bag Row}
    (h : ∀ q, q < i → values q = values' q) :
    nodeBag sem published node i values = nodeBag sem published node i values' := by
  have hport : ∀ p, portBag node values p = portBag node values' p := by
    intro p
    unfold portBag
    cases hq : node.inputs[p]? with
    | none => rfl
    | some q => exact h q ((inputs_of_validate hv hnode).2 q (List.mem_of_getElem? hq))
  unfold nodeBag
  cases node.operation with
  | source => rfl
  | sink _ => exact hport 0
  | atomic _ | paged _ => exact congrArg _ (funext hport)

/-- `denote` satisfies the equation of every node. -/
theorem denote_eq {u : Unit} (hv : validateDefinition nodes = .ok u) {i : Nat}
    {node : RuntimeNode S Q Row} (hnode : nodes[i]? = some node) :
    denote nodes sem published i =
      nodeBag sem published node i (denote nodes sem published) := by
  have hfold : ∀ (l : List (RuntimeNode S Q Row)) (k : Nat) (values : Nat → Bag Row),
      (∀ j node, l[j]? = some node → nodes[k + j]? = some node) →
      (∀ j node, j < k → nodes[j]? = some node →
        values j = nodeBag sem published node j values) →
      ∀ j node, j < k + l.length → nodes[j]? = some node →
        (l.zipIdx k).foldl (denoteNode sem published) values j =
          nodeBag sem published node j ((l.zipIdx k).foldl (denoteNode sem published) values) := by
    intro l
    induction l with
    | nil => exact fun k values _ h j node hj hnode => h j node hj hnode
    | cons head rest ih =>
      intro k values hget h j node hj hnode
      rw [List.length_cons] at hj
      have hhead : nodes[k]? = some head := hget 0 head rfl
      refine ih (k + 1) _ (fun j node hj => ?_) (fun j node hj hnode => ?_) j node (by omega) hnode
      · have := hget (j + 1) node (by simpa using hj)
        rwa [show k + 1 + j = k + (j + 1) by omega]
      · have hbefore : ∀ q, q < j → denoteNode sem published values (head, k) q = values q :=
          fun q hq => Function.update_of_ne (show q ≠ k by omega) _ _
        rw [nodeBag_congr hv hnode hbefore]
        by_cases hjk : j = k
        · subst hjk
          rw [hhead] at hnode
          cases hnode
          exact Function.update_self ..
        · rw [denoteNode, Function.update_of_ne hjk]
          exact h j node (by omega) hnode
  have hlt : i < nodes.length := (List.getElem?_eq_some_iff.mp hnode).1
  exact hfold nodes 0 (fun _ => 0) (by simp) (fun _ _ h => by omega) i node (by omega) hnode

end Denote

/-! ## Where events are -/

section Placed

variable {rt : Runtime S Q Row}

/-- Computation happens at computing nodes, pages are enqueued at sinks through
declared ports, and a call consumes nothing. -/
def Placed (rt : Runtime S Q Row) : Event Row → Prop
  | .step head .. => (rt.operation head).isSink = false
  | .tail node .. => (rt.operation node).isSink = false
  | .enqueue sink port _ => port < rt.arity sink
  | .finish .. => True
  | .consume .. => False

theorem Tails.placed {tails : List Nat} {σ σ' : Nat → S} {raw page : Option (Change Row)}
    {events : List (Event Row)} (h : Tails rt tails σ raw events page σ') :
    ∀ e ∈ events, Placed rt e := by
  induction h with
  | nil | empty => simp
  | apply hop _ _ ih =>
    intro e he
    rcases List.mem_cons.mp he with rfl | he
    · show (rt.operation _).isSink = false
      rw [hop]
      rfl
    · exact ih e he

theorem Runs.placed {task : Task Row} {σ σ' : Nat → S} {events : List (Event Row)}
    {finished : Bool} (h : Runs rt task σ events finished σ') (ha : Admitted rt task)
    (hs : (rt.operation task.head).isSink = false) : ∀ e ∈ events, Placed rt e := by
  induction h with
  | pause => simp
  | @page head port input resume σ σ₁ σ₂ page progress events rest finished hp _ ih =>
    have hrest := ih (visits_admitted head port input page progress) hs
    cases hp with
    | mk _ _ htails =>
      intro e he
      rcases List.mem_append.mp he with he | he
      · rcases List.mem_cons.mp he with rfl | he
        · exact hs
        · exact htails.placed e he
      · exact hrest e he
  | @enqueue head port input page after c later σ σ' rest finished _ _ ih =>
    have hmem : c ∈ rt.topology.consumers head := ha (c, page) List.mem_cons_self
    rw [(resolve_eq_ok rt.resolved).2.2 head] at hmem
    intro e he
    rcases List.mem_cons.mp he with rfl | he
    · exact port_lt_arity hmem
    · exact ih (fun v hv => ha v (List.mem_cons_of_mem _ hv)) hs e he
  | inside hc _ ih => exact ih trivial hc
  | consumer hc _ _ ihc ih =>
    intro e he
    rcases List.mem_append.mp he with he | he
    · exact ihc trivial hc e he
    · exact ih (fun v hv => ha v (List.mem_cons_of_mem _ hv)) hs e he
  | more _ ih => exact ih trivial hs
  | finish => simp [Placed]

/-- An admitted graph never reads from a sink. -/
theorem checkProducers_eq_ok {i : Nat} {node producer : RuntimeNode S Q Row} {q p : Nat}
    (hnode : rt.nodes[i]? = some node) (hq : node.inputs[p]? = some q)
    (hproducer : rt.nodes[q]? = some producer) : producer.operation.isSink = false := by
  have hinner := forM_eq_ok rt.producers node (List.mem_of_getElem? hnode)
  have hcheck := forM_eq_ok hinner q (List.mem_of_getElem? hq)
  simp only [hproducer] at hcheck
  by_contra hsink
  simp [hsink] at hcheck

/-- A call consumes nothing. -/
theorem consumed_of_placed {events : List (Event Row)} (h : ∀ e ∈ events, Placed rt e)
    (source : Nat) : consumed source events = [] := by
  unfold consumed
  rw [List.filterMap_eq_nil_iff]
  intro e he
  cases e with
  | consume s item => exact (h _ he).elim
  | _ => rfl

end Placed

/-! ## Served calls -/

section Ledger

variable [DecidableEq Row] {rt : Runtime S Q Row} {states : Nat → S}

/-- The bag of a source's items. -/
def itemsBag (codec : SchemaBoundChangeCodec Row) (items : List Bytes) : Bag Row :=
  (items.map fun item =>
    match codec.decode item with
    | .ok change => change.bag
    | .error _ => 0).sum

@[simp] theorem itemsBag_append (codec : SchemaBoundChangeCodec Row) (items items' : List Bytes) :
    itemsBag codec (items ++ items') = itemsBag codec items + itemsBag codec items' := by
  simp [itemsBag]

/-- The bag ever enqueued at a sink. -/
def enqueuedBag (sink : Nat) (events : List (Event Row)) : Bag Row :=
  (events.map fun
    | .enqueue s _ page => if s = sink then page.bag else 0
    | _ => 0).sum

@[simp] theorem enqueuedBag_append (sink : Nat) (events events' : List (Event Row)) :
    enqueuedBag sink (events ++ events') = enqueuedBag sink events + enqueuedBag sink events' := by
  simp [enqueuedBag]

/-- The books after completed root calls. -/
structure Ledger (rt : Runtime S Q Row) (states : Nat → S) (events : List (Event Row))
    (σ : Nat → S) : Prop where
  operators : ∀ n, (rt.operation n).isSource = false → Account rt n (states n) events (σ n)
  edges : ∀ q n p, (⟨n, p⟩ : Consumer) ∈ consumersOf rt.nodes q →
    inBag n p events = outBag q events
  sources : ∀ n, (rt.operation n).isSource = true →
    outBag n events = itemsBag (rt.codec n) (consumed n events)
  sinks : ∀ n, (rt.operation n).isSink = true → enqueuedBag n events = inBag n 0 events

/-- At a sink, everything taken in is enqueued, through its only port. -/
theorem enqueuedBag_eq {n : Nat} (hs : (rt.operation n).isSink = true)
    {events : List (Event Row)} (h : ∀ e ∈ events, Placed rt e) :
    enqueuedBag n events = inBag n 0 events := by
  have harity : rt.arity n = 1 := by
    unfold Runtime.operation at hs
    unfold Runtime.arity
    cases hnode : rt.nodes[n]? with
    | none => simp [hnode, Operation.isSink] at hs
    | some node =>
      rw [hnode] at hs
      exact (inputs_of_validate rt.validated hnode).1.symm.trans (node.arity.2 hs)
  unfold enqueuedBag inBag
  refine congrArg List.sum (List.map_congr_left fun e he => ?_)
  have hplaced := h e he
  cases e with
  | step head port input resume output progress =>
    refine (Event.into_of_ne ?_).symm
    rintro rfl
    simp [Placed, show (rt.operation head).isSink = true from hs] at hplaced
  | tail node input output =>
    refine (Event.into_of_ne ?_).symm
    rintro rfl
    simp [Placed, show (rt.operation node).isSink = true from hs] at hplaced
  | enqueue sink port page =>
    by_cases hsink : sink = n
    · subst hsink
      have hport : port = 0 := by
        have : port < rt.arity sink := hplaced
        omega
      simp [Event.into, hport]
    · simp [Event.into, hsink]
  | finish head port => rfl
  | consume source item => rfl

theorem Served.ledger {served : List (Event Row)} {σ : Nat → S} (h : Served rt states served σ) :
    Ledger rt states served σ := by
  induction h with
  | nil =>
    refine ⟨fun n _ => .elsewhere (by simp), fun _ _ _ _ => rfl, fun _ _ => rfl, fun _ _ => rfl⟩
  | @snoc served events σ σ' source item input _ hs hd hr ih =>
    have hsink : (rt.operation source).isSink = false := by
      cases hop : rt.operation source <;> simp_all [Operation.isSource, Operation.isSink]
    have hplaced := hr.placed trivial hsink
    obtain ⟨haccount, outputs, hpages, hout, hin⟩ := hr.account rfl trivial
    refine ⟨fun n hn => ?_, fun q n p hedge => ?_, fun n hn => ?_, fun n hn => ?_⟩
    · have hne : n ≠ source := by
        rintro rfl
        simp [hs] at hn
      refine (ih.operators n hn).trans ((haccount n hne).trans (.elsewhere ?_))
      simpa [Event.node] using Ne.symm hne
    · have hbalance := hr.balance rfl hedge
      simp only [rootCall, due, callBag, reduceCtorEq, and_false, if_false, add_zero] at hbalance
      simp [ih.edges q n p hedge, hbalance, Event.into, Event.out]
    · have hnone := consumed_of_placed hplaced n
      by_cases hne : n = source
      · subst hne
        have hop : rt.operation n = .source := by
          cases hop : rt.operation n <;> simp_all [Operation.isSource]
        rw [hop] at hpages
        have hwindows := hpages.source
        rw [hout] at hwindows
        have hevents : outBag n events = input.bag := by
          simpa [rootCall, Operation.initialResume, hop, Resume.batch, Change.bag] using hwindows
        simp [ih.sources n hn, hevents, hnone, Event.out, itemsBag, hd]
      · have hop : rt.operation n = .source := by
          cases hop : rt.operation n <;> simp_all [Operation.isSource]
        have hzero : outBag n events = 0 := by
          have := haccount n hne
          unfold Account at this
          rwa [hop] at this
        simp [ih.sources n hn, hzero, hnone, Event.out, Ne.symm hne]
    · have hconsume : enqueuedBag n [Event.consume source item] = (0 : Bag Row) := by
        simp [enqueuedBag]
      simp [ih.sinks n hn, enqueuedBag_eq hn hplaced, hconsume, Event.into]

/-- What every operator obeys on its own, from its initial state. -/
def Lawful (rt : Runtime S Q Row) (states : Nat → S) (sem : Nat → (Nat → Bag Row) → Bag Row) :
    Prop :=
  ∀ n, (rt.operation n).isSource = false → (rt.operation n).isSink = false →
    Incremental (rt.operation n) (rt.arity n) (states n) (sem n)

/-- What the sources have published and the scheduler has consumed. -/
def publishedBag (rt : Runtime S Q Row) (events : List (Event Row)) (source : Nat) : Bag Row :=
  itemsBag (rt.codec source) (consumed source events)

/-- What arrives at a port is what its producer denotes. -/
theorem Ledger.port {events : List (Event Row)} {σ : Nat → S} {values : Nat → Bag Row}
    (h : Ledger rt states events σ) {n p q : Nat} {node : RuntimeNode S Q Row}
    (hnode : rt.nodes[n]? = some node) (hq : node.inputs[p]? = some q)
    (hvalues : ∀ m, m < n → ∀ node, rt.nodes[m]? = some node → node.operation.isSink = false →
      outBag m events = values m) : inBag n p events = values q := by
  have hedge : (⟨n, p⟩ : Consumer) ∈ consumersOf rt.nodes q := mem_consumersOf.mpr ⟨node, hnode, hq⟩
  have hlt : q < n := lt_of_mem_consumersOf rt.validated hedge
  have hlength : n < rt.nodes.length := (List.getElem?_eq_some_iff.mp hnode).1
  have hproducer : rt.nodes[q]? = some rt.nodes[q] := List.getElem?_eq_getElem (by omega)
  rw [h.edges q n p hedge]
  exact hvalues q hlt _ hproducer (checkProducers_eq_ok hnode hq hproducer)

/-- Every node that puts something out has put out what it denotes. -/
theorem Ledger.denotes {events : List (Event Row)} {σ : Nat → S}
    {sem : Nat → (Nat → Bag Row) → Bag Row} (h : Ledger rt states events σ)
    (hlaw : Lawful rt states sem) (n : Nat) :
    ∀ node, rt.nodes[n]? = some node → node.operation.isSink = false →
      outBag n events = denote rt.nodes sem (publishedBag rt events) n := by
  induction n using Nat.strong_induction_on with
  | _ n ih =>
    intro node hnode hsink
    have hop : rt.operation n = node.operation := by rw [Runtime.operation, hnode]
    have hport : ∀ p q, node.inputs[p]? = some q →
        inBag n p events = denote rt.nodes sem (publishedBag rt events) q :=
      fun p q hq => h.port hnode hq ih
    rw [denote_eq rt.validated hnode]
    unfold nodeBag
    have haccount := h.operators n
    unfold Account at haccount
    rw [hop] at haccount
    cases hkind : node.operation with
    | source =>
      exact h.sources n (by rw [hop, hkind]; rfl)
    | sink _ => simp [hkind, Operation.isSink] at hsink
    | atomic _ | paged _ =>
      rw [hkind] at haccount
      obtain ⟨inputs, outputs, hall, hports, hin, hout⟩ := haccount rfl
      have hsem := hlaw n (by rw [hop, hkind]; rfl) (by rw [hop, hkind]; rfl) inputs outputs (σ n)
        (by rw [hop, hkind]; exact hall) hports
      rw [← hout, hsem]
      refine congrArg (sem n) (funext fun p => ?_)
      unfold portBag
      cases hq : node.inputs[p]? with
      | some q => rw [hin, hport p q hq]
      | none =>
        refine inputsBag_eq_zero fun i hi hp => ?_
        have hlt : i.1 < node.inputs.length := by simpa [Runtime.arity, hnode] using hports i hi
        exact absurd (List.getElem?_eq_none_iff.mp hq) (by omega)

end Ledger

/-- The meaning of the diamond's operators: its union adds both ports up. -/
def diamondSem (_ : Nat) (inputs : Nat → Bag Unit) : Bag Unit :=
  ∑ p ∈ Finset.range 2, inputs p

theorem diamond_lawful : Lawful diamond (fun _ => ()) diamondSem := by
  intro n hsource hsink
  match n with
  | 0 => cases hsource
  | 1 => exact unitUnion.incremental ()
  | 2 => cases hsink
  | n + 3 => cases hsource

end Dogpaddle.Flow
