import Dogpaddle.Operation.Compute

/-!
# Topology resolution

`validateDefinition` admits a list of declared operations: names, arity and
backward input edges. `resolve` turns the nodes into the derived indices the
scheduler runs on:

* a single-input atomic node whose producer has exactly one consumer is fused
  into the tail chain of its producer's head;
* the consumers of a head are the consumers of the last node of its chain, in
  declaration order and then port order;
* the longest path of heads is bounded by `maxDepth`.
-/

namespace Dogpaddle.Flow

open Dogpaddle

def maxOperations : Nat := 1024
def maxDepth : Nat := 64

/-- One input edge, seen from its producer. -/
@[ext]
structure Consumer where
  operation : Nat
  port : Nat
deriving DecidableEq, Repr

/-- Why a stable operation ID is invalid. -/
inductive InvalidOperationIdReason
  | empty
  | containsNul
  | tooLong
deriving DecidableEq, Repr

/-- Failure while validating the logical DAG. -/
inductive TopologyError
  | emptyTopology
  | invalidOperationId (id : String) (reason : InvalidOperationIdReason)
  | duplicateOperationId (id : String)
  | inputNotEarlier (operation : String) (input : Nat)
  | rootIsNotScan (id : String)
  | terminalIsNotSink (id : String)
  | inputCount (operation : String) (expected actual : Nat)
  | inputHasNoOutput (operation input : String)
  | limit (what : String)
deriving DecidableEq, Repr

/-- One declared operation, bound to its runtime. The codec of a sink is never
used. -/
structure RuntimeNode (S Q Row : Type) where
  id : String
  inputCount : Nat
  inputs : List Nat
  operation : Operation S Q Row
  codec : SchemaBoundChangeCodec Row
  /-- Scans declare no input and sinks one. -/
  arity : (operation.isSource = true → inputCount = 0) ∧ (operation.isSink = true → inputCount = 1)

/-- Derived indices only: no persistent identity, queue or lifecycle. -/
structure ResolvedTopology where
  tails : Nat → List Nat
  consumers : Nat → List Consumer
  heads : Nat → Bool

variable {S Q Row : Type}

/-! ## Admission -/

/-- The first rule an ID breaks. -/
def idReason (id : String) : Option InvalidOperationIdReason :=
  if id.isEmpty then some .empty
  else if id.contains '\x00' then some .containsNul
  else if id.utf8ByteSize > 1024 then some .tooLong
  else none

/-- IDs are checked in order; `seen` holds the earlier ones. -/
def checkIds : List (RuntimeNode S Q Row) → List String → Except TopologyError Unit
  | [], _ => .ok ()
  | node :: rest, seen =>
    match idReason node.id with
    | some reason => .error (.invalidOperationId node.id reason)
    | none =>
      if node.id ∈ seen then .error (.duplicateOperationId node.id)
      else checkIds rest (node.id :: seen)

/-- Every input must be an earlier declaration. -/
def checkEarlier (id : String) (index : Nat) : List Nat → Except TopologyError Unit
  | [] => .ok ()
  | input :: rest =>
    if input ≥ index then .error (.inputNotEarlier id input) else checkEarlier id index rest

/-- Input count, arity and direction of the nodes from `index` on. -/
def checkInputs : List (RuntimeNode S Q Row) → (index : Nat) → Except TopologyError Unit
  | [], _ => .ok ()
  | node :: rest, index =>
    if node.inputs.length > maxOperations then .error (.limit "1024 inputs per operation")
    else if node.inputCount ≠ node.inputs.length then
      .error (.inputCount node.id node.inputCount node.inputs.length)
    else do
      checkEarlier node.id index node.inputs
      checkInputs rest (index + 1)

/-- Admits the declared operations before anything is bound. -/
def validateDefinition (nodes : List (RuntimeNode S Q Row)) : Except TopologyError Unit :=
  if nodes.isEmpty then .error .emptyTopology
  else if nodes.length > maxOperations then .error (.limit "1024 operations")
  else do
    checkIds nodes []
    checkInputs nodes 0

/-- Binding rejects an input whose producer has no output. -/
def checkProducers (nodes : List (RuntimeNode S Q Row)) : Except TopologyError Unit :=
  nodes.forM fun node => node.inputs.forM fun input =>
    match nodes[input]? with
    | some producer =>
      if producer.operation.isSink then .error (.inputHasNoOutput node.id producer.id) else .ok ()
    | none => .ok ()

theorem checkEarlier_eq_ok {id : String} {index : Nat} {inputs : List Nat} {u : Unit}
    (h : checkEarlier id index inputs = .ok u) : ∀ input ∈ inputs, input < index := by
  induction inputs with
  | nil => simp
  | cons input rest ih =>
    unfold checkEarlier at h
    split at h
    · cases h
    · intro x hx
      rcases List.mem_cons.mp hx with rfl | hx
      · omega
      · exact ih h x hx

theorem checkInputs_eq_ok {nodes : List (RuntimeNode S Q Row)} {index : Nat} {u : Unit}
    (h : checkInputs nodes index = .ok u) {i : Nat} {node : RuntimeNode S Q Row}
    (hnode : nodes[i]? = some node) :
    node.inputCount = node.inputs.length ∧ ∀ input ∈ node.inputs, input < index + i := by
  induction nodes generalizing index i with
  | nil => cases hnode
  | cons head rest ih =>
    unfold checkInputs at h
    split at h
    · cases h
    · split at h
      · cases h
      · next hcount =>
        cases he : checkEarlier head.id index head.inputs with
        | error e => simp [he, bind, Except.bind] at h
        | ok v =>
          simp only [he, bind, Except.bind] at h
          cases i with
          | zero =>
            cases hnode
            exact ⟨not_not.mp hcount, checkEarlier_eq_ok he⟩
          | succ i =>
            obtain ⟨hlength, hlt⟩ := ih h (i := i) (by simpa using hnode)
            exact ⟨hlength, fun input hinput => by have := hlt input hinput; omega⟩

/-- Admitted graphs have the declared arity and only backward input edges. -/
theorem inputs_of_validate {nodes : List (RuntimeNode S Q Row)} {u : Unit}
    (h : validateDefinition nodes = .ok u) {i : Nat} {node : RuntimeNode S Q Row}
    (hnode : nodes[i]? = some node) :
    node.inputCount = node.inputs.length ∧ ∀ input ∈ node.inputs, input < i := by
  unfold validateDefinition at h
  split at h
  · cases h
  · split at h
    · cases h
    · cases hids : checkIds nodes [] with
      | error e => simp [hids, bind, Except.bind] at h
      | ok v =>
        simp only [hids, bind, Except.bind] at h
        simpa using checkInputs_eq_ok h hnode

/-! ## Resolution -/

/-- The consumers of one producer, by declaration order and then port. -/
def consumersOf (nodes : List (RuntimeNode S Q Row)) (producer : Nat) : List Consumer :=
  nodes.zipIdx.flatMap fun (node, index) =>
    node.inputs.zipIdx.filterMap fun (input, port) =>
      if input = producer then some ⟨index, port⟩ else none

/-- Roots must be sources and leaves must be sinks. -/
def checkEnds (nodes : List (RuntimeNode S Q Row)) : Except TopologyError Unit :=
  nodes.zipIdx.forM fun (node, index) => do
    if node.inputs.isEmpty ∧ ¬ node.operation.isSource then
      throw (.rootIsNotScan node.id)
    if (consumersOf nodes index).isEmpty ∧ ¬ node.operation.isSink then
      throw (.terminalIsNotSink node.id)

/-- The tables the fusion pass fills. -/
structure Fusion where
  tails : Nat → List Nat
  heads : Nat → Bool
  headOf : Nat → Nat

/-- Every node starts as its own head. -/
def Fusion.start : Fusion := ⟨fun _ => [], fun _ => true, id⟩

/-- The producer a node is fused to, when it is. -/
def fusedTo (nodes : List (RuntimeNode S Q Row)) (node : RuntimeNode S Q Row) : Option Nat :=
  match node.inputs with
  | [producer] =>
    if node.operation.isAtomic ∧ (consumersOf nodes producer).length = 1 then some producer
    else none
  | _ => none

/-- One iteration of the fusion pass. -/
def fuse (nodes : List (RuntimeNode S Q Row)) (acc : Fusion)
    (entry : RuntimeNode S Q Row × Nat) : Fusion :=
  match fusedTo nodes entry.1 with
  | none => acc
  | some producer =>
    let head := acc.headOf producer
    { tails := Function.update acc.tails head (acc.tails head ++ [entry.2])
      heads := Function.update acc.heads entry.2 false
      headOf := Function.update acc.headOf entry.2 head }

/-- The whole fusion pass. -/
def fusion (nodes : List (RuntimeNode S Q Row)) : Fusion :=
  nodes.zipIdx.foldl (fuse nodes) Fusion.start

/-- One iteration of the depth pass. -/
def deepen (f : Fusion) (depth : Nat → Nat) (entry : RuntimeNode S Q Row × Nat) :
    Except TopologyError (Nat → Nat) :=
  if ¬ f.heads entry.2 ∨ entry.1.operation.isSink then .ok depth
  else
    let own := (entry.1.inputs.map fun input => depth (f.headOf input)).foldl max 0 + 1
    if own > maxDepth then .error (.limit "64 call frames")
    else .ok (Function.update depth entry.2 own)

/-- The last node of a head's fused chain. -/
def chainEnd (tails : Nat → List Nat) (head : Nat) : Nat := (tails head).getLast?.getD head

/-- Derives tails, consumers and heads, rejecting malformed or too deep graphs. -/
def resolve (nodes : List (RuntimeNode S Q Row)) : Except TopologyError ResolvedTopology := do
  checkEnds nodes
  let f := fusion nodes
  let _ ← nodes.zipIdx.foldlM (deepen f) (fun _ => 0)
  pure
    { tails := f.tails
      consumers := fun index => consumersOf nodes (chainEnd f.tails index)
      heads := f.heads }

/-- What a successful resolution returns. -/
theorem resolve_eq_ok {nodes : List (RuntimeNode S Q Row)} {t : ResolvedTopology}
    (h : resolve nodes = .ok t) :
    t.tails = (fusion nodes).tails ∧ t.heads = (fusion nodes).heads ∧
      ∀ head, t.consumers head = consumersOf nodes (chainEnd t.tails head) := by
  unfold resolve at h
  cases hends : checkEnds nodes with
  | error e => simp [hends, bind, Except.bind] at h
  | ok u =>
    cases hdepth : nodes.zipIdx.foldlM (deepen (fusion nodes)) (fun _ => 0) with
    | error e => simp [hends, hdepth, bind, Except.bind] at h
    | ok d =>
      simp only [hends, hdepth, bind, Except.bind, pure, Except.pure, Except.ok.injEq] at h
      subst h
      exact ⟨rfl, rfl, fun _ => rfl⟩

theorem forM_eq_ok {α ε : Type} {f : α → Except ε PUnit} {l : List α} {u : PUnit}
    (h : l.forM f = .ok u) : ∀ a ∈ l, f a = .ok ⟨⟩ := by
  induction l with
  | nil => simp
  | cons a rest ih =>
    cases hf : f a with
    | error e => simp [List.forM, hf, bind, Except.bind] at h
    | ok v =>
      simp only [List.forM, hf, bind, Except.bind] at h
      intro b hb
      rcases List.mem_cons.mp hb with rfl | hb
      · exact hf
      · exact ih h b hb

/-- Resolved graphs start at sources and end in sinks. -/
theorem ends_of_resolve {nodes : List (RuntimeNode S Q Row)} {t : ResolvedTopology}
    (h : resolve nodes = .ok t) {i : Nat} {node : RuntimeNode S Q Row}
    (hnode : nodes[i]? = some node) :
    (node.inputs = [] → node.operation.isSource = true) ∧
      (consumersOf nodes i = [] → node.operation.isSink = true) := by
  unfold resolve at h
  cases hends : checkEnds nodes with
  | error e => simp [hends, bind, Except.bind] at h
  | ok u =>
    have hcheck := forM_eq_ok hends (node, i) (List.mem_zipIdx_iff_getElem?.mpr hnode)
    dsimp only at hcheck
    refine ⟨fun hinputs => ?_, fun hconsumers => ?_⟩
    · by_contra hsource
      simp [hinputs, hsource, throw, throwThe, MonadExceptOf.throw, bind, Except.bind] at hcheck
    · by_contra hsink
      split at hcheck
      · simp [throw, throwThe, MonadExceptOf.throw, bind, Except.bind] at hcheck
      · simp [hconsumers, hsink, throw, throwThe, MonadExceptOf.throw] at hcheck

/-- The first declaration of an admitted graph is a source. -/
theorem first_isSource {nodes : List (RuntimeNode S Q Row)} {t : ResolvedTopology} {u : Unit}
    (hv : validateDefinition nodes = .ok u) (hr : resolve nodes = .ok t) :
    ∃ node, nodes[0]? = some node ∧ node.operation.isSource = true := by
  cases hnodes : nodes with
  | nil =>
    rw [hnodes] at hv
    cases hv
  | cons node rest =>
    have hfirst : nodes[0]? = some node := by rw [hnodes]; rfl
    refine ⟨node, rfl, (ends_of_resolve hr hfirst).1 ?_⟩
    apply List.eq_nil_iff_forall_not_mem.mpr
    intro input hinput
    exact absurd ((inputs_of_validate hv hfirst).2 input hinput) (Nat.not_lt_zero _)

/-- A consumer edge is an input edge of the consuming node. -/
theorem mem_consumersOf {nodes : List (RuntimeNode S Q Row)} {producer : Nat} {c : Consumer} :
    c ∈ consumersOf nodes producer ↔
      ∃ node, nodes[c.operation]? = some node ∧ node.inputs[c.port]? = some producer := by
  simp only [consumersOf, List.mem_flatMap, List.mem_filterMap, Prod.exists,
    List.mem_zipIdx_iff_getElem?]
  constructor
  · rintro ⟨node, index, hnode, input, port, hport, hc⟩
    split at hc
    · next he =>
      cases hc
      exact ⟨node, hnode, by rw [hport, he]⟩
    · cases hc
  · rintro ⟨node, hnode, hport⟩
    exact ⟨node, c.operation, hnode, producer, c.port, hport, by simp⟩

end Dogpaddle.Flow
