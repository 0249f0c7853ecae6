import Dogpaddle.Flow.Call

/-!
# The durable stack

`Standing` relates a committed store to a stack of tasks: which control stands
at which depth, which page is stored beside it, and where each frame's input
comes from. The transaction functions are then read as moves of that stack:

* `finishFrame` returns a task or moves it to its next position;
* `routeLoop` enqueues a prefix of the remaining consumers;
* `routePage` and `runPage` end in a store that stands for the stack after the
  moves, and a transaction that empties the stack also removes the root's item
  (`Transacted`).
-/

namespace Dogpaddle.Flow

open Dogpaddle Lib

variable {S Q Row : Type}

/-- Where the input of the frame at a depth is: the root reads its source's
front, any other frame its parent's page, as the consumer just served. -/
def Fed (rt : Runtime S Q Row) (store : Store S Q) (source : Nat) :
    (depth head : Nat) → (port : Option Nat) → (input : Change Row) → Prop
  | 0, head, port, input =>
    head = source ∧ port = none ∧ (rt.operation source).isSource = true ∧
      ∃ item, (store.queues source).head? = some item ∧ (rt.codec source).decode item = .ok input
  | depth + 1, head, port, input =>
    ∃ parent parentPort next after c encoded,
      store.controls.get? depth = some ⟨parent, parentPort, .send (next + 1) after⟩ ∧
      (rt.topology.consumers parent)[next]? = some c ∧ head = c.operation ∧ port = some c.port ∧
      (rt.operation head).isSink = false ∧
      store.outputs.get? depth = some encoded ∧ encoded.length ≤ pageBytes ∧
      (rt.outputCodec parent).decode encoded = .ok input

/-- The control, and for a sending frame the page, that stands for a task. -/
def Held (rt : Runtime S Q Row) (store : Store S Q) (depth : Nat) : Task Row → Prop
  | .call head port _ resume =>
    store.controls.get? depth = some ⟨head, port, .run resume⟩ ∧ store.outputs.get? depth = none
  | .send head port _ visits after =>
    ∃ next encoded page,
      store.controls.get? depth = some ⟨head, port, .send next after⟩ ∧
      store.outputs.get? depth = some encoded ∧ encoded.length ≤ pageBytes ∧
      (rt.outputCodec head).decode encoded = .ok page ∧
      next ≤ (rt.topology.consumers head).length ∧
      visits = ((rt.topology.consumers head).drop next).map (·, page)

/-- A stack of tasks, topmost first, held by the frames of a store. -/
def Stacked (rt : Runtime S Q Row) (store : Store S Q) (source : Nat) : List (Task Row) → Prop
  | [] => True
  | task :: below =>
    Held rt store below.length task ∧
      Fed rt store source below.length task.head task.port task.input ∧
      Stacked rt store source below

/-- No control and no page at or above a depth. -/
def Clear (store : Store S Q) (depth : Nat) : Prop :=
  ∀ d, depth ≤ d → store.controls.get? d = none ∧ store.outputs.get? d = none

/-- The store holds exactly this stack. -/
structure Standing (rt : Runtime S Q Row) (store : Store S Q) (source : Nat)
    (tasks : List (Task Row)) : Prop where
  stacked : Stacked rt store source tasks
  clear : Clear store tasks.length

/-- The store holds the stack below a frame, and that frame's input. -/
structure Active (rt : Runtime S Q Row) (store : Store S Q) (source : Nat)
    (below : List (Task Row)) (head : Nat) (port : Option Nat) (input : Change Row) : Prop where
  stacked : Stacked rt store source below
  fed : Fed rt store source below.length head port input
  clear : Clear store (below.length + 1)

/-! ## Frames below a depth -/

/-- Two stores agree on every frame below a depth and on the source's front. -/
structure Agree (source depth : Nat) (store store' : Store S Q) : Prop where
  controls : ∀ d, d < depth → store'.controls.get? d = store.controls.get? d
  outputs : ∀ d, d < depth → store'.outputs.get? d = store.outputs.get? d
  front : (store'.queues source).head? = (store.queues source).head?

section Frame

variable {rt : Runtime S Q Row} {store store' : Store S Q} {source depth : Nat}

theorem Fed.frame {d head : Nat} {port : Option Nat} {input : Change Row}
    (h : Fed rt store source d head port input) (ha : Agree source depth store store')
    (hd : d ≤ depth) : Fed rt store' source d head port input := by
  cases d with
  | zero => simpa only [Fed, ha.front] using h
  | succ d => simpa only [Fed, ha.controls d (by omega), ha.outputs d (by omega)] using h

theorem Held.frame {d : Nat} {task : Task Row} (h : Held rt store d task)
    (ha : Agree source depth store store') (hd : d < depth) : Held rt store' d task := by
  cases task with
  | call head port input resume =>
    simpa only [Held, ha.controls d hd, ha.outputs d hd] using h
  | send head port input visits after =>
    simpa only [Held, ha.controls d hd, ha.outputs d hd] using h

theorem Stacked.frame {tasks : List (Task Row)} (h : Stacked rt store source tasks)
    (ha : Agree source depth store store') (hd : tasks.length ≤ depth) :
    Stacked rt store' source tasks := by
  induction tasks with
  | nil => trivial
  | cons task below ih =>
    obtain ⟨hheld, hfed, hbelow⟩ := h
    rw [List.length_cons] at hd
    exact ⟨hheld.frame ha (by omega), hfed.frame ha (by omega), ih hbelow (by omega)⟩

end Frame

/-- The frame on top of a standing stack is active. -/
theorem Standing.active {rt : Runtime S Q Row} {store : Store S Q} {source : Nat}
    {task : Task Row} {below : List (Task Row)} (h : Standing rt store source (task :: below)) :
    Active rt store source below task.head task.port task.input :=
  ⟨h.stacked.2.2, h.stacked.2.1, h.clear⟩

/-- Two stores differ at most in the frame at one depth, outboxes and operator states apart. -/
structure OnlyAt (depth : Nat) (store store' : Store S Q) : Prop where
  controls : ∀ d, d ≠ depth → store'.controls.get? d = store.controls.get? d
  outputs : ∀ d, d ≠ depth → store'.outputs.get? d = store.outputs.get? d
  queues : store'.queues = store.queues

theorem OnlyAt.agree {store store' : Store S Q} {depth : Nat} (h : OnlyAt depth store store')
    (source : Nat) : Agree source depth store store' :=
  ⟨fun d hd => h.controls d (by omega), fun d hd => h.outputs d (by omega), by rw [h.queues]⟩

theorem OnlyAt.clear {store store' : Store S Q} {depth : Nat} (h : OnlyAt depth store store')
    (hc : Clear store (depth + 1)) : Clear store' (depth + 1) := by
  intro d hd
  rw [h.controls d (by omega), h.outputs d (by omega)]
  exact hc d hd

/-- Putting a fresh call on top of the stack. -/
theorem Standing.push {rt : Runtime S Q Row} {store : Store S Q} {source head : Nat}
    {tasks : List (Task Row)} {port : Option Nat} {input : Change Row} {r : Resume}
    (h : Standing rt store source tasks) (hfed : Fed rt store source tasks.length head port input) :
    Standing rt
      { store with controls := store.controls.put tasks.length ⟨head, port, .run r⟩ }
      source (.call head port input r :: tasks) := by
  have ho : OnlyAt tasks.length store
      { store with controls := store.controls.put tasks.length ⟨head, port, .run r⟩ } :=
    ⟨fun d hd => by simp [hd], fun _ _ => rfl, rfl⟩
  refine ⟨⟨⟨by simp, (h.clear _ le_rfl).2⟩, hfed.frame (ho.agree source) le_rfl,
    h.stacked.frame (ho.agree source) le_rfl⟩, ho.clear ?_⟩
  intro d hd
  exact h.clear d (by omega)

section Active

variable {rt : Runtime S Q Row} {store store' : Store S Q} {source head : Nat}
  {below : List (Task Row)} {port : Option Nat} {input : Change Row}

/-- Removing the active frame leaves the stack below it. -/
theorem Active.pop (h : Active rt store source below head port input)
    (ha : Agree source below.length store store') (hc : Clear store' (below.length + 1))
    (hcontrol : store'.controls.get? below.length = none)
    (houtput : store'.outputs.get? below.length = none) : Standing rt store' source below := by
  refine ⟨h.stacked.frame ha le_rfl, fun d hd => ?_⟩
  by_cases he : d = below.length
  · subst he
    exact ⟨hcontrol, houtput⟩
  · exact hc d (by omega)

/-- Replacing the active frame. -/
theorem Active.replace (h : Active rt store source below head port input)
    (ho : OnlyAt below.length store store') {task : Task Row} (hh : task.head = head)
    (hp : task.port = port) (hi : task.input = input)
    (hheld : Held rt store' below.length task) : Standing rt store' source (task :: below) := by
  refine ⟨⟨hheld, ?_, h.stacked.frame (ho.agree source) le_rfl⟩, ho.clear h.clear⟩
  rw [hh, hp, hi]
  exact h.fed.frame (ho.agree source) le_rfl

/-- Only the front of a root's queue matters to the stack. -/
theorem Active.root_front (h : Active rt store source [] head port input) :
    head = source ∧ port = none ∧ (rt.operation source).isSource = true ∧
      ∃ item rest, store.queues source = item :: rest := by
  obtain ⟨hh, hp, hs, item, hitem, _⟩ := h.fed
  obtain ⟨rest, hrest⟩ := List.head?_eq_some_iff.mp hitem
  exact ⟨hh, hp, hs, item, rest, hrest⟩

end Active

/-! ## Transactions -/

/-- Events that only a returning root call has. -/
def Event.isReturn : Event Row → Bool
  | .finish _ none => true
  | .consume _ _ => true
  | _ => false

/-- A transaction in the middle: its events moved the stack, and no root returned. -/
structure Underway (rt : Runtime S Q Row) (queues : Nat → List Bytes) (tasks : List (Task Row))
    (σ : Nat → S) (txn : Txn S Q Row) (tasks' : List (Task Row)) : Prop where
  moves : Moves rt tasks σ txn.events tasks' txn.store.states
  quiet : ∀ e ∈ txn.events, e.isReturn = false
  queues : txn.store.queues = queues

/-- What a successful transaction publishes: a non-empty stack reached by
moves, or the end of the root call together with the removal of its item. -/
inductive Transacted (rt : Runtime S Q Row) (source : Nat) (queues : Nat → List Bytes)
    (tasks : List (Task Row)) (σ : Nat → S) : Txn S Q Row → Prop
  | standing {txn : Txn S Q Row} {top : Task Row} {below : List (Task Row)} :
      Underway rt queues tasks σ txn (top :: below) →
      Standing rt txn.store source (top :: below) →
      Transacted rt source queues tasks σ txn
  | returned {store : Store S Q} {events : List (Event Row)} {item : Bytes} {rest : List Bytes} :
      Moves rt tasks σ (events ++ [.finish source none]) [] store.states →
      (∀ e ∈ events, e.isReturn = false) →
      queues source = item :: rest →
      Standing rt store source [] →
      store.queues = Function.update queues source rest →
      Transacted rt source queues tasks σ
        ⟨store, events ++ [.finish source none] ++ [.consume source item]⟩

theorem emit_eq_ok {e : Event Row} {u : Unit} {s s' : Scope (Txn S Q Row)}
    (h : (emit e : TxnM S Q Row Unit) s = .ok u s') :
    s'.state = ⟨s.state.store, s.state.events ++ [e]⟩ := by
  cases h
  rfl

theorem write_eq_ok {f : Store S Q → Store S Q} {u : Unit} {s s' : Scope (Txn S Q Row)}
    (h : (write f : TxnM S Q Row Unit) s = .ok u s') :
    s'.state = ⟨f s.state.store, s.state.events⟩ := by
  cases h
  rfl

theorem putFrame_eq_ok {depth : Nat} {frame : Frame} {u : Unit} {s s' : Scope (Txn S Q Row)}
    (h : (putFrame depth frame : TxnM S Q Row Unit) s = .ok u s') :
    s'.state = ⟨{ s.state.store with controls := s.state.store.controls.put depth frame },
      s.state.events⟩ := by
  unfold putFrame at h
  obtain ⟨_, t, ht, h⟩ := bind_eq_ok.mp h
  obtain ⟨_, rfl⟩ := ofExcept_eq_ok.mp ht
  exact write_eq_ok h

theorem consumePublished_eq_ok {source : Nat} {u : Unit} {s s' : Scope (Txn S Q Row)}
    {item : Bytes} {rest : List Bytes}
    (h : (consumePublished source : TxnM S Q Row Unit) s = .ok u s')
    (hq : s.state.store.queues source = item :: rest) :
    s'.state = ⟨{ s.state.store with queues := Function.update s.state.store.queues source rest },
      s.state.events ++ [.consume source item]⟩ := by
  unfold consumePublished at h
  obtain ⟨_, t, ht, h⟩ := bind_eq_ok.mp h
  obtain ⟨rfl, rfl⟩ := get_eq_ok.mp ht
  rw [hq] at h
  obtain ⟨_, t, ht, h⟩ := bind_eq_ok.mp h
  rw [emit_eq_ok h, write_eq_ok ht]

/-- An operator's attempt changes that operator's state and the allowance. -/
theorem onNode_eq_ok {α : Type} {index : Nat} {x : Attempt OperationError S α} {a : α}
    {s s' : Scope (Txn S Q Row)} (h : (onNode index x : TxnM S Q Row α) s = .ok a s') :
    ∃ state, Performs x (s.state.store.states index) a state ∧
      s'.state = { s.state with store := { s.state.store with
        states := Function.update s.state.store.states index state } } := by
  unfold onNode at h
  split at h
  · next a' t hx =>
    cases h
    exact ⟨t.state, ⟨s.budget, t.budget, hx⟩, rfl⟩
  · cases h

section Spec

variable {rt : Runtime S Q Row} {source : Nat} {queues : Nat → List Bytes}
  {tasks below : List (Task Row)} {σ : Nat → S} {input : Change Row}

/-- Moves made by the next statements of a transaction. -/
theorem Underway.moved {txn : Txn S Q Row} {tasks₁ tasks₂ : List (Task Row)}
    {events : List (Event Row)} (h : Underway rt queues tasks σ txn tasks₁) (store : Store S Q)
    (hm : Moves rt tasks₁ txn.store.states events tasks₂ store.states)
    (hq : ∀ e ∈ events, e.isReturn = false) (hs : store.queues = txn.store.queues) :
    Underway rt queues tasks σ ⟨store, txn.events ++ events⟩ tasks₂ where
  moves := h.moves.trans hm
  quiet e he := by
    rcases List.mem_append.mp he with he | he
    · exact h.quiet e he
    · exact hq e he
  queues := hs.trans h.queues

/-- Writes beside operator states and queues. -/
theorem Underway.wrote {txn : Txn S Q Row} {tasks₁ : List (Task Row)} {store : Store S Q}
    (h : Underway rt queues tasks σ txn tasks₁) (hs : store.states = txn.store.states)
    (hq : store.queues = txn.store.queues) :
    Underway rt queues tasks σ ⟨store, txn.events⟩ tasks₁ :=
  ⟨hs ▸ h.moves, h.quiet, hq.trans h.queues⟩

/-- A frame below which something stands was called through a port. -/
theorem Fed.port_ne_none {store : Store S Q} {depth head : Nat} {port : Option Nat}
    (h : Fed rt store source (depth + 1) head port input) : port ≠ none := by
  obtain ⟨_, _, _, _, _, _, _, _, _, hp, _⟩ := h
  rw [hp]
  exact Option.some_ne_none _

theorem finishFrame_spec {frame : Frame} {after : Progress} {u : Unit}
    {s s' : Scope (Txn S Q Row)}
    (h : rt.finishFrame below.length frame after s = .ok u s')
    (hu : Underway rt queues tasks σ s.state
      (.send frame.head frame.inputPort input [] after :: below))
    (ha : Active rt s.state.store source below frame.head frame.inputPort input) :
    Transacted rt source queues tasks σ s'.state := by
  unfold Runtime.finishFrame at h
  cases after with
  | more resume =>
    obtain ⟨_, t, ht, h⟩ := bind_eq_ok.mp h
    have hstate := putFrame_eq_ok h
    rw [write_eq_ok ht] at hstate
    rw [hstate]
    have hm := hu.moved { s.state.store with
      controls := s.state.store.controls.put below.length { frame with phase := .run resume }
      outputs := s.state.store.outputs.erase below.length } (.single .more) (by simp) rfl
    rw [List.append_nil] at hm
    refine .standing hm (ha.replace ⟨fun d hd => ?_, fun d hd => ?_, ?_⟩ rfl rfl rfl ?_)
    · simp [hd]
    · simp [hd]
    · rfl
    · simp [Held]
  | done =>
    obtain ⟨_, t, ht, h⟩ := bind_eq_ok.mp h
    have htxn := emit_eq_ok ht
    cases below with
    | nil =>
      -- The root returns: its item leaves the queue with the frame.
      obtain ⟨hh, hp, hs, item, rest, hq⟩ := ha.root_front
      obtain ⟨_, t₁, hconsume, h⟩ : ∃ u t₁, consumePublished frame.head t = .ok u t₁ ∧
          popFrame 0 t₁ = .ok () s' := by
        rw [if_pos (by rfl), hh] at h
        cases hop : rt.operation source with
        | source =>
          rw [hop] at h
          rw [hh]
          exact bind_eq_ok.mp h
        | atomic _ | paged _ | sink _ => simp [hop, Operation.isSource] at hs
      rw [hh] at hconsume
      have hmid := consumePublished_eq_ok hconsume (by rw [htxn]; exact hq)
      rw [write_eq_ok h, hmid, htxn, hh, hp]
      rw [hh, hp] at hu
      refine .returned ?_ hu.quiet (hu.queues ▸ hq) ?_ (by rw [hu.queues])
      · exact hu.moves.trans (.single .finish)
      · refine ⟨trivial, fun d _ => ?_⟩
        by_cases hd : d = 0
        · simp [hd]
        · simpa [hd] using ha.clear d (by simp; omega)
    | cons parent below =>
      rw [if_neg (by simp)] at h
      have hstate := write_eq_ok h
      rw [htxn] at hstate
      rw [hstate]
      have hport : (Event.finish frame.head frame.inputPort : Event Row).isReturn = false := by
        cases hp : frame.inputPort with
        | none => exact absurd hp ha.fed.port_ne_none
        | some port => rfl
      have hm := hu.moved { s.state.store with
        controls := s.state.store.controls.erase (below.length + 1)
        outputs := s.state.store.outputs.erase (below.length + 1) } (.single .finish)
        (by simpa using hport) rfl
      have ho : OnlyAt (below.length + 1) s.state.store { s.state.store with
          controls := s.state.store.controls.erase (below.length + 1)
          outputs := s.state.store.outputs.erase (below.length + 1) } :=
        ⟨fun d hd => by simp [hd], fun d hd => by simp [hd], rfl⟩
      exact .standing hm (ha.pop (ho.agree source) (ho.clear ha.clear) (by simp) (by simp))

/-- How a routing loop ended, in terms of the consumers it has not served. -/
def Remaining (rt : Runtime S Q Row) (next : Nat) (served remaining : List Consumer) :
    Runtime.Routed → Prop
  | .exhausted => remaining = []
  | .stopped n _ => n = next + served.length
  | .child n frame =>
    ∃ c rest, remaining = c :: rest ∧ n = next + served.length + 1 ∧
      (rt.operation c.operation).isSink = false ∧
      frame = ⟨c.operation, some c.port, .run (rt.operation c.operation).initialResume⟩

theorem Remaining.cons {next : Nat} {served remaining : List Consumer} {routed : Runtime.Routed}
    (h : Remaining rt (next + 1) served remaining routed) (c : Consumer) :
    Remaining rt next (c :: served) remaining routed := by
  have hlen : next + 1 + served.length = next + (c :: served).length := by
    rw [List.length_cons]
    omega
  cases routed with
  | exhausted => exact h
  | stopped n blocked => exact h.trans hlen
  | child n frame =>
    obtain ⟨d, rest, hr, hn, hd⟩ := h
    exact ⟨d, rest, hr, by rw [hn, hlen], hd⟩

theorem decodedPage_eq_ok {head : Nat} {encoded : Bytes} {page shown : Change Row}
    {output : Option (Change Row)} {s s' : Scope (Txn S Q Row)}
    (h : rt.decodedPage head encoded output s = .ok shown s')
    (hpage : output = some page ∨
      output = none ∧ (rt.outputCodec head).decode encoded = .ok page) :
    page = shown ∧ s = s' := by
  rcases hpage with rfl | ⟨rfl, hdecode⟩
  · exact pure_eq_ok.mp h
  · unfold Runtime.decodedPage at h
    rw [hdecode] at h
    exact pure_eq_ok.mp h

theorem tryEnqueue_refused {sink : SinkOperation Q Row} {c : Consumer} {page : Change Row}
    {s s' : Scope (Txn S Q Row)} (h : tryEnqueue sink c page s = .ok false s') :
    s'.state = s.state := by
  unfold tryEnqueue at h
  obtain ⟨_, t, ht, h⟩ := bind_eq_ok.mp h
  obtain ⟨rfl, rfl⟩ := get_eq_ok.mp ht
  obtain ⟨accepted, t, ht, h⟩ := bind_eq_ok.mp h
  obtain ⟨_, rfl⟩ := ofExcept_eq_ok.mp ht
  cases accepted with
  | none =>
    obtain ⟨_, rfl⟩ := pure_eq_ok.mp h
    rfl
  | some outbox =>
    obtain ⟨_, _, _, h⟩ := bind_eq_ok.mp h
    obtain ⟨_, _, _, h⟩ := bind_eq_ok.mp h
    cases (pure_eq_ok.mp h).1

theorem tryEnqueue_accepted {sink : SinkOperation Q Row} {c : Consumer} {page : Change Row}
    {s s' : Scope (Txn S Q Row)} (h : tryEnqueue sink c page s = .ok true s') :
    ∃ outboxes, s'.state = ⟨{ s.state.store with outboxes },
      s.state.events ++ [.enqueue c.operation c.port page]⟩ := by
  unfold tryEnqueue at h
  obtain ⟨_, t, ht, h⟩ := bind_eq_ok.mp h
  obtain ⟨rfl, rfl⟩ := get_eq_ok.mp ht
  obtain ⟨accepted, t, ht, h⟩ := bind_eq_ok.mp h
  obtain ⟨_, rfl⟩ := ofExcept_eq_ok.mp ht
  cases accepted with
  | none => cases (pure_eq_ok.mp h).1
  | some outbox =>
    obtain ⟨_, t₁, hwrite, h⟩ := bind_eq_ok.mp h
    obtain ⟨_, t₂, hemit, h⟩ := bind_eq_ok.mp h
    obtain ⟨_, rfl⟩ := pure_eq_ok.mp h
    rw [emit_eq_ok hemit, write_eq_ok hwrite]
    exact ⟨_, rfl⟩

/-- The routing loop enqueues the page at a prefix of the consumers and touches
nothing but outboxes. -/
theorem routeLoop_spec {head next : Nat} {port : Option Nat} {after : Progress}
    {page : Change Row} {encoded : Bytes} {consumers : List Consumer}
    {output : Option (Change Row)} {routed : Runtime.Routed} {s s' : Scope (Txn S Q Row)}
    (h : rt.routeLoop head encoded consumers next output s = .ok routed s')
    (hpage : output = some page ∨ output = none ∧ (rt.outputCodec head).decode encoded = .ok page)
    (hu : Underway rt queues tasks σ s.state
      (.send head port input (consumers.map (·, page)) after :: below)) :
    ∃ served remaining outboxes, consumers = served ++ remaining ∧
      s'.state.store = { s.state.store with outboxes } ∧
      Underway rt queues tasks σ s'.state
        (.send head port input (remaining.map (·, page)) after :: below) ∧
      Remaining rt next served remaining routed := by
  induction consumers generalizing next output s with
  | nil =>
    obtain ⟨rfl, rfl⟩ := pure_eq_ok.mp h
    exact ⟨[], [], _, rfl, rfl, hu, rfl⟩
  | cons c rest ih =>
    unfold Runtime.routeLoop at h
    cases hop : rt.operation c.operation with
    | sink sink =>
      have hsink : (rt.operation c.operation).isSink = true := by rw [hop]; rfl
      rw [hop] at h
      obtain ⟨_, t, ht, h⟩ := bind_eq_ok.mp h
      obtain ⟨rfl, rfl⟩ := get_eq_ok.mp ht
      split at h
      · obtain ⟨rfl, rfl⟩ := pure_eq_ok.mp h
        exact ⟨[], c :: rest, _, rfl, rfl, hu, rfl⟩
      · obtain ⟨_, t₁, hcharge, h⟩ := bind_eq_ok.mp h
        obtain ⟨hcharged, -⟩ := StepBudget.charge_eq_ok hcharge
        obtain ⟨shown, t₂, hshown, h⟩ := bind_eq_ok.mp h
        obtain ⟨rfl, rfl⟩ := decodedPage_eq_ok hshown hpage
        obtain ⟨accepted, t₃, henqueue, h⟩ := bind_eq_ok.mp h
        cases accepted with
        | false =>
          obtain ⟨rfl, rfl⟩ := pure_eq_ok.mp h
          rw [tryEnqueue_refused henqueue, hcharged]
          exact ⟨[], c :: rest, _, rfl, rfl, hu, rfl⟩
        | true =>
          obtain ⟨outbox, hstate⟩ := tryEnqueue_accepted henqueue
          rw [hcharged] at hstate
          have hu' := hu.moved { s.state.store with outboxes := outbox }
            (.single (.enqueue hsink)) (by simp [Event.isReturn]) rfl
          rw [← hstate] at hu'
          obtain ⟨served, remaining, outboxes, rfl, hstore, hlast, hrest⟩ := ih h (.inl rfl) hu'
          refine ⟨c :: served, remaining, outboxes, rfl, ?_, hlast, ?_⟩
          · rw [hstore, hstate]
          · exact hrest.cons c
    | _ =>
      rw [hop] at h
      obtain ⟨rfl, rfl⟩ := pure_eq_ok.mp h
      refine ⟨[], c :: rest, _, rfl, rfl, hu, c, rest, rfl, rfl, ?_, ?_⟩
      · rw [hop]; rfl
      · rw [hop]

theorem storeFresh_eq_ok {fresh : Bool} {depth : Nat} {encoded : Bytes} {u : Unit}
    {s s' : Scope (Txn S Q Row)}
    (h : (Runtime.storeFresh fresh depth encoded : TxnM S Q Row Unit) s = .ok u s')
    (hstored : fresh = false → s.state.store.outputs.get? depth = some encoded) :
    ∃ outputs, s'.state = ⟨{ s.state.store with outputs }, s.state.events⟩ ∧
      outputs.get? depth = some encoded ∧
      ∀ d, d ≠ depth → outputs.get? d = s.state.store.outputs.get? d := by
  unfold Runtime.storeFresh at h
  split at h
  · exact ⟨_, write_eq_ok h, by simp, fun d hd => by simp [hd]⟩
  · next hfresh =>
    obtain ⟨_, rfl⟩ := pure_eq_ok.mp h
    exact ⟨_, rfl, hstored (by simpa using hfresh), fun _ _ => rfl⟩

theorem routePage_spec {frame : Frame} {next : Nat} {after : Progress} {page : Change Row}
    {encoded : Bytes} {output : Option (Change Row)} {outcome : AdvanceOutcome}
    {s s' : Scope (Txn S Q Row)}
    (h : rt.routePage below.length frame next after output encoded s = .ok outcome s')
    (hpage : output = some page ∨ output = none)
    (hstored : output = none →
      s.state.store.controls.get? below.length = some ⟨frame.head, frame.inputPort, .send next after⟩ ∧
      s.state.store.outputs.get? below.length = some encoded)
    (hlength : encoded.length ≤ pageBytes)
    (hdecode : (rt.outputCodec frame.head).decode encoded = .ok page)
    (hnext : next ≤ (rt.topology.consumers frame.head).length)
    (hu : Underway rt queues tasks σ s.state (.send frame.head frame.inputPort input
      (((rt.topology.consumers frame.head).drop next).map (·, page)) after :: below))
    (ha : Active rt s.state.store source below frame.head frame.inputPort input) :
    Transacted rt source queues tasks σ s'.state := by
  unfold Runtime.routePage at h
  obtain ⟨routed, t, hloop, h⟩ := bind_eq_ok.mp h
  obtain ⟨served, remaining, outboxes, hsplit, hstore, hu', hrest⟩ :=
    routeLoop_spec hloop (hpage.imp_right fun ho => ⟨ho, hdecode⟩) hu
  have hservedLen : next + served.length + remaining.length =
      (rt.topology.consumers frame.head).length := by
    have := congrArg List.length hsplit
    simp only [List.length_drop, List.length_append] at this
    omega
  have hdrop : remaining = (rt.topology.consumers frame.head).drop (next + served.length) := by
    rw [← List.drop_drop, hsplit, List.drop_left]
  have ho : OnlyAt below.length s.state.store t.state.store := by
    rw [hstore]
    exact ⟨fun _ _ => rfl, fun _ _ => rfl, rfl⟩
  have ha' : Active rt t.state.store source below frame.head frame.inputPort input :=
    ⟨ha.stacked.frame (ho.agree source) le_rfl, ha.fed.frame (ho.agree source) le_rfl,
      ho.clear ha.clear⟩
  have hkept : output.isSome = false → t.state.store.outputs.get? below.length = some encoded := by
    intro hsome
    rw [hstore]
    exact (hstored (by simpa using hsome)).2
  cases routed with
  | exhausted =>
    obtain ⟨_, t₁, hfinish, h⟩ := bind_eq_ok.mp h
    obtain ⟨_, rfl⟩ := pure_eq_ok.mp h
    have hnil : remaining = [] := hrest
    rw [hnil] at hu'
    exact finishFrame_spec hfinish hu' ha'
  | stopped n blocked =>
    have hn : n = next + served.length := hrest
    rw [hdrop, ← hn] at hu'
    obtain ⟨_, t₁, hfresh, h⟩ := bind_eq_ok.mp h
    obtain ⟨outputs, ht₁, hat, hother⟩ := storeFresh_eq_ok hfresh hkept
    split at h
    · obtain ⟨_, t₂, hput, h⟩ := bind_eq_ok.mp h
      obtain ⟨_, rfl⟩ := pure_eq_ok.mp h
      rw [putFrame_eq_ok hput, ht₁]
      refine .standing (hu'.wrote rfl rfl) (ha'.replace ⟨fun d hd => ?_, hother, ?_⟩ rfl rfl rfl ?_)
      · simp [hd]
      · rfl
      · exact ⟨n, encoded, page, by simp, hat, hlength, hdecode, by omega, rfl⟩
    · next hstuck =>
      -- Nothing was computed and no consumer was served: the store is as before.
      obtain ⟨_, rfl⟩ := pure_eq_ok.mp h
      have hnone : output = none := by
        rcases hpage with ho | ho
        · simp [ho] at hstuck
        · exact ho
      have hsame : n = next := by
        by_contra hne
        exact hstuck (.inr hne)
      obtain ⟨hcontrol, -⟩ := hstored hnone
      rw [ht₁]
      refine .standing (hu'.wrote rfl rfl) (ha'.replace ⟨?_, hother, ?_⟩ rfl rfl rfl ?_)
      · exact fun _ _ => rfl
      · rfl
      · refine ⟨n, encoded, page, ?_, hat, hlength, hdecode, by omega, rfl⟩
        rw [hsame, hstore]
        exact hcontrol
  | child n child =>
    obtain ⟨c, rest, hcons, hn, hc, rfl⟩ := hrest
    have hlen : n ≤ (rt.topology.consumers frame.head).length := by
      rw [hcons, List.length_cons] at hservedLen
      omega
    have hget : (rt.topology.consumers frame.head)[next + served.length]? = some c := by
      rw [← List.head?_drop, ← hdrop, hcons]
      rfl
    have hlater : rest = (rt.topology.consumers frame.head).drop n := by
      rw [hn, ← List.drop_drop, ← hdrop, hcons]
      rfl
    obtain ⟨_, t₁, hfresh, h⟩ := bind_eq_ok.mp h
    obtain ⟨outputs, ht₁, hat, hother⟩ := storeFresh_eq_ok hfresh hkept
    obtain ⟨_, t₂, hput, h⟩ := bind_eq_ok.mp h
    obtain ⟨_, t₃, hchild, h⟩ := bind_eq_ok.mp h
    obtain ⟨_, rfl⟩ := pure_eq_ok.mp h
    rw [putFrame_eq_ok hchild, putFrame_eq_ok hput, ht₁]
    rw [hcons] at hu'
    have hstand : Standing rt
        { t.state.store with
          controls := t.state.store.controls.put below.length
            ⟨frame.head, frame.inputPort, .send n after⟩
          outputs } source
        (.send frame.head frame.inputPort input (rest.map (·, page)) after :: below) := by
      refine ha'.replace ⟨fun d hd => ?_, hother, ?_⟩ rfl rfl rfl ?_
      · simp [hd]
      · rfl
      · exact ⟨n, encoded, page, by simp, hat, hlength, hdecode, hlen, by rw [hlater]⟩
    have henter := hu'.moved { t.state.store with
      controls := (t.state.store.controls.put below.length
        ⟨frame.head, frame.inputPort, .send n after⟩).put (below.length + 1)
        ⟨c.operation, some c.port, .run (rt.operation c.operation).initialResume⟩
      outputs } (.single (.enter hc)) (by simp) rfl
    rw [List.append_nil] at henter
    refine .standing henter (hstand.push ?_)
    exact ⟨frame.head, frame.inputPort, next + served.length, after, c, encoded, by simp [hn],
      hget, rfl, rfl, hc, hat, hlength, hdecode⟩

/-- The tails only write operator states. -/
theorem runTails_spec {tails : List Nat} {output page : Option (Change Row)}
    {s s' : Scope (Txn S Q Row)} (h : rt.runTails tails output s = .ok page s') :
    ∃ events states, Tails rt tails s.state.store.states output events page states ∧
      s'.state = ⟨{ s.state.store with states }, s.state.events ++ events⟩ ∧
      ∀ e ∈ events, e.isReturn = false := by
  induction tails generalizing output s with
  | nil =>
    obtain ⟨rfl, rfl⟩ := pure_eq_ok.mp h
    exact ⟨[], _, .nil, by simp, by simp⟩
  | cons tail rest ih =>
    cases output with
    | none =>
      obtain ⟨rfl, rfl⟩ := pure_eq_ok.mp h
      exact ⟨[], _, .empty, by simp, by simp⟩
    | some change =>
      unfold Runtime.runTails at h
      cases hop : rt.operation tail with
      | atomic operation =>
        rw [hop] at h
        obtain ⟨applied, t, happly, h⟩ := bind_eq_ok.mp h
        obtain ⟨_, t₁, hemit, h⟩ := bind_eq_ok.mp h
        obtain ⟨state, hperforms, ht⟩ := onNode_eq_ok happly
        have ht₁ := emit_eq_ok hemit
        rw [ht] at ht₁
        obtain ⟨events, states, htails, hs', hquiet⟩ := ih h
        rw [ht₁] at htails hs'
        refine ⟨.tail tail change applied :: events, states, .apply hop hperforms htails, ?_, ?_⟩
        · rw [hs', List.append_assoc]
          rfl
        · intro e he
          rcases List.mem_cons.mp he with rfl | he
          · rfl
          · exact hquiet e he
      | _ =>
        rw [hop] at h
        exact (throw_eq_ok.mp h).elim

theorem encodePage_eq_ok {head : Nat} {output : Change Row} {encoded : Bytes}
    {s s' : Scope (Txn S Q Row)} (h : rt.encodePage head output s = .ok encoded s') :
    s = s' ∧ encoded.length ≤ pageBytes ∧ (rt.outputCodec head).decode encoded = .ok output := by
  unfold Runtime.encodePage at h
  obtain ⟨_, t, hget, h⟩ := bind_eq_ok.mp h
  obtain ⟨rfl, rfl⟩ := get_eq_ok.mp hget
  cases hencode : (rt.outputCodec head).encodeBounded output
      (min pageBytes s.budget.remainingBytes) with
  | ok bytes =>
    rw [hencode] at h
    obtain ⟨rfl, rfl⟩ := pure_eq_ok.mp h
    exact ⟨rfl, le_trans ((rt.outputCodec head).length_encode _ _ _ hencode) (min_le_left _ _),
      (rt.outputCodec head).decode_encode _ _ _ hencode⟩
  | error e =>
    rw [hencode] at h
    cases e with
    | encodedSizeLimitExceeded limit =>
      obtain ⟨_, _, _, h⟩ := bind_eq_ok.mp h
      exact (throw_eq_ok.mp h).elim
    | invalid reason => exact (throw_eq_ok.mp h).elim

/-- One page and its routing, from a frame that is about to compute. -/
theorem runPage_spec {frame : Frame} {resume : Resume} {outcome : AdvanceOutcome}
    {s s' : Scope (Txn S Q Row)} (hphase : frame.phase = .run resume)
    (h : rt.runPage below.length frame input s = .ok outcome s')
    (hu : Underway rt queues tasks σ s.state
      (.call frame.head frame.inputPort input resume :: below))
    (ha : Active rt s.state.store source below frame.head frame.inputPort input) :
    Transacted rt source queues tasks σ s'.state := by
  unfold Runtime.runPage at h
  rw [hphase] at h
  obtain ⟨_, t, hcharge, h⟩ := bind_eq_ok.mp h
  obtain ⟨hcharged, -⟩ := StepBudget.charge_eq_ok hcharge
  obtain ⟨⟨raw, progress⟩, t₁, hstep, h⟩ := bind_eq_ok.mp h
  obtain ⟨state, hperforms, ht₁⟩ := onNode_eq_ok hstep
  rw [hcharged] at hperforms ht₁
  dsimp only at h
  split at h
  · obtain ⟨_, _, hthrow, _⟩ := bind_eq_ok.mp h
    exact (throw_eq_ok.mp hthrow).elim
  · next hmoved =>
    obtain ⟨_, t₂, hemit, h⟩ := bind_eq_ok.mp h
    have ht₂ := emit_eq_ok hemit
    rw [ht₁] at ht₂
    obtain ⟨page, t₃, hrun, h⟩ := bind_eq_ok.mp h
    obtain ⟨events, states, htails, ht₃, hquiet⟩ := runTails_spec hrun
    rw [ht₂] at htails ht₃
    have hpage : Page rt frame.head frame.inputPort input resume s.state.store.states
        (.step frame.head frame.inputPort input resume raw progress :: events) page progress
        states := .mk hperforms hmoved htails
    have hu' := hu.moved { s.state.store with states } (.single (.page hpage)) (by
      intro e he
      rcases List.mem_cons.mp he with rfl | he
      · rfl
      · exact hquiet e he) rfl
    rw [List.append_assoc] at ht₃
    rw [← List.singleton_append, ← ht₃] at hu'
    have ha' : Active rt t₃.state.store source below frame.head frame.inputPort input := by
      rw [ht₃]
      exact ⟨ha.stacked.frame ⟨fun _ _ => rfl, fun _ _ => rfl, rfl⟩ le_rfl,
        ha.fed.frame ⟨fun _ _ => rfl, fun _ _ => rfl, rfl⟩ le_rfl, ha.clear⟩
    cases page with
    | none =>
      obtain ⟨_, t₄, hcharge, h⟩ := bind_eq_ok.mp h
      obtain ⟨hcharged, -⟩ := StepBudget.charge_eq_ok hcharge
      obtain ⟨_, t₅, hfinish, h⟩ := bind_eq_ok.mp h
      obtain ⟨_, rfl⟩ := pure_eq_ok.mp h
      rw [← hcharged] at hu' ha'
      exact finishFrame_spec hfinish hu' ha'
    | some page =>
      obtain ⟨_, t₄, hshape, h⟩ := bind_eq_ok.mp h
      obtain ⟨_, rfl⟩ := ofExcept_eq_ok.mp hshape
      obtain ⟨encoded, t₄, hencode, h⟩ := bind_eq_ok.mp h
      obtain ⟨rfl, hlength, hdecode⟩ := encodePage_eq_ok hencode
      obtain ⟨_, t₅, hcharge, h⟩ := bind_eq_ok.mp h
      obtain ⟨_, t₆, hcharge', h⟩ := bind_eq_ok.mp h
      have hcharged : t₆.state = t₃.state :=
        (StepBudget.charge_eq_ok hcharge').1.trans (StepBudget.charge_eq_ok hcharge).1
      rw [← hcharged] at hu' ha'
      exact routePage_spec h (.inl rfl) nofun hlength hdecode (Nat.zero_le _) hu' ha'

end Spec

end Dogpaddle.Flow
