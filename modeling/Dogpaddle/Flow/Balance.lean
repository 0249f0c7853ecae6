import Dogpaddle.Flow.Call
import Dogpaddle.Flow.Chain
import Mathlib.Algebra.Ring.Pi
import Mathlib.Tactic.Abel
import Mathlib.Tactic.LinearCombination

/-!
# Accounts of a finished call

What a completed call does, node by node and edge by edge:

* it touches no node before its head (`Runs.untouched`);
* every node it computes at handles a sequence of whole inputs, and the head
  handles exactly the input of the call (`Runs.account`);
* along every edge of the graph, what the producer put out went in at the
  consumer, except that the head of the call received its input from outside
  (`Runs.balance`).
-/

namespace Dogpaddle.Flow

open Dogpaddle Lib

variable {S Q Row : Type}

/-- The node an event belongs to. -/
def Event.node : Event Row → Nat
  | .step head .. => head
  | .tail node .. => node
  | .enqueue sink .. => sink
  | .finish head _ => head
  | .consume source _ => source

/-- The pages a task hands on go to consumers of its head. -/
def Admitted (rt : Runtime S Q Row) : Task Row → Prop
  | .call .. => True
  | .send head _ _ visits _ => ∀ v ∈ visits, v.1 ∈ rt.topology.consumers head

section Bags

variable [DecidableEq Row]

/-- What an event puts out at a node. -/
def Event.out (n : Nat) : Event Row → Bag Row
  | .step head _ _ _ output _ => if head = n then outputBag output else 0
  | .tail node _ output => if node = n then outputBag output else 0
  | _ => 0

/-- What an event completes at a port of a node. -/
def Event.into (n p : Nat) : Event Row → Bag Row
  | .step head port input _ _ .done => if head = n ∧ port = some p then input.bag else 0
  | .tail node input _ => if node = n ∧ p = 0 then input.bag else 0
  | .enqueue sink port page => if sink = n ∧ port = p then page.bag else 0
  | _ => 0

/-- The bag a node put out. -/
def outBag (n : Nat) (events : List (Event Row)) : Bag Row := (events.map (Event.out n)).sum

/-- The bag a port of a node took in. -/
def inBag (n p : Nat) (events : List (Event Row)) : Bag Row := (events.map (Event.into n p)).sum

@[simp] theorem outBag_nil (n : Nat) : outBag n ([] : List (Event Row)) = 0 := rfl

@[simp] theorem outBag_cons (n : Nat) (e : Event Row) (events : List (Event Row)) :
    outBag n (e :: events) = e.out n + outBag n events := by
  simp [outBag]

@[simp] theorem outBag_append (n : Nat) (events events' : List (Event Row)) :
    outBag n (events ++ events') = outBag n events + outBag n events' := by
  simp [outBag]

@[simp] theorem inBag_nil (n p : Nat) : inBag n p ([] : List (Event Row)) = 0 := rfl

@[simp] theorem inBag_cons (n p : Nat) (e : Event Row) (events : List (Event Row)) :
    inBag n p (e :: events) = e.into n p + inBag n p events := by
  simp [inBag]

@[simp] theorem inBag_append (n p : Nat) (events events' : List (Event Row)) :
    inBag n p (events ++ events') = inBag n p events + inBag n p events' := by
  simp [inBag]

theorem Event.out_of_ne {n : Nat} {e : Event Row} (h : e.node ≠ n) : e.out n = 0 := by
  cases e <;> simp_all [Event.out, Event.node]

theorem Event.into_of_ne {n p : Nat} {e : Event Row} (h : e.node ≠ n) : e.into n p = 0 := by
  cases e with
  | step head port input resume output progress =>
    cases progress <;> simp_all [Event.into, Event.node]
  | _ => simp_all [Event.into, Event.node]

theorem outBag_eq_zero {n : Nat} {events : List (Event Row)} (h : ∀ e ∈ events, e.node ≠ n) :
    outBag n events = 0 := by
  refine List.sum_eq_zero fun b hb => ?_
  obtain ⟨e, he, rfl⟩ := List.mem_map.mp hb
  exact Event.out_of_ne (h e he)

theorem inBag_eq_zero {n p : Nat} {events : List (Event Row)} (h : ∀ e ∈ events, e.node ≠ n) :
    inBag n p events = 0 := by
  refine List.sum_eq_zero fun b hb => ?_
  obtain ⟨e, he, rfl⟩ := List.mem_map.mp hb
  exact Event.into_of_ne (h e he)

end Bags

/-! ## Nodes before the head -/

section Range

variable {rt : Runtime S Q Row}

theorem le_chainEnd (rt : Runtime S Q Row) (head : Nat) :
    head ≤ chainEnd rt.topology.tails head := by
  unfold chainEnd
  cases hlast : (rt.topology.tails head).getLast? with
  | none => exact le_rfl
  | some t =>
    exact le_of_lt ((chainFrom_of_resolve rt.resolved head).lt rt.validated t
      (List.mem_of_getLast? hlast))

/-- Consumers come after the head they are fed by. -/
theorem lt_of_mem_consumers {head : Nat} {c : Consumer} (h : c ∈ rt.topology.consumers head) :
    head < c.operation := by
  rw [(resolve_eq_ok rt.resolved).2.2 head] at h
  exact lt_of_le_of_lt (le_chainEnd rt head) (lt_of_mem_consumersOf rt.validated h)

/-- The declared inputs of a node. -/
def Runtime.arity (rt : Runtime S Q Row) (n : Nat) : Nat :=
  match rt.nodes[n]? with
  | some node => node.inputs.length
  | none => 0

/-- An edge gives its consumer a port. -/
theorem port_lt_arity {q : Nat} {c : Consumer} (h : c ∈ consumersOf rt.nodes q) :
    c.port < rt.arity c.operation := by
  obtain ⟨node, hnode, hport⟩ := mem_consumersOf.mp h
  unfold Runtime.arity
  rw [hnode]
  exact (List.getElem?_eq_some_iff.mp hport).1

/-- An edge never leads to a source. -/
theorem not_source_of_consumer {q : Nat} {c : Consumer} (h : c ∈ consumersOf rt.nodes q) :
    (rt.operation c.operation).isSource = false := by
  obtain ⟨node, hnode, hport⟩ := mem_consumersOf.mp h
  have hlt := (List.getElem?_eq_some_iff.mp hport).1
  have hcount := (inputs_of_validate rt.validated hnode).1
  unfold Runtime.operation
  rw [hnode]
  by_contra hsource
  have hzero := node.arity.1 (by simpa using hsource)
  omega

/-- The tails act on their own nodes only. -/
theorem Tails.untouched {tails : List Nat} {σ σ' : Nat → S} {raw page : Option (Change Row)}
    {events : List (Event Row)} (h : Tails rt tails σ raw events page σ') :
    (∀ e ∈ events, e.node ∈ tails) ∧ ∀ n, n ∉ tails → σ' n = σ n := by
  induction h with
  | nil => exact ⟨by simp, fun _ _ => rfl⟩
  | empty => exact ⟨by simp, fun _ _ => rfl⟩
  | @apply σ σ' tail rest operation change output page s events hop hp _ ih =>
    refine ⟨fun e he => ?_, fun n hn => ?_⟩
    · rcases List.mem_cons.mp he with rfl | he
      · exact List.mem_cons_self
      · exact List.mem_cons_of_mem _ (ih.1 e he)
    · rw [List.mem_cons, not_or] at hn
      rw [ih.2 n hn.2, Function.update_of_ne hn.1]

theorem visits_admitted (head : Nat) (port : Option Nat) (input : Change Row)
    (page : Option (Change Row)) (after : Progress) :
    Admitted rt (.send head port input (visits rt head page) after) := by
  intro v hv
  cases page with
  | none => cases hv
  | some page =>
    obtain ⟨c, hc, rfl⟩ := List.mem_map.mp hv
    exact hc

/-- A call never reaches back before its head. -/
theorem Runs.untouched {task : Task Row} {σ σ' : Nat → S} {events : List (Event Row)}
    {finished : Bool} (h : Runs rt task σ events finished σ') (ha : Admitted rt task) :
    (∀ e ∈ events, task.head ≤ e.node) ∧ ∀ n, n < task.head → σ' n = σ n := by
  induction h with
  | pause => exact ⟨by simp, fun _ _ => rfl⟩
  | @page head port input resume σ σ₁ σ₂ page progress events rest finished hp _ ih =>
    obtain ⟨hrest, hstates⟩ := ih (visits_admitted head port input page progress)
    cases hp with
    | mk _ _ htails =>
      obtain ⟨hnodes, hsame⟩ := htails.untouched
      have hlt := (chainFrom_of_resolve rt.resolved head).lt rt.validated
      refine ⟨fun e he => ?_, fun n hn => ?_⟩
      · rcases List.mem_append.mp he with he | he
        · rcases List.mem_cons.mp he with rfl | he
          · exact le_rfl
          · exact le_of_lt (hlt _ (hnodes e he))
        · exact hrest e he
      · have hn' : n < head := hn
        rw [hstates n hn', hsame n fun hmem => absurd (hlt n hmem) (not_lt_of_gt hn'),
          Function.update_of_ne (ne_of_lt hn')]
  | @enqueue head port input page after c later σ σ' rest finished _ _ ih =>
    obtain ⟨hrest, hstates⟩ := ih fun v hv => ha v (List.mem_cons_of_mem _ hv)
    refine ⟨fun e he => ?_, hstates⟩
    rcases List.mem_cons.mp he with rfl | he
    · exact le_of_lt (lt_of_mem_consumers (ha (c, page) List.mem_cons_self))
    · exact hrest e he
  | @inside head port input page after c later σ σ' events _ _ ih =>
    have hlt := lt_of_mem_consumers (ha (c, page) List.mem_cons_self)
    obtain ⟨hevents, hstates⟩ := ih trivial
    exact ⟨fun e he => le_trans (le_of_lt hlt) (hevents e he),
      fun n hn => hstates n (lt_trans hn hlt)⟩
  | @consumer head port input page after c later σ σ₁ σ₂ events rest finished _ _ _ ihc ih =>
    have hlt := lt_of_mem_consumers (ha (c, page) List.mem_cons_self)
    obtain ⟨hevents, hstates⟩ := ihc trivial
    obtain ⟨hrest, hstates'⟩ := ih fun v hv => ha v (List.mem_cons_of_mem _ hv)
    refine ⟨fun e he => ?_, fun n hn => ?_⟩
    · rcases List.mem_append.mp he with he | he
      · exact le_trans (le_of_lt hlt) (hevents e he)
      · exact hrest e he
    · rw [hstates' n hn, hstates n (lt_trans hn hlt)]
  | more _ ih => exact ih trivial
  | finish => exact ⟨by simp [Task.head, Event.node], fun _ _ => rfl⟩

end Range

/-! ## Operators -/

section Account

variable [DecidableEq Row] {rt : Runtime S Q Row}

/-- What a stretch of events did at one operator: it handled whole inputs. A
source put nothing out. -/
def Account (rt : Runtime S Q Row) (n : Nat) (s : S) (events : List (Event Row)) (s' : S) : Prop :=
  match rt.operation n with
  | .source => outBag n events = 0
  | .sink _ => True
  | op => ∃ inputs outputs, HandlesAll op s inputs outputs s' ∧
      (∀ i ∈ inputs, i.1 < rt.arity n) ∧
      (∀ p, inputsBag inputs p = inBag n p events) ∧ outputsBag outputs = outBag n events

/-- What the events of a task did at its own head: the pages from a position to
the end of the input, or nothing. -/
def OwnAccount (rt : Runtime S Q Row) : Task Row → S → List (Event Row) → S → Prop
  | .call head port input resume, s, events, s' =>
    ∃ outputs, Pages (rt.operation head) (port.getD 0) input resume s outputs s' ∧
      outputsBag outputs = outBag head events ∧
      ∀ p, inBag head p events = if port = some p then input.bag else 0
  | .send head port input _ (.more resume), s, events, s' =>
    ∃ outputs, Pages (rt.operation head) (port.getD 0) input resume s outputs s' ∧
      outputsBag outputs = outBag head events ∧
      ∀ p, inBag head p events = if port = some p then input.bag else 0
  | .send head _ _ _ .done, s, events, s' =>
    s' = s ∧ outBag head events = 0 ∧ ∀ p, inBag head p events = 0

theorem Account.trans {n : Nat} {s s₁ s₂ : S} {l l' : List (Event Row)}
    (h : Account rt n s l s₁) (h' : Account rt n s₁ l' s₂) :
    Account rt n s (l ++ l') s₂ := by
  unfold Account at *
  cases hop : rt.operation n with
  | source => simp_all
  | sink _ => trivial
  | atomic _ | paged _ =>
    simp only [hop] at h h'
    obtain ⟨inputs, outputs, hall, hports, hin, hout⟩ := h
    obtain ⟨inputs', outputs', hall', hports', hin', hout'⟩ := h'
    refine ⟨inputs ++ inputs', outputs ++ outputs', hall.append hall', fun i hi => ?_,
      fun p => ?_, ?_⟩
    · rcases List.mem_append.mp hi with hi | hi
      · exact hports i hi
      · exact hports' i hi
    · rw [inputsBag_append, inBag_append, hin, hin']
    · rw [outputsBag_append, outBag_append, hout, hout']

/-- Events elsewhere. -/
theorem Account.elsewhere {n : Nat} {s : S} {events : List (Event Row)}
    (h : ∀ e ∈ events, e.node ≠ n) : Account rt n s events s := by
  unfold Account
  cases hop : rt.operation n with
  | source => exact outBag_eq_zero h
  | sink _ => trivial
  | atomic _ | paged _ =>
    exact ⟨[], [], .nil, by simp, fun p => (inBag_eq_zero h).symm, (outBag_eq_zero h).symm⟩

theorem Tails.account {tails : List Nat} {σ σ' : Nat → S} {raw page : Option (Change Row)}
    {events : List (Event Row)} {prev : Nat} (h : Tails rt tails σ raw events page σ')
    (hc : ChainFrom rt.nodes prev tails) (n : Nat) : Account rt n (σ n) events (σ' n) := by
  induction h generalizing prev with
  | nil => exact .elsewhere (by simp)
  | empty => exact .elsewhere (by simp)
  | @apply σ σ' tail rest operation change output page s events hop hp _ ih =>
    rw [← List.singleton_append]
    refine Account.trans ?_ (ih hc.2)
    by_cases hn : n = tail
    · subst hn
      have hport : 0 < rt.arity n := port_lt_arity (c := ⟨n, 0⟩) (q := prev) (by rw [hc.1]; simp)
      rw [Function.update_self]
      unfold Account
      rw [hop]
      refine ⟨[(0, change)], [output], .single (.atomic hp), by simpa using hport, fun p => ?_, ?_⟩
      · simp [Event.into, eq_comm]
      · simp [Event.out]
    · rw [Function.update_of_ne hn]
      exact .elsewhere (by simpa [Event.node] using Ne.symm hn)

/-- A whole call from the initial position is whole inputs at its head. -/
theorem OwnAccount.account {c : Consumer} {page : Change Row} {s s' : S}
    {events : List (Event Row)} (h : OwnAccount rt (childCall rt c page) s events s')
    (hport : c.port < rt.arity c.operation)
    (hsource : (rt.operation c.operation).isSource = false) :
    Account rt c.operation s events s' := by
  obtain ⟨outputs, hpages, hout, hin⟩ := h
  unfold Account
  cases hop : rt.operation c.operation with
  | source => simp [hop, Operation.isSource] at hsource
  | sink _ => trivial
  | atomic operation =>
    rw [hop] at hpages
    obtain ⟨inputs, hall, hports, hbag⟩ := hpages.windows
    refine ⟨inputs, outputs, hall, fun i hi => by rw [hports i hi]; exact hport, fun p => ?_, hout⟩
    rw [hbag, hin]
    simp [Operation.initialResume, Resume.batch, Change.bag]
  | paged operation =>
    rw [hop] at hpages
    refine ⟨[(c.port, page)], outputs, .single (.paged hpages), by simpa using hport, fun p => ?_,
      hout⟩
    rw [hin]
    simp

/-- Events that leave the head alone do not change its account. -/
theorem OwnAccount.prepend {head : Nat} {port : Option Nat} {input page : Change Row}
    {c : Consumer} {later : List (Consumer × Change Row)} {after : Progress} {s s' : S}
    {l rest : List (Event Row)} (h : OwnAccount rt (.send head port input later after) s rest s')
    (he : ∀ e ∈ l, e.node ≠ head) :
    OwnAccount rt (.send head port input ((c, page) :: later) after) s (l ++ rest) s' := by
  have hout : outBag head (l ++ rest) = outBag head rest := by simp [outBag_eq_zero he]
  have hin : ∀ p, inBag head p (l ++ rest) = inBag head p rest := fun p => by
    simp [inBag_eq_zero he]
  cases after with
  | done => simpa only [OwnAccount, hout, hin] using h
  | more r => simpa only [OwnAccount, hout, hin] using h

/-- What a completed task did, node by node. -/
theorem Runs.account {task : Task Row} {σ σ' : Nat → S} {events : List (Event Row)}
    {finished : Bool} (h : Runs rt task σ events finished σ') (hf : finished = true)
    (ha : Admitted rt task) :
    (∀ n, n ≠ task.head → Account rt n (σ n) events (σ' n)) ∧
      OwnAccount rt task (σ task.head) events (σ' task.head) := by
  induction h with
  | pause => cases hf
  | inside => cases hf
  | @page head port input resume σ σ₁ σ₂ page progress events rest finished hp _ ih =>
    obtain ⟨hrest, hown⟩ := ih hf (visits_admitted head port input page progress)
    cases hp with
    | @mk _ raw _ _ s tailEvents hstep hmoved htails =>
      have hchain := chainFrom_of_resolve rt.resolved head
      have hlt := hchain.lt rt.validated
      obtain ⟨hnodes, hsame⟩ := htails.untouched
      have hnode : ∀ e ∈ tailEvents, e.node ≠ head := fun e he =>
        (ne_of_lt (hlt _ (hnodes e he))).symm
      have hhead : σ₁ head = s := by
        rw [hsame head fun hmem => lt_irrefl _ (hlt head hmem), Function.update_self]
      refine ⟨fun n hn => ?_, ?_⟩
      · refine Account.trans ?_ (hrest n hn)
        rw [← List.singleton_append]
        refine Account.trans (.elsewhere (by simpa [Event.node] using Ne.symm hn)) ?_
        have htail := htails.account hchain n
        rwa [Function.update_of_ne (show n ≠ head from hn)] at htail
      · simp only [Task.head_send, Task.head_call, hhead] at hown ⊢
        cases progress with
        | done =>
          obtain ⟨hs, hout, hin⟩ := hown
          refine ⟨[raw], .last (hs ▸ hstep), ?_, fun p => ?_⟩
          · simp [Event.out, outBag_eq_zero hnode, hout]
          · simp [Event.into, inBag_eq_zero hnode, hin]
        | more r =>
          obtain ⟨outputs, hpages, hout, hin⟩ := hown
          refine ⟨raw :: outputs, .next hstep hpages, ?_, fun p => ?_⟩
          · simp [Event.out, outBag_eq_zero hnode, hout]
          · simp [Event.into, inBag_eq_zero hnode, hin]
  | @enqueue head port input page after c later σ σ' rest finished hsink _ ih =>
    obtain ⟨hrest, hown⟩ := ih hf fun v hv => ha v (List.mem_cons_of_mem _ hv)
    have hlt := lt_of_mem_consumers (ha (c, page) List.mem_cons_self)
    refine ⟨fun n hn => Account.trans (l := [.enqueue c.operation c.port page]) ?_ (hrest n hn),
      hown.prepend (l := [.enqueue c.operation c.port page]) ?_⟩
    · by_cases hc : n = c.operation
      · unfold Account
        cases hop : rt.operation n <;> simp_all [Operation.isSink]
      · exact .elsewhere (by simpa [Event.node] using Ne.symm hc)
    · simpa [Event.node] using (ne_of_lt hlt).symm
  | @consumer head port input page after c later σ σ₁ σ₂ events rest finished _ hc _ ihc ih =>
    have hmem := ha (c, page) List.mem_cons_self
    have hlt := lt_of_mem_consumers hmem
    have hedge : c ∈ consumersOf rt.nodes (chainEnd rt.topology.tails head) := by
      rwa [← (resolve_eq_ok rt.resolved).2.2 head]
    obtain ⟨hchild, hchildOwn⟩ := ihc rfl trivial
    obtain ⟨hrest, hown⟩ := ih hf fun v hv => ha v (List.mem_cons_of_mem _ hv)
    obtain ⟨hnodes, hstates⟩ := hc.untouched trivial
    refine ⟨fun n hn => Account.trans ?_ (hrest n hn), ?_⟩
    · by_cases hn' : n = c.operation
      · rw [hn']
        exact hchildOwn.account (port_lt_arity hedge) (not_source_of_consumer hedge)
      · exact hchild n hn'
    · -- The child stays above its own head, so the sender is as it was.
      rw [Task.head_send, ← hstates head hlt]
      exact hown.prepend fun e he => (ne_of_lt (lt_of_lt_of_le hlt (hnodes e he))).symm
  | more _ ih => exact ih hf trivial
  | finish =>
    refine ⟨fun n hn => .elsewhere (by simpa [Event.node] using Ne.symm hn), rfl, ?_, fun p => ?_⟩
    · simp [Event.out]
    · simp [Event.into]

end Account

/-! ## Edges -/

section Balance

variable [DecidableEq Row] {rt : Runtime S Q Row}

/-- What the listed visits hand to one port of a node. -/
def visitsBag (n p : Nat) (visits : List (Consumer × Change Row)) : Bag Row :=
  (visits.map fun v => if v.1 = ⟨n, p⟩ then v.2.bag else 0).sum

/-- The input of a call, seen from one port of a node. -/
def callBag (n p head : Nat) (port : Option Nat) (input : Change Row) : Bag Row :=
  if head = n ∧ port = some p then input.bag else 0

/-- What a task takes in beyond what it puts out: the pages still to be handed
on, and the input of a call that has not reached its end. -/
def due (n p : Nat) : Task Row → Bag Row
  | .call head port input _ => callBag n p head port input
  | .send head port input visits (.more _) => visitsBag n p visits + callBag n p head port input
  | .send _ _ _ visits .done => visitsBag n p visits

theorem due_send_cons (n p head : Nat) (port : Option Nat) (input page : Change Row)
    (c : Consumer) (later : List (Consumer × Change Row)) (after : Progress) :
    due n p (.send head port input ((c, page) :: later) after) =
      (if c = ⟨n, p⟩ then page.bag else 0) + due n p (.send head port input later after) := by
  cases after <;> simp [due, visitsBag, add_assoc]

/-- A page handed to all consumers of a head crosses each of their edges once. -/
theorem visitsBag_visits {q n p : Nat} (head : Nat) (page : Option (Change Row))
    (hedge : ⟨n, p⟩ ∈ consumersOf rt.nodes q) :
    visitsBag n p (visits rt head page) =
      if q = chainEnd rt.topology.tails head then outputBag page else 0 := by
  cases page with
  | none => simp [visits, visitsBag]
  | some page =>
    have hlist := (resolve_eq_ok rt.resolved).2.2 head
    simp only [visits, visitsBag, hlist, List.map_map, Function.comp_def, outputBag_some]
    by_cases hq : q = chainEnd rt.topology.tails head
    · rw [if_pos hq, ← hq]
      rw [List.sum_map_ite_eq (consumersOf rt.nodes q) (fun _ => page.bag) (fun _ => 0) ⟨n, p⟩,
        List.count_eq_one_of_mem (nodup_consumersOf rt.nodes q) hedge]
      simp
    · rw [if_neg hq]
      refine List.sum_eq_zero fun b hb => ?_
      obtain ⟨c, hc, rfl⟩ := List.mem_map.mp hb
      rw [if_neg]
      rintro rfl
      exact hq (producer_unique hedge hc)

/-- Along the links of a chain nothing is lost: what enters it at the front
and what the tails put out is taken in by the tails or leaves it at the end. -/
theorem Tails.balance {tails : List Nat} {σ σ' : Nat → S} {raw page : Option (Change Row)}
    {events : List (Event Row)} {prev q n p : Nat} (h : Tails rt tails σ raw events page σ')
    (hc : ChainFrom rt.nodes prev tails) (hedge : ⟨n, p⟩ ∈ consumersOf rt.nodes q) :
    inBag n p events + (if q = tails.getLast?.getD prev then outputBag page else 0) =
      outBag q events + if q = prev then outputBag raw else 0 := by
  induction h generalizing prev with
  | nil => by_cases hq : q = prev <;> simp [hq]
  | empty => simp
  | @apply σ σ' tail rest operation change output page s events _ _ _ ih =>
    have hlast : (tail :: rest).getLast?.getD prev = rest.getLast?.getD tail := by
      rw [List.getLast?_cons, Option.getD_some]
    have hfirst : (tail = n ∧ p = 0) ↔ q = prev := by
      refine ⟨?_, ?_⟩
      · rintro ⟨rfl, rfl⟩
        exact producer_unique hedge (by rw [hc.1]; simp)
      · rintro rfl
        rw [hc.1] at hedge
        simpa [eq_comm] using hedge
    have hinto : (Event.tail tail change output).into n p =
        if q = prev then outputBag (some change) else 0 := by
      by_cases hq : q = prev
      · simp [Event.into, hfirst.mpr hq, hq]
      · rw [if_neg hq]
        exact if_neg fun h => hq (hfirst.mp h)
    have hout : (Event.tail tail change output).out q = if q = tail then outputBag output else 0 := by
      simp [Event.out, eq_comm]
    rw [hlast, inBag_cons, outBag_cons, add_assoc, ih hc.2, hinto, hout]
    abel

/-- Every edge carries to its consumer what its producer puts out. -/
theorem Runs.balance {task : Task Row} {σ σ' : Nat → S} {events : List (Event Row)}
    {finished : Bool} {q n p : Nat} (h : Runs rt task σ events finished σ')
    (hf : finished = true) (hedge : ⟨n, p⟩ ∈ consumersOf rt.nodes q) :
    inBag n p events = outBag q events + due n p task := by
  induction h with
  | pause => cases hf
  | inside => cases hf
  | @page head port input resume σ σ₁ σ₂ page progress events rest finished hp _ ih =>
    have hrest := ih hf
    cases hp with
    | @mk _ raw _ _ s tailEvents hstep hmoved htails =>
      have hchain := htails.balance (chainFrom_of_resolve rt.resolved head) hedge
      have hvisits := visitsBag_visits head page hedge
      have hraw : (Event.step head port input resume raw progress).out q =
          if q = head then outputBag raw else 0 := by
        simp [Event.out, eq_comm]
      rw [chainEnd] at hvisits
      rw [inBag_append, outBag_append, inBag_cons, outBag_cons, hrest, hraw]
      cases progress with
      | done =>
        simp only [due, hvisits, Event.into, callBag]
        linear_combination hchain
      | more r =>
        simp only [due, hvisits, Event.into, callBag]
        linear_combination hchain
  | @enqueue head port input page after c later σ σ' rest finished hsink _ ih =>
    have hinto : (Event.enqueue c.operation c.port page).into n p =
        if c = ⟨n, p⟩ then page.bag else 0 := by
      simp [Event.into, Consumer.ext_iff]
    rw [inBag_cons, outBag_cons, due_send_cons, ih hf, hinto]
    simp only [Event.out]
    abel
  | @consumer head port input page after c later σ σ₁ σ₂ events rest finished _ _ _ ihc ih =>
    have hcall : due n p (childCall rt c page) = if c = ⟨n, p⟩ then page.bag else 0 := by
      simp [childCall, due, callBag, Consumer.ext_iff]
    rw [inBag_append, outBag_append, due_send_cons, ihc rfl, ih hf, hcall]
    abel
  | more _ ih =>
    rw [ih hf]
    simp [due, visitsBag]
  | finish => simp [due, visitsBag, Event.into, Event.out]

end Balance

end Dogpaddle.Flow
