import Dogpaddle.Debezium.Exchange

/-!
# The acknowledgement protocol

What holds in every run of the bridge, whatever the order of its steps.

* `Inv`: what the futures, the monitors and the engine thread's place say about what was
  observed. Its core is `Stands`: a commit is expected only while the engine thread is
  between `arm` and `disarm`, and then it is that of its acknowledged delivery.
* `Sound`, `State.step_sound`: every step observes only what the protocol permits, and
  keeps the invariant.
* `acknowledgement_protocol`: the guarantees, over whole runs.
-/

namespace Dogpaddle.Debezium.Java

open Lib

/-! ## Reading an observation -/

/-- The last checkpoint written. -/
def writtenLast (initial : Checkpoint) : List Event → Checkpoint
  | [] => initial
  | .written checkpoint :: _ => checkpoint
  | _ :: before => writtenLast initial before

/-- The delivery that is armed and not disarmed yet. -/
def armedIn : List Event → Option Nat
  | [] => none
  | .armed delivery :: _ => some delivery
  | .disarmed _ :: _ => none
  | _ :: before => armedIn before

/-- The delivery is installed and not settled. -/
def Outstanding (past : List Event) (delivery : Nat) : Prop :=
  (∃ checkpoint, .installed delivery checkpoint ∈ past) ∧
    ∀ failed current, .settled delivery failed current ∉ past

/-! ## Deliveries -/

namespace DeliveryExchange

def checkpointOf (exchange : DeliveryExchange) (delivery : Nat) : Option Checkpoint :=
  exchange.deliveries[delivery]?.bind fun installed => some installed.checkpoint

def settledOf (exchange : DeliveryExchange) (delivery : Nat) : Option Bool :=
  exchange.deliveries[delivery]?.bind (·.settled)

/-- A function of the elements that a modification keeps does not see it. -/
theorem bind_modify {α β : Type} {f : α → α} {g : α → Option β} (h : ∀ a, g (f a) = g a)
    (l : List α) (i j : Nat) : (l.modify i f)[j]?.bind g = l[j]?.bind g := by
  rw [List.getElem?_modify]
  cases l[j]? with
  | none => rfl
  | some a =>
    change g (if i = j then f a else a) = g a
    split
    · exact h a
    · rfl

/-- A function of the elements sees a modification at its own index only. -/
theorem bind_modify_of {α β : Type} (f : α → α) (g : α → Option β) (l : List α) (i j : Nat) :
    (l.modify i f)[j]?.bind g = l[j]?.bind (if j = i then g ∘ f else g) := by
  rw [List.getElem?_modify]
  cases l[j]? with
  | none => rfl
  | some a =>
    change g (if i = j then f a else a) = (if j = i then g ∘ f else g) a
    by_cases hij : j = i
    · simp [hij]
    · rw [if_neg hij, if_neg (Ne.symm hij)]

theorem bind_append_singleton {α β : Type} (g : α → Option β) (l : List α) (a : α) (j : Nat) :
    (l ++ [a])[j]?.bind g = if j = l.length then g a else l[j]?.bind g := by
  by_cases hj : j = l.length
  · rw [if_pos hj, hj, List.getElem?_concat_length]
    rfl
  · rw [if_neg hj]
    rcases Nat.lt_or_gt_of_ne hj with hlt | hgt
    · rw [List.getElem?_append_left hlt]
    · rw [List.getElem?_eq_none (by omega : l.length ≤ j),
        List.getElem?_eq_none (by simp only [List.length_append, List.length_singleton]; omega)]

variable (exchange : DeliveryExchange) (delivery d : Nat)

@[simp] theorem checkpointOf_decide (decision : Decision) :
    (exchange.decide delivery decision).checkpointOf d = exchange.checkpointOf d := by
  unfold checkpointOf decide
  apply bind_modify
  intro _
  rfl

@[simp] theorem settledOf_decide (decision : Decision) :
    (exchange.decide delivery decision).settledOf d = exchange.settledOf d := by
  unfold settledOf decide
  apply bind_modify
  intro _
  rfl

/-- A decision is made once, and for an installed delivery only. -/
theorem decisionOf_decide (decision : Decision) :
    (exchange.decide delivery decision).decisionOf d =
      if d = delivery then
        (exchange.checkpointOf d).bind fun _ => (exchange.decisionOf d).or (some decision)
      else exchange.decisionOf d := by
  have h : (exchange.decide delivery decision).decisionOf d = _ := bind_modify_of _ _ _ _ _
  rw [h]
  unfold decisionOf checkpointOf
  split
  · cases exchange.deliveries[d]? <;> rfl
  · rfl

/-- A second decision is ignored. -/
theorem decide_of_decided {exchange : DeliveryExchange} {delivery : Nat}
    (h : (exchange.decisionOf delivery).isSome) (decision : Decision) :
    exchange.decide delivery decision = exchange := by
  have hdeliveries : exchange.deliveries.modify delivery (·.decide decision) =
      exchange.deliveries := by
    refine List.ext_getElem? fun j => ?_
    rw [List.getElem?_modify]
    cases hj : exchange.deliveries[j]? with
    | none => rfl
    | some found =>
      change some (if delivery = j then found.decide decision else found) = some found
      split
      · rename_i hd
        subst hd
        unfold decisionOf at h
        rw [hj] at h
        obtain ⟨x, hx⟩ := Option.isSome_iff_exists.mp h
        change found.decision = some x at hx
        unfold Delivery.decide
        rw [hx, Option.some_or, ← hx]
      · rfl
  unfold decide
  rw [hdeliveries]

@[simp] theorem checkpointOf_complete (failed : Bool) :
    (exchange.complete delivery failed).checkpointOf d = exchange.checkpointOf d := by
  unfold checkpointOf complete
  apply bind_modify
  intro _
  rfl

@[simp] theorem decisionOf_complete (failed : Bool) :
    (exchange.complete delivery failed).decisionOf d = exchange.decisionOf d := by
  unfold decisionOf complete
  apply bind_modify
  intro _
  rfl

theorem settledOf_complete (failed : Bool) :
    (exchange.complete delivery failed).settledOf d =
      if d = delivery then
        (exchange.checkpointOf d).bind fun _ => (exchange.settledOf d).or (some failed)
      else exchange.settledOf d := by
  have h : (exchange.complete delivery failed).settledOf d = _ := bind_modify_of _ _ _ _ _
  rw [h]
  unfold settledOf checkpointOf
  split
  · cases exchange.deliveries[d]? <;> rfl
  · rfl

/-- What an installed delivery adds. -/
theorem of_install {exchange exchange' : DeliveryExchange} {delivery : Delivery}
    (h : exchange.install delivery = .ok exchange') :
    exchange'.outstanding = some exchange.deliveries.length ∧
      exchange'.deliveries = exchange.deliveries ++ [delivery] := by
  unfold install at h
  split at h
  · cases h
  · cases h
    exact ⟨rfl, rfl⟩

theorem lookup_fresh {β : Type} (exchange : DeliveryExchange) (g : Delivery → Option β) :
    exchange.deliveries[exchange.deliveries.length]?.bind g = none := by
  rw [List.getElem?_eq_none le_rfl]
  rfl

theorem lookup_install {β : Type} {exchange exchange' : DeliveryExchange} {delivery : Delivery}
    (h : exchange.install delivery = .ok exchange') (g : Delivery → Option β) (d : Nat) :
    exchange'.deliveries[d]?.bind g =
      if d = exchange.deliveries.length then g delivery else exchange.deliveries[d]?.bind g := by
  rw [(of_install h).2, bind_append_singleton]

/-- An installed delivery says nothing where it has no value. -/
theorem lookup_install_none {β : Type} {exchange exchange' : DeliveryExchange}
    {delivery : Delivery} (h : exchange.install delivery = .ok exchange')
    (g : Delivery → Option β) (hnone : g delivery = none) (d : Nat) :
    exchange'.deliveries[d]?.bind g = exchange.deliveries[d]?.bind g := by
  rw [lookup_install h]
  split
  · rename_i hd
    rw [hd, lookup_fresh, hnone]
  · rfl

/-- What `ack` decides was outstanding and undecided. -/
theorem of_ack {exchange exchange' : DeliveryExchange} {delivery : Nat}
    (h : exchange.ack = .ok (delivery, exchange')) :
    exchange.outstanding = some delivery ∧ exchange.decisionOf delivery = none ∧
      exchange' = exchange.decide delivery .ack := by
  unfold ack at h
  split at h
  · cases h
  · split at h
    · cases h
    · rename_i hout hnone
      cases h
      exact ⟨hout, by simpa using hnone, rfl⟩

end DeliveryExchange

/-! ## The invariant -/

/-- What the futures and the store say about what was observed. -/
structure Ledger (initial : Checkpoint) (past : List Event) (current : Checkpoint)
    (exchange : DeliveryExchange) (acks : List Nat) : Prop where
  current : current = writtenLast initial past
  installed : ∀ d checkpoint,
    .installed d checkpoint ∈ past ↔ exchange.checkpointOf d = some checkpoint
  decided : ∀ d decision, .decided d decision ∈ past ↔ exchange.decisionOf d = some decision
  settled : ∀ d failed,
    (∃ current, .settled d failed current ∈ past) ↔ exchange.settledOf d = some failed
  committed : ∀ d current, .settled d false current ∈ past →
    exchange.decisionOf d = some .ack → exchange.checkpointOf d = some current
  acks : ∀ d ∈ acks, exchange.decisionOf d = some .ack

/-- The delivery the engine thread is busy with. -/
def Engine.delivery? : Engine → Option Nat
  | .idle | .prepared _ => none
  | .awaiting delivery _ | .acknowledged delivery _ | .processing delivery _
  | .disarming delivery _ _ | .releasing delivery _ | .completing delivery _ => some delivery

/-- The delivery is installed and not settled. -/
def DeliveryExchange.Open (exchange : DeliveryExchange) (delivery : Nat) : Prop :=
  (exchange.checkpointOf delivery).isSome ∧ exchange.settledOf delivery = none

namespace State

/-- The outstanding delivery carries the prepared checkpoint. -/
def Offers (s : State) (delivery : Nat) (prepared : PreparedCheckpoint) : Prop :=
  s.exchange.outstanding = some delivery ∧
    s.exchange.checkpointOf delivery = some prepared.checkpoint ∧
    s.exchange.settledOf delivery = none

/-- A delivery that ends without failure was decided, and after an ACK its checkpoint is
current. -/
def Committed (s : State) (delivery : Nat) (failed : Bool) : Prop :=
  failed = false → (s.exchange.decisionOf delivery).isSome ∧
    (s.exchange.decisionOf delivery = some .ack →
      s.exchange.checkpointOf delivery = some s.offsets.current)

/-- What holds where the engine thread stands. A commit is expected only between `arm` and
`disarm`, and it is the one of the acknowledged delivery. -/
def Stands (past : List Event) (s : State) : Prop :=
  match s.engine with
  | .idle | .prepared _ => s.offsets.expectedCommit = none ∧ s.exchange.outstanding = none
  | .awaiting delivery prepared =>
    s.offsets.expectedCommit = none ∧ s.Offers delivery prepared
  | .acknowledged delivery prepared =>
    s.offsets.expectedCommit = none ∧ s.Offers delivery prepared ∧
      s.exchange.decisionOf delivery = some .ack
  | .processing delivery prepared =>
    s.Offers delivery prepared ∧ s.exchange.decisionOf delivery = some .ack ∧
      armedIn past = some delivery ∧ ∀ expected ∈ s.offsets.expectedCommit, expected = prepared
  | .disarming delivery prepared failed =>
    s.Offers delivery prepared ∧ (∀ expected ∈ s.offsets.expectedCommit, expected = prepared ∧
      failed = true ∧ s.exchange.decisionOf delivery = some .ack ∧ armedIn past = some delivery) ∧
      s.Committed delivery failed
  | .releasing delivery failed =>
    s.offsets.expectedCommit = none ∧ s.exchange.outstanding = some delivery ∧
      s.exchange.Open delivery ∧ s.Committed delivery failed
  | .completing delivery failed =>
    s.offsets.expectedCommit = none ∧ s.exchange.outstanding = none ∧
      s.exchange.Open delivery ∧ s.Committed delivery failed

structure Inv (initial : Checkpoint) (past : List Event) (s : State) : Prop where
  ledger : Ledger initial past s.offsets.current s.exchange s.acks
  busy : ∀ d, s.exchange.Open d → s.engine.delivery? = some d
  stands : s.Stands past

/-- What is outstanding is the open delivery the engine thread is busy with. -/
theorem Stands.open_of_outstanding {past : List Event} {s : State} (h : s.Stands past) {d : Nat}
    (hout : s.exchange.outstanding = some d) : s.exchange.Open d := by
  have hoffer : ∀ {delivery prepared}, s.Offers delivery prepared → s.exchange.Open d := by
    rintro delivery prepared ⟨hsome, hcheckpoint, hsettled⟩
    obtain rfl := Option.some.inj (hsome.symm.trans hout)
    exact ⟨by rw [hcheckpoint]; rfl, hsettled⟩
  unfold Stands at h
  split at h
  · rw [h.2] at hout; cases hout
  · rw [h.2] at hout; cases hout
  · exact hoffer h.2
  · exact hoffer h.2.1
  · exact hoffer h.1
  · exact hoffer h.1
  · obtain rfl := Option.some.inj (h.2.1.symm.trans hout)
    exact h.2.2.1
  · rw [h.2.1] at hout; cases hout

/-- An expected commit is that of the delivery that is armed and acknowledged. -/
theorem Stands.of_expected {past : List Event} {s : State} (h : s.Stands past)
    {expected : PreparedCheckpoint} (hexpected : s.offsets.expectedCommit = some expected) :
    ∃ d, armedIn past = some d ∧ s.exchange.decisionOf d = some .ack ∧
      s.exchange.checkpointOf d = some expected.checkpoint := by
  unfold Stands at h
  split at h
  · rw [h.1] at hexpected; cases hexpected
  · rw [h.1] at hexpected; cases hexpected
  · rw [h.1] at hexpected; cases hexpected
  · rw [h.1] at hexpected; cases hexpected
  · rename_i d prepared _
    obtain ⟨⟨-, hcheckpoint, -⟩, hack, harmed, hsame⟩ := h
    obtain rfl := hsame _ hexpected
    exact ⟨d, harmed, hack, hcheckpoint⟩
  · rename_i d prepared _ _
    obtain ⟨⟨-, hcheckpoint, -⟩, hsame, -⟩ := h
    obtain ⟨rfl, -, hack, harmed⟩ := hsame _ hexpected
    exact ⟨d, harmed, hack, hcheckpoint⟩
  · rw [h.1] at hexpected; cases hexpected
  · rw [h.1] at hexpected; cases hexpected

end State

/-! ## What is observed -/

/-- An observation the ledger does not read. -/
def Event.Silent : Event → Prop
  | .polled _ | .armed _ | .disarmed _ | .acked _ _ => True
  | _ => False

theorem Ledger.silent {initial : Checkpoint} {past : List Event} {current : Checkpoint}
    {exchange : DeliveryExchange} {acks : List Nat} {event : Event} (hsilent : event.Silent)
    (h : Ledger initial past current exchange acks) :
    Ledger initial (event :: past) current exchange acks := by
  cases event <;> first | exact hsilent.elim | skip
  all_goals
    exact ⟨h.current, by simpa using h.installed, by simpa using h.decided,
      by simpa using h.settled, by simpa using h.committed, h.acks⟩

namespace Ledger

variable {initial : Checkpoint} {past : List Event} {current : Checkpoint}
  {exchange : DeliveryExchange} {acks : List Nat}

theorem write (checkpoint : Checkpoint) (h : Ledger initial past current exchange acks) :
    Ledger initial (.written checkpoint :: past) checkpoint exchange acks :=
  ⟨rfl, by simpa using h.installed, by simpa using h.decided, by simpa using h.settled,
    by simpa using h.committed, h.acks⟩

theorem install (h : Ledger initial past current exchange acks) {exchange' : DeliveryExchange}
    {delivery : Delivery} (hinstall : exchange.install delivery = .ok exchange')
    (hdecision : delivery.decision = none) (hsettled : delivery.settled = none) :
    Ledger initial (.installed exchange.deliveries.length delivery.checkpoint :: past) current
      exchange' acks := by
  have hfresh : exchange.checkpointOf exchange.deliveries.length = none :=
    DeliveryExchange.lookup_fresh _ _
  have hdecisions : ∀ d, exchange'.decisionOf d = exchange.decisionOf d :=
    DeliveryExchange.lookup_install_none hinstall _ hdecision
  have hsettlements : ∀ d, exchange'.settledOf d = exchange.settledOf d :=
    DeliveryExchange.lookup_install_none hinstall _ hsettled
  have hcheckpoints : ∀ d, exchange'.checkpointOf d =
      if d = exchange.deliveries.length then some delivery.checkpoint
      else exchange.checkpointOf d := DeliveryExchange.lookup_install hinstall _
  refine ⟨h.current, ?_, ?_, ?_, ?_, ?_⟩
  · intro d checkpoint
    rw [hcheckpoints]
    by_cases hd : d = exchange.deliveries.length
    · subst hd
      have hpast : .installed exchange.deliveries.length checkpoint ∉ past := by
        rw [h.installed, hfresh]
        exact nofun
      simp [hpast, eq_comm]
    · simpa [hd] using h.installed d checkpoint
  · simpa [hdecisions] using h.decided
  · simpa [hsettlements] using h.settled
  · intro d k hpast hack
    have hcommitted := h.committed d k (by simpa using hpast) (by rwa [← hdecisions])
    have hd : d ≠ exchange.deliveries.length := by
      rintro rfl
      rw [hfresh] at hcommitted
      cases hcommitted
    rwa [hcheckpoints, if_neg hd]
  · simpa [hdecisions] using h.acks

/-- Deciding an open delivery that is not decided. -/
theorem decide (h : Ledger initial past current exchange acks) {delivery : Nat}
    (hopen : exchange.Open delivery) (hnone : exchange.decisionOf delivery = none)
    (decision : Decision) :
    Ledger initial (.decided delivery decision :: past) current
      (exchange.decide delivery decision) acks := by
  obtain ⟨checkpoint, hcheckpoint⟩ := Option.isSome_iff_exists.mp hopen.1
  have hdecided : ∀ d, (exchange.decide delivery decision).decisionOf d =
      if d = delivery then some decision else exchange.decisionOf d := by
    intro d
    rw [DeliveryExchange.decisionOf_decide]
    by_cases hd : d = delivery
    · subst hd
      rw [if_pos rfl, if_pos rfl, hcheckpoint, hnone]
      rfl
    · rw [if_neg hd, if_neg hd]
  refine ⟨h.current, by simpa using h.installed, ?_, by simpa using h.settled, ?_, ?_⟩
  · intro d x
    rw [hdecided]
    by_cases hd : d = delivery
    · subst hd
      have hpast : .decided d x ∉ past := by
        rw [h.decided, hnone]
        exact nofun
      simp [hpast, eq_comm]
    · simpa [hd] using h.decided d x
  · intro d k hsettled hack
    have hpast : .settled d false k ∈ past := by simpa using hsettled
    rw [DeliveryExchange.checkpointOf_decide]
    refine h.committed d k hpast ?_
    have hsome := (h.settled d false).mp ⟨k, hpast⟩
    have hd : d ≠ delivery := by
      rintro rfl
      rw [hopen.2] at hsome
      cases hsome
    rwa [hdecided, if_neg hd] at hack
  · intro d hd
    have hack := h.acks d hd
    have hne : d ≠ delivery := by
      rintro rfl
      rw [hnone] at hack
      cases hack
    rwa [hdecided, if_neg hne]

theorem complete (h : Ledger initial past current exchange acks) {delivery : Nat}
    (hopen : exchange.Open delivery) {failed : Bool}
    (hcommitted : failed = false → exchange.decisionOf delivery = some .ack →
      exchange.checkpointOf delivery = some current) :
    Ledger initial (.settled delivery failed current :: past) current
      (exchange.complete delivery failed) acks := by
  obtain ⟨checkpoint, hcheckpoint⟩ := Option.isSome_iff_exists.mp hopen.1
  refine ⟨h.current, by simpa using h.installed, by simpa using h.decided, ?_, ?_,
    by simpa using h.acks⟩
  · intro d f
    rw [DeliveryExchange.settledOf_complete]
    by_cases hd : d = delivery
    · subst hd
      have hpast : ∀ k, .settled d f k ∉ past := by
        intro k hk
        have hsome := (h.settled d f).mp ⟨k, hk⟩
        rw [hopen.2] at hsome
        cases hsome
      simp [hpast, hcheckpoint, hopen.2, eq_comm]
    · simpa [hd] using h.settled d f
  · intro d k hsettled hack
    rw [DeliveryExchange.checkpointOf_complete]
    rw [DeliveryExchange.decisionOf_complete] at hack
    rcases List.mem_cons.mp hsettled with heq | hpast
    · cases heq
      exact hcommitted rfl hack
    · exact h.committed d k hpast hack

end Ledger

/-- The deliveries that are installed and not settled are the open ones. -/
theorem Ledger.outstanding_iff {initial : Checkpoint} {past : List Event} {current : Checkpoint}
    {exchange : DeliveryExchange} {acks : List Nat}
    (h : Ledger initial past current exchange acks) (d : Nat) :
    Outstanding past d ↔ exchange.Open d := by
  unfold Outstanding DeliveryExchange.Open
  rw [Option.isSome_iff_exists]
  refine and_congr (exists_congr fun c => h.installed d c) ?_
  constructor
  · intro hnever
    cases hsettled : exchange.settledOf d with
    | none => rfl
    | some failed =>
      obtain ⟨k, hk⟩ := (h.settled d failed).mpr hsettled
      exact absurd hk (hnever failed k)
  · intro hnone failed k hk
    have hsome := (h.settled d failed).mp ⟨k, hk⟩
    rw [hnone] at hsome
    cases hsome

/-! ## One step -/

/-- What may be observed after a past. -/
def Permitted (initial : Checkpoint) (past : List Event) : Event → Prop
  | .installed _ _ => ∀ d, ¬ Outstanding past d
  | .decided d _ => ∀ decision, .decided d decision ∉ past
  | .written checkpoint => ∃ d, armedIn past = some d ∧ .installed d checkpoint ∈ past ∧
      .decided d .ack ∈ past
  | .settled _ _ current => current = writtenLast initial past
  | .acked d (.returned true) => ∃ checkpoint, .installed d checkpoint ∈ past ∧
      .decided d .ack ∈ past ∧ .settled d false checkpoint ∈ past
  | _ => True

/-- A step keeps the invariant and observes at most one event, which is permitted. -/
structure Sound (initial : Checkpoint) (past : List Event) (result : State × List Event) : Prop
    where
  single : result.2.length ≤ 1
  permitted : ∀ event ∈ result.2, Permitted initial past event
  inv : State.Inv initial (result.2 ++ past) result.1

namespace Sound

variable {initial : Checkpoint} {past : List Event}

theorem quiet {t : State} (h : State.Inv initial past t) : Sound initial past (t, []) :=
  ⟨Nat.zero_le _, nofun, h⟩

theorem observes {t : State} {event : Event} (hp : Permitted initial past event)
    (h : State.Inv initial (event :: past) t) : Sound initial past (t, [event]) :=
  ⟨le_rfl, by simpa using hp, h⟩

end Sound

theorem ok_of_toOption {α : Type} {x : Except String α} {a : α} (h : x.toOption = some a) :
    x = .ok a := by
  cases x with
  | error _ => cases h
  | ok _ => exact congrArg _ (Option.some.inj h)

theorem Entry.of_attach {entry entry' : Entry} (h : entry.attach = .ok entry') :
    entry' = { entry with attached := true } := by
  unfold Entry.attach at h
  split at h
  · cases h
  · cases h
    rfl

theorem Entry.of_start {entry entry' : Entry} (h : entry.start = .ok entry') :
    entry' = { entry with started := true } := by
  unfold Entry.start at h
  split at h
  · cases h
  · cases h
    rfl

theorem Entry.of_applyActual {entry entry' : Entry} {values : Delta}
    (h : entry.applyActual values = .ok entry') :
    ∃ expected, entry.expectedCommit = some expected ∧
      entry' = { entry with current := expected.checkpoint, expectedCommit := none } := by
  unfold Entry.applyActual at h
  cases hstarted : entry.requireStarted with
  | error message =>
    rw [hstarted] at h
    cases h
  | ok _ =>
    rw [hstarted] at h
    cases hexpected : entry.expectedCommit with
    | none =>
      rw [hexpected] at h
      cases h
    | some expected =>
      rw [hexpected] at h
      change (if _ then _ else _) = _ at h
      split at h
      · cases h
      · cases h
        exact ⟨expected, rfl, rfl⟩

theorem Entry.of_arm {entry entry' : Entry} {prepared : PreparedCheckpoint}
    (h : entry.arm prepared = .ok entry') :
    entry' = { entry with expectedCommit := some prepared } := by
  unfold Entry.arm at h
  cases hstarted : entry.requireStarted with
  | error message =>
    rw [hstarted] at h
    cases h
  | ok _ =>
    rw [hstarted] at h
    change (if _ then _ else _) = _ at h
    split at h
    · cases h
    · split at h
      · cases h
      · cases h
        rfl

theorem Entry.of_requireCommitted {entry : Entry} {prepared : PreparedCheckpoint}
    (h : (entry.requireCommitted prepared).isOk) :
    entry.expectedCommit = none ∧ entry.current = prepared.checkpoint := by
  unfold Entry.requireCommitted at h
  split at h
  · cases h
  · split at h
    · cases h
    · rename_i hnone hcurrent
      exact ⟨by simpa using hnone, not_not.mp hcurrent⟩

namespace State

variable {initial : Checkpoint} {past : List Event} {s : State}

/-- The store's flags matter to nothing. -/
theorem Inv.offsets (h : s.Inv initial past) {offsets : Entry}
    (hcurrent : offsets.current = s.offsets.current)
    (hexpected : offsets.expectedCommit = s.offsets.expectedCommit) :
    Inv initial past { s with offsets } := by
  refine ⟨by rw [hcurrent]; exact h.ledger, h.busy, ?_⟩
  have hstands := h.stands
  unfold Stands Committed at hstands ⊢
  simp only [hcurrent, hexpected]
  exact hstands

/-- Debezium writes the offsets it was expected to write. -/
theorem sound_applyActual (h : s.Inv initial past) {values : Delta} {offsets : Entry}
    (hok : s.offsets.applyActual values = .ok offsets) :
    Sound initial past ({ s with offsets }, [.written offsets.current]) := by
  obtain ⟨expected, hexpected, rfl⟩ := Entry.of_applyActual hok
  obtain ⟨d, harmed, hack, hcheckpoint⟩ := h.stands.of_expected hexpected
  refine Sound.observes ?_ ⟨h.ledger.write _, h.busy, ?_⟩
  · exact ⟨d, harmed, (h.ledger.installed _ _).mpr hcheckpoint, (h.ledger.decided _ _).mpr hack⟩
  · have hstands := h.stands
    unfold Stands at hstands ⊢
    rw [hexpected] at hstands
    cases hengine : s.engine with
    | processing delivery prepared =>
      rw [hengine] at hstands
      exact ⟨hstands.1, hstands.2.1, hstands.2.2.1, nofun⟩
    | disarming delivery prepared failed =>
      rw [hengine] at hstands
      obtain ⟨rfl, rfl, -⟩ := hstands.2.1 _ rfl
      exact ⟨hstands.1, nofun, nofun⟩
    | _ =>
      rw [hengine] at hstands
      exact nomatch hstands.1

/-- What the invariant says once the engine thread's place is known. -/
theorem Inv.stands_at (h : s.Inv initial past) {engine : Engine} (hengine : s.engine = engine) :
    Stands past { s with engine } := by
  subst hengine
  exact h.stands

/-- The engine thread moves on quietly, busy with the same delivery. -/
theorem Inv.move (h : s.Inv initial past) {engine engine' : Engine} (hengine : s.engine = engine)
    (hdelivery : engine.delivery? = engine'.delivery?)
    (hstands : Stands past { s with engine := engine' }) :
    Sound initial past ({ s with engine := engine' }, []) := by
  refine Sound.quiet ⟨h.ledger, ?_, hstands⟩
  intro d hd
  rw [← h.busy d hd, hengine]
  exact hdelivery.symm

theorem sound_preview (h : s.Inv initial past) (hengine : s.engine = .idle)
    (prepared : PreparedCheckpoint) :
    Sound initial past ({ s with engine := .prepared prepared, next := s.next + 1 }, []) := by
  refine Sound.quiet ⟨h.ledger, ?_, h.stands_at hengine⟩
  intro d hd
  have hbusy := h.busy d hd
  rw [hengine] at hbusy
  exact hbusy

/-- A delivery is installed while none is open, and nothing is expected of the store. -/
theorem sound_install (h : s.Inv initial past) {prepared : PreparedCheckpoint}
    (hengine : s.engine = .prepared prepared) : Sound initial past (s.install prepared) := by
  have hnone : ∀ d, ¬ s.exchange.Open d := by
    intro d hd
    have hbusy := h.busy d hd
    rw [hengine] at hbusy
    cases hbusy
  have hstands := h.stands_at hengine
  have hthrows : Sound initial past ({ s with engine := .idle }, []) := h.move hengine rfl hstands
  unfold install
  split
  · exact hthrows
  · rename_i encoded hencoded
    split
    · exact hthrows
    · rename_i exchange hinstall
      have hcheckpoint : ∀ d, exchange.checkpointOf d = if d = s.exchange.deliveries.length then
          some prepared.checkpoint else s.exchange.checkpointOf d :=
        DeliveryExchange.lookup_install hinstall _
      have hsettled : ∀ d, exchange.settledOf d = s.exchange.settledOf d :=
        DeliveryExchange.lookup_install_none hinstall _ rfl
      refine Sound.observes ?_ ⟨h.ledger.install hinstall rfl rfl, ?_, ?_⟩
      · intro d hd
        exact hnone d ((h.ledger.outstanding_iff d).mp hd)
      · intro d hd
        have hlast : d = s.exchange.deliveries.length := by
          by_contra hne
          refine hnone d ⟨?_, by rw [← hsettled]; exact hd.2⟩
          have hopen := hd.1
          rwa [hcheckpoint, if_neg hne] at hopen
        rw [hlast]
        rfl
      · refine ⟨hstands.1, (DeliveryExchange.of_install hinstall).1, ?_, ?_⟩
        · exact (hcheckpoint _).trans (if_pos rfl)
        · exact (hsettled _).trans (DeliveryExchange.lookup_fresh _ _)

theorem sound_awaitDecision (h : s.Inv initial past) {d : Nat} {prepared : PreparedCheckpoint}
    (hengine : s.engine = .awaiting d prepared) {result : State × List Event}
    (hstep : s.step .awaitDecision = some result) : Sound initial past result := by
  obtain ⟨hnone, hoffers⟩ := h.stands_at hengine
  simp only [step, hengine] at hstep
  split at hstep
  · cases hstep
  · rename_i habort
    cases hstep
    refine h.move hengine rfl ⟨hoffers, ?_, ?_⟩
    · intro expected hexpected
      rw [hnone] at hexpected
      cases hexpected
    · intro _
      refine ⟨by rw [habort]; rfl, ?_⟩
      intro hack
      rw [habort] at hack
      cases hack
  · rename_i hack
    cases hstep
    exact h.move hengine rfl ⟨hnone, hoffers, hack⟩

/-- The engine thread leaves the delivery with a failure before arming it. -/
theorem sound_fails (h : s.Inv initial past) {engine : Engine} {d : Nat}
    {prepared : PreparedCheckpoint} (hengine : s.engine = engine)
    (hdelivery : engine.delivery? = some d) (hnone : s.offsets.expectedCommit = none)
    (hoffers : s.Offers d prepared) :
    Sound initial past ({ s with engine := .disarming d prepared true }, []) := by
  refine h.move hengine hdelivery ⟨hoffers, ?_, nofun⟩
  intro expected hexpected
  rw [hnone] at hexpected
  cases hexpected

theorem sound_arm (h : s.Inv initial past) {d : Nat} {prepared : PreparedCheckpoint}
    (hengine : s.engine = .acknowledged d prepared) : Sound initial past (s.arm d prepared) := by
  obtain ⟨hnone, hoffers, hack⟩ := h.stands_at hengine
  unfold arm
  split
  · exact sound_fails h hengine rfl hnone hoffers
  · rename_i offsets harm
    obtain rfl := Entry.of_arm harm
    refine Sound.observes trivial ⟨h.ledger.silent trivial, ?_, hoffers, hack, rfl, ?_⟩
    · intro d' hd'
      rw [← h.busy d' hd', hengine]
      rfl
    · intro expected hexpected
      exact (Option.some.inj hexpected).symm

theorem sound_markThrows (h : s.Inv initial past) {d : Nat} {prepared : PreparedCheckpoint}
    (hengine : s.engine = .processing d prepared) :
    Sound initial past ({ s with engine := .disarming d prepared true }, []) := by
  obtain ⟨hoffers, hack, harmed, hsame⟩ := h.stands_at hengine
  refine h.move hengine rfl ⟨hoffers, ?_, nofun⟩
  intro expected hexpected
  exact ⟨hsame expected hexpected, rfl, hack, harmed⟩

theorem sound_requireCommitted (h : s.Inv initial past) {d : Nat} {prepared : PreparedCheckpoint}
    (hengine : s.engine = .processing d prepared) :
    Sound initial past ({ s with
      engine := .disarming d prepared (!(s.offsets.requireCommitted prepared).isOk) }, []) := by
  cases hok : (s.offsets.requireCommitted prepared).isOk with
  | false => exact sound_markThrows h hengine
  | true =>
    obtain ⟨hoffers, hack, -, -⟩ := h.stands_at hengine
    obtain ⟨hnone, hcurrent⟩ := Entry.of_requireCommitted hok
    refine h.move hengine rfl ⟨hoffers, ?_, ?_⟩
    · intro expected hexpected
      rw [hnone] at hexpected
      cases hexpected
    · intro _
      refine ⟨by rw [hack]; rfl, ?_⟩
      intro _
      rw [hcurrent]
      exact hoffers.2.1

/-- Disarming takes back the commit that was expected, if it is still expected. -/
theorem sound_disarm (h : s.Inv initial past) {d : Nat} {prepared : PreparedCheckpoint}
    {failed : Bool} (hengine : s.engine = .disarming d prepared failed) :
    Sound initial past ({ s with
      offsets := s.offsets.disarm prepared, engine := .releasing d failed }, [.disarmed d]) := by
  obtain ⟨⟨hout, hcheckpoint, hsettled⟩, hsame, hcommitted⟩ := h.stands_at hengine
  have hcurrent : (s.offsets.disarm prepared).current = s.offsets.current := by
    unfold Entry.disarm
    split <;> rfl
  have hnone : (s.offsets.disarm prepared).expectedCommit = none := by
    unfold Entry.disarm
    split
    · rfl
    · rename_i hother
      cases hexpected : s.offsets.expectedCommit with
      | none => rfl
      | some expected =>
        obtain ⟨rfl, -⟩ := hsame expected hexpected
        rw [hexpected] at hother
        exact absurd rfl hother
  refine Sound.observes trivial ⟨?_, ?_, hnone, hout, ⟨?_, hsettled⟩, ?_⟩
  · rw [hcurrent]
    exact h.ledger.silent trivial
  · intro d' hd'
    rw [← h.busy d' hd', hengine]
    rfl
  · rw [hcheckpoint]
    rfl
  · unfold Committed
    rw [hcurrent]
    exact hcommitted

theorem sound_release (h : s.Inv initial past) {d : Nat} {failed : Bool}
    (hengine : s.engine = .releasing d failed) :
    Sound initial past ({ s with
      exchange := s.exchange.release d, engine := .completing d failed }, []) := by
  obtain ⟨hnone, hout, hopen, hcommitted⟩ := h.stands_at hengine
  have hrelease : s.exchange.release d = { s.exchange with outstanding := none } := if_pos hout
  rw [hrelease]
  refine Sound.quiet ⟨⟨h.ledger.current, h.ledger.installed, h.ledger.decided, h.ledger.settled,
    h.ledger.committed, h.ledger.acks⟩, ?_, hnone, rfl, hopen, hcommitted⟩
  intro d' hd'
  rw [← h.busy d' hd', hengine]
  rfl

theorem sound_complete (h : s.Inv initial past) {d : Nat} {failed : Bool}
    (hengine : s.engine = .completing d failed) :
    Sound initial past ({ s with exchange := s.exchange.complete d failed, engine := .idle },
      [.settled d failed s.offsets.current]) := by
  obtain ⟨hnone, hout, hopen, hcommitted⟩ := h.stands_at hengine
  have hledger := h.ledger.complete hopen fun hok => (hcommitted hok).2
  refine Sound.observes h.ledger.current ⟨hledger, ?_, hnone, hout⟩
  rintro d' ⟨hcheckpoint, hsettled⟩
  rw [DeliveryExchange.checkpointOf_complete] at hcheckpoint
  rw [DeliveryExchange.settledOf_complete] at hsettled
  have hd : d' ≠ d := by
    rintro rfl
    obtain ⟨checkpoint, hsome⟩ := Option.isSome_iff_exists.mp hopen.1
    rw [if_pos rfl, hsome, hopen.2] at hsettled
    cases hsettled
  rw [if_neg hd] at hsettled
  have hbusy := h.busy d' ⟨hcheckpoint, hsettled⟩
  rw [hengine] at hbusy
  exact absurd (Option.some.inj hbusy).symm hd

/-- A decision of an undecided delivery moves nothing else. -/
theorem Inv.decide (h : s.Inv initial past) {d : Nat} (hopen : s.exchange.Open d)
    (hnone : s.exchange.decisionOf d = none) (decision : Decision) :
    Inv initial (.decided d decision :: past)
      { s with exchange := s.exchange.decide d decision } := by
  have hledger := h.ledger.decide hopen hnone decision
  have hkept : ∀ d' x, s.exchange.decisionOf d' = some x →
      (s.exchange.decide d decision).decisionOf d' = some x := by
    intro d' x hx
    rw [← hledger.decided]
    exact List.mem_cons_of_mem _ ((h.ledger.decided d' x).mpr hx)
  have hoffers : ∀ {d' prepared}, s.Offers d' prepared →
      Offers { s with exchange := s.exchange.decide d decision } d' prepared := by
    rintro d' prepared ⟨hout, hcheckpoint, hsettled⟩
    exact ⟨hout, by simpa using hcheckpoint, by simpa using hsettled⟩
  have hopens : ∀ d', (s.exchange.decide d decision).Open d' ↔ s.exchange.Open d' := by
    intro d'
    unfold DeliveryExchange.Open
    rw [DeliveryExchange.checkpointOf_decide, DeliveryExchange.settledOf_decide]
  -- A delivery that ends without failure is decided already, so this is another decision.
  have hcommitted : ∀ {d' failed}, s.Committed d' failed →
      Committed { s with exchange := s.exchange.decide d decision } d' failed := by
    intro d' failed hcommitted hok
    obtain ⟨hsome, hack⟩ := hcommitted hok
    obtain ⟨x, hx⟩ := Option.isSome_iff_exists.mp hsome
    refine ⟨by rw [hkept d' x hx]; rfl, ?_⟩
    intro hack'
    rw [hkept d' x hx] at hack'
    simpa using hack (hx.trans hack')
  refine ⟨hledger, fun d' hd' => h.busy d' ((hopens d').mp hd'), ?_⟩
  have hstands := h.stands
  unfold Stands at hstands ⊢
  cases hengine : s.engine <;> rw [hengine] at hstands
  case idle => exact hstands
  case prepared => exact hstands
  case awaiting => exact ⟨hstands.1, hoffers hstands.2⟩
  case acknowledged => exact ⟨hstands.1, hoffers hstands.2.1, hkept _ _ hstands.2.2⟩
  case processing => exact ⟨hoffers hstands.1, hkept _ _ hstands.2.1, hstands.2.2⟩
  case disarming =>
    refine ⟨hoffers hstands.1, ?_, hcommitted hstands.2.2⟩
    intro expected hexpected
    obtain ⟨hsame, hfailed, hack, harmed⟩ := hstands.2.1 expected hexpected
    exact ⟨hsame, hfailed, hkept _ _ hack, harmed⟩
  case releasing =>
    exact ⟨hstands.1, hstands.2.1, (hopens _).mpr hstands.2.2.1, hcommitted hstands.2.2.2⟩
  case completing =>
    exact ⟨hstands.1, hstands.2.1, (hopens _).mpr hstands.2.2.1, hcommitted hstands.2.2.2⟩

/-- Nothing was decided yet about an undecided delivery. -/
theorem Inv.undecided (h : s.Inv initial past) {d : Nat} (hnone : s.exchange.decisionOf d = none)
    (decision : Decision) : Permitted initial past (.decided d decision) := by
  intro x hx
  rw [h.ledger.decided, hnone] at hx
  cases hx

theorem sound_ack (h : s.Inv initial past) {d : Nat} {exchange : DeliveryExchange}
    (hack : s.exchange.ack = .ok (d, exchange)) :
    Sound initial past ({ s with exchange, acks := d :: s.acks }, [.decided d .ack]) := by
  obtain ⟨hout, hnone, rfl⟩ := DeliveryExchange.of_ack hack
  have hinv := h.decide (h.stands.open_of_outstanding hout) hnone .ack
  refine Sound.observes (h.undecided hnone .ack) ⟨?_, hinv.busy, hinv.stands⟩
  refine { hinv.ledger with acks := ?_ }
  intro d' hd'
  rcases List.mem_cons.mp hd' with rfl | hd'
  · exact (hinv.ledger.decided _ _).mp List.mem_cons_self
  · exact hinv.ledger.acks d' hd'

theorem Inv.closed (h : s.Inv initial past) :
    Inv initial past { s with exchange := { s.exchange with closed := true } } :=
  ⟨⟨h.ledger.current, h.ledger.installed, h.ledger.decided, h.ledger.settled,
    h.ledger.committed, h.ledger.acks⟩, h.busy, h.stands⟩

theorem sound_close (h : s.Inv initial past) :
    Sound initial past ({ s with exchange := s.exchange.close }, closeEvents s.exchange) := by
  unfold DeliveryExchange.close closeEvents
  split
  · exact Sound.quiet h.closed
  · rename_i d hout
    split
    · rename_i hdecided
      have hclosed : (DeliveryExchange.decisionOf { s.exchange with closed := true } d).isSome :=
        hdecided
      rw [DeliveryExchange.decide_of_decided hclosed]
      exact Sound.quiet h.closed
    · rename_i hdecided
      have hnone : s.exchange.decisionOf d = none := by simpa using hdecided
      have hopen := h.stands.open_of_outstanding hout
      exact Sound.observes (h.undecided hnone .abort) (h.closed.decide hopen hnone .abort)

/-- An `ack` that comes back leaves the rest as it was. -/
theorem sound_acked (h : s.Inv initial past) {d : Nat} {result : AckResult}
    (hpermitted : Permitted initial past (.acked d result)) :
    Sound initial past ({ s with acks := s.acks.erase d }, [.acked d result]) := by
  have hledger : Ledger initial (.acked d result :: past) _ _ _ := h.ledger.silent trivial
  refine Sound.observes hpermitted ⟨?_, h.busy, h.stands⟩
  refine { hledger with acks := ?_ }
  intro d' hd'
  exact h.ledger.acks d' (List.mem_of_mem_erase hd')

/-- Every step of every party is sound. -/
theorem step_sound (h : s.Inv initial past) {action : Action} {result : State × List Event}
    (hstep : s.step action = some result) : Sound initial past result := by
  cases action with
  | attach =>
    obtain ⟨offsets, hattach, rfl⟩ := Option.map_eq_some_iff.mp hstep
    obtain rfl := Entry.of_attach (ok_of_toOption hattach)
    exact Sound.quiet (h.offsets rfl rfl)
  | start =>
    obtain ⟨offsets, hstart, rfl⟩ := Option.map_eq_some_iff.mp hstep
    obtain rfl := Entry.of_start (ok_of_toOption hstart)
    exact Sound.quiet (h.offsets rfl rfl)
  | stop =>
    cases hstep
    exact Sound.quiet (h.offsets rfl rfl)
  | applyActual values =>
    obtain ⟨offsets, happly, rfl⟩ := Option.map_eq_some_iff.mp hstep
    exact sound_applyActual h (ok_of_toOption happly)
  | preview delta =>
    simp only [step] at hstep
    split at hstep
    · obtain ⟨prepared, -, rfl⟩ := Option.map_eq_some_iff.mp hstep
      exact sound_preview h ‹_› prepared
    · cases hstep
  | install =>
    simp only [step] at hstep
    split at hstep
    · split at hstep
      · cases hstep
      · cases hstep
        exact sound_install h ‹_›
    · cases hstep
  | installThrows =>
    simp only [step] at hstep
    split at hstep
    · cases hstep
      rename_i prepared hengine
      have hstands := h.stands_at hengine
      exact h.move hengine rfl hstands
    · cases hstep
  | awaitDecision =>
    cases hengine : s.engine with
    | awaiting d prepared => exact sound_awaitDecision h hengine hstep
    | _ =>
      simp only [step, hengine] at hstep
      cases hstep
  | awaitInterrupted =>
    simp only [step] at hstep
    split at hstep
    · rename_i d prepared hengine
      cases hstep
      obtain ⟨hnone, hoffers⟩ := h.stands_at hengine
      exact sound_fails h hengine rfl hnone hoffers
    · cases hstep
  | arm =>
    simp only [step] at hstep
    split at hstep
    · cases hstep
      exact sound_arm h ‹_›
    · cases hstep
  | markThrows =>
    simp only [step] at hstep
    split at hstep
    · cases hstep
      exact sound_markThrows h ‹_›
    · cases hstep
  | requireCommitted =>
    simp only [step] at hstep
    split at hstep
    · cases hstep
      exact sound_requireCommitted h ‹_›
    · cases hstep
  | disarm =>
    simp only [step] at hstep
    split at hstep
    · cases hstep
      exact sound_disarm h ‹_›
    · cases hstep
  | release =>
    simp only [step] at hstep
    split at hstep
    · cases hstep
      exact sound_release h ‹_›
    · cases hstep
  | complete =>
    simp only [step] at hstep
    split at hstep
    · cases hstep
      exact sound_complete h ‹_›
    · cases hstep
  | poll =>
    cases hstep
    exact Sound.observes trivial ⟨h.ledger.silent trivial, h.busy, h.stands⟩
  | ack =>
    obtain ⟨⟨d, exchange⟩, hack, rfl⟩ := Option.map_eq_some_iff.mp hstep
    exact sound_ack h (ok_of_toOption hack)
  | ackReturns d =>
    simp only [step] at hstep
    split at hstep
    · obtain ⟨failed, hfailed, rfl⟩ := Option.map_eq_some_iff.mp hstep
      refine sound_acked h ?_
      cases failed with
      | true => trivial
      | false =>
        have hack := h.ledger.acks d ‹_›
        obtain ⟨current, hsettled⟩ := (h.ledger.settled d false).mpr hfailed
        have hcheckpoint := h.ledger.committed d current hsettled hack
        exact ⟨current, (h.ledger.installed d current).mpr hcheckpoint,
          (h.ledger.decided d .ack).mpr hack, hsettled⟩
    · cases hstep
  | ackTimesOut d =>
    simp only [step] at hstep
    split at hstep
    · cases hstep
      exact sound_acked h trivial
    · cases hstep
  | ackInterrupted d =>
    simp only [step] at hstep
    split at hstep
    · cases hstep
      exact sound_acked h trivial
    · cases hstep
  | close =>
    cases hstep
    exact sound_close h

end State

/-! ## Whole runs -/

variable {initial : Checkpoint} {past : List Event} {s : State}

theorem Run.inv (h : Run initial past s) : s.Inv initial past := by
  induction h with
  | created =>
    refine ⟨⟨rfl, ?_, ?_, ?_, nofun, nofun⟩, ?_, rfl, rfl⟩
    · intro d checkpoint
      exact ⟨nofun, nofun⟩
    · intro d decision
      exact ⟨nofun, nofun⟩
    · intro d failed
      exact ⟨nofun, nofun⟩
    · rintro d ⟨hsome, -⟩
      cases hsome
  | step action _ hstep ih => exact (State.step_sound ih hstep).inv

/-- Every moment of a run observed what was permitted then. -/
theorem Run.permitted (h : Run initial past s) {event : Event} {before : List Event}
    (hsuffix : event :: before <:+ past) : Permitted initial before event := by
  induction h with
  | created => cases List.eq_nil_of_suffix_nil hsuffix
  | step action hrun hstep ih =>
    have hsound := State.step_sound hrun.inv hstep
    rename_i events
    match events, hsound with
    | [], _ => exact ih hsuffix
    | [observed], hsound =>
      rcases List.suffix_cons_iff.mp hsuffix with hnow | hearlier
      · obtain ⟨rfl, rfl⟩ := List.cons.inj hnow
        exact hsound.permitted _ List.mem_cons_self
      · exact ih hearlier
    | _ :: _ :: _, hsound => exact absurd hsound.single (by simp)

/-- What an acknowledged delivery guarantees, in every run of the engine thread, the host
and the connector. `past` is what was observed in the run, the newest first; a moment of it
is a suffix.

* The store's checkpoint is the last one written. One is written only while a delivery is
  armed, it is the one that delivery carries, and the delivery is decided ACK, so that no
  delivery decided ABORT ever writes.
* `ack` returns `true` only after its delivery settled, and the store's checkpoint was the
  delivery's then.
* At most one delivery is outstanding, and each is decided at most once. -/
theorem acknowledgement_protocol (initial : Checkpoint) (past : List Event) (s : State)
    (h : Run initial past s) :
    s.offsets.current = writtenLast initial past ∧
    (∀ checkpoint before, .written checkpoint :: before <:+ past →
      ∃ d, armedIn before = some d ∧ .installed d checkpoint ∈ before ∧
        .decided d .ack ∈ before ∧ .decided d .abort ∉ past) ∧
    (∀ d before, .acked d (.returned true) :: before <:+ past →
      ∃ checkpoint earlier, .installed d checkpoint ∈ before ∧ .decided d .ack ∈ before ∧
        .settled d false checkpoint :: earlier <:+ before ∧
        writtenLast initial earlier = checkpoint) ∧
    (∀ d d', Outstanding past d → Outstanding past d' → d = d') ∧
    (∀ d decision before, .decided d decision :: before <:+ past →
      ∀ other, .decided d other ∉ before) := by
  have hledger := h.inv.ledger
  refine ⟨hledger.current, ?_, ?_, ?_, ?_⟩
  · intro checkpoint before hwritten
    obtain ⟨d, harmed, hinstalled, hack⟩ := h.permitted hwritten
    refine ⟨d, harmed, hinstalled, hack, ?_⟩
    intro habort
    have hpast := hwritten.subset (List.mem_cons_of_mem _ hack)
    rw [hledger.decided] at hpast habort
    cases hpast.symm.trans habort
  · intro d before hacked
    obtain ⟨checkpoint, hinstalled, hack, hsettled⟩ := h.permitted hacked
    obtain ⟨later, earlier, hbefore⟩ := List.append_of_mem hsettled
    have hsuffix : .settled d false checkpoint :: earlier <:+ before := ⟨later, hbefore.symm⟩
    have hpast := hsuffix.trans ((List.suffix_cons _ _).trans hacked)
    exact ⟨checkpoint, earlier, hinstalled, hack, hsuffix, (h.permitted hpast).symm⟩
  · intro d d' hd hd'
    have hbusy := h.inv.busy d ((hledger.outstanding_iff d).mp hd)
    have hbusy' := h.inv.busy d' ((hledger.outstanding_iff d').mp hd')
    exact Option.some.inj (hbusy.symm.trans hbusy')
  · intro d decision before hdecided
    exact h.permitted hdecided

/-- A checkpoint without offsets. -/
def blankCheckpoint : Checkpoint where
  engineName := ⟨['e'], by decide⟩
  connectorClass := ⟨['c'], by decide⟩
  entries := OrdMap.empty

def oneOffset : Delta := OrdMap.empty.put [1] (some [2])

/-- A batch that is delivered, acknowledged and committed. -/
theorem acknowledgement_protocol_acked : ∃ past s, Run blankCheckpoint past s ∧
    .acked 0 (.returned true) ∈ past ∧ s.offsets.current = blankCheckpoint.merge oneOffset ∧
    ∀ d d', Outstanding past d → Outstanding past d' → d = d' := by
  have hcreated : Run blankCheckpoint [] _ := Run.created
  have hinstalled := (((hcreated.step .attach rfl).step .start rfl).step
    (.preview oneOffset) rfl).step .install rfl
  have hacked := ((hinstalled.step .ack rfl).step .awaitDecision rfl).step .arm rfl
  have hwritten := (hacked.step (.applyActual oneOffset) rfl).step .requireCommitted rfl
  have hsettled := ((hwritten.step .disarm rfl).step .release rfl).step .complete rfl
  have hreturned := hsettled.step (.ackReturns 0) rfl
  refine ⟨_, _, hreturned, List.mem_cons_self, rfl, ?_⟩
  exact (acknowledgement_protocol _ _ _ hreturned).2.2.2.1

end Dogpaddle.Debezium.Java
