import Dogpaddle.Flow.Refine

/-!
# The allowance of a round

A round spends one allowance in many places, and checks it once for the worst case of the
next action. `Affords n x m`: from an allowance of at least `n`, `x` does not panic and leaves
at least `m`. So no round panics (`advance_noPanic`).

An action on the stack never ends idle: the sink that refuses a page is the only reason to
stop without progress (`advanceFrame_outcome`).
-/

namespace Dogpaddle.Flow

open Dogpaddle Lib

variable {S Q Row α β : Type}

/-- From at least `n` bytes, a computation does not panic and leaves at least `m`. -/
def Affords (n : Nat) (x : FlowM S Q Row α) (m : Nat) : Prop :=
  ∀ w, n ≤ w.remaining →
    (∀ a w', x w = .ok a w' → m ≤ w'.remaining) ∧
    ∀ e w', x w = .error e w' → e ≠ .panicked ∧ m ≤ w'.remaining

namespace Affords

variable {n m k : Nat}

theorem weaken {n' m' : Nat} {x : FlowM S Q Row α} (h : Affords n x m) (hn : n ≤ n')
    (hm : m' ≤ m) : Affords n' x m' := by
  intro w hw
  obtain ⟨hok, herror⟩ := h w (hn.trans hw)
  exact ⟨fun a w' hx => hm.trans (hok a w' hx), fun e w' hx =>
    ⟨(herror e w' hx).1, hm.trans (herror e w' hx).2⟩⟩

theorem pure (a : α) : Affords n (pure a : FlowM S Q Row α) n := by
  intro w hw
  refine ⟨fun _ _ h => ?_, fun _ _ h => (nomatch h)⟩
  cases h
  exact hw

theorem throw {e : Halt} (he : e ≠ .panicked) : Affords n (throw e : FlowM S Q Row α) n := by
  intro w hw
  refine ⟨fun _ _ h => (nomatch h), fun _ _ h => ?_⟩
  cases h
  exact ⟨he, hw⟩

theorem fail (error : OperationError) : Affords n (fail error : FlowM S Q Row α) n :=
  throw fun h => (nomatch h)

theorem bind {x : FlowM S Q Row α} {f : α → FlowM S Q Row β} (hx : Affords n x m)
    (hf : ∀ a, Affords m (f a) k) (hk : k ≤ m) : Affords n (x >>= f) k := by
  intro w hw
  obtain ⟨hok, herror⟩ := hx w hw
  cases hxw : x w with
  | ok a mid =>
    rw [bind_of_ok hxw]
    exact hf a mid (hok a mid hxw)
  | error e mid =>
    rw [bind_of_error hxw]
    refine ⟨fun _ _ h => (nomatch h), fun _ _ h => ?_⟩
    cases h
    exact ⟨(herror e mid hxw).1, hk.trans (herror e mid hxw).2⟩

/-- Reading the world: what follows may assume that it is the one read. -/
theorem get {f : World S Q Row → FlowM S Q Row β}
    (h : ∀ w, n ≤ w.remaining → Affords w.remaining (f w) m) : Affords n (get >>= f) m :=
  fun w hw => h w hw w le_rfl

theorem ite {c : Prop} [Decidable c] {x y : FlowM S Q Row α} (hx : c → Affords n x m)
    (hy : ¬ c → Affords n y m) : Affords n (if c then x else y) m := by
  by_cases h : c
  · rw [if_pos h]
    exact hx h
  · rw [if_neg h]
    exact hy h

theorem modify {f : World S Q Row → World S Q Row}
    (h : ∀ w, (f w).remaining = w.remaining) :
    Affords n (modify f : FlowM S Q Row Unit) n := by
  intro w hw
  refine ⟨fun _ _ hrun => ?_, fun _ _ hrun => (nomatch hrun)⟩
  cases hrun
  show n ≤ (f w).remaining
  rwa [h]

theorem set {w : World S Q Row} (h : n ≤ w.remaining) :
    Affords k (set w : FlowM S Q Row Unit) n := by
  intro _ _
  refine ⟨fun _ _ hrun => ?_, fun _ _ hrun => (nomatch hrun)⟩
  cases hrun
  exact h

theorem tryCatch {x : FlowM S Q Row α} {handler : Halt → FlowM S Q Row α} (hx : Affords n x m)
    (hh : ∀ e, e ≠ .panicked → Affords m (handler e) k) (hk : k ≤ m) :
    Affords n (MonadExcept.tryCatch x handler) k := by
  intro w hw
  obtain ⟨hok, herror⟩ := hx w hw
  have hrun : (MonadExcept.tryCatch x handler : FlowM S Q Row α) w =
      EStateM.tryCatch x handler w := rfl
  unfold EStateM.tryCatch at hrun
  cases hxw : x w with
  | ok a mid =>
    rw [hxw] at hrun
    rw [hrun]
    refine ⟨fun _ _ h => ?_, fun _ _ h => (nomatch h)⟩
    cases h
    exact hk.trans (hok a mid hxw)
  | error e mid =>
    rw [hxw] at hrun
    rw [hrun]
    obtain ⟨hpanic, hleft⟩ := herror e mid hxw
    exact hh e hpanic mid hleft

theorem liftError {x : Except OperationError α} {f : α → FlowM S Q Row β} (hm : m ≤ n)
    (h : ∀ a, x = .ok a → Affords n (f a) m) : Affords n (liftError x >>= f) m := by
  cases x with
  | ok a => exact h a rfl
  | error e => exact fun w hw =>
      ⟨fun _ _ h => (nomatch h), fun _ _ h => by
        cases h
        exact ⟨fun h => (nomatch h), hm.trans hw⟩⟩

end Affords

section Spending

variable {rt : Runtime S Q Row} {env : Env Q} {n : Nat}

theorem affords_spend {bytes m : Nat} (h : bytes + m ≤ n) :
    Affords n (spend bytes : FlowM S Q Row Unit) m := by
  refine .get fun w hw => ?_
  rw [if_pos (by omega)]
  exact .set (by show m ≤ w.remaining - bytes; omega)

theorem affords_commit (store : Store S Q) (e : Effect Row) :
    Affords n (commit env store e) n := by
  refine .get fun w hw => ?_
  cases env.fate w.log.length with
  | done => exact .set hw
  | failed | crashed =>
    refine Affords.bind (.set ?_) (fun _ => .fail _) le_rfl
    exact hw

theorem affords_sync : Affords n (sync env : FlowM S Q Row Unit) n := by
  refine .get fun w hw => .ite (fun _ => ?_) fun _ => (Affords.pure _).weaken le_rfl hw
  cases env.fate w.log.length with
  | done => exact .set hw
  | failed | crashed =>
    refine Affords.bind (.set ?_) (fun _ => .fail _) le_rfl
    exact hw

theorem affords_liftFenced (x : Except OperationError α) :
    Affords n (liftFenced x : FlowM S Q Row α) n := by
  cases x with
  | ok a => exact .pure a
  | error e =>
    refine Affords.bind (.modify ?_) (fun _ => .fail e) le_rfl
    exact fun _ => rfl

theorem affords_effect (e : Effect Row) : Affords n (effect e : FlowM S Q Row Unit) n :=
  .modify fun _ => rfl

/-! ## Pages -/

section Frame

variable {depth : Nat} {frame : Frame} {input : Change Row}

/-- An attempt spends at most one step. -/
theorem affords_attemptPage {exponent : Nat} {retry : OperationError → FlowM S Q Row AdvanceOutcome}
    {m : Nat} (hretry : ∀ e, Affords n (retry e) m) (hm : m ≤ n) :
    Affords (stepBytes + n) (rt.attemptPage env depth frame input exponent retry) m := by
  refine .get fun w hw => ?_
  have hspend : ∀ left : Nat,
      Affords w.remaining (spend (stepBytes - left) : FlowM S Q Row Unit) n := fun left =>
    affords_spend (by omega)
  cases rt.runPage depth frame input ⟨⟨w.store, []⟩, ⟨2 ^ exponent, stepBytes⟩⟩ with
  | ok outcome s =>
    refine (hspend _).bind (fun _ => ?_) hm
    refine Affords.bind (affords_commit _ _) (fun _ => ?_) hm
    exact (Affords.pure outcome).weaken le_rfl hm
  | error e s => exact (hspend _).bind (fun _ => hretry e) hm

/-- A retry sequence spends at most a step for each attempt. -/
theorem affords_runFrame (exponent m : Nat) :
    Affords ((exponent + 1) * stepBytes + m) (rt.runFrame env depth frame input exponent) m := by
  induction exponent with
  | zero =>
    rw [Nat.zero_add, Nat.one_mul]
    exact affords_attemptPage (fun e => .fail e) le_rfl
  | succ exponent ih =>
    rw [Nat.succ_mul, Nat.add_comm _ stepBytes, Nat.add_assoc]
    refine affords_attemptPage (fun e => .ite (fun _ => ih) fun _ => ?_) (by omega)
    exact (Affords.fail e).weaken le_rfl (by omega)

theorem output_eq_ok {store : Store S Q} {bytes : Bytes}
    (h : Runtime.output store depth = .ok bytes) :
    store.outputs.get? depth = some bytes ∧ bytes.length ≤ pageBytes := by
  unfold Runtime.output at h
  split at h
  · cases h
  · next hstored =>
    rw [except_ite_eq_ok] at h
    obtain ⟨hlength, h⟩ := h
    cases h
    exact ⟨hstored, by omega⟩

theorem published_length {store : Store S Q} {source : Nat} {item : Bytes}
    (h : Runtime.published store source = .ok (some item)) : item.length ≤ rootBytes := by
  unfold Runtime.published at h
  split at h
  · cases h
  · rw [except_ite_eq_ok] at h
    obtain ⟨hlength, h⟩ := h
    cases h
    omega

/-- The input of a frame is a page or a root's input. -/
theorem input_length {store : Store S Q} {bytes : Bytes}
    (h : rt.input store depth frame = .ok bytes) : bytes.length ≤ rootBytes := by
  cases depth with
  | succ depth => exact (output_eq_ok h).2.trans (by decide)
  | zero =>
    unfold Runtime.input at h
    dsimp only at h
    split at h
    · split at h
      · cases h
      · next item hitem =>
        cases h
        exact published_length hitem
      · cases h
    · cases h

theorem affords_sendPage {next : Nat} {after : Progress} :
    Affords n (rt.sendPage env depth frame next after) n := by
  refine .get fun w hw => .ite (fun _ => ?_) fun _ => ?_
  · cases rt.finishFrame depth frame after ⟨⟨w.store, []⟩, ⟨1, _⟩⟩ with
    | error e s => exact (Affords.fail e).weaken le_rfl hw
    | ok u s =>
      refine Affords.bind (affords_commit _ _) (fun _ => ?_) hw
      exact (Affords.pure _).weaken le_rfl hw
  · refine .liftError hw fun encoded _ => .ite (fun _ => ?_) fun _ => ?_
    · exact (Affords.fail _).weaken le_rfl hw
    · cases rt.routePage depth frame next after none encoded ⟨⟨w.store, []⟩, ⟨1, _⟩⟩ with
      | error e s => exact (Affords.fail e).weaken le_rfl hw
      | ok outcome s =>
        refine Affords.bind (affords_commit _ _) (fun _ => ?_) hw
        exact (Affords.pure _).weaken le_rfl hw

/-- An action on the top frame spends no more than was admitted for it. -/
theorem affords_advanceFrame :
    Affords (Runtime.allowance (some (depth, frame))) (rt.advanceFrame env depth frame) 0 := by
  unfold Runtime.advanceFrame Runtime.allowance
  dsimp only
  cases frame.phase with
  | send next after =>
    exact (affords_spend (m := 0) le_rfl).bind (fun _ => affords_sendPage) le_rfl
  | run resume =>
    have hread : Affords (rootBytes + 9 * stepBytes) (do
        let w ← get
        let bytes ← liftError (rt.input w.store depth frame)
        spend bytes.length
        let input ← liftError (((rt.inputCodec frame).decode bytes).mapError codecError)
        rt.runFrame env depth frame input 8) 0 := by
      refine .get fun w hw => ?_
      refine .liftError (Nat.zero_le _) fun bytes hbytes => ?_
      have hlength := input_length hbytes
      refine (affords_spend (m := 9 * stepBytes) (by omega)).bind (fun _ => ?_) (Nat.zero_le _)
      refine .liftError (Nat.zero_le _) fun input _ => ?_
      exact affords_runFrame 8 0
    show Affords (rootBytes + 9 * stepBytes + 64) _ 0
    refine .ite (fun _ => ?_) fun _ => hread.weaken (by omega) le_rfl
    refine (affords_spend (m := rootBytes + 9 * stepBytes) (by omega)).bind (fun _ => hread) ?_
    exact Nat.zero_le _

end Frame

/-- Starting a root checks its own allowance. -/
theorem affords_advanceNextRoot (tries : Nat) : Affords 0 (rt.advanceNextRoot env tries) 0 := by
  induction tries with
  | zero => exact .pure _
  | succ tries ih =>
    unfold Runtime.advanceNextRoot
    refine .get fun w _ => .ite (fun _ => (Affords.pure _).weaken le_rfl (Nat.zero_le _)) ?_
    intro hadmitted
    refine Affords.bind (.modify fun _ => rfl) (fun _ => ?_) (Nat.zero_le _)
    refine (affords_spend (m := rootBytes + 9 * stepBytes + controlBytes) (by omega)).bind
      (fun _ => ?_) (Nat.zero_le _)
    refine .liftError (Nat.zero_le _) fun front hfront => ?_
    cases front with
    | none => exact ih.weaken (Nat.zero_le _) le_rfl
    | some bytes =>
      have hlength := published_length hfront
      refine (affords_spend (m := 9 * stepBytes + controlBytes) (by omega)).bind (fun _ => ?_)
        (Nat.zero_le _)
      refine .liftError (Nat.zero_le _) fun input _ => ?_
      refine .liftError (Nat.zero_le _) fun _ _ => ?_
      refine Affords.tryCatch (m := controlBytes) (affords_runFrame 8 controlBytes)
        (fun halt hhalt => ?_) (Nat.zero_le _)
      refine .get fun w hw => .ite (fun _ => ?_) fun _ => ?_
      · refine (affords_spend (m := 0) hw).bind (fun _ => ?_) le_rfl
        split
        · exact (Affords.fail _).bind (fun _ => .throw hhalt) le_rfl
        · exact Affords.bind (affords_commit _ _) (fun _ => .throw hhalt) le_rfl
      · exact (Affords.throw hhalt).weaken le_rfl (Nat.zero_le _)

/-! ## Rounds -/

theorem affords_stackActions (actions : Nat) (outcome : AdvanceOutcome) :
    Affords 0 (rt.stackActions env actions outcome) 0 := by
  induction actions generalizing outcome with
  | zero => exact .pure _
  | succ actions ih =>
    unfold Runtime.stackActions
    refine .get fun w _ => .ite (fun _ => (Affords.pure _).weaken le_rfl (Nat.zero_le _)) ?_
    intro hadmitted
    refine (affords_spend (m := 0) (by omega)).bind (fun _ => ?_) le_rfl
    refine .get fun w _ => .get fun w' _ => .ite (fun _ => ?_) fun hallowed => ?_
    · exact (Affords.pure _).weaken le_rfl (Nat.zero_le _)
    · have haction : Affords w'.remaining (rt.stackAction env w.store.controls.last?) 0 := by
        unfold Runtime.stackAction
        cases htop : w.store.controls.last? with
        | none => exact (affords_advanceNextRoot _).weaken (Nat.zero_le _) le_rfl
        | some top =>
          rw [htop] at hallowed
          exact affords_advanceFrame.weaken (not_lt.mp hallowed) le_rfl
      refine haction.bind (fun action => .ite (fun _ => .pure _) fun _ => ih _) le_rfl

theorem affords_recordDelivery (index : Nat) (delivery : Delivery) :
    Affords n (Runtime.recordDelivery env index delivery : FlowM S Q Row AdvanceOutcome) n := by
  refine .liftError le_rfl fun recorded _ => ?_
  cases recorded with
  | false => exact .pure _
  | true =>
    refine .get fun w hw => ?_
    refine (affords_commit _ _).bind (fun _ => ?_) hw
    have hack : Affords w.remaining (do
        modify fun w => { w with pending := Function.update w.pending index none }
        liftFenced env.ack
        effect (.ack index)
        pure .progressed : FlowM S Q Row AdvanceOutcome) n := by
      refine Affords.bind (.modify fun _ => rfl) (fun _ => ?_) hw
      refine (affords_liftFenced _).bind (fun _ => ?_) hw
      refine (affords_effect _).bind (fun _ => ?_) hw
      exact (Affords.pure _).weaken le_rfl hw
    exact .ite (fun _ => affords_sync.bind (fun _ => hack) hw) fun _ => hack

theorem affords_capture (index : Nat) :
    Affords n (Runtime.capture env index : FlowM S Q Row AdvanceOutcome) n := by
  have hpoll : Affords n (Runtime.pollSource env index : FlowM S Q Row Unit) n := by
    refine .get fun w hw => .ite (fun _ => ?_) fun _ => (Affords.pure _).weaken le_rfl hw
    refine ((affords_liftFenced _).bind (fun polled => ?_) le_rfl).weaken hw le_rfl
    exact .modify fun _ => rfl
  refine hpoll.bind (fun _ => .get fun w hw => ?_) le_rfl
  cases w.pending index with
  | none => exact (Affords.pure _).weaken le_rfl hw
  | some delivery => exact (affords_recordDelivery index delivery).weaken hw le_rfl

theorem affords_drain (index : Nat) :
    Affords n (Runtime.drain env index : FlowM S Q Row AdvanceOutcome) n := by
  refine .liftError le_rfl fun loaded _ => ?_
  cases loaded with
  | false => exact .pure _
  | true =>
    have hinitialize : Affords n (Runtime.initializeSink env index : FlowM S Q Row Unit) n := by
      refine (affords_liftFenced _).bind (fun fresh => .ite (fun _ => ?_) fun _ => .pure _) le_rfl
      refine .liftError le_rfl fun outbox _ => .get fun w hw => ?_
      exact (affords_commit _ _).weaken hw le_rfl
    refine hinitialize.bind (fun _ => affords_sync.bind (fun _ => ?_) le_rfl) le_rfl
    refine (affords_effect _).bind (fun _ => (affords_liftFenced _).bind (fun _ => ?_) le_rfl) le_rfl
    refine (affords_liftFenced _).bind (fun outbox => .get fun w hw => ?_) le_rfl
    refine (affords_commit _ _).bind (fun _ => ?_) hw
    exact (Affords.pure _).weaken le_rfl hw

theorem affords_round : Affords 0 (rt.round env) 0 := by
  refine .get fun w _ => Affords.bind (m := 0) ?_ (fun _ => ?_) le_rfl
  · refine Affords.weaken (.modify ?_) (Nat.zero_le _) (Nat.zero_le _)
    exact fun _ => rfl
  · refine (affords_capture _).bind (fun captured => ?_) le_rfl
    refine Affords.bind (m := 0) ?_ (fun _ => ?_) le_rfl
    · intro w _
      refine ⟨fun _ w' _ => Nat.zero_le _, fun _ _ h => (nomatch h)⟩
    · refine (affords_stackActions _ _).bind (fun outcome => .get fun w _ => ?_) le_rfl
      refine Affords.bind (m := 0) ?_ (fun _ => ?_) le_rfl
      · refine Affords.weaken (.modify ?_) (Nat.zero_le _) (Nat.zero_le _)
        exact fun _ => rfl
      · exact (affords_drain _).bind (fun _ => .pure _) le_rfl

/-- No call of the scheduler panics, from any world and whatever happens outside. -/
theorem advance_noPanic (w w' : World S Q Row) : rt.advance env w ≠ .error .panicked w' := by
  intro hpanic
  unfold Runtime.advance at hpanic
  split at hpanic
  · cases hpanic
  · have haffords : Affords 0 (rt.round env) 0 := affords_round
    have hround := haffords { w with unsynced := false } (Nat.zero_le _)
    have hsync : ∀ (t : World S Q Row) (t' : World S Q Row),
        (sync env : FlowM S Q Row Unit) t ≠ .error .panicked t' := fun t t' h =>
      ((affords_sync (n := 0) t (Nat.zero_le _)).2 _ _ h).1 rfl
    split at hpanic
    · next hrun => exact (hround.2 _ _ hrun).1 rfl
    · split at hpanic
      · cases hpanic
      · next hrun =>
        cases hpanic
        exact hsync _ _ hrun
    · split at hpanic
      · cases hpanic
      · next hrun =>
        cases hpanic
        exact hsync _ _ hrun

/-! ## Outcomes of stack actions -/

section Outcomes

variable {depth : Nat} {frame : Frame} {w w' : World S Q Row} {outcome : AdvanceOutcome}

/-- A sink refused the stored page of the top frame. -/
def Refused (rt : Runtime S Q Row) (w : World S Q Row) (depth : Nat) (frame : Frame) : Prop :=
  ∃ next after c sink encoded page, frame.phase = .send next after ∧
    (rt.topology.consumers frame.head)[next]? = some c ∧
    rt.operation c.operation = .sink sink ∧
    w.store.outputs.get? depth = some encoded ∧
    (rt.outputCodec frame.head).decode encoded = .ok page ∧
    sink.tryEnqueue page (w.store.outboxes c.operation) = .ok none

theorem commit_eq_ok {store : Store S Q} {e : Effect Row} {u : Unit}
    (h : commit env store e w = .ok u w') : w'.store = store ∧ w'.log = w.log ++ [e] := by
  unfold commit at h
  obtain ⟨_, _, hget, h⟩ := bind_eq_ok.mp h
  obtain ⟨rfl, rfl⟩ := get_eq_ok.mp hget
  cases hfate : env.fate w.log.length with
  | done =>
    rw [hfate] at h
    cases h
    exact ⟨rfl, rfl⟩
  | failed | crashed =>
    rw [hfate] at h
    cases h

theorem spend_eq_ok {bytes : Nat} {u : Unit} (h : spend bytes w = .ok u w') :
    w'.store = w.store ∧ w'.log = w.log := by
  unfold spend at h
  obtain ⟨_, _, hget, h⟩ := bind_eq_ok.mp h
  obtain ⟨rfl, rfl⟩ := get_eq_ok.mp hget
  split at h
  · rw [set_eq_ok] at h
    subst h
    exact ⟨rfl, rfl⟩
  · obtain ⟨_, _, _, h⟩ := bind_eq_ok.mp h
    cases h

theorem liftError_eq_ok {x : Except OperationError α} {a : α}
    (h : (liftError x : FlowM S Q Row α) w = .ok a w') : x = .ok a ∧ w' = w := by
  obtain ⟨hx, rfl⟩ := ofExcept_eq_ok.mp h
  exact ⟨mapError_eq_ok.mp hx, rfl⟩

/-- Routing a fresh page is progress. -/
theorem routePage_fresh {next : Nat} {after : Progress} {page : Change Row} {encoded : Bytes}
    {s s' : Scope (Txn S Q Row)}
    (h : rt.routePage depth frame next after (some page) encoded s = .ok outcome s') :
    outcome = .progressed := by
  unfold Runtime.routePage at h
  obtain ⟨routed, t, -, h⟩ := bind_eq_ok.mp h
  cases routed with
  | exhausted =>
    obtain ⟨_, _, _, h⟩ := bind_eq_ok.mp h
    exact (pure_eq_ok.mp h).1.symm
  | stopped n blocked =>
    obtain ⟨_, _, _, h⟩ := bind_eq_ok.mp h
    rw [if_pos (.inl rfl)] at h
    obtain ⟨_, _, _, h⟩ := bind_eq_ok.mp h
    exact (pure_eq_ok.mp h).1.symm
  | child n child =>
    obtain ⟨_, _, _, h⟩ := bind_eq_ok.mp h
    obtain ⟨_, _, _, h⟩ := bind_eq_ok.mp h
    obtain ⟨_, _, _, h⟩ := bind_eq_ok.mp h
    exact (pure_eq_ok.mp h).1.symm

/-- A computed page is progress. -/
theorem runPage_progressed {input : Change Row} {s s' : Scope (Txn S Q Row)}
    (h : rt.runPage depth frame input s = .ok outcome s') : outcome = .progressed := by
  unfold Runtime.runPage at h
  cases hphase : frame.phase with
  | send next after =>
    rw [hphase] at h
    cases h
  | run resume =>
    rw [hphase] at h
    obtain ⟨_, _, _, h⟩ := bind_eq_ok.mp h
    obtain ⟨step, _, _, h⟩ := bind_eq_ok.mp h
    dsimp only at h
    split at h
    · obtain ⟨_, _, hthrow, _⟩ := bind_eq_ok.mp h
      exact (throw_eq_ok.mp hthrow).elim
    · obtain ⟨_, _, _, h⟩ := bind_eq_ok.mp h
      obtain ⟨page, _, _, h⟩ := bind_eq_ok.mp h
      cases page with
      | none =>
        obtain ⟨_, _, _, h⟩ := bind_eq_ok.mp h
        obtain ⟨_, _, _, h⟩ := bind_eq_ok.mp h
        exact (pure_eq_ok.mp h).1.symm
      | some page =>
        obtain ⟨_, _, _, h⟩ := bind_eq_ok.mp h
        obtain ⟨_, _, _, h⟩ := bind_eq_ok.mp h
        obtain ⟨_, _, _, h⟩ := bind_eq_ok.mp h
        obtain ⟨_, _, _, h⟩ := bind_eq_ok.mp h
        exact routePage_fresh h

/-- What an action has done when it progressed: one committed transaction. -/
def Committed (w w' : World S Q Row) : Prop :=
  ∃ events, w'.log = w.log ++ [.compute events]

theorem attemptPage_progressed {input : Change Row} {exponent : Nat}
    {retry : OperationError → FlowM S Q Row AdvanceOutcome}
    (h : rt.attemptPage env depth frame input exponent retry w = .ok outcome w') :
    (outcome = .progressed ∧ Committed w w') ∨
      ∃ e t, t.log = w.log ∧ retry e t = .ok outcome w' := by
  unfold Runtime.attemptPage at h
  obtain ⟨_, _, hget, h⟩ := bind_eq_ok.mp h
  obtain ⟨rfl, rfl⟩ := get_eq_ok.mp hget
  cases hpage : rt.runPage depth frame input ⟨⟨w.store, []⟩, ⟨2 ^ exponent, stepBytes⟩⟩ with
  | ok computed s =>
    rw [hpage] at h
    obtain ⟨_, t, hspend, h⟩ := bind_eq_ok.mp h
    obtain ⟨_, t', hcommit, h⟩ := bind_eq_ok.mp h
    obtain ⟨rfl, rfl⟩ := pure_eq_ok.mp h
    obtain ⟨-, hlog⟩ := commit_eq_ok hcommit
    rw [(spend_eq_ok hspend).2] at hlog
    exact .inl ⟨runPage_progressed hpage, _, hlog⟩
  | error e s =>
    rw [hpage] at h
    obtain ⟨_, t, hspend, h⟩ := bind_eq_ok.mp h
    exact .inr ⟨e, t, (spend_eq_ok hspend).2, h⟩

/-- A retry sequence that returns has committed one page. -/
theorem runFrame_progressed {input : Change Row} {exponent : Nat}
    (h : rt.runFrame env depth frame input exponent w = .ok outcome w') :
    outcome = .progressed ∧ Committed w w' := by
  induction exponent generalizing w with
  | zero =>
    rcases attemptPage_progressed h with h | ⟨e, t, _, h⟩
    · exact h
    · cases h
  | succ exponent ih =>
    rcases attemptPage_progressed h with h | ⟨e, t, hlog, h⟩
    · exact h
    · split at h
      · obtain ⟨hprogressed, events, hgrown⟩ := ih h
        exact ⟨hprogressed, events, by rw [hgrown, hlog]⟩
      · cases h

/-- The routing loop never goes back. -/
theorem routeLoop_le {head next stop : Nat} {blocked : Bool} {encoded : Bytes}
    {consumers : List Consumer} {output : Option (Change Row)} {s s' : Scope (Txn S Q Row)}
    (h : rt.routeLoop head encoded consumers next output s = .ok (.stopped stop blocked) s') :
    next ≤ stop := by
  induction consumers generalizing next output s with
  | nil => cases h
  | cons c rest ih =>
    unfold Runtime.routeLoop at h
    cases hop : rt.operation c.operation with
    | sink sink =>
      rw [hop] at h
      obtain ⟨_, t, ht, h⟩ := bind_eq_ok.mp h
      split at h
      · cases h
        exact le_rfl
      · obtain ⟨_, _, _, h⟩ := bind_eq_ok.mp h
        obtain ⟨_, _, _, h⟩ := bind_eq_ok.mp h
        obtain ⟨accepted, _, _, h⟩ := bind_eq_ok.mp h
        cases accepted with
        | false =>
          cases h
          exact le_rfl
        | true => exact (Nat.le_succ next).trans (ih h)
    | _ =>
      rw [hop] at h
      cases h

theorem tryEnqueue_eq_false {sink : SinkOperation Q Row} {c : Consumer} {page : Change Row}
    {s s' : Scope (Txn S Q Row)} (h : tryEnqueue sink c page s = .ok false s') :
    sink.tryEnqueue page (s.state.store.outboxes c.operation) = .ok none := by
  unfold tryEnqueue at h
  obtain ⟨_, t, ht, h⟩ := bind_eq_ok.mp h
  obtain ⟨rfl, rfl⟩ := get_eq_ok.mp ht
  obtain ⟨accepted, t, ht, h⟩ := bind_eq_ok.mp h
  obtain ⟨haccepted, rfl⟩ := ofExcept_eq_ok.mp ht
  cases accepted with
  | none => exact haccepted
  | some outbox =>
    obtain ⟨_, _, _, h⟩ := bind_eq_ok.mp h
    obtain ⟨_, _, _, h⟩ := bind_eq_ok.mp h
    cases (pure_eq_ok.mp h).1

/-- With room for one sink, a loop over a stored page stops where it began only when the first
consumer is a sink that refused the page. -/
theorem routeLoop_stored {head next : Nat} {blocked : Bool} {encoded : Bytes}
    {consumers : List Consumer} {s s' : Scope (Txn S Q Row)}
    (h : rt.routeLoop head encoded consumers next none s = .ok (.stopped next blocked) s')
    (hroom : encoded.length * 2 + 128 ≤ s.budget.remainingBytes) :
    blocked = true ∧ s'.state = s.state ∧ ∃ c rest sink page, consumers = c :: rest ∧
      rt.operation c.operation = .sink sink ∧ (rt.outputCodec head).decode encoded = .ok page ∧
      sink.tryEnqueue page (s.state.store.outboxes c.operation) = .ok none := by
  cases consumers with
  | nil => cases h
  | cons c rest =>
    unfold Runtime.routeLoop at h
    cases hop : rt.operation c.operation with
    | sink sink =>
      rw [hop] at h
      obtain ⟨_, t, ht, h⟩ := bind_eq_ok.mp h
      obtain ⟨rfl, rfl⟩ := get_eq_ok.mp ht
      rw [if_neg (not_lt.mpr hroom)] at h
      obtain ⟨_, t₁, hcharge, h⟩ := bind_eq_ok.mp h
      obtain ⟨hcharged, -⟩ := StepBudget.charge_eq_ok hcharge
      obtain ⟨page, t₂, hpage, h⟩ := bind_eq_ok.mp h
      obtain ⟨hdecode, rfl⟩ := ofExcept_eq_ok.mp hpage
      obtain ⟨accepted, t₃, henqueue, h⟩ := bind_eq_ok.mp h
      cases accepted with
      | false =>
        obtain ⟨hstop, rfl⟩ := pure_eq_ok.mp h
        cases hstop
        have hrefused := tryEnqueue_eq_false henqueue
        rw [hcharged] at hrefused
        refine ⟨rfl, ?_, c, rest, sink, page, rfl, hop, mapError_eq_ok.mp hdecode, hrefused⟩
        rw [tryEnqueue_refused henqueue, hcharged]
      | true => exact absurd (routeLoop_le h) (by omega)
    | _ =>
      rw [hop] at h
      cases h

/-- Routing a stored page with room for one sink: progress, or the first consumer left is a
sink that refused the page. -/
theorem routePage_stored {next : Nat} {after : Progress} {encoded : Bytes}
    {s s' : Scope (Txn S Q Row)}
    (h : rt.routePage depth frame next after none encoded s = .ok outcome s')
    (hroom : encoded.length * 2 + 128 ≤ s.budget.remainingBytes) :
    outcome = .progressed ∨ outcome = .backpressured ∧ s'.state = s.state ∧
      ∃ c sink page, (rt.topology.consumers frame.head)[next]? = some c ∧
        rt.operation c.operation = .sink sink ∧
        (rt.outputCodec frame.head).decode encoded = .ok page ∧
        sink.tryEnqueue page (s.state.store.outboxes c.operation) = .ok none := by
  unfold Runtime.routePage at h
  obtain ⟨routed, t, hloop, h⟩ := bind_eq_ok.mp h
  cases routed with
  | exhausted =>
    obtain ⟨_, _, _, h⟩ := bind_eq_ok.mp h
    exact .inl (pure_eq_ok.mp h).1.symm
  | stopped stop blocked =>
    obtain ⟨_, t₁, hfresh, hstop⟩ := bind_eq_ok.mp h
    obtain ⟨-, rfl⟩ := pure_eq_ok.mp hfresh
    split at hstop
    · obtain ⟨_, _, _, h⟩ := bind_eq_ok.mp hstop
      exact .inl (pure_eq_ok.mp h).1.symm
    · next hstuck =>
      have hsame : stop = next := by
        by_contra hne
        exact hstuck (.inr hne)
      subst hsame
      obtain ⟨rfl, hstate, c, rest, sink, page, hcons, hsink, hpage, hrefused⟩ :=
        routeLoop_stored hloop hroom
      obtain ⟨rfl, rfl⟩ := pure_eq_ok.mp hstop
      refine .inr ⟨rfl, hstate, c, sink, page, ?_, hsink, hpage, hrefused⟩
      rw [← List.head?_drop, hcons]
      rfl
  | child stop child =>
    obtain ⟨_, _, _, h⟩ := bind_eq_ok.mp h
    obtain ⟨_, _, _, h⟩ := bind_eq_ok.mp h
    obtain ⟨_, _, _, h⟩ := bind_eq_ok.mp h
    exact .inl (pure_eq_ok.mp h).1.symm

theorem sendPage_outcome {next : Nat} {after : Progress} (hphase : frame.phase = .send next after)
    (h : rt.sendPage env depth frame next after w = .ok outcome w') :
    (outcome = .progressed ∧ Committed w w') ∨
      outcome = .backpressured ∧ w'.store = w.store ∧ Refused rt w depth frame := by
  unfold Runtime.sendPage at h
  obtain ⟨_, _, hget, h⟩ := bind_eq_ok.mp h
  obtain ⟨rfl, rfl⟩ := get_eq_ok.mp hget
  split at h
  · cases hfinish : rt.finishFrame depth frame after
        ⟨⟨w.store, []⟩, ⟨1, stepBytes - (2 * controlBytes + 12)⟩⟩ with
    | error e s =>
      rw [hfinish] at h
      cases h
    | ok u s =>
      rw [hfinish] at h
      obtain ⟨_, t, hcommit, h⟩ := bind_eq_ok.mp h
      obtain ⟨rfl, rfl⟩ := pure_eq_ok.mp h
      exact .inl ⟨rfl, _, (commit_eq_ok hcommit).2⟩
  · obtain ⟨encoded, _, houtput, h⟩ := bind_eq_ok.mp h
    obtain ⟨houtput, rfl⟩ := liftError_eq_ok houtput
    split at h
    · cases h
    · next hfits =>
      -- A page leaves the step room for at least one sink.
      have hroom : encoded.length * 2 + 128 ≤
          stepBytes - (2 * controlBytes + 12) - encoded.length := by
        have hlength := (output_eq_ok houtput).2
        unfold stepBytes controlBytes
        unfold pageBytes at hlength ⊢
        omega
      cases hroute : rt.routePage depth frame next after none encoded
          ⟨⟨_, []⟩, ⟨1, stepBytes - (2 * controlBytes + 12) - encoded.length⟩⟩ with
      | error e s =>
        rw [hroute] at h
        cases h
      | ok routed s =>
        rw [hroute] at h
        obtain ⟨_, t, hcommit, h⟩ := bind_eq_ok.mp h
        obtain ⟨rfl, rfl⟩ := pure_eq_ok.mp h
        obtain ⟨hstore, hlog⟩ := commit_eq_ok hcommit
        rcases routePage_stored hroute hroom with
          rfl | ⟨rfl, hstate, c, sink, page, hc, hsink, hpage, hrefused⟩
        · exact .inl ⟨rfl, _, hlog⟩
        · rw [hstate] at hstore
          exact .inr ⟨rfl, hstore, next, after, c, sink, encoded, page, hphase, hc, hsink,
            (output_eq_ok houtput).1, hpage, hrefused⟩

/-- An action on the top frame that returns has committed progress, unless a sink refused its
page. -/
theorem advanceFrame_outcome (h : rt.advanceFrame env depth frame w = .ok outcome w') :
    (outcome = .progressed ∧ Committed w w') ∨
      outcome = .backpressured ∧ w'.store = w.store ∧ Refused rt w depth frame := by
  unfold Runtime.advanceFrame at h
  cases hphase : frame.phase with
  | send next after =>
    rw [hphase] at h
    obtain ⟨_, t, hspend, h⟩ := bind_eq_ok.mp h
    obtain ⟨hstore, hlog⟩ := spend_eq_ok hspend
    rcases sendPage_outcome hphase h with ⟨rfl, hcommitted⟩ | ⟨rfl, hsame, hrefused⟩
    · exact .inl ⟨rfl, by rwa [Committed, ← hlog]⟩
    · exact .inr ⟨rfl, hsame.trans hstore, by rwa [Refused, ← hstore]⟩
  | run resume =>
    rw [hphase] at h
    have hread : ∀ t : World S Q Row, t.log = w.log → (do
        let w ← get
        let bytes ← liftError (rt.input w.store depth frame)
        spend bytes.length
        let input ← liftError (((rt.inputCodec frame).decode bytes).mapError codecError)
        rt.runFrame env depth frame input 8 : FlowM S Q Row AdvanceOutcome) t = .ok outcome w' →
        outcome = .progressed ∧ Committed w w' := by
      intro t hlog h₀
      obtain ⟨_, _, hget, h₁⟩ := bind_eq_ok.mp h₀
      obtain ⟨rfl, rfl⟩ := get_eq_ok.mp hget
      obtain ⟨bytes, _, hbytes, h₂⟩ := bind_eq_ok.mp h₁
      obtain ⟨-, rfl⟩ := liftError_eq_ok hbytes
      obtain ⟨_, t₁, hspend, h₃⟩ := bind_eq_ok.mp h₂
      obtain ⟨input, _, hinput, h₄⟩ := bind_eq_ok.mp h₃
      obtain ⟨-, rfl⟩ := liftError_eq_ok hinput
      obtain ⟨hprogressed, events, hgrown⟩ := runFrame_progressed h₄
      exact ⟨hprogressed, events, by rw [hgrown, (spend_eq_ok hspend).2, hlog]⟩
    refine .inl ?_
    dsimp only at h
    split at h
    · obtain ⟨_, t, hspend, h⟩ := bind_eq_ok.mp h
      exact hread t (spend_eq_ok hspend).2 h
    · exact hread w rfl h

end Outcomes

end Spending

/-- The scheduler's allowance is safe: no call underflows it, and no action on a stack with a
frame is idle. -/
theorem allowance_safe (rt : Runtime S Q Row) (env : Env Q) :
    (∀ w w' : World S Q Row, rt.advance env w ≠ .error .panicked w') ∧
    (∀ (w : World S Q Row) depth frame, w.store.controls.last? = some (depth, frame) →
      ∀ outcome w', rt.advanceFrame env depth frame w = .ok outcome w' →
        (outcome = .progressed ∧ Committed w w') ∨
          outcome = .backpressured ∧ w'.store = w.store ∧ Refused rt w depth frame) :=
  ⟨advance_noPanic, fun _ _ _ _ _ _ h => advanceFrame_outcome h⟩

/-- The frame a call of the diamond's source starts with. -/
def diamondFrame : Frame := ⟨0, none, .run .batch⟩

/-- The diamond with that frame on its stack. -/
def diamondCalled : World Unit Nat Unit :=
  { World.opened { Store.initial (fun _ => ()) (fun _ => 0) with
      controls := OrdMap.empty.put 0 diamondFrame
      queues := fun _ => [[1]] } [] with
    remaining := stackRoundBytes }

theorem allowance_safe_diamond :
    Committed diamondCalled
      (endState (diamond.advanceFrame diamondEnv 0 diamondFrame diamondCalled)) := by
  have hrun : diamond.advanceFrame diamondEnv 0 diamondFrame diamondCalled = .ok .progressed
      (endState (diamond.advanceFrame diamondEnv 0 diamondFrame diamondCalled)) := by rfl
  rcases (allowance_safe diamond diamondEnv).2 _ _ _ (by decide) _ _ hrun with
    ⟨-, hcommitted⟩ | ⟨hblocked, -⟩
  · exact hcommitted
  · cases hblocked

end Dogpaddle.Flow
