import Dogpaddle.Store.Collections

/-!
# Transactions are all or nothing

What an operation may do to its transaction is said once, as a discipline that
composes:

* `Reads`: nothing is staged, whatever the outcome;
* `Writes`: what was staged stays, and no failure is retryable;
* `Sound`: a success keeps the transaction healthy, a retryable failure leaves it as
  it is, and every other failure poisons it.

A read followed by anything sound is sound, and so is anything sound followed by
writes; a write followed by a retryable failure would not be. `Barred` says how a
poisoned transaction answers.
-/

namespace Dogpaddle.Store

open Lib

/-! ## The discipline -/

/-- Failures that leave a transaction as it is. -/
def Failure.retryable : Failure → Bool
  | .itemTooLarge _ _ => true
  | .invalidScanLimit => true
  | _ => false

namespace Transaction

/-- A healthy transaction that remembers whether it staged anything. -/
structure Healthy (tx : Transaction) : Prop where
  sane : tx.poisoned = false
  tidy : tx.hasWrites = false → tx.staged = []

/-- The transactions agree on everything but the engine calls to come. -/
structure Same (tx tx' : Transaction) : Prop where
  snapshot : tx'.snapshot = tx.snapshot
  staged : tx'.staged = tx.staged
  hasWrites : tx'.hasWrites = tx.hasWrites

theorem Same.refl (tx : Transaction) : Same tx tx := ⟨rfl, rfl, rfl⟩

theorem Same.trans {tx tx' tx'' : Transaction} (h : Same tx tx') (h' : Same tx' tx'') :
    Same tx tx'' :=
  ⟨h'.snapshot.trans h.snapshot, h'.staged.trans h.staged, h'.hasWrites.trans h.hasWrites⟩

theorem Same.healthy {tx tx' : Transaction} (h : Same tx tx') (hh : tx.Healthy)
    (hsane : tx'.poisoned = false) : tx'.Healthy := by
  refine ⟨hsane, fun hw => ?_⟩
  rw [h.staged]
  exact hh.tidy (h.hasWrites ▸ hw)

/-- A later state of a transaction: writes were only added. -/
structure Later (tx tx' : Transaction) : Prop where
  snapshot : tx'.snapshot = tx.snapshot
  staged : tx.staged <+: tx'.staged

theorem Later.refl (tx : Transaction) : Later tx tx := ⟨rfl, List.prefix_rfl⟩

theorem Later.trans {tx tx' tx'' : Transaction} (h : Later tx tx') (h' : Later tx' tx'') :
    Later tx tx'' := ⟨h'.snapshot.trans h.snapshot, h.staged.trans h'.staged⟩

theorem Same.later {tx tx' : Transaction} (h : Same tx tx') : Later tx tx' :=
  ⟨h.snapshot, h.staged ▸ List.prefix_rfl⟩

end Transaction

open Transaction (Healthy Same Later)

section Discipline

variable {α β : Type}

/-- A success stays healthy, a retryable failure changes nothing, another one poisons. -/
structure Sound (x : TxM α) : Prop where
  ok : ∀ {tx a tx'}, tx.Healthy → x tx = .ok a tx' → tx'.Healthy ∧ Later tx tx'
  error : ∀ {tx e tx'}, tx.Healthy → x tx = .error e tx' →
    Later tx tx' ∧ if e.retryable then tx'.poisoned = false ∧ Same tx tx' else tx'.poisoned = true

/-- Sound, and nothing is staged. -/
structure Reads (x : TxM α) : Prop extends Sound x where
  same : ∀ {tx a tx'}, tx.Healthy → x tx = .ok a tx' → Same tx tx'

/-- Sound, and no failure is retryable. -/
structure Writes (x : TxM α) : Prop extends Sound x where
  hard : ∀ {tx e tx'}, tx.Healthy → x tx = .error e tx' → e.retryable = false

theorem bind_cases {x : TxM α} {f : α → TxM β} {tx : Transaction}
    {r : EStateM.Result Failure Transaction β} (h : (x >>= f) tx = r) :
    (∃ a tx', x tx = .ok a tx' ∧ f a tx' = r) ∨ ∃ e tx', x tx = .error e tx' ∧ r = .error e tx' := by
  cases hx : x tx with
  | ok a tx' => exact .inl ⟨a, tx', rfl, (bind_of_ok hx).symm.trans h⟩
  | error e tx' => exact .inr ⟨e, tx', rfl, h.symm.trans (bind_of_error hx)⟩

theorem Reads.pure (a : α) : Reads (pure a : TxM α) where
  ok h heq := by
    cases heq
    exact ⟨h, .refl _⟩
  error _ heq := by cases heq
  same _ heq := by
    cases heq
    exact .refl _

theorem Writes.pure (a : α) : Writes (pure a : TxM α) where
  toSound := (Reads.pure a).toSound
  hard _ heq := by cases heq

/-- A read, then anything sound. -/
theorem Reads.bind_sound {x : TxM α} {f : α → TxM β} (hx : Reads x) (hf : ∀ a, Sound (f a)) :
    Sound (x >>= f) where
  ok h heq := by
    rcases bind_cases heq with ⟨a, tx', hok, hrest⟩ | ⟨e, tx', -, hr⟩
    · obtain ⟨hh, hlater⟩ := hx.ok h hok
      obtain ⟨hh', hlater'⟩ := (hf a).ok hh hrest
      exact ⟨hh', hlater.trans hlater'⟩
    · cases hr
  error h heq := by
    rcases bind_cases heq with ⟨a, tx', hok, hrest⟩ | ⟨e, tx', herr, hr⟩
    · obtain ⟨hh, hlater⟩ := hx.ok h hok
      obtain ⟨hlater', hcase⟩ := (hf a).error hh hrest
      refine ⟨hlater.trans hlater', ?_⟩
      split
      · next hretry =>
        rw [if_pos hretry] at hcase
        exact ⟨hcase.1, (hx.same h hok).trans hcase.2⟩
      · next hretry =>
        rw [if_neg hretry] at hcase
        exact hcase
    · cases hr
      exact hx.error h herr

theorem Reads.bind {x : TxM α} {f : α → TxM β} (hx : Reads x) (hf : ∀ a, Reads (f a)) :
    Reads (x >>= f) where
  toSound := hx.bind_sound fun a => (hf a).toSound
  same h heq := by
    rcases bind_cases heq with ⟨a, tx', hok, hrest⟩ | ⟨e, tx', -, hr⟩
    · exact (hx.same h hok).trans ((hf a).same (hx.ok h hok).1 hrest)
    · cases hr

/-- Anything sound, then writes. -/
theorem Sound.bind_writes {x : TxM α} {f : α → TxM β} (hx : Sound x) (hf : ∀ a, Writes (f a)) :
    Sound (x >>= f) where
  ok h heq := by
    rcases bind_cases heq with ⟨a, tx', hok, hrest⟩ | ⟨e, tx', -, hr⟩
    · obtain ⟨hh, hlater⟩ := hx.ok h hok
      obtain ⟨hh', hlater'⟩ := (hf a).ok hh hrest
      exact ⟨hh', hlater.trans hlater'⟩
    · cases hr
  error h heq := by
    rcases bind_cases heq with ⟨a, tx', hok, hrest⟩ | ⟨e, tx', herr, hr⟩
    · obtain ⟨hh, hlater⟩ := hx.ok h hok
      obtain ⟨hlater', hcase⟩ := (hf a).error hh hrest
      refine ⟨hlater.trans hlater', ?_⟩
      have hhard := (hf a).hard hh hrest
      simp only [hhard, Bool.false_eq_true, if_false] at hcase ⊢
      exact hcase
    · cases hr
      exact hx.error h herr

theorem Writes.bind {x : TxM α} {f : α → TxM β} (hx : Writes x) (hf : ∀ a, Writes (f a)) :
    Writes (x >>= f) where
  toSound := hx.toSound.bind_writes hf
  hard h heq := by
    rcases bind_cases heq with ⟨a, tx', hok, hrest⟩ | ⟨e, tx', herr, hr⟩
    · exact (hf a).hard (hx.ok h hok).1 hrest
    · cases hr
      exact hx.hard h herr

/-- Both a read and free of retryable failures. -/
structure Checks (x : TxM α) : Prop extends Reads x, Writes x

theorem Checks.bind {x : TxM α} {f : α → TxM β} (hx : Checks x) (hf : ∀ a, Checks (f a)) :
    Checks (x >>= f) where
  toReads := hx.toReads.bind fun a => (hf a).toReads
  hard := (hx.toWrites.bind fun a => (hf a).toWrites).hard

theorem Checks.pure (a : α) : Checks (pure a : TxM α) := ⟨Reads.pure a, (Writes.pure a).hard⟩

/-! ## The helpers that decide -/

/-- A failure that poisons. -/
theorem Checks.fails {x : TxM α} {e : Failure} (he : e.retryable = false)
    (h : ∀ tx, x tx = .error e { tx with poisoned := true }) : Checks x where
  ok _ heq := by
    rw [h] at heq
    cases heq
  error _ heq := by
    rw [h] at heq
    cases heq
    refine ⟨⟨rfl, List.prefix_rfl⟩, ?_⟩
    rw [he]
    rfl
  same _ heq := by
    rw [h] at heq
    cases heq
  hard _ heq := by
    rw [h] at heq
    cases heq
    exact he

/-- A retryable failure that leaves the transaction alone. -/
theorem Reads.rejects {x : TxM α} {e : Failure} (he : e.retryable = true)
    (h : ∀ tx, x tx = .error e tx) : Reads x where
  ok _ heq := by
    rw [h] at heq
    cases heq
  error hh heq := by
    rw [h] at heq
    cases heq
    refine ⟨.refl _, ?_⟩
    rw [he]
    exact ⟨hh.sane, .refl _⟩
  same _ heq := by
    rw [h] at heq
    cases heq

theorem ensureHealthy_eq {tx : Transaction} (h : tx.poisoned = false) :
    ensureHealthy tx = .ok () tx := by
  obtain ⟨snapshot, staged, token, poisoned, hasWrites, faults⟩ := tx
  cases h
  rfl

theorem checks_ensureHealthy : Checks ensureHealthy where
  ok h heq := by
    rw [ensureHealthy_eq h.sane] at heq
    cases heq
    exact ⟨h, .refl _⟩
  error h heq := by
    rw [ensureHealthy_eq h.sane] at heq
    cases heq
  same h heq := by
    rw [ensureHealthy_eq h.sane] at heq
    cases heq
    exact .refl _
  hard h heq := by
    rw [ensureHealthy_eq h.sane] at heq
    cases heq

theorem checks_poisonOnError (result : Except String α) : Checks (poisonOnError result) := by
  cases result with
  | ok a => exact Checks.pure a
  | error message => exact Checks.fails rfl fun _ => rfl

theorem checks_poisonOnFailure {result : Except Failure α}
    (h : ∀ e, result = .error e → e.retryable = false) : Checks (poisonOnFailure result) := by
  cases result with
  | ok a => exact Checks.pure a
  | error e => exact Checks.fails (h e rfl) fun _ => rfl

theorem reads_recordResult {result : Except Failure α} (h : result ≠ .error .invalidScanLimit) :
    Reads (recordResult result) := by
  cases result with
  | ok a => exact Reads.pure a
  | error e =>
    cases e
    case invalidScanLimit => exact absurd rfl h
    case itemTooLarge => exact Reads.rejects rfl fun _ => rfl
    all_goals exact (Checks.fails rfl fun _ => rfl).toReads

theorem checks_recordResult {result : Except Failure α}
    (h : ∀ e, result = .error e → e.retryable = false) : Checks (recordResult result) := by
  cases result with
  | ok a => exact Checks.pure a
  | error e =>
    have he := h e rfl
    cases e
    case invalidScanLimit => cases he
    case itemTooLarge => cases he
    all_goals exact Checks.fails rfl fun _ => rfl

theorem checks_fail {e : Failure} (h : e.retryable = false) :
    Checks (QueueAccess.fail e : TxM α) := by
  refine checks_recordResult fun e' he => ?_
  cases he
  exact h

/-! ## Engine calls -/

/-- What an engine read may answer. -/
inductive Answers (operation : String) (read : Database → α) : Except Failure α → Prop
  | refused : Answers operation read (.error (.storage operation))
  | read (db : Database) : Answers operation read (.ok (read db))

theorem engineRead_cases (operation : String) (read : Database → α) (tx : Transaction) :
    ∃ answer tx', engineRead operation read tx = .ok answer tx' ∧ Answers operation read answer ∧
      Same tx tx' ∧ tx'.poisoned = tx.poisoned := by
  obtain ⟨snapshot, staged, token, poisoned, hasWrites, faults⟩ := tx
  rcases faults with _ | ⟨_ | _, faults⟩
  · exact ⟨_, _, rfl, .read _, ⟨rfl, rfl, rfl⟩, rfl⟩
  · exact ⟨_, _, rfl, .read _, ⟨rfl, rfl, rfl⟩, rfl⟩
  · exact ⟨_, _, rfl, .refused, ⟨rfl, rfl, rfl⟩, rfl⟩

/-- A read of the engine and what is made of its answer. -/
theorem reads_engineRead {operation : String} {read : Database → α} {f : Except Failure α → TxM β}
    (h : ∀ answer, Answers operation read answer → Reads (f answer)) :
    Reads (engineRead operation read >>= f) := by
  have hrun : ∀ tx, tx.Healthy → ∃ answer tx', (engineRead operation read >>= f) tx = f answer tx' ∧
      Answers operation read answer ∧ Same tx tx' ∧ tx'.Healthy := by
    intro tx hh
    obtain ⟨answer, tx', heq, hanswer, hsame, hsane⟩ := engineRead_cases operation read tx
    exact ⟨answer, tx', bind_of_ok heq, hanswer, hsame, hsame.healthy hh (hsane.trans hh.sane)⟩
  constructor
  · constructor
    · intro tx a tx'' hh heq
      obtain ⟨answer, tx', hstep, hanswer, hsame, hh'⟩ := hrun tx hh
      obtain ⟨hhealthy, hlater⟩ := (h answer hanswer).ok hh' (hstep.symm.trans heq)
      exact ⟨hhealthy, hsame.later.trans hlater⟩
    · intro tx e tx'' hh heq
      obtain ⟨answer, tx', hstep, hanswer, hsame, hh'⟩ := hrun tx hh
      obtain ⟨hlater, hcase⟩ := (h answer hanswer).error hh' (hstep.symm.trans heq)
      refine ⟨hsame.later.trans hlater, ?_⟩
      split
      · next hretry =>
        rw [if_pos hretry] at hcase
        exact ⟨hcase.1, hsame.trans hcase.2⟩
      · next hretry =>
        rw [if_neg hretry] at hcase
        exact hcase
  · intro tx a tx'' hh heq
    obtain ⟨answer, tx', hstep, hanswer, hsame, hh'⟩ := hrun tx hh
    exact hsame.trans ((h answer hanswer).same hh' (hstep.symm.trans heq))

theorem checks_engineRead {operation : String} {read : Database → α}
    {f : Except Failure α → TxM β} (h : ∀ answer, Answers operation read answer → Checks (f answer)) :
    Checks (engineRead operation read >>= f) where
  toReads := reads_engineRead fun answer hanswer => (h answer hanswer).toReads
  hard hh heq := by
    rename_i tx e tx''
    obtain ⟨answer, tx', hread, hanswer, hsame, hsane⟩ := engineRead_cases operation read tx
    have hrest : f answer tx' = .error e tx'' := (bind_of_ok hread).symm.trans heq
    exact (h answer hanswer).hard (hsame.healthy hh (hsane.trans hh.sane)) hrest

/-- An engine write, recorded. -/
def recordedWrite (operation : String) (write : Write) : TxM Unit := do
  ensureHealthy
  let result ← engineWrite operation write
  recordWriteResult result

/-- A write is staged, or refused by the engine and the transaction poisoned. -/
theorem recordedWrite_cases (operation : String) (write : Write) {tx : Transaction}
    (h : tx.poisoned = false) :
    ∃ faults, recordedWrite operation write tx = .ok () { tx.stage write with faults := faults } ∨
      recordedWrite operation write tx =
        .error (.storage operation) { tx with poisoned := true, faults := faults } := by
  obtain ⟨snapshot, staged, token, poisoned, hasWrites, faults⟩ := tx
  cases h
  rcases faults with _ | ⟨_ | _, faults⟩
  · exact ⟨[], .inl rfl⟩
  · exact ⟨faults, .inl rfl⟩
  · exact ⟨faults, .inr rfl⟩

theorem writes_recordedWrite (operation : String) (write : Write) :
    Writes (recordedWrite operation write) where
  ok hh heq := by
    obtain ⟨faults, hok | herr⟩ := recordedWrite_cases operation write hh.sane
    · rw [hok] at heq
      cases heq
      exact ⟨⟨hh.sane, fun hw => by cases hw⟩, rfl, List.prefix_append _ _⟩
    · rw [herr] at heq
      cases heq
  error hh heq := by
    obtain ⟨faults, hok | herr⟩ := recordedWrite_cases operation write hh.sane
    · rw [hok] at heq
      cases heq
    · rw [herr] at heq
      cases heq
      exact ⟨⟨rfl, List.prefix_rfl⟩, rfl⟩
  hard hh heq := by
    obtain ⟨faults, hok | herr⟩ := recordedWrite_cases operation write hh.sane
    · rw [hok] at heq
      cases heq
    · rw [herr] at heq
      cases heq
      rfl

end Discipline

/-! ## Operations on a namespace -/

namespace DataAccess

variable {V : Type} (data : DataAccess)

theorem checks_valueLen (key : Bytes) : Checks (valueLen data key) := by
  refine checks_ensureHealthy.bind fun _ => checks_engineRead fun answer hanswer => ?_
  refine checks_recordResult fun e he => ?_
  cases hanswer <;> cases he
  rfl

theorem checks_containsKey (key : Bytes) : Checks (containsKey data key) :=
  (checks_valueLen data key).bind fun _ => Checks.pure _

theorem decodeBoundedValue_ne (value : Codec V) (stored : Option Bytes) (maxBytes : Nat) :
    decodeBoundedValue value stored maxBytes ≠ .error .invalidScanLimit := by
  unfold decodeBoundedValue
  cases stored with
  | none => simp
  | some bytes =>
    dsimp only
    split
    · simp
    · cases value.decode bytes <;> simp [Except.map, Except.mapError]

theorem reads_getBounded (value : Codec V) (key : Bytes) (maxBytes : Nat) :
    Reads (getBounded data value key maxBytes) := by
  refine checks_ensureHealthy.toReads.bind fun _ => reads_engineRead fun answer hanswer => ?_
  refine reads_recordResult ?_
  cases hanswer with
  | refused => simp [Except.bind]
  | read db => exact decodeBoundedValue_ne value _ maxBytes

theorem writes_put (key value : Bytes) : Writes (put data key value) :=
  writes_recordedWrite "write data" (.put (physicalKey data key) value)

theorem writes_erase (key : Bytes) : Writes (erase data key) :=
  writes_recordedWrite "delete data" (.delete (physicalKey data key))

theorem writes_delete (key : Bytes) : Writes (delete data key) := by
  refine (checks_containsKey data key).toWrites.bind fun found => ?_
  split
  · exact Writes.pure _
  · exact (writes_erase data key).bind fun _ => Writes.pure _

theorem checks_partitionIsEmpty (suffix : Bytes) (excluded : Option Bytes) :
    Checks (partitionIsEmpty data suffix excluded) := by
  refine checks_ensureHealthy.bind fun _ => checks_engineRead fun answer hanswer => ?_
  refine checks_recordResult fun e he => ?_
  cases hanswer <;> cases he
  rfl

theorem scanLoop_ne {K : Type} (key : Codec K) (value : Codec V) (direction : ScanDirection)
    (lower upper : EncodedBound Bytes) (limit : ScanLimit) (keySuffix : Bytes)
    (iterator : List (Bytes × Bytes)) (entries : List (K × V)) (bytes : Nat) :
    scanLoop key value data direction lower upper limit keySuffix iterator entries bytes ≠
      .error .invalidScanLimit := by
  induction iterator generalizing entries bytes with
  | nil => simp [scanLoop]
  | cons e iterator ih =>
    unfold scanLoop
    grind

theorem scanData_ne {K : Type} (key : Codec K) (value : Codec V) (db : Database)
    (direction : ScanDirection) (lower upper : EncodedBound Bytes) (limit : ScanLimit)
    (keySuffix : Bytes) :
    scanData key value db data direction lower upper limit keySuffix ≠
      .error .invalidScanLimit := by
  unfold scanData
  dsimp only
  split
  · next e he =>
    intro hc
    rw [Except.error.inj hc] at he
    exact scanLoop_ne data key value direction lower upper limit keySuffix _ _ _ he
  · next entries limited _ => cases continuationOf key entries limited <;> simp

theorem reads_scanKeySuffix {K : Type} (key : Codec K) (value : Codec V)
    (lower upper : EncodedBound Bytes) (direction : ScanDirection) (resumeAfter : Option Bytes)
    (limit : ScanLimit) (keySuffix : Bytes) :
    Reads (scanKeySuffix data key value lower upper direction resumeAfter limit keySuffix) := by
  refine checks_ensureHealthy.toReads.bind fun _ => reads_engineRead fun answer hanswer => ?_
  refine reads_recordResult ?_
  cases hanswer with
  | refused => simp [Except.bind]
  | read db => exact scanData_ne data key value db direction _ _ limit keySuffix

end DataAccess

/-! ## Operations on cells, maps and partitions -/

theorem sound_encoded {α : Type} (result : Except String Bytes) {f : Bytes → TxM α}
    (h : ∀ encoded, Sound (f encoded)) : Sound (poisonOnError result >>= f) :=
  (checks_poisonOnError result).toReads.bind_sound h

namespace CellAccess

variable {T : Type} (cell : CellAccess T)

theorem sound_set (value : T) : Sound (cell.set value) :=
  sound_encoded _ fun encoded => (DataAccess.writes_put cell.data [] encoded).toSound

end CellAccess

/-- How a read answers when its size limit is a fixed width. -/
inductive Hardens {α : Type} (e : Failure) :
    EStateM.Result Failure Transaction α → EStateM.Result Failure Transaction α → Prop
  | ok (a : α) (tx : Transaction) : Hardens e (.ok a tx) (.ok a tx)
  | width (size limit : Nat) (tx : Transaction) :
      Hardens e (.error (.itemTooLarge size limit) tx) (.error e { tx with poisoned := true })
  | error (e' : Failure) (tx : Transaction) (h : ∀ size limit, e' ≠ .itemTooLarge size limit) :
      Hardens e (.error e' tx) (.error e' tx)

/-- Turning the size failure of a read into a hard one leaves only hard failures. -/
theorem checks_of_hardens {α : Type} {x y : TxM α} {e : Failure} (he : e.retryable = false)
    (hx : Reads x) (hlimit : ∀ tx tx', tx.Healthy → x tx ≠ .error .invalidScanLimit tx')
    (hy : ∀ tx, Hardens e (x tx) (y tx)) : Checks y := by
  have hok : ∀ tx a tx', y tx = .ok a tx' → x tx = .ok a tx' := by
    intro tx a tx' heq
    have hcase := hy tx
    rw [heq] at hcase
    cases hxtx : x tx <;> rw [hxtx] at hcase <;> cases hcase
    rfl
  have herror : ∀ tx e' tx', tx.Healthy → y tx = .error e' tx' →
      Later tx tx' ∧ e'.retryable = false ∧ tx'.poisoned = true := by
    intro tx e' tx' hh heq
    have hcase := hy tx
    rw [heq] at hcase
    cases hxtx : x tx with
    | ok a tx₁ => rw [hxtx] at hcase; cases hcase
    | error e₁ tx₁ =>
      obtain ⟨hlater, hfail⟩ := hx.error hh hxtx
      rw [hxtx] at hcase
      cases hcase with
      | width => exact ⟨⟨hlater.snapshot, hlater.staged⟩, he, rfl⟩
      | error _ _ hne =>
        have hhard : e'.retryable = false := by
          cases e'
          case itemTooLarge size limit => exact absurd rfl (hne size limit)
          case invalidScanLimit => exact absurd hxtx (hlimit tx tx' hh)
          all_goals rfl
        simp only [hhard, Bool.false_eq_true, if_false] at hfail
        exact ⟨hlater, hhard, hfail⟩
  constructor
  · constructor
    · constructor
      · exact fun hh heq => hx.ok hh (hok _ _ _ heq)
      · intro tx e' tx' hh heq
        obtain ⟨hlater, hhard, hpoison⟩ := herror tx e' tx' hh heq
        rw [hhard]
        exact ⟨hlater, hpoison⟩
    · exact fun hh heq => hx.same hh (hok _ _ _ heq)
  · exact fun hh heq => (herror _ _ _ hh heq).2.1

theorem getBounded_ne {V : Type} (data : DataAccess) (value : Codec V) (key : Bytes)
    (maxBytes : Nat) (tx tx' : Transaction) (hh : tx.Healthy) :
    DataAccess.getBounded data value key maxBytes tx ≠ .error .invalidScanLimit tx' := by
  intro heq
  obtain ⟨answer, tx₁, hread, hanswer, -, -⟩ := engineRead_cases "read bounded data"
    (fun db => db.get? (physicalKey data key)) tx
  unfold DataAccess.getBounded at heq
  rw [bind_of_ok (ensureHealthy_eq hh.sane), bind_of_ok hread] at heq
  cases hanswer with
  | refused => cases heq
  | read db =>
    have hne := DataAccess.decodeBoundedValue_ne value (db.get? (physicalKey data key)) maxBytes
    cases hres : DataAccess.decodeBoundedValue value (db.get? (physicalKey data key)) maxBytes with
    | ok a =>
      simp only [Except.bind, hres] at heq
      cases heq
    | error e =>
      simp only [Except.bind, hres] at heq hne
      cases e
      case invalidScanLimit => exact hne rfl
      all_goals cases heq

/-- A stored weight is read, or the transaction poisoned. -/
theorem checks_storedWeight (data : DataAccess) (key : Bytes) : Checks (storedWeight data key) := by
  have hhard : (Failure.codec "positive weight is not eight bytes").retryable = false := rfl
  refine checks_of_hardens hhard (DataAccess.reads_getBounded data weightCodec key 8)
    (getBounded_ne data weightCodec key 8) fun tx => ?_
  unfold storedWeight
  cases hres : DataAccess.getBounded data weightCodec key 8 tx with
  | ok a tx' => exact .ok a tx'
  | error e tx' =>
    cases e
    case itemTooLarge size limit => exact .width size limit tx'
    all_goals exact .error _ _ (by simp)

theorem checks_readWeight (data : DataAccess) (key : Bytes) : Checks (readWeight data key) := by
  refine (checks_storedWeight data key).bind fun weight => ?_
  cases weight <;> exact Checks.pure _

theorem writes_setEncoded (data : DataAccess) (key : Bytes) (weight : Nat) :
    Writes (setEncoded data key weight) := by
  unfold setEncoded
  split
  · exact DataAccess.writes_erase data key
  · exact DataAccess.writes_put data key _

theorem checkedWeight_hard (before : Nat) (difference : Int) (e : Failure)
    (h : checkedWeight before difference = .error e) : e.retryable = false := by
  unfold checkedWeight at h
  split at h <;> split at h <;> cases h <;> rfl

theorem writes_adjustEncoded (data : DataAccess) (key : Bytes) (difference : Int) :
    Writes (adjustEncoded data key difference) := by
  refine (checks_readWeight data key).toWrites.bind fun before => ?_
  refine (checks_poisonOnFailure (checkedWeight_hard before difference)).toWrites.bind fun after => ?_
  split
  · exact (writes_setEncoded data key after).bind fun _ => Writes.pure _
  · exact Writes.pure _

namespace OrderedMapAccess

variable {K V : Type} (map : OrderedMapAccess K V)

theorem sound_put (k : K) (v : V) : Sound (map.put k v) :=
  sound_encoded _ fun key => sound_encoded _ fun value =>
    (DataAccess.writes_put map.data key value).toSound

theorem sound_scan (lower upper : EncodedBound K) (direction : ScanDirection)
    (resumeAfter : Option K) (limit : ScanLimit) :
    Sound (map.scan lower upper direction resumeAfter limit) := by
  refine (checks_poisonOnError _).toReads.bind_sound fun _ => ?_
  refine (checks_poisonOnError _).toReads.bind_sound fun _ => ?_
  refine (checks_poisonOnError _).toReads.bind_sound fun _ => ?_
  exact (DataAccess.reads_scanKeySuffix map.data map.key map.value ..).toSound

end OrderedMapAccess

namespace MapPartition

variable {K V : Type} (part : MapPartition K V)

theorem checks_encodeKey (k : K) : Checks (part.encodeKey k) :=
  (checks_poisonOnError _).bind fun _ => Checks.pure _

theorem sound_encodeKey {α : Type} (k : K) {f : Bytes → TxM α} (h : ∀ key, Sound (f key)) :
    Sound (part.encodeKey k >>= f) := (part.checks_encodeKey k).toReads.bind_sound h

theorem checks_encodeResumeKey (resumeAfter : Option K) :
    Checks (part.encodeResumeKey resumeAfter) := by
  cases resumeAfter with
  | none => exact Checks.pure _
  | some k => exact (part.checks_encodeKey k).bind fun _ => Checks.pure _

theorem reads_scan (direction : ScanDirection) (resumeAfter : Option K) (limit : ScanLimit) :
    Reads (part.scan direction resumeAfter limit) :=
  (part.checks_encodeResumeKey resumeAfter).toReads.bind fun _ =>
    DataAccess.reads_scanKeySuffix part.data part.key part.value ..

theorem reads_endBounded (direction : ScanDirection) (maxBytes : Nat) :
    Reads (part.endBounded direction maxBytes) := by
  unfold endBounded
  cases hlimit : ScanLimit.new 1 maxBytes with
  | error e =>
    have he : e = .invalidScanLimit := by
      unfold ScanLimit.new at hlimit
      split at hlimit <;> cases hlimit
      rfl
    subst he
    exact Reads.rejects rfl fun _ => rfl
  | ok limit => exact (part.reads_scan direction none limit).bind fun _ => Reads.pure _

theorem sound_hasOtherKey (k : K) : Sound (part.hasOtherKey k) :=
  sound_encoded _ fun key => ((DataAccess.checks_partitionIsEmpty part.data part.start
    (some key)).bind fun _ => Checks.pure _).toSound

theorem sound_put (k : K) (v : V) : Sound (part.put k v) :=
  part.sound_encodeKey k fun key => sound_encoded _ fun value =>
    (DataAccess.writes_put part.data key value).toSound

end MapPartition

/-! ## Operations on queues -/

namespace QueueAccess

variable {T : Type} (queue : QueueAccess)

theorem checks_storedMetadata : Checks queue.storedMetadata := by
  have hhard : (Failure.corruptQueue "queue metadata exceeds its fixed width").retryable = false :=
    rfl
  refine checks_of_hardens hhard (DataAccess.reads_getBounded queue.data bytesCodec [] 24)
    (getBounded_ne queue.data bytesCodec [] 24) fun tx => ?_
  unfold storedMetadata
  cases hres : DataAccess.getBounded queue.data bytesCodec [] 24 tx with
  | ok a tx' => exact .ok a tx'
  | error e tx' =>
    cases e
    case itemTooLarge size limit => exact .width size limit tx'
    all_goals exact .error _ _ (by simp)

theorem checks_readMetadata : Checks queue.readMetadata := by
  refine queue.checks_storedMetadata.bind fun stored => ?_
  cases stored with
  | none =>
    refine (DataAccess.checks_partitionIsEmpty queue.data [] none).bind fun empty => ?_
    cases empty
    · exact checks_fail rfl
    · exact Checks.pure _
  | some encoded =>
    dsimp only
    cases decodeMetadata encoded with
    | none => exact checks_fail rfl
    | some m => exact Checks.pure _

theorem writes_writeMetadata (m : Metadata) : Writes (queue.writeMetadata m) := by
  unfold writeMetadata
  split
  · exact (checks_fail rfl).toWrites
  · exact DataAccess.writes_put queue.data [] _

theorem encodedItemBytes_hard (encodedLen : Nat) (e : Failure)
    (h : encodedItemBytes encodedLen = .error e) : e.retryable = false := by
  unfold encodedItemBytes at h
  split at h <;> cases h
  rfl

theorem reads_readFront (value : Codec T) (m : Metadata) (maxValueBytes : Nat) :
    Reads (queue.readFront value m maxValueBytes) := by
  refine (DataAccess.reads_getBounded queue.data bytesCodec _ maxValueBytes).bind fun stored => ?_
  cases stored with
  | none => exact (checks_fail rfl).toReads
  | some encoded =>
    refine (checks_recordResult (encodedItemBytes_hard encoded.length)).toReads.bind fun bytes => ?_
    split
    · exact (checks_fail rfl).toReads
    · exact (checks_poisonOnError _).toReads.bind fun _ => Reads.pure _

theorem checks_checkTail (m : Metadata) : Checks (queue.checkTail m) := by
  unfold checkTail
  split
  · exact Checks.pure _
  · refine (DataAccess.checks_containsKey queue.data _).bind fun found => ?_
    split
    · exact checks_fail rfl
    · exact Checks.pure _

theorem checks_checkNext (m : Metadata) : Checks (queue.checkNext m) := by
  unfold checkNext
  split
  · exact Checks.pure _
  · refine (DataAccess.checks_containsKey queue.data _).bind fun found => ?_
    split
    · exact checks_fail rfl
    · exact Checks.pure _

theorem writes_tryPush (value : Codec T) (item : T) (capacity : Nat) :
    Writes (queue.tryPush value item capacity) := by
  refine queue.checks_readMetadata.toWrites.bind fun m => ?_
  refine (queue.checks_checkTail m).toWrites.bind fun _ => ?_
  refine (checks_poisonOnError _).toWrites.bind fun encoded => ?_
  refine (checks_recordResult (encodedItemBytes_hard encoded.length)).toWrites.bind fun bytes => ?_
  split
  · exact Writes.pure _
  · split
    · exact (checks_fail rfl).toWrites
    · refine (queue.checks_checkNext m).toWrites.bind fun _ => ?_
      split
      · exact (checks_fail rfl).toWrites
      · refine (DataAccess.writes_put queue.data _ encoded).bind fun _ => ?_
        exact (queue.writes_writeMetadata _).bind fun _ => Writes.pure _

theorem writes_finishFrontRemoval (head tail queuedBytes : Nat) :
    Writes (queue.finishFrontRemoval head tail queuedBytes) := by
  unfold finishFrontRemoval
  split
  · split
    · exact (checks_fail rfl).toWrites
    · refine (DataAccess.writes_erase queue.data []).bind fun _ => ?_
      refine (DataAccess.checks_partitionIsEmpty queue.data [] none).toWrites.bind fun empty => ?_
      split
      · exact (checks_fail rfl).toWrites
      · exact Writes.pure _
  · refine (DataAccess.checks_containsKey queue.data _).toWrites.bind fun found => ?_
    split
    · exact (checks_fail rfl).toWrites
    · exact (queue.writes_writeMetadata _).bind fun _ => Writes.pure _

/-- The front is read before anything is removed. -/
theorem sound_popFrontBounded (value : Codec T) (maxValueBytes : Nat) :
    Sound (queue.popFrontBounded value maxValueBytes) := by
  refine queue.checks_readMetadata.toReads.bind_sound fun m => ?_
  split
  · exact (Reads.pure _).toSound
  · refine (queue.reads_readFront value m maxValueBytes).toSound.bind_writes fun front => ?_
    refine (DataAccess.writes_erase queue.data _).bind fun _ => ?_
    exact (queue.writes_finishFrontRemoval _ _ _).bind fun _ => Writes.pure _

theorem writes_discardLoop (tail entries head queuedBytes : Nat) :
    Writes (queue.discardLoop tail entries head queuedBytes) := by
  induction entries generalizing head queuedBytes with
  | zero => exact Writes.pure _
  | succ entries ih =>
    unfold discardLoop
    split
    · exact Writes.pure _
    · refine (DataAccess.checks_valueLen queue.data _).toWrites.bind fun length => ?_
      cases length with
      | none => exact (checks_fail rfl).toWrites
      | some length =>
        refine (checks_recordResult (encodedItemBytes_hard length)).toWrites.bind fun bytes => ?_
        split
        · exact (checks_fail rfl).toWrites
        · exact (DataAccess.writes_erase queue.data _).bind fun _ => ih _ _

theorem writes_discardFront (maxEntries : Nat) : Writes (queue.discardFront maxEntries) := by
  refine queue.checks_readMetadata.toWrites.bind fun m => ?_
  split
  · exact Writes.pure _
  · refine (queue.writes_discardLoop _ _ _ _).bind fun removed => ?_
    obtain ⟨head, queuedBytes⟩ := removed
    dsimp only
    split
    · exact Writes.pure _
    · exact queue.writes_finishFrontRemoval _ _ _

end QueueAccess

end Dogpaddle.Store
