import Dogpaddle.Store.Atomic
import Dogpaddle.Store.Fifo

/-!
# Histories of a queue

A history is a list of committed transactions and one that is still open. Whatever the
operations, capacities and limits are, the queue answers as the list of its items does,
until a push finds its sequence numbers exhausted; and the namespace holds exactly the
entries, the byte total and the record of that list.
-/

namespace Dogpaddle.Store

open Lib

/-! ## Histories -/

namespace QueueAccess

variable (queue : QueueAccess)

/-- Transactions one after another, each committed; one that cannot commit ends them. -/
def runTransactions (storeToken : Nat) :
    List (List QueueOp) → Database → List (Except Failure QueueResult) × Database
  | [], db => ([], db)
  | ops :: transactions, db =>
    let (results, tx) := queue.run ops (.start db storeToken [])
    match tx.commit db false with
    | (.error _, db) => (results, db)
    | (.ok (), db) =>
      let (more, db) := runTransactions storeToken transactions db
      (results ++ more, db)

/-- Committed transactions and the operations of an open one. -/
def history (storeToken : Nat) (committed : List (List QueueOp)) (ops : List QueueOp)
    (db : Database) : List (Except Failure QueueResult) × Transaction :=
  let (results, db) := queue.runTransactions storeToken committed db
  let (more, tx) := queue.run ops (.start db storeToken [])
  (results ++ more, tx)

end QueueAccess

namespace Fifo

/-- An exhausted sequence undoes its transaction and ends the history. -/
def runTransactions : List (List QueueOp) → Fifo → List (Except Failure QueueResult) × Fifo
  | [], f => ([], f)
  | ops :: transactions, f =>
    let (results, f') := Fifo.run ops f
    if .error .queueSequenceExhausted ∈ results then (results, f)
    else
      let (more, f'') := runTransactions transactions f'
      (results ++ more, f'')

def history (committed : List (List QueueOp)) (ops : List QueueOp) (f : Fifo) :
    List (Except Failure QueueResult) × Fifo :=
  let (results, f) := Fifo.runTransactions committed f
  let (more, f) := Fifo.run ops f
  (results ++ more, f)

end Fifo

/-- A namespace holds exactly the entries, the byte total and the record of a queue. -/
structure Fifo.StoredAs (f : Fifo) (stored : Bytes → Option Bytes) : Prop where
  entries : ∀ i item, f.items[i]? = some item → stored (encodeSequence (f.head + i)) = some item
  positions : ∀ key value, stored key = some value → key ≠ [] →
    ∃ n, f.head ≤ n ∧ n < f.head + f.items.length ∧ key = encodeSequence n
  metadata : f.items ≠ [] → stored [] = some (encodeMetadata
    ⟨f.head, f.head + f.items.length, (f.items.map fun item => item.length + 8).sum⟩)
  absent : f.items = [] → stored [] = none

theorem Fifo.storedAs_layout {f : Fifo} (h : f.Bounded) : f.StoredAs f.layout where
  entries i item hitem := by
    have hi : i < f.items.length := (List.getElem?_eq_some_iff.mp hitem).1
    have hpushed := h.pushed_lt
    have heq := Fifo.pushed_eq h
    unfold Fifo.layout
    rw [cells_sequence _ _ _ (by omega), if_pos (by omega), Nat.add_sub_cancel_left, hitem]
  positions key value hstored hkey := by
    unfold Fifo.layout cells at hstored
    rw [if_neg hkey] at hstored
    cases hn : decodeSequence key with
    | none => rw [hn] at hstored; cases hstored
    | some n =>
      rw [hn] at hstored
      dsimp only at hstored
      split at hstored
      · next hle =>
        have hlt := (List.getElem?_eq_some_iff.mp hstored).1
        exact ⟨n, hle, by omega, decodeSequence_eq_some hn⟩
      · cases hstored
  metadata hne := by
    show f.record = _
    unfold Fifo.record
    rw [if_neg hne, Fifo.metadata_eq h]
    rfl
  absent hempty := if_pos hempty

/-! ## Runs refine -/

namespace QueueAccess

variable {queue : QueueAccess} {tx : Transaction} {f : Fifo}

/-- How a run may end. -/
inductive RunRefines (queue : QueueAccess) :
    List (Except Failure QueueResult) × Transaction →
    List (Except Failure QueueResult) × Fifo → Prop
  | held {results : List (Except Failure QueueResult)} {tx : Transaction} {f : Fifo}
      (hstate : QueueState queue tx f) (hmem : .error .queueSequenceExhausted ∉ results) :
      RunRefines queue (results, tx) (results, f)
  | exhausted {results : List (Except Failure QueueResult)} {tx : Transaction} {f : Fifo}
      (hp : tx.poisoned = true) (hbounded : f.Bounded) (hholds : contents queue.data tx = f.layout)
      (hmem : .error .queueSequenceExhausted ∈ results) : RunRefines queue (results, tx) (results, f)

theorem RunRefines.results_eq {concrete : List (Except Failure QueueResult) × Transaction}
    {abstract : List (Except Failure QueueResult) × Fifo} (h : RunRefines queue concrete abstract) :
    concrete.1 = abstract.1 := by
  cases h <;> rfl

theorem run_refines (hdata : (prefixSuccessor queue.data).isSome = true) (ops : List QueueOp)
    (h : QueueState queue tx f) : RunRefines queue (queue.run ops tx) (Fifo.run ops f) := by
  induction ops generalizing tx f with
  | nil => exact .held h (by simp)
  | cons op ops ih =>
    have hstep := step_refines hdata h op
    unfold QueueAccess.run Fifo.run
    generalize queue.step tx op = concrete at hstep ⊢
    generalize f.step op = abstract at hstep ⊢
    cases hstep with
    | next hresult hstate =>
      have hhealthy := hstate.calm.healthy
      have hrest := ih hstate
      dsimp only
      rw [if_neg (by rw [hhealthy]; simp), if_neg hresult]
      generalize queue.run ops _ = concrete at hrest ⊢
      generalize Fifo.run ops _ = abstract at hrest ⊢
      cases hrest with
      | held hstate' hmem => exact .held hstate' (by simpa [Ne.symm hresult] using hmem)
      | exhausted hp hbounded hholds hmem =>
        exact .exhausted hp hbounded hholds (List.mem_cons_of_mem _ hmem)
    | exhausted => exact .exhausted rfl h.bounded h.holds (by simp)

/-! ## Commits -/

theorem perform_later {α : Type} {x : TxM α} (wrap : α → QueueResult) (hx : Sound x)
    (hh : tx.Healthy) : Transaction.Later tx (perform wrap x tx).2 ∧
      ((perform wrap x tx).2.poisoned = true ∨ (perform wrap x tx).2.Healthy) := by
  unfold perform
  cases hres : x tx with
  | ok a tx' =>
    obtain ⟨hh', hlater⟩ := hx.ok hh hres
    exact ⟨hlater, .inr hh'⟩
  | error e tx' =>
    obtain ⟨hlater, hcase⟩ := hx.error hh hres
    refine ⟨hlater, ?_⟩
    split at hcase
    · exact .inr (hcase.2.healthy hh hcase.1)
    · exact .inl hcase

theorem step_later (queue : QueueAccess) (op : QueueOp) (hh : tx.Healthy) :
    Transaction.Later tx (queue.step tx op).2 ∧
      ((queue.step tx op).2.poisoned = true ∨ (queue.step tx op).2.Healthy) := by
  cases op with
  | tryPush item capacity => exact perform_later _ (queue.writes_tryPush _ _ _).toSound hh
  | popFront maxValueBytes => exact perform_later _ (queue.sound_popFrontBounded _ _) hh
  | front maxValueBytes => exact ⟨.refl tx, .inr hh⟩
  | discardFront maxEntries => exact perform_later _ (queue.writes_discardFront _).toSound hh
  | isEmpty =>
    exact perform_later _ (queue.checks_readMetadata.bind fun _ => Checks.pure _).toSound hh
  | queuedBytes =>
    exact perform_later _ (queue.checks_readMetadata.bind fun _ => Checks.pure _).toSound hh

theorem run_later (queue : QueueAccess) (ops : List QueueOp) (hh : tx.Healthy) :
    Transaction.Later tx (queue.run ops tx).2 ∧
      ((queue.run ops tx).2.poisoned = true ∨ (queue.run ops tx).2.Healthy) := by
  induction ops generalizing tx with
  | nil => exact ⟨.refl tx, .inr hh⟩
  | cons op ops ih =>
    obtain ⟨hlater, hcase⟩ := step_later queue op hh
    unfold QueueAccess.run
    generalize queue.step tx op = stepped at hlater hcase ⊢
    dsimp only
    split
    · next hp => exact ⟨hlater, .inl hp⟩
    · next hp =>
      obtain ⟨hlater', hcase'⟩ := ih (hcase.resolve_left hp)
      exact ⟨hlater.trans hlater', hcase'⟩

/-- A commit of a healthy transaction publishes what it sees. -/
theorem commit_healthy {db : Database} (hsnapshot : tx.snapshot = db) (hh : tx.Healthy) :
    tx.commit db false = (.ok (), tx.view) := by
  unfold Transaction.commit Transaction.view
  rw [if_neg (by rw [hh.sane]; simp), hsnapshot]
  cases hw : tx.hasWrites with
  | true => rfl
  | false =>
    rw [hh.tidy hw]
    rfl

/-- The database holds the queue. -/
def DatabaseHolds (queue : QueueAccess) (db : Database) (f : Fifo) : Prop :=
  f.Bounded ∧ (fun key => db.get? (physicalKey queue.data key)) = f.layout

theorem DatabaseHolds.start {db : Database} (h : DatabaseHolds queue db f) (storeToken : Nat) :
    QueueState queue (.start db storeToken []) f := ⟨⟨rfl, rfl⟩, h.1, h.2⟩

theorem runTransactions_refines (hdata : (prefixSuccessor queue.data).isSome = true)
    (storeToken : Nat) (transactions : List (List QueueOp)) {db : Database}
    (h : DatabaseHolds queue db f) :
    (queue.runTransactions storeToken transactions db).1 = (Fifo.runTransactions transactions f).1 ∧
      DatabaseHolds queue (queue.runTransactions storeToken transactions db).2
        (Fifo.runTransactions transactions f).2 := by
  induction transactions generalizing db f with
  | nil => exact ⟨rfl, h⟩
  | cons ops transactions ih =>
    have hrun := run_refines hdata ops (h.start storeToken)
    have hstart : (Transaction.start db storeToken []).Healthy := ⟨rfl, fun _ => rfl⟩
    have hlater := run_later queue ops hstart
    unfold QueueAccess.runTransactions Fifo.runTransactions
    generalize queue.run ops (.start db storeToken []) = concrete at hrun hlater ⊢
    generalize Fifo.run ops f = abstract at hrun ⊢
    cases hrun with
    | @held results tx' f' hstate hmem =>
      obtain ⟨hlater, hcase⟩ := hlater
      have hhealthy : tx'.Healthy := by
        refine hcase.resolve_left ?_
        simp only [hstate.calm.healthy]
        simp
      have hcommit : tx'.commit db false = (.ok (), tx'.view) :=
        commit_healthy hlater.snapshot hhealthy
      dsimp only
      rw [if_neg hmem, hcommit]
      have hdb : DatabaseHolds queue tx'.view f' := ⟨hstate.bounded, hstate.holds⟩
      obtain ⟨hresults, hholds⟩ := ih hdb
      exact ⟨congrArg _ hresults, hholds⟩
    | @exhausted results tx' f' hp hbounded hholds hmem =>
      have hcommit : tx'.commit db false = (.error .transactionPoisoned, db) := if_pos hp
      dsimp only
      rw [if_pos hmem, hcommit]
      exact ⟨rfl, h⟩

/-- The open transaction of a history holds the queue; it is poisoned only when the sequence
numbers are exhausted. -/
theorem history_refines (hdata : (prefixSuccessor queue.data).isSome = true) (storeToken : Nat)
    (committed : List (List QueueOp)) (ops : List QueueOp) {db : Database}
    (h : DatabaseHolds queue db f) :
    (queue.history storeToken committed ops db).1 = (Fifo.history committed ops f).1 ∧
      (Fifo.history committed ops f).2.Bounded ∧
      contents queue.data (queue.history storeToken committed ops db).2 =
        (Fifo.history committed ops f).2.layout ∧
      ((queue.history storeToken committed ops db).2.poisoned = false →
        QueueState queue (queue.history storeToken committed ops db).2
          (Fifo.history committed ops f).2) := by
  obtain ⟨hresults, hdb⟩ := runTransactions_refines hdata storeToken committed h
  have hrun := run_refines hdata ops (hdb.start storeToken)
  unfold QueueAccess.history Fifo.history
  generalize queue.runTransactions storeToken committed db = committed at hresults hrun ⊢
  dsimp only
  rw [hresults]
  generalize queue.run ops _ = concrete at hrun ⊢
  generalize Fifo.run ops _ = abstract at hrun ⊢
  cases hrun with
  | held hstate hmem => exact ⟨rfl, hstate.bounded, hstate.holds, fun _ => hstate⟩
  | exhausted hp hbounded hholds hmem =>
    refine ⟨rfl, hbounded, hholds, fun hc => ?_⟩
    rw [hp] at hc
    cases hc

/-! ## Failures change nothing -/

/-- A push without room and a read of an item that is too large leave the transaction as it
is. -/
theorem step_unchanged (hdata : (prefixSuccessor queue.data).isSome = true)
    (h : QueueState queue tx f) (op : QueueOp)
    (hresult : (queue.step tx op).1 = .ok (.accepted false) ∨
      ∃ size limit, (queue.step tx op).1 = .error (.itemTooLarge size limit)) :
    (queue.step tx op).2 = tx := by
  cases op with
  | front maxValueBytes => rfl
  | tryPush item capacity =>
    have hpush := tryPush_eq hdata h item capacity
    split at hpush
    · split at hpush
      · have hstep : queue.step tx (.tryPush item capacity) = _ := perform_error _ hpush
        rw [hstep] at hresult
        simp at hresult
      · obtain ⟨tx', heq, -⟩ := hpush
        have hstep : queue.step tx (.tryPush item capacity) = _ := perform_ok _ heq
        rw [hstep] at hresult
        simp at hresult
    · have hstep : queue.step tx (.tryPush item capacity) = _ := perform_ok _ hpush
      rw [hstep]
  | popFront maxValueBytes =>
    cases hitems : f.items with
    | nil =>
      have hpop : queue.popFrontBounded bytesCodec maxValueBytes tx = .ok none tx := by
        unfold popFrontBounded
        rw [bind_of_ok (readMetadata_eq hdata h), isEmpty_metadata h.bounded, hitems]
        rfl
      have hstep : queue.step tx (.popFront maxValueBytes) = _ := perform_ok _ hpop
      rw [hstep]
    | cons item rest =>
      have hpop := popFrontBounded_eq hdata h hitems maxValueBytes
      split at hpop
      · have hstep : queue.step tx (.popFront maxValueBytes) = _ := perform_error _ hpop
        rw [hstep]
      · obtain ⟨tx', heq, -⟩ := hpop
        have hstep : queue.step tx (.popFront maxValueBytes) = _ := perform_ok _ heq
        rw [hstep] at hresult
        simp at hresult
  | discardFront maxEntries =>
    obtain ⟨tx', heq, -⟩ := discardFront_eq hdata h maxEntries
    have hstep : queue.step tx (.discardFront maxEntries) = _ := perform_ok _ heq
    rw [hstep] at hresult
    simp at hresult
  | isEmpty =>
    have hempty : queue.isEmpty tx = _ := bind_of_ok (readMetadata_eq hdata h)
    have hstep : queue.step tx .isEmpty = _ := perform_ok _ hempty
    rw [hstep]
  | queuedBytes =>
    have hbytes : queue.queuedBytes tx = _ := bind_of_ok (readMetadata_eq hdata h)
    have hstep : queue.step tx .queuedBytes = _ := perform_ok _ hbytes
    rw [hstep]

/-! ## Discarding is popping -/

theorem Fifo.step_popFront {limit : Nat} (h : f.Bounded) (hlimit : ∀ item ∈ f.items, item.length ≤ limit) :
    (f.step (.popFront limit)).1 ≠ .error .queueSequenceExhausted ∧
      (f.step (.popFront limit)).2 = remainder f.pushed (f.items.drop 1) := by
  cases hitems : f.items with
  | nil =>
    have hstep : f.step (.popFront limit) = (.ok (.popped none), f) :=
      Fifo.step_keep h (by rw [hitems]; rfl) (by simp)
    have hself := remainder_self h
    rw [hitems] at hself
    rw [hstep]
    exact ⟨by simp, hself.symm⟩
  | cons item rest =>
    have hle := hlimit item (by rw [hitems]; simp)
    have hlist : listStep f.items (.popFront limit) =
        (.ok (.popped (some (item, rest.isEmpty))), rest) := by
      rw [hitems]
      exact if_neg (by omega)
    rw [Fifo.step_remove hlist (by simp)]
    exact ⟨by simp, rfl⟩

theorem Fifo.run_pops {limit : Nat} (n : Nat) (h : f.Bounded)
    (hlimit : ∀ item ∈ f.items, item.length ≤ limit) :
    (Fifo.run (List.replicate n (.popFront limit)) f).2 = remainder f.pushed (f.items.drop n) := by
  induction n generalizing f with
  | zero => exact (remainder_self h).symm
  | succ n ih =>
    obtain ⟨hresult, hstep⟩ := Fifo.step_popFront h hlimit
    have hmem : ∀ item ∈ f.items.drop 1, item ∈ f.items := fun _ hi => List.mem_of_mem_drop hi
    have hdrop : queueBytes (f.items.drop 1) ≤ queueBytes f.items := by
      cases f.items with
      | nil => exact Nat.le_refl _
      | cons item rest =>
        rw [queueBytes_cons]
        exact Nat.le_add_left _ _
    have hlength : (f.items.drop 1).length ≤ f.items.length := by
      rw [List.length_drop]
      omega
    have hbounded : (remainder f.pushed (f.items.drop 1)).Bounded :=
      remainder_bounded (le_trans hlength h.positions) h.pushed_lt
        (lt_of_le_of_lt hdrop h.bytes_lt) fun item hi => h.items_lt item (hmem item hi)
    rw [List.replicate_succ]
    unfold Fifo.run
    generalize f.step (.popFront limit) = stepped at hresult hstep ⊢
    dsimp only
    rw [if_neg hresult, hstep]
    show (Fifo.run _ _).2 = _
    rw [ih hbounded fun item hi => hlimit item (hmem item hi)]
    unfold remainder
    rw [List.drop_drop, Nat.add_comm 1 n]
    by_cases hnil : f.items.drop (n + 1) = []
    · rw [if_pos hnil, if_pos hnil]
    · have hone : f.items.drop 1 ≠ [] := by
        intro hone
        apply hnil
        rw [Nat.add_comm n 1, ← List.drop_drop, hone, List.drop_nil]
      rw [if_neg hnil, if_neg hnil, if_neg hone]

/-- Discarding entries leaves what as many pops leave. -/
theorem discardFront_eq_pops (hdata : (prefixSuccessor queue.data).isSome = true)
    (h : QueueState queue tx f) {limit : Nat} (hlimit : ∀ item ∈ f.items, item.length ≤ limit)
    (n : Nat) : contents queue.data (queue.step tx (.discardFront n)).2 =
      contents queue.data (queue.run (List.replicate n (.popFront limit)) tx).2 := by
  obtain ⟨tx', heq, hstate⟩ := discardFront_eq hdata h n
  have hstep : queue.step tx (.discardFront n) = _ := perform_ok _ heq
  have hpops := Fifo.run_pops n h.bounded hlimit
  have hrun := run_refines hdata (List.replicate n (.popFront limit)) h
  rw [hstep]
  show contents queue.data tx' = _
  rw [hstate.holds, ← hpops]
  generalize queue.run _ tx = concrete at hrun ⊢
  generalize Fifo.run _ f = abstract at hrun ⊢
  cases hrun with
  | held hstate' _ => exact hstate'.holds.symm
  | exhausted _ _ hholds _ => exact hholds.symm

end QueueAccess

/-! ## Against the plain list -/

/-- A list operation answers, or rejects the size of an item. -/
theorem listStep_result (items : List Bytes) (op : QueueOp) :
    (∃ result, (listStep items op).1 = .ok result) ∨
      ∃ size limit, (listStep items op).1 = .error (.itemTooLarge size limit) := by
  cases op with
  | tryPush item capacity =>
    by_cases hfits : queueBytes items + (item.val.length + 8) ≤ capacity.toNat
    · exact .inl ⟨_, congrArg Prod.fst (if_pos hfits)⟩
    · exact .inl ⟨_, congrArg Prod.fst (if_neg hfits)⟩
  | popFront maxValueBytes =>
    cases items with
    | nil => exact .inl ⟨_, rfl⟩
    | cons item rest =>
      by_cases hlarge : maxValueBytes < item.length
      · exact .inr ⟨_, _, congrArg Prod.fst (if_pos hlarge)⟩
      · exact .inl ⟨_, congrArg Prod.fst (if_neg hlarge)⟩
  | front maxValueBytes =>
    cases items with
    | nil => exact .inl ⟨_, rfl⟩
    | cons item rest =>
      by_cases hlarge : maxValueBytes < item.length
      · exact .inr ⟨_, _, congrArg Prod.fst (if_pos hlarge)⟩
      · exact .inl ⟨_, congrArg Prod.fst (if_neg hlarge)⟩
  | discardFront maxEntries => exact .inl ⟨_, rfl⟩
  | isEmpty => exact .inl ⟨_, rfl⟩
  | queuedBytes => exact .inl ⟨_, rfl⟩

theorem listRun_result (ops : List QueueOp) (items : List Bytes) {e : Failure}
    (h : .error e ∈ (listRun ops items).1) : ∃ size limit, e = .itemTooLarge size limit := by
  induction ops generalizing items with
  | nil => simp [listRun] at h
  | cons op ops ih =>
    unfold listRun at h
    rcases List.mem_cons.mp h with h | h
    · rcases listStep_result items op with ⟨result, hok⟩ | ⟨size, limit, herr⟩
      · rw [hok] at h
        cases h
      · rw [herr] at h
        exact ⟨size, limit, Except.error.inj h⟩
    · exact ih _ h

theorem listRun_append (l r : List QueueOp) (items : List Bytes) :
    listRun (l ++ r) items = ((listRun l items).1 ++ (listRun r (listRun l items).2).1,
      (listRun r (listRun l items).2).2) := by
  induction l generalizing items with
  | nil => rfl
  | cons op l ih =>
    show ((listStep items op).1 :: (listRun (l ++ r) _).1, (listRun (l ++ r) _).2) = _
    rw [ih]
    rfl

namespace Fifo

variable {f : Fifo}

/-- Unless the sequence is exhausted, an operation answers as the list does. -/
theorem step_list (op : QueueOp) :
    (f.step op).1 = .error .queueSequenceExhausted ∨
      ((f.step op).1 = (listStep f.items op).1 ∧ (f.step op).2.items = (listStep f.items op).2 ∧
        (f.step op).2.pushed ≤ f.pushed + 1 ∧ (f.step op).1 ≠ .error .queueSequenceExhausted) := by
  have hresult := listStep_result f.items op
  unfold Fifo.step
  dsimp only
  split
  · exact .inl rfl
  · refine .inr ⟨rfl, rfl, ?_, ?_⟩
    · dsimp only
      split
      · exact Nat.zero_le _
      · split
        · exact Nat.le_refl _
        · exact Nat.le_succ _
    · rcases hresult with ⟨result, hok⟩ | ⟨size, limit, herr⟩
      · rw [hok]
        simp
      · rw [herr]
        simp

theorem run_list (ops : List QueueOp) (f : Fifo)
    (h : .error .queueSequenceExhausted ∉ (Fifo.run ops f).1) :
    (Fifo.run ops f).1 = (listRun ops f.items).1 ∧
      (Fifo.run ops f).2.items = (listRun ops f.items).2 := by
  induction ops generalizing f with
  | nil => exact ⟨rfl, rfl⟩
  | cons op ops ih =>
    have hstep := step_list (f := f) op
    unfold Fifo.run at h ⊢
    unfold listRun
    generalize f.step op = stepped at hstep h ⊢
    rcases hstep with hex | ⟨hresult, hitems, -, hne⟩
    · dsimp only at h
      rw [if_pos hex] at h
      exact absurd (List.mem_singleton.mpr hex.symm) h
    · dsimp only at h ⊢
      rw [if_neg hne] at h ⊢
      obtain ⟨hrest, hlast⟩ := ih stepped.2 fun hc => h (List.mem_cons_of_mem _ hc)
      rw [hitems] at hrest hlast
      exact ⟨by rw [hrest, hresult], hlast⟩

/-- The sequence cannot be exhausted by fewer operations than there are positions. -/
theorem run_not_exhausted (ops : List QueueOp) (f : Fifo) (h : f.pushed + ops.length < 2 ^ 64) :
    .error .queueSequenceExhausted ∉ (Fifo.run ops f).1 ∧
      (Fifo.run ops f).2.pushed ≤ f.pushed + ops.length := by
  induction ops generalizing f with
  | nil => exact ⟨by simp [Fifo.run], Nat.le_refl _⟩
  | cons op ops ih =>
    rw [List.length_cons] at h ⊢
    have hstep := step_list (f := f) op
    have hbound : (f.step op).1 ≠ .error .queueSequenceExhausted := by
      have hresult := listStep_result f.items op
      unfold Fifo.step
      dsimp only
      rw [if_neg (by omega)]
      rcases hresult with ⟨result, hok⟩ | ⟨size, limit, herr⟩
      · rw [hok]
        simp
      · rw [herr]
        simp
    obtain ⟨-, -, hpushed, -⟩ := hstep.resolve_left hbound
    unfold Fifo.run
    generalize f.step op = stepped at hbound hpushed ⊢
    dsimp only
    rw [if_neg hbound]
    obtain ⟨hmem, hle⟩ := ih stepped.2 (by omega)
    refine ⟨?_, by dsimp only; omega⟩
    intro hc
    rcases List.mem_cons.mp hc with hc | hc
    · exact hbound hc.symm
    · exact hmem hc

theorem runTransactions_list (transactions : List (List QueueOp)) (f : Fifo)
    (h : .error .queueSequenceExhausted ∉ (runTransactions transactions f).1) :
    (runTransactions transactions f).1 = (listRun transactions.flatten f.items).1 ∧
      (runTransactions transactions f).2.items = (listRun transactions.flatten f.items).2 := by
  induction transactions generalizing f with
  | nil => exact ⟨rfl, rfl⟩
  | cons ops transactions ih =>
    have hrun := run_list ops f
    unfold runTransactions at h ⊢
    rw [List.flatten_cons, listRun_append]
    generalize Fifo.run ops f = ran at hrun h ⊢
    dsimp only at h ⊢
    by_cases hmem : .error .queueSequenceExhausted ∈ ran.1
    · rw [if_pos hmem] at h
      exact absurd hmem h
    · rw [if_neg hmem] at h ⊢
      obtain ⟨hresults, hitems⟩ := hrun hmem
      obtain ⟨hrest, hlast⟩ := ih ran.2 fun hc => h (List.mem_append_right _ hc)
      rw [hitems] at hrest hlast
      exact ⟨by rw [hrest, hresults], hlast⟩

theorem runTransactions_not_exhausted (transactions : List (List QueueOp)) (f : Fifo)
    (h : f.pushed + transactions.flatten.length < 2 ^ 64) :
    .error .queueSequenceExhausted ∉ (runTransactions transactions f).1 ∧
      (runTransactions transactions f).2.pushed ≤ f.pushed + transactions.flatten.length := by
  induction transactions generalizing f with
  | nil => exact ⟨by simp [runTransactions], Nat.le_refl _⟩
  | cons ops transactions ih =>
    rw [List.flatten_cons, List.length_append] at h ⊢
    obtain ⟨hmem, hpushed⟩ := run_not_exhausted ops f (by omega)
    unfold runTransactions
    generalize Fifo.run ops f = ran at hmem hpushed ⊢
    dsimp only
    rw [if_neg hmem]
    obtain ⟨hrest, hle⟩ := ih ran.2 (by omega)
    refine ⟨?_, by dsimp only; omega⟩
    intro hc
    rcases List.mem_append.mp hc with hc | hc
    · exact hmem hc
    · exact hrest hc

/-- Unless the sequence is exhausted, a history answers as the plain list does. -/
theorem history_list (committed : List (List QueueOp)) (ops : List QueueOp) (f : Fifo)
    (h : .error .queueSequenceExhausted ∉ (history committed ops f).1) :
    (history committed ops f).1 = (listRun (committed.flatten ++ ops) f.items).1 ∧
      (history committed ops f).2.items = (listRun (committed.flatten ++ ops) f.items).2 := by
  have hcommitted := runTransactions_list committed f
  unfold history at h ⊢
  generalize runTransactions committed f = before at hcommitted h ⊢
  dsimp only at h ⊢
  obtain ⟨hresults, hitems⟩ := hcommitted fun hc => h (List.mem_append_left _ hc)
  obtain ⟨hmore, hlast⟩ := run_list ops before.2 fun hc => h (List.mem_append_right _ hc)
  rw [hitems] at hmore hlast
  rw [listRun_append]
  exact ⟨by rw [hmore, hresults], hlast⟩

theorem history_not_exhausted (committed : List (List QueueOp)) (ops : List QueueOp) (f : Fifo)
    (h : f.pushed + (committed.flatten ++ ops).length < 2 ^ 64) :
    .error .queueSequenceExhausted ∉ (history committed ops f).1 := by
  rw [List.length_append] at h
  obtain ⟨hmem, hpushed⟩ := runTransactions_not_exhausted committed f (by omega)
  unfold history
  generalize runTransactions committed f = before at hmem hpushed ⊢
  dsimp only
  obtain ⟨hmore, -⟩ := run_not_exhausted ops before.2 (by omega)
  intro hc
  rcases List.mem_append.mp hc with hc | hc
  · exact hmem hc
  · exact hmore hc

/-- The failures a queue may report. -/
theorem step_failure (op : QueueOp) {e : Failure} (h : (f.step op).1 = .error e) :
    e = .queueSequenceExhausted ∨ ∃ size limit, e = .itemTooLarge size limit := by
  rcases step_list (f := f) op with hex | ⟨hresult, -⟩
  · rw [hex] at h
    exact .inl (Except.error.inj h).symm
  · rw [hresult] at h
    rcases listStep_result f.items op with ⟨result, hok⟩ | ⟨size, limit, herr⟩
    · rw [hok] at h
      cases h
    · rw [herr] at h
      exact .inr ⟨size, limit, (Except.error.inj h).symm⟩

theorem run_failure (ops : List QueueOp) (f : Fifo) {e : Failure}
    (h : .error e ∈ (Fifo.run ops f).1) :
    e = .queueSequenceExhausted ∨ ∃ size limit, e = .itemTooLarge size limit := by
  induction ops generalizing f with
  | nil => simp [Fifo.run] at h
  | cons op ops ih =>
    have hstep := step_failure (f := f) op (e := e)
    unfold Fifo.run at h
    generalize f.step op = stepped at hstep h
    dsimp only at h
    split at h
    · exact hstep (List.mem_singleton.mp h).symm
    · rcases List.mem_cons.mp h with h | h
      · exact hstep h.symm
      · exact ih _ h

theorem runTransactions_failure (transactions : List (List QueueOp)) (f : Fifo) {e : Failure}
    (h : .error e ∈ (runTransactions transactions f).1) :
    e = .queueSequenceExhausted ∨ ∃ size limit, e = .itemTooLarge size limit := by
  induction transactions generalizing f with
  | nil => simp [runTransactions] at h
  | cons ops transactions ih =>
    have hrun := run_failure ops f (e := e)
    unfold runTransactions at h
    generalize Fifo.run ops f = ran at hrun h
    dsimp only at h
    split at h
    · exact hrun h
    · rcases List.mem_append.mp h with h | h
      · exact hrun h
      · exact ih _ h

theorem history_failure (committed : List (List QueueOp)) (ops : List QueueOp) (f : Fifo)
    {e : Failure} (h : .error e ∈ (history committed ops f).1) :
    e = .queueSequenceExhausted ∨ ∃ size limit, e = .itemTooLarge size limit := by
  rcases List.mem_append.mp h with h | h
  · exact runTransactions_failure committed f h
  · exact run_failure ops _ h

end Fifo

/-! ## From an empty namespace -/

theorem Fifo.empty_bounded : Fifo.Bounded ⟨[], 0⟩ :=
  ⟨fun _ => rfl, Nat.le_refl 0, by decide, by decide, by simp⟩

theorem QueueAccess.databaseHolds_empty {queue : QueueAccess} {db : Database}
    (h : ∀ key, db.get? (physicalKey queue.data key) = none) :
    QueueAccess.DatabaseHolds queue db ⟨[], 0⟩ := by
  refine ⟨Fifo.empty_bounded, ?_⟩
  funext key
  rw [h key, Fifo.layout]
  exact (congrFun (cells_empty 0) key).symm

/-- A push of an empty item. -/
def pushEmpty : QueueOp := .tryPush ⟨[], by decide⟩ 100

/-- Pushes and pops that never let the queue become empty. -/
def rounds (n : Nat) : List QueueOp := (List.replicate n [pushEmpty, .popFront 0]).flatten

theorem step_pushEmpty (items : List Bytes) (pushed : Nat) (h : queueBytes items + 8 ≤ 100) :
    Fifo.step ⟨items, pushed⟩ pushEmpty = if pushed + 1 ≥ 2 ^ 64 then
      (.error .queueSequenceExhausted, ⟨items, pushed⟩)
      else (.ok (.accepted true), ⟨items ++ [[]], pushed + 1⟩) := QueueAccess.Fifo.step_push h

theorem rounds_exhaust (n pushed : Nat) (h : 2 ^ 64 ≤ pushed + n + 1) :
    .error .queueSequenceExhausted ∈
      (Fifo.run (rounds n ++ [pushEmpty]) ⟨[[]], pushed⟩).1 := by
  have hpush := step_pushEmpty [[]] pushed (by decide)
  by_cases hexhausted : pushed + 1 ≥ 2 ^ 64
  · have hstep := hpush
    rw [if_pos hexhausted] at hstep
    have hrun : ∀ rest, .error .queueSequenceExhausted ∈
        (Fifo.run (pushEmpty :: rest) ⟨[[]], pushed⟩).1 := by
      intro rest
      unfold Fifo.run
      rw [hstep]
      simp
    cases n with
    | zero => exact hrun []
    | succ n => exact hrun _
  · rw [if_neg hexhausted] at hpush
    cases n with
    | zero => omega
    | succ n =>
      have ih := rounds_exhaust n (pushed + 1) (by omega)
      have hrounds : rounds (n + 1) ++ [pushEmpty] =
          pushEmpty :: .popFront 0 :: (rounds n ++ [pushEmpty]) := rfl
      rw [hrounds]
      unfold Fifo.run
      rw [hpush]
      dsimp only
      rw [if_neg (by simp)]
      refine List.mem_cons_of_mem _ ?_
      unfold Fifo.run
      have hpop : Fifo.step ⟨[[]] ++ [[]], pushed + 1⟩ (.popFront 0) =
          (.ok (.popped (some ([], false))), ⟨[[]], pushed + 1⟩) := rfl
      rw [hpop]
      dsimp only
      rw [if_neg (by simp)]
      exact List.mem_cons_of_mem _ ih
termination_by n

theorem run_ne_listRun (n : Nat) (h : 2 ^ 64 ≤ n + 2) :
    (QueueAccess.run ⟨dataPrefix 0⟩ (pushEmpty :: (rounds n ++ [pushEmpty]))
      (.start OrdMap.empty 0 [])).1 ≠ (listRun (pushEmpty :: (rounds n ++ [pushEmpty])) []).1 := by
  intro heq
  have hdb : QueueAccess.DatabaseHolds ⟨dataPrefix 0⟩ OrdMap.empty ⟨[], 0⟩ :=
    QueueAccess.databaseHolds_empty fun _ => rfl
  have hdata : (prefixSuccessor (QueueAccess.mk (dataPrefix 0)).data).isSome = true :=
    prefixSuccessor_dataPrefix 0
  have hrun := QueueAccess.run_refines hdata (pushEmpty :: (rounds n ++ [pushEmpty]))
    (hdb.start 0)
  have hmem : .error .queueSequenceExhausted ∈
      (Fifo.run (pushEmpty :: (rounds n ++ [pushEmpty])) ⟨[], 0⟩).1 := by
    have hpush := step_pushEmpty [] 0 (by decide)
    rw [if_neg (by decide)] at hpush
    have hrest := rounds_exhaust n 1 (by omega)
    unfold Fifo.run
    rw [hpush]
    dsimp only
    rw [if_neg (by simp)]
    exact List.mem_cons_of_mem _ hrest
  have hresults := hrun.results_eq
  rw [← hresults, heq] at hmem
  obtain ⟨size, limit, h⟩ := listRun_result _ [] hmem
  cases h

end Dogpaddle.Store
