import Dogpaddle.Store.Queue

/-!
# The queue refines a list

Each operation of a queue on a calm transaction computes the result of the same
operation on the list of its items and leaves a namespace that holds the new list
(`step_refines`). The only way out of this is a push after `2 ^ 64 - 1` pushes without
the queue being empty in between, which the queue rejects.

The namespace is handled as the function `cells`: writing a record, adding an item at
the back and removing one at the front are three equations about it.
-/

namespace Dogpaddle.Store

open Lib

/-! ## Cells -/

theorem encodeSequence_ne_nil (n : Nat) : encodeSequence n ≠ [] := by
  rw [← List.length_pos_iff, encodeSequence, length_toBE]
  omega

theorem decodeSequence_encodeSequence {n : Nat} (h : n < 2 ^ 64) :
    decodeSequence (encodeSequence n) = some n := by
  unfold decodeSequence encodeSequence
  rw [length_toBE, if_pos rfl, fromBE_toBE h]

theorem decodeSequence_eq_some {key : Bytes} {n : Nat} (h : decodeSequence key = some n) :
    key = encodeSequence n := by
  unfold decodeSequence at h
  split at h
  · next hlength =>
    rw [← Option.some.inj h]
    exact (toBE_fromBE hlength).symm
  · cases h

theorem cells_record (record record' : Option Bytes) (head : Nat) (items : List Bytes) :
    (fun key => if key = [] then record' else cells record head items key) =
      cells record' head items := by
  funext key
  unfold cells
  by_cases hkey : key = [] <;> simp [hkey]

/-- The item at a position. -/
theorem cells_sequence (record : Option Bytes) (head : Nat) (items : List Bytes) {n : Nat}
    (h : n < 2 ^ 64) : cells record head items (encodeSequence n) =
      if head ≤ n then items[n - head]? else none := by
  unfold cells
  rw [if_neg (encodeSequence_ne_nil n), decodeSequence_encodeSequence h]

theorem cells_push {head : Nat} {items : List Bytes} (record : Option Bytes) (item : Bytes)
    (h : head + items.length < 2 ^ 64) :
    (fun key => if key = encodeSequence (head + items.length) then some item
      else cells record head items key) = cells record head (items ++ [item]) := by
  funext key
  by_cases hkey : key = encodeSequence (head + items.length)
  · rw [if_pos hkey, hkey, cells_sequence _ _ _ h]
    simp
  · rw [if_neg hkey]
    unfold cells
    by_cases hnil : key = []
    · rw [if_pos hnil, if_pos hnil]
    · rw [if_neg hnil, if_neg hnil]
      cases hn : decodeSequence key with
      | none => rfl
      | some n =>
        have hne : n ≠ head + items.length := by
          rintro rfl
          exact hkey (decodeSequence_eq_some hn)
        dsimp only
        by_cases hle : head ≤ n
        · rw [if_pos hle, if_pos hle, List.getElem?_append]
          split
          · rfl
          · rw [List.getElem?_eq_none (by omega), List.getElem?_eq_none (by simp; omega)]
        · rw [if_neg hle, if_neg hle]

theorem cells_pop {head : Nat} (record : Option Bytes) (item : Bytes) (items : List Bytes)
    (h : head < 2 ^ 64) :
    (fun key => if key = encodeSequence head then none
      else cells record head (item :: items) key) = cells record (head + 1) items := by
  funext key
  by_cases hkey : key = encodeSequence head
  · rw [if_pos hkey, hkey, cells_sequence _ _ _ h, if_neg (by omega)]
  · rw [if_neg hkey]
    unfold cells
    by_cases hnil : key = []
    · rw [if_pos hnil, if_pos hnil]
    · rw [if_neg hnil, if_neg hnil]
      cases hn : decodeSequence key with
      | none => rfl
      | some n =>
        have hne : n ≠ head := by
          rintro rfl
          exact hkey (decodeSequence_eq_some hn)
        dsimp only
        by_cases hle : head + 1 ≤ n
        · rw [if_pos (by omega), if_pos hle]
          obtain ⟨k, rfl⟩ : ∃ k, n = head + 1 + k := ⟨n - (head + 1), by omega⟩
          rw [show head + 1 + k - head = k + 1 by omega, show head + 1 + k - (head + 1) = k by omega,
            List.getElem?_cons_succ]
        · rw [if_neg (by omega), if_neg hle]

/-- Without a record and items there is nothing. -/
theorem cells_empty (head : Nat) : cells none head [] = fun _ => none := by
  funext key
  unfold cells
  by_cases hnil : key = []
  · rw [if_pos hnil]
  · rw [if_neg hnil]
    cases decodeSequence key with
    | none => rfl
    | some n => simp

/-! ## Metadata -/

theorem decodeMetadata_encodeMetadata {m : Metadata} (hhead : m.head < 2 ^ 64)
    (htail : m.tail < 2 ^ 64) (hbytes : m.queuedBytes < 2 ^ 64) (hvalid : m.isValid = true) :
    decodeMetadata (encodeMetadata m) = some m := by
  unfold decodeMetadata encodeMetadata
  rw [if_pos (by simp)]
  have htake : (toBE 8 m.head ++ (toBE 8 m.tail ++ toBE 8 m.queuedBytes)).take 8 = toBE 8 m.head :=
    List.take_left' (by simp)
  have hdrop : (toBE 8 m.head ++ (toBE 8 m.tail ++ toBE 8 m.queuedBytes)).drop 8 =
      toBE 8 m.tail ++ toBE 8 m.queuedBytes := List.drop_left' (by simp)
  have hdrop' : (toBE 8 m.head ++ (toBE 8 m.tail ++ toBE 8 m.queuedBytes)).drop 16 =
      toBE 8 m.queuedBytes := by
    rw [← List.append_assoc]
    exact List.drop_left' (by simp)
  rw [htake, hdrop, hdrop', List.take_left' (by simp), fromBE_toBE hhead, fromBE_toBE htail,
    fromBE_toBE hbytes]
  simp [hvalid]

theorem queueBytes_append (l r : List Bytes) :
    queueBytes (l ++ r) = queueBytes l + queueBytes r := by
  simp [queueBytes]

theorem queueBytes_cons (item : Bytes) (items : List Bytes) :
    queueBytes (item :: items) = item.length + 8 + queueBytes items := by
  simp [queueBytes]

theorem length_le_queueBytes (items : List Bytes) : items.length * 8 ≤ queueBytes items := by
  induction items with
  | nil => exact Nat.le_refl 0
  | cons item items ih =>
    rw [queueBytes_cons, List.length_cons]
    omega

/-- The record of a nonempty queue is valid. -/
theorem isValid_metadata {head : Nat} {items : List Bytes} (hne : items ≠ [])
    (hbytes : queueBytes items < 2 ^ 64) :
    (⟨head, head + items.length, queueBytes items⟩ : Metadata).isValid = true := by
  have hpos := List.length_pos_iff.mpr hne
  have hle := length_le_queueBytes items
  unfold Metadata.isValid
  simp only [decide_eq_true_eq]
  omega

namespace Fifo

variable {f : Fifo}

theorem pushed_eq (h : f.Bounded) : f.pushed = f.head + f.items.length := by
  have := h.positions
  unfold head
  omega

theorem metadata_eq (h : f.Bounded) :
    f.metadata = ⟨f.head, f.head + f.items.length, queueBytes f.items⟩ := by
  unfold metadata
  rw [pushed_eq h]

end Fifo

/-! ## Operations on a calm namespace -/

/-- A calm transaction whose namespace has a record and items from a position on. -/
structure Holds (queue : QueueAccess) (tx : Transaction) (record : Option Bytes) (head : Nat)
    (items : List Bytes) : Prop where
  calm : tx.Calm
  cells : contents queue.data tx = cells record head items

namespace QueueAccess

variable {queue : QueueAccess} {tx : Transaction} {record : Option Bytes} {head : Nat}
  {items : List Bytes}

theorem fail_eq {α : Type} (e : Failure) (h : e.poisonsTransaction = true) (tx : Transaction) :
    (fail e : TxM α) tx = .error e { tx with poisoned := true } := by
  cases e
  case itemTooLarge => cases h
  all_goals rfl

theorem put_record (h : Holds queue tx record head items) (m : Metadata)
    (hvalid : m.isValid = true) :
    ∃ tx', queue.writeMetadata m tx = .ok () tx' ∧
      Holds queue tx' (some (encodeMetadata m)) head items := by
  refine ⟨tx.stage (.put (physicalKey queue.data []) (encodeMetadata m)), ?_, h.calm.stage _, ?_⟩
  · unfold writeMetadata
    rw [if_neg (by simpa using hvalid)]
    exact DataAccess.put_calm h.calm _ _
  · funext key
    rw [contents_put, h.cells]
    exact congrFun (cells_record record _ head items) key

theorem erase_record (h : Holds queue tx record head items) :
    ∃ tx', DataAccess.erase queue.data [] tx = .ok () tx' ∧ Holds queue tx' none head items := by
  refine ⟨_, DataAccess.erase_calm h.calm _, h.calm.stage _, ?_⟩
  funext key
  rw [contents_erase, h.cells]
  exact congrFun (cells_record record _ head items) key

theorem put_item (h : Holds queue tx record head items) (item : Bytes)
    (hlt : head + items.length < 2 ^ 64) :
    ∃ tx', DataAccess.put queue.data (encodeSequence (head + items.length)) item tx = .ok () tx' ∧
      Holds queue tx' record head (items ++ [item]) := by
  refine ⟨_, DataAccess.put_calm h.calm _ _, h.calm.stage _, ?_⟩
  funext key
  rw [contents_put, h.cells, ← cells_push record item hlt]

theorem erase_item {item : Bytes} (h : Holds queue tx record head (item :: items))
    (hlt : head < 2 ^ 64) :
    ∃ tx', DataAccess.erase queue.data (encodeSequence head) tx = .ok () tx' ∧
      Holds queue tx' record (head + 1) items := by
  refine ⟨_, DataAccess.erase_calm h.calm _, h.calm.stage _, ?_⟩
  funext key
  rw [contents_erase, h.cells, ← cells_pop record item items hlt]

theorem containsKey_eq (h : Holds queue tx record head items) {n : Nat} (hlt : n < 2 ^ 64) :
    DataAccess.containsKey queue.data (encodeSequence n) tx =
      .ok (if head ≤ n then items[n - head]? else none).isSome tx := by
  rw [DataAccess.containsKey_calm h.calm, h.cells, cells_sequence _ _ _ hlt]

theorem isPhysicallyEmpty_eq (h : Holds queue tx none head [])
    (hdata : (prefixSuccessor queue.data).isSome = true) :
    DataAccess.isPhysicallyEmpty queue.data tx = .ok true tx := by
  obtain ⟨empty, heq, hiff⟩ := DataAccess.isPhysicallyEmpty_calm h.calm hdata
  have hempty : empty = true := by
    rw [hiff, h.cells, cells_empty]
    exact fun _ => rfl
  rw [heq, hempty]

/-- The record of a queue reads back as its metadata. -/
theorem readMetadata_eq {f : Fifo} (hdata : (prefixSuccessor queue.data).isSome = true)
    (h : QueueState queue tx f) : queue.readMetadata tx = .ok f.metadata tx := by
  have hget : DataAccess.getBounded queue.data bytesCodec [] 24 tx = _ :=
    DataAccess.getBounded_calm h.calm bytesCodec [] 24
  have hcell : contents queue.data tx [] = f.record := by
    rw [h.holds]
    rfl
  rw [hcell] at hget
  unfold readMetadata
  by_cases hitems : f.items = []
  · have hstored : queue.storedMetadata tx = .ok none tx := by
      unfold storedMetadata
      rw [hget, Fifo.record, if_pos hitems]
      rfl
    rw [bind_of_ok hstored]
    dsimp only
    have hholds : Holds queue tx none f.head [] := by
      refine ⟨h.calm, ?_⟩
      rw [h.holds, Fifo.layout, Fifo.record, if_pos hitems, hitems]
    rw [bind_of_ok (isPhysicallyEmpty_eq hholds hdata)]
    have hpushed := h.bounded.start hitems
    simp only [if_true, Fifo.metadata, Fifo.head, hitems, hpushed]
    rfl
  · have hlt : f.head < 2 ^ 64 ∧ f.pushed < 2 ^ 64 := by
      have := h.bounded.pushed_lt
      have := Fifo.pushed_eq h.bounded
      omega
    have hvalid : f.metadata.isValid = true := by
      rw [Fifo.metadata_eq h.bounded]
      exact isValid_metadata hitems h.bounded.bytes_lt
    have hstored : queue.storedMetadata tx = .ok (some (encodeMetadata f.metadata)) tx := by
      unfold storedMetadata
      rw [hget, Fifo.record, if_neg hitems, DataAccess.decodeBoundedValue, if_neg (by
        simp [encodeMetadata])]
      rfl
    rw [bind_of_ok hstored]
    dsimp only
    rw [decodeMetadata_encodeMetadata hlt.1 hlt.2 h.bounded.bytes_lt hvalid]
    rfl

theorem isEmpty_metadata {f : Fifo} (h : f.Bounded) : f.metadata.isEmpty = f.items.isEmpty := by
  rw [Fifo.metadata_eq h]
  cases hitems : f.items with
  | nil => simp [Metadata.isEmpty]
  | cons item items => simp [Metadata.isEmpty]

theorem Fifo.holds {f : Fifo} (h : QueueState queue tx f) : Holds queue tx f.record f.head f.items :=
  ⟨h.calm, h.holds⟩

/-- Reading the front of a nonempty queue. -/
theorem readFront_eq {f : Fifo} {item : Bytes} {rest : List Bytes} (h : QueueState queue tx f)
    (hitems : f.items = item :: rest) (maxValueBytes : Nat) :
    queue.readFront bytesCodec f.metadata maxValueBytes tx =
      if maxValueBytes < item.length then .error (.itemTooLarge item.length maxValueBytes) tx
      else .ok (item, queueBytes rest) tx := by
  have hpushed := h.bounded.pushed_lt
  have heq := Fifo.pushed_eq h.bounded
  have hlt : f.head < 2 ^ 64 := by omega
  have hcell : contents queue.data tx (encodeSequence f.head) = some item := by
    rw [h.holds, Fifo.layout, cells_sequence _ _ _ hlt, hitems]
    simp
  have hget : DataAccess.getBounded queue.data bytesCodec (encodeSequence f.head) maxValueBytes tx =
      _ := DataAccess.getBounded_calm h.calm bytesCodec (encodeSequence f.head) maxValueBytes
  rw [hcell, DataAccess.decodeBoundedValue] at hget
  unfold readFront
  by_cases hlarge : maxValueBytes < item.length
  · rw [if_pos hlarge] at hget ⊢
    exact bind_of_error hget
  · rw [if_neg hlarge] at hget ⊢
    rw [bind_of_ok (show DataAccess.getBounded queue.data bytesCodec (encodeSequence f.metadata.head)
      maxValueBytes tx = .ok (some item) tx from hget)]
    have hitem := h.bounded.items_lt item (by rw [hitems]; simp)
    have hbytes : encodedItemBytes item.length = .ok (item.length + 8) := by
      unfold encodedItemBytes
      rw [if_pos (by omega)]
    have hrecord : (recordResult (encodedItemBytes item.length) : TxM Nat) tx =
        .ok (item.length + 8) tx := by
      rw [hbytes]
      rfl
    dsimp only
    rw [bind_of_ok hrecord]
    have htotal : f.metadata.queuedBytes = item.length + 8 + queueBytes rest := by
      show queueBytes f.items = _
      rw [hitems, queueBytes_cons]
    rw [htotal, if_neg (by omega)]
    show EStateM.Result.ok (item, item.length + 8 + queueBytes rest - (item.length + 8)) tx = _
    rw [Nat.add_sub_cancel_left]

/-- What remains after removing from the front, with the sequence started over when
nothing does. -/
def remainder (tail : Nat) (items : List Bytes) : Fifo := ⟨items, if items = [] then 0 else tail⟩

theorem remainder_bounded {tail : Nat} (hlength : items.length ≤ tail) (htail : tail < 2 ^ 64)
    (hbytes : queueBytes items < 2 ^ 64) (hitems : ∀ item ∈ items, item.length < 2 ^ 63) :
    (remainder tail items).Bounded := by
  refine ⟨fun h => ?_, ?_, ?_, hbytes, hitems⟩
  · exact if_pos h
  · show items.length ≤ if items = [] then 0 else tail
    split
    · next h => simp [h]
    · exact hlength
  · show (if items = [] then 0 else tail) < 2 ^ 64
    split <;> omega

/-- Removals end with the record of what is left. -/
theorem finishFrontRemoval_eq (hdata : (prefixSuccessor queue.data).isSome = true)
    (h : Holds queue tx record head items) (htail : head + items.length < 2 ^ 64)
    (hbytes : queueBytes items < 2 ^ 64) (hitems : ∀ item ∈ items, item.length < 2 ^ 63) :
    ∃ tx', queue.finishFrontRemoval head (head + items.length) (queueBytes items) tx =
        .ok items.isEmpty tx' ∧
      QueueState queue tx' (remainder (head + items.length) items) := by
  have hbounded := remainder_bounded (Nat.le_add_left _ _) htail hbytes hitems
  unfold finishFrontRemoval
  cases hcases : items with
  | nil =>
    subst hcases
    obtain ⟨tx', herase, hholds⟩ := erase_record h
    refine ⟨tx', ?_, hholds.calm, hbounded, ?_⟩
    · rw [if_pos (by simp), if_neg (by simp [queueBytes]), bind_of_ok herase,
        bind_of_ok (isPhysicallyEmpty_eq hholds hdata)]
      rfl
    · rw [hholds.cells, cells_empty]
      exact (cells_empty 0).symm
  | cons item rest =>
    rw [← hcases]
    have hne : items ≠ [] := by rw [hcases]; simp
    have hpos := List.length_pos_iff.mpr hne
    have hcontains := containsKey_eq h (n := head) (by omega)
    rw [if_pos (le_refl _), hcases] at hcontains
    simp only [Nat.sub_self, List.getElem?_cons_zero, Option.isSome_some] at hcontains
    obtain ⟨tx', hwrite, hholds⟩ := put_record h ⟨head, head + items.length, queueBytes items⟩
      (isValid_metadata hne hbytes)
    refine ⟨tx', ?_, hholds.calm, hbounded, ?_⟩
    · rw [if_neg (by omega), bind_of_ok hcontains, if_neg (by simp), bind_of_ok hwrite, hcases]
      rfl
    · have hhead : (remainder (head + items.length) items).head = head := by
        show (if items = [] then 0 else head + items.length) - items.length = head
        rw [if_neg hne]
        omega
      have hrecord : (remainder (head + items.length) items).record =
          some (encodeMetadata ⟨head, head + items.length, queueBytes items⟩) := by
        unfold Fifo.record Fifo.metadata
        rw [hhead]
        simp only [remainder, hne, if_false]
      rw [hholds.cells, Fifo.layout, hhead, hrecord]
      rfl

/-- The loop removes entries until the bound or the back. -/
theorem discardLoop_eq (entries : Nat) (h : Holds queue tx record head items)
    (htail : head + items.length < 2 ^ 64) (hitems : ∀ item ∈ items, item.length < 2 ^ 63) :
    ∃ tx', queue.discardLoop (head + items.length) entries head (queueBytes items) tx =
        .ok (head + min entries items.length, queueBytes (items.drop entries)) tx' ∧
      Holds queue tx' record (head + min entries items.length) (items.drop entries) := by
  induction entries generalizing tx head items with
  | zero => exact ⟨tx, by simp [discardLoop]; rfl, by simpa using h⟩
  | succ entries ih =>
    unfold discardLoop
    cases hcases : items with
    | nil =>
      subst hcases
      refine ⟨tx, ?_, by simpa using h⟩
      rw [if_pos (by simp)]
      simp
      rfl
    | cons item rest =>
      subst hcases
      rw [List.length_cons] at htail
      have hitem := hitems item (by simp)
      have hcell : contents queue.data tx (encodeSequence head) = some item := by
        rw [h.cells, cells_sequence _ _ _ (by omega)]
        simp
      have hlen : DataAccess.valueLen queue.data (encodeSequence head) tx =
          .ok (some item.length) tx := by
        rw [DataAccess.valueLen_calm h.calm, hcell]
        rfl
      have hbytes : (recordResult (encodedItemBytes item.length) : TxM Nat) tx =
          .ok (item.length + 8) tx := by
        unfold encodedItemBytes
        rw [if_pos (by omega)]
        rfl
      obtain ⟨tx₁, herase, hholds⟩ := erase_item h (by omega)
      obtain ⟨tx', hloop, hrest⟩ := ih hholds (by omega) fun i hi => hitems i (by simp [hi])
      have htotal : head + (item :: rest).length = head + 1 + rest.length := by
        rw [List.length_cons]
        omega
      have hmin : head + min (entries + 1) (item :: rest).length =
          head + 1 + min entries rest.length := by
        rw [List.length_cons]
        omega
      refine ⟨tx', ?_, ?_⟩
      · rw [if_neg (by rw [List.length_cons]; omega), bind_of_ok hlen]
        dsimp only
        rw [bind_of_ok hbytes, queueBytes_cons, if_neg (by omega), bind_of_ok herase,
          Nat.add_sub_cancel_left, htotal, hmin, hloop, List.drop_succ_cons]
      · rw [hmin, List.drop_succ_cons]
        exact hrest

variable {f : Fifo}

theorem checkTail_eq (h : QueueState queue tx f) : queue.checkTail f.metadata tx = .ok () tx := by
  unfold checkTail
  rw [isEmpty_metadata h.bounded]
  cases hitems : f.items with
  | nil => rfl
  | cons item rest =>
    have hpushed := h.bounded.pushed_lt
    have heq := Fifo.pushed_eq h.bounded
    have hpos : 0 < f.items.length := by rw [hitems]; simp
    have hcontains := containsKey_eq (Fifo.holds h) (n := f.pushed - 1) (by omega)
    rw [if_pos (by omega), show f.pushed - 1 - f.head = f.items.length - 1 by omega,
      List.getElem?_eq_getElem (by omega)] at hcontains
    simp only [List.isEmpty_cons, Bool.false_eq_true, if_false]
    rw [bind_of_ok (show DataAccess.containsKey queue.data (encodeSequence (f.metadata.tail - 1)) tx =
      .ok true tx from hcontains)]
    rfl

theorem checkNext_eq (h : QueueState queue tx f) : queue.checkNext f.metadata tx = .ok () tx := by
  unfold checkNext
  rw [isEmpty_metadata h.bounded]
  cases hitems : f.items with
  | nil => rfl
  | cons item rest =>
    have hpushed := h.bounded.pushed_lt
    have heq := Fifo.pushed_eq h.bounded
    have hcontains := containsKey_eq (Fifo.holds h) (n := f.pushed) hpushed
    rw [if_pos (by omega), List.getElem?_eq_none (by omega)] at hcontains
    simp only [List.isEmpty_cons, Bool.false_eq_true, if_false]
    rw [bind_of_ok (show DataAccess.containsKey queue.data (encodeSequence f.metadata.tail) tx =
      .ok false tx from hcontains)]
    rfl

/-- A push appends, is refused, or finds the sequence exhausted. -/
theorem tryPush_eq (hdata : (prefixSuccessor queue.data).isSome = true)
    (h : QueueState queue tx f) (item : ByteItem) (capacity : UInt64) :
    if queueBytes f.items + (item.val.length + 8) ≤ capacity.toNat then
      if f.pushed + 1 ≥ 2 ^ 64 then
        queue.tryPush bytesCodec item.val capacity.toNat tx =
          .error .queueSequenceExhausted { tx with poisoned := true }
      else ∃ tx', queue.tryPush bytesCodec item.val capacity.toNat tx = .ok true tx' ∧
        QueueState queue tx' ⟨f.items ++ [item.val], f.pushed + 1⟩
    else queue.tryPush bytesCodec item.val capacity.toNat tx = .ok false tx := by
  have hitem := item.property
  have hcapacity := capacity.toNat_lt
  have hbytes : (recordResult (encodedItemBytes item.val.length) : TxM Nat) tx =
      .ok (item.val.length + 8) tx := by
    unfold encodedItemBytes
    rw [if_pos (by omega)]
    rfl
  have hencode : (poisonOnError (bytesCodec.encode item.val) : TxM Bytes) tx = .ok item.val tx := rfl
  have htotal : f.metadata.queuedBytes = queueBytes f.items := rfl
  have htail : f.metadata.tail = f.pushed := rfl
  unfold tryPush
  rw [bind_of_ok (readMetadata_eq hdata h), bind_of_ok (checkTail_eq h), bind_of_ok hencode,
    bind_of_ok hbytes, htotal, htail]
  by_cases hfits : queueBytes f.items + (item.val.length + 8) ≤ capacity.toNat
  · have hadmit : ¬ (capacity.toNat ≤ queueBytes f.items ∨
        capacity.toNat - queueBytes f.items < item.val.length + 8) := by omega
    rw [if_pos hfits]
    simp only [if_neg hadmit]
    by_cases hexhausted : f.pushed + 1 ≥ 2 ^ 64
    · rw [if_pos hexhausted, if_pos hexhausted]
      exact fail_eq _ rfl tx
    · rw [if_neg hexhausted, if_neg hexhausted, bind_of_ok (checkNext_eq h), if_neg (by omega)]
      have heq := Fifo.pushed_eq h.bounded
      obtain ⟨tx₁, hput, hholds₁⟩ := put_item (Fifo.holds h) item.val (by omega)
      rw [← heq] at hput
      have hbytes' : queueBytes (f.items ++ [item.val]) =
          queueBytes f.items + (item.val.length + 8) := by
        rw [queueBytes_append]
        simp [queueBytes]
      obtain ⟨tx', hwrite, hholds⟩ := put_record hholds₁
        ⟨f.head, f.pushed + 1, queueBytes f.items + (item.val.length + 8)⟩ (by
          have hvalid : (⟨f.head, f.head + (f.items ++ [item.val]).length,
              queueBytes (f.items ++ [item.val])⟩ : Metadata).isValid = true :=
            isValid_metadata (by simp) (by omega)
          rw [hbytes', List.length_append, List.length_singleton, ← Nat.add_assoc, ← heq] at hvalid
          exact hvalid)
      refine ⟨tx', ?_, hholds.calm, ⟨by simp, ?_, by simp only; omega, by simp only; omega, ?_⟩, ?_⟩
      · rw [bind_of_ok hput, bind_of_ok (show queue.writeMetadata ⟨f.metadata.head, f.pushed + 1,
          queueBytes f.items + (item.val.length + 8)⟩ tx₁ = .ok () tx' from hwrite)]
        rfl
      · have := h.bounded.positions
        simp only [List.length_append, List.length_singleton]
        omega
      · intro i hi
        rcases List.mem_append.mp hi with hi | hi
        · exact h.bounded.items_lt i hi
        · rw [List.mem_singleton.mp hi]
          exact hitem
      · have hhead : (⟨f.items ++ [item.val], f.pushed + 1⟩ : Fifo).head = f.head := by
          show f.pushed + 1 - (f.items ++ [item.val]).length = f.pushed - f.items.length
          rw [List.length_append, List.length_singleton]
          omega
        have hrecord : (⟨f.items ++ [item.val], f.pushed + 1⟩ : Fifo).record =
            some (encodeMetadata ⟨f.head, f.pushed + 1,
              queueBytes f.items + (item.val.length + 8)⟩) := by
          unfold Fifo.record Fifo.metadata
          rw [hhead, hbytes']
          simp
        rw [hholds.cells, Fifo.layout, hhead, hrecord]
  · have hrefuse : capacity.toNat ≤ queueBytes f.items ∨
        capacity.toNat - queueBytes f.items < item.val.length + 8 := by omega
    rw [if_neg hfits]
    simp only [if_pos hrefuse]
    rfl

/-- A pop returns the front, or fails and leaves everything as it is. -/
theorem popFrontBounded_eq (hdata : (prefixSuccessor queue.data).isSome = true)
    (h : QueueState queue tx f) {item : Bytes} {rest : List Bytes}
    (hitems : f.items = item :: rest) (maxValueBytes : Nat) :
    if maxValueBytes < item.length then
      queue.popFrontBounded bytesCodec maxValueBytes tx =
        .error (.itemTooLarge item.length maxValueBytes) tx
    else ∃ tx', queue.popFrontBounded bytesCodec maxValueBytes tx =
        .ok (some (item, rest.isEmpty)) tx' ∧ QueueState queue tx' (remainder f.pushed rest) := by
  have hpushed := h.bounded.pushed_lt
  have heq := Fifo.pushed_eq h.bounded
  have hlength : f.items.length = rest.length + 1 := by rw [hitems]; rfl
  have hbytes := h.bounded.bytes_lt
  rw [hitems, queueBytes_cons] at hbytes
  unfold popFrontBounded
  rw [bind_of_ok (readMetadata_eq hdata h), isEmpty_metadata h.bounded]
  have hfront := readFront_eq h hitems maxValueBytes
  simp only [hitems, List.isEmpty_cons, Bool.false_eq_true, if_false]
  by_cases hlarge : maxValueBytes < item.length
  · rw [if_pos hlarge] at hfront ⊢
    exact bind_of_error hfront
  · rw [if_neg hlarge] at hfront ⊢
    have hholds := Fifo.holds h
    rw [hitems] at hholds
    obtain ⟨tx₁, herase, hholds₁⟩ := erase_item hholds (by omega)
    obtain ⟨tx', hfinish, hstate⟩ := finishFrontRemoval_eq hdata hholds₁ (by omega) (by omega)
      fun i hi => h.bounded.items_lt i (by rw [hitems]; simp [hi])
    have htail : f.head + 1 + rest.length = f.pushed := by omega
    rw [htail] at hfinish hstate
    refine ⟨tx', ?_, hstate⟩
    rw [bind_of_ok hfront]
    dsimp only
    rw [bind_of_ok (show DataAccess.erase queue.data (encodeSequence f.metadata.head) tx =
        .ok () tx₁ from herase),
      bind_of_ok (show queue.finishFrontRemoval (f.metadata.head + 1) f.metadata.tail
        (queueBytes rest) tx₁ = .ok rest.isEmpty tx' from hfinish)]
    rfl

theorem discardFront_eq (hdata : (prefixSuccessor queue.data).isSome = true)
    (h : QueueState queue tx f) (maxEntries : Nat) :
    ∃ tx', queue.discardFront maxEntries tx = .ok (f.items.drop maxEntries).isEmpty tx' ∧
      QueueState queue tx' (remainder f.pushed (f.items.drop maxEntries)) := by
  have hpushed := h.bounded.pushed_lt
  have heq := Fifo.pushed_eq h.bounded
  unfold discardFront
  rw [bind_of_ok (readMetadata_eq hdata h), isEmpty_metadata h.bounded]
  cases hcases : f.items with
  | nil =>
    refine ⟨tx, by rw [List.drop_nil]; rfl, ?_⟩
    have hsame : remainder f.pushed (([] : List Bytes).drop maxEntries) = f := by
      obtain ⟨items, pushed⟩ := f
      have := h.bounded.start hcases
      simp only at this hcases
      subst this hcases
      simp [remainder]
    rw [hsame]
    exact h
  | cons item rest =>
    rw [← hcases]
    have hne : f.items.isEmpty = false := by rw [hcases]; rfl
    rw [hne]
    simp only [Bool.false_eq_true, if_false]
    obtain ⟨tx₁, hloop, hholds⟩ := discardLoop_eq maxEntries (Fifo.holds h) (by omega)
      h.bounded.items_lt
    rw [← heq] at hloop
    rw [bind_of_ok (show queue.discardLoop f.metadata.tail maxEntries f.metadata.head
      f.metadata.queuedBytes tx = _ from hloop)]
    dsimp only
    have hlength : 0 < f.items.length := by rw [hcases]; simp
    by_cases hzero : maxEntries = 0
    · subst hzero
      have hsame : remainder f.pushed (f.items.drop 0) = f := by
        unfold remainder
        rw [List.drop_zero, if_neg (List.length_pos_iff.mp hlength)]
      have htx : tx₁ = tx := by
        have h0 : queue.discardLoop f.pushed 0 f.head (queueBytes f.items) tx =
            .ok (f.head, queueBytes f.items) tx := rfl
        rw [h0] at hloop
        cases hloop
        rfl
      refine ⟨tx₁, ?_, ?_⟩
      · rw [if_pos (by show f.head + min 0 f.items.length = f.head; omega), List.drop_zero, hne]
        rfl
      · rw [hsame, htx]
        exact h
    · rw [if_neg (by show f.head + min maxEntries f.items.length ≠ f.head; omega)]
      have hdrop : (f.items.drop maxEntries).length = f.items.length - maxEntries :=
        List.length_drop
      have hsplit : queueBytes f.items =
          queueBytes (f.items.take maxEntries) + queueBytes (f.items.drop maxEntries) := by
        rw [← queueBytes_append, List.take_append_drop]
      have hbytes := h.bounded.bytes_lt
      obtain ⟨tx', hfinish, hstate⟩ := finishFrontRemoval_eq hdata hholds (by omega) (by omega)
        fun i hi => h.bounded.items_lt i (List.mem_of_mem_drop hi)
      have htail : f.head + min maxEntries f.items.length + (f.items.drop maxEntries).length =
          f.pushed := by omega
      rw [htail] at hfinish hstate
      exact ⟨tx', hfinish, hstate⟩

/-! ## One operation -/

/-- A snapshot of a queue holds the same queue. -/
theorem QueueState.snapshot (h : QueueState queue tx f) :
    QueueState queue (Transaction.start tx.view tx.storeToken tx.faults) f :=
  ⟨⟨rfl, h.calm.faultless⟩, h.bounded, h.holds⟩

theorem remainder_self (h : f.Bounded) : remainder f.pushed f.items = f := by
  obtain ⟨items, pushed⟩ := f
  unfold remainder
  by_cases hitems : items = []
  · have := h.start hitems
    simp only at this
    subst this
    rw [ite_self]
  · rw [if_neg hitems]

theorem perform_ok {α : Type} {x : TxM α} {a : α} {tx' : Transaction} (wrap : α → QueueResult)
    (h : x tx = .ok a tx') : perform wrap x tx = (.ok (wrap a), tx') := by
  unfold perform
  rw [h]

theorem perform_error {α : Type} {x : TxM α} {e : Failure} {tx' : Transaction}
    (wrap : α → QueueResult) (h : x tx = .error e tx') : perform wrap x tx = (.error e, tx') := by
  unfold perform
  rw [h]

/-- An operation that leaves the list as it is leaves the queue as it is. -/
theorem Fifo.step_keep (h : f.Bounded) {op : QueueOp} {result : Except Failure QueueResult}
    (hlist : listStep f.items op = (result, f.items)) (hresult : result ≠ .ok (.accepted true)) :
    f.step op = (result, f) := by
  unfold Fifo.step
  rw [hlist]
  dsimp only
  rw [if_neg fun hc => hresult hc.1, if_neg hresult]
  show (result, remainder f.pushed f.items) = (result, f)
  rw [remainder_self h]

/-- An operation that removes from the front starts the sequence over when nothing is left. -/
theorem Fifo.step_remove {op : QueueOp} {result : Except Failure QueueResult} {rest : List Bytes}
    (hlist : listStep f.items op = (result, rest)) (hresult : result ≠ .ok (.accepted true)) :
    f.step op = (result, remainder f.pushed rest) := by
  unfold Fifo.step
  rw [hlist]
  dsimp only
  rw [if_neg fun hc => hresult hc.1, if_neg hresult]
  rfl

theorem Fifo.step_push {item : ByteItem} {capacity : UInt64}
    (hfits : queueBytes f.items + (item.val.length + 8) ≤ capacity.toNat) :
    f.step (.tryPush item capacity) = if f.pushed + 1 ≥ 2 ^ 64 then
      (.error .queueSequenceExhausted, f)
      else (.ok (.accepted true), ⟨f.items ++ [item.val], f.pushed + 1⟩) := by
  have hlist : listStep f.items (.tryPush item capacity) =
      (.ok (.accepted true), f.items ++ [item.val]) := if_pos hfits
  unfold Fifo.step
  rw [hlist]
  simp

/-- What one operation does: it computes the result of the list and holds the new list,
or the sequence numbers are exhausted and nothing was written. -/
inductive Refines (queue : QueueAccess) (tx : Transaction) (f : Fifo) :
    Except Failure QueueResult × Transaction → Except Failure QueueResult × Fifo → Prop
  | next {result : Except Failure QueueResult} {tx' : Transaction} {f' : Fifo}
      (hresult : result ≠ .error .queueSequenceExhausted) (hstate : QueueState queue tx' f') :
      Refines queue tx f (result, tx') (result, f')
  | exhausted : Refines queue tx f (.error .queueSequenceExhausted, { tx with poisoned := true })
      (.error .queueSequenceExhausted, f)

theorem Refines.of_eq {concrete concrete' : Except Failure QueueResult × Transaction}
    {abstract abstract' : Except Failure QueueResult × Fifo} (hc : concrete = concrete')
    (ha : abstract = abstract') (h : Refines queue tx f concrete' abstract') :
    Refines queue tx f concrete abstract := by
  rw [hc, ha]
  exact h

theorem step_tryPush (hdata : (prefixSuccessor queue.data).isSome = true)
    (h : QueueState queue tx f) (item : ByteItem) (capacity : UInt64) :
    Refines queue tx f (queue.step tx (.tryPush item capacity)) (f.step (.tryPush item capacity)) := by
  have hpush := tryPush_eq hdata h item capacity
  by_cases hfits : queueBytes f.items + (item.val.length + 8) ≤ capacity.toNat
  · have hstep := Fifo.step_push hfits
    rw [if_pos hfits] at hpush
    by_cases hexhausted : f.pushed + 1 ≥ 2 ^ 64
    · rw [if_pos hexhausted] at hpush hstep
      exact .of_eq (perform_error _ hpush) hstep .exhausted
    · rw [if_neg hexhausted] at hpush hstep
      obtain ⟨tx', heq, hstate⟩ := hpush
      exact .of_eq (perform_ok _ heq) hstep (.next (by simp) hstate)
  · rw [if_neg hfits] at hpush
    exact .of_eq (perform_ok _ hpush) (Fifo.step_keep h.bounded (if_neg hfits) (by simp))
      (.next (by simp) h)

theorem step_popFront (hdata : (prefixSuccessor queue.data).isSome = true)
    (h : QueueState queue tx f) (maxValueBytes : Nat) :
    Refines queue tx f (queue.step tx (.popFront maxValueBytes))
      (f.step (.popFront maxValueBytes)) := by
  cases hitems : f.items with
  | nil =>
    have hpop : queue.popFrontBounded bytesCodec maxValueBytes tx = .ok none tx := by
      unfold popFrontBounded
      rw [bind_of_ok (readMetadata_eq hdata h), isEmpty_metadata h.bounded, hitems]
      rfl
    exact .of_eq (perform_ok _ hpop)
      (Fifo.step_keep h.bounded (by rw [hitems]; rfl) (by simp)) (.next (by simp) h)
  | cons item rest =>
    have hpop := popFrontBounded_eq hdata h hitems maxValueBytes
    by_cases hlarge : maxValueBytes < item.length
    · rw [if_pos hlarge] at hpop
      have hlist : listStep f.items (.popFront maxValueBytes) =
          (.error (.itemTooLarge item.length maxValueBytes), f.items) := by
        rw [hitems]
        exact if_pos hlarge
      exact .of_eq (perform_error _ hpop) (Fifo.step_keep h.bounded hlist (by simp))
        (.next (by simp) h)
    · rw [if_neg hlarge] at hpop
      obtain ⟨tx', heq, hstate⟩ := hpop
      have hlist : listStep f.items (.popFront maxValueBytes) =
          (.ok (.popped (some (item, rest.isEmpty))), rest) := by
        rw [hitems]
        exact if_neg hlarge
      exact .of_eq (perform_ok _ heq) (Fifo.step_remove hlist (by simp)) (.next (by simp) hstate)

/-- The front, read from a snapshot of the transaction. -/
theorem step_front (hdata : (prefixSuccessor queue.data).isSome = true)
    (h : QueueState queue tx f) (maxValueBytes : Nat) :
    Refines queue tx f (queue.step tx (.front maxValueBytes)) (f.step (.front maxValueBytes)) := by
  have hsnapshot := QueueState.snapshot h
  -- the transaction itself is not involved
  have hstep : ∀ result, perform .front (queue.frontBounded bytesCodec maxValueBytes)
      (Transaction.start tx.view tx.storeToken tx.faults) =
        (result, Transaction.start tx.view tx.storeToken tx.faults) →
      queue.step tx (.front maxValueBytes) = (result, tx) := by
    intro result hperform
    show ((perform .front (queue.frontBounded bytesCodec maxValueBytes)
      (Transaction.start tx.view tx.storeToken tx.faults)).1, tx) = _
    rw [hperform]
  cases hitems : f.items with
  | nil =>
    have hfront : queue.frontBounded bytesCodec maxValueBytes
        (Transaction.start tx.view tx.storeToken tx.faults) =
        .ok none (Transaction.start tx.view tx.storeToken tx.faults) := by
      unfold frontBounded
      rw [bind_of_ok (readMetadata_eq hdata hsnapshot), isEmpty_metadata h.bounded, hitems]
      rfl
    exact .of_eq (hstep _ (perform_ok _ hfront))
      (Fifo.step_keep h.bounded (by rw [hitems]; rfl) (by simp)) (.next (by simp) h)
  | cons item rest =>
    have hread := readFront_eq hsnapshot hitems maxValueBytes
    by_cases hlarge : maxValueBytes < item.length
    · rw [if_pos hlarge] at hread
      have hfront : queue.frontBounded bytesCodec maxValueBytes
          (Transaction.start tx.view tx.storeToken tx.faults) =
          .error (.itemTooLarge item.length maxValueBytes)
            (Transaction.start tx.view tx.storeToken tx.faults) := by
        unfold frontBounded
        rw [bind_of_ok (readMetadata_eq hdata hsnapshot), isEmpty_metadata h.bounded]
        simp only [hitems, List.isEmpty_cons, Bool.false_eq_true, if_false]
        exact bind_of_error hread
      have hlist : listStep f.items (.front maxValueBytes) =
          (.error (.itemTooLarge item.length maxValueBytes), f.items) := by
        rw [hitems]
        exact if_pos hlarge
      exact .of_eq (hstep _ (perform_error _ hfront)) (Fifo.step_keep h.bounded hlist (by simp))
        (.next (by simp) h)
    · rw [if_neg hlarge] at hread
      have hfront : queue.frontBounded bytesCodec maxValueBytes
          (Transaction.start tx.view tx.storeToken tx.faults) =
          .ok (some item) (Transaction.start tx.view tx.storeToken tx.faults) := by
        unfold frontBounded
        rw [bind_of_ok (readMetadata_eq hdata hsnapshot), isEmpty_metadata h.bounded]
        simp only [hitems, List.isEmpty_cons, Bool.false_eq_true, if_false]
        rw [bind_of_ok hread]
        rfl
      have hlist : listStep f.items (.front maxValueBytes) = (.ok (.front (some item)), f.items) := by
        rw [hitems]
        exact if_neg hlarge
      exact .of_eq (hstep _ (perform_ok _ hfront)) (Fifo.step_keep h.bounded hlist (by simp))
        (.next (by simp) h)

/-- One operation on the namespace is the operation on the list, unless the sequence
numbers are exhausted. -/
theorem step_refines (hdata : (prefixSuccessor queue.data).isSome = true)
    (h : QueueState queue tx f) (op : QueueOp) :
    Refines queue tx f (queue.step tx op) (f.step op) := by
  cases op with
  | tryPush item capacity => exact step_tryPush hdata h item capacity
  | popFront maxValueBytes => exact step_popFront hdata h maxValueBytes
  | front maxValueBytes => exact step_front hdata h maxValueBytes
  | discardFront maxEntries =>
    obtain ⟨tx', heq, hstate⟩ := discardFront_eq hdata h maxEntries
    exact .of_eq (perform_ok _ heq) (Fifo.step_remove rfl (by simp)) (.next (by simp) hstate)
  | isEmpty =>
    have hempty : queue.isEmpty tx = .ok f.items.isEmpty tx := by
      unfold isEmpty
      rw [bind_of_ok (readMetadata_eq hdata h), isEmpty_metadata h.bounded]
      rfl
    exact .of_eq (perform_ok _ hempty) (Fifo.step_keep h.bounded rfl (by simp)) (.next (by simp) h)
  | queuedBytes =>
    have hbytes : queue.queuedBytes tx = .ok (queueBytes f.items) tx := by
      unfold queuedBytes
      rw [bind_of_ok (readMetadata_eq hdata h)]
      rfl
    exact .of_eq (perform_ok _ hbytes) (Fifo.step_keep h.bounded rfl (by simp)) (.next (by simp) h)

end QueueAccess

end Dogpaddle.Store
