import Dogpaddle.Store.Atomic

/-!
# Runs of operations on one transaction

A run performs any list of collection operations on one write transaction, with any
codecs, arguments and engine refusals. Each operation leaves an outcome: its failure, if
it failed, and the writes it staged.

* after a failure that poisons, every operation fails and the commit does nothing;
* a retryable failure leaves what the transaction sees as it was;
* a commit publishes the writes of the operations that succeeded.
-/

namespace Dogpaddle.Store

open Lib

/-! ## Operations -/

inductive CellOp (T : Type) : Type → Type
  | get : CellOp T (Option T)
  | getBounded (maxBytes : Nat) : CellOp T (Option T)
  | set (value : T) : CellOp T Unit
  | clear : CellOp T Bool

inductive MapOp (K V : Type) : Type → Type
  | get (k : K) : MapOp K V (Option V)
  | getBounded (k : K) (maxBytes : Nat) : MapOp K V (Option V)
  | put (k : K) (v : V) : MapOp K V Unit
  | remove (k : K) : MapOp K V Bool
  | erase (k : K) : MapOp K V Unit
  | scan (lower upper : EncodedBound K) (direction : ScanDirection) (resumeAfter : Option K)
      (limit : ScanLimit) : MapOp K V (OrderedMapPage K V)

/-- Multiset operations of maps and partitions of weights. -/
inductive WeightOp (K : Type) : Type → Type
  | multiplicity (k : K) : WeightOp K Nat
  | adjust (k : K) (difference : Int) : WeightOp K MultiplicityChange
  | setMultiplicity (k : K) (weight : Nat) : WeightOp K Unit

inductive PartitionOp (K V : Type) : Type → Type
  | isEmpty : PartitionOp K V Bool
  | hasOtherKey (k : K) : PartitionOp K V Bool
  | get (k : K) : PartitionOp K V (Option V)
  | getBounded (k : K) (maxBytes : Nat) : PartitionOp K V (Option V)
  | put (k : K) (v : V) : PartitionOp K V Unit
  | erase (k : K) : PartitionOp K V Unit
  | scan (direction : ScanDirection) (resumeAfter : Option K) (limit : ScanLimit) :
      PartitionOp K V (OrderedMapPage K V)
  | firstBounded (maxBytes : Nat) : PartitionOp K V (Option (K × V))
  | lastBounded (maxBytes : Nat) : PartitionOp K V (Option (K × V))

inductive QueueMethod (T : Type) : Type → Type
  | tryPush (item : T) (capacity : Nat) : QueueMethod T Bool
  | popFrontBounded (maxValueBytes : Nat) : QueueMethod T (Option (T × Bool))
  | discardFront (maxEntries : Nat) : QueueMethod T Bool
  | isEmpty : QueueMethod T Bool
  | queuedBytes : QueueMethod T Nat

/-- An operation of a collection, with its codecs. -/
inductive CollectionOp : Type → Type 1
  | access (handle : DataHandle) : CollectionOp DataAccess
  | cell {T α : Type} (cell : CellAccess T) (op : CellOp T α) : CollectionOp α
  | map {K V α : Type} (map : OrderedMapAccess K V) (op : MapOp K V α) : CollectionOp α
  | weight {K α : Type} (map : OrderedMapAccess K ℕ+) (op : WeightOp K α) : CollectionOp α
  | partition {P K V α : Type} (map : OrderedMapAccess (P × K) V) (partition : Codec P)
      (key : Codec K) (p : P) (op : PartitionOp K V α) : CollectionOp α
  | partitionWeight {P K α : Type} (map : OrderedMapAccess (P × K) ℕ+) (partition : Codec P)
      (key : Codec K) (p : P) (op : WeightOp K α) : CollectionOp α
  | queue {T α : Type} (queue : QueueAccess) (value : Codec T) (op : QueueMethod T α) :
      CollectionOp α

def CellOp.perform {T α : Type} (cell : CellAccess T) : CellOp T α → TxM α
  | .get => cell.get
  | .getBounded maxBytes => cell.getBounded maxBytes
  | .set value => cell.set value
  | .clear => cell.clear

def MapOp.perform {K V α : Type} (map : OrderedMapAccess K V) : MapOp K V α → TxM α
  | .get k => map.get k
  | .getBounded k maxBytes => map.getBounded k maxBytes
  | .put k v => map.put k v
  | .remove k => map.remove k
  | .erase k => map.erase k
  | .scan lower upper direction resumeAfter limit =>
    map.scan lower upper direction resumeAfter limit

def WeightOp.performMap {K α : Type} (map : OrderedMapAccess K ℕ+) : WeightOp K α → TxM α
  | .multiplicity k => map.multiplicity k
  | .adjust k difference => map.adjust k difference
  | .setMultiplicity k weight => map.setMultiplicity k weight

def WeightOp.performPartition {K α : Type} (part : MapPartition K ℕ+) : WeightOp K α → TxM α
  | .multiplicity k => part.multiplicity k
  | .adjust k difference => part.adjust k difference
  | .setMultiplicity k weight => part.setMultiplicity k weight

def PartitionOp.perform {K V α : Type} (part : MapPartition K V) : PartitionOp K V α → TxM α
  | .isEmpty => part.isEmpty
  | .hasOtherKey k => part.hasOtherKey k
  | .get k => part.get k
  | .getBounded k maxBytes => part.getBounded k maxBytes
  | .put k v => part.put k v
  | .erase k => part.erase k
  | .scan direction resumeAfter limit => part.scan direction resumeAfter limit
  | .firstBounded maxBytes => part.firstBounded maxBytes
  | .lastBounded maxBytes => part.lastBounded maxBytes

def QueueMethod.perform {T α : Type} (queue : QueueAccess) (value : Codec T) :
    QueueMethod T α → TxM α
  | .tryPush item capacity => queue.tryPush value item capacity
  | .popFrontBounded maxValueBytes => queue.popFrontBounded value maxValueBytes
  | .discardFront maxEntries => queue.discardFront maxEntries
  | .isEmpty => queue.isEmpty
  | .queuedBytes => queue.queuedBytes

def CollectionOp.perform {α : Type} : CollectionOp α → TxM α
  | .access handle => handle.access
  | .cell target op => op.perform target
  | .map target op => op.perform target
  | .weight target op => op.performMap target
  | .partition target partitionCodec key p op => do
    let part ← target.partition partitionCodec key p
    op.perform part
  | .partitionWeight target partitionCodec key p op => do
    let part ← target.partition partitionCodec key p
    op.performPartition part
  | .queue target value op => op.perform target value

/-! ## Operations are sound -/

theorem CellOp.sound {T α : Type} (cell : CellAccess T) (op : CellOp T α) :
    Sound (op.perform cell) := by
  cases op with
  | get => exact (DataAccess.reads_getBounded cell.data cell.value [] usizeMax).toSound
  | getBounded maxBytes => exact (DataAccess.reads_getBounded cell.data cell.value [] maxBytes).toSound
  | set value => exact cell.sound_set value
  | clear => exact (DataAccess.writes_delete cell.data []).toSound

theorem MapOp.sound {K V α : Type} (map : OrderedMapAccess K V) (op : MapOp K V α) :
    Sound (op.perform map) := by
  cases op with
  | get k => exact sound_encoded _ fun key => (DataAccess.reads_getBounded map.data map.value key _).toSound
  | getBounded k maxBytes =>
    exact sound_encoded _ fun key => (DataAccess.reads_getBounded map.data map.value key _).toSound
  | put k v => exact map.sound_put k v
  | remove k => exact sound_encoded _ fun key => (DataAccess.writes_delete map.data key).toSound
  | erase k => exact sound_encoded _ fun key => (DataAccess.writes_erase map.data key).toSound
  | scan lower upper direction resumeAfter limit =>
    exact map.sound_scan lower upper direction resumeAfter limit

theorem WeightOp.sound_map {K α : Type} (map : OrderedMapAccess K ℕ+) (op : WeightOp K α) :
    Sound (op.performMap map) := by
  cases op with
  | multiplicity k => exact sound_encoded _ fun key => (checks_readWeight map.data key).toSound
  | adjust k difference =>
    exact sound_encoded _ fun key => (writes_adjustEncoded map.data key difference).toSound
  | setMultiplicity k weight =>
    exact sound_encoded _ fun key => (writes_setEncoded map.data key weight).toSound

theorem WeightOp.sound_partition {K α : Type} (part : MapPartition K ℕ+) (op : WeightOp K α) :
    Sound (op.performPartition part) := by
  cases op with
  | multiplicity k =>
    exact part.sound_encodeKey k fun key => (checks_readWeight part.data key).toSound
  | adjust k difference =>
    exact part.sound_encodeKey k fun key => (writes_adjustEncoded part.data key difference).toSound
  | setMultiplicity k weight =>
    exact part.sound_encodeKey k fun key => (writes_setEncoded part.data key weight).toSound

theorem PartitionOp.sound {K V α : Type} (part : MapPartition K V) (op : PartitionOp K V α) :
    Sound (op.perform part) := by
  cases op with
  | isEmpty => exact (DataAccess.checks_partitionIsEmpty part.data part.start none).toSound
  | hasOtherKey k => exact part.sound_hasOtherKey k
  | get k =>
    exact part.sound_encodeKey k fun key =>
      (DataAccess.reads_getBounded part.data part.value key usizeMax).toSound
  | getBounded k maxBytes =>
    exact part.sound_encodeKey k fun key =>
      (DataAccess.reads_getBounded part.data part.value key maxBytes).toSound
  | put k v => exact part.sound_put k v
  | erase k =>
    exact part.sound_encodeKey k fun key => (DataAccess.writes_erase part.data key).toSound
  | scan direction resumeAfter limit => exact (part.reads_scan direction resumeAfter limit).toSound
  | firstBounded maxBytes => exact (part.reads_endBounded .ascending maxBytes).toSound
  | lastBounded maxBytes => exact (part.reads_endBounded .descending maxBytes).toSound

theorem QueueMethod.sound {T α : Type} (queue : QueueAccess) (value : Codec T)
    (op : QueueMethod T α) : Sound (op.perform queue value) := by
  cases op with
  | tryPush item capacity => exact (queue.writes_tryPush value item capacity).toSound
  | popFrontBounded maxValueBytes => exact queue.sound_popFrontBounded value maxValueBytes
  | discardFront maxEntries => exact (queue.writes_discardFront maxEntries).toSound
  | isEmpty => exact (queue.checks_readMetadata.bind fun _ => Checks.pure _).toSound
  | queuedBytes => exact (queue.checks_readMetadata.bind fun _ => Checks.pure _).toSound

theorem checks_access (handle : DataHandle) : Checks handle.access := by
  refine checks_ensureHealthy.bind fun _ => ?_
  have hget : Checks (get : TxM Transaction) := by
    refine ⟨⟨⟨fun h heq => ?_, fun _ heq => ?_⟩, fun _ heq => ?_⟩, fun _ heq => ?_⟩ <;> cases heq
    · exact ⟨h, .refl _⟩
    · exact .refl _
  refine hget.bind fun tx => ?_
  split
  · exact Checks.fails rfl fun _ => rfl
  · exact Checks.pure _

theorem checks_partition {P K V : Type} (map : OrderedMapAccess (P × K) V)
    (partition : Codec P) (key : Codec K) (p : P) : Checks (map.partition partition key p) :=
  (checks_poisonOnError _).bind fun _ => Checks.pure _

/-- Every collection operation keeps the discipline. -/
theorem CollectionOp.sound {α : Type} (op : CollectionOp α) : Sound op.perform := by
  cases op with
  | access handle => exact (checks_access handle).toSound
  | cell target op => exact op.sound target
  | map target op => exact op.sound target
  | weight target op => exact op.sound_map target
  | partition target partitionCodec key p op =>
    exact (checks_partition target partitionCodec key p).toReads.bind_sound fun part => op.sound part
  | partitionWeight target partitionCodec key p op =>
    exact (checks_partition target partitionCodec key p).toReads.bind_sound fun part =>
      op.sound_partition part
  | queue target value op => exact op.sound target value

/-! ## A poisoned transaction -/

/-- The failure of an encoding. -/
def codecError {α : Type} : Except String α → Option Failure
  | .ok _ => none
  | .error message => some (.codec message)

def CellOp.argumentError {T α : Type} (cell : CellAccess T) : CellOp T α → Option Failure
  | .set value => codecError (cell.value.encode value)
  | _ => none

def MapOp.argumentError {K V α : Type} (map : OrderedMapAccess K V) : MapOp K V α → Option Failure
  | .get k | .getBounded k _ | .remove k | .erase k => codecError (map.key.encode k)
  | .put k v => codecError (map.key.encode k) <|> codecError (map.value.encode v)
  | .scan lower upper _ resumeAfter _ => codecError (encodeBound map.key lower) <|>
      codecError (encodeBound map.key upper) <|> codecError (encodeResume map.key resumeAfter)

def WeightOp.argumentError {K α : Type} (key : Codec K) : WeightOp K α → Option Failure
  | .multiplicity k | .adjust k _ | .setMultiplicity k _ => codecError (key.encode k)

def PartitionOp.argumentError {K V α : Type} (key : Codec K) (value : Codec V) :
    PartitionOp K V α → Option Failure
  | .isEmpty => none
  | .hasOtherKey k | .get k | .getBounded k _ | .erase k => codecError (key.encode k)
  | .put k v => codecError (key.encode k) <|> codecError (value.encode v)
  | .scan _ resumeAfter _ => codecError (encodeResume key resumeAfter)
  | .firstBounded maxBytes | .lastBounded maxBytes =>
    if maxBytes = 0 then some .invalidScanLimit else none

/-- The failure of an operation that rejects its own arguments before it asks the
transaction. -/
def CollectionOp.argumentError {α : Type} : CollectionOp α → Option Failure
  | .access _ => none
  | .cell target op => op.argumentError target
  | .map target op => op.argumentError target
  | .weight target op => op.argumentError target.key
  | .partition target partitionCodec key p op =>
    codecError (partitionPrefix partitionCodec p) <|> op.argumentError key target.value
  | .partitionWeight _ partitionCodec key p op =>
    codecError (partitionPrefix partitionCodec p) <|> op.argumentError key
  | .queue _ _ _ => none

section Barred

variable {α β : Type}

/-- A poisoned transaction answers with the failure of the arguments, or that it is
poisoned. -/
def Barred (x : TxM α) (rejected : Option Failure) : Prop :=
  ∀ tx : Transaction, tx.poisoned = true → x tx = .error (rejected.getD .transactionPoisoned) tx

theorem Barred.bind {x : TxM α} {rejected : Option Failure} (h : Barred x rejected)
    (f : α → TxM β) : Barred (x >>= f) rejected := fun tx hp => bind_of_error (h tx hp)

theorem barred_ensureHealthy : Barred ensureHealthy none := by
  intro tx hp
  obtain ⟨snapshot, staged, token, poisoned, hasWrites, faults⟩ := tx
  cases hp
  rfl

/-- An encoding is tried before the transaction is asked. -/
theorem Barred.encoded {result : Except String α} {f : α → TxM β} {rejected : Option Failure}
    (h : ∀ a, result = .ok a → Barred (f a) rejected) :
    Barred (poisonOnError result >>= f) (codecError result <|> rejected) := by
  intro tx hp
  cases result with
  | ok a => exact h a rfl tx hp
  | error message =>
    obtain ⟨snapshot, staged, token, poisoned, hasWrites, faults⟩ := tx
    cases hp
    rfl

theorem Barred.encoded_none {result : Except String α} {f : α → TxM β}
    (h : ∀ a, Barred (f a) none) : Barred (poisonOnError result >>= f) (codecError result) := by
  have hbarred : Barred (poisonOnError result >>= f) (codecError result <|> none) :=
    .encoded fun a _ => h a
  cases result <;> exact hbarred

end Barred

section Operations

variable {K V : Type} (data : DataAccess)

theorem barred_getBounded (value : Codec V) (key : Bytes) (maxBytes : Nat) :
    Barred (DataAccess.getBounded data value key maxBytes) none := barred_ensureHealthy.bind _

theorem barred_put (key value : Bytes) : Barred (DataAccess.put data key value) none :=
  barred_ensureHealthy.bind _

theorem barred_erase (key : Bytes) : Barred (DataAccess.erase data key) none :=
  barred_ensureHealthy.bind _

theorem barred_delete (key : Bytes) : Barred (DataAccess.delete data key) none :=
  ((barred_ensureHealthy.bind _).bind _).bind _

theorem barred_partitionIsEmpty (suffix : Bytes) (excluded : Option Bytes) :
    Barred (DataAccess.partitionIsEmpty data suffix excluded) none := barred_ensureHealthy.bind _

theorem barred_scanKeySuffix (key : Codec K) (value : Codec V) (lower upper : EncodedBound Bytes)
    (direction : ScanDirection) (resumeAfter : Option Bytes) (limit : ScanLimit)
    (keySuffix : Bytes) : Barred (DataAccess.scanKeySuffix data key value lower upper direction
      resumeAfter limit keySuffix) none := barred_ensureHealthy.bind _

theorem barred_readWeight (key : Bytes) : Barred (readWeight data key) none := by
  have hstored : Barred (storedWeight data key) none := by
    intro tx hp
    unfold storedWeight
    rw [barred_getBounded data weightCodec key 8 tx hp]
    rfl
  exact hstored.bind _

theorem barred_setEncoded (key : Bytes) (weight : Nat) : Barred (setEncoded data key weight) none := by
  unfold setEncoded
  split
  · exact barred_erase data key
  · exact barred_put data key _

theorem barred_readMetadata (queue : QueueAccess) : Barred queue.readMetadata none := by
  have hstored : Barred queue.storedMetadata none := by
    intro tx hp
    unfold QueueAccess.storedMetadata
    rw [barred_getBounded queue.data bytesCodec [] 24 tx hp]
    rfl
  exact hstored.bind _

theorem barred_encodeKey {α : Type} (part : MapPartition K V) (k : K) {f : Bytes → TxM α}
    {rejected : Option Failure} (h : ∀ key, Barred (f key) rejected) :
    Barred (part.encodeKey k >>= f) (codecError (part.key.encode k) <|> rejected) := by
  have hkey : Barred (poisonOnError (part.key.encode k) >>= fun key => f (part.start ++ key))
      (codecError (part.key.encode k) <|> rejected) := .encoded fun key _ => h _
  intro tx hp
  rw [← hkey tx hp]
  unfold MapPartition.encodeKey
  rw [bind_assoc]
  rfl

theorem barred_encodeKey_none {α : Type} (part : MapPartition K V) (k : K) {f : Bytes → TxM α}
    (h : ∀ key, Barred (f key) none) :
    Barred (part.encodeKey k >>= f) (codecError (part.key.encode k)) := by
  have hkey : Barred (part.encodeKey k >>= f) (codecError (part.key.encode k) <|> none) :=
    barred_encodeKey part k h
  cases hres : part.key.encode k <;> rw [hres] at hkey <;> exact hkey

end Operations

theorem CellOp.barred {T α : Type} (cell : CellAccess T) (op : CellOp T α) :
    Barred (op.perform cell) (op.argumentError cell) := by
  cases op with
  | get => exact barred_getBounded cell.data cell.value [] usizeMax
  | getBounded maxBytes => exact barred_getBounded cell.data cell.value [] maxBytes
  | set value => exact .encoded_none fun encoded => barred_put cell.data [] encoded
  | clear => exact barred_delete cell.data []

theorem MapOp.barred {K V α : Type} (map : OrderedMapAccess K V) (op : MapOp K V α) :
    Barred (op.perform map) (op.argumentError map) := by
  cases op with
  | get k => exact .encoded_none fun key => barred_getBounded map.data map.value key usizeMax
  | getBounded k maxBytes =>
    exact .encoded_none fun key => barred_getBounded map.data map.value key maxBytes
  | put k v => exact .encoded fun key _ => .encoded_none fun value => barred_put map.data key value
  | remove k => exact .encoded_none fun key => barred_delete map.data key
  | erase k => exact .encoded_none fun key => barred_erase map.data key
  | scan lower upper direction resumeAfter limit =>
    exact .encoded fun _ _ => .encoded fun _ _ => .encoded_none fun _ =>
      barred_scanKeySuffix map.data map.key map.value _ _ direction _ limit []

theorem WeightOp.barred_map {K α : Type} (map : OrderedMapAccess K ℕ+) (op : WeightOp K α) :
    Barred (op.performMap map) (op.argumentError map.key) := by
  cases op with
  | multiplicity k => exact .encoded_none fun key => barred_readWeight map.data key
  | adjust k difference => exact .encoded_none fun key => (barred_readWeight map.data key).bind _
  | setMultiplicity k weight => exact .encoded_none fun key => barred_setEncoded map.data key weight

theorem WeightOp.barred_partition {K α : Type} (part : MapPartition K ℕ+) (op : WeightOp K α) :
    Barred (op.performPartition part) (op.argumentError part.key) := by
  cases op with
  | multiplicity k => exact barred_encodeKey_none part k fun key => barred_readWeight part.data key
  | adjust k difference =>
    exact barred_encodeKey_none part k fun key => (barred_readWeight part.data key).bind _
  | setMultiplicity k weight =>
    exact barred_encodeKey_none part k fun key => barred_setEncoded part.data key weight

theorem MapPartition.barred_scan {K V : Type} (part : MapPartition K V)
    (direction : ScanDirection) (resumeAfter : Option K) (limit : ScanLimit) :
    Barred (part.scan direction resumeAfter limit)
      (codecError (encodeResume part.key resumeAfter)) := by
  have hscan := fun resume => barred_scanKeySuffix part.data part.key part.value
    (some (part.start, true)) (some (incrementLast part.start, false)) direction resume limit
    part.start
  cases resumeAfter with
  | none => exact hscan none
  | some k =>
    have hkey := barred_encodeKey_none part k fun key => hscan (some key)
    intro tx hp
    have hcodec : codecError (encodeResume part.key (some k)) = codecError (part.key.encode k) := by
      show codecError ((part.key.encode k).map some) = _
      cases part.key.encode k <;> rfl
    rw [hcodec, ← hkey tx hp]
    show ((part.encodeKey k >>= fun key => pure (some key)) >>= _) tx = _
    rw [bind_assoc]
    rfl

theorem MapPartition.barred_endBounded {K V : Type} (part : MapPartition K V)
    (direction : ScanDirection) (maxBytes : Nat) :
    Barred (part.endBounded direction maxBytes)
      (if maxBytes = 0 then some .invalidScanLimit else none) := by
  unfold MapPartition.endBounded ScanLimit.new
  by_cases hzero : maxBytes = 0
  · rw [if_pos hzero, dif_neg (by omega)]
    exact fun _ _ => rfl
  · rw [if_neg hzero, dif_pos (by omega)]
    exact (part.barred_scan direction none _).bind _

theorem PartitionOp.barred {K V α : Type} (part : MapPartition K V) (op : PartitionOp K V α) :
    Barred (op.perform part) (op.argumentError part.key part.value) := by
  cases op with
  | isEmpty => exact barred_partitionIsEmpty part.data part.start none
  | hasOtherKey k =>
    exact .encoded_none fun key => (barred_partitionIsEmpty part.data part.start (some key)).bind _
  | get k =>
    exact barred_encodeKey_none part k fun key =>
      barred_getBounded part.data part.value key usizeMax
  | getBounded k maxBytes =>
    exact barred_encodeKey_none part k fun key =>
      barred_getBounded part.data part.value key maxBytes
  | put k v =>
    exact barred_encodeKey part k fun key => .encoded_none fun value =>
      barred_put part.data key value
  | erase k => exact barred_encodeKey_none part k fun key => barred_erase part.data key
  | scan direction resumeAfter limit => exact part.barred_scan direction resumeAfter limit
  | firstBounded maxBytes => exact part.barred_endBounded .ascending maxBytes
  | lastBounded maxBytes => exact part.barred_endBounded .descending maxBytes

theorem QueueMethod.barred {T α : Type} (queue : QueueAccess) (value : Codec T)
    (op : QueueMethod T α) : Barred (op.perform queue value) none := by
  cases op <;> exact (barred_readMetadata queue).bind _

theorem barred_partition {P K V α : Type} (map : OrderedMapAccess (P × K) V) (partition : Codec P)
    (key : Codec K) (p : P) {f : MapPartition K V → TxM α} {rejected : Option Failure}
    (h : ∀ start, Barred (f ⟨map.data, start, key, map.value⟩) rejected) :
    Barred (map.partition partition key p >>= f)
      (codecError (partitionPrefix partition p) <|> rejected) := by
  have hpart : Barred (poisonOnError (partitionPrefix partition p) >>= fun start =>
      f ⟨map.data, start, key, map.value⟩) (codecError (partitionPrefix partition p) <|> rejected) :=
    .encoded fun start _ => h start
  intro tx hp
  rw [← hpart tx hp]
  unfold OrderedMapAccess.partition
  rw [bind_assoc]
  rfl

/-- How every operation answers on a poisoned transaction. -/
theorem CollectionOp.barred {α : Type} (op : CollectionOp α) :
    Barred op.perform op.argumentError := by
  cases op with
  | access handle => exact barred_ensureHealthy.bind _
  | cell target op => exact op.barred target
  | map target op => exact op.barred target
  | weight target op => exact op.barred_map target
  | partition target partitionCodec key p op =>
    exact barred_partition target partitionCodec key p fun start =>
      op.barred ⟨target.data, start, key, target.value⟩
  | partitionWeight target partitionCodec key p op =>
    exact barred_partition target partitionCodec key p fun start =>
      op.barred_partition ⟨target.data, start, key, target.value⟩
  | queue target value op => exact op.barred target value

/-! ## Runs -/

/-- An operation of any result. -/
abbrev Operation := (α : Type) × CollectionOp α

namespace Operation

def argumentError (op : Operation) : Option Failure := op.2.argumentError

/-- The failure of an operation, if it failed, and the transaction after it. -/
def apply (op : Operation) (tx : Transaction) : Option Failure × Transaction :=
  match op.2.perform tx with
  | .ok _ tx' => (none, tx')
  | .error e tx' => (some e, tx')

end Operation

/-- What one operation of a run did. -/
structure Outcome where
  failure : Option Failure
  writes : List Write
deriving DecidableEq

/-- The operations one after another on one transaction. -/
def runOperations : List Operation → Transaction → List Outcome × Transaction
  | [], tx => ([], tx)
  | op :: ops, tx =>
    let (failure, tx') := op.apply tx
    let (outcomes, last) := runOperations ops tx'
    (⟨failure, tx'.staged.drop tx.staged.length⟩ :: outcomes, last)

/-- The writes of the operations that succeeded. -/
def effects (outcomes : List Outcome) : List Write :=
  (outcomes.filter fun outcome => outcome.failure = none).flatMap Outcome.writes

/-- What one operation does to a healthy transaction. -/
inductive Applies (tx : Transaction) : Option Failure × Transaction → Prop
  | succeeded {tx' : Transaction} (hh : tx'.Healthy) (later : Transaction.Later tx tx') :
      Applies tx (none, tx')
  | retryable {e : Failure} {tx' : Transaction} (he : e.retryable = true) (hh : tx'.Healthy)
      (same : Transaction.Same tx tx') : Applies tx (some e, tx')
  | poisons {e : Failure} {tx' : Transaction} (he : e.retryable = false)
      (hp : tx'.poisoned = true) : Applies tx (some e, tx')

theorem Operation.applies (op : Operation) {tx : Transaction} (hh : tx.Healthy) :
    Applies tx (op.apply tx) := by
  unfold Operation.apply
  cases hres : op.2.perform tx with
  | ok a tx' =>
    obtain ⟨hh', hlater⟩ := op.2.sound.ok hh hres
    exact .succeeded hh' hlater
  | error e tx' =>
    obtain ⟨-, hcase⟩ := op.2.sound.error hh hres
    cases he : e.retryable with
    | true =>
      simp only [he, if_true] at hcase
      exact .retryable he (hcase.2.healthy hh hcase.1) hcase.2
    | false =>
      simp only [he, Bool.false_eq_true, if_false] at hcase
      exact .poisons he hcase

theorem Operation.apply_poisoned (op : Operation) {tx : Transaction} (hp : tx.poisoned = true) :
    op.apply tx = (some (op.argumentError.getD .transactionPoisoned), tx) := by
  unfold Operation.apply
  rw [op.2.barred tx hp]
  rfl

/-- On a poisoned transaction nothing happens any more. -/
theorem runOperations_poisoned (ops : List Operation) {tx : Transaction}
    (hp : tx.poisoned = true) :
    (runOperations ops tx).1.map Outcome.failure =
      ops.map (fun op => some (op.argumentError.getD .transactionPoisoned)) ∧
    (runOperations ops tx).2 = tx := by
  induction ops with
  | nil => exact ⟨rfl, rfl⟩
  | cons op ops ih =>
    unfold runOperations
    rw [op.apply_poisoned hp]
    exact ⟨congrArg (_ :: ·) ih.1, ih.2⟩

/-- A run ends poisoned, or healthy with exactly the effects of its successes staged. -/
theorem runOperations_cases (ops : List Operation) {tx : Transaction} (hh : tx.Healthy) :
    (runOperations ops tx).2.poisoned = true ∨
      ((runOperations ops tx).2.Healthy ∧
        (runOperations ops tx).2.snapshot = tx.snapshot ∧
        (runOperations ops tx).2.staged = tx.staged ++ effects (runOperations ops tx).1) := by
  induction ops generalizing tx with
  | nil => exact .inr ⟨hh, rfl, (List.append_nil _).symm⟩
  | cons op ops ih =>
    have happlies := op.applies hh
    unfold runOperations
    generalize op.apply tx = applied at happlies ⊢
    cases happlies with
    | succeeded hh' hlater =>
      refine (ih hh').imp_right fun ⟨hhealthy, hsnapshot, hstaged⟩ => ?_
      refine ⟨hhealthy, hsnapshot.trans hlater.snapshot, ?_⟩
      obtain ⟨writes, hwrites⟩ := hlater.staged
      rw [hstaged]
      simp [effects, ← hwrites]
    | retryable he hh' hsame =>
      refine (ih hh').imp_right fun ⟨hhealthy, hsnapshot, hstaged⟩ => ?_
      refine ⟨hhealthy, hsnapshot.trans hsame.snapshot, ?_⟩
      rw [hstaged, hsame.staged]
      simp [effects]
    | poisons he hp =>
      left
      have hrest := (runOperations_poisoned ops hp).2
      dsimp only
      rw [hrest]
      exact hp

/-- A retryable failure leaves what the transaction sees as it was. -/
theorem Operation.apply_retryable (op : Operation) {tx : Transaction}
    (h : tx.poisoned = true ∨ tx.Healthy) {e : Failure} (he : e.retryable = true)
    (hfail : (op.apply tx).1 = some e) : (op.apply tx).2.view = tx.view := by
  rcases h with hp | hh
  · rw [op.apply_poisoned hp]
  · have happlies := op.applies hh
    generalize op.apply tx = applied at happlies hfail ⊢
    cases happlies with
    | succeeded => cases hfail
    | retryable _ _ hsame =>
      unfold Transaction.view
      rw [hsame.snapshot, hsame.staged]
    | poisons hhard =>
      cases hfail
      rw [he] at hhard
      cases hhard

/-- A transaction is all or nothing: after a failure that poisons, every operation fails
and the commit leaves the database as it is; a retryable failure changes nothing; and a
commit that succeeds publishes exactly the effects of the operations that succeeded. -/
theorem transaction_allOrNothing (db : Database) (storeToken : Nat) (faults : List Bool)
    (before : List Operation) (op : Operation) (after : List Operation) (commitFault : Bool) :
    let tx := (runOperations before (.start db storeToken faults)).2
    let run := runOperations after (op.apply tx).2
    let whole := runOperations (before ++ op :: after) (.start db storeToken faults)
    (∀ e, (op.apply tx).1 = some e → e.retryable = false →
      run.1.map Outcome.failure =
        after.map (fun op => some (op.argumentError.getD .transactionPoisoned)) ∧
      run.2.commit db commitFault = (.error .transactionPoisoned, db)) ∧
    (∀ e, (op.apply tx).1 = some e → e.retryable = true → (op.apply tx).2.view = tx.view) ∧
    ((whole.2.commit db commitFault).1 = .ok () →
      (whole.2.commit db commitFault).2 = applyWrites db (effects whole.1)) ∧
    ((whole.2.commit db commitFault).1 ≠ .ok () → (whole.2.commit db commitFault).2 = db) := by
  intro tx run whole
  have hstart : (Transaction.start db storeToken faults).Healthy := ⟨rfl, fun _ => rfl⟩
  have htx : tx.poisoned = true ∨ tx.Healthy :=
    (runOperations_cases before hstart).imp_right And.left
  refine ⟨fun e hfail he => ?_, fun e hfail he => op.apply_retryable htx he hfail, ?_, ?_⟩
  · have hpoisoned : (op.apply tx).2.poisoned = true := by
      rcases htx with hp | hh
      · rw [op.apply_poisoned hp]
        exact hp
      · have happlies := op.applies hh
        generalize op.apply tx = applied at happlies hfail
        cases happlies with
        | succeeded => cases hfail
        | retryable hretry =>
          cases hfail
          rw [he] at hretry
          cases hretry
        | poisons _ hp => exact hp
    obtain ⟨hfailures, hsame⟩ := runOperations_poisoned after hpoisoned
    refine ⟨hfailures, ?_⟩
    show (runOperations after (op.apply tx).2).2.commit db commitFault = _
    rw [hsame]
    exact if_pos hpoisoned
  · intro hok
    rcases runOperations_cases (before ++ op :: after) hstart with hp | ⟨hh, -, hstaged⟩
    · unfold Transaction.commit at hok
      rw [if_pos hp] at hok
      cases hok
    · -- without a write the engine is not entered, and there is no effect to publish
      have heffects : whole.2.staged = effects whole.1 := hstaged
      unfold Transaction.commit at hok ⊢
      rw [if_neg (by rw [hh.sane]; simp)] at hok ⊢
      by_cases hwrites : whole.2.hasWrites = true
      · rw [if_neg (by simpa using hwrites)] at hok ⊢
        cases commitFault with
        | true => cases hok
        | false =>
          rw [← heffects]
          rfl
      · rw [if_pos (by simpa using hwrites), ← heffects, hh.tidy (by simpa using hwrites)]
        rfl
  · intro hfail
    unfold Transaction.commit at hfail ⊢
    split
    · rfl
    · split
      · rfl
      · next hp hw =>
        rw [if_neg hp, if_neg hw] at hfail
        cases commitFault with
        | true => rfl
        | false => exact absurd rfl hfail

/-- A zero bound is rejected before the poisoned transaction is asked. -/
theorem firstBounded_zero_poisoned :
    let map : OrderedMapAccess (Bytes × Bytes) ℕ+ :=
      ⟨dataPrefix 0, partitionKeyCodec bytesCodec bytesCodec, weightCodec⟩
    let underflow : Operation :=
      ⟨_, .partitionWeight map bytesCodec bytesCodec [] (.adjust [] (-1))⟩
    let first : Operation := ⟨_, .partition map bytesCodec bytesCodec [] (.firstBounded 0)⟩
    let tx := Transaction.start OrdMap.empty 0 []
    (underflow.apply tx).1 = some .multiplicityUnderflow ∧ (underflow.apply tx).2.poisoned = true ∧
      (first.apply (underflow.apply tx).2).1 = some .invalidScanLimit ∧
      (first.apply (underflow.apply tx).2).1 ≠ some .transactionPoisoned := by
  refine ⟨rfl, rfl, rfl, ?_⟩
  intro hc
  cases hc

end Dogpaddle.Store
