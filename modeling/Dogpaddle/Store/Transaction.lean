import Dogpaddle.Lib.Attempt
import Dogpaddle.Lib.Bytes
import Dogpaddle.Lib.OrdMap

/-!
# Write transactions

One atomic write transaction over the physical key space. Reads see the snapshot
with the staged writes on top; a commit publishes the staged writes, unless the
transaction is poisoned or staged nothing.

The storage engine may refuse any call: `faults` lists the outcomes of the calls
to come, a `true` being a refusal and a missing entry a success. A statement about
every fault list is a statement about every behaviour of the engine.

The three helpers that decide about poisoning keep their names: `recordResult`,
`recordWriteResult` and `poisonOnError`.
-/

namespace Dogpaddle.Store

open Lib

/-- A failed operation on a transaction. -/
inductive Failure
  | storage (operation : String)
  | codec (message : String)
  | itemTooLarge (size limit : Nat)
  | transactionPoisoned
  | wrongStore
  | invalidScanLimit
  | multiplicityUnderflow
  | multiplicityOverflow
  | queueSequenceExhausted
  | queueByteCountExhausted
  | corruptQueue (reason : String)
deriving DecidableEq, Repr

/-- Whether recording the failure poisons the transaction. -/
def Failure.poisonsTransaction : Failure → Bool
  | .itemTooLarge _ _ => false
  | _ => true

/-- The committed key space. -/
abbrev Database := OrdMap Bytes Bytes

/-- One staged write. -/
inductive Write
  | put (key value : Bytes)
  | delete (key : Bytes)
deriving DecidableEq, Repr

def Write.apply (db : Database) : Write → Database
  | .put key value => OrdMap.put db key value
  | .delete key => OrdMap.erase db key

/-- Staged writes applied in order. -/
def applyWrites (db : Database) (writes : List Write) : Database := writes.foldl Write.apply db

structure Transaction where
  snapshot : Database
  staged : List Write
  storeToken : Nat
  poisoned : Bool
  hasWrites : Bool
  faults : List Bool

namespace Transaction

/-- A transaction just begun on a store. -/
def start (db : Database) (storeToken : Nat) (faults : List Bool) : Transaction :=
  ⟨db, [], storeToken, false, false, faults⟩

/-- What reads of the transaction see. -/
def view (tx : Transaction) : Database := applyWrites tx.snapshot tx.staged

/-- A healthy transaction whose engine refuses nothing. -/
structure Calm (tx : Transaction) : Prop where
  healthy : tx.poisoned = false
  faultless : tx.faults = []

/-- A transaction with one more staged write. -/
def stage (tx : Transaction) (write : Write) : Transaction :=
  { tx with staged := tx.staged ++ [write], hasWrites := true }

end Transaction

/-- A computation on one transaction. -/
abbrev TxM (α : Type) := EStateM Failure Transaction α

/-! ## Poisoning -/

def ensureHealthy : TxM Unit := do
  if (← get).poisoned then throw .transactionPoisoned else pure ()

/-- Marks the transaction as unusable. -/
def poison : TxM Unit := modify fun tx => { tx with poisoned := true }

/-- Poisons on every failure but a retryable one. -/
def recordResult {α : Type} (result : Except Failure α) : TxM α :=
  match result with
  | .ok a => pure a
  | .error e => do
    if e.poisonsTransaction then poison
    throw e

/-- A successful write is remembered for the commit. -/
def recordWriteResult {α : Type} (result : Except Failure α) : TxM α := do
  let a ← recordResult result
  modify fun tx => { tx with hasWrites := true }
  pure a

/-- Poisons on every codec failure. -/
def poisonOnError {α : Type} (result : Except String α) : TxM α :=
  match result with
  | .ok a => pure a
  | .error message => do
    poison
    throw (.codec message)

/-! ## Calls of the storage engine -/

/-- The outcome of the next engine call. -/
def nextFault : TxM Bool := do
  let tx ← get
  match tx.faults with
  | [] => pure false
  | fault :: rest => do
    set { tx with faults := rest }
    pure fault

/-- An engine read. -/
def engineRead {α : Type} (operation : String) (read : Database → α) :
    TxM (Except Failure α) := do
  if ← nextFault then pure (.error (.storage operation))
  else pure (.ok (read (← get).view))

/-- An engine write; a refused one stages nothing. -/
def engineWrite (operation : String) (write : Write) : TxM (Except Failure Unit) := do
  if ← nextFault then pure (.error (.storage operation))
  else do
    modify fun tx => { tx with staged := tx.staged ++ [write] }
    pure (.ok ())

/-- Publishes the staged writes. A transaction without writes does not enter the
engine. -/
def Transaction.commit (tx : Transaction) (db : Database) (fault : Bool) :
    Except Failure Unit × Database :=
  if tx.poisoned then (.error .transactionPoisoned, db)
  else if ¬ tx.hasWrites then (.ok (), db)
  else if fault then (.error (.storage "commit transaction"), db)
  else (.ok (), applyWrites db tx.staged)

/-! ## Reading the writes back -/

theorem applyWrites_append (db : Database) (l r : List Write) :
    applyWrites db (l ++ r) = applyWrites (applyWrites db l) r := by
  unfold applyWrites
  exact List.foldl_append ..

@[simp] theorem get?_apply_put (db : Database) (k v key : Bytes) :
    ((Write.put k v).apply db).get? key = if key = k then some v else db.get? key := by
  by_cases h : key = k <;> simp [Write.apply, h]

@[simp] theorem get?_apply_delete (db : Database) (k key : Bytes) :
    ((Write.delete k).apply db).get? key = if key = k then none else db.get? key := by
  by_cases h : key = k <;> simp [Write.apply, h]

theorem Transaction.Calm.stage {tx : Transaction} (h : tx.Calm) (write : Write) :
    (tx.stage write).Calm := ⟨h.healthy, h.faultless⟩

@[simp] theorem Transaction.view_stage (tx : Transaction) (write : Write) :
    (tx.stage write).view = write.apply tx.view := by
  show applyWrites tx.snapshot (tx.staged ++ [write]) = _
  rw [applyWrites_append]
  rfl

end Dogpaddle.Store
