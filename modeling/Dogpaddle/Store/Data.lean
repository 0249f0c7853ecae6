import Dogpaddle.Store.Transaction
import Dogpaddle.Store.Scan
import Dogpaddle.Lib.Framing

/-!
# Access to one namespace

A data object owns the keys that begin with its five-byte prefix. `DataAccess` is
that prefix, bound to a transaction; point reads, writes, emptiness and scans go
through it and decide about poisoning.

A scan runs an engine iterator. An iterator is given by the entries it still
visits, in its direction and within its bounds: `seek` and `seekForPrev` position
it, the tail of the list is the next step.
-/

namespace Dogpaddle.Store

open Lib

/-- The encoding of a stored type. -/
structure Codec (α : Type) where
  encode : α → Except String Bytes
  decode : Bytes → Except String α

/-- Byte strings are stored as they are. -/
def bytesCodec : Codec Bytes := ⟨.ok, .ok⟩

/-! ## Physical keys -/

/-- A namespace within a store. -/
structure DataHandle where
  storeToken : Nat
  dataId : Nat
deriving DecidableEq, Repr

/-- The prefix of a bound namespace. -/
abbrev DataAccess := Bytes

def dataPrefix (dataId : Nat) : Bytes := 2 :: toBE 4 dataId

def physicalKey (data : DataAccess) (key : Bytes) : Bytes := data ++ key

/-- Increments a reversed prefix; the bytes after the incremented one are zero. -/
def incrementLoop : Bytes → Bytes
  | [] => []
  | byte :: rest => if byte ≠ 255 then (byte + 1) :: rest else 0 :: incrementLoop rest

/-- The first key after a namespace. -/
def namespaceEnd (data : DataAccess) : Bytes := (incrementLoop data.reverse).reverse

/-- What follows a prefix of a key. -/
def strip (start : Bytes) (key : Bytes) : Option Bytes :=
  if start.isPrefixOf key then some (key.drop start.length) else none

@[simp] theorem strip_append (start key : Bytes) : strip start (start ++ key) = some key := by
  unfold strip
  rw [if_pos (List.isPrefixOf_iff_prefix.mpr (List.prefix_append _ _)), List.drop_left]

theorem strip_eq_some {start key rest : Bytes} :
    strip start key = some rest ↔ key = start ++ rest := by
  constructor
  · unfold strip
    intro h
    split at h
    · next hp =>
      obtain ⟨t, rfl⟩ := List.isPrefixOf_iff_prefix.mp hp
      rw [List.drop_left] at h
      rw [Option.some.inj h]
    · cases h
  · rintro rfl
    exact strip_append _ _

theorem strip_eq_none {start key : Bytes} : strip start key = none ↔ ¬ start <+: key := by
  unfold strip
  split
  · next hp => simpa using List.isPrefixOf_iff_prefix.mp hp
  · next hp => simpa using hp

theorem incrementLoop_eq {l t : Bytes} (h : successorLoop l = some t) :
    ∃ n, (incrementLoop l).reverse = t ++ List.replicate n 0 := by
  induction l with
  | nil => cases h
  | cons b l ih =>
    unfold successorLoop at h
    unfold incrementLoop
    by_cases hb : b = 255
    · simp only [hb, ne_eq, not_true_eq_false, if_false] at h ⊢
      obtain ⟨n, hn⟩ := ih h
      refine ⟨n + 1, ?_⟩
      rw [List.reverse_cons, hn, List.append_assoc, List.replicate_succ']
    · simp only [ne_eq, hb, not_false_eq_true, if_true, Option.some.injEq] at h ⊢
      exact ⟨0, by simpa using h⟩

/-- Every key of a namespace lies before its end. -/
theorem lt_namespaceEnd {data key : Bytes} (h : (prefixSuccessor data).isSome = true)
    (hkey : data <+: key) : key < namespaceEnd data := by
  obtain ⟨t, ht⟩ := Option.isSome_iff_exists.mp h
  obtain ⟨n, hn⟩ := incrementLoop_eq ht
  have hlt := (lt_prefixSuccessor ht key).mpr (.inr hkey)
  unfold namespaceEnd
  rw [hn]
  exact lt_of_lt_of_le hlt (le_append _ _)

theorem prefixSuccessor_dataPrefix (dataId : Nat) :
    (prefixSuccessor (dataPrefix dataId)).isSome = true := by
  unfold dataPrefix
  rw [prefixSuccessor_cons]
  cases prefixSuccessor (toBE 4 dataId) <;> rfl

/-- What lies between a prefix and one of its extensions begins with it. -/
theorem prefix_of_between {data key rest : Bytes} (h : (prefixSuccessor data).isSome = true)
    (hlow : data ≤ key) (hhigh : key ≤ data ++ rest) : data <+: key := by
  obtain ⟨t, ht⟩ := Option.isSome_iff_exists.mp h
  have hrest := (lt_prefixSuccessor ht (data ++ rest)).mpr (.inr (List.prefix_append _ _))
  rcases (lt_prefixSuccessor ht key).mp (lt_of_le_of_lt hhigh hrest) with hlt | hkey
  · exact absurd hlow (not_le_of_gt hlt)
  · exact hkey

/-- Binds a namespace to the transaction. -/
def DataHandle.access (handle : DataHandle) : TxM DataAccess := do
  ensureHealthy
  if handle.storeToken ≠ (← get).storeToken then do
    poison
    throw .wrongStore
  else pure (dataPrefix handle.dataId)

/-! ## Iterators -/

/-- An ascending iterator from a key. The lower bound is included, the upper one is not. -/
def seek (db : Database) (lower upper target : Bytes) : List (Bytes × Bytes) :=
  db.entries.filter fun e => decide (lower ≤ e.1 ∧ e.1 < upper ∧ target ≤ e.1)

/-- A descending iterator from a key. -/
def seekForPrev (db : Database) (lower target : Bytes) : List (Bytes × Bytes) :=
  (db.entries.filter fun e => decide (lower ≤ e.1 ∧ e.1 ≤ target)).reverse

/-- An iterator at the start of a namespace finds one of its keys first, if there is any. -/
theorem head_seek_iff {db : Database} {data : DataAccess}
    (h : (prefixSuccessor data).isSome = true) :
    (((seek db [] (namespaceEnd data) data).head?.any fun e => data.isPrefixOf e.1) = true) ↔
      ∃ e ∈ db.entries, data <+: e.1 := by
  have hsorted := db.sorted.filter
    fun e => decide ([] ≤ e.1 ∧ e.1 < namespaceEnd data ∧ data ≤ e.1)
  have hmem : ∀ e, e ∈ seek db [] (namespaceEnd data) data ↔ e ∈ db.entries ∧
      e.1 < namespaceEnd data ∧ data ≤ e.1 := by
    intro e
    have hnil : ([] : Bytes) ≤ e.1 := le_append [] e.1
    simp [seek, hnil]
  constructor
  · intro hhead
    cases hseek : seek db [] (namespaceEnd data) data with
    | nil => rw [hseek] at hhead; cases hhead
    | cons first others =>
      rw [hseek] at hhead
      exact ⟨first, ((hmem first).mp (by rw [hseek]; simp)).1,
        List.isPrefixOf_iff_prefix.mp hhead⟩
  · rintro ⟨e, he, rest, hrest⟩
    have hin : e ∈ seek db [] (namespaceEnd data) data :=
      (hmem e).mpr ⟨he, lt_namespaceEnd h ⟨rest, hrest⟩, hrest ▸ le_append data rest⟩
    cases hseek : seek db [] (namespaceEnd data) data with
    | nil => rw [hseek] at hin; cases hin
    | cons first others =>
      have hfirst := (hmem first).mp (by rw [hseek]; simp)
      have hle : first.1 ≤ e.1 := by
        rw [hseek] at hin
        rcases List.mem_cons.mp hin with rfl | hin
        · exact le_refl _
        · unfold seek at hseek
          rw [hseek] at hsorted
          exact le_of_lt ((List.pairwise_cons.mp hsorted).1 e hin)
      rw [← hrest] at hle
      have := prefix_of_between h hfirst.2.2 hle
      simpa using this

/-- Whether no key begins with the prefix and suffix, an excluded key apart. -/
def namespaceIsEmpty (db : Database) (data : DataAccess) (suffix : Bytes)
    (excluded : Option Bytes) : Bool :=
  let target := if suffix = [] then data else physicalKey data suffix
  let iterator := seek db [] (namespaceEnd data) target
  let iterator := match excluded with
    | none => iterator
    | some key => if (iterator.head?.bind fun e => strip target e.1) = some key
        then iterator.tail else iterator
  !(iterator.head?.any fun e => target.isPrefixOf e.1)

/-! ## Point operations -/

namespace DataAccess

variable (data : DataAccess)

/-- The length of a stored value. -/
def valueLen (key : Bytes) : TxM (Option Nat) := do
  ensureHealthy
  let result ← engineRead "read data length" fun db =>
    (db.get? (physicalKey data key)).map List.length
  recordResult result

def containsKey (key : Bytes) : TxM Bool := do
  return (← valueLen data key).isSome

def decodeBoundedValue {V : Type} (value : Codec V) (stored : Option Bytes) (maxBytes : Nat) :
    Except Failure (Option V) :=
  match stored with
  | none => .ok none
  | some bytes =>
    if maxBytes < bytes.length then .error (.itemTooLarge bytes.length maxBytes)
    else ((value.decode bytes).map some).mapError Failure.codec

/-- Decodes a value after admitting its length. -/
def getBounded {V : Type} (value : Codec V) (key : Bytes) (maxBytes : Nat) :
    TxM (Option V) := do
  ensureHealthy
  let result ← engineRead "read bounded data" fun db => db.get? (physicalKey data key)
  recordResult (result.bind fun stored => decodeBoundedValue value stored maxBytes)

def put (key value : Bytes) : TxM Unit := do
  ensureHealthy
  let result ← engineWrite "write data" (.put (physicalKey data key) value)
  recordWriteResult result

/-- Deletes a key without reading it. -/
def erase (key : Bytes) : TxM Unit := do
  ensureHealthy
  let result ← engineWrite "delete data" (.delete (physicalKey data key))
  recordWriteResult result

/-- Deletes a key and reports whether it existed. -/
def delete (key : Bytes) : TxM Bool := do
  if ¬ (← containsKey data key) then pure false
  else do
    erase data key
    pure true

def partitionIsEmpty (suffix : Bytes) (excluded : Option Bytes) : TxM Bool := do
  ensureHealthy
  let result ← engineRead "inspect data namespace" fun db =>
    namespaceIsEmpty db data suffix excluded
  recordResult result

/-- Whether the namespace has no entries. -/
def isPhysicallyEmpty : TxM Bool := partitionIsEmpty data [] none

end DataAccess

/-! ### On a calm transaction -/

/-- The contents of a namespace, as reads of the transaction see them. -/
def contents (data : DataAccess) (tx : Transaction) (key : Bytes) : Option Bytes :=
  tx.view.get? (physicalKey data key)

theorem contents_put (data : DataAccess) (tx : Transaction) (k v key : Bytes) :
    contents data (tx.stage (.put (physicalKey data k) v)) key =
      if key = k then some v else contents data tx key := by
  unfold contents
  rw [Transaction.view_stage, get?_apply_put]
  simp [physicalKey]

theorem contents_erase (data : DataAccess) (tx : Transaction) (k key : Bytes) :
    contents data (tx.stage (.delete (physicalKey data k))) key =
      if key = k then none else contents data tx key := by
  unfold contents
  rw [Transaction.view_stage, get?_apply_delete]
  simp [physicalKey]

namespace DataAccess

variable {data : DataAccess} {tx : Transaction} (h : tx.Calm)
include h

theorem valueLen_calm (key : Bytes) :
    valueLen data key tx = .ok ((contents data tx key).map List.length) tx := by
  obtain ⟨snapshot, staged, token, poisoned, hasWrites, faults⟩ := tx
  obtain ⟨rfl, rfl⟩ := h
  rfl

theorem containsKey_calm (key : Bytes) :
    containsKey data key tx = .ok (contents data tx key).isSome tx := by
  obtain ⟨snapshot, staged, token, poisoned, hasWrites, faults⟩ := tx
  obtain ⟨rfl, rfl⟩ := h
  show EStateM.Result.ok ((contents data _ key).map List.length).isSome _ = _
  rw [Option.isSome_map]

theorem put_calm (key value : Bytes) :
    put data key value tx = .ok () (tx.stage (.put (physicalKey data key) value)) := by
  obtain ⟨snapshot, staged, token, poisoned, hasWrites, faults⟩ := tx
  obtain ⟨rfl, rfl⟩ := h
  rfl

theorem erase_calm (key : Bytes) :
    erase data key tx = .ok () (tx.stage (.delete (physicalKey data key))) := by
  obtain ⟨snapshot, staged, token, poisoned, hasWrites, faults⟩ := tx
  obtain ⟨rfl, rfl⟩ := h
  rfl

theorem getBounded_calm {V : Type} (value : Codec V) (key : Bytes) (maxBytes : Nat) :
    getBounded data value key maxBytes tx =
      recordResult (decodeBoundedValue value (contents data tx key) maxBytes) tx := by
  obtain ⟨snapshot, staged, token, poisoned, hasWrites, faults⟩ := tx
  obtain ⟨rfl, rfl⟩ := h
  rfl

theorem isPhysicallyEmpty_calm (hdata : (prefixSuccessor data).isSome = true) :
    ∃ empty, isPhysicallyEmpty data tx = .ok empty tx ∧
      (empty = true ↔ ∀ key, contents data tx key = none) := by
  refine ⟨namespaceIsEmpty tx.view data [] none, ?_, ?_⟩
  · obtain ⟨snapshot, staged, token, poisoned, hasWrites, faults⟩ := tx
    obtain ⟨rfl, rfl⟩ := h
    rfl
  · have hempty : namespaceIsEmpty tx.view data [] none =
        !((seek tx.view [] (namespaceEnd data) data).head?.any fun e => data.isPrefixOf e.1) := rfl
    rw [hempty, Bool.not_eq_true', ← Bool.not_eq_true, head_seek_iff hdata]
    constructor
    · intro hnone key
      by_contra hsome
      obtain ⟨value, hvalue⟩ := Option.ne_none_iff_exists'.mp hsome
      exact hnone ⟨_, (OrdMap.mem_entries _ _ _).mpr hvalue, List.prefix_append _ _⟩
    · rintro hnone ⟨⟨key, value⟩, hmem, rest, rfl⟩
      have := hnone rest
      unfold contents physicalKey at this
      rw [(OrdMap.mem_entries _ _ _).mp hmem] at this
      cases this

end DataAccess

/-! ## Scans -/

section Scan

variable {K V : Type}

/-- The loop of a scan over its iterator. The flag says that another matching
entry exists. -/
def scanLoop (key : Codec K) (value : Codec V) (data : DataAccess) (direction : ScanDirection)
    (lower upper : EncodedBound Bytes) (limit : ScanLimit) (keySuffix : Bytes) :
    List (Bytes × Bytes) → List (K × V) → Nat → Except Failure (List (K × V) × Bool)
  | [], entries, _ => .ok (entries, false)
  | e :: iterator, entries, bytes =>
    match strip data e.1 with
    | none =>
      if direction = .descending then
        scanLoop key value data direction lower upper limit keySuffix iterator entries bytes
      else .ok (entries, false)
    | some k =>
      if ¬ withinLower k lower then
        if direction = .ascending then
          scanLoop key value data direction lower upper limit keySuffix iterator entries bytes
        else .ok (entries, false)
      else if ¬ withinUpper k upper then
        if direction = .descending then
          scanLoop key value data direction lower upper limit keySuffix iterator entries bytes
        else .ok (entries, false)
      else if entries.length = limit.maxItems then .ok (entries, true)
      else
        let itemBytes := k.length + e.2.length
        if limit.maxBytes < bytes + itemBytes then
          if entries = [] then .error (.itemTooLarge itemBytes limit.maxBytes)
          else .ok (entries, true)
        else
          match strip keySuffix k with
          -- The range admits only keys with this suffix prefix.
          | none => .error (.storage "the encoded scan range admits only this key prefix")
          | some suffix =>
            match key.decode suffix, value.decode e.2 with
            | .error message, _ => .error (.codec message)
            | _, .error message => .error (.codec message)
            | .ok decodedKey, .ok decodedValue =>
              scanLoop key value data direction lower upper limit keySuffix iterator
                (entries ++ [(decodedKey, decodedValue)]) (bytes + itemBytes)

/-- The continuation is rebuilt through the key codec. -/
def rebuildKey (key : Codec K) (k : K) : Except String K :=
  match key.encode k with
  | .error message => .error message
  | .ok encoded => key.decode encoded

/-- The position of the last returned entry, when the scan was limited. -/
def continuationOf (key : Codec K) (entries : List (K × V)) (limited : Bool) :
    Except String (Option K) :=
  match entries.getLast?, limited with
  | some (k, _), true => (rebuildKey key k).map some
  | _, _ => .ok none

/-- One page of a namespace, from an engine iterator. -/
def scanData (key : Codec K) (value : Codec V) (db : Database) (data : DataAccess)
    (direction : ScanDirection) (lower upper : EncodedBound Bytes) (limit : ScanLimit)
    (keySuffix : Bytes) : Except Failure (OrderedMapPage K V) :=
  let lowerKey := match lower with
    | none => data
    | some (k, _) => physicalKey data k
  let upperKey := match upper with
    | none => namespaceEnd data
    | some (k, _) => physicalKey data k
  let iterator := match direction with
    | .ascending => seek db lowerKey (namespaceEnd data) lowerKey
    | .descending => seekForPrev db lowerKey upperKey
  match scanLoop key value data direction lower upper limit keySuffix iterator [] 0 with
  | .error e => .error e
  | .ok (entries, limited) =>
    match continuationOf key entries limited with
    | .error message => .error (.codec message)
    | .ok continuation => .ok ⟨entries, continuation⟩

namespace DataAccess

variable (data : DataAccess)

/-- One page of a key range; `keySuffix` is stripped before keys are decoded. -/
def scanKeySuffix (key : Codec K) (value : Codec V) (lower upper : EncodedBound Bytes)
    (direction : ScanDirection) (resumeAfter : Option Bytes) (limit : ScanLimit)
    (keySuffix : Bytes) : TxM (OrderedMapPage K V) := do
  let resume := resumeAfter.map fun k => (k, false)
  let (lower, upper) := match direction with
    | .ascending => (laterBound lower resume, upper)
    | .descending => (lower, earlierBound upper resume)
  ensureHealthy
  let result ← engineRead "scan data" fun db =>
    scanData key value db data direction lower upper limit keySuffix
  recordResult (result.bind id)

end DataAccess

/-- The ends of a key range, encoded. -/
def encodeBound (key : Codec K) (bound : EncodedBound K) : Except String (EncodedBound Bytes) :=
  match bound with
  | none => .ok none
  | some (k, inclusive) => (key.encode k).map fun b => some (b, inclusive)

def encodeResume (key : Codec K) (resumeAfter : Option K) : Except String (Option Bytes) :=
  match resumeAfter with
  | none => .ok none
  | some k => (key.encode k).map some

end Scan

end Dogpaddle.Store
