import Dogpaddle.Buffered.Control
import Dogpaddle.Lib.OrdMap

/-!
# Loading a delivery

A load walks the stored entries from the head on and cuts a delivery where the first of
four limits stops it: the events, the encoded bytes, the target bytes, or the tail. It may
stop inside a row's multiplicity. What it has walked is kept in the `Loader`, as the code
keeps it; a failed load keeps the cached entry.
-/

namespace Dogpaddle.Buffered

open Lib

variable {Row : Type}

/-! ## Changes as events -/

def eventCount (change : Change Row) : Except OperationError Nat :=
  change.events.foldlM (fun total event =>
    match checkedAdd total event.2.natAbs with
    | some total => .ok total
    | none => .error (invalid "Change event count exceeds u64")) 0

def entryEnd (change : Change Row) (entryStart : Nat) : Except OperationError Nat := do
  let events ← eventCount change
  if events = 0 then .error (invalid "buffer entry contains no events")
  else
    match checkedAdd entryStart events with
    | some stop => .ok stop
    | none => .error (invalid "buffer event offset is exhausted")

def encodedItemBytes (encoded : Bytes) : Except OperationError Nat :=
  match checkedAdd encoded.length mapKeyBytes with
  | some bytes => .ok bytes
  | none => .error (invalid "encoded Change size exceeds u64")

/-- A codec failure, boxed. -/
def codecFailure : CodecError → OperationError
  | .encodedSizeLimitExceeded _ => .message "encoded Change exceeds its size limit"
  | .invalid reason => .message reason

def decodeEntry (codec : SchemaBoundChangeCodec Row) (entryStart : Nat) (encoded : Bytes)
    (maxBytes : Nat) : Except OperationError (Change Row) := do
  let bytes ← encodedItemBytes encoded
  if bytes > maxBytes then
    .error (invalid s!"buffer entry {entryStart} exceeds the delivery byte limit")
  else (codec.decode encoded).mapError codecFailure

/-- `i64` with the sign of the original difference. -/
def signedCount (original : Int) (count : Nat) : Except OperationError Int :=
  if original > 0 then
    if count < 2 ^ 63 then .ok count else .error (invalid "positive event count exceeds i64")
  else if count ≤ 2 ^ 63 then .ok (-count)
  else .error (invalid "negative event count exceeds i64")

/-! ## The loader -/

/-- A bounded contiguous interval of events, as weighted rows. -/
structure DeliveryBatch (Row : Type) where
  change : Change Row
  firstEventOffset : Nat

def DeliveryBatch.new (change : Change Row) (firstEventOffset : Nat) :
    Except OperationError (DeliveryBatch Row) := do
  let events ← eventCount change
  if firstEventOffset = 0 ∨ events = 0 ∨ checkedAdd firstEventOffset events = none then
    .error (invalid "delivery interval exceeds the event domain")
  else .ok ⟨change, firstEventOffset⟩

structure LoadedBatch (Row : Type) where
  delivery : DeliveryBatch Row
  after : BufferState
  firstEntry : Change Row
  consumedKeys : List Nat

structure PositionHint where
  eventOffset : Nat
  rowIndex : Nat
  remaining : Nat

structure EntryCache (Row : Type) where
  entryStart : Nat
  itemBytes : Nat
  change : Change Row
  entryEnd : Nat
  positionHint : Option PositionHint := none
  eventBytes : Option (Nat × Nat) := none

structure LoadLimits where
  events : Nat
  encodedBytes : Nat
  itemBytes : Nat
  targetBytes : Nat

def LoadLimits.validate (limits : LoadLimits) : Except OperationError Unit :=
  if limits.events = 0 then .error (invalid "batch event limit must be nonzero")
  else if limits.encodedBytes = 0 then
    .error (invalid "batch encoded-byte limit must be nonzero")
  else if limits.itemBytes = 0 then .error (invalid "buffer item byte limit must be nonzero")
  else if limits.targetBytes = 0 then .error (invalid "target batch byte limit must be nonzero")
  else .ok ()

inductive LoadProgress
  | continue
  | stop (after : Position)

/-- The variables of a load. -/
structure Loader (Row : Type) where
  cache : Option (EntryCache Row)
  entryStart : Nat
  rowIndex : Nat := 0
  remaining : Nat := 0
  eventOffset : Nat
  entryEnd : Nat := 0
  firstEntry : Option (Change Row) := none
  consumedKeys : List Nat := []
  eventBudget : Nat
  targetByteBudget : Nat
  encodedBytes : Nat := 0
  deliveredEvents : Nat := 0
  retainedBytes : Nat
  recordBatches : List (List Row) := []
  diffs : List Int := []

abbrev LoadM (Row α : Type) := EStateM OperationError (Loader Row) α

/-- Lifts a pure failure. -/
def lift {α : Type} (x : Except OperationError α) : LoadM Row α := MonadExcept.ofExcept x

/-- Fails with the message, without a value. -/
def orInvalid (message : String) : Option Nat → LoadM Row Nat
  | some n => pure n
  | none => throw (invalid message)

section Load

variable (codec : SchemaBoundChangeCodec Row)
  (sizeEvent : Change Row → Nat → Except OperationError Nat)
  (buffer : OrdMap Nat Bytes) (before : BufferState) (limits : LoadLimits)

/-- The entry is the cached one. -/
def cachedAt (entryStart : Nat) (cache : Option (EntryCache Row)) : Option (EntryCache Row) :=
  cache.filter fun cached => cached.entryStart = entryStart

def loadEntry : LoadM Row (Nat × Change Row) := do
  let l ← get
  match cachedAt l.entryStart l.cache with
  | some cached => do
    set { l with entryEnd := cached.entryEnd }
    if cached.entryEnd > before.tail then throw (invalid "buffer entry exceeds its tail")
    else pure (cached.itemBytes, cached.change)
  | none =>
    match buffer.get? l.entryStart with
    | none => throw (invalid s!"buffer entry {l.entryStart} is missing")
    | some encoded =>
      if encoded.length > limits.itemBytes then
        throw (invalid "buffer entry exceeds the delivery byte limit")
      else do
        let itemBytes ← lift (encodedItemBytes encoded)
        let change ← lift (decodeEntry codec l.entryStart encoded limits.itemBytes)
        let stop ← lift (entryEnd change l.entryStart)
        set { l with entryEnd := stop }
        if stop > before.tail then throw (invalid "buffer entry exceeds its tail")
        else do
          set { l with
            entryEnd := stop
            cache := some { entryStart := l.entryStart, itemBytes, change, entryEnd := stop } }
          pure (itemBytes, change)

/-- The row an offset is in, and how much of it is left, from a row on. -/
def locateRow (eventOffset : Nat) : List (Row × Int) → (rowIndex offset : Nat) →
    Except OperationError (Nat × Nat)
  | [], _, _ => .error (invalid "buffer position does not match its Change")
  | event :: rows, rowIndex, offset =>
    match checkedAdd offset event.2.natAbs with
    | none => .error (invalid "buffer event offset is exhausted")
    | some stop =>
      if eventOffset < stop then .ok (rowIndex, stop - eventOffset)
      else locateRow eventOffset rows (rowIndex + 1) stop

/-- A hint for exactly this offset. The store's head is authoritative. -/
def hintAt (eventOffset : Nat) (cache : Option (EntryCache Row)) : Option PositionHint :=
  (cache.bind (·.positionHint)).filter fun hint => hint.eventOffset = eventOffset

def locatePosition (change : Change Row) : LoadM Row Unit := do
  let l ← get
  if l.eventOffset < l.entryStart ∨ l.eventOffset ≥ l.entryEnd then
    throw (invalid "buffer position does not match its Change")
  else
    match hintAt l.eventOffset l.cache with
    | some hint => set { l with rowIndex := hint.rowIndex, remaining := hint.remaining }
    | none => do
      let (rowIndex, remaining) ← lift (locateRow l.eventOffset change.events 0 l.entryStart)
      set { l with rowIndex, remaining }

/-- Where the load stands; the cache remembers it. -/
def currentPosition : LoadM Row Position := do
  let l ← get
  let hint : PositionHint := ⟨l.eventOffset, l.rowIndex, l.remaining⟩
  set { l with cache := l.cache.map fun (cached : EntryCache Row) =>
    if cached.entryStart = l.entryStart then { cached with positionHint := some hint }
    else cached }
  pure ⟨l.entryStart, l.eventOffset⟩

/-- The target bytes of one unit of the current row, sized once. -/
def eventBytes (change : Change Row) : LoadM Row Nat := do
  let l ← get
  match (l.cache.bind (·.eventBytes)).filter fun sized => sized.1 = l.rowIndex with
  | some sized => pure sized.2
  | none => do
    let bytes ← lift (sizeEvent change l.rowIndex)
    if bytes = 0 then throw (invalid "target event byte charge must be nonzero")
    else do
      set { l with cache := l.cache.map fun (cached : EntryCache Row) =>
        { cached with eventBytes := some (l.rowIndex, bytes) } }
      pure bytes

def charge (take bytesPerEvent : Nat) : LoadM Row Unit := do
  let l ← get
  let deliveredEvents ← orInvalid "delivered event count exceeds u64"
    (checkedAdd l.deliveredEvents take)
  let eventOffset ← orInvalid "delivery event offset is exhausted"
    (checkedAdd l.eventOffset take)
  if take * bytesPerEvent ≥ 2 ^ 64 then throw (invalid "target delivery byte count exceeds u64")
  else set { l with
    deliveredEvents
    eventOffset
    eventBudget := l.eventBudget - take
    targetByteBudget := l.targetByteBudget - take * bytesPerEvent
    remaining := l.remaining - take }

/-- Leaves a row that is used up, and its entry after the last row. -/
def advanceRow (itemBytes : Nat) (change : Change Row) : LoadM Row (Option LoadProgress) := do
  modify fun l => { l with rowIndex := l.rowIndex + 1 }
  let l ← get
  if l.rowIndex = change.numRows then
    if itemBytes > l.retainedBytes then throw (invalid "buffer retained-byte count underflow")
    else if l.eventOffset ≠ l.entryEnd then
      throw (invalid "buffer entry span does not match its rows")
    else do
      set { l with
        retainedBytes := l.retainedBytes - itemBytes
        consumedKeys := l.consumedKeys ++ [l.entryStart]
        entryStart := l.entryEnd }
      if l.entryEnd = before.tail then pure (some (.stop (.atEntry l.entryEnd)))
      else if l.eventBudget = 0 then pure (some (.stop (.atEntry l.entryEnd)))
      else do
        modify fun l => { l with rowIndex := 0, remaining := 0 }
        pure (some .continue)
  else
    match change.events[l.rowIndex]? with
    | none => throw (invalid "row index is outside the Change")
    | some event => do
      set { l with remaining := event.2.natAbs }
      if l.eventBudget = 0 then do
        let position ← currentPosition
        pure (some (.stop position))
      else pure none

/-- The rows of an entry from the current one on: the differences taken of them. -/
def consumeRows (itemBytes : Nat) (change : Change Row) :
    List (Row × Int) → List Int → LoadM Row (List Int × LoadProgress)
  | [], _ => throw (invalid "row index is outside the Change")
  | event :: rows, localDiffs => do
    let bytesPerEvent ← eventBytes sizeEvent change
    let l ← get
    let targetEvents := l.targetByteBudget / bytesPerEvent
    if targetEvents = 0 then
      if l.deliveredEvents = 0 then
        throw (invalid "one target mutation exceeds the target batch byte limit")
      else do
        let position ← currentPosition
        pure (localDiffs, .stop position)
    else do
      let take := min (min l.remaining l.eventBudget) targetEvents
      let diff ← lift (signedCount event.2 take)
      charge take bytesPerEvent
      if (← get).remaining ≠ 0 then do
        let position ← currentPosition
        pure (localDiffs ++ [diff], .stop position)
      else
        match ← advanceRow before itemBytes change with
        | some progress => pure (localDiffs ++ [diff], progress)
        | none => consumeRows itemBytes change rows (localDiffs ++ [diff])

/-- Adds what was taken of an entry to the delivery. -/
def pushRows (firstRow : Nat) (change : Change Row) (localDiffs : List Int) : LoadM Row Unit :=
  if localDiffs.isEmpty then pure ()
  else modify fun l => { l with
    recordBatches := l.recordBatches ++
      [((change.events.drop firstRow).take localDiffs.length).map (·.1)]
    diffs := l.diffs ++ localDiffs }

def consumeEntry (itemBytes : Nat) (change : Change Row) : LoadM Row LoadProgress := do
  let l ← get
  if itemBytes > limits.encodedBytes then
    throw (invalid s!"buffer entry {l.entryStart} exceeds the delivery byte limit")
  else do
    let nextEncodedBytes ← orInvalid "delivery encoded-byte count exceeds u64"
      (checkedAdd l.encodedBytes itemBytes)
    if l.encodedBytes ≠ 0 ∧ nextEncodedBytes > limits.encodedBytes then
      pure (.stop (.atEntry l.entryStart))
    else do
      set { l with encodedBytes := nextEncodedBytes }
      locatePosition change
      modify fun l => { l with firstEntry := l.firstEntry.or (some change) }
      let firstRow := (← get).rowIndex
      let (localDiffs, progress) ←
        consumeRows sizeEvent before itemBytes change (change.events.drop firstRow) []
      pushRows firstRow change localDiffs
      pure progress

/-- The loop over the entries. Each one ends after it starts, so that as many rounds as
there are events suffice; with none left the head has reached the tail. -/
def run : (rounds : Nat) → LoadM Row Position
  | 0 => throw (invalid "buffer head reaches or exceeds its tail")
  | rounds + 1 => do
    if (← get).entryStart ≥ before.tail then
      throw (invalid "buffer head reaches or exceeds its tail")
    else do
      let (itemBytes, change) ← loadEntry codec buffer before limits
      match ← consumeEntry sizeEvent before limits itemBytes change with
      | .stop after => pure after
      | .continue => run rounds

/-- A change of the columns of the first entry. -/
def tryNew (columns : Nat) (rows : List Row) (diffs : List Int) :
    Except OperationError (Change Row) :=
  if rows.length ≠ diffs.length then .error (.message "rows and differences differ in number")
  else
    match Change.tryNew columns (rows.zip diffs) with
    | some change => .ok change
    | none => .error (.message "a change cannot be empty")

def finish (afterHead : Position) : LoadM Row (LoadedBatch Row) := do
  let l ← get
  match l.firstEntry with
  | none => throw (invalid "a delivery has an original head entry")
  | some firstEntry => do
    let change ← lift (tryNew firstEntry.numColumns l.recordBatches.flatten l.diffs)
    let delivery ← lift (DeliveryBatch.new change before.head.eventOffset)
    let after : BufferState := ⟨afterHead, before.tail, l.retainedBytes⟩
    lift after.validate
    pure ⟨delivery, after, firstEntry, l.consumedKeys⟩

def loadBatch : LoadM Row (LoadedBatch Row) := do
  lift before.validate
  lift limits.validate
  if before.isEmpty then throw (invalid "cannot load a batch from an empty buffer")
  else do
    let afterHead ← run codec sizeEvent buffer before limits (before.tail - before.head.entryStart)
    finish before afterHead

/-- The loader before the first entry. -/
def Loader.start (cache : Option (EntryCache Row)) : Loader Row where
  cache := cache
  entryStart := before.head.entryStart
  eventOffset := before.head.eventOffset
  eventBudget := limits.events
  targetByteBudget := limits.targetBytes
  retainedBytes := before.retainedBytes

/-- A load, with the cached entry it leaves. -/
def load (cache : Option (EntryCache Row)) :
    Except OperationError (LoadedBatch Row) × Option (EntryCache Row) :=
  match loadBatch codec sizeEvent buffer before limits (.start before limits cache) with
  | .ok batch l => (.ok batch, l.cache)
  | .error error l => (.error error, l.cache)

end Load

end Dogpaddle.Buffered
