import Dogpaddle.Sink.Input

/-!
# Planning a delivery

`plan` turns the events of a delivery into the identities a target inserts and deletes.

* A delivery of insertions only takes a short way: its rows are sized, and each event becomes
  an insertion (`deriveInserts`).
* Any other is grouped by canonical rows (`planGroups`): the target is asked for the
  identities that the retractions of a group take, and the events are replayed over them.

On insertions both ways agree (`plan_eq_planGrouped`): no group asks for anything, so none of
them has progress and the replay only inserts.
-/

namespace Dogpaddle.Sink

open Lib Dogpaddle.Canonical Dogpaddle.Buffered

/-! ## Requests, answers and plans -/

structure Insert where
  rowIndex : Nat
  technicalId : Nat
deriving DecidableEq, Repr

structure Delete where
  rowIndex : Nat
  technicalId : Nat
  eventOffset : Nat
deriving DecidableEq, Repr

structure Batch where
  inserts : List Insert := []
  deletes : List Delete := []
deriving DecidableEq, Repr

/-- One bounded request for a distinct canonical row. -/
structure Lookup where
  rowIndex : Nat
  take : Nat
deriving DecidableEq, Repr

structure Matches where
  through : Nat
  ids : List Nat
deriving DecidableEq, Repr

structure RowPlan where
  rowIndex : Nat
  take : Nat := 0
  through : Nat := 0
  ids : List Nat := []
deriving DecidableEq, Repr, Inhabited

variable {schema : Schema}

/-! ## Insertions only -/

/-- The insertions of the events of one row. -/
def rowInserts (start rowIndex : Nat) : (eventOffset events : Nat) → List Insert
  | _, 0 => []
  | eventOffset, events + 1 =>
    (if start ≤ eventOffset then [⟨rowIndex, eventOffset⟩] else [])
      ++ rowInserts start rowIndex (eventOffset + 1) events

def insertsFrom (start : Nat) : List Int → (rowIndex eventOffset : Nat) → List Insert
  | [], _, _ => []
  | difference :: diffs, rowIndex, eventOffset =>
    rowInserts start rowIndex eventOffset difference.natAbs
      ++ insertsFrom start diffs (rowIndex + 1) (eventOffset + difference.natAbs)

def deriveInserts (input : DeliveryBatch (SchemaRow schema)) (start : Nat) : Batch where
  inserts := insertsFrom start (input.change.events.map Prod.snd) 0 input.firstEventOffset

/-! ## Groups -/

/-- The rows grouped so far. -/
structure Grouping where
  groups : List RowPlan := []
  keys : List (Bytes × Nat) := []
  rowGroups : List Nat := []
  eventOffset : Nat

/-- The group of a canonical row, a new one for the first row of its kind. -/
def Grouping.entry (g : Grouping) (rowIndex : Nat) (canonical : Bytes) : Nat × Grouping :=
  match g.keys.lookup canonical with
  | some group => (group, g)
  | none => (g.groups.length, { g with
      groups := g.groups ++ [{ rowIndex := rowIndex }]
      keys := (canonical, g.groups.length) :: g.keys })

def Grouping.addRow (start : Nat) (g : Grouping) (row : (Bytes × Int) × Nat) : Grouping :=
  let entry := g.entry row.2 row.1.1
  let difference := row.1.2
  let rowEnd := g.eventOffset + difference.natAbs
  { entry.2 with
    groups :=
      if difference < 0 then
        entry.2.groups.modify entry.1 fun group =>
          { group with take := group.take + (rowEnd - max start g.eventOffset) }
      else entry.2.groups
    eventOffset := rowEnd
    rowGroups := entry.2.rowGroups ++ [entry.1] }

def groupRows (start first : Nat) (rows : List (Bytes × Int)) : Grouping :=
  rows.zipIdx.foldl (Grouping.addRow start) { eventOffset := first }

def validateMatches (request : RowPlan) (found : Matches) (tail : Nat) :
    Except OperationError Unit :=
  if found.through ≥ tail ∨ found.ids.length > request.take ∨
      (found.ids.any fun id => id = 0 || id > found.through) ∨ ¬ found.ids.IsChain (· < ·) then
    .error (invalid "target returned invalid matching row progress or IDs")
  else .ok ()

/-- The identities seen so far, when the new ones are not among them. -/
def insertUnique : List Nat → List Nat → Option (List Nat)
  | unique, [] => some unique
  | unique, id :: ids => if id ∈ unique then none else insertUnique (id :: unique) ids

/-- Hands each group that asked its answer. -/
def assignMatches (tail : Nat) : List RowPlan → List Matches → (unique : List Nat) →
    Except OperationError (List RowPlan)
  | [], _, _ => .ok []
  | row :: rows, answers, unique =>
    if row.take = 0 then do
      let rows ← assignMatches tail rows answers unique
      .ok (row :: rows)
    else
      match answers with
      | [] => .ok (row :: rows)
      | found :: answers => do
        validateMatches row found tail
        match insertUnique unique found.ids with
        | none => .error (invalid "target returned an ID for multiple logical rows")
        | some unique =>
          let rows ← assignMatches tail rows answers unique
          .ok ({ row with through := found.through, ids := found.ids } :: rows)

def lookupGroups (groups : List RowPlan) (tail : Nat)
    (lookup : List Lookup → Except OperationError (List Matches)) :
    Except OperationError (List RowPlan) :=
  let requests := (groups.filter (·.take ≠ 0)).map fun row => Lookup.mk row.rowIndex row.take
  if requests.isEmpty then .ok groups
  else do
    let answers ← lookup requests
    if answers.length ≠ requests.length then
      .error (invalid "target returned a different number of lookup results")
    else assignMatches tail groups answers []

/-! ## Replay -/

/-- The replay of the events over the groups. -/
structure Replay where
  groups : List RowPlan
  batch : Batch := {}
  births : List (Nat × Nat) := []
  eventOffset : Nat

def Replay.event (start originalHead rowIndex group : Nat) (difference : Int) (r : Replay) :
    Except OperationError Replay :=
  let row := r.groups.getD group default
  if start ≤ r.eventOffset ∧ row.through < r.eventOffset then
    if difference > 0 then
      .ok { r with
        groups := r.groups.modify group fun row => { row with ids := row.ids ++ [r.eventOffset] }
        batch := { r.batch with inserts := r.batch.inserts ++ [⟨rowIndex, r.eventOffset⟩] }
        eventOffset := r.eventOffset + 1 }
    else
      match row.ids with
      | [] => .error (invalid "target returned too few IDs for the remaining row prefix")
      | id :: ids =>
        if r.eventOffset ≤ id then .error (invalid "deletion cannot consume a later event")
        else
          .ok { r with
            groups := r.groups.modify group fun row => { row with ids := ids }
            births :=
              if originalHead ≤ id ∧ id ≤ row.through then r.births ++ [(id, rowIndex)]
              else r.births
            batch := { r.batch with deletes := r.batch.deletes ++ [⟨rowIndex, id, r.eventOffset⟩] }
            eventOffset := r.eventOffset + 1 }
  else .ok { r with eventOffset := r.eventOffset + 1 }

def Replay.row (start originalHead rowIndex group : Nat) (difference : Int) :
    (events : Nat) → Replay → Except OperationError Replay
  | 0, r => .ok r
  | events + 1, r => do
    let r ← r.event start originalHead rowIndex group difference
    Replay.row start originalHead rowIndex group difference events r

def Replay.rows (start originalHead : Nat) :
    List ((Nat × Int) × Nat) → Replay → Except OperationError Replay
  | [], r => .ok r
  | row :: rows, r => do
    let r ← r.row start originalHead row.2 row.1.1 row.1.2 row.1.2.natAbs
    Replay.rows start originalHead rows r

/-! ## Retained births -/

/-- A scan of retained diff intervals: the next row, the end of the one before it, and what
was checked and compared. -/
structure BirthScan where
  row : Nat := 0
  stop : Nat
  checked : List Nat := []
  compared : List (Nat × Nat) := []

/-- Moves to the row whose events contain an identity. -/
def BirthScan.advance (id : Nat) :
    List Int → BirthScan → Except OperationError (List Int × BirthScan)
  | [], s =>
    if s.stop ≤ id then .error (invalid "matching ID is outside the retained head entry")
    else .ok ([], s)
  | difference :: diffs, s =>
    if s.stop ≤ id then
      match checkedAdd s.stop difference.natAbs with
      | none => .error (invalid "retained head event range exceeds u64")
      | some stop => BirthScan.advance id diffs { s with row := s.row + 1, stop := stop }
    else .ok (difference :: diffs, s)

/-- Checks the births of one entry; `sameRow` is the equality of one-row record batches. -/
def validateBirths (sameRow : SchemaRow schema → SchemaRow schema → Bool)
    (head current : Change (SchemaRow schema)) :
    List (Nat × Nat) → List Int → BirthScan → Except OperationError Unit
  | [], _, _ => .ok ()
  | birth :: prior, diffs, s => do
    let found ← s.advance birth.1 diffs
    let currentRow := birth.2
    let diffs := found.1
    let s := found.2
    let source := s.row - 1
    match head.events[source]?, current.events[currentRow]? with
    | some born, some row =>
      if born.2 ≤ 0 then
        .error (invalid "matching ID was born in a retained negative event")
      else if (source, currentRow) ∈ s.compared then
        validateBirths sameRow head current prior diffs s
      else do
        if source ∉ s.checked then
          let _ ← rowSizeBounded born.1 maxCanonicalBatchBytes
        if sameRow born.1 row.1 then
          validateBirths sameRow head current prior diffs
            { s with
              checked := source :: s.checked
              compared := (source, currentRow) :: s.compared }
        else .error (invalid "matching ID belongs to a different retained birth row")
    | _, _ => .error (invalid "index out of bounds")

def validateRetainedBirths (sameRow : SchemaRow schema → SchemaRow schema → Bool) (start : Nat)
    (head : Change (SchemaRow schema)) (prior : List (Nat × Nat))
    (current : Change (SchemaRow schema)) : Except OperationError Unit :=
  validateBirths sameRow head current prior (head.events.map Prod.snd) { stop := start }

/-! ## Plans -/

section Plan

variable (sameRow : SchemaRow schema → SchemaRow schema → Bool)
  (input : DeliveryBatch (SchemaRow schema)) (start tail : Nat)
  (originalHead : Nat × Change (SchemaRow schema))
  (lookup : List Lookup → Except OperationError (List Matches))

/-- The general way. -/
def planGroups (remaining : Nat) : Except OperationError Batch := do
  let change := input.change
  let first := input.firstEventOffset
  let diffs := change.events.map Prod.snd
  let canonical ← boundedCanonicalRows change
  let grouping := groupRows start first (canonical.zip diffs)
  let groups ← lookupGroups grouping.groups tail lookup
  let negatives := (groups.map (·.take)).sum
  if remaining < negatives then .error (invalid "attempt to subtract with overflow")
  else
    let replay ← Replay.rows start originalHead.1 (grouping.rowGroups.zip diffs).zipIdx
      { groups := groups, eventOffset := first }
    let births := replay.births.mergeSort fun a b => a.1 ≤ b.1
    validateRetainedBirths sameRow originalHead.1 originalHead.2
      (births.takeWhile (·.1 < first)) change
    -- Known births may lie in a skipped part of the delivery itself.
    validateRetainedBirths sameRow first change (births.dropWhile (·.1 < first)) change
    pure replay.batch

/-- The checks in front of both ways, and the events from the start on. -/
def planBounds : Except OperationError Nat := do
  let _ ← validateInput input
  let stop ← endEventOffset input
  if start < input.firstEventOffset ∨ start > tail ∨ stop > tail ∨ originalHead.1 = 0 ∨
      originalHead.1 > input.firstEventOffset then
    .error (invalid "invalid delivery prefix bounds")
  else pure (stop - start)

def plan : Except OperationError Batch := do
  let remaining ← planBounds input start tail originalHead
  if input.change.events.all fun event => event.2 > 0 then do
    checkCanonicalBudget input.change
    pure (deriveInserts input start)
  else planGroups sameRow input start tail originalHead lookup remaining

/-- `plan` without its short way. -/
def planGrouped : Except OperationError Batch := do
  let remaining ← planBounds input start tail originalHead
  planGroups sameRow input start tail originalHead lookup remaining

end Plan

/-! ## Both ways on insertions -/

theorem rowBounded_eq_ok {row : SchemaRow schema} {maxBytes : Nat} {bytes : Bytes} :
    rowBounded row maxBytes = .ok bytes ↔
      Room (some maxBytes) row.bytes ∧ bytes = canonicalAll schema row.1 := by
  constructor
  · intro h
    by_cases hroom : Room (some maxBytes) row.bytes
    · rw [rowBounded_of_room hroom] at h
      cases h
      exact ⟨hroom, rfl⟩
    · have hwrites := encodeFields_writes [] row.2
        (fun f _ value path => encode_writes (some maxBytes) f value path) []
        (room_some.mpr ⟨by decide, Nat.zero_le _⟩)
      rw [List.nil_append, List.length_nil, Nat.zero_add] at hwrites
      obtain ⟨error, out, herror⟩ := hwrites.2 hroom
      unfold rowBounded at h
      rw [herror] at h
      cases h
  · rintro ⟨hroom, rfl⟩
    exact rowBounded_of_room hroom

theorem encodeRows_length {events : List (SchemaRow schema × Int)} {remaining : Nat}
    {rows : List Bytes} (h : encodeRows events remaining = .ok rows) :
    rows.length = events.length := by
  induction events generalizing remaining rows with
  | nil =>
    cases h
    rfl
  | cons event events ih =>
    obtain ⟨encoded, -, h⟩ := except_bind_eq_ok.mp h
    obtain ⟨tail, htail, h⟩ := except_bind_eq_ok.mp h
    cases h
    rw [List.length_cons, List.length_cons, ih htail]

/-- A delivery whose rows can be sized within the budget can be encoded within it. -/
theorem sizeRows_iff_encodeRows (events : List (SchemaRow schema × Int)) (remaining : Nat) :
    (∃ left, sizeRows events remaining = .ok left) ↔
      ∃ rows, encodeRows events remaining = .ok rows ∧ rows.length = events.length := by
  induction events generalizing remaining with
  | nil => exact ⟨fun _ => ⟨[], rfl, rfl⟩, fun _ => ⟨remaining, rfl⟩⟩
  | cons event events ih =>
    constructor
    · rintro ⟨left, h⟩
      obtain ⟨size, hsize, h⟩ := except_bind_eq_ok.mp h
      obtain ⟨hroom, rfl⟩ := rowSizeBounded_eq_ok.mp hsize
      obtain ⟨rows, hrows, hlength⟩ := (ih _).mp ⟨left, h⟩
      refine ⟨canonicalAll schema event.1.1 :: rows, ?_, by simp [hlength]⟩
      exact except_bind_eq_ok.mpr ⟨_, rowBounded_eq_ok.mpr ⟨hroom, rfl⟩,
        except_bind_eq_ok.mpr ⟨rows, hrows, rfl⟩⟩
    · rintro ⟨rows, h, -⟩
      obtain ⟨encoded, hencoded, h⟩ := except_bind_eq_ok.mp h
      obtain ⟨hroom, rfl⟩ := rowBounded_eq_ok.mp hencoded
      obtain ⟨tail, htail, h⟩ := except_bind_eq_ok.mp h
      have hlength := encodeRows_length htail
      obtain ⟨left, hleft⟩ := (ih _).mpr ⟨tail, htail, hlength⟩
      exact ⟨left, except_bind_eq_ok.mpr ⟨_, rowSizeBounded_eq_ok.mpr ⟨hroom, rfl⟩, hleft⟩⟩

/-- A group that no retraction belongs to. -/
def RowPlan.Idle (row : RowPlan) : Prop := row.take = 0 ∧ row.through = 0

theorem Grouping.idle_entry {g : Grouping} (h : ∀ row ∈ g.groups, row.Idle) (rowIndex : Nat)
    (canonical : Bytes) :
    (∀ row ∈ (g.entry rowIndex canonical).2.groups, row.Idle) ∧
      (g.entry rowIndex canonical).2.rowGroups = g.rowGroups := by
  unfold Grouping.entry
  cases g.keys.lookup canonical with
  | some group => exact ⟨h, rfl⟩
  | none =>
    refine ⟨fun row hrow => ?_, rfl⟩
    rcases List.mem_append.mp hrow with hrow | hrow
    · exact h row hrow
    · rw [List.mem_singleton.mp hrow]
      exact ⟨rfl, rfl⟩

theorem Grouping.idle_addRow {g : Grouping} (h : ∀ row ∈ g.groups, row.Idle) (start : Nat)
    {row : (Bytes × Int) × Nat} (hpos : 0 < row.1.2) :
    (∀ r ∈ (g.addRow start row).groups, r.Idle) ∧
      (g.addRow start row).rowGroups.length = g.rowGroups.length + 1 := by
  obtain ⟨hidle, hgroups⟩ := g.idle_entry h row.2 row.1.1
  unfold Grouping.addRow
  refine ⟨?_, ?_⟩
  · show ∀ r ∈ (if row.1.2 < 0 then _ else _), RowPlan.Idle r
    rw [if_neg (by omega)]
    exact hidle
  · show ((g.entry row.2 row.1.1).2.rowGroups ++ [_]).length = _
    rw [hgroups, List.length_append, List.length_singleton]

theorem idle_foldl_addRow (start : Nat) (rows : List ((Bytes × Int) × Nat))
    (hpos : ∀ row ∈ rows, 0 < row.1.2) (g : Grouping) (h : ∀ row ∈ g.groups, row.Idle) :
    (∀ row ∈ (rows.foldl (Grouping.addRow start) g).groups, row.Idle) ∧
      (rows.foldl (Grouping.addRow start) g).rowGroups.length =
        g.rowGroups.length + rows.length := by
  induction rows generalizing g with
  | nil => exact ⟨h, rfl⟩
  | cons row rows ih =>
    obtain ⟨hidle, hlength⟩ := g.idle_addRow h start (hpos row List.mem_cons_self)
    obtain ⟨hall, htotal⟩ := ih (fun r hr => hpos r (List.mem_cons_of_mem _ hr)) _ hidle
    refine ⟨hall, ?_⟩
    rw [List.foldl_cons, htotal, hlength, List.length_cons]
    omega

/-- Grouping insertions asks for nothing. -/
theorem idle_groupRows (start first : Nat) {rows : List (Bytes × Int)}
    (hpos : ∀ row ∈ rows, 0 < row.2) :
    (∀ row ∈ (groupRows start first rows).groups, row.Idle) ∧
      (groupRows start first rows).rowGroups.length = rows.length := by
  have hmember : ∀ row ∈ rows.zipIdx, 0 < row.1.2 := by
    intro row hrow
    obtain ⟨hlt, hrow⟩ := List.mem_zipIdx' hrow
    rw [hrow]
    exact hpos _ (List.getElem_mem hlt)
  obtain ⟨hidle, hlength⟩ := idle_foldl_addRow start rows.zipIdx hmember { eventOffset := first }
    fun row hrow => absurd hrow List.not_mem_nil
  rw [List.length_zipIdx] at hlength
  exact ⟨hidle, hlength.trans (Nat.zero_add _)⟩

theorem sum_take_idle {groups : List RowPlan} (h : ∀ row ∈ groups, row.Idle) :
    (groups.map (·.take)).sum = 0 := by
  rw [List.map_eq_replicate_iff.mpr fun row hrow => (h row hrow).1, List.sum_replicate_nat,
    Nat.mul_zero]

theorem lookupGroups_idle {groups : List RowPlan} (h : ∀ row ∈ groups, row.Idle) (tail : Nat)
    (lookup : List Lookup → Except OperationError (List Matches)) :
    lookupGroups groups tail lookup = .ok groups := by
  have hnone : groups.filter (·.take ≠ 0) = [] :=
    List.filter_eq_nil_iff.mpr fun row hrow => by simp [(h row hrow).1]
  unfold lookupGroups
  rw [hnone]
  rfl

/-- The replay has only inserted: `inserts` more than before, and one event is behind it for
each event of the rows. -/
structure Replay.Inserted (r r' : Replay) (inserts : List Insert) (events : Nat) : Prop where
  idle : ∀ row ∈ r'.groups, row.through = 0
  inserts : r'.batch.inserts = r.batch.inserts ++ inserts
  deletes : r'.batch.deletes = r.batch.deletes
  births : r'.births = r.births
  eventOffset : r'.eventOffset = r.eventOffset + events

theorem through_getD {groups : List RowPlan} (h : ∀ row ∈ groups, row.through = 0) (group : Nat) :
    (groups.getD group default).through = 0 := by
  rw [List.getD_eq_getElem?_getD]
  cases hget : groups[group]? with
  | none => rfl
  | some row => exact h row (List.mem_of_getElem? hget)

section Replay

variable {start originalHead rowIndex group : Nat} {difference : Int} {r : Replay}

theorem Replay.event_insert (hidle : ∀ row ∈ r.groups, row.through = 0) (hpos : 0 < difference)
    (hoffset : 0 < r.eventOffset) :
    ∃ r', r.event start originalHead rowIndex group difference = .ok r' ∧
      r.Inserted r' (if start ≤ r.eventOffset then [⟨rowIndex, r.eventOffset⟩] else []) 1 := by
  have hthrough := through_getD hidle group
  unfold Replay.event
  by_cases hstart : start ≤ r.eventOffset
  · simp only [hthrough, hstart, hoffset, hpos, and_self, if_true]
    refine ⟨_, rfl, ?_, rfl, rfl, rfl, rfl⟩
    intro row hrow
    obtain ⟨i, hi⟩ := List.getElem?_of_mem hrow
    rw [List.getElem?_modify] at hi
    cases hget : r.groups[i]? with
    | none =>
      rw [hget] at hi
      cases hi
    | some old =>
      have hold := hidle old (List.mem_of_getElem? hget)
      rw [hget] at hi
      cases hi
      split
      · exact hold
      · exact hold
  · simp only [hstart, false_and, if_false]
    exact ⟨_, rfl, hidle, (List.append_nil _).symm, rfl, rfl, rfl⟩

theorem Replay.Inserted.trans {r r' r'' : Replay} {inserts inserts' : List Insert}
    {events events' : Nat} (h : r.Inserted r' inserts events)
    (h' : r'.Inserted r'' inserts' events') :
    r.Inserted r'' (inserts ++ inserts') (events + events') where
  idle := h'.idle
  inserts := by rw [h'.inserts, h.inserts, List.append_assoc]
  deletes := h'.deletes.trans h.deletes
  births := h'.births.trans h.births
  eventOffset := by rw [h'.eventOffset, h.eventOffset, Nat.add_assoc]

theorem Replay.Inserted.refl (hidle : ∀ row ∈ r.groups, row.through = 0) : r.Inserted r [] 0 :=
  ⟨hidle, (List.append_nil _).symm, rfl, rfl, rfl⟩

theorem Replay.row_insert (hpos : 0 < difference) (events : Nat) :
    ∀ r : Replay, (∀ row ∈ r.groups, row.through = 0) → 0 < r.eventOffset →
      ∃ r', r.row start originalHead rowIndex group difference events = .ok r' ∧
        r.Inserted r' (rowInserts start rowIndex r.eventOffset events) events := by
  induction events with
  | zero =>
    intro r hidle _
    exact ⟨r, rfl, .refl hidle⟩
  | succ events ih =>
    intro r hidle hoffset
    obtain ⟨mid, hmid, hstep⟩ :=
      @Replay.event_insert start originalHead rowIndex group difference r hidle hpos hoffset
    obtain ⟨r', hr', hrest⟩ := ih mid hstep.idle (by rw [hstep.eventOffset]; omega)
    refine ⟨r', except_bind_eq_ok.mpr ⟨mid, hmid, hr'⟩, ?_⟩
    rw [hstep.eventOffset] at hrest
    have htotal := hstep.trans hrest
    rw [Nat.add_comm 1 events] at htotal
    exact htotal

theorem Replay.rows_insert (diffs : List Int) :
    ∀ (groups : List Nat) (first : Nat) (r : Replay), groups.length = diffs.length →
      (∀ d ∈ diffs, 0 < d) → (∀ row ∈ r.groups, row.through = 0) → 0 < r.eventOffset →
      ∃ r', Replay.rows start originalHead ((groups.zip diffs).zipIdx first) r = .ok r' ∧
        r.Inserted r' (insertsFrom start diffs first r.eventOffset)
          (diffs.map Int.natAbs).sum := by
  induction diffs with
  | nil =>
    intro groups first r hlength _ hidle _
    rw [List.zip_nil_right]
    exact ⟨r, rfl, .refl hidle⟩
  | cons d diffs ih =>
    intro groups first r hlength hpos hidle hoffset
    cases groups with
    | nil => cases hlength
    | cons group groups =>
      obtain ⟨mid, hmid, hstep⟩ := @Replay.row_insert start originalHead first group d
        (hpos d List.mem_cons_self) d.natAbs r hidle hoffset
      obtain ⟨r', hr', hrest⟩ := ih groups (first + 1) mid (Nat.succ.inj hlength)
        (fun d' hd' => hpos d' (List.mem_cons_of_mem _ hd')) hstep.idle
        (by rw [hstep.eventOffset]; omega)
      rw [List.zip_cons_cons, List.zipIdx_cons]
      rw [hstep.eventOffset] at hrest
      exact ⟨r', except_bind_eq_ok.mpr ⟨mid, hmid, hr'⟩, hstep.trans hrest⟩

end Replay

/-! ## The two ways -/

section Plan

variable {sameRow : SchemaRow schema → SchemaRow schema → Bool}
  {input : DeliveryBatch (SchemaRow schema)} {start tail : Nat}
  {originalHead : Nat × Change (SchemaRow schema)}
  {lookup : List Lookup → Except OperationError (List Matches)}

theorem firstEventOffset_pos_of_validateInput {events : Nat}
    (h : validateInput input = .ok events) : 0 < input.firstEventOffset := by
  obtain ⟨_, hid, -⟩ := except_bind_eq_ok.mp h
  unfold validateTechnicalId firstTechnicalId at hid
  split at hid
  · next hbounds => exact hbounds.1
  · cases hid

/-- Once the rows of insertions are encoded, the general way inserts every event from the
start on and nothing else. -/
theorem planGroups_of_encoded (hpos : ∀ event ∈ input.change.events, 0 < event.2)
    (hfirst : 0 < input.firstEventOffset) {rows : List Bytes}
    (hrows : boundedCanonicalRows input.change = .ok rows)
    (hlength : rows.length = input.change.events.length) (remaining : Nat) :
    planGroups sameRow input start tail originalHead lookup remaining =
      .ok (deriveInserts input start) := by
  have hdiffs : ∀ d ∈ input.change.events.map Prod.snd, 0 < d := by
    intro d hd
    obtain ⟨event, hevent, rfl⟩ := List.mem_map.mp hd
    exact hpos event hevent
  have hrow : ∀ row ∈ rows.zip (input.change.events.map Prod.snd), 0 < row.2 :=
    fun row hrow => hdiffs _ (List.of_mem_zip hrow).2
  obtain ⟨hidle, hgroups⟩ := idle_groupRows start input.firstEventOffset hrow
  rw [List.length_zip, List.length_map, hlength, Nat.min_self] at hgroups
  obtain ⟨replay, hreplay, hinserted⟩ := @Replay.rows_insert start originalHead.1
    (input.change.events.map Prod.snd)
    (groupRows start input.firstEventOffset
      (rows.zip (input.change.events.map Prod.snd))).rowGroups 0
    { groups := (groupRows start input.firstEventOffset
        (rows.zip (input.change.events.map Prod.snd))).groups
      eventOffset := input.firstEventOffset }
    (by rw [hgroups, List.length_map]) hdiffs (fun row hrow => (hidle row hrow).2) hfirst
  have hbatch : replay.batch = deriveInserts input start := by
    obtain ⟨groups, ⟨inserts, deletes⟩, births, eventOffset⟩ := replay
    have hinserts : inserts = [] ++ _ := hinserted.inserts
    have hdeletes : deletes = [] := hinserted.deletes
    rw [hinserts, hdeletes, List.nil_append]
    rfl
  have hbirths : replay.births = [] := hinserted.births
  unfold planGroups
  refine except_bind_eq_ok.mpr ⟨rows, hrows, ?_⟩
  refine except_bind_eq_ok.mpr ⟨_, lookupGroups_idle hidle tail lookup, ?_⟩
  show (if remaining < ((groupRows start input.firstEventOffset
    (rows.zip (input.change.events.map Prod.snd))).groups.map (·.take)).sum then _ else _) = _
  rw [sum_take_idle hidle, if_neg (Nat.not_lt_zero _)]
  refine except_bind_eq_ok.mpr ⟨replay, hreplay, ?_⟩
  rw [hbirths, hbatch, List.mergeSort_nil]
  rfl

/-- On a delivery of insertions the short way gives a batch exactly when the general one does,
and then the same one, whatever the target would answer; so one fails where the other does. -/
theorem plan_eq_planGrouped (sameRow : SchemaRow schema → SchemaRow schema → Bool)
    (input : DeliveryBatch (SchemaRow schema)) (start tail : Nat)
    (originalHead : Nat × Change (SchemaRow schema))
    (lookup : List Lookup → Except OperationError (List Matches))
    (hpos : ∀ event ∈ input.change.events, 0 < event.2) (batch : Batch) :
    (plan sameRow input start tail originalHead lookup = .ok batch ↔
      planGrouped sameRow input start tail originalHead lookup = .ok batch) ∧
    (plan sameRow input start tail originalHead lookup = .ok batch →
      batch.deletes = [] ∧ batch = deriveInserts input start) := by
  have hall : (input.change.events.all fun event => decide (event.2 > 0)) = true :=
    List.all_eq_true.mpr fun event hevent => decide_eq_true (hpos event hevent)
  have hplan : plan sameRow input start tail originalHead lookup = .ok batch ↔
      ∃ remaining, planBounds input start tail originalHead = .ok remaining ∧
        (∃ left, sizeRows input.change.events maxCanonicalBatchBytes = .ok left) ∧
        batch = deriveInserts input start := by
    unfold plan
    rw [except_bind_eq_ok, hall]
    constructor
    · rintro ⟨remaining, hbounds, h⟩
      rw [if_pos rfl] at h
      obtain ⟨_, hbudget, h⟩ := except_bind_eq_ok.mp h
      obtain ⟨left, hleft, -⟩ := except_bind_eq_ok.mp hbudget
      cases h
      exact ⟨remaining, hbounds, ⟨left, hleft⟩, rfl⟩
    · rintro ⟨remaining, hbounds, ⟨left, hleft⟩, rfl⟩
      refine ⟨remaining, hbounds, ?_⟩
      rw [if_pos rfl]
      exact except_bind_eq_ok.mpr ⟨(), except_bind_eq_ok.mpr ⟨left, hleft, rfl⟩, rfl⟩
  have hfirst : ∀ remaining, planBounds input start tail originalHead = .ok remaining →
      0 < input.firstEventOffset := by
    intro remaining h
    obtain ⟨events, hevents, -⟩ := except_bind_eq_ok.mp h
    exact firstEventOffset_pos_of_validateInput hevents
  refine ⟨hplan.trans ?_, fun h => ?_⟩
  · unfold planGrouped
    rw [except_bind_eq_ok]
    constructor
    · rintro ⟨remaining, hbounds, hsized, rfl⟩
      obtain ⟨rows, hrows, hlength⟩ := (sizeRows_iff_encodeRows _ _).mp hsized
      exact ⟨remaining, hbounds,
        planGroups_of_encoded hpos (hfirst remaining hbounds) hrows hlength remaining⟩
    · rintro ⟨remaining, hbounds, h⟩
      have hencoded := h
      unfold planGroups at hencoded
      obtain ⟨rows, hrows, -⟩ := except_bind_eq_ok.mp hencoded
      have hlength := encodeRows_length hrows
      rw [planGroups_of_encoded hpos (hfirst remaining hbounds) hrows hlength remaining] at h
      cases h
      exact ⟨remaining, hbounds, (sizeRows_iff_encodeRows _ _).mpr ⟨rows, hrows, hlength⟩, rfl⟩
  · obtain ⟨-, -, -, rfl⟩ := hplan.mp h
    exact ⟨rfl, rfl⟩

/-- Two rows, inserted twice and once. -/
def threeInserts : DeliveryBatch (SchemaRow []) where
  change :=
    { numColumns := 0
      events := [(blankRow, 2), (blankRow, 1)]
      nonempty := by decide
      nonzero := by simp }
  firstEventOffset := 5

theorem plan_threeInserts :
    plan (fun _ _ => true) threeInserts 6 8 (5, threeInserts.change) (fun _ => .ok []) =
        .ok ⟨[⟨0, 6⟩, ⟨1, 7⟩], []⟩ ∧
      planGrouped (fun _ _ => true) threeInserts 6 8 (5, threeInserts.change) (fun _ => .ok []) =
        .ok ⟨[⟨0, 6⟩, ⟨1, 7⟩], []⟩ := by
  have h := plan_eq_planGrouped (fun _ _ => true) threeInserts 6 8 (5, threeInserts.change)
    (fun _ => .ok []) (by simp [threeInserts]) ⟨[⟨0, 6⟩, ⟨1, 7⟩], []⟩
  have hplan : plan (fun _ _ => true) threeInserts 6 8 (5, threeInserts.change)
      (fun _ => .ok []) = .ok ⟨[⟨0, 6⟩, ⟨1, 7⟩], []⟩ := by decide +kernel
  exact ⟨hplan, h.1.mp hplan⟩

end Plan

end Dogpaddle.Sink
