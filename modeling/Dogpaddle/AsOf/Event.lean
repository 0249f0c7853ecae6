import Dogpaddle.AsOf.Prepare
import Dogpaddle.Operation.Run

/-!
# Pages of the ordered join

What one page of an event does, as a relation on states without the allowance: `Left` for a
left event, `Partial` for a page of a right event that leaves left rows for another one, and
`Final` for the page that completes it. `Drives` is a run of pages over the events of an
input, and `step_eq_ok`, `drives_of_pages` say that the code makes such runs.
-/

namespace Dogpaddle.AsOf

open Lib Store Dogpaddle.Relation

variable {Ty Value : Type}

/-! ## Reading the right rows -/

theorem admitEntries_length {K V : Type} {size : K × V → Nat} {limit : ScanLimit}
    {todo entries : List (K × V)} {bytes : Nat} {out : List (K × V)} {limited : Bool}
    (h : admitEntries size limit todo entries bytes = .ok (out, limited))
    (hle : entries.length ≤ limit.maxItems) : out.length ≤ limit.maxItems := by
  induction todo generalizing entries bytes with
  | nil =>
    cases h
    exact hle
  | cons e rest ih =>
    rw [admitEntries] at h
    split at h
    · cases h
      exact hle
    · next hne =>
      split at h
      · split at h
        · cases h
        · cases h
          exact hle
      · exact ih h (by rw [List.length_append]; exact Nat.lt_of_le_of_ne hle hne)

theorem scan_eq_ok {rows : OrdMap Bytes ℕ+} {range : Range} {direction : ScanDirection}
    {resume : Option Bytes} {items : Nat} {hitems : 0 < items}
    {page : OrderedMapPage Bytes ℕ+} {s s' : Scope AsOfState}
    (h : scan rows range direction resume items hitems s = .ok page s') :
    s'.state = s.state ∧ IsPage (remaining rows range.1 range.2 direction) resume page ∧
      page.entries.length ≤ items := by
  obtain ⟨_, t, ht, h⟩ := bind_eq_ok.mp h
  obtain ⟨rfl, rfl⟩ := get_eq_ok.mp ht
  generalize hpage : Store.scan rows _ range.1 range.2 direction resume _ = result at h
  cases result with
  | error e => exact (throw_eq_ok.mp h).elim
  | ok page' =>
    obtain ⟨_, t, ht, h⟩ := bind_eq_ok.mp h
    obtain ⟨rfl, rfl⟩ := pure_eq_ok.mp h
    refine ⟨(StepBudget.charge_eq_ok ht).1, scan_isPage hpage, ?_⟩
    unfold Store.scan at hpage
    split at hpage
    · cases hpage
    · next entries limited hentries =>
      cases hpage
      exact admitEntries_length hentries (Nat.zero_le _)

/-- A page that the item limit or the end stopped is the first entries of its range. -/
theorem entries_eq_take {todo : Option Bytes → List (Bytes × ℕ+)} {items : Nat}
    {page : OrderedMapPage Bytes ℕ+} (h : IsPage todo none page)
    (hlength : page.entries.length ≤ items)
    (hfull : ¬ (page.continuation.isSome = true ∧ page.entries.length < items)) :
    page.entries = (todo none).take items := by
  unfold IsPage at h
  split at h
  · rw [h, List.take_of_length_le hlength]
  · next key hkey =>
    have hitems : page.entries.length = items := by
      by_contra hne
      exact hfull ⟨by rw [hkey]; rfl, by omega⟩
    rw [h.2.2, ← hitems, List.take_left]

theorem remaining_none (m : OrdMap Bytes ℕ+) (range : Range) (direction : ScanDirection) :
    remaining m range.1 range.2 direction none = inRange m range.1 range.2 direction := by
  rw [remaining_eq_filter]
  exact List.filter_eq_self.mpr fun _ _ => rfl

/-- The keys of a range, in the order of a scan. -/
def rangeKeys (m : OrdMap Bytes ℕ+) (range : Range) (direction : ScanDirection) : List Bytes :=
  (inRange m range.1 range.2 direction).map (·.1)

def bucketRange (partition order : Bytes) : Range :=
  (fromPrefix (orderPrefix partition order), upToPrefix (orderPrefix partition order))

/-- What a bucket stands for: its first key, and whether there are others. -/
def bucketAt (keys : List Bytes) : Except AsOfJoinError Candidates :=
  match keys with
  | [] => .ok {}
  | key :: rest =>
    match rowSuffix key with
    | .error e => .error (.index e)
    | .ok row => .ok ⟨some ⟨key, row⟩, !rest.isEmpty⟩

theorem bucketWinner_eq_ok {keys : List Bytes} {c : Candidates} {s s' : Scope AsOfState}
    (h : AsOfJoinOperation.bucketWinner keys s = .ok c s') :
    s'.state = s.state ∧ bucketAt keys = .ok c := by
  unfold AsOfJoinOperation.bucketWinner at h
  unfold bucketAt
  split at h
  · obtain ⟨rfl, rfl⟩ := pure_eq_ok.mp h
    exact ⟨rfl, rfl⟩
  · next key rest =>
    obtain ⟨winner, t, ht, h⟩ := bind_eq_ok.mp h
    obtain ⟨row, t₁, ht₁, ht⟩ := bind_eq_ok.mp ht
    obtain ⟨hrow, rfl⟩ := ofExcept_eq_ok.mp ht₁
    obtain ⟨rfl, rfl⟩ := pure_eq_ok.mp ht
    obtain ⟨rfl, rfl⟩ := pure_eq_ok.mp h
    simp only [mapError_eq_ok.mp hrow, and_self]

/-- The keys a bucket is read from. -/
def bucketKeys (m : OrdMap Bytes ℕ+) (partition order : Bytes) : List Bytes :=
  (rangeKeys m (bucketRange partition order) .ascending).take 3

theorem bucket_eq_ok {partition order : Bytes} {overlay : Option (Bytes × Bool)} {c : Candidates}
    {s s' : Scope AsOfState} (h : AsOfJoinOperation.bucket partition order overlay s = .ok c s') :
    s'.state = s.state ∧
      bucketAt (AsOfJoinOperation.overlaid overlay
        (bucketKeys s.state.rightRows partition order)) = .ok c := by
  obtain ⟨_, t, ht, h⟩ := bind_eq_ok.mp h
  obtain ⟨rfl, rfl⟩ := get_eq_ok.mp ht
  obtain ⟨page, t, ht, h⟩ := bind_eq_ok.mp h
  obtain ⟨hstate, hpage, hlength⟩ := scan_eq_ok ht
  split at h
  · exact (throw_eq_ok.mp h).elim
  · next hfull =>
    obtain ⟨hstate', hbucket⟩ := bucketWinner_eq_ok h
    refine ⟨hstate'.trans hstate, ?_⟩
    have hentries := entries_eq_take hpage hlength hfull
    rw [remaining_none] at hentries
    rwa [hentries, List.map_take] at hbucket

/-- The order value next to a right row. -/
def neighborAt (m : OrdMap Bytes ℕ+) (row : PreparedRow) (forward : Bool) :
    Except AsOfJoinError (Option Bytes) :=
  match rangeKeys m (AsOfJoinOperation.neighborRange row forward)
    (AsOfJoinOperation.scanDirection forward) with
  | [] => .ok none
  | key :: _ =>
    match parseRowKey key with
    | .error e => .error (.index e)
    | .ok parsed => .ok (some parsed.order)

theorem neighbor_eq_ok {row : PreparedRow} {forward : Bool} {order : Option Bytes}
    {s s' : Scope AsOfState} (h : AsOfJoinOperation.neighbor row forward s = .ok order s') :
    s'.state = s.state ∧ neighborAt s.state.rightRows row forward = .ok order := by
  obtain ⟨_, t, ht, h⟩ := bind_eq_ok.mp h
  obtain ⟨rfl, rfl⟩ := get_eq_ok.mp ht
  obtain ⟨page, t, ht, h⟩ := bind_eq_ok.mp h
  obtain ⟨hstate, hpage, hlength⟩ := scan_eq_ok ht
  have hentries := entries_eq_take hpage hlength fun hcut => by
    -- a page that leaves something has an entry
    unfold IsPage at hpage
    split at hpage
    · next hnone => rw [hnone] at hcut; cases hcut.1
    · exact ne_nil_of_getLast?_key hpage.1 (List.eq_nil_of_length_eq_zero (by omega))
  rw [remaining_none] at hentries
  unfold neighborAt rangeKeys
  cases hrange : inRange s.state.rightRows (AsOfJoinOperation.neighborRange row forward).1
    (AsOfJoinOperation.neighborRange row forward).2 (AsOfJoinOperation.scanDirection forward) with
  | nil =>
    rw [hrange] at hentries
    rw [hentries] at h
    obtain ⟨rfl, rfl⟩ := pure_eq_ok.mp h
    exact ⟨hstate, rfl⟩
  | cons entry rest =>
    rw [hrange] at hentries
    rw [hentries] at h
    obtain ⟨parsed, t₁, ht₁, h⟩ := bind_eq_ok.mp h
    obtain ⟨hparsed, rfl⟩ := ofExcept_eq_ok.mp ht₁
    obtain ⟨rfl, rfl⟩ := pure_eq_ok.mp h
    refine ⟨hstate, ?_⟩
    simp only [List.map_cons, mapError_eq_ok.mp hparsed]

/-- What fills the place of an empty bucket. -/
def replacementAt (m : OrdMap Bytes ℕ+) (right : PreparedRow) (order : Option Bytes)
    (needed : Bool) : Except AsOfJoinError Candidates :=
  match order with
  | some order => if needed then bucketAt (bucketKeys m right.partition order) else .ok {}
  | none => .ok {}

theorem replacementBucket_eq_ok {right : PreparedRow} {order : Option Bytes} {needed : Bool}
    {c : Candidates} {s s' : Scope AsOfState}
    (h : AsOfJoinOperation.replacementBucket right order needed s = .ok c s') :
    s'.state = s.state ∧ replacementAt s.state.rightRows right order needed = .ok c := by
  unfold replacementAt
  cases order with
  | none =>
    obtain ⟨rfl, rfl⟩ := pure_eq_ok.mp h
    exact ⟨rfl, rfl⟩
  | some order =>
    cases needed with
    | true => exact bucket_eq_ok h
    | false =>
      obtain ⟨rfl, rfl⟩ := pure_eq_ok.mp h
      exact ⟨rfl, rfl⟩

/-- The winners before and after a right event, for the rows of its range. -/
def winnersAt (m : OrdMap Bytes ℕ+) (right : PreparedRow) (present : Bool)
    (replacementOrder : Option Bytes) : Except AsOfJoinError (Option Winner × Option Winner) := do
  let keys := bucketKeys m right.partition right.order
  let oldBucket ← bucketAt keys
  let newBucket ← bucketAt (AsOfJoinOperation.overlaid (some (right.key, present)) keys)
  let replacement ← replacementAt m right replacementOrder
    (oldBucket.winner.isNone || newBucket.winner.isNone)
  let replacement ← replacement.checked
  let old ← oldBucket.checked
  let new ← newBucket.checked
  pure (old.or replacement, new.or replacement)

theorem winners_eq_ok {right : PreparedRow} {present : Bool} {replacementOrder : Option Bytes}
    {found : Option Winner × Option Winner} {s s' : Scope AsOfState}
    (h : AsOfJoinOperation.winners right present replacementOrder s = .ok found s') :
    s'.state = s.state ∧
      winnersAt s.state.rightRows right present replacementOrder = .ok found := by
  obtain ⟨oldBucket, t, ht, h⟩ := bind_eq_ok.mp h
  obtain ⟨hstate, hold⟩ := bucket_eq_ok ht
  obtain ⟨newBucket, t₁, ht₁, h⟩ := bind_eq_ok.mp h
  obtain ⟨hstate₁, hnew⟩ := bucket_eq_ok ht₁
  obtain ⟨replacement, t₂, ht₂, h⟩ := bind_eq_ok.mp h
  obtain ⟨hstate₂, hreplacement⟩ := replacementBucket_eq_ok ht₂
  obtain ⟨r, t₃, ht₃, h⟩ := bind_eq_ok.mp h
  obtain ⟨hr, rfl⟩ := ofExcept_eq_ok.mp ht₃
  obtain ⟨old, t₄, ht₄, h⟩ := bind_eq_ok.mp h
  obtain ⟨holdChecked, rfl⟩ := ofExcept_eq_ok.mp ht₄
  obtain ⟨new, t₅, ht₅, h⟩ := bind_eq_ok.mp h
  obtain ⟨hnewChecked, rfl⟩ := ofExcept_eq_ok.mp ht₅
  obtain ⟨rfl, rfl⟩ := pure_eq_ok.mp h
  refine ⟨hstate₂.trans (hstate₁.trans hstate), ?_⟩
  rw [hstate₁, hstate] at hreplacement
  rw [hstate] at hnew
  unfold winnersAt
  refine except_bind_eq_ok.mpr ⟨oldBucket, hold, except_bind_eq_ok.mpr ⟨newBucket, hnew, ?_⟩⟩
  refine except_bind_eq_ok.mpr ⟨replacement, hreplacement, except_bind_eq_ok.mpr ⟨r, hr, ?_⟩⟩
  exact except_bind_eq_ok.mpr ⟨old, holdChecked, except_bind_eq_ok.mpr ⟨new, hnewChecked, rfl⟩⟩

/-- The winner among the nearest eligible keys. -/
def selectedAt : List Bytes → Except AsOfJoinError Candidates
  | [] => .ok {}
  | [first] => do
    let parsed ← (parseRowKey first).mapError AsOfJoinError.index
    pure ⟨some ⟨first, parsed.row⟩, false⟩
  | first :: second :: _ => do
    let parsed ← (parseRowKey first).mapError AsOfJoinError.index
    let next ← (parseRowKey second).mapError AsOfJoinError.index
    pure ⟨some ⟨first, parsed.row⟩, decide (next.order = parsed.order)⟩

theorem selected_eq_ok {entries : List (Bytes × ℕ+)} {c : Candidates} {s s' : Scope AsOfState}
    (h : AsOfJoinOperation.selected entries s = .ok c s') :
    s'.state = s.state ∧ selectedAt (entries.map (·.1)) = .ok c := by
  unfold AsOfJoinOperation.selected at h
  split at h
  · obtain ⟨rfl, rfl⟩ := pure_eq_ok.mp h
    exact ⟨rfl, rfl⟩
  · obtain ⟨parsed, t, ht, h⟩ := bind_eq_ok.mp h
    obtain ⟨hparsed, rfl⟩ := ofExcept_eq_ok.mp ht
    obtain ⟨rfl, rfl⟩ := pure_eq_ok.mp h
    exact ⟨rfl, except_bind_eq_ok.mpr ⟨parsed, hparsed, rfl⟩⟩
  · obtain ⟨parsed, t, ht, h⟩ := bind_eq_ok.mp h
    obtain ⟨hparsed, rfl⟩ := ofExcept_eq_ok.mp ht
    obtain ⟨next, t₁, ht₁, h⟩ := bind_eq_ok.mp h
    obtain ⟨hnext, rfl⟩ := ofExcept_eq_ok.mp ht₁
    obtain ⟨rfl, rfl⟩ := pure_eq_ok.mp h
    exact ⟨rfl, except_bind_eq_ok.mpr ⟨parsed, hparsed, except_bind_eq_ok.mpr ⟨next, hnext, rfl⟩⟩⟩

namespace AsOfJoinOperation

variable (op : AsOfJoinOperation Ty Value)

/-- The eligible right keys of a left row, nearest first. -/
def eligibleKeys (m : OrdMap Bytes ℕ+) (left : PreparedRow) : List Bytes :=
  rangeKeys m (op.selectRange left) (scanDirection op.direction.isForward)

def selectAt (m : OrdMap Bytes ℕ+) (left : PreparedRow) : Except AsOfJoinError Candidates :=
  if left.matchable then selectedAt ((op.eligibleKeys m left).take 2) else .ok {}

theorem select_eq_ok {left : PreparedRow} {c : Candidates} {s s' : Scope AsOfState}
    (h : op.select left s = .ok c s') :
    s'.state = s.state ∧ op.selectAt s.state.rightRows left = .ok c := by
  unfold select at h
  unfold selectAt
  split at h
  · next hnot =>
    obtain ⟨rfl, rfl⟩ := pure_eq_ok.mp h
    rw [if_neg hnot]
    exact ⟨rfl, rfl⟩
  · next hmatchable =>
    rw [if_pos (not_not.mp hmatchable)]
    obtain ⟨_, t, ht, h⟩ := bind_eq_ok.mp h
    obtain ⟨rfl, rfl⟩ := get_eq_ok.mp ht
    obtain ⟨page, t, ht, h⟩ := bind_eq_ok.mp h
    obtain ⟨hstate, hpage, hlength⟩ := scan_eq_ok ht
    split at h
    · exact (throw_eq_ok.mp h).elim
    · next hfull =>
      obtain ⟨hstate', hselected⟩ := selected_eq_ok h
      refine ⟨hstate'.trans hstate, ?_⟩
      have hentries := entries_eq_take hpage hlength hfull
      rw [remaining_none] at hentries
      rwa [hentries, List.map_take] at hselected

/-! ## Pages as relations -/

/-- A left event. -/
def Left (row : PreparedRow) (s : AsOfState) (out : List (Row Value × Int)) (s' : AsOfState) :
    Prop :=
  ∃ after candidates winner left,
    checkedWeight (multiplicity s.leftRows row.key) row.difference = .ok after ∧
    op.selectAt s.rightRows row = .ok candidates ∧ candidates.checked = .ok winner ∧
    rowSuffix row.key = .ok left ∧
    List.Forall₂ (Appended op.fmt op.inputSchemas)
      [(.ok ([some left, winner.map (·.row)], row.difference) : Except AsOfJoinError Item)] out ∧
    s' = s.setRow 0 row.key after

/-- A right event without influence: its row is not matchable, or stays as present as it was. -/
def Quiet (right : PreparedRow) (before after : Nat) : Prop :=
  ¬ right.matchable ∨ (before ≠ 0 ↔ after ≠ 0)

instance (right : PreparedRow) (before after : Nat) : Decidable (Quiet right before after) :=
  inferInstanceAs (Decidable (¬ right.matchable ∨ (before ≠ 0 ↔ after ≠ 0)))

/-- The corrections of some left rows of a right event's range. -/
def Corrects (right : PreparedRow) (s : AsOfState) (present : Bool)
    (replacementOrder : Option Bytes) (entries : List (Bytes × ℕ+))
    (out : List (Row Value × Int)) : Prop :=
  if entries = [] then out = []
  else ∃ old new, winnersAt s.rightRows right present replacementOrder = .ok (old, new) ∧
    if old.map (·.key) ≠ new.map (·.key) then
      List.Forall₂ (Appended op.fmt op.inputSchemas) (entries.flatMap (correction old new)) out
    else out = []

/-- The influence of a right event: its range and what replaces it. -/
def Influence (right : PreparedRow) (s : AsOfState) (range : Range)
    (replacementOrder : Option Bytes) : Prop :=
  ∃ outer, neighborAt s.rightRows right (!op.direction.isForward) = .ok outer ∧
    neighborAt s.rightRows right op.direction.isForward = .ok replacementOrder ∧
    range = op.affectedRange right outer

/-- The left rows of a range after a key. -/
def rangeAfter (s : AsOfState) (range : Range) (resumeAfter : Option Bytes) :
    List (Bytes × ℕ+) :=
  remaining s.leftRows range.1 range.2 .ascending resumeAfter

/-- A page of a right event that leaves left rows for another one. -/
structure Partial (right : PreparedRow) (s : AsOfState) (cursor : AsOfCursor)
    (out : List (Row Value × Int)) (cursor' : AsOfCursor) : Prop where
  visited : ∃ after range replacementOrder entries key,
    checkedWeight (multiplicity s.rightRows right.key) right.difference = .ok after ∧
    ¬ Quiet right (multiplicity s.rightRows right.key) after ∧
    op.Influence right s range replacementOrder ∧
    IsPage (rangeAfter s range) cursor.leftResumeAfter ⟨entries, some key⟩ ∧
    op.Corrects right s (after ≠ 0) replacementOrder entries out ∧ cursor' = ⟨some key⟩

/-- The page that completes a right event and stores its row. -/
structure Final (right : PreparedRow) (s : AsOfState) (cursor : AsOfCursor)
    (out : List (Row Value × Int)) (s' : AsOfState) : Prop where
  visited : ∃ after,
    checkedWeight (multiplicity s.rightRows right.key) right.difference = .ok after ∧
    s' = s.setRow 1 right.key after ∧
    if Quiet right (multiplicity s.rightRows right.key) after then
      cursor.leftResumeAfter = none ∧ out = []
    else ∃ range replacementOrder, op.Influence right s range replacementOrder ∧
      op.Corrects right s (after ≠ 0) replacementOrder
        (rangeAfter s range cursor.leftResumeAfter) out

/-! ## Pages of the code -/

theorem checkPosition_state {range : Range} {cursor : AsOfCursor} {u : Unit}
    {s s' : Scope AsOfState} (h : checkPosition range cursor s = .ok u s') :
    s'.state = s.state := by
  unfold checkPosition at h
  cases hkey : cursor.leftResumeAfter with
  | none =>
    rw [hkey] at h
    rw [(pure_eq_ok.mp h).2]
  | some key =>
    rw [hkey] at h
    dsimp only at h
    split at h
    · exact (throw_eq_ok.mp h).elim
    · obtain ⟨_, t, ht, h⟩ := bind_eq_ok.mp h
      obtain ⟨_, t₁, ht₁, h⟩ := bind_eq_ok.mp h
      obtain ⟨rfl, rfl⟩ := get_eq_ok.mp ht₁
      split at h
      · exact (throw_eq_ok.mp h).elim
      · rw [← (pure_eq_ok.mp h).2, (StepBudget.charge_eq_ok ht).1]

theorem applyWeight_state {port : Nat} {row : PreparedRow} {after : Nat} {u : Unit}
    {s s' : Scope AsOfState} (h : applyWeight port row after s = .ok u s') :
    s'.state = s.state.setRow port row.key after := by
  obtain ⟨_, t, ht, h⟩ := bind_eq_ok.mp h
  rw [← modify_eq_ok.mp h, (StepBudget.charge_eq_ok ht).1]

theorem correctPage_eq_ok {right : PreparedRow} {present : Bool}
    {replacementOrder : Option Bytes} {entries : List (Bytes × ℕ+)}
    {output output' : ArrowOutput Value} {s s' : Scope AsOfState}
    (h : op.correctPage right present replacementOrder entries output s = .ok output' s') :
    s'.state = s.state ∧ ∃ out, output'.rows = output.rows ++ out ∧
      op.Corrects right s.state present replacementOrder entries out := by
  unfold correctPage at h
  split at h
  · next hempty =>
    obtain ⟨rfl, rfl⟩ := pure_eq_ok.mp h
    refine ⟨rfl, [], (List.append_nil _).symm, ?_⟩
    rw [Corrects, if_pos (List.isEmpty_iff.mp hempty)]
  · next hne =>
    have hne : entries ≠ [] := fun hnil => hne (List.isEmpty_iff.mpr hnil)
    obtain ⟨⟨old, new⟩, t, ht, h⟩ := bind_eq_ok.mp h
    obtain ⟨hstate, hwinners⟩ := winners_eq_ok ht
    dsimp only at h
    split at h
    · next hdiffer =>
      obtain ⟨hstate', out, hout, hrows⟩ := ArrowOutput.extend_eq_ok _ h
      refine ⟨hstate'.trans hstate, out, hout, ?_⟩
      rw [Corrects, if_neg hne]
      refine ⟨old, new, hwinners, ?_⟩
      rw [if_pos hdiffer]
      exact hrows
    · next hsame =>
      obtain ⟨rfl, rfl⟩ := pure_eq_ok.mp h
      refine ⟨hstate, [], (List.append_nil _).symm, ?_⟩
      rw [Corrects, if_neg hne]
      refine ⟨old, new, hwinners, ?_⟩
      rw [if_neg hsame]

/-- One page of a right event in the code. -/
theorem rightPage_eq_ok {right : PreparedRow} {after : Nat} {cursor cursor' : AsOfCursor}
    {output output' : ArrowOutput Value} {complete : Bool} {s s' : Scope AsOfState}
    (hafter : checkedWeight (multiplicity s.state.rightRows right.key) right.difference =
      .ok after)
    (h : op.rightPage right (multiplicity s.state.rightRows right.key) after cursor output s =
      .ok (cursor', output', complete) s') :
    ∃ out, output'.rows = output.rows ++ out ∧
      if complete then op.Final right s.state cursor out s'.state ∧ cursor' = ⟨none⟩
      else op.Partial right s.state cursor out cursor' ∧ s'.state = s.state := by
  unfold rightPage at h
  split at h
  · next hquiet =>
    have hquiet : Quiet right (multiplicity s.state.rightRows right.key) after := hquiet
    split at h
    · exact (throw_eq_ok.mp h).elim
    · next hcursor =>
      obtain ⟨_, t, ht, h⟩ := bind_eq_ok.mp h
      obtain ⟨_, t₁, ht₁, h⟩ := bind_eq_ok.mp h
      obtain ⟨hresult, rfl⟩ := pure_eq_ok.mp h
      cases hresult
      have hnone : cursor.leftResumeAfter = none := Option.not_isSome_iff_eq_none.mp hcursor
      refine ⟨[], (List.append_nil _).symm, ?_⟩
      rw [if_pos rfl]
      refine ⟨⟨after, hafter, ?_, ?_⟩, by cases cursor; cases hnone; rfl⟩
      · rw [applyWeight_state ht₁, StepBudget.consumeHead_eq_ok ht]
      · rw [if_pos hquiet]
        exact ⟨hnone, rfl⟩
  · next hloud =>
    have hloud : ¬ Quiet right (multiplicity s.state.rightRows right.key) after := hloud
    obtain ⟨outer, t, ht, h⟩ := bind_eq_ok.mp h
    obtain ⟨hstate, houter⟩ := neighbor_eq_ok ht
    obtain ⟨replacementOrder, t₁, ht₁, h⟩ := bind_eq_ok.mp h
    obtain ⟨hstate₁, hreplacement⟩ := neighbor_eq_ok ht₁
    obtain ⟨_, t₂, ht₂, h⟩ := bind_eq_ok.mp h
    have hstate₂ := checkPosition_state ht₂
    obtain ⟨_, t₃, ht₃, h⟩ := bind_eq_ok.mp h
    obtain ⟨rfl, rfl⟩ := get_eq_ok.mp ht₃
    obtain ⟨page, t₃, ht₃, h⟩ := bind_eq_ok.mp h
    obtain ⟨hstate₃, hpage, -⟩ := scan_eq_ok ht₃
    obtain ⟨_, t₄, ht₄, h⟩ := bind_eq_ok.mp h
    have hstate₄ := StepBudget.consumeHead_eq_ok ht₄
    obtain ⟨output₁, t₅, ht₅, h⟩ := bind_eq_ok.mp h
    obtain ⟨hstate₅, out, hout, hcorrects⟩ := op.correctPage_eq_ok ht₅
    have hpure : t₄.state = s.state := by rw [hstate₄, hstate₃, hstate₂, hstate₁, hstate]
    rw [hstate] at hreplacement
    rw [show t₂.state = s.state by rw [hstate₂, hstate₁, hstate]] at hpage
    rw [hpure] at hcorrects hstate₅
    have hinfluence : op.Influence right s.state (op.affectedRange right outer)
        replacementOrder := ⟨outer, houter, hreplacement, rfl⟩
    cases hcontinuation : page.continuation with
    | some key =>
      rw [hcontinuation] at h
      obtain ⟨hresult, rfl⟩ := pure_eq_ok.mp h
      cases hresult
      refine ⟨out, hout, ?_⟩
      rw [if_neg (by decide)]
      refine ⟨⟨after, _, _, page.entries, key, hafter, hloud, hinfluence, ?_, hcorrects, rfl⟩,
        hstate₅⟩
      rw [← hcontinuation]
      exact hpage
    | none =>
      rw [hcontinuation] at h
      obtain ⟨_, t₆, ht₆, h⟩ := bind_eq_ok.mp h
      obtain ⟨hresult, rfl⟩ := pure_eq_ok.mp h
      cases hresult
      refine ⟨out, hout, ?_⟩
      rw [if_pos rfl]
      refine ⟨⟨after, hafter, ?_, ?_⟩, rfl⟩
      · rw [applyWeight_state ht₆, hstate₅]
      · rw [if_neg hloud]
        refine ⟨_, _, hinfluence, ?_⟩
        have hentries : rangeAfter s.state (op.affectedRange right outer)
            cursor.leftResumeAfter = page.entries := by
          unfold IsPage at hpage
          rw [hcontinuation] at hpage
          exact hpage
        rw [hentries]
        exact hcorrects

theorem leftRow_eq_ok {row : PreparedRow} {after : Nat} {output output' : ArrowOutput Value}
    {s s' : Scope AsOfState}
    (hafter : checkedWeight (multiplicity s.state.leftRows row.key) row.difference = .ok after)
    (h : op.leftRow row after output s = .ok output' s') :
    ∃ out, output'.rows = output.rows ++ out ∧ op.Left row s.state out s'.state := by
  obtain ⟨candidates, t, ht, h⟩ := bind_eq_ok.mp h
  obtain ⟨hstate, hselect⟩ := op.select_eq_ok ht
  obtain ⟨winner, t₁, ht₁, h⟩ := bind_eq_ok.mp h
  obtain ⟨hwinner, rfl⟩ := ofExcept_eq_ok.mp ht₁
  obtain ⟨left, t₂, ht₂, h⟩ := bind_eq_ok.mp h
  obtain ⟨hleft, rfl⟩ := ofExcept_eq_ok.mp ht₂
  obtain ⟨output₁, t₃, ht₃, h⟩ := bind_eq_ok.mp h
  obtain ⟨hstate₃, out, hout, hrows⟩ := ArrowOutput.extend_eq_ok _ ht₃
  obtain ⟨_, t₄, ht₄, h⟩ := bind_eq_ok.mp h
  obtain ⟨_, t₅, ht₅, h⟩ := bind_eq_ok.mp h
  obtain ⟨rfl, rfl⟩ := pure_eq_ok.mp h
  refine ⟨out, hout, after, candidates, winner, left, hafter, hselect, hwinner,
    mapError_eq_ok.mp hleft, hrows, ?_⟩
  rw [StepBudget.consumeHead_eq_ok ht₅, applyWeight_state ht₄, hstate₃, hstate]

/-! ## Runs of pages -/

/-- The page that completes an event of either port. -/
def Completes (port : Nat) (row : PreparedRow) (s : AsOfState) (cursor : AsOfCursor)
    (out : List (Row Value × Int)) (s' : AsOfState) : Prop :=
  if port = 0 then op.Left row s out s' else op.Final row s cursor out s'

variable [DecidableEq Value]

/-- Events driven one after another from a cursor, with all outputs, up to the events that
are left. A left event is one page, so its cursor is the one it found. -/
inductive Drives (port : Nat) : List (Row Value × Int) → AsOfCursor → AsOfState →
    List (Row Value × Int) → List (Row Value × Int) → AsOfCursor → AsOfState → Prop
  | refl {events : List (Row Value × Int)} {cursor : AsOfCursor} {s : AsOfState} :
      Drives port events cursor s [] events cursor s
  | part {event : Row Value × Int} {events rest : List (Row Value × Int)}
      {cursor cursor₁ cursor' : AsOfCursor} {s s' : AsOfState}
      {out out' : List (Row Value × Int)} :
      op.Admitted port event.1 → port ≠ 0 →
      op.Partial (op.prepared port event) s cursor out cursor₁ →
      Drives port (event :: events) cursor₁ s out' rest cursor' s' →
      Drives port (event :: events) cursor s (out ++ out') rest cursor' s'
  | full {event : Row Value × Int} {events rest : List (Row Value × Int)}
      {cursor cursor₁ cursor' : AsOfCursor} {s s₁ s' : AsOfState}
      {out out' : List (Row Value × Int)} :
      op.Admitted port event.1 → cursor₁ = (if port = 0 then cursor else ⟨none⟩) →
      op.Completes port (op.prepared port event) s cursor out s₁ →
      Drives port events cursor₁ s₁ out' rest cursor' s' →
      Drives port (event :: events) cursor s (out ++ out') rest cursor' s'

theorem Drives.trans {op : AsOfJoinOperation Ty Value} {port : Nat}
    {events events₁ events₂ : List (Row Value × Int)} {c c₁ c₂ : AsOfCursor} {s s₁ s₂ : AsOfState}
    {out out' : List (Row Value × Int)} (h : op.Drives port events c s out events₁ c₁ s₁)
    (h' : op.Drives port events₁ c₁ s₁ out' events₂ c₂ s₂) :
    op.Drives port events c s (out ++ out') events₂ c₂ s₂ := by
  induction h with
  | refl => exact h'
  | part ha hp hpart _ ih =>
    rw [List.append_assoc]
    exact .part ha hp hpart (ih h')
  | full ha hc hfull _ ih =>
    rw [List.append_assoc]
    exact .full ha hc hfull (ih h')

omit [DecidableEq Value] in
/-- One row in the code. -/
theorem driveRow_eq_ok {port : Nat} {row : PreparedRow} {v v' : Driving Value} {complete : Bool}
    {s s' : Scope AsOfState} (h : op.driveRow port row v s = .ok (v', complete) s') :
    ∃ out, v'.output.rows = v.output.rows ++ out ∧
      if complete then op.Completes port row s.state v.cursor out s'.state ∧
        v'.next = v.next + 1 ∧ v'.cursor = (if port = 0 then v.cursor else ⟨none⟩)
      else port ≠ 0 ∧ op.Partial row s.state v.cursor out v'.cursor ∧ s'.state = s.state ∧
        v'.next = v.next := by
  obtain ⟨_, t, ht, h⟩ := bind_eq_ok.mp h
  have hstate := (StepBudget.charge_eq_ok ht).1
  obtain ⟨_, t₁, ht₁, h⟩ := bind_eq_ok.mp h
  obtain ⟨rfl, rfl⟩ := get_eq_ok.mp ht₁
  obtain ⟨after, t₁, ht₁, h⟩ := bind_eq_ok.mp h
  obtain ⟨hafter, rfl⟩ := ofExcept_eq_ok.mp ht₁
  unfold Completes
  by_cases hport : port = 0
  · subst hport
    rw [if_pos rfl] at h
    obtain ⟨output, t₂, ht₂, h⟩ := bind_eq_ok.mp h
    obtain ⟨hresult, rfl⟩ := pure_eq_ok.mp h
    cases hresult
    obtain ⟨out, hout, hleft⟩ := op.leftRow_eq_ok hafter ht₂
    rw [hstate] at hleft
    exact ⟨out, hout, hleft, rfl, rfl⟩
  · rw [if_neg hport] at h
    have hrows : ∀ s : AsOfState, s.rows port = s.rightRows := fun s => if_neg hport
    rw [hrows] at hafter h
    obtain ⟨⟨cursor, output, complete⟩, t₂, ht₂, h⟩ := bind_eq_ok.mp h
    obtain ⟨hresult, rfl⟩ := pure_eq_ok.mp h
    cases hresult
    obtain ⟨out, hout, hpage⟩ := op.rightPage_eq_ok hafter ht₂
    rw [hstate] at hpage
    refine ⟨out, hout, ?_⟩
    cases complete with
    | true =>
      simp only [if_true, hport, if_false] at hpage ⊢
      exact ⟨hpage.1, trivial, hpage.2⟩
    | false =>
      simp only [Bool.false_eq_true, if_false] at hpage ⊢
      exact ⟨hport, hpage.1, hpage.2, trivial⟩

theorem driveWindow_eq_ok {port : Nat} {window : List (Row Value × Int)}
    (tail : List (Row Value × Int)) {v v' : Driving Value} {s s' : Scope AsOfState}
    (hadmitted : ∀ e ∈ window, op.Admitted port e.1)
    (h : op.driveWindow port (window.map (op.prepared port)) v s = .ok v' s') :
    ∃ out n, n ≤ window.length ∧ v'.next = v.next + n ∧ v'.output.rows = v.output.rows ++ out ∧
      op.Drives port (window ++ tail) v.cursor s.state out ((window ++ tail).drop n) v'.cursor
        s'.state := by
  induction window generalizing v s with
  | nil =>
    obtain ⟨rfl, rfl⟩ := pure_eq_ok.mp h
    exact ⟨[], 0, le_rfl, rfl, (List.append_nil _).symm, .refl⟩
  | cons event window ih =>
    obtain ⟨_, t, ht, h⟩ := bind_eq_ok.mp h
    obtain ⟨rfl, rfl⟩ := get_eq_ok.mp ht
    split at h
    · obtain ⟨rfl, rfl⟩ := pure_eq_ok.mp h
      exact ⟨[], 0, Nat.zero_le _, rfl, (List.append_nil _).symm, .refl⟩
    · obtain ⟨⟨v₁, complete⟩, t, ht, h⟩ := bind_eq_ok.mp h
      obtain ⟨out, hout, hrow⟩ := op.driveRow_eq_ok ht
      have ha := hadmitted event List.mem_cons_self
      cases complete with
      | false =>
        obtain ⟨rfl, rfl⟩ := pure_eq_ok.mp h
        obtain ⟨hport, hpart, hstate, hnext⟩ := hrow
        refine ⟨out, 0, Nat.zero_le _, hnext, hout, ?_⟩
        rw [hstate, ← List.append_nil out]
        exact .part ha hport hpart .refl
      | true =>
        obtain ⟨hfull, hnext, hcursor⟩ := hrow
        obtain ⟨out', n, hn, hnext', hout', hdrives⟩ :=
          ih (fun e he => hadmitted e (List.mem_cons_of_mem _ he)) h
        refine ⟨out ++ out', n + 1, Nat.succ_le_succ hn, by rw [hnext', hnext]; omega, ?_, ?_⟩
        · rw [hout', hout, List.append_assoc]
        · exact .full ha hcursor hfull hdrives

omit [DecidableEq Value] in
theorem cursor_eq_ok {port : Nat} {change : Change (Row Value)} {resume : Resume}
    {cursor : AsOfCursor} (h : op.cursor port change resume = .ok cursor) :
    port < 2 ∧ resume.cursor = .asOf cursor ∧ resume.ordinal < change.numRows ∧
      (port = 0 → cursor = ⟨none⟩) := by
  unfold AsOfJoinOperation.cursor validateInput at h
  by_cases hport : port > 1
  · simp [hport] at h
  by_cases hbound : op.bound port change = true
  · rw [if_neg hport, if_neg (by simpa using hbound)] at h
    cases hc : resume.cursor with
    | asOf c =>
      simp only [hc] at h
      split at h
      · cases h
      · next hvalid =>
        cases h
        refine ⟨by omega, rfl, ?_, ?_⟩
        · by_contra hlt
          exact hvalid (.inl (by omega))
        · intro hzero
          cases cursor with
          | mk after =>
            cases after with
            | none => rfl
            | some key => exact absurd (.inr ⟨hzero, rfl⟩) hvalid
    | batch => simp [hc] at h
    | equiJoin c => simp [hc] at h
  · simp [hport, hbound] at h

omit [DecidableEq Value] in
theorem validateCursorBinding_state {cursor : AsOfCursor} {driving : PreparedRow}
    {s s' : Scope AsOfState} {u : Unit}
    (h : op.validateCursorBinding cursor driving s = .ok u s') : s'.state = s.state := by
  unfold validateCursorBinding at h
  cases hkey : cursor.leftResumeAfter with
  | none =>
    rw [hkey] at h
    rw [(pure_eq_ok.mp h).2]
  | some key =>
    rw [hkey] at h
    obtain ⟨_, t, ht, h⟩ := bind_eq_ok.mp h
    obtain ⟨parsed, t₁, ht₁, h⟩ := bind_eq_ok.mp h
    obtain ⟨-, rfl⟩ := ofExcept_eq_ok.mp ht₁
    split at h
    · exact (throw_eq_ok.mp h).elim
    · obtain ⟨_, t₂, ht₂, h⟩ := bind_eq_ok.mp h
      obtain ⟨_, t₃, ht₃, h⟩ := bind_eq_ok.mp h
      obtain ⟨_, t₄, ht₄, h⟩ := bind_eq_ok.mp h
      obtain ⟨-, rfl⟩ := ofExcept_eq_ok.mp ht₄
      rw [← (pure_eq_ok.mp h).2, admitRow_state op.fmt ht₃, admitBatchShape_state op.fmt ht₂,
        (StepBudget.charge_eq_ok ht).1]

/-- A step drives some rows of its input. -/
theorem step_eq_ok {port : Nat} {change : Change (Row Value)} {resume : Resume}
    {output : Option (Change (Row Value))} {progress : Progress} {s s' : Scope AsOfState}
    (h : op.step port change resume s = .ok ⟨output, progress⟩ s') :
    ∃ cursor cursor' n, port < 2 ∧ resume.cursor = .asOf cursor ∧ (port = 0 → cursor = ⟨none⟩) ∧
      op.Drives port (change.events.drop resume.ordinal) cursor s.state (outputEvents output)
        (change.events.drop (resume.ordinal + n)) cursor' s'.state ∧
      resume.ordinal + n ≤ change.numRows ∧
      progress = if resume.ordinal + n = change.numRows then .done
        else .more ⟨resume.ordinal + n, .asOf cursor'⟩ := by
  unfold step at h
  obtain ⟨cursor, t, ht, h⟩ := bind_eq_ok.mp h
  obtain ⟨hcursor, rfl⟩ := ofExcept_eq_ok.mp ht
  obtain ⟨hport, hresume, hordinal, hleft⟩ := op.cursor_eq_ok hcursor
  obtain ⟨_, t, ht, h⟩ := bind_eq_ok.mp h
  obtain ⟨rfl, rfl⟩ := get_eq_ok.mp ht
  split at h
  · exact (throw_eq_ok.mp h).elim
  obtain ⟨window, t, ht, h⟩ := bind_eq_ok.mp h
  obtain ⟨hstate, rfl, hadmitted⟩ := op.prepare_eq_ok ht
  set length := min s.budget.headRemaining (change.numRows - resume.ordinal) with hlength
  -- Validating the cursor only charges.
  have hvalidate : ∃ t₁ : Scope AsOfState, t₁.state = s.state ∧ (do
      let v ← op.driveWindow port
        (((change.events.drop resume.ordinal).take length).map (op.prepared port))
        ⟨cursor, .empty, resume.ordinal⟩
      let progress := if v.next = change.numRows then Progress.done
        else Progress.more ⟨v.next, .asOf v.cursor⟩
      if progress = .more resume then throw AsOfJoinError.budget
      else do
        let output ← MonadExcept.ofExcept (v.output.finish op.columns AsOfJoinError.change)
        pure (⟨output, progress⟩ : Step (Row Value)) : AsOfAttempt (Step (Row Value))) t₁ =
          .ok ⟨output, progress⟩ s' := by
    cases hwindow : ((change.events.drop resume.ordinal).take length).map (op.prepared port) with
    | nil =>
      rw [hwindow] at h
      obtain ⟨_, _, ht₁, _⟩ := bind_eq_ok.mp h
      exact (throw_eq_ok.mp ht₁).elim
    | cons driving rest =>
      rw [hwindow] at h
      obtain ⟨_, t₁, ht₁, h⟩ := bind_eq_ok.mp h
      exact ⟨t₁, by rw [op.validateCursorBinding_state ht₁, hstate], h⟩
  obtain ⟨t₁, hstate₁, h⟩ := hvalidate
  obtain ⟨v, t₂, hdrive, h⟩ := bind_eq_ok.mp h
  generalize hp : (if v.next = change.numRows then Progress.done
    else Progress.more ⟨v.next, .asOf v.cursor⟩) = p at h
  split at h
  · exact (throw_eq_ok.mp h).elim
  obtain ⟨output', t₃, ht₃, h⟩ := bind_eq_ok.mp h
  obtain ⟨hfinish, rfl⟩ := ofExcept_eq_ok.mp ht₃
  obtain ⟨hstep, rfl⟩ := pure_eq_ok.mp h
  cases hstep
  obtain ⟨out, n, hn, hnext, hrows, hdrives⟩ := op.driveWindow_eq_ok
    ((change.events.drop resume.ordinal).drop length) hadmitted hdrive
  have hnumRows : change.numRows = change.events.length := rfl
  have hn' : n ≤ length := by
    refine le_trans hn ?_
    rw [List.length_take]
    omega
  refine ⟨cursor, v.cursor, n, hport, hresume, hleft, ?_, by omega, ?_⟩
  · rw [List.take_append_drop, List.drop_drop, hstate₁] at hdrives
    have houtput : outputEvents output = v.output.rows := by
      rw [← ArrowOutput.finish_eq_ok hfinish]
      cases output <;> rfl
    rw [houtput, hrows]
    exact hdrives
  · rw [← hp, hnext]

/-- Pages to the end drive all events of the input. -/
theorem drives_of_pages {Q : Type} {port : Nat} {change : Change (Row Value)} {resume : Resume}
    {s s' : AsOfState} {outputs : List (Option (Change (Row Value)))}
    (h : Pages (.paged op.paged : Operation AsOfState Q (Row Value)) port change resume s
      outputs s') :
    ∃ cursor cursor', port < 2 ∧ resume.cursor = .asOf cursor ∧ (port = 0 → cursor = ⟨none⟩) ∧
      op.Drives port (change.events.drop resume.ordinal) cursor s (outputsEvents outputs) []
        cursor' s' := by
  induction h with
  | last hstep =>
    obtain ⟨b, b', hstep⟩ := hstep
    obtain ⟨cursor, cursor', n, hport, hresume, hleft, hdrives, hle, hprogress⟩ :=
      op.step_eq_ok (adaptExcept_eq_ok.mp hstep)
    split at hprogress
    · next hend =>
      have hnil : change.events.drop (_ + n) = [] := List.drop_eq_nil_of_le (le_of_eq hend.symm)
      rw [hnil] at hdrives
      exact ⟨cursor, cursor', hport, hresume, hleft, by simpa using hdrives⟩
    · cases hprogress
  | next hstep _ ih =>
    obtain ⟨b, b', hstep⟩ := hstep
    obtain ⟨cursor, cursor', n, hport, hresume, hleft, hdrives, hle, hprogress⟩ :=
      op.step_eq_ok (adaptExcept_eq_ok.mp hstep)
    split at hprogress
    · cases hprogress
    · cases hprogress
      obtain ⟨cursor₁, cursor₂, -, hresume₁, -, hdrives₁⟩ := ih
      cases hresume₁
      rw [outputsEvents_cons]
      exact ⟨cursor, cursor₂, hport, hresume, hleft, hdrives.trans hdrives₁⟩

end AsOfJoinOperation

end Dogpaddle.AsOf
