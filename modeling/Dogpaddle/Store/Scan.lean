import Dogpaddle.Lib.OrdMap

/-!
# Paged scans of an ordered map

`scan` visits the entries of a key range in one direction, from after the key an
earlier page ended with, until an item or byte limit stops it.

* `remaining` lists what a scan still has to visit;
* `IsPage` says what one page is: a run of what remained, whose continuation is
  exactly the position of the rest.
-/

namespace Dogpaddle.Store

open Lib

/-- A store failure that the operators above tell apart. -/
inductive StoreError
  | itemTooLarge (size limit : Nat)
deriving DecidableEq, Repr

/-- Direction of an ordered scan over encoded keys. -/
inductive ScanDirection
  | ascending
  | descending
deriving DecidableEq, Repr

/-- Hard item and logical encoded-byte bounds for one scan. -/
structure ScanLimit where
  maxItems : Nat
  maxBytes : Nat
  items_pos : 0 < maxItems
  bytes_pos : 0 < maxBytes

/-- One fully decoded page from an ordered-map scan. -/
structure OrderedMapPage (K V : Type) where
  entries : List (K × V)
  /-- The last returned key, present only when another matching entry exists. -/
  continuation : Option K

/-- A range end: its key and whether it is included. -/
abbrev EncodedBound (K : Type) := Option (K × Bool)

section Bounds

variable {K : Type} [LinearOrder K]

def withinLower (key : K) (lower : EncodedBound K) : Bool :=
  match lower with
  | none => true
  | some (lowerKey, inclusive) => decide (lowerKey < key) || (decide (key = lowerKey) && inclusive)

def withinUpper (key : K) (upper : EncodedBound K) : Bool :=
  match upper with
  | none => true
  | some (upperKey, inclusive) => decide (key < upperKey) || (decide (key = upperKey) && inclusive)

/-- The stronger of two lower ends. -/
def laterBound (left right : EncodedBound K) : EncodedBound K :=
  match left, right with
  | some l, some r =>
    if l.1 < r.1 then some r else if r.1 < l.1 then some l else some (l.1, l.2 && r.2)
  | some l, none => some l
  | none, right => right

/-- The stronger of two upper ends. -/
def earlierBound (left right : EncodedBound K) : EncodedBound K :=
  match left, right with
  | some l, some r =>
    if l.1 < r.1 then some l else if r.1 < l.1 then some r else some (l.1, l.2 && r.2)
  | some l, none => some l
  | none, right => right

theorem withinLower_laterBound (key : K) (left right : EncodedBound K) :
    withinLower key (laterBound left right) = (withinLower key left && withinLower key right) := by
  rcases left with _ | ⟨l, li⟩ <;> rcases right with _ | ⟨r, ri⟩
  · rfl
  · rfl
  · simp [laterBound, withinLower]
  · rcases lt_trichotomy l r with h | rfl | h
    · have := fun h' : r < key => lt_trans h h'
      have := fun h' : key = r => h' ▸ h
      simp only [laterBound, h, if_true, withinLower]
      grind
    · simp only [laterBound, lt_irrefl, if_false, withinLower]
      grind
    · have := fun h' : l < key => lt_trans h h'
      have := fun h' : key = l => h' ▸ h
      simp only [laterBound, h, not_lt_of_gt h, if_true, if_false, withinLower]
      grind

theorem withinUpper_earlierBound (key : K) (left right : EncodedBound K) :
    withinUpper key (earlierBound left right) =
      (withinUpper key left && withinUpper key right) := by
  rcases left with _ | ⟨l, li⟩ <;> rcases right with _ | ⟨r, ri⟩
  · rfl
  · rfl
  · simp [earlierBound, withinUpper]
  · rcases lt_trichotomy l r with h | rfl | h
    · have := fun h' : key < l => lt_trans h' h
      have := fun h' : key = l => h' ▸ h
      simp only [earlierBound, h, if_true, withinUpper]
      grind
    · simp only [earlierBound, lt_irrefl, if_false, withinUpper]
      grind
    · have := fun h' : key < r => lt_trans h' h
      have := fun h' : key = r => h' ▸ h
      simp only [earlierBound, h, not_lt_of_gt h, if_true, if_false, withinUpper]
      grind

end Bounds

section Scan

variable {K V : Type} [LinearOrder K]

/-- The entries of a range in scan order. -/
def inRange (m : OrdMap K V) (lower upper : EncodedBound K) (direction : ScanDirection) :
    List (K × V) :=
  let entries := m.entries.filter fun e => withinLower e.1 lower && withinUpper e.1 upper
  match direction with
  | .ascending => entries
  | .descending => entries.reverse

/-- What a scan that resumes after a key still has to visit. -/
def remaining (m : OrdMap K V) (lower upper : EncodedBound K) (direction : ScanDirection)
    (resumeAfter : Option K) : List (K × V) :=
  let resume := resumeAfter.map fun key => (key, false)
  match direction with
  | .ascending => inRange m (laterBound lower resume) upper .ascending
  | .descending => inRange m lower (earlierBound upper resume) .descending

/-- The loop of a scan: admits entries until a limit stops it. The flag says
that another matching entry exists. -/
def admitEntries (size : K × V → Nat) (limit : ScanLimit) :
    List (K × V) → List (K × V) → Nat → Except StoreError (List (K × V) × Bool)
  | [], entries, _ => .ok (entries, false)
  | e :: rest, entries, bytes =>
    if entries.length = limit.maxItems then .ok (entries, true)
    else if limit.maxBytes < bytes + size e then
      if entries = [] then .error (.itemTooLarge (size e) limit.maxBytes)
      else .ok (entries, true)
    else admitEntries size limit rest (entries ++ [e]) (bytes + size e)

/-- Returns one page of a key range. `size` is the logical size of an entry. -/
def scan (m : OrdMap K V) (size : K × V → Nat) (lower upper : EncodedBound K)
    (direction : ScanDirection) (resumeAfter : Option K) (limit : ScanLimit) :
    Except StoreError (OrderedMapPage K V) :=
  match admitEntries size limit (remaining m lower upper direction resumeAfter) [] 0 with
  | .error e => .error e
  | .ok (entries, limited) =>
    .ok ⟨entries, if limited then entries.getLast?.map (·.1) else none⟩

/-- Whether a direction visits one key before another. -/
def visitsBefore (direction : ScanDirection) (a b : K) : Bool :=
  match direction with
  | .ascending => decide (a < b)
  | .descending => decide (b < a)

theorem visitsBefore_ascending {a b : K} : visitsBefore .ascending a b = true ↔ a < b :=
  decide_eq_true_iff

theorem visitsBefore_descending {a b : K} : visitsBefore .descending a b = true ↔ b < a :=
  decide_eq_true_iff

theorem visitsBefore_irrefl (direction : ScanDirection) (a : K) :
    visitsBefore direction a a = false := by
  cases direction <;> simp [visitsBefore]

theorem visitsBefore_trans {direction : ScanDirection} {a b c : K}
    (h : visitsBefore direction a b = true) (h' : visitsBefore direction b c = true) :
    visitsBefore direction a c = true := by
  cases direction <;> simp only [visitsBefore, decide_eq_true_eq] at h h' ⊢
  · exact lt_trans h h'
  · exact lt_trans h' h

theorem visitsBefore_asymm {direction : ScanDirection} {a b : K}
    (h : visitsBefore direction a b = true) : visitsBefore direction b a = false := by
  cases direction <;> simp only [visitsBefore, decide_eq_true_eq, decide_eq_false_iff_not] at h ⊢
  · exact not_lt_of_gt h
  · exact not_lt_of_gt h

/-- Two visits in one direction of the same entries are the same. -/
theorem eq_of_pairwise_visits {direction : ScanDirection} {l r : List (K × V)}
    (hl : l.Pairwise fun a b => visitsBefore direction a.1 b.1 = true)
    (hr : r.Pairwise fun a b => visitsBefore direction a.1 b.1 = true)
    (hmem : ∀ e, e ∈ l ↔ e ∈ r) : l = r := by
  have hne : ∀ {a b : K × V}, visitsBefore direction a.1 b.1 = true → a ≠ b := by
    rintro a b h rfl
    rw [visitsBefore_irrefl] at h
    cases h
  have hperm : l.Perm r := (List.perm_ext_iff_of_nodup (hl.imp hne) (hr.imp hne)).mpr hmem
  refine hperm.eq_of_pairwise ?_ hl hr
  intro a b _ _ hab hba
  rw [visitsBefore_asymm hab] at hba
  cases hba

theorem pairwise_inRange (m : OrdMap K V) (lower upper : EncodedBound K)
    (direction : ScanDirection) :
    (inRange m lower upper direction).Pairwise fun a b =>
      visitsBefore direction a.1 b.1 = true := by
  have h := m.sorted.filter fun e => withinLower e.1 lower && withinUpper e.1 upper
  cases direction with
  | ascending => exact h.imp fun hlt => decide_eq_true hlt
  | descending => exact List.pairwise_reverse.mpr (h.imp fun hlt => decide_eq_true hlt)

/-- Resuming drops what was visited up to the resume key. -/
theorem remaining_eq_filter (m : OrdMap K V) (lower upper : EncodedBound K)
    (direction : ScanDirection) (resumeAfter : Option K) :
    remaining m lower upper direction resumeAfter = (inRange m lower upper direction).filter
      fun e => resumeAfter.all fun key => visitsBefore direction key e.1 := by
  cases direction with
  | ascending =>
    cases resumeAfter with
    | none => simp [remaining, inRange]; cases lower <;> rfl
    | some k =>
      simp only [remaining, inRange, Option.map_some, List.filter_filter]
      refine List.filter_congr fun e _ => ?_
      rw [withinLower_laterBound]
      simp [withinLower, visitsBefore, Bool.and_comm, Bool.and_left_comm]
  | descending =>
    cases resumeAfter with
    | none => simp [remaining, inRange]; cases upper <;> rfl
    | some k =>
      simp only [remaining, inRange, Option.map_some, List.filter_reverse, List.filter_filter]
      congr 1
      refine List.filter_congr fun e _ => ?_
      rw [withinUpper_earlierBound]
      simp [withinUpper, visitsBefore, Bool.and_comm, Bool.and_left_comm]

theorem mem_inRange {m : OrdMap K V} {lower upper : EncodedBound K} {direction : ScanDirection}
    {e : K × V} : e ∈ inRange m lower upper direction ↔
      e ∈ m.entries ∧ withinLower e.1 lower = true ∧ withinUpper e.1 upper = true := by
  cases direction <;> simp [inRange]

/-- What an ascending scan still has to visit lies in its range, after its resume key. -/
theorem mem_remaining_ascending {m : OrdMap K V} {lower upper : EncodedBound K}
    {resumeAfter : Option K} {e : K × V}
    (h : e ∈ remaining m lower upper .ascending resumeAfter) :
    e ∈ inRange m lower upper .ascending ∧ resumeAfter < some e.1 := by
  rw [remaining_eq_filter, List.mem_filter] at h
  refine ⟨h.1, ?_⟩
  cases resumeAfter with
  | none => exact Option.none_lt_some
  | some key => simpa [visitsBefore] using h.2

/-- The rest of a scan is what resuming after the last visited entry leaves. -/
theorem remaining_of_append {m : OrdMap K V} {lower upper : EncodedBound K}
    {direction : ScanDirection} {resumeAfter : Option K} {visited rest : List (K × V)} {e : K × V}
    (h : remaining m lower upper direction resumeAfter = visited ++ e :: rest) :
    remaining m lower upper direction (some e.1) = rest := by
  rw [remaining_eq_filter] at h ⊢
  have hpage := (pairwise_inRange m lower upper direction).filter
    fun e => resumeAfter.all fun key => visitsBefore direction key e.1
  rw [h] at hpage
  obtain ⟨-, hrest, hcross⟩ := List.pairwise_append.mp hpage
  obtain ⟨hafter, -⟩ := List.pairwise_cons.mp hrest
  have hresume : (resumeAfter.all fun key => visitsBefore direction key e.1) = true := by
    have he : e ∈ visited ++ e :: rest := by simp
    rw [← h] at he
    exact (List.mem_filter.mp he).2
  -- The earlier resume key lies before `e`, so filtering by `e` alone is enough.
  calc (inRange m lower upper direction).filter
        (fun e' => (some e.1).all fun key => visitsBefore direction key e'.1)
      = ((inRange m lower upper direction).filter
          fun e' => resumeAfter.all fun key => visitsBefore direction key e'.1).filter
            fun e' => visitsBefore direction e.1 e'.1 := by
        rw [List.filter_filter]
        refine List.filter_congr fun e' _ => ?_
        cases resumeAfter with
        | none => simp
        | some key =>
          simp only [Option.all_some] at hresume ⊢
          cases hv : visitsBefore direction e.1 e'.1 with
          | false => rfl
          | true => rw [visitsBefore_trans hresume hv]; rfl
    _ = rest := by
        rw [h, List.filter_append, List.filter_cons_of_neg (by simp [visitsBefore_irrefl]),
          List.filter_eq_nil_iff.mpr, List.nil_append, List.filter_eq_self.mpr hafter]
        intro e' he'
        simp [visitsBefore_asymm (hcross e' he' e (by simp))]

omit [LinearOrder K] in
/-- What the loop admits is a run of its input; it stops early only with the
flag set and something admitted. -/
theorem admitEntries_eq_ok {size : K × V → Nat} {limit : ScanLimit} {todo entries : List (K × V)}
    {bytes : Nat} {out : List (K × V)} {limited : Bool}
    (h : admitEntries size limit todo entries bytes = .ok (out, limited)) :
    ∃ rest, entries ++ todo = out ++ rest ∧ (limited = false → rest = []) ∧
      (limited = true → out ≠ [] ∧ rest ≠ []) := by
  induction todo generalizing entries bytes with
  | nil =>
    simp only [admitEntries, Except.ok.injEq, Prod.mk.injEq] at h
    obtain ⟨rfl, rfl⟩ := h
    exact ⟨[], by simp, fun _ => rfl, fun h => by cases h⟩
  | cons e rest ih =>
    simp only [admitEntries] at h
    split at h
    · next hitems =>
      cases h
      refine ⟨e :: rest, rfl, fun h => (by cases h), fun _ => ⟨?_, by simp⟩⟩
      rintro rfl
      have := limit.items_pos
      simp only [List.length_nil] at hitems
      omega
    · split at h
      · split at h
        · cases h
        · next hne =>
          cases h
          exact ⟨e :: rest, rfl, fun h => (by cases h), fun _ => ⟨hne, by simp⟩⟩
      · obtain ⟨r, hr, hlast, hmore⟩ := ih h
        exact ⟨r, by rw [← hr]; simp, hlast, hmore⟩

/-- A page of a traversal: everything that remained, or a first run of it with
the position of the rest, which is the key of its last entry. -/
def IsPage (todo : Option K → List (K × V)) (resumeAfter : Option K)
    (page : OrderedMapPage K V) : Prop :=
  match page.continuation with
  | none => todo resumeAfter = page.entries
  | some key => page.entries.getLast?.map (·.1) = some key ∧ todo (some key) ≠ [] ∧
    todo resumeAfter = page.entries ++ todo (some key)

omit [LinearOrder K] in
/-- The last key of a list is the key of a member. -/
theorem mem_of_getLast?_key {entries : List (K × V)} {key : K}
    (h : entries.getLast?.map (·.1) = some key) : ∃ v, (key, v) ∈ entries := by
  obtain ⟨⟨k, v⟩, hlast, rfl⟩ := Option.map_eq_some_iff.mp h
  exact ⟨v, List.mem_of_getLast? hlast⟩

omit [LinearOrder K] in
theorem getLast?_key_append {entries rest : List (K × V)} {key : K}
    (h : rest.getLast?.map (·.1) = some key) :
    (entries ++ rest).getLast?.map (·.1) = some key := by
  obtain ⟨e, hlast, rfl⟩ := Option.map_eq_some_iff.mp h
  rw [List.getLast?_append, hlast]
  rfl

omit [LinearOrder K] in
theorem ne_nil_of_getLast?_key {entries : List (K × V)} {key : K}
    (h : entries.getLast?.map (·.1) = some key) : entries ≠ [] := by
  obtain ⟨v, hv⟩ := mem_of_getLast?_key h
  exact List.ne_nil_of_mem hv

/-- A scan returns a page of what remains. -/
theorem scan_isPage {m : OrdMap K V} {size : K × V → Nat} {lower upper : EncodedBound K}
    {direction : ScanDirection} {resumeAfter : Option K} {limit : ScanLimit}
    {page : OrderedMapPage K V}
    (h : scan m size lower upper direction resumeAfter limit = .ok page) :
    IsPage (remaining m lower upper direction) resumeAfter page := by
  unfold scan at h
  cases hentries : admitEntries size limit (remaining m lower upper direction resumeAfter) [] 0 with
  | error e => rw [hentries] at h; cases h
  | ok r =>
    obtain ⟨entries, limited⟩ := r
    rw [hentries] at h
    cases h
    obtain ⟨rest, hrest, hlast, hmore⟩ := admitEntries_eq_ok hentries
    rw [List.nil_append] at hrest
    cases limited with
    | false =>
      show remaining m lower upper direction resumeAfter = entries
      rw [hrest, hlast rfl, List.append_nil]
    | true =>
      obtain ⟨hne, hrest_ne⟩ := hmore rfl
      obtain ⟨init, e, rfl⟩ := List.eq_nil_or_concat entries |>.resolve_left hne
      rw [List.concat_eq_append, List.append_assoc, List.singleton_append] at hrest
      have hremaining := remaining_of_append hrest
      simp only [IsPage, if_true, List.concat_eq_append, List.getLast?_append_cons,
        List.getLast?_singleton, Option.map_some, hremaining]
      refine ⟨by simp, hrest_ne, ?_⟩
      rw [hrest]
      simp

end Scan

end Dogpaddle.Store
