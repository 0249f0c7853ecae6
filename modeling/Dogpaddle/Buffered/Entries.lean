import Dogpaddle.Buffered.Runtime

/-!
# The entries of an outbox

What the map of an outbox holds, seen as its list of entries with their decoded changes.

* `units`, `count`: a weighted row is so many units of one sign.
* `Tiled`: the entries cover their event numbers without gap or overlap.
* `Located`: a position inside a row's multiplicity.
* `CacheOk`: a cached entry that is still stored is that entry, and its hint is right.
-/

namespace Dogpaddle.Buffered

open Lib

variable {Row : Type}

/-! ## Units -/

/-- The number of units of a list of weighted rows. -/
def count (events : List (Row × Int)) : Nat := (events.map fun event => event.2.natAbs).sum

@[simp] theorem count_nil : count ([] : List (Row × Int)) = 0 := rfl

@[simp] theorem count_cons (event : Row × Int) (events : List (Row × Int)) :
    count (event :: events) = event.2.natAbs + count events := by
  simp [count]

@[simp] theorem count_append (a b : List (Row × Int)) : count (a ++ b) = count a + count b := by
  simp [count]

@[simp] theorem units_nil : units ([] : List (Row × Int)) = [] := rfl

@[simp] theorem units_cons (event : Row × Int) (events : List (Row × Int)) :
    units (event :: events) =
      List.replicate event.2.natAbs (event.1, decide (0 < event.2)) ++ units events := rfl

@[simp] theorem units_append (a b : List (Row × Int)) : units (a ++ b) = units a ++ units b := by
  simp [units]

@[simp] theorem length_units (events : List (Row × Int)) : (units events).length = count events := by
  induction events with
  | nil => rfl
  | cons event events ih => simp [ih]

/-- The sum a count loop computes, when it does not overflow. -/
theorem foldlM_checkedAdd (events : List (Row × Int)) (start total : Nat) :
    events.foldlM (fun total event =>
        match checkedAdd total event.2.natAbs with
        | some total => Except.ok total
        | none => .error (invalid "Change event count exceeds u64")) start = .ok total →
      total = start + count events ∧ (start < 2 ^ 64 → total < 2 ^ 64) := by
  induction events generalizing start with
  | nil =>
    intro h
    cases h
    exact ⟨rfl, id⟩
  | cons event events ih =>
    intro h
    rw [List.foldlM_cons] at h
    cases hadd : checkedAdd start event.2.natAbs with
    | none => rw [hadd] at h; cases h
    | some next =>
      rw [hadd] at h
      obtain ⟨rfl, hbound⟩ := checkedAdd_eq_some.mp hadd
      obtain ⟨htotal, hlt⟩ := ih _ h
      rw [count_cons]
      exact ⟨by omega, fun _ => hlt hbound⟩

theorem foldlM_checkedAdd_ok (events : List (Row × Int)) (start : Nat)
    (h : start + count events < 2 ^ 64) :
    events.foldlM (fun total event =>
        match checkedAdd total event.2.natAbs with
        | some total => Except.ok total
        | none => .error (invalid "Change event count exceeds u64")) start =
      .ok (start + count events) := by
  induction events generalizing start with
  | nil => rfl
  | cons event events ih =>
    rw [count_cons] at h
    rw [List.foldlM_cons, checkedAdd_eq_some.mpr ⟨rfl, by omega⟩, count_cons, ← Nat.add_assoc]
    exact ih _ (by omega)

theorem eventCount_eq_ok {change : Change Row} {events : Nat} :
    eventCount change = .ok events ↔ events = count change.events ∧ events < 2 ^ 64 := by
  unfold eventCount
  constructor
  · intro h
    obtain ⟨htotal, hlt⟩ := foldlM_checkedAdd _ _ _ h
    exact ⟨by omega, hlt (by decide)⟩
  · rintro ⟨rfl, hlt⟩
    have hsum := foldlM_checkedAdd_ok change.events 0 (by omega)
    rwa [Nat.zero_add] at hsum

theorem count_pos (change : Change Row) : 0 < count change.events := by
  obtain ⟨event, events, hevents⟩ := List.exists_cons_of_ne_nil change.nonempty
  have hnonzero := change.nonzero event (by rw [hevents]; exact List.mem_cons_self)
  rw [hevents, count_cons]
  omega

theorem entryEnd_eq_ok {change : Change Row} {entryStart stop : Nat} :
    entryEnd change entryStart = .ok stop ↔
      stop = entryStart + count change.events ∧ stop < 2 ^ 64 := by
  have hpos := count_pos change
  unfold entryEnd
  by_cases hlt : count change.events < 2 ^ 64
  · rw [eventCount_eq_ok.mpr ⟨rfl, hlt⟩]
    show (if count change.events = 0 then _ else _) = _ ↔ _
    rw [if_neg (by omega)]
    unfold checkedAdd
    split <;> split at * <;> simp_all
    omega
  · cases hcount : eventCount change with
    | ok n => obtain ⟨rfl, h⟩ := eventCount_eq_ok.mp hcount; omega
    | error e =>
      constructor
      · intro h; cases h
      · rintro ⟨rfl, h⟩; omega

theorem encodedItemBytes_eq_ok {encoded : Bytes} {bytes : Nat} :
    encodedItemBytes encoded = .ok bytes ↔
      bytes = encoded.length + mapKeyBytes ∧ bytes < 2 ^ 64 := by
  unfold encodedItemBytes checkedAdd
  split <;> split at * <;> simp_all
  omega

/-! ## Stored entries -/

/-- A stored entry with the change it decodes to. -/
structure Entry (Row : Type) where
  key : Nat
  encoded : Bytes
  change : Change Row

namespace Entry

/-- What the entry adds to the retained bytes. -/
def bytes (entry : Entry Row) : Nat := entry.encoded.length + mapKeyBytes

/-- One past the entry's last event. -/
def stop (entry : Entry Row) : Nat := entry.key + count entry.change.events

theorem key_lt_stop (entry : Entry Row) : entry.key < entry.stop := by
  have := count_pos entry.change
  unfold stop
  omega

end Entry

/-- The map entries. -/
def stored (es : List (Entry Row)) : List (Nat × Bytes) := es.map fun e => (e.key, e.encoded)

/-- The weighted rows of the entries, in order. -/
def stock (es : List (Entry Row)) : List (Row × Int) := es.flatMap (·.change.events)

/-- The retained bytes of the entries. -/
def weight (es : List (Entry Row)) : Nat := (es.map Entry.bytes).sum

@[simp] theorem stock_nil : stock ([] : List (Entry Row)) = [] := rfl

@[simp] theorem stock_cons (e : Entry Row) (es : List (Entry Row)) :
    stock (e :: es) = e.change.events ++ stock es := rfl

@[simp] theorem stock_append (a b : List (Entry Row)) : stock (a ++ b) = stock a ++ stock b := by
  simp [stock]

@[simp] theorem weight_nil : weight ([] : List (Entry Row)) = 0 := rfl

@[simp] theorem weight_cons (e : Entry Row) (es : List (Entry Row)) :
    weight (e :: es) = e.bytes + weight es := by
  simp [weight]

@[simp] theorem weight_append (a b : List (Entry Row)) : weight (a ++ b) = weight a + weight b := by
  simp [weight]

/-- The entries cover the event numbers from `start` to `tail` without gap or overlap, each
one keyed by its first. -/
def Tiled : Nat → List (Entry Row) → Nat → Prop
  | start, [], tail => start = tail
  | start, e :: es, tail => e.key = start ∧ Tiled e.stop es tail

namespace Tiled

variable {start tail : Nat} {es a b : List (Entry Row)}

theorem append_iff : Tiled start (a ++ b) tail ↔ ∃ mid, Tiled start a mid ∧ Tiled mid b tail := by
  induction a generalizing start with
  | nil => simp [Tiled]
  | cons e a ih => simp only [List.cons_append, Tiled, ih]; grind

theorem tail_eq (h : Tiled start es tail) : tail = start + count (stock es) := by
  induction es generalizing start with
  | nil => exact h.symm
  | cons e es ih =>
    obtain ⟨rfl, h⟩ := h
    rw [ih h, stock_cons, count_append, Entry.stop]
    omega

/-- Every entry lies inside the tiled range. -/
theorem mem_range (h : Tiled start es tail) {e : Entry Row} (he : e ∈ es) :
    start ≤ e.key ∧ e.stop ≤ tail := by
  obtain ⟨a, b, rfl⟩ := List.append_of_mem he
  obtain ⟨mid, ha, rfl, hb⟩ := append_iff.mp h
  have h1 := ha.tail_eq
  have h2 := hb.tail_eq
  omega

/-- Two entries with one key are the same. -/
theorem key_unique (h : Tiled start es tail) {e e' : Entry Row} (he : e ∈ es) (he' : e' ∈ es)
    (hkey : e.key = e'.key) : e = e' := by
  induction es generalizing start with
  | nil => cases he
  | cons f es ih =>
    obtain ⟨rfl, h⟩ := h
    have hlt := f.key_lt_stop
    rcases List.mem_cons.mp he with rfl | hin <;> rcases List.mem_cons.mp he' with rfl | hin'
    · rfl
    · have := (h.mem_range hin').1
      omega
    · have := (h.mem_range hin).1
      omega
    · exact ih h hin hin'

/-- The keys ascend. -/
theorem pairwise (h : Tiled start es tail) : (stored es).Pairwise fun x y => x.1 < y.1 := by
  induction es generalizing start with
  | nil => exact .nil
  | cons e es ih =>
    obtain ⟨rfl, h⟩ := h
    refine .cons ?_ (ih h)
    intro x hx
    obtain ⟨e', he', rfl⟩ := List.mem_map.mp hx
    have := (h.mem_range he').1
    have := e.key_lt_stop
    show e.key < e'.key
    omega

end Tiled

/-! ## Positions inside an entry -/

/-- The offset is in row `row` of the entry, with `remaining` units of it left. -/
def Located (e : Entry Row) (offset row remaining : Nat) : Prop :=
  ∃ event, e.change.events[row]? = some event ∧ 0 < remaining ∧ remaining ≤ event.2.natAbs ∧
    offset + remaining = e.key + count (e.change.events.take (row + 1))

/-- What the entry still holds from an offset on. -/
def left (e : Entry Row) (offset : Nat) : List (Row × Bool) :=
  (units e.change.events).drop (offset - e.key)

theorem count_take_succ {events : List (Row × Int)} {row : Nat} {event : Row × Int}
    (h : events[row]? = some event) :
    count (events.take (row + 1)) = count (events.take row) + event.2.natAbs := by
  rw [List.take_add_one, h, Option.toList_some, count_append, count_cons, count_nil]
  omega

theorem count_take_le (events : List (Row × Int)) (n : Nat) :
    count (events.take n) ≤ count events := by
  conv_rhs => rw [← List.take_append_drop n events, count_append]
  omega

/-- Dropping up to a row boundary drops whole rows. -/
theorem drop_count_take (events : List (Row × Int)) (n : Nat) :
    (units events).drop (count (events.take n)) = units (events.drop n) := by
  conv_lhs => rw [← List.take_append_drop n events]
  rw [units_append, List.drop_append_of_le_length (by
    rw [length_units, List.take_append_drop]), List.take_append_drop, ← length_units,
    List.drop_length, List.nil_append]

namespace Located

variable {e : Entry Row} {offset row remaining : Nat}

theorem range (h : Located e offset row remaining) : e.key ≤ offset ∧ offset < e.stop := by
  obtain ⟨event, hevent, hpos, hle, hsum⟩ := h
  have hsucc := count_take_succ hevent
  have hcount := count_take_le e.change.events (row + 1)
  unfold Entry.stop
  omega

/-- What is left at a position: the rest of its row, and the rows after it. -/
theorem left_eq (h : Located e offset row remaining) {event : Row × Int}
    (hevent : e.change.events[row]? = some event) :
    left e offset = List.replicate remaining (event.1, decide (0 < event.2)) ++
      units (e.change.events.drop (row + 1)) := by
  obtain ⟨event', hevent', hpos, hle, hsum⟩ := h
  cases hevent.symm.trans hevent'
  have hsucc := count_take_succ hevent
  obtain ⟨hrow, rfl⟩ := List.getElem?_eq_some_iff.mp hevent
  have hoffset : offset - e.key =
      count (e.change.events.take row) + (e.change.events[row].2.natAbs - remaining) := by omega
  unfold left
  rw [hoffset, ← List.drop_drop, drop_count_take, List.drop_eq_getElem_cons hrow, units_cons,
    List.drop_append_of_le_length (by rw [List.length_replicate]; omega), List.drop_replicate]
  congr 2
  omega

/-- Taking units of the row moves on inside it. -/
theorem take (h : Located e offset row remaining) {n : Nat} (hn : n < remaining) :
    Located e (offset + n) row (remaining - n) := by
  obtain ⟨event, hevent, hpos, hle, hsum⟩ := h
  exact ⟨event, hevent, by omega, by omega, by omega⟩

/-- Taking all of the row moves to the next one. -/
theorem next (h : Located e offset row remaining) {event : Row × Int}
    (hevent : e.change.events[row + 1]? = some event) :
    Located e (offset + remaining) (row + 1) event.2.natAbs := by
  obtain ⟨event', hevent', hpos, hle, hsum⟩ := h
  have hnonzero := e.change.nonzero event (List.mem_of_getElem? hevent)
  have hsucc := count_take_succ hevent
  exact ⟨event, hevent, by omega, le_rfl, by omega⟩

end Located

theorem left_stop (e : Entry Row) : left e e.stop = [] := by
  unfold left Entry.stop
  rw [Nat.add_sub_cancel_left, ← length_units, List.drop_length]

/-- The walk to an offset inside the entry finds its place. -/
theorem locateRow_eq_ok {e : Entry Row} {offset : Nat} {found : Nat × Nat}
    (done : List (Row × Int)) {rows : List (Row × Int)}
    (hrows : e.change.events = done ++ rows) (hoffset : e.key + count done ≤ offset)
    (h : locateRow offset rows done.length (e.key + count done) = .ok found) :
    Located e offset found.1 found.2 := by
  induction rows generalizing done with
  | nil => cases h
  | cons event rows ih =>
    rw [locateRow] at h
    have hevent : e.change.events[done.length]? = some event := by simp [hrows]
    have htake : e.change.events.take done.length = done := by simp [hrows]
    cases hadd : checkedAdd (e.key + count done) event.2.natAbs with
    | none => rw [hadd] at h; cases h
    | some stop =>
      rw [hadd] at h
      obtain ⟨rfl, -⟩ := checkedAdd_eq_some.mp hadd
      dsimp only at h
      split at h
      · cases h
        refine ⟨event, hevent, by omega, by omega, ?_⟩
        rw [count_take_succ hevent, htake]
        omega
      · refine ih (done ++ [event]) (by simp [hrows]) ?_ ?_
        · rw [count_append, count_cons, count_nil]
          omega
        · rw [count_append, count_cons, count_nil, Nat.add_zero, ← Nat.add_assoc,
            List.length_append]
          exact h

/-! ## The cache -/

/-- The cached entry is the stored one, and its hint is a position of it. -/
structure Shown (e : Entry Row) (cached : EntryCache Row) : Prop where
  entryStart : cached.entryStart = e.key
  itemBytes : cached.itemBytes = e.bytes
  change : cached.change = e.change
  entryEnd : cached.entryEnd = e.stop
  hint : ∀ hint, cached.positionHint = some hint →
    Located e hint.eventOffset hint.rowIndex hint.remaining

/-- A cached entry has a number that was given out, and if it is still stored it is right. -/
def CacheOk (es : List (Entry Row)) (tail : Nat) (cache : Option (EntryCache Row)) : Prop :=
  ∀ cached, cache = some cached → cached.entryStart < tail ∧
    ∀ e ∈ es, e.key = cached.entryStart → Shown e cached

theorem Shown.cacheOk {start tail : Nat} {es : List (Entry Row)} {e : Entry Row}
    {cached : EntryCache Row} (h : Shown e cached) (htiled : Tiled start es tail) (he : e ∈ es) :
    CacheOk es tail (some cached) := by
  intro cached' hcached
  cases hcached
  refine ⟨?_, ?_⟩
  · have := (htiled.mem_range he).2
    have := e.key_lt_stop
    rw [h.entryStart]
    omega
  · intro e' he' hkey
    rw [h.entryStart] at hkey
    rwa [htiled.key_unique he' he hkey]

end Dogpaddle.Buffered
