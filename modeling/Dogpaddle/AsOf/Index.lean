import Dogpaddle.Lib.Attempt
import Dogpaddle.Lib.Framing
import Dogpaddle.Store.Scan

/-!
# Keys of the ordered row indexes

A row is stored under its equality partition, its order tuple and its canonical bytes. The
first two are framed, so that keys compare by partition, then by order, then by row, and a
prefix selects all rows of a partition or of one order value.

The first byte of an order tuple says whether the row can match: `1` for an order value,
`0` for `NULL`.
-/

namespace Dogpaddle.AsOf

open Lib Store

inductive IndexCodecError
  | truncatedComponent
  | invalidEscape
deriving DecidableEq, Repr

structure ParsedIndexKey where
  partition : Bytes
  order : Bytes
  row : Bytes
deriving DecidableEq, Repr

def partitionPrefix (partition : Bytes) : Bytes := frame partition

/-- Begins every key of a partition whose order tuple is marked with `1`. The marker is no
zero byte, so framing leaves it as it is. -/
def matchablePartitionPrefix (partition : Bytes) : Bytes := partitionPrefix partition ++ [1]

def orderPrefix (partition order : Bytes) : Bytes := partitionPrefix partition ++ frame order

def rowKey (partition order row : Bytes) : Bytes := orderPrefix partition order ++ row

/-- Reads one framed component and returns the rest. -/
def takeComponent : Bytes → Except IndexCodecError (Bytes × Bytes)
  | [] => .error .truncatedComponent
  | byte :: rest =>
    if byte ≠ 0 then (takeComponent rest).map fun r => (byte :: r.1, r.2)
    else
      match rest with
      | [] => .error .truncatedComponent
      | marker :: rest =>
        if marker = 0 then .ok ([], rest)
        else if marker = 255 then (takeComponent rest).map fun r => (0 :: r.1, r.2)
        else .error .invalidEscape

def parseRowKey (encoded : Bytes) : Except IndexCodecError ParsedIndexKey := do
  let (partition, rest) ← takeComponent encoded
  let (order, row) ← takeComponent rest
  pure ⟨partition, order, row⟩

def rowSuffix (encoded : Bytes) : Except IndexCodecError Bytes := do
  let (_, rest) ← takeComponent encoded
  let (_, row) ← takeComponent rest
  pure row

/-! ## Reading what was built -/

theorem takeComponent_frame (component rest : Bytes) :
    takeComponent (frame component ++ rest) = .ok (component, rest) := by
  induction component with
  | nil => rfl
  | cons byte component ih =>
    rw [frame_cons]
    by_cases hzero : byte = 0
    · subst hzero
      rw [if_pos rfl, List.cons_append, List.cons_append, takeComponent, if_neg (by simp)]
      show (if (255 : UInt8) = 0 then _ else if (255 : UInt8) = 255 then _ else _) = _
      rw [if_neg (by decide), if_pos rfl, ih]
      rfl
    · rw [if_neg hzero, List.cons_append, takeComponent.eq_def]
      show (if byte ≠ 0 then _ else _) = _
      rw [if_pos hzero, ih]
      rfl

@[simp] theorem parseRowKey_rowKey (partition order row : Bytes) :
    parseRowKey (rowKey partition order row) = .ok ⟨partition, order, row⟩ := by
  unfold parseRowKey rowKey orderPrefix partitionPrefix
  rw [List.append_assoc, takeComponent_frame]
  show (takeComponent (frame order ++ row) >>= _) = _
  rw [takeComponent_frame]
  rfl

@[simp] theorem rowSuffix_rowKey (partition order row : Bytes) :
    rowSuffix (rowKey partition order row) = .ok row := by
  unfold rowSuffix rowKey orderPrefix partitionPrefix
  rw [List.append_assoc, takeComponent_frame]
  show (takeComponent (frame order ++ row) >>= _) = _
  rw [takeComponent_frame]
  rfl

theorem rowKey_inj {p o r p' o' r' : Bytes} :
    rowKey p o r = rowKey p' o' r' ↔ p = p' ∧ o = o' ∧ r = r' := by
  unfold rowKey orderPrefix partitionPrefix
  rw [List.append_assoc, List.append_assoc, frame_append_inj, frame_append_inj]

/-! ## Only what was built is read -/

theorem takeComponent_eq_ok {encoded component rest : Bytes}
    (h : takeComponent encoded = .ok (component, rest)) : encoded = frame component ++ rest := by
  -- The reader's own recursion: a plain byte, the terminator, an escaped zero.
  induction encoded using takeComponent.induct generalizing component rest with
  | case1 => cases h
  | case2 byte tail hne ih =>
    rw [takeComponent.eq_def] at h
    simp only [if_pos hne] at h
    obtain ⟨⟨c, r⟩, hr, heq⟩ := map_eq_ok.mp h
    obtain ⟨rfl, rfl⟩ := Prod.mk.inj heq
    rw [ih hr, frame_cons, if_neg hne, List.cons_append]
  | case3 byte hzero =>
    rw [takeComponent.eq_def] at h
    simp [hzero] at h
  | case4 byte hzero tail =>
    rw [takeComponent.eq_def] at h
    simp only [if_neg hzero, if_pos] at h
    obtain ⟨rfl, rfl⟩ := Prod.mk.inj (Except.ok.inj h)
    rw [not_not.mp hzero]
    rfl
  | case5 byte hzero tail hmarker ih =>
    rw [takeComponent.eq_def] at h
    simp only [if_neg hzero, if_neg hmarker, if_pos] at h
    obtain ⟨⟨c, r⟩, hr, heq⟩ := map_eq_ok.mp h
    obtain ⟨rfl, rfl⟩ := Prod.mk.inj heq
    rw [ih hr, frame_cons, if_pos rfl, not_not.mp hzero]
    rfl
  | case6 byte hzero marker tail hmarker hescaped =>
    rw [takeComponent.eq_def] at h
    simp [hzero, hmarker, hescaped] at h

/-- A key parses exactly when it was built, and then into the parts it was built from. -/
theorem parseRowKey_eq_ok {encoded : Bytes} {parsed : ParsedIndexKey} :
    parseRowKey encoded = .ok parsed ↔
      encoded = rowKey parsed.partition parsed.order parsed.row := by
  constructor
  · intro h
    obtain ⟨⟨partition, rest⟩, hpartition, h⟩ := except_bind_eq_ok.mp h
    obtain ⟨⟨order, row⟩, horder, h⟩ := except_bind_eq_ok.mp h
    obtain rfl := Except.ok.inj h
    rw [takeComponent_eq_ok hpartition, takeComponent_eq_ok horder, rowKey, orderPrefix,
      partitionPrefix, List.append_assoc]
  · rintro rfl
    exact parseRowKey_rowKey _ _ _

/-- Both readers fail on the same keys with the same error. -/
theorem rowSuffix_eq_map (encoded : Bytes) :
    rowSuffix encoded = (parseRowKey encoded).map ParsedIndexKey.row := by
  unfold rowSuffix parseRowKey
  cases takeComponent encoded with
  | error e => rfl
  | ok first =>
    show (takeComponent first.2 >>= _) = (takeComponent first.2 >>= _).map _
    cases takeComponent first.2 with
    | error e => rfl
    | ok second => rfl

/-! ## Keys compare by partition, order and row -/

theorem rowKey_lt {p o r p' o' r' : Bytes} :
    rowKey p o r < rowKey p' o' r' ↔ p < p' ∨ p = p' ∧ (o < o' ∨ o = o' ∧ r < r') := by
  unfold rowKey orderPrefix partitionPrefix
  rw [List.append_assoc, List.append_assoc, frame_append_lt, frame_append_lt]

theorem matchable_isPrefix_rowKey {p q o r : Bytes} :
    matchablePartitionPrefix p <+: rowKey q o r ↔ p = q ∧ o.head? = some 1 := by
  unfold matchablePartitionPrefix rowKey orderPrefix partitionPrefix
  rw [List.append_assoc, frame_append_prefix_iff]
  cases o with
  | nil => simp
  | cons byte o =>
    rw [frame_cons]
    by_cases hzero : byte = 0
    · simp [hzero]
    · simp [hzero, List.cons_prefix_cons, eq_comm]

theorem orderPrefix_isPrefix_rowKey {p o q o' r : Bytes} :
    orderPrefix p o <+: rowKey q o' r ↔ p = q ∧ o = o' := by
  unfold rowKey orderPrefix partitionPrefix
  rw [List.append_assoc, frame_append_prefix_iff]
  have h := frame_append_prefix_iff (a := o) (b := o') (x := []) (y := r)
  rw [List.append_nil] at h
  rw [h]
  simp

/-- A key stands below an order prefix exactly when its partition and order do. -/
theorem rowKey_lt_orderPrefix {p o q o' r : Bytes} :
    rowKey q o' r < orderPrefix p o ↔ q < p ∨ q = p ∧ o' < o := by
  have h := @rowKey_lt q o' r p o []
  rw [rowKey, rowKey, List.append_nil] at h
  rw [rowKey, h]
  simp

end Dogpaddle.AsOf
