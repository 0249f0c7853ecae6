import Dogpaddle.Relation.Row

/-!
# Byte limits

A value that can be encoded at all fails under a limit only because of the limit. The same
then holds of rows: whether their size is taken, their bytes are written or read back.
-/

namespace Dogpaddle.Relation

open Lib

variable {Ty Value : Type}

/-- Failures that only report a limit. -/
def IsLimit (e : RowError) : Prop := ∃ maxBytes, e = .sizeLimit maxBytes

namespace RowFormat

/-- An encodable value completes under every limit that covers it, and under any other limit
the limit is what is reported. -/
structure Limited (fmt : RowFormat Ty Value) : Prop where
  encode_ok : ∀ field value limit bytes, fmt.encode field value limit = (bytes, .ok ()) →
    ∀ other, bytes.length ≤ other → fmt.encode field value other = (bytes, .ok ())
  encode_fails : ∀ field value limit bytes, fmt.encode field value limit = (bytes, .ok ()) →
    ∀ other, Fails IsLimit (fmt.encode field value other).2
  size_ok : ∀ field value limit bytes, fmt.encode field value limit = (bytes, .ok ()) →
    ∀ other size, fmt.size field value other = .ok size → size = bytes.length
  size_fails : ∀ field value limit bytes, fmt.encode field value limit = (bytes, .ok ()) →
    ∀ other, Fails IsLimit (fmt.size field value other)
  check_ok : ∀ field value limit bytes, fmt.encode field value limit = (bytes, .ok ()) →
    ∀ rest other checked, fmt.check field (bytes ++ rest) other = .ok checked → checked.2 = rest
  check_fails : ∀ field value limit bytes, fmt.encode field value limit = (bytes, .ok ()) →
    ∀ rest other, Fails IsLimit (fmt.check field (bytes ++ rest) other)

variable {fmt : RowFormat Ty Value} {field : Field Ty} {fields : Schema Ty} {value : Value}
  {values : Row Value}

/-! ## Rows of encodable values -/

/-- A written row is written value by value. -/
theorem Writable.cons (h : fmt.Writable (field :: fields) (value :: values)) :
    (∃ limit, fmt.encode field value limit = (fmt.canonical field.dataType value, .ok ())) ∧
      fmt.Writable fields values := by
  obtain ⟨limit, h⟩ := h
  rw [canonicalRowBounded] at h
  cases hvalue : fmt.encode field value limit with
  | mk bytes result =>
    rw [hvalue] at h
    cases result with
    | error e => cases h
    | ok u =>
      obtain rfl := fmt.encode_canonical _ _ _ _ hvalue
      refine ⟨⟨limit, hvalue⟩, limit - (fmt.canonical field.dataType value).length, ?_⟩
      cases hrest : fmt.canonicalRowBounded fields values
        (limit - (fmt.canonical field.dataType value).length) with
      | error e => simp [hrest, Except.map] at h
      | ok rest =>
        rw [(fmt.canonicalRowBounded_eq_ok hrest).1]

/-- A written row has the width of its schema. -/
theorem Writable.shape {schema : Schema Ty} {row : Row Value} (h : fmt.Writable schema row) :
    schema.length = row.length := by
  induction schema generalizing row with
  | nil =>
    cases row with
    | nil => rfl
    | cons value values =>
      obtain ⟨limit, h⟩ := h
      cases h
  | cons field fields ih =>
    cases row with
    | nil =>
      obtain ⟨limit, h⟩ := h
      cases h
    | cons value values =>
      rw [List.length_cons, List.length_cons, ih h.cons.2]

section Rows

variable (hlimited : fmt.Limited)
include hlimited

theorem canonicalRowBounded_ok {schema : Schema Ty} {row : Row Value}
    (h : fmt.Writable schema row) {other : Nat}
    (hother : (fmt.canonicalRow schema row).length ≤ other) :
    fmt.canonicalRowBounded schema row other = .ok (fmt.canonicalRow schema row) := by
  induction schema generalizing row other with
  | nil =>
    cases row with
    | nil => rfl
    | cons value values => exact absurd h.shape (by simp)
  | cons field fields ih =>
    cases row with
    | nil => exact absurd h.shape (by simp)
    | cons value values =>
      obtain ⟨⟨limit, hvalue⟩, hrest⟩ := h.cons
      rw [canonicalRow, List.length_append] at hother
      rw [canonicalRowBounded, hlimited.encode_ok _ _ _ _ hvalue other (by omega)]
      dsimp only
      rw [ih hrest (by omega)]
      rfl

theorem canonicalRowSizeBounded_spec {schema : Schema Ty} {row : Row Value}
    (h : fmt.Writable schema row) (other : Nat) :
    Fails IsLimit (fmt.canonicalRowSizeBounded schema row other) ∧
      ∀ size, fmt.canonicalRowSizeBounded schema row other = .ok size →
        size = (fmt.canonicalRow schema row).length := by
  induction schema generalizing row other with
  | nil =>
    cases row with
    | nil =>
      refine ⟨fun e he => (by cases he), fun size hsize => ?_⟩
      cases hsize
      rfl
    | cons value values => exact absurd h.shape (by simp)
  | cons field fields ih =>
    cases row with
    | nil => exact absurd h.shape (by simp)
    | cons value values =>
      obtain ⟨⟨limit, hvalue⟩, hrest⟩ := h.cons
      rw [canonicalRowSizeBounded]
      cases hsize : fmt.size field value other with
      | error e =>
        refine ⟨fun e' he => ?_, fun size hok => (by cases hok)⟩
        cases he
        exact hlimited.size_fails _ _ _ _ hvalue other _ hsize
      | ok size =>
        obtain rfl := hlimited.size_ok _ _ _ _ hvalue other _ hsize
        obtain ⟨hfails, hok⟩ := ih hrest (other - (fmt.canonical field.dataType value).length)
        refine ⟨hfails.map, fun total htotal => ?_⟩
        obtain ⟨rest, hrest', rfl⟩ := map_eq_ok.mp htotal
        rw [hok rest hrest', canonicalRow, List.length_append]

theorem decodedSize_fails {schema : Schema Ty} {row : Row Value} (h : fmt.Writable schema row)
    (other : Nat) : Fails IsLimit (fmt.decodedSize schema (fmt.canonicalRow schema row) other) := by
  induction schema generalizing row other with
  | nil =>
    cases row with
    | nil => exact fun e he => by cases he
    | cons value values => exact absurd h.shape (by simp)
  | cons field fields ih =>
    cases row with
    | nil => exact absurd h.shape (by simp)
    | cons value values =>
      obtain ⟨⟨limit, hvalue⟩, hrest⟩ := h.cons
      rw [canonicalRow, decodedSize]
      cases hcheck : fmt.check field (fmt.canonical field.dataType value ++
        fmt.canonicalRow fields values) other with
      | error e =>
        intro e' he
        cases he
        exact hlimited.check_fails _ _ _ _ hvalue _ other _ hcheck
      | ok checked =>
        obtain ⟨size, rest⟩ := checked
        obtain rfl : rest = fmt.canonicalRow fields values :=
          hlimited.check_ok _ _ _ _ hvalue _ other _ hcheck
        exact (ih hrest (other - size)).map

end Rows

end RowFormat

/-! ## The byte format -/

/-- A completed encoding of the byte format is its canonical one. -/
theorem byteFormat_canonical {field : Field Unit} {value : Option UInt8} {limit : Nat}
    {bytes : Bytes} (h : byteFormat.encode field value limit = (bytes, .ok ())) :
    bytes = byteFormat.canonical () value :=
  byteFormat.encode_canonical _ _ _ _ h

theorem byteFormat_limited : byteFormat.Limited where
  encode_ok field value limit bytes h other hother := by
    obtain rfl := byteFormat_canonical h
    cases value <;> exact if_pos hother
  encode_fails field value limit bytes _ other e he := by
    cases value with
    | none =>
      dsimp only [byteFormat] at he
      split at he <;> cases he
      exact ⟨other, rfl⟩
    | some b =>
      dsimp only [byteFormat] at he
      split at he <;> cases he
      exact ⟨other, rfl⟩
  size_ok field value limit bytes h other size hsize := by
    obtain rfl := byteFormat_canonical h
    cases value <;> cases hsize <;> rfl
  size_fails _ _ _ _ _ _ e he := by cases he
  check_ok field value limit bytes h rest other checked hchecked := by
    obtain rfl := byteFormat_canonical h
    cases value <;> cases hchecked <;> rfl
  check_fails field value limit bytes h rest other e he := by
    obtain rfl := byteFormat_canonical h
    cases value <;> cases he

end Dogpaddle.Relation
