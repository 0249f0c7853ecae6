import Dogpaddle.Operation.Compute

/-!
# Canonical rows and columnar output

Exact row identity shared by the stateful operators, and the output buffer of
the joins.

Rows are lists of column values. How one value of an Arrow type is turned into
canonical bytes and back is a parameter: `RowFormat` carries the functions of one
value and the two facts about them that row identity rests on. Rows, their
framing and the output buffer are built on top of it.
-/

namespace Dogpaddle.Relation

open Lib

/-- A canonical row failure; only the size limit is told apart by its callers. -/
inductive RowError
  | sizeLimit (maxBytes : Nat)
  | trailingBytes
  | invalidValue (reason : String)
deriving DecidableEq, Repr

/-- The type and nullability of a column. -/
structure Field (Ty : Type) where
  dataType : Ty
  nullable : Bool

abbrev Schema (Ty : Type) := List (Field Ty)

abbrev Row (Value : Type) := List Value

/-- The canonical format of single values.

* `encode` appends a value under a byte limit: the bytes it appended and whether
  it completed;
* `size` is the size of a value, `decode` reads a value and returns the rest;
* `check` validates an encoded value and adds up its decoded size under a limit;
* `shape` is the decoded size of a number of empty slots of a type, and
  `arrayBytes` the logical size of a column. -/
structure RowFormat (Ty Value : Type) where
  null : Value
  canonical : Ty → Value → Bytes
  encode : Field Ty → Value → Nat → Bytes × Except RowError Unit
  size : Field Ty → Value → Nat → Except RowError Nat
  check : Field Ty → Bytes → Nat → Except RowError (Nat × Bytes)
  decode : Ty → Bytes → Except RowError (Value × Bytes)
  shape : Ty → Nat → Nat
  arrayBytes : Ty → List Value → Nat
  /-- A completed encoding does not depend on the limit. -/
  encode_canonical : ∀ field value limit bytes, encode field value limit = (bytes, .ok ()) →
    bytes = canonical field.dataType value
  /-- A completed encoding decodes to its value, whatever follows it. -/
  decode_encode : ∀ field value limit bytes, encode field value limit = (bytes, .ok ()) →
    ∀ rest, decode field.dataType (bytes ++ rest) = .ok (value, rest)

variable {Ty Value : Type}

namespace RowFormat

variable (fmt : RowFormat Ty Value)

/-- The canonical bytes of a row under a byte limit. -/
def canonicalRowBounded : Schema Ty → Row Value → Nat → Except RowError Bytes
  | [], [], _ => .ok []
  | field :: fields, value :: values, maxBytes =>
    match fmt.encode field value maxBytes with
    | (_, .error e) => .error e
    | (bytes, .ok ()) =>
      (canonicalRowBounded fields values (maxBytes - bytes.length)).map (bytes ++ ·)
  | _, _, _ => .error (.invalidValue "row width")

/-- The canonical size of a row under a byte limit. -/
def canonicalRowSizeBounded : Schema Ty → Row Value → Nat → Except RowError Nat
  | [], [], _ => .ok 0
  | field :: fields, value :: values, maxBytes =>
    match fmt.size field value maxBytes with
    | .error e => .error e
    | .ok size => (canonicalRowSizeBounded fields values (maxBytes - size)).map (size + ·)
  | _, _, _ => .error (.invalidValue "row width")

/-- The canonical bytes of a row. -/
def canonicalRow : Schema Ty → Row Value → Bytes
  | field :: fields, value :: values =>
    fmt.canonical field.dataType value ++ canonicalRow fields values
  | _, _ => []

/-- Reads one value per field. -/
def decodeRow : Schema Ty → Bytes → Except RowError (Row Value)
  | [], [] => .ok []
  | [], _ :: _ => .error .trailingBytes
  | field :: fields, encoded =>
    match fmt.decode field.dataType encoded with
    | .error e => .error e
    | .ok (value, rest) => (decodeRow fields rest).map (value :: ·)

/-- The decoded size of an encoded row under a byte limit. -/
def decodedSize : Schema Ty → Bytes → Nat → Except RowError Nat
  | [], [], _ => .ok 0
  | [], _ :: _, _ => .error .trailingBytes
  | field :: fields, encoded, maxBytes =>
    match fmt.check field encoded maxBytes with
    | .error e => .error e
    | .ok (size, rest) => (decodedSize fields rest (maxBytes - size)).map (size + ·)

/-- A completed row encoding is the canonical one and decodes to the row. -/
theorem canonicalRowBounded_eq_ok {schema : Schema Ty} {row : Row Value} {maxBytes : Nat}
    {bytes : Bytes} (h : fmt.canonicalRowBounded schema row maxBytes = .ok bytes) :
    bytes = fmt.canonicalRow schema row ∧ fmt.decodeRow schema bytes = .ok row := by
  induction schema generalizing row maxBytes bytes with
  | nil =>
    cases row with
    | nil => cases h; exact ⟨rfl, rfl⟩
    | cons _ _ => cases h
  | cons field fields ih =>
    cases row with
    | nil => cases h
    | cons value values =>
      simp only [canonicalRowBounded] at h
      cases hvalue : fmt.encode field value maxBytes with
      | mk b result =>
        rw [hvalue] at h
        cases result with
        | error e => cases h
        | ok u =>
          cases hrest : fmt.canonicalRowBounded fields values (maxBytes - b.length) with
          | error e => simp [hrest, Except.map] at h
          | ok rest =>
            simp only [hrest, Except.map, Except.ok.injEq] at h
            subst h
            obtain ⟨hcanonical, hdecode⟩ := ih hrest
            refine ⟨?_, ?_⟩
            · rw [fmt.encode_canonical _ _ _ _ hvalue, hcanonical]
              rfl
            · simp only [decodeRow, fmt.decode_encode _ _ _ _ hvalue, hdecode, Except.map]

/-- A row whose encoding completes under some limit. -/
def Writable (schema : Schema Ty) (row : Row Value) : Prop :=
  ∃ limit, fmt.canonicalRowBounded schema row limit = .ok (fmt.canonicalRow schema row)

variable {fmt} in
theorem Writable.decodes {schema : Schema Ty} {row : Row Value} (h : fmt.Writable schema row) :
    fmt.decodeRow schema (fmt.canonicalRow schema row) = .ok row := by
  obtain ⟨limit, hlimit⟩ := h
  exact (fmt.canonicalRowBounded_eq_ok hlimit).2

variable {fmt} in
theorem writable_of_ok {schema : Schema Ty} {row : Row Value} {maxBytes : Nat} {bytes : Bytes}
    (h : fmt.canonicalRowBounded schema row maxBytes = .ok bytes) :
    bytes = fmt.canonicalRow schema row ∧ fmt.Writable schema row := by
  obtain ⟨hbytes, -⟩ := fmt.canonicalRowBounded_eq_ok h
  exact ⟨hbytes, maxBytes, by rw [h, hbytes]⟩

/-- The row that stands for an absent fragment. -/
def nullRow (schema : Schema Ty) : Row Value := List.replicate schema.length fmt.null

/-- The columns of one fragment; an absent one has `NULL` in every column. -/
def decodeFragment (schema : Schema Ty) : Option Bytes → Except RowError (Row Value)
  | none => .ok (fmt.nullRow schema)
  | some encoded => fmt.decodeRow schema encoded

/-- One output row from a fragment per schema. -/
def appendRow : List (Schema Ty) → List (Option Bytes) → Except RowError (Row Value)
  | schema :: schemas, fragment :: fragments =>
    match fmt.decodeFragment schema fragment with
    | .error e => .error e
    | .ok columns => (appendRow schemas fragments).map (columns ++ ·)
  | _, _ => .ok []

end RowFormat

/-! ## Columnar output -/

/-- Errors that can carry a row failure. -/
class RowFailure (ε : Type) extends BudgetError ε where
  ofRow : RowError → ε

/-- Step-local columnar output. -/
structure ArrowOutput (Value : Type) where
  rows : List (Row Value × Int)

def ArrowOutput.empty : ArrowOutput Value := ⟨[]⟩

/-- A row of fragments, one for each port, with its difference. -/
abbrev Item := List (Option Bytes) × Int

section Extend

variable {ε S : Type} [RowFailure ε] (fmt : RowFormat Ty Value)

/-- A size limit hit while admitting is an exhausted allowance. -/
def decodeError (e : RowError) : ε :=
  match e with
  | .sizeLimit _ => budgetExceeded
  | e => RowFailure.ofRow e

def admitBatchShape (schema : Schema Ty) : Attempt ε S Unit := do
  StepBudget.charge (schema.length * 32)
  schema.forM fun field => StepBudget.charge (fmt.shape field.dataType 0)

def admitRow (schema : Schema Ty) (encoded : Bytes) : Attempt ε S Unit := do
  let limit := (← get).budget.remainingBytes
  let size ← MonadExcept.ofExcept ((fmt.decodedSize schema encoded limit).mapError decodeError)
  StepBudget.charge size

def admitFragment (schema : Schema Ty) (fragment : Option Bytes) : Attempt ε S Unit :=
  match fragment with
  | some encoded => admitRow fmt schema encoded
  | none => schema.forM fun field => StepBudget.charge (fmt.shape field.dataType 1)

/-- Admits a complete page before any of its values is appended. -/
def admitItems (schemas : List (Schema Ty)) (first : Bool) :
    List (Except ε Item) → Attempt ε S Unit
  | [] => pure ()
  | item :: items => do
    let (fragments, _) ← MonadExcept.ofExcept item
    if first then schemas.forM (admitBatchShape fmt)
    (schemas.zip fragments).forM fun f => admitFragment fmt f.1 f.2
    StepBudget.charge 8
    admitItems schemas false items

/-- Decodes the values of an admitted page. -/
def appendItems (schemas : List (Schema Ty)) :
    List (Except ε Item) → Except ε (List (Row Value × Int))
  | [] => .ok []
  | item :: items =>
    match item with
    | .error e => .error e
    | .ok (fragments, difference) =>
      match fmt.appendRow schemas fragments with
      | .error e => .error (RowFailure.ofRow e)
      | .ok row => (appendItems schemas items).map ((row, difference) :: ·)

/-- Appends a page of rows, admitted as a whole. -/
def ArrowOutput.extend (schemas : List (Schema Ty)) (items : List (Except ε Item))
    (output : ArrowOutput Value) : Attempt ε S (ArrowOutput Value) := do
  admitItems fmt schemas output.rows.isEmpty items
  let rows ← MonadExcept.ofExcept (appendItems fmt schemas items)
  pure ⟨output.rows ++ rows⟩

omit [RowFailure ε] in
/-- The finished change, absent without rows; `invalid` reports rows that do not
form a change. -/
def ArrowOutput.finish (columns : Nat) (invalid : ε) (output : ArrowOutput Value) :
    Except ε (Option (Change (Row Value))) :=
  if output.rows = [] then .ok none
  else match Change.tryNew columns output.rows with
    | none => .error invalid
    | some change => .ok (some change)

omit [RowFailure ε] in
/-- A finished change holds the rows. -/
theorem ArrowOutput.finish_eq_ok {columns : Nat} {output : ArrowOutput Value} {invalid : ε}
    {change : Option (Change (Row Value))} (h : output.finish columns invalid = .ok change) :
    change.elim [] (·.events) = output.rows := by
  unfold ArrowOutput.finish at h
  split at h
  · next hnil =>
    cases h
    exact hnil.symm
  · cases hnew : Change.tryNew columns output.rows with
    | none => rw [hnew] at h; cases h
    | some c =>
      rw [hnew] at h
      cases h
      unfold Change.tryNew at hnew
      split at hnew
      · cases hnew
        rfl
      · cases hnew

/-! ### What a successful extension appends -/

/-- The rows an item list denotes. -/
def Appended (schemas : List (Schema Ty)) (item : Except ε Item) (row : Row Value × Int) : Prop :=
  ∃ fragments, item = .ok (fragments, row.2) ∧ fmt.appendRow schemas fragments = .ok row.1

omit [RowFailure ε] in
variable {fmt} in
/-- An item stands for one row. -/
theorem Appended.rightUnique {schemas : List (Schema Ty)} :
    Relator.RightUnique (Appended (ε := ε) fmt schemas) := by
  rintro item row row' ⟨fragments, rfl, hrow⟩ ⟨fragments', hitem, hrow'⟩
  obtain ⟨rfl, hdifference⟩ := Prod.mk.inj (Except.ok.inj hitem)
  rw [hrow] at hrow'
  exact Prod.ext (Except.ok.inj hrow') hdifference

theorem appendItems_eq_ok {schemas : List (Schema Ty)} {items : List (Except ε Item)}
    {rows : List (Row Value × Int)} (h : appendItems fmt schemas items = .ok rows) :
    List.Forall₂ (Appended fmt schemas) items rows := by
  induction items generalizing rows with
  | nil => cases h; exact .nil
  | cons item items ih =>
    cases item with
    | error e => cases h
    | ok item =>
      obtain ⟨fragments, difference⟩ := item
      simp only [appendItems] at h
      cases hrow : fmt.appendRow schemas fragments with
      | error e => rw [hrow] at h; cases h
      | ok row =>
        rw [hrow] at h
        cases hrest : appendItems fmt schemas items with
        | error e => simp [hrest, Except.map] at h
        | ok rest =>
          simp only [hrest, Except.map, Except.ok.injEq] at h
          subst h
          exact .cons ⟨fragments, rfl, hrow⟩ (ih hrest)

omit [RowFailure ε] in
/-- Charging in a loop never touches the state. -/
theorem forM_state {α : Type} {f : α → Attempt ε S Unit}
    (hf : ∀ a (s s' : Scope S) u, f a s = .ok u s' → s'.state = s.state) {l : List α}
    {s s' : Scope S} {u : Unit} (h : l.forM f s = .ok u s') : s'.state = s.state := by
  induction l generalizing s with
  | nil =>
    obtain ⟨-, rfl⟩ := pure_eq_ok.mp h
    rfl
  | cons a l ih =>
    obtain ⟨_, t, ht, h⟩ := bind_eq_ok.mp h
    rw [ih h, hf _ _ _ _ ht]

theorem admitBatchShape_state {schema : Schema Ty} {s s' : Scope S} {u : Unit}
    (h : (admitBatchShape fmt schema : Attempt ε S Unit) s = .ok u s') : s'.state = s.state := by
  obtain ⟨_, t, ht, h⟩ := bind_eq_ok.mp h
  rw [forM_state (fun _ _ _ _ h => (StepBudget.charge_eq_ok h).1) h,
    (StepBudget.charge_eq_ok ht).1]

theorem admitRow_state {schema : Schema Ty} {encoded : Bytes} {s s' : Scope S} {u : Unit}
    (h : (admitRow fmt schema encoded : Attempt ε S Unit) s = .ok u s') : s'.state = s.state := by
  obtain ⟨_, t, ht, h⟩ := bind_eq_ok.mp h
  obtain ⟨rfl, rfl⟩ := get_eq_ok.mp ht
  obtain ⟨size, t, ht, h⟩ := bind_eq_ok.mp h
  obtain ⟨-, rfl⟩ := ofExcept_eq_ok.mp ht
  exact (StepBudget.charge_eq_ok h).1

theorem admitFragment_state {schema : Schema Ty} {fragment : Option Bytes} {s s' : Scope S}
    {u : Unit} (h : (admitFragment fmt schema fragment : Attempt ε S Unit) s = .ok u s') :
    s'.state = s.state := by
  cases fragment with
  | none => exact forM_state (fun _ _ _ _ h => (StepBudget.charge_eq_ok h).1) h
  | some encoded => exact admitRow_state fmt h

theorem admitItems_state {schemas : List (Schema Ty)} {items : List (Except ε Item)}
    {first : Bool} {s s' : Scope S} {u : Unit}
    (h : (admitItems fmt schemas first items : Attempt ε S Unit) s = .ok u s') :
    s'.state = s.state := by
  induction items generalizing first s with
  | nil =>
    obtain ⟨-, rfl⟩ := pure_eq_ok.mp h
    rfl
  | cons item items ih =>
    obtain ⟨⟨fragments, difference⟩, t, ht, h⟩ := bind_eq_ok.mp h
    obtain ⟨-, rfl⟩ := ofExcept_eq_ok.mp ht
    have hrest : ∀ {t : Scope S}, ((do
        (schemas.zip fragments).forM fun f => admitFragment fmt f.1 f.2
        StepBudget.charge 8
        admitItems fmt schemas false items) : Attempt ε S Unit) t = .ok u s' →
        s'.state = t.state := by
      intro t h
      obtain ⟨_, t₁, ht₁, h⟩ := bind_eq_ok.mp h
      obtain ⟨_, t₂, ht₂, h⟩ := bind_eq_ok.mp h
      rw [ih h, (StepBudget.charge_eq_ok ht₂).1,
        forM_state (fun _ _ _ _ h => admitFragment_state fmt h) ht₁]
    cases first with
    | false => exact hrest h
    | true =>
      obtain ⟨_, t₁, ht₁, h⟩ := bind_eq_ok.mp h
      rw [hrest h, forM_state (fun _ _ _ _ h => admitBatchShape_state fmt h) ht₁]

/-- A successful extension appends the rows of all its items, in order. -/
theorem ArrowOutput.extend_eq_ok {schemas : List (Schema Ty)} {items : List (Except ε Item)}
    {output output' : ArrowOutput Value} {s s' : Scope S}
    (h : output.extend fmt schemas items s = .ok output' s') :
    s'.state = s.state ∧ ∃ rows, output'.rows = output.rows ++ rows ∧
      List.Forall₂ (Appended fmt schemas) items rows := by
  obtain ⟨_, t, ht, h⟩ := bind_eq_ok.mp h
  obtain ⟨rows, t', ht', h⟩ := bind_eq_ok.mp h
  obtain ⟨hrows, rfl⟩ := ofExcept_eq_ok.mp ht'
  obtain ⟨rfl, rfl⟩ := pure_eq_ok.mp h
  exact ⟨admitItems_state fmt ht, rows, rfl, appendItems_eq_ok fmt hrows⟩

/-! ### How an extension can fail -/

section Raises

variable {P : ε → Prop} (hbudget : P budgetExceeded) (hrow : ∀ e : RowError, P (RowFailure.ofRow e))
include hbudget hrow

theorem decodeError_raises (e : RowError) : P (decodeError e) := by
  unfold decodeError
  split
  · exact hbudget
  · exact hrow _

omit hrow in
theorem raises_admitBatchShape (schema : Schema Ty) (s : Scope S) :
    Raises P (admitBatchShape fmt schema : Attempt ε S Unit) s :=
  .bind (StepBudget.raises_charge hbudget _ _) fun _ _ _ =>
    .forM (fun _ _ => StepBudget.raises_charge hbudget _ _) _

theorem raises_admitRow (schema : Schema Ty) (encoded : Bytes) (s : Scope S) :
    Raises P (admitRow fmt schema encoded : Attempt ε S Unit) s :=
  .get <| .bind (.ofExcept (.mapError (decodeError_raises hbudget hrow))) fun _ _ _ =>
    StepBudget.raises_charge hbudget _ _

theorem raises_admitFragment (schema : Schema Ty) (fragment : Option Bytes) (s : Scope S) :
    Raises P (admitFragment fmt schema fragment : Attempt ε S Unit) s := by
  cases fragment with
  | none => exact .forM (fun _ _ => StepBudget.raises_charge hbudget _ _) _
  | some encoded => exact raises_admitRow fmt hbudget hrow schema encoded s

theorem raises_admitItems (schemas : List (Schema Ty)) {items : List (Except ε Item)}
    (hitems : ∀ item ∈ items, Fails P item) (first : Bool) (s : Scope S) :
    Raises P (admitItems fmt schemas first items : Attempt ε S Unit) s := by
  induction items generalizing first s with
  | nil => exact .pure _
  | cons item items ih =>
    refine .bind (.ofExcept (hitems item (by simp))) fun fragments t _ => ?_
    have hrest : ∀ t, Raises P (do
        (schemas.zip fragments.1).forM fun f => admitFragment fmt f.1 f.2
        StepBudget.charge 8
        admitItems fmt schemas false items : Attempt ε S Unit) t := by
      intro t
      refine .bind (.forM (fun f t => raises_admitFragment fmt hbudget hrow _ _ t) _)
        fun _ _ _ => .bind (StepBudget.raises_charge hbudget _ _) fun _ _ _ => ?_
      exact ih (fun item hitem => hitems item (by simp [hitem])) _ _
    cases first with
    | false => exact hrest t
    | true =>
      exact .bind (.forM (fun schema t => raises_admitBatchShape fmt hbudget schema t) _)
        fun _ _ _ => hrest _

omit hbudget in
theorem fails_appendItems (schemas : List (Schema Ty)) {items : List (Except ε Item)}
    (hitems : ∀ item ∈ items, Fails P item) : Fails P (appendItems fmt schemas items) := by
  induction items with
  | nil => exact fun _ h => by cases h
  | cons item items ih =>
    cases item with
    | error e =>
      intro e' h
      cases h
      exact hitems (.error e) (by simp) e rfl
    | ok item =>
      simp only [appendItems]
      cases fmt.appendRow schemas item.1 with
      | error e =>
        intro e' h
        cases h
        exact hrow e
      | ok row => exact .map (ih fun item hitem => hitems item (by simp [hitem]))

/-- An extension fails with an error of its items, of a row, or of the allowance. -/
theorem ArrowOutput.raises_extend (schemas : List (Schema Ty)) {items : List (Except ε Item)}
    (hitems : ∀ item ∈ items, Fails P item) (output : ArrowOutput Value) (s : Scope S) :
    Raises P (output.extend fmt schemas items) s :=
  .bind (raises_admitItems fmt hbudget hrow schemas hitems _ _) fun _ _ _ =>
    .bind (.ofExcept (fails_appendItems fmt hrow schemas hitems)) fun _ _ _ => .pure _

end Raises

end Extend

/-! ## A format of nullable bytes -/

/-- The canonical format of a single nullable byte: a marker, then the value. -/
def byteFormat : RowFormat Unit (Option UInt8) where
  null := none
  canonical _ value := match value with
    | none => [0]
    | some b => [1, b]
  encode _ value limit :=
    let bytes : Bytes := match value with
      | none => [0]
      | some b => [1, b]
    if bytes.length ≤ limit then (bytes, .ok ()) else ([], .error (.sizeLimit limit))
  size _ value _ := .ok (if value = none then 1 else 2)
  check _ encoded _ := match encoded with
    | 0 :: rest => .ok (1, rest)
    | 1 :: _ :: rest => .ok (2, rest)
    | _ => .error (.invalidValue "marker")
  decode _ encoded := match encoded with
    | 0 :: rest => .ok (none, rest)
    | 1 :: b :: rest => .ok (some b, rest)
    | _ => .error (.invalidValue "marker")
  shape _ slots := slots
  arrayBytes _ column := 2 * column.length
  encode_canonical field value limit bytes h := by
    cases value with
    | none =>
      dsimp only at h
      split at h
      · exact (Prod.mk.inj h).1.symm
      · cases (Prod.mk.inj h).2
    | some b =>
      dsimp only at h
      split at h
      · exact (Prod.mk.inj h).1.symm
      · cases (Prod.mk.inj h).2
  decode_encode field value limit bytes h rest := by
    cases value with
    | none =>
      dsimp only at h
      split at h
      · rw [← (Prod.mk.inj h).1]
        rfl
      · cases (Prod.mk.inj h).2
    | some b =>
      dsimp only at h
      split at h
      · rw [← (Prod.mk.inj h).1]
        rfl
      · cases (Prod.mk.inj h).2

end Dogpaddle.Relation
