import Dogpaddle.Codec.Arrays

/-!
# The length of a body, before it is written

`bodyLenBounded` adds up the padded buffers of a change, array by array, and gives up at a
limit. It follows slices by itself: the child of a list is cut to what the offsets reach.

* `charge` adds up a list of lengths at once.
* `visit_slice`: visiting a window charges its canonical lengths, whatever stands around it.
-/

namespace Dogpaddle.Codec

open Lib Canonical

/-! ## The budget -/

structure BodyBudget where
  bytes : Nat
  maxBytes : Nat
deriving DecidableEq, Repr

/-- `value.ok_or_else(|| CodecError::size_limit(max_bytes))`. -/
def orSizeLimit {α : Type} (maxBytes : Nat) : Option α → Except CodecError α
  | some a => .ok a
  | none => .error (.encodedSizeLimitExceeded maxBytes)

@[simp] theorem orSizeLimit_eq_ok {α : Type} {maxBytes : Nat} {value : Option α} {a : α} :
    orSizeLimit maxBytes value = .ok a ↔ value = some a := by
  cases value <;> simp [orSizeLimit]

/-- Padding is `(bytes + 7) & !7`. -/
def BodyBudget.buffer (budget : BodyBudget) (bytes : Nat) : Except CodecError BodyBudget := do
  let padded ← orSizeLimit budget.maxBytes ((checkedAdd bytes 7).map (· / 8 * 8))
  let total ← orSizeLimit budget.maxBytes
    ((checkedAdd budget.bytes padded).filter (· ≤ budget.maxBytes))
  pure { budget with bytes := total }

def bitmapBytes (elements maxBytes : Nat) : Except CodecError Nat :=
  orSizeLimit maxBytes ((checkedAdd elements 7).map (· / 8))

def product (left right maxBytes : Nat) : Except CodecError Nat :=
  orSizeLimit maxBytes ((checkedMul left right).filter (· ≤ maxBytes))

def offsetBytes (elements maxBytes : Nat) : Except CodecError Nat := do
  let count ← orSizeLimit maxBytes (checkedAdd elements 1)
  product count 4 maxBytes

/-- A 32-bit offset as a word. -/
def offsetWord (offset : Option Int) : Except CodecError Nat := do
  let offset ← okOr "Arrow offsets are truncated" offset
  if offset < 0 then .error (.invalidEncoding "Arrow offset is negative") else .ok offset.toNat

def offsetSpan (data : ArrayData) (maxBytes : Nat) : Except CodecError (Nat × Nat) :=
  if data.len = 0 then .ok (0, 0)
  else do
    let offsets ← okOr "variable-width Arrow array has no offsets" data.offsets
    let endIndex ← orSizeLimit maxBytes (checkedAdd data.offset data.len)
    let start ← offsetWord offsets[data.offset]?
    let stop ← offsetWord offsets[endIndex]?
    if stop < start then .error (.invalidEncoding "Arrow offsets are not monotonic")
    else .ok (start, stop - start)

/-! ## The visit -/

namespace ArrayData

mutual

/-- The number of arrays; a slice has as many. -/
def size : ArrayData → Nat
  | mk _ _ _ _ _ _ childData => sizeAll childData + 1

def sizeAll : List ArrayData → Nat
  | [] => 0
  | child :: children => child.size + sizeAll children + 1

end

mutual

theorem size_slice : (data : ArrayData) → (start length : Nat) →
    (data.slice start length).size = data.size
  | mk dataType _ _ _ _ _ childData, start, length => by
    cases dataType with
    | struct fields =>
      rw [slice, size, size]
      exact congrArg (· + 1) (sizeAll_sliceAll childData start length)
    | _ =>
      simp only [slice]
      rw [size, size]

theorem sizeAll_sliceAll : (children : List ArrayData) → (start length : Nat) →
    sizeAll (sliceAll children start length) = sizeAll children
  | [], _, _ => rfl
  | child :: children, start, length => by
    rw [sliceAll, sizeAll, sizeAll, size_slice child, sizeAll_sliceAll children]

end

theorem size_eq (data : ArrayData) : data.size = sizeAll data.childData + 1 := by
  cases data
  rw [size]
  rfl

end ArrayData

/-- The buffers of an array itself; every array but a Null one has a validity bitmap, which the
writer makes up where there is none. -/
def BodyBudget.own (budget : BodyBudget) (data : ArrayData) : Except CodecError BodyBudget :=
  match DataTypeLayout.classify data.dataType with
  | .null => .ok budget
  | .bitmap => do
    let budget ← budget.buffer (← bitmapBytes data.len budget.maxBytes)
    budget.buffer (← bitmapBytes data.len budget.maxBytes)
  | .fixedWidth width => do
    let budget ← budget.buffer (← bitmapBytes data.len budget.maxBytes)
    budget.buffer (← product data.len width budget.maxBytes)
  | .variableWidth => do
    let budget ← budget.buffer (← bitmapBytes data.len budget.maxBytes)
    let budget ← budget.buffer (← offsetBytes data.len budget.maxBytes)
    budget.buffer (← offsetSpan data budget.maxBytes).2
  | .list => do
    let budget ← budget.buffer (← bitmapBytes data.len budget.maxBytes)
    budget.buffer (← offsetBytes data.len budget.maxBytes)
  | .struct => do
    budget.buffer (← bitmapBytes data.len budget.maxBytes)

mutual

def visit (data : ArrayData) (budget : BodyBudget) : Except CodecError BodyBudget := do
  let budget ← budget.own data
  match DataTypeLayout.classify data.dataType with
  | .list => do
    let (start, length) ← offsetSpan data budget.maxBytes
    match _hchild : data.childData with
    | [] => .error (.invalidEncoding "Arrow List has no child data")
    | child :: _ => visit (child.slice start length) budget
  | .struct => visitAll data.childData budget
  | _ => pure budget
termination_by data.size
decreasing_by
  · rw [ArrayData.size_slice, ArrayData.size_eq data, _hchild, ArrayData.sizeAll]
    omega
  · rw [ArrayData.size_eq data]
    omega

def visitAll (children : List ArrayData) (budget : BodyBudget) : Except CodecError BodyBudget :=
  match children with
  | [] => .ok budget
  | child :: children => do
    let budget ← visit child budget
    visitAll children budget
termination_by ArrayData.sizeAll children
decreasing_by
  · rw [ArrayData.sizeAll]
    omega
  · rw [ArrayData.sizeAll]
    omega

end

/-! ## Charging a list of lengths -/

/-- What padded buffers of the given lengths add to a budget. -/
def charge (budget : BodyBudget) (lengths : List Nat) : Except CodecError BodyBudget :=
  let total := budget.bytes + (lengths.map (alignUp alignment)).sum
  if total ≤ budget.maxBytes then .ok { budget with bytes := total }
  else .error (.encodedSizeLimitExceeded budget.maxBytes)

variable {b : BodyBudget}

theorem charge_nil (h : b.bytes ≤ b.maxBytes) : charge b [] = .ok b := by
  unfold charge
  exact if_pos h

theorem charge_append (l₁ l₂ : List Nat) :
    charge b (l₁ ++ l₂) = charge b l₁ >>= fun b' => charge b' l₂ := by
  unfold charge
  dsimp only
  rw [List.map_append, List.sum_append]
  by_cases h : b.bytes + (l₁.map (alignUp alignment)).sum ≤ b.maxBytes
  · rw [if_pos h]
    show _ = charge { b with bytes := b.bytes + (l₁.map (alignUp alignment)).sum } l₂
    unfold charge
    dsimp only
    rw [Nat.add_assoc]
  · rw [if_neg h, if_neg (by omega)]
    rfl

theorem charge_eq_ok {lengths : List Nat} {b' : BodyBudget} :
    charge b lengths = .ok b' ↔
      b'.bytes = b.bytes + (lengths.map (alignUp alignment)).sum ∧ b'.maxBytes = b.maxBytes ∧
        b'.bytes ≤ b'.maxBytes := by
  obtain ⟨bytes', maxBytes'⟩ := b'
  unfold charge
  dsimp only
  split
  · next h =>
    rw [Except.ok.injEq, BodyBudget.mk.injEq]
    constructor
    · rintro ⟨rfl, rfl⟩
      exact ⟨rfl, rfl, h⟩
    · rintro ⟨rfl, rfl, -⟩
      exact ⟨rfl, rfl⟩
  · next h =>
    constructor
    · intro hok
      cases hok
    · rintro ⟨rfl, rfl, hle⟩
      exact absurd hle h

/-- A buffer is charged with its padding; what overflows is more than any limit. -/
theorem buffer_eq_charge (hmax : b.maxBytes < usize) (n : Nat) : b.buffer n = charge b [n] := by
  have hsum : ([n].map (alignUp alignment)).sum = alignUp alignment n := Nat.add_zero _
  have hle := le_alignUp (show 0 < alignment by decide) n
  obtain ⟨k, hk⟩ := dvd_alignUp alignment n
  have hblocks : alignUp alignment n = 8 * k := hk
  unfold BodyBudget.buffer charge
  dsimp only
  rw [hsum]
  have husize : usize = 2 ^ 64 := rfl
  by_cases hpad : n + 7 < usize
  · rw [checkedAdd, if_pos hpad]
    show (orSizeLimit b.maxBytes ((checkedAdd b.bytes (alignUp alignment n)).filter
      (fun total => decide (total ≤ b.maxBytes))) >>= fun total => _) = _
    unfold checkedAdd
    by_cases htotal : b.bytes + alignUp alignment n ≤ b.maxBytes
    · rw [if_pos htotal, if_pos (by omega), Option.filter_some_pos (by simpa using htotal)]
      rfl
    · rw [if_neg htotal]
      split
      · rw [Option.filter_some_neg (by simpa using htotal)]
        rfl
      · rfl
  · rw [checkedAdd, if_neg hpad, if_neg (by omega)]
    rfl

theorem bitmap_eq_charge (hmax : b.maxBytes < usize) {length : Nat} (hlength : length < 2 ^ 63) :
    (bitmapBytes length b.maxBytes >>= fun n => b.buffer n) = charge b [(length + 7) / 8] := by
  have husize : length + 7 < usize := by
    unfold usize
    omega
  unfold bitmapBytes
  rw [checkedAdd, if_pos husize]
  exact buffer_eq_charge hmax _

theorem product_eq_charge (hmax : b.maxBytes < usize) (m n : Nat) :
    (product m n b.maxBytes >>= fun n => b.buffer n) = charge b [m * n] := by
  have hle := le_alignUp (show 0 < alignment by decide) (m * n)
  unfold product checkedMul
  by_cases h : m * n ≤ b.maxBytes
  · rw [if_pos (by omega), Option.filter_some_pos (by simpa using h)]
    exact buffer_eq_charge hmax _
  · have hcharge : charge b [m * n] = .error (.encodedSizeLimitExceeded b.maxBytes) := by
      unfold charge
      exact if_neg (by simp only [List.map_cons, List.map_nil, List.sum_cons]; omega)
    rw [hcharge]
    split
    · rw [Option.filter_some_neg (by simpa using h)]
      rfl
    · rfl

theorem offset_eq_charge (hmax : b.maxBytes < usize) {length : Nat} (hlength : length < 2 ^ 63) :
    (offsetBytes length b.maxBytes >>= fun n => b.buffer n) = charge b [(length + 1) * 4] := by
  have husize : length + 1 < usize := by
    unfold usize
    omega
  unfold offsetBytes
  rw [checkedAdd, if_pos husize]
  exact product_eq_charge hmax _ _

/-! ## A visit charges the canonical lengths -/

variable {data : ArrayData} {start length : Nat}

theorem slice_eq (data : ArrayData) (start length : Nat) :
    (data.slice start length).dataType = data.dataType ∧
      (data.slice start length).len = length ∧
      (data.slice start length).offset = data.offset + start ∧
      (data.slice start length).offsets = data.offsets := by
  cases data
  simp only [ArrayData.slice]
  exact ⟨rfl, rfl, rfl, rfl⟩

theorem childData_slice (data : ArrayData) (start length : Nat) :
    (∀ fields, data.dataType = .struct fields →
      (data.slice start length).childData = ArrayData.sliceAll data.childData start length) ∧
    ((∀ fields, data.dataType ≠ .struct fields) →
      (data.slice start length).childData = data.childData) := by
  obtain ⟨dataType, len, offset, nulls, offsets, values, childData⟩ := data
  constructor
  · rintro fields hfields
    have htype : dataType = .struct fields := hfields
    subst htype
    rw [ArrayData.slice]
    rfl
  · intro hne
    cases dataType with
    | struct fields => exact absurd rfl (hne fields)
    | _ =>
      simp only [ArrayData.slice]
      rfl

/-- The offsets of a slice are those of its window. -/
theorem offsetSpan_slice {offsets : List Int} {limit maxBytes : Nat}
    (h : OffsetsValid data offsets limit) (hoffsets : data.offsets = some offsets)
    (hwindow : start + length ≤ data.len) :
    offsetSpan (data.slice start length) maxBytes = .ok (data.span start length) := by
  obtain ⟨-, hlen, hoffset, hsame⟩ := slice_eq data start length
  unfold offsetSpan
  rw [hlen, hoffset, hsame, hoffsets]
  by_cases hne : length = 0
  · rw [if_pos hne]
    unfold ArrayData.span
    simp [hne]
  · obtain ⟨first, stop, hfirst, hstop, hle, -, -, hspan⟩ := h.ends hoffsets hwindow hne
    have hend : checkedAdd (data.offset + start) length = some (data.offset + start + length) := by
      have hreach := h.window (by omega)
      have hbytes := h.length_lt
      unfold checkedAdd usize
      exact if_pos (by omega)
    have hword : ∀ n : Nat, offsetWord (some (n : Int)) = .ok n := by
      intro n
      show (if (n : Int) < 0 then
        Except.error (CodecError.invalidEncoding "Arrow offset is negative")
        else Except.ok (n : Int).toNat) = .ok n
      exact if_neg (by omega)
    rw [if_neg hne, hend, hspan]
    show (offsetWord offsets[data.offset + start]? >>= fun _ => _) = _
    rw [hfirst, hword]
    show (offsetWord offsets[data.offset + start + length]? >>= fun _ => _) = _
    rw [hstop, hword]
    show (if stop < first then _ else _) = _
    rw [if_neg (by omega)]

/-- A budget within its limit. -/
structure BodyBudget.Within (budget : BodyBudget) : Prop where
  bytes_le : budget.bytes ≤ budget.maxBytes
  max_lt : budget.maxBytes < usize

theorem BodyBudget.Within.charge (h : b.Within) {lengths : List Nat} {b' : BodyBudget}
    (hcharge : Codec.charge b lengths = .ok b') : b'.Within := by
  obtain ⟨-, hmax, hle⟩ := charge_eq_ok.mp hcharge
  exact ⟨hle, by rw [hmax]; exact h.max_lt⟩

theorem bind_charge (h : b.Within) {l₁ l₂ : List Nat}
    {f : BodyBudget → Except CodecError BodyBudget}
    (hf : ∀ b' : BodyBudget, b'.Within → f b' = charge b' l₂) :
    (charge b l₁ >>= f) = charge b (l₁ ++ l₂) := by
  rw [charge_append]
  cases hcharge : charge b l₁ with
  | error e => rfl
  | ok b' => exact hf b' (h.charge hcharge)

/-- An array's own buffers. -/
theorem own_slice (hb : b.Within) (hlength : length < 2 ^ 63)
    (hspan : DataTypeLayout.classify data.dataType = .variableWidth →
      ∀ maxBytes, offsetSpan (data.slice start length) maxBytes = .ok (data.span start length)) :
    b.own (data.slice start length) =
      charge b ((DataTypeLayout.classify data.dataType).lengths length
        (data.span start length).2) := by
  obtain ⟨htype, hlen, -, -⟩ := slice_eq data start length
  have hbitmap : ∀ f : BodyBudget → Except CodecError BodyBudget,
      (bitmapBytes length b.maxBytes >>= fun n => b.buffer n >>= f) =
        charge b [(length + 7) / 8] >>= f := by
    intro f
    rw [← bitmap_eq_charge hb.max_lt hlength, bind_assoc]
  unfold BodyBudget.own
  rw [htype, hlen]
  cases hlayout : DataTypeLayout.classify data.dataType with
  | null => exact (charge_nil hb.bytes_le).symm
  | bitmap =>
    refine (hbitmap _).trans (bind_charge hb fun b' hb' => ?_)
    exact bitmap_eq_charge hb'.max_lt hlength
  | fixedWidth width =>
    refine (hbitmap _).trans (bind_charge hb fun b' hb' => ?_)
    exact product_eq_charge hb'.max_lt length width
  | variableWidth =>
    refine (hbitmap _).trans (bind_charge hb fun b' hb' => ?_)
    have hoffsets : ∀ f : BodyBudget → Except CodecError BodyBudget,
        (offsetBytes length b'.maxBytes >>= fun n => b'.buffer n >>= f) =
          charge b' [(length + 1) * 4] >>= f := by
      intro f
      rw [← offset_eq_charge hb'.max_lt hlength, bind_assoc]
    refine (hoffsets _).trans (bind_charge hb' fun b'' hb'' => ?_)
    rw [hspan hlayout]
    exact buffer_eq_charge hb''.max_lt _
  | list =>
    refine (hbitmap _).trans (bind_charge hb fun b' hb' => ?_)
    exact offset_eq_charge hb'.max_lt hlength
  | struct => exact bitmap_eq_charge hb.max_lt hlength

/-- Visiting a window of an array of the field charges the window's canonical lengths. -/
def Charged (field : Field) : Prop :=
  ∀ (data : ArrayData) (start length : Nat) (b : BodyBudget), Valid field data →
    start + length ≤ data.len → length < 2 ^ 63 → b.Within →
    visit (data.slice start length) b = charge b (data.lengths start length)

theorem visitAll_slice_of {fields : List Field} (ih : ∀ f ∈ fields, Charged f) {len : Nat}
    {parent : List Bool} {children : List ArrayData} (hvalid : ValidAll fields len parent children)
    (hwindow : start + length ≤ len) (hlength : length < 2 ^ 63) (hb : b.Within) :
    visitAll (ArrayData.sliceAll children start length) b =
      charge b (ArrayData.lengthsAll children start length) := by
  induction fields generalizing children b with
  | nil =>
    cases children with
    | nil =>
      rw [ArrayData.sliceAll, visitAll, ArrayData.lengthsAll]
      exact (charge_nil hb.bytes_le).symm
    | cons data children => cases hvalid
  | cons field fields ihf =>
    cases children with
    | nil => cases hvalid
    | cons data children =>
      rw [ValidAll] at hvalid
      obtain ⟨hlen, hdata, -, hrest⟩ := hvalid
      obtain ⟨hfield, hfields⟩ := List.forall_mem_cons.mp ih
      rw [ArrayData.sliceAll, visitAll, ArrayData.lengthsAll,
        hfield data start length b hdata (by omega) hlength hb]
      exact bind_charge hb fun b' hb' => ihf hfields hrest hb'

theorem visit_list {child : Field} {values : ArrayData} (htype : data.dataType = .list child)
    (hchild : data.childData = [values]) :
    visit data b = (b.own data >>= fun b' =>
      offsetSpan data b'.maxBytes >>= fun span => visit (values.slice span.1 span.2) b') := by
  obtain ⟨dataType, len, offset, nulls, offsets, bytes, childData⟩ := data
  obtain rfl : dataType = .list child := htype
  obtain rfl : childData = [values] := hchild
  rw [visit]
  rfl

theorem visit_struct {fields : List Field} (htype : data.dataType = .struct fields) :
    visit data b = (b.own data >>= fun b' => visitAll data.childData b') := by
  rw [visit, htype]
  rfl

theorem visit_leaf (hlist : ∀ child, data.dataType ≠ .list child)
    (hstruct : ∀ fields, data.dataType ≠ .struct fields) : visit data b = b.own data := by
  rw [visit]
  cases htype : data.dataType with
  | list child => exact absurd htype (hlist child)
  | struct fields => exact absurd htype (hstruct fields)
  | _ => exact bind_pure _

theorem charged (field : Field) : Charged field := by
  induction field using Field.induction with
  | step name dataType nullable ihList ihStruct =>
    intro data start length b hvalid hwindow hlength hb
    rw [Valid] at hvalid
    obtain ⟨htype, -, hbelow⟩ := hvalid
    obtain ⟨hsame, -, -, -⟩ := slice_eq data start length
    have hspan : DataTypeLayout.classify data.dataType = .variableWidth → ∀ maxBytes,
        offsetSpan (data.slice start length) maxBytes = .ok (data.span start length) := by
      intro hlayout maxBytes
      rw [htype] at hlayout
      cases dataType with
      | utf8 =>
        obtain ⟨-, offsets, hoffsets, hoffsetsValid⟩ := hbelow
        exact offsetSpan_slice hoffsetsValid hoffsets hwindow
      | binary =>
        obtain ⟨-, offsets, hoffsets, hoffsetsValid⟩ := hbelow
        exact offsetSpan_slice hoffsetsValid hoffsets hwindow
      | _ => cases hlayout
    have hown := own_slice hb hlength hspan
    have hleaf : data.childData = [] → (∀ child, data.dataType ≠ .list child) →
        (∀ fields, data.dataType ≠ .struct fields) →
        visit (data.slice start length) b = charge b (data.lengths start length) := by
      intro hnone hlist hstruct
      rw [visit_leaf (by rwa [hsame]) (by rwa [hsame]), hown, lengths_eq, hnone,
        ArrayData.lengthsAll, List.append_nil]
    cases dataType with
    | list child =>
      simp only [ValidBelow] at hbelow
      obtain ⟨values, offsets, hchild, hoffsets, hoffsetsValid, hvalues, -⟩ := hbelow
      have hsliced : (data.slice start length).childData = [values] := by
        rw [(childData_slice data start length).2 (by rw [htype]; simp), hchild]
      have hinner : data.inner start length = data.span start length := by
        unfold ArrayData.inner
        rw [htype]
      obtain ⟨hle, hlt⟩ := hoffsetsValid.span_le hoffsets hwindow
      rw [visit_list (hsame.trans htype) hsliced, hown, lengths_eq, hchild, hinner]
      refine bind_charge hb fun b' hb' => ?_
      rw [offsetSpan_slice hoffsetsValid hoffsets hwindow, ArrayData.lengthsAll,
        ArrayData.lengthsAll, List.append_nil]
      exact ihList child rfl values _ _ b' hvalues hle (by omega) hb'
    | struct fields =>
      simp only [ValidBelow] at hbelow
      have hinner : data.inner start length = (start, length) := by
        unfold ArrayData.inner
        rw [htype]
      rw [visit_struct (hsame.trans htype), hown, lengths_eq, hinner,
        (childData_slice data start length).1 fields htype]
      exact bind_charge hb fun b' hb' =>
        visitAll_slice_of (ihStruct fields rfl) hbelow hwindow hlength hb'
    | null => exact hleaf hbelow (by rw [htype]; simp) (by rw [htype]; simp)
    | boolean => exact hleaf hbelow (by rw [htype]; simp) (by rw [htype]; simp)
    | fixed type => exact hleaf hbelow.1 (by rw [htype]; simp) (by rw [htype]; simp)
    | utf8 => exact hleaf hbelow.1 (by rw [htype]; simp) (by rw [htype]; simp)
    | binary => exact hleaf hbelow.1 (by rw [htype]; simp) (by rw [htype]; simp)

/-! ## Whole arrays -/

theorem sliceAll_self_of {fields : List Field}
    (ih : ∀ f ∈ fields, ∀ data : ArrayData, Valid f data → data.slice 0 data.len = data) {len : Nat}
    {parent : List Bool} {children : List ArrayData}
    (hvalid : ValidAll fields len parent children) :
    ArrayData.sliceAll children 0 len = children := by
  induction fields generalizing children with
  | nil =>
    cases children with
    | nil => rfl
    | cons data children => cases hvalid
  | cons field fields ihf =>
    cases children with
    | nil => cases hvalid
    | cons data children =>
      rw [ValidAll] at hvalid
      obtain ⟨rfl, hdata, -, hrest⟩ := hvalid
      obtain ⟨hfield, hfields⟩ := List.forall_mem_cons.mp ih
      rw [ArrayData.sliceAll, hfield data hdata, ihf hfields hrest]

/-- An array is its own widest slice. -/
theorem slice_self (field : Field) :
    ∀ data : ArrayData, Valid field data → data.slice 0 data.len = data := by
  induction field using Field.induction with
  | step name dataType nullable ihList ihStruct =>
    rintro ⟨dataType', len, offset, nulls, offsets, values, childData⟩ hvalid
    rw [Valid] at hvalid
    obtain ⟨htype, hbits, hbelow⟩ := hvalid
    obtain rfl : dataType' = dataType := htype
    have hnulls : nulls.map (fun bits => (bits.drop 0).take len) = nulls := by
      cases nulls with
      | none => rfl
      | some bits =>
        have hlen : bits.length = len := hbits bits rfl
        rw [Option.map_some, List.drop_zero, List.take_of_length_le (by omega)]
    show ArrayData.slice _ 0 len = _
    cases dataType' with
    | struct fields =>
      simp only [ValidBelow] at hbelow
      rw [ArrayData.slice, hnulls]
      exact congrArg (ArrayData.mk _ len offset nulls offsets values)
        (sliceAll_self_of (ihStruct fields rfl) hbelow)
    | _ =>
      simp only [ArrayData.slice]
      rw [hnulls]
      rfl

end Dogpaddle.Codec
