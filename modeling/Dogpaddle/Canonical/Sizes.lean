import Dogpaddle.Canonical.Encode

/-!
# Sizing agrees with encoding

`Writes` says that a writer appends certain bytes when they fit and fails otherwise; `Adds`
says the same of an addition to a size. Both are closed under sequencing, so the two
recursions over a value are followed side by side, and each succeeds exactly when the
canonical bytes fit.

The shortcut for lists is exact because it gives up on every array in which a null could
shorten a slot (`length_of_constant`).
-/

namespace Dogpaddle.Canonical

open Lib Dogpaddle.Relation

/-! ## Room under a limit -/

/-- A length that a word and the limit admit. -/
def Room (maxBytes : Option Nat) (n : Nat) : Prop := n < usize ∧ ∀ m, maxBytes = some m → n ≤ m

theorem Room.mono {maxBytes : Option Nat} {m n : Nat} (h : Room maxBytes n) (hle : m ≤ n) :
    Room maxBytes m :=
  ⟨lt_of_le_of_lt hle h.1, fun k hk => le_trans hle (h.2 k hk)⟩

theorem room_some {maxBytes n : Nat} : Room (some maxBytes) n ↔ n < usize ∧ n ≤ maxBytes := by
  constructor
  · exact fun h => ⟨h.1, h.2 _ rfl⟩
  · rintro ⟨h, hle⟩
    refine ⟨h, fun m hm => ?_⟩
    cases hm
    exact hle

/-! ## Writers -/

/-- Appends the bytes when there is room for them, and fails otherwise. -/
def Writes (maxBytes : Option Nat) (x : Writer) (bytes : Bytes) : Prop :=
  ∀ out, Room maxBytes out.length →
    (Room maxBytes (out.length + bytes.length) → x out = .ok () (out ++ bytes)) ∧
    (¬ Room maxBytes (out.length + bytes.length) → ∃ e out', x out = .error e out')

section Writers

variable {maxBytes : Option Nat} {x y : Writer} {a b : Bytes}

theorem requireCapacity_eq (n : Nat) (out : Bytes) :
    (Room maxBytes (out.length + n) → requireCapacity n maxBytes out = .ok () out) ∧
    (¬ Room maxBytes (out.length + n) → ∃ e, requireCapacity n maxBytes out = .error e out) := by
  have hdef : requireCapacity n maxBytes out =
      if usize ≤ out.length + n then .error .lengthOverflow out
      else (maxBytes.elim (pure ()) fun m =>
        if m < out.length + n then throw (.sizeLimit m) else pure () : Writer) out := by
    show (if usize ≤ out.length + n then throw .lengthOverflow else _ : Writer) out = _
    split
    · rfl
    · cases maxBytes <;> rfl
  rw [hdef]
  unfold Room
  by_cases hword : usize ≤ out.length + n
  · rw [if_pos hword]
    exact ⟨fun h => absurd h.1 (by omega), fun _ => ⟨_, rfl⟩⟩
  · rw [if_neg hword]
    cases maxBytes with
    | none => exact ⟨fun _ => rfl, fun h => absurd ⟨by omega, fun m hm => by cases hm⟩ h⟩
    | some m =>
      rw [Option.elim_some]
      by_cases hlimit : m < out.length + n
      · rw [if_pos hlimit]
        exact ⟨fun h => absurd (h.2 m rfl) (by omega), fun _ => ⟨_, rfl⟩⟩
      · rw [if_neg hlimit]
        refine ⟨fun _ => rfl, fun h => absurd ⟨by omega, fun k hk => ?_⟩ h⟩
        cases hk
        omega

theorem Writes.pure : Writes maxBytes (pure ()) [] := by
  intro out hroom
  refine ⟨fun _ => by rw [List.append_nil]; rfl, fun h => absurd hroom h⟩

theorem Writes.seq (hx : Writes maxBytes x a) (hy : Writes maxBytes y b) :
    Writes maxBytes (x >>= fun _ => y) (a ++ b) := by
  intro out hroom
  rw [List.length_append, ← Nat.add_assoc, ← List.append_assoc]
  by_cases ha : Room maxBytes (out.length + a.length)
  · have hfirst := (hx out hroom).1 ha
    have hsecond := hy (out ++ a) (by rwa [List.length_append])
    rw [List.length_append] at hsecond
    constructor
    · intro h
      rw [bind_of_ok hfirst]
      exact hsecond.1 h
    · intro h
      obtain ⟨e, out', herror⟩ := hsecond.2 h
      exact ⟨e, out', by rw [bind_of_ok hfirst, herror]⟩
  · obtain ⟨e, out', herror⟩ := (hx out hroom).2 ha
    refine ⟨fun h => absurd (h.mono (Nat.le_add_right _ _)) ha, fun _ => ⟨e, out', ?_⟩⟩
    exact bind_of_error herror

theorem Writes.require (n : Nat) (hn : n ≤ b.length) (hy : Writes maxBytes y b) :
    Writes maxBytes (requireCapacity n maxBytes >>= fun _ => y) b := by
  intro out hroom
  by_cases h : Room maxBytes (out.length + n)
  · rw [bind_of_ok ((requireCapacity_eq n out).1 h)]
    exact hy out hroom
  · obtain ⟨e, herror⟩ := (requireCapacity_eq n out).2 h
    refine ⟨fun hall => absurd (hall.mono (by omega)) h, fun _ => ⟨e, out, ?_⟩⟩
    exact bind_of_error herror

theorem Writes.append (bytes : Bytes) : Writes maxBytes (appendBytes bytes maxBytes) bytes := by
  intro out _
  unfold appendBytes
  constructor
  · intro h
    rw [bind_of_ok ((requireCapacity_eq bytes.length out).1 h)]
    rfl
  · intro h
    obtain ⟨e, herror⟩ := (requireCapacity_eq bytes.length out).2 h
    exact ⟨e, out, bind_of_error herror⟩

theorem Writes.forM {α : Type} {f : α → Writer} {g : α → Bytes} {items : List α}
    (h : ∀ item ∈ items, Writes maxBytes (f item) (g item)) :
    Writes maxBytes (items.forM f) (items.flatMap g) := by
  induction items with
  | nil => exact .pure
  | cons item items ih =>
    rw [List.flatMap_cons]
    exact .seq (h item List.mem_cons_self) (ih fun i hi => h i (List.mem_cons_of_mem _ hi))

end Writers

/-! ## What the encoder writes -/

theorem FixedType.width_eq_succ (type : FixedType) : ∃ k, type.width = k + 1 := by
  cases type <;> exact ⟨_, rfl⟩

theorem FixedType.length_beBytes (type : FixedType) (bits : BitVec (8 * type.width)) :
    (beBytes bits).length = type.width := by
  obtain ⟨k, hk⟩ := type.width_eq_succ
  rw [Relation.length_beBytes (by rw [hk]), hk]

/-- A marker at least. -/
theorem length_canonical_pos (field : Field) (value : Value) :
    0 < (canonical field value).length := by
  cases field with
  | mk name dataType nullable =>
    rw [canonical.eq_def]
    dsimp only
    split <;> simp

theorem length_le_flatMap {α : Type} {g : α → Bytes} {items : List α}
    (h : ∀ item ∈ items, 0 < (g item).length) : items.length ≤ (items.flatMap g).length := by
  induction items with
  | nil => exact le_rfl
  | cons item items ih =>
    have hfirst := h item List.mem_cons_self
    have hrest := ih fun i hi => h i (List.mem_cons_of_mem _ hi)
    rw [List.flatMap_cons, List.length_append, List.length_cons]
    omega

theorem encodeFields_writes {maxBytes : Option Nat} {fields : List Field} {values : List Value}
    (path : List String) (hfits : FitsAll fields values)
    (ih : ∀ f ∈ fields, ∀ value path, Fits f value →
      Writes maxBytes (encodeCanonicalInner f value path maxBytes) (canonical f value)) :
    Writes maxBytes (encodeFields fields values path maxBytes) (canonicalAll fields values) := by
  induction fields generalizing values with
  | nil =>
    rw [encodeFields.eq_def, canonicalAll.eq_def]
    exact .pure
  | cons field fields ihf =>
    cases values with
    | nil => simp [FitsAll] at hfits
    | cons value values =>
      rw [FitsAll] at hfits
      rw [encodeFields, canonicalAll]
      refine .seq (ih field List.mem_cons_self _ _ hfits.1) (ihf hfits.2 ?_)
      exact fun f hf => ih f (List.mem_cons_of_mem _ hf)

theorem canonical_of_isNull {field : Field} {value : Value} (h : value.isNull = true) :
    canonical field value = [0] := by
  cases field with
  | mk name dataType nullable =>
    cases value with
    | null => cases dataType <;> rw [canonical.eq_def]
    | masked children => cases dataType <;> rw [canonical.eq_def]
    | _ => cases h

theorem encode_of_isNull {name : String} {dataType : DataType} {value : Value}
    {path : List String} {maxBytes : Option Nat} (h : value.isNull = true) :
    encodeCanonicalInner (.mk name dataType true) value path maxBytes = pushByte 0 maxBytes := by
  rw [encodeCanonicalInner.eq_def]
  cases dataType <;> simp [h]

theorem encode_writes (maxBytes : Option Nat) (field : Field) : ∀ (value : Value)
    (path : List String), Fits field value →
      Writes maxBytes (encodeCanonicalInner field value path maxBytes) (canonical field value) := by
  induction field using Field.induction with
  | step name dataType nullable ihList ihStruct =>
    intro value path hfits
    cases hfits.slot with
    | nullType =>
      rw [canonical_of_isNull rfl, encodeCanonicalInner]
      exact .append [0]
    | null hne hnull =>
      rw [canonical_of_isNull hnull, encode_of_isNull hnull]
      exact .append [0]
    | boolean =>
      rw [encodeCanonicalInner, canonical]
      exact .seq (.append [1]) (.append _)
    | fixed =>
      rw [encodeCanonicalInner, canonical]
      exact .seq (.append [1]) (.append _)
    | utf8 =>
      rw [encodeCanonicalInner, canonical]
      exact .seq (.append [1]) (.seq (.append _) (.append _))
    | binary =>
      rw [encodeCanonicalInner, canonical]
      exact .seq (.append [1]) (.seq (.append _) (.append _))
    | @list child nullable items hlength hitems =>
      rw [encodeCanonicalInner, canonical]
      refine .seq (.append [1]) (.seq (.append _) (.require _ ?_ (.forM ?_)))
      · exact length_le_flatMap fun item _ => length_canonical_pos child item
      · exact fun item hitem => ihList child rfl item _ (hitems item hitem)
    | @struct fields nullable children hchildren =>
      rw [encodeCanonicalInner, canonical]
      exact .seq (.append [1]) (encodeFields_writes path hchildren (ihStruct fields rfl))

/-! ## Sizes -/

/-- Adds a number when there is room for it, and fails otherwise. -/
def Adds (maxBytes : Nat) (f : Nat → Except RowError Nat) (n : Nat) : Prop :=
  ∀ size, Room (some maxBytes) size →
    (Room (some maxBytes) (size + n) → f size = .ok (size + n)) ∧
    (¬ Room (some maxBytes) (size + n) → ∃ e, f size = .error e)

section Adders

variable {maxBytes m n : Nat} {f g : Nat → Except RowError Nat}

theorem Adds.ok : Adds maxBytes .ok 0 := fun _ hroom => ⟨fun _ => rfl, fun h => absurd hroom h⟩

theorem Adds.size (n : Nat) : Adds maxBytes (fun size => addSize size n maxBytes) n := by
  intro size _
  dsimp only [addSize]
  rw [room_some]
  by_cases hword : usize ≤ size + n
  · rw [if_pos hword]
    exact ⟨fun h => absurd h.1 (by omega), fun _ => ⟨_, rfl⟩⟩
  · rw [if_neg hword]
    by_cases hlimit : maxBytes < size + n
    · rw [if_pos hlimit]
      exact ⟨fun h => absurd h.2 (by omega), fun _ => ⟨_, rfl⟩⟩
    · rw [if_neg hlimit]
      exact ⟨fun _ => rfl, fun h => absurd ⟨by omega, by omega⟩ h⟩

theorem Adds.seq (hf : Adds maxBytes f m) (hg : Adds maxBytes g n) :
    Adds maxBytes (fun size => f size >>= g) (m + n) := by
  intro size hroom
  rw [← Nat.add_assoc]
  by_cases hm : Room (some maxBytes) (size + m)
  · dsimp only
    rw [show (f size >>= g) = g (size + m) by rw [(hf size hroom).1 hm]; rfl]
    exact hg _ hm
  · obtain ⟨e, he⟩ := (hf size hroom).2 hm
    refine ⟨fun h => absurd (h.mono (Nat.le_add_right _ _)) hm, fun _ => ⟨e, ?_⟩⟩
    dsimp only
    rw [he]
    rfl

theorem Adds.foldlM {α : Type} {f : α → Nat → Except RowError Nat} {g : α → Bytes}
    {items : List α} (h : ∀ item ∈ items, Adds maxBytes (f item) (g item).length) :
    Adds maxBytes (fun size => items.foldlM (fun size item => f item size) size)
      (items.flatMap g).length := by
  induction items with
  | nil => exact .ok
  | cons item items ih =>
    rw [List.flatMap_cons, List.length_append]
    exact .seq (h item List.mem_cons_self) (ih fun i hi => h i (List.mem_cons_of_mem _ hi))

end Adders

/-! ## The shortcut -/

theorem not_isNull_of_nullCount {values : List Value} (h : nullCount values = 0) {value : Value}
    (hmem : value ∈ values) : value.isNull = false := by
  unfold nullCount at h
  rw [List.countP_eq_zero] at h
  exact Bool.not_eq_true _ ▸ h value hmem

theorem constantSizes_le {fields : List Field} {index size : Nat} {values : List Value}
    {total : Nat} (h : constantSizes fields index values size = some total)
    (hpos : ∀ f ∈ fields, ∀ values c, constantCanonicalSize f values = some c → 0 < c) :
    size ≤ total ∧ (fields ≠ [] → size < total) := by
  induction fields generalizing index size with
  | nil =>
    rw [constantSizes] at h
    cases h
    exact ⟨le_rfl, fun hne => absurd rfl hne⟩
  | cons field fields ih =>
    rw [constantSizes] at h
    split at h
    · cases h
    · next c hc =>
      split at h
      · cases h
      · have hc := hpos field List.mem_cons_self _ _ hc
        have hrest := (ih h fun f hf => hpos f (List.mem_cons_of_mem _ hf)).1
        exact ⟨by omega, fun _ => by omega⟩

/-- Off the null type and structs, only arrays of fixed width without nulls have one size. -/
theorem constantCanonicalSize_of_width {name : String} {dataType : DataType} {nullable : Bool}
    {values : List Value} {c : Nat}
    (h : constantCanonicalSize (.mk name dataType nullable) values = some c)
    (hnull : dataType ≠ .null) (hstruct : ∀ fields, dataType ≠ .struct fields) :
    ∃ width, fixedCanonicalWidth dataType = some width ∧ nullCount values = 0 ∧
      c = width + 1 := by
  have hdef : constantCanonicalSize (.mk name dataType nullable) values =
      (fixedCanonicalWidth dataType).bind fun width =>
        if nullCount values = 0 ∨ width + 1 = 1 then some (width + 1) else none := by
    rw [constantCanonicalSize.eq_def]
    cases dataType with
    | null => exact absurd rfl hnull
    | struct fields => exact absurd rfl (hstruct fields)
    | _ => rfl
  rw [hdef] at h
  obtain ⟨width, hwidth, h⟩ := Option.bind_eq_some_iff.mp h
  split at h
  · next hcase =>
    cases h
    refine ⟨width, hwidth, hcase.resolve_right ?_, rfl⟩
    have hpos : 0 < width := by
      cases dataType with
      | boolean => cases hwidth; exact Nat.one_pos
      | fixed type =>
        cases hwidth
        obtain ⟨k, hk⟩ := type.width_eq_succ
        omega
      | _ => cases hwidth
    omega
  · cases h

theorem constantCanonicalSize_pos (field : Field) : ∀ (values : List Value) (c : Nat),
    constantCanonicalSize field values = some c → 0 < c := by
  induction field using Field.induction with
  | step name dataType nullable ihList ihStruct =>
    intro values c h
    cases dataType with
    | null =>
      rw [constantCanonicalSize] at h
      cases h
      exact Nat.one_pos
    | struct fields =>
      rw [constantCanonicalSize] at h
      split at h
      · next total htotal =>
        have := (constantSizes_le htotal (ihStruct fields rfl)).1
        split at h
        · cases h
          omega
        · cases h
      · cases h
    | _ =>
      obtain ⟨width, -, -, rfl⟩ := constantCanonicalSize_of_width h (by simp) (by simp)
      omega

/-- The slots of a struct array without nulls, as the children from one of its fields on. -/
def Children (fields : List Field) (index : Nat) (value : Value) : Prop :=
  ∃ children, value = .struct children ∧ FitsAll fields (children.drop index)

/-- The child of the next field comes first. -/
theorem Children.drop_eq {field : Field} {fields : List Field} {index : Nat}
    {children : List Value} (h : Children (field :: fields) index (.struct children)) :
    children.drop index =
      (Value.struct children).child index :: children.drop (index + 1) := by
  obtain ⟨children', heq, hfits⟩ := h
  cases heq
  have hlt : index < children.length := by
    by_contra hge
    rw [List.drop_eq_nil_of_le (by omega)] at hfits
    simp [FitsAll] at hfits
  rw [List.drop_eq_getElem_cons hlt, Value.child, List.getD, List.getElem?_eq_getElem hlt,
    Option.getD_some]

theorem Children.cons {field : Field} {fields : List Field} {index : Nat} {value : Value}
    (h : Children (field :: fields) index value) :
    Fits field (value.child index) ∧ Children fields (index + 1) value := by
  obtain ⟨children, rfl, hfits⟩ := h
  have hdrop := Children.drop_eq ⟨children, rfl, hfits⟩
  rw [hdrop, FitsAll] at hfits
  exact ⟨hfits.1, children, rfl, hfits.2⟩

theorem length_of_constantSizes {fields : List Field} {values : List Value} {index size total : Nat}
    (hsizes : constantSizes fields index values size = some total)
    (hvalues : ∀ value ∈ values, Children fields index value)
    (ih : ∀ f ∈ fields, ∀ values c, constantCanonicalSize f values = some c →
      (∀ value ∈ values, Fits f value) → ∀ value ∈ values, (canonical f value).length = c) :
    ∀ children, .struct children ∈ values →
      size + (canonicalAll fields (children.drop index)).length = total := by
  induction fields generalizing index size with
  | nil =>
    intro children _
    rw [constantSizes] at hsizes
    cases hsizes
    rw [canonicalAll.eq_def]
    rfl
  | cons field fields ihf =>
    intro children hmem
    rw [constantSizes] at hsizes
    split at hsizes
    · cases hsizes
    · next c hc =>
      split at hsizes
      · cases hsizes
      · have hfirst := ih field List.mem_cons_self _ c hc
          (by
            intro value hvalue
            obtain ⟨parent, hparent, rfl⟩ := List.mem_map.mp hvalue
            exact (hvalues parent hparent).cons.1)
          _ (List.mem_map_of_mem hmem)
        have hrest := ihf hsizes (fun value hvalue => (hvalues value hvalue).cons.2)
          (fun f hf => ih f (List.mem_cons_of_mem _ hf)) children hmem
        rw [(hvalues _ hmem).drop_eq, canonicalAll, List.length_append, hfirst]
        omega

/-- The shortcut's size is the size of every slot. -/
theorem length_of_constant (field : Field) : ∀ (values : List Value) (c : Nat),
    constantCanonicalSize field values = some c → (∀ value ∈ values, Fits field value) →
      ∀ value ∈ values, (canonical field value).length = c := by
  induction field using Field.induction with
  | step name dataType nullable ihList ihStruct =>
    intro values c hsize hfits value hmem
    have hslot := (hfits value hmem).slot
    cases dataType with
    | null =>
      rw [constantCanonicalSize] at hsize
      cases hsize
      cases hslot with
      | nullType => rw [canonical_of_isNull rfl, List.length_singleton]
      | null hne => exact absurd rfl hne
    | struct fields =>
      rw [constantCanonicalSize] at hsize
      split at hsize
      · next total htotal =>
        split at hsize
        · next hcase =>
          cases hsize
          by_cases hnulls : nullCount values = 0
          · -- without nulls every slot has its children
            have hall : ∀ value ∈ values, Children fields 0 value := by
              intro value hvalue
              have hnot := not_isNull_of_nullCount hnulls hvalue
              cases (hfits value hvalue).slot with
              | null _ hnull => rw [hnull] at hnot; cases hnot
              | @struct _ _ children hchildren => exact ⟨children, rfl, by simpa using hchildren⟩
            obtain ⟨children, rfl, -⟩ := hall value hmem
            have hlength := length_of_constantSizes htotal hall (ihStruct fields rfl) children hmem
            rw [List.drop_zero] at hlength
            rw [canonical, List.length_cons]
            omega
          · -- a struct of no fields is a marker, null or not
            have hone : c = 1 := hcase.resolve_left hnulls
            have hnil : fields = [] := by
              by_contra hne
              have := (constantSizes_le htotal fun f _ => constantCanonicalSize_pos f).2 hne
              omega
            subst hone hnil
            cases hslot with
            | null _ hnull => rw [canonical_of_isNull hnull, List.length_singleton]
            | struct => rw [canonical, canonicalAll.eq_def]; rfl
        · cases hsize
      · cases hsize
    | boolean =>
      obtain ⟨width, hwidth, hnulls, rfl⟩ :=
        constantCanonicalSize_of_width hsize (by simp) (by simp)
      cases hwidth
      have hnot := not_isNull_of_nullCount hnulls hmem
      cases hslot with
      | null _ hnull => rw [hnull] at hnot; cases hnot
      | boolean => rw [canonical]; rfl
    | fixed type =>
      obtain ⟨width, hwidth, hnulls, rfl⟩ :=
        constantCanonicalSize_of_width hsize (by simp) (by simp)
      cases hwidth
      have hnot := not_isNull_of_nullCount hnulls hmem
      cases hslot with
      | null _ hnull => rw [hnull] at hnot; cases hnot
      | fixed => rw [canonical, List.length_cons, type.length_beBytes]
    | _ =>
      -- strings, binaries and lists have no width
      obtain ⟨width, hwidth, -, -⟩ := constantCanonicalSize_of_width hsize (by simp) (by simp)
      cases hwidth

theorem length_flatMap_of_constant {child : Field} {items : List Value} {c : Nat}
    (hsize : constantCanonicalSize child items = some c)
    (hfits : ∀ item ∈ items, Fits child item) :
    (items.flatMap (canonical child)).length = items.length * c := by
  have hall := length_of_constant child items c hsize hfits
  clear hsize hfits
  induction items with
  | nil => simp
  | cons item items ih =>
    rw [List.flatMap_cons, List.length_append, hall item List.mem_cons_self,
      ih fun i hi => hall i (List.mem_cons_of_mem _ hi), List.length_cons, Nat.succ_mul,
      Nat.add_comm]

/-! ## What the sizer adds -/

/-- The items of a list one by one. -/
def sizeItems (child : Field) (items : List Value) (path : List String) (maxBytes size : Nat) :
    Except RowError Nat :=
  items.foldlM (fun size item =>
    canonicalSizeInner child item (path ++ [child.name]) size maxBytes) size

theorem sizeConstant_adds {items : List Value} {childSize maxBytes : Nat} :
    Adds maxBytes (sizeConstant items childSize maxBytes) (items.length * childSize) := by
  intro size hroom
  unfold sizeConstant
  by_cases hword : usize ≤ items.length * childSize
  · rw [if_pos hword]
    refine ⟨fun h => absurd h.1 (by omega), fun _ => ⟨_, rfl⟩⟩
  · rw [if_neg hword]
    exact Adds.size _ size hroom

/-- A count of items that are no smaller than a byte may be checked first. -/
theorem Adds.require {maxBytes n k : Nat} {f : Nat → Except RowError Nat} (hn : k ≤ n)
    (h : Adds maxBytes f n) :
    Adds maxBytes (fun size => if maxBytes - size < k then .error (.sizeLimit maxBytes)
      else f size) n := by
  intro size hroom
  dsimp only
  by_cases hk : maxBytes - size < k
  · rw [if_pos hk]
    have hle := (room_some.mp hroom).2
    exact ⟨fun hall => absurd (room_some.mp hall).2 (by omega), fun _ => ⟨_, rfl⟩⟩
  · rw [if_neg hk]
    exact h size hroom

theorem sizeFields_adds {maxBytes : Nat} {fields : List Field} {values : List Value}
    (path : List String) (hfits : FitsAll fields values)
    (ih : ∀ f ∈ fields, ∀ value path, Fits f value →
      Adds maxBytes (fun size => canonicalSizeInner f value path size maxBytes)
        (canonical f value).length) :
    Adds maxBytes (fun size => sizeFields fields values path size maxBytes)
      (canonicalAll fields values).length := by
  induction fields generalizing values with
  | nil =>
    rw [canonicalAll.eq_def]
    simp only [sizeFields]
    exact .ok
  | cons field fields ihf =>
    cases values with
    | nil => simp [FitsAll] at hfits
    | cons value values =>
      rw [FitsAll] at hfits
      rw [canonicalAll, List.length_append]
      simp only [sizeFields]
      refine .seq (ih field List.mem_cons_self _ _ hfits.1) (ihf hfits.2 ?_)
      exact fun f hf => ih f (List.mem_cons_of_mem _ hf)

theorem size_of_isNull {name : String} {dataType : DataType} {value : Value}
    {path : List String} {size maxBytes : Nat} (h : value.isNull = true) :
    canonicalSizeInner (.mk name dataType true) value path size maxBytes =
      addSize size 1 maxBytes := by
  rw [canonicalSizeInner.eq_def]
  cases dataType <;> simp [h]

theorem size_adds (maxBytes : Nat) (field : Field) : ∀ (value : Value) (path : List String),
    Fits field value → Adds maxBytes (fun size => canonicalSizeInner field value path size maxBytes)
      (canonical field value).length := by
  induction field using Field.induction with
  | step name dataType nullable ihList ihStruct =>
    intro value path hfits
    cases hfits.slot with
    | nullType =>
      rw [canonical_of_isNull rfl]
      simp only [canonicalSizeInner]
      exact .size 1
    | null hne hnull =>
      rw [canonical_of_isNull hnull]
      simp only [size_of_isNull hnull]
      exact .size 1
    | boolean =>
      rw [canonical]
      simp only [canonicalSizeInner]
      exact .seq (.size 1) (.size 1)
    | @fixed type =>
      rw [canonical, List.length_cons, type.length_beBytes, Nat.add_comm]
      simp only [canonicalSizeInner]
      exact .seq (.size 1) (.size _)
    | utf8 =>
      rw [canonical, List.length_cons, List.length_append, length_toBE, Nat.add_comm]
      simp only [canonicalSizeInner]
      exact .seq (.size 1) (.seq (.size 8) (.size _))
    | binary =>
      rw [canonical, List.length_cons, List.length_append, length_toBE, Nat.add_comm]
      simp only [canonicalSizeInner]
      exact .seq (.size 1) (.seq (.size 8) (.size _))
    | @list child nullable items hlength hitems =>
      rw [canonical, List.length_cons, List.length_append, length_toBE, Nat.add_comm]
      simp only [canonicalSizeInner]
      refine .seq (.size 1) (.seq (.size 8) (.require ?_ ?_))
      · exact length_le_flatMap fun item _ => length_canonical_pos child item
      · cases hsize : constantCanonicalSize child items with
        | some childSize =>
          rw [length_flatMap_of_constant hsize hitems]
          exact sizeConstant_adds
        | none => exact .foldlM fun item hitem => ihList child rfl item _ (hitems item hitem)
    | @struct fields nullable children hchildren =>
      rw [canonical, List.length_cons, Nat.add_comm]
      simp only [canonicalSizeInner]
      exact .seq (.size 1) (sizeFields_adds path hchildren (ihStruct fields rfl))

/-! ## Rows -/

/-- The columns of a batch give every row its fitting slots. -/
theorem rowValues_fit {rows index : Nat} {fields : List Field} {columns : List (List Value)}
    (hvalid : List.Forall₂ (ColumnOf rows) fields columns) (hindex : index < rows) :
    FitsAll fields (rowValues columns index) := by
  induction hvalid with
  | nil => rw [rowValues, List.map_nil, FitsAll]; trivial
  | @cons field column fields columns hcolumn _ ih =>
    have hlt : index < column.length := by rw [hcolumn.length]; exact hindex
    rw [rowValues, List.map_cons, FitsAll]
    refine ⟨hcolumn.fits _ ?_, ih⟩
    rw [List.getD, List.getElem?_eq_getElem hlt]
    exact List.getElem_mem hlt

theorem encodeColumns_eq {rows index : Nat} {fields : List Field} {columns : List (List Value)}
    {maxBytes : Option Nat}
    (hvalid : List.Forall₂ (ColumnOf rows) fields columns) (hindex : index < rows) :
    encodeColumns fields columns index maxBytes =
      encodeFields fields (rowValues columns index) [] maxBytes := by
  induction hvalid with
  | nil => rw [encodeColumns.eq_def, encodeFields.eq_def]
  | @cons field column fields columns hcolumn _ ih =>
    have hlt : index < column.length := by rw [hcolumn.length]; exact hindex
    rw [encodeColumns, rowValues, List.map_cons, encodeFields, List.getD,
      List.getElem?_eq_getElem hlt, ih]
    rfl

theorem sizeColumns_eq {rows index maxBytes : Nat} {fields : List Field}
    {columns : List (List Value)}
    (hvalid : List.Forall₂ (ColumnOf rows) fields columns) (hindex : index < rows) (size : Nat) :
    sizeColumns fields columns index size maxBytes =
      sizeFields fields (rowValues columns index) [] size maxBytes := by
  induction hvalid generalizing size with
  | nil => rw [sizeColumns.eq_def, sizeFields.eq_def]
  | @cons field column fields columns hcolumn _ ih =>
    have hlt : index < column.length := by rw [hcolumn.length]; exact hindex
    rw [sizeColumns, rowValues, List.map_cons, sizeFields, List.getD,
      List.getElem?_eq_getElem hlt]
    simp only [ih]
    rfl

namespace RecordBatch

/-- The canonical bytes of a row, with no limit. -/
def canonicalRow (batch : RecordBatch) (index : Nat) : Bytes :=
  canonicalAll batch.schema (rowValues batch.columns index)

variable {batch : RecordBatch} {index maxBytes : Nat}

/-- Encoding a row succeeds exactly when its bytes fit, and gives them. -/
theorem canonicalRowBounded_eq_ok {bytes : Bytes} :
    canonicalRowBounded batch index maxBytes = .ok bytes ↔ index < batch.numRows ∧
      Room (some maxBytes) bytes.length ∧ bytes = batch.canonicalRow index := by
  unfold canonicalRowBounded
  by_cases hindex : batch.numRows ≤ index
  · rw [if_pos hindex]
    constructor
    · intro h
      cases h
    · exact fun h => absurd h.1 (by omega)
  have hlt : index < batch.numRows := Nat.lt_of_not_le hindex
  rw [if_neg hindex, encodeColumns_eq batch.valid hlt]
  have hwrites := encodeFields_writes [] (rowValues_fit batch.valid hlt)
    (fun f _ value path => encode_writes (some maxBytes) f value path) []
    (room_some.mpr ⟨by decide, Nat.zero_le _⟩)
  rw [List.nil_append, List.length_nil, Nat.zero_add] at hwrites
  by_cases hroom : Room (some maxBytes) (batch.canonicalRow index).length
  · rw [hwrites.1 hroom]
    constructor
    · intro h
      cases h
      exact ⟨by omega, hroom, rfl⟩
    · rintro ⟨-, -, rfl⟩
      rfl
  · obtain ⟨e, out, herror⟩ := hwrites.2 hroom
    rw [herror]
    constructor
    · intro h
      cases h
    · rintro ⟨-, h, rfl⟩
      exact absurd h hroom

/-- Sizing a row succeeds exactly when its bytes fit, and counts them. -/
theorem canonicalRowSizeBounded_eq_ok {n : Nat} :
    canonicalRowSizeBounded batch index maxBytes = .ok n ↔ index < batch.numRows ∧
      Room (some maxBytes) n ∧ n = (batch.canonicalRow index).length := by
  unfold canonicalRowSizeBounded
  by_cases hindex : batch.numRows ≤ index
  · rw [if_pos hindex]
    constructor
    · intro h
      cases h
    · exact fun h => absurd h.1 (by omega)
  have hlt : index < batch.numRows := Nat.lt_of_not_le hindex
  rw [if_neg hindex, sizeColumns_eq batch.valid hlt]
  have hadds := sizeFields_adds [] (rowValues_fit batch.valid hlt)
    (fun f _ value path => size_adds maxBytes f value path) 0
    (room_some.mpr ⟨by decide, Nat.zero_le _⟩)
  rw [Nat.zero_add] at hadds
  dsimp only at hadds
  by_cases hroom : Room (some maxBytes) (batch.canonicalRow index).length
  · rw [hadds.1 hroom]
    constructor
    · intro h
      cases h
      exact ⟨by omega, hroom, rfl⟩
    · rintro ⟨-, -, rfl⟩
      rfl
  · obtain ⟨e, herror⟩ := hadds.2 hroom
    rw [herror]
    constructor
    · intro h
      cases h
    · rintro ⟨-, h, rfl⟩
      exact absurd h hroom

end RecordBatch

theorem Adds.ok_iff {maxBytes n size : Nat} {f g : Nat → Except RowError Nat}
    (hf : Adds maxBytes f n) (hg : Adds maxBytes g n) (hroom : Room (some maxBytes) size)
    (total : Nat) : f size = .ok total ↔ g size = .ok total := by
  by_cases h : Room (some maxBytes) (size + n)
  · rw [(hf size hroom).1 h, (hg size hroom).1 h]
  · obtain ⟨e, he⟩ := (hf size hroom).2 h
    obtain ⟨e', he'⟩ := (hg size hroom).2 h
    rw [he, he']
    simp

/-- A row has a size under a limit exactly when it has bytes under it, and the size is their
number. The shortcut for items of one size gives what adding them one by one gives. -/
theorem sizing_agrees_with_encoding :
    (∀ (batch : RecordBatch) (index maxBytes n : Nat),
      canonicalRowSizeBounded batch index maxBytes = .ok n ↔
        ∃ bytes, canonicalRowBounded batch index maxBytes = .ok bytes ∧ bytes.length = n) ∧
    ∀ (child : Field) (items : List Value) (childSize : Nat),
      (∀ item ∈ items, Fits child item) → constantCanonicalSize child items = some childSize →
      ∀ (path : List String) (maxBytes size : Nat), size < usize → size ≤ maxBytes →
        ∀ total, sizeConstant items childSize maxBytes size = .ok total ↔
          sizeItems child items path maxBytes size = .ok total := by
  constructor
  · intro batch index maxBytes n
    rw [RecordBatch.canonicalRowSizeBounded_eq_ok]
    constructor
    · rintro ⟨hindex, hroom, rfl⟩
      exact ⟨_, RecordBatch.canonicalRowBounded_eq_ok.mpr ⟨hindex, hroom, rfl⟩, rfl⟩
    · rintro ⟨bytes, hbytes, rfl⟩
      obtain ⟨hindex, hroom, rfl⟩ := RecordBatch.canonicalRowBounded_eq_ok.mp hbytes
      exact ⟨hindex, hroom, rfl⟩
  · intro child items childSize hfits hsize path maxBytes size hword hle
    have hitems : Adds maxBytes (sizeItems child items path maxBytes)
        (items.length * childSize) := by
      rw [← length_flatMap_of_constant hsize hfits]
      exact .foldlM fun item hitem => size_adds maxBytes child item _ (hfits item hitem)
    exact sizeConstant_adds.ok_iff hitems (room_some.mpr ⟨hword, hle⟩)

/-- A nullable struct of one number, as the item of a list. -/
def point : Field := .mk "item" (.struct [.mk "x" (.fixed .int32) false]) true

def pointAt (x : BitVec 32) : Value := .struct [.fixed 4 x]

theorem fits_pointAt (x : BitVec 32) : Fits point (pointAt x) := by
  simp [point, pointAt, Fits, FitsAll, FixedType.width]

/-- Two rows: two points, and a null list. -/
def points : RecordBatch where
  schema := [.mk "points" (.list point) true]
  numRows := 2
  columns := [[.list [pointAt 3, pointAt 7], .null]]
  valid := by
    refine .cons ⟨rfl, ?_, ?_⟩ .nil
    · intro value hvalue
      rw [List.mem_cons, List.mem_singleton] at hvalue
      obtain rfl | rfl := hvalue
      · simp [Fits, fits_pointAt]
      · simp [Fits]
    · simp [Within, WithinAll, Value.logical, Value.logicalAll, Value.items, point, pointAt]

theorem sizing_agrees_with_encoding_points :
    canonicalRowSizeBounded points 0 21 = .ok 21 ∧
    sizeItems point [pointAt 3, pointAt 7] ["points"] 21 9 = .ok 21 := by
  refine ⟨(sizing_agrees_with_encoding.1 points 0 21 21).mpr ⟨_, rfl, by decide +kernel⟩, ?_⟩
  refine (sizing_agrees_with_encoding.2 point [pointAt 3, pointAt 7] 6 ?_ rfl ["points"] 21 9
    (by decide) (by decide) 21).mp rfl
  intro item hitem
  rw [List.mem_cons, List.mem_singleton] at hitem
  obtain rfl | rfl := hitem
  · exact fits_pointAt 3
  · exact fits_pointAt 7

end Dogpaddle.Canonical
