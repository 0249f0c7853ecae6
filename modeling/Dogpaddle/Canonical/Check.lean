import Dogpaddle.Canonical.Sizes
import Dogpaddle.Canonical.Decode

/-!
# What the checker accepts

The checker accepts the canonical bytes of fitting values and nothing else:

* `checkValue_sound`: accepted bytes start with the canonical bytes of a value, and the
  checker stops right after them;
* `checkValue_complete`: the canonical bytes of a fitting value are accepted when the
  allowance covers its Arrow bytes;
* `canonical_append_inj`: canonical bytes show their own end, so that the value is unique.
-/

namespace Dogpaddle.Canonical

open Lib Dogpaddle.Relation

/-! ## Reading bytes -/

namespace RowCursor

theorem take_eq_ok {n : Nat} {input a rest : Bytes} :
    take n input = .ok a rest ↔ a.length = n ∧ input = a ++ rest := by
  unfold take
  constructor
  · intro h
    split at h
    · next hle =>
      cases h
      exact ⟨by rw [List.length_take]; omega, (List.take_append_drop n input).symm⟩
    · cases h
  · rintro ⟨hlength, rfl⟩
    rw [if_pos (by rw [List.length_append]; omega), ← hlength, List.take_left, List.drop_left]

theorem u8_eq_ok {input rest : Bytes} {b : UInt8} : u8 input = .ok b rest ↔ input = b :: rest := by
  unfold u8
  rw [bind_eq_ok]
  constructor
  · rintro ⟨a, t, h, hp⟩
    obtain ⟨hlength, rfl⟩ := take_eq_ok.mp h
    obtain ⟨rfl, rfl⟩ := pure_eq_ok.mp hp
    obtain ⟨b, rfl⟩ := List.length_eq_one_iff.mp hlength
    rfl
  · rintro rfl
    exact ⟨[b], rest, take_eq_ok.mpr ⟨rfl, rfl⟩, rfl⟩

theorem length_eq_ok {input rest : Bytes} {n : Nat} :
    length input = .ok n rest ↔ n < 256 ^ 8 ∧ input = toBE 8 n ++ rest := by
  unfold length
  rw [bind_eq_ok]
  constructor
  · rintro ⟨a, t, h, hp⟩
    obtain ⟨hlength, rfl⟩ := take_eq_ok.mp h
    obtain ⟨rfl, rfl⟩ := pure_eq_ok.mp hp
    have hlt := fromBE_lt a
    rw [hlength] at hlt
    exact ⟨hlt, by rw [toBE_fromBE hlength]⟩
  · rintro ⟨hn, rfl⟩
    refine ⟨toBE 8 n, rest, take_eq_ok.mpr ⟨length_toBE 8 n, rfl⟩, ?_⟩
    rw [fromBE_toBE hn]
    rfl

theorem bytes_eq_ok {input rest value : Bytes} :
    bytes input = .ok value rest ↔
      value.length < 256 ^ 8 ∧ input = toBE 8 value.length ++ (value ++ rest) := by
  unfold bytes
  rw [bind_eq_ok]
  constructor
  · rintro ⟨n, t, hn, hvalue⟩
    obtain ⟨hlt, rfl⟩ := length_eq_ok.mp hn
    obtain ⟨rfl, rfl⟩ := take_eq_ok.mp hvalue
    exact ⟨hlt, rfl⟩
  · rintro ⟨hlt, rfl⟩
    exact ⟨_, _, length_eq_ok.mpr ⟨hlt, rfl⟩, take_eq_ok.mpr ⟨rfl, rfl⟩⟩

theorem skip_eq_ok {n : Nat} {input rest : Bytes} {u : Unit} :
    skip n input = .ok u rest ↔ ∃ a, a.length = n ∧ input = a ++ rest := by
  unfold skip
  rw [bind_eq_ok]
  constructor
  · rintro ⟨a, t, h, hp⟩
    obtain ⟨-, rfl⟩ := pure_eq_ok.mp hp
    exact ⟨a, take_eq_ok.mp h⟩
  · rintro ⟨a, h⟩
    exact ⟨a, rest, take_eq_ok.mpr h, rfl⟩

theorem finish_eq_ok {input rest : Bytes} {u : Unit} :
    finish input = .ok u rest ↔ input = [] ∧ rest = [] := by
  cases input with
  | nil =>
    show (EStateM.Result.ok () [] : EStateM.Result RowError Bytes Unit) = .ok u rest ↔ _
    simp [eq_comm]
  | cons b input =>
    show (EStateM.Result.error _ _ : EStateM.Result RowError Bytes Unit) = .ok u rest ↔ _
    simp

theorem lift_eq_ok {σ α : Type} {x : RowCursor α} {input : Bytes} {t : σ} {a : α}
    {s' : Bytes × σ} :
    x.lift (input, t) = .ok a s' ↔ ∃ rest, x input = .ok a rest ∧ s' = (rest, t) := by
  unfold lift
  dsimp only
  cases x input with
  | ok b rest =>
    constructor
    · intro h
      cases h
      exact ⟨rest, rfl, rfl⟩
    · rintro ⟨rest', h, rfl⟩
      cases h
      rfl
  | error e rest => simp

end RowCursor

theorem count_eq_ok {f : Nat → Except RowError Nat} {input : Bytes} {size : Nat} {u : Unit}
    {s' : Bytes × Nat} :
    count f (input, size) = .ok u s' ↔ ∃ n, f size = .ok n ∧ s' = (input, n) := by
  unfold count
  rw [bind_eq_ok]
  constructor
  · rintro ⟨s, t, hget, h⟩
    obtain ⟨rfl, rfl⟩ := get_eq_ok.mp hget
    obtain ⟨n, t', hcount, hset⟩ := bind_eq_ok.mp h
    obtain ⟨hf, rfl⟩ := ofExcept_eq_ok.mp hcount
    exact ⟨n, hf, (set_eq_ok.mp hset).symm⟩
  · rintro ⟨n, hn, rfl⟩
    refine ⟨(input, size), (input, size), rfl, ?_⟩
    dsimp only
    rw [hn]
    rfl

/-! ## Logical values -/

theorem canonicalAll_logical {fields : List Field} (values : List Value)
    (ih : ∀ f ∈ fields, ∀ value, canonical f value.logical = canonical f value) :
    canonicalAll fields (values.map Value.logical) = canonicalAll fields values := by
  induction fields generalizing values with
  | nil => rw [canonicalAll.eq_def, canonicalAll.eq_def]
  | cons field fields ihf =>
    cases values with
    | nil => rw [List.map_nil]
    | cons value values =>
      rw [List.map_cons, canonicalAll, canonicalAll, ih field List.mem_cons_self,
        ihf values fun f hf => ih f (List.mem_cons_of_mem _ hf)]

/-- What stands behind a null is not encoded. -/
theorem canonical_logical (field : Field) : ∀ value : Value,
    canonical field value.logical = canonical field value := by
  induction field using Field.induction with
  | step name dataType nullable ihList ihStruct =>
    intro value
    cases value with
    | list items =>
      cases dataType with
      | list child =>
        rw [Value.logical, canonical, canonical, Value.logicalAll_eq_map, List.length_map,
          List.flatMap_map]
        simp only [ihList child rfl]
      | _ => rw [Value.logical, canonical.eq_def, canonical.eq_def]
    | struct children =>
      cases dataType with
      | struct fields =>
        rw [Value.logical, canonical, canonical, Value.logicalAll_eq_map,
          canonicalAll_logical children (ihStruct fields rfl)]
      | _ => rw [Value.logical, canonical.eq_def, canonical.eq_def]
    | masked children => rw [Value.logical, canonical_of_isNull rfl, canonical_of_isNull rfl]
    | _ => rw [Value.logical]

theorem logical_of_isNull {value : Value} (h : value.isNull = true) : value.logical = .null := by
  cases value with
  | null => rw [Value.logical]
  | masked children => rw [Value.logical]
  | _ => cases h

theorem fitsAll_logical_of {fields : List Field} {values : List Value}
    (ih : ∀ f ∈ fields, ∀ value, Fits f value → Fits f value.logical)
    (h : FitsAll fields values) : FitsAll fields (values.map Value.logical) := by
  rw [fitsAll_iff] at h ⊢
  induction h with
  | nil => exact .nil
  | cons hfirst _ ihf =>
    exact .cons (ih _ List.mem_cons_self _ hfirst)
      (ihf fun f hf => ih f (List.mem_cons_of_mem _ hf))

theorem Fits.logical (field : Field) : ∀ value, Fits field value → Fits field value.logical := by
  induction field using Field.induction with
  | step name dataType nullable ihList ihStruct =>
    intro value h
    cases h.slot with
    | nullType => rwa [Value.logical]
    | null hne hnull =>
      rw [logical_of_isNull hnull]
      cases dataType <;> simp_all [Fits]
    | list hlength hitems =>
      rw [Value.logical, Value.logicalAll_eq_map, Fits, List.length_map]
      refine ⟨hlength, List.forall_mem_map.mpr fun item hitem => ?_⟩
      exact ihList _ rfl item (hitems item hitem)
    | struct hchildren =>
      rw [Value.logical, Value.logicalAll_eq_map, Fits]
      exact fitsAll_logical_of (ihStruct _ rfl) hchildren
    | _ => rwa [Value.logical]

theorem fitsAll_logical {fields : List Field} {values : List Value} (h : FitsAll fields values) :
    FitsAll fields (values.map Value.logical) :=
  fitsAll_logical_of (fun f _ => Fits.logical f) h

/-! ## Canonical bytes show their own end -/

/-- The same length, and what follows it. -/
theorem length_append_inj {m n : Nat} {r r' : Bytes} (hm : m < 2 ^ 31) (hn : n < 2 ^ 31)
    (h : toBE 8 m ++ r = toBE 8 n ++ r') : m = n ∧ r = r' := by
  obtain ⟨hlength, hrest⟩ := List.append_inj h (by rw [length_toBE, length_toBE])
  exact ⟨(toBE_inj (by omega) (by omega)).mp hlength, hrest⟩

theorem flatMap_append_inj {child : Field} {items items' : List Value} {r r' : Bytes}
    (hlength : items.length = items'.length) (hfits : ∀ item ∈ items, Fits child item)
    (hfits' : ∀ item ∈ items', Fits child item)
    (ih : ∀ v w r r', Fits child v → Fits child w →
      canonical child v ++ r = canonical child w ++ r' → v.logical = w.logical ∧ r = r')
    (h : items.flatMap (canonical child) ++ r = items'.flatMap (canonical child) ++ r') :
    items.map Value.logical = items'.map Value.logical ∧ r = r' := by
  induction items generalizing items' with
  | nil =>
    obtain rfl : items' = [] := List.length_eq_zero_iff.mp hlength.symm
    exact ⟨rfl, h⟩
  | cons item items ihi =>
    cases items' with
    | nil => cases hlength
    | cons item' items' =>
      rw [List.flatMap_cons, List.flatMap_cons, List.append_assoc, List.append_assoc] at h
      obtain ⟨hfirst, hrest⟩ := ih item item' _ _ (hfits _ List.mem_cons_self)
        (hfits' _ List.mem_cons_self) h
      obtain ⟨hitems, hr⟩ := ihi (Nat.succ.inj hlength)
        (fun i hi => hfits i (List.mem_cons_of_mem _ hi))
        (fun i hi => hfits' i (List.mem_cons_of_mem _ hi)) hrest
      exact ⟨by rw [List.map_cons, List.map_cons, hfirst, hitems], hr⟩

theorem canonicalAll_append_inj {fields : List Field} {values values' : List Value}
    {r r' : Bytes} (hfits : FitsAll fields values) (hfits' : FitsAll fields values')
    (ih : ∀ f ∈ fields, ∀ v w r r', Fits f v → Fits f w →
      canonical f v ++ r = canonical f w ++ r' → v.logical = w.logical ∧ r = r')
    (h : canonicalAll fields values ++ r = canonicalAll fields values' ++ r') :
    values.map Value.logical = values'.map Value.logical ∧ r = r' := by
  induction fields generalizing values values' with
  | nil =>
    rw [fitsAll_iff, List.forall₂_nil_left_iff] at hfits hfits'
    subst hfits hfits'
    rw [canonicalAll.eq_def] at h
    exact ⟨rfl, h⟩
  | cons field fields ihf =>
    rw [fitsAll_iff, List.forall₂_cons_left_iff] at hfits hfits'
    obtain ⟨v, vs, hv, hvs, rfl⟩ := hfits
    obtain ⟨w, ws, hw, hws, rfl⟩ := hfits'
    rw [canonicalAll, canonicalAll, List.append_assoc, List.append_assoc] at h
    obtain ⟨hfirst, hrest⟩ := ih field List.mem_cons_self v w _ _ hv hw h
    obtain ⟨hvalues, hr⟩ := ihf (fitsAll_iff.mpr hvs) (fitsAll_iff.mpr hws)
      (fun f hf => ih f (List.mem_cons_of_mem _ hf)) hrest
    exact ⟨by rw [List.map_cons, List.map_cons, hfirst, hvalues], hr⟩

/-- A value is present when its bytes start with one. -/
theorem canonical_of_present (name : String) {dataType : DataType} {nullable : Bool}
    {value : Value} (h : Slot dataType nullable value) (hnull : value.isNull = false) :
    ∃ rest, canonical (.mk name dataType nullable) value = 1 :: rest := by
  cases h with
  | nullType => cases hnull
  | null _ htrue => rw [htrue] at hnull; cases hnull
  | _ => exact ⟨_, by rw [canonical]⟩

theorem canonical_append_inj (field : Field) : ∀ (v w : Value) (r r' : Bytes),
    Fits field v → Fits field w → canonical field v ++ r = canonical field w ++ r' →
      v.logical = w.logical ∧ r = r' := by
  induction field using Field.induction with
  | step name dataType nullable ihList ihStruct =>
    intro v w r r' hv hw h
    by_cases hnull : v.isNull = true
    · -- the marker of a null is no other value's
      by_cases hnull' : w.isNull = true
      · rw [canonical_of_isNull hnull, canonical_of_isNull hnull'] at h
        rw [logical_of_isNull hnull, logical_of_isNull hnull']
        exact ⟨rfl, List.append_cancel_left h⟩
      · obtain ⟨rest, hrest⟩ :=
          canonical_of_present name hw.slot (Bool.eq_false_iff.mpr hnull')
        rw [canonical_of_isNull hnull, hrest] at h
        cases h
    by_cases hnull' : w.isNull = true
    · obtain ⟨rest, hrest⟩ := canonical_of_present name hv.slot (Bool.eq_false_iff.mpr hnull)
      rw [canonical_of_isNull hnull', hrest] at h
      cases h
    have hslot := hw.slot
    cases hv.slot with
    | nullType => exact absurd rfl hnull
    | null _ htrue => exact absurd htrue hnull
    | @boolean _ a =>
      cases hslot with
      | null _ htrue => exact absurd htrue hnull'
      | @boolean _ b =>
        rw [canonical, canonical] at h
        cases a <;> cases b <;> simp_all
    | @fixed type _ bits =>
      cases hslot with
      | null _ htrue => exact absurd htrue hnull'
      | @fixed _ _ bits' =>
        rw [canonical, canonical, List.cons_append, List.cons_append, List.cons.injEq] at h
        obtain ⟨hbits, hr⟩ := List.append_inj h.2
          (by rw [type.length_beBytes, type.length_beBytes])
        obtain ⟨k, hk⟩ := type.width_eq_succ
        have hback := congrArg (fromBeBytes (8 * type.width)) hbits
        rw [fromBeBytes_beBytes (by rw [hk]), fromBeBytes_beBytes (by rw [hk])] at hback
        exact ⟨by rw [hback], hr⟩
    | @utf8 _ a ha =>
      cases hslot with
      | null _ htrue => exact absurd htrue hnull'
      | @utf8 _ b hb =>
        rw [canonical, canonical, List.cons_append, List.cons_append, List.cons.injEq,
          List.append_assoc, List.append_assoc] at h
        obtain ⟨hlength, hrest⟩ := length_append_inj ha hb h.2
        obtain ⟨hbytes, hr⟩ := List.append_inj hrest hlength
        have ha : fromUtf8 (utf8Bytes a) = some a := fromUtf8_eq_some.mpr rfl
        rw [hbytes, fromUtf8_eq_some.mpr rfl, Option.some.injEq] at ha
        exact ⟨by rw [ha], hr⟩
    | @binary _ a ha =>
      cases hslot with
      | null _ htrue => exact absurd htrue hnull'
      | @binary _ b hb =>
        rw [canonical, canonical, List.cons_append, List.cons_append, List.cons.injEq,
          List.append_assoc, List.append_assoc] at h
        obtain ⟨hlength, hrest⟩ := length_append_inj ha hb h.2
        obtain ⟨rfl, hr⟩ := List.append_inj hrest hlength
        exact ⟨rfl, hr⟩
    | @list child _ items ha hitems =>
      cases hslot with
      | null _ htrue => exact absurd htrue hnull'
      | @list _ _ items' hb hitems' =>
        rw [canonical, canonical, List.cons_append, List.cons_append, List.cons.injEq,
          List.append_assoc, List.append_assoc] at h
        obtain ⟨hlength, hrest⟩ := length_append_inj ha hb h.2
        obtain ⟨hall, hr⟩ := flatMap_append_inj hlength hitems hitems' (ihList child rfl) hrest
        rw [Value.logical, Value.logical, Value.logicalAll_eq_map, Value.logicalAll_eq_map, hall]
        exact ⟨rfl, hr⟩
    | @struct fields _ children hchildren =>
      cases hslot with
      | null _ htrue => exact absurd htrue hnull'
      | @struct _ _ children' hchildren' =>
        rw [canonical, canonical, List.cons_append, List.cons_append, List.cons.injEq] at h
        obtain ⟨hall, hr⟩ :=
          canonicalAll_append_inj hchildren hchildren' (ihStruct fields rfl) h.2
        rw [Value.logical, Value.logical, Value.logicalAll_eq_map, Value.logicalAll_eq_map, hall]
        exact ⟨rfl, hr⟩

/-! ## Accepted bytes are canonical -/

/-- The input starts with the canonical bytes of a value. -/
def Reads (field : Field) (input rest : Bytes) (value : Value) : Prop :=
  Fits field value ∧ value.logical = value ∧ input = canonical field value ++ rest

theorem times_sound {child : Field} {maxBytes : Nat}
    (ih : ∀ s s', checkValue child maxBytes s = .ok () s' → ∃ value, Reads child s.1 s'.1 value)
    {n : Nat} {s s' : Bytes × Nat} (h : times n (checkValue child maxBytes) s = .ok () s') :
    ∃ items : List Value, items.length = n ∧ (∀ item ∈ items, Fits child item) ∧
      items.map Value.logical = items ∧ s.1 = items.flatMap (canonical child) ++ s'.1 := by
  induction n generalizing s with
  | zero =>
    obtain ⟨-, rfl⟩ := pure_eq_ok.mp h
    exact ⟨[], rfl, by simp, rfl, rfl⟩
  | succ n ihn =>
    rw [times, bind_eq_ok] at h
    obtain ⟨_, t, hfirst, hrest⟩ := h
    obtain ⟨item, hfits, hlogical, hinput⟩ := ih s t hfirst
    obtain ⟨items, rfl, hall, hmap, htail⟩ := ihn hrest
    refine ⟨item :: items, rfl, List.forall_mem_cons.mpr ⟨hfits, hall⟩, ?_, ?_⟩
    · rw [List.map_cons, hlogical, hmap]
    · rw [hinput, htail, List.flatMap_cons, List.append_assoc]

theorem checkFields_sound {fields : List Field} {maxBytes : Nat}
    (ih : ∀ f ∈ fields, ∀ s s', checkValue f maxBytes s = .ok () s' →
      ∃ value, Reads f s.1 s'.1 value)
    {s s' : Bytes × Nat} (h : checkFields fields maxBytes s = .ok () s') :
    ∃ values : List Value, FitsAll fields values ∧ values.map Value.logical = values ∧
      s.1 = canonicalAll fields values ++ s'.1 := by
  induction fields generalizing s with
  | nil =>
    rw [checkFields] at h
    obtain ⟨-, rfl⟩ := pure_eq_ok.mp h
    exact ⟨[], by simp [FitsAll], rfl, by rw [canonicalAll.eq_def]; rfl⟩
  | cons field fields ihf =>
    rw [checkFields, bind_eq_ok] at h
    obtain ⟨_, t, hfirst, hrest⟩ := h
    obtain ⟨value, hfits, hlogical, hinput⟩ := ih field List.mem_cons_self s t hfirst
    obtain ⟨values, hall, hmap, htail⟩ :=
      ihf (fun f hf => ih f (List.mem_cons_of_mem _ hf)) hrest
    refine ⟨value :: values, by rw [FitsAll]; exact ⟨hfits, hall⟩, ?_, ?_⟩
    · rw [List.map_cons, hlogical, hmap]
    · rw [hinput, htail, canonicalAll, List.append_assoc]

theorem fits_null {name : String} {dataType : DataType} {nullable : Bool}
    (h : ¬ (nullable = false ∧ dataType.isNullType = false)) :
    Fits (.mk name dataType nullable) .null := by
  cases dataType <;> simp_all [Fits, DataType.isNullType]

theorem checkValue_sound (maxBytes : Nat) (field : Field) : ∀ s s' : Bytes × Nat,
    checkValue field maxBytes s = .ok () s' → ∃ value, Reads field s.1 s'.1 value := by
  induction field using Field.induction with
  | step name dataType nullable ihList ihStruct =>
    rintro ⟨input, size⟩ s' h
    rw [checkValue, bind_eq_ok] at h
    obtain ⟨marker, t, hmarker, h⟩ := h
    obtain ⟨rest, hinput, rfl⟩ := RowCursor.lift_eq_ok.mp hmarker
    obtain rfl := RowCursor.u8_eq_ok.mp hinput
    split at h
    · next hzero =>
      subst hzero
      split at h
      · cases h
      · next hnullable =>
        obtain ⟨n, -, rfl⟩ := count_eq_ok.mp h
        refine ⟨.null, fits_null hnullable, by rw [Value.logical], ?_⟩
        rw [canonical_of_isNull rfl]
        rfl
    split at h
    · next hone =>
      subst hone
      cases dataType with
      | null => rw [checkPresent] at h; cases h
      | boolean =>
        rw [checkPresent, bind_eq_ok] at h
        obtain ⟨b, t, hb, h⟩ := h
        obtain ⟨rest, hinput, rfl⟩ := RowCursor.lift_eq_ok.mp hb
        obtain rfl := RowCursor.u8_eq_ok.mp hinput
        split at h
        · cases h
        · next hle =>
          obtain ⟨n, -, rfl⟩ := count_eq_ok.mp h
          refine ⟨.boolean (decide (b = 1)), by simp [Fits], by rw [Value.logical], ?_⟩
          rw [canonical]
          have hcases : b = 0 ∨ b = 1 := by
            have hnat : b.toNat ≤ 1 := by
              simpa [UInt8.lt_iff_toNat_lt] using hle
            rcases Nat.le_one_iff_eq_zero_or_eq_one.mp hnat with h0 | h1
            · exact .inl (UInt8.toNat_inj.mp h0)
            · exact .inr (UInt8.toNat_inj.mp h1)
          obtain rfl | rfl := hcases <;> rfl
      | utf8 =>
        rw [checkPresent, bind_eq_ok] at h
        obtain ⟨value, t, hvalue, h⟩ := h
        obtain ⟨rest, hinput, rfl⟩ := RowCursor.lift_eq_ok.mp hvalue
        obtain ⟨-, rfl⟩ := RowCursor.bytes_eq_ok.mp hinput
        split at h
        · cases h
        · next hlength =>
          split at h
          · cases h
          · next hutf8 =>
            obtain ⟨n, -, rfl⟩ := count_eq_ok.mp h
            rw [Option.isNone_iff_eq_none, ← ne_eq, Option.ne_none_iff_exists'] at hutf8
            obtain ⟨string, hstring⟩ := hutf8
            obtain rfl := fromUtf8_eq_some.mp hstring
            refine ⟨.utf8 string, by rw [Fits]; omega, by rw [Value.logical], ?_⟩
            rw [canonical, List.cons_append, List.append_assoc]
      | binary =>
        rw [checkPresent, bind_eq_ok] at h
        obtain ⟨value, t, hvalue, h⟩ := h
        obtain ⟨rest, hinput, rfl⟩ := RowCursor.lift_eq_ok.mp hvalue
        obtain ⟨-, rfl⟩ := RowCursor.bytes_eq_ok.mp hinput
        split at h
        · cases h
        · next hlength =>
          obtain ⟨n, -, rfl⟩ := count_eq_ok.mp h
          refine ⟨.binary value, by rw [Fits]; omega, by rw [Value.logical], ?_⟩
          rw [canonical, List.cons_append, List.append_assoc]
      | list child =>
        rw [checkPresent, bind_eq_ok] at h
        obtain ⟨length, t, hlength, h⟩ := h
        obtain ⟨rest, hinput, rfl⟩ := RowCursor.lift_eq_ok.mp hlength
        obtain ⟨-, rfl⟩ := RowCursor.length_eq_ok.mp hinput
        split at h
        · cases h
        · next hbound =>
          rw [bind_eq_ok] at h
          obtain ⟨s, t, hget, h⟩ := h
          obtain ⟨rfl, rfl⟩ := get_eq_ok.mp hget
          split at h
          · cases h
          · rw [bind_eq_ok] at h
            obtain ⟨_, t, hcount, h⟩ := h
            obtain ⟨n, -, rfl⟩ := count_eq_ok.mp hcount
            obtain ⟨items, rfl, hfits, hlogical, hrest⟩ := times_sound (ihList child rfl) h
            refine ⟨.list items, by rw [Fits]; exact ⟨by omega, hfits⟩, ?_, ?_⟩
            · rw [Value.logical, Value.logicalAll_eq_map, hlogical]
            · dsimp only at hrest
              rw [canonical, List.cons_append, List.append_assoc, ← hrest]
      | struct fields =>
        rw [checkPresent, bind_eq_ok] at h
        obtain ⟨_, t, hcount, h⟩ := h
        obtain ⟨n, -, rfl⟩ := count_eq_ok.mp hcount
        obtain ⟨children, hfits, hlogical, hrest⟩ := checkFields_sound (ihStruct fields rfl) h
        refine ⟨.struct children, by rw [Fits]; exact hfits, ?_, ?_⟩
        · rw [Value.logical, Value.logicalAll_eq_map, hlogical]
        · dsimp only at hrest
          rw [canonical, List.cons_append, ← hrest]
      | fixed type =>
        rw [checkPresent, bind_eq_ok] at h
        obtain ⟨_, t, hskip, h⟩ := h
        obtain ⟨rest, hinput, rfl⟩ := RowCursor.lift_eq_ok.mp hskip
        obtain ⟨bytes, hlength, rfl⟩ := RowCursor.skip_eq_ok.mp hinput
        obtain ⟨n, -, rfl⟩ := count_eq_ok.mp h
        obtain ⟨k, hk⟩ := type.width_eq_succ
        refine ⟨.fixed type.width (fromBeBytes (8 * type.width) bytes), by rw [Fits],
          by rw [Value.logical], ?_⟩
        rw [canonical, beBytes_fromBeBytes (by rw [hk]) (by omega), List.cons_append]
    · cases h

/-! ## Arrow bytes of a value -/

mutual

/-- The Arrow bytes of some null or absent slots, or of an empty array. -/
def shapeSize : Field → Nat → Nat
  | .mk _ dataType _, rows =>
    match dataType with
    | .null => 0
    | .list child => saturatingMul (max rows 1) 4 +
        ((if rows = 0 then 2 * arrayRef + shapeSize child 0 else 0) + (rows + 7) / 8)
    | .struct fields =>
        (if rows = 0 then saturatingMul fields.length (2 * arrayRef) else 0) +
          (shapeSizes fields rows + (rows + 7) / 8)
    | .utf8 | .binary => saturatingMul (max rows 1) 4 + (rows + 7) / 8
    | .boolean => saturatingMul rows 1 + (rows + 7) / 8
    | .fixed type => saturatingMul rows type.width + (rows + 7) / 8

def shapeSizes : List Field → Nat → Nat
  | [], _ => 0
  | field :: fields, rows => shapeSize field rows + shapeSizes fields rows

end

theorem decodedShapes_adds {fields : List Field} {maxBytes : Nat} (rows : Nat)
    (ih : ∀ f ∈ fields, ∀ rows, Adds maxBytes (fun size => decodedArrayShape f rows size maxBytes)
      (shapeSize f rows)) :
    Adds maxBytes (fun size => decodedShapes fields rows size maxBytes)
      (shapeSizes fields rows) := by
  induction fields with
  | nil =>
    rw [shapeSizes]
    simp only [decodedShapes]
    exact .ok
  | cons field fields ihf =>
    rw [shapeSizes]
    simp only [decodedShapes]
    exact .seq (ih field List.mem_cons_self rows) (ihf fun f hf => ih f (List.mem_cons_of_mem _ hf))

theorem decodedArrayShape_adds (maxBytes : Nat) (field : Field) : ∀ rows,
    Adds maxBytes (fun size => decodedArrayShape field rows size maxBytes)
      (shapeSize field rows) := by
  induction field using Field.induction with
  | step name dataType nullable ihList ihStruct =>
    intro rows
    cases dataType with
    | null =>
      rw [shapeSize]
      simp only [decodedArrayShape]
      exact .ok
    | list child =>
      rw [shapeSize]
      simp only [decodedArrayShape]
      -- the values of an empty list array are counted with it
      by_cases hrows : rows = 0
      · simp only [if_pos hrows, Nat.add_assoc (2 * arrayRef)]
        exact .seq (.size _) (.seq (.size _) (.seq (ihList child rfl 0) (.size _)))
      · simp only [if_neg hrows]
        exact .seq (.size _) (.seq .ok (.size _))
    | struct fields =>
      rw [shapeSize]
      simp only [decodedArrayShape]
      have hfields := decodedShapes_adds rows (ihStruct fields rfl)
      by_cases hrows : rows = 0
      · simp only [if_pos hrows]
        exact .seq (.size _) (.seq hfields (.size _))
      · simp only [if_neg hrows]
        exact .seq .ok (.seq hfields (.size _))
    | _ =>
      rw [shapeSize]
      simp only [decodedArrayShape]
      exact .seq (.size _) (.size _)

mutual

/-- The Arrow bytes of a value. -/
def valueSize : Field → Value → Nat
  | .mk name dataType nullable, value =>
    match dataType, value with
    | .boolean, .boolean _ => 2
    | .fixed type, .fixed _ _ => type.width + 1
    | .utf8, .utf8 value => (utf8Bytes value).length + 5
    | .binary, .binary value => value.length + 5
    | .list child, .list items => 5 + (items.map (valueSize child)).sum
    | .struct fields, .struct children => 1 + valueSizes fields children
    | dataType, _ => shapeSize (.mk name dataType nullable) 1

def valueSizes : List Field → List Value → Nat
  | field :: fields, value :: values => valueSize field value + valueSizes fields values
  | _, _ => 0

end

/-! ## Canonical bytes are accepted -/

/-- Consumes the bytes and counts a number, when there is room for it. -/
def Accepts (maxBytes : Nat) (x : Checker) (bytes : Bytes) (n : Nat) : Prop :=
  ∀ rest size, Room (some maxBytes) (size + n) → x (bytes ++ rest, size) = .ok () (rest, size + n)

section Accepting

variable {maxBytes m n : Nat} {x y : Checker} {a b : Bytes}

theorem Accepts.pure : Accepts maxBytes (pure ()) [] 0 := fun _ _ _ => rfl

theorem Accepts.seq (hx : Accepts maxBytes x a m) (hy : Accepts maxBytes y b n) :
    Accepts maxBytes (x >>= fun _ => y) (a ++ b) (m + n) := by
  intro rest size hroom
  rw [← Nat.add_assoc] at hroom ⊢
  rw [List.append_assoc, bind_of_ok (hx _ size (hroom.mono (Nat.le_add_right _ _)))]
  exact hy rest _ hroom

theorem Accepts.count {f : Nat → Except RowError Nat} (h : Adds maxBytes f n) :
    Accepts maxBytes (count f) [] n := by
  intro rest size hroom
  exact count_eq_ok.mpr ⟨_, (h size (hroom.mono (Nat.le_add_right _ _))).1 hroom, rfl⟩

/-- Bytes that are read before any are counted. -/
theorem Accepts.read {α : Type} {r : RowCursor α} {f : α → Checker} {v : α}
    (hr : ∀ rest, r (a ++ rest) = .ok v rest) (hf : Accepts maxBytes (f v) b n) :
    Accepts maxBytes (r.lift >>= f) (a ++ b) n := by
  intro rest size hroom
  rw [List.append_assoc, bind_of_ok (RowCursor.lift_eq_ok.mpr ⟨_, hr _, rfl⟩)]
  exact hf rest size hroom

end Accepting

theorem times_accepts {child : Field} {maxBytes : Nat} {items : List Value}
    (h : ∀ item ∈ items, Accepts maxBytes (checkValue child maxBytes) (canonical child item)
      (valueSize child item)) :
    Accepts maxBytes (times items.length (checkValue child maxBytes))
      (items.flatMap (canonical child)) (items.map (valueSize child)).sum := by
  induction items with
  | nil => exact .pure
  | cons item items ih =>
    rw [List.flatMap_cons, List.map_cons, List.sum_cons]
    exact .seq (h item List.mem_cons_self) (ih fun i hi => h i (List.mem_cons_of_mem _ hi))

theorem checkFields_accepts {fields : List Field} {maxBytes : Nat} {values : List Value}
    (hfits : FitsAll fields values)
    (ih : ∀ f ∈ fields, ∀ value, Fits f value →
      Accepts maxBytes (checkValue f maxBytes) (canonical f value) (valueSize f value)) :
    Accepts maxBytes (checkFields fields maxBytes) (canonicalAll fields values)
      (valueSizes fields values) := by
  induction fields generalizing values with
  | nil =>
    rw [checkFields, canonicalAll.eq_def, valueSizes.eq_def]
    exact .pure
  | cons field fields ihf =>
    rw [fitsAll_iff, List.forall₂_cons_left_iff] at hfits
    obtain ⟨value, values, hvalue, hvalues, rfl⟩ := hfits
    rw [checkFields, canonicalAll, valueSizes]
    exact .seq (ih field List.mem_cons_self value hvalue)
      (ihf (fitsAll_iff.mpr hvalues) fun f hf => ih f (List.mem_cons_of_mem _ hf))

theorem valueSize_of_isNull {field : Field} {value : Value} (h : value.isNull = true) :
    valueSize field value = shapeSize field 1 := by
  cases field with
  | mk name dataType nullable =>
    cases value with
    | null => cases dataType <;> rw [valueSize.eq_def]
    | masked children => cases dataType <;> rw [valueSize.eq_def]
    | _ => cases h

/-- The marker of a null is accepted where a null may stand. -/
theorem null_accepts {name : String} {dataType : DataType} {nullable : Bool} {maxBytes : Nat}
    (h : ¬ (nullable = false ∧ dataType.isNullType = false)) :
    Accepts maxBytes (checkValue (.mk name dataType nullable) maxBytes) [0]
      (shapeSize (.mk name dataType nullable) 1) := by
  rw [checkValue]
  refine .read (a := [0]) (b := []) (fun rest => RowCursor.u8_eq_ok.mpr rfl) ?_
  rw [if_pos rfl, if_neg h]
  exact .count (decodedArrayShape_adds maxBytes _ 1)

/-- After the marker of a value that is there comes the value. -/
theorem present_accepts {name : String} {dataType : DataType} {nullable : Bool}
    {maxBytes n : Nat} {bytes : Bytes}
    (h : Accepts maxBytes (checkPresent dataType maxBytes) bytes n) :
    Accepts maxBytes (checkValue (.mk name dataType nullable) maxBytes) (1 :: bytes) n := by
  rw [checkValue]
  exact .read (a := [1]) (fun rest => RowCursor.u8_eq_ok.mpr rfl) h

theorem checkValue_complete (maxBytes : Nat) (field : Field) : ∀ value, Fits field value →
    Accepts maxBytes (checkValue field maxBytes) (canonical field value)
      (valueSize field value) := by
  induction field using Field.induction with
  | step name dataType nullable ihList ihStruct =>
    intro value hfits
    cases hfits.slot with
    | nullType =>
      rw [canonical_of_isNull rfl, valueSize_of_isNull rfl]
      exact null_accepts (by simp [DataType.isNullType])
    | null hne hnull =>
      rw [canonical_of_isNull hnull, valueSize_of_isNull hnull]
      exact null_accepts (by simp)
    | @boolean _ b =>
      rw [canonical, valueSize]
      refine present_accepts ?_
      rw [checkPresent]
      refine .read (a := [if b then 1 else 0]) (b := [])
        (fun rest => RowCursor.u8_eq_ok.mpr rfl) ?_
      rw [if_neg (by cases b <;> decide)]
      exact .count (.size 2)
    | @fixed type _ bits =>
      rw [canonical, valueSize, ← List.append_nil (beBytes bits)]
      refine present_accepts ?_
      rw [checkPresent]
      refine .read (v := ()) (fun rest => RowCursor.skip_eq_ok.mpr ⟨_, ?_, rfl⟩) (.count (.size _))
      exact type.length_beBytes bits
    | @utf8 _ value hlength =>
      rw [canonical, valueSize, ← List.append_nil (toBE 8 _ ++ _)]
      refine present_accepts ?_
      rw [checkPresent]
      refine .read (v := utf8Bytes value) (fun rest => RowCursor.bytes_eq_ok.mpr ⟨?_, ?_⟩) ?_
      · omega
      · rw [List.append_assoc]
      · rw [if_neg (by omega), if_neg (by rw [fromUtf8_eq_some.mpr rfl]; simp)]
        exact .count (.size _)
    | @binary _ value hlength =>
      rw [canonical, valueSize, ← List.append_nil (toBE 8 _ ++ _)]
      refine present_accepts ?_
      rw [checkPresent]
      refine .read (v := value) (fun rest => RowCursor.bytes_eq_ok.mpr ⟨?_, ?_⟩) ?_
      · omega
      · rw [List.append_assoc]
      · rw [if_neg (by omega)]
        exact .count (.size _)
    | @list child _ items hlength hitems =>
      rw [canonical, valueSize]
      refine present_accepts ?_
      rw [checkPresent]
      refine .read (v := items.length) (fun rest => RowCursor.length_eq_ok.mpr ⟨by omega, rfl⟩) ?_
      rw [if_neg (by omega)]
      -- an item is at least a byte
      intro rest size hroom
      have hle : items.length ≤ (items.flatMap (canonical child)).length :=
        length_le_flatMap fun item _ => length_canonical_pos child item
      rw [bind_of_ok (get_eq_ok.mpr ⟨rfl, rfl⟩), if_neg (by rw [List.length_append]; omega)]
      refine Accepts.seq (a := []) (.count (.size 5)) (times_accepts ?_) rest size hroom
      exact fun item hitem => ihList child rfl item (hitems item hitem)
    | @struct fields _ children hchildren =>
      rw [canonical, valueSize]
      refine present_accepts ?_
      rw [checkPresent]
      exact .seq (a := []) (.count (.size 1))
        (checkFields_accepts hchildren (ihStruct fields rfl))

end Dogpaddle.Canonical
