import Dogpaddle.Debezium.Checkpoint

/-!
# The language of checkpoints

`IsImage` states the format itself: the bytes of two bindings and of strictly sorted
entries, with their lengths, limits and checksum. Each side is exact for it, apart from
what it takes for blank:

* the host accepts the images whose bindings are not blank to `str::trim`;
* the bridge decodes the images whose bindings are not blank to `String.isBlank`, and
  encodes exactly these.
-/

namespace Dogpaddle.Debezium

open Lib

/-! ## Strings -/

theorem decodeUtf8_encodeUtf8 (s : List Char) : decodeUtf8 (encodeUtf8 s) = some s := by
  unfold decodeUtf8 encodeUtf8
  have hencode : (s.flatMap String.utf8EncodeChar).toByteArray = s.utf8Encode := rfl
  rw [hencode, List.utf8Decode?_utf8Encode]
  simp

theorem encodeUtf8_of_decodeUtf8 {bytes : Bytes} {s : List Char} (h : decodeUtf8 bytes = some s) :
    encodeUtf8 s = bytes := by
  unfold decodeUtf8 at h
  obtain ⟨chars, hchars, rfl⟩ := Option.map_eq_some_iff.mp h
  have hsome : bytes.toByteArray.utf8Decode?.isSome = true := by rw [hchars]; rfl
  obtain ⟨l, hl⟩ := ByteArray.isSome_utf8Decode?_iff.mp hsome
  rw [hl, List.utf8Decode?_utf8Encode] at hchars
  rw [← Option.some.inj hchars]
  have hbytes : bytes.toByteArray = (l.flatMap String.utf8EncodeChar).toByteArray := hl
  have hlist := congrArg (fun b => b.data.toList) hbytes
  simpa [encodeUtf8] using hlist.symm

theorem encodeUtf8_inj {s t : List Char} (h : encodeUtf8 s = encodeUtf8 t) : s = t := by
  have hs := decodeUtf8_encodeUtf8 s
  rw [h, decodeUtf8_encodeUtf8] at hs
  exact (Option.some.inj hs).symm

theorem encodeUtf8_ne_nil {s : List Char} (h : s ≠ []) : encodeUtf8 s ≠ [] := by
  intro hc
  exact h (encodeUtf8_inj (hc.trans rfl))

/-! ## The format -/

/-- A component is its length and its bytes. -/
def component (bytes : Bytes) : Bytes := toBE 4 bytes.length ++ bytes

def entryBytes (entry : Bytes × Bytes) : Bytes := component entry.1 ++ component entry.2

def bodyBytes (engineName connectorClass : List Char) (entries : List (Bytes × Bytes)) : Bytes :=
  magic ++ (toBE 2 version ++ (component (encodeUtf8 engineName) ++
    (component (encodeUtf8 connectorClass) ++
      (toBE 4 entries.length ++ entries.flatMap entryBytes))))

/-- A body with its checksum. -/
def sealed (body : Bytes) : Bytes := body ++ toBE 4 (crc32 body).toNat

/-- An offset entry within the limits. -/
def EntryFits (entry : Bytes × Bytes) : Prop :=
  entry.1 ≠ [] ∧ entry.1.length ≤ maxEntryBytes ∧ entry.2.length ≤ maxEntryBytes

/-- The bytes are the image of these bindings and entries. -/
structure IsImage (bytes : Bytes) (engineName connectorClass : List Char)
    (entries : List (Bytes × Bytes)) : Prop where
  bytes_eq : bytes = sealed (bodyBytes engineName connectorClass entries)
  length_le : bytes.length ≤ maxCheckpointBytes
  engineName_le : (encodeUtf8 engineName).length ≤ maxBindingBytes
  connectorClass_le : (encodeUtf8 connectorClass).length ≤ maxBindingBytes
  count_le : entries.length ≤ maxEntries
  fits : ∀ e ∈ entries, EntryFits e
  sorted : entries.Pairwise fun a b => a.1 < b.1

theorem component_append_inj {a b x y : Bytes} (ha : a.length < 256 ^ 4) (hb : b.length < 256 ^ 4)
    (h : component a ++ x = component b ++ y) : a = b ∧ x = y := by
  unfold component at h
  rw [List.append_assoc, List.append_assoc] at h
  obtain ⟨hlength, hrest⟩ := List.append_inj h (by simp)
  exact List.append_inj hrest ((toBE_inj ha hb).mp hlength)

/-- Bytes are the image of at most one pair of bindings. -/
theorem IsImage.unique {bytes : Bytes} {n c n' c' : List Char} {es es' : List (Bytes × Bytes)}
    (h : IsImage bytes n c es) (h' : IsImage bytes n' c' es') : n = n' ∧ c = c' := by
  have hlimit : maxBindingBytes < 256 ^ 4 := by decide
  have hbody : bodyBytes n c es = bodyBytes n' c' es' := by
    have hseal := h.bytes_eq.symm.trans h'.bytes_eq
    exact (List.append_inj' hseal (by simp)).1
  have hafter := List.append_cancel_left (List.append_cancel_left hbody)
  have hn := h.engineName_le
  have hn' := h'.engineName_le
  have hc := h.connectorClass_le
  have hc' := h'.connectorClass_le
  obtain ⟨hname, hrest⟩ := component_append_inj (by omega) (by omega) hafter
  obtain ⟨hclass, -⟩ := component_append_inj (by omega) (by omega) hrest
  exact ⟨encodeUtf8_inj hname, encodeUtf8_inj hclass⟩

/-- Splitting off the checksum. -/
theorem sealed_iff {bytes body : Bytes} : bytes = sealed body ↔ 4 ≤ bytes.length ∧
    bytes.take (bytes.length - 4) = body ∧
    (crc32 body).toNat = fromBE (bytes.drop (bytes.length - 4)) := by
  have hcrc : (crc32 body).toNat < 256 ^ 4 := (crc32 body).toNat_lt
  constructor
  · rintro rfl
    have hlength : (sealed body).length - 4 = body.length := by simp [sealed]
    rw [hlength]
    refine ⟨by simp [sealed], by simp [sealed], ?_⟩
    unfold sealed
    rw [List.drop_left, fromBE_toBE hcrc]
  · rintro ⟨hlength, hbody, hsum⟩
    have hdrop : (bytes.drop (bytes.length - 4)).length = 4 := by
      rw [List.length_drop]
      omega
    unfold sealed
    rw [hsum, toBE_fromBE hdrop, ← hbody, List.take_append_drop]

/-! ## Entries in order -/

/-- The entries are sorted, and lie after a key. -/
def SortedAfter (previous : Option Bytes) (entries : List (Bytes × Bytes)) : Prop :=
  (∀ p, previous = some p → ∀ e ∈ entries, p < e.1) ∧ entries.Pairwise fun a b => a.1 < b.1

theorem sortedAfter_nil (previous : Option Bytes) : SortedAfter previous [] :=
  ⟨fun _ _ _ h => (by cases h), List.Pairwise.nil⟩

theorem sortedAfter_cons {previous : Option Bytes} {entry : Bytes × Bytes}
    {entries : List (Bytes × Bytes)} :
    SortedAfter previous (entry :: entries) ↔
      ¬ (previous.any fun p => decide (entry.1 ≤ p)) = true ∧ SortedAfter (some entry.1) entries := by
  constructor
  · rintro ⟨hprevious, hsorted⟩
    obtain ⟨hhead, htail⟩ := List.pairwise_cons.mp hsorted
    refine ⟨?_, ?_, htail⟩
    · cases previous with
      | none => simp
      | some p => simpa using hprevious p rfl entry (by simp)
    · intro p hp e he
      rw [← Option.some.inj hp]
      exact hhead e he
  · rintro ⟨hprevious, hafter, hsorted⟩
    refine ⟨?_, List.pairwise_cons.mpr ⟨hafter entry.1 rfl, hsorted⟩⟩
    intro p hp e he
    subst hp
    have hlt : p < entry.1 := by simpa using hprevious
    rcases List.mem_cons.mp he with rfl | he
    · exact hlt
    · exact lt_trans hlt (hafter entry.1 rfl e he)

/-! ## The host reads images -/

namespace Rust

open Reader

theorem exact_bytesU32 {maximum : Nat} (label : String) (hmax : maximum < 256 ^ 4) :
    Exact (bytesU32 maximum label) fun b w => b.length ≤ maximum ∧ w = component b := by
  refine ((exact_unsigned 4).bind fun length => Exact.guard (length > maximum) _ fun _ =>
    exact_take length).congr fun b w => ?_
  constructor
  · rintro ⟨length, w₁, w₂, ⟨-, rfl⟩, ⟨hle, rfl, rfl⟩, rfl⟩
    exact ⟨by omega, rfl⟩
  · rintro ⟨hle, rfl⟩
    exact ⟨b.length, _, b, ⟨by omega, rfl⟩, ⟨by omega, rfl, rfl⟩, rfl⟩

theorem exact_utf8U32 {maximum : Nat} (label : String) (hmax : maximum < 256 ^ 4) :
    Exact (utf8U32 label maximum) fun s w =>
      (encodeUtf8 s).length ≤ maximum ∧ w = component (encodeUtf8 s) := by
  refine (Exact.bind (exact_bytesU32 label hmax)
    (?_ : ∀ bytes, Exact _ fun s w => bytes = encodeUtf8 s ∧ w = [])).congr fun s w => ?_
  · intro bytes
    cases hbytes : decodeUtf8 bytes with
    | none =>
      refine (exact_throw _).congr fun s w => ⟨fun h => h.elim, ?_⟩
      rintro ⟨rfl, -⟩
      rw [decodeUtf8_encodeUtf8] at hbytes
      cases hbytes
    | some s =>
      refine (exact_pure s).congr fun t w => and_congr_left fun _ => ?_
      constructor
      · rintro rfl
        exact (encodeUtf8_of_decodeUtf8 hbytes).symm
      · rintro rfl
        rw [decodeUtf8_encodeUtf8] at hbytes
        exact Option.some.inj hbytes
  · constructor
    · rintro ⟨bytes, w₁, w₂, ⟨hle, rfl⟩, ⟨rfl, rfl⟩, rfl⟩
      exact ⟨hle, List.append_nil _⟩
    · rintro ⟨hle, rfl⟩
      exact ⟨_, _, [], ⟨hle, rfl⟩, ⟨rfl, rfl⟩, (List.append_nil _).symm⟩

/-- A length read as a signed number. -/
theorem exact_i32 : Exact i32 fun i w => ∃ n : Nat, n < 256 ^ 4 ∧
    i = (if n < 2 ^ 31 then (n : Int) else (n : Int) - 2 ^ 32) ∧ w = toBE 4 n := by
  refine ((exact_unsigned 4).bind fun n => exact_pure _).congr fun i w => ?_
  constructor
  · rintro ⟨n, w₁, w₂, ⟨hlt, rfl⟩, ⟨rfl, rfl⟩, rfl⟩
    exact ⟨n, hlt, rfl, List.append_nil _⟩
  · rintro ⟨n, hlt, rfl, rfl⟩
    exact ⟨n, _, [], ⟨hlt, rfl⟩, ⟨rfl, rfl⟩, (List.append_nil _).symm⟩

theorem nonneg_iff {n : Nat} (hn : n < 256 ^ 4) :
    ¬ (if n < 2 ^ 31 then (n : Int) else (n : Int) - 2 ^ 32) < 0 ↔ n < 2 ^ 31 := by
  have : n < 2 ^ 32 := hn
  split <;> omega

theorem exact_readEntries (count : Nat) (previous : Option Bytes) :
    Exact (readEntries count previous) fun _ w => ∃ es : List (Bytes × Bytes),
      es.length = count ∧ SortedAfter previous es ∧ (∀ e ∈ es, EntryFits e) ∧
        w = es.flatMap entryBytes := by
  have hlimit : maxEntryBytes < 2 ^ 31 := by decide
  induction count generalizing previous with
  | zero =>
    refine (exact_pure ()).congr fun _ w => ?_
    constructor
    · rintro ⟨-, rfl⟩
      exact ⟨[], rfl, sortedAfter_nil previous, by simp, rfl⟩
    · rintro ⟨es, hes, -, -, rfl⟩
      rw [List.length_eq_zero_iff.mp hes]
      exact ⟨rfl, rfl⟩
  | succ count ih =>
    unfold readEntries
    refine ((exact_bytesU32 _ (by decide)).bind fun key => Exact.guard (key = []) _ fun _ =>
      Exact.guard _ _ fun _ => exact_i32.bind fun valueLength => Exact.guard (valueLength < 0) _
        fun _ => Exact.guard _ _ fun _ => (exact_take _).bind fun _ => ih (some key)).congr
      fun _ w => ?_
    constructor
    · rintro ⟨key, w₁, w₂, ⟨hkey, rfl⟩, ⟨hne, hafter, i, w₃, w₄, ⟨n, hn, rfl, rfl⟩, ⟨hpos, hle,
        value, w₅, w₆, ⟨rfl, hvalue⟩, ⟨es, hcount, hsorted, hfits, rfl⟩, rfl⟩, rfl⟩, rfl⟩
      have hn' := (nonneg_iff hn).mp hpos
      rw [if_pos hn', Int.toNat_natCast] at hvalue hle
      refine ⟨(key, w₅) :: es, by simp [hcount], sortedAfter_cons.mpr ⟨hafter, hsorted⟩, ?_, ?_⟩
      · intro e he
        rcases List.mem_cons.mp he with rfl | he
        · exact ⟨hne, hkey, by show w₅.length ≤ _; omega⟩
        · exact hfits e he
      · simp [entryBytes, component, hvalue]
    · rintro ⟨es, hcount, hsorted, hfits, rfl⟩
      cases es with
      | nil => cases hcount
      | cons e es =>
        obtain ⟨hafter, hsorted'⟩ := sortedAfter_cons.mp hsorted
        obtain ⟨hne, hkey, hvalue⟩ := hfits e (by simp)
        have hlt : e.2.length < 2 ^ 31 := by omega
        have hsigned : (if e.2.length < 2 ^ 31 then (e.2.length : Int)
            else (e.2.length : Int) - 2 ^ 32) = e.2.length := if_pos hlt
        refine ⟨e.1, _, _, ⟨hkey, rfl⟩, ⟨hne, hafter, (e.2.length : Int), _, _,
          ⟨e.2.length, lt_trans hlt (by decide), hsigned.symm, rfl⟩, ⟨by omega, ?_, e.2, e.2,
          es.flatMap entryBytes, ⟨rfl, rfl⟩, ⟨es, by simpa using hcount, hsorted',
            fun e' he' => hfits e' (by simp [he']), rfl⟩, rfl⟩, rfl⟩, ?_⟩
        · show ¬ (e.2.length : Int).toNat > maxEntryBytes
          omega
        · simp [entryBytes, component]

theorem exact_readBody : Exact readBody fun _ w => ∃ n c es,
    ¬ (isBlank n = true ∨ isBlank c = true) ∧ (encodeUtf8 n).length ≤ maxBindingBytes ∧
      (encodeUtf8 c).length ≤ maxBindingBytes ∧ es.length ≤ maxEntries ∧
      (∀ e ∈ es, EntryFits e) ∧ (es.Pairwise fun a b => a.1 < b.1) ∧ w = bodyBytes n c es := by
  have hmax : maxBindingBytes < 256 ^ 4 := by decide
  refine ((exact_take 8).bind fun found => Exact.guard (found ≠ magic) _ fun _ =>
    (exact_unsigned 2).bind fun found => Exact.guard (found ≠ version) _ fun _ =>
      (exact_utf8U32 _ hmax).bind fun n => (exact_utf8U32 _ hmax).bind fun c =>
        Exact.guard (isBlank n = true ∨ isBlank c = true) _ fun _ =>
          (exact_unsigned 4).bind fun count => Exact.guard (count > maxEntries) _ fun _ =>
            exact_readEntries count none).congr fun _ w => ?_
  constructor
  · rintro ⟨found, w₁, w₂, ⟨rfl, -⟩, ⟨hmagic, found', w₃, w₄, ⟨-, rfl⟩, ⟨hversion, n, w₅, w₆,
      ⟨hn, rfl⟩, ⟨c, w₇, w₈, ⟨hc, rfl⟩, ⟨hblank, count, w₉, w₁₀, ⟨-, rfl⟩, ⟨hcount, es, rfl,
      ⟨-, hsorted⟩, hfits, rfl⟩, rfl⟩, rfl⟩, rfl⟩, rfl⟩, rfl⟩
    have hmagic' : w₁ = magic := not_not.mp hmagic
    have hversion' : found' = version := not_not.mp hversion
    subst hmagic' hversion'
    exact ⟨n, c, es, hblank, hn, hc, by omega, hfits, hsorted, rfl⟩
  · rintro ⟨n, c, es, hblank, hn, hc, hcount, hfits, hsorted, rfl⟩
    have hlt : es.length < 256 ^ 4 := lt_of_le_of_lt hcount (by decide)
    exact ⟨magic, _, _, ⟨rfl, rfl⟩, ⟨not_not.mpr rfl, version, _, _, ⟨by decide, rfl⟩,
      ⟨not_not.mpr rfl, n, _, _, ⟨hn, rfl⟩, ⟨c, _, _, ⟨hc, rfl⟩, ⟨hblank, es.length, _, _,
      ⟨hlt, rfl⟩, ⟨by omega, es, rfl, ⟨fun _ h => (by cases h), hsorted⟩, hfits, rfl⟩, rfl⟩,
      rfl⟩, rfl⟩, rfl⟩, rfl⟩

/-- The host accepts the images whose bindings it does not take for blank. -/
theorem accepts_iff (bytes : Bytes) : accepts bytes = true ↔ ∃ n c es,
    IsImage bytes n c es ∧ ¬ (isBlank n = true ∨ isBlank c = true) := by
  have hvalidate : accepts bytes = true ↔ bytes.length ≤ maxCheckpointBytes ∧
      14 ≤ bytes.length ∧
      (crc32 (bytes.take (bytes.length - 4))).toNat = fromBE (bytes.drop (bytes.length - 4)) ∧
      ∃ u, readBody (bytes.take (bytes.length - 4)) = .ok (u, []) := by
    unfold accepts validate
    by_cases hmax : bytes.length > maxCheckpointBytes
    · rw [if_pos hmax]
      exact iff_of_false (by simp [Except.isOk, Except.toBool]) (by omega)
    · rw [if_neg hmax]
      by_cases hmin : bytes.length < 8 + 2 + 4
      · rw [if_pos hmin]
        exact iff_of_false (by simp [Except.isOk, Except.toBool]) (by omega)
      · rw [if_neg hmin]
        dsimp only
        by_cases hsum : (crc32 (bytes.take (bytes.length - 4))).toNat ≠
            fromBE (bytes.drop (bytes.length - 4))
        · rw [if_pos hsum]
          exact iff_of_false (by simp [Except.isOk, Except.toBool]) fun h => hsum h.2.2.1
        · rw [if_neg hsum]
          cases hread : readBody (bytes.take (bytes.length - 4)) with
          | error message => simp [Except.isOk, Except.toBool]
          | ok out =>
            obtain ⟨u, rest⟩ := out
            by_cases hrest : rest = []
            · simp only [hrest, ne_eq, not_true_eq_false, if_false]
              exact iff_of_true rfl ⟨by omega, by omega, not_not.mp hsum, u, trivial⟩
            · simp [hrest, Except.isOk, Except.toBool]
  rw [hvalidate]
  constructor
  · rintro ⟨hmax, hmin, hsum, u, hread⟩
    obtain ⟨n, c, es, hblank, hn, hc, hcount, hfits, hsorted, hbody⟩ := exact_readBody.whole.mp hread
    refine ⟨n, c, es, ⟨?_, hmax, hn, hc, hcount, hfits, hsorted⟩, hblank⟩
    exact sealed_iff.mpr ⟨by omega, hbody, by rw [← hbody]; exact hsum⟩
  · rintro ⟨n, c, es, himage, hblank⟩
    obtain ⟨hlength, hbody, hsum⟩ := sealed_iff.mp himage.bytes_eq
    refine ⟨himage.length_le, ?_, by rw [hbody]; exact hsum, (), ?_⟩
    · have := congrArg List.length hbody
      simp [bodyBytes, magic] at this
      omega
    · rw [hbody]
      exact exact_readBody.whole.mpr ⟨n, c, es, hblank, himage.engineName_le,
        himage.connectorClass_le, himage.count_le, himage.fits, himage.sorted, rfl⟩

end Rust

/-! ## The bridge reads images -/

namespace Java

open Reader

theorem exact_readInt : Exact readInt fun i w => ∃ n : Nat, n < 256 ^ 4 ∧
    i = (if n < 2 ^ 31 then (n : Int) else (n : Int) - 2 ^ 32) ∧ w = toBE 4 n := Rust.exact_i32

theorem exact_readRequiredBytes {maximum : Nat} (hmax : maximum < 2 ^ 31) :
    Exact (readRequiredBytes maximum) fun b w => b.length ≤ maximum ∧ w = component b := by
  have hrest : ∀ length : Int, Exact (do
      let available ← Reader.available
      if length < 0 ∨ length > maximum ∨ length > available then
        throw s!"invalid checkpoint component length {length}"
      else Reader.takeUpTo length.toNat : Reader Bytes)
      fun b w => w = b ∧ 0 ≤ length ∧ b.length = length.toNat ∧ b.length ≤ maximum := by
    intro length input b rest
    show (if length < 0 ∨ length > maximum ∨ length > (input.length : Int) then _
      else Reader.takeUpTo length.toNat : Reader Bytes) input = .ok (b, rest) ↔ _
    constructor
    · intro h
      split at h
      · cases h
      · next hok =>
        cases h
        refine ⟨_, ⟨rfl, by omega, ?_, ?_⟩, (List.take_append_drop length.toNat input).symm⟩ <;>
          rw [List.length_take] <;> omega
    · rintro ⟨w, ⟨rfl, hpos, hlength, hle⟩, rfl⟩
      rw [if_neg (by rw [List.length_append]; omega)]
      show Except.ok _ = _
      rw [← hlength, List.take_left, List.drop_left]
  refine (exact_readInt.bind hrest).congr fun b w => ?_
  constructor
  · rintro ⟨i, w₁, w₂, ⟨n, hn, rfl, rfl⟩, ⟨rfl, hpos, hlength, hle⟩, rfl⟩
    have hn' := (Rust.nonneg_iff hn).mp (by omega)
    rw [if_pos hn', Int.toNat_natCast] at hlength
    exact ⟨hle, by rw [component, hlength]⟩
  · rintro ⟨hle, rfl⟩
    have hlt : b.length < 2 ^ 31 := by omega
    exact ⟨b.length, _, b, ⟨b.length, lt_trans hlt (by decide), (if_pos hlt).symm, rfl⟩,
      ⟨rfl, by omega, by omega, hle⟩, rfl⟩

theorem exact_readCount {maximum : Nat} (description : String) (hmax : maximum < 2 ^ 31) :
    Exact (readCount maximum description) fun n w => n ≤ maximum ∧ w = toBE 4 n := by
  refine (exact_readInt.bind fun value => Exact.guard (value < 0 ∨ value > maximum) _ fun _ =>
    exact_pure value.toNat).congr fun n w => ?_
  constructor
  · rintro ⟨i, w₁, w₂, ⟨m, hm, rfl, rfl⟩, ⟨hok, rfl, rfl⟩, rfl⟩
    have hm' := (Rust.nonneg_iff hm).mp (by omega)
    rw [if_pos hm'] at hok ⊢
    exact ⟨by omega, by rw [List.append_nil, Int.toNat_natCast]⟩
  · rintro ⟨hle, rfl⟩
    have hlt : n < 2 ^ 31 := by omega
    exact ⟨n, _, [], ⟨n, lt_trans hlt (by decide), (if_pos hlt).symm, rfl⟩, ⟨by omega, by omega,
      rfl⟩, (List.append_nil _).symm⟩

section Decode

variable {newString : Bytes → List Char} (hnew : ∀ s, newString (encodeUtf8 s) = s)
include hnew

theorem exact_readRequiredUtf8 : Exact (readRequiredUtf8 newString) fun s w =>
    (encodeUtf8 s).length ≤ maxBindingBytes ∧ w = component (encodeUtf8 s) := by
  refine ((exact_readRequiredBytes (by decide)).bind fun encoded =>
    Exact.guard (encoded ≠ encodeUtf8 (newString encoded)) _ fun _ =>
      exact_pure (newString encoded)).congr fun s w => ?_
  constructor
  · rintro ⟨encoded, w₁, w₂, ⟨hle, rfl⟩, ⟨hcanonical, rfl, rfl⟩, rfl⟩
    have hcanonical' : encoded = encodeUtf8 (newString encoded) := not_not.mp hcanonical
    rw [← hcanonical']
    exact ⟨hle, List.append_nil _⟩
  · rintro ⟨hle, rfl⟩
    refine ⟨encodeUtf8 s, _, [], ⟨hle, rfl⟩, ⟨not_not.mpr ?_, ?_, rfl⟩, (List.append_nil _).symm⟩
    · rw [hnew]
    · exact (hnew s).symm

omit hnew in
theorem exact_readEntries (count : Nat) (previous : Option Bytes) (m : OrdMap Bytes Bytes) :
    Exact (readEntries count previous m) fun m' w => ∃ es : List (Bytes × Bytes),
      es.length = count ∧ SortedAfter previous es ∧ (∀ e ∈ es, EntryFits e) ∧
        w = es.flatMap entryBytes ∧ m' = es.foldl (fun m e => m.put e.1 e.2) m := by
  have hlimit : maxEntryBytes < 2 ^ 31 := by decide
  induction count generalizing previous m with
  | zero =>
    refine (exact_pure m).congr fun m' w => ?_
    constructor
    · rintro ⟨rfl, rfl⟩
      exact ⟨[], rfl, sortedAfter_nil previous, by simp, rfl, rfl⟩
    · rintro ⟨es, hes, -, -, rfl, rfl⟩
      rw [List.length_eq_zero_iff.mp hes]
      exact ⟨rfl, rfl⟩
  | succ count ih =>
    unfold readEntries
    refine ((exact_readRequiredBytes hlimit).bind fun key => Exact.guard (key.length = 0) _ fun _ =>
      Exact.guard _ _ fun _ => (exact_readRequiredBytes hlimit).bind fun value =>
        ih (some key) (m.put key value)).congr fun m' w => ?_
    constructor
    · rintro ⟨key, w₁, w₂, ⟨hkey, rfl⟩, ⟨hne, hafter, value, w₃, w₄, ⟨hvalue, rfl⟩, ⟨es, hcount,
        hsorted, hfits, rfl, rfl⟩, rfl⟩, rfl⟩
      refine ⟨(key, value) :: es, by simp [hcount], sortedAfter_cons.mpr ⟨hafter, hsorted⟩, ?_, ?_,
        rfl⟩
      · intro e he
        rcases List.mem_cons.mp he with rfl | he
        · exact ⟨fun hc => hne (List.length_eq_zero_iff.mpr hc), hkey, hvalue⟩
        · exact hfits e he
      · simp [entryBytes]
    · rintro ⟨es, hcount, hsorted, hfits, rfl, rfl⟩
      cases es with
      | nil => cases hcount
      | cons e es =>
        obtain ⟨hafter, hsorted'⟩ := sortedAfter_cons.mp hsorted
        obtain ⟨hne, hkey, hvalue⟩ := hfits e (by simp)
        refine ⟨e.1, _, _, ⟨hkey, rfl⟩, ⟨fun hc => hne (List.length_eq_zero_iff.mp hc), hafter, e.2,
          _, _, ⟨hvalue, rfl⟩, ⟨es, by simpa using hcount, hsorted',
            fun e' he' => hfits e' (by simp [he']), rfl, rfl⟩, rfl⟩, ?_⟩
        simp [entryBytes]

omit hnew in
/-- The magic bytes, or an input too short for them. -/
theorem exact_magic {α : Type} {r : Reader α} {writes : α → Bytes → Prop} (h : Exact r writes) :
    Exact (do
      let found ← Reader.takeUpTo 8
      if found ≠ magic then throw "checkpoint magic mismatch" else r)
      fun a w => ∃ w', w = magic ++ w' ∧ writes a w' := by
  intro input a rest
  show (if input.take 8 ≠ magic then throw "checkpoint magic mismatch" else r : Reader α)
    (input.drop 8) = .ok (a, rest) ↔ _
  constructor
  · intro hread
    split at hread
    · cases hread
    · next hmagic =>
      obtain ⟨w, hw, hrest⟩ := (h _ _ _).mp hread
      refine ⟨magic ++ w, ⟨w, rfl, hw⟩, ?_⟩
      rw [← not_not.mp hmagic, List.append_assoc, ← hrest, List.take_append_drop]
  · rintro ⟨w, ⟨w', rfl, hw'⟩, rfl⟩
    have htake : (magic ++ w' ++ rest).take 8 = magic := rfl
    have hdrop : (magic ++ w' ++ rest).drop 8 = w' ++ rest := rfl
    rw [htake, hdrop, if_neg (not_not.mpr rfl)]
    exact (h _ _ _).mpr ⟨w', hw', rfl⟩

theorem exact_readBody : Exact (readBody newString) fun out w => ∃ es,
    (encodeUtf8 out.1).length ≤ maxBindingBytes ∧ (encodeUtf8 out.2.1).length ≤ maxBindingBytes ∧
      es.length ≤ maxEntries ∧ (∀ e ∈ es, EntryFits e) ∧ (es.Pairwise fun a b => a.1 < b.1) ∧
      w = bodyBytes out.1 out.2.1 es ∧ out.2.2.entries = es := by
  refine (exact_magic ((exact_unsigned 2).bind fun found => Exact.guard (found ≠ version) _ fun _ =>
    (exact_readRequiredUtf8 hnew).bind fun n => (exact_readRequiredUtf8 hnew).bind fun c =>
      (exact_readCount _ (by decide)).bind fun count =>
        (exact_readEntries count none OrdMap.empty).bind fun entries =>
          exact_pure (n, c, entries))).congr fun out w => ?_
  constructor
  · rintro ⟨w', rfl, found, w₁, w₂, ⟨-, rfl⟩, ⟨hversion, n, w₃, w₄, ⟨hn, rfl⟩, ⟨c, w₅, w₆, ⟨hc, rfl⟩,
      ⟨count, w₇, w₈, ⟨hcount, rfl⟩, ⟨m, w₉, w₁₀, ⟨es, rfl, ⟨-, hsorted⟩, hfits, rfl, rfl⟩,
      ⟨rfl, rfl⟩, rfl⟩, rfl⟩, rfl⟩, rfl⟩, rfl⟩
    have hversion' : found = version := not_not.mp hversion
    subst hversion'
    refine ⟨es, hn, hc, hcount, hfits, hsorted, ?_, ?_⟩
    · rw [List.append_nil]
      rfl
    · exact OrdMap.entries_foldl_put es OrdMap.empty (fun _ h => (by cases h)) hsorted
  · obtain ⟨n, c, m⟩ := out
    rintro ⟨es, hn, hc, hcount, hfits, hsorted, rfl, hm⟩
    have hentries : m = es.foldl (fun m e => m.put e.1 e.2) OrdMap.empty := by
      have hfold := OrdMap.entries_foldl_put es OrdMap.empty (fun _ h => (by cases h)) hsorted
      have hsame : m.entries = (es.foldl (fun m e => m.put e.1 e.2) OrdMap.empty).entries :=
        hm.trans hfold.symm
      cases m
      generalize es.foldl (fun m e => m.put e.1 e.2) OrdMap.empty = folded at hsame
      cases folded
      cases hsame
      rfl
    exact ⟨_, rfl, version, _, _, ⟨by decide, rfl⟩, ⟨not_not.mpr rfl, n, _, _, ⟨hn, rfl⟩, ⟨c, _, _,
      ⟨hc, rfl⟩, ⟨es.length, _, _, ⟨hcount, rfl⟩, ⟨m, _, [], ⟨es, rfl, ⟨fun _ h => (by cases h),
      hsorted⟩, hfits, rfl, hentries⟩, ⟨rfl, rfl⟩, (List.append_nil _).symm⟩, rfl⟩, rfl⟩, rfl⟩, rfl⟩

theorem requireNonBlank_eq_ok {value : List Char} {description : String} {binding : Binding} :
    requireNonBlank newString value description = .ok binding ↔ binding.val = value := by
  unfold requireNonBlank
  constructor
  · intro h
    split at h
    · cases h
    · split at h
      · cases h
      · split at h
        · cases h
        · cases h
          rfl
  · rintro rfl
    have hlength := binding.property.2
    rw [dif_neg (by rw [binding.property.1]; simp), if_neg (not_not.mpr (hnew _).symm),
      dif_neg (by omega)]

theorem new_eq_ok {n c : List Char} {entries : OrdMap Bytes Bytes} {checkpoint : Checkpoint} :
    Checkpoint.new newString n c entries = .ok checkpoint ↔ checkpoint.engineName.val = n ∧
      checkpoint.connectorClass.val = c ∧ checkpoint.entries = entries := by
  unfold Checkpoint.new
  constructor
  · intro h
    cases hn : requireNonBlank newString n "engine name" with
    | error message => rw [hn] at h; cases h
    | ok engineName =>
      rw [hn] at h
      cases hc : requireNonBlank newString c "connector class" with
      | error message => rw [hc] at h; cases h
      | ok connectorClass =>
        rw [hc] at h
        cases h
        exact ⟨(requireNonBlank_eq_ok hnew).mp hn, (requireNonBlank_eq_ok hnew).mp hc, rfl⟩
  · rintro ⟨hn, hc, rfl⟩
    rw [(requireNonBlank_eq_ok hnew).mpr hn, (requireNonBlank_eq_ok hnew).mpr hc]
    rfl

omit hnew in
/-- A binding takes at least one byte. -/
theorem length_pos_of_present {s : List Char} (h : isBlank s = false) :
    0 < (encodeUtf8 s).length := by
  refine List.length_pos_iff.mpr (encodeUtf8_ne_nil ?_)
  rintro rfl
  cases h

/-- The bridge decodes the images whose bindings it does not take for blank. -/
theorem decode_eq_ok (bytes : Bytes) (checkpoint : Checkpoint) :
    decode newString bytes = .ok checkpoint ↔ IsImage bytes checkpoint.engineName.val
      checkpoint.connectorClass.val checkpoint.entries.entries := by
  unfold decode
  constructor
  · intro h
    split at h
    · cases h
    · next hmax =>
      split at h
      · cases h
      · next hmin =>
        dsimp only at h
        split at h
        · cases h
        · next hsum =>
          cases hread : readBody newString (bytes.take (bytes.length - 4)) with
          | error message => rw [hread] at h; cases h
          | ok out =>
            obtain ⟨⟨n, c, m⟩, rest⟩ := out
            rw [hread] at h
            dsimp only at h
            split at h
            · cases h
            · next hrest =>
              have hnil : rest = [] := List.length_eq_zero_iff.mp (not_not.mp hrest)
              subst hnil
              obtain ⟨hname, hclass, hm⟩ := (new_eq_ok hnew).mp h
              obtain ⟨es, hn, hc, hcount, hfits, hsorted, hbody, hes⟩ :=
                (exact_readBody hnew).whole.mp hread
              have hentries : checkpoint.entries.entries = es := by rw [hm]; exact hes
              rw [hname, hclass, hentries]
              refine ⟨?_, by omega, hn, hc, hcount, hfits, hsorted⟩
              refine sealed_iff.mpr ⟨by omega, hbody, ?_⟩
              have hbody' : bytes.take (bytes.length - 4) = bodyBytes n c es := hbody
              rw [← hbody']
              exact not_not.mp hsum
  · intro himage
    obtain ⟨hlength, hbody, hsum⟩ := sealed_iff.mp himage.bytes_eq
    have hname := length_pos_of_present checkpoint.engineName.property.1
    have hclass := length_pos_of_present checkpoint.connectorClass.property.1
    have hmin := congrArg List.length hbody
    simp [bodyBytes, magic, component] at hmin
    have hread : readBody newString (bodyBytes checkpoint.engineName.val
        checkpoint.connectorClass.val checkpoint.entries.entries) = .ok ((checkpoint.engineName.val,
          checkpoint.connectorClass.val, checkpoint.entries), []) :=
      (exact_readBody hnew).whole.mpr ⟨checkpoint.entries.entries, himage.engineName_le,
        himage.connectorClass_le, himage.count_le, himage.fits, himage.sorted, rfl, rfl⟩
    have hmax := himage.length_le
    rw [if_neg (by omega), if_neg (by omega)]
    dsimp only
    rw [if_neg (by rw [hbody]; exact not_not.mpr hsum), hbody, hread]
    dsimp only
    rw [if_neg (by simp)]
    exact (new_eq_ok hnew).mpr ⟨rfl, rfl, rfl⟩

end Decode

/-! ## The bridge writes images -/

theorem write_eq_ok {buffer bytes out : Bytes} : write buffer bytes = .ok out ↔
    out = buffer ++ bytes ∧ out.length ≤ maxCheckpointBytes - 4 := by
  unfold write
  split
  · next h =>
    refine iff_of_false (by simp) ?_
    rintro ⟨rfl, hle⟩
    rw [List.length_append] at hle
    omega
  · next h =>
    rw [Except.ok.injEq]
    constructor
    · rintro rfl
      exact ⟨rfl, by rw [List.length_append]; omega⟩
    · exact fun hout => hout.1.symm

theorem bind_ok_iff {α β : Type} {x : Except String α} {f : α → Except String β} {b : β} :
    (x >>= f) = .ok b ↔ ∃ a, x = .ok a ∧ f a = .ok b := by
  cases x with
  | error message => exact iff_of_false (by intro h; cases h) (by simp)
  | ok a => exact ⟨fun h => ⟨a, rfl, h⟩, fun ⟨a', ha, h⟩ => by cases ha; exact h⟩

theorem writeRequiredBytes_eq_ok {buffer value out : Bytes} :
    writeRequiredBytes buffer value = .ok out ↔
      out = buffer ++ component value ∧ out.length ≤ maxCheckpointBytes - 4 := by
  unfold writeRequiredBytes component
  rw [bind_ok_iff]
  constructor
  · rintro ⟨middle, hfirst, hsecond⟩
    obtain ⟨rfl, -⟩ := write_eq_ok.mp hfirst
    obtain ⟨rfl, hle⟩ := write_eq_ok.mp hsecond
    exact ⟨List.append_assoc _ _ _, hle⟩
  · rintro ⟨rfl, hle⟩
    refine ⟨buffer ++ toBE 4 value.length, write_eq_ok.mpr ⟨rfl, ?_⟩,
      write_eq_ok.mpr ⟨(List.append_assoc _ _ _).symm, hle⟩⟩
    simp only [List.length_append] at hle ⊢
    omega

theorem writeEntries_eq_ok (es : List (Bytes × Bytes)) {buffer out : Bytes}
    (hbuffer : buffer.length ≤ maxCheckpointBytes - 4) :
    writeEntries es buffer = .ok out ↔ (∀ e ∈ es, EntryFits e) ∧
      out = buffer ++ es.flatMap entryBytes ∧ out.length ≤ maxCheckpointBytes - 4 := by
  induction es generalizing buffer with
  | nil =>
    show Except.ok buffer = .ok out ↔ _
    rw [Except.ok.injEq]
    constructor
    · rintro rfl
      exact ⟨by simp, by simp, hbuffer⟩
    · rintro ⟨-, rfl, -⟩
      simp
  | cons e es ih =>
    unfold writeEntries
    by_cases hempty : e.1.length = 0
    · rw [if_pos hempty]
      refine iff_of_false (by simp) fun h => ?_
      exact (h.1 e (by simp)).1 (List.length_eq_zero_iff.mp hempty)
    · rw [if_neg hempty]
      by_cases hlarge : e.1.length > maxEntryBytes ∨ e.2.length > maxEntryBytes
      · rw [if_pos hlarge]
        refine iff_of_false (by simp) fun h => ?_
        obtain ⟨-, hkey, hvalue⟩ := h.1 e (by simp)
        omega
      · rw [if_neg hlarge, bind_ok_iff]
        have hfits : EntryFits e :=
          ⟨fun hc => hempty (List.length_eq_zero_iff.mpr hc), by omega, by omega⟩
        constructor
        · rintro ⟨first, hfirst, hrest⟩
          obtain ⟨second, hsecond, hrest⟩ := bind_ok_iff.mp hrest
          obtain ⟨rfl, -⟩ := writeRequiredBytes_eq_ok.mp hfirst
          obtain ⟨rfl, hle⟩ := writeRequiredBytes_eq_ok.mp hsecond
          obtain ⟨hall, rfl, hout⟩ := (ih hle).mp hrest
          refine ⟨fun e' he' => ?_, by simp [entryBytes], hout⟩
          rcases List.mem_cons.mp he' with rfl | he'
          · exact hfits
          · exact hall e' he'
        · rintro ⟨hall, rfl, hout⟩
          have hsplit : buffer ++ (e :: es).flatMap entryBytes =
              buffer ++ component e.1 ++ component e.2 ++ es.flatMap entryBytes := by
            simp [entryBytes]
          rw [hsplit] at hout
          have hsecond : (buffer ++ component e.1 ++ component e.2).length ≤
              maxCheckpointBytes - 4 := by
            rw [List.length_append] at hout
            omega
          have hfirst : (buffer ++ component e.1).length ≤ maxCheckpointBytes - 4 := by
            rw [List.length_append] at hsecond
            omega
          refine ⟨_, writeRequiredBytes_eq_ok.mpr ⟨rfl, hfirst⟩, ?_⟩
          refine bind_ok_iff.mpr ⟨_, writeRequiredBytes_eq_ok.mpr ⟨rfl, hsecond⟩, ?_⟩
          exact (ih hsecond).mpr ⟨fun e' he' => hall e' (by simp [he']), hsplit, hsplit ▸ hout⟩

/-- The bridge writes the image of a checkpoint. -/
theorem encode_eq_ok (checkpoint : Checkpoint) (bytes : Bytes) :
    encode checkpoint = .ok bytes ↔ IsImage bytes checkpoint.engineName.val
      checkpoint.connectorClass.val checkpoint.entries.entries := by
  have hlength : ∀ body : Bytes, (sealed body).length ≤ maxCheckpointBytes ↔
      body.length ≤ maxCheckpointBytes - 4 := by
    intro body
    have hmax : maxCheckpointBytes = 67108864 := rfl
    rw [sealed, List.length_append, length_toBE]
    omega
  have hwhole : bodyBytes checkpoint.engineName.val checkpoint.connectorClass.val
      checkpoint.entries.entries = [] ++ magic ++ toBE 2 version ++
        component (encodeUtf8 checkpoint.engineName.val) ++
        component (encodeUtf8 checkpoint.connectorClass.val) ++
        toBE 4 checkpoint.entries.entries.length ++
        checkpoint.entries.entries.flatMap entryBytes := by
    simp only [bodyBytes, List.nil_append, List.append_assoc]
  unfold encode
  simp only [bind_ok_iff]
  constructor
  · rintro ⟨b₁, h₁, b₂, h₂, b₃, h₃, b₄, h₄, hrest⟩
    obtain ⟨rfl, -⟩ := write_eq_ok.mp h₁
    obtain ⟨rfl, -⟩ := write_eq_ok.mp h₂
    obtain ⟨rfl, -⟩ := writeRequiredBytes_eq_ok.mp h₃
    obtain ⟨rfl, -⟩ := writeRequiredBytes_eq_ok.mp h₄
    split at hrest
    · cases hrest
    · next hcount =>
      obtain ⟨b₅, h₅, hrest⟩ := bind_ok_iff.mp hrest
      obtain ⟨b₆, h₆, hrest⟩ := bind_ok_iff.mp hrest
      obtain ⟨rfl, hle⟩ := write_eq_ok.mp h₅
      obtain ⟨hfits, rfl, hout⟩ := (writeEntries_eq_ok _ hle).mp h₆
      cases hrest
      rw [← hwhole] at hout ⊢
      exact ⟨rfl, (hlength _).mpr hout, checkpoint.engineName.property.2,
        checkpoint.connectorClass.property.2, by omega, hfits, checkpoint.entries.sorted⟩
  · intro himage
    have hout := (hlength _).mp (himage.bytes_eq ▸ himage.length_le)
    have hsum := congrArg List.length hwhole
    simp only [List.length_append] at hsum
    refine ⟨_, write_eq_ok.mpr ⟨rfl, ?_⟩, _, write_eq_ok.mpr ⟨rfl, ?_⟩, _,
      writeRequiredBytes_eq_ok.mpr ⟨rfl, ?_⟩, _, writeRequiredBytes_eq_ok.mpr ⟨rfl, ?_⟩, ?_⟩
    · simp only [List.length_append]
      omega
    · simp only [List.length_append]
      omega
    · simp only [List.length_append]
      omega
    · simp only [List.length_append]
      omega
    · have hcount := himage.count_le
      have hbuffer : ([] ++ magic ++ toBE 2 version ++
          component (encodeUtf8 checkpoint.engineName.val) ++
          component (encodeUtf8 checkpoint.connectorClass.val) ++
          toBE 4 checkpoint.entries.entries.length).length ≤ maxCheckpointBytes - 4 := by
        simp only [List.length_append]
        omega
      rw [if_neg (by omega)]
      refine bind_ok_iff.mpr ⟨_, write_eq_ok.mpr ⟨rfl, hbuffer⟩, ?_⟩
      refine bind_ok_iff.mpr ⟨_, (writeEntries_eq_ok _ hbuffer).mpr ⟨himage.fits, hwhole, hout⟩, ?_⟩
      rw [himage.bytes_eq]
      rfl

end Java

end Dogpaddle.Debezium
