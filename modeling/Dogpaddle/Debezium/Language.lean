import Dogpaddle.Debezium.Format

/-!
# One language, up to blank bindings

Host and bridge read the same format, but `str::trim` and `String.isBlank` disagree about
some characters: U+001C to U+001F are blank to the bridge only, U+0085, U+00A0, U+2007 and
U+202F to the host only. `checkpoint_language` says exactly where this shows.
-/

namespace Dogpaddle.Debezium

open Lib

/-- Some binding is made of white space only, to the host. -/
def RustBlank (n c : List Char) : Prop := Rust.isBlank n = true ∨ Rust.isBlank c = true

/-- Some binding is made of white space only, to the bridge. -/
def JavaBlank (n c : List Char) : Prop := Java.isBlank n = true ∨ Java.isBlank c = true

theorem javaBlank_iff {n c : List Char} :
    ¬ JavaBlank n c ↔ Java.isBlank n = false ∧ Java.isBlank c = false := by
  unfold JavaBlank
  rw [not_or, Bool.not_eq_true, Bool.not_eq_true]

/-- A character of its own blankness is a blank string for one side and none for the other. -/
theorem blank_differs : Rust.isBlank ['\u001c'] = false ∧ Java.isBlank ['\u001c'] = true ∧
    Rust.isBlank ['\u00a0'] = true ∧ Java.isBlank ['\u00a0'] = false := by
  decide

section Language

variable {newString : Bytes → List Char} (hnew : ∀ s, newString (encodeUtf8 s) = s)
include hnew

/-- The bridge accepts the images whose bindings are not blank to it. -/
theorem decodes_iff (bytes : Bytes) : (∃ k, Java.decode newString bytes = .ok k) ↔
    ∃ n c es, IsImage bytes n c es ∧ ¬ JavaBlank n c := by
  constructor
  · rintro ⟨k, hk⟩
    refine ⟨_, _, _, (Java.decode_eq_ok hnew bytes k).mp hk, ?_⟩
    exact javaBlank_iff.mpr ⟨k.engineName.property.1, k.connectorClass.property.1⟩
  · rintro ⟨n, c, es, himage, hblank⟩
    obtain ⟨hn, hc⟩ := javaBlank_iff.mp hblank
    exact ⟨⟨⟨n, hn, himage.engineName_le⟩, ⟨c, hc, himage.connectorClass_le⟩, ⟨es, himage.sorted⟩⟩,
      (Java.decode_eq_ok hnew _ _).mpr himage⟩

theorem accepts_iff_decodes (bytes : Bytes) :
    (Rust.accepts bytes = true ↔ ∃ k, Java.decode newString bytes = .ok k) ↔
      ∀ n c es, IsImage bytes n c es → (RustBlank n c ↔ JavaBlank n c) := by
  rw [Rust.accepts_iff, decodes_iff hnew]
  constructor
  · intro hsame n c es himage
    rw [← not_iff_not]
    constructor
    · intro hrust
      obtain ⟨n', c', es', himage', hjava⟩ := hsame.mp ⟨n, c, es, himage, hrust⟩
      obtain ⟨rfl, rfl⟩ := himage.unique himage'
      exact hjava
    · intro hjava
      obtain ⟨n', c', es', himage', hrust⟩ := hsame.mpr ⟨n, c, es, himage, hjava⟩
      obtain ⟨rfl, rfl⟩ := himage.unique himage'
      exact hrust
  · intro hblank
    constructor
    · rintro ⟨n, c, es, himage, hrust⟩
      exact ⟨n, c, es, himage, fun hjava => hrust ((hblank n c es himage).mpr hjava)⟩
    · rintro ⟨n, c, es, himage, hjava⟩
      exact ⟨n, c, es, himage, fun hrust => hjava ((hblank n c es himage).mp hrust)⟩

/-- Both sides read one language from a byte string exactly when its bindings, if it is an
image, are blank to both or to none. What the bridge writes it reads back, and the host
takes it exactly when no binding is blank to the host. -/
theorem checkpoint_language :
    (∀ bytes : Bytes,
      ((Rust.accepts bytes = true ↔ ∃ k, Java.decode newString bytes = .ok k) ∧
        ∀ k, Java.decode newString bytes = .ok k → Java.encode k = .ok bytes) ↔
      ∀ n c es, IsImage bytes n c es → (RustBlank n c ↔ JavaBlank n c)) ∧
    ∀ (k : Java.Checkpoint) (bytes : Bytes), Java.encode k = .ok bytes →
      ((Java.decode newString bytes = .ok k ∧ Rust.accepts bytes = true) ↔
        ¬ RustBlank k.engineName.val k.connectorClass.val) := by
  refine ⟨fun bytes => ?_, fun k bytes hencode => ?_⟩
  · have hround : ∀ k, Java.decode newString bytes = .ok k → Java.encode k = .ok bytes := by
      intro k hk
      exact (Java.encode_eq_ok k bytes).mpr ((Java.decode_eq_ok hnew bytes k).mp hk)
    rw [← accepts_iff_decodes hnew bytes]
    exact ⟨fun h => h.1, fun h => ⟨h, hround⟩⟩
  · have himage := (Java.encode_eq_ok k bytes).mp hencode
    have hdecode := (Java.decode_eq_ok hnew bytes k).mpr himage
    rw [Rust.accepts_iff]
    constructor
    · rintro ⟨-, n, c, es, himage', hblank⟩
      obtain ⟨hn, hc⟩ := himage.unique himage'
      rw [hn, hc]
      exact hblank
    · intro hblank
      exact ⟨hdecode, _, _, _, himage, hblank⟩

end Language

/-- A decoding that reads well-formed UTF-8. -/
def decodeOrEmpty (bytes : Bytes) : List Char := (decodeUtf8 bytes).getD []

theorem decodeOrEmpty_encodeUtf8 (s : List Char) : decodeOrEmpty (encodeUtf8 s) = s := by
  unfold decodeOrEmpty
  rw [decodeUtf8_encodeUtf8]
  rfl

/-- The image of one-character bindings without entries. -/
theorem isImage_short {a b : Char} (ha : (encodeUtf8 [a]).length ≤ 4)
    (hb : (encodeUtf8 [b]).length ≤ 4) :
    IsImage (sealed (bodyBytes [a] [b] [])) [a] [b] [] := by
  have hmax : maxCheckpointBytes = 67108864 := rfl
  have hbinding : maxBindingBytes = 1048576 := rfl
  refine ⟨rfl, ?_, by omega, by omega, by decide, by simp, List.Pairwise.nil⟩
  simp [sealed, bodyBytes, component, magic]
  omega

/-- The host and the bridge agree on a checkpoint bound to letters. -/
theorem checkpoint_language_letters :
    (∀ s, decodeOrEmpty (encodeUtf8 s) = s) ∧
      Rust.accepts (sealed (bodyBytes ['e'] ['c'] [])) = true ∧
      ((Rust.accepts (sealed (bodyBytes ['e'] ['c'] [])) = true ↔
        ∃ k, Java.decode decodeOrEmpty (sealed (bodyBytes ['e'] ['c'] [])) = .ok k) ∧
        ∀ k, Java.decode decodeOrEmpty (sealed (bodyBytes ['e'] ['c'] [])) = .ok k →
          Java.encode k = .ok (sealed (bodyBytes ['e'] ['c'] []))) := by
  have himage : IsImage (sealed (bodyBytes ['e'] ['c'] [])) ['e'] ['c'] [] :=
    isImage_short (by decide) (by decide)
  refine ⟨decodeOrEmpty_encodeUtf8, ?_, ?_⟩
  · exact (Rust.accepts_iff _).mpr ⟨_, _, _, himage, by decide⟩
  · refine ((checkpoint_language decodeOrEmpty_encodeUtf8).1 _).mpr fun n c es himage' => ?_
    obtain ⟨rfl, rfl⟩ := himage.unique himage'
    unfold RustBlank JavaBlank
    decide

/-- A file separator as the engine name: the host takes the checkpoint, the bridge does not. A
no-break space: the other way round. -/
theorem separator_accepted_by_host_only :
    (Rust.accepts (sealed (bodyBytes ['\u001c'] ['c'] [])) = true ∧
      ¬ ∃ k, Java.decode decodeOrEmpty (sealed (bodyBytes ['\u001c'] ['c'] [])) = .ok k) ∧
    (Rust.accepts (sealed (bodyBytes ['\u00a0'] ['c'] [])) = false ∧
      ∃ k, Java.decode decodeOrEmpty (sealed (bodyBytes ['\u00a0'] ['c'] [])) = .ok k) := by
  have hseparator : IsImage (sealed (bodyBytes ['\u001c'] ['c'] [])) ['\u001c'] ['c'] [] :=
    isImage_short (by decide) (by decide)
  have hspace : IsImage (sealed (bodyBytes ['\u00a0'] ['c'] [])) ['\u00a0'] ['c'] [] :=
    isImage_short (by decide) (by decide)
  refine ⟨⟨(Rust.accepts_iff _).mpr ⟨_, _, _, hseparator, by decide⟩, ?_⟩, ?_,
    (decodes_iff decodeOrEmpty_encodeUtf8 _).mpr ⟨_, _, _, hspace, ?_⟩⟩
  · rw [decodes_iff decodeOrEmpty_encodeUtf8]
    rintro ⟨n, c, es, himage, hblank⟩
    obtain ⟨rfl, rfl⟩ := hseparator.unique himage
    exact hblank (.inl blank_differs.2.1)
  · rw [← Bool.not_eq_true, Rust.accepts_iff]
    rintro ⟨n, c, es, himage, hblank⟩
    obtain ⟨rfl, rfl⟩ := hspace.unique himage
    exact hblank (.inl blank_differs.2.2.1)
  · unfold JavaBlank
    decide

end Dogpaddle.Debezium
