import Dogpaddle.Cdc.Rows
import Mathlib.Algebra.Order.BigOperators.Group.List

/-!
# Projection and delivery boundaries

The rows that a source reads are the row images of its records, whatever the projection and
however the connector cuts its deliveries.

* `convertRecords_eq_ok`: the rows of a delivery are its row images, completed.
* `textBytes_images`: row images are no longer than the records they come from, so the
  connector's limit on a delivery keeps the offsets of its arrays in range.
* `convertValues_eq_ok`: a delivery converts when all of its row images are whole. Neither the
  condition nor the slots that are kept depend on the projection (`convertValues_project`), and
  both split where the delivery does (`convertValues_append`).
-/

namespace Dogpaddle.Cdc

open Lib

variable {host : Host}

/-! ## Row images of a delivery -/

section Records

variable {α β : Type} {complete : Value → Except ConvertError α} {source : Source}
  {capturing : Bool} {s t : Conversion}

/-- Rows with their differences, completed from row images. -/
def Completed (complete : Value → Except ConvertError α) :
    List (Value × Int) → List (α × Int) → Prop :=
  List.Forall₂ fun image e => complete image.1 = .ok e.1 ∧ image.2 = e.2

/-- A computation of rows is one of row images, with the images completed. -/
def Splits (complete : Value → Except ConvertError α)
    (x : Except ConvertError (Conversion × List (α × Int)))
    (y : Except ConvertError (Conversion × List (Value × Int))) : Prop :=
  ∀ t events, x = .ok (t, events) ↔
    ∃ images, y = .ok (t, images) ∧ Completed complete images events

namespace Splits

theorem invalid (message : String) :
    Splits complete (Cdc.invalid message) (Cdc.invalid message) := by
  intro t events
  exact ⟨fun h => (nomatch h), fun ⟨_, h, _⟩ => (nomatch h)⟩

theorem none (s : Conversion) : Splits complete (.ok (s, [])) (.ok (s, [])) := by
  intro t events
  constructor
  · rintro ⟨⟩
    exact ⟨[], rfl, .nil⟩
  · rintro ⟨_, ⟨⟩, ⟨⟩⟩
    rfl

theorem one (s : Conversion) (image : Value) (diff : Int) :
    Splits complete (complete image >>= fun row => pure (s, [(row, diff)]))
      (Except.ok image >>= fun row => pure (s, [(row, diff)])) := by
  intro t events
  constructor
  · intro h
    obtain ⟨row, hrow, h⟩ := except_bind_eq_ok.mp h
    cases h
    exact ⟨_, rfl, .cons ⟨hrow, rfl⟩ .nil⟩
  · rintro ⟨_, ⟨⟩, _ | ⟨⟨hrow, rfl⟩, ⟨⟩⟩⟩
    rw [hrow]
    rfl

theorem two (s : Conversion) (image image' : Value) (diff diff' : Int) :
    Splits complete
      (complete image >>= fun old => complete image' >>= fun row =>
        pure (s, [(old, diff), (row, diff')]))
      (Except.ok image >>= fun old => Except.ok image' >>= fun row =>
        pure (s, [(old, diff), (row, diff')])) := by
  intro t events
  constructor
  · intro h
    obtain ⟨old, hold, h⟩ := except_bind_eq_ok.mp h
    obtain ⟨row, hrow, h⟩ := except_bind_eq_ok.mp h
    cases h
    exact ⟨_, rfl, .cons ⟨hold, rfl⟩ (.cons ⟨hrow, rfl⟩ .nil)⟩
  · rintro ⟨_, ⟨⟩, _ | ⟨⟨hold, rfl⟩, _ | ⟨⟨hrow, rfl⟩, ⟨⟩⟩⟩⟩
    rw [hold]
    show (complete image' >>= _) = _
    rw [hrow]
    rfl

theorem ite {c : Prop} [Decidable c]
    {x x' : Except ConvertError (Conversion × List (α × Int))}
    {y y' : Except ConvertError (Conversion × List (Value × Int))} (h : Splits complete x y)
    (h' : Splits complete x' y') :
    Splits complete (if c then x else x') (if c then y else y') := by
  by_cases hc : c
  · rwa [if_pos hc, if_pos hc]
  · rwa [if_neg hc, if_neg hc]

theorem bind {x : Except ConvertError β}
    {f : β → Except ConvertError (Conversion × List (α × Int))}
    {g : β → Except ConvertError (Conversion × List (Value × Int))}
    (h : ∀ b, Splits complete (f b) (g b)) : Splits complete (x >>= f) (x >>= g) := by
  cases x with
  | error e => exact fun t events => ⟨fun h => (nomatch h), fun ⟨_, h, _⟩ => (nomatch h)⟩
  | ok b => exact h b

end Splits

theorem splits_convertEvent (payload : Row) (marker : SnapshotMarker) (before after : Value) :
    Splits complete (convertEvent complete source capturing payload marker before after s)
      (convertEvent Except.ok source capturing payload marker before after s) :=
  .ite (.ite (.invalid _) (.ite (.invalid _) (.one _ _ _)))
    (.ite (.one _ _ _) (.ite (.two _ _ _ _ _) (.ite (.one _ _ _) (.invalid _))))

theorem splits_convertTableRecord (value : Value) (schema : Row) :
    Splits complete (convertTableRecord complete source capturing value schema s)
      (convertTableRecord Except.ok source capturing value schema s) := by
  refine .ite (.invalid _) (.bind fun _ => .bind fun payload => .bind fun marker => ?_)
  cases payload.get "before" with
  | none => exact .invalid _
  | some before =>
    dsimp only
    cases (payload.remove "before").get "after" with
    | none => exact .invalid _
    | some after => exact splits_convertEvent _ _ _ _

theorem splits_convertRecord (record : Record) :
    Splits complete (convertRecord complete host source capturing s record)
      (convertRecord Except.ok host source capturing s record) := by
  refine .ite (.invalid _) ?_
  cases record.value with
  | none => exact .ite (.none s) (.invalid _)
  | some bytes =>
    dsimp only
    cases host.fromSlice bytes with
    | none => exact .invalid _
    | some value =>
      refine .bind fun schema => .ite ?_ (.ite ?_ (splits_convertTableRecord value schema))
      · exact .bind fun payload => .bind fun s => .none s
      · exact .bind fun payload => .bind fun _ => .none s

/-- The rows of a delivery are its row images, completed. -/
theorem convertRecords_eq_ok {records : List Record} {events : List (α × Int)} :
    convertRecords complete host source capturing s records = .ok (t, events) ↔
      ∃ images, convertRecords Except.ok host source capturing s records = .ok (t, images) ∧
        Completed complete images events := by
  have hsplits : Splits complete (convertRecords complete host source capturing s records)
      (convertRecords Except.ok host source capturing s records) := by
    induction records generalizing s with
    | nil => exact .none s
    | cons record records ih =>
      intro t events
      unfold convertRecords
      constructor
      · intro h
        obtain ⟨⟨u, delta⟩, hrecord, h⟩ := except_bind_eq_ok.mp h
        obtain ⟨⟨v, later⟩, hrecords, h⟩ := except_bind_eq_ok.mp h
        cases h
        obtain ⟨images, himages, hcompleted⟩ := (splits_convertRecord record u delta).mp hrecord
        obtain ⟨images', himages', hcompleted'⟩ := (ih v later).mp hrecords
        refine ⟨images ++ images', ?_, List.rel_append hcompleted hcompleted'⟩
        rw [himages]
        show (convertRecords Except.ok host source capturing u records >>= _) = _
        rw [himages']
        rfl
      · rintro ⟨images, h, hcompleted⟩
        obtain ⟨⟨u, first⟩, hrecord, h⟩ := except_bind_eq_ok.mp h
        obtain ⟨⟨v, later⟩, hrecords, h⟩ := except_bind_eq_ok.mp h
        cases h
        have htake := (List.forall₂_take_append _ _ _ hcompleted.flip).flip
        have hdrop := (List.forall₂_drop_append _ _ _ hcompleted.flip).flip
        refine except_bind_eq_ok.mpr ⟨_, (splits_convertRecord record u _).mpr
          ⟨first, hrecord, htake⟩, ?_⟩
        refine except_bind_eq_ok.mpr ⟨_, (ih v _).mpr ⟨later, hrecords, hdrop⟩, ?_⟩
        show Except.ok (_, _ ++ _) = _
        rw [List.take_append_drop]
  exact hsplits t events

theorem convertRecords_append (xs ys : List Record) :
    convertRecords complete host source capturing s (xs ++ ys) =
      convertRecords complete host source capturing s xs >>= fun first =>
        convertRecords complete host source capturing first.1 ys >>= fun later =>
          pure (later.1, first.2 ++ later.2) := by
  induction xs generalizing s with
  | nil => exact (bind_pure (convertRecords complete host source capturing s ys)).symm
  | cons record xs ih =>
    rw [List.cons_append]
    simp only [convertRecords, ih, bind_assoc, pure_bind, List.append_assoc]

/-- The row images of one change event. While streaming, it leaves nothing behind. -/
theorem images_of_convertEvent {payload : Row} {marker : SnapshotMarker} {before after : Value}
    {images : List (Value × Int)}
    (h : convertEvent Except.ok source capturing payload marker before after s = .ok (t, images)) :
    (capturing = false → t = s) ∧
      (images = [(after, 1)] ∨ images = [(before, -1), (after, 1)] ∨ images = [(before, -1)]) := by
  unfold convertEvent at h
  dsimp only at h
  split_ifs at h with hread hcapturing hcomplete hcreate hupdate hdelete <;> cases h
  · refine ⟨fun hstreaming => ?_, .inl rfl⟩
    rw [hcapturing] at hstreaming
    cases hstreaming
  · exact ⟨fun _ => rfl, .inl rfl⟩
  · exact ⟨fun _ => rfl, .inr (.inl rfl)⟩
  · exact ⟨fun _ => rfl, .inr (.inr rfl)⟩

/-- The row images of a record are members of its value. -/
theorem images_of_convertRecord {record : Record} {images : List (Value × Int)}
    (h : convertRecord Except.ok host source capturing s record = .ok (t, images)) :
    (capturing = false → t = s) ∧
      (images = [] ∨ ∃ bytes value payload before after, record.value = some bytes ∧
        host.fromSlice bytes = some value ∧ objectField value "payload" = .ok payload ∧
        payload.get "before" = some before ∧ (payload.remove "before").get "after" = some after ∧
        (images = [(after, 1)] ∨ images = [(before, -1), (after, 1)] ∨
          images = [(before, -1)])) := by
  unfold convertRecord at h
  dsimp only at h
  split at h
  · cases h
  · cases hbytes : record.value with
    | none =>
      rw [hbytes] at h
      dsimp only at h
      split at h
      · cases h
        exact ⟨fun _ => rfl, .inl rfl⟩
      · cases h
    | some bytes =>
      rw [hbytes] at h
      dsimp only at h
      cases hvalue : host.fromSlice bytes with
      | none =>
        rw [hvalue] at h
        cases h
      | some value =>
        rw [hvalue] at h
        obtain ⟨schema, -, h⟩ := except_bind_eq_ok.mp h
        split at h
        · next hnotification =>
          obtain ⟨_, _, h⟩ := except_bind_eq_ok.mp h
          obtain ⟨_, _, h⟩ := except_bind_eq_ok.mp h
          cases h
          refine ⟨fun hstreaming => ?_, .inl rfl⟩
          rw [hstreaming] at hnotification
          cases hnotification
        · split at h
          · obtain ⟨_, _, h⟩ := except_bind_eq_ok.mp h
            obtain ⟨_, _, h⟩ := except_bind_eq_ok.mp h
            cases h
            exact ⟨fun _ => rfl, .inl rfl⟩
          · unfold convertTableRecord at h
            split at h
            · cases h
            · obtain ⟨_, _, h⟩ := except_bind_eq_ok.mp h
              obtain ⟨payload, hpayload, h⟩ := except_bind_eq_ok.mp h
              obtain ⟨marker, -, h⟩ := except_bind_eq_ok.mp h
              cases hbefore : payload.get "before" with
              | none =>
                rw [hbefore] at h
                cases h
              | some before =>
                rw [hbefore] at h
                dsimp only at h
                cases hafter : (payload.remove "before").get "after" with
                | none =>
                  rw [hafter] at h
                  cases h
                | some after =>
                  rw [hafter] at h
                  obtain ⟨hstays, himages⟩ := images_of_convertEvent h
                  exact ⟨hstays, .inr ⟨bytes, value, payload, before, after, rfl, hvalue,
                    hpayload, hbefore, hafter, himages⟩⟩

/-- While streaming, records leave nothing to the next ones. -/
theorem convertRecords_streaming {records : List Record} {images : List (Value × Int)}
    (h : convertRecords Except.ok host source false s records = .ok (t, images)) : t = s := by
  induction records generalizing s images with
  | nil =>
    cases h
    rfl
  | cons record records ih =>
    obtain ⟨⟨u, first⟩, hrecord, h⟩ := except_bind_eq_ok.mp h
    obtain ⟨⟨v, later⟩, hrecords, h⟩ := except_bind_eq_ok.mp h
    cases h
    exact (ih hrecords).trans ((images_of_convertRecord hrecord).1 rfl)

theorem zero_notMem_diffs {records : List Record} {images : List (Value × Int)}
    (h : convertRecords Except.ok host source capturing s records = .ok (t, images)) :
    ∀ e ∈ images, e.2 ≠ 0 := by
  induction records generalizing s images with
  | nil =>
    cases h
    simp
  | cons record records ih =>
    obtain ⟨⟨u, first⟩, hrecord, h⟩ := except_bind_eq_ok.mp h
    obtain ⟨⟨v, later⟩, hrecords, h⟩ := except_bind_eq_ok.mp h
    cases h
    refine List.forall_mem_append.mpr ⟨?_, ih hrecords⟩
    obtain ⟨-, himages⟩ := images_of_convertRecord hrecord
    rcases himages with rfl | ⟨_, _, _, _, _, _, _, _, _, _, rfl | rfl | rfl⟩
    all_goals simp

end Records

/-! ## Text -/

mutual

/-- The bytes of the text in a value. -/
def Value.textBytes : Value → Nat
  | .string value => value.utf8ByteSize
  | .array items => Value.textBytesAll items
  | .object members => Value.textBytesOf members
  | _ => 0

def Value.textBytesAll : List Value → Nat
  | [] => 0
  | item :: items => item.textBytes + Value.textBytesAll items

def Value.textBytesOf : List (String × Value) → Nat
  | [] => 0
  | (_, value) :: members => value.textBytes + Value.textBytesOf members

end

/-- What the libraries document. -/
structure Host.Standard (host : Host) : Prop where
  engine : host.engine.Standard
  /-- The streaming reader accepts the strings that are decoded. -/
  read_eq : ∀ s, host.engine.read s = (host.engine.decode s).isSome
  /-- A document spells out the text of its value. -/
  textBytes_le : ∀ bytes value, host.fromSlice bytes = some value →
    value.textBytes ≤ bytes.length

theorem textBytesOf_remove_le (row : Row) (name : String) :
    Value.textBytesOf (row.remove name) ≤ Value.textBytesOf row := by
  unfold Row.remove
  induction row with
  | nil => exact le_rfl
  | cons member row ih =>
    rw [List.filter_cons]
    split
    · exact Nat.add_le_add_left ih _
    · exact ih.trans (Nat.le_add_left _ _)

theorem textBytes_remove {row : Row} {name : String} {value : Value}
    (h : row.get name = some value) :
    value.textBytes + Value.textBytesOf (row.remove name) ≤ Value.textBytesOf row := by
  induction row with
  | nil => cases h
  | cons member row ih =>
    obtain ⟨other, first⟩ := member
    unfold Row.get at h
    rw [List.lookup_cons] at h
    by_cases hname : other = name
    · subst hname
      rw [beq_self_eq_true] at h
      cases h
      have hrest := textBytesOf_remove_le row other
      have hremove : Row.remove ((other, value) :: row) other = Row.remove row other :=
        List.filter_cons_of_neg (by simp)
      rw [hremove]
      exact Nat.add_le_add_left hrest _
    · have hbeq : (name == other) = false := beq_eq_false_iff_ne.mpr (Ne.symm hname)
      rw [hbeq] at h
      have hrest := ih h
      have hremove : Row.remove ((other, first) :: row) name =
          (other, first) :: Row.remove row name := List.filter_cons_of_pos (by simp [hname])
      rw [hremove]
      show _ + (_ + _) ≤ _ + _
      omega

theorem textBytes_get {row : Row} {name : String} {value : Value}
    (h : row.get name = some value) : value.textBytes ≤ Value.textBytesOf row :=
  (Nat.le_add_right _ _).trans (textBytes_remove h)

theorem textBytes_objectField {value : Value} {field : String} {row : Row}
    (h : objectField value field = .ok row) : Value.textBytesOf row ≤ value.textBytes := by
  unfold objectField Value.get at h
  cases value with
  | object members =>
    cases hget : Row.get members field with
    | none =>
      simp only [Value.asObject, Option.bind_some, hget, Option.bind_none] at h
      cases h
    | some inner =>
      cases inner with
      | object inner =>
        simp only [Value.asObject, Option.bind_some, hget] at h
        cases h
        exact textBytes_get hget
      | _ =>
        simp only [Value.asObject, Option.bind_some, hget] at h
        cases h
  | _ => cases h

def Record.size (record : Record) : Nat := record.value.elim 0 List.length

section Text

variable {source : Source} {capturing : Bool} {s t : Conversion}

theorem textBytes_imagesOf (hhost : host.Standard) {record : Record}
    {images : List (Value × Int)}
    (h : convertRecord Except.ok host source capturing s record = .ok (t, images)) :
    (images.map (·.1.textBytes)).sum ≤ record.size := by
  obtain ⟨-, himages⟩ := images_of_convertRecord h
  rcases himages with
    rfl | ⟨bytes, value, payload, before, after, hbytes, hvalue, hpayload, hbefore, hafter, himages⟩
  · exact Nat.zero_le _
  · have hsize : record.size = bytes.length := by rw [Record.size, hbytes, Option.elim_some]
    have hdocument := hhost.textBytes_le bytes value hvalue
    have hobject := textBytes_objectField hpayload
    have hold := textBytes_remove hbefore
    have hnew := textBytes_get hafter
    rcases himages with rfl | rfl | rfl
    · show after.textBytes + 0 ≤ _
      omega
    · show before.textBytes + (after.textBytes + 0) ≤ _
      omega
    · show before.textBytes + 0 ≤ _
      omega

/-- The row images of a delivery are no longer than its records. -/
theorem textBytes_images (hhost : host.Standard) {records : List Record}
    {images : List (Value × Int)}
    (h : convertRecords Except.ok host source capturing s records = .ok (t, images)) :
    (images.map (·.1.textBytes)).sum ≤ (records.map Record.size).sum := by
  induction records generalizing s images with
  | nil =>
    cases h
    exact le_rfl
  | cons record records ih =>
    obtain ⟨⟨u, first⟩, hrecord, h⟩ := except_bind_eq_ok.mp h
    obtain ⟨⟨v, later⟩, hrecords, h⟩ := except_bind_eq_ok.mp h
    cases h
    rw [List.map_append, List.sum_append, List.map_cons, List.sum_cons]
    exact Nat.add_le_add (textBytes_imagesOf hhost hrecord) (ih hrecords)

/-- A slot is no longer than the value it is read from. -/
theorem byteLength_parseScalar (hengine : host.engine.Standard) {dataType : DataType}
    {value : Value} {scalar : Scalar} (h : parseScalar host dataType value = some scalar) :
    scalar.byteLength ≤ value.textBytes := by
  have hfixed : ∀ {α : Type} {parsed : Option α} {f : α → Scalar},
      (∀ a, (f a).byteLength = 0) → parsed.map f = some scalar →
        scalar.byteLength ≤ value.textBytes := by
    intro α parsed f hf hparsed
    obtain ⟨a, -, rfl⟩ := Option.map_eq_some_iff.mp hparsed
    rw [hf a]
    exact Nat.zero_le _
  have hzero : ∀ n : Int, (Scalar.int n).byteLength = 0 := fun _ => rfl
  unfold parseScalar at h
  cases dataType with
  | utf8 =>
    obtain ⟨text, htext, rfl⟩ := Option.map_eq_some_iff.mp h
    rw [Value.asStr_eq_some_iff.mp htext]
    exact le_rfl
  | binary =>
    obtain ⟨bytes, hbytes, rfl⟩ := Option.map_eq_some_iff.mp h
    unfold Host.parseBinary at hbytes
    obtain ⟨text, htext, hdecode⟩ := Option.bind_eq_some_iff.mp hbytes
    rw [Value.asStr_eq_some_iff.mp htext]
    rw [hengine.decode_iff] at hdecode
    show bytes.length ≤ text.utf8ByteSize
    rw [hdecode, Base64.utf8ByteSize_encode]
    omega
  | boolean => exact hfixed (fun _ => rfl) h
  | float32 => exact hfixed (fun _ => rfl) h
  | float64 => exact hfixed (fun _ => rfl) h
  | timestamp unit timezone =>
    cases unit with
    | microsecond =>
      cases timezone with
      | none => exact hfixed hzero h
      | some zone =>
        dsimp only at h
        split at h
        · exact hfixed hzero h
        · cases h
    | second | millisecond | nanosecond => cases h
  | _ => exact hfixed hzero h

theorem dataBytes_slots (hengine : host.engine.Standard) (column : Field) (rows : List Row) :
    dataBytes (rows.map (slotOf host column)) ≤ (rows.map Value.textBytesOf).sum := by
  unfold dataBytes
  rw [List.map_map]
  refine List.sum_le_sum fun row _ => ?_
  show (slotOf host column row).elim 0 Scalar.byteLength ≤ _
  unfold slotOf rowSlot
  cases hvalue : row.get column.name with
  | none => exact Nat.zero_le _
  | some value =>
    refine le_trans ?_ (textBytes_get hvalue)
    rw [Option.bind_some, parseSlot]
    split
    · exact Nat.zero_le _
    · cases hparse : parseScalar host column.dataType value with
      | none => exact Nat.zero_le _
      | some scalar => exact byteLength_parseScalar hengine hparse

end Text

/-! ## Whole deliveries -/

/-- A row image of an object. -/
def image (e : Row × Int) : Value × Int := (.object e.1, e.2)

section Delivery

variable {columns : List Field} {p : List Nat} {events : List (Row × Int)}

theorem map_eq_of_forall₂ {α β γ : Type} {R : α → β → Prop} {l : List α} {l' : List β} {f : α → γ}
    {g : β → γ} (h : List.Forall₂ R l l') (hfg : ∀ a b, R a b → f a = g b) :
    l.map f = l'.map g := by
  induction h with
  | nil => rfl
  | cons hhead _ ih => rw [List.map_cons, List.map_cons, hfg _ _ hhead, ih]

/-- Rows that can be read come from whole row images. -/
theorem images_of_completed (hhost : host.Standard) (hnames : (columns.map (·.name)).Nodup)
    (hp : Ordered p columns.length) {images : List (Value × Int)}
    (h : Completed (completeRow host columns p) images events)
    (hreadable : ∀ e ∈ events, Readable host (pick p columns) e.1) :
    ∃ rows : List (Row × Int), images = rows.map image ∧ ∀ e ∈ rows, Whole host columns e.1 := by
  induction h with
  | nil => exact ⟨[], rfl, by simp⟩
  | @cons first e images events hfirst _ ih =>
    obtain ⟨he, hreadable⟩ := List.forall_mem_cons.mp hreadable
    obtain ⟨rows, rfl, hwhole⟩ := ih hreadable
    obtain ⟨value, diff⟩ := first
    obtain ⟨row, hvalue, hrow⟩ :=
      (completeRow_whole hhost.read_eq hnames hp).mp ⟨e.1, hfirst.1, he⟩
    refine ⟨(row, diff) :: rows, ?_, List.forall_mem_cons.mpr ⟨hrow, hwhole⟩⟩
    have hfirst : (value, diff) = image (row, diff) := congrArg (·, diff) hvalue
    rw [List.map_cons, hfirst]

/-- Whole row images can be completed and read. -/
theorem completed_of_whole (hhost : host.Standard) (hnames : (columns.map (·.name)).Nodup)
    (hp : Ordered p columns.length) {rows : List (Row × Int)}
    (h : ∀ e ∈ rows, Whole host columns e.1) :
    ∃ events, Completed (completeRow host columns p) (rows.map image) events ∧
      ∀ e ∈ events, Readable host (pick p columns) e.1 := by
  induction rows with
  | nil => exact ⟨[], .nil, by simp⟩
  | cons e rows ih =>
    obtain ⟨he, hrows⟩ := List.forall_mem_cons.mp h
    obtain ⟨events, hcompleted, hreadable⟩ := ih hrows
    obtain ⟨row, hrow, hrow'⟩ :=
      (completeRow_whole hhost.read_eq hnames hp).mpr ⟨e.1, rfl, he⟩
    exact ⟨(row, e.2) :: events, .cons ⟨hrow, rfl⟩ hcompleted,
      List.forall_mem_cons.mpr ⟨hrow', hreadable⟩⟩

/-- Completed rows fill the slots of their images. -/
theorem slots_of_completed (hhost : host.Standard) (hnames : (columns.map (·.name)).Nodup)
    (hp : Ordered p columns.length) {rows : List (Row × Int)}
    (h : Completed (completeRow host columns p) (rows.map image) events) :
    events.map (·.2) = rows.map (·.2) ∧ ∀ column ∈ pick p columns,
      events.map (fun e => slotOf host column e.1) = rows.map fun e => slotOf host column e.1 := by
  have hrows := List.forall₂_map_left_iff.mp h
  refine ⟨(map_eq_of_forall₂ hrows fun _ _ he => he.2).symm, fun column hcolumn => ?_⟩
  refine (map_eq_of_forall₂ hrows fun e e' he => ?_).symm
  rw [slotOf, slotOf, rowSlot, rowSlot, get_completeRow hhost.read_eq hnames hp he.1 hcolumn]

/-- The slots of whole rows fit their columns. -/
theorem slots_of_whole (hhost : host.Standard) {rows : List (Row × Int)}
    (h : ∀ e ∈ rows, Whole host columns e.1)
    (hbytes : ((rows.map image).map (·.1.textBytes)).sum < 2 ^ 31) {column : Field}
    (hcolumn : column ∈ columns) :
    dataBytes (rows.map fun e => slotOf host column e.1) < 2 ^ 31 ∧
      (column.isNullable = false → ∀ e ∈ rows, (slotOf host column e.1).isNone = false) := by
  constructor
  · have hslots := dataBytes_slots hhost.engine column (rows.map (·.1))
    rw [List.map_map, List.map_map] at hslots
    rw [List.map_map] at hbytes
    exact lt_of_le_of_lt hslots hbytes
  · intro hnullable e he
    obtain ⟨value, hvalue, hnull, hfalse | hsome⟩ := (h e he).2 column hcolumn
    · exact hfalse.elim
    · unfold slotOf rowSlot
      rw [hvalue, Option.bind_some]
      unfold parseSlot at hsome ⊢
      split
      · next hisNull =>
        rw [hnull hisNull] at hnullable
        cases hnullable
      · next hisNull =>
        rw [if_neg hisNull, Option.isSome_map] at hsome
        obtain ⟨scalar, hscalar⟩ := Option.isSome_iff_exists.mp hsome
        rw [hscalar]
        rfl

/-- Completed rows build the change of their images. -/
theorem changeOf_completed (hhost : host.Standard) (hnames : (columns.map (·.name)).Nodup)
    (hp : Ordered p columns.length) {rows : List (Row × Int)}
    (h : Completed (completeRow host columns p) (rows.map image) events) :
    changeOf host (pick p columns) (events.map (·.1)) (events.map (·.2)) =
      changeOf host (pick p columns) (rows.map (·.1)) (rows.map (·.2)) := by
  obtain ⟨hdiffs, hslots⟩ := slots_of_completed hhost hnames hp h
  have hlength : events.length = rows.length := by
    have hsame := congrArg List.length hdiffs
    rwa [List.length_map, List.length_map] at hsame
  have hcolumns : (pick p columns).map (slotsOf host (events.map (·.1))) =
      (pick p columns).map (slotsOf host (rows.map (·.1))) := by
    refine List.map_congr_left fun column hcolumn => ?_
    have hcolumn := hslots column hcolumn
    rw [slotsOf, slotsOf, List.map_map, List.map_map]
    exact congrArg (ArrayRef.mk column.dataType) hcolumn
  unfold changeOf
  rw [hdiffs, hcolumns, List.length_map, List.length_map, hlength]
  cases rows with
  | nil => rw [List.length_eq_zero_iff.mp hlength]
  | cons e rows =>
    obtain ⟨first, later, rfl⟩ := List.exists_cons_of_length_eq_add_one hlength
    rfl

theorem buildChange_completed (hhost : host.Standard) (hcolumns : Compiled columns)
    (hp : Ordered p columns.length) {images : List (Value × Int)} (hdiffs : ∀ e ∈ images, e.2 ≠ 0)
    (hbytes : (images.map (·.1.textBytes)).sum < 2 ^ 31)
    (h : Completed (completeRow host columns p) images events) {change : Option Change} :
    buildChange host columns p (pick p columns) (events.map (·.1)) (events.map (·.2)) =
        .ok change ↔
      (∀ e ∈ events, Readable host (pick p columns) e.1) ∧
        change = changeOf host (pick p columns) (events.map (·.1)) (events.map (·.2)) := by
  have hsame : images.map (·.2) = events.map (·.2) := map_eq_of_forall₂ h fun _ _ he => he.2
  have hzero : 0 ∉ events.map (·.2) := by
    rw [← hsame]
    intro hmem
    obtain ⟨e, he, hzero⟩ := List.mem_map.mp hmem
    exact hdiffs e he hzero
  rw [buildChange_eq_ok hcolumns hp (by simp) hzero ?_, List.forall_mem_map]
  intro hreadable column hcolumn
  obtain ⟨rows, rfl, hwhole⟩ :=
    images_of_completed hhost hcolumns.names hp h (List.forall_mem_map.mp hreadable)
  obtain ⟨-, hslots⟩ := slots_of_completed hhost hcolumns.names hp h
  have hfits := slots_of_whole hhost hwhole hbytes ((pick_sublist hp).subset hcolumn)
  have hcolumn := hslots column hcolumn
  rw [List.map_map, List.forall_mem_map]
  have hnone : column.isNullable = false → ∀ e ∈ events,
      (slotOf host column e.1).isNone = false := by
    intro hnullable e he
    have hmem : slotOf host column e.1 ∈ rows.map fun e => slotOf host column e.1 := by
      rw [← hcolumn]
      exact List.mem_map_of_mem he
    obtain ⟨e', he', hslot⟩ := List.mem_map.mp hmem
    rw [← hslot]
    exact hfits.2 hnullable e' he'
  refine ⟨?_, hnone⟩
  rw [← hcolumn] at hfits
  exact hfits.1

/-- A delivery converts exactly when its row images are whole, to the slots they fill. -/
theorem convertValues_eq_ok (hhost : host.Standard) {source : Source}
    (hcolumns : Compiled source.columns)
    (hp : Ordered source.outputProjection source.columns.length) {values : List Record}
    (hbytes : (values.map Record.size).sum < 2 ^ 31) {progress : Option SnapshotProgress}
    {captured : Captured} :
    convertValues host source (pick source.outputProjection source.columns) values progress =
        .ok captured ↔
      ∃ t, ∃ rows : List (Row × Int),
        convertRecords Except.ok host source progress.isSome ⟨progress.getD .default, false⟩
          values = .ok (t, rows.map image) ∧
        (∀ e ∈ rows, Whole host source.columns e.1) ∧
        captured = ⟨changeOf host (pick source.outputProjection source.columns) (rows.map (·.1))
          (rows.map (·.2)), t.isSealed, t.progress⟩ := by
  have hnames := hcolumns.names
  unfold convertValues
  constructor
  · intro h
    obtain ⟨⟨t, events⟩, hrecords, h⟩ := except_bind_eq_ok.mp h
    obtain ⟨change, hchange, h⟩ := except_bind_eq_ok.mp h
    cases h
    obtain ⟨images, himages, hcompleted⟩ := convertRecords_eq_ok.mp hrecords
    have hsmall := lt_of_le_of_lt (textBytes_images hhost himages) hbytes
    obtain ⟨hreadable, rfl⟩ := (buildChange_completed hhost hcolumns hp
      (zero_notMem_diffs himages) hsmall hcompleted).mp hchange
    obtain ⟨rows, rfl, hwhole⟩ := images_of_completed hhost hnames hp hcompleted hreadable
    refine ⟨t, rows, himages, hwhole, ?_⟩
    rw [changeOf_completed hhost hnames hp hcompleted]
  · rintro ⟨t, rows, himages, hwhole, rfl⟩
    obtain ⟨events, hcompleted, hreadable⟩ := completed_of_whole hhost hnames hp hwhole
    have hsmall := lt_of_le_of_lt (textBytes_images hhost himages) hbytes
    have hchange := (buildChange_completed hhost hcolumns hp (zero_notMem_diffs himages) hsmall
      hcompleted).mpr ⟨hreadable, changeOf_completed hhost hnames hp hcompleted |>.symm⟩
    refine except_bind_eq_ok.mpr ⟨_, convertRecords_eq_ok.mpr ⟨_, himages, hcompleted⟩, ?_⟩
    exact except_bind_eq_ok.mpr ⟨_, hchange, rfl⟩

end Delivery

/-! ## The two sources -/

theorem checkColumns_eq_ok {supported : DataType → Bool} {names : List String}
    {fields : List Field} (h : checkColumns supported names fields = .ok ()) :
    (∀ field ∈ fields, supported field.dataType = true) ∧ (fields.map (·.name)).Nodup ∧
      ∀ field ∈ fields, field.name ∉ names := by
  induction fields generalizing names with
  | nil => simp
  | cons field fields ih =>
    unfold checkColumns at h
    split at h
    · cases h
    · next hsupported =>
      split at h
      · cases h
      · next hname =>
        rw [not_or, not_or] at hname
        obtain ⟨hall, hnodup, hnew⟩ := ih h
        refine ⟨List.forall_mem_cons.mpr ⟨not_not.mp hsupported, hall⟩, ?_, ?_⟩
        · refine List.nodup_cons.mpr ⟨fun hmem => ?_, hnodup⟩
          obtain ⟨other, hother, hsame⟩ := List.mem_map.mp hmem
          exact hnew other hother (hsame ▸ List.mem_cons_self)
        · refine List.forall_mem_cons.mpr ⟨hname.2.2, fun other hother hmem => ?_⟩
          exact hnew other hother (List.mem_cons_of_mem _ hmem)

theorem compiled_of_sourceSchema {columns : List Field} {supported : DataType → Bool}
    (h : sourceSchema columns supported = .ok columns)
    (hsupported : ∀ dataType, supported dataType = true → dataType.Supported) :
    Compiled columns := by
  unfold sourceSchema at h
  split at h
  · cases h
  · obtain ⟨_, hcheck, h⟩ := except_bind_eq_ok.mp h
    obtain ⟨_, hvalid, -⟩ := except_bind_eq_ok.mp h
    obtain ⟨hall, hnodup, -⟩ := checkColumns_eq_ok hcheck
    exact ⟨hnodup, fun column hcolumn => hsupported _ (hall column hcolumn),
      mapError_eq_ok.mp hvalid⟩

theorem supported_of_validDecimal {precision : Nat} {scale : Int}
    (h : validDecimal precision scale = true) :
    (DataType.decimal128 precision scale).Supported := by
  unfold validDecimal at h
  have hvalid := of_decide_eq_true h
  exact hvalid

theorem PostgresCdcScanSpec.compiled_columns (spec : PostgresCdcScanSpec) :
    Compiled spec.columns := by
  refine compiled_of_sourceSchema spec.compiled fun dataType h => ?_
  cases dataType with
  | timestamp unit timezone =>
    cases unit with
    | microsecond =>
      cases timezone with
      | none => exact ⟨rfl, .inl rfl⟩
      | some zone => exact ⟨rfl, .inr (congrArg some (of_decide_eq_true h))⟩
    | second | millisecond | nanosecond => cases h
  | decimal128 precision scale => exact supported_of_validDecimal h
  | _ => trivial

theorem MySqlCdcScanSpec.compiled_columns (spec : MySqlCdcScanSpec) : Compiled spec.columns := by
  refine compiled_of_sourceSchema spec.compiled fun dataType h => ?_
  cases dataType with
  | timestamp unit timezone => cases h
  | decimal128 precision scale => exact supported_of_validDecimal h
  | _ => trivial

/-- A CDC scan of either database. -/
inductive CdcScanSpec
  | postgres (spec : PostgresCdcScanSpec)
  | mysql (spec : MySqlCdcScanSpec)

namespace CdcScanSpec

def columns : CdcScanSpec → List Field
  | postgres spec => spec.columns
  | mysql spec => spec.columns

def source : CdcScanSpec → (outputProjection : List Nat) → Source
  | postgres spec, outputProjection => spec.source outputProjection
  | mysql spec, outputProjection => spec.source outputProjection

theorem compiled_columns : (spec : CdcScanSpec) → Compiled spec.columns
  | postgres spec => spec.compiled_columns
  | mysql spec => spec.compiled_columns

@[simp] theorem source_columns (spec : CdcScanSpec) (p : List Nat) :
    (spec.source p).columns = spec.columns := by
  cases spec <;> rfl

@[simp] theorem source_outputProjection (spec : CdcScanSpec) (p : List Nat) :
    (spec.source p).outputProjection = p := by
  cases spec <;> rfl

/-- The conversion of a scan with a projection. -/
def convert (host : Host) (spec : CdcScanSpec) (p : List Nat) (values : List Record)
    (progress : Option SnapshotProgress) : Except ConvertError Captured :=
  convertValues host (spec.source p) (pick p spec.columns) values progress

variable {spec : CdcScanSpec} {p : List Nat}

/-- The loop over the records does not look at the projection. -/
theorem convertRecords_source (q : List Nat) {α : Type} {complete : Value → Except ConvertError α}
    {capturing : Bool} {s : Conversion} {records : List Record} :
    convertRecords complete host (spec.source p) capturing s records =
      convertRecords complete host (spec.source q) capturing s records := by
  have hrecord : ∀ s record, convertRecord complete host (spec.source p) capturing s record =
      convertRecord complete host (spec.source q) capturing s record := by
    intro s record
    cases spec <;> rfl
  induction records generalizing s with
  | nil => rfl
  | cons record records ih => simp only [convertRecords, hrecord, ih]

theorem convert_eq_ok (hhost : host.Standard) (hp : Ordered p spec.columns.length)
    {values : List Record} (hbytes : (values.map Record.size).sum < 2 ^ 31)
    {progress : Option SnapshotProgress} {captured : Captured} :
    spec.convert host p values progress = .ok captured ↔
      ∃ t, ∃ rows : List (Row × Int),
        convertRecords Except.ok host (spec.source []) progress.isSome
          ⟨progress.getD .default, false⟩ values = .ok (t, rows.map image) ∧
        (∀ e ∈ rows, Whole host spec.columns e.1) ∧
        captured = ⟨changeOf host (pick p spec.columns) (rows.map (·.1)) (rows.map (·.2)),
          t.isSealed, t.progress⟩ := by
  have hcolumns : Compiled (spec.source p).columns := by
    rw [source_columns]
    exact spec.compiled_columns
  have hprojection :
      Ordered (spec.source p).outputProjection (spec.source p).columns.length := by
    rw [source_columns, source_outputProjection]
    exact hp
  have hspec : convertValues host (spec.source p)
      (pick (spec.source p).outputProjection (spec.source p).columns) values progress =
        .ok captured ↔ _ := convertValues_eq_ok hhost hcolumns hprojection hbytes
  rw [source_columns, source_outputProjection] at hspec
  rw [convert, hspec, convertRecords_source []]

end CdcScanSpec

/-! ## Projections -/

/-- What a delivery gives with a projection. -/
def Captured.project (p : List Nat) (captured : Captured) : Captured :=
  { captured with change := captured.change.map (Change.project p) }

theorem project_changeOf {columns : List Field} {rows : List Row} {diffs : List Int}
    (p : List Nat) : (changeOf host columns rows diffs).map (Change.project p) =
      changeOf host (pick p columns) rows diffs := by
  unfold changeOf
  split
  · rfl
  · rw [Option.map_some, Change.project]
    dsimp only
    rw [pick_map]

/-- A projection changes neither whether a delivery converts nor anything but the columns of
its change. -/
theorem convertValues_project (host : Host) (hhost : host.Standard) (spec : CdcScanSpec)
    (p : List Nat) (hp : Ordered p spec.columns.length) (values : List Record)
    (progress : Option SnapshotProgress)
    -- The connector bounds the bytes of a delivery by an `i32`.
    (hbytes : (values.map Record.size).sum < 2 ^ 31) :
    (spec.convert host p values progress).toOption =
      (spec.convert host (List.range spec.columns.length) values progress).toOption.map
        (Captured.project p) := by
  have hall := ordered_range spec.columns.length
  cases hfull : spec.convert host (List.range spec.columns.length) values progress with
  | ok full =>
    obtain ⟨t, rows, himages, hwhole, rfl⟩ :=
      (CdcScanSpec.convert_eq_ok hhost hall hbytes).mp hfull
    rw [(CdcScanSpec.convert_eq_ok hhost hp hbytes).mpr ⟨t, rows, himages, hwhole, rfl⟩]
    show some _ = some (Captured.mk _ _ _)
    rw [pick_range, project_changeOf]
  | error e =>
    cases hprojected : spec.convert host p values progress with
    | error e => rfl
    | ok captured =>
      obtain ⟨t, rows, himages, hwhole, rfl⟩ :=
        (CdcScanSpec.convert_eq_ok hhost hp hbytes).mp hprojected
      rw [(CdcScanSpec.convert_eq_ok hhost hall hbytes).mpr ⟨t, rows, himages, hwhole, rfl⟩]
        at hfull
      cases hfull

/-! ### A sample -/

mutual

/-- The JSON document of a value whose text needs no escapes and whose numbers are unsigned. -/
def Value.document : Value → String
  | .null => "null"
  | .bool value => toString value
  | .number (.posInt n) => toString n.toNat
  | .number _ => "0"
  | .string value => "\x22" ++ value ++ "\x22"
  | .array items => "[" ++ Value.documentAll "" items ++ "]"
  | .object members => "\x7b" ++ Value.documentOf "" members ++ "\x7d"

def Value.documentAll (separator : String) : List Value → String
  | [] => ""
  | item :: items => separator ++ item.document ++ Value.documentAll "," items

def Value.documentOf (separator : String) : List (String × Value) → String
  | [] => ""
  | (name, value) :: members =>
    separator ++ "\x22" ++ name ++ "\x22:" ++ value.document ++ Value.documentOf "," members

end

/-- A table with a number and a text. -/
def sampleSpec : PostgresCdcScanSpec where
  engineName := "e"
  schema := "s"
  table := "t"
  columns := [⟨"a", .int32, false⟩, ⟨"b", .utf8, true⟩]
  compiled := by rfl

def sampleRowSchema (name : String) : Value :=
  .object
    [("type", .string "struct"),
      ("fields", .array
        [.object [("type", .string "int32"), ("optional", .bool false), ("field", .string "a")],
          .object [("type", .string "string"), ("optional", .bool true), ("field", .string "b")]]),
      ("optional", .bool true), ("field", .string name)]

/-- A row of it is inserted. -/
def sampleValue : Value :=
  .object
    [("schema", .object
        [("type", .string "struct"),
          ("fields", .array [sampleRowSchema "before", sampleRowSchema "after"])]),
      ("payload", .object
        [("before", .null),
          ("after", .object [("a", .number (.posInt 7)), ("b", .string "x")]),
          ("source", .object
            [("schema", .string "s"), ("table", .string "t"), ("connector", .string "postgresql"),
              ("snapshot", .null)]),
          ("op", .string "c")])]

def sampleBytes : Bytes := Relation.utf8Bytes sampleValue.document

def sampleRecord : Record := ⟨some "e.s.t", some sampleBytes⟩

/-- Libraries that read the record. -/
def sampleHost : Host where
  fromSlice bytes := if bytes = sampleBytes then some sampleValue else none
  engine := Engine.standard
  parseFromRfc3339 _ := none

theorem sampleHost_standard : sampleHost.Standard where
  engine := Engine.standard_standard
  read_eq _ := rfl
  textBytes_le bytes value h := by
    unfold sampleHost at h
    dsimp only at h
    split at h
    · next hbytes =>
      cases h
      rw [hbytes]
      decide +kernel
    · cases h

/-- The row without its number converts as the whole one does. -/
theorem convertValues_project_sample :
    ((CdcScanSpec.postgres sampleSpec).convert sampleHost [1] [sampleRecord] none).toOption =
      ((CdcScanSpec.postgres sampleSpec).convert sampleHost [0, 1] [sampleRecord] none).toOption.map
        (Captured.project [1]) :=
  convertValues_project sampleHost sampleHost_standard (.postgres sampleSpec) [1]
    ⟨by decide, by decide⟩ [sampleRecord] none (by decide +kernel)

/-! ## Delivery boundaries -/

/-- The events of a change: its rows, in order, with their differences. -/
def Change.events (change : Change) : List (List (Option Scalar) × Int) :=
  (List.range change.records.numRows).map fun i =>
    (change.records.columns.map fun column => (column.slots[i]?).join, change.diffs.getD i 0)

/-- The events of a delivery. -/
def Captured.events (captured : Captured) : List (List (Option Scalar) × Int) :=
  captured.change.elim [] Change.events

theorem events_changeOf (columns : List Field) (rows : List (Row × Int)) :
    (changeOf host columns (rows.map (·.1)) (rows.map (·.2))).elim [] Change.events =
      rows.map fun e => (columns.map fun column => slotOf host column e.1, e.2) := by
  unfold changeOf
  cases hrows : rows with
  | nil => rfl
  | cons e later =>
    rw [← hrows, if_neg (by simp [hrows]), Option.elim_some]
    refine List.ext_getElem (by simp [Change.events]) fun i hi hi' => ?_
    have hlt : i < rows.length := by simpa using hi'
    simp [Change.events, slotsOf, hlt]

/-- A delivery in two parts. -/
theorem CdcScanSpec.convert_append_eq_ok (hhost : host.Standard) {spec : CdcScanSpec}
    {p : List Nat} (hp : Ordered p spec.columns.length) {xs ys : List Record}
    (hbytes : ((xs ++ ys).map Record.size).sum < 2 ^ 31) {progress : Option SnapshotProgress}
    {whole : Captured} :
    spec.convert host p (xs ++ ys) progress = .ok whole ↔
      ∃ t u, ∃ rows later : List (Row × Int),
        convertRecords Except.ok host (spec.source []) progress.isSome
          ⟨progress.getD .default, false⟩ xs = .ok (t, rows.map image) ∧
        convertRecords Except.ok host (spec.source []) progress.isSome t ys =
          .ok (u, later.map image) ∧
        (∀ e ∈ rows, Whole host spec.columns e.1) ∧ (∀ e ∈ later, Whole host spec.columns e.1) ∧
        whole = ⟨changeOf host (pick p spec.columns) ((rows ++ later).map (·.1))
          ((rows ++ later).map (·.2)), u.isSealed, u.progress⟩ := by
  rw [convert_eq_ok hhost hp hbytes]
  constructor
  · rintro ⟨u, all, h, hwhole, rfl⟩
    rw [convertRecords_append] at h
    obtain ⟨⟨t, first⟩, hxs, h⟩ := except_bind_eq_ok.mp h
    obtain ⟨⟨v, second⟩, hys, h⟩ := except_bind_eq_ok.mp h
    have hsplit : v = u ∧ first ++ second = all.map image := Prod.mk.inj (Except.ok.inj h)
    obtain ⟨rfl, hall⟩ := hsplit
    obtain ⟨rows, later, rfl, rfl, rfl⟩ := List.map_eq_append_iff.mp hall.symm
    obtain ⟨hrows, hlater⟩ := List.forall_mem_append.mp hwhole
    exact ⟨t, v, rows, later, hxs, hys, hrows, hlater, rfl⟩
  · rintro ⟨t, u, rows, later, hxs, hys, hrows, hlater, rfl⟩
    refine ⟨u, rows ++ later, ?_, List.forall_mem_append.mpr ⟨hrows, hlater⟩, rfl⟩
    rw [convertRecords_append, hxs, List.map_append]
    exact except_bind_eq_ok.mpr ⟨_, rfl, except_bind_eq_ok.mpr ⟨_, hys, rfl⟩⟩

/-- Where the connector cuts a delivery does not matter: what the first part leaves to the
second one is all that the whole would have gone on from. -/
theorem convertValues_append (host : Host) (hhost : host.Standard) (spec : CdcScanSpec)
    (p : List Nat) (hp : Ordered p spec.columns.length) (xs ys : List Record)
    (progress : Option SnapshotProgress)
    -- The connector bounds the bytes of a delivery by an `i32`.
    (hbytes : ((xs ++ ys).map Record.size).sum < 2 ^ 31) :
    (∀ e, spec.convert host p xs progress = .error e →
      ∃ e', spec.convert host p (xs ++ ys) progress = .error e') ∧
    ∀ first, spec.convert host p xs progress = .ok first → first.isSealed = false →
      ((∃ whole, spec.convert host p (xs ++ ys) progress = .ok whole) ↔
        ∃ later, spec.convert host p ys (progress.map fun _ => first.progress) = .ok later) ∧
      ∀ whole later, spec.convert host p (xs ++ ys) progress = .ok whole →
        spec.convert host p ys (progress.map fun _ => first.progress) = .ok later →
          whole.events = first.events ++ later.events ∧ whole.isSealed = later.isSealed ∧
            whole.progress = later.progress := by
  have hsizes : (xs.map Record.size).sum + (ys.map Record.size).sum < 2 ^ 31 := by
    rwa [List.map_append, List.sum_append] at hbytes
  have hxs : (xs.map Record.size).sum < 2 ^ 31 := by omega
  have hys : (ys.map Record.size).sum < 2 ^ 31 := by omega
  constructor
  · intro e herror
    cases hall : spec.convert host p (xs ++ ys) progress with
    | error e' => exact ⟨e', rfl⟩
    | ok whole =>
      obtain ⟨t, u, rows, later, hfirst, -, hrows, -, -⟩ :=
        (CdcScanSpec.convert_append_eq_ok hhost hp hbytes).mp hall
      rw [(CdcScanSpec.convert_eq_ok hhost hp hxs).mpr ⟨t, rows, hfirst, hrows, rfl⟩] at herror
      cases herror
  · intro first hfirst hsealed
    obtain ⟨t, rows, hrecords, hrows, rfl⟩ := (CdcScanSpec.convert_eq_ok hhost hp hxs).mp hfirst
    -- The second part starts where the first one ended.
    have hstart : (⟨(progress.map fun _ => t.progress).getD .default, false⟩ : Conversion) = t := by
      cases progress with
      | none => exact (convertRecords_streaming hrecords).symm
      | some _ =>
        obtain ⟨progress, isSealed⟩ := t
        cases hsealed
        rfl
    have hlater : ∀ later, spec.convert host p ys (progress.map fun _ => t.progress) = .ok later ↔
        ∃ u, ∃ rows' : List (Row × Int),
          convertRecords Except.ok host (spec.source []) progress.isSome t ys =
            .ok (u, rows'.map image) ∧ (∀ e ∈ rows', Whole host spec.columns e.1) ∧
          later = ⟨changeOf host (pick p spec.columns) (rows'.map (·.1)) (rows'.map (·.2)),
            u.isSealed, u.progress⟩ := by
      intro later
      rw [CdcScanSpec.convert_eq_ok hhost hp hys, hstart, Option.isSome_map]
    refine ⟨⟨?_, ?_⟩, ?_⟩
    · rintro ⟨whole, hwhole⟩
      obtain ⟨t', u, rows', later, hrecords', hys', -, hlater', -⟩ :=
        (CdcScanSpec.convert_append_eq_ok hhost hp hbytes).mp hwhole
      rw [hrecords] at hrecords'
      obtain ⟨rfl, -⟩ := Prod.mk.inj (Except.ok.inj hrecords')
      exact ⟨_, (hlater _).mpr ⟨u, later, hys', hlater', rfl⟩⟩
    · rintro ⟨later, hlater'⟩
      obtain ⟨u, rows', hys', hrows', -⟩ := (hlater later).mp hlater'
      exact ⟨_, (CdcScanSpec.convert_append_eq_ok hhost hp hbytes).mpr
        ⟨t, u, rows, rows', hrecords, hys', hrows, hrows', rfl⟩⟩
    · intro whole later hwhole hlater'
      obtain ⟨u, rows', hys', hrows', rfl⟩ := (hlater later).mp hlater'
      rw [(CdcScanSpec.convert_append_eq_ok hhost hp hbytes).mpr
        ⟨t, u, rows, rows', hrecords, hys', hrows, hrows', rfl⟩] at hwhole
      cases hwhole
      refine ⟨?_, rfl, rfl⟩
      unfold Captured.events
      dsimp only
      rw [events_changeOf, events_changeOf, events_changeOf, List.map_append]

/-- Two rows delivered one by one: no run is open, so both deliveries start afresh. -/
theorem convertValues_append_sample :
    let spec := CdcScanSpec.postgres sampleSpec
    let sample := spec.convert sampleHost [0, 1] [sampleRecord] none
    let both := spec.convert sampleHost [0, 1] [sampleRecord, sampleRecord] none
    (∀ e, sample = .error e → ∃ e', both = .error e') ∧
    ∀ first, sample = .ok first → first.isSealed = false →
      ((∃ whole, both = .ok whole) ↔ ∃ later, sample = .ok later) ∧
      ∀ whole later, both = .ok whole → sample = .ok later →
        whole.events = first.events ++ later.events ∧ whole.isSealed = later.isSealed ∧
          whole.progress = later.progress :=
  convertValues_append sampleHost sampleHost_standard (.postgres sampleSpec) [0, 1]
    ⟨by decide, by decide⟩ [sampleRecord] [sampleRecord] none (by decide +kernel)

end Dogpaddle.Cdc
