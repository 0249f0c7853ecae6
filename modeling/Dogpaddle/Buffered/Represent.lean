import Dogpaddle.Buffered.Load

/-!
# What an outbox represents

* `Rep`: a control state and the entries it describes.
* `Held`: the outbox holds them, in whatever phase its control cell is.
* `validateBuffer_of_rep`: the check of a reopened runtime accepts them.
-/

namespace Dogpaddle.Buffered

open Lib

variable {Row : Type} {sink : BufferedSink Row}

/-- An entry as it was admitted. -/
structure Admitted (sink : BufferedSink Row) (e : Entry Row) : Prop where
  decoded : sink.codec.decode e.encoded = .ok e.change
  small : e.bytes ≤ maxDeliveryBytes
  sized : sink.validateEventSizes e.change = .ok ()
  few : count e.change.events ≤ maxBufferedEvents

/-- The control state describes the entries. -/
structure Rep (sink : BufferedSink Row) (b : BufferState) (es : List (Entry Row)) : Prop where
  tiled : Tiled b.head.entryStart es b.tail
  admitted : ∀ e ∈ es, Admitted sink e
  placed : HeadIn b.head es
  bytes : b.retainedBytes = weight es
  started : 0 < b.head.entryStart
  events : b.pendingEvents ≤ maxBufferedEvents
  retained : b.retainedBytes ≤ maxRetainedBytes
  bounded : b.tail < 2 ^ 64

theorem rep_empty : Rep sink BufferState.empty [] where
  tiled := rfl
  admitted := by simp
  placed := rfl
  bytes := rfl
  started := by decide
  events := by decide
  retained := by decide
  bounded := by decide

/-- A position before the first of its entries is inside the range they tile. -/
theorem HeadIn.range_iff {position : Position} {tail : Nat} {es : List (Entry Row)}
    (h : HeadIn position es) (htiled : Tiled position.entryStart es tail) :
    position.entryStart ≤ position.eventOffset ∧ position.eventOffset ≤ tail ∧
      (position.eventOffset = tail ↔ es = []) := by
  cases es with
  | nil =>
    have : position.entryStart = tail := htiled
    have : position.eventOffset = position.entryStart := h
    simp
    omega
  | cons e es =>
    obtain ⟨hkey, hle, hlt⟩ := h
    have := (htiled.mem_range List.mem_cons_self).2
    simp
    omega

/-- The control state that describes entries is valid. -/
theorem BufferState.validate_of_tiled {b : BufferState} {es : List (Entry Row)}
    (htiled : Tiled b.head.entryStart es b.tail) (hplaced : HeadIn b.head es)
    (hbytes : b.retainedBytes = weight es) (hstarted : 0 < b.head.entryStart) :
    b.validate = .ok () := by
  obtain ⟨hle, hlast, hiff⟩ := hplaced.range_iff htiled
  unfold BufferState.validate
  rw [if_neg]
  rintro (hzero | hhead | htail | hrest)
  · omega
  · omega
  · omega
  · split at hrest
    · next hempty =>
      have hnil := hiff.mp (of_decide_eq_true hempty)
      rw [hnil] at htiled hbytes
      rcases hrest with hstart | hretained
      · exact hstart htiled
      · exact hretained hbytes
    · next hempty =>
      obtain ⟨e, rest, rfl⟩ := List.exists_cons_of_ne_nil fun hnil =>
        hempty (decide_eq_true (hiff.mpr hnil))
      rw [hbytes, weight_cons, Entry.bytes, mapKeyBytes] at hrest
      omega

namespace Rep

variable {b : BufferState} {es : List (Entry Row)}

/-- The head lies between the start of its entry and the tail. -/
theorem head_range (h : Rep sink b es) :
    b.head.entryStart ≤ b.head.eventOffset ∧ b.head.eventOffset ≤ b.tail ∧
      (b.head.eventOffset = b.tail ↔ es = []) :=
  h.placed.range_iff h.tiled

/-- The head is inside the entry it names. -/
theorem head_inside (h : Rep sink b es) {e : Entry Row} (he : e ∈ es)
    (hkey : e.key = b.head.entryStart) : b.head.eventOffset < e.stop := by
  have hplaced := h.placed
  have htiled := h.tiled
  obtain ⟨f, rest, rfl⟩ := List.exists_cons_of_ne_nil (List.ne_nil_of_mem he)
  obtain ⟨hfirst, -, hlt⟩ := hplaced
  rwa [htiled.key_unique he List.mem_cons_self (hkey.trans hfirst.symm)]

theorem isEmpty_iff (h : Rep sink b es) : b.isEmpty = true ↔ es = [] := by
  rw [BufferState.isEmpty, decide_eq_true_iff]
  exact h.head_range.2.2

theorem validate (h : Rep sink b es) : b.validate = .ok () :=
  BufferState.validate_of_tiled h.tiled h.placed h.bytes h.started

theorem fits (h : Rep sink b es) : b.Fits := by
  obtain ⟨hle, hlast, -⟩ := h.head_range
  have hbounded := h.bounded
  have hretained := h.retained
  unfold maxRetainedBytes at hretained
  exact ⟨by omega, by omega, hbounded, by omega⟩

theorem decode_encode (h : Rep sink b es) :
    decode (State.ready b).encode = .ok (.ready b) :=
  decode_encode_ready h.fits h.validate

theorem validateCapacity (h : Rep sink b es) : Buffered.validateCapacity b = .ok () := by
  unfold Buffered.validateCapacity
  rw [if_neg]
  rintro (hevents | hretained)
  · exact absurd h.events (by omega)
  · exact absurd h.retained (by omega)

end Rep

/-! ## The check accepts what is represented -/

theorem requireEmptyRange_of_forall {range : Nat → Bool} {buffer : OrdMap Nat Bytes}
    (h : ∀ entry ∈ buffer.entries, range entry.1 = false) :
    BufferedSink.requireEmptyRange range buffer = .ok () := by
  unfold BufferedSink.requireEmptyRange
  rw [if_neg]
  intro hany
  obtain ⟨entry, hentry, hrange⟩ := List.any_eq_true.mp hany
  rw [h entry hentry] at hrange
  cases hrange

/-- One entry of the scan, after those before it. -/
theorem validateEntry_of_rep {b : BufferState} {done rest : List (Entry Row)} {e : Entry Row}
    (h : Rep sink b (done ++ e :: rest)) :
    sink.validateEntry b (e.key, weight done) (e.key, e.encoded) =
      .ok (e.stop, weight (done ++ [e])) := by
  have he : e ∈ done ++ e :: rest := List.mem_append_right _ List.mem_cons_self
  obtain ⟨hstart, hstop⟩ := h.tiled.mem_range he
  have hadmitted := h.admitted e he
  have hsmall := hadmitted.small
  have hfew := hadmitted.few
  have hbounded := h.bounded
  have hretained := h.retained
  have hbytes := h.bytes
  rw [weight_append, weight_cons] at hbytes
  unfold maxDeliveryBytes at hsmall
  unfold maxRetainedBytes at hretained
  have hitem : encodedItemBytes e.encoded = .ok e.bytes :=
    encodedItemBytes_eq_ok.mpr ⟨rfl, by omega⟩
  have hdecode : decodeEntry sink.codec e.key e.encoded maxDeliveryBytes = .ok e.change := by
    unfold decodeEntry
    rw [hitem]
    show (if e.bytes > maxDeliveryBytes then _ else _) = _
    rw [if_neg (by unfold maxDeliveryBytes; omega), hadmitted.decoded]
    rfl
  have hend : entryEnd e.change e.key = .ok e.stop := entryEnd_eq_ok.mpr ⟨rfl, by omega⟩
  have hhead : ¬ (e.stop > b.tail ∨
      (e.key = b.head.entryStart ∧ b.head.eventOffset ≥ e.stop)) := by
    rintro (hover | ⟨hkey, hpast⟩)
    · omega
    · have := h.head_inside he hkey
      omega
  unfold BufferedSink.validateEntry
  simp only [ne_eq, not_true_eq_false, if_false, hitem, hdecode, hadmitted.sized, hend, bind,
    Except.bind]
  show (if e.stop - e.key > maxBufferedEvents then _ else _) = _
  rw [if_neg (by unfold Entry.stop; omega), if_neg hhead,
    checkedAdd_eq_some.mpr ⟨rfl, by omega⟩]
  show (if weight done + e.bytes > b.retainedBytes then _ else _) = _
  rw [if_neg (by omega), weight_append, weight_cons, weight_nil, Nat.add_zero]

/-- The scan of the remaining entries. -/
theorem foldlM_validateEntry {b : BufferState} {es : List (Entry Row)} (h : Rep sink b es)
    (done rest : List (Entry Row)) {mid : Nat} (hsplit : es = done ++ rest)
    (htiled : Tiled mid rest b.tail) :
    (stored rest).foldlM (sink.validateEntry b) (mid, weight done) = .ok (b.tail, weight es) := by
  induction rest generalizing done mid with
  | nil =>
    rw [hsplit, List.append_nil, ← show mid = b.tail from htiled]
    rfl
  | cons e rest ih =>
    obtain ⟨rfl, htiled⟩ := htiled
    rw [hsplit] at h
    show List.foldlM _ _ ((e.key, e.encoded) :: stored rest) = _
    rw [List.foldlM_cons, validateEntry_of_rep h]
    exact ih (done ++ [e]) (by rw [hsplit, List.append_assoc]; rfl) htiled

theorem validateBuffer_of_rep {b : BufferState} {es : List (Entry Row)} (h : Rep sink b es)
    {buffer : OrdMap Nat Bytes} (hstored : buffer.entries = stored es) :
    sink.validateBuffer b buffer = .ok () := by
  have hkeys : ∀ entry ∈ buffer.entries, b.head.entryStart ≤ entry.1 ∧ entry.1 < b.tail := by
    intro entry hentry
    rw [hstored] at hentry
    obtain ⟨e, he, rfl⟩ := List.mem_map.mp hentry
    have hrange := h.tiled.mem_range he
    have hlt := e.key_lt_stop
    exact ⟨hrange.1, by show e.key < _; omega⟩
  unfold BufferedSink.validateBuffer
  split
  · next hempty =>
    rw [h.isEmpty_iff.mp hempty] at hstored
    refine requireEmptyRange_of_forall fun entry hentry => ?_
    rw [hstored] at hentry
    cases hentry
  · rw [requireEmptyRange_of_forall fun entry hentry => by simpa using (hkeys entry hentry).1,
      requireEmptyRange_of_forall fun entry hentry => by simpa using (hkeys entry hentry).2]
    rw [hstored]
    have hscan := foldlM_validateEntry h [] es rfl h.tiled
    rw [weight_nil] at hscan
    simp only [bind, Except.bind, hscan, ne_eq, not_true_eq_false, if_false, h.bytes]

/-! ## Phases -/

/-- The outbox holds the entries under the control state. Before it is ready it is empty. -/
inductive Held (sink : BufferedSink Row) (outbox : Outbox) (b : BufferState)
    (es : List (Entry Row)) : Prop
  | ready (control : outbox.control = some (State.ready b).encode)
      (entries : outbox.buffer.entries = stored es) (rep : Rep sink b es)
  | fresh (control : outbox.control = none ∨ outbox.control = some State.initializing.encode)
      (entries : outbox.buffer.entries = []) (buffer : b = .empty) (entry : es = [])

theorem decode_initializing : decode State.initializing.encode = .ok .initializing := rfl

namespace Held

variable {outbox : Outbox} {b : BufferState} {es : List (Entry Row)}

theorem rep (h : Held sink outbox b es) : Rep sink b es := by
  cases h with
  | ready control entries rep => exact rep
  | fresh control entries buffer entry =>
    subst buffer entry
    exact rep_empty

theorem stored (h : Held sink outbox b es) : outbox.buffer.entries = Buffered.stored es := by
  cases h with
  | ready control entries rep => exact entries
  | fresh control entries buffer entry =>
    rw [entries, entry]
    rfl

/-- What a ready control cell decodes to is the control state. -/
theorem eq_of_decode (h : Held sink outbox b es) {encoded : Bytes} {current : BufferState}
    (hcontrol : outbox.control = some encoded) (hdecode : decode encoded = .ok (.ready current)) :
    current = b ∧ outbox.control = some (State.ready b).encode := by
  cases h with
  | ready control entries rep =>
    rw [hcontrol] at control
    cases control
    rw [rep.decode_encode] at hdecode
    cases hdecode
    exact ⟨rfl, hcontrol⟩
  | fresh control entries buffer entry =>
    rw [hcontrol] at control
    rcases control with control | control
    · cases control
    · cases control
      rw [decode_initializing] at hdecode
      cases hdecode

/-- An outbox whose control cell is still initializing is empty. -/
theorem of_initializing (h : Held sink outbox b es) {encoded : Bytes}
    (hcontrol : outbox.control = some encoded) (hdecode : decode encoded = .ok .initializing) :
    b = .empty ∧ es = [] := by
  cases h with
  | ready control entries rep =>
    rw [hcontrol] at control
    cases control
    rw [rep.decode_encode] at hdecode
    cases hdecode
  | fresh control entries buffer entry => exact ⟨buffer, entry⟩

/-- A reopened runtime accepts the outbox. -/
theorem decodeRestored (h : Held sink outbox b es) (recovered : Bool) :
    ∃ state, sink.decodeRestored outbox recovered = .ok state := by
  have hempty : outbox.buffer.entries = [] →
      BufferedSink.requireEmptyBuffer outbox.buffer = .ok () := fun hnil =>
    requireEmptyRange_of_forall fun entry hentry => by rw [hnil] at hentry; cases hentry
  unfold BufferedSink.decodeRestored
  cases h with
  | ready control entries rep =>
    have hcheck : sink.checkRestored outbox.buffer recovered (.ready b) = .ok () := by
      unfold BufferedSink.checkRestored
      dsimp only
      rw [rep.validateCapacity, validateBuffer_of_rep rep entries, ite_self]
      rfl
    rw [control]
    simp only [rep.decode_encode, hcheck, bind, Except.bind]
    exact ⟨_, rfl⟩
  | fresh control entries buffer entry =>
    rcases control with control | control
    · rw [control]
      simp only [hempty entries, bind, Except.bind]
      exact ⟨_, rfl⟩
    · rw [control]
      simp only [decode_initializing, BufferedSink.checkRestored, hempty entries, bind,
        Except.bind]
      exact ⟨_, rfl⟩

/-- An outbox with entries is restored to its control state. -/
theorem decodeRestored_of_ne_nil (h : Held sink outbox b es) (hne : es ≠ []) (recovered : Bool) :
    sink.decodeRestored outbox recovered = .ok (some (.ready b)) := by
  obtain ⟨state, hstate⟩ := h.decodeRestored recovered
  cases h with
  | fresh control entries buffer entry => exact absurd entry hne
  | ready control entries rep =>
    unfold BufferedSink.decodeRestored at hstate ⊢
    rw [control] at hstate ⊢
    simp only [rep.decode_encode] at hstate ⊢
    obtain ⟨_, ⟨⟩, hstate⟩ := except_bind_eq_ok.mp hstate
    obtain ⟨_, hcheck, -⟩ := except_bind_eq_ok.mp hstate
    exact except_bind_eq_ok.mpr ⟨_, rfl, except_bind_eq_ok.mpr ⟨_, hcheck, rfl⟩⟩

end Held

end Dogpaddle.Buffered
