import Dogpaddle.EquiJoin.Reopen
import Dogpaddle.Flow.Turn
import Dogpaddle.Flow.Resolved
import Dogpaddle.Flow.Balance
import Dogpaddle.Operation.Position

/-!
# Reopening

What opening a flow checks of its durable call stack, and that every run leaves a stack that
passes:

* `validateFrames`: the check, frame by frame from the bottom up;
* `Vetted`: pages and roots have their shapes, and every position is one its operation left;
* `Vetted.step`: every commit keeps that;
* `reachable_reopens`: so a reopen fails, if at all, with what an operation says of a position.
-/

namespace Dogpaddle.Flow

open Dogpaddle Lib

variable {S Q Row : Type}

/-! ## The check -/

namespace Runtime

/-- Only the bottom frame is a source's, and any other one has a port of its operation. -/
def portAllowed (node : RuntimeNode S Q Row) (expected : Nat) : Option Nat → Bool
  | none => expected = 0 ∧ node.operation.isSource
  | some port => 0 < expected ∧ ¬ node.operation.isSource ∧ port < node.inputs.length

/-- A frame is the consumer its parent has called last. -/
def validateParent (rt : Runtime S Q Row) (parent frame : Frame) : Except OperationError Unit :=
  match parent.phase with
  | .run _ => .error (.message "a running parent has a child")
  | .send 0 _ => .error (.message "parent has invalid child ordinal")
  | .send (index + 1) _ =>
    match (rt.topology.consumers parent.head)[index]? with
    | none => .error (.message "parent has invalid child ordinal")
    | some consumer =>
      if consumer.operation ≠ frame.head ∨ some consumer.port ≠ frame.inputPort then
        .error (.message "child does not match its parent's pending call")
      else .ok ()

/-- Any frame but the bottom one is checked against its parent. -/
def validateCall (rt : Runtime S Q Row) (parent : Option Frame) (frame : Frame) :
    Except OperationError Unit :=
  match parent with
  | some parent => rt.validateParent parent frame
  | none => .ok ()

/-- The decoded input of a frame: a root's published front, or its parent's page. -/
def frameInput (rt : Runtime S Q Row) (store : Store S Q) (expected : Nat) (frame : Frame)
    (parentOutput : Option (Change Row)) : Except OperationError (Change Row) :=
  if expected = 0 then do
    let bytes ← rt.input store 0 frame
    ((rt.inputCodec frame).decode bytes).mapError codecError
  else
    match parentOutput with
    | some change => .ok change
    | none => .error (.message "child has no parent output")

/-- The phase of a frame; a sending frame hands its page on. -/
def validatePhase (rt : Runtime S Q Row) (store : Store S Q) (count expected : Nat)
    (node : RuntimeNode S Q Row) (frame : Frame) (input : Change Row) :
    Except OperationError (Option (Change Row)) :=
  match frame.phase with
  | .run resume => do
    node.operation.validateResume (frame.inputPort.getD 0) input resume
    if (store.outputs.get? expected).isSome then
      throw (.message "running frame retains an output")
    if expected + 1 < count then throw (.message "running frame is not the top")
    pure none
  | .send nextConsumer after => do
    if nextConsumer > (rt.topology.consumers frame.head).length then
      throw (.message "frame consumer ordinal exceeds fanout")
    match after with
    | .more resume => node.operation.validateResume (frame.inputPort.getD 0) input resume
    | .done => pure ()
    let bytes ← output store expected
    let page ← ((rt.outputCodec frame.head).decode bytes).mapError codecError
    checkShape page 256 16384
    pure (some page)

/-- One frame, given its parent and its parent's page. -/
def validateFrame (rt : Runtime S Q Row) (store : Store S Q) (count expected : Nat)
    (parent : Option Frame) (parentOutput : Option (Change Row)) (depth : Nat) (frame : Frame) :
    Except OperationError (Option (Change Row)) :=
  if depth ≠ expected then .error (.message "call stack depths are not continuous")
  else
    match rt.nodes[frame.head]? with
    | none => .error (.message "frame refers to unknown head")
    | some node =>
      if ¬ rt.topology.heads frame.head ∨ node.operation.isSink then
        .error (.message "frame does not refer to a computation head")
      else if ¬ portAllowed node expected frame.inputPort then
        .error (.message "frame has invalid input port or source depth")
      else do
        rt.validateCall parent frame
        let input ← rt.frameInput store expected frame parentOutput
        checkShape input (if expected = 0 then 4096 else 256)
          (if expected = 0 then 65536 else 16384)
        rt.validatePhase store count expected node frame input

/-- The frames from one depth on. -/
def validateFrom (rt : Runtime S Q Row) (store : Store S Q) (count : Nat) :
    (expected : Nat) → (parent : Option Frame) → (parentOutput : Option (Change Row)) →
      List (Nat × Frame) → Except OperationError Unit
  | _, _, _, [] => .ok ()
  | expected, parent, parentOutput, (depth, frame) :: rest => do
    let output ← rt.validateFrame store count expected parent parentOutput depth frame
    validateFrom rt store count (expected + 1) (some frame) output rest

/-- The last output page belongs to a frame. -/
def validateLastOutput (store : Store S Q) (count : Nat) : Except OperationError Unit :=
  match store.outputs.last? with
  | none => .ok ()
  | some (last, encoded) =>
    if encoded.length > pageBytes then .error (.message "stored item is too large")
    else if last ≥ count then .error (.message "orphan frame output")
    else .ok ()

/-- What opening a flow checks of its call stack. -/
def validateFrames (rt : Runtime S Q Row) (store : Store S Q) : Except OperationError Unit :=
  let controls := store.controls.entries
  if controls.length > maxDepth then .error (.message "call stack exceeds depth bound")
  else do
    validateLastOutput store controls.length
    rt.validateFrom store controls.length 0 none none controls

end Runtime

/-! ## What every commit keeps -/

/-- The position a frame goes on from, if it goes on. -/
def Frame.resume? (frame : Frame) : Option Resume :=
  match frame.phase with
  | .run resume => some resume
  | .send _ (.more resume) => some resume
  | .send _ .done => none

/-- The changes a port of an operation can be given: those its producer's codec decodes. -/
def Runtime.Feeds (rt : Runtime S Q Row) (index port : Nat) (change : Change Row) : Prop :=
  ∃ node producer bytes, rt.nodes[index]? = some node ∧ node.inputs[port]? = some producer ∧
    (rt.codec producer).decode bytes = .ok change

/-- The input a frame is called on, read back from the store. -/
def Reads (rt : Runtime S Q Row) (store : Store S Q) (depth : Nat) (frame : Frame)
    (input : Change Row) : Prop :=
  ∃ bytes, rt.input store depth frame = .ok bytes ∧ (rt.inputCodec frame).decode bytes = .ok input

/-- A frame is called through a port of its operation, or is a source's. -/
def Wired (rt : Runtime S Q Row) (frame : Frame) : Prop :=
  match frame.inputPort with
  | none => (rt.operation frame.head).isSource = true
  | some port => ∃ node producer, rt.nodes[frame.head]? = some node ∧
      node.inputs[port]? = some producer

/-- The position a frame goes on from is accepted on an input. -/
def Accepted (rt : Runtime S Q Row) (E : OperationError → Prop) (frame : Frame)
    (input : Change Row) : Prop :=
  ∀ resume, frame.resume? = some resume →
    Fails E ((rt.operation frame.head).validateResume (frame.inputPort.getD 0) input resume)

/-- A page of a head, within the limits of a page. -/
def Shaped (rt : Runtime S Q Row) (head : Nat) (encoded : Bytes) : Prop :=
  encoded.length ≤ pageBytes ∧ ∃ page, (rt.outputCodec head).decode encoded = .ok page ∧
    checkShape page 256 16384 = .ok ()

/-- What every commit keeps beside the stack itself. -/
structure Vetted (rt : Runtime S Q Row) (E : OperationError → Prop) (I : Nat → S → Prop)
    (store : Store S Q) : Prop where
  states : ∀ i operation, rt.operation i = .paged operation → I i (store.states i)
  owned : ∀ d, store.controls.get? d = none → store.outputs.get? d = none
  wired : ∀ d frame, store.controls.get? d = some frame → Wired rt frame
  root : ∀ frame, store.controls.get? 0 = some frame → ∃ input, Reads rt store 0 frame input ∧
    checkShape input 4096 65536 = .ok ()
  pages : ∀ d frame encoded, store.controls.get? d = some frame →
    store.outputs.get? d = some encoded → Shaped rt frame.head encoded
  accepted : ∀ d frame input, store.controls.get? d = some frame → Reads rt store d frame input →
    Accepted rt E frame input

/-- The paged operations of a flow keep their positions: each from its initial state on. -/
structure Runtime.Resumes (rt : Runtime S Q Row) (E : OperationError → Prop) (I : Nat → S → Prop)
    (states : Nat → S) : Prop where
  initial : ∀ i, I i (states i)
  paged : ∀ i operation, rt.operation i = .paged operation →
    (Operation.paged operation : Operation S Q Row).Resumes E (I i) (rt.Feeds i)

section Vetted

variable {rt : Runtime S Q Row} {E : OperationError → Prop} {I : Nat → S → Prop}
  {store store' : Store S Q} {depth : Nat} {frame : Frame} {input : Change Row}

theorem vetted_initial {states : Nat → S} (outboxes : Nat → Q) (hI : ∀ i, I i (states i)) :
    Vetted rt E I (.initial states outboxes) :=
  ⟨fun i _ _ => hI i, fun _ _ => rfl, nofun, nofun, nofun, nofun⟩

/-- A wired frame that is not a source's reads what its port can be given. -/
theorem Wired.feeds (h : Wired rt frame) (hsource : (rt.operation frame.head).isSource = false)
    (hreads : Reads rt store depth frame input) :
    rt.Feeds frame.head (frame.inputPort.getD 0) input := by
  obtain ⟨bytes, -, hdecode⟩ := hreads
  unfold Wired at h
  cases hport : frame.inputPort with
  | none =>
    rw [hport] at h
    rw [hsource] at h
    cases h
  | some port =>
    rw [hport] at h
    obtain ⟨node, producer, hnode, hinput⟩ := h
    refine ⟨node, producer, bytes, hnode, hinput, ?_⟩
    have hproducer : rt.producer frame.head port = producer := by
      simp [Runtime.producer, hnode, List.getD, hinput]
    rw [Runtime.inputCodec, hport] at hdecode
    rw [← hproducer]
    exact hdecode

/-- A head that is not paged has no demands on its state or its input. -/
theorem resumes_of_not_paged (E : OperationError → Prop) {op : Operation S Q Row}
    (hsink : op.isSink = false) (hpaged : ¬ ∃ operation, op = .paged operation) :
    op.Resumes E (fun _ => True) fun _ _ => True :=
  Operation.resumes_batch hsink (fun operation hop => hpaged ⟨operation, hop⟩) fun _ => trivial

/-- Whatever its head is, a frame's first position is accepted. -/
theorem accepted_initial {states : Nat → S} (hrt : rt.Resumes E I states)
    (hsink : (rt.operation frame.head).isSink = false) (hwired : Wired rt frame)
    (hphase : frame.phase = .run (rt.operation frame.head).initialResume)
    (hreads : Reads rt store depth frame input) : Accepted rt E frame input := by
  intro resume hresume
  have hinitial : resume = (rt.operation frame.head).initialResume := by
    unfold Frame.resume? at hresume
    rw [hphase] at hresume
    cases hresume
    rfl
  rw [hinitial]
  by_cases hpaged : ∃ operation, rt.operation frame.head = .paged operation
  · obtain ⟨operation, hop⟩ := hpaged
    have hfeeds := hwired.feeds (by rw [hop]; rfl) hreads
    rw [hop]
    exact (hrt.paged _ _ hop).initial _ _ hfeeds
  · have hbatch := resumes_of_not_paged E hsink hpaged
    exact hbatch.initial _ _ trivial

/-- No sink computes a page. -/
theorem not_performs_sink {op : Operation S Q Row} {port : Nat} {resume : Resume} {s s' : S}
    {step : Step Row} (h : Performs (op.step port input resume) s step s') :
    op.isSink = false := by
  cases op with
  | sink operation =>
    obtain ⟨budget, budget', h⟩ := h
    obtain ⟨_, _, hvalid, _⟩ := bind_eq_ok.mp h
    obtain ⟨hvalid, _⟩ := ofExcept_eq_ok.mp hvalid
    cases hvalid
  | _ => rfl

/-- The position a page leaves is accepted, and the operation stays in a state it can be in. -/
theorem accepted_step {states : Nat → S} (hrt : rt.Resumes E I states) (hwired : Wired rt frame)
    (hreads : Reads rt store depth frame input) (haccepted : Accepted rt E frame input)
    {resume : Resume} (hphase : frame.phase = .run resume) {s s' : S}
    {raw : Option (Change Row)} {progress : Progress}
    (hs : ∀ operation, rt.operation frame.head = .paged operation → I frame.head s)
    (hstep : Performs ((rt.operation frame.head).step (frame.inputPort.getD 0) input resume) s
      ⟨raw, progress⟩ s') :
    (∀ operation, rt.operation frame.head = .paged operation → I frame.head s') ∧
      ∀ r, progress = .more r →
        Fails E ((rt.operation frame.head).validateResume (frame.inputPort.getD 0) input r) := by
  have hvalid := haccepted resume (by unfold Frame.resume?; rw [hphase])
  by_cases hpaged : ∃ operation, rt.operation frame.head = .paged operation
  · obtain ⟨operation, hop⟩ := hpaged
    have hfeeds := hwired.feeds (by rw [hop]; rfl) hreads
    rw [hop] at hstep hvalid ⊢
    have h := (hrt.paged _ _ hop).step (hs operation hop) hfeeds hvalid hstep
    exact ⟨fun _ _ => h.1, h.2⟩
  · have hbatch := resumes_of_not_paged E (not_performs_sink hstep) hpaged
    exact ⟨fun operation hop => absurd ⟨operation, hop⟩ hpaged,
      (hbatch.step trivial trivial hvalid hstep).2⟩

/-- The encoded input depends on the page below, or on the front of a root's queue. -/
theorem input_congr (houtputs : ∀ d, d + 1 = depth →
      store'.outputs.get? d = store.outputs.get? d)
    (hqueues : depth = 0 → store'.queues = store.queues) :
    rt.input store' depth frame = rt.input store depth frame := by
  cases depth with
  | zero => simp only [Runtime.input, Runtime.published, hqueues rfl]
  | succ d => simp only [Runtime.input, Runtime.output, houtputs d rfl]

theorem Reads.congr (h : Reads rt store depth frame input)
    (houtputs : ∀ d, d + 1 = depth → store'.outputs.get? d = store.outputs.get? d)
    (hqueues : depth = 0 → store'.queues = store.queues) :
    Reads rt store' depth frame input := by
  unfold Reads
  rw [input_congr houtputs hqueues]
  exact h

theorem Reads.unique {input' : Change Row} (h : Reads rt store depth frame input)
    (h' : Reads rt store depth frame input') : input = input' := by
  obtain ⟨bytes, hbytes, hdecode⟩ := h
  obtain ⟨bytes', hbytes', hdecode'⟩ := h'
  rw [hbytes, Except.ok.injEq] at hbytes'
  subst hbytes'
  rw [hdecode, Except.ok.injEq] at hdecode'
  exact hdecode'

/-- The frame a transaction works on: the top of the stack, or a root it has not stored. -/
structure Facing (rt : Runtime S Q Row) (store : Store S Q) (depth : Nat) (frame : Frame) :
    Prop where
  above : ∀ d, depth < d → store.controls.get? d = none
  here : ∀ f, store.controls.get? depth = some f → f = frame
  wired : Wired rt frame
  root : depth = 0 → ∃ input, Reads rt store depth frame input ∧
    checkShape input 4096 65536 = .ok ()

/-- Only the frames from a depth on are to be checked again. -/
theorem Vetted.above (depth : Nat) (hv : Vetted rt E I store) (hstates : store'.states = store.states)
    (hbelow : ∀ d, d < depth → store'.controls.get? d = store.controls.get? d ∧
      store'.outputs.get? d = store.outputs.get? d)
    (hqueues : depth ≠ 0 → store'.queues = store.queues)
    (howned : ∀ d, depth ≤ d → store'.controls.get? d = none → store'.outputs.get? d = none)
    (hframes : ∀ d f, depth ≤ d → store'.controls.get? d = some f → Wired rt f ∧
      (d = 0 → ∃ input, Reads rt store' 0 f input ∧ checkShape input 4096 65536 = .ok ()) ∧
      (∀ encoded, store'.outputs.get? d = some encoded → Shaped rt f.head encoded) ∧
      ∀ input, Reads rt store' d f input → Accepted rt E f input) :
    Vetted rt E I store' := by
  have hreads : ∀ d f input, d < depth → (Reads rt store' d f input ↔ Reads rt store d f input) := by
    intro d f input hd
    unfold Reads
    rw [input_congr (fun d' hd' => (hbelow d' (by omega)).2) fun _ => hqueues (by omega)]
  constructor
  · rw [hstates]
    exact hv.states
  · intro d hnone
    by_cases hd : d < depth
    · rw [(hbelow d hd).2]
      exact hv.owned d ((hbelow d hd).1 ▸ hnone)
    · exact howned d (by omega) hnone
  · intro d f hf
    by_cases hd : d < depth
    · exact hv.wired d f ((hbelow d hd).1 ▸ hf)
    · exact (hframes d f (by omega) hf).1
  · intro f hf
    by_cases hd : 0 < depth
    · obtain ⟨input, hinput, hshape⟩ := hv.root f ((hbelow 0 hd).1 ▸ hf)
      exact ⟨input, (hreads 0 f input hd).mpr hinput, hshape⟩
    · exact (hframes 0 f (by omega) hf).2.1 rfl
  · intro d f encoded hf hencoded
    by_cases hd : d < depth
    · exact hv.pages d f encoded ((hbelow d hd).1 ▸ hf) ((hbelow d hd).2 ▸ hencoded)
    · exact (hframes d f (by omega) hf).2.2.1 encoded hencoded
  · intro d f input hf hinput
    by_cases hd : d < depth
    · exact hv.accepted d f input ((hbelow d hd).1 ▸ hf) ((hreads d f input hd).mp hinput)
    · exact (hframes d f (by omega) hf).2.2.2 input hinput

/-- The page of the frame faced, after it may have stored a fresh one. -/
theorem Facing.shaped (hf : Facing rt store depth frame) (hv : Vetted rt E I store)
    {fresh : Option Bytes} (hfresh : ∀ encoded, fresh = some encoded → Shaped rt frame.head encoded)
    {encoded : Bytes} (h : (storedPages store.outputs depth fresh).get? depth = some encoded) :
    Shaped rt frame.head encoded := by
  cases fresh with
  | some bytes =>
    rw [storedPages, OrdMap.get?_put, if_pos rfl] at h
    exact hfresh encoded (congrArg some (Option.some.inj h))
  | none =>
    cases hcontrol : store.controls.get? depth with
    | none =>
      rw [storedPages, hv.owned depth hcontrol] at h
      cases h
    | some f =>
      obtain rfl := hf.here f hcontrol
      exact hv.pages depth f encoded hcontrol h

theorem get?_storedPages_of_ne {outputs : OrdMap Nat Bytes} {fresh : Option Bytes} {d : Nat}
    (h : d ≠ depth) : (storedPages outputs depth fresh).get? d = outputs.get? d := by
  cases fresh with
  | none => rfl
  | some encoded => simp [storedPages, h]

/-- Writing the frame faced in another phase, with what becomes of its page. -/
theorem Vetted.putFaced (hv : Vetted rt E I store) (hf : Facing rt store depth frame)
    {phase : FramePhase} {outputs : OrdMap Nat Bytes} (outboxes : Nat → Q)
    (hothers : ∀ d, d ≠ depth → outputs.get? d = store.outputs.get? d)
    (hshaped : ∀ encoded, outputs.get? depth = some encoded → Shaped rt frame.head encoded)
    (hresume : ∀ input, Reads rt store depth frame input →
      Accepted rt E { frame with phase } input) :
    Vetted rt E I { store with
      controls := store.controls.put depth { frame with phase }
      outputs, outboxes } := by
  refine hv.above depth rfl (fun d hd => ?_) (fun _ => rfl) (fun d hd hnone => ?_)
    fun d f hd hget => ?_
  · simp [Nat.ne_of_lt hd, hothers d (by omega)]
  · by_cases hsame : d = depth
    · simp [hsame] at hnone
    · show outputs.get? d = none
      rw [hothers d hsame]
      exact hv.owned d (hf.above d (by omega))
  · by_cases hsame : d = depth
    · subst hsame
      obtain rfl : { frame with phase } = f := by simpa using hget
      have hinput : ∀ input, Reads rt { store with
          controls := store.controls.put d { frame with phase }
          outputs, outboxes } d { frame with phase } input ↔ Reads rt store d frame input := by
        intro input
        have hsame : rt.input { store with
            controls := store.controls.put d { frame with phase }
            outputs, outboxes } d { frame with phase } = rt.input store d { frame with phase } :=
          input_congr (fun d' hd' => hothers d' (by omega)) fun _ => rfl
        unfold Reads
        rw [hsame]
        rfl
      refine ⟨hf.wired, fun hzero => ?_, hshaped, fun input hreads => ?_⟩
      · subst hzero
        obtain ⟨input, hreads, hshape⟩ := hf.root rfl
        exact ⟨input, (hinput input).mpr hreads, hshape⟩
      · exact hresume input ((hinput input).mp hreads)
    · simp [hsame, hf.above d (by omega)] at hget

/-- Putting a called consumer on top of the stack. -/
theorem Vetted.push {states : Nat → S} (hrt : rt.Resumes E I states) (hv : Vetted rt E I store)
    {top head : Nat} {c : Consumer} (habove : ∀ d, top ≤ d → store.controls.get? d = none)
    (hpositive : top ≠ 0) (hc : c ∈ rt.topology.consumers head)
    (hsink : (rt.operation c.operation).isSink = false) :
    Vetted rt E I { store with controls := store.controls.put top (rt.childFrame c) } := by
  rw [(resolve_eq_ok rt.resolved).2.2 head, mem_consumersOf] at hc
  obtain ⟨node, hnode, hport⟩ := hc
  have hwired : Wired rt (rt.childFrame c) := ⟨node, _, hnode, hport⟩
  refine hv.above top rfl (fun d hd => ?_) (fun _ => rfl) (fun d hd _ => ?_) fun d f hd hget => ?_
  · simp [Nat.ne_of_lt hd]
  · exact hv.owned d (habove d hd)
  · by_cases hsame : d = top
    · subst hsame
      obtain rfl : rt.childFrame c = f := by simpa using hget
      refine ⟨hwired, fun hzero => absurd hzero hpositive, fun encoded hencoded => ?_,
        fun input hinput => accepted_initial hrt hsink hwired rfl hinput⟩
      have hnone : store.outputs.get? d = some encoded := hencoded
      rw [hv.owned d (habove d hd)] at hnone
      cases hnone
    · simp [hsame, habove d hd] at hget

/-- A turn of the frame faced keeps every stored fact. -/
theorem Vetted.turn {states : Nat → S} (hrt : rt.Resumes E I states) (hv : Vetted rt E I store)
    (hf : Facing rt store depth frame) {after : Progress} {fresh : Option Bytes}
    (hfresh : ∀ encoded, fresh = some encoded → Shaped rt frame.head encoded)
    (hafter : ∀ input, Reads rt store depth frame input → ∀ r, after = .more r →
      Fails E ((rt.operation frame.head).validateResume (frame.inputPort.getD 0) input r))
    (ht : Turn rt depth frame after fresh store store') : Vetted rt E I store' := by
  have hafter' : ∀ next input, Reads rt store depth frame input →
      Accepted rt E { frame with phase := .send next after } input := by
    intro next input hreads r hr
    cases after with
    | done => cases hr
    | more resume =>
      cases hr
      exact hafter input hreads _ rfl
  cases ht with
  | returned queues outboxes hdone hqueues =>
    refine hv.above depth rfl (fun d hd => ?_) hqueues (fun d hd _ => ?_) fun d f hd hget => ?_
    · simp [Nat.ne_of_lt hd]
    · by_cases hsame : d = depth
      · simp [hsame]
      · simpa [hsame] using hv.owned d (hf.above d (by omega))
    · -- nothing stands at the depth or above it any more
      by_cases hsame : d = depth
      · simp [hsame] at hget
      · simp [hsame, hf.above d (by omega)] at hget
  | moved outboxes hmore =>
    refine hv.putFaced hf outboxes (fun d hd => by simp [hd]) (fun encoded h => ?_) ?_
    · simp at h
    · intro input hreads r hr
      cases hr
      exact hafter input hreads _ hmore
  | @stopped next outboxes =>
    exact hv.putFaced hf outboxes (fun d hd => get?_storedPages_of_ne hd)
      (fun _ h => hf.shaped hv hfresh h) (hafter' next)
  | @called next c outboxes hc hsink =>
    have hsent := hv.putFaced hf outboxes (fun d hd => get?_storedPages_of_ne hd)
      (fun _ h => hf.shaped hv hfresh h) (hafter' (next + 1))
    refine hsent.push hrt (fun d hd => ?_) (Nat.succ_ne_zero _)
      (List.mem_of_getElem? hc) hsink
    have hne : d ≠ depth := by omega
    simpa [hne] using hf.above d (by omega)
  | still outboxes _ =>
    exact ⟨hv.states, hv.owned, hv.wired, hv.root, hv.pages, hv.accepted⟩

theorem isSource_eq {op : Operation S Q Row} (h : op.isSource = true) : op = .source := by
  cases op with
  | source => rfl
  | _ => cases h

/-- The top of the stack is faced. -/
theorem Vetted.facing_top (hv : Vetted rt E I store)
    (hlast : store.controls.last? = some (depth, frame)) : Facing rt store depth frame := by
  obtain ⟨hget, hgreatest⟩ := (OrdMap.last?_eq_some_iff _ _ _).mp hlast
  refine ⟨fun d hd => ?_, fun f hf => ?_, hv.wired depth frame hget, fun hzero => ?_⟩
  · cases hcontrol : store.controls.get? d with
    | none => rfl
    | some f => exact absurd (hgreatest d f hcontrol) (by omega)
  · rw [hget, Option.some.injEq] at hf
    exact hf.symm
  · subst hzero
    exact hv.root frame hget

theorem Starts.reads {source : Nat} {item : Bytes} (h : Starts rt store source item input) :
    Reads rt store 0 (rt.rootFrame source) input := by
  refine ⟨item, ?_, h.decoded⟩
  simp [Runtime.input, Runtime.rootFrame, isSource_eq h.role, h.front]

/-- A root that starts is faced. -/
theorem Starts.facing {source : Nat} {item : Bytes} (h : Starts rt store source item input) :
    Facing rt store 0 (rt.rootFrame source) := by
  have hnone := (OrdMap.last?_eq_none_iff _).mp h.empty
  refine ⟨fun d _ => hnone d, fun f hf => ?_, h.role, fun _ => ⟨input, h.reads, h.shape⟩⟩
  rw [hnone 0] at hf
  cases hf

/-- A root that starts is accepted on its front. -/
theorem Starts.accepted {states : Nat → S} (hrt : rt.Resumes E I states) {source : Nat}
    {item : Bytes} (h : Starts rt store source item input) :
    Accepted rt E (rt.rootFrame source) input := by
  refine accepted_initial hrt ?_ h.facing.wired rfl h.reads
  show (rt.operation source).isSink = false
  rw [isSource_eq h.role]
  rfl

/-- Publishing behind a front leaves what its root reads. -/
theorem Reads.capture (h : Reads rt store 0 frame input) (source : Nat) (items : List Bytes) :
    Reads rt
      { store with queues := Function.update store.queues source (store.queues source ++ items) }
      0 frame input := by
  obtain ⟨bytes, hbytes, hdecode⟩ := h
  refine ⟨bytes, ?_, hdecode⟩
  rw [← hbytes]
  simp only [Runtime.input] at hbytes ⊢
  cases hop : rt.operation frame.head with
  | source =>
    rw [hop] at hbytes
    dsimp only at hbytes ⊢
    have hsame : (Function.update store.queues source (store.queues source ++ items)
        frame.head).head? = (store.queues frame.head).head? := by
      by_cases hsource : frame.head = source
      · subst hsource
        rw [Function.update_self]
        cases hqueue : store.queues frame.head with
        | nil => simp [Runtime.published, hqueue] at hbytes
        | cons item rest => rfl
      · rw [Function.update_of_ne hsource]
    simp only [Runtime.published, hsame]
  | _ => rfl

/-- Every commit keeps the stored facts. -/
theorem Vetted.step {states : Nat → S} (hrt : rt.Resumes E I states) (hv : Vetted rt E I store)
    (h : StoreStep rt store store') : Vetted rt E I store' := by
  -- what a sending frame goes on from was accepted when its page was computed
  have hsending : ∀ {depth next frame after}, store.controls.last? = some (depth, frame) →
      frame.phase = .send next after → ∀ input, Reads rt store depth frame input →
      ∀ r, after = .more r →
        Fails E ((rt.operation frame.head).validateResume (frame.inputPort.getD 0) input r) := by
    intro depth next frame after hlast hphase input hreads r hmore
    have hget := ((OrdMap.last?_eq_some_iff _ _ _).mp hlast).1
    refine hv.accepted depth frame input hget hreads r ?_
    unfold Frame.resume?
    rw [hphase, hmore]
  cases h with
  | @page depth frame input budget outcome s hcalled hrun =>
    obtain ⟨resume, hphase⟩ : ∃ resume, frame.phase = .run resume := by
      cases hphase : frame.phase with
      | run resume => exact ⟨resume, rfl⟩
      | send next after =>
        unfold Runtime.runPage at hrun
        rw [hphase] at hrun
        exact (throw_eq_ok.mp hrun).elim
    obtain ⟨hf, hreads, haccepted⟩ : Facing rt store depth frame ∧
        Reads rt store depth frame input ∧ Accepted rt E frame input := by
      cases hcalled with
      | top hlast hbytes hdecode =>
        have hreads : Reads rt store depth frame input := ⟨_, hbytes, hdecode⟩
        have hget := ((OrdMap.last?_eq_some_iff _ _ _).mp hlast).1
        exact ⟨hv.facing_top hlast, hreads, hv.accepted _ _ _ hget hreads⟩
      | root hstarts => exact ⟨hstarts.facing, hstarts.reads, hstarts.accepted hrt⟩
    obtain ⟨progress, fresh, mid, hcomputed, hturn⟩ := runPage_turn hphase hrun
    obtain ⟨raw, state, states', hperforms, rfl, hstates⟩ := hcomputed.steps
    obtain ⟨hI, hmore⟩ := accepted_step hrt hf.wired hreads haccepted hphase
      (fun operation hop => hv.states _ operation hop) hperforms
    have hv' : Vetted rt E I { store with states := states' } := by
      refine ⟨fun i operation hop => ?_, hv.owned, hv.wired, hv.root, hv.pages, hv.accepted⟩
      show I i (states' i)
      rw [hstates i (by rw [hop]; rfl)]
      by_cases hi : i = frame.head
      · subst hi
        rw [Function.update_self]
        exact hI operation hop
      · rw [Function.update_of_ne hi]
        exact hv.states i operation hop
    refine hv'.turn hrt ⟨hf.above, hf.here, hf.wired, hf.root⟩ hcomputed.page ?_ hturn
    intro input' hinput' r hr
    obtain rfl : input = input' := hreads.unique hinput'
    exact hmore r hr
  | sent hlast hphase hall hfinish =>
    exact hv.turn hrt (hv.facing_top hlast) (fun _ h => by cases h) (hsending hlast hphase)
      (finishFrame_turn none store.outboxes rfl hfinish)
  | route hlast hphase hencoded hroute =>
    exact hv.turn hrt (hv.facing_top hlast) (fun _ h => by cases h) (hsending hlast hphase)
      (routePage_turn hroute)
  | @pin source item input budget u s hstarts hput =>
    rw [putFrame_eq_ok hput]
    refine hv.putFaced hstarts.facing
      store.outboxes (fun _ _ => rfl) (fun encoded hencoded => ?_) fun input' hinput' => ?_
    · rw [hv.owned 0 ((OrdMap.last?_eq_none_iff _).mp hstarts.empty 0)] at hencoded
      cases hencoded
    · rw [← hstarts.reads.unique hinput']
      exact hstarts.accepted hrt
  | capture source items =>
    refine ⟨hv.states, hv.owned, hv.wired, fun frame hget => ?_, hv.pages,
      fun d frame input hget hreads => ?_⟩
    · obtain ⟨input, hreads, hshape⟩ := hv.root frame hget
      exact ⟨input, hreads.capture source items, hshape⟩
    · cases d with
      | zero =>
        obtain ⟨input', hreads', -⟩ := hv.root frame hget
        rw [hreads.unique (hreads'.capture source items)]
        exact hv.accepted 0 frame input' hget hreads'
      | succ d => exact hv.accepted (d + 1) frame input hget hreads
  | outboxes outboxes =>
    exact ⟨hv.states, hv.owned, hv.wired, hv.root, hv.pages, hv.accepted⟩

/-! ## The stack passes -/

/-- The task that stands at a depth. -/
theorem Stacked.at {source : Nat} {tasks : List (Task Row)} (h : Stacked rt store source tasks)
    {d : Nat} (hd : d < tasks.length) : ∃ task ∈ tasks, Held rt store d task ∧
      Fed rt store source d task.head task.port task.input := by
  induction tasks with
  | nil => cases hd
  | cons task below ih =>
    obtain ⟨hheld, hfed, hbelow⟩ := h
    by_cases htop : d = below.length
    · subst htop
      exact ⟨task, List.mem_cons_self, hheld, hfed⟩
    · rw [List.length_cons] at hd
      obtain ⟨task', hmem, hheld', hfed'⟩ := ih hbelow (by omega)
      exact ⟨task', List.mem_cons_of_mem _ hmem, hheld', hfed'⟩

/-- A running frame is the top and has no page; a sending one has the page it sends. -/
def PhaseStands (rt : Runtime S Q Row) (store : Store S Q) (count depth : Nat) (head : Nat) :
    FramePhase → Prop
  | .run _ => store.outputs.get? depth = none ∧ depth + 1 = count
  | .send next _ => next ≤ (rt.topology.consumers head).length ∧
      ∃ encoded page, store.outputs.get? depth = some encoded ∧ encoded.length ≤ pageBytes ∧
        (rt.outputCodec head).decode encoded = .ok page

/-- What the check finds at one depth of a stack of `count` frames. -/
structure Stands (rt : Runtime S Q Row) (store : Store S Q) (count depth : Nat) (frame : Frame)
    (input : Change Row) : Prop where
  control : store.controls.get? depth = some frame
  node : ∃ node, rt.nodes[frame.head]? = some node ∧
    Runtime.portAllowed node depth frame.inputPort = true
  head : rt.topology.heads frame.head = true
  computes : (rt.operation frame.head).isSink = false
  parent : ∀ d, d + 1 = depth → ∃ parent, store.controls.get? d = some parent ∧
    rt.validateParent parent frame = .ok () ∧ ∃ encoded, store.outputs.get? d = some encoded ∧
      (rt.outputCodec parent.head).decode encoded = .ok input
  reads : Reads rt store depth frame input
  phase : PhaseStands rt store count depth frame.head frame.phase

theorem Standing.stands (hv : Vetted rt E I store) {source : Nat} {top : Task Row}
    {below : List (Task Row)} (h : Standing rt store source (top :: below))
    (hsource : source < rt.nodes.length) {d : Nat} (hd : d < (top :: below).length) :
    ∃ frame input, Stands rt store (top :: below).length d frame input := by
  obtain ⟨task, hmem, hheld, hfed⟩ := h.stacked.at hd
  obtain ⟨phase, hcontrol⟩ := hheld.control
  have hhead : rt.topology.heads task.head = true :=
    (h.stacked.callPath hsource).heads (backward_of_validate rt.validated) rt.resolved _
      (List.mem_map_of_mem hmem)
  have hphase : PhaseStands rt store (top :: below).length d task.head phase := by
    cases task with
    | call head port input resume =>
      rw [hheld.1, Option.some.injEq] at hcontrol
      cases hcontrol
      refine ⟨hheld.2, ?_⟩
      -- a frame above it would have been called by a sending one
      by_contra hnot
      obtain ⟨child, -, -, hchild⟩ := h.stacked.at (d := d + 1) (by omega)
      obtain ⟨parent, parentPort, next, after, c, encoded, hparent, -⟩ := hchild
      rw [hheld.1] at hparent
      cases hparent
    | send head port input visits after =>
      obtain ⟨next, encoded, page, hget, houtput, hlength, hdecode, hnext, -⟩ := hheld
      rw [hget, Option.some.injEq] at hcontrol
      cases hcontrol
      exact ⟨hnext, encoded, page, houtput, hlength, hdecode⟩
  refine ⟨⟨task.head, task.port, phase⟩, task.input, ?_⟩
  cases d with
  | zero =>
    obtain ⟨hsame, hport, hrole, item, hitem, hdecode⟩ := hfed
    obtain ⟨input, ⟨bytes, hbytes, hinput⟩, -⟩ := hv.root _ hcontrol
    have hop : rt.operation task.head = .source := by
      rw [hsame]
      exact isSource_eq hrole
    refine ⟨hcontrol, ⟨rt.nodes[source], ?_, ?_⟩, hhead, ?_, nofun, ?_, hphase⟩
    · rw [hsame]
      exact List.getElem?_eq_getElem hsource
    · have hnode : rt.nodes[source].operation.isSource = true := by
        simpa [Runtime.operation, List.getElem?_eq_getElem hsource] using hrole
      simp [Runtime.portAllowed, hport, hnode]
    · rw [hop]
      rfl
    · refine ⟨bytes, hbytes, ?_⟩
      simp only [Runtime.input, hop] at hbytes
      split at hbytes
      · cases hbytes
      · next found hfound =>
        cases hbytes
        have hfront := published_eq_some hfound
        rw [hsame, hitem, Option.some.injEq] at hfront
        rw [Runtime.inputCodec, hport, hsame, ← hfront]
        exact hdecode
      · cases hbytes
  | succ d =>
    obtain ⟨parent, parentPort, next, after, c, encoded, hparent, hc, hsame, hport, hsink,
      houtput, hlength, hdecode⟩ := hfed
    have hedge : c ∈ rt.topology.consumers parent := List.mem_of_getElem? hc
    rw [(resolve_eq_ok rt.resolved).2.2, mem_consumersOf] at hedge
    obtain ⟨node, hnode, hinput⟩ := hedge
    have hlt : c.port < node.inputs.length := (List.getElem?_eq_some_iff.mp hinput).1
    refine ⟨hcontrol, ⟨node, ?_, ?_⟩, hhead, hsink, fun d' hd' => ?_, ?_, hphase⟩
    · rw [hsame]
      exact hnode
    · have hsource : node.operation.isSource = false := by
        have hnotsource := not_source_of_consumer (mem_consumersOf.mpr ⟨node, hnode, hinput⟩)
        simpa [Runtime.operation, hnode] using hnotsource
      simp [Runtime.portAllowed, hport, hsource, hlt]
    · obtain rfl : d' = d := by omega
      refine ⟨_, hparent, ?_, encoded, houtput, hdecode⟩
      simp [Runtime.validateParent, hc, hsame, hport]
    · refine ⟨encoded, ?_, ?_⟩
      · simp [Runtime.input, Runtime.output, houtput, Nat.not_lt.mpr hlength]
      · rw [hport, hsame]
        show (rt.codec (rt.producer c.operation c.port)).decode encoded = .ok task.input
        rw [producer_of_consumer hc]
        exact hdecode

/-- The input of a frame has the shape of its depth. -/
theorem Stands.shape (hv : Vetted rt E I store) {count : Nat}
    (h : Stands rt store count depth frame input) :
    checkShape input (if depth = 0 then 4096 else 256) (if depth = 0 then 65536 else 16384) =
      .ok () := by
  cases depth with
  | zero =>
    obtain ⟨input', hreads, hshape⟩ := hv.root frame h.control
    rw [h.reads.unique hreads]
    exact hshape
  | succ d =>
    obtain ⟨parent, hparent, -, encoded, houtput, hdecode⟩ := h.parent d rfl
    obtain ⟨-, page, hpage, hshape⟩ := hv.pages d parent encoded hparent houtput
    rw [hdecode, Except.ok.injEq] at hpage
    subst hpage
    exact hshape

/-- A frame that stands is checked down to its phase. -/
theorem Stands.validateFrame_eq (hv : Vetted rt E I store) {count : Nat} {parent : Option Frame}
    {parentOutput : Option (Change Row)} (h : Stands rt store count depth frame input)
    (hroot : depth = 0 → parent = none)
    (hchild : ∀ d, d + 1 = depth → parent = store.controls.get? d ∧ parentOutput = some input) :
    ∃ node, rt.operation frame.head = node.operation ∧
      rt.validateFrame store count depth parent parentOutput depth frame =
        rt.validatePhase store count depth node frame input := by
  obtain ⟨node, hnode, hport⟩ := h.node
  have hop : rt.operation frame.head = node.operation := by simp [Runtime.operation, hnode]
  have hsink : node.operation.isSink = false := hop ▸ h.computes
  have hparent : rt.validateCall parent frame = .ok () := by
    cases depth with
    | zero =>
      rw [hroot rfl]
      rfl
    | succ d =>
      obtain ⟨p, hp, hvalid, -⟩ := h.parent d rfl
      rw [(hchild d rfl).1, hp]
      exact hvalid
  have hinput : rt.frameInput store depth frame parentOutput = .ok input := by
    unfold Runtime.frameInput
    cases depth with
    | zero =>
      obtain ⟨bytes, hbytes, hdecode⟩ := h.reads
      rw [if_pos rfl, hbytes, ok_bind, hdecode]
      rfl
    | succ d => rw [if_neg (Nat.succ_ne_zero d), (hchild d rfl).2]
  refine ⟨node, hop, ?_⟩
  unfold Runtime.validateFrame
  rw [if_neg (not_not.mpr rfl), hnode]
  dsimp only
  rw [if_neg (by simp [h.head, hsink]), if_neg (by simp [hport]), hparent, ok_bind, hinput,
    ok_bind, h.shape hv, ok_bind]

/-- The phase of a frame passes, up to what its operation says of its position; a page it hands
on is the one it sends. -/
theorem Stands.validatePhase (hv : Vetted rt E I store) {count : Nat} {node : RuntimeNode S Q Row}
    (h : Stands rt store count depth frame input) (hop : rt.operation frame.head = node.operation) :
    Fails E (rt.validatePhase store count depth node frame input) ∧
      ∀ output, rt.validatePhase store count depth node frame input = .ok output →
        depth + 1 < count → ∃ encoded page, store.outputs.get? depth = some encoded ∧
          (rt.outputCodec frame.head).decode encoded = .ok page ∧ output = some page := by
  have haccepted := hv.accepted depth frame input h.control h.reads
  have hphase := h.phase
  unfold Accepted Frame.resume? at haccepted
  rw [hop] at haccepted
  unfold Runtime.validatePhase
  cases hcase : frame.phase with
  | run resume =>
    rw [hcase] at hphase haccepted
    obtain ⟨hnone, htop⟩ := hphase
    dsimp only
    refine ⟨Fails.bind (haccepted resume rfl) fun _ _ => ?_, fun _ _ hlt => by omega⟩
    rw [hnone, if_neg (by simp), if_neg (by omega)]
    exact Fails.of_ok rfl
  | send next after =>
    rw [hcase] at hphase haccepted
    obtain ⟨hnext, encoded, page, houtput, hlength, hdecode⟩ := hphase
    obtain ⟨-, page', hpage', hshape⟩ := hv.pages depth frame encoded h.control houtput
    rw [hdecode, Except.ok.injEq] at hpage'
    subst hpage'
    have hout : Runtime.output store depth = .ok encoded := by
      simp [Runtime.output, houtput, Nat.not_lt.mpr hlength]
    dsimp only
    rw [if_neg (by omega), hout, ok_bind, hdecode]
    simp only [Except.mapError, ok_bind, hshape]
    cases after with
    | done =>
      refine ⟨Fails.of_ok rfl, fun output hok _ => ?_⟩
      cases hok
      exact ⟨encoded, page, houtput, hdecode, rfl⟩
    | more resume =>
      refine ⟨Fails.bind (haccepted resume rfl) fun _ _ => Fails.of_ok rfl, fun output hok _ => ?_⟩
      obtain ⟨_, _, hok⟩ := except_bind_eq_ok.mp hok
      cases hok
      exact ⟨encoded, page, houtput, hdecode, rfl⟩

/-- A list of frames that stand from a depth on passes, up to what operations say of positions. -/
theorem validateFrom_fails (hv : Vetted rt E I store) {frames : List Frame}
    (hget : ∀ d, store.controls.get? d = frames[d]?)
    (hstands : ∀ d, d < frames.length → ∃ frame input,
      Stands rt store frames.length d frame input)
    {rest : List Frame} {parent : Option Frame} {parentOutput : Option (Change Row)}
    (hrest : frames.drop depth = rest) (hroot : depth = 0 → parent = none)
    (hchild : ∀ d, d + 1 = depth → parent = store.controls.get? d ∧ (depth < frames.length →
      ∃ parent' encoded page, store.controls.get? d = some parent' ∧
        store.outputs.get? d = some encoded ∧
        (rt.outputCodec parent'.head).decode encoded = .ok page ∧ parentOutput = some page)) :
    Fails E (rt.validateFrom store frames.length depth parent parentOutput
      ((rest.zipIdx depth).map fun e => (e.2, e.1))) := by
  induction rest generalizing depth parent parentOutput with
  | nil => exact Fails.of_ok rfl
  | cons next rest ih =>
    have hlt : depth < frames.length := by
      by_contra hle
      rw [List.drop_eq_nil_of_le (by omega)] at hrest
      cases hrest
    have hat : frames[depth]? = some next := by
      rw [← List.head?_drop, hrest]
      rfl
    obtain ⟨frame, input, hs⟩ := hstands depth hlt
    obtain rfl : next = frame := by
      have hcontrol := hs.control
      rw [hget, hat, Option.some.injEq] at hcontrol
      exact hcontrol
    have hinput : ∀ d, d + 1 = depth →
        parent = store.controls.get? d ∧ parentOutput = some input := by
      intro d hd
      obtain ⟨hparent, hout⟩ := hchild d hd
      obtain ⟨parent', encoded, page, hcontrol, hpage, hdecode, houtput⟩ := hout hlt
      obtain ⟨parent'', hcontrol', -, encoded', hpage', hdecode'⟩ := hs.parent d hd
      rw [hcontrol, Option.some.injEq] at hcontrol'
      subst hcontrol'
      rw [hpage, Option.some.injEq] at hpage'
      subst hpage'
      rw [hdecode, Except.ok.injEq] at hdecode'
      exact ⟨hparent, by rw [houtput, hdecode']⟩
    obtain ⟨node, hop, heq⟩ := hs.validateFrame_eq hv hroot hinput
    obtain ⟨hfails, hpage⟩ := hs.validatePhase hv hop
    rw [List.zipIdx_cons, List.map_cons]
    unfold Runtime.validateFrom
    rw [heq]
    refine Fails.bind hfails fun output houtput => ?_
    refine ih ?_ (fun hzero => absurd hzero (Nat.succ_ne_zero _)) fun d hd => ?_
    · rw [← List.tail_drop, hrest]
      rfl
    · obtain rfl : d = depth := by omega
      refine ⟨hs.control.symm, fun hmore => ?_⟩
      obtain ⟨encoded, page, hencoded, hdecode, hout⟩ := hpage output houtput hmore
      exact ⟨next, encoded, page, hs.control, hencoded, hdecode, hout⟩

/-- A standing stack within the depth bound passes, up to what operations say of positions. -/
theorem validateFrames_fails (hv : Vetted rt E I store) (frames : List Frame)
    (hget : ∀ d, store.controls.get? d = frames[d]?) (hdepth : frames.length ≤ maxDepth)
    (hstands : ∀ d, d < frames.length → ∃ frame input,
      Stands rt store frames.length d frame input) : Fails E (rt.validateFrames store) := by
  have hentries := OrdMap.entries_eq_of_get? hget
  have hlength : store.controls.entries.length = frames.length := by
    rw [hentries, List.length_map, List.length_zipIdx]
  unfold Runtime.validateFrames
  dsimp only
  rw [hlength, if_neg (by omega)]
  have hlast : Runtime.validateLastOutput store frames.length = .ok () := by
    unfold Runtime.validateLastOutput
    cases hout : store.outputs.last? with
    | none => rfl
    | some entry =>
      obtain ⟨last, encoded⟩ := entry
      have houtput := ((OrdMap.last?_eq_some_iff _ _ _).mp hout).1
      cases hcontrol : store.controls.get? last with
      | none =>
        rw [hv.owned last hcontrol] at houtput
        cases houtput
      | some frame =>
        have hlt : last < frames.length := by
          rw [hget] at hcontrol
          exact (List.getElem?_eq_some_iff.mp hcontrol).1
        have hpage := (hv.pages last frame encoded hcontrol houtput).1
        dsimp only
        rw [if_neg (by omega), if_neg (by omega)]
  rw [hlast, ok_bind, hentries]
  exact validateFrom_fails hv hget hstands rfl (fun _ => rfl) nofun

end Vetted

/-! ## Every run -/

section Reachable

variable {rt : Runtime S Q Row} {E : OperationError → Prop} {I : Nat → S → Prop}
  {states : Nat → S} {outboxes : Nat → Q} {w : World S Q Row}

theorem reachable_vetted (hrt : rt.Resumes E I states) (h : Reachable rt states outboxes w) :
    Vetted rt E I w.store :=
  h.store_induction (vetted_initial outboxes hrt.initial) fun _ _ hv hstep => hv.step hrt hstep

/-- Every reachable store passes the check of a reopen: what can fail of it is what a paged
operation says of a position it left itself. -/
theorem reachable_reopens (hrt : rt.Resumes E I states) (h : Reachable rt states outboxes w) :
    Fails E (rt.validateFrames w.store) := by
  have hv := reachable_vetted hrt h
  have hkept : Kept rt states w.store w.log := reachable_safe h
  obtain ⟨served, σ, events, -, hsituation, -⟩ := hkept.trace
  cases hsituation with
  | idle hstates hclear =>
    refine validateFrames_fails hv [] (fun d => ?_) (Nat.zero_le _) nofun
    exact (hclear d (Nat.zero_le d)).1
  | @busy source item rest input top below _ hq hs hd hstand _ _ =>
    have hsource : source < rt.nodes.length := by
      by_contra hle
      have hnone : rt.nodes[source]? = none := List.getElem?_eq_none (by omega)
      rw [Runtime.codec, hnone] at hd
      cases hd
    obtain ⟨frames, hheads, hget⟩ := hstand.stacked.frames
    have hlength : frames.length = (top :: below).length := by
      have := congrArg List.length hheads
      simpa using this
    obtain ⟨depth, -, hdepth⟩ :=
      depths_of_resolve (backward_of_validate rt.validated) rt.resolved
    have hpath := hstand.stacked.callPath hsource
    have hbound := hpath.length_le (backward_of_validate rt.validated) rt.resolved hdepth
    refine validateFrames_fails hv frames (fun d => ?_) ?_ fun d hlt => ?_
    · by_cases hlt : d < (top :: below).length
      · exact hget d hlt
      · rw [(hstand.clear d (by omega)).1, List.getElem?_eq_none (by omega)]
    · have := hdepth.bounded top.head
      rw [hlength]
      simp only [List.length_map, List.length_cons] at hbound ⊢
      omega
    · rw [hlength] at hlt ⊢
      exact hstand.stands hv hsource hlt

end Reachable

/-! ### A source joined with itself -/

section SelfJoin

open EquiJoin EquiJoinOperation

/-- A codec of one page. -/
def pageCodec {Row : Type} [DecidableEq Row] (page : Change Row) : SchemaBoundChangeCodec Row where
  encodeBounded c n :=
    if c.numColumns = page.numColumns ∧ c.events = page.events then
      if 1 ≤ n then .ok [1] else .error (.encodedSizeLimitExceeded n)
    else .error (.invalid "another page")
  decode b := if b = [1] then .ok page else .error (.invalid "not a page")
  decode_encode c n b h := by
    split at h
    · next hc =>
      split at h
      · cases h
        obtain ⟨columns, events, hne, hnz⟩ := c
        obtain ⟨rfl, rfl⟩ := hc
        rfl
      · cases h
    · cases h
  length_encode c n b h := by
    split at h
    · split at h
      · next hn =>
        cases h
        exact hn
      · cases h
    · cases h

/-- The join of a row with itself. -/
def selfPair : Change (Relation.Row (Option UInt8)) :=
  ⟨4, [([some 1, some 5, some 1, some 5], 1)], by simp, by simp⟩

/-- A source, its join with itself, and a sink that counts rows. -/
def selfJoinNodes : List (RuntimeNode JoinState Nat (Relation.Row (Option UInt8))) :=
  [ { id := "a", inputCount := 0, inputs := [], operation := .source
      codec := pageCodec (byteInsert 0 (some 1) 5 0).2, arity := ⟨fun _ => rfl, nofun⟩ },
    { id := "b", inputCount := 2, inputs := [0, 0], codec := pageCodec selfPair
      operation := .paged (byteJoin .inner none).paged, arity := ⟨nofun, nofun⟩ },
    { id := "c", inputCount := 1, inputs := [1], codec := pageCodec selfPair
      operation := .sink ⟨fun page outbox => .ok (some (outbox + page.numRows))⟩
      arity := ⟨nofun, fun _ => rfl⟩ } ]

theorem selfJoinNodes_validated : validateDefinition selfJoinNodes = .ok () := by
  have ha : "a".utf8ByteSize = 1 := by rfl
  have hb : "b".utf8ByteSize = 1 := by rfl
  have hc : "c".utf8ByteSize = 1 := by rfl
  simp [validateDefinition, selfJoinNodes, checkIds, idReason, checkInputs, maxOperations,
    checkEarlier, bind, Except.bind, ha, hb, hc]

/-- Two inputs keep the join from being fused. -/
def selfJoin : Runtime JoinState Nat (Relation.Row (Option UInt8)) where
  nodes := selfJoinNodes
  topology :=
    { tails := fun _ => []
      consumers := fun i => consumersOf selfJoinNodes i
      heads := fun _ => true }
  validated := selfJoinNodes_validated
  producers := rfl
  resolved := rfl

/-- The source delivers one row; the commit after `stop` effects crashes. -/
def selfJoinEnv (stop : Nat) : Env Nat where
  fate n := if n = stop then .crashed else .done
  poll := .ok (some ⟨[[1]], true⟩)
  record := .ok true
  ack := .ok ()
  load := .ok false
  prepareInitialize := .ok false
  persistInitialize := .ok 0
  deliver := .ok ()
  settle := .ok 0

/-- The flow after a crash in its first round. -/
def selfJoinWorld (stop : Nat) : World JoinState Nat (Relation.Row (Option UInt8)) :=
  endState (selfJoin.advance (selfJoinEnv stop)
    (.opened (.initial (fun _ => JoinState.initial) (fun _ => 0)) []))

/-- Joins of one source accept the positions they are called on. -/
theorem selfJoin_resumes : selfJoin.Resumes (· = .budgetExceeded)
    (fun _ => (byteJoin .inner none).Filed) fun _ => JoinState.initial where
  initial _ := filed_initial
  paged i operation hop := by
    have hjoin : i = 1 ∧ operation = (byteJoin .inner none).paged := by
      -- only the second node is paged
      rcases i with _ | _ | _ | i <;> cases hop
      exact ⟨rfl, rfl⟩
    obtain ⟨rfl, rfl⟩ := hjoin
    refine (join_resumes Relation.byteFormat_limited).mono fun port change hfeeds => ?_
    obtain ⟨node, producer, bytes, hnode, hinput, -⟩ := hfeeds
    cases hnode
    have hport : port < 2 := (List.getElem?_eq_some_iff.mp hinput).1
    exact (if_neg (by omega)).trans (if_neg (not_not_intro rfl))

/-- After a crash inside the join's second call, two frames are checked and accepted. -/
theorem selfJoin_reopens : (selfJoinWorld 5).store.controls.entries.length = 2 ∧
    ∀ e, selfJoin.validateFrames (selfJoinWorld 5).store = .error e → e = .budgetExceeded :=
  ⟨by decide +kernel, reachable_reopens selfJoin_resumes (.advance (selfJoinEnv 5) .build)⟩

end SelfJoin

end Dogpaddle.Flow
