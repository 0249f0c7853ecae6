import Dogpaddle.EquiJoin.Counts
import Dogpaddle.EquiJoin.Event

/-!
# Events without page cuts

The pages of one event join up: a page that leaves candidates followed by the
completing page is the completing page over the candidates of both
(`Partial.final`). So a run of pages is a run of whole events (`Events`), each of
which visits all its candidates at once, from the cursor without a position, and
at most one event that is part way through its candidates (`Drives.events`).
-/

namespace Dogpaddle.EquiJoin

open Lib Store Dogpaddle.Relation

variable {Ty Value : Type}

/-- The cursor of an event that has not visited any candidate. -/
def freshCursor : JoinCursor := ⟨false, none⟩

namespace EquiJoinOperation

variable (op : EquiJoinOperation Ty Value)

/-! ## Joining two pages -/

theorem scans_of_candidates {s : JoinState} {port : Nat} {row : PreparedRow} {effect : RowEffect}
    {resumeAfter : Option Bytes} (h : op.candidates s port row effect resumeAfter ≠ []) :
    op.scans s port row effect = true := by
  unfold candidates at h
  split at h
  · assumption
  · exact absurd rfl h

/-- An event with candidates and a residual carries its match flag in the cursor. -/
theorem carriedMatch_of_scans {s : JoinState} {port : Nat} {row : PreparedRow}
    {effect : RowEffect} {cursor : JoinCursor} {counts : OrdMap Bytes Nat}
    (hresidual : op.residual.isSome = true) (h : op.scans s port row effect = true) :
    op.carriedMatch port row effect cursor counts = .ok cursor.foundMatch := by
  unfold scans at h
  rw [if_pos hresidual, decide_eq_true_eq] at h
  unfold carriedMatch
  rw [if_neg fun hleft => h (.inr hleft)]

/-- Without a residual, the output of a nonempty run of candidates is that of its
two parts. -/
theorem outputItems_append {s : JoinState} {port : Nat} {row : PreparedRow} {effect : RowEffect}
    {entries entries' : List (Bytes × ℕ+)} (hplain : op.residual = none)
    (hscans : op.scans s port row effect = true) (hne : entries ≠ []) (hne' : entries' ≠ []) :
    op.outputItems port row (op.scannedEffect s port row effect) (entries ++ entries') =
      op.outputItems port row (op.scannedEffect s port row effect) entries ++
        op.outputItems port row (op.scannedEffect s port row effect) entries' := by
  unfold scans at hscans
  simp only [hplain, Option.isSome_none, Bool.false_eq_true, if_false, decide_eq_true_eq]
    at hscans
  unfold outputItems
  by_cases hleft : op.kind.leftOnly = true
  · simp only [hleft, if_true]
    unfold existenceItems
    have hport : port ≠ 0 := fun hport => hscans.2 (.inr ⟨hleft, hport⟩)
    rw [if_neg hport, if_neg hport, if_neg hport]
    cases (op.scannedEffect s port row effect).transition <;> simp
  · simp only [hleft, Bool.false_eq_true, if_false, hne, hne', List.append_eq_nil_iff, and_self,
      List.flatMap_append]

theorem keptMatches_append (port : Nat) (l r : List (Bytes × ℕ+)) :
    op.keptMatches port (l ++ r) = op.keptMatches port l ++ op.keptMatches port r := by
  unfold keptMatches
  split <;> simp

/-- Two pages of one event make one page. -/
theorem Visit.append {op : EquiJoinOperation Ty Value} {port : Nat} (hport : port < 2)
    {row : PreparedRow} {effect : RowEffect} {s s₁ s₂ : JoinState} {cursor cursor₁ : JoinCursor}
    {entries entries' : List (Bytes × ℕ+)} {key : Bytes} {continuation : Option Bytes}
    {out out' : List (Row Value × Int)} {found : Bool}
    (h : op.Visit port row effect s cursor entries (some key) out cursor₁.foundMatch s₁)
    (h' : op.Visit port row effect s₁ cursor₁ entries' continuation out' found s₂)
    (hscans : op.scans s port row effect = true) (hscans' : op.scans s₁ port row effect = true)
    (hne : entries ≠ []) (hne' : entries' ≠ []) :
    op.Visit port row effect s cursor (entries ++ entries') continuation (out ++ out') found s₂ := by
  generalize hf : cursor₁.foundMatch = f at h
  cases h with
  | plain hplain hout =>
    cases h' with
    | plain _ hout' =>
      rw [hf]
      refine .plain hplain ?_
      rw [op.outputItems_append hplain hscans hne hne']
      exact List.rel_append hout hout'
    | residual hresidual => rw [hplain] at hresidual; cases hresidual
  | @residual residual carried qualified counts matchRows hresidual hcarried hq hsettle hout =>
    cases h' with
    | plain hplain => rw [hplain] at hresidual; cases hresidual
    | @residual residual' carried' qualified' counts' matchRows' hresidual' hcarried' hq' hsettle'
        hout' =>
      obtain rfl : residual' = residual := Option.some.inj (hresidual'.symm.trans hresidual)
      have hsome : op.residual.isSome = true := by rw [hresidual]; rfl
      rw [op.carriedMatch_of_scans hsome hscans] at hcarried
      rw [op.carriedMatch_of_scans hsome hscans'] at hcarried'
      cases hcarried
      cases hcarried'
      rw [hf] at hsettle' hout' ⊢
      -- The flag of both pages says whether either of them has a qualifying candidate.
      have hflag : ((cursor.foundMatch || qualified.length != 0) || qualified'.length != 0) =
          (cursor.foundMatch || (qualified ++ qualified').length != 0) := by
        rw [List.length_append, Bool.or_assoc]
        congr 1
        cases qualified <;> cases qualified' <;> simp
      rw [hflag] at hsettle' hout' ⊢
      have hboth := op.settleCounts_append hport hsettle hsettle'
      rw [← op.keptMatches_append, ← List.length_append] at hboth
      refine .residual hresidual (op.carriedMatch_of_scans hsome hscans) ?_ hboth ?_
      · rw [List.filter_append, hq, hq']
      · rw [List.flatMap_append, List.append_assoc, List.map_append]
        refine List.rel_append ?_ hout'
        simpa using hout

/-- A page writes only match counts. -/
theorem Visit.rows {op : EquiJoinOperation Ty Value} {port : Nat} {row : PreparedRow}
    {effect : RowEffect} {s s' : JoinState} {cursor : JoinCursor}
    {entries : List (Bytes × ℕ+)} {continuation : Option Bytes} {out : List (Row Value × Int)}
    {found : Bool} (h : op.Visit port row effect s cursor entries continuation out found s') :
    s'.leftRows = s.leftRows ∧ s'.rightRows = s.rightRows := by
  cases h <;> exact ⟨rfl, rfl⟩

theorem rows_congr {s s' : JoinState}
    (h : s'.leftRows = s.leftRows ∧ s'.rightRows = s.rightRows) (port : Nat) :
    s'.rows port = s.rows port := by
  unfold JoinState.rows
  rw [h.1, h.2]

theorem candidates_congr {s s' : JoinState}
    (h : s'.leftRows = s.leftRows ∧ s'.rightRows = s.rightRows) (port : Nat) (row : PreparedRow)
    (effect : RowEffect) : op.scans s' port row effect = op.scans s port row effect ∧
      op.candidates s' port row effect = op.candidates s port row effect := by
  have hscans : op.scans s' port row effect = op.scans s port row effect := by
    unfold scans oppositeMatched
    rw [rows_congr h]
  refine ⟨hscans, ?_⟩
  unfold candidates
  rw [hscans, rows_congr h]

/-- A page that leaves candidates and the completing page make one completing page. -/
theorem Partial.final {op : EquiJoinOperation Ty Value} {port : Nat} (hport : port < 2)
    {row : PreparedRow} {s s₁ s₂ : JoinState} {cursor cursor₁ : JoinCursor}
    {out out' : List (Row Value × Int)} (h : op.Partial port row s cursor out s₁ cursor₁)
    (h' : op.Final port row s₁ cursor₁ out' s₂) :
    op.Final port row s cursor (out ++ out') s₂ := by
  obtain ⟨effect, after, entries, key, heffect, ⟨hlast, hrest, hcandidates⟩, hvisit, hkey⟩ :=
    h.visited
  have hne := ne_nil_of_getLast?_key hlast
  obtain ⟨effect', after', found, s', heffect', hvisit', rfl⟩ := h'.visited
  have hrows := hvisit.rows
  rw [rows_congr hrows, heffect] at heffect'
  cases heffect'
  obtain ⟨hscans, hsame⟩ := op.candidates_congr hrows port row effect
  rw [hsame, hkey] at hvisit'
  refine ⟨effect, after, found, s', heffect, ?_, rfl⟩
  rw [hcandidates]
  have hscan := op.scans_of_candidates hrest
  exact hvisit.append hport hvisit' hscan (hscans.trans hscan) hne hrest

/-- Two pages that leave candidates make one. -/
theorem Partial.trans {op : EquiJoinOperation Ty Value} {port : Nat} (hport : port < 2)
    {row : PreparedRow} {s s₁ s₂ : JoinState} {cursor cursor₁ cursor₂ : JoinCursor}
    {out out' : List (Row Value × Int)} (h : op.Partial port row s cursor out s₁ cursor₁)
    (h' : op.Partial port row s₁ cursor₁ out' s₂ cursor₂) :
    op.Partial port row s cursor (out ++ out') s₂ cursor₂ := by
  obtain ⟨effect, after, entries, key, heffect, ⟨hlast, hrest, hcandidates⟩, hvisit, hkey⟩ :=
    h.visited
  obtain ⟨effect', after', entries', key', heffect', ⟨hlast', hrest', hcandidates'⟩, hvisit',
    hkey'⟩ := h'.visited
  have hne := ne_nil_of_getLast?_key hlast
  have hne' := ne_nil_of_getLast?_key hlast'
  have hrows := hvisit.rows
  rw [rows_congr hrows, heffect] at heffect'
  cases heffect'
  obtain ⟨hscans, hsame⟩ := op.candidates_congr hrows port row effect
  rw [hsame] at hrest' hcandidates'
  rw [hkey] at hcandidates'
  refine ⟨effect, after, entries ++ entries', key', heffect, ⟨getLast?_key_append hlast', hrest',
    ?_⟩, ?_, hkey'⟩
  · show op.candidates s port row effect cursor.resumeAfter = _
    rw [hcandidates]
    show entries ++ op.candidates s port row effect (some key) = _
    rw [hcandidates', List.append_assoc]
  · have hscan := op.scans_of_candidates hrest
    exact hvisit.append hport hvisit' hscan (hscans.trans hscan) hne hne'

/-! ## A whole event is determined by its state -/

theorem Visit.unique {op : EquiJoinOperation Ty Value} {port : Nat} {row : PreparedRow}
    {effect : RowEffect} {s s₁ s₂ : JoinState} {cursor : JoinCursor}
    {entries : List (Bytes × ℕ+)} {continuation : Option Bytes}
    {out out' : List (Row Value × Int)} {found found' : Bool}
    (h : op.Visit port row effect s cursor entries continuation out found s₁)
    (h' : op.Visit port row effect s cursor entries continuation out' found' s₂) :
    out = out' ∧ found = found' ∧ s₁ = s₂ := by
  cases h with
  | plain hplain hout =>
    cases h' with
    | plain _ hout' => exact ⟨Appended.rightUnique.forall₂ hout hout', rfl, rfl⟩
    | residual hresidual => rw [hplain] at hresidual; cases hresidual
  | residual hresidual hcarried hq hsettle hout =>
    cases h' with
    | plain hplain => rw [hplain] at hresidual; cases hresidual
    | residual hresidual' hcarried' hq' hsettle' hout' =>
      rw [hresidual] at hresidual'
      cases hresidual'
      rw [hcarried] at hcarried'
      cases hcarried'
      subst hq hq'
      rw [hsettle] at hsettle'
      cases hsettle'
      exact ⟨Appended.rightUnique.forall₂ hout hout', rfl, rfl⟩

theorem Final.unique {op : EquiJoinOperation Ty Value} {port : Nat} {row : PreparedRow}
    {s s₁ s₂ : JoinState} {cursor : JoinCursor} {out out' : List (Row Value × Int)}
    (h : op.Final port row s cursor out s₁) (h' : op.Final port row s cursor out' s₂) :
    out = out' ∧ s₁ = s₂ := by
  obtain ⟨effect, after, found, t, heffect, hvisit, rfl⟩ := h.visited
  obtain ⟨effect', after', found', t', heffect', hvisit', rfl⟩ := h'.visited
  rw [heffect] at heffect'
  cases heffect'
  obtain ⟨rfl, -, rfl⟩ := hvisit.unique hvisit'
  exact ⟨rfl, rfl⟩

/-! ## Whole events -/

section Inputs

variable [DecidableEq Value] {Q : Type}

/-- The events of a sequence of inputs, with their ports. -/
def portEvents (inputs : List (Nat × Change (Row Value))) : List (Nat × (Row Value × Int)) :=
  inputs.flatMap fun i => i.2.events.map fun e => (i.1, e)

/-- A sequence of events, each visiting all its candidates at once. -/
inductive Events : List (Nat × (Row Value × Int)) → JoinState → List (Row Value × Int) →
    JoinState → Prop
  | nil {s : JoinState} : Events [] s [] s
  | cons {port : Nat} {event : Row Value × Int} {events : List (Nat × (Row Value × Int))}
      {s s₁ s' : JoinState} {out out' : List (Row Value × Int)} :
      port < 2 → event.2 ≠ 0 → op.Admitted port event.1 →
      op.Final port (op.prepared port event) s freshCursor out s₁ → Events events s₁ out' s' →
      Events ((port, event) :: events) s (out ++ out') s'

theorem Events.append {op : EquiJoinOperation Ty Value}
    {events events' : List (Nat × (Row Value × Int))} {s s₁ s₂ : JoinState}
    {out out' : List (Row Value × Int)}
    (h : op.Events events s out s₁) (h' : op.Events events' s₁ out' s₂) :
    op.Events (events ++ events') s (out ++ out') s₂ := by
  induction h with
  | nil => exact h'
  | cons hport hne hadmitted hfinal _ ih =>
    rw [List.append_assoc]
    exact .cons hport hne hadmitted hfinal (ih h')

/-- Events determine their outputs and the state they end in. -/
theorem Events.unique {op : EquiJoinOperation Ty Value}
    {events : List (Nat × (Row Value × Int))} {s s₁ s₂ : JoinState}
    {out out' : List (Row Value × Int)}
    (h : op.Events events s out s₁) (h' : op.Events events s out' s₂) : out = out' ∧ s₁ = s₂ := by
  induction h generalizing out' s₂ with
  | nil =>
    cases h'
    exact ⟨rfl, rfl⟩
  | cons _ _ _ hfinal _ ih =>
    cases h' with
    | cons _ _ _ hfinal' hrest =>
      obtain ⟨rfl, rfl⟩ := hfinal.unique hfinal'
      obtain ⟨rfl, rfl⟩ := ih hrest
      exact ⟨rfl, rfl⟩

/-- A run of pages from the start of an event: whole events, and the pages of the
event it stops in, joined to one. -/
theorem Drives.events {op : EquiJoinOperation Ty Value} {port : Nat} (hport : port < 2)
    {events rest : List (Row Value × Int)} {cursor cursor' : JoinCursor} {s₀ s s' : JoinState}
    {out out₀ : List (Row Value × Int)} (h : op.Drives port events cursor s out rest cursor' s')
    (hnonzero : ∀ e ∈ events, e.2 ≠ 0)
    (hstart : (cursor = freshCursor ∧ s = s₀ ∧ out₀ = []) ∨ ∃ event tail, events = event :: tail ∧
      op.Admitted port event.1 ∧
      op.Partial port (op.prepared port event) s₀ freshCursor out₀ s cursor) :
    ∃ n s₁ out₁ out₂, rest = events.drop n ∧ out₀ ++ out = out₁ ++ out₂ ∧
      op.Events ((events.take n).map fun e => (port, e)) s₀ out₁ s₁ ∧
      ((cursor' = freshCursor ∧ s' = s₁ ∧ out₂ = []) ∨ ∃ event tail, rest = event :: tail ∧
        op.Admitted port event.1 ∧
        op.Partial port (op.prepared port event) s₁ freshCursor out₂ s' cursor') := by
  induction h generalizing s₀ out₀ with
  | @refl events cursor s => exact ⟨0, s₀, [], out₀, rfl, by simp, .nil, hstart⟩
  | @part event events rest cursor cursor₁ cursor' s s₁ s' out out' ha hpart _ ih =>
    rw [← List.append_assoc]
    refine ih hnonzero (.inr ⟨event, events, rfl, ha, ?_⟩)
    rcases hstart with ⟨rfl, rfl, rfl⟩ | ⟨event', tail, heq, -, hstart⟩
    · exact hpart
    · cases heq
      exact hstart.trans hport hpart
  | @full event events rest cursor cursor' s s₁ s' out out' ha hfinal _ ih =>
    have hwhole : op.Final port (op.prepared port event) s₀ freshCursor (out₀ ++ out) s₁ := by
      rcases hstart with ⟨rfl, rfl, rfl⟩ | ⟨event', tail, heq, -, hstart⟩
      · exact hfinal
      · cases heq
        exact hstart.final hport hfinal
    obtain ⟨n, s₂, out₁, out₂, rfl, hout, hevents, hend⟩ :=
      ih (fun e he => hnonzero e (by simp [he])) (.inl ⟨rfl, rfl, rfl⟩)
    refine ⟨n + 1, s₂, out₀ ++ out ++ out₁, out₂, rfl, ?_, ?_, hend⟩
    · rw [← List.append_assoc, List.append_assoc (out₀ ++ out), ← hout, List.nil_append]
    · exact .cons hport (hnonzero event (by simp)) ha hwhole hevents

/-- Inputs stepped to their end are a run of whole events. -/
theorem events_of_handlesAll {inputs : List (Nat × Change (Row Value))}
    {outputs : List (Option (Change (Row Value)))} {s s' : JoinState}
    (h : HandlesAll (.paged op.paged : Operation JoinState Q (Row Value)) s inputs outputs s') :
    op.Events (portEvents inputs) s (outputsEvents outputs) s' := by
  induction h with
  | nil => exact .nil
  | @cons s s₁ s₂ input inputs outputs rest hh _ ih =>
    rw [outputsEvents_append]
    show op.Events ((input.2.events.map fun e => (input.1, e)) ++ portEvents inputs) _ _ _
    refine Events.append ?_ ih
    cases hh with
    | @paged _ port change _ _ _ hpages =>
      obtain ⟨cursor, cursor', hport, hcursor, hdrives⟩ := op.drives_of_pages hpages
      cases hcursor
      have hdrives : op.Drives port change.events freshCursor s (outputsEvents outputs) [] cursor'
          s₁ := hdrives
      obtain ⟨n, s', out₁, out₂, hrest, hout, hevents, hend⟩ :=
        hdrives.events hport change.nonzero (.inl ⟨rfl, rfl, rfl⟩)
      rw [List.take_of_length_le (List.drop_eq_nil_iff.mp hrest.symm)] at hevents
      rcases hend with ⟨-, rfl, rfl⟩ | ⟨event, tail, hcons, -⟩
      · rw [List.nil_append, List.append_nil] at hout
        rw [hout]
        exact hevents
      · cases hcons

end Inputs

end EquiJoinOperation

end Dogpaddle.EquiJoin
