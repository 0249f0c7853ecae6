import Dogpaddle.AsOf.Event

/-!
# Events of the ordered join without page cuts

Nothing is written before the last page of a right event, so all its pages read the same
neighbours and winners. Two of them make one page over the left rows of both
(`Partial.trans`, `Partial.final`), and a run of pages is a run of whole events (`Events`),
which is determined by its events and the state it starts from (`Events.unique`).
-/

namespace Dogpaddle.AsOf

open Lib Store Dogpaddle.Relation

variable {Ty Value : Type}

/-- The cursor of an event that has not visited any left row. -/
def freshCursor : AsOfCursor := ⟨none⟩

namespace AsOfJoinOperation

/-! ## Joining two pages -/

section Pages

variable {op : AsOfJoinOperation Ty Value}

theorem Influence.unique {right : PreparedRow} {s : AsOfState} {range range' : Range}
    {order order' : Option Bytes} (h : op.Influence right s range order)
    (h' : op.Influence right s range' order') : range = range' ∧ order = order' := by
  obtain ⟨outer, houter, horder, rfl⟩ := h
  obtain ⟨outer', houter', horder', rfl⟩ := h'
  rw [houter] at houter'
  rw [horder] at horder'
  cases houter'
  cases horder'
  exact ⟨rfl, rfl⟩

/-- The corrections of two runs of left rows follow one another. -/
theorem Corrects.append {right : PreparedRow} {s : AsOfState} {present : Bool}
    {order : Option Bytes} {entries entries' : List (Bytes × ℕ+)} {out out' : List (Row Value × Int)}
    (h : op.Corrects right s present order entries out)
    (h' : op.Corrects right s present order entries' out') :
    op.Corrects right s present order (entries ++ entries') (out ++ out') := by
  unfold Corrects at h h'
  by_cases hne : entries = []
  · rw [if_pos hne] at h
    rw [hne, h]
    exact h'
  by_cases hne' : entries' = []
  · rw [if_pos hne'] at h'
    rw [hne', h', List.append_nil, List.append_nil]
    rw [if_neg hne] at h
    rw [Corrects, if_neg hne]
    exact h
  rw [if_neg hne] at h
  rw [if_neg hne'] at h'
  obtain ⟨old, new, hwinners, h⟩ := h
  obtain ⟨old', new', hwinners', h'⟩ := h'
  rw [hwinners] at hwinners'
  cases hwinners'
  rw [Corrects, if_neg (by simp [hne])]
  refine ⟨old, new, hwinners, ?_⟩
  split at h
  · next hdiffer =>
    rw [if_pos hdiffer] at h' ⊢
    rw [List.flatMap_append]
    exact List.rel_append h h'
  · next hsame =>
    rw [if_neg hsame] at h' ⊢
    rw [h, h', List.append_nil]

/-- A page that leaves left rows and the completing page make one completing page. -/
theorem Partial.final {right : PreparedRow} {s s' : AsOfState} {cursor cursor₁ : AsOfCursor}
    {out out' : List (Row Value × Int)} (h : op.Partial right s cursor out cursor₁)
    (h' : op.Final right s cursor₁ out' s') : op.Final right s cursor (out ++ out') s' := by
  obtain ⟨after, range, order, entries, key, hafter, hloud, hinfluence, hpage, hcorrects, rfl⟩ :=
    h.visited
  obtain ⟨after', hafter', hstore, hfinal⟩ := h'.visited
  rw [hafter] at hafter'
  cases hafter'
  refine ⟨after, hafter, hstore, ?_⟩
  rw [if_neg hloud] at hfinal ⊢
  obtain ⟨range', order', hinfluence', hcorrects'⟩ := hfinal
  obtain ⟨rfl, rfl⟩ := hinfluence.unique hinfluence'
  refine ⟨range, order, hinfluence, ?_⟩
  rw [show rangeAfter s range cursor.leftResumeAfter = _ from hpage.2.2]
  exact hcorrects.append hcorrects'

/-- Two pages that leave left rows make one. -/
theorem Partial.trans {right : PreparedRow} {s : AsOfState} {cursor cursor₁ cursor₂ : AsOfCursor}
    {out out' : List (Row Value × Int)} (h : op.Partial right s cursor out cursor₁)
    (h' : op.Partial right s cursor₁ out' cursor₂) :
    op.Partial right s cursor (out ++ out') cursor₂ := by
  obtain ⟨after, range, order, entries, key, hafter, hloud, hinfluence, hpage, hcorrects, rfl⟩ :=
    h.visited
  obtain ⟨after', range', order', entries', key', hafter', -, hinfluence', hpage', hcorrects',
    rfl⟩ := h'.visited
  rw [hafter] at hafter'
  cases hafter'
  obtain ⟨rfl, rfl⟩ := hinfluence.unique hinfluence'
  refine ⟨after, range, order, entries ++ entries', key', hafter, hloud, hinfluence, ?_,
    hcorrects.append hcorrects', rfl⟩
  obtain ⟨hlast, hrest, hentries⟩ := hpage
  obtain ⟨hlast', hrest', hentries'⟩ := hpage'
  refine ⟨getLast?_key_append hlast', hrest', ?_⟩
  dsimp only at hentries hentries' ⊢
  rw [hentries, hentries', List.append_assoc]

/-! ## A whole event is determined by its state -/

theorem Corrects.unique {right : PreparedRow} {s : AsOfState} {present : Bool}
    {order : Option Bytes} {entries : List (Bytes × ℕ+)} {out out' : List (Row Value × Int)}
    (h : op.Corrects right s present order entries out)
    (h' : op.Corrects right s present order entries out') : out = out' := by
  unfold Corrects at h h'
  split at h
  · next hempty =>
    rw [if_pos hempty] at h'
    rw [h, h']
  · next hne =>
    rw [if_neg hne] at h'
    obtain ⟨old, new, hwinners, h⟩ := h
    obtain ⟨old', new', hwinners', h'⟩ := h'
    rw [hwinners] at hwinners'
    cases hwinners'
    split at h
    · next hdiffer =>
      rw [if_pos hdiffer] at h'
      exact Appended.rightUnique.forall₂ h h'
    · next hsame =>
      rw [if_neg hsame] at h'
      rw [h, h']

theorem Final.unique {right : PreparedRow} {s s₁ s₂ : AsOfState} {cursor : AsOfCursor}
    {out out' : List (Row Value × Int)} (h : op.Final right s cursor out s₁)
    (h' : op.Final right s cursor out' s₂) : out = out' ∧ s₁ = s₂ := by
  obtain ⟨after, hafter, rfl, hout⟩ := h.visited
  obtain ⟨after', hafter', rfl, hout'⟩ := h'.visited
  rw [hafter] at hafter'
  cases hafter'
  refine ⟨?_, rfl⟩
  split at hout
  · next hquiet =>
    rw [if_pos hquiet] at hout'
    rw [hout.2, hout'.2]
  · next hloud =>
    rw [if_neg hloud] at hout'
    obtain ⟨range, order, hinfluence, hout⟩ := hout
    obtain ⟨range', order', hinfluence', hout'⟩ := hout'
    obtain ⟨rfl, rfl⟩ := hinfluence.unique hinfluence'
    exact hout.unique hout'

theorem Left.unique {row : PreparedRow} {s s₁ s₂ : AsOfState} {out out' : List (Row Value × Int)}
    (h : op.Left row s out s₁) (h' : op.Left row s out' s₂) : out = out' ∧ s₁ = s₂ := by
  obtain ⟨after, candidates, winner, left, hafter, hselect, hwinner, hleft, hout, rfl⟩ := h
  obtain ⟨after', candidates', winner', left', hafter', hselect', hwinner', hleft', hout', rfl⟩ :=
    h'
  rw [hafter] at hafter'
  rw [hselect] at hselect'
  cases hafter'
  cases hselect'
  rw [hwinner] at hwinner'
  rw [hleft] at hleft'
  cases hwinner'
  cases hleft'
  exact ⟨Appended.rightUnique.forall₂ hout hout', rfl⟩

theorem Completes.unique {port : Nat} {row : PreparedRow} {s s₁ s₂ : AsOfState}
    {cursor : AsOfCursor} {out out' : List (Row Value × Int)}
    (h : op.Completes port row s cursor out s₁) (h' : op.Completes port row s cursor out' s₂) :
    out = out' ∧ s₁ = s₂ := by
  unfold Completes at h h'
  split at h
  · next hport =>
    rw [if_pos hport] at h'
    exact Left.unique h h'
  · next hport =>
    rw [if_neg hport] at h'
    exact Final.unique h h'

end Pages

/-! ## Whole events -/

section Inputs

variable [DecidableEq Value] {Q : Type} (op : AsOfJoinOperation Ty Value)

/-- A sequence of events, each visiting all its left rows at once. -/
inductive Events : List (Nat × (Row Value × Int)) → AsOfState → List (Row Value × Int) →
    AsOfState → Prop
  | nil {s : AsOfState} : Events [] s [] s
  | cons {port : Nat} {event : Row Value × Int} {events : List (Nat × (Row Value × Int))}
      {s s₁ s' : AsOfState} {out out' : List (Row Value × Int)} :
      port < 2 → event.2 ≠ 0 → op.Admitted port event.1 →
      op.Completes port (op.prepared port event) s freshCursor out s₁ → Events events s₁ out' s' →
      Events ((port, event) :: events) s (out ++ out') s'

theorem Events.append {op : AsOfJoinOperation Ty Value}
    {events events' : List (Nat × (Row Value × Int))} {s s₁ s₂ : AsOfState}
    {out out' : List (Row Value × Int)}
    (h : op.Events events s out s₁) (h' : op.Events events' s₁ out' s₂) :
    op.Events (events ++ events') s (out ++ out') s₂ := by
  induction h with
  | nil => exact h'
  | cons hport hne hadmitted hfinal _ ih =>
    rw [List.append_assoc]
    exact .cons hport hne hadmitted hfinal (ih h')

/-- Events determine their outputs and the state they end in. -/
theorem Events.unique {op : AsOfJoinOperation Ty Value}
    {events : List (Nat × (Row Value × Int))} {s s₁ s₂ : AsOfState}
    {out out' : List (Row Value × Int)}
    (h : op.Events events s out s₁) (h' : op.Events events s out' s₂) : out = out' ∧ s₁ = s₂ := by
  induction h generalizing out' s₂ with
  | nil =>
    cases h'
    exact ⟨rfl, rfl⟩
  | cons _ _ _ hfinal _ ih =>
    cases h' with
    | cons _ _ _ hfinal' hrest =>
      obtain ⟨rfl, rfl⟩ := hfinal.unique hfinal'
      obtain ⟨rfl, rfl⟩ := ih hrest
      exact ⟨rfl, rfl⟩

/-- Where a run of pages stands: between two events, or part way through the left rows of
the next one, whose pages so far are joined to one. -/
def Midway (port : Nat) (events : List (Row Value × Int)) (s : AsOfState) (cursor : AsOfCursor)
    (out : List (Row Value × Int)) : Prop :=
  (cursor = freshCursor ∧ out = []) ∨ ∃ event tail, events = event :: tail ∧ port ≠ 0 ∧
    op.Admitted port event.1 ∧ op.Partial (op.prepared port event) s freshCursor out cursor

/-- A run of pages is a run of whole events and a place midway through the next one. -/
theorem Drives.events {op : AsOfJoinOperation Ty Value} {port : Nat} (hport : port < 2)
    {events rest : List (Row Value × Int)} {cursor cursor' : AsOfCursor} {s s' : AsOfState}
    {out out₀ : List (Row Value × Int)} (h : op.Drives port events cursor s out rest cursor' s')
    (hnonzero : ∀ e ∈ events, e.2 ≠ 0) (hstart : op.Midway port events s cursor out₀) :
    ∃ n out₁ out₂, rest = events.drop n ∧ out₀ ++ out = out₁ ++ out₂ ∧
      op.Events ((events.take n).map fun e => (port, e)) s out₁ s' ∧
      op.Midway port rest s' cursor' out₂ := by
  induction h generalizing out₀ with
  | refl => exact ⟨0, [], out₀, rfl, by simp, .nil, hstart⟩
  | @part event events rest cursor cursor₁ cursor' s s' out out' ha hp hpart _ ih =>
    rw [← List.append_assoc]
    refine ih hnonzero (.inr ⟨event, events, rfl, hp, ha, ?_⟩)
    rcases hstart with ⟨rfl, rfl⟩ | ⟨event', tail, heq, -, -, hstart⟩
    · exact hpart
    · cases heq
      exact hstart.trans hpart
  | @full event events rest cursor cursor₁ cursor' s s₁ s' out out' ha hc hfinal _ ih =>
    have hwhole : op.Completes port (op.prepared port event) s freshCursor (out₀ ++ out) s₁ := by
      rcases hstart with ⟨rfl, rfl⟩ | ⟨event', tail, heq, hp, -, hstart⟩
      · exact hfinal
      · cases heq
        unfold Completes at hfinal ⊢
        rw [if_neg hp] at hfinal ⊢
        exact hstart.final hfinal
    have hfresh : cursor₁ = freshCursor := by
      rw [hc]
      split
      · next hzero =>
        rcases hstart with ⟨rfl, -⟩ | ⟨_, _, _, hp, _⟩
        · rfl
        · exact absurd hzero hp
      · rfl
    obtain ⟨n, out₁, out₂, rfl, hout, hevents, hend⟩ :=
      ih (fun e he => hnonzero e (List.mem_cons_of_mem _ he)) (.inl ⟨hfresh, rfl⟩)
    refine ⟨n + 1, out₀ ++ out ++ out₁, out₂, rfl, ?_, ?_, hend⟩
    · rw [← List.append_assoc, List.append_assoc (out₀ ++ out), ← hout, List.nil_append]
    · exact .cons hport (hnonzero event List.mem_cons_self) ha hwhole hevents

/-- An input stepped to its end is a run of whole events. -/
theorem events_of_handles {port : Nat} {change : Change (Row Value)}
    {outputs : List (Option (Change (Row Value)))} {s s' : AsOfState}
    (h : Handles (.paged op.paged : Operation AsOfState Q (Row Value)) s (port, change) outputs
      s') :
    op.Events (change.events.map fun e => (port, e)) s (outputsEvents outputs) s' := by
  cases h with
  | paged hpages =>
    obtain ⟨cursor, cursor', hport, hcursor, -, hdrives⟩ := op.drives_of_pages hpages
    cases hcursor
    have hdrives : op.Drives port change.events freshCursor s (outputsEvents outputs) [] cursor'
        s' := hdrives
    obtain ⟨n, out₁, out₂, hrest, hout, hevents, hend⟩ :=
      hdrives.events hport change.nonzero (.inl ⟨rfl, rfl⟩)
    rw [List.take_of_length_le (List.drop_eq_nil_iff.mp hrest.symm)] at hevents
    rcases hend with ⟨-, rfl⟩ | ⟨event, tail, hcons, -⟩
    · rw [List.nil_append, List.append_nil] at hout
      rw [hout]
      exact hevents
    · cases hcons

end Inputs

end AsOfJoinOperation

end Dogpaddle.AsOf
