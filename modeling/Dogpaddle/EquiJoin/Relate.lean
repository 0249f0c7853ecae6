import Dogpaddle.EquiJoin.Reference
import Dogpaddle.EquiJoin.Whole

/-!
# Stored rows as relations

* `Stored` relates the rows kept for a port to the relation its input adds up to:
  every weight sits under the canonical bytes of its row, in the partition of its
  key tuple.
* `oppositeRows` reads a partition back as rows: exactly the rows that pair with a
  matchable driving row.
* `render` turns fragments into output rows; `Emits` relates an output item to
  fragments of rows.
-/

namespace Dogpaddle.EquiJoin

open Lib Store Dogpaddle.Relation

variable {Ty Value : Type} [DecidableEq Value]

namespace EquiJoinOperation

variable (op : EquiJoinOperation Ty Value)

/-- The canonical bytes of a row. -/
def rowBytes (port : Nat) (row : Row Value) : Bytes := op.fmt.canonicalRow (op.schema port) row

/-- The partition of a row. -/
def rowKey (port : Nat) (row : Row Value) : Bytes := (op.prepared port (row, 0)).key

/-- Whether a row can match at all. -/
def rowMatchable (port : Nat) (row : Row Value) : Bool := (op.prepared port (row, 0)).matchable

theorem prepared_eq {port : Nat} (event : Row Value × Int) (h : op.Admitted port event.1) :
    op.prepared port event =
      ⟨op.rowBytes port event.1, op.rowKey port event.1, op.rowMatchable port event.1, event.2⟩ := by
  obtain ⟨values, -, -, hv⟩ := h.values
  obtain ⟨row, d⟩ := event
  have hd := op.prepared_difference port (row, d)
  have hk := (hv d).1.trans (hv 0).1.symm
  have hm := (hv d).2.trans (hv 0).2.symm
  cases hp : op.prepared port (row, d) with
  | mk b k m d' =>
    rw [hp] at hd hk hm
    have hb : b = op.rowBytes port row := by
      have := op.prepared_row port (row, d)
      rw [hp] at this
      exact this
    simp only at hd hk hm
    subst hd hb hk hm
    rfl

omit [DecidableEq Value] in
theorem rowBytes_inj {port : Nat} {r r' : Row Value} (h : op.Admitted port r)
    (h' : op.Admitted port r') : op.rowBytes port r = op.rowBytes port r' ↔ r = r' :=
  ⟨op.prepared_row_injective h h', fun heq => by rw [heq]⟩

/-- A driving row pairs with the rows of its partition, when it is matchable. -/
theorem pairsAt_keysMatch_iff {port : Nat} (hport : port < 2) {a b : Row Value}
    (ha : op.Admitted port a) (hb : op.Admitted (1 - port) b) :
    pairsAt op.keysMatch port a b = true ↔
      op.rowMatchable port a = true ∧ op.rowKey (1 - port) b = op.rowKey port a := by
  obtain rfl | rfl : port = 0 ∨ port = 1 := by omega
  · rw [show pairsAt op.keysMatch 0 a b = op.keysMatch a b from rfl, op.keysMatch_iff ha hb 0 0]
    exact and_congr_right fun _ => eq_comm
  · rw [show pairsAt op.keysMatch 1 a b = op.keysMatch b a from rfl, op.keysMatch_iff hb ha 0 0]
    unfold rowMatchable rowKey
    constructor
    · rintro ⟨hm, hkey⟩
      exact ⟨(op.matchable_of_key ha hb hkey.symm).trans hm, hkey⟩
    · rintro ⟨hm, hkey⟩
      exact ⟨(op.matchable_of_key ha hb hkey.symm).symm.trans hm, hkey⟩

/-! ## Stored relations -/

/-- The rows kept for a port are a relation. -/
structure Stored (s : JoinState) (port : Nat) (relation : Bag (Row Value)) : Prop where
  weight : ∀ r, op.Admitted port r →
    (multiplicity (s.rows port (op.rowKey port r)) (op.rowBytes port r) : Int) = relation r
  absent : ∀ r, ¬ op.Admitted port r → relation r = 0
  rows : ∀ key bytes, 0 < multiplicity (s.rows port key) bytes →
    ∃ r, op.Admitted port r ∧ key = op.rowKey port r ∧ bytes = op.rowBytes port r

theorem stored_initial (port : Nat) : op.Stored JoinState.initial port 0 := by
  have hempty : ∀ key, JoinState.initial.rows port key = OrdMap.empty := by
    intro key
    unfold JoinState.rows JoinState.initial
    split <;> rfl
  refine ⟨?_, fun _ _ => rfl, ?_⟩
  · intro r _
    rw [hempty]
    rfl
  · intro key bytes h
    rw [hempty] at h
    exact absurd h (lt_irrefl _)

namespace Stored

variable {op} {s : JoinState} {port : Nat} {relation : Bag (Row Value)}

theorem nonneg (h : op.Stored s port relation) (r : Row Value) : 0 ≤ relation r := by
  by_cases ha : op.Admitted port r
  · rw [← h.weight r ha]
    exact Int.natCast_nonneg _
  · rw [h.absent r ha]

theorem admitted (h : op.Stored s port relation) {r : Row Value} (hpos : 0 < relation r) :
    op.Admitted port r := by
  by_contra ha
  rw [h.absent r ha] at hpos
  exact lt_irrefl _ hpos

/-- The entries of a partition are its rows with their weights. -/
theorem mem_partition (h : op.Stored s port relation) {key bytes : Bytes} {w : ℕ+} :
    (bytes, w) ∈ (s.rows port key).entries ↔ ∃ r, op.Admitted port r ∧ op.rowKey port r = key ∧
      op.rowBytes port r = bytes ∧ relation r = ((w : Nat) : Int) := by
  rw [mem_entries_iff_multiplicity]
  constructor
  · intro hw
    obtain ⟨r, ha, rfl, rfl⟩ := h.rows key bytes (by rw [hw]; exact w.pos)
    exact ⟨r, ha, rfl, rfl, by rw [← h.weight r ha, hw]⟩
  · rintro ⟨r, ha, rfl, rfl, hw⟩
    rw [← h.weight r ha] at hw
    exact_mod_cast hw

/-- A partition as rows. -/
theorem partitionRows (h : op.Stored s port relation) (key : Bytes) :
    ∃ rows : List (Row Value × ℕ+),
      (s.rows port key).entries = rows.map (fun e => (op.rowBytes port e.1, e.2)) ∧
      (rows.map (·.1)).Nodup ∧
      (∀ e ∈ rows, op.Admitted port e.1 ∧ op.rowKey port e.1 = key ∧
        relation e.1 = ((e.2 : Nat) : Int)) ∧
      ∀ r, 0 < relation r → op.rowKey port r = key → r ∈ rows.map (·.1) := by
  have hsorted := (s.rows port key).sorted
  have hread : ∃ rows : List (Row Value × ℕ+),
      (s.rows port key).entries = rows.map (fun e => (op.rowBytes port e.1, e.2)) ∧
      ∀ e ∈ rows, op.Admitted port e.1 ∧ op.rowKey port e.1 = key ∧
        relation e.1 = ((e.2 : Nat) : Int) := by
    have hall : ∀ e ∈ (s.rows port key).entries, ∃ r, op.Admitted port r ∧
        op.rowKey port r = key ∧ op.rowBytes port r = e.1 ∧ relation r = ((e.2 : Nat) : Int) :=
      fun e he => h.mem_partition.mp he
    generalize (s.rows port key).entries = entries at hall
    induction entries with
    | nil => exact ⟨[], rfl, fun e he => by cases he⟩
    | cons e entries ih =>
      obtain ⟨r, ha, hk, hb, hw⟩ := hall e (by simp)
      obtain ⟨rows, hrows, hgood⟩ := ih fun e' he' => hall e' (by simp [he'])
      refine ⟨(r, e.2) :: rows, ?_, ?_⟩
      · rw [List.map_cons, hrows, hb]
      · intro e' he'
        rcases List.mem_cons.mp he' with rfl | he'
        · exact ⟨ha, hk, hw⟩
        · exact hgood e' he'
  obtain ⟨rows, hrows, hgood⟩ := hread
  refine ⟨rows, hrows, ?_, hgood, ?_⟩
  · rw [hrows, List.pairwise_map] at hsorted
    rw [List.Nodup, List.pairwise_map]
    exact hsorted.imp fun hlt heq => by
      rw [heq] at hlt
      exact lt_irrefl _ hlt
  · intro r hpos hkey
    have ha := h.admitted hpos
    obtain ⟨w, hw⟩ : ∃ w : ℕ+, relation r = ((w : Nat) : Int) := by
      refine ⟨(relation r).toNat.toPNat (by omega), ?_⟩
      simp [Nat.toPNat]
      omega
    have hmem := h.mem_partition.mpr ⟨r, ha, hkey, rfl, hw⟩
    rw [hrows] at hmem
    obtain ⟨e, he, heq⟩ := List.mem_map.mp hmem
    have hb : op.rowBytes port e.1 = op.rowBytes port r := (Prod.mk.inj heq).1
    rw [op.rowBytes_inj (hgood e he).1 ha] at hb
    exact List.mem_map.mpr ⟨e, he, hb⟩

theorem partition_isEmpty (h : op.Stored s port relation) (key : Bytes) :
    isEmpty (s.rows port key) = true ↔ ∀ r, 0 < relation r → op.rowKey port r ≠ key := by
  rw [Store.isEmpty_iff]
  constructor
  · rintro hempty r hpos rfl
    rw [← h.weight r (h.admitted hpos), hempty] at hpos
    exact lt_irrefl _ hpos
  · intro hnone bytes
    by_contra hne
    obtain ⟨r, ha, rfl, rfl⟩ := h.rows key bytes (Nat.pos_of_ne_zero hne)
    refine hnone r ?_ rfl
    rw [← h.weight r ha]
    omega

theorem partition_hasOtherKey (h : op.Stored s port relation) {x : Row Value}
    (hx : op.Admitted port x) :
    hasOtherKey (s.rows port (op.rowKey port x)) (op.rowBytes port x) = true ↔
      ∃ r, r ≠ x ∧ 0 < relation r ∧ op.rowKey port r = op.rowKey port x := by
  rw [hasOtherKey_iff]
  constructor
  · rintro ⟨bytes, hne, hpos⟩
    obtain ⟨r, ha, hkey, rfl⟩ := h.rows _ _ hpos
    refine ⟨r, fun heq => hne (by rw [heq]), ?_, hkey.symm⟩
    rw [hkey] at hpos
    rw [← h.weight r ha]
    omega
  · rintro ⟨r, hne, hpos, hkey⟩
    have ha := h.admitted hpos
    refine ⟨op.rowBytes port r, fun heq => hne ((op.rowBytes_inj ha hx).mp heq), ?_⟩
    rw [← h.weight r ha, hkey] at hpos
    omega

end Stored

theorem rows_setRow {port q : Nat} (hport : port < 2) (hq : q < 2) (s : JoinState)
    (key key' bytes : Bytes) (w : Nat) : (s.setRow port key bytes w).rows q key' =
      if q = port ∧ key' = key then setMultiplicity (s.rows port key) bytes w
      else s.rows q key' := by
  obtain rfl | rfl : port = 0 ∨ port = 1 := by omega
  all_goals obtain rfl | rfl : q = 0 ∨ q = 1 := by omega
  all_goals
    by_cases hk : key' = key
    · subst hk
      simp [JoinState.setRow, JoinState.rows]
    · simp [JoinState.setRow, JoinState.rows, hk]

/-- Storing a driving row steps its relation and keeps the opposite one. -/
theorem Stored.setRow {op : EquiJoinOperation Ty Value} {s : JoinState} {port : Nat}
    {own opposite : Bag (Row Value)} (hport : port < 2) (hown : op.Stored s port own)
    (hopposite : op.Stored s (1 - port) opposite) {x : Row Value} (hx : op.Admitted port x)
    {d : Int} {after : Nat} (hafter : (after : Int) = own x + d) :
    op.Stored (s.setRow port (op.rowKey port x) (op.rowBytes port x) after) port
        (stepped own x d) ∧
      op.Stored (s.setRow port (op.rowKey port x) (op.rowBytes port x) after) (1 - port)
        opposite := by
  have hq : 1 - port < 2 := by omega
  have hne : 1 - port ≠ port := by omega
  refine ⟨⟨?_, ?_, ?_⟩, ⟨?_, hopposite.absent, ?_⟩⟩
  · intro r ha
    rw [rows_setRow hport hport, stepped_apply]
    by_cases hr : r = x
    · subst hr
      simp [hafter]
    · rw [if_neg hr, add_zero, ← hown.weight r ha]
      by_cases hkey : op.rowKey port r = op.rowKey port x
      · rw [if_pos ⟨rfl, hkey⟩, multiplicity_setMultiplicity,
          if_neg fun h => hr ((op.rowBytes_inj ha hx).mp h), hkey]
      · rw [if_neg fun h => hkey h.2]
  · intro r ha
    rw [stepped_apply, hown.absent r ha, if_neg fun h : r = x => ha (h ▸ hx), add_zero]
  · intro key bytes hpos
    rw [rows_setRow hport hport] at hpos
    by_cases hkey : key = op.rowKey port x
    · rw [if_pos ⟨rfl, hkey⟩, multiplicity_setMultiplicity] at hpos
      by_cases hbytes : bytes = op.rowBytes port x
      · exact ⟨x, hx, hkey, hbytes⟩
      · rw [if_neg hbytes] at hpos
        rw [hkey]
        exact hown.rows _ _ hpos
    · rw [if_neg fun h => hkey h.2] at hpos
      exact hown.rows _ _ hpos
  · intro r ha
    rw [rows_setRow hport hq, if_neg fun h => hne h.1]
    exact hopposite.weight r ha
  · intro key bytes hpos
    rw [rows_setRow hport hq, if_neg fun h => hne h.1] at hpos
    exact hopposite.rows _ _ hpos

omit [DecidableEq Value] in
/-- A checked weight is the old one plus the difference. -/
theorem adjustedWeight_eq_ok {before after : Nat} {d : Int}
    (h : adjustedWeight before d = .ok after) : (after : Int) = before + d := by
  unfold adjustedWeight at h
  split at h
  · split at h
    · cases h
      omega
    · cases h
  · split at h
    · cases h
      omega
    · cases h

omit [DecidableEq Value] in
theorem eventEffect_eq_ok {row : PreparedRow} {partition : OrdMap Bytes ℕ+} {effect : RowEffect}
    {after : Nat} (h : op.eventEffect row partition = .ok (effect, after)) :
    (after : Int) = multiplicity partition row.row + row.difference ∧
      effect.matched = row.matchable ∧
      effect.transition = (if op.residual.isSome then
        if multiplicity partition row.row = 0 ∧ after ≠ 0 then .first
        else if multiplicity partition row.row ≠ 0 ∧ after = 0 then .last
        else .none
      else if op.kind ≠ .inner ∧ row.matchable then
        if multiplicity partition row.row = 0 ∧ after > 0 ∧ isEmpty partition then .first
        else if multiplicity partition row.row > 0 ∧ after = 0 ∧
            ¬ hasOtherKey partition row.row then .last
        else .none
      else .none) := by
  unfold eventEffect at h
  cases hadjust : adjustedWeight (multiplicity partition row.row) row.difference with
  | error e => simp [hadjust] at h
  | ok w =>
    simp only [hadjust, Except.ok.injEq, Prod.mk.injEq] at h
    obtain ⟨rfl, rfl⟩ := h
    exact ⟨adjustedWeight_eq_ok hadjust, rfl, rfl⟩

/-! ## Output rows -/

/-- The output row of two fragments. -/
def render (f : Fragments (Row Value)) : Row Value :=
  let left := f.1.getD (op.fmt.nullRow op.leftSchema)
  if op.kind.leftOnly then left else left ++ f.2.getD (op.fmt.nullRow op.rightSchema)

/-- The fragments of rows as bytes. -/
def encodeItem (item : Fragments (Row Value) × Int) : Item :=
  ([item.1.1.map (op.rowBytes 0), item.1.2.map (op.rowBytes 1)], item.2)

/-- Fragments of admitted rows. -/
def FragmentsAdmitted (f : Fragments (Row Value)) : Prop :=
  (∀ l ∈ f.1, op.Admitted 0 l) ∧ ∀ r ∈ f.2, op.Admitted 1 r

omit [DecidableEq Value] in
theorem decodeFragment_map (port : Nat) {f : Option (Row Value)}
    (h : ∀ r ∈ f, op.Admitted port r) :
    op.fmt.decodeFragment (op.schema port) (f.map (op.rowBytes port)) =
      .ok (f.getD (op.fmt.nullRow (op.schema port))) := by
  cases f with
  | none => rfl
  | some r => exact (h r rfl).decodes

omit [DecidableEq Value] in
theorem appendRow_encodeItem {item : Fragments (Row Value) × Int}
    (h : op.FragmentsAdmitted item.1) :
    op.fmt.appendRow op.outputSchemas (op.encodeItem item).1 = .ok (op.render item.1) := by
  have hl := op.decodeFragment_map 0 h.1
  have hr := op.decodeFragment_map 1 h.2
  simp only [schema, if_true, one_ne_zero, if_false] at hl hr
  unfold outputSchemas render encodeItem
  cases op.kind.leftOnly <;> simp [RowFormat.appendRow, hl, hr, Except.map]

/-- An output item that stands for fragments of rows, checked or not. -/
def Emits (item : Except EquiJoinError Item) (e : Fragments (Row Value) × Int) : Prop :=
  op.FragmentsAdmitted e.1 ∧
    (item = .ok (op.encodeItem e) ∨ item = checkedItem (op.encodeItem e))

omit [DecidableEq Value] in
theorem checkedItem_eq_ok {i i' : Item} (h : checkedItem i = .ok i') : i' = i := by
  unfold checkedItem outputDifference at h
  by_cases hd : -2 ^ 63 ≤ i.2 ∧ i.2 < 2 ^ 63
  · rw [if_pos hd] at h
    cases h
    rfl
  · rw [if_neg hd] at h
    cases h

omit [DecidableEq Value] in
/-- The rows appended for items are the rendered fragments. -/
theorem Emits.rows {op : EquiJoinOperation Ty Value} {items : List (Except EquiJoinError Item)}
    {es : List (Fragments (Row Value) × Int)} {out : List (Row Value × Int)}
    (h : List.Forall₂ op.Emits items es)
    (hout : List.Forall₂ (Appended op.fmt op.outputSchemas) items out) :
    out = es.map fun e => (op.render e.1, e.2) := by
  induction h generalizing out with
  | nil =>
    cases hout
    rfl
  | @cons item e items es hitem _ ih =>
    cases hout with
    | @cons _ row _ out hrow hrest =>
      obtain ⟨fragments, heq, happend⟩ := hrow
      have hencode : (fragments, row.2) = op.encodeItem e := by
        rcases hitem.2 with hok | hchecked
        · rw [heq] at hok
          exact Except.ok.inj hok
        · rw [heq] at hchecked
          exact checkedItem_eq_ok hchecked.symm
      have hfragments : fragments = (op.encodeItem e).1 := by rw [← hencode]
      rw [hfragments, op.appendRow_encodeItem hitem.1] at happend
      rw [List.map_cons, ← ih hrest]
      congr 1
      have hsnd : row.2 = (op.encodeItem e).2 := by rw [← hencode]
      exact Prod.ext (Except.ok.inj happend).symm hsnd

omit [DecidableEq Value] in
theorem forall₂_flatMap {α γ δ : Type} {R : γ → δ → Prop} {l : List α} {f : α → List γ}
    {g : α → List δ} (h : ∀ a ∈ l, List.Forall₂ R (f a) (g a)) :
    List.Forall₂ R (l.flatMap f) (l.flatMap g) := by
  induction l with
  | nil => exact .nil
  | cons a l ih =>
    rw [List.flatMap_cons, List.flatMap_cons]
    exact List.rel_append (h a (by simp)) (ih fun a' ha' => h a' (by simp [ha']))

/-! ### Fragments of items -/

omit [DecidableEq Value] in
theorem ownFragments_eq {port : Nat} (hport : port < 2) (x : Row Value) (d : Int) :
    (ownFragments port (op.rowBytes port x), d) = op.encodeItem (side port (some x) none, d) := by
  obtain rfl | rfl : port = 0 ∨ port = 1 := by omega
  all_goals rfl

omit [DecidableEq Value] in
theorem oppositeFragments_eq {port : Nat} (hport : port < 2) (b : Row Value) (d : Int) :
    (oppositeFragments port (op.rowBytes (1 - port) b), d) =
      op.encodeItem (side port none (some b), d) := by
  obtain rfl | rfl : port = 0 ∨ port = 1 := by omega
  all_goals rfl

omit [DecidableEq Value] in
theorem pairFragments_eq {port : Nat} (hport : port < 2) (x b : Row Value) (d : Int) :
    (pairFragments port (op.rowBytes port x) (op.rowBytes (1 - port) b), d) =
      op.encodeItem (side port (some x) (some b), d) := by
  obtain rfl | rfl : port = 0 ∨ port = 1 := by omega
  all_goals rfl

omit [DecidableEq Value] in
theorem fragmentsAdmitted_side {port : Nat} (hport : port < 2) {u v : Option (Row Value)} :
    op.FragmentsAdmitted (side port u v) ↔
      (∀ x ∈ u, op.Admitted port x) ∧ ∀ b ∈ v, op.Admitted (1 - port) b := by
  obtain rfl | rfl : port = 0 ∨ port = 1 := by omega
  · exact Iff.rfl
  · exact and_comm

/-! ## Runs of events -/

/-- Both stored relations. -/
structure Relations (s : JoinState) (relation : Nat → Bag (Row Value)) : Prop where
  left : op.Stored s 0 (relation 0)
  right : op.Stored s 1 (relation 1)

theorem Relations.stored {op : EquiJoinOperation Ty Value} {s : JoinState}
    {relation : Nat → Bag (Row Value)} (h : op.Relations s relation) {port : Nat}
    (hport : port < 2) : op.Stored s port (relation port) := by
  obtain rfl | rfl : port = 0 ∨ port = 1 := by omega
  · exact h.left
  · exact h.right

/-- The relations after an event. -/
def stepAt (relation : Nat → Bag (Row Value)) (port : Nat) (event : Row Value × Int) :
    Nat → Bag (Row Value) :=
  fun p => if p = port then stepped (relation p) event.1 event.2 else relation p

@[simp] theorem stepAt_own (relation : Nat → Bag (Row Value)) (port : Nat)
    (event : Row Value × Int) :
    stepAt relation port event port = stepped (relation port) event.1 event.2 := if_pos rfl

theorem stepAt_opposite {port : Nat} (hport : port < 2) (relation : Nat → Bag (Row Value))
    (event : Row Value × Int) : stepAt relation port event (1 - port) = relation (1 - port) :=
  if_neg (by omega)

/-- What the events of one port add up to. -/
def eventsBag (events : List (Nat × (Row Value × Int))) (port : Nat) : Bag (Row Value) :=
  weight ((events.filter fun e => e.1 == port).map (·.2))

theorem eventsBag_nil : eventsBag ([] : List (Nat × (Row Value × Int))) = 0 := by
  funext port
  simp [eventsBag]

theorem eventsBag_append (l r : List (Nat × (Row Value × Int))) :
    eventsBag (l ++ r) = eventsBag l + eventsBag r := by
  funext port
  simp [eventsBag]

theorem eventsBag_cons (e : Nat × (Row Value × Int)) (events : List (Nat × (Row Value × Int)))
    (relation : Nat → Bag (Row Value)) :
    relation + eventsBag (e :: events) = stepAt relation e.1 e.2 + eventsBag events := by
  funext port
  unfold eventsBag stepAt stepped
  rw [Pi.add_apply, Pi.add_apply]
  by_cases hport : port = e.1
  · rw [List.filter_cons_of_pos (by simp [hport]), List.map_cons, weight_cons, if_pos hport,
      add_assoc]
  · rw [List.filter_cons_of_neg (by simpa using Ne.symm hport), if_neg hport]

theorem eventsBag_portEvents (inputs : List (Nat × Change (Row Value))) :
    eventsBag (portEvents inputs) = inputsBag inputs := by
  funext port
  induction inputs with
  | nil => rfl
  | cons i inputs ih =>
    rw [inputsBag_cons, ← ih]
    unfold eventsBag portEvents Change.bag
    rw [List.flatMap_cons, List.filter_append, List.map_append, weight_append]
    congr 1
    rw [List.filter_map, List.map_map]
    by_cases hport : i.1 = port
    · rw [if_pos hport]
      simp [Function.comp_def, hport]
    · rw [if_neg hport, List.filter_eq_nil_iff.mpr (by simp [hport])]
      rfl

theorem referenceAt_stepAt (kind : EquiJoinKind) (pairs : Row Value → Row Value → Bool)
    {port : Nat} (hport : port < 2) (relation : Nat → Bag (Row Value)) (event : Row Value × Int) :
    referenceAt kind pairs port (relation port) (relation (1 - port)) =
        reference kind pairs (relation 0) (relation 1) ∧
      referenceAt kind pairs port (stepped (relation port) event.1 event.2) (relation (1 - port)) =
        reference kind pairs (stepAt relation port event 0) (stepAt relation port event 1) := by
  obtain rfl | rfl : port = 0 ∨ port = 1 := by omega
  all_goals exact ⟨rfl, rfl⟩

/-- An event that puts out the change of the reference, rendered. -/
def Accounts (pairs : Row Value → Row Value → Bool) (relation relation' : Nat → Bag (Row Value))
    (out : List (Row Value × Int)) : Prop :=
  ∃ items : List (Fragments (Row Value) × Int), out = items.map (fun e => (op.render e.1, e.2)) ∧
    weight items + reference op.kind pairs (relation 0) (relation 1) =
      reference op.kind pairs (relation' 0) (relation' 1)

/-- A run puts out the change of the reference when each of its events does. -/
theorem Events.accounts {op : EquiJoinOperation Ty Value} {pairs : Row Value → Row Value → Bool}
    (Inv : JoinState → (Nat → Bag (Row Value)) → Prop)
    (hstep : ∀ {s relation port event out s'}, Inv s relation → port < 2 → event.2 ≠ 0 →
      op.Admitted port event.1 → op.Final port (op.prepared port event) s freshCursor out s' →
      Inv s' (stepAt relation port event) ∧
        op.Accounts pairs relation (stepAt relation port event) out)
    {events : List (Nat × (Row Value × Int))} {s s' : JoinState} {out : List (Row Value × Int)}
    (h : op.Events events s out s') {relation : Nat → Bag (Row Value)} (hinv : Inv s relation) :
    Inv s' (relation + eventsBag events) ∧
      op.Accounts pairs relation (relation + eventsBag events) out := by
  induction h generalizing relation with
  | nil =>
    rw [eventsBag_nil, add_zero]
    exact ⟨hinv, [], rfl, by simp⟩
  | cons hport hne hadmitted hfinal _ ih =>
    obtain ⟨hinv₁, items, rfl, hitems⟩ := hstep hinv hport hne hadmitted hfinal
    rw [eventsBag_cons]
    obtain ⟨hinv', items', rfl, hitems'⟩ := ih hinv₁
    refine ⟨hinv', items ++ items', (List.map_append ..).symm, ?_⟩
    rw [weight_append, add_comm (weight items), add_assoc, hitems, hitems']

theorem reference_zero {R : Type} (kind : EquiJoinKind) (pairs : R → R → Bool) :
    reference kind pairs (0 : Bag R) 0 = 0 := by
  funext f
  obtain ⟨l, r⟩ := f
  cases l <;> cases r <;> cases kind <;> simp [reference]

/-- A sequence of inputs, from the empty relations. -/
theorem outputsBag_of_accounts {inputs : List (Nat × Change (Row Value))}
    {outputs : List (Option (Change (Row Value)))} {pairs : Row Value → Row Value → Bool}
    (h : op.Accounts pairs 0 (0 + eventsBag (portEvents inputs)) (outputsEvents outputs)) :
    outputsBag outputs = push op.render
      (reference op.kind pairs (inputsBag inputs 0) (inputsBag inputs 1)) := by
  obtain ⟨items, hout, hitems⟩ := h
  rw [zero_add, eventsBag_portEvents] at hitems
  have hzero : reference op.kind pairs ((0 : Nat → Bag (Row Value)) 0)
      ((0 : Nat → Bag (Row Value)) 1) = 0 := reference_zero _ _
  rw [hzero, add_zero] at hitems
  rw [← hitems, push_weight, ← hout, weight_outputsEvents]

end EquiJoinOperation

end Dogpaddle.EquiJoin
