import Dogpaddle.Store.Commit
import Dogpaddle.Store.Partitions

/-!
# Operations stay within their namespace

`Local data x` says that a computation on a transaction sees and changes the keys of one
namespace only: all other keys keep their values, and two transactions that hold the same
contents in the namespace answer alike and hold the same contents again. Every operation of
every collection is local (`CollectionOp.localTo`), from the calls of the engine up.
-/

namespace Dogpaddle.Store

open Lib

/-! ## Local computations -/

section Local

variable {α β : Type} {ε σ : Type}

/-- The value or the error of a run. -/
def outcome : EStateM.Result ε σ α → Except ε α
  | .ok a _ => .ok a
  | .error e _ => .error e

/-- The state after a run. -/
def after : EStateM.Result ε σ α → σ
  | .ok _ s => s
  | .error _ s => s

/-- Transactions that agree on one namespace, on poisoning and on the engine. -/
structure Twin (data : DataAccess) (tx tx' : Transaction) : Prop where
  contents : ∀ key, contents data tx key = contents data tx' key
  storeToken : tx.storeToken = tx'.storeToken
  poisoned : tx.poisoned = tx'.poisoned
  faults : tx.faults = tx'.faults

/-- Outside a namespace a transaction reads as another one does, on the same snapshot. -/
structure Frame (data : DataAccess) (tx tx' : Transaction) : Prop where
  snapshot : tx'.snapshot = tx.snapshot
  storeToken : tx'.storeToken = tx.storeToken
  rest : ∀ key, ¬ data <+: key → tx'.view.get? key = tx.view.get? key

theorem Frame.refl {data : DataAccess} (tx : Transaction) : Frame data tx tx :=
  ⟨rfl, rfl, fun _ _ => rfl⟩

theorem Frame.trans {data : DataAccess} {tx tx' tx'' : Transaction} (h : Frame data tx tx')
    (h' : Frame data tx' tx'') : Frame data tx tx'' :=
  ⟨h'.snapshot.trans h.snapshot, h'.storeToken.trans h.storeToken,
    fun key hkey => (h'.rest key hkey).trans (h.rest key hkey)⟩

structure Local (data : DataAccess) (x : TxM α) : Prop where
  frame : ∀ tx, Frame data tx (after (x tx))
  answers : ∀ tx tx', Twin data tx tx' → outcome (x tx) = outcome (x tx')
  twin : ∀ tx tx', Twin data tx tx' → Twin data (after (x tx)) (after (x tx'))

variable {data : DataAccess}

theorem Local.pure (a : α) : Local data (pure a : TxM α) :=
  ⟨fun tx => .refl tx, fun _ _ _ => rfl, fun _ _ h => h⟩

theorem Local.throw (e : Failure) : Local data (throw e : TxM α) :=
  ⟨fun tx => .refl tx, fun _ _ _ => rfl, fun _ _ h => h⟩

theorem Local.bind {x : TxM α} {f : α → TxM β} (hx : Local data x) (hf : ∀ a, Local data (f a)) :
    Local data (x >>= f) := by
  refine ⟨fun tx => ?_, fun tx tx' h => ?_, fun tx tx' h => ?_⟩
  · have hframe := hx.frame tx
    cases hrun : x tx with
    | ok a mid =>
      rw [hrun] at hframe
      rw [bind_of_ok hrun]
      exact hframe.trans ((hf a).frame mid)
    | error e mid =>
      rw [hrun] at hframe
      rw [bind_of_error hrun]
      exact hframe
  · have hsame := hx.answers tx tx' h
    have htwin := hx.twin tx tx' h
    cases hrun : x tx with
    | ok a mid =>
      cases hrun' : x tx' with
      | ok b mid' =>
        rw [hrun, hrun'] at hsame htwin
        cases hsame
        rw [bind_of_ok hrun, bind_of_ok hrun']
        exact (hf a).answers mid mid' htwin
      | error e mid' =>
        rw [hrun, hrun'] at hsame
        cases hsame
    | error e mid =>
      cases hrun' : x tx' with
      | ok b mid' =>
        rw [hrun, hrun'] at hsame
        cases hsame
      | error e' mid' =>
        rw [hrun, hrun'] at hsame
        cases hsame
        rw [bind_of_error hrun, bind_of_error hrun']
        rfl
  · have hsame := hx.answers tx tx' h
    have htwin := hx.twin tx tx' h
    cases hrun : x tx with
    | ok a mid =>
      cases hrun' : x tx' with
      | ok b mid' =>
        rw [hrun, hrun'] at hsame htwin
        cases hsame
        rw [bind_of_ok hrun, bind_of_ok hrun']
        exact (hf a).twin mid mid' htwin
      | error e mid' =>
        rw [hrun, hrun'] at hsame
        cases hsame
    | error e mid =>
      cases hrun' : x tx' with
      | ok b mid' =>
        rw [hrun, hrun'] at hsame
        cases hsame
      | error e' mid' =>
        rw [hrun, hrun'] at htwin
        rw [bind_of_error hrun, bind_of_error hrun']
        exact htwin

theorem Local.ite {c : Prop} [Decidable c] {x y : TxM α} (hx : Local data x) (hy : Local data y) :
    Local data (if c then x else y) := by
  split
  · exact hx
  · exact hy

/-! ## Poisoning and the engine -/

theorem Twin.poison {tx tx' : Transaction} (h : Twin data tx tx') :
    Twin data { tx with poisoned := true } { tx' with poisoned := true } :=
  ⟨h.contents, h.storeToken, rfl, h.faults⟩

theorem local_poison : Local data poison :=
  ⟨fun _ => ⟨rfl, rfl, fun _ _ => rfl⟩, fun _ _ _ => rfl, fun _ _ h => h.poison⟩

theorem local_ensureHealthy : Local data ensureHealthy := by
  refine ⟨fun tx => ?_, fun tx tx' h => ?_, fun tx tx' h => ?_⟩
  · obtain ⟨snapshot, staged, token, poisoned, hasWrites, faults⟩ := tx
    cases poisoned <;> exact .refl _
  · obtain ⟨snapshot, staged, token, poisoned, hasWrites, faults⟩ := tx
    obtain ⟨snapshot', staged', token', poisoned', hasWrites', faults'⟩ := tx'
    cases (show poisoned = poisoned' from h.poisoned)
    cases poisoned <;> rfl
  · obtain ⟨snapshot, staged, token, poisoned, hasWrites, faults⟩ := tx
    obtain ⟨snapshot', staged', token', poisoned', hasWrites', faults'⟩ := tx'
    cases (show poisoned = poisoned' from h.poisoned)
    cases poisoned <;> exact h

theorem local_poisonOnError (result : Except String α) : Local data (poisonOnError result) := by
  cases result with
  | ok a => exact .pure a
  | error message => exact local_poison.bind fun _ => .throw _

theorem local_poisonOnFailure (result : Except Failure α) :
    Local data (poisonOnFailure result) := by
  cases result with
  | ok a => exact .pure a
  | error e => exact local_poison.bind fun _ => .throw _

theorem local_recordResult (result : Except Failure α) : Local data (recordResult result) := by
  cases result with
  | ok a => exact .pure a
  | error e =>
    show Local data (do
      if e.poisonsTransaction then poison
      throw e)
    split
    · exact local_poison.bind fun _ => .throw e
    · exact .throw e

theorem local_fail (e : Failure) : Local data (QueueAccess.fail e : TxM α) :=
  local_recordResult _

theorem local_nextFault : Local data nextFault := by
  refine ⟨fun tx => ?_, fun tx tx' h => ?_, fun tx tx' h => ?_⟩
  · obtain ⟨snapshot, staged, token, poisoned, hasWrites, faults⟩ := tx
    cases faults <;> exact ⟨rfl, rfl, fun _ _ => rfl⟩
  · obtain ⟨snapshot, staged, token, poisoned, hasWrites, faults⟩ := tx
    obtain ⟨snapshot', staged', token', poisoned', hasWrites', faults'⟩ := tx'
    cases (show faults = faults' from h.faults)
    cases faults <;> rfl
  · obtain ⟨snapshot, staged, token, poisoned, hasWrites, faults⟩ := tx
    obtain ⟨snapshot', staged', token', poisoned', hasWrites', faults'⟩ := tx'
    cases (show faults = faults' from h.faults)
    cases faults with
    | nil => exact h
    | cons fault faults => exact ⟨h.contents, h.storeToken, h.poisoned, rfl⟩

/-- A read of the engine that depends on the contents of the namespace only. -/
theorem local_engineRead {operation : String} {read : Database → α}
    (h : ∀ tx tx', Twin data tx tx' → read tx.view = read tx'.view) :
    Local data (engineRead operation read) := by
  refine local_nextFault.bind fun fault => ?_
  cases fault with
  | true => exact .pure _
  | false =>
    refine ⟨fun tx => .refl tx, fun tx tx' ht => ?_, fun tx tx' ht => ht⟩
    show Except.ok (Except.ok (read tx.view)) = Except.ok (Except.ok (read tx'.view))
    rw [h tx tx' ht]

theorem view_staged (tx : Transaction) (write : Write) :
    Transaction.view { tx with staged := tx.staged ++ [write] } = write.apply tx.view :=
  applyWrites_append _ _ _

theorem get?_apply_of_ne {db : Database} {write : Write} {target key : Bytes}
    (hwrite : (∃ value, write = .put target value) ∨ write = .delete target) (h : key ≠ target) :
    (write.apply db).get? key = db.get? key := by
  rcases hwrite with ⟨value, rfl⟩ | rfl
  · rw [get?_apply_put, if_neg h]
  · rw [get?_apply_delete, if_neg h]

theorem get?_apply_congr {db db' : Database} {write : Write} {target key : Bytes}
    (hwrite : (∃ value, write = .put target value) ∨ write = .delete target)
    (h : db.get? key = db'.get? key) : (write.apply db).get? key = (write.apply db').get? key := by
  rcases hwrite with ⟨value, rfl⟩ | rfl
  · rw [get?_apply_put, get?_apply_put, h]
  · rw [get?_apply_delete, get?_apply_delete, h]

/-- A write of the engine below the namespace. -/
theorem local_engineWrite {operation : String} {write : Write} {key : Bytes}
    (hwrite : (∃ value, write = .put (physicalKey data key) value) ∨
      write = .delete (physicalKey data key)) : Local data (engineWrite operation write) := by
  refine local_nextFault.bind fun fault => ?_
  cases fault with
  | true => exact .pure _
  | false =>
    refine ⟨fun tx => ⟨rfl, rfl, fun other hother => ?_⟩, fun tx tx' _ => rfl, fun tx tx' ht => ?_⟩
    · show (Transaction.view { tx with staged := tx.staged ++ [write] }).get? other = _
      rw [view_staged]
      refine get?_apply_of_ne hwrite fun heq => hother ?_
      rw [heq]
      exact List.prefix_append _ _
    · refine ⟨fun other => ?_, ht.storeToken, ht.poisoned, ht.faults⟩
      show (Transaction.view { tx with staged := tx.staged ++ [write] }).get? _ =
        (Transaction.view { tx' with staged := tx'.staged ++ [write] }).get? _
      rw [view_staged, view_staged]
      exact get?_apply_congr hwrite (ht.contents other)

theorem local_recordWriteResult (result : Except Failure α) :
    Local data (recordWriteResult result) := by
  refine (local_recordResult result).bind fun a => ?_
  exact ⟨fun _ => ⟨rfl, rfl, fun _ _ => rfl⟩, fun _ _ _ => rfl,
    fun _ _ h => ⟨h.contents, h.storeToken, h.poisoned, h.faults⟩⟩

def Failure.tooLarge : Failure → Bool
  | .itemTooLarge _ _ => true
  | _ => false

/-- An error of one kind may be replaced by what records another. -/
theorem Local.replace {x y z : TxM α} (p : Failure → Bool) (hx : Local data x) (hz : Local data z)
    (hok : ∀ tx a tx', x tx = .ok a tx' → y tx = .ok a tx')
    (herror : ∀ tx e tx', x tx = .error e tx' → y tx = if p e then z tx' else .error e tx') :
    Local data y := by
  have hrun : ∀ tx, y tx = x tx ∧ (∀ e, outcome (x tx) = .error e → p e = false) ∨
      (∃ e tx', x tx = .error e tx' ∧ p e = true ∧ y tx = z tx') := by
    intro tx
    cases h : x tx with
    | ok a tx' =>
      rw [hok tx a tx' h]
      exact .inl ⟨rfl, fun e he => nomatch he⟩
    | error e tx' =>
      rw [herror tx e tx' h]
      cases hp : p e with
      | true => exact .inr ⟨e, tx', rfl, hp, rfl⟩
      | false =>
        refine .inl ⟨rfl, fun e' he => ?_⟩
        cases he
        exact hp
  refine ⟨fun tx => ?_, fun tx tx' h => ?_, fun tx tx' h => ?_⟩
  · have hframe := hx.frame tx
    rcases hrun tx with ⟨heq, -⟩ | ⟨e, mid, herr, -, heq⟩
    · rw [heq]
      exact hframe
    · rw [herr] at hframe
      rw [heq]
      exact hframe.trans (hz.frame mid)
  · have hsame := hx.answers tx tx' h
    have htwin := hx.twin tx tx' h
    rcases hrun tx with ⟨heq, hkept⟩ | ⟨e, mid, herr, hp, heq⟩
    · rcases hrun tx' with ⟨heq', -⟩ | ⟨e', mid', herr', hp', heq'⟩
      · rw [heq, heq']
        exact hsame
      · rw [herr'] at hsame
        rw [hkept e' hsame] at hp'
        cases hp'
    · rcases hrun tx' with ⟨heq', hkept'⟩ | ⟨e', mid', herr', hp', heq'⟩
      · rw [herr] at hsame
        rw [hkept' e hsame.symm] at hp
        cases hp
      · rw [herr, herr'] at htwin
        rw [heq, heq']
        exact hz.answers mid mid' htwin
  · have hsame := hx.answers tx tx' h
    have htwin := hx.twin tx tx' h
    rcases hrun tx with ⟨heq, hkept⟩ | ⟨e, mid, herr, hp, heq⟩
    · rcases hrun tx' with ⟨heq', -⟩ | ⟨e', mid', herr', hp', heq'⟩
      · rw [heq, heq']
        exact htwin
      · rw [herr'] at hsame
        rw [hkept e' hsame] at hp'
        cases hp'
    · rcases hrun tx' with ⟨heq', hkept'⟩ | ⟨e', mid', herr', hp', heq'⟩
      · rw [herr] at hsame
        rw [hkept' e hsame.symm] at hp
        cases hp
      · rw [herr, herr'] at htwin
        rw [heq, heq']
        exact hz.twin mid mid' htwin

end Local

/-! ## What iterators find in a namespace -/

section Iterators

variable {data : DataAccess} {db db' : Database}

/-- Databases that agree on a namespace have the same entries in it. -/
theorem filter_entries_congr
    (h : ∀ key, db.get? (physicalKey data key) = db'.get? (physicalKey data key))
    {p : Bytes × Bytes → Bool} (hp : ∀ e, p e = true → data <+: e.1) :
    db.entries.filter p = db'.entries.filter p := by
  have hmem : ∀ e, p e = true → (e ∈ db.entries ↔ e ∈ db'.entries) := by
    intro e he
    obtain ⟨key, hkey⟩ := hp e he
    have hget := h key
    rw [physicalKey, hkey] at hget
    rw [show e = (e.1, e.2) from rfl, OrdMap.mem_entries, OrdMap.mem_entries, hget]
  refine eq_of_pairwise_visits ((db.sorted.filter _).imp visitsBefore_ascending.mpr)
    ((db'.sorted.filter _).imp visitsBefore_ascending.mpr) fun e => ?_
  rw [List.mem_filter, List.mem_filter]
  constructor
  · rintro ⟨he, hpe⟩
    exact ⟨(hmem e hpe).mp he, hpe⟩
  · rintro ⟨he, hpe⟩
    exact ⟨(hmem e hpe).mpr he, hpe⟩

/-- A scan depends on the entries of its namespace. -/
theorem scanData_congr {K V : Type} (hdata : (prefixSuccessor data).isSome = true)
    (h : ∀ key, db.get? (physicalKey data key) = db'.get? (physicalKey data key))
    (key : Codec K) (value : Codec V) (direction : ScanDirection)
    (lower upper : EncodedBound Bytes) (limit : ScanLimit) (start : Bytes) :
    scanData key value db data direction lower upper limit start =
      scanData key value db' data direction lower upper limit start := by
  have hmatching : (iteratorOf db data direction lower upper).filter (matching data lower upper) =
      (iteratorOf db' data direction lower upper).filter (matching data lower upper) := by
    refine eq_of_pairwise_visits ((pairwise_iteratorOf db).filter _)
      ((pairwise_iteratorOf db').filter _) fun e => ?_
    have hentries := filter_entries_congr h (p := matching data lower upper) fun e he => by
      obtain ⟨k, hk, -⟩ := matching_iff.mp he
      exact ⟨k, hk.symm⟩
    have hboth : (e ∈ db.entries ∧ matching data lower upper e = true) ↔
        (e ∈ db'.entries ∧ matching data lower upper e = true) := by
      rw [← List.mem_filter, ← List.mem_filter, hentries]
    rw [List.mem_filter, List.mem_filter]
    constructor
    · rintro ⟨he, hm⟩
      exact ⟨(mem_iteratorOf hdata hm).mpr (hboth.mp ⟨(mem_iteratorOf hdata hm).mp he, hm⟩).1, hm⟩
    · rintro ⟨he, hm⟩
      exact ⟨(mem_iteratorOf hdata hm).mpr (hboth.mpr ⟨(mem_iteratorOf hdata hm).mp he, hm⟩).1, hm⟩
  rw [scanData_iterator, scanData_iterator, scanLoop_filter _ _ _ (stops_iteratorOf db hdata),
    scanLoop_filter _ _ _ (stops_iteratorOf db' hdata), hmatching]

/-- Whether a run of raw keys, at most one of them excluded, has one below a target. -/
def emptyRun (target : Bytes) (excluded : Option Bytes) (iterator : List (Bytes × Bytes)) : Bool :=
  let iterator := match excluded with
    | none => iterator
    | some key => if (iterator.head?.bind fun e => strip target e.1) = some key
        then iterator.tail else iterator
  !(iterator.head?.any fun e => target.isPrefixOf e.1)

theorem any_head?_append {target : Bytes} (run rest : List (Bytes × Bytes))
    (hrest : ∀ e ∈ rest, strip target e.1 = none) :
    ((run ++ rest).head?.any fun e => target.isPrefixOf e.1) =
      (run.head?.any fun e => target.isPrefixOf e.1) := by
  cases run with
  | nil =>
    cases rest with
    | nil => rfl
    | cons e rest =>
      have hnone := strip_eq_none.mp (hrest e List.mem_cons_self)
      rw [← List.isPrefixOf_iff_prefix, Bool.not_eq_true] at hnone
      exact hnone
  | cons e run => rfl

/-- What stands behind the keys below the target does not matter. -/
theorem emptyRun_append {target : Bytes} (excluded : Option Bytes)
    (run rest : List (Bytes × Bytes)) (hrest : ∀ e ∈ rest, strip target e.1 = none) :
    emptyRun target excluded (run ++ rest) = emptyRun target excluded run := by
  unfold emptyRun
  cases excluded with
  | none => exact congrArg (! ·) (any_head?_append run rest hrest)
  | some key =>
    dsimp only
    cases run with
    | nil =>
      cases rest with
      | nil => rfl
      | cons e rest =>
        have hnone : ¬ (((e :: rest).head?.bind fun e => strip target e.1) = some key) := by
          rw [List.head?_cons, Option.bind_some, hrest e List.mem_cons_self]
          simp
        rw [List.nil_append, if_neg hnone]
        exact congrArg (! ·) (any_head?_append [] (e :: rest) hrest)
    | cons e run =>
      rw [List.cons_append, List.head?_cons, List.head?_cons]
      split
      · exact congrArg (! ·) (any_head?_append run rest hrest)
      · rfl

/-- An iterator at a target within a namespace meets the keys below the target first. -/
theorem seek_target (hdata : (prefixSuccessor data).isSome = true) {target : Bytes}
    (htarget : (prefixSuccessor target).isSome = true) (hbelow : data <+: target) (db : Database) :
    ∃ rest, seek db [] (namespaceEnd data) target =
        db.entries.filter (fun e => (strip target e.1).isSome) ++ rest ∧
      ∀ e ∈ rest, strip target e.1 = none := by
  have hsorted : (seek db [] (namespaceEnd data) target).Pairwise fun a b => a.1 < b.1 :=
    db.sorted.filter _
  have hmem : ∀ e, e ∈ seek db [] (namespaceEnd data) target ↔ e ∈ db.entries ∧
      e.1 < namespaceEnd data ∧ target ≤ e.1 := by
    intro e
    have hnil : ([] : Bytes) ≤ e.1 := le_append [] e.1
    simp [seek, hnil]
  have hruns : (seek db [] (namespaceEnd data) target).Pairwise fun a b =>
      (strip target b.1).isSome = true → (strip target a.1).isSome = true := by
    refine hsorted.imp_of_mem fun {a b} ha _ hlt hb => ?_
    obtain ⟨rest, hrest⟩ := Option.isSome_iff_exists.mp hb
    rw [strip_eq_some] at hrest
    have hle : a.1 ≤ target ++ rest := hrest ▸ le_of_lt hlt
    obtain ⟨rest', hrest'⟩ := prefix_of_between htarget ((hmem a).mp ha).2.2 hle
    rw [← hrest', strip_append]
    rfl
  refine ⟨_, (filter_append_filter_not hruns).symm.trans (congrArg (· ++ _) ?_), ?_⟩
  · refine eq_of_pairwise_visits ((hsorted.filter _).imp visitsBefore_ascending.mpr)
      ((db.sorted.filter _).imp visitsBefore_ascending.mpr) fun e => ?_
    rw [List.mem_filter, List.mem_filter, hmem]
    constructor
    · rintro ⟨⟨he, -⟩, hstrip⟩
      exact ⟨he, hstrip⟩
    · rintro ⟨he, hstrip⟩
      obtain ⟨rest, hrest⟩ := Option.isSome_iff_exists.mp hstrip
      rw [strip_eq_some] at hrest
      have hpre : target <+: e.1 := ⟨rest, hrest.symm⟩
      exact ⟨⟨he, lt_namespaceEnd hdata (hbelow.trans hpre), hrest ▸ le_append _ _⟩, hstrip⟩
  · intro e he
    simpa using (List.mem_filter.mp he).2

theorem namespaceIsEmpty_congr (hdata : (prefixSuccessor data).isSome = true)
    (hbelow : ∀ suffix, (prefixSuccessor (data ++ suffix)).isSome = true)
    (h : ∀ key, db.get? (physicalKey data key) = db'.get? (physicalKey data key))
    (suffix : Bytes) (excluded : Option Bytes) :
    namespaceIsEmpty db data suffix excluded = namespaceIsEmpty db' data suffix excluded := by
  have hform : ∀ d : Database, namespaceIsEmpty d data suffix excluded =
      emptyRun (data ++ suffix) excluded (seek d [] (namespaceEnd data) (data ++ suffix)) := by
    intro d
    unfold namespaceIsEmpty emptyRun physicalKey
    by_cases hs : suffix = []
    · subst hs
      rw [if_pos rfl, List.append_nil] <;> rfl
    · rw [if_neg hs] <;> rfl
  obtain ⟨rest, hseek, hrest⟩ := seek_target hdata (hbelow suffix) (List.prefix_append _ _) db
  obtain ⟨rest', hseek', hrest'⟩ := seek_target hdata (hbelow suffix) (List.prefix_append _ _) db'
  have hentries := filter_entries_congr h (p := fun e => (strip (data ++ suffix) e.1).isSome)
    fun e he => by
      obtain ⟨rest, hrest⟩ := Option.isSome_iff_exists.mp he
      rw [strip_eq_some, List.append_assoc] at hrest
      exact ⟨suffix ++ rest, hrest.symm⟩
  rw [hform, hform, hseek, hseek', emptyRun_append _ _ _ hrest, emptyRun_append _ _ _ hrest',
    hentries]

end Iterators

/-! ## Operations -/

section Operations

variable {K V : Type} {dataId : Nat}

theorem prefixSuccessor_below (suffix : Bytes) :
    (prefixSuccessor (dataPrefix dataId ++ suffix)).isSome = true := by
  unfold dataPrefix
  rw [List.cons_append, prefixSuccessor_cons]
  cases prefixSuccessor (toBE 4 dataId ++ suffix) <;> rfl

theorem local_valueLen (key : Bytes) :
    Local (dataPrefix dataId) (DataAccess.valueLen (dataPrefix dataId) key) :=
  local_ensureHealthy.bind fun _ => (local_engineRead fun _ _ h => by
    rw [show (Transaction.view _).get? (physicalKey _ key) = _ from h.contents key]; rfl).bind
      fun _ => local_recordResult _

theorem local_containsKey (key : Bytes) :
    Local (dataPrefix dataId) (DataAccess.containsKey (dataPrefix dataId) key) :=
  (local_valueLen key).bind fun _ => .pure _

theorem local_getBounded (value : Codec V) (key : Bytes) (maxBytes : Nat) :
    Local (dataPrefix dataId) (DataAccess.getBounded (dataPrefix dataId) value key maxBytes) :=
  local_ensureHealthy.bind fun _ => (local_engineRead fun _ _ h => h.contents key).bind
    fun _ => local_recordResult _

theorem local_put (key value : Bytes) :
    Local (dataPrefix dataId) (DataAccess.put (dataPrefix dataId) key value) :=
  local_ensureHealthy.bind fun _ => (local_engineWrite (.inl ⟨value, rfl⟩)).bind
    fun _ => local_recordWriteResult _

theorem local_erase (key : Bytes) :
    Local (dataPrefix dataId) (DataAccess.erase (dataPrefix dataId) key) :=
  local_ensureHealthy.bind fun _ => (local_engineWrite (.inr rfl)).bind
    fun _ => local_recordWriteResult _

theorem local_delete (key : Bytes) :
    Local (dataPrefix dataId) (DataAccess.delete (dataPrefix dataId) key) :=
  (local_containsKey key).bind fun _ => .ite (.pure _) ((local_erase key).bind fun _ => .pure _)

theorem local_partitionIsEmpty (suffix : Bytes) (excluded : Option Bytes) :
    Local (dataPrefix dataId)
      (DataAccess.partitionIsEmpty (dataPrefix dataId) suffix excluded) :=
  local_ensureHealthy.bind fun _ => (local_engineRead fun _ _ h =>
    namespaceIsEmpty_congr (prefixSuccessor_dataPrefix dataId) prefixSuccessor_below h.contents
      suffix excluded).bind fun _ => local_recordResult _

theorem local_scanKeySuffix (key : Codec K) (value : Codec V) (lower upper : EncodedBound Bytes)
    (direction : ScanDirection) (resumeAfter : Option Bytes) (limit : ScanLimit)
    (keySuffix : Bytes) :
    Local (dataPrefix dataId) (DataAccess.scanKeySuffix (dataPrefix dataId) key value lower upper
      direction resumeAfter limit keySuffix) := by
  unfold DataAccess.scanKeySuffix
  cases direction <;> exact local_ensureHealthy.bind fun _ => (local_engineRead fun _ _ h =>
    scanData_congr (prefixSuccessor_dataPrefix dataId) h.contents ..).bind
      fun _ => local_recordResult _

theorem local_storedWeight (key : Bytes) :
    Local (dataPrefix dataId) (storedWeight (dataPrefix dataId) key) := by
  refine (local_getBounded weightCodec key 8).replace
    Failure.tooLarge
    (local_poisonOnFailure (.error (.codec "positive weight is not eight bytes"))) ?_ ?_
  · intro tx a tx' h
    unfold storedWeight
    rw [h]
  · intro tx e tx' h
    unfold storedWeight
    rw [h]
    cases e <;> rfl

theorem local_readWeight (key : Bytes) :
    Local (dataPrefix dataId) (readWeight (dataPrefix dataId) key) := by
  refine (local_storedWeight key).bind fun weight => ?_
  cases weight <;> exact .pure _

theorem local_setEncoded (key : Bytes) (weight : Nat) :
    Local (dataPrefix dataId) (setEncoded (dataPrefix dataId) key weight) :=
  .ite (local_erase key) (local_put key _)

theorem local_adjustEncoded (key : Bytes) (difference : Int) :
    Local (dataPrefix dataId) (adjustEncoded (dataPrefix dataId) key difference) := by
  refine (local_readWeight key).bind fun before => ?_
  refine (local_poisonOnFailure _).bind fun after => ?_
  split
  · exact (local_setEncoded key after).bind fun _ => .pure _
  · exact .pure _

theorem CellOp.localTo {T α : Type} (value : Codec T) (op : CellOp T α) :
    Local (dataPrefix dataId) (op.perform ⟨dataPrefix dataId, value⟩) := by
  cases op with
  | get => exact local_getBounded value [] usizeMax
  | getBounded maxBytes => exact local_getBounded value [] maxBytes
  | set v => exact (local_poisonOnError _).bind fun _ => local_put [] _
  | clear => exact local_delete []

theorem MapOp.localTo {α : Type} (key : Codec K) (value : Codec V) (op : MapOp K V α) :
    Local (dataPrefix dataId) (op.perform ⟨dataPrefix dataId, key, value⟩) := by
  cases op with
  | get k => exact (local_poisonOnError _).bind fun _ => local_getBounded value _ usizeMax
  | getBounded k maxBytes =>
    exact (local_poisonOnError _).bind fun _ => local_getBounded value _ maxBytes
  | put k v =>
    exact (local_poisonOnError _).bind fun _ => (local_poisonOnError _).bind fun _ => local_put _ _
  | remove k => exact (local_poisonOnError _).bind fun _ => local_delete _
  | erase k => exact (local_poisonOnError _).bind fun _ => local_erase _
  | scan lower upper direction resumeAfter limit =>
    refine (local_poisonOnError _).bind fun _ => (local_poisonOnError _).bind fun _ => ?_
    exact (local_poisonOnError _).bind fun _ => local_scanKeySuffix key value ..

theorem WeightOp.localTo_map {α : Type} (key : Codec K) (value : Codec ℕ+) (op : WeightOp K α) :
    Local (dataPrefix dataId) (op.performMap ⟨dataPrefix dataId, key, value⟩) := by
  cases op with
  | multiplicity k => exact (local_poisonOnError _).bind fun _ => local_readWeight _
  | adjust k difference => exact (local_poisonOnError _).bind fun _ => local_adjustEncoded _ _
  | setMultiplicity k weight => exact (local_poisonOnError _).bind fun _ => local_setEncoded _ _

section Partitions

variable {part : MapPartition K V} (hpart : part.data = dataPrefix dataId)
include hpart

theorem local_partitionScan (direction : ScanDirection) (resumeAfter : Option K)
    (limit : ScanLimit) : Local (dataPrefix dataId) (part.scan direction resumeAfter limit) := by
  unfold MapPartition.scan
  rw [hpart]
  refine Local.bind ?_ fun _ => local_scanKeySuffix part.key part.value ..
  cases resumeAfter with
  | none => exact .pure _
  | some k => exact ((local_poisonOnError _).bind fun _ => .pure _).bind fun _ => .pure _

theorem local_endBounded (direction : ScanDirection) (maxBytes : Nat) :
    Local (dataPrefix dataId) (part.endBounded direction maxBytes) := by
  unfold MapPartition.endBounded
  cases ScanLimit.new 1 maxBytes with
  | error e => exact .throw e
  | ok limit => exact (local_partitionScan hpart direction none limit).bind fun _ => .pure _

theorem PartitionOp.localTo {α : Type} (op : PartitionOp K V α) :
    Local (dataPrefix dataId) (op.perform part) := by
  have hkey : ∀ k, Local (dataPrefix dataId) (part.encodeKey k) := fun k =>
    (local_poisonOnError _).bind fun _ => .pure _
  cases op with
  | isEmpty =>
    show Local _ (DataAccess.partitionIsEmpty part.data part.start none)
    rw [hpart]
    exact local_partitionIsEmpty _ _
  | hasOtherKey k =>
    refine (local_poisonOnError _).bind fun key => ?_
    rw [hpart]
    exact (local_partitionIsEmpty _ _).bind fun _ => .pure _
  | get k =>
    refine (hkey k).bind fun key => ?_
    rw [hpart]
    exact local_getBounded _ _ _
  | getBounded k maxBytes =>
    refine (hkey k).bind fun key => ?_
    rw [hpart]
    exact local_getBounded _ _ _
  | put k v =>
    refine (hkey k).bind fun key => (local_poisonOnError _).bind fun value => ?_
    rw [hpart]
    exact local_put _ _
  | erase k =>
    refine (hkey k).bind fun key => ?_
    rw [hpart]
    exact local_erase _
  | scan direction resumeAfter limit => exact local_partitionScan hpart ..
  | firstBounded maxBytes => exact local_endBounded hpart ..
  | lastBounded maxBytes => exact local_endBounded hpart ..

end Partitions

theorem WeightOp.localTo_partition {α : Type} {part : MapPartition K ℕ+}
    (hpart : part.data = dataPrefix dataId) (op : WeightOp K α) :
    Local (dataPrefix dataId) (op.performPartition part) := by
  have hkey : ∀ k, Local (dataPrefix dataId) (part.encodeKey k) := fun k =>
    (local_poisonOnError _).bind fun _ => .pure _
  cases op with
  | multiplicity k =>
    refine (hkey k).bind fun key => ?_
    rw [hpart]
    exact local_readWeight _
  | adjust k difference =>
    refine (hkey k).bind fun key => ?_
    rw [hpart]
    exact local_adjustEncoded _ _
  | setMultiplicity k weight =>
    refine (hkey k).bind fun key => ?_
    rw [hpart]
    exact local_setEncoded _ _

end Operations

/-! ### Queues -/

section Queues

variable {T : Type} {dataId : Nat}

theorem local_storedMetadata :
    Local (dataPrefix dataId) (QueueAccess.storedMetadata ⟨dataPrefix dataId⟩) := by
  refine (local_getBounded bytesCodec [] 24).replace
    Failure.tooLarge
    (local_recordResult (.error (.corruptQueue "queue metadata exceeds its fixed width"))) ?_ ?_
  · intro tx a tx' h
    unfold QueueAccess.storedMetadata
    rw [h]
  · intro tx e tx' h
    unfold QueueAccess.storedMetadata
    rw [h]
    cases e <;> rfl

theorem local_readMetadata :
    Local (dataPrefix dataId) (QueueAccess.readMetadata ⟨dataPrefix dataId⟩) := by
  refine local_storedMetadata.bind fun stored => ?_
  cases stored with
  | none => exact (local_partitionIsEmpty [] none).bind fun _ => .ite (.pure _) (local_fail _)
  | some encoded =>
    dsimp only
    cases decodeMetadata encoded with
    | none => exact local_fail _
    | some m => exact .pure _

theorem local_writeMetadata (m : Metadata) :
    Local (dataPrefix dataId) (QueueAccess.writeMetadata ⟨dataPrefix dataId⟩ m) :=
  .ite (local_fail _) (local_put [] _)

theorem local_readFront (value : Codec T) (m : Metadata) (maxValueBytes : Nat) :
    Local (dataPrefix dataId)
      (QueueAccess.readFront ⟨dataPrefix dataId⟩ value m maxValueBytes) := by
  refine (local_getBounded bytesCodec _ maxValueBytes).bind fun stored => ?_
  cases stored with
  | none => exact local_fail _
  | some encoded =>
    refine (local_recordResult _).bind fun itemBytes => .ite (local_fail _) ?_
    exact (local_poisonOnError _).bind fun _ => .pure _

theorem local_checkTail (m : Metadata) :
    Local (dataPrefix dataId) (QueueAccess.checkTail ⟨dataPrefix dataId⟩ m) :=
  .ite (.pure _) ((local_containsKey _).bind fun _ => .ite (local_fail _) (.pure _))

theorem local_checkNext (m : Metadata) :
    Local (dataPrefix dataId) (QueueAccess.checkNext ⟨dataPrefix dataId⟩ m) :=
  .ite (.pure _) ((local_containsKey _).bind fun _ => .ite (local_fail _) (.pure _))

theorem local_tryPush (value : Codec T) (item : T) (capacity : Nat) :
    Local (dataPrefix dataId)
      (QueueAccess.tryPush ⟨dataPrefix dataId⟩ value item capacity) := by
  refine local_readMetadata.bind fun m => (local_checkTail m).bind fun _ => ?_
  refine (local_poisonOnError _).bind fun encoded => (local_recordResult _).bind fun bytes => ?_
  refine .ite (.pure _) (.ite (local_fail _) ?_)
  refine (local_checkNext m).bind fun _ => .ite (local_fail _) ?_
  exact (local_put _ encoded).bind fun _ => (local_writeMetadata _).bind fun _ => .pure _

theorem local_finishFrontRemoval (head tail queuedBytes : Nat) :
    Local (dataPrefix dataId)
      (QueueAccess.finishFrontRemoval ⟨dataPrefix dataId⟩ head tail queuedBytes) := by
  unfold QueueAccess.finishFrontRemoval
  refine .ite (.ite (local_fail _) ?_) ?_
  · refine (local_erase []).bind fun _ => (local_partitionIsEmpty [] none).bind fun _ => ?_
    exact .ite (local_fail _) (.pure _)
  · refine (local_containsKey _).bind fun _ => .ite (local_fail _) ?_
    exact (local_writeMetadata _).bind fun _ => .pure _

theorem local_popFrontBounded (value : Codec T) (maxValueBytes : Nat) :
    Local (dataPrefix dataId)
      (QueueAccess.popFrontBounded ⟨dataPrefix dataId⟩ value maxValueBytes) := by
  refine local_readMetadata.bind fun m => .ite (.pure _) ?_
  refine (local_readFront value m maxValueBytes).bind fun front => ?_
  refine (local_erase _).bind fun _ => ?_
  exact (local_finishFrontRemoval _ _ _).bind fun _ => .pure _

theorem local_discardLoop (tail entries head queuedBytes : Nat) :
    Local (dataPrefix dataId)
      (QueueAccess.discardLoop ⟨dataPrefix dataId⟩ tail entries head queuedBytes) := by
  induction entries generalizing head queuedBytes with
  | zero => exact .pure _
  | succ entries ih =>
    refine .ite (.pure _) ((local_valueLen _).bind fun length => ?_)
    cases length with
    | none => exact local_fail _
    | some length =>
      refine (local_recordResult _).bind fun bytes => .ite (local_fail _) ?_
      exact (local_erase _).bind fun _ => ih _ _

theorem local_discardFront (maxEntries : Nat) :
    Local (dataPrefix dataId) (QueueAccess.discardFront ⟨dataPrefix dataId⟩ maxEntries) := by
  refine local_readMetadata.bind fun m => .ite (.pure _) ?_
  refine (local_discardLoop _ _ _ _).bind fun removed => ?_
  exact .ite (.pure _) (local_finishFrontRemoval _ _ _)

theorem QueueMethod.localTo {α : Type} (value : Codec T) (op : QueueMethod T α) :
    Local (dataPrefix dataId) (op.perform ⟨dataPrefix dataId⟩ value) := by
  cases op with
  | tryPush item capacity => exact local_tryPush value item capacity
  | popFrontBounded maxValueBytes => exact local_popFrontBounded value maxValueBytes
  | discardFront maxEntries => exact local_discardFront maxEntries
  | isEmpty => exact local_readMetadata.bind fun _ => .pure _
  | queuedBytes => exact local_readMetadata.bind fun _ => .pure _

end Queues

/-! ### All collections -/

/-- The namespace an operation works on; binding a handle works on none. -/
def CollectionOp.target {α : Type} : CollectionOp α → Option DataAccess
  | .access _ => none
  | .cell target _ => some target.data
  | .map target _ => some target.data
  | .weight target _ => some target.data
  | .partition target _ _ _ _ => some target.data
  | .partitionWeight target _ _ _ _ => some target.data
  | .queue target _ _ => some target.data

/-- Binding a handle looks at the store's token only. -/
theorem local_access (data : DataAccess) (handle : DataHandle) : Local data handle.access := by
  refine local_ensureHealthy.bind fun _ => ?_
  have hrun : ∀ tx : Transaction, (do
      if handle.storeToken ≠ (← get).storeToken then do
        poison
        throw .wrongStore
      else pure (dataPrefix handle.dataId) : TxM DataAccess) tx =
      (if handle.storeToken ≠ tx.storeToken then do
        poison
        throw .wrongStore
      else pure (dataPrefix handle.dataId) : TxM DataAccess) tx := fun tx => rfl
  have hrest : ∀ token : Nat, Local data (if handle.storeToken ≠ token then do
        poison
        throw .wrongStore
      else pure (dataPrefix handle.dataId) : TxM DataAccess) := fun token =>
    .ite (local_poison.bind fun _ => .throw _) (.pure _)
  refine ⟨fun tx => ?_, fun tx tx' h => ?_, fun tx tx' h => ?_⟩
  · rw [hrun]
    exact (hrest _).frame tx
  · rw [hrun, hrun, h.storeToken]
    exact (hrest _).answers tx tx' h
  · rw [hrun, hrun, h.storeToken]
    exact (hrest _).twin tx tx' h

/-- Work on a partition is local when it is so for every start of the partition. -/
theorem local_partition {P K V α : Type} {dataId : Nat} (map : OrderedMapAccess (P × K) V)
    (partition : Codec P) (key : Codec K) (p : P) {f : MapPartition K V → TxM α}
    (hf : ∀ start, Local (dataPrefix dataId) (f ⟨map.data, start, key, map.value⟩)) :
    Local (dataPrefix dataId) (map.partition partition key p >>= f) := by
  unfold OrderedMapAccess.partition
  rw [bind_assoc]
  refine (local_poisonOnError _).bind fun start => ?_
  rw [pure_bind]
  exact hf start

/-- Every operation stays within the namespace it works on. -/
theorem CollectionOp.localTo {α : Type} (op : CollectionOp α) {dataId : Nat}
    (h : ∀ data, op.target = some data → data = dataPrefix dataId) :
    Local (dataPrefix dataId) op.perform := by
  cases op with
  | access handle => exact local_access _ handle
  | cell target op =>
    obtain ⟨data, value⟩ := target
    cases h data rfl
    exact op.localTo value
  | map target op =>
    obtain ⟨data, key, value⟩ := target
    cases h data rfl
    exact op.localTo key value
  | weight target op =>
    obtain ⟨data, key, value⟩ := target
    cases h data rfl
    exact op.localTo_map key value
  | partition target partition key p op =>
    exact local_partition target partition key p fun start => op.localTo (h target.data rfl)
  | partitionWeight target partition key p op =>
    exact local_partition target partition key p fun start =>
      op.localTo_partition (h target.data rfl)
  | queue target value op =>
    obtain ⟨data⟩ := target
    cases h data rfl
    exact op.localTo value

end Dogpaddle.Store
