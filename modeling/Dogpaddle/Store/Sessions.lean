import Dogpaddle.Store.Catalog
import Mathlib.Logic.Relation

/-!
# Sessions on a store

A store begins with a setup that declares data objects and commits; sessions then open it,
look data objects up and run transactions through the handles they got. Names are joined
through nested scopes, literally.

* transactions leave the marker and the catalog as they are (`World.step_recorded`);
* so every name keeps its identifier and kind, and one object stays out of another's keys
  (`catalog_isolated`).
-/

namespace Dogpaddle.Store

open Lib

/-! ## Scopes -/

inductive DataScopeMode
  | declare (setup : StoreSetup)
  | existing (store : OpenedStore)

structure DataScope where
  mode : DataScopeMode
  outer : Option String

/-- A name below an outer prefix. -/
def joinName (outer : Option String) (name : String) : String :=
  outer.elim name fun parent => parent ++ "/" ++ name

namespace DataScope

def «scoped» (scope : DataScope) (child : String) : DataScope :=
  { scope with outer := some (joinName scope.outer child) }

def data (scope : DataScope) (kind : DataKind) (name : String) :
    Except CatalogError DataHandle × DataScope :=
  match scope.mode with
  | .declare setup =>
    let answered := setup.createData kind (joinName scope.outer name)
    (answered.1, { scope with mode := .declare answered.2 })
  | .existing store => (store.openData kind (joinName scope.outer name), scope)

end DataScope

/-- A declaration or a lookup: the scopes from the outermost one, the name and the kind. -/
structure DataRequest where
  scopes : List String
  name : String
  kind : DataKind
deriving DecidableEq, Repr

def DataRequest.fullName (request : DataRequest) : String :=
  joinName (request.scopes.foldl (fun outer child => some (joinName outer child)) none)
    request.name

def StoreSetup.dataScope (setup : StoreSetup) : DataScope := ⟨.declare setup, none⟩

def OpenedStore.dataScope (store : OpenedStore) : DataScope := ⟨.existing store, none⟩

def DataRequest.scope (request : DataRequest) (root : DataScope) : DataScope :=
  request.scopes.foldl DataScope.scoped root

theorem DataRequest.scope_eq (request : DataRequest) (root : DataScope) :
    request.scope root = ⟨root.mode,
      request.scopes.foldl (fun outer child => some (joinName outer child)) root.outer⟩ := by
  unfold DataRequest.scope
  induction request.scopes generalizing root with
  | nil => rfl
  | cons child scopes ih => exact ih (root.scoped child)

namespace StoreSetup

def declare (setup : StoreSetup) (request : DataRequest) :
    Except CatalogError DataHandle × StoreSetup :=
  setup.createData request.kind request.fullName

/-- Declaring through scopes declares the joined name. -/
theorem data_scope (setup : StoreSetup) (request : DataRequest) :
    ((request.scope setup.dataScope).data request.kind request.name).1 =
      (setup.declare request).1 ∧
    ((request.scope setup.dataScope).data request.kind request.name).2.mode =
      .declare (setup.declare request).2 := by
  rw [request.scope_eq]
  exact ⟨rfl, rfl⟩

/-- The answers to declarations one after another, and the draft after them. -/
def declareAll : List DataRequest → StoreSetup → List (Except CatalogError DataHandle) × StoreSetup
  | [], setup => ([], setup)
  | request :: requests, setup =>
    let answered := setup.declare request
    let rest := declareAll requests answered.2
    (answered.1 :: rest.1, rest.2)

end StoreSetup

namespace OpenedStore

def lookup (store : OpenedStore) (request : DataRequest) : Except CatalogError DataHandle :=
  store.openData request.kind request.fullName

/-- Looking up through scopes looks the joined name up. -/
theorem data_scope (store : OpenedStore) (request : DataRequest) :
    (request.scope store.dataScope).data request.kind request.name =
      (store.lookup request, request.scope store.dataScope) := by
  rw [request.scope_eq]
  rfl

end OpenedStore

/-- The handles among the answers. -/
def handlesOf (answers : List (Except CatalogError DataHandle)) : List DataHandle :=
  answers.filterMap Except.toOption

/-! ## Committing a setup -/

def stagePut (operation : String) (key value : Bytes) : TxM Unit := do
  let staged ← engineWrite operation (.put key value)
  match staged with
  | .ok () => pure ()
  | .error e => throw e

def stageCatalog : List (String × Binding) → TxM Unit
  | [] => pure ()
  | e :: es => do
    stagePut "stage data catalog" (catalogKey e.1) (encodeBinding e.2)
    stageCatalog es

/-- The initial data: operations on the transaction of the setup, and the error the caller
gives up with, if it does. -/
structure Initial where
  operations : List Operation
  error : Option CatalogError

structure Transactions where
  database : Database
  storeToken : Nat

namespace StoreSetup

def stage (setup : StoreSetup) : TxM Unit := do
  stagePut "stage store marker" storeMarkerKey storeMarker
  stageCatalog setup.catalog.entries

/-- Commits a setup and tells what is at the path afterwards. -/
def commit (setup : StoreSetup) (path : Option Database) (initial : Initial)
    (faults : List Bool) (commitFault : Bool) :
    Except CatalogError Transactions × Option Database :=
  match path with
  | some _ => (.error .pathExists, path)
  | none =>
    match setup.stage { Transaction.start .empty setup.token faults with hasWrites := true } with
    | .error e _ => (.error (.access e), some .empty)
    | .ok _ tx =>
      match initial.error with
      | some e => (.error e, some .empty)
      | none =>
        let run := (runOperations initial.operations tx).2
        match run.commit .empty commitFault with
        | (.error e, database) => (.error (.access e), some database)
        | (.ok _, database) => (.ok ⟨database, setup.token⟩, some database)

end StoreSetup

/-! ## Runs -/

/-- An operation works on the namespace of a handle that the transaction accepts. Binding a
handle works on none, and any handle may be tried. -/
def Operation.Through (op : Operation) (token : Nat) (handles : List DataHandle) : Prop :=
  ∀ data, op.2.target = some data →
    ∃ handle ∈ handles, handle.storeToken = token ∧ data = dataPrefix handle.dataId

/-- One transaction from its begin to its commit. -/
structure Work where
  operations : List Operation
  faults : List Bool
  commitFault : Bool

def Work.run (work : Work) (token : Nat) (database : Database) : Database :=
  ((runOperations work.operations (.start database token work.faults)).2.commit database
    work.commitFault).2

/-- A store in use: what it holds, and the handles of the session. -/
structure World where
  database : Database
  token : Nat
  handles : List DataHandle

/-- A session runs a transaction through its handles, or ends and another one opens the store
and looks data objects up. -/
inductive World.Step : World → World → Prop
  | transaction {w : World} (work : Work)
      (h : ∀ op ∈ work.operations, op.Through w.token w.handles) :
      Step w { w with database := work.run w.token w.database }
  | reopen {w : World} {store : OpenedStore} (token : Nat) (faults : List Bool)
      (requests : List DataRequest)
      (h : OpenedStore.open (some w.database) token faults = .ok store) :
      Step w ⟨w.database, token, handlesOf (requests.map store.lookup)⟩

/-! ## Declarations -/

namespace StoreSetup

theorem token_declareAll (requests : List DataRequest) (setup : StoreSetup) :
    (declareAll requests setup).2.token = setup.token := by
  induction requests generalizing setup with
  | nil => rfl
  | cons request requests ih => exact (ih _).trans (token_createData ..)

/-- A declared name keeps its binding through later declarations. -/
theorem get?_declareAll {requests : List DataRequest} {setup : StoreSetup} {name : String}
    {b : Binding} (h : setup.catalog.get? name = some b) :
    (declareAll requests setup).2.catalog.get? name = some b := by
  induction requests generalizing setup with
  | nil => exact h
  | cons request requests ih =>
    refine ih ?_
    unfold declare
    cases hanswer : (setup.createData request.kind request.fullName).1 with
    | error e =>
      rw [createData_error hanswer]
      exact h
    | ok handle =>
      rw [catalog_createData hanswer, OrdMap.get?_put]
      split
      · next heq =>
        rw [heq, (createData_ok.mp hanswer).2.1] at h
        cases h
      · exact h

/-- Every handle stands for the name it was declared under. -/
theorem handle_declareAll {before after : List DataRequest} {request : DataRequest}
    {setup : StoreSetup} {handle : DataHandle}
    (h : ((declareAll before setup).2.declare request).1 = .ok handle) :
    (declareAll (before ++ request :: after) setup).2.catalog.get? request.fullName =
      some ⟨handle.dataId, request.kind⟩ := by
  induction before generalizing setup with
  | nil =>
    have h : (setup.createData request.kind request.fullName).1 = .ok handle := h
    have hdeclared : (setup.declare request).2.catalog.get? request.fullName =
        some ⟨handle.dataId, request.kind⟩ := by
      rw [declare, catalog_createData h, OrdMap.get?_put, if_pos rfl]
    show (declareAll after (setup.declare request).2).2.catalog.get? _ = _
    exact get?_declareAll hdeclared
  | cons first before ih => exact ih h

/-- The handles of a setup carry its token and the identifiers of its catalog. -/
theorem mem_handles_declareAll {requests : List DataRequest} {setup : StoreSetup}
    {handle : DataHandle} (h : handle ∈ handlesOf (declareAll requests setup).1) :
    handle.storeToken = setup.token ∧ ∃ name kind,
      (declareAll requests setup).2.catalog.get? name = some ⟨handle.dataId, kind⟩ := by
  induction requests generalizing setup with
  | nil => cases h
  | cons request requests ih =>
    obtain ⟨answer, hanswer, hok⟩ := List.mem_filterMap.mp h
    rcases List.mem_cons.mp hanswer with rfl | hrest
    · cases hfirst : (setup.createData request.kind request.fullName).1 with
      | error e =>
        rw [declare, hfirst] at hok
        cases hok
      | ok other =>
        rw [declare, hfirst] at hok
        obtain rfl : other = handle := Option.some.inj hok
        have hdeclared : ((declareAll [] setup).2.declare request).1 = .ok other := hfirst
        refine ⟨?_, request.fullName, request.kind, handle_declareAll hdeclared⟩
        rw [(createData_ok.mp hfirst).2.2.2]
    · obtain ⟨htoken, hname⟩ := ih (List.mem_filterMap.mpr ⟨answer, hrest, hok⟩)
      exact ⟨htoken.trans (token_createData ..), hname⟩

end StoreSetup

/-! ## Lookups -/

namespace OpenedStore

theorem lookup_eq_ok {store : OpenedStore} {request : DataRequest} {handle : DataHandle} :
    store.lookup request = .ok handle ↔
      handle.storeToken = store.token ∧
        store.catalog.get? request.fullName = some ⟨handle.dataId, request.kind⟩ := by
  unfold lookup openData
  rw [except_bind_eq_ok]
  constructor
  · rintro ⟨-, hname, h⟩
    split at h
    · cases h
    · next b hb =>
      split at h
      · cases h
      · next hkind =>
        cases h
        rw [not_not] at hkind
        rw [← hkind]
        exact ⟨rfl, hb⟩
  · rintro ⟨htoken, hb⟩
    refine ⟨(), store.valid.named _ _ hb, ?_⟩
    rw [hb]
    simp [OpenedStore.handle, ← htoken]

/-- Which error a lookup that fails has. -/
theorem lookup_eq_error {store : OpenedStore} {request : DataRequest} {e : CatalogError} :
    store.lookup request = .error e ↔
      validateName request.fullName = .error e ∨
      (validateName request.fullName = .ok () ∧
        store.catalog.get? request.fullName = none ∧ e = .dataNotFound request.fullName) ∨
      ∃ b, store.catalog.get? request.fullName = some b ∧ b.kind ≠ request.kind ∧
        e = .dataKindMismatch request.fullName request.kind.name b.kind.name := by
  unfold lookup openData
  cases hname : validateName request.fullName with
  | error e' =>
    have hnone : store.catalog.get? request.fullName = none := by
      cases hb : store.catalog.get? request.fullName with
      | none => rfl
      | some b =>
        rw [store.valid.named _ _ hb] at hname
        cases hname
    rw [hnone]
    show Except.error e' = _ ↔ _
    simp
  | ok u =>
    cases hb : store.catalog.get? request.fullName with
    | none => simp [bind, Except.bind, eq_comm]
    | some b =>
      by_cases hkind : b.kind = request.kind
      · simp [bind, Except.bind, hkind]
      · simp [bind, Except.bind, hkind, eq_comm]

end OpenedStore

/-! ## Keys outside the namespaces worked on -/

/-- An operation leaves a key alone: it works on a namespace the key is not in. -/
def Operation.Avoids (op : Operation) (key : Bytes) : Prop :=
  ∀ data, op.2.target = some data → (∃ dataId, data = dataPrefix dataId) ∧ ¬ data <+: key

theorem Operation.apply_eq_after (op : Operation) (tx : Transaction) :
    (op.apply tx).2 = after (op.2.perform tx) := by
  unfold Operation.apply
  cases op.2.perform tx <;> rfl

/-- No key is in two namespaces. -/
theorem dataPrefix_inj_of_two {i j : Nat} {key : Bytes} (hi : i < 2 ^ 32) (hj : j < 2 ^ 32)
    (h : dataPrefix i <+: key) (h' : dataPrefix j <+: key) : i = j := by
  have heq : dataPrefix i = dataPrefix j :=
    (List.prefix_of_prefix_length_le h h' (by simp [dataPrefix])).eq_of_length
      (by simp [dataPrefix])
  exact (toBE_inj (by simpa using hi) (by simpa using hj)).mp (List.cons.inj heq).2

theorem Operation.apply_avoids {op : Operation} {key : Bytes} (h : op.Avoids key)
    (tx : Transaction) : (op.apply tx).2.snapshot = tx.snapshot ∧
      (op.apply tx).2.view.get? key = tx.view.get? key := by
  rw [op.apply_eq_after]
  cases htarget : op.2.target with
  | some data =>
    obtain ⟨⟨dataId, rfl⟩, hkey⟩ := h data htarget
    have hframe := (op.2.localTo fun data' hdata => by
      rw [htarget] at hdata
      exact (Option.some.inj hdata).symm).frame tx
    exact ⟨hframe.snapshot, hframe.rest key hkey⟩
  | none =>
    -- what works on no namespace stays within two of them, and no key is in both
    have hframe : ∀ dataId, Frame (dataPrefix dataId) tx (after (op.2.perform tx)) := fun dataId =>
      (op.2.localTo fun data hdata => by
        rw [htarget] at hdata
        cases hdata).frame tx
    refine ⟨(hframe 0).snapshot, ?_⟩
    by_cases hkey : dataPrefix 0 <+: key
    · refine (hframe 1).rest key fun hkey' => ?_
      exact absurd (dataPrefix_inj_of_two (by decide) (by decide) hkey hkey') (by decide)
    · exact (hframe 0).rest key hkey

theorem runOperations_avoids {ops : List Operation} {key : Bytes} (h : ∀ op ∈ ops, op.Avoids key)
    (tx : Transaction) : (runOperations ops tx).2.snapshot = tx.snapshot ∧
      (runOperations ops tx).2.view.get? key = tx.view.get? key := by
  induction ops generalizing tx with
  | nil => exact ⟨rfl, rfl⟩
  | cons op ops ih =>
    obtain ⟨hsnapshot, hview⟩ := op.apply_avoids (h op (by simp)) tx
    obtain ⟨hsnapshot', hview'⟩ := ih (fun op' hop' => h op' (by simp [hop'])) (op.apply tx).2
    exact ⟨hsnapshot'.trans hsnapshot, hview'.trans hview⟩

/-- A commit publishes what the transaction sees, or nothing. -/
theorem Transaction.commit_cases (tx : Transaction) (fault : Bool) :
    (tx.commit tx.snapshot fault).2 = tx.snapshot ∨
      (tx.commit tx.snapshot fault).2 = tx.view := by
  unfold Transaction.commit
  split
  · exact .inl rfl
  · split
    · exact .inl rfl
    · split
      · exact .inl rfl
      · exact .inr rfl

theorem Work.run_avoids {work : Work} {key : Bytes} (h : ∀ op ∈ work.operations, op.Avoids key)
    (token : Nat) (database : Database) :
    (work.run token database).get? key = database.get? key := by
  obtain ⟨hsnapshot, hview⟩ :=
    runOperations_avoids h (.start database token work.faults)
  have hcases := (runOperations work.operations
    (.start database token work.faults)).2.commit_cases work.commitFault
  rw [hsnapshot] at hcases
  unfold Work.run
  rcases hcases with heq | heq
  · exact congrArg (·.get? key) heq
  · exact (congrArg (·.get? key) heq).trans hview

/-- What a handle reaches avoids every key outside the namespaces of the handles. -/
theorem Operation.Through.avoids {op : Operation} {token : Nat} {handles : List DataHandle}
    (h : op.Through token handles) {key : Bytes}
    (hkey : ∀ handle ∈ handles, handle.storeToken = token → ¬ dataPrefix handle.dataId <+: key) :
    op.Avoids key := by
  intro data hdata
  obtain ⟨handle, hmem, htoken, rfl⟩ := h data hdata
  exact ⟨⟨handle.dataId, rfl⟩, hkey handle hmem htoken⟩

/-- A key outside the data domain is in no namespace. -/
theorem not_dataPrefix_prefix {dataId : Nat} {key : Bytes} (h : ¬ [2] <+: key) :
    ¬ dataPrefix dataId <+: key := fun hkey =>
  h (List.IsPrefix.trans ⟨toBE 4 dataId, rfl⟩ hkey)

/-- Transactions keep a catalog recorded. -/
theorem Recorded.congr {database database' : Database} {catalog : Catalog}
    (h : Recorded database catalog)
    (heq : ∀ key, ¬ [2] <+: key → database'.get? key = database.get? key) :
    Recorded database' catalog := by
  refine ⟨(heq storeMarkerKey (by decide)).trans h.marker, fun key value hkey => ?_⟩
  rw [heq key fun hdata => ?_]
  · exact h.bindings key value hkey
  · obtain ⟨rest, rfl⟩ := hkey
    exact absurd (List.cons_prefix_cons.mp hdata).1 (by decide)

/-! ## The database of a committed setup -/

theorem stagePut_eq_ok {operation : String} {key value : Bytes} {tx tx' : Transaction}
    (h : stagePut operation key value tx = .ok () tx') :
    ∃ faults, tx' = { tx with staged := tx.staged ++ [.put key value], faults := faults } := by
  obtain ⟨snapshot, staged, token, poisoned, hasWrites, faults⟩ := tx
  rcases faults with _ | ⟨_ | _, faults⟩
  · cases h
    exact ⟨[], rfl⟩
  · cases h
    exact ⟨faults, rfl⟩
  · cases h

theorem stageCatalog_eq_ok {es : List (String × Binding)} {tx tx' : Transaction}
    (h : stageCatalog es tx = .ok () tx') : ∃ faults, tx' =
      { tx with
        staged := tx.staged ++ es.map fun e => .put (catalogKey e.1) (encodeBinding e.2)
        faults := faults } := by
  induction es generalizing tx with
  | nil =>
    cases h
    exact ⟨tx'.faults, by simp⟩
  | cons e es ih =>
    obtain ⟨_, mid, hfirst, hrest⟩ := bind_eq_ok.mp h
    obtain ⟨faults, rfl⟩ := stagePut_eq_ok hfirst
    obtain ⟨faults', rfl⟩ := ih hrest
    exact ⟨faults', by simp⟩

/-- The writes a setup stages, in a database of their own. -/
theorem recorded_staged (catalog : Catalog) :
    Recorded (applyWrites .empty (.put storeMarkerKey storeMarker ::
      catalog.entries.map fun e => .put (catalogKey e.1) (encodeBinding e.2))) catalog := by
  have hfold : applyWrites .empty (.put storeMarkerKey storeMarker ::
      catalog.entries.map fun e => .put (catalogKey e.1) (encodeBinding e.2)) =
      (catalog.entries.map catalogEntry).foldl (fun m e => m.put e.1 e.2)
        (OrdMap.put .empty storeMarkerKey storeMarker) := by
    unfold applyWrites
    rw [List.foldl_cons, List.foldl_map, List.foldl_map]
    rfl
  have hkeys : ((catalog.entries.map catalogEntry).map (·.1)).Nodup := by
    rw [List.map_map]
    refine List.pairwise_map.mpr (catalog.sorted.imp fun {e e'} hlt heq => ?_)
    exact absurd (catalogKey_injective heq) hlt.ne
  have hmarker : ∀ e ∈ catalog.entries.map catalogEntry, e.1 ≠ storeMarkerKey := by
    intro e he heq
    obtain ⟨e', -, rfl⟩ := List.mem_map.mp he
    exact absurd (List.cons.inj heq).1 (by decide)
  rw [hfold]
  refine ⟨(OrdMap.get?_foldl_put hkeys _ _ _).mpr (.inr ⟨hmarker, by simp⟩), ?_⟩
  intro key value hkey
  rw [OrdMap.get?_foldl_put hkeys]
  constructor
  · rintro (hentry | ⟨-, hrest⟩)
    · obtain ⟨e, he, heq⟩ := List.mem_map.mp hentry
      cases heq
      exact ⟨e.1, e.2, (OrdMap.mem_entries _ _ _).mp he, rfl, rfl⟩
    · rw [OrdMap.get?_put] at hrest
      split at hrest
      · next heq =>
        rw [heq] at hkey
        exact absurd hkey (by decide)
      · cases hrest
  · rintro ⟨name, b, hb, rfl, rfl⟩
    exact .inl (List.mem_map.mpr ⟨(name, b), (OrdMap.mem_entries _ _ _).mpr hb, rfl⟩)

/-- A commit that succeeds publishes what the transaction sees. -/
theorem Transaction.commit_ok {tx : Transaction} {fault : Bool}
    (h : tx.poisoned = true ∨ tx.Healthy) (hok : (tx.commit tx.snapshot fault).1 = .ok ()) :
    (tx.commit tx.snapshot fault).2 = tx.view := by
  unfold Transaction.commit at hok ⊢
  by_cases hp : tx.poisoned = true
  · rw [if_pos hp] at hok
    cases hok
  · rw [if_neg hp] at hok ⊢
    by_cases hw : tx.hasWrites = true
    · rw [if_neg (by simpa using hw)] at hok ⊢
      cases fault with
      | true => cases hok
      | false => rfl
    · rw [if_pos hw]
      unfold Transaction.view
      rw [(h.resolve_left hp).tidy (by simpa using hw)]
      rfl

/-- A setup that commits leaves a database that holds its catalog. -/
theorem StoreSetup.commit_recorded {setup : StoreSetup} {path : Option Database}
    {initial : Initial} {faults : List Bool} {commitFault : Bool} {start : Transactions}
    {handles : List DataHandle}
    (hinitial : ∀ op ∈ initial.operations, op.Through setup.token handles)
    (h : (setup.commit path initial faults commitFault).1 = .ok start) :
    start.storeToken = setup.token ∧ Recorded start.database setup.catalog := by
  unfold StoreSetup.commit at h
  cases path with
  | some database => cases h
  | none =>
    dsimp only at h
    split at h
    · cases h
    · next tx hstage =>
      split at h
      · cases h
      · obtain ⟨_, mid, hfirst, hrest⟩ := bind_eq_ok.mp hstage
        obtain ⟨faults', rfl⟩ := stagePut_eq_ok hfirst
        obtain ⟨faults'', htx⟩ := stageCatalog_eq_ok hrest
        have hhealthy : tx.Healthy := by
          rw [htx]
          exact ⟨rfl, fun hw => (nomatch hw)⟩
        have hsnapshot : tx.snapshot = .empty := by
          rw [htx]
          rfl
        have hview : Recorded tx.view setup.catalog := by
          rw [htx]
          exact recorded_staged setup.catalog
        have hafter := runOperations_cases initial.operations hhealthy
        have havoids : ∀ key, ¬ [2] <+: key →
            (runOperations initial.operations tx).2.snapshot = tx.snapshot ∧
            (runOperations initial.operations tx).2.view.get? key = tx.view.get? key :=
          fun key hkey => runOperations_avoids (fun op hop => (hinitial op hop).avoids
            fun handle _ _ => not_dataPrefix_prefix hkey) tx
        have hlast := (havoids storeMarkerKey (by decide)).1.trans hsnapshot
        split at h
        · cases h
        · next done database hcommit =>
          cases h
          rw [← hlast] at hcommit
          have hok := Transaction.commit_ok (hafter.imp_right And.left)
            (congrArg Prod.fst hcommit)
          rw [hcommit] at hok
          refine ⟨rfl, ?_⟩
          show Recorded database setup.catalog
          rw [show database = _ from hok]
          exact hview.congr fun key hkey => (havoids key hkey).2

/-! ## Whole lives -/

/-- The store holds the catalog, and every handle of the session one of its identifiers. -/
structure World.Sound (w : World) (catalog : Catalog) : Prop where
  recorded : Recorded w.database catalog
  handles : ∀ handle ∈ w.handles, handle.storeToken = w.token ∧
    ∃ name kind, catalog.get? name = some ⟨handle.dataId, kind⟩

theorem World.Step.sound {w w' : World} {catalog : Catalog} (hstep : World.Step w w')
    (hvalid : catalog.Valid) (h : w.Sound catalog) : w'.Sound catalog := by
  cases hstep with
  | transaction work hthrough =>
    refine ⟨h.recorded.congr fun key hkey => work.run_avoids (fun op hop => ?_) _ _, h.handles⟩
    exact (hthrough op hop).avoids fun handle _ _ => not_dataPrefix_prefix hkey
  | reopen token faults requests hopen =>
    obtain rfl := (h.recorded.open_iff hvalid token).2 faults _ hopen
    refine ⟨h.recorded, fun handle hmem => ?_⟩
    obtain ⟨answer, hanswer, hok⟩ := List.mem_filterMap.mp hmem
    obtain ⟨request, -, rfl⟩ := List.mem_map.mp hanswer
    have hlookup : OpenedStore.lookup ⟨token, w.database, catalog, hvalid⟩ request = .ok handle := by
      cases hresult : OpenedStore.lookup ⟨token, w.database, catalog, hvalid⟩ request with
      | error e =>
        rw [hresult] at hok
        cases hok
      | ok other =>
        rw [hresult] at hok
        exact congrArg Except.ok (Option.some.inj hok)
    obtain ⟨htoken, hname⟩ := OpenedStore.lookup_eq_ok.mp hlookup
    exact ⟨htoken, request.fullName, request.kind, hname⟩

theorem World.sound_of_steps {w w' : World} {catalog : Catalog}
    (hsteps : Relation.ReflTransGen World.Step w w') (hvalid : catalog.Valid)
    (h : w.Sound catalog) : w'.Sound catalog := by
  induction hsteps with
  | refl => exact h
  | tail _ hstep ih => exact hstep.sound hvalid ih

/-! ## Isolation -/

/-- Each declaration gets a fresh identifier for an allowed new name, or changes nothing; its
binding stays to the end of the setup. -/
def DeclaresOnce (requests : List DataRequest) (token : Nat) : Prop :=
  ∀ before request after, requests = before ++ request :: after →
    let draft := (StoreSetup.declareAll before (.new token)).2
    let catalog := (StoreSetup.declareAll requests (.new token)).2.catalog
    (∀ handle, (draft.declare request).1 = .ok handle ↔
      validateName request.fullName = .ok () ∧ draft.catalog.get? request.fullName = none ∧
        draft.catalog.entries.length < 2 ^ 32 ∧
        handle = ⟨token, draft.catalog.entries.length⟩) ∧
    (∀ handle, (draft.declare request).1 = .ok handle →
      catalog.get? request.fullName = some ⟨handle.dataId, request.kind⟩) ∧
    ∀ e, (draft.declare request).1 = .error e → (draft.declare request).2 = draft

/-- What a session finds: the names of the catalog under their identifiers and kinds, and an
error for every other request. -/
structure Finds (catalog : Catalog) (database : Database) (store : OpenedStore) : Prop where
  sameDatabase : store.database = database
  sameCatalog : store.catalog = catalog
  found : ∀ request handle, store.lookup request = .ok handle ↔
    handle.storeToken = store.token ∧
      catalog.get? request.fullName = some ⟨handle.dataId, request.kind⟩
  missed : ∀ request e, store.lookup request = .error e ↔
    validateName request.fullName = .error e ∨
    (validateName request.fullName = .ok () ∧ catalog.get? request.fullName = none ∧
      e = .dataNotFound request.fullName) ∨
    ∃ b, catalog.get? request.fullName = some b ∧ b.kind ≠ request.kind ∧
      e = .dataKindMismatch request.fullName request.kind.name b.kind.name
  aliased : ∀ request request' handle handle', store.lookup request = .ok handle →
    store.lookup request' = .ok handle' →
    (handle = handle' ↔ request.fullName = request'.fullName)

/-- The names of a catalog have identifiers of their own, and their keys, those of the catalog
and the marker lie in ranges that do not meet. -/
structure Separate (catalog : Catalog) : Prop where
  ids : ∀ name name' b b', catalog.get? name = some b → catalog.get? name' = some b' →
    (b.dataId = b'.dataId ↔ name = name')
  objects : ∀ name name' b b', catalog.get? name = some b → catalog.get? name' = some b' →
    name ≠ name' → Disjoint (namespaceRange b.dataId) (namespaceRange b'.dataId)
  catalogKeys : ∀ name b, catalog.get? name = some b →
    Disjoint catalogRange (namespaceRange b.dataId)
  marker : storeMarkerKey ∉ catalogRange ∧
    ∀ name b, catalog.get? name = some b → storeMarkerKey ∉ namespaceRange b.dataId
  within : (∀ name, catalogKey name ∈ catalogRange) ∧
    ∀ dataId key, physicalKey (dataPrefix dataId) key ∈ namespaceRange dataId

/-- Operations through a handle change the keys in its range only, and their answers and
effects depend on nothing but the contents of its namespace. -/
structure World.Isolated (w : World) : Prop where
  changes : ∀ handle ∈ w.handles, ∀ op : Operation,
    op.2.target = some (dataPrefix handle.dataId) → ∀ tx key,
      key ∉ namespaceRange handle.dataId →
      (op.apply tx).2.view.get? key = tx.view.get? key
  reads : ∀ handle ∈ w.handles, ∀ op : Operation,
    op.2.target = some (dataPrefix handle.dataId) → ∀ tx tx',
      Twin (dataPrefix handle.dataId) tx tx' →
      outcome (op.2.perform tx) = outcome (op.2.perform tx') ∧
      Twin (dataPrefix handle.dataId) (op.apply tx).2 (op.apply tx').2
  commits : ∀ work : Work, (∀ op ∈ work.operations, op.Through w.token w.handles) → ∀ key,
    (∀ handle ∈ w.handles,
      (∃ op ∈ work.operations, op.2.target = some (dataPrefix handle.dataId)) →
      key ∉ namespaceRange handle.dataId) →
    (work.run w.token w.database).get? key = w.database.get? key

theorem declaresOnce (requests : List DataRequest) (token : Nat) : DeclaresOnce requests token := by
  rintro before request after rfl
  refine ⟨fun handle => ?_, fun handle h => StoreSetup.handle_declareAll h,
    fun e h => StoreSetup.createData_error h⟩
  have htoken : (StoreSetup.declareAll before (.new token)).2.token = token :=
    StoreSetup.token_declareAll before _
  refine StoreSetup.createData_ok.trans ?_
  rw [htoken]

theorem finds {catalog : Catalog} {database : Database} (h : Recorded database catalog)
    (hvalid : catalog.Valid) {token : Nat} {faults : List Bool} {store : OpenedStore}
    (hopen : OpenedStore.open (some database) token faults = .ok store) :
    Finds catalog database store := by
  obtain rfl := (h.open_iff hvalid token).2 faults store hopen
  refine ⟨rfl, rfl, fun _ _ => OpenedStore.lookup_eq_ok, fun _ _ => OpenedStore.lookup_eq_error,
    fun request request' handle handle' hfound hfound' => ?_⟩
  obtain ⟨htoken, hname⟩ := OpenedStore.lookup_eq_ok.mp hfound
  obtain ⟨htoken', hname'⟩ := OpenedStore.lookup_eq_ok.mp hfound'
  constructor
  · rintro rfl
    exact hvalid.distinct _ _ _ _ hname hname' rfl
  · intro heq
    rw [heq, hname', Option.some.injEq, Binding.mk.injEq] at hname
    have htokens : handle.storeToken = handle'.storeToken := htoken.trans htoken'.symm
    have hids : handle.dataId = handle'.dataId := hname.1.symm
    cases handle
    cases handle'
    cases htokens
    cases hids
    rfl

theorem Catalog.Valid.separate {catalog : Catalog} (h : catalog.Valid) : Separate catalog where
  ids name name' b b' hb hb' := by
    refine ⟨h.distinct name name' b b' hb hb', ?_⟩
    rintro rfl
    rw [hb, Option.some.injEq] at hb'
    rw [hb']
  objects name name' b b' hb hb' hne := by
    refine disjoint_namespaceRange (h.width name b hb) (h.width name' b' hb') fun heq => ?_
    exact hne (h.distinct name name' b b' hb hb' heq)
  catalogKeys _ b _ := disjoint_catalogRange b.dataId
  marker := ⟨storeMarkerKey_notMem_catalogRange,
    fun _ b _ => storeMarkerKey_notMem_namespaceRange b.dataId⟩
  within := ⟨mem_catalogRange, mem_namespaceRange⟩

/-- A key outside the range of a namespace is not in it. -/
theorem not_prefix_of_notMem {dataId : Nat} {key : Bytes} (h : key ∉ namespaceRange dataId) :
    ¬ dataPrefix dataId <+: key := by
  rintro ⟨rest, rfl⟩
  exact h (mem_namespaceRange dataId rest)

theorem World.isolated (w : World) : w.Isolated where
  changes handle _ op htarget tx key hkey := by
    have havoids : op.Avoids key := by
      intro data hdata
      rw [htarget, Option.some.injEq] at hdata
      rw [← hdata]
      exact ⟨⟨handle.dataId, rfl⟩, not_prefix_of_notMem hkey⟩
    exact (op.apply_avoids havoids tx).2
  reads handle _ op htarget tx tx' htwin := by
    have hlocal : Local (dataPrefix handle.dataId) op.2.perform := by
      refine op.2.localTo fun data hdata => ?_
      rw [htarget, Option.some.injEq] at hdata
      exact hdata.symm
    rw [op.apply_eq_after, op.apply_eq_after]
    exact ⟨hlocal.answers tx tx' htwin, hlocal.twin tx tx' htwin⟩
  commits work hthrough key hkey := by
    refine work.run_avoids (fun op hop data hdata => ?_) w.token w.database
    obtain ⟨handle, hmem, -, rfl⟩ := hthrough op hop data hdata
    exact ⟨⟨handle.dataId, rfl⟩, not_prefix_of_notMem (hkey handle hmem ⟨op, hop, hdata⟩)⟩

/-- After any declarations, a commit, and any transactions and sessions: names keep the
identifiers and kinds they were declared with, lookups find exactly these, ranges of keys do
not meet, and operations stay within the object of their handle. -/
theorem catalog_isolated {token : Nat} {requests : List DataRequest} {path : Option Database}
    {initial : Initial} {faults : List Bool} {commitFault : Bool} {start : Transactions}
    {w : World}
    (hinitial : ∀ op ∈ initial.operations,
      op.Through token (handlesOf (StoreSetup.declareAll requests (.new token)).1))
    (hcommit : ((StoreSetup.declareAll requests (.new token)).2.commit path initial faults
      commitFault).1 = .ok start)
    (hrun : Relation.ReflTransGen World.Step ⟨start.database, start.storeToken,
      handlesOf (StoreSetup.declareAll requests (.new token)).1⟩ w) :
    let catalog := (StoreSetup.declareAll requests (.new token)).2.catalog
    DeclaresOnce requests token ∧
    (∀ token', ∃ store, OpenedStore.open (some w.database) token' [] = .ok store) ∧
    (∀ token' faults' store, OpenedStore.open (some w.database) token' faults' = .ok store →
      Finds catalog w.database store) ∧
    (∀ handle ∈ w.handles, handle.storeToken = w.token ∧
      ∃ name kind, catalog.get? name = some ⟨handle.dataId, kind⟩) ∧
    Separate catalog ∧ w.Isolated := by
  intro catalog
  have htoken : (StoreSetup.declareAll requests (.new token)).2.token = token :=
    StoreSetup.token_declareAll requests _
  have hvalid : catalog.Valid := (StoreSetup.declareAll requests (.new token)).2.valid
  obtain ⟨hstart, hrecorded⟩ := StoreSetup.commit_recorded (by rwa [htoken]) hcommit
  have hsound : w.Sound catalog := by
    refine World.sound_of_steps hrun hvalid ⟨hrecorded, fun handle hmem => ?_⟩
    obtain ⟨hhandle, hname⟩ := StoreSetup.mem_handles_declareAll hmem
    exact ⟨hhandle.trans (htoken.symm.trans hstart.symm), hname⟩
  refine ⟨declaresOnce requests token, fun token' => ?_, fun token' faults' store hopen => ?_,
    hsound.handles, hvalid.separate, w.isolated⟩
  · exact ⟨_, (hsound.recorded.open_iff hvalid token').1⟩
  · exact finds hsound.recorded hvalid hopen

/-- Two objects, one of them filled at the start: the store opens and finds each under its
kind. -/
theorem catalog_isolated_twoObjects :
    let requests : List DataRequest := [⟨["a"], "b", .cell⟩, ⟨[], "c", .queue⟩]
    let filled : Operation := ⟨Unit, .cell ⟨dataPrefix 0, bytesCodec⟩ (.set [7])⟩
    ∃ start, ((StoreSetup.declareAll requests (.new 1)).2.commit none ⟨[filled], none⟩ []
        false).1 = .ok start ∧
      ∀ token store, OpenedStore.open (some start.database) token [] = .ok store →
        store.lookup ⟨[], "a/b", .cell⟩ = .ok ⟨store.token, 0⟩ ∧
        store.lookup ⟨[], "c", .cell⟩ = .error (.dataKindMismatch "c" "cell" "queue") := by
  intro requests filled
  have hthrough : ∀ op ∈ [filled], op.Through 1
      (handlesOf (StoreSetup.declareAll requests (.new 1)).1) := by
    intro op hop data hdata
    rw [List.mem_singleton.mp hop] at hdata
    cases hdata
    exact ⟨⟨1, 0⟩, by decide +kernel, rfl, rfl⟩
  have hcommit : ∃ start, ((StoreSetup.declareAll requests (.new 1)).2.commit none
      ⟨[filled], none⟩ [] false).1 = .ok start := ⟨_, rfl⟩
  obtain ⟨start, hstart⟩ := hcommit
  refine ⟨start, hstart, fun token store hopen => ?_⟩
  have hfinds := (catalog_isolated hthrough hstart .refl).2.2.1 token [] store hopen
  have hcell : (StoreSetup.declareAll requests (.new 1)).2.catalog.get? "a/b" =
      some ⟨0, .cell⟩ := by decide +kernel
  have hqueue : (StoreSetup.declareAll requests (.new 1)).2.catalog.get? "c" =
      some ⟨1, .queue⟩ := by decide +kernel
  refine ⟨(hfinds.found _ _).mpr ⟨rfl, hcell⟩, (hfinds.missed _ _).mpr ?_⟩
  exact .inr (.inr ⟨⟨1, .queue⟩, hqueue, by decide, rfl⟩)
end Dogpaddle.Store
