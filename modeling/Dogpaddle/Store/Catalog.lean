import Dogpaddle.Store.Isolated
import Dogpaddle.Relation.Order
import Mathlib.Data.String.Basic
import Mathlib.Data.Set.Lattice
import Mathlib.Data.Set.List
import Mathlib.Order.CompletePartialOrder
import Mathlib.Data.List.Nodup
import Mathlib.Order.Interval.Set.Basic

/-!
# The catalog of a store

The data objects of a store have names. A setup declares them, each under the next free
identifier; its commit writes the marker of the store, one binding per name and the initial
data. Opening the store reads the bindings back, and a data object is looked up by its name
and kind.

* every key belongs to the marker, to the catalog or to the namespace of one identifier;
* `Recorded` says that a database holds a catalog, and such a database opens with it.
-/

namespace Dogpaddle.Store

open Lib Dogpaddle.Relation

/-! ## Names, kinds and bindings -/

inductive DataKind
  | cell
  | orderedMap
  | queue
deriving DecidableEq, Repr

namespace DataKind

def tag : DataKind → UInt8
  | .cell => 1
  | .orderedMap => 2
  | .queue => 6

def name : DataKind → String
  | .cell => "cell"
  | .orderedMap => "ordered map"
  | .queue => "queue"

def decode (tag : UInt8) : Option DataKind :=
  if tag = 1 then some .cell
  else if tag = 2 then some .orderedMap
  else if tag = 6 then some .queue
  else none

@[simp] theorem decode_tag (kind : DataKind) : decode kind.tag = some kind := by
  cases kind <;> rfl

end DataKind

/-- A failed declaration, commit, opening or lookup. -/
inductive CatalogError
  | invalidName (name reason : String)
  | dataAlreadyExists (name : String)
  | pathExists
  | storeNotFound
  | dataNotFound (name : String)
  | dataKindMismatch (name expected actual : String)
  | invalidStore
  | dataIdExhausted (name : String)
  | access (e : Failure)
deriving DecidableEq, Repr

def maxNameBytes : Nat := 255

/-- Why a name is not allowed, if it is not. -/
def nameReason (name : String) : Option String :=
  if name = "" then some "name must not be empty"
  else if maxNameBytes < (utf8Bytes name).length then some "name is too long"
  else if 0 ∈ utf8Bytes name then some "name must not contain NUL"
  else none

def validateName (name : String) : Except CatalogError Unit :=
  (nameReason name).elim (.ok ()) fun reason => .error (.invalidName name reason)

/-- What the catalog keeps about a name. -/
structure Binding where
  dataId : Nat
  kind : DataKind
deriving DecidableEq, Repr

abbrev Catalog := OrdMap String Binding

/-- The names are allowed and their identifiers are 32 bits wide and distinct. -/
structure Catalog.Valid (catalog : Catalog) : Prop where
  named : ∀ name b, catalog.get? name = some b → validateName name = .ok ()
  width : ∀ name b, catalog.get? name = some b → b.dataId < 2 ^ 32
  distinct : ∀ name name' b b', catalog.get? name = some b → catalog.get? name' = some b' →
    b.dataId = b'.dataId → name = name'

theorem Catalog.valid_empty : Catalog.Valid OrdMap.empty :=
  ⟨fun _ _ h => (nomatch h), fun _ _ h => (nomatch h), fun _ _ _ _ h => (nomatch h)⟩

/-- A fresh name with a fresh identifier may be added. -/
theorem Catalog.Valid.put {catalog : Catalog} (h : catalog.Valid) {name : String} {b : Binding}
    (hname : validateName name = .ok ()) (hwidth : b.dataId < 2 ^ 32)
    (hfresh : ∀ name' b', catalog.get? name' = some b' → b'.dataId ≠ b.dataId) :
    Catalog.Valid (catalog.put name b) := by
  refine ⟨fun other c hc => ?_, fun other c hc => ?_, fun n n' c c' hc hc' hid => ?_⟩
  · rw [OrdMap.get?_put] at hc
    split at hc
    · next heq =>
      rw [heq]
      exact hname
    · exact h.named other c hc
  · rw [OrdMap.get?_put] at hc
    split at hc
    · cases hc
      exact hwidth
    · exact h.width other c hc
  · rw [OrdMap.get?_put] at hc hc'
    split at hc <;> split at hc'
    · next heq heq' => rw [heq, heq']
    · cases hc
      exact absurd hid.symm (hfresh n' c' hc')
    · cases hc'
      exact absurd hid (hfresh n c hc)
    · exact h.distinct n n' c c' hc hc' hid

/-! ## Physical keys of the catalog -/

def storeMarkerKey : Bytes := [0]

def storeMarker : Bytes := utf8Bytes "dogpaddle.store.rocks.v1" ++ [0]

def catalogDomain : UInt8 := 1

def catalogKey (name : String) : Bytes := catalogDomain :: utf8Bytes name

def encodeBinding (b : Binding) : Bytes := b.kind.tag :: toBE 4 b.dataId

def decodeBinding : Bytes → Except CatalogError Binding
  | [tag, a, b, c, d] =>
    (DataKind.decode tag).elim (.error .invalidStore) fun kind => .ok ⟨fromBE [a, b, c, d], kind⟩
  | _ => .error .invalidStore

theorem utf8Bytes_injective {a b : String} (h : utf8Bytes a = utf8Bytes b) : a = b := by
  have ha := (fromUtf8_eq_some (x := utf8Bytes b)).mpr h
  have hb : fromUtf8 (utf8Bytes b) = some b := fromUtf8_eq_some.mpr rfl
  exact Option.some.inj (ha.symm.trans hb)

theorem catalogKey_injective {a b : String} (h : catalogKey a = catalogKey b) : a = b :=
  utf8Bytes_injective (List.cons.inj h).2

theorem decodeBinding_encodeBinding {b : Binding} (h : b.dataId < 2 ^ 32) :
    decodeBinding (encodeBinding b) = .ok b := by
  have hread : fromBE (toBE 4 b.dataId) = b.dataId := fromBE_toBE (by simpa using h)
  have hlength : (toBE 4 b.dataId).length = 4 := length_toBE 4 _
  unfold encodeBinding
  generalize toBE 4 b.dataId = bytes at hread hlength
  match bytes, hlength with
  | [w, x, y, z], _ =>
    simp only [decodeBinding, DataKind.decode_tag, Option.elim_some, hread]

/-! ### Ranges -/

theorem incrementLoop_concat {width n : Nat} {b : UInt8} (hb : b ≠ 255)
    (hn : n < 256 ^ width) : (incrementLoop (b :: toBE width n).reverse).reverse =
      (if n + 1 < 256 ^ width then b else b + 1) :: toBE width (n + 1) := by
  induction width generalizing n with
  | zero =>
    rw [pow_zero] at hn ⊢
    rw [if_neg (by omega)]
    simp [toBE, incrementLoop, hb]
  | succ width ih =>
    rw [pow_succ] at hn
    have hlow : UInt8.ofNat n = 255 ↔ n % 256 = 255 := by
      rw [← UInt8.toNat_inj, UInt8.toNat_ofNat']
      rfl
    rw [toBE, ← List.cons_append, List.reverse_append, List.reverse_singleton,
      List.singleton_append, incrementLoop]
    by_cases hcarry : n % 256 = 255
    · have hhigh : (n + 1) / 256 = n / 256 + 1 := by omega
      have hzero : UInt8.ofNat (n + 1) = 0 := by
        rw [← UInt8.toNat_inj, UInt8.toNat_ofNat']
        show _ = 0
        omega
      rw [if_neg (by simpa using hlow.mpr hcarry), List.reverse_cons, ih (by omega), toBE, hhigh,
        hzero, pow_succ, List.cons_append]
      exact congrArg (· :: _) (if_congr (by omega) rfl rfl)
    · have hhigh : (n + 1) / 256 = n / 256 := by omega
      have hstep : UInt8.ofNat (n + 1) = UInt8.ofNat n + 1 := by
        rw [← UInt8.toNat_inj, UInt8.toNat_add, UInt8.toNat_ofNat', UInt8.toNat_ofNat']
        show _ = (_ + 1) % 256
        omega
      rw [if_pos (fun h => hcarry (hlow.mp h)), List.reverse_cons, List.reverse_reverse, toBE,
        hhigh, hstep, pow_succ, if_pos (by omega), List.cons_append]

/-- The keys of a namespace and of the positions within it. -/
def namespaceRange (dataId : Nat) : Set Bytes :=
  Set.Ico (dataPrefix dataId) (namespaceEnd (dataPrefix dataId))

def catalogRange : Set Bytes := Set.Ico [catalogDomain] [catalogDomain + 1]

theorem namespaceEnd_dataPrefix {dataId : Nat} (h : dataId < 2 ^ 32) :
    namespaceEnd (dataPrefix dataId) =
      (if dataId + 1 < 2 ^ 32 then 2 else 3) :: toBE 4 (dataId + 1) := by
  have hwidth : dataId < 256 ^ 4 := by simpa using h
  exact incrementLoop_concat (by decide) hwidth

theorem mem_namespaceRange (dataId : Nat) (key : Bytes) :
    physicalKey (dataPrefix dataId) key ∈ namespaceRange dataId :=
  ⟨le_append _ _, lt_namespaceEnd (prefixSuccessor_dataPrefix dataId) (List.prefix_append _ _)⟩

theorem mem_catalogRange (name : String) : catalogKey name ∈ catalogRange := by
  refine ⟨le_append [catalogDomain] (utf8Bytes name), ?_⟩
  exact List.cons_lt_cons_iff.mpr (.inl (by decide))

/-- The ranges of two identifiers do not meet, also where the successor carries. -/
theorem disjoint_namespaceRange {i j : Nat} (hi : i < 2 ^ 32) (hj : j < 2 ^ 32) (h : i ≠ j) :
    Disjoint (namespaceRange i) (namespaceRange j) := by
  have hordered : ∀ {i j : Nat}, i < j → j < 2 ^ 32 →
      namespaceEnd (dataPrefix i) ≤ dataPrefix j := by
    intro i j hij hj
    rw [namespaceEnd_dataPrefix (by omega), if_pos (by omega)]
    refine not_lt.mp fun hlt => ?_
    rcases List.cons_lt_cons_iff.mp hlt with hhead | ⟨-, htail⟩
    · exact lt_irrefl _ hhead
    · have := (toBE_lt (by simpa using hj) (by omega)).mp htail
      omega
  rw [Set.disjoint_left]
  intro key hkey hkey'
  rcases Nat.lt_or_gt_of_ne h with hlt | hlt
  · exact lt_irrefl _ (hkey.2.trans_le ((hordered hlt hj).trans hkey'.1))
  · exact lt_irrefl _ (hkey'.2.trans_le ((hordered hlt hi).trans hkey.1))

theorem disjoint_catalogRange (dataId : Nat) : Disjoint catalogRange (namespaceRange dataId) := by
  rw [Set.disjoint_left]
  intro key hkey hkey'
  have hle : [catalogDomain + 1] ≤ dataPrefix dataId := le_append [2] (toBE 4 dataId)
  exact lt_irrefl _ (hkey.2.trans_le (hle.trans hkey'.1))

theorem storeMarkerKey_notMem_catalogRange : storeMarkerKey ∉ catalogRange := fun h =>
  absurd h.1 (by decide)

theorem storeMarkerKey_notMem_namespaceRange (dataId : Nat) :
    storeMarkerKey ∉ namespaceRange dataId := by
  intro h
  have hle : [2] ≤ dataPrefix dataId := le_append [2] (toBE 4 dataId)
  exact absurd (hle.trans h.1) (by decide)

/-! ## Declaring data objects -/

/-- The draft of a new store. Identifiers are handed out densely. -/
structure StoreSetup where
  token : Nat
  catalog : Catalog
  valid : catalog.Valid
  dense : ∀ name b, catalog.get? name = some b → b.dataId < catalog.entries.length

namespace StoreSetup

def new (token : Nat) : StoreSetup :=
  ⟨token, .empty, Catalog.valid_empty, fun _ _ h => (nomatch h)⟩

/-- The draft with one more data object. -/
def insert (setup : StoreSetup) (kind : DataKind) (name : String)
    (hname : validateName name = .ok ()) (hfresh : setup.catalog.get? name = none)
    (hwidth : setup.catalog.entries.length < 2 ^ 32) : StoreSetup where
  token := setup.token
  catalog := setup.catalog.put name ⟨setup.catalog.entries.length, kind⟩
  valid := setup.valid.put hname hwidth fun name' b' hb' =>
    Nat.ne_of_lt (setup.dense name' b' hb')
  dense := by
    intro name' b' hb'
    rw [OrdMap.length_put_of_none _ hfresh]
    rw [OrdMap.get?_put] at hb'
    split at hb'
    · cases hb'
      exact Nat.lt_succ_self _
    · exact Nat.lt_succ_of_lt (setup.dense name' b' hb')

def createData (setup : StoreSetup) (kind : DataKind) (name : String) :
    Except CatalogError DataHandle × StoreSetup :=
  match hname : validateName name with
  | .error e => (.error e, setup)
  | .ok () =>
    if hfresh : setup.catalog.get? name = none then
      if hwidth : setup.catalog.entries.length < 2 ^ 32 then
        (.ok ⟨setup.token, setup.catalog.entries.length⟩,
          setup.insert kind name hname hfresh hwidth)
      else (.error (.dataIdExhausted name), setup)
    else (.error (.dataAlreadyExists name), setup)

/-- A declaration that fails leaves the draft as it is. -/
theorem createData_error {setup : StoreSetup} {kind : DataKind} {name : String}
    {e : CatalogError} (h : (setup.createData kind name).1 = .error e) :
    (setup.createData kind name).2 = setup := by
  revert h
  unfold createData
  split
  · exact fun _ => rfl
  · split
    · split
      · exact fun h => (nomatch h)
      · exact fun _ => rfl
    · exact fun _ => rfl

/-- A declaration succeeds exactly for an allowed new name while identifiers are left, and
adds one binding. -/
theorem createData_ok {setup : StoreSetup} {kind : DataKind} {name : String}
    {handle : DataHandle} : (setup.createData kind name).1 = .ok handle ↔
      validateName name = .ok () ∧ setup.catalog.get? name = none ∧
        setup.catalog.entries.length < 2 ^ 32 ∧
        handle = ⟨setup.token, setup.catalog.entries.length⟩ := by
  unfold createData
  split
  · next e hname =>
    rw [hname]
    simp
  · next hname =>
    by_cases hfresh : setup.catalog.get? name = none
    · rw [dif_pos hfresh]
      by_cases hwidth : setup.catalog.entries.length < 2 ^ 32
      · rw [dif_pos hwidth, Except.ok.injEq, eq_comm]
        exact ⟨fun h => ⟨hname, hfresh, hwidth, h⟩, fun h => h.2.2.2⟩
      · rw [dif_neg hwidth]
        exact ⟨fun h => (nomatch h), fun h => absurd h.2.2.1 hwidth⟩
    · rw [dif_neg hfresh]
      exact ⟨fun h => (nomatch h), fun h => absurd h.2.1 hfresh⟩

theorem catalog_createData {setup : StoreSetup} {kind : DataKind} {name : String}
    {handle : DataHandle} (h : (setup.createData kind name).1 = .ok handle) :
    (setup.createData kind name).2.catalog = setup.catalog.put name ⟨handle.dataId, kind⟩ := by
  obtain ⟨hname, hfresh, hwidth, rfl⟩ := createData_ok.mp h
  unfold createData
  split
  · next e hname' =>
    rw [hname] at hname'
    cases hname'
  · rw [dif_pos hfresh, dif_pos hwidth]
    rfl

theorem token_createData (setup : StoreSetup) (kind : DataKind) (name : String) :
    (setup.createData kind name).2.token = setup.token := by
  unfold createData
  split
  · rfl
  · split
    · split <;> rfl
    · rfl

end StoreSetup

/-! ## Opening a store -/

/-- The bindings among the entries of the catalog; the engine may refuse to go on. -/
def readCatalog : List (Bytes × Bytes) → List Bool → Catalog → List Nat →
    Except CatalogError Catalog
  | [], faults, catalog, _ =>
    if faults.headD false then .error (.access (.storage "read data catalog")) else .ok catalog
  | item :: items, faults, catalog, dataIds =>
    if faults.headD false then .error (.access (.storage "read data catalog"))
    else
      match (strip [catalogDomain] item.1).bind fromUtf8 with
      | none => .error .invalidStore
      | some name =>
        match validateName name with
        | .error _ => .error .invalidStore
        | .ok () =>
          match decodeBinding item.2 with
          | .error e => .error e
          | .ok b =>
            if b.dataId ∈ dataIds then .error .invalidStore
            else readCatalog items faults.tail (catalog.put name b) (b.dataId :: dataIds)

theorem decodeBinding_width {bytes : Bytes} {b : Binding} (h : decodeBinding bytes = .ok b) :
    b.dataId < 2 ^ 32 := by
  unfold decodeBinding at h
  split at h
  · next tag w x y z =>
    cases hkind : DataKind.decode tag with
    | none =>
      rw [hkind] at h
      cases h
    | some kind =>
      rw [hkind] at h
      cases h
      show fromBE [w, x, y, z] < 2 ^ 32
      exact lt_of_lt_of_eq (fromBE_lt _) (by simp)
  · cases h

theorem readCatalog_valid {items : List (Bytes × Bytes)} {faults : List Bool}
    {catalog result : Catalog} {dataIds : List Nat} (hvalid : catalog.Valid)
    (hids : ∀ name b, catalog.get? name = some b → b.dataId ∈ dataIds)
    (h : readCatalog items faults catalog dataIds = .ok result) : result.Valid := by
  induction items generalizing faults catalog dataIds with
  | nil =>
    unfold readCatalog at h
    split at h
    · cases h
    · cases h
      exact hvalid
  | cons item items ih =>
    unfold readCatalog at h
    split at h
    · cases h
    · split at h
      · cases h
      · next name _ =>
        split at h
        · cases h
        · next hname =>
          split at h
          · cases h
          · next b hb =>
            split at h
            · cases h
            · next hfresh =>
              refine ih (hvalid.put hname (decodeBinding_width hb) ?_) ?_ h
              · exact fun name' b' hb' heq => hfresh (heq ▸ hids name' b' hb')
              · intro name' b' hb'
                rw [OrdMap.get?_put] at hb'
                split at hb'
                · cases hb'
                  exact List.mem_cons_self
                · exact List.mem_cons_of_mem _ (hids name' b' hb')

/-- A store that was opened. -/
structure OpenedStore where
  token : Nat
  database : Database
  catalog : Catalog
  valid : catalog.Valid

namespace OpenedStore

/-- Opens what is at a path. The engine may refuse to open, to read the marker or to go
through the catalog. -/
def «open» (path : Option Database) (token : Nat) (faults : List Bool) :
    Except CatalogError OpenedStore :=
  match path with
  | none => .error .storeNotFound
  | some database =>
    if faults.headD false then .error (.access (.storage "open RocksDB"))
    else if faults.tail.headD false then .error (.access (.storage "read store marker"))
    else if database.get? storeMarkerKey ≠ some storeMarker then .error .invalidStore
    else
      match hread : readCatalog (seek database [catalogDomain] [catalogDomain + 1] [catalogDomain])
        faults.tail.tail .empty [] with
      | .error e => .error e
      | .ok catalog =>
        .ok ⟨token, database, catalog,
          readCatalog_valid Catalog.valid_empty (fun _ _ h => (nomatch h)) hread⟩

def handle (store : OpenedStore) (dataId : Nat) : DataHandle := ⟨store.token, dataId⟩

def openData (store : OpenedStore) (kind : DataKind) (name : String) :
    Except CatalogError DataHandle := do
  validateName name
  match store.catalog.get? name with
  | none => .error (.dataNotFound name)
  | some b =>
    if b.kind ≠ kind then .error (.dataKindMismatch name kind.name b.kind.name)
    else .ok (store.handle b.dataId)

end OpenedStore

/-! ## Reading a catalog back -/

/-- A database holds the marker and exactly the bindings of a catalog. -/
structure Recorded (database : Database) (catalog : Catalog) : Prop where
  marker : database.get? storeMarkerKey = some storeMarker
  bindings : ∀ key value, [catalogDomain] <+: key → (database.get? key = some value ↔
    ∃ name b, catalog.get? name = some b ∧ key = catalogKey name ∧ value = encodeBinding b)

/-- The entry of a binding. -/
def catalogEntry (e : String × Binding) : Bytes × Bytes := (catalogKey e.1, encodeBinding e.2)

theorem readCatalog_faultless {items : List (Bytes × Bytes)} {faults : List Bool}
    {catalog result : Catalog} {dataIds : List Nat}
    (h : readCatalog items faults catalog dataIds = .ok result) :
    readCatalog items [] catalog dataIds = .ok result := by
  induction items generalizing faults catalog dataIds with
  | nil =>
    unfold readCatalog at h ⊢
    split at h
    · cases h
    · exact h
  | cons item items ih =>
    unfold readCatalog at h ⊢
    split at h
    · cases h
    · rw [if_neg (by simp)]
      split at h
      · cases h
      · split at h
        · cases h
        · split at h
          · cases h
          · split at h
            · cases h
            · next hfresh =>
              rw [if_neg hfresh]
              exact ih h

/-- Entries of allowed names with distinct identifiers read back as their bindings. -/
theorem readCatalog_entries {es : List (String × Binding)} {dataIds : List Nat}
    (hnames : ∀ e ∈ es, validateName e.1 = .ok ()) (hwidth : ∀ e ∈ es, e.2.dataId < 2 ^ 32)
    (hids : (es.map (·.2.dataId)).Nodup) (hnew : ∀ e ∈ es, e.2.dataId ∉ dataIds)
    (catalog : Catalog) : readCatalog (es.map catalogEntry) [] catalog dataIds =
      .ok (es.foldl (fun m e => m.put e.1 e.2) catalog) := by
  induction es generalizing catalog dataIds with
  | nil => rfl
  | cons e es ih =>
    obtain ⟨hhead, htail⟩ := List.nodup_cons.mp hids
    have hname : (strip [catalogDomain] (catalogKey e.1)).bind fromUtf8 = some e.1 := by
      show (strip [catalogDomain] ([catalogDomain] ++ utf8Bytes e.1)).bind fromUtf8 = _
      rw [strip_append]
      exact fromUtf8_eq_some.mpr rfl
    rw [List.map_cons, List.foldl_cons]
    unfold readCatalog
    rw [if_neg (by simp), catalogEntry, hname]
    dsimp only
    rw [hnames e (by simp), decodeBinding_encodeBinding (hwidth e (by simp))]
    dsimp only
    rw [if_neg (hnew e (by simp))]
    refine ih (fun e' he' => hnames e' (by simp [he'])) (fun e' he' => hwidth e' (by simp [he']))
      htail (fun e' he' hmem => ?_) _
    rcases List.mem_cons.mp hmem with heq | hmem
    · exact hhead (List.mem_map.mpr ⟨e', he', heq⟩)
    · exact hnew e' (by simp [he']) hmem

/-- What the engine visits in the catalog domain are the bindings, each once. -/
theorem Recorded.seek {database : Database} {catalog : Catalog} (h : Recorded database catalog) :
    ∃ es : List (String × Binding),
      Store.seek database [catalogDomain] [catalogDomain + 1] [catalogDomain] =
        es.map catalogEntry ∧ (es.map (·.1)).Nodup ∧
      ∀ name b, (name, b) ∈ es ↔ catalog.get? name = some b := by
  have hdomain : ∀ key : Bytes, key < [catalogDomain + 1] ↔
      key < [catalogDomain] ∨ [catalogDomain] <+: key := lt_prefixSuccessor (by decide)
  have hmem : ∀ key value, (key, value) ∈
      Store.seek database [catalogDomain] [catalogDomain + 1] [catalogDomain] ↔
        database.get? key = some value ∧ [catalogDomain] <+: key := by
    intro key value
    unfold Store.seek
    rw [List.mem_filter, OrdMap.mem_entries, decide_eq_true_iff, hdomain]
    refine and_congr_right fun _ => ⟨fun ⟨hlow, hhigh, _⟩ => ?_, ?_⟩
    · exact hhigh.resolve_left (not_lt_of_ge hlow)
    · rintro ⟨rest, rfl⟩
      exact ⟨le_append _ _, .inr (List.prefix_append _ _), le_append _ _⟩
  have hentries : Store.seek database [catalogDomain] [catalogDomain + 1] [catalogDomain] ∈
      Set.range (List.map fun e : { e : String × Binding // catalog.get? e.1 = some e.2 } =>
        catalogEntry e.1) := by
    rw [Set.range_list_map]
    rintro ⟨key, value⟩ hkey
    obtain ⟨hget, hprefix⟩ := (hmem key value).mp hkey
    obtain ⟨name, b, hb, rfl, rfl⟩ := (h.bindings key value hprefix).mp hget
    exact ⟨⟨(name, b), hb⟩, rfl⟩
  obtain ⟨es, hes⟩ := hentries
  have hmap : Store.seek database [catalogDomain] [catalogDomain + 1] [catalogDomain] =
      (es.map Subtype.val).map catalogEntry := by
    rw [← hes, List.map_map]
    rfl
  have hbound : ∀ e ∈ es.map Subtype.val, catalog.get? e.1 = some e.2 := by
    intro e he
    obtain ⟨e', -, rfl⟩ := List.mem_map.mp he
    exact e'.2
  have hsorted : ((es.map Subtype.val).map catalogEntry).Pairwise fun a b => a.1 < b.1 := by
    rw [← hmap]
    exact database.sorted.filter _
  refine ⟨es.map Subtype.val, hmap, ?_, fun name b => ⟨hbound (name, b), fun hb => ?_⟩⟩
  · rw [List.pairwise_map] at hsorted
    refine List.pairwise_map.mpr (hsorted.imp fun {e e'} hlt heq => ?_)
    exact absurd (congrArg catalogKey heq) hlt.ne
  · have hentry : catalogEntry (name, b) ∈ (es.map Subtype.val).map catalogEntry := by
      rw [← hmap]
      refine (hmem _ _).mpr ⟨?_, ⟨utf8Bytes name, rfl⟩⟩
      exact (h.bindings _ _ ⟨utf8Bytes name, rfl⟩).mpr ⟨name, b, hb, rfl, rfl⟩
    obtain ⟨e, he, heq⟩ := List.mem_map.mp hentry
    have hname : e.1 = name := catalogKey_injective (congrArg Prod.fst heq)
    have hsame := hbound e he
    rw [hname, hb, Option.some.injEq] at hsame
    rwa [← hname, hsame]

/-- A database that holds a catalog opens with it, and with no other. -/
theorem Recorded.open_iff {database : Database} {catalog : Catalog}
    (h : Recorded database catalog) (hvalid : catalog.Valid) (token : Nat) :
    OpenedStore.open (some database) token [] = .ok ⟨token, database, catalog, hvalid⟩ ∧
    ∀ faults store, OpenedStore.open (some database) token faults = .ok store →
      store = ⟨token, database, catalog, hvalid⟩ := by
  obtain ⟨es, hseek, hnames, hmem⟩ := h.seek
  have hread : readCatalog (Store.seek database [catalogDomain] [catalogDomain + 1] [catalogDomain])
      [] .empty [] = .ok catalog := by
    have hfold : es.foldl (fun m e => m.put e.1 e.2) OrdMap.empty = catalog := by
      refine OrdMap.ext_get? fun name => Option.ext fun b => ?_
      rw [OrdMap.get?_foldl_put hnames, hmem]
      simp
    rw [hseek, ← hfold]
    refine readCatalog_entries (fun e he => hvalid.named e.1 e.2 ((hmem _ _).mp he))
      (fun e he => hvalid.width e.1 e.2 ((hmem _ _).mp he)) ?_ (fun e _ => by simp) _
    refine List.Nodup.map_on (fun e he e' he' heq => ?_) (List.Nodup.of_map _ hnames)
    have hname := hvalid.distinct e.1 e'.1 e.2 e'.2 ((hmem _ _).mp he) ((hmem _ _).mp he') heq
    have hb := (hmem e.1 e.2).mp he
    rw [hname, (hmem e'.1 e'.2).mp he', Option.some.injEq] at hb
    exact Prod.ext hname hb.symm
  have hopen : ∀ faults store, OpenedStore.open (some database) token faults = .ok store →
      store = ⟨token, database, catalog, hvalid⟩ := by
    intro faults store hstore
    unfold OpenedStore.open at hstore
    dsimp only at hstore
    split at hstore
    · cases hstore
    · split at hstore
      · cases hstore
      · split at hstore
        · cases hstore
        · split at hstore
          · cases hstore
          · next result hresult =>
            have hsame := readCatalog_faultless hresult
            rw [hread] at hsame
            cases hsame
            cases hstore
            rfl
  refine ⟨?_, hopen⟩
  cases hstore : OpenedStore.open (some database) token [] with
  | ok store => rw [hopen [] store hstore]
  | error e =>
    exfalso
    unfold OpenedStore.open at hstore
    dsimp only at hstore
    rw [if_neg (by simp), if_neg (by simp), if_neg (not_not.mpr h.marker)] at hstore
    split at hstore
    · next hresult =>
      rw [List.tail_nil, List.tail_nil, hread] at hresult
      cases hresult
    · cases hstore

end Dogpaddle.Store
