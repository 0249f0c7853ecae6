import Dogpaddle.AsOf.Event

/-!
# How a page of the ordered join can fail

Apart from ties and its position, a page fails for ordinary reasons only: the allowance, the
rows and their index keys, the expressions, or arithmetic that leaves its range.
-/

namespace Dogpaddle.AsOf

open Lib Store Dogpaddle.Relation

/-- Errors that report two right rows of one winning order value. -/
def AsOfJoinError.tieFault : AsOfJoinError → Bool
  | .ambiguousTie => true
  | _ => false

/-- Errors that report a position. -/
def AsOfJoinError.resumeFault : AsOfJoinError → Bool
  | .invalidResume _ => true
  | _ => false

/-- Errors that report neither a tie nor the position. -/
def Ordinary (e : AsOfJoinError) : Prop := e.tieFault = false ∧ e.resumeFault = false

theorem ordinary_budget : Ordinary (budgetExceeded : AsOfJoinError) := ⟨rfl, rfl⟩

theorem ordinary_row (e : RowError) : Ordinary (RowFailure.ofRow e) := ⟨rfl, rfl⟩

theorem ordinary_decodeError (e : RowError) : Ordinary (decodeError e) :=
  decodeError_raises ordinary_budget ordinary_row e

theorem ordinary_charge (bytes : Nat) (s : Scope AsOfState) :
    Raises Ordinary (StepBudget.charge bytes : AsOfAttempt Unit) s :=
  StepBudget.raises_charge ordinary_budget bytes s

theorem ordinary_index {α : Type} (x : Except IndexCodecError α) (s : Scope AsOfState) :
    Raises Ordinary (liftIndex x) s :=
  .ofExcept (.mapError fun _ => ⟨rfl, rfl⟩)

/-! ## Reading the indexes -/

theorem scan_raises (rows : OrdMap Bytes ℕ+) (range : Range) (direction : ScanDirection)
    (resume : Option Bytes) (items : Nat) (hitems : 0 < items) (s : Scope AsOfState) :
    Raises Ordinary (scan rows range direction resume items hitems) s := by
  apply Raises.get
  dsimp only
  generalize Store.scan rows _ range.1 range.2 direction resume _ = result
  cases result with
  | error e =>
    cases e
    exact .throw ⟨rfl, rfl⟩
  | ok page => exact .bind (ordinary_charge _ _) fun _ _ _ => .pure _

theorem checkedWeight_fails (before : Nat) (difference : Int) :
    Fails Ordinary (checkedWeight before difference) := by
  unfold checkedWeight
  refine .ite (fun _ => .ite (fun _ => .of_ok rfl) fun _ => .error ⟨rfl, rfl⟩) fun _ => ?_
  exact .ite (fun _ => .of_ok rfl) fun _ => .error ⟨rfl, rfl⟩

namespace AsOfJoinOperation

theorem bucketWinner_raises (keys : List Bytes) (s : Scope AsOfState) :
    Raises Ordinary (bucketWinner keys) s := by
  cases keys with
  | nil => exact .pure _
  | cons key rest =>
    exact .bind (.bind (ordinary_index _ _) fun _ _ _ => .pure _) fun _ _ _ => .pure _

theorem bucket_raises (partition order : Bytes) (overlay : Option (Bytes × Bool))
    (s : Scope AsOfState) : Raises Ordinary (bucket partition order overlay) s :=
  .get <| .bind (scan_raises _ _ _ _ _ _ _) fun _ _ _ =>
    .ite (fun _ => .throw ⟨rfl, rfl⟩) fun _ => bucketWinner_raises _ _

theorem neighbor_raises (row : PreparedRow) (forward : Bool) (s : Scope AsOfState) :
    Raises Ordinary (neighbor row forward) s := by
  refine .get <| .bind (scan_raises _ _ _ _ _ _ _) fun page _ _ => ?_
  cases page.entries with
  | nil => exact .pure _
  | cons entry rest => exact .bind (ordinary_index _ _) fun _ _ _ => .pure _

theorem replacementBucket_raises (right : PreparedRow) (order : Option Bytes) (needed : Bool)
    (s : Scope AsOfState) : Raises Ordinary (replacementBucket right order needed) s := by
  cases order with
  | none => exact .pure _
  | some order => exact .ite (fun _ => bucket_raises _ _ _ _) fun _ => .pure _

theorem selected_raises (entries : List (Bytes × ℕ+)) (s : Scope AsOfState) :
    Raises Ordinary (selected entries) s := by
  obtain _ | ⟨first, _ | ⟨second, rest⟩⟩ := entries
  · exact .pure _
  · exact .bind (ordinary_index _ _) fun _ _ _ => .pure _
  · exact .bind (ordinary_index _ _) fun _ _ _ =>
      .bind (ordinary_index _ _) fun _ _ _ => .pure _

variable {Ty Value : Type} (op : AsOfJoinOperation Ty Value)

theorem select_raises (left : PreparedRow) (s : Scope AsOfState) :
    Raises Ordinary (op.select left) s := by
  refine .ite (fun _ => .pure _) fun _ => .get <| .bind (scan_raises _ _ _ _ _ _ _)
    fun page _ _ => .ite (fun _ => .throw ⟨rfl, rfl⟩) fun _ => selected_raises _ _

theorem applyWeight_raises (port : Nat) (row : PreparedRow) (after : Nat) (s : Scope AsOfState) :
    Raises Ordinary (applyWeight port row after) s :=
  .bind (ordinary_charge _ _) fun _ _ _ => .modify _

/-! ## Writing output -/

theorem extend_raises {items : List (Except AsOfJoinError Item)}
    (hitems : ∀ item ∈ items, Fails Ordinary item) (output : ArrowOutput Value)
    (s : Scope AsOfState) : Raises Ordinary (output.extend op.fmt op.inputSchemas items) s :=
  ArrowOutput.raises_extend op.fmt ordinary_budget ordinary_row op.inputSchemas hitems output s

theorem correction_fails (old new : Option Winner) (entry : Bytes × ℕ+) :
    ∀ item ∈ correction old new entry, Fails Ordinary item := by
  intro item hmem
  unfold correction at hmem
  cases hrow : rowSuffix entry.1 with
  | error e =>
    simp only [hrow, List.mem_cons, List.not_mem_nil, or_false, or_self] at hmem
    rw [hmem]
    exact .error ⟨rfl, rfl⟩
  | ok row =>
    simp only [hrow, List.mem_cons, List.not_mem_nil, or_false] at hmem
    rcases hmem with rfl | rfl
    · exact .ite (fun _ => .of_ok rfl) fun _ => .error ⟨rfl, rfl⟩
    · exact .ite (fun _ => .of_ok rfl) fun _ => .error ⟨rfl, rfl⟩

theorem finish_fails (columns : Nat) (output : ArrowOutput Value) :
    Fails Ordinary (output.finish columns AsOfJoinError.change) := by
  unfold ArrowOutput.finish
  refine .ite (fun _ => .of_ok rfl) fun _ => ?_
  cases Change.tryNew columns output.rows with
  | none => exact .error ⟨rfl, rfl⟩
  | some change => exact .of_ok rfl

/-! ## Preparing a window -/

variable [DecidableEq Value]

theorem encodeColumn_raises (field : Relation.Field Ty) (values : List Value)
    (rows : List PreparedRow) (s : Scope AsOfState) :
    Raises Ordinary (op.encodeColumn field values rows) s := by
  induction values generalizing rows s with
  | nil => exact .pure _
  | cons value values ih =>
    cases rows with
    | nil => exact .pure _
    | cons row rows =>
      refine .bind ?_ fun _ _ _ => .bind (ih _ _) fun _ _ _ => .pure _
      exact .get <| .bind (ordinary_charge _ _) fun _ _ _ =>
        .bind (.ofExcept (.mapError ordinary_decodeError)) fun _ _ _ => .pure _

theorem prepareEqualities_raises (port : Nat) (events : List (Row Value × Int)) (index : Nat)
    (pairs : List (BoundPair Ty Value)) (rows : List PreparedRow) (s : Scope AsOfState) :
    Raises Ordinary (op.prepareEqualities port events index pairs rows) s := by
  induction pairs generalizing index rows s with
  | nil => exact .pure _
  | cons pair pairs ih =>
    exact .bind (.ofExcept (.mapError fun _ => ⟨rfl, rfl⟩)) fun _ _ _ =>
      .bind (ordinary_charge _ _) fun _ _ _ =>
        .bind (op.encodeColumn_raises _ _ _ _) fun _ _ _ => ih _ _ _

omit [DecidableEq Value] in
theorem orderComponent_fails (ty : Ty) (value : Value) :
    Fails Ordinary (op.orderComponent ty value) := by
  unfold orderComponent
  cases op.view.scalar ty value with
  | error e => exact .error ⟨rfl, rfl⟩
  | ok scalar => exact .mapError fun _ => ⟨rfl, rfl⟩

omit [DecidableEq Value] in
theorem encodeOrders_raises (port : Nat) (field : Relation.Field Ty) (values : List Value)
    (events : List (Row Value × Int)) (rows : List PreparedRow) (s : Scope AsOfState) :
    Raises Ordinary (op.encodeOrders port field values events rows) s := by
  induction values generalizing events rows s with
  | nil => exact .pure _
  | cons value values ih =>
    obtain _ | ⟨event, events⟩ := events
    · exact .pure _
    obtain _ | ⟨row, rows⟩ := rows
    · exact .pure _
    refine .bind ?_ fun _ _ _ => .bind (ih _ _ _) fun _ _ _ => .pure _
    exact .bind (ordinary_charge _ _) fun _ _ _ =>
      .bind (.ofExcept (op.orderComponent_fails _ _)) fun _ _ _ => .get <|
        .bind (.ofExcept (.mapError ordinary_decodeError)) fun _ _ _ =>
          .bind (ordinary_charge _ _) fun _ _ _ =>
            .bind (.ofExcept (.mapError fun _ => ⟨rfl, rfl⟩)) fun _ _ _ => .pure _

theorem prepare_raises (port : Nat) (events : List (Row Value × Int)) (s : Scope AsOfState) :
    Raises Ordinary (op.prepare port events) s :=
  .bind (ordinary_charge _ _) fun _ _ _ =>
    .bind (op.prepareEqualities_raises _ _ _ _ _ _) fun _ _ _ =>
      .bind (.ofExcept (.mapError fun _ => ⟨rfl, rfl⟩)) fun _ _ _ =>
        .bind (ordinary_charge _ _) fun _ _ _ => op.encodeOrders_raises _ _ _ _ _ _

end AsOfJoinOperation

end Dogpaddle.AsOf
