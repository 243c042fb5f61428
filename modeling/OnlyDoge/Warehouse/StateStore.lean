import OnlyDoge.Warehouse.Materialization
set_option autoImplicit false

/-!
The state store of the core indexer (`ClickHouseCoreDogecoinStateStore`): the warehouse and the
metadata keys that a materialization reads and writes.
-/

namespace OnlyDoge

/-- The value of `dogecoin_current_state_materialization`. -/
structure MaterializationCheckpoint where
  asOfBlockHeight : Nat
  completedRanges : Nat
  rangeCount : Nat
  deriving DecidableEq,Repr

structure CoreStateStore where
  warehouse : Warehouse
  currentStateReady : Bool
  historyReady : Bool
  materialization : Option MaterializationCheckpoint
  deriving DecidableEq,Repr

namespace CoreStateStore

def warehousePart : StatePart CoreStateStore Warehouse where
  get := CoreStateStore.warehouse
  put w s := { s with warehouse := w }
  get_put _ _ := rfl
  put_get _ := rfl
  put_put _ _ _ := rfl

/-- The progress of an attempt at the same height; a checkpoint of another height is stale. -/
def resumePoint (asOfBlockHeight : Nat) (s : CoreStateStore) : Option (Nat × Nat) :=
  match s.materialization with
  | none => none
  | some checkpoint =>
    if checkpoint.asOfBlockHeight = asOfBlockHeight then
      some (checkpoint.completedRanges,checkpoint.rangeCount)
    else none

def saveCheckpoint (asOfBlockHeight completedRanges rangeCount : Nat) (s : CoreStateStore) :
    CoreStateStore :=
  { s with materialization := some ⟨asOfBlockHeight,completedRanges,rangeCount⟩ }

def setCurrentStateReady (ready : Bool) (s : CoreStateStore) : CoreStateStore :=
  { s with currentStateReady := ready }

def setHistoryReady (ready : Bool) (s : CoreStateStore) : CoreStateStore :=
  { s with historyReady := ready }

def deleteCheckpoint (s : CoreStateStore) : CoreStateStore := { s with materialization := none }

end CoreStateStore

abbrev StateStoreJob (α : Type) := Job CoreStateStore CoreError α

def materializationResumePoint (asOfBlockHeight : Nat) : StateStoreJob (Option (Nat × Nat)) :=
  Job.read (CoreStateStore.resumePoint asOfBlockHeight)

/-- `context.materialization` of the store: every finished range is saved. -/
def resumableMaterialization (asOfBlockHeight : Nat) (resumeFrom : Option (Nat × Nat)) :
    MaterializationContext CoreStateStore where
  warehouse := CoreStateStore.warehousePart
  resumeFrom := resumeFrom
  onRangeCompleted completedRanges rangeCount :=
    Job.write (CoreStateStore.saveCheckpoint asOfBlockHeight completedRanges rangeCount)

def CoreStateStore.materializeCoreDogecoinCurrentState (boundaries : Warehouse → List String)
    (asOfBlockHeight : Nat) : StateStoreJob Unit := do
  let resumeFrom ← materializationResumePoint asOfBlockHeight
  OnlyDoge.materializeCoreDogecoinCurrentState
    (resumableMaterialization asOfBlockHeight resumeFrom) boundaries asOfBlockHeight
  Job.settleAll [Job.write (CoreStateStore.setCurrentStateReady true),
    Job.write (CoreStateStore.setHistoryReady false)]
  Job.write CoreStateStore.deleteCheckpoint

end OnlyDoge
