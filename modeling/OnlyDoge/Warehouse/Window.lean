import OnlyDoge.Warehouse.Materialization
set_option autoImplicit false

/-! `applyCoreDogecoinWindow` and `recoverCoreDogecoinWindow` of the ClickHouse adapter. -/

namespace OnlyDoge

/-- The apply context; both flags may be left out. -/
structure CoreDogecoinApplyContext where
  updateCurrentState : Option Bool
  validatePrevouts : Option Bool
  deriving DecidableEq,Repr

structure CoreDogecoinApplyResult where
  applied : Bool
  processTail : Int
  deriving DecidableEq,Repr

def shouldUpdateCoreCurrentState (context : CoreDogecoinApplyContext) : Bool :=
  context.updateCurrentState = some true

def shouldValidateCorePrevouts (context : CoreDogecoinApplyContext) : Bool :=
  context.validatePrevouts ≠ some false

def coreWindowEnd (pending : List CoreDogecoinBlockApplication) : Int :=
  match pending.getLast? with
  | some last => last.blockHeight
  | none => -1

def coreWindowStart (pending : List CoreDogecoinBlockApplication) : Int :=
  match pending.head? with
  | some first => first.blockHeight
  | none => -1

def formatNullableHash : Option String → String
  | some hash => hash
  | none => "null"

structure CoreWindowShapeState where
  created : List OutputKey
  spent : List OutputKey
  previousHash : Option String
  previousHeight : Option Nat
  deriving DecidableEq,Repr

def createCoreWindowShapeState : CoreWindowShapeState := ⟨[],[],none,none⟩

def assertCoreApplicationHeight (application : CoreDogecoinBlockApplication)
    (state : CoreWindowShapeState) : Except CoreError Unit :=
  match state.previousHeight with
  | none => .ok ()
  | some previousHeight =>
    if application.blockHeight ≠ previousHeight + 1 then
      .error (.error ("non-contiguous core dogecoin window previous=" ++ toString previousHeight ++
        " next=" ++ toString application.blockHeight))
    else .ok ()

def nonContiguousChain (previousHeight previousHash : String)
    (application : CoreDogecoinBlockApplication) : CoreError :=
  .error ("non-contiguous core dogecoin chain previous_height=" ++ previousHeight ++
    " previous_hash=" ++ previousHash ++ " next_height=" ++ toString application.blockHeight ++
    " next_previous=" ++ formatNullableHash application.previousBlockHash)

def assertCoreApplicationPreviousHash (application : CoreDogecoinBlockApplication)
    (state : CoreWindowShapeState) : Except CoreError Unit :=
  match state.previousHash with
  | none => .ok ()
  | some previousHash =>
    if application.previousBlockHash ≠ some previousHash then
      .error (nonContiguousChain ((state.previousHeight.map toString).getD "null") previousHash
        application)
    else .ok ()

def assertUniqueCoreKey (message : String) (seen : List OutputKey) (key : OutputKey) :
    Except CoreError (List OutputKey) :=
  if key ∈ seen then .error (.error (message ++ ": " ++ key.text)) else .ok (seen ++ [key])

def assertUniqueCoreOutputs (application : CoreDogecoinBlockApplication)
    (created : List OutputKey) : Except CoreError (List OutputKey) :=
  (application.utxoCreates.map (·.outputKey)).foldlM
    (assertUniqueCoreKey "duplicate dogecoin output in core window") created

def assertUniqueCoreSpends (application : CoreDogecoinBlockApplication)
    (spent : List OutputKey) : Except CoreError (List OutputKey) :=
  (application.utxoSpends.map (·.outputKey)).foldlM
    (assertUniqueCoreKey "duplicate dogecoin spend in core window") spent

def assertCoreApplicationShape (state : CoreWindowShapeState)
    (application : CoreDogecoinBlockApplication) : Except CoreError CoreWindowShapeState := do
  assertCoreApplicationHeight application state
  assertCoreApplicationPreviousHash application state
  let created ← assertUniqueCoreOutputs application state.created
  let spent ← assertUniqueCoreSpends application state.spent
  return ⟨created,spent,some application.blockHash,some application.blockHeight⟩

def assertCoreWindowShape (applications : List CoreDogecoinBlockApplication) :
    Except CoreError CoreWindowShapeState :=
  applications.foldlM assertCoreApplicationShape createCoreWindowShapeState

def assertPreviousCoreBlockMatches (previous : Option CoreProcessedBlockRow)
    (firstApplication : CoreDogecoinBlockApplication) : Except CoreError Unit :=
  match previous with
  | none => .ok ()
  | some row =>
    if firstApplication.previousBlockHash = some row.blockHash then .ok ()
    else .error (nonContiguousChain (toString row.blockHeight) row.blockHash firstApplication)

def assertCoreWindowPreviousBlock (applications : List CoreDogecoinBlockApplication) :
    WarehouseJob Unit :=
  match applications with
  | [] => pure ()
  | firstApplication::_ =>
    match firstApplication.blockHeight with
    | 0 => pure ()
    | previousHeight + 1 => do
      let previous ← Job.read (fun w => w.latestProcessedBlock previousHeight)
      Job.ofExcept (assertPreviousCoreBlockMatches previous firstApplication)

def assertCorePrevoutsExist (externalSpendKeys : List OutputKey)
    (created : OrderedMap OutputKey ProjectionUtxoOutput) : Except CoreError Unit :=
  match externalSpendKeys.find? (fun key => (created.get key).isNone) with
  | some missing => .error (.error ("missing core dogecoin prevout: " ++ missing.text))
  | none => .ok ()

def coreSpendsInWindow (applications : List CoreDogecoinBlockApplication) :
    OrderedMap OutputKey CoreDogecoinSpend :=
  .ofEntries ((applications.flatMap (·.utxoSpends)).map (fun spend => (spend.outputKey,spend)))

def isSameCoreSpend (row spend : CoreDogecoinSpend) : Bool :=
  row.spentByTxid = spend.spentByTxid ∧ row.spentInBlock = spend.spentInBlock ∧
    row.spentInputIndex = spend.spentInputIndex

def isConflictingCoreSpend (row retrySpend : Option CoreDogecoinSpend) : Bool :=
  match row with
  | none => false
  | some row =>
    match retrySpend with
    | none => true
    | some spend => !isSameCoreSpend row spend

def assertCorePrevoutsUnspent (externalSpendKeys : List OutputKey)
    (spent spendsInWindow : OrderedMap OutputKey CoreDogecoinSpend) : Except CoreError Unit :=
  match externalSpendKeys.find?
      (fun key => isConflictingCoreSpend (spent.get key) (spendsInWindow.get key)) with
  | some alreadySpent =>
    .error (.error ("core dogecoin prevout already spent: " ++ alreadySpent.text))
  | none => .ok ()

def assertCoreWindowPrevouts (applications : List CoreDogecoinBlockApplication) :
    WarehouseJob Unit :=
  let keys := externalCoreSpendKeys applications
  if keys = [] then pure ()
  else do
    let created ← Job.read (Warehouse.getCoreUtxoCreateRows keys)
    let spent ← Job.read (Warehouse.getCoreUtxoSpendRows keys)
    Job.ofExcept (assertCorePrevoutsExist keys created)
    Job.ofExcept (assertCorePrevoutsUnspent keys spent (coreSpendsInWindow applications))

def validatePendingCoreWindow (pending : List CoreDogecoinBlockApplication)
    (context : CoreDogecoinApplyContext) : WarehouseJob Unit := do
  let _ ← Job.ofExcept (assertCoreWindowShape pending)
  assertCoreWindowPreviousBlock pending
  Job.when (shouldValidateCorePrevouts context) (assertCoreWindowPrevouts pending)

namespace Warehouse

def insertCoreCreates (rows : List ProjectionUtxoOutput) (w : Warehouse) : Warehouse :=
  { w with coreUtxoCreates := w.coreUtxoCreates ++ rows }

def insertCoreSpends (rows : List CoreDogecoinSpend) (w : Warehouse) : Warehouse :=
  { w with coreUtxoSpends := w.coreUtxoSpends ++ rows }

/-- The materialized view copies every movement into the by-address table. -/
def insertAddressMovements (rows : List AddressMovement) (w : Warehouse) : Warehouse :=
  { w with
    addressMovements := w.addressMovements ++ rows
    addressMovementsByAddress := w.addressMovementsByAddress ++ rows }

def insertAnalyticsTransactions (rows : List AnalyticsTransactionFact) (w : Warehouse) :
    Warehouse :=
  { w with analyticsTransactions := w.analyticsTransactions ++ rows }

def insertCoreProcessedBlocks (rows : List CoreProcessedBlockRow) (w : Warehouse) : Warehouse :=
  { w with coreProcessedBlocks := w.coreProcessedBlocks ++ rows }

end Warehouse

/-- No call is made for an empty list of rows. -/
def insertRows {ρ : Type} (insert : List ρ → Warehouse → Warehouse) (values : List ρ) :
    WarehouseJob Unit :=
  if values.isEmpty then pure () else Job.write (insert values)

/-- The four inserts run concurrently and are all awaited before an error goes on. -/
def insertCoreWindowFacts (pending : List CoreDogecoinBlockApplication) (prevouts : OutputMap) :
    WarehouseJob Unit :=
  let inserts := coreWindowFactInserts pending prevouts
  Job.settleAll
    [insertRows Warehouse.insertCoreCreates inserts.creates,
      insertRows Warehouse.insertCoreSpends inserts.spends,
      insertRows Warehouse.insertAddressMovements inserts.movements,
      insertRows Warehouse.insertAnalyticsTransactions inserts.transactions]

def loadCoreWindowPrevouts (pending : List CoreDogecoinBlockApplication)
    (context : CoreDogecoinApplyContext) : WarehouseJob OutputMap :=
  if shouldUpdateCoreCurrentState context then
    Job.read (Warehouse.getCurrentUtxoOutputMap (externalCoreSpendKeys pending))
  else pure .empty

def buildCoreCurrentStateWindow (pending : List CoreDogecoinBlockApplication)
    (prevouts : OutputMap) : WarehouseJob (Option CoreCurrentStateWindow) :=
  match pending.getLast? with
  | none => pure none
  | some last => do
    let mutation ← Job.ofExcept (applyCoreCurrentStateMutations pending prevouts)
    let currentBalances ← Job.read
      (Warehouse.getBalanceRowsByKeys (mutation.balanceDeltas.entries.map (·.1)))
    let nextBalances ← Job.ofExcept
      (coreCurrentBalanceRows last.blockHeight mutation.balanceDeltas currentBalances)
    return some ⟨nextBalances,mutation.nextOutputs,last.blockHeight⟩

def coreCurrentUtxoRows (nextOutputs : OutputMap) : List UtxoRow :=
  nextOutputs.values.map (fun output => ⟨output,coreCurrentUtxoVersion output⟩)

def toProjectionAppliedBlocks (pending : List CoreDogecoinBlockApplication) :
    List ProjectionAppliedBlock :=
  pending.map (fun application => ⟨application.blockHeight,application.blockHash⟩)

def insertCoreCurrentStateWindow (currentState : CoreCurrentStateWindow)
    (pending : List CoreDogecoinBlockApplication) : WarehouseJob Unit := do
  insertRows Warehouse.insertCurrentUtxos (coreCurrentUtxoRows currentState.nextOutputs)
  insertRows Warehouse.insertBalances currentState.nextBalances
  insertRows Warehouse.insertAnalyticsBalances currentState.nextBalances
  insertRows Warehouse.insertAppliedBlocks (toProjectionAppliedBlocks pending)

def resolveCoreCurrentStateWindow (pending : List CoreDogecoinBlockApplication)
    (context : CoreDogecoinApplyContext) (prevouts : OutputMap) :
    WarehouseJob (Option CoreCurrentStateWindow) :=
  if shouldUpdateCoreCurrentState context then buildCoreCurrentStateWindow pending prevouts
  else pure none

def insertCoreCurrentStateIfBuilt (currentState : Option CoreCurrentStateWindow)
    (pending : List CoreDogecoinBlockApplication) : WarehouseJob Unit :=
  match currentState with
  | some currentState => insertCoreCurrentStateWindow currentState pending
  | none => pure ()

def toCoreProcessedBlockRow (application : CoreDogecoinBlockApplication) :
    CoreProcessedBlockRow :=
  ⟨application.blockHeight,application.blockHash,application.blockTime,application.txCount,
    application.blockHeight⟩

/-- Everything that can fail on missing state is resolved before the first insert. -/
def insertPendingCoreWindow (pending : List CoreDogecoinBlockApplication)
    (context : CoreDogecoinApplyContext) : WarehouseJob Unit := do
  let prevouts ← loadCoreWindowPrevouts pending context
  let currentState ← resolveCoreCurrentStateWindow pending context prevouts
  insertCoreWindowFacts pending prevouts
  insertCoreCurrentStateIfBuilt currentState pending
  insertRows Warehouse.insertCoreProcessedBlocks (pending.map toCoreProcessedBlockRow)

def missingUtxoOutputKeys (outputKeys : List OutputKey) (currentOutputs : OutputMap) :
    List OutputKey :=
  outputKeys.filter (fun key => (currentOutputs.get key).isNone)

def assertCoreCurrentPrevoutRepairs (missingOutputKeys : List OutputKey)
    (repairedRows : List ProjectionUtxoOutput) : Except CoreError Unit :=
  match missingOutputKeys.find? (fun key => key ∉ repairedRows.map (·.outputKey)) with
  | some missing => .error (.missingCoreCurrentPrevout missing)
  | none =>
    match repairedRows.find? (fun row => row.spentBy.isSome) with
    | some spent =>
      .error (.error ("core dogecoin prevout already spent before current repair: " ++
        spent.outputKey.text))
    | none => .ok ()

def unspentCoreCurrentRepair (row : ProjectionUtxoOutput) : ProjectionUtxoOutput :=
  { row with spentBy := none }

def coreCurrentRepairRow (row : ProjectionUtxoOutput) : UtxoRow :=
  ⟨unspentCoreCurrentRepair row,coreCurrentCreateVersion row.blockHeight⟩

def repairMissingCoreCurrentPrevouts (pending : List CoreDogecoinBlockApplication) :
    WarehouseJob Unit := do
  let outputKeys := externalCoreSpendKeys pending
  let currentOutputs ← Job.read (Warehouse.getCurrentUtxoOutputMap outputKeys)
  let missingOutputKeys := missingUtxoOutputKeys outputKeys currentOutputs
  if missingOutputKeys = [] then pure ()
  else do
    let repairedRows ← Job.read
      (Warehouse.queryCoreHistoricalUtxoOutputRows missingOutputKeys (coreWindowStart pending - 1))
    Job.ofExcept (assertCoreCurrentPrevoutRepairs missingOutputKeys repairedRows)
    insertRows Warehouse.insertCurrentUtxos (repairedRows.map coreCurrentRepairRow)

def cleanFailedCoreWindowFacts (pending : List CoreDogecoinBlockApplication) :
    WarehouseJob Unit :=
  match pending.head? with
  | none => pure ()
  | some first => deleteCoreDogecoinTail first.blockHeight

def recoverCoreCurrentStateForPendingWindow (pending : List CoreDogecoinBlockApplication) :
    WarehouseJob Unit := do
  cleanFailedCoreWindowFacts pending
  repairMissingCoreCurrentPrevouts pending

/-- Only a missing previous output, with the current-state update on, is repaired. -/
def recoverPendingCoreWindow (pending : List CoreDogecoinBlockApplication)
    (context : CoreDogecoinApplyContext) : CoreError → WarehouseJob Unit
  | .missingCoreCurrentPrevout outputKey =>
    if shouldUpdateCoreCurrentState context then do
      recoverCoreCurrentStateForPendingWindow pending
      Job.onFailure (insertPendingCoreWindow pending context) (cleanFailedCoreWindowFacts pending)
    else Job.throw (.missingCoreCurrentPrevout outputKey)
  | .error message => Job.throw (.error message)

def insertPendingCoreWindowWithRecovery (pending : List CoreDogecoinBlockApplication)
    (context : CoreDogecoinApplyContext) : WarehouseJob Unit :=
  Job.catchThrown (insertPendingCoreWindow pending context)
    (recoverPendingCoreWindow pending context)

def firstCoreReorgHeight (applications : List CoreDogecoinBlockApplication)
    (processedBlocks : OrderedMap Nat CoreProcessedBlockRow) : Option Nat :=
  (applications.find? (fun application =>
    match processedBlocks.get application.blockHeight with
    | some existing => decide (existing.blockHash ≠ application.blockHash)
    | none => false)).map (·.blockHeight)

def isPendingCoreApplication (processedBlocks : OrderedMap Nat CoreProcessedBlockRow)
    (application : CoreDogecoinBlockApplication) : Except CoreError Bool :=
  match processedBlocks.get application.blockHeight with
  | none => .ok true
  | some existing =>
    if existing.blockHash = application.blockHash then .ok false
    else .error (.error ("core block hash mismatch height=" ++ toString application.blockHeight ++
      " existing=" ++ existing.blockHash ++ " next=" ++ application.blockHash))

def filterPendingCoreApplications (processedBlocks : OrderedMap Nat CoreProcessedBlockRow) :
    List CoreDogecoinBlockApplication → Except CoreError (List CoreDogecoinBlockApplication)
  | [] => .ok []
  | application::applications => do
    let isPending ← isPendingCoreApplication processedBlocks application
    let rest ← filterPendingCoreApplications processedBlocks applications
    return if isPending then application::rest else rest

section Apply
variable (boundaries : Warehouse → List String)

def rewindCoreDogecoinWindow (fromBlockHeight : Nat) (context : CoreDogecoinApplyContext) :
    WarehouseJob Unit := do
  deleteCoreDogecoinTail fromBlockHeight
  Job.when (shouldUpdateCoreCurrentState context)
    (rematerializeCoreCurrentStateBelow boundaries fromBlockHeight)

def recoverCoreDogecoinWindow (fromBlockHeight : Nat) (context : CoreDogecoinApplyContext) :
    WarehouseJob Unit :=
  rewindCoreDogecoinWindow boundaries fromBlockHeight context

def pendingCoreWindowApplications (input : List CoreDogecoinBlockApplication)
    (context : CoreDogecoinApplyContext) : WarehouseJob (List CoreDogecoinBlockApplication) := do
  let processedBlocks ← Job.read
    (Warehouse.getCoreProcessedBlocks (input.map (·.blockHeight)))
  match firstCoreReorgHeight input processedBlocks with
  | some reorgHeight => do
    rewindCoreDogecoinWindow boundaries reorgHeight context
    return input.filter (fun application => reorgHeight ≤ application.blockHeight)
  | none => Job.ofExcept (filterPendingCoreApplications processedBlocks input)

def applyCoreDogecoinWindow (input : List CoreDogecoinBlockApplication)
    (context : CoreDogecoinApplyContext) : WarehouseJob CoreDogecoinApplyResult :=
  if input = [] then pure ⟨false,-1⟩
  else do
    let pending ← pendingCoreWindowApplications boundaries input context
    if pending = [] then return ⟨false,coreWindowEnd input⟩
    else do
      validatePendingCoreWindow pending context
      insertPendingCoreWindowWithRecovery pending context
      return ⟨true,coreWindowEnd pending⟩

end Apply

end OnlyDoge
