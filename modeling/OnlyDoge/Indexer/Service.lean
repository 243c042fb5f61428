import OnlyDoge.Indexer.Store
import OnlyDoge.Node.ByteReader
import OnlyDoge.Warehouse.Window
set_option autoImplicit false

/-!
One iteration of the core indexer (`runDogecoinConfig` of `core-dogecoin-indexer-service.ts`) as
a job: every awaited call of the node, the raw storage, the metadata database and the warehouse
can fail or be the last thing the process does.
-/

namespace OnlyDoge.CoreIndexer

inductive CoreBackfillBlockSource where
  | auto
  | node
  | storage
  deriving DecidableEq,Repr

/-- The settings that the iterations read; `settings.ts` parses window sizes and the reprocess
depth as positive integers. -/
structure CoreDogecoinIndexerSettings extends RawBlockSyncSettings where
  coreBackfillBlockSource : Option CoreBackfillBlockSource
  coreBackfillWindowBlocks : Option Nat
  coreOnlineTipDistance : Nat
  coreProcessWindow : Nat
  coreReprocessDepth : Nat
  coreSyncCompleteDistance : Nat
  syncWindow : Nat
  backfillWindow_pos : ∀ blocks ∈ coreBackfillWindowBlocks, 0 < blocks
  processWindow_pos : 0 < coreProcessWindow
  reprocessDepth_pos : 0 < coreReprocessDepth
  syncWindow_pos : 0 < syncWindow

/-- The chain that the node reports during one iteration, a block for each height. -/
structure NodeChain where
  blocks : List ParsedDogecoinBlock
  heights : blocks.map (·.height) = List.range blocks.length
  ne : blocks ≠ []

namespace NodeChain

def latest (node : NodeChain) : Int := (node.blocks.length : Int) - 1

def block (node : NodeChain) (height : Nat) : Option ParsedDogecoinBlock := node.blocks[height]?

end NodeChain

/-- What an iteration meets: the node, the clock, after how many blocks a backfill window is
full, how far the next blocks are read ahead, which heartbeats of a materialization are due,
and the boundaries that the balance table's index answers. -/
structure IterationInput where
  node : NodeChain
  nowMs : Nat
  fillBlocks : Nat
  readAheadBlocks : Nat
  heartbeatDue : Nat → Bool
  boundaries : Warehouse → List String

/-- `range(start, end)`; every caller starts at a height. -/
def range (start stop : Int) : List Nat := List.range' start.toNat (stop + 1 - start).toNat

def nodeSourceRetryDelayMs : Nat := 60000

def noSnapshot (height : Nat) : CoreError :=
  .error ("missing raw dogecoin block snapshot height=" ++ toString height)

/-- Throws when the lease is gone, which the process learns at any time. -/
def assertPrimaryLease : IndexerJob Unit := Job.read (fun _ => ())

/-- Ends the process when it has shown no progress for too long. -/
def assertProgressWatchdog : IndexerJob Unit := Job.read (fun _ => ())

def hasProcessedEverySyncedBlock (state : CoreIndexerState) : Bool :=
  0 ≤ state.syncTail ∧ state.syncTail ≤ state.processTail

def shouldPromoteToProcessBackfill (state : CoreIndexerState) (latest : Int)
    (coreSyncCompleteDistance : Nat) : Bool :=
  0 ≤ state.syncTail ∧ latest - coreSyncCompleteDistance ≤ state.syncTail

def finalizedNodeHeight (latest : Int) (settings : CoreDogecoinIndexerSettings) : Int :=
  latest - settings.coreReprocessDepth

def backfillReadAheadLimit (source : CoreWindowSource) (latest syncTail : Int)
    (settings : CoreDogecoinIndexerSettings) : Int :=
  if source = .node ∧ settings.coreBackfillBlockSource = some .auto then
    min syncTail (finalizedNodeHeight latest settings)
  else syncTail

def reprocessWindowStart (tip : Int) (coreReprocessDepth : Nat) : Int :=
  max 0 (tip - coreReprocessDepth + 1)

def onlineRawRefreshStart (state : CoreIndexerState) (syncEnd : Int) (coreReprocessDepth : Nat) :
    Int :=
  max 0 (min (state.syncTail + 1) (reprocessWindowStart syncEnd coreReprocessDepth))

def onlineProcessWindowStart (processTail processTarget : Int) (coreReprocessDepth : Nat) : Int :=
  max 0 (min (processTail + 1)
    (reprocessWindowStart (min processTail processTarget) coreReprocessDepth))

def onlineProcessHeights (processTail processTarget : Int)
    (coreReprocessDepth coreProcessWindow : Nat) : List Nat :=
  range (onlineProcessWindowStart processTail processTarget coreReprocessDepth)
    (min processTarget (processTail + coreProcessWindow))

def finalizedTail (processTail : Int) (coreReprocessDepth : Nat) : Int :=
  max (-1) (processTail - coreReprocessDepth)

def shouldRefreshOnlineReprocessWindow (state : CoreIndexerState) (latest : Int) : Bool :=
  state.syncTail < latest ∨ state.onlineTip ≠ latest

def isCoreStateAtLatest (state : CoreIndexerState) (latest : Int) : Bool :=
  latest ≤ state.syncTail ∧ latest ≤ state.processTail

def isReadyOnlineState (state : CoreIndexerState) (latest : Int) : Bool :=
  state.stage = .online ∧ state.onlineTip = latest ∧ state.lastError = false

section Iteration
variable (settings : CoreDogecoinIndexerSettings) (input : IterationInput)

def isDogecoinCurrentStateReady : IndexerJob Bool := Job.read (·.metadata.currentStateReady)

def isDogecoinHistoryReady : IndexerJob Bool := Job.read (·.metadata.historyReady)

def progressEntries (latest : Int) (state : CoreIndexerState) (historyReady : Bool)
    (progress : IndexerProgress) : IndexerProgress where
  blockHeight := some latest
  stage := some state.stage
  syncTail := some state.syncTail
  processTail := some state.processTail
  finalizedTail := some (finalizedTail state.processTail settings.coreReprocessDepth)
  reprocessDepth := some settings.coreReprocessDepth
  factTail := if historyReady then some state.processTail else progress.factTail

def publishProgress (latest : Int) (state : CoreIndexerState) : IndexerJob Unit := do
  let historyReady ← isDogecoinHistoryReady
  assertPrimaryLease
  executeRelaxed (Metadata.withProgress (progressEntries settings latest state historyReady))

def ensureState (latest : Int) : IndexerJob CoreIndexerState := do
  let current ← getCoreIndexerState
  match current with
  | some state => return state
  | none => do
    let storedSyncTail ← Job.read (fun s => s.metadata.progress.syncTail.getD (-1))
    upsertCoreIndexerState
      { stage := some .syncBackfill
        syncTail := some (min storedSyncTail latest)
        processTail := some (-1)
        onlineTip := some latest
        lastError := some false }

def markReconciled (process : IndexerProcess) : IndexerProcess :=
  { process with warehouseTailReconciled := true }

/-- `-1` stands for a warehouse without processed blocks. -/
def getCoreProcessedTail : IndexerJob Int :=
  Job.zoom IndexerStore.warehousePart
    (Job.read (fun w => match w.getCoreProcessedTail with
      | some height => (height : Int)
      | none => -1))

def recoverCoreWindow (fromBlockHeight : Nat) (updateCurrentState : Bool) : IndexerJob Unit :=
  Job.zoom IndexerStore.warehousePart
    (recoverCoreDogecoinWindow input.boundaries fromBlockHeight
      ⟨some updateCurrentState,some false⟩)

/-- Once in a process, the recorded tail is lowered to what the warehouse holds. -/
def reconcileProcessTailWithWarehouse (state : CoreIndexerState) : IndexerJob CoreIndexerState := do
  let reconciled ← Job.look (·.process.warehouseTailReconciled)
  if reconciled then return state
  else do
    let warehouseTail ← getCoreProcessedTail
    Job.assign (IndexerStore.withProcess markReconciled)
    if state.processTail ≤ warehouseTail then return state
    else do
      let currentStateReady ← isDogecoinCurrentStateReady
      recoverCoreWindow input (warehouseTail + 1).toNat currentStateReady
      upsertCoreIndexerState { processTail := some warehouseTail }

/-- `value.trim().length === 0` -/
def isBlank (value : String) : Bool := value.toList.all isTrimmed

def parseCoreApplyRecoveryMarker (marker : CoreApplyRecoveryMarker) :
    Except CoreError CoreApplyRecoveryMarker :=
  if isBlank marker.instanceId then
    .error (.error "core apply recovery marker field instanceId must be a non-empty string")
  else if marker.endHeight < marker.startHeight then
    .error (.error "core apply recovery marker has invalid height bounds")
  else .ok marker

def recoverPendingCoreApplyIfNeeded : IndexerJob Unit := do
  let rawMarker ← Job.read (·.metadata.coreApplyRecovery)
  match rawMarker with
  | none => return ()
  | some rawMarker => do
    let marker ← Job.ofExcept (parseCoreApplyRecoveryMarker rawMarker)
    recoverCoreWindow input marker.startHeight marker.updateCurrentState
    let cleared ← compareAndDeleteCoreApplyRecovery marker
    if cleared then return ()
    else Job.throw (.error ("core apply recovery marker changed during recovery window=" ++
      toString marker.startHeight ++ "-" ++ toString marker.endHeight))

def markTransactionRefsReadyIfCaughtUp (state : CoreIndexerState) : IndexerJob Unit := do
  let known ← Job.look (·.process.transactionRefsReady)
  if known ∨ !hasProcessedEverySyncedBlock state then return ()
  else do
    let ready ← Job.read (·.metadata.transactionRefsReady)
    Job.when (ready = false)
      (execute (fun metadata => { metadata with transactionRefsReady := true }))
    Job.assign (IndexerStore.withProcess
      (fun process => { process with transactionRefsReady := true }))

def rawBlockSnapshot (block : ParsedDogecoinBlock) : ParsedRawBlockSnapshot :=
  ⟨block.hash,block.height,block.previousHash,block.time,block.tx.map (·.txid)⟩

def rawBlockRefs (block : ParsedDogecoinBlock) : List TransactionRef :=
  (rawBlockSnapshot block).refs

/-- The node answers a batch as a whole, and not at all for a height above its tip. -/
def getBlockSnapshots (heights : List Nat) : IndexerJob (List ParsedDogecoinBlock) := do
  let snapshots ← Job.read (fun _ => heights.mapM input.node.block)
  match snapshots with
  | some snapshots => return snapshots
  | none => Job.throw (.error "Block height out of range")

/-- A block that the node reports at a height has that height, as `storeSnapshot` asserts. -/
def syncBatch (batch : List Nat) : IndexerJob Unit := do
  let snapshots ← getBlockSnapshots input batch
  Job.settleAll (snapshots.map fun snapshot => Job.write (IndexerStore.putPart snapshot))
  executeRelaxed
    (Metadata.upsertCoreBlocks (snapshots.map (fun block => (rawBlockSnapshot block).record)))
  let refs := snapshots.flatMap rawBlockRefs
  Job.when (refs ≠ []) (Job.write (IndexerStore.upsertTransactionRefs refs))

/-- Every attempt moves the concurrency of the rounds. -/
def recordBatch (f : AdaptiveConcurrencyController → AdaptiveConcurrencyController) :
    IndexerJob Unit :=
  Job.assign (IndexerStore.withProcess
    (fun process => { process with concurrency := f process.concurrency }))

/-- `attempts` more attempts follow a failed one. -/
def syncBatchWithRetry (batch : List Nat) : Nat → IndexerJob Unit
  | 0 => do
    Job.onFailure (syncBatch input batch)
      (recordBatch AdaptiveConcurrencyController.recordFailure)
    recordBatch AdaptiveConcurrencyController.recordSuccess
  | attempts + 1 => do
    let result ← Job.attempt (syncBatch input batch)
    match result with
    | .ok _ => recordBatch AdaptiveConcurrencyController.recordSuccess
    | .error _ => do
      recordBatch AdaptiveConcurrencyController.recordFailure
      syncBatchWithRetry batch attempts

/-- The writes of a round whose sync has failed go on without anyone waiting for them. -/
def leaveUnderway (heights : List Nat) (s : IndexerStore) : IndexerStore :=
  { s with
    underway := s.underway ++ (heights.filterMap input.node.block).flatMap fun block =>
      [.part block.height block,.blocks [(rawBlockSnapshot block).record],
        .refs (rawBlockRefs block)] }

/-- The loop of `sync`; a round takes as many batches as the concurrency allows, at least one. -/
def syncRounds (onCheckpoint : Int → IndexerJob Unit) :
    Nat → ContiguousFrontier → List (List Nat) → IndexerJob Unit
  | 0,_,_ => pure ()
  | rounds + 1,tracker,batches =>
    if batches.isEmpty then pure ()
    else do
      assertPrimaryLease
      let concurrency ← Job.look (fun s => max 1 s.process.concurrency.current)
      let round := batches.take concurrency
      Job.onFailure
        (Job.settleAll (round.map fun batch =>
          syncBatchWithRetry input batch (settings.syncRetryAttempts - 1)))
        (Job.assign (leaveUnderway input round.flatten))
      let marked := round.foldl
        (fun (tracker : ContiguousFrontier) batch => tracker.markCompleted (batch.map Int.ofNat))
        tracker
      let (advanced,tracker) := marked.consumeAdvance
      Job.when advanced (onCheckpoint tracker.current)
      syncRounds onCheckpoint rounds tracker (batches.drop concurrency)

def storeRawBlockHeights (heights : List Nat) (onCheckpoint : Int → IndexerJob Unit) :
    IndexerJob Unit :=
  let batches := chunk heights settings.syncBatchSize
  syncRounds settings input onCheckpoint batches.length
    (.base ((heights.head?.getD 0 : Int) - 1)) batches

def checkpointSyncTail (latest : Int) (state : CoreIndexerState) (stage : CoreIndexerStage)
    (frontier : Int) : IndexerJob Unit :=
  if frontier ≤ state.syncTail then pure ()
  else do
    assertPrimaryLease
    let _ ← upsertCoreIndexerState
      { stage := some stage
        syncTail := some frontier
        onlineTip := some latest
        lastError := some false }
    return ()

def syncRawBlockHeights (latest : Int) (state : CoreIndexerState) (heights : List Nat)
    (syncTail : Int) (stage : CoreIndexerStage) : IndexerJob Unit := do
  storeRawBlockHeights settings input heights (checkpointSyncTail latest state stage)
  assertPrimaryLease
  let nextState ← upsertCoreIndexerState
    { stage := some stage
      syncTail := some syncTail
      onlineTip := some latest
      lastError := some false }
  publishProgress settings latest nextState

def syncBackfill (latest : Int) (state : CoreIndexerState) : IndexerJob Bool :=
  if shouldPromoteToProcessBackfill state latest settings.coreSyncCompleteDistance then do
    let _ ← upsertCoreIndexerState { stage := some .processBackfill, onlineTip := some latest }
    execute (Metadata.withProgress (fun p => { p with stage := some .processBackfill }))
    return true
  else do
    let stop := min latest (state.syncTail + settings.syncWindow)
    syncRawBlockHeights settings input latest state (range (state.syncTail + 1) stop) stop
      .syncBackfill
    return true

def loadRawSnapshot (height : Nat) : IndexerJob ParsedDogecoinBlock := do
  let snapshot ← Job.read (·.rawBlock height)
  match snapshot with
  | some snapshot => return snapshot
  | none => Job.throw (noSnapshot height)

def fetchSnapshot (source : CoreWindowSource) (height : Nat) : IndexerJob ParsedDogecoinBlock :=
  match source with
  | .storage => loadRawSnapshot height
  | .node => do
    let snapshot ← Job.read (fun _ => input.node.block height)
    match snapshot with
    | some snapshot => return snapshot
    | none => Job.throw (.error "Block height out of range")

/-- What the source has for a height now. -/
def sourceBlock (source : CoreWindowSource) (height : Nat) (s : IndexerStore) :
    Option ParsedDogecoinBlock :=
  match source with
  | .node => input.node.block height
  | .storage => s.rawBlock height

def getPrefetched (source : CoreWindowSource) (height : Nat) : IndexerJob ParsedDogecoinBlock := do
  let buffered ← Job.look (fun s => s.process.buffered source height)
  match buffered with
  | some snapshot => return snapshot
  | none => fetchSnapshot input source height

def getAllPrefetched (source : CoreWindowSource) : List Nat → IndexerJob (List ParsedDogecoinBlock)
  | [] => pure []
  | height::heights => do
    let snapshot ← getPrefetched input source height
    let snapshots ← getAllPrefetched source heights
    return snapshot::snapshots

/-- The next blocks of the source, those already buffered first, as far as it has them. -/
def readAhead (source : CoreWindowSource) (heights : List Nat) (s : IndexerStore) : IndexerStore :=
  let ahead := (heights.map fun height =>
    (s.process.buffered source height).or (sourceBlock input source height s)).takeWhile (·.isSome)
  s.withProcess fun process =>
    { process with backfillLoader := some ⟨source,ahead.filterMap id⟩ }

def resetPrefetcher (s : IndexerStore) : IndexerStore :=
  s.withProcess fun process => { process with backfillLoader := none }

structure CoreWindowPlan where
  firstHeight : Int
  lastHeight : Int
  source : CoreWindowSource
  readAheadLimit : Int

def backfillWindowBlocks : Nat :=
  settings.coreBackfillWindowBlocks.getD settings.coreProcessWindow

/-- Heights inside the reorg window keep using the stored snapshots. -/
def backfillSource (latest firstHeight : Int) (nodeSourceRetryAtMs : Nat) : CoreWindowSource :=
  match settings.coreBackfillBlockSource with
  | none => .storage
  | some .storage => .storage
  | some .node => .node
  | some .auto =>
    if input.nowMs < nodeSourceRetryAtMs then .storage
    else if firstHeight ≤ finalizedNodeHeight latest settings then .node
    else .storage

def planBackfillWindow (latest : Int) (state : CoreIndexerState) (nodeSourceRetryAtMs : Nat) :
    CoreWindowPlan :=
  let firstHeight := state.processTail + 1
  let source := backfillSource settings input latest firstHeight nodeSourceRetryAtMs
  let readAheadLimit := backfillReadAheadLimit source latest state.syncTail settings
  ⟨firstHeight,min readAheadLimit (state.processTail + backfillWindowBlocks settings),source,
    readAheadLimit⟩

/-- A window closes early when it holds its rows or its time is over. -/
def CoreWindowPlan.fillHeights (plan : CoreWindowPlan) (fillBlocks : Nat) : List Nat :=
  (range plan.firstHeight plan.lastHeight).take (max 1 fillBlocks)

def fillBackfillWindow (plan : CoreWindowPlan) (source : CoreWindowSource) :
    IndexerJob (List ParsedDogecoinBlock) := do
  let heights := plan.fillHeights input.fillBlocks
  let snapshots ← Job.onFailure (getAllPrefetched input source heights)
    (Job.assign resetPrefetcher)
  let next := plan.firstHeight + heights.length
  Job.assign (readAhead input source
    (range next (min plan.readAheadLimit (next + input.readAheadBlocks - 1))))
  return snapshots

def retryNodeLater (process : IndexerProcess) : IndexerProcess :=
  { process with nodeSourceRetryAtMs := input.nowMs + nodeSourceRetryDelayMs }

/-- Only `auto` falls back to the stored snapshots when the node fails. -/
def loadBackfillSnapshots (plan : CoreWindowPlan) : IndexerJob (List ParsedDogecoinBlock) :=
  if plan.source = .node ∧ settings.coreBackfillBlockSource = some .auto then do
    let filled ← Job.attempt (fillBackfillWindow input plan .node)
    match filled with
    | .ok snapshots => return snapshots
    | .error _ => do
      Job.assign (IndexerStore.withProcess (retryNodeLater input))
      fillBackfillWindow input plan .storage
  else fillBackfillWindow input plan plan.source

def loadRawSnapshots : List Nat → IndexerJob (List ParsedDogecoinBlock)
  | [] => pure []
  | height::heights => do
    let snapshot ← loadRawSnapshot height
    let snapshots ← loadRawSnapshots heights
    return snapshot::snapshots

/-- A step of a window asserts the lease before and after its work. -/
def runCoreBlockStep {α : Type} (work : IndexerJob α) : IndexerJob α := do
  assertPrimaryLease
  let result ← work
  assertPrimaryLease
  return result

def applyWindowApplications (applications : List CoreDogecoinBlockApplication)
    (updateCurrentState : Bool) : IndexerJob CoreDogecoinApplyResult :=
  runCoreBlockStep (Job.zoom IndexerStore.warehousePart
    (applyCoreDogecoinWindow input.boundaries applications ⟨some updateCurrentState,some false⟩))

def createCoreApplyRecoveryMarker (instanceId : String) (startedAt : Nat)
    (first last : CoreDogecoinBlockApplication) (applications : List CoreDogecoinBlockApplication)
    (updateCurrentState : Bool) : CoreApplyRecoveryMarker :=
  ⟨instanceId,first.blockHeight,last.blockHeight,applications.map (·.blockHash),
    updateCurrentState,startedAt⟩

def clearCoreApplyRecoveryMarker (marker : CoreApplyRecoveryMarker) : IndexerJob Unit := do
  let cleared ← compareAndDeleteCoreApplyRecovery marker
  if cleared then return ()
  else Job.throw (.error ("core apply recovery marker changed during apply instance=" ++
    marker.instanceId ++ " window=" ++ toString marker.startHeight ++ "-" ++
    toString marker.endHeight))

/-- The marker is flushed before the first row is written and stays when the apply fails. -/
def applyWindowApplicationsWithRecovery (applications : List CoreDogecoinBlockApplication)
    (updateCurrentState : Bool) : IndexerJob CoreDogecoinApplyResult :=
  match applications.head? with
  | none => applyWindowApplications input applications updateCurrentState
  | some first => do
    let last := applications.getLast?.getD first
    let instanceId ← Job.look (·.process.instanceId)
    let marker := createCoreApplyRecoveryMarker instanceId input.nowMs first last applications
      updateCurrentState
    execute (fun metadata => { metadata with coreApplyRecovery := some marker })
    let applied ← applyWindowApplications input applications updateCurrentState
    clearCoreApplyRecoveryMarker marker
    return applied

def processWindow (load : IndexerJob (List ParsedDogecoinBlock)) (updateCurrentState : Bool) :
    IndexerJob CoreDogecoinApplyResult := do
  let snapshots ← runCoreBlockStep load
  let applications ← runCoreBlockStep
    (Job.ofExcept (buildFastCoreDogecoinBlockApplications snapshots))
  applyWindowApplicationsWithRecovery input applications updateCurrentState

def publishWindowProgress (latest : Int) (result : CoreDogecoinApplyResult)
    (stage : CoreIndexerStage) : IndexerJob Unit :=
  runCoreBlockStep do
    let state ← upsertCoreIndexerState
      { stage := some stage
        processTail := some result.processTail
        onlineTip := some latest
        lastError := some false }
    publishProgress settings latest state

def processBackfillWindow (latest : Int) (state : CoreIndexerState) (currentStateReady : Bool) :
    IndexerJob Bool := do
  let nodeSourceRetryAtMs ← Job.look (·.process.nodeSourceRetryAtMs)
  let plan := planBackfillWindow settings input latest state nodeSourceRetryAtMs
  let result ← processWindow input (loadBackfillSnapshots settings input plan) currentStateReady
  publishWindowProgress settings latest result .processBackfill
  return true

def materializationHeartbeat (latest : Int) (completedRanges : Nat) : IndexerJob Unit := do
  assertPrimaryLease
  Job.when (input.heartbeatDue completedRanges) do
    let _ ← upsertCoreIndexerState { onlineTip := some latest, lastError := some false }
    return ()

def indexerMaterialization (latest : Int) (asOfBlockHeight : Nat)
    (resumeFrom : Option (Nat × Nat)) : MaterializationContext IndexerStore where
  warehouse := IndexerStore.warehousePart
  resumeFrom := resumeFrom
  onRangeCompleted completedRanges rangeCount := do
    executeRelaxed (fun metadata =>
      { metadata with materialization := some ⟨asOfBlockHeight,completedRanges,rangeCount⟩ })
    materializationHeartbeat input latest completedRanges

/-- `CoreStateStore.materializeCoreDogecoinCurrentState` on the keys of the indexer. -/
def materializeCurrentState (latest : Int) (asOfBlockHeight : Nat) : IndexerJob Unit := do
  let resumeFrom ← Job.read (fun s => s.stateStore.resumePoint asOfBlockHeight)
  materializeCoreDogecoinCurrentState
    (indexerMaterialization input latest asOfBlockHeight resumeFrom) input.boundaries
    asOfBlockHeight
  Job.settleAll
    [execute (fun metadata => { metadata with currentStateReady := true }),
      execute (fun metadata => { metadata with historyReady := false })]
  execute (fun metadata => { metadata with materialization := none })

def materializeCurrentStateIfNeeded (latest : Int) (state : CoreIndexerState)
    (currentStateReady : Bool) : IndexerJob Unit :=
  Job.when (currentStateReady = false)
    (materializeCurrentState input latest state.processTail.toNat)

/-- A materialization that started for this tail is finished first. -/
def shouldPromoteBackfill (latest : Int) (state : CoreIndexerState) (currentStateReady : Bool) :
    IndexerJob Bool :=
  if latest - settings.coreOnlineTipDistance ≤ state.processTail then return true
  else if currentStateReady then return false
  else do
    let pending ← Job.read (·.metadata.materialization)
    return decide (pending.map (fun p => (p.asOfBlockHeight : Int)) = some state.processTail)

def promoteBackfillToOnline (latest : Int) (state : CoreIndexerState) (currentStateReady : Bool) :
    IndexerJob Unit := do
  materializeCurrentStateIfNeeded input latest state currentStateReady
  let _ ← upsertCoreIndexerState
    { stage := some .online, onlineTip := some latest, lastError := some false }
  Job.settleAll
    [execute (Metadata.withProgress (fun p => { p with stage := some .online })),
      execute (fun metadata => { metadata with historyReady := true }),
      execute (Metadata.withProgress (fun p => { p with factTail := some state.processTail }))]

def returnBackfillToSync (latest : Int) : IndexerJob Unit := do
  let _ ← upsertCoreIndexerState { stage := some .syncBackfill, onlineTip := some latest }
  execute (Metadata.withProgress (fun p => { p with stage := some .syncBackfill }))

def transitionCompletedBackfill (latest : Int) (state : CoreIndexerState)
    (currentStateReady : Bool) : IndexerJob Bool := do
  let promote ← shouldPromoteBackfill settings latest state currentStateReady
  if promote then do
    promoteBackfillToOnline input latest state currentStateReady
    return true
  else do
    returnBackfillToSync latest
    return true

def processBackfill (latest : Int) (state : CoreIndexerState) : IndexerJob Bool := do
  let currentStateReady ← isDogecoinCurrentStateReady
  if state.syncTail ≤ state.processTail then
    transitionCompletedBackfill settings input latest state currentStateReady
  else processBackfillWindow settings input latest state currentStateReady

def syncOnlineBacklogIfNeeded (latest : Int) (state : CoreIndexerState) (syncEnd : Int) :
    IndexerJob Bool :=
  if syncEnd ≤ state.syncTail ∧ !shouldRefreshOnlineReprocessWindow state latest then
    return false
  else do
    let start := onlineRawRefreshStart state syncEnd settings.coreReprocessDepth
    syncRawBlockHeights settings input latest state (range start syncEnd) syncEnd .online
    return true

def refreshedOnlineBacklogState (state : CoreIndexerState) (syncEnd : Int) :
    IndexerJob CoreIndexerState := do
  let refreshed ← getCoreIndexerState
  return refreshed.getD { state with syncTail := syncEnd }

/-- A window without heights is refused before anything is loaded. -/
def fixedWindowPlan (heights : List Nat) : IndexerJob (List ParsedDogecoinBlock) :=
  if heights.isEmpty then Job.throw (.error "empty core process window")
  else loadRawSnapshots heights

def processOnlineWindow (latest : Int) (state : CoreIndexerState) (processTarget : Int)
    (currentStateReady : Bool) : IndexerJob Bool := do
  let heights := onlineProcessHeights state.processTail processTarget settings.coreReprocessDepth
    settings.coreProcessWindow
  storeRawBlockHeights settings input heights (fun _ => pure ())
  let result ← processWindow input (fixedWindowPlan heights) currentStateReady
  publishWindowProgress settings latest result .online
  return result.applied || decide (state.processTail < result.processTail)

def processOnlineBacklogIfNeeded (latest : Int) (state : CoreIndexerState)
    (forceTailReprocess : Bool) : IndexerJob Bool :=
  let processTarget := min state.syncTail latest
  if processTarget ≤ state.processTail ∧ !forceTailReprocess then return false
  else do
    let currentStateReady ← isDogecoinCurrentStateReady
    processOnlineWindow settings input latest state processTarget currentStateReady

def advanceOnlineBacklog (latest : Int) (state : CoreIndexerState) : IndexerJob Bool := do
  let syncEnd := min latest (state.syncTail + settings.syncWindow)
  let didSync ← syncOnlineBacklogIfNeeded settings input latest state syncEnd
  let refreshed ← refreshedOnlineBacklogState state syncEnd
  let didProcess ← processOnlineBacklogIfNeeded settings input latest refreshed didSync
  return didSync || didProcess

def ensureReadyOnlineState (latest : Int) (state : CoreIndexerState) :
    IndexerJob CoreIndexerState :=
  if isReadyOnlineState state latest then return state
  else upsertCoreIndexerState { stage := some .online, onlineTip := some latest }

def publishOnlineNoWorkIfPossible (latest : Int) (state : CoreIndexerState) : IndexerJob Unit := do
  let currentStateReady ← isDogecoinCurrentStateReady
  if latest ≤ state.syncTail ∧ currentStateReady ∧ latest ≤ state.processTail then do
    let nextState ← ensureReadyOnlineState latest state
    publishProgress settings latest nextState
  else Job.when (isCoreStateAtLatest state latest) (publishProgress settings latest state)

def online (latest : Int) (state : CoreIndexerState) : IndexerJob Bool := do
  let didWork ← advanceOnlineBacklog settings input latest state
  if didWork then return true
  else do
    publishOnlineNoWorkIfPossible settings latest state
    return false

def runDogecoinStage (latest : Int) (state : CoreIndexerState) : IndexerJob Bool :=
  match state.stage with
  | .syncBackfill => syncBackfill settings input latest state
  | .processBackfill => processBackfill settings input latest state
  | .online => online settings input latest state

/-- An iteration from the start up to its stage. -/
def startIteration (latest : Int) : IndexerJob CoreIndexerState := do
  recoverPendingCoreApplyIfNeeded input
  let current ← ensureState latest
  let state ← reconcileProcessTailWithWarehouse input current
  markTransactionRefsReadyIfCaughtUp state
  publishProgress settings latest state
  assertProgressWatchdog
  return state

def runDogecoinConfig : IndexerJob Bool := do
  let latest ← Job.read (fun _ => input.node.latest)
  assertPrimaryLease
  Job.onFailure
    (do
      let state ← startIteration settings input latest
      runDogecoinStage settings input latest state)
    setCoreIndexerError

end Iteration

end OnlyDoge.CoreIndexer
