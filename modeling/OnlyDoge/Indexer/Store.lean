import OnlyDoge.Indexer.RawBlockSync
import OnlyDoge.Warehouse.StateStore
import OnlyDoge.Library.Rows
set_option autoImplicit false

/-!
What the core indexer keeps: the warehouse, the metadata database with the writes that a crash
of the database may still take back, the raw block storage, and the fields of the process.
-/

namespace OnlyDoge

inductive CoreIndexerStage where
  | syncBackfill
  | processBackfill
  | online
  deriving DecidableEq,Repr

/-- The row of `core_indexer_state`. `lastError` tells whether there is a text; nothing reads
which one. -/
structure CoreIndexerState where
  stage : CoreIndexerStage
  syncTail : Int
  processTail : Int
  onlineTip : Int
  lastError : Bool
  deriving DecidableEq,Repr

/-- The fields that an upsert names; the others keep their value. -/
structure CoreIndexerStateUpdate where
  stage : Option CoreIndexerStage := none
  syncTail : Option Int := none
  processTail : Option Int := none
  onlineTip : Option Int := none
  lastError : Option Bool := none

structure CoreApplyRecoveryMarker where
  instanceId : String
  startHeight : Nat
  endHeight : Nat
  blockHashes : List String
  updateCurrentState : Bool
  startedAt : Nat
  deriving DecidableEq,Repr

/-- The progress keys of the configuration; a key that was never written is missing. -/
structure IndexerProgress where
  blockHeight : Option Int
  stage : Option CoreIndexerStage
  syncTail : Option Int
  processTail : Option Int
  finalizedTail : Option Int
  reprocessDepth : Option Nat
  factTail : Option Int
  deriving DecidableEq,Repr

structure Metadata where
  indexerState : Option CoreIndexerState
  coreApplyRecovery : Option CoreApplyRecoveryMarker
  currentStateReady : Bool
  historyReady : Bool
  transactionRefsReady : Bool
  materialization : Option MaterializationCheckpoint
  progress : IndexerProgress
  coreBlocks : List CoreBlockRecord
  deriving DecidableEq,Repr

def emptyMetadata : Metadata :=
  ⟨none,none,false,false,false,none,⟨none,none,none,none,none,none,none⟩,[]⟩

inductive CoreWindowSource where
  | node
  | storage
  deriving DecidableEq,Repr

/-- The blocks that were read ahead of the next window. -/
structure CoreBackfillLoader where
  source : CoreWindowSource
  buffered : List ParsedDogecoinBlock
  deriving DecidableEq,Repr

/-- The fields of the service; a new process starts with fresh ones. -/
structure IndexerProcess where
  instanceId : String
  warehouseTailReconciled : Bool
  transactionRefsReady : Bool
  nodeSourceRetryAtMs : Nat
  backfillLoader : Option CoreBackfillLoader
  concurrency : AdaptiveConcurrencyController
  deriving DecidableEq,Repr

/-- The block that the read-ahead of the source holds for a height. -/
def IndexerProcess.buffered (process : IndexerProcess) (source : CoreWindowSource)
    (height : Nat) : Option ParsedDogecoinBlock :=
  match process.backfillLoader with
  | none => none
  | some loader =>
    if loader.source = source then loader.buffered.find? (·.height = height) else none

/-- `unflushed` are the states of the database before each write since the last one that was
flushed; `underway` are the writes of raw sync that nobody waits for any more. -/
structure IndexerStore where
  warehouse : Warehouse
  metadata : Metadata
  unflushed : List Metadata
  rawBlocks : List ParsedDogecoinBlock
  underway : List (RawWrite ParsedDogecoinBlock)
  process : IndexerProcess
  deriving DecidableEq,Repr

abbrev IndexerJob (α : Type) := Job IndexerStore CoreError α

namespace IndexerStore

def warehousePart : StatePart IndexerStore Warehouse where
  get := IndexerStore.warehouse
  put w s := { s with warehouse := w }
  get_put _ _ := rfl
  put_get _ := rfl
  put_put _ _ _ := rfl

/-- The warehouse and the keys that the state store's materialization reads. -/
def stateStore (s : IndexerStore) : CoreStateStore :=
  ⟨s.warehouse,s.metadata.currentStateReady,s.metadata.historyReady,s.metadata.materialization⟩

def withProcess (f : IndexerProcess → IndexerProcess) (s : IndexerStore) : IndexerStore :=
  { s with process := f s.process }

/-- A write that waits for the flush of the database's log, and so flushes those before it. -/
def durable (f : Metadata → Metadata) (s : IndexerStore) : IndexerStore :=
  { s with metadata := f s.metadata, unflushed := [] }

/-- `executeRelaxed`: the write is answered before its flush. -/
def relaxed (f : Metadata → Metadata) (s : IndexerStore) : IndexerStore :=
  { s with metadata := f s.metadata, unflushed := s.unflushed ++ [s.metadata] }

/-- The snapshot stored for a height. -/
def rawBlock (height : Nat) (s : IndexerStore) : Option ParsedDogecoinBlock :=
  s.rawBlocks.find? (·.height = height)

/-- A snapshot is put whole or not at all, as an object of S3 is; of a file that a put left torn
every read fails, as if it were refused. -/
def putPart (block : ParsedDogecoinBlock) (s : IndexerStore) : IndexerStore :=
  { s with rawBlocks := Rows.upsert (·.height = block.height) block s.rawBlocks }

def upsertTransactionRefs (refs : List TransactionRef) (s : IndexerStore) : IndexerStore :=
  { s with
    warehouse := { s.warehouse with transactionRefs := s.warehouse.transactionRefs ++ refs } }

end IndexerStore

namespace Metadata

def upsertCoreBlock (metadata : Metadata) (record : CoreBlockRecord) : Metadata :=
  { metadata with
    coreBlocks := Rows.upsert (·.blockHeight = record.blockHeight) record metadata.coreBlocks }

def upsertCoreBlocks (records : List CoreBlockRecord) (metadata : Metadata) : Metadata :=
  records.foldl upsertCoreBlock metadata

def coreBlock (height : Nat) (metadata : Metadata) : Option CoreBlockRecord :=
  metadata.coreBlocks.find? (·.blockHeight = height)

def withProgress (f : IndexerProgress → IndexerProgress) (metadata : Metadata) : Metadata :=
  { metadata with progress := f metadata.progress }

def setIndexerState (state : CoreIndexerState) (metadata : Metadata) : Metadata :=
  { metadata with indexerState := some state }

end Metadata

def execute (f : Metadata → Metadata) : IndexerJob Unit := Job.write (IndexerStore.durable f)

def executeRelaxed (f : Metadata → Metadata) : IndexerJob Unit :=
  Job.write (IndexerStore.relaxed f)

def CoreIndexerStateUpdate.next (input : CoreIndexerStateUpdate)
    (current : Option CoreIndexerState) : CoreIndexerState where
  stage := input.stage.getD ((current.map (·.stage)).getD .syncBackfill)
  syncTail := input.syncTail.getD ((current.map (·.syncTail)).getD (-1))
  processTail := input.processTail.getD ((current.map (·.processTail)).getD (-1))
  onlineTip := input.onlineTip.getD ((current.map (·.onlineTip)).getD (-1))
  lastError := input.lastError.getD ((current.map (·.lastError)).getD false)

def getCoreIndexerState : IndexerJob (Option CoreIndexerState) :=
  Job.read (·.metadata.indexerState)

def upsertCoreIndexerState (input : CoreIndexerStateUpdate) : IndexerJob CoreIndexerState := do
  let current ← getCoreIndexerState
  executeRelaxed (Metadata.setIndexerState (input.next current))
  return input.next current

def setCoreIndexerError : IndexerJob Unit := do
  let _ ← upsertCoreIndexerState { lastError := some true }
  return ()

/-- Deletes the marker only while it is the expected one, and tells whether it did. -/
def compareAndDeleteCoreApplyRecovery (expected : CoreApplyRecoveryMarker) : IndexerJob Bool :=
  Job.call fun s =>
    if s.metadata.coreApplyRecovery = some expected then
      (true,s.relaxed (fun metadata => { metadata with coreApplyRecovery := none }))
    else (false,s)

end OnlyDoge
