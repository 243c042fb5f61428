import OnlyDoge.Warehouse.Tables
import OnlyDoge.Library.Machine
import OnlyDoge.Library.Job
set_option autoImplicit false

/-!
Raw block sync (`raw-block-sync.ts`, `syncRawBlockHeights` of the indexer) as a machine: the
batches of a round run side by side, and each answer of the node, the raw storage or the
metadata store is a step of its own.
-/

namespace OnlyDoge

structure RawBlockSyncSettings where
  syncBatchSize : Nat
  syncConcurrency : Nat
  syncRetryAttempts : Nat

structure ParsedRawBlockSnapshot where
  hash : String
  height : Nat
  previousHash : Option String
  time : Nat
  txids : List String
  deriving DecidableEq,Repr

structure CoreBlockRecord where
  blockHeight : Nat
  blockHash : String
  previousBlockHash : Option String
  blockTime : Nat
  txCount : Nat
  deriving DecidableEq,Repr

def transactionRefVersion (blockHeight txIndex : Nat) : TransactionRefSource → Nat
  | .rawSync => blockHeight * 1000000 + txIndex * 10
  | .coreProcess => blockHeight * 1000000 + txIndex * 10 + 1

def deriveTransactionRefsFromBlock (blockHash : String) (blockHeight blockTime : Nat)
    (source : TransactionRefSource) (txids : List String) : List TransactionRef :=
  txids.mapIdx fun txIndex txid => ⟨txid,blockHeight,blockHash,blockTime,txIndex,source,
    transactionRefVersion blockHeight txIndex source⟩

namespace ParsedRawBlockSnapshot

def record (block : ParsedRawBlockSnapshot) : CoreBlockRecord :=
  ⟨block.height,block.hash,block.previousHash,block.time,block.txids.length⟩

def refs (block : ParsedRawBlockSnapshot) : List TransactionRef :=
  deriveTransactionRefsFromBlock block.hash block.height block.time .rawSync block.txids

end ParsedRawBlockSnapshot

def clampConcurrency (value max : Nat) : Nat := Nat.max 1 (Nat.min max value)

structure AdaptiveConcurrencyController where
  max : Nat
  current : Nat
  successStreak : Nat
  deriving DecidableEq,Repr

namespace AdaptiveConcurrencyController

def rampUpAfterSuccesses : Nat := 4

def recordSuccess (controller : AdaptiveConcurrencyController) : AdaptiveConcurrencyController :=
  if controller.successStreak + 1 ≥ rampUpAfterSuccesses then
    { controller with
      successStreak := 0
      current := clampConcurrency (controller.current + 1) controller.max }
  else { controller with successStreak := controller.successStreak + 1 }

def recordFailure (controller : AdaptiveConcurrencyController) : AdaptiveConcurrencyController :=
  { controller with
    successStreak := 0
    current := clampConcurrency (controller.current / 2) controller.max }

end AdaptiveConcurrencyController

/-- The highest height below which everything above the base completed. -/
structure ContiguousFrontier where
  current : Int
  completed : List Int
  advanced : Bool
  deriving DecidableEq,Repr

namespace ContiguousFrontier

def base (current : Int) : ContiguousFrontier := ⟨current,[],false⟩

def add (completed : List Int) (height : Int) : List Int :=
  if height ∈ completed then completed else completed ++ [height]

/-- The loop of `markCompleted`; each iteration takes one height out of the set. -/
def advanceFor : Nat → ContiguousFrontier → ContiguousFrontier
  | 0,tracker => tracker
  | n + 1,tracker =>
    if tracker.current + 1 ∈ tracker.completed then
      advanceFor n ⟨tracker.current + 1,tracker.completed.erase (tracker.current + 1),true⟩
    else tracker

def advance (tracker : ContiguousFrontier) : ContiguousFrontier :=
  advanceFor tracker.completed.length tracker

def markCompleted (tracker : ContiguousFrontier) (heights : List Int) : ContiguousFrontier :=
  advance { tracker with completed := heights.foldl add tracker.completed }

def consumeAdvance (tracker : ContiguousFrontier) : Bool × ContiguousFrontier :=
  (tracker.advanced,{ tracker with advanced := false })

end ContiguousFrontier

def chunkFor {α : Type} (size : Nat) : Nat → List α → List (List α)
  | 0,_ => []
  | n + 1,values =>
    if values.isEmpty then []
    else values.take (Nat.max 1 size)::chunkFor size n (values.drop (Nat.max 1 size))

/-- Slices of `size` values, at least one, in at most as many steps as there are values. -/
def chunk {α : Type} (values : List α) (size : Nat) : List (List α) :=
  chunkFor size values.length values

/-- `range(start, stop)` of heights. -/
def heightRange (start stop : Nat) : List Nat := List.range' start (stop + 1 - start)

section Sync
variable {ρ : Type}

/-- Everything written so far; a later row for a height stands behind the earlier ones. -/
structure RawStore (ρ : Type) where
  parts : List (Nat × ρ)
  coreBlocks : List CoreBlockRecord
  transactionRefs : List TransactionRef

/-- A snapshot with what the parser made of it. -/
structure StoredRawBlock (parse : ρ → Option ParsedRawBlockSnapshot) where
  snapshot : ρ
  block : ParsedRawBlockSnapshot
  parsed : parse snapshot = some block

inductive RawWrite (ρ : Type) where
  | part (height : Nat) (snapshot : ρ)
  | blocks (records : List CoreBlockRecord)
  | refs (refs : List TransactionRef)
  deriving DecidableEq,Repr

def RawStore.write (store : RawStore ρ) : RawWrite ρ → RawStore ρ
  | .part height snapshot => { store with parts := store.parts ++ [(height,snapshot)] }
  | .blocks records => { store with coreBlocks := store.coreBlocks ++ records }
  | .refs refs => { store with transactionRefs := store.transactionRefs ++ refs }

def RawStore.writeAll (store : RawStore ρ) (writes : List (RawWrite ρ)) : RawStore ρ :=
  writes.foldl RawStore.write store

variable (parse : ρ → Option ParsedRawBlockSnapshot)

/-- Where `syncBatchWithRetry` of one batch stands. -/
inductive BatchStage where
  | fetching
  | storing (stored pending : List (StoredRawBlock parse))
  | writingBlocks (stored : List (StoredRawBlock parse))
  | writingRefs (stored : List (StoredRawBlock parse))
  | waiting
  | completed
  | failed

structure BatchTask where
  batch : List Nat
  attempt : Nat
  stage : BatchStage parse

inductive BatchAction (ρ : Type) where
  | fetched (snapshots : List ρ)
  | put (index : Nat)
  | partly (index : Nat)
  | written
  | fails
  | wakes

/-- What a step of a batch does: the writes carried out, those still under way although the
attempt has given up, and whether the attempt succeeded or failed. -/
structure BatchStep where
  task : BatchTask parse
  writes : List (RawWrite ρ)
  late : List (RawWrite ρ)
  attempted : Option Bool

variable {parse}

namespace StoredRawBlock

def put (entry : StoredRawBlock parse) : RawWrite ρ := .part entry.block.height entry.snapshot

def record (entry : StoredRawBlock parse) : CoreBlockRecord := entry.block.record

def refs (entry : StoredRawBlock parse) : List TransactionRef := entry.block.refs

end StoredRawBlock

/-- `storeSnapshot` up to its write: the parsed snapshot, if it has the requested height. -/
def storeSnapshot (height : Nat) (snapshot : ρ) : Option (StoredRawBlock parse) :=
  match h : parse snapshot with
  | none => none
  | some block => if block.height = height then some ⟨snapshot,block,h⟩ else none

/-- The snapshots of a batch that pass, each under the requested height of its place. -/
def storeSnapshots (batch : List Nat) (snapshots : List ρ) : List (StoredRawBlock parse) :=
  (batch.zip snapshots).filterMap (fun entry => storeSnapshot entry.1 entry.2)

namespace BatchTask

def moved (task : BatchTask parse) (stage : BatchStage parse) (writes : List (RawWrite ρ)) :
    BatchStep parse :=
  ⟨{ task with stage := stage },writes,[],none⟩

def succeeded (task : BatchTask parse) (writes : List (RawWrite ρ)) : BatchStep parse :=
  ⟨{ task with stage := .completed },writes,[],some true⟩

/-- `handleBatchFailure`: wait for the next attempt, or give up. -/
def failure (settings : RawBlockSyncSettings) (task : BatchTask parse)
    (late : List (RawWrite ρ)) : BatchStep parse :=
  let stage := if task.attempt ≥ settings.syncRetryAttempts then .failed else .waiting
  ⟨{ task with stage := stage },[],late,some false⟩

def step (settings : RawBlockSyncSettings) (task : BatchTask parse) :
    BatchAction ρ → Option (BatchStep parse)
  | .fetched snapshots =>
    match task.stage with
    | .fetching =>
      let stored := storeSnapshots task.batch snapshots
      if snapshots.length ≠ task.batch.length then some (task.failure settings [])
      -- the writes of the other snapshots have been started when one does not pass
      else if stored.length ≠ task.batch.length then
        some (task.failure settings (stored.map StoredRawBlock.put))
      else some (task.moved (.storing stored stored) [])
    | _ => none
  | .put index =>
    match task.stage with
    | .storing stored pending =>
      match pending[index]? with
      | none => none
      | some entry =>
        let pending := pending.eraseIdx index
        some (task.moved (if pending.isEmpty then .writingBlocks stored
          else .storing stored pending) [entry.put])
    | _ => none
  | .partly index =>
    match task.stage with
    | .writingBlocks stored =>
      (stored[index]?).map fun entry => task.moved task.stage [.blocks [entry.record]]
    | .writingRefs stored =>
      ((stored.flatMap StoredRawBlock.refs)[index]?).map fun ref =>
        task.moved task.stage [.refs [ref]]
    | _ => none
  | .written =>
    match task.stage with
    | .writingBlocks stored =>
      let writes := [.blocks (stored.map StoredRawBlock.record)]
      if (stored.flatMap StoredRawBlock.refs).isEmpty then some (task.succeeded writes)
      else some (task.moved (.writingRefs stored) writes)
    | .writingRefs stored => some (task.succeeded [.refs (stored.flatMap StoredRawBlock.refs)])
    | _ => none
  | .fails =>
    match task.stage with
    | .fetching => some (task.failure settings [])
    | .storing _ pending => some (task.failure settings (pending.map StoredRawBlock.put))
    | .writingBlocks stored =>
      some (task.failure settings (stored.map fun entry => .blocks [entry.record]))
    | .writingRefs stored =>
      some (task.failure settings ((stored.flatMap StoredRawBlock.refs).map fun ref => .refs [ref]))
    | _ => none
  | .wakes =>
    match task.stage with
    | .waiting => some ⟨{ task with stage := .fetching, attempt := task.attempt + 1 },[],[],none⟩
    | _ => none

end BatchTask

inductive SyncStatus where
  | looping
  | checkpointing
  | returned
  | recorded
  | aborted
  deriving DecidableEq,Repr

variable (parse) in
/-- One call of `sync`; `checkpoints` are the frontiers handed to `onCheckpoint`, and `syncTail`
is the recorded one. -/
structure RawBlockSyncer where
  batches : List (List Nat)
  round : List (BatchTask parse)
  tracker : ContiguousFrontier
  concurrency : AdaptiveConcurrencyController
  status : SyncStatus
  late : List (RawWrite ρ)
  store : RawStore ρ
  checkpoints : List Int
  syncTail : Int

/-- What a caller asks for; only the backfill sync passes `onCheckpoint`. -/
structure RawBlockSyncCall where
  settings : RawBlockSyncSettings
  start : Nat
  stop : Nat
  onCheckpoint : Bool

inductive SyncAction (ρ : Type) where
  | startRound
  | assertFails
  | batch (index : Nat) (action : BatchAction ρ)
  | late (index : Nat)
  | endRound
  | checkpointed (fate : Fate)
  | finish
  | recordTail

namespace RawBlockSyncer

def begin (call : RawBlockSyncCall) (concurrency : AdaptiveConcurrencyController)
    (store : RawStore ρ) (syncTail : Int) : RawBlockSyncer parse where
  batches := chunk (heightRange call.start call.stop) call.settings.syncBatchSize
  round := []
  tracker := .base (((heightRange call.start call.stop).head?.getD 0 : Int) - 1)
  concurrency := concurrency
  status := .looping
  late := []
  store := store
  checkpoints := []
  syncTail := syncTail

def isCompleted (task : BatchTask parse) : Bool :=
  match task.stage with
  | .completed => true
  | _ => false

def isFailed (task : BatchTask parse) : Bool :=
  match task.stage with
  | .failed => true
  | _ => false

def recorded (controller : AdaptiveConcurrencyController) :
    Option Bool → AdaptiveConcurrencyController
  | none => controller
  | some true => controller.recordSuccess
  | some false => controller.recordFailure

/-- `checkpointSyncTail` records a frontier above the recorded tail. -/
def checkpointSyncTail (syncer : RawBlockSyncer parse) : Int :=
  if syncer.tracker.current ≤ syncer.syncTail then syncer.syncTail else syncer.tracker.current

def step (call : RawBlockSyncCall) : SyncAction ρ → RawBlockSyncer parse →
    Option (RawBlockSyncer parse)
  | .startRound,s =>
    if s.status = .looping ∧ s.round.isEmpty ∧ ¬s.batches.isEmpty then
      some { s with
        round := (s.batches.take s.concurrency.current).map fun batch => ⟨batch,1,.fetching⟩
        batches := s.batches.drop s.concurrency.current }
    else none
  | .assertFails,s =>
    if s.status = .looping ∧ s.round.isEmpty ∧ ¬s.batches.isEmpty then
      some { s with status := .aborted }
    else none
  -- the other batches of a round go on when one has failed
  | .batch index action,s =>
    match s.round[index]? with
    | none => none
    | some task =>
      (task.step call.settings action).map fun result =>
        { s with
          round := s.round.set index result.task
          store := s.store.writeAll result.writes
          late := s.late ++ result.late
          concurrency := recorded s.concurrency result.attempted
          status := if isFailed result.task then .aborted else s.status }
  | .late index,s =>
    (s.late[index]?).map fun write =>
      { s with
        store := s.store.write write
        late := s.late.eraseIdx index }
  | .endRound,s =>
    if s.status = .looping ∧ ¬s.round.isEmpty ∧ s.round.all isCompleted then
      let marked := s.round.foldl
        (fun tracker task => tracker.markCompleted (task.batch.map Int.ofNat)) s.tracker
      let (advanced,tracker) := marked.consumeAdvance
      if advanced ∧ call.onCheckpoint then
        some { s with
          round := []
          tracker := tracker
          status := .checkpointing
          checkpoints := s.checkpoints ++ [tracker.current] }
      else some { s with round := [], tracker := tracker }
    else none
  | .checkpointed fate,s =>
    if s.status = .checkpointing then
      match fate with
      | .done => some { s with status := .looping, syncTail := s.checkpointSyncTail }
      | .lost => some { s with status := .aborted, syncTail := s.checkpointSyncTail }
      | .refused | .killed => some { s with status := .aborted }
    else none
  | .finish,s =>
    if s.status = .looping ∧ s.round.isEmpty ∧ s.batches.isEmpty then
      some { s with status := .returned }
    else none
  -- after the call has returned the caller records the tail it asked for
  | .recordTail,s =>
    if s.status = .returned then some { s with status := .recorded, syncTail := call.stop }
    else none

end RawBlockSyncer

end Sync

end OnlyDoge
