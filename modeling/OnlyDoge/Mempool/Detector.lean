import OnlyDoge.Chain.DecimalUnits
import OnlyDoge.Indexer.RawBlockSync
import OnlyDoge.Library.Grouping
import OnlyDoge.Library.Machine
set_option autoImplicit false

/-!
The mempool appearance detector (`mempool-appear-detector.ts`, `mempool-watch-match.ts`): the works
that `serializeWork` runs one after the other, with the answers that their awaited calls get.
-/

namespace OnlyDoge.MempoolAppear

/-- A watch with its least value in koinu. -/
structure ActiveMempoolWatch where
  id : String
  apiKeyId : String
  address : String
  minValueBase : Option Int
  deriving DecidableEq,Repr

/-- An output as the node reports it, with a number for its value. -/
structure ReportedVout where
  n : Option Nat
  value : Option FixedNumber
  address : String
  deriving DecidableEq,Repr

structure ReportedTransaction where
  txid : String
  vout : List ReportedVout
  deriving DecidableEq,Repr

structure CachedMempoolTransaction where
  txid : String
  vout : List ReportedVout
  deriving DecidableEq,Repr

structure MempoolAppearOutput where
  valueBase : Int
  vout : Nat
  deriving DecidableEq,Repr

inductive MempoolAppearSource where
  | catchup
  | live
  deriving DecidableEq,Repr

structure MempoolAppearEvent where
  address : String
  apiKeyId : String
  outputs : List MempoolAppearOutput
  source : MempoolAppearSource
  txid : String
  watchId : String
  deriving DecidableEq,Repr

/-- The fields of the service, and the events that it has published on the bus. -/
structure Detector where
  watchesByAddress : OrderedMap String (List ActiveMempoolWatch)
  cachedTransactions : OrderedMap String CachedMempoolTransaction
  published : List MempoolAppearEvent

structure DetectorOptions where
  cacheMaxTxids : Nat
  ownerInstanceId : String
  rpcBatchSize : Nat

def startedDetector : Detector := ⟨.empty,.empty,[]⟩

def outputValueBase (value : Option DecimalAmount) : Except CoreError String :=
  match value with
  | none => .ok "0"
  | some value => fromDecimalUnits value 8

/-- `BigInt(outputValueBase(output))` -/
def ReportedVout.valueBase (output : ReportedVout) : Int :=
  match output.value with
  | none => 0
  | some value => if value.number.value < 0 then -fixedUnits value 8 else fixedUnits value 8

def collectMatchingOutputs (transaction : CachedMempoolTransaction) (address : String) :
    List MempoolAppearOutput :=
  transaction.vout.zipIdx.filterMap fun (output,index) =>
    if output.address = address then some ⟨output.valueBase,output.n.getD index⟩ else none

def sumValueBase (outputs : List MempoolAppearOutput) : Int :=
  outputs.foldl (fun total output => total + output.valueBase) 0

def matchingOutputsForAddress (transaction : CachedMempoolTransaction) (address : String)
    (minValueBase : Option Int) : Option (List MempoolAppearOutput) :=
  let outputs := collectMatchingOutputs transaction address
  if outputs = [] then none
  else
    match minValueBase with
    | none => some outputs
    | some least => if sumValueBase outputs ≥ least then some outputs else none

def compactTransaction (transaction : ReportedTransaction) : CachedMempoolTransaction :=
  ⟨trim transaction.txid,transaction.vout⟩

/-- The watches in the list of the detector, address by address. -/
def Detector.watches (detector : Detector) : List ActiveMempoolWatch :=
  detector.watchesByAddress.values.flatten

def watchesByAddress (watches : List ActiveMempoolWatch) :
    OrderedMap String (List ActiveMempoolWatch) :=
  Grouping.accumulate (·.address) (fun _ => []) (fun list watch => list ++ [watch]) watches

def appearEvent (transaction : CachedMempoolTransaction) (source : MempoolAppearSource)
    (watch : ActiveMempoolWatch) : Option MempoolAppearEvent :=
  (matchingOutputsForAddress transaction watch.address watch.minValueBase).map fun outputs =>
    ⟨watch.address,watch.apiKeyId,outputs,source,trim transaction.txid,watch.id⟩

def matchTransaction (transaction : CachedMempoolTransaction) (watches : List ActiveMempoolWatch)
    (source : MempoolAppearSource) (detector : Detector) : Detector :=
  if trim transaction.txid = "" then detector
  else { detector with
    published := detector.published ++ watches.filterMap (appearEvent transaction source) }

def matchCachedTransactions (watches : List ActiveMempoolWatch) (source : MempoolAppearSource)
    (transactions : List CachedMempoolTransaction) (detector : Detector) : Detector :=
  transactions.foldl (fun detector transaction =>
    matchTransaction transaction watches source detector) detector

structure MempoolWatchDetectorStatus where
  ownerInstanceId : String
  degraded : Bool
  expiresAt : Nat
  deriving DecidableEq,Repr

/-- What the two calls of an attempt answer, and the time between them; `none` is a failed call. -/
structure StatusAttempt where
  current : Option (Option MempoolWatchDetectorStatus)
  now : Nat
  swapped : Option Bool

/-- Another detector has reported itself degraded, and its report has not expired. -/
def foreignDegraded (ownerInstanceId : String) (now : Nat) :
    Option MempoolWatchDetectorStatus → Bool
  | none => false
  | some status =>
    status.degraded && decide (now < status.expiresAt) && status.ownerInstanceId ≠ ownerInstanceId

/-- Whether `persistDetectorStatus` returns: it throws when a call fails and after four swaps that
did not take place. -/
def persistDetectorStatus (ownerInstanceId : String) : Nat → List StatusAttempt → Bool
  | 0,_ => false
  | _,[] => false
  | attempts + 1,attempt::rest =>
    match attempt.current with
    | none => false
    | some current =>
      if foreignDegraded ownerInstanceId attempt.now current then true
      else
        match attempt.swapped with
        | none => false
        | some true => true
        | some false => persistDetectorStatus ownerInstanceId attempts rest

/-- What the awaited calls of a synchronization answer; `none` is a failed call. A record that is
no transaction is `none` in its batch. -/
structure SyncAnswers where
  dogecoinConfig : Bool
  mempoolSnapshot : Option (List String)
  rawTransactions : List String → Option (List (Option ReportedTransaction))
  status : List StatusAttempt

/-- The transactions of a snapshot that are cached already, and the ids of the others. -/
def splitSnapshot (cached : OrderedMap String CachedMempoolTransaction) (txids : List String) :
    OrderedMap String CachedMempoolTransaction × List String :=
  txids.foldl (fun (nextCache,missing) txid =>
    match cached.get txid with
    | some transaction => (nextCache.set txid transaction,missing)
    | none => (nextCache,missing ++ [txid])) (.empty,[])

/-- Takes in a hydrated record whose transaction is in the snapshot. -/
def addHydrated (txids : List String)
    (state : OrderedMap String CachedMempoolTransaction × List CachedMempoolTransaction)
    (record : Option ReportedTransaction) :
    OrderedMap String CachedMempoolTransaction × List CachedMempoolTransaction :=
  match record with
  | none => state
  | some transaction =>
    let compact := compactTransaction transaction
    let txid := trim compact.txid
    if txid = "" ∨ txid ∉ txids then state
    else (state.1.set txid compact,state.2 ++ [compact])

/-- The next cache and the transactions that are new in it. -/
def hydrate (options : DetectorOptions) (answers : SyncAnswers) (txids : List String)
    (cached : OrderedMap String CachedMempoolTransaction) :
    Option (OrderedMap String CachedMempoolTransaction × List CachedMempoolTransaction) := do
  let (nextCache,missing) := splitSnapshot cached txids
  let hydrated ← (chunk missing options.rpcBatchSize).mapM answers.rawTransactions
  return hydrated.flatten.foldl (addHydrated txids) (nextCache,[])

/-- The state that a synchronization leaves, and whether it returned. -/
def synchronizeMempool (options : DetectorOptions) (source : MempoolAppearSource)
    (answers : SyncAnswers) (detector : Detector) : Detector × Bool :=
  let persisted := persistDetectorStatus options.ownerInstanceId 4 answers.status
  if answers.dogecoinConfig = false then (detector,false)
  else
    match answers.mempoolSnapshot with
    | none => (detector,false)
    | some txids =>
      if txids.length > options.cacheMaxTxids then
        ({ detector with cachedTransactions := .empty },persisted)
      else
        match hydrate options answers txids detector.cachedTransactions with
        | none => (detector,false)
        | some (nextCache,newTransactions) =>
          let detector := { detector with cachedTransactions := nextCache }
          if persisted = false then (detector,false)
          else if source = .live then
            (matchCachedTransactions (if newTransactions = [] then [] else detector.watches) source
              newTransactions detector,true)
          else (detector,true)

def refreshWatches (options : DetectorOptions) (listed : Option (List ActiveMempoolWatch))
    (answers : SyncAnswers) (detector : Detector) : Detector :=
  let previousIds := detector.watches.map (·.id)
  match listed with
  | none => detector
  | some watches =>
    let detector := { detector with watchesByAddress := watchesByAddress watches }
    if watches = [] then detector
    else
      let (detector,returned) := synchronizeMempool options .catchup answers detector
      if returned = false then detector
      else
        let newWatches := watches.filter fun watch => watch.id ∉ previousIds
        matchCachedTransactions newWatches .catchup detector.cachedTransactions.values detector

def handleDecodedTransaction (options : DetectorOptions) (transaction : ReportedTransaction)
    (source : MempoolAppearSource) (detector : Detector) : Detector :=
  let txid := trim transaction.txid
  if txid = "" then detector
  else
    let cached := detector.cachedTransactions
    let detector :=
      if (cached.get txid).isNone ∧ cached.entries.length < options.cacheMaxTxids then
        { detector with cachedTransactions := cached.set txid (compactTransaction transaction) }
      else detector
    if detector.watchesByAddress.entries = [] then detector
    else matchTransaction (compactTransaction transaction) detector.watches source detector

/-- The rows of watches that are ever inserted, by id: a row is never updated, and no id is used
for two of them. -/
structure Registry where
  row : String → ActiveMempoolWatch
  id_row : ∀ id, (row id).id = id

/-- A work with the answers of its calls. A refresh gets the ids that are registered when the
registry answers, so that any list may follow any other. -/
inductive Work where
  | refresh (listed : Option (List String)) (answers : SyncAnswers)
  | poll (answers : SyncAnswers)
  | rawTransaction (transaction : ReportedTransaction)

def work (options : DetectorOptions) (registry : Registry) : Work → Detector → Detector
  | .refresh listed answers,detector =>
    refreshWatches options (listed.map (·.map registry.row)) answers detector
  | .poll answers,detector => (synchronizeMempool options .live answers detector).1
  | .rawTransaction transaction,detector =>
    handleDecodedTransaction options transaction .live detector

def step (options : DetectorOptions) (registry : Registry) (next : Work) (detector : Detector) :
    Option Detector :=
  some (work options registry next detector)

end OnlyDoge.MempoolAppear
