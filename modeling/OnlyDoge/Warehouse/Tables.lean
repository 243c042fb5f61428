import OnlyDoge.Chain.Block
import OnlyDoge.Library.OrderedMap
import OnlyDoge.Library.Replacing
set_option autoImplicit false

/-!
The ClickHouse tables of the core indexer and the lookups that `warehouse.ts` makes in them.
A table is the list of its rows in the order they were written.
-/

namespace OnlyDoge

inductive Direction where
  | credit
  | debit
  deriving DecidableEq,Repr

structure AddressMovement where
  movementId : String
  blockHeight : Nat
  blockHash : String
  blockTime : Nat
  txid : String
  txIndex : Nat
  entryIndex : Nat
  address : String
  assetAddress : String
  direction : Direction
  amountBase : Nat
  outputKey : Option OutputKey
  derivationMethod : String
  deriving DecidableEq,Repr

structure AnalyticsTransactionFact where
  blockHeight : Nat
  blockHash : String
  blockTime : Nat
  txid : String
  txIndex : Nat
  isCoinbase : Bool
  inputCount : Nat
  outputCount : Nat
  totalInputBase : Nat
  grossOutputBase : Nat
  feeBase : Option Int
  version : Nat
  deriving DecidableEq,Repr

structure CoreProcessedBlockRow where
  blockHeight : Nat
  blockHash : String
  blockTime : Nat
  txCount : Nat
  version : Nat
  deriving DecidableEq,Repr

structure ProjectionAppliedBlock where
  blockHeight : Nat
  blockHash : String
  deriving DecidableEq,Repr

structure UtxoRow where
  output : ProjectionUtxoOutput
  version : Nat
  deriving DecidableEq,Repr

structure VersionedBalanceRow where
  address : String
  assetAddress : String
  balance : Int
  asOfBlockHeight : Int
  version : Nat
  deriving DecidableEq,Repr

inductive TransactionRefSource where
  | rawSync
  | coreProcess
  deriving DecidableEq,Repr

structure TransactionRef where
  txid : String
  blockHeight : Nat
  blockHash : String
  blockTime : Nat
  txIndex : Nat
  source : TransactionRefSource
  version : Nat
  deriving DecidableEq,Repr

structure Warehouse where
  coreUtxoCreates : List ProjectionUtxoOutput
  coreUtxoSpends : List CoreDogecoinSpend
  coreProcessedBlocks : List CoreProcessedBlockRow
  addressMovements : List AddressMovement
  addressMovementsByAddress : List AddressMovement
  analyticsTransactions : List AnalyticsTransactionFact
  transactionRefs : List TransactionRef
  currentUtxos : List UtxoRow
  currentUtxosByAddress : List UtxoRow
  balances : List VersionedBalanceRow
  analyticsBalances : List VersionedBalanceRow
  appliedBlocks : List ProjectionAppliedBlock
  deriving DecidableEq,Repr

def emptyWarehouse : Warehouse := ⟨[],[],[],[],[],[],[],[],[],[],[],[]⟩

abbrev BalanceKey := String × String

def balanceKey (address assetAddress : String) : BalanceKey := (address,assetAddress)

namespace UtxoRow

def key (row : UtxoRow) : OutputKey := row.output.outputKey

end UtxoRow

namespace VersionedBalanceRow

def key (row : VersionedBalanceRow) : BalanceKey := balanceKey row.address row.assetAddress

end VersionedBalanceRow

namespace Warehouse

def latestUtxoRow (w : Warehouse) (outputKey : OutputKey) : Option UtxoRow :=
  Replacing.latest UtxoRow.key UtxoRow.version w.currentUtxos outputKey

def latestBalanceRow (w : Warehouse) (key : BalanceKey) : Option VersionedBalanceRow :=
  Replacing.latest VersionedBalanceRow.key VersionedBalanceRow.version w.balances key

def latestCoreCreate (w : Warehouse) (outputKey : OutputKey) : Option ProjectionUtxoOutput :=
  Replacing.latest (·.outputKey) (·.blockHeight) w.coreUtxoCreates outputKey

def latestCoreSpend (w : Warehouse) (outputKey : OutputKey) : Option CoreDogecoinSpend :=
  Replacing.latest (·.outputKey) (·.spentInBlock) w.coreUtxoSpends outputKey

def latestProcessedBlock (w : Warehouse) (blockHeight : Nat) : Option CoreProcessedBlockRow :=
  Replacing.latest (·.blockHeight) (·.version) w.coreProcessedBlocks blockHeight

/-- The rows at or below a height; `Int` because callers pass the height below a window. -/
def upTo (w : Warehouse) (asOfBlockHeight : Int) : Warehouse :=
  { w with
    coreUtxoCreates := w.coreUtxoCreates.filter (fun c => (c.blockHeight : Int) ≤ asOfBlockHeight)
    coreUtxoSpends := w.coreUtxoSpends.filter (fun s => (s.spentInBlock : Int) ≤ asOfBlockHeight) }

def getCurrentUtxoOutputMap (outputKeys : List OutputKey) (w : Warehouse) :
    OrderedMap OutputKey ProjectionUtxoOutput :=
  .ofEntries (outputKeys.filterMap
    (fun key => (w.latestUtxoRow key).map (fun row => (key,row.output))))

def getBalanceRowsByKeys (keys : List BalanceKey) (w : Warehouse) :
    OrderedMap BalanceKey VersionedBalanceRow :=
  .ofEntries (keys.filterMap (fun key => (w.latestBalanceRow key).map (fun row => (key,row))))

def getCoreUtxoCreateRows (outputKeys : List OutputKey) (w : Warehouse) :
    OrderedMap OutputKey ProjectionUtxoOutput :=
  .ofEntries (outputKeys.filterMap (fun key => (w.latestCoreCreate key).map (fun row => (key,row))))

def getCoreUtxoSpendRows (outputKeys : List OutputKey) (w : Warehouse) :
    OrderedMap OutputKey CoreDogecoinSpend :=
  .ofEntries (outputKeys.filterMap (fun key => (w.latestCoreSpend key).map (fun row => (key,row))))

def getCoreProcessedBlocks (blockHeights : List Nat) (w : Warehouse) :
    OrderedMap Nat CoreProcessedBlockRow :=
  .ofEntries (blockHeights.filterMap
    (fun height => (w.latestProcessedBlock height).map (fun row => (height,row))))

def getCoreProcessedTail (w : Warehouse) : Option Nat :=
  (w.coreProcessedBlocks.map (·.blockHeight)).max?

/-- The created output joined with its spend, both as of a height. -/
def coreHistoricalUtxoOutput (w : Warehouse) (asOfBlockHeight : Int) (outputKey : OutputKey) :
    Option ProjectionUtxoOutput :=
  ((w.upTo asOfBlockHeight).latestCoreCreate outputKey).map fun created =>
    { created with
      spentBy := ((w.upTo asOfBlockHeight).latestCoreSpend outputKey).map
        (fun s => ⟨s.spentByTxid,s.spentInBlock,s.spentInputIndex⟩) }

def queryCoreHistoricalUtxoOutputRows (outputKeys : List OutputKey) (asOfBlockHeight : Int)
    (w : Warehouse) : List ProjectionUtxoOutput :=
  if outputKeys = [] ∨ asOfBlockHeight < 0 then []
  else (OrderedMap.distinct outputKeys).filterMap (w.coreHistoricalUtxoOutput asOfBlockHeight)

end Warehouse

end OnlyDoge
