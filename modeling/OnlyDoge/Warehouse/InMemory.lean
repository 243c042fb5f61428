import OnlyDoge.Warehouse.Window
import OnlyDoge.Library.Rows
set_option autoImplicit false

/-!
`InMemoryWarehouseAdapter`: the warehouse of a single process, whose window is applied in place
and whose recovery rewinds it.
-/

namespace OnlyDoge.InMemory
open Rows

structure BalanceRow where
  address : String
  assetAddress : String
  balance : Int
  asOfBlockHeight : Int
  deriving DecidableEq,Repr

structure WarehouseState where
  appliedBlocks : List ProjectionAppliedBlock
  addressMovements : List AddressMovement
  balances : List BalanceRow
  transactionFacts : List AnalyticsTransactionFact
  transactionRefs : List TransactionRef
  utxoOutputs : List ProjectionUtxoOutput
  deriving DecidableEq,Repr

def emptyWarehouseState : WarehouseState := ⟨[],[],[],[],[],[]⟩

abbrev MemoryJob (α : Type) := Job WarehouseState CoreError α

/-- An output of the tail goes; an older one loses a spend of the tail. -/
def rewindInMemoryUtxoOutput (fromBlockHeight : Nat) (output : ProjectionUtxoOutput) :
    List ProjectionUtxoOutput :=
  if fromBlockHeight ≤ output.blockHeight then []
  else if output.spentBy.any (fun spent => fromBlockHeight ≤ spent.spentInBlock) then
    [{ output with spentBy := none }]
  else [output]

def isUnspentSpendableOutput (output : ProjectionUtxoOutput) : Bool :=
  output.isSpendable && output.unspent

def addRebuiltBalance (asOfBlockHeight : Int) (balances : OrderedMap BalanceKey BalanceRow)
    (output : ProjectionUtxoOutput) : OrderedMap BalanceKey BalanceRow :=
  if !isUnspentSpendableOutput output || decide (output.address = "") then balances
  else
    let key := balanceKey output.address ""
    let current := ((balances.get key).map (·.balance)).getD 0
    balances.set key ⟨output.address,"",current + output.valueBase,asOfBlockHeight⟩

namespace WarehouseState

def appliedTail (s : WarehouseState) : Int :=
  s.appliedBlocks.foldl (fun height block => max height block.blockHeight) (-1)

def rebuildBalancesFromCurrentUtxos (s : WarehouseState) : WarehouseState :=
  { s with balances := (s.utxoOutputs.foldl (addRebuiltBalance s.appliedTail) .empty).values }

def rewindInMemoryCoreTail (fromBlockHeight : Nat) (s : WarehouseState) : WarehouseState :=
  rebuildBalancesFromCurrentUtxos { s with
    appliedBlocks := s.appliedBlocks.filter (·.blockHeight < fromBlockHeight)
    addressMovements := s.addressMovements.filter (·.blockHeight < fromBlockHeight)
    transactionFacts := s.transactionFacts.filter (·.blockHeight < fromBlockHeight)
    transactionRefs := s.transactionRefs.filter (·.blockHeight < fromBlockHeight)
    utxoOutputs := s.utxoOutputs.flatMap (rewindInMemoryUtxoOutput fromBlockHeight) }

def hasAppliedBlockRecord (s : WarehouseState) (blockHeight : Nat) (blockHash : String) : Bool :=
  s.appliedBlocks.any (fun block => block.blockHeight = blockHeight ∧ block.blockHash = blockHash)

/-- The first record of the height carries another hash. -/
def conflicts (s : WarehouseState) (application : CoreDogecoinBlockApplication) : Bool :=
  (s.appliedBlocks.find? (·.blockHeight = application.blockHeight)).any
    (·.blockHash ≠ application.blockHash)

/-- The applications still to apply, and the state, rewound where one replaces a block. -/
def pendingInMemoryCoreApplications (s : WarehouseState)
    (input : List CoreDogecoinBlockApplication) :
    WarehouseState × List CoreDogecoinBlockApplication :=
  match input.find? s.conflicts with
  | some application =>
    (s.rewindInMemoryCoreTail application.blockHeight,
      input.filter (application.blockHeight ≤ ·.blockHeight))
  | none => (s,input.filter (fun a => !s.hasAppliedBlockRecord a.blockHeight a.blockHash))

def upsertUtxoOutput (s : WarehouseState) (output : ProjectionUtxoOutput) : WarehouseState :=
  { s with utxoOutputs := upsert (·.outputKey = output.outputKey) output s.utxoOutputs }

def upsertAnalyticsTransactionFact (s : WarehouseState) (row : AnalyticsTransactionFact) :
    WarehouseState :=
  { s with transactionFacts := upsert (·.txid = row.txid) row s.transactionFacts }

def spendUtxoOutput (spend : CoreDogecoinSpend) (s : WarehouseState) : WarehouseState :=
  { s with
    utxoOutputs := update (·.outputKey = spend.outputKey)
      (fun output => spentCoreOutput output spend) s.utxoOutputs }

def appendAddressMovement (movement : AddressMovement) (s : WarehouseState) : WarehouseState :=
  { s with addressMovements := s.addressMovements ++ [movement] }

def isMovementBalanceSnapshot (movement : AddressMovement) (row : BalanceRow) : Bool :=
  row.address = movement.address ∧ row.assetAddress = movement.assetAddress

def findBalanceSnapshot (movement : AddressMovement) (s : WarehouseState) : Option BalanceRow :=
  s.balances.find? (isMovementBalanceSnapshot movement)

def writeBalanceSnapshot (movement : AddressMovement) (blockHeight : Nat) (nextAmount : Int)
    (s : WarehouseState) : WarehouseState :=
  match s.findBalanceSnapshot movement with
  | some _ =>
    { s with
      balances := update (isMovementBalanceSnapshot movement)
        (fun row => { row with balance := nextAmount,asOfBlockHeight := blockHeight })
        s.balances }
  | none =>
    { s with
      balances := s.balances ++
        [⟨movement.address,movement.assetAddress,nextAmount,blockHeight⟩] }

def appendAppliedBlock (block : ProjectionAppliedBlock) (s : WarehouseState) : WarehouseState :=
  if s.hasAppliedBlockRecord block.blockHeight block.blockHash then s
  else { s with appliedBlocks := s.appliedBlocks ++ [block] }

def getUtxoOutputs (s : WarehouseState) (outputKeys : List OutputKey) : OutputMap :=
  .ofEntries ((s.utxoOutputs.filter (·.outputKey ∈ outputKeys)).map
    (fun output => (output.outputKey,output)))

/-- The balance of an address in the native asset; an absent row is zero. -/
def addressBalance (s : WarehouseState) (address : String) : Int :=
  ((s.balances.find? (fun row => row.address = address ∧ row.assetAddress = "")).map
    (·.balance)).getD 0

end WarehouseState

def applyMovementAmount (currentAmount movementAmount : Int) : Direction → Int
  | .credit => currentAmount + movementAmount
  | .debit => currentAmount - movementAmount

def nextBalanceAmount (currentBalance : Option Int) (movement : AddressMovement) : Int :=
  applyMovementAmount (currentBalance.getD 0) movement.amountBase movement.direction

def assertNonNegativeBalance (movement : AddressMovement) (nextAmount : Int) :
    Except CoreError Unit :=
  if nextAmount < 0 then
    .error (.error ("negative balance for " ++ movement.address ++ ":" ++ movement.assetAddress))
  else .ok ()

def applyBatchUtxoCreates (outputs : List ProjectionUtxoOutput) : MemoryJob Unit :=
  Job.assign (fun s => outputs.foldl WarehouseState.upsertUtxoOutput s)

def requireUtxoOutput (outputKey : OutputKey) : MemoryJob Unit := do
  let present ← Job.look (fun s => s.utxoOutputs.any (·.outputKey = outputKey))
  Job.ofExcept (if present then .ok ()
    else .error (.error ("missing utxo output: " ++ outputKey.text)))

def applyBatchUtxoSpend (spend : CoreDogecoinSpend) : MemoryJob Unit := do
  requireUtxoOutput spend.outputKey
  Job.assign (WarehouseState.spendUtxoOutput spend)

def applyBatchUtxoSpends (spends : List CoreDogecoinSpend) : MemoryJob Unit :=
  Job.forEach spends applyBatchUtxoSpend

def applyBalanceDelta (blockHeight : Nat) (movement : AddressMovement) : MemoryJob Unit := do
  let current ← Job.look (WarehouseState.findBalanceSnapshot movement)
  let nextAmount := nextBalanceAmount (current.map (·.balance)) movement
  Job.ofExcept (assertNonNegativeBalance movement nextAmount)
  Job.assign (WarehouseState.writeBalanceSnapshot movement blockHeight nextAmount)

/-- The movement is stored before its balance is checked. -/
def applyBatchAddressMovementIfUnique (blockHeight : Nat) (movement : AddressMovement) :
    MemoryJob Unit := do
  let known ← Job.look (fun s => s.addressMovements.any (·.movementId = movement.movementId))
  Job.when (!known) do
    Job.assign (WarehouseState.appendAddressMovement movement)
    applyBalanceDelta blockHeight movement

def applyBatchAddressMovements (movements : List AddressMovement) (blockHeight : Nat) :
    MemoryJob Unit :=
  Job.forEach movements (applyBatchAddressMovementIfUnique blockHeight)

def applyInMemoryCoreApplication (createdOutputs currentOutputs : OutputMap)
    (application : CoreDogecoinBlockApplication) : MemoryJob Unit := do
  applyBatchUtxoCreates application.utxoCreates
  applyBatchUtxoSpends application.utxoSpends
  applyBatchAddressMovements
    (coreApplicationAddressMovements createdOutputs currentOutputs application)
    application.blockHeight
  Job.assign (fun s => (coreApplicationTransactionFacts createdOutputs currentOutputs
    application).foldl WarehouseState.upsertAnalyticsTransactionFact s)
  Job.assign (WarehouseState.appendAppliedBlock
    ⟨application.blockHeight,application.blockHash⟩)

def coreWindowResultTail (pending input : List CoreDogecoinBlockApplication) : Int :=
  if coreWindowEnd pending ≥ 0 then coreWindowEnd pending else coreWindowEnd input

def applyCoreDogecoinWindow (input : List CoreDogecoinBlockApplication) :
    MemoryJob CoreDogecoinApplyResult :=
  if input = [] then return ⟨false,-1⟩
  else do
    let pending ← Job.look (fun s => (s.pendingInMemoryCoreApplications input).2)
    Job.assign (fun s => (s.pendingInMemoryCoreApplications input).1)
    if pending = [] then return ⟨false,coreWindowEnd input⟩
    else do
      let currentOutputs ← Job.look (fun s => s.getUtxoOutputs (externalCoreSpendKeys pending))
      Job.forEach pending
        (applyInMemoryCoreApplication (coreCreatedOutputsByKey pending) currentOutputs)
      return ⟨true,coreWindowResultTail pending input⟩

def recoverCoreDogecoinWindow (fromBlockHeight : Nat) : MemoryJob Unit :=
  Job.assign (WarehouseState.rewindInMemoryCoreTail fromBlockHeight)

end OnlyDoge.InMemory
