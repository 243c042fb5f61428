import OnlyDoge.Warehouse.Facts
set_option autoImplicit false

/-! What a window changes in the current UTXO and balance tables (`warehouse.ts`). -/

namespace OnlyDoge

structure CoreBalanceDelta where
  address : String
  assetAddress : String
  amount : Int
  deriving DecidableEq,Repr

structure CoreCurrentStateMutation where
  balanceDeltas : OrderedMap BalanceKey CoreBalanceDelta
  nextOutputs : OutputMap

structure CoreCurrentStateWindow where
  nextBalances : List VersionedBalanceRow
  nextOutputs : OutputMap
  windowEnd : Nat

def createCoreCurrentStateMutation : CoreCurrentStateMutation := ⟨.empty,.empty⟩

def coreCurrentCreateVersion (blockHeight : Nat) : Nat := blockHeight * 2

def coreCurrentSpendVersion (blockHeight : Nat) : Nat := blockHeight * 2 + 1

def coreCurrentBalanceVersion (blockHeight : Nat) : Nat := coreCurrentSpendVersion blockHeight

def coreCurrentUtxoVersion (row : ProjectionUtxoOutput) : Nat :=
  match row.spentBy with
  | none => coreCurrentCreateVersion row.blockHeight
  | some spent => coreCurrentSpendVersion spent.spentInBlock

def isBalanceAffectingCoreOutput (output : ProjectionUtxoOutput) : Bool :=
  output.isSpendable && decide (output.address ≠ "")

def applyCoreBalanceDelta (deltas : OrderedMap BalanceKey CoreBalanceDelta) (key : BalanceKey)
    (address : String) (amount : Int) (assetAddress : String) :
    OrderedMap BalanceKey CoreBalanceDelta :=
  match deltas.get key with
  | some current => deltas.set key { current with amount := current.amount + amount }
  | none => deltas.set key ⟨address,assetAddress,amount⟩

def addCoreBalanceDelta (deltas : OrderedMap BalanceKey CoreBalanceDelta)
    (output : ProjectionUtxoOutput) (amount : Int) : OrderedMap BalanceKey CoreBalanceDelta :=
  if isBalanceAffectingCoreOutput output then
    applyCoreBalanceDelta deltas (balanceKey output.address "") output.address amount ""
  else deltas

def applyCoreCurrentStateCreate (mutation : CoreCurrentStateMutation)
    (output : ProjectionUtxoOutput) : CoreCurrentStateMutation where
  nextOutputs := mutation.nextOutputs.set output.outputKey output
  balanceDeltas := addCoreBalanceDelta mutation.balanceDeltas output output.valueBase

def spentCoreOutput (current : ProjectionUtxoOutput) (spend : CoreDogecoinSpend) :
    ProjectionUtxoOutput :=
  { current with spentBy := some ⟨spend.spentByTxid,spend.spentInBlock,spend.spentInputIndex⟩ }

def currentCoreOutput (mutation : CoreCurrentStateMutation) (currentOutputs : OutputMap)
    (spend : CoreDogecoinSpend) : Except CoreError ProjectionUtxoOutput :=
  match mutation.nextOutputs.get spend.outputKey with
  | some current => .ok current
  | none =>
    match currentOutputs.get spend.outputKey with
    | some current => .ok current
    | none => .error (.missingCoreCurrentPrevout spend.outputKey)

def applyCoreCurrentStateSpend (currentOutputs : OutputMap) (mutation : CoreCurrentStateMutation)
    (spend : CoreDogecoinSpend) : Except CoreError CoreCurrentStateMutation := do
  let current ← currentCoreOutput mutation currentOutputs spend
  return {
    nextOutputs := mutation.nextOutputs.set spend.outputKey (spentCoreOutput current spend)
    balanceDeltas := addCoreBalanceDelta mutation.balanceDeltas current (-current.valueBase) }

def applyCoreCurrentStateApplication (currentOutputs : OutputMap)
    (mutation : CoreCurrentStateMutation) (application : CoreDogecoinBlockApplication) :
    Except CoreError CoreCurrentStateMutation :=
  application.utxoSpends.foldlM (applyCoreCurrentStateSpend currentOutputs)
    (application.utxoCreates.foldl applyCoreCurrentStateCreate mutation)

def applyCoreCurrentStateMutations (pending : List CoreDogecoinBlockApplication)
    (currentOutputs : OutputMap) : Except CoreError CoreCurrentStateMutation :=
  pending.foldlM (applyCoreCurrentStateApplication currentOutputs) createCoreCurrentStateMutation

def coreCurrentBalanceAmount (currentBalances : OrderedMap BalanceKey VersionedBalanceRow)
    (key : BalanceKey) : Int :=
  match currentBalances.get key with
  | some current => current.balance
  | none => 0

def coreCurrentBalanceRow (windowEnd : Nat)
    (currentBalances : OrderedMap BalanceKey VersionedBalanceRow)
    (entry : BalanceKey × CoreBalanceDelta) : Except CoreError VersionedBalanceRow :=
  let (key,delta) := entry
  let nextBalance := coreCurrentBalanceAmount currentBalances key + delta.amount
  if nextBalance < 0 then
    .error (.error ("negative balance for " ++ delta.address ++ ":" ++ delta.assetAddress))
  else
    .ok ⟨delta.address,delta.assetAddress,nextBalance,windowEnd,coreCurrentBalanceVersion windowEnd⟩

def coreCurrentBalanceRows (windowEnd : Nat)
    (balanceDeltas : OrderedMap BalanceKey CoreBalanceDelta)
    (currentBalances : OrderedMap BalanceKey VersionedBalanceRow) :
    Except CoreError (List VersionedBalanceRow) :=
  balanceDeltas.entries.mapM (coreCurrentBalanceRow windowEnd currentBalances)

end OnlyDoge
