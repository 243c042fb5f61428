import OnlyDoge.Warehouse.Tables
import Mathlib.Data.List.Sort
set_option autoImplicit false

/-! The fact rows of a window: address movements and transaction facts (`warehouse.ts`). -/

namespace OnlyDoge

abbrev OutputMap := OrderedMap OutputKey ProjectionUtxoOutput

def externalCoreSpendKeys (applications : List CoreDogecoinBlockApplication) : List OutputKey :=
  let createdInWindow := (applications.flatMap (·.utxoCreates)).map (·.outputKey)
  OrderedMap.distinct
    (((applications.flatMap (·.utxoSpends)).map (·.outputKey)).filter (· ∉ createdInWindow))

def coreCreatedOutputsByKey (applications : List CoreDogecoinBlockApplication) : OutputMap :=
  .ofEntries ((applications.flatMap (·.utxoCreates)).map (fun output => (output.outputKey,output)))

def isCoreAddressMovementOutput (output : ProjectionUtxoOutput) : Bool :=
  output.isSpendable && decide (output.address ≠ "")

def coreCreditMovement (output : ProjectionUtxoOutput) : AddressMovement where
  movementId := "core-credit:" ++ output.outputKey.text
  blockHeight := output.blockHeight
  blockHash := output.blockHash
  blockTime := output.blockTime
  txid := output.txid
  txIndex := output.txIndex
  entryIndex := output.vout
  address := output.address
  assetAddress := ""
  direction := .credit
  amountBase := output.valueBase
  outputKey := some output.outputKey
  derivationMethod := "core_utxo"

def coreCreateAddressMovement (output : ProjectionUtxoOutput) : List AddressMovement :=
  if isCoreAddressMovementOutput output then [coreCreditMovement output] else []

/-- The output a spend takes, when the window created it or its previous outputs hold it. -/
def coreSpentOutput (createdOutputs currentOutputs : OutputMap) (spend : CoreDogecoinSpend) :
    Option ProjectionUtxoOutput :=
  (createdOutputs.get spend.outputKey).or (currentOutputs.get spend.outputKey)

/-- A debit is always written with the transaction index 0. -/
def coreDebitMovement (application : CoreDogecoinBlockApplication) (spend : CoreDogecoinSpend)
    (output : ProjectionUtxoOutput) : AddressMovement where
  movementId := "core-debit:" ++ spend.outputKey.text ++ ":" ++ spend.spentByTxid ++ ":" ++
    toString spend.spentInputIndex
  blockHeight := application.blockHeight
  blockHash := application.blockHash
  blockTime := application.blockTime
  txid := spend.spentByTxid
  txIndex := 0
  entryIndex := spend.spentInputIndex
  address := output.address
  assetAddress := ""
  direction := .debit
  amountBase := output.valueBase
  outputKey := some spend.outputKey
  derivationMethod := "core_utxo"

def coreSpendAddressMovement (application : CoreDogecoinBlockApplication)
    (createdOutputs currentOutputs : OutputMap) (spend : CoreDogecoinSpend) :
    List AddressMovement :=
  match coreSpentOutput createdOutputs currentOutputs spend with
  | none => []
  | some output =>
    if isCoreAddressMovementOutput output then [coreDebitMovement application spend output] else []

def coreApplicationAddressMovements (createdOutputs currentOutputs : OutputMap)
    (application : CoreDogecoinBlockApplication) : List AddressMovement :=
  application.utxoCreates.flatMap coreCreateAddressMovement ++
    application.utxoSpends.flatMap
      (coreSpendAddressMovement application createdOutputs currentOutputs)

/-- A transaction of the grouping has an output, which `requireAnalyticsOutput` relies on. -/
abbrev OutputGroup := { outputs : List ProjectionUtxoOutput // outputs ≠ [] }

def groupCoreOutput (grouped : OrderedMap String OutputGroup) (output : ProjectionUtxoOutput) :
    OrderedMap String OutputGroup :=
  match grouped.get output.txid with
  | none => grouped.set output.txid ⟨[output],by simp⟩
  | some group => grouped.set output.txid ⟨group.val ++ [output],by simp⟩

def groupCoreOutputsByTxid (outputs : List ProjectionUtxoOutput) :
    OrderedMap String OutputGroup :=
  outputs.foldl groupCoreOutput .empty

def groupCoreSpend (grouped : OrderedMap String (List CoreDogecoinSpend))
    (spend : CoreDogecoinSpend) : OrderedMap String (List CoreDogecoinSpend) :=
  grouped.set spend.spentByTxid ((grouped.get spend.spentByTxid).getD [] ++ [spend])

def groupCoreSpendsByTxid (spends : List CoreDogecoinSpend) :
    OrderedMap String (List CoreDogecoinSpend) :=
  spends.foldl groupCoreSpend .empty

def coreSpendValue (createdOutputs currentOutputs : OutputMap) (spend : CoreDogecoinSpend) : Nat :=
  match coreSpentOutput createdOutputs currentOutputs spend with
  | some output => output.valueBase
  | none => 0

def analyticsFeeBase (isCoinbase : Bool) (totalInput grossOutput : Nat) : Option Int :=
  if isCoinbase ∨ totalInput = 0 then none else some ((totalInput : Int) - grossOutput)

def sortOutputsByVout (outputs : List ProjectionUtxoOutput) : List ProjectionUtxoOutput :=
  outputs.insertionSort (fun left right => left.vout ≤ right.vout)

theorem sortOutputsByVout_ne_nil (group : OutputGroup) : sortOutputsByVout group.val ≠ [] := by
  intro h
  have hp := List.perm_insertionSort (fun l r : ProjectionUtxoOutput => l.vout ≤ r.vout) group.val
  rw [show group.val.insertionSort _ = [] from h] at hp
  exact group.property hp.symm.eq_nil

def coreTransactionFact (createdOutputs currentOutputs : OutputMap)
    (application : CoreDogecoinBlockApplication) (txid : String) (outputs : OutputGroup)
    (spends : List CoreDogecoinSpend) : AnalyticsTransactionFact :=
  let sortedOutputs := sortOutputsByVout outputs.val
  let firstOutput := sortedOutputs.head (sortOutputsByVout_ne_nil outputs)
  let totalInput := (spends.map (coreSpendValue createdOutputs currentOutputs)).sum
  let grossOutput := (sortedOutputs.map (·.valueBase)).sum
  let isCoinbase := sortedOutputs.any (·.isCoinbase)
  { blockHeight := application.blockHeight
    blockHash := application.blockHash
    blockTime := application.blockTime
    txid := txid
    txIndex := firstOutput.txIndex
    isCoinbase := isCoinbase
    inputCount := spends.length
    outputCount := sortedOutputs.length
    totalInputBase := totalInput
    grossOutputBase := grossOutput
    feeBase := analyticsFeeBase isCoinbase totalInput grossOutput
    version := application.blockHeight }

def coreApplicationTransactionFacts (createdOutputs currentOutputs : OutputMap)
    (application : CoreDogecoinBlockApplication) : List AnalyticsTransactionFact :=
  let outputsByTxid := groupCoreOutputsByTxid application.utxoCreates
  let spendsByTxid := groupCoreSpendsByTxid application.utxoSpends
  outputsByTxid.entries.map (fun (txid,outputs) =>
    coreTransactionFact createdOutputs currentOutputs application txid outputs
      ((spendsByTxid.get txid).getD []))

/-- The rows of the four fact tables that one window adds. -/
structure CoreWindowFacts where
  creates : List ProjectionUtxoOutput
  spends : List CoreDogecoinSpend
  movements : List AddressMovement
  transactions : List AnalyticsTransactionFact
  deriving DecidableEq,Repr

def coreWindowFactInserts (pending : List CoreDogecoinBlockApplication) (prevouts : OutputMap) :
    CoreWindowFacts :=
  let createdOutputs := coreCreatedOutputsByKey pending
  { creates := (pending.flatMap (·.utxoCreates)).map (fun output => { output with spentBy := none })
    spends := pending.flatMap (·.utxoSpends)
    movements := pending.flatMap (coreApplicationAddressMovements createdOutputs prevouts)
    transactions := pending.flatMap (coreApplicationTransactionFacts createdOutputs prevouts) }

end OnlyDoge
