import OnlyDoge.Chain.Snapshot
import OnlyDoge.Warehouse.Listing
set_option autoImplicit false

/-!
The transaction summaries of the explorer (`explorer-query-service.ts`): from the raw block, and
from the stored transaction facts.
-/

namespace OnlyDoge.Explorer
open HexText Decimal

inductive ExplorerError where
  | validation (message : String)
  deriving DecidableEq,Repr

structure ExplorerTransactionSummary where
  txid : String
  txIndex : Nat
  blockHeight : Nat
  blockHash : String
  blockTime : Nat
  isCoinbase : Bool
  inputCount : Nat
  outputCount : Nat
  totalInputBase : String
  totalOutputBase : String
  feeBase : Option String
  deriving DecidableEq,Repr

structure ExplorerAddressTransactionSummary where
  transaction : ExplorerTransactionSummary
  receivedBase : String
  sentBase : String
  deriving DecidableEq,Repr

/-- A raw block as far as the explorer reads it. -/
structure ParsedDogecoinBlock where
  hash : String
  height : Nat
  time : Nat
  tx : List DecodedDogecoinTransaction
  deriving DecidableEq,Repr

def requireString (value : Option String) (field : String) : Except ExplorerError String :=
  let trimmed := trim (value.getD "")
  if trimmed = "" then .error (.validation ("invalid parameter for `" ++ field ++ "`: "))
  else .ok trimmed

def requireNumber (value : Option Nat) (field : String) : Except ExplorerError Nat :=
  match value with
  | none => .error (.validation ("invalid parameter for `" ++ field ++ "`: "))
  | some value => .ok value

/-- The first two parts of `text.split('.')`, empty where they are missing. -/
def splitDecimal (text : List Char) : List Char × List Char :=
  (text.takeWhile (· ≠ '.'),((text.dropWhile (· ≠ '.')).drop 1).takeWhile (· ≠ '.'))

def assertDecimalParts (raw : String) (whole fraction : List Char) : Except ExplorerError Unit :=
  if whole ≠ [] ∧ whole.all Char.isDigit ∧ fraction.all Char.isDigit then .ok ()
  else .error (.validation ("invalid decimal amount: " ++ raw))

/-- The whole text is digits behind its sign, of which `/^0+(?=\d)/` takes the leading zeros. -/
def decimalPartsToBase (whole fraction : List Char) : String :=
  let digits := stripZeros (whole ++ padEnd 8 fraction)
  String.ofList (if digits = [] then ['0'] else digits)

def stringDecimalToBase (value : String) : Except ExplorerError String := do
  let (whole,fraction) := splitDecimal (trim value).toList
  assertDecimalParts value whole fraction
  return decimalPartsToBase whole (fraction.take 8)

def requireAmountBase (value : Option DecimalAmount) : Except ExplorerError String :=
  match value with
  | none => .error (.validation "missing output value")
  | some (.number value) =>
    let (whole,fraction) := splitDecimal (toFixed value 8).toList
    .ok (decimalPartsToBase whole fraction)
  | some (.text value) => stringDecimalToBase value

/-- `BigInt` of a text that `/^-?\d+$/u` accepts. -/
def parseAmountBase (value : String) : Except ExplorerError Int :=
  match (trim value).toList with
  | '-'::digits =>
    if digits ≠ [] ∧ digits.all Char.isDigit then .ok (-(Nat.ofDigitChars 10 digits 0 : Int))
    else .error (.validation ("invalid amount base: " ++ value))
  | digits =>
    if digits ≠ [] ∧ digits.all Char.isDigit then .ok (Nat.ofDigitChars 10 digits 0 : Int)
    else .error (.validation ("invalid amount base: " ++ value))

def formatAmountBase (value : Int) : String := toString value

def inputKey (input : DecodedDogecoinVin) : Except ExplorerError OutputKey := do
  let txid ← requireString input.txid "vin.txid"
  let vout ← requireNumber input.vout "vin.vout"
  return ⟨txid,vout⟩

/-- One lookup for each key: the newest row of `core_utxo_creates`. -/
def getCreatedUtxoOutputs (w : Warehouse) (outputKeys : List OutputKey) : OutputMap :=
  .ofEntries (outputKeys.filterMap fun key => (w.latestCoreCreate key).map fun row => (key,row))

def loadResolvedInputs (w : Warehouse) (transactions : List DecodedDogecoinTransaction) :
    Except ExplorerError OutputMap := do
  let outputKeys ←
    ((transactions.flatMap (·.vin)).filter (!Snapshot.isCoinbaseInput ·)).mapM inputKey
  return getCreatedUtxoOutputs w (OrderedMap.distinct outputKeys)

def resolvedInputAmount (resolved : Option ProjectionUtxoOutput) : Int :=
  match resolved with
  | some output => output.valueBase
  | none => 0

def resolvedInputValue (resolvedInputs : OutputMap) (input : DecodedDogecoinVin) :
    Except ExplorerError Int :=
  if Snapshot.isCoinbaseInput input then .ok 0
  else do
    let outputKey ← inputKey input
    return resolvedInputAmount (resolvedInputs.get outputKey)

def totalResolvedInputBase (inputs : List DecodedDogecoinVin) (resolvedInputs : OutputMap) :
    Except ExplorerError Int :=
  inputs.foldlM (fun total input => do return total + (← resolvedInputValue resolvedInputs input)) 0

def outputAmount (output : DecodedDogecoinVout) : Except ExplorerError Int := do
  parseAmountBase (← requireAmountBase (some output.value))

def totalOutputBase (outputs : List DecodedDogecoinVout) : Except ExplorerError Int :=
  outputs.foldlM (fun sum output => do return sum + (← outputAmount output)) 0

def transactionFeeBase (isCoinbase : Bool) (totalInput totalOutput : Int) : Option String :=
  if isCoinbase ∨ totalInput = 0 then none else some (formatAmountBase (totalInput - totalOutput))

def serializeTransactionSummary (block : ParsedDogecoinBlock)
    (transaction : DecodedDogecoinTransaction) (txIndex : Nat) (resolvedInputs : OutputMap) :
    Except ExplorerError ExplorerTransactionSummary := do
  let txid ← requireString (some transaction.txid) "tx.txid"
  let isCoinbase := transaction.vin.any Snapshot.isCoinbaseInput
  let totalInput ← totalResolvedInputBase transaction.vin resolvedInputs
  let totalOutput ← totalOutputBase transaction.vout
  return {
    txid := txid
    txIndex := txIndex
    blockHeight := block.height
    blockHash := block.hash
    blockTime := block.time
    isCoinbase := isCoinbase
    inputCount := transaction.vin.length
    outputCount := transaction.vout.length
    totalInputBase := formatAmountBase totalInput
    totalOutputBase := formatAmountBase totalOutput
    feeBase := transactionFeeBase isCoinbase totalInput totalOutput }

/-- The transactions of `getBlock`, a page of them with the inputs of the whole page. -/
def blockTransactionSummaries (w : Warehouse) (block : ParsedDogecoinBlock) (offset limit : Nat) :
    Except ExplorerError (List ExplorerTransactionSummary) := do
  let transactions := (block.tx.drop offset).take limit
  let inputMap ← loadResolvedInputs w transactions
  transactions.zipIdx.mapM fun (transaction,txIndex) =>
    serializeTransactionSummary block transaction (offset + txIndex) inputMap

/-- The summary of `getTransaction`. -/
def transactionSummary (w : Warehouse) (block : ParsedDogecoinBlock)
    (transaction : DecodedDogecoinTransaction) (txIndex : Nat) :
    Except ExplorerError ExplorerTransactionSummary := do
  let inputMap ← loadResolvedInputs w [transaction]
  serializeTransactionSummary block transaction txIndex inputMap

def addressTransactionSummaryFromFacts (row : AddressTransactionRow) :
    ExplorerAddressTransactionSummary where
  transaction := {
    txid := row.summary.txid
    txIndex := row.summary.txIndex
    blockHeight := row.summary.blockHeight
    blockHash := row.summary.blockHash
    blockTime := row.summary.blockTime
    isCoinbase := row.isCoinbase
    inputCount := row.inputCount
    outputCount := row.outputCount
    totalInputBase := formatAmountBase row.totalInputBase
    totalOutputBase := formatAmountBase row.totalOutputBase
    feeBase := row.feeBase.map formatAmountBase }
  receivedBase := formatAmountBase row.summary.receivedBase
  sentBase := formatAmountBase row.summary.sentBase

/-- The two summaries of a transaction say the same of it. -/
structure Agree (left right : ExplorerTransactionSummary) : Prop where
  isCoinbase : left.isCoinbase = right.isCoinbase
  inputCount : left.inputCount = right.inputCount
  outputCount : left.outputCount = right.outputCount
  totalInputBase : left.totalInputBase = right.totalInputBase
  totalOutputBase : left.totalOutputBase = right.totalOutputBase
  feeBase : left.feeBase = right.feeBase

end OnlyDoge.Explorer
