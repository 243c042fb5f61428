import Mathlib.Logic.Basic
import Mathlib.Data.List.Basic
import Mathlib.Algebra.Ring.Int.Defs
import Mathlib.Algebra.Ring.Nat
set_option autoImplicit false

/-!
Dogecoin blocks as the node reports them and the create and spend lists the indexer builds
from them (`core-dogecoin-indexer-service.ts`, `domain/projection-models.ts`).
-/

namespace OnlyDoge

/-- The output key `${txid}:${index}`. -/
structure OutputKey where
  txid : String
  index : Nat
  deriving DecidableEq,Repr

def OutputKey.text (key : OutputKey) : String := key.txid ++ ":" ++ toString key.index

/-- A coinbase input, or the output that a regular input spends. -/
inductive DogecoinVin where
  | coinbase
  | output (txid : String) (vout : Nat)
  deriving DecidableEq,Repr

/-- `address` is the first non-empty trimmed address of the script, or empty. -/
structure DogecoinVout where
  n : Option Nat
  valueBase : Nat
  address : String
  scriptType : String
  deriving DecidableEq,Repr

structure DogecoinTransaction where
  txid : String
  vin : List DogecoinVin
  vout : List DogecoinVout
  deriving DecidableEq,Repr

structure ParsedDogecoinBlock where
  hash : String
  height : Nat
  time : Nat
  previousHash : Option String
  tx : List DogecoinTransaction
  deriving DecidableEq,Repr

/-- The fields `spentByTxid`, `spentInBlock` and `spentInputIndex`, which are set together. -/
structure SpentBy where
  spentByTxid : String
  spentInBlock : Nat
  spentInputIndex : Nat
  deriving DecidableEq,Repr

structure ProjectionUtxoOutput where
  outputKey : OutputKey
  blockHeight : Nat
  blockHash : String
  blockTime : Nat
  txid : String
  txIndex : Nat
  vout : Nat
  address : String
  scriptType : String
  valueBase : Nat
  isCoinbase : Bool
  isSpendable : Bool
  spentBy : Option SpentBy
  deriving DecidableEq,Repr

structure CoreDogecoinSpend where
  outputKey : OutputKey
  spentByTxid : String
  spentInBlock : Nat
  spentInputIndex : Nat
  deriving DecidableEq,Repr

structure CoreDogecoinBlockApplication where
  blockHeight : Nat
  blockHash : String
  previousBlockHash : Option String
  blockTime : Nat
  txCount : Nat
  utxoCreates : List ProjectionUtxoOutput
  utxoSpends : List CoreDogecoinSpend
  deriving DecidableEq,Repr

/-- Errors that the indexer and the warehouse throw themselves. -/
inductive CoreError where
  | missingCoreCurrentPrevout (outputKey : OutputKey)
  | error (message : String)
  deriving DecidableEq,Repr

namespace ProjectionUtxoOutput

def unspent (output : ProjectionUtxoOutput) : Bool := output.spentBy.isNone

end ProjectionUtxoOutput

structure CoreWindowKeyTracker where
  createdOutputKeys : List OutputKey
  spentOutputKeys : List OutputKey
  deriving DecidableEq,Repr

structure CoreTransactionEffects where
  utxoCreates : List ProjectionUtxoOutput
  utxoSpends : List CoreDogecoinSpend
  deriving DecidableEq,Repr

def createCoreWindowKeyTracker : CoreWindowKeyTracker := ⟨[],[]⟩

def isCoinbaseInput : DogecoinVin → Bool
  | .coinbase => true
  | .output _ _ => false

def hasCoinbaseInput (tx : DogecoinTransaction) : Bool := tx.vin.any isCoinbaseInput

def assertUniqueCoreSpend (tracker : CoreWindowKeyTracker) (outputKey : OutputKey) :
    Except CoreError CoreWindowKeyTracker :=
  if outputKey ∈ tracker.spentOutputKeys then
    .error (.error ("duplicate dogecoin spend in core window: " ++ outputKey.text))
  else .ok { tracker with spentOutputKeys := tracker.spentOutputKeys ++ [outputKey] }

def assertUniqueCoreOutput (tracker : CoreWindowKeyTracker) (outputKey : OutputKey) :
    Except CoreError CoreWindowKeyTracker :=
  if outputKey ∈ tracker.createdOutputKeys then
    .error (.error ("duplicate dogecoin output in core window: " ++ outputKey.text))
  else .ok { tracker with createdOutputKeys := tracker.createdOutputKeys ++ [outputKey] }

/-- A coinbase input spends nothing. -/
def buildTransactionSpend (txid : String) (blockHeight : Nat) (inputIndex : Nat) :
    DogecoinVin → Option CoreDogecoinSpend
  | .coinbase => none
  | .output vinTxid vout => some ⟨⟨vinTxid,vout⟩,txid,blockHeight,inputIndex⟩

def buildTransactionSpends (blockHeight : Nat) (tx : DogecoinTransaction) :
    List CoreDogecoinSpend :=
  tx.vin.zipIdx.filterMap
    (fun (input,inputIndex) => buildTransactionSpend tx.txid blockHeight inputIndex input)

def buildTransactionOutput (block : ParsedDogecoinBlock) (tx : DogecoinTransaction)
    (txIndex : Nat) (output : DogecoinVout) (outputIndex : Nat) : ProjectionUtxoOutput where
  outputKey := ⟨tx.txid,outputIndex⟩
  blockHeight := block.height
  blockHash := block.hash
  blockTime := block.time
  txid := tx.txid
  txIndex := txIndex
  vout := output.n.getD outputIndex
  address := output.address
  scriptType := output.scriptType
  valueBase := output.valueBase
  isCoinbase := hasCoinbaseInput tx
  isSpendable := output.address ≠ ""
  spentBy := none

def buildTransactionOutputs (block : ParsedDogecoinBlock) (tx : DogecoinTransaction)
    (txIndex : Nat) : List ProjectionUtxoOutput :=
  tx.vout.zipIdx.map
    (fun (output,outputIndex) => buildTransactionOutput block tx txIndex output outputIndex)

/-- The tracker sees the spends of a transaction before its outputs. -/
def appendTransactionEffects (block : ParsedDogecoinBlock)
    (state : CoreTransactionEffects × CoreWindowKeyTracker) (entry : DogecoinTransaction × Nat) :
    Except CoreError (CoreTransactionEffects × CoreWindowKeyTracker) := do
  let (effects,tracker) := state
  let (tx,txIndex) := entry
  let spends := buildTransactionSpends block.height tx
  let tracker ← (spends.map (·.outputKey)).foldlM assertUniqueCoreSpend tracker
  let outputs := buildTransactionOutputs block tx txIndex
  let tracker ← (outputs.map (·.outputKey)).foldlM assertUniqueCoreOutput tracker
  return (⟨effects.utxoCreates ++ outputs,effects.utxoSpends ++ spends⟩,tracker)

def collectCoreBlockEffects (block : ParsedDogecoinBlock) (tracker : CoreWindowKeyTracker) :
    Except CoreError (CoreTransactionEffects × CoreWindowKeyTracker) :=
  block.tx.zipIdx.foldlM (appendTransactionEffects block) (⟨[],[]⟩,tracker)

/-- The check of `readDogecoinTransactions` on a parsed block. -/
def readDogecoinTransactions (block : ParsedDogecoinBlock) : Except CoreError Unit :=
  if block.tx = [] then
    .error (.error ("invalid dogecoin block transactions height=" ++ toString block.height ++
      ": expected non-empty array"))
  else .ok ()

def buildCoreBlockApplication (block : ParsedDogecoinBlock) (tracker : CoreWindowKeyTracker) :
    Except CoreError (CoreDogecoinBlockApplication × CoreWindowKeyTracker) := do
  readDogecoinTransactions block
  let (effects,tracker) ← collectCoreBlockEffects block tracker
  return (⟨block.height,block.hash,block.previousHash,block.time,block.tx.length,
    effects.utxoCreates,effects.utxoSpends⟩,tracker)

def buildCoreBlockApplications (tracker : CoreWindowKeyTracker) :
    List ParsedDogecoinBlock → Except CoreError (List CoreDogecoinBlockApplication)
  | [] => .ok []
  | block::blocks => do
    let (application,tracker) ← buildCoreBlockApplication block tracker
    let applications ← buildCoreBlockApplications tracker blocks
    return application::applications

def buildFastCoreDogecoinBlockApplications (blocks : List ParsedDogecoinBlock) :
    Except CoreError (List CoreDogecoinBlockApplication) :=
  buildCoreBlockApplications createCoreWindowKeyTracker blocks

end OnlyDoge
