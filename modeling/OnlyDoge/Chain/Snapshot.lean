import OnlyDoge.Chain.Amounts
set_option autoImplicit false

/-!
The create and spend lists built from block snapshots as the decoder leaves them, with their
optional fields and amount texts (`core-dogecoin-indexer-service.ts`, `domain/dogecoin-block.ts`).
-/

namespace OnlyDoge.Snapshot

/-- An output with its value as the text of an amount in koinu. -/
structure ProjectionUtxoOutput where
  blockHeight : Nat
  blockHash : String
  blockTime : Nat
  txid : String
  txIndex : Nat
  vout : Nat
  outputKey : OutputKey
  address : String
  scriptType : String
  valueBase : String
  isCoinbase : Bool
  isSpendable : Bool
  spentBy : Option SpentBy
  deriving DecidableEq,Repr

structure CoreDogecoinBlockApplication where
  blockHeight : Nat
  blockHash : String
  previousBlockHash : Option String
  blockTime : Nat
  txCount : Nat
  utxoCreates : List ProjectionUtxoOutput
  utxoSpends : List CoreDogecoinSpend
  deriving DecidableEq,Repr

structure ParsedDogecoinBlock where
  hash : String
  height : Nat
  time : Nat
  previousHash : Option String
  tx : List DecodedDogecoinTransaction
  deriving DecidableEq,Repr

structure CoreTransactionEffects where
  utxoCreates : List ProjectionUtxoOutput
  utxoSpends : List CoreDogecoinSpend
  deriving DecidableEq,Repr

def scriptTypeText : DogecoinScriptType → String
  | .multisig => "multisig"
  | .nonstandard => "nonstandard"
  | .nulldata => "nulldata"
  | .pubkey => "pubkey"
  | .pubkeyhash => "pubkeyhash"
  | .scripthash => "scripthash"

def requireString (value : Option String) (label : String) : Except CoreError String :=
  match value with
  | none => .error (.error ("missing " ++ label))
  | some value =>
    let trimmed := trim value
    if trimmed = "" then .error (.error ("missing " ++ label)) else .ok trimmed

def requireNumber (value : Option Nat) (label : String) : Except CoreError Nat :=
  match value with
  | none => .error (.error ("missing " ++ label))
  | some value => .ok value

def nullIfEmpty (value : String) : Option String := if value = "" then none else some value

def readPreviousBlockHash (value : Option String) : Option String :=
  value.bind fun value => nullIfEmpty (trim value)

/-- `firstTrimmedText` of the addresses; a decoded script has no `address` of its own. -/
def extractDogecoinOutputAddress (output : DecodedDogecoinVout) : String :=
  (((output.scriptPubKey.addresses.getD []).map trim).find? (· ≠ "")).getD ""

def outputScriptType (output : DecodedDogecoinVout) : String :=
  trim (scriptTypeText output.scriptPubKey.type)

/-- `Boolean(input.coinbase)`: an absent text and an empty one are both false. -/
def isCoinbaseInput (input : DecodedDogecoinVin) : Bool := input.coinbase.getD "" ≠ ""

def hasCoinbaseInput (tx : DecodedDogecoinTransaction) : Bool := tx.vin.any isCoinbaseInput

def readDogecoinTransactions (value : List DecodedDogecoinTransaction) (blockHeight : Nat) :
    Except CoreError (List DecodedDogecoinTransaction) :=
  if value = [] then
    .error (.error ("invalid dogecoin block transactions height=" ++ toString blockHeight ++
      ": expected non-empty array"))
  else .ok value

def parseDogecoinBlockSnapshot (candidate : DecodedDogecoinBlock) :
    Except CoreError ParsedDogecoinBlock := do
  let hash ← requireString (some candidate.hash) "block.hash"
  let height ← requireNumber (some candidate.height) "block.height"
  let time ← requireNumber (some candidate.time) "block.time"
  let tx ← readDogecoinTransactions candidate.tx height
  return ⟨hash,height,time,readPreviousBlockHash candidate.previousblockhash,tx⟩

def buildTransactionSpend (txid : String) (blockHeight : Nat) (input : DecodedDogecoinVin)
    (inputIndex : Nat) (tracker : CoreWindowKeyTracker) :
    Except CoreError (Option CoreDogecoinSpend × CoreWindowKeyTracker) :=
  if isCoinbaseInput input then .ok (none,tracker)
  else do
    let vinTxid ← requireString input.txid "vin.txid"
    let vout ← requireNumber input.vout "vin.vout"
    let tracker ← assertUniqueCoreSpend tracker ⟨vinTxid,vout⟩
    return (some ⟨⟨vinTxid,vout⟩,txid,blockHeight,inputIndex⟩,tracker)

def appendTransactionSpend (txid : String) (blockHeight : Nat)
    (state : List CoreDogecoinSpend × CoreWindowKeyTracker) (entry : DecodedDogecoinVin × Nat) :
    Except CoreError (List CoreDogecoinSpend × CoreWindowKeyTracker) := do
  let (spend,tracker) ← buildTransactionSpend txid blockHeight entry.1 entry.2 state.2
  return (state.1 ++ spend.toList,tracker)

def buildTransactionSpends (txid : String) (blockHeight : Nat) (tx : DecodedDogecoinTransaction)
    (tracker : CoreWindowKeyTracker) :
    Except CoreError (List CoreDogecoinSpend × CoreWindowKeyTracker) :=
  tx.vin.zipIdx.foldlM (appendTransactionSpend txid blockHeight) ([],tracker)

def buildTransactionOutput (block : ParsedDogecoinBlock) (txid : String) (txIndex : Nat)
    (output : DecodedDogecoinVout) (outputIndex : Nat) (isCoinbase : Bool)
    (tracker : CoreWindowKeyTracker) :
    Except CoreError (ProjectionUtxoOutput × CoreWindowKeyTracker) := do
  let tracker ← assertUniqueCoreOutput tracker ⟨txid,outputIndex⟩
  let address := extractDogecoinOutputAddress output
  let vout ← requireNumber (some output.n) "vout.n"
  let amount ← requireAmount output.value
  let valueBase ← fromDecimalUnits amount 8
  return ({
    blockHeight := block.height
    blockHash := block.hash
    blockTime := block.time
    txid := txid
    txIndex := txIndex
    vout := vout
    outputKey := ⟨txid,outputIndex⟩
    address := address
    scriptType := outputScriptType output
    valueBase := valueBase
    isCoinbase := isCoinbase
    isSpendable := address ≠ ""
    spentBy := none },tracker)

def appendTransactionOutput (block : ParsedDogecoinBlock) (txid : String) (txIndex : Nat)
    (isCoinbase : Bool) (state : List ProjectionUtxoOutput × CoreWindowKeyTracker)
    (entry : DecodedDogecoinVout × Nat) :
    Except CoreError (List ProjectionUtxoOutput × CoreWindowKeyTracker) := do
  let (output,tracker) ←
    buildTransactionOutput block txid txIndex entry.1 entry.2 isCoinbase state.2
  return (state.1 ++ [output],tracker)

def buildTransactionOutputs (block : ParsedDogecoinBlock) (tx : DecodedDogecoinTransaction)
    (txid : String) (txIndex : Nat) (isCoinbase : Bool) (tracker : CoreWindowKeyTracker) :
    Except CoreError (List ProjectionUtxoOutput × CoreWindowKeyTracker) :=
  tx.vout.zipIdx.foldlM (appendTransactionOutput block txid txIndex isCoinbase) ([],tracker)

/-- The tracker sees the spends of a transaction before its outputs. -/
def appendTransactionEffects (block : ParsedDogecoinBlock)
    (state : CoreTransactionEffects × CoreWindowKeyTracker)
    (entry : DecodedDogecoinTransaction × Nat) :
    Except CoreError (CoreTransactionEffects × CoreWindowKeyTracker) := do
  let (effects,tracker) := state
  let (tx,txIndex) := entry
  let txid ← requireString (some tx.txid) "tx.txid"
  let isCoinbase := hasCoinbaseInput tx
  let (spends,tracker) ← buildTransactionSpends txid block.height tx tracker
  let (outputs,tracker) ← buildTransactionOutputs block tx txid txIndex isCoinbase tracker
  return (⟨effects.utxoCreates ++ outputs,effects.utxoSpends ++ spends⟩,tracker)

def collectCoreBlockEffects (block : ParsedDogecoinBlock) (tracker : CoreWindowKeyTracker) :
    Except CoreError (CoreTransactionEffects × CoreWindowKeyTracker) :=
  block.tx.zipIdx.foldlM (appendTransactionEffects block) (⟨[],[]⟩,tracker)

def buildCoreBlockApplication (snapshot : DecodedDogecoinBlock) (tracker : CoreWindowKeyTracker) :
    Except CoreError (CoreDogecoinBlockApplication × CoreWindowKeyTracker) := do
  let block ← parseDogecoinBlockSnapshot snapshot
  let (effects,tracker) ← collectCoreBlockEffects block tracker
  return (⟨block.height,block.hash,block.previousHash,block.time,block.tx.length,
    effects.utxoCreates,effects.utxoSpends⟩,tracker)

def buildCoreBlockApplications (tracker : CoreWindowKeyTracker) :
    List DecodedDogecoinBlock → Except CoreError (List CoreDogecoinBlockApplication)
  | [] => .ok []
  | snapshot::snapshots => do
    let (application,tracker) ← buildCoreBlockApplication snapshot tracker
    let applications ← buildCoreBlockApplications tracker snapshots
    return application::applications

def buildFastCoreDogecoinBlockApplications (snapshots : List DecodedDogecoinBlock) :
    Except CoreError (List CoreDogecoinBlockApplication) :=
  buildCoreBlockApplications createCoreWindowKeyTracker snapshots

end OnlyDoge.Snapshot
