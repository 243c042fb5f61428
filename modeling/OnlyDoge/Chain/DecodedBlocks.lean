import OnlyDoge.Chain.Snapshot
import OnlyDoge.Chain.Effects
import OnlyDoge.Library.Folding
set_option autoImplicit false

/-!
What the create and spend lists say of blocks in the form in which the decoder returns them, and
when the builder accepts such blocks.
-/

namespace OnlyDoge.Snapshot

/-- A hash of 32 bytes in hexadecimal. -/
def IsHash (text : String) : Prop :=
  ∃ bytes : List UInt8, bytes.length = 32 ∧ text = bytesToHex bytes

inductive DecodedInput : DecodedDogecoinVin → Prop where
  | coinbase (script : List UInt8) (sequence : Nat) :
      DecodedInput ⟨some (bytesToHex script),none,sequence,none,none⟩
  | output (txid : String) (vout : Nat) (script : List UInt8) (sequence : Nat) (h : IsHash txid) :
      DecodedInput ⟨none,some (bytesToHex script),sequence,some txid,some vout⟩

structure DecodedOutput (index : Nat) (output : DecodedDogecoinVout) : Prop where
  n : output.n = index
  value : ∃ koinu : Int, output.value = formatKoinu koinu

structure DecodedTransaction (tx : DecodedDogecoinTransaction) : Prop where
  txid : IsHash tx.txid
  vin : ∀ input ∈ tx.vin, DecodedInput input
  vout : ∀ entry ∈ tx.vout.zipIdx, DecodedOutput entry.2 entry.1

/-- The form of a decoded block, as far as the builder reads it. -/
structure DecodedBlock (block : DecodedDogecoinBlock) : Prop where
  hash : IsHash block.hash
  previousblockhash : ∀ hash ∈ block.previousblockhash, IsHash hash
  tx : ∀ tx ∈ block.tx, DecodedTransaction tx

/-- An output of a block with its place there. -/
structure OutputPlace where
  tx : DecodedDogecoinTransaction
  txIndex : Nat
  output : DecodedDogecoinVout
  outputIndex : Nat

/-- An input of a block that spends an output, with its place there. -/
structure InputPlace where
  tx : DecodedDogecoinTransaction
  input : DecodedDogecoinVin
  inputIndex : Nat

def OutputPlace.key (place : OutputPlace) : OutputKey := ⟨place.tx.txid,place.outputIndex⟩

def InputPlace.key (place : InputPlace) : OutputKey :=
  ⟨place.input.txid.getD "",place.input.vout.getD 0⟩

def transactionOutputs (tx : DecodedDogecoinTransaction) (txIndex : Nat) : List OutputPlace :=
  tx.vout.zipIdx.map fun entry => ⟨tx,txIndex,entry.1,entry.2⟩

/-- The place of an input without a `coinbase` field. -/
def inputPlaces (tx : DecodedDogecoinTransaction) (entry : DecodedDogecoinVin × Nat) :
    List InputPlace :=
  if entry.1.coinbase.isNone then [⟨tx,entry.1,entry.2⟩] else []

def transactionInputs (tx : DecodedDogecoinTransaction) : List InputPlace :=
  tx.vin.zipIdx.flatMap (inputPlaces tx)

def blockOutputs (block : DecodedDogecoinBlock) : List OutputPlace :=
  block.tx.zipIdx.flatMap fun entry => transactionOutputs entry.1 entry.2

def blockInputs (block : DecodedDogecoinBlock) : List InputPlace :=
  block.tx.flatMap transactionInputs

/-- What the builder promises to accept: no empty block, and no key created or spent twice. -/
structure Buildable (blocks : List DecodedDogecoinBlock) : Prop where
  nonempty : ∀ block ∈ blocks, block.tx ≠ []
  created : ((blocks.flatMap blockOutputs).map OutputPlace.key).Nodup
  spent : ((blocks.flatMap blockInputs).map InputPlace.key).Nodup

def createdAt (block : DecodedDogecoinBlock) (place : OutputPlace)
    (create : ProjectionUtxoOutput) : Prop :=
  create.outputKey = place.key ∧ create.txid = place.tx.txid ∧ create.txIndex = place.txIndex ∧
    create.vout = place.outputIndex ∧
    (∃ koinu : Int, place.output.value = formatKoinu koinu ∧ create.valueBase = toString koinu) ∧
    create.isCoinbase = place.tx.vin.any (·.coinbase.isSome) ∧ create.spentBy = none ∧
    create.blockHeight = block.height ∧ create.blockHash = block.hash ∧
    create.blockTime = block.time

def spentAt (block : DecodedDogecoinBlock) (place : InputPlace)
    (spend : CoreDogecoinSpend) : Prop :=
  (∃ txid vout, place.input.txid = some txid ∧ place.input.vout = some vout ∧
    spend.outputKey = ⟨txid,vout⟩) ∧ spend.spentByTxid = place.tx.txid ∧
    spend.spentInBlock = block.height ∧ spend.spentInputIndex = place.inputIndex

/-- One create for each output and one spend for each input that is not a coinbase input, in the
order of the block. -/
structure ExactApplication (block : DecodedDogecoinBlock)
    (application : CoreDogecoinBlockApplication) : Prop where
  blockHeight : application.blockHeight = block.height
  blockHash : application.blockHash = block.hash
  previousBlockHash : application.previousBlockHash = block.previousblockhash
  blockTime : application.blockTime = block.time
  txCount : application.txCount = block.tx.length
  creates : List.Forall₂ (createdAt block) (blockOutputs block) application.utxoCreates
  spends : List.Forall₂ (spentAt block) (blockInputs block) application.utxoSpends

/-- The builder accepts exactly the buildable lists, and what it returns is exact. -/
structure BuildsExactly (blocks : List DecodedDogecoinBlock) : Prop where
  accepts : (∃ applications, buildFastCoreDogecoinBlockApplications blocks = .ok applications) ↔
    Buildable blocks
  exact : ∀ applications, buildFastCoreDogecoinBlockApplications blocks = .ok applications →
    List.Forall₂ ExactApplication blocks applications

/-- No coinbase input of the blocks has an empty script. -/
def NoEmptyCoinbaseScript (blocks : List DecodedDogecoinBlock) : Prop :=
  ∀ block ∈ blocks, ∀ tx ∈ block.tx, ∀ input ∈ tx.vin, input.coinbase ≠ some ""

theorem IsHash.trim {text : String} (h : IsHash text) : trim text = text ∧ text ≠ "" := by
  obtain ⟨bytes,hlength,rfl⟩ := h
  have hne : HexText.hexDigits bytes ≠ [] := by
    rw [← List.length_pos_iff,HexText.hexDigits_length]
    omega
  unfold OnlyDoge.trim bytesToHex
  rw [String.toList_ofList,trimText_hexDigits]
  refine ⟨rfl,fun heq => hne ?_⟩
  have := congrArg String.toList heq
  rwa [String.toList_ofList] at this

theorem IsHash.requireString {text label : String} (h : IsHash text) :
    requireString (some text) label = .ok text := by
  simp only [Snapshot.requireString,h.trim.1,if_neg h.trim.2]

/-- The spend of an input place. -/
def placeSpend (height : Nat) (place : InputPlace) : CoreDogecoinSpend :=
  ⟨place.key,place.tx.txid,height,place.inputIndex⟩

/-- The create of an output place. -/
def placeCreate (block : ParsedDogecoinBlock) (place : OutputPlace) : ProjectionUtxoOutput where
  blockHeight := block.height
  blockHash := block.hash
  blockTime := block.time
  txid := place.tx.txid
  txIndex := place.txIndex
  vout := place.output.n
  outputKey := place.key
  address := extractDogecoinOutputAddress place.output
  scriptType := outputScriptType place.output
  valueBase := ((fromDecimalUnits place.output.value 8).toOption).getD ""
  isCoinbase := hasCoinbaseInput place.tx
  isSpendable := extractDogecoinOutputAddress place.output ≠ ""
  spentBy := none

theorem isCoinbaseInput_iff {input : DecodedDogecoinVin} (h : input.coinbase ≠ some "") :
    isCoinbaseInput input = input.coinbase.isSome := by
  unfold isCoinbaseInput
  cases hc : input.coinbase with
  | none => rfl
  | some script =>
    have hne : script ≠ "" := by
      rintro rfl
      exact h hc
    simpa using hne

theorem hasCoinbaseInput_iff {tx : DecodedDogecoinTransaction}
    (h : ∀ input ∈ tx.vin, input.coinbase ≠ some "") :
    hasCoinbaseInput tx = tx.vin.any (·.coinbase.isSome) := by
  rw [Bool.eq_iff_iff,hasCoinbaseInput,List.any_eq_true,List.any_eq_true]
  constructor
  · rintro ⟨input,hinput,hc⟩
    exact ⟨input,hinput,(isCoinbaseInput_iff (h input hinput)).symm.trans hc⟩
  · rintro ⟨input,hinput,hc⟩
    exact ⟨input,hinput,(isCoinbaseInput_iff (h input hinput)).trans hc⟩

theorem appendTransactionSpend_decoded {tx : DecodedDogecoinTransaction} {height : Nat}
    {entry : DecodedDogecoinVin × Nat} (hinput : DecodedInput entry.1)
    (hne : entry.1.coinbase ≠ some "") (spends : List CoreDogecoinSpend)
    (tracker : CoreWindowKeyTracker) :
    appendTransactionSpend tx.txid height (spends,tracker) entry =
      ((((inputPlaces tx entry).map (placeSpend height)).map (·.outputKey)).foldlM
        assertUniqueCoreSpend tracker).map fun tracker =>
          (spends ++ (inputPlaces tx entry).map (placeSpend height),tracker) := by
  obtain ⟨input,inputIndex⟩ := entry
  unfold appendTransactionSpend buildTransactionSpend inputPlaces
  rw [isCoinbaseInput_iff hne]
  cases hinput with
  | coinbase script sequence => simp [bind,Except.bind,pure,Except.pure,Except.map]
  | output txid vout script sequence htxid =>
    simp only [Option.isSome_none,Bool.false_eq_true,if_false,htxid.requireString,requireNumber,
      Option.isNone_none,if_true,List.map_cons,List.map_nil,List.foldlM_cons,List.foldlM_nil,
      InputPlace.key,placeSpend,Option.getD_some]
    cases hkey : assertUniqueCoreSpend tracker ⟨txid,vout⟩ <;>
      simp [bind,Except.bind,pure,Except.pure,Except.map,hkey]

theorem buildTransactionSpends_decoded {tx : DecodedDogecoinTransaction} {height : Nat}
    {tracker t : CoreWindowKeyTracker} {spends : List CoreDogecoinSpend}
    (htx : DecodedTransaction tx) (hne : ∀ input ∈ tx.vin, input.coinbase ≠ some "")
    (h : tracker.spentOutputKeys.Nodup) :
    buildTransactionSpends tx.txid height tx tracker = .ok (spends,t) ↔
      (tracker.spentOutputKeys ++ (transactionInputs tx).map InputPlace.key).Nodup ∧
      spends = (transactionInputs tx).map (placeSpend height) ∧
      t = tracker.add [] ((transactionInputs tx).map InputPlace.key) := by
  have hstep : ∀ entry ∈ tx.vin.zipIdx, ∀ spends tracker, _ := fun entry hentry =>
    have hmem := List.fst_mem_of_mem_zipIdx hentry
    @appendTransactionSpend_decoded tx height entry (htx.vin entry.1 hmem) (hne entry.1 hmem)
  have hkeys : ((transactionInputs tx).map (placeSpend height)).map (·.outputKey) =
      (transactionInputs tx).map InputPlace.key := List.map_map
  unfold buildTransactionSpends
  rw [Folding.foldlM_collect hstep,← List.map_flatMap,← transactionInputs,hkeys,Folding.map_eq_ok]
  simp only [assertUniqueCoreSpends_eq_ok h,List.nil_append,Prod.mk.injEq]
  constructor
  · rintro ⟨_,⟨hn,rfl⟩,hspends,ht⟩
    exact ⟨hn,hspends,ht⟩
  · rintro ⟨hn,hspends,ht⟩
    exact ⟨_,⟨hn,rfl⟩,hspends,ht⟩

theorem appendTransactionOutput_decoded {block : ParsedDogecoinBlock}
    {tx : DecodedDogecoinTransaction} {txIndex : Nat} {entry : DecodedDogecoinVout × Nat}
    (houtput : DecodedOutput entry.2 entry.1) (outputs : List ProjectionUtxoOutput)
    (tracker : CoreWindowKeyTracker) :
    appendTransactionOutput block tx.txid txIndex (hasCoinbaseInput tx) (outputs,tracker) entry =
      (([placeCreate block ⟨tx,txIndex,entry.1,entry.2⟩].map (·.outputKey)).foldlM
        assertUniqueCoreOutput tracker).map fun tracker =>
          (outputs ++ [placeCreate block ⟨tx,txIndex,entry.1,entry.2⟩],tracker) := by
  obtain ⟨output,outputIndex⟩ := entry
  obtain ⟨koinu,hvalue : output.value = formatKoinu koinu⟩ := houtput.value
  unfold appendTransactionOutput buildTransactionOutput
  simp only [requireNumber,List.map_cons,List.map_nil,List.foldlM_cons,List.foldlM_nil,
    placeCreate,OutputPlace.key]
  cases hkey : assertUniqueCoreOutput tracker ⟨tx.txid,outputIndex⟩ <;>
    simp [bind,Except.bind,pure,Except.pure,Except.map,hvalue,requireAmount_formatKoinu,
      fromDecimalUnits_formatKoinu,Except.toOption]

theorem buildTransactionOutputs_decoded {block : ParsedDogecoinBlock}
    {tx : DecodedDogecoinTransaction} {txIndex : Nat} {tracker t : CoreWindowKeyTracker}
    {outputs : List ProjectionUtxoOutput} (htx : DecodedTransaction tx)
    (h : tracker.createdOutputKeys.Nodup) :
    buildTransactionOutputs block tx tx.txid txIndex (hasCoinbaseInput tx) tracker =
        .ok (outputs,t) ↔
      (tracker.createdOutputKeys ++ (transactionOutputs tx txIndex).map OutputPlace.key).Nodup ∧
      outputs = (transactionOutputs tx txIndex).map (placeCreate block) ∧
      t = tracker.add ((transactionOutputs tx txIndex).map OutputPlace.key) [] := by
  have hstep : ∀ entry ∈ tx.vout.zipIdx, ∀ outputs tracker, _ := fun entry hentry =>
    @appendTransactionOutput_decoded block tx txIndex entry (htx.vout entry hentry)
  have hplaces : tx.vout.zipIdx.flatMap
      (fun entry => [placeCreate block ⟨tx,txIndex,entry.1,entry.2⟩]) =
      (transactionOutputs tx txIndex).map (placeCreate block) := by
    rw [transactionOutputs,List.map_map,← List.flatMap_pure_eq_map]
    rfl
  have hkeys : ((transactionOutputs tx txIndex).map (placeCreate block)).map (·.outputKey) =
      (transactionOutputs tx txIndex).map OutputPlace.key := List.map_map
  unfold buildTransactionOutputs
  rw [Folding.foldlM_collect hstep,hplaces,hkeys,Folding.map_eq_ok]
  simp only [assertUniqueCoreOutputs_eq_ok h,List.nil_append,Prod.mk.injEq]
  constructor
  · rintro ⟨_,⟨hn,rfl⟩,houtputs,ht⟩
    exact ⟨hn,houtputs,ht⟩
  · rintro ⟨hn,houtputs,ht⟩
    exact ⟨_,⟨hn,rfl⟩,houtputs,ht⟩

/-- The effects of a list of transactions, given with their indices. -/
def entryOutputs (entries : List (DecodedDogecoinTransaction × Nat)) : List OutputPlace :=
  entries.flatMap fun entry => transactionOutputs entry.1 entry.2

def entryInputs (entries : List (DecodedDogecoinTransaction × Nat)) : List InputPlace :=
  entries.flatMap fun entry => transactionInputs entry.1

theorem appendTransactionEffects_decoded {block : ParsedDogecoinBlock}
    {effects effects' : CoreTransactionEffects} {tracker t : CoreWindowKeyTracker}
    {tx : DecodedDogecoinTransaction} {txIndex : Nat} (htx : DecodedTransaction tx)
    (hne : ∀ input ∈ tx.vin, input.coinbase ≠ some "") (h : tracker.Fresh [] []) :
    appendTransactionEffects block (effects,tracker) (tx,txIndex) = .ok (effects',t) ↔
      tracker.Fresh ((transactionOutputs tx txIndex).map OutputPlace.key)
        ((transactionInputs tx).map InputPlace.key) ∧
      effects' = ⟨effects.utxoCreates ++ (transactionOutputs tx txIndex).map (placeCreate block),
        effects.utxoSpends ++ (transactionInputs tx).map (placeSpend block.height)⟩ ∧
      t = tracker.add ((transactionOutputs tx txIndex).map OutputPlace.key)
        ((transactionInputs tx).map InputPlace.key) := by
  have hs : tracker.spentOutputKeys.Nodup := by simpa using h.2
  have hc : (tracker.add []
      ((transactionInputs tx).map InputPlace.key)).createdOutputKeys.Nodup := by
    simpa [CoreWindowKeyTracker.add] using h.1
  simp only [appendTransactionEffects,bind_eq_ok,Prod.exists,htx.txid.requireString]
  constructor
  · rintro ⟨_,heq,spends,t1,h1,outputs,t2,h2,he⟩
    cases heq
    obtain ⟨hn,rfl,rfl⟩ := (buildTransactionSpends_decoded htx hne hs).mp h1
    obtain ⟨hn',rfl,rfl⟩ := (buildTransactionOutputs_decoded htx hc).mp h2
    cases he
    refine ⟨⟨by simpa [CoreWindowKeyTracker.add] using hn',hn⟩,rfl,?_⟩
    simp [CoreWindowKeyTracker.add]
  · rintro ⟨hf,rfl,rfl⟩
    refine ⟨_,rfl,_,_,(buildTransactionSpends_decoded htx hne hs).mpr ⟨hf.2,rfl,rfl⟩,_,_,
      (buildTransactionOutputs_decoded htx hc).mpr
        ⟨by simpa [CoreWindowKeyTracker.add] using hf.1,rfl,rfl⟩,?_⟩
    simp [CoreWindowKeyTracker.add,pure,Except.pure]

theorem appendTransactionsEffects_decoded {block : ParsedDogecoinBlock}
    {entries : List (DecodedDogecoinTransaction × Nat)} {effects effects' : CoreTransactionEffects}
    {tracker t : CoreWindowKeyTracker} (htx : ∀ entry ∈ entries, DecodedTransaction entry.1)
    (hne : ∀ entry ∈ entries, ∀ input ∈ entry.1.vin, input.coinbase ≠ some "")
    (h : tracker.Fresh [] []) :
    entries.foldlM (appendTransactionEffects block) (effects,tracker) = .ok (effects',t) ↔
      tracker.Fresh ((entryOutputs entries).map OutputPlace.key)
        ((entryInputs entries).map InputPlace.key) ∧
      effects' = ⟨effects.utxoCreates ++ (entryOutputs entries).map (placeCreate block),
        effects.utxoSpends ++ (entryInputs entries).map (placeSpend block.height)⟩ ∧
      t = tracker.add ((entryOutputs entries).map OutputPlace.key)
        ((entryInputs entries).map InputPlace.key) := by
  induction entries generalizing effects tracker with
  | nil =>
    simp only [List.foldlM_nil,entryOutputs,entryInputs,List.flatMap_nil,List.map_nil,
      List.append_nil,h,true_and,CoreWindowKeyTracker.add_nil]
    exact ⟨fun he => by cases he; exact ⟨rfl,rfl⟩,fun he => by rw [he.1,he.2]; rfl⟩
  | cons entry entries ih =>
    obtain ⟨tx,txIndex⟩ := entry
    rw [List.forall_mem_cons] at htx hne
    rw [List.foldlM_cons,bind_eq_ok]
    simp only [entryOutputs,entryInputs,List.flatMap_cons,List.map_append]
    constructor
    · rintro ⟨⟨effects1,t1⟩,h1,h2⟩
      obtain ⟨hf,rfl,rfl⟩ := (appendTransactionEffects_decoded htx.1 hne.1 h).mp h1
      obtain ⟨hf',rfl,rfl⟩ := (ih htx.2 hne.2 hf.remember).mp h2
      refine ⟨CoreWindowKeyTracker.fresh_add.mp hf',?_,CoreWindowKeyTracker.add_add ..⟩
      simp only [List.append_assoc,entryOutputs,entryInputs]
    · rintro ⟨hf,rfl,rfl⟩
      refine ⟨_,(appendTransactionEffects_decoded htx.1 hne.1 h).mpr ⟨hf.left,rfl,rfl⟩,?_⟩
      refine (ih htx.2 hne.2 hf.left.remember).mpr ⟨CoreWindowKeyTracker.fresh_add.mpr hf,?_,?_⟩
      · simp only [List.append_assoc,entryOutputs,entryInputs]
      · exact (CoreWindowKeyTracker.add_add ..).symm

/-- What `parseDogecoinBlockSnapshot` makes of a decoded block. -/
def parsedBlock (block : DecodedDogecoinBlock) : ParsedDogecoinBlock :=
  ⟨block.hash,block.height,block.time,block.previousblockhash,block.tx⟩

def blockApplication (block : DecodedDogecoinBlock) : CoreDogecoinBlockApplication where
  blockHeight := block.height
  blockHash := block.hash
  previousBlockHash := block.previousblockhash
  blockTime := block.time
  txCount := block.tx.length
  utxoCreates := (blockOutputs block).map (placeCreate (parsedBlock block))
  utxoSpends := (blockInputs block).map (placeSpend block.height)

theorem parseDogecoinBlockSnapshot_decoded {block : DecodedDogecoinBlock} (h : DecodedBlock block)
    (htx : block.tx ≠ []) : parseDogecoinBlockSnapshot block = .ok (parsedBlock block) := by
  have hprevious : readPreviousBlockHash block.previousblockhash = block.previousblockhash := by
    cases hhash : block.previousblockhash with
    | none => rfl
    | some hash =>
      have hhash := (h.previousblockhash hash hhash).trim
      simp only [readPreviousBlockHash,Option.bind_some,hhash.1,nullIfEmpty,if_neg hhash.2]
  simp only [parseDogecoinBlockSnapshot,h.hash.requireString,requireNumber,readDogecoinTransactions,
    if_neg htx,hprevious,bind,Except.bind,pure,Except.pure,parsedBlock]

theorem parseDogecoinBlockSnapshot_tx {block : DecodedDogecoinBlock} {parsed : ParsedDogecoinBlock}
    (h : parseDogecoinBlockSnapshot block = .ok parsed) : block.tx ≠ [] ∧ parsed.tx = block.tx := by
  simp only [parseDogecoinBlockSnapshot,bind_eq_ok] at h
  obtain ⟨_,_,_,_,_,_,tx,htx,hparsed⟩ := h
  unfold readDogecoinTransactions at htx
  split at htx
  · cases htx
  · cases htx
    cases hparsed
    exact ⟨by assumption,rfl⟩

theorem buildCoreBlockApplication_decoded {block : DecodedDogecoinBlock}
    {application : CoreDogecoinBlockApplication} {tracker t : CoreWindowKeyTracker}
    (hblock : DecodedBlock block)
    (hne : ∀ tx ∈ block.tx, ∀ input ∈ tx.vin, input.coinbase ≠ some "")
    (h : tracker.Fresh [] []) :
    buildCoreBlockApplication block tracker = .ok (application,t) ↔
      block.tx ≠ [] ∧
      tracker.Fresh ((blockOutputs block).map OutputPlace.key)
        ((blockInputs block).map InputPlace.key) ∧
      application = blockApplication block ∧
      t = tracker.add ((blockOutputs block).map OutputPlace.key)
        ((blockInputs block).map InputPlace.key) := by
  have hmem : ∀ entry ∈ block.tx.zipIdx, entry.1 ∈ block.tx := fun _ => List.fst_mem_of_mem_zipIdx
  have hinputs : entryInputs block.tx.zipIdx = blockInputs block := zipIdx_flatMap_fst ..
  have heffects := @appendTransactionsEffects_decoded (parsedBlock block) block.tx.zipIdx ⟨[],[]⟩
  unfold buildCoreBlockApplication collectCoreBlockEffects
  simp only [bind_eq_ok,Prod.exists]
  constructor
  · rintro ⟨parsed,hparsed,effects,t1,h1,he⟩
    have htx := (parseDogecoinBlockSnapshot_tx hparsed).1
    rw [parseDogecoinBlockSnapshot_decoded hblock htx] at hparsed
    cases hparsed
    obtain ⟨hf,rfl,rfl⟩ := (heffects (fun entry he => hblock.tx _ (hmem entry he))
      (fun entry he => hne _ (hmem entry he)) h).mp h1
    rw [hinputs] at hf he
    cases he
    exact ⟨htx,hf,rfl,rfl⟩
  · rintro ⟨htx,hf,rfl,rfl⟩
    refine ⟨_,parseDogecoinBlockSnapshot_decoded hblock htx,_,_,
      (heffects (fun entry he => hblock.tx _ (hmem entry he))
        (fun entry he => hne _ (hmem entry he)) h).mpr ⟨by rwa [hinputs],rfl,rfl⟩,?_⟩
    rw [hinputs]
    rfl

theorem buildCoreBlockApplications_decoded {blocks : List DecodedDogecoinBlock}
    {applications : List CoreDogecoinBlockApplication} {tracker : CoreWindowKeyTracker}
    (hblocks : ∀ block ∈ blocks, DecodedBlock block) (hne : NoEmptyCoinbaseScript blocks)
    (h : tracker.Fresh [] []) :
    buildCoreBlockApplications tracker blocks = .ok applications ↔
      (∀ block ∈ blocks, block.tx ≠ []) ∧
      tracker.Fresh ((blocks.flatMap blockOutputs).map OutputPlace.key)
        ((blocks.flatMap blockInputs).map InputPlace.key) ∧
      applications = blocks.map blockApplication := by
  induction blocks generalizing tracker applications with
  | nil => simp [buildCoreBlockApplications,h,eq_comm]
  | cons block blocks ih =>
    rw [List.forall_mem_cons] at hblocks
    obtain ⟨hne,hnes⟩ := List.forall_mem_cons.mp hne
    have hhead {application : CoreDogecoinBlockApplication} {t : CoreWindowKeyTracker} :=
      @buildCoreBlockApplication_decoded block application tracker t hblocks.1 hne h
    simp only [buildCoreBlockApplications,bind_eq_ok,Prod.exists,List.flatMap_cons,
      List.map_append,List.forall_mem_cons,List.map_cons]
    constructor
    · rintro ⟨application,t,h1,rest,h2,he⟩
      obtain ⟨htx,hf,rfl,rfl⟩ := hhead.mp h1
      obtain ⟨htxs,hf',rfl⟩ := (ih hblocks.2 hnes hf.remember).mp h2
      cases he
      exact ⟨⟨htx,htxs⟩,CoreWindowKeyTracker.fresh_add.mp hf',rfl⟩
    · rintro ⟨⟨htx,htxs⟩,hf,rfl⟩
      exact ⟨_,_,hhead.mpr ⟨htx,hf.left,rfl,rfl⟩,_,(ih hblocks.2 hnes hf.left.remember).mpr
        ⟨htxs,CoreWindowKeyTracker.fresh_add.mpr hf,rfl⟩,rfl⟩

theorem buildFastCoreDogecoinBlockApplications_decoded {blocks : List DecodedDogecoinBlock}
    {applications : List CoreDogecoinBlockApplication}
    (hblocks : ∀ block ∈ blocks, DecodedBlock block) (hne : NoEmptyCoinbaseScript blocks) :
    buildFastCoreDogecoinBlockApplications blocks = .ok applications ↔
      Buildable blocks ∧ applications = blocks.map blockApplication := by
  have hfresh : createCoreWindowKeyTracker.Fresh [] [] := ⟨List.nodup_nil,List.nodup_nil⟩
  unfold buildFastCoreDogecoinBlockApplications
  rw [buildCoreBlockApplications_decoded hblocks hne hfresh,← and_assoc]
  refine and_congr_left fun _ => ?_
  constructor
  · rintro ⟨htx,hc,hs⟩
    exact ⟨htx,hc,hs⟩
  · rintro ⟨htx,hc,hs⟩
    exact ⟨htx,hc,hs⟩

theorem exists_mem_zipIdx {α : Type} {xs : List α} {x : α} (h : x ∈ xs) :
    ∃ i, (x,i) ∈ xs.zipIdx := by
  obtain ⟨i,hi⟩ := List.mem_iff_getElem?.mp h
  exact ⟨i,List.mk_mem_zipIdx_iff_getElem?.mpr hi⟩

/-- An empty coinbase script counts as a regular input, which then has no transaction id. -/
theorem appendTransactionSpend_ok {txid : String} {height : Nat} {entry : DecodedDogecoinVin × Nat}
    {state r : List CoreDogecoinSpend × CoreWindowKeyTracker} (hinput : DecodedInput entry.1)
    (h : appendTransactionSpend txid height state entry = .ok r) : entry.1.coinbase ≠ some "" := by
  obtain ⟨input,inputIndex⟩ := entry
  cases hinput with
  | output txid vout script sequence htxid => simp
  | coinbase script sequence =>
    intro hempty
    obtain hempty : bytesToHex script = "" := Option.some.inj hempty
    simp [appendTransactionSpend,buildTransactionSpend,isCoinbaseInput,hempty,requireString,bind,
      Except.bind] at h

theorem appendTransactionEffects_ok {block : ParsedDogecoinBlock}
    {state r : CoreTransactionEffects × CoreWindowKeyTracker}
    {entry : DecodedDogecoinTransaction × Nat} (htx : DecodedTransaction entry.1)
    (h : appendTransactionEffects block state entry = .ok r) :
    ∀ input ∈ entry.1.vin, input.coinbase ≠ some "" := by
  simp only [appendTransactionEffects,bind_eq_ok] at h
  obtain ⟨_,-,_,hspends,-⟩ := h
  intro input hinput
  obtain ⟨inputIndex,hentry⟩ := exists_mem_zipIdx hinput
  obtain ⟨state,r,hstep⟩ := Folding.foldlM_ok_mem hspends _ hentry
  exact appendTransactionSpend_ok (htx.vin input hinput) hstep

theorem buildCoreBlockApplication_ok {block : DecodedDogecoinBlock} {tracker : CoreWindowKeyTracker}
    {r : CoreDogecoinBlockApplication × CoreWindowKeyTracker} (hblock : DecodedBlock block)
    (h : buildCoreBlockApplication block tracker = .ok r) :
    ∀ tx ∈ block.tx, ∀ input ∈ tx.vin, input.coinbase ≠ some "" := by
  simp only [buildCoreBlockApplication,bind_eq_ok] at h
  obtain ⟨parsed,hparsed,_,heffects,-⟩ := h
  unfold collectCoreBlockEffects at heffects
  rw [(parseDogecoinBlockSnapshot_tx hparsed).2] at heffects
  intro tx htx
  obtain ⟨txIndex,hentry⟩ := exists_mem_zipIdx htx
  obtain ⟨state,r,hstep⟩ := Folding.foldlM_ok_mem heffects _ hentry
  exact appendTransactionEffects_ok (hblock.tx tx htx) hstep

theorem buildCoreBlockApplications_ok {blocks : List DecodedDogecoinBlock}
    {tracker : CoreWindowKeyTracker} {applications : List CoreDogecoinBlockApplication}
    (hblocks : ∀ block ∈ blocks, DecodedBlock block)
    (h : buildCoreBlockApplications tracker blocks = .ok applications) :
    NoEmptyCoinbaseScript blocks := by
  induction blocks generalizing tracker applications with
  | nil => exact fun _ h => (List.not_mem_nil h).elim
  | cons block blocks ih =>
    rw [List.forall_mem_cons] at hblocks
    simp only [buildCoreBlockApplications,bind_eq_ok] at h
    obtain ⟨r,hhead,rest,hrest,-⟩ := h
    exact List.forall_mem_cons.mpr
      ⟨buildCoreBlockApplication_ok hblocks.1 hhead,ih hblocks.2 hrest⟩

theorem createdAt_placeCreate {block : DecodedDogecoinBlock} (hblock : DecodedBlock block)
    (hne : ∀ tx ∈ block.tx, ∀ input ∈ tx.vin, input.coinbase ≠ some "") :
    ∀ place ∈ blockOutputs block, createdAt block place
      (placeCreate (parsedBlock block) place) := by
  intro place hplace
  obtain ⟨⟨tx,txIndex⟩,hentry,hplace⟩ := List.mem_flatMap.mp hplace
  obtain ⟨⟨output,outputIndex⟩,houtput,rfl⟩ := List.mem_map.mp hplace
  have htx := List.fst_mem_of_mem_zipIdx hentry
  have hform := (hblock.tx tx htx).vout _ houtput
  obtain ⟨koinu,hvalue : output.value = _⟩ := hform.value
  have hbase : (fromDecimalUnits output.value 8).toOption.getD "" = toString koinu := by
    rw [hvalue,fromDecimalUnits_formatKoinu]
    rfl
  have hn : output.n = outputIndex := hform.n
  have hcoinbase : hasCoinbaseInput tx = tx.vin.any (·.coinbase.isSome) :=
    hasCoinbaseInput_iff (hne tx htx)
  simp only [createdAt,placeCreate,hbase,hn,hcoinbase,parsedBlock,true_and,and_true]
  exact ⟨koinu,hvalue,rfl⟩

theorem spentAt_placeSpend {block : DecodedDogecoinBlock} (hblock : DecodedBlock block) :
    ∀ place ∈ blockInputs block, spentAt block place (placeSpend block.height place) := by
  intro place hplace
  obtain ⟨tx,htx,hplace⟩ := List.mem_flatMap.mp hplace
  obtain ⟨⟨input,inputIndex⟩,hinput,hplace⟩ := List.mem_flatMap.mp hplace
  have hform := (hblock.tx tx htx).vin input (List.fst_mem_of_mem_zipIdx hinput)
  cases hform with
  | coinbase script sequence => simp [inputPlaces] at hplace
  | output txid vout script sequence htxid =>
    obtain rfl : place = ⟨tx,_,inputIndex⟩ := by simpa [inputPlaces] using hplace
    exact ⟨⟨txid,vout,rfl,rfl,rfl⟩,rfl,rfl,rfl⟩

theorem exactApplication {block : DecodedDogecoinBlock} (hblock : DecodedBlock block)
    (hne : ∀ tx ∈ block.tx, ∀ input ∈ tx.vin, input.coinbase ≠ some "") :
    ExactApplication block (blockApplication block) where
  blockHeight := rfl
  blockHash := rfl
  previousBlockHash := rfl
  blockTime := rfl
  txCount := rfl
  creates := by
    refine List.forall₂_map_right_iff.mpr (List.forall₂_same.mpr ?_)
    exact createdAt_placeCreate hblock hne
  spends := List.forall₂_map_right_iff.mpr (List.forall₂_same.mpr (spentAt_placeSpend hblock))

/-- On decoded blocks the builder does what it promises unless it should accept them and some
coinbase script is empty. -/
theorem buildsExactly_iff {blocks : List DecodedDogecoinBlock}
    (hblocks : ∀ block ∈ blocks, DecodedBlock block) :
    BuildsExactly blocks ↔ NoEmptyCoinbaseScript blocks ∨ ¬Buildable blocks := by
  constructor
  · intro h
    by_cases hb : Buildable blocks
    · obtain ⟨applications,happs⟩ := h.accepts.mpr hb
      exact Or.inl (buildCoreBlockApplications_ok hblocks happs)
    · exact Or.inr hb
  · intro h
    -- a list that is accepted has no empty coinbase script, so that it is built as it should be
    have hok {applications : List CoreDogecoinBlockApplication}
        (happs : buildFastCoreDogecoinBlockApplications blocks = .ok applications) :
        NoEmptyCoinbaseScript blocks ∧ Buildable blocks ∧
          applications = blocks.map blockApplication := by
      have hne := buildCoreBlockApplications_ok hblocks happs
      exact ⟨hne,(buildFastCoreDogecoinBlockApplications_decoded hblocks hne).mp happs⟩
    constructor
    · constructor
      · rintro ⟨applications,happs⟩
        exact (hok happs).2.1
      · intro hb
        have hne := h.resolve_right (not_not_intro hb)
        exact ⟨_,(buildFastCoreDogecoinBlockApplications_decoded hblocks hne).mpr ⟨hb,rfl⟩⟩
    · intro applications happs
      obtain ⟨hne,-,rfl⟩ := hok happs
      refine List.forall₂_map_right_iff.mpr (List.forall₂_same.mpr fun block hblock => ?_)
      exact exactApplication (hblocks block hblock) (hne block hblock)

/-- A block with a coinbase transaction only. -/
def coinbaseSnapshot (script : List UInt8) : DecodedDogecoinBlock where
  auxpow := none
  bits := "1e0ffff0"
  hash := bytesToHex (List.replicate 32 7)
  height := 5
  merkleroot := bytesToHex (List.replicate 32 9)
  nTx := 1
  nonce := 0
  previousblockhash := none
  size := 150
  time := 1386325540
  tx := [{
    hash := bytesToHex (List.replicate 32 9)
    locktime := 0
    size := 69
    txid := bytesToHex (List.replicate 32 9)
    version := 1
    vin := [⟨some (bytesToHex script),none,4294967295,none,none⟩]
    vout := [⟨0,⟨none,"51",none,.nonstandard⟩,formatKoinu 1000000000000⟩] }]
  version := 1

theorem decodedBlock_coinbaseSnapshot (script : List UInt8) :
    DecodedBlock (coinbaseSnapshot script) where
  hash := ⟨_,rfl,rfl⟩
  previousblockhash := by simp [coinbaseSnapshot]
  tx := by
    intro tx htx
    obtain rfl := List.mem_singleton.mp htx
    refine ⟨⟨_,rfl,rfl⟩,?_,?_⟩
    · rintro input hinput
      obtain rfl := List.mem_singleton.mp hinput
      exact .coinbase script _
    · rintro entry hentry
      obtain rfl := List.mem_singleton.mp hentry
      exact ⟨rfl,1000000000000,rfl⟩

/-- The coinbase block with a transaction that spends the first output of an earlier one. -/
def paymentSnapshot : DecodedDogecoinBlock :=
  { coinbaseSnapshot [0x51] with
    tx := (coinbaseSnapshot [0x51]).tx ++ [{
      hash := bytesToHex (List.replicate 32 11)
      locktime := 0
      size := 61
      txid := bytesToHex (List.replicate 32 11)
      version := 1
      vin := [⟨none,some (bytesToHex [0x51]),4294967295,
        some (bytesToHex (List.replicate 32 8)),some 0⟩]
      vout := [⟨0,⟨none,"51",none,.nonstandard⟩,formatKoinu 500000000⟩] }] }

theorem decodedBlock_paymentSnapshot : DecodedBlock paymentSnapshot where
  hash := ⟨_,rfl,rfl⟩
  previousblockhash := by simp [paymentSnapshot,coinbaseSnapshot]
  tx := by
    intro tx htx
    rcases List.mem_append.mp htx with hcoinbase | hpayment
    · exact (decodedBlock_coinbaseSnapshot [0x51]).tx tx hcoinbase
    · obtain rfl := List.mem_singleton.mp hpayment
      refine ⟨⟨_,rfl,rfl⟩,?_,?_⟩
      · rintro input hinput
        obtain rfl := List.mem_singleton.mp hinput
        exact .output _ 0 [0x51] _ ⟨_,rfl,rfl⟩
      · rintro entry hentry
        obtain rfl := List.mem_singleton.mp hentry
        exact ⟨rfl,500000000,rfl⟩

theorem buildsExactly_iff_nonempty_script : BuildsExactly [paymentSnapshot] ∧ ∃ applications,
    buildFastCoreDogecoinBlockApplications [paymentSnapshot] = .ok applications := by
  have hform : ∀ block ∈ [paymentSnapshot], DecodedBlock block := by
    intro block hblock
    obtain rfl := List.mem_singleton.mp hblock
    exact decodedBlock_paymentSnapshot
  have hbuilds : BuildsExactly [paymentSnapshot] := by
    refine (buildsExactly_iff hform).mpr (Or.inl ?_)
    unfold NoEmptyCoinbaseScript
    decide
  have hbuildable : Buildable [paymentSnapshot] := ⟨by decide,by decide,by decide⟩
  exact ⟨hbuilds,hbuilds.accepts.mpr hbuildable⟩

/-- A block whose coinbase script is empty is rejected. -/
theorem empty_coinbase_script_rejected :
    (∀ block ∈ [coinbaseSnapshot []], DecodedBlock block) ∧ Buildable [coinbaseSnapshot []] ∧
      buildFastCoreDogecoinBlockApplications [coinbaseSnapshot []] =
        .error (.error "missing vin.txid") ∧ ¬BuildsExactly [coinbaseSnapshot []] := by
  have hbuildable : Buildable [coinbaseSnapshot []] := ⟨by decide,by decide,by decide⟩
  have hbuild : buildFastCoreDogecoinBlockApplications [coinbaseSnapshot []] =
      .error (.error "missing vin.txid") := by decide +kernel
  refine ⟨?_,hbuildable,hbuild,fun h => ?_⟩
  · intro block hblock
    obtain rfl := List.mem_singleton.mp hblock
    exact decodedBlock_coinbaseSnapshot _
  · obtain ⟨applications,happs⟩ := h.accepts.mpr hbuildable
    rw [hbuild] at happs
    cases happs

end OnlyDoge.Snapshot
