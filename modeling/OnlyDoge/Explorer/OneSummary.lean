import OnlyDoge.Explorer.Summaries
import OnlyDoge.Library.Folding
import OnlyDoge.Warehouse.FactBackfill
set_option autoImplicit false

/-! The two summaries of a transaction of the chain, and when they agree. -/

namespace OnlyDoge.Explorer
open HexText Decimal

inductive RendersInput (raw : DecodedDogecoinVin) : DogecoinVin → Prop where
  | coinbase (h : Snapshot.isCoinbaseInput raw) : RendersInput raw .coinbase
  | output (text txid : String) (vout : Nat) (hregular : Snapshot.isCoinbaseInput raw = false)
      (htext : raw.txid = some text) (htxid : trim text = txid) (hne : txid ≠ "")
      (hvout : raw.vout = some vout) : RendersInput raw (.output txid vout)

/-- A raw transaction that the indexer reads as this one. -/
structure Renders (raw : DecodedDogecoinTransaction) (tx : DogecoinTransaction) : Prop where
  txid : trim raw.txid = tx.txid
  named : tx.txid ≠ ""
  vin : List.Forall₂ RendersInput raw.vin tx.vin
  vout : List.Forall₂ (fun raw output => raw.value = formatKoinu (output.valueBase : Int)) raw.vout
    tx.vout

structure RendersBlock (raw : ParsedDogecoinBlock) (block : OnlyDoge.ParsedDogecoinBlock) :
    Prop where
  hash : raw.hash = block.hash
  height : raw.height = block.height
  time : raw.time = block.time
  tx : List.Forall₂ Renders raw.tx block.tx

theorem isDigit_ne_dot {c : Char} (h : c.isDigit) : c ≠ '.' := by
  rintro rfl
  exact absurd h (by decide)

theorem splitDecimal_parts {whole fraction : List Char} (hwhole : ∀ c ∈ whole, c.isDigit)
    (hfraction : ∀ c ∈ fraction, c.isDigit) :
    splitDecimal (whole ++ '.'::fraction) = (whole,fraction) := by
  have hne {digits : List Char} (h : ∀ c ∈ digits, c.isDigit) :
      ∀ c ∈ digits, decide (c ≠ '.') = true := fun c hc => decide_eq_true (isDigit_ne_dot (h c hc))
  have htake : (whole ++ '.'::fraction).takeWhile (· ≠ '.') = whole := by
    rw [List.takeWhile_append_of_pos (hne hwhole),List.takeWhile_cons_of_neg (by decide),
      List.append_nil]
  have hdrop : (whole ++ '.'::fraction).dropWhile (· ≠ '.') = '.'::fraction := by
    rw [List.dropWhile_append_of_pos (hne hwhole),List.dropWhile_cons_of_neg (by decide)]
  have hrest : fraction.takeWhile (· ≠ '.') = fraction := by
    simpa using @List.takeWhile_append_of_pos _ _ fraction [] (hne hfraction)
  unfold splitDecimal
  rw [htake,hdrop,List.drop_one,List.tail_cons,hrest]

theorem stringDecimalToBase_formatKoinu (koinu : Nat) :
    stringDecimalToBase (formatKoinu (koinu : Int)) = .ok (toString koinu) := by
  have hsign : signText (koinu : Int) = [] := if_neg (by omega)
  have htext : (formatKoinu (koinu : Int)).toList =
      wholeDigits (koinu : Int) ++ '.'::koinuDigits (koinu : Int) := by
    rw [formatKoinu_eq,hsign,List.nil_append,String.toList_ofList]
  have hparts : wholeDigits (koinu : Int) ≠ [] ∧ (wholeDigits (koinu : Int)).all Char.isDigit ∧
      (koinuDigits (koinu : Int)).all Char.isDigit :=
    ⟨wholeDigits_ne_nil _,List.all_eq_true.mpr (wholeDigits_isDigit _),
      List.all_eq_true.mpr (koinuDigits_isDigit _)⟩
  have hpad : padEnd 8 ((koinuDigits (koinu : Int)).take 8) = koinuDigits (koinu : Int) := by
    have hlength := koinuDigits_length (koinu : Int)
    rw [List.take_of_length_le (by omega)]
    simp [padEnd,hlength]
  unfold stringDecimalToBase assertDecimalParts decimalPartsToBase
  rw [(trim_formatKoinu _).1,htext,splitDecimal_parts (wholeDigits_isDigit _)
    (koinuDigits_isDigit _)]
  simp only [if_pos hparts,bind,Except.bind,pure,Except.pure,hpad,stripZeros_koinu,
    if_neg Nat.toDigits_ne_nil]
  rfl

theorem parseAmountBase_digits {digits : List Char} (hne : digits ≠ [])
    (hdigits : ∀ c ∈ digits, c.isDigit) :
    parseAmountBase (String.ofList digits) = .ok (Nat.ofDigitChars 10 digits 0 : Int) := by
  have htrim : trim (String.ofList digits) = String.ofList digits :=
    (trim_ofList hne (fun c hc => isTrimmed_isDigit (hdigits c (List.mem_of_head? hc)))
      (fun c hc => isTrimmed_isDigit (hdigits c (List.mem_of_getLast? hc)))).1
  have hall : digits ≠ [] ∧ digits.all Char.isDigit := ⟨hne,List.all_eq_true.mpr hdigits⟩
  unfold parseAmountBase
  rw [htrim,String.toList_ofList]
  cases digits with
  | nil => exact absurd rfl hne
  | cons c rest =>
    have hminus : c ≠ '-' := by
      rintro rfl
      exact absurd (hdigits '-' List.mem_cons_self) (by decide)
    split
    · rename_i heq
      exact absurd (List.cons.inj heq).1 hminus
    · rw [if_pos hall]

theorem parseAmountBase_toString (n : Nat) : parseAmountBase (toString n) = .ok (n : Int) := by
  have hvalue : Nat.ofDigitChars 10 (Nat.toDigits 10 n) 0 = n :=
    Nat.ofDigitChars_toDigits (by omega) (by omega)
  have hparse := parseAmountBase_digits (Nat.toDigits_ne_nil : Nat.toDigits 10 n ≠ [])
    (toDigits_isDigit n)
  rw [hvalue] at hparse
  exact hparse

theorem outputAmount_of_text {output : DecodedDogecoinVout} {koinu : Nat}
    (h : output.value = formatKoinu (koinu : Int)) : outputAmount output = .ok (koinu : Int) := by
  unfold outputAmount requireAmountBase
  simp only
  rw [h,stringDecimalToBase_formatKoinu]
  simp only [bind,Except.bind,parseAmountBase_toString]

/-- The output that an input takes. -/
def spentKey : DogecoinVin → Option OutputKey
  | .coinbase => none
  | .output txid vout => some ⟨txid,vout⟩

def keyValue (L : CoinLedger) (k : OutputKey) : Nat := ((L.find k).map (·.valueBase)).getD 0

theorem spends_keys (height : Nat) (tx : DogecoinTransaction) :
    (buildTransactionSpends height tx).map (·.outputKey) = tx.vin.filterMap spentKey := by
  have hkey : ∀ input : DogecoinVin, ∀ inputIndex,
      (buildTransactionSpend tx.txid height inputIndex input).map (·.outputKey) =
        spentKey input := by
    intro input inputIndex
    cases input <;> rfl
  have hfst : tx.vin.filterMap spentKey = (tx.vin.zipIdx.map Prod.fst).filterMap spentKey := by
    rw [List.zipIdx_map_fst]
  unfold buildTransactionSpends
  rw [hfst,List.map_filterMap,List.filterMap_map]
  refine List.filterMap_congr fun entry _ => ?_
  exact hkey entry.1 entry.2

theorem inputKey_of_renders {raw : DecodedDogecoinVin} {txid : String} {vout : Nat}
    (h : RendersInput raw (.output txid vout)) : inputKey raw = .ok ⟨txid,vout⟩ := by
  cases h with
  | output text txid vout hregular htext htxid hne hvout =>
    unfold inputKey requireString requireNumber
    simp only [htext,Option.getD_some,htxid,if_neg hne,hvout,bind,Except.bind,pure,Except.pure]

theorem inputKeys_of_renders {raws : List DecodedDogecoinVin} {inputs : List DogecoinVin}
    (h : List.Forall₂ RendersInput raws inputs) :
    (raws.filter (!Snapshot.isCoinbaseInput ·)).mapM inputKey =
      .ok (inputs.filterMap spentKey) := by
  induction h with
  | nil => rfl
  | @cons raw input raws inputs hinput hrest ih =>
    cases hinput with
    | coinbase hcoinbase =>
      rw [List.filter_cons_of_neg (by simp [hcoinbase]),ih]
      rfl
    | output text txid vout hregular htext htxid hne hvout =>
      have hkey := inputKey_of_renders (.output text txid vout hregular htext htxid hne hvout)
      rw [List.filter_cons_of_pos (by simp [hregular]),List.mapM_cons,hkey,ih]
      rfl

theorem pageInputs_of_renders {raws : List DecodedDogecoinTransaction}
    {txs : List DogecoinTransaction} (h : List.Forall₂ Renders raws txs) :
    List.Forall₂ RendersInput (raws.flatMap (·.vin)) (txs.flatMap (·.vin)) := by
  induction h with
  | nil => exact .nil
  | cons htx _ ih => exact List.rel_append htx.vin ih

section Totals
variable {L : CoinLedger} {blocks : List OnlyDoge.ParsedDogecoinBlock} {w : Warehouse}

theorem latestCoreCreate_eq (hcoins : HasCoins w blocks) (hv : ValidBlocks .empty blocks L)
    (k : OutputKey) : w.latestCoreCreate k = L.find k := by
  have hcreated : L.created = blocks.flatMap blockCreates := hv.created
  have hnodup : (w.coreUtxoCreates.map (·.outputKey)).Nodup := by
    rw [hcoins.creates,← hcreated]
    exact L.created_nodup
  refine Option.ext fun c => ?_
  unfold Warehouse.latestCoreCreate
  rw [Replacing.latest_eq_some_of_nodup hnodup,hcoins.creates,← hcreated]
  exact Ledger.find_eq_some.symm

theorem loadResolvedInputs_of_renders (hcoins : HasCoins w blocks)
    (hv : ValidBlocks .empty blocks L) {raws : List DecodedDogecoinTransaction}
    {txs : List DogecoinTransaction} (h : List.Forall₂ Renders raws txs) :
    ∃ resolved, loadResolvedInputs w raws = .ok resolved ∧
      ∀ tx ∈ txs, ∀ k ∈ tx.vin.filterMap spentKey, resolved.get k = L.find k := by
  refine ⟨getCreatedUtxoOutputs w
    (OrderedMap.distinct ((txs.flatMap (·.vin)).filterMap spentKey)),?_,?_⟩
  · unfold loadResolvedInputs
    rw [inputKeys_of_renders (pageInputs_of_renders h)]
    rfl
  · intro tx htx k hk
    have hmem : k ∈ OrderedMap.distinct ((txs.flatMap (·.vin)).filterMap spentKey) := by
      rw [OrderedMap.mem_distinct,List.filterMap_flatMap]
      exact List.mem_flatMap.mpr ⟨tx,htx,hk⟩
    refine Option.ext fun c => ?_
    rw [getCreatedUtxoOutputs,OrderedMap.get_ofEntries_filterMap,latestCoreCreate_eq hcoins hv]
    simp [hmem]

/-- What a lookup says that an input is worth. -/
def inputAmount (resolved : OutputMap) (input : DogecoinVin) : Nat :=
  (((spentKey input).bind resolved.get).map (·.valueBase)).getD 0

theorem resolvedInputValue_of_renders (resolved : OutputMap) {raw : DecodedDogecoinVin}
    {input : DogecoinVin} (h : RendersInput raw input) :
    resolvedInputValue resolved raw = .ok (inputAmount resolved input : Int) := by
  unfold resolvedInputValue
  cases h with
  | coinbase hcoinbase => rw [if_pos hcoinbase]; rfl
  | output text txid vout hregular htext htxid hne hvout =>
    rw [if_neg (by simp [hregular]),
      inputKey_of_renders (.output text txid vout hregular htext htxid hne hvout)]
    unfold inputAmount spentKey resolvedInputAmount
    simp only [bind,Except.bind,pure,Except.pure,Option.bind]
    cases resolved.get ⟨txid,vout⟩ <;> rfl

theorem totalResolvedInputBase_of_renders {resolved : OutputMap} {raws : List DecodedDogecoinVin}
    {inputs : List DogecoinVin} (h : List.Forall₂ RendersInput raws inputs)
    (hresolved : ∀ k ∈ inputs.filterMap spentKey, resolved.get k = L.find k) :
    totalResolvedInputBase raws resolved =
      .ok (((inputs.filterMap spentKey).map (keyValue L)).sum : Nat) := by
  have hsum : (inputs.map (inputAmount resolved)).sum =
      ((inputs.filterMap spentKey).map (keyValue L)).sum := by
    clear h
    induction inputs with
    | nil => rfl
    | cons input inputs ih =>
      rw [List.map_cons,List.sum_cons]
      cases hkey : spentKey input with
      | none =>
        rw [List.filterMap_cons_none hkey] at hresolved ⊢
        rw [ih hresolved]
        simp [inputAmount,hkey]
      | some k =>
        rw [List.filterMap_cons_some hkey] at hresolved ⊢
        rw [List.map_cons,List.sum_cons,ih fun j hj => hresolved j (List.mem_cons_of_mem _ hj)]
        simp [inputAmount,keyValue,hkey,hresolved k List.mem_cons_self]
  have htotal := Folding.foldlM_add (h.imp fun _ _ => resolvedInputValue_of_renders resolved) 0
  rw [Int.zero_add,hsum] at htotal
  exact htotal

theorem totalOutputBase_of_renders {raws : List DecodedDogecoinVout} {outputs : List DogecoinVout}
    (h : List.Forall₂ (fun raw output => raw.value = formatKoinu (output.valueBase : Int)) raws
      outputs) : totalOutputBase raws = .ok ((outputs.map (·.valueBase)).sum : Nat) := by
  have htotal := Folding.foldlM_add (h.imp fun _ _ => outputAmount_of_text) 0
  rw [Int.zero_add] at htotal
  exact htotal

theorem isCoinbase_of_renders {raws : List DecodedDogecoinVin} {inputs : List DogecoinVin}
    (h : List.Forall₂ RendersInput raws inputs) :
    raws.any Snapshot.isCoinbaseInput = inputs.any isCoinbaseInput := by
  induction h with
  | nil => rfl
  | cons hinput _ ih =>
    rw [List.any_cons,List.any_cons,ih]
    cases hinput with
    | coinbase hcoinbase => rw [hcoinbase]; rfl
    | output text txid vout hregular htext htxid hne hvout => rw [hregular]; rfl

/-- The summary of a transaction whose inputs are worth what the chain gave them. -/
def chainSummary (L : CoinLedger) (block : OnlyDoge.ParsedDogecoinBlock) (tx : DogecoinTransaction)
    (txIndex : Nat) : ExplorerTransactionSummary :=
  let totalInput : Nat := ((tx.vin.filterMap spentKey).map (keyValue L)).sum
  let totalOutput : Nat := (tx.vout.map (·.valueBase)).sum
  { txid := tx.txid
    txIndex := txIndex
    blockHeight := block.height
    blockHash := block.hash
    blockTime := block.time
    isCoinbase := hasCoinbaseInput tx
    inputCount := tx.vin.length
    outputCount := tx.vout.length
    totalInputBase := formatAmountBase totalInput
    totalOutputBase := formatAmountBase totalOutput
    feeBase := transactionFeeBase (hasCoinbaseInput tx) totalInput totalOutput }

theorem serializeTransactionSummary_of_renders {rawBlock : ParsedDogecoinBlock}
    {block : OnlyDoge.ParsedDogecoinBlock} (hblock : RendersBlock rawBlock block)
    {raw : DecodedDogecoinTransaction} {tx : DogecoinTransaction} (h : Renders raw tx)
    {resolved : OutputMap} (hresolved : ∀ k ∈ tx.vin.filterMap spentKey,
      resolved.get k = L.find k) (txIndex : Nat) :
    serializeTransactionSummary rawBlock raw txIndex resolved =
      .ok (chainSummary L block tx txIndex) := by
  unfold serializeTransactionSummary requireString
  simp only [Option.getD_some,bind,Except.bind,pure,Except.pure,
    totalResolvedInputBase_of_renders h.vin hresolved,totalOutputBase_of_renders h.vout,
    isCoinbase_of_renders h.vin,h.vin.length_eq,h.vout.length_eq,h.txid,hblock.hash,hblock.height,
    hblock.time,if_neg h.named]
  rfl

/-- `getTransaction` shows what the chain says. -/
theorem transactionSummary_of_renders (hcoins : HasCoins w blocks)
    (hv : ValidBlocks .empty blocks L) {rawBlock : ParsedDogecoinBlock}
    {block : OnlyDoge.ParsedDogecoinBlock} (hblock : RendersBlock rawBlock block)
    {raw : DecodedDogecoinTransaction} {tx : DogecoinTransaction} (h : Renders raw tx)
    (txIndex : Nat) :
    transactionSummary w rawBlock raw txIndex = .ok (chainSummary L block tx txIndex) := by
  obtain ⟨resolved,hload,hresolved⟩ :=
    loadResolvedInputs_of_renders hcoins hv (List.Forall₂.cons h .nil)
  unfold transactionSummary
  simp only [hload,bind,Except.bind]
  exact serializeTransactionSummary_of_renders hblock h (hresolved tx List.mem_cons_self) txIndex

/-- Each page of `getBlock` shows what the chain says of its transactions. -/
theorem blockTransactionSummaries_of_renders (hcoins : HasCoins w blocks)
    (hv : ValidBlocks .empty blocks L) {rawBlock : ParsedDogecoinBlock}
    {block : OnlyDoge.ParsedDogecoinBlock} (hblock : RendersBlock rawBlock block)
    (offset limit : Nat) : blockTransactionSummaries w rawBlock offset limit =
      .ok ((((block.tx.drop offset).take limit).zipIdx).map fun (tx,txIndex) =>
        chainSummary L block tx (offset + txIndex)) := by
  have hpage : List.Forall₂ Renders ((rawBlock.tx.drop offset).take limit)
      ((block.tx.drop offset).take limit) :=
    List.forall₂_take limit (List.forall₂_drop offset hblock.tx)
  obtain ⟨resolved,hload,hresolved⟩ := loadResolvedInputs_of_renders hcoins hv hpage
  unfold blockTransactionSummaries
  simp only [hload,bind,Except.bind]
  refine Folding.mapM_zipIdx hpage (fun raw tx htx txIndex hraw => ?_) 0
  exact serializeTransactionSummary_of_renders hblock hraw (hresolved tx htx) _

end Totals

section Stored
variable {L : CoinLedger} {blocks : List OnlyDoge.ParsedDogecoinBlock}
variable {block : OnlyDoge.ParsedDogecoinBlock} {tx : DogecoinTransaction} {txIndex : Nat}

theorem filter_flatMap_single {α β : Type} {f : α → List β} {p : β → Bool} {xs : List α} {x : α}
    (hnodup : xs.Nodup) (hx : x ∈ xs) (hown : ∀ y ∈ f x, p y)
    (hother : ∀ x' ∈ xs, x' ≠ x → ∀ y ∈ f x', p y = false) : (xs.flatMap f).filter p = f x := by
  obtain ⟨front,back,rfl⟩ := List.append_of_mem hx
  rw [List.nodup_append,List.nodup_cons] at hnodup
  obtain ⟨-,⟨hback,-⟩,hfront⟩ := hnodup
  have hnone {rest : List α} (hsub : ∀ x' ∈ rest, x' ∈ front ++ x::back) (hne : x ∉ rest) :
      (rest.flatMap f).filter p = [] := by
    rw [List.filter_eq_nil_iff]
    intro y hy
    obtain ⟨x',hx',hy⟩ := List.mem_flatMap.mp hy
    rw [hother x' (hsub x' hx') (fun heq => hne (heq ▸ hx')) y hy]
    exact Bool.false_ne_true
  rw [List.flatMap_append,List.flatMap_cons,List.filter_append,List.filter_append,
    List.filter_eq_self.mpr hown,hnone (fun x' h => List.mem_append_left _ h)
      (fun h => hfront x h x List.mem_cons_self rfl),
    hnone (fun x' h => List.mem_append_right _ (List.mem_cons_of_mem _ h)) hback,
    List.append_nil,List.nil_append]

theorem zipIdx_nodup {α : Type} (xs : List α) : xs.zipIdx.Nodup := by
  refine List.Nodup.of_map Prod.snd ?_
  rw [List.zipIdx_map_snd]
  exact List.nodup_range'

theorem txid_ne_of_place (hv : ValidBlocks .empty blocks L) (hpays : PaysOut blocks)
    (hb : block ∈ blocks) (htx : (tx,txIndex) ∈ block.tx.zipIdx)
    {entry : DogecoinTransaction × Nat} (hentry : entry ∈ block.tx.zipIdx)
    (hne : entry ≠ (tx,txIndex)) : entry.1.txid ≠ tx.txid := by
  intro htxid
  obtain ⟨-,htx',hindex⟩ := hv.transaction_place hpays hb hb hentry htx htxid
  exact hne (Prod.ext htx' hindex)

theorem transactionOutputs_eq (hv : ValidBlocks .empty blocks L) (hpays : PaysOut blocks)
    (hb : block ∈ blocks) (htx : (tx,txIndex) ∈ block.tx.zipIdx) :
    transactionOutputs block tx.txid = buildTransactionOutputs block tx txIndex := by
  have htxid : ∀ entry : DogecoinTransaction × Nat, ∀ c ∈ buildTransactionOutputs block entry.1
      entry.2, c.txid = entry.1.txid := by
    intro entry c hc
    obtain ⟨_,-,rfl⟩ := List.mem_map.mp hc
    rfl
  refine filter_flatMap_single (zipIdx_nodup _) htx ?_ ?_
  · exact fun c hc => decide_eq_true (htxid (tx,txIndex) c hc)
  · intro entry hentry hne c hc
    rw [decide_eq_false_iff_not,htxid entry c hc]
    exact txid_ne_of_place hv hpays hb htx hentry hne

theorem transactionSpends_eq (hv : ValidBlocks .empty blocks L) (hpays : PaysOut blocks)
    (hb : block ∈ blocks) (htx : (tx,txIndex) ∈ block.tx.zipIdx) :
    transactionSpends block tx.txid = buildTransactionSpends block.height tx := by
  have htxid : ∀ tx : DogecoinTransaction, ∀ s ∈ buildTransactionSpends block.height tx,
      s.spentByTxid = tx.txid := by
    intro tx s hs
    obtain ⟨⟨input,inputIndex⟩,-,hspend⟩ := List.mem_filterMap.mp hs
    cases input with
    | coinbase => cases hspend
    | output vinTxid vout =>
      cases hspend
      rfl
  have hblock : blockSpends block =
      block.tx.zipIdx.flatMap fun entry => buildTransactionSpends block.height entry.1 := by
    have hfst := congrArg (List.flatMap (buildTransactionSpends block.height))
      (List.zipIdx_map_fst 0 block.tx)
    rw [List.flatMap_map] at hfst
    exact hfst.symm
  unfold transactionSpends
  rw [hblock]
  refine @filter_flatMap_single _ _ _ _ _ (tx,txIndex) (zipIdx_nodup _) htx ?_ ?_
  · exact fun s hs => decide_eq_true (htxid tx s hs)
  · intro entry hentry hne s hs
    rw [decide_eq_false_iff_not,htxid entry.1 s hs]
    exact txid_ne_of_place hv hpays hb htx hentry hne

theorem chainTotals_eq (hv : ValidBlocks .empty blocks L) (hpays : PaysOut blocks)
    (hb : block ∈ blocks) (htx : (tx,txIndex) ∈ block.tx.zipIdx) :
    chainTotals L block tx.txid =
      ⟨hasCoinbaseInput tx,(tx.vin.filterMap spentKey).length,tx.vout.length,
        ((tx.vin.filterMap spentKey).map (keyValue L)).sum,(tx.vout.map (·.valueBase)).sum,
        analyticsFeeBase (hasCoinbaseInput tx) ((tx.vin.filterMap spentKey).map (keyValue L)).sum
          (tx.vout.map (·.valueBase)).sum⟩ := by
  have hvalues : (buildTransactionOutputs block tx txIndex).map (·.valueBase) =
      tx.vout.map (·.valueBase) := by
    have hfst := congrArg (List.map (·.valueBase)) (List.zipIdx_map_fst 0 tx.vout)
    rw [List.map_map] at hfst
    unfold buildTransactionOutputs
    rw [List.map_map]
    exact hfst
  have hcoinbase : (buildTransactionOutputs block tx txIndex).any (·.isCoinbase) =
      hasCoinbaseInput tx := by
    have hsame : ∀ c ∈ buildTransactionOutputs block tx txIndex,
        c.isCoinbase = hasCoinbaseInput tx := by
      intro c hc
      obtain ⟨_,-,rfl⟩ := List.mem_map.mp hc
      rfl
    obtain ⟨c,hc⟩ : ∃ c, c ∈ buildTransactionOutputs block tx txIndex := by
      refine List.exists_mem_of_ne_nil _ ?_
      have hvout := hpays block hb tx (List.fst_mem_of_mem_zipIdx htx)
      simpa [buildTransactionOutputs] using hvout
    rw [Bool.eq_iff_iff,List.any_eq_true]
    constructor
    · rintro ⟨d,hd,htrue⟩
      rw [← hsame d hd]
      exact htrue
    · exact fun htrue => ⟨c,hc,(hsame c hc).trans htrue⟩
  have hkeys := spends_keys block.height tx
  have hspent : totalSpent L (buildTransactionSpends block.height tx) =
      ((tx.vin.filterMap spentKey).map (keyValue L)).sum := by
    rw [← hkeys,List.map_map]
    rfl
  have hlength := congrArg List.length hkeys
  rw [List.length_map] at hlength
  have houtputs : (buildTransactionOutputs block tx txIndex).length = tx.vout.length := by
    simp [buildTransactionOutputs]
  unfold chainTotals totalsOf
  rw [transactionOutputs_eq hv hpays hb htx,transactionSpends_eq hv hpays hb htx,hcoinbase,hvalues,
    hspent,hlength,houtputs]

theorem inputCount_eq_iff (inputs : List DogecoinVin) :
    inputs.length = (inputs.filterMap spentKey).length ↔ inputs.any isCoinbaseInput = false := by
  have hle : (inputs.filterMap spentKey).length ≤ inputs.length := List.length_filterMap_le _ _
  induction inputs with
  | nil => simp
  | cons input inputs ih =>
    have hrest : (inputs.filterMap spentKey).length ≤ inputs.length := List.length_filterMap_le _ _
    cases input with
    | coinbase =>
      simp only [List.filterMap_cons_none (rfl : spentKey .coinbase = none),List.length_cons,
        List.any_cons,isCoinbaseInput,Bool.true_or,Bool.true_eq_false,iff_false]
      omega
    | output txid vout =>
      have hih := ih hrest
      rw [List.filterMap_cons_some (rfl : spentKey (.output txid vout) = some ⟨txid,vout⟩),
        List.length_cons,List.length_cons,List.any_cons,isCoinbaseInput,Bool.false_or,
        Nat.succ_inj]
      exact hih

theorem agree_iff (hv : ValidBlocks .empty blocks L) (hpays : PaysOut blocks)
    (hb : block ∈ blocks) (htx : (tx,txIndex) ∈ block.tx.zipIdx) {row : AddressTransactionRow}
    (hrow : (⟨row.isCoinbase,row.inputCount,row.outputCount,row.totalInputBase,row.totalOutputBase,
      row.feeBase⟩ : TransactionTotals) = chainTotals L block tx.txid) :
    Agree (chainSummary L block tx txIndex) (addressTransactionSummaryFromFacts row).transaction ↔
      hasCoinbaseInput tx = false := by
  rw [chainTotals_eq hv hpays hb htx] at hrow
  obtain ⟨summary,isCoinbase,inputCount,outputCount,totalInput,totalOutput,feeBase⟩ := row
  simp only [TransactionTotals.mk.injEq] at hrow
  obtain ⟨rfl,rfl,rfl,rfl,rfl,rfl⟩ := hrow
  constructor
  · exact fun h => (inputCount_eq_iff tx.vin).mp h.inputCount
  · intro hregular
    refine ⟨rfl,(inputCount_eq_iff tx.vin).mpr hregular,rfl,rfl,rfl,?_⟩
    simp only [chainSummary,addressTransactionSummaryFromFacts,transactionFeeBase,analyticsFeeBase,
      Int.natCast_eq_zero]
    split <;> rfl

end Stored

section Run
variable {L : CoinLedger} {base windows : List (List OnlyDoge.ParsedDogecoinBlock)} {w : Warehouse}
variable {block : OnlyDoge.ParsedDogecoinBlock} {txid : String}

theorem exists_transactionFact
    (hfacts : HasFacts w (base.map backfillFacts ++ windows.map (onlineFacts L)))
    (hb : block ∈ base.flatten ++ windows.flatten) (hne : transactionOutputs block txid ≠ []) :
    ∃ row, row ∈ w.transactionFacts block txid := by
  rcases List.mem_append.mp hb with hb | hb
  · obtain ⟨window,hw,hbw⟩ := List.mem_flatten.mp hb
    exact ⟨_,List.mem_filter.mpr ⟨(mem_runFacts hfacts).mpr
      (Or.inl ⟨window,hw,block,hbw,txid,hne,rfl⟩),decide_eq_true ⟨rfl,rfl,rfl⟩⟩⟩
  · obtain ⟨window,hw,hbw⟩ := List.mem_flatten.mp hb
    exact ⟨_,List.mem_filter.mpr ⟨(mem_runFacts hfacts).mpr
      (Or.inr ⟨window,hw,block,hbw,txid,hne,rfl⟩),decide_eq_true ⟨rfl,rfl,rfl⟩⟩⟩

/-- The listed row of a transaction carries its totals when its window had all previous outputs. -/
theorem addressTransactionRow_totals (hv : ValidBlocks .empty (base.flatten ++ windows.flatten) L)
    (hfacts : HasFacts w (base.map backfillFacts ++ windows.map (onlineFacts L)))
    (hb : block ∈ base.flatten ++ windows.flatten) (hne : transactionOutputs block txid ≠ [])
    (hresolved : ∀ window ∈ base, block ∈ window → earlierSpends window block txid = [])
    {summary : AddressTransactionSummary} (hheight : summary.blockHeight = block.height)
    (hhash : summary.blockHash = block.hash) (htxid : summary.txid = txid) :
    ∃ fact : AnalyticsTransactionFact, fact.totals = chainTotals L block txid ∧
      w.addressTransactionRow summary = ⟨summary,fact.isCoinbase,fact.inputCount,fact.outputCount,
        fact.totalInputBase,fact.grossOutputBase,fact.feeBase⟩ := by
  have hexact := transactionFacts_exact hv hfacts hb fun window hw hbw => by
    rw [hresolved window hw hbw]
    rfl
  obtain ⟨row,hrow⟩ := exists_transactionFact hfacts hb hne
  obtain ⟨hmem,hkey⟩ := List.mem_filter.mp hrow
  unfold Warehouse.addressTransactionRow Warehouse.addressTransactionFact
  rw [hheight,hhash,htxid]
  cases hlatest : Replacing.latest (fun fact : AnalyticsTransactionFact =>
      (fact.blockHeight,fact.blockHash,fact.txid)) (·.version) w.analyticsTransactions
        (block.height,block.hash,txid) with
  | none =>
    obtain ⟨h1,h2,h3⟩ := of_decide_eq_true hkey
    exact absurd (by rw [h1,h2,h3]) (Replacing.latest_eq_none.mp hlatest row hmem)
  | some fact =>
    obtain ⟨hfact,hplace,-⟩ := Replacing.latest_spec hlatest
    obtain ⟨h1,h2⟩ := Prod.mk.inj hplace
    obtain ⟨h2,h3⟩ := Prod.mk.inj h2
    exact ⟨fact,hexact fact (List.mem_filter.mpr ⟨hfact,decide_eq_true ⟨h1,h2,h3⟩⟩),rfl⟩

/-- The explorer's two summaries of a transaction: from the raw block, alone or on a page, and
from the stored fact. They agree unless the transaction has a coinbase input, which the raw block
counts as an input and the fact does not. -/
theorem summaries_agree_iff (boundaries : Warehouse → List String)
    {backfill online : CoreDogecoinApplyContext}
    (base windows : List (List OnlyDoge.ParsedDogecoinBlock)) {L : CoinLedger}
    (hback : shouldUpdateCoreCurrentState backfill = false)
    (honline : shouldUpdateCoreCurrentState online)
    (hv : ValidBlocks .empty (base.flatten ++ windows.flatten) L)
    (hpays : PaysOut (base.flatten ++ windows.flatten))
    (hresolved : ∀ window ∈ base, ∀ block ∈ window, ∀ tx ∈ block.tx,
      earlierSpends window block tx.txid = []) :
    ∃ w, (applyChainWindows boundaries backfill online base windows).run emptyWarehouse [] =
        (.value (),w,[]) ∧
      ∀ block ∈ base.flatten ++ windows.flatten, ∀ rawBlock, RendersBlock rawBlock block →
        ∀ raw tx txIndex, (tx,txIndex) ∈ block.tx.zipIdx → Renders raw tx →
        ∀ listed : AddressTransactionSummary, listed.blockHeight = block.height →
          listed.blockHash = block.hash → listed.txid = tx.txid →
        ∃ summary, transactionSummary w rawBlock raw txIndex = .ok summary ∧
          (∀ offset limit, offset ≤ txIndex → txIndex < offset + limit →
            ∃ page, blockTransactionSummaries w rawBlock offset limit = .ok page ∧
              page[txIndex - offset]? = some summary) ∧
          (Agree summary
              (addressTransactionSummaryFromFacts (w.addressTransactionRow listed)).transaction ↔
            hasCoinbaseInput tx = false) := by
  obtain ⟨w,hrun,hcoins,hfacts⟩ := applyChainWindows_coins boundaries base windows hback honline hv
  refine ⟨w,hrun,?_⟩
  intro block hb rawBlock hblock raw tx txIndex htx hraw listed hheight hhash htxid
  have hmem := List.fst_mem_of_mem_zipIdx htx
  obtain ⟨c,hc,-,hctxid,-⟩ := exists_firstOutput htx (hpays block hb tx hmem)
  have hne : transactionOutputs block tx.txid ≠ [] :=
    List.ne_nil_of_mem (List.mem_filter.mpr ⟨hc,decide_eq_true hctxid⟩)
  obtain ⟨fact,htotals,hrow⟩ := addressTransactionRow_totals hv hfacts hb hne
    (fun window hw hbw => hresolved window hw block hbw tx hmem) hheight hhash htxid
  refine ⟨chainSummary L block tx txIndex,
    transactionSummary_of_renders hcoins hv hblock hraw txIndex,?_,?_⟩
  · intro offset limit hfrom hto
    refine ⟨_,blockTransactionSummaries_of_renders hcoins hv hblock offset limit,?_⟩
    have hget : block.tx[txIndex]? = some tx := List.mk_mem_zipIdx_iff_getElem?.mp htx
    have hplace : offset + (txIndex - offset) = txIndex := by omega
    have hpage : ((block.tx.drop offset).take limit)[txIndex - offset]? = some tx := by
      rw [List.getElem?_take_of_lt (by omega),List.getElem?_drop,hplace,hget]
    rw [List.getElem?_map,List.getElem?_zipIdx,hpage]
    simp only [Option.map_some,Nat.zero_add,hplace]
  · rw [hrow]
    exact agree_iff hv hpays hb htx htotals

/-- The first of the payment blocks as the node reports it. -/
def rawCoinbase : DecodedDogecoinTransaction :=
  ⟨"c0",0,0,"c0",1,[⟨some "04ff",none,0,none,none⟩],
    [⟨0,⟨none,"",none,.pubkeyhash⟩,formatKoinu 50⟩,⟨1,⟨none,"",none,.pubkeyhash⟩,formatKoinu 60⟩]⟩

def rawPaymentBlock : ParsedDogecoinBlock := ⟨"b0",0,100,[rawCoinbase]⟩

theorem rawCoinbase_renders :
    Renders rawCoinbase ⟨"c0",[.coinbase],
      [⟨some 0,50,"A","pubkeyhash"⟩,⟨some 1,60,"A","pubkeyhash"⟩]⟩ :=
  ⟨by decide,by decide,.cons (.coinbase (by decide)) .nil,.cons rfl (.cons rfl .nil)⟩

theorem rawPaymentBlock_renders :
    RendersBlock rawPaymentBlock (paymentBlocks.head (by decide)) :=
  ⟨rfl,rfl,rfl,.cons rawCoinbase_renders .nil⟩

theorem summaries_agree_iff_paymentBlocks : ∃ w,
    (applyChainWindows (fun _ => []) ⟨some false,none⟩ ⟨some true,none⟩ [paymentBlocks.take 1]
      [paymentBlocks.drop 1]).run emptyWarehouse [] = (.value (),w,[]) ∧
    ∀ block ∈ paymentBlocks, ∀ rawBlock, RendersBlock rawBlock block →
      ∀ raw tx txIndex, (tx,txIndex) ∈ block.tx.zipIdx → Renders raw tx →
      ∀ listed : AddressTransactionSummary, listed.blockHeight = block.height →
        listed.blockHash = block.hash → listed.txid = tx.txid →
      ∃ summary, transactionSummary w rawBlock raw txIndex = .ok summary ∧
        (∀ offset limit, offset ≤ txIndex → txIndex < offset + limit →
          ∃ page, blockTransactionSummaries w rawBlock offset limit = .ok page ∧
            page[txIndex - offset]? = some summary) ∧
        (Agree summary
            (addressTransactionSummaryFromFacts (w.addressTransactionRow listed)).transaction ↔
          hasCoinbaseInput tx = false) :=
  summaries_agree_iff (fun _ => []) [paymentBlocks.take 1] [paymentBlocks.drop 1]
    (rfl : shouldUpdateCoreCurrentState ⟨some false,none⟩ = false)
    (rfl : shouldUpdateCoreCurrentState ⟨some true,none⟩ = true) paymentBlocks_valid (by decide)
    (by decide)

/-- The coinbase of the first payment block has one input on its own page and none in the list of
its address. -/
theorem coinbase_has_two_summaries : ∃ w,
    (applyChainWindows (fun _ => []) ⟨some false,none⟩ ⟨some true,none⟩ [paymentBlocks.take 1]
      [paymentBlocks.drop 1]).run emptyWarehouse [] = (.value (),w,[]) ∧
    ∃ summary, transactionSummary w rawPaymentBlock rawCoinbase 0 = .ok summary ∧
      summary.inputCount = 1 ∧
      (addressTransactionSummaryFromFacts
        (w.addressTransactionRow ⟨"b0",0,100,"c0",0,110,0⟩)).transaction.inputCount = 0 ∧
      ¬Agree summary (addressTransactionSummaryFromFacts
        (w.addressTransactionRow ⟨"b0",0,100,"c0",0,110,0⟩)).transaction := by
  obtain ⟨w,hrun,hcoins,hfacts⟩ := applyChainWindows_coins (fun _ => []) [paymentBlocks.take 1]
    [paymentBlocks.drop 1] (rfl : shouldUpdateCoreCurrentState ⟨some false,none⟩ = false)
    (rfl : shouldUpdateCoreCurrentState ⟨some true,none⟩ = true) paymentBlocks_valid
  obtain ⟨fact,htotals,hrow⟩ := @addressTransactionRow_totals paymentLedger [paymentBlocks.take 1]
    [paymentBlocks.drop 1] w (paymentBlocks.head (by decide)) "c0" paymentBlocks_valid hfacts
    (by decide) (by decide) (by decide) ⟨"b0",0,100,"c0",0,110,0⟩ rfl rfl rfl
  have hcount : fact.inputCount = 0 := congrArg TransactionTotals.inputCount htotals
  have hlisted : (addressTransactionSummaryFromFacts
      (w.addressTransactionRow ⟨"b0",0,100,"c0",0,110,0⟩)).transaction.inputCount = 0 := by
    rw [hrow]
    exact hcount
  refine ⟨w,hrun,_,transactionSummary_of_renders hcoins paymentBlocks_valid
    rawPaymentBlock_renders rawCoinbase_renders 0,rfl,hlisted,fun hagree => ?_⟩
  have hsame := hagree.inputCount
  rw [hlisted] at hsame
  exact absurd hsame (by decide)

end Run

end OnlyDoge.Explorer
