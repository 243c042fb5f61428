import OnlyDoge.Warehouse.Fees
import OnlyDoge.Warehouse.Movements
set_option autoImplicit false

/-!
What a transaction amounts to on the chain, the fact rows that say so, and the outputs and spends
that a run leaves in the core tables.
-/

namespace OnlyDoge
open Job

structure TransactionTotals where
  isCoinbase : Bool
  inputCount : Nat
  outputCount : Nat
  totalInputBase : Nat
  totalOutputBase : Nat
  feeBase : Option Int
  deriving DecidableEq,Repr

def AnalyticsTransactionFact.totals (row : AnalyticsTransactionFact) : TransactionTotals :=
  ⟨row.isCoinbase,row.inputCount,row.outputCount,row.totalInputBase,row.grossOutputBase,row.feeBase⟩

/-- The totals of a list of outputs whose inputs are this many and worth this much. -/
def totalsOf (outputs : List ProjectionUtxoOutput) (inputCount totalInput : Nat) :
    TransactionTotals :=
  ⟨outputs.any (·.isCoinbase),inputCount,outputs.length,totalInput,(outputs.map (·.valueBase)).sum,
    analyticsFeeBase (outputs.any (·.isCoinbase)) totalInput (outputs.map (·.valueBase)).sum⟩

/-- The totals of a transaction with each of its inputs at the value that the chain gave it. -/
def chainTotals (L : CoinLedger) (block : ParsedDogecoinBlock) (txid : String) :
    TransactionTotals :=
  totalsOf (transactionOutputs block txid) (transactionSpends block txid).length
    (totalSpent L (transactionSpends block txid))

theorem totalsOf_perm {xs ys : List ProjectionUtxoOutput} (h : xs.Perm ys)
    (inputCount totalInput : Nat) :
    totalsOf xs inputCount totalInput = totalsOf ys inputCount totalInput := by
  unfold totalsOf
  rw [h.any_eq,h.length_eq,(h.map _).sum_eq]

section Rows
variable {L : CoinLedger} {blocks window : List ParsedDogecoinBlock} {block : ParsedDogecoinBlock}
variable {createdOutputs prevouts : OutputMap} {txid : String}

theorem transactionRow_totals (h : transactionOutputs block txid ≠ []) :
    (transactionRow createdOutputs prevouts block txid h).totals =
      totalsOf (transactionOutputs block txid) (transactionSpends block txid).length
        (transactionRow createdOutputs prevouts block txid h).totalInputBase := by
  have hperm : (sortOutputsByVout (transactionOutputs block txid)).Perm
      (transactionOutputs block txid) := List.perm_insertionSort _ _
  rw [← totalsOf_perm hperm]
  rfl

/-- A row says what the transaction amounts to exactly when it counts every input in full. -/
theorem transactionRow_totals_iff (h : transactionOutputs block txid ≠ []) :
    (transactionRow createdOutputs prevouts block txid h).totals = chainTotals L block txid ↔
      (transactionRow createdOutputs prevouts block txid h).totalInputBase =
        totalSpent L (transactionSpends block txid) := by
  rw [transactionRow_totals]
  constructor
  · intro heq
    exact congrArg TransactionTotals.totalInputBase heq
  · intro heq
    rw [heq,chainTotals]

theorem transactionRow_totals_of_values (h : transactionOutputs block txid ≠ [])
    (hvalue : ∀ s ∈ transactionSpends block txid,
      coreSpendValue createdOutputs prevouts s = spentValue L s) :
    (transactionRow createdOutputs prevouts block txid h).totals = chainTotals L block txid := by
  rw [transactionRow_totals_iff,totalInputBase_eq,totalSpent]
  exact congrArg List.sum (List.map_congr_left hvalue)

theorem totals_online (hv : ValidBlocks .empty blocks L) (hsub : ∀ b ∈ window, b ∈ blocks)
    (hb : block ∈ window) (h : transactionOutputs block txid ≠ []) :
    (transactionRow (coreCreatedOutputsByKey (window.map coreBlockApplication))
      (chainPrevouts L window) block txid h).totals = chainTotals L block txid :=
  (transactionRow_totals_iff h).mpr (totalInputBase_online hv hsub hb txid h)

/-- A backfill window counts what its own outputs are worth: it is exact when the inputs from
earlier windows are worth nothing. -/
theorem totals_backfill_iff (hv : ValidBlocks .empty blocks L) (hsub : ∀ b ∈ window, b ∈ blocks)
    (h : transactionOutputs block txid ≠ []) :
    (transactionRow (coreCreatedOutputsByKey (window.map coreBlockApplication)) .empty block txid
      h).totals = chainTotals L block txid ↔
        totalSpent L (earlierSpends window block txid) = 0 := by
  rw [transactionRow_totals_iff,totalInputBase_backfill hv hsub]
  have hsplit := totalSpent_split L window block txid
  omega

end Rows

/-- Every transaction has an output, without which no node accepts it. -/
def PaysOut (blocks : List ParsedDogecoinBlock) : Prop :=
  ∀ block ∈ blocks, ∀ tx ∈ block.tx, tx.vout ≠ []

instance decidablePaysOut : DecidablePred PaysOut := fun blocks =>
  inferInstanceAs (Decidable (∀ block ∈ blocks, ∀ tx ∈ block.tx, tx.vout ≠ []))

section Places
variable {L : CoinLedger} {blocks : List ParsedDogecoinBlock} {block block' : ParsedDogecoinBlock}
variable {txid : String}

theorem blockCreates_hash {output : ProjectionUtxoOutput} (h : output ∈ blockCreates block) :
    output.blockHash = block.hash := by
  obtain ⟨_,_,_,_,-,-,rfl⟩ := mem_blockCreates h
  rfl

theorem exists_firstOutput {tx : DogecoinTransaction} {txIndex : Nat}
    (htx : (tx,txIndex) ∈ block.tx.zipIdx) (hvout : tx.vout ≠ []) :
    ∃ output ∈ blockCreates block, output.outputKey = ⟨tx.txid,0⟩ ∧ output.txid = tx.txid ∧
      output.txIndex = txIndex := by
  cases hlist : tx.vout with
  | nil => exact absurd hlist hvout
  | cons first rest =>
    refine ⟨buildTransactionOutput block tx txIndex first 0,?_,rfl,rfl,rfl⟩
    refine List.mem_flatMap.mpr ⟨(tx,txIndex),htx,List.mem_map.mpr ⟨(first,0),?_,rfl⟩⟩
    rw [hlist]
    exact List.mem_cons_self

theorem ValidBlocks.transaction_place (hv : ValidBlocks .empty blocks L) (hpays : PaysOut blocks)
    (hb : block ∈ blocks) (hb' : block' ∈ blocks) {tx tx' : DogecoinTransaction}
    {txIndex txIndex' : Nat} (htx : (tx,txIndex) ∈ block.tx.zipIdx)
    (htx' : (tx',txIndex') ∈ block'.tx.zipIdx) (htxid : tx.txid = tx'.txid) :
    block = block' ∧ tx = tx' ∧ txIndex = txIndex' := by
  obtain ⟨c,hc,-,hctxid,hcindex⟩ :=
    exists_firstOutput htx (hpays block hb tx (List.fst_mem_of_mem_zipIdx htx))
  obtain ⟨d,hd,-,hdtxid,hdindex⟩ :=
    exists_firstOutput htx' (hpays block' hb' tx' (List.fst_mem_of_mem_zipIdx htx'))
  have hplace := hv.create_place (List.mem_flatMap.mpr ⟨block,hb,hc⟩)
    (List.mem_flatMap.mpr ⟨block',hb',hd⟩) (by rw [hctxid,hdtxid,htxid])
  have hheight : block.height = block'.height := by
    rw [← blockCreates_height hc,← blockCreates_height hd]
    exact congrArg AddressTransactionGroup.blockHeight hplace
  have hindex : txIndex = txIndex' := by
    rw [← hcindex,← hdindex]
    exact congrArg AddressTransactionGroup.txIndex hplace
  obtain rfl := eq_of_height_eq hv.linked hb hb' hheight
  subst hindex
  rw [List.mk_mem_zipIdx_iff_getElem?] at htx htx'
  rw [htx] at htx'
  exact ⟨rfl,Option.some.inj htx',rfl⟩

theorem ValidBlocks.mem_transactionOutputs (hv : ValidBlocks .empty blocks L)
    (hb : block ∈ blocks) (hne : transactionOutputs block txid ≠ []) {c : ProjectionUtxoOutput} :
    c ∈ blocks.flatMap blockCreates ∧ c.txid = txid ↔ c ∈ transactionOutputs block txid := by
  unfold transactionOutputs
  rw [List.mem_filter,decide_eq_true_eq]
  refine and_congr_left fun htxid => ⟨fun hc => ?_,fun hc => List.mem_flatMap.mpr ⟨block,hb,hc⟩⟩
  obtain ⟨d,hd⟩ := List.exists_mem_of_ne_nil _ hne
  obtain ⟨hd,hdtxid⟩ := List.mem_filter.mp hd
  obtain ⟨block',hb',hc'⟩ := List.mem_flatMap.mp hc
  have hplace := hv.create_place hc (List.mem_flatMap.mpr ⟨block,hb,hd⟩)
    (by rw [htxid,of_decide_eq_true hdtxid])
  have hheight : block'.height = block.height := by
    rw [← blockCreates_height hc',← blockCreates_height hd]
    exact congrArg AddressTransactionGroup.blockHeight hplace
  obtain rfl := eq_of_height_eq hv.linked hb' hb hheight
  exact hc'

theorem ValidBlocks.mem_transactionSpends (hv : ValidBlocks .empty blocks L)
    (hpays : PaysOut blocks) (hb : block ∈ blocks) (hne : transactionOutputs block txid ≠ [])
    {s : CoreDogecoinSpend} :
    s ∈ blocks.flatMap blockSpends ∧ s.spentByTxid = txid ↔ s ∈ transactionSpends block txid := by
  unfold transactionSpends
  rw [List.mem_filter,decide_eq_true_eq]
  refine and_congr_left fun htxid => ⟨fun hs => ?_,fun hs => List.mem_flatMap.mpr ⟨block,hb,hs⟩⟩
  obtain ⟨d,hd⟩ := List.exists_mem_of_ne_nil _ hne
  obtain ⟨hd,hdtxid⟩ := List.mem_filter.mp hd
  obtain ⟨tx',txIndex',_,_,htx',-,rfl⟩ := mem_blockCreates hd
  obtain ⟨block',hb',hs'⟩ := List.mem_flatMap.mp hs
  obtain ⟨tx,htx,vin,inputIndex,-,hspend⟩ := mem_blockSpends hs'
  have hspentBy : s.spentByTxid = tx.txid := by
    cases vin with
    | coinbase => cases hspend
    | output vinTxid vout =>
      cases hspend
      rfl
  obtain ⟨txIndex,hindex⟩ := List.mem_iff_getElem?.mp htx
  have htx : (tx,txIndex) ∈ block'.tx.zipIdx := List.mk_mem_zipIdx_iff_getElem?.mpr hindex
  have hplace := hv.transaction_place hpays hb' hb htx htx'
    (by rw [← hspentBy,htxid]; exact (of_decide_eq_true hdtxid).symm)
  rw [← hplace.1]
  exact hs'

/-- The outputs up to a height, however they are listed, hold those of a transaction below it. -/
theorem ValidBlocks.outputs_perm (hv : ValidBlocks .empty blocks L) (hb : block ∈ blocks)
    {through : Nat} (hthrough : block.height ≤ through) (hne : transactionOutputs block txid ≠ [])
    {outputs : List ProjectionUtxoOutput} (hnodup : outputs.Nodup)
    (hmem : ∀ c, c ∈ outputs ↔ c ∈ blocks.flatMap blockCreates ∧ c.blockHeight ≤ through) :
    (outputs.filter (·.txid = txid)).Perm (transactionOutputs block txid) := by
  have hnodup' : (transactionOutputs block txid).Nodup := by
    have hall := List.Nodup.of_map _ (List.nodup_append.mp hv.create_keys_nodup).2.1
    exact ((List.nodup_flatMap.mp hall).1 block hb).filter _
  rw [List.perm_ext_iff_of_nodup (hnodup.filter _) hnodup']
  intro c
  rw [List.mem_filter,hmem,← hv.mem_transactionOutputs hb hne,decide_eq_true_eq]
  constructor
  · exact fun h => ⟨h.1.1,h.2⟩
  · intro h
    have hheight := blockCreates_height
      (List.mem_of_mem_filter ((hv.mem_transactionOutputs hb hne).mp h))
    exact ⟨⟨h.1,by omega⟩,h.2⟩

theorem ValidBlocks.spend_find (hv : ValidBlocks .empty blocks L) (hb : block ∈ blocks)
    {s : CoreDogecoinSpend} (hs : s ∈ blockSpends block) :
    ∃ c ∈ blocks.flatMap blockCreates, L.find s.outputKey = some c ∧
      c.blockHeight ≤ block.height := by
  obtain ⟨passed,ahead,rfl⟩ := List.append_of_mem hb
  have hsplit : passed ++ block::ahead = (passed ++ [block]) ++ ahead := by simp
  rw [hsplit] at hv
  obtain ⟨M,hM,hahead⟩ := hv.append
  have hspent : s.outputKey ∈ M.spent := by
    rw [hM.spent]
    refine List.mem_append_right _ (List.mem_map_of_mem (List.mem_flatMap.mpr ⟨block,?_,hs⟩))
    exact List.mem_append_right _ (List.mem_singleton_self _)
  cases hfind : M.find s.outputKey with
  | none => exact absurd (M.spent_created _ hspent) (Ledger.find_eq_none.mp hfind)
  | some c =>
    obtain ⟨hc,-⟩ := Ledger.find_eq_some.mp hfind
    rw [hM.created] at hc
    rcases List.mem_append.mp hc with hnone | hc
    · cases hnone
    obtain ⟨b,hbmem,hcb⟩ := List.mem_flatMap.mp hc
    refine ⟨c,?_,hahead.find_mono hfind,?_⟩
    · rw [hsplit,List.flatMap_append]
      exact List.mem_append_left _ hc
    · have hlt := height_lt_windowEndHeight hM.linked hbmem
      simp only [windowEndHeight,List.getLast?_append,List.getLast?_singleton,Option.some_or] at hlt
      rw [blockCreates_height hcb]
      simpa [Nat.lt_succ_iff] using hlt

end Places

/-- The create and spend tables hold the rows of these blocks in their order. -/
structure HasCoins (w : Warehouse) (blocks : List ParsedDogecoinBlock) : Prop where
  creates : w.coreUtxoCreates = blocks.flatMap blockCreates
  spends : w.coreUtxoSpends = blocks.flatMap blockSpends

section Coins
variable {w : Warehouse} {L L' : CoinLedger} {blocks window : List ParsedDogecoinBlock}
variable {boundaries : Warehouse → List String} {context : CoreDogecoinApplyContext}

theorem hasCoins_addWindow (h : HasCoins w blocks) (prevouts : OutputMap)
    (cs : Option CoreCurrentStateWindow) :
    HasCoins (w.addWindow (window.map coreBlockApplication) prevouts cs) (blocks ++ window) := by
  refine ⟨?_,?_⟩
  · rw [addWindow_creates,h.creates,List.flatMap_append]
  · rw [addWindow_spends,h.spends,List.flatMap_append]

theorem hasCoins_backfill (hup : shouldUpdateCoreCurrentState context = false)
    {windows : List (List ParsedDogecoinBlock)} (hv : ValidBlocks .empty windows.flatten L') :
    wp (backfillAndMaterialize boundaries context windows)
      (fun _ t => HasCoins t windows.flatten) OnlyFaults Anywhere emptyWarehouse := by
  have hwindows : wp (applyBlockWindows boundaries context windows)
      (fun _ t => HasCoins t windows.flatten) OnlyFaults Anywhere emptyWarehouse := by
    refine wp_mono (holds_windows (fun ws M t => HoldsChain ([] ++ ws.flatten) M t ∧
      HasCoins t ws.flatten) (fun _ _ _ h => h.1.valid) (fun ws window M N t h hN _ => ?_)
      ⟨holdsChain_empty,⟨rfl,rfl⟩⟩ hv) (fun _ _ h => h.2) (fun _ _ h => h) (fun _ h => h)
    refine wp_mono (holdsChain_window hup h.1 hN) ?_ (fun _ _ h => h) (fun _ h => h)
    rintro _ _ ⟨hchain,rfl⟩
    have hcoins := @hasCoins_addWindow _ _ window h.2 .empty none
    simp only [List.flatten_append,List.flatten_cons,List.flatten_nil,List.append_nil,
      List.nil_append] at hchain hcoins ⊢
    exact ⟨hchain,hcoins⟩
  refine wp_bind (wp_mono hwindows ?_ (fun _ _ h => h) (fun _ h => h))
  intro _ t ht
  cases windows.flatten.getLast? with
  | none => exact wp_pure ht
  | some last => exact wp_materializeCoreDogecoinCurrentState ⟨ht.creates,ht.spends⟩

theorem hasCoins_online (hup : shouldUpdateCoreCurrentState context)
    {windows : List (List ParsedDogecoinBlock)} (hw : HoldsCurrent blocks L w)
    (hcoins : HasCoins w blocks) (hv : ValidBlocks .empty (blocks ++ windows.flatten) L') :
    wp (applyBlockWindows boundaries context windows)
      (fun _ t => HasCoins t (blocks ++ windows.flatten)) OnlyFaults Anywhere w := by
  refine wp_mono (holds_windows (fun ws M t => HoldsCurrent (blocks ++ ws.flatten) M t ∧
    HasCoins t (blocks ++ ws.flatten)) (fun _ _ _ h => h.1.chain.valid)
    (fun ws window M N t h hN _ => ?_) (by simpa using ⟨hw,hcoins⟩) hv) (fun _ _ h => h.2)
    (fun _ _ h => h) (fun _ h => h)
  refine wp_mono (holdsCurrent_window hup h.1 hN) ?_ (fun _ _ h => h) (fun _ h => h)
  rintro _ _ ⟨hcurrent,cs,rfl⟩
  rw [flatten_snoc]
  exact ⟨hcurrent,hasCoins_addWindow h.2 _ _⟩

theorem applyChainWindows_coins (boundaries : Warehouse → List String)
    {backfill online : CoreDogecoinApplyContext} (base windows : List (List ParsedDogecoinBlock))
    (hback : shouldUpdateCoreCurrentState backfill = false)
    (honline : shouldUpdateCoreCurrentState online)
    (hv : ValidBlocks .empty (base.flatten ++ windows.flatten) L) :
    ∃ w, (applyChainWindows boundaries backfill online base windows).run emptyWarehouse [] =
        (.value (),w,[]) ∧ HasCoins w (base.flatten ++ windows.flatten) ∧
      HasFacts w (base.map backfillFacts ++ windows.map (onlineFacts L)) := by
  obtain ⟨w,hrun,-,hfacts⟩ := applyChainWindows_facts boundaries base windows hback honline hv
  obtain ⟨M,hM,-⟩ := hv.append
  have h : wp (applyChainWindows boundaries backfill online base windows)
      (fun _ t => HasCoins t (base.flatten ++ windows.flatten)) OnlyFaults Anywhere
      emptyWarehouse := by
    refine wp_bind (wp_mono (wp_and (holdsCurrent_backfill hback hM) (hasCoins_backfill hback hM))
      ?_ (fun _ _ h => h.1) (fun _ h => h.1))
    rintro _ t ⟨hcurrent,hcoins⟩
    exact hasCoins_online honline hcurrent hcoins hv
  obtain ⟨_,v,hrun',hcoins⟩ := succeeds_of_wp (wp_mono h (fun _ _ h => h) (fun e _ he => by
    cases e with
    | fault => rfl
    | thrown e => exact absurd he id) (fun _ h => h))
  rw [hrun] at hrun'
  cases hrun'
  exact ⟨w,hrun,hcoins,hfacts⟩

end Coins

end OnlyDoge
