import OnlyDoge.Warehouse.FactRuns
set_option autoImplicit false

/-! The fee of a transaction fact against the inputs the transaction really spends. -/

namespace OnlyDoge
open Job

def transactionSpends (block : ParsedDogecoinBlock) (txid : String) : List CoreDogecoinSpend :=
  (blockSpends block).filter (·.spentByTxid = txid)

def transactionOutputs (block : ParsedDogecoinBlock) (txid : String) :
    List ProjectionUtxoOutput :=
  (blockCreates block).filter (·.txid = txid)

/-- The value of the output that a spend takes from the chain. -/
def spentValue (L : CoinLedger) (s : CoreDogecoinSpend) : Nat :=
  ((L.find s.outputKey).map (·.valueBase)).getD 0

def totalSpent (L : CoinLedger) (spends : List CoreDogecoinSpend) : Nat :=
  (spends.map (spentValue L)).sum

def outputValue (block : ParsedDogecoinBlock) (txid : String) : Nat :=
  ((transactionOutputs block txid).map (·.valueBase)).sum

def IsCoinbase (block : ParsedDogecoinBlock) (txid : String) : Prop :=
  ∃ output ∈ transactionOutputs block txid, output.isCoinbase = true

/-- The fee is absent, or it is worked out from all inputs of the transaction. -/
def FeeExact (L : CoinLedger) (block : ParsedDogecoinBlock) (row : AnalyticsTransactionFact) :
    Prop :=
  (IsCoinbase block row.txid → row.feeBase = none) ∧
  (¬IsCoinbase block row.txid → row.feeBase = none ∨
    (row.totalInputBase = totalSpent L (transactionSpends block row.txid) ∧
      row.feeBase = some ((totalSpent L (transactionSpends block row.txid) : Int) -
        outputValue block row.txid)))

/-- The inputs of a transaction whose outputs the window creates itself. -/
def sameWindowSpends (window : List ParsedDogecoinBlock) (block : ParsedDogecoinBlock)
    (txid : String) : List CoreDogecoinSpend :=
  (transactionSpends block txid).filter
    (fun s => s.outputKey ∈ (window.flatMap blockCreates).map (·.outputKey))

def earlierSpends (window : List ParsedDogecoinBlock) (block : ParsedDogecoinBlock)
    (txid : String) : List CoreDogecoinSpend :=
  (transactionSpends block txid).filter
    (fun s => s.outputKey ∉ (window.flatMap blockCreates).map (·.outputKey))

section Groups

theorem groupCoreSpendsByTxid_get (spends : List CoreDogecoinSpend)
    (grouped : OrderedMap String (List CoreDogecoinSpend)) (txid : String) :
    ((spends.foldl groupCoreSpend grouped).get txid).getD [] =
      (grouped.get txid).getD [] ++ spends.filter (·.spentByTxid = txid) := by
  induction spends generalizing grouped with
  | nil => simp
  | cons s spends ih =>
    rw [List.foldl_cons,ih,groupCoreSpend,OrderedMap.get_set]
    by_cases h : s.spentByTxid = txid
    · subst h
      simp
    · simp [h]

theorem groupCoreOutput_get (grouped : OrderedMap String OutputGroup)
    (output : ProjectionUtxoOutput) (txid : String) :
    ((groupCoreOutput grouped output).get txid).elim [] Subtype.val =
      ((grouped.get txid).elim [] Subtype.val) ++ [output].filter (·.txid = txid) := by
  unfold groupCoreOutput
  by_cases h : output.txid = txid
  · subst h
    cases hg : grouped.get output.txid with
    | none => simp
    | some group => simp
  · cases hg : grouped.get output.txid with
    | none => simp [OrderedMap.get_set_ne _ _ h,h]
    | some group => simp [OrderedMap.get_set_ne _ _ h,h]

theorem groupCoreOutputsByTxid_get (outputs : List ProjectionUtxoOutput) (txid : String) :
    ((groupCoreOutputsByTxid outputs).get txid).elim [] Subtype.val =
      outputs.filter (·.txid = txid) := by
  suffices h : ∀ grouped : OrderedMap String OutputGroup,
      ((outputs.foldl groupCoreOutput grouped).get txid).elim [] Subtype.val =
        ((grouped.get txid).elim [] Subtype.val) ++ outputs.filter (·.txid = txid) from h .empty
  induction outputs with
  | nil => simp
  | cons output outputs ih =>
    intro grouped
    rw [List.foldl_cons,ih,groupCoreOutput_get,List.append_assoc,← List.filter_append]
    rfl

/-- The transactions of a block that have a fact row are those that create an output. -/
theorem mem_groupCoreOutputsByTxid {outputs : List ProjectionUtxoOutput} {txid : String}
    {group : OutputGroup} : (txid,group) ∈ (groupCoreOutputsByTxid outputs).entries ↔
      group.val = outputs.filter (·.txid = txid) := by
  rw [← OrderedMap.get_eq_some]
  have hget := groupCoreOutputsByTxid_get outputs txid
  cases hg : (groupCoreOutputsByTxid outputs).get txid with
  | none =>
    rw [hg] at hget
    simp only [Option.elim_none] at hget
    constructor
    · intro h
      cases h
    · intro h
      exact absurd (h.trans hget.symm) group.property
  | some found =>
    rw [hg] at hget
    simp only [Option.elim_some] at hget
    rw [Option.some.injEq,← hget]
    constructor
    · rintro rfl
      rfl
    · intro h
      exact Subtype.ext h.symm

end Groups

section Rows
variable {L : CoinLedger} {blocks window : List ParsedDogecoinBlock} {block : ParsedDogecoinBlock}
variable {createdOutputs prevouts : OutputMap}

def transactionRow (createdOutputs prevouts : OutputMap) (block : ParsedDogecoinBlock)
    (txid : String) (h : transactionOutputs block txid ≠ []) : AnalyticsTransactionFact :=
  coreTransactionFact createdOutputs prevouts (coreBlockApplication block) txid
    ⟨transactionOutputs block txid,h⟩ (transactionSpends block txid)

theorem mem_coreApplicationTransactionFacts {row : AnalyticsTransactionFact} :
    row ∈ coreApplicationTransactionFacts createdOutputs prevouts (coreBlockApplication block) ↔
      ∃ txid h, row = transactionRow createdOutputs prevouts block txid h := by
  have hspends (txid : String) :
      ((groupCoreSpendsByTxid (blockSpends block)).get txid).getD [] =
        transactionSpends block txid := groupCoreSpendsByTxid_get _ .empty txid
  unfold coreApplicationTransactionFacts
  simp only [coreBlockApplication,List.mem_map,Prod.exists,hspends]
  constructor
  · rintro ⟨txid,group,hgroup,rfl⟩
    obtain ⟨outputs,hne⟩ := group
    obtain rfl : outputs = transactionOutputs block txid := mem_groupCoreOutputsByTxid.mp hgroup
    exact ⟨txid,hne,rfl⟩
  · rintro ⟨txid,hne,rfl⟩
    exact ⟨txid,⟨_,hne⟩,mem_groupCoreOutputsByTxid.mpr rfl,rfl⟩

theorem transactionRow_isCoinbase (createdOutputs prevouts : OutputMap) (txid : String)
    (h : transactionOutputs block txid ≠ []) :
    (transactionRow createdOutputs prevouts block txid h).isCoinbase = true ↔
      IsCoinbase block txid := by
  have hperm : (sortOutputsByVout (transactionOutputs block txid)).Perm
      (transactionOutputs block txid) := List.perm_insertionSort _ _
  change (sortOutputsByVout (transactionOutputs block txid)).any (·.isCoinbase) = true ↔ _
  simp only [List.any_eq_true,hperm.mem_iff,IsCoinbase]

theorem transactionRow_fee (createdOutputs prevouts : OutputMap) (txid : String)
    (h : transactionOutputs block txid ≠ []) :
    (transactionRow createdOutputs prevouts block txid h).feeBase = analyticsFeeBase
      (transactionRow createdOutputs prevouts block txid h).isCoinbase
      (transactionRow createdOutputs prevouts block txid h).totalInputBase
      (outputValue block txid) := by
  have hperm : (sortOutputsByVout (transactionOutputs block txid)).Perm
      (transactionOutputs block txid) := List.perm_insertionSort _ _
  have hsum : ((sortOutputsByVout (transactionOutputs block txid)).map (·.valueBase)).sum =
      outputValue block txid := (hperm.map _).sum_eq
  rw [← hsum]
  rfl

/-- A row is exact when its transaction is a coinbase, when it counted nothing, or when it
counted every input. -/
theorem feeExact_transactionRow_iff (txid : String) (h : transactionOutputs block txid ≠ []) :
    FeeExact L block (transactionRow createdOutputs prevouts block txid h) ↔
      (¬IsCoinbase block txid →
        (transactionRow createdOutputs prevouts block txid h).totalInputBase = 0 ∨
        (transactionRow createdOutputs prevouts block txid h).totalInputBase =
          totalSpent L (transactionSpends block txid)) := by
  have hfee := transactionRow_fee createdOutputs prevouts txid h
  have hcoinbase := transactionRow_isCoinbase createdOutputs prevouts txid h
  have htxid : (transactionRow createdOutputs prevouts block txid h).txid = txid := rfl
  generalize transactionRow createdOutputs prevouts block txid h = row at hfee hcoinbase htxid ⊢
  unfold FeeExact
  rw [htxid]
  unfold analyticsFeeBase at hfee
  by_cases hc : IsCoinbase block txid
  · have htrue := hcoinbase.mpr hc
    simp [hfee,htrue,hc]
  · have hfalse : row.isCoinbase = false := by
      rw [← Bool.not_eq_true]
      exact fun htrue => hc (hcoinbase.mp htrue)
    by_cases hzero : row.totalInputBase = 0
    · simp [hfee,hc,hzero]
    · rw [hfee]
      simp only [hc,hfalse,hzero,Bool.false_eq_true,or_self,if_false,false_implies,true_and,
        not_false_eq_true,forall_const,reduceCtorEq,false_or]
      constructor
      · exact fun hex => hex.1
      · intro htotal
        exact ⟨htotal,by rw [htotal]⟩

theorem totalInputBase_eq (txid : String) (h : transactionOutputs block txid ≠ []) :
    (transactionRow createdOutputs prevouts block txid h).totalInputBase =
      ((transactionSpends block txid).map (coreSpendValue createdOutputs prevouts)).sum := rfl

theorem totalSpent_split (L : CoinLedger) (window : List ParsedDogecoinBlock)
    (block : ParsedDogecoinBlock) (txid : String) :
    totalSpent L (sameWindowSpends window block txid) +
      totalSpent L (earlierSpends window block txid) =
        totalSpent L (transactionSpends block txid) := by
  have hperm := (List.filter_append_perm (fun s : CoreDogecoinSpend =>
    decide (s.outputKey ∈ (window.flatMap blockCreates).map (·.outputKey)))
    (transactionSpends block txid)).map (spentValue L)
  have hsum := hperm.sum_eq
  rw [List.map_append,List.sum_append] at hsum
  simp only [← decide_not] at hsum
  exact hsum

theorem totalInputBase_backfill (hv : ValidBlocks .empty blocks L)
    (hsub : ∀ b ∈ window, b ∈ blocks) (txid : String) (h : transactionOutputs block txid ≠ []) :
    (transactionRow (coreCreatedOutputsByKey (window.map coreBlockApplication)) .empty block txid
      h).totalInputBase = totalSpent L (sameWindowSpends window block txid) := by
  rw [totalInputBase_eq]
  unfold totalSpent sameWindowSpends
  induction transactionSpends block txid with
  | nil => rfl
  | cons s spends ih =>
    have hvalue : coreSpendValue (coreCreatedOutputsByKey (window.map coreBlockApplication))
        .empty s = if s.outputKey ∈ (window.flatMap blockCreates).map (·.outputKey) then
          spentValue L s else 0 := by
      unfold coreSpendValue
      rw [coreSpentOutput_backfill hv hsub]
      by_cases hk : s.outputKey ∈ (window.flatMap blockCreates).map (·.outputKey)
      · rw [if_pos hk,if_pos hk,spentValue]
        cases L.find s.outputKey <;> rfl
      · rw [if_neg hk,if_neg hk]
    rw [List.map_cons,List.sum_cons,ih,hvalue]
    by_cases hk : s.outputKey ∈ (window.flatMap blockCreates).map (·.outputKey)
    · rw [if_pos hk,List.filter_cons,if_pos (decide_eq_true hk),List.map_cons,List.sum_cons]
    · rw [if_neg hk,List.filter_cons,if_neg (by rwa [decide_eq_true_eq]),Nat.zero_add]

theorem totalInputBase_online (hv : ValidBlocks .empty blocks L)
    (hsub : ∀ b ∈ window, b ∈ blocks) (hb : block ∈ window) (txid : String)
    (h : transactionOutputs block txid ≠ []) :
    (transactionRow (coreCreatedOutputsByKey (window.map coreBlockApplication))
      (chainPrevouts L window) block txid h).totalInputBase =
        totalSpent L (transactionSpends block txid) := by
  rw [totalInputBase_eq]
  unfold totalSpent
  congr 1
  refine List.map_congr_left (fun s hs => ?_)
  unfold coreSpendValue spentValue
  rw [coreSpentOutput_online hv hsub
    (List.mem_flatMap.mpr ⟨block,hb,(List.mem_filter.mp hs).1⟩)]
  cases L.find s.outputKey <;> rfl

end Rows

section Run
variable {L : CoinLedger} {w : Warehouse} {base windows : List (List ParsedDogecoinBlock)}

/-- Among the inputs of a transaction, those from earlier windows or those from its own window
have no value. -/
def FeeResolvable (L : CoinLedger) (window : List ParsedDogecoinBlock)
    (block : ParsedDogecoinBlock) (txid : String) : Prop :=
  totalSpent L (sameWindowSpends window block txid) = 0 ∨
    totalSpent L (earlierSpends window block txid) = 0

theorem coreWindowFactInserts_transactions (window : List ParsedDogecoinBlock)
    (prevouts : OutputMap) {row : AnalyticsTransactionFact} :
    row ∈ (coreWindowFactInserts (window.map coreBlockApplication) prevouts).transactions ↔
      ∃ block ∈ window, ∃ txid h, row = transactionRow
        (coreCreatedOutputsByKey (window.map coreBlockApplication)) prevouts block txid h := by
  simp only [coreWindowFactInserts,List.flatMap_map,List.mem_flatMap,
    mem_coreApplicationTransactionFacts]

theorem feeExact_backfill_iff {blocks window : List ParsedDogecoinBlock}
    {block : ParsedDogecoinBlock} (hv : ValidBlocks .empty blocks L)
    (hsub : ∀ b ∈ window, b ∈ blocks) (txid : String) (h : transactionOutputs block txid ≠ []) :
    FeeExact L block (transactionRow (coreCreatedOutputsByKey (window.map coreBlockApplication))
      .empty block txid h) ↔ (¬IsCoinbase block txid → FeeResolvable L window block txid) := by
  rw [feeExact_transactionRow_iff,totalInputBase_backfill hv hsub]
  have hsplit := totalSpent_split L window block txid
  refine imp_congr_right (fun _ => or_congr_right ?_)
  omega

theorem feeExact_online {blocks window : List ParsedDogecoinBlock} {block : ParsedDogecoinBlock}
    (hv : ValidBlocks .empty blocks L) (hsub : ∀ b ∈ window, b ∈ blocks) (hb : block ∈ window)
    (txid : String) (h : transactionOutputs block txid ≠ []) :
    FeeExact L block (transactionRow (coreCreatedOutputsByKey (window.map coreBlockApplication))
      (chainPrevouts L window) block txid h) := by
  rw [feeExact_transactionRow_iff,totalInputBase_online hv hsub hb]
  exact fun _ => Or.inr rfl

/-- The fees of a run are exact or absent exactly when no transaction of a backfill window mixes
valued inputs of its own window with valued inputs of earlier windows. -/
theorem fees_exact_iff (boundaries : Warehouse → List String)
    {backfill online : CoreDogecoinApplyContext} (base windows : List (List ParsedDogecoinBlock))
    (hback : shouldUpdateCoreCurrentState backfill = false)
    (honline : shouldUpdateCoreCurrentState online)
    (hv : ValidBlocks .empty (base.flatten ++ windows.flatten) L) :
    ∃ w, (applyChainWindows boundaries backfill online base windows).run emptyWarehouse [] =
        (.value (),w,[]) ∧
      ((∀ row ∈ w.analyticsTransactions, ∀ block ∈ base.flatten ++ windows.flatten,
          row.blockHeight = block.height → FeeExact L block row) ↔
        ∀ window ∈ base, ∀ block ∈ window, ∀ txid, transactionOutputs block txid ≠ [] →
          ¬IsCoinbase block txid → FeeResolvable L window block txid) := by
  obtain ⟨w,hrun,hcurrent,hfacts⟩ := applyChainWindows_facts boundaries base windows hback
    honline hv
  refine ⟨w,hrun,?_⟩
  have hbase : ∀ window ∈ base, ∀ b ∈ window, b ∈ base.flatten ++ windows.flatten :=
    fun window hw b hb => List.mem_append_left _ (List.mem_flatten.mpr ⟨window,hw,hb⟩)
  have hwindows : ∀ window ∈ windows, ∀ b ∈ window, b ∈ base.flatten ++ windows.flatten :=
    fun window hw b hb => List.mem_append_right _ (List.mem_flatten.mpr ⟨window,hw,hb⟩)
  have hrows (row : AnalyticsTransactionFact) : row ∈ w.analyticsTransactions ↔
      (∃ window ∈ base, row ∈ (backfillFacts window).transactions) ∨
      (∃ window ∈ windows, row ∈ (onlineFacts L window).transactions) := by
    simp [hfacts.transactions,List.mem_flatMap]
  constructor
  · intro hexact window hw block hb txid houtputs
    refine (feeExact_backfill_iff hv (hbase window hw) txid houtputs).mp ?_
    refine hexact _ ((hrows _).mpr (Or.inl ⟨window,hw,?_⟩)) block (hbase window hw block hb) rfl
    exact (coreWindowFactInserts_transactions window .empty).mpr ⟨block,hb,txid,houtputs,rfl⟩
  · intro hresolvable row hrow block hblock hheight
    rcases (hrows row).mp hrow with ⟨window,hw,hrow⟩ | ⟨window,hw,hrow⟩
    · obtain ⟨b,hb,txid,houtputs,rfl⟩ := (coreWindowFactInserts_transactions _ _).mp hrow
      have heq : b = block := eq_of_height_eq hv.linked (hbase window hw b hb) hblock hheight
      subst heq
      exact (feeExact_backfill_iff hv (hbase window hw) txid houtputs).mpr
        (hresolvable window hw b hb txid houtputs)
    · obtain ⟨b,hb,txid,houtputs,rfl⟩ := (coreWindowFactInserts_transactions _ _).mp hrow
      have heq : b = block := eq_of_height_eq hv.linked (hwindows window hw b hb) hblock hheight
      subst heq
      exact feeExact_online hv (hwindows window hw) hb txid houtputs

theorem paymentBlocks_t3_outputs :
    transactionOutputs (paymentBlocks.getLast (by decide)) "t3" ≠ [] := by decide

/-- Cut behind the second block, `t3` counts the input `t2:0` of its own window and not `t1:0`. -/
theorem fee_of_split_inputs : ∃ w,
    (applyChainWindows (fun _ => []) ⟨some false,none⟩ ⟨some true,none⟩
      [paymentBlocks.take 2,paymentBlocks.drop 2] []).run emptyWarehouse [] = (.value (),w,[]) ∧
    ∃ row ∈ w.analyticsTransactions, ∃ block ∈ paymentBlocks,
      row.blockHeight = block.height ∧ row.txid = "t3" ∧ row.feeBase = some (-29) ∧
      totalSpent paymentLedger (transactionSpends block row.txid) = 48 ∧
      ¬FeeExact paymentLedger block row := by
  obtain ⟨w,hrun,-,hfacts⟩ := applyChainWindows_facts (fun _ => [])
    [paymentBlocks.take 2,paymentBlocks.drop 2] []
    (rfl : shouldUpdateCoreCurrentState ⟨some false,none⟩ = false)
    (rfl : shouldUpdateCoreCurrentState ⟨some true,none⟩ = true) paymentBlocks_valid
  refine ⟨w,hrun,transactionRow (coreCreatedOutputsByKey ((paymentBlocks.drop 2).map
    coreBlockApplication)) .empty (paymentBlocks.getLast (by decide)) "t3"
      paymentBlocks_t3_outputs,?_,
    paymentBlocks.getLast (by decide),by decide,rfl,rfl,by decide,by decide,?_⟩
  · rw [hfacts.transactions]
    refine List.mem_flatMap.mpr ⟨backfillFacts (paymentBlocks.drop 2),by simp,?_⟩
    exact (coreWindowFactInserts_transactions _ _).mpr
      ⟨_,by decide,"t3",paymentBlocks_t3_outputs,rfl⟩
  · rw [feeExact_backfill_iff paymentBlocks_valid (by decide)]
    unfold FeeResolvable IsCoinbase
    decide

theorem fees_exact_iff_paymentBlocks : ∃ w,
    (applyChainWindows (fun _ => []) ⟨some false,none⟩ ⟨some true,none⟩
      [paymentBlocks.take 2,paymentBlocks.drop 2] []).run emptyWarehouse [] = (.value (),w,[]) ∧
    ((∀ row ∈ w.analyticsTransactions, ∀ block ∈ paymentBlocks,
        row.blockHeight = block.height → FeeExact paymentLedger block row) ↔
      ∀ window ∈ [paymentBlocks.take 2,paymentBlocks.drop 2], ∀ block ∈ window, ∀ txid,
        transactionOutputs block txid ≠ [] → ¬IsCoinbase block txid →
          FeeResolvable paymentLedger window block txid) :=
  fees_exact_iff (fun _ => []) [paymentBlocks.take 2,paymentBlocks.drop 2] []
    (rfl : shouldUpdateCoreCurrentState ⟨some false,none⟩ = false)
    (rfl : shouldUpdateCoreCurrentState ⟨some true,none⟩ = true) paymentBlocks_valid

end Run

end OnlyDoge
