import OnlyDoge.Library.ArgMax
import OnlyDoge.Warehouse.FactTotals
set_option autoImplicit false

/-!
The recomputation of the transaction facts in ClickHouse (`analyticsTransactionFactsBackfillSql` in
`warehouse.ts`) and what a reader of the facts gets afterwards.
-/

namespace OnlyDoge
open Job

namespace Warehouse

def latestOutputs (throughBlockHeight : Nat) (w : Warehouse) : List ProjectionUtxoOutput :=
  Replacing.collapse (·.outputKey) (·.blockHeight)
    (w.coreUtxoCreates.filter (·.blockHeight ≤ throughBlockHeight))

def latestSpends (throughBlockHeight : Nat) (w : Warehouse) : List CoreDogecoinSpend :=
  Replacing.collapse (·.outputKey) (·.spentInBlock)
    (w.coreUtxoSpends.filter (·.spentInBlock ≤ throughBlockHeight))

/-- The inner join of `input_totals`; an output key stands once in `latest_outputs`. -/
def joinedInputs (throughBlockHeight : Nat) (w : Warehouse) :
    List (CoreDogecoinSpend × ProjectionUtxoOutput) :=
  (w.latestSpends throughBlockHeight).filterMap fun spend =>
    ((w.latestOutputs throughBlockHeight).find? (·.outputKey = spend.outputKey)).map (spend,·)

/-- The row of a group `o.txid`; `any` takes the first row. -/
def backfilledFact (inputs : List (CoreDogecoinSpend × ProjectionUtxoOutput)) (txid : String)
    (outputs : List ProjectionUtxoOutput) : AnalyticsTransactionFact :=
  let spent := inputs.filter (·.1.spentByTxid = txid)
  let totalInput := (spent.map (·.2.valueBase)).sum
  let grossOutput := (outputs.map (·.valueBase)).sum
  let isCoinbase := outputs.any (·.isCoinbase)
  { blockHeight := (outputs.head?.map (·.blockHeight)).getD 0
    blockHash := (outputs.head?.map (·.blockHash)).getD ""
    blockTime := (outputs.head?.map (·.blockTime)).getD 0
    txid := txid
    txIndex := (outputs.map (·.txIndex)).min?.getD 0
    isCoinbase := isCoinbase
    inputCount := spent.length
    outputCount := outputs.length
    totalInputBase := totalInput
    grossOutputBase := grossOutput
    feeBase :=
      if isCoinbase ∨ totalInput = 0 then none else some ((totalInput : Int) - grossOutput)
    version := (outputs.map (·.blockHeight)).max?.getD 0 }

def analyticsTransactionFactsBackfill (throughBlockHeight : Nat) (w : Warehouse) :
    List AnalyticsTransactionFact :=
  Grouping.groupBy (·.txid) (backfilledFact (w.joinedInputs throughBlockHeight))
    (w.latestOutputs throughBlockHeight)

/-- The synchronous `ALTER TABLE … DELETE` before it. -/
def deleteAnalyticsTransactions (throughBlockHeight : Nat) (w : Warehouse) : Warehouse :=
  { w with analyticsTransactions :=
      w.analyticsTransactions.filter fun row => !decide (row.blockHeight ≤ throughBlockHeight) }

def backfillAnalyticsTransactionFacts (throughBlockHeight : Nat) (w : Warehouse) : Warehouse :=
  let w := w.deleteAnalyticsTransactions throughBlockHeight
  w.insertAnalyticsTransactions (w.analyticsTransactionFactsBackfill throughBlockHeight)

theorem analyticsTransactions_backfill (throughBlockHeight : Nat) (w : Warehouse) :
    (w.backfillAnalyticsTransactionFacts throughBlockHeight).analyticsTransactions =
      (w.deleteAnalyticsTransactions throughBlockHeight).analyticsTransactions ++
        w.analyticsTransactionFactsBackfill throughBlockHeight := rfl

/-- The rows that `listAddressTransactions` groups for a transaction of a block. -/
def transactionFacts (w : Warehouse) (block : ParsedDogecoinBlock) (txid : String) :
    List AnalyticsTransactionFact :=
  w.analyticsTransactions.filter fun row =>
    row.blockHeight = block.height ∧ row.blockHash = block.hash ∧ row.txid = txid

/-- Each column of the answer is an `argMax` of its own. -/
structure Reads (w : Warehouse) (block : ParsedDogecoinBlock) (txid : String)
    (totals : TransactionTotals) : Prop where
  isCoinbase : ArgMax.Answers (·.version) (fun row => some row.isCoinbase)
    (w.transactionFacts block txid) (some totals.isCoinbase)
  inputCount : ArgMax.Answers (·.version) (fun row => some row.inputCount)
    (w.transactionFacts block txid) (some totals.inputCount)
  outputCount : ArgMax.Answers (·.version) (fun row => some row.outputCount)
    (w.transactionFacts block txid) (some totals.outputCount)
  totalInputBase : ArgMax.Answers (·.version) (fun row => some row.totalInputBase)
    (w.transactionFacts block txid) (some totals.totalInputBase)
  totalOutputBase : ArgMax.Answers (·.version) (fun row => some row.grossOutputBase)
    (w.transactionFacts block txid) (some totals.totalOutputBase)
  feeBase : ArgMax.Answers (·.version) (·.feeBase) (w.transactionFacts block txid) totals.feeBase

variable {w : Warehouse} {block : ParsedDogecoinBlock} {txid : String}

theorem Reads.eq_of_agree {totals expected : TransactionTotals} (h : Reads w block txid totals)
    (hne : w.transactionFacts block txid ≠ [])
    (hagree : ∀ row ∈ w.transactionFacts block txid, row.totals = expected) :
    totals = expected := by
  have hcolumn {α : Type} (f : AnalyticsTransactionFact → Option α)
    (g : TransactionTotals → Option α)
      (hfg : ∀ row, f row = g row.totals) {a : Option α}
      (ha : ArgMax.Answers (·.version) f (w.transactionFacts block txid) a) : a = g expected :=
    ha.eq_of_agree hne fun row hrow => by rw [hfg,hagree row hrow]
  have h1 := hcolumn _ (fun t => some t.isCoinbase) (fun _ => rfl) h.isCoinbase
  have h2 := hcolumn _ (fun t => some t.inputCount) (fun _ => rfl) h.inputCount
  have h3 := hcolumn _ (fun t => some t.outputCount) (fun _ => rfl) h.outputCount
  have h4 := hcolumn _ (fun t => some t.totalInputBase) (fun _ => rfl) h.totalInputBase
  have h5 := hcolumn _ (fun t => some t.totalOutputBase) (fun _ => rfl) h.totalOutputBase
  have h6 := hcolumn _ (fun t => t.feeBase) (fun _ => rfl) h.feeBase
  simp only [Option.some.injEq] at h1 h2 h3 h4 h5
  cases totals
  cases expected
  simp_all

theorem exists_reads {row : AnalyticsTransactionFact} (hrow : row ∈ w.transactionFacts block txid)
    (hmax : ∀ other ∈ w.transactionFacts block txid, other.version ≤ row.version) :
    ∃ feeBase, Reads w block txid { row.totals with feeBase } := by
  obtain ⟨feeBase,hfee⟩ := ArgMax.exists_answers (·.version) (·.feeBase)
    (w.transactionFacts block txid)
  exact ⟨feeBase,ArgMax.answers_of_max hrow rfl hmax,ArgMax.answers_of_max hrow rfl hmax,
    ArgMax.answers_of_max hrow rfl hmax,ArgMax.answers_of_max hrow rfl hmax,
    ArgMax.answers_of_max hrow rfl hmax,hfee⟩

end Warehouse

section Recompute
variable {w : Warehouse} {L : CoinLedger} {blocks : List ParsedDogecoinBlock}
variable {block : ParsedDogecoinBlock} {txid : String} {through : Nat}

theorem mem_latestOutputs (hcoins : HasCoins w blocks) (hv : ValidBlocks .empty blocks L)
    {c : ProjectionUtxoOutput} : c ∈ w.latestOutputs through ↔
      c ∈ blocks.flatMap blockCreates ∧ c.blockHeight ≤ through := by
  have hnodup : ((w.coreUtxoCreates.filter (·.blockHeight ≤ through)).map (·.outputKey)).Nodup := by
    rw [hcoins.creates]
    exact (List.nodup_append.mp hv.create_keys_nodup).2.1.sublist (List.filter_sublist.map _)
  unfold Warehouse.latestOutputs
  rw [Replacing.mem_collapse,Replacing.latest_eq_some_of_nodup hnodup,hcoins.creates]
  simp

theorem mem_latestSpends (hcoins : HasCoins w blocks) (hv : ValidBlocks .empty blocks L)
    {s : CoreDogecoinSpend} : s ∈ w.latestSpends through ↔
      s ∈ blocks.flatMap blockSpends ∧ s.spentInBlock ≤ through := by
  have hnodup : ((w.coreUtxoSpends.filter (·.spentInBlock ≤ through)).map (·.outputKey)).Nodup := by
    rw [hcoins.spends]
    exact (List.nodup_append.mp hv.spend_keys_nodup).2.1.sublist (List.filter_sublist.map _)
  unfold Warehouse.latestSpends
  rw [Replacing.mem_collapse,Replacing.latest_eq_some_of_nodup hnodup,hcoins.spends]
  simp

theorem latestOutputs_nodup (through : Nat) (w : Warehouse) : (w.latestOutputs through).Nodup :=
  List.Nodup.of_map _ (Replacing.collapse_nodup _ _ _)

theorem latestSpends_nodup (through : Nat) (w : Warehouse) : (w.latestSpends through).Nodup :=
  List.Nodup.of_map _ (Replacing.collapse_nodup _ _ _)

theorem find_latestOutputs (hcoins : HasCoins w blocks) (hv : ValidBlocks .empty blocks L)
    (hb : block ∈ blocks) (hthrough : block.height ≤ through) {s : CoreDogecoinSpend}
    (hs : s ∈ blockSpends block) : ∃ c, L.find s.outputKey = some c ∧
      (w.latestOutputs through).find? (·.outputKey = s.outputKey) = some c := by
  obtain ⟨c,hc,hfind,hle⟩ := hv.spend_find hb hs
  have hkey := (Ledger.find_eq_some.mp hfind).2
  refine ⟨c,hfind,?_⟩
  have hmem : c ∈ w.latestOutputs through :=
    (mem_latestOutputs hcoins hv).mpr ⟨hc,Nat.le_trans hle hthrough⟩
  cases hfound : (w.latestOutputs through).find? (·.outputKey = s.outputKey) with
  | none =>
    have := List.find?_eq_none.mp hfound c hmem
    simp [hkey] at this
  | some d =>
    have hdkey : d.outputKey = s.outputKey := by simpa using List.find?_some hfound
    have hnodup : ((w.latestOutputs through).map (·.outputKey)).Nodup :=
      Replacing.collapse_nodup _ _ _
    rw [List.inj_on_of_nodup_map hnodup (List.mem_of_find?_eq_some hfound) hmem
      (hdkey.trans hkey.symm)]

theorem latestOutputs_perm (hcoins : HasCoins w blocks) (hv : ValidBlocks .empty blocks L)
    (hb : block ∈ blocks) (hthrough : block.height ≤ through)
    (hne : transactionOutputs block txid ≠ []) :
    ((w.latestOutputs through).filter (·.txid = txid)).Perm (transactionOutputs block txid) :=
  hv.outputs_perm hb hthrough hne (latestOutputs_nodup _ _) fun _ => mem_latestOutputs hcoins hv

theorem latestSpends_perm (hcoins : HasCoins w blocks) (hv : ValidBlocks .empty blocks L)
    (hpays : PaysOut blocks) (hb : block ∈ blocks) (hthrough : block.height ≤ through)
    (hne : transactionOutputs block txid ≠ []) :
    ((w.latestSpends through).filter (·.spentByTxid = txid)).Perm
    (transactionSpends block txid) := by
  have hnodup : (transactionSpends block txid).Nodup := by
    have hall := List.Nodup.of_map _ (List.nodup_append.mp hv.spend_keys_nodup).2.1
    exact ((List.nodup_flatMap.mp hall).1 block hb).filter _
  rw [List.perm_ext_iff_of_nodup ((latestSpends_nodup _ _).filter _) hnodup]
  intro s
  rw [List.mem_filter,mem_latestSpends hcoins hv,← hv.mem_transactionSpends hpays hb hne,
    decide_eq_true_eq]
  constructor
  · exact fun h => ⟨h.1.1,h.2⟩
  · intro h
    have hheight := blockSpends_height
      (List.mem_of_mem_filter ((hv.mem_transactionSpends hpays hb hne).mp h))
    exact ⟨⟨h.1,by omega⟩,h.2⟩

theorem filter_filterMap_fst {α β : Type} (p : α → Bool) (f : α → Option (α × β))
    (hfst : ∀ x y, f x = some y → y.1 = x) (xs : List α) :
    (xs.filterMap f).filter (fun y => p y.1) = (xs.filter p).filterMap f := by
  induction xs with
  | nil => rfl
  | cons x xs ih =>
    cases hx : f x with
    | none => cases hp : p x <;> simp [hx,hp,ih]
    | some y =>
      have hy := hfst x y hx
      cases hp : p x <;> simp [hx,hy,hp,ih]

theorem resolved_inputs {spends : List CoreDogecoinSpend}
    {find : CoreDogecoinSpend → Option ProjectionUtxoOutput}
    (h : ∀ s ∈ spends, ∃ c, L.find s.outputKey = some c ∧ find s = some c) :
    (spends.filterMap fun s => (find s).map (s,·)).length = spends.length ∧
      ((spends.filterMap fun s => (find s).map (s,·)).map (·.2.valueBase)).sum =
        totalSpent L spends := by
  induction spends with
  | nil => exact ⟨rfl,rfl⟩
  | cons s spends ih =>
    obtain ⟨c,hc,hfind⟩ := h s List.mem_cons_self
    obtain ⟨hlength,hsum⟩ := ih fun s hs => h s (List.mem_cons_of_mem _ hs)
    have hvalue : spentValue L s = c.valueBase := by rw [spentValue,hc]; rfl
    unfold totalSpent at hsum ⊢
    simp only [List.filterMap_cons,hfind,Option.map_some,List.length_cons,List.map_cons,
      List.sum_cons,hlength,hsum,hvalue,and_self]

/-- The row that the query makes for a transaction of a block up to the height. -/
def recomputedFact (through : Nat) (w : Warehouse) (txid : String) : AnalyticsTransactionFact :=
  Warehouse.backfilledFact (w.joinedInputs through) txid
    ((w.latestOutputs through).filter (·.txid = txid))

theorem recomputedFact_totals (hcoins : HasCoins w blocks) (hv : ValidBlocks .empty blocks L)
    (hpays : PaysOut blocks) (hb : block ∈ blocks) (hthrough : block.height ≤ through)
    (hne : transactionOutputs block txid ≠ []) :
    (recomputedFact through w txid).totals = chainTotals L block txid := by
  have hspends := latestSpends_perm hcoins hv hpays hb hthrough hne
  have hinputs : (w.joinedInputs through).filter (·.1.spentByTxid = txid) =
      ((w.latestSpends through).filter (·.spentByTxid = txid)).filterMap fun s =>
        ((w.latestOutputs through).find? (·.outputKey = s.outputKey)).map (s,·) := by
    refine filter_filterMap_fst (fun s : CoreDogecoinSpend => decide (s.spentByTxid = txid)) _ ?_ _
    intro s y hy
    obtain ⟨c,-,rfl⟩ := Option.map_eq_some_iff.mp hy
    rfl
  obtain ⟨hlength,hsum⟩ := @resolved_inputs L
    ((w.latestSpends through).filter (·.spentByTxid = txid))
    (fun s => (w.latestOutputs through).find? (·.outputKey = s.outputKey)) fun s hs =>
      find_latestOutputs hcoins hv hb hthrough (List.mem_of_mem_filter (hspends.mem_iff.mp hs))
  have htotals : (recomputedFact through w txid).totals = totalsOf
      ((w.latestOutputs through).filter (·.txid = txid))
      ((w.joinedInputs through).filter (·.1.spentByTxid = txid)).length
      (((w.joinedInputs through).filter (·.1.spentByTxid = txid)).map (·.2.valueBase)).sum := rfl
  rw [htotals,hinputs,hlength,hsum,totalsOf_perm (latestOutputs_perm hcoins hv hb hthrough hne),
    hspends.length_eq,chainTotals]
  congr 1
  exact (hspends.map _).sum_eq

theorem mem_analyticsTransactionFactsBackfill {row : AnalyticsTransactionFact} :
    row ∈ w.analyticsTransactionFactsBackfill through ↔
      ∃ c ∈ w.latestOutputs through, row = recomputedFact through w c.txid :=
  Grouping.mem_groupBy

theorem recomputedFact_block (hcoins : HasCoins w blocks) (hv : ValidBlocks .empty blocks L)
    (hb : block ∈ blocks) (hthrough : block.height ≤ through)
    (hne : transactionOutputs block txid ≠ []) :
    recomputedFact through w txid ∈
      (w.backfillAnalyticsTransactionFacts through).transactionFacts block txid := by
  have hperm := latestOutputs_perm hcoins hv hb hthrough hne
  have hplace : ∀ c ∈ (w.latestOutputs through).filter (·.txid = txid),
      c.blockHeight = block.height ∧ c.blockHash = block.hash := by
    intro c hc
    obtain ⟨tx,txIndex,vout,outputIndex,-,-,rfl⟩ :=
      mem_blockCreates (List.mem_of_mem_filter (hperm.mem_iff.mp hc))
    exact ⟨rfl,rfl⟩
  cases hgroup : (w.latestOutputs through).filter (·.txid = txid) with
  | nil =>
    rw [hgroup] at hperm
    exact absurd hperm.nil_eq.symm hne
  | cons first rest =>
    have hfirst : first ∈ (w.latestOutputs through).filter (·.txid = txid) := by
      rw [hgroup]
      exact List.mem_cons_self
    obtain ⟨hfirstMem,hfirstTxid⟩ := List.mem_filter.mp hfirst
    obtain ⟨hheight,hhash⟩ := hplace first hfirst
    refine List.mem_filter.mpr ⟨?_,?_⟩
    · rw [Warehouse.analyticsTransactions_backfill]
      refine List.mem_append_right _ (mem_analyticsTransactionFactsBackfill.mpr
        ⟨first,hfirstMem,?_⟩)
      rw [of_decide_eq_true hfirstTxid]
    · rw [recomputedFact,hgroup]
      simp [Warehouse.backfilledFact,hheight,hhash]

theorem mem_transactionFacts_backfilled (hthrough : block.height ≤ through)
    {row : AnalyticsTransactionFact}
    (hrow : row ∈ (w.backfillAnalyticsTransactionFacts through).transactionFacts block txid) :
    row = recomputedFact through w txid := by
  obtain ⟨hmem,hkey⟩ := List.mem_filter.mp hrow
  obtain ⟨hheight,-,htxid⟩ := of_decide_eq_true hkey
  rw [Warehouse.analyticsTransactions_backfill] at hmem
  rcases List.mem_append.mp hmem with hkept | hnew
  · have hhigh := (List.mem_filter.mp hkept).2
    rw [hheight] at hhigh
    simp [hthrough] at hhigh
  · obtain ⟨c,-,rfl⟩ := mem_analyticsTransactionFactsBackfill.mp hnew
    obtain rfl : c.txid = txid := htxid
    rfl

/-- The reader gets something, and whatever it gets is what the transaction amounts to. -/
def ReadsExactly (w : Warehouse) (L : CoinLedger) (block : ParsedDogecoinBlock) (txid : String) :
    Prop :=
  (∃ totals, w.Reads block txid totals) ∧
    ∀ totals, w.Reads block txid totals → totals = chainTotals L block txid

theorem readsExactly_backfilled (hcoins : HasCoins w blocks) (hv : ValidBlocks .empty blocks L)
    (hpays : PaysOut blocks) (hb : block ∈ blocks) (hthrough : block.height ≤ through)
    (hne : transactionOutputs block txid ≠ []) :
    ReadsExactly (w.backfillAnalyticsTransactionFacts through) L block txid := by
  have hnew := recomputedFact_block hcoins hv hb hthrough hne
  have honly {row} (hrow : row ∈
      (w.backfillAnalyticsTransactionFacts through).transactionFacts block txid) :
      row = recomputedFact through w txid := mem_transactionFacts_backfilled hthrough hrow
  constructor
  · obtain ⟨feeBase,hreads⟩ := Warehouse.exists_reads hnew fun other hother => by
      rw [honly hother]
    exact ⟨_,hreads⟩
  · intro totals hreads
    refine hreads.eq_of_agree (List.ne_nil_of_mem hnew) fun row hrow => ?_
    rw [honly hrow]
    exact recomputedFact_totals hcoins hv hpays hb hthrough hne

end Recompute

section Run
variable {w : Warehouse} {L : CoinLedger} {base windows : List (List ParsedDogecoinBlock)}
variable {block : ParsedDogecoinBlock} {txid : String}

theorem mem_runFacts (hfacts : HasFacts w (base.map backfillFacts ++ windows.map (onlineFacts L)))
    {row : AnalyticsTransactionFact} : row ∈ w.analyticsTransactions ↔
      (∃ window ∈ base, ∃ b ∈ window, ∃ txid h, row = transactionRow
        (coreCreatedOutputsByKey (window.map coreBlockApplication)) .empty b txid h) ∨
      ∃ window ∈ windows, ∃ b ∈ window, ∃ txid h, row = transactionRow
        (coreCreatedOutputsByKey (window.map coreBlockApplication)) (chainPrevouts L window) b
          txid h := by
  rw [hfacts.transactions]
  simp only [List.flatMap_append,List.flatMap_map,List.mem_append,List.mem_flatMap,backfillFacts,
    onlineFacts,coreWindowFactInserts_transactions]

theorem mem_transactionFacts (hv : ValidBlocks .empty (base.flatten ++ windows.flatten) L)
    (hfacts : HasFacts w (base.map backfillFacts ++ windows.map (onlineFacts L)))
    (hb : block ∈ base.flatten ++ windows.flatten) {row : AnalyticsTransactionFact}
    (hrow : row ∈ w.transactionFacts block txid) :
    (∃ window ∈ base, block ∈ window ∧ ∃ h, row = transactionRow
        (coreCreatedOutputsByKey (window.map coreBlockApplication)) .empty block txid h) ∨
      ∃ window ∈ windows, block ∈ window ∧ ∃ h, row = transactionRow
        (coreCreatedOutputsByKey (window.map coreBlockApplication)) (chainPrevouts L window) block
          txid h := by
  obtain ⟨hmem,hkey⟩ := List.mem_filter.mp hrow
  obtain ⟨hheight,-,htxid⟩ := of_decide_eq_true hkey
  rcases (mem_runFacts hfacts).mp hmem with ⟨window,hw,b,hbw,txid',h,rfl⟩ |
      ⟨window,hw,b,hbw,txid',h,rfl⟩
  · obtain rfl : b = block := eq_of_height_eq hv.linked
      (List.mem_append_left _ (List.mem_flatten.mpr ⟨window,hw,hbw⟩)) hb hheight
    obtain rfl : txid' = txid := htxid
    exact Or.inl ⟨window,hw,hbw,h,rfl⟩
  · obtain rfl : b = block := eq_of_height_eq hv.linked
      (List.mem_append_right _ (List.mem_flatten.mpr ⟨window,hw,hbw⟩)) hb hheight
    obtain rfl : txid' = txid := htxid
    exact Or.inr ⟨window,hw,hbw,h,rfl⟩

/-- The rows of a transaction are exact where its window resolved every input of value. -/
theorem transactionFacts_exact (hv : ValidBlocks .empty (base.flatten ++ windows.flatten) L)
    (hfacts : HasFacts w (base.map backfillFacts ++ windows.map (onlineFacts L)))
    (hb : block ∈ base.flatten ++ windows.flatten)
    (hearlier : ∀ window ∈ base, block ∈ window →
      totalSpent L (earlierSpends window block txid) = 0) :
    ∀ row ∈ w.transactionFacts block txid, row.totals = chainTotals L block txid := by
  intro row hrow
  rcases mem_transactionFacts hv hfacts hb hrow with ⟨window,hw,hbw,h,rfl⟩ | ⟨window,hw,hbw,h,rfl⟩
  · exact (totals_backfill_iff hv (fun b hb => List.mem_append_left _
      (List.mem_flatten.mpr ⟨window,hw,hb⟩)) h).mpr (hearlier window hw hbw)
  · exact totals_online hv (fun b hb => List.mem_append_right _
      (List.mem_flatten.mpr ⟨window,hw,hb⟩)) hbw h

end Run

end OnlyDoge
