import OnlyDoge.Warehouse.FactBackfill
import OnlyDoge.Warehouse.InMemoryRuns
set_option autoImplicit false

/-!
The transaction facts of the in-memory warehouse: what its windows write, and what
`backfillAnalyticsTransactionFacts` puts in their place.
-/

namespace OnlyDoge.InMemory
open Rows Job WarehouseState

def isSpentByTransaction (output : ProjectionUtxoOutput) (txid : String) : Bool :=
  output.spentBy.any (·.spentByTxid = txid)

def analyticsFactFromOutputs (outputs : OutputGroup) (outputsByKey : OutputMap) (version : Nat) :
    AnalyticsTransactionFact :=
  let sorted := sortOutputsByVout outputs.val
  let first := sorted.head (sortOutputsByVout_ne_nil outputs)
  let isCoinbase := sorted.any (·.isCoinbase)
  let spentInputs := outputsByKey.values.filter (isSpentByTransaction · first.txid)
  let totalInput := (spentInputs.map (·.valueBase)).sum
  let grossOutput := (sorted.map (·.valueBase)).sum
  { blockHeight := first.blockHeight
    blockHash := first.blockHash
    blockTime := first.blockTime
    txid := first.txid
    txIndex := first.txIndex
    isCoinbase := isCoinbase
    inputCount := spentInputs.length
    outputCount := sorted.length
    totalInputBase := totalInput
    grossOutputBase := grossOutput
    feeBase := analyticsFeeBase isCoinbase totalInput grossOutput
    version := version }

namespace WarehouseState

def buildInMemoryAnalyticsTransactionFacts (throughBlockHeight : Nat) (s : WarehouseState) :
    List AnalyticsTransactionFact :=
  let outputs := s.utxoOutputs.filter (·.blockHeight ≤ throughBlockHeight)
  let outputsByKey : OutputMap := .ofEntries (outputs.map (fun row => (row.outputKey,row)))
  (groupCoreOutputsByTxid outputs).values.map
    (analyticsFactFromOutputs · outputsByKey throughBlockHeight)

def backfillAnalyticsTransactionFacts (throughBlockHeight : Nat) (s : WarehouseState) :
    WarehouseState :=
  (s.buildInMemoryAnalyticsTransactionFacts throughBlockHeight).foldl
    upsertAnalyticsTransactionFact
    { s with transactionFacts := s.transactionFacts.filter (throughBlockHeight < ·.blockHeight) }

/-- The fact that `listAddressTransactions` shows for a transaction of a block. -/
def transactionFact (s : WarehouseState) (block : ParsedDogecoinBlock) (txid : String) :
    Option AnalyticsTransactionFact :=
  s.transactionFacts.find? fun row =>
    row.txid = txid ∧ row.blockHeight = block.height ∧ row.blockHash = block.hash

end WarehouseState

/-- Each of the facts is one of a transaction of these blocks, and is exact. -/
def FactsExact (L : CoinLedger) (blocks : List ParsedDogecoinBlock)
    (facts : List AnalyticsTransactionFact) : Prop :=
  ∀ row ∈ facts, ∃ block ∈ blocks, transactionOutputs block row.txid ≠ [] ∧
    row.blockHeight = block.height ∧ row.blockHash = block.hash ∧
      row.totals = chainTotals L block row.txid

section Exact
variable {L : CoinLedger} {blocks more : List ParsedDogecoinBlock} {s : WarehouseState}
variable {facts : List AnalyticsTransactionFact} {block : ParsedDogecoinBlock} {txid : String}

theorem FactsExact.append (h : FactsExact L blocks facts) (more : List ParsedDogecoinBlock) :
    FactsExact L (blocks ++ more) facts := by
  intro row hrow
  obtain ⟨block,hb,hrest⟩ := h row hrow
  exact ⟨block,List.mem_append_left _ hb,hrest⟩

theorem FactsExact.upserts (h : FactsExact L blocks s.transactionFacts)
    (hfacts : FactsExact L blocks facts) :
    FactsExact L blocks (facts.foldl upsertAnalyticsTransactionFact s).transactionFacts := by
  intro row hrow
  rcases mem_upsertFacts hrow with hold | hnew
  · exact h row hold
  · exact hfacts row hnew

theorem mem_txids_upserts : txid ∈
    (facts.foldl upsertAnalyticsTransactionFact s).transactionFacts.map (·.txid) ↔
      txid ∈ s.transactionFacts.map (·.txid) ∨ txid ∈ facts.map (·.txid) := by
  induction facts generalizing s with
  | nil => simp
  | cons row facts ih =>
    rw [List.foldl_cons,ih,upsertAnalyticsTransactionFact]
    simp only [mem_keys_upsert,List.map_cons,List.mem_cons,or_assoc]

theorem block_of_txid (hv : ValidBlocks .empty blocks L) (hb : block ∈ blocks)
    {block' : ParsedDogecoinBlock} (hb' : block' ∈ blocks)
    (hne : transactionOutputs block txid ≠ []) (hne' : transactionOutputs block' txid ≠ []) :
    block' = block := by
  obtain ⟨c,hc⟩ := List.exists_mem_of_ne_nil _ hne'
  obtain ⟨hmem,htxid⟩ := List.mem_filter.mp hc
  have hin := (hv.mem_transactionOutputs hb hne).mp
    ⟨List.mem_flatMap.mpr ⟨block',hb',hmem⟩,of_decide_eq_true htxid⟩
  refine eq_of_height_eq hv.linked hb' hb ?_
  rw [← blockCreates_height hmem,← blockCreates_height (List.mem_of_mem_filter hin)]

theorem shown_exact (hv : ValidBlocks .empty blocks L) (hb : block ∈ blocks)
    (hne : transactionOutputs block txid ≠ []) (hexact : FactsExact L blocks s.transactionFacts)
    (hpresent : txid ∈ s.transactionFacts.map (·.txid)) :
    (s.transactionFact block txid).map (·.totals) = some (chainTotals L block txid) := by
  have hplace : ∀ row ∈ s.transactionFacts, row.txid = txid → row.blockHeight = block.height ∧
      row.blockHash = block.hash ∧ row.totals = chainTotals L block txid := by
    rintro row hrow rfl
    obtain ⟨block',hb',hne',hrest⟩ := hexact row hrow
    obtain rfl := block_of_txid hv hb hb' hne hne'
    exact hrest
  obtain ⟨row,hrow,htxid⟩ := List.mem_map.mp hpresent
  unfold transactionFact
  cases hfind : s.transactionFacts.find? (fun row =>
      row.txid = txid ∧ row.blockHeight = block.height ∧ row.blockHash = block.hash) with
  | none =>
    have hnone := List.find?_eq_none.mp hfind row hrow
    obtain ⟨hheight,hhash,-⟩ := hplace row hrow htxid
    simp [htxid,hheight,hhash] at hnone
  | some found =>
    have hkey : found.txid = txid ∧ found.blockHeight = block.height ∧
        found.blockHash = block.hash := by simpa using List.find?_some hfind
    rw [Option.map_some,(hplace found (List.mem_of_find?_eq_some hfind) hkey.1).2.2]

end Exact

/-- The outputs are these creates in their order, and are taken by these spends. -/
structure MarksOf (creates : List ProjectionUtxoOutput) (spends : List CoreDogecoinSpend)
    (s : WarehouseState) : Prop where
  outputs : s.utxoOutputs.map bare = creates
  taken : ∀ o ∈ s.utxoOutputs, ∀ txid, isSpentByTransaction o txid ↔
    ∃ spend ∈ spends, spend.outputKey = o.outputKey ∧ spend.spentByTxid = txid

section Marks
variable {creates more : List ProjectionUtxoOutput} {spends : List CoreDogecoinSpend}
variable {spend : CoreDogecoinSpend} {s t : WarehouseState}

theorem MarksOf.keys (h : MarksOf creates spends s) :
    s.utxoOutputs.map (·.outputKey) = creates.map (·.outputKey) := by
  rw [← h.outputs,List.map_map]
  rfl

theorem MarksOf.of_utxos (h : MarksOf creates spends s) (hutxos : t.utxoOutputs = s.utxoOutputs) :
    MarksOf creates spends t := by
  obtain ⟨ho,ht⟩ := h
  exact ⟨hutxos ▸ ho,hutxos ▸ ht⟩

theorem MarksOf.create (h : MarksOf creates spends s)
    (hnodup : ((creates ++ more).map (·.outputKey)).Nodup)
    (hunspent : ∀ c ∈ more, c.spentBy = none)
    (hfresh : ∀ c ∈ more, ∀ spend ∈ spends, spend.outputKey ≠ c.outputKey) :
    MarksOf (creates ++ more) spends (more.foldl upsertUtxoOutput s) := by
  rw [List.map_append,List.nodup_append] at hnodup
  obtain ⟨-,hmore,hdisjoint⟩ := hnodup
  rw [upsertUtxoOutputs_eq hmore fun c hc o ho => hdisjoint _
    (h.keys ▸ List.mem_map_of_mem ho) _ (List.mem_map_of_mem hc)]
  constructor
  · rw [List.map_append,h.outputs,List.map_congr_left
      (fun c hc => bare_of_unspent (hunspent c hc)),List.map_id']
  · intro o ho txid
    rcases List.mem_append.mp ho with ho | ho
    · exact h.taken o ho txid
    · simp only [isSpentByTransaction,hunspent o ho,Option.any_none,Bool.false_eq_true,false_iff]
      rintro ⟨spend,hspend,hkey,-⟩
      exact hfresh o ho spend hspend hkey

theorem MarksOf.take (h : MarksOf creates spends s) (hnodup : (creates.map (·.outputKey)).Nodup)
    (hfirst : ∀ other ∈ spends, other.outputKey ≠ spend.outputKey) :
    MarksOf creates (spends ++ [spend]) (s.spendUtxoOutput spend) := by
  have hrows : (s.spendUtxoOutput spend).utxoOutputs = s.utxoOutputs.map (fun o =>
      if o.outputKey = spend.outputKey then spentCoreOutput o spend else o) :=
    update_eq_map (h.keys ▸ hnodup)
  constructor
  · rw [hrows,List.map_map,← h.outputs]
    refine List.map_congr_left fun o _ => ?_
    simp only [Function.comp_apply]
    split <;> rfl
  · intro o ho txid
    rw [hrows] at ho
    obtain ⟨o',ho',rfl⟩ := List.mem_map.mp ho
    have hold := h.taken o' ho' txid
    by_cases hkey : o'.outputKey = spend.outputKey
    · have hnone : ∀ other ∈ spends, other.outputKey ≠ o'.outputKey := hkey ▸ hfirst
      simp only [if_pos hkey,isSpentByTransaction,spentCoreOutput,Option.any_some,
        decide_eq_true_eq,List.mem_append,List.mem_singleton]
      constructor
      · exact fun htxid => ⟨spend,Or.inr rfl,hkey.symm,htxid⟩
      · rintro ⟨other,hother | rfl,hother',htxid⟩
        · exact absurd hother' (hnone other hother)
        · exact htxid
    · rw [if_neg hkey,hold]
      constructor
      · rintro ⟨other,hother,hrest⟩
        exact ⟨other,List.mem_append_left _ hother,hrest⟩
      · rintro ⟨other,hother,hother',htxid⟩
        rcases List.mem_append.mp hother with hother | hother
        · exact ⟨other,hother,hother',htxid⟩
        · rw [List.mem_singleton.mp hother] at hother'
          exact absurd hother'.symm hkey

end Marks

/-- What a job may fail with is not looked at. -/
abbrev Possibly {α : Type} (m : MemoryJob α) (Q : α → WarehouseState → Prop) (s : WarehouseState) :
    Prop := wp m Q (fun _ _ => True) (fun _ => True) s

section Block
variable {L : CoinLedger} {blocks rest : List ParsedDogecoinBlock} {block : ParsedDogecoinBlock}
variable {createdOutputs currentOutputs : OutputMap} {s t : WarehouseState}

theorem possibly_spends {creates : List ProjectionUtxoOutput} {done spends : List CoreDogecoinSpend}
    (h : MarksOf creates done s) (hcreates : (creates.map (·.outputKey)).Nodup)
    (hspends : ((done ++ spends).map (·.outputKey)).Nodup) :
    Possibly (applyBatchUtxoSpends spends) (fun _ t => MarksOf creates (done ++ spends) t ∧
      t.transactionFacts = s.transactionFacts) s := by
  induction spends generalizing done s with
  | nil =>
    rw [List.append_nil]
    exact wp_pure ⟨h,rfl⟩
  | cons spend spends ih =>
    have hfirst : ∀ other ∈ done, other.outputKey ≠ spend.outputKey := by
      intro other hother
      rw [List.map_append,List.nodup_append] at hspends
      exact hspends.2.2 _ (List.mem_map_of_mem hother) _ (List.mem_map_of_mem List.mem_cons_self)
    rw [List.append_cons] at hspends ⊢
    refine wp_bind (wp_bind (wp_bind (wp_look (wp_ofExcept (fun _ _ => wp_assign ?_)
      (fun _ _ => trivial)))))
    exact ih (h.take hcreates hfirst) hspends

theorem possibly_movement (blockHeight : Nat) (movement : AddressMovement) (s : WarehouseState) :
    Possibly (applyBatchAddressMovementIfUnique blockHeight movement)
      (fun _ t => SameOutside s t) s := by
  refine wp_bind (wp_look (wp_when (fun _ => ?_) (fun _ => ⟨rfl,rfl,rfl⟩)))
  refine wp_bind (wp_assign (wp_bind (wp_look (wp_bind (wp_ofExcept (fun _ _ => ?_)
    (fun _ _ => trivial))))))
  exact wp_assign (sameOutside_write _ _ _ _)

theorem possibly_movements (blockHeight : Nat) (movements : List AddressMovement)
    (s : WarehouseState) : Possibly (applyBatchAddressMovements movements blockHeight)
      (fun _ t => SameOutside s t) s := by
  refine wp_forEach (fun _ t => SameOutside s t) (fun _ movement _ t _ ht => ?_) ⟨rfl,rfl,rfl⟩
  exact wp_mono (possibly_movement blockHeight movement t) (fun _ _ h => ht.trans h)
    (fun _ _ h => h) (fun _ h => h)

/-- The outputs of these blocks with their spends, and the exact facts of their transactions. -/
structure RowsOf (L : CoinLedger) (blocks : List ParsedDogecoinBlock) (s : WarehouseState) :
    Prop where
  marks : MarksOf (blocks.flatMap blockCreates) (blocks.flatMap blockSpends) s
  exact_ : FactsExact L blocks s.transactionFacts
  present : ∀ block ∈ blocks, ∀ txid, transactionOutputs block txid ≠ [] →
    txid ∈ s.transactionFacts.map (·.txid)

theorem blockFacts_exact (hvalue : ∀ spend ∈ blockSpends block,
      coreSpendValue createdOutputs currentOutputs spend = spentValue L spend) :
    FactsExact L [block] (coreApplicationTransactionFacts createdOutputs currentOutputs
      (coreBlockApplication block)) := by
  intro row hrow
  obtain ⟨txid,hne,rfl⟩ := mem_coreApplicationTransactionFacts.mp hrow
  exact ⟨block,List.mem_singleton_self _,hne,rfl,rfl,transactionRow_totals_of_values hne
    fun spend hspend => hvalue spend (List.mem_of_mem_filter hspend)⟩

theorem possibly_application (h : RowsOf L blocks s)
    (hv : ValidBlocks .empty (blocks ++ block::rest) L)
    (hvalue : ∀ spend ∈ blockSpends block,
      coreSpendValue createdOutputs currentOutputs spend = spentValue L spend) :
    Possibly (applyInMemoryCoreApplication createdOutputs currentOutputs
      (coreBlockApplication block)) (fun _ t => RowsOf L (blocks ++ [block]) t) s := by
  have hsplit : blocks ++ block::rest = (blocks ++ [block]) ++ rest := by simp
  rw [hsplit] at hv
  obtain ⟨M,hM,-⟩ := hv.append
  have hcreates := (List.nodup_append.mp hM.create_keys_nodup).2.1
  have hspends := (List.nodup_append.mp hM.spend_keys_nodup).2.1
  rw [List.flatMap_append] at hcreates hspends
  simp only [List.flatMap_singleton] at hcreates hspends
  -- an earlier block spends nothing that this one creates
  have hfresh : ∀ c ∈ blockCreates block, ∀ spend ∈ blocks.flatMap blockSpends,
      spend.outputKey ≠ c.outputKey := by
    intro c hc spend hspend heq
    obtain ⟨N,hN,-⟩ := hM.append
    have hmem : spend.outputKey ∈ N.created.map (·.outputKey) := by
      refine N.spent_created _ ?_
      rw [hN.spent]
      exact List.mem_append_right _ (List.mem_map_of_mem hspend)
    have hcreated : N.created = blocks.flatMap blockCreates := hN.created
    rw [hcreated,heq] at hmem
    rw [List.map_append,List.nodup_append] at hcreates
    exact hcreates.2.2 _ hmem _ (List.mem_map_of_mem hc) rfl
  obtain ⟨-,-,hfacts₁,-⟩ := foldl_upsertOutputs (blockCreates block) s
  refine wp_bind (wp_assign (wp_bind (wp_mono (possibly_spends (h.marks.create hcreates
    (fun c hc => blockCreates_unspent hc) hfresh) hcreates hspends) ?_ (fun _ _ h => h)
    (fun _ h => h))))
  rintro _ t₂ ⟨hmarks,hfacts₂⟩
  refine wp_bind (wp_mono (possibly_movements _ _ t₂) ?_ (fun _ _ h => h) (fun _ h => h))
  intro _ t₃ hsame
  refine wp_bind (wp_assign (wp_assign ?_))
  have hold : t₃.transactionFacts = s.transactionFacts := hsame.facts.trans (hfacts₂.trans hfacts₁)
  have hnew := blockFacts_exact hvalue
  have htxids : ∀ txid, transactionOutputs block txid ≠ [] → txid ∈
      (coreApplicationTransactionFacts createdOutputs currentOutputs
        (coreBlockApplication block)).map (·.txid) := fun txid hne =>
    List.mem_map.mpr ⟨_,mem_coreApplicationTransactionFacts.mpr ⟨txid,hne,rfl⟩,rfl⟩
  generalize coreApplicationTransactionFacts createdOutputs currentOutputs
    (coreBlockApplication block) = facts at hnew htxids ⊢
  obtain ⟨hutxos₄,-⟩ := foldl_upsertFacts facts t₃
  obtain ⟨hutxos₅,-,-,hfacts₅,-⟩ := appendAppliedBlock_rows ⟨block.height,block.hash⟩
    (facts.foldl upsertAnalyticsTransactionFact t₃)
  have hexact : FactsExact L (blocks ++ [block]) t₃.transactionFacts :=
    hold ▸ h.exact_.append [block]
  constructor
  · rw [List.flatMap_append,List.flatMap_append]
    simp only [List.flatMap_singleton]
    exact hmarks.of_utxos (hutxos₅.trans (hutxos₄.trans hsame.utxos))
  · refine hfacts₅ ▸ hexact.upserts fun row hrow => ?_
    obtain ⟨b,hb,hrest⟩ := hnew row hrow
    exact ⟨b,List.mem_append_right _ hb,hrest⟩
  · intro b hb txid hne
    refine hfacts₅ ▸ mem_txids_upserts.mpr ?_
    rw [hold]
    rcases List.mem_append.mp hb with hb | hb
    · exact Or.inl (h.present b hb txid hne)
    · obtain rfl := List.mem_singleton.mp hb
      exact Or.inr (htxids txid hne)

end Block

section Windows
variable {L M : CoinLedger} {next : Nat} {blocks window rest : List ParsedDogecoinBlock}
variable {createdOutputs currentOutputs : OutputMap} {s : WarehouseState}

theorem possibly_blocks (h : RowsOf L blocks s)
    (hv : ValidBlocks .empty (blocks ++ (window ++ rest)) L)
    (hvalue : ∀ spend ∈ window.flatMap blockSpends,
      coreSpendValue createdOutputs currentOutputs spend = spentValue L spend) :
    Possibly (forEach (window.map coreBlockApplication)
        (applyInMemoryCoreApplication createdOutputs currentOutputs))
      (fun _ t => RowsOf L (blocks ++ window) t) s := by
  induction window generalizing blocks s with
  | nil =>
    rw [List.append_nil]
    exact wp_pure h
  | cons block window ih =>
    refine wp_bind (wp_mono (possibly_application h hv fun spend hspend =>
      hvalue spend (List.mem_append_left _ hspend)) ?_ (fun _ _ h => h) (fun _ h => h))
    intro _ t ht
    rw [List.append_cons]
    refine ih ht ?_ fun spend hspend => hvalue spend (List.mem_append_right _ hspend)
    rwa [List.cons_append,List.append_cons] at hv

theorem rowsOf_afterWindow (h : Holds M next s) (hrows : RowsOf L blocks s)
    (hbase : ValidBlocks .empty blocks M)
    (hv : ValidBlocks .empty (blocks ++ (window ++ rest)) L)
    (hhead : ∀ block ∈ window.head?, block.height = next)
    (hdone : ∃ result, (applyCoreDogecoinWindow (window.map coreBlockApplication)).run s [] =
      (.value result,afterWindow window s,[])) :
    RowsOf L (blocks ++ window) (afterWindow window s) := by
  have hsplit := hv
  rw [← List.append_assoc] at hsplit
  obtain ⟨N,hN,hrest⟩ := hsplit.append
  have hheights : ∀ a ∈ window.map coreBlockApplication, next ≤ a.blockHeight := by
    intro a ha
    obtain ⟨block,hblock,rfl⟩ := List.mem_map.mp ha
    exact le_of_linked (hN.suffix hbase).linked hhead hblock
  have hnil (hnone : window.map coreBlockApplication = []) : RowsOf L (blocks ++ window) s := by
    obtain rfl : window = [] := List.map_eq_nil_iff.mp hnone
    rwa [List.append_nil]
  have hwp : Possibly (applyCoreDogecoinWindow (window.map coreBlockApplication))
      (fun _ t => RowsOf L (blocks ++ window) t) s := by
    refine wp_ite (fun hnone => wp_pure (hnil hnone)) (fun _ => ?_)
    refine wp_bind (wp_look (wp_bind (wp_assign ?_)))
    rw [pending_next h hheights]
    refine wp_ite (fun hnone => wp_pure (hnil hnone)) (fun _ => wp_bind (wp_look (wp_bind ?_)))
    refine wp_mono (possibly_blocks hrows hv fun spend hspend => ?_) (fun _ _ ht => wp_pure ht)
      (fun _ _ h => h) (fun _ h => h)
    obtain ⟨o,ho,hfind⟩ := window_found h.outputs hbase hN hspend
    rw [coreSpendValue,ho,spentValue,hrest.find_mono hfind]
    rfl
  obtain ⟨result,hrun⟩ := hdone
  exact value_of_wp hwp hrun

theorem rowsOf_afterWindows {windows : List (List ParsedDogecoinBlock)} (h : Holds M next s)
    (hrows : RowsOf L blocks s) (hbase : ValidBlocks .empty blocks M)
    (hv : ValidBlocks .empty (blocks ++ windows.flatten) L)
    (hhead : ∀ block ∈ windows.flatten.head?, block.height = next)
    (hplain : ∀ c ∈ L.created, c.outputKey.Plain) :
    Completes windows s ∧ RowsOf L (blocks ++ windows.flatten) (afterWindows windows s) := by
  induction windows generalizing blocks M next s with
  | nil =>
    rw [List.flatten_nil,List.append_nil]
    exact ⟨trivial,hrows⟩
  | cons window windows ih =>
    rw [List.flatten_cons] at hv hhead ⊢
    have hlinked := (hv.suffix hbase).linked
    have hfirst : ∀ block ∈ window.head?, block.height = next := by
      intro block hblock
      refine hhead block ?_
      cases window with
      | nil => cases hblock
      | cons first rest => exact hblock
    have hsplit := hv
    rw [← List.append_assoc] at hsplit
    obtain ⟨N,hN,hrest⟩ := hsplit.append
    have hplainN : ∀ c ∈ N.created, c.outputKey.Plain := by
      intro c hc
      refine hplain c ?_
      rw [hrest.created]
      exact List.mem_append_left _ hc
    obtain ⟨result,hrun,hholds⟩ := run_of_surely (surely_window h hbase hN hfirst hplainN)
    have hdone := rowsOf_afterWindow h hrows hbase hv hfirst ⟨result,hrun⟩
    obtain ⟨hcompletes,hrows'⟩ := ih hholds hdone hN hsplit (head_append_next hlinked hhead)
    rw [List.append_assoc] at hrows'
    exact ⟨⟨⟨result,hrun⟩,hcompletes⟩,hrows'⟩

end Windows

section Recompute
variable {L : CoinLedger} {blocks : List ParsedDogecoinBlock} {block : ParsedDogecoinBlock}
variable {s : WarehouseState} {txid : String} {through : Nat}

theorem mem_created_of_output (h : RowsOf L blocks s) {o : ProjectionUtxoOutput}
    (ho : o ∈ s.utxoOutputs) : bare o ∈ blocks.flatMap blockCreates :=
  h.marks.outputs ▸ List.mem_map_of_mem ho

theorem groupedOutputs_perm (h : RowsOf L blocks s) (hv : ValidBlocks .empty blocks L)
    (hb : block ∈ blocks) (hthrough : block.height ≤ through)
    (hne : transactionOutputs block txid ≠ []) :
    (((s.utxoOutputs.filter (·.blockHeight ≤ through)).filter (·.txid = txid)).map bare).Perm
      (transactionOutputs block txid) := by
  have hlist : ((s.utxoOutputs.filter (·.blockHeight ≤ through)).filter (·.txid = txid)).map bare =
      ((blocks.flatMap blockCreates).filter (·.blockHeight ≤ through)).filter (·.txid = txid) := by
    rw [← h.marks.outputs,List.filter_map,List.filter_map]
    rfl
  have hnodup : (blocks.flatMap blockCreates).Nodup :=
    List.Nodup.of_map _ (List.nodup_append.mp hv.create_keys_nodup).2.1
  rw [hlist]
  exact hv.outputs_perm hb hthrough hne (hnodup.filter _) fun c => by simp

theorem spentInputs_perm (h : RowsOf L blocks s) (hv : ValidBlocks .empty blocks L)
    (hpays : PaysOut blocks) (hb : block ∈ blocks) (hthrough : block.height ≤ through)
    (hne : transactionOutputs block txid ≠ []) :
    (((s.utxoOutputs.filter (·.blockHeight ≤ through)).filter
      (isSpentByTransaction · txid)).map (·.outputKey)).Perm
        ((transactionSpends block txid).map (·.outputKey)) := by
  have hcreates : (s.utxoOutputs.map (·.outputKey)).Nodup := by
    rw [h.marks.keys]
    exact (List.nodup_append.mp hv.create_keys_nodup).2.1
  have hspends : ((transactionSpends block txid).map (·.outputKey)).Nodup := by
    have hall := (List.nodup_append.mp hv.spend_keys_nodup).2.1
    rw [List.map_flatMap,List.nodup_flatMap] at hall
    exact (hall.1 block hb).sublist (List.filter_sublist.map _)
  rw [List.perm_ext_iff_of_nodup
    (hcreates.sublist ((List.filter_sublist.trans List.filter_sublist).map _)) hspends]
  intro k
  constructor
  · intro hk
    obtain ⟨o,ho,rfl⟩ := List.mem_map.mp hk
    obtain ⟨ho,htaken⟩ := List.mem_filter.mp ho
    obtain ⟨spend,hspend,hkey,htxid⟩ :=
      (h.marks.taken o (List.mem_of_mem_filter ho) txid).mp htaken
    exact List.mem_map.mpr
      ⟨spend,(hv.mem_transactionSpends hpays hb hne).mp ⟨hspend,htxid⟩,hkey⟩
  · intro hk
    obtain ⟨spend,hspend,rfl⟩ := List.mem_map.mp hk
    obtain ⟨c,hc,hfind,hle⟩ := hv.spend_find hb (List.mem_of_mem_filter hspend)
    rw [← h.marks.outputs] at hc
    obtain ⟨o,ho,rfl⟩ := List.mem_map.mp hc
    have hkey : o.outputKey = spend.outputKey := (Ledger.find_eq_some.mp hfind).2
    have hmem := (hv.mem_transactionSpends hpays hb hne).mpr hspend
    refine List.mem_map.mpr ⟨o,List.mem_filter.mpr ⟨List.mem_filter.mpr ⟨ho,?_⟩,?_⟩,hkey⟩
    · exact decide_eq_true (Nat.le_trans hle hthrough)
    · exact (h.marks.taken o ho txid).mpr ⟨spend,hmem.1,hkey.symm,hmem.2⟩

theorem spentInputs_sum (h : RowsOf L blocks s) (hv : ValidBlocks .empty blocks L)
    (hpays : PaysOut blocks) (hb : block ∈ blocks) (hthrough : block.height ≤ through)
    (hne : transactionOutputs block txid ≠ []) :
    (((s.utxoOutputs.filter (·.blockHeight ≤ through)).filter
      (isSpentByTransaction · txid)).map (·.valueBase)).sum =
        totalSpent L (transactionSpends block txid) := by
  have hvalue : ∀ o ∈ (s.utxoOutputs.filter (·.blockHeight ≤ through)).filter
      (isSpentByTransaction · txid), o.valueBase =
        ((L.find o.outputKey).map (·.valueBase)).getD 0 := by
    intro o ho
    have hfind := hv.find_of_create (mem_created_of_output h
      (List.mem_of_mem_filter (List.mem_of_mem_filter ho)))
    have hkey : (bare o).outputKey = o.outputKey := rfl
    rw [hkey] at hfind
    rw [hfind]
    rfl
  rw [List.map_congr_left hvalue]
  have hperm := ((spentInputs_perm h hv hpays hb hthrough hne).map
    (fun k => ((L.find k).map (·.valueBase)).getD 0)).sum_eq
  rw [List.map_map,List.map_map] at hperm
  exact hperm

theorem totalsOf_bare (outputs : List ProjectionUtxoOutput) (inputCount totalInput : Nat) :
    totalsOf (outputs.map bare) inputCount totalInput = totalsOf outputs inputCount totalInput := by
  unfold totalsOf
  rw [List.any_map,List.map_map,List.length_map]
  rfl

theorem factFromOutputs_exact (h : RowsOf L blocks s) (hv : ValidBlocks .empty blocks L)
    (hpays : PaysOut blocks) (hb : block ∈ blocks) (hthrough : block.height ≤ through)
    (hne : transactionOutputs block txid ≠ []) {outputs : OutputGroup}
    (houtputs : outputs.val =
      (s.utxoOutputs.filter (·.blockHeight ≤ through)).filter (·.txid = txid)) :
    let row := analyticsFactFromOutputs outputs (.ofEntries ((s.utxoOutputs.filter
      (·.blockHeight ≤ through)).map (fun row => (row.outputKey,row)))) through
    row.txid = txid ∧ row.blockHeight = block.height ∧ row.blockHash = block.hash ∧
      row.totals = chainTotals L block txid := by
  intro row
  have hsorted : (sortOutputsByVout outputs.val).Perm outputs.val := List.perm_insertionSort _ _
  have hperm : ((sortOutputsByVout outputs.val).map bare).Perm (transactionOutputs block txid) := by
    refine (hsorted.map bare).trans ?_
    rw [houtputs]
    exact groupedOutputs_perm h hv hb hthrough hne
  have hfirst : bare ((sortOutputsByVout outputs.val).head (sortOutputsByVout_ne_nil outputs)) ∈
      transactionOutputs block txid :=
    hperm.mem_iff.mp (List.mem_map_of_mem (List.head_mem _))
  obtain ⟨hcreate,htxid⟩ := List.mem_filter.mp hfirst
  have htxid : row.txid = txid := of_decide_eq_true htxid
  have hheight : row.blockHeight = block.height := @blockCreates_height block (bare _) hcreate
  have hhash : row.blockHash = block.hash := @blockCreates_hash block (bare _) hcreate
  have hvalues : (OrderedMap.ofEntries ((s.utxoOutputs.filter (·.blockHeight ≤ through)).map
      (fun row => (row.outputKey,row)))).values =
        s.utxoOutputs.filter (·.blockHeight ≤ through) := by
    rw [OrderedMap.values,OrderedMap.entries_ofEntries,List.map_map]
    · exact List.map_id _
    · rw [List.map_map]
      refine List.Nodup.sublist (List.filter_sublist.map _) ?_
      exact h.marks.keys ▸ (List.nodup_append.mp hv.create_keys_nodup).2.1
  refine ⟨htxid,hheight,hhash,?_⟩
  have htotals : row.totals = totalsOf (sortOutputsByVout outputs.val)
      ((OrderedMap.values _).filter (isSpentByTransaction · row.txid)).length
      (((OrderedMap.values _).filter (isSpentByTransaction · row.txid)).map
      (·.valueBase)).sum := rfl
  rw [htotals,hvalues,htxid,spentInputs_sum h hv hpays hb hthrough hne,← totalsOf_bare,
    totalsOf_perm hperm,chainTotals]
  have hlength := (spentInputs_perm h hv hpays hb hthrough hne).length_eq
  rw [List.length_map,List.length_map] at hlength
  rw [hlength]

theorem mem_buildFacts {row : AnalyticsTransactionFact} :
    row ∈ s.buildInMemoryAnalyticsTransactionFacts through ↔ ∃ txid, ∃ outputs : OutputGroup,
      outputs.val = (s.utxoOutputs.filter (·.blockHeight ≤ through)).filter (·.txid = txid) ∧
      row = analyticsFactFromOutputs outputs (.ofEntries ((s.utxoOutputs.filter
        (·.blockHeight ≤ through)).map (fun row => (row.outputKey,row)))) through := by
  unfold buildInMemoryAnalyticsTransactionFacts
  simp only [List.mem_map,OrderedMap.mem_values]
  constructor
  · rintro ⟨outputs,⟨txid,hget⟩,rfl⟩
    exact ⟨txid,outputs,mem_groupCoreOutputsByTxid.mp (OrderedMap.get_eq_some.mp hget),rfl⟩
  · rintro ⟨txid,outputs,houtputs,rfl⟩
    exact ⟨outputs,⟨txid,OrderedMap.get_eq_some.mpr (mem_groupCoreOutputsByTxid.mpr houtputs)⟩,rfl⟩

theorem recomputed_exact (h : RowsOf L blocks s) (hv : ValidBlocks .empty blocks L)
    (hpays : PaysOut blocks) (through : Nat) :
    FactsExact L blocks (s.buildInMemoryAnalyticsTransactionFacts through) := by
  intro row hrow
  obtain ⟨txid,outputs,houtputs,rfl⟩ := mem_buildFacts.mp hrow
  obtain ⟨o,ho⟩ := List.exists_mem_of_ne_nil _ outputs.property
  rw [houtputs] at ho
  obtain ⟨ho,htxid⟩ := List.mem_filter.mp ho
  obtain ⟨ho,hlow⟩ := List.mem_filter.mp ho
  obtain ⟨block,hb,hcreate⟩ := List.mem_flatMap.mp (mem_created_of_output h ho)
  have hne : transactionOutputs block txid ≠ [] :=
    List.ne_nil_of_mem (List.mem_filter.mpr ⟨hcreate,htxid⟩)
  have hthrough : block.height ≤ through := by
    rw [← blockCreates_height hcreate]
    exact of_decide_eq_true hlow
  obtain ⟨hrow,hrest⟩ := factFromOutputs_exact h hv hpays hb hthrough hne houtputs
  exact ⟨block,hb,hrow ▸ hne,hrow ▸ hrest⟩

/-- After the recomputation the fact shown for a transaction up to the height is exact. -/
theorem backfilledFact_exact (h : RowsOf L blocks s) (hv : ValidBlocks .empty blocks L)
    (hpays : PaysOut blocks) (hb : block ∈ blocks) (hthrough : block.height ≤ through)
    (hne : transactionOutputs block txid ≠ []) :
    ((s.backfillAnalyticsTransactionFacts through).transactionFact block txid).map (·.totals) =
      some (chainTotals L block txid) := by
  have hkept : FactsExact L blocks
      (s.transactionFacts.filter (through < ·.blockHeight)) := fun row hrow =>
    h.exact_ row (List.mem_of_mem_filter hrow)
  refine shown_exact hv hb hne (FactsExact.upserts hkept (recomputed_exact h hv hpays through))
    (mem_txids_upserts.mpr (Or.inr ?_))
  have hgroup : (s.utxoOutputs.filter (·.blockHeight ≤ through)).filter (·.txid = txid) ≠ [] := by
    intro hnil
    have hperm := groupedOutputs_perm h hv hb hthrough hne
    rw [hnil] at hperm
    exact hne hperm.nil_eq.symm
  exact List.mem_map.mpr ⟨_,mem_buildFacts.mpr ⟨txid,⟨_,hgroup⟩,rfl,rfl⟩,
    (@factFromOutputs_exact _ _ _ _ _ _ h hv hpays hb hthrough hne ⟨_,hgroup⟩ rfl).1⟩

theorem windowFact_exact (h : RowsOf L blocks s) (hv : ValidBlocks .empty blocks L)
    (hb : block ∈ blocks) (hne : transactionOutputs block txid ≠ []) :
    (s.transactionFact block txid).map (·.totals) = some (chainTotals L block txid) :=
  shown_exact hv hb hne h.exact_ (h.present block hb txid hne)

end Recompute

/-- Applied in memory, in whatever windows, a chain leaves its outputs and exact facts. -/
theorem rowsOf_run {L : CoinLedger} (windows : List (List ParsedDogecoinBlock))
    (hv : ValidBlocks .empty windows.flatten L)
    (hplain : ∀ block ∈ windows.flatten, ∀ tx ∈ block.tx, ':' ∉ tx.txid.toList) :
    Completes windows emptyWarehouseState ∧
      RowsOf L windows.flatten (afterWindows windows emptyWarehouseState) := by
  have hkeys : ∀ c ∈ L.created, c.outputKey.Plain := by
    intro c hc
    rw [hv.created] at hc
    rcases List.mem_append.mp hc with hnone | hc
    · cases hnone
    obtain ⟨block,hblock,hc⟩ := List.mem_flatMap.mp hc
    obtain ⟨tx,txIndex,_,_,htx,-,rfl⟩ := mem_blockCreates hc
    exact hplain block hblock tx (List.fst_mem_of_mem_zipIdx htx)
  have hrows : RowsOf L [] emptyWarehouseState :=
    ⟨⟨rfl,by simp [emptyWarehouseState]⟩,by simp [FactsExact,emptyWarehouseState],by simp⟩
  have hholds : Holds .empty ((windows.flatten.head?.map (·.height)).getD 0) emptyWarehouseState :=
    ⟨holds_empty.outputs.mono (Nat.zero_le _),holds_empty.moves.mono (Nat.zero_le _),
      by simp [emptyWarehouseState],by simp [emptyWarehouseState]⟩
  exact rowsOf_afterWindows hholds hrows .empty hv (fun block hblock => by
    rw [Option.mem_def.mp hblock]
    rfl) hkeys

end OnlyDoge.InMemory

namespace OnlyDoge
open InMemory

/-- What the two warehouses say of the transactions up to a height after their recomputations. -/
def BackfilledFactsWin (w : Warehouse) (s : InMemory.WarehouseState) (L : CoinLedger)
    (blocks : List ParsedDogecoinBlock) (through : Nat) : Prop :=
  ∀ block ∈ blocks, block.height ≤ through → ∀ tx ∈ block.tx,
    (recomputedFact through w tx.txid).totals = chainTotals L block tx.txid ∧
    ReadsExactly (w.backfillAnalyticsTransactionFacts through) L block tx.txid ∧
    ((s.backfillAnalyticsTransactionFacts through).transactionFact block tx.txid).map (·.totals) =
      some (chainTotals L block tx.txid) ∧
    (s.transactionFact block tx.txid).map (·.totals) = some (chainTotals L block tx.txid)

/-- Whatever facts the windows had written, after the recomputation a reader of ClickHouse gets the
recomputed one, and it is what the facts in memory say with and without a recomputation. -/
theorem backfilled_facts_win (boundaries : Warehouse → List String)
    {backfill online : CoreDogecoinApplyContext}
    (base windows memory : List (List ParsedDogecoinBlock)) {L : CoinLedger} (through : Nat)
    (hback : shouldUpdateCoreCurrentState backfill = false)
    (honline : shouldUpdateCoreCurrentState online)
    (hv : ValidBlocks .empty (base.flatten ++ windows.flatten) L)
    (hpays : PaysOut (base.flatten ++ windows.flatten))
    (hplain : ∀ block ∈ base.flatten ++ windows.flatten, ∀ tx ∈ block.tx, ':' ∉ tx.txid.toList)
    (hmemory : memory.flatten = base.flatten ++ windows.flatten) :
    ∃ w, (applyChainWindows boundaries backfill online base windows).run emptyWarehouse [] =
        (.value (),w,[]) ∧
      Completes memory emptyWarehouseState ∧
      BackfilledFactsWin w (afterWindows memory emptyWarehouseState) L
        (base.flatten ++ windows.flatten) through := by
  obtain ⟨w,hrun,hcoins,-⟩ := applyChainWindows_coins boundaries base windows hback honline hv
  obtain ⟨hcompletes,hrows⟩ := rowsOf_run memory (hmemory ▸ hv) (hmemory ▸ hplain)
  rw [hmemory] at hrows
  refine ⟨w,hrun,hcompletes,?_⟩
  intro block hb hthrough tx htx
  have hne : transactionOutputs block tx.txid ≠ [] := by
    obtain ⟨txIndex,hindex⟩ := List.mem_iff_getElem?.mp htx
    obtain ⟨c,hc,-,htxid,-⟩ :=
      exists_firstOutput (List.mk_mem_zipIdx_iff_getElem?.mpr hindex) (hpays block hb tx htx)
    exact List.ne_nil_of_mem (List.mem_filter.mpr ⟨hc,decide_eq_true htxid⟩)
  exact ⟨recomputedFact_totals hcoins hv hpays hb hthrough hne,
    readsExactly_backfilled hcoins hv hpays hb hthrough hne,
    backfilledFact_exact hrows hv hpays hb hthrough hne,windowFact_exact hrows hv hb hne⟩

/-- The window of the last block wrote a fact of `t3` without its input `t1:0`. -/
theorem backfilled_facts_win_paymentBlocks : ∃ w,
    (applyChainWindows (fun _ => []) ⟨some false,none⟩ ⟨some true,none⟩
      [paymentBlocks.take 2,paymentBlocks.drop 2] []).run emptyWarehouse [] = (.value (),w,[]) ∧
    Completes [paymentBlocks] emptyWarehouseState ∧
    BackfilledFactsWin w (afterWindows [paymentBlocks] emptyWarehouseState) paymentLedger
      paymentBlocks 3 :=
  backfilled_facts_win (fun _ => []) [paymentBlocks.take 2,paymentBlocks.drop 2] []
    [paymentBlocks] 3 (rfl : shouldUpdateCoreCurrentState ⟨some false,none⟩ = false)
    (rfl : shouldUpdateCoreCurrentState ⟨some true,none⟩ = true) paymentBlocks_valid (by decide)
    (by decide) rfl

end OnlyDoge
