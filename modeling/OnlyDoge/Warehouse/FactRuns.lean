import OnlyDoge.Warehouse.CurrentStateRuns
set_option autoImplicit false

/-! The fact tables after a run: the rows of its windows, one window after the other. -/

namespace OnlyDoge
open Job

/-- The previous outputs of a window, as the ledger of the chain has them. -/
def chainPrevouts (L : CoinLedger) (window : List ParsedDogecoinBlock) : OutputMap :=
  .ofEntries ((externalCoreSpendKeys (window.map coreBlockApplication)).filterMap
    (fun k => (L.find k).map (fun c => (k,c))))

/-- A backfill window loads no previous outputs. -/
def backfillFacts (window : List ParsedDogecoinBlock) : CoreWindowFacts :=
  coreWindowFactInserts (window.map coreBlockApplication) .empty

def onlineFacts (L : CoinLedger) (window : List ParsedDogecoinBlock) : CoreWindowFacts :=
  coreWindowFactInserts (window.map coreBlockApplication) (chainPrevouts L window)

/-- The movement and transaction tables hold the rows of these windows in their order. -/
structure HasFacts (w : Warehouse) (facts : List CoreWindowFacts) : Prop where
  movements : w.addressMovements = facts.flatMap (·.movements)
  movementsByAddress : w.addressMovementsByAddress = facts.flatMap (·.movements)
  transactions : w.analyticsTransactions = facts.flatMap (·.transactions)

section Facts
variable {w : Warehouse} {L L' M : CoinLedger} {blocks window : List ParsedDogecoinBlock}
variable {boundaries : Warehouse → List String} {context : CoreDogecoinApplyContext}

theorem hasFacts_empty : HasFacts emptyWarehouse [] := ⟨rfl,rfl,rfl⟩

theorem hasFacts_addWindow {facts : List CoreWindowFacts} (h : HasFacts w facts)
    (pending : List CoreDogecoinBlockApplication) (prevouts : OutputMap)
    (cs : Option CoreCurrentStateWindow) :
    HasFacts (w.addWindow pending prevouts cs)
      (facts ++ [coreWindowFactInserts pending prevouts]) := by
  obtain ⟨hm,ha,ht⟩ := h
  constructor <;> cases cs <;>
    simp [Warehouse.addWindow,Warehouse.addFacts,Warehouse.addCurrentState,
      Warehouse.insertCoreProcessedBlocks,hm,ha,ht]

theorem hasFacts_materialized {facts : List CoreWindowFacts} (h : HasFacts w facts)
    (asOfBlockHeight : Nat) : HasFacts (w.materialized boundaries asOfBlockHeight) facts :=
  ⟨h.movements,h.movementsByAddress,h.transactions⟩

namespace ValidBlocks

theorem find_mono (h : ValidBlocks L blocks L') {k : OutputKey} {c : ProjectionUtxoOutput}
    (hc : L.find k = some c) : L'.find k = some c := by
  obtain ⟨hmem,hk⟩ := Ledger.find_eq_some.mp hc
  refine Ledger.find_eq_some.mpr ⟨?_,hk⟩
  rw [h.created]
  exact List.mem_append_left _ hmem

theorem find_of_create (h : ValidBlocks .empty blocks L) {c : ProjectionUtxoOutput}
    (hc : c ∈ blocks.flatMap blockCreates) : L.find c.outputKey = some c := by
  refine Ledger.find_eq_some.mpr ⟨?_,rfl⟩
  rw [h.created]
  exact List.mem_append_right _ hc

end ValidBlocks

theorem coreWindowPrevouts_eq_chainPrevouts (hup : shouldUpdateCoreCurrentState context)
    (hcoin : ∀ k, w.currentCoin k = M.coin k) (hv : ValidBlocks M window L)
    (hahead : ∀ k c, L.find k = some c → L'.find k = some c) :
    coreWindowPrevouts (window.map coreBlockApplication) context w = chainPrevouts L' window := by
  unfold coreWindowPrevouts chainPrevouts
  rw [if_pos hup]
  unfold Warehouse.getCurrentUtxoOutputMap
  congr 1
  refine List.filterMap_congr (fun k hk => ?_)
  obtain ⟨hspent,c,hc⟩ := hv.external hk
  have hcurrent : w.currentCoin k = some c := by
    rw [hcoin,Ledger.coin,if_neg hspent,hc]
  obtain ⟨row,hrow,hif⟩ := Option.bind_eq_some_iff.mp hcurrent
  have hout : row.output = c := by
    split at hif
    · cases hif
      rfl
    · cases hif
  rw [hrow,hahead k c (hv.find_mono hc),Option.map_some,Option.map_some,hout]

theorem hasFacts_backfill_windows (hup : shouldUpdateCoreCurrentState context = false)
    {windows : List (List ParsedDogecoinBlock)} (hv : ValidBlocks .empty windows.flatten L') :
    wp (applyBlockWindows boundaries context windows)
      (fun _ t => HasFacts t (windows.map backfillFacts)) OnlyFaults Anywhere emptyWarehouse := by
  refine wp_mono (holds_windows (fun ws M t => HoldsChain ([] ++ ws.flatten) M t ∧
    HasFacts t (ws.map backfillFacts)) (fun _ _ _ h => h.1.valid)
    (fun ws window M N t h hN _ => ?_) ⟨holdsChain_empty,hasFacts_empty⟩ hv)
    (fun _ _ h => h.2) (fun _ _ h => h) (fun _ h => h)
  refine wp_mono (holdsChain_window hup h.1 hN) ?_ (fun _ _ h => h) (fun _ h => h)
  rintro _ _ ⟨hchain,rfl⟩
  rw [flatten_snoc,List.map_append]
  exact ⟨hchain,hasFacts_addWindow h.2 _ _ _⟩

theorem hasFacts_backfill (hup : shouldUpdateCoreCurrentState context = false)
    {windows : List (List ParsedDogecoinBlock)} (hv : ValidBlocks .empty windows.flatten L') :
    wp (backfillAndMaterialize boundaries context windows)
      (fun _ t => HasFacts t (windows.map backfillFacts)) OnlyFaults Anywhere emptyWarehouse := by
  refine wp_bind (wp_mono (hasFacts_backfill_windows hup hv) ?_ (fun _ _ h => h) (fun _ h => h))
  intro _ t ht
  cases windows.flatten.getLast? with
  | none => exact wp_pure ht
  | some last => exact wp_materializeCoreDogecoinCurrentState (hasFacts_materialized ht _)

theorem hasFacts_online_windows (hup : shouldUpdateCoreCurrentState context)
    {windows : List (List ParsedDogecoinBlock)} {facts : List CoreWindowFacts}
    (hw : HoldsCurrent blocks L w) (hfacts : HasFacts w facts)
    (hv : ValidBlocks .empty (blocks ++ windows.flatten) L') :
    wp (applyBlockWindows boundaries context windows)
      (fun _ t => HoldsCurrent (blocks ++ windows.flatten) L' t ∧
        HasFacts t (facts ++ windows.map (onlineFacts L'))) OnlyFaults Anywhere w := by
  refine holds_windows (fun ws M t => HoldsCurrent (blocks ++ ws.flatten) M t ∧
    HasFacts t (facts ++ ws.map (onlineFacts L'))) (fun _ _ _ h => h.1.chain.valid)
    (fun ws window M N t h hN hahead => ?_) (by simpa using ⟨hw,hfacts⟩) hv
  obtain ⟨ahead,hahead⟩ := hahead
  refine wp_mono (holdsCurrent_window hup h.1 hN) ?_ (fun _ _ h => h) (fun _ h => h)
  rintro _ _ ⟨hcurrent,cs,rfl⟩
  rw [coreWindowPrevouts_eq_chainPrevouts hup h.1.current.coin (hN.suffix h.1.chain.valid)
    (fun _ _ => hahead.find_mono),flatten_snoc,List.map_append,← List.append_assoc] at *
  exact ⟨hcurrent,hasFacts_addWindow h.2 _ _ _⟩

/-- The facts of a whole run: those of the backfill windows, then those of the online windows,
whose previous outputs are the ones the chain created. -/
theorem applyChainWindows_facts (boundaries : Warehouse → List String)
    {backfill online : CoreDogecoinApplyContext} (base windows : List (List ParsedDogecoinBlock))
    (hback : shouldUpdateCoreCurrentState backfill = false)
    (honline : shouldUpdateCoreCurrentState online)
    (hv : ValidBlocks .empty (base.flatten ++ windows.flatten) L) :
    ∃ w, (applyChainWindows boundaries backfill online base windows).run emptyWarehouse [] =
        (.value (),w,[]) ∧ HoldsCurrent (base.flatten ++ windows.flatten) L w ∧
      HasFacts w (base.map backfillFacts ++ windows.map (onlineFacts L)) := by
  obtain ⟨M,hM,-⟩ := hv.append
  have h : wp (applyChainWindows boundaries backfill online base windows)
      (fun _ t => HoldsCurrent (base.flatten ++ windows.flatten) L t ∧
        HasFacts t (base.map backfillFacts ++ windows.map (onlineFacts L))) OnlyFaults Anywhere
      emptyWarehouse := by
    refine wp_bind (wp_mono (wp_and (holdsCurrent_backfill hback hM) (hasFacts_backfill hback hM))
      ?_ (fun _ _ h => h.1) (fun _ h => h.1))
    rintro _ t ⟨hcurrent,hfacts⟩
    exact hasFacts_online_windows honline hcurrent hfacts hv
  obtain ⟨_,w,hrun,hw⟩ := succeeds_of_wp (wp_mono h (fun _ _ h => h) (fun e _ he => by
    cases e with
    | fault => rfl
    | thrown e => exact absurd he id) (fun _ h => h))
  exact ⟨w,hrun,hw⟩

theorem coreCreatedOutputsByKey_get (hv : ValidBlocks .empty blocks L)
    (hsub : ∀ block ∈ window, block ∈ blocks) (k : OutputKey) :
    (coreCreatedOutputsByKey (window.map coreBlockApplication)).get k =
      if k ∈ (window.flatMap blockCreates).map (·.outputKey) then L.find k else none := by
  unfold coreCreatedOutputsByKey
  rw [coreBlockApplication_creates]
  split
  · rename_i hk
    cases hg : (OrderedMap.ofEntries ((window.flatMap blockCreates).map
        (fun output => (output.outputKey,output)))).get k with
    | none =>
      obtain ⟨c,hc,rfl⟩ := List.mem_map.mp hk
      exact absurd rfl (OrderedMap.get_ofEntries_eq_none.mp hg _ (List.mem_map_of_mem hc))
    | some c =>
      obtain ⟨d,hd,heq⟩ := List.mem_map.mp (OrderedMap.get_ofEntries_of_mem hg)
      cases heq
      obtain ⟨block,hb,hd⟩ := List.mem_flatMap.mp hd
      exact (hv.find_of_create (List.mem_flatMap.mpr ⟨block,hsub block hb,hd⟩)).symm
  · rename_i hk
    refine OrderedMap.get_ofEntries_eq_none.mpr (fun e he hek => hk ?_)
    obtain ⟨c,hc,rfl⟩ := List.mem_map.mp he
    exact List.mem_map.mpr ⟨c,hc,hek⟩

theorem coreSpentOutput_backfill (hv : ValidBlocks .empty blocks L)
    (hsub : ∀ block ∈ window, block ∈ blocks) (s : CoreDogecoinSpend) :
    coreSpentOutput (coreCreatedOutputsByKey (window.map coreBlockApplication)) .empty s =
      if s.outputKey ∈ (window.flatMap blockCreates).map (·.outputKey) then L.find s.outputKey
      else none := by
  unfold coreSpentOutput
  rw [coreCreatedOutputsByKey_get hv hsub,OrderedMap.get_empty,Option.or_none]

theorem coreSpentOutput_online (hv : ValidBlocks .empty blocks L)
    (hsub : ∀ block ∈ window, block ∈ blocks) {s : CoreDogecoinSpend}
    (hs : s ∈ window.flatMap blockSpends) :
    coreSpentOutput (coreCreatedOutputsByKey (window.map coreBlockApplication))
      (chainPrevouts L window) s = L.find s.outputKey := by
  unfold coreSpentOutput
  rw [coreCreatedOutputsByKey_get hv hsub]
  by_cases hk : s.outputKey ∈ (window.flatMap blockCreates).map (·.outputKey)
  · obtain ⟨c,hc,hck⟩ := List.mem_map.mp hk
    obtain ⟨block,hb,hc⟩ := List.mem_flatMap.mp hc
    have hfind := hv.find_of_create (List.mem_flatMap.mpr ⟨block,hsub block hb,hc⟩)
    rw [hck] at hfind
    rw [if_pos hk,hfind]
    rfl
  · have hext : s.outputKey ∈ externalCoreSpendKeys (window.map coreBlockApplication) := by
      unfold externalCoreSpendKeys
      rw [coreBlockApplication_creates,coreBlockApplication_spends]
      simp only [OrderedMap.mem_distinct,List.mem_filter,decide_eq_true_eq]
      exact ⟨List.mem_map_of_mem hs,hk⟩
    rw [if_neg hk,Option.none_or]
    cases hfind : L.find s.outputKey with
    | some c => exact OrderedMap.get_ofEntries_filterMap.mpr ⟨hext,hfind⟩
    | none =>
      cases hg : (chainPrevouts L window).get s.outputKey with
      | none => rfl
      | some c =>
        have := (OrderedMap.get_ofEntries_filterMap.mp hg).2
        rw [hfind] at this
        cases this

end Facts

end OnlyDoge
