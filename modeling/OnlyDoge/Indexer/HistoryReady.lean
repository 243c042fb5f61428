import OnlyDoge.Indexer.ProcessedTail
import OnlyDoge.Warehouse.AddressHistory
set_option autoImplicit false

/-!
The run that sets the history flag: backfill windows, the promotion to the online stage with its
materialization, and online windows.
-/

namespace OnlyDoge.CoreIndexer
open Job

/-- The row of an indexer that has processed the blocks. -/
def processedState (blocks : List ParsedDogecoinBlock) : CoreIndexerState where
  stage := .processBackfill
  syncTail := (windowEndHeight blocks 0 : Int) - 1
  processTail := (windowEndHeight blocks 0 : Int) - 1
  onlineTip := (windowEndHeight blocks 0 : Int) - 1
  lastError := false

/-- Windows cut from a chain, with the promotion after those of the backfill. -/
def promoteAfterBackfill (input : IterationInput) (backfill online : CoreDogecoinApplyContext)
    (base windows : List (List ParsedDogecoinBlock)) : IndexerJob Unit := do
  Job.zoom IndexerStore.warehousePart (applyBlockWindows input.boundaries backfill base)
  promoteBackfillToOnline input input.node.latest (processedState base.flatten) false
  Job.zoom IndexerStore.warehousePart (applyBlockWindows input.boundaries online windows)

section Materialize
variable {σ : Type} {context : MaterializationContext σ} {boundaries : Warehouse → List String}
variable {w : Warehouse} {s : σ} {asOfBlockHeight : Nat}

/-- What happens after a range leaves the warehouse alone and throws nothing. -/
def OnlyWatches (context : MaterializationContext σ) : Prop :=
  ∀ completedRanges rangeCount s, wp (context.onRangeCompleted completedRanges rangeCount)
    (fun _ t => context.warehouse.get t = context.warehouse.get s) OnlyFaults Anywhere s

theorem wp_zoomed {α : Type} {m : WarehouseJob α} {Q : α → Warehouse → Prop}
    (h : wp m Q OnlyFaults Anywhere (context.warehouse.get s)) :
    wp (Job.zoom context.warehouse m) (fun a t => Q a (context.warehouse.get t)) OnlyFaults
      Anywhere s := by
  refine wp_zoom (wp_mono h (fun a t ht => ?_) (fun e _ he => ?_) (fun _ _ => trivial))
  · rwa [context.warehouse.get_put]
  · cases e with
    | fault => trivial
    | thrown e => exact absurd he id

theorem wp_insertUtxoRanges_watched (hwatch : OnlyWatches context)
    {ranges : List ClickHouseStringRange} (hs : context.warehouse.get s = w.cleared) :
    wp (insertCoreCurrentUtxoRanges context asOfBlockHeight 0 ranges)
      (fun _ t => context.warehouse.get t =
        w.withUtxos (ranges.flatMap (w.materializedUtxos asOfBlockHeight)))
      OnlyFaults Anywhere s := by
  refine wp_mono (wp_forEach (fun passed t => context.warehouse.get t = w.withUtxos
    ((passed.map Prod.fst).flatMap (w.materializedUtxos asOfBlockHeight))) ?_ hs)
    ?_ (fun _ _ h => h) (fun _ h => h)
  · rintro passed ⟨range,index⟩ ahead t - ht
    refine wp_bind (wp_zoom (wp_write ?_ trivial trivial trivial))
    refine wp_mono (hwatch _ _ _) (fun _ u hu => ?_) (fun _ _ h => h) (fun _ h => h)
    rw [hu,context.warehouse.get_put,ht]
    simp only [List.map_append,List.flatMap_append]
    simp [Warehouse.insertCurrentUtxos,Warehouse.withUtxos,Warehouse.materializedUtxos,
      Warehouse.upTo,Warehouse.cleared]
  · intro _ t ht
    rwa [List.zipIdx_map_fst] at ht

/-- Without a checkpoint the materialization gives the tables that a rewind rebuilds. -/
theorem wp_materialize_watched (hwatch : OnlyWatches context) (hfresh : context.resumeFrom = none)
    (hs : context.warehouse.get s = w) :
    wp (materializeCoreDogecoinCurrentState context boundaries asOfBlockHeight)
      (fun _ t => context.warehouse.get t = w.materialized boundaries asOfBlockHeight)
      OnlyFaults Anywhere s := by
  subst hs
  unfold materializeCoreDogecoinCurrentState
  refine wp_bind (wp_mono (wp_zoomed (wp_coreCurrentStateRanges
    (Q := fun ranges t => t = context.warehouse.get s ∧
      ranges = buildCoreCurrentStateOutputKeyRanges (coreCurrentStateRangePrefixLength
        (context.warehouse.get s).coreUtxoCreates.length)) ⟨rfl,rfl⟩)) ?_ (fun _ _ h => h)
    (fun _ h => h))
  rintro _ t ⟨ht,rfl⟩
  rw [hfresh]
  refine wp_bind (wp_when (fun _ => ?_) (fun h => absurd rfl h))
  refine wp_mono (wp_zoomed (wp_clearCoreDogecoinCurrentState
    (Q := fun _ u => u = (context.warehouse.get t).cleared) rfl)) ?_ (fun _ _ h => h)
    (fun _ h => h)
  intro _ u hu
  rw [ht] at hu
  refine wp_bind (wp_mono (wp_insertUtxoRanges_watched hwatch hu) ?_ (fun _ _ h => h)
    (fun _ h => h))
  intro _ v hv
  refine wp_bind (wp_when (fun h => absurd h (Nat.lt_irrefl 0)) (fun _ => ?_))
  generalize hfilled : (context.warehouse.get s).withUtxos _ = filled at hv
  have hempty : filled.balances = [] ∧ filled.analyticsBalances = [] := by
    rw [← hfilled]
    exact ⟨rfl,rfl⟩
  have hbalances : wp (insertCoreCurrentBalances boundaries asOfBlockHeight)
      (fun _ u => ∀ rows, rows = (stringRangesFromBoundaries (boundaries filled)).flatMap
          (filled.materializedBalances asOfBlockHeight) →
        u = { filled with balances := rows, analyticsBalances := rows })
      OnlyFaults Anywhere filled := by
    refine wp_insertCoreCurrentBalances hempty.1 hempty.2 ?_
    rintro rows rfl _ rfl
    rfl
  rw [← hv] at hbalances
  refine wp_bind (wp_mono (wp_zoomed hbalances) ?_ (fun _ _ h => h) (fun _ h => h))
  intro _ x hx
  have hrows := hx _ rfl
  refine wp_mono (wp_zoomed (wp_insertCoreAppliedBlocks (Q := fun _ u =>
    u = (context.warehouse.get s).materialized boundaries asOfBlockHeight) ?_)) (fun _ _ h => h)
    (fun _ _ h => h) (fun _ h => h)
  rw [hrows,hv,← hfilled]
  rfl

end Materialize

section Promotion
variable {input : IterationInput} {latest : Int} {state : CoreIndexerState} {s : IndexerStore}
variable {w : Warehouse} {L : CoinLedger}

theorem onlyWatches_indexer (asOfBlockHeight : Nat) (resumeFrom : Option (Nat × Nat)) :
    OnlyWatches (indexerMaterialization input latest asOfBlockHeight resumeFrom) := by
  intro completedRanges rangeCount s
  refine wp_bind (wp_write ?_ trivial trivial trivial)
  refine wp_bind (wp_read ?_ trivial trivial)
  refine wp_when (fun _ => ?_) (fun _ => rfl)
  exact wp_bind (wp_upsertCoreIndexerState (wp_pure rfl) trivial trivial trivial)

theorem wp_execute_last {f : Metadata → Metadata} {rest : List (IndexerJob Unit)}
    {Q : Unit → IndexerStore → Prop}
    (h : wp (Job.settleAll rest) Q OnlyFaults Anywhere (s.durable f)) :
    wp (Job.settleAll (execute f::rest)) Q OnlyFaults Anywhere s := by
  have hfault (t : IndexerStore) : wp (Job.settleAll rest)
      (fun _ => OnlyFaults (.fault : Failure CoreError)) (fun _ => OnlyFaults .fault) Anywhere t :=
    wp_true _
  exact wp_settleAll_cons (wp_write h (hfault _) (hfault _) trivial)

theorem wp_materializeCurrentState_fresh (asOfBlockHeight : Nat) (hs : s.warehouse = w)
    (hfresh : s.metadata.materialization = none) :
    wp (materializeCurrentState input latest asOfBlockHeight)
      (fun _ t => t.warehouse = w.materialized input.boundaries asOfBlockHeight)
      OnlyFaults Anywhere s := by
  refine wp_bind (wp_read ?_ trivial trivial)
  have hresume : s.stateStore.resumePoint asOfBlockHeight = none := by
    unfold CoreStateStore.resumePoint IndexerStore.stateStore
    simp only [hfresh]
  rw [hresume]
  refine wp_bind (wp_mono (wp_materialize_watched (onlyWatches_indexer asOfBlockHeight none) rfl hs)
    ?_ (fun _ _ h => h) (fun _ h => h))
  intro _ t ht
  refine wp_bind (wp_execute_last (wp_execute_last (wp_pure ?_)))
  exact wp_write ht trivial trivial trivial

theorem wp_promoteBackfillToOnline_fresh (hs : s.warehouse = w)
    (hfresh : s.metadata.materialization = none) :
    wp (promoteBackfillToOnline input latest state false)
      (fun _ t => t.warehouse = w.materialized input.boundaries state.processTail.toNat ∧
        t.metadata.historyReady = true) OnlyFaults Anywhere s := by
  refine wp_bind (wp_when (fun _ => ?_) (fun h => absurd rfl h))
  refine wp_mono (wp_materializeCurrentState_fresh _ hs hfresh) ?_ (fun _ _ h => h) (fun _ h => h)
  intro _ t ht
  refine wp_bind (wp_upsertCoreIndexerState ?_ trivial trivial trivial)
  exact wp_execute_last (wp_execute_last (wp_execute_last (wp_pure ⟨ht,rfl⟩)))

theorem materialized_nothing {boundaries : Warehouse → List String}
    (hcreates : w.coreUtxoCreates = []) (hprocessed : w.coreProcessedBlocks = []) :
    w.materialized boundaries 0 = w.cleared := by
  have hutxos (ranges : List ClickHouseStringRange) :
      ranges.flatMap (w.materializedUtxos 0) = [] := by
    refine List.flatMap_eq_nil_iff.mpr (fun range _ => ?_)
    simp [Warehouse.materializedUtxos,Warehouse.upTo,hcreates,Replacing.collapse]
  have hbalances (ranges : List ClickHouseStringRange) :
      ranges.flatMap ((w.withUtxos []).materializedBalances 0) = [] :=
    List.flatMap_eq_nil_iff.mpr (fun _ _ => rfl)
  have happlied (start stop : Nat) :
      (w.withUtxos []).materializedAppliedBlocks start stop = [] := by
    simp [Warehouse.materializedAppliedBlocks,Warehouse.withUtxos,Warehouse.cleared,hprocessed,
      Replacing.collapse]
  unfold Warehouse.materialized Warehouse.rebuilt
  simp only [hutxos,hbalances,happlied,List.flatMap_eq_nil_iff.mpr (fun _ _ => rfl)]
  rfl

theorem holdsCurrent_promoted {boundaries : Warehouse → List String}
    {blocks : List ParsedDogecoinBlock} (hw : HoldsChain blocks L w) :
    HoldsCurrent blocks L (w.materialized boundaries
      (processedState blocks).processTail.toNat) := by
  cases hlast : blocks.getLast? with
  | some last =>
    have hheight : (processedState blocks).processTail.toNat = last.height := by
      simp [processedState,windowEndHeight,hlast]
    rw [hheight]
    exact holdsCurrent_materialized hw hlast
  | none =>
    obtain rfl := List.getLast?_eq_none_iff.mp hlast
    have hledger : some L = some .empty := hw.valid.replay.symm
    obtain rfl := Option.some.inj hledger
    have hcreates : w.coreUtxoCreates = [] :=
      List.eq_nil_iff_forall_not_mem.mpr (fun c hc => absurd (hw.facts.createHeight c hc) (by
        simp [windowEndHeight]))
    have hcleared : w.materialized boundaries (processedState []).processTail.toNat = w.cleared :=
      materialized_nothing hcreates (hw.processed.empty rfl)
    rw [hcleared]
    obtain ⟨hc,hs,hb,hch,hsh⟩ := hw.facts
    obtain ⟨hbelow,hempty,hheight,hhash⟩ := hw.processed
    exact ⟨⟨hw.valid,⟨hc,hs,hb,hch,hsh⟩,⟨hbelow,hempty,hheight,hhash⟩⟩,currentStateOf_cleared w⟩

theorem wp_promoteAfterBackfill {backfill online : CoreDogecoinApplyContext}
    (base windows : List (List ParsedDogecoinBlock))
    (hback : shouldUpdateCoreCurrentState backfill = false)
    (honline : shouldUpdateCoreCurrentState online)
    (hv : ValidBlocks .empty (base.flatten ++ windows.flatten) L)
    (hs : s.warehouse = emptyWarehouse)
    (hfresh : s.metadata.materialization = none) :
    wp (promoteAfterBackfill input backfill online base windows)
      (fun _ t => t.metadata.historyReady = true ∧
        HoldsCurrent (base.flatten ++ windows.flatten) L t.warehouse ∧
        HasFacts t.warehouse (base.map backfillFacts ++ windows.map (onlineFacts L)))
      OnlyFaults Anywhere s := by
  obtain ⟨M,hM,-⟩ := hv.append
  have hbackfill : wp (applyBlockWindows input.boundaries backfill base)
      (fun _ t => HoldsChain base.flatten M t ∧ HasFacts t (base.map backfillFacts)) OnlyFaults
      Anywhere emptyWarehouse := by
    refine wp_mono (wp_and (holdsChain_windows hback holdsChain_empty (by simpa using hM))
      (hasFacts_backfill_windows hback hM)) ?_ (fun _ _ h => h.1) (fun _ h => h.1)
    simp
  refine wp_bind (wp_zoom (wp_mono (hs ▸ hbackfill) ?_ ?_ (fun _ _ => trivial)))
  · rintro _ t ⟨hchain,hfacts⟩
    have hcurrent : HoldsCurrent base.flatten M (t.materialized input.boundaries
        (processedState base.flatten).processTail.toNat) := holdsCurrent_promoted hchain
    refine wp_bind (wp_mono (wp_promoteBackfillToOnline_fresh rfl hfresh) ?_ (fun _ _ h => h)
      (fun _ h => h))
    rintro _ u ⟨hu,hready⟩
    have hfacts' : HasFacts u.warehouse (base.map backfillFacts) :=
      hu ▸ hasFacts_materialized hfacts _
    have hcurrent' : HoldsCurrent base.flatten M u.warehouse := hu ▸ hcurrent
    refine wp_zoom (wp_mono (hasFacts_online_windows honline hcurrent' hfacts' hv) ?_ ?_
      (fun _ _ => trivial))
    · exact fun _ v hv => ⟨hready,hv⟩
    · intro e v he
      cases e with
      | fault => trivial
      | thrown e => exact absurd he id
  · intro e t he
    cases e with
    | fault => trivial
    | thrown e => exact absurd he id

theorem promoteAfterBackfill_succeeds (input : IterationInput) (instanceId : String)
    (settings : CoreDogecoinIndexerSettings) {backfill online : CoreDogecoinApplyContext}
    (base windows : List (List ParsedDogecoinBlock))
    (hback : shouldUpdateCoreCurrentState backfill = false)
    (honline : shouldUpdateCoreCurrentState online)
    (hv : ValidBlocks .empty (base.flatten ++ windows.flatten) L) :
    ∃ s, (promoteAfterBackfill input backfill online base windows).run
        (initialStore settings instanceId) [] = (.value (),s,[]) ∧
      s.metadata.historyReady = true ∧
      HoldsCurrent (base.flatten ++ windows.flatten) L s.warehouse ∧
      HasFacts s.warehouse (base.map backfillFacts ++ windows.map (onlineFacts L)) := by
  have hrun := @wp_promoteAfterBackfill input (initialStore settings instanceId) L backfill online
    base windows hback honline hv rfl rfl
  obtain ⟨_,s,hs,hends⟩ := succeeds_of_wp (wp_mono hrun (fun _ _ h => h) (fun e _ he => by
    cases e with
    | fault => rfl
    | thrown e => exact absurd he id) (fun _ h => h))
  exact ⟨s,hs,hends⟩

/-- Once the history flag is set, the credits of an address less its debits are its unspent
outputs exactly when every debit that the backfill lost is worth nothing, and its movements are
those of the blocks, however they are cut, exactly when it lost none. -/
theorem address_history_iff (input : IterationInput) (instanceId : String)
    (settings : CoreDogecoinIndexerSettings) {backfill online : CoreDogecoinApplyContext}
    (base windows : List (List ParsedDogecoinBlock))
    (hback : shouldUpdateCoreCurrentState backfill = false)
    (honline : shouldUpdateCoreCurrentState online)
    (hv : ValidBlocks .empty (base.flatten ++ windows.flatten) L) :
    ∃ s, (promoteAfterBackfill input backfill online base windows).run
        (initialStore settings instanceId) [] = (.value (),s,[]) ∧
      s.metadata.historyReady = true ∧
      ∀ address,
        (((s.warehouse.queryAddressMovementSummary address).receivedBase : Int) -
            (s.warehouse.queryAddressMovementSummary address).sentBase =
              Warehouse.sumValues (s.warehouse.addressCoins address) ↔
          ∀ spend ∈ lostDebits L base address, spentFrom L address spend = 0) ∧
        (s.warehouse.nativeMovements address =
            chainMovements L (base.flatten ++ windows.flatten) address ↔
          lostDebits L base address = []) := by
  obtain ⟨s,hrun,hready,hcurrent,hfacts⟩ :=
    promoteAfterBackfill_succeeds input instanceId settings base windows hback honline hv
  refine ⟨s,hrun,hready,fun address => ⟨?_,nativeMovements_eq_chainMovements hv hfacts⟩⟩
  have hbalance := @movements_balance s.warehouse L base windows address hv hfacts
  rw [Warehouse.sumValues_addressCoins hcurrent.current.coin,
    ← sum_eq_zero_iff (spentFrom_nonneg L address)]
  omega

/-- The payment blocks at the node. -/
def paymentInput : IterationInput where
  node := ⟨paymentBlocks,by decide,by decide⟩
  nowMs := 0
  fillBlocks := 100
  readAheadBlocks := 0
  heartbeatDue _ := false
  boundaries _ := []

/-- `t1` spends `c0:0` of an earlier window: the debit of 50 is missing although the history
counts as ready. -/
theorem address_history_of_split_payment : ∃ s,
    (promoteAfterBackfill paymentInput ⟨some false,none⟩ ⟨some true,none⟩
      [paymentBlocks.take 1,paymentBlocks.drop 1] []).run (initialStore shallowSettings "a") [] =
        (.value (),s,[]) ∧
      s.metadata.historyReady = true ∧
      ((s.warehouse.queryAddressMovementSummary "A").receivedBase : Int) -
        (s.warehouse.queryAddressMovementSummary "A").sentBase = 110 ∧
      Warehouse.sumValues (s.warehouse.addressCoins "A") = 60 := by
  have hv : ValidBlocks .empty ([paymentBlocks.take 1,paymentBlocks.drop 1].flatten ++
    ([] : List (List ParsedDogecoinBlock)).flatten) paymentLedger := paymentBlocks_valid
  obtain ⟨s,hrun,hready,hcurrent,hfacts⟩ := promoteAfterBackfill_succeeds paymentInput "a"
    shallowSettings [paymentBlocks.take 1,paymentBlocks.drop 1] []
    (rfl : shouldUpdateCoreCurrentState ⟨some false,none⟩ = false)
    (rfl : shouldUpdateCoreCurrentState ⟨some true,none⟩ = true) hv
  have hbalance := @movements_balance s.warehouse paymentLedger
    [paymentBlocks.take 1,paymentBlocks.drop 1] [] "A" hv hfacts
  have hworth : paymentLedger.worth (addressWeight "A") = 60 := by decide
  have hlost : ((lostDebits paymentLedger [paymentBlocks.take 1,paymentBlocks.drop 1] "A").map
      (spentFrom paymentLedger "A")).sum = 50 := by decide
  refine ⟨s,hrun,hready,?_,?_⟩
  · rw [hbalance,hworth,hlost]
    rfl
  · rw [Warehouse.sumValues_addressCoins hcurrent.current.coin,hworth]

theorem address_history_iff_paymentBlocks : ∃ s,
    (promoteAfterBackfill paymentInput ⟨some false,none⟩ ⟨some true,none⟩
      [paymentBlocks.take 1] [paymentBlocks.drop 1]).run (initialStore shallowSettings "a") [] =
        (.value (),s,[]) ∧
      s.metadata.historyReady = true ∧
      ∀ address,
        (((s.warehouse.queryAddressMovementSummary address).receivedBase : Int) -
            (s.warehouse.queryAddressMovementSummary address).sentBase =
              Warehouse.sumValues (s.warehouse.addressCoins address) ↔
          ∀ spend ∈ lostDebits paymentLedger [paymentBlocks.take 1] address,
            spentFrom paymentLedger address spend = 0) ∧
        (s.warehouse.nativeMovements address = chainMovements paymentLedger
            ([paymentBlocks.take 1].flatten ++ [paymentBlocks.drop 1].flatten) address ↔
          lostDebits paymentLedger [paymentBlocks.take 1] address = []) :=
  address_history_iff paymentInput "a" shallowSettings [paymentBlocks.take 1]
    [paymentBlocks.drop 1] (rfl : shouldUpdateCoreCurrentState ⟨some false,none⟩ = false)
    (rfl : shouldUpdateCoreCurrentState ⟨some true,none⟩ = true) paymentBlocks_valid

end Promotion

end OnlyDoge.CoreIndexer
