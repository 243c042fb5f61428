import OnlyDoge.Warehouse.MaterializationLedger
set_option autoImplicit false

/-! Runs of windows from the empty warehouse, with and without a materialization between them. -/

namespace OnlyDoge
open Job

section Windows
variable (boundaries : Warehouse → List String) (context : CoreDogecoinApplyContext)

def applyBlockWindow (blocks : List ParsedDogecoinBlock) : WarehouseJob Unit := do
  let applications ← Job.ofExcept (buildFastCoreDogecoinBlockApplications blocks)
  let _ ← applyCoreDogecoinWindow boundaries applications context
  return ()

def applyBlockWindows (windows : List (List ParsedDogecoinBlock)) : WarehouseJob Unit :=
  Job.forEach windows (applyBlockWindow boundaries context)

/-- Windows without current state, and the materialization at the last of their blocks. -/
def backfillAndMaterialize (windows : List (List ParsedDogecoinBlock)) : WarehouseJob Unit := do
  applyBlockWindows boundaries context windows
  match windows.flatten.getLast? with
  | none => return ()
  | some last => materializeCoreDogecoinCurrentState rewindMaterialization boundaries last.height

end Windows

namespace ValidBlocks

theorem suffix {L M L' : CoinLedger} {bs cs : List ParsedDogecoinBlock}
    (h : ValidBlocks L (bs ++ cs) L') (hbs : ValidBlocks L bs M) : ValidBlocks M cs L' := by
  obtain ⟨N,hN,hcs⟩ := h.append
  have heq : some N = some M := hN.replay.symm.trans hbs.replay
  cases heq
  exact hcs

theorem empty : ValidBlocks .empty [] .empty :=
  ⟨by simp,List.isChain_nil,rfl⟩

end ValidBlocks

/-- The facts of the warehouse are those of a valid chain from the first block on. -/
structure HoldsChain (blocks : List ParsedDogecoinBlock) (L : CoinLedger) (w : Warehouse) :
    Prop where
  valid : ValidBlocks .empty blocks L
  facts : FactsOf w L (windowEndHeight blocks 0)
  processed : ProcessedUpTo w blocks.getLast? (windowEndHeight blocks 0)

/-- The current state of the warehouse is that of the chain as well. -/
structure HoldsCurrent (blocks : List ParsedDogecoinBlock) (L : CoinLedger) (w : Warehouse) :
    Prop where
  chain : HoldsChain blocks L w
  current : CurrentStateOf w L (windowEndHeight blocks 0)

theorem holdsChain_empty : HoldsChain [] .empty emptyWarehouse := by
  refine ⟨.empty,?_,?_⟩
  · constructor <;> simp [emptyWarehouse,Warehouse.latestCoreCreate,Ledger.find,Ledger.empty]
  · constructor <;> simp [emptyWarehouse]

theorem currentStateOf_cleared (w : Warehouse) : CurrentStateOf w.cleared .empty 0 := by
  constructor
  · intro k
    simp [Warehouse.cleared,Warehouse.currentCoin,Warehouse.latestUtxoRow,Ledger.coin,
      Ledger.find,Ledger.empty]
  · intro a
    simp [Warehouse.cleared,Warehouse.addressBalance,Warehouse.latestBalanceRow,
      Ledger.worth,Ledger.unspent,Ledger.empty]
  · simp [Warehouse.cleared,Warehouse.VersionsBelow]

theorem holdsCurrent_empty : HoldsCurrent [] .empty emptyWarehouse :=
  ⟨holdsChain_empty,currentStateOf_cleared emptyWarehouse⟩

section Step
variable {w : Warehouse} {L L' : CoinLedger} {blocks window : List ParsedDogecoinBlock}
variable {first : ParsedDogecoinBlock} {rest : List ParsedDogecoinBlock}
variable {boundaries : Warehouse → List String} {context : CoreDogecoinApplyContext}

theorem windowEndHeight_append :
    windowEndHeight (blocks ++ first::rest) 0 = windowEndHeight (first::rest) 0 := by
  obtain ⟨last,hlast,-⟩ := exists_getLast? first rest
  simp [windowEndHeight,hlast]

theorem getLast?_append_window : (blocks ++ first::rest).getLast? = (first::rest).getLast? := by
  obtain ⟨last,hlast,-⟩ := exists_getLast? first rest
  simp [hlast]

theorem followsLast_of_chain (h : (blocks ++ first::rest).IsChain Follows) :
    FollowsLast blocks.getLast? (first::rest) := by
  have hlink := (List.isChain_append.mp h).2.2
  intro parent block hparent hblock
  exact hlink parent hparent block hblock

theorem windowEndHeight_le (h : (blocks ++ first::rest).IsChain Follows) :
    windowEndHeight blocks 0 ≤ first.height := by
  unfold windowEndHeight
  cases hlast : blocks.getLast? with
  | none => simp
  | some parent =>
    have := (followsLast_of_chain h parent first hlast rfl).1
    simp only
    omega

theorem holdsChain_addWindow (hw : HoldsChain blocks L w)
    (hv : ValidBlocks .empty (blocks ++ first::rest) L') (prevouts : OutputMap)
    (cs : Option CoreCurrentStateWindow) :
    HoldsChain (blocks ++ first::rest) L'
      (w.addWindow ((first::rest).map coreBlockApplication) prevouts cs) := by
  have hwindow := hv.suffix hw.valid
  have hnext := windowEndHeight_le hv.linked
  have hfirst := isChain_heights hwindow.linked List.mem_cons_self
  refine ⟨hv,?_,?_⟩
  · rw [windowEndHeight_append]
    refine factsOf_addWindow hw.facts hwindow (by omega) (fun block hb => ?_) prevouts cs
    exact (isChain_heights hwindow.linked hb).2
  · rw [windowEndHeight_append,getLast?_append_window]
    exact processedUpTo_addWindow hw.processed hwindow.linked hnext prevouts cs

theorem wp_applyBlockWindow (hw : HoldsChain blocks L w)
    (hv : ValidBlocks .empty (blocks ++ window) L') {Q : Warehouse → Prop}
    (hnil : window = [] → Q w)
    (hinsert : ∀ first rest, window = first::rest →
      wp (insertPendingCoreWindow (window.map coreBlockApplication) context)
        (fun _ => Q) OnlyFaults Anywhere w) :
    wp (applyBlockWindow boundaries context window) (fun _ => Q) OnlyFaults Anywhere w := by
  have hwindow := hv.suffix hw.valid
  unfold applyBlockWindow
  rw [hwindow.build]
  refine wp_bind (wp_pure ?_)
  cases window with
  | nil =>
    refine wp_bind (wp_ite (fun _ => ?_) (fun h => absurd rfl h))
    exact wp_pure (wp_pure (hnil rfl))
  | cons first rest =>
    refine wp_bind (wp_applyCoreDogecoinWindow hw.facts hw.processed hwindow
      (followsLast_of_chain hv.linked) (windowEndHeight_le hv.linked) ?_)
    refine wp_catchThrown (wp_mono (hinsert first rest rfl) ?_ ?_ (fun _ h => h))
    · exact fun _ t ht => wp_pure ht
    · intro e t he
      cases e with
      | fault => trivial
      | thrown e => exact absurd he id

theorem addWindow_nil (prevouts : OutputMap) (w : Warehouse) :
    w.addWindow [] prevouts none = w := by
  simp [Warehouse.addWindow,Warehouse.addFacts,Warehouse.addCurrentState,coreWindowFactInserts,
    Warehouse.insertCoreProcessedBlocks]

/-- One window with the current-state update moves the tables and the ledger together. -/
theorem holdsCurrent_window (hup : shouldUpdateCoreCurrentState context)
    (hw : HoldsCurrent blocks L w) (hv : ValidBlocks .empty (blocks ++ window) L') :
    wp (applyBlockWindow boundaries context window)
      (fun _ t => HoldsCurrent (blocks ++ window) L' t ∧
        ∃ cs, t = w.addWindow (window.map coreBlockApplication)
          (coreWindowPrevouts (window.map coreBlockApplication) context w) cs)
      OnlyFaults Anywhere w := by
  refine wp_applyBlockWindow hw.chain hv ?_ ?_
  · rintro rfl
    rw [List.append_nil] at hv ⊢
    have heq : some L' = some L := hv.replay.symm.trans hw.chain.valid.replay
    cases heq
    exact ⟨hw,none,(addWindow_nil _ w).symm⟩
  · rintro first rest rfl
    refine wp_insertPendingCoreWindow_online hw.current (hv.suffix hw.chain.valid)
      (windowEndHeight_le hv.linked) hup ?_
    rintro prevouts cs rfl hcurrent
    refine ⟨⟨holdsChain_addWindow hw.chain hv _ cs,?_⟩,cs,rfl⟩
    rw [windowEndHeight_append]
    exact hcurrent

theorem holdsChain_window (hup : shouldUpdateCoreCurrentState context = false)
    (hw : HoldsChain blocks L w) (hv : ValidBlocks .empty (blocks ++ window) L') :
    wp (applyBlockWindow boundaries context window)
      (fun _ t => HoldsChain (blocks ++ window) L' t ∧
        t = w.addWindow (window.map coreBlockApplication) .empty none) OnlyFaults Anywhere w := by
  refine wp_applyBlockWindow hw hv ?_ ?_
  · rintro rfl
    rw [List.append_nil] at hv ⊢
    have heq : some L' = some L := hv.replay.symm.trans hw.valid.replay
    cases heq
    exact ⟨hw,(addWindow_nil _ w).symm⟩
  · rintro first rest rfl
    exact wp_insertPendingCoreWindow_backfill hup ⟨holdsChain_addWindow hw hv _ _,rfl⟩

theorem holdsCurrent_materialized (hw : HoldsChain blocks L w) {last : ParsedDogecoinBlock}
    (hlast : blocks.getLast? = some last) :
    HoldsCurrent blocks L (w.materialized boundaries last.height) := by
  have hend : windowEndHeight blocks 0 = last.height + 1 := by simp [windowEndHeight,hlast]
  refine ⟨⟨hw.valid,?_,?_⟩,?_⟩
  · obtain ⟨hc,hs,hb,hch,hsh⟩ := hw.facts
    exact ⟨hc,hs,hb,hch,hsh⟩
  · obtain ⟨hb,he,hh,hhash⟩ := hw.processed
    exact ⟨hb,he,hh,hhash⟩
  · have hfacts := hw.facts
    rw [hend] at hfacts ⊢
    exact currentStateOf_materialized hfacts

end Step

section Runs
variable {w : Warehouse} {L L' : CoinLedger} {blocks : List ParsedDogecoinBlock}
variable {boundaries : Warehouse → List String} {context : CoreDogecoinApplyContext}

theorem ValidBlocks.inits {passed ahead : List (List ParsedDogecoinBlock)}
    (h : ValidBlocks .empty (blocks ++ (passed ++ ahead).flatten) L') :
    ∃ M, ValidBlocks .empty (blocks ++ passed.flatten) M ∧ ValidBlocks M ahead.flatten L' := by
  rw [List.flatten_append,← List.append_assoc] at h
  exact h.append

theorem flatten_snoc (passed : List (List ParsedDogecoinBlock))
    (window : List ParsedDogecoinBlock) :
    blocks ++ (passed ++ [window]).flatten = (blocks ++ passed.flatten) ++ window := by
  simp

theorem holds_windows (H : List (List ParsedDogecoinBlock) → CoinLedger → Warehouse → Prop)
    (hvalid : ∀ ws M t, H ws M t → ValidBlocks .empty (blocks ++ ws.flatten) M)
    (hstep : ∀ ws window M N t, H ws M t → ValidBlocks .empty ((blocks ++ ws.flatten) ++ window) N →
      (∃ ahead, ValidBlocks N ahead L') →
      wp (applyBlockWindow boundaries context window) (fun _ => H (ws ++ [window]) N)
        OnlyFaults Anywhere t)
    {windows : List (List ParsedDogecoinBlock)} (hw : H [] L w)
    (hv : ValidBlocks .empty (blocks ++ windows.flatten) L') :
    wp (applyBlockWindows boundaries context windows) (fun _ => H windows L')
      OnlyFaults Anywhere w := by
  refine wp_mono (wp_forEach (fun passed t => ∃ M, H passed M t) ?_ ⟨L,hw⟩)
    ?_ (fun _ _ h => h) (fun _ h => h)
  · rintro passed window ahead t rfl ⟨M,ht⟩
    rw [List.append_cons] at hv
    obtain ⟨N,hN,hahead⟩ := hv.inits
    rw [flatten_snoc] at hN
    exact wp_mono (hstep _ _ _ _ _ ht hN ⟨_,hahead⟩) (fun _ _ h => ⟨N,h⟩) (fun _ _ h => h)
      (fun _ h => h)
  · rintro - t ⟨M,ht⟩
    have heq : some L' = some M := hv.replay.symm.trans (hvalid _ _ _ ht).replay
    cases heq
    exact ht

theorem holdsCurrent_windows (hup : shouldUpdateCoreCurrentState context)
    {windows : List (List ParsedDogecoinBlock)} (hw : HoldsCurrent blocks L w)
    (hv : ValidBlocks .empty (blocks ++ windows.flatten) L') :
    wp (applyBlockWindows boundaries context windows)
      (fun _ => HoldsCurrent (blocks ++ windows.flatten) L') OnlyFaults Anywhere w := by
  refine holds_windows (fun ws => HoldsCurrent (blocks ++ ws.flatten))
    (fun _ _ _ h => h.chain.valid) (fun ws window M N t h hN _ => ?_) (by simpa) hv
  rw [flatten_snoc]
  exact wp_mono (holdsCurrent_window hup h hN) (fun _ _ h => h.1) (fun _ _ h => h) (fun _ h => h)

theorem holdsChain_windows (hup : shouldUpdateCoreCurrentState context = false)
    {windows : List (List ParsedDogecoinBlock)} (hw : HoldsChain blocks L w)
    (hv : ValidBlocks .empty (blocks ++ windows.flatten) L') :
    wp (applyBlockWindows boundaries context windows)
      (fun _ => HoldsChain (blocks ++ windows.flatten) L') OnlyFaults Anywhere w := by
  refine holds_windows (fun ws => HoldsChain (blocks ++ ws.flatten))
    (fun _ _ _ h => h.valid) (fun ws window M N t h hN _ => ?_) (by simpa) hv
  rw [flatten_snoc]
  exact wp_mono (holdsChain_window hup h hN) (fun _ _ h => h.1) (fun _ _ h => h) (fun _ h => h)

theorem wp_applyBlockWindows_nil {windows : List (List ParsedDogecoinBlock)}
    (h : windows.flatten = []) {Q : Unit → Warehouse → Prop} (hdone : Q () w) :
    wp (applyBlockWindows boundaries context windows) Q OnlyFaults Anywhere w := by
  refine wp_mono (wp_forEach (fun _ t => t = w) ?_ rfl) ?_ (fun _ _ h => h) (fun _ h => h)
  · rintro passed window ahead t rfl rfl
    have hwindow : window = [] := List.flatten_eq_nil_iff.mp h window (by simp)
    subst hwindow
    exact wp_bind (wp_pure (wp_bind (wp_pure (wp_pure rfl))))
  · rintro - t rfl
    exact hdone

/-- Whatever the windows were, the materialization at their end gives the current state. -/
theorem holdsCurrent_backfill (hup : shouldUpdateCoreCurrentState context = false)
    {windows : List (List ParsedDogecoinBlock)} (hv : ValidBlocks .empty windows.flatten L') :
    wp (backfillAndMaterialize boundaries context windows)
      (fun _ => HoldsCurrent windows.flatten L') OnlyFaults Anywhere emptyWarehouse := by
  unfold backfillAndMaterialize
  cases hlast : windows.flatten.getLast? with
  | none =>
    have hnil := List.getLast?_eq_none_iff.mp hlast
    rw [hnil] at hv ⊢
    cases hv.replay
    exact wp_bind (wp_applyBlockWindows_nil hnil (wp_pure holdsCurrent_empty))
  | some last =>
    refine wp_bind (wp_mono (holdsChain_windows hup holdsChain_empty hv) ?_ (fun _ _ h => h)
      (fun _ h => h))
    intro _ t ht
    exact wp_materializeCoreDogecoinCurrentState (holdsCurrent_materialized ht hlast)

theorem addressCoins_perm {v : Warehouse} (h : ∀ k, w.currentCoin k = v.currentCoin k)
    (address : String) : (w.addressCoins address).Perm (v.addressCoins address) := by
  refine List.Perm.filter _ ?_
  rw [List.perm_ext_iff_of_nodup w.currentCoins_nodup.of_map v.currentCoins_nodup.of_map]
  intro o
  rw [Warehouse.mem_currentCoins,Warehouse.mem_currentCoins,h]

/-- Backfill windows and their materialization, then windows with the current-state update. -/
def applyChainWindows (boundaries : Warehouse → List String)
    (backfill online : CoreDogecoinApplyContext) (base windows : List (List ParsedDogecoinBlock)) :
    WarehouseJob Unit := do
  backfillAndMaterialize boundaries backfill base
  applyBlockWindows boundaries online windows

theorem applyChainWindows_succeeds (boundaries : Warehouse → List String)
    {backfill online : CoreDogecoinApplyContext} (base windows : List (List ParsedDogecoinBlock))
    (hback : shouldUpdateCoreCurrentState backfill = false)
    (honline : shouldUpdateCoreCurrentState online)
    (hv : ValidBlocks .empty (base.flatten ++ windows.flatten) L) :
    ∃ w, (applyChainWindows boundaries backfill online base windows).run emptyWarehouse [] =
        (.value (),w,[]) ∧ HoldsCurrent (base.flatten ++ windows.flatten) L w := by
  obtain ⟨M,hM,-⟩ := hv.append
  have h : wp (applyChainWindows boundaries backfill online base windows)
      (fun _ => HoldsCurrent (base.flatten ++ windows.flatten) L) OnlyFaults Anywhere
      emptyWarehouse :=
    wp_bind (wp_mono (holdsCurrent_backfill hback hM)
      (fun _ _ ht => holdsCurrent_windows honline ht hv) (fun _ _ h => h) (fun _ h => h))
  obtain ⟨_,w,hrun,hw⟩ := succeeds_of_wp (wp_mono h (fun _ _ h => h) (fun e _ he => by
    cases e with
    | fault => rfl
    | thrown e => exact absurd he id) (fun _ h => h))
  exact ⟨w,hrun,hw⟩

/-- The current state does not depend on how the blocks are cut into windows: it is the one of
the windows of a single block, and every balance is the sum of the unspent outputs. -/
theorem current_state_window_cut (boundaries : Warehouse → List String)
    {backfill online : CoreDogecoinApplyContext} (base windows : List (List ParsedDogecoinBlock))
    (hback : shouldUpdateCoreCurrentState backfill = false)
    (honline : shouldUpdateCoreCurrentState online)
    (hv : ValidBlocks .empty (base.flatten ++ windows.flatten) L) :
    ∃ w v,
      (applyChainWindows boundaries backfill online base windows).run emptyWarehouse [] =
        (.value (),w,[]) ∧
      (applyChainWindows boundaries backfill online base
        (windows.flatten.map (fun block => [block]))).run emptyWarehouse [] = (.value (),v,[]) ∧
      (∀ k, w.currentCoin k = L.coin k ∧ v.currentCoin k = L.coin k) ∧
      (∀ a, (w.addressCoins a).Perm (v.addressCoins a)) ∧
      (∀ a, w.addressBalance a = v.addressBalance a) ∧
      ∀ a, w.addressBalance a = Warehouse.sumValues (w.addressCoins a) := by
  have hsingle : (windows.flatten.map (fun block => [block])).flatten = windows.flatten := by
    induction windows.flatten with
    | nil => rfl
    | cons block blocks ih => simpa using ih
  obtain ⟨w,hw,hholds⟩ := applyChainWindows_succeeds boundaries base windows hback honline hv
  obtain ⟨v,hv',hholds'⟩ := applyChainWindows_succeeds boundaries base
    (windows.flatten.map (fun block => [block])) hback honline (hsingle.symm ▸ hv)
  have hcoin := hholds.current.coin
  have hcoin' := hholds'.current.coin
  refine ⟨w,v,hw,hv',fun k => ⟨hcoin k,hcoin' k⟩,?_,?_,?_⟩
  · exact addressCoins_perm (fun k => (hcoin k).trans (hcoin' k).symm)
  · exact fun a => (hholds.current.balance a).trans (hholds'.current.balance a).symm
  · intro a
    rw [hholds.current.balance a,Warehouse.sumValues_addressCoins hcoin]

/-- Three linked blocks: a coinbase to `A`, a payment from `A` to `B` with change, and a block
that spends the change, an output of its own and the payment. -/
def paymentBlocks : List ParsedDogecoinBlock :=
  [⟨"b0",0,100,none,[⟨"c0",[.coinbase],[⟨some 0,50,"A","pubkeyhash"⟩,
      ⟨some 1,60,"A","pubkeyhash"⟩]⟩]⟩,
    ⟨"b1",1,160,some "b0",[⟨"c1",[.coinbase],[⟨some 0,10,"M","pubkeyhash"⟩]⟩,
      ⟨"t1",[.output "c0" 0],[⟨some 0,30,"B","pubkeyhash"⟩,⟨some 1,19,"A","pubkeyhash"⟩]⟩]⟩,
    ⟨"b2",2,220,some "b1",[⟨"c2",[.coinbase],[⟨some 0,10,"M","pubkeyhash"⟩]⟩,
      ⟨"t2",[.output "t1" 1],[⟨some 0,18,"C","pubkeyhash"⟩]⟩,
      ⟨"t3",[.output "t2" 0,.output "t1" 0],[⟨some 0,47,"B","pubkeyhash"⟩]⟩]⟩]

def paymentLedger : CoinLedger :=
  ((Ledger.empty : CoinLedger).postAll? (paymentBlocks.flatMap blockEntries)).get (by decide)

theorem paymentBlocks_valid : ValidBlocks .empty paymentBlocks paymentLedger :=
  ⟨by decide,by decide,(Option.some_get _).symm⟩

/-- The cut `[b0]` before the materialization and `[b1,b2]` after it. -/
theorem current_state_window_cut_paymentBlocks : ∃ w v,
    (applyChainWindows (fun _ => []) ⟨some false,none⟩ ⟨some true,none⟩ [paymentBlocks.take 1]
      [paymentBlocks.drop 1]).run emptyWarehouse [] = (.value (),w,[]) ∧
    (applyChainWindows (fun _ => []) ⟨some false,none⟩ ⟨some true,none⟩ [paymentBlocks.take 1]
      ([paymentBlocks.drop 1].flatten.map (fun block => [block]))).run emptyWarehouse [] =
        (.value (),v,[]) ∧
    (∀ k, w.currentCoin k = paymentLedger.coin k ∧ v.currentCoin k = paymentLedger.coin k) ∧
    (∀ a, (w.addressCoins a).Perm (v.addressCoins a)) ∧
    (∀ a, w.addressBalance a = v.addressBalance a) ∧
    ∀ a, w.addressBalance a = Warehouse.sumValues (w.addressCoins a) :=
  current_state_window_cut (fun _ => []) [paymentBlocks.take 1] [paymentBlocks.drop 1]
    (rfl : shouldUpdateCoreCurrentState ⟨some false,none⟩ = false)
    (rfl : shouldUpdateCoreCurrentState ⟨some true,none⟩ = true) paymentBlocks_valid

end Runs

end OnlyDoge
