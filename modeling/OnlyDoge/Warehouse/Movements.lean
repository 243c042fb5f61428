import OnlyDoge.Warehouse.FactRuns
import OnlyDoge.Warehouse.Listing
set_option autoImplicit false

/-! The stored movements of an address and the place of its transactions in the listing. -/

namespace OnlyDoge
open Job

def ownedBy (address : String) (output : ProjectionUtxoOutput) : Bool :=
  isCoreAddressMovementOutput output && decide (output.address = address)

/-- The outputs that pay the address. -/
def addressCredits (blocks : List ParsedDogecoinBlock) (address : String) :
    List ProjectionUtxoOutput :=
  (blocks.flatMap blockCreates).filter (ownedBy address)

/-- The output of the address that a spend of the chain takes. -/
def ownedOutput (L : CoinLedger) (address : String) (s : CoreDogecoinSpend) :
    Option ProjectionUtxoOutput :=
  (L.find s.outputKey).filter (ownedBy address)

def createsKey (window : List ParsedDogecoinBlock) (k : OutputKey) : Bool :=
  k ∈ (window.flatMap blockCreates).map (·.outputKey)

/-- A backfill window resolves a spend of an output that it creates itself. -/
def backfillDebits (L : CoinLedger) (address : String) (window : List ParsedDogecoinBlock) :
    List CoreDogecoinSpend :=
  (window.flatMap blockSpends).filter
    (fun s => createsKey window s.outputKey && (ownedOutput L address s).isSome)

def onlineDebits (L : CoinLedger) (address : String) (window : List ParsedDogecoinBlock) :
    List CoreDogecoinSpend :=
  (window.flatMap blockSpends).filter (fun s => (ownedOutput L address s).isSome)

/-- The spends from the address that a run has a debit row for. -/
def addressDebits (L : CoinLedger) (base windows : List (List ParsedDogecoinBlock))
    (address : String) : List CoreDogecoinSpend :=
  base.flatMap (backfillDebits L address) ++ windows.flatMap (onlineDebits L address)

def creditMovements (address : String) (block : ParsedDogecoinBlock) : List AddressMovement :=
  ((blockCreates block).filter (ownedBy address)).map coreCreditMovement

def debitMovement (resolve : CoreDogecoinSpend → Option ProjectionUtxoOutput) (address : String)
    (block : ParsedDogecoinBlock) (s : CoreDogecoinSpend) : Option AddressMovement :=
  ((resolve s).filter (ownedBy address)).map (coreDebitMovement (coreBlockApplication block) s)

def blockMovements (resolve : CoreDogecoinSpend → Option ProjectionUtxoOutput) (address : String)
    (block : ParsedDogecoinBlock) : List AddressMovement :=
  creditMovements address block ++
    (blockSpends block).filterMap (debitMovement resolve address block)

def backfillResolve (L : CoinLedger) (window : List ParsedDogecoinBlock) (s : CoreDogecoinSpend) :
    Option ProjectionUtxoOutput :=
  if createsKey window s.outputKey then L.find s.outputKey else none

def onlineResolve (L : CoinLedger) (s : CoreDogecoinSpend) : Option ProjectionUtxoOutput :=
  L.find s.outputKey

section Rows
variable {L : CoinLedger} {blocks window : List ParsedDogecoinBlock} {address : String}

theorem filter_coreCreateAddressMovement (outputs : List ProjectionUtxoOutput) :
    (outputs.flatMap coreCreateAddressMovement).filter (isNativeMovement address) =
      (outputs.filter (ownedBy address)).map coreCreditMovement := by
  induction outputs with
  | nil => rfl
  | cons o outputs ih =>
    rw [List.flatMap_cons,List.filter_append,ih]
    unfold coreCreateAddressMovement
    by_cases h : isCoreAddressMovementOutput o = true
    · by_cases ha : o.address = address
      · simp [h,ha,ownedBy,isNativeMovement,coreCreditMovement]
      · simp [h,ha,ownedBy,isNativeMovement,coreCreditMovement]
    · simp [h,ownedBy]

theorem filter_coreSpendAddressMovement {createdOutputs prevouts : OutputMap}
    {resolve : CoreDogecoinSpend → Option ProjectionUtxoOutput} (block : ParsedDogecoinBlock)
    {spends : List CoreDogecoinSpend}
    (h : ∀ s ∈ spends, coreSpentOutput createdOutputs prevouts s = resolve s) :
    (spends.flatMap (coreSpendAddressMovement (coreBlockApplication block) createdOutputs
      prevouts)).filter (isNativeMovement address) =
        spends.filterMap (debitMovement resolve address block) := by
  induction spends with
  | nil => rfl
  | cons s spends ih =>
    rw [List.flatMap_cons,List.filter_append,ih (fun x hx => h x (List.mem_cons_of_mem _ hx)),
      List.filterMap_cons]
    unfold coreSpendAddressMovement
    rw [h s List.mem_cons_self]
    cases hr : resolve s with
    | none => simp [debitMovement,hr]
    | some o =>
      by_cases ho : isCoreAddressMovementOutput o = true
      · by_cases ha : o.address = address
        · simp [debitMovement,hr,ho,ha,ownedBy,isNativeMovement,coreDebitMovement,
            Option.filter_some]
        · simp [debitMovement,hr,ho,ha,ownedBy,isNativeMovement,coreDebitMovement,
            Option.filter_some]
      · simp [debitMovement,hr,ho,ownedBy,Option.filter_some]

theorem filter_coreWindowFactInserts {prevouts : OutputMap}
    {resolve : CoreDogecoinSpend → Option ProjectionUtxoOutput}
    (h : ∀ s ∈ window.flatMap blockSpends, coreSpentOutput
      (coreCreatedOutputsByKey (window.map coreBlockApplication)) prevouts s = resolve s) :
    (coreWindowFactInserts (window.map coreBlockApplication) prevouts).movements.filter
      (isNativeMovement address) = window.flatMap (blockMovements resolve address) := by
  unfold coreWindowFactInserts
  rw [List.filter_flatMap,List.flatMap_map]
  refine List.flatMap_congr (fun block hb => ?_)
  unfold coreApplicationAddressMovements blockMovements creditMovements
  rw [List.filter_append]
  congr 1
  · exact filter_coreCreateAddressMovement _
  · exact filter_coreSpendAddressMovement block
      (fun s hs => h s (List.mem_flatMap.mpr ⟨block,hb,hs⟩))

theorem filter_backfillFacts (hv : ValidBlocks .empty blocks L) (hsub : ∀ b ∈ window, b ∈ blocks) :
    (backfillFacts window).movements.filter (isNativeMovement address) =
      window.flatMap (blockMovements (backfillResolve L window) address) := by
  refine filter_coreWindowFactInserts (fun s hs => ?_)
  rw [coreSpentOutput_backfill hv hsub]
  unfold backfillResolve createsKey
  simp only [decide_eq_true_eq]

theorem filter_onlineFacts (hv : ValidBlocks .empty blocks L) (hsub : ∀ b ∈ window, b ∈ blocks) :
    (onlineFacts L window).movements.filter (isNativeMovement address) =
      window.flatMap (blockMovements (onlineResolve L) address) :=
  filter_coreWindowFactInserts (fun _ hs => coreSpentOutput_online hv hsub hs)

theorem nativeMovements_of_hasFacts {w : Warehouse} {base windows : List (List ParsedDogecoinBlock)}
    (hv : ValidBlocks .empty (base.flatten ++ windows.flatten) L)
    (hfacts : HasFacts w (base.map backfillFacts ++ windows.map (onlineFacts L))) :
    w.nativeMovements address =
      base.flatMap (fun window => window.flatMap
        (blockMovements (backfillResolve L window) address)) ++
      windows.flatMap (fun window => window.flatMap
        (blockMovements (onlineResolve L) address)) := by
  unfold Warehouse.nativeMovements
  rw [hfacts.movementsByAddress,List.flatMap_append,List.filter_append,List.flatMap_map,
    List.flatMap_map,List.filter_flatMap,List.filter_flatMap]
  congr 1
  · refine List.flatMap_congr (fun window hw => filter_backfillFacts hv (fun b hb => ?_))
    exact List.mem_append_left _ (List.mem_flatten.mpr ⟨window,hw,hb⟩)
  · refine List.flatMap_congr (fun window hw => filter_onlineFacts hv (fun b hb => ?_))
    exact List.mem_append_right _ (List.mem_flatten.mpr ⟨window,hw,hb⟩)

theorem mem_blockMovements {resolve : CoreDogecoinSpend → Option ProjectionUtxoOutput}
    {block : ParsedDogecoinBlock} {m : AddressMovement} :
    m ∈ blockMovements resolve address block ↔
      (∃ c ∈ blockCreates block, ownedBy address c ∧ m = coreCreditMovement c) ∨
      ∃ s ∈ blockSpends block, ∃ o, (resolve s).filter (ownedBy address) = some o ∧
        m = coreDebitMovement (coreBlockApplication block) s o := by
  unfold blockMovements creditMovements debitMovement
  simp only [List.mem_append,List.mem_map,List.mem_filter,List.mem_filterMap,Option.map_eq_some_iff,
    and_assoc,eq_comm]

theorem backfillResolve_filter {s : CoreDogecoinSpend} {o : ProjectionUtxoOutput} :
    (backfillResolve L window s).filter (ownedBy address) = some o ↔
      createsKey window s.outputKey ∧ ownedOutput L address s = some o := by
  unfold backfillResolve ownedOutput
  by_cases h : createsKey window s.outputKey = true <;> simp [h]

end Rows

section Run
variable {L : CoinLedger} {base windows : List (List ParsedDogecoinBlock)} {address : String}
variable {blocks : List ParsedDogecoinBlock}

theorem ValidBlocks.create_place (hv : ValidBlocks .empty blocks L) {c c' : ProjectionUtxoOutput}
    (hc : c ∈ blocks.flatMap blockCreates) (hc' : c' ∈ blocks.flatMap blockCreates)
    (htxid : c.txid = c'.txid) : movementGroup (coreCreditMovement c) =
      movementGroup (coreCreditMovement c') := by
  -- both transactions create the output with the index 0
  have first {c : ProjectionUtxoOutput} (hc : c ∈ blocks.flatMap blockCreates) :
      ∃ d ∈ blocks.flatMap blockCreates, d.outputKey = ⟨c.txid,0⟩ ∧
        movementGroup (coreCreditMovement d) = movementGroup (coreCreditMovement c) := by
    obtain ⟨block,hb,hc⟩ := List.mem_flatMap.mp hc
    obtain ⟨tx,txIndex,output,outputIndex,htx,houtput,rfl⟩ := mem_blockCreates hc
    have hlen : 0 < tx.vout.length := by
      have := List.snd_lt_of_mem_zipIdx houtput
      omega
    have hmem : (tx.vout[0],0) ∈ tx.vout.zipIdx := by
      rw [List.mk_mem_zipIdx_iff_getElem?]
      exact List.getElem?_eq_getElem hlen
    have hcreate : buildTransactionOutput block tx txIndex tx.vout[0] 0 ∈ blockCreates block :=
      List.mem_flatMap.mpr ⟨(tx,txIndex),htx,List.mem_map.mpr ⟨(tx.vout[0],0),hmem,rfl⟩⟩
    exact ⟨_,List.mem_flatMap.mpr ⟨block,hb,hcreate⟩,rfl,rfl⟩
  obtain ⟨d,hd,hdk,hdg⟩ := first hc
  obtain ⟨d',hd',hdk',hdg'⟩ := first hc'
  have heq : d = d' := List.inj_on_of_nodup_map (List.nodup_append.mp hv.create_keys_nodup).2.1
    hd hd' (by rw [hdk,hdk',htxid])
  rw [← hdg,← hdg',heq]

theorem mem_addressDebits {s : CoreDogecoinSpend} : s ∈ addressDebits L base windows address ↔
    (∃ window ∈ base, (∃ block ∈ window, s ∈ blockSpends block) ∧
      createsKey window s.outputKey ∧ (ownedOutput L address s).isSome) ∨
    ∃ window ∈ windows, (∃ block ∈ window, s ∈ blockSpends block) ∧
      (ownedOutput L address s).isSome := by
  simp only [addressDebits,backfillDebits,onlineDebits,List.mem_append,List.mem_flatMap,
    List.mem_filter,Bool.and_eq_true]

theorem mem_nativeMovements {w : Warehouse}
    (hv : ValidBlocks .empty (base.flatten ++ windows.flatten) L)
    (hfacts : HasFacts w (base.map backfillFacts ++ windows.map (onlineFacts L)))
    {m : AddressMovement} : m ∈ w.nativeMovements address ↔
      (∃ c ∈ addressCredits (base.flatten ++ windows.flatten) address, m = coreCreditMovement c) ∨
      ∃ block ∈ base.flatten ++ windows.flatten, ∃ s ∈ blockSpends block,
        s ∈ addressDebits L base windows address ∧ ∃ o, ownedOutput L address s = some o ∧
          m = coreDebitMovement (coreBlockApplication block) s o := by
  have hbase {window block} (hw : window ∈ base) (hb : block ∈ window) :
      block ∈ base.flatten ++ windows.flatten :=
    List.mem_append_left _ (List.mem_flatten.mpr ⟨window,hw,hb⟩)
  have hwindows {window block} (hw : window ∈ windows) (hb : block ∈ window) :
      block ∈ base.flatten ++ windows.flatten :=
    List.mem_append_right _ (List.mem_flatten.mpr ⟨window,hw,hb⟩)
  have hcredit {block c} (hb : block ∈ base.flatten ++ windows.flatten)
      (hc : c ∈ blockCreates block) (ho : ownedBy address c) :
      c ∈ addressCredits (base.flatten ++ windows.flatten) address :=
    List.mem_filter.mpr ⟨List.mem_flatMap.mpr ⟨block,hb,hc⟩,ho⟩
  -- the block of a spend is the one at its height
  have hblock {block block' s} (hb : block ∈ base.flatten ++ windows.flatten)
      (hb' : block' ∈ base.flatten ++ windows.flatten) (hs : s ∈ blockSpends block)
      (hs' : s ∈ blockSpends block') : block = block' :=
    eq_of_height_eq hv.linked hb hb' ((blockSpends_height hs).symm.trans (blockSpends_height hs'))
  have howned {s : CoreDogecoinSpend} : (ownedOutput L address s).isSome ↔
      ∃ o, ownedOutput L address s = some o := Option.isSome_iff_exists
  rw [nativeMovements_of_hasFacts hv hfacts]
  simp only [List.mem_append,List.mem_flatMap,mem_blockMovements,backfillResolve_filter,
    mem_addressDebits,howned]
  constructor
  · rintro (⟨window,hw,block,hb,hrow⟩ | ⟨window,hw,block,hb,hrow⟩)
    · rcases hrow with ⟨c,hc,ho,rfl⟩ | ⟨s,hs,o,⟨hkey,ho⟩,rfl⟩
      · exact Or.inl ⟨c,hcredit (hbase hw hb) hc ho,rfl⟩
      · exact Or.inr ⟨block,List.mem_append.mp (hbase hw hb),s,hs,
          Or.inl ⟨window,hw,⟨block,hb,hs⟩,hkey,o,ho⟩,o,ho,rfl⟩
    · rcases hrow with ⟨c,hc,ho,rfl⟩ | ⟨s,hs,o,ho,rfl⟩
      · exact Or.inl ⟨c,hcredit (hwindows hw hb) hc ho,rfl⟩
      · exact Or.inr ⟨block,List.mem_append.mp (hwindows hw hb),s,hs,
          Or.inr ⟨window,hw,⟨block,hb,hs⟩,o,ho⟩,o,ho,rfl⟩
  · rintro (⟨c,hc,rfl⟩ | ⟨block,hb,s,hs,hdebit,o,ho,rfl⟩)
    · obtain ⟨hc,howner⟩ := List.mem_filter.mp hc
      obtain ⟨block,hb,hc⟩ := List.mem_flatMap.mp hc
      rcases List.mem_append.mp hb with hb | hb
      · obtain ⟨window,hw,hb⟩ := List.mem_flatten.mp hb
        exact Or.inl ⟨window,hw,block,hb,Or.inl ⟨c,hc,howner,rfl⟩⟩
      · obtain ⟨window,hw,hb⟩ := List.mem_flatten.mp hb
        exact Or.inr ⟨window,hw,block,hb,Or.inl ⟨c,hc,howner,rfl⟩⟩
    · have hb := List.mem_append.mpr hb
      rcases hdebit with ⟨window,hw,⟨block',hb',hs'⟩,hkey,-⟩ | ⟨window,hw,⟨block',hb',hs'⟩,-⟩
      · have heq := hblock hb (hbase hw hb') hs hs'
        subst heq
        exact Or.inl ⟨window,hw,block,hb',Or.inr ⟨s,hs,o,⟨hkey,ho⟩,rfl⟩⟩
      · have heq := hblock hb (hwindows hw hb') hs hs'
        subst heq
        exact Or.inr ⟨window,hw,block,hb',Or.inr ⟨s,hs,o,ho,rfl⟩⟩

/-- A transaction that spends from the address and pays it is the first of its block, and a
txid spends from the address in one block only. -/
def DebitsInPlace (L : CoinLedger) (base windows : List (List ParsedDogecoinBlock))
    (address : String) : Prop :=
  (∀ c ∈ addressCredits (base.flatten ++ windows.flatten) address,
    ∀ s ∈ addressDebits L base windows address, s.spentByTxid = c.txid →
      s.spentInBlock = c.blockHeight ∧ c.txIndex = 0) ∧
  ∀ s ∈ addressDebits L base windows address, ∀ s' ∈ addressDebits L base windows address,
    s.spentByTxid = s'.spentByTxid → s.spentInBlock = s'.spentInBlock

instance (L : CoinLedger) (base windows : List (List ParsedDogecoinBlock)) (address : String) :
    Decidable (DebitsInPlace L base windows address) := inferInstanceAs (Decidable (_ ∧ _))

theorem movementGroup_credit {block : ParsedDogecoinBlock} {c : ProjectionUtxoOutput}
    (h : c ∈ blockCreates block) : movementGroup (coreCreditMovement c) =
      ⟨block.height,block.hash,block.time,c.txid,c.txIndex⟩ := by
  obtain ⟨tx,txIndex,output,outputIndex,-,-,rfl⟩ := mem_blockCreates h
  rfl

theorem movementGroup_debit (block : ParsedDogecoinBlock) (s : CoreDogecoinSpend)
    (o : ProjectionUtxoOutput) :
    movementGroup (coreDebitMovement (coreBlockApplication block) s o) =
      ⟨block.height,block.hash,block.time,s.spentByTxid,0⟩ := rfl

theorem onePlacePerTxid_iff {w : Warehouse}
    (hv : ValidBlocks .empty (base.flatten ++ windows.flatten) L)
    (hfacts : HasFacts w (base.map backfillFacts ++ windows.map (onlineFacts L))) :
    OnePlacePerTxid (w.nativeMovements address) ↔ DebitsInPlace L base windows address := by
  -- the debit row of a spend and its block
  have hdebit {s} (hs : s ∈ addressDebits L base windows address) :
      ∃ block ∈ base.flatten ++ windows.flatten, s ∈ blockSpends block ∧
        ∃ o, coreDebitMovement (coreBlockApplication block) s o ∈ w.nativeMovements address := by
    have hin : ∃ block ∈ base.flatten ++ windows.flatten, s ∈ blockSpends block ∧
        (ownedOutput L address s).isSome := by
      rcases mem_addressDebits.mp hs with
        ⟨window,hw,⟨block,hb,hs⟩,-,ho⟩ | ⟨window,hw,⟨block,hb,hs⟩,ho⟩
      · exact ⟨block,List.mem_append_left _ (List.mem_flatten.mpr ⟨window,hw,hb⟩),hs,ho⟩
      · exact ⟨block,List.mem_append_right _ (List.mem_flatten.mpr ⟨window,hw,hb⟩),hs,ho⟩
    obtain ⟨block,hb,hspend,ho⟩ := hin
    obtain ⟨o,ho⟩ := Option.isSome_iff_exists.mp ho
    exact ⟨block,hb,hspend,o,(mem_nativeMovements hv hfacts).mpr
      (Or.inr ⟨block,hb,s,hspend,hs,o,ho,rfl⟩)⟩
  have hcredit {c} (hc : c ∈ addressCredits (base.flatten ++ windows.flatten) address) :
      ∃ block ∈ base.flatten ++ windows.flatten, c ∈ blockCreates block ∧
        coreCreditMovement c ∈ w.nativeMovements address := by
    obtain ⟨block,hb,hcreate⟩ := List.mem_flatMap.mp (List.mem_filter.mp hc).1
    exact ⟨block,hb,hcreate,(mem_nativeMovements hv hfacts).mpr (Or.inl ⟨c,hc,rfl⟩)⟩
  constructor
  · intro hone
    constructor
    · intro c hc s hs htxid
      obtain ⟨block,hb,hcreate,hcm⟩ := hcredit hc
      obtain ⟨block',hb',hspend,o,hsm⟩ := hdebit hs
      have hgroup := hone _ hsm _ hcm htxid
      rw [movementGroup_debit,movementGroup_credit hcreate] at hgroup
      have hplace := AddressTransactionGroup.mk.inj hgroup
      rw [blockSpends_height hspend,blockCreates_height hcreate]
      exact ⟨hplace.1,hplace.2.2.2.2.symm⟩
    · intro s hs s' hs' htxid
      obtain ⟨block,hb,hspend,o,hsm⟩ := hdebit hs
      obtain ⟨block',hb',hspend',o',hsm'⟩ := hdebit hs'
      have hplace := AddressTransactionGroup.mk.inj (hone _ hsm _ hsm' htxid)
      rw [blockSpends_height hspend,blockSpends_height hspend']
      exact hplace.1
  · rintro ⟨hmixed,hspends⟩
    -- a credit and a debit of one transaction
    have mixed {c block s o} (hc : c ∈ addressCredits (base.flatten ++ windows.flatten) address)
        (hb : block ∈ base.flatten ++ windows.flatten) (hspend : s ∈ blockSpends block)
        (hs : s ∈ addressDebits L base windows address) (htxid : s.spentByTxid = c.txid) :
        movementGroup (coreDebitMovement (coreBlockApplication block) s o) =
          movementGroup (coreCreditMovement c) := by
      obtain ⟨block',hb',hcreate,-⟩ := hcredit hc
      obtain ⟨hheight,hindex⟩ := hmixed c hc s hs htxid
      rw [blockSpends_height hspend,blockCreates_height hcreate] at hheight
      have heq := eq_of_height_eq hv.linked hb hb' hheight
      subst heq
      rw [movementGroup_debit,movementGroup_credit hcreate,htxid,hindex]
    intro m hm m' hm' htxid
    rcases (mem_nativeMovements hv hfacts).mp hm with ⟨c,hc,rfl⟩ | ⟨block,hb,s,hspend,hs,o,-,rfl⟩
    · rcases (mem_nativeMovements hv hfacts).mp hm' with
        ⟨c',hc',rfl⟩ | ⟨block,hb,s,hspend,hs,o,-,rfl⟩
      · exact hv.create_place (List.mem_filter.mp hc).1 (List.mem_filter.mp hc').1 htxid
      · exact (mixed hc hb hspend hs htxid.symm).symm
    · rcases (mem_nativeMovements hv hfacts).mp hm' with
        ⟨c,hc,rfl⟩ | ⟨block',hb',s',hspend',hs',o',-,rfl⟩
      · exact mixed hc hb hspend hs htxid
      · have hheight := hspends s hs s' hs' htxid
        rw [blockSpends_height hspend,blockSpends_height hspend'] at hheight
        have heq := eq_of_height_eq hv.linked hb hb' hheight
        subst heq
        have htx : s.spentByTxid = s'.spentByTxid := htxid
        rw [movementGroup_debit,movementGroup_debit,htx]

/-- After a run the listing of an address has one row for each transaction exactly when every
debit has the place of its transaction. -/
theorem listing_once_iff (boundaries : Warehouse → List String)
    {backfill online : CoreDogecoinApplyContext} (base windows : List (List ParsedDogecoinBlock))
    (hback : shouldUpdateCoreCurrentState backfill = false)
    (honline : shouldUpdateCoreCurrentState online)
    (hv : ValidBlocks .empty (base.flatten ++ windows.flatten) L) :
    ∃ w, (applyChainWindows boundaries backfill online base windows).run emptyWarehouse [] =
        (.value (),w,[]) ∧
      ∀ address, w.ListsEachTransactionOnce address ↔ DebitsInPlace L base windows address := by
  obtain ⟨w,hrun,-,hfacts⟩ := applyChainWindows_facts boundaries base windows hback honline hv
  exact ⟨w,hrun,fun address => listsEachTransactionOnce_iff.trans (onePlacePerTxid_iff hv hfacts)⟩

/-- `t1`, the second transaction of its block, spends `c0:0` of `A` and gives change to `A`. -/
theorem listing_of_change : ∃ w,
    (applyChainWindows (fun _ => []) ⟨some false,none⟩ ⟨some true,none⟩
      [paymentBlocks.take 1] [paymentBlocks.drop 1]).run emptyWarehouse [] = (.value (),w,[]) ∧
    (w.listAddressTransactions "A" 0 none).map (fun row =>
      (row.summary.txid,row.summary.txIndex,row.summary.receivedBase,row.summary.sentBase)) =
        [("t2",0,0,19),("t1",1,19,0),("t1",0,0,50),("c0",0,110,0)] ∧
    (w.queryAddressMovementSummary "A").txCount = 3 ∧
    ¬w.ListsEachTransactionOnce "A" := by
  obtain ⟨w,hrun,-,hfacts⟩ := applyChainWindows_facts (fun _ => [])
    [paymentBlocks.take 1] [paymentBlocks.drop 1]
    (rfl : shouldUpdateCoreCurrentState ⟨some false,none⟩ = false)
    (rfl : shouldUpdateCoreCurrentState ⟨some true,none⟩ = true) paymentBlocks_valid
  have hv : ValidBlocks .empty ([paymentBlocks.take 1].flatten ++ [paymentBlocks.drop 1].flatten)
    paymentLedger := paymentBlocks_valid
  have hmovements : w.nativeMovements "A" = _ := nativeMovements_of_hasFacts hv hfacts
  refine ⟨w,hrun,?_,?_,?_⟩
  · have hrows : (w.listAddressTransactions "A" 0 none).map (·.summary) =
        w.addressTransactions "A" := by
      simp [Warehouse.listAddressTransactions,Function.comp_def]
    have hmap := congrArg (List.map (fun summary : AddressTransactionSummary =>
      (summary.txid,summary.txIndex,summary.receivedBase,summary.sentBase))) hrows
    rw [List.map_map] at hmap
    refine hmap.trans ?_
    unfold Warehouse.addressTransactions
    rw [hmovements]
    decide
  · unfold Warehouse.queryAddressMovementSummary
    rw [hmovements]
    decide
  · rw [listsEachTransactionOnce_iff,onePlacePerTxid_iff hv hfacts]
    decide

theorem listing_once_iff_paymentBlocks : ∃ w,
    (applyChainWindows (fun _ => []) ⟨some false,none⟩ ⟨some true,none⟩
      [paymentBlocks.take 1] [paymentBlocks.drop 1]).run emptyWarehouse [] = (.value (),w,[]) ∧
    ∀ address, w.ListsEachTransactionOnce address ↔
      DebitsInPlace paymentLedger [paymentBlocks.take 1] [paymentBlocks.drop 1] address :=
  listing_once_iff (fun _ => []) [paymentBlocks.take 1] [paymentBlocks.drop 1]
    (rfl : shouldUpdateCoreCurrentState ⟨some false,none⟩ = false)
    (rfl : shouldUpdateCoreCurrentState ⟨some true,none⟩ = true) paymentBlocks_valid

end Run

end OnlyDoge
