import OnlyDoge.Warehouse.InMemoryRewind
import OnlyDoge.Warehouse.Fees
import OnlyDoge.Library.Invariant
set_option autoImplicit false

/-! Windows applied in memory above a height, complete or not, and the recovery from it. -/

namespace OnlyDoge.InMemory
open Rows Job WarehouseState

section Block
variable {block : ParsedDogecoinBlock} {createdOutputs currentOutputs : OutputMap}

theorem movement_height {movement : AddressMovement}
    (h : movement ∈ coreApplicationAddressMovements createdOutputs currentOutputs
      (coreBlockApplication block)) : movement.blockHeight = block.height := by
  rcases List.mem_append.mp h with hcredit | hdebit
  · obtain ⟨c,hc,hm⟩ := List.mem_flatMap.mp hcredit
    unfold coreCreateAddressMovement at hm
    split at hm
    · rw [List.mem_singleton.mp hm]
      exact blockCreates_height hc
    · cases hm
  · obtain ⟨spend,-,hm⟩ := List.mem_flatMap.mp hdebit
    unfold coreSpendAddressMovement at hm
    split at hm
    · cases hm
    · split at hm
      · rw [List.mem_singleton.mp hm]
        rfl
      · cases hm

theorem firstOutput_mem {output : ProjectionUtxoOutput} (h : output ∈ blockCreates block) :
    ∃ c ∈ blockCreates block, c.outputKey = ⟨output.txid,0⟩ := by
  obtain ⟨tx,txIndex,vout,outputIndex,htx,hvout,rfl⟩ := mem_blockCreates h
  cases hlist : tx.vout with
  | nil => simp [hlist] at hvout
  | cons first rest =>
    refine ⟨buildTransactionOutput block tx txIndex first 0,?_,rfl⟩
    refine List.mem_flatMap.mpr ⟨(tx,txIndex),htx,List.mem_map.mpr ⟨(first,0),?_,rfl⟩⟩
    rw [hlist]
    exact List.mem_cons_self

/-- A fact of a block stands at its height, and the block creates the transaction's output 0. -/
theorem fact_output {fact : AnalyticsTransactionFact}
    (h : fact ∈ coreApplicationTransactionFacts createdOutputs currentOutputs
      (coreBlockApplication block)) :
    fact.blockHeight = block.height ∧ ∃ c ∈ blockCreates block, c.outputKey = ⟨fact.txid,0⟩ := by
  obtain ⟨txid,hne,rfl⟩ := mem_coreApplicationTransactionFacts.mp h
  refine ⟨rfl,?_⟩
  obtain ⟨output,houtput⟩ := List.exists_mem_of_ne_nil _ hne
  obtain ⟨hmem,htxid⟩ := List.mem_filter.mp houtput
  obtain ⟨c,hc,hkey⟩ := firstOutput_mem hmem
  refine ⟨c,hc,?_⟩
  rw [hkey,of_decide_eq_true htxid]
  rfl

end Block

section Window
variable {height : Nat} {s t : WarehouseState} {createdOutputs currentOutputs : OutputMap}

/-- The rest of the window may still be written. -/
def Ready (height : Nat) (s : WarehouseState) (creates : List ProjectionUtxoOutput)
    (spends : List CoreDogecoinSpend) (t : WarehouseState) : Prop :=
  Above height s t ∧ Admits t creates spends

theorem Ready.create {creates rest : List ProjectionUtxoOutput} {spends : List CoreDogecoinSpend}
    (h : Ready height s (creates ++ rest) spends t)
    (hheight : ∀ c ∈ creates, height ≤ c.blockHeight) (hbare : ∀ c ∈ creates, c.spentBy = none) :
    Ready height s rest spends (creates.foldl upsertUtxoOutput t) ∧
      ∀ c ∈ creates, c ∈ (creates.foldl upsertUtxoOutput t).utxoOutputs := by
  obtain ⟨habove,hcreated,hfresh,hspent,hunspent⟩ := h
  rw [List.map_append,List.nodup_append] at hcreated
  obtain ⟨hnodup,hnodup',hdisjoint⟩ := hcreated
  have hfresh' : ∀ c ∈ creates, ∀ o ∈ t.utxoOutputs, o.outputKey ≠ c.outputKey :=
    fun c hc => hfresh c (List.mem_append_left _ hc)
  rw [upsertUtxoOutputs_eq hnodup hfresh']
  refine ⟨⟨habove.addOutputs hheight hnodup hfresh',hnodup',?_,hspent,?_⟩,
    fun c hc => List.mem_append_right _ hc⟩
  · intro c hc o ho
    rcases List.mem_append.mp ho with ho | ho
    · exact hfresh c (List.mem_append_right _ hc) o ho
    · exact hdisjoint _ (List.mem_map_of_mem ho) _ (List.mem_map_of_mem hc)
  · intro spend hspend o ho hkey
    rcases List.mem_append.mp ho with ho | ho
    · exact hunspent spend hspend o ho hkey
    · exact hbare o ho

/-- Each output of the block is there with its height, spent or not. -/
def Created (creates : List ProjectionUtxoOutput) (t : WarehouseState) : Prop :=
  ∀ c ∈ creates, ∃ o ∈ t.utxoOutputs, o.outputKey = c.outputKey ∧ o.blockHeight = c.blockHeight

theorem Created.of_keys {creates : List ProjectionUtxoOutput} {t' : WarehouseState}
    (h : Created creates t) (hkeys : t'.utxoOutputs.map (fun o => (o.outputKey,o.blockHeight)) =
      t.utxoOutputs.map (fun o => (o.outputKey,o.blockHeight))) : Created creates t' := by
  intro c hc
  obtain ⟨o,ho,hkey,hheight⟩ := h c hc
  have hmem : (o.outputKey,o.blockHeight) ∈
      t'.utxoOutputs.map (fun o => (o.outputKey,o.blockHeight)) := by
    rw [hkeys]
    exact List.mem_map_of_mem ho
  obtain ⟨o',ho',heq⟩ := List.mem_map.mp hmem
  obtain ⟨hk,hb⟩ := Prod.mk.inj heq
  exact ⟨o',ho',hk.trans hkey,hb.trans hheight⟩

theorem Ready.spend {creates : List ProjectionUtxoOutput} {spend : CoreDogecoinSpend}
    {rest : List CoreDogecoinSpend} (h : Ready height s creates (spend::rest) t)
    (hheight : height ≤ spend.spentInBlock) :
    Ready height s creates rest (t.spendUtxoOutput spend) := by
  obtain ⟨habove,hcreated,hfresh,hspent,hunspent⟩ := h
  obtain ⟨hnot,hspent'⟩ := List.nodup_cons.mp hspent
  refine ⟨habove.spendOutput hheight (hunspent spend List.mem_cons_self),hcreated,?_,hspent',?_⟩
  · intro c hc o ho
    rcases mem_update ho with hold | ⟨o',ho',-,rfl⟩
    · exact hfresh c hc o hold
    · exact hfresh c hc o' ho'
  · intro spend' hspend' o ho hkey
    rcases mem_update ho with hold | ⟨o',ho',hmatch,rfl⟩
    · exact hunspent spend' (List.mem_cons_of_mem _ hspend') o hold hkey
    · have hsame : o'.outputKey = spend.outputKey := by simpa using hmatch
      have hother : o'.outputKey = spend'.outputKey := hkey
      exact absurd (List.mem_map.mpr ⟨spend',hspend',hother.symm.trans hsame⟩) hnot

theorem wp_spends {creates done : List ProjectionUtxoOutput}
    {spends rest : List CoreDogecoinSpend} (h : Ready height s creates (spends ++ rest) t)
    (hdone : Created done t) (hheight : ∀ spend ∈ spends, height ≤ spend.spentInBlock) :
    wp (applyBatchUtxoSpends spends)
      (fun _ t' => Ready height s creates rest t' ∧ Created done t')
      (fun _ t' => Above height s t') (Above height s) t := by
  refine wp_mono (wp_forEach (fun passed t' => ∃ ahead, spends = passed ++ ahead ∧
    Ready height s creates (ahead ++ rest) t' ∧ Created done t') ?_ ⟨spends,rfl,h,hdone⟩)
    ?_ (fun _ _ h => h) (fun _ h => h)
  · rintro passed spend ahead t' hspends ⟨ahead',hahead',hready,hcreated⟩
    obtain rfl : spend::ahead = ahead' := List.append_cancel_left (hspends.symm.trans hahead')
    have hspend : height ≤ spend.spentInBlock := hheight spend (by simp [hspends])
    refine wp_bind (wp_bind (wp_look (wp_ofExcept (fun _ _ => ?_) (fun _ _ => hready.1))))
    refine wp_assign ⟨ahead,by simp [hspends],hready.spend hspend,?_⟩
    exact hcreated.of_keys (spendUtxoOutput_keys spend t')
  · rintro - t' ⟨ahead,hahead,hready,hcreated⟩
    obtain rfl : ahead = [] := by simpa using hahead
    exact ⟨hready,hcreated⟩

theorem Ready.of_utxos {creates : List ProjectionUtxoOutput} {spends : List CoreDogecoinSpend}
    {t' : WarehouseState} (h : Admits t creates spends) (habove : Above height s t')
    (hutxos : t'.utxoOutputs = t.utxoOutputs) : Ready height s creates spends t' := by
  refine ⟨habove,h.created,?_,h.spent,?_⟩
  · rw [hutxos]
    exact h.fresh
  · rw [hutxos]
    exact h.unspent

theorem writeBalanceSnapshot_utxos (movement : AddressMovement) (blockHeight : Nat)
    (nextAmount : Int) (t : WarehouseState) :
    (t.writeBalanceSnapshot movement blockHeight nextAmount).utxoOutputs = t.utxoOutputs := by
  unfold writeBalanceSnapshot
  cases t.findBalanceSnapshot movement <;> rfl

theorem wp_movements {movements : List AddressMovement} {blockHeight : Nat}
    (h : Above height s t) (hheight : ∀ m ∈ movements, height ≤ m.blockHeight) :
    wp (applyBatchAddressMovements movements blockHeight)
      (fun _ t' => Above height s t' ∧ t'.utxoOutputs = t.utxoOutputs)
      (fun _ t' => Above height s t') (Above height s) t := by
  refine wp_forEach (fun _ t' => Above height s t' ∧ t'.utxoOutputs = t.utxoOutputs) ?_ ⟨h,rfl⟩
  rintro passed movement ahead t' hmovements ⟨habove,hutxos⟩
  have hmovement : height ≤ movement.blockHeight := hheight movement (by simp [hmovements])
  have hadded := habove.addMovement hmovement
  refine wp_bind (wp_look (wp_when (fun _ => ?_) (fun _ => ⟨habove,hutxos⟩)))
  refine wp_bind (wp_assign (wp_bind (wp_look (wp_bind ?_))))
  refine wp_ofExcept (fun _ _ => wp_assign ⟨hadded.writeBalance _ _ _,?_⟩) (fun _ _ => hadded)
  rw [writeBalanceSnapshot_utxos]
  exact hutxos

theorem above_facts {facts : List AnalyticsTransactionFact} (h : Above height s t)
    (hfacts : ∀ fact ∈ facts, height ≤ fact.blockHeight ∧ ∃ o ∈ t.utxoOutputs,
      o.outputKey = ⟨fact.txid,0⟩ ∧ o.blockHeight = fact.blockHeight) :
    Above height s (facts.foldl upsertAnalyticsTransactionFact t) ∧
      (facts.foldl upsertAnalyticsTransactionFact t).utxoOutputs = t.utxoOutputs := by
  induction facts generalizing t with
  | nil => exact ⟨h,rfl⟩
  | cons fact facts ih =>
    obtain ⟨hheight,houtput⟩ := hfacts fact List.mem_cons_self
    exact ih (h.addFact hheight houtput) (fun f hf => hfacts f (List.mem_cons_of_mem _ hf))

theorem appendAppliedBlock_utxos (block : ProjectionAppliedBlock) (t : WarehouseState) :
    (t.appendAppliedBlock block).utxoOutputs = t.utxoOutputs := by
  unfold appendAppliedBlock
  split <;> rfl

theorem wp_application {block : ParsedDogecoinBlock} {creates : List ProjectionUtxoOutput}
    {spends : List CoreDogecoinSpend} (hblock : height ≤ block.height)
    (h : Ready height s (blockCreates block ++ creates) (blockSpends block ++ spends) t) :
    wp (applyInMemoryCoreApplication createdOutputs currentOutputs (coreBlockApplication block))
      (fun _ t' => Ready height s creates spends t')
      (fun _ t' => Above height s t') (Above height s) t := by
  have hcreateHeight : ∀ c ∈ blockCreates block, height ≤ c.blockHeight :=
    fun c hc => (blockCreates_height hc).symm ▸ hblock
  obtain ⟨hready,hthere⟩ := h.create hcreateHeight (fun c hc => blockCreates_unspent hc)
  have hcreated : Created (blockCreates block)
      ((blockCreates block).foldl upsertUtxoOutput t) :=
    fun c hc => ⟨c,hthere c hc,rfl,rfl⟩
  refine wp_bind (wp_assign ?_)
  refine wp_bind (wp_mono (wp_spends hready hcreated
    (fun spend hspend => (blockSpends_height hspend).symm ▸ hblock)) ?_ (fun _ _ h => h)
    (fun _ h => h))
  rintro _ t₁ ⟨⟨habove,hadmits⟩,hcreated⟩
  refine wp_bind (wp_mono (wp_movements habove
    (fun m hm => (movement_height hm).symm ▸ hblock)) ?_ (fun _ _ h => h) (fun _ h => h))
  rintro _ t₂ ⟨habove,hutxos⟩
  have houtput : ∀ fact ∈ coreApplicationTransactionFacts createdOutputs currentOutputs
      (coreBlockApplication block), height ≤ fact.blockHeight ∧ ∃ o ∈ t₂.utxoOutputs,
        o.outputKey = ⟨fact.txid,0⟩ ∧ o.blockHeight = fact.blockHeight := by
    intro fact hfact
    obtain ⟨hheight,c,hc,hkey⟩ := fact_output hfact
    obtain ⟨o,ho,hk,hb⟩ := hcreated c hc
    rw [hheight,hutxos]
    exact ⟨hblock,o,ho,hk.trans hkey,hb.trans (blockCreates_height hc)⟩
  have hfacts := above_facts habove houtput
  refine wp_bind (wp_assign (wp_assign ?_))
  refine Ready.of_utxos hadmits (hfacts.1.addAppliedBlock hblock) ?_
  rw [appendAppliedBlock_utxos,hfacts.2,hutxos]

theorem wp_applications {pending : List CoreDogecoinBlockApplication}
    (hpending : ∀ a ∈ pending, ∃ block, a = coreBlockApplication block ∧ height ≤ block.height)
    (h : Ready height s (pending.flatMap (·.utxoCreates)) (pending.flatMap (·.utxoSpends)) t) :
    wp (forEach pending (applyInMemoryCoreApplication createdOutputs currentOutputs))
      (fun _ t' => Above height s t') (fun _ t' => Above height s t') (Above height s) t := by
  refine wp_mono (wp_forEach (fun passed t' => ∃ ahead, pending = passed ++ ahead ∧
    Ready height s (ahead.flatMap (·.utxoCreates)) (ahead.flatMap (·.utxoSpends)) t') ?_
    ⟨pending,rfl,h⟩) ?_ (fun _ _ h => h) (fun _ h => h)
  · rintro passed a ahead t' hsplit ⟨ahead',hahead',hready⟩
    obtain rfl : a::ahead = ahead' := List.append_cancel_left (hsplit.symm.trans hahead')
    obtain ⟨block,rfl,hblock⟩ := hpending a (by simp [hsplit])
    refine wp_mono (wp_application hblock hready) (fun _ t'' ht'' => ?_) (fun _ _ h => h)
      (fun _ h => h)
    exact ⟨ahead,by simp [hsplit],ht''⟩
  · rintro - t' ⟨_,-,hready⟩
    exact hready.1

/-- A window of blocks at or above the height, given its pending applications. -/
structure WindowFits (height : Nat) (t : WarehouseState) (window : List ParsedDogecoinBlock) :
    Prop where
  above : ∀ block ∈ window, height ≤ block.height
  admits : Admits (t.pendingInMemoryCoreApplications (window.map coreBlockApplication)).1
    ((t.pendingInMemoryCoreApplications (window.map coreBlockApplication)).2.flatMap
      (·.utxoCreates))
    ((t.pendingInMemoryCoreApplications (window.map coreBlockApplication)).2.flatMap
      (·.utxoSpends))

theorem pending_subset (t : WarehouseState) (input : List CoreDogecoinBlockApplication) :
    ∀ a ∈ (t.pendingInMemoryCoreApplications input).2, a ∈ input := by
  intro a ha
  unfold pendingInMemoryCoreApplications at ha
  split at ha
  · exact (List.mem_filter.mp ha).1
  · exact (List.mem_filter.mp ha).1

theorem above_pending (h : Above height s t) {input : List CoreDogecoinBlockApplication}
    (hinput : ∀ a ∈ input, height ≤ a.blockHeight) :
    Above height s (t.pendingInMemoryCoreApplications input).1 := by
  unfold pendingInMemoryCoreApplications
  split
  · exact h.rewind (hinput _ (List.mem_of_find?_eq_some ‹_›))
  · exact h

theorem wp_window {window : List ParsedDogecoinBlock} (h : Above height s t)
    (hfits : WindowFits height t window) :
    wp (applyCoreDogecoinWindow (window.map coreBlockApplication))
      (fun _ t' => Above height s t') (fun _ t' => Above height s t') (Above height s) t := by
  have hinput : ∀ a ∈ window.map coreBlockApplication,
      ∃ block, a = coreBlockApplication block ∧ height ≤ block.height := by
    intro a ha
    obtain ⟨block,hblock,rfl⟩ := List.mem_map.mp ha
    exact ⟨block,rfl,hfits.above block hblock⟩
  have habove := above_pending h (fun a ha => by
    obtain ⟨block,rfl,hblock⟩ := hinput a ha
    exact hblock)
  refine wp_ite (fun _ => wp_pure h) (fun _ => wp_bind (wp_look (wp_bind (wp_assign ?_))))
  refine wp_ite (fun _ => wp_pure habove) (fun _ => wp_bind (wp_look (wp_bind ?_)))
  refine wp_mono (wp_applications ?_ ⟨habove,hfits.admits⟩) (fun _ _ ht' => wp_pure ht')
    (fun _ _ h => h) (fun _ h => h)
  exact fun a ha => hinput a (pending_subset t _ a ha)

end Window

/-- The state after a window, whether it was completed or failed part-way. -/
def afterWindow (window : List ParsedDogecoinBlock) (t : WarehouseState) : WarehouseState :=
  ((applyCoreDogecoinWindow (window.map coreBlockApplication)).run t []).2.1

def afterWindows (windows : List (List ParsedDogecoinBlock)) (t : WarehouseState) :
    WarehouseState :=
  windows.foldl (fun t window => afterWindow window t) t

/-- Each window fits the state that the windows before it leave. -/
def WindowsFit (height : Nat) : List (List ParsedDogecoinBlock) → WarehouseState → Prop
  | [],_ => True
  | window::windows,t =>
    WindowFits height t window ∧ WindowsFit height windows (afterWindow window t)

theorem above_afterWindow {height : Nat} {s t : WarehouseState}
    {window : List ParsedDogecoinBlock} (h : Above height s t)
    (hfits : WindowFits height t window) : Above height s (afterWindow window t) :=
  last_of_wp (wp_window h hfits) []

theorem above_afterWindows {height : Nat} {s t : WarehouseState}
    {windows : List (List ParsedDogecoinBlock)} (h : Above height s t)
    (hfit : WindowsFit height windows t) : Above height s (afterWindows windows t) := by
  induction windows generalizing t with
  | nil => exact h
  | cons window windows ih => exact ih (above_afterWindow h hfit.1) hfit.2

end OnlyDoge.InMemory
