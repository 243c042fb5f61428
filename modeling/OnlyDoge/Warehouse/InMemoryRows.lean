import OnlyDoge.Warehouse.AddressReads
import OnlyDoge.Warehouse.AddressHistory
import OnlyDoge.Warehouse.CurrentRows
import OnlyDoge.Warehouse.InMemoryFacts
set_option autoImplicit false

/-!
The outputs and the movements that the in-memory warehouse stores for a chain: each output with
the spend that takes it, and each movement under an id of its own.
-/

namespace OnlyDoge.InMemory
open Rows Job WarehouseState

section Movements
variable {s : WarehouseState} {createdOutputs currentOutputs : OutputMap}

theorem movements_write (movement : AddressMovement) (blockHeight : Nat) (nextAmount : Int)
    (s : WarehouseState) :
    (s.writeBalanceSnapshot movement blockHeight nextAmount).addressMovements =
      s.addressMovements := by
  unfold writeBalanceSnapshot
  split <;> rfl

theorem possibly_stored {movement : AddressMovement} (blockHeight : Nat)
    (hnew : ∀ m ∈ s.addressMovements, m.movementId ≠ movement.movementId) :
    Possibly (applyBatchAddressMovementIfUnique blockHeight movement)
      (fun _ t => t.addressMovements = s.addressMovements ++ [movement]) s := by
  have hunknown : s.addressMovements.any (·.movementId = movement.movementId) = false := by
    rw [List.any_eq_false]
    exact fun m hm => by simpa using hnew m hm
  refine wp_bind (wp_look (wp_when (fun _ => ?_) (fun hknown => ?_)))
  · refine wp_bind (wp_assign (wp_bind (wp_look (wp_bind (wp_ofExcept (fun _ _ => ?_)
      (fun _ _ => trivial))))))
    exact wp_assign (movements_write _ _ _ _)
  · rw [hunknown] at hknown
    exact absurd rfl hknown

theorem possibly_storedAll {movements : List AddressMovement} (blockHeight : Nat)
    (hids : ((s.addressMovements ++ movements).map (·.movementId)).Nodup) :
    Possibly (applyBatchAddressMovements movements blockHeight)
      (fun _ t => t.addressMovements = s.addressMovements ++ movements) s := by
  refine wp_forEach (fun passed (t : WarehouseState) => t.addressMovements =
    s.addressMovements ++ passed)
    (fun passed movement ahead t heq ht => ?_) (List.append_nil _).symm
  refine wp_mono (possibly_stored blockHeight fun m hm => ?_) (fun _ u hu => ?_) (fun _ _ h => h)
    (fun _ h => h)
  · rw [ht] at hm
    rw [heq,List.append_cons,← List.append_assoc,← List.append_assoc,List.map_append,
      List.map_append,List.append_assoc,List.nodup_append] at hids
    refine hids.2.2 _ (List.mem_map_of_mem hm) _ ?_
    exact List.mem_append_left _ (by simp)
  · rw [hu,ht,List.append_assoc]

theorem possibly_applicationStored {application : CoreDogecoinBlockApplication}
    (hids : ((s.addressMovements ++ coreApplicationAddressMovements createdOutputs currentOutputs
      application).map (·.movementId)).Nodup) :
    Possibly (applyInMemoryCoreApplication createdOutputs currentOutputs application)
      (fun _ t => t.addressMovements = s.addressMovements ++
        coreApplicationAddressMovements createdOutputs currentOutputs application) s := by
  obtain ⟨hcreated,-⟩ := foldl_upsertOutputs application.utxoCreates s
  refine wp_bind (wp_assign (wp_bind ?_))
  have hspends : Possibly (applyBatchUtxoSpends application.utxoSpends)
      (fun _ t => t.addressMovements = s.addressMovements)
      (application.utxoCreates.foldl upsertUtxoOutput s) := by
    refine wp_forEach (fun _ (t : WarehouseState) => t.addressMovements = s.addressMovements)
      (fun _ spend _ t _ ht => ?_) hcreated
    exact wp_bind (wp_bind (wp_look (wp_ofExcept (fun _ _ => wp_assign ht) (fun _ _ => trivial))))
  refine wp_mono hspends (fun _ t ht => ?_) (fun _ _ h => h) (fun _ h => h)
  rw [← ht] at hids ⊢
  refine wp_bind (wp_mono (possibly_storedAll _ hids) (fun _ u hu => ?_) (fun _ _ h => h)
    (fun _ h => h))
  refine wp_bind (wp_assign (wp_assign ?_))
  obtain ⟨-,hfacts,-⟩ := foldl_upsertFacts
    (coreApplicationTransactionFacts createdOutputs currentOutputs application) u
  obtain ⟨-,happlied,-⟩ := appendAppliedBlock_rows
    ⟨application.blockHeight,application.blockHash⟩ ((coreApplicationTransactionFacts
      createdOutputs currentOutputs application).foldl upsertAnalyticsTransactionFact u)
  exact happlied.trans (hfacts.trans hu)

theorem possibly_applicationsStored {applications : List CoreDogecoinBlockApplication}
    (hids : ((s.addressMovements ++ applications.flatMap (coreApplicationAddressMovements
      createdOutputs currentOutputs)).map (·.movementId)).Nodup) :
    Possibly (forEach applications (applyInMemoryCoreApplication createdOutputs currentOutputs))
      (fun _ t => t.addressMovements = s.addressMovements ++
        applications.flatMap (coreApplicationAddressMovements createdOutputs currentOutputs))
      s := by
  refine wp_forEach (fun passed (t : WarehouseState) => t.addressMovements = s.addressMovements ++
    passed.flatMap (coreApplicationAddressMovements createdOutputs currentOutputs))
    (fun passed application ahead t heq ht => ?_) (List.append_nil _).symm
  refine wp_mono (possibly_applicationStored ?_) (fun _ u hu => ?_) (fun _ _ h => h) (fun _ h => h)
  · rw [heq,List.flatMap_append,List.flatMap_cons,← List.append_assoc,← List.append_assoc,← ht,
      List.map_append] at hids
    exact (List.nodup_append.mp hids).1
  · rw [hu,ht,List.flatMap_append,List.flatMap_singleton,List.append_assoc]

end Movements

/-- The outputs are these creates in their order, each with the spend that takes it. -/
def StoredOutputs (creates : List ProjectionUtxoOutput) (spends : List CoreDogecoinSpend)
    (s : WarehouseState) : Prop := s.utxoOutputs = creates.map (withSpend spends)

section Outputs
variable {creates more : List ProjectionUtxoOutput} {done spends : List CoreDogecoinSpend}
variable {spend : CoreDogecoinSpend} {s t : WarehouseState} {M : CoinLedger}
variable {blocks window : List ParsedDogecoinBlock} {block : ParsedDogecoinBlock}
variable {createdOutputs currentOutputs : OutputMap}

theorem StoredOutputs.keys (h : StoredOutputs creates spends s) :
    s.utxoOutputs.map (·.outputKey) = creates.map (·.outputKey) := by
  rw [h,List.map_map]
  rfl

theorem StoredOutputs.create (h : StoredOutputs creates spends s)
    (hnodup : ((creates ++ more).map (·.outputKey)).Nodup)
    (hunspent : ∀ c ∈ more, c.spentBy = none)
    (hfresh : ∀ c ∈ more, ∀ spend ∈ spends, spend.outputKey ≠ c.outputKey) :
    StoredOutputs (creates ++ more) spends (more.foldl upsertUtxoOutput s) := by
  rw [List.map_append,List.nodup_append] at hnodup
  obtain ⟨-,hmore,hdisjoint⟩ := hnodup
  unfold StoredOutputs
  rw [upsertUtxoOutputs_eq hmore fun c hc o ho => hdisjoint _
    (h.keys ▸ List.mem_map_of_mem ho) _ (List.mem_map_of_mem hc)]
  change s.utxoOutputs ++ more = _
  have huntaken : more.map (withSpend spends) = more := by
    rw [List.map_congr_left fun c hc => withSpend_untaken (hfresh c hc) (hunspent c hc),
      List.map_id']
  rw [h,List.map_append,huntaken]

theorem StoredOutputs.take (h : StoredOutputs creates spends s)
    (hnodup : (creates.map (·.outputKey)).Nodup)
    (hfirst : ∀ other ∈ spends, other.outputKey ≠ spend.outputKey) :
    StoredOutputs creates (spends ++ [spend]) (s.spendUtxoOutput spend) := by
  have hrows : (s.spendUtxoOutput spend).utxoOutputs = s.utxoOutputs.map (fun o =>
      if o.outputKey = spend.outputKey then spentCoreOutput o spend else o) :=
    update_eq_map (h.keys ▸ hnodup)
  unfold StoredOutputs
  rw [hrows,h,List.map_map]
  refine List.map_congr_left fun c _ => ?_
  simp only [Function.comp_apply]
  by_cases hkey : c.outputKey = spend.outputKey
  · rw [withSpend_key,if_pos hkey]
    exact (withSpend_taken hkey.symm (hkey ▸ hfirst)).symm
  · rw [withSpend_key,if_neg hkey]
    refine (withSpend_append_of_ne fun other hother => ?_).symm
    rw [List.mem_singleton.mp hother]
    exact Ne.symm hkey

theorem possibly_spendsStored (h : StoredOutputs creates done s)
    (hcreates : (creates.map (·.outputKey)).Nodup)
    (hspends : ((done ++ spends).map (·.outputKey)).Nodup) :
    Possibly (applyBatchUtxoSpends spends)
      (fun _ t => StoredOutputs creates (done ++ spends) t) s := by
  induction spends generalizing done s with
  | nil =>
    rw [List.append_nil]
    exact wp_pure h
  | cons spend spends ih =>
    have hfirst : ∀ other ∈ done, other.outputKey ≠ spend.outputKey := by
      intro other hother
      rw [List.map_append,List.nodup_append] at hspends
      exact hspends.2.2 _ (List.mem_map_of_mem hother) _ (List.mem_map_of_mem List.mem_cons_self)
    rw [List.append_cons] at hspends ⊢
    refine wp_bind (wp_bind (wp_bind (wp_look (wp_ofExcept (fun _ _ => wp_assign ?_)
      (fun _ _ => trivial)))))
    exact ih (h.take hcreates hfirst) hspends

theorem fresh_of_valid (hv : ValidBlocks .empty (blocks ++ [block]) M) :
    ∀ c ∈ blockCreates block, ∀ spend ∈ blocks.flatMap blockSpends,
      spend.outputKey ≠ c.outputKey := by
  intro c hc spend hspend heq
  obtain ⟨N,hN,hblock⟩ := hv.append
  have hmem : spend.outputKey ∈ N.created.map (·.outputKey) := by
    refine N.spent_created _ ?_
    rw [hN.spent]
    exact List.mem_append_right _ (List.mem_map_of_mem hspend)
  have hnodup := hblock.create_keys_nodup
  rw [List.flatMap_singleton,List.nodup_append] at hnodup
  exact hnodup.2.2 _ hmem _ (List.mem_map_of_mem hc) heq

theorem possibly_blockStored
    (h : StoredOutputs (blocks.flatMap blockCreates) (blocks.flatMap blockSpends) s)
    (hv : ValidBlocks .empty (blocks ++ [block]) M) :
    Possibly (applyInMemoryCoreApplication createdOutputs currentOutputs
        (coreBlockApplication block))
      (fun _ t => StoredOutputs ((blocks ++ [block]).flatMap blockCreates)
        ((blocks ++ [block]).flatMap blockSpends) t) s := by
  have hcreates := (List.nodup_append.mp hv.create_keys_nodup).2.1
  have hspends := (List.nodup_append.mp hv.spend_keys_nodup).2.1
  rw [List.flatMap_append,List.flatMap_singleton] at hcreates hspends ⊢
  rw [List.flatMap_append,List.flatMap_singleton]
  refine wp_bind (wp_assign (wp_bind (wp_mono (possibly_spendsStored (h.create hcreates
    (fun c hc => blockCreates_unspent hc) (fresh_of_valid hv)) hcreates hspends) ?_
    (fun _ _ h => h) (fun _ h => h))))
  intro _ t ht
  refine wp_bind (wp_mono (possibly_movements _ _ t) ?_ (fun _ _ h => h) (fun _ h => h))
  intro _ u hsame
  refine wp_bind (wp_assign (wp_assign ?_))
  obtain ⟨hfacts,-⟩ := foldl_upsertFacts (coreApplicationTransactionFacts createdOutputs
    currentOutputs (coreBlockApplication block)) u
  obtain ⟨happlied,-⟩ := appendAppliedBlock_rows ⟨block.height,block.hash⟩
    ((coreApplicationTransactionFacts createdOutputs currentOutputs
      (coreBlockApplication block)).foldl upsertAnalyticsTransactionFact u)
  exact happlied.trans (hfacts.trans (hsame.utxos.trans ht))

theorem possibly_blocksStored
    (h : StoredOutputs (blocks.flatMap blockCreates) (blocks.flatMap blockSpends) s)
    (hv : ValidBlocks .empty (blocks ++ window) M) :
    Possibly (forEach (window.map coreBlockApplication)
        (applyInMemoryCoreApplication createdOutputs currentOutputs))
      (fun _ t => StoredOutputs ((blocks ++ window).flatMap blockCreates)
        ((blocks ++ window).flatMap blockSpends) t) s := by
  induction window generalizing blocks s with
  | nil =>
    rw [List.append_nil]
    exact wp_pure h
  | cons block window ih =>
    rw [List.append_cons] at hv ⊢
    obtain ⟨N,hN,-⟩ := hv.append
    exact wp_bind (wp_mono (possibly_blockStored h hN) (fun _ _ ht => ih ht hv) (fun _ _ h => h)
      (fun _ h => h))

end Outputs

section Chain
variable {L : CoinLedger} {chain blocks window : List ParsedDogecoinBlock}
variable {createdOutputs currentOutputs : OutputMap}

/-- The movements of some blocks of a chain, every spend resolved by the chain. -/
def chainRows (chain blocks : List ParsedDogecoinBlock) : List AddressMovement :=
  (blocks.map coreBlockApplication).flatMap (coreApplicationAddressMovements
    (coreCreatedOutputsByKey (chain.map coreBlockApplication)) .empty)

theorem chainRows_append (chain blocks window : List ParsedDogecoinBlock) :
    chainRows chain (blocks ++ window) = chainRows chain blocks ++ chainRows chain window := by
  unfold chainRows
  rw [List.map_append,List.flatMap_append]

theorem creditIds_sublist (outputs : List ProjectionUtxoOutput) :
    ((outputs.flatMap coreCreateAddressMovement).map (·.movementId)).Sublist
      ((outputs.map (·.outputKey)).map creditId) := by
  induction outputs with
  | nil => exact List.nil_sublist _
  | cons o outputs ih =>
    rw [List.flatMap_cons,coreCreateAddressMovement]
    split
    · exact ih.cons_cons _
    · exact ih.cons _

theorem debitIds_sublist (application : CoreDogecoinBlockApplication)
    (spends : List CoreDogecoinSpend) :
    ((spends.flatMap (coreSpendAddressMovement application createdOutputs currentOutputs)).map
      (·.movementId)).Sublist (spends.map
        (fun spend => debitId spend.outputKey spend.spentByTxid spend.spentInputIndex)) := by
  induction spends with
  | nil => exact List.nil_sublist _
  | cons spend spends ih =>
    rw [List.flatMap_cons,coreSpendAddressMovement]
    split
    · exact ih.cons _
    · split
      · exact ih.cons_cons _
      · exact ih.cons _

theorem blockDebitIds_sublist (blocks : List ParsedDogecoinBlock) :
    ((blocks.flatMap (fun block => (blockSpends block).flatMap (coreSpendAddressMovement
      (coreBlockApplication block) createdOutputs currentOutputs))).map (·.movementId)).Sublist
      ((blocks.flatMap blockSpends).map
        (fun spend => debitId spend.outputKey spend.spentByTxid spend.spentInputIndex)) := by
  induction blocks with
  | nil => exact List.nil_sublist _
  | cons block blocks ih =>
    rw [List.flatMap_cons,List.flatMap_cons,List.map_append,List.map_append]
    exact (debitIds_sublist _ _).append ih

theorem chainRows_ids_nodup (hv : ValidBlocks .empty chain L)
    (hplain : ∀ c ∈ L.created, c.outputKey.Plain) :
    ((chainRows chain chain).map (·.movementId)).Nodup := by
  have hcreated : L.created = chain.flatMap blockCreates := hv.created
  have hspent : L.spent = (chain.flatMap blockSpends).map (·.outputKey) := hv.spent
  have hplainKeys : ∀ k ∈ L.created.map (·.outputKey), k.Plain := by
    intro k hk
    obtain ⟨c,hc,rfl⟩ := List.mem_map.mp hk
    exact hplain c hc
  have hplainSpent : ∀ spend ∈ chain.flatMap blockSpends, spend.outputKey.Plain := by
    intro spend hspend
    exact hplainKeys _ (L.spent_created _ (hspent ▸ List.mem_map_of_mem hspend))
  have hcredits : ((chain.flatMap (fun block => (blockCreates block).flatMap
      coreCreateAddressMovement)).map (·.movementId)).Nodup := by
    rw [← List.flatMap_assoc,← hcreated]
    refine List.Nodup.sublist (creditIds_sublist _) (L.created_nodup.map_on ?_)
    exact fun k hk k' hk' heq => creditId_injective (hplainKeys k hk) (hplainKeys k' hk') heq
  have hdebits : ((chain.flatMap (fun block => (blockSpends block).flatMap
      (coreSpendAddressMovement (coreBlockApplication block)
        (coreCreatedOutputsByKey (chain.map coreBlockApplication)) .empty))).map
          (·.movementId)).Nodup := by
    refine List.Nodup.sublist (blockDebitIds_sublist _) ?_
    have hkeys : ((chain.flatMap blockSpends).map (·.outputKey)).Nodup := hspent ▸ L.spent_nodup
    refine (List.Nodup.of_map _ hkeys).map_on fun spend hspend spend' hspend' heq => ?_
    exact List.inj_on_of_nodup_map hkeys hspend hspend'
      (debitId_injective (hplainSpent _ hspend) (hplainSpent _ hspend') heq)
  have hperm : (chainRows chain chain).Perm
      (chain.flatMap (fun block => (blockCreates block).flatMap coreCreateAddressMovement) ++
        chain.flatMap (fun block => (blockSpends block).flatMap (coreSpendAddressMovement
          (coreBlockApplication block)
            (coreCreatedOutputsByKey (chain.map coreBlockApplication)) .empty))) := by
    unfold chainRows
    rw [List.flatMap_map]
    exact (List.flatMap_append_perm chain _ _).symm
  refine ((hperm.map _).nodup_iff).mpr ?_
  rw [List.map_append,List.nodup_append]
  refine ⟨hcredits,hdebits,fun id hid id' hid' heq => ?_⟩
  -- a credit never has the id of a debit
  rw [← List.flatMap_assoc] at hid
  obtain ⟨k,-,rfl⟩ := List.mem_map.mp ((creditIds_sublist _).subset hid)
  obtain ⟨spend,-,rfl⟩ := List.mem_map.mp ((blockDebitIds_sublist _).subset hid')
  exact creditId_ne_debitId _ _ _ _ heq

theorem coreSpentOutput_chain (hv : ValidBlocks .empty chain L) {spend : CoreDogecoinSpend}
    (hspend : spend ∈ chain.flatMap blockSpends) :
    coreSpentOutput (coreCreatedOutputsByKey (chain.map coreBlockApplication)) .empty spend =
      L.find spend.outputKey := by
  rw [coreSpentOutput_backfill hv (fun _ hb => hb),if_pos]
  have hcreated : L.created = chain.flatMap blockCreates := hv.created
  have hspent : L.spent = (chain.flatMap blockSpends).map (·.outputKey) := hv.spent
  rw [← hcreated]
  exact L.spent_created _ (hspent ▸ List.mem_map_of_mem hspend)

/-- A window that finds the outputs of the chain, spent or not, writes the movements of the
chain. -/
theorem windowRows_eq (hv : ValidBlocks .empty chain L) (hsub : ∀ b ∈ window, b ∈ chain)
    (hfound : ∀ spend ∈ window.flatMap blockSpends, ∃ o,
      coreSpentOutput createdOutputs currentOutputs spend = some o ∧
        L.find spend.outputKey = some (bare o)) :
    (window.map coreBlockApplication).flatMap
        (coreApplicationAddressMovements createdOutputs currentOutputs) =
      chainRows chain window := by
  unfold chainRows
  rw [List.flatMap_map,List.flatMap_map]
  refine List.flatMap_congr fun block hb => ?_
  unfold coreApplicationAddressMovements
  congr 1
  refine List.flatMap_congr fun spend hspend => ?_
  obtain ⟨o,ho,hfind⟩ := hfound spend (List.mem_flatMap.mpr ⟨block,hb,hspend⟩)
  have hchain := coreSpentOutput_chain hv (List.mem_flatMap.mpr ⟨block,hsub block hb,hspend⟩)
  unfold coreSpendAddressMovement
  rw [ho,hchain,hfind]
  rfl

end Chain

section Windows
variable {L M N : CoinLedger} {chain blocks window rest : List ParsedDogecoinBlock}
variable {next : Nat} {s : WarehouseState}

theorem afterWindows_induction {H : List ParsedDogecoinBlock → WarehouseState → Prop}
    (hv : ValidBlocks .empty chain L) (hplain : ∀ c ∈ L.created, c.outputKey.Plain)
    (hstep : ∀ blocks window rest M N next s, chain = blocks ++ (window ++ rest) →
      ValidBlocks .empty blocks M → ValidBlocks .empty (blocks ++ window) N →
      ValidBlocks N rest L → Holds M next s → (∀ block ∈ window.head?, block.height = next) →
      H blocks s → Possibly (applyCoreDogecoinWindow (window.map coreBlockApplication))
        (fun _ t => H (blocks ++ window) t) s)
    {windows : List (List ParsedDogecoinBlock)} (hchain : chain = blocks ++ windows.flatten)
    (hbase : ValidBlocks .empty blocks M) (h : Holds M next s) (hs : H blocks s)
    (hhead : ∀ block ∈ windows.flatten.head?, block.height = next) :
    Completes windows s ∧ (∃ last, Holds L last (afterWindows windows s)) ∧
      H chain (afterWindows windows s) := by
  induction windows generalizing blocks M next s with
  | nil =>
    rw [List.flatten_nil,List.append_nil] at hchain
    subst hchain
    have heq : some M = some L := hbase.replay.symm.trans hv.replay
    cases heq
    exact ⟨trivial,⟨next,h⟩,hs⟩
  | cons window windows ih =>
    rw [List.flatten_cons] at hchain hhead
    have hlinked := ((hchain ▸ hv).suffix hbase).linked
    have hfirst : ∀ block ∈ window.head?, block.height = next := by
      intro block hblock
      refine hhead block ?_
      cases window with
      | nil => cases hblock
      | cons first rest => exact hblock
    have hsplit := hv
    rw [hchain,← List.append_assoc] at hsplit
    obtain ⟨N,hN,hrest⟩ := hsplit.append
    have hplainN : ∀ c ∈ N.created, c.outputKey.Plain := by
      intro c hc
      refine hplain c ?_
      rw [hrest.created]
      exact List.mem_append_left _ hc
    obtain ⟨result,hrun,hholds⟩ := run_of_surely (surely_window h hbase hN hfirst hplainN)
    have hkept := value_of_wp (hstep blocks window windows.flatten M N next s hchain hbase hN hrest
      h hfirst hs) hrun
    obtain ⟨hcompletes,hlast,hfinal⟩ := ih (hchain.trans (List.append_assoc ..).symm) hN hholds
      hkept (head_append_next hlinked hhead)
    exact ⟨⟨⟨result,hrun⟩,hcompletes⟩,hlast,hfinal⟩

theorem possibly_windowOutputs (hbase : ValidBlocks .empty blocks M)
    (hN : ValidBlocks .empty (blocks ++ window) N) (h : Holds M next s)
    (hhead : ∀ block ∈ window.head?, block.height = next)
    (hs : StoredOutputs (blocks.flatMap blockCreates) (blocks.flatMap blockSpends) s) :
    Possibly (applyCoreDogecoinWindow (window.map coreBlockApplication))
      (fun _ t => StoredOutputs ((blocks ++ window).flatMap blockCreates)
        ((blocks ++ window).flatMap blockSpends) t) s := by
  have hheights : ∀ a ∈ window.map coreBlockApplication, next ≤ a.blockHeight := by
    intro a ha
    obtain ⟨block,hblock,rfl⟩ := List.mem_map.mp ha
    exact le_of_linked (hN.suffix hbase).linked hhead hblock
  have hnil (hnone : window.map coreBlockApplication = []) :
      StoredOutputs ((blocks ++ window).flatMap blockCreates)
        ((blocks ++ window).flatMap blockSpends) s := by
    obtain rfl : window = [] := List.map_eq_nil_iff.mp hnone
    rwa [List.append_nil]
  refine wp_ite (fun hnone => wp_pure (hnil hnone)) (fun _ => ?_)
  refine wp_bind (wp_look (wp_bind (wp_assign ?_)))
  rw [pending_next h hheights]
  refine wp_ite (fun hnone => wp_pure (hnil hnone)) (fun _ => wp_bind (wp_look (wp_bind ?_)))
  exact wp_mono (possibly_blocksStored hs hN) (fun _ _ ht => wp_pure ht) (fun _ _ h => h)
    (fun _ h => h)

theorem possibly_windowStored (hv : ValidBlocks .empty chain L)
    (hplain : ∀ c ∈ L.created, c.outputKey.Plain) (hchain : chain = blocks ++ (window ++ rest))
    (hbase : ValidBlocks .empty blocks M) (hN : ValidBlocks .empty (blocks ++ window) N)
    (hrest : ValidBlocks N rest L) (h : Holds M next s)
    (hhead : ∀ block ∈ window.head?, block.height = next)
    (hs : s.addressMovements = chainRows chain blocks) :
    Possibly (applyCoreDogecoinWindow (window.map coreBlockApplication))
      (fun _ t => t.addressMovements = chainRows chain (blocks ++ window)) s := by
  have hheights : ∀ a ∈ window.map coreBlockApplication, next ≤ a.blockHeight := by
    intro a ha
    obtain ⟨block,hblock,rfl⟩ := List.mem_map.mp ha
    exact le_of_linked (hN.suffix hbase).linked hhead hblock
  have hnil (hnone : window.map coreBlockApplication = []) :
      s.addressMovements = chainRows chain (blocks ++ window) := by
    obtain rfl : window = [] := List.map_eq_nil_iff.mp hnone
    rwa [List.append_nil]
  have hrows := @windowRows_eq _ _ window (coreCreatedOutputsByKey (window.map
    coreBlockApplication)) (s.getUtxoOutputs (externalCoreSpendKeys (window.map
      coreBlockApplication))) hv (fun b hb => by rw [hchain]; simp [hb]) fun spend hspend => by
    obtain ⟨o,ho,hfind⟩ := window_found h.outputs hbase hN hspend
    exact ⟨o,ho,hrest.find_mono hfind⟩
  have hsplit : chainRows chain chain =
      chainRows chain (blocks ++ window) ++ chainRows chain rest := by
    rw [← chainRows_append,List.append_assoc,← hchain]
  have hids := chainRows_ids_nodup hv hplain
  rw [hsplit,List.map_append] at hids
  refine wp_ite (fun hnone => wp_pure (hnil hnone)) (fun _ => ?_)
  refine wp_bind (wp_look (wp_bind (wp_assign ?_)))
  rw [pending_next h hheights]
  refine wp_ite (fun hnone => wp_pure (hnil hnone)) (fun _ => wp_bind (wp_look (wp_bind ?_)))
  refine wp_mono (possibly_applicationsStored ?_) (fun _ t ht => wp_pure ?_) (fun _ _ h => h)
    (fun _ h => h)
  · rw [hrows,hs,← chainRows_append]
    exact (List.nodup_append.mp hids).1
  · rw [ht,hrows,hs,chainRows_append]

end Windows
end OnlyDoge.InMemory
