import OnlyDoge.Warehouse.InMemory
import OnlyDoge.Warehouse.MutationLedger
import OnlyDoge.Library.Precondition
set_option autoImplicit false

/-! What a rewind gives back, whatever was written above its height. -/

namespace OnlyDoge.InMemory
open Rows Job WarehouseState

/-- The recovered fields, before the balances are rebuilt from the outputs. -/
structure SameBelow (s t : WarehouseState) : Prop where
  utxos : t.utxoOutputs = s.utxoOutputs
  movements : t.addressMovements = s.addressMovements
  facts : t.transactionFacts = s.transactionFacts
  applied : t.appliedBlocks = s.appliedBlocks

theorem rewind_rewind_output {from_ height : Nat} (h : height ≤ from_)
    (output : ProjectionUtxoOutput) :
    (rewindInMemoryUtxoOutput from_ output).flatMap (rewindInMemoryUtxoOutput height) =
      rewindInMemoryUtxoOutput height output := by
  by_cases hcreated : from_ ≤ output.blockHeight
  · have hlow : height ≤ output.blockHeight := h.trans hcreated
    simp [rewindInMemoryUtxoOutput,hcreated,hlow]
  · cases hspent : output.spentBy with
    | none => simp [rewindInMemoryUtxoOutput,hcreated,hspent]
    | some spent =>
      by_cases hat : from_ ≤ spent.spentInBlock
      · have hlow : height ≤ spent.spentInBlock := h.trans hat
        simp [rewindInMemoryUtxoOutput,hcreated,hspent,hat,hlow]
      · simp [rewindInMemoryUtxoOutput,hcreated,hspent,hat]

theorem filter_below_filter {ρ : Type} (rows : List ρ) (height : ρ → Nat) {from_ low : Nat}
    (h : low ≤ from_) :
    (rows.filter (fun r => height r < from_)).filter (fun r => height r < low) =
      rows.filter (fun r => height r < low) := by
  rw [List.filter_filter]
  refine List.filter_congr (fun r _ => ?_)
  by_cases hlow : height r < low
  · have := Nat.lt_of_lt_of_le hlow h
    simp [hlow,this]
  · simp [hlow]

theorem rewind_rewind {from_ height : Nat} (h : height ≤ from_) (s : WarehouseState) :
    SameBelow (s.rewindInMemoryCoreTail height)
      ((s.rewindInMemoryCoreTail from_).rewindInMemoryCoreTail height) := by
  constructor
  · simp only [rewindInMemoryCoreTail,rebuildBalancesFromCurrentUtxos,List.flatMap_assoc,
      rewind_rewind_output h]
  · exact filter_below_filter _ _ h
  · exact filter_below_filter _ _ h
  · exact filter_below_filter _ _ h

/-- Every transaction fact belongs to an output of its block. -/
structure FactsKeyed (s : WarehouseState) : Prop where
  nodup : (s.utxoOutputs.map (·.outputKey)).Nodup
  output : ∀ fact ∈ s.transactionFacts, ∃ o ∈ s.utxoOutputs,
    o.outputKey = ⟨fact.txid,0⟩ ∧ o.blockHeight = fact.blockHeight

/-- `t` differs from `s` by what a rewind to the height undoes. -/
structure Above (height : Nat) (s t : WarehouseState) : Prop where
  below : SameBelow s (t.rewindInMemoryCoreTail height)
  keyed : FactsKeyed t

variable {height : Nat} {s t : WarehouseState}

theorem rewind_output_key {from_ : Nat} {o o' : ProjectionUtxoOutput}
    (h : o' ∈ rewindInMemoryUtxoOutput from_ o) :
    o'.outputKey = o.outputKey ∧ o'.blockHeight = o.blockHeight := by
  unfold rewindInMemoryUtxoOutput at h
  split at h
  · cases h
  · split at h
    · cases List.mem_singleton.mp h
      exact ⟨rfl,rfl⟩
    · cases List.mem_singleton.mp h
      exact ⟨rfl,rfl⟩

theorem rewind_keys_sublist (from_ : Nat) (outputs : List ProjectionUtxoOutput) :
    ((outputs.flatMap (rewindInMemoryUtxoOutput from_)).map (·.outputKey)).Sublist
      (outputs.map (·.outputKey)) := by
  induction outputs with
  | nil => simp
  | cons o outputs ih =>
    rw [List.flatMap_cons,List.map_append,List.map_cons]
    unfold rewindInMemoryUtxoOutput
    split
    · exact ih.cons _
    · split
      · exact ih.cons_cons _
      · exact ih.cons_cons _

theorem FactsKeyed.rewind (h : FactsKeyed t) (from_ : Nat) :
    FactsKeyed (t.rewindInMemoryCoreTail from_) := by
  constructor
  · exact h.nodup.sublist (rewind_keys_sublist from_ _)
  · intro fact hfact
    obtain ⟨hfact,hlow⟩ := List.mem_filter.mp hfact
    obtain ⟨o,ho,hkey,hheight⟩ := h.output fact hfact
    have hnot : ¬from_ ≤ o.blockHeight := by
      have : fact.blockHeight < from_ := by simpa using hlow
      omega
    obtain ⟨o',ho'⟩ : ∃ o', o' ∈ rewindInMemoryUtxoOutput from_ o := by
      unfold rewindInMemoryUtxoOutput
      rw [if_neg hnot]
      split
      · exact ⟨_,List.mem_singleton_self _⟩
      · exact ⟨_,List.mem_singleton_self _⟩
    obtain ⟨hkey',hheight'⟩ := rewind_output_key ho'
    exact ⟨o',List.mem_flatMap.mpr ⟨o,ho,ho'⟩,hkey'.trans hkey,hheight'.trans hheight⟩

theorem Above.rewind (h : Above height s t) {from_ : Nat} (hle : height ≤ from_) :
    Above height s (t.rewindInMemoryCoreTail from_) := by
  have htwice := rewind_rewind hle t
  exact ⟨⟨htwice.utxos.trans h.below.utxos,htwice.movements.trans h.below.movements,
    htwice.facts.trans h.below.facts,htwice.applied.trans h.below.applied⟩,h.keyed.rewind from_⟩

/-- What a block must not write: an output key that is there, or a second spend of an output. -/
structure Admits (t : WarehouseState) (creates : List ProjectionUtxoOutput)
    (spends : List CoreDogecoinSpend) : Prop where
  created : (creates.map (·.outputKey)).Nodup
  fresh : ∀ c ∈ creates, ∀ o ∈ t.utxoOutputs, o.outputKey ≠ c.outputKey
  spent : (spends.map (·.outputKey)).Nodup
  unspent : ∀ spend ∈ spends, ∀ o ∈ t.utxoOutputs, o.outputKey = spend.outputKey →
    o.spentBy = none

theorem upsertUtxoOutputs_eq {creates : List ProjectionUtxoOutput}
    (hnodup : (creates.map (·.outputKey)).Nodup)
    (hfresh : ∀ c ∈ creates, ∀ o ∈ t.utxoOutputs, o.outputKey ≠ c.outputKey) :
    creates.foldl upsertUtxoOutput t =
      { t with utxoOutputs := t.utxoOutputs ++ creates } := by
  induction creates generalizing t with
  | nil => simp
  | cons c creates ih =>
    obtain ⟨hc,hrest⟩ := List.nodup_cons.mp hnodup
    have hstep : t.upsertUtxoOutput c = { t with utxoOutputs := t.utxoOutputs ++ [c] } := by
      unfold upsertUtxoOutput
      rw [upsert_new (fun o ho => by simpa using hfresh c List.mem_cons_self o ho)]
    rw [List.foldl_cons,hstep,ih hrest]
    · simp
    · intro d hd o ho
      rcases List.mem_append.mp ho with ho | ho
      · exact hfresh d (List.mem_cons_of_mem _ hd) o ho
      · rw [List.mem_singleton.mp ho]
        exact fun heq => hc (List.mem_map.mpr ⟨d,hd,heq.symm⟩)

theorem rewind_creates {creates : List ProjectionUtxoOutput}
    (h : ∀ c ∈ creates, height ≤ c.blockHeight) :
    creates.flatMap (rewindInMemoryUtxoOutput height) = [] := by
  rw [List.flatMap_eq_nil_iff]
  intro c hc
  exact if_pos (h c hc)

theorem Above.addOutputs (h : Above height s t) {creates : List ProjectionUtxoOutput}
    (hheight : ∀ c ∈ creates, height ≤ c.blockHeight)
    (hnodup : (creates.map (·.outputKey)).Nodup)
    (hfresh : ∀ c ∈ creates, ∀ o ∈ t.utxoOutputs, o.outputKey ≠ c.outputKey) :
    Above height s { t with utxoOutputs := t.utxoOutputs ++ creates } := by
  refine ⟨⟨?_,h.below.movements,h.below.facts,h.below.applied⟩,?_,?_⟩
  · have hutxos := h.below.utxos
    simp only [rewindInMemoryCoreTail,rebuildBalancesFromCurrentUtxos] at hutxos ⊢
    rw [List.flatMap_append,rewind_creates hheight,List.append_nil,hutxos]
  · rw [List.map_append,List.nodup_append]
    refine ⟨h.keyed.nodup,hnodup,?_⟩
    rintro k hk k' hk' rfl
    obtain ⟨o,ho,rfl⟩ := List.mem_map.mp hk
    obtain ⟨c,hc,heq⟩ := List.mem_map.mp hk'
    exact hfresh c hc o ho heq.symm
  · intro fact hfact
    obtain ⟨o,ho,hkey⟩ := h.keyed.output fact hfact
    exact ⟨o,List.mem_append_left _ ho,hkey⟩

theorem rewind_spent {spend : CoreDogecoinSpend} {o : ProjectionUtxoOutput}
    (hheight : height ≤ spend.spentInBlock) (ho : o.spentBy = none) :
    rewindInMemoryUtxoOutput height (spentCoreOutput o spend) =
      rewindInMemoryUtxoOutput height o := by
  unfold rewindInMemoryUtxoOutput spentCoreOutput
  simp only [Option.any_some,decide_eq_true hheight,if_true]
  rw [ho]
  cases o
  simp_all

theorem spendUtxoOutput_keys (spend : CoreDogecoinSpend) (t : WarehouseState) :
    (t.spendUtxoOutput spend).utxoOutputs.map (fun o => (o.outputKey,o.blockHeight)) =
      t.utxoOutputs.map (fun o => (o.outputKey,o.blockHeight)) :=
  map_update (fun _ _ _ => rfl)

theorem Above.spendOutput (h : Above height s t) {spend : CoreDogecoinSpend}
    (hheight : height ≤ spend.spentInBlock)
    (hunspent : ∀ o ∈ t.utxoOutputs, o.outputKey = spend.outputKey → o.spentBy = none) :
    Above height s (t.spendUtxoOutput spend) := by
  have hkeys := spendUtxoOutput_keys spend t
  refine ⟨⟨?_,h.below.movements,h.below.facts,h.below.applied⟩,?_,?_⟩
  · have hutxos := h.below.utxos
    simp only [rewindInMemoryCoreTail,rebuildBalancesFromCurrentUtxos,spendUtxoOutput]
      at hutxos ⊢
    rw [flatMap_update,hutxos]
    intro o ho hkey
    exact rewind_spent hheight (hunspent o ho (by simpa using hkey))
  · have hfst := congrArg (List.map Prod.fst) hkeys
    simp only [List.map_map,Function.comp_def] at hfst
    rw [hfst]
    exact h.keyed.nodup
  · intro fact hfact
    obtain ⟨o,ho,hkey,hblock⟩ := h.keyed.output fact hfact
    have hmem : (o.outputKey,o.blockHeight) ∈
        (t.spendUtxoOutput spend).utxoOutputs.map (fun o => (o.outputKey,o.blockHeight)) := by
      rw [hkeys]
      exact List.mem_map_of_mem ho
    obtain ⟨o',ho',heq⟩ := List.mem_map.mp hmem
    obtain ⟨hk,hb⟩ := Prod.mk.inj heq
    exact ⟨o',ho',hk.trans hkey,hb.trans hblock⟩

theorem filter_append_above {ρ : Type} {rows : List ρ} {heightOf : ρ → Nat} {row : ρ}
    (h : height ≤ heightOf row) :
    (rows ++ [row]).filter (fun r => heightOf r < height) =
      rows.filter (fun r => heightOf r < height) := by
  have hnot : ¬heightOf row < height := by omega
  simp [List.filter_append,hnot]

theorem Above.addMovement (h : Above height s t) {movement : AddressMovement}
    (hheight : height ≤ movement.blockHeight) :
    Above height s (t.appendAddressMovement movement) := by
  refine ⟨⟨h.below.utxos,?_,h.below.facts,h.below.applied⟩,h.keyed.nodup,h.keyed.output⟩
  exact (filter_append_above hheight).trans h.below.movements

theorem Above.setBalances (h : Above height s t) {t' : WarehouseState}
    (hutxos : t'.utxoOutputs = t.utxoOutputs)
    (hmovements : t'.addressMovements = t.addressMovements)
    (hfacts : t'.transactionFacts = t.transactionFacts)
    (happlied : t'.appliedBlocks = t.appliedBlocks) : Above height s t' := by
  obtain ⟨⟨hu,hm,hf,ha⟩,hnodup,hkeyed⟩ := h
  simp only [rewindInMemoryCoreTail,rebuildBalancesFromCurrentUtxos] at hu hm hf ha
  refine ⟨⟨?_,?_,?_,?_⟩,?_,?_⟩
  · simpa only [rewindInMemoryCoreTail,rebuildBalancesFromCurrentUtxos,hutxos] using hu
  · simpa only [rewindInMemoryCoreTail,rebuildBalancesFromCurrentUtxos,hmovements] using hm
  · simpa only [rewindInMemoryCoreTail,rebuildBalancesFromCurrentUtxos,hfacts] using hf
  · simpa only [rewindInMemoryCoreTail,rebuildBalancesFromCurrentUtxos,happlied] using ha
  · rwa [hutxos]
  · rwa [hutxos,hfacts]

theorem Above.writeBalance (h : Above height s t) (movement : AddressMovement)
    (blockHeight : Nat) (nextAmount : Int) :
    Above height s (t.writeBalanceSnapshot movement blockHeight nextAmount) := by
  unfold writeBalanceSnapshot
  cases t.findBalanceSnapshot movement with
  | none => exact h.setBalances rfl rfl rfl rfl
  | some row => exact h.setBalances rfl rfl rfl rfl

/-- A fact replaces only a fact of its own transaction, which stands at the same height. -/
theorem Above.addFact (h : Above height s t) {fact : AnalyticsTransactionFact}
    (hheight : height ≤ fact.blockHeight)
    (houtput : ∃ o ∈ t.utxoOutputs, o.outputKey = ⟨fact.txid,0⟩ ∧
      o.blockHeight = fact.blockHeight) :
    Above height s (t.upsertAnalyticsTransactionFact fact) := by
  have hsame : ∀ old ∈ t.transactionFacts, old.txid = fact.txid →
      old.blockHeight = fact.blockHeight := by
    intro old hold htxid
    obtain ⟨o,ho,hkey,hblock⟩ := houtput
    obtain ⟨o',ho',hkey',hblock'⟩ := h.keyed.output old hold
    have heq : o' = o := List.inj_on_of_nodup_map h.keyed.nodup ho' ho
      (by rw [hkey',hkey,htxid])
    rw [← hblock',heq,hblock]
  refine ⟨⟨h.below.utxos,h.below.movements,?_,h.below.applied⟩,h.keyed.nodup,?_⟩
  · refine Eq.trans ?_ h.below.facts
    simp only [rewindInMemoryCoreTail,rebuildBalancesFromCurrentUtxos,
      upsertAnalyticsTransactionFact]
    unfold upsert
    split
    · refine filter_update (fun old hold htxid => ?_) (fun old _ _ => ?_)
      · have := hsame old hold (by simpa using htxid)
        simp only [decide_eq_false_iff_not]
        omega
      · simp only [decide_eq_false_iff_not]
        omega
    · exact filter_append_above hheight
  · intro row hrow
    simp only [upsertAnalyticsTransactionFact] at hrow
    unfold upsert at hrow
    split at hrow
    · rcases mem_update hrow with hold | ⟨_,-,-,rfl⟩
      · exact h.keyed.output row hold
      · exact houtput
    · rcases List.mem_append.mp hrow with hold | hnew
      · exact h.keyed.output row hold
      · rw [List.mem_singleton.mp hnew]
        exact houtput

theorem Above.addAppliedBlock (h : Above height s t) {block : ProjectionAppliedBlock}
    (hheight : height ≤ block.blockHeight) : Above height s (t.appendAppliedBlock block) := by
  unfold appendAppliedBlock
  split
  · exact h
  · refine ⟨⟨h.below.utxos,h.below.movements,h.below.facts,?_⟩,h.keyed.nodup,h.keyed.output⟩
    exact (filter_append_above hheight).trans h.below.applied

end OnlyDoge.InMemory
