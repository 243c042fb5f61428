import OnlyDoge.Warehouse.InMemoryChain
set_option autoImplicit false

/-! Valid chains applied in memory, and the recovery of their states. -/

namespace OnlyDoge.InMemory
open Rows Job WarehouseState

/-- The state of a valid chain below the height `next`. -/
structure Holds (L : CoinLedger) (next : Nat) (s : WarehouseState) : Prop where
  outputs : OutputsOf L next s
  moves : MovesOf L next s
  facts : ∀ fact ∈ s.transactionFacts, fact.blockHeight < next
  applied : ∀ block ∈ s.appliedBlocks, block.blockHeight < next

theorem holds_empty : Holds .empty 0 emptyWarehouseState := by
  constructor
  · exact ⟨rfl,by simp [emptyWarehouseState],by simp [emptyWarehouseState],
      by simp [emptyWarehouseState]⟩
  · exact ⟨fun _ => rfl,by simp [emptyWarehouseState],by simp [emptyWarehouseState]⟩
  · simp [emptyWarehouseState]
  · simp [emptyWarehouseState]

section Block
variable {L L' : CoinLedger} {next : Nat} {s : WarehouseState} {block : ParsedDogecoinBlock}
variable {createdOutputs currentOutputs : OutputMap}

theorem surely_spends {spends : List CoreDogecoinSpend} (h : OutputsOf L next s)
    (hL : L.postAll? (spends.map (fun spend => .spend spend.outputKey)) = some L')
    (hheight : ∀ spend ∈ spends, spend.spentInBlock < next) :
    Surely (applyBatchUtxoSpends spends) (fun _ t => OutputsOf L' next t ∧
      t.addressMovements = s.addressMovements ∧ t.balances = s.balances ∧
      t.transactionFacts = s.transactionFacts ∧ t.appliedBlocks = s.appliedBlocks) s := by
  induction spends generalizing L s with
  | nil =>
    cases hL
    exact wp_pure ⟨h,rfl,rfl,rfl,rfl⟩
  | cons spend spends ih =>
    obtain ⟨M,hM,hrest⟩ := Option.bind_eq_some_iff.mp hL
    obtain ⟨hpresent,hM⟩ := h.spend hM (hheight spend List.mem_cons_self)
    refine wp_bind (wp_bind (wp_bind (wp_look (wp_ofExcept (fun _ _ => wp_assign ?_) ?_))))
    · exact ih hM hrest (fun other hother => hheight other (List.mem_cons_of_mem _ hother))
    · intro e he
      rw [hpresent] at he
      cases he

theorem mem_upsertFacts {facts : List AnalyticsTransactionFact} {t : WarehouseState}
    {fact : AnalyticsTransactionFact}
    (h : fact ∈ (facts.foldl upsertAnalyticsTransactionFact t).transactionFacts) :
    fact ∈ t.transactionFacts ∨ fact ∈ facts := by
  induction facts generalizing t with
  | nil => exact .inl h
  | cons row facts ih =>
    rcases ih h with hold | hnew
    · simp only [upsertAnalyticsTransactionFact] at hold
      unfold upsert at hold
      split at hold
      · rcases mem_update hold with hold | ⟨_,-,-,rfl⟩
        · exact .inl hold
        · exact .inr List.mem_cons_self
      · rcases List.mem_append.mp hold with hold | hnew
        · exact .inl hold
        · rw [List.mem_singleton.mp hnew]
          exact .inr List.mem_cons_self
    · exact .inr (List.mem_cons_of_mem _ hnew)

theorem foldl_upsertFacts (facts : List AnalyticsTransactionFact) (t : WarehouseState) :
    (facts.foldl upsertAnalyticsTransactionFact t).utxoOutputs = t.utxoOutputs ∧
      (facts.foldl upsertAnalyticsTransactionFact t).addressMovements = t.addressMovements ∧
      (facts.foldl upsertAnalyticsTransactionFact t).balances = t.balances ∧
      (facts.foldl upsertAnalyticsTransactionFact t).appliedBlocks = t.appliedBlocks := by
  induction facts generalizing t with
  | nil => exact ⟨rfl,rfl,rfl,rfl⟩
  | cons fact facts ih => exact ih (t.upsertAnalyticsTransactionFact fact)

theorem foldl_upsertOutputs (outputs : List ProjectionUtxoOutput) (t : WarehouseState) :
    (outputs.foldl upsertUtxoOutput t).addressMovements = t.addressMovements ∧
      (outputs.foldl upsertUtxoOutput t).balances = t.balances ∧
      (outputs.foldl upsertUtxoOutput t).transactionFacts = t.transactionFacts ∧
      (outputs.foldl upsertUtxoOutput t).appliedBlocks = t.appliedBlocks := by
  induction outputs generalizing t with
  | nil => exact ⟨rfl,rfl,rfl,rfl⟩
  | cons output outputs ih => exact ih (t.upsertUtxoOutput output)

theorem appendAppliedBlock_rows (block : ProjectionAppliedBlock) (t : WarehouseState) :
    (t.appendAppliedBlock block).utxoOutputs = t.utxoOutputs ∧
      (t.appendAppliedBlock block).addressMovements = t.addressMovements ∧
      (t.appendAppliedBlock block).balances = t.balances ∧
      (t.appendAppliedBlock block).transactionFacts = t.transactionFacts ∧
      ∀ row ∈ (t.appendAppliedBlock block).appliedBlocks, row ∈ t.appliedBlocks ∨ row = block := by
  unfold appendAppliedBlock
  split
  · exact ⟨rfl,rfl,rfl,rfl,fun row hrow => .inl hrow⟩
  · exact ⟨rfl,rfl,rfl,rfl,fun row hrow => by simpa using hrow⟩

theorem surely_application (h : Holds L block.height s)
    (hL : L.postAll? (blockEntries block) = some L')
    (hplain : ∀ c ∈ L'.created, c.outputKey.Plain)
    (hfound : ∀ spend ∈ blockSpends block, ∃ o,
      coreSpentOutput createdOutputs currentOutputs spend = some o ∧
        L'.find spend.outputKey = some (bare o)) :
    Surely (applyInMemoryCoreApplication createdOutputs currentOutputs
      (coreBlockApplication block)) (fun _ t => Holds L' (block.height + 1) t) s := by
  rw [blockEntries,Ledger.postAll?_append] at hL
  obtain ⟨M,hM,hL⟩ := Option.bind_eq_some_iff.mp hL
  have hspends := Ledger.postAll?_eq_some hL
  have hcreated : L'.created = M.created := by
    rw [hspends.1]
    simp [List.filterMap_map,Function.comp_def,Ledger.Entry.created?]
  have hle : block.height ≤ block.height + 1 := Nat.le_succ _
  have hcreateHeight : ∀ c ∈ blockCreates block, c.blockHeight < block.height + 1 := by
    intro c hc
    rw [blockCreates_height hc]
    exact Nat.lt_succ_self _
  obtain ⟨hm₁,hb₁,hf₁,ha₁⟩ := foldl_upsertOutputs (blockCreates block) s
  refine wp_bind (wp_assign ?_)
  refine wp_bind (wp_mono (surely_spends ((h.outputs.mono hle).create hM hcreateHeight
    (fun c hc => blockCreates_unspent hc)) hL (fun spend hspend => ?_)) ?_ (fun _ _ h => h)
    (fun _ h => h))
  · rw [blockSpends_height hspend]
    exact Nat.lt_succ_self _
  rintro _ t₁ ⟨houtputs,hm₂,hb₂,hf₂,ha₂⟩
  have hmoves : MovesOf L (block.height + 1) t₁ :=
    (h.moves.mono hle).of_rows (hm₂.trans hm₁) (hb₂.trans hb₁)
  refine wp_bind (wp_forEach_append (wp_mono (surely_credits hmoves hM (hcreated ▸ hplain)
    hcreateHeight) ?_ (fun _ _ h => h) (fun _ h => h)))
  rintro _ t₂ ⟨hmoves,hout₂⟩
  refine wp_mono (surely_debits hmoves hL (hcreated ▸ hplain) ?_ (Nat.lt_succ_self _)) ?_
    (fun _ _ h => h) (fun _ h => h)
  · intro spend hspend
    have hfind : M.find spend.outputKey = L'.find spend.outputKey := by
      unfold Ledger.find
      rw [hcreated]
    rw [hfind]
    exact hfound spend hspend
  rintro _ t₃ ⟨hmoves,hout₃⟩
  have hout := hout₂.trans hout₃
  refine wp_bind (wp_assign (wp_assign ?_))
  generalize hfacts : coreApplicationTransactionFacts createdOutputs currentOutputs
    (coreBlockApplication block) = facts
  obtain ⟨hu₄,hm₄,hb₄,ha₄⟩ := foldl_upsertFacts facts t₃
  obtain ⟨hu₅,hm₅,hb₅,hf₅,ha₅⟩ := appendAppliedBlock_rows ⟨block.height,block.hash⟩
    (facts.foldl upsertAnalyticsTransactionFact t₃)
  constructor
  · exact houtputs.of_utxos (hu₅.trans (hu₄.trans hout.utxos))
  · exact hmoves.of_rows (hm₅.trans hm₄) (hb₅.trans hb₄)
  · intro fact hfact
    have hsame : t₃.transactionFacts = s.transactionFacts := hout.facts.trans (hf₂.trans hf₁)
    rcases mem_upsertFacts ((congrArg (fact ∈ ·) hf₅).mp hfact) with hold | hnew
    · exact Nat.lt_succ_of_lt (h.facts fact (hsame ▸ hold))
    · rw [← hfacts] at hnew
      rw [(fact_output hnew).1]
      exact Nat.lt_succ_self _
  · intro row hrow
    have hsame : t₃.appliedBlocks = s.appliedBlocks := hout.applied.trans (ha₂.trans ha₁)
    rcases ha₅ row hrow with hold | rfl
    · exact Nat.lt_succ_of_lt (h.applied row (hsame ▸ ha₄ ▸ hold))
    · exact Nat.lt_succ_self _

end Block

theorem above_zero {s : WarehouseState} (h : FactsKeyed s) : Above 0 emptyWarehouseState s := by
  refine ⟨⟨?_,?_,?_,?_⟩,h⟩
  · exact List.flatMap_eq_nil_iff.mpr (fun o _ => if_pos (Nat.zero_le _))
  · exact List.filter_eq_nil_iff.mpr (fun _ _ => by simp)
  · exact List.filter_eq_nil_iff.mpr (fun _ _ => by simp)
  · exact List.filter_eq_nil_iff.mpr (fun _ _ => by simp)

section Windows
variable {L L' : CoinLedger} {next : Nat} {s : WarehouseState}
variable {blocks window : List ParsedDogecoinBlock} {createdOutputs currentOutputs : OutputMap}

theorem linked_heights (hlinked : window.IsChain Follows)
    (hhead : ∀ block ∈ window.head?, block.height = next) :
    window.map (·.height) = List.range' next window.length := by
  induction window generalizing next with
  | nil => rfl
  | cons block rest ih =>
    have hblock : block.height = next := hhead block rfl
    rw [List.map_cons,List.length_cons,List.range'_succ,hblock,ih (List.IsChain.tail hlinked)]
    intro second hsecond
    cases rest with
    | nil => cases hsecond
    | cons second' rest =>
      cases hsecond
      have hfollows := (List.isChain_cons_cons.mp hlinked).1
      rw [hfollows.1,hblock]

theorem le_of_linked (hlinked : window.IsChain Follows)
    (hhead : ∀ block ∈ window.head?, block.height = next) {block : ParsedDogecoinBlock}
    (hblock : block ∈ window) : next ≤ block.height := by
  have hmem : block.height ∈ window.map (·.height) := List.mem_map_of_mem hblock
  rw [linked_heights hlinked hhead] at hmem
  exact (List.mem_range'_1.mp hmem).1

theorem surely_blocks (h : Holds L next s) (hv : ValidBlocks L window L')
    (hhead : ∀ block ∈ window.head?, block.height = next)
    (hplain : ∀ c ∈ L'.created, c.outputKey.Plain)
    (hfound : ∀ spend ∈ window.flatMap blockSpends, ∃ o,
      coreSpentOutput createdOutputs currentOutputs spend = some o ∧
        L'.find spend.outputKey = some (bare o)) :
    Surely (forEach (window.map coreBlockApplication)
        (applyInMemoryCoreApplication createdOutputs currentOutputs))
      (fun _ t => Holds L' (next + window.length) t) s := by
  induction window generalizing L next s with
  | nil =>
    cases hv.replay
    exact wp_pure h
  | cons block rest ih =>
    obtain rfl : block.height = next := hhead block rfl
    have hsplit : ValidBlocks L ([block] ++ rest) L' := hv
    obtain ⟨M,hblock,hrest⟩ := hsplit.append
    have hpost : L.postAll? (blockEntries block) = some M := by
      simpa using hblock.replay
    have hcreated := hrest.created
    refine wp_bind (wp_mono (surely_application h hpost (fun c hc => hplain c (by
      rw [hcreated]
      exact List.mem_append_left _ hc)) ?_) ?_ (fun _ _ h => h) (fun _ h => h))
    · -- a spend takes what its block's ledger holds, and the window's ledger holds it still
      intro spend hspend
      obtain ⟨o,ho,hfind⟩ := hfound spend (List.mem_append_left _ hspend)
      refine ⟨o,ho,?_⟩
      have hmem : spend.outputKey ∈ M.created.map (·.outputKey) := by
        refine M.spent_created _ ?_
        rw [hblock.spent]
        exact List.mem_append_right _ (List.mem_map_of_mem (by simpa using hspend))
      cases hM : M.find spend.outputKey with
      | none => exact absurd hmem (Ledger.find_eq_none.mp hM)
      | some c => rw [← hfind,hrest.find_mono hM]
    · intro _ t ht
      have hnext : ∀ second ∈ rest.head?, second.height = block.height + 1 := by
        intro second hsecond
        cases rest with
        | nil => cases hsecond
        | cons second' rest =>
          cases hsecond
          exact (List.isChain_cons_cons.mp hv.linked).1.1
      refine wp_mono (ih ht hrest hnext
        (fun spend hspend => hfound spend (List.mem_append_right _ hspend))) ?_
        (fun _ _ h => h) (fun _ h => h)
      intro _ u hu
      rwa [List.length_cons,Nat.add_comm rest.length,← Nat.add_assoc]

theorem window_found (h : OutputsOf L next s) (hbase : ValidBlocks .empty blocks L)
    (hv : ValidBlocks .empty (blocks ++ window) L') {spend : CoreDogecoinSpend}
    (hspend : spend ∈ window.flatMap blockSpends) :
    ∃ o, coreSpentOutput (coreCreatedOutputsByKey (window.map coreBlockApplication))
        (s.getUtxoOutputs (externalCoreSpendKeys (window.map coreBlockApplication))) spend =
          some o ∧ L'.find spend.outputKey = some (bare o) := by
  have hsuffix := hv.suffix hbase
  have hmem : spend.outputKey ∈ L'.created.map (·.outputKey) := by
    refine L'.spent_created _ ?_
    rw [hsuffix.spent]
    exact List.mem_append_right _ (List.mem_map_of_mem hspend)
  unfold coreSpentOutput
  rw [coreCreatedOutputsByKey_get hv (fun b hb => List.mem_append_right _ hb)]
  by_cases hcreated : spend.outputKey ∈ (window.flatMap blockCreates).map (·.outputKey)
  · rw [if_pos hcreated]
    obtain ⟨c,hc,hkey⟩ := List.mem_map.mp hcreated
    obtain ⟨block,hblock,hc'⟩ := List.mem_flatMap.mp hc
    have hfind := hv.find_of_create (List.mem_flatMap.mpr
      ⟨block,List.mem_append_right _ hblock,hc'⟩)
    rw [hkey] at hfind
    rw [hfind]
    exact ⟨c,rfl,congrArg some (bare_of_unspent (blockCreates_unspent hc')).symm⟩
  · rw [if_neg hcreated,Option.none_or]
    rw [hsuffix.created,List.map_append,List.mem_append] at hmem
    have hold := hmem.resolve_right hcreated
    rw [← h.keys] at hold
    obtain ⟨o,ho,hkey⟩ := List.mem_map.mp hold
    refine ⟨o,?_,hsuffix.find_mono (Ledger.find_eq_some.mpr ⟨?_,hkey⟩)⟩
    · unfold getUtxoOutputs
      refine (OrderedMap.get_ofEntries ?_).mpr ?_
      · rw [List.map_map]
        exact h.nodup.sublist (List.filter_sublist.map _)
      · refine List.mem_map.mpr ⟨o,List.mem_filter.mpr ⟨ho,?_⟩,by rw [hkey]⟩
        unfold externalCoreSpendKeys
        rw [coreBlockApplication_creates,coreBlockApplication_spends]
        simp only [OrderedMap.mem_distinct,List.mem_filter,decide_eq_true_eq]
        rw [hkey]
        exact ⟨List.mem_map_of_mem hspend,hcreated⟩
    · rw [← h.created]
      exact List.mem_map_of_mem ho

theorem pending_next (h : Holds L next s) {input : List CoreDogecoinBlockApplication}
    (hinput : ∀ a ∈ input, next ≤ a.blockHeight) :
    s.pendingInMemoryCoreApplications input = (s,input) := by
  have hnone : input.find? s.conflicts = none := by
    rw [List.find?_eq_none]
    intro a ha
    have hfind : s.appliedBlocks.find? (·.blockHeight = a.blockHeight) = none := by
      rw [List.find?_eq_none]
      intro row hrow
      have := h.applied row hrow
      have := hinput a ha
      simp only [decide_eq_true_eq]
      omega
    simp [conflicts,hfind]
  have hpending : input.filter (fun a => !s.hasAppliedBlockRecord a.blockHeight a.blockHash) =
      input := by
    rw [List.filter_eq_self]
    intro a ha
    rw [Bool.not_eq_true',hasAppliedBlockRecord,List.any_eq_false]
    intro row hrow
    have := h.applied row hrow
    have := hinput a ha
    simp only [decide_eq_true_eq,not_and]
    omega
  unfold pendingInMemoryCoreApplications
  rw [hnone,hpending]

theorem surely_window (h : Holds L next s) (hbase : ValidBlocks .empty blocks L)
    (hv : ValidBlocks .empty (blocks ++ window) L')
    (hhead : ∀ block ∈ window.head?, block.height = next)
    (hplain : ∀ c ∈ L'.created, c.outputKey.Plain) :
    Surely (applyCoreDogecoinWindow (window.map coreBlockApplication))
      (fun _ t => Holds L' (next + window.length) t) s := by
  have hsuffix := hv.suffix hbase
  have hheights : ∀ a ∈ window.map coreBlockApplication, next ≤ a.blockHeight := by
    intro a ha
    obtain ⟨block,hblock,rfl⟩ := List.mem_map.mp ha
    exact le_of_linked hsuffix.linked hhead hblock
  have hpending := pending_next h hheights
  have hnil (hnone : window.map coreBlockApplication = []) : Holds L' (next + window.length) s := by
    obtain rfl : window = [] := List.map_eq_nil_iff.mp hnone
    cases hsuffix.replay
    exact h
  refine wp_ite (fun hnone => wp_pure (hnil hnone)) (fun _ => ?_)
  refine wp_bind (wp_look (wp_bind (wp_assign ?_)))
  rw [hpending]
  refine wp_ite (fun hnone => wp_pure (hnil hnone)) (fun _ => wp_bind (wp_look (wp_bind ?_)))
  exact wp_mono (surely_blocks h hsuffix hhead hplain
    (fun spend hspend => window_found h.outputs hbase hv hspend)) (fun _ _ ht => wp_pure ht)
    (fun _ _ h => h) (fun _ h => h)

theorem windowFits_zero (h : Holds L next s) (hbase : ValidBlocks .empty blocks L)
    (hv : ValidBlocks .empty (blocks ++ window) L')
    (hhead : ∀ block ∈ window.head?, block.height = next) : WindowFits 0 s window := by
  have hsuffix := hv.suffix hbase
  refine ⟨fun _ _ => Nat.zero_le _,?_⟩
  rw [pending_next h (fun a ha => by
    obtain ⟨block,hblock,rfl⟩ := List.mem_map.mp ha
    exact le_of_linked hsuffix.linked hhead hblock)]
  simp only [coreBlockApplication_creates,coreBlockApplication_spends]
  have hcreated := L'.created_nodup
  have hspent := L'.spent_nodup
  rw [hsuffix.created,List.map_append,List.nodup_append] at hcreated
  rw [hsuffix.spent,List.nodup_append] at hspent
  refine ⟨hcreated.2.1,?_,hspent.2.1,?_⟩
  · intro c hc o ho
    refine hcreated.2.2 _ ?_ _ (List.mem_map_of_mem hc)
    rw [← h.outputs.keys]
    exact List.mem_map_of_mem ho
  · intro spend hspend o ho hkey
    refine (h.outputs.spent o ho).mpr (fun hmem => ?_)
    exact hspent.2.2 _ hmem _ (List.mem_map_of_mem hspend) hkey

theorem run_of_surely {α : Type} {m : MemoryJob α} {Q : α → WarehouseState → Prop}
    (h : Surely m Q s) : ∃ a, m.run s [] = (.value a,(m.run s []).2.1,[]) ∧
      Q a (m.run s []).2.1 := by
  obtain ⟨a,t,hrun,hq⟩ := succeeds_of_wp (wp_mono h (fun _ _ h => h)
    (fun _ _ hfalse => absurd hfalse id) (fun _ h => h))
  rw [hrun]
  exact ⟨a,rfl,hq⟩

/-- Every window ends with a result. -/
def Completes : List (List ParsedDogecoinBlock) → WarehouseState → Prop
  | [],_ => True
  | window::windows,t =>
    (∃ result, (applyCoreDogecoinWindow (window.map coreBlockApplication)).run t [] =
      (.value result,afterWindow window t,[])) ∧ Completes windows (afterWindow window t)

theorem head_append_next {rest : List ParsedDogecoinBlock}
    (hlinked : (window ++ rest).IsChain Follows)
    (hhead : ∀ block ∈ (window ++ rest).head?, block.height = next) :
    ∀ block ∈ rest.head?, block.height = next + window.length := by
  intro block hblock
  have hheights := linked_heights hlinked hhead
  rw [List.map_append,List.length_append,← List.range'_append_1] at hheights
  have hrest := (List.append_inj hheights (by simp)).2
  cases rest with
  | nil => cases hblock
  | cons first rest =>
    cases hblock
    rw [List.map_cons,List.length_cons,List.range'_succ] at hrest
    exact (List.cons.inj hrest).1

theorem holds_afterWindows {windows : List (List ParsedDogecoinBlock)} (h : Holds L next s)
    (hkeyed : FactsKeyed s) (hbase : ValidBlocks .empty blocks L)
    (hv : ValidBlocks .empty (blocks ++ windows.flatten) L')
    (hhead : ∀ block ∈ windows.flatten.head?, block.height = next)
    (hplain : ∀ c ∈ L'.created, c.outputKey.Plain) :
    Completes windows s ∧ Holds L' (next + windows.flatten.length) (afterWindows windows s) ∧
      FactsKeyed (afterWindows windows s) := by
  induction windows generalizing blocks L next s with
  | nil =>
    have heq : some L = some L' := hbase.replay.symm.trans (by simpa using hv.replay)
    cases heq
    exact ⟨trivial,h,hkeyed⟩
  | cons window windows ih =>
    rw [List.flatten_cons] at hv hhead
    rw [← List.append_assoc] at hv
    obtain ⟨M,hM,hrest⟩ := hv.append
    have hlinked := (List.append_assoc blocks window windows.flatten ▸ hv).suffix hbase |>.linked
    have hfirst : ∀ block ∈ window.head?, block.height = next := by
      intro block hblock
      refine hhead block ?_
      cases window with
      | nil => cases hblock
      | cons first rest => exact hblock
    have hplainM : ∀ c ∈ M.created, c.outputKey.Plain := by
      intro c hc
      refine hplain c ?_
      rw [hrest.created]
      exact List.mem_append_left _ hc
    obtain ⟨result,hrun,hholds⟩ := run_of_surely (surely_window h hbase hM hfirst hplainM)
    have habove : Above 0 emptyWarehouseState s := above_zero hkeyed
    have hkeyed' := (above_afterWindow habove (windowFits_zero h hbase hM hfirst)).keyed
    obtain ⟨hcompletes,hfinal,hfinalKeyed⟩ := ih hholds hkeyed' hM hv
      (head_append_next hlinked hhead)
    refine ⟨⟨⟨result,hrun⟩,hcompletes⟩,?_,hfinalKeyed⟩
    rw [List.flatten_cons,List.length_append,← Nat.add_assoc]
    exact hfinal

end Windows

section Recovery
variable {L : CoinLedger} {next : Nat} {s t : WarehouseState}

theorem rewind_outputs_below {outputs : List ProjectionUtxoOutput}
    (hcreated : ∀ o ∈ outputs, o.blockHeight < next)
    (hspent : ∀ o ∈ outputs, ∀ taken ∈ o.spentBy, taken.spentInBlock < next) :
    outputs.flatMap (rewindInMemoryUtxoOutput next) = outputs := by
  induction outputs with
  | nil => rfl
  | cons o outputs ih =>
    have hhead : rewindInMemoryUtxoOutput next o = [o] := by
      have hlow := hcreated o List.mem_cons_self
      unfold rewindInMemoryUtxoOutput
      rw [if_neg (by omega)]
      cases htaken : o.spentBy with
      | none => rfl
      | some taken =>
        have := hspent o List.mem_cons_self taken htaken
        simp only [Option.any_some,decide_eq_true_eq]
        rw [if_neg (by omega)]
    rw [List.flatMap_cons,hhead,ih (fun o' ho' => hcreated o' (List.mem_cons_of_mem _ ho'))
      (fun o' ho' => hspent o' (List.mem_cons_of_mem _ ho'))]
    rfl

theorem Holds.above (h : Holds L next s) (hkeyed : FactsKeyed s) : Above next s s := by
  refine ⟨⟨?_,?_,?_,?_⟩,hkeyed⟩
  · exact rewind_outputs_below h.outputs.createdBelow h.outputs.spentBelow
  · exact List.filter_eq_self.mpr (fun m hm => by simpa using h.moves.below m hm)
  · exact List.filter_eq_self.mpr (fun fact hf => by simpa using h.facts fact hf)
  · exact List.filter_eq_self.mpr (fun block hb => by simpa using h.applied block hb)

/-- The fields that a recovery gives back, and the balance of every address. -/
structure Recovered (s u : WarehouseState) : Prop where
  rows : SameBelow s u
  balance : ∀ address, u.addressBalance address = s.addressBalance address

theorem Holds.recovered (h : Holds L next s) (ht : Above next s t) :
    Recovered s (t.rewindInMemoryCoreTail next) := by
  refine ⟨ht.below,fun address => ?_⟩
  unfold rewindInMemoryCoreTail
  rw [addressBalance_rebuilt,h.moves.balance,h.outputs.worth]
  have hutxos : t.utxoOutputs.flatMap (rewindInMemoryUtxoOutput next) = s.utxoOutputs :=
    ht.below.utxos
  simp only [hutxos]

end Recovery

/-- The windows of a valid chain from height 0 are all applied. Whatever windows from the next
height on are applied on top, to their end or up to an error, as long as each writes new output
keys and spends no spent output, recovery from that height gives the chain's state back. -/
theorem recovery_undoes_windows (base top : List (List ParsedDogecoinBlock)) {L : CoinLedger}
    (hvalid : ValidBlocks .empty base.flatten L)
    (hfirst : ∀ block ∈ base.flatten.head?, block.height = 0)
    (hplain : ∀ block ∈ base.flatten, ∀ tx ∈ block.tx, ':' ∉ tx.txid.toList)
    (hfit : WindowsFit base.flatten.length top (afterWindows base emptyWarehouseState)) :
    Completes base emptyWarehouseState ∧
      ∃ u, (recoverCoreDogecoinWindow base.flatten.length).run
          (afterWindows top (afterWindows base emptyWarehouseState)) [] = (.value (),u,[]) ∧
        Recovered (afterWindows base emptyWarehouseState) u := by
  have hkeys : ∀ c ∈ L.created, c.outputKey.Plain := by
    intro c hc
    rw [hvalid.created] at hc
    rcases List.mem_append.mp hc with hnone | hc
    · cases hnone
    obtain ⟨block,hblock,hc⟩ := List.mem_flatMap.mp hc
    obtain ⟨tx,txIndex,_,_,htx,-,rfl⟩ := mem_blockCreates hc
    exact hplain block hblock tx (List.fst_mem_of_mem_zipIdx htx)
  have hkeyed : FactsKeyed emptyWarehouseState := ⟨List.nodup_nil,fun _ hf => by cases hf⟩
  obtain ⟨hcompletes,hholds,hkeyed⟩ := holds_afterWindows holds_empty hkeyed .empty
    (by simpa using hvalid) hfirst hkeys
  rw [Nat.zero_add] at hholds
  exact ⟨hcompletes,_,rfl,hholds.recovered (above_afterWindows (hholds.above hkeyed) hfit)⟩

/-- A block whose second input names no output: the first is marked spent before the error. -/
def brokenBlock : ParsedDogecoinBlock :=
  ⟨"x2",2,220,some "b1",[⟨"x1",[.output "t1" 1,.output "no" 0],[⟨some 0,5,"C","pubkeyhash"⟩]⟩]⟩

theorem recovery_undoes_brokenBlock :
    ((applyCoreDogecoinWindow [coreBlockApplication brokenBlock]).run
        (afterWindows [paymentBlocks.take 2] emptyWarehouseState) []).1 =
      .failed (.thrown (.error "missing utxo output: no:0")) ∧
    ∃ u, (recoverCoreDogecoinWindow 2).run (afterWindows [[brokenBlock]]
        (afterWindows [paymentBlocks.take 2] emptyWarehouseState)) [] = (.value (),u,[]) ∧
      Recovered (afterWindows [paymentBlocks.take 2] emptyWarehouseState) u := by
  have hvalid : ValidBlocks .empty [paymentBlocks.take 2].flatten
      (((Ledger.empty : CoinLedger).postAll?
        ((paymentBlocks.take 2).flatMap blockEntries)).get (by decide)) :=
    ⟨by decide,by decide,(Option.some_get _).symm⟩
  refine ⟨by decide,?_⟩
  exact (recovery_undoes_windows [paymentBlocks.take 2] [[brokenBlock]] hvalid (by decide)
    (by decide) ⟨⟨by decide,⟨by decide,by decide,by decide,by decide⟩⟩,trivial⟩).2

end OnlyDoge.InMemory
