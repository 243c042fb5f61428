import OnlyDoge.Warehouse.ProcessedChain
set_option autoImplicit false

/-!
The fact tables as the rows of a list of applied blocks, and what a window, a rewind or a
materialization does to the rows below a height wherever it stops.
-/

namespace OnlyDoge
open Job

/-- The tables that a window adds rows to and a rewind cuts, apart from the references. -/
@[ext] structure CoreFactTables where
  creates : List ProjectionUtxoOutput
  spends : List CoreDogecoinSpend
  processed : List CoreProcessedBlockRow
  movements : List AddressMovement
  movementsByAddress : List AddressMovement
  transactions : List AnalyticsTransactionFact

namespace CoreFactTables

def append (f g : CoreFactTables) : CoreFactTables :=
  ⟨f.creates ++ g.creates,f.spends ++ g.spends,f.processed ++ g.processed,
    f.movements ++ g.movements,f.movementsByAddress ++ g.movementsByAddress,
    f.transactions ++ g.transactions⟩

/-- The rows below a height, each table by the column that a rewind compares. -/
def below (n : Nat) (f : CoreFactTables) : CoreFactTables where
  creates := f.creates.filter (·.blockHeight < n)
  spends := f.spends.filter (·.spentInBlock < n)
  processed := f.processed.filter (·.blockHeight < n)
  movements := f.movements.filter (·.blockHeight < n)
  movementsByAddress := f.movementsByAddress.filter (·.blockHeight < n)
  transactions := f.transactions.filter (·.blockHeight < n)

/-- Every row is at or above a height. -/
structure From (n : Nat) (f : CoreFactTables) : Prop where
  creates : ∀ r ∈ f.creates, n ≤ r.blockHeight
  spends : ∀ r ∈ f.spends, n ≤ r.spentInBlock
  processed : ∀ r ∈ f.processed, n ≤ r.blockHeight
  movements : ∀ r ∈ f.movements, n ≤ r.blockHeight
  movementsByAddress : ∀ r ∈ f.movementsByAddress, n ≤ r.blockHeight
  transactions : ∀ r ∈ f.transactions, n ≤ r.blockHeight

theorem filter_below_append {ρ : Type} {n : Nat} {height : ρ → Nat} {old new : List ρ}
    (h : ∀ r ∈ new, n ≤ height r) :
    (old ++ new).filter (fun r => height r < n) = old.filter (fun r => height r < n) := by
  have hnew : new.filter (fun r => decide (height r < n)) = [] := by
    rw [List.filter_eq_nil_iff]
    intro r hr hlt
    exact absurd (of_decide_eq_true hlt) (Nat.not_lt.mpr (h r hr))
  rw [List.filter_append,hnew,List.append_nil]

end CoreFactTables

namespace Warehouse

def facts (w : Warehouse) : CoreFactTables :=
  ⟨w.coreUtxoCreates,w.coreUtxoSpends,w.coreProcessedBlocks,w.addressMovements,
    w.addressMovementsByAddress,w.analyticsTransactions⟩

def factsBelow (n : Nat) (w : Warehouse) : CoreFactTables := w.facts.below n

end Warehouse

/-- A block whose rows a window wrote, with the outputs of the window and the previous outputs
that it had loaded. -/
structure AppliedBlock where
  block : ParsedDogecoinBlock
  createdOutputs : OutputMap
  prevouts : OutputMap

namespace AppliedBlock

def movements (applied : AppliedBlock) : List AddressMovement :=
  coreApplicationAddressMovements applied.createdOutputs applied.prevouts
    (coreBlockApplication applied.block)

def transactions (applied : AppliedBlock) : List AnalyticsTransactionFact :=
  coreApplicationTransactionFacts applied.createdOutputs applied.prevouts
    (coreBlockApplication applied.block)

def height (applied : AppliedBlock) : Nat := applied.block.height

end AppliedBlock

/-- The tables that hold the rows of each block once, one block after the other. -/
def appliedFacts (applied : List AppliedBlock) : CoreFactTables where
  creates := applied.flatMap (fun a => blockCreates a.block)
  spends := applied.flatMap (fun a => blockSpends a.block)
  processed := applied.map (fun a => processedBlockRow a.block)
  movements := applied.flatMap AppliedBlock.movements
  movementsByAddress := applied.flatMap AppliedBlock.movements
  transactions := applied.flatMap AppliedBlock.transactions

/-- One block for each height from 0 on. -/
def FromGenesis (applied : List AppliedBlock) : Prop :=
  applied.map AppliedBlock.height = List.range applied.length

section Applied
variable {applied : List AppliedBlock} {n : Nat}

theorem movements_height {a : AppliedBlock} {row : AddressMovement} (h : row ∈ a.movements) :
    row.blockHeight = a.height := by
  unfold AppliedBlock.movements coreApplicationAddressMovements at h
  rcases List.mem_append.mp h with h | h
  · obtain ⟨output,ho,h⟩ := List.mem_flatMap.mp h
    unfold coreCreateAddressMovement at h
    split at h
    · rw [List.mem_singleton.mp h]
      exact blockCreates_height ho
    · cases h
  · obtain ⟨spend,-,h⟩ := List.mem_flatMap.mp h
    unfold coreSpendAddressMovement at h
    split at h
    · cases h
    · split at h
      · rw [List.mem_singleton.mp h]
        rfl
      · cases h

theorem transactions_height {a : AppliedBlock} {row : AnalyticsTransactionFact}
    (h : row ∈ a.transactions) : row.blockHeight = a.height := by
  obtain ⟨entry,-,rfl⟩ := List.mem_map.mp h
  rfl

theorem flatMap_filter_height {ρ : Type} {rows : AppliedBlock → List ρ} {height : ρ → Nat}
    (h : ∀ a, ∀ r ∈ rows a, height r = a.height) :
    (applied.flatMap rows).filter (fun r => height r < n) =
      (applied.filter (fun a => a.height < n)).flatMap rows := by
  induction applied with
  | nil => rfl
  | cons a applied ih =>
    rw [List.flatMap_cons,List.filter_append,ih]
    by_cases ha : a.height < n
    · rw [List.filter_cons_of_pos (by simpa using ha),List.flatMap_cons,List.filter_eq_self.mpr]
      intro r hr
      simpa [h a r hr] using ha
    · rw [List.filter_cons_of_neg (by simpa using ha),List.filter_eq_nil_iff.mpr,List.nil_append]
      intro r hr
      simpa [h a r hr] using ha

theorem below_appliedFacts (n : Nat) (applied : List AppliedBlock) :
    (appliedFacts applied).below n =
      appliedFacts (applied.filter (fun a => a.height < n)) := by
  unfold appliedFacts CoreFactTables.below
  rw [flatMap_filter_height (fun _ _ h => blockCreates_height h),
    flatMap_filter_height (fun _ _ h => blockSpends_height h),
    flatMap_filter_height (fun _ _ h => movements_height h),
    flatMap_filter_height (fun _ _ h => transactions_height h),List.filter_map]
  rfl

theorem appliedFacts_append (xs ys : List AppliedBlock) :
    appliedFacts (xs ++ ys) = (appliedFacts xs).append (appliedFacts ys) := by
  unfold appliedFacts CoreFactTables.append
  simp only [List.flatMap_append,List.map_append]

theorem appliedFacts_from (h : ∀ a ∈ applied, n ≤ a.height) : (appliedFacts applied).From n := by
  have hrows {ρ : Type} {rows : AppliedBlock → List ρ} {height : ρ → Nat}
      (hrows : ∀ a, ∀ r ∈ rows a, height r = a.height) (r : ρ) (hr : r ∈ applied.flatMap rows) :
      n ≤ height r := by
    obtain ⟨a,ha,hr⟩ := List.mem_flatMap.mp hr
    rw [hrows a r hr]
    exact h a ha
  constructor
  · exact hrows (fun _ _ h => blockCreates_height h)
  · exact hrows (fun _ _ h => blockSpends_height h)
  · intro r hr
    obtain ⟨a,ha,rfl⟩ := List.mem_map.mp hr
    exact h a ha
  · exact hrows (fun _ _ h => movements_height h)
  · exact hrows (fun _ _ h => movements_height h)
  · exact hrows (fun _ _ h => transactions_height h)

theorem appliedFacts_heights (applied : List AppliedBlock) :
    (appliedFacts applied).processed.map (·.blockHeight) = applied.map AppliedBlock.height := by
  unfold appliedFacts
  rw [List.map_map]
  rfl

theorem fromGenesis_filter (h : FromGenesis applied) (n : Nat) :
    applied.filter (fun a => a.height < n) = applied.take n := by
  unfold FromGenesis at h
  have hindex (i : Nat) (a : AppliedBlock) (ha : applied[i]? = some a) : a.height = i := by
    have hmap : (applied.map AppliedBlock.height)[i]? = some a.height := by
      rw [List.getElem?_map,ha]
      rfl
    rw [h,List.getElem?_range (List.getElem?_eq_some_iff.mp ha).1] at hmap
    exact (Option.some.inj hmap).symm
  clear h
  suffices hfrom : ∀ (blocks : List AppliedBlock) (start : Nat),
      (∀ i a, blocks[i]? = some a → a.height = start + i) →
        blocks.filter (fun a => a.height < n) = blocks.take (n - start) by
    simpa using hfrom applied 0 (by simpa using hindex)
  intro blocks
  induction blocks with
  | nil => simp
  | cons a blocks ih =>
    intro start hstart
    have ha : a.height = start := by simpa using hstart 0 a rfl
    have hrest := ih (start + 1) (fun i b hb => by
      have := hstart (i + 1) b (by simpa using hb)
      omega)
    by_cases hlt : start < n
    · have hsub : n - start = (n - (start + 1)) + 1 := by omega
      rw [List.filter_cons_of_pos (by simpa [ha] using hlt),hrest,hsub,List.take_succ_cons]
    · have hsub : n - start = 0 := by omega
      have hsub' : n - (start + 1) = 0 := by omega
      rw [List.filter_cons_of_neg (by simpa [ha] using hlt),hrest,hsub,hsub',List.take_zero,
        List.take_zero]

theorem fromGenesis_take (h : FromGenesis applied) (n : Nat) : FromGenesis (applied.take n) := by
  unfold FromGenesis at *
  rw [List.map_take,h,List.take_range,List.length_take]

theorem fromGenesis_append {xs ys : List AppliedBlock} (hx : FromGenesis xs)
    (hy : ys.map AppliedBlock.height = List.range' xs.length ys.length) :
    FromGenesis (xs ++ ys) := by
  unfold FromGenesis at *
  have hjoin := @List.range'_append_1 0 xs.length ys.length
  rw [Nat.zero_add] at hjoin
  rw [List.map_append,hx,hy,List.length_append,List.range_eq_range',List.range_eq_range',hjoin]

theorem below_of_fromGenesis (h : FromGenesis applied) (hn : applied.length ≤ n) :
    (appliedFacts applied).below n = appliedFacts applied := by
  rw [below_appliedFacts,fromGenesis_filter h,List.take_of_length_le hn]

end Applied

section Below
variable {n : Nat} {w t : Warehouse} {rows : CoreFactTables}
variable {boundaries : Warehouse → List String} {context : CoreDogecoinApplyContext}

theorem SameFacts.facts (h : SameFacts w t) : t.facts = w.facts := by
  unfold Warehouse.facts
  rw [h.creates,h.spends,h.processed,h.movements,h.movementsByAddress,h.transactions]

def HasBelow (n : Nat) (rows : CoreFactTables) (w : Warehouse) : Prop := w.factsBelow n = rows

theorem aboutFacts_hasBelow : AboutFacts (HasBelow n rows) := by
  intro w t h hw
  unfold HasBelow Warehouse.factsBelow at *
  rw [h.facts,hw]

theorem filter_below_cut {ρ : Type} {height : ρ → Nat} {cut : Nat} (h : n ≤ cut) (old : List ρ) :
    (old.filter (fun r => height r < cut)).filter (fun r => height r < n) =
      old.filter (fun r => height r < n) := by
  rw [List.filter_filter]
  refine List.filter_congr (fun r _ => ?_)
  by_cases hr : height r < n
  · simp [hr,Nat.lt_of_lt_of_le hr h]
  · simp [hr]

theorem hasBelow_deleteTail {fromBlockHeight : Nat} (h : n ≤ fromBlockHeight)
    (table : CoreTailTable) (w : Warehouse) (hw : HasBelow n rows w) :
    HasBelow n rows (w.deleteTail fromBlockHeight table) := by
  unfold HasBelow at *
  rw [← hw]
  unfold Warehouse.factsBelow CoreFactTables.below Warehouse.facts
  cases table <;> simp only [Warehouse.deleteTail,filter_below_cut h]

theorem keeps_rewind_below {fromBlockHeight : Nat} (h : n ≤ fromBlockHeight) :
    Keeps (HasBelow n rows) (rewindCoreDogecoinWindow boundaries fromBlockHeight context) :=
  keeps_rewindCoreDogecoinWindow aboutFacts_hasBelow (hasBelow_deleteTail h)

/-- The rows of a window of blocks, as the applied blocks of that window. -/
def windowBlocks (blocks : List ParsedDogecoinBlock) (prevouts : OutputMap) : List AppliedBlock :=
  blocks.map fun block =>
    ⟨block,coreCreatedOutputsByKey (blocks.map coreBlockApplication),prevouts⟩

theorem windowBlocks_heights (blocks : List ParsedDogecoinBlock) (prevouts : OutputMap) :
    (windowBlocks blocks prevouts).map AppliedBlock.height = blocks.map (·.height) := by
  unfold windowBlocks
  rw [List.map_map]
  rfl

theorem facts_addWindow (blocks : List ParsedDogecoinBlock) (prevouts : OutputMap)
    (cs : Option CoreCurrentStateWindow) (w : Warehouse) :
    (w.addWindow (blocks.map coreBlockApplication) prevouts cs).facts =
      w.facts.append (appliedFacts (windowBlocks blocks prevouts)) := by
  have hcreates := addWindow_creates blocks prevouts cs w
  have hspends := addWindow_spends blocks prevouts cs w
  have hprocessed := addWindow_processed blocks prevouts cs w
  unfold Warehouse.facts
  rw [hcreates,hspends,hprocessed]
  unfold CoreFactTables.append appliedFacts windowBlocks
  ext1 <;> simp only [List.flatMap_map,List.map_map] <;> try rfl
  all_goals
    cases cs <;>
      simp only [Warehouse.addWindow,Warehouse.addFacts,Warehouse.addCurrentState,
        Warehouse.insertCoreProcessedBlocks,coreWindowFactInserts,List.flatMap_map] <;> rfl

theorem absorbsFacts_hasBelow {blocks : List ParsedDogecoinBlock}
    (h : ∀ block ∈ blocks, n ≤ block.height) (prevouts : OutputMap) :
    AbsorbsFacts (HasBelow n rows)
      (coreWindowFactInserts (blocks.map coreBlockApplication) prevouts) := by
  have hfrom : (appliedFacts (windowBlocks blocks prevouts)).From n := appliedFacts_from (by
    intro a ha
    obtain ⟨block,hb,rfl⟩ := List.mem_map.mp ha
    exact h block hb)
  have hcreates : (coreWindowFactInserts (blocks.map coreBlockApplication) prevouts).creates =
      blocks.flatMap blockCreates := by
    have hw := addWindow_creates blocks prevouts none emptyWarehouse
    simpa [Warehouse.addWindow,Warehouse.addFacts,Warehouse.addCurrentState,
      Warehouse.insertCoreProcessedBlocks,emptyWarehouse] using hw
  have hunchanged {ρ : Type} {height : ρ → Nat} {old new : List ρ}
      (hnew : ∀ r ∈ new, n ≤ height r) :
      (old ++ new).filter (fun r => height r < n) = old.filter (fun r => height r < n) :=
    CoreFactTables.filter_below_append hnew
  unfold HasBelow
  constructor
  · rintro w rfl
    unfold Warehouse.factsBelow CoreFactTables.below Warehouse.facts Warehouse.insertCoreCreates
    rw [hcreates,hunchanged]
    intro r hr
    obtain ⟨block,hb,hr⟩ := List.mem_flatMap.mp hr
    rw [blockCreates_height hr]
    exact h block hb
  · rintro w rfl
    unfold Warehouse.factsBelow CoreFactTables.below Warehouse.facts Warehouse.insertCoreSpends
    simp only
    rw [hunchanged]
    intro r hr
    have hr : r ∈ (blocks.map coreBlockApplication).flatMap (·.utxoSpends) := hr
    rw [coreBlockApplication_spends] at hr
    obtain ⟨block,hb,hr⟩ := List.mem_flatMap.mp hr
    rw [blockSpends_height hr]
    exact h block hb
  · rintro w rfl
    have hrows : (coreWindowFactInserts (blocks.map coreBlockApplication) prevouts).movements =
        (appliedFacts (windowBlocks blocks prevouts)).movements := by
      unfold coreWindowFactInserts appliedFacts windowBlocks
      simp only [List.flatMap_map]
      rfl
    rw [hrows]
    unfold Warehouse.factsBelow CoreFactTables.below Warehouse.facts
      Warehouse.insertAddressMovements
    simp only
    rw [hunchanged hfrom.movements,hunchanged hfrom.movements]
  · rintro w rfl
    have hrows : (coreWindowFactInserts (blocks.map coreBlockApplication)
        prevouts).transactions = (appliedFacts (windowBlocks blocks prevouts)).transactions := by
      unfold coreWindowFactInserts appliedFacts windowBlocks
      simp only [List.flatMap_map]
      rfl
    rw [hrows]
    unfold Warehouse.factsBelow CoreFactTables.below Warehouse.facts
      Warehouse.insertAnalyticsTransactions
    simp only
    rw [hunchanged hfrom.transactions]

/-! A window leaves the rows below its first block alone. -/

section Window
variable {blocks : List ParsedDogecoinBlock}

theorem keeps_insertPendingCoreWindow_below (h : ∀ block ∈ blocks, n ≤ block.height) :
    Keeps (HasBelow n rows)
      (insertPendingCoreWindow (blocks.map coreBlockApplication) context) := by
  refine keeps_bind (keeps_loadCoreWindowPrevouts _ _) (fun prevouts => ?_)
  refine keeps_bind (keeps_resolveCoreCurrentStateWindow _ _ _) (fun cs => ?_)
  refine keeps_bind (keeps_insertCoreWindowFacts (absorbsFacts_hasBelow h prevouts)) (fun _ => ?_)
  refine keeps_bind (keeps_insertCoreCurrentStateIfBuilt aboutFacts_hasBelow cs) (fun _ => ?_)
  refine keeps_insertRows (fun w hw => ?_)
  unfold HasBelow Warehouse.factsBelow CoreFactTables.below Warehouse.facts at *
  rw [← hw]
  unfold Warehouse.insertCoreProcessedBlocks
  simp only
  rw [CoreFactTables.filter_below_append]
  intro row hrow
  obtain ⟨_,ha,rfl⟩ := List.mem_map.mp hrow
  obtain ⟨block,hb,rfl⟩ := List.mem_map.mp ha
  exact h block hb

theorem keeps_cleanFailedCoreWindowFacts_below (h : ∀ block ∈ blocks, n ≤ block.height) :
    Keeps (HasBelow n rows)
      (cleanFailedCoreWindowFacts (blocks.map coreBlockApplication)) := by
  unfold cleanFailedCoreWindowFacts
  cases blocks with
  | nil => exact keeps_pure ()
  | cons first rest =>
    exact keeps_deleteCoreDogecoinTail (hasBelow_deleteTail (h first List.mem_cons_self))

theorem keeps_insertPendingCoreWindowWithRecovery_below
    (h : ∀ block ∈ blocks, n ≤ block.height) :
    Keeps (HasBelow n rows)
      (insertPendingCoreWindowWithRecovery (blocks.map coreBlockApplication) context) := by
  have hclean : Keeps (HasBelow n rows) _ := keeps_cleanFailedCoreWindowFacts_below h
  refine keeps_catchThrown (keeps_insertPendingCoreWindow_below h) (fun e => ?_)
  cases e with
  | error message => exact keeps_throw _
  | missingCoreCurrentPrevout key =>
    refine keeps_ite (fun _ => ?_) (fun _ => keeps_throw _)
    refine keeps_bind (keeps_bind hclean (fun _ => ?_)) (fun _ => ?_)
    · exact keeps_repairMissingCoreCurrentPrevouts aboutFacts_hasBelow _
    · exact keeps_onFailure (keeps_insertPendingCoreWindow_below h) hclean

theorem filterPendingCoreApplications_sublist {processed : OrderedMap Nat CoreProcessedBlockRow}
    {input pending : List CoreDogecoinBlockApplication}
    (h : filterPendingCoreApplications processed input = .ok pending) : pending.Sublist input := by
  induction input generalizing pending with
  | nil =>
    cases h
    exact List.Sublist.refl _
  | cons a input ih =>
    obtain ⟨isPending,-,h⟩ := bind_eq_ok.mp h
    obtain ⟨rest,hrest,h⟩ := bind_eq_ok.mp h
    cases h
    cases isPending with
    | true => exact (ih hrest).cons_cons a
    | false => exact (ih hrest).cons a

theorem mem_of_sublist_map {pending : List CoreDogecoinBlockApplication}
    (h : pending.Sublist (blocks.map coreBlockApplication)) :
    ∃ new : List ParsedDogecoinBlock, new.Sublist blocks ∧
      pending = new.map coreBlockApplication := List.sublist_map_iff.mp h

theorem wp_pendingCoreWindowApplications_below (h : ∀ block ∈ blocks, n ≤ block.height)
    (hw : HasBelow n rows w) :
    wp (pendingCoreWindowApplications boundaries (blocks.map coreBlockApplication) context)
      (fun pending t => HasBelow n rows t ∧ ∃ new : List ParsedDogecoinBlock, new.Sublist blocks ∧
        pending = new.map coreBlockApplication)
      (fun _ => HasBelow n rows) (HasBelow n rows) w := by
  refine wp_bind (wp_read ?_ hw hw)
  generalize hreorg : firstCoreReorgHeight (blocks.map coreBlockApplication) _ = reorg
  cases reorg with
  | none =>
    refine wp_ofExcept (fun pending hpending => ⟨hw,?_⟩) (fun _ _ => hw)
    exact mem_of_sublist_map (filterPendingCoreApplications_sublist hpending)
  | some height =>
    obtain ⟨a,ha,rfl⟩ := Option.map_eq_some_iff.mp hreorg
    obtain ⟨block,hb,rfl⟩ := List.mem_map.mp (List.mem_of_find?_eq_some ha)
    refine wp_bind (wp_mono (keeps_rewind_below (h block hb) w hw) ?_ (fun _ _ ht => ht)
      (fun _ ht => ht))
    exact fun _ t ht => wp_pure ⟨ht,mem_of_sublist_map List.filter_sublist⟩

theorem keeps_applyCoreDogecoinWindow_below (h : ∀ block ∈ blocks, n ≤ block.height) :
    Keeps (HasBelow n rows)
      (applyCoreDogecoinWindow boundaries (blocks.map coreBlockApplication) context) := by
  intro w hw
  refine wp_ite (fun _ => wp_pure hw) (fun _ => ?_)
  refine wp_bind (wp_mono (wp_pendingCoreWindowApplications_below h hw) ?_ (fun _ _ ht => ht)
    (fun _ ht => ht))
  rintro pending t ⟨ht,new,hnew,rfl⟩
  refine wp_ite (fun _ => wp_pure ht) (fun _ => ?_)
  have hnew : ∀ block ∈ new, n ≤ block.height := fun block hb => h block (hnew.subset hb)
  exact keeps_bind (keeps_validatePendingCoreWindow _ _) (fun _ => keeps_bind
    (keeps_insertPendingCoreWindowWithRecovery_below hnew) (fun _ => keeps_pure _)) t ht

theorem facts_cutTail (fromBlockHeight : Nat) (w : Warehouse) :
    (w.cutTail fromBlockHeight).facts = w.factsBelow fromBlockHeight := rfl

theorem facts_rewound (boundaries : Warehouse → List String) (fromBlockHeight : Nat)
    (context : CoreDogecoinApplyContext) (w : Warehouse) :
    (w.rewound boundaries fromBlockHeight context).facts = w.factsBelow fromBlockHeight := by
  unfold Warehouse.rewound Warehouse.rematerializedBelow
  split
  · cases fromBlockHeight <;> rfl
  · rfl

def HasFactTables (rows : CoreFactTables) (w : Warehouse) : Prop := w.facts = rows

theorem aboutFacts_hasFactTables : AboutFacts (HasFactTables rows) :=
  fun _ _ h hw => h.facts.trans hw

/-- Any failure, the process's own errors included. -/
abbrev Fails {σ : Type} : Failure CoreError → σ → Prop := FailsWith (fun _ _ => True)

end Window

end Below

end OnlyDoge
