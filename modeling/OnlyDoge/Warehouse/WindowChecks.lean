import OnlyDoge.Warehouse.ProcessedChain
import OnlyDoge.Warehouse.WindowShape
import OnlyDoge.Library.Returns
set_option autoImplicit false

/-! The checks of a window against the same checks made block by block. -/

namespace OnlyDoge
open Job

namespace Warehouse

def Created (w : Warehouse) (k : OutputKey) : Prop := k ∈ w.coreUtxoCreates.map (·.outputKey)

def Spent (w : Warehouse) (k : OutputKey) : Prop := k ∈ w.coreUtxoSpends.map (·.outputKey)

instance (w : Warehouse) (k : OutputKey) : Decidable (w.Created k) :=
  inferInstanceAs (Decidable (_ ∈ _))

instance (w : Warehouse) (k : OutputKey) : Decidable (w.Spent k) :=
  inferInstanceAs (Decidable (_ ∈ _))

end Warehouse

/-- The checks of `validatePendingCoreWindow` pass. -/
def AcceptsWindow (context : CoreDogecoinApplyContext) (w : Warehouse) (window : CoreWindow) :
    Prop :=
  Returns (validatePendingCoreWindow window context) w () w

instance (context : CoreDogecoinApplyContext) (w : Warehouse) (window : CoreWindow) :
    Decidable (AcceptsWindow context w window) :=
  inferInstanceAs (Decidable (Returns _ _ _ _))

/-- Each block passes the checks of a window of its own, on the rows of the blocks before it. -/
def AcceptsBlocks (context : CoreDogecoinApplyContext) : Warehouse → CoreWindow → Prop
  | _,[] => True
  | w,block::blocks => AcceptsWindow context w [block] ∧
      AcceptsBlocks context (w.addWindow [block] .empty none) blocks

/-- The first block follows the processed block below it, if there is one. -/
def FollowsTail (w : Warehouse) (window : CoreWindow) : Prop :=
  ∀ first ∈ window.head?, ∀ row ∈ w.coreProcessedBlocks,
    row.blockHeight + 1 = first.blockHeight → first.previousBlockHash = some row.blockHash

/-- A state whose rows lie below a height. -/
structure RowsBelow (w : Warehouse) (next : Nat) : Prop where
  processed : ProcessedBelow w next
  spends : ∀ s ∈ w.coreUtxoSpends, s.spentInBlock < next

/-- Blocks above a height whose spends carry the height of their block. -/
structure BlocksFrom (next : Nat) (window : CoreWindow) : Prop where
  heights : ContiguousFrom next window
  stamped : ∀ a ∈ window, ∀ s ∈ a.utxoSpends, s.spentInBlock = a.blockHeight

section Checks
variable {context : CoreDogecoinApplyContext} {w : Warehouse} {window : CoreWindow} {next : Nat}

theorem returns_assertCoreWindowPreviousBlock (hbelow : ProcessedBelow w next) :
    Returns (assertCoreWindowPreviousBlock window) w () w ↔ FollowsTail w window := by
  unfold assertCoreWindowPreviousBlock FollowsTail
  cases window with
  | nil => simp [returns_pure]
  | cons first rest =>
    simp only [List.head?_cons,Option.mem_some_iff,forall_eq']
    cases hheight : first.blockHeight with
    | zero =>
      refine iff_of_true (returns_pure.mpr ⟨rfl,rfl⟩) (fun row _ h => ?_)
      exact absurd h (Nat.succ_ne_zero _)
    | succ previousHeight =>
      simp only [returns_bind,returns_read,returns_ofExcept]
      have hrow (row : CoreProcessedBlockRow) : w.latestProcessedBlock previousHeight = some row ↔
          row ∈ w.coreProcessedBlocks ∧ row.blockHeight + 1 = previousHeight + 1 := by
        rw [latestProcessedBlock_getElem? hbelow,processedBelow_getElem? hbelow,
          Nat.add_right_cancel_iff]
      constructor
      · rintro ⟨_,_,⟨rfl,rfl⟩,hok,-⟩ row hmem hnext
        rw [(hrow row).mpr ⟨hmem,hnext⟩] at hok
        simp only [assertPreviousCoreBlockMatches] at hok
        split at hok
        · assumption
        · cases hok
      · intro h
        refine ⟨_,_,⟨rfl,rfl⟩,?_,rfl⟩
        cases hl : w.latestProcessedBlock previousHeight with
        | none => rfl
        | some row =>
          obtain ⟨hmem,hnext⟩ := (hrow row).mp hl
          simp [assertPreviousCoreBlockMatches,h row hmem hnext]

theorem getCoreUtxoCreateRows_get {keys : List OutputKey} {k : OutputKey} (hk : k ∈ keys) :
    ((w.getCoreUtxoCreateRows keys).get k).isNone ↔ ¬w.Created k := by
  rw [Option.isNone_iff_eq_none,← not_iff_not,not_not,← ne_eq,Option.ne_none_iff_exists']
  unfold Warehouse.getCoreUtxoCreateRows Warehouse.Created
  simp only [OrderedMap.get_ofEntries_filterMap,hk,true_and]
  rw [← Option.isSome_iff_exists]
  exact Replacing.latest_isSome_iff

theorem getCoreUtxoSpendRows_get {keys : List OutputKey} {k : OutputKey}
    {row : CoreDogecoinSpend} :
    (w.getCoreUtxoSpendRows keys).get k = some row ↔ k ∈ keys ∧ w.latestCoreSpend k = some row :=
  OrderedMap.get_ofEntries_filterMap

theorem returns_assertCoreWindowPrevouts (hrows : RowsBelow w next) (hb : BlocksFrom next window) :
    Returns (assertCoreWindowPrevouts window) w () w ↔
      ∀ k ∈ externalCoreSpendKeys window, w.Created k ∧ ¬w.Spent k := by
  have hexist : assertCorePrevoutsExist (externalCoreSpendKeys window)
      (w.getCoreUtxoCreateRows (externalCoreSpendKeys window)) = .ok () ↔
      ∀ k ∈ externalCoreSpendKeys window, w.Created k := by
    unfold assertCorePrevoutsExist
    cases hf : (externalCoreSpendKeys window).find? (fun key =>
        ((w.getCoreUtxoCreateRows (externalCoreSpendKeys window)).get key).isNone) with
    | none =>
      refine iff_of_true rfl (fun k hk => ?_)
      have := List.find?_eq_none.mp hf k hk
      rw [getCoreUtxoCreateRows_get hk] at this
      exact not_not.mp this
    | some k =>
      refine iff_of_false (fun h => by cases h) (fun h => ?_)
      have hk := List.mem_of_find?_eq_some hf
      have hnone := List.find?_some hf
      exact (getCoreUtxoCreateRows_get hk).mp hnone (h k hk)
  -- a stored spend lies below the window, so it is never the one of the window itself
  have hconflict {k : OutputKey} (hk : k ∈ externalCoreSpendKeys window) :
      isConflictingCoreSpend ((w.getCoreUtxoSpendRows (externalCoreSpendKeys window)).get k)
        ((coreSpendsInWindow window).get k) = true ↔ w.Spent k := by
    have hspent : w.Spent k ↔ ∃ row, w.latestCoreSpend k = some row := by
      rw [← Option.isSome_iff_exists]
      exact Replacing.latest_isSome_iff.symm
    rw [hspent]
    cases hl : w.latestCoreSpend k with
    | none =>
      refine iff_of_false ?_ (fun h => by obtain ⟨row,h⟩ := h; cases h)
      have hnone : (w.getCoreUtxoSpendRows (externalCoreSpendKeys window)).get k = none := by
        rw [Option.eq_none_iff_forall_ne_some]
        intro row h
        rw [getCoreUtxoSpendRows_get,hl] at h
        cases h.2
      simp [hnone,isConflictingCoreSpend]
    | some row =>
      refine iff_of_true ?_ ⟨row,rfl⟩
      have hstored := hrows.spends row (Replacing.latest_spec hl).1
      rw [getCoreUtxoSpendRows_get.mpr ⟨hk,hl⟩]
      cases hs : (coreSpendsInWindow window).get k with
      | none => rfl
      | some spend =>
        obtain ⟨s,hmem,heq⟩ := List.mem_map.mp (OrderedMap.get_ofEntries_of_mem hs)
        cases heq
        obtain ⟨a,ha,hspend⟩ := List.mem_flatMap.mp hmem
        have hstamp := hb.stamped a ha _ hspend
        have hmem : a.blockHeight ∈ window.map (·.blockHeight) := List.mem_map_of_mem ha
        rw [hb.heights,List.mem_range'_1] at hmem
        have hne : row.spentInBlock ≠ spend.spentInBlock := by omega
        simp [isConflictingCoreSpend,isSameCoreSpend,hne]
  have hunspent : assertCorePrevoutsUnspent (externalCoreSpendKeys window)
      (w.getCoreUtxoSpendRows (externalCoreSpendKeys window)) (coreSpendsInWindow window) =
        .ok () ↔ ∀ k ∈ externalCoreSpendKeys window, ¬w.Spent k := by
    unfold assertCorePrevoutsUnspent
    cases hf : (externalCoreSpendKeys window).find? (fun key =>
        isConflictingCoreSpend ((w.getCoreUtxoSpendRows (externalCoreSpendKeys window)).get key)
          ((coreSpendsInWindow window).get key)) with
    | none =>
      refine iff_of_true rfl (fun k hk hs => ?_)
      exact List.find?_eq_none.mp hf k hk ((hconflict hk).mpr hs)
    | some k =>
      have hk := List.mem_of_find?_eq_some hf
      have hconflicts := List.find?_some hf
      exact iff_of_false (fun h => by cases h) (fun h => h k hk ((hconflict hk).mp hconflicts))
  unfold assertCoreWindowPrevouts
  simp only
  split
  · rename_i hnil
    rw [hnil]
    exact iff_of_true (returns_pure.mpr ⟨rfl,rfl⟩) (by simp)
  · simp only [returns_bind,returns_read,returns_ofExcept]
    constructor
    · rintro ⟨_,_,⟨rfl,rfl⟩,_,_,⟨rfl,rfl⟩,_,_,⟨he,rfl⟩,hu,-⟩ k hk
      exact ⟨hexist.mp he k hk,hunspent.mp hu k hk⟩
    · intro h
      exact ⟨_,_,⟨rfl,rfl⟩,_,_,⟨rfl,rfl⟩,(),_,
        ⟨hexist.mpr (fun k hk => (h k hk).1),rfl⟩,hunspent.mpr (fun k hk => (h k hk).2),rfl⟩

theorem acceptsWindow_iff (hval : shouldValidateCorePrevouts context) (hrows : RowsBelow w next)
    (hb : BlocksFrom next window) : AcceptsWindow context w window ↔
      (window.IsChain NextBlock ∧ (createdKeys window).Nodup ∧ (spentKeys window).Nodup) ∧
      FollowsTail w window ∧ ∀ k ∈ externalCoreSpendKeys window, w.Created k ∧ ¬w.Spent k := by
  rw [← returns_assertCoreWindowPreviousBlock hrows.processed,
    ← returns_assertCoreWindowPrevouts hrows hb,← assertCoreWindowShape_iff]
  unfold AcceptsWindow validatePendingCoreWindow
  simp only [returns_bind,returns_ofExcept]
  constructor
  · rintro ⟨state,t',⟨hshape,ht'⟩,_,t,hprevious,hwhen⟩
    rw [ht'] at hprevious
    have ht : t = w := by
      have hkeeps := keeps_assertCoreWindowPreviousBlock (I := fun t => t = w) window w rfl
      exact value_of_wp hkeeps hprevious
    rw [ht,returns_when,if_pos hval] at hwhen
    rw [ht] at hprevious
    exact ⟨⟨state,hshape⟩,hprevious,hwhen⟩
  · rintro ⟨⟨state,hshape⟩,hprevious,hprevouts⟩
    refine ⟨state,w,⟨hshape,rfl⟩,(),w,hprevious,?_⟩
    rw [returns_when,if_pos hval]
    exact hprevouts

/-- Each block repeats no key of its own and spends only what the state or an earlier block
created and none of them spent. -/
def Ordered (w : Warehouse) : CoreWindow → Prop
  | [] => True
  | block::blocks =>
    ((createdKeys [block]).Nodup ∧ (spentKeys [block]).Nodup ∧
      ∀ k ∈ externalCoreSpendKeys [block], w.Created k ∧ ¬w.Spent k) ∧
    Ordered (w.addWindow [block] .empty none) blocks

theorem created_addWindow (block : CoreDogecoinBlockApplication) (k : OutputKey) :
    (w.addWindow [block] .empty none).Created k ↔ w.Created k ∨ k ∈ createdKeys [block] := by
  unfold Warehouse.Created Warehouse.addWindow
  simp [Warehouse.insertCoreProcessedBlocks,Warehouse.addCurrentState,Warehouse.addFacts,
    coreWindowFactInserts,createdKeys]

theorem spent_addWindow (block : CoreDogecoinBlockApplication) (k : OutputKey) :
    (w.addWindow [block] .empty none).Spent k ↔ w.Spent k ∨ k ∈ spentKeys [block] := by
  unfold Warehouse.Spent Warehouse.addWindow
  simp [Warehouse.insertCoreProcessedBlocks,Warehouse.addCurrentState,Warehouse.addFacts,
    coreWindowFactInserts,spentKeys]

theorem rowsBelow_addWindow {block : CoreDogecoinBlockApplication} (hrows : RowsBelow w next)
    (hb : BlocksFrom next [block]) : RowsBelow (w.addWindow [block] .empty none) (next + 1) := by
  have hheight := (contiguousFrom_cons.mp hb.heights).1
  constructor
  · have hprocessed := hrows.processed
    unfold ProcessedBelow at *
    simp [Warehouse.addWindow,Warehouse.insertCoreProcessedBlocks,Warehouse.addCurrentState,
      Warehouse.addFacts,hprocessed,toCoreProcessedBlockRow,hheight,List.range_succ]
  · intro s hs
    rcases List.mem_append.mp (show s ∈ w.coreUtxoSpends ++ _ from hs) with hs | hs
    · have := hrows.spends s hs
      omega
    · have hmem : s ∈ block.utxoSpends := by simpa [coreWindowFactInserts] using hs
      have := hb.stamped block List.mem_cons_self s hmem
      omega

theorem blocksFrom_cons {block : CoreDogecoinBlockApplication} {blocks : CoreWindow}
    (hb : BlocksFrom next (block::blocks)) :
    BlocksFrom next [block] ∧ BlocksFrom (next + 1) blocks := by
  obtain ⟨hheight,hrest⟩ := contiguousFrom_cons.mp hb.heights
  refine ⟨⟨contiguousFrom_cons.mpr ⟨hheight,rfl⟩,fun a ha => ?_⟩,
    ⟨hrest,fun a ha => hb.stamped a (List.mem_cons_of_mem _ ha)⟩⟩
  obtain rfl := List.mem_singleton.mp ha
  exact hb.stamped a List.mem_cons_self

theorem followsTail_addWindow {block : CoreDogecoinBlockApplication} {blocks : CoreWindow}
    (hrows : RowsBelow w next) (hb : BlocksFrom next (block::blocks)) :
    FollowsTail (w.addWindow [block] .empty none) blocks ↔
      ∀ b ∈ blocks.head?, NextBlock block b := by
  obtain ⟨hheight,hrest⟩ := contiguousFrom_cons.mp hb.heights
  have hprocessed : (w.addWindow [block] .empty none).coreProcessedBlocks =
      w.coreProcessedBlocks ++ [toCoreProcessedBlockRow block] := rfl
  unfold FollowsTail NextBlock
  rw [hprocessed]
  refine forall₂_congr (fun b hbmem => ?_)
  have hbheight : b.blockHeight = next + 1 := by
    cases blocks with
    | nil => cases hbmem
    | cons c rest =>
      cases hbmem
      exact (contiguousFrom_cons.mp hrest).1
  constructor
  · intro h
    exact ⟨by omega,h _ (List.mem_append_right _ (List.mem_singleton.mpr rfl))
      (by simp only [toCoreProcessedBlockRow]; omega)⟩
  · rintro ⟨-,hprevious⟩ row hrow hnext
    rcases List.mem_append.mp hrow with hrow | hrow
    · have := mem_processedBelow hrows.processed hrow
      omega
    · obtain rfl := List.mem_singleton.mp hrow
      exact hprevious

theorem acceptsBlocks_iff (hval : shouldValidateCorePrevouts context) (hrows : RowsBelow w next)
    (hb : BlocksFrom next window) : AcceptsBlocks context w window ↔
      (FollowsTail w window ∧ window.IsChain NextBlock) ∧ Ordered w window := by
  induction window generalizing w next with
  | nil => simp [AcceptsBlocks,FollowsTail,Ordered]
  | cons block blocks ih =>
    obtain ⟨hone,hrest⟩ := blocksFrom_cons hb
    unfold AcceptsBlocks Ordered
    have hchain : (block::blocks).IsChain NextBlock ↔ _ := List.isChain_cons
    rw [acceptsWindow_iff hval hrows hone,ih (rowsBelow_addWindow hrows hone) hrest,
      followsTail_addWindow hrows hb,hchain]
    have htail : FollowsTail w (block::blocks) ↔ FollowsTail w [block] := by
      unfold FollowsTail
      simp
    rw [htail]
    have hsingle : [block].IsChain NextBlock := List.isChain_singleton block
    tauto

/-- What both ways require: a linked window, blocks that repeat no key of their own, and outside
outputs that are there and unspent. -/
structure SoundBlocks (w : Warehouse) (window : CoreWindow) : Prop where
  follows : FollowsTail w window
  chain : window.IsChain NextBlock
  own : ∀ a ∈ window, (createdKeys [a]).Nodup ∧ (spentKeys [a]).Nodup
  outside : ∀ k ∈ externalCoreSpendKeys window, w.Created k ∧ ¬w.Spent k

/-- Two blocks create one key, or spend one. -/
def RepeatsKey (window : CoreWindow) : Prop :=
  ¬window.Pairwise (fun a b => (createdKeys [a]).Disjoint (createdKeys [b]) ∧
    (spentKeys [a]).Disjoint (spentKeys [b]))

/-- Some block spends an output that only a later block creates, or that is spent before it. -/
def SpendsOutOfOrder (w : Warehouse) (window : CoreWindow) : Prop :=
  ∃ before a after, window = before ++ a::after ∧ ∃ k ∈ externalCoreSpendKeys [a],
    ¬(w.Created k ∨ k ∈ createdKeys before) ∨ w.Spent k ∨ k ∈ spentKeys before

theorem windowKeys_nodup : ((createdKeys window).Nodup ∧ (spentKeys window).Nodup) ↔
    (∀ a ∈ window, (createdKeys [a]).Nodup ∧ (spentKeys [a]).Nodup) ∧ ¬RepeatsKey window := by
  have hcreated : createdKeys window = window.flatMap (fun a => createdKeys [a]) := by
    simp [createdKeys,List.map_flatMap]
  have hspent : spentKeys window = window.flatMap (fun a => spentKeys [a]) := by
    simp [spentKeys,List.map_flatMap]
  unfold RepeatsKey
  rw [hcreated,hspent,List.nodup_flatMap,List.nodup_flatMap,not_not,List.pairwise_and_iff]
  constructor
  · rintro ⟨⟨hc,hcd⟩,hs,hsd⟩
    exact ⟨fun a ha => ⟨hc a ha,hs a ha⟩,hcd,hsd⟩
  · rintro ⟨hown,hcd,hsd⟩
    exact ⟨⟨fun a ha => (hown a ha).1,hcd⟩,fun a ha => (hown a ha).2,hsd⟩

theorem spendsOutOfOrder_cons {block : CoreDogecoinBlockApplication} {blocks : CoreWindow} :
    SpendsOutOfOrder w (block::blocks) ↔
      (∃ k ∈ externalCoreSpendKeys [block], ¬w.Created k ∨ w.Spent k) ∨
        SpendsOutOfOrder (w.addWindow [block] .empty none) blocks := by
  constructor
  · rintro ⟨before,a,after,heq,k,hk,hbad⟩
    cases before with
    | nil =>
      cases heq
      exact Or.inl ⟨k,hk,by simpa [createdKeys,spentKeys] using hbad⟩
    | cons b before =>
      cases heq
      refine Or.inr ⟨before,a,after,rfl,k,hk,?_⟩
      rw [createdKeys_cons block before,spentKeys_cons block before,List.mem_append,
        List.mem_append] at hbad
      rw [created_addWindow,spent_addWindow,or_assoc,or_assoc]
      exact hbad
  · rintro (⟨k,hk,hbad⟩ | ⟨before,a,after,rfl,k,hk,hbad⟩)
    · exact ⟨[],block,blocks,rfl,k,hk,by simpa [createdKeys,spentKeys] using hbad⟩
    · refine ⟨block::before,a,after,rfl,k,hk,?_⟩
      rw [createdKeys_cons block before,spentKeys_cons block before,List.mem_append,
        List.mem_append]
      rw [created_addWindow,spent_addWindow,or_assoc,or_assoc] at hbad
      exact hbad

theorem ordered_iff : Ordered w window ↔
    (∀ a ∈ window, (createdKeys [a]).Nodup ∧ (spentKeys [a]).Nodup) ∧
      ¬SpendsOutOfOrder w window := by
  induction window generalizing w with
  | nil =>
    refine iff_of_true trivial ⟨by simp,?_⟩
    rintro ⟨before,a,after,heq,-⟩
    cases before <;> cases heq
  | cons block blocks ih =>
    unfold Ordered
    rw [ih,spendsOutOfOrder_cons,List.forall_mem_cons]
    have hoff : (∀ k ∈ externalCoreSpendKeys [block], w.Created k ∧ ¬w.Spent k) ↔
        ¬∃ k ∈ externalCoreSpendKeys [block], ¬w.Created k ∨ w.Spent k := by
      push Not
      rfl
    rw [hoff,not_or]
    constructor
    · rintro ⟨⟨hc,hs,hno⟩,hown,hlater⟩
      exact ⟨⟨⟨hc,hs⟩,hown⟩,hno,hlater⟩
    · rintro ⟨⟨⟨hc,hs⟩,hown⟩,hno,hlater⟩
      exact ⟨⟨hc,hs,hno⟩,hown,hlater⟩

theorem outside_of_inOrder (h : ¬SpendsOutOfOrder w window) :
    ∀ k ∈ externalCoreSpendKeys window, w.Created k ∧ ¬w.Spent k := by
  intro k hk
  obtain ⟨hspent,hcreated⟩ := mem_externalCoreSpendKeys.mp hk
  obtain ⟨s,hs,rfl⟩ := List.mem_map.mp hspent
  obtain ⟨a,ha,hin⟩ := List.mem_flatMap.mp hs
  obtain ⟨before,after,rfl⟩ := List.append_of_mem ha
  have hbefore : s.outputKey ∉ createdKeys before := by
    intro hmem
    refine hcreated ?_
    rw [List.flatMap_append,List.map_append]
    exact List.mem_append_left _ hmem
  have hown : s.outputKey ∈ externalCoreSpendKeys [a] := by
    refine mem_externalCoreSpendKeys.mpr ⟨?_,fun hmem => hcreated ?_⟩
    · simpa using ⟨s,hin,rfl⟩
    · rw [List.flatMap_append,List.map_append,List.flatMap_cons,List.map_append]
      exact List.mem_append_right _ (List.mem_append_left _ (by simpa using hmem))
  constructor
  · by_contra hnot
    exact h ⟨before,a,after,rfl,_,hown,Or.inl (by tauto)⟩
  · exact fun hspent => h ⟨before,a,after,rfl,_,hown,Or.inr (Or.inl hspent)⟩

/-- The window checks decide as the checks block by block exactly when, in a window that both
ways could accept, two blocks share a key just where a spend is out of order. -/
theorem window_checks_agree_iff (hval : shouldValidateCorePrevouts context)
    (hrows : RowsBelow w next) (hb : BlocksFrom next window) :
    (AcceptsWindow context w window ↔ AcceptsBlocks context w window) ↔
      (SoundBlocks w window → (RepeatsKey window ↔ SpendsOutOfOrder w window)) := by
  have hwindow : AcceptsWindow context w window ↔ SoundBlocks w window ∧ ¬RepeatsKey window := by
    rw [acceptsWindow_iff hval hrows hb,windowKeys_nodup]
    constructor
    · rintro ⟨⟨hchain,hown,hno⟩,hfollows,hout⟩
      exact ⟨⟨hfollows,hchain,hown,hout⟩,hno⟩
    · rintro ⟨⟨hfollows,hchain,hown,hout⟩,hno⟩
      exact ⟨⟨hchain,hown,hno⟩,hfollows,hout⟩
  have hblocks : AcceptsBlocks context w window ↔
      SoundBlocks w window ∧ ¬SpendsOutOfOrder w window := by
    rw [acceptsBlocks_iff hval hrows hb,ordered_iff]
    constructor
    · rintro ⟨⟨hfollows,hchain⟩,hown,hno⟩
      exact ⟨⟨hfollows,hchain,hown,outside_of_inOrder hno⟩,hno⟩
    · rintro ⟨⟨hfollows,hchain,hown,-⟩,hno⟩
      exact ⟨⟨hfollows,hchain⟩,hown,hno⟩
  rw [hwindow,hblocks]
  tauto

end Checks

/-- Block 0 spends the output that block 1 creates. -/
def earlySpendWindow : CoreWindow :=
  [⟨0,"h0",none,0,1,[],[⟨⟨"late",0⟩,"early",0,0⟩]⟩,
    ⟨1,"h1",some "h0",0,1,
      [⟨⟨"late",0⟩,1,"h1",0,"late",0,0,"A","pubkeyhash",100,true,true,none⟩],[]⟩]

/-- The window is accepted, although its first block alone is not. -/
theorem early_spend_accepted :
    AcceptsWindow ⟨some false,none⟩ emptyWarehouse earlySpendWindow ∧
      ¬AcceptsBlocks ⟨some false,none⟩ emptyWarehouse earlySpendWindow := by
  refine ⟨by decide,fun h => ?_⟩
  exact absurd h.1 (by decide)

/-- The exact condition at the same window, where both sides are false. -/
theorem window_checks_agree_iff_earlySpend :
    (AcceptsWindow ⟨some false,none⟩ emptyWarehouse earlySpendWindow ↔
        AcceptsBlocks ⟨some false,none⟩ emptyWarehouse earlySpendWindow) ↔
      (SoundBlocks emptyWarehouse earlySpendWindow →
        (RepeatsKey earlySpendWindow ↔ SpendsOutOfOrder emptyWarehouse earlySpendWindow)) :=
  @window_checks_agree_iff ⟨some false,none⟩ emptyWarehouse earlySpendWindow 0 rfl
    ⟨rfl,by simp [emptyWarehouse]⟩ ⟨by decide,by decide⟩

end OnlyDoge
