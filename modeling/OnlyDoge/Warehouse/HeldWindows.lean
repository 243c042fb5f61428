import OnlyDoge.Warehouse.PlacedRows
import OnlyDoge.Warehouse.MutationLedger
set_option autoImplicit false

/-!
A window that ends leaves the rows of each processed block once, and the rows that it adds are
those of its blocks with the previous outputs at hand.
-/

namespace OnlyDoge
open Job

def BlocksAt (start : Nat) (blocks : List ParsedDogecoinBlock) : Prop :=
  blocks.map (·.height) = List.range' start blocks.length

section Prevouts
variable {O : ProjectionUtxoOutput → Prop} {blocks : List ParsedDogecoinBlock}

variable (O) in
/-- An output for each spend of the blocks that none of them creates, each of them created as `O`
says. -/
structure Resolves (blocks : List ParsedDogecoinBlock) (prevouts : OutputMap) : Prop where
  held : ∀ key output, prevouts.get key = some output → output.outputKey = key ∧ O output.created
  complete : ∀ block ∈ blocks, ∀ spend ∈ blockSpends block,
    spend.outputKey ∈ (blocks.flatMap blockCreates).map (·.outputKey) ∨
      (prevouts.get spend.outputKey).isSome

variable (O) in
/-- A window that leaves the current state alone loads no previous outputs. -/
def PrevoutsFor (updatesCurrentState : Bool) (blocks : List ParsedDogecoinBlock)
    (prevouts : OutputMap) : Prop :=
  if updatesCurrentState then Resolves O blocks prevouts else prevouts = .empty

variable (O) in
/-- The maps of the applied block are those of the window. -/
structure AppliedBlock.WrittenWith (updatesCurrentState : Bool) (window : List ParsedDogecoinBlock)
    (a : AppliedBlock) : Prop where
  mem : a.block ∈ window
  heights : ∃ start, BlocksAt start window
  created : a.createdOutputs = coreCreatedOutputsByKey (window.map coreBlockApplication)
  prevouts : PrevoutsFor O updatesCurrentState window a.prevouts

theorem complete_of_mutations {prevouts : OutputMap} {mutation : CoreCurrentStateMutation}
    (h : applyCoreCurrentStateMutations (blocks.map coreBlockApplication) prevouts = .ok mutation)
    {block : ParsedDogecoinBlock} (hblock : block ∈ blocks) {spend : CoreDogecoinSpend}
    (hspend : spend ∈ blockSpends block) :
    spend.outputKey ∈ (blocks.flatMap blockCreates).map (·.outputKey) ∨
      (prevouts.get spend.outputKey).isSome := by
  by_contra hnot
  obtain ⟨hcreated,hnone⟩ := not_or.mp hnot
  rw [Option.not_isSome_iff_eq_none] at hnone
  rw [← coreBlockApplication_creates] at hcreated
  have hunspent := (mutations_untouched hnone hcreated rfl h).1
  rw [coreBlockApplication_spends] at hunspent
  exact hunspent (List.mem_map_of_mem (List.mem_flatMap.mpr ⟨block,hblock,hspend⟩))

end Prevouts

section Window
variable {R : TransactionRef → Prop} {O : ProjectionUtxoOutput → Prop}
variable {w t : Warehouse} {rows : CoreFactTables} {blocks : List ParsedDogecoinBlock}
variable {boundaries : Warehouse → List String} {context : CoreDogecoinApplyContext}

theorem prevoutsFor_of_currentState {cs : Option CoreCurrentStateWindow} (hplaced : Placed R O w)
    (h : coreWindowCurrentState (blocks.map coreBlockApplication) context
      (coreWindowPrevouts (blocks.map coreBlockApplication) context w) w = .ok cs) :
    PrevoutsFor O (shouldUpdateCoreCurrentState context) blocks
      (coreWindowPrevouts (blocks.map coreBlockApplication) context w) := by
  unfold PrevoutsFor
  cases hup : shouldUpdateCoreCurrentState context with
  | false =>
    simp only [coreWindowPrevouts,hup,Bool.false_eq_true,if_false]
  | true =>
    simp only [if_true]
    refine ⟨fun key output hget => ?_,fun block hblock spend hspend => ?_⟩
    · simp only [coreWindowPrevouts,hup,if_true] at hget
      obtain ⟨k,-,hk⟩ := List.mem_filterMap.mp (OrderedMap.get_ofEntries_of_mem hget)
      obtain ⟨row,hrow,hentry⟩ := Option.map_eq_some_iff.mp hk
      cases hentry
      obtain ⟨hmem,hkey,-⟩ := Replacing.latest_spec hrow
      exact ⟨hkey,hplaced.current row hmem⟩
    · unfold coreWindowCurrentState at h
      rw [hup] at h
      cases hlast : (blocks.map coreBlockApplication).getLast? with
      | none =>
        rw [List.getLast?_eq_none_iff] at hlast
        rw [List.map_eq_nil_iff.mp hlast] at hblock
        cases hblock
      | some last =>
        rw [hlast] at h
        obtain ⟨window,hwindow,-⟩ := map_eq_ok h
        obtain ⟨mutation,hmutation,-⟩ := bind_eq_ok.mp hwindow
        exact complete_of_mutations hmutation hblock hspend

variable (R O rows) in
/-- The facts before a window, in a warehouse whose outputs were created as `O` says. -/
structure HoldsFacts (w : Warehouse) : Prop where
  facts : HasFactTables rows w
  placed : Placed R O w

variable (O rows) in
/-- The facts after it. -/
def WindowAdded (updatesCurrentState : Bool) (blocks : List ParsedDogecoinBlock) (t : Warehouse) :
    Prop :=
  ∃ prevouts, PrevoutsFor O updatesCurrentState blocks prevouts ∧
    HasFactTables (rows.append (appliedFacts (windowBlocks blocks prevouts))) t

theorem wp_insertPendingCoreWindow_held (hw : HoldsFacts R O rows w) :
    wp (insertPendingCoreWindow (blocks.map coreBlockApplication) context)
      (fun _ => WindowAdded O rows (shouldUpdateCoreCurrentState context) blocks)
      (FailsWith (fun _ => HoldsFacts R O rows)) Anywhere w := by
  refine wp_insertPendingCoreWindow (fun cs hcs => ?_) (fun _ _ => hw)
  refine ⟨coreWindowPrevouts (blocks.map coreBlockApplication) context w,
    prevoutsFor_of_currentState hw.placed hcs,?_⟩
  have hw := hw.facts
  unfold HasFactTables at *
  rw [facts_addWindow,hw]

/-- The repair of a window that missed a previous output adds no fact row of its own. -/
theorem wp_insertPendingCoreWindowWithRecovery_held (hw : HoldsFacts R O rows w)
    (hbelow : ∀ first ∈ blocks.head?, rows.below first.height = rows) :
    wp (insertPendingCoreWindowWithRecovery (blocks.map coreBlockApplication) context)
      (fun _ => WindowAdded O rows (shouldUpdateCoreCurrentState context) blocks)
      Fails Anywhere w := by
  have hfails {α : Type} {m : WarehouseJob α} {Q : α → Warehouse → Prop} {t : Warehouse}
      (h : wp m Q (FailsWith (fun _ => HoldsFacts R O rows)) Anywhere t) :
      wp m Q Fails Anywhere t :=
    wp_mono h (fun _ _ h => h) (fun e _ _ => by cases e <;> trivial) (fun _ h => h)
  refine wp_catchThrown (wp_mono (wp_insertPendingCoreWindow_held hw) (fun _ _ h => h) ?_
    (fun _ h => h))
  intro e t ht
  cases e with
  | fault => trivial
  | thrown e => cases e with
    | error message => exact wp_throw trivial
    | missingCoreCurrentPrevout key =>
      have ht : HoldsFacts R O rows t := ht
      refine wp_ite (fun _ => ?_) (fun _ => wp_throw trivial)
      have hcut : wp (cleanFailedCoreWindowFacts (blocks.map coreBlockApplication))
          (fun _ => HasFactTables rows) Fails Anywhere t := by
        unfold cleanFailedCoreWindowFacts
        cases hblocks : blocks with
        | nil => exact wp_pure ht.facts
        | cons first rest =>
          refine wp_deleteCoreDogecoinTail ?_ (fun _ _ _ => ⟨trivial,trivial⟩)
          have hcut := hbelow first (by rw [hblocks]; rfl)
          have hfacts := ht.facts
          unfold HasFactTables at *
          rw [facts_cutTail,Warehouse.factsBelow,hfacts]
          exact hcut
      have hclean : wp (cleanFailedCoreWindowFacts (blocks.map coreBlockApplication))
          (fun _ => HoldsFacts R O rows) Fails Anywhere t :=
        wp_mono (wp_and hcut (keeps_cleanFailedCoreWindowFacts_placed _ t ht.placed))
          (fun _ _ h => ⟨h.1,h.2⟩) (fun _ _ h => h.1) (fun _ h => h.1)
      have hrepair (u : Warehouse) (hu : HoldsFacts R O rows u) :
          wp (repairMissingCoreCurrentPrevouts (blocks.map coreBlockApplication))
            (fun _ => HoldsFacts R O rows) Fails Anywhere u := by
        refine wp_mono (wp_and
          (keeps_repairMissingCoreCurrentPrevouts aboutFacts_hasFactTables _ u hu.facts)
          (keeps_repairMissingCoreCurrentPrevouts_placed u hu.placed)) (fun _ _ h => ⟨h.1,h.2⟩)
          (fun e _ _ => ?_) (fun _ _ => trivial)
        cases e <;> trivial
      refine wp_bind (wp_mono (wp_bind (wp_mono hclean (fun _ => hrepair) (fun _ _ h => h)
        (fun _ h => h))) ?_ (fun _ _ h => h) (fun _ h => h))
      intro _ u hu
      refine wp_onFailure (wp_mono (hfails (wp_insertPendingCoreWindow_held hu)) (fun _ _ h => h)
        ?_ (fun _ h => h))
      intro e v _
      exact wp_mono (wp_true _) (fun _ _ _ => by cases e <;> trivial)
        (fun e' _ _ => by cases e' <;> trivial) (fun _ h => h)

variable (O) in
/-- What a window of blocks leaves that starts at or below the end of the applied blocks. -/
structure WindowHeld (updatesCurrentState : Bool) (applied : List AppliedBlock) (start : Nat)
    (blocks : List ParsedDogecoinBlock) (result : CoreDogecoinApplyResult)
    (after : List AppliedBlock) (t : Warehouse) : Prop where
  facts : t.facts = appliedFacts after
  genesis : FromGenesis after
  covers : start + blocks.length ≤ after.length
  tail : blocks ≠ [] → result.processTail + 1 = ((start + blocks.length : Nat) : Int)
  written : ∀ a ∈ after, a ∈ applied ∨
    ∃ window, window ⊆ blocks ∧ a.WrittenWith O updatesCurrentState window

variable {applied : List AppliedBlock} {start : Nat} {updatesCurrentState : Bool}

theorem blocksAt_contiguous (h : BlocksAt start blocks) :
    ContiguousFrom start (blocks.map coreBlockApplication) := by
  unfold ContiguousFrom BlocksAt at *
  rw [List.map_map,List.length_map,← h]
  rfl

theorem blocksAt_mem (h : BlocksAt start blocks) {block : ParsedDogecoinBlock}
    (hb : block ∈ blocks) : start ≤ block.height ∧ block.height < start + blocks.length := by
  have hmem : block.height ∈ blocks.map (·.height) := List.mem_map_of_mem hb
  rw [h,List.mem_range'_1] at hmem
  exact hmem

theorem blocksAt_exists (h : BlocksAt start blocks) {height : Nat} (hle : start ≤ height)
    (hlt : height < start + blocks.length) : ∃ block ∈ blocks, block.height = height := by
  have hmem : height ∈ blocks.map (·.height) := by
    rw [h,List.mem_range'_1]
    exact ⟨hle,hlt⟩
  exact List.mem_map.mp hmem

theorem processedBelow_of_facts (hw : w.facts = appliedFacts applied) (hg : FromGenesis applied) :
    ProcessedBelow w applied.length := by
  have hprocessed : w.coreProcessedBlocks = (appliedFacts applied).processed :=
    congrArg CoreFactTables.processed hw
  unfold ProcessedBelow
  rw [hprocessed,appliedFacts_heights]
  exact hg

theorem coreWindowEnd_blocksAt (h : BlocksAt start blocks) (hne : blocks ≠ []) :
    coreWindowEnd (blocks.map coreBlockApplication) + 1 =
      ((start + blocks.length : Nat) : Int) := by
  obtain ⟨init,last,rfl⟩ := List.eq_nil_or_concat blocks |>.resolve_left hne
  unfold BlocksAt at h
  rw [List.concat_eq_append,List.map_append,List.length_append,List.length_singleton,
    List.range'_concat] at h
  have hlast : last.height = start + init.length := by
    have := (List.append_inj' h rfl).2
    simpa using this
  unfold coreWindowEnd
  rw [List.concat_eq_append,List.map_append,List.map_cons,List.map_nil,List.getLast?_concat,
    List.length_append,List.length_singleton]
  simp only [coreBlockApplication]
  omega

/-- The blocks of a window from its first mismatch on, or from the end of the rows on. -/
def Warehouse.newOf (w : Warehouse) (blocks : List ParsedDogecoinBlock) :
    List ParsedDogecoinBlock :=
  blocks.filter (fun block => w.keptBelow (blocks.map coreBlockApplication) ≤ block.height)

theorem newBlocks_eq (w : Warehouse) (blocks : List ParsedDogecoinBlock) :
    w.newBlocks (blocks.map coreBlockApplication) = (w.newOf blocks).map coreBlockApplication := by
  unfold Warehouse.newBlocks Warehouse.newOf
  rw [List.filter_map]
  rfl

section Held
variable (hw : w.facts = appliedFacts applied) (hg : FromGenesis applied)
variable (hb : BlocksAt start blocks) (hstart : start ≤ applied.length)
include hw hg hb hstart

theorem start_le_kept : start ≤ w.keptBelow (blocks.map coreBlockApplication) := by
  have hbelow := processedBelow_of_facts hw hg
  have hlength : (applied.map (fun a => coreBlockApplication a.block)).length = applied.length :=
    List.length_map _
  rw [← hlength] at hbelow hstart
  exact start_le_keptBelow hbelow hstart (blocksAt_contiguous hb)

theorem newOf_blocksAt :
    BlocksAt (w.keptBelow (blocks.map coreBlockApplication)) (w.newOf blocks) := by
  have hnew := newBlocks_contiguous (w := w) (blocksAt_contiguous hb)
  rw [Nat.max_eq_right (start_le_kept hw hg hb hstart),newBlocks_eq] at hnew
  unfold ContiguousFrom at hnew
  rw [List.map_map,List.length_map] at hnew
  exact hnew

theorem newOf_end (hne : w.newOf blocks ≠ []) :
    w.keptBelow (blocks.map coreBlockApplication) + (w.newOf blocks).length =
      start + blocks.length := by
  have hnew := newOf_blocksAt hw hg hb hstart
  have hlength := List.length_pos_iff.mpr hne
  generalize hkept : w.keptBelow (blocks.map coreBlockApplication) = kept at hnew
  have hin {block : ParsedDogecoinBlock} : block ∈ w.newOf blocks ↔
      block ∈ blocks ∧ kept ≤ block.height := by
    unfold Warehouse.newOf
    rw [hkept,List.mem_filter,decide_eq_true_eq]
  obtain ⟨first,hfirst,hfirstHeight⟩ := blocksAt_exists hnew (Nat.le_refl _) (by omega)
  have hfirstBlock := blocksAt_mem hb (hin.mp hfirst).1
  -- the last block of the window is new, and the last new block is in the window
  obtain ⟨last,hlast,hlastHeight⟩ := @blocksAt_exists _ start hb (start + blocks.length - 1)
    (by omega) (by omega)
  have hlastNew := (blocksAt_mem hnew (hin.mpr ⟨hlast,by omega⟩)).2
  obtain ⟨top,htop,htopHeight⟩ := @blocksAt_exists _ kept hnew
    (kept + (w.newOf blocks).length - 1) (by omega) (by omega)
  have htopBlock := (blocksAt_mem hb (hin.mp htop).1).2
  omega

theorem windowHeld_of_nothing_new (hnew : w.newOf blocks = []) :
    WindowHeld O updatesCurrentState applied start blocks
      ⟨false,coreWindowEnd (blocks.map coreBlockApplication)⟩ applied w := by
  have hbelow := processedBelow_of_facts hw hg
  have hkept {block : ParsedDogecoinBlock} (hblock : block ∈ blocks) :
      block.height < w.keptBelow (blocks.map coreBlockApplication) := by
    by_contra hle
    have hmem : block ∈ w.newOf blocks :=
      List.mem_filter.mpr ⟨hblock,decide_eq_true (Nat.not_lt.mp hle)⟩
    rw [hnew] at hmem
    cases hmem
  refine ⟨hw,hg,?_,fun hne => coreWindowEnd_blocksAt hb hne,fun a ha => Or.inl ha⟩
  by_contra hlt
  obtain ⟨last,hlast,hlastHeight⟩ := @blocksAt_exists _ start hb (start + blocks.length - 1)
    (by omega) (by omega)
  have := hkept hlast
  have : w.keptBelow (blocks.map coreBlockApplication) ≤ applied.length := keptBelow_le hbelow
  omega

theorem windowHeld_of_new (hne : w.newOf blocks ≠ []) {prevouts : OutputMap} {t : Warehouse}
    (hprevouts : PrevoutsFor O updatesCurrentState (w.newOf blocks) prevouts)
    (ht : t.facts = (w.factsBelow (w.keptBelow (blocks.map coreBlockApplication))).append
      (appliedFacts (windowBlocks (w.newOf blocks) prevouts))) :
    WindowHeld O updatesCurrentState applied start blocks
      ⟨true,coreWindowEnd ((w.newOf blocks).map coreBlockApplication)⟩
      (applied.take (w.keptBelow (blocks.map coreBlockApplication)) ++
        windowBlocks (w.newOf blocks) prevouts) t := by
  have hbelow := processedBelow_of_facts hw hg
  have hnew := newOf_blocksAt hw hg hb hstart
  have hend := newOf_end hw hg hb hstart hne
  have hle : w.keptBelow (blocks.map coreBlockApplication) ≤ applied.length := keptBelow_le hbelow
  have hlast := coreWindowEnd_blocksAt hnew hne
  have hmem {block : ParsedDogecoinBlock} (h : block ∈ w.newOf blocks) : block ∈ blocks :=
    (List.mem_filter.mp h).1
  generalize hkept : w.keptBelow (blocks.map coreBlockApplication) = kept at *
  have hlength : (windowBlocks (w.newOf blocks) prevouts).length = (w.newOf blocks).length :=
    List.length_map _
  have htake : (applied.take kept).length = kept := by
    rw [List.length_take]
    exact Nat.min_eq_left hle
  refine ⟨?_,?_,?_,fun _ => ?_,?_⟩
  · rw [ht,appliedFacts_append,Warehouse.factsBelow,hw,below_appliedFacts,fromGenesis_filter hg]
  · refine fromGenesis_append (fromGenesis_take hg kept) ?_
    rw [windowBlocks_heights,hlength,htake]
    exact hnew
  · rw [List.length_append,htake,hlength]
    omega
  · rw [hlast,hend]
  · intro a ha
    rcases List.mem_append.mp ha with ha | ha
    · exact Or.inl (List.mem_of_mem_take ha)
    · obtain ⟨block,hblock,rfl⟩ := List.mem_map.mp ha
      exact Or.inr ⟨w.newOf blocks,fun _ h => hmem h,hblock,⟨_,hnew⟩,rfl,hprevouts⟩

/-- A window that ends leaves each processed block's rows once, up to the end of the window. -/
theorem wp_applyCoreDogecoinWindow_held (hplaced : Placed R O w) :
    wp (applyCoreDogecoinWindow boundaries (blocks.map coreBlockApplication) context)
      (fun result t => ∃ after, WindowHeld O
        (shouldUpdateCoreCurrentState context) applied start blocks result after t)
      Fails Anywhere w := by
  have hbelow := processedBelow_of_facts hw hg
  have hnothing (hnew : w.newOf blocks = []) : WindowHeld O (shouldUpdateCoreCurrentState context)
      applied start blocks ⟨false,coreWindowEnd (blocks.map coreBlockApplication)⟩ applied w :=
    windowHeld_of_nothing_new hw hg hb hstart hnew
  have hinsert {t : Warehouse} (hne : w.newOf blocks ≠ [])
      (ht : HoldsFacts R O (w.factsBelow (w.keptBelow (blocks.map coreBlockApplication))) t) :
      wp (do
          validatePendingCoreWindow ((w.newOf blocks).map coreBlockApplication) context
          insertPendingCoreWindowWithRecovery ((w.newOf blocks).map coreBlockApplication) context
          return ⟨true,coreWindowEnd ((w.newOf blocks).map coreBlockApplication)⟩)
        (fun result t => ∃ after, WindowHeld O
        (shouldUpdateCoreCurrentState context) applied start blocks result after t)
        Fails Anywhere t := by
    refine wp_bind (wp_mono (keeps_validatePendingCoreWindow (I := HoldsFacts R O (w.factsBelow
      (w.keptBelow (blocks.map coreBlockApplication)))) _ _ t ht) ?_
      (fun e _ _ => by cases e <;> trivial) (fun _ _ => trivial))
    intro _ u hu
    refine wp_bind (wp_mono (wp_insertPendingCoreWindowWithRecovery_held hu ?_) ?_
      (fun _ _ h => h) (fun _ h => h))
    · intro first hfirst
      have hheight := (blocksAt_mem (newOf_blocksAt hw hg hb hstart)
        (List.mem_of_mem_head? hfirst)).1
      unfold Warehouse.factsBelow
      rw [hw,below_appliedFacts,fromGenesis_filter hg]
      refine below_of_fromGenesis (fromGenesis_take hg _) ?_
      rw [List.length_take]
      omega
    · rintro _ v ⟨prevouts,hprevouts,hv⟩
      exact wp_pure ⟨_,windowHeld_of_new hw hg hb hstart hne hprevouts hv⟩
  refine wp_ite (fun hnil => wp_pure ?_) (fun _ => ?_)
  · have hblocks : blocks = [] := List.map_eq_nil_iff.mp hnil
    subst hblocks
    exact ⟨applied,hnothing rfl⟩
  · refine wp_bind (wp_bind (wp_read ?_ trivial trivial))
    cases hm : firstCoreReorgHeight (blocks.map coreBlockApplication)
        (w.getCoreProcessedBlocks ((blocks.map coreBlockApplication).map (·.blockHeight))) with
    | some height =>
      have hkept : w.keptBelow (blocks.map coreBlockApplication) = height := by
        unfold Warehouse.keptBelow Warehouse.firstMismatch
        rw [hm,Option.getD_some]
      have hne : w.newOf blocks ≠ [] := by
        have hne := newBlocks_ne_nil_of_mismatch (show w.firstMismatch _ = some height from hm)
        rw [newBlocks_eq] at hne
        exact fun h => hne (by rw [h]; rfl)
      have hnew : (blocks.map coreBlockApplication).filter (fun a => height ≤ a.blockHeight) =
          (w.newOf blocks).map coreBlockApplication := by
        rw [← newBlocks_eq,Warehouse.newBlocks,hkept]
      simp only
      refine wp_bind (wp_mono (wp_and (wp_rewindCoreDogecoinWindow (Q := fun _ t =>
        t.facts = w.factsBelow height) (facts_rewound _ _ _ _))
        (keeps_recoverCoreDogecoinWindow_placed height context w hplaced)) ?_
        (fun e _ _ => by cases e <;> trivial) (fun _ h => h.1))
      rintro _ t ⟨ht,htplaced⟩
      refine wp_pure ?_
      rw [hnew]
      refine wp_ite (fun hnil => absurd (List.map_eq_nil_iff.mp hnil) hne) (fun _ => ?_)
      exact hinsert hne ⟨by rw [hkept]; exact ht,htplaced⟩
    | none =>
      simp only [filterPending_newBlocks hbelow hm]
      refine wp_pure ?_
      rw [newBlocks_eq]
      refine wp_ite (fun hnil => wp_pure ⟨applied,hnothing (List.map_eq_nil_iff.mp hnil)⟩)
        (fun hne => hinsert (fun h => hne (by rw [h]; rfl)) ⟨?_,hplaced⟩)
      have hkept : w.keptBelow (blocks.map coreBlockApplication) = applied.length := by
        unfold Warehouse.keptBelow Warehouse.firstMismatch
        rw [hm,Option.getD_none,processedBelow_length hbelow]
      unfold HasFactTables
      rw [hkept,Warehouse.factsBelow,hw,below_of_fromGenesis hg (Nat.le_refl _)]

end Held

end Window

end OnlyDoge
