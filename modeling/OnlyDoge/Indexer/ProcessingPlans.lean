import OnlyDoge.Indexer.OnlineRows
import OnlyDoge.Indexer.ProcessedTail
set_option autoImplicit false

/-!
The windows that an iteration plans: a backfill window begins right above the recorded tail and
is never empty, an online window covers the reorg window up to its target, and the tail that a
backfill window publishes is the last height it loaded.
-/

namespace OnlyDoge.CoreIndexer
open Job

theorem range_eq {start stop : Int} (hle : start ≤ stop) :
    ∃ count : Nat, 1 ≤ count ∧ start + count = stop + 1 ∧
      range start stop = List.range' start.toNat count := by
  refine ⟨(stop + 1 - start).toNat,?_,?_,rfl⟩ <;> omega

theorem take_range'_count {start count : Nat} (k : Nat) :
    (List.range' start count).take k = List.range' start (min k count) := by
  rcases Nat.le_total k count with hle | hle
  · rw [List.take_range'_of_length_ge hle,Nat.min_eq_left hle]
  · rw [List.take_range'_of_length_le hle,Nat.min_eq_right hle]

/-- Inputs and outputs of a block. -/
def coreSnapshotRowCount (snapshot : ParsedDogecoinBlock) : Nat :=
  snapshot.tx.foldl (fun rows transaction => rows + (transaction.vin.length +
    transaction.vout.length)) 0

/-- The loop of `fillBackfillWindow` over the snapshots of the window's heights, each with the
time after it was read; `none` stands for no row target. -/
def fillSnapshots (targetRows : Option Nat) (fillDeadline : Nat) :
    Nat → List (ParsedDogecoinBlock × Nat) → List ParsedDogecoinBlock
  | _,[] => []
  | rows,(snapshot,now)::rest =>
    let rows := rows + coreSnapshotRowCount snapshot
    if targetRows.any (· ≤ rows) ∨ fillDeadline ≤ now then [snapshot]
    else snapshot::fillSnapshots targetRows fillDeadline rows rest

theorem fillSnapshots_eq_take (targetRows : Option Nat) (fillDeadline rows : Nat)
    (answers : List (ParsedDogecoinBlock × Nat)) :
    ∃ k, 1 ≤ k ∧ fillSnapshots targetRows fillDeadline rows answers =
      (answers.map Prod.fst).take k := by
  induction answers generalizing rows with
  | nil => exact ⟨1,Nat.le_refl _,rfl⟩
  | cons answer rest ih =>
    obtain ⟨snapshot,now⟩ := answer
    obtain ⟨k,-,hrest⟩ := ih (rows + coreSnapshotRowCount snapshot)
    unfold fillSnapshots
    by_cases hfull : targetRows.any (· ≤ rows + coreSnapshotRowCount snapshot) ∨
        fillDeadline ≤ now
    · exact ⟨1,Nat.le_refl _,by simp [hfull]⟩
    · refine ⟨k + 1,by omega,?_⟩
      simp only [hfull,if_false,hrest,List.map_cons,List.take_succ_cons]

/-- What a backfill window is planned to do. -/
structure PlansBackfill (settings : CoreDogecoinIndexerSettings) (latest : Int)
    (state : CoreIndexerState) (plan : CoreWindowPlan) : Prop where
  first : plan.firstHeight = state.processTail + 1
  nonempty : plan.firstHeight ≤ plan.lastHeight
  ahead : plan.lastHeight ≤ plan.readAheadLimit
  synced : plan.readAheadLimit ≤ state.syncTail
  /-- Heights above the reorg window never come from the node, not even read ahead. -/
  node : settings.coreBackfillBlockSource = some .auto → plan.source = .node →
    plan.readAheadLimit ≤ latest - settings.coreReprocessDepth
  /-- Whatever its row target and deadline, the loop takes a run from the first height on. -/
  fills : ∀ targetRows fillDeadline answers,
    answers.map (·.1.height) = range plan.firstHeight plan.lastHeight →
    ∃ count : Nat, 1 ≤ count ∧ state.processTail + count ≤ plan.lastHeight ∧
      (fillSnapshots targetRows fillDeadline 0 answers).map (·.height) =
        List.range' plan.firstHeight.toNat count

section Backfill
variable {settings : CoreDogecoinIndexerSettings} {input : IterationInput} {latest : Int}
variable {state : CoreIndexerState}

theorem backfillWindowBlocks_pos : 0 < backfillWindowBlocks settings := by
  unfold backfillWindowBlocks
  cases hblocks : settings.coreBackfillWindowBlocks with
  | none => exact settings.processWindow_pos
  | some blocks => exact settings.backfillWindow_pos blocks hblocks

theorem backfillSource_node {firstHeight : Int} {nodeSourceRetryAtMs : Nat}
    (hauto : settings.coreBackfillBlockSource = some .auto)
    (h : backfillSource settings input latest firstHeight nodeSourceRetryAtMs = .node) :
    firstHeight ≤ finalizedNodeHeight latest settings := by
  unfold backfillSource at h
  rw [hauto] at h
  by_cases hretry : input.nowMs < nodeSourceRetryAtMs
  · simp [hretry] at h
  · by_contra hle
    simp [hretry,hle] at h

theorem first_le_readAheadLimit {nodeSourceRetryAtMs : Nat}
    (h : state.processTail < state.syncTail) :
    state.processTail + 1 ≤ backfillReadAheadLimit (backfillSource settings input latest
      (state.processTail + 1) nodeSourceRetryAtMs) latest state.syncTail settings := by
  unfold backfillReadAheadLimit
  by_cases hnode : backfillSource settings input latest (state.processTail + 1)
      nodeSourceRetryAtMs = .node ∧ settings.coreBackfillBlockSource = some .auto
  · rw [if_pos hnode]
    have hle := backfillSource_node hnode.2 hnode.1
    omega
  · rw [if_neg hnode]
    omega

theorem backfillReadAheadLimit_le (source : CoreWindowSource) (latest syncTail : Int) :
    backfillReadAheadLimit source latest syncTail settings ≤ syncTail := by
  unfold backfillReadAheadLimit
  split <;> omega

theorem plansBackfill_planBackfillWindow (nodeSourceRetryAtMs : Nat)
    (h : state.processTail < state.syncTail) :
    PlansBackfill settings latest state
      (planBackfillWindow settings input latest state nodeSourceRetryAtMs) := by
  let plan := planBackfillWindow settings input latest state nodeSourceRetryAtMs
  have hfirst : plan.firstHeight = state.processTail + 1 := rfl
  have hlast : plan.lastHeight =
      min plan.readAheadLimit (state.processTail + backfillWindowBlocks settings) := rfl
  have hlimit : state.processTail + 1 ≤ plan.readAheadLimit := first_le_readAheadLimit h
  have hblocks := @backfillWindowBlocks_pos settings
  have hne : plan.firstHeight ≤ plan.lastHeight := by omega
  refine ⟨hfirst,hne,by change plan.lastHeight ≤ plan.readAheadLimit; omega,
    backfillReadAheadLimit_le _ _ _,fun hauto hnode =>
      ?_,fun targetRows fillDeadline answers ha => ?_⟩
  · change backfillReadAheadLimit plan.source latest state.syncTail settings ≤ _
    rw [show plan.source = .node from hnode]
    unfold backfillReadAheadLimit finalizedNodeHeight
    rw [if_pos ⟨rfl,hauto⟩]
    omega
  · obtain ⟨count,hcount,hstop,hrange⟩ := range_eq hne
    obtain ⟨k,hk,htake⟩ := fillSnapshots_eq_take targetRows fillDeadline 0 answers
    refine ⟨min k count,by omega,?_,?_⟩
    · change state.processTail + (min k count : Nat) ≤ plan.lastHeight
      omega
    · have hheights : answers.map (fun answer => answer.1.height) =
          List.range' plan.firstHeight.toNat count := ha.trans hrange
      rw [htake,List.map_take,List.map_map]
      exact (congrArg (List.take k) hheights).trans (take_range'_count k)

end Backfill

/-- What an online window is planned to do: one run of heights that covers the last ones up to
the tail, or up to a target below it. -/
structure PlansOnline (settings : CoreDogecoinIndexerSettings) (latest : Int)
    (state : CoreIndexerState) (heights : List Nat) : Prop where
  run : ∃ start count : Nat, heights = List.range' start count ∧ 1 ≤ count ∧
    (start : Int) ≤ state.processTail + 1 ∧
    (start : Int) + count - 1 = min (min state.syncTail latest)
      (state.processTail + settings.coreProcessWindow)
  recent : ∀ height : Nat,
    min state.processTail (min state.syncTail latest) - settings.coreReprocessDepth < height →
    height ≤ min state.processTail (min state.syncTail latest) → height ∈ heights
  synced : ∀ height ∈ heights, (height : Int) ≤ state.syncTail

theorem plansOnline_onlineProcessHeights {settings : CoreDogecoinIndexerSettings} {latest : Int}
    {state : CoreIndexerState} (hmin : -1 ≤ state.processTail)
    (htarget : 0 ≤ min state.syncTail latest) :
    PlansOnline settings latest state (onlineProcessHeights state.processTail
      (min state.syncTail latest) settings.coreReprocessDepth settings.coreProcessWindow) := by
  have hwindow := settings.processWindow_pos
  have hdepth := settings.reprocessDepth_pos
  generalize hsame : min state.syncTail latest = target at *
  unfold onlineProcessHeights
  generalize hstart : onlineProcessWindowStart state.processTail target
    settings.coreReprocessDepth = start
  unfold onlineProcessWindowStart reprocessWindowStart at hstart
  obtain ⟨count,hcount,hstop,hrange⟩ := @range_eq start
    (min target (state.processTail + settings.coreProcessWindow)) (by omega)
  rw [hrange]
  refine ⟨⟨start.toNat,count,rfl,hcount,by omega,by omega⟩,fun height habove hbelow => ?_,
    fun height hheight => ?_⟩
  · rw [List.mem_range'_1]
    omega
  · rw [List.mem_range'_1] at hheight
    omega

section Result
variable {A : AppliedBlock → Prop}
variable {settings : CoreDogecoinIndexerSettings} {input : IterationInput} {s : IndexerStore}
variable {p : Int} {n : Nat} {blocks : List ParsedDogecoinBlock} {start : Nat}

/-- The apply of a window that begins at or below the end of the rows returns its last height. -/
theorem wp_applyWindowApplicationsWithRecovery_tail (h : Running A .processBackfill p n s)
    (hb : BlocksAt start blocks) (hne : blocks ≠ []) (hstart : start ≤ n)
    (updateCurrentState : Bool) :
    wp (applyWindowApplicationsWithRecovery input (blocks.map coreBlockApplication)
        updateCurrentState)
      (fun result _ => result.processTail + 1 = ((start + blocks.length : Nat) : Int))
      (fun _ _ => True) (fun _ => True) s := by
  obtain ⟨applied,hsolid⟩ := h.recoverable.current.solid
  rw [h.clear] at hsolid
  have hn : applied.length = n := hsolid.height.symm.trans h.height
  have hclear (marker : CoreApplyRecoveryMarker) (t : IndexerStore) :
      wp (clearCoreApplyRecoveryMarker marker) (fun _ _ => True) (fun _ _ => True)
        (fun _ => True) t := wp_true _
  have happly (t : IndexerStore) (ht : t.warehouse = s.warehouse) :
      wp (applyWindowApplications input (blocks.map coreBlockApplication) updateCurrentState)
        (fun result _ => result.processTail + 1 = ((start + blocks.length : Nat) : Int))
        (fun _ _ => True) (fun _ => True) t := by
    refine wp_bind (wp_read ?_ trivial trivial)
    have hheld : wp (Job.zoom IndexerStore.warehousePart (applyCoreDogecoinWindow input.boundaries
        (blocks.map coreBlockApplication) ⟨some updateCurrentState,some false⟩))
        (fun result _ => result.processTail + 1 = ((start + blocks.length : Nat) : Int))
        (fun _ _ => True) (fun _ => True) t := by
      have hfacts : t.warehouse.facts = appliedFacts applied :=
        (congrArg Warehouse.facts ht).trans hsolid.facts
      refine wp_zoom (wp_mono (wp_applyCoreDogecoinWindow_held hfacts hsolid.genesis hb
        (hn ▸ hstart) placed_any) ?_ (fun _ _ _ => trivial) (fun _ _ => trivial))
      rintro result w ⟨after,hafter⟩
      exact hafter.tail hne
    exact wp_bind (wp_mono hheld (fun _ _ ht => wp_bind (wp_read (wp_pure ht) trivial trivial))
      (fun _ _ _ => trivial) (fun _ _ => trivial))
  unfold applyWindowApplicationsWithRecovery
  cases hblocks : (blocks.map coreBlockApplication).head? with
  | none => exact happly s rfl
  | some first =>
    refine wp_bind (wp_look (wp_bind (wp_write ?_ trivial trivial trivial)))
    refine wp_bind (wp_mono (happly _ rfl) (fun result t ht => ?_) (fun _ _ _ => trivial)
      (fun _ _ => trivial))
    exact wp_bind (wp_mono (hclear _ t) (fun _ _ _ => wp_pure ht) (fun _ _ _ => trivial)
      (fun _ _ => trivial))

theorem wp_publishWindowProgress_tail {latest : Int} {stage : CoreIndexerStage}
    (result : CoreDogecoinApplyResult) :
    wp (publishWindowProgress settings latest result stage)
      (fun _ t => t.metadata.indexerState.map (·.processTail) = some result.processTail)
      (fun _ _ => True) (fun _ => True) s := by
  refine wp_bind (wp_read ?_ trivial trivial)
  refine wp_bind (wp_bind (wp_upsertCoreIndexerState ?_ trivial trivial trivial))
  refine wp_mono (keeps_publishProgress (J := fun t =>
    t.metadata.indexerState.map (·.processTail) = some result.processTail)
    (fun t _ ht => ht) _ rfl) (fun _ t ht => ?_) (fun _ _ _ => trivial) (fun _ _ => trivial)
  exact wp_bind (wp_read (wp_pure ht) trivial trivial)

theorem wp_processBackfillWindow_tail {latest : Int} {state : CoreIndexerState}
    {currentStateReady : Bool} (h : Running A .processBackfill p n s)
    (hstate : state.processTail = p) (hbehind : state.processTail < state.syncTail) :
    wp (processBackfillWindow settings input latest state currentStateReady)
      (fun _ t => ∃ count : Nat, 1 ≤ count ∧
        (planBackfillWindow settings input latest state
          s.process.nodeSourceRetryAtMs).fillHeights input.fillBlocks =
            List.range' (state.processTail + 1).toNat count ∧
        t.metadata.indexerState.map (·.processTail) = some (state.processTail + count))
      (fun _ _ => True) (fun _ => True) s := by
  refine wp_bind (wp_look ?_)
  have hplan := @plansBackfill_planBackfillWindow settings input latest state
    s.process.nodeSourceRetryAtMs hbehind
  generalize planBackfillWindow settings input latest state s.process.nodeSourceRetryAtMs = plan
    at hplan ⊢
  have hmin := h.tail
  have hle := h.backfill (by simp)
  obtain ⟨count,hcount,-,hrange⟩ := range_eq hplan.nonempty
  have hfilled : plan.fillHeights input.fillBlocks =
      List.range' (state.processTail + 1).toNat (min (max 1 input.fillBlocks) count) := by
    unfold CoreWindowPlan.fillHeights
    rw [hrange,hplan.first]
    exact take_range'_count _
  have hload : wp (loadBackfillSnapshots settings input plan)
      (fun blocks t => Running A .processBackfill p n t ∧
        blocks.map (·.height) = plan.fillHeights input.fillBlocks)
      (fun _ _ => True) (fun _ => True) s :=
    wp_mono (wp_loadBackfillSnapshots (J := Running A .processBackfill p n)
      (fun _ f ht => ht.withProcess f) h plan) (fun _ _ ht => ht) (fun _ _ _ => trivial)
      (fun _ _ => trivial)
  have hwindow : wp (processWindow input (loadBackfillSnapshots settings input plan)
      currentStateReady) (fun result _ => result.processTail =
        state.processTail + (min (max 1 input.fillBlocks) count : Nat))
      (fun _ _ => True) (fun _ => True) s := by
    refine wp_bind (wp_bind (wp_read (wp_bind (wp_mono hload ?_ (fun _ _ _ => trivial)
      (fun _ _ => trivial))) trivial trivial))
    rintro blocks t ⟨ht,hheights⟩
    rw [hfilled] at hheights
    have hlength : blocks.length = min (max 1 input.fillBlocks) count := by
      rw [← List.length_map (f := (·.height)),hheights,List.length_range']
    have hb : BlocksAt (state.processTail + 1).toNat blocks := by
      unfold BlocksAt
      rw [hheights,hlength]
    refine wp_bind (wp_read (wp_pure ?_) trivial trivial)
    refine wp_bind (wp_bind (wp_read (wp_bind (wp_ofExcept (fun applications hbuild => ?_)
      (fun _ _ => trivial))) trivial trivial))
    refine wp_bind (wp_read (wp_pure ?_) trivial trivial)
    obtain ⟨-,-,-,rfl⟩ := buildFastCoreDogecoinBlockApplications_eq_ok.mp hbuild
    refine wp_mono (wp_applyWindowApplicationsWithRecovery_tail ht hb (fun hnil => ?_) (by omega) _)
      (fun result _ htail => ?_) (fun _ _ _ => trivial) (fun _ _ => trivial)
    · rw [hnil,List.length_nil] at hlength
      omega
    · rw [hlength] at htail
      omega
  refine wp_bind (wp_mono hwindow (fun result t ht => ?_) (fun _ _ _ => trivial)
    (fun _ _ => trivial))
  refine wp_bind (wp_mono (wp_publishWindowProgress_tail result) (fun _ u hu => wp_pure ?_)
    (fun _ _ _ => trivial) (fun _ _ => trivial))
  exact ⟨_,by omega,hfilled,by rw [hu,ht]⟩

/-- Processing plans never skip a height: what the windows of any recorded state are, and what a
backfill window of any run, with whatever crashes and restarts before it, makes of the tail. -/
theorem processing_plans (settings : CoreDogecoinIndexerSettings) :
    (∀ (input : IterationInput) (latest : Int) (state : CoreIndexerState)
      (nodeSourceRetryAtMs : Nat), state.processTail < state.syncTail →
      PlansBackfill settings latest state
        (planBackfillWindow settings input latest state nodeSourceRetryAtMs)) ∧
    (∀ (latest : Int) (state : CoreIndexerState), -1 ≤ state.processTail →
      0 ≤ min state.syncTail latest →
      PlansOnline settings latest state (onlineProcessHeights state.processTail
        (min state.syncTail latest) settings.coreReprocessDepth settings.coreProcessWindow)) ∧
    ∀ (steps : List IndexerStep) (instanceId : String) (input : IterationInput)
      (fates rest : List Fate) (latest : Int) (state : CoreIndexerState) (t : IndexerStore),
      (startIteration settings input latest).run
        (afterSteps settings steps (initialStore settings instanceId)) fates =
          (.value state,t,rest) →
      -1 ≤ state.processTail ∧
      (state.stage = .processBackfill → state.processTail < state.syncTail →
        ∀ (currentStateReady didWork : Bool) (fates rest : List Fate) (u : IndexerStore),
        (processBackfillWindow settings input latest state currentStateReady).run t fates =
          (.value didWork,u,rest) →
        ∃ count : Nat, 1 ≤ count ∧
          (planBackfillWindow settings input latest state
            t.process.nodeSourceRetryAtMs).fillHeights input.fillBlocks =
              List.range' (state.processTail + 1).toNat count ∧
          u.metadata.indexerState.map (·.processTail) = some (state.processTail + count)) := by
  refine ⟨fun _ _ _ _ h => plansBackfill_planBackfillWindow _ h,
    fun _ _ hmin htarget => plansOnline_onlineProcessHeights hmin htarget,?_⟩
  intro steps instanceId input fates rest latest state t hrun
  rcases @backed_afterSteps settings steps instanceId with h | h
  · obtain ⟨-,honline,hmin⟩ := value_of_wp (wp_startIteration_onlineOnly h) hrun
    refine ⟨hmin,fun hstage => ?_⟩
    rw [honline] at hstage
    cases hstage
  · have hstarted := value_of_wp (attains_startIteration h) hrun
    have hrunning := hstarted.running
    refine ⟨hrunning.tail,fun hstage hbehind ready didWork fates rest u hwindow => ?_⟩
    rw [hstage] at hrunning
    exact value_of_wp (wp_processBackfillWindow_tail hrunning rfl hbehind) hwindow

end Result

/-- Two iterations that sync the blocks 0 to 5 and enter the processing stage. -/
abbrev syncedStore : IndexerStore :=
  afterSteps shallowSettings (List.replicate 2 (.iterate (coinbaseInput 5) []))
    (initialStore shallowSettings "a")

theorem processing_plans_synced :
    PlansBackfill shallowSettings 5 ⟨.processBackfill,5,-1,5,false⟩
      (planBackfillWindow shallowSettings (coinbaseInput 5) 5
        ⟨.processBackfill,5,-1,5,false⟩ 0) ∧
    PlansOnline shallowSettings 3 ⟨.online,5,5,5,false⟩ (onlineProcessHeights 5 (min 5 3) 2 100) ∧
    ∃ count : Nat, 1 ≤ count ∧
      ((processBackfillWindow shallowSettings (coinbaseInput 5) 5
        ⟨.processBackfill,5,-1,5,false⟩ false).run ((startIteration shallowSettings
          (coinbaseInput 5) 5).run syncedStore []).2.1 []).2.1.metadata.indexerState.map
            (·.processTail) = some (-1 + (count : Int)) := by
  obtain ⟨hbackfill,honline,hruns⟩ := processing_plans shallowSettings
  refine ⟨hbackfill _ 5 ⟨.processBackfill,5,-1,5,false⟩ 0 (by decide),
    honline 3 ⟨.online,5,5,5,false⟩ (by decide) (by decide),?_⟩
  have hstart : ((startIteration shallowSettings (coinbaseInput 5) 5).run syncedStore []).1 =
      .value ⟨.processBackfill,5,-1,5,false⟩ := by decide +kernel
  have hwindow : ((processBackfillWindow shallowSettings (coinbaseInput 5) 5
      ⟨.processBackfill,5,-1,5,false⟩ false).run ((startIteration shallowSettings
        (coinbaseInput 5) 5).run syncedStore []).2.1 []).1 = .value true := by decide +kernel
  obtain ⟨count,hcount,-,htail⟩ := (hruns (List.replicate 2 (.iterate (coinbaseInput 5) [])) "a"
    (coinbaseInput 5) [] _ 5 ⟨.processBackfill,5,-1,5,false⟩ _ (Prod.ext hstart rfl)).2 rfl
      (by decide) false true [] _ _ (Prod.ext hwindow rfl)
  exact ⟨count,hcount,htail⟩

end OnlyDoge.CoreIndexer
