import OnlyDoge.Indexer.Frames
import OnlyDoge.Warehouse.PlacedRows
set_option autoImplicit false

/-!
Whatever a run of the core indexer stores, its nodes have reported: each stored snapshot, each
block read ahead, and each output and reference that a row of the warehouse holds.
-/

namespace OnlyDoge

/-- The block has the transaction at the place. -/
structure ParsedDogecoinBlock.HasAt (block : ParsedDogecoinBlock) (txid : String)
    (place : TransactionPlace) : Prop where
  hash : place.blockHash = block.hash
  height : place.blockHeight = block.height
  time : place.blockTime = block.time
  listed : (block.tx[place.txIndex]?).map (·.txid) = some txid

namespace CoreIndexer
open Job

section Reported
variable {B : ParsedDogecoinBlock → Prop} {block : ParsedDogecoinBlock}

variable (B) in
def ReportedPlace (txid : String) (place : TransactionPlace) : Prop :=
  ∃ block, B block ∧ block.HasAt txid place

variable (B) in
/-- A reference of a reported block, with the version of its place. -/
structure ReportedRef (ref : TransactionRef) : Prop where
  place : ReportedPlace B ref.txid ref.place
  version : ref.version = transactionRefVersion ref.blockHeight ref.txIndex .rawSync

theorem rawBlockRefs_reported (h : B block) : ∀ ref ∈ rawBlockRefs block, ReportedRef B ref := by
  intro ref hmem
  obtain ⟨i,hi,rfl⟩ := List.mem_mapIdx.mp hmem
  refine ⟨⟨block,h,rfl,rfl,rfl,?_⟩,rfl⟩
  change (block.tx[i]?).map (·.txid) = some (block.tx.map (·.txid))[i]
  rw [← List.getElem?_map]
  exact List.getElem?_eq_getElem hi

theorem blockCreates_placed (h : B block) :
    ∀ output ∈ blockCreates block, PlacedOutput (ReportedPlace B) output := by
  intro output hmem
  obtain ⟨⟨tx,txIndex⟩,htx,houtput⟩ := List.mem_flatMap.mp hmem
  obtain ⟨⟨vout,index⟩,-,rfl⟩ := List.mem_map.mp houtput
  refine ⟨rfl,block,h,rfl,rfl,rfl,?_⟩
  change (block.tx[txIndex]?).map (·.txid) = some tx.txid
  rw [List.mem_zipIdx_iff_getElem?.mp htx,Option.map_some]

variable (B) in
/-- An output that a reported block creates. -/
def ReportedOutput (output : ProjectionUtxoOutput) : Prop :=
  ∃ block, B block ∧ output ∈ blockCreates block

theorem reportedOutput_placed {output : ProjectionUtxoOutput} (h : ReportedOutput B output) :
    PlacedOutput (ReportedPlace B) output := by
  obtain ⟨block,hblock,hmem⟩ := h
  exact blockCreates_placed hblock output hmem

theorem created_of_blockCreates {output : ProjectionUtxoOutput} (h : output ∈ blockCreates block) :
    output.created = output := by
  obtain ⟨⟨tx,txIndex⟩,-,houtput⟩ := List.mem_flatMap.mp h
  obtain ⟨⟨vout,index⟩,-,rfl⟩ := List.mem_map.mp houtput
  rfl

theorem applications_placed {blocks : List ParsedDogecoinBlock}
    {applications : List CoreDogecoinBlockApplication} (h : ∀ block ∈ blocks, B block)
    (happlications : buildFastCoreDogecoinBlockApplications blocks = .ok applications) :
    PlacedApplications (ReportedOutput B) applications := by
  obtain ⟨-,-,-,rfl⟩ := buildFastCoreDogecoinBlockApplications_eq_ok.mp happlications
  intro application happlication
  obtain ⟨block,hblock,rfl⟩ := List.mem_map.mp happlication
  intro output houtput
  rw [created_of_blockCreates houtput]
  exact ⟨block,h block hblock,houtput⟩

/-- The parts of a store that blocks and places are kept in. -/
structure Holdings where
  warehouse : Warehouse
  rawBlocks : List ParsedDogecoinBlock
  loader : Option CoreBackfillLoader
  underway : List (RawWrite ParsedDogecoinBlock)

def holdings (s : IndexerStore) : Holdings :=
  ⟨s.warehouse,s.rawBlocks,s.process.backfillLoader,s.underway⟩

variable (B) in
def ReportedWrite : RawWrite ParsedDogecoinBlock → Prop
  | .part _ block => B block
  | .blocks _ => True
  | .refs refs => ∀ ref ∈ refs, ReportedRef B ref

variable (B) in
structure Reported (held : Holdings) : Prop where
  placed : Placed (ReportedRef B) (ReportedOutput B) held.warehouse
  stored : ∀ block ∈ held.rawBlocks, B block
  buffered : ∀ loader, held.loader = some loader → ∀ block ∈ loader.buffered, B block
  underway : ∀ write ∈ held.underway, ReportedWrite B write

variable (B) in
def HoldsReported (s : IndexerStore) : Prop := Reported B (holdings s)

variable {s : IndexerStore}

theorem HoldsReported.putPart (h : HoldsReported B s) (hblock : B block) :
    HoldsReported B (s.putPart block) := by
  refine ⟨h.placed,fun b hmem => ?_,h.buffered,h.underway⟩
  rcases Rows.mem_upsert hmem with rfl | hmem
  · exact hblock
  · exact h.stored b hmem

theorem HoldsReported.upsertRefs {refs : List TransactionRef} (h : HoldsReported B s)
    (hrefs : ∀ ref ∈ refs, ReportedRef B ref) :
    HoldsReported B (s.upsertTransactionRefs refs) :=
  ⟨h.placed.upsertRefs hrefs,h.stored,h.buffered,h.underway⟩

theorem HoldsReported.withWarehouse {w : Warehouse} (h : HoldsReported B s)
    (hw : Placed (ReportedRef B) (ReportedOutput B) w) :
    HoldsReported B (IndexerStore.warehousePart.put w s) :=
  ⟨hw,h.stored,h.buffered,h.underway⟩

theorem HoldsReported.withLoader {f : IndexerProcess → IndexerProcess} (h : HoldsReported B s)
    (hf : ∀ loader, (f s.process).backfillLoader = some loader →
      ∀ block ∈ loader.buffered, B block) : HoldsReported B (s.withProcess f) :=
  ⟨h.placed,h.stored,hf,h.underway⟩

theorem HoldsReported.rawBlock {height : Nat} (h : HoldsReported B s)
    (hblock : s.rawBlock height = some block) : B block :=
  h.stored block (List.mem_of_find?_eq_some hblock)

theorem HoldsReported.bufferedBlock {source : CoreWindowSource} {height : Nat}
    (h : HoldsReported B s) (hblock : s.process.buffered source height = some block) :
    B block := by
  unfold IndexerProcess.buffered at hblock
  cases hloader : s.process.backfillLoader with
  | none =>
    rw [hloader] at hblock
    cases hblock
  | some loader =>
    rw [hloader] at hblock
    by_cases hsource : loader.source = source
    · simp only [hsource,if_true] at hblock
      exact h.buffered loader hloader block (List.mem_of_find?_eq_some hblock)
    · simp only [hsource,if_false] at hblock
      cases hblock

theorem aboutPlaces_holdsReported :
    AboutPlaces (ReportedRef B) (ReportedOutput B) IndexerStore.warehousePart
      (HoldsReported B) where
  placed _ h := h.placed
  put _ _ h hw := h.withWarehouse hw

end Reported

section Walk
variable {B : ParsedDogecoinBlock → Prop} {settings : CoreDogecoinIndexerSettings}
variable {input : IterationInput} {latest : Int} {state : CoreIndexerState} {s : IndexerStore}
variable (hnode : ∀ height block, input.node.block height = some block → B block)

theorem wp_loadRawSnapshot_reported (h : HoldsReported B s) (height : Nat) :
    wp (loadRawSnapshot height) (fun block t => HoldsReported B t ∧ B block)
      (fun _ => HoldsReported B) (HoldsReported B) s := by
  refine wp_bind (wp_read ?_ h h)
  cases hblock : s.rawBlock height with
  | none => exact wp_throw h
  | some block => exact wp_pure ⟨h,h.rawBlock hblock⟩

theorem wp_loadRawSnapshots_reported (h : HoldsReported B s) (heights : List Nat) :
    wp (loadRawSnapshots heights) (fun blocks t => HoldsReported B t ∧ ∀ block ∈ blocks, B block)
      (fun _ => HoldsReported B) (HoldsReported B) s := by
  induction heights generalizing s with
  | nil => exact wp_pure ⟨h,by simp⟩
  | cons height heights ih =>
    refine wp_bind (wp_mono (wp_loadRawSnapshot_reported h height) ?_ (fun _ _ h => h)
      (fun _ h => h))
    rintro block t ⟨ht,hblock⟩
    refine wp_bind (wp_mono (ih ht) ?_ (fun _ _ h => h) (fun _ h => h))
    rintro blocks u ⟨hu,hblocks⟩
    exact wp_pure ⟨hu,by simpa using ⟨hblock,hblocks⟩⟩

include hnode

theorem wp_getPrefetched_reported (h : HoldsReported B s) (source : CoreWindowSource)
    (height : Nat) :
    wp (getPrefetched input source height) (fun block t => HoldsReported B t ∧ B block)
      (fun _ => HoldsReported B) (HoldsReported B) s := by
  refine wp_bind (wp_look ?_)
  cases hbuffered : s.process.buffered source height with
  | some block => exact wp_pure ⟨h,h.bufferedBlock hbuffered⟩
  | none =>
    cases source with
    | storage => exact wp_loadRawSnapshot_reported h height
    | node =>
      refine wp_bind (wp_read ?_ h h)
      cases hblock : input.node.block height with
      | none => exact wp_throw h
      | some block => exact wp_pure ⟨h,hnode height block hblock⟩

theorem wp_getAllPrefetched_reported (h : HoldsReported B s) (source : CoreWindowSource)
    (heights : List Nat) :
    wp (getAllPrefetched input source heights)
      (fun blocks t => HoldsReported B t ∧ ∀ block ∈ blocks, B block)
      (fun _ => HoldsReported B) (HoldsReported B) s := by
  induction heights generalizing s with
  | nil => exact wp_pure ⟨h,by simp⟩
  | cons height heights ih =>
    refine wp_bind (wp_mono (wp_getPrefetched_reported hnode h source height) ?_ (fun _ _ h => h)
      (fun _ h => h))
    rintro block t ⟨ht,hblock⟩
    refine wp_bind (wp_mono (ih ht) ?_ (fun _ _ h => h) (fun _ h => h))
    rintro blocks u ⟨hu,hblocks⟩
    exact wp_pure ⟨hu,by simpa using ⟨hblock,hblocks⟩⟩

theorem HoldsReported.readAhead (h : HoldsReported B s) (source : CoreWindowSource)
    (heights : List Nat) : HoldsReported B (readAhead input source heights s) := by
  refine h.withLoader (fun loader hloader block hmem => ?_)
  cases hloader
  obtain ⟨held,hheld,hsome⟩ := List.mem_filterMap.mp hmem
  obtain ⟨height,-,rfl⟩ := List.mem_map.mp (List.takeWhile_subset _ hheld)
  rcases Option.or_eq_some_iff.mp hsome with hbuffered | ⟨-,hsource⟩
  · exact h.bufferedBlock hbuffered
  · cases source with
    | node => exact hnode height block hsource
    | storage => exact h.rawBlock hsource

theorem wp_fillBackfillWindow_reported (h : HoldsReported B s) (plan : CoreWindowPlan)
    (source : CoreWindowSource) :
    wp (fillBackfillWindow input plan source)
      (fun blocks t => HoldsReported B t ∧ ∀ block ∈ blocks, B block)
      (fun _ => HoldsReported B) (HoldsReported B) s := by
  refine wp_bind (wp_onFailure (wp_mono (wp_getAllPrefetched_reported hnode h source _) ?_ ?_
    (fun _ h => h)))
  · rintro blocks t ⟨ht,hblocks⟩
    exact wp_bind (wp_assign (wp_pure ⟨ht.readAhead hnode source _,hblocks⟩))
  · exact fun _ t ht => wp_assign (ht.withLoader (fun _ hnone => by cases hnone))

theorem wp_loadBackfillSnapshots_reported (h : HoldsReported B s) (plan : CoreWindowPlan) :
    wp (loadBackfillSnapshots settings input plan)
      (fun blocks t => HoldsReported B t ∧ ∀ block ∈ blocks, B block)
      (fun _ => HoldsReported B) (HoldsReported B) s := by
  refine wp_ite (fun _ => ?_)
    (fun _ => wp_fillBackfillWindow_reported hnode h plan plan.source)
  refine wp_bind (wp_attempt (wp_mono (wp_fillBackfillWindow_reported hnode h plan .node) ?_ ?_
    (fun _ h => h)))
  · exact fun _ t ht => wp_pure ht
  · intro _ t ht
    refine wp_bind (wp_assign (wp_fillBackfillWindow_reported hnode ?_ plan .storage))
    exact ht.withLoader ht.buffered

theorem absorbsSync_reported (heights : List Nat) :
    AbsorbsSync input heights (HoldsReported B) where
  part block _ hblock h := by
    obtain ⟨height,-,hheight⟩ := hblock
    exact h.putPart (hnode height block hheight)
  blocks _ _ _ h := h
  refs blocks _ hblocks h := by
    refine h.upsertRefs (fun ref hmem => ?_)
    obtain ⟨block,hblock,href⟩ := List.mem_flatMap.mp hmem
    obtain ⟨height,-,hheight⟩ := hblocks block hblock
    exact rawBlockRefs_reported (hnode height block hheight) ref href
  concurrency _ _ h := h
  underway round s _ h := by
    refine ⟨h.placed,h.stored,h.buffered,fun write hmem => ?_⟩
    rcases List.mem_append.mp hmem with hmem | hmem
    · exact h.underway write hmem
    · obtain ⟨block,hblock,hwrite⟩ := List.mem_flatMap.mp hmem
      obtain ⟨height,-,hheight⟩ := List.mem_filterMap.mp hblock
      have hreported := hnode height block hheight
      simp only [List.mem_cons,List.not_mem_nil,or_false] at hwrite
      rcases hwrite with rfl | rfl | rfl
      · exact hreported
      · trivial
      · exact rawBlockRefs_reported hreported

omit hnode in
theorem keeps_recoverCoreWindow_reported (height : Nat) (updateCurrentState : Bool) :
    Keeps (HoldsReported B) (recoverCoreWindow input height updateCurrentState) :=
  keeps_zoom_placed aboutPlaces_holdsReported (keeps_recoverCoreDogecoinWindow_placed height _)

omit hnode in
theorem keeps_upsert_reported (update : CoreIndexerStateUpdate) :
    Keeps (HoldsReported B) (upsertCoreIndexerState update) :=
  keeps_upsertCoreIndexerState (fun _ h => h)

omit hnode in
theorem keeps_execute_reported (f : Metadata → Metadata) :
    Keeps (HoldsReported B) (execute f) := keeps_write (fun _ h => h)

omit hnode in
theorem keeps_compareAndDelete_reported (marker : CoreApplyRecoveryMarker) :
    Keeps (HoldsReported B) (compareAndDeleteCoreApplyRecovery marker) := by
  refine keeps_call (fun s h => ?_)
  by_cases hmarker : s.metadata.coreApplyRecovery = some marker
  · simp only [hmarker,if_true]
    exact h
  · simp only [hmarker,if_false]
    exact h

omit hnode in
theorem keeps_startIteration_reported :
    Keeps (HoldsReported B) (startIteration settings input latest) := by
  have hrecover : Keeps (HoldsReported B) (recoverPendingCoreApplyIfNeeded input) := by
    refine keeps_bind (keeps_read _) (fun marker => ?_)
    cases marker with
    | none => exact keeps_pure ()
    | some marker =>
      refine keeps_bind (keeps_ofExcept _) (fun marker => keeps_bind
        (keeps_recoverCoreWindow_reported _ _) (fun _ => keeps_bind
          (keeps_compareAndDelete_reported marker) (fun cleared => ?_)))
      cases cleared with
      | true => exact keeps_pure ()
      | false => exact keeps_throw _
  have hensure : Keeps (HoldsReported B) (ensureState latest) := by
    refine keeps_bind (keeps_read _) (fun current => ?_)
    cases current with
    | some state => exact keeps_pure state
    | none => exact keeps_bind (keeps_read _) (fun _ => keeps_upsert_reported _)
  have hreconcile (state : CoreIndexerState) :
      Keeps (HoldsReported B) (reconcileProcessTailWithWarehouse input state) := by
    refine keeps_bind (keeps_look _) (fun _ => keeps_ite (fun _ => keeps_pure _) (fun _ => ?_))
    refine keeps_bind (keeps_zoom_placed aboutPlaces_holdsReported (keeps_read _))
      (fun tail => keeps_bind (keeps_assign (fun _ h => h)) (fun _ =>
        keeps_ite (fun _ => keeps_pure _) (fun _ => keeps_bind (keeps_read _) (fun _ => ?_))))
    exact keeps_bind (keeps_recoverCoreWindow_reported _ _) (fun _ => keeps_upsert_reported _)
  have hrefs (state : CoreIndexerState) :
      Keeps (HoldsReported B) (markTransactionRefsReadyIfCaughtUp state) := by
    refine keeps_bind (keeps_look _) (fun _ => keeps_ite (fun _ => keeps_pure _) (fun _ => ?_))
    exact keeps_bind (keeps_read _) (fun _ => keeps_bind
      (keeps_when (fun _ => keeps_execute_reported _)) (fun _ => keeps_assign (fun _ h => h)))
  refine keeps_bind hrecover (fun _ => keeps_bind hensure (fun current => ?_))
  refine keeps_bind (hreconcile current) (fun state => keeps_bind (hrefs state) (fun _ => ?_))
  exact keeps_bind (keeps_publishProgress (fun _ _ h => h)) (fun _ => keeps_bind (keeps_read _)
    (fun _ => keeps_pure _))

theorem keeps_syncRawBlockHeights_reported {heights : List Nat} {syncTail : Int}
    {stage : CoreIndexerStage} : Keeps (HoldsReported B)
      (syncRawBlockHeights settings input latest state heights syncTail stage) := by
  refine keeps_bind (keeps_storeRawBlockHeights (absorbsSync_reported hnode heights)
    (fun _ => keeps_checkpointSyncTail (fun _ h => h))) (fun _ => ?_)
  exact keeps_bind keeps_assertPrimaryLease (fun _ => keeps_bind (keeps_upsert_reported _)
    (fun _ => keeps_publishProgress (fun _ _ h => h)))

theorem keeps_syncBackfill_reported :
    Keeps (HoldsReported B) (syncBackfill settings input latest state) :=
  keeps_ite
    (fun _ => keeps_bind (keeps_upsert_reported _) (fun _ => keeps_bind
      (keeps_execute_reported _) (fun _ => keeps_pure _)))
    (fun _ => keeps_bind (keeps_syncRawBlockHeights_reported hnode) (fun _ => keeps_pure _))

omit hnode in
theorem keeps_processWindow_reported {load : IndexerJob (List ParsedDogecoinBlock)}
    {updateCurrentState : Bool} (hload : ∀ s, HoldsReported B s →
      wp load (fun blocks t => HoldsReported B t ∧ ∀ block ∈ blocks, B block)
        (fun _ => HoldsReported B) (HoldsReported B) s) :
    Keeps (HoldsReported B) (processWindow input load updateCurrentState) := by
  have happly (applications : List CoreDogecoinBlockApplication)
      (h : PlacedApplications (ReportedOutput B) applications) : Keeps (HoldsReported B)
        (applyWindowApplications input applications updateCurrentState) :=
    keeps_runCoreBlockStep (keeps_zoom_placed aboutPlaces_holdsReported
      (keeps_applyCoreDogecoinWindow_placed h))
  intro s hs
  refine wp_bind (wp_bind (wp_read (wp_bind (wp_mono (hload s hs) ?_ (fun _ _ h => h)
    (fun _ h => h))) hs hs))
  rintro blocks t ⟨ht,hblocks⟩
  refine wp_bind (wp_read (wp_pure ?_) ht ht)
  refine wp_bind (wp_bind (wp_read (wp_bind (wp_ofExcept (fun applications hok => ?_)
    (fun _ _ => ht))) ht ht))
  refine wp_bind (wp_read (wp_pure ?_) ht ht)
  have hplaced := happly applications (applications_placed hblocks hok)
  unfold applyWindowApplicationsWithRecovery
  cases applications.head? with
  | none => exact hplaced t ht
  | some first =>
    refine keeps_bind (keeps_look _) (fun _ => keeps_bind (keeps_execute_reported _) (fun _ =>
      keeps_bind hplaced (fun _ => keeps_bind ?_ (fun _ => keeps_pure _)))) t ht
    refine keeps_bind (keeps_compareAndDelete_reported _) (fun cleared => ?_)
    cases cleared with
    | true => exact keeps_pure ()
    | false => exact keeps_throw _

omit hnode in
theorem keeps_publishWindowProgress_reported {result : CoreDogecoinApplyResult}
    {stage : CoreIndexerStage} :
    Keeps (HoldsReported B) (publishWindowProgress settings latest result stage) :=
  keeps_runCoreBlockStep (keeps_bind (keeps_upsert_reported _)
    (fun _ => keeps_publishProgress (fun _ _ h => h)))

omit hnode in
theorem keeps_promoteBackfillToOnline_reported {currentStateReady : Bool} :
    Keeps (HoldsReported B) (promoteBackfillToOnline input latest state currentStateReady) := by
  have hmaterialize (asOfBlockHeight : Nat) :
      Keeps (HoldsReported B) (materializeCurrentState input latest asOfBlockHeight) := by
    refine keeps_bind (keeps_read _) (fun resumeFrom => keeps_bind
      (keeps_materializeCoreDogecoinCurrentState_placed aboutPlaces_holdsReported
        (fun _ _ => ?_) _) (fun _ => ?_))
    · exact keeps_bind (keeps_write (fun _ h => h)) (fun _ =>
        keeps_bind keeps_assertPrimaryLease (fun _ => keeps_when (fun _ =>
          keeps_bind (keeps_upsert_reported _) (fun _ => keeps_pure ()))))
    · refine keeps_bind (keeps_settleAll (fun m hm => ?_)) (fun _ => keeps_execute_reported _)
      simp only [List.mem_cons,List.not_mem_nil,or_false] at hm
      rcases hm with rfl | rfl <;> exact keeps_execute_reported _
  refine keeps_bind (keeps_when (fun _ => hmaterialize _)) (fun _ =>
    keeps_bind (keeps_upsert_reported _) (fun _ => keeps_settleAll (fun m hm => ?_)))
  simp only [List.mem_cons,List.not_mem_nil,or_false] at hm
  rcases hm with rfl | rfl | rfl <;> exact keeps_execute_reported _

theorem keeps_processBackfill_reported :
    Keeps (HoldsReported B) (processBackfill settings input latest state) := by
  refine keeps_bind (keeps_read _) (fun ready => keeps_ite (fun _ => ?_) (fun _ => ?_))
  · have hpromote : Keeps (HoldsReported B) (shouldPromoteBackfill settings latest state ready) :=
      keeps_ite (fun _ => keeps_pure _) (fun _ => keeps_ite (fun _ => keeps_pure _)
        (fun _ => keeps_bind (keeps_read _) (fun _ => keeps_pure _)))
    have hreturn : Keeps (HoldsReported B) (returnBackfillToSync latest) :=
      keeps_bind (keeps_upsert_reported _) (fun _ => keeps_execute_reported _)
    exact keeps_bind hpromote (fun _ => keeps_ite
      (fun _ => keeps_bind keeps_promoteBackfillToOnline_reported (fun _ => keeps_pure _))
      (fun _ => keeps_bind hreturn (fun _ => keeps_pure _)))
  · refine keeps_bind (keeps_look _) (fun _ => keeps_bind (keeps_processWindow_reported
      (fun s hs => wp_loadBackfillSnapshots_reported hnode hs _)) (fun _ => ?_))
    exact keeps_bind keeps_publishWindowProgress_reported (fun _ => keeps_pure _)

omit hnode in
theorem wp_fixedWindowPlan_reported (h : HoldsReported B s) (heights : List Nat) :
    wp (fixedWindowPlan heights) (fun blocks t => HoldsReported B t ∧ ∀ block ∈ blocks, B block)
      (fun _ => HoldsReported B) (HoldsReported B) s :=
  wp_ite (fun _ => wp_throw h) (fun _ => wp_loadRawSnapshots_reported h heights)

theorem keeps_syncOnlineBacklogIfNeeded_reported (stop : Int) :
    Keeps (HoldsReported B) (syncOnlineBacklogIfNeeded settings input latest state stop) :=
  keeps_ite (fun _ => keeps_pure _) (fun _ => keeps_bind
    (keeps_syncRawBlockHeights_reported hnode) (fun _ => keeps_pure _))

theorem keeps_online_reported : Keeps (HoldsReported B) (online settings input latest state) := by
  have hwindow (row : CoreIndexerState) (target : Int) (ready : Bool) : Keeps (HoldsReported B)
      (processOnlineWindow settings input latest row target ready) :=
    keeps_bind (keeps_storeRawBlockHeights (absorbsSync_reported hnode _)
      (fun _ => keeps_pure ())) (fun _ => keeps_bind (keeps_processWindow_reported
        (fun _ hs => wp_fixedWindowPlan_reported hs _))
        (fun _ => keeps_bind keeps_publishWindowProgress_reported (fun _ => keeps_pure _)))
  have hprocess (row : CoreIndexerState) (force : Bool) : Keeps (HoldsReported B)
      (processOnlineBacklogIfNeeded settings input latest row force) :=
    keeps_ite (fun _ => keeps_pure _) (fun _ => keeps_bind (keeps_read _)
      (fun _ => hwindow row _ _))
  have hpublish (row : CoreIndexerState) :
      Keeps (HoldsReported B) (publishProgress settings latest row) :=
    keeps_publishProgress (fun _ _ h => h)
  have hidle : Keeps (HoldsReported B) (publishOnlineNoWorkIfPossible settings latest state) :=
    keeps_bind (keeps_read _) (fun _ => keeps_ite
      (fun _ => keeps_bind (keeps_ite (fun _ => keeps_pure _) (fun _ => keeps_upsert_reported _))
        (fun _ => hpublish _))
      (fun _ => keeps_when (fun _ => hpublish _)))
  refine keeps_bind (keeps_bind (keeps_syncOnlineBacklogIfNeeded_reported hnode _)
    (fun didSync => keeps_bind
    (keeps_bind (keeps_read _) (fun _ => keeps_pure _)) (fun row =>
      keeps_bind (hprocess row didSync) (fun _ => keeps_pure _)))) (fun didWork => ?_)
  exact keeps_ite (fun _ => keeps_pure _) (fun _ => keeps_bind hidle (fun _ => keeps_pure _))

theorem keeps_runDogecoinConfig_reported :
    Keeps (HoldsReported B) (runDogecoinConfig settings input) := by
  refine keeps_bind (keeps_read _) (fun latest => keeps_bind keeps_assertPrimaryLease (fun _ =>
    keeps_onFailure (keeps_bind keeps_startIteration_reported (fun state => ?_)) ?_))
  · unfold runDogecoinStage
    cases state.stage with
    | syncBackfill => exact keeps_syncBackfill_reported hnode
    | processBackfill => exact keeps_processBackfill_reported hnode
    | online => exact keeps_online_reported hnode
  · exact keeps_setCoreIndexerError (fun _ h => h)

omit hnode in
theorem HoldsReported.land {write : RawWrite ParsedDogecoinBlock} (h : HoldsReported B s)
    (hwrite : ReportedWrite B write) : HoldsReported B (land s write) := by
  cases write with
  | part key block => exact h.putPart hwrite
  | blocks records => exact h
  | refs refs => exact h.upsertRefs hwrite

end Walk

variable {B : ParsedDogecoinBlock → Prop} {settings : CoreDogecoinIndexerSettings}
variable {s : IndexerStore}

/-- The nodes that a step of the indexer reads. -/
def IndexerStep.inputs : IndexerStep → List IterationInput
  | .iterate input _ => [input]
  | .lands _ => []
  | .restart _ => []
  | .crash _ _ => []

theorem HoldsReported.step {step : IndexerStep} (h : HoldsReported B s)
    (hnode : ∀ input ∈ step.inputs, ∀ height block, input.node.block height = some block →
      B block) : HoldsReported B (step.after settings s) := by
  have hfresh (instanceId : String) : HoldsReported B
      (s.withProcess fun _ => freshProcess settings instanceId) :=
    h.withLoader (fun _ hnone => by cases hnone)
  cases step with
  | iterate input fates =>
    exact last_of_wp (keeps_runDogecoinConfig_reported
      (hnode input (List.mem_singleton.mpr rfl)) s h) fates
  | lands index =>
    simp only [IndexerStep.after]
    cases hwrite : s.underway[index]? with
    | none => exact h
    | some write =>
      have hs : HoldsReported B { s with underway := s.underway.eraseIdx index } :=
        ⟨h.placed,h.stored,h.buffered,fun w hmem => h.underway w (List.mem_of_mem_eraseIdx hmem)⟩
      exact hs.land (h.underway write (List.mem_of_getElem? hwrite))
  | restart instanceId => exact hfresh instanceId
  | crash instanceId kept => exact hfresh instanceId

theorem holdsReported_initialStore (instanceId : String) :
    HoldsReported B (initialStore settings instanceId) := by
  refine ⟨placed_empty,?_,?_,?_⟩ <;> simp [holdings,initialStore,freshProcess]

end CoreIndexer

end OnlyDoge
