import OnlyDoge.Indexer.Runs
import OnlyDoge.Indexer.RawSyncDurability
import OnlyDoge.Library.Invariant
set_option autoImplicit false

/-! What the jobs of an iteration do to any property that survives their single writes. -/

namespace OnlyDoge.CoreIndexer
open Job

section Upsert
variable {s : IndexerStore} {E : Failure CoreError → IndexerStore → Prop}
variable {K : IndexerStore → Prop} {J : IndexerStore → Prop}

def upserted (update : CoreIndexerStateUpdate) (s : IndexerStore) : IndexerStore :=
  s.relaxed (Metadata.setIndexerState (update.next s.metadata.indexerState))

theorem wp_upsertCoreIndexerState {update : CoreIndexerStateUpdate}
    {Q : CoreIndexerState → IndexerStore → Prop}
    (hdone : Q (update.next s.metadata.indexerState) (upserted update s))
    (hlost : E .fault (upserted update s)) (hrefused : E .fault s) (hkilled : K s) :
    wp (upsertCoreIndexerState update) Q E K s := by
  refine wp_bind (wp_read ?_ hrefused hkilled)
  exact wp_bind (wp_write (wp_pure hdone) hlost hrefused hkilled)

theorem keeps_upsertCoreIndexerState {update : CoreIndexerStateUpdate}
    (h : ∀ s, J s → J (upserted update s)) : Keeps J (upsertCoreIndexerState update) :=
  fun s hs => wp_upsertCoreIndexerState (h s hs) (h s hs) hs hs

theorem keeps_setCoreIndexerError (h : ∀ s, J s → J (upserted { lastError := some true } s)) :
    Keeps J setCoreIndexerError :=
  keeps_bind (keeps_upsertCoreIndexerState h) (fun _ => keeps_pure ())

theorem keeps_assertPrimaryLease : Keeps J assertPrimaryLease := keeps_read _

theorem keeps_publishProgress {settings : CoreDogecoinIndexerSettings} {latest : Int}
    {state : CoreIndexerState}
    (h : ∀ s historyReady, J s → J (s.relaxed (Metadata.withProgress
      (progressEntries settings latest state historyReady)))) :
    Keeps J (publishProgress settings latest state) :=
  keeps_bind (keeps_read _) (fun historyReady => keeps_bind keeps_assertPrimaryLease
    (fun _ => keeps_write (fun s hs => h s historyReady hs)))

theorem keeps_runCoreBlockStep {α : Type} {work : IndexerJob α} (h : Keeps J work) :
    Keeps J (runCoreBlockStep work) :=
  keeps_bind keeps_assertPrimaryLease (fun _ => keeps_bind h (fun _ =>
    keeps_bind keeps_assertPrimaryLease (fun _ => keeps_pure _)))

end Upsert

section Sync
variable {settings : CoreDogecoinIndexerSettings} {input : IterationInput} {heights : List Nat}
variable {J : IndexerStore → Prop} {onCheckpoint : Int → IndexerJob Unit}

/-- A block that the node reports at one of the heights. -/
def NodeHas (input : IterationInput) (heights : List Nat) (block : ParsedDogecoinBlock) : Prop :=
  ∃ height ∈ heights, input.node.block height = some block

def recordOf (block : ParsedDogecoinBlock) : CoreBlockRecord := (rawBlockSnapshot block).record

/-- A property that survives the writes of raw sync at these heights. -/
structure AbsorbsSync (input : IterationInput) (heights : List Nat) (J : IndexerStore → Prop) :
    Prop where
  part : ∀ block s, NodeHas input heights block → J s → J (s.putPart block)
  blocks : ∀ (blocks : List ParsedDogecoinBlock) (s : IndexerStore),
    (∀ block ∈ blocks, NodeHas input heights block) → J s →
    J (s.relaxed (Metadata.upsertCoreBlocks (blocks.map recordOf)))
  refs : ∀ (blocks : List ParsedDogecoinBlock) (s : IndexerStore),
    (∀ block ∈ blocks, NodeHas input heights block) → J s →
    J (s.upsertTransactionRefs (blocks.flatMap rawBlockRefs))
  concurrency : ∀ (f : AdaptiveConcurrencyController → AdaptiveConcurrencyController)
    (s : IndexerStore), J s → J (s.withProcess
      (fun process => { process with concurrency := f process.concurrency }))
  underway : ∀ round s, round ⊆ heights → J s → J (leaveUnderway input round s)

theorem mapM_nodeHas {batch : List Nat} {blocks : List ParsedDogecoinBlock}
    (hbatch : batch ⊆ heights) (h : batch.mapM input.node.block = some blocks) :
    ∀ block ∈ blocks, NodeHas input heights block := by
  induction batch generalizing blocks with
  | nil =>
    cases h
    simp
  | cons height batch ih =>
    rw [List.mapM_cons] at h
    obtain ⟨block,hblock,h⟩ := Option.bind_eq_some_iff.mp h
    obtain ⟨rest,hrest,h⟩ := Option.bind_eq_some_iff.mp h
    cases h
    intro b hb
    rcases List.mem_cons.mp hb with rfl | hb
    · exact ⟨height,hbatch List.mem_cons_self,hblock⟩
    · exact ih (fun x hx => hbatch (List.mem_cons_of_mem _ hx)) hrest b hb

theorem wp_getBlockSnapshots {batch : List Nat} {s : IndexerStore}
    {Q : List ParsedDogecoinBlock → IndexerStore → Prop}
    {E : Failure CoreError → IndexerStore → Prop} {K : IndexerStore → Prop}
    (hdone : ∀ blocks, batch.mapM input.node.block = some blocks → Q blocks s)
    (hfailed : ∀ e, E e s) (hkilled : K s) : wp (getBlockSnapshots input batch) Q E K s := by
  refine wp_bind (wp_read ?_ (hfailed _) hkilled)
  cases hblocks : batch.mapM input.node.block with
  | none => exact wp_throw (hfailed _)
  | some blocks => exact wp_pure (hdone blocks hblocks)

theorem keeps_syncBatch (h : AbsorbsSync input heights J) {batch : List Nat}
    (hbatch : batch ⊆ heights) : Keeps J (syncBatch input batch) := by
  intro s hs
  refine wp_bind (wp_getBlockSnapshots (fun blocks hblocks => ?_) (fun _ => hs) hs)
  have hnode := mapM_nodeHas hbatch hblocks
  refine (keeps_bind (keeps_settleAll (fun m hm => ?_)) (fun _ => keeps_bind
    (keeps_write (fun s hs => h.blocks blocks s hnode hs))
    (fun _ => keeps_when (fun _ => keeps_write (fun s hs => h.refs blocks s hnode hs))))) s hs
  obtain ⟨block,hblock,rfl⟩ := List.mem_map.mp hm
  exact keeps_write (fun s hs => h.part block s (hnode block hblock) hs)

theorem keeps_recordBatch (h : AbsorbsSync input heights J)
    (f : AdaptiveConcurrencyController → AdaptiveConcurrencyController) :
    Keeps J (recordBatch f) := keeps_assign (h.concurrency f)

theorem keeps_syncBatchWithRetry (h : AbsorbsSync input heights J) {batch : List Nat}
    (hbatch : batch ⊆ heights) (attempts : Nat) :
    Keeps J (syncBatchWithRetry input batch attempts) := by
  have hbatch := keeps_syncBatch h hbatch
  induction attempts with
  | zero =>
    exact keeps_bind (keeps_onFailure hbatch (keeps_recordBatch h _))
      (fun _ => keeps_recordBatch h _)
  | succ attempts ih =>
    refine keeps_bind (keeps_attempt hbatch) (fun result => ?_)
    cases result with
    | ok _ => exact keeps_recordBatch h _
    | error e => exact keeps_bind (keeps_recordBatch h _) (fun _ => ih)

theorem keeps_syncRounds (h : AbsorbsSync input heights J)
    (hcheckpoint : ∀ frontier, Keeps J (onCheckpoint frontier)) (rounds : Nat)
    (tracker : ContiguousFrontier) {batches : List (List Nat)}
    (hbatches : ∀ batch ∈ batches, batch ⊆ heights) :
    Keeps J (syncRounds settings input onCheckpoint rounds tracker batches) := by
  induction rounds generalizing tracker batches with
  | zero => exact keeps_pure ()
  | succ rounds ih =>
    refine keeps_ite (fun _ => keeps_pure ()) (fun _ => ?_)
    refine keeps_bind keeps_assertPrimaryLease (fun _ => keeps_bind (keeps_look _)
      (fun concurrency => ?_))
    have hround : ∀ batch ∈ batches.take concurrency, batch ⊆ heights :=
      fun batch hb => hbatches batch (List.mem_of_mem_take hb)
    refine keeps_bind (keeps_onFailure (keeps_settleAll (fun m hm => ?_))
      (keeps_assign (fun s hs => h.underway _ s ?_ hs))) (fun _ => ?_)
    · obtain ⟨batch,hb,rfl⟩ := List.mem_map.mp hm
      exact keeps_syncBatchWithRetry h (hround batch hb) _
    · intro height hheight
      obtain ⟨batch,hb,hheight⟩ := List.mem_flatten.mp hheight
      exact hround batch hb hheight
    · exact keeps_bind (keeps_when (fun _ => hcheckpoint _)) (fun _ =>
        ih _ (fun batch hb => hbatches batch (List.mem_of_mem_drop hb)))

theorem keeps_storeRawBlockHeights (h : AbsorbsSync input heights J)
    (hcheckpoint : ∀ frontier, Keeps J (onCheckpoint frontier)) :
    Keeps J (storeRawBlockHeights settings input heights onCheckpoint) := by
  refine keeps_syncRounds h hcheckpoint _ _ (fun batch hb height hheight => ?_)
  rw [← @chunk_flatten _ heights settings.syncBatchSize]
  exact List.mem_flatten.mpr ⟨batch,hb,hheight⟩

theorem keeps_checkpointSyncTail {latest frontier : Int} {state : CoreIndexerState}
    {stage : CoreIndexerStage}
    (h : ∀ s, J s → J (upserted
      { stage := some stage
        syncTail := some frontier
        onlineTip := some latest
        lastError := some false } s)) :
    Keeps J (checkpointSyncTail latest state stage frontier) :=
  keeps_ite (fun _ => keeps_pure ()) (fun _ => keeps_bind keeps_assertPrimaryLease
    (fun _ => keeps_bind (keeps_upsertCoreIndexerState h) (fun _ => keeps_pure ())))

end Sync

section Load
variable {input : IterationInput} {J : IndexerStore → Prop}

theorem keeps_loadRawSnapshot (height : Nat) : Keeps J (loadRawSnapshot height) := by
  refine keeps_bind (keeps_read _) (fun snapshot => ?_)
  cases snapshot with
  | none => exact keeps_throw _
  | some snapshot => exact keeps_pure _

theorem keeps_loadRawSnapshots (heights : List Nat) : Keeps J (loadRawSnapshots heights) := by
  induction heights with
  | nil => exact keeps_pure _
  | cons height heights ih =>
    exact keeps_bind (keeps_loadRawSnapshot height) (fun _ => keeps_bind ih (fun _ => keeps_pure _))

end Load

section Snapshots
variable {settings : CoreDogecoinIndexerSettings} {input : IterationInput} {s : IndexerStore}
variable {J : IndexerStore → Prop}

theorem node_block_height {height : Nat} {block : ParsedDogecoinBlock}
    (h : input.node.block height = some block) : block.height = height := by
  have hmap : (input.node.blocks.map (·.height))[height]? = some block.height := by
    rw [List.getElem?_map]
    exact congrArg (Option.map _) h
  rw [input.node.heights] at hmap
  obtain ⟨hlt,heq⟩ := List.getElem?_eq_some_iff.mp hmap
  rw [List.getElem_range] at heq
  exact heq.symm

theorem find?_height {height : Nat} {blocks : List ParsedDogecoinBlock}
    {block : ParsedDogecoinBlock} (h : blocks.find? (·.height = height) = some block) :
    block.height = height := by
  simpa using List.find?_some h

theorem buffered_height {process : IndexerProcess} {source : CoreWindowSource} {height : Nat}
    {block : ParsedDogecoinBlock} (h : process.buffered source height = some block) :
    block.height = height := by
  unfold IndexerProcess.buffered at h
  cases hloader : process.backfillLoader with
  | none =>
    rw [hloader] at h
    cases h
  | some loader =>
    rw [hloader] at h
    by_cases hsource : loader.source = source
    · simp only [hsource,if_true] at h
      exact find?_height h
    · simp only [hsource,if_false] at h
      cases h

theorem wp_loadRawSnapshot (h : J s) (height : Nat) :
    wp (loadRawSnapshot height) (fun block t => s = t ∧ block.height = height)
      (fun _ => J) J s := by
  refine wp_bind (wp_read ?_ h h)
  cases hblock : s.rawBlock height with
  | none => exact wp_throw h
  | some block => exact wp_pure ⟨rfl,find?_height hblock⟩

theorem wp_fetchSnapshot (h : J s) (source : CoreWindowSource) (height : Nat) :
    wp (fetchSnapshot input source height) (fun block t => s = t ∧ block.height = height)
      (fun _ => J) J s := by
  cases source with
  | storage => exact wp_loadRawSnapshot h height
  | node =>
    refine wp_bind (wp_read ?_ h h)
    cases hblock : input.node.block height with
    | none => exact wp_throw h
    | some block => exact wp_pure ⟨rfl,node_block_height hblock⟩

theorem wp_getPrefetched (h : J s) (source : CoreWindowSource) (height : Nat) :
    wp (getPrefetched input source height) (fun block t => s = t ∧ block.height = height)
      (fun _ => J) J s := by
  refine wp_bind (wp_look ?_)
  cases hblock : s.process.buffered source height with
  | none => exact wp_fetchSnapshot h source height
  | some block => exact wp_pure ⟨rfl,buffered_height hblock⟩

theorem wp_getAllPrefetched (h : J s) (source : CoreWindowSource) (heights : List Nat) :
    wp (getAllPrefetched input source heights)
      (fun blocks t => s = t ∧ blocks.map (·.height) = heights) (fun _ => J) J s := by
  induction heights with
  | nil => exact wp_pure ⟨rfl,rfl⟩
  | cons height heights ih =>
    refine wp_bind (wp_mono (wp_getPrefetched h source height) ?_ (fun _ _ h => h) (fun _ h => h))
    rintro block _ ⟨rfl,hblock⟩
    refine wp_bind (wp_mono ih ?_ (fun _ _ h => h) (fun _ h => h))
    rintro blocks _ ⟨rfl,hblocks⟩
    exact wp_pure ⟨rfl,by rw [List.map_cons,hblock,hblocks]⟩

theorem wp_loadRawSnapshots (h : J s) (heights : List Nat) :
    wp (loadRawSnapshots heights) (fun blocks t => s = t ∧ blocks.map (·.height) = heights)
      (fun _ => J) J s := by
  induction heights with
  | nil => exact wp_pure ⟨rfl,rfl⟩
  | cons height heights ih =>
    refine wp_bind (wp_mono (wp_loadRawSnapshot h height) ?_ (fun _ _ h => h) (fun _ h => h))
    rintro block _ ⟨rfl,hblock⟩
    refine wp_bind (wp_mono ih ?_ (fun _ _ h => h) (fun _ h => h))
    rintro blocks _ ⟨rfl,hblocks⟩
    exact wp_pure ⟨rfl,by rw [List.map_cons,hblock,hblocks]⟩

variable (hJ : ∀ (s : IndexerStore) (f : IndexerProcess → IndexerProcess),
  J s → J (s.withProcess f))
include hJ

theorem wp_fillBackfillWindow (h : J s) (plan : CoreWindowPlan) (source : CoreWindowSource) :
    wp (fillBackfillWindow input plan source)
      (fun blocks t => J t ∧ blocks.map (·.height) = plan.fillHeights input.fillBlocks)
      (fun _ => J) J s := by
  refine wp_bind (wp_onFailure (wp_mono (wp_getAllPrefetched h source _) ?_ ?_ (fun _ h => h)))
  · rintro blocks _ ⟨rfl,hblocks⟩
    refine wp_bind (wp_assign (wp_pure ⟨?_,hblocks⟩))
    unfold readAhead
    exact hJ s _ h
  · exact fun _ t ht => wp_assign (hJ t _ ht)

theorem wp_loadBackfillSnapshots (h : J s) (plan : CoreWindowPlan) :
    wp (loadBackfillSnapshots settings input plan)
      (fun blocks t => J t ∧ blocks.map (·.height) = plan.fillHeights input.fillBlocks)
      (fun _ => J) J s := by
  refine wp_ite (fun _ => ?_) (fun _ => wp_fillBackfillWindow hJ h plan plan.source)
  refine wp_bind (wp_attempt (wp_mono (wp_fillBackfillWindow hJ h plan .node) ?_ ?_
    (fun _ h => h)))
  · exact fun _ t ht => wp_pure ht
  · exact fun _ t ht => wp_bind (wp_assign (wp_fillBackfillWindow hJ (hJ t _ ht) plan .storage))

omit hJ in
theorem wp_fixedWindowPlan (h : J s) (heights : List Nat) :
    wp (fixedWindowPlan heights)
      (fun blocks t => J t ∧ blocks.map (·.height) = heights ∧ heights ≠ []) (fun _ => J) J s := by
  refine wp_ite (fun _ => wp_throw h) (fun hne => ?_)
  refine wp_mono (wp_loadRawSnapshots h heights) ?_ (fun _ _ h => h) (fun _ h => h)
  rintro blocks _ ⟨rfl,hblocks⟩
  exact ⟨h,hblocks,fun hnil => hne (by rw [hnil]; rfl)⟩

end Snapshots

end OnlyDoge.CoreIndexer
