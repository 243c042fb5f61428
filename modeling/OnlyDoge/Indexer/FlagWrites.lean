import OnlyDoge.Indexer.Frames
import OnlyDoge.Warehouse.Frames
set_option autoImplicit false

/-!
The readiness flags, and what the jobs of an iteration do to any property that survives the
writes that touch neither them nor the pending materialization.
-/

namespace OnlyDoge.CoreIndexer
open Job

inductive ReadyFlag where
  | currentState
  | history
  | transactionRefs
  deriving DecidableEq,Repr

def isReady (metadata : Metadata) : ReadyFlag → Bool
  | .currentState => metadata.currentStateReady
  | .history => metadata.historyReady
  | .transactionRefs => metadata.transactionRefsReady

/-- A write of neither the flags nor the pending materialization. -/
def KeepsFlags (f : Metadata → Metadata) : Prop :=
  ∀ m, isReady (f m) = isReady m ∧ (f m).materialization = m.materialization

structure AboutFlags (J : IndexerStore → Prop) : Prop where
  relaxed : ∀ f s, KeepsFlags f → J s → J (s.relaxed f)
  durable : ∀ f s, KeepsFlags f → J s → J (s.durable f)
  outside : ∀ (s : IndexerStore) (warehouse : Warehouse) (rawBlocks : List ParsedDogecoinBlock)
    (underway : List (RawWrite ParsedDogecoinBlock)) (process : IndexerProcess), J s →
    J { s with
      warehouse := warehouse, rawBlocks := rawBlocks, underway := underway, process := process }

theorem AboutFlags.and {J J' : IndexerStore → Prop} (hJ : AboutFlags J) (hJ' : AboutFlags J') :
    AboutFlags (fun s => J s ∧ J' s) where
  relaxed f s hf h := ⟨hJ.relaxed f s hf h.1,hJ'.relaxed f s hf h.2⟩
  durable f s hf h := ⟨hJ.durable f s hf h.1,hJ'.durable f s hf h.2⟩
  outside s warehouse rawBlocks underway process h :=
    ⟨hJ.outside s warehouse rawBlocks underway process h.1,
      hJ'.outside s warehouse rawBlocks underway process h.2⟩

theorem keepsFlags_upsertCoreBlocks (records : List CoreBlockRecord) :
    KeepsFlags (Metadata.upsertCoreBlocks records) := by
  intro m
  unfold Metadata.upsertCoreBlocks
  induction records generalizing m with
  | nil => exact ⟨rfl,rfl⟩
  | cons record records ih => exact ih (m.upsertCoreBlock record)

section Writes
variable {J : IndexerStore → Prop} {f : Metadata → Metadata} (hJ : AboutFlags J)
include hJ

theorem keeps_execute_flags (hf : KeepsFlags f) : Keeps J (execute f) :=
  keeps_write (fun s h => hJ.durable f s hf h)

theorem keeps_zoom_flags {α : Type} (m : WarehouseJob α) :
    Keeps J (Job.zoom IndexerStore.warehousePart m) :=
  keeps_zoom (fun s hs w _ => by
    have hput (u : Warehouse) : J (IndexerStore.warehousePart.put u s) :=
      hJ.outside s u s.rawBlocks s.underway s.process hs
    exact wp_mono (wp_true m) (fun _ u _ => hput u) (fun _ u _ => hput u) (fun u _ => hput u))

theorem keeps_assign_flags (g : IndexerProcess → IndexerProcess) :
    Keeps J (Job.assign (IndexerStore.withProcess g) : IndexerJob Unit) :=
  keeps_assign (fun s h => hJ.outside s s.warehouse s.rawBlocks s.underway (g s.process) h)

theorem keeps_upsert_flags (update : CoreIndexerStateUpdate) :
    Keeps J (upsertCoreIndexerState update) :=
  keeps_upsertCoreIndexerState (fun s h => hJ.relaxed _ s (fun _ => ⟨rfl,rfl⟩) h)

theorem keeps_compareAndDelete_flags (marker : CoreApplyRecoveryMarker) :
    Keeps J (compareAndDeleteCoreApplyRecovery marker) := by
  refine keeps_call (fun s h => ?_)
  by_cases hmarker : s.metadata.coreApplyRecovery = some marker
  · simp only [hmarker,if_true]
    exact hJ.relaxed _ s (fun _ => ⟨rfl,rfl⟩) h
  · simp only [hmarker,if_false]
    exact h

end Writes

section Walk
variable {settings : CoreDogecoinIndexerSettings} {input : IterationInput} {latest : Int}
variable {state : CoreIndexerState} {J : IndexerStore → Prop} (hJ : AboutFlags J)
include hJ

theorem keeps_publishProgress_flags : Keeps J (publishProgress settings latest state) :=
  keeps_publishProgress (fun s _ h => hJ.relaxed _ s (fun _ => ⟨rfl,rfl⟩) h)

theorem keeps_recoverPendingCoreApplyIfNeeded_flags :
    Keeps J (recoverPendingCoreApplyIfNeeded input) := by
  refine keeps_bind (keeps_read _) (fun marker => ?_)
  cases marker with
  | none => exact keeps_pure ()
  | some marker =>
    refine keeps_bind (keeps_ofExcept _) (fun marker => keeps_bind (keeps_zoom_flags hJ _)
      (fun _ => keeps_bind (keeps_compareAndDelete_flags hJ marker) (fun cleared => ?_)))
    cases cleared with
    | true => exact keeps_pure ()
    | false => exact keeps_throw _

theorem keeps_ensureState_flags : Keeps J (ensureState latest) := by
  refine keeps_bind (keeps_read _) (fun current => ?_)
  cases current with
  | some state => exact keeps_pure state
  | none => exact keeps_bind (keeps_read _) (fun _ => keeps_upsert_flags hJ _)

theorem keeps_reconcileProcessTailWithWarehouse_flags :
    Keeps J (reconcileProcessTailWithWarehouse input state) := by
  refine keeps_bind (keeps_look _) (fun _ => keeps_ite (fun _ => keeps_pure _) (fun _ => ?_))
  refine keeps_bind (keeps_zoom_flags hJ _) (fun _ => keeps_bind (keeps_assign_flags hJ _)
    (fun _ => keeps_ite (fun _ => keeps_pure _) (fun _ => ?_)))
  exact keeps_bind (keeps_read _) (fun _ => keeps_bind (keeps_zoom_flags hJ _)
    (fun _ => keeps_upsert_flags hJ _))

theorem keeps_markTransactionRefsReadyIfCaughtUp_flags
    (hrefs : Keeps J (execute (fun metadata => { metadata with transactionRefsReady := true }))) :
    Keeps J (markTransactionRefsReadyIfCaughtUp state) :=
  keeps_bind (keeps_look _) (fun _ => keeps_ite (fun _ => keeps_pure _) (fun _ =>
    keeps_bind (keeps_read _) (fun _ => keeps_bind (keeps_when (fun _ => hrefs))
      (fun _ => keeps_assign_flags hJ _))))

theorem keeps_startIteration_flags
    (hrefs : Keeps J (execute (fun metadata => { metadata with transactionRefsReady := true }))) :
    Keeps J (startIteration settings input latest) :=
  keeps_bind (keeps_recoverPendingCoreApplyIfNeeded_flags hJ) (fun _ =>
    keeps_bind (keeps_ensureState_flags hJ) (fun _ =>
      keeps_bind (keeps_reconcileProcessTailWithWarehouse_flags hJ) (fun _ =>
        keeps_bind (keeps_markTransactionRefsReadyIfCaughtUp_flags hJ hrefs) (fun _ =>
          keeps_bind (keeps_publishProgress_flags hJ) (fun _ => keeps_bind (keeps_read _)
            (fun _ => keeps_pure _))))))

theorem absorbsSync_flags (heights : List Nat) : AbsorbsSync input heights J where
  part _ s _ h := hJ.outside s s.warehouse _ s.underway s.process h
  blocks _ s _ h := hJ.relaxed _ s (keepsFlags_upsertCoreBlocks _) h
  refs _ s _ h := hJ.outside s _ s.rawBlocks s.underway s.process h
  concurrency _ s h := hJ.outside s s.warehouse s.rawBlocks s.underway _ h
  underway _ s _ h := hJ.outside s s.warehouse s.rawBlocks _ s.process h

theorem keeps_storeRawBlockHeights_flags {heights : List Nat}
    {onCheckpoint : Int → IndexerJob Unit} (h : ∀ frontier, Keeps J (onCheckpoint frontier)) :
    Keeps J (storeRawBlockHeights settings input heights onCheckpoint) :=
  keeps_storeRawBlockHeights (absorbsSync_flags hJ heights) h

theorem keeps_syncRawBlockHeights_flags {heights : List Nat} {syncTail : Int}
    {stage : CoreIndexerStage} :
    Keeps J (syncRawBlockHeights settings input latest state heights syncTail stage) :=
  keeps_bind (keeps_storeRawBlockHeights_flags hJ (fun _ => keeps_checkpointSyncTail
    (fun s h => hJ.relaxed _ s (fun _ => ⟨rfl,rfl⟩) h))) (fun _ =>
    keeps_bind keeps_assertPrimaryLease (fun _ => keeps_bind (keeps_upsert_flags hJ _)
      (fun _ => keeps_publishProgress_flags hJ)))

theorem keeps_syncBackfill_flags : Keeps J (syncBackfill settings input latest state) :=
  keeps_ite
    (fun _ => keeps_bind (keeps_upsert_flags hJ _) (fun _ => keeps_bind
      (keeps_execute_flags hJ (fun _ => ⟨rfl,rfl⟩)) (fun _ => keeps_pure _)))
    (fun _ => keeps_bind (keeps_syncRawBlockHeights_flags hJ) (fun _ => keeps_pure _))

theorem keeps_processWindow_flags {load : IndexerJob (List ParsedDogecoinBlock)}
    {updateCurrentState : Bool} (hload : Keeps J load) :
    Keeps J (processWindow input load updateCurrentState) := by
  have happly (applications : List CoreDogecoinBlockApplication) : Keeps J
      (applyWindowApplications input applications updateCurrentState) :=
    keeps_runCoreBlockStep (keeps_zoom_flags hJ _)
  refine keeps_bind (keeps_runCoreBlockStep hload) (fun _ =>
    keeps_bind (keeps_runCoreBlockStep (keeps_ofExcept _)) (fun applications => ?_))
  unfold applyWindowApplicationsWithRecovery
  cases applications.head? with
  | none => exact happly applications
  | some first =>
    refine keeps_bind (keeps_look _) (fun _ => keeps_bind
      (keeps_execute_flags hJ (fun _ => ⟨rfl,rfl⟩)) (fun _ => keeps_bind (happly applications)
        (fun _ => keeps_bind ?_ (fun _ => keeps_pure _))))
    refine keeps_bind (keeps_compareAndDelete_flags hJ _) (fun cleared => ?_)
    cases cleared with
    | true => exact keeps_pure ()
    | false => exact keeps_throw _

theorem keeps_publishWindowProgress_flags {result : CoreDogecoinApplyResult}
    {stage : CoreIndexerStage} :
    Keeps J (publishWindowProgress settings latest result stage) :=
  keeps_runCoreBlockStep (keeps_bind (keeps_upsert_flags hJ _)
    (fun _ => keeps_publishProgress_flags hJ))

theorem keeps_loadBackfillSnapshots_flags (plan : CoreWindowPlan) :
    Keeps J (loadBackfillSnapshots settings input plan) := fun _ h =>
  wp_mono (wp_loadBackfillSnapshots (J := J)
    (fun s f hs => hJ.outside s s.warehouse s.rawBlocks s.underway (f s.process) hs) h plan)
    (fun _ _ ht => ht.1) (fun _ _ ht => ht) (fun _ ht => ht)

theorem keeps_processBackfillWindow_flags {currentStateReady : Bool} :
    Keeps J (processBackfillWindow settings input latest state currentStateReady) :=
  keeps_bind (keeps_look _) (fun _ => keeps_bind
    (keeps_processWindow_flags hJ (keeps_loadBackfillSnapshots_flags hJ _)) (fun _ =>
      keeps_bind (keeps_publishWindowProgress_flags hJ) (fun _ => keeps_pure _)))

theorem keeps_returnBackfillToSync_flags : Keeps J (returnBackfillToSync latest) :=
  keeps_bind (keeps_upsert_flags hJ _) (fun _ => keeps_execute_flags hJ (fun _ => ⟨rfl,rfl⟩))

theorem keeps_promoteBackfillToOnline_flags {currentStateReady : Bool}
    (hcurrent : Keeps J (execute (fun metadata => { metadata with currentStateReady := true })))
    (hhistory : ∀ ready, Keeps J
      (execute (fun metadata => { metadata with historyReady := ready })))
    (hpending : ∀ pending s, J s →
      J (s.relaxed (fun metadata => { metadata with materialization := some pending })))
    (hcleared : Keeps J (execute (fun metadata => { metadata with materialization := none }))) :
    Keeps J (promoteBackfillToOnline input latest state currentStateReady) := by
  have hmaterialize (asOfBlockHeight : Nat) :
      Keeps J (materializeCurrentState input latest asOfBlockHeight) := by
    refine keeps_bind (keeps_read _) (fun resumeFrom => keeps_bind
      (keeps_materializeCoreDogecoinCurrentState
        (fun s w _ h => hJ.outside s w s.rawBlocks s.underway s.process h) (fun _ _ => ?_) _)
      (fun _ => ?_))
    · exact keeps_bind (keeps_write (hpending _)) (fun _ =>
        keeps_bind keeps_assertPrimaryLease (fun _ => keeps_when (fun _ =>
          keeps_bind (keeps_upsert_flags hJ _) (fun _ => keeps_pure ()))))
    · refine keeps_bind (keeps_settleAll (fun m hm => ?_)) (fun _ => hcleared)
      simp only [List.mem_cons,List.not_mem_nil,or_false] at hm
      rcases hm with rfl | rfl
      · exact hcurrent
      · exact hhistory false
  refine keeps_bind (keeps_when (fun _ => hmaterialize _)) (fun _ =>
    keeps_bind (keeps_upsert_flags hJ _) (fun _ => keeps_settleAll (fun m hm => ?_)))
  simp only [List.mem_cons,List.not_mem_nil,or_false] at hm
  rcases hm with rfl | rfl | rfl
  · exact keeps_execute_flags hJ (fun _ => ⟨rfl,rfl⟩)
  · exact hhistory true
  · exact keeps_execute_flags hJ (fun _ => ⟨rfl,rfl⟩)

theorem keeps_syncOnlineBacklogIfNeeded_flags (stop : Int) :
    Keeps J (syncOnlineBacklogIfNeeded settings input latest state stop) :=
  keeps_ite (fun _ => keeps_pure _) (fun _ => keeps_bind (keeps_syncRawBlockHeights_flags hJ)
    (fun _ => keeps_pure _))

theorem keeps_online_flags : Keeps J (online settings input latest state) := by
  have hplan (heights : List Nat) : Keeps J (fixedWindowPlan heights) :=
    keeps_ite (fun _ => keeps_throw _) (fun _ => keeps_loadRawSnapshots heights)
  have hwindow (row : CoreIndexerState) (target : Int) (ready : Bool) :
      Keeps J (processOnlineWindow settings input latest row target ready) :=
    keeps_bind (keeps_storeRawBlockHeights_flags hJ (fun _ => keeps_pure ())) (fun _ =>
      keeps_bind (keeps_processWindow_flags hJ (hplan _)) (fun _ =>
        keeps_bind (keeps_publishWindowProgress_flags hJ) (fun _ => keeps_pure _)))
  have hprocess (row : CoreIndexerState) (force : Bool) :
      Keeps J (processOnlineBacklogIfNeeded settings input latest row force) :=
    keeps_ite (fun _ => keeps_pure _) (fun _ => keeps_bind (keeps_read _)
      (fun _ => hwindow row _ _))
  have hidle : Keeps J (publishOnlineNoWorkIfPossible settings latest state) :=
    keeps_bind (keeps_read _) (fun _ => keeps_ite
      (fun _ => keeps_bind (keeps_ite (fun _ => keeps_pure _) (fun _ => keeps_upsert_flags hJ _))
        (fun _ => keeps_publishProgress_flags hJ))
      (fun _ => keeps_when (fun _ => keeps_publishProgress_flags hJ)))
  refine keeps_bind (keeps_bind (keeps_syncOnlineBacklogIfNeeded_flags hJ _) (fun didSync =>
    keeps_bind (keeps_bind (keeps_read _) (fun _ => keeps_pure _)) (fun row =>
      keeps_bind (hprocess row didSync) (fun _ => keeps_pure _)))) (fun didWork => ?_)
  exact keeps_ite (fun _ => keeps_pure _) (fun _ => keeps_bind hidle (fun _ => keeps_pure _))

end Walk

end OnlyDoge.CoreIndexer
