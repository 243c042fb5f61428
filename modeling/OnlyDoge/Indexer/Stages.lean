import OnlyDoge.Indexer.WindowProcessing
import OnlyDoge.Indexer.FlagWrites
set_option autoImplicit false

/-!
The stages of an iteration. Before the online stage a window begins at the recorded tail; online
it follows the node's tip, and where it begins above the rows it would leave a gap.
-/

namespace OnlyDoge.CoreIndexer
open Job

section OnlineWindow
variable (settings : CoreDogecoinIndexerSettings) (latest : Int) (state : CoreIndexerState)

def onlineSyncEnd : Int := min latest (state.syncTail + settings.syncWindow)

/-- Raw sync has new heights, or the tip has moved. -/
def refreshesOnline : Bool :=
  !decide (onlineSyncEnd settings latest state ≤ state.syncTail ∧
    !shouldRefreshOnlineReprocessWindow state latest)

def onlineSyncedTail : Int :=
  if refreshesOnline settings latest state then onlineSyncEnd settings latest state
  else state.syncTail

def onlineTarget : Int := min (onlineSyncedTail settings latest state) latest

/-- The height at which the iteration processes from, when it processes a window. -/
def onlineWindowStart : Option Nat :=
  if onlineTarget settings latest state ≤ state.processTail ∧
      !refreshesOnline settings latest state then none
  else some (onlineProcessWindowStart state.processTail (onlineTarget settings latest state)
    settings.coreReprocessDepth).toNat

/-- With `n` processed blocks, the window begins at or below their end; where there is no window
the recorded tail is one of them. -/
def LeavesNoGap (n : Nat) : Prop :=
  match onlineWindowStart settings latest state with
  | some start => start ≤ n
  | none => state.processTail + 1 ≤ (n : Int)

instance (n : Nat) : Decidable (LeavesNoGap settings latest state n) := by
  unfold LeavesNoGap
  cases onlineWindowStart settings latest state <;> infer_instance

end OnlineWindow

theorem leavesNoGap_of_tail {settings : CoreDogecoinIndexerSettings} {latest : Int}
    {state : CoreIndexerState} {n : Nat} (h : state.processTail + 1 ≤ (n : Int)) :
    LeavesNoGap settings latest state n := by
  unfold LeavesNoGap onlineWindowStart
  by_cases hnone : onlineTarget settings latest state ≤ state.processTail ∧
      !refreshesOnline settings latest state
  · rw [if_pos hnone]
    exact h
  · rw [if_neg hnone]
    change (onlineProcessWindowStart _ _ _).toNat ≤ n
    unfold onlineProcessWindowStart
    omega

variable {A : AppliedBlock → Prop}

variable (A) in
/-- Nothing is pending, and every height up to the recorded tail is processed. -/
def CaughtUp (stage : CoreIndexerStage) (s : IndexerStore) : Prop :=
  ∃ p n, Running A stage p n s ∧ p + 1 ≤ (n : Int)

section Supply
variable {B : ParsedDogecoinBlock → Prop} {b : Bool}

variable (A B) in
/-- The windows of an iteration are written from reported blocks, as `A` says. -/
structure Supplied (s : IndexerStore) : Prop where
  reported : HoldsReported B s
  admits : Admits A B s.metadata.currentStateReady

theorem aboutFlags_currentStateReady :
    AboutFlags (fun s : IndexerStore => s.metadata.currentStateReady = b) where
  relaxed _ s hf h := (congrFun (hf s.metadata).1 .currentState).trans h
  durable _ s hf h := (congrFun (hf s.metadata).1 .currentState).trans h
  outside _ _ _ _ _ h := h

theorem keeps_supplied {α : Type} {m : IndexerJob α} (hreported : Keeps (HoldsReported B) m)
    (hflag : ∀ b, Keeps (fun s => s.metadata.currentStateReady = b) m) :
    Keeps (Supplied A B) m := by
  intro s hs
  have hkept {t : IndexerStore} (h : HoldsReported B t ∧
      t.metadata.currentStateReady = s.metadata.currentStateReady) : Supplied A B t :=
    ⟨h.1,h.2 ▸ hs.admits⟩
  exact wp_mono (wp_and (hreported s hs.reported) (hflag _ s rfl)) (fun _ _ => hkept)
    (fun _ _ => hkept) (fun _ => hkept)

variable {settings : CoreDogecoinIndexerSettings} {input : IterationInput} {latest : Int}
variable {state : CoreIndexerState}
variable (hnode : ∀ height block, input.node.block height = some block → B block)

theorem keeps_startIteration_supplied :
    Keeps (Supplied A B) (startIteration settings input latest) :=
  keeps_supplied keeps_startIteration_reported (fun _ =>
    keeps_startIteration_flags aboutFlags_currentStateReady (keeps_write (fun _ h => h)))

include hnode

theorem keeps_syncOnlineBacklogIfNeeded_supplied (stop : Int) :
    Keeps (Supplied A B) (syncOnlineBacklogIfNeeded settings input latest state stop) :=
  keeps_supplied (keeps_syncOnlineBacklogIfNeeded_reported hnode stop)
    (fun _ => keeps_syncOnlineBacklogIfNeeded_flags aboutFlags_currentStateReady stop)

end Supply

section Stages
variable {B : ParsedDogecoinBlock → Prop}
variable {settings : CoreDogecoinIndexerSettings} {input : IterationInput} {s : IndexerStore}
variable {stage : CoreIndexerStage} {p latest : Int} {n : Nat} {state : CoreIndexerState}

theorem Running.tail (h : Running A stage p n s) : -1 ≤ p := by
  obtain ⟨row,hrow,-,rfl⟩ := h.row
  exact h.recoverable.current.tail row hrow

theorem Running.backfill (h : Running A stage p n s) (hstage : stage ≠ .online) :
    p + 1 ≤ (n : Int) := by
  obtain ⟨row,hrow,rfl,rfl⟩ := h.row
  have hle := h.recoverable.current.backfill row hrow hstage
  rwa [h.clear,h.height] at hle

theorem Running.caughtUp (h : Running A stage p n s) (hstage : stage ≠ .online) :
    CaughtUp A stage s :=
  ⟨p,n,h,h.backfill hstage⟩

theorem Running.withProcess (h : Running A stage p n s) (f : IndexerProcess → IndexerProcess) :
    Running A stage p n (s.withProcess f) := h.outside _ _ _

theorem Running.enters {update : CoreIndexerStateUpdate} {next : CoreIndexerStage}
    (h : Running A stage p n s) (htail : update.processTail = none)
    (hnext : update.stage = some next) (hstage : stage ≠ .online) :
    Running A next p n (CoreIndexer.upserted update s) := by
  obtain ⟨row,hrow,hs,hp⟩ := h.row
  refine ⟨h.recoverable.upsertedSame hrow htail (fun _ _ _ => hs ▸ hstage),h.clear,
    ⟨_,rfl,?_,?_⟩,h.height⟩
  · unfold CoreIndexerStateUpdate.next
    rw [hnext]
    rfl
  · unfold CoreIndexerStateUpdate.next
    rw [htail,hrow]
    exact hp

theorem attains_running {α : Type} {m : IndexerJob α} (h : Running A stage p n s)
    (hm : Keeps (Running A stage p n) m) : Attains A m (fun _ => Running A stage p n) s :=
  attains_of_keeps hm (fun _ ht => ht.recoverable) h

theorem attains_upsertCoreIndexerState {update : CoreIndexerStateUpdate} (h : Recoverable A s)
    (hup : Recoverable A (upserted update s)) :
    Attains A (upsertCoreIndexerState update)
      (fun state t => state = update.next s.metadata.indexerState ∧ t = upserted update s) s :=
  wp_upsertCoreIndexerState ⟨rfl,rfl⟩ hup h h

theorem keeps_execute_running {f : Metadata → Metadata} (hf : KeepsRow f) :
    Keeps (Running A stage p n) (execute f) := keeps_write (fun _ ht => ht.durable hf)

/-- Every write of a raw sync names the stage that runs it and leaves the tail of processing. -/
theorem attains_syncRawBlockHeights (h : Running A stage p n s) (heights : List Nat)
    (syncTail : Int) :
    Attains A (syncRawBlockHeights settings input latest state heights syncTail stage)
      (fun _ t => Running A stage p n t ∧
        ∃ row, t.metadata.indexerState = some row ∧ row.syncTail = syncTail) s := by
  have hcheckpoint (frontier : Int) : Keeps (Running A stage p n)
      (checkpointSyncTail latest state stage frontier) :=
    keeps_checkpointSyncTail (fun _ ht => ht.upserted rfl (Or.inr rfl))
  refine attains_bind (attains_running h (keeps_storeRawBlockHeights_running hcheckpoint)) ?_
  intro _ t ht
  refine wp_bind (wp_read ?_ ht.recoverable ht.recoverable)
  have hup : Running A stage p n (upserted
      { stage := some stage
        syncTail := some syncTail
        onlineTip := some latest
        lastError := some false } t) := ht.upserted rfl (Or.inr rfl)
  refine attains_bind (attains_upsertCoreIndexerState ht.recoverable hup.recoverable) ?_
  rintro _ _ ⟨rfl,rfl⟩
  refine attains_of_keeps (J := fun u => Running A stage p n u ∧
    ∃ row, u.metadata.indexerState = some row ∧ row.syncTail = syncTail)
    (keeps_publishProgress ?_) (fun _ hu => hu.1.recoverable) ⟨hup,_,rfl,rfl⟩
  exact fun u _ hu => ⟨hu.1.relaxed (keepsRow_withProgress _),hu.2⟩

theorem attains_syncBackfill (h : Running A .syncBackfill p n s) :
    Attains A (syncBackfill settings input latest state)
      (fun _ t => ∃ next, CaughtUp A next t) s := by
  refine wp_ite (fun _ => ?_) (fun _ => ?_)
  · have hnext : Running A .processBackfill p n (upserted
        { stage := some .processBackfill, onlineTip := some latest } s) :=
      h.enters rfl rfl (by simp)
    refine attains_bind (attains_upsertCoreIndexerState h.recoverable hnext.recoverable) ?_
    rintro _ _ ⟨rfl,rfl⟩
    refine attains_bind (attains_running hnext (keeps_execute_running
      (keepsRow_withProgress _))) ?_
    exact fun _ t ht => wp_pure ⟨_,ht.caughtUp (by simp)⟩
  · refine attains_bind (attains_syncRawBlockHeights h _ _) ?_
    exact fun _ t ht => wp_pure ⟨_,ht.1.caughtUp (by simp)⟩

theorem keeps_materializeCurrentState (asOfBlockHeight : Nat) :
    Keeps (Running A stage p n) (materializeCurrentState input latest asOfBlockHeight) := by
  have hfacts : AboutFactsOf IndexerStore.warehousePart (Running A stage p n) :=
    fun _ _ hsame ht => ht.sameFacts hsame.facts
  have hheartbeat (completed : Nat) :
      Keeps (Running A stage p n) (materializationHeartbeat input latest completed) :=
    keeps_bind keeps_assertPrimaryLease (fun _ => keeps_when (fun _ => keeps_bind
      (keeps_upsertCoreIndexerState (fun _ ht => ht.upserted rfl (Or.inl rfl)))
      (fun _ => keeps_pure ())))
  refine keeps_bind (keeps_read _) (fun resumeFrom => ?_)
  refine keeps_bind (keeps_materializeCoreDogecoinCurrentState hfacts ?_ _) (fun _ => ?_)
  · intro completed count
    exact keeps_bind (keeps_write (fun _ ht => ht.relaxed (fun _ => ⟨rfl,rfl⟩)))
      (fun _ => hheartbeat completed)
  · refine keeps_bind (keeps_settleAll (fun m hm => ?_))
      (fun _ => keeps_execute_running (fun _ => ⟨rfl,rfl⟩))
    simp only [List.mem_cons,List.not_mem_nil,or_false] at hm
    rcases hm with rfl | rfl
    · exact keeps_execute_running (fun _ => ⟨rfl,rfl⟩)
    · exact keeps_execute_running (fun _ => ⟨rfl,rfl⟩)

theorem attains_promoteBackfillToOnline {currentStateReady : Bool}
    (h : Running A .processBackfill p n s) :
    Attains A (promoteBackfillToOnline input latest state currentStateReady)
      (fun _ => Running A .online p n) s := by
  refine attains_bind (attains_running h (keeps_when (fun _ => keeps_materializeCurrentState _)))
    (fun _ t ht => ?_)
  have hnext : Running A .online p n (upserted
      { stage := some .online, onlineTip := some latest, lastError := some false } t) :=
    ht.enters rfl rfl (by simp)
  refine attains_bind (attains_upsertCoreIndexerState ht.recoverable hnext.recoverable) ?_
  rintro _ _ ⟨rfl,rfl⟩
  refine attains_running hnext (keeps_settleAll (fun m hm => ?_))
  simp only [List.mem_cons,List.not_mem_nil,or_false] at hm
  rcases hm with rfl | rfl | rfl
  · exact keeps_execute_running (keepsRow_withProgress _)
  · exact keeps_execute_running (fun _ => ⟨rfl,rfl⟩)
  · exact keeps_execute_running (keepsRow_withProgress _)

theorem attains_returnBackfillToSync (h : Running A .processBackfill p n s) :
    Attains A (returnBackfillToSync latest) (fun _ => Running A .syncBackfill p n) s := by
  have hnext : Running A .syncBackfill p n (upserted
      { stage := some .syncBackfill, onlineTip := some latest } s) := h.enters rfl rfl (by simp)
  refine attains_bind (attains_upsertCoreIndexerState h.recoverable hnext.recoverable) ?_
  rintro _ _ ⟨rfl,rfl⟩
  exact attains_running hnext (keeps_execute_running (keepsRow_withProgress _))

theorem attains_transitionCompletedBackfill {currentStateReady : Bool}
    (h : Running A .processBackfill p n s) :
    Attains A (transitionCompletedBackfill settings input latest state currentStateReady)
      (fun _ t => ∃ next, CaughtUp A next t) s := by
  have hpromote : Keeps (Running A .processBackfill p n)
      (shouldPromoteBackfill settings latest state currentStateReady) :=
    keeps_ite (fun _ => keeps_pure _) (fun _ => keeps_ite (fun _ => keeps_pure _)
      (fun _ => keeps_bind (keeps_read _) (fun _ => keeps_pure _)))
  refine attains_bind (attains_running h hpromote) (fun promote t ht => ?_)
  refine wp_ite (fun _ => ?_) (fun _ => ?_)
  · refine attains_bind (attains_promoteBackfillToOnline ht) ?_
    exact fun _ u hu => wp_pure ⟨_,p,n,hu,ht.backfill (by simp)⟩
  · refine attains_bind (attains_returnBackfillToSync ht) ?_
    exact fun _ u hu => wp_pure ⟨_,hu.caughtUp (by simp)⟩

theorem attains_processBackfillWindow
    (hnode : ∀ height block, input.node.block height = some block → B block)
    {currentStateReady : Bool} (h : Running A .processBackfill p n s)
    (hreported : HoldsReported B s) (hA : Admits A B currentStateReady)
    (hstate : state.processTail = p) :
    Attains A (processBackfillWindow settings input latest state currentStateReady)
      (fun _ t => ∃ next, CaughtUp A next t) s := by
  refine wp_bind (wp_look ?_)
  let plan := planBackfillWindow settings input latest state s.process.nodeSourceRetryAtMs
  have hmin := h.tail
  have hle := h.backfill (by simp)
  have hfirst : plan.firstHeight = p + 1 := by
    change state.processTail + 1 = p + 1
    rw [hstate]
  have hload : Attains A (loadBackfillSnapshots settings input plan)
      (fun blocks t => Running A .processBackfill p n t ∧ HoldsReported B t ∧
        BlocksAt (p + 1).toNat blocks ∧ ∀ block ∈ blocks, B block) s := by
    refine wp_mono (wp_and (wp_loadBackfillSnapshots (J := Running A .processBackfill p n)
      (fun _ f ht => ht.withProcess f) h plan) (wp_loadBackfillSnapshots_reported hnode hreported
        plan)) ?_ (fun _ _ ht => ht.1.recoverable) (fun _ ht => ht.1.recoverable)
    exact fun blocks t ht => ⟨ht.1.1,ht.2.1,hfirst ▸ blocksAt_of_heights ht.1.2,ht.2.2⟩
  refine attains_bind (attains_processWindow h hA hload (by omega) (fun _ => by omega)) ?_
  intro result t ht
  refine attains_bind (attains_publishWindowProgress ht) ?_
  rintro _ u ⟨m,hu,hm⟩
  exact wp_pure ⟨_,_,m,hu,hm⟩

theorem attains_processBackfill
    (hnode : ∀ height block, input.node.block height = some block → B block)
    (h : Running A .processBackfill p n s) (hs : Supplied A B s)
    (hstate : state.processTail = p) :
    Attains A (processBackfill settings input latest state)
      (fun _ t => ∃ next, CaughtUp A next t) s := by
  refine wp_bind (wp_read ?_ h.recoverable h.recoverable)
  exact wp_ite (fun _ => attains_transitionCompletedBackfill h)
    (fun _ => attains_processBackfillWindow hnode h hs.reported hs.admits hstate)

theorem attains_syncOnlineBacklogIfNeeded (h : Running A .online p n s)
    (hrow : s.metadata.indexerState = some state) :
    Attains A (syncOnlineBacklogIfNeeded settings input latest state
        (onlineSyncEnd settings latest state))
      (fun didSync t => didSync = refreshesOnline settings latest state ∧ Running A .online p n t ∧
        ∃ row, t.metadata.indexerState = some row ∧
          row.syncTail = onlineSyncedTail settings latest state) s := by
  unfold onlineSyncedTail
  refine wp_ite (fun hidle => ?_) (fun hwork => ?_)
  · have hno : refreshesOnline settings latest state = false := by
      unfold refreshesOnline
      rw [decide_eq_true hidle]
      rfl
    rw [hno]
    exact wp_pure ⟨rfl,h,state,hrow,rfl⟩
  · have hyes : refreshesOnline settings latest state = true := by
      unfold refreshesOnline
      rw [decide_eq_false hwork]
      rfl
    rw [hyes]
    refine attains_bind (attains_syncRawBlockHeights h _ _) ?_
    exact fun _ t ht => wp_pure ⟨rfl,ht.1,ht.2⟩

theorem attains_processOnlineWindow
    (hnode : ∀ height block, input.node.block height = some block → B block) {target : Int}
    (h : Running A .online p n s) (hs : Supplied A B s) (hstate : state.processTail = p)
    (hstart : (onlineProcessWindowStart p target settings.coreReprocessDepth).toNat ≤ n) :
    Attains A (processOnlineWindow settings input latest state target
      s.metadata.currentStateReady) (fun _ => CaughtUp A .online) s := by
  have hstore : Attains A (storeRawBlockHeights settings input (onlineProcessHeights
      state.processTail target settings.coreReprocessDepth settings.coreProcessWindow)
      (fun _ => Pure.pure ())) (fun _ t => Running A .online p n t ∧ HoldsReported B t) s :=
    wp_mono (wp_and (attains_running h (keeps_storeRawBlockHeights_running
      (fun _ => keeps_pure ()))) (keeps_storeRawBlockHeights (absorbsSync_reported hnode _)
        (fun _ => keeps_pure ()) s hs.reported)) (fun _ _ ht => ht) (fun _ _ ht => ht.1)
      (fun _ ht => ht.1)
  refine attains_bind hstore ?_
  rintro _ t ⟨ht,hreported⟩
  rw [hstate]
  have hload : Attains A (fixedWindowPlan (onlineProcessHeights p target
      settings.coreReprocessDepth settings.coreProcessWindow))
      (fun blocks u => Running A .online p n u ∧ HoldsReported B u ∧ BlocksAt
        (onlineProcessWindowStart p target settings.coreReprocessDepth).toNat blocks ∧
        ∀ block ∈ blocks, B block) t := by
    refine wp_mono (wp_and (wp_fixedWindowPlan (J := Running A .online p n) ht _)
      (wp_fixedWindowPlan_reported hreported _)) ?_ (fun _ _ hu => hu.1.recoverable)
      (fun _ hu => hu.1.recoverable)
    rintro blocks u ⟨⟨hu,hheights,-⟩,hureported,hblocks⟩
    exact ⟨hu,hureported,blocksAt_of_heights
      (hheights.trans (List.take_range'_of_length_le (Nat.le_refl _)).symm),hblocks⟩
  refine attains_bind (attains_processWindow ht hs.admits hload hstart
    (fun hne => absurd rfl hne)) ?_
  intro result u hu
  refine attains_bind (attains_publishWindowProgress hu) ?_
  rintro _ v ⟨m,hv,hm⟩
  exact wp_pure ⟨_,m,hv,hm⟩

theorem attains_advanceOnlineBacklog
    (hnode : ∀ height block, input.node.block height = some block → B block)
    (h : Running A .online p n s) (hs : Supplied A B s)
    (hrow : s.metadata.indexerState = some state) (hgap : LeavesNoGap settings latest state n) :
    Attains A (advanceOnlineBacklog settings input latest state)
      (fun _ => CaughtUp A .online) s := by
  have hstate : state.processTail = p := by
    obtain ⟨row,hr,-,hp⟩ := h.row
    rw [hrow] at hr
    cases hr
    exact hp
  refine attains_bind (wp_mono (wp_and (attains_syncOnlineBacklogIfNeeded h hrow)
    (keeps_syncOnlineBacklogIfNeeded_supplied hnode _ s hs)) (fun _ _ ht => ht)
    (fun _ _ ht => ht.1) (fun _ ht => ht.1)) ?_
  rintro _ t ⟨⟨rfl,ht,row,htrow,hsynced⟩,hsupplied⟩
  have hrowTail : row.processTail = p := by
    obtain ⟨r,hr,-,hp⟩ := ht.row
    rw [htrow] at hr
    cases hr
    exact hp
  have htarget : min row.syncTail latest = onlineTarget settings latest state := by
    rw [hsynced]
    rfl
  refine wp_bind (wp_bind (wp_read ?_ ht.recoverable ht.recoverable))
  rw [htrow]
  refine wp_pure ?_
  unfold LeavesNoGap onlineWindowStart at hgap
  refine attains_bind (R := fun _ => CaughtUp A .online) ?_ (fun _ u hu => wp_pure hu)
  unfold processOnlineBacklogIfNeeded
  simp only [Option.getD_some,htarget,hrowTail]
  rw [hstate] at hgap
  by_cases hnone : onlineTarget settings latest state ≤ p ∧
      !refreshesOnline settings latest state
  · rw [if_pos hnone] at hgap ⊢
    exact wp_pure ⟨p,n,ht,hgap⟩
  · rw [if_neg hnone] at hgap ⊢
    refine wp_bind (wp_read ?_ ht.recoverable ht.recoverable)
    exact attains_processOnlineWindow hnode ht hsupplied hrowTail hgap

theorem CaughtUp.recoverable (h : CaughtUp A stage s) : Recoverable A s := by
  obtain ⟨_,_,hs,-⟩ := h
  exact hs.recoverable

theorem attains_publishOnlineNoWorkIfPossible (h : CaughtUp A .online s) :
    Attains A (publishOnlineNoWorkIfPossible settings latest state) (fun _ => CaughtUp A .online)
      s := by
  obtain ⟨p,n,hs,hle⟩ := h
  have hensure : Keeps (Running A .online p n) (ensureReadyOnlineState latest state) :=
    keeps_ite (fun _ => keeps_pure _) (fun _ => keeps_upsertCoreIndexerState
      (fun _ ht => ht.upserted rfl (Or.inr rfl)))
  have hkeeps : Keeps (Running A .online p n)
      (publishOnlineNoWorkIfPossible settings latest state) := by
    refine keeps_bind (keeps_read _) (fun _ => keeps_ite (fun _ => ?_) (fun _ => ?_))
    · exact keeps_bind hensure (fun _ => keeps_publishProgress_running _ _)
    · exact keeps_when (fun _ => keeps_publishProgress_running _ _)
  exact wp_mono (attains_running hs hkeeps) (fun _ _ ht => ⟨p,n,ht,hle⟩) (fun _ _ ht => ht)
    (fun _ ht => ht)

theorem attains_online
    (hnode : ∀ height block, input.node.block height = some block → B block)
    (h : Running A .online p n s) (hs : Supplied A B s)
    (hrow : s.metadata.indexerState = some state) (hgap : LeavesNoGap settings latest state n) :
    Attains A (online settings input latest state) (fun _ => CaughtUp A .online) s := by
  refine attains_bind (attains_advanceOnlineBacklog hnode h hs hrow hgap) (fun didWork t ht => ?_)
  refine wp_ite (fun _ => wp_pure ht) (fun _ => ?_)
  exact attains_bind (attains_publishOnlineNoWorkIfPossible ht) (fun _ u hu => wp_pure hu)

/-- What the run theorems ask of an iteration: where its process has compared the tails before,
an online window leaves no gap. -/
def IterationLeavesNoGap (settings : CoreDogecoinIndexerSettings) (input : IterationInput)
    (s : IndexerStore) : Prop :=
  s.process.warehouseTailReconciled = true → ∀ row ∈ s.metadata.indexerState,
    row.stage = .online → LeavesNoGap settings input.node.latest row
      (solidHeight s.warehouse s.metadata.coreApplyRecovery)

instance (settings : CoreDogecoinIndexerSettings) (input : IterationInput) (s : IndexerStore) :
    Decidable (IterationLeavesNoGap settings input s) := by
  unfold IterationLeavesNoGap
  infer_instance

variable (A) in
/-- An iteration that ends runs the online stage when the stored row names it. -/
def Ended (s t : IndexerStore) : Prop :=
  (∃ stage, CaughtUp A stage t) ∧ ∀ row, s.metadata.indexerState = some row →
    row.stage = .online → CaughtUp A .online t

theorem attains_runDogecoinStage
    (hnode : ∀ height block, input.node.block height = some block → B block) {t : IndexerStore}
    (h : Started A s state t) (hs : Supplied A B t) (hgap : IterationLeavesNoGap settings input s) :
    Attains A (runDogecoinStage settings input input.node.latest state) (fun _ => Ended A s) t := by
  have hrunning := h.running
  have hother {u : IndexerStore} (hstage : state.stage ≠ .online)
      (hu : ∃ stage, CaughtUp A stage u) : Ended A s u :=
    ⟨hu,fun row hrow honline => absurd ((h.stage row hrow).trans honline) hstage⟩
  unfold runDogecoinStage
  cases hstage : state.stage with
  | syncBackfill =>
    rw [hstage] at hrunning hother
    exact wp_mono (attains_syncBackfill hrunning) (fun _ _ hu => hother (by simp) hu)
      (fun _ _ hu => hu) (fun _ hu => hu)
  | processBackfill =>
    rw [hstage] at hrunning hother
    exact wp_mono (attains_processBackfill hnode hrunning hs rfl)
      (fun _ _ hu => hother (by simp) hu) (fun _ _ hu => hu) (fun _ hu => hu)
  | online =>
    rw [hstage] at hrunning
    refine wp_mono (attains_online hnode hrunning hs h.row ?_)
      (fun _ _ hu => ⟨⟨_,hu⟩,fun _ _ _ => hu⟩) (fun _ _ hu => hu) (fun _ hu => hu)
    cases hprocess : s.process.warehouseTailReconciled with
    | true => exact hgap hprocess state (h.stored hstage hprocess) hstage
    | false => exact leavesNoGap_of_tail (h.height ▸ h.compared hprocess)

theorem attains_runDogecoinConfig
    (hnode : ∀ height block, input.node.block height = some block → B block)
    (h : Recoverable A s) (hs : Supplied A B s) (hgap : IterationLeavesNoGap settings input s) :
    Attains A (runDogecoinConfig settings input) (fun _ => Ended A s) s := by
  refine wp_bind (wp_read ?_ h h)
  refine wp_bind (wp_read ?_ h h)
  have hstart : Attains A (startIteration settings input input.node.latest)
      (fun state t => Started A s state t ∧ Supplied A B t) s :=
    wp_mono (wp_and (attains_startIteration h) (keeps_startIteration_supplied s hs))
      (fun _ _ ht => ht) (fun _ _ ht => ht.1) (fun _ ht => ht.1)
  refine wp_onFailure (wp_mono (attains_bind hstart
    (fun state t ht => attains_runDogecoinStage hnode ht.1 ht.2 hgap)) (fun _ _ hu => hu) ?_
    (fun _ hu => hu))
  exact fun _ u hu => wp_mono (keeps_setCoreIndexerError
    (fun _ hv => recoverable_setCoreIndexerError hv) u hu) (fun _ _ hv => hv) (fun _ _ hv => hv)
    (fun _ hv => hv)

theorem recoverable_land (h : Recoverable A s) (write : RawWrite ParsedDogecoinBlock) :
    Recoverable A (land s write) := by
  cases write with
  | part key block => exact ⟨h.current,h.unflushed,h.pending⟩
  | blocks records => exact h.keepsRow (keepsRow_upsertCoreBlocks records)
  | refs refs => exact h.sameFacts rfl

theorem recoverable_crash (h : Recoverable A s) (instanceId : String) (kept : Nat) :
    Recoverable A ((IndexerStep.crash instanceId kept).after settings s) := by
  have hsound : Sound A s.warehouse ((s.unflushed[kept]?).getD s.metadata) := by
    cases hkept : s.unflushed[kept]? with
    | none => exact h.current
    | some metadata => exact h.unflushed metadata (List.mem_of_getElem? hkept)
  refine ⟨hsound,?_,?_⟩ <;> simp [IndexerStep.after]

/-- The condition of the run theorems on one step; it speaks of iterations only. -/
def StepLeavesNoGap (settings : CoreDogecoinIndexerSettings) :
    IndexerStep → IndexerStore → Prop
  | .iterate input _,s => IterationLeavesNoGap settings input s
  | _,_ => True

instance (settings : CoreDogecoinIndexerSettings) (step : IndexerStep) (s : IndexerStore) :
    Decidable (StepLeavesNoGap settings step s) := by
  unfold StepLeavesNoGap
  cases step <;> infer_instance

theorem recoverable_step {step : IndexerStep} (h : Recoverable A s) (hreported : HoldsReported B s)
    (hnode : ∀ input ∈ step.inputs, ∀ height block, input.node.block height = some block →
      B block)
    (hA : ∀ input ∈ step.inputs, Admits A B s.metadata.currentStateReady)
    (hgap : StepLeavesNoGap settings step s) : Recoverable A (step.after settings s) := by
  cases step with
  | iterate input fates =>
    have hinput := List.mem_singleton.mpr (Eq.refl input)
    refine last_of_wp (wp_mono (attains_runDogecoinConfig (hnode input hinput) h
      ⟨hreported,hA input hinput⟩ hgap) ?_ (fun _ _ hu => hu) (fun _ hu => hu)) fates
    rintro _ t ⟨⟨_,ht⟩,-⟩
    exact ht.recoverable
  | lands index =>
    simp only [IndexerStep.after]
    cases hwrite : s.underway[index]? with
    | none => exact h
    | some write =>
      have hs : Recoverable A { s with underway := s.underway.eraseIdx index } :=
        ⟨h.current,h.unflushed,h.pending⟩
      exact recoverable_land hs write
  | restart instanceId => exact ⟨h.current,h.unflushed,h.pending⟩
  | crash instanceId kept => exact recoverable_crash h instanceId kept

theorem recoverable_initialStore (instanceId : String) :
    Recoverable A (initialStore settings instanceId) := by
  refine ⟨⟨⟨[],⟨rfl,rfl,by simp⟩⟩,?_,?_⟩,?_,?_⟩ <;> simp [initialStore,emptyMetadata]

end Stages

end OnlyDoge.CoreIndexer
