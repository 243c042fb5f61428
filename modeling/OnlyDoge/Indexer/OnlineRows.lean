import OnlyDoge.Indexer.Stages
set_option autoImplicit false

/-!
The online stage is never left: once every state of the database that a crash may bring back
names it, they all do for good. So a window before the online stage meets the rows of the
invariant, whatever the online windows of the run were.
-/

namespace OnlyDoge.CoreIndexer
open Job

/-- A stored row of the online stage, its tail at -1 or a height. -/
def OnlineRow (metadata : Metadata) : Prop :=
  ∃ row, metadata.indexerState = some row ∧ row.stage = .online ∧ -1 ≤ row.processTail

structure OnlineOnly (s : IndexerStore) : Prop where
  current : OnlineRow s.metadata
  unflushed : ∀ metadata ∈ s.unflushed, OnlineRow metadata

section Writes
variable {s : IndexerStore} {f : Metadata → Metadata}

theorem OnlineRow.keepsRow {metadata : Metadata} (h : OnlineRow metadata) (hf : KeepsRow f) :
    OnlineRow (f metadata) := by
  obtain ⟨row,hrow,hrest⟩ := h
  exact ⟨row,(hf metadata).1.trans hrow,hrest⟩

theorem OnlineOnly.relaxedTo (h : OnlineOnly s) (hf : OnlineRow (f s.metadata)) :
    OnlineOnly (s.relaxed f) := by
  refine ⟨hf,fun metadata hm => ?_⟩
  rcases List.mem_append.mp hm with hm | hm
  · exact h.unflushed metadata hm
  · rw [List.mem_singleton.mp hm]
    exact h.current

theorem OnlineOnly.relaxed (h : OnlineOnly s) (hf : KeepsRow f) : OnlineOnly (s.relaxed f) :=
  h.relaxedTo (h.current.keepsRow hf)

theorem onlineOnly_durable (hf : OnlineRow (f s.metadata)) : OnlineOnly (s.durable f) :=
  ⟨hf,fun _ hm => (by cases hm)⟩

theorem OnlineRow.next {update : CoreIndexerStateUpdate} {metadata : Metadata}
    (h : OnlineRow metadata) (hstage : update.stage = none ∨ update.stage = some .online)
    (htail : ∀ tail ∈ update.processTail, -1 ≤ tail) :
    (update.next metadata.indexerState).stage = .online ∧
      -1 ≤ (update.next metadata.indexerState).processTail := by
  obtain ⟨row,hrow,honline,hmin⟩ := h
  unfold CoreIndexerStateUpdate.next
  rw [hrow]
  constructor
  · rcases hstage with hnone | hsome
    · simpa [hnone] using honline
    · simp [hsome]
  · cases hprocess : update.processTail with
    | none => simpa [hprocess] using hmin
    | some tail => simpa [hprocess] using htail tail hprocess

theorem OnlineOnly.upserted {update : CoreIndexerStateUpdate} (h : OnlineOnly s)
    (hstage : update.stage = none ∨ update.stage = some .online)
    (htail : ∀ tail ∈ update.processTail, -1 ≤ tail) :
    OnlineOnly (CoreIndexer.upserted update s) := by
  obtain ⟨honline,hmin⟩ := h.current.next hstage htail
  exact h.relaxedTo ⟨_,rfl,honline,hmin⟩

theorem OnlineOnly.outside (h : OnlineOnly s) (warehouse : Warehouse) (process : IndexerProcess)
    (rawBlocks : List ParsedDogecoinBlock) (underway : List (RawWrite ParsedDogecoinBlock)) :
    OnlineOnly { s with
      warehouse := warehouse, process := process, rawBlocks := rawBlocks, underway := underway } :=
  ⟨h.current,h.unflushed⟩

theorem keeps_execute_onlineOnly (hf : KeepsRow f) : Keeps OnlineOnly (execute f) :=
  keeps_write (fun _ h => onlineOnly_durable (h.current.keepsRow hf))

theorem keeps_zoom_onlineOnly {α : Type} (m : WarehouseJob α) :
    Keeps OnlineOnly (Job.zoom IndexerStore.warehousePart m) :=
  keeps_zoom (fun _ hs _ _ => wp_mono (wp_true m) (fun _ _ _ => ⟨hs.current,hs.unflushed⟩)
    (fun _ _ _ => ⟨hs.current,hs.unflushed⟩) (fun _ _ => ⟨hs.current,hs.unflushed⟩))

theorem keeps_upsert_onlineOnly {update : CoreIndexerStateUpdate}
    (hstage : update.stage = none ∨ update.stage = some .online)
    (htail : ∀ tail ∈ update.processTail, -1 ≤ tail) :
    Keeps OnlineOnly (upsertCoreIndexerState update) :=
  keeps_upsertCoreIndexerState (fun _ h => h.upserted hstage htail)

theorem keeps_compareAndDelete_onlineOnly (marker : CoreApplyRecoveryMarker) :
    Keeps OnlineOnly (compareAndDeleteCoreApplyRecovery marker) := by
  refine keeps_call (fun s h => ?_)
  by_cases hmarker : s.metadata.coreApplyRecovery = some marker
  · simp only [hmarker,if_true]
    obtain ⟨row,hrow,hrest⟩ := h.current
    exact h.relaxedTo ⟨row,hrow,hrest⟩
  · simp only [hmarker,if_false]
    exact h

theorem absorbsSync_onlineOnly {input : IterationInput} (heights : List Nat) :
    AbsorbsSync input heights OnlineOnly where
  part _ _ _ h := ⟨h.current,h.unflushed⟩
  blocks _ _ _ h := h.relaxed (keepsRow_upsertCoreBlocks _)
  refs _ _ _ h := ⟨h.current,h.unflushed⟩
  concurrency _ _ h := ⟨h.current,h.unflushed⟩
  underway _ _ _ h := ⟨h.current,h.unflushed⟩

end Writes

section Walk
variable {A : AppliedBlock → Prop}
variable {settings : CoreDogecoinIndexerSettings} {input : IterationInput} {latest : Int}
variable {state : CoreIndexerState} {s : IndexerStore}

theorem keeps_publishProgress_onlineOnly :
    Keeps OnlineOnly (publishProgress settings latest state) :=
  keeps_publishProgress (fun _ _ h => h.relaxed (keepsRow_withProgress _))

theorem wp_applyCoreDogecoinWindow_tail {boundaries : Warehouse → List String}
    (applications : List CoreDogecoinBlockApplication) (context : CoreDogecoinApplyContext)
    (w : Warehouse) : wp (applyCoreDogecoinWindow boundaries applications context)
      (fun result _ => -1 ≤ result.processTail) (fun _ _ => True) (fun _ => True) w := by
  have hend (pending : List CoreDogecoinBlockApplication) : -1 ≤ coreWindowEnd pending := by
    unfold coreWindowEnd
    cases pending.getLast? with
    | none => exact Int.le_refl _
    | some last =>
      simp only
      omega
  refine wp_ite (fun _ => wp_pure (Int.le_refl _)) (fun _ => ?_)
  refine wp_bind (wp_mono (wp_true _) (fun pending t _ => ?_) (fun _ _ h => h) (fun _ h => h))
  refine wp_ite (fun _ => wp_pure (hend _)) (fun _ => ?_)
  refine wp_bind (wp_mono (wp_true _) (fun _ t _ => ?_) (fun _ _ h => h) (fun _ h => h))
  exact wp_bind (wp_mono (wp_true _) (fun _ _ _ => wp_pure (hend _)) (fun _ _ h => h)
    (fun _ h => h))

/-- What a window leaves in the online stage. -/
def OnlineResult (result : CoreDogecoinApplyResult) (t : IndexerStore) : Prop :=
  OnlineOnly t ∧ -1 ≤ result.processTail

theorem wp_applyWindowApplications_onlineOnly (h : OnlineOnly s)
    (applications : List CoreDogecoinBlockApplication) (updateCurrentState : Bool) :
    wp (applyWindowApplications input applications updateCurrentState) OnlineResult
      (fun _ => OnlineOnly) OnlineOnly s := by
  have htail : wp (Job.zoom IndexerStore.warehousePart (applyCoreDogecoinWindow input.boundaries
      applications ⟨some updateCurrentState,some false⟩))
      (fun result _ => -1 ≤ result.processTail) (fun _ _ => True) (fun _ => True) s :=
    wp_zoom (wp_applyCoreDogecoinWindow_tail applications _ _)
  refine wp_bind (wp_read ?_ h h)
  refine wp_bind (wp_mono (wp_and (keeps_zoom_onlineOnly _ s h) htail) ?_ (fun _ _ ht => ht.1)
    (fun _ ht => ht.1))
  rintro result t ⟨ht,hmin⟩
  exact wp_bind (wp_read (wp_pure ⟨ht,hmin⟩) ht ht)

theorem keeps_publishWindowProgress_onlineOnly {result : CoreDogecoinApplyResult}
    (hmin : -1 ≤ result.processTail) :
    Keeps OnlineOnly (publishWindowProgress settings latest result .online) := by
  refine keeps_runCoreBlockStep (keeps_bind (keeps_upsert_onlineOnly (Or.inr rfl) ?_)
    (fun _ => keeps_publishProgress_onlineOnly))
  intro tail htail
  cases htail
  exact hmin

theorem wp_applyWindowApplicationsWithRecovery_onlineOnly {p : Int} {n : Nat}
    (h : OnlineOnly s ∨ Running A .online p n s) {applications : List CoreDogecoinBlockApplication}
    (hne : applications ≠ []) (updateCurrentState : Bool) :
    wp (applyWindowApplicationsWithRecovery input applications updateCurrentState) OnlineResult
      (fun _ t => OnlineOnly t ∨ Running A .online p n t)
      (fun t => OnlineOnly t ∨ Running A .online p n t) s := by
  have hrow : OnlineRow s.metadata := by
    rcases h with h | h
    · exact h.current
    · obtain ⟨row,hrow,hstage,hp⟩ := h.row
      exact ⟨row,hrow,hstage,h.recoverable.current.tail row hrow⟩
  unfold applyWindowApplicationsWithRecovery
  cases happlications : applications with
  | nil => exact absurd happlications hne
  | cons first rest =>
    refine wp_bind (wp_look ?_)
    generalize createCoreApplyRecoveryMarker _ _ _ _ _ _ = marker
    have hmarked : OnlineOnly (s.durable
        (fun metadata => { metadata with coreApplyRecovery := some marker })) := by
      obtain ⟨row,hr,hrest⟩ := hrow
      exact onlineOnly_durable ⟨row,hr,hrest⟩
    refine wp_bind (wp_write ?_ (Or.inl hmarked) h h)
    refine wp_bind (wp_mono (wp_applyWindowApplications_onlineOnly hmarked _ _) ?_
      (fun _ _ ht => Or.inl ht) (fun _ ht => Or.inl ht))
    rintro result t ⟨ht,hmin⟩
    have hclear : Keeps OnlineOnly (clearCoreApplyRecoveryMarker marker) := by
      refine keeps_bind (keeps_compareAndDelete_onlineOnly marker) (fun cleared => ?_)
      cases cleared with
      | true => exact keeps_pure ()
      | false => exact keeps_throw _
    exact wp_bind (wp_mono (hclear t ht) (fun _ u hu => wp_pure ⟨hu,hmin⟩)
      (fun _ _ hu => Or.inl hu) (fun _ hu => Or.inl hu))

theorem keeps_either {α : Type} {I J : IndexerStore → Prop} {m : IndexerJob α} (hI : Keeps I m)
    (hJ : Keeps J m) : Keeps (fun t => I t ∨ J t) m := by
  intro t ht
  rcases ht with ht | ht
  · exact wp_mono (hI t ht) (fun _ _ hu => Or.inl hu) (fun _ _ hu => Or.inl hu)
      (fun _ hu => Or.inl hu)
  · exact wp_mono (hJ t ht) (fun _ _ hu => Or.inr hu) (fun _ _ hu => Or.inr hu)
      (fun _ hu => Or.inr hu)

variable (A) in
/-- Between its windows an online iteration keeps the rows, or has begun to leave a gap in a
database that names the online stage only. -/
def OnlineWalk (p : Int) (n : Nat) (s : IndexerStore) : Prop :=
  OnlineOnly s ∨ Running A .online p n s

theorem wp_processOnlineWindow_onlineOnly {p target : Int} {n : Nat} (h : OnlineWalk A p n s)
    (currentStateReady : Bool) :
    wp (processOnlineWindow settings input latest state target currentStateReady)
      (fun _ => OnlineOnly) (fun _ => OnlineWalk A p n) (OnlineWalk A p n) s := by
  have hstore {heights : List Nat} : Keeps (OnlineWalk A p n)
      (storeRawBlockHeights settings input heights (fun _ => Pure.pure ())) :=
    keeps_either (keeps_storeRawBlockHeights (absorbsSync_onlineOnly heights)
      (fun _ => keeps_pure ())) (keeps_storeRawBlockHeights_running (fun _ => keeps_pure ()))
  refine wp_bind (wp_mono (hstore s h) (fun _ t ht => ?_) (fun _ _ ht => ht) (fun _ ht => ht))
  have hwindow : wp (processWindow input (fixedWindowPlan (onlineProcessHeights state.processTail
      target settings.coreReprocessDepth settings.coreProcessWindow)) currentStateReady)
      OnlineResult (fun _ => OnlineWalk A p n) (OnlineWalk A p n) t := by
    refine wp_bind (wp_bind (wp_read ?_ ht ht))
    refine wp_bind (wp_mono (wp_fixedWindowPlan (J := OnlineWalk A p n) ht _) ?_
      (fun _ _ hu => hu) (fun _ hu => hu))
    rintro blocks u ⟨hu,hheights,hne⟩
    refine wp_bind (wp_read (wp_pure ?_) hu hu)
    refine wp_bind (wp_bind (wp_read (wp_bind (wp_ofExcept (fun applications hbuild => ?_)
      (fun _ _ => hu))) hu hu))
    refine wp_bind (wp_read (wp_pure ?_) hu hu)
    obtain ⟨-,-,-,rfl⟩ := buildFastCoreDogecoinBlockApplications_eq_ok.mp hbuild
    refine wp_applyWindowApplicationsWithRecovery_onlineOnly hu (fun hnil => ?_) _
    rw [List.map_eq_nil_iff.mp hnil] at hheights
    exact hne hheights.symm
  refine wp_bind (wp_mono hwindow ?_ (fun _ _ hu => hu) (fun _ hu => hu))
  rintro result u ⟨hu,hmin⟩
  exact wp_bind (wp_mono (keeps_publishWindowProgress_onlineOnly hmin u hu)
    (fun _ _ hv => wp_pure hv) (fun _ _ hv => Or.inl hv) (fun _ hv => Or.inl hv))

theorem keeps_syncOnlineBacklogIfNeeded_onlineOnly (stop : Int) :
    Keeps OnlineOnly (syncOnlineBacklogIfNeeded settings input latest state stop) := by
  refine keeps_ite (fun _ => keeps_pure _) (fun _ => keeps_bind ?_ (fun _ => keeps_pure _))
  have hupsert {update : CoreIndexerStateUpdate} (hstage : update.stage = some .online)
      (htail : update.processTail = none) (t : IndexerStore) (ht : OnlineOnly t) :
      OnlineOnly (upserted update t) :=
    ht.upserted (Or.inr hstage) (fun tail h => by rw [htail] at h; cases h)
  refine keeps_bind (keeps_storeRawBlockHeights (absorbsSync_onlineOnly _) (fun _ =>
    keeps_checkpointSyncTail (hupsert rfl rfl))) (fun _ => keeps_bind keeps_assertPrimaryLease
      (fun _ => ?_))
  exact keeps_bind (keeps_upsertCoreIndexerState (hupsert rfl rfl))
    (fun _ => keeps_publishProgress_onlineOnly)

theorem keeps_syncOnlineBacklogIfNeeded_running {p : Int} {n : Nat} (stop : Int) :
    Keeps (Running A .online p n) (syncOnlineBacklogIfNeeded settings input latest state stop) := by
  refine keeps_ite (fun _ => keeps_pure _) (fun _ => keeps_bind ?_ (fun _ => keeps_pure _))
  refine keeps_bind (keeps_storeRawBlockHeights_running (fun _ => keeps_checkpointSyncTail
    (fun _ ht => ht.upserted rfl (Or.inr rfl)))) (fun _ => keeps_bind keeps_assertPrimaryLease
      (fun _ => ?_))
  exact keeps_bind (keeps_upsertCoreIndexerState (fun _ ht => ht.upserted rfl (Or.inr rfl)))
    (fun _ => keeps_publishProgress_running _ _)

theorem keeps_online_walk {p : Int} {n : Nat} :
    Keeps (OnlineWalk A p n) (online settings input latest state) := by
  have hensure : Keeps (OnlineWalk A p n) (ensureReadyOnlineState latest state) :=
    keeps_ite (fun _ => keeps_pure _) (fun _ => keeps_either
      (keeps_upsert_onlineOnly (Or.inr rfl) (fun _ h => (by cases h)))
      (keeps_upsertCoreIndexerState (fun _ ht => ht.upserted rfl (Or.inr rfl))))
  have hpublish (row : CoreIndexerState) :
      Keeps (OnlineWalk A p n) (publishProgress settings latest row) :=
    keeps_either keeps_publishProgress_onlineOnly (keeps_publishProgress_running _ _)
  have hidle : Keeps (OnlineWalk A p n) (publishOnlineNoWorkIfPossible settings latest state) :=
    keeps_bind (keeps_read _) (fun _ => keeps_ite
      (fun _ => keeps_bind hensure (fun _ => hpublish _))
      (fun _ => keeps_when (fun _ => hpublish _)))
  have hprocess (row : CoreIndexerState) (force : Bool) : Keeps (OnlineWalk A p n)
      (processOnlineBacklogIfNeeded settings input latest row force) := by
    refine keeps_ite (fun _ => keeps_pure _) (fun _ => keeps_bind (keeps_read _) (fun _ => ?_))
    exact fun t ht => wp_mono (wp_processOnlineWindow_onlineOnly ht _)
      (fun _ _ hu => Or.inl hu) (fun _ _ hu => hu) (fun _ hu => hu)
  have hsync (stop : Int) : Keeps (OnlineWalk A p n)
      (syncOnlineBacklogIfNeeded settings input latest state stop) :=
    keeps_either (keeps_syncOnlineBacklogIfNeeded_onlineOnly stop)
      (keeps_syncOnlineBacklogIfNeeded_running stop)
  refine keeps_bind (keeps_bind (hsync _) (fun didSync => keeps_bind
    (keeps_bind (keeps_read _) (fun _ => keeps_pure _)) (fun row =>
      keeps_bind (hprocess row didSync) (fun _ => keeps_pure _)))) (fun didWork => ?_)
  exact keeps_ite (fun _ => keeps_pure _) (fun _ => keeps_bind hidle (fun _ => keeps_pure _))

theorem wp_startIteration_onlineOnly (h : OnlineOnly s) :
    wp (startIteration settings input latest) (fun state t => OnlineOnly t ∧
      state.stage = .online ∧ -1 ≤ state.processTail) (fun _ => OnlineOnly) OnlineOnly s := by
  have hrecover : Keeps OnlineOnly (recoverPendingCoreApplyIfNeeded input) := by
    refine keeps_bind (keeps_read _) (fun marker => ?_)
    cases marker with
    | none => exact keeps_pure ()
    | some marker =>
      refine keeps_bind (keeps_ofExcept _) (fun marker => keeps_bind (keeps_zoom_onlineOnly _)
        (fun _ => keeps_bind (keeps_compareAndDelete_onlineOnly marker) (fun cleared => ?_)))
      cases cleared with
      | true => exact keeps_pure ()
      | false => exact keeps_throw _
  refine wp_bind (wp_mono (hrecover s h) (fun _ t ht => ?_) (fun _ _ ht => ht) (fun _ ht => ht))
  have hensure : wp (ensureState latest) (fun row u => OnlineOnly u ∧ row.stage = .online ∧
      -1 ≤ row.processTail) (fun _ => OnlineOnly) OnlineOnly t := by
    obtain ⟨row,hrow,honline,hmin⟩ := ht.current
    refine wp_bind (wp_read ?_ ht ht)
    rw [hrow]
    exact wp_pure ⟨ht,honline,hmin⟩
  refine wp_bind (wp_mono hensure ?_ (fun _ _ hu => hu) (fun _ hu => hu))
  rintro current u ⟨hu,honline,hmin⟩
  have hreconcile : wp (reconcileProcessTailWithWarehouse input current)
      (fun row v => OnlineOnly v ∧ row.stage = .online ∧ -1 ≤ row.processTail)
      (fun _ => OnlineOnly) OnlineOnly u := by
    refine wp_bind (wp_look (wp_ite (fun _ => wp_pure ⟨hu,honline,hmin⟩) (fun _ => ?_)))
    have htail : wp getCoreProcessedTail (fun tail v => OnlineOnly v ∧ -1 ≤ tail)
        (fun _ => OnlineOnly) OnlineOnly u := by
      refine wp_zoom (wp_read ⟨⟨hu.current,hu.unflushed⟩,?_⟩ hu hu)
      cases (IndexerStore.warehousePart.get u).getCoreProcessedTail with
      | none => exact Int.le_refl _
      | some height =>
        simp only
        omega
    refine wp_bind (wp_mono htail ?_ (fun _ _ hv => hv) (fun _ hv => hv))
    rintro tail v ⟨hv,htail⟩
    have hv : OnlineOnly (v.withProcess markReconciled) := ⟨hv.current,hv.unflushed⟩
    refine wp_bind (wp_assign (wp_ite (fun _ => wp_pure ⟨hv,honline,hmin⟩) (fun _ => ?_)))
    refine wp_bind (wp_read ?_ hv hv)
    refine wp_bind (wp_mono (keeps_zoom_onlineOnly _ _ hv) (fun _ w hw => ?_) (fun _ _ hw => hw)
      (fun _ hw => hw))
    have hmin : ∀ lower ∈ (some tail), -1 ≤ lower := fun lower hlower => by
      cases hlower
      exact htail
    have hup : OnlineOnly (upserted { processTail := some tail } w) :=
      hw.upserted (Or.inl rfl) hmin
    exact wp_upsertCoreIndexerState ⟨hup,hw.current.next (Or.inl rfl) hmin⟩ hup hw hw
  refine wp_bind (wp_mono hreconcile ?_ (fun _ _ hv => hv) (fun _ hv => hv))
  rintro row v ⟨hv,honline,hmin⟩
  have hrefs : Keeps OnlineOnly (markTransactionRefsReadyIfCaughtUp row) := by
    refine keeps_bind (keeps_look _) (fun _ => keeps_ite (fun _ => keeps_pure _) (fun _ => ?_))
    exact keeps_bind (keeps_read _) (fun _ => keeps_bind (keeps_when (fun _ =>
      keeps_execute_onlineOnly (fun _ => ⟨rfl,rfl⟩)))
      (fun _ => keeps_assign (fun _ h => ⟨h.current,h.unflushed⟩)))
  refine wp_bind (wp_mono (hrefs v hv) (fun _ w hw => ?_) (fun _ _ hw => hw) (fun _ hw => hw))
  refine wp_bind (wp_mono (keeps_publishProgress_onlineOnly w hw) (fun _ x hx => ?_)
    (fun _ _ hx => hx) (fun _ hx => hx))
  exact wp_bind (wp_read (wp_pure ⟨hx,honline,hmin⟩) hx hx)

end Walk

/-- Nothing is asked of the maps with which rows were written. -/
abbrev AnyRows : AppliedBlock → Prop := fun _ => True

/-- Where a crash may bring back a stage before the online one, the rows have no gap. -/
def Backed (s : IndexerStore) : Prop := OnlineOnly s ∨ Recoverable AnyRows s

section Runs
variable {settings : CoreDogecoinIndexerSettings} {input : IterationInput} {s : IndexerStore}

theorem supplied_any (h : HoldsReported (fun _ => True) s) :
    Supplied AnyRows (fun _ => True) s := ⟨h,fun _ _ _ _ => trivial⟩

theorem OnlineWalk.backed {p : Int} {n : Nat} (h : OnlineWalk AnyRows p n s) : Backed s := by
  rcases h with h | h
  · exact Or.inl h
  · exact Or.inr h.recoverable

theorem wp_runDogecoinStage_backed {latest : Int} {state : CoreIndexerState} {t : IndexerStore}
    (h : Started AnyRows s state t) (hreported : HoldsReported (fun _ => True) t) :
    wp (runDogecoinStage settings input latest state) (fun _ => Backed) (fun _ => Backed)
      Backed t := by
  have hrunning := h.running
  have hbacked {m : IndexerJob Bool} {Q : Bool → IndexerStore → Prop}
      (hm : Attains AnyRows m Q t) (hQ : ∀ a u, Q a u → Recoverable AnyRows u) :
      wp m (fun _ => Backed) (fun _ => Backed) Backed t :=
    wp_mono hm (fun a u hu => Or.inr (hQ a u hu)) (fun _ _ hu => Or.inr hu)
      (fun _ hu => Or.inr hu)
  unfold runDogecoinStage
  cases hstage : state.stage with
  | syncBackfill =>
    rw [hstage] at hrunning
    exact hbacked (attains_syncBackfill hrunning) (fun _ _ ⟨_,hu⟩ => hu.recoverable)
  | processBackfill =>
    rw [hstage] at hrunning
    exact hbacked (attains_processBackfill (fun _ _ _ => trivial) hrunning
      (supplied_any hreported) rfl) (fun _ _ ⟨_,hu⟩ => hu.recoverable)
  | online =>
    rw [hstage] at hrunning
    exact wp_mono (keeps_online_walk t (Or.inr hrunning)) (fun _ _ hu => hu.backed)
      (fun _ _ hu => hu.backed) (fun _ hu => hu.backed)

theorem wp_runDogecoinConfig_backed (h : Backed s) (hreported : HoldsReported (fun _ => True) s) :
    wp (runDogecoinConfig settings input) (fun _ => Backed) (fun _ => Backed) Backed s := by
  have herror : Keeps Backed setCoreIndexerError := by
    refine keeps_either (keeps_setCoreIndexerError (fun _ hu => ?_))
      (keeps_setCoreIndexerError (fun _ hu => recoverable_setCoreIndexerError hu))
    exact hu.upserted (Or.inl rfl) (fun _ h => (by cases h))
  refine wp_bind (wp_read (wp_bind (wp_read ?_ h h)) h h)
  refine wp_onFailure (wp_mono (E := fun _ => Backed) (K := Backed) ?_ (fun _ _ hu => hu)
    (fun _ u hu => wp_mono (herror u hu) (fun _ _ hv => hv) (fun _ _ hv => hv) (fun _ hv => hv))
    (fun _ hu => hu))
  rcases h with h | h
  · refine wp_bind (wp_mono (wp_startIteration_onlineOnly h) ?_ (fun _ _ ht => Or.inl ht)
      (fun _ ht => Or.inl ht))
    rintro state t ⟨ht,honline,-⟩
    unfold runDogecoinStage
    rw [honline]
    exact wp_mono (@keeps_online_walk AnyRows settings input _ _ 0 0 t (Or.inl ht))
      (fun _ _ hu => hu.backed) (fun _ _ hu => hu.backed) (fun _ hu => hu.backed)
  · exact wp_bind (wp_mono (wp_and (attains_startIteration h)
      (keeps_startIteration_reported s hreported))
      (fun _ _ ht => wp_runDogecoinStage_backed ht.1 ht.2) (fun _ _ ht => Or.inr ht.1)
      (fun _ ht => Or.inr ht.1))

theorem onlineOnly_land (h : OnlineOnly s) (write : RawWrite ParsedDogecoinBlock) :
    OnlineOnly (land s write) := by
  cases write with
  | part key block => exact ⟨h.current,h.unflushed⟩
  | blocks records => exact h.relaxed (keepsRow_upsertCoreBlocks records)
  | refs refs => exact ⟨h.current,h.unflushed⟩

theorem backed_step {step : IndexerStep} (h : Backed s)
    (hreported : HoldsReported (fun _ => True) s) : Backed (step.after settings s) := by
  cases step with
  | iterate input fates => exact last_of_wp (wp_runDogecoinConfig_backed h hreported) fates
  | lands index =>
    simp only [IndexerStep.after]
    cases hwrite : s.underway[index]? with
    | none => exact h
    | some write =>
      rcases h with h | h
      · have hs : OnlineOnly { s with underway := s.underway.eraseIdx index } :=
          ⟨h.current,h.unflushed⟩
        exact Or.inl (onlineOnly_land hs write)
      · have hs : Recoverable AnyRows { s with underway := s.underway.eraseIdx index } :=
          ⟨h.current,h.unflushed,h.pending⟩
        exact Or.inr (recoverable_land hs write)
  | restart instanceId =>
    rcases h with h | h
    · exact Or.inl ⟨h.current,h.unflushed⟩
    · exact Or.inr ⟨h.current,h.unflushed,h.pending⟩
  | crash instanceId kept =>
    rcases h with h | h
    · refine Or.inl ⟨?_,fun _ hm => (by cases hm)⟩
      change OnlineRow ((s.unflushed[kept]?).getD s.metadata)
      cases hkept : s.unflushed[kept]? with
      | none => exact h.current
      | some metadata => exact h.unflushed metadata (List.mem_of_getElem? hkept)
    · exact Or.inr (recoverable_crash h instanceId kept)

theorem backed_afterSteps (steps : List IndexerStep) (instanceId : String) :
    Backed (afterSteps settings steps (initialStore settings instanceId)) := by
  refine (afterSteps_invariant (I := fun s => Backed s ∧ HoldsReported (fun _ => True) s)
    (fun _ _ h _ => ?_) ⟨Or.inr (recoverable_initialStore instanceId),
      holdsReported_initialStore instanceId⟩ (stepsMeet_true steps _)).1
  exact ⟨backed_step h.1 h.2,h.2.step (fun _ _ _ _ _ => trivial)⟩

end Runs

end OnlyDoge.CoreIndexer
