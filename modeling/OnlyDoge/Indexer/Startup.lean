import OnlyDoge.Indexer.Recoverable
set_option autoImplicit false

/-!
The start of an iteration: the pending recovery, the stored row, and the one comparison of its
tail with the warehouse that a process makes.
-/

namespace OnlyDoge.CoreIndexer
open Job

variable {A : AppliedBlock → Prop}

variable (A) in
/-- The store is recoverable wherever the job stops, and `Q` holds with its value. -/
abbrev Attains {α : Type} (m : IndexerJob α) (Q : α → IndexerStore → Prop) (s : IndexerStore) :
    Prop :=
  wp m Q (fun _ => Recoverable A) (Recoverable A) s

theorem attains_of_keeps {α : Type} {m : IndexerJob α} {J : IndexerStore → Prop}
    {s : IndexerStore} (hm : Keeps J m) (hJ : ∀ t, J t → Recoverable A t) (hs : J s) :
    Attains A m (fun _ => J) s :=
  wp_mono (hm s hs) (fun _ _ h => h) (fun _ t h => hJ t h) hJ

theorem attains_bind {α β : Type} {m : IndexerJob α} {f : α → IndexerJob β}
    {R : α → IndexerStore → Prop} {Q : β → IndexerStore → Prop} {s : IndexerStore}
    (hm : Attains A m R s) (hf : ∀ a t, R a t → Attains A (f a) Q t) : Attains A (m >>= f) Q s :=
  wp_bind (wp_mono hm hf (fun _ _ h => h) (fun _ h => h))

variable (A) in
/-- The iteration has recovered what was pending, and nothing else has changed. -/
structure Recovered (s t : IndexerStore) : Prop where
  recoverable : Recoverable A t
  clear : t.metadata.coreApplyRecovery = none
  row : t.metadata.indexerState = s.metadata.indexerState
  process : t.process = s.process
  height : solidHeight t.warehouse none =
    solidHeight s.warehouse s.metadata.coreApplyRecovery

variable (A) in
/-- `state` is the stored row with which the stage of the iteration will begin. In a process
that has made the comparison before, it is the row of the iteration's start. -/
structure Started (s : IndexerStore) (state : CoreIndexerState) (t : IndexerStore) : Prop where
  recoverable : Recoverable A t
  clear : t.metadata.coreApplyRecovery = none
  row : t.metadata.indexerState = some state
  height : solidHeight t.warehouse none =
    solidHeight s.warehouse s.metadata.coreApplyRecovery
  stage : ∀ row, s.metadata.indexerState = some row → state.stage = row.stage
  stored : state.stage = .online → s.process.warehouseTailReconciled = true →
    s.metadata.indexerState = some state
  compared : s.process.warehouseTailReconciled = false →
    state.processTail + 1 ≤ solidHeight t.warehouse none

section Startup
variable {input : IterationInput} {s : IndexerStore}

theorem attains_recoverCoreWindow {I : Warehouse → Prop} {fromBlockHeight : Nat}
    {updateCurrentState : Bool} (hI : AboutFacts I)
    (hcut : ∀ table w, I w → I (w.deleteTail fromBlockHeight table)) (hs : I s.warehouse)
    (hkept : ∀ w, I w → Recoverable A { s with warehouse := w }) :
    Attains A (recoverCoreWindow input fromBlockHeight updateCurrentState)
      (fun _ t => ∃ w, t = { s with warehouse := w } ∧ I w ∧
        w.facts = s.warehouse.factsBelow fromBlockHeight) s := by
  refine wp_zoom ?_
  let context : CoreDogecoinApplyContext := ⟨some updateCurrentState,some false⟩
  have hkeeps : Keeps I (rewindCoreDogecoinWindow input.boundaries fromBlockHeight context) :=
    keeps_rewindCoreDogecoinWindow hI hcut
  have hdone := @wp_rewindCoreDogecoinWindow s.warehouse fromBlockHeight input.boundaries context
    (fun _ w => w.facts = s.warehouse.factsBelow fromBlockHeight) (facts_rewound _ _ _ _)
  refine wp_mono (wp_and (hkeeps s.warehouse hs) hdone) ?_ (fun _ w h => hkept w h.1)
    (fun w h => hkept w h.1)
  exact fun _ w h => ⟨w,rfl,h.1,h.2⟩

theorem parsed_of_parseCoreApplyRecoveryMarker {marker parsed : CoreApplyRecoveryMarker}
    (h : parseCoreApplyRecoveryMarker marker = .ok parsed) : parsed = marker := by
  unfold parseCoreApplyRecoveryMarker at h
  split at h
  · cases h
  · split at h
    · cases h
    · exact (Except.ok.inj h).symm

theorem attains_recoverPendingCoreApplyIfNeeded (h : Recoverable A s) :
    Attains A (recoverPendingCoreApplyIfNeeded input) (fun _ => Recovered A s) s := by
  refine wp_bind (wp_read ?_ h h)
  cases hmarker : s.metadata.coreApplyRecovery with
  | none => exact wp_pure ⟨h,hmarker,rfl,rfl,by rw [hmarker]⟩
  | some marker =>
    refine wp_bind (wp_ofExcept (fun parsed hparsed => ?_) (fun _ _ => h))
    obtain rfl := parsed_of_parseCoreApplyRecoveryMarker hparsed
    let rows := s.warehouse.factsBelow parsed.startHeight
    have hkept (w : Warehouse) (hw : HasBelow parsed.startHeight rows w) :
        Recoverable A { s with warehouse := w } := by
      refine h.withWarehouse ?_ (fun m hm => ?_)
      · rw [hmarker]
        exact hw
      · rw [h.pending parsed hmarker m hm]
        exact hw
    refine attains_bind (attains_recoverCoreWindow aboutFacts_hasBelow
      (hasBelow_deleteTail (Nat.le_refl _)) rfl hkept) ?_
    rintro _ t ⟨w,rfl,hw,hfacts⟩
    have ht := hkept w hw
    have hheight : solidHeight w none = solidHeight s.warehouse (some parsed) :=
      congrArg (fun f : CoreFactTables => f.processed.length) hfacts
    have hcleared : Recoverable A
        (({ s with warehouse := w } : IndexerStore).relaxed
          (fun metadata => { metadata with coreApplyRecovery := none })) := by
      refine ht.relaxed (ht.current.congr ?_ rfl) (fun _ hm => absurd hm (by simp))
      rw [show ({ s with warehouse := w } : IndexerStore).metadata.coreApplyRecovery = some parsed
        from hmarker]
      exact hfacts.trans hw.symm
    refine wp_bind (wp_call ?_ ?_ ht ht)
    · simp only [hmarker,if_true]
      exact wp_pure ⟨hcleared,rfl,rfl,rfl,by rw [hmarker]; exact hheight⟩
    · simp only [hmarker,if_true]
      exact hcleared

theorem attains_ensureState {latest : Int} {t : IndexerStore} (h : Recovered A s t) :
    Attains A (ensureState latest) (fun state u => Recovered A s t ∧ Recoverable A u ∧
      u.metadata.coreApplyRecovery = none ∧ u.metadata.indexerState = some state ∧
      u.process = t.process ∧ u.warehouse = t.warehouse ∧
      (∀ row, t.metadata.indexerState = some row → state = row) ∧
      (t.metadata.indexerState = none → state.stage = .syncBackfill)) t := by
  refine wp_bind (wp_read ?_ h.recoverable h.recoverable)
  cases hrow : t.metadata.indexerState with
  | some row =>
    refine wp_pure ⟨h,h.recoverable,h.clear,hrow,rfl,rfl,?_,?_⟩
    · intro r hr
      exact Option.some.inj hr
    · intro hnone
      cases hnone
  | none =>
    refine wp_bind (wp_read ?_ h.recoverable h.recoverable)
    have hup : Recoverable A (upserted
        { stage := some .syncBackfill
          syncTail := some (min (t.metadata.progress.syncTail.getD (-1)) latest)
          processTail := some (-1)
          onlineTip := some latest
          lastError := some false } t) :=
      h.recoverable.upserted (Int.le_refl _) (fun _ => Int.natCast_nonneg _)
    refine wp_upsertCoreIndexerState ⟨h,hup,h.clear,rfl,rfl,rfl,?_,fun _ => rfl⟩ hup
      h.recoverable h.recoverable
    intro r hr
    cases hr

theorem hasFactTables_deleteTail {n : Nat} {rows : CoreFactTables} (hrows : rows.below n = rows)
    (table : CoreTailTable) (w : Warehouse) (hw : HasFactTables rows w) :
    HasFactTables rows (w.deleteTail n table) := by
  unfold HasFactTables at *
  subst hw
  have hcreates := congrArg CoreFactTables.creates hrows
  have hspends := congrArg CoreFactTables.spends hrows
  have hprocessed := congrArg CoreFactTables.processed hrows
  have hmovements := congrArg CoreFactTables.movements hrows
  have hbyAddress := congrArg CoreFactTables.movementsByAddress hrows
  have htransactions := congrArg CoreFactTables.transactions hrows
  unfold CoreFactTables.below Warehouse.facts at *
  cases table <;> simp_all [Warehouse.deleteTail]

theorem attains_getCoreProcessedTail {applied : List AppliedBlock} {u : IndexerStore}
    (h : Recoverable A u) (hw : u.warehouse.facts = appliedFacts applied)
    (hg : FromGenesis applied) :
    Attains A getCoreProcessedTail (fun tail t => u = t ∧ tail + 1 = (applied.length : Int)) u := by
  have hnext := nextCoreHeight_eq (processedBelow_of_facts hw hg)
  unfold Warehouse.nextCoreHeight at hnext
  refine wp_zoom (wp_read ⟨rfl,?_⟩ h h)
  have hget : IndexerStore.warehousePart.get u = u.warehouse := rfl
  rw [hget]
  cases htail : u.warehouse.getCoreProcessedTail with
  | none =>
    rw [htail] at hnext
    simp only at hnext ⊢
    omega
  | some tail =>
    rw [htail] at hnext
    simp only at hnext ⊢
    omega

/-- The comparison lowers the recorded tail to the warehouse's; it never deletes a row then. -/
theorem attains_reconcileProcessTailWithWarehouse {state : CoreIndexerState} {u : IndexerStore}
    (h : Recoverable A u) (hclear : u.metadata.coreApplyRecovery = none)
    (hrow : u.metadata.indexerState = some state) :
    Attains A (reconcileProcessTailWithWarehouse input state) (fun state' t => Recoverable A t ∧
      t.metadata.coreApplyRecovery = none ∧ t.metadata.indexerState = some state' ∧
      solidHeight t.warehouse none = solidHeight u.warehouse none ∧ state'.stage = state.stage ∧
      (u.process.warehouseTailReconciled = true → state' = state) ∧
      (u.process.warehouseTailReconciled = false →
        state'.processTail + 1 ≤ solidHeight t.warehouse none)) u := by
  refine wp_bind (wp_look ?_)
  cases hprocess : u.process.warehouseTailReconciled with
  | true => exact wp_pure ⟨h,hclear,hrow,rfl,rfl,fun _ => rfl,fun hf => absurd hf (by simp)⟩
  | false =>
    obtain ⟨applied,hsolid⟩ := h.current.solid
    rw [hclear] at hsolid
    have hfacts : u.warehouse.facts = appliedFacts applied := hsolid.facts
    have hheight : solidHeight u.warehouse none = applied.length := hsolid.height
    refine attains_bind (attains_getCoreProcessedTail h hfacts hsolid.genesis) ?_
    rintro warehouseTail _ ⟨rfl,htail⟩
    refine wp_bind (wp_assign ?_)
    let v : IndexerStore := u.withProcess markReconciled
    have hv : Recoverable A v := ⟨h.current,h.unflushed,h.pending⟩
    refine wp_ite (fun hle => wp_pure ⟨hv,hclear,hrow,rfl,rfl,fun ht => absurd ht (by simp),?_⟩)
      (fun _ => ?_)
    · intro _
      change state.processTail + 1 ≤ solidHeight v.warehouse none
      have : solidHeight v.warehouse none = applied.length := hheight
      omega
    · refine wp_bind (wp_read ?_ hv hv)
      have hcut : (warehouseTail + 1).toNat = applied.length := by omega
      have hbelow : (appliedFacts applied).below applied.length = appliedFacts applied :=
        below_of_fromGenesis hsolid.genesis (Nat.le_refl _)
      have hkept (w : Warehouse) (hw : HasFactTables (appliedFacts applied) w) :
          Recoverable A { v with warehouse := w } := hv.sameFacts (hw.trans hfacts.symm)
      rw [hcut]
      refine attains_bind (attains_recoverCoreWindow aboutFacts_hasFactTables
        (hasFactTables_deleteTail hbelow) hfacts hkept) ?_
      rintro _ t ⟨w,rfl,hw,-⟩
      have ht := hkept w hw
      have hsame : solidHeight w none = solidHeight u.warehouse none := by
        unfold solidHeight solidFacts
        rw [hw,hfacts]
      have hmin : -1 ≤ warehouseTail := by omega
      have hlower : Recoverable A
          (upserted { processTail := some warehouseTail } { v with warehouse := w }) := by
        refine ht.upserted hmin (fun _ => ?_)
        have : solidHeight w none = applied.length := hsame.trans hheight
        rw [show ({ v with warehouse := w } : IndexerStore).metadata.coreApplyRecovery = none from
          hclear]
        change warehouseTail + 1 ≤ solidHeight w none
        omega
      refine wp_upsertCoreIndexerState ⟨hlower,hclear,rfl,hsame,?_,fun ht => absurd ht (by simp),
        fun _ => ?_⟩ hlower ht ht
      · unfold CoreIndexerStateUpdate.next
        rw [show ({ v with warehouse := w } : IndexerStore).metadata.indexerState = some state from
          hrow]
        rfl
      · have : solidHeight w none = applied.length := hsame.trans hheight
        change warehouseTail + 1 ≤ solidHeight w none
        omega

section Started
variable {settings : CoreDogecoinIndexerSettings} {state : CoreIndexerState} {t : IndexerStore}
variable {f : Metadata → Metadata}

theorem Started.relaxed (h : Started A s state t) (hf : KeepsRow f) :
    Started A s state (t.relaxed f) := by
  obtain ⟨hrow,hmarker⟩ := hf t.metadata
  exact ⟨h.recoverable.keepsRow hf,hmarker.trans h.clear,hrow.trans h.row,h.height,h.stage,
    h.stored,h.compared⟩

theorem Started.durable (h : Started A s state t) (hf : KeepsRow f) :
    Started A s state (t.durable f) := by
  obtain ⟨hrow,hmarker⟩ := hf t.metadata
  exact ⟨h.recoverable.durableKeepsRow hf,hmarker.trans h.clear,hrow.trans h.row,h.height,h.stage,
    h.stored,h.compared⟩

theorem Started.withProcess (h : Started A s state t) (g : IndexerProcess → IndexerProcess) :
    Started A s state (t.withProcess g) :=
  ⟨⟨h.recoverable.current,h.recoverable.unflushed,h.recoverable.pending⟩,h.clear,h.row,h.height,
    h.stage,h.stored,h.compared⟩

theorem Started.running (h : Started A s state t) :
    Running A state.stage state.processTail
      (solidHeight s.warehouse s.metadata.coreApplyRecovery) t :=
  ⟨h.recoverable,h.clear,⟨state,h.row,rfl,rfl⟩,h.height⟩

theorem keeps_markTransactionRefsReadyIfCaughtUp :
    Keeps (Started A s state) (markTransactionRefsReadyIfCaughtUp state) := by
  refine keeps_bind (keeps_look _) (fun known => keeps_ite (fun _ => keeps_pure ()) (fun _ => ?_))
  refine keeps_bind (keeps_read _) (fun ready =>
    keeps_bind (keeps_when (fun _ => ?_)) (fun _ => ?_))
  · exact keeps_write (fun t ht => ht.durable (fun _ => ⟨rfl,rfl⟩))
  · exact keeps_assign (fun t ht => ht.withProcess _)

theorem attains_startIteration {latest : Int} (h : Recoverable A s) :
    Attains A (startIteration settings input latest) (fun state t => Started A s state t) s := by
  refine attains_bind (attains_recoverPendingCoreApplyIfNeeded h) ?_
  intro _ t ht
  refine attains_bind (attains_ensureState ht) ?_
  rintro current u ⟨hs,hu,hclear,hrow,hprocess,hwarehouse,hsome,hnone⟩
  refine attains_bind (attains_reconcileProcessTailWithWarehouse hu hclear hrow) ?_
  rintro state v ⟨hv,hvclear,hvrow,hvheight,hvstage,hvsame,hvlow⟩
  have hreconciled : u.process.warehouseTailReconciled = s.process.warehouseTailReconciled := by
    rw [hprocess,hs.process]
  have hheight : solidHeight u.warehouse none = solidHeight t.warehouse none := by
    rw [hwarehouse]
  have hstarted : Started A s state v := by
    refine ⟨hv,hvclear,hvrow,(hvheight.trans hheight).trans hs.height,?_,?_,?_⟩
    · intro row hstored
      rw [hvstage,hsome row (hs.row.trans hstored)]
    · intro honline hp
      rw [hvsame (hreconciled.trans hp)] at honline ⊢
      cases hstored : t.metadata.indexerState with
      | none =>
        rw [hnone hstored] at honline
        cases honline
      | some row =>
        rw [← hs.row,hstored,hsome row hstored]
    · intro hp
      exact hvlow (hreconciled.trans hp)
  refine attains_bind (attains_of_keeps keeps_markTransactionRefsReadyIfCaughtUp
    (fun _ h => h.recoverable) hstarted) (fun _ v hv => ?_)
  refine attains_bind (attains_of_keeps
    (keeps_publishProgress (fun _ _ h => h.relaxed (keepsRow_withProgress _)))
    (fun _ h => h.recoverable) hv) (fun _ v hv => ?_)
  exact wp_bind (wp_read (wp_pure hv) hv.recoverable hv.recoverable)

end Started

end Startup

end OnlyDoge.CoreIndexer
