import OnlyDoge.Indexer.ProcessedTail
set_option autoImplicit false

/-!
The readiness flags. Every write of one is flushed, so whatever a crash takes back of the
database, the flags stay; and one is set only by an iteration that finds its tails caught up.
-/

namespace OnlyDoge.CoreIndexer
open Job

def processedTail (rows : CoreFactTables) : Int :=
  match (rows.processed.map CoreProcessedBlockRow.blockHeight).max? with
  | some height => height
  | none => -1

/-- The warehouse's tail once what is pending is recovered. -/
def recoveredTail (s : IndexerStore) : Int :=
  processedTail (solidFacts s.warehouse s.metadata.coreApplyRecovery)

/-- The row with which an iteration begins its stage. A process that has not compared the tails
yet lowers its own to the warehouse's. -/
def startRow (s : IndexerStore) (row : CoreIndexerState) : CoreIndexerState :=
  if s.process.warehouseTailReconciled then row
  else { row with processTail := min row.processTail (recoveredTail s) }

/-- Everything synced is processed, and the node's tip is near or a materialization that began
at this tail is to be finished. -/
def CompletesBackfill (settings : CoreDogecoinIndexerSettings) (latest : Int) (s : IndexerStore)
    (row : CoreIndexerState) : Prop :=
  row.stage = .processBackfill ∧ row.syncTail ≤ row.processTail ∧
    (latest - settings.coreOnlineTipDistance ≤ row.processTail ∨
      s.metadata.currentStateReady = false ∧
        s.metadata.materialization.map (fun p => (p.asOfBlockHeight : Int)) =
          some row.processTail)

/-- The row with which an iteration begins in `s` is caught up as the flag says. A process sees to
the references' flag once. -/
def Earns (settings : CoreDogecoinIndexerSettings) (latest : Int) (s : IndexerStore) :
    ReadyFlag → Prop
  | .transactionRefs => s.process.transactionRefsReady = false ∧
      ∃ row, s.metadata.indexerState = some row ∧ hasProcessedEverySyncedBlock (startRow s row)
  | .currentState | .history => ∃ row, s.metadata.indexerState = some row ∧
      CompletesBackfill settings latest s (startRow s row)

/-- An iteration of the run found the tails caught up. -/
def Earned (settings : CoreDogecoinIndexerSettings) (instanceId : String)
    (steps : List IndexerStep) (flag : ReadyFlag) : Prop :=
  ∃ before input fates ahead, steps = before ++ .iterate input fates :: ahead ∧
    Earns settings input.node.latest
      (afterSteps settings before (initialStore settings instanceId)) flag

/-- Every state of the database that a crash may bring back has the flags of now. -/
def FlagsFlushed (s : IndexerStore) : Prop :=
  ∀ metadata ∈ s.unflushed, isReady metadata = isReady s.metadata

/-- Since `s`, every flag that was set was earned there, and is flushed. -/
structure FlagsSince (settings : CoreDogecoinIndexerSettings) (latest : Int)
    (s t : IndexerStore) : Prop where
  flushed : FlagsFlushed t
  earned : ∀ flag, isReady t.metadata flag = true →
    isReady s.metadata flag = true ∨ Earns settings latest s flag

/-- The flags of `s` and those earned there. -/
def FlagsEarned (settings : CoreDogecoinIndexerSettings) (latest : Int) (s t : IndexerStore) :
    Prop :=
  ∀ flag, isReady t.metadata flag = true ↔
    isReady s.metadata flag = true ∨ Earns settings latest s flag

section Flags
variable {settings : CoreDogecoinIndexerSettings} {input : IterationInput} {latest : Int}
variable {s t u : IndexerStore} {state : CoreIndexerState}

theorem flagsFlushed_relaxed {f : Metadata → Metadata} (hf : ∀ m, isReady (f m) = isReady m)
    (h : FlagsFlushed s) : FlagsFlushed (s.relaxed f) := by
  intro m hm
  have hflags : isReady (s.relaxed f).metadata = isReady s.metadata := hf s.metadata
  rw [hflags]
  rcases List.mem_append.mp hm with hm | hm
  · exact h m hm
  · rw [List.mem_singleton.mp hm]

theorem aboutFlags_flagsSince : AboutFlags (FlagsSince settings latest s) where
  relaxed _ t hf h :=
    ⟨flagsFlushed_relaxed (fun m => (hf m).1) h.flushed,
      fun flag hready => h.earned flag ((hf t.metadata).1 ▸ hready)⟩
  durable _ t hf h :=
    ⟨fun _ hm => absurd hm List.not_mem_nil,
      fun flag hready => h.earned flag ((hf t.metadata).1 ▸ hready)⟩
  outside _ _ _ _ _ h := ⟨h.flushed,h.earned⟩

theorem keeps_execute_flagsSince {f : Metadata → Metadata}
    (hf : ∀ m flag, isReady (f m) flag = true →
      isReady m flag = true ∨ Earns settings latest s flag) :
    Keeps (FlagsSince settings latest s) (execute f) := by
  refine keeps_write (fun t h => ⟨fun m hm => absurd hm List.not_mem_nil,fun flag hready => ?_⟩)
  exact (hf t.metadata flag hready).elim (h.earned flag) Or.inr

theorem keeps_promoteBackfillToOnline_flagsSince {currentStateReady : Bool}
    (hcurrent : Earns settings latest s .currentState)
    (hhistory : Earns settings latest s .history) :
    Keeps (FlagsSince settings latest s)
      (promoteBackfillToOnline input latest state currentStateReady) := by
  refine keeps_promoteBackfillToOnline_flags aboutFlags_flagsSince
    (keeps_execute_flagsSince (fun m flag hready => ?_))
    (fun ready => keeps_execute_flagsSince (fun m flag hready => ?_)) (fun pending t h => ?_)
    (keeps_execute_flagsSince (fun m flag hready => Or.inl ?_))
  · cases flag with
    | currentState => exact Or.inr hcurrent
    | history => exact Or.inl hready
    | transactionRefs => exact Or.inl hready
  · cases flag with
    | currentState => exact Or.inl hready
    | history => exact Or.inr hhistory
    | transactionRefs => exact Or.inl hready
  · exact ⟨flagsFlushed_relaxed (fun _ => rfl) h.flushed,h.earned⟩
  · cases flag <;> exact hready

theorem wp_shouldPromoteBackfill {ready : Bool} :
    wp (shouldPromoteBackfill settings latest state ready)
      (fun promote u => u = t ∧ (promote = true ↔
        latest - settings.coreOnlineTipDistance ≤ state.processTail ∨
          ready = false ∧ t.metadata.materialization.map (fun p => (p.asOfBlockHeight : Int)) =
            some state.processTail)) (fun _ u => u = t) (fun u => u = t) t := by
  refine wp_ite (fun hnear => wp_pure ⟨rfl,iff_of_true rfl (Or.inl hnear)⟩) (fun hfar => ?_)
  refine wp_ite (fun hready => wp_pure ⟨rfl,?_⟩) (fun hready => ?_)
  · rw [hready]
    exact iff_of_false (by simp) (by simp [hfar])
  · refine wp_bind (wp_read (wp_pure ⟨rfl,?_⟩) rfl rfl)
    rw [decide_eq_true_iff,or_iff_right hfar,and_iff_right (Bool.eq_false_iff.mpr hready)]

/-- The row is the one of `startRow`, or the first one of all. -/
def Begins (s : IndexerStore) (state : CoreIndexerState) : Prop :=
  match s.metadata.indexerState with
  | some row => state = startRow s row
  | none => state.stage = .syncBackfill ∧ state.processTail ≤ -1

theorem begins_of_reconciled {current : CoreIndexerState}
    (hcurrent : match s.metadata.indexerState with
      | some row => current = row
      | none => current.stage = .syncBackfill ∧ current.processTail ≤ -1)
    (hstate : state = if s.process.warehouseTailReconciled then current
      else { current with processTail := min current.processTail (recoveredTail s) }) :
    Begins s state := by
  unfold Begins
  cases hs : s.metadata.indexerState with
  | some row =>
    rw [hs] at hcurrent
    subst hcurrent
    exact hstate
  | none =>
    rw [hs] at hcurrent
    change state.stage = .syncBackfill ∧ state.processTail ≤ -1
    rw [hstate]
    split
    · exact hcurrent
    · exact ⟨hcurrent.1,(Int.min_le_left _ _).trans hcurrent.2⟩

theorem exists_startRow_iff {P : CoreIndexerState → Prop} (hstate : Begins s state)
    (hfirst : state.stage = .syncBackfill → state.processTail ≤ -1 → ¬P state) :
    (∃ row, s.metadata.indexerState = some row ∧ P (startRow s row)) ↔ P state := by
  unfold Begins at hstate
  cases hrow : s.metadata.indexerState with
  | some row =>
    rw [hrow] at hstate
    rw [show state = startRow s row from hstate]
    simp
  | none =>
    rw [hrow] at hstate
    exact iff_of_false (by simp) (hfirst hstate.1 hstate.2)

theorem earns_transactionRefs_iff (hstate : Begins s state) :
    Earns settings latest s .transactionRefs ↔
      s.process.transactionRefsReady = false ∧ hasProcessedEverySyncedBlock state = true := by
  refine and_congr_right fun _ => exists_startRow_iff
    (P := fun row => hasProcessedEverySyncedBlock row = true) hstate (fun _ htail hprocessed => ?_)
  have hsynced := of_decide_eq_true hprocessed
  omega

theorem completesBackfill_iff (hstate : Begins s state) :
    (∃ row, s.metadata.indexerState = some row ∧
      CompletesBackfill settings latest s (startRow s row)) ↔
      CompletesBackfill settings latest s state := by
  refine exists_startRow_iff hstate (fun hstage _ hcompletes => ?_)
  rw [hcompletes.1] at hstage
  cases hstage

theorem wp_recoverCoreWindow {fromBlockHeight : Nat} {updateCurrentState : Bool} :
    wp (recoverCoreWindow input fromBlockHeight updateCurrentState)
      (fun _ u => u.metadata = t.metadata ∧ u.process = t.process ∧
        u.warehouse.facts = t.warehouse.factsBelow fromBlockHeight)
      (fun _ _ => True) (fun _ => True) t := by
  refine wp_zoom (wp_mono (wp_rewindCoreDogecoinWindow (Q := fun _ w =>
    w.facts = t.warehouse.factsBelow fromBlockHeight) ?_) ?_ (fun _ _ _ => trivial)
    (fun _ _ => trivial))
  · exact facts_rewound _ _ _ _
  · exact fun _ w hw => ⟨rfl,rfl,hw⟩

theorem wp_recoverPendingCoreApplyIfNeeded_row :
    wp (recoverPendingCoreApplyIfNeeded input)
      (fun _ t => t.metadata.indexerState = s.metadata.indexerState ∧ t.process = s.process ∧
        t.warehouse.facts = solidFacts s.warehouse s.metadata.coreApplyRecovery)
      (fun _ _ => True) (fun _ => True) s := by
  refine wp_bind (wp_read ?_ trivial trivial)
  cases hmarker : s.metadata.coreApplyRecovery with
  | none => exact wp_pure ⟨rfl,rfl,rfl⟩
  | some marker =>
    refine wp_bind (wp_ofExcept (fun parsed hparsed => ?_) (fun _ _ => trivial))
    obtain rfl := parsed_of_parseCoreApplyRecoveryMarker hparsed
    refine wp_bind (wp_mono wp_recoverCoreWindow ?_ (fun _ _ h => h) (fun _ h => h))
    rintro _ t ⟨hmetadata,hprocess,hfacts⟩
    refine wp_bind (wp_call ?_ trivial trivial trivial)
    rw [hmetadata,hmarker]
    simp only [if_true]
    exact wp_pure ⟨congrArg (·.indexerState) hmetadata,hprocess,hfacts⟩

theorem wp_ensureState_row :
    wp (ensureState latest) (fun state u => u.metadata.indexerState = some state ∧
      u.process = t.process ∧ u.warehouse = t.warehouse ∧
      match t.metadata.indexerState with
      | some row => state = row
      | none => state.stage = .syncBackfill ∧ state.processTail ≤ -1)
      (fun _ _ => True) (fun _ => True) t := by
  refine wp_bind (wp_read ?_ trivial trivial)
  cases hrow : t.metadata.indexerState with
  | some row => exact wp_pure ⟨hrow,rfl,rfl,rfl⟩
  | none =>
    refine wp_bind (wp_read ?_ trivial trivial)
    exact wp_upsertCoreIndexerState ⟨rfl,rfl,rfl,rfl,Int.le_refl _⟩ trivial trivial trivial

theorem wp_getCoreProcessedTail :
    wp getCoreProcessedTail (fun tail u => u = t ∧ tail = processedTail t.warehouse.facts)
      (fun _ _ => True) (fun _ => True) t :=
  wp_zoom (wp_read ⟨rfl,rfl⟩ trivial trivial)

theorem wp_reconcileProcessTailWithWarehouse_row (hrow : t.metadata.indexerState = some state) :
    wp (reconcileProcessTailWithWarehouse input state)
      (fun state' u => u.process.transactionRefsReady = t.process.transactionRefsReady ∧
        state' = if t.process.warehouseTailReconciled then state
          else { state with
            processTail := min state.processTail (processedTail t.warehouse.facts) })
      (fun _ _ => True) (fun _ => True) t := by
  refine wp_bind (wp_look ?_)
  cases hprocess : t.process.warehouseTailReconciled with
  | true => exact wp_pure ⟨rfl,rfl⟩
  | false =>
    refine wp_bind (wp_mono wp_getCoreProcessedTail ?_ (fun _ _ h => h) (fun _ h => h))
    rintro warehouseTail _ ⟨rfl,rfl⟩
    refine wp_bind (wp_assign ?_)
    refine wp_ite (fun hle => wp_pure ⟨rfl,?_⟩) (fun hlow => ?_)
    · rw [Int.min_eq_left hle]
      rfl
    · refine wp_bind (wp_read ?_ trivial trivial)
      refine wp_bind (wp_mono wp_recoverCoreWindow ?_ (fun _ _ h => h) (fun _ h => h))
      rintro _ u ⟨hmetadata,hsame,-⟩
      refine wp_upsertCoreIndexerState ⟨congrArg (·.transactionRefsReady) hsame,?_⟩ trivial
        trivial trivial
      have hstored : u.metadata.indexerState = some state := by
        rw [hmetadata]
        exact hrow
      rw [hstored,Int.min_eq_right (Int.le_of_lt (Int.not_le.mp hlow))]
      rfl

def Unopened (s t : IndexerStore) : Prop :=
  isReady t.metadata = isReady s.metadata ∧
    t.metadata.materialization = s.metadata.materialization

theorem aboutFlags_unopened : AboutFlags (Unopened s) where
  relaxed _ t hf h := ⟨(hf t.metadata).1.trans h.1,(hf t.metadata).2.trans h.2⟩
  durable _ t hf h := ⟨(hf t.metadata).1.trans h.1,(hf t.metadata).2.trans h.2⟩
  outside _ _ _ _ _ h := h

/-- The start of an iteration sets the references' flag where it is earned, and no other. -/
structure Opened (settings : CoreDogecoinIndexerSettings) (latest : Int) (s t : IndexerStore) :
    Prop where
  currentState : t.metadata.currentStateReady = s.metadata.currentStateReady
  history : t.metadata.historyReady = s.metadata.historyReady
  transactionRefs : t.metadata.transactionRefsReady = true ↔
    s.metadata.transactionRefsReady = true ∨ Earns settings latest s .transactionRefs
  materialization : t.metadata.materialization = s.metadata.materialization

theorem Opened.congr (h : Opened settings latest s t)
    (hflags : isReady u.metadata = isReady t.metadata)
    (hpending : u.metadata.materialization = t.metadata.materialization) :
    Opened settings latest s u :=
  ⟨(congrFun hflags .currentState).trans h.currentState,
    (congrFun hflags .history).trans h.history,
    (Bool.eq_iff_iff.mp (congrFun hflags .transactionRefs)).trans h.transactionRefs,
    hpending.trans h.materialization⟩

theorem aboutFlags_opened : AboutFlags (Opened settings latest s) where
  relaxed _ t hf h := h.congr (hf t.metadata).1 (hf t.metadata).2
  durable _ t hf h := h.congr (hf t.metadata).1 (hf t.metadata).2
  outside _ _ _ _ _ h := h.congr rfl rfl

theorem wp_markTransactionRefsReadyIfCaughtUp_flags (hstate : Begins s state)
    (hknown : t.process.transactionRefsReady = s.process.transactionRefsReady)
    (hs : FlagsSince settings latest s t) (ht : Unopened s t) :
    wp (markTransactionRefsReadyIfCaughtUp state)
      (fun _ u => FlagsSince settings latest s u ∧ Opened settings latest s u)
      (fun _ => FlagsSince settings latest s) (FlagsSince settings latest s) t := by
  have hcurrent := congrFun ht.1 .currentState
  have hhistory := congrFun ht.1 .history
  have hrefs : t.metadata.transactionRefsReady = s.metadata.transactionRefsReady :=
    congrFun ht.1 .transactionRefs
  have hearns : Earns settings latest s .transactionRefs ↔ _ := earns_transactionRefs_iff hstate
  rw [← hknown] at hearns
  refine wp_bind (wp_look (wp_ite (fun hskip => wp_pure ⟨hs,hcurrent,hhistory,?_,ht.2⟩)
    (fun hrun => ?_)))
  · have hnot : ¬Earns settings latest s .transactionRefs := by
      rw [hearns]
      rintro ⟨hnew,hprocessed⟩
      rw [hnew,hprocessed] at hskip
      simp at hskip
    rw [hrefs,or_iff_left hnot]
  · have hearned : Earns settings latest s .transactionRefs := by
      rw [hearns]
      simpa using hrun
    have hset {u : IndexerStore} (hu : u.metadata.transactionRefsReady = true) :
        u.metadata.transactionRefsReady = true ↔ s.metadata.transactionRefsReady = true ∨
          Earns settings latest s .transactionRefs := iff_of_true hu (Or.inr hearned)
    have hkeeps : Keeps (FlagsSince settings latest s)
        (execute (fun metadata => { metadata with transactionRefsReady := true })) := by
      refine keeps_execute_flagsSince (fun m flag hready => ?_)
      cases flag with
      | currentState => exact Or.inl hready
      | history => exact Or.inl hready
      | transactionRefs => exact Or.inr hearned
    refine wp_bind (wp_read ?_ hs hs)
    refine wp_bind (wp_when (fun hunset => ?_) (fun hready => ?_))
    · refine wp_mono (wp_and (hkeeps t hs) (wp_write (E := fun _ _ => True) (K := fun _ => True)
        (Q := fun _ u => Opened settings latest s u) ?_ trivial trivial trivial)) ?_
        (fun _ _ h => h.1) (fun _ h => h.1)
      · exact ⟨hcurrent,hhistory,hset rfl,ht.2⟩
      · exact fun _ u hu => wp_assign ⟨⟨hu.1.flushed,hu.1.earned⟩,hu.2.congr rfl rfl⟩
    · have hready : t.metadata.transactionRefsReady = true := by simpa using hready
      exact wp_assign ⟨⟨hs.flushed,hs.earned⟩,hcurrent,hhistory,hset hready,ht.2⟩

theorem wp_startIteration_flags (hs : FlagsFlushed s) :
    wp (startIteration settings input latest)
      (fun state t => (FlagsSince settings latest s t ∧ Opened settings latest s t) ∧
        Begins s state)
      (fun _ => FlagsSince settings latest s) (FlagsSince settings latest s) s := by
  have hJ := (@aboutFlags_flagsSince settings latest s).and (@aboutFlags_unopened s)
  have hself : FlagsSince settings latest s s ∧ Unopened s s :=
    ⟨⟨hs,fun _ => Or.inl⟩,rfl,rfl⟩
  refine wp_bind (wp_mono (wp_and (keeps_recoverPendingCoreApplyIfNeeded_flags hJ s hself)
    wp_recoverPendingCoreApplyIfNeeded_row) ?_ (fun _ _ h => h.1.1) (fun _ h => h.1.1))
  rintro _ t ⟨ht,hrow,hprocess,hfacts⟩
  refine wp_bind (wp_mono (wp_and (keeps_ensureState_flags hJ t ht) wp_ensureState_row) ?_
    (fun _ _ h => h.1.1) (fun _ h => h.1.1))
  rintro current u ⟨hu,hstored,huprocess,hwarehouse,hcurrent⟩
  refine wp_bind (wp_mono (wp_and (keeps_reconcileProcessTailWithWarehouse_flags hJ u hu)
    (wp_reconcileProcessTailWithWarehouse_row hstored)) ?_ (fun _ _ h => h.1.1)
    (fun _ h => h.1.1))
  rintro state v ⟨hv,hknown,hstate⟩
  rw [huprocess,hprocess] at hknown
  rw [huprocess,hprocess,hwarehouse,hfacts] at hstate
  rw [hrow] at hcurrent
  have hbegins := begins_of_reconciled hcurrent hstate
  have hO := (@aboutFlags_flagsSince settings latest s).and (@aboutFlags_opened settings latest s)
  refine wp_bind (wp_mono (wp_markTransactionRefsReadyIfCaughtUp_flags hbegins hknown hv.1 hv.2)
    ?_ (fun _ _ h => h) (fun _ h => h))
  intro _ w hw
  refine wp_bind (wp_mono (keeps_publishProgress_flags hO w hw) ?_ (fun _ _ h => h.1)
    (fun _ h => h.1))
  intro _ w hw
  exact wp_bind (wp_read (wp_pure ⟨hw,hbegins⟩) hw.1 hw.1)

theorem wp_materializeCurrentState_ready {asOfBlockHeight : Nat} {b : Bool}
    (ht : t.metadata.transactionRefsReady = b) :
    wp (materializeCurrentState input latest asOfBlockHeight)
      (fun _ u => u.metadata.currentStateReady = true ∧ u.metadata.transactionRefsReady = b)
      (fun _ _ => True) (fun _ => True) t := by
  have hkeeps (resumeFrom : Option (Nat × Nat)) :
      Keeps (fun u : IndexerStore => u.metadata.transactionRefsReady = b)
        (materializeCoreDogecoinCurrentState
          (indexerMaterialization input latest asOfBlockHeight resumeFrom) input.boundaries
          asOfBlockHeight) := by
    refine keeps_materializeCoreDogecoinCurrentState (fun _ _ _ h => h) (fun _ _ => ?_) _
    refine keeps_bind (keeps_write (fun _ h => h)) (fun _ => keeps_bind keeps_assertPrimaryLease
      (fun _ => keeps_when (fun _ => keeps_bind (keeps_upsertCoreIndexerState (fun _ h => h))
        (fun _ => keeps_pure ()))))
  refine wp_bind (wp_read ?_ trivial trivial)
  refine wp_bind (wp_mono (hkeeps _ t ht) ?_ (fun _ _ _ => trivial) (fun _ _ => trivial))
  intro _ u hu
  refine wp_bind (wp_mono (@wp_settleAll_made IndexerStore CoreError
    [IndexerStore.durable (fun metadata => { metadata with currentStateReady := true }),
      IndexerStore.durable (fun metadata => { metadata with historyReady := false })] u) ?_
    (fun _ _ h => h) (fun _ h => h))
  rintro _ _ rfl
  exact wp_write ⟨rfl,hu⟩ trivial trivial trivial

/-- A promotion that ends has set both flags of the current state. -/
theorem wp_promoteBackfillToOnline_ready {b : Bool} (ht : t.metadata.transactionRefsReady = b) :
    wp (promoteBackfillToOnline input latest state t.metadata.currentStateReady)
      (fun _ u => u.metadata.currentStateReady = true ∧ u.metadata.historyReady = true ∧
        u.metadata.transactionRefsReady = b) (fun _ _ => True) (fun _ => True) t := by
  have hmaterialized : wp (materializeCurrentStateIfNeeded input latest state
      t.metadata.currentStateReady)
      (fun _ u => u.metadata.currentStateReady = true ∧ u.metadata.transactionRefsReady = b)
      (fun _ _ => True) (fun _ => True) t := by
    refine wp_when (fun _ => wp_materializeCurrentState_ready ht) (fun hready => ⟨?_,ht⟩)
    simpa using hready
  refine wp_bind (wp_mono hmaterialized ?_ (fun _ _ h => h) (fun _ h => h))
  rintro _ u ⟨hcurrent,hrefs⟩
  refine wp_bind (wp_upsertCoreIndexerState ?_ trivial trivial trivial)
  refine wp_mono (@wp_settleAll_made IndexerStore CoreError
    [IndexerStore.durable (Metadata.withProgress (fun p => { p with stage := some .online })),
      IndexerStore.durable (fun metadata => { metadata with historyReady := true }),
      IndexerStore.durable (Metadata.withProgress
        (fun p => { p with factTail := some state.processTail }))] _) ?_
    (fun _ _ h => h) (fun _ h => h)
  rintro _ _ rfl
  exact ⟨hcurrent,rfl,hrefs⟩

section Stage
variable (hstate : Begins s state)
include hstate

theorem flagsEarned_of_opened (ht : Opened settings latest s t)
    (hnot : ¬CompletesBackfill settings latest s state) : FlagsEarned settings latest s t := by
  have hnone := (completesBackfill_iff hstate).not.mpr hnot
  intro flag
  cases flag with
  | currentState => exact (Bool.eq_iff_iff.mp ht.currentState).trans (or_iff_left hnone).symm
  | history => exact (Bool.eq_iff_iff.mp ht.history).trans (or_iff_left hnone).symm
  | transactionRefs => exact ht.transactionRefs

theorem flagsEarned_of_promoted (ht : Opened settings latest s t)
    (hcompletes : CompletesBackfill settings latest s state)
    (hu : u.metadata.currentStateReady = true ∧ u.metadata.historyReady = true ∧
      u.metadata.transactionRefsReady = t.metadata.transactionRefsReady) :
    FlagsEarned settings latest s u := by
  have hearned := (completesBackfill_iff hstate).mpr hcompletes
  intro flag
  cases flag with
  | currentState => exact iff_of_true hu.1 (Or.inr hearned)
  | history => exact iff_of_true hu.2.1 (Or.inr hearned)
  | transactionRefs => exact (Bool.eq_iff_iff.mp hu.2.2).trans ht.transactionRefs

theorem wp_processBackfill_flags (hs : FlagsSince settings latest s t)
    (ht : Opened settings latest s t) (hstage : state.stage = .processBackfill) :
    wp (processBackfill settings input latest state)
      (fun _ u => FlagsSince settings latest s u ∧ FlagsEarned settings latest s u)
      (fun _ => FlagsSince settings latest s) (FlagsSince settings latest s) t := by
  have hJ := (@aboutFlags_flagsSince settings latest s).and (@aboutFlags_opened settings latest s)
  have hkept (hnot : ¬CompletesBackfill settings latest s state) {u : IndexerStore}
      (hu : FlagsSince settings latest s u ∧ Opened settings latest s u) :
      FlagsSince settings latest s u ∧ FlagsEarned settings latest s u :=
    ⟨hu.1,flagsEarned_of_opened hstate hu.2 hnot⟩
  refine wp_bind (wp_read ?_ hs hs)
  refine wp_ite (fun hcaught => ?_) (fun hbehind => ?_)
  · refine wp_bind (wp_mono wp_shouldPromoteBackfill ?_ (fun _ _ h => h ▸ hs)
      (fun _ h => h ▸ hs))
    rintro promote _ ⟨rfl,hpromote⟩
    rw [ht.materialization,ht.currentState] at hpromote
    have hcompletes : promote = true ↔ CompletesBackfill settings latest s state :=
      hpromote.trans ⟨fun h => ⟨hstage,hcaught,h⟩,fun h => h.2.2⟩
    refine wp_ite (fun hyes => ?_) (fun hno => ?_)
    · have hyes := hcompletes.mp hyes
      have hearned := (completesBackfill_iff hstate).mpr hyes
      refine wp_bind (wp_mono (wp_and (keeps_promoteBackfillToOnline_flagsSince hearned hearned _
        hs) (wp_promoteBackfillToOnline_ready rfl)) ?_ (fun _ _ h => h.1) (fun _ h => h.1))
      exact fun _ u hu => wp_pure ⟨hu.1,flagsEarned_of_promoted hstate ht hyes hu.2⟩
    · have hno := hcompletes.not.mp hno
      exact wp_bind (wp_mono (keeps_returnBackfillToSync_flags hJ _ ⟨hs,ht⟩)
        (fun _ _ h => wp_pure (hkept hno h)) (fun _ _ h => h.1) (fun _ h => h.1))
  · exact wp_mono (keeps_processBackfillWindow_flags hJ t ⟨hs,ht⟩)
      (fun _ _ h => hkept (fun hcompletes => hbehind hcompletes.2.1) h) (fun _ _ h => h.1)
      (fun _ h => h.1)

theorem wp_runDogecoinStage_flags (hs : FlagsSince settings latest s t)
    (ht : Opened settings latest s t) :
    wp (runDogecoinStage settings input latest state)
      (fun _ u => FlagsSince settings latest s u ∧ FlagsEarned settings latest s u)
      (fun _ => FlagsSince settings latest s) (FlagsSince settings latest s) t := by
  have hJ := (@aboutFlags_flagsSince settings latest s).and (@aboutFlags_opened settings latest s)
  have hother {m : IndexerJob Bool} (hstage : state.stage ≠ .processBackfill)
      (hm : Keeps (fun u => FlagsSince settings latest s u ∧ Opened settings latest s u) m) :
      wp m (fun _ u => FlagsSince settings latest s u ∧ FlagsEarned settings latest s u)
        (fun _ => FlagsSince settings latest s) (FlagsSince settings latest s) t :=
    wp_mono (hm t ⟨hs,ht⟩)
      (fun _ _ h => ⟨h.1,flagsEarned_of_opened hstate h.2 (fun hcompletes =>
        hstage hcompletes.1)⟩) (fun _ _ h => h.1) (fun _ h => h.1)
  unfold runDogecoinStage
  cases hstage : state.stage with
  | syncBackfill => exact hother (by simp [hstage]) (keeps_syncBackfill_flags hJ)
  | processBackfill => exact wp_processBackfill_flags hstate hs ht hstage
  | online => exact hother (by simp [hstage]) (keeps_online_flags hJ)

end Stage

theorem wp_runDogecoinConfig_flags (hs : FlagsFlushed s) :
    wp (runDogecoinConfig settings input)
      (fun _ t => FlagsSince settings input.node.latest s t ∧
        FlagsEarned settings input.node.latest s t)
      (fun _ => FlagsSince settings input.node.latest s)
      (FlagsSince settings input.node.latest s) s := by
  have hJ := @aboutFlags_flagsSince settings input.node.latest s
  have hself : FlagsSince settings input.node.latest s s := ⟨hs,fun _ => Or.inl⟩
  refine wp_bind (wp_read ?_ hself hself)
  refine wp_bind (wp_read ?_ hself hself)
  refine wp_onFailure (wp_bind (wp_mono (wp_startIteration_flags hs) ?_ ?_ (fun _ h => h)))
  · rintro state t ⟨⟨ht,hopened⟩,hstate⟩
    refine wp_mono (wp_runDogecoinStage_flags hstate ht hopened) (fun _ _ h => h) ?_
      (fun _ h => h)
    exact fun _ u hu => keeps_setCoreIndexerError
      (fun v hv => hJ.relaxed _ v (fun _ => ⟨rfl,rfl⟩) hv) u hu
  · exact fun _ u hu => keeps_setCoreIndexerError
      (fun v hv => hJ.relaxed _ v (fun _ => ⟨rfl,rfl⟩) hv) u hu

theorem isReady_crash (h : FlagsFlushed s) (instanceId : String) (kept : Nat) :
    isReady ((IndexerStep.crash instanceId kept).after settings s).metadata =
      isReady s.metadata := by
  change isReady ((s.unflushed[kept]?).getD s.metadata) = isReady s.metadata
  cases hkept : s.unflushed[kept]? with
  | none => rfl
  | some metadata => exact h metadata (List.mem_of_getElem? hkept)

theorem flags_land (h : FlagsFlushed s) (write : RawWrite ParsedDogecoinBlock) :
    FlagsFlushed (land s write) ∧ isReady (land s write).metadata = isReady s.metadata := by
  cases write with
  | part key block => exact ⟨h,rfl⟩
  | blocks records =>
    have hf := keepsFlags_upsertCoreBlocks records
    exact ⟨flagsFlushed_relaxed (fun m => (hf m).1) h,(hf s.metadata).1⟩
  | refs refs => exact ⟨h,rfl⟩

/-- Only an iteration sets a flag, and only one that earned it. -/
theorem flags_step {step : IndexerStep} (h : FlagsFlushed s) :
    FlagsFlushed (step.after settings s) ∧
      ∀ flag, isReady (step.after settings s).metadata flag = true →
        isReady s.metadata flag = true ∨ ∃ input fates, step = .iterate input fates ∧
          Earns settings input.node.latest s flag := by
  cases step with
  | iterate input fates =>
    have hflags : FlagsSince settings input.node.latest s
        ((runDogecoinConfig settings input).run s fates).2.1 :=
      last_of_wp (wp_mono (wp_runDogecoinConfig_flags h) (fun _ _ ht => ht.1)
        (fun _ _ ht => ht) (fun _ ht => ht)) fates
    refine ⟨hflags.flushed,fun flag hready => ?_⟩
    exact (hflags.earned flag hready).imp id (fun hearns => ⟨input,fates,rfl,hearns⟩)
  | lands index =>
    simp only [IndexerStep.after]
    cases hwrite : s.underway[index]? with
    | none => exact ⟨h,fun _ => Or.inl⟩
    | some write =>
      have hs : FlagsFlushed { s with underway := s.underway.eraseIdx index } := h
      obtain ⟨hflushed,hsame⟩ := flags_land hs write
      exact ⟨hflushed,fun flag hready => Or.inl (hsame ▸ hready)⟩
  | restart instanceId => exact ⟨h,fun _ => Or.inl⟩
  | crash instanceId kept =>
    refine ⟨fun m hm => absurd hm List.not_mem_nil,fun flag hready => Or.inl ?_⟩
    rwa [isReady_crash h] at hready

/-- In the run of which the steps are a part. -/
theorem flags_afterSteps {run steps ahead : List IndexerStep} {instanceId : String}
    (hrun : run = steps ++ ahead) :
    FlagsFlushed (afterSteps settings steps (initialStore settings instanceId)) ∧
      ∀ flag, isReady (afterSteps settings steps (initialStore settings instanceId)).metadata
        flag = true → Earned settings instanceId run flag := by
  subst hrun
  induction steps using List.reverseRecOn generalizing ahead with
  | nil =>
    refine ⟨fun m hm => absurd hm List.not_mem_nil,fun flag hready => ?_⟩
    cases flag <;> cases hready
  | append_singleton steps step ih =>
    rw [List.append_assoc,List.singleton_append,afterSteps_append]
    obtain ⟨hflushed,hearned⟩ := @ih (step::ahead)
    obtain ⟨hnext,hset⟩ := @flags_step settings _ step hflushed
    refine ⟨hnext,fun flag hready => ?_⟩
    rcases hset flag hready with hbefore | ⟨input,fates,rfl,hearns⟩
    · exact hearned flag hbefore
    · exact ⟨steps,input,fates,ahead,rfl,hearns⟩

end Flags

/-- A crash in the middle of the run takes back what was not flushed. -/
def stepsToCrash : List IndexerStep := stepsToOnline ++ [.crash "b" 1]

/-- The node reorganizes at height 2. -/
def forkedBlock (height : Nat) : ParsedDogecoinBlock :=
  { coinbaseBlock height with
    hash := toString height ++ "b"
    previousHash := some (if height = 2 then "1" else toString (height - 1) ++ "b") }

def forkedChain : NodeChain :=
  ⟨[0,1].map coinbaseBlock ++ [2,3,4,5].map forkedBlock,by decide +kernel,by simp⟩

def forkedSteps (count : Nat) : List IndexerStep :=
  List.replicate count (.iterate { coinbaseInput 5 with node := forkedChain } [])

def pairSettings : CoreDogecoinIndexerSettings :=
  { shallowSettings with
    syncWindow := 2
    syncWindow_pos := Nat.two_pos }

/-- Two iterations that sync the heights to 3, and a step after them. -/
def stepsFromFork (step : IndexerStep) (count : Nat) : List IndexerStep :=
  List.replicate 2 (.iterate (coinbaseInput 5) []) ++ step::forkedSteps count

theorem isReady_eq {m : Metadata} {b : Bool} (h : m.currentStateReady = b ∧ m.historyReady = b ∧
    m.transactionRefsReady = b) : isReady m = fun _ => b := by
  funext flag
  cases flag with
  | currentState => exact h.1
  | history => exact h.2.1
  | transactionRefs => exact h.2.2

theorem afterSteps_forkedSteps {settings : CoreDogecoinIndexerSettings} {s : IndexerStore}
    (h : afterSteps settings (forkedSteps 1) s = s) (count : Nat) :
    afterSteps settings (forkedSteps count) s = s := by
  induction count with
  | zero => rfl
  | succ count ih =>
    change afterSteps settings (forkedSteps count) (afterSteps settings (forkedSteps 1) s) = s
    rw [h,ih]

end OnlyDoge.CoreIndexer
