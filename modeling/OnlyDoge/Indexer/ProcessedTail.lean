import OnlyDoge.Indexer.Stages
set_option autoImplicit false

/-!
No holes in the processed chain: which iterations leave a processed block at every height up to
the recorded tail, and the run that leaves a hole.
-/

namespace OnlyDoge.CoreIndexer
open Job

/-- A processed block at every height up to the recorded tail. -/
def NoHoles (s : IndexerStore) : Prop :=
  ∀ row, s.metadata.indexerState = some row → ∀ height : Nat, (height : Int) ≤ row.processTail →
    ∃ block ∈ s.warehouse.coreProcessedBlocks, block.blockHeight = height

/-- A node reported the block to an iteration of the run. -/
def ReportedBy (steps : List IndexerStep) (block : ParsedDogecoinBlock) : Prop :=
  ∃ step ∈ steps, ∃ input ∈ step.inputs, ∃ height, input.node.block height = some block

/-- An iteration of the run wrote the rows of the block, in a window of reported blocks: with the
outputs that the window creates, and with those that it spends if the current state was ready. -/
def WrittenBy (settings : CoreDogecoinIndexerSettings) (instanceId : String)
    (steps : List IndexerStep) (a : AppliedBlock) : Prop :=
  ∃ before input fates ahead window, steps = before ++ .iterate input fates :: ahead ∧
    (∀ block ∈ window, ReportedBy steps block) ∧
    a.WrittenWith (ReportedOutput (ReportedBy steps))
      (afterSteps settings before (initialStore settings instanceId)).metadata.currentStateReady
      window

/-- The rows of one block for each height, up to the recorded tail and not twice, each block's as
`A` says. -/
def RowsOnce (A : AppliedBlock → Prop) (s : IndexerStore) : Prop :=
  ∃ applied, s.warehouse.facts = appliedFacts applied ∧ FromGenesis applied ∧
    (∀ a ∈ applied, A a) ∧
    ∀ row, s.metadata.indexerState = some row → row.processTail + 1 ≤ (applied.length : Int)

/-- The stored row names the online stage. -/
def IsOnline (s : IndexerStore) : Prop :=
  s.metadata.indexerState.map (·.stage) = some .online

instance (s : IndexerStore) : Decidable (IsOnline s) := by
  unfold IsOnline
  infer_instance

section Tail
variable {A : AppliedBlock → Prop} {B : ParsedDogecoinBlock → Prop}
variable {settings : CoreDogecoinIndexerSettings} {s t : IndexerStore} {stage : CoreIndexerStage}

theorem rowsOnce_of_caughtUp (h : CaughtUp A stage s) : RowsOnce A s := by
  obtain ⟨p,n,hs,hle⟩ := h
  obtain ⟨applied,hsolid⟩ := hs.recoverable.current.solid
  rw [hs.clear] at hsolid
  have hn : applied.length = n := hsolid.height.symm.trans hs.height
  refine ⟨applied,hsolid.facts,hsolid.genesis,hsolid.written,?_⟩
  intro row hrow
  obtain ⟨r,hr,-,rfl⟩ := hs.row
  rw [hrow] at hr
  cases hr
  omega

theorem noHoles_of_rowsOnce (h : RowsOnce A s) : NoHoles s := by
  obtain ⟨applied,hfacts,hgenesis,-,htail⟩ := h
  intro row hrow height hle
  have hbelow := processedBelow_of_facts hfacts hgenesis
  have hlt := htail row hrow
  have hmem : height ∈ s.warehouse.coreProcessedBlocks.map (·.blockHeight) := by
    rw [hbelow,List.mem_range]
    omega
  exact List.mem_map.mp hmem

/-- In the run of which the steps are a part. -/
theorem recoverable_afterSteps {run steps ahead : List IndexerStep} {instanceId : String}
    (hrun : run = steps ++ ahead)
    (hsteps : StepsMeet settings (StepLeavesNoGap settings) steps
      (initialStore settings instanceId)) :
    Recoverable (WrittenBy settings instanceId run)
        (afterSteps settings steps (initialStore settings instanceId)) ∧
      HoldsReported (ReportedBy run)
        (afterSteps settings steps (initialStore settings instanceId)) := by
  subst hrun
  induction steps using List.reverseRecOn generalizing ahead with
  | nil => exact ⟨recoverable_initialStore instanceId,holdsReported_initialStore instanceId⟩
  | append_singleton steps step ih =>
    obtain ⟨hbefore,hgap,-⟩ := stepsMeet_append.mp hsteps
    rw [List.append_assoc,List.singleton_append,afterSteps_append]
    obtain ⟨hrecoverable,hreported⟩ := @ih (step::ahead) hbefore
    have hnode : ∀ input ∈ step.inputs, ∀ height block, input.node.block height = some block →
        ReportedBy (steps ++ step::ahead) block :=
      fun input hinput height block hblock => ⟨step,by simp,input,hinput,height,hblock⟩
    refine ⟨recoverable_step hrecoverable hreported hnode ?_ hgap,hreported.step hnode⟩
    intro input hinput window a hwindow hwritten
    cases step with
    | iterate read fates => exact ⟨steps,read,fates,ahead,window,rfl,hwindow,hwritten⟩
    | lands index => cases hinput
    | restart instanceId => cases hinput
    | crash instanceId kept => cases hinput

theorem ended_of_completes {steps : List IndexerStep} {instanceId : String}
    {input : IterationInput} {fates : List Fate}
    (hsteps : StepsMeet settings (StepLeavesNoGap settings) steps
      (initialStore settings instanceId))
    (hgap : IterationLeavesNoGap settings input
      (afterSteps settings steps (initialStore settings instanceId)))
    (hdone : Completes settings input fates
      (afterSteps settings steps (initialStore settings instanceId)) t) :
    Ended (WrittenBy settings instanceId (steps ++ [.iterate input fates]))
      (afterSteps settings steps (initialStore settings instanceId)) t := by
  obtain ⟨didWork,rest,hvalue⟩ := hdone
  obtain ⟨hrecoverable,hreported⟩ :=
    recoverable_afterSteps (Eq.refl (steps ++ [.iterate input fates])) hsteps
  refine value_of_wp (attains_runDogecoinConfig ?_ hrecoverable ⟨hreported,?_⟩ hgap) hvalue
  · exact fun height block hblock =>
      ⟨.iterate input fates,by simp,input,List.mem_singleton.mpr rfl,height,hblock⟩
  · exact fun window a hwindow hwritten =>
      ⟨steps,input,fates,[],window,rfl,hwindow,hwritten⟩

theorem completes_of_outcome {input : IterationInput} {fates : List Fate} {didWork : Bool}
    (h : ((runDogecoinConfig settings input).run s fates).1 = .value didWork) :
    Completes settings input fates s ((runDogecoinConfig settings input).run s fates).2.1 :=
  ⟨didWork,((runDogecoinConfig settings input).run s fates).2.2,by rw [← h]⟩

/-- In a run whose online windows begin at or below the end of the rows, whatever else fails and
restarts, an iteration that ran the online stage and ended leaves no hole. -/
theorem online_iteration_noHoles {steps : List IndexerStep} {instanceId : String}
    {input : IterationInput} {fates : List Fate}
    (hsteps : StepsMeet settings (StepLeavesNoGap settings) steps
      (initialStore settings instanceId))
    (hgap : IterationLeavesNoGap settings input
      (afterSteps settings steps (initialStore settings instanceId)))
    (honline : IsOnline (afterSteps settings steps (initialStore settings instanceId)))
    (hdone : Completes settings input fates
      (afterSteps settings steps (initialStore settings instanceId)) t) : NoHoles t := by
  obtain ⟨row,hrow,hstage⟩ := Option.map_eq_some_iff.mp honline
  have hended := ended_of_completes hsteps hgap hdone
  exact noHoles_of_rowsOnce (rowsOnce_of_caughtUp (hended.2 row hrow hstage))

end Tail

/-- A chain whose blocks hold one coinbase transaction. -/
def coinbaseBlock (height : Nat) : ParsedDogecoinBlock where
  hash := toString height
  height := height
  time := height
  previousHash := if height = 0 then none else some (toString (height - 1))
  tx := [⟨"tx" ++ toString height,[.coinbase],[⟨some 0,10,"addr","p2pkh"⟩]⟩]

theorem heights_coinbaseBlock (count : Nat) :
    ((List.range count).map coinbaseBlock).map (·.height) =
      List.range ((List.range count).map coinbaseBlock).length := by
  rw [List.length_map,List.length_range,List.map_map]
  exact List.map_id _

def coinbaseChain (latest : Nat) : NodeChain :=
  ⟨(List.range (latest + 1)).map coinbaseBlock,heights_coinbaseBlock _,by simp [List.range_succ]⟩

def shallowSettings : CoreDogecoinIndexerSettings where
  syncBatchSize := 10
  syncConcurrency := 2
  syncRetryAttempts := 1
  coreBackfillBlockSource := none
  coreBackfillWindowBlocks := none
  coreOnlineTipDistance := 0
  coreProcessWindow := 100
  coreReprocessDepth := 2
  coreSyncCompleteDistance := 0
  syncWindow := 100
  backfillWindow_pos _ h := absurd h (Option.not_mem_none _)
  processWindow_pos := Nat.succ_pos 99
  reprocessDepth_pos := Nat.succ_pos 1
  syncWindow_pos := Nat.succ_pos 99

def coinbaseInput (latest : Nat) : IterationInput where
  node := coinbaseChain latest
  nowMs := 0
  fillBlocks := 100
  readAheadBlocks := 0
  heartbeatDue _ := false
  boundaries _ := []

/-- Four iterations that reach the online stage at height 5. -/
def stepsToOnline : List IndexerStep := List.replicate 4 (.iterate (coinbaseInput 5) [])

/-- The tip drops to 3, and the apply of the window 2..3 fails after its marker was flushed. -/
def stepsToFailedDrop : List IndexerStep :=
  stepsToOnline ++ [.iterate (coinbaseInput 3) (List.replicate 36 .done ++ [.refused])]

abbrev onlineStore : IndexerStore :=
  afterSteps shallowSettings stepsToOnline (initialStore shallowSettings "a")

theorem online_iteration_noHoles_at_six :
    NoHoles ((runDogecoinConfig shallowSettings (coinbaseInput 6)).run onlineStore []).2.1 := by
  have hsteps : StepsMeet shallowSettings (StepLeavesNoGap shallowSettings) stepsToOnline
      (initialStore shallowSettings "a") := by decide +kernel
  have hgap : IterationLeavesNoGap shallowSettings (coinbaseInput 6) onlineStore := by
    decide +kernel
  have honline : IsOnline onlineStore := by decide +kernel
  have hvalue : ((runDogecoinConfig shallowSettings (coinbaseInput 6)).run onlineStore []).1 =
      .value true := by decide +kernel
  have hdone := completes_of_outcome hvalue
  exact online_iteration_noHoles hsteps hgap honline hdone

abbrev failedDropStore : IndexerStore :=
  afterSteps shallowSettings stepsToFailedDrop (initialStore shallowSettings "a")

/-- Recovery cuts the rows 2..5, the recorded tail stays 5, and the next window is 4..6. -/
theorem online_iteration_hole :
    ¬ ∀ (settings : CoreDogecoinIndexerSettings) (steps : List IndexerStep) (instanceId : String)
      (input : IterationInput) (fates : List Fate) (t : IndexerStore),
      (∀ step ∈ steps, step.LosesNothing) →
      IsOnline (afterSteps settings steps (initialStore settings instanceId)) →
      Completes settings input fates
        (afterSteps settings steps (initialStore settings instanceId)) t → NoHoles t := by
  intro hall
  have hkept : ∀ step ∈ stepsToFailedDrop, step.LosesNothing := by
    intro step hstep
    simp only [stepsToFailedDrop,stepsToOnline,List.mem_append,List.mem_replicate,
      List.mem_singleton] at hstep
    rcases hstep with ⟨-,rfl⟩ | rfl <;> trivial
  obtain ⟨run,heq⟩ : ∃ run,
      run = (runDogecoinConfig shallowSettings (coinbaseInput 6)).run failedDropStore [] := ⟨_,rfl⟩
  -- one evaluation of the run shows all that is read off it
  have hrun : IsOnline failedDropStore ∧ run.1 = .value true ∧
      run.2.1.metadata.indexerState = some ⟨.online,6,6,6,false⟩ ∧
      ∀ block ∈ run.2.1.warehouse.coreProcessedBlocks, block.blockHeight ≠ 2 := by
    rw [heq]
    decide +kernel
  obtain ⟨honline,hvalue,htail,hrows⟩ := hrun
  have hdone : Completes shallowSettings (coinbaseInput 6) [] failedDropStore run.2.1 :=
    ⟨true,run.2.2,by rw [← heq,← hvalue]⟩
  have hnoHoles : NoHoles run.2.1 := hall shallowSettings stepsToFailedDrop "a" (coinbaseInput 6) []
    run.2.1 hkept honline hdone
  obtain ⟨block,hblock,hheight⟩ := hnoHoles _ htail 2 (by decide)
  exact hrows block hblock hheight

end OnlyDoge.CoreIndexer
