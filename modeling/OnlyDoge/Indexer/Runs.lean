import OnlyDoge.Indexer.Service
set_option autoImplicit false

/-! Runs of the core indexer: iterations, restarts of its process and crashes of its database. -/

namespace OnlyDoge.CoreIndexer

def freshProcess (settings : CoreDogecoinIndexerSettings) (instanceId : String) :
    IndexerProcess where
  instanceId := instanceId
  warehouseTailReconciled := false
  transactionRefsReady := false
  nodeSourceRetryAtMs := 0
  backfillLoader := none
  concurrency := ⟨settings.syncConcurrency,
    clampConcurrency settings.syncConcurrency settings.syncConcurrency,0⟩

/-- An indexer that has never run. -/
def initialStore (settings : CoreDogecoinIndexerSettings) (instanceId : String) : IndexerStore :=
  ⟨emptyWarehouse,emptyMetadata,[],[],[],freshProcess settings instanceId⟩

def land (s : IndexerStore) : RawWrite ParsedDogecoinBlock → IndexerStore
  | .part _ block => s.putPart block
  | .blocks records => s.relaxed (Metadata.upsertCoreBlocks records)
  | .refs refs => s.upsertTransactionRefs refs

/-- `lands` is a write of an abandoned round that arrives late; `crash` is one of the database,
which comes back as it was before the given unflushed write or with all of them. -/
inductive IndexerStep where
  | iterate (input : IterationInput) (fates : List Fate)
  | lands (index : Nat)
  | restart (instanceId : String)
  | crash (instanceId : String) (kept : Nat)

namespace IndexerStep

def after (settings : CoreDogecoinIndexerSettings) (step : IndexerStep) (s : IndexerStore) :
    IndexerStore :=
  match step with
  | .iterate input fates => ((runDogecoinConfig settings input).run s fates).2.1
  | .lands index =>
    match s.underway[index]? with
    | none => s
    | some write => land { s with underway := s.underway.eraseIdx index } write
  | .restart instanceId => { s with process := freshProcess settings instanceId }
  | .crash instanceId kept =>
    { s with
      metadata := (s.unflushed[kept]?).getD s.metadata
      unflushed := []
      process := freshProcess settings instanceId }

/-- No write is lost in the step. -/
def LosesNothing : IndexerStep → Prop
  | .crash _ _ => False
  | _ => True

end IndexerStep

def afterSteps (settings : CoreDogecoinIndexerSettings) (steps : List IndexerStep)
    (s : IndexerStore) : IndexerStore :=
  steps.foldl (fun s step => step.after settings s) s

/-- The iteration ends without an error and leaves `t`. -/
def Completes (settings : CoreDogecoinIndexerSettings) (input : IterationInput)
    (fates : List Fate) (s t : IndexerStore) : Prop :=
  ∃ didWork rest, (runDogecoinConfig settings input).run s fates = (.value didWork,t,rest)

/-- Every step of the run meets a condition in the state before it. -/
def StepsMeet (settings : CoreDogecoinIndexerSettings) (C : IndexerStep → IndexerStore → Prop) :
    List IndexerStep → IndexerStore → Prop
  | [],_ => True
  | step::steps,s => C step s ∧ StepsMeet settings C steps (step.after settings s)

instance instDecidableStepsMeet {settings : CoreDogecoinIndexerSettings}
    {C : IndexerStep → IndexerStore → Prop} [∀ step s, Decidable (C step s)]
    (steps : List IndexerStep) (s : IndexerStore) :
    Decidable (StepsMeet settings C steps s) :=
  match steps with
  | [] => isTrue trivial
  | _::_ => @instDecidableAnd _ _ _ (instDecidableStepsMeet _ _)

theorem stepsMeet_true {settings : CoreDogecoinIndexerSettings} (steps : List IndexerStep)
    (s : IndexerStore) : StepsMeet settings (fun _ _ => True) steps s := by
  induction steps generalizing s with
  | nil => trivial
  | cons step steps ih => exact ⟨trivial,ih _⟩

theorem afterSteps_invariant {settings : CoreDogecoinIndexerSettings}
    {C : IndexerStep → IndexerStore → Prop} {I : IndexerStore → Prop}
    (hstep : ∀ step s, I s → C step s → I (step.after settings s)) {steps : List IndexerStep}
    {s : IndexerStore} (hs : I s) (hC : StepsMeet settings C steps s) :
    I (afterSteps settings steps s) := by
  induction steps generalizing s with
  | nil => exact hs
  | cons step steps ih => exact ih (hstep step s hs hC.1) hC.2

theorem afterSteps_append {settings : CoreDogecoinIndexerSettings} (xs ys : List IndexerStep)
    (s : IndexerStore) :
    afterSteps settings (xs ++ ys) s = afterSteps settings ys (afterSteps settings xs s) := by
  unfold afterSteps
  exact List.foldl_append

theorem stepsMeet_append {settings : CoreDogecoinIndexerSettings}
    {C : IndexerStep → IndexerStore → Prop} {xs ys : List IndexerStep} {s : IndexerStore} :
    StepsMeet settings C (xs ++ ys) s ↔
      StepsMeet settings C xs s ∧ StepsMeet settings C ys (afterSteps settings xs s) := by
  induction xs generalizing s with
  | nil => exact ⟨fun h => ⟨trivial,h⟩,fun h => h.2⟩
  | cons step xs ih =>
    constructor
    · rintro ⟨hstep,hrest⟩
      obtain ⟨hxs,hys⟩ := ih.mp hrest
      exact ⟨⟨hstep,hxs⟩,hys⟩
    · rintro ⟨⟨hstep,hxs⟩,hys⟩
      exact ⟨hstep,ih.mpr ⟨hxs,hys⟩⟩

end OnlyDoge.CoreIndexer
