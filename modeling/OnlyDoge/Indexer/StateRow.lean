import OnlyDoge.Indexer.Store
import OnlyDoge.Library.Interleaving
set_option autoImplicit false

/-!
The row of `core_indexer_state` under upserts that overlap (`metadata-store.ts`): an upsert reads
the row, fills in the fields that it does not give, and writes the whole row.
-/

namespace OnlyDoge.StateRow
open Interleaving

/-- The row with its error text and the time of its last write. -/
structure CoreIndexerState where
  stage : CoreIndexerStage
  syncTail : Int
  processTail : Int
  onlineTip : Int
  lastError : Option String
  updatedAt : String
  deriving DecidableEq,Repr

/-- `lastError` is `some none` where the input has the field and it is null. -/
structure CoreIndexerStateUpdate where
  stage : Option CoreIndexerStage
  syncTail : Option Int
  processTail : Option Int
  onlineTip : Option Int
  lastError : Option (Option String)
  deriving DecidableEq,Repr

/-- What `upsertCoreIndexerState` writes after it has read `current`. -/
def next (input : CoreIndexerStateUpdate) (now : String) (current : Option CoreIndexerState) :
    CoreIndexerState where
  stage := input.stage.getD ((current.map (·.stage)).getD .syncBackfill)
  syncTail := input.syncTail.getD ((current.map (·.syncTail)).getD (-1))
  processTail := input.processTail.getD ((current.map (·.processTail)).getD (-1))
  onlineTip := input.onlineTip.getD ((current.map (·.onlineTip)).getD (-1))
  lastError := input.lastError.getD (current.bind (·.lastError))
  updatedAt := now

/-- The row after an upsert that nothing interrupts. -/
def upsertCoreIndexerState (input : CoreIndexerStateUpdate) (now : String)
    (current : Option CoreIndexerState) : Option CoreIndexerState :=
  some (next input now current)

def setCoreIndexerStage (stage : CoreIndexerStage) : CoreIndexerStateUpdate :=
  ⟨some stage,none,none,none,none⟩

def setCoreIndexerError (error : Option String) : CoreIndexerStateUpdate :=
  ⟨none,none,none,none,some error⟩

/-- The row as the indexer model keeps it, which asks only whether there is an error. -/
def CoreIndexerState.checkpoint (row : CoreIndexerState) : OnlyDoge.CoreIndexerState where
  stage := row.stage
  syncTail := row.syncTail
  processTail := row.processTail
  onlineTip := row.onlineTip
  lastError := row.lastError.isSome

def CoreIndexerStateUpdate.checkpoint (input : CoreIndexerStateUpdate) :
    OnlyDoge.CoreIndexerStateUpdate where
  stage := input.stage
  syncTail := input.syncTail
  processTail := input.processTail
  onlineTip := input.onlineTip
  lastError := input.lastError.map Option.isSome

theorem next_checkpoint (input : CoreIndexerStateUpdate) (now : String)
    (current : Option CoreIndexerState) :
    (next input now current).checkpoint =
      input.checkpoint.next (current.map CoreIndexerState.checkpoint) := by
  cases current <;> cases herror : input.lastError <;>
    simp [next,CoreIndexerState.checkpoint,CoreIndexerStateUpdate.checkpoint,
      OnlyDoge.CoreIndexerStateUpdate.next,herror]

/-- The fields of a row that an update leaves out are the same in another row. -/
structure SameUngiven (input : CoreIndexerStateUpdate) (row row' : Option CoreIndexerState) :
    Prop where
  stage : input.stage = none →
    (row.map (·.stage)).getD .syncBackfill = (row'.map (·.stage)).getD .syncBackfill
  syncTail : input.syncTail = none →
    (row.map (·.syncTail)).getD (-1) = (row'.map (·.syncTail)).getD (-1)
  processTail : input.processTail = none →
    (row.map (·.processTail)).getD (-1) = (row'.map (·.processTail)).getD (-1)
  onlineTip : input.onlineTip = none →
    (row.map (·.onlineTip)).getD (-1) = (row'.map (·.onlineTip)).getD (-1)
  lastError : input.lastError = none → row.bind (·.lastError) = row'.bind (·.lastError)

theorem getD_congr {α : Type} {x : Option α} {a b : α} (h : x = none → a = b) :
    x.getD a = x.getD b := by
  cases x with
  | none => exact h rfl
  | some x => rfl

theorem next_congr {input : CoreIndexerStateUpdate} {row row' : Option CoreIndexerState}
    (h : SameUngiven input row row') (now : String) : next input now row = next input now row' := by
  simp only [next,getD_congr h.stage,getD_congr h.syncTail,getD_congr h.processTail,
    getD_congr h.onlineTip,getD_congr h.lastError]

theorem sameUngiven_next (input : CoreIndexerStateUpdate) (now : String)
    (row : Option CoreIndexerState) : SameUngiven input row (some (next input now row)) := by
  constructor <;> intro h <;> simp [next,h]

section Runs
variable {ι : Type} [DecidableEq ι]

abbrev Upserts (ι : Type) : Type :=
  State ι (Option CoreIndexerState) (ReadWrite (Option CoreIndexerState) String)

/-- A call reads the row, or writes the row it has made of what it read. The event of a read
carries the time that the call notes. -/
def step (updates : ι → CoreIndexerStateUpdate) :
    Event ι String Empty → Upserts ι → Option (Upserts ι) :=
  stepUpdate upsertCoreIndexerState updates

def noCallsYet (row : Option CoreIndexerState) : Upserts ι := ⟨row,fun _ => .waiting⟩

/-- The row is that of the finished calls, each once, one after the other. -/
def SerialRow (updates : ι → CoreIndexerStateUpdate) (row : Option CoreIndexerState)
    (s : Upserts ι) : Prop :=
  Serial upsertCoreIndexerState updates row s

/-- No field that the call leaves out has changed since the call read the row. -/
def WritesOnUnchanged (updates : ι → CoreIndexerStateUpdate) (event : Event ι String Empty)
    (s : Upserts ι) : Prop :=
  ∀ i given, event = .call i given → ∀ snapshot noted, s.progress i = .read snapshot noted →
    SameUngiven (updates i) snapshot s.store

/-- A step that finishes a call leaves the fields alone that the call does not give. -/
def KeepsUngiven (updates : ι → CoreIndexerStateUpdate) (event : Event ι String Empty)
    (s t : Upserts ι) : Prop :=
  ∀ i given, event = .call i given → SameUngiven (updates i) s.store t.store

variable {updates : ι → CoreIndexerStateUpdate} {s t : Upserts ι}
  {events : List (Event ι String Empty)} {row : Option CoreIndexerState}

omit [DecidableEq ι] in
theorem WritesOnUnchanged.fresh {event : Event ι String Empty}
    (h : WritesOnUnchanged updates event s) :
    FreshWrite upsertCoreIndexerState updates event s := by
  intro i given hevent snapshot noted hread
  exact congrArg some (next_congr (h i given hevent snapshot noted hread) noted)

theorem sameUngiven_refl (input : CoreIndexerStateUpdate) (row : Option CoreIndexerState) :
    SameUngiven input row row :=
  ⟨fun _ => rfl,fun _ => rfl,fun _ => rfl,fun _ => rfl,fun _ => rfl⟩

theorem keepsUngiven_step {event : Event ι String Empty} (h : WritesOnUnchanged updates event s)
    (hstep : step updates event s = some t) : KeepsUngiven updates event s t := by
  rintro i given rfl
  obtain ⟨_,_,heq,⟨hp,rfl⟩ | ⟨snapshot,noted,hp,rfl⟩⟩ := stepUpdate_cases hstep
  · exact sameUngiven_refl _ _
  · cases heq
    rw [h.fresh i given rfl snapshot noted hp]
    exact sameUngiven_next (updates i) noted s.store

/-- Where no write meets a change, since its read, of a field that it leaves out, upserts take
effect one after the other, and none of them reverts what it does not give. -/
theorem upserts_serial
    (hunchanged : ∀ passed event ahead u, events = passed ++ event::ahead →
      Machine.run (step updates) passed (noCallsYet row) = some u →
      WritesOnUnchanged updates event u)
    (hrun : Machine.run (step updates) events (noCallsYet row) = some t) :
    SerialRow updates row t ∧
      ∀ passed event ahead u v, events = passed ++ event::ahead →
        Machine.run (step updates) passed (noCallsYet row) = some u →
        step updates event u = some v → KeepsUngiven updates event u v := by
  constructor
  · exact serial_of_fresh (fun _ => rfl)
      (fun passed event ahead u heq hu => (hunchanged passed event ahead u heq hu).fresh) hrun
  · intro passed event ahead u v heq hu hv
    exact keepsUngiven_step (hunchanged passed event ahead u heq hu) hv

end Runs

def leaderRow (processTail : Int) : CoreIndexerState :=
  ⟨.processBackfill,100,processTail,120,none,"t0"⟩

/-- `true` is the call of the new leader, `false` the error report of the former one. -/
def lateError : Bool → CoreIndexerStateUpdate
  | true => ⟨none,none,some 50,none,none⟩
  | false => setCoreIndexerError (some "node unreachable")

def interleaved : List (Event Bool String Empty) :=
  [.call false "t1",.call true "t2",.call true "t2",.call false "t1"]

def oneAfterTheOther : List (Event Bool String Empty) :=
  [.call true "t1",.call true "t1",.call false "t2",.call false "t2"]

theorem upserts_serial_leader_first :
    ∃ t, Machine.run (step lateError) oneAfterTheOther (noCallsYet (some (leaderRow 40))) = some t ∧
      SerialRow lateError (some (leaderRow 40)) t := by
  have hunchanged : Machine.Along (step lateError) (WritesOnUnchanged lateError) oneAfterTheOther
      (noCallsYet (some (leaderRow 40))) := by
    refine ⟨?_,fun t ht => ?_⟩
    · rintro i given ⟨⟩ snapshot noted ⟨⟩
    obtain rfl := Option.some.inj ht
    refine ⟨?_,fun t ht => ?_⟩
    · rintro i given ⟨⟩ snapshot noted ⟨⟩
      exact sameUngiven_refl _ _
    obtain rfl := Option.some.inj ht
    refine ⟨?_,fun t ht => ?_⟩
    · rintro i given ⟨⟩ snapshot noted ⟨⟩
    obtain rfl := Option.some.inj ht
    refine ⟨?_,fun _ _ => trivial⟩
    rintro i given ⟨⟩ snapshot noted ⟨⟩
    exact sameUngiven_refl _ _
  exact ⟨_,rfl,(upserts_serial hunchanged.split rfl).1⟩

/-- The late report puts the process tail of the new leader back. -/
theorem late_error_reverts_processTail :
    ∃ t, Machine.run (step lateError) interleaved (noCallsYet (some (leaderRow 40))) = some t ∧
      (∀ i, ∃ noted, t.progress i = .written noted) ∧
      t.store.map (·.processTail) = some 40 ∧ ¬SerialRow lateError (some (leaderRow 40)) t := by
  refine ⟨_,rfl,?_,rfl,?_⟩
  · intro i
    cases i <;> exact ⟨_,rfl⟩
  · rintro ⟨order,hnodup,hmem,hstore⟩
    have htail := congrArg (fun row => row.map (·.processTail)) hstore
    have hleader : true ∈ order := (hmem true).mpr ⟨_,rfl⟩
    have hformer : false ∈ order := (hmem false).mpr ⟨_,rfl⟩
    -- the two calls have two orders only, and both end with the tail of the leader
    rcases order with _ | ⟨a,_ | ⟨b,_ | ⟨c,rest⟩⟩⟩
    · cases hleader
    · cases a <;> simp at hleader hformer
    · cases a <;> cases b <;> first | exact absurd htail (by decide) | simp at hnodup
    · cases a <;> cases b <;> cases c <;> simp at hnodup

end OnlyDoge.StateRow
