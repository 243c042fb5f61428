import OnlyDoge.Library.Machine
import Mathlib.Algebra.Ring.Int.Defs
import Mathlib.Algebra.Ring.Nat
set_option autoImplicit false

/-!
Bounded parallel calls (`concurrency.ts`): the workers of one `mapWithConcurrency` share the queue
and the results, and their calls complete in any order.
-/

namespace OnlyDoge.Concurrency

/-- `undefined` is `none`. -/
structure WorkItem (τ : Type) where
  index : Nat
  value : Option τ
  deriving DecidableEq,Repr

/-- One `runConcurrentWorker`: it waits for a call, has returned or thrown, or `Promise.all` has
heard of it. -/
inductive WorkerProgress (τ ε : Type) where
  | running (index : Nat) (value : τ)
  | ended (failure : Option ε)
  | settled (failure : Option ε)
  deriving DecidableEq,Repr

/-- `calls` are the calls of `worker` in the order in which they were made. -/
structure MapRun (τ ρ ε : Type) where
  workItems : List (WorkItem τ)
  results : List (Option ρ)
  workers : List (WorkerProgress τ ε)
  calls : List (Nat × τ)
  outcome : Option (Except ε (List (Option ρ)))

inductive MapEvent where
  | complete (w : Nat)
  | settle (w : Nat)
  deriving DecidableEq,Repr

section Run
variable {τ ρ ε : Type}

/-- `workItems.shift()` up to the call of the worker. -/
def takeItem (s : MapRun τ ρ ε) : WorkerProgress τ ε × MapRun τ ρ ε :=
  match s.workItems with
  | [] => (.ended none,s)
  | item::rest =>
    match item.value with
    | none => (.ended none,{ s with workItems := rest })
    | some value =>
      (.running item.index value,
        { s with workItems := rest, calls := s.calls ++ [(item.index,value)] })

def startWorker (s : MapRun τ ρ ε) : MapRun τ ρ ε :=
  let (progress,s') := takeItem s
  { s' with workers := s'.workers ++ [progress] }

/-- `Math.max(1, Math.min(concurrency, values.length || 1))` -/
def workerCount (concurrency : Int) (length : Nat) : Nat :=
  (max 1 (min concurrency (if length = 0 then 1 else length))).toNat

def startWorkers : Nat → MapRun τ ρ ε → MapRun τ ρ ε
  | 0,s => s
  | n + 1,s => startWorkers n (startWorker s)

/-- Before the first worker starts. -/
def queued (values : List (Option τ)) : MapRun τ ρ ε where
  workItems := values.zipIdx.map fun (value,index) => ⟨index,value⟩
  results := List.replicate values.length none
  workers := []
  calls := []
  outcome := none

def mapWithConcurrency (values : List (Option τ)) (concurrency : Int) : MapRun τ ρ ε :=
  startWorkers (workerCount concurrency values.length) (queued values)

variable (worker : τ → Nat → Except ε ρ)

/-- The call that worker `w` waits for completes, and the worker goes on to its next call. -/
def complete (w : Nat) (s : MapRun τ ρ ε) : Option (MapRun τ ρ ε) :=
  match s.workers[w]? with
  | some (.running index value) =>
    match worker value index with
    | .ok result =>
      let (progress,s') := takeItem { s with results := s.results.set index (some result) }
      some { s' with workers := s'.workers.set w progress }
    | .error e => some { s with workers := s.workers.set w (.ended (some e)) }
  | _ => none

def isFulfilled : WorkerProgress τ ε → Bool
  | .settled none => true
  | _ => false

/-- What `Promise.all` comes to when it hears of a worker's end. -/
def allOutcome (failure : Option ε) (workers : List (WorkerProgress τ ε))
    (results : List (Option ρ)) : Option (Except ε (List (Option ρ))) :=
  match failure with
  | some e => some (.error e)
  | none => if workers.all isFulfilled then some (.ok results) else none

def settle (w : Nat) (s : MapRun τ ρ ε) : Option (MapRun τ ρ ε) :=
  match s.workers[w]? with
  | some (.ended failure) =>
    let workers := s.workers.set w (.settled failure)
    some { s with
      workers := workers
      outcome := s.outcome.or (allOutcome failure workers s.results) }
  | _ => none

def step : MapEvent → MapRun τ ρ ε → Option (MapRun τ ρ ε)
  | .complete w,s => complete worker w s
  | .settle w,s => settle w s

/-- A worker goes on: it takes the next call from the queue, or there is none. -/
inductive TakesItem (s : MapRun τ ρ ε) : WorkerProgress τ ε → MapRun τ ρ ε → Prop where
  | empty (h : s.workItems = []) : TakesItem s (.ended none) s
  | call (index : Nat) (value : τ) (rest : List (WorkItem τ))
      (h : s.workItems = ⟨index,some value⟩::rest) :
      TakesItem s (.running index value)
        { s with workItems := rest, calls := s.calls ++ [(index,value)] }

theorem takeItem_cases {s : MapRun τ ρ ε} (h : ∀ item ∈ s.workItems, item.value.isSome) :
    TakesItem s (takeItem s).1 (takeItem s).2 := by
  unfold takeItem
  cases hitems : s.workItems with
  | nil => exact .empty hitems
  | cons item rest =>
    have hsome := h item (by rw [hitems]; exact List.mem_cons_self)
    obtain ⟨value,hvalue⟩ := Option.isSome_iff_exists.mp hsome
    simp only [hvalue]
    refine .call item.index value rest ?_
    rw [hitems,← hvalue]

variable {worker}

theorem complete_cases {w : Nat} {s t : MapRun τ ρ ε} (h : complete worker w s = some t) :
    ∃ index value, s.workers[w]? = some (.running index value) ∧
      ((∃ result, worker value index = .ok result ∧
          t = { (takeItem { s with results := s.results.set index (some result) }).2 with
            workers := (takeItem { s with
              results := s.results.set index (some result) }).2.workers.set w
                (takeItem { s with results := s.results.set index (some result) }).1 }) ∨
        ∃ e, worker value index = .error e ∧
          t = { s with workers := s.workers.set w (.ended (some e)) }) := by
  unfold complete at h
  split at h
  · rename_i index value hrunning
    refine ⟨index,value,hrunning,?_⟩
    cases hcall : worker value index with
    | ok result =>
      simp only [hcall] at h
      exact .inl ⟨result,rfl,(Option.some.inj h).symm⟩
    | error e =>
      simp only [hcall] at h
      exact .inr ⟨e,rfl,(Option.some.inj h).symm⟩
  · cases h

theorem settle_cases {w : Nat} {s t : MapRun τ ρ ε} (h : settle w s = some t) :
    ∃ failure, s.workers[w]? = some (.ended failure) ∧
      t = { s with
        workers := s.workers.set w (.settled failure)
        outcome := s.outcome.or
          (allOutcome failure (s.workers.set w (.settled failure)) s.results) } := by
  unfold settle at h
  split at h
  · rename_i failure hended
    exact ⟨failure,hended,(Option.some.inj h).symm⟩
  · cases h

end Run

end OnlyDoge.Concurrency
