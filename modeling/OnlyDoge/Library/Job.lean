import Mathlib.Logic.Basic
import Mathlib.Tactic.Basic
set_option autoImplicit false

/-- What happens to one awaited call: it is carried out and answered, carried out although
the caller sees an error, refused without effect, or the process dies before it. -/
inductive Fate where
  | done
  | lost
  | refused
  | killed
  deriving DecidableEq,Repr

/-- A failed call, or an error the program itself threw. -/
inductive Failure (ε : Type) where
  | fault
  | thrown (e : ε)
  deriving DecidableEq,Repr

inductive Outcome (ε α : Type) where
  | value (a : α)
  | failed (e : Failure ε)
  | halted
  deriving DecidableEq,Repr

namespace Outcome

def Clean {ε α : Type} : Outcome ε α → Prop
  | .value _ => True
  | .failed .fault => False
  | .failed (.thrown _) => True
  | .halted => False

end Outcome

/-- A sequential program over a stored state. Each awaited call takes the next fate; when
none is left every call is done, so that the program then fails only by throwing. -/
structure Job (σ ε α : Type) where
  run : σ → List Fate → Outcome ε α × σ × List Fate
  clean : ∀ s : σ, (run s []).1.Clean ∧ (run s []).2.2 = []

/-- A part of a state that can be read and replaced on its own. -/
structure StatePart (σ τ : Type) where
  get : σ → τ
  put : τ → σ → σ
  get_put : ∀ t s, get (put t s) = t
  put_get : ∀ s, put (get s) s = s
  put_put : ∀ t t' s, put t (put t' s) = put t s

def StatePart.whole (σ : Type) : StatePart σ σ :=
  ⟨id,fun t _ => t,fun _ _ => rfl,fun _ => rfl,fun _ _ _ => rfl⟩

namespace Job
variable {σ τ ε α β : Type}

def pure (a : α) : Job σ ε α where
  run s fates := (.value a,s,fates)
  clean _ := ⟨trivial,rfl⟩

def throw (e : ε) : Job σ ε α where
  run s fates := (.failed (.thrown e),s,fates)
  clean _ := ⟨trivial,rfl⟩

def runBind (m : Job σ ε α) (f : α → Job σ ε β) (s : σ) (fates : List Fate) :
    Outcome ε β × σ × List Fate :=
  match m.run s fates with
  | (.value a,s',rest) => (f a).run s' rest
  | (.failed e,s',rest) => (.failed e,s',rest)
  | (.halted,s',rest) => (.halted,s',rest)

theorem runBind_clean (m : Job σ ε α) (f : α → Job σ ε β) (s : σ) :
    (runBind m f s []).1.Clean ∧ (runBind m f s []).2.2 = [] := by
  obtain ⟨ho,hr⟩ := m.clean s
  unfold runBind
  rcases h : m.run s [] with ⟨o,s',rest⟩
  rw [h] at ho hr
  cases o with
  | value a =>
    simp only at hr ⊢
    subst hr
    exact (f a).clean s'
  | failed e =>
    cases e with
    | fault => exact absurd ho id
    | thrown e => exact ⟨trivial,hr⟩
  | halted => exact absurd ho id

def bind (m : Job σ ε α) (f : α → Job σ ε β) : Job σ ε β where
  run := runBind m f
  clean := runBind_clean m f

instance : Monad (Job σ ε) where
  pure := Job.pure
  bind := Job.bind

/-- One awaited call: `f` answers and changes the stored state in one piece. -/
def call (f : σ → α × σ) : Job σ ε α where
  run s fates :=
    match fates with
    | [] => (.value (f s).1,(f s).2,[])
    | .done :: rest => (.value (f s).1,(f s).2,rest)
    | .lost :: rest => (.failed .fault,(f s).2,rest)
    | .refused :: rest => (.failed .fault,s,rest)
    | .killed :: rest => (.halted,s,rest)
  clean _ := ⟨trivial,rfl⟩

def read (f : σ → α) : Job σ ε α :=
  call (fun s => (f s,s))

def write (f : σ → σ) : Job σ ε Unit :=
  call (fun s => ((),f s))

/-- A step inside the process: no call is awaited, so nothing can fail. -/
def assign (f : σ → σ) : Job σ ε Unit where
  run s fates := (.value (),f s,fates)
  clean _ := ⟨trivial,rfl⟩

def look (f : σ → α) : Job σ ε α where
  run s fates := (.value (f s),s,fates)
  clean _ := ⟨trivial,rfl⟩

def ofExcept : Except ε α → Job σ ε α
  | .ok a => pure a
  | .error e => throw e

def runAttempt (m : Job σ ε α) (s : σ) (fates : List Fate) :
    Outcome ε (Except (Failure ε) α) × σ × List Fate :=
  match m.run s fates with
  | (.value a,s',rest) => (.value (.ok a),s',rest)
  | (.failed e,s',rest) => (.value (.error e),s',rest)
  | (.halted,s',rest) => (.halted,s',rest)

theorem runAttempt_clean (m : Job σ ε α) (s : σ) :
    (runAttempt m s []).1.Clean ∧ (runAttempt m s []).2.2 = [] := by
  obtain ⟨ho,hr⟩ := m.clean s
  unfold runAttempt
  rcases h : m.run s [] with ⟨o,s',rest⟩
  rw [h] at ho hr
  cases o with
  | value a => exact ⟨trivial,hr⟩
  | failed e => exact ⟨trivial,hr⟩
  | halted => exact absurd ho id

/-- `try .. catch` that hands the failure on as a value. -/
def attempt (m : Job σ ε α) : Job σ ε (Except (Failure ε) α) where
  run := runAttempt m
  clean := runAttempt_clean m

def runCatchThrown (m : Job σ ε α) (handler : ε → Job σ ε α) (s : σ) (fates : List Fate) :
    Outcome ε α × σ × List Fate :=
  match m.run s fates with
  | (.value a,s',rest) => (.value a,s',rest)
  | (.failed .fault,s',rest) => (.failed .fault,s',rest)
  | (.failed (.thrown e),s',rest) => (handler e).run s' rest
  | (.halted,s',rest) => (.halted,s',rest)

theorem runCatchThrown_clean (m : Job σ ε α) (handler : ε → Job σ ε α) (s : σ) :
    (runCatchThrown m handler s []).1.Clean ∧ (runCatchThrown m handler s []).2.2 = [] := by
  obtain ⟨ho,hr⟩ := m.clean s
  unfold runCatchThrown
  rcases h : m.run s [] with ⟨o,s',rest⟩
  rw [h] at ho hr
  cases o with
  | value a => exact ⟨trivial,hr⟩
  | halted => exact absurd ho id
  | failed e =>
    cases e with
    | fault => exact absurd ho id
    | thrown e =>
      simp only at hr ⊢
      subst hr
      exact (handler e).clean s'

/-- `try .. catch` whose handler takes the program's own errors and lets faults pass. -/
def catchThrown (m : Job σ ε α) (handler : ε → Job σ ε α) : Job σ ε α where
  run := runCatchThrown m handler
  clean := runCatchThrown_clean m handler

def runOnFailure (m : Job σ ε α) (cleanup : Job σ ε Unit) (s : σ) (fates : List Fate) :
    Outcome ε α × σ × List Fate :=
  match m.run s fates with
  | (.value a,s',rest) => (.value a,s',rest)
  | (.failed e,s',rest) =>
    match cleanup.run s' rest with
    | (.value _,s'',rest') => (.failed e,s'',rest')
    | (.failed e',s'',rest') => (.failed e',s'',rest')
    | (.halted,s'',rest') => (.halted,s'',rest')
  | (.halted,s',rest) => (.halted,s',rest)

theorem runOnFailure_clean (m : Job σ ε α) (cleanup : Job σ ε Unit) (s : σ) :
    (runOnFailure m cleanup s []).1.Clean ∧ (runOnFailure m cleanup s []).2.2 = [] := by
  obtain ⟨ho,hr⟩ := m.clean s
  unfold runOnFailure
  rcases h : m.run s [] with ⟨o,s',rest⟩
  rw [h] at ho hr
  cases o with
  | value a => exact ⟨trivial,hr⟩
  | halted => exact absurd ho id
  | failed e =>
    cases e with
    | fault => exact absurd ho id
    | thrown e =>
      simp only at hr ⊢
      subst hr
      obtain ⟨ho',hr'⟩ := cleanup.clean s'
      rcases h' : cleanup.run s' [] with ⟨o',s'',rest'⟩
      rw [h'] at ho' hr'
      cases o' with
      | value u => exact ⟨trivial,hr'⟩
      | halted => exact absurd ho' id
      | failed e' =>
        cases e' with
        | fault => exact absurd ho' id
        | thrown e' => exact ⟨trivial,hr'⟩

/-- Run `cleanup` after a failure and pass the failure on, as `catch (e) { ..; throw e }`. -/
def onFailure (m : Job σ ε α) (cleanup : Job σ ε Unit) : Job σ ε α where
  run := runOnFailure m cleanup
  clean := runOnFailure_clean m cleanup

def runZoom (part : StatePart σ τ) (m : Job τ ε α) (s : σ) (fates : List Fate) :
    Outcome ε α × σ × List Fate :=
  match m.run (part.get s) fates with
  | (o,t,rest) => (o,part.put t s,rest)

/-- Run a program on one part of a larger state. -/
def zoom (part : StatePart σ τ) (m : Job τ ε α) : Job σ ε α where
  run := runZoom part m
  clean s := m.clean (part.get s)

def when (p : Prop) [Decidable p] (m : Job σ ε Unit) : Job σ ε Unit :=
  if p then m else pure ()

def forEach (xs : List β) (f : β → Job σ ε Unit) : Job σ ε Unit :=
  match xs with
  | [] => pure ()
  | x :: rest => bind (f x) (fun _ => forEach rest f)

/-- Start every program although an earlier one failed, and fail with the first failure once
all have ended, as `Promise.allSettled` followed by a rethrow. -/
def settleAll : List (Job σ ε Unit) → Job σ ε Unit
  | [] => pure ()
  | m :: rest =>
    bind (onFailure m (bind (attempt (settleAll rest)) (fun _ => pure ()))) fun _ =>
      settleAll rest

end Job
