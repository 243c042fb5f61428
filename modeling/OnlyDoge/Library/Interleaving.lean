import OnlyDoge.Library.Machine
import Mathlib.Data.List.Basic
import Mathlib.Data.List.Nodup
import Mathlib.Logic.Function.Basic
set_option autoImplicit false

/-!
Calls that take their steps on one store in any order: how far each of them has come, and what
holds along all their interleavings.
-/

namespace Interleaving
variable {ι σ φ α ω : Type}

structure State (ι σ φ : Type) where
  store : σ
  progress : ι → φ

/-- A step of call `i`, with what it gets from outside the store, or a step of nobody's call. -/
inductive Event (ι α ω : Type) where
  | call (i : ι) (given : α)
  | outside (event : ω)

section Steps
variable [DecidableEq ι] {advance : ι → α → φ → σ → Option (φ × σ)} {outside : ω → σ → Option σ}
  {s t : State ι σ φ} {events : List (Event ι α ω)}

def step (advance : ι → α → φ → σ → Option (φ × σ)) (outside : ω → σ → Option σ) :
    Event ι α ω → State ι σ φ → Option (State ι σ φ)
  | .call i given,s => (advance i given (s.progress i) s.store).map fun (progress,store) =>
      ⟨store,Function.update s.progress i progress⟩
  | .outside event,s => (outside event s.store).map fun store => { s with store := store }

theorem step_call {i : ι} {given : α} : step advance outside (.call i given) s = some t ↔
    ∃ p st, advance i given (s.progress i) s.store = some (p,st) ∧
      t = ⟨st,Function.update s.progress i p⟩ := by
  simp [step,@eq_comm _ t]

theorem step_outside {event : ω} : step advance outside (.outside event) s = some t ↔
    ∃ st, outside event s.store = some st ∧ t = { s with store := st } := by
  simp [step,@eq_comm _ t]

variable {I : σ → Prop} {J : ι → φ → σ → Prop} {C : Event ι α ω → State ι σ φ → Prop}

/-- `I` holds of the store and `J i` of every call: a step keeps both for its own call, and does
not disturb the others. `C` is what the steps of the run may be required to meet. -/
structure Safe (advance : ι → α → φ → σ → Option (φ × σ)) (outside : ω → σ → Option σ)
    (I : σ → Prop) (J : ι → φ → σ → Prop) (C : Event ι α ω → State ι σ φ → Prop) : Prop where
  own : ∀ i given s p st, I s.store → (∀ j, J j (s.progress j) s.store) →
    C (.call i given) s → advance i given (s.progress i) s.store = some (p,st) → I st ∧ J i p st
  other : ∀ i given s p st, I s.store → (∀ j, J j (s.progress j) s.store) →
    C (.call i given) s → advance i given (s.progress i) s.store = some (p,st) →
    ∀ j, j ≠ i → J j (s.progress j) st
  outside : ∀ event s st, I s.store → (∀ j, J j (s.progress j) s.store) →
    C (.outside event) s → outside event s.store = some st → I st ∧ ∀ j, J j (s.progress j) st

theorem Safe.step (h : Safe advance outside I J C) {event : Event ι α ω}
    (hs : I s.store ∧ ∀ j, J j (s.progress j) s.store) (hC : C event s)
    (hstep : step advance outside event s = some t) :
    I t.store ∧ ∀ j, J j (t.progress j) t.store := by
  cases event with
  | call i given =>
    obtain ⟨p,st,hadvance,rfl⟩ := step_call.mp hstep
    obtain ⟨hI,hJ⟩ := h.own i given s p st hs.1 hs.2 hC hadvance
    refine ⟨hI,fun j => ?_⟩
    by_cases hj : j = i
    · subst hj
      simpa using hJ
    · simpa [hj] using h.other i given s p st hs.1 hs.2 hC hadvance j hj
  | outside event =>
    obtain ⟨st,houtside,rfl⟩ := step_outside.mp hstep
    exact h.outside event s st hs.1 hs.2 hC houtside

theorem Safe.run (h : Safe advance outside I J C)
    (hs : I s.store ∧ ∀ j, J j (s.progress j) s.store)
    (hC : ∀ passed event ahead u, events = passed ++ event::ahead →
      Machine.run (Interleaving.step advance outside) passed s = some u → C event u)
    (hrun : Machine.run (Interleaving.step advance outside) events s = some t) :
    I t.store ∧ ∀ j, J j (t.progress j) t.store :=
  @Machine.run_invariant_of _ _ (Interleaving.step advance outside) s t events
    (fun s => I s.store ∧ ∀ j, J j (s.progress j) s.store) C
    (fun _ _ _ hs hC hstep => h.step hs hC hstep) hs hC hrun

end Steps

inductive ReadWrite (σ τ : Type) where
  | waiting
  | read (snapshot : σ) (noted : τ)
  | written (noted : τ)

section ReadWrite
variable {τ υ : Type} [DecidableEq ι] (apply : υ → τ → σ → σ) (updates : ι → υ)

/-- A call reads the store and notes what it is given; then it writes what its update makes of
the store that it has read. -/
def advanceUpdate (i : ι) (given : τ) (progress : ReadWrite σ τ) (store : σ) :
    Option (ReadWrite σ τ × σ) :=
  match progress with
  | .waiting => some (.read store given,store)
  | .read snapshot noted => some (.written noted,apply (updates i) noted snapshot)
  | .written _ => none

def stepUpdate : Event ι τ Empty → State ι σ (ReadWrite σ τ) → Option (State ι σ (ReadWrite σ τ)) :=
  step (advanceUpdate apply updates) (fun event _ => nomatch event)

/-- What a finished call does to a store on its own. -/
def applied (progress : ι → ReadWrite σ τ) (store : σ) (i : ι) : σ :=
  match progress i with
  | .written noted => apply (updates i) noted store
  | _ => store

/-- The updates of the finished calls, each once and on the store that the one before left. -/
def Serial (store : σ) (t : State ι σ (ReadWrite σ τ)) : Prop :=
  ∃ order : List ι, order.Nodup ∧ (∀ i, i ∈ order ↔ ∃ noted, t.progress i = .written noted) ∧
    t.store = order.foldl (applied apply updates t.progress) store

/-- A call that is about to write has read a store of which its update makes the same. -/
def FreshWrite (event : Event ι τ Empty) (s : State ι σ (ReadWrite σ τ)) : Prop :=
  ∀ i given, event = .call i given → ∀ snapshot noted, s.progress i = .read snapshot noted →
    apply (updates i) noted snapshot = apply (updates i) noted s.store

variable {apply updates} {s t : State ι σ (ReadWrite σ τ)} {events : List (Event ι τ Empty)}

theorem applied_update {progress : ι → ReadWrite σ τ} {order : List ι} {i : ι}
    {p : ReadWrite σ τ} {store : σ} (h : i ∉ order) :
    order.foldl (applied apply updates (Function.update progress i p)) store =
      order.foldl (applied apply updates progress) store := by
  refine List.foldl_ext _ _ _ fun st j hj => ?_
  have hne : j ≠ i := by
    rintro rfl
    exact h hj
  simp only [applied,Function.update_of_ne hne]

/-- A call reads and nothing else, or it writes what it has made of the store it read. -/
theorem stepUpdate_cases {event : Event ι τ Empty} (h : stepUpdate apply updates event s = some t) :
    ∃ i given, event = .call i given ∧ ((s.progress i = .waiting ∧
        t = ⟨s.store,Function.update s.progress i (.read s.store given)⟩) ∨
      ∃ snapshot noted, s.progress i = .read snapshot noted ∧
        t = ⟨apply (updates i) noted snapshot,Function.update s.progress i (.written noted)⟩) := by
  cases event with
  | outside event => exact nomatch event
  | call i given =>
    refine ⟨i,given,rfl,?_⟩
    obtain ⟨p,st,hadvance,rfl⟩ := step_call.mp h
    cases hp : s.progress i with
    | written noted => simp [advanceUpdate,hp] at hadvance
    | waiting =>
      simp only [advanceUpdate,hp,Option.some.injEq,Prod.mk.injEq] at hadvance
      obtain ⟨rfl,rfl⟩ := hadvance
      exact Or.inl ⟨rfl,rfl⟩
    | read snapshot noted =>
      simp only [advanceUpdate,hp,Option.some.injEq,Prod.mk.injEq] at hadvance
      obtain ⟨rfl,rfl⟩ := hadvance
      exact Or.inr ⟨snapshot,noted,rfl,rfl⟩

theorem Serial.step {store : σ} {event : Event ι τ Empty} (hs : Serial apply updates store s)
    (hfresh : FreshWrite apply updates event s)
    (hstep : stepUpdate apply updates event s = some t) : Serial apply updates store t := by
  obtain ⟨order,hnodup,hmem,hstore⟩ := hs
  obtain ⟨i,given,rfl,⟨hp,rfl⟩ | ⟨snapshot,noted,hp,rfl⟩⟩ := stepUpdate_cases hstep
  · have hi : i ∉ order := by simp [hmem,hp]
    refine ⟨order,hnodup,fun j => ?_,by rw [applied_update hi]; exact hstore⟩
    by_cases hj : j = i
    · subst hj
      simpa using hi
    · simpa [hj] using hmem j
  · have hi : i ∉ order := by simp [hmem,hp]
    have hne : ∀ j ∈ order, j ≠ i := by
      rintro j hj rfl
      exact hi hj
    refine ⟨order ++ [i],by simpa [List.nodup_append,hnodup] using hne,fun j => ?_,?_⟩
    · by_cases hj : j = i
      · subst hj
        simp
      · simpa [hj] using hmem j
    · rw [List.foldl_append,applied_update hi,← hstore]
      simp only [List.foldl_cons,List.foldl_nil,applied,Function.update_self]
      exact hfresh i given rfl snapshot noted hp

/-- Where every write is fresh the store is that of the finished calls one after the other. -/
theorem serial_of_fresh (hwaiting : ∀ i, s.progress i = .waiting)
    (hfresh : ∀ passed event ahead u, events = passed ++ event::ahead →
      Machine.run (stepUpdate apply updates) passed s = some u →
      FreshWrite apply updates event u)
    (hrun : Machine.run (stepUpdate apply updates) events s = some t) :
    Serial apply updates s.store t := by
  have hstart : Serial apply updates s.store s := ⟨[],List.nodup_nil,by simp [hwaiting],rfl⟩
  exact @Machine.run_invariant_of _ _ (stepUpdate apply updates) s t events
    (Serial apply updates s.store) (FreshWrite apply updates)
    (fun _ _ _ hs hC hstep => hs.step hC hstep) hstart hfresh hrun

end ReadWrite

end Interleaving
