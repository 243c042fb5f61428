import Mathlib.Logic.Basic
import Mathlib.Data.List.Induction
set_option autoImplicit false

/-! Runs of a machine whose steps may be disabled, and what holds along them. -/

namespace Machine
variable {σ α : Type}

/-- The state after a list of steps, when each of them was enabled. -/
def run (step : α → σ → Option σ) : List α → σ → Option σ
  | [],s => some s
  | a::as,s => (step a s).bind (run step as)

variable {step : α → σ → Option σ} {s t : σ} {as bs : List α}

theorem run_append : run step (as ++ bs) s = (run step as s).bind (run step bs) := by
  induction as generalizing s with
  | nil => rfl
  | cons a as ih =>
    cases h : step a s with
    | none => simp [run,h]
    | some u => simp [run,h,ih]

theorem run_snoc {a : α} : run step (as ++ [a]) s = (run step as s).bind (step a) := by
  rw [run_append]
  cases run step as s with
  | none => rfl
  | some u => simp [run]

/-- A step of a run that ends with `a` is `a`, or a step of the run before. -/
theorem snoc_eq_append_cons {passed ahead : List α} {a b : α} (h : as ++ [a] = passed ++ b::ahead) :
    (as = passed ∧ a = b ∧ ahead = []) ∨ ∃ rest, as = passed ++ b::rest ∧ ahead = rest ++ [a] := by
  rcases List.eq_nil_or_concat ahead with rfl | ⟨rest,c,rfl⟩
  · obtain ⟨rfl,hlast⟩ := List.append_inj' h rfl
    cases hlast
    exact Or.inl ⟨rfl,rfl,rfl⟩
  · have h' : as ++ [a] = (passed ++ b::rest) ++ [c] := by simpa using h
    obtain ⟨rfl,hlast⟩ := List.append_inj' h' rfl
    cases hlast
    exact Or.inr ⟨rest,rfl,List.concat_eq_append⟩

theorem run_invariant {I : σ → Prop} (hstep : ∀ a s t, I s → step a s = some t → I t) (hs : I s)
    (h : run step as s = some t) : I t := by
  induction as generalizing s with
  | nil =>
    cases h
    exact hs
  | cons a as ih =>
    obtain ⟨u,hu,h⟩ := Option.bind_eq_some_iff.mp h
    exact ih (hstep a s u hs hu) h

theorem run_invariant_of {I : σ → Prop} {C : α → σ → Prop}
    (hstep : ∀ a s t, I s → C a s → step a s = some t → I t) (hs : I s)
    (hC : ∀ passed a ahead u, as = passed ++ a::ahead → run step passed s = some u → C a u)
    (h : run step as s = some t) : I t := by
  induction as using List.reverseRecOn generalizing t with
  | nil =>
    cases h
    exact hs
  | append_singleton as a ih =>
    rw [run_snoc] at h
    obtain ⟨u,hu,h⟩ := Option.bind_eq_some_iff.mp h
    have hbefore := ih (fun passed b ahead v heq hv => hC passed b (ahead ++ [a]) v
      (by rw [heq]; simp) hv) hu
    exact hstep a u t hbefore (hC as a [] u rfl hu) h

/-- Every step of a list meets a condition in the state that it is taken in. -/
def Along (step : α → σ → Option σ) (C : α → σ → Prop) : List α → σ → Prop
  | [],_ => True
  | a::as,s => C a s ∧ ∀ t, step a s = some t → Along step C as t

theorem Along.cons {C : α → σ → Prop} {a : α} (h : step a s = some t) (hC : C a s)
    (hrest : Along step C as t) : Along step C (a::as) s := by
  refine ⟨hC,fun u hu => ?_⟩
  rw [h] at hu
  cases hu
  exact hrest

theorem Along.split {C : α → σ → Prop} (h : Along step C as s) :
    ∀ passed a ahead u, as = passed ++ a::ahead → run step passed s = some u → C a u := by
  intro passed
  induction passed generalizing as s with
  | nil =>
    rintro a ahead u rfl hu
    cases hu
    exact h.1
  | cons b passed ih =>
    rintro a ahead u rfl hu
    obtain ⟨v,hv,hu⟩ := Option.bind_eq_some_iff.mp hu
    exact ih (h.2 v hv) a ahead u rfl hu

theorem run_history {I : List α → σ → Prop} (hs : I [] s)
    (hstep : ∀ passed a t u, run step passed s = some t → I passed t → step a t = some u →
      I (passed ++ [a]) u) (h : run step as s = some t) : I as t := by
  induction as using List.reverseRecOn generalizing t with
  | nil =>
    cases h
    exact hs
  | append_singleton as a ih =>
    rw [run_snoc] at h
    obtain ⟨u,hu,h⟩ := Option.bind_eq_some_iff.mp h
    exact hstep as a u t hu (ih hu) h

/-- Somewhere in the run a step of the kind `C` is taken. -/
def Occurs (step : α → σ → Option σ) (C : α → σ → σ → Prop) (s : σ) (as : List α) : Prop :=
  ∃ passed a ahead u v, as = passed ++ a::ahead ∧ run step passed s = some u ∧
    step a u = some v ∧ C a u v

theorem Occurs.snoc {C : α → σ → σ → Prop} (h : Occurs step C s as) (b : α) :
    Occurs step C s (as ++ [b]) := by
  obtain ⟨passed,a,ahead,u,v,rfl,hu,hv,hC⟩ := h
  exact ⟨passed,a,ahead ++ [b],u,v,by simp,hu,hv,hC⟩

theorem Occurs.last {C : α → σ → σ → Prop} {a : α} {u : σ} (ht : run step as s = some t)
    (hu : step a t = some u) (hC : C a t u) : Occurs step C s (as ++ [a]) :=
  ⟨as,a,[],t,u,rfl,ht,hu,hC⟩

end Machine
