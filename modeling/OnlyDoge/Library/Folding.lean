import Mathlib.Data.List.Basic
import Mathlib.Algebra.Ring.Int.Defs
import Mathlib.Algebra.Ring.Nat
set_option autoImplicit false

/-! Folds that may fail: what the steps collect beside a state that checks their keys. -/

namespace Folding
variable {α β κ σ ε : Type} {check : σ → κ → Except ε σ} {key : β → κ} {out : α → List β}

/-- Steps that check the keys of their outputs and append them fail as the checks do, and collect
all outputs where the checks pass. -/
theorem foldlM_collect {step : List β × σ → α → Except ε (List β × σ)} {es : List α}
    {acc : List β} {s : σ} (h : ∀ e ∈ es, ∀ acc s,
      step (acc,s) e = (((out e).map key).foldlM check s).map fun s' => (acc ++ out e,s')) :
    es.foldlM step (acc,s) =
      (((es.flatMap out).map key).foldlM check s).map fun s' => (acc ++ es.flatMap out,s') := by
  induction es generalizing acc s with
  | nil => simp [pure,Except.pure,Except.map]
  | cons e es ih =>
    rw [List.foldlM_cons,List.flatMap_cons,List.map_append,List.foldlM_append,
      h e List.mem_cons_self]
    cases hcheck : ((out e).map key).foldlM check s with
    | error x => rfl
    | ok s' =>
      have hrest := @ih (acc ++ out e) s' (fun e' he => h e' (List.mem_cons_of_mem _ he))
      rw [List.append_assoc] at hrest
      exact hrest

theorem map_eq_ok {x : Except ε α} {f : α → β} {b : β} :
    x.map f = .ok b ↔ ∃ a, x = .ok a ∧ b = f a := by
  cases x with
  | error e => simp [Except.map]
  | ok a => simp [Except.map,eq_comm]

theorem foldlM_ok_mem {step : σ → α → Except ε σ} {es : List α} {s r : σ}
    (h : es.foldlM step s = .ok r) : ∀ e ∈ es, ∃ s s', step s e = .ok s' := by
  induction es generalizing s with
  | nil => simp
  | cons e es ih =>
    rw [List.foldlM_cons] at h
    cases hstep : step s e with
    | error x =>
      rw [hstep] at h
      cases h
    | ok s' =>
      rw [hstep] at h
      rw [List.forall_mem_cons]
      exact ⟨⟨s,s',hstep⟩,ih h⟩

theorem foldlM_add {value : α → Except ε Int} {amount : β → Nat} {xs : List α} {ys : List β}
    (h : List.Forall₂ (fun x y => value x = .ok (amount y : Int)) xs ys) (start : Int) :
    xs.foldlM (fun total x => do return total + (← value x)) start =
      .ok (start + ((ys.map amount).sum : Nat)) := by
  induction h generalizing start with
  | nil => simp [pure,Except.pure]
  | @cons x y xs ys hvalue _ ih =>
    rw [List.foldlM_cons,hvalue]
    refine (ih (start + amount y)).trans ?_
    rw [List.map_cons,List.sum_cons,Int.natCast_add,Int.add_assoc]

theorem mapM_zipIdx {γ : Type} {f : α × Nat → Except ε β} {g : γ × Nat → β} {rel : α → γ → Prop}
    {xs : List α} {ys : List γ} (h : List.Forall₂ rel xs ys)
    (hstep : ∀ x, ∀ y ∈ ys, ∀ n, rel x y → f (x,n) = .ok (g (y,n))) (n : Nat) :
    (xs.zipIdx n).mapM f = .ok ((ys.zipIdx n).map g) := by
  induction h generalizing n with
  | nil => rfl
  | @cons x y xs ys hxy _ ih =>
    have hrest := ih (fun x y hy n => hstep x y (List.mem_cons_of_mem _ hy) n) (n + 1)
    rw [List.zipIdx_cons,List.mapM_cons,hstep x y List.mem_cons_self n hxy,hrest]
    rfl

end Folding
