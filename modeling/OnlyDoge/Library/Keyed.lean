import Mathlib.Logic.Function.Basic
import Mathlib.Data.List.Basic
set_option autoImplicit false

/-! Calls answered one after the other, each of them from what is kept for its own key. -/

namespace Keyed
variable {κ α β σ : Type}

/-- A call for a key, with what it is given. -/
structure Call (κ α : Type) where
  key : κ
  given : α
  deriving DecidableEq,Repr

/-- The calls of one key by themselves. -/
def serveKey (respond : α → σ → β × σ) : List α → σ → List β × σ
  | [],s => ([],s)
  | a::as,s =>
    let (answer,next) := respond a s
    let (answers,last) := serveKey respond as next
    (answer::answers,last)

section Serve
variable [DecidableEq κ] (respond : α → σ → β × σ)

def serve : List (Call κ α) → (κ → σ) → List β × (κ → σ)
  | [],kept => ([],kept)
  | call::calls,kept =>
    let (answer,next) := respond call.given (kept call.key)
    let (answers,last) := serve calls (Function.update kept call.key next)
    (answer::answers,last)

/-- What the calls for `k` are given. -/
def givenTo (k : κ) (calls : List (Call κ α)) : List α :=
  (calls.filter fun call => call.key = k).map (·.given)

/-- The calls for `k` with their answers. -/
def exchanges (k : κ) (calls : List (Call κ α)) (answers : List β) : List (α × β) :=
  ((calls.zip answers).filter fun exchange => exchange.1.key = k).map
    fun exchange => (exchange.1.given,exchange.2)

variable {respond}

theorem serve_kept_of_forall_ne {k : κ} {calls : List (Call κ α)}
    (h : ∀ call ∈ calls, call.key ≠ k) (kept : κ → σ) :
    (serve respond calls kept).2 k = kept k := by
  induction calls generalizing kept with
  | nil => rfl
  | cons call calls ih =>
    rw [List.forall_mem_cons] at h
    simp [serve,ih h.2,Function.update_of_ne h.1.symm]

theorem exchanges_serve (k : κ) (calls : List (Call κ α)) (kept : κ → σ) :
    exchanges k calls (serve respond calls kept).1 =
      (givenTo k calls).zip (serveKey respond (givenTo k calls) (kept k)).1 := by
  induction calls generalizing kept with
  | nil => rfl
  | cons call calls ih =>
    by_cases hk : call.key = k
    · have hrest := ih (Function.update kept call.key (respond call.given (kept call.key)).2)
      subst hk
      simp only [Function.update_self] at hrest
      simpa [exchanges,serve,givenTo,serveKey] using hrest
    · have hrest := ih (Function.update kept call.key (respond call.given (kept call.key)).2)
      rw [Function.update_of_ne (Ne.symm hk)] at hrest
      simpa [exchanges,serve,givenTo,hk] using hrest

end Serve
end Keyed
