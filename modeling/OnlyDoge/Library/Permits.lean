import Mathlib.Data.Set.Card
import Mathlib.Logic.Function.Basic
set_option autoImplicit false

/-! Calls that hold a permit of their key, and how many they are while the calls go on. -/

namespace Permits
variable {ι κ φ : Type} (holding : φ → Prop) (keyOf : ι → κ)

/-- The calls that hold a permit of `k`. -/
def holders (progress : ι → φ) (k : κ) : Set ι := { i | holding (progress i) ∧ keyOf i = k }

variable {holding keyOf} [DecidableEq ι] {progress : ι → φ} {i : ι} {p : φ} {k : κ}

theorem holders_update_of_ne (h : keyOf i ≠ k) :
    holders holding keyOf (Function.update progress i p) k = holders holding keyOf progress k := by
  ext j
  by_cases hj : j = i
  · subst hj
    simp [holders,h]
  · simp [holders,hj]

theorem holders_update_of_iff (h : holding p ↔ holding (progress i)) :
    holders holding keyOf (Function.update progress i p) k = holders holding keyOf progress k := by
  ext j
  by_cases hj : j = i
  · subst hj
    simp [holders,h]
  · simp [holders,hj]

theorem encard_holders_acquire {n : Nat} (hbefore : ¬holding (progress i)) (hafter : holding p)
    (hn : (holders holding keyOf progress (keyOf i)).encard = n) :
    (holders holding keyOf (Function.update progress i p) (keyOf i)).encard = (n + 1 : Nat) := by
  have hinsert : holders holding keyOf (Function.update progress i p) (keyOf i) =
      insert i (holders holding keyOf progress (keyOf i)) := by
    ext j
    by_cases hj : j = i
    · subst hj
      simp [holders,hafter]
    · simp [holders,hj]
  have hi : i ∉ holders holding keyOf progress (keyOf i) := by simp [holders,hbefore]
  rw [hinsert,Set.encard_insert_of_notMem hi,hn]
  rfl

theorem encard_holders_release {n : Nat} (hbefore : holding (progress i)) (hafter : ¬holding p)
    (hn : (holders holding keyOf progress (keyOf i)).encard = n) :
    0 < n ∧ (holders holding keyOf (Function.update progress i p) (keyOf i)).encard =
      (n - 1 : Nat) := by
  have hremove : holders holding keyOf (Function.update progress i p) (keyOf i) =
      holders holding keyOf progress (keyOf i) \ {i} := by
    ext j
    by_cases hj : j = i
    · subst hj
      simp [holders,hafter]
    · simp [holders,hj]
  have hi : i ∈ holders holding keyOf progress (keyOf i) := by simp [holders,hbefore]
  have hone := Set.encard_sdiff_singleton_add_one hi
  rw [hn] at hone
  rw [hremove]
  cases n with
  | zero => simp at hone
  | succ n =>
    refine ⟨by omega,?_⟩
    push_cast at hone
    exact ENat.add_left_injective_of_ne_top (by simp) hone

end Permits
