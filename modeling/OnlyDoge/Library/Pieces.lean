import Mathlib.Data.List.Basic
import Mathlib.Order.Lattice
set_option autoImplicit false

/-!
The half-open pieces between consecutive cuts of a linear order. An element lies in one piece
more than there are consecutive cuts that descend across it, so the pieces are a partition
exactly when the cuts ascend.
-/

namespace Pieces

variable {α : Type*} [LinearOrder α]

/-- A missing bound is no condition. -/
def Inside (x : α) (piece : Option α × Option α) : Prop :=
  (∀ start ∈ piece.1, start ≤ x) ∧ (∀ stop ∈ piece.2, x < stop)

instance (x : α) : DecidablePred (Inside x) := fun piece => by
  unfold Inside
  infer_instance

omit [LinearOrder α] in
def pieces : Option α → List α → List (Option α × Option α)
  | start,[] => [(start,none)]
  | start,cut::cuts => (start,some cut)::pieces (some cut) cuts

def Above (x : α) (start : Option α) : Prop := ∃ s ∈ start, x < s

instance (x : α) (start : Option α) : Decidable (Above x start) := by
  unfold Above
  infer_instance

/-- The consecutive cuts that descend from above `x` to `x` or below. -/
def descents (x : α) : Option α → List α → Nat
  | _,[] => 0
  | start,cut::cuts => (if cut ≤ x ∧ Above x start then 1 else 0) + descents x (some cut) cuts

theorem inside_iff {x : α} {start stop : Option α} :
    Inside x (start,stop) ↔ ¬Above x start ∧ ∀ s ∈ stop, x < s := by
  simp [Inside,Above]

theorem countP_pieces (x : α) (start : Option α) (cuts : List α) :
    (pieces start cuts).countP (fun piece => Inside x piece) + (if Above x start then 1 else 0) =
      1 + descents x start cuts := by
  induction cuts generalizing start with
  | nil =>
    by_cases h : Above x start
    · simp [pieces,descents,inside_iff,h]
    · simp [pieces,descents,inside_iff,h]
  | cons cut cuts ih =>
    have hrest := ih (some cut)
    have hcut : Above x (some cut) ↔ ¬cut ≤ x := by simp [Above]
    have hinside : Inside x (start,some cut) ↔ ¬Above x start ∧ ¬cut ≤ x := by
      simp [inside_iff]
    simp only [pieces,descents,List.countP_cons,decide_eq_true_eq,hinside]
    simp only [hcut] at hrest
    by_cases h : Above x start
    · by_cases hc : cut ≤ x
      · simp [h,hc] at hrest ⊢
        omega
      · simp [h,hc] at hrest ⊢
        omega
    · by_cases hc : cut ≤ x
      · simp [h,hc] at hrest ⊢
        omega
      · simp [h,hc] at hrest ⊢
        omega

theorem exists_inside (cuts : List α) (x : α) : ∃ piece ∈ pieces none cuts, Inside x piece := by
  have hcount := countP_pieces x none cuts
  have hnone : ¬Above x none := by simp [Above]
  rw [if_neg hnone] at hcount
  have hpos : 0 < (pieces none cuts).countP (fun piece => Inside x piece) := by omega
  obtain ⟨piece,hmem,hin⟩ := List.countP_pos_iff.mp hpos
  exact ⟨piece,hmem,of_decide_eq_true hin⟩

theorem descents_eq_zero {x : α} {start : Option α} {cuts : List α}
    (hstart : ∀ s ∈ start, ∀ cut ∈ cuts, s ≤ cut) (h : cuts.Pairwise (· ≤ ·)) :
    descents x start cuts = 0 := by
  induction cuts generalizing start with
  | nil => rfl
  | cons cut cuts ih =>
    obtain ⟨hcut,hrest⟩ := List.pairwise_cons.mp h
    have hnot : ¬(cut ≤ x ∧ Above x start) := by
      rintro ⟨hle,s,hs,hlt⟩
      have := hstart s hs cut List.mem_cons_self
      exact absurd hlt (not_lt.mpr (this.trans hle))
    rw [descents,if_neg hnot,ih]
    · rintro s hs
      cases hs
      exact hcut
    · exact hrest

theorem ascending_of_descents {start : Option α} {cuts : List α}
    (h : ∀ x, descents x start cuts = 0) :
    (start.toList ++ cuts).IsChain (· ≤ ·) := by
  induction cuts generalizing start with
  | nil => cases start <;> simp
  | cons cut cuts ih =>
    have hrest : (cut::cuts).IsChain (· ≤ ·) := by
      refine @ih (some cut) (fun x => ?_)
      have := h x
      rw [descents] at this
      omega
    cases start with
    | none => exact hrest
    | some s =>
      have hle : s ≤ cut := by
        by_contra hlt
        have := h cut
        rw [descents,if_pos ⟨le_refl cut,s,rfl,not_le.mp hlt⟩] at this
        omega
      exact List.isChain_cons_cons.mpr ⟨hle,hrest⟩

theorem countP_eq_one_iff (cuts : List α) :
    (∀ x, (pieces none cuts).countP (fun piece => Inside x piece) = 1) ↔ cuts.Pairwise (· ≤ ·) := by
  have hnone (x : α) : ¬Above x none := by simp [Above]
  constructor
  · intro h
    have hchain := @ascending_of_descents α _ none cuts (fun x => by
      have hcount := countP_pieces x none cuts
      rw [if_neg (hnone x),h x] at hcount
      omega)
    exact List.isChain_iff_pairwise.mp hchain
  · intro h x
    have hcount := countP_pieces x none cuts
    rw [if_neg (hnone x),descents_eq_zero (by simp) h] at hcount
    omega

end Pieces
