import Mathlib.Data.List.Basic
import Mathlib.Order.Lattice
set_option autoImplicit false

/-! The prefixes of a list whose keys rise strictly. -/

namespace SortedPrefix

variable {α κ : Type} [LinearOrder κ] {key : α → κ} {xs ys : List α}

/-- With an element of `ys`, `xs` has every element of `ys` with a smaller key. -/
def DownwardIn (key : α → κ) (xs ys : List α) : Prop :=
  ∀ y ∈ ys, y ∈ xs → ∀ z ∈ ys, key z < key y → z ∈ xs

theorem prefix_of_downward (hxs : xs.Pairwise (key · < key ·))
    (hys : ys.Pairwise (key · < key ·)) (hmem : ∀ x ∈ xs, x ∈ ys)
    (hdown : DownwardIn key xs ys) : xs <+: ys := by
  induction xs generalizing ys with
  | nil => exact List.nil_prefix
  | cons x xs ih =>
    obtain ⟨hx,hxrest⟩ := List.pairwise_cons.mp hxs
    cases ys with
    | nil => exact absurd (hmem x List.mem_cons_self) List.not_mem_nil
    | cons y ys =>
      obtain ⟨hy,hyrest⟩ := List.pairwise_cons.mp hys
      -- a first element of `ys` that is not `x` would be below all of `xs`
      have hhead : x = y := by
        rcases List.mem_cons.mp (hmem x List.mem_cons_self) with heq | hlater
        · exact heq
        · have hlt : key y < key x := hy x hlater
          have hfirst : y ∈ x::xs := hdown x (List.mem_cons_of_mem y hlater) List.mem_cons_self y
            List.mem_cons_self hlt
          rcases List.mem_cons.mp hfirst with heq | hin
          · exact heq.symm
          · exact absurd (hx y hin) (not_lt.mpr hlt.le)
      subst hhead
      have htail : xs <+: ys := by
        apply ih hxrest hyrest
        · intro z hz
          rcases List.mem_cons.mp (hmem z (List.mem_cons_of_mem x hz)) with heq | hin
          · have hlt := hx z hz
            rw [heq] at hlt
            exact absurd hlt (lt_irrefl _)
          · exact hin
        · intro z hz hzin w hw hlt
          have hwin := hdown z (List.mem_cons_of_mem x hz) (List.mem_cons_of_mem x hzin) w
            (List.mem_cons_of_mem x hw) hlt
          rcases List.mem_cons.mp hwin with heq | hin
          · have hlt := hy w hw
            rw [heq] at hlt
            exact absurd hlt (lt_irrefl _)
          · exact hin
      exact List.prefix_cons_inj x |>.mpr htail

theorem downward_of_initial (hys : ys.Pairwise (key · < key ·)) (h : xs <+: ys) :
    DownwardIn key xs ys := by
  obtain ⟨rest,rfl⟩ := h
  obtain ⟨-,-,hcross⟩ := List.pairwise_append.mp hys
  intro y _ hy z hz hlt
  rcases List.mem_append.mp hz with hin | hrest
  · exact hin
  · exact absurd (hcross y hy z hrest) (not_lt.mpr hlt.le)

theorem prefix_iff (hys : ys.Pairwise (key · < key ·)) :
    xs <+: ys ↔
      xs.Pairwise (key · < key ·) ∧ (∀ x ∈ xs, x ∈ ys) ∧ DownwardIn key xs ys := by
  constructor
  · intro h
    exact ⟨hys.sublist h.sublist,fun x hx => h.subset hx,downward_of_initial hys h⟩
  · rintro ⟨hxs,hmem,hdown⟩
    exact prefix_of_downward hxs hys hmem hdown

end SortedPrefix
