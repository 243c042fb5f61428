import Mathlib.Data.List.Basic
import Mathlib.Algebra.Ring.Int.Defs
set_option autoImplicit false

/-! Spans of whole numbers that follow each other without a gap. -/

namespace Spans

/-- The spans go from `first` up to the height before `next`. -/
def Chain : Int → List (Int × Int) → Int → Prop
  | first,[],next => first = next
  | first,span::rest,next => span.1 = first ∧ span.1 ≤ span.2 ∧ Chain (span.2 + 1) rest next

variable {first next height : Int} {spans : List (Int × Int)}

theorem Chain.le (h : Chain first spans next) : first ≤ next := by
  induction spans generalizing first with
  | nil => exact Int.le_of_eq h
  | cons span rest ih =>
    obtain ⟨rfl,hspan,hrest⟩ := h
    have := ih hrest
    omega

theorem Chain.mem (h : Chain first spans next) {span : Int × Int} (hmem : span ∈ spans) :
    first ≤ span.1 ∧ span.1 ≤ span.2 ∧ span.2 < next := by
  induction spans generalizing first with
  | nil => cases hmem
  | cons head rest ih =>
    obtain ⟨rfl,hhead,hrest⟩ := h
    have hle := hrest.le
    rcases List.mem_cons.mp hmem with rfl | hmem
    · omega
    · have := ih hrest hmem
      omega

theorem Chain.snoc (h : Chain first spans next) {stop : Int} (hstop : next ≤ stop) :
    Chain first (spans ++ [(next,stop)]) (stop + 1) := by
  induction spans generalizing first with
  | nil => exact ⟨h.symm,hstop,rfl⟩
  | cons span rest ih =>
    obtain ⟨hfirst,hspan,hrest⟩ := h
    exact ⟨hfirst,hspan,ih hrest⟩

theorem Chain.filter (h : Chain first spans next) (hfirst : first ≤ height) :
    ∃ start ≤ height, Chain start (spans.filter fun span => height ≤ span.2) next := by
  induction spans generalizing first with
  | nil => exact ⟨first,hfirst,h⟩
  | cons span rest ih =>
    obtain ⟨rfl,hspan,hrest⟩ := h
    by_cases hstop : height ≤ span.2
    · have hkept : rest.filter (fun span => height ≤ span.2) = rest := by
        refine List.filter_eq_self.mpr fun other hother => ?_
        have := hrest.mem hother
        simp only [decide_eq_true_eq]
        omega
      refine ⟨span.1,hfirst,?_⟩
      rw [List.filter_cons_of_pos (by simpa using hstop),hkept]
      exact ⟨rfl,hspan,hrest⟩
    · rw [List.filter_cons_of_neg (by simpa using hstop)]
      exact ih hrest (by omega)

theorem Chain.holds (h : Chain first spans next) (hfirst : first ≤ height) (hnext : height < next) :
    ∃ span ∈ spans, span.1 ≤ height ∧ height ≤ span.2 := by
  induction spans generalizing first with
  | nil =>
    cases h
    omega
  | cons span rest ih =>
    obtain ⟨rfl,hspan,hrest⟩ := h
    by_cases hstop : height ≤ span.2
    · exact ⟨span,by simp,hfirst,hstop⟩
    · obtain ⟨other,hother,hheld⟩ := ih hrest (by omega)
      exact ⟨other,List.mem_cons_of_mem _ hother,hheld⟩

end Spans
