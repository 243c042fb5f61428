import Mathlib.Data.List.Basic
import Mathlib.Logic.Function.Basic
set_option autoImplicit false

/-!
Bounds on differences of integer unknowns. Finitely many of them have a common solution unless they
chain to a negative cycle, and they entail another bound only by chaining to it.
-/

namespace Differences

/-- `left ≤ right + gap` -/
structure Bound (V : Type*) where
  left : V
  right : V
  gap : Int

variable {V : Type*}

namespace Bound

def Holds (value : V → Int) (bound : Bound V) : Prop :=
  value bound.left ≤ value bound.right + bound.gap

/-- What holds when the bound does not. -/
def negation (bound : Bound V) : Bound V := ⟨bound.right,bound.left,-bound.gap - 1⟩

theorem negation_holds {value : V → Int} {bound : Bound V} :
    bound.negation.Holds value ↔ ¬bound.Holds value := by
  simp only [Holds,negation]
  omega

end Bound

/-- What the bounds give along a path from one unknown to another. -/
inductive Chain (bounds : List (Bound V)) : V → V → Int → Prop where
  | refl (x : V) : Chain bounds x x 0
  | step {bound : Bound V} {z : V} {gap : Int} (hbound : bound ∈ bounds)
      (rest : Chain bounds bound.right z gap) : Chain bounds bound.left z (bound.gap + gap)

/-- A path back to its start that would put an unknown below itself. -/
def Contradictory (bounds : List (Bound V)) : Prop := ∃ x gap, Chain bounds x x gap ∧ gap < 0

theorem Chain.trans {bounds : List (Bound V)} {x y z : V} {first second : Int}
    (h : Chain bounds x y first) (h' : Chain bounds y z second) :
    Chain bounds x z (first + second) := by
  induction h with
  | refl x => rwa [Int.zero_add]
  | step hbound rest ih =>
    rw [Int.add_assoc]
    exact .step hbound (ih h')

theorem Chain.single {bounds : List (Bound V)} {bound : Bound V} (h : bound ∈ bounds) :
    Chain bounds bound.left bound.right bound.gap := by
  have hstep := Chain.step h (.refl bound.right)
  rwa [Int.add_zero] at hstep

theorem Chain.of_chains {bounds derived : List (Bound V)}
    (h : ∀ bound ∈ derived, Chain bounds bound.left bound.right bound.gap) {x z : V} {gap : Int}
    (hchain : Chain derived x z gap) : Chain bounds x z gap := by
  induction hchain with
  | refl x => exact .refl x
  | step hbound rest ih => exact (h _ hbound).trans ih

theorem Chain.holds {bounds : List (Bound V)} {value : V → Int}
    (h : ∀ bound ∈ bounds, bound.Holds value) {x z : V} {gap : Int}
    (hchain : Chain bounds x z gap) :
    value x ≤ value z + gap := by
  induction hchain with
  | refl x => omega
  | @step bound z gap hbound rest ih =>
    have hfirst := h bound hbound
    unfold Bound.Holds at hfirst
    omega

/-- The bounds chain to the bound, or contradict each other. -/
def Entails (bounds : List (Bound V)) (bound : Bound V) : Prop :=
  Contradictory bounds ∨ ∃ gap ≤ bound.gap, Chain bounds bound.left bound.right gap

theorem chain_negation {bounds : List (Bound V)} {bound : Bound V}
    (hno : ∀ gap, Chain bounds bound.left bound.right gap → bound.gap < gap) {x z : V} {gap : Int}
    (h : Chain (bound.negation::bounds) x z gap) :
    Chain bounds x z gap ∨ ∃ first second, Chain bounds x bound.right first ∧
      Chain bounds bound.left z second ∧ first + (-bound.gap - 1) + second ≤ gap := by
  induction h with
  | refl x => exact Or.inl (.refl x)
  | @step used z gap hused rest ih =>
    rcases List.mem_cons.mp hused with rfl | hmem
    · rcases ih with hrest | ⟨first,second,hfirst,hsecond,hle⟩
      · exact Or.inr ⟨0,gap,.refl _,hrest,by simp [Bound.negation]⟩
      · have := hno first hfirst
        exact Or.inr ⟨0,second,.refl _,hsecond,by simp only [Bound.negation]; omega⟩
    · rcases ih with hrest | ⟨first,second,hfirst,hsecond,hle⟩
      · exact Or.inl (.step hmem hrest)
      · exact Or.inr ⟨used.gap + first,second,.step hmem hfirst,hsecond,by omega⟩

theorem exists_between {lowers uppers : List Int}
    (h : ∀ lower ∈ lowers, ∀ upper ∈ uppers, lower ≤ upper) :
    ∃ n, (∀ lower ∈ lowers, lower ≤ n) ∧ ∀ upper ∈ uppers, n ≤ upper := by
  induction lowers with
  | nil =>
    induction uppers with
    | nil => exact ⟨0,by simp,by simp⟩
    | cons upper uppers ih =>
      obtain ⟨n,-,hn⟩ := ih (by simp)
      refine ⟨min upper n,by simp,?_⟩
      intro other hother
      rcases List.mem_cons.mp hother with rfl | hother
      · omega
      · have := hn other hother
        omega
  | cons lower lowers ih =>
    obtain ⟨n,hlowers,huppers⟩ := ih fun other hother => h other (List.mem_cons_of_mem _ hother)
    refine ⟨max lower n,?_,?_⟩
    · intro other hother
      rcases List.mem_cons.mp hother with rfl | hother
      · omega
      · have := hlowers other hother
        omega
    · intro upper hupper
      have hfirst := h lower List.mem_cons_self upper hupper
      have := huppers upper hupper
      omega

variable [DecidableEq V]

def below (v : V) (bounds : List (Bound V)) : List (Bound V) :=
  bounds.filter fun bound => bound.right = v ∧ bound.left ≠ v

def above (v : V) (bounds : List (Bound V)) : List (Bound V) :=
  bounds.filter fun bound => bound.left = v ∧ bound.right ≠ v

/-- The bounds without an unknown: those that do not mention it, and those that it links. -/
def eliminate (v : V) (bounds : List (Bound V)) : List (Bound V) :=
  (bounds.filter fun bound => bound.left ≠ v ∧ bound.right ≠ v) ++
    (below v bounds).flatMap fun lower =>
      (above v bounds).map fun upper => ⟨lower.left,upper.right,lower.gap + upper.gap⟩

theorem mem_eliminate {v : V} {bounds : List (Bound V)} {bound : Bound V} :
    bound ∈ eliminate v bounds ↔ bound ∈ bounds ∧ bound.left ≠ v ∧ bound.right ≠ v ∨
      ∃ lower ∈ bounds, lower.right = v ∧ lower.left ≠ v ∧
        ∃ upper ∈ bounds, upper.left = v ∧ upper.right ≠ v ∧
          bound = ⟨lower.left,upper.right,lower.gap + upper.gap⟩ := by
  simp only [eliminate,below,above,List.mem_append,List.mem_filter,List.mem_flatMap,List.mem_map,
    decide_eq_true_eq,and_assoc]
  refine or_congr_right (exists_congr fun lower => and_congr_right fun _ => and_congr_right fun _ =>
    and_congr_right fun _ => exists_congr fun upper => ?_)
  rw [@eq_comm _ bound]

theorem chain_of_eliminate {v : V} {bounds : List (Bound V)} {x z : V} {gap : Int}
    (h : Chain (eliminate v bounds) x z gap) : Chain bounds x z gap := by
  refine Chain.of_chains ?_ h
  intro bound hbound
  rcases mem_eliminate.mp hbound with ⟨hmem,-⟩ | ⟨lower,hlower,rfl,-,upper,hupper,hlink,-,rfl⟩
  · exact .single hmem
  · have hfirst := Chain.single hlower
    rw [← hlink] at hfirst
    exact hfirst.trans (.single hupper)

theorem extend_solution {v : V} {bounds : List (Bound V)} (hfree : ¬Contradictory bounds)
    {value : V → Int} (h : ∀ bound ∈ eliminate v bounds, bound.Holds value) :
    ∃ n, ∀ bound ∈ bounds, bound.Holds (Function.update value v n) := by
  obtain ⟨n,hlowers,huppers⟩ := @exists_between
    ((below v bounds).map fun lower => value lower.left - lower.gap)
    ((above v bounds).map fun upper => value upper.right + upper.gap) (by
      intro low hlow up hup
      obtain ⟨lower,hlower,rfl⟩ := List.mem_map.mp hlow
      obtain ⟨upper,hupper,rfl⟩ := List.mem_map.mp hup
      have hlink := h ⟨lower.left,upper.right,lower.gap + upper.gap⟩ (List.mem_append_right _
        (List.mem_flatMap.mpr ⟨lower,hlower,List.mem_map_of_mem hupper⟩))
      simp only [Bound.Holds] at hlink
      omega)
  refine ⟨n,?_⟩
  intro bound hbound
  unfold Bound.Holds
  by_cases hleft : bound.left = v
  · by_cases hright : bound.right = v
    · have hgap : 0 ≤ bound.gap := by
        by_contra hneg
        have hloop := Chain.single hbound
        rw [hleft,hright] at hloop
        exact hfree ⟨v,bound.gap,hloop,by omega⟩
      rw [hleft,hright]
      omega
    · have hupper := huppers _ (List.mem_map_of_mem
        (List.mem_filter.mpr ⟨hbound,decide_eq_true ⟨hleft,hright⟩⟩))
      rw [hleft,Function.update_self,Function.update_of_ne hright]
      exact hupper
  · by_cases hright : bound.right = v
    · have hlower := hlowers _ (List.mem_map_of_mem
        (List.mem_filter.mpr ⟨hbound,decide_eq_true ⟨hright,hleft⟩⟩))
      rw [hright,Function.update_self,Function.update_of_ne hleft]
      omega
    · rw [Function.update_of_ne hleft,Function.update_of_ne hright]
      exact h bound (mem_eliminate.mpr (Or.inl ⟨hbound,hleft,hright⟩))

theorem exists_solution (vars : List V) {bounds : List (Bound V)}
    (hvars : ∀ bound ∈ bounds, bound.left ∈ vars ∧ bound.right ∈ vars)
    (hfree : ¬Contradictory bounds) : ∃ value : V → Int, ∀ bound ∈ bounds, bound.Holds value := by
  induction vars generalizing bounds with
  | nil =>
    refine ⟨fun _ => 0,fun bound hbound => ?_⟩
    exact absurd (hvars bound hbound).1 List.not_mem_nil
  | cons v vars ih =>
    have hvars' : ∀ bound ∈ eliminate v bounds, bound.left ∈ vars ∧ bound.right ∈ vars := by
      intro bound hbound
      rcases mem_eliminate.mp hbound with
        ⟨hmem,hleft,hright⟩ | ⟨lower,hlower,-,hleft,upper,hupper,-,hright,rfl⟩
      · exact ⟨(List.mem_cons.mp (hvars bound hmem).1).resolve_left hleft,
          (List.mem_cons.mp (hvars bound hmem).2).resolve_left hright⟩
      · exact ⟨(List.mem_cons.mp (hvars lower hlower).1).resolve_left hleft,
          (List.mem_cons.mp (hvars upper hupper).2).resolve_left hright⟩
    have hfree' : ¬Contradictory (eliminate v bounds) := by
      rintro ⟨x,gap,hchain,hgap⟩
      exact hfree ⟨x,gap,chain_of_eliminate hchain,hgap⟩
    obtain ⟨value,hvalue⟩ := ih hvars' hfree'
    obtain ⟨n,hn⟩ := extend_solution hfree hvalue
    exact ⟨_,hn⟩

theorem satisfiable_iff {bounds : List (Bound V)} :
    (∃ value : V → Int, ∀ bound ∈ bounds, bound.Holds value) ↔ ¬Contradictory bounds := by
  constructor
  · rintro ⟨value,hvalue⟩ ⟨x,gap,hchain,hgap⟩
    have := hchain.holds hvalue
    omega
  · refine exists_solution (bounds.flatMap fun bound => [bound.left,bound.right]) ?_
    intro bound hbound
    exact ⟨List.mem_flatMap.mpr ⟨bound,hbound,by simp⟩,List.mem_flatMap.mpr ⟨bound,hbound,by simp⟩⟩

theorem entails_iff {bounds : List (Bound V)} {bound : Bound V} :
    (∀ value : V → Int, (∀ other ∈ bounds, other.Holds value) → bound.Holds value) ↔
      Entails bounds bound := by
  constructor
  · intro h
    by_contra hnot
    obtain ⟨hfree,hno⟩ := not_or.mp hnot
    have hno' : ∀ gap, Chain bounds bound.left bound.right gap → bound.gap < gap := by
      intro gap hchain
      by_contra hle
      exact hno ⟨gap,by omega,hchain⟩
    have hcycle : ¬Contradictory (bound.negation::bounds) := by
      rintro ⟨x,gap,hchain,hgap⟩
      rcases chain_negation hno' hchain with hchain | ⟨first,second,hfirst,hsecond,hle⟩
      · exact hfree ⟨x,gap,hchain,hgap⟩
      · have := hno' _ (hsecond.trans hfirst)
        omega
    obtain ⟨value,hvalue⟩ := satisfiable_iff.mpr hcycle
    exact Bound.negation_holds.mp (hvalue _ List.mem_cons_self)
      (h value fun other hother => hvalue other (List.mem_cons_of_mem _ hother))
  · rintro (hcycle | ⟨gap,hgap,hchain⟩) value hvalue
    · exact absurd hcycle (satisfiable_iff.mp ⟨value,hvalue⟩)
    · have := hchain.holds hvalue
      unfold Bound.Holds
      omega

end Differences
