import Mathlib.Data.List.Basic
set_option autoImplicit false

/-!
`argMax` over rows with versions: of the rows that have a value, any of those with the greatest
version may give the answer.
-/

namespace ArgMax
variable {ρ α : Type}

/-- The aggregate may answer this. -/
def Answers (version : ρ → Nat) (arg : ρ → Option α) (rows : List ρ) : Option α → Prop
  | none => ∀ r ∈ rows, arg r = none
  | some a => ∃ r ∈ rows, arg r = some a ∧ ∀ s ∈ rows, (arg s).isSome → version s ≤ version r

variable {version : ρ → Nat} {arg : ρ → Option α} {rows : List ρ}

theorem exists_answers (version : ρ → Nat) (arg : ρ → Option α) (rows : List ρ) :
    ∃ a, Answers version arg rows a := by
  induction rows with
  | nil => exact ⟨none,by simp [Answers]⟩
  | cons r rows ih =>
    obtain ⟨a,ha⟩ := ih
    cases hr : arg r with
    | none =>
      refine ⟨a,?_⟩
      cases a with
      | none => simpa [Answers,hr] using ha
      | some a =>
        obtain ⟨s,hs,hsa,hmax⟩ := ha
        refine ⟨s,List.mem_cons_of_mem _ hs,hsa,fun x hx hsome => ?_⟩
        rcases List.mem_cons.mp hx with rfl | hx
        · simp [hr] at hsome
        · exact hmax x hx hsome
    | some b =>
      cases a with
      | none =>
        refine ⟨some b,r,List.mem_cons_self,hr,fun x hx hsome => ?_⟩
        rcases List.mem_cons.mp hx with rfl | hx
        · exact Nat.le_refl _
        · simp [ha x hx] at hsome
      | some a =>
        obtain ⟨s,hs,hsa,hmax⟩ := ha
        by_cases hle : version r ≤ version s
        · refine ⟨some a,s,List.mem_cons_of_mem _ hs,hsa,fun x hx hsome => ?_⟩
          rcases List.mem_cons.mp hx with rfl | hx
          · exact hle
          · exact hmax x hx hsome
        · refine ⟨some b,r,List.mem_cons_self,hr,fun x hx hsome => ?_⟩
          rcases List.mem_cons.mp hx with rfl | hx
          · exact Nat.le_refl _
          · have := hmax x hx hsome
            omega

theorem answers_of_max {r : ρ} {a : α} (hr : r ∈ rows) (ha : arg r = some a)
    (hmax : ∀ s ∈ rows, version s ≤ version r) : Answers version arg rows (some a) :=
  ⟨r,hr,ha,fun s hs _ => hmax s hs⟩

theorem Answers.eq_of_agree {a x : Option α} (h : Answers version arg rows a) (hne : rows ≠ [])
    (hagree : ∀ r ∈ rows, arg r = x) : a = x := by
  cases a with
  | none =>
    obtain ⟨r,hr⟩ := List.exists_mem_of_ne_nil _ hne
    rw [← hagree r hr,h r hr]
  | some a =>
    obtain ⟨r,hr,ha,-⟩ := h
    rw [← hagree r hr,ha]

end ArgMax
