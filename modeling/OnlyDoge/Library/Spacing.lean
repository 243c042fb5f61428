import Mathlib.Algebra.Order.Group.Basic
import Mathlib.Data.List.Pairwise
import Mathlib.Tactic.Abel
set_option autoImplicit false

/-! How many events fit in a span of time when they keep a distance from each other. -/

namespace Spacing
variable {α T : Type} [AddCommGroup T] [LinearOrder T] [IsOrderedAddMonoid T]
  {time slot : α → T} {gap start : T} {n : Nat} {events : List α}

theorem length_le_of_spaced (hspaced : events.Pairwise fun a b => time a + gap ≤ time b)
    (hin : ∀ event ∈ events, start ≤ time event ∧ time event < start + n • gap) :
    events.length ≤ n := by
  induction events generalizing start n with
  | nil => simp
  | cons event events ih =>
    obtain ⟨hfirst,hspaced⟩ := List.pairwise_cons.mp hspaced
    obtain ⟨hstart,hfinish⟩ := hin event List.mem_cons_self
    cases n with
    | zero =>
      rw [zero_nsmul,add_zero] at hfinish
      exact absurd hfinish (not_lt.mpr hstart)
    | succ n =>
      have hrest := @ih (start + gap) n hspaced ?_
      · simp only [List.length_cons]
        omega
      · intro later hlater
        refine ⟨(add_le_add hstart (le_refl gap)).trans (hfirst later hlater),?_⟩
        have hlast := (hin later (List.mem_cons_of_mem _ hlater)).2
        rwa [succ_nsmul',← add_assoc] at hlast

/-- Events that get their slots one after the other, each only when the one before has happened,
and that happen at most `slack` before their slots. -/
theorem length_le_of_paced {slack : T}
    (hpaced : events.Pairwise fun a b => time a ≤ slot b ∧ slot a + gap ≤ slot b)
    (hslot : ∀ event ∈ events, slot event < time event + slack)
    (hin : ∀ event ∈ events, start ≤ time event ∧ time event + slack ≤ start + n • gap) :
    events.length ≤ n + 1 := by
  cases events with
  | nil => simp
  | cons event events =>
    obtain ⟨hfirst,hpaced⟩ := List.pairwise_cons.mp hpaced
    -- the slots of all but the first lie in the span
    have hrest : events.length ≤ n := by
      refine @length_le_of_spaced _ _ _ _ _ slot gap start n events
        (hpaced.imp fun h => h.2) fun later hlater => ⟨?_,?_⟩
      · exact (hin event List.mem_cons_self).1.trans (hfirst later hlater).1
      · exact (hslot later (List.mem_cons_of_mem _ hlater)).trans_le
          (hin later (List.mem_cons_of_mem _ hlater)).2
    simp only [List.length_cons]
    omega

end Spacing
