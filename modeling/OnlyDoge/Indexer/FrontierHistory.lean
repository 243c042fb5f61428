import OnlyDoge.Indexer.RawBlockSync
set_option autoImplicit false

/-! The contiguous frontier against the whole history of its calls. -/

namespace OnlyDoge
namespace ContiguousFrontier

inductive FrontierCall where
  | markCompleted (heights : List Int)
  | consumeAdvance
  deriving DecidableEq,Repr

def apply (tracker : ContiguousFrontier) : FrontierCall → ContiguousFrontier
  | .markCompleted heights => tracker.markCompleted heights
  | .consumeAdvance => tracker.consumeAdvance.2

def afterCalls (start : Int) (calls : List FrontierCall) : ContiguousFrontier :=
  calls.foldl apply (base start)

def FrontierCall.heights : FrontierCall → List Int
  | .markCompleted heights => heights
  | .consumeAdvance => []

/-- All heights that were marked, with their repetitions. -/
def marks (calls : List FrontierCall) : List Int := calls.flatMap (·.heights)

/-- The set against the marked heights: what is above the frontier waits in the set, and the set
may hold repeated marks from below the frontier as well. -/
structure Waiting (start : Int) (history : List Int) (tracker : ContiguousFrontier) : Prop where
  above : start ≤ tracker.current
  reached : ∀ height, start < height → height ≤ tracker.current → height ∈ history
  marked : ∀ height ∈ tracker.completed, height ∈ history
  kept : ∀ height ∈ history, tracker.current < height → height ∈ tracker.completed
  nodup : tracker.completed.Nodup

/-- The next height is missing. -/
def Stopped (tracker : ContiguousFrontier) : Prop := tracker.current + 1 ∉ tracker.completed

variable {start : Int} {history heights : List Int} {tracker : ContiguousFrontier}

theorem mem_add {completed : List Int} {height other : Int} :
    other ∈ add completed height ↔ other ∈ completed ∨ other = height := by
  unfold add
  split
  · rename_i hin
    constructor
    · exact .inl
    · rintro (h | rfl)
      · exact h
      · exact hin
  · simp

theorem add_nodup {completed : List Int} {height : Int} (h : completed.Nodup) :
    (add completed height).Nodup := by
  unfold add
  split
  · exact h
  · rename_i hnew
    rw [List.nodup_append]
    refine ⟨h,by simp,?_⟩
    rintro other hother last hlast rfl
    rw [List.mem_singleton.mp hlast] at hother
    exact hnew hother

theorem mem_foldl_add {completed : List Int} {other : Int} :
    other ∈ heights.foldl add completed ↔ other ∈ completed ∨ other ∈ heights := by
  induction heights generalizing completed with
  | nil => simp
  | cons height heights ih =>
    rw [List.foldl_cons,ih,mem_add,List.mem_cons,or_assoc]

theorem foldl_add_keepsNodup {completed : List Int} (h : completed.Nodup) :
    (heights.foldl add completed).Nodup := by
  induction heights generalizing completed with
  | nil => exact h
  | cons height heights ih => exact ih (add_nodup h)

theorem Waiting.add (h : Waiting start history tracker) :
    Waiting start (history ++ heights)
      { tracker with completed := heights.foldl ContiguousFrontier.add tracker.completed } := by
  constructor
  · exact h.above
  · intro height hbelow hle
    exact List.mem_append_left _ (h.reached height hbelow hle)
  · intro height hin
    rcases mem_foldl_add.mp hin with hold | hnew
    · exact List.mem_append_left _ (h.marked height hold)
    · exact List.mem_append_right _ hnew
  · intro height hin hlt
    rw [mem_foldl_add]
    rcases List.mem_append.mp hin with hold | hnew
    · exact .inl (h.kept height hold hlt)
    · exact .inr hnew
  · exact foldl_add_keepsNodup h.nodup

theorem Waiting.advanceOne (h : Waiting start history tracker)
    (hnext : tracker.current + 1 ∈ tracker.completed) (advanced : Bool) :
    Waiting start history
      ⟨tracker.current + 1,tracker.completed.erase (tracker.current + 1),advanced⟩ := by
  have habove := h.above
  constructor
  · simp only
    omega
  · intro height hbelow hle
    simp only at hle
    by_cases hlast : height = tracker.current + 1
    · rw [hlast]
      exact h.marked _ hnext
    · exact h.reached height hbelow (by omega)
  · intro height hin
    exact h.marked height (List.mem_of_mem_erase hin)
  · intro height hin hlt
    simp only at hlt
    have hne : height ≠ tracker.current + 1 := by omega
    exact (List.mem_erase_of_ne hne).mpr (h.kept height hin (by omega))
  · exact h.nodup.erase _

/-- The loop stops at a missing height, and `advanced` says whether it moved. -/
structure Advanced (tracker after : ContiguousFrontier) : Prop where
  stopped : Stopped after
  grown : tracker.current ≤ after.current
  flag : after.advanced = (tracker.advanced || decide (tracker.current < after.current))

theorem advanceFor_spec {n : Nat} (h : Waiting start history tracker)
    (hn : tracker.completed.length ≤ n) :
    Waiting start history (advanceFor n tracker) ∧ Advanced tracker (advanceFor n tracker) := by
  induction n generalizing tracker with
  | zero =>
    have hempty : tracker.completed = [] := List.length_eq_zero_iff.mp (by omega)
    refine ⟨h,?_,?_,?_⟩
    · simp [Stopped,advanceFor,hempty]
    · simp [advanceFor]
    · simp [advanceFor]
  | succ n ih =>
    unfold advanceFor
    split
    · rename_i hnext
      have hlength := List.length_erase_of_mem hnext
      obtain ⟨hwaiting,hstopped,hgrown,hflag⟩ := ih (h.advanceOne hnext true) (by
        simp only [hlength]
        omega)
      simp only at hgrown hflag
      refine ⟨hwaiting,hstopped,by omega,?_⟩
      rw [hflag]
      have hlt : tracker.current <
          (advanceFor n ⟨tracker.current + 1,tracker.completed.erase (tracker.current + 1),
            true⟩).current := by omega
      simp [hlt]
    · rename_i hmissing
      refine ⟨h,hmissing,by omega,?_⟩
      simp

theorem markCompleted_spec (more : List Int) (h : Waiting start history tracker) :
    Waiting start (history ++ more) (tracker.markCompleted more) ∧
      Advanced tracker (tracker.markCompleted more) := by
  have hadd : Waiting start (history ++ more)
      { tracker with completed := more.foldl ContiguousFrontier.add tracker.completed } := h.add
  obtain ⟨hwaiting,hstopped,hgrown,hflag⟩ := advanceFor_spec hadd (Nat.le_refl _)
  exact ⟨hwaiting,hstopped,hgrown,hflag⟩

theorem afterCalls_concat (calls : List FrontierCall) (call : FrontierCall) :
    afterCalls start (calls ++ [call]) = (afterCalls start calls).apply call := by
  simp [afterCalls]

theorem marks_concat (calls : List FrontierCall) (call : FrontierCall) :
    marks (calls ++ [call]) = marks calls ++ call.heights := by
  simp [marks]

theorem waiting_base (start : Int) : Waiting start (marks []) (afterCalls start []) := by
  constructor
  · simp [afterCalls,base]
  · intro height hbelow hle
    simp only [afterCalls,List.foldl_nil,base] at hle
    omega
  · simp [afterCalls,base]
  · simp [marks]
  · simp [afterCalls,base]

theorem waiting_afterCalls (start : Int) (calls : List FrontierCall) :
    Waiting start (marks calls) (afterCalls start calls) ∧ Stopped (afterCalls start calls) := by
  induction calls using List.reverseRecOn with
  | nil => exact ⟨waiting_base start,by simp [Stopped,afterCalls,base]⟩
  | append_singleton calls call ih =>
    obtain ⟨hwaiting,hstopped⟩ := ih
    rw [afterCalls_concat,marks_concat]
    cases call with
    | markCompleted heights =>
      obtain ⟨hafter,hadvanced⟩ := markCompleted_spec heights hwaiting
      exact ⟨hafter,hadvanced.stopped⟩
    | consumeAdvance =>
      simp only [FrontierCall.heights,List.append_nil]
      exact ⟨⟨hwaiting.above,hwaiting.reached,hwaiting.marked,hwaiting.kept,hwaiting.nodup⟩,
        hstopped⟩

theorem current_le_apply (start : Int) (calls : List FrontierCall) (call : FrontierCall) :
    (afterCalls start calls).current ≤ (afterCalls start (calls ++ [call])).current := by
  rw [afterCalls_concat]
  cases call with
  | markCompleted heights =>
    exact (markCompleted_spec heights (waiting_afterCalls start calls).1).2.grown
  | consumeAdvance => exact Int.le_refl _

theorem current_le_append (start : Int) (calls later : List FrontierCall) :
    (afterCalls start calls).current ≤ (afterCalls start (calls ++ later)).current := by
  induction later using List.reverseRecOn with
  | nil => simp
  | append_singleton later call ih =>
    rw [← List.append_assoc]
    exact Int.le_trans ih (current_le_apply start _ call)

/-- Nothing was marked since the frontier was made or asked. -/
def FreshlyAsked (calls : List FrontierCall) : Prop :=
  calls = [] ∨ calls.getLast? = some .consumeAdvance

theorem advanced_of_freshlyAsked {calls : List FrontierCall} (h : FreshlyAsked calls) :
    (afterCalls start calls).advanced = false := by
  rcases h with rfl | hlast
  · rfl
  · obtain ⟨earlier,rfl⟩ := List.getLast?_eq_some_iff.mp hlast
    rw [afterCalls_concat]
    rfl

theorem advanced_since {calls since : List FrontierCall} (h : FreshlyAsked calls)
    (hmarks : FrontierCall.consumeAdvance ∉ since) :
    (afterCalls start (calls ++ since)).advanced =
      decide ((afterCalls start calls).current < (afterCalls start (calls ++ since)).current) := by
  induction since using List.reverseRecOn with
  | nil => simp [advanced_of_freshlyAsked h]
  | append_singleton since call ih =>
    simp only [List.mem_append,List.mem_singleton,not_or] at hmarks
    have hbefore := ih hmarks.1
    have hle := current_le_append start calls since
    rw [← List.append_assoc,afterCalls_concat]
    cases call with
    | consumeAdvance => exact absurd rfl hmarks.2
    | markCompleted heights =>
      obtain ⟨-,-,hgrown,hflag⟩ :=
        markCompleted_spec heights (waiting_afterCalls start (calls ++ since)).1
      change (markCompleted _ heights).advanced = decide (_ < (markCompleted _ heights).current)
      rw [hflag,hbefore,← Bool.decide_or]
      exact decide_eq_decide.mpr (by omega)

theorem greatest_of_waiting (h : Waiting start history tracker) (hstopped : Stopped tracker)
    {frontier : Int} (hfrontier : ∀ height, start < height → height ≤ frontier → height ∈ history) :
    frontier ≤ tracker.current := by
  by_contra hlt
  have habove := h.above
  have hin := hfrontier (tracker.current + 1) (by omega) (by omega)
  exact hstopped (h.kept _ hin (by omega))

/-- After any calls the frontier is the greatest height up to which everything above the base was
marked, no call lowers it, and `consumeAdvance` answers whether it grew since it was last asked. -/
theorem frontier_exact (start : Int) (calls : List FrontierCall) :
    (start ≤ (afterCalls start calls).current ∧
      (∀ height, start < height → height ≤ (afterCalls start calls).current →
        height ∈ marks calls) ∧
      ∀ frontier, (∀ height, start < height → height ≤ frontier → height ∈ marks calls) →
        frontier ≤ (afterCalls start calls).current) ∧
    (∀ later, (afterCalls start calls).current ≤ (afterCalls start (calls ++ later)).current) ∧
    (FreshlyAsked calls → ∀ since, FrontierCall.consumeAdvance ∉ since →
      ((afterCalls start (calls ++ since)).consumeAdvance.1 = true ↔
        (afterCalls start calls).current < (afterCalls start (calls ++ since)).current)) := by
  obtain ⟨hwaiting,hstopped⟩ := waiting_afterCalls start calls
  refine ⟨⟨hwaiting.above,hwaiting.reached,?_⟩,current_le_append start calls,?_⟩
  · intro frontier hfrontier
    exact greatest_of_waiting hwaiting hstopped hfrontier
  · intro hfresh since hmarks
    have hadvanced : (afterCalls start (calls ++ since)).advanced = _ :=
      advanced_since hfresh hmarks
    simp only [consumeAdvance,hadvanced,decide_eq_true_eq]

end ContiguousFrontier
end OnlyDoge
