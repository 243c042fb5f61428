import OnlyDoge.Indexer.Concurrency
import Mathlib.Data.List.Perm.Basic
set_option autoImplicit false

/-! What bounded parallel calls come to in every order of completions. -/

namespace OnlyDoge.Concurrency

section Sound
variable {τ ρ ε : Type}

/-- The calls for `values`, each with its index. -/
def allCalls (values : List τ) : List (Nat × τ) :=
  values.zipIdx.map fun (value,index) => (index,value)

def itemOf (call : Nat × τ) : WorkItem τ := ⟨call.1,some call.2⟩

def Failed (failure : ε) (workers : List (WorkerProgress τ ε)) : Prop :=
  .ended (some failure) ∈ workers ∨ .settled (some failure) ∈ workers

/-- A call that was made still runs, has left its result, or has ended its worker. -/
def Accounted (worker : τ → Nat → Except ε ρ) (s : MapRun τ ρ ε) (call : Nat × τ) : Prop :=
  .running call.1 call.2 ∈ s.workers ∨
    (∃ result, worker call.2 call.1 = .ok result ∧ s.results[call.1]? = some (some result)) ∨
    ∃ e, worker call.2 call.1 = .error e ∧ Failed e s.workers

def CallFails (worker : τ → Nat → Except ε ρ) (s : MapRun τ ρ ε) (failure : ε) : Prop :=
  ∃ call ∈ s.calls, worker call.2 call.1 = .error failure

structure Sound (worker : τ → Nat → Except ε ρ) (values : List τ) (count : Nat)
    (s : MapRun τ ρ ε) : Prop where
  queue : s.calls.map itemOf ++ s.workItems = (allCalls values).map itemOf
  count : s.workers.length = count
  slots : s.results.length = values.length
  running : ∀ index value, .running index value ∈ s.workers → (index,value) ∈ s.calls
  finished : .ended none ∈ s.workers ∨ .settled none ∈ s.workers → s.workItems = []
  accounted : ∀ call ∈ s.calls, Accounted worker s call
  failed : ∀ e, Failed e s.workers → CallFails worker s e
  rejected : ∀ e, s.outcome = some (.error e) → CallFails worker s e
  resolved : ∀ results, s.outcome = some (.ok results) →
    results = s.results ∧ s.workers.all isFulfilled
  pending : s.outcome = none →
    (∀ e, .settled (some e) ∉ s.workers) ∧ (s.workers.all isFulfilled → s.workers = [])

variable {worker : τ → Nat → Except ε ρ} {values : List τ} {count w : Nat} {s t : MapRun τ ρ ε}

theorem mem_set_of_ne {α : Type} {xs : List α} {x y a : α} (hy : xs[w]? = some y) (hx : x ∈ xs)
    (hne : x ≠ y) : x ∈ xs.set w a := by
  obtain ⟨i,hi⟩ := List.mem_iff_getElem?.mp hx
  have hiw : w ≠ i := by
    rintro rfl
    rw [hy] at hi
    exact hne (Option.some.inj hi).symm
  refine List.mem_iff_getElem?.mpr ⟨i,?_⟩
  rw [List.getElem?_set_ne hiw]
  exact hi

theorem mem_set_self {α : Type} {xs : List α} {y a : α} (hy : xs[w]? = some y) :
    a ∈ xs.set w a := by
  obtain ⟨hlt,-⟩ := List.getElem?_eq_some_iff.mp hy
  exact List.mem_iff_getElem?.mpr ⟨w,List.getElem?_set_self hlt⟩

theorem mem_allCalls {index : Nat} {value : τ} :
    (index,value) ∈ allCalls values ↔ values[index]? = some value := by
  simp [allCalls,List.mem_zipIdx_iff_getElem?]

theorem itemOf_injective : Function.Injective (@itemOf τ) := by
  rintro ⟨i,v⟩ ⟨j,u⟩ h
  cases h
  rfl

theorem Sound.calls_initial (h : Sound worker values count s) : s.calls <+: allCalls values := by
  have hinitial : s.calls.map itemOf <+: (allCalls values).map itemOf := ⟨_,h.queue⟩
  exact (List.prefix_map_iff_of_injective itemOf_injective).mp hinitial

theorem Sound.value_of_call (h : Sound worker values count s) {index : Nat} {value : τ}
    (hcall : (index,value) ∈ s.calls) : values[index]? = some value :=
  mem_allCalls.mp (h.calls_initial.subset hcall)

theorem Sound.items (h : Sound worker values count s) :
    ∀ item ∈ s.workItems, item.value.isSome := by
  intro item hitem
  have hin : item ∈ (allCalls values).map itemOf := by
    rw [← h.queue]
    exact List.mem_append_right _ hitem
  obtain ⟨call,-,rfl⟩ := List.mem_map.mp hin
  rfl

theorem TakesItem.queue {progress : WorkerProgress τ ε} (h : TakesItem s progress t)
    (hs : s.calls.map itemOf ++ s.workItems = (allCalls values).map itemOf) :
    t.calls.map itemOf ++ t.workItems = (allCalls values).map itemOf := by
  cases h with
  | empty hempty => exact hs
  | call index value rest hitems =>
    rw [hitems] at hs
    rw [← hs]
    simp [itemOf]

theorem TakesItem.same {progress : WorkerProgress τ ε} (h : TakesItem s progress t) :
    t.workers = s.workers ∧ t.results = s.results ∧ t.outcome = s.outcome ∧
      s.calls <+: t.calls := by
  cases h with
  | empty hempty => exact ⟨rfl,rfl,rfl,List.prefix_rfl⟩
  | call index value rest hitems => exact ⟨rfl,rfl,rfl,List.prefix_append _ _⟩

/-- A worker that goes on waits for a call that it made, or found the queue empty. -/
inductive Resumes (s t : MapRun τ ρ ε) : WorkerProgress τ ε → Prop where
  | running (index : Nat) (value : τ) (h : t.calls = s.calls ++ [(index,value)]) :
      Resumes s t (.running index value)
  | ended (hsame : t.calls = s.calls) (hempty : s.workItems = []) : Resumes s t (.ended none)

theorem TakesItem.resumes {progress : WorkerProgress τ ε} (h : TakesItem s progress t) :
    Resumes s t progress := by
  cases h with
  | empty hempty => exact .ended rfl hempty
  | call index value rest hitems => exact .running index value rfl

theorem TakesItem.nil {progress : WorkerProgress τ ε} (h : TakesItem s progress t)
    (hempty : s.workItems = []) : t.workItems = [] := by
  cases h with
  | empty _ => exact hempty
  | call index value rest hitems =>
    rw [hempty] at hitems
    cases hitems

/-- The run while one worker goes on, as the `others` see it. -/
structure Resuming (worker : τ → Nat → Except ε ρ) (values : List τ)
    (others : List (WorkerProgress τ ε)) (s : MapRun τ ρ ε) : Prop where
  queue : s.calls.map itemOf ++ s.workItems = (allCalls values).map itemOf
  slots : s.results.length = values.length
  running : ∀ index value, .running index value ∈ others → (index,value) ∈ s.calls
  finished : .ended none ∈ others ∨ .settled none ∈ others → s.workItems = []
  accounted : ∀ call ∈ s.calls, Accounted worker { s with workers := others } call
  failed : ∀ e, Failed e others → CallFails worker s e
  rejected : ∀ e, s.outcome = some (.error e) → CallFails worker s e
  unresolved : ∀ results, s.outcome ≠ some (.ok results)
  pending : s.outcome = none → ∀ e, .settled (some e) ∉ others

theorem Resuming.resume {others next : List (WorkerProgress τ ε)} {progress : WorkerProgress τ ε}
    (h : Resuming worker values others s) (htakes : TakesItem s progress t)
    (hnext : ∀ p, p ∈ next ↔ p ∈ others ∨ p = progress) (hcount : next.length = count) :
    Sound worker values count { t with workers := next } := by
  obtain ⟨-,hresults,houtcome,hcalls⟩ := htakes.same
  have hresumes := htakes.resumes
  have hold {p : WorkerProgress τ ε} (hin : p ∈ next) (hne : p ≠ progress) : p ∈ others :=
    ((hnext p).mp hin).resolve_right hne
  have hsettled (failure : Option ε) : .settled failure ≠ progress := by
    rintro rfl
    cases hresumes
  have hfailure (e : ε) : .ended (some e) ≠ progress := by
    rintro rfl
    cases hresumes
  have hfails {e : ε} (hfail : CallFails worker s e) :
      CallFails worker { t with workers := next } e := by
    obtain ⟨call,hcall,herror⟩ := hfail
    exact ⟨call,hcalls.subset hcall,herror⟩
  have hkeep {call : Nat × τ} (haccounted : Accounted worker { s with workers := others } call) :
      Accounted worker { t with workers := next } call := by
    rcases haccounted with hrun | hdone | ⟨e,herror,hfail⟩
    · exact .inl ((hnext _).mpr (.inl hrun))
    · refine .inr (.inl ?_)
      simpa only [hresults] using hdone
    · refine .inr (.inr ⟨e,herror,?_⟩)
      exact hfail.imp (fun hin => (hnext _).mpr (.inl hin)) fun hin => (hnext _).mpr (.inl hin)
  constructor
  · exact htakes.queue h.queue
  · exact hcount
  · simp only [hresults,h.slots]
  · intro index value hin
    by_cases hnew : .running index value = progress
    · subst hnew
      cases hresumes with
      | running _ _ happend => simp [happend]
    · exact hcalls.subset (h.running index value (hold hin hnew))
  · intro hin
    by_cases hnew : .ended none = progress
    · subst hnew
      cases hresumes with
      | ended _ hempty => exact htakes.nil hempty
    · refine htakes.nil (h.finished (hin.imp (fun hin => hold hin hnew) fun hin => ?_))
      exact hold hin (hsettled none)
  · intro call hcall
    cases hresumes with
    | ended hsame _ =>
      simp only [hsame] at hcall
      exact hkeep (h.accounted call hcall)
    | running index value happend =>
      simp only [happend,List.mem_append,List.mem_singleton] at hcall
      rcases hcall with hbefore | rfl
      · exact hkeep (h.accounted call hbefore)
      · exact .inl ((hnext _).mpr (.inr rfl))
  · intro e hfail
    refine hfails (h.failed e (hfail.imp (fun hin => hold hin (hfailure e)) fun hin => ?_))
    exact hold hin (hsettled (some e))
  · intro e hrejected
    simp only [houtcome] at hrejected
    exact hfails (h.rejected e hrejected)
  · intro results hresolved
    simp only [houtcome] at hresolved
    exact absurd hresolved (h.unresolved results)
  · intro hnone
    simp only [houtcome] at hnone
    refine ⟨fun e hin => h.pending hnone e (hold hin (hsettled (some e))),?_⟩
    intro hall
    have hprogress := List.all_eq_true.mp hall progress ((hnext progress).mpr (.inr rfl))
    cases hresumes <;> cases hprogress

theorem mem_set_iff_eraseIdx {α : Type} {xs : List α} {y a : α} (hy : xs[w]? = some y) (p : α) :
    p ∈ xs.set w a ↔ p ∈ xs.eraseIdx w ∨ p = a := by
  rw [List.mem_eraseIdx_iff_getElem?]
  constructor
  · intro hin
    obtain ⟨i,hi⟩ := List.mem_iff_getElem?.mp hin
    by_cases hiw : w = i
    · subst hiw
      obtain ⟨hlt,-⟩ := List.getElem?_eq_some_iff.mp hy
      rw [List.getElem?_set_self hlt] at hi
      exact .inr (Option.some.inj hi).symm
    · rw [List.getElem?_set_ne hiw] at hi
      exact .inl ⟨i,fun h => hiw h.symm,hi⟩
  · rintro (⟨i,hiw,hi⟩ | rfl)
    · refine List.mem_iff_getElem?.mpr ⟨i,?_⟩
      rw [List.getElem?_set_ne (fun h => hiw h.symm)]
      exact hi
    · exact mem_set_self hy

theorem mem_eraseIdx_of_ne {α : Type} {xs : List α} {x y : α} (hy : xs[w]? = some y) (hx : x ∈ xs)
    (hne : x ≠ y) : x ∈ xs.eraseIdx w := by
  have hin : x ∈ xs.set w y := mem_set_of_ne hy hx hne
  exact ((mem_set_iff_eraseIdx hy x).mp hin).resolve_right hne

theorem Sound.not_resolved (h : Sound worker values count s) {p : WorkerProgress τ ε}
    (hp : s.workers[w]? = some p) (hopen : isFulfilled p = false) (results : List (Option ρ)) :
    s.outcome ≠ some (.ok results) := by
  intro hresolved
  have hall := List.all_eq_true.mp (h.resolved results hresolved).2 p (List.mem_of_getElem? hp)
  rw [hopen] at hall
  cases hall

theorem Sound.resuming {index : Nat} {value : τ} {result : ρ} (h : Sound worker values count s)
    (hw : s.workers[w]? = some (.running index value)) (hcall : worker value index = .ok result) :
    Resuming worker values (s.workers.eraseIdx w)
      { s with results := s.results.set index (some result) } := by
  have hmade := h.running index value (List.mem_of_getElem? hw)
  have hvalue := h.value_of_call hmade
  have hslot : index < s.results.length := by
    rw [h.slots]
    exact (List.getElem?_eq_some_iff.mp hvalue).1
  have hsub {p : WorkerProgress τ ε} (hin : p ∈ s.workers.eraseIdx w) : p ∈ s.workers :=
    List.mem_of_mem_eraseIdx hin
  constructor
  · exact h.queue
  · simpa using h.slots
  · exact fun i v hin => h.running i v (hsub hin)
  · exact fun hin => h.finished (hin.imp hsub hsub)
  · intro call hin
    have hself : (s.results.set index (some result))[index]? = some (some result) :=
      List.getElem?_set_self hslot
    rcases h.accounted call hin with hrun | ⟨other,hother,hleft⟩ | ⟨e,herror,hfail⟩
    · by_cases hsame : call = (index,value)
      · subst hsame
        exact .inr (.inl ⟨result,hcall,hself⟩)
      · refine .inl (mem_eraseIdx_of_ne hw hrun ?_)
        intro heq
        cases heq
        exact hsame rfl
    · refine .inr (.inl ⟨other,hother,?_⟩)
      by_cases hindex : index = call.1
      · have hcallValue := h.value_of_call hin
        rw [← hindex,hvalue] at hcallValue
        rw [← hindex,← Option.some.inj hcallValue,hcall] at hother
        cases hother
        simp only [← hindex]
        exact hself
      · simp only [List.getElem?_set_ne hindex]
        exact hleft
    · refine .inr (.inr ⟨e,herror,hfail.imp (fun hmem => ?_) fun hmem => ?_⟩)
      · exact mem_eraseIdx_of_ne hw hmem (by simp)
      · exact mem_eraseIdx_of_ne hw hmem (by simp)
  · exact fun e hfail => h.failed e (hfail.imp hsub hsub)
  · exact h.rejected
  · exact h.not_resolved hw rfl
  · exact fun hnone e hin => (h.pending hnone).1 e (hsub hin)

theorem Sound.fail {index : Nat} {value : τ} {failure : ε} (h : Sound worker values count s)
    (hw : s.workers[w]? = some (.running index value))
    (hcall : worker value index = .error failure) :
    Sound worker values count { s with workers := s.workers.set w (.ended (some failure)) } := by
  have hmade := h.running index value (List.mem_of_getElem? hw)
  have hold {p : WorkerProgress τ ε} (hin : p ∈ s.workers.set w (.ended (some failure)))
      (hne : p ≠ .ended (some failure)) : p ∈ s.workers :=
    (List.mem_or_eq_of_mem_set hin).resolve_right hne
  constructor
  · exact h.queue
  · simpa using h.count
  · exact h.slots
  · exact fun i v hin => h.running i v (hold hin (by simp))
  · exact fun hin => h.finished (hin.imp (fun hmem => hold hmem (by simp)) fun hmem =>
      hold hmem (by simp))
  · intro call hin
    rcases h.accounted call hin with hrun | hleft | ⟨e,herror,hfail⟩
    · by_cases hsame : call = (index,value)
      · subst hsame
        exact .inr (.inr ⟨failure,hcall,.inl (mem_set_self hw)⟩)
      · refine .inl (mem_set_of_ne hw hrun ?_)
        intro heq
        cases heq
        exact hsame rfl
    · exact .inr (.inl hleft)
    · refine .inr (.inr ⟨e,herror,hfail.imp (fun hmem => ?_) fun hmem => ?_⟩)
      · exact mem_set_of_ne hw hmem (by simp)
      · exact mem_set_of_ne hw hmem (by simp)
  · intro e hfail
    by_cases hsame : e = failure
    · rw [hsame]
      exact ⟨_,hmade,hcall⟩
    · exact h.failed e (hfail.imp (fun hmem => hold hmem (by simpa using hsame)) fun hmem =>
        hold hmem (by simp))
  · exact h.rejected
  · exact fun results hresolved => absurd hresolved (h.not_resolved hw rfl results)
  · intro hnone
    refine ⟨fun e hin => (h.pending hnone).1 e (hold hin (by simp)),?_⟩
    intro hall
    have hended := List.all_eq_true.mp hall _ (mem_set_self hw)
    cases hended

/-- `Promise.all` hears of the end of a worker. -/
theorem Sound.settle {ended : Option ε} (h : Sound worker values count s)
    (hw : s.workers[w]? = some (.ended ended)) :
    Sound worker values count { s with
      workers := s.workers.set w (.settled ended)
      outcome := s.outcome.or (allOutcome ended
        (s.workers.set w (.settled ended)) s.results) } := by
  have hmem := List.mem_of_getElem? hw
  have hold {p : WorkerProgress τ ε} (hin : p ∈ s.workers.set w (.settled ended))
      (hne : p ≠ .settled ended) : p ∈ s.workers :=
    (List.mem_or_eq_of_mem_set hin).resolve_right hne
  have hfails {e : ε} (hfail : Failed e (s.workers.set w (.settled ended))) :
    CallFails worker s e := by
    by_cases hsame : ended = some e
    · rw [hsame] at hmem
      exact h.failed e (.inl hmem)
    · refine h.failed e (hfail.imp (fun hin => hold hin (by simp)) fun hin => hold hin ?_)
      simpa [eq_comm] using hsame
  have hopen := h.not_resolved hw rfl
  constructor
  · exact h.queue
  · simpa using h.count
  · exact h.slots
  · exact fun i v hin => h.running i v (hold hin (by simp))
  · intro hin
    by_cases hsame : ended = none
    · rw [hsame] at hmem
      exact h.finished (.inl hmem)
    · refine h.finished (hin.imp (fun hin => hold hin (by simp)) fun hin => hold hin ?_)
      simpa [eq_comm] using hsame
  · intro call hin
    rcases h.accounted call hin with hrun | hleft | ⟨e,herror,hfail⟩
    · exact .inl (mem_set_of_ne hw hrun (by simp))
    · exact .inr (.inl hleft)
    · refine .inr (.inr ⟨e,herror,?_⟩)
      rcases hfail with hended | hsettled
      · by_cases hsame : ended = some e
        · rw [hsame] at hw ⊢
          exact .inr (mem_set_self hw)
        · exact .inl (mem_set_of_ne hw hended (by simpa [eq_comm] using hsame))
      · exact .inr (mem_set_of_ne hw hsettled (by simp))
  · exact fun e hfail => hfails hfail
  · intro e hrejected
    cases houtcome : s.outcome with
    | some outcome =>
      simp only [houtcome,Option.some_or] at hrejected
      exact h.rejected e (houtcome.trans hrejected)
    | none =>
      simp only [houtcome,Option.none_or] at hrejected
      cases ended with
      | some failure =>
        cases hrejected
        exact h.failed e (.inl hmem)
      | none =>
        by_cases hall : (s.workers.set w (.settled none)).all isFulfilled
        · simp [allOutcome,hall] at hrejected
        · simp [allOutcome,hall] at hrejected
  · intro results hresolved
    cases houtcome : s.outcome with
    | some outcome =>
      simp only [houtcome,Option.some_or] at hresolved
      exact absurd (houtcome.trans hresolved) (hopen results)
    | none =>
      simp only [houtcome,Option.none_or] at hresolved
      cases ended with
      | some failure => cases hresolved
      | none =>
        by_cases hall : (s.workers.set w (.settled none)).all isFulfilled
        · simp only [allOutcome,hall,if_true,Option.some.injEq,Except.ok.injEq] at hresolved
          exact ⟨hresolved.symm,hall⟩
        · simp [allOutcome,hall] at hresolved
  · intro hnone
    obtain ⟨hbefore,hafter⟩ := Option.or_eq_none_iff.mp hnone
    cases ended with
    | some failure => cases hafter
    | none =>
      refine ⟨fun e hin => (h.pending hbefore).1 e (hold hin (by simp)),?_⟩
      intro hall
      simp only [allOutcome] at hafter
      rw [if_pos hall] at hafter
      cases hafter

theorem Sound.step {event : MapEvent} (h : Sound worker values count s)
    (hstep : step worker event s = some t) : Sound worker values count t := by
  cases event with
  | complete w =>
    obtain ⟨index,value,hw,hcases⟩ := complete_cases hstep
    rcases hcases with ⟨result,hcall,rfl⟩ | ⟨e,hcall,rfl⟩
    · have hresuming := h.resuming hw hcall
      have htakes := takeItem_cases (s := { s with
        results := s.results.set index (some result) }) h.items
      refine hresuming.resume htakes ?_ ?_
      · rw [htakes.same.1]
        exact mem_set_iff_eraseIdx hw
      · rw [htakes.same.1,List.length_set]
        exact h.count
    · exact h.fail hw hcall
  | settle w =>
    obtain ⟨failure,hw,rfl⟩ := settle_cases hstep
    exact h.settle hw

theorem Sound.startWorker (h : Sound worker values count s) (hnone : s.outcome = none) :
    Sound worker values (count + 1) (startWorker s) ∧ (startWorker s).outcome = none := by
  have hresuming : Resuming worker values s.workers s := by
    constructor
    · exact h.queue
    · exact h.slots
    · exact h.running
    · exact h.finished
    · exact h.accounted
    · exact h.failed
    · exact h.rejected
    · simp [hnone]
    · exact fun _ => (h.pending hnone).1
  have htakes := takeItem_cases h.items
  obtain ⟨hworkers,-,houtcome,-⟩ := htakes.same
  have hstart : OnlyDoge.Concurrency.startWorker s =
      { (takeItem s).2 with workers := s.workers ++ [(takeItem s).1] } := by
    rw [← hworkers]
    rfl
  rw [hstart]
  constructor
  · refine hresuming.resume htakes ?_ ?_
    · simp
    · simp [h.count]
  · exact houtcome.trans hnone

theorem Sound.startWorkers {n : Nat} (h : Sound worker values count s) (hnone : s.outcome = none) :
    Sound worker values (count + n) (startWorkers n s) := by
  induction n generalizing count s with
  | zero => exact h
  | succ n ih =>
    obtain ⟨hnext,houtcome⟩ := h.startWorker hnone
    have hrest := ih hnext houtcome
    rw [Nat.add_right_comm] at hrest
    exact hrest

theorem sound_mapWithConcurrency (worker : τ → Nat → Except ε ρ) (values : List τ)
    (concurrency : Int) :
    Sound worker values (workerCount concurrency values.length)
      (mapWithConcurrency (values.map some) concurrency) := by
  have hstart : Sound worker values 0 (queued (values.map some)) := by
    constructor
    · simp [queued,allCalls,List.zipIdx_map,itemOf,Function.comp_def]
    · rfl
    · simp [queued]
    · simp [queued]
    · simp [queued]
    · simp [queued]
    · simp [queued,Failed]
    · simp [queued]
    · simp [queued]
    · simp [queued]
  have hall := @Sound.startWorkers _ _ _ worker values 0 _
    (workerCount concurrency (values.map some).length) hstart rfl
  rw [Nat.zero_add,List.length_map] at hall
  rw [mapWithConcurrency,List.length_map]
  simpa using hall

theorem Sound.run {events : List MapEvent} (h : Sound worker values count s)
    (hrun : Machine.run (OnlyDoge.Concurrency.step worker) events s = some t) :
    Sound worker values count t :=
  Machine.run_invariant (fun _ _ _ hs hstep => hs.step hstep) h hrun

/-- No call is running and `Promise.all` has heard of every worker. -/
def Ended (worker : τ → Nat → Except ε ρ) (s : MapRun τ ρ ε) : Prop :=
  ∀ event, step worker event s = none

theorem Ended.settled (h : Ended worker s) : ∀ p ∈ s.workers, ∃ failure, p = .settled failure := by
  intro p hp
  obtain ⟨w,hw⟩ := List.mem_iff_getElem?.mp hp
  cases p with
  | settled failure => exact ⟨failure,rfl⟩
  | ended failure =>
    have hnone := h (.settle w)
    simp [step,OnlyDoge.Concurrency.settle,hw] at hnone
  | running index value =>
    have hnone := h (.complete w)
    simp only [step,complete,hw] at hnone
    cases hcall : worker value index with
    | ok result => simp [hcall] at hnone
    | error e => simp [hcall] at hnone

theorem workerCount_pos (concurrency : Int) (length : Nat) :
    0 < workerCount concurrency length := by
  unfold workerCount
  omega

theorem workerCount_le (concurrency : Int) (length : Nat) :
    (workerCount concurrency length : Int) ≤ max 1 concurrency := by
  unfold workerCount
  omega

def isRunning : WorkerProgress τ ε → Bool
  | .running _ _ => true
  | _ => false

theorem Sound.calls_all (h : Sound worker values count s) (hempty : s.workItems = []) :
    s.calls = allCalls values := by
  have hqueue := h.queue
  rw [hempty,List.append_nil] at hqueue
  exact List.map_injective_iff.mpr itemOf_injective hqueue

theorem Sound.calls_of_ended (h : Sound worker values count s) (hended : Ended worker s) :
    s.calls = allCalls values ∨ ∀ p ∈ s.workers, ∃ e, p = .settled (some e) := by
  by_cases hreturned : WorkerProgress.settled none ∈ s.workers
  · exact .inl (h.calls_all (h.finished (.inr hreturned)))
  · refine .inr (fun p hp => ?_)
    obtain ⟨failure,rfl⟩ := hended.settled p hp
    cases failure with
    | none => exact absurd hp hreturned
    | some e => exact ⟨e,rfl⟩

theorem Sound.rejects (h : Sound worker values count s) (hended : Ended worker s) {e : ε}
    (hfails : CallFails worker s e) : ∃ e, s.outcome = some (.error e) ∧ CallFails worker s e := by
  obtain ⟨call,hcall,herror⟩ := hfails
  have hfailed : ∃ e, WorkerProgress.settled (some e) ∈ s.workers := by
    rcases h.accounted call hcall with hrun | ⟨result,hok,-⟩ | ⟨e,-,hin | hin⟩
    · obtain ⟨failure,hsettled⟩ := hended.settled _ hrun
      cases hsettled
    · rw [herror] at hok
      cases hok
    · obtain ⟨failure,hsettled⟩ := hended.settled _ hin
      cases hsettled
    · exact ⟨e,hin⟩
  obtain ⟨failure,hfailure⟩ := hfailed
  cases houtcome : s.outcome with
  | none => exact absurd hfailure ((h.pending houtcome).1 failure)
  | some outcome =>
    cases outcome with
    | error e => exact ⟨e,rfl,h.rejected e houtcome⟩
    | ok results =>
      have hall := List.all_eq_true.mp (h.resolved results houtcome).2 _ hfailure
      cases hall

theorem exists_map_ok {calls : List (Except ε ρ)}
    (h : ∀ call ∈ calls, ∃ result, call = .ok result) :
    ∃ results : List ρ, results.map .ok = calls := by
  induction calls with
  | nil => exact ⟨[],rfl⟩
  | cons call calls ih =>
    obtain ⟨result,rfl⟩ := h call List.mem_cons_self
    obtain ⟨results,rfl⟩ := ih fun other hother => h other (List.mem_cons_of_mem _ hother)
    exact ⟨result::results,rfl⟩

theorem Sound.resolves (h : Sound worker values count s) (hcount : 0 < count)
    (hended : Ended worker s)
    (hok : ∀ call ∈ s.calls, ∃ result, worker call.2 call.1 = .ok result) :
    s.calls = allCalls values ∧ ∃ results : List ρ, s.outcome = some (.ok (results.map some)) ∧
      results.map .ok = values.zipIdx.map fun (value,index) => worker value index := by
  have hnone : ∀ e, ¬CallFails worker s e := by
    rintro e ⟨call,hcall,herror⟩
    obtain ⟨result,hresult⟩ := hok call hcall
    rw [herror] at hresult
    cases hresult
  have hfulfilled : ∀ p ∈ s.workers, p = .settled none := by
    intro p hp
    obtain ⟨failure,rfl⟩ := hended.settled p hp
    cases failure with
    | none => rfl
    | some e => exact absurd (h.failed e (.inr hp)) (hnone e)
  have hne : s.workers ≠ [] := by
    rw [← List.length_pos_iff,h.count]
    exact hcount
  obtain ⟨first,hfirst⟩ := List.exists_mem_of_ne_nil _ hne
  have hcalls : s.calls = allCalls values := by
    rw [hfulfilled first hfirst] at hfirst
    exact h.calls_all (h.finished (.inr hfirst))
  refine ⟨hcalls,?_⟩
  have hmade : ∀ call ∈ values.zipIdx.map (fun (value,index) => worker value index),
      ∃ result, call = .ok result := by
    intro call hcall
    obtain ⟨⟨value,index⟩,hin,rfl⟩ := List.mem_map.mp hcall
    refine hok (index,value) ?_
    rw [hcalls]
    exact mem_allCalls.mpr (List.mem_zipIdx_iff_getElem?.mp hin)
  obtain ⟨results,hresults⟩ := exists_map_ok hmade
  have hslots : s.results = results.map some := by
    have hlength : results.length = values.length := by
      have hlengths := congrArg List.length hresults
      simpa using hlengths
    apply List.ext_getElem?
    intro index
    by_cases hindex : index < values.length
    · have hvalue := List.getElem?_eq_getElem hindex
      have hcall : (index,values[index]) ∈ s.calls := by
        rw [hcalls]
        exact mem_allCalls.mpr hvalue
      have hat : (results.map Except.ok)[index]? = some (worker values[index] index) := by
        rw [hresults]
        simp [List.getElem?_zipIdx,hvalue]
      rcases h.accounted _ hcall with hrun | ⟨result,hresult,hleft⟩ | ⟨e,-,hfail⟩
      · have hsettled := hfulfilled _ hrun
        cases hsettled
      · simp only [hresult,List.getElem?_map] at hat
        rw [hleft,List.getElem?_map]
        cases hfound : results[index]? with
        | none =>
          rw [hfound] at hat
          cases hat
        | some found =>
          rw [hfound] at hat
          cases hat
          rfl
      · exact absurd (h.failed e hfail) (hnone e)
    · rw [List.getElem?_eq_none (by rw [h.slots]; omega),List.getElem?_eq_none (by simp; omega)]
  refine ⟨results,?_,hresults⟩
  cases houtcome : s.outcome with
  | none =>
    have hempty := (h.pending houtcome).2 (List.all_eq_true.mpr fun p hp => by
      rw [hfulfilled p hp]
      rfl)
    exact absurd hempty hne
  | some outcome =>
    cases outcome with
    | error e => exact absurd (h.rejected e houtcome) (hnone e)
    | ok found => rw [(h.resolved found houtcome).1,hslots]

end Sound

/-- In every order of completions the calls are made in the order of the values, each at most once,
and no more than `max 1 concurrency` run at a time. At the end all calls have been made unless
every worker has ended with a failed call; the results come in the order of the values where no
call failed, and else the run is rejected with the failure of a call. -/
theorem mapWithConcurrency_bounded {τ ρ ε : Type} (worker : τ → Nat → Except ε ρ) (values : List τ)
    (concurrency : Int) (events : List MapEvent) (s : MapRun τ ρ ε)
    (hrun : Machine.run (step worker) events (mapWithConcurrency (values.map some) concurrency) =
      some s) :
    s.calls <+: allCalls values ∧
      (s.workers.countP isRunning : Int) ≤ max 1 concurrency ∧
      (Ended worker s →
        (s.calls = allCalls values ∨
          s.workers.length = workerCount concurrency values.length ∧
            ∀ p ∈ s.workers, ∃ e, p = .settled (some e)) ∧
        ((∀ call ∈ s.calls, ∃ result, worker call.2 call.1 = .ok result) →
          s.calls = allCalls values ∧
            ∃ results : List ρ, s.outcome = some (.ok (results.map some)) ∧
              results.map .ok = values.zipIdx.map fun (value,index) => worker value index) ∧
        ((∃ call ∈ s.calls, ∃ e, worker call.2 call.1 = .error e) →
          ∃ e, s.outcome = some (.error e) ∧
            ∃ call ∈ s.calls, worker call.2 call.1 = .error e)) := by
  have hsound := (sound_mapWithConcurrency worker values concurrency).run hrun
  have hcount := workerCount_pos concurrency values.length
  refine ⟨hsound.calls_initial,?_,?_⟩
  · have hle : s.workers.countP isRunning ≤ s.workers.length := List.countP_le_length
    rw [hsound.count] at hle
    have hmax := workerCount_le concurrency values.length
    omega
  · intro hended
    refine ⟨?_,hsound.resolves hcount hended,?_⟩
    · exact (hsound.calls_of_ended hended).imp_right fun hfailed => ⟨hsound.count,hfailed⟩
    · rintro ⟨call,hcall,e,herror⟩
      exact hsound.rejects hended ⟨call,hcall,herror⟩

/-- The only call of the first worker fails and no other is made. -/
def failingWorker : Nat → Nat → Except String Nat := fun _ _ => .error "refused"

def afterFailure : MapRun Nat Nat String where
  workItems := [⟨1,some 8⟩]
  results := [none,none]
  workers := [.settled (some "refused")]
  calls := [(0,7)]
  outcome := some (.error "refused")

theorem run_failingWorker :
    Machine.run (step failingWorker) [.complete 0,.settle 0]
      (mapWithConcurrency [some 7,some 8] 1) = some afterFailure := rfl

theorem ended_afterFailure : Ended failingWorker afterFailure := by
  intro event
  cases event with
  | complete w => cases w <;> rfl
  | settle w => cases w <;> rfl

theorem mapWithConcurrency_bounded_failing :
    afterFailure.calls <+: allCalls [7,8] ∧
      (afterFailure.workers.countP isRunning : Int) ≤ max 1 1 ∧
      (Ended failingWorker afterFailure →
        (afterFailure.calls = allCalls [7,8] ∨
          afterFailure.workers.length = workerCount 1 [7,8].length ∧
            ∀ p ∈ afterFailure.workers, ∃ e, p = .settled (some e)) ∧
        ((∀ call ∈ afterFailure.calls, ∃ result, failingWorker call.2 call.1 = .ok result) →
          afterFailure.calls = allCalls [7,8] ∧
            ∃ results : List Nat, afterFailure.outcome = some (.ok (results.map some)) ∧
              results.map .ok = [7,8].zipIdx.map fun (value,index) => failingWorker value index) ∧
        ((∃ call ∈ afterFailure.calls, ∃ e, failingWorker call.2 call.1 = .error e) →
          ∃ e, afterFailure.outcome = some (.error e) ∧
            ∃ call ∈ afterFailure.calls, failingWorker call.2 call.1 = .error e)) :=
  mapWithConcurrency_bounded failingWorker [7,8] 1 [.complete 0,.settle 0] afterFailure
    run_failingWorker

/-- With one worker, a failed first call leaves the second value without a call. -/
theorem mapWithConcurrency_leaves_out :
    ¬∀ (events : List MapEvent) (s : MapRun Nat Nat String),
      Machine.run (step failingWorker) events (mapWithConcurrency [some 7,some 8] 1) = some s →
        Ended failingWorker s → s.calls = allCalls [7,8] := by
  intro hall
  have hcalls := hall [.complete 0,.settle 0] afterFailure run_failingWorker ended_afterFailure
  revert hcalls
  decide

end OnlyDoge.Concurrency
