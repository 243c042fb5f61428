import OnlyDoge.Analytics.Queries
import OnlyDoge.Analytics.Sources
import OnlyDoge.Library.Permits
set_option autoImplicit false

/-! The budget of a key, and what reaches the warehouse, while queries overlap. -/

namespace OnlyDoge.Analytics
open Access Interleaving Permits

variable {ι : Type} {env : Environment} {requests : ι → AnalyticsRequest}

/-- A query that holds a slot of its key. -/
def Holding : QueryProgress → Prop
  | .waiting => False
  | .finished _ => False
  | _ => True

def subjectOf (requests : ι → AnalyticsRequest) (i : ι) : String :=
  analyticsBudgetSubject (requests i).apiKeyId

/-- The queries of a key that are under way. -/
def running (requests : ι → AnalyticsRequest) (s : Queries ι) (subject : String) : Set ι :=
  holders Holding (subjectOf requests) s.progress subject

theorem acquireConcurrency_eq_some {subject : String} {active next : String → Option Nat}
    (h : acquireConcurrency subject active = some next) :
    (active subject).getD 0 < analyticsQueryMaxConcurrentRequests ∧
      next = Function.update active subject (some ((active subject).getD 0 + 1)) := by
  unfold acquireConcurrency at h
  simp only at h
  split at h
  · cases h
  · cases h
    exact ⟨by omega,rfl⟩

theorem acquireConcurrency_eq_none {subject : String} {active : String → Option Nat}
    (h : acquireConcurrency subject active = none) :
    analyticsQueryMaxConcurrentRequests ≤ (active subject).getD 0 := by
  unfold acquireConcurrency at h
  simp only at h
  split at h
  · assumption
  · cases h

theorem afterReads_step (i : ι) (window : AnalyticsTimeWindow) (finalizedTail : Int)
    (ready : Option Bool) (factsTail : Option Int) (store : AnalyticsStore ι) :
    Holding (afterReads env requests i window finalizedTail ready factsTail store).1 ∧
      (afterReads env requests i window finalizedTail ready factsTail store).2.activeQueries =
        store.activeQueries := by
  unfold afterReads
  split
  · split
    · simp [Holding]
    · split <;> simp [Holding]
  · simp [Holding]

theorem readReady_step {i : ι} {given : Given} {window : AnalyticsTimeWindow} {finalizedTail : Int}
    {ready : Option (Option Bool)} {factsTail : Option (Option Int)}
    {store store' : AnalyticsStore ι} {p : QueryProgress}
    (h : readReady env requests i given window finalizedTail ready factsTail store =
      some (p,store')) :
    Holding p ∧ store'.activeQueries = store.activeQueries := by
  unfold readReady at h
  split at h
  · cases h
    exact ⟨trivial,rfl⟩
  · rename_i tail _
    have hstep := @afterReads_step _ env requests i window finalizedTail store.factsReady tail store
    rwa [Option.some.inj h] at hstep
  · cases h
    exact ⟨trivial,rfl⟩
  · rename_i ready _
    have hstep := @afterReads_step _ env requests i window finalizedTail ready store.factsTail store
    rwa [Option.some.inj h] at hstep
  · cases h

/-- What a step of a query can do to the slots. -/
inductive SlotStep (requests : ι → AnalyticsRequest) (i : ι) (p p' : QueryProgress)
    (active active' : String → Option Nat) : Prop where
  | refused (hp : p = .waiting) (hp' : ¬Holding p') (hactive : active' = active)
    (hfull : p' = .finished (.error concurrencyExceeded) →
      analyticsQueryMaxConcurrentRequests ≤ (active (subjectOf requests i)).getD 0)
  | acquired (hp : p = .waiting) (hp' : Holding p')
    (hactive : acquireConcurrency (subjectOf requests i) active = some active')
  | kept (hp : Holding p) (hp' : Holding p') (hactive : active' = active)
  | released (result : Except QueryError QueryInfo) (hp : p = .releasing result)
    (hp' : p' = .finished result)
    (hactive : active' = releaseConcurrency (subjectOf requests i) active)

theorem startQuery_slots (i : ι) (now : Int) (store : AnalyticsStore ι) :
    SlotStep requests i .waiting (startQuery env requests i now store).1 store.activeQueries
      (startQuery env requests i now store).2.activeQueries := by
  unfold startQuery
  simp only
  split
  · split
    · rename_i hnone
      exact .refused rfl (by simp [Holding]) rfl fun _ => acquireConcurrency_eq_none hnone
    · rename_i next hnext
      split <;> exact .acquired rfl (by simp [Holding]) hnext
  · exact .refused rfl (by simp [Holding]) rfl
      (by simp [concurrencyExceeded,rateLimitExceeded])

theorem advance_slots {i : ι} {given : Given} {p p' : QueryProgress}
    {store store' : AnalyticsStore ι}
    (h : advance env requests i given p store = some (p',store')) :
    SlotStep requests i p p' store.activeQueries store'.activeQueries := by
  cases p with
  | waiting =>
    have hslots := @startQuery_slots _ env requests i given.now store
    rwa [Option.some.inj h] at hslots
  | readingTail window =>
    simp only [advance] at h
    split at h
    · cases h
      exact .kept trivial trivial rfl
    · split at h <;> cases h <;> exact .kept trivial trivial rfl
  | readingReady window finalizedTail ready factsTail =>
    simp only [advance] at h
    split at h
    · cases h
      exact .kept trivial trivial rfl
    · obtain ⟨hholding,hactive⟩ := readReady_step h
      exact .kept trivial hholding hactive
  | preflighting window sql params =>
    simp only [advance] at h
    split at h
    · cases h
      exact .kept trivial trivial rfl
    · split at h <;> cases h <;> exact .kept trivial trivial rfl
  | executing window sql params estimate =>
    simp only [advance] at h
    split at h <;> cases h <;> exact .kept trivial trivial rfl
  | releasing result =>
    cases h
    exact .released result rfl rfl rfl
  | finished result => cases h

/-- The counters hold the queries under way, exactly, and stay within the limit. -/
def Budgeted (requests : ι → AnalyticsRequest) (s : Queries ι) : Prop :=
  ∀ subject, (running requests s subject).encard = (s.store.activeQueries subject).getD 0 ∧
    (s.store.activeQueries subject).getD 0 ≤ analyticsQueryMaxConcurrentRequests ∧
    s.store.activeQueries subject ≠ some 0

theorem budgeted_started (requests : ι → AnalyticsRequest) (finalizedTail : Option Int)
    (factsReady : Option Bool) (factsTail : Option Int) :
    Budgeted requests (started finalizedTail factsReady factsTail : Queries ι) := by
  intro subject
  have hnobody : running requests (started finalizedTail factsReady factsTail : Queries ι)
      subject = ∅ := by
    ext i
    simp [running,holders,started,Holding]
  rw [hnobody]
  simp [started]

section Runs
variable [DecidableEq ι] {s t : Queries ι} {events : List (Event ι Given Setting)}

theorem Budgeted.step {event : Event ι Given Setting} (hs : Budgeted requests s)
    (hstep : step env requests event s = some t) : Budgeted requests t := by
  cases event with
  | outside setting =>
    obtain ⟨store,hstore,rfl⟩ := step_outside.mp hstep
    cases setting <;> cases hstore <;> exact hs
  | call i given =>
    obtain ⟨p,store,hadvance,rfl⟩ := step_call.mp hstep
    intro subject
    obtain ⟨hcount,hmax,hzero⟩ := hs subject
    cases advance_slots hadvance with
    | refused hp hp' hactive _ =>
      rw [hactive]
      refine ⟨?_,hmax,hzero⟩
      unfold running
      rw [holders_update_of_iff]
      · exact hcount
      · rw [hp]
        exact iff_of_false hp' (fun h => h)
    | kept hp hp' hactive =>
      rw [hactive]
      refine ⟨?_,hmax,hzero⟩
      unfold running
      rw [holders_update_of_iff (iff_of_true hp' hp)]
      exact hcount
    | acquired hp hp' hactive =>
      obtain ⟨hroom,hnext⟩ := acquireConcurrency_eq_some hactive
      rw [hnext]
      by_cases hsubject : subjectOf requests i = subject
      · subst hsubject
        have hgrow := encard_holders_acquire (by rw [hp]; exact fun h => h) hp' hcount
        refine ⟨?_,?_,?_⟩
        · unfold running
          rw [hgrow]
          simp
        · simp
          omega
        · simp
      · unfold running
        rw [holders_update_of_ne hsubject,Function.update_of_ne (Ne.symm hsubject)]
        exact ⟨hcount,hmax,hzero⟩
    | released result hp hp' hactive =>
      rw [hactive]
      by_cases hsubject : subjectOf requests i = subject
      · subst hsubject
        have hover : ¬Holding p := by
          rw [hp']
          exact fun h => h
        obtain ⟨hpos,hshrink⟩ := encard_holders_release (by rw [hp]; trivial) hover hcount
        unfold releaseConcurrency
        split
        · rename_i hone
          have hlast : (s.store.activeQueries (subjectOf requests i)).getD 0 - 1 = 0 := by omega
          refine ⟨?_,by simp,by simp⟩
          unfold running
          rw [hshrink,hlast]
          simp
        · rename_i hmore
          refine ⟨?_,?_,?_⟩
          · unfold running
            rw [hshrink]
            simp
          · simp
            omega
          · simp
            omega
      · have hother : releaseConcurrency (subjectOf requests i) s.store.activeQueries subject =
            s.store.activeQueries subject := by
          unfold releaseConcurrency
          split <;> rw [Function.update_of_ne (Ne.symm hsubject)]
        unfold running
        rw [holders_update_of_ne hsubject,hother]
        exact ⟨hcount,hmax,hzero⟩

theorem budgeted_run {finalizedTail : Option Int} {factsReady : Option Bool}
    {factsTail : Option Int} (hrun : Machine.run (step env requests) events
      (started finalizedTail factsReady factsTail) = some s) : Budgeted requests s :=
  Machine.run_invariant (fun _ _ _ hs hstep => Budgeted.step hs hstep)
    (budgeted_started requests finalizedTail factsReady factsTail) hrun

/-- However queries overlap, fail or are refused, a key has at most two of them under way, its
counter is the number of these (a query gives its slot back, once, whatever its end is), and a
query is refused for the others only when there are two. -/
theorem query_slots {finalizedTail : Option Int} {factsReady : Option Bool}
    {factsTail : Option Int} (hrun : Machine.run (step env requests) events
      (started finalizedTail factsReady factsTail) = some s) :
    (∀ subject, (running requests s subject).encard ≤ analyticsQueryMaxConcurrentRequests ∧
      (running requests s subject).encard = (s.store.activeQueries subject).getD 0) ∧
    ∀ i given t, step env requests (.call i given) s = some t →
      t.progress i = .finished (.error concurrencyExceeded) → s.progress i = .waiting →
      (running requests s (subjectOf requests i)).encard =
        analyticsQueryMaxConcurrentRequests := by
  have hs := budgeted_run hrun
  refine ⟨fun subject => ?_,fun i given t hstep hrefused hwaiting => ?_⟩
  · obtain ⟨hcount,hmax,-⟩ := hs subject
    refine ⟨?_,hcount⟩
    rw [hcount]
    exact_mod_cast hmax
  · obtain ⟨p,store,hadvance,rfl⟩ := step_call.mp hstep
    obtain ⟨hcount,hmax,-⟩ := hs (subjectOf requests i)
    simp only [Function.update_self] at hrefused
    rw [hcount]
    cases advance_slots hadvance with
    | refused _ _ _ hfull =>
      have := hfull hrefused
      exact_mod_cast le_antisymm hmax this
    | acquired _ hp' _ =>
      rw [hrefused] at hp'
      exact hp'.elim
    | kept hp _ _ =>
      rw [hwaiting] at hp
      exact hp.elim
    | released result hp _ _ =>
      rw [hwaiting] at hp
      cases hp

/-- An environment in which one query over the balances is asked, of the first minute. -/
def balancesEnvironment : Environment where
  parser := balancesParser .null "select::null::analytics_balances_current_v1"
  number text := if text = "60" then some 60 else if text = "0" then some 0 else none
  dateParse _ := none
  sha256 := String.ofList

def balancesRequest : AnalyticsRequest := ⟨7,⟨boundedBalances,"0","60",none⟩⟩

def answeredAt (now : Int) (factsFirst : Bool) : Event Unit Given Setting :=
  .call () ⟨now,false,factsFirst,⟨none,none⟩⟩

inductive Asker where
  | first
  | second
  | third
  deriving DecidableEq

def firstMinute : Given := ⟨0,false,false,⟨none,none⟩⟩

/-- Two of three queries of one subject have taken the slots. -/
def twoUnderWay : List (Event Asker Given Setting) :=
  [.call .first firstMinute,.call .second firstMinute]

def thirdQuery : Event Asker Given Setting := .call .third firstMinute

def refusal : QueryProgress → Option QueryError
  | .finished (.error e) => some e
  | _ => none

def isWaiting : QueryProgress → Bool
  | .waiting => true
  | _ => false

theorem query_slots_of_three : ∃ s t,
    Machine.run (step balancesEnvironment fun _ : Asker => balancesRequest) twoUnderWay
      (started (some 5) (some true) (some 5)) = some s ∧
    step balancesEnvironment (fun _ => balancesRequest) thirdQuery s = some t ∧
    t.progress .third = .finished (.error concurrencyExceeded) ∧
    (running (fun _ => balancesRequest) s "analytics:7").encard =
      (s.store.activeQueries "analytics:7").getD 0 ∧
    (running (fun _ => balancesRequest) s "analytics:7").encard =
      analyticsQueryMaxConcurrentRequests := by
  have hrun : ((Machine.run (step balancesEnvironment fun _ : Asker => balancesRequest) twoUnderWay
      (started (some 5) (some true) (some 5))).bind fun s =>
        (step balancesEnvironment (fun _ => balancesRequest) thirdQuery s).map fun t =>
          (isWaiting (s.progress .third),refusal (t.progress .third))) =
        some (true,some concurrencyExceeded) := by decide +kernel
  obtain ⟨s,hs,hstep⟩ := Option.bind_eq_some_iff.mp hrun
  obtain ⟨t,ht,hstates⟩ := Option.map_eq_some_iff.mp hstep
  obtain ⟨hs2,ht2⟩ := Prod.mk.inj hstates
  have hwaiting : s.progress .third = .waiting := by
    cases h : s.progress .third <;> simp_all [isWaiting]
  have hrefused : t.progress .third = .finished (.error concurrencyExceeded) := by
    cases h : t.progress .third with
    | finished result => cases result <;> simp_all [refusal]
    | _ => simp [h,refusal] at ht2
  obtain ⟨hslots,hfull⟩ := query_slots hs
  exact ⟨s,t,hs,ht,hrefused,(hslots _).2,hfull .third _ t ht hrefused hwaiting⟩

/-- The store was at some time in the run as `P` says. -/
def Passed (env : Environment) (requests : ι → AnalyticsRequest) (start : Queries ι)
    (events : List (Event ι Given Setting)) (P : AnalyticsStore ι → Prop) : Prop :=
  ∃ passed ahead u, events = passed ++ ahead ∧
    Machine.run (step env requests) passed start = some u ∧ P u.store

variable {start : Queries ι} {P : AnalyticsStore ι → Prop}

theorem Passed.snoc (h : Passed env requests start events P) (event : Event ι Given Setting) :
    Passed env requests start (events ++ [event]) P := by
  obtain ⟨passed,ahead,u,rfl,hu,hP⟩ := h
  exact ⟨passed,ahead ++ [event],u,by simp,hu,hP⟩

theorem Passed.now (hrun : Machine.run (step env requests) events start = some s)
    (hP : P s.store) : Passed env requests start events P :=
  ⟨events,[],s,by simp,hrun,hP⟩

/-- A query that has passed every check before its preflight, with the settings that it read. -/
def Cleared (env : Environment) (requests : ι → AnalyticsRequest) (start : Queries ι)
    (events : List (Event ι Given Setting)) (i : ι) (sql : List Char) (params : QueryParams) :
    Prop :=
  ∃ window tail facts, parseTimeWindow env (requests i).input = .ok window ∧
    checkedQuery env window tail (requests i).input = .ok (sql,params) ∧ tail ≤ facts ∧
    Passed env requests start events (·.finalizedTail = some tail) ∧
    Passed env requests start events (·.factsReady = some true) ∧
    Passed env requests start events (·.factsTail = some facts)

theorem Cleared.snoc {i : ι} {sql : List Char} {params : QueryParams}
    (h : Cleared env requests start events i sql params) (event : Event ι Given Setting) :
    Cleared env requests start (events ++ [event]) i sql params := by
  obtain ⟨window,tail,facts,hwindow,hchecked,hle,htail,hready,hfacts⟩ := h
  exact ⟨window,tail,facts,hwindow,hchecked,hle,htail.snoc event,hready.snoc event,
    hfacts.snoc event⟩

/-- What a query has found out when it has come so far. -/
def Knows (env : Environment) (requests : ι → AnalyticsRequest) (start : Queries ι)
    (events : List (Event ι Given Setting)) (sent : List (Sent ι)) (i : ι) :
    QueryProgress → Prop
  | .readingTail window => parseTimeWindow env (requests i).input = .ok window
  | .readingReady window tail ready factsTail =>
    parseTimeWindow env (requests i).input = .ok window ∧
      Passed env requests start events (·.finalizedTail = some tail) ∧
      (∀ value, ready = some value → Passed env requests start events (·.factsReady = value)) ∧
      ∀ value, factsTail = some value → Passed env requests start events (·.factsTail = value)
  | .preflighting _ sql params =>
    Cleared env requests start events i sql params ∧ ⟨i,.preflight,sql,params⟩ ∈ sent
  | _ => True

/-- Every query that was sent was cleared, and executed only after its preflight. -/
def Screened (env : Environment) (requests : ι → AnalyticsRequest) (start : Queries ι)
    (events : List (Event ι Given Setting)) (sent : List (Sent ι)) : Prop :=
  ∀ before message after, sent = before ++ message::after →
    Cleared env requests start events message.sender message.sql message.params ∧
    (message.call = .execute → ⟨message.sender,.preflight,message.sql,message.params⟩ ∈ before)

theorem Knows.mono {sent more : List (Sent ι)} {i : ι} {p : QueryProgress}
    (h : Knows env requests start events sent i p) (event : Event ι Given Setting) :
    Knows env requests start (events ++ [event]) (sent ++ more) i p := by
  cases p with
  | readingReady window tail ready factsTail =>
    obtain ⟨hwindow,htail,hready,hfacts⟩ := h
    exact ⟨hwindow,htail.snoc event,fun value hvalue => (hready value hvalue).snoc event,
      fun value hvalue => (hfacts value hvalue).snoc event⟩
  | preflighting window sql params =>
    exact ⟨h.1.snoc event,List.mem_append_left _ h.2⟩
  | _ => exact h

theorem Screened.snoc {sent : List (Sent ι)} (h : Screened env requests start events sent)
    (event : Event ι Given Setting) : Screened env requests start (events ++ [event]) sent := by
  intro before message after heq
  obtain ⟨hcleared,hpreflight⟩ := h before message after heq
  exact ⟨hcleared.snoc event,hpreflight⟩

theorem Screened.append {sent : List (Sent ι)} {message : Sent ι}
    (h : Screened env requests start events sent)
    (hcleared : Cleared env requests start events message.sender message.sql message.params)
    (hpreflight : message.call = .execute →
      ⟨message.sender,.preflight,message.sql,message.params⟩ ∈ sent) :
    Screened env requests start events (sent ++ [message]) := by
  intro before other after heq
  obtain ⟨rfl,rfl,rfl⟩ | ⟨rest,rfl,rfl⟩ := Machine.snoc_eq_append_cons heq
  · exact ⟨hcleared,hpreflight⟩
  · exact h before other rest rfl

/-- What a step of a query `i` leaves: what it knows, and what has been sent. -/
def StepScreened (env : Environment) (requests : ι → AnalyticsRequest) (start : Queries ι)
    (events : List (Event ι Given Setting)) (sent : List (Sent ι)) (i : ι) (p : QueryProgress)
    (store : AnalyticsStore ι) : Prop :=
  (∃ more, store.sent = sent ++ more) ∧ Knows env requests start events store.sent i p ∧
    Screened env requests start events store.sent

theorem StepScreened.same {sent : List (Sent ι)} {i : ι} {p : QueryProgress}
    {store : AnalyticsStore ι} (hsent : store.sent = sent)
    (hknows : Knows env requests start events sent i p)
    (hscreened : Screened env requests start events sent) :
    StepScreened env requests start events sent i p store := by
  refine ⟨⟨[],by simp [hsent]⟩,?_,?_⟩ <;> rw [hsent] <;> assumption

theorem startQuery_screened {i : ι} {now : Int} {store : AnalyticsStore ι}
    (hscreened : Screened env requests start events store.sent) :
    StepScreened env requests start events store.sent i (startQuery env requests i now store).1
      (startQuery env requests i now store).2 := by
  unfold startQuery
  simp only
  split
  · split
    · exact .same rfl trivial hscreened
    · split
      · exact .same rfl trivial hscreened
      · rename_i window hwindow
        exact .same rfl hwindow hscreened
  · exact .same rfl trivial hscreened

theorem afterReads_screened {i : ι} {window : AnalyticsTimeWindow} {tail : Int}
    {ready : Option Bool} {factsTail : Option Int} {store : AnalyticsStore ι}
    (hscreened : Screened env requests start events store.sent)
    (hwindow : parseTimeWindow env (requests i).input = .ok window)
    (htail : Passed env requests start events (·.finalizedTail = some tail))
    (hready : Passed env requests start events (·.factsReady = ready))
    (hfacts : Passed env requests start events (·.factsTail = factsTail)) :
    StepScreened env requests start events store.sent i
      (afterReads env requests i window tail ready factsTail store).1
      (afterReads env requests i window tail ready factsTail store).2 := by
  unfold afterReads
  split
  · split
    · exact .same rfl trivial hscreened
    · rename_i facts hle
      split
      · exact .same rfl trivial hscreened
      · rename_i sql params hchecked
        have hcleared : Cleared env requests start events i sql params :=
          ⟨window,tail,facts,hwindow,hchecked,not_lt.mp hle,htail,hready,hfacts⟩
        refine ⟨⟨_,rfl⟩,⟨hcleared,by simp⟩,hscreened.append hcleared ?_⟩
        simp
  · exact .same rfl trivial hscreened

theorem readReady_screened {i : ι} {given : Given} {window : AnalyticsTimeWindow} {tail : Int}
    {ready : Option (Option Bool)} {factsTail : Option (Option Int)}
    {store store' : AnalyticsStore ι} {p : QueryProgress}
    (hscreened : Screened env requests start events store.sent)
    (hknows : Knows env requests start events store.sent i
      (.readingReady window tail ready factsTail))
    (hready : Passed env requests start events (·.factsReady = store.factsReady))
    (hfacts : Passed env requests start events (·.factsTail = store.factsTail))
    (h : readReady env requests i given window tail ready factsTail store = some (p,store')) :
    StepScreened env requests start events store.sent i p store' := by
  obtain ⟨hwindow,htail,hreadyRead,hfactsRead⟩ := hknows
  unfold readReady at h
  split at h
  · cases h
    refine .same rfl ⟨hwindow,htail,?_,by simp⟩ hscreened
    intro value hvalue
    cases hvalue
    exact hready
  · rename_i facts _
    have hstep := @afterReads_screened _ env requests _ events start i window tail _ facts store
      hscreened hwindow htail hready (hfactsRead facts rfl)
    rwa [Option.some.inj h] at hstep
  · cases h
    refine .same rfl ⟨hwindow,htail,by simp,?_⟩ hscreened
    intro value hvalue
    cases hvalue
    exact hfacts
  · rename_i value _
    have hstep := @afterReads_screened _ env requests _ events start i window tail value _ store
      hscreened hwindow htail (hreadyRead value rfl) hfacts
    rwa [Option.some.inj h] at hstep
  · cases h

theorem advance_screened {i : ι} {given : Given} {store : AnalyticsStore ι} {p : QueryProgress}
    (hknows : Knows env requests start events s.store.sent i (s.progress i))
    (hscreened : Screened env requests start events s.store.sent)
    (hnow : ∀ Q : AnalyticsStore ι → Prop, Q s.store → Passed env requests start events Q)
    (h : advance env requests i given (s.progress i) s.store = some (p,store)) :
    StepScreened env requests start events s.store.sent i p store := by
  cases hp : s.progress i with
  | waiting =>
    rw [hp] at h
    have hstep := @startQuery_screened _ env requests _ events start i given.now s.store hscreened
    rwa [Option.some.inj h] at hstep
  | readingTail window =>
    rw [hp] at h hknows
    simp only [advance] at h
    split at h
    · cases h
      exact .same rfl trivial hscreened
    · split at h
      · cases h
        exact .same rfl trivial hscreened
      · rename_i tail htail
        cases h
        exact .same rfl ⟨hknows,hnow _ htail,by simp,by simp⟩ hscreened
  | readingReady window tail ready factsTail =>
    rw [hp] at h hknows
    simp only [advance] at h
    split at h
    · cases h
      exact .same rfl trivial hscreened
    · exact readReady_screened hscreened hknows (hnow _ rfl) (hnow _ rfl) h
  | preflighting window sql params =>
    rw [hp] at h hknows
    simp only [advance] at h
    split at h
    · cases h
      exact .same rfl trivial hscreened
    · split at h
      · cases h
        exact .same rfl trivial hscreened
      · cases h
        exact ⟨⟨_,rfl⟩,trivial,hscreened.append hknows.1 fun _ => hknows.2⟩
  | executing window sql params estimate =>
    rw [hp] at h
    simp only [advance] at h
    split at h <;> cases h <;> exact .same rfl trivial hscreened
  | releasing result =>
    rw [hp] at h
    cases h
    exact .same rfl trivial hscreened
  | finished result =>
    rw [hp] at h
    cases h

/-- What holds along a run: every query knows what it has read, and all that was sent is
screened. -/
theorem screened_run (hstart : start.store.sent = [] ∧ ∀ i, start.progress i = .waiting)
    (hrun : Machine.run (step env requests) events start = some s) :
    Screened env requests start events s.store.sent ∧
      ∀ i, Knows env requests start events s.store.sent i (s.progress i) := by
  refine @Machine.run_history _ _ _ start s events
    (fun events s => Screened env requests start events s.store.sent ∧
      ∀ i, Knows env requests start events s.store.sent i (s.progress i)) ?_ ?_ hrun
  · refine ⟨fun before message after heq => ?_,fun i => ?_⟩
    · rw [hstart.1] at heq
      simp at heq
    · rw [hstart.2 i]
      trivial
  · intro passed event u v hu ⟨hscreened,hknows⟩ hstep
    have hlater := hscreened.snoc event
    cases event with
    | outside setting =>
      obtain ⟨store,hstore,rfl⟩ := step_outside.mp hstep
      have hsent : store.sent = u.store.sent := by cases setting <;> cases hstore <;> rfl
      refine ⟨by rw [hsent]; exact hlater,fun i => ?_⟩
      have hsame : Knows env requests start (passed ++ [.outside setting]) (u.store.sent ++ []) i
          (u.progress i) := (hknows i).mono _
      rwa [List.append_nil,← hsent] at hsame
    | call i given =>
      obtain ⟨p,store,hadvance,rfl⟩ := step_call.mp hstep
      have hown : Knows env requests start (passed ++ [.call i given]) u.store.sent i
          (u.progress i) := by
        have hsame : Knows env requests start (passed ++ [.call i given]) (u.store.sent ++ []) i
            (u.progress i) := (hknows i).mono _
        rwa [List.append_nil] at hsame
      obtain ⟨⟨more,hmore⟩,hknow,hscreen⟩ := advance_screened hown hlater
        (fun Q hQ => (Passed.now hu hQ).snoc _) hadvance
      refine ⟨hscreen,fun j => ?_⟩
      by_cases hj : j = i
      · subst hj
        simpa using hknow
      · simp only [Function.update_of_ne hj]
        rw [hmore]
        exact (hknows j).mono _

theorem parseTimeWindow_ok {input : AnalyticsQueryInput} {window : AnalyticsTimeWindow}
    (h : parseTimeWindow env input = .ok window) : window.fromTime < window.toTime ∧
      window.toTime ≤ window.fromTime + analyticsQueryMaxWindowSeconds := by
  unfold parseTimeWindow at h
  cases hfrom : parseTimestampSeconds env input.fromText "from" with
  | error error => simp [hfrom,bind,Except.bind] at h
  | ok fromTime =>
    cases hto : parseTimestampSeconds env input.toText "to" with
    | error error => simp [hfrom,hto,bind,Except.bind] at h
    | ok toTime =>
      by_cases horder : toTime ≤ fromTime
      · simp [hfrom,hto,horder,bind,Except.bind,throw,throwThe,MonadExceptOf.throw] at h
      by_cases hlong : toTime - fromTime > analyticsQueryMaxWindowSeconds
      · simp [hfrom,hto,horder,hlong,bind,Except.bind,throw,throwThe,
          MonadExceptOf.throw] at h
      cases hfromIso : isoText fromTime with
      | error error => simp [hfrom,hto,horder,hlong,hfromIso,bind,Except.bind] at h
      | ok fromIso =>
        cases htoIso : isoText toTime with
        | error error =>
          simp [hfrom,hto,horder,hlong,hfromIso,htoIso,bind,Except.bind] at h
        | ok toIso =>
          simp only [hfrom,hto,horder,hlong,hfromIso,htoIso,bind,Except.bind,pure,Except.pure,
            if_false,Except.ok.injEq] at h
          subst h
          simp only
          omega

theorem boundedLimit_ok {limit : Option Int} {value : Int} (h : boundedLimit limit = .ok value) :
    1 ≤ value ∧ value ≤ analyticsQueryMaxResultRows := by
  cases limit with
  | none =>
    cases h
    decide
  | some limit =>
    simp only [boundedLimit] at h
    split at h
    · cases h
    · cases h
      omega

theorem checkedQuery_ok {window : AnalyticsTimeWindow} {tail : Int} {input : AnalyticsQueryInput}
    {sql : List Char} {params : QueryParams}
    (h : checkedQuery env window tail input = .ok (sql,params)) :
    validateAnalyticsSql env.parser input.sql = .ok sql ∧ params.fromTime = window.fromTime ∧
      params.toTime = window.toTime ∧ params.maxFinalizedHeight = tail ∧ 1 ≤ params.limit ∧
      params.limit ≤ analyticsQueryMaxResultRows := by
  unfold checkedQuery at h
  split at h
  · cases h
  · rename_i text hvalid
    cases hlimit : boundedLimit input.limit with
    | error error => simp [analyticsQueryParams,hlimit,bind,Except.bind] at h
    | ok limit =>
      have hbounds := boundedLimit_ok hlimit
      simp only [analyticsQueryParams,hlimit,bind,Except.bind,pure,Except.pure,Except.ok.injEq,
        Prod.mk.injEq] at h
      obtain ⟨rfl,rfl⟩ := h
      exact ⟨hvalid,rfl,rfl,rfl,hbounds⟩

/-- Whatever queries overlap and whenever the settings change, the warehouse gets only queries that
the guard let through, over a span of at most seven days and for at most a thousand rows, bounded by
a finalized tail that the indexer had published and that the facts had reached; and it executes
one only after its own preflight. -/
theorem sent_is_guarded {finalizedTail : Option Int} {factsReady : Option Bool}
    {factsTail : Option Int} (hrun : Machine.run (step env requests) events
      (started finalizedTail factsReady factsTail) = some s) {before after : List (Sent ι)}
    {message : Sent ι} (hsent : s.store.sent = before ++ message::after) :
    validateAnalyticsSql env.parser (requests message.sender).input.sql = .ok message.sql ∧
      message.params.fromTime < message.params.toTime ∧
      message.params.toTime ≤ message.params.fromTime + analyticsQueryMaxWindowSeconds ∧
      1 ≤ message.params.limit ∧ message.params.limit ≤ analyticsQueryMaxResultRows ∧
      Passed env requests (started finalizedTail factsReady factsTail) events
        (·.finalizedTail = some message.params.maxFinalizedHeight) ∧
      Passed env requests (started finalizedTail factsReady factsTail) events
        (·.factsReady = some true) ∧
      (∃ facts, message.params.maxFinalizedHeight ≤ facts ∧
        Passed env requests (started finalizedTail factsReady factsTail) events
          (·.factsTail = some facts)) ∧
      (message.call = .execute →
        ⟨message.sender,.preflight,message.sql,message.params⟩ ∈ before) := by
  obtain ⟨hscreened,-⟩ := screened_run ⟨rfl,fun _ => rfl⟩ hrun
  obtain ⟨⟨window,tail,facts,hwindow,hchecked,hle,htail,hready,hfacts⟩,hpreflight⟩ :=
    hscreened before message after hsent
  obtain ⟨horder,hspan⟩ := parseTimeWindow_ok hwindow
  obtain ⟨hvalid,hfrom,hto,hheight,hone,hmost⟩ := checkedQuery_ok hchecked
  refine ⟨hvalid,by omega,by omega,hone,hmost,?_,hready,⟨facts,by omega,hfacts⟩,hpreflight⟩
  rw [hheight]
  exact htail

theorem sent_is_guarded_of_balances : ∃ s message,
    Machine.run (step balancesEnvironment fun _ => balancesRequest)
      [answeredAt 0 false,answeredAt 1 false,answeredAt 2 true,answeredAt 3 false]
      (started (some 5) (some true) (some 5)) = some s ∧ s.store.sent = [message] ∧
    validateAnalyticsSql balancesEnvironment.parser boundedBalances = .ok message.sql ∧
    message.params.maxFinalizedHeight = 5 ∧ message.params.fromTime < message.params.toTime := by
  have hrun : (Machine.run (step balancesEnvironment fun _ => balancesRequest)
      [answeredAt 0 false,answeredAt 1 false,answeredAt 2 true,answeredAt 3 false]
      (started (some 5) (some true) (some 5))).map
        (fun s => s.store.sent.map fun message => message.params.maxFinalizedHeight) =
          some [5] := by decide +kernel
  obtain ⟨s,hs,hsent⟩ := Option.map_eq_some_iff.mp hrun
  obtain ⟨message,hmessage,hheight⟩ := List.map_eq_singleton_iff.mp hsent
  obtain ⟨hvalid,horder,-⟩ := @sent_is_guarded _ _ _ _ _ _ _ _ _ hs [] [] message hmessage
  exact ⟨s,message,hs,hmessage,hvalid,hheight,horder⟩

end Runs
end OnlyDoge.Analytics
