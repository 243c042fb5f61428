import OnlyDoge.Explorer.MempoolCache
import OnlyDoge.Library.Spacing
import Mathlib.Algebra.Order.Ring.Int
set_option autoImplicit false

/-! What explorer requests are answered from the cache of the mempool, in any order of steps. -/

namespace OnlyDoge.Explorer
open Interleaving

variable {ι σ : Type} {i : ι} {outcome : Except String σ} {progress p : RequestProgress ι σ}
variable {store st : CacheStore ι σ}

/-- The load of the promise was started less than a second before the clock showed `now`. -/
def WithinTtl (store : CacheStore ι σ) (now : Int) (promise : ι) : Prop :=
  ∃ load ∈ store.loads, load.request = promise ∧ now < load.startedAt + mempoolCacheTtlMs

/-- Where a request stands. -/
def Placed (i : ι) : RequestProgress ι σ → CacheStore ι σ → Prop
  | .waiting,store => i ∉ store.loads.map (·.request)
  | .loading now,store => ⟨i,now⟩ ∈ store.loads ∧ ∀ settled ∈ store.settled, settled.promise ≠ i
  | .failing now _,store =>
    ⟨i,now⟩ ∈ store.loads ∧ ∀ settled ∈ store.settled, settled.promise ≠ i
  | .awaiting now promise,store =>
    i ∉ store.loads.map (·.request) ∧ WithinTtl store now promise
  | .answered now promise result,store =>
    ⟨promise,result⟩ ∈ store.settled ∧ WithinTtl store now promise ∧
      (i ∈ store.loads.map (·.request) → promise = i)

/-- A store in which more has happened, none of it by `i`. -/
structure Later (i : ι) (store st : CacheStore ι σ) : Prop where
  loads : ∃ more, st.loads = store.loads ++ more ∧ ∀ load ∈ more, load.request ≠ i
  settled : ∃ more, st.settled = store.settled ++ more ∧ ∀ settled ∈ more, settled.promise ≠ i

theorem WithinTtl.later {now : Int} {promise : ι} (h : WithinTtl store now promise)
    (hlater : Later i store st) : WithinTtl st now promise := by
  obtain ⟨load,hload,hrest⟩ := h
  obtain ⟨more,hmore,-⟩ := hlater.loads
  exact ⟨load,hmore ▸ List.mem_append_left _ hload,hrest⟩

theorem Placed.later (h : Placed i progress store) (hlater : Later i store st) :
    Placed i progress st := by
  obtain ⟨loads,hloads,hnotStarted⟩ := hlater.loads
  obtain ⟨settled,hsettled,hnotSettled⟩ := hlater.settled
  have hids (hi : i ∉ store.loads.map (·.request)) : i ∉ st.loads.map (·.request) := by
    rw [hloads,List.map_append,List.mem_append,not_or]
    refine ⟨hi,fun hmem => ?_⟩
    obtain ⟨load,hload,heq⟩ := List.mem_map.mp hmem
    exact hnotStarted load hload heq
  have hopen {now : Int} (hi : (⟨i,now⟩ : MempoolLoad ι) ∈ store.loads ∧
      ∀ settled ∈ store.settled, settled.promise ≠ i) :
      (⟨i,now⟩ : MempoolLoad ι) ∈ st.loads ∧ ∀ settled ∈ st.settled, settled.promise ≠ i := by
    rw [hloads,hsettled]
    refine ⟨List.mem_append_left _ hi.1,fun other hother => ?_⟩
    rcases List.mem_append.mp hother with hother | hother
    · exact hi.2 other hother
    · exact hnotSettled other hother
  cases progress with
  | waiting => exact hids h
  | loading now => exact hopen h
  | failing now error => exact hopen h
  | awaiting now promise => exact ⟨hids h.1,h.2.later hlater⟩
  | answered now promise result =>
    refine ⟨hsettled ▸ List.mem_append_left _ h.1,h.2.1.later hlater,fun hi => h.2.2 ?_⟩
    exact not_not.mp fun hnot => hids hnot hi

theorem later_refl (i : ι) (store : CacheStore ι σ) : Later i store store :=
  ⟨⟨[],by simp,by simp⟩,⟨[],by simp,by simp⟩⟩

theorem later_startLoad {j : ι} (h : j ≠ i) : Later j store (store.startLoad i) :=
  ⟨⟨[⟨i,store.now⟩],rfl,by simpa using h.symm⟩,⟨[],by simp [CacheStore.startLoad],by simp⟩⟩

theorem later_settle {j : ι} (h : j ≠ i) (hloads : st.loads = store.loads)
    (hsettled : st.settled = store.settled) (result : Except String σ) :
    Later j store (st.settle i result) :=
  ⟨⟨[],by simp [CacheStore.settle,hloads],by simp⟩,
    ⟨[⟨i,result⟩],by simp [CacheStore.settle,hsettled],by simpa using h.symm⟩⟩

variable [DecidableEq ι]

/-- The ways in which a request goes on. -/
inductive Advanced (i : ι) (outcome : Except String σ) (progress : RequestProgress ι σ)
    (store : CacheStore ι σ) : RequestProgress ι σ → CacheStore ι σ → Prop where
  | join (cached : MempoolCacheEntry ι) (hp : progress = .waiting)
      (hfresh : store.fresh = some cached) :
      Advanced i outcome progress store (.awaiting store.now cached.promise) store
  | start (hp : progress = .waiting) (hstale : store.fresh = none) :
      Advanced i outcome progress store (.loading store.now) (store.startLoad i)
  | keep (now : Int) (snapshot : σ) (hp : progress = .loading now) (ho : outcome = .ok snapshot) :
      Advanced i outcome progress store (.answered now i (.ok snapshot))
        (store.settle i (.ok snapshot))
  | fail (now : Int) (error : String) (hp : progress = .loading now)
      (ho : outcome = .error error) : Advanced i outcome progress store (.failing now error) store
  | reject (now : Int) (error : String) (hp : progress = .failing now error) :
      Advanced i outcome progress store (.answered now i (.error error))
        ((store.deleteMempoolSnapshotIfCurrent i).settle i (.error error))
  | receive (now : Int) (settled : Settled ι σ) (hp : progress = .awaiting now settled.promise)
      (hmem : settled ∈ store.settled) :
      Advanced i outcome progress store (.answered now settled.promise settled.result) store

theorem advanced (h : advance i outcome progress store = some (p,st)) :
    Advanced i outcome progress store p st := by
  unfold advance at h
  cases progress with
  | waiting =>
    cases hfresh : store.fresh with
    | some cached =>
      simp only [hfresh] at h
      cases h
      exact .join cached rfl hfresh
    | none =>
      simp only [hfresh] at h
      cases h
      exact .start rfl hfresh
  | loading now =>
    cases outcome with
    | ok snapshot =>
      cases h
      exact .keep now snapshot rfl rfl
    | error error =>
      cases h
      exact .fail now error rfl rfl
  | failing now error =>
    cases h
    exact .reject now error rfl
  | awaiting now promise =>
    obtain ⟨settled,hfind,heq⟩ := Option.map_eq_some_iff.mp h
    cases heq
    obtain rfl : settled.promise = promise := by simpa using List.find?_some hfind
    exact .receive now settled rfl (List.mem_of_find?_eq_some hfind)
  | answered now promise result => cases h

@[simp] theorem rejected_iff {promise : ι} : store.rejected promise = true ↔
    ∃ error, ⟨promise,.error error⟩ ∈ store.settled := by
  unfold CacheStore.rejected
  rw [List.any_eq_true]
  constructor
  · rintro ⟨⟨other,result⟩,hmem,hkey⟩
    simp only [Bool.and_eq_true,decide_eq_true_eq] at hkey
    obtain ⟨rfl,hfailed⟩ := hkey
    cases result with
    | error error => exact ⟨error,hmem⟩
    | ok snapshot => cases hfailed
  · rintro ⟨error,hmem⟩
    exact ⟨_,hmem,by simp [Except.isOk,Except.toBool]⟩

/-- The entry is that of the last load, unless that has been rejected. -/
structure Cached (store : CacheStore ι σ) : Prop where
  ids : (store.loads.map (·.request)).Nodup
  known : ∀ settled ∈ store.settled, settled.promise ∈ store.loads.map (·.request)
  empty : store.mempoolSnapshots = none →
    ∀ last ∈ store.loads.getLast?, store.rejected last.request = true
  latest : ∀ entry ∈ store.mempoolSnapshots, ∃ last ∈ store.loads.getLast?,
    entry.promise = last.request ∧ entry.expiresAtMs = last.startedAt + mempoolCacheTtlMs ∧
      store.rejected last.request = false

theorem Advanced.later (h : Advanced i outcome progress store p st) {j : ι} (hj : j ≠ i) :
    Later j store st := by
  cases h with
  | join => exact later_refl j _
  | start => exact later_startLoad hj
  | keep => exact later_settle hj rfl rfl _
  | fail => exact later_refl j _
  | reject => refine later_settle hj ?_ ?_ _ <;> rfl
  | receive => exact later_refl j _

@[simp] theorem rejected_settle (promise other : ι) (result : Except String σ) :
    (store.settle promise result).rejected other =
      (store.rejected other || (decide (promise = other) && !result.isOk)) := by
  simp [CacheStore.rejected,CacheStore.settle]

@[simp] theorem rejected_delete (promise other : ι) :
    (store.deleteMempoolSnapshotIfCurrent promise).rejected other = store.rejected other := rfl

@[simp] theorem rejected_startLoad (request other : ι) :
    (store.startLoad request).rejected other = store.rejected other := rfl

theorem rejected_of_unknown {promise : ι}
    (h : ∀ settled ∈ store.settled, settled.promise ≠ promise) :
    store.rejected promise = false := by
  rw [Bool.eq_false_iff,ne_eq,rejected_iff]
  rintro ⟨error,hmem⟩
  exact h _ hmem rfl

theorem Cached.fresh (h : Cached store) {cached : MempoolCacheEntry ι}
    (hfresh : store.fresh = some cached) : ∃ last ∈ store.loads.getLast?,
      cached.promise = last.request ∧ store.now < last.startedAt + mempoolCacheTtlMs ∧
        store.rejected last.request = false := by
  obtain ⟨hentry,hnow⟩ := Option.filter_eq_some_iff.mp hfresh
  obtain ⟨last,hlast,hpromise,hexpires,hrejected⟩ := h.latest cached hentry
  refine ⟨last,hlast,hpromise,?_,hrejected⟩
  rw [← hexpires]
  exact of_decide_eq_true hnow

theorem Cached.startLoad (h : Cached store) (hi : i ∉ store.loads.map (·.request)) :
    Cached (store.startLoad i) := by
  have hunknown : ∀ settled ∈ store.settled, settled.promise ≠ i := by
    rintro settled hmem rfl
    exact hi (h.known settled hmem)
  constructor
  · simp only [CacheStore.startLoad,List.map_append,List.map_cons,List.map_nil]
    rw [List.nodup_append]
    exact ⟨h.ids,List.nodup_singleton i,fun a ha b hb heq =>
      hi (List.mem_singleton.mp hb ▸ heq ▸ ha)⟩
  · intro settled hmem
    simp only [CacheStore.startLoad,List.map_append]
    exact List.mem_append_left _ (h.known settled hmem)
  · intro hnone
    cases hnone
  · intro entry hentry
    cases hentry
    exact ⟨⟨i,store.now⟩,by simp [CacheStore.startLoad],rfl,rfl,rejected_of_unknown hunknown⟩

theorem Cached.keep (h : Cached store) {now : Int} (hload : (⟨i,now⟩ : MempoolLoad ι) ∈ store.loads)
    (snapshot : σ) : Cached (store.settle i (.ok snapshot)) := by
  refine ⟨h.ids,?_,fun hnone last hlast => ?_,fun entry hentry => ?_⟩
  · intro settled hmem
    rcases List.mem_append.mp hmem with hmem | hmem
    · exact h.known settled hmem
    · rw [List.mem_singleton.mp hmem]
      exact List.mem_map_of_mem (f := (·.request)) hload
  · simp [h.empty hnone last hlast]
  · obtain ⟨last,hlast,hpromise,hexpires,hrejected⟩ := h.latest entry hentry
    exact ⟨last,hlast,hpromise,hexpires,by simp [hrejected,Except.isOk,Except.toBool]⟩

theorem Cached.reject (h : Cached store) {now : Int}
    (hload : (⟨i,now⟩ : MempoolLoad ι) ∈ store.loads) (error : String) :
    Cached ((store.deleteMempoolSnapshotIfCurrent i).settle i (.error error)) := by
  refine ⟨h.ids,?_,fun hnone last hlast => ?_,fun entry hentry => ?_⟩
  · intro settled hmem
    rcases List.mem_append.mp hmem with hmem | hmem
    · exact h.known settled hmem
    · rw [List.mem_singleton.mp hmem]
      exact List.mem_map_of_mem (f := (·.request)) hload
  · rw [rejected_settle,rejected_delete]
    cases hentry : store.mempoolSnapshots with
    | none => simp [h.empty hentry last hlast]
    | some entry =>
      obtain ⟨last',hlast',hpromise,-⟩ := h.latest entry hentry
      obtain rfl : last = last' := Option.some.inj (hlast.symm.trans hlast')
      have hown : entry.promise = i := by
        simpa [CacheStore.settle,CacheStore.deleteMempoolSnapshotIfCurrent,hentry] using hnone
      simp [← hpromise,hown,Except.isOk,Except.toBool]
  · obtain ⟨hentry,hother⟩ := Option.filter_eq_some_iff.mp hentry
    obtain ⟨last,hlast,hpromise,hexpires,hrejected⟩ := h.latest entry hentry
    refine ⟨last,hlast,hpromise,hexpires,?_⟩
    have hne : i ≠ last.request := by
      rw [← hpromise]
      exact Ne.symm (of_decide_eq_true hother)
    simp [hrejected,hne]

theorem Advanced.cached (h : Advanced i outcome progress store p st) (hc : Cached store)
    (hplaced : Placed i progress store) : Cached st ∧ Placed i p st := by
  have hown {now : Int} (hload : (⟨i,now⟩ : MempoolLoad ι) ∈ store.loads) :
      WithinTtl store now i := ⟨_,hload,rfl,by simp [mempoolCacheTtlMs]⟩
  cases h with
  | join cached hp hfresh =>
    subst hp
    obtain ⟨last,hlast,hpromise,hnow,-⟩ := hc.fresh hfresh
    exact ⟨hc,hplaced,last,List.mem_of_getLast? hlast,hpromise.symm,hnow⟩
  | start hp hstale =>
    subst hp
    refine ⟨hc.startLoad hplaced,by simp [CacheStore.startLoad],?_⟩
    rintro settled hmem rfl
    exact hplaced (hc.known settled hmem)
  | keep now snapshot hp ho =>
    subst hp
    exact ⟨hc.keep hplaced.1 snapshot,by simp [CacheStore.settle],hown hplaced.1,fun _ => rfl⟩
  | fail now error hp ho =>
    subst hp
    exact ⟨hc,hplaced⟩
  | reject now error hp =>
    subst hp
    exact ⟨hc.reject hplaced.1 error,by simp [CacheStore.settle],hown hplaced.1,fun _ => rfl⟩
  | receive now settled hp hmem =>
    subst hp
    exact ⟨hc,hmem,hplaced.2,fun hi => absurd hi hplaced.1⟩

variable {s t : Requests ι σ} {events : List (Event ι σ)} {clock : Int}

theorem cache_safe : Safe (@advance ι σ _) setClock Cached Placed (fun _ _ => True) := by
  constructor
  · intro i outcome s p st hc hplaced _ hadvance
    exact (advanced hadvance).cached hc (hplaced i)
  · intro i outcome s p st _ hplaced _ hadvance j hj
    exact (hplaced j).later ((advanced hadvance).later hj)
  · intro now s st hc hplaced _ hset
    cases hset
    refine ⟨⟨hc.ids,hc.known,hc.empty,hc.latest⟩,fun j => (hplaced j).later ?_⟩
    exact ⟨⟨[],by simp,by simp⟩,⟨[],by simp,by simp⟩⟩

theorem cached_run (hrun : Machine.run step events (idleRequests clock) = some s) :
    Cached s.store ∧ ∀ i, Placed i (s.progress i) s.store := by
  refine cache_safe.run ⟨?_,fun i => ?_⟩ (fun _ _ _ _ _ _ => trivial) hrun
  · constructor <;> simp [idleRequests]
  · simp [idleRequests,Placed]

/-- In the run the node gave this result to the load of the promise. -/
def Given (clock : Int) (events : List (Event ι σ)) (promise : ι) (result : Except String σ) :
    Prop :=
  Machine.Occurs step (fun event (u : Requests ι σ) _ => event = .call promise result ∧
    ∃ now, u.progress promise = .loading now) (idleRequests clock) events

/-- What is settled, or is about to be, is what the node gave. -/
def GivenSoFar (clock : Int) (events : List (Event ι σ)) (s : Requests ι σ) : Prop :=
  (∀ settled ∈ s.store.settled, Given clock events settled.promise settled.result) ∧
    ∀ i now error, s.progress i = .failing now error → Given clock events i (.error error)

theorem GivenSoFar.step {event : Event ι σ} (h : GivenSoFar clock events s)
    (hs : Machine.run step events (idleRequests clock) = some s) (hstep : step event s = some t) :
    GivenSoFar clock (events ++ [event]) t := by
  have hold {promise : ι} {result : Except String σ} (hgiven : Given clock events promise result) :
      Given clock (events ++ [event]) promise result := hgiven.snoc event
  cases event with
  | outside now =>
    obtain ⟨st,hset,rfl⟩ := step_outside.mp hstep
    cases hset
    exact ⟨fun settled hmem => hold (h.1 settled hmem),fun j now error hj =>
      hold (h.2 j now error hj)⟩
  | call i outcome =>
    obtain ⟨p,st,hadvance,rfl⟩ := step_call.mp hstep
    have hothers (hp : ∀ now error, p ≠ .failing now error) : ∀ j now error,
        Function.update s.progress i p j = .failing now error →
          Given clock (events ++ [.call i outcome]) j (.error error) := by
      intro j now error hj
      by_cases hji : j = i
      · subst hji
        rw [Function.update_self] at hj
        exact absurd hj (hp now error)
      · rw [Function.update_of_ne hji] at hj
        exact hold (h.2 j now error hj)
    have hsettle {result : Except String σ}
      (hresult : Given clock (events ++ [.call i outcome]) i result)
        (settled : Settled ι σ) (hmem : settled ∈ s.store.settled ++ [⟨i,result⟩]) :
        Given clock (events ++ [.call i outcome]) settled.promise settled.result := by
      rcases List.mem_append.mp hmem with hmem | hmem
      · exact hold (h.1 settled hmem)
      · rw [List.mem_singleton.mp hmem]
        exact hresult
    have hkeep (settled : Settled ι σ) (hmem : settled ∈ s.store.settled) :
        Given clock (events ++ [.call i outcome]) settled.promise settled.result :=
      hold (h.1 settled hmem)
    cases advanced hadvance with
    | join => exact ⟨hkeep,hothers (by simp)⟩
    | start => exact ⟨hkeep,hothers (by simp)⟩
    | keep now snapshot hp ho =>
      subst ho
      exact ⟨hsettle (Machine.Occurs.last hs hstep ⟨rfl,now,hp⟩),hothers (by simp)⟩
    | fail now error hp ho =>
      subst ho
      refine ⟨hkeep,fun j later cause hj => ?_⟩
      change Function.update s.progress i (.failing now error) j = _ at hj
      by_cases hji : j = i
      · subst hji
        rw [Function.update_self] at hj
        cases hj
        exact Machine.Occurs.last hs hstep ⟨rfl,now,hp⟩
      · rw [Function.update_of_ne hji] at hj
        exact hold (h.2 j later cause hj)
    | reject now error hp => exact ⟨hsettle (hold (h.2 i now error hp)),hothers (by simp)⟩
    | receive => exact ⟨hkeep,hothers (by simp)⟩

theorem given_run (hrun : Machine.run step events (idleRequests clock) = some s) :
    GivenSoFar clock events s :=
  @Machine.run_history _ _ step _ _ _ (GivenSoFar clock) ⟨by simp [idleRequests],
    by simp [idleRequests]⟩ (fun _ _ _ _ ht h hstep => h.step ht hstep) hrun

/-- A request is answered what the node gave to one load, and that was started less than a second
before the clock showed the request its time. -/
theorem answered_within_ttl {now : Int} {promise : ι} {result : Except String σ}
    (hrun : Machine.run step events (idleRequests clock) = some s)
    (hanswered : s.progress i = .answered now promise result) :
    WithinTtl s.store now promise ∧ Given clock events promise result := by
  have hplaced := (cached_run hrun).2 i
  rw [hanswered] at hplaced
  exact ⟨hplaced.2.1,(given_run hrun).1 _ hplaced.1⟩

/-- Two requests share a load, the next one is a second late, and its load fails. -/
def sharedRequests : List (Event (Fin 3) Nat) :=
  [.call 0 (.error ""),.outside 500,.call 1 (.error ""),.call 0 (.ok 7),.call 1 (.error ""),
    .outside 1000,.call 2 (.error ""),.call 2 (.error "timeout"),.call 2 (.error "")]

theorem sharedRequests_run : ∃ s, Machine.run step sharedRequests (idleRequests 0) = some s ∧
    s.progress 1 = .answered 500 0 (.ok 7) ∧ s.store.mempoolSnapshots = none ∧
      s.store.loads = [⟨0,0⟩,⟨2,1000⟩] :=
  ⟨_,rfl,rfl,rfl,rfl⟩

theorem answered_within_ttl_of_shared : ∃ s,
    Machine.run step sharedRequests (idleRequests 0) = some s ∧ WithinTtl s.store 500 0 ∧
      Given 0 sharedRequests 0 (.ok 7) := by
  obtain ⟨s,hrun,hanswered,-⟩ := sharedRequests_run
  exact ⟨s,hrun,answered_within_ttl hrun hanswered⟩

/-- The entry of the cache is always that of the last load, which nobody has been told to have
failed; only the failure of the last load leaves the cache empty. -/
theorem entry_is_last_load (hrun : Machine.run step events (idleRequests clock) = some s) :
    (s.store.mempoolSnapshots = none →
      ∀ last ∈ s.store.loads.getLast?, s.store.rejected last.request = true) ∧
    ∀ entry ∈ s.store.mempoolSnapshots, ∃ last ∈ s.store.loads.getLast?,
      entry = ⟨last.startedAt + mempoolCacheTtlMs,last.request⟩ ∧
        s.store.rejected last.request = false := by
  have hc := (cached_run hrun).1
  refine ⟨hc.empty,fun entry hentry => ?_⟩
  obtain ⟨last,hlast,hpromise,hexpires,hrejected⟩ := hc.latest entry hentry
  refine ⟨last,hlast,?_,hrejected⟩
  rw [← hpromise,← hexpires]

theorem entry_is_last_load_of_shared : ∃ s,
    Machine.run step sharedRequests (idleRequests 0) = some s ∧
      ∀ last ∈ s.store.loads.getLast?, s.store.rejected last.request = true := by
  obtain ⟨s,hrun,-,hempty,-⟩ := sharedRequests_run
  exact ⟨s,hrun,(entry_is_last_load hrun).1 hempty⟩

/-- Unless a load fails, the next one starts a second after it. -/
structure Spaced (store : CacheStore ι σ) : Prop where
  past : ∀ load ∈ store.loads, load.startedAt ≤ store.now
  spaced : store.loads.Pairwise fun a b => store.rejected a.request = true ∨
    a.startedAt + mempoolCacheTtlMs ≤ b.startedAt

theorem Spaced.frame (h : Spaced store) (hloads : st.loads = store.loads)
    (hnow : store.now ≤ st.now)
    (hrejected : ∀ promise, store.rejected promise = true → st.rejected promise = true) :
    Spaced st := by
  refine ⟨fun load hload => ?_,hloads ▸ h.spaced.imp fun hab => hab.imp_left (hrejected _)⟩
  exact (h.past load (hloads ▸ hload)).trans hnow

theorem Spaced.stale (h : Spaced store) (hc : Cached store) (hstale : store.fresh = none) :
    ∀ load ∈ store.loads, store.rejected load.request = true ∨
      load.startedAt + mempoolCacheTtlMs ≤ store.now := by
  have hspaced := h.spaced
  have hpast := h.past
  rcases List.eq_nil_or_concat store.loads with hnil | ⟨passed,last,hloads⟩
  · simp [hnil]
  rw [List.concat_eq_append] at hloads
  rw [hloads] at hspaced hpast ⊢
  have hlast : last ∈ store.loads.getLast? := by simp [hloads]
  have hlatest : store.rejected last.request = true ∨
      last.startedAt + mempoolCacheTtlMs ≤ store.now := by
    cases hentry : store.mempoolSnapshots with
    | none => exact Or.inl (hc.empty hentry last hlast)
    | some entry =>
      obtain ⟨last',hlast',-,hexpires,-⟩ := hc.latest entry hentry
      obtain rfl : last = last' := Option.some.inj (hlast.symm.trans hlast')
      have hold : ¬store.now < entry.expiresAtMs := by
        intro hnow
        have hfresh : store.fresh = some entry :=
          Option.filter_eq_some_iff.mpr ⟨hentry,decide_eq_true hnow⟩
        rw [hstale] at hfresh
        cases hfresh
      exact Or.inr (hexpires ▸ not_lt.mp hold)
  intro load hload
  rcases List.mem_append.mp hload with hload | hload
  · refine ((List.pairwise_append.mp hspaced).2.2 load hload last (by simp)).imp_right
      fun hgap => ?_
    exact hgap.trans (hpast last (by simp))
  · rwa [List.mem_singleton.mp hload]

theorem Advanced.spaced (h : Advanced i outcome progress store p st) (hc : Cached store)
    (hs : Spaced store) : Spaced st := by
  cases h with
  | join => exact hs
  | start hp hstale =>
    refine ⟨fun load hload => ?_,?_⟩
    · rcases List.mem_append.mp hload with hload | hload
      · exact hs.past load hload
      · rw [List.mem_singleton.mp hload]
        exact le_refl store.now
    · refine List.pairwise_append.mpr ⟨hs.spaced,List.pairwise_singleton _ _,fun a ha b hb => ?_⟩
      rw [List.mem_singleton.mp hb]
      exact hs.stale hc hstale a ha
  | keep => exact hs.frame rfl (le_refl _) fun promise h => by simp [h]
  | fail => exact hs
  | reject => exact hs.frame rfl (le_refl _) fun promise h => by simp [h]
  | receive => exact hs

/-- The clock is not set back. -/
def Forward (event : Event ι σ) (s : Requests ι σ) : Prop :=
  ∀ now, event = .outside now → s.store.now ≤ now

theorem spaced_run (hrun : Machine.run step events (idleRequests clock) = some s)
    (hforward : Machine.Along step Forward events (idleRequests clock)) : Spaced s.store := by
  refine (@Machine.run_invariant_of _ _ step _ _ _ (fun s : Requests ι σ =>
    (Cached s.store ∧ ∀ i, Placed i (s.progress i) s.store) ∧ Spaced s.store) Forward ?_ ?_
      hforward.split hrun).2
  · rintro event s t ⟨hs,hspaced⟩ hC hstep
    refine ⟨cache_safe.step hs trivial hstep,?_⟩
    cases event with
    | outside now =>
      obtain ⟨st,hset,rfl⟩ := step_outside.mp hstep
      cases hset
      exact hspaced.frame rfl (hC now rfl) fun _ h => h
    | call i outcome =>
      obtain ⟨p,st,hadvance,rfl⟩ := step_call.mp hstep
      exact (advanced hadvance).spaced hs.1 hspaced
  · have hidle : Machine.run step [] (idleRequests clock : Requests ι σ) =
        some (idleRequests clock) := rfl
    refine ⟨cached_run hidle,?_,?_⟩ <;> simp [idleRequests]

/-- However many requests there are, in any `n` seconds the node is asked for at most `n` snapshots
that it does not fail to give. -/
theorem loads_in_span (start : Int) (n : Nat)
    (hrun : Machine.run step events (idleRequests clock) = some s)
    (hforward : Machine.Along step Forward events (idleRequests clock)) :
    (s.store.loads.filter fun load => !s.store.rejected load.request &&
      decide (start ≤ load.startedAt ∧ load.startedAt < start + n • mempoolCacheTtlMs)).length ≤
        n := by
  have hspaced := spaced_run hrun hforward
  refine @Spacing.length_le_of_spaced _ _ _ _ _ MempoolLoad.startedAt mempoolCacheTtlMs start n _
    ?_ fun load hload => ?_
  · refine List.Pairwise.imp_of_mem (fun {a b} ha _ hab => ?_) (hspaced.spaced.filter _)
    obtain ⟨-,hkept⟩ := List.mem_filter.mp ha
    rcases hab with hrejected | hgap
    · simp [hrejected] at hkept
    · exact hgap
  · obtain ⟨-,hkept⟩ := List.mem_filter.mp hload
    simp only [Bool.and_eq_true,decide_eq_true_eq] at hkept
    exact hkept.2

theorem sharedRequests_forward :
    Machine.Along step Forward sharedRequests (idleRequests 0) := by
  refine .cons rfl (fun _ h => by cases h) (.cons rfl ?_ (.cons rfl (fun _ h => by cases h)
    (.cons rfl (fun _ h => by cases h) (.cons rfl (fun _ h => by cases h) (.cons rfl ?_
      (.cons rfl (fun _ h => by cases h) (.cons rfl (fun _ h => by cases h) (.cons rfl
        (fun _ h => by cases h) trivial))))))))
  · intro now h
    cases h
    decide
  · intro now h
    cases h
    decide

theorem loads_in_span_of_shared : ∃ s,
    Machine.run step sharedRequests (idleRequests 0) = some s ∧
      (s.store.loads.filter fun load => !s.store.rejected load.request &&
        decide (0 ≤ load.startedAt ∧ load.startedAt < 0 + 2 • mempoolCacheTtlMs)).length ≤ 2 := by
  obtain ⟨s,hrun,-⟩ := sharedRequests_run
  exact ⟨s,hrun,loads_in_span 0 2 hrun sharedRequests_forward⟩

/-- The request can still be answered. -/
def Answerable (s : Requests ι σ) (i : ι) : Prop :=
  ∃ more t, Machine.run step more s = some t ∧
    ∃ now promise result, t.progress i = .answered now promise result

theorem Answerable.before {event : Event ι σ} (h : Answerable t i) (hstep : step event s = some t) :
    Answerable s i := by
  obtain ⟨more,u,hrun,hanswered⟩ := h
  exact ⟨event::more,u,Option.bind_eq_some_iff.mpr ⟨t,hstep,hrun⟩,hanswered⟩

theorem step_of_advance (outcome : Except String σ)
    (h : advance i outcome (s.progress i) s.store = some (p,st)) :
    step (.call i outcome) s = some ⟨st,Function.update s.progress i p⟩ :=
  step_call.mpr ⟨p,st,h,rfl⟩

theorem answerable_failing {now : Int} {error : String} (h : s.progress i = .failing now error) :
    Answerable s i := by
  have hstep := step_of_advance (.error error) (by rw [h]; rfl)
  exact Answerable.before ⟨[],_,rfl,now,i,.error error,by simp⟩ hstep

theorem answerable_loading {now : Int} (h : s.progress i = .loading now) : Answerable s i := by
  have hstep := step_of_advance (.error "") (by rw [h]; rfl)
  exact (answerable_failing (Function.update_self i _ _)).before hstep

theorem answerable_settled (now : Int) (settled : Settled ι σ)
    (h : s.progress i = .awaiting now settled.promise) (hmem : settled ∈ s.store.settled) :
    Answerable s i := by
  cases hfind : s.store.settled.find? (·.promise = settled.promise) with
  | none => exact absurd (decide_eq_true rfl) (List.find?_eq_none.mp hfind settled hmem)
  | some found =>
    have hadvance : advance i (.error "") (s.progress i) s.store =
        some (.answered now settled.promise found.result,s.store) := by
      rw [h]
      simp [advance,hfind]
    have hstep := step_of_advance (.error "") hadvance
    exact Answerable.before ⟨[],_,rfl,now,settled.promise,found.result,by simp⟩ hstep

theorem answerable_awaiting {now : Int} {promise : ι}
    (hplaced : ∀ j, Placed j (s.progress j) s.store)
    (h : s.progress i = .awaiting now promise) : Answerable s i := by
  have hi := hplaced i
  rw [h] at hi
  obtain ⟨-,load,hload,rfl,-⟩ := hi
  have hown := hplaced load.request
  have hin : load.request ∈ s.store.loads.map (·.request) := List.mem_map_of_mem hload
  have hfailing {u : Requests ι σ} {later : Int} {error : String}
      (hu : u.progress i = .awaiting now load.request)
      (hp : u.progress load.request = .failing later error) : Answerable u i := by
    have hne : i ≠ load.request := by
      rintro heq
      rw [heq] at hu
      rw [hu] at hp
      cases hp
    have hstep := step_of_advance (.error error) (by rw [hp]; rfl)
    refine Answerable.before (answerable_settled now ⟨load.request,.error error⟩ ?_ ?_) hstep
    · simpa [hne] using hu
    · simp [CacheStore.settle]
  cases hp : s.progress load.request with
  | waiting =>
    rw [hp] at hown
    exact absurd hin hown
  | awaiting later other =>
    rw [hp] at hown
    exact absurd hin hown.1
  | loading later =>
    have hne : i ≠ load.request := by
      rintro heq
      rw [← heq,h] at hp
      cases hp
    have hstep := step_of_advance (.error "") (by rw [hp]; rfl)
    exact (hfailing (by simpa [hne] using h) (Function.update_self _ _ _)).before hstep
  | failing later error => exact hfailing h hp
  | answered later other result =>
    rw [hp] at hown
    obtain rfl := hown.2.2 hin
    exact answerable_settled _ _ h hown.1

/-- No request is left waiting for a promise that nobody keeps or breaks. -/
theorem answer_reachable (hrun : Machine.run step events (idleRequests clock) = some s) (i : ι) :
    Answerable s i := by
  have hs := cached_run hrun
  cases hp : s.progress i with
  | waiting =>
    cases hfresh : s.store.fresh with
    | some cached =>
      have hadvance : advance i (.error "") (s.progress i) s.store =
          some (.awaiting s.store.now cached.promise,s.store) := by
        rw [hp]
        simp [advance,hfresh]
      have hstep := step_of_advance (.error "") hadvance
      exact (answerable_awaiting (cache_safe.step hs trivial hstep).2
        (Function.update_self i _ _)).before hstep
    | none =>
      have hadvance : advance i (.error "") (s.progress i) s.store =
          some (.loading s.store.now,s.store.startLoad i) := by
        rw [hp]
        simp [advance,hfresh]
      have hstep := step_of_advance (.error "") hadvance
      exact (answerable_loading (Function.update_self i _ _)).before hstep
  | loading now => exact answerable_loading hp
  | failing now error => exact answerable_failing hp
  | awaiting now promise => exact answerable_awaiting hs.2 hp
  | answered now promise result => exact ⟨[],s,rfl,now,promise,result,hp⟩

theorem waitingRequests_run : ∃ s,
    Machine.run step (sharedRequests.take 3) (idleRequests 0) = some s ∧
      s.progress 1 = .awaiting 500 0 :=
  ⟨_,rfl,rfl⟩

theorem answer_reachable_of_waiting : ∃ s,
    Machine.run step (sharedRequests.take 3) (idleRequests 0) = some s ∧ Answerable s 1 := by
  obtain ⟨s,hrun,-⟩ := waitingRequests_run
  exact ⟨s,hrun,answer_reachable hrun 1⟩

end OnlyDoge.Explorer
