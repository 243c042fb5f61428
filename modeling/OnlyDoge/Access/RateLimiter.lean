import OnlyDoge.Library.Keyed
import Mathlib.Tactic.Ring
set_option autoImplicit false

/-!
The requests that a subject may make in a window of time (`api-key-rate-limiter.ts`). Times are
milliseconds of the limiter's clock.
-/

namespace OnlyDoge.Access
open Keyed

/-- A policy that `normalizeRateLimitPolicy` lets through. -/
structure ApiKeyRateLimitPolicy where
  maxRequests : Nat
  windowMs : Nat
  maxRequests_pos : 0 < maxRequests
  windowMs_pos : 0 < windowMs
  deriving DecidableEq,Repr

def assertPositiveInteger (value : Int) (label : String) : Except String { n : Nat // 0 < n } :=
  if h : 0 < value then .ok ⟨value.toNat,by omega⟩ else .error s!"invalid {label}: {value}"

def normalizeRateLimitPolicy (maxRequests windowMs : Int) :
    Except String ApiKeyRateLimitPolicy := do
  let requests ← assertPositiveInteger maxRequests "API key rate limit"
  let window ← assertPositiveInteger windowMs "API key rate limit window"
  return ⟨requests.1,window.1,requests.2,window.2⟩

def defaultApiKeyRateLimitPolicy : ApiKeyRateLimitPolicy := ⟨300,60000,by decide,by decide⟩

structure ApiKeyRateLimitWindow where
  count : Nat
  resetAt : Int
  deriving DecidableEq,Repr

structure ApiKeyRateLimitResult where
  allowed : Bool
  limit : Nat
  remaining : Nat
  resetSeconds : Int
  retryAfterSeconds : Option Int
  deriving DecidableEq,Repr

abbrev RateLimitWindows : Type := String → Option ApiKeyRateLimitWindow

def isActiveRateLimitWindow (window : ApiKeyRateLimitWindow) (now : Int) : Bool :=
  decide (now < window.resetAt)

/-- `Math.max(1, Math.ceil((timestamp - now) / 1000))` -/
def secondsUntil (timestamp now : Int) : Int := max 1 (-((now - timestamp) / 1000))

def currentWindow (policy : ApiKeyRateLimitPolicy) (existing : Option ApiKeyRateLimitWindow)
    (now : Int) : ApiKeyRateLimitWindow :=
  match existing with
  | some window =>
    if isActiveRateLimitWindow window now then window else ⟨0,now + policy.windowMs⟩
  | none => ⟨0,now + policy.windowMs⟩

/-- What `consume` answers from the window of its subject, and the window that it leaves. -/
def consumeWindow (policy : ApiKeyRateLimitPolicy) (now : Int)
    (existing : Option ApiKeyRateLimitWindow) :
    ApiKeyRateLimitResult × Option ApiKeyRateLimitWindow :=
  let window := currentWindow policy existing now
  let resetSeconds := secondsUntil window.resetAt now
  if window.count ≥ policy.maxRequests then
    (⟨false,policy.maxRequests,0,resetSeconds,some resetSeconds⟩,some window)
  else
    (⟨true,policy.maxRequests,policy.maxRequests - (window.count + 1),resetSeconds,none⟩,
      some { window with count := window.count + 1 })

def consume (policy : ApiKeyRateLimitPolicy) (now : Int) (subject : String)
    (windows : RateLimitWindows) : ApiKeyRateLimitResult × RateLimitWindows :=
  let (result,window) := consumeWindow policy now (windows subject)
  (result,Function.update windows subject window)

/-- The calls of `consume` in the order they come in, with the time of each. -/
def consumeAll (policy : ApiKeyRateLimitPolicy) :
    List (Call String Int) → RateLimitWindows → List ApiKeyRateLimitResult × RateLimitWindows
  | [],windows => ([],windows)
  | call::calls,windows =>
    let (result,windows) := consume policy call.given call.key windows
    let (results,windows) := consumeAll policy calls windows
    (result::results,windows)

theorem consumeAll_eq_serve (policy : ApiKeyRateLimitPolicy) (calls : List (Call String Int))
    (windows : RateLimitWindows) :
    consumeAll policy calls windows = serve (consumeWindow policy) calls windows := by
  induction calls generalizing windows with
  | nil => rfl
  | cons call calls ih => simp [consumeAll,consume,serve,ih]

variable {policy : ApiKeyRateLimitPolicy} {now : Int}

theorem secondsUntil_le_iff {timestamp : Int} {s : Int} (hs : 1 ≤ s) :
    secondsUntil timestamp now ≤ s ↔ timestamp ≤ now + 1000 * s := by
  unfold secondsUntil
  omega

theorem consumeWindow_of_full {window : ApiKeyRateLimitWindow} (hactive : now < window.resetAt)
    (hfull : policy.maxRequests ≤ window.count) :
    (consumeWindow policy now (some window)).1.allowed = false ∧
      (consumeWindow policy now (some window)).2 = some window := by
  simp [consumeWindow,currentWindow,isActiveRateLimitWindow,hactive,hfull]

theorem consumeWindow_of_room {window : ApiKeyRateLimitWindow} (hactive : now < window.resetAt)
    (hroom : window.count < policy.maxRequests) :
    (consumeWindow policy now (some window)).1.allowed = true ∧
      (consumeWindow policy now (some window)).2 = some ⟨window.count + 1,window.resetAt⟩ := by
  have : ¬policy.maxRequests ≤ window.count := by omega
  simp [consumeWindow,currentWindow,isActiveRateLimitWindow,hactive,this]

theorem consumeWindow_of_passed {window : ApiKeyRateLimitWindow} (hpassed : window.resetAt ≤ now) :
    consumeWindow policy now (some window) = consumeWindow policy now none := by
  have : ¬now < window.resetAt := by omega
  simp [consumeWindow,currentWindow,isActiveRateLimitWindow,this]

theorem consumeWindow_none (policy : ApiKeyRateLimitPolicy) (now : Int) :
    (consumeWindow policy now none).1.allowed = true ∧
      (consumeWindow policy now none).2 = some ⟨1,now + policy.windowMs⟩ := by
  have := policy.maxRequests_pos
  have : policy.maxRequests ≠ 0 := by omega
  simp [consumeWindow,currentWindow,this]

/-- How many of the calls in a span of time are let through. -/
def allowedBetween (start finish : Int) (exchanges : List (Int × ApiKeyRateLimitResult)) : Nat :=
  exchanges.countP fun exchange =>
    start ≤ exchange.1 ∧ exchange.1 < finish ∧ exchange.2.allowed

/-- How many windows fit between two times when each begins after the one before. -/
def windowsFrom (policy : ApiKeyRateLimitPolicy) (start finish : Int) : Nat :=
  ((finish - start + policy.windowMs - 1) / policy.windowMs).toNat

theorem windowsFrom_anti (policy : ApiKeyRateLimitPolicy) {a b : Int} (h : a ≤ b) (finish : Int) :
    windowsFrom policy b finish ≤ windowsFrom policy a finish := by
  have := policy.windowMs_pos
  unfold windowsFrom
  exact Int.toNat_le_toNat (Int.ediv_le_ediv (by omega) (by omega))

theorem windowsFrom_next (policy : ApiKeyRateLimitPolicy) {start finish : Int}
    (h : start < finish) :
    windowsFrom policy (start + policy.windowMs) finish + 1 ≤ windowsFrom policy start finish := by
  have hpos := policy.windowMs_pos
  unfold windowsFrom
  have hshift : finish - start + policy.windowMs - 1 =
      (finish - (start + policy.windowMs) + policy.windowMs - 1) + 1 * policy.windowMs := by omega
  have hnonneg : 0 ≤ (finish - (start + policy.windowMs) + policy.windowMs - 1) /
    policy.windowMs := by
    apply Int.ediv_nonneg <;> omega
  rw [hshift,Int.add_mul_ediv_right _ _ (by omega)]
  omega

theorem windowsFrom_le (policy : ApiKeyRateLimitPolicy) {start finish : Int} {n : Nat}
    (h : finish ≤ start + n * policy.windowMs) : windowsFrom policy start finish ≤ n := by
  have hpos := policy.windowMs_pos
  unfold windowsFrom
  have : (finish - start + policy.windowMs - 1) / policy.windowMs < n + 1 := by
    apply Int.ediv_lt_of_lt_mul (by omega)
    rw [Int.add_mul]
    omega
  omega

/-- The requests left in a window. -/
def room (policy : ApiKeyRateLimitPolicy) : Option ApiKeyRateLimitWindow → Nat
  | some window => policy.maxRequests - window.count
  | none => 0

variable {start finish : Int}

theorem allowedBetween_of_late {exchanges : List (Int × ApiKeyRateLimitResult)}
    (h : ∀ exchange ∈ exchanges, finish ≤ exchange.1) :
    allowedBetween start finish exchanges = 0 := by
  unfold allowedBetween
  rw [List.countP_eq_zero]
  intro exchange hexchange
  have := h exchange hexchange
  simp
  omega

theorem allowedBetween_cons (exchange : Int × ApiKeyRateLimitResult)
    (exchanges : List (Int × ApiKeyRateLimitResult)) :
    allowedBetween start finish (exchange::exchanges) ≤ allowedBetween start finish exchanges +
      if exchange.1 < finish ∧ exchange.2.allowed then 1 else 0 := by
  unfold allowedBetween
  rw [List.countP_cons]
  by_cases hin : exchange.1 < finish ∧ exchange.2.allowed
  · rw [if_pos hin]
    split <;> omega
  · rw [if_neg hin,if_neg]
    simp at hin ⊢
    intro _ hlt
    exact hin hlt

/-- The calls that are still let through before `finish` fit in the present window and in those
that begin after it. -/
theorem allowedBetween_le_room {times : List Int} {s : Option ApiKeyRateLimitWindow} {opens : Int}
    (hclock : times.Pairwise (· ≤ ·)) (hsome : ∀ window, s = some window → opens ≤ window.resetAt)
    (hnone : s = none → ∀ time ∈ times, opens ≤ time) :
    allowedBetween start finish (times.zip (serveKey (consumeWindow policy) times s).1) ≤
      room policy s + policy.maxRequests * windowsFrom policy opens finish := by
  induction times generalizing s opens with
  | nil => simp [allowedBetween]
  | cons now times ih =>
    obtain ⟨hlater,hclock⟩ := List.pairwise_cons.mp hclock
    -- a new window, from `now` on, when there is none at that time
    have hnew (hopens : opens ≤ now) : allowedBetween start finish ((now::times).zip
        (serveKey (consumeWindow policy) (now::times) none).1) ≤
          policy.maxRequests * windowsFrom policy opens finish := by
      by_cases hlate : finish ≤ now
      · rw [allowedBetween_of_late]
        · omega
        intro exchange hexchange
        have hmem := (List.of_mem_zip hexchange).1
        rcases List.mem_cons.mp hmem with heq | hmem
        · omega
        · have := hlater _ hmem
          omega
      obtain ⟨hallowed,hstate⟩ := consumeWindow_none policy now
      have hrest := @ih (some ⟨1,now + policy.windowMs⟩) (now + policy.windowMs) hclock
        (fun window heq => (congrArg ApiKeyRateLimitWindow.resetAt (Option.some.inj heq)).le)
        (fun h => absurd h (Option.some_ne_none _))
      have hcons := @allowedBetween_cons start finish (now,(consumeWindow policy now none).1)
        (times.zip (serveKey (consumeWindow policy) times (consumeWindow policy now none).2).1)
      rw [if_pos ⟨by omega,hallowed⟩,hstate] at hcons
      have hnext := windowsFrom_next policy (not_le.mp hlate)
      have hanti := windowsFrom_anti policy hopens finish
      have hmul := Nat.mul_le_mul_left policy.maxRequests (hnext.trans hanti)
      have hpos := policy.maxRequests_pos
      simp only [room] at hrest
      simp only [serveKey,List.zip_cons_cons,hstate]
      rw [Nat.mul_add] at hmul
      omega
    cases s with
    | none =>
      have := hnew (hnone rfl now List.mem_cons_self)
      omega
    | some window =>
      by_cases hactive : now < window.resetAt
      · by_cases hfull : policy.maxRequests ≤ window.count
        · obtain ⟨hrefused,hstate⟩ := consumeWindow_of_full hactive hfull
          have hrest := @ih (some window) opens hclock hsome
            (fun h => absurd h (Option.some_ne_none _))
          have hcons := @allowedBetween_cons start finish
            (now,(consumeWindow policy now (some window)).1) (times.zip
              (serveKey (consumeWindow policy) times (consumeWindow policy now (some window)).2).1)
          rw [if_neg (by simp [hrefused]),hstate] at hcons
          simp only [serveKey,List.zip_cons_cons,hstate]
          omega
        · obtain ⟨hallowed,hstate⟩ := consumeWindow_of_room hactive (not_le.mp hfull)
          have hrest := @ih (some ⟨window.count + 1,window.resetAt⟩) opens hclock
            (fun w heq => (hsome window rfl).trans
              (congrArg ApiKeyRateLimitWindow.resetAt (Option.some.inj heq)).le)
            (fun h => absurd h (Option.some_ne_none _))
          have hcons := @allowedBetween_cons start finish
            (now,(consumeWindow policy now (some window)).1) (times.zip
              (serveKey (consumeWindow policy) times (consumeWindow policy now (some window)).2).1)
          rw [hstate] at hcons
          simp only [room] at hrest ⊢
          simp only [serveKey,List.zip_cons_cons,hstate]
          split at hcons <;> omega
      · have hpassed := not_lt.mp hactive
        have := hnew ((hsome window rfl).trans hpassed)
        simp only [serveKey,consumeWindow_of_passed hpassed] at this ⊢
        omega

/-- A span of `n` windows meets `n + 1` of them at most. -/
theorem allowedBetween_serveKey {times : List Int} {s : Option ApiKeyRateLimitWindow} {n : Nat}
    (hclock : times.Pairwise (· ≤ ·)) (hspan : finish ≤ start + n * policy.windowMs) :
    allowedBetween start finish (times.zip (serveKey (consumeWindow policy) times s).1) ≤
      (n + 1) * policy.maxRequests := by
  induction times generalizing s with
  | nil => simp [allowedBetween]
  | cons now times ih =>
    have hclock' := (List.pairwise_cons.mp hclock).2
    by_cases hbefore : now < start
    · have hrest := ih hclock' (s := (consumeWindow policy now s).2)
      have : ¬start ≤ now := by omega
      simpa [allowedBetween,serveKey,this] using hrest
    have hlater : ∀ time ∈ now::times, start ≤ time := by
      intro time htime
      rcases List.mem_cons.mp htime with rfl | htime
      · omega
      · have := (List.pairwise_cons.mp hclock).1 time htime
        omega
    have hmul := Nat.mul_le_mul_left policy.maxRequests (windowsFrom_le policy hspan)
    have hbound : (n + 1) * policy.maxRequests =
        policy.maxRequests * n + policy.maxRequests := by ring
    -- the window that the first of the calls is answered from began before or after `start`
    have hnone : allowedBetween start finish ((now::times).zip
        (serveKey (consumeWindow policy) (now::times) none).1) ≤
          policy.maxRequests * windowsFrom policy start finish := by
      have := @allowedBetween_le_room policy start finish _ none start hclock
        (fun _ h => absurd h.symm (Option.some_ne_none _)) (fun _ => hlater)
      simpa [room] using this
    cases s with
    | none => omega
    | some window =>
      by_cases hactive : now < window.resetAt
      · have hroom := @allowedBetween_le_room policy start finish _ (some window) start hclock
          (fun w heq => by rw [← Option.some.inj heq]; omega)
          (fun h => absurd h (Option.some_ne_none _))
        simp only [room] at hroom
        omega
      · simp only [serveKey,consumeWindow_of_passed (not_lt.mp hactive)] at hnone ⊢
        omega

/-- How many calls of a subject in a span of time are let through. -/
def allowedFor (subject : String) (start finish : Int)
    (exchanges : List (Call String Int × ApiKeyRateLimitResult)) : Nat :=
  exchanges.countP fun exchange => exchange.1.key = subject ∧ start ≤ exchange.1.given ∧
    exchange.1.given < finish ∧ exchange.2.allowed

theorem allowedFor_eq (subject : String) (start finish : Int) (calls : List (Call String Int))
    (results : List ApiKeyRateLimitResult) :
    allowedFor subject start finish (calls.zip results) =
      allowedBetween start finish (exchanges subject calls results) := by
  unfold allowedFor allowedBetween exchanges
  rw [List.countP_map,List.countP_filter]
  congr 1
  funext exchange
  by_cases hsubject : exchange.1.key = subject <;> simp [hsubject]

/-- In any span of `n` windows a subject has `n + 1` times its limit let through at most, whatever
the other subjects do in between. -/
theorem allowed_in_span (policy : ApiKeyRateLimitPolicy) (calls : List (Call String Int))
    (subject : String) (windows : RateLimitWindows) (start : Int) (n : Nat)
    (hclock : (givenTo subject calls).Pairwise (· ≤ ·)) :
    allowedFor subject start (start + n * policy.windowMs)
      (calls.zip (consumeAll policy calls windows).1) ≤ (n + 1) * policy.maxRequests := by
  have hown := @allowedBetween_serveKey policy start (start + n * policy.windowMs) _
    (windows subject) n hclock (le_refl _)
  rwa [← exchanges_serve,← consumeAll_eq_serve,← allowedFor_eq] at hown

theorem allowed_in_span_of_one : allowedFor "a" 0 (0 + (1 : Nat) * (10 : Nat))
    (List.zip [⟨"a",0⟩,⟨"b",4⟩,⟨"a",9⟩,⟨"a",10⟩]
      (consumeAll ⟨1,10,by decide,by decide⟩ [⟨"a",0⟩,⟨"b",4⟩,⟨"a",9⟩,⟨"a",10⟩]
        fun _ => none).1) ≤ (1 + 1) * 1 :=
  allowed_in_span ⟨1,10,by decide,by decide⟩ [⟨"a",0⟩,⟨"b",4⟩,⟨"a",9⟩,⟨"a",10⟩] "a"
    (fun _ => none) 0 1 (by decide)

theorem consumeWindow_refused {existing : Option ApiKeyRateLimitWindow}
    (h : (consumeWindow policy now existing).1.allowed = false) :
    ∃ window, existing = some window ∧ now < window.resetAt ∧ policy.maxRequests ≤ window.count ∧
      (consumeWindow policy now existing).1.retryAfterSeconds =
        some (secondsUntil window.resetAt now) ∧
      (consumeWindow policy now existing).2 = existing := by
  cases existing with
  | none =>
    rw [(consumeWindow_none policy now).1] at h
    cases h
  | some window =>
    by_cases hactive : now < window.resetAt
    · by_cases hfull : policy.maxRequests ≤ window.count
      · refine ⟨window,rfl,hactive,hfull,?_,(consumeWindow_of_full hactive hfull).2⟩
        simp [consumeWindow,currentWindow,isActiveRateLimitWindow,hactive,hfull]
      · rw [(consumeWindow_of_room hactive (not_le.mp hfull)).1] at h
        cases h
    · rw [consumeWindow_of_passed (not_lt.mp hactive),(consumeWindow_none policy now).1] at h
      cases h

/-- `Retry-After` is exact: the next request of a refused subject is let through when it waits that
many seconds, and refused when it comes back a whole number of seconds earlier. -/
theorem retry_after {subject : String} {windows : RateLimitWindows}
    {between : List (Call String Int)} (hothers : ∀ call ∈ between, call.key ≠ subject)
    (hrefused : (consume policy now subject windows).1.allowed = false) :
    ∃ seconds, (consume policy now subject windows).1.retryAfterSeconds = some seconds ∧
      1 ≤ seconds ∧
      (∀ later, now + 1000 * seconds ≤ later → (consume policy later subject
        (consumeAll policy between (consume policy now subject windows).2).2).1.allowed = true) ∧
      ∀ earlier, 0 ≤ earlier → earlier < seconds →
        (consume policy (now + 1000 * earlier) subject
          (consumeAll policy between (consume policy now subject windows).2).2).1.allowed =
            false := by
  have hconsume (time : Int) (kept : RateLimitWindows) :
      (consume policy time subject kept).1 = (consumeWindow policy time (kept subject)).1 := rfl
  rw [hconsume] at hrefused
  obtain ⟨window,hwindow,hactive,hfull,hretry,hstays⟩ := consumeWindow_refused hrefused
  have hkept : (consumeAll policy between (consume policy now subject windows).2).2 subject =
      some window := by
    rw [consumeAll_eq_serve,serve_kept_of_forall_ne hothers]
    simp [consume,hstays]
    exact hwindow
  have hone : 1 ≤ secondsUntil window.resetAt now := le_max_left _ _
  refine ⟨_,hretry,hone,?_,?_⟩
  · intro later hlater
    have hpassed := (secondsUntil_le_iff hone).mp (le_refl (secondsUntil window.resetAt now))
    rw [hconsume,hkept,consumeWindow_of_passed (by omega)]
    exact (consumeWindow_none policy later).1
  · intro earlier hnonneg hearlier
    have hstill : now + 1000 * earlier < window.resetAt := by
      by_cases hzero : earlier = 0
      · omega
      · have := not_iff_not.mpr (@secondsUntil_le_iff now window.resetAt earlier (by omega))
        omega
    rw [hconsume,hkept]
    exact (consumeWindow_of_full hstill hfull).1

theorem retry_after_second : ∃ seconds,
    (consume ⟨1,10,by decide,by decide⟩ 5 "a" fun _ => some ⟨1,10⟩).1.retryAfterSeconds =
      some seconds ∧ 1 ≤ seconds ∧
      (∀ later, 5 + 1000 * seconds ≤ later → (consume ⟨1,10,by decide,by decide⟩ later "a"
        (consumeAll ⟨1,10,by decide,by decide⟩ [⟨"b",7⟩]
          (consume ⟨1,10,by decide,by decide⟩ 5 "a" fun _ => some ⟨1,10⟩).2).2).1.allowed = true) ∧
      ∀ earlier, 0 ≤ earlier → earlier < seconds →
        (consume ⟨1,10,by decide,by decide⟩ (5 + 1000 * earlier) "a"
          (consumeAll ⟨1,10,by decide,by decide⟩ [⟨"b",7⟩]
            (consume ⟨1,10,by decide,by decide⟩ 5 "a" fun _ => some ⟨1,10⟩).2).2).1.allowed =
              false :=
  retry_after (by decide) (by decide)

end OnlyDoge.Access
