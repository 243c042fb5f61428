import OnlyDoge.Access.KeyRequests
set_option autoImplicit false

/-!
The first key of an empty table (`createBootstrapApiKey` of `metadata-store.ts`): however many
requests race for it, one gets it each time the table is empty.
-/

namespace OnlyDoge.Access
open Interleaving
open Mempool (Driver)

namespace CallProgress

/-- A request without a key was given one. -/
def bootstrapped : CallProgress → Bool
  | .releasing (.ok (.created _)) | .finished none (.ok (.created _)) => true
  | _ => false

/-- The request has the lock of `createBootstrapApiKey`. -/
def holding : CallProgress → Bool
  | .bootstrapCounting _ | .bootstrapInserting _ | .bootstrapReading _ | .committing _
  | .rollingBack _ | .releasing _ => true
  | _ => false

/-- The request found the table empty, and has not ended its transaction. -/
def foundEmpty : CallProgress → Bool
  | .bootstrapInserting _ | .bootstrapReading _ | .committing _ => true
  | _ => false

theorem holding_of_foundEmpty {p : CallProgress} (h : p.foundEmpty = true) : p.holding = true := by
  cases p with
  | bootstrapInserting | bootstrapReading | committing => rfl
  | _ => cases h

/-- Neither in the transaction nor at its end. -/
def Aside (p : CallProgress) : Prop := p.holding = false ∧ p.bootstrapped = false

end CallProgress

section Steps
variable {ι : Type} {hashApiSecretLookupKey : String → String} {driver : Driver}
  {calls : ι → KeyCall} {i : ι} {given : CallGiven} {p p' : CallProgress} {store st : KeyStore ι}

variable (i store p) in
/-- What a step does to the lock and to the table. -/
inductive LockStep : CallProgress → KeyStore ι → Prop
  | aside {p' : CallProgress} {st : KeyStore ι} (hp : p.holding = false) (hp' : p'.Aside)
      (hholder : st.holder = store.holder) : LockStep p' st
  | takes (record : ApiKeyRecord) (hp : p = .locking record) (hfree : store.holder = none) :
      LockStep (.bootstrapCounting record) { store with holder := some i }
  | counts (record : ApiKeyRecord) (hp : p = .bootstrapCounting record)
      (hempty : store.table.rows = []) : LockStep (.bootstrapInserting record) store
  | goesOn {p' : CallProgress} {st : KeyStore ι} (hp : p.foundEmpty = true)
      (hp' : p'.foundEmpty = true) (htable : st.table = store.table)
      (hholder : st.holder = store.holder) : LockStep p' st
  | leaves {p' : CallProgress} {st : KeyStore ι} (hp : p.holding = true)
      (hp' : p'.foundEmpty = false) (hgiven : p'.bootstrapped = p.bootstrapped)
      (htable : st.table = store.table)
      (hholder : p'.holding = false ∨ st.holder = store.holder) : LockStep p' st
  | commits {p' : CallProgress} {st : KeyStore ι} (record : ApiKeyRecord)
      (hp : p = .committing record) (hp' : p'.foundEmpty = false)
      (hrows : st.table.rows = store.table.rows ++ [record])
      (hholder : p'.holding = false ∨ st.holder = store.holder) : LockStep p' st

theorem aside_finished {key : AuthenticatedApiKey} {result : Except CallError CallAnswer} :
    (CallProgress.finished (some key) result).Aside := by
  cases result with
  | error error => exact ⟨rfl,rfl⟩
  | ok answer => cases answer <;> exact ⟨rfl,rfl⟩

theorem aside_afterIdCheck {key : AuthenticatedApiKey} {input : CreateApiKeyInput} {drawn : Drawn}
    {now : String} {hasConfiguredKeys : Bool} :
    (afterIdCheck hashApiSecretLookupKey key input drawn now hasConfiguredKeys).Aside := by
  unfold afterIdCheck
  split <;> exact ⟨rfl,rfl⟩

theorem aside_afterBootstrapCheck {input : CreateApiKeyInput} {drawn : Drawn} {now : String} :
    (afterBootstrapCheck hashApiSecretLookupKey input drawn now).Aside := by
  unfold afterBootstrapCheck
  split <;> exact ⟨rfl,rfl⟩

theorem aside_beginOperation {key : AuthenticatedApiKey} {operation : KeyOperation} :
    (beginOperation key operation).Aside := by
  cases operation <;> exact ⟨rfl,rfl⟩

theorem aside_afterChange {key : AuthenticatedApiKey} {progress : Progress} :
    (afterChange key progress).Aside := by
  cases progress with
  | finished result => cases result <;> exact ⟨rfl,rfl⟩
  | _ => exact ⟨rfl,rfl⟩

theorem aside_authentication
    (h : advanceAuthentication hashApiSecretLookupKey (calls i) given p store = some (p',st)) :
    p'.Aside ∧ st.holder = store.holder := by
  cases p with
  | arrived =>
    simp only [advanceAuthentication] at h
    split at h
    · cases h
      exact ⟨⟨rfl,rfl⟩,rfl⟩
    split at h
    · cases h
      exact ⟨⟨rfl,rfl⟩,rfl⟩
    split at h <;> cases h
    · refine ⟨?_,rfl⟩
      unfold beginBootstrap
      split
      · exact ⟨rfl,rfl⟩
      · exact ⟨rfl,rfl⟩
      · exact aside_afterBootstrapCheck
    · exact ⟨⟨rfl,rfl⟩,rfl⟩
  | configured =>
    simp only [advanceAuthentication] at h
    split at h
    · cases h
      exact ⟨⟨rfl,rfl⟩,rfl⟩
    split at h
    · cases h
      exact ⟨⟨rfl,rfl⟩,rfl⟩
    split at h <;> cases h <;> exact ⟨⟨rfl,rfl⟩,rfl⟩
  | lookingUp secretKeyHash =>
    simp only [advanceAuthentication] at h
    split at h
    · cases h
      exact ⟨⟨rfl,rfl⟩,rfl⟩
    split at h
    · cases h
      exact ⟨⟨rfl,rfl⟩,rfl⟩
    split at h <;> cases h
    · exact ⟨aside_beginOperation,rfl⟩
    · exact ⟨⟨rfl,rfl⟩,rfl⟩
  | _ => cases h

theorem aside_change {key : AuthenticatedApiKey} {operation : KeyOperation} {progress : Progress}
    (h : advanceChange driver key operation given progress store = some (p',st)) :
    p'.Aside ∧ st.holder = store.holder := by
  unfold advanceChange at h
  split at h
  · cases h
  split at h
  · cases h
  split at h
  · cases h
    exact ⟨aside_finished,rfl⟩
  · obtain ⟨found,-,heq⟩ := Option.map_eq_some_iff.mp h
    cases heq
    exact ⟨aside_afterChange,rfl⟩

theorem aside_createKey {input : CreateApiKeyInput} {drawn : Drawn}
    (h : advanceCreateKey hashApiSecretLookupKey driver input drawn given p store = some (p',st)) :
    p'.Aside ∧ st.holder = store.holder := by
  cases p with
  | counting key =>
    simp only [advanceCreateKey] at h
    split at h <;> cases h
    · exact ⟨aside_finished,rfl⟩
    refine ⟨?_,rfl⟩
    unfold afterCounting
    split
    · exact aside_finished
    split
    · exact aside_finished
    · exact ⟨rfl,rfl⟩
    · exact aside_afterIdCheck
  | checkingId key hasConfiguredKeys id =>
    simp only [advanceCreateKey] at h
    split at h
    · cases h
      exact ⟨aside_finished,rfl⟩
    split at h <;> cases h
    · exact ⟨aside_finished,rfl⟩
    · exact ⟨aside_afterIdCheck,rfl⟩
  | inserting key record =>
    simp only [advanceCreateKey] at h
    split at h
    · cases h
    split at h
    · cases h
      exact ⟨aside_finished,rfl⟩
    split at h <;> cases h
    · exact ⟨aside_finished,rfl⟩
    · exact ⟨⟨rfl,rfl⟩,rfl⟩
  | reading key record =>
    simp only [advanceCreateKey] at h
    split at h
    · cases h
      exact ⟨aside_finished,rfl⟩
    split at h <;> cases h <;> exact ⟨aside_finished,rfl⟩
  | _ => cases h

theorem lockStep_ended {error : CallError} {before : KeyStore ι} (hp : p.holding = true)
    (hgiven : p.bootstrapped = false) (htable : before.table = store.table)
    (hholder : before.holder = store.holder)
    (h : ended driver (.error error) before = (p',st)) : LockStep i p store p' st := by
  unfold ended at h
  split at h <;> cases h
  · exact .leaves hp rfl hgiven.symm htable (.inr hholder)
  · exact .leaves hp rfl hgiven.symm htable (.inl rfl)

theorem lockStep_bootstrapKey {input : CreateApiKeyInput} {drawn : Drawn}
    (h : advanceBootstrapKey hashApiSecretLookupKey driver i input drawn given p store =
      some (p',st)) : LockStep i p store p' st := by
  cases p with
  | bootstrapChecking id =>
    simp only [advanceBootstrapKey] at h
    split at h
    · cases h
      exact .aside rfl ⟨rfl,rfl⟩ rfl
    split at h <;> cases h
    · exact .aside rfl ⟨rfl,rfl⟩ rfl
    · exact .aside rfl aside_afterBootstrapCheck rfl
  | locking record =>
    simp only [advanceBootstrapKey] at h
    split at h
    · cases h
      exact .aside rfl ⟨rfl,rfl⟩ rfl
    split at h <;> cases h
    exact .takes record rfl (Option.isNone_iff_eq_none.mp (by assumption))
  | bootstrapCounting record =>
    simp only [advanceBootstrapKey] at h
    split at h
    · cases h
      exact .leaves rfl rfl rfl rfl (.inr rfl)
    split at h
    · exact lockStep_ended rfl rfl rfl rfl (Option.some.inj h)
    · rename_i hcount
      cases h
      refine .counts record rfl ?_
      simpa [KeyStore.hasConfiguredKeys] using hcount
  | bootstrapInserting record =>
    simp only [advanceBootstrapKey] at h
    split at h <;> cases h
    · exact .leaves rfl rfl rfl rfl (.inr rfl)
    · exact .goesOn rfl rfl rfl rfl
  | bootstrapReading record =>
    simp only [advanceBootstrapKey] at h
    split at h <;> cases h
    · exact .leaves rfl rfl rfl rfl (.inr rfl)
    · exact .goesOn rfl rfl rfl rfl
  | committing record =>
    simp only [advanceBootstrapKey] at h
    split at h
    · cases h
      exact .leaves rfl rfl rfl rfl (.inr rfl)
    cases hinsert : store.table.insertApiKey record with
    | none =>
      simp only [hinsert] at h
      cases h
      exact .leaves rfl rfl rfl rfl (.inr rfl)
    | some table =>
      simp only [hinsert,Option.some.injEq] at h
      have hrows := ApiKeyTable.rows_insertApiKey hinsert
      unfold ended at h
      split at h <;> cases h
      · exact .commits record rfl rfl hrows (.inr rfl)
      · exact .commits record rfl rfl hrows (.inl rfl)
  | rollingBack error =>
    have hended := Option.some.inj h
    exact @lockStep_ended _ driver _ _ _ _ _ error { store with pending := none } rfl rfl rfl rfl
      hended
  | releasing result =>
    cases h
    refine .leaves rfl rfl ?_ rfl (.inl rfl)
    cases result with
    | error error => rfl
    | ok answer => cases answer <;> rfl
  | _ => cases h

theorem lockStep_of_advance
    (h : advanceCall hashApiSecretLookupKey driver calls i given p store = some (p',st)) :
    LockStep i p store p' st := by
  unfold advanceCall at h
  split at h
  · exact .aside rfl (aside_authentication h).1 (aside_authentication h).2
  · exact .aside rfl (aside_authentication h).1 (aside_authentication h).2
  · exact .aside rfl (aside_authentication h).1 (aside_authentication h).2
  · exact .aside rfl (aside_change h).1 (aside_change h).2
  all_goals
    split at h
    · first
        | exact .aside rfl (aside_createKey h).1 (aside_createKey h).2
        | exact lockStep_bootstrapKey h
    · cases h

theorem LockStep.holding (h : LockStep i p store p' st) (hp' : p'.holding = true) :
    (p.holding = true ∧ st.holder = store.holder) ∨ st.holder = some i := by
  cases h with
  | aside _ haside =>
    rw [haside.1] at hp'
    cases hp'
  | takes => exact .inr rfl
  | counts record hp => exact .inl ⟨by rw [hp]; rfl,rfl⟩
  | goesOn hp _ _ hholder => exact .inl ⟨CallProgress.holding_of_foundEmpty hp,hholder⟩
  | leaves hp _ _ _ hholder =>
    rcases hholder with hleft | hsame
    · rw [hleft] at hp'
      cases hp'
    · exact .inl ⟨hp,hsame⟩
  | commits record hp _ _ hholder =>
    rcases hholder with hleft | hsame
    · rw [hleft] at hp'
      cases hp'
    · exact .inl ⟨by rw [hp]; rfl,hsame⟩

theorem LockStep.holder (h : LockStep i p store p' st) :
    st.holder = store.holder ∨ store.holder = none ∨ p.holding = true := by
  cases h with
  | aside _ _ hholder => exact .inl hholder
  | takes _ _ hfree => exact .inr (.inl hfree)
  | counts => exact .inl rfl
  | goesOn _ _ _ hholder => exact .inl hholder
  | leaves hp => exact .inr (.inr hp)
  | commits record hp => exact .inr (.inr (by rw [hp]; rfl))

theorem LockStep.foundEmpty (h : LockStep i p store p' st) (hp' : p'.foundEmpty = true) :
    p.foundEmpty = true ∨ store.table.rows = [] := by
  cases h with
  | aside _ haside =>
    have hheld := CallProgress.holding_of_foundEmpty hp'
    rw [haside.1] at hheld
    cases hheld
  | takes => cases hp'
  | counts _ _ hempty => exact .inr hempty
  | goesOn hp => exact .inl hp
  | leaves _ hleft =>
    rw [hleft] at hp'
    cases hp'
  | commits _ _ hleft =>
    rw [hleft] at hp'
    cases hp'

theorem LockStep.bootstrapped (h : LockStep i p store p' st) (hp' : p'.bootstrapped = true)
    (hp : p.bootstrapped = false) :
    p.foundEmpty = true ∧ p'.foundEmpty = false ∧ st.table.rows ≠ [] := by
  cases h with
  | aside _ haside =>
    rw [haside.2] at hp'
    cases hp'
  | takes | counts => cases hp'
  | goesOn _ hfound =>
    cases p' with
    | bootstrapInserting | bootstrapReading | committing => cases hp'
    | _ => cases hfound
  | leaves _ _ hsame =>
    rw [hsame,hp] at hp'
    cases hp'
  | commits record heq hleft hrows => exact ⟨by rw [heq]; rfl,hleft,by simp [hrows]⟩

end Steps

section Runs
variable {ι : Type} [DecidableEq ι] {hashApiSecretLookupKey : String → String} {driver : Driver}
  {calls : ι → KeyCall} {s t : Calls ι} {event : Event ι CallGiven Empty}
  {events : List (Event ι CallGiven Empty)}

/-- The step takes the last key away. -/
def Empties (s t : Calls ι) : Prop := s.store.table.rows ≠ [] ∧ t.store.table.rows = []

instance : Decidable (Empties s t) := inferInstanceAs (Decidable (_ ∧ _))

variable (hashApiSecretLookupKey driver calls) in
/-- How often the table loses its last key in a run. -/
def emptyings : List (Event ι CallGiven Empty) → Calls ι → Nat
  | [],_ => 0
  | event::events,s =>
    match stepCalls hashApiSecretLookupKey driver calls event s with
    | none => 0
    | some t => (if Empties s t then 1 else 0) + emptyings events t

theorem emptyings_snoc {start : Calls ι}
    (hrun : Machine.run (stepCalls hashApiSecretLookupKey driver calls) events start = some s)
    (hstep : stepCalls hashApiSecretLookupKey driver calls event s = some t) :
    emptyings hashApiSecretLookupKey driver calls (events ++ [event]) start =
      emptyings hashApiSecretLookupKey driver calls events start +
        if Empties s t then 1 else 0 := by
  induction events generalizing start with
  | nil =>
    cases hrun
    simp [emptyings,hstep]
  | cons first events ih =>
    obtain ⟨next,hfirst,hrun⟩ := Option.bind_eq_some_iff.mp hrun
    simp only [List.cons_append,emptyings,hfirst,ih hrun]
    omega

/-- At most `n` requests have been given a key without one. -/
def BootstrappedAtMost (n : Nat) (s : Calls ι) : Prop :=
  ∀ is : List ι, is.Nodup → (∀ i ∈ is, (s.progress i).bootstrapped = true) → is.length ≤ n

omit [DecidableEq ι] in
theorem BootstrappedAtMost.of_step {n : Nat} (h : BootstrappedAtMost n s)
    (hgiven : ∀ j, (t.progress j).bootstrapped = true → (s.progress j).bootstrapped = true) :
    BootstrappedAtMost n t :=
  fun is hnodup his => h is hnodup fun i hi => hgiven i (his i hi)

theorem BootstrappedAtMost.of_commit {n : Nat} (i : ι) (h : BootstrappedAtMost n s)
    (hgiven : ∀ j, j ≠ i → (t.progress j).bootstrapped = true →
      (s.progress j).bootstrapped = true) : BootstrappedAtMost (n + 1) t := by
  intro is hnodup his
  have hrest := h (is.erase i) (hnodup.erase i) fun j hj => by
    obtain ⟨hne,hmem⟩ := hnodup.mem_erase_iff.mp hj
    exact hgiven j hne (his j hmem)
  rw [List.length_erase] at hrest
  split at hrest <;> omega

variable (n : Nat) in
/-- When the table has been emptied `n` times: one key more may have been given, but not where the
table is empty, or where a request that holds the lock has found it so. -/
structure Bootstraps (s : Calls ι) : Prop where
  locked : ∀ j, (s.progress j).holding = true → s.store.holder = some j
  given : BootstrappedAtMost (n + 1) s
  empty : s.store.table.rows = [] → BootstrappedAtMost n s
  found : ∀ j, (s.progress j).foundEmpty = true → BootstrappedAtMost n s

omit [DecidableEq ι] in
theorem BootstrappedAtMost.mono {n m : Nat} (h : BootstrappedAtMost n s) (hle : n ≤ m) :
    BootstrappedAtMost m s :=
  fun is hnodup his => (h is hnodup his).trans hle

theorem Bootstraps.step {n : Nat} (h : Bootstraps n s)
    (hstep : stepCalls hashApiSecretLookupKey driver calls event s = some t) :
    Bootstraps (n + if Empties s t then 1 else 0) t := by
  cases event with
  | outside event => exact nomatch event
  | call i given =>
  obtain ⟨p',st,hadvance,rfl⟩ := step_call.mp hstep
  have hlock := lockStep_of_advance hadvance
  have hprogress (j : ι) : Function.update s.progress i p' j =
      if j = i then p' else s.progress j := Function.update_apply ..
  -- a request that holds the lock is the only one that does
  have halone (hi : (s.progress i).holding = true) (j : ι) (hj : j ≠ i) :
      (s.progress j).holding = false := by
    cases hheld : (s.progress j).holding with
    | false => rfl
    | true => exact absurd (Option.some.inj ((h.locked j hheld).symm.trans (h.locked i hi))) hj
  have hlocked (j : ι) (hheld : (Function.update s.progress i p' j).holding = true) :
      st.holder = some j := by
    rw [hprogress] at hheld
    split at hheld
    · subst j
      rcases hlock.holding hheld with ⟨hp,hsame⟩ | hnew
      · rw [hsame,h.locked i hp]
      · exact hnew
    · have hj := h.locked j hheld
      rcases hlock.holder with hsame | hfree | hp
      · rw [hsame,hj]
      · rw [hfree] at hj
        cases hj
      · rw [halone hp j (by assumption)] at hheld
        cases hheld
  by_cases hnew : p'.bootstrapped = true ∧ (s.progress i).bootstrapped = false
  · obtain ⟨hfound,hleft,hrows⟩ := hlock.bootstrapped hnew.1 hnew.2
    have hheld := CallProgress.holding_of_foundEmpty hfound
    rw [if_neg fun hempty => hrows hempty.2]
    refine ⟨hlocked,?_,fun hempty => absurd hempty hrows,fun j hj => ?_⟩
    · refine BootstrappedAtMost.of_commit i (h.found i hfound) fun j hj hbooted => ?_
      dsimp only at hbooted
      rwa [hprogress,if_neg hj] at hbooted
    · dsimp only at hj
      rw [hprogress] at hj
      split at hj
      · rw [hleft] at hj
        cases hj
      · have hother := CallProgress.holding_of_foundEmpty hj
        rw [halone hheld j (by assumption)] at hother
        cases hother
  · have hsame {m : Nat} (hm : BootstrappedAtMost m s) :
        BootstrappedAtMost m ⟨st,Function.update s.progress i p'⟩ := by
      refine hm.of_step fun j hbooted => ?_
      dsimp only at hbooted
      rw [hprogress] at hbooted
      split at hbooted
      · subst j
        cases hbefore : (s.progress i).bootstrapped with
        | true => rfl
        | false => exact absurd ⟨hbooted,hbefore⟩ hnew
      · exact hbooted
    refine ⟨hlocked,(hsame h.given).mono (by omega),fun hempty => ?_,fun j hj => ?_⟩
    · by_cases hrows : s.store.table.rows = []
      · exact (hsame (h.empty hrows)).mono (by omega)
      · rw [if_pos ⟨hrows,hempty⟩]
        exact hsame h.given
    · dsimp only at hj
      rw [hprogress] at hj
      split at hj
      · subst j
        rcases hlock.foundEmpty hj with hbefore | hrows
        · exact (hsame (h.found i hbefore)).mono (by omega)
        · exact (hsame (h.empty hrows)).mono (by omega)
      · exact (hsame (h.found j hj)).mono (by omega)

theorem bootstraps_run
    (hrun : Machine.run (stepCalls hashApiSecretLookupKey driver calls) events noKeysYet = some s) :
    Bootstraps (emptyings hashApiSecretLookupKey driver calls events noKeysYet) s := by
  refine @Machine.run_history _ _ _ _ _ _ (fun events s =>
    Bootstraps (emptyings hashApiSecretLookupKey driver calls events noKeysYet) s) ?_
    (fun passed event t u ht h hstep => ?_) hrun
  · have hnone (n : Nat) : BootstrappedAtMost n (noKeysYet : Calls ι) := by
      intro is _ his
      cases is with
      | nil => exact Nat.zero_le n
      | cons i is =>
        have hi := his i List.mem_cons_self
        cases hi
    exact ⟨fun _ h => (nomatch h),hnone _,fun _ => hnone _,fun _ h => (nomatch h)⟩
  · rw [emptyings_snoc ht hstep]
    exact h.step hstep

/-- However many requests race for the first key, in any order of their steps and on any database,
no more of them are given one than the table has been empty times. -/
theorem bootstrapped_le_emptyings {is : List ι}
    (hrun : Machine.run (stepCalls hashApiSecretLookupKey driver calls) events noKeysYet = some s)
    (hnodup : is.Nodup) (hgiven : ∀ i ∈ is, (s.progress i).bootstrapped = true) :
    is.length ≤ emptyings hashApiSecretLookupKey driver calls events noKeysYet + 1 :=
  (bootstraps_run hrun).given is hnodup hgiven

end Runs

/-- Key `a` bootstraps and creates the admin `b`, each of them deletes the other, and the last
request, which came first, bootstraps anew. -/
def keyRace : Fin 5 → KeyCall
  | 0 => ⟨none,.createKey ⟨some "key_a",none⟩ ⟨[1],nilUuid⟩⟩
  | 1 => ⟨some "sk_01",.createKey ⟨some "key_b",some .admin⟩ ⟨[2],nilUuid⟩⟩
  | 2 => ⟨some "sk_01",.deleteKeys ["key_b"]⟩
  | 3 => ⟨some "sk_02",.deleteKeys ["key_a"]⟩
  | 4 => ⟨none,.createKey ⟨none,none⟩ ⟨[4],nilUuid⟩⟩

def raceSteps (i : Fin 5) (n : Nat) : List (Event (Fin 5) CallGiven Empty) :=
  List.replicate n (.call i ⟨"t1",0,false⟩)

def raced : List (Event (Fin 5) CallGiven Empty) :=
  raceSteps 4 1 ++ raceSteps 0 7 ++ raceSteps 1 7 ++ raceSteps 2 5 ++ raceSteps 3 5 ++
    raceSteps 2 1 ++ raceSteps 3 1 ++ raceSteps 4 5

theorem raced_run : ∃ s, Machine.run (stepCalls id .postgres keyRace) raced noKeysYet = some s ∧
    ∀ i ∈ [0,4], (s.progress i).bootstrapped = true := by
  have h : (Machine.run (stepCalls id .postgres keyRace) raced noKeysYet).map (fun s =>
      decide (∀ i ∈ [0,4], (s.progress i).bootstrapped = true)) = some true := by
    decide +kernel
  obtain ⟨s,hrun,heq⟩ := Option.map_eq_some_iff.mp h
  exact ⟨s,hrun,of_decide_eq_true heq⟩

theorem bootstrapped_le_emptyings_of_race :
    emptyings id .postgres keyRace raced noKeysYet = 1 ∧
      ([0,4] : List (Fin 5)).length ≤ emptyings id .postgres keyRace raced noKeysYet + 1 := by
  obtain ⟨s,hrun,hgiven⟩ := raced_run
  exact ⟨by decide +kernel,bootstrapped_le_emptyings hrun (by decide) hgiven⟩

end OnlyDoge.Access
