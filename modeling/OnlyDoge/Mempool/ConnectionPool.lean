import Mathlib.Algebra.BigOperators.Group.Finset.Basic
import Mathlib.Algebra.Order.BigOperators.Group.Finset
import Mathlib.Algebra.Ring.Nat
import OnlyDoge.Mempool.WatchCap
set_option autoImplicit false

/-!
The Postgres connections of concurrent `createActiveMempoolWatch` calls: each holds one for its
transaction and takes another of the same pool for every statement.
-/

namespace OnlyDoge.Mempool
open Interleaving Machine

/-- What a call has of the pool: nothing, a place in the queue, the connection of its transaction,
or that one and the connection of the statement that runs. -/
inductive Hold where
  | none
  | queued
  | transaction
  | statement
  deriving DecidableEq,Repr

def Hold.connections : Hold → Nat
  | .none | .queued => 0
  | .transaction => 1
  | .statement => 2

/-- The next step of the call is a statement of `work`, which goes through the pool. -/
def Progress.isStatement : Progress → Bool
  | .locked | .expired | .counting | .counted _ => true
  | _ => false

structure Pool (ι : Type) where
  calls : Calls ι
  hold : ι → Hold
  active : Finset ι

inductive PoolEvent (ι : Type) where
  | begin (i : ι)
  | connect (i : ι)
  | timeOut (i : ι)
  | proceed (i : ι) (given : Given)
  | outside (event : Outside)

section Steps
variable {ι : Type} [DecidableEq ι]

namespace Pool

def inUse (s : Pool ι) : Nat := s.active.sum fun i => (s.hold i).connections

/-- A step of the call is done: a statement's connection goes back, at its end both do. -/
def settle (s : Pool ι) (i : ι) (progress : Progress) (store : WatchStore ι) : Pool ι where
  calls := ⟨store,Function.update s.calls.progress i progress⟩
  hold := Function.update s.hold i (if progress = .finished then .none else .transaction)
  active := if progress = .finished then s.active.erase i else s.active

/-- The next step of call `i` on the store. -/
def advanceCall (requests : ι → CreateInput) (i : ι) (given : Given) (s : Pool ι) :
    Option (Pool ι) :=
  (advance .postgres requests i given (s.calls.progress i) s.calls.store).map
    fun (progress,store) => s.settle i progress store

end Pool

/-- The steps over a pool of `max` connections. A call that waits for a connection may time out;
the lock, `COMMIT` and `ROLLBACK` run on the connection of the transaction. -/
def poolStep (max : Nat) (requests : ι → CreateInput) : PoolEvent ι → Pool ι → Option (Pool ι)
  | .begin i,s =>
    if i ∉ s.active ∧ s.calls.progress i = .waiting then
      some { s with hold := Function.update s.hold i .queued,active := insert i s.active }
    else none
  | .connect i,s =>
    if s.inUse < max then
      if s.hold i = .queued then some { s with hold := Function.update s.hold i .transaction }
      else if s.hold i = .transaction ∧ (s.calls.progress i).isStatement = true then
        some { s with hold := Function.update s.hold i .statement }
      else none
    else none
  | .timeOut i,s =>
    if s.hold i = .queued ∨ s.hold i = .transaction ∧ (s.calls.progress i).isStatement = true then
      s.advanceCall requests i ⟨0,true⟩
    else none
  | .proceed i given,s =>
    if s.hold i = .statement ∨ s.hold i = .transaction ∧ (s.calls.progress i).isStatement = false
    then s.advanceCall requests i given
    else none
  | .outside event,s =>
    (Mempool.outside event s.calls.store).map fun store =>
      { s with calls := { s.calls with store := store } }

def idlePool (watches : List ActiveMempoolWatch) (now : Nat) : Pool ι :=
  ⟨noCallsYet watches now,fun _ => .none,∅⟩

def WaitsForLock (requests : ι → CreateInput) (s : Pool ι) (i : ι) : Prop :=
  s.hold i = .transaction ∧ s.calls.progress i = .waiting ∧
    s.calls.store.holder (advisoryLockKey (requests i).apiKeyId) ≠ none

def WaitsForConnection (s : Pool ι) (i : ι) : Prop :=
  s.hold i = .queued ∨ s.hold i = .transaction ∧ (s.calls.progress i).isStatement = true

/-- Every connection is held by a call that itself waits for the lock or for a connection. -/
def Stuck (max : Nat) (requests : ι → CreateInput) (s : Pool ι) : Prop :=
  s.inUse = max ∧ ∀ i ∈ s.active, 0 < (s.hold i).connections →
    WaitsForLock requests s i ∨ WaitsForConnection s i

/-- The call gets its connection, or takes its next step without failing. -/
def CanGoOn (max : Nat) (requests : ι → CreateInput) (s : Pool ι) (i : ι) : Prop :=
  (poolStep max requests (.connect i) s).isSome = true ∨
    ∃ now, (poolStep max requests (.proceed i ⟨now,false⟩) s).isSome = true

structure Unblocked (max : Nat) (requests : ι → CreateInput) (s : Pool ι) : Prop where
  free : ¬Stuck max requests s
  goesOn : s.active.Nonempty → ∃ i ∈ s.active, CanGoOn max requests s i

/-- A call is begun only while fewer than `n` others are in progress. -/
def OverlapBelow (n : Nat) (event : PoolEvent ι) (s : Pool ι) : Prop :=
  ∀ i, event = .begin i → s.active.card < n

end Steps

section Invariant
variable {ι : Type} {requests : ι → CreateInput}

theorem advance_postgres {i : ι} {given : Given} {progress p : Progress} {store st : WatchStore ι}
    (h : advance .postgres requests i given progress store = some (p,st)) :
    (progress = .waiting ∧ p = .finished ∧ st.holder = store.holder) ∨
    (progress = .waiting ∧ p = .locked ∧
      st = store.setHolder (advisoryLockKey (requests i).apiKeyId) (some i)) ∨
    (progress.isStatement = true ∧ p ≠ .waiting ∧ p ≠ .finished ∧ st.holder = store.holder) ∨
    ((progress = .inserted ∨ progress = .failed) ∧ p = .finished ∧
      st = store.setHolder (advisoryLockKey (requests i).apiKeyId) none) := by
  cases progress with
  | waiting =>
    simp only [advance,if_true] at h
    split at h
    · cases h
      exact Or.inl ⟨rfl,rfl,rfl⟩
    · split at h
      · cases h
        exact Or.inr (Or.inl ⟨rfl,rfl,rfl⟩)
      · cases h
  | locked | expired | counting | counted =>
    simp only [advance,ended,if_true] at h
    split at h <;> cases h <;>
      exact Or.inr (Or.inr (Or.inl ⟨rfl,by simp,by simp,rfl⟩))
  | inserted =>
    cases h
    exact Or.inr (Or.inr (Or.inr ⟨Or.inl rfl,rfl,rfl⟩))
  | failed =>
    cases h
    exact Or.inr (Or.inr (Or.inr ⟨Or.inr rfl,rfl,rfl⟩))
  | finished => cases h

theorem advance_enabled {i : ι} {progress : Progress} {store : WatchStore ι} (now : Nat)
    (hfinished : progress ≠ .finished)
    (hlock : progress = .waiting → store.holder (advisoryLockKey (requests i).apiKeyId) = none) :
    (advance .postgres requests i ⟨now,false⟩ progress store).isSome = true := by
  cases progress with
  | waiting => simp [advance,hlock rfl]
  | counting =>
    simp only [advance]
    split <;> rfl
  | finished => exact absurd rfl hfinished
  | _ => rfl

variable {s t : Pool ι}

/-- What a call has of the pool fits how far it has come, and who holds a lock is in progress. -/
structure Sound (requests : ι → CreateInput) (s : Pool ι) : Prop where
  resting : ∀ i, i ∉ s.active → s.hold i = .none
  active : ∀ i ∈ s.active, s.hold i = .queued ∧ s.calls.progress i = .waiting ∨
    s.hold i = .transaction ∧ s.calls.progress i ≠ .finished ∨
    s.hold i = .statement ∧ (s.calls.progress i).isStatement = true
  holder : ∀ key i, s.calls.store.holder key = some i → i ∈ s.active ∧
    s.calls.progress i ≠ .waiting ∧ key = advisoryLockKey (requests i).apiKeyId

theorem sound_idlePool (watches : List ActiveMempoolWatch) (now : Nat) :
    Sound requests (idlePool watches now : Pool ι) where
  resting := fun _ _ => rfl
  active := fun i hi => absurd hi (Finset.notMem_empty i)
  holder := fun _ _ h => by cases h

/-- Where each call in progress has one connection at most, fewer calls than connections leave one
free. -/
theorem inUse_lt {max : Nat} (hfew : s.active.card < max)
    (hone : ∀ i ∈ s.active, (s.hold i).connections ≤ 1) : s.inUse < max := by
  have hsum : s.inUse ≤ s.active.sum fun _ => 1 := Finset.sum_le_sum hone
  rw [← Finset.card_eq_sum_ones] at hsum
  omega

theorem not_stuck_of_few {max : Nat} (hfew : s.active.card < max) : ¬Stuck max requests s := by
  rintro ⟨hfull,hwaits⟩
  refine absurd (inUse_lt hfew fun i hi => ?_) (by omega)
  by_cases hholds : 0 < (s.hold i).connections
  · rcases hwaits i hi hholds with ⟨hhold,-⟩ | hhold | ⟨hhold,-⟩ <;> rw [hhold] <;>
      simp [Hold.connections]
  · omega

variable [DecidableEq ι]

theorem Sound.mem_active (h : Sound requests s) {i : ι} (hi : s.hold i ≠ .none) : i ∈ s.active := by
  by_contra hout
  exact hi (h.resting i hout)

theorem Sound.settle (h : Sound requests s) {i : ι} (hi : i ∈ s.active) {given : Given}
    {p : Progress} {st : WatchStore ι}
    (hadvance : advance .postgres requests i given (s.calls.progress i) s.calls.store =
      some (p,st)) : Sound requests (s.settle i p st) := by
  have hcases := advance_postgres hadvance
  have hmem : ∀ j, j ≠ i → (j ∈ (s.settle i p st).active ↔ j ∈ s.active) := by
    intro j hj
    by_cases hp : p = .finished <;> simp [Pool.settle,hp,hj]
  have hsame : ∀ j, j ≠ i → (s.settle i p st).hold j = s.hold j ∧
      (s.settle i p st).calls.progress j = s.calls.progress j := fun j hj =>
    ⟨Function.update_of_ne hj _ _,Function.update_of_ne hj _ _⟩
  have hown : (s.settle i p st).calls.progress i = p := Function.update_self ..
  have hstays : p ≠ .finished → i ∈ (s.settle i p st).active ∧
      (s.settle i p st).hold i = .transaction := by
    intro hp
    simp [Pool.settle,hp,hi]
  refine ⟨fun j hj => ?_,fun j hj => ?_,fun key j hj => ?_⟩
  · by_cases heq : j = i
    · subst heq
      by_cases hp : p = .finished
      · simp [Pool.settle,hp]
      · exact absurd (hstays hp).1 hj
    · rw [(hsame j heq).1]
      exact h.resting j fun hmem' => hj ((hmem j heq).mpr hmem')
  · by_cases heq : j = i
    · subst heq
      by_cases hp : p = .finished
      · simp [Pool.settle,hp] at hj
      · exact Or.inr (Or.inl ⟨(hstays hp).2,by rw [hown]; exact hp⟩)
    · rw [(hsame j heq).1,(hsame j heq).2]
      exact h.active j ((hmem j heq).mp hj)
  · change st.holder key = some j at hj
    -- another call keeps its lock; the call's own lock is taken, kept or given back
    have hother : s.calls.store.holder key = some j → j ≠ i → j ∈ (s.settle i p st).active ∧
        (s.settle i p st).calls.progress j ≠ .waiting ∧
        key = advisoryLockKey (requests j).apiKeyId := by
      intro hholder heq
      obtain ⟨hactive,hprogress,hkey⟩ := h.holder key j hholder
      rw [(hsame j heq).2]
      exact ⟨(hmem j heq).mpr hactive,hprogress,hkey⟩
    rcases hcases with ⟨hwaiting,-,hst⟩ | ⟨hwaiting,rfl,rfl⟩ | ⟨hstatement,hpw,hpf,hst⟩ |
      ⟨-,-,rfl⟩
    · rw [hst] at hj
      refine hother hj fun heq => ?_
      subst heq
      exact (h.holder key j hj).2.1 hwaiting
    · by_cases hkey : key = advisoryLockKey (requests i).apiKeyId
      · simp only [WatchStore.setHolder,hkey,Function.update_self,Option.some.injEq] at hj
        subst hj
        exact ⟨(hstays (by simp)).1,by rw [hown]; simp,hkey⟩
      · simp only [WatchStore.setHolder,Function.update_of_ne hkey] at hj
        refine hother hj fun heq => ?_
        subst heq
        exact (h.holder key j hj).2.1 hwaiting
    · rw [hst] at hj
      by_cases heq : j = i
      · subst heq
        exact ⟨(hstays hpf).1,by rw [hown]; exact hpw,(h.holder key j hj).2.2⟩
      · exact hother hj heq
    · by_cases hkey : key = advisoryLockKey (requests i).apiKeyId
      · simp [WatchStore.setHolder,hkey] at hj
      · simp only [WatchStore.setHolder,Function.update_of_ne hkey] at hj
        refine hother hj fun heq => ?_
        subst heq
        exact hkey (h.holder key j hj).2.2

theorem Sound.advanceCall (h : Sound requests s) {i : ι} (hi : s.hold i ≠ .none) {given : Given}
    (hstep : s.advanceCall requests i given = some t) : Sound requests t := by
  obtain ⟨⟨p,st⟩,hadvance,rfl⟩ := Option.map_eq_some_iff.mp hstep
  exact h.settle (h.mem_active hi) hadvance

theorem Sound.rehold (h : Sound requests s) {i : ι} {hold : Hold}
    (hfits : hold = .queued ∧ s.calls.progress i = .waiting ∨
      hold = .transaction ∧ s.calls.progress i ≠ .finished ∨
      hold = .statement ∧ (s.calls.progress i).isStatement = true) :
    Sound requests
      { s with hold := Function.update s.hold i hold, active := insert i s.active } := by
  refine ⟨fun j hj => ?_,fun j hj => ?_,fun key j hj => ?_⟩
  · obtain ⟨hne,hout⟩ := not_or.mp fun hin => hj (Finset.mem_insert.mpr hin)
    exact (Function.update_of_ne hne _ _).trans (h.resting j hout)
  · by_cases heq : j = i
    · subst heq
      simpa using hfits
    · have := h.active j (Finset.mem_of_mem_insert_of_ne hj heq)
      simpa [Function.update_of_ne heq] using this
  · obtain ⟨hactive,hrest⟩ := h.holder key j hj
    exact ⟨Finset.mem_insert_of_mem hactive,hrest⟩

theorem Sound.step {max : Nat} {event : PoolEvent ι} (h : Sound requests s)
    (hstep : poolStep max requests event s = some t) : Sound requests t := by
  cases event with
  | begin i =>
    simp only [poolStep] at hstep
    split at hstep
    · next hnew =>
      cases hstep
      exact h.rehold (Or.inl ⟨rfl,hnew.2⟩)
    · cases hstep
  | connect i =>
    simp only [poolStep] at hstep
    split at hstep
    · split at hstep
      · next hqueued =>
        cases hstep
        have hi := h.mem_active (i := i) (by rw [hqueued]; simp)
        have hfits : s.calls.progress i ≠ .finished := by
          rcases h.active i hi with ⟨-,hw⟩ | ⟨hhold,-⟩ | ⟨hhold,-⟩
          · rw [hw]
            simp
          · rw [hqueued] at hhold
            cases hhold
          · rw [hqueued] at hhold
            cases hhold
        have := h.rehold (i := i) (Or.inr (Or.inl ⟨rfl,hfits⟩))
        rwa [Finset.insert_eq_of_mem hi] at this
      · split at hstep
        · next htransaction =>
          cases hstep
          have hi := h.mem_active (i := i) (by rw [htransaction.1]; simp)
          have := h.rehold (i := i) (Or.inr (Or.inr ⟨rfl,htransaction.2⟩))
          rwa [Finset.insert_eq_of_mem hi] at this
        · cases hstep
    · cases hstep
  | timeOut i =>
    simp only [poolStep] at hstep
    split at hstep
    · next hwaits =>
      refine h.advanceCall ?_ hstep
      rcases hwaits with hhold | ⟨hhold,-⟩ <;> rw [hhold] <;> simp
    · cases hstep
  | proceed i given =>
    simp only [poolStep] at hstep
    split at hstep
    · next hready =>
      refine h.advanceCall ?_ hstep
      rcases hready with hhold | ⟨hhold,-⟩ <;> rw [hhold] <;> simp
    · cases hstep
  | outside event =>
    obtain ⟨st,hst,rfl⟩ := Option.map_eq_some_iff.mp hstep
    have hholder : st.holder = s.calls.store.holder := by
      cases event <;> cases hst <;> rfl
    refine ⟨h.resting,h.active,fun key j hj => h.holder key j ?_⟩
    rw [← hholder]
    exact hj

theorem Sound.run {max : Nat} {events : List (PoolEvent ι)} (h : Sound requests s)
    (hrun : Machine.run (poolStep max requests) events s = some t) : Sound requests t :=
  run_invariant (fun _ _ _ hs hstep => hs.step hstep) h hrun

/-- The step lemma of progress: a running statement ends, a free connection goes to who waits for
one, and where all wait for the lock nobody holds it. -/
theorem Sound.goesOn (h : Sound requests s) {max : Nat} (hfew : s.active.card < max)
    (hsome : s.active.Nonempty) : ∃ i ∈ s.active, CanGoOn max requests s i := by
  have hready : ∀ i, s.hold i = .statement ∨
      s.hold i = .transaction ∧ (s.calls.progress i).isStatement = false →
      s.calls.progress i ≠ .finished → (s.calls.progress i = .waiting →
        s.calls.store.holder (advisoryLockKey (requests i).apiKeyId) = none) →
      CanGoOn max requests s i := by
    intro i hhold hfinished hlock
    refine Or.inr ⟨0,?_⟩
    simp only [poolStep,if_pos hhold,Pool.advanceCall,Option.isSome_map]
    exact advance_enabled 0 hfinished hlock
  by_cases hrunning : ∃ i ∈ s.active, s.hold i = .statement
  · obtain ⟨i,hi,hhold⟩ := hrunning
    have hstatement : (s.calls.progress i).isStatement = true := by
      rcases h.active i hi with ⟨hhold',-⟩ | ⟨hhold',-⟩ | ⟨-,hstatement⟩
      · rw [hhold] at hhold'
        cases hhold'
      · rw [hhold] at hhold'
        cases hhold'
      · exact hstatement
    refine ⟨i,hi,hready i (Or.inl hhold) ?_ ?_⟩
    · intro hp
      rw [hp] at hstatement
      cases hstatement
    · intro hp
      rw [hp] at hstatement
      cases hstatement
  · have hone : ∀ i ∈ s.active, (s.hold i).connections ≤ 1 := by
      intro i hi
      cases hhold : s.hold i with
      | statement => exact absurd ⟨i,hi,hhold⟩ hrunning
      | _ => simp [Hold.connections]
    have hfree := inUse_lt hfew hone
    by_cases hwaiting : ∃ i ∈ s.active, WaitsForConnection s i
    · obtain ⟨i,hi,hwaits⟩ := hwaiting
      refine ⟨i,hi,Or.inl ?_⟩
      rcases hwaits with hhold | ⟨hhold,hstatement⟩
      · simp [poolStep,hfree,hhold]
      · simp [poolStep,hfree,hhold,hstatement]
    · -- every call in progress has its transaction and waits for no connection
      have htransaction : ∀ i ∈ s.active, s.hold i = .transaction ∧
          s.calls.progress i ≠ .finished ∧ (s.calls.progress i).isStatement = false := by
        intro i hi
        rcases h.active i hi with ⟨hhold,-⟩ | ⟨hhold,hfinished⟩ | ⟨hhold,-⟩
        · exact absurd ⟨i,hi,Or.inl hhold⟩ hwaiting
        · refine ⟨hhold,hfinished,?_⟩
          rw [← Bool.not_eq_true]
          exact fun hstatement => hwaiting ⟨i,hi,Or.inr ⟨hhold,hstatement⟩⟩
        · exact absurd ⟨i,hi,hhold⟩ hrunning
      by_cases hlocks : ∃ i ∈ s.active, s.calls.progress i ≠ .waiting
      · obtain ⟨i,hi,hprogress⟩ := hlocks
        obtain ⟨hhold,hfinished,hstatement⟩ := htransaction i hi
        exact ⟨i,hi,hready i (Or.inr ⟨hhold,hstatement⟩) hfinished fun hp => absurd hp hprogress⟩
      · obtain ⟨i,hi⟩ := hsome
        obtain ⟨hhold,hfinished,hstatement⟩ := htransaction i hi
        refine ⟨i,hi,hready i (Or.inr ⟨hhold,hstatement⟩) hfinished fun _ => ?_⟩
        by_contra hheld
        obtain ⟨j,hj⟩ := Option.ne_none_iff_exists'.mp hheld
        obtain ⟨hactive,hprogress,-⟩ := h.holder _ j hj
        exact hlocks ⟨j,hactive,hprogress⟩

theorem overlap_le {max n : Nat} {events : List (PoolEvent ι)} (hs : s.active.card ≤ n)
    (hoverlap : Along (poolStep max requests) (OverlapBelow n) events s)
    (hrun : Machine.run (poolStep max requests) events s = some t) : t.active.card ≤ n := by
  refine run_invariant_of (I := fun s => s.active.card ≤ n) (C := OverlapBelow n) ?_ hs
    hoverlap.split hrun
  intro event s t hs hbelow hstep
  have hsettle : ∀ i given, s.advanceCall requests i given = some t → t.active.card ≤ n := by
    intro i given hadvance
    obtain ⟨⟨p,st⟩,-,rfl⟩ := Option.map_eq_some_iff.mp hadvance
    by_cases hp : p = .finished
    · simp only [Pool.settle,hp,if_true]
      exact (Finset.card_erase_le).trans hs
    · simpa only [Pool.settle,hp,if_false] using hs
  cases event with
  | begin i =>
    simp only [poolStep] at hstep
    split at hstep <;> cases hstep
    exact (Finset.card_insert_le _ _).trans (hbelow i rfl)
  | connect i =>
    simp only [poolStep] at hstep
    split at hstep
    · split at hstep
      · cases hstep
        exact hs
      · split at hstep <;> cases hstep
        exact hs
    · cases hstep
  | timeOut i =>
    simp only [poolStep] at hstep
    split at hstep
    · exact hsettle i _ hstep
    · cases hstep
  | proceed i given =>
    simp only [poolStep] at hstep
    split at hstep
    · exact hsettle i given hstep
    · cases hstep
  | outside event =>
    obtain ⟨st,-,rfl⟩ := Option.map_eq_some_iff.mp hstep
    exact hs

end Invariant

/-- Every call is for one API key. -/
def sameKeyRequests : Nat → CreateInput :=
  fun i => ⟨"DFwQ6sXzvVCJvnjb9tnzpwuy9MQY5u21AU","api_key_a",1000,"mpw_" ++ toString i,none⟩

/-- The first `k` calls hold a connection each, before any of them took the lock. -/
def connectedCalls (k : Nat) : Pool Nat :=
  ⟨noCallsYet [] 0,fun i => if i < k then .transaction else .none,Finset.range k⟩

/-- The next `m` calls connect, then call 0 takes the lock. -/
def connectThenLock : Nat → Nat → List (PoolEvent Nat)
  | _,0 => [.proceed 0 ⟨0,false⟩]
  | k,m + 1 => .begin k::.connect k::connectThenLock (k + 1) m

def lockedCalls (k : Nat) : Pool Nat :=
  (connectedCalls k).settle 0 .locked ((connectedCalls k).calls.store.setHolder
    (advisoryLockKey (sameKeyRequests 0).apiKeyId) (some 0))

def queuedCall (k : Nat) : Pool Nat :=
  { connectedCalls k with
    hold := Function.update (connectedCalls k).hold k .queued
    active := insert k (Finset.range k) }

theorem begin_connectedCalls (max k : Nat) :
    poolStep max sameKeyRequests (.begin k) (connectedCalls k) = some (queuedCall k) := by
  simp [poolStep,connectedCalls,queuedCall,noCallsYet]

theorem queuedCall_inUse (k : Nat) : (queuedCall k).inUse = k := by
  have hrange : ((Finset.range k).sum fun i => ((queuedCall k).hold i).connections) =
      (Finset.range k).sum fun _ => 1 := by
    refine Finset.sum_congr rfl fun i hi => ?_
    have hik := Finset.mem_range.mp hi
    simp [queuedCall,connectedCalls,Function.update_of_ne (Nat.ne_of_lt hik),hik,Hold.connections]
  have hown : ((queuedCall k).hold k).connections = 0 := by simp [queuedCall,Hold.connections]
  rw [Pool.inUse,show (queuedCall k).active = insert k (Finset.range k) from rfl,
    Finset.sum_insert Finset.notMem_range_self,hown,hrange,← Finset.card_eq_sum_ones,
    Finset.card_range,Nat.zero_add]

theorem connect_queuedCall (max : Nat) {k : Nat} (h : k < max) :
    poolStep max sameKeyRequests (.connect k) (queuedCall k) = some (connectedCalls (k + 1)) := by
  have hqueued : (queuedCall k).hold k = .queued := Function.update_self ..
  simp only [poolStep,queuedCall_inUse,h,hqueued,if_true]
  have hhold : Function.update (queuedCall k).hold k .transaction =
    (connectedCalls (k + 1)).hold := by
    funext i
    by_cases hi : i = k
    · subst hi
      simp [connectedCalls]
    · have : i < k ↔ i < k + 1 := by omega
      simp [queuedCall,connectedCalls,Function.update_of_ne hi,this]
  rw [hhold]
  simp [queuedCall,connectedCalls,Finset.range_add_one]

theorem lock_connectedCalls (max : Nat) {k : Nat} (h : 0 < k) :
    poolStep max sameKeyRequests (.proceed 0 ⟨0,false⟩) (connectedCalls k) =
      some (lockedCalls k) := by
  simp [poolStep,connectedCalls,noCallsYet,h,Progress.isStatement,Pool.advanceCall,advance,
    lockedCalls]

theorem connectThenLock_run (max n : Nat) {k m : Nat} (hmax : k + m ≤ max) (hn : k + m ≤ n)
    (hpos : 0 < k + m) :
    Machine.run (poolStep max sameKeyRequests) (connectThenLock k m) (connectedCalls k) =
      some (lockedCalls (k + m)) ∧
    Along (poolStep max sameKeyRequests) (OverlapBelow n) (connectThenLock k m)
      (connectedCalls k) := by
  induction m generalizing k with
  | zero =>
    have hlock := lock_connectedCalls max (k := k) hpos
    refine ⟨by rw [connectThenLock,Machine.run,hlock]; rfl,Along.cons hlock ?_ trivial⟩
    intro i hi
    cases hi
  | succ m ih =>
    obtain ⟨hrun,halong⟩ := ih (k := k + 1) (by omega) (by omega) (by omega)
    have hbegin := begin_connectedCalls max k
    have hconnect := connect_queuedCall max (k := k) (by omega)
    constructor
    · rw [connectThenLock,Machine.run,hbegin,Option.bind_some,Machine.run,hconnect,
        Option.bind_some,hrun]
      congr 2
      omega
    · refine Along.cons hbegin ?_ (Along.cons hconnect ?_ halong)
      · intro i hi
        rw [show (connectedCalls k).active = Finset.range k from rfl,Finset.card_range]
        omega
      · intro i hi
        cases hi

theorem stuck_lockedCalls (k : Nat) : Stuck k sameKeyRequests (lockedCalls k) := by
  have hhold : ∀ i ∈ Finset.range k, (lockedCalls k).hold i = .transaction := by
    intro i hi
    have hik := Finset.mem_range.mp hi
    by_cases h0 : i = 0
    · subst h0
      simp [lockedCalls,Pool.settle]
    · simp [lockedCalls,Pool.settle,connectedCalls,Function.update_of_ne h0,hik]
  have hactive : (lockedCalls k).active = Finset.range k := rfl
  constructor
  · have hsum : (lockedCalls k).inUse = (Finset.range k).sum fun _ => 1 := by
      rw [Pool.inUse,hactive]
      exact Finset.sum_congr rfl fun i hi => by rw [hhold i hi]; rfl
    rw [hsum,← Finset.card_eq_sum_ones,Finset.card_range]
  · intro i hi _
    by_cases h0 : i = 0
    · subst h0
      exact Or.inr (Or.inr ⟨hhold 0 hi,by simp [lockedCalls,Pool.settle,Progress.isStatement]⟩)
    · refine Or.inl ⟨hhold i hi,?_,?_⟩
      · simp [lockedCalls,Pool.settle,Function.update_of_ne h0,connectedCalls,noCallsYet]
      · rw [show (lockedCalls k).calls.store.holder
          (advisoryLockKey (sameKeyRequests i).apiKeyId) = some 0 from Function.update_self ..]
        simp

/-- Watch creation blocks itself in no run exactly when fewer calls overlap than the pool has
connections. -/
theorem createActiveMempoolWatch_unblocked_iff (max n : Nat) (hmax : 1 ≤ max) :
    (∀ (ι : Type) (_ : DecidableEq ι) (requests : ι → CreateInput)
    (watches : List ActiveMempoolWatch)
      (now : Nat) (events : List (PoolEvent ι)) (s : Pool ι),
      Machine.run (poolStep max requests) events (idlePool watches now) = some s →
      Along (poolStep max requests) (OverlapBelow n) events (idlePool watches now) →
      Unblocked max requests s) ↔ n < max := by
  constructor
  · intro h
    by_contra hfew
    obtain ⟨hrun,halong⟩ := connectThenLock_run max n (k := 0) (m := max)
      (by omega) (by omega) (by omega)
    have hidle : connectedCalls 0 = idlePool [] 0 := by
      simp [connectedCalls,idlePool]
    rw [hidle] at hrun halong
    have hfree := (h Nat inferInstance sameKeyRequests [] 0 _ _ hrun halong).free
    rw [Nat.zero_add] at hfree
    exact hfree (stuck_lockedCalls max)
  · intro hfew ι _ requests watches now events s hrun halong
    have hsound := (sound_idlePool watches now).run hrun
    have hcard := overlap_le (n := n) (by simp [idlePool]) halong hrun
    exact ⟨not_stuck_of_few (by omega),hsound.goesOn (by omega)⟩

/-- Nine calls for one API key leave a connection of ten to the one that holds the lock. -/
theorem createActiveMempoolWatch_unblocked_nine : Unblocked 10 sameKeyRequests (lockedCalls 9) := by
  obtain ⟨hrun,halong⟩ := connectThenLock_run 10 9 (k := 0) (m := 9) (by decide) (by decide)
    (by decide)
  have hidle : connectedCalls 0 = idlePool [] 0 := by
    simp [connectedCalls,idlePool]
  rw [hidle] at hrun halong
  exact (createActiveMempoolWatch_unblocked_iff 10 9 (by decide)).mpr (by decide) Nat _
    sameKeyRequests [] 0 (connectThenLock 0 9) (lockedCalls 9) hrun halong

/-- Ten calls for one API key block a pool of ten, the default size. -/
theorem ten_watch_creations_block : ∃ s : Pool Nat,
    Machine.run (poolStep 10 sameKeyRequests) (connectThenLock 0 10) (idlePool [] 0) = some s ∧
      Stuck 10 sameKeyRequests s ∧ ¬Unblocked 10 sameKeyRequests s := by
  have hrun := (connectThenLock_run 10 10 (k := 0) (m := 10) (by decide)
    (by decide) (by decide)).1
  have hidle : connectedCalls 0 = idlePool [] 0 := by
    simp [connectedCalls,idlePool]
  rw [hidle] at hrun
  have hstuck : Stuck 10 sameKeyRequests (lockedCalls 10) := stuck_lockedCalls 10
  exact ⟨_,hrun,hstuck,fun h => h.free hstuck⟩

end OnlyDoge.Mempool
