import OnlyDoge.Library.Interleaving
import Mathlib.Data.List.Basic
import Mathlib.Algebra.Ring.Int.Defs
set_option autoImplicit false

/-!
The cap on the mempool watches of an API key (`createActiveMempoolWatch` of `metadata-store.ts`)
under the steps of concurrent calls, for each database driver.
-/

namespace OnlyDoge.Mempool
open Interleaving

def mempoolWatchMaxConcurrent : Nat := 5

inductive Driver where
  | sqlite
  | mysql
  | postgres
  deriving DecidableEq,Repr

/-- A row of `active_mempool_watches`, with its times in milliseconds. -/
structure ActiveMempoolWatch where
  id : String
  apiKeyId : String
  address : String
  minValueBase : Option String
  expiresAt : Nat
  createdAt : Nat
  deriving DecidableEq,Repr

structure CreateInput where
  address : String
  apiKeyId : String
  expiresAt : Nat
  id : String
  minValueBase : Option String
  deriving DecidableEq,Repr

/-- `charCodeAt(0)` of a character: the first of its UTF-16 code units. -/
def charCode (char : Char) : Int :=
  if char.toNat < 0x10000 then char.toNat else 0xd800 + (char.toNat - 0x10000) / 0x400

/-- `value | 0` -/
def toInt32 (value : Int) : Int := (value + 2 ^ 31) % 2 ^ 32 - 2 ^ 31

def advisoryLockKey (value : String) : Int :=
  let hash := value.toList.foldl (fun hash char => toInt32 (hash * 31 + charCode char)) 0
  if hash = 0 then 1 else hash

/-- The database: the watches, the advisory locks with the calls that hold them, and the time. -/
structure WatchStore (ι : Type) where
  watches : List ActiveMempoolWatch
  holder : Int → Option ι
  now : Nat

namespace WatchStore
variable {ι : Type}

def deleteExpiredMempoolWatches (store : WatchStore ι) (now : Nat) : WatchStore ι :=
  { store with watches := store.watches.filter fun watch => now < watch.expiresAt }

def countByApiKeyId (store : WatchStore ι) (apiKeyId : String) : Nat :=
  store.watches.countP (·.apiKeyId = apiKeyId)

def deleteActiveMempoolWatch (store : WatchStore ι) (id : String) : WatchStore ι :=
  { store with watches := store.watches.filter (·.id ≠ id) }

def insert (store : WatchStore ι) (watch : ActiveMempoolWatch) : WatchStore ι :=
  { store with watches := store.watches ++ [watch] }

def setHolder (store : WatchStore ι) (key : Int) (holder : Option ι) : WatchStore ι :=
  { store with holder := Function.update store.holder key holder }

/-- The watches of a key that have not expired. -/
def unexpired (store : WatchStore ι) (apiKeyId : String) : Nat :=
  store.watches.countP fun watch => watch.apiKeyId = apiKeyId ∧ store.now < watch.expiresAt

end WatchStore

/-- How far a call has come. The lock, where there is one, is held from `locked` on, and released
by the step after `inserted` or `failed`. -/
inductive Progress where
  | waiting
  | locked
  | expired
  | counting
  | counted (activeCount : Nat)
  | inserted
  | failed
  | finished
  deriving DecidableEq,Repr

/-- What a step gets from outside: the clock of its process, and whether the database fails it. -/
structure Given where
  now : Nat
  fails : Bool

section Steps
variable {ι : Type}

/-- The end of a call that holds a lock is a step of its own, `COMMIT` or `ROLLBACK`. -/
def ended (driver : Driver) (progress : Progress) : Progress :=
  if driver = .postgres then progress else .finished

/-- The steps of `createActiveMempoolWatch`. On Postgres it starts with the advisory lock of the
key, which is taken only while nobody holds it; the other drivers run the work as it is. -/
def advance (driver : Driver) (requests : ι → CreateInput) (i : ι) (given : Given)
    (progress : Progress) (store : WatchStore ι) : Option (Progress × WatchStore ι) :=
  let input := requests i
  let key := advisoryLockKey input.apiKeyId
  let attempt (next : Progress) (after : WatchStore ι) : Option (Progress × WatchStore ι) :=
    if given.fails then some (ended driver .failed,store) else some (next,after)
  match progress with
  | .waiting =>
    if driver = .postgres then
      if given.fails then some (.finished,store)
      else if (store.holder key).isNone then some (.locked,store.setHolder key (some i))
      else none
    else attempt .expired (store.deleteExpiredMempoolWatches given.now)
  | .locked => attempt .expired (store.deleteExpiredMempoolWatches given.now)
  | .expired => attempt .counting (store.deleteExpiredMempoolWatches given.now)
  | .counting =>
    let activeCount := store.countByApiKeyId input.apiKeyId
    if given.fails ∨ activeCount ≥ mempoolWatchMaxConcurrent then some (ended driver .failed,store)
    else some (.counted activeCount,store)
  | .counted _ =>
    attempt (ended driver .inserted) (store.insert
      ⟨input.id,input.apiKeyId,input.address,input.minValueBase,input.expiresAt,given.now⟩)
  | .inserted => some (.finished,store.setHolder key none)
  | .failed => some (.finished,store.setHolder key none)
  | .finished => none

/-- What else happens to the watches: time passes, sessions end, expired watches are deleted. -/
inductive Outside where
  | elapse (ms : Nat)
  | deleteWatch (id : String)
  | deleteExpired (now : Nat)

def outside : Outside → WatchStore ι → Option (WatchStore ι)
  | .elapse ms,store => some { store with now := store.now + ms }
  | .deleteWatch id,store => some (store.deleteActiveMempoolWatch id)
  | .deleteExpired now,store => some (store.deleteExpiredMempoolWatches now)

abbrev Calls (ι : Type) : Type := State ι (WatchStore ι) Progress

def step [DecidableEq ι] (driver : Driver) (requests : ι → CreateInput) :
    Event ι Given Outside → Calls ι → Option (Calls ι) :=
  Interleaving.step (advance driver requests) outside

/-- No call has begun, and nobody holds a lock. -/
def noCallsYet (watches : List ActiveMempoolWatch) (now : Nat) : Calls ι :=
  ⟨⟨watches,fun _ => none,now⟩,fun _ => .waiting⟩

end Steps

namespace WatchStore
variable {ι : Type} {store st : WatchStore ι} {apiKeyId : String}

theorem unexpired_le_count : store.unexpired apiKeyId ≤ store.countByApiKeyId apiKeyId :=
  List.countP_mono_left fun watch _ h => by simp_all

theorem unexpired_le_of_sublist (hwatches : st.watches.Sublist store.watches)
    (hnow : store.now ≤ st.now) : st.unexpired apiKeyId ≤ store.unexpired apiKeyId := by
  refine Nat.le_trans hwatches.countP_le (List.countP_mono_left fun watch _ h => ?_)
  simp only [decide_eq_true_eq] at h ⊢
  exact ⟨h.1,by omega⟩

theorem unexpired_insert (watch : ActiveMempoolWatch) :
    (store.insert watch).unexpired apiKeyId ≤
      store.unexpired apiKeyId + if watch.apiKeyId = apiKeyId then 1 else 0 := by
  unfold unexpired insert
  rw [List.countP_append,List.countP_singleton]
  split <;> split <;> simp_all

theorem count_insert_of_ne {watch : ActiveMempoolWatch} (h : watch.apiKeyId ≠ apiKeyId) :
    (store.insert watch).countByApiKeyId apiKeyId = store.countByApiKeyId apiKeyId := by
  unfold countByApiKeyId insert
  simp [List.countP_append,h]

end WatchStore

section Cap
variable {ι : Type} {driver : Driver} {requests : ι → CreateInput}

def Capped (store : WatchStore ι) : Prop :=
  ∀ apiKeyId, store.unexpired apiKeyId ≤ mempoolWatchMaxConcurrent

/-- What a call knows of the database: on Postgres it holds the lock of its key, and nobody has
added a watch of the key since it counted. -/
def Knows (driver : Driver) (requests : ι → CreateInput) (i : ι) (progress : Progress)
    (store : WatchStore ι) : Prop :=
  match progress with
  | .waiting => True
  | .finished => True
  | .counted activeCount => activeCount < mempoolWatchMaxConcurrent ∧
    (driver = .postgres → store.holder (advisoryLockKey (requests i).apiKeyId) = some i ∧
      store.countByApiKeyId (requests i).apiKeyId ≤ activeCount)
  | _ => driver = .postgres → store.holder (advisoryLockKey (requests i).apiKeyId) = some i

/-- A call that inserts without a lock still counts no more unexpired watches than it counted. -/
def CountStillHolds (driver : Driver) (requests : ι → CreateInput)
    (event : Event ι Given Outside) (s : Calls ι) : Prop :=
  ∀ i given, event = .call i given → given.fails = false → driver ≠ .postgres →
    ∀ activeCount, s.progress i = .counted activeCount →
      s.store.unexpired (requests i).apiKeyId ≤ activeCount

/-- What a call knows stays true while its lock stays its own and no watch of its key is added. -/
theorem Knows.mono {i : ι} {progress : Progress} {store st : WatchStore ι}
    (h : Knows driver requests i progress store)
    (hkeep : driver = .postgres → store.holder (advisoryLockKey (requests i).apiKeyId) = some i →
      st.holder (advisoryLockKey (requests i).apiKeyId) = some i ∧
      st.countByApiKeyId (requests i).apiKeyId ≤ store.countByApiKeyId (requests i).apiKeyId) :
    Knows driver requests i progress st := by
  unfold Knows at h ⊢
  cases progress with
  | counted activeCount =>
    refine ⟨h.1,fun hdriver => ?_⟩
    obtain ⟨hholder,hcount⟩ := h.2 hdriver
    obtain ⟨hholder',hcount'⟩ := hkeep hdriver hholder
    exact ⟨hholder',Nat.le_trans hcount' hcount⟩
  | waiting | finished => trivial
  | locked | expired | counting | inserted | failed =>
    exact fun hdriver => (hkeep hdriver (h hdriver)).1

theorem Knows.of_sublist {i : ι} {progress : Progress} {store st : WatchStore ι}
    (h : Knows driver requests i progress store) (hwatches : st.watches.Sublist store.watches)
    (hholder : st.holder = store.holder) : Knows driver requests i progress st :=
  h.mono fun _ hheld => ⟨by rw [hholder]; exact hheld,hwatches.countP_le⟩

theorem knows_ended {i : ι} {progress : Progress} {store : WatchStore ι}
    (h : driver = .postgres → Knows driver requests i progress store) :
    Knows driver requests i (ended driver progress) store := by
  unfold ended
  split
  · exact h (by assumption)
  · exact trivial

/-- A step of a call takes watches away at most, or takes its lock, inserts, or releases. -/
theorem advance_cases {i : ι} {given : Given} {progress p : Progress} {store st : WatchStore ι}
    (hknows : Knows driver requests i progress store)
    (h : advance driver requests i given progress store = some (p,st)) :
    (st.watches.Sublist store.watches ∧ st.holder = store.holder ∧ st.now = store.now ∧
      Knows driver requests i p st) ∨
    (driver = .postgres ∧ store.holder (advisoryLockKey (requests i).apiKeyId) = none ∧
      p = .locked ∧ st = store.setHolder (advisoryLockKey (requests i).apiKeyId) (some i)) ∨
    (∃ activeCount watch, progress = .counted activeCount ∧ given.fails = false ∧
      watch.apiKeyId = (requests i).apiKeyId ∧ p = ended driver .inserted ∧
      st = store.insert watch) ∨
    ((progress = .inserted ∨ progress = .failed) ∧ p = .finished ∧
      st = store.setHolder (advisoryLockKey (requests i).apiKeyId) none) := by
  have hsub (now : Nat) :
      (store.deleteExpiredMempoolWatches now).watches.Sublist store.watches := List.filter_sublist
  have hfailed (hholder : driver = .postgres →
      store.holder (advisoryLockKey (requests i).apiKeyId) = some i) :
      Knows driver requests i (ended driver .failed) store := knows_ended fun _ => hholder
  cases progress with
  | waiting =>
    simp only [advance] at h
    split at h
    · rename_i hdriver
      split at h
      · cases h
        exact Or.inl ⟨List.Sublist.refl _,rfl,rfl,trivial⟩
      · split at h
        · rename_i hfree
          cases h
          exact Or.inr (Or.inl ⟨hdriver,Option.isNone_iff_eq_none.mp hfree,rfl,rfl⟩)
        · cases h
    · rename_i hdriver
      split at h <;> cases h
      · exact Or.inl ⟨List.Sublist.refl _,rfl,rfl,hfailed fun hd => absurd hd hdriver⟩
      · exact Or.inl ⟨hsub _,rfl,rfl,fun hd => absurd hd hdriver⟩
  | locked | expired =>
    simp only [advance] at h
    split at h <;> cases h
    · exact Or.inl ⟨List.Sublist.refl _,rfl,rfl,hfailed hknows⟩
    · exact Or.inl ⟨hsub _,rfl,rfl,hknows⟩
  | counting =>
    simp only [advance] at h
    split at h <;> cases h
    · exact Or.inl ⟨List.Sublist.refl _,rfl,rfl,hfailed hknows⟩
    · rename_i hless
      refine Or.inl ⟨List.Sublist.refl _,rfl,rfl,?_,fun hd => ⟨hknows hd,Nat.le_refl _⟩⟩
      omega
  | counted activeCount =>
    simp only [advance] at h
    split at h <;> cases h
    · exact Or.inl ⟨List.Sublist.refl _,rfl,rfl,hfailed fun hd => (hknows.2 hd).1⟩
    · rename_i hfails
      exact Or.inr (Or.inr (Or.inl ⟨activeCount,_,rfl,by simpa using hfails,rfl,rfl,rfl⟩))
  | inserted =>
    cases h
    exact Or.inr (Or.inr (Or.inr ⟨Or.inl rfl,rfl,rfl⟩))
  | failed =>
    cases h
    exact Or.inr (Or.inr (Or.inr ⟨Or.inr rfl,rfl,rfl⟩))
  | finished => cases h

theorem safe_cap [DecidableEq ι] : Safe (advance driver requests) outside Capped
    (Knows driver requests) (CountStillHolds driver requests) where
  outside := by
    intro event s st hcap hknows _ h
    cases event with
    | elapse ms =>
      cases h
      exact ⟨fun apiKeyId => Nat.le_trans (@WatchStore.unexpired_le_of_sublist ι s.store _ apiKeyId
        (List.Sublist.refl _) (Nat.le_add_right _ _)) (hcap apiKeyId),
        fun j => (hknows j).of_sublist (List.Sublist.refl _) rfl⟩
    | deleteWatch id =>
      cases h
      exact ⟨fun apiKeyId => Nat.le_trans (WatchStore.unexpired_le_of_sublist
        List.filter_sublist (Nat.le_refl _)) (hcap apiKeyId),
        fun j => (hknows j).of_sublist List.filter_sublist rfl⟩
    | deleteExpired now =>
      cases h
      exact ⟨fun apiKeyId => Nat.le_trans (WatchStore.unexpired_le_of_sublist
        List.filter_sublist (Nat.le_refl _)) (hcap apiKeyId),
        fun j => (hknows j).of_sublist List.filter_sublist rfl⟩
  own := by
    intro i given s p st hcap hknows hcount h
    rcases advance_cases (hknows i) h with ⟨hwatches,hholder,hnow,hp⟩ | ⟨hdriver,hfree,rfl,rfl⟩ |
      ⟨activeCount,watch,hprogress,hfails,hkey,rfl,rfl⟩ | ⟨hprogress,rfl,rfl⟩
    · exact ⟨fun apiKeyId => Nat.le_trans (WatchStore.unexpired_le_of_sublist hwatches
        (Nat.le_of_eq hnow.symm)) (hcap apiKeyId),hp⟩
    · exact ⟨hcap,fun _ => Function.update_self ..⟩
    · have hself := hknows i
      rw [hprogress] at hself
      refine ⟨fun apiKeyId => ?_,knows_ended fun hdriver _ => (hself.2 hdriver).1⟩
      -- the inserted watch counts for its own key only, which had fewer watches than the cap
      have hinsert := @WatchStore.unexpired_insert ι s.store apiKeyId watch
      have hbefore := hcap apiKeyId
      by_cases hsame : watch.apiKeyId = apiKeyId
      · have hless := hself.1
        have hle : s.store.unexpired apiKeyId ≤ activeCount := by
          rw [← hsame,hkey]
          by_cases hdriver : driver = .postgres
          · exact Nat.le_trans WatchStore.unexpired_le_count (hself.2 hdriver).2
          · exact hcount i given rfl hfails hdriver activeCount hprogress
        rw [if_pos hsame] at hinsert
        omega
      · rw [if_neg hsame] at hinsert
        omega
    · exact ⟨hcap,trivial⟩
  other := by
    intro i given s p st _ hknows _ h j hj
    rcases advance_cases (hknows i) h with ⟨hwatches,hholder,-,-⟩ | ⟨hdriver,hfree,rfl,rfl⟩ |
      ⟨activeCount,watch,hprogress,-,hkey,rfl,rfl⟩ | ⟨hprogress,rfl,rfl⟩
    · exact (hknows j).of_sublist hwatches hholder
    · refine (hknows j).mono fun _ hheld => ⟨?_,Nat.le_refl _⟩
      have hne : advisoryLockKey (requests j).apiKeyId ≠ advisoryLockKey (requests i).apiKeyId := by
        intro heq
        rw [heq,hfree] at hheld
        cases hheld
      exact (Function.update_of_ne hne ..).trans hheld
    · refine (hknows j).mono fun hdriver hheld => ⟨hheld,?_⟩
      have hself := hknows i
      rw [hprogress] at hself
      have hne : watch.apiKeyId ≠ (requests j).apiKeyId := by
        intro heq
        rw [← heq,hkey,(hself.2 hdriver).1] at hheld
        exact hj (Option.some.inj hheld).symm
      exact Nat.le_of_eq (WatchStore.count_insert_of_ne hne)
    · refine (hknows j).mono fun hdriver hheld => ⟨?_,Nat.le_refl _⟩
      have hself : s.store.holder (advisoryLockKey (requests i).apiKeyId) = some i := by
        have hself := hknows i
        rcases hprogress with hprogress | hprogress <;>
        · rw [hprogress] at hself
          exact hself hdriver
      have hne : advisoryLockKey (requests j).apiKeyId ≠ advisoryLockKey (requests i).apiKeyId := by
        intro heq
        rw [heq,hself] at hheld
        exact hj (Option.some.inj hheld).symm
      exact (Function.update_of_ne hne ..).trans hheld

/-- On Postgres, and wherever no call inserts on a count that has grown, no key ever has more
unexpired watches than the cap. -/
theorem watches_capped [DecidableEq ι] {watches : List ActiveMempoolWatch} {now : Nat}
    {events : List (Event ι Given Outside)} {t : Calls ι}
    (hcap : Capped (noCallsYet watches now : Calls ι).store)
    (hcount : ∀ passed event ahead u, events = passed ++ event::ahead →
      Machine.run (step driver requests) passed (noCallsYet watches now) = some u →
      CountStillHolds driver requests event u)
    (hrun : Machine.run (step driver requests) events (noCallsYet watches now) = some t) :
    Capped t.store := by
  have hstart : ∀ j, Knows driver requests j ((noCallsYet watches now : Calls ι).progress j)
      (noCallsYet watches now : Calls ι).store := fun _ => trivial
  exact (safe_cap.run ⟨hcap,hstart⟩ hcount hrun).1

end Cap

def watchNumber (n : Nat) : ActiveMempoolWatch where
  id := "watch-" ++ toString n
  apiKeyId := "key_a"
  address := "D"
  minValueBase := none
  expiresAt := 300000
  createdAt := 0

def fourWatches : List ActiveMempoolWatch := [0,1,2,3].map watchNumber

def createWatch (i : Bool) : CreateInput :=
  ⟨"D","key_a",300000,if i then "watch-true" else "watch-false",none⟩

def call (i : Bool) : Event Bool Given Outside := .call i ⟨10,false⟩

/-- Each call expires twice, counts, and inserts; both count before either inserts. -/
def bothCountFirst : List (Event Bool Given Outside) :=
  [call true,call true,call false,call false,call true,call false,call true,call false]

theorem capped_fourWatches {ι : Type} : Capped (noCallsYet fourWatches 0 : Calls ι).store := by
  intro apiKeyId
  have hlength : fourWatches.length ≤ mempoolWatchMaxConcurrent := by decide
  exact Nat.le_trans List.countP_le_length hlength

inductive Caller where
  | first
  | second
  | other
  deriving DecidableEq

/-- The last call is of another key. -/
def createWatches : Caller → CreateInput
  | .first => ⟨"D","key_a",300000,"created-first",none⟩
  | .second => ⟨"D","key_a",300000,"created-second",none⟩
  | .other => ⟨"D","key_b",300000,"created-other",none⟩

def lockStep (i : Caller) : Event Caller Given Outside := .call i ⟨10,false⟩

/-- The second call waits for the lock of the first, while the third goes on. -/
def interleavedLocks : List (Event Caller Given Outside) :=
  [.first,.other,.first,.first,.other,.first,.other,.other,.first,.other].map lockStep

def remainingSteps : List (Event Caller Given Outside) :=
  [.first,.second,.second,.other,.second,.second,.second].map lockStep

theorem watches_capped_postgres :
    ((Machine.run (step .postgres createWatches) interleavedLocks
        (noCallsYet fourWatches 0)).bind (step .postgres createWatches (lockStep .second))).isNone ∧
    ∃ t, Machine.run (step .postgres createWatches)
        (interleavedLocks ++ remainingSteps) (noCallsYet fourWatches 0) = some t ∧
      (∀ i, t.progress i = .finished) ∧ t.store.unexpired "key_a" = 5 ∧
      t.store.unexpired "key_b" = 1 ∧ Capped t.store := by
  refine ⟨by decide,?_⟩
  obtain ⟨t,ht,hfinished,hfive,hone⟩ : ∃ t, Machine.run (step .postgres createWatches)
      (interleavedLocks ++ remainingSteps) (noCallsYet fourWatches 0) = some t ∧
      (∀ i, t.progress i = .finished) ∧ t.store.unexpired "key_a" = 5 ∧
      t.store.unexpired "key_b" = 1 := ⟨_,rfl,fun i => by cases i <;> rfl,by decide,by decide⟩
  refine ⟨t,ht,hfinished,hfive,hone,watches_capped capped_fourWatches ?_ ht⟩
  intro passed event ahead u _ _ i given _ _ hdriver
  exact absurd rfl hdriver

/-- Without a lock two calls reach six watches of one key. -/
theorem watches_exceed_cap : Capped (noCallsYet fourWatches 0 : Calls Bool).store ∧
    (∃ t, Machine.run (step .sqlite createWatch) bothCountFirst (noCallsYet fourWatches 0) =
      some t ∧ (∀ i, t.progress i = .finished) ∧ t.store.unexpired "key_a" = 6) ∧
    ∃ t, Machine.run (step .mysql createWatch) bothCountFirst (noCallsYet fourWatches 0) =
      some t ∧ (∀ i, t.progress i = .finished) ∧ t.store.unexpired "key_a" = 6 :=
  ⟨capped_fourWatches,⟨_,rfl,by decide,by decide⟩,⟨_,rfl,by decide,by decide⟩⟩

end OnlyDoge.Mempool
