import OnlyDoge.Library.Interleaving
set_option autoImplicit false

/-!
The mempool snapshots that explorer requests share for a second
(`getCachedMempoolSnapshot` of `explorer-query-service.ts`): who starts a load, who waits for the
load of another, and what they are answered. Times are milliseconds.
-/

namespace OnlyDoge.Explorer
open Interleaving

def mempoolCacheTtlMs : Int := 1000

/-- The entry of the cache. A promise goes by the request that started its load. -/
structure MempoolCacheEntry (ι : Type) where
  expiresAtMs : Int
  promise : ι
  deriving DecidableEq,Repr

/-- A call of `loadMempoolSnapshot`. -/
structure MempoolLoad (ι : Type) where
  request : ι
  startedAt : Int
  deriving DecidableEq,Repr

/-- A promise that has been kept or broken. -/
structure Settled (ι σ : Type) where
  promise : ι
  result : Except String σ

/-- The cache and the clock, and what has happened: the loads in their order and the promises that
are settled. -/
structure CacheStore (ι σ : Type) where
  mempoolSnapshots : Option (MempoolCacheEntry ι)
  now : Int
  loads : List (MempoolLoad ι)
  settled : List (Settled ι σ)

/-- How far a request has come, with the clock as it has read it. -/
inductive RequestProgress (ι σ : Type) where
  | waiting
  | loading (now : Int)
  | failing (now : Int) (error : String)
  | awaiting (now : Int) (promise : ι)
  | answered (now : Int) (promise : ι) (result : Except String σ)

def isFreshMempoolCacheEntry {ι : Type} (cached : MempoolCacheEntry ι) (now : Int) : Bool :=
  now < cached.expiresAtMs

namespace CacheStore
variable {ι σ : Type}

/-- The entry that a request joins. -/
def fresh (store : CacheStore ι σ) : Option (MempoolCacheEntry ι) :=
  store.mempoolSnapshots.filter (isFreshMempoolCacheEntry · store.now)

def startLoad (store : CacheStore ι σ) (request : ι) : CacheStore ι σ :=
  { store with
    mempoolSnapshots := some ⟨store.now + mempoolCacheTtlMs,request⟩
    loads := store.loads ++ [⟨request,store.now⟩] }

def deleteMempoolSnapshotIfCurrent [DecidableEq ι] (store : CacheStore ι σ) (promise : ι) :
    CacheStore ι σ :=
  { store with mempoolSnapshots := store.mempoolSnapshots.filter (·.promise ≠ promise) }

def settle (store : CacheStore ι σ) (promise : ι) (result : Except String σ) :
    CacheStore ι σ :=
  { store with settled := store.settled ++ [⟨promise,result⟩] }

def rejected [DecidableEq ι] (store : CacheStore ι σ) (promise : ι) : Bool :=
  store.settled.any fun settled => settled.promise = promise && !settled.result.isOk

end CacheStore

section Steps
variable {ι σ : Type} [DecidableEq ι]

/-- The steps of a request: it joins a fresh entry or starts a load, and its load gives it what the
node answers. Between the failure of a load and its `catch` others may take their steps. -/
def advance (i : ι) (outcome : Except String σ) (progress : RequestProgress ι σ)
    (store : CacheStore ι σ) : Option (RequestProgress ι σ × CacheStore ι σ) :=
  match progress with
  | .waiting =>
    match store.fresh with
    | some cached => some (.awaiting store.now cached.promise,store)
    | none => some (.loading store.now,store.startLoad i)
  | .loading now =>
    match outcome with
    | .ok snapshot => some (.answered now i (.ok snapshot),store.settle i (.ok snapshot))
    | .error error => some (.failing now error,store)
  | .failing now error =>
    some (.answered now i (.error error),
      (store.deleteMempoolSnapshotIfCurrent i).settle i (.error error))
  | .awaiting now promise =>
    (store.settled.find? (·.promise = promise)).map
      fun settled => (.answered now promise settled.result,store)
  | .answered .. => none

/-- The clock of the host may be set to anything. -/
def setClock (now : Int) (store : CacheStore ι σ) : Option (CacheStore ι σ) :=
  some { store with now := now }

abbrev Requests (ι σ : Type) : Type := State ι (CacheStore ι σ) (RequestProgress ι σ)

abbrev Event (ι σ : Type) : Type := Interleaving.Event ι (Except String σ) Int

def step : Event ι σ → Requests ι σ → Option (Requests ι σ) :=
  Interleaving.step advance setClock

def idleRequests (now : Int) : Requests ι σ := ⟨⟨none,now,[],[]⟩,fun _ => .waiting⟩

end Steps
end OnlyDoge.Explorer
