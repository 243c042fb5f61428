import Mathlib.Logic.Basic
import OnlyDoge.Library.Machine
set_option autoImplicit false

/-!
The lease on the `primary` key: several indexer instances that claim it, renew it in the
background and check it before their writes (`core-dogecoin-indexer-service.ts`), over the
compare-and-swap of the metadata store. Every awaited call may take any time or fail.
-/

namespace OnlyDoge

structure PrimaryLease (ι : Type) where
  instanceId : ι
  heartbeatAt : Nat
  deriving DecidableEq,Repr

/-- A JSON value under the key; `text` stands for a value without the shape of a lease. -/
inductive PrimaryValue (ι : Type) where
  | null
  | text (value : String)
  | lease (value : PrimaryLease ι)
  deriving DecidableEq,Repr

/-- The arguments of a `compareAndSwapJsonValue` call. -/
structure LeaseSwap (ι : Type) where
  expectedValue : PrimaryValue ι
  nextValue : PrimaryLease ι
  deriving DecidableEq,Repr

/-- The clock and the row of the key. -/
structure LeaseStore (ι : Type) where
  now : Nat
  primary : Option (PrimaryValue ι)
  deriving DecidableEq,Repr

section Store
variable {ι : Type} [DecidableEq ι]

def LeaseStore.getJsonValue (store : LeaseStore ι) : PrimaryValue ι :=
  store.primary.getD .null

/-- `null` expects an absent key, also where the row holds a JSON null. -/
def LeaseStore.expects (store : LeaseStore ι) : PrimaryValue ι → Bool
  | .null => store.primary = none
  | .text value => store.primary = some (.text value)
  | .lease value => store.primary = some (.lease value)

def LeaseStore.compareAndSwapJsonValue (store : LeaseStore ι) (swap : LeaseSwap ι) :
    Bool × LeaseStore ι :=
  if store.expects swap.expectedValue then
    (true,{ store with primary := some (.lease swap.nextValue) })
  else (false,store)

end Store

/-- A swap that an instance awaits, with the answer once the store has carried it out. -/
structure SwapCall (ι : Type) where
  swap : LeaseSwap ι
  answer : Option Bool
  deriving DecidableEq,Repr

inductive SwapKind where
  | renewPrimaryLease
  | claimPrimaryLease
  deriving DecidableEq,Repr

/-- `runWithPrimaryLeaseHeartbeat`: the timer with the time it was set, and the renewal. -/
structure Heartbeat (ι : Type) where
  timer : Option Nat
  renewal : Option (SwapCall ι)
  deriving DecidableEq,Repr

inductive LeasePhase (ι : Type) where
  | idle
  | reading (answer : Option (PrimaryValue ι))
  | swapping (kind : SwapKind) (call : SwapCall ι)
  | working (heartbeat : Heartbeat ι)
  | finishing (heartbeat : Heartbeat ι)
  deriving DecidableEq,Repr

structure LeaseInstance (ι : Type) where
  primaryLease : Option (PrimaryLease ι)
  phase : LeasePhase ι
  deriving DecidableEq,Repr

section Checks
variable {ι : Type} [DecidableEq ι] (heartbeatIntervalMs : Nat)

def createLease (instanceId : ι) (now : Nat) : PrimaryLease ι := ⟨instanceId,now⟩

def toPrimaryLease : PrimaryValue ι → Option (PrimaryLease ι)
  | .null => none
  | .text _ => none
  | .lease value => some value

def isFreshPrimaryLease (lease : PrimaryLease ι) (now : Nat) : Bool :=
  now ≤ lease.heartbeatAt + heartbeatIntervalMs * 3

def hasFreshPrimaryLease (primaryLease : Option (PrimaryLease ι)) (now : Nat) : Bool :=
  match primaryLease with
  | none => false
  | some lease => now < lease.heartbeatAt + heartbeatIntervalMs

end Checks

/-- What an instance, or the store on its behalf, does next. -/
inductive LeaseMove where
  | leaseLeadership
  | readPrimary
  | receivePrimary
  | failPrimary
  | swapLeadership
  | receiveLeadership
  | failLeadership
  | fireHeartbeat
  | swapHeartbeat
  | receiveHeartbeat
  | failHeartbeat
  | assertPrimaryLease
  | endWork
  | endIteration
  deriving DecidableEq,Repr

/-- The store and the instance after a move, and a swap whose caller no longer waits for it. -/
structure LeaseEffect (ι : Type) where
  store : LeaseStore ι
  next : LeaseInstance ι
  abandoned : Option (LeaseSwap ι)

section Moves
variable {ι : Type} [DecidableEq ι] (heartbeatIntervalMs : Nat)

/-- A call that failed for its caller may still reach the store. -/
def SwapCall.abandoned (call : SwapCall ι) : Option (LeaseSwap ι) :=
  match call.answer with
  | none => some call.swap
  | some _ => none

/-- `scheduleRenewal` sets the timer when the work starts. -/
def startWork (inst : LeaseInstance ι) (now : Nat) : LeaseInstance ι :=
  { inst with phase := .working ⟨some now,none⟩ }

def leaseLeadership (store : LeaseStore ι) (inst : LeaseInstance ι) : LeaseInstance ι :=
  if hasFreshPrimaryLease heartbeatIntervalMs inst.primaryLease store.now then
    startWork inst store.now
  else { inst with phase := .reading none }

/-- The decision of `leaseLeadership` on the value that was read. -/
def receivePrimary (instanceId : ι) (now : Nat) (current : PrimaryValue ι)
    (inst : LeaseInstance ι) : LeaseInstance ι :=
  let swapping (kind : SwapKind) : LeaseInstance ι :=
    { inst with phase := .swapping kind ⟨⟨current,createLease instanceId now⟩,none⟩ }
  match toPrimaryLease current with
  | none => swapping .claimPrimaryLease
  | some currentLease =>
    if currentLease.instanceId = instanceId then swapping .renewPrimaryLease
    else if isFreshPrimaryLease heartbeatIntervalMs currentLease now then ⟨none,.idle⟩
    else swapping .claimPrimaryLease

def swappedLease (swap : LeaseSwap ι) (swapped : Bool) : Option (PrimaryLease ι) :=
  if swapped then some swap.nextValue else none

def receiveLeadership (now : Nat) (swap : LeaseSwap ι) (swapped : Bool) : LeaseInstance ι :=
  if swapped then startWork ⟨some swap.nextValue,.idle⟩ now else ⟨none,.idle⟩

/-- A failed renewal drops the lease; a failed claim throws out of `leaseLeadership`. -/
def failLeadership (kind : SwapKind) (inst : LeaseInstance ι) : LeaseInstance ι :=
  match kind with
  | .renewPrimaryLease => ⟨none,.idle⟩
  | .claimPrimaryLease => { inst with phase := .idle }

/-- The timer of the heartbeat; it does nothing when the lease is lost. -/
def fireHeartbeat (instanceId : ι) (now : Nat) (inst : LeaseInstance ι)
    (heartbeat : Heartbeat ι) : LeaseInstance ι :=
  match inst.primaryLease with
  | none => { inst with phase := .working { heartbeat with timer := none } }
  | some expectedLease =>
    { inst with
      phase := .working ⟨none,some ⟨⟨.lease expectedLease,createLease instanceId now⟩,none⟩⟩ }

/-- After the answer the timer is set again, unless the work has stopped. -/
def receiveHeartbeat (now : Nat) (swap : LeaseSwap ι) (swapped stopped : Bool) :
    LeaseInstance ι :=
  if stopped then ⟨swappedLease swap swapped,.finishing ⟨none,none⟩⟩
  else ⟨swappedLease swap swapped,.working ⟨if swapped then some now else none,none⟩⟩

def failHeartbeat (stopped : Bool) : LeaseInstance ι :=
  if stopped then ⟨none,.finishing ⟨none,none⟩⟩ else ⟨none,.working ⟨none,none⟩⟩

/-- The work stops when the lease is lost. -/
def assertPrimaryLease (inst : LeaseInstance ι) : LeaseInstance ι :=
  match inst.primaryLease,inst.phase with
  | none,.working heartbeat => { inst with phase := .finishing { heartbeat with timer := none } }
  | _,_ => inst

def SwapCall.carriedOut (call : SwapCall ι) (store : LeaseStore ι) : SwapCall ι × LeaseStore ι :=
  let (swapped,store) := store.compareAndSwapJsonValue call.swap
  ({ call with answer := some swapped },store)

/-- A move that the phase of the instance does not allow is disabled. -/
def performMove (instanceId : ι) (move : LeaseMove) (store : LeaseStore ι)
    (inst : LeaseInstance ι) : Option (LeaseEffect ι) :=
  match move,inst.phase with
  | .leaseLeadership,.idle =>
    some ⟨store,leaseLeadership heartbeatIntervalMs store inst,none⟩
  | .readPrimary,.reading none =>
    some ⟨store,{ inst with phase := .reading (some store.getJsonValue) },none⟩
  | .receivePrimary,.reading (some current) =>
    some ⟨store,receivePrimary heartbeatIntervalMs instanceId store.now current inst,none⟩
  | .failPrimary,.reading _ => some ⟨store,{ inst with phase := .idle },none⟩
  | .swapLeadership,.swapping kind ⟨swap,none⟩ =>
    let (call,store) := SwapCall.carriedOut ⟨swap,none⟩ store
    some ⟨store,{ inst with phase := .swapping kind call },none⟩
  | .receiveLeadership,.swapping _ ⟨swap,some swapped⟩ =>
    some ⟨store,receiveLeadership store.now swap swapped,none⟩
  | .failLeadership,.swapping kind call =>
    some ⟨store,failLeadership kind inst,call.abandoned⟩
  | .fireHeartbeat,.working ⟨some setAt,renewal⟩ =>
    if setAt + heartbeatIntervalMs ≤ store.now then
      some ⟨store,fireHeartbeat instanceId store.now inst ⟨some setAt,renewal⟩,none⟩
    else none
  | .swapHeartbeat,.working ⟨timer,some ⟨swap,none⟩⟩ =>
    let (call,store) := SwapCall.carriedOut ⟨swap,none⟩ store
    some ⟨store,{ inst with phase := .working ⟨timer,some call⟩ },none⟩
  | .swapHeartbeat,.finishing ⟨timer,some ⟨swap,none⟩⟩ =>
    let (call,store) := SwapCall.carriedOut ⟨swap,none⟩ store
    some ⟨store,{ inst with phase := .finishing ⟨timer,some call⟩ },none⟩
  | .receiveHeartbeat,.working ⟨_,some ⟨swap,some swapped⟩⟩ =>
    some ⟨store,receiveHeartbeat store.now swap swapped false,none⟩
  | .receiveHeartbeat,.finishing ⟨_,some ⟨swap,some swapped⟩⟩ =>
    some ⟨store,receiveHeartbeat store.now swap swapped true,none⟩
  | .failHeartbeat,.working ⟨_,some call⟩ => some ⟨store,failHeartbeat false,call.abandoned⟩
  | .failHeartbeat,.finishing ⟨_,some call⟩ => some ⟨store,failHeartbeat true,call.abandoned⟩
  | .assertPrimaryLease,_ => some ⟨store,assertPrimaryLease inst,none⟩
  | .endWork,.working heartbeat =>
    some ⟨store,{ inst with phase := .finishing { heartbeat with timer := none } },none⟩
  | .endIteration,.finishing ⟨_,none⟩ => some ⟨store,{ inst with phase := .idle },none⟩
  | _,_ => none

end Moves

/-- All instances over one store, with the swaps that no caller waits for any more. -/
structure LeaseState (ι : Type) where
  store : LeaseStore ι
  instances : ι → LeaseInstance ι
  stragglers : List (ι × LeaseSwap ι)

inductive LeaseAction (ι : Type) where
  | tick (elapsedMs : Nat)
  | straggle (index : Nat)
  | move (instanceId : ι) (move : LeaseMove)
  deriving DecidableEq,Repr

section Step
variable {ι : Type} [DecidableEq ι] (heartbeatIntervalMs : Nat)

def LeaseState.withEffect (s : LeaseState ι) (instanceId : ι) (effect : LeaseEffect ι) :
    LeaseState ι where
  store := effect.store
  instances := fun i => if i = instanceId then effect.next else s.instances i
  stragglers := s.stragglers ++ (effect.abandoned.map (fun swap => (instanceId,swap))).toList

def leaseStep (action : LeaseAction ι) (s : LeaseState ι) : Option (LeaseState ι) :=
  match action with
  | .tick elapsedMs => some { s with store := { s.store with now := s.store.now + elapsedMs } }
  | .straggle index =>
    (s.stragglers[index]?).map (fun (_,swap) =>
      { s with
        store := (s.store.compareAndSwapJsonValue swap).2
        stragglers := s.stragglers.eraseIdx index })
  | .move instanceId move =>
    (performMove heartbeatIntervalMs instanceId move s.store (s.instances instanceId)).map
      (s.withEffect instanceId)

def leaseRun (actions : List (LeaseAction ι)) (s : LeaseState ι) : Option (LeaseState ι) :=
  Machine.run (leaseStep heartbeatIntervalMs) actions s

end Step

end OnlyDoge
