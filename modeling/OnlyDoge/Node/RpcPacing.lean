import OnlyDoge.Library.Interleaving
import OnlyDoge.Node.JsonRpc
import Mathlib.Algebra.Order.Ring.Rat
import Mathlib.Data.Rat.Floor
set_option autoImplicit false

/-!
Calls to a node on their way through the rate limit of its endpoint and through their retries
(`withRpcRetry` and `waitForRateLimit` of `rpc.ts`). Times are milliseconds.
-/

namespace OnlyDoge.Node
open Interleaving

def rpcRetryBaseDelayMs : Nat := 100

/-- A call of the gateway: the URL of its requests without credentials, and the `rps` that it is
given, which is `none` where that is not a finite number. -/
structure GatewayCall where
  url : String
  rps : Option Rat

def shouldRateLimit (rps : Option Rat) : Bool := rps.any (0 < ·)

/-- `1000 / rps` -/
def intervalMs (call : GatewayCall) : Rat := 1000 / call.rps.getD 0

/-- How long `setTimeout` waits: a whole number of milliseconds, and one where the delay is shorter
or too long for it. -/
def timerMs (delayMs : Rat) : Rat :=
  if 1 ≤ delayMs ∧ delayMs ≤ 2147483647 then ⌊delayMs⌋ else 1

/-- When `sleepUntilScheduled` that begins at `now` is over, at the earliest. -/
def sleepUntilScheduled (scheduledAt now : Rat) : Rat :=
  if 0 < scheduledAt - now then now + timerMs (scheduledAt - now) else now

/-- The promise that an attempt of a call waits for: nobody else waits under the same name. -/
structure Ticket (ι : Type) where
  call : ι
  attempt : Nat
  deriving DecidableEq,Repr

/-- A promise of `createRateLimitRelease` that has been kept: for which attempt, the slot that was
reserved for it, and when it let the attempt through. -/
structure Granted (ι : Type) where
  ticket : Ticket ι
  scheduledAt : Rat
  time : Rat

/-- The queues and the slots of the gateway, the clock, and what has happened: who has asked for a
place in a queue, and who has been let through. -/
structure GatewayStore (ι : Type) where
  rateLimitQueues : String → Option (Ticket ι)
  rateLimitState : String → Option Rat
  now : Rat
  asked : List (Ticket ι)
  granted : List (Granted ι)

inductive RpcOutcome where
  | ok
  | workQueueExceeded
  | failed
  deriving DecidableEq,Repr

/-- How far a call has come with its attempt. -/
inductive RpcProgress (ι : Type) where
  | entering (attempt : Nat)
  | chained (attempt : Nat) (previous : Option (Ticket ι))
  | sleeping (attempt : Nat) (scheduledAt wakeAt : Rat)
  | released (attempt : Nat)
  | requesting (attempt : Nat)
  | backingOff (attempt : Nat) (wakeAt : Rat)
  | finished (outcome : RpcOutcome)

namespace GatewayStore
variable {ι : Type}

/-- Whether the promise of a ticket has been kept. -/
def Settled (store : GatewayStore ι) (ticket : Ticket ι) : Prop :=
  ∃ granted ∈ store.granted, granted.ticket = ticket

instance [DecidableEq ι] (store : GatewayStore ι) (ticket : Ticket ι) :
    Decidable (store.Settled ticket) := by
  unfold Settled
  infer_instance

def enqueue (store : GatewayStore ι) (url : String) (ticket : Ticket ι) : GatewayStore ι :=
  { store with
    rateLimitQueues := Function.update store.rateLimitQueues url (some ticket)
    asked := store.asked ++ [ticket] }

/-- The slot that `reserveRateLimitSlot` gives. -/
def slot (store : GatewayStore ι) (url : String) : Rat :=
  max store.now ((store.rateLimitState url).getD store.now)

def reserveRateLimitSlot (store : GatewayStore ι) (url : String) (interval : Rat) :
    GatewayStore ι :=
  { store with
    rateLimitState := Function.update store.rateLimitState url
      (some (store.slot url + interval)) }

def grant (store : GatewayStore ι) (ticket : Ticket ι) (scheduledAt : Rat) : GatewayStore ι :=
  { store with granted := store.granted ++ [⟨ticket,scheduledAt,store.now⟩] }

def clearRateLimitQueue [DecidableEq ι] (store : GatewayStore ι) (url : String)
    (ticket : Ticket ι) : GatewayStore ι :=
  if store.rateLimitQueues url = some ticket then
    { store with rateLimitQueues := Function.update store.rateLimitQueues url none }
  else store

section Clear
variable [DecidableEq ι] {store : GatewayStore ι} {url : String} {ticket : Ticket ι}

@[simp] theorem clearRateLimitQueue_asked :
    (store.clearRateLimitQueue url ticket).asked = store.asked := by
  unfold clearRateLimitQueue
  split <;> rfl

@[simp] theorem clearRateLimitQueue_granted :
    (store.clearRateLimitQueue url ticket).granted = store.granted := by
  unfold clearRateLimitQueue
  split <;> rfl

@[simp] theorem clearRateLimitQueue_state :
    (store.clearRateLimitQueue url ticket).rateLimitState = store.rateLimitState := by
  unfold clearRateLimitQueue
  split <;> rfl

@[simp] theorem clearRateLimitQueue_now :
    (store.clearRateLimitQueue url ticket).now = store.now := by
  unfold clearRateLimitQueue
  split <;> rfl

@[simp] theorem settled_clearRateLimitQueue {other : Ticket ι} :
    (store.clearRateLimitQueue url ticket).Settled other ↔ store.Settled other := by
  simp [Settled]

theorem clearRateLimitQueue_queue_of_ne {other : String} (h : other ≠ url) :
    (store.clearRateLimitQueue url ticket).rateLimitQueues other =
      store.rateLimitQueues other := by
  unfold clearRateLimitQueue
  split
  · exact Function.update_of_ne h _ _
  · rfl

theorem clearRateLimitQueue_queue : (store.rateLimitQueues url = some ticket ∧
      (store.clearRateLimitQueue url ticket).rateLimitQueues url = none) ∨
    store.rateLimitQueues url ≠ some ticket ∧
      (store.clearRateLimitQueue url ticket).rateLimitQueues url = store.rateLimitQueues url := by
  by_cases h : store.rateLimitQueues url = some ticket
  · exact Or.inl ⟨h,by simp [clearRateLimitQueue,h]⟩
  · exact Or.inr ⟨h,by simp [clearRateLimitQueue,h]⟩

end Clear

theorem Settled.grant {store : GatewayStore ι} {ticket : Ticket ι} (h : store.Settled ticket)
    (other : Ticket ι) (scheduledAt : Rat) : (store.grant other scheduledAt).Settled ticket := by
  obtain ⟨granted,hgranted,heq⟩ := h
  exact ⟨granted,List.mem_append_left _ hgranted,heq⟩

theorem settled_grant (store : GatewayStore ι) (ticket : Ticket ι) (scheduledAt : Rat) :
    (store.grant ticket scheduledAt).Settled ticket :=
  ⟨⟨ticket,scheduledAt,store.now⟩,by simp [GatewayStore.grant],rfl⟩

end GatewayStore

section Steps
variable {ι : Type} [DecidableEq ι] (calls : ι → GatewayCall)

/-- An attempt that has failed with `outcome` is made again, or ends the call. -/
def afterFailure (attempt : Nat) (now : Rat) (outcome : RpcOutcome) : RpcProgress ι :=
  if triesAgain (outcome = .workQueueExceeded) attempt then
    .backingOff attempt (now + timerMs (rpcRetryBaseDelayMs * 2 ^ attempt))
  else .finished outcome

/-- The steps of `callJsonRpc` and `callJsonRpcBatch`. A timer may be late, never early. -/
def advance (i : ι) (outcome : RpcOutcome) (progress : RpcProgress ι) (store : GatewayStore ι) :
    Option (RpcProgress ι × GatewayStore ι) :=
  let url := (calls i).url
  match progress with
  | .entering attempt =>
    if shouldRateLimit (calls i).rps then
      some (.chained attempt (store.rateLimitQueues url),store.enqueue url ⟨i,attempt⟩)
    else some (.requesting attempt,store)
  | .chained attempt previous =>
    -- `previous.then`: nothing happens before the promise of the one before is kept
    if ∀ ticket ∈ previous, store.Settled ticket then
      some (.sleeping attempt (store.slot url) (sleepUntilScheduled (store.slot url) store.now),
        store.reserveRateLimitSlot url (intervalMs (calls i)))
    else none
  | .sleeping attempt scheduledAt wakeAt =>
    if wakeAt ≤ store.now then
      some (.released attempt,store.grant ⟨i,attempt⟩ scheduledAt)
    else none
  | .released attempt => some (.requesting attempt,store.clearRateLimitQueue url ⟨i,attempt⟩)
  | .requesting attempt =>
    match outcome with
    | .ok => some (.finished .ok,store)
    | outcome => some (afterFailure attempt store.now outcome,store)
  | .backingOff attempt wakeAt =>
    if wakeAt ≤ store.now then some (.entering (attempt + 1),store) else none
  | .finished _ => none

/-- Time passes. -/
def elapse (ms : Rat) (store : GatewayStore ι) : Option (GatewayStore ι) :=
  if 0 ≤ ms then some { store with now := store.now + ms } else none

abbrev Gateway (ι : Type) : Type := State ι (GatewayStore ι) (RpcProgress ι)

def step : Event ι RpcOutcome Rat → Gateway ι → Option (Gateway ι) :=
  Interleaving.step (advance calls) elapse

/-- A gateway that no call has used yet. -/
def idleGateway (now : Rat) : Gateway ι :=
  ⟨⟨fun _ => none,fun _ => none,now,[],[]⟩,fun _ => .entering 0⟩

end Steps
end OnlyDoge.Node
