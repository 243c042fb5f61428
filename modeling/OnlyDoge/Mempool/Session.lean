import OnlyDoge.Mempool.Detector
set_option autoImplicit false

/-!
A mempool watch session (`mempool-watch-session.ts`) beside the database, the bus and the detector
of another process, one atomic step at a time.
-/

namespace OnlyDoge.MempoolSession
open MempoolAppear

def mempoolWatchSessionMs : Nat := 5 * 60 * 1000

def mempoolWatchHeartbeatMs : Nat := 15000

inductive SessionError where
  | validation (message : String)
  | tooEarly (message : String)
  | failedCall
  deriving DecidableEq,Repr

def normalizeWatchAddress (address : String) : Except SessionError String :=
  let trimmed := trim address
  if trimmed = "" then throw (.validation "address is required") else return trimmed

/-- `value.replace(/^0+(?=\d)/u, '') || '0'` for a text of digits. -/
def withoutLeadingZeros (digits : List Char) : List Char :=
  match digits.dropWhile (· = '0') with
  | [] => ['0']
  | rest => rest

def normalizeMinValueBase : Option String → Except SessionError (Option String)
  | none => return none
  | some value =>
    if value = "" then return none
    else
      let digits := (trim value).toList
      if digits ≠ [] ∧ digits.all Char.isDigit then
        return some (String.ofList (withoutLeadingZeros digits))
      else throw (.validation "minValueBase must be a non-negative integer string")

inductive MempoolWatchSseEvent where
  | appeared (address : String) (outputs : List MempoolAppearOutput) (source : MempoolAppearSource)
    (txid : String)
  | timeout (address : String) (expiresAt : Nat)
  | comment (data : String)
  deriving DecidableEq,Repr

def MempoolWatchSseEvent.terminal : MempoolWatchSseEvent → Bool
  | .comment _ => false
  | _ => true

def publicAppearPayload (event : MempoolAppearEvent) : MempoolWatchSseEvent :=
  .appeared event.address event.outputs event.source event.txid

/-- Where `openSession` stands: at an awaited call, at a `yield`, or at its sleep. -/
inductive Position where
  | checking
  | inserting
  | announcing
  | connected
  | sleeping
  | heartbeat
  | terminal
  | deleting
  | withdrawing
  | ended
  deriving DecidableEq,Repr

/-- The body of the `try` has yielded its terminal event, or left without one. -/
def Position.over : Position → Bool
  | .terminal | .deleting | .withdrawing | .ended => true
  | _ => false

/-- The variables of `openSession`. The id of the watch is drawn before the insert. -/
structure Session where
  address : String
  apiKeyId : String
  minValueBase : Option String
  createdAtMs : Nat
  id : String
  position : Position
  watch : Option String
  appear : Option MempoolAppearEvent
  settled : Bool
  nextHeartbeatAt : Nat
  yielded : List MempoolWatchSseEvent
  thrown : Option SessionError
  deriving DecidableEq,Repr

def Session.expiresAt (session : Session) : Nat := session.createdAtMs + mempoolWatchSessionMs

def openedSession (address apiKeyId : String) (minValueBase : Option String) (id : String)
    (createdAtMs : Nat) : Except SessionError Session := do
  let address ← normalizeWatchAddress address
  let minValueBase ← normalizeMinValueBase minValueBase
  return ⟨address,apiKeyId,minValueBase,createdAtMs,id,.checking,none,none,false,0,[],none⟩

/-- The session with what it shares: its clock and its client's signal, its handler on the bus of
its process, the row of its watch, the detector's list of watches, and the events that the bus has
yet to bring. `published` is what the detector has published for the watch before the session was
over. -/
structure World where
  session : Session
  now : Nat
  aborted : Bool
  subscribed : Bool
  row : Bool
  listed : Bool
  inFlight : List MempoolAppearEvent
  published : List MempoolAppearEvent
  deriving DecidableEq,Repr

def openedWorld (session : Session) : World :=
  ⟨session,session.createdAtMs,false,true,false,false,[],[]⟩

namespace World

def moveTo (world : World) (position : Position) : World :=
  { world with session := { world.session with position } }

def yield (world : World) (event : MempoolWatchSseEvent) (position : Position) : World :=
  { world with session :=
      { world.session with position,yielded := world.session.yielded ++ [event] } }

def settle (world : World) : World :=
  { world with session := { world.session with settled := true } }

/-- The start of the `finally` block. -/
def leave (world : World) : World :=
  { world with
    subscribed := false
    session := { world.session with
      settled := true
      position := if world.session.watch.isSome then .deleting else .ended } }

def fail (world : World) (error : SessionError) : World :=
  { world with session := { world.session with thrown := some error } }.leave

def timeoutEvent (world : World) : MempoolWatchSseEvent :=
  .timeout world.session.address world.session.expiresAt

/-- The loop from its condition to the next `yield` or sleep. -/
def turn (world : World) : World :=
  if world.session.settled ∨ world.aborted then
    if world.session.settled then world.leave else world.yield world.timeoutEvent .terminal
  else
    match world.session.appear with
    | some event => world.settle.yield (publicAppearPayload event) .terminal
    | none =>
      if world.now ≥ world.session.expiresAt then world.settle.yield world.timeoutEvent .terminal
      else if world.now ≥ world.session.nextHeartbeatAt then
        world.yield (.comment "heartbeat") .heartbeat
      else world.moveTo .sleeping

def setHeartbeat (world : World) : World :=
  { world with session :=
      { world.session with nextHeartbeatAt := world.now + mempoolWatchHeartbeatMs } }

/-- The handler of `subscribeAppears`. -/
def handleAppear (world : World) (event : MempoolAppearEvent) : World :=
  if world.subscribed = false then world
  else if some event.watchId ≠ world.session.watch ∨ world.session.settled then world
  else { world with session := { world.session with appear := some event } }

end World

/-- `assertDetectorAvailable` with the row that it reads. -/
def detectorAvailable (now : Nat) : Option MempoolWatchDetectorStatus → Bool
  | none => true
  | some status => !(status.degraded && decide (now < status.expiresAt))

/-- A step of the session, its client or the database takes; `refresh`, `publish` are steps of the
detector, and `arrive` hands the next event on the bus to the process of the session, whose
`disconnect` is an error of the bus's client there. A client that leaves has aborted. -/
inductive Action where
  | tick (ms : Nat)
  | abort
  | checked (status : Option (Option MempoolWatchDetectorStatus))
  | insertCommits
  | insertReturns
  | insertFails
  | announced (succeeds : Bool)
  | pull
  | stop
  | wake
  | deleteCommits
  | deleteReturns
  | deleteFails
  | withdrawn (succeeds : Bool)
  | refresh
  | publish (event : MempoolAppearEvent)
  | arrive
  | disconnect
  deriving DecidableEq,Repr

/-- After the session is over its signal is not read, so an abort comes before. -/
def step (action : Action) (world : World) : Option World :=
  match action,world.session.position with
  | .tick ms,_ => some { world with now := world.now + ms }
  | .abort,position => if position.over then none else some { world with aborted := true }
  | .checked none,.checking => some (world.fail .failedCall)
  | .checked (some status),.checking =>
    if detectorAvailable world.now status then some (world.moveTo .inserting)
    else some (world.fail (.tooEarly "mempool watch detector is temporarily unavailable"))
  | .insertCommits,.inserting => if world.row then none else some { world with row := true }
  | .insertReturns,.inserting =>
    if world.row then
      some { world with session :=
        { world.session with position := .announcing,watch := some world.session.id } }
    else none
  | .insertFails,.inserting => some (world.fail .failedCall)
  | .announced succeeds,.announcing =>
    if succeeds then some (world.yield (.comment "connected") .connected)
    else some (world.fail .failedCall)
  | .pull,.connected => some world.setHeartbeat.turn
  | .pull,.heartbeat => some (world.setHeartbeat.moveTo .sleeping)
  | .pull,.terminal => some world.leave
  | .stop,.connected => some { world with aborted := true }.leave
  | .stop,.heartbeat => some { world with aborted := true }.leave
  | .stop,.terminal => some world.leave
  | .wake,.sleeping => some world.turn
  | .deleteCommits,.deleting => if world.row then some { world with row := false } else none
  | .deleteReturns,.deleting => if world.row then none else some (world.moveTo .withdrawing)
  | .deleteFails,.deleting => some { world with session :=
      { world.session with position := .ended,thrown := some .failedCall } }
  | .withdrawn succeeds,.withdrawing =>
    some { world with session := { world.session with
      position := .ended
      thrown := if succeeds then world.session.thrown else some .failedCall } }
  | .refresh,_ => some { world with listed := world.row }
  | .publish event,position =>
    if event.watchId ≠ world.session.id then
      some { world with inFlight := world.inFlight ++ [event] }
    else if world.listed then
      some { world with
        inFlight := world.inFlight ++ [event]
        published := if position.over then world.published else world.published ++ [event] }
    else none
  | .arrive,_ =>
    match world.inFlight with
    | [] => none
    | event::rest => some ({ world with inFlight := rest }.handleAppear event)
  | .disconnect,_ => some { world with subscribed := false,inFlight := [] }
  | _,_ => none

end OnlyDoge.MempoolSession
