import OnlyDoge.Access.RateLimiter
import OnlyDoge.Analytics.SqlGuard
import OnlyDoge.Library.Interleaving
import OnlyDoge.Library.IsoTime
set_option autoImplicit false

/-!
Analytics queries on their way to the warehouse, step by step, with the budget of each key
(`query` and `executeQuery` of `analytics-query-service.ts`).
-/

namespace OnlyDoge.Analytics
open Access Interleaving

def analyticsQueryMaxWindowSeconds : Int := 7 * 24 * 60 * 60
def analyticsQueryDefaultLimit : Int := 100
def analyticsQueryMaxResultRows : Int := 1000
def analyticsQueryMaxRowsToRead : Int := 50000000
def analyticsQueryMaxBytesToRead : Int := 5000000000
def analyticsQueryMaxExecutionSeconds : Int := 5
def analyticsQueryMaxConcurrentRequests : Nat := 2

def analyticsRateLimitPolicy : ApiKeyRateLimitPolicy :=
  ⟨30,60000,Nat.zero_lt_succ _,Nat.zero_lt_succ _⟩

/-- What a query throws; `failed` is an error of the metadata store or of the warehouse. -/
inductive QueryError where
  | rateLimit (message : String)
  | tooEarly (message : String)
  | invalid (error : AnalyticsError)
  | invalidTime
  | failed
  deriving DecidableEq,Repr

structure AnalyticsQueryInput where
  sql : String
  fromText : String
  toText : String
  limit : Option Int
  deriving DecidableEq,Repr

structure AnalyticsRequest where
  apiKeyId : Nat
  input : AnalyticsQueryInput

/-- The functions of others that a query uses: the SQL parser, `Number` where it gives an integer,
`Date.parse` where it gives a time, and the digest of the text. -/
structure Environment where
  parser : SqlParser
  number : String → Option Int
  dateParse : String → Option Int
  sha256 : List Char → String

structure AnalyticsTimeWindow where
  fromIso : String
  fromTime : Int
  toIso : String
  toTime : Int
  deriving DecidableEq,Repr

structure QueryParams where
  fromTime : Int
  toTime : Int
  maxFinalizedHeight : Int
  limit : Int
  deriving DecidableEq,Repr

structure AnalyticsQueryEstimate where
  estimatedRows : Option Int
  estimatedBytes : Option Int
  deriving DecidableEq,Repr

/-- The part of the answer that the service makes itself. -/
structure QueryInfo where
  hash : String
  fromIso : String
  toIso : String
  finalizedBlockHeight : Int
  estimate : AnalyticsQueryEstimate
  deriving DecidableEq,Repr

section Checks
variable (env : Environment)

def parseTimestampSeconds (value field : String) : Except QueryError Int :=
  match (env.number value).filter (0 ≤ ·) with
  | some numeric => .ok numeric
  | none =>
    match env.dateParse value with
    | some parsed => .ok (parsed / 1000)
    | none => .error (.invalid (.validation s!"invalid parameter for `{field}`: {value}"))

def isoText (seconds : Int) : Except QueryError String :=
  match IsoTime.toISOString (seconds * 1000) with
  | some text => .ok text
  | none => .error .invalidTime

def parseTimeWindow (input : AnalyticsQueryInput) : Except QueryError AnalyticsTimeWindow := do
  let fromTime ← parseTimestampSeconds env input.fromText "from"
  let toTime ← parseTimestampSeconds env input.toText "to"
  if toTime ≤ fromTime then throw (.invalid (.validation "invalid analytics time window"))
  if toTime - fromTime > analyticsQueryMaxWindowSeconds then
    throw (.invalid (.validation "analytics time window cannot exceed 7 days"))
  let fromIso ← isoText fromTime
  let toIso ← isoText toTime
  return ⟨fromIso,fromTime,toIso,toTime⟩

def boundedLimit : Option Int → Except QueryError Int
  | none => .ok analyticsQueryDefaultLimit
  | some limit =>
    if limit < 1 ∨ limit > analyticsQueryMaxResultRows then
      .error (.invalid (.validation s!"invalid parameter for `limit`: {limit}"))
    else .ok limit

def analyticsQueryParams (window : AnalyticsTimeWindow) (finalizedTail : Int)
    (limit : Option Int) : Except QueryError QueryParams := do
  let limit ← boundedLimit limit
  return ⟨window.fromTime,window.toTime,finalizedTail,limit⟩

def assertEstimateWithinLimits (estimated : Option Int) (limit : Int) (label : String) :
    Except QueryError Unit :=
  match estimated with
  | some estimated =>
    if estimated > limit then
      .error (.invalid (.validation s!"analytics query estimated {label} exceed limit"))
    else .ok ()
  | none => .ok ()

def assertEstimate (estimate : AnalyticsQueryEstimate) : Except QueryError Unit := do
  assertEstimateWithinLimits estimate.estimatedRows analyticsQueryMaxRowsToRead "rows"
  assertEstimateWithinLimits estimate.estimatedBytes analyticsQueryMaxBytesToRead "bytes"

/-- The checks of `executeQuery` between its reads and the preflight. -/
def checkedQuery (window : AnalyticsTimeWindow) (finalizedTail : Int)
    (input : AnalyticsQueryInput) : Except QueryError (List Char × QueryParams) :=
  match validateAnalyticsSql env.parser input.sql with
  | .error error => .error (.invalid error)
  | .ok sql =>
    match analyticsQueryParams window finalizedTail input.limit with
    | .error error => .error error
    | .ok params => .ok (sql,params)

end Checks

inductive WarehouseCall where
  | preflight
  | execute
  deriving DecidableEq,Repr

/-- A query as the warehouse gets it. -/
structure Sent (ι : Type) where
  sender : ι
  call : WarehouseCall
  sql : List Char
  params : QueryParams

/-- The budgets of the service, the settings that it reads, and what it has sent. A setting that is
not a number is `none`. -/
structure AnalyticsStore (ι : Type) where
  limiter : RateLimitWindows
  activeQueries : String → Option Nat
  finalizedTail : Option Int
  factsReady : Option Bool
  factsTail : Option Int
  sent : List (Sent ι)

def analyticsBudgetSubject (apiKeyId : Nat) : String := s!"analytics:{apiKeyId}"

def acquireConcurrency (subject : String) (activeQueries : String → Option Nat) :
    Option (String → Option Nat) :=
  let active := (activeQueries subject).getD 0
  if active ≥ analyticsQueryMaxConcurrentRequests then none
  else some (Function.update activeQueries subject (some (active + 1)))

def releaseConcurrency (subject : String) (activeQueries : String → Option Nat) :
    String → Option Nat :=
  let active := (activeQueries subject).getD 0
  if active ≤ 1 then Function.update activeQueries subject none
  else Function.update activeQueries subject (some (active - 1))

/-- How far a query has come, with the answers that it has. `releasing` is the `finally`. -/
inductive QueryProgress where
  | waiting
  | readingTail (window : AnalyticsTimeWindow)
  | readingReady (window : AnalyticsTimeWindow) (finalizedTail : Int)
    (ready : Option (Option Bool)) (factsTail : Option (Option Int))
  | preflighting (window : AnalyticsTimeWindow) (sql : List Char) (params : QueryParams)
  | executing (window : AnalyticsTimeWindow) (sql : List Char) (params : QueryParams)
    (estimate : AnalyticsQueryEstimate)
  | releasing (result : Except QueryError QueryInfo)
  | finished (result : Except QueryError QueryInfo)

/-- What a step gets from outside: the time, whether the port fails, which of the two reads of
`Promise.all` is answered, and the estimate of the warehouse. -/
structure Given where
  now : Int
  fails : Bool
  factsFirst : Bool
  estimate : AnalyticsQueryEstimate

section Steps
variable {ι : Type} (env : Environment) (requests : ι → AnalyticsRequest)

def rateLimitExceeded : QueryError := .rateLimit "analytics rate limit exceeded"
def concurrencyExceeded : QueryError := .rateLimit "analytics concurrency limit exceeded"
def factsNotReady : QueryError := .tooEarly "dogecoin analytics facts are not ready"

/-- `query` up to the first read of `executeQuery`. -/
def startQuery (i : ι) (now : Int) (store : AnalyticsStore ι) : QueryProgress × AnalyticsStore ι :=
  let subject := analyticsBudgetSubject (requests i).apiKeyId
  let (result,limiter) := consume analyticsRateLimitPolicy now subject store.limiter
  let store := { store with limiter := limiter }
  if result.allowed then
    match acquireConcurrency subject store.activeQueries with
    | none => (.finished (.error concurrencyExceeded),store)
    | some activeQueries =>
      let store := { store with activeQueries := activeQueries }
      match parseTimeWindow env (requests i).input with
      | .error error => (.releasing (.error error),store)
      | .ok window => (.readingTail window,store)
  else (.finished (.error rateLimitExceeded),store)

/-- `assertAnalyticsReady` when both reads are there, and the query up to its preflight. -/
def afterReads (i : ι) (window : AnalyticsTimeWindow) (finalizedTail : Int) (ready : Option Bool)
    (factsTail : Option Int) (store : AnalyticsStore ι) : QueryProgress × AnalyticsStore ι :=
  match ready,factsTail with
  | some true,some tail =>
    if tail < finalizedTail then (.releasing (.error factsNotReady),store)
    else
      match checkedQuery env window finalizedTail (requests i).input with
      | .error error => (.releasing (.error error),store)
      | .ok (sql,params) =>
        (.preflighting window sql params,
          { store with sent := store.sent ++ [⟨i,.preflight,sql,params⟩] })
  | _,_ => (.releasing (.error factsNotReady),store)

def readReady (i : ι) (given : Given) (window : AnalyticsTimeWindow) (finalizedTail : Int)
    (ready : Option (Option Bool)) (factsTail : Option (Option Int)) (store : AnalyticsStore ι) :
    Option (QueryProgress × AnalyticsStore ι) :=
  match given.factsFirst,ready,factsTail with
  | false,none,none =>
    some (.readingReady window finalizedTail (some store.factsReady) none,store)
  | false,none,some tail =>
    some (afterReads env requests i window finalizedTail store.factsReady tail store)
  | true,none,none =>
    some (.readingReady window finalizedTail none (some store.factsTail),store)
  | true,some ready,none =>
    some (afterReads env requests i window finalizedTail ready store.factsTail store)
  | _,_,_ => none

def advance (i : ι) (given : Given) (progress : QueryProgress) (store : AnalyticsStore ι) :
    Option (QueryProgress × AnalyticsStore ι) :=
  match progress with
  | .waiting => some (startQuery env requests i given.now store)
  | .readingTail window =>
    if given.fails then some (.releasing (.error .failed),store)
    else
      match store.finalizedTail with
      | none =>
        some (.releasing (.error (.tooEarly "dogecoin finalized chain is not ready")),store)
      | some finalizedTail => some (.readingReady window finalizedTail none none,store)
  | .readingReady window finalizedTail ready factsTail =>
    if given.fails then some (.releasing (.error .failed),store)
    else readReady env requests i given window finalizedTail ready factsTail store
  | .preflighting window sql params =>
    if given.fails then some (.releasing (.error .failed),store)
    else
      match assertEstimate given.estimate with
      | .error error => some (.releasing (.error error),store)
      | .ok _ => some (.executing window sql params given.estimate,
          { store with sent := store.sent ++ [⟨i,.execute,sql,params⟩] })
  | .executing window sql params estimate =>
    if given.fails then some (.releasing (.error .failed),store)
    else some (.releasing (.ok
      ⟨env.sha256 sql,window.fromIso,window.toIso,params.maxFinalizedHeight,estimate⟩),store)
  | .releasing result => some (.finished result,{ store with
      activeQueries := releaseConcurrency (analyticsBudgetSubject (requests i).apiKeyId)
        store.activeQueries })
  | .finished _ => none

/-- The settings are written by the indexer and by the backfill of the facts. -/
inductive Setting where
  | finalizedTail (value : Option Int)
  | factsReady (value : Option Bool)
  | factsTail (value : Option Int)

def outside : Setting → AnalyticsStore ι → Option (AnalyticsStore ι)
  | .finalizedTail value,store => some { store with finalizedTail := value }
  | .factsReady value,store => some { store with factsReady := value }
  | .factsTail value,store => some { store with factsTail := value }

abbrev Queries (ι : Type) : Type := State ι (AnalyticsStore ι) QueryProgress

def step [DecidableEq ι] : Event ι Given Setting → Queries ι → Option (Queries ι) :=
  Interleaving.step (advance env requests) outside

/-- A service that has just been built. -/
def started (finalizedTail : Option Int) (factsReady : Option Bool) (factsTail : Option Int) :
    Queries ι :=
  ⟨⟨fun _ => none,fun _ => none,finalizedTail,factsReady,factsTail,[]⟩,fun _ => .waiting⟩

end Steps
end OnlyDoge.Analytics
