import OnlyDoge.Access.ApiKeys
import OnlyDoge.Access.ExternalIds
import OnlyDoge.Mempool.WatchCap
set_option autoImplicit false

/-!
The life of API keys: requests that authenticate and then create, change or delete keys, and the
first key of an empty table (`enforceApiTokenAuth` of `infrastructure/http.ts`,
`access-control-service.ts`, `createBootstrapApiKey` of `metadata-store.ts`), step by step.
-/

namespace OnlyDoge.Access
open Interleaving HexText
open Mempool (Driver)

structure AuthenticatedApiKey where
  apiKeyId : Nat
  id : String
  role : ApiKeyRole
  deriving DecidableEq,Repr

structure CreateApiKeyInput where
  id : Option String
  role : Option ApiKeyRole
  deriving DecidableEq,Repr

structure ApiKeyResponse where
  createdAt : String
  id : String
  isActive : Bool
  key : Option String
  role : ApiKeyRole
  deriving DecidableEq,Repr

def apiKeyToResponse (record : ApiKeyRecord) (apiToken : Option String) : ApiKeyResponse :=
  ⟨record.createdAt,record.id,record.isActive,apiToken,record.role⟩

/-- What a new key takes from the random generator: `randomBytes(24)` and `randomUUID()`. -/
structure Drawn where
  token : List UInt8
  uuid : RandomUuid

theorem nilUuid_digits :
    ∀ c ∈ "00000000-0000-0000-0000-000000000000".toList,
      c ≠ '-' → c.isDigit ∨ ('a' ≤ c ∧ c ≤ 'f') := by
  have checked : ("00000000-0000-0000-0000-000000000000".toList.all
      fun c => decide (c ≠ '-' → c.isDigit ∨ ('a' ≤ c ∧ c ≤ 'f'))) = true := by decide +kernel
  intro c member
  exact of_decide_eq_true (List.all_eq_true.mp checked c member)

def nilUuid : RandomUuid :=
  ⟨"00000000-0000-0000-0000-000000000000",by decide +kernel,by decide +kernel,nilUuid_digits⟩

/-- `randomBytes(24).toString('hex')` -/
def Drawn.secret (drawn : Drawn) : String := String.ofList (hexDigits drawn.token)

def Drawn.apiToken (drawn : Drawn) : String := "sk_" ++ drawn.secret

section Secrets
variable (hashApiSecretLookupKey : String → String)

/-- `ApiSecret.hashFromToken`: only what follows the last underscore is hashed. -/
def hashFromToken (apiToken : String) : String :=
  hashApiSecretLookupKey ((splitUnderscores apiToken).getLast?.getD apiToken)

/-- `ApiKey.create`; the primary id is given by the database. -/
def createEntity (id : Option String) (role : ApiKeyRole) (drawn : Drawn) (now : String) :
    Except String ApiKeyRecord := do
  let id ← createApiKeyId id drawn.uuid
  return ⟨0,id,role,hashApiSecretLookupKey drawn.secret,true,none,now⟩

end Secrets

inductive KeyOperation where
  | createKey (input : CreateApiKeyInput) (drawn : Drawn)
  | updateKey (id : String) (input : ApiKeyInput)
  | deleteKeys (ids : List String)
  | otherRoute

/-- A request for a protected route, with the token of its header. -/
structure KeyCall where
  apiToken : Option String
  operation : KeyOperation

inductive CallError where
  | unauthorized
  | access (error : AccessError)
  | authenticationUnavailable
  | store (message : String)
  deriving DecidableEq,Repr

inductive CallAnswer where
  | done
  | created (response : ApiKeyResponse)
  deriving DecidableEq,Repr

/-- How far a request has come: the next step of each asks the database for what it names. -/
inductive CallProgress where
  | arrived
  | configured
  | lookingUp (secretKeyHash : String)
  | changing (key : AuthenticatedApiKey) (progress : Progress)
  | counting (key : AuthenticatedApiKey)
  | checkingId (key : AuthenticatedApiKey) (hasConfiguredKeys : Bool) (id : String)
  | inserting (key : AuthenticatedApiKey) (record : ApiKeyRecord)
  | reading (key : AuthenticatedApiKey) (record : ApiKeyRecord)
  | bootstrapChecking (id : String)
  | locking (record : ApiKeyRecord)
  | bootstrapCounting (record : ApiKeyRecord)
  | bootstrapInserting (record : ApiKeyRecord)
  | bootstrapReading (record : ApiKeyRecord)
  | committing (record : ApiKeyRecord)
  | rollingBack (error : CallError)
  | releasing (result : Except CallError CallAnswer)
  | finished (key : Option AuthenticatedApiKey) (result : Except CallError CallAnswer)

/-- The key that a request acts for. -/
def CallProgress.key : CallProgress → Option AuthenticatedApiKey
  | .changing key _ | .counting key | .checkingId key _ _ | .inserting key _ | .reading key _ =>
    some key
  | .finished key _ => key
  | _ => none

/-- The database: the committed rows, the row that an open transaction has inserted, and who holds
the lock of `createBootstrapApiKey`. -/
structure KeyStore (ι : Type) where
  table : ApiKeyTable
  nextId : Nat
  pending : Option ApiKeyRecord
  holder : Option ι

/-- What a step gets from outside: the time, which parallel read is answered, and whether the
database fails it. -/
structure CallGiven where
  now : String
  answered : Nat
  fails : Bool

/-- The unique columns of `api_keys`. -/
def conflicts (record row : ApiKeyRecord) : Bool :=
  row.id = record.id || row.secretKeyHash = record.secretKeyHash

namespace ApiKeyTable

def getApiKeyByHash (table : ApiKeyTable) (secretKeyHash : String) : Option ApiKeyRecord :=
  table.rows.find? (·.secretKeyHash = secretKeyHash)

def insertApiKey (table : ApiKeyTable) (record : ApiKeyRecord) : Option ApiKeyTable :=
  if h : ∀ row ∈ table.rows, conflicts record row = false then
    some
      { rows := table.rows ++ [record]
        unique := by
          rw [List.map_append,List.map_singleton,List.nodup_append]
          refine ⟨table.unique,List.nodup_singleton _,?_⟩
          intro id hid other hother
          obtain ⟨row,hrow,rfl⟩ := List.mem_map.mp hid
          obtain rfl := List.mem_singleton.mp hother
          have hfree := h row hrow
          simp only [conflicts,Bool.or_eq_false_iff,decide_eq_false_iff_not] at hfree
          exact hfree.1 }
  else none

theorem rows_insertApiKey {table table' : ApiKeyTable} {record : ApiKeyRecord}
    (h : table.insertApiKey record = some table') : table'.rows = table.rows ++ [record] := by
  unfold insertApiKey at h
  split at h <;> cases h
  rfl

end ApiKeyTable

namespace KeyStore
variable {ι : Type}

def hasConfiguredKeys (store : KeyStore ι) : Bool := decide (store.table.rows.length > 0)

/-- SQLite has one writer, and elsewhere an `INSERT` waits for a row of the same id or hash that is
not committed yet. -/
def insertWaits (store : KeyStore ι) (driver : Driver) (record : ApiKeyRecord) : Bool :=
  (driver = .sqlite && store.holder.isSome) || store.pending.any (conflicts record)

/-- Postgres does not see a row that is not committed, and MySQL waits for it. -/
def changeWaits (store : KeyStore ι) (driver : Driver) (ids : List String) : Bool :=
  (driver = .sqlite && store.holder.isSome) ||
    (driver = .mysql && store.pending.any (·.id ∈ ids))

/-- `UPDATE` fails where another row has the hash already. -/
def updateConflicts (store : KeyStore ι) (record : ApiKeyRecord) : Bool :=
  store.table.rows.any (·.id = record.id) && store.table.rows.any fun row =>
    row.id ≠ record.id && row.secretKeyHash = record.secretKeyHash

/-- The row becomes visible. -/
def commit (store : KeyStore ι) (table : ApiKeyTable) : KeyStore ι :=
  { store with table := table, pending := none }

def release (store : KeyStore ι) : KeyStore ι := { store with holder := none }

end KeyStore

section Steps
variable {ι : Type} (hashApiSecretLookupKey : String → String)

/-- `requireApiTokenHeader` -/
def requireApiTokenHeader (apiToken : Option String) : Except CallError String :=
  match apiToken with
  | none => .error .unauthorized
  | some token => if trim token = "" then .error .unauthorized else .ok (trim token)

/-- What the lookup of a token asks for. -/
def tokenHash (apiToken : Option String) : Option String :=
  match requireApiTokenHeader apiToken with
  | .error _ => none
  | .ok token => some (hashFromToken hashApiSecretLookupKey token)

/-- The check of `assertApiKeyIdAvailable` that needs no database: the id to look for. -/
def assertKeyId (id : Option String) : Except AccessError (Option String) :=
  match id with
  | none => .ok none
  | some id =>
    if id = "" then .ok none
    else
      match ExternalId.parse id (some .key) with
      | .error message => .error (.validation message)
      | .ok _ => .ok (some id)

def createApiKeyRole (input : CreateApiKeyInput) (hasConfiguredKeys : Bool) : ApiKeyRole :=
  if hasConfiguredKeys then input.role.getD .member else .admin

/-- `createKey` of a key, from `ApiKey.create` on. -/
def afterIdCheck (key : AuthenticatedApiKey) (input : CreateApiKeyInput) (drawn : Drawn)
    (now : String) (hasConfiguredKeys : Bool) : CallProgress :=
  match createEntity hashApiSecretLookupKey input.id
    (createApiKeyRole input hasConfiguredKeys) drawn
      now with
  | .error message => .finished (some key) (.error (.access (.validation message)))
  | .ok record => .inserting key record

/-- `createKey` of a key, after the keys have been counted. -/
def afterCounting (key : AuthenticatedApiKey) (input : CreateApiKeyInput) (drawn : Drawn)
    (now : String) (hasConfiguredKeys : Bool) : CallProgress :=
  if hasConfiguredKeys && key.role ≠ .admin then
    .finished (some key) (.error (.access .forbidden))
  else
    match assertKeyId input.id with
    | .error error => .finished (some key) (.error (.access error))
    | .ok (some id) => .checkingId key hasConfiguredKeys id
    | .ok none => afterIdCheck hashApiSecretLookupKey key input drawn now hasConfiguredKeys

/-- `createBootstrapKey`, from `ApiKey.create` on. -/
def afterBootstrapCheck (input : CreateApiKeyInput) (drawn : Drawn) (now : String) : CallProgress :=
  match createEntity hashApiSecretLookupKey input.id .admin drawn now with
  | .error message => .finished none (.error (.access (.validation message)))
  | .ok record => .locking record

def beginBootstrap (input : CreateApiKeyInput) (drawn : Drawn) (now : String) : CallProgress :=
  match assertKeyId input.id with
  | .error error => .finished none (.error (.access error))
  | .ok (some id) => .bootstrapChecking id
  | .ok none => afterBootstrapCheck hashApiSecretLookupKey input drawn now

/-- The route of an authenticated request. -/
def beginOperation (key : AuthenticatedApiKey) : KeyOperation → CallProgress
  | .createKey _ _ => .counting key
  | .updateKey _ _ | .deleteKeys _ => .changing key .waiting
  | .otherRoute => .finished (some key) (.ok .done)

def changeRequest (key : AuthenticatedApiKey) : KeyOperation → Option Request
  | .updateKey id input => some (.updateKey key.role id input)
  | .deleteKeys ids => some (.deleteKeys key.role ids)
  | _ => none

/-- The record that the next step of a change writes. -/
def writtenRecord : Progress → Option ApiKeyRecord
  | .writing _ updated _ => some updated
  | _ => none

/-- The rows that the next step of a change writes or deletes. -/
def writtenIds (request : Request) (progress : Progress) : Option (List String) :=
  match request,progress with
  | .updateKey _ id _,.writing _ _ _ => some [id]
  | .deleteKeys _ ids,.deleting _ _ => some ids
  | _,_ => none

def afterChange (key : AuthenticatedApiKey) : Progress → CallProgress
  | .finished (.ok ()) => .finished (some key) (.ok .done)
  | .finished (.error error) => .finished (some key) (.error (.access error))
  | progress => .changing key progress

def advanceChange (driver : Driver) (key : AuthenticatedApiKey) (operation : KeyOperation)
    (given : CallGiven) (progress : Progress) (store : KeyStore ι) :
    Option (CallProgress × KeyStore ι) :=
  match changeRequest key operation with
  | none => none
  | some request =>
    if (writtenIds request progress).any (store.changeWaits driver) then none
    else if given.fails || (writtenRecord progress).any store.updateConflicts then
      some (.finished (some key) (.error (.store "change failed")),store)
    else
      (advance (fun _ : Unit => request) () ⟨given.now,given.answered⟩ progress store.table).map
        fun (progress,table) => (afterChange key progress,{ store with table := table })

/-- The end of a bootstrap transaction: MySQL gives its named lock back in a step of its own. -/
def ended (driver : Driver) (result : Except CallError CallAnswer) (store : KeyStore ι) :
    CallProgress × KeyStore ι :=
  if driver = .mysql then (.releasing result,store) else (.finished none result,store.release)

/-- `enforceProtectedApiTokenAuth`, and what its request goes on with. -/
def advanceAuthentication (call : KeyCall) (given : CallGiven) (progress : CallProgress)
    (store : KeyStore ι) : Option (CallProgress × KeyStore ι) :=
  match progress with
  | .arrived =>
    if given.fails then some (.finished none (.error (.store "count failed")),store)
    else if store.hasConfiguredKeys then some (.configured,store)
    else
      match call.operation with
      | .createKey input drawn =>
        some (beginBootstrap hashApiSecretLookupKey input drawn given.now,store)
      | _ => some (.finished none (.error .unauthorized),store)
  | .configured =>
    if given.fails then some (.finished none (.error .authenticationUnavailable),store)
    else if !store.hasConfiguredKeys then some (.finished none (.error .unauthorized),store)
    else
      match requireApiTokenHeader call.apiToken with
      | .error error => some (.finished none (.error error),store)
      | .ok token => some (.lookingUp (hashFromToken hashApiSecretLookupKey token),store)
  | .lookingUp secretKeyHash =>
    if given.fails then some (.finished none (.error .authenticationUnavailable),store)
    else
      match store.table.getApiKeyByHash secretKeyHash with
      | none => some (.finished none (.error .unauthorized),store)
      | some record =>
        if record.isActive then
          some (beginOperation ⟨record.apiKeyId,record.id,record.role⟩ call.operation,store)
        else some (.finished none (.error .unauthorized),store)
  | _ => none

/-- `createKey` of an authenticated key. -/
def advanceCreateKey (driver : Driver) (input : CreateApiKeyInput) (drawn : Drawn)
    (given : CallGiven) (progress : CallProgress) (store : KeyStore ι) :
    Option (CallProgress × KeyStore ι) :=
  match progress with
  | .counting key =>
    if given.fails then some (.finished (some key) (.error (.store "count failed")),store)
    else some (afterCounting hashApiSecretLookupKey key input drawn given.now
      store.hasConfiguredKeys,store)
  | .checkingId key hasConfiguredKeys id =>
    if given.fails then some (.finished (some key) (.error (.store "read failed")),store)
    else if (store.table.getApiKeyById id).isSome then
      some (.finished (some key) (.error (.access (.validation (invalidId id)))),store)
    else some (afterIdCheck hashApiSecretLookupKey key input drawn given.now
      hasConfiguredKeys,store)
  | .inserting key record =>
    if store.insertWaits driver record then none
    else if given.fails then some (.finished (some key) (.error (.store "insert failed")),store)
    else
      match store.table.insertApiKey { record with apiKeyId := store.nextId } with
      | none => some (.finished (some key) (.error (.store "insert failed")),store)
      | some table => some (.reading key record,
          { store with table := table, nextId := store.nextId + 1 })
  | .reading key record =>
    if given.fails then some (.finished (some key) (.error (.store "read failed")),store)
    else
      match store.table.getApiKeyById record.id with
      | none => some (.finished (some key) (.error (.store "expected inserted row")),store)
      | some created => some (.finished (some key)
          (.ok (.created (apiKeyToResponse created (some drawn.apiToken)))),store)
  | _ => none

/-- `createBootstrapKey`, with the transaction of `createBootstrapApiKey`. -/
def advanceBootstrapKey (driver : Driver) (i : ι) (input : CreateApiKeyInput) (drawn : Drawn)
    (given : CallGiven) (progress : CallProgress) (store : KeyStore ι) :
    Option (CallProgress × KeyStore ι) :=
  match progress with
  | .bootstrapChecking id =>
    if given.fails then some (.finished none (.error (.store "read failed")),store)
    else if (store.table.getApiKeyById id).isSome then
      some (.finished none (.error (.access (.validation (invalidId id)))),store)
    else some (afterBootstrapCheck hashApiSecretLookupKey input drawn given.now,store)
  | .locking record =>
    if given.fails then some (.finished none (.error (.store "no lock")),store)
    else if store.holder.isNone then
      some (.bootstrapCounting record,{ store with holder := some i })
    else none
  | .bootstrapCounting record =>
    if given.fails then some (.rollingBack (.store "count failed"),store)
    -- `{ created: false }` is committed, and the service answers it with an error
    else if store.hasConfiguredKeys then some (ended driver (.error .unauthorized) store)
    else some (.bootstrapInserting record,store)
  | .bootstrapInserting record =>
    if given.fails || (store.table.insertApiKey record).isNone then
      some (.rollingBack (.store "insert failed"),store)
    else
      let row := { record with apiKeyId := store.nextId }
      some (.bootstrapReading row,{ store with pending := some row, nextId := store.nextId + 1 })
  | .bootstrapReading record =>
    if given.fails then some (.rollingBack (.store "read failed"),store)
    else some (.committing record,store)
  | .committing record =>
    if given.fails then some (.rollingBack (.store "commit failed"),store)
    else
      match store.table.insertApiKey record with
      | none => some (.rollingBack (.store "commit failed"),store)
      | some table => some (ended driver
          (.ok (.created (apiKeyToResponse record (some drawn.apiToken)))) (store.commit table))
  | .rollingBack error => some (ended driver (.error error) { store with pending := none })
  | .releasing result => some (.finished none result,store.release)
  | _ => none

def advanceCall (driver : Driver) (calls : ι → KeyCall) (i : ι) (given : CallGiven)
    (progress : CallProgress) (store : KeyStore ι) : Option (CallProgress × KeyStore ι) :=
  match progress with
  | .arrived | .configured | .lookingUp _ =>
    advanceAuthentication hashApiSecretLookupKey (calls i) given progress store
  | .changing key progress => advanceChange driver key (calls i).operation given progress store
  | .counting _ | .checkingId _ _ _ | .inserting _ _ | .reading _ _ =>
    match (calls i).operation with
    | .createKey input drawn =>
      advanceCreateKey hashApiSecretLookupKey driver input drawn given progress store
    | _ => none
  | progress =>
    match (calls i).operation with
    | .createKey input drawn =>
      advanceBootstrapKey hashApiSecretLookupKey driver i input drawn given progress store
    | _ => none

abbrev Calls (ι : Type) : Type := State ι (KeyStore ι) CallProgress

/-- No request has come, and the table is as new. -/
def noKeysYet : Calls ι := ⟨⟨⟨[],List.nodup_nil⟩,1,none,none⟩,fun _ => .arrived⟩

def stepCalls [DecidableEq ι] (driver : Driver) (calls : ι → KeyCall) :
    Event ι CallGiven Empty → Calls ι → Option (Calls ι) :=
  Interleaving.step (advanceCall hashApiSecretLookupKey driver calls) (fun event _ => nomatch event)

end Steps

end OnlyDoge.Access
