import OnlyDoge.Library.Interleaving
import Mathlib.Data.List.Perm.Subperm
set_option autoImplicit false

/-!
API keys and the requests that change or delete them, step by step
(`access-control-service.ts`, `domain/api-key.ts`, `metadata-store.ts`).
-/

namespace OnlyDoge.Access
open Interleaving

inductive ApiKeyRole where
  | admin
  | member
  deriving DecidableEq,Repr

structure ApiKeyRecord where
  apiKeyId : Nat
  id : String
  role : ApiKeyRole
  secretKeyHash : String
  isActive : Bool
  updatedAt : Option String
  createdAt : String
  deriving DecidableEq,Repr

/-- The rows of `api_keys`, where `id` is unique. -/
structure ApiKeyTable where
  rows : List ApiKeyRecord
  unique : (rows.map (·.id)).Nodup

structure ApiKeyInput where
  isActive : Option Bool
  role : Option ApiKeyRole
  deriving DecidableEq,Repr

/-- What a request throws. -/
inductive AccessError where
  | forbidden
  | notFound
  | validation (message : String)
  deriving DecidableEq,Repr

def lastActiveAdmin : AccessError := .validation "cannot remove the last active admin API key"

def isActiveAdminApiKey (record : ApiKeyRecord) : Bool := record.isActive && record.role = .admin

def removesActiveAdminApiKey (current updated : ApiKeyRecord) : Bool :=
  isActiveAdminApiKey current && !isActiveAdminApiKey updated

def removesLastActiveAdminApiKey (deletingCount activeCount : Nat) : Bool :=
  decide (deletingCount > 0) && decide ((activeCount : Int) - deletingCount ≤ 0)

def setApiKeyIsActive (record : ApiKeyRecord) (isActive : Bool) (now : String) : ApiKeyRecord :=
  { record with isActive := isActive, updatedAt := some now }

def setApiKeyRole (record : ApiKeyRecord) (role : ApiKeyRole) (now : String) : ApiKeyRecord :=
  { record with role := role, updatedAt := some now }

def applyApiKeyRole (current : ApiKeyRecord) (role : Option ApiKeyRole) (now : String) :
    ApiKeyRecord :=
  match role with
  | some role => setApiKeyRole current role now
  | none => current

def applyApiKeyActiveState (current : ApiKeyRecord) (isActive : Option Bool) (now : String) :
    ApiKeyRecord :=
  match isActive with
  | some isActive => setApiKeyIsActive current isActive now
  | none => current

def applyApiKeyUpdate (current : ApiKeyRecord) (input : ApiKeyInput) (now : String) :
    ApiKeyRecord :=
  applyApiKeyActiveState (applyApiKeyRole current input.role now) input.isActive now

/-- `updated !== current`: a field that is given makes a new record, whatever its value. -/
def isNewRecord (input : ApiKeyInput) : Bool := input.isActive.isSome || input.role.isSome

namespace ApiKeyTable

def countActiveAdminApiKeys (table : ApiKeyTable) : Nat := table.rows.countP isActiveAdminApiKey

def getApiKeyById (table : ApiKeyTable) (id : String) : Option ApiKeyRecord :=
  table.rows.find? (·.id = id)

/-- The columns that `updateApiKey` sets in the row of its id. -/
def written (record row : ApiKeyRecord) : ApiKeyRecord :=
  if row.id = record.id then
    { row with
      secretKeyHash := record.secretKeyHash
      isActive := record.isActive
      role := record.role
      updatedAt := record.updatedAt }
  else row

theorem written_id (record row : ApiKeyRecord) : (written record row).id = row.id := by
  unfold written
  split <;> rfl

def updateApiKey (table : ApiKeyTable) (record : ApiKeyRecord) : ApiKeyTable where
  rows := table.rows.map (written record)
  unique := by
    have hids : (table.rows.map (written record)).map (·.id) = table.rows.map (·.id) := by
      simp [written_id,Function.comp_def]
    rw [hids]
    exact table.unique

def deleteApiKeys (table : ApiKeyTable) (ids : List String) : ApiKeyTable where
  rows := table.rows.filter (fun row => row.id ∉ ids)
  unique := table.unique.sublist ((List.filter_sublist).map _)

end ApiKeyTable

/-- A request of a key with role `actor`. -/
inductive Request where
  | updateKey (actor : ApiKeyRole) (id : String) (input : ApiKeyInput)
  | deleteKeys (actor : ApiKeyRole) (ids : List String)

/-- The answer of `getApiKeyById` for one of the ids of `deleteKeys`. -/
structure KeyRead where
  id : String
  record : Option ApiKeyRecord

/-- How far a request has come. The next step of `counting` and of `deleteCounting` counts, that of
`writing` and of `deleting` writes. -/
inductive Progress where
  | waiting
  | counting (current updated : ApiKeyRecord)
  | writing (current updated : ApiKeyRecord) (activeAdminCount : Option Nat)
  | reading (pending : List String) (records : List KeyRead)
  | deleteCounting (records : List KeyRead)
  | deleting (records : List KeyRead) (activeAdminCount : Nat)
  | finished (result : Except AccessError Unit)

/-- What a step gets from outside: the time, and which pending read of `Promise.all` is answered. -/
structure Given where
  now : String
  answered : Nat

def countDeleting (records : List KeyRead) : Nat :=
  records.countP fun read => read.record.any isActiveAdminApiKey

/-- `updateApiKeyIfChanged`, up to its write. -/
def afterUpdateCheck (input : ApiKeyInput) (current updated : ApiKeyRecord)
    (activeAdminCount : Option Nat) : Progress :=
  if isNewRecord input then .writing current updated activeAdminCount else .finished (.ok ())

/-- The next of the parallel reads of `assertCanDeleteKeys`. -/
def readPending (given : Given) (pending : List String) (records : List KeyRead)
    (table : ApiKeyTable) : Option Progress :=
  match pending[given.answered]? with
  | none => none
  | some id =>
    let records := records ++ [⟨id,table.getApiKeyById id⟩]
    match pending.eraseIdx given.answered with
    | [] =>
      if records.any (·.record.isNone) then some (.finished (.error .notFound))
      else some (.deleteCounting records)
    | pending => some (.reading pending records)

def advanceUpdateKey (id : String) (input : ApiKeyInput) (given : Given) (progress : Progress)
    (table : ApiKeyTable) : Option (Progress × ApiKeyTable) :=
  match progress with
  | .waiting =>
    match table.getApiKeyById id with
    | none => some (.finished (.error .notFound),table)
    | some current =>
      let updated := applyApiKeyUpdate current input given.now
      if removesActiveAdminApiKey current updated then some (.counting current updated,table)
      else some (afterUpdateCheck input current updated none,table)
  | .counting current updated =>
    let activeAdminCount := table.countActiveAdminApiKeys
    if activeAdminCount > 1 then
      some (afterUpdateCheck input current updated (some activeAdminCount),table)
    else some (.finished (.error lastActiveAdmin),table)
  | .writing _ updated _ => some (.finished (.ok ()),table.updateApiKey updated)
  | _ => none

def afterDeleteCount (records : List KeyRead) (activeAdminCount : Nat) : Progress :=
  if removesLastActiveAdminApiKey (countDeleting records) activeAdminCount then
    .finished (.error lastActiveAdmin)
  else .deleting records activeAdminCount

def advanceDeleteKeys (ids : List String) (given : Given) (progress : Progress)
    (table : ApiKeyTable) : Option (Progress × ApiKeyTable) :=
  match progress with
  | .waiting =>
    -- without ids there is nothing to read, and the first step counts
    if ids = [] then some (afterDeleteCount [] table.countActiveAdminApiKeys,table)
    else (readPending given ids.eraseDups [] table).map (·,table)
  | .reading pending records => (readPending given pending records table).map (·,table)
  | .deleteCounting records =>
    some (afterDeleteCount records table.countActiveAdminApiKeys,table)
  | .deleting _ _ => some (.finished (.ok ()),table.deleteApiKeys ids)
  | _ => none

/-- `requireAdminApiKey` ends a request of another key before it reaches the store. -/
def refuse (progress : Progress) (table : ApiKeyTable) : Option (Progress × ApiKeyTable) :=
  match progress with
  | .waiting => some (.finished (.error .forbidden),table)
  | _ => none

def advance {ι : Type} (requests : ι → Request) (i : ι) (given : Given) (progress : Progress)
    (table : ApiKeyTable) : Option (Progress × ApiKeyTable) :=
  match requests i with
  | .updateKey actor id input =>
    if actor = .admin then advanceUpdateKey id input given progress table
    else refuse progress table
  | .deleteKeys actor ids =>
    if actor = .admin then advanceDeleteKeys ids given progress table else refuse progress table

abbrev Requests (ι : Type) : Type := State ι ApiKeyTable Progress

def noRequestsYet {ι : Type} (table : ApiKeyTable) : Requests ι := ⟨table,fun _ => .waiting⟩

def step {ι : Type} [DecidableEq ι] (requests : ι → Request) :
    Event ι Given Empty → Requests ι → Option (Requests ι) :=
  Interleaving.step (advance requests) (fun event _ => nomatch event)

end OnlyDoge.Access
