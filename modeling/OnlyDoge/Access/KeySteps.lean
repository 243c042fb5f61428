import OnlyDoge.Access.KeyRequests
import OnlyDoge.Access.LastAdmin
set_option autoImplicit false

/-! The ways a request on API keys goes on, and what it carries from one step to the next. -/

namespace OnlyDoge.Access
open Interleaving HexText
open Mempool (Driver)

/-- The copy of a row that an update may still write back. -/
def Progress.copy : Progress → Option ApiKeyRecord
  | .counting _ updated | .writing _ updated _ => some updated
  | _ => none

namespace CallProgress

def copy : CallProgress → Option ApiKeyRecord
  | .changing _ progress => progress.copy
  | _ => none

/-- The new row that a request may still insert. -/
def entity : CallProgress → Option ApiKeyRecord
  | .inserting _ record | .locking record | .bootstrapCounting record
  | .bootstrapInserting record | .bootstrapReading record | .committing record => some record
  | _ => none

/-- Nothing is inserted any more. -/
def atEnd : CallProgress → Bool
  | .reading _ _ | .rollingBack _ | .releasing _ | .finished _ _ => true
  | _ => false

theorem entity_of_atEnd {p : CallProgress} (h : p.atEnd = true) : p.entity = none := by
  cases p with
  | reading | rollingBack | releasing | finished => rfl
  | _ => cases h

end CallProgress

section Steps
variable {ι : Type} {hashApiSecretLookupKey : String → String} {driver : Driver}
  {calls : ι → KeyCall} {i : ι} {given : CallGiven} {p p' : CallProgress} {store st : KeyStore ι}

variable (hashApiSecretLookupKey) in
/-- The request creates a key, with this id and the hash of the secret that it draws. -/
def KeyCall.Draws (call : KeyCall) (id secretKeyHash : String) : Prop :=
  ∃ input drawn, call.operation = .createKey input drawn ∧
    createApiKeyId input.id drawn.uuid = .ok id ∧
    secretKeyHash = hashApiSecretLookupKey drawn.secret

variable (hashApiSecretLookupKey) in
def KeyCall.secretHash (call : KeyCall) : Option String :=
  match call.operation with
  | .createKey _ drawn => some (hashApiSecretLookupKey drawn.secret)
  | _ => none

theorem KeyCall.Draws.secretHash {call : KeyCall} {id secretKeyHash : String}
    (h : call.Draws hashApiSecretLookupKey id secretKeyHash) :
    call.secretHash hashApiSecretLookupKey = some secretKeyHash := by
  obtain ⟨input,drawn,hop,-,rfl⟩ := h
  simp [KeyCall.secretHash,hop]

variable (hashApiSecretLookupKey calls i store p) in
/-- The ways a request goes on. -/
inductive Stepped : CallProgress → KeyStore ι → Prop
  | goes {p' : CallProgress} {st : KeyStore ι} (htable : st.table = store.table)
      (hcopy : p'.copy = none ∨ p'.copy = p.copy)
      (hentity : ∀ r', p'.entity = some r' →
        ∃ r, p.entity = some r ∧ r'.id = r.id ∧ r'.secretKeyHash = r.secretKeyHash)
      (hkey : p'.key = none ∨ p'.key = p.key) (hend : p.atEnd → p'.atEnd)
      (hlook : ∀ secretKeyHash, p' = .lookingUp secretKeyHash →
        tokenHash hashApiSecretLookupKey (calls i).apiToken = some secretKeyHash) : Stepped p' st
  | found (secretKeyHash : String) (record : ApiKeyRecord) (hp : p = .lookingUp secretKeyHash)
      (hrow : store.table.getApiKeyByHash secretKeyHash = some record)
      (hactive : record.isActive = true) :
      Stepped (beginOperation ⟨record.apiKeyId,record.id,record.role⟩ (calls i).operation) store
  | copied {p' : CallProgress} (key : AuthenticatedApiKey) (row : ApiKeyRecord)
      (input : ApiKeyInput) (now : String) (hp : p = .changing key .waiting)
      (hop : (calls i).operation = .updateKey row.id input) (hrow : row ∈ store.table.rows)
      (hcopy : p'.copy = some (applyApiKeyUpdate row input now)) (hentity : p'.entity = none)
      (hkey : p'.key = some key) : Stepped p' store
  | drew {p' : CallProgress} (r : ApiKeyRecord) (hp : p.atEnd = false)
      (hdraws : (calls i).Draws hashApiSecretLookupKey r.id r.secretKeyHash)
      (hentity : p'.entity = some r) (hcopy : p'.copy = none) (hkey : p'.key = p.key) :
      Stepped p' store
  | wrote {st : KeyStore ι} (key : AuthenticatedApiKey) (current updated : ApiKeyRecord)
      (n : Option Nat) (hp : p = .changing key (.writing current updated n))
      (htable : st.table = store.table.updateApiKey updated) :
      Stepped (.finished (some key) (.ok .done)) st
  | deleted {st : KeyStore ι} (key : AuthenticatedApiKey) (records : List KeyRead) (n : Nat)
      (ids : List String) (hp : p = .changing key (.deleting records n))
      (htable : st.table = store.table.deleteApiKeys ids) :
      Stepped (.finished (some key) (.ok .done)) st
  | inserted {p' : CallProgress} {st : KeyStore ι} (r r' : ApiKeyRecord) (hp : p.entity = some r)
      (hid : r'.id = r.id) (hhash : r'.secretKeyHash = r.secretKeyHash)
      (htable : st.table.rows = store.table.rows ++ [r']) (hcopy : p'.copy = none)
      (hentity : p'.entity = none) (hkey : p'.key = none ∨ p'.key = p.key)
      (hend : p'.atEnd = true) :
      Stepped p' st

theorem Stepped.ends {result : Except CallError CallAnswer} {key : Option AuthenticatedApiKey}
    (htable : st.table = store.table) (hkey : key = none ∨ key = p.key) :
    Stepped hashApiSecretLookupKey calls i p store (.finished key result) st :=
  .goes htable (.inl rfl) (fun _ h => nomatch h) hkey (fun _ => rfl) (fun _ h => nomatch h)

theorem createEntity_ok {id : Option String} {role : ApiKeyRole} {drawn : Drawn} {now : String}
    {record : ApiKeyRecord} (h : createEntity hashApiSecretLookupKey id role drawn now =
      .ok record) :
    createApiKeyId id drawn.uuid = .ok record.id ∧
      record.secretKeyHash = hashApiSecretLookupKey drawn.secret := by
  unfold createEntity at h
  cases hid : createApiKeyId id drawn.uuid with
  | error message =>
    rw [hid] at h
    cases h
  | ok value =>
    rw [hid] at h
    cases h
    exact ⟨rfl,rfl⟩

theorem stepped_afterIdCheck {key : AuthenticatedApiKey} {input : CreateApiKeyInput} {drawn : Drawn}
    {now : String} {hasConfiguredKeys : Bool} (hop : (calls i).operation = .createKey input drawn)
    (hkey : p.key = some key) (hp : p.atEnd = false) :
    Stepped hashApiSecretLookupKey calls i p store
      (afterIdCheck hashApiSecretLookupKey key input drawn now hasConfiguredKeys) store := by
  unfold afterIdCheck
  cases hcreate : createEntity hashApiSecretLookupKey input.id
      (createApiKeyRole input hasConfiguredKeys) drawn now with
  | error message => exact .ends rfl (.inr hkey.symm)
  | ok record =>
    obtain ⟨hid,hhash⟩ := createEntity_ok hcreate
    exact .drew record hp ⟨input,drawn,hop,hid,hhash⟩ rfl rfl hkey.symm

theorem stepped_afterBootstrapCheck {input : CreateApiKeyInput} {drawn : Drawn} {now : String}
    (hop : (calls i).operation = .createKey input drawn) (hkey : p.key = none)
    (hp : p.atEnd = false) :
    Stepped hashApiSecretLookupKey calls i p store
      (afterBootstrapCheck hashApiSecretLookupKey input drawn now) store := by
  unfold afterBootstrapCheck
  cases hcreate : createEntity hashApiSecretLookupKey input.id .admin drawn now with
  | error message => exact .ends rfl (.inl rfl)
  | ok record =>
    obtain ⟨hid,hhash⟩ := createEntity_ok hcreate
    exact .drew record hp ⟨input,drawn,hop,hid,hhash⟩ rfl rfl hkey.symm

theorem stepped_authentication
    (h : advanceAuthentication hashApiSecretLookupKey (calls i) given p store = some (p',st)) :
    Stepped hashApiSecretLookupKey calls i p store p' st := by
  cases p with
  | arrived =>
    simp only [advanceAuthentication] at h
    split at h
    · cases h
      exact .ends rfl (.inl rfl)
    split at h
    · cases h
      exact .goes rfl (.inl rfl) (fun _ h => nomatch h) (.inl rfl) (fun h => nomatch h)
        (fun _ h => nomatch h)
    cases hop : (calls i).operation with
    | createKey input drawn =>
      simp only [hop] at h
      cases h
      unfold beginBootstrap
      cases assertKeyId input.id with
      | error error => exact .ends rfl (.inl rfl)
      | ok id =>
        cases id with
        | none => exact stepped_afterBootstrapCheck hop rfl rfl
        | some id =>
          exact .goes rfl (.inl rfl) (fun _ h => nomatch h) (.inl rfl) (fun h => nomatch h)
            (fun _ h => nomatch h)
    | updateKey id input | deleteKeys ids | otherRoute =>
      simp only [hop] at h
      cases h
      exact .ends rfl (.inl rfl)
  | configured =>
    simp only [advanceAuthentication] at h
    split at h
    · cases h
      exact .ends rfl (.inl rfl)
    split at h
    · cases h
      exact .ends rfl (.inl rfl)
    cases htoken : requireApiTokenHeader (calls i).apiToken with
    | error error =>
      simp only [htoken] at h
      cases h
      exact .ends rfl (.inl rfl)
    | ok token =>
      simp only [htoken] at h
      cases h
      refine .goes rfl (.inl rfl) (fun _ h => nomatch h) (.inl rfl) (fun h => nomatch h)
        (fun hash heq => ?_)
      cases heq
      simp [tokenHash,htoken]
  | lookingUp secretKeyHash =>
    simp only [advanceAuthentication] at h
    split at h
    · cases h
      exact .ends rfl (.inl rfl)
    cases hrow : store.table.getApiKeyByHash secretKeyHash with
    | none =>
      simp only [hrow] at h
      cases h
      exact .ends rfl (.inl rfl)
    | some record =>
      simp only [hrow] at h
      split at h <;> cases h
      · exact .found secretKeyHash record rfl hrow (by assumption)
      · exact .ends rfl (.inl rfl)
  | _ => cases h

theorem stepped_ended {result : Except CallError CallAnswer} {before : KeyStore ι}
    (htable : before.table = store.table) (h : ended driver result before = (p',st)) :
    Stepped hashApiSecretLookupKey calls i p store p' st := by
  unfold ended at h
  split at h <;> cases h
  · exact .goes htable (.inl rfl) (fun _ h => nomatch h) (.inl rfl) (fun _ => rfl)
      (fun _ h => nomatch h)
  · exact .ends htable (.inl rfl)

theorem stepped_createKey {input : CreateApiKeyInput} {drawn : Drawn}
    (hop : (calls i).operation = .createKey input drawn)
    (h : advanceCreateKey hashApiSecretLookupKey driver input drawn given p store = some (p',st)) :
    Stepped hashApiSecretLookupKey calls i p store p' st := by
  cases p with
  | counting key =>
    simp only [advanceCreateKey] at h
    split at h <;> cases h
    · exact .ends rfl (.inr rfl)
    unfold afterCounting
    split
    · exact .ends rfl (.inr rfl)
    cases assertKeyId input.id with
    | error error => exact .ends rfl (.inr rfl)
    | ok id =>
      cases id with
      | none => exact stepped_afterIdCheck hop rfl rfl
      | some id =>
        exact .goes rfl (.inl rfl) (fun _ h => nomatch h) (.inr rfl) (fun h => nomatch h)
          (fun _ h => nomatch h)
  | checkingId key hasConfiguredKeys id =>
    simp only [advanceCreateKey] at h
    split at h
    · cases h
      exact .ends rfl (.inr rfl)
    split at h <;> cases h
    · exact .ends rfl (.inr rfl)
    · exact stepped_afterIdCheck hop rfl rfl
  | inserting key record =>
    simp only [advanceCreateKey] at h
    split at h
    · cases h
    split at h
    · cases h
      exact .ends rfl (.inr rfl)
    cases hinsert : store.table.insertApiKey { record with apiKeyId := store.nextId } with
    | none =>
      simp only [hinsert] at h
      cases h
      exact .ends rfl (.inr rfl)
    | some table =>
      simp only [hinsert] at h
      cases h
      have hrows := ApiKeyTable.rows_insertApiKey hinsert
      exact .inserted record { record with apiKeyId := store.nextId } rfl rfl rfl hrows rfl rfl
        (.inr rfl) rfl
  | reading key record =>
    simp only [advanceCreateKey] at h
    split at h
    · cases h
      exact .ends rfl (.inr rfl)
    split at h <;> cases h
    · exact .ends rfl (.inr rfl)
    · exact .ends rfl (.inr rfl)
  | _ => cases h

theorem stepped_bootstrapKey {input : CreateApiKeyInput} {drawn : Drawn}
    (hop : (calls i).operation = .createKey input drawn)
    (h : advanceBootstrapKey hashApiSecretLookupKey driver i input drawn given p store =
      some (p',st)) : Stepped hashApiSecretLookupKey calls i p store p' st := by
  have hrollback (error : CallError) :
      Stepped hashApiSecretLookupKey calls i p store (.rollingBack error) store :=
    .goes rfl (.inl rfl) (fun _ h => nomatch h) (.inl rfl) (fun _ => rfl) (fun _ h => nomatch h)
  cases p with
  | bootstrapChecking id =>
    simp only [advanceBootstrapKey] at h
    split at h
    · cases h
      exact .ends rfl (.inl rfl)
    split at h <;> cases h
    · exact .ends rfl (.inl rfl)
    · exact stepped_afterBootstrapCheck hop rfl rfl
  | locking record =>
    simp only [advanceBootstrapKey] at h
    split at h
    · cases h
      exact .ends rfl (.inl rfl)
    split at h <;> cases h
    refine .goes rfl (.inl rfl) (fun r' heq => ?_) (.inl rfl) (fun h => nomatch h)
      (fun _ h => nomatch h)
    exact ⟨record,rfl,by cases heq; exact ⟨rfl,rfl⟩⟩
  | bootstrapCounting record =>
    simp only [advanceBootstrapKey] at h
    split at h
    · cases h
      exact hrollback _
    split at h
    · exact stepped_ended rfl (Option.some.inj h)
    cases h
    refine .goes rfl (.inl rfl) (fun r' heq => ?_) (.inl rfl) (fun h => nomatch h)
      (fun _ h => nomatch h)
    exact ⟨record,rfl,by cases heq; exact ⟨rfl,rfl⟩⟩
  | bootstrapInserting record =>
    simp only [advanceBootstrapKey] at h
    split at h <;> cases h
    · exact hrollback _
    refine .goes rfl (.inl rfl) (fun r' heq => ?_) (.inl rfl) (fun h => nomatch h)
      (fun _ h => nomatch h)
    exact ⟨record,rfl,by cases heq; exact ⟨rfl,rfl⟩⟩
  | bootstrapReading record =>
    simp only [advanceBootstrapKey] at h
    split at h <;> cases h
    · exact hrollback _
    refine .goes rfl (.inl rfl) (fun r' heq => ?_) (.inl rfl) (fun h => nomatch h)
      (fun _ h => nomatch h)
    exact ⟨record,rfl,by cases heq; exact ⟨rfl,rfl⟩⟩
  | committing record =>
    simp only [advanceBootstrapKey] at h
    split at h
    · cases h
      exact hrollback _
    cases hinsert : store.table.insertApiKey record with
    | none =>
      simp only [hinsert] at h
      cases h
      exact hrollback _
    | some table =>
      simp only [hinsert,Option.some.injEq] at h
      have hrows := ApiKeyTable.rows_insertApiKey hinsert
      unfold ended at h
      split at h <;> cases h
      · exact .inserted record record rfl rfl rfl hrows rfl rfl (.inl rfl) rfl
      · exact .inserted record record rfl rfl rfl hrows rfl rfl (.inl rfl) rfl
  | rollingBack error =>
    have hended := Option.some.inj h
    exact @stepped_ended _ _ driver _ _ _ _ _ _ _ { store with pending := none } rfl hended
  | releasing result =>
    cases h
    exact .ends rfl (.inl rfl)
  | _ => cases h

section Changes
variable {key : AuthenticatedApiKey} {progress q : Progress}

@[simp] theorem afterChange_copy : (afterChange key q).copy = q.copy := by
  cases q with
  | finished result => cases result <;> rfl
  | _ => rfl

@[simp] theorem afterChange_entity : (afterChange key q).entity = none := by
  cases q with
  | finished result => cases result <;> rfl
  | _ => rfl

@[simp] theorem afterChange_key : (afterChange key q).key = some key := by
  cases q with
  | finished result => cases result <;> rfl
  | _ => rfl

theorem stepped_afterChange (hcopy : q.copy = none ∨ q.copy = progress.copy) :
    Stepped hashApiSecretLookupKey calls i (.changing key progress) store (afterChange key q)
      store := by
  refine .goes rfl ?_ (fun _ h => ?_) (.inr ?_) (fun h => nomatch h) (fun _ h => ?_)
  · rw [afterChange_copy]
    exact hcopy
  · rw [afterChange_entity] at h
    cases h
  · exact afterChange_key
  · have hkey := @afterChange_key key q
    rw [h] at hkey
    cases hkey

theorem stepped_updateKey {id : String} {input : ApiKeyInput} {table : ApiKeyTable}
    (hop : (calls i).operation = .updateKey id input)
    (h : advanceUpdateKey id input ⟨given.now,given.answered⟩ progress store.table =
      some (q,table)) :
    Stepped hashApiSecretLookupKey calls i (.changing key progress) store (afterChange key q)
      { store with table := table } := by
  have hcheck {current updated : ApiKeyRecord} (n : Option Nat)
      (hcopy : progress.copy = some updated) : Stepped hashApiSecretLookupKey calls i
        (.changing key progress) store (afterChange key (afterUpdateCheck input current updated n))
        store := by
    refine stepped_afterChange ?_
    unfold afterUpdateCheck
    split
    · exact .inr hcopy.symm
    · exact .inl rfl
  cases progress with
  | waiting =>
    simp only [advanceUpdateKey] at h
    cases hget : store.table.getApiKeyById id with
    | none =>
      simp only [hget] at h
      cases h
      exact stepped_afterChange (.inl rfl)
    | some current =>
      obtain ⟨hrow,rfl⟩ := ApiKeyTable.getApiKeyById_eq_some hget
      simp only [hget] at h
      split at h <;> cases h
      · exact .copied key current input given.now rfl hop hrow rfl rfl rfl
      unfold afterUpdateCheck
      split
      · exact .copied key current input given.now rfl hop hrow rfl rfl rfl
      · exact stepped_afterChange (.inl rfl)
  | counting current updated =>
    simp only [advanceUpdateKey] at h
    split at h <;> cases h
    · exact hcheck _ rfl
    · exact stepped_afterChange (.inl rfl)
  | writing current updated n =>
    cases h
    exact .wrote key current updated n rfl rfl
  | reading | deleteCounting | deleting | finished => cases h

theorem readPending_copy {pending : List String} {records : List KeyRead} {table : ApiKeyTable}
    {now : Given} (h : readPending now pending records table = some q) : q.copy = none := by
  unfold readPending at h
  split at h
  · cases h
  dsimp only at h
  split at h
  · split at h <;> cases h <;> rfl
  · cases h
    rfl

theorem afterDeleteCount_copy {records : List KeyRead} {n : Nat} :
    (afterDeleteCount records n).copy = none := by
  unfold afterDeleteCount
  split <;> rfl

theorem stepped_deleteKeys {ids : List String} {table : ApiKeyTable}
    (h : advanceDeleteKeys ids ⟨given.now,given.answered⟩ progress store.table = some (q,table)) :
    Stepped hashApiSecretLookupKey calls i (.changing key progress) store (afterChange key q)
      { store with table := table } := by
  have hread {pending : List String} {records : List KeyRead}
      (h : (readPending ⟨given.now,given.answered⟩ pending records store.table).map
        (·,store.table) = some (q,table)) :
      Stepped hashApiSecretLookupKey calls i (.changing key progress) store (afterChange key q)
        { store with table := table } := by
    obtain ⟨found,hfound,heq⟩ := Option.map_eq_some_iff.mp h
    cases heq
    exact stepped_afterChange (.inl (readPending_copy hfound))
  cases progress with
  | waiting =>
    simp only [advanceDeleteKeys] at h
    split at h
    · cases h
      exact stepped_afterChange (.inl afterDeleteCount_copy)
    · exact hread h
  | reading pending records => exact hread h
  | deleteCounting records =>
    cases h
    exact stepped_afterChange (.inl afterDeleteCount_copy)
  | deleting records n =>
    cases h
    exact .deleted key records n ids rfl rfl
  | counting | writing | finished => cases h

theorem stepped_change
    (h : advanceChange driver key (calls i).operation given progress store = some (p',st)) :
    Stepped hashApiSecretLookupKey calls i (.changing key progress) store p' st := by
  have hrefuse {found : Progress × ApiKeyTable}
      (h : refuse progress store.table = some found) :
      Stepped hashApiSecretLookupKey calls i (.changing key progress) store
        (afterChange key found.1) { store with table := found.2 } := by
    unfold refuse at h
    split at h <;> cases h
    exact stepped_afterChange (.inl rfl)
  cases hop : (calls i).operation with
  | createKey input drawn =>
    rw [hop] at h
    cases h
  | otherRoute =>
    rw [hop] at h
    cases h
  | updateKey id input =>
    simp only [advanceChange,changeRequest,hop] at h
    split at h
    · cases h
    split at h
    · cases h
      exact .ends rfl (.inr rfl)
    obtain ⟨⟨q,table⟩,hq,heq⟩ := Option.map_eq_some_iff.mp h
    cases heq
    simp only [advance] at hq
    split at hq
    · exact stepped_updateKey hop hq
    · exact hrefuse hq
  | deleteKeys ids =>
    simp only [advanceChange,changeRequest,hop] at h
    split at h
    · cases h
    split at h
    · cases h
      exact .ends rfl (.inr rfl)
    obtain ⟨⟨q,table⟩,hq,heq⟩ := Option.map_eq_some_iff.mp h
    cases heq
    simp only [advance] at hq
    split at hq
    · exact stepped_deleteKeys hq
    · exact hrefuse hq

end Changes

theorem stepped_of_advance
    (h : advanceCall hashApiSecretLookupKey driver calls i given p store = some (p',st)) :
    Stepped hashApiSecretLookupKey calls i p store p' st := by
  unfold advanceCall at h
  split at h
  · exact stepped_authentication h
  · exact stepped_authentication h
  · exact stepped_authentication h
  · exact stepped_change h
  all_goals
    split at h
    · rename_i hop
      first
        | exact stepped_createKey hop h
        | exact stepped_bootstrapKey hop h
    · cases h

theorem Stepped.atEnd (h : Stepped hashApiSecretLookupKey calls i p store p' st)
    (hp : p.atEnd = true) : p'.atEnd = true := by
  cases h with
  | goes _ _ _ _ hend => exact hend hp
  | found secretKeyHash record heq =>
    rw [heq] at hp
    cases hp
  | copied key row input now heq =>
    rw [heq] at hp
    cases hp
  | drew r hnot =>
    rw [hp] at hnot
    cases hnot
  | wrote | deleted => rfl
  | inserted _ _ _ _ _ _ _ _ _ hend => exact hend

theorem beginOperation_carries {key : AuthenticatedApiKey} {operation : KeyOperation} :
    (beginOperation key operation).copy = none ∧ (beginOperation key operation).entity = none ∧
      (beginOperation key operation).key = some key ∧
      ∀ secretKeyHash, beginOperation key operation ≠ .lookingUp secretKeyHash := by
  cases operation <;> exact ⟨rfl,rfl,rfl,fun _ h => nomatch h⟩

/-- The new row that is carried after a step was carried before, or is the request's own. -/
theorem Stepped.entity {r' : ApiKeyRecord}
    (h : Stepped hashApiSecretLookupKey calls i p store p' st) (hentity : p'.entity = some r') :
    (∃ r, p.entity = some r ∧ r'.id = r.id ∧ r'.secretKeyHash = r.secretKeyHash) ∨
      p.atEnd = false ∧ (calls i).Draws hashApiSecretLookupKey r'.id r'.secretKeyHash := by
  cases h with
  | goes _ _ hcarried => exact .inl (hcarried r' hentity)
  | found =>
    rw [beginOperation_carries.2.1] at hentity
    cases hentity
  | copied _ _ _ _ _ _ _ _ hnone =>
    rw [hnone] at hentity
    cases hentity
  | drew r hnot hdraws hsome =>
    rw [hsome] at hentity
    cases hentity
    exact .inr ⟨hnot,hdraws⟩
  | wrote | deleted => cases hentity
  | inserted _ _ _ _ _ _ _ hnone =>
    rw [hnone] at hentity
    cases hentity

/-- The copy that is carried after a step was carried before, or is of a row of the table. -/
theorem Stepped.copy {r' : ApiKeyRecord}
    (h : Stepped hashApiSecretLookupKey calls i p store p' st) (hcopy : p'.copy = some r') :
    p.copy = some r' ∨ ∃ key row input now, p = .changing key .waiting ∧
      (calls i).operation = .updateKey row.id input ∧ row ∈ store.table.rows ∧
      r' = applyApiKeyUpdate row input now := by
  cases h with
  | goes _ hcarried =>
    rcases hcarried with hnone | hsame
    · rw [hnone] at hcopy
      cases hcopy
    · exact .inl (hsame ▸ hcopy)
  | found =>
    rw [beginOperation_carries.1] at hcopy
    cases hcopy
  | copied key row input now hp hop hrow hsome =>
    rw [hsome] at hcopy
    cases hcopy
    exact .inr ⟨key,row,input,now,hp,hop,hrow,rfl⟩
  | drew _ _ _ _ hnone =>
    rw [hnone] at hcopy
    cases hcopy
  | wrote | deleted => cases hcopy
  | inserted _ _ _ _ _ _ hnone =>
    rw [hnone] at hcopy
    cases hcopy

theorem applyApiKeyUpdate_secretKeyHash (current : ApiKeyRecord) (input : ApiKeyInput)
    (now : String) :
    (applyApiKeyUpdate current input now).secretKeyHash = current.secretKeyHash := by
  obtain ⟨isActive,role⟩ := input
  cases isActive <;> cases role <;> rfl

theorem mem_updateApiKey {table : ApiKeyTable} {record row : ApiKeyRecord}
    (h : row ∈ (table.updateApiKey record).rows) :
    row ∈ table.rows ∨ row.id = record.id ∧ row.secretKeyHash = record.secretKeyHash ∧
      row.isActive = record.isActive := by
  obtain ⟨before,hbefore,rfl⟩ := List.mem_map.mp h
  unfold ApiKeyTable.written
  split
  · exact .inr ⟨by assumption,rfl,rfl⟩
  · exact .inl hbefore

theorem Stepped.row {row : ApiKeyRecord} (h : Stepped hashApiSecretLookupKey calls i p store p' st)
    (hrow : row ∈ st.table.rows) :
    row ∈ store.table.rows ∨
    (∃ r, p.copy = some r ∧ row.id = r.id ∧ row.secretKeyHash = r.secretKeyHash ∧
      row.isActive = r.isActive) ∨
    ∃ r, p.entity = some r ∧ row.id = r.id ∧ row.secretKeyHash = r.secretKeyHash ∧
      p'.atEnd = true ∧ st.table.rows = store.table.rows ++ [row] := by
  cases h with
  | goes htable => exact .inl (htable ▸ hrow)
  | found | copied | drew => exact .inl hrow
  | wrote key current updated n hp htable =>
    rw [htable] at hrow
    rcases mem_updateApiKey hrow with hold | hnew
    · exact .inl hold
    · exact .inr (.inl ⟨updated,by rw [hp]; rfl,hnew⟩)
  | deleted key records n ids hp htable =>
    rw [htable] at hrow
    exact .inl (List.mem_filter.mp hrow).1
  | inserted r r' hp hid hhash htable _ _ _ hend =>
    have hmem := hrow
    rw [htable,List.mem_append,List.mem_singleton] at hmem
    rcases hmem with hold | rfl
    · exact .inl hold
    · exact .inr (.inr ⟨r,hp,hid,hhash,hend,htable⟩)

theorem Stepped.key {key : AuthenticatedApiKey}
    (h : Stepped hashApiSecretLookupKey calls i p store p' st) (hkey : p'.key = some key) :
    p.key = some key ∨ ∃ secretKeyHash record, p = .lookingUp secretKeyHash ∧
      record ∈ store.table.rows ∧ record.secretKeyHash = secretKeyHash ∧
      record.isActive = true ∧ key.id = record.id := by
  have hcarried (h : p'.key = none ∨ p'.key = p.key) : p.key = some key := by
    rcases h with hnone | hsame
    · rw [hnone] at hkey
      cases hkey
    · rw [← hsame,hkey]
  cases h with
  | goes _ _ _ hgoes => exact .inl (hcarried hgoes)
  | found secretKeyHash record hp hrow hactive =>
    rw [beginOperation_carries.2.2.1] at hkey
    cases hkey
    have hhash := List.find?_some hrow
    exact .inr ⟨secretKeyHash,record,hp,List.mem_of_find?_eq_some hrow,of_decide_eq_true hhash,
      hactive,rfl⟩
  | copied key' row input now hp _ _ _ _ hsome =>
    rw [hsome] at hkey
    cases hkey
    rw [hp]
    exact .inl rfl
  | drew _ _ _ _ _ hsame => exact .inl (hcarried (.inr hsame))
  | wrote key' current updated n hp =>
    cases hkey
    rw [hp]
    exact .inl rfl
  | deleted key' records n ids hp =>
    cases hkey
    rw [hp]
    exact .inl rfl
  | inserted _ _ _ _ _ _ _ _ hinserted => exact .inl (hcarried hinserted)

theorem Stepped.looking {secretKeyHash : String}
    (h : Stepped hashApiSecretLookupKey calls i p store p' st)
    (hlook : p' = .lookingUp secretKeyHash) :
    tokenHash hashApiSecretLookupKey (calls i).apiToken = some secretKeyHash := by
  cases h with
  | goes _ _ _ _ _ hgoes => exact hgoes secretKeyHash hlook
  | found => exact absurd hlook (beginOperation_carries.2.2.2 secretKeyHash)
  | copied _ _ _ _ _ _ _ _ _ hsome =>
    rw [hlook] at hsome
    cases hsome
  | drew _ _ _ hsome =>
    rw [hlook] at hsome
    cases hsome
  | wrote | deleted => cases hlook
  | inserted _ _ _ _ _ _ _ _ _ hend =>
    rw [hlook] at hend
    cases hend

end Steps

end OnlyDoge.Access
