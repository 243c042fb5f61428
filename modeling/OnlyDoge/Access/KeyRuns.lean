import OnlyDoge.Access.KeySteps
set_option autoImplicit false

/-!
What holds of API keys however their requests overlap: a request acts with a secret that was drawn
for a key of the table, and with none that was taken away for good.
-/

namespace OnlyDoge.Access
open Interleaving HexText
open Mempool (Driver)

section Runs
variable {ι : Type} [DecidableEq ι] {hashApiSecretLookupKey : String → String} {driver : Driver}
  {calls : ι → KeyCall} {s t u : Calls ι} {event : Event ι CallGiven Empty}
  {events more : List (Event ι CallGiven Empty)}

theorem stepped (h : stepCalls hashApiSecretLookupKey driver calls event s = some t) :
    ∃ i given p', event = .call i given ∧
      t.progress = Function.update s.progress i p' ∧
      Stepped hashApiSecretLookupKey calls i (s.progress i) s.store p' t.store := by
  cases event with
  | outside event => exact nomatch event
  | call i given =>
    obtain ⟨p',st,hadvance,rfl⟩ := step_call.mp h
    exact ⟨i,given,p',rfl,rfl,stepped_of_advance hadvance⟩

/-- The step of a request that inserts a row with this id and this hash. -/
def Inserts (j : ι) (id secretKeyHash : String) (event : Event ι CallGiven Empty)
    (s t : Calls ι) : Prop :=
  (∃ given, event = .call j given) ∧ ∃ row, t.store.table.rows = s.store.table.rows ++ [row] ∧
    row.id = id ∧ row.secretKeyHash = secretKeyHash

variable (hashApiSecretLookupKey driver calls) in
/-- In the run a request drew the secret of this hash for a key with this id, and inserted it. -/
def Issued (events : List (Event ι CallGiven Empty)) (id secretKeyHash : String) : Prop :=
  ∃ j, (calls j).Draws hashApiSecretLookupKey id secretKeyHash ∧
    Machine.Occurs (stepCalls hashApiSecretLookupKey driver calls) (Inserts j id secretKeyHash)
      noKeysYet events

theorem Issued.snoc {id secretKeyHash : String}
    (h : Issued hashApiSecretLookupKey driver calls events id secretKeyHash)
    (event : Event ι CallGiven Empty) :
    Issued hashApiSecretLookupKey driver calls (events ++ [event]) id secretKeyHash := by
  obtain ⟨j,hdraws,hoccurs⟩ := h
  exact ⟨j,hdraws,hoccurs.snoc event⟩

variable (hashApiSecretLookupKey driver calls) in
/-- Every row, every copy and every acting request goes back to a key that was issued. -/
structure Accounted (events : List (Event ι CallGiven Empty)) (s : Calls ι) : Prop where
  rows : ∀ row ∈ s.store.table.rows,
    Issued hashApiSecretLookupKey driver calls events row.id row.secretKeyHash
  copies : ∀ j r, (s.progress j).copy = some r →
    Issued hashApiSecretLookupKey driver calls events r.id r.secretKeyHash
  entities : ∀ j r, (s.progress j).entity = some r →
    (calls j).Draws hashApiSecretLookupKey r.id r.secretKeyHash
  looking : ∀ j secretKeyHash, s.progress j = .lookingUp secretKeyHash →
    tokenHash hashApiSecretLookupKey (calls j).apiToken = some secretKeyHash
  keys : ∀ j key, (s.progress j).key = some key → ∃ secretKeyHash,
    tokenHash hashApiSecretLookupKey (calls j).apiToken = some secretKeyHash ∧
      Issued hashApiSecretLookupKey driver calls events key.id secretKeyHash

theorem Accounted.step
    (hrun : Machine.run (stepCalls hashApiSecretLookupKey driver calls) events noKeysYet = some s)
    (h : Accounted hashApiSecretLookupKey driver calls events s)
    (hstep : stepCalls hashApiSecretLookupKey driver calls event s = some t) :
    Accounted hashApiSecretLookupKey driver calls (events ++ [event]) t := by
  obtain ⟨i,given,p',hevent,hprogress,hstepped⟩ := stepped hstep
  have hprogress (j : ι) : t.progress j = if j = i then p' else s.progress j := by
    rw [hprogress,Function.update_apply]
  constructor
  · intro row hrow
    rcases hstepped.row hrow with hold | ⟨r,hr,hid,hhash,-⟩ | ⟨r,hr,hid,hhash,-,htable⟩
    · exact (h.rows row hold).snoc event
    · rw [hid,hhash]
      exact (h.copies i r hr).snoc event
    · have hdraws := h.entities i r hr
      rw [← hid,← hhash] at hdraws
      exact ⟨i,hdraws,.last hrun hstep ⟨⟨given,hevent⟩,row,htable,rfl,rfl⟩⟩
  · intro j r hr
    rw [hprogress] at hr
    split at hr
    · rcases hstepped.copy hr with hold | ⟨key,row,input,now,-,-,hrow,rfl⟩
      · exact (h.copies i r hold).snoc event
      · have hissued := (h.rows row hrow).snoc event
        rw [applyApiKeyUpdate_id,applyApiKeyUpdate_secretKeyHash]
        exact hissued
    · exact (h.copies j r hr).snoc event
  · intro j r hr
    rw [hprogress] at hr
    split at hr
    · subst j
      rcases hstepped.entity hr with ⟨before,hbefore,hid,hhash⟩ | ⟨-,hdraws⟩
      · rw [hid,hhash]
        exact h.entities i before hbefore
      · exact hdraws
    · exact h.entities j r hr
  · intro j secretKeyHash hlook
    rw [hprogress] at hlook
    split at hlook
    · subst j
      exact hstepped.looking hlook
    · exact h.looking j secretKeyHash hlook
  · intro j key hkey
    rw [hprogress] at hkey
    split at hkey
    · subst j
      rcases hstepped.key hkey with hold | ⟨secretKeyHash,record,hp,hrow,rfl,-,hid⟩
      · obtain ⟨secretKeyHash,htoken,hissued⟩ := h.keys i key hold
        exact ⟨secretKeyHash,htoken,hissued.snoc event⟩
      · rw [hid]
        exact ⟨_,h.looking i _ hp,(h.rows record hrow).snoc event⟩
    · obtain ⟨secretKeyHash,htoken,hissued⟩ := h.keys j key hkey
      exact ⟨secretKeyHash,htoken,hissued.snoc event⟩

theorem accounted_run
    (hrun : Machine.run (stepCalls hashApiSecretLookupKey driver calls) events noKeysYet =
      some s) : Accounted hashApiSecretLookupKey driver calls events s := by
  refine Machine.run_history ?_ (fun passed event t u ht h hstep => h.step ht hstep) hrun
  constructor <;> simp [noKeysYet,CallProgress.copy,CallProgress.entity,CallProgress.key]

/-- However requests overlap, one that acts for a key came with the token of a secret that a
request drew for a key of that id, and inserted before. -/
theorem acts_with_issued_secret {i : ι} {key : AuthenticatedApiKey}
    (hrun : Machine.run (stepCalls hashApiSecretLookupKey driver calls) events noKeysYet = some s)
    (hkey : (s.progress i).key = some key) :
    ∃ secretKeyHash, tokenHash hashApiSecretLookupKey (calls i).apiToken = some secretKeyHash ∧
      Issued hashApiSecretLookupKey driver calls events key.id secretKeyHash :=
  (accounted_run hrun).keys i key hkey

variable (hashApiSecretLookupKey calls) in
/-- No two keys are given one secret. -/
def DistinctSecrets : Prop :=
  ∀ i j secretKeyHash, (calls i).secretHash hashApiSecretLookupKey = some secretKeyHash →
    (calls j).secretHash hashApiSecretLookupKey = some secretKeyHash → i = j

variable (hashApiSecretLookupKey calls) in
/-- Whoever drew this secret inserts nothing any more. -/
def Spent (s : Calls ι) (secretKeyHash : String) : Prop :=
  ∀ j, (calls j).secretHash hashApiSecretLookupKey = some secretKeyHash →
    (s.progress j).atEnd = true

theorem atEnd_step {j : ι} (hstep : stepCalls hashApiSecretLookupKey driver calls event s = some t)
    (h : (s.progress j).atEnd = true) : (t.progress j).atEnd = true := by
  obtain ⟨i,given,p',hevent,hprogress,hstepped⟩ := stepped hstep
  rw [hprogress,Function.update_apply]
  split
  · subst j
    exact hstepped.atEnd h
  · exact h

theorem Spent.step {secretKeyHash : String} (h : Spent hashApiSecretLookupKey calls s secretKeyHash)
    (hstep : stepCalls hashApiSecretLookupKey driver calls event s = some t) :
    Spent hashApiSecretLookupKey calls t secretKeyHash :=
  fun j hj => atEnd_step hstep (h j hj)

variable (hashApiSecretLookupKey calls) in
/-- The secrets of the table, and of the copies of its rows, are spent. -/
structure AllSpent (s : Calls ι) : Prop where
  rows : ∀ row ∈ s.store.table.rows, Spent hashApiSecretLookupKey calls s row.secretKeyHash
  copies : ∀ j r, (s.progress j).copy = some r →
    Spent hashApiSecretLookupKey calls s r.secretKeyHash

theorem AllSpent.step (hsecrets : DistinctSecrets hashApiSecretLookupKey calls)
    (hs : Accounted hashApiSecretLookupKey driver calls events s)
    (h : AllSpent hashApiSecretLookupKey calls s)
    (hstep : stepCalls hashApiSecretLookupKey driver calls event s = some t) :
    AllSpent hashApiSecretLookupKey calls t := by
  obtain ⟨i,given,p',hevent,hprogress,hstepped⟩ := stepped hstep
  constructor
  · intro row hrow
    rcases hstepped.row hrow with hold | ⟨r,hr,-,hhash,-⟩ | ⟨r,hr,-,hhash,hend,-⟩
    · exact (h.rows row hold).step hstep
    · rw [hhash]
      exact (h.copies i r hr).step hstep
    · -- the request that inserted the row is the only one that drew its secret
      intro j hj
      have hdraws := (hs.entities i r hr).secretHash
      rw [← hhash] at hdraws
      obtain rfl := hsecrets i j _ hdraws hj
      rw [hprogress,Function.update_self]
      exact hend
  · intro j r hr
    rw [hprogress,Function.update_apply] at hr
    split at hr
    · subst j
      rcases hstepped.copy hr with hold | ⟨key,row,input,now,-,-,hrow,rfl⟩
      · exact (h.copies i r hold).step hstep
      · rw [applyApiKeyUpdate_secretKeyHash]
        exact (h.rows row hrow).step hstep
    · exact (h.copies j r hr).step hstep

theorem allSpent_run (hsecrets : DistinctSecrets hashApiSecretLookupKey calls)
    (hrun : Machine.run (stepCalls hashApiSecretLookupKey driver calls) events noKeysYet =
      some s) : AllSpent hashApiSecretLookupKey calls s := by
  refine @Machine.run_history _ _ _ _ _ _ (fun _ s => AllSpent hashApiSecretLookupKey calls s) ?_
    (fun passed event t u ht h hstep => ?_) hrun
  · constructor <;> simp [noKeysYet,CallProgress.copy]
  · exact AllSpent.step hsecrets (accounted_run ht) h hstep

theorem id_eq_of_issued (hsecrets : DistinctSecrets hashApiSecretLookupKey calls)
    {id id' secretKeyHash : String}
    (h : Issued hashApiSecretLookupKey driver calls events id secretKeyHash)
    (h' : Issued hashApiSecretLookupKey driver calls events id' secretKeyHash) : id = id' := by
  obtain ⟨j,hdraws,-⟩ := h
  obtain ⟨j',hdraws',-⟩ := h'
  obtain rfl := hsecrets j j' secretKeyHash hdraws.secretHash hdraws'.secretHash
  obtain ⟨input,drawn,hop,hid,-⟩ := hdraws
  obtain ⟨input',drawn',hop',hid',-⟩ := hdraws'
  rw [hop] at hop'
  cases hop'
  exact Except.ok.inj (hid.symm.trans hid')

variable (hashApiSecretLookupKey calls) in
/-- What stays true of a secret from the state `from_` on: its rows and their copies satisfy `Q`,
nobody inserts it, and no request of its token has begun to act since. -/
structure Quiet (from_ : Calls ι) (secretKeyHash : String) (Q : String → Bool → Prop)
    (s : Calls ι) : Prop where
  rows : ∀ row ∈ s.store.table.rows, row.secretKeyHash = secretKeyHash → Q row.id row.isActive
  copies : ∀ j r, (s.progress j).copy = some r → r.secretKeyHash = secretKeyHash → Q r.id r.isActive
  entities : ∀ j r, (s.progress j).entity = some r → r.secretKeyHash ≠ secretKeyHash
  spent : Spent hashApiSecretLookupKey calls s secretKeyHash
  ended : ∀ j, (from_.progress j).atEnd = true → (s.progress j).atEnd = true
  looking : ∀ j found, s.progress j = .lookingUp found →
    tokenHash hashApiSecretLookupKey (calls j).apiToken = some found
  out : ∀ j, tokenHash hashApiSecretLookupKey (calls j).apiToken = some secretKeyHash →
    (from_.progress j).key = none → (s.progress j).key = none

theorem Quiet.step {secretKeyHash : String} {Q : String → Bool → Prop} {from_ : Calls ι}
    (hinactive : ∀ id, ¬Q id true)
    (hupdates : ∀ j id input, (calls j).operation = .updateKey id input →
      (from_.progress j).atEnd = false → ∀ isActive, Q id isActive →
        Q id (input.isActive.getD isActive))
    (h : Quiet hashApiSecretLookupKey calls from_ secretKeyHash Q s)
    (hstep : stepCalls hashApiSecretLookupKey driver calls event s = some t) :
    Quiet hashApiSecretLookupKey calls from_ secretKeyHash Q t := by
  obtain ⟨i,given,p',hevent,hprogress,hstepped⟩ := stepped hstep
  constructor
  · intro row hrow heq
    rcases hstepped.row hrow with hold | ⟨r,hr,hid,hhash,hactive⟩ | ⟨r,hr,-,hhash,-⟩
    · exact h.rows row hold heq
    · rw [hid,hactive]
      exact h.copies i r hr (hhash ▸ heq)
    · exact absurd (hhash ▸ heq) (h.entities i r hr)
  · intro j r hr heq
    rw [hprogress,Function.update_apply] at hr
    split at hr
    · subst j
      rcases hstepped.copy hr with hold | ⟨key,row,input,now,hp,hop,hrow,rfl⟩
      · exact h.copies i r hold heq
      · -- an update that reads the row now had not ended in `from_`
        have hopen : (from_.progress i).atEnd = false := by
          cases hend : (from_.progress i).atEnd with
          | false => rfl
          | true =>
            have hnow := h.ended i hend
            rw [hp] at hnow
            cases hnow
        rw [applyApiKeyUpdate_secretKeyHash] at heq
        rw [applyApiKeyUpdate_id,applyApiKeyUpdate_isActive]
        exact hupdates i row.id input hop hopen _ (h.rows row hrow heq)
    · exact h.copies j r hr heq
  · intro j r hr
    rw [hprogress,Function.update_apply] at hr
    split at hr
    · subst j
      rcases hstepped.entity hr with ⟨before,hbefore,-,hhash⟩ | ⟨hopen,hdraws⟩
      · rw [hhash]
        exact h.entities i before hbefore
      · rintro rfl
        have hend := h.spent i hdraws.secretHash
        rw [hopen] at hend
        cases hend
    · exact h.entities j r hr
  · exact h.spent.step hstep
  · exact fun j hj => atEnd_step hstep (h.ended j hj)
  · intro j found hlook
    rw [hprogress,Function.update_apply] at hlook
    split at hlook
    · subst j
      exact hstepped.looking hlook
    · exact h.looking j found hlook
  · intro j htoken hbefore
    rw [hprogress,Function.update_apply]
    split
    · subst j
      cases hkey : p'.key with
      | none => rfl
      | some key =>
        rcases hstepped.key hkey with hold | ⟨found,record,hp,hrow,rfl,hactive,-⟩
        · rw [h.out i htoken hbefore] at hold
          cases hold
        · -- the row of its token would have to be an active one
          have hsame := h.looking i _ hp
          rw [htoken] at hsame
          have hQ := h.rows record hrow (Option.some.inj hsame).symm
          rw [hactive] at hQ
          exact absurd hQ (hinactive _)
    · exact h.out j htoken hbefore

theorem quiet_of_run
    (hrun : Machine.run (stepCalls hashApiSecretLookupKey driver calls) events noKeysYet = some t)
    {secretKeyHash : String} {Q : String → Bool → Prop}
    (hspent : Spent hashApiSecretLookupKey calls t secretKeyHash)
    (hrows : ∀ row ∈ t.store.table.rows, row.secretKeyHash = secretKeyHash → Q row.id row.isActive)
    (hcopies : ∀ j r, (t.progress j).copy = some r → r.secretKeyHash = secretKeyHash →
      Q r.id r.isActive) : Quiet hashApiSecretLookupKey calls t secretKeyHash Q t where
  rows := hrows
  copies := hcopies
  entities := by
    rintro j r hr rfl
    have hend := hspent j ((accounted_run hrun).entities j r hr).secretHash
    rw [CallProgress.entity_of_atEnd hend] at hr
    cases hr
  spent := hspent
  ended := fun _ h => h
  looking := (accounted_run hrun).looking
  out := fun _ _ h => h

/-- A key that is deleted while no update of it is under way stays out: no request that comes with
its token acts from then on, whatever is created, updated and deleted meanwhile. -/
theorem deleted_key_stays_out (hsecrets : DistinctSecrets hashApiSecretLookupKey calls)
    {row : ApiKeyRecord} {i : ι}
    (hrun : Machine.run (stepCalls hashApiSecretLookupKey driver calls) events noKeysYet = some s)
    (hrow : row ∈ s.store.table.rows)
    (hstep : stepCalls hashApiSecretLookupKey driver calls event s = some t)
    (hgone : ∀ r ∈ t.store.table.rows, r.id ≠ row.id)
    (hcopies : ∀ j r, (t.progress j).copy = some r → r.id ≠ row.id)
    (hmore : Machine.run (stepCalls hashApiSecretLookupKey driver calls) more t = some u)
    (htoken : tokenHash hashApiSecretLookupKey (calls i).apiToken = some row.secretKeyHash)
    (hbefore : (t.progress i).key = none) : (u.progress i).key = none := by
  have hrun' : Machine.run (stepCalls hashApiSecretLookupKey driver calls) (events ++ [event])
      noKeysYet = some t := by
    rw [Machine.run_snoc,hrun]
    exact hstep
  have hs := accounted_run hrun
  have ht := accounted_run hrun'
  have hissued := (hs.rows row hrow).snoc event
  have hquiet : Quiet hashApiSecretLookupKey calls t row.secretKeyHash (fun _ _ => False) t := by
    refine quiet_of_run hrun' (((allSpent_run hsecrets hrun).rows row hrow).step hstep)
      (fun r hr heq => ?_) (fun j r hr heq => ?_)
    · have hother := ht.rows r hr
      rw [heq] at hother
      exact hgone r hr (id_eq_of_issued hsecrets hother hissued)
    · have hother := ht.copies j r hr
      rw [heq] at hother
      exact hcopies j r hr (id_eq_of_issued hsecrets hother hissued)
  have hafter := Machine.run_invariant (fun event v w hv hstep =>
    Quiet.step (fun _ h => h) (fun _ _ _ _ _ _ h => h) hv hstep) hquiet hmore
  exact hafter.out i htoken hbefore

/-- A key that is inactive, with no active copy of it under way and no open request that activates
it, stays out in the same way. -/
theorem deactivated_key_stays_out (hsecrets : DistinctSecrets hashApiSecretLookupKey calls)
    {row : ApiKeyRecord} {i : ι}
    (hrun : Machine.run (stepCalls hashApiSecretLookupKey driver calls) events noKeysYet = some t)
    (hrow : row ∈ t.store.table.rows) (hinactive : row.isActive = false)
    (hcopies : ∀ j r, (t.progress j).copy = some r → r.id = row.id → r.isActive = false)
    (hupdates : ∀ j input, (calls j).operation = .updateKey row.id input →
      (t.progress j).atEnd = false → input.isActive ≠ some true)
    (hmore : Machine.run (stepCalls hashApiSecretLookupKey driver calls) more t = some u)
    (htoken : tokenHash hashApiSecretLookupKey (calls i).apiToken = some row.secretKeyHash)
    (hbefore : (t.progress i).key = none) : (u.progress i).key = none := by
  have ht := accounted_run hrun
  have hissued := ht.rows row hrow
  have hquiet : Quiet hashApiSecretLookupKey calls t row.secretKeyHash
      (fun id isActive => id = row.id ∧ isActive = false) t := by
    refine quiet_of_run hrun ((allSpent_run hsecrets hrun).rows row hrow)
      (fun r hr heq => ?_) (fun j r hr heq => ?_)
    · have hother := ht.rows r hr
      rw [heq] at hother
      have hid := id_eq_of_issued hsecrets hother hissued
      obtain rfl := ApiKeyTable.row_unique hr hrow hid
      exact ⟨rfl,hinactive⟩
    · have hother := ht.copies j r hr
      rw [heq] at hother
      have hid := id_eq_of_issued hsecrets hother hissued
      exact ⟨hid,hcopies j r hr hid⟩
  have hafter := Machine.run_invariant (fun event v w hv hstep =>
    Quiet.step (fun _ h => nomatch h.2) (fun j id input hop hopen isActive hQ => ?_) hv hstep)
      hquiet hmore
  · exact hafter.out i htoken hbefore
  · obtain ⟨rfl,rfl⟩ := hQ
    have hnot := hupdates j input hop hopen
    refine ⟨rfl,?_⟩
    cases hgiven : input.isActive with
    | none => rfl
    | some given =>
      cases given with
      | false => rfl
      | true => exact absurd hgiven hnot

end Runs

/-- Key `a` bootstraps and creates key `b`, which is used, changed, deleted and created again. -/
def keyLife : Fin 7 → KeyCall
  | 0 => ⟨none,.createKey ⟨some "key_a",none⟩ ⟨[1],nilUuid⟩⟩
  | 1 => ⟨some "sk_01",.createKey ⟨some "key_b",none⟩ ⟨[2],nilUuid⟩⟩
  | 2 => ⟨some "sk_01",.deleteKeys ["key_b"]⟩
  | 3 => ⟨some "sk_02",.otherRoute⟩
  | 4 => ⟨some "sk_01",.updateKey "key_b" ⟨none,some .admin⟩⟩
  | 5 => ⟨some "sk_01",.createKey ⟨some "key_b",none⟩ ⟨[3],nilUuid⟩⟩
  | 6 => ⟨some "sk_01",.updateKey "key_b" ⟨some false,none⟩⟩

def lifeSteps (i : Fin 7) (n : Nat) : List (Event (Fin 7) CallGiven Empty) :=
  List.replicate n (.call i ⟨"t1",0,false⟩)

theorem keyLife_distinct : DistinctSecrets id keyLife := by
  have hall : ∀ i j : Fin 7, (keyLife i).secretHash id = (keyLife j).secretHash id →
      (keyLife i).secretHash id = none ∨ i = j := by decide +kernel
  intro i j secretKeyHash hi hj
  rcases hall i j (hi.trans hj.symm) with hnone | heq
  · rw [hnone] at hi
    cases hi
  · exact heq

/-- Key `b` exists. -/
def created : List (Event (Fin 7) CallGiven Empty) := lifeSteps 0 7 ++ lifeSteps 1 7

theorem keyLife_acts : ∃ s, Machine.run (stepCalls id .postgres keyLife) (created ++ lifeSteps 3 3)
    noKeysYet = some s ∧ (s.progress 3).key = some ⟨2,"key_b",.member⟩ := by
  have h : (Machine.run (stepCalls id .postgres keyLife) (created ++ lifeSteps 3 3) noKeysYet).map
      (fun s => (s.progress 3).key) = some (some ⟨2,"key_b",.member⟩) := by decide +kernel
  obtain ⟨s,hrun,hkey⟩ := Option.map_eq_some_iff.mp h
  exact ⟨s,hrun,hkey⟩

theorem acts_with_issued_secret_of_life : ∃ secretKeyHash,
    tokenHash id (keyLife 3).apiToken = some secretKeyHash ∧
      Issued id .postgres keyLife (created ++ lifeSteps 3 3) "key_b" secretKeyHash := by
  obtain ⟨s,hrun,hkey⟩ := keyLife_acts
  exact acts_with_issued_secret hrun hkey

def deleting : Event (Fin 7) CallGiven Empty := .call 2 ⟨"t1",0,false⟩

theorem keyLife_deletes : ∃ s t u row, Machine.run (stepCalls id .postgres keyLife)
    (created ++ lifeSteps 2 5) noKeysYet = some s ∧
      stepCalls id .postgres keyLife deleting s = some t ∧
      Machine.run (stepCalls id .postgres keyLife) (lifeSteps 3 3) t = some u ∧
      row ∈ s.store.table.rows ∧ row.id = "key_b" ∧ row.secretKeyHash = "02" ∧
      (∀ r ∈ t.store.table.rows, r.id ≠ "key_b") ∧ (∀ j, (t.progress j).copy = none) ∧
      (t.progress 3).key = none := by
  have hs : (Machine.run (stepCalls id .postgres keyLife) (created ++ lifeSteps 2 5)
      noKeysYet).map (fun s => s.store.table.rows[1]?) =
        some (some ⟨2,"key_b",.member,"02",true,none,"t1"⟩) := by decide +kernel
  have ht : (Machine.run (stepCalls id .postgres keyLife) ((created ++ lifeSteps 2 5) ++ [deleting])
      noKeysYet).map (fun t => decide ((∀ r ∈ t.store.table.rows, r.id ≠ "key_b") ∧
        (∀ j, (t.progress j).copy = none) ∧ (t.progress 3).key = none)) = some true := by
    decide +kernel
  have hu : (Machine.run (stepCalls id .postgres keyLife)
      (((created ++ lifeSteps 2 5) ++ [deleting]) ++ lifeSteps 3 3) noKeysYet).isSome = true := by
    decide +kernel
  obtain ⟨s,hrun,hrow⟩ := Option.map_eq_some_iff.mp hs
  obtain ⟨t,hrun',hgone⟩ := Option.map_eq_some_iff.mp ht
  obtain ⟨u,hmore⟩ := Option.isSome_iff_exists.mp hu
  rw [Machine.run_append,hrun'] at hmore
  rw [Machine.run_snoc,hrun] at hrun'
  obtain ⟨hrows,hcopies,hkey⟩ := of_decide_eq_true hgone
  exact ⟨s,t,u,_,hrun,hrun',hmore,List.mem_of_getElem? hrow,rfl,rfl,hrows,hcopies,hkey⟩

theorem deleted_key_stays_out_of_life : ∃ t u : Calls (Fin 7),
    Machine.run (stepCalls id .postgres keyLife) (lifeSteps 3 3) t = some u ∧
      (u.progress 3).key = none := by
  obtain ⟨s,t,u,row,hrun,hstep,hmore,hrow,hid,hhash,hgone,hcopies,hkey⟩ := keyLife_deletes
  refine ⟨t,u,hmore,deleted_key_stays_out keyLife_distinct hrun hrow hstep
    (by rw [hid]; exact hgone)
    (fun j r hr => ?_) hmore ?_ hkey⟩
  · rw [hcopies j] at hr
    cases hr
  · rw [hhash]
    decide +kernel

theorem keyLife_deactivates : ∃ t u row, Machine.run (stepCalls id .postgres keyLife)
    (created ++ lifeSteps 6 5) noKeysYet = some t ∧
      Machine.run (stepCalls id .postgres keyLife) (lifeSteps 3 3) t = some u ∧
      row ∈ t.store.table.rows ∧ row.isActive = false ∧ row.secretKeyHash = "02" ∧
      (∀ j, (t.progress j).copy = none) ∧ (t.progress 3).key = none := by
  have ht : (Machine.run (stepCalls id .postgres keyLife) (created ++ lifeSteps 6 5)
      noKeysYet).map (fun t => (t.store.table.rows[1]?,decide ((∀ j, (t.progress j).copy = none) ∧
        (t.progress 3).key = none))) =
        some (some ⟨2,"key_b",.member,"02",false,some "t1","t1"⟩,true) := by decide +kernel
  have hu : (Machine.run (stepCalls id .postgres keyLife)
      ((created ++ lifeSteps 6 5) ++ lifeSteps 3 3) noKeysYet).isSome = true := by decide +kernel
  obtain ⟨t,hrun,heq⟩ := Option.map_eq_some_iff.mp ht
  obtain ⟨u,hmore⟩ := Option.isSome_iff_exists.mp hu
  rw [Machine.run_append,hrun] at hmore
  obtain ⟨hcopies,hkey⟩ := of_decide_eq_true (congrArg Prod.snd heq)
  have hrow := congrArg Prod.fst heq
  exact ⟨t,u,_,hrun,hmore,List.mem_of_getElem? hrow,rfl,rfl,hcopies,hkey⟩

theorem deactivated_key_stays_out_of_life : ∃ t u : Calls (Fin 7),
    Machine.run (stepCalls id .postgres keyLife) (lifeSteps 3 3) t = some u ∧
      (u.progress 3).key = none := by
  obtain ⟨t,u,row,hrun,hmore,hrow,hinactive,hhash,hcopies,hkey⟩ := keyLife_deactivates
  have hactivates (j : Fin 7) (id : String) (input : ApiKeyInput)
      (hop : (keyLife j).operation = .updateKey id input) : input.isActive ≠ some true := by
    have hall : ∀ j, (match (keyLife j).operation with
        | .updateKey _ input => decide (input.isActive ≠ some true)
        | _ => true) = true := by decide
    have hj := hall j
    rw [hop] at hj
    exact of_decide_eq_true hj
  refine ⟨t,u,hmore,deactivated_key_stays_out keyLife_distinct hrun hrow hinactive
    (fun j r hr => ?_) (fun j input hop _ => hactivates j _ input hop) hmore ?_ hkey⟩
  · rw [hcopies j] at hr
    cases hr
  · rw [hhash]
    decide +kernel

/-- Where an update has read the key before, its write brings the secret back: of a key that was
deleted and created anew under its id, and of one that was deactivated. -/
theorem overlapping_updates_revive_keys :
    (Machine.run (stepCalls id .postgres keyLife)
      (created ++ lifeSteps 4 4 ++ lifeSteps 2 6 ++ lifeSteps 5 7 ++ lifeSteps 4 1 ++
        lifeSteps 3 3) noKeysYet).map (fun s => (s.progress 3).key) =
      some (some ⟨3,"key_b",.admin⟩) ∧
    (Machine.run (stepCalls id .postgres keyLife)
      (created ++ lifeSteps 4 4 ++ lifeSteps 6 5 ++ lifeSteps 4 1 ++ lifeSteps 3 3)
        noKeysYet).map (fun s => (s.progress 3).key) = some (some ⟨2,"key_b",.admin⟩) := by
  constructor <;> decide +kernel

end OnlyDoge.Access
