import OnlyDoge.Access.ApiKeys
set_option autoImplicit false

/-! Whether an active admin key is left when requests overlap. -/

namespace OnlyDoge.Access
open Interleaving

namespace ApiKeyTable
variable {table : ApiKeyTable}

theorem row_unique {a b : ApiKeyRecord} (ha : a ∈ table.rows) (hb : b ∈ table.rows)
    (h : a.id = b.id) : a = b :=
  List.inj_on_of_nodup_map table.unique ha hb h

theorem getApiKeyById_eq_some {id : String} {record : ApiKeyRecord}
    (h : table.getApiKeyById id = some record) : record ∈ table.rows ∧ record.id = id := by
  refine ⟨List.mem_of_find?_eq_some h,?_⟩
  simpa using List.find?_some h

theorem isActiveAdminApiKey_written (record row : ApiKeyRecord) :
    isActiveAdminApiKey (written record row) =
      if row.id = record.id then isActiveAdminApiKey record else isActiveAdminApiKey row := by
  unfold written
  split <;> rfl

theorem count_updateApiKey_of_keeps {record : ApiKeyRecord}
    (h : ∀ row ∈ table.rows, row.id = record.id → isActiveAdminApiKey row →
      isActiveAdminApiKey record) :
    table.countActiveAdminApiKeys ≤ (table.updateApiKey record).countActiveAdminApiKeys := by
  unfold countActiveAdminApiKeys updateApiKey
  rw [List.countP_map]
  refine List.countP_mono_left fun row hrow hadmin => ?_
  simp only [Function.comp_apply,isActiveAdminApiKey_written]
  split
  · exact h row hrow (by assumption) hadmin
  · exact hadmin

theorem count_updateApiKey (record : ApiKeyRecord) :
    table.countActiveAdminApiKeys ≤ (table.updateApiKey record).countActiveAdminApiKeys + 1 := by
  obtain ⟨rows,hunique⟩ := table
  unfold countActiveAdminApiKeys updateApiKey
  simp only [List.countP_map]
  induction rows with
  | nil => simp
  | cons row rows ih =>
    rw [List.map_cons,List.nodup_cons] at hunique
    by_cases hid : row.id = record.id
    · -- no other row has the id, so the rest of the rows counts the same
      have hrest : rows.countP (isActiveAdminApiKey ∘ written record) =
          rows.countP isActiveAdminApiKey := by
        refine List.countP_congr fun other hother => ?_
        have hne : other.id ≠ record.id := fun heq =>
          hunique.1 (List.mem_map.mpr ⟨other,hother,heq.trans hid.symm⟩)
        simp [isActiveAdminApiKey_written,hne]
      rw [List.countP_cons,List.countP_cons,hrest]
      split <;> split <;> omega
    · have hsame : isActiveAdminApiKey (written record row) = isActiveAdminApiKey row := by
        rw [isActiveAdminApiKey_written,if_neg hid]
      have := ih hunique.2
      rw [List.countP_cons,List.countP_cons,Function.comp_apply,hsame]
      omega

theorem count_deleteApiKeys {ids : List String} {records : List KeyRead}
    (hread : ∀ id ∈ ids, ∃ read ∈ records, read.id = id)
    (hadmin : ∀ row ∈ table.rows, ∀ read ∈ records, read.id = row.id → isActiveAdminApiKey row →
      read.record.any isActiveAdminApiKey) :
    table.countActiveAdminApiKeys ≤
      (table.deleteApiKeys ids).countActiveAdminApiKeys + countDeleting records := by
  have hsplit : table.countActiveAdminApiKeys = (table.deleteApiKeys ids).countActiveAdminApiKeys +
      table.rows.countP fun row => row.id ∈ ids ∧ isActiveAdminApiKey row := by
    unfold countActiveAdminApiKeys deleteApiKeys
    rw [List.countP_filter]
    induction table.rows with
    | nil => rfl
    | cons row rows ih =>
      simp only [List.countP_cons,ih]
      by_cases hid : row.id ∈ ids <;> by_cases hrow : isActiveAdminApiKey row <;>
        simp [hid,hrow] <;> omega
  have hids : (table.rows.filter fun row => row.id ∈ ids ∧ isActiveAdminApiKey row).map (·.id) ⊆
      (records.filter fun read => read.record.any isActiveAdminApiKey).map (·.id) := by
    intro id hid
    obtain ⟨row,hrow,rfl⟩ := List.mem_map.mp hid
    obtain ⟨hmem,hin⟩ := List.mem_filter.mp hrow
    obtain ⟨hin,hactive⟩ := of_decide_eq_true hin
    obtain ⟨read,hreads,heq⟩ := hread row.id hin
    exact List.mem_map.mpr ⟨read,List.mem_filter.mpr
      ⟨hreads,hadmin row hmem read hreads heq hactive⟩,heq⟩
  have hnodup : ((table.rows.filter fun row => row.id ∈ ids ∧ isActiveAdminApiKey row).map
      (·.id)).Nodup := table.unique.sublist ((List.filter_sublist).map _)
  have hle := (List.subperm_of_subset hnodup hids).length_le
  simp only [List.length_map,← List.countP_eq_length_filter] at hle
  rw [hsplit]
  unfold countDeleting
  omega

end ApiKeyTable

/-- What a request has found out when it has come so far: the checks that it passed. -/
def Checked (request : Request) : Progress → Prop
  | .counting current updated => ∃ actor id input now, request = .updateKey actor id input ∧
      current.id = id ∧ updated = applyApiKeyUpdate current input now
  | .writing current updated activeAdminCount =>
    (∃ actor id input now, request = .updateKey actor id input ∧ current.id = id ∧
      updated = applyApiKeyUpdate current input now) ∧
    (removesActiveAdminApiKey current updated → ∃ n, activeAdminCount = some n ∧ n > 1)
  | .reading pending records => ∃ actor ids, request = .deleteKeys actor ids ∧
      ∀ id ∈ ids, id ∈ pending ∨ ∃ read ∈ records, read.id = id
  | .deleteCounting records => ∃ actor ids, request = .deleteKeys actor ids ∧
      ∀ id ∈ ids, ∃ read ∈ records, read.id = id
  | .deleting records activeAdminCount =>
    (∃ actor ids, request = .deleteKeys actor ids ∧ ∀ id ∈ ids, ∃ read ∈ records, read.id = id) ∧
    ¬removesLastActiveAdminApiKey (countDeleting records) activeAdminCount
  | _ => True

/-- A request that is about to write has not read anything that has become too favourable since:
the fields that it leaves out are as it read them, no key that it took for another has become an
active admin, and there are no fewer active admins than it counted. -/
def ReadsStillHold {ι : Type} (requests : ι → Request) (event : Event ι Given Empty)
    (s : Requests ι) : Prop :=
  ∀ i given, event = .call i given →
    match requests i,s.progress i with
    | .updateKey _ _ input,.writing current _ activeAdminCount =>
      (∀ row ∈ s.store.rows, row.id = current.id →
        (input.isActive = none → row.isActive = current.isActive) ∧
        (input.role = none → row.role = current.role) ∧
        (isActiveAdminApiKey row → isActiveAdminApiKey current)) ∧
      ∀ n, activeAdminCount = some n → n ≤ s.store.countActiveAdminApiKeys
    | .deleteKeys _ _,.deleting records activeAdminCount =>
      (∀ row ∈ s.store.rows, ∀ read ∈ records, read.id = row.id → isActiveAdminApiKey row →
        read.record.any isActiveAdminApiKey) ∧
      activeAdminCount ≤ s.store.countActiveAdminApiKeys
    | _,_ => True

/-- A step changes the active flag or the role of a key only where its request gives it. -/
def ChangesGivenOnly {ι : Type} (requests : ι → Request) (event : Event ι Given Empty)
    (s t : Requests ι) : Prop :=
  ∀ i given, event = .call i given → ∀ row ∈ s.store.rows, ∀ row' ∈ t.store.rows,
    row'.id = row.id →
    (row'.isActive = row.isActive ∨ ∃ actor input, requests i = .updateKey actor row.id input ∧
      input.isActive = some row'.isActive) ∧
    (row'.role = row.role ∨ ∃ actor input, requests i = .updateKey actor row.id input ∧
      input.role = some row'.role)

theorem applyApiKeyUpdate_id (current : ApiKeyRecord) (input : ApiKeyInput) (now : String) :
    (applyApiKeyUpdate current input now).id = current.id := by
  unfold applyApiKeyUpdate applyApiKeyActiveState applyApiKeyRole
  split <;> split <;> rfl

theorem applyApiKeyUpdate_isActive (current : ApiKeyRecord) (input : ApiKeyInput) (now : String) :
    (applyApiKeyUpdate current input now).isActive = input.isActive.getD current.isActive := by
  unfold applyApiKeyUpdate applyApiKeyActiveState applyApiKeyRole
  cases input.isActive <;> cases input.role <;> rfl

theorem applyApiKeyUpdate_role (current : ApiKeyRecord) (input : ApiKeyInput) (now : String) :
    (applyApiKeyUpdate current input now).role = input.role.getD current.role := by
  unfold applyApiKeyUpdate applyApiKeyActiveState applyApiKeyRole
  cases input.isActive <;> cases input.role <;> rfl

theorem checked_afterUpdateCheck {actor : ApiKeyRole} {id now : String} {input : ApiKeyInput}
    {current : ApiKeyRecord} {n : Option Nat} (hid : current.id = id)
    (hcount : removesActiveAdminApiKey current (applyApiKeyUpdate current input now) →
      ∃ m, n = some m ∧ m > 1) :
    Checked (.updateKey actor id input)
      (afterUpdateCheck input current (applyApiKeyUpdate current input now) n) := by
  unfold afterUpdateCheck
  split
  · exact ⟨⟨actor,id,input,now,rfl,hid,rfl⟩,hcount⟩
  · exact trivial

theorem checked_readPending {actor : ApiKeyRole} {ids pending : List String}
    {records : List KeyRead} {given : Given} {table : ApiKeyTable} {p : Progress}
    (hids : ∀ id ∈ ids, id ∈ pending ∨ ∃ read ∈ records, read.id = id)
    (h : readPending given pending records table = some p) :
    Checked (.deleteKeys actor ids) p := by
  unfold readPending at h
  cases hanswered : pending[given.answered]? with
  | none => simp [hanswered] at h
  | some answered =>
    simp only [hanswered] at h
    -- what is no longer pending is what has been read now
    have hread : ∀ id ∈ ids, id ∈ pending.eraseIdx given.answered ∨
        ∃ read ∈ records ++ [⟨answered,table.getApiKeyById answered⟩], read.id = id := by
      intro id hid
      rcases hids id hid with hpending | ⟨read,hread,heq⟩
      · obtain ⟨hlt,hget⟩ := List.getElem?_eq_some_iff.mp hanswered
        have hperm := (List.getElem_cons_eraseIdx_perm hlt).mem_iff (a := id)
        rcases List.mem_cons.mp (hperm.mpr hpending) with hnow | hlater
        · exact Or.inr ⟨_,List.mem_append_right _ (List.mem_singleton_self _),
            (hnow.trans hget).symm⟩
        · exact Or.inl hlater
      · exact Or.inr ⟨read,List.mem_append_left _ hread,heq⟩
    split at h
    · rename_i hdone
      rw [hdone] at hread
      split at h <;> cases h
      · exact trivial
      · exact ⟨actor,ids,rfl,fun id hid => (hread id hid).resolve_left (List.not_mem_nil)⟩
    · cases h
      exact ⟨actor,ids,rfl,hread⟩

theorem checked_afterDeleteCount {actor : ApiKeyRole} {ids : List String}
    {records : List KeyRead} (n : Nat) (hids : ∀ id ∈ ids, ∃ read ∈ records, read.id = id) :
    Checked (.deleteKeys actor ids) (afterDeleteCount records n) := by
  unfold afterDeleteCount
  split
  · exact trivial
  · exact ⟨⟨actor,ids,rfl,hids⟩,by assumption⟩

/-- A step of `updateKey` writes the updated record at its end, and nothing before. -/
theorem advanceUpdateKey_cases {actor : ApiKeyRole} {id : String} {input : ApiKeyInput}
    {given : Given} {progress p : Progress} {table st : ApiKeyTable}
    (hp : Checked (.updateKey actor id input) progress)
    (h : advanceUpdateKey id input given progress table = some (p,st)) :
    (st = table ∧ Checked (.updateKey actor id input) p) ∨
      ∃ current updated n, progress = .writing current updated n ∧
        st = table.updateApiKey updated ∧ p = .finished (.ok ()) := by
  cases progress with
  | waiting =>
    left
    simp only [advanceUpdateKey] at h
    cases hget : table.getApiKeyById id with
    | none =>
      simp only [hget] at h
      cases h
      exact ⟨rfl,trivial⟩
    | some current =>
      have hid := (ApiKeyTable.getApiKeyById_eq_some hget).2
      simp only [hget] at h
      split at h <;> cases h
      · exact ⟨rfl,actor,id,input,given.now,rfl,hid,rfl⟩
      · exact ⟨rfl,checked_afterUpdateCheck hid (fun hr => absurd hr (by assumption))⟩
  | counting current updated =>
    left
    obtain ⟨_,_,_,now,heq,hid,rfl⟩ := hp
    cases heq
    simp only [advanceUpdateKey] at h
    split at h <;> cases h
    · exact ⟨rfl,checked_afterUpdateCheck hid (fun _ => ⟨_,rfl,by assumption⟩)⟩
    · exact ⟨rfl,trivial⟩
  | writing current updated n =>
    cases h
    exact Or.inr ⟨current,updated,n,rfl,rfl,rfl⟩
  | reading pending records => cases h
  | deleteCounting records => cases h
  | deleting records n => cases h
  | finished result => cases h

/-- A step of `deleteKeys` deletes at its end, and changes nothing before. -/
theorem advanceDeleteKeys_cases {actor : ApiKeyRole} {ids : List String} {given : Given}
    {progress p : Progress} {table st : ApiKeyTable}
    (hp : Checked (.deleteKeys actor ids) progress)
    (h : advanceDeleteKeys ids given progress table = some (p,st)) :
    (st = table ∧ Checked (.deleteKeys actor ids) p) ∨
      ∃ records n, progress = .deleting records n ∧ st = table.deleteApiKeys ids ∧
        p = .finished (.ok ()) := by
  cases progress with
  | waiting =>
    left
    simp only [advanceDeleteKeys] at h
    split at h
    · cases h
      exact ⟨rfl,checked_afterDeleteCount _ (by simp [*])⟩
    · obtain ⟨q,hq,heq⟩ := Option.map_eq_some_iff.mp h
      cases heq
      exact ⟨rfl,checked_readPending (fun id hid => Or.inl (List.mem_eraseDups.mpr hid)) hq⟩
  | reading pending records =>
    left
    obtain ⟨_,_,heq,hids⟩ := hp
    cases heq
    obtain ⟨q,hq,heq⟩ := Option.map_eq_some_iff.mp h
    cases heq
    exact ⟨rfl,checked_readPending hids hq⟩
  | deleteCounting records =>
    left
    obtain ⟨_,_,heq,hids⟩ := hp
    cases heq
    cases h
    exact ⟨rfl,checked_afterDeleteCount _ hids⟩
  | deleting records n =>
    cases h
    exact Or.inr ⟨records,n,rfl,rfl,rfl⟩
  | counting current updated => cases h
  | writing current updated n => cases h
  | finished result => cases h

theorem admin_left_updateKey {actor : ApiKeyRole} {id : String} {input : ApiKeyInput}
    {current updated : ApiKeyRecord} {n : Option Nat} {table : ApiKeyTable}
    (hadmin : 1 ≤ table.countActiveAdminApiKeys)
    (hchecked : Checked (.updateKey actor id input) (.writing current updated n))
    (hadmins : ∀ row ∈ table.rows, row.id = current.id → isActiveAdminApiKey row →
      isActiveAdminApiKey current)
    (hcounted : ∀ m, n = some m → m ≤ table.countActiveAdminApiKeys) :
    1 ≤ (table.updateApiKey updated).countActiveAdminApiKeys := by
  obtain ⟨⟨_,_,_,now,-,-,hupdated⟩,hcount⟩ := hchecked
  have hid : updated.id = current.id := by rw [hupdated,applyApiKeyUpdate_id]
  by_cases hremoves : removesActiveAdminApiKey current updated
  · obtain ⟨m,hm,hmore⟩ := hcount hremoves
    have hle := hcounted m hm
    have hone := @ApiKeyTable.count_updateApiKey table updated
    omega
  · have hkeeps : ∀ row ∈ table.rows, row.id = updated.id → isActiveAdminApiKey row →
        isActiveAdminApiKey updated := by
      intro row hrow heq hactive
      have hcurrent := hadmins row hrow (heq.trans hid) hactive
      simpa [removesActiveAdminApiKey,hcurrent] using hremoves
    exact Nat.le_trans hadmin (ApiKeyTable.count_updateApiKey_of_keeps hkeeps)

theorem admin_left_deleteKeys {actor : ApiKeyRole} {ids : List String} {records : List KeyRead}
    {n : Nat} {table : ApiKeyTable} (hadmin : 1 ≤ table.countActiveAdminApiKeys)
    (hchecked : Checked (.deleteKeys actor ids) (.deleting records n))
    (hadmins : ∀ row ∈ table.rows, ∀ read ∈ records, read.id = row.id → isActiveAdminApiKey row →
      read.record.any isActiveAdminApiKey)
    (hcounted : n ≤ table.countActiveAdminApiKeys) :
    1 ≤ (table.deleteApiKeys ids).countActiveAdminApiKeys := by
  obtain ⟨⟨_,_,heq,hread⟩,hlast⟩ := hchecked
  cases heq
  have hle := ApiKeyTable.count_deleteApiKeys hread hadmins
  simp only [removesLastActiveAdminApiKey,Bool.and_eq_true,decide_eq_true_eq,not_and] at hlast
  omega

section Requests
variable {ι : Type} [DecidableEq ι] {requests : ι → Request} {s t : Requests ι}
  {table : ApiKeyTable} {events : List (Event ι Given Empty)}

omit [DecidableEq ι] in
/-- A step of a request leaves the table alone, or is one of the two writes at the end. -/
theorem advance_cases {i : ι} {given : Given} {progress p : Progress} {table st : ApiKeyTable}
    (hp : Checked (requests i) progress)
    (h : advance requests i given progress table = some (p,st)) :
    (st = table ∧ Checked (requests i) p) ∨
    (∃ actor id input current updated n, requests i = .updateKey actor id input ∧
      progress = .writing current updated n ∧ st = table.updateApiKey updated ∧
      p = .finished (.ok ())) ∨
    ∃ actor ids records n, requests i = .deleteKeys actor ids ∧ progress = .deleting records n ∧
      st = table.deleteApiKeys ids ∧ p = .finished (.ok ()) := by
  have hrefuse (h : refuse progress table = some (p,st)) : st = table ∧ Checked (requests i) p := by
    cases progress with
    | waiting =>
      cases h
      exact ⟨rfl,trivial⟩
    | counting | writing | reading | deleteCounting | deleting | finished => cases h
  cases hrequest : requests i with
  | updateKey actor id input =>
    rw [hrequest] at hp hrefuse
    simp only [advance,hrequest] at h
    split at h
    · rcases advanceUpdateKey_cases hp h with hread | ⟨current,updated,n,hprogress,hst,hdone⟩
      · exact Or.inl hread
      · exact Or.inr (Or.inl ⟨actor,id,input,current,updated,n,rfl,hprogress,hst,hdone⟩)
    · exact Or.inl (hrefuse h)
  | deleteKeys actor ids =>
    rw [hrequest] at hp hrefuse
    simp only [advance,hrequest] at h
    split at h
    · rcases advanceDeleteKeys_cases hp h with hread | ⟨records,n,hprogress,hst,hdone⟩
      · exact Or.inl hread
      · exact Or.inr (Or.inr ⟨actor,ids,records,n,rfl,hprogress,hst,hdone⟩)
    · exact Or.inl (hrefuse h)

omit [DecidableEq ι] in
theorem safe_requests : Safe (advance requests) (fun (event : Empty) _ => nomatch event)
    (fun table => 1 ≤ table.countActiveAdminApiKeys) (fun i p _ => Checked (requests i) p)
    (ReadsStillHold requests) where
  outside := fun event => nomatch event
  other := fun _ _ _ _ _ _ hJ _ _ j _ => hJ j
  own := by
    intro i given s p st hadmin hJ hreads hadvance
    have hstill := hreads i given rfl
    rcases advance_cases (hJ i) hadvance with ⟨rfl,hp⟩ |
      ⟨actor,id,input,current,updated,n,hrequest,hprogress,rfl,rfl⟩ |
      ⟨actor,ids,records,n,hrequest,hprogress,rfl,rfl⟩
    · exact ⟨hadmin,hp⟩
    · have hchecked := hJ i
      simp only [hrequest,hprogress] at hstill hchecked
      exact ⟨admin_left_updateKey hadmin hchecked
        (fun row hrow heq => (hstill.1 row hrow heq).2.2) hstill.2,trivial⟩
    · have hchecked := hJ i
      simp only [hrequest,hprogress] at hstill hchecked
      exact ⟨admin_left_deleteKeys hadmin hchecked hstill.1 hstill.2,trivial⟩

theorem changes_updateKey {actor : ApiKeyRole} {id : String} {input : ApiKeyInput}
    {current updated : ApiKeyRecord} {n : Option Nat} {row row' : ApiKeyRecord}
    (hchecked : Checked (.updateKey actor id input) (.writing current updated n))
    (hreads : ∀ row ∈ table.rows, row.id = current.id →
      (input.isActive = none → row.isActive = current.isActive) ∧
      (input.role = none → row.role = current.role) ∧
      (isActiveAdminApiKey row → isActiveAdminApiKey current))
    (hrow : row ∈ table.rows) (hrow' : row' ∈ (table.updateApiKey updated).rows)
    (heq : row'.id = row.id) :
    (row'.isActive = row.isActive ∨ id = row.id ∧ input.isActive = some row'.isActive) ∧
    (row'.role = row.role ∨ id = row.id ∧ input.role = some row'.role) := by
  obtain ⟨⟨_,_,_,now,hrequest,hid,rfl⟩,-⟩ := hchecked
  cases hrequest
  obtain ⟨before,hbefore,rfl⟩ := List.mem_map.mp hrow'
  rw [ApiKeyTable.written_id] at heq
  obtain rfl := ApiKeyTable.row_unique hbefore hrow heq
  unfold ApiKeyTable.written
  rw [applyApiKeyUpdate_id]
  by_cases hsame : before.id = current.id
  · obtain ⟨hactive,hrole,-⟩ := hreads before hrow hsame
    simp only [if_pos hsame,applyApiKeyUpdate_isActive,applyApiKeyUpdate_role]
    constructor
    · cases hgiven : input.isActive with
      | none => exact Or.inl (hactive hgiven).symm
      | some isActive => exact Or.inr ⟨hid.symm.trans hsame.symm,rfl⟩
    · cases hgiven : input.role with
      | none => exact Or.inl (hrole hgiven).symm
      | some role => exact Or.inr ⟨hid.symm.trans hsame.symm,rfl⟩
  · simp [if_neg hsame]

theorem changesGivenOnly_step {event : Event ι Given Empty}
    (hchecked : ∀ j, Checked (requests j) (s.progress j)) (hreads : ReadsStillHold requests event s)
    (hstep : step requests event s = some t) : ChangesGivenOnly requests event s t := by
  rintro i given rfl row hrow row' hrow' heq
  obtain ⟨p,st,hadvance,rfl⟩ := step_call.mp hstep
  have hstill := hreads i given rfl
  rcases advance_cases (hchecked i) hadvance with ⟨rfl,-⟩ |
    ⟨actor,id,input,current,updated,n,hrequest,hprogress,rfl,-⟩ |
    ⟨actor,ids,records,n,hrequest,hprogress,rfl,-⟩
  · obtain rfl := ApiKeyTable.row_unique hrow' hrow heq
    exact ⟨Or.inl rfl,Or.inl rfl⟩
  · have hwriting := hchecked i
    simp only [hrequest,hprogress] at hstill hwriting
    obtain ⟨hactive,hrole⟩ := changes_updateKey hwriting hstill.1 hrow hrow' heq
    rw [hrequest]
    refine ⟨hactive.imp_right ?_,hrole.imp_right ?_⟩
    · rintro ⟨rfl,hgiven⟩
      exact ⟨actor,input,rfl,hgiven⟩
    · rintro ⟨rfl,hgiven⟩
      exact ⟨actor,input,rfl,hgiven⟩
  · obtain rfl := ApiKeyTable.row_unique (List.mem_filter.mp hrow').1 hrow heq
    exact ⟨Or.inl rfl,Or.inl rfl⟩

/-- Where every write finds what its request has read, an active admin key is always left, and no
request writes back what another one changed. -/
theorem active_admin_survives (hadmin : 1 ≤ table.countActiveAdminApiKeys)
    (hreads : ∀ passed event ahead u, events = passed ++ event::ahead →
      Machine.run (step requests) passed (noRequestsYet table) = some u →
      ReadsStillHold requests event u)
    (hrun : Machine.run (step requests) events (noRequestsYet table) = some t) :
    1 ≤ t.store.countActiveAdminApiKeys ∧
      ∀ passed event ahead u v, events = passed ++ event::ahead →
        Machine.run (step requests) passed (noRequestsYet table) = some u →
        step requests event u = some v → ChangesGivenOnly requests event u v := by
  have hstart : 1 ≤ (noRequestsYet table : Requests ι).store.countActiveAdminApiKeys ∧
      ∀ j, Checked (requests j) ((noRequestsYet table : Requests ι).progress j) :=
    ⟨hadmin,fun _ => trivial⟩
  refine ⟨(safe_requests.run hstart hreads hrun).1,?_⟩
  rintro passed event ahead u v rfl hu hv
  have hbefore := safe_requests.run hstart (fun before earlier rest w heq hw =>
    hreads before earlier (rest ++ event::ahead) w (by rw [heq]; simp) hw) hu
  exact changesGivenOnly_step hbefore.2 (hreads passed event ahead u rfl hu) hv

end Requests

def keyNamed (id : String) (role : ApiKeyRole) : ApiKeyRecord where
  apiKeyId := 1
  id := id
  role := role
  secretKeyHash := id
  isActive := true
  updatedAt := none
  createdAt := "t0"

def threeKeys : ApiKeyTable :=
  ⟨[keyNamed "key_a" .admin,keyNamed "key_b" .admin,keyNamed "key_c" .member],by decide⟩

def at_ (i : Bool) : Event Bool Given Empty := .call i ⟨"t1",0⟩

/-- Each deletes the keys of one admin; the member key goes with the first. -/
def deletions : Bool → Request
  | true => .deleteKeys .admin ["key_a","key_c"]
  | false => .deleteKeys .admin ["key_b"]

/-- One promotes a key while the other deactivates it. -/
def promotion : Bool → Request
  | true => .updateKey .admin "key_c" ⟨none,some .admin⟩
  | false => .updateKey .admin "key_c" ⟨some false,none⟩

theorem active_admin_survives_promotion :
    ∃ t, Machine.run (step promotion) [at_ true,at_ true,at_ false,at_ false,at_ false]
        (noRequestsYet threeKeys) = some t ∧ 1 ≤ t.store.countActiveAdminApiKeys := by
  have hreads : Machine.Along (step promotion) (ReadsStillHold promotion)
      [at_ true,at_ true,at_ false,at_ false,at_ false] (noRequestsYet threeKeys) := by
    refine ⟨?_,fun t ht => ?_⟩
    · rintro i given ⟨⟩
      exact trivial
    obtain rfl := Option.some.inj ht
    refine ⟨?_,fun t ht => ?_⟩
    · rintro i given ⟨⟩
      exact ⟨by decide,fun n hn => nomatch hn⟩
    obtain rfl := Option.some.inj ht
    refine ⟨?_,fun t ht => ?_⟩
    · rintro i given ⟨⟩
      exact trivial
    obtain rfl := Option.some.inj ht
    refine ⟨?_,fun t ht => ?_⟩
    · rintro i given ⟨⟩
      exact trivial
    obtain rfl := Option.some.inj ht
    refine ⟨?_,fun _ _ => trivial⟩
    rintro i given ⟨⟩
    refine ⟨by decide,?_⟩
    rintro n ⟨⟩
    decide
  exact ⟨_,rfl,(active_admin_survives (by decide) hreads.split rfl).1⟩

/-- Two deletions that overlap leave no key at all, and a deactivation takes back a promotion. -/
theorem overlapping_requests_lose_admins :
    (∃ t, Machine.run (step deletions) [at_ true,at_ true,at_ false,at_ true,at_ false,at_ true,
        at_ false] (noRequestsYet threeKeys) = some t ∧ t.store.rows = []) ∧
    ∃ u t, Machine.run (step promotion) [at_ true,at_ false,at_ true] (noRequestsYet threeKeys) =
        some u ∧ (u.store.getApiKeyById "key_c").map (·.role) = some .admin ∧
      step promotion (at_ false) u = some t ∧
      (t.store.getApiKeyById "key_c").map (·.role) = some .member ∧
      ¬ChangesGivenOnly promotion (at_ false) u t := by
  refine ⟨⟨_,rfl,by decide⟩,_,_,rfl,by decide,rfl,by decide,?_⟩
  intro h
  have hrow := h false _ rfl { keyNamed "key_c" .admin with updatedAt := some "t1" } (by decide)
    { keyNamed "key_c" .member with isActive := false, updatedAt := some "t1" } (by decide) rfl
  rcases hrow.2 with hrole | ⟨actor,input,hrequest,hgiven⟩
  · cases hrole
  · cases hrequest
    cases hgiven

end OnlyDoge.Access
