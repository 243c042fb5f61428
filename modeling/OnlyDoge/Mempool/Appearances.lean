import OnlyDoge.Mempool.Detector
set_option autoImplicit false

/-! Which appearances of transactions the detector has published when it rests between works. -/

namespace OnlyDoge.MempoolAppear

def Appears (watch : ActiveMempoolWatch) (transaction : CachedMempoolTransaction) : Prop :=
  (matchingOutputsForAddress transaction watch.address watch.minValueBase).isSome

/-- An event with the matching outputs of the transaction has been published for the watch. -/
def Announced (detector : Detector) (watch : ActiveMempoolWatch)
    (transaction : CachedMempoolTransaction) : Prop :=
  ∃ event ∈ detector.published, event.watchId = watch.id ∧ event.txid = trim transaction.txid ∧
    some event.outputs =
      matchingOutputsForAddress transaction watch.address watch.minValueBase

section Publishing
variable {watch : ActiveMempoolWatch} {watches : List ActiveMempoolWatch}
  {transaction : CachedMempoolTransaction} {transactions : List CachedMempoolTransaction}
  {source : MempoolAppearSource} {detector : Detector}

/-- What a work publishes adds to what was published. -/
def Grows (before after : Detector) : Prop := ∃ events, after.published = before.published ++ events

theorem Grows.refl (detector : Detector) : Grows detector detector :=
  ⟨[],(List.append_nil _).symm⟩

theorem Grows.trans {a b c : Detector} (h : Grows a b) (h' : Grows b c) : Grows a c := by
  obtain ⟨events,h⟩ := h
  obtain ⟨events',h'⟩ := h'
  exact ⟨events ++ events',by rw [h',h,List.append_assoc]⟩

theorem Announced.grows {after : Detector} (h : Announced detector watch transaction)
    (hgrows : Grows detector after) : Announced after watch transaction := by
  obtain ⟨event,hevent,hof⟩ := h
  obtain ⟨events,heq⟩ := hgrows
  exact ⟨event,by rw [heq]; exact List.mem_append_left _ hevent,hof⟩

theorem grows_matchTransaction :
    Grows detector (matchTransaction transaction watches source detector) := by
  unfold matchTransaction
  split
  · exact Grows.refl _
  · exact ⟨_,rfl⟩

theorem announced_matchTransaction (hwatch : watch ∈ watches) (hname : trim transaction.txid ≠ "")
    (happears : Appears watch transaction) :
    Announced (matchTransaction transaction watches source detector) watch transaction := by
  obtain ⟨outputs,houtputs⟩ := Option.isSome_iff_exists.mp happears
  let event : MempoolAppearEvent :=
    ⟨watch.address,watch.apiKeyId,outputs,source,trim transaction.txid,watch.id⟩
  have hevent : appearEvent transaction source watch = some event := by
    rw [appearEvent,houtputs]; rfl
  have hpublished : event ∈ (matchTransaction transaction watches source detector).published := by
    unfold matchTransaction
    rw [if_neg hname]
    exact List.mem_append_right _ (List.mem_filterMap.mpr ⟨watch,hwatch,hevent⟩)
  exact ⟨event,hpublished,rfl,rfl,houtputs.symm⟩

theorem matchTransaction_fields :
    (matchTransaction transaction watches source detector).watchesByAddress =
        detector.watchesByAddress ∧
      (matchTransaction transaction watches source detector).cachedTransactions =
        detector.cachedTransactions := by
  unfold matchTransaction
  split <;> exact ⟨rfl,rfl⟩

theorem grows_matchCachedTransactions :
    Grows detector (matchCachedTransactions watches source transactions detector) := by
  unfold matchCachedTransactions
  induction transactions generalizing detector with
  | nil => exact Grows.refl _
  | cons transaction transactions ih => exact grows_matchTransaction.trans ih

theorem matchCachedTransactions_fields :
    (matchCachedTransactions watches source transactions detector).watchesByAddress =
        detector.watchesByAddress ∧
      (matchCachedTransactions watches source transactions detector).cachedTransactions =
        detector.cachedTransactions := by
  unfold matchCachedTransactions
  induction transactions generalizing detector with
  | nil => exact ⟨rfl,rfl⟩
  | cons transaction transactions ih =>
    obtain ⟨hwatches,hcached⟩ := @ih (matchTransaction transaction watches source detector)
    obtain ⟨hwatches',hcached'⟩ := @matchTransaction_fields watches transaction source detector
    exact ⟨hwatches.trans hwatches',hcached.trans hcached'⟩

@[simp] theorem watches_matchCachedTransactions :
    (matchCachedTransactions watches source transactions detector).watches = detector.watches := by
  rw [Detector.watches,matchCachedTransactions_fields.1]
  rfl

@[simp] theorem cachedTransactions_matchCachedTransactions :
    (matchCachedTransactions watches source transactions detector).cachedTransactions =
      detector.cachedTransactions :=
  matchCachedTransactions_fields.2

theorem announced_matchCachedTransactions (hwatch : watch ∈ watches)
    (htransaction : transaction ∈ transactions) (hname : trim transaction.txid ≠ "")
    (happears : Appears watch transaction) :
    Announced (matchCachedTransactions watches source transactions detector) watch transaction := by
  unfold matchCachedTransactions
  induction transactions generalizing detector with
  | nil => cases htransaction
  | cons first transactions ih =>
    rcases List.mem_cons.mp htransaction with rfl | hrest
    · exact (announced_matchTransaction hwatch hname happears).grows grows_matchCachedTransactions
    · exact ih hrest

end Publishing

theorem foldl_append_singleton {α : Type} (xs ys : List α) :
    ys.foldl (fun list y => list ++ [y]) xs = xs ++ ys := by
  induction ys generalizing xs with
  | nil => simp
  | cons y ys ih => simp [ih]

theorem mem_watchesByAddress {watches : List ActiveMempoolWatch} {watch : ActiveMempoolWatch} :
    watch ∈ (watchesByAddress watches).values.flatten ↔ watch ∈ watches := by
  have hget (address : String) : (watchesByAddress watches).get address =
      if watches.filter (·.address = address) = [] then none
      else some (watches.filter (·.address = address)) := by
    unfold watchesByAddress
    rw [Grouping.get_accumulate]
    cases hfilter : watches.filter (·.address = address) with
    | nil => rfl
    | cons first rest =>
      rw [if_neg (by simp),Grouping.stepAll,Grouping.stepAll_some,foldl_append_singleton]
      rfl
  simp only [List.mem_flatten,OrderedMap.mem_values]
  constructor
  · rintro ⟨list,⟨address,haddress⟩,hwatch⟩
    rw [hget] at haddress
    split at haddress
    · cases haddress
    · cases haddress
      exact (List.mem_filter.mp hwatch).1
  · intro hwatch
    have hmem : watch ∈ watches.filter (·.address = watch.address) :=
      List.mem_filter.mpr ⟨hwatch,by simp⟩
    refine ⟨_,⟨watch.address,?_⟩,hmem⟩
    rw [hget,if_neg (List.ne_nil_of_mem hmem)]

theorem mem_values_set {κ ν : Type} [DecidableEq κ] {m : OrderedMap κ ν} {k : κ} {v w : ν}
    (h : w ∈ (m.set k v).values) : w = v ∨ w ∈ m.values := by
  obtain ⟨j,hj⟩ := OrderedMap.mem_values.mp h
  rw [OrderedMap.get_set] at hj
  split at hj
  · exact Or.inl (Option.some.inj hj).symm
  · exact Or.inr (OrderedMap.mem_values.mpr ⟨j,hj⟩)

section Hydrating
variable {options : DetectorOptions} {answers : SyncAnswers} {txids : List String}
  {cached nextCache : OrderedMap String CachedMempoolTransaction}
  {fresh : List CachedMempoolTransaction} {transaction : CachedMempoolTransaction}

theorem splitSnapshot_values (h : transaction ∈ (splitSnapshot cached txids).1.values) :
    transaction ∈ cached.values := by
  have hall : ∀ transaction ∈ (splitSnapshot cached txids).1.values,
      transaction ∈ cached.values := by
    refine List.foldlRecOn txids _ (motive := fun
      (state : OrderedMap String CachedMempoolTransaction × List String) =>
      ∀ transaction ∈ state.1.values, transaction ∈ cached.values) ?_ ?_
    · simp [OrderedMap.mem_values]
    · intro state hstate txid _
      cases hget : cached.get txid with
      | none => exact hstate
      | some found =>
        intro transaction hmem
        rcases mem_values_set hmem with rfl | hbefore
        · exact OrderedMap.mem_values.mpr ⟨txid,hget⟩
        · exact hstate transaction hbefore
  exact hall transaction h

/-- What is in the next cache was cached before or is new, and what is new has a name. -/
structure HydratedFrom (cached nextCache : OrderedMap String CachedMempoolTransaction)
    (fresh : List CachedMempoolTransaction) : Prop where
  values : ∀ transaction ∈ nextCache.values,
    transaction ∈ cached.values ∨ transaction ∈ fresh
  named : ∀ transaction ∈ fresh, trim transaction.txid ≠ ""

theorem HydratedFrom.add (h : HydratedFrom cached nextCache fresh)
    (record : Option ReportedTransaction) :
    HydratedFrom cached (addHydrated txids (nextCache,fresh) record).1
      (addHydrated txids (nextCache,fresh) record).2 := by
  cases record with
  | none => exact h
  | some record =>
    simp only [addHydrated]
    split
    · exact h
    · rename_i hkept
      constructor
      · intro transaction hmem
        rcases mem_values_set hmem with rfl | hbefore
        · exact Or.inr (List.mem_append_right _ (List.mem_singleton_self _))
        · exact (h.values transaction hbefore).imp_right (List.mem_append_left _)
      · intro transaction hmem
        rcases List.mem_append.mp hmem with hold | hnew
        · exact h.named transaction hold
        · obtain rfl := List.mem_singleton.mp hnew
          exact fun hempty => hkept (Or.inl hempty)

theorem hydratedFrom_foldl (records : List (Option ReportedTransaction))
    (h : HydratedFrom cached nextCache fresh) :
    HydratedFrom cached (records.foldl (addHydrated txids) (nextCache,fresh)).1
      (records.foldl (addHydrated txids) (nextCache,fresh)).2 := by
  induction records generalizing nextCache fresh with
  | nil => exact h
  | cons record records ih => exact ih (h.add record)

theorem hydratedFrom_hydrate (h : hydrate options answers txids cached =
    some (nextCache,fresh)) : HydratedFrom cached nextCache fresh := by
  unfold hydrate at h
  have hstart : HydratedFrom cached (splitSnapshot cached txids).1 [] :=
    ⟨fun transaction hmem => Or.inl (splitSnapshot_values hmem),by simp⟩
  cases hsplit : splitSnapshot cached txids with
  | mk kept missing =>
    rw [hsplit] at h hstart
    obtain ⟨batches,-,heq⟩ := Option.bind_eq_some_iff.mp h
    have hall := @hydratedFrom_foldl txids cached kept [] batches.flatten hstart
    rw [Option.some.inj heq] at hall
    exact hall

/-- The cache of a synchronization whose calls up to the last batch do not fail, and what is
new in it. -/
def hydration (options : DetectorOptions) (answers : SyncAnswers)
    (cached : OrderedMap String CachedMempoolTransaction) :
    Option (OrderedMap String CachedMempoolTransaction × List CachedMempoolTransaction) :=
  if answers.dogecoinConfig = false then none
  else answers.mempoolSnapshot.bind fun txids =>
    if txids.length > options.cacheMaxTxids then some (.empty,[])
    else hydrate options answers txids cached

def cacheAfter (options : DetectorOptions) (answers : SyncAnswers)
    (cached : OrderedMap String CachedMempoolTransaction) :
    OrderedMap String CachedMempoolTransaction :=
  ((hydration options answers cached).getD (cached,[])).1

def newTransactions (options : DetectorOptions) (answers : SyncAnswers)
    (cached : OrderedMap String CachedMempoolTransaction) : List CachedMempoolTransaction :=
  ((hydration options answers cached).getD (cached,[])).2

/-- No call of the synchronization fails, the report of its status included. -/
def completes (options : DetectorOptions) (answers : SyncAnswers)
    (cached : OrderedMap String CachedMempoolTransaction) : Bool :=
  (hydration options answers cached).isSome &&
    persistDetectorStatus options.ownerInstanceId 4 answers.status

theorem hydratedFrom_cacheAfter :
    HydratedFrom cached (cacheAfter options answers cached)
      (newTransactions options answers cached) := by
  unfold cacheAfter newTransactions
  cases hhydration : hydration options answers cached with
  | none => exact ⟨fun _ hmem => Or.inl hmem,by simp⟩
  | some hydrated =>
    unfold hydration at hhydration
    split at hhydration
    · cases hhydration
    · obtain ⟨txids,-,h⟩ := Option.bind_eq_some_iff.mp hhydration
      split at h
      · cases h
        exact ⟨by simp [OrderedMap.values,OrderedMap.empty],by simp⟩
      · exact hydratedFrom_hydrate h

theorem synchronizeMempool_eq (source : MempoolAppearSource) (detector : Detector) :
    synchronizeMempool options source answers detector =
      let cached := detector.cachedTransactions
      let synchronized := { detector with cachedTransactions := cacheAfter options answers cached }
      (if completes options answers cached ∧ source = .live then
        matchCachedTransactions detector.watches source (newTransactions options answers cached)
          synchronized
      else synchronized,completes options answers cached) := by
  unfold synchronizeMempool completes cacheAfter newTransactions hydration
  cases answers.dogecoinConfig with
  | false => rfl
  | true =>
    cases answers.mempoolSnapshot with
    | none => rfl
    | some txids =>
      by_cases hlimit : txids.length > options.cacheMaxTxids
      · simp only [Bool.true_eq_false,if_false,Option.bind_some,hlimit,if_true]
        cases persistDetectorStatus options.ownerInstanceId 4 answers.status <;>
          cases source <;> rfl
      · simp only [Bool.true_eq_false,if_false,Option.bind_some,hlimit]
        cases hydrate options answers txids detector.cachedTransactions with
        | none => rfl
        | some hydrated =>
          obtain ⟨nextCache,newTransactions⟩ := hydrated
          cases persistDetectorStatus options.ownerInstanceId 4 answers.status <;>
            cases source <;> cases newTransactions <;> rfl

theorem synchronizeMempool_of_fails {source : MempoolAppearSource} {detector : Detector}
    (h : completes options answers detector.cachedTransactions = false) :
    synchronizeMempool options source answers detector =
      ({ detector with
        cachedTransactions := cacheAfter options answers detector.cachedTransactions },false) := by
  simp [synchronizeMempool_eq,h]

theorem synchronizeMempool_catchup {detector : Detector}
    (h : completes options answers detector.cachedTransactions = true) :
    synchronizeMempool options .catchup answers detector =
      ({ detector with
        cachedTransactions := cacheAfter options answers detector.cachedTransactions },true) := by
  simp [synchronizeMempool_eq,h]

theorem synchronizeMempool_live {detector : Detector}
    (h : completes options answers detector.cachedTransactions = true) :
    synchronizeMempool options .live answers detector =
      (matchCachedTransactions detector.watches .live
        (newTransactions options answers detector.cachedTransactions)
        { detector with
          cachedTransactions := cacheAfter options answers detector.cachedTransactions },true) := by
  simp [synchronizeMempool_eq,h]

end Hydrating

/-- Every appearance of a cached transaction for a listed watch has been published. -/
structure Resting (registry : Registry) (detector : Detector) : Prop where
  rows : ∀ watch ∈ detector.watches, registry.row watch.id = watch
  named : ∀ transaction ∈ detector.cachedTransactions.values, trim transaction.txid ≠ ""
  announced : ∀ watch ∈ detector.watches, ∀ transaction ∈ detector.cachedTransactions.values,
    Appears watch transaction → Announced detector watch transaction

/-- No appearance stays unpublished that only a later look at the cache could find: a refresh
takes in no new transaction for a watch that it knew, and when its synchronization fails, none
is cached for a watch that is new to it; nor does a poll that fails after it took in a new
transaction for a listed watch. -/
def LeavesNoPair (options : DetectorOptions) (registry : Registry) :
    Work → Detector → Prop
  | .refresh none _,_ => True
  | .refresh (some ids) answers,detector =>
    (∀ id ∈ ids,registry.row id ∈ detector.watches →
      ∀ transaction ∈ newTransactions options answers detector.cachedTransactions,
        Appears (registry.row id) transaction →
          Announced detector (registry.row id) transaction) ∧
    (completes options answers detector.cachedTransactions = false →
      ∀ id ∈ ids,registry.row id ∉ detector.watches →
      ∀ transaction ∈ (cacheAfter options answers detector.cachedTransactions).values,
        Appears (registry.row id) transaction →
          Announced detector (registry.row id) transaction)
  | .poll answers,detector =>
    completes options answers detector.cachedTransactions = false →
      ∀ watch ∈ detector.watches,
      ∀ transaction ∈ newTransactions options answers detector.cachedTransactions,
        Appears watch transaction → Announced detector watch transaction
  | .rawTransaction _,_ => True

section Works
variable {options : DetectorOptions} {registry : Registry} {detector : Detector}
  {answers : SyncAnswers}

theorem Resting.named_cacheAfter (h : Resting registry detector) :
    ∀ transaction ∈ (cacheAfter options answers detector.cachedTransactions).values,
      trim transaction.txid ≠ "" := by
  intro transaction hmem
  rcases hydratedFrom_cacheAfter.values transaction hmem with hold | hnew
  · exact h.named transaction hold
  · exact hydratedFrom_cacheAfter.named transaction hnew

theorem Resting.poll (h : Resting registry detector)
    (hleaves : LeavesNoPair options registry (.poll answers) detector) :
    Resting registry (synchronizeMempool options .live answers detector).1 := by
  cases hcompletes : completes options answers detector.cachedTransactions with
  | false =>
    rw [synchronizeMempool_of_fails hcompletes]
    refine ⟨h.rows,h.named_cacheAfter,fun watch hwatch transaction hmem happears => ?_⟩
    rcases hydratedFrom_cacheAfter.values transaction hmem with hold | hnew
    · exact h.announced watch hwatch transaction hold happears
    · exact hleaves hcompletes watch hwatch transaction hnew happears
  | true =>
    rw [synchronizeMempool_live hcompletes]
    refine ⟨by rw [watches_matchCachedTransactions]; exact h.rows,
      by simpa using h.named_cacheAfter,?_⟩
    intro watch hwatch transaction hmem happears
    simp only [watches_matchCachedTransactions] at hwatch
    simp only [cachedTransactions_matchCachedTransactions] at hmem
    rcases hydratedFrom_cacheAfter.values transaction hmem with hold | hnew
    · exact Announced.grows (h.announced watch hwatch transaction hold happears)
        grows_matchCachedTransactions
    · exact announced_matchCachedTransactions hwatch hnew
        (hydratedFrom_cacheAfter.named transaction hnew) happears

theorem Resting.mem_ids (h : Resting registry detector) (id : String) :
    (registry.row id).id ∈ detector.watches.map (·.id) ↔ registry.row id ∈ detector.watches := by
  constructor
  · intro hmem
    obtain ⟨watch,hwatch,hid⟩ := List.mem_map.mp hmem
    have hrow := h.rows watch hwatch
    rw [hid,registry.id_row] at hrow
    rwa [hrow]
  · intro hmem
    exact List.mem_map.mpr ⟨_,hmem,rfl⟩

theorem Resting.refresh (h : Resting registry detector) {ids : List String}
    (hleaves : LeavesNoPair options registry (.refresh (some ids) answers) detector) :
    Resting registry (refreshWatches options (some (ids.map registry.row)) answers detector) := by
  obtain ⟨hknown,hfailed⟩ := hleaves
  let listed : Detector :=
    { detector with watchesByAddress := watchesByAddress (ids.map registry.row) }
  have hmem (watch : ActiveMempoolWatch) :
      watch ∈ listed.watches ↔ ∃ id ∈ ids,registry.row id = watch := by
    rw [Detector.watches,mem_watchesByAddress,List.mem_map]
  have hrows : ∀ watch ∈ listed.watches, registry.row watch.id = watch := by
    intro watch hwatch
    obtain ⟨id,-,rfl⟩ := (hmem watch).mp hwatch
    rw [registry.id_row]
  -- What is cached after a synchronization, for a watch that was listed before.
  have hold : ∀ id ∈ ids,registry.row id ∈ detector.watches →
      ∀ transaction ∈ (cacheAfter options answers detector.cachedTransactions).values,
      Appears (registry.row id) transaction → Announced detector (registry.row id) transaction := by
    intro id hid hlisted transaction htransaction happears
    rcases hydratedFrom_cacheAfter.values transaction htransaction with hcached | hnew
    · exact h.announced _ hlisted transaction hcached happears
    · exact hknown id hid hlisted transaction hnew happears
  unfold refreshWatches
  by_cases hempty : ids.map registry.row = []
  · simp only [hempty,if_true]
    have hnone : ∀ watch, watch ∉ listed.watches := by
      intro watch hwatch
      obtain ⟨id,hid,-⟩ := (hmem watch).mp hwatch
      rw [List.map_eq_nil_iff.mp hempty] at hid
      cases hid
    refine ⟨?_,h.named,?_⟩
    · intro watch hwatch
      exact absurd (by simpa only [listed,hempty] using hwatch) (hnone watch)
    · intro watch hwatch
      exact absurd (by simpa only [listed,hempty] using hwatch) (hnone watch)
  · simp only [hempty,if_false]
    cases hcompletes : completes options answers detector.cachedTransactions with
    | false =>
      rw [@synchronizeMempool_of_fails options answers .catchup listed hcompletes]
      refine ⟨hrows,h.named_cacheAfter,?_⟩
      intro watch hwatch transaction htransaction happears
      obtain ⟨id,hid,rfl⟩ := (hmem watch).mp hwatch
      by_cases hlisted : registry.row id ∈ detector.watches
      · exact hold id hid hlisted transaction htransaction happears
      · exact hfailed hcompletes id hid hlisted transaction htransaction happears
    | true =>
      rw [@synchronizeMempool_catchup options answers listed hcompletes]
      simp only [Bool.true_eq_false,if_false]
      refine ⟨by rw [watches_matchCachedTransactions]; exact hrows,
        by simpa using h.named_cacheAfter,?_⟩
      intro watch hwatch transaction htransaction happears
      simp only [watches_matchCachedTransactions] at hwatch
      simp only [cachedTransactions_matchCachedTransactions] at htransaction
      obtain ⟨id,hid,rfl⟩ := (hmem watch).mp hwatch
      by_cases hlisted : registry.row id ∈ detector.watches
      · exact Announced.grows (hold id hid hlisted transaction htransaction happears)
          grows_matchCachedTransactions
      · refine announced_matchCachedTransactions (List.mem_filter.mpr ⟨?_,?_⟩) htransaction
          (h.named_cacheAfter transaction htransaction) happears
        · exact List.mem_map.mpr ⟨id,hid,rfl⟩
        · simpa [h.mem_ids] using hlisted

theorem Resting.rawTransaction (h : Resting registry detector) (transaction : ReportedTransaction) :
    Resting registry (handleDecodedTransaction options transaction .live detector) := by
  unfold handleDecodedTransaction
  by_cases hname : trim transaction.txid = ""
  · simpa only [hname,if_true] using h
  have hcompact : trim (compactTransaction transaction).txid ≠ "" := by
    simpa only [compactTransaction,trim_trim] using hname
  simp only [hname,if_false]
  generalize hcached : (if (detector.cachedTransactions.get (trim transaction.txid)).isNone ∧
      detector.cachedTransactions.entries.length < options.cacheMaxTxids then
      { detector with cachedTransactions :=
          detector.cachedTransactions.set (trim transaction.txid) (compactTransaction transaction) }
    else detector) = stored
  have hstored : stored.watches = detector.watches ∧ stored.published = detector.published ∧
      ∀ cached ∈ stored.cachedTransactions.values,
        cached = compactTransaction transaction ∨ cached ∈ detector.cachedTransactions.values := by
    subst hcached
    split
    · exact ⟨rfl,rfl,fun _ hmem => mem_values_set hmem⟩
    · exact ⟨rfl,rfl,fun _ hmem => Or.inr hmem⟩
  obtain ⟨hwatches,hpublished,hvalues⟩ := hstored
  have hnamed : ∀ cached ∈ stored.cachedTransactions.values, trim cached.txid ≠ "" := by
    intro cached hmem
    rcases hvalues cached hmem with rfl | hbefore
    · exact hcompact
    · exact h.named cached hbefore
  have hgrows : Grows detector stored := ⟨[],by rw [hpublished,List.append_nil]⟩
  split
  · rename_i hnobody
    have hnone : stored.watches = [] := by rw [Detector.watches,OrderedMap.values,hnobody]; rfl
    exact ⟨by simp [hnone],hnamed,by simp [hnone]⟩
  · refine ⟨?_,?_,?_⟩
    · intro watch hwatch
      rw [Detector.watches,matchTransaction_fields.1] at hwatch
      exact h.rows watch (by rw [← hwatches]; exact hwatch)
    · simpa only [matchTransaction_fields.2] using hnamed
    · intro watch hwatch cached hmem happears
      rw [Detector.watches,matchTransaction_fields.1] at hwatch
      rw [matchTransaction_fields.2] at hmem
      rcases hvalues cached hmem with rfl | hbefore
      · exact announced_matchTransaction hwatch hcompact happears
      · have hlisted : watch ∈ detector.watches := by rw [← hwatches]; exact hwatch
        exact (h.announced watch hlisted cached hbefore happears).grows
          (hgrows.trans grows_matchTransaction)

theorem Resting.step {next : Work} {after : Detector} (h : Resting registry detector)
    (hleaves : LeavesNoPair options registry next detector)
    (hstep : step options registry next detector = some after) : Resting registry after := by
  cases hstep
  cases next with
  | refresh listed answers =>
    cases listed with
    | none => exact h
    | some ids => exact h.refresh hleaves
  | poll answers => exact h.poll hleaves
  | rawTransaction transaction => exact h.rawTransaction transaction

theorem resting_run {works : List Work} {after : Detector}
    (hleaves : Machine.Along (step options registry) (LeavesNoPair options registry) works
      startedDetector)
    (h : Machine.run (step options registry) works startedDetector = some after) :
    Resting registry after :=
  Machine.run_invariant_of (fun _ _ _ hrest hnext hstep => hrest.step hnext hstep)
    ⟨by simp [startedDetector,Detector.watches,OrderedMap.values,OrderedMap.empty],
      by simp [startedDetector,OrderedMap.values,OrderedMap.empty],
      by simp [startedDetector,OrderedMap.values,OrderedMap.empty]⟩ hleaves.split h

/-- The snapshot of the synchronization fits in the cache and is hydrated, the transaction with
the rest of it. -/
def Hydrates (options : DetectorOptions) (answers : SyncAnswers) (detector : Detector)
    (transaction : CachedMempoolTransaction) : Prop :=
  ∃ txids next fresh, answers.dogecoinConfig = true ∧ answers.mempoolSnapshot = some txids ∧
    txids.length ≤ options.cacheMaxTxids ∧
    hydrate options answers txids detector.cachedTransactions = some (next,fresh) ∧
    transaction ∈ next.values

theorem Hydrates.mem_cacheAfter {transaction : CachedMempoolTransaction}
    (h : Hydrates options answers detector transaction) :
    transaction ∈ (cacheAfter options answers detector.cachedTransactions).values := by
  obtain ⟨txids,next,fresh,hconfig,hsnapshot,hlimit,hhydrate,hmem⟩ := h
  have hhydration : hydration options answers detector.cachedTransactions = some (next,fresh) := by
    unfold hydration
    rw [hconfig,hsnapshot]
    simp only [Bool.true_eq_false,if_false,Option.bind_some]
    rw [if_neg (by omega),hhydrate]
  rwa [cacheAfter,hhydration]

/-- Whichever way a synchronization goes, a work ends with the cache that it took in. -/
theorem cachedTransactions_synchronizeMempool (source : MempoolAppearSource) :
    (synchronizeMempool options source answers detector).1.cachedTransactions =
      cacheAfter options answers detector.cachedTransactions := by
  rw [synchronizeMempool_eq]
  simp only
  split <;> simp

theorem cachedTransactions_refreshWatches {watches : List ActiveMempoolWatch}
    (h : watches ≠ []) :
    (refreshWatches options (some watches) answers detector).cachedTransactions =
      cacheAfter options answers detector.cachedTransactions := by
  unfold refreshWatches
  simp only [h,if_false]
  split <;> simp [cachedTransactions_synchronizeMempool]

/-- In a run whose works leave no pair behind, a transaction that a synchronization hydrates for a
listed watch has been announced to it when the synchronization ends. -/
theorem appearances_published {works : List Work} {last : Work} {before : Detector}
    {watch : ActiveMempoolWatch} {transaction : CachedMempoolTransaction}
    (hleaves : Machine.Along (step options registry) (LeavesNoPair options registry)
      (works ++ [last]) startedDetector)
    (hrun : Machine.run (step options registry) works startedDetector = some before)
    (hlast : last = .poll answers ∨ ∃ ids, last = .refresh (some ids) answers)
    (hhydrates : Hydrates options answers before transaction)
    (hwatch : watch ∈ (work options registry last before).watches)
    (happears : Appears watch transaction) :
    Announced (work options registry last before) watch transaction := by
  have hafter : Machine.run (step options registry) (works ++ [last]) startedDetector =
      some (work options registry last before) := by
    rw [Machine.run_snoc,hrun]
    rfl
  refine (resting_run hleaves hafter).announced watch hwatch transaction ?_ happears
  rcases hlast with rfl | ⟨ids,rfl⟩
  · simp only [work,cachedTransactions_synchronizeMempool]
    exact hhydrates.mem_cacheAfter
  · have hsome : ids.map registry.row ≠ [] := by
      intro hnone
      have hempty : (work options registry (.refresh (some ids) answers) before).watches = [] := by
        simp [work,refreshWatches,hnone,Detector.watches,watchesByAddress,Grouping.accumulate,
          OrderedMap.values,OrderedMap.empty]
      rw [hempty] at hwatch
      cases hwatch
    simp only [work,Option.map_some,cachedTransactions_refreshWatches hsome]
    exact hhydrates.mem_cacheAfter

end Works

def sampleOptions : DetectorOptions := ⟨100,"detector",10⟩

def sampleRegistry : Registry :=
  ⟨fun id => ⟨id,"key",if id = "alice-watch" then "alice" else "bob",none⟩,fun _ => rfl⟩

def sampleOutput : ReportedVout :=
  ⟨none,some ⟨⟨1,1,0,by norm_num,by norm_num,by norm_num,by norm_num⟩,by norm_num⟩,"alice"⟩

/-- The node has these transactions, each of which pays to the one address. -/
def sampleAnswers (txids : List String) : SyncAnswers :=
  ⟨true,some txids,fun batch => some (batch.map fun txid => some ⟨txid,[sampleOutput]⟩),
    [⟨some none,0,some true⟩]⟩

def samplePayment : CachedMempoolTransaction := ⟨"payment",[sampleOutput]⟩

/-- The payment reaches the node after the first watch is listed, and the registration of a second
watch takes it into the cache; no later poll announces it to the first. -/
theorem appearance_missed_by_registration :
    ∃ registered polled before after,
      registered = Work.refresh (some ["alice-watch","bob-watch"]) (sampleAnswers ["payment"]) ∧
      polled = Work.poll (sampleAnswers ["payment"]) ∧
      Machine.run (step sampleOptions sampleRegistry)
        [.refresh (some ["alice-watch"]) (sampleAnswers [])] startedDetector = some before ∧
      sampleRegistry.row "alice-watch" ∈ before.watches ∧
      Hydrates sampleOptions (sampleAnswers ["payment"]) before samplePayment ∧
      Appears (sampleRegistry.row "alice-watch") samplePayment ∧
      completes sampleOptions (sampleAnswers ["payment"]) before.cachedTransactions = true ∧
      Machine.run (step sampleOptions sampleRegistry) [registered,polled,polled] before =
        some after ∧
      sampleRegistry.row "alice-watch" ∈ after.watches ∧ after.published = [] := by
  refine ⟨_,_,_,_,rfl,rfl,rfl,?_,?_,?_,?_,rfl,?_,?_⟩
  · decide +kernel
  · refine ⟨["payment"],_,_,rfl,rfl,by decide,rfl,?_⟩
    decide +kernel
  · show Option.isSome _ = true
    decide +kernel
  · decide +kernel
  · decide +kernel
  · decide +kernel

/-- A payment that a poll finds first is announced. -/
theorem appearances_published_polled :
    ∃ before, Machine.run (step sampleOptions sampleRegistry)
        [.refresh (some ["alice-watch"]) (sampleAnswers [])] startedDetector = some before ∧
      Announced (work sampleOptions sampleRegistry (.poll (sampleAnswers ["payment"])) before)
        (sampleRegistry.row "alice-watch") samplePayment := by
  refine ⟨_,rfl,@appearances_published sampleOptions sampleRegistry (sampleAnswers ["payment"])
    [.refresh (some ["alice-watch"]) (sampleAnswers [])] (.poll (sampleAnswers ["payment"])) _ _ _
    ?_ rfl (Or.inl rfl) ?_ ?_ ?_⟩
  · refine ⟨⟨?_,?_⟩,fun before hbefore => ⟨?_,fun _ _ => trivial⟩⟩
    · intro id _ hlisted
      cases hlisted
    · intro hfails
      exact absurd hfails (by decide +kernel)
    · obtain rfl := Option.some.inj hbefore
      intro hfails
      exact absurd hfails (by decide +kernel)
  · refine ⟨["payment"],_,_,rfl,rfl,by decide,rfl,?_⟩
    decide +kernel
  · decide +kernel
  · show Option.isSome _ = true
    decide +kernel

end OnlyDoge.MempoolAppear
