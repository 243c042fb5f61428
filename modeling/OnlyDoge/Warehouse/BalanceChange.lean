import OnlyDoge.Warehouse.Repair
set_option autoImplicit false

/-! What any window, valid or not, does to the balance tables. -/

namespace OnlyDoge
open Job

namespace Warehouse

/-- The output behind a key of a window: one that the window creates, the one of the current
row, or, where no row is left, the created output from below the window. -/
def windowOutput (w : Warehouse) (pending : List CoreDogecoinBlockApplication) (k : OutputKey) :
    Option ProjectionUtxoOutput :=
  ((coreCreatedOutputsByKey pending).get k).or
    (((w.latestUtxoRow k).map (·.output)).or
      (w.coreHistoricalUtxoOutput (coreWindowStart pending - 1) k))

def spentWeight (w : Warehouse) (pending : List CoreDogecoinBlockApplication) (address : String)
    (s : CoreDogecoinSpend) : Int :=
  (w.windowOutput pending s.outputKey).elim 0 (addressWeight address)

/-- What a window pays to an address less what it spends from it. -/
def windowAmount (w : Warehouse) (pending : List CoreDogecoinBlockApplication)
    (address : String) : Int :=
  ((pending.flatMap (·.utxoCreates)).map (addressWeight address)).sum -
    ((pending.flatMap (·.utxoSpends)).map (w.spentWeight pending address)).sum

end Warehouse

/-- The outputs of a mutation weigh what `lookup` gives for their keys. -/
structure Resolved (lookup : OutputKey → Option ProjectionUtxoOutput)
    (m : CoreCurrentStateMutation) : Prop where
  output : ∀ k o, m.nextOutputs.get k = some o →
    ∃ c, lookup k = some c ∧ ∀ a, addressWeight a c = addressWeight a o
  keyed : KeyedDeltas m.balanceDeltas

section Mutation
variable {lookup : OutputKey → Option ProjectionUtxoOutput} {prevouts : OutputMap}
variable {m m' : CoreCurrentStateMutation}

theorem deltaAmount_create (m : CoreCurrentStateMutation) (c : ProjectionUtxoOutput) (a : String) :
    deltaAmount (applyCoreCurrentStateCreate m c).balanceDeltas a =
      deltaAmount m.balanceDeltas a + addressWeight a c := by
  unfold applyCoreCurrentStateCreate addressWeight
  rw [deltaAmount_add]

theorem resolved_creates {cs : List ProjectionUtxoOutput} (h : Resolved lookup m)
    (hcs : ∀ c ∈ cs, lookup c.outputKey = some c) :
    Resolved lookup (cs.foldl applyCoreCurrentStateCreate m) ∧
      ∀ a, deltaAmount (cs.foldl applyCoreCurrentStateCreate m).balanceDeltas a =
        deltaAmount m.balanceDeltas a + (cs.map (addressWeight a)).sum := by
  induction cs generalizing m with
  | nil => exact ⟨h,fun a => by simp⟩
  | cons c cs ih =>
    have hc := hcs c List.mem_cons_self
    have hstep : Resolved lookup (applyCoreCurrentStateCreate m c) := by
      refine ⟨fun k o ho => ?_,keyedDeltas_add h.keyed c _⟩
      simp only [applyCoreCurrentStateCreate,OrderedMap.get_set] at ho
      split at ho
      · cases ho
        subst_vars
        exact ⟨c,hc,fun _ => rfl⟩
      · exact h.output k o ho
    obtain ⟨hres,hsum⟩ := ih hstep (fun d hd => hcs d (List.mem_cons_of_mem _ hd))
    refine ⟨hres,fun a => ?_⟩
    rw [List.foldl_cons,hsum,deltaAmount_create,List.map_cons,List.sum_cons]
    omega

theorem resolved_spends {ss : List CoreDogecoinSpend} (h : Resolved lookup m)
    (hprev : ∀ k c, prevouts.get k = some c →
      ∃ d, lookup k = some d ∧ ∀ a, addressWeight a d = addressWeight a c)
    (hm : ss.foldlM (applyCoreCurrentStateSpend prevouts) m = .ok m') :
    Resolved lookup m' ∧ ∀ a, deltaAmount m'.balanceDeltas a = deltaAmount m.balanceDeltas a -
      (ss.map (fun s => (lookup s.outputKey).elim 0 (addressWeight a))).sum := by
  induction ss generalizing m with
  | nil =>
    cases hm
    exact ⟨h,fun a => by simp⟩
  | cons s ss ih =>
    rw [List.foldlM_cons,bind_eq_ok] at hm
    obtain ⟨m1,h1,hm⟩ := hm
    obtain ⟨current,hcurrent,h1⟩ := bind_eq_ok.mp h1
    cases h1
    -- the spent output weighs the same wherever it was found
    have hlookup : ∃ d, lookup s.outputKey = some d ∧
        ∀ a, addressWeight a d = addressWeight a current := by
      unfold currentCoreOutput at hcurrent
      cases hg : m.nextOutputs.get s.outputKey with
      | some o =>
        rw [hg] at hcurrent
        cases hcurrent
        exact h.output _ _ hg
      | none =>
        rw [hg] at hcurrent
        cases hp : prevouts.get s.outputKey with
        | none =>
          rw [hp] at hcurrent
          cases hcurrent
        | some c =>
          rw [hp] at hcurrent
          cases hcurrent
          exact hprev _ _ hp
    obtain ⟨d,hd,hweight⟩ := hlookup
    have hstep : Resolved lookup ⟨addCoreBalanceDelta m.balanceDeltas current (-current.valueBase),
        m.nextOutputs.set s.outputKey (spentCoreOutput current s)⟩ := by
      refine ⟨fun k o ho => ?_,keyedDeltas_add h.keyed current _⟩
      simp only [OrderedMap.get_set] at ho
      split at ho
      · cases ho
        subst_vars
        exact ⟨d,hd,hweight⟩
      · exact h.output k o ho
    obtain ⟨hres,hsum⟩ := ih hstep hm
    refine ⟨hres,fun a => ?_⟩
    rw [hsum,deltaAmount_add,List.map_cons,List.sum_cons,hd,Option.elim_some,hweight]
    unfold addressWeight
    split <;> omega

theorem resolved_mutations {pending : List CoreDogecoinBlockApplication} (h : Resolved lookup m)
    (hcs : ∀ c ∈ pending.flatMap (·.utxoCreates), lookup c.outputKey = some c)
    (hprev : ∀ k c, prevouts.get k = some c →
      ∃ d, lookup k = some d ∧ ∀ a, addressWeight a d = addressWeight a c)
    (hm : pending.foldlM (applyCoreCurrentStateApplication prevouts) m = .ok m') :
    Resolved lookup m' ∧ ∀ a, deltaAmount m'.balanceDeltas a = deltaAmount m.balanceDeltas a +
      ((pending.flatMap (·.utxoCreates)).map (addressWeight a)).sum -
      ((pending.flatMap (·.utxoSpends)).map
        (fun s => (lookup s.outputKey).elim 0 (addressWeight a))).sum := by
  induction pending generalizing m with
  | nil =>
    cases hm
    exact ⟨h,fun a => by simp⟩
  | cons application pending ih =>
    rw [List.foldlM_cons,bind_eq_ok] at hm
    obtain ⟨m1,h1,hm⟩ := hm
    simp only [List.flatMap_cons,List.forall_mem_append] at hcs
    obtain ⟨hc,hsumc⟩ := resolved_creates h hcs.1
    obtain ⟨hs,hsums⟩ := resolved_spends hc hprev h1
    obtain ⟨hres,hsum⟩ := ih hs hcs.2 hm
    refine ⟨hres,fun a => ?_⟩
    rw [hsum,hsums,hsumc]
    simp only [List.flatMap_cons,List.map_append,List.sum_append]
    omega

end Mutation

theorem assertUniqueCoreKeys_nodup {message : String} {seen keys seen' : List OutputKey}
    (h : keys.foldlM (assertUniqueCoreKey message) seen = .ok seen') (hseen : seen.Nodup) :
    seen' = seen ++ keys ∧ seen'.Nodup := by
  induction keys generalizing seen with
  | nil =>
    cases h
    exact ⟨by simp,hseen⟩
  | cons k keys ih =>
    rw [List.foldlM_cons,bind_eq_ok] at h
    obtain ⟨next,hnext,h⟩ := h
    unfold assertUniqueCoreKey at hnext
    split at hnext
    · cases hnext
    · cases hnext
      obtain ⟨heq,hnodup⟩ := ih h ((nodup_append_singleton hseen).mpr ‹_›)
      exact ⟨by simpa using heq,hnodup⟩

theorem assertCoreShapes_nodup {pending : List CoreDogecoinBlockApplication}
    {state state' : CoreWindowShapeState}
    (h : pending.foldlM assertCoreApplicationShape state = .ok state')
    (hstate : state.created.Nodup) :
    (state.created ++ (pending.flatMap (·.utxoCreates)).map (·.outputKey)).Nodup := by
  induction pending generalizing state with
  | nil => simpa using hstate
  | cons application pending ih =>
    rw [List.foldlM_cons,bind_eq_ok] at h
    obtain ⟨next,hnext,h⟩ := h
    unfold assertCoreApplicationShape at hnext
    simp only [bind_eq_ok] at hnext
    obtain ⟨-,-,-,-,created,hcreated,spent,-,hnext⟩ := hnext
    cases hnext
    obtain ⟨rfl,hnodup⟩ := assertUniqueCoreKeys_nodup hcreated hstate
    have := ih h hnodup
    simpa using this

theorem createdKeys_nodup {pending : List CoreDogecoinBlockApplication}
    {state : CoreWindowShapeState} (h : assertCoreWindowShape pending = .ok state) :
    ((pending.flatMap (·.utxoCreates)).map (·.outputKey)).Nodup :=
  assertCoreShapes_nodup h List.nodup_nil

section WindowOutput
variable {w : Warehouse} {pending : List CoreDogecoinBlockApplication}

theorem windowOutput_create
    (h : ((pending.flatMap (·.utxoCreates)).map (·.outputKey)).Nodup)
    {c : ProjectionUtxoOutput} (hc : c ∈ pending.flatMap (·.utxoCreates)) :
    w.windowOutput pending c.outputKey = some c := by
  have hentries : (((pending.flatMap (·.utxoCreates)).map
      (fun output => (output.outputKey,output))).map Prod.fst).Nodup := by
    rw [List.map_map]
    exact h
  have hget : (coreCreatedOutputsByKey pending).get c.outputKey = some c :=
    (OrderedMap.get_ofEntries hentries).mpr (List.mem_map_of_mem hc)
  unfold Warehouse.windowOutput
  rw [hget]
  rfl

theorem windowOutput_external {k : OutputKey}
    (hk : k ∉ (pending.flatMap (·.utxoCreates)).map (·.outputKey)) :
    w.windowOutput pending k = ((w.latestUtxoRow k).map (·.output)).or
      (w.coreHistoricalUtxoOutput (coreWindowStart pending - 1) k) := by
  unfold Warehouse.windowOutput coreCreatedOutputsByKey
  rw [OrderedMap.get_ofEntries_eq_none.mpr,Option.none_or]
  intro e he hek
  obtain ⟨c,hc,rfl⟩ := List.mem_map.mp he
  exact hk (List.mem_map.mpr ⟨c,hc,hek⟩)

theorem mem_externalCoreSpendKeys {k : OutputKey} : k ∈ externalCoreSpendKeys pending ↔
    k ∈ (pending.flatMap (·.utxoSpends)).map (·.outputKey) ∧
      k ∉ (pending.flatMap (·.utxoCreates)).map (·.outputKey) := by
  unfold externalCoreSpendKeys
  simp only [OrderedMap.mem_distinct,List.mem_filter,decide_eq_true_eq]

theorem coreWindowPrevouts_eq_some {context : CoreDogecoinApplyContext} {k : OutputKey}
    {c : ProjectionUtxoOutput} (h : (coreWindowPrevouts pending context w).get k = some c) :
    k ∈ externalCoreSpendKeys pending ∧ ∃ row, w.latestUtxoRow k = some row ∧ row.output = c := by
  unfold coreWindowPrevouts at h
  split at h
  · obtain ⟨j,hj,hjc⟩ := List.mem_filterMap.mp (OrderedMap.get_ofEntries_of_mem h)
    obtain ⟨row,hrow,hpair⟩ := Option.map_eq_some_iff.mp hjc
    cases hpair
    exact ⟨hj,row,hrow,rfl⟩
  · cases h

/-- The rows of `t` that a window spends weigh what the window makes of the keys on `w`. -/
def LoadsAs (w t : Warehouse) (pending : List CoreDogecoinBlockApplication) : Prop :=
  ∀ k ∈ externalCoreSpendKeys pending, ∀ row, t.latestUtxoRow k = some row →
    ∃ d, w.windowOutput pending k = some d ∧ ∀ a, addressWeight a d = addressWeight a row.output

theorem loadsAs_self : LoadsAs w w pending := by
  intro k hk row hrow
  rw [windowOutput_external (mem_externalCoreSpendKeys.mp hk).2,hrow]
  exact ⟨row.output,rfl,fun _ => rfl⟩

end WindowOutput

def SameBalanceTables (w t : Warehouse) : Prop :=
  t.balances = w.balances ∧ t.analyticsBalances = w.analyticsBalances

/-- Both tables get the same rows. -/
structure AddsBalanceRows (w t : Warehouse) (rows : List VersionedBalanceRow) : Prop where
  balances : t.balances = w.balances ++ rows
  analytics : t.analyticsBalances = w.analyticsBalances ++ rows

/-- The rows move the balances of their addresses by the amounts of the window, and every
address with an amount has a row. -/
structure RowsOfWindow (w : Warehouse) (pending : List CoreDogecoinBlockApplication)
    (rows : List VersionedBalanceRow) : Prop where
  native : ∀ row ∈ rows, row.assetAddress = ""
  balance : ∀ row ∈ rows,
    row.balance = w.addressBalance row.address + w.windowAmount pending row.address
  touched : ∀ a, w.windowAmount pending a ≠ 0 → ∃ row ∈ rows, row.address = a

/-- A window with the update off writes no balance row. -/
def WritesBalances (w t : Warehouse) (pending : List CoreDogecoinBlockApplication)
    (context : CoreDogecoinApplyContext) : Prop :=
  ∃ rows, AddsBalanceRows w t rows ∧
    if shouldUpdateCoreCurrentState context then RowsOfWindow w pending rows else rows = []

section Rows
variable {w t : Warehouse} {pending : List CoreDogecoinBlockApplication}
variable {context : CoreDogecoinApplyContext}

theorem addressBalance_congr (h : t.balances = w.balances) (a : String) :
    t.addressBalance a = w.addressBalance a := by
  unfold Warehouse.addressBalance Warehouse.latestBalanceRow
  rw [h]

theorem rowsOfWindow_mutation {m : CoreCurrentStateMutation} {windowEnd : Nat}
    (ht : t.balances = w.balances) (hkeyed : KeyedDeltas m.balanceDeltas)
    (hamount : ∀ a, deltaAmount m.balanceDeltas a = w.windowAmount pending a) :
    RowsOfWindow w pending (windowRows t m windowEnd).nextBalances := by
  unfold windowRows
  refine ⟨?_,?_,?_⟩
  · intro row hrow
    obtain ⟨⟨k,delta⟩,he,rfl⟩ := List.mem_map.mp hrow
    exact (hkeyed k delta (OrderedMap.get_eq_some.mpr he)).2
  · intro row hrow
    obtain ⟨⟨k,delta⟩,he,rfl⟩ := List.mem_map.mp hrow
    have hget := OrderedMap.get_eq_some.mpr he
    obtain ⟨rfl,-⟩ := hkeyed k delta hget
    have hold := Warehouse.coreCurrentBalanceAmount_balancesFor (w := t) hget
    have hdelta : deltaAmount m.balanceDeltas delta.address = delta.amount := by
      unfold deltaAmount
      rw [hget]
    simp only [nextBalanceRow]
    rw [hold,addressBalance_congr ht,← hamount,hdelta]
  · intro a ha
    rw [← hamount] at ha
    unfold deltaAmount at ha
    cases hg : m.balanceDeltas.get (balanceKey a "") with
    | none => simp [hg] at ha
    | some delta =>
      obtain ⟨hk,-⟩ := hkeyed _ delta hg
      refine ⟨_,List.mem_map_of_mem (OrderedMap.get_eq_some.mp hg),?_⟩
      exact ((Prod.mk.inj hk).1).symm

theorem addsBalanceRows_nil (h : t.balances = w.balances)
    (ha : t.analyticsBalances = w.analyticsBalances) : AddsBalanceRows w t [] :=
  ⟨by rw [List.append_nil,h],by rw [List.append_nil,ha]⟩

theorem coreWindowCurrentState_some {last : CoreDogecoinBlockApplication} {prevouts : OutputMap}
    (hup : shouldUpdateCoreCurrentState context) (hlast : pending.getLast? = some last) :
    coreWindowCurrentState pending context prevouts w =
      (coreCurrentStateWindow pending last prevouts w).map some := by
  unfold coreWindowCurrentState
  rw [hup,hlast]

theorem map_eq_ok {ε α β : Type} {x : Except ε α} {f : α → β} {b : β} (h : x.map f = .ok b) :
    ∃ a, x = .ok a ∧ f a = b := by
  cases x with
  | error e => cases h
  | ok a => exact ⟨a,rfl,Except.ok.inj h⟩

/-- Wherever the rows it spends come from, a window that is written moves the balances by its
own amounts. -/
theorem wp_insertPendingCoreWindow_balances (htables : SameBalanceTables w t)
    (hnodup : ((pending.flatMap (·.utxoCreates)).map (·.outputKey)).Nodup)
    (hloads : LoadsAs w t pending) :
    wp (insertPendingCoreWindow pending context) (fun _ t' => WritesBalances w t' pending context)
      (FailsWith (fun _ t' => t' = t)) Anywhere t := by
  obtain ⟨hbalances,hanalytics⟩ := htables
  refine wp_insertPendingCoreWindow (fun cs hcs => ?_) (fun e _ => rfl)
  by_cases hup : shouldUpdateCoreCurrentState context = true
  · cases hlast : pending.getLast? with
    | none =>
      obtain rfl := List.getLast?_eq_none_iff.mp hlast
      unfold coreWindowCurrentState at hcs
      rw [hup] at hcs
      cases hcs
      refine ⟨[],addsBalanceRows_nil hbalances hanalytics,?_⟩
      rw [if_pos hup]
      exact ⟨by simp,by simp,fun a ha => absurd rfl ha⟩
    | some last =>
      rw [coreWindowCurrentState_some hup hlast] at hcs
      obtain ⟨win,hwin,rfl⟩ := map_eq_ok hcs
      obtain ⟨m,hm,rfl⟩ := coreCurrentStateWindow_mutation hwin
      have hstart : Resolved (w.windowOutput pending) createCoreCurrentStateMutation :=
        ⟨fun k o ho => (by cases ho),fun key delta hd => (by cases hd)⟩
      obtain ⟨hres,hamount⟩ := resolved_mutations hstart
        (fun c hc => windowOutput_create hnodup hc) (fun k c hc => by
          obtain ⟨hk,row,hrow,rfl⟩ := coreWindowPrevouts_eq_some hc
          exact hloads k hk row hrow) hm
      refine ⟨(windowRows t m last.blockHeight).nextBalances,⟨?_,?_⟩,?_⟩
      · rw [← hbalances]
        rfl
      · rw [← hanalytics]
        rfl
      · rw [if_pos hup]
        refine rowsOfWindow_mutation hbalances hres.keyed (fun a => ?_)
        have hzero : deltaAmount createCoreCurrentStateMutation.balanceDeltas a = 0 := rfl
        rw [hamount,hzero,Int.zero_add]
        rfl
  · unfold coreWindowCurrentState at hcs
    rw [Bool.not_eq_true] at hup
    rw [hup] at hcs
    cases hcs
    refine ⟨[],addsBalanceRows_nil hbalances hanalytics,?_⟩
    simp [hup]

theorem coreHistoricalUtxoOutput_cutTail (w : Warehouse) (height : Nat) (k : OutputKey) :
    (w.cutTail height).coreHistoricalUtxoOutput (height - 1) k =
      w.coreHistoricalUtxoOutput (height - 1) k := by
  have hcut : ((w.cutTail height).upTo (height - 1)).coreUtxoCreates =
        (w.upTo (height - 1)).coreUtxoCreates ∧
      ((w.cutTail height).upTo (height - 1)).coreUtxoSpends =
        (w.upTo (height - 1)).coreUtxoSpends := by
    constructor
    · simp only [Warehouse.upTo,Warehouse.cutTail,List.filter_filter]
      refine List.filter_congr (fun c _ => ?_)
      simp only [Bool.and_eq_left_iff_imp,decide_eq_true_eq]
      omega
    · simp only [Warehouse.upTo,Warehouse.cutTail,List.filter_filter]
      refine List.filter_congr (fun s _ => ?_)
      simp only [Bool.and_eq_left_iff_imp,decide_eq_true_eq]
      omega
  unfold Warehouse.coreHistoricalUtxoOutput Warehouse.latestCoreCreate Warehouse.latestCoreSpend
  rw [hcut.1,hcut.2]

theorem coreHistoricalUtxoOutput_key {height : Int} {k : OutputKey} {o : ProjectionUtxoOutput}
    (h : w.coreHistoricalUtxoOutput height k = some o) : o.outputKey = k := by
  obtain ⟨created,hcreated,rfl⟩ := Option.map_eq_some_iff.mp h
  exact (Replacing.latest_spec hcreated).2.1

/-- The rows that a repair writes are the created outputs of keys that had no row. -/
def RepairsRows (w t : Warehouse) (pending : List CoreDogecoinBlockApplication) : Prop :=
  SameBalanceTables w t ∧ ∀ k row, t.latestUtxoRow k = some row →
    w.latestUtxoRow k = some row ∨ (w.latestUtxoRow k = none ∧
      ∃ o, w.coreHistoricalUtxoOutput (coreWindowStart pending - 1) k = some o ∧
        row = coreCurrentRepairRow o)

theorem repairsRows_self : RepairsRows w w pending := ⟨⟨rfl,rfl⟩,fun _ _ h => Or.inl h⟩

theorem repairsRows_insert {keys : List OutputKey} (hkeys : ∀ k ∈ keys, w.latestUtxoRow k = none) :
    RepairsRows w (w.insertCurrentUtxos ((w.queryCoreHistoricalUtxoOutputRows keys
      (coreWindowStart pending - 1)).map coreCurrentRepairRow)) pending := by
  refine ⟨⟨rfl,rfl⟩,fun k row hrow => ?_⟩
  unfold Warehouse.latestUtxoRow Warehouse.insertCurrentUtxos at hrow
  rw [Replacing.latest_append] at hrow
  cases hnew : Replacing.latest UtxoRow.key UtxoRow.version
      ((w.queryCoreHistoricalUtxoOutputRows keys (coreWindowStart pending - 1)).map
        coreCurrentRepairRow) k with
  | none =>
    rw [hnew,Replacing.newer_none_right] at hrow
    exact Or.inl hrow
  | some new =>
    obtain ⟨hmem,hkey,-⟩ := Replacing.latest_spec hnew
    obtain ⟨o,ho,rfl⟩ := List.mem_map.mp hmem
    unfold Warehouse.queryCoreHistoricalUtxoOutputRows at ho
    split at ho
    · cases ho
    · obtain ⟨j,hj,ho⟩ := List.mem_filterMap.mp ho
      have hjk : j = k := (coreHistoricalUtxoOutput_key ho).symm.trans hkey
      subst hjk
      have hnone := hkeys j (OrderedMap.mem_distinct.mp hj)
      have hold : Replacing.latest UtxoRow.key UtxoRow.version w.currentUtxos j = none := hnone
      rw [hnew,hold,Replacing.newer_none_left] at hrow
      cases hrow
      exact Or.inr ⟨hnone,o,ho,rfl⟩

theorem mem_missingUtxoOutputKeys {keys : List OutputKey} {k : OutputKey}
    (h : k ∈ missingUtxoOutputKeys keys (w.getCurrentUtxoOutputMap keys)) :
    w.latestUtxoRow k = none := by
  obtain ⟨hk,hnone⟩ := List.mem_filter.mp h
  rw [Option.isNone_iff_eq_none] at hnone
  cases hrow : w.latestUtxoRow k with
  | none => rfl
  | some row =>
    have hmem := (OrderedMap.get_ofEntries_eq_none.mp hnone) (k,row.output)
      (List.mem_filterMap.mpr ⟨k,hk,by rw [hrow]; rfl⟩)
    exact absurd rfl hmem

theorem wp_repairMissing_rows :
    wp (repairMissingCoreCurrentPrevouts pending) (fun _ t => RepairsRows w t pending)
      (FailsWith (fun _ t => SameBalanceTables w t)) Anywhere w := by
  refine wp_bind (wp_read ?_ trivial trivial)
  refine wp_ite (fun _ => wp_pure repairsRows_self) (fun _ => wp_bind (wp_read ?_ trivial trivial))
  refine wp_bind (wp_ofExcept (fun _ _ => ?_) (fun _ _ => ⟨rfl,rfl⟩))
  exact wp_insertRows (by simp [Warehouse.insertCurrentUtxos])
    (repairsRows_insert (fun k hk => mem_missingUtxoOutputKeys hk)) trivial trivial trivial

theorem loadsAs_repaired {height : Nat} (hstart : coreWindowStart pending = height)
    (h : RepairsRows (w.cutTail height) t pending) : LoadsAs w t pending := by
  intro k hk row hrow
  rw [windowOutput_external (mem_externalCoreSpendKeys.mp hk).2]
  rcases h.2 k row hrow with hold | ⟨hnone,o,ho,rfl⟩
  · have hold' : w.latestUtxoRow k = some row := hold
    rw [hold']
    exact ⟨row.output,rfl,fun _ => rfl⟩
  · have hnone' : w.latestUtxoRow k = none := hnone
    rw [hstart,coreHistoricalUtxoOutput_cutTail] at ho
    rw [hnone',hstart,ho]
    exact ⟨o,rfl,fun _ => rfl⟩

/-- The recovery ends with the rows of the window, or with the balances as they were. -/
theorem wp_insertPendingCoreWindowWithRecovery_balances (hne : pending ≠ [])
    (hnodup : ((pending.flatMap (·.utxoCreates)).map (·.outputKey)).Nodup) :
    wp (insertPendingCoreWindowWithRecovery pending context)
      (fun _ t => WritesBalances w t pending context)
      (FailsWith (fun _ t => SameBalanceTables w t)) Anywhere w := by
  refine wp_catchThrown (wp_mono (wp_insertPendingCoreWindow_balances ⟨rfl,rfl⟩ hnodup loadsAs_self)
    (fun _ _ h => h) ?_ (fun _ h => h))
  intro e t ht
  cases e with
  | fault => trivial
  | thrown e =>
    obtain rfl : t = w := ht
    cases e with
    | error message => exact wp_throw ⟨rfl,rfl⟩
    | missingCoreCurrentPrevout key =>
      refine wp_ite (fun _ => ?_) (fun _ => wp_throw ⟨rfl,rfl⟩)
      cases pending with
      | nil => exact absurd rfl hne
      | cons first rest =>
        have hcut : SameBalanceTables t (t.cutTail first.blockHeight) := ⟨rfl,rfl⟩
        refine wp_bind (wp_bind (wp_deleteCoreDogecoinTail ?_ (fun _ _ _ => ⟨trivial,trivial⟩)))
        refine wp_mono (wp_repairMissing_rows (w := t.cutTail first.blockHeight)) ?_ ?_
          (fun _ h => h)
        · intro _ t' ht'
          have htables : SameBalanceTables t t' := ht'.1
          refine wp_onFailure (wp_mono (wp_insertPendingCoreWindow_balances htables hnodup
            (loadsAs_repaired rfl ht')) (fun _ _ h => h) ?_ (fun _ h => h))
          intro e t'' he
          refine wp_deleteCoreDogecoinTail ?_ (fun _ _ _ => ⟨trivial,trivial⟩)
          cases e with
          | fault => trivial
          | thrown e =>
            obtain rfl : t'' = t' := he
            exact htables
        · intro e t' he
          cases e with
          | fault => trivial
          | thrown e => exact he

end Rows

section Apply
variable {w : Warehouse} {input : List CoreDogecoinBlockApplication}
variable {boundaries : Warehouse → List String} {context : CoreDogecoinApplyContext}

/-- The warehouse and the applications that a window goes on with. -/
def Warehouse.pendingWindow (boundaries : Warehouse → List String) (w : Warehouse)
    (input : List CoreDogecoinBlockApplication) (context : CoreDogecoinApplyContext) :
    Except CoreError (Warehouse × List CoreDogecoinBlockApplication) :=
  let processedBlocks := w.getCoreProcessedBlocks (input.map (·.blockHeight))
  match firstCoreReorgHeight input processedBlocks with
  | some reorgHeight => .ok (w.rewound boundaries reorgHeight context,
      input.filter (fun application => reorgHeight ≤ application.blockHeight))
  | none => (filterPendingCoreApplications processedBlocks input).map (fun pending => (w,pending))

theorem wp_pendingCoreWindowApplications_pending
    {Q : List CoreDogecoinBlockApplication → Warehouse → Prop} {P : CoreError → Warehouse → Prop}
    (hok : ∀ v pending, w.pendingWindow boundaries input context = .ok (v,pending) → Q pending v)
    (herror : ∀ e, P e w) :
    wp (pendingCoreWindowApplications boundaries input context) Q (FailsWith P) Anywhere w := by
  unfold Warehouse.pendingWindow at hok
  refine wp_bind (wp_read ?_ trivial trivial)
  cases hreorg : firstCoreReorgHeight input (w.getCoreProcessedBlocks (input.map (·.blockHeight)))
    with
  | some reorgHeight =>
    simp only [hreorg] at hok
    refine wp_bind (wp_mono (wp_rewindCoreDogecoinWindow ?_) (fun _ _ h => h) ?_ (fun _ h => h))
    · exact wp_pure (hok _ _ rfl)
    · intro e t he
      cases e with
      | fault => trivial
      | thrown e => exact absurd he id
  | none =>
    simp only [hreorg] at hok
    refine wp_ofExcept (fun pending hpending => hok w pending ?_) (fun e _ => herror e)
    simp only [hpending]
    rfl

theorem wp_assertCoreWindowPreviousBlock_reads {pending : List CoreDogecoinBlockApplication} :
    wp (assertCoreWindowPreviousBlock pending) (fun _ t => t = w) (FailsWith (fun _ t => t = w))
      Anywhere w := by
  unfold assertCoreWindowPreviousBlock
  cases pending with
  | nil => exact wp_pure rfl
  | cons first rest =>
    simp only
    split
    · exact wp_pure rfl
    · exact wp_bind (wp_read (wp_ofExcept (fun _ _ => rfl) (fun _ _ => rfl)) trivial trivial)

theorem wp_assertCoreWindowPrevouts_reads {pending : List CoreDogecoinBlockApplication} :
    wp (assertCoreWindowPrevouts pending) (fun _ t => t = w) (FailsWith (fun _ t => t = w))
      Anywhere w := by
  refine wp_ite (fun _ => wp_pure rfl) (fun _ => ?_)
  refine wp_bind (wp_read (wp_bind (wp_read ?_ trivial trivial)) trivial trivial)
  exact wp_bind (wp_ofExcept (fun _ _ => wp_ofExcept (fun _ _ => rfl) (fun _ _ => rfl))
    (fun _ _ => rfl))

theorem wp_validatePendingCoreWindow {pending : List CoreDogecoinBlockApplication} :
    wp (validatePendingCoreWindow pending context)
      (fun _ t => t = w ∧ ∃ state, assertCoreWindowShape pending = .ok state)
      (FailsWith (fun _ t => t = w)) Anywhere w := by
  refine wp_bind (wp_ofExcept (fun state hstate => ?_) (fun _ _ => rfl))
  refine wp_bind (wp_mono wp_assertCoreWindowPreviousBlock_reads ?_ (fun _ _ h => h)
    (fun _ h => h))
  rintro _ t rfl
  refine wp_when (fun _ => ?_) (fun _ => ⟨rfl,state,hstate⟩)
  exact wp_mono wp_assertCoreWindowPrevouts_reads (fun _ _ h => ⟨h,state,hstate⟩)
    (fun _ _ h => h) (fun _ h => h)

/-- A window that is accepted moves the balances of the warehouse it goes on with; one that is
not leaves them. -/
theorem wp_applyCoreDogecoinWindow_balances :
    wp (applyCoreDogecoinWindow boundaries input context)
      (fun _ t => ∃ v pending, w.pendingWindow boundaries input context = .ok (v,pending) ∧
        WritesBalances v t pending context)
      (FailsWith (fun _ t => SameBalanceTables w t ∨ ∃ v pending,
        w.pendingWindow boundaries input context = .ok (v,pending) ∧ SameBalanceTables v t))
      Anywhere w := by
  unfold applyCoreDogecoinWindow
  refine wp_ite (fun hnil => wp_pure ?_) (fun _ => ?_)
  · subst hnil
    refine ⟨w,[],rfl,[],addsBalanceRows_nil rfl rfl,?_⟩
    split
    · exact ⟨by simp,by simp,fun a ha => absurd rfl ha⟩
    · rfl
  · refine wp_bind (wp_pendingCoreWindowApplications_pending (fun v pending hpending => ?_)
      (fun _ => Or.inl ⟨rfl,rfl⟩))
    refine wp_ite (fun hnil => wp_pure ?_) (fun hne => ?_)
    · subst hnil
      refine ⟨v,[],hpending,[],addsBalanceRows_nil rfl rfl,?_⟩
      split
      · exact ⟨by simp,by simp,fun a ha => absurd rfl ha⟩
      · rfl
    · refine wp_bind (wp_mono wp_validatePendingCoreWindow ?_ ?_ (fun _ h => h))
      · rintro _ t ⟨rfl,state,hshape⟩
        refine wp_bind (wp_mono (wp_insertPendingCoreWindowWithRecovery_balances hne
          (createdKeys_nodup hshape)) ?_ ?_ (fun _ h => h))
        · exact fun _ t' ht' => wp_pure ⟨t,pending,hpending,ht'⟩
        · intro e t' he
          cases e with
          | fault => trivial
          | thrown e => exact Or.inr ⟨t,pending,hpending,he⟩
      · intro e t he
        cases e with
        | fault => trivial
        | thrown e =>
          obtain rfl : t = v := he
          exact Or.inr ⟨t,pending,hpending,rfl,rfl⟩

end Apply

end OnlyDoge
