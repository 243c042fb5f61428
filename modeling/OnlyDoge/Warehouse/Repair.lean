import OnlyDoge.Warehouse.StoredChain
set_option autoImplicit false

/-!
Windows on a warehouse whose current UTXO table has lost rows, and the repair that rebuilds
the rows a window spends.
-/

namespace OnlyDoge
open Job

/-- Every row of the current UTXO table agrees with the ledger; some keys may have no row. -/
structure PartialCoins (w : Warehouse) (L : CoinLedger) (next : Nat) : Prop where
  coin : ∀ k, w.latestUtxoRow k = none ∨ w.currentCoin k = L.coin k
  versions : w.VersionsBelow (next * 2)

namespace Warehouse

/-- The unspent outputs of the ledger that have no current row. -/
def absentCoins (w : Warehouse) (L : CoinLedger) : List ProjectionUtxoOutput :=
  L.unspent.filter (fun c => (w.latestUtxoRow c.outputKey).isNone)

/-- The absent outputs that the blocks spend. -/
def absentPrevouts (w : Warehouse) (L : CoinLedger) (blocks : List ParsedDogecoinBlock) :
    List ProjectionUtxoOutput :=
  (w.absentCoins L).filter
    (fun c => c.outputKey ∈ externalCoreSpendKeys (blocks.map coreBlockApplication))

end Warehouse

def totalWeight (address : String) (outputs : List ProjectionUtxoOutput) : Int :=
  (outputs.map (addressWeight address)).sum

theorem totalWeight_filter (address : String) (p : ProjectionUtxoOutput → Bool)
    (outputs : List ProjectionUtxoOutput) :
    totalWeight address (outputs.filter p) + totalWeight address (outputs.filter (fun c => !p c)) =
      totalWeight address outputs := by
  have hperm := (List.filter_append_perm p outputs).map (addressWeight address)
  have hsum := hperm.sum_eq
  rw [List.map_append,List.sum_append] at hsum
  exact hsum

theorem totalWeight_nonneg (address : String) (outputs : List ProjectionUtxoOutput) :
    0 ≤ totalWeight address outputs := by
  refine List.sum_nonneg (fun x hx => ?_)
  obtain ⟨c,-,rfl⟩ := List.mem_map.mp hx
  exact addressWeight_nonneg address c

theorem totalWeight_eq_zero {address : String} {outputs : List ProjectionUtxoOutput} :
    totalWeight address outputs = 0 ↔ ∀ c ∈ outputs, addressWeight address c = 0 := by
  induction outputs with
  | nil => simp [totalWeight]
  | cons c outputs ih =>
    have hc := addressWeight_nonneg address c
    have hcs := totalWeight_nonneg address outputs
    have hsum : totalWeight address (c::outputs) =
        addressWeight address c + totalWeight address outputs := rfl
    rw [List.forall_mem_cons,← ih,hsum]
    omega

section Partial
variable {w : Warehouse} {L L' : CoinLedger} {next : Nat}

theorem latestUtxoRow_of_currentCoin {k : OutputKey} {c : ProjectionUtxoOutput}
    (h : w.currentCoin k = some c) : (w.latestUtxoRow k).map (·.output) = some c := by
  obtain ⟨row,hrow,h⟩ := Option.bind_eq_some_iff.mp h
  split at h
  · cases h
    rw [hrow]
    rfl
  · cases h

theorem sumValues_add_absentCoins (hw : PartialCoins w L next) (address : String) :
    Warehouse.sumValues (w.addressCoins address) + totalWeight address (w.absentCoins L) =
      L.worth (addressWeight address) := by
  have hperm : w.currentCoins.Perm
      (L.unspent.filter (fun c => !(w.latestUtxoRow c.outputKey).isNone)) := by
    rw [List.perm_ext_iff_of_nodup w.currentCoins_nodup.of_map (L.unspent_nodup.of_map.filter _)]
    intro c
    rw [Warehouse.mem_currentCoins,List.mem_filter]
    constructor
    · intro hc
      have hrow := latestUtxoRow_of_currentCoin hc
      rcases hw.coin c.outputKey with hnone | hcoin
      · rw [hnone] at hrow
        cases hrow
      · refine ⟨(Ledger.coin_eq_some.mp (hcoin ▸ hc)).1,?_⟩
        cases hl : w.latestUtxoRow c.outputKey with
        | none =>
          rw [hl] at hrow
          cases hrow
        | some row => rfl
    · rintro ⟨hc,hrow⟩
      rcases hw.coin c.outputKey with hnone | hcoin
      · rw [hnone] at hrow
        cases hrow
      · rw [hcoin,Ledger.coin_eq_some]
        exact ⟨hc,rfl⟩
  have hpresent : Warehouse.sumValues (w.addressCoins address) = totalWeight address
      (L.unspent.filter (fun c => !(w.latestUtxoRow c.outputKey).isNone)) := by
    rw [Warehouse.addressCoins,← Warehouse.sum_addressWeight]
    exact (hperm.map _).sum_eq
  have hsplit := totalWeight_filter address (fun c => (w.latestUtxoRow c.outputKey).isNone)
    L.unspent
  rw [hpresent,Warehouse.absentCoins]
  change _ = totalWeight address L.unspent
  omega

theorem mem_absentCoins {c : ProjectionUtxoOutput} :
    c ∈ w.absentCoins L ↔ L.coin c.outputKey = some c ∧ w.latestUtxoRow c.outputKey = none := by
  simp [Warehouse.absentCoins,Ledger.coin_eq_some]

theorem absentCoins_nodup (w : Warehouse) (L : CoinLedger) : (w.absentCoins L).Nodup :=
  L.unspent_nodup.of_map.filter _

end Partial

section Insert
variable {w : Warehouse} {L L' : CoinLedger} {next : Nat}
variable {first : ParsedDogecoinBlock} {rest : List ParsedDogecoinBlock}
variable {context : CoreDogecoinApplyContext}

theorem mem_external {blocks : List ParsedDogecoinBlock} {k : OutputKey} :
    k ∈ externalCoreSpendKeys (blocks.map coreBlockApplication) ↔
      k ∈ (blocks.flatMap blockSpends).map (·.outputKey) ∧
      k ∉ (blocks.flatMap blockCreates).map (·.outputKey) := by
  unfold externalCoreSpendKeys
  rw [coreBlockApplication_creates,coreBlockApplication_spends]
  simp only [OrderedMap.mem_distinct,List.mem_filter,decide_eq_true_eq]

theorem coreWindowPrevouts_eq_none {pending : List CoreDogecoinBlockApplication}
    {k : OutputKey} (h : w.latestUtxoRow k = none) :
    (coreWindowPrevouts pending context w).get k = none := by
  unfold coreWindowPrevouts
  split
  · cases hg : (w.getCurrentUtxoOutputMap (externalCoreSpendKeys pending)).get k with
    | none => rfl
    | some o =>
      have hmem := OrderedMap.get_ofEntries_of_mem hg
      obtain ⟨j,-,hj⟩ := List.mem_filterMap.mp hmem
      obtain ⟨row,hrow,hpair⟩ := Option.map_eq_some_iff.mp hj
      cases hpair
      rw [h] at hrow
      cases hrow
  · rfl

/-- A mutation that tracks the ledger and leaves the absent outputs alone moves the balances
by as much as the outputs behind the rows. -/
theorem balance_addWindow_absent {m : CoreCurrentStateMutation} {low next' windowEnd : Nat}
    (hw : PartialCoins w L next) (hnext : next ≤ low) (hend : low ≤ windowEnd)
    (hnext' : windowEnd < next') (hm : Tracks L L' low next' m)
    (habsent : ∀ c ∈ w.absentCoins L, m.nextOutputs.get c.outputKey = none)
    (pending : List CoreDogecoinBlockApplication) (prevouts : OutputMap) (a : String) :
    (w.addWindow pending prevouts (some (windowRows w m windowEnd))).addressBalance a +
        Warehouse.sumValues (w.addressCoins a) =
      w.addressBalance a + Warehouse.sumValues
        ((w.addWindow pending prevouts (some (windowRows w m windowEnd))).addressCoins a) := by
  have hafter := currentAfter_addWindow hw.versions hnext hend hnext' hm pending prevouts
  have hold : ∀ row ∈ w.currentUtxos, row.version < low * 2 :=
    fun row hrow => Nat.lt_of_lt_of_le (hw.versions.1 row hrow) (Nat.mul_le_mul_right 2 hnext)
  have hnew : ∀ k o, m.nextOutputs.get k = some o → low * 2 ≤ coreCurrentUtxoVersion o :=
    fun k o h => (hm.version k o h).1
  generalize hw' : w.addWindow pending prevouts (some (windowRows w m windowEnd)) = w' at hafter ⊢
  have hrow' (k : OutputKey) : w'.latestUtxoRow k = ((m.nextOutputs.get k).map
      (fun o => ⟨o,coreCurrentUtxoVersion o⟩)).or (w.latestUtxoRow k) := by
    rw [← hw']
    exact Warehouse.latestUtxoRow_append hm.key hold hnew k
  have hcoins : PartialCoins w' L' next' := by
    refine ⟨fun k => ?_,hafter.versions⟩
    have hcoin := Warehouse.currentCoin_append hm.key hold hnew k
    have hfold : { w with
        currentUtxos := w.currentUtxos ++ coreCurrentUtxoRows m.nextOutputs }.currentCoin k =
          w'.currentCoin k := by
      rw [← hw']
      rfl
    rw [hfold] at hcoin
    rw [hrow' k,hcoin]
    cases hg : m.nextOutputs.get k with
    | some o => exact Or.inr (hm.coin k o hg).symm
    | none =>
      rw [hm.frame k hg]
      exact hw.coin k
  have hperm : (w'.absentCoins L').Perm (w.absentCoins L) := by
    rw [List.perm_ext_iff_of_nodup (absentCoins_nodup _ _) (absentCoins_nodup _ _)]
    intro c
    constructor
    · intro hc
      obtain ⟨hc,hnone⟩ := mem_absentCoins.mp hc
      rw [hrow'] at hnone
      obtain ⟨hnew,hold⟩ := Option.or_eq_none_iff.mp hnone
      rw [hm.frame _ (Option.map_eq_none_iff.mp hnew)] at hc
      exact mem_absentCoins.mpr ⟨hc,hold⟩
    · intro hc
      have hg := habsent c hc
      obtain ⟨hc,hnone⟩ := mem_absentCoins.mp hc
      rw [← hm.frame _ hg] at hc
      exact mem_absentCoins.mpr ⟨hc,by rw [hrow',hg,hnone]; rfl⟩
  have hsum := sumValues_add_absentCoins hw a
  have hsum' := sumValues_add_absentCoins hcoins a
  have htotal : totalWeight a (w'.absentCoins L') = totalWeight a (w.absentCoins L) :=
    (hperm.map _).sum_eq
  have hbalance := hafter.balance a
  omega

theorem coreCurrentStateWindow_mutation {pending : List CoreDogecoinBlockApplication}
    {last : CoreDogecoinBlockApplication} {prevouts : OutputMap} {cs : CoreCurrentStateWindow}
    (h : coreCurrentStateWindow pending last prevouts w = .ok cs) :
    ∃ m, applyCoreCurrentStateMutations pending prevouts = .ok m ∧
      cs = windowRows w m last.blockHeight := by
  cases hm : applyCoreCurrentStateMutations pending prevouts with
  | error e =>
    unfold coreCurrentStateWindow at h
    rw [hm] at h
    cases h
  | ok m => exact ⟨m,rfl,((coreCurrentStateWindow_eq_ok hm).mp h).2⟩

theorem wp_insertPendingCoreWindow_absent (hw : PartialCoins w L next)
    (hv : ValidBlocks L (first::rest) L') (hnext : next ≤ first.height)
    (hup : shouldUpdateCoreCurrentState context) :
    wp (insertPendingCoreWindow ((first::rest).map coreBlockApplication) context)
      (fun _ t => w.absentPrevouts L (first::rest) = [] ∧
        ∀ a, t.addressBalance a + Warehouse.sumValues (w.addressCoins a) =
          w.addressBalance a + Warehouse.sumValues (t.addressCoins a))
      (FailsWith (fun _ t => t = w)) Anywhere w := by
  obtain ⟨last,hlast,hmem⟩ := exists_getLast? first rest
  have hheights := isChain_heights hv.linked hmem
  refine wp_insertPendingCoreWindow (fun cs hcs => ?_) (fun e _ => rfl)
  rw [coreWindowCurrentState_eq hup hlast] at hcs
  obtain ⟨win,hwin,rfl⟩ : ∃ win, coreCurrentStateWindow ((first::rest).map coreBlockApplication)
      (coreBlockApplication last)
      (coreWindowPrevouts ((first::rest).map coreBlockApplication) context w) w = .ok win ∧
        some win = cs := by
    revert hcs
    cases coreCurrentStateWindow _ _ _ _ with
    | error e => exact fun h => (by cases h)
    | ok win => exact fun h => ⟨win,rfl,by cases h; rfl⟩
  obtain ⟨m,hm,rfl⟩ := coreCurrentStateWindow_mutation hwin
  have huntouched (k : OutputKey) (hk : w.latestUtxoRow k = none)
      (hc : k ∉ ((first::rest).flatMap blockCreates).map (·.outputKey)) :
      k ∉ ((first::rest).flatMap blockSpends).map (·.outputKey) ∧
        m.nextOutputs.get k = none := by
    rw [← coreBlockApplication_spends]
    exact mutations_untouched (coreWindowPrevouts_eq_none hk)
      (by rwa [coreBlockApplication_creates]) (OrderedMap.get_empty k) hm
  have hpresent : ∀ k ∈ externalCoreSpendKeys ((first::rest).map coreBlockApplication),
      w.latestUtxoRow k ≠ none := by
    intro k hk hnone
    obtain ⟨hspent,hcreated⟩ := mem_external.mp hk
    exact (huntouched k hnone hcreated).1 hspent
  obtain ⟨m',hm',htracks⟩ := tracks_window hup hv (fun k hk c hc => by
    rcases hw.coin k with hnone | hagree
    · exact absurd hnone (hpresent k hk)
    · exact hagree.trans hc)
  have heq : m' = m := Except.ok.inj (hm'.symm.trans hm)
  subst heq
  refine ⟨?_,?_⟩
  · refine List.filter_eq_nil_iff.mpr (fun c hc hk => ?_)
    exact hpresent _ (of_decide_eq_true hk) (mem_absentCoins.mp hc).2
  · refine balance_addWindow_absent hw hnext hheights.1 hheights.2 htracks (fun c hc => ?_) _ _
    obtain ⟨hcoin,hnone⟩ := mem_absentCoins.mp hc
    refine (huntouched _ hnone (fun hnew => ?_)).2
    have hcreated : c.outputKey ∈ L.created.map (·.outputKey) :=
      List.mem_map_of_mem (List.mem_filter.mp (Ledger.coin_eq_some.mp hcoin).1).1
    exact (List.nodup_append.mp hv.create_keys_nodup).2.2 _ hcreated _ hnew rfl

end Insert

section Repaired
variable {w : Warehouse} {L L' : CoinLedger} {next : Nat}
variable {first : ParsedDogecoinBlock} {rest : List ParsedDogecoinBlock}
variable {context : CoreDogecoinApplyContext}

/-- The keys a window spends from before and that have no current row. -/
def Warehouse.missingKeys (w : Warehouse) (blocks : List ParsedDogecoinBlock) : List OutputKey :=
  missingUtxoOutputKeys (externalCoreSpendKeys (blocks.map coreBlockApplication))
    (w.getCurrentUtxoOutputMap (externalCoreSpendKeys (blocks.map coreBlockApplication)))

theorem mem_missingKeys {blocks : List ParsedDogecoinBlock} {k : OutputKey} :
    k ∈ w.missingKeys blocks ↔
      k ∈ externalCoreSpendKeys (blocks.map coreBlockApplication) ∧ w.latestUtxoRow k = none := by
  unfold Warehouse.missingKeys missingUtxoOutputKeys
  rw [List.mem_filter]
  refine and_congr_right (fun hk => ?_)
  rw [Option.isNone_iff_eq_none]
  constructor
  · intro h
    cases hrow : w.latestUtxoRow k with
    | none => rfl
    | some row =>
      have hmem := (OrderedMap.get_ofEntries_eq_none.mp h) (k,row.output)
        (List.mem_filterMap.mpr ⟨k,hk,by rw [hrow]; rfl⟩)
      exact absurd rfl hmem
  · intro h
    refine OrderedMap.get_ofEntries_eq_none.mpr (fun e he hek => ?_)
    obtain ⟨j,-,hj⟩ := List.mem_filterMap.mp he
    obtain ⟨row,hrow,rfl⟩ := Option.map_eq_some_iff.mp hj
    cases hek
    rw [h] at hrow
    cases hrow

theorem externalCoreSpendKeys_nodup (applications : List CoreDogecoinBlockApplication) :
    (externalCoreSpendKeys applications).Nodup :=
  OrderedMap.nodup_distinct _

theorem coreHistoricalUtxoOutput_eq (hfacts : FactsOf w L next) {height : Int}
    (hheight : (next : Int) ≤ height + 1) {k : OutputKey} (hk : k ∉ L.spent) :
    w.coreHistoricalUtxoOutput height k = L.find k := by
  have hspend : w.latestCoreSpend k = none := by
    refine Replacing.latest_eq_none.mpr (fun s hs hsk => hk ?_)
    exact (hfacts.spent k).mp (hsk ▸ List.mem_map_of_mem hs)
  unfold Warehouse.coreHistoricalUtxoOutput
  rw [upTo_eq_self hfacts hheight,hfacts.created,hspend]
  cases hfind : L.find k with
  | none => rfl
  | some c =>
    have hbare := hfacts.bare c (Ledger.find_eq_some.mp hfind).1
    cases c
    simp_all

/-- The rows that the repair writes. -/
def repairRows (w : Warehouse) (L : CoinLedger) (blocks : List ParsedDogecoinBlock) :
    List UtxoRow :=
  ((w.missingKeys blocks).filterMap L.find).map
  (fun c => ⟨c,coreCurrentCreateVersion c.blockHeight⟩)

theorem latest_repairRows (hv : ValidBlocks L (first::rest) L') (k : OutputKey) :
    Replacing.latest UtxoRow.key UtxoRow.version (repairRows w L (first::rest)) k =
      if k ∈ w.missingKeys (first::rest) then
        (L.find k).map (fun c => ⟨c,coreCurrentCreateVersion c.blockHeight⟩)
      else none := by
  have hkey {c : ProjectionUtxoOutput} {j : OutputKey} (h : L.find j = some c) :
      c.outputKey = j := (Ledger.find_eq_some.mp h).2
  have hnodup : ((repairRows w L (first::rest)).map UtxoRow.key).Nodup := by
    have hmap : (repairRows w L (first::rest)).map UtxoRow.key = w.missingKeys (first::rest) := by
      have hfound : ∀ j ∈ w.missingKeys (first::rest), ∃ c, L.find j = some c :=
        fun j hj => (hv.external (mem_missingKeys.mp hj).1).2
      unfold repairRows
      rw [List.map_map]
      revert hfound
      induction w.missingKeys (first::rest) with
      | nil => exact fun _ => rfl
      | cons j js ih =>
        intro hfound
        obtain ⟨c,hc⟩ := hfound j List.mem_cons_self
        rw [List.filterMap_cons_some hc,List.map_cons,ih (fun i hi =>
          hfound i (List.mem_cons_of_mem _ hi))]
        exact congrArg (· :: js) (hkey hc)
    rw [hmap]
    exact (externalCoreSpendKeys_nodup _).filter _
  by_cases hk : k ∈ w.missingKeys (first::rest)
  · obtain ⟨c,hc⟩ := (hv.external (mem_missingKeys.mp hk).1).2
    rw [if_pos hk,hc,Option.map_some,Replacing.latest_eq_some_of_nodup hnodup]
    exact ⟨List.mem_map_of_mem (List.mem_filterMap.mpr ⟨k,hk,hc⟩),hkey hc⟩
  · rw [if_neg hk,Replacing.latest_eq_none]
    intro r hr hrk
    obtain ⟨c,hc,rfl⟩ := List.mem_map.mp hr
    obtain ⟨j,hj,hjc⟩ := List.mem_filterMap.mp hc
    have hjk : j = k := (hkey hjc).symm.trans hrk
    exact hk (hjk ▸ hj)

theorem latestUtxoRow_repaired (hv : ValidBlocks L (first::rest) L') (k : OutputKey) :
    (w.insertCurrentUtxos (repairRows w L (first::rest))).latestUtxoRow k =
      if k ∈ w.missingKeys (first::rest) then
        (L.find k).map (fun c => ⟨c,coreCurrentCreateVersion c.blockHeight⟩)
      else w.latestUtxoRow k := by
  unfold Warehouse.latestUtxoRow Warehouse.insertCurrentUtxos
  rw [Replacing.latest_append,latest_repairRows hv]
  by_cases hk : k ∈ w.missingKeys (first::rest)
  · have hnone := (mem_missingKeys.mp hk).2
    unfold Warehouse.latestUtxoRow at hnone
    rw [if_pos hk,if_pos hk,hnone,Replacing.newer_none_left]
  · rw [if_neg hk,if_neg hk,Replacing.newer_none_right]

theorem partialCoins_repaired (hfacts : FactsOf w L next) (hw : PartialCoins w L next)
    (hv : ValidBlocks L (first::rest) L') :
    PartialCoins (w.insertCurrentUtxos (repairRows w L (first::rest))) L next ∧
    ∀ a, Warehouse.sumValues
        ((w.insertCurrentUtxos (repairRows w L (first::rest))).addressCoins a) =
      Warehouse.sumValues (w.addressCoins a) + totalWeight a
        (w.absentPrevouts L (first::rest)) := by
  have hrow := fun k => latestUtxoRow_repaired (w := w) hv k
  generalize hw' : w.insertCurrentUtxos (repairRows w L (first::rest)) = w' at hrow ⊢
  have hcoins : PartialCoins w' L next := by
    refine ⟨fun k => ?_,fun row hmem => ?_,fun row hmem => ?_⟩
    · unfold Warehouse.currentCoin
      rw [hrow k]
      by_cases hk : k ∈ w.missingKeys (first::rest)
      · obtain ⟨hspent,c,hc⟩ := hv.external (mem_missingKeys.mp hk).1
        have hbare := hfacts.bare c (Ledger.find_eq_some.mp hc).1
        refine Or.inr ?_
        simp [hk,hc,hbare,Ledger.coin,hspent]
      · rw [if_neg hk]
        exact hw.coin k
    · rw [← hw'] at hmem
      rcases List.mem_append.mp hmem with hmem | hmem
      · exact hw.versions.1 row hmem
      · obtain ⟨c,hc,rfl⟩ := List.mem_map.mp hmem
        obtain ⟨k,-,hk⟩ := List.mem_filterMap.mp hc
        obtain ⟨hrowmem,-,-⟩ := Replacing.latest_spec ((hfacts.created k).trans hk)
        have := hfacts.createHeight c hrowmem
        simp only [coreCurrentCreateVersion]
        omega
    · rw [← hw'] at hmem
      exact hw.versions.2 row hmem
  refine ⟨hcoins,fun a => ?_⟩
  have habsent : w'.absentCoins L = (w.absentCoins L).filter
      (fun c => !decide (c.outputKey ∈
        externalCoreSpendKeys ((first::rest).map coreBlockApplication))) := by
    unfold Warehouse.absentCoins
    rw [List.filter_filter]
    refine List.filter_congr (fun c hc => ?_)
    rw [hrow]
    by_cases hk : c.outputKey ∈ w.missingKeys (first::rest)
    · obtain ⟨hext,hnone⟩ := mem_missingKeys.mp hk
      obtain ⟨-,d,hd⟩ := hv.external hext
      simp only [if_pos hk,hd,hext,decide_true,Bool.not_true,Bool.false_and]
      rfl
    · rw [if_neg hk]
      by_cases hext : c.outputKey ∈ externalCoreSpendKeys ((first::rest).map coreBlockApplication)
      · have : w.latestUtxoRow c.outputKey ≠ none := fun h => hk (mem_missingKeys.mpr ⟨hext,h⟩)
        simp only [hext,decide_true,Bool.not_true,Bool.false_and,Option.isNone_eq_false_iff,
          Option.isSome_iff_ne_none,ne_eq,this,not_false_eq_true]
      · simp only [hext,decide_false,Bool.not_false,Bool.true_and]
  have hsum := sumValues_add_absentCoins hw a
  have hsum' := sumValues_add_absentCoins hcoins a
  have hsplit := totalWeight_filter a (fun c => decide (c.outputKey ∈
    externalCoreSpendKeys ((first::rest).map coreBlockApplication))) (w.absentCoins L)
  rw [habsent] at hsum'
  simp only [Warehouse.absentPrevouts]
  omega

theorem wp_repairMissingCoreCurrentPrevouts (hfacts : FactsOf w L next)
    (hv : ValidBlocks L (first::rest) L') (hnext : next ≤ first.height)
    {Q : Unit → Warehouse → Prop}
    (hdone : Q () (w.insertCurrentUtxos (repairRows w L (first::rest)))) :
    wp (repairMissingCoreCurrentPrevouts ((first::rest).map coreBlockApplication)) Q
      (FailsWith (fun _ _ => True)) Anywhere w := by
  refine wp_bind (wp_read ?_ trivial trivial)
  change wp (if w.missingKeys (first::rest) = [] then _ else _) _ _ _ _
  refine wp_ite (fun hnil => wp_pure ?_) (fun hne => wp_bind (wp_read ?_ trivial trivial))
  · have hrows : repairRows w L (first::rest) = [] := by simp [repairRows,hnil]
    rw [hrows] at hdone
    simpa [Warehouse.insertCurrentUtxos] using hdone
  · have hstart : coreWindowStart ((first::rest).map coreBlockApplication) = first.height := rfl
    obtain ⟨k,hk⟩ := List.exists_mem_of_ne_nil _ hne
    obtain ⟨-,c,hc⟩ := hv.external (mem_missingKeys.mp hk).1
    have hpos : 0 < next := by
      obtain ⟨hmem,-,-⟩ := Replacing.latest_spec ((hfacts.created k).trans hc)
      have := hfacts.createHeight c hmem
      omega
    have hrows : w.queryCoreHistoricalUtxoOutputRows (w.missingKeys (first::rest))
        (coreWindowStart ((first::rest).map coreBlockApplication) - 1) =
          (w.missingKeys (first::rest)).filterMap L.find := by
      unfold Warehouse.queryCoreHistoricalUtxoOutputRows
      rw [hstart,if_neg (by simp only [not_or]; exact ⟨hne,by omega⟩)]
      have hnodup : (w.missingKeys (first::rest)).Nodup :=
        (externalCoreSpendKeys_nodup _).filter _
      have hdistinct : OrderedMap.distinct (w.missingKeys (first::rest)) =
          w.missingKeys (first::rest) := by
        unfold OrderedMap.distinct
        rw [(List.nodup_reverse.mpr hnodup).dedup,List.reverse_reverse]
      rw [hdistinct]
      refine List.filterMap_congr (fun j hj => ?_)
      refine coreHistoricalUtxoOutput_eq hfacts (by omega) ?_
      exact (hv.external (mem_missingKeys.mp hj).1).1
    refine wp_bind (wp_ofExcept (fun _ _ => ?_) (fun _ _ => trivial))
    have hrepair : (w.queryCoreHistoricalUtxoOutputRows (w.missingKeys (first::rest))
        (coreWindowStart ((first::rest).map coreBlockApplication) - 1)).map coreCurrentRepairRow =
          repairRows w L (first::rest) := by
      rw [hrows,repairRows]
      refine List.map_congr_left (fun c hc => ?_)
      obtain ⟨j,-,hj⟩ := List.mem_filterMap.mp hc
      have hbare := hfacts.bare c (Ledger.find_eq_some.mp hj).1
      cases c
      simp_all [coreCurrentRepairRow,unspentCoreCurrentRepair]
    refine wp_insertRows (by simp [Warehouse.insertCurrentUtxos]) ?_ trivial trivial trivial
    rw [← hrepair] at hdone
    exact hdone

theorem factsOf_cutTail (hfacts : FactsOf w L next) {fromBlockHeight : Nat}
    (h : next ≤ fromBlockHeight) : FactsOf (w.cutTail fromBlockHeight) L next := by
  have hc : w.coreUtxoCreates.filter (·.blockHeight < fromBlockHeight) = w.coreUtxoCreates := by
    refine List.filter_eq_self.mpr (fun c hc => ?_)
    have := hfacts.createHeight c hc
    simp only [decide_eq_true_eq]
    omega
  have hs : w.coreUtxoSpends.filter (·.spentInBlock < fromBlockHeight) = w.coreUtxoSpends := by
    refine List.filter_eq_self.mpr (fun s hs => ?_)
    have := hfacts.spendHeight s hs
    simp only [decide_eq_true_eq]
    omega
  obtain ⟨hcreated,hspent,hbare,hch,hsh⟩ := hfacts
  refine ⟨?_,?_,hbare,?_,?_⟩
  · simpa only [Warehouse.latestCoreCreate,Warehouse.cutTail,hc] using hcreated
  · simpa only [Warehouse.cutTail,hs] using hspent
  · simpa only [Warehouse.cutTail,hc] using hch
  · simpa only [Warehouse.cutTail,hs] using hsh

theorem wp_recoverPendingCoreWindow (hfacts : FactsOf w L next) (hw : PartialCoins w L next)
    (hv : ValidBlocks L (first::rest) L') (hnext : next ≤ first.height)
    (hup : shouldUpdateCoreCurrentState context) (e : CoreError) :
    wp (recoverPendingCoreWindow ((first::rest).map coreBlockApplication) context e)
      (fun _ t => ∀ a, t.addressBalance a + Warehouse.sumValues (w.addressCoins a) +
          totalWeight a (w.absentPrevouts L (first::rest)) =
        w.addressBalance a + Warehouse.sumValues (t.addressCoins a))
      (FailsWith (fun _ _ => True)) Anywhere w := by
  cases e with
  | error message => exact wp_throw trivial
  | missingCoreCurrentPrevout key =>
    refine wp_ite (fun _ => ?_) (fun h => absurd hup h)
    refine wp_bind (wp_bind (wp_deleteCoreDogecoinTail ?_ (fun _ _ _ => ⟨trivial,trivial⟩)))
    have hfacts' : FactsOf (w.cutTail first.height) L next := factsOf_cutTail hfacts hnext
    have hw' : PartialCoins (w.cutTail first.height) L next := ⟨hw.coin,hw.versions⟩
    refine wp_repairMissingCoreCurrentPrevouts hfacts' hv hnext ?_
    obtain ⟨hcoins,hsum⟩ := partialCoins_repaired hfacts' hw' hv
    refine wp_onFailure (wp_mono (wp_insertPendingCoreWindow_absent hcoins hv hnext hup)
      ?_ ?_ (fun _ h => h))
    · rintro _ t ⟨-,hbalance⟩ a
      have hrepaired : Warehouse.sumValues (((w.cutTail first.height).insertCurrentUtxos
          (repairRows (w.cutTail first.height) L (first::rest))).addressCoins a) =
        Warehouse.sumValues (w.addressCoins a) + totalWeight a (w.absentPrevouts L (first::rest)) :=
        hsum a
      have hsame : ((w.cutTail first.height).insertCurrentUtxos
          (repairRows (w.cutTail first.height) L (first::rest))).addressBalance a =
            w.addressBalance a := rfl
      have := hbalance a
      omega
    · intro e t _
      refine wp_mono (wp_true _) ?_ ?_ (fun _ _ => trivial)
      · intro _ _ _
        cases e <;> trivial
      · intro e' _ _
        cases e' <;> trivial

theorem wp_insertPendingCoreWindowWithRecovery_absent (hfacts : FactsOf w L next)
    (hw : PartialCoins w L next) (hv : ValidBlocks L (first::rest) L')
    (hnext : next ≤ first.height) (hup : shouldUpdateCoreCurrentState context) :
    wp (insertPendingCoreWindowWithRecovery ((first::rest).map coreBlockApplication) context)
      (fun _ t => ∀ a, t.addressBalance a + Warehouse.sumValues (w.addressCoins a) +
          totalWeight a (w.absentPrevouts L (first::rest)) =
        w.addressBalance a + Warehouse.sumValues (t.addressCoins a))
      (FailsWith (fun _ _ => True)) Anywhere w := by
  refine wp_catchThrown (wp_mono (wp_insertPendingCoreWindow_absent hw hv hnext hup) ?_ ?_
    (fun _ h => h))
  · rintro _ t ⟨hnil,hbalance⟩ a
    have hzero : totalWeight a (w.absentPrevouts L (first::rest)) = 0 := by
      rw [hnil]
      rfl
    have := hbalance a
    omega
  · intro e t ht
    cases e with
    | fault => trivial
    | thrown e =>
      have heq : t = w := ht
      subst heq
      exact wp_recoverPendingCoreWindow hfacts hw hv hnext hup e

end Repaired

/-- A stored chain whose current state may lack rows, together with their share of the
balances. -/
structure PartialState (w : Warehouse) (blocks : List ParsedDogecoinBlock) (L : CoinLedger) :
    Prop where
  stored : StoresChain w blocks
  valid : ValidBlocks .empty blocks L
  coins : PartialCoins w L (windowEndHeight blocks 0)
  balance : ∀ a, w.addressBalance a = Warehouse.sumValues (w.addressCoins a)

/-- The addresses of the outputs that the blocks create or spend. -/
def Warehouse.TouchedBy (w : Warehouse) (blocks : List ParsedDogecoinBlock) (address : String) :
    Prop :=
  (∃ c ∈ blocks.flatMap blockCreates, c.address = address) ∨
  ∃ s ∈ blocks.flatMap blockSpends, ∃ c, w.latestCoreCreate s.outputKey = some c ∧
    c.address = address

/-- Every output that the blocks spend from before and that has no current row is worth nothing. -/
def Warehouse.MissingPrevoutsWorthless (w : Warehouse) (blocks : List ParsedDogecoinBlock) :
    Prop :=
  ∀ k ∈ externalCoreSpendKeys (blocks.map coreBlockApplication), w.latestUtxoRow k = none →
    ∀ c, w.latestCoreCreate k = some c → isBalanceAffectingCoreOutput c = false ∨ c.valueBase = 0

section Balance
variable {w t : Warehouse} {L L' : CoinLedger} {next : Nat}
variable {below overlap stale new : List ParsedDogecoinBlock}
variable {boundaries : Warehouse → List String} {context : CoreDogecoinApplyContext}

theorem absentPrevouts_of_current {blocks : List ParsedDogecoinBlock}
    (hc : CurrentStateOf w L next) : w.absentPrevouts L blocks = [] := by
  refine List.filter_eq_nil_iff.mpr (fun c hmem _ => ?_)
  obtain ⟨hcoin,hnone⟩ := mem_absentCoins.mp hmem
  have := hc.coin c.outputKey
  rw [hcoin,Warehouse.currentCoin,hnone] at this
  cases this

theorem mem_absentPrevouts (hfacts : FactsOf w L next) (hv : ValidBlocks L new L')
    {c : ProjectionUtxoOutput} :
    c ∈ w.absentPrevouts L new ↔
      c.outputKey ∈ externalCoreSpendKeys (new.map coreBlockApplication) ∧
      w.latestUtxoRow c.outputKey = none ∧ w.latestCoreCreate c.outputKey = some c := by
  unfold Warehouse.absentPrevouts
  rw [List.mem_filter,mem_absentCoins,decide_eq_true_eq,hfacts.created]
  constructor
  · rintro ⟨⟨hcoin,hnone⟩,hk⟩
    refine ⟨hk,hnone,?_⟩
    unfold Ledger.coin at hcoin
    split at hcoin
    · cases hcoin
    · exact hcoin
  · rintro ⟨hk,hnone,hfind⟩
    refine ⟨⟨?_,hnone⟩,hk⟩
    unfold Ledger.coin
    rw [if_neg (hv.external hk).1]
    exact hfind

theorem worthless_iff (overlap : List ParsedDogecoinBlock) (hfacts : FactsOf w L next)
    (hv : ValidBlocks L new L') :
    (∀ a, w.TouchedBy (overlap ++ new) a → totalWeight a (w.absentPrevouts L new) = 0) ↔
      w.MissingPrevoutsWorthless new := by
  have hcreate {k : OutputKey} {c : ProjectionUtxoOutput} (h : w.latestCoreCreate k = some c) :
      c.outputKey = k := (Replacing.latest_spec h).2.1
  constructor
  · intro h k hk hnone c hc
    have hck := hcreate hc
    subst hck
    have hmem := (mem_absentPrevouts hfacts hv).mpr ⟨hk,hnone,hc⟩
    obtain ⟨s,hs,hsk⟩ := List.mem_map.mp (mem_external.mp hk).1
    have hspend : s ∈ (overlap ++ new).flatMap blockSpends := by
      rw [List.flatMap_append]
      exact List.mem_append_right _ hs
    have hzero := totalWeight_eq_zero.mp
      (h c.address (Or.inr ⟨s,hspend,c,by rw [hsk]; exact hc,rfl⟩)) c hmem
    unfold addressWeight at hzero
    cases hb : isBalanceAffectingCoreOutput c with
    | false => exact Or.inl rfl
    | true =>
      rw [if_pos ⟨hb,rfl⟩] at hzero
      exact Or.inr (by omega)
  · intro h a _
    refine totalWeight_eq_zero.mpr (fun c hc => ?_)
    obtain ⟨hk,hnone,hcreated⟩ := (mem_absentPrevouts hfacts hv).mp hc
    unfold addressWeight
    rcases h _ hk hnone c hcreated with hb | hzero
    · rw [if_neg (by simp [hb])]
    · split <;> omega

theorem wp_extend_absent (h : PartialState w (below ++ overlap) L)
    (hv : ValidBlocks .empty ((below ++ overlap) ++ new) L') (hne : new ≠ [])
    (hup : shouldUpdateCoreCurrentState context) :
    wp (insertPendingCoreWindowWithRecovery (new.map coreBlockApplication) context)
      (fun _ t => (∀ a, w.TouchedBy (overlap ++ new) a →
        t.addressBalance a = Warehouse.sumValues (t.addressCoins a)) ↔
          w.MissingPrevoutsWorthless new) (FailsWith (fun _ _ => True)) Anywhere w := by
  have hnew := hv.suffix h.valid
  have hfacts := (holdsChain_of_stores h.stored h.valid).facts
  cases new with
  | nil => exact absurd rfl hne
  | cons n rest =>
    refine wp_mono (wp_insertPendingCoreWindowWithRecovery_absent hfacts h.coins hnew
      (windowEndHeight_le hv.linked) hup) ?_ (fun _ _ h => h) (fun _ h => h)
    intro _ t ht
    refine Iff.trans ?_ (worthless_iff overlap hfacts hnew)
    refine forall_congr' (fun a => imp_congr_right (fun _ => ?_))
    have hbalance := ht a
    have hbase := h.balance a
    omega

/-- A window on a rebuilt current state keeps every balance equal to its unspent outputs. -/
theorem wp_replace_rebuilt {n : ParsedDogecoinBlock} {rest : List ParsedDogecoinBlock}
    (hs : StoresChain (w.cutTail n.height) (below ++ overlap))
    (hv : ValidBlocks .empty ((below ++ overlap) ++ n::rest) L')
    (hup : shouldUpdateCoreCurrentState context) :
    wp (insertPendingCoreWindowWithRecovery ((n::rest).map coreBlockApplication) context)
      (fun _ t => ∀ a, t.addressBalance a = Warehouse.sumValues (t.addressCoins a))
      (FailsWith (fun _ _ => True)) Anywhere (w.rewound boundaries n.height context) := by
  obtain ⟨M,hM,hnew⟩ := hv.append
  have hend := windowEndHeight_le hv.linked
  have hcurrent : CurrentStateOf (w.rewound boundaries n.height context) M n.height :=
    currentStateOf_rewound hup hs hM hend
  have hfacts : FactsOf (w.rewound boundaries n.height context) M n.height :=
    (holdsChain_of_stores (storesChain_rewound hs) hM).facts.mono hend
  refine wp_mono (wp_insertPendingCoreWindowWithRecovery_absent hfacts
    ⟨fun k => Or.inr (hcurrent.coin k),hcurrent.versions⟩ hnew (Nat.le_refl _) hup) ?_
    (fun _ _ h => h) (fun _ h => h)
  intro _ t ht a
  have hbalance := ht a
  rw [absentPrevouts_of_current hcurrent,hcurrent.balance,
    Warehouse.sumValues_addressCoins hcurrent.coin] at hbalance
  simp only [totalWeight,List.map_nil,List.sum_nil] at hbalance
  omega

/-- After an accepted window, the balances of the addresses that the window touches are the sums
of their unspent outputs exactly when the window replaced stored blocks, which rebuilds the
current state, or spent no missing output that is worth anything. -/
theorem balance_after_window_iff (below overlap stale new : List ParsedDogecoinBlock)
    (h : PartialState w ((below ++ overlap) ++ stale) L)
    (hv : ValidBlocks .empty ((below ++ overlap) ++ new) L') (hd : Diverges stale new)
    (hup : shouldUpdateCoreCurrentState context) {fates rest : List Fate}
    {result : CoreDogecoinApplyResult}
    (hrun : (applyCoreDogecoinWindow boundaries ((overlap ++ new).map coreBlockApplication)
      context).run w fates = (.value result,t,rest)) :
    (∀ a, w.TouchedBy (overlap ++ new) a →
      t.addressBalance a = Warehouse.sumValues (t.addressCoins a)) ↔
    (stale ≠ [] ∧ new ≠ []) ∨ w.MissingPrevoutsWorthless new := by
  have hwp : wp (applyCoreDogecoinWindow boundaries ((overlap ++ new).map coreBlockApplication)
      context) (fun _ t => (∀ a, w.TouchedBy (overlap ++ new) a →
        t.addressBalance a = Warehouse.sumValues (t.addressCoins a)) ↔
          (stale ≠ [] ∧ new ≠ []) ∨ w.MissingPrevoutsWorthless new)
      (FailsWith (fun _ _ => True)) Anywhere w := by
    refine wp_applyCoreDogecoinWindow_meeting h.stored h.valid.linked hv hd ?_ ?_
    · rintro rfl
      refine iff_of_true (fun a _ => h.balance a) (Or.inr ?_)
      intro k hk
      simp [externalCoreSpendKeys,OrderedMap.distinct] at hk
    · intro hne _
      cases stale with
      | nil =>
        rw [List.append_nil] at h
        simp only [ne_eq,not_true_eq_false,false_and,false_or]
        exact wp_extend_absent h hv hne hup
      | cons s stale => cases new with
        | nil => exact absurd rfl hne
        | cons n rest =>
          have hcut : StoresChain (w.cutTail n.height) (below ++ overlap) := by
            obtain ⟨hheight,-⟩ := hd s n rfl rfl
            refine storesChain_cutTail h.stored (fun b hb => ?_) (fun b hb => ?_)
            · have := height_lt_windowEndHeight (List.isChain_append.mp hv.linked).1 hb
              have := windowEndHeight_le hv.linked
              omega
            · have := (isChain_heights (List.isChain_append.mp h.valid.linked).2.1 hb).1
              omega
          refine wp_mono (wp_replace_rebuilt hcut hv hup) ?_ (fun _ _ h => h) (fun _ h => h)
          exact fun _ t ht => iff_of_true (fun a _ => ht a) (Or.inl ⟨by simp,by simp⟩)
  exact value_of_wp hwp hrun

/-- The first of the payment blocks is stored, and the current row of its output `c0:0` is lost
with its share of the balance of `A`. -/
def missingRowWarehouse : Warehouse :=
  { emptyWarehouse with
    coreUtxoCreates := (paymentBlocks.take 1).flatMap blockCreates
    coreProcessedBlocks := (paymentBlocks.take 1).map processedBlockRow
    currentUtxos := (((paymentBlocks.take 1).flatMap blockCreates).drop 1).map (fun c => ⟨c,0⟩)
    currentUtxosByAddress :=
      (((paymentBlocks.take 1).flatMap blockCreates).drop 1).map (fun c => ⟨c,0⟩)
    balances := [⟨"A","",60,0,1⟩]
    analyticsBalances := [⟨"A","",60,0,1⟩] }

theorem missingRowWarehouse_balance (a : String) : missingRowWarehouse.addressBalance a =
    Warehouse.sumValues (missingRowWarehouse.addressCoins a) := by
  by_cases ha : a = "A"
  · subst ha
    decide
  · have hrow : missingRowWarehouse.latestBalanceRow (balanceKey a "") = none := by
      refine Replacing.latest_eq_none.mpr (fun r hr hk => ?_)
      obtain rfl : r = ⟨"A","",60,0,1⟩ := by simpa [missingRowWarehouse] using hr
      exact ha (Prod.mk.inj hk).1.symm
    have hcoins : missingRowWarehouse.addressCoins a = [] := by
      refine List.filter_eq_nil_iff.mpr (fun c hc hca => ?_)
      have howner : ∀ c ∈ missingRowWarehouse.currentCoins, c.address = "A" := by decide
      have haddress := howner c hc
      simp only [Bool.and_eq_true,decide_eq_true_eq] at hca
      exact ha (hca.2.symm.trans haddress)
    rw [Warehouse.addressBalance,hrow,hcoins]
    rfl

theorem missingRowWarehouse_state :
    ∃ L, PartialState missingRowWarehouse (paymentBlocks.take 1) L := by
  obtain ⟨M,hM,-⟩ := ValidBlocks.append (show ValidBlocks .empty
    (paymentBlocks.take 1 ++ paymentBlocks.drop 1) paymentLedger from paymentBlocks_valid)
  have hcreated : M.created = (paymentBlocks.take 1).flatMap blockCreates := hM.created
  have hspent : M.spent = [] := hM.spent
  refine ⟨M,⟨fun _ => Iff.rfl,fun _ => Iff.rfl,fun _ => Iff.rfl⟩,hM,⟨fun k => ?_,?_⟩,
    missingRowWarehouse_balance⟩
  · by_cases hk : k = ⟨"c0",1⟩
    · subst hk
      have hmem : ((paymentBlocks.take 1).flatMap blockCreates).getLast (by decide) ∈
          M.unspent := by
        unfold Ledger.unspent
        rw [hcreated,hspent]
        decide
      exact Or.inr (Eq.trans (by decide) (Ledger.coin_eq_some.mpr ⟨hmem,rfl⟩).symm)
    · refine Or.inl (Replacing.latest_eq_none.mpr (fun r hr hrk => hk ?_))
      have hkeys : ∀ r ∈ missingRowWarehouse.currentUtxos, r.key = ⟨"c0",1⟩ := by decide
      exact hrk.symm.trans (hkeys r hr)
  · unfold Warehouse.VersionsBelow
    decide

theorem missingRowWarehouse_run : ∃ result t,
    (applyCoreDogecoinWindow (fun _ => []) (((paymentBlocks.drop 1).take 1).map
      coreBlockApplication) ⟨some true,none⟩).run missingRowWarehouse [] = (.value result,t,[]) ∧
    t.addressBalance "A" = 29 ∧ Warehouse.sumValues (t.addressCoins "A") = 79 :=
  ⟨_,_,rfl,by decide,by decide⟩

/-- The lost output is repaired and spent, and its value is taken off the rest of the balance. -/
theorem balance_after_repair_short : ∃ L result t,
    PartialState missingRowWarehouse (paymentBlocks.take 1) L ∧
    (applyCoreDogecoinWindow (fun _ => []) (((paymentBlocks.drop 1).take 1).map
      coreBlockApplication) ⟨some true,none⟩).run missingRowWarehouse [] = (.value result,t,[]) ∧
    missingRowWarehouse.TouchedBy ((paymentBlocks.drop 1).take 1) "A" ∧
    t.addressBalance "A" ≠ Warehouse.sumValues (t.addressCoins "A") := by
  obtain ⟨L,hL⟩ := missingRowWarehouse_state
  obtain ⟨result,t,hrun,hbalance,hsum⟩ := missingRowWarehouse_run
  refine ⟨L,result,t,hL,hrun,Or.inl (by decide),?_⟩
  rw [hbalance,hsum]
  decide

/-- The exact condition at the same window, where both sides are false. -/
theorem balance_after_window_iff_paymentBlocks : ∃ result t,
    (applyCoreDogecoinWindow (fun _ => []) (([] ++ (paymentBlocks.drop 1).take 1).map
      coreBlockApplication) ⟨some true,none⟩).run missingRowWarehouse [] = (.value result,t,[]) ∧
    ((∀ a, missingRowWarehouse.TouchedBy ([] ++ (paymentBlocks.drop 1).take 1) a →
      t.addressBalance a = Warehouse.sumValues (t.addressCoins a)) ↔
    (([] : List ParsedDogecoinBlock) ≠ [] ∧ (paymentBlocks.drop 1).take 1 ≠ []) ∨
      missingRowWarehouse.MissingPrevoutsWorthless ((paymentBlocks.drop 1).take 1)) := by
  obtain ⟨L,hL⟩ := missingRowWarehouse_state
  obtain ⟨M,hM,-⟩ := ValidBlocks.append (show ValidBlocks .empty
    (((paymentBlocks.take 1 ++ []) ++ (paymentBlocks.drop 1).take 1) ++ paymentBlocks.drop 2)
    paymentLedger from paymentBlocks_valid)
  obtain ⟨result,t,hrun,-⟩ := missingRowWarehouse_run
  refine ⟨result,t,hrun,balance_after_window_iff (paymentBlocks.take 1) [] [] _ hL hM ?_ rfl hrun⟩
  intro s n hs
  cases hs

end Balance

end OnlyDoge
