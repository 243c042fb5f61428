import OnlyDoge.Warehouse.BalanceChange
import OnlyDoge.Library.Machine
set_option autoImplicit false

/-!
`analytics_balances_current_v1` against the current balances, over runs of windows, rewinds and
materializations.
-/

namespace OnlyDoge
open Job

/-- `ORDER BY (asset_address, balance_i256, address)`. -/
def analyticsBalanceKey (row : VersionedBalanceRow) : String × Int × String :=
  (row.assetAddress,row.balance,row.address)

namespace Warehouse

def collapsedAnalyticsBalances (w : Warehouse) : List VersionedBalanceRow :=
  Replacing.collapse analyticsBalanceKey VersionedBalanceRow.version w.analyticsBalances

/-- A key has as many collapsed rows as it has current balances, with the same balance. -/
def OneAnalyticsRow (w : Warehouse) : Prop :=
  ∀ key, (w.collapsedAnalyticsBalances.filter (·.key = key)).map (·.balance) =
    ((w.latestBalanceRow key).map (·.balance)).toList

end Warehouse

/-- All rows of a key carry one balance. -/
def OneBalance (rows : List VersionedBalanceRow) : Prop :=
  ∀ r ∈ rows, ∀ r' ∈ rows, r.key = r'.key → r.balance = r'.balance

section State
variable {w : Warehouse}

theorem mem_collapsedAnalyticsBalances {r : VersionedBalanceRow}
    (h : r ∈ w.collapsedAnalyticsBalances) : r ∈ w.analyticsBalances :=
  (Replacing.latest_spec (Replacing.mem_collapse.mp h)).1

theorem collapsedAnalyticsBalances_of_mem {r : VersionedBalanceRow}
    (h : r ∈ w.analyticsBalances) :
    ∃ x ∈ w.collapsedAnalyticsBalances, x.key = r.key ∧ x.balance = r.balance := by
  obtain ⟨x,hx⟩ := Replacing.latest_isSome analyticsBalanceKey VersionedBalanceRow.version h
  have hkey := (Replacing.latest_spec hx).2.1
  unfold analyticsBalanceKey at hkey
  obtain ⟨hasset,hrest⟩ := Prod.mk.inj hkey
  obtain ⟨hbalance,haddress⟩ := Prod.mk.inj hrest
  refine ⟨x,Replacing.mem_collapse.mpr ?_,?_,hbalance⟩
  · rwa [(Replacing.latest_spec hx).2.1]
  · unfold VersionedBalanceRow.key
    rw [hasset,haddress]

theorem eq_of_key_balance {r r' : VersionedBalanceRow} (hr : r ∈ w.collapsedAnalyticsBalances)
    (hr' : r' ∈ w.collapsedAnalyticsBalances) (hkey : r.key = r'.key)
    (hbalance : r.balance = r'.balance) : r = r' := by
  refine List.inj_on_of_nodup_map (Replacing.collapse_nodup _ _ _) hr hr' ?_
  unfold analyticsBalanceKey
  obtain ⟨haddress,hasset⟩ := Prod.mk.inj hkey
  rw [haddress,hasset,hbalance]

/-- With the same rows in both tables, one row is left for each address exactly when no address
has rows of two balances. -/
theorem oneAnalyticsRow_iff (h : w.analyticsBalances = w.balances) :
    w.OneAnalyticsRow ↔ OneBalance w.balances := by
  constructor
  · intro hone r hr r' hr' hkey
    have hin {x : VersionedBalanceRow} (hx : x ∈ w.balances) (hxk : x.key = r.key) :
        x.balance ∈ ((w.latestBalanceRow r.key).map (·.balance)).toList := by
      obtain ⟨y,hy,hyk,hyb⟩ := collapsedAnalyticsBalances_of_mem (h ▸ hx)
      rw [← hone,List.mem_map]
      exact ⟨y,List.mem_filter.mpr ⟨hy,decide_eq_true (hyk.trans hxk)⟩,hyb⟩
    have hb := Option.mem_toList.mp (hin hr rfl)
    have hb' := Option.mem_toList.mp (hin hr' hkey.symm)
    exact Option.some.inj (hb.symm.trans hb')
  · intro hone key
    have hsame {x y : VersionedBalanceRow} (hx : x ∈ w.collapsedAnalyticsBalances)
        (hy : y ∈ w.collapsedAnalyticsBalances) (hxk : x.key = key) (hyk : y.key = key) : x = y :=
      eq_of_key_balance hx hy (hxk.trans hyk.symm)
        (hone x (h ▸ mem_collapsedAnalyticsBalances hx) y
          (h ▸ mem_collapsedAnalyticsBalances hy) (hxk.trans hyk.symm))
    have hnodup : (w.collapsedAnalyticsBalances.filter (·.key = key)).Nodup :=
      (Replacing.collapse_nodup _ _ _).of_map.filter _
    have hmem {x : VersionedBalanceRow}
        (hx : x ∈ w.collapsedAnalyticsBalances.filter (·.key = key)) :
        x ∈ w.collapsedAnalyticsBalances ∧ x.key = key := by
      simpa using hx
    cases hlatest : w.latestBalanceRow key with
    | none =>
      have hnil : w.collapsedAnalyticsBalances.filter (·.key = key) = [] := by
        refine List.eq_nil_iff_forall_not_mem.mpr (fun x hx => ?_)
        obtain ⟨hx,hxk⟩ := hmem hx
        exact Replacing.latest_eq_none.mp hlatest x (h ▸ mem_collapsedAnalyticsBalances hx) hxk
      simp [hnil]
    | some row =>
      obtain ⟨hrow,hrowk,-⟩ := Replacing.latest_spec hlatest
      obtain ⟨x,hx,hxk,hxb⟩ := collapsedAnalyticsBalances_of_mem (h ▸ hrow)
      have hxf : x ∈ w.collapsedAnalyticsBalances.filter (·.key = key) :=
        List.mem_filter.mpr ⟨hx,decide_eq_true (hxk.trans hrowk)⟩
      have hsingle : w.collapsedAnalyticsBalances.filter (·.key = key) = [x] := by
        refine List.perm_singleton.mp ((List.perm_ext_iff_of_nodup hnodup (by simp)).mpr ?_)
        intro y
        rw [List.mem_singleton]
        constructor
        · intro hy
          obtain ⟨hy,hyk⟩ := hmem hy
          exact hsame hy hx hyk (hxk.trans hrowk)
        · rintro rfl
          exact hxf
      simp [hsingle,hxb]

end State

section Materialized
variable {w : Warehouse} {boundaries : Warehouse → List String}

theorem oneBalance_materializedBalances (w : Warehouse) (asOfBlockHeight : Nat)
    (ranges : List ClickHouseStringRange) :
    OneBalance (ranges.flatMap (w.materializedBalances asOfBlockHeight)) := by
  have hrow {range : ClickHouseStringRange} {r : VersionedBalanceRow}
      (hr : r ∈ w.materializedBalances asOfBlockHeight range) :
      range.contains r.address = true ∧
        r.balance = Warehouse.sumValues
          ((w.balanceSource range).filter (·.address = r.address)) := by
    unfold Warehouse.materializedBalances at hr
    obtain ⟨address,ha,rfl⟩ := List.mem_map.mp hr
    obtain ⟨o,ho,rfl⟩ := List.mem_map.mp (OrderedMap.mem_distinct.mp ha)
    unfold Warehouse.balanceSource at ho
    have := (List.mem_filter.mp ho).2
    simp only [Bool.and_eq_true] at this
    exact ⟨this.2,rfl⟩
  have hsource {range : ClickHouseStringRange} {address : String}
      (hc : range.contains address = true) :
      (w.balanceSource range).filter (·.address = address) =
        (((Replacing.collapse Warehouse.byAddressKey UtxoRow.version w.currentUtxosByAddress).map
          (·.output)).filter (fun output => output.isSpendable && decide (output.address ≠ "") &&
            output.unspent)).filter (·.address = address) := by
    unfold Warehouse.balanceSource
    rw [List.filter_filter,List.filter_filter]
    refine List.filter_congr (fun o _ => ?_)
    by_cases ho : o.address = address
    · simp [ho,hc]
    · simp [ho]
  intro r hr r' hr' hkey
  obtain ⟨range,-,hr⟩ := List.mem_flatMap.mp hr
  obtain ⟨range',-,hr'⟩ := List.mem_flatMap.mp hr'
  obtain ⟨hc,hb⟩ := hrow hr
  obtain ⟨hc',hb'⟩ := hrow hr'
  have haddress : r.address = r'.address := (Prod.mk.inj hkey).1
  rw [hb,hb',hsource hc,hsource hc',haddress]

/-- Both balance tables hold the same rows, one balance for each key. -/
structure BalancesAgree (w : Warehouse) : Prop where
  same : w.analyticsBalances = w.balances
  one : OneBalance w.balances

theorem balancesAgree_empty {t : Warehouse} (hb : t.balances = []) (ha : t.analyticsBalances = []) :
    BalancesAgree t :=
  ⟨by rw [ha,hb],by rw [hb]; intro r hr; cases hr⟩

theorem balancesAgree_rebuilt (asOfBlockHeight : Nat) (ranges : List ClickHouseStringRange) :
    BalancesAgree (w.rebuilt boundaries asOfBlockHeight ranges) :=
  ⟨rfl,oneBalance_materializedBalances _ _ _⟩

theorem balancesAgree_rewound {fromBlockHeight : Nat} {context : CoreDogecoinApplyContext}
    (h : BalancesAgree w) : BalancesAgree (w.rewound boundaries fromBlockHeight context) := by
  unfold Warehouse.rewound
  split
  · cases fromBlockHeight with
    | zero => exact balancesAgree_empty rfl rfl
    | succ asOfBlockHeight => exact balancesAgree_rebuilt _ _
  · exact ⟨h.same,h.one⟩

theorem balancesAgree_sameTables {t : Warehouse} (h : BalancesAgree w)
    (ht : SameBalanceTables w t) : BalancesAgree t := by
  obtain ⟨hb,ha⟩ := ht
  exact ⟨by rw [ha,hb,h.same],by rw [hb]; exact h.one⟩

/-- The materialization of `promoteBackfillToOnline`, which may resume from a checkpoint. -/
def resumedMaterialization (resumeFrom : Option (Nat × Nat)) : MaterializationContext Warehouse :=
  ⟨.whole Warehouse,resumeFrom,fun _ _ => return ()⟩

theorem wp_insertCoreCurrentUtxoRanges_balances {resumeFrom : Option (Nat × Nat)}
    {asOfBlockHeight completedRanges : Nat} {ranges : List ClickHouseStringRange} :
    wp (insertCoreCurrentUtxoRanges (resumedMaterialization resumeFrom) asOfBlockHeight
      completedRanges ranges) (fun _ t => SameBalanceTables w t) OnlyFaults Anywhere w := by
  refine wp_forEach (fun _ t => SameBalanceTables w t) ?_ ⟨rfl,rfl⟩
  rintro passed ⟨range,index⟩ ahead t - ht
  refine wp_ite (fun _ => wp_pure ht) (fun _ => ?_)
  exact wp_bind (wp_zoom (wp_write (wp_pure ht) trivial trivial trivial))

theorem wp_materialize_balances {resumeFrom : Option (Nat × Nat)} {asOfBlockHeight : Nat} :
    wp (materializeCoreDogecoinCurrentState (resumedMaterialization resumeFrom) boundaries
      asOfBlockHeight) (fun _ t => BalancesAgree t) OnlyFaults Anywhere w := by
  -- the balance tables are empty when the balances are inserted
  have hinsert {t : Warehouse} (hb : t.balances = []) (ha : t.analyticsBalances = []) :
      wp (do
          Job.zoom (resumedMaterialization resumeFrom).warehouse
            (insertCoreCurrentBalances boundaries asOfBlockHeight)
          Job.zoom (resumedMaterialization resumeFrom).warehouse
            (insertCoreAppliedBlocks asOfBlockHeight))
        (fun _ t => BalancesAgree t) OnlyFaults Anywhere t := by
    refine wp_bind (wp_zoom (wp_insertCoreCurrentBalances hb ha ?_))
    rintro rows rfl
    refine wp_zoom (wp_insertCoreAppliedBlocks ?_)
    exact ⟨rfl,oneBalance_materializedBalances _ _ _⟩
  refine wp_bind (wp_zoom (wp_coreCurrentStateRanges ?_))
  generalize resumableCompletedRanges (resumedMaterialization resumeFrom).resumeFrom _ = completed
  by_cases hzero : completed = 0
  · subst hzero
    refine wp_bind (wp_when (fun _ => wp_zoom (wp_clearCoreDogecoinCurrentState ?_))
      (fun h => absurd rfl h))
    refine wp_bind (wp_mono wp_insertCoreCurrentUtxoRanges_balances ?_ (fun _ _ h => h)
      (fun _ h => h))
    rintro _ t ⟨hb,ha⟩
    exact wp_bind (wp_when (fun h => absurd h (Nat.lt_irrefl 0)) (fun _ => hinsert hb ha))
  · refine wp_bind (wp_when (fun h => absurd h hzero) (fun _ => ?_))
    refine wp_bind (wp_mono wp_insertCoreCurrentUtxoRanges_balances ?_ (fun _ _ h => h)
      (fun _ h => h))
    intro _ t _
    refine wp_bind (wp_when (fun _ => wp_zoom (wp_forEach_write ?_
      (fun _ _ _ => ⟨trivial,trivial⟩))) (fun h => absurd (Nat.pos_of_ne_zero hzero) h))
    exact hinsert rfl rfl

end Materialized

/-- What the indexer asks of the warehouse. -/
inductive WarehouseOp where
  | applyWindow (input : List CoreDogecoinBlockApplication) (context : CoreDogecoinApplyContext)
  | recoverWindow (fromBlockHeight : Nat) (context : CoreDogecoinApplyContext)
  | materialize (asOfBlockHeight : Nat) (resumeFrom : Option (Nat × Nat))

section Runs
variable (boundaries : Warehouse → List String)

namespace WarehouseOp

def job : WarehouseOp → WarehouseJob Unit
  | .applyWindow input context => do
    let _ ← applyCoreDogecoinWindow boundaries input context
    return ()
  | .recoverWindow fromBlockHeight context =>
    recoverCoreDogecoinWindow boundaries fromBlockHeight context
  | .materialize asOfBlockHeight resumeFrom =>
    materializeCoreDogecoinCurrentState (resumedMaterialization resumeFrom) boundaries
      asOfBlockHeight

/-- The warehouse after an operation, which may have ended with an error of its own. -/
def after (op : WarehouseOp) (w : Warehouse) : Warehouse := ((op.job boundaries).run w []).2.1

/-- An accepted window with the current-state update moves no balance that has a row already,
on the warehouse as a rewind of the window leaves it. -/
def MovesOnlyNewBalances (op : WarehouseOp) (w : Warehouse) : Prop :=
  match op with
  | .applyWindow input context =>
    shouldUpdateCoreCurrentState context →
    (∃ t, (op.job boundaries).run w [] = (.value (),t,[])) →
    ∀ v pending, w.pendingWindow boundaries input context = .ok (v,pending) →
      ∀ address, (v.latestBalanceRow (balanceKey address "")).isSome →
        v.windowAmount pending address = 0
  | .recoverWindow _ _ => True
  | .materialize _ _ => True

end WarehouseOp

def afterOps (ops : List WarehouseOp) : Warehouse :=
  ops.foldl (fun w op => op.after boundaries w) emptyWarehouse

variable {boundaries} {w : Warehouse}

theorem balancesAgree_pendingWindow {input pending : List CoreDogecoinBlockApplication}
    {context : CoreDogecoinApplyContext} {v : Warehouse} (h : BalancesAgree w)
    (hv : w.pendingWindow boundaries input context = .ok (v,pending)) : BalancesAgree v := by
  unfold Warehouse.pendingWindow at hv
  simp only at hv
  split at hv
  · cases hv
    exact balancesAgree_rewound h
  · obtain ⟨_,-,heq⟩ := map_eq_ok hv
    cases heq
    exact h

theorem addressBalance_of_mem {r : VersionedBalanceRow} (h : OneBalance w.balances)
    (hr : r ∈ w.balances) (hasset : r.assetAddress = "") :
    (w.latestBalanceRow (balanceKey r.address "")).isSome ∧ w.addressBalance r.address =
      r.balance := by
  have hkey : r.key = balanceKey r.address "" := by
    unfold VersionedBalanceRow.key
    rw [hasset]
  obtain ⟨x,hx⟩ := Replacing.latest_isSome VersionedBalanceRow.key VersionedBalanceRow.version hr
  obtain ⟨hmem,hxk,-⟩ := Replacing.latest_spec hx
  rw [hkey] at hx
  have hlatest : w.latestBalanceRow (balanceKey r.address "") = some x := hx
  unfold Warehouse.addressBalance
  rw [hlatest]
  exact ⟨rfl,h x hmem r hr hxk⟩

/-- The rows of a window leave one balance for each key exactly when the amounts of the addresses
with a row are zero. -/
theorem oneBalance_rowsOfWindow_iff {pending : List CoreDogecoinBlockApplication}
    {rows : List VersionedBalanceRow} (h : OneBalance w.balances)
    (hrows : RowsOfWindow w pending rows) : OneBalance (w.balances ++ rows) ↔
      ∀ address, (w.latestBalanceRow (balanceKey address "")).isSome →
        w.windowAmount pending address = 0 := by
  constructor
  · intro hone address hsome
    by_contra hne
    obtain ⟨row,hrow,rfl⟩ := hrows.touched address hne
    obtain ⟨x,hx⟩ := Option.isSome_iff_exists.mp hsome
    obtain ⟨hmem,hkey,-⟩ := Replacing.latest_spec hx
    have hrowkey : row.key = x.key := by
      rw [hkey]
      unfold VersionedBalanceRow.key
      rw [hrows.native row hrow]
    have heq := hone row (List.mem_append_right _ hrow) x (List.mem_append_left _ hmem) hrowkey
    have hold : w.addressBalance row.address = x.balance := by
      unfold Warehouse.addressBalance
      rw [hx]
    have := hrows.balance row hrow
    omega
  · intro hzero
    -- a new row repeats the balance that its address has
    have hnew {row : VersionedBalanceRow} (hrow : row ∈ rows) {r : VersionedBalanceRow}
        (hr : r ∈ w.balances) (hkey : r.key = row.key) : r.balance = row.balance := by
      obtain ⟨haddress,hasset⟩ := Prod.mk.inj hkey
      obtain ⟨hsome,hbalance⟩ := addressBalance_of_mem h hr (hasset.trans (hrows.native row hrow))
      have hamount := hzero r.address hsome
      have := hrows.balance row hrow
      rw [← haddress] at this
      omega
    intro r hr r' hr' hkey
    rcases List.mem_append.mp hr with hr | hr
    · rcases List.mem_append.mp hr' with hr' | hr'
      · exact h r hr r' hr' hkey
      · exact hnew hr' hr hkey
    · rcases List.mem_append.mp hr' with hr' | hr'
      · exact (hnew hr hr' hkey.symm).symm
      · rw [hrows.balance r hr,hrows.balance r' hr',(Prod.mk.inj hkey).1]

/-- One operation keeps both tables the same, and keeps one balance for each key exactly when it
moves only new balances. -/
theorem after_balances (op : WarehouseOp) (h : BalancesAgree w) :
    (op.after boundaries w).analyticsBalances = (op.after boundaries w).balances ∧
    (OneBalance (op.after boundaries w).balances ↔ op.MovesOnlyNewBalances boundaries w) := by
  unfold WarehouseOp.after
  cases op with
  | recoverWindow fromBlockHeight context =>
    have hjob : wp ((WarehouseOp.recoverWindow fromBlockHeight context).job boundaries)
        (fun _ => BalancesAgree) OnlyFaults Anywhere w :=
      wp_rewindCoreDogecoinWindow (balancesAgree_rewound h)
    obtain ⟨_,t,hrun,ht⟩ | ⟨e,t,-,he⟩ := ends_of_wp hjob
    · rw [hrun]
      exact ⟨ht.same,iff_of_true ht.one trivial⟩
    · exact absurd he id
  | materialize asOfBlockHeight resumeFrom =>
    have hjob : wp ((WarehouseOp.materialize asOfBlockHeight resumeFrom).job boundaries)
        (fun _ => BalancesAgree) OnlyFaults Anywhere w := wp_materialize_balances
    obtain ⟨_,t,hrun,ht⟩ | ⟨e,t,-,he⟩ := ends_of_wp hjob
    · rw [hrun]
      exact ⟨ht.same,iff_of_true ht.one trivial⟩
    · exact absurd he id
  | applyWindow input context =>
    have hjob : wp ((WarehouseOp.applyWindow input context).job boundaries)
        (fun _ t => ∃ v pending, w.pendingWindow boundaries input context = .ok (v,pending) ∧
          WritesBalances v t pending context)
        (FailsWith (fun _ t => SameBalanceTables w t ∨ ∃ v pending,
          w.pendingWindow boundaries input context = .ok (v,pending) ∧ SameBalanceTables v t))
        Anywhere w :=
      wp_bind (wp_mono wp_applyCoreDogecoinWindow_balances (fun _ _ h => wp_pure h)
        (fun _ _ h => h) (fun _ h => h))
    obtain ⟨_,t,hrun,v,pending,hv,rows,hadd,hrows⟩ | ⟨e,t,hrun,he⟩ := ends_of_wp hjob
    · have hagree := balancesAgree_pendingWindow h hv
      rw [hrun]
      refine ⟨by rw [hadd.analytics,hadd.balances,hagree.same],?_⟩
      simp only [hadd.balances,WarehouseOp.MovesOnlyNewBalances]
      by_cases hup : shouldUpdateCoreCurrentState context = true
      · rw [if_pos hup] at hrows
        rw [oneBalance_rowsOfWindow_iff hagree.one hrows]
        constructor
        · intro hzero _ _ v' pending' hv'
          obtain ⟨rfl,rfl⟩ := Prod.mk.inj (Except.ok.inj (hv.symm.trans hv'))
          exact hzero
        · exact fun hmoves => hmoves hup ⟨t,hrun⟩ v pending hv
      · rw [if_neg hup] at hrows
        subst hrows
        rw [List.append_nil]
        exact iff_of_true hagree.one (fun hup' => absurd hup' hup)
    · have hagree : BalancesAgree t := by
        rcases he with ht | ⟨v,pending,hv,ht⟩
        · exact balancesAgree_sameTables h ht
        · exact balancesAgree_sameTables (balancesAgree_pendingWindow h hv) ht
      rw [hrun]
      refine ⟨hagree.same,iff_of_true hagree.one ?_⟩
      rintro - ⟨t',hrun'⟩
      rw [hrun] at hrun'
      cases hrun'

theorem afterOps_snoc (ops : List WarehouseOp) (op : WarehouseOp) :
    afterOps boundaries (ops ++ [op]) = op.after boundaries (afterOps boundaries ops) := by
  simp [afterOps]

theorem afterOps_balancesAgree {ops : List WarehouseOp}
    (h : ∀ passed op ahead, ops = passed ++ op::ahead →
      op.MovesOnlyNewBalances boundaries (afterOps boundaries passed)) :
    BalancesAgree (afterOps boundaries ops) := by
  induction ops using List.reverseRecOn with
  | nil => exact balancesAgree_empty rfl rfl
  | append_singleton ops op ih =>
    have hops : BalancesAgree (afterOps boundaries ops) :=
      ih (fun passed op' ahead heq => h passed op' (ahead ++ [op]) (by simp [heq]))
    obtain ⟨hsame,hone⟩ := after_balances op hops
    rw [afterOps_snoc]
    exact ⟨hsame,hone.mpr (h ops op [] rfl)⟩

end Runs

/-- The collapsed analytics table holds one row for each current balance in all states of a run
exactly when no accepted window of the run moves a balance that has a row. -/
theorem analytics_one_row_iff (boundaries : Warehouse → List String) (ops : List WarehouseOp) :
    (∀ passed ahead, ops = passed ++ ahead → (afterOps boundaries passed).OneAnalyticsRow) ↔
      ∀ passed op ahead, ops = passed ++ op::ahead →
        op.MovesOnlyNewBalances boundaries (afterOps boundaries passed) := by
  constructor
  · intro hone
    induction ops using List.reverseRecOn with
    | nil => intro passed op ahead heq; simp at heq
    | append_singleton ops last ih =>
      have hops := ih (fun passed ahead heq => hone passed (ahead ++ [last]) (by simp [heq]))
      intro passed op ahead heq
      rcases Machine.snoc_eq_append_cons heq with ⟨rfl,rfl,rfl⟩ | ⟨rest,rfl,rfl⟩
      · have hagree := afterOps_balancesAgree hops
        obtain ⟨hsame,hiff⟩ := after_balances last hagree
        have hrow := hone (ops ++ [last]) [] (by simp)
        rw [afterOps_snoc] at hrow
        exact hiff.mp ((oneAnalyticsRow_iff hsame).mp hrow)
      · exact hops passed op rest rfl
  · intro hmoves passed ahead heq
    have hagree : BalancesAgree (afterOps boundaries passed) :=
      afterOps_balancesAgree (fun passed' op ahead' h =>
        hmoves passed' op (ahead' ++ ahead) (by simp [heq,h]))
    exact (oneAnalyticsRow_iff hagree.same).mpr hagree.one

/-- The windows of the first two blocks of `paymentBlocks`. -/
def paymentOps : List WarehouseOp :=
  [.applyWindow ((paymentBlocks.take 1).map coreBlockApplication) ⟨some true,none⟩,
    .applyWindow (((paymentBlocks.drop 1).take 1).map coreBlockApplication) ⟨some true,none⟩]

/-- The first window gives `A` the balance 110 and the second one 79; both rows stay. -/
theorem analytics_row_of_old_balance :
    ((afterOps (fun _ => []) paymentOps).collapsedAnalyticsBalances.filter
        (·.key = balanceKey "A" "")).map (·.balance) = [110,79] ∧
      (afterOps (fun _ => []) paymentOps).addressBalance "A" = 79 ∧
      ¬(afterOps (fun _ => []) paymentOps).OneAnalyticsRow := by
  have hrows : ((afterOps (fun _ => []) paymentOps).collapsedAnalyticsBalances.filter
      (·.key = balanceKey "A" "")).map (·.balance) = [110,79] := by decide
  refine ⟨hrows,by decide,fun hone => ?_⟩
  have hlength := congrArg List.length (hone (balanceKey "A" ""))
  rw [hrows] at hlength
  have hle := Option.length_toList_le
    (o := (((afterOps (fun _ => []) paymentOps).latestBalanceRow (balanceKey "A" "")).map
    (·.balance)))
  simp only [List.length_cons,List.length_nil] at hlength
  omega

end OnlyDoge
