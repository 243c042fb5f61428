import OnlyDoge.Warehouse.Window
import OnlyDoge.Library.Precondition
set_option autoImplicit false

/-!
What the jobs of a window do when they end: the state after a success, and which of their own
errors they throw before anything is written.
-/

namespace OnlyDoge
open Job

/-- A failure is a failed call, or an error of the program for which `P` holds. -/
def FailsWith {σ : Type} (P : CoreError → σ → Prop) : Failure CoreError → σ → Prop
  | .fault,_ => True
  | .thrown error,s => P error s

def Anywhere {σ : Type} : σ → Prop := fun _ => True

theorem wp_insertRows {ρ : Type} {insert : List ρ → Warehouse → Warehouse} {values : List ρ}
    {Q : Unit → Warehouse → Prop} {E : Failure CoreError → Warehouse → Prop}
    {K : Warehouse → Prop} {w : Warehouse} (hnil : insert [] w = w)
    (hdone : Q () (insert values w)) (hlost : E .fault (insert values w))
    (hrefused : E .fault w) (hkilled : K w) : wp (insertRows insert values) Q E K w := by
  unfold insertRows
  cases values with
  | nil =>
    rw [hnil] at hdone
    exact wp_pure hdone
  | cons v values => exact wp_write hdone hlost hrefused hkilled

theorem filter_lt_eq_self {ρ : Type} {rows : List ρ} {height : ρ → Nat} {fromHeight : Nat}
    (h : (rows.map height).any (fromHeight ≤ ·) = false) :
    rows.filter (fun r => height r < fromHeight) = rows := by
  rw [List.filter_eq_self]
  intro r hr
  rw [List.any_eq_false] at h
  have := h (height r) (List.mem_map_of_mem hr)
  simpa using this

theorem deleteTail_eq_self {w : Warehouse} {fromBlockHeight : Nat} {table : CoreTailTable}
    (h : (w.tailHeights table).any (fromBlockHeight ≤ ·) = false) :
    w.deleteTail fromBlockHeight table = w := by
  cases table <;>
    simp only [Warehouse.tailHeights] at h <;>
    simp only [Warehouse.deleteTail,filter_lt_eq_self h]

def Warehouse.cutTables (fromBlockHeight : Nat) (tables : List CoreTailTable) (w : Warehouse) :
    Warehouse :=
  tables.foldl (fun w table => w.deleteTail fromBlockHeight table) w

/-- The warehouse without the rows at and above a height. -/
def Warehouse.cutTail (fromBlockHeight : Nat) (w : Warehouse) : Warehouse :=
  { w with
    coreUtxoCreates := w.coreUtxoCreates.filter (·.blockHeight < fromBlockHeight)
    coreUtxoSpends := w.coreUtxoSpends.filter (·.spentInBlock < fromBlockHeight)
    coreProcessedBlocks := w.coreProcessedBlocks.filter (·.blockHeight < fromBlockHeight)
    addressMovements := w.addressMovements.filter (·.blockHeight < fromBlockHeight)
    addressMovementsByAddress :=
      w.addressMovementsByAddress.filter (·.blockHeight < fromBlockHeight)
    appliedBlocks := w.appliedBlocks.filter (·.blockHeight < fromBlockHeight)
    analyticsTransactions := w.analyticsTransactions.filter (·.blockHeight < fromBlockHeight)
    transactionRefs := w.transactionRefs.filter (·.blockHeight < fromBlockHeight) }

theorem cutTables_coreTailTables (fromBlockHeight : Nat) (w : Warehouse) :
    w.cutTables fromBlockHeight coreTailTables = w.cutTail fromBlockHeight := rfl

theorem wp_deleteCoreDogecoinTailTable {fromBlockHeight : Nat} {table : CoreTailTable}
    {w : Warehouse} {Q : Unit → Warehouse → Prop} {E : Failure CoreError → Warehouse → Prop}
    {K : Warehouse → Prop} (hdone : Q () (w.deleteTail fromBlockHeight table))
    (hlost : E .fault (w.deleteTail fromBlockHeight table)) (hrefused : E .fault w)
    (hkilled : K w) : wp (deleteCoreDogecoinTailTable fromBlockHeight table) Q E K w := by
  refine wp_bind (wp_read ?_ hrefused hkilled)
  refine wp_when (fun _ => wp_write hdone hlost hrefused hkilled) (fun h => ?_)
  rw [deleteTail_eq_self (Bool.not_eq_true _ ▸ h)] at hdone
  exact hdone

theorem wp_deleteCoreDogecoinTail {fromBlockHeight : Nat} {w : Warehouse}
    {Q : Unit → Warehouse → Prop} {E : Failure CoreError → Warehouse → Prop}
    {K : Warehouse → Prop} (hdone : Q () (w.cutTail fromBlockHeight))
    (hcut : ∀ passed ahead, coreTailTables = passed ++ ahead →
      E .fault (w.cutTables fromBlockHeight passed) ∧ K (w.cutTables fromBlockHeight passed)) :
    wp (deleteCoreDogecoinTail fromBlockHeight) Q E K w := by
  refine wp_bind (wp_read ?_ (hcut [] _ rfl).1 (hcut [] _ rfl).2)
  refine wp_mono (wp_forEach (fun passed t => t = w.cutTables fromBlockHeight passed) ?_ rfl)
    ?_ (fun _ _ h => h) (fun _ h => h)
  · rintro passed table ahead t htables rfl
    obtain ⟨hfault,hkill⟩ := hcut passed (table::ahead) htables
    have hnext := hcut (passed ++ [table]) ahead (by simp [htables])
    rw [Warehouse.cutTables,List.foldl_append] at hnext
    refine wp_deleteCoreDogecoinTailTable ?_ hnext.1 hfault hkill
    simp [Warehouse.cutTables]
  · rintro - t rfl
    rw [cutTables_coreTailTables]
    exact hdone

/-- The error of a job that throws nothing itself. -/
abbrev OnlyFaults {σ : Type} : Failure CoreError → σ → Prop := FailsWith (fun _ _ => False)

def Warehouse.cleared (w : Warehouse) : Warehouse :=
  { w with
    currentUtxos := []
    currentUtxosByAddress := []
    balances := []
    appliedBlocks := []
    analyticsBalances := [] }

theorem wp_clearCoreDogecoinCurrentState {w : Warehouse} {Q : Unit → Warehouse → Prop}
    (hdone : Q () w.cleared) :
    wp clearCoreDogecoinCurrentState Q OnlyFaults Anywhere w :=
  wp_forEach_write hdone (fun _ _ _ => ⟨trivial,trivial⟩)

def Warehouse.withUtxos (utxos : List UtxoRow) (w : Warehouse) : Warehouse :=
  { w.cleared with currentUtxos := utxos,currentUtxosByAddress := utxos }

/-- The current state as the facts give it, range after range. -/
def Warehouse.rebuilt (boundaries : Warehouse → List String) (asOfBlockHeight : Nat)
    (ranges : List ClickHouseStringRange) (w : Warehouse) : Warehouse :=
  let w' := w.withUtxos (ranges.flatMap (w.materializedUtxos asOfBlockHeight))
  let rows := (stringRangesFromBoundaries (boundaries w')).flatMap
    (w'.materializedBalances asOfBlockHeight)
  { w' with
    balances := rows
    analyticsBalances := rows
    appliedBlocks := (List.range (asOfBlockHeight / coreAppliedBlockHeightsPerRange + 1)).flatMap
      (fun index => w'.materializedAppliedBlocks (index * coreAppliedBlockHeightsPerRange)
        (min asOfBlockHeight
          (index * coreAppliedBlockHeightsPerRange + coreAppliedBlockHeightsPerRange - 1))) }

theorem wp_insertCoreCurrentUtxoRanges {w : Warehouse} {asOfBlockHeight : Nat}
    {ranges : List ClickHouseStringRange} {Q : Unit → Warehouse → Prop}
    (hdone : Q () (w.withUtxos (ranges.flatMap (w.materializedUtxos asOfBlockHeight)))) :
    wp (insertCoreCurrentUtxoRanges rewindMaterialization asOfBlockHeight 0 ranges)
      Q OnlyFaults Anywhere w.cleared := by
  refine wp_mono (wp_forEach (fun passed t => t = w.withUtxos
    ((passed.map Prod.fst).flatMap (w.materializedUtxos asOfBlockHeight))) ?_ rfl)
    ?_ (fun _ _ h => h) (fun _ h => h)
  · rintro passed ⟨range,index⟩ ahead t - rfl
    refine wp_bind (wp_zoom (wp_write ?_ trivial trivial trivial))
    refine wp_pure ?_
    simp only [List.map_append,List.flatMap_append]
    simp [rewindMaterialization,StatePart.whole,Warehouse.insertCurrentUtxos,Warehouse.withUtxos,
      Warehouse.materializedUtxos,Warehouse.upTo,Warehouse.cleared]
  · rintro - t rfl
    rw [List.zipIdx_map_fst]
    exact hdone

theorem wp_insertCoreCurrentBalances {w : Warehouse} {asOfBlockHeight : Nat}
    {boundaries : Warehouse → List String} {Q : Unit → Warehouse → Prop}
    (hbalances : w.balances = []) (hanalytics : w.analyticsBalances = [])
    (hdone : ∀ rows, rows = (stringRangesFromBoundaries (boundaries w)).flatMap
        (w.materializedBalances asOfBlockHeight) →
      Q () { w with balances := rows,analyticsBalances := rows }) :
    wp (insertCoreCurrentBalances boundaries asOfBlockHeight) Q OnlyFaults Anywhere w := by
  refine wp_bind (wp_read ?_ trivial trivial)
  refine wp_mono (wp_forEach (fun passed t => ∀ rows,
      rows = passed.flatMap (w.materializedBalances asOfBlockHeight) →
      t = { w with balances := rows,analyticsBalances := rows }) ?_ ?_)
    ?_ (fun _ _ h => h) (fun _ h => h)
  · rintro passed range ahead t - ht
    obtain rfl := ht _ rfl
    refine wp_bind (wp_write (wp_write ?_ trivial trivial trivial) trivial trivial trivial)
    rintro rows rfl
    simp [Warehouse.insertBalances,Warehouse.insertAnalyticsBalances,
      Warehouse.materializedBalances,Warehouse.balanceSource]
  · rintro rows rfl
    cases w
    simp_all
  · intro _ t ht
    rw [ht _ rfl]
    exact hdone _ rfl

theorem wp_insertCoreAppliedBlocks {w : Warehouse} {asOfBlockHeight : Nat}
    {Q : Unit → Warehouse → Prop}
    (hdone : Q () (w.insertAppliedBlocks
      ((List.range (asOfBlockHeight / coreAppliedBlockHeightsPerRange + 1)).flatMap
        (fun index => w.materializedAppliedBlocks (index * coreAppliedBlockHeightsPerRange)
          (min asOfBlockHeight
            (index * coreAppliedBlockHeightsPerRange + coreAppliedBlockHeightsPerRange - 1)))))) :
    wp (insertCoreAppliedBlocks asOfBlockHeight) Q OnlyFaults Anywhere w := by
  refine wp_mono (wp_forEach (fun passed t => t = w.insertAppliedBlocks (passed.flatMap
    (fun index => w.materializedAppliedBlocks (index * coreAppliedBlockHeightsPerRange)
      (min asOfBlockHeight
        (index * coreAppliedBlockHeightsPerRange + coreAppliedBlockHeightsPerRange - 1))))) ?_ ?_)
    ?_ (fun _ _ h => h) (fun _ h => h)
  · rintro passed index ahead t - rfl
    refine wp_write ?_ trivial trivial trivial
    simp [Warehouse.insertAppliedBlocks,Warehouse.materializedAppliedBlocks]
  · simp [Warehouse.insertAppliedBlocks]
  · rintro - t rfl
    exact hdone

theorem wp_insertCoreCurrentStateMaterialization {w : Warehouse} {asOfBlockHeight : Nat}
    {boundaries : Warehouse → List String} {ranges : List ClickHouseStringRange}
    {Q : Unit → Warehouse → Prop} (hdone : Q () (w.rebuilt boundaries asOfBlockHeight ranges)) :
    wp (insertCoreCurrentStateMaterialization rewindMaterialization boundaries asOfBlockHeight 0
      ranges) Q OnlyFaults Anywhere w.cleared := by
  refine wp_bind (wp_insertCoreCurrentUtxoRanges ?_)
  refine wp_bind (wp_when (fun h => absurd h (Nat.lt_irrefl 0)) (fun _ => ?_))
  refine wp_bind (wp_zoom (wp_insertCoreCurrentBalances rfl rfl ?_))
  rintro rows rfl
  refine wp_zoom (wp_insertCoreAppliedBlocks ?_)
  exact hdone

theorem wp_coreCurrentStateRanges {w : Warehouse}
    {Q : List ClickHouseStringRange → Warehouse → Prop}
    (hdone : Q (buildCoreCurrentStateOutputKeyRanges
      (coreCurrentStateRangePrefixLength w.coreUtxoCreates.length)) w) :
    wp coreCurrentStateRanges Q OnlyFaults Anywhere w :=
  wp_bind (wp_read (wp_pure hdone) trivial trivial)

/-- The current state as of a height, as a materialization without a checkpoint leaves it. -/
def Warehouse.materialized (boundaries : Warehouse → List String) (asOfBlockHeight : Nat)
    (w : Warehouse) : Warehouse :=
  w.rebuilt boundaries asOfBlockHeight (buildCoreCurrentStateOutputKeyRanges
    (coreCurrentStateRangePrefixLength w.coreUtxoCreates.length))

theorem wp_materializeCoreDogecoinCurrentState {w : Warehouse} {asOfBlockHeight : Nat}
    {boundaries : Warehouse → List String} {Q : Unit → Warehouse → Prop}
    (hdone : Q () (w.materialized boundaries asOfBlockHeight)) :
    wp (materializeCoreDogecoinCurrentState rewindMaterialization boundaries asOfBlockHeight)
      Q OnlyFaults Anywhere w := by
  refine wp_bind (wp_zoom (wp_coreCurrentStateRanges ?_))
  refine wp_bind (wp_when (fun _ => wp_zoom (wp_clearCoreDogecoinCurrentState ?_))
    (fun h => absurd rfl h))
  exact wp_insertCoreCurrentStateMaterialization hdone

def Warehouse.rematerializedBelow (boundaries : Warehouse → List String) (fromBlockHeight : Nat)
    (w : Warehouse) : Warehouse :=
  match fromBlockHeight with
  | 0 => w.cleared
  | asOfBlockHeight + 1 => w.materialized boundaries asOfBlockHeight

theorem wp_rematerializeCoreCurrentStateBelow {w : Warehouse} {fromBlockHeight : Nat}
    {boundaries : Warehouse → List String} {Q : Unit → Warehouse → Prop}
    (hdone : Q () (w.rematerializedBelow boundaries fromBlockHeight)) :
    wp (rematerializeCoreCurrentStateBelow boundaries fromBlockHeight)
      Q OnlyFaults Anywhere w := by
  refine wp_bind (wp_clearCoreDogecoinCurrentState ?_)
  cases fromBlockHeight with
  | zero => exact wp_pure hdone
  | succ asOfBlockHeight =>
    refine wp_bind (wp_coreCurrentStateRanges ?_)
    exact wp_insertCoreCurrentStateMaterialization hdone

/-- The warehouse after a rewind that no call failed. -/
def Warehouse.rewound (boundaries : Warehouse → List String) (fromBlockHeight : Nat)
    (context : CoreDogecoinApplyContext) (w : Warehouse) : Warehouse :=
  if shouldUpdateCoreCurrentState context then
    (w.cutTail fromBlockHeight).rematerializedBelow boundaries fromBlockHeight
  else w.cutTail fromBlockHeight

theorem wp_rewindCoreDogecoinWindow {w : Warehouse} {fromBlockHeight : Nat}
    {boundaries : Warehouse → List String} {context : CoreDogecoinApplyContext}
    {Q : Unit → Warehouse → Prop} (hdone : Q () (w.rewound boundaries fromBlockHeight context)) :
    wp (rewindCoreDogecoinWindow boundaries fromBlockHeight context) Q OnlyFaults Anywhere w := by
  refine wp_bind (wp_deleteCoreDogecoinTail ?_ (fun _ _ _ => ⟨trivial,trivial⟩))
  unfold Warehouse.rewound at hdone
  refine wp_when (fun h => ?_) (fun h => ?_)
  · rw [if_pos h] at hdone
    exact wp_rematerializeCoreCurrentStateBelow hdone
  · rw [if_neg h] at hdone
    exact hdone

def coreWindowPrevouts (pending : List CoreDogecoinBlockApplication)
    (context : CoreDogecoinApplyContext) (w : Warehouse) : OutputMap :=
  if shouldUpdateCoreCurrentState context then
    w.getCurrentUtxoOutputMap (externalCoreSpendKeys pending)
  else .empty

/-- The new current rows, when the mutation and the balances can be worked out. -/
def coreCurrentStateWindow (pending : List CoreDogecoinBlockApplication)
    (last : CoreDogecoinBlockApplication) (prevouts : OutputMap) (w : Warehouse) :
    Except CoreError CoreCurrentStateWindow := do
  let mutation ← applyCoreCurrentStateMutations pending prevouts
  let nextBalances ← coreCurrentBalanceRows last.blockHeight mutation.balanceDeltas
    (w.getBalanceRowsByKeys (mutation.balanceDeltas.entries.map (·.1)))
  return ⟨nextBalances,mutation.nextOutputs,last.blockHeight⟩

def coreWindowCurrentState (pending : List CoreDogecoinBlockApplication)
    (context : CoreDogecoinApplyContext) (prevouts : OutputMap) (w : Warehouse) :
    Except CoreError (Option CoreCurrentStateWindow) :=
  match shouldUpdateCoreCurrentState context,pending.getLast? with
  | true,some last => (coreCurrentStateWindow pending last prevouts w).map some
  | _,_ => .ok none

def Warehouse.addFacts (facts : CoreWindowFacts) (w : Warehouse) : Warehouse :=
  { w with
    coreUtxoCreates := w.coreUtxoCreates ++ facts.creates
    coreUtxoSpends := w.coreUtxoSpends ++ facts.spends
    addressMovements := w.addressMovements ++ facts.movements
    addressMovementsByAddress := w.addressMovementsByAddress ++ facts.movements
    analyticsTransactions := w.analyticsTransactions ++ facts.transactions }

def Warehouse.addCurrentState (pending : List CoreDogecoinBlockApplication) (w : Warehouse) :
    Option CoreCurrentStateWindow → Warehouse
  | none => w
  | some currentState =>
    { w with
      currentUtxos := w.currentUtxos ++ coreCurrentUtxoRows currentState.nextOutputs
      currentUtxosByAddress :=
        w.currentUtxosByAddress ++ coreCurrentUtxoRows currentState.nextOutputs
      balances := w.balances ++ currentState.nextBalances
      analyticsBalances := w.analyticsBalances ++ currentState.nextBalances
      appliedBlocks := w.appliedBlocks ++ toProjectionAppliedBlocks pending }

/-- The warehouse after every insert of a window. -/
def Warehouse.addWindow (pending : List CoreDogecoinBlockApplication) (prevouts : OutputMap)
    (currentState : Option CoreCurrentStateWindow) (w : Warehouse) : Warehouse :=
  ((w.addFacts (coreWindowFactInserts pending prevouts)).addCurrentState pending
    currentState).insertCoreProcessedBlocks (pending.map toCoreProcessedBlockRow)

theorem wp_loadCoreWindowPrevouts {pending : List CoreDogecoinBlockApplication}
    {context : CoreDogecoinApplyContext} {w : Warehouse} {Q : OutputMap → Warehouse → Prop}
    {P : CoreError → Warehouse → Prop} (hdone : Q (coreWindowPrevouts pending context w) w) :
    wp (loadCoreWindowPrevouts pending context) Q (FailsWith P) Anywhere w := by
  unfold loadCoreWindowPrevouts
  unfold coreWindowPrevouts at hdone
  refine wp_ite (fun h => ?_) (fun h => ?_)
  · rw [if_pos h] at hdone
    exact wp_read hdone trivial trivial
  · rw [if_neg h] at hdone
    exact wp_pure hdone

theorem wp_buildCoreCurrentStateWindow {pending : List CoreDogecoinBlockApplication}
    {last : CoreDogecoinBlockApplication} {prevouts : OutputMap} {w : Warehouse}
    {Q : Option CoreCurrentStateWindow → Warehouse → Prop} {P : CoreError → Warehouse → Prop}
    (hlast : pending.getLast? = some last)
    (hok : ∀ cs, coreCurrentStateWindow pending last prevouts w = .ok cs → Q (some cs) w)
    (herror : ∀ e, coreCurrentStateWindow pending last prevouts w = .error e → P e w) :
    wp (buildCoreCurrentStateWindow pending prevouts) Q (FailsWith P) Anywhere w := by
  unfold buildCoreCurrentStateWindow
  unfold coreCurrentStateWindow at hok herror
  rw [hlast]
  refine wp_bind (wp_ofExcept ?_ ?_)
  · intro mutation hm
    rw [hm] at hok herror
    refine wp_bind (wp_read ?_ trivial trivial)
    refine wp_bind (wp_ofExcept ?_ ?_)
    · intro rows hrows
      refine wp_pure (hok _ ?_)
      simp only [Bind.bind,Except.bind,hrows]
      rfl
    · intro e he
      refine herror e ?_
      simp only [Bind.bind,Except.bind,he]
  · intro e he
    refine herror e ?_
    simp only [Bind.bind,Except.bind,he]

theorem wp_resolveCoreCurrentStateWindow {pending : List CoreDogecoinBlockApplication}
    {context : CoreDogecoinApplyContext} {prevouts : OutputMap} {w : Warehouse}
    {Q : Option CoreCurrentStateWindow → Warehouse → Prop} {P : CoreError → Warehouse → Prop}
    (hok : ∀ cs, coreWindowCurrentState pending context prevouts w = .ok cs → Q cs w)
    (herror : ∀ e, coreWindowCurrentState pending context prevouts w = .error e → P e w) :
    wp (resolveCoreCurrentStateWindow pending context prevouts) Q (FailsWith P) Anywhere w := by
  unfold resolveCoreCurrentStateWindow
  unfold coreWindowCurrentState at hok herror
  refine wp_ite (fun h => ?_) (fun h => ?_)
  · rw [h] at hok herror
    cases hlast : pending.getLast? with
    | none =>
      rw [hlast] at hok
      unfold buildCoreCurrentStateWindow
      rw [hlast]
      exact wp_pure (hok none rfl)
    | some last =>
      rw [hlast] at hok herror
      refine wp_buildCoreCurrentStateWindow hlast ?_ ?_
      · exact fun cs hcs => hok (some cs) (by simp only [hcs]; rfl)
      · exact fun e he => herror e (by simp only [he]; rfl)
  · rw [Bool.not_eq_true] at h
    rw [h] at hok
    exact wp_pure (hok none rfl)

theorem wp_insertCoreWindowFacts {pending : List CoreDogecoinBlockApplication}
    {prevouts : OutputMap} {w : Warehouse} {Q : Unit → Warehouse → Prop}
    {P : CoreError → Warehouse → Prop}
    (hdone : Q () (w.addFacts (coreWindowFactInserts pending prevouts))) :
    wp (insertCoreWindowFacts pending prevouts) Q (FailsWith P) Anywhere w := by
  unfold insertCoreWindowFacts
  have hfault (m : WarehouseJob Unit) (t : Warehouse) :
      wp m (fun _ => FailsWith P .fault) (fun _ => FailsWith P .fault) Anywhere t := wp_true m
  refine wp_settleAll_cons (wp_insertRows (by simp [Warehouse.insertCoreCreates]) ?_
    (hfault _ _) (hfault _ _) trivial)
  refine wp_settleAll_cons (wp_insertRows (by simp [Warehouse.insertCoreSpends]) ?_
    (hfault _ _) (hfault _ _) trivial)
  refine wp_settleAll_cons (wp_insertRows (by simp [Warehouse.insertAddressMovements]) ?_
    (hfault _ _) (hfault _ _) trivial)
  refine wp_settleAll_cons (wp_insertRows (by simp [Warehouse.insertAnalyticsTransactions]) ?_
    (hfault _ _) (hfault _ _) trivial)
  exact wp_pure hdone

theorem wp_insertCoreCurrentStateIfBuilt {pending : List CoreDogecoinBlockApplication}
    {currentState : Option CoreCurrentStateWindow} {w : Warehouse} {Q : Unit → Warehouse → Prop}
    {P : CoreError → Warehouse → Prop} (hdone : Q () (w.addCurrentState pending currentState)) :
    wp (insertCoreCurrentStateIfBuilt currentState pending) Q (FailsWith P) Anywhere w := by
  cases currentState with
  | none => exact wp_pure hdone
  | some currentState =>
    refine wp_bind (wp_insertRows (by simp [Warehouse.insertCurrentUtxos]) ?_
      trivial trivial trivial)
    refine wp_bind (wp_insertRows (by simp [Warehouse.insertBalances]) ?_ trivial trivial trivial)
    refine wp_bind (wp_insertRows (by simp [Warehouse.insertAnalyticsBalances]) ?_
      trivial trivial trivial)
    exact wp_insertRows (by simp [Warehouse.insertAppliedBlocks]) hdone trivial trivial trivial

theorem wp_insertPendingCoreWindow {pending : List CoreDogecoinBlockApplication}
    {context : CoreDogecoinApplyContext} {w : Warehouse} {Q : Unit → Warehouse → Prop}
    {P : CoreError → Warehouse → Prop}
    (hok : ∀ cs, coreWindowCurrentState pending context (coreWindowPrevouts pending context w) w =
      .ok cs → Q () (w.addWindow pending (coreWindowPrevouts pending context w) cs))
    (herror : ∀ e, coreWindowCurrentState pending context (coreWindowPrevouts pending context w) w =
      .error e → P e w) :
    wp (insertPendingCoreWindow pending context) Q (FailsWith P) Anywhere w := by
  refine wp_bind (wp_loadCoreWindowPrevouts ?_)
  refine wp_bind (wp_resolveCoreCurrentStateWindow ?_ herror)
  intro cs hcs
  refine wp_bind (wp_insertCoreWindowFacts ?_)
  refine wp_bind (wp_insertCoreCurrentStateIfBuilt ?_)
  exact wp_insertRows (by simp [Warehouse.insertCoreProcessedBlocks]) (hok cs hcs)
    trivial trivial trivial

end OnlyDoge
