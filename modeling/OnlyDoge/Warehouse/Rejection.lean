import OnlyDoge.Warehouse.BalanceChange
import OnlyDoge.Warehouse.WindowChecks
set_option autoImplicit false

/-! What a window that `applyCoreDogecoinWindow` throws out leaves in the warehouse. -/

namespace OnlyDoge
open Job

/-- Each table holds the same rows, in whatever order. -/
structure Warehouse.SameRows (w t : Warehouse) : Prop where
  coreUtxoCreates : w.coreUtxoCreates.Perm t.coreUtxoCreates
  coreUtxoSpends : w.coreUtxoSpends.Perm t.coreUtxoSpends
  coreProcessedBlocks : w.coreProcessedBlocks.Perm t.coreProcessedBlocks
  addressMovements : w.addressMovements.Perm t.addressMovements
  addressMovementsByAddress : w.addressMovementsByAddress.Perm t.addressMovementsByAddress
  analyticsTransactions : w.analyticsTransactions.Perm t.analyticsTransactions
  transactionRefs : w.transactionRefs.Perm t.transactionRefs
  currentUtxos : w.currentUtxos.Perm t.currentUtxos
  currentUtxosByAddress : w.currentUtxosByAddress.Perm t.currentUtxosByAddress
  balances : w.balances.Perm t.balances
  analyticsBalances : w.analyticsBalances.Perm t.analyticsBalances
  appliedBlocks : w.appliedBlocks.Perm t.appliedBlocks

/-- The current-state update meets a spent output that has neither a current row nor an earlier
place in the window. -/
def MissesCurrentPrevout (context : CoreDogecoinApplyContext) (w : Warehouse)
    (pending : List CoreDogecoinBlockApplication) : Prop :=
  shouldUpdateCoreCurrentState context ∧ ∃ outputKey,
    applyCoreCurrentStateMutations pending
      (w.getCurrentUtxoOutputMap (externalCoreSpendKeys pending)) =
        .error (.missingCoreCurrentPrevout outputKey)

/-- The window passes its checks and then goes through the repair of previous outputs. -/
def EntersRecovery (context : CoreDogecoinApplyContext) (w : Warehouse)
    (pending : List CoreDogecoinBlockApplication) : Prop :=
  AcceptsWindow context w pending ∧ MissesCurrentPrevout context w pending

/-- The current rows that the repair writes: all of the missing ones, or none. -/
def Warehouse.repairedCurrentRows (w : Warehouse) (pending : List CoreDogecoinBlockApplication) :
    List UtxoRow :=
  let outputKeys := externalCoreSpendKeys pending
  let missingOutputKeys := missingUtxoOutputKeys outputKeys (w.getCurrentUtxoOutputMap outputKeys)
  let repairedRows := w.queryCoreHistoricalUtxoOutputRows missingOutputKeys
    (coreWindowStart pending - 1)
  match assertCoreCurrentPrevoutRepairs missingOutputKeys repairedRows with
  | .ok () => repairedRows.map coreCurrentRepairRow
  | .error _ => []

/-- The warehouse without the rows from the window's start on, and with the repaired ones. -/
def Warehouse.recoveredFor (w : Warehouse) (pending : List CoreDogecoinBlockApplication) :
    Warehouse :=
  (w.cutTail (coreWindowStart pending).toNat).insertCurrentUtxos (w.repairedCurrentRows pending)

/-- The window differs from no processed block, and a recovery that it enters finds nothing to
clean and nothing that it can repair. -/
def Warehouse.KeepsRows (w : Warehouse) (input : List CoreDogecoinBlockApplication)
    (context : CoreDogecoinApplyContext) : Prop :=
  w.firstMismatch input = none ∧
    ∀ pending, filterPendingCoreApplications
        (w.getCoreProcessedBlocks (input.map (·.blockHeight))) input = .ok pending →
      EntersRecovery context w pending →
        w.cutTail (coreWindowStart pending).toNat = w ∧ w.repairedCurrentRows pending = []

section Recovery
variable {w : Warehouse} {pending : List CoreDogecoinBlockApplication}
variable {context : CoreDogecoinApplyContext}

theorem insertCurrentUtxos_nil (w : Warehouse) : w.insertCurrentUtxos [] = w := by
  simp [Warehouse.insertCurrentUtxos]

theorem repairedCurrentRows_cutTail {first : CoreDogecoinBlockApplication}
    {rest : List CoreDogecoinBlockApplication} (w : Warehouse) :
    (w.cutTail first.blockHeight).repairedCurrentRows (first::rest) =
      w.repairedCurrentRows (first::rest) := by
  have hhistory (keys : List OutputKey) :
      (w.cutTail first.blockHeight).queryCoreHistoricalUtxoOutputRows keys
        (coreWindowStart (first::rest) - 1) =
      w.queryCoreHistoricalUtxoOutputRows keys (coreWindowStart (first::rest) - 1) := by
    have hkey : (w.cutTail first.blockHeight).coreHistoricalUtxoOutput
          (coreWindowStart (first::rest) - 1) =
        w.coreHistoricalUtxoOutput (coreWindowStart (first::rest) - 1) :=
      funext (coreHistoricalUtxoOutput_cutTail w first.blockHeight)
    unfold Warehouse.queryCoreHistoricalUtxoOutputRows
    rw [hkey]
  unfold Warehouse.repairedCurrentRows
  simp only [hhistory]
  rfl

theorem wp_repairMissingCoreCurrentPrevouts_rows :
    wp (repairMissingCoreCurrentPrevouts pending)
      (fun _ t => t = w.insertCurrentUtxos (w.repairedCurrentRows pending))
      (FailsWith (fun _ t => t = w.insertCurrentUtxos (w.repairedCurrentRows pending)))
      Anywhere w := by
  unfold Warehouse.repairedCurrentRows
  refine wp_bind (wp_read ?_ trivial trivial)
  refine wp_ite (fun hnil => wp_pure ?_) (fun _ => wp_bind (wp_read ?_ trivial trivial))
  · simp [hnil,Warehouse.queryCoreHistoricalUtxoOutputRows,assertCoreCurrentPrevoutRepairs,
      insertCurrentUtxos_nil]
  · refine wp_bind (wp_ofExcept (fun _ hok => ?_) (fun e he => ?_))
    · simp only [hok]
      exact wp_insertRows (insertCurrentUtxos_nil w) rfl trivial trivial trivial
    · simp only [he]
      exact (insertCurrentUtxos_nil w).symm

theorem coreCurrentBalanceRows_error {windowEnd : Nat}
    {deltas : OrderedMap BalanceKey CoreBalanceDelta}
    {currentBalances : OrderedMap BalanceKey VersionedBalanceRow} {outputKey : OutputKey} :
    coreCurrentBalanceRows windowEnd deltas currentBalances ≠
      .error (.missingCoreCurrentPrevout outputKey) := by
  unfold coreCurrentBalanceRows
  induction deltas.entries with
  | nil => simp [Pure.pure,Except.pure]
  | cons entry entries ih =>
    rw [List.mapM_cons]
    cases hrow : coreCurrentBalanceRow windowEnd currentBalances entry with
    | error e =>
      intro h
      obtain rfl : e = _ := Except.error.inj h
      unfold coreCurrentBalanceRow at hrow
      simp only at hrow
      split at hrow
      · cases hrow
      · cases hrow
    | ok row =>
      cases hrows : entries.mapM (coreCurrentBalanceRow windowEnd currentBalances) with
      | error e =>
        intro h
        obtain rfl : e = _ := Except.error.inj h
        exact ih hrows
      | ok rows =>
        intro h
        cases h

theorem missesCurrentPrevout_iff (hne : pending ≠ []) : MissesCurrentPrevout context w pending ↔
    ∃ outputKey, coreWindowCurrentState pending context (coreWindowPrevouts pending context w) w =
      .error (.missingCoreCurrentPrevout outputKey) := by
  have hlast := List.getLast?_eq_some_getLast hne
  generalize pending.getLast hne = last at hlast
  unfold MissesCurrentPrevout coreWindowPrevouts
  by_cases hup : shouldUpdateCoreCurrentState context = true
  · rw [if_pos hup,coreWindowCurrentState_some hup hlast]
    unfold coreCurrentStateWindow
    cases hm : applyCoreCurrentStateMutations pending
      (w.getCurrentUtxoOutputMap (externalCoreSpendKeys pending)) with
    | error e => simp [hup,Bind.bind,Except.bind,Except.map]
    | ok m =>
      have hrows (k : OutputKey) := @coreCurrentBalanceRows_error last.blockHeight m.balanceDeltas
        (w.getBalanceRowsByKeys (m.balanceDeltas.entries.map (·.1))) k
      cases hr : coreCurrentBalanceRows last.blockHeight m.balanceDeltas
        (w.getBalanceRowsByKeys (m.balanceDeltas.entries.map (·.1))) with
      | error e =>
        simp only [hr] at hrows
        simpa [hr,Bind.bind,Except.bind,Except.map] using hrows
      | ok rows => simp [hr,Bind.bind,Except.bind,Except.map,Pure.pure,Except.pure]
  · unfold coreWindowCurrentState
    simp [hup]

theorem throws_insertPendingCoreWindow {e : CoreError} {t : Warehouse}
    (h : Throws (insertPendingCoreWindow pending context) w e t) :
    coreWindowCurrentState pending context (coreWindowPrevouts pending context w) w = .error e ∧
      t = w :=
  thrown_of_wp (wp_insertPendingCoreWindow (Q := fun _ _ => True) (P := fun e t =>
    coreWindowCurrentState pending context (coreWindowPrevouts pending context w) w = .error e ∧
      t = w) (fun _ _ => trivial) (fun _ he => ⟨he,rfl⟩)) h

theorem recoveredFor_cutTail {first : CoreDogecoinBlockApplication}
    {rest : List CoreDogecoinBlockApplication} (w : Warehouse) :
    (w.recoveredFor (first::rest)).cutTail first.blockHeight = w.recoveredFor (first::rest) := by
  have hstart : (coreWindowStart (first::rest)).toNat = first.blockHeight := rfl
  unfold Warehouse.recoveredFor
  rw [hstart]
  simp [Warehouse.cutTail,Warehouse.insertCurrentUtxos]

/-- The recovery that ends in an error has cleaned the tail and kept the repaired rows. -/
theorem wp_recoverPendingCoreWindow_thrown {first : CoreDogecoinBlockApplication}
    {rest : List CoreDogecoinBlockApplication} {outputKey : OutputKey}
    (hup : shouldUpdateCoreCurrentState context) :
    wp (recoverPendingCoreWindow (first::rest) context (.missingCoreCurrentPrevout outputKey))
      (fun _ _ => True) (FailsWith (fun _ t => t = w.recoveredFor (first::rest))) Anywhere w := by
  have hrepaired : (w.cutTail first.blockHeight).insertCurrentUtxos
      ((w.cutTail first.blockHeight).repairedCurrentRows (first::rest)) =
        w.recoveredFor (first::rest) := by
    rw [repairedCurrentRows_cutTail]
    rfl
  refine wp_ite (fun _ => ?_) (fun h => absurd hup h)
  refine wp_bind (wp_bind (wp_deleteCoreDogecoinTail ?_ (fun _ _ _ => ⟨trivial,trivial⟩)))
  refine wp_mono wp_repairMissingCoreCurrentPrevouts_rows ?_ ?_ (fun _ h => h)
  · rintro - t rfl
    rw [hrepaired]
    refine wp_onFailure (wp_mono (wp_insertPendingCoreWindow (Q := fun _ _ => True)
      (P := fun _ t => t = w.recoveredFor (first::rest)) (fun _ _ => trivial) (fun _ _ => rfl))
      (fun _ _ h => h) ?_ (fun _ h => h))
    intro e t ht
    refine wp_deleteCoreDogecoinTail ?_ (fun _ _ _ => ⟨trivial,trivial⟩)
    cases e with
    | fault => trivial
    | thrown e =>
      obtain rfl : t = w.recoveredFor (first::rest) := ht
      exact recoveredFor_cutTail w
  · intro e t ht
    cases e with
    | fault => trivial
    | thrown e => exact hrepaired ▸ ht

theorem throws_insertPendingCoreWindowWithRecovery {e : CoreError} {t : Warehouse}
    (hne : pending ≠ []) (h : Throws (insertPendingCoreWindowWithRecovery pending context) w e t) :
    (¬MissesCurrentPrevout context w pending → t = w) ∧
      (MissesCurrentPrevout context w pending → t = w.recoveredFor pending) := by
  obtain ⟨e',u,hfirst,hrest⟩ := throws_catchThrown.mp h
  obtain ⟨hstate,rfl⟩ := throws_insertPendingCoreWindow hfirst
  rw [missesCurrentPrevout_iff hne,hstate]
  cases e' with
  | error message =>
    obtain ⟨-,rfl⟩ := throws_throw.mp hrest
    simp
  | missingCoreCurrentPrevout outputKey =>
    have hmisses := (missesCurrentPrevout_iff hne).mpr ⟨outputKey,hstate⟩
    cases pending with
    | nil => exact absurd rfl hne
    | cons first rest =>
      have ht : t = u.recoveredFor (first::rest) :=
        thrown_of_wp (wp_recoverPendingCoreWindow_thrown hmisses.1) hrest
      simpa using ht

end Recovery

section Apply
variable {w t : Warehouse} {input pending : List CoreDogecoinBlockApplication}
variable {boundaries : Warehouse → List String} {context : CoreDogecoinApplyContext}

theorem filterPending_of_firstMismatch (h : w.firstMismatch input = none) :
    ∃ pending, filterPendingCoreApplications
      (w.getCoreProcessedBlocks (input.map (·.blockHeight))) input = .ok pending := by
  have hpending : ∀ a ∈ input, isPendingCoreApplication
      (w.getCoreProcessedBlocks (input.map (·.blockHeight))) a =
        .ok (w.latestProcessedBlock a.blockHeight).isNone := by
    intro a ha
    unfold isPendingCoreApplication
    rw [getCoreProcessedBlocks_get (List.mem_map_of_mem ha)]
    cases hrow : w.latestProcessedBlock a.blockHeight with
    | none => rfl
    | some row => simp [firstMismatch_eq_none h ha hrow]
  exact ⟨_,filterPendingCoreApplications_eq_filter hpending⟩

theorem not_throws_pendingCoreWindowApplications {e : CoreError} :
    ¬Throws (pendingCoreWindowApplications boundaries input context) w e t := by
  intro h
  unfold pendingCoreWindowApplications at h
  rcases throws_bind.mp h with hread | ⟨processed,u,hread,hmatch⟩
  · cases hread
  · obtain ⟨rfl,rfl⟩ := returns_read.mp hread
    cases hreorg : u.firstMismatch input with
    | some reorgHeight =>
      unfold Warehouse.firstMismatch at hreorg
      simp only [hreorg] at hmatch
      rcases throws_bind.mp hmatch with hrewind | ⟨_,_,-,hpure⟩
      · have hfault := thrown_of_wp (wp_rewindCoreDogecoinWindow (Q := fun _ _ => True) trivial)
          hrewind
        exact hfault
      · exact not_throws_pure hpure
    | none =>
      obtain ⟨pending,hpending⟩ := filterPending_of_firstMismatch hreorg
      unfold Warehouse.firstMismatch at hreorg
      simp only [hreorg,hpending] at hmatch
      exact not_throws_pure hmatch

theorem throws_applyCoreDogecoinWindow {e : CoreError}
    (h : Throws (applyCoreDogecoinWindow boundaries input context) w e t) :
    ∃ v pending, w.pendingWindow boundaries input context = .ok (v,pending) ∧
      (¬EntersRecovery context v pending → t = v) ∧
      (EntersRecovery context v pending → t = v.recoveredFor pending) := by
  unfold applyCoreDogecoinWindow at h
  split at h
  · exact absurd h not_throws_pure
  · rcases throws_bind.mp h with hpend | ⟨pending,v,hpend,hrest⟩
    · exact absurd hpend not_throws_pendingCoreWindowApplications
    · have hwindow : w.pendingWindow boundaries input context = .ok (v,pending) :=
        value_of_wp (wp_pendingCoreWindowApplications_pending
          (Q := fun pending v => w.pendingWindow boundaries input context = .ok (v,pending))
          (P := fun _ _ => True) (fun _ _ hok => hok) (fun _ => trivial)) hpend
      refine ⟨v,pending,hwindow,?_⟩
      split at hrest
      · exact absurd hrest not_throws_pure
      · rename_i hne
        unfold EntersRecovery
        rcases throws_bind.mp hrest with hcheck | ⟨u,v',hcheck,hwrite⟩
        · obtain rfl : t = v := thrown_of_wp wp_validatePendingCoreWindow hcheck
          have hrefused : ¬AcceptsWindow context t pending :=
            fun haccepts => not_throws_of_returns haccepts hcheck
          simp [hrefused]
        · obtain ⟨rfl,-⟩ := value_of_wp wp_validatePendingCoreWindow hcheck
          have haccepts : AcceptsWindow context v' pending := hcheck
          rcases throws_bind.mp hwrite with hinsert | ⟨_,_,-,hpure⟩
          · simpa [haccepts] using throws_insertPendingCoreWindowWithRecovery hne hinsert
          · exact absurd hpure not_throws_pure

end Apply

section Rows
variable {w t : Warehouse} {input pending : List CoreDogecoinBlockApplication}
variable {boundaries : Warehouse → List String} {context : CoreDogecoinApplyContext}

theorem sameRows_self (w : Warehouse) : w.SameRows w :=
  ⟨.rfl,.rfl,.rfl,.rfl,.rfl,.rfl,.rfl,.rfl,.rfl,.rfl,.rfl,.rfl⟩

theorem filter_eq_of_perm {ρ : Type} {rows : List ρ} {p : ρ → Bool}
    (h : rows.Perm (rows.filter p)) : rows.filter p = rows :=
  List.filter_sublist.eq_of_length h.length_eq.symm

theorem cutTail_of_sameRows {height : Nat} {rows : List UtxoRow}
    (h : w.SameRows ((w.cutTail height).insertCurrentUtxos rows)) : w.cutTail height = w := by
  have hcreates := filter_eq_of_perm h.coreUtxoCreates
  have hspends := filter_eq_of_perm h.coreUtxoSpends
  have hprocessed := filter_eq_of_perm h.coreProcessedBlocks
  have hmovements := filter_eq_of_perm h.addressMovements
  have hbyAddress := filter_eq_of_perm h.addressMovementsByAddress
  have happlied := filter_eq_of_perm h.appliedBlocks
  have htransactions := filter_eq_of_perm h.analyticsTransactions
  have hrefs := filter_eq_of_perm h.transactionRefs
  unfold Warehouse.cutTail
  rw [hcreates,hspends,hprocessed,hmovements,hbyAddress,happlied,htransactions,hrefs]

theorem sameRows_recoveredFor : w.SameRows (w.recoveredFor pending) ↔
    w.cutTail (coreWindowStart pending).toNat = w ∧ w.repairedCurrentRows pending = [] := by
  constructor
  · intro h
    have hlength := h.currentUtxos.length_eq
    unfold Warehouse.recoveredFor at h hlength
    simp only [Warehouse.insertCurrentUtxos,Warehouse.cutTail,List.length_append] at hlength
    exact ⟨cutTail_of_sameRows h,List.length_eq_zero_iff.mp (by omega)⟩
  · rintro ⟨hcut,hrows⟩
    unfold Warehouse.recoveredFor
    rw [hcut,hrows,insertCurrentUtxos_nil]
    exact sameRows_self w

theorem rewound_coreProcessedBlocks (height : Nat) :
    (w.rewound boundaries height context).coreProcessedBlocks =
      w.coreProcessedBlocks.filter (·.blockHeight < height) := by
  unfold Warehouse.rewound
  split
  · cases height with
    | zero => rfl
    | succ asOfBlockHeight => rfl
  · rfl

theorem not_sameRows_of_rewound {height : Nat} (hmismatch : w.firstMismatch input = some height)
    (h : ∀ row ∈ t.coreProcessedBlocks, row.blockHeight < height) : ¬w.SameRows t := by
  intro hsame
  obtain ⟨_,-,-,row,hrow,-⟩ := firstMismatch_eq_some hmismatch
  obtain ⟨hmem,hheight,-⟩ := Replacing.latest_spec hrow
  have := h row (hsame.coreProcessedBlocks.mem_iff.mp hmem)
  omega

theorem coreProcessedBlocks_recoveredFor_sub {row : CoreProcessedBlockRow}
    (h : row ∈ (w.recoveredFor pending).coreProcessedBlocks) : row ∈ w.coreProcessedBlocks :=
  (List.mem_filter.mp h).1

/-- A rejected window leaves every table as it was unless it differs from a processed block or
enters a recovery that finds something to clean or to repair. It leaves the warehouse that its
pending blocks start from, or that warehouse after the recovery. -/
theorem rejected_window (boundaries : Warehouse → List String) (w t : Warehouse)
    (input : List CoreDogecoinBlockApplication) (context : CoreDogecoinApplyContext) (e : CoreError)
    (h : Throws (applyCoreDogecoinWindow boundaries input context) w e t) :
    (w.SameRows t ↔ w.KeepsRows input context) ∧
      ∃ v pending, w.pendingWindow boundaries input context = .ok (v,pending) ∧
        (¬EntersRecovery context v pending → t = v) ∧
        (EntersRecovery context v pending → t = v.recoveredFor pending) := by
  obtain ⟨v,pending,hwindow,hkept,hrecovered⟩ := throws_applyCoreDogecoinWindow h
  refine ⟨?_,v,pending,hwindow,hkept,hrecovered⟩
  unfold Warehouse.KeepsRows
  cases hmismatch : w.firstMismatch input with
  | some height =>
    have hmismatch' := hmismatch
    unfold Warehouse.firstMismatch at hmismatch'
    simp only [Warehouse.pendingWindow,hmismatch',Except.ok.injEq,Prod.mk.injEq] at hwindow
    obtain ⟨rfl,rfl⟩ := hwindow
    have hbelow : ∀ row ∈ (w.rewound boundaries height context).coreProcessedBlocks,
        row.blockHeight < height := by
      intro row hrow
      rw [rewound_coreProcessedBlocks] at hrow
      simpa using (List.mem_filter.mp hrow).2
    have hgone : ∀ row ∈ t.coreProcessedBlocks, row.blockHeight < height := by
      intro row hrow
      by_cases henters : EntersRecovery context (w.rewound boundaries height context)
          (input.filter (fun application => height ≤ application.blockHeight))
      · rw [hrecovered henters] at hrow
        exact hbelow row (coreProcessedBlocks_recoveredFor_sub hrow)
      · rw [hkept henters] at hrow
        exact hbelow row hrow
    simp [not_sameRows_of_rewound hmismatch hgone]
  | none =>
    obtain ⟨pending',hpending⟩ := filterPending_of_firstMismatch hmismatch
    have hmismatch' := hmismatch
    unfold Warehouse.firstMismatch at hmismatch'
    simp only [Warehouse.pendingWindow,hmismatch',hpending,Except.map,Except.ok.injEq,
      Prod.mk.injEq] at hwindow
    obtain ⟨rfl,rfl⟩ := hwindow
    by_cases henters : EntersRecovery context w pending'
    · rw [hrecovered henters,sameRows_recoveredFor]
      simp [hpending,henters]
    · rw [hkept henters]
      simp [hpending,henters,sameRows_self]

end Rows

/-- Block 0 of another branch, whose transaction pays the same output twice. -/
def repeatedOutputWindow : List CoreDogecoinBlockApplication :=
  [⟨0,"b0",none,0,1,
    [⟨⟨"c0",0⟩,0,"b0",0,"c0",0,0,"A","pubkeyhash",100,true,true,none⟩,
      ⟨⟨"c0",0⟩,0,"b0",0,"c0",0,0,"A","pubkeyhash",100,true,true,none⟩],[]⟩]

/-- A warehouse that has processed block 0 and nothing else. -/
def firstBlockWarehouse : Warehouse :=
  { emptyWarehouse with coreProcessedBlocks := [⟨0,"a0",0,1,0⟩] }

/-- The window is rejected for its outputs, and the processed block is gone. -/
theorem rejected_window_loses_block : ∃ e,
    Throws (applyCoreDogecoinWindow (fun _ => []) repeatedOutputWindow ⟨some true,none⟩)
        firstBlockWarehouse e emptyWarehouse ∧
      ¬firstBlockWarehouse.SameRows emptyWarehouse :=
  ⟨_,rfl,fun h => absurd h.coreProcessedBlocks.length_eq (by decide)⟩

theorem rejected_window_firstBlock :
    (firstBlockWarehouse.SameRows emptyWarehouse ↔
        firstBlockWarehouse.KeepsRows repeatedOutputWindow ⟨some true,none⟩) ∧
      ∃ v pending, firstBlockWarehouse.pendingWindow (fun _ => []) repeatedOutputWindow
          ⟨some true,none⟩ = .ok (v,pending) ∧
        (¬EntersRecovery ⟨some true,none⟩ v pending → emptyWarehouse = v) ∧
        (EntersRecovery ⟨some true,none⟩ v pending → emptyWarehouse = v.recoveredFor pending) :=
  rejected_window (fun _ => []) firstBlockWarehouse emptyWarehouse repeatedOutputWindow
    ⟨some true,none⟩ _ rfl

end OnlyDoge
