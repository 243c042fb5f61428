import OnlyDoge.Warehouse.WindowSpec
import OnlyDoge.Library.Invariant
set_option autoImplicit false

/-! What the jobs of the warehouse leave alone, at every point where they can stop. -/

namespace OnlyDoge
open Job

/-- The fact tables are the same; the current UTXO, balance and applied tables may differ. -/
structure SameFacts (w t : Warehouse) : Prop where
  creates : t.coreUtxoCreates = w.coreUtxoCreates
  spends : t.coreUtxoSpends = w.coreUtxoSpends
  processed : t.coreProcessedBlocks = w.coreProcessedBlocks
  movements : t.addressMovements = w.addressMovements
  movementsByAddress : t.addressMovementsByAddress = w.addressMovementsByAddress
  transactions : t.analyticsTransactions = w.analyticsTransactions
  refs : t.transactionRefs = w.transactionRefs

theorem sameFacts_refl (w : Warehouse) : SameFacts w w := ⟨rfl,rfl,rfl,rfl,rfl,rfl,rfl⟩

theorem SameFacts.trans {w t u : Warehouse} (h : SameFacts w t) (h' : SameFacts t u) :
    SameFacts w u :=
  ⟨h'.creates.trans h.creates,h'.spends.trans h.spends,h'.processed.trans h.processed,
    h'.movements.trans h.movements,h'.movementsByAddress.trans h.movementsByAddress,
    h'.transactions.trans h.transactions,h'.refs.trans h.refs⟩

/-- A property of the fact tables alone. -/
def AboutFacts (I : Warehouse → Prop) : Prop := ∀ w t, SameFacts w t → I w → I t

/-- A property that survives each of the four inserts of a window. -/
structure AbsorbsFacts (I : Warehouse → Prop) (facts : CoreWindowFacts) : Prop where
  creates : ∀ w, I w → I (w.insertCoreCreates facts.creates)
  spends : ∀ w, I w → I (w.insertCoreSpends facts.spends)
  movements : ∀ w, I w → I (w.insertAddressMovements facts.movements)
  transactions : ∀ w, I w → I (w.insertAnalyticsTransactions facts.transactions)

section Jobs
variable {I : Warehouse → Prop} {boundaries : Warehouse → List String}
variable {pending : List CoreDogecoinBlockApplication} {context : CoreDogecoinApplyContext}

theorem keeps_insertRows {ρ : Type} {insert : List ρ → Warehouse → Warehouse} {values : List ρ}
    (h : ∀ w, I w → I (insert values w)) : Keeps I (insertRows insert values) :=
  keeps_ite (fun _ => keeps_pure ()) (fun _ => keeps_write h)

theorem keeps_deleteCoreDogecoinTail {fromBlockHeight : Nat}
    (h : ∀ table w, I w → I (w.deleteTail fromBlockHeight table)) :
    Keeps I (deleteCoreDogecoinTail fromBlockHeight) := by
  refine keeps_bind (keeps_read _) (fun _ => keeps_forEach (fun table _ => ?_))
  exact keeps_bind (keeps_read _) (fun _ => keeps_when (fun _ => keeps_write (h table)))

theorem keeps_clearSteps {steps : List (Warehouse → Warehouse)} (hI : AboutFacts I)
    (h : ∀ step ∈ steps, ∀ w, SameFacts w (step w)) :
    Keeps I (forEach steps write : WarehouseJob Unit) :=
  keeps_forEach (fun step hs => keeps_write (fun w hw => hI w _ (h step hs w) hw))

theorem keeps_clearCoreDogecoinCurrentState (hI : AboutFacts I) :
    Keeps I clearCoreDogecoinCurrentState := by
  refine keeps_clearSteps hI (fun step hs w => ?_)
  simp only [clearCurrentStateSteps,List.mem_cons,List.not_mem_nil,or_false] at hs
  rcases hs with rfl | rfl | rfl | rfl | rfl <;> exact ⟨rfl,rfl,rfl,rfl,rfl,rfl,rfl⟩

theorem keeps_clearCoreDerivedState (hI : AboutFacts I) : Keeps I clearCoreDerivedState := by
  refine keeps_clearSteps hI (fun step hs w => ?_)
  simp only [clearDerivedStateSteps,List.mem_cons,List.not_mem_nil,or_false] at hs
  rcases hs with rfl | rfl | rfl <;> exact ⟨rfl,rfl,rfl,rfl,rfl,rfl,rfl⟩

theorem keeps_insertCoreCurrentBalances (hI : AboutFacts I) (asOfBlockHeight : Nat) :
    Keeps I (insertCoreCurrentBalances boundaries asOfBlockHeight) := by
  refine keeps_bind (keeps_read _) (fun _ => keeps_forEach (fun _ _ => keeps_bind ?_ (fun _ => ?_)))
  · exact keeps_write (fun w hw => hI w _ ⟨rfl,rfl,rfl,rfl,rfl,rfl,rfl⟩ hw)
  · exact keeps_write (fun w hw => hI w _ ⟨rfl,rfl,rfl,rfl,rfl,rfl,rfl⟩ hw)

theorem keeps_insertCoreAppliedBlocks (hI : AboutFacts I) (asOfBlockHeight : Nat) :
    Keeps I (insertCoreAppliedBlocks asOfBlockHeight) :=
  keeps_forEach (fun _ _ => keeps_write (fun w hw => hI w _ ⟨rfl,rfl,rfl,rfl,rfl,rfl,rfl⟩ hw))

/-- A property of a larger state that looks at the facts of its warehouse only. -/
def AboutFactsOf {σ : Type} (part : StatePart σ Warehouse) (J : σ → Prop) : Prop :=
  ∀ s t, SameFacts (part.get s) t → J s → J (part.put t s)

section Materialize
variable {σ : Type} {J : σ → Prop} {materialization : MaterializationContext σ}

theorem keeps_zoom_facts {part : StatePart σ Warehouse} {α : Type} {m : WarehouseJob α}
    (hJ : AboutFactsOf part J) (hm : ∀ I, AboutFacts I → Keeps I m) : Keeps J (zoom part m) := by
  refine keeps_zoom (fun s _ => hm _ (fun w u hwu hw => ?_))
  have hput := hJ (part.put w s) u (by rw [part.get_put]; exact hwu) hw
  rwa [part.put_put] at hput

theorem keeps_insertCoreCurrentUtxoRanges (hJ : AboutFactsOf materialization.warehouse J)
    (hrange : ∀ completed count, Keeps J (materialization.onRangeCompleted completed count))
    (asOfBlockHeight completedRanges : Nat) (ranges : List ClickHouseStringRange) :
    Keeps J (insertCoreCurrentUtxoRanges materialization asOfBlockHeight
      completedRanges ranges) := by
  refine keeps_forEach (fun entry _ => keeps_ite (fun _ => keeps_pure ()) (fun _ => ?_))
  refine keeps_bind (keeps_zoom_facts hJ (fun I hI => ?_)) (fun _ => hrange _ _)
  exact keeps_write (fun w hw => hI w _ ⟨rfl,rfl,rfl,rfl,rfl,rfl,rfl⟩ hw)

theorem keeps_insertCoreCurrentStateMaterialization
    (hJ : AboutFactsOf materialization.warehouse J)
    (hrange : ∀ completed count, Keeps J (materialization.onRangeCompleted completed count))
    (asOfBlockHeight completedRanges : Nat) (ranges : List ClickHouseStringRange) :
    Keeps J (insertCoreCurrentStateMaterialization materialization boundaries asOfBlockHeight
      completedRanges ranges) := by
  refine keeps_bind (keeps_insertCoreCurrentUtxoRanges hJ hrange _ _ _) (fun _ => ?_)
  refine keeps_bind (keeps_when (fun _ => keeps_zoom_facts hJ
    (fun I hI => keeps_clearCoreDerivedState hI))) (fun _ => ?_)
  refine keeps_bind (keeps_zoom_facts hJ
    (fun I hI => keeps_insertCoreCurrentBalances hI _)) (fun _ => ?_)
  exact keeps_zoom_facts hJ (fun I hI => keeps_insertCoreAppliedBlocks hI _)

theorem keeps_materializeCoreDogecoinCurrentState
    (hJ : AboutFactsOf materialization.warehouse J)
    (hrange : ∀ completed count, Keeps J (materialization.onRangeCompleted completed count))
    (asOfBlockHeight : Nat) :
    Keeps J (materializeCoreDogecoinCurrentState materialization boundaries asOfBlockHeight) := by
  refine keeps_bind (keeps_zoom_facts hJ
    (fun I hI => keeps_bind (keeps_read _) (fun _ => keeps_pure _))) (fun ranges => ?_)
  refine keeps_bind (keeps_when (fun _ => keeps_zoom_facts hJ
    (fun I hI => keeps_clearCoreDogecoinCurrentState hI))) (fun _ => ?_)
  exact keeps_insertCoreCurrentStateMaterialization hJ hrange _ _ _

end Materialize

theorem keeps_rematerializeCoreCurrentStateBelow (hI : AboutFacts I) (fromBlockHeight : Nat) :
    Keeps I (rematerializeCoreCurrentStateBelow boundaries fromBlockHeight) := by
  refine keeps_bind (keeps_clearCoreDogecoinCurrentState hI) (fun _ => ?_)
  cases fromBlockHeight with
  | zero => exact keeps_pure ()
  | succ asOfBlockHeight =>
    refine keeps_bind (keeps_bind (keeps_read _) (fun _ => keeps_pure _)) (fun ranges => ?_)
    have hwhole : AboutFactsOf rewindMaterialization.warehouse I := fun w t h hw => hI w t h hw
    exact keeps_insertCoreCurrentStateMaterialization hwhole (fun _ _ => keeps_pure ()) _ _ _

theorem keeps_rewindCoreDogecoinWindow (hI : AboutFacts I) {fromBlockHeight : Nat}
    (hcut : ∀ table w, I w → I (w.deleteTail fromBlockHeight table)) :
    Keeps I (rewindCoreDogecoinWindow boundaries fromBlockHeight context) :=
  keeps_bind (keeps_deleteCoreDogecoinTail hcut) (fun _ => keeps_when (fun _ =>
    keeps_rematerializeCoreCurrentStateBelow hI _))

theorem keeps_assertCoreWindowPreviousBlock (pending : List CoreDogecoinBlockApplication) :
    Keeps I (assertCoreWindowPreviousBlock pending) := by
  unfold assertCoreWindowPreviousBlock
  cases pending with
  | nil => exact keeps_pure ()
  | cons first rest =>
    simp only
    split
    · exact keeps_pure ()
    · exact keeps_bind (keeps_read _) (fun _ => keeps_ofExcept _)

theorem keeps_assertCoreWindowPrevouts (pending : List CoreDogecoinBlockApplication) :
    Keeps I (assertCoreWindowPrevouts pending) := by
  refine keeps_ite (fun _ => keeps_pure ()) (fun _ => ?_)
  refine keeps_bind (keeps_read _) (fun _ => keeps_bind (keeps_read _) (fun _ => ?_))
  exact keeps_bind (keeps_ofExcept _) (fun _ => keeps_ofExcept _)

theorem keeps_validatePendingCoreWindow (pending : List CoreDogecoinBlockApplication)
    (context : CoreDogecoinApplyContext) : Keeps I (validatePendingCoreWindow pending context) := by
  refine keeps_bind (keeps_ofExcept _) (fun _ => ?_)
  refine keeps_bind (keeps_assertCoreWindowPreviousBlock pending) (fun _ => ?_)
  exact keeps_when (fun _ => keeps_assertCoreWindowPrevouts pending)

theorem keeps_insertCoreWindowFacts {prevouts : OutputMap}
    (h : AbsorbsFacts I (coreWindowFactInserts pending prevouts)) :
    Keeps I (insertCoreWindowFacts pending prevouts) := by
  refine keeps_settleAll (fun m hm => ?_)
  simp only [List.mem_cons,List.not_mem_nil,or_false] at hm
  rcases hm with rfl | rfl | rfl | rfl
  · exact keeps_insertRows h.creates
  · exact keeps_insertRows h.spends
  · exact keeps_insertRows h.movements
  · exact keeps_insertRows h.transactions

theorem keeps_loadCoreWindowPrevouts (pending : List CoreDogecoinBlockApplication)
    (context : CoreDogecoinApplyContext) : Keeps I (loadCoreWindowPrevouts pending context) :=
  keeps_ite (fun _ => keeps_read _) (fun _ => keeps_pure _)

theorem keeps_resolveCoreCurrentStateWindow (pending : List CoreDogecoinBlockApplication)
    (context : CoreDogecoinApplyContext) (prevouts : OutputMap) :
    Keeps I (resolveCoreCurrentStateWindow pending context prevouts) := by
  refine keeps_ite (fun _ => ?_) (fun _ => keeps_pure _)
  unfold buildCoreCurrentStateWindow
  cases pending.getLast? with
  | none => exact keeps_pure none
  | some last =>
    refine keeps_bind (keeps_ofExcept _) (fun mutation => keeps_bind (keeps_read _) (fun _ => ?_))
    exact keeps_bind (keeps_ofExcept _) (fun _ => keeps_pure _)

theorem keeps_insertCoreCurrentStateIfBuilt (hI : AboutFacts I)
    (currentState : Option CoreCurrentStateWindow) :
    Keeps I (insertCoreCurrentStateIfBuilt currentState pending) := by
  cases currentState with
  | none => exact keeps_pure ()
  | some currentState =>
    refine keeps_bind (keeps_insertRows ?_) (fun _ => keeps_bind (keeps_insertRows ?_) (fun _ =>
      keeps_bind (keeps_insertRows ?_) (fun _ => keeps_insertRows ?_)))
    all_goals exact fun w hw => hI w _ ⟨rfl,rfl,rfl,rfl,rfl,rfl,rfl⟩ hw

theorem keeps_repairMissingCoreCurrentPrevouts (hI : AboutFacts I)
    (pending : List CoreDogecoinBlockApplication) :
    Keeps I (repairMissingCoreCurrentPrevouts pending) := by
  refine keeps_bind (keeps_read _) (fun _ => keeps_ite (fun _ => keeps_pure ()) (fun _ => ?_))
  refine keeps_bind (keeps_read _) (fun _ => keeps_bind (keeps_ofExcept _) (fun _ => ?_))
  exact keeps_insertRows (fun w hw => hI w _ ⟨rfl,rfl,rfl,rfl,rfl,rfl,rfl⟩ hw)

end Jobs

end OnlyDoge
