import OnlyDoge.Warehouse.TransactionPlaces
set_option autoImplicit false

/-!
No job of the warehouse stores an output that no block of its window creates: windows, their
repairs, rewinds and materializations copy the outputs of the rows that they read.
-/

namespace OnlyDoge
open Job

section Placed
variable {R : TransactionRef → Prop} {O : ProjectionUtxoOutput → Prop} {w t : Warehouse}
variable {boundaries : Warehouse → List String}

variable (R O) in
/-- A property of a larger state that says no more of its warehouse than the outputs. -/
structure AboutPlaces {σ : Type} (part : StatePart σ Warehouse) (J : σ → Prop) : Prop where
  placed : ∀ s, J s → Placed R O (part.get s)
  put : ∀ s w, J s → Placed R O w → J (part.put w s)

theorem keeps_zoom_placed {σ α : Type} {part : StatePart σ Warehouse} {J : σ → Prop}
    {m : WarehouseJob α} (hJ : AboutPlaces R O part J) (hm : Keeps (Placed R O) m) :
    Keeps J (zoom part m) := by
  refine keeps_zoom (fun s hs w hw => ?_)
  have hplaced := hJ.placed _ hw
  rw [part.get_put] at hplaced
  exact wp_mono (hm w hplaced) (fun _ t ht => hJ.put s t hs ht) (fun _ t ht => hJ.put s t hs ht)
    (fun t ht => hJ.put s t hs ht)

theorem keeps_clear_placed {steps : List (Warehouse → Warehouse)}
    (h : ∀ step ∈ steps, ∀ w, Placed R O w → Placed R O (step w)) :
    Keeps (Placed R O) (forEach steps write : WarehouseJob Unit) :=
  keeps_forEach (fun step hstep => keeps_write (h step hstep))

theorem keeps_clearCoreDogecoinCurrentState_placed :
    Keeps (Placed R O) clearCoreDogecoinCurrentState := by
  refine keeps_clear_placed (fun step hstep w hw => ?_)
  simp only [clearCurrentStateSteps,List.mem_cons,List.not_mem_nil,or_false] at hstep
  rcases hstep with rfl | rfl | rfl | rfl | rfl <;> exact hw.of_subset (by simp) (by simp) (by simp)

theorem keeps_clearCoreDerivedState_placed : Keeps (Placed R O) clearCoreDerivedState := by
  refine keeps_clear_placed (fun step hstep w hw => ?_)
  simp only [clearDerivedStateSteps,List.mem_cons,List.not_mem_nil,or_false] at hstep
  rcases hstep with rfl | rfl | rfl <;> exact hw.of_subset (by simp) (by simp) (by simp)

theorem Placed.frame (h : Placed R O w) (hrefs : t.transactionRefs = w.transactionRefs)
    (hcreates : t.coreUtxoCreates = w.coreUtxoCreates)
    (hcurrent : t.currentUtxos = w.currentUtxos) :
    Placed R O t :=
  h.of_subset (by rw [hrefs]; exact List.Subset.refl _) (by rw [hcreates]; exact List.Subset.refl _)
    (by rw [hcurrent]; exact List.Subset.refl _)

theorem keeps_insertCoreCurrentBalances_placed (asOfBlockHeight : Nat) :
    Keeps (Placed R O) (insertCoreCurrentBalances boundaries asOfBlockHeight) :=
  keeps_bind (keeps_read _) (fun _ => keeps_forEach (fun _ _ => keeps_bind
    (keeps_write (fun _ hw => hw.frame rfl rfl rfl))
    (fun _ => keeps_write (fun _ hw => hw.frame rfl rfl rfl))))

theorem keeps_insertCoreAppliedBlocks_placed (asOfBlockHeight : Nat) :
    Keeps (Placed R O) (insertCoreAppliedBlocks asOfBlockHeight) :=
  keeps_forEach (fun _ _ => keeps_write (fun _ hw => hw.frame rfl rfl rfl))

theorem keeps_coreCurrentStateRanges_placed : Keeps (Placed R O) coreCurrentStateRanges :=
  keeps_bind (keeps_read _) (fun _ => keeps_pure _)

section Materialize
variable {σ : Type} {J : σ → Prop} {materialization : MaterializationContext σ}

theorem keeps_insertCoreCurrentStateMaterialization_placed
    (hJ : AboutPlaces R O materialization.warehouse J)
    (hrange : ∀ completed count, Keeps J (materialization.onRangeCompleted completed count))
    (asOfBlockHeight completedRanges : Nat) (ranges : List ClickHouseStringRange) :
    Keeps J (insertCoreCurrentStateMaterialization materialization boundaries asOfBlockHeight
      completedRanges ranges) := by
  have hinsert : Keeps J (insertCoreCurrentUtxoRanges materialization asOfBlockHeight
      completedRanges ranges) := by
    refine keeps_forEach (fun entry _ => keeps_ite (fun _ => keeps_pure ()) (fun _ => ?_))
    refine keeps_bind (keeps_zoom_placed hJ (keeps_write (fun w hw => ?_))) (fun _ => hrange _ _)
    exact hw.insertCurrent (hw.materialized asOfBlockHeight entry.1)
  refine keeps_bind hinsert (fun _ => keeps_bind (keeps_when (fun _ => ?_)) (fun _ => ?_))
  · exact keeps_zoom_placed hJ keeps_clearCoreDerivedState_placed
  · exact keeps_bind (keeps_zoom_placed hJ (keeps_insertCoreCurrentBalances_placed _))
      (fun _ => keeps_zoom_placed hJ (keeps_insertCoreAppliedBlocks_placed _))

theorem keeps_materializeCoreDogecoinCurrentState_placed
    (hJ : AboutPlaces R O materialization.warehouse J)
    (hrange : ∀ completed count, Keeps J (materialization.onRangeCompleted completed count))
    (asOfBlockHeight : Nat) :
    Keeps J (materializeCoreDogecoinCurrentState materialization boundaries asOfBlockHeight) := by
  refine keeps_bind (keeps_zoom_placed hJ keeps_coreCurrentStateRanges_placed) (fun _ => ?_)
  refine keeps_bind (keeps_when (fun _ => ?_)) (fun _ => ?_)
  · exact keeps_zoom_placed hJ keeps_clearCoreDogecoinCurrentState_placed
  · exact keeps_insertCoreCurrentStateMaterialization_placed hJ hrange _ _ _

end Materialize

theorem keeps_recoverCoreDogecoinWindow_placed (fromBlockHeight : Nat)
    (context : CoreDogecoinApplyContext) :
    Keeps (Placed R O) (recoverCoreDogecoinWindow boundaries fromBlockHeight context) := by
  refine keeps_bind (keeps_deleteCoreDogecoinTail (fun table w hw => hw.deleteTail _ table))
    (fun _ => keeps_when (fun _ => ?_))
  refine keeps_bind keeps_clearCoreDogecoinCurrentState_placed (fun _ => ?_)
  cases fromBlockHeight with
  | zero => exact keeps_pure ()
  | succ asOfBlockHeight =>
    refine keeps_bind keeps_coreCurrentStateRanges_placed (fun ranges => ?_)
    have hwhole : AboutPlaces R O rewindMaterialization.warehouse (Placed R O) :=
      ⟨fun _ hw => hw,fun _ _ _ hw => hw⟩
    exact keeps_insertCoreCurrentStateMaterialization_placed hwhole (fun _ _ => keeps_pure ()) _ _ _

variable (O) in
/-- The outputs that a window holds in memory. -/
def PlacedMap (outputs : OutputMap) : Prop :=
  ∀ key output, outputs.get key = some output → O output.created

variable (O) in
def PlacedApplications (applications : List CoreDogecoinBlockApplication) : Prop :=
  ∀ application ∈ applications, ∀ output ∈ application.utxoCreates, O output.created

theorem PlacedMap.set {outputs : OutputMap} {key : OutputKey} {output : ProjectionUtxoOutput}
    (h : PlacedMap O outputs) (houtput : O output.created) :
    PlacedMap O (outputs.set key output) := by
  intro k o hget
  rw [OrderedMap.get_set] at hget
  by_cases hk : key = k
  · simp only [hk,if_true,Option.some.injEq] at hget
    exact hget ▸ houtput
  · simp only [hk,if_false] at hget
    exact h k o hget

theorem Placed.outputMap (h : Placed R O w) (keys : List OutputKey) :
    PlacedMap O (Warehouse.getCurrentUtxoOutputMap keys w) := by
  intro key output hget
  obtain ⟨k,-,hk⟩ := List.mem_filterMap.mp (OrderedMap.get_ofEntries_of_mem hget)
  obtain ⟨row,hrow,hentry⟩ := Option.map_eq_some_iff.mp hk
  cases hentry
  exact h.current row (Replacing.latest_spec hrow).1

theorem placedMap_creates {outputs : List ProjectionUtxoOutput}
    {mutation : CoreCurrentStateMutation}
    (h : PlacedMap O mutation.nextOutputs) (houtputs : ∀ output ∈ outputs, O output.created) :
    PlacedMap O (outputs.foldl applyCoreCurrentStateCreate mutation).nextOutputs := by
  induction outputs generalizing mutation with
  | nil => exact h
  | cons output outputs ih =>
    exact ih (h.set (houtputs output List.mem_cons_self))
      (fun o ho => houtputs o (List.mem_cons_of_mem _ ho))

theorem placedMap_spend {prevouts : OutputMap} {mutation next : CoreCurrentStateMutation}
    {spend : CoreDogecoinSpend} (hprevouts : PlacedMap O prevouts)
    (h : PlacedMap O mutation.nextOutputs)
    (hok : applyCoreCurrentStateSpend prevouts mutation spend = .ok next) :
    PlacedMap O next.nextOutputs := by
  obtain ⟨current,hcurrent,hnext⟩ := bind_eq_ok.mp hok
  cases hnext
  have hplaced : O current.created := by
    unfold currentCoreOutput at hcurrent
    cases hown : mutation.nextOutputs.get spend.outputKey with
    | some output =>
      rw [hown] at hcurrent
      cases hcurrent
      exact h _ _ hown
    | none =>
      rw [hown] at hcurrent
      cases hprevious : prevouts.get spend.outputKey with
      | some output =>
        rw [hprevious] at hcurrent
        cases hcurrent
        exact hprevouts _ _ hprevious
      | none =>
        rw [hprevious] at hcurrent
        cases hcurrent
  exact h.set hplaced

theorem placedMap_spends {prevouts : OutputMap} {spends : List CoreDogecoinSpend}
    {mutation next : CoreCurrentStateMutation} (hprevouts : PlacedMap O prevouts)
    (h : PlacedMap O mutation.nextOutputs)
    (hok : spends.foldlM (applyCoreCurrentStateSpend prevouts) mutation = .ok next) :
    PlacedMap O next.nextOutputs := by
  induction spends generalizing mutation with
  | nil =>
    cases hok
    exact h
  | cons spend spends ih =>
    rw [List.foldlM_cons] at hok
    obtain ⟨middle,hmiddle,hrest⟩ := bind_eq_ok.mp hok
    exact ih (placedMap_spend hprevouts h hmiddle) hrest

theorem placedMap_mutations {prevouts : OutputMap}
    {pending : List CoreDogecoinBlockApplication} {mutation next : CoreCurrentStateMutation}
    (hprevouts : PlacedMap O prevouts) (hpending : PlacedApplications O pending)
    (h : PlacedMap O mutation.nextOutputs)
    (hok : pending.foldlM (applyCoreCurrentStateApplication prevouts) mutation = .ok next) :
    PlacedMap O next.nextOutputs := by
  induction pending generalizing mutation with
  | nil =>
    cases hok
    exact h
  | cons application pending ih =>
    rw [List.foldlM_cons] at hok
    obtain ⟨middle,hmiddle,hrest⟩ := bind_eq_ok.mp hok
    refine ih (fun a ha => hpending a (List.mem_cons_of_mem _ ha)) ?_ hrest
    exact placedMap_spends hprevouts
      (placedMap_creates h (hpending application List.mem_cons_self)) hmiddle

section Apply
variable {pending input : List CoreDogecoinBlockApplication} {context : CoreDogecoinApplyContext}

theorem placedMap_empty : PlacedMap O .empty := by
  intro key output hget
  cases hget

theorem wp_loadCoreWindowPrevouts_placed (h : Placed R O w) :
    wp (loadCoreWindowPrevouts pending context)
      (fun prevouts t => Placed R O t ∧ PlacedMap O prevouts) (fun _ => Placed R O)
      (Placed R O) w :=
  wp_ite (fun _ => wp_read ⟨h,h.outputMap _⟩ h h) (fun _ => wp_pure ⟨h,placedMap_empty⟩)

theorem wp_resolveCoreCurrentStateWindow_placed {prevouts : OutputMap} (h : Placed R O w)
    (hpending : PlacedApplications O pending) (hprevouts : PlacedMap O prevouts) :
    wp (resolveCoreCurrentStateWindow pending context prevouts)
      (fun built t => Placed R O t ∧ ∀ state, built = some state → PlacedMap O state.nextOutputs)
      (fun _ => Placed R O) (Placed R O) w := by
  refine wp_ite (fun _ => ?_) (fun _ => wp_pure ⟨h,fun _ hnone => by cases hnone⟩)
  unfold buildCoreCurrentStateWindow
  cases pending.getLast? with
  | none => exact wp_pure ⟨h,fun _ hnone => by cases hnone⟩
  | some last =>
    refine wp_bind (wp_ofExcept (fun mutation hmutation => ?_) (fun _ _ => h))
    refine wp_bind (wp_read ?_ h h)
    refine wp_bind (wp_ofExcept (fun balances _ => wp_pure ⟨h,?_⟩) (fun _ _ => h))
    intro state hstate
    cases hstate
    exact placedMap_mutations hprevouts hpending placedMap_empty hmutation

theorem keeps_insertPendingCoreWindow_placed (hpending : PlacedApplications O pending) :
    Keeps (Placed R O) (insertPendingCoreWindow pending context) := by
  intro w hw
  refine wp_bind (wp_mono (wp_loadCoreWindowPrevouts_placed hw) ?_ (fun _ _ h => h) (fun _ h => h))
  rintro prevouts t ⟨ht,hprevouts⟩
  refine wp_bind (wp_mono (wp_resolveCoreCurrentStateWindow_placed ht hpending hprevouts) ?_
    (fun _ _ h => h) (fun _ h => h))
  rintro built u ⟨hu,hbuilt⟩
  have hfacts : AbsorbsFacts (Placed R O) (coreWindowFactInserts pending prevouts) := by
    refine ⟨fun v hv => hv.insertCreates (fun output hmem => ?_),fun _ hv => hv.frame rfl rfl rfl,
      fun _ hv => hv.frame rfl rfl rfl,fun _ hv => hv.frame rfl rfl rfl⟩
    obtain ⟨created,hcreated,rfl⟩ := List.mem_map.mp hmem
    obtain ⟨application,happlication,hcreated⟩ := List.mem_flatMap.mp hcreated
    exact hpending application happlication created hcreated
  have hcurrent : Keeps (Placed R O) (insertCoreCurrentStateIfBuilt built pending) := by
    cases built with
    | none => exact keeps_pure ()
    | some state =>
      refine keeps_bind (keeps_insertRows (fun v hv => hv.insertCurrent (fun row hmem => ?_)))
        (fun _ => keeps_bind (keeps_insertRows (fun _ hv => hv.frame rfl rfl rfl)) (fun _ =>
          keeps_bind (keeps_insertRows (fun _ hv => hv.frame rfl rfl rfl)) (fun _ =>
            keeps_insertRows (fun _ hv => hv.frame rfl rfl rfl))))
      obtain ⟨output,houtput,rfl⟩ := List.mem_map.mp hmem
      obtain ⟨key,hkey⟩ := OrderedMap.mem_values.mp houtput
      exact hbuilt state rfl key output hkey
  exact keeps_bind (keeps_insertCoreWindowFacts hfacts) (fun _ => keeps_bind hcurrent (fun _ =>
    keeps_insertRows (fun _ hv => hv.frame rfl rfl rfl))) u hu

theorem keeps_repairMissingCoreCurrentPrevouts_placed :
    Keeps (Placed R O) (repairMissingCoreCurrentPrevouts pending) := by
  intro w hw
  refine wp_bind (wp_read (wp_ite (fun _ => wp_pure hw) (fun _ => ?_)) hw hw)
  refine wp_bind (wp_read ?_ hw hw)
  refine wp_bind (wp_ofExcept (fun _ _ => ?_) (fun _ _ => hw))
  refine keeps_insertRows (fun v hv => hv.insertCurrent (fun row hmem => ?_)) w hw
  obtain ⟨output,houtput,rfl⟩ := List.mem_map.mp hmem
  unfold Warehouse.queryCoreHistoricalUtxoOutputRows at houtput
  split at houtput
  · cases houtput
  · obtain ⟨key,-,hkey⟩ := List.mem_filterMap.mp houtput
    obtain ⟨created,hcreated,rfl⟩ := Option.map_eq_some_iff.mp hkey
    have hcreate := List.mem_of_mem_filter (Replacing.latest_spec hcreated).1
    exact hw.creates created hcreate

theorem keeps_cleanFailedCoreWindowFacts_placed (pending : List CoreDogecoinBlockApplication) :
    Keeps (Placed R O) (cleanFailedCoreWindowFacts pending) := by
  unfold cleanFailedCoreWindowFacts
  cases pending.head? with
  | none => exact keeps_pure ()
  | some first => exact keeps_deleteCoreDogecoinTail (fun table w hw => hw.deleteTail _ table)

theorem keeps_insertPendingCoreWindowWithRecovery_placed
    (hpending : PlacedApplications O pending) :
    Keeps (Placed R O) (insertPendingCoreWindowWithRecovery pending context) := by
  have hinsert : Keeps (Placed R O) (insertPendingCoreWindow pending context) :=
    keeps_insertPendingCoreWindow_placed hpending
  have hclean : Keeps (Placed R O) (cleanFailedCoreWindowFacts pending) :=
    keeps_cleanFailedCoreWindowFacts_placed pending
  refine keeps_catchThrown hinsert (fun e => ?_)
  cases e with
  | error message => exact keeps_throw _
  | missingCoreCurrentPrevout key =>
    refine keeps_ite (fun _ => ?_) (fun _ => keeps_throw _)
    exact keeps_bind (keeps_bind hclean (fun _ => keeps_repairMissingCoreCurrentPrevouts_placed))
      (fun _ => keeps_onFailure hinsert hclean)

theorem wp_pendingCoreWindowApplications_placed (hw : Placed R O w) :
    wp (pendingCoreWindowApplications boundaries input context)
      (fun pending t => Placed R O t ∧ pending ⊆ input) (fun _ => Placed R O) (Placed R O) w := by
  refine wp_bind (wp_read ?_ hw hw)
  generalize firstCoreReorgHeight input _ = reorg
  cases reorg with
  | none =>
    refine wp_ofExcept (fun pending hpending => ⟨hw,?_⟩) (fun _ _ => hw)
    exact (filterPendingCoreApplications_sublist hpending).subset
  | some height =>
    refine wp_bind (wp_mono (keeps_recoverCoreDogecoinWindow_placed height context w hw) ?_
      (fun _ _ h => h) (fun _ h => h))
    exact fun _ t ht => wp_pure ⟨ht,List.filter_sublist.subset⟩

/-- Wherever a window stops, its rows hold outputs of its own blocks or outputs held before. -/
theorem keeps_applyCoreDogecoinWindow_placed (hinput : PlacedApplications O input) :
    Keeps (Placed R O) (applyCoreDogecoinWindow boundaries input context) := by
  intro w hw
  refine wp_ite (fun _ => wp_pure hw) (fun _ => ?_)
  refine wp_bind (wp_mono (wp_pendingCoreWindowApplications_placed hw) ?_ (fun _ _ h => h)
    (fun _ h => h))
  rintro pending t ⟨ht,hsubset⟩
  refine wp_ite (fun _ => wp_pure ht) (fun _ => ?_)
  have hpending : PlacedApplications O pending := fun a ha => hinput a (hsubset ha)
  exact keeps_bind (keeps_validatePendingCoreWindow _ _) (fun _ => keeps_bind
    (keeps_insertPendingCoreWindowWithRecovery_placed hpending) (fun _ => keeps_pure _)) t ht

end Apply

end Placed

end OnlyDoge
