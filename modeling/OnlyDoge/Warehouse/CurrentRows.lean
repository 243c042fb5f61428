import OnlyDoge.Warehouse.FactTotals
set_option autoImplicit false

/-!
The rows of the current UTXO table against the outputs and the spends of the chain: what each key
holds, spent outputs with their spends, and that the by-address table has the same rows.
-/

namespace OnlyDoge
open Job

/-- An output of the chain with the spend that takes it. -/
def withSpend (spends : List CoreDogecoinSpend) (output : ProjectionUtxoOutput) :
    ProjectionUtxoOutput :=
  { output with
    spentBy := (spends.find? (·.outputKey = output.outputKey)).map
      (fun s => ⟨s.spentByTxid,s.spentInBlock,s.spentInputIndex⟩) }

section WithSpend
variable {spends more : List CoreDogecoinSpend} {spend : CoreDogecoinSpend}
variable {output : ProjectionUtxoOutput}

@[simp] theorem withSpend_key : (withSpend spends output).outputKey = output.outputKey := rfl

@[simp] theorem withSpend_address : (withSpend spends output).address = output.address := rfl

theorem find?_spend_eq_none (h : ∀ s ∈ spends, s.outputKey ≠ output.outputKey) :
    spends.find? (·.outputKey = output.outputKey) = none := by
  rw [List.find?_eq_none]
  exact fun s hs => by simpa using h s hs

theorem withSpend_untaken (h : ∀ s ∈ spends, s.outputKey ≠ output.outputKey)
    (hbare : output.spentBy = none) : withSpend spends output = output := by
  unfold withSpend
  rw [find?_spend_eq_none h,Option.map_none,← hbare]

theorem withSpend_append_of_ne (h : ∀ s ∈ more, s.outputKey ≠ output.outputKey) :
    withSpend (spends ++ more) output = withSpend spends output := by
  unfold withSpend
  rw [List.find?_append,find?_spend_eq_none h,Option.or_none]

theorem withSpend_taken (hkey : spend.outputKey = output.outputKey)
    (hfirst : ∀ s ∈ spends, s.outputKey ≠ output.outputKey) :
    withSpend (spends ++ [spend]) output = spentCoreOutput (withSpend spends output) spend := by
  unfold withSpend spentCoreOutput
  rw [List.find?_append,find?_spend_eq_none hfirst]
  simp [hkey]

theorem withSpend_unspent : (withSpend spends output).spentBy = none ↔
    ∀ s ∈ spends, s.outputKey ≠ output.outputKey := by
  unfold withSpend
  rw [Option.map_eq_none_iff,List.find?_eq_none]
  simp

end WithSpend

/-- The outputs that a window holds so far: `before` were spent before it, `done` in it. -/
structure RowsTrack (L : CoinLedger) (before done : List CoreDogecoinSpend)
    (m : CoreCurrentStateMutation) : Prop where
  spent : (before ++ done).map (·.outputKey) = L.spent
  rows : ∀ k o, m.nextOutputs.get k = some o →
    ∃ c ∈ L.created, c.outputKey = k ∧ o = withSpend (before ++ done) c
  touched : ∀ s ∈ done, m.nextOutputs.get s.outputKey ≠ none

/-- The previous outputs of a window are rows of the chain before it. -/
def PrevoutsOf (created : List ProjectionUtxoOutput) (before : List CoreDogecoinSpend)
    (prevouts : OutputMap) : Prop :=
  ∀ k o, prevouts.get k = some o → ∃ c ∈ created, c.outputKey = k ∧ o = withSpend before c

section Track
variable {L L' : CoinLedger} {before done : List CoreDogecoinSpend}
variable {m m' : CoreCurrentStateMutation} {prevouts : OutputMap}
variable {created : List ProjectionUtxoOutput}

theorem RowsTrack.not_spent (h : RowsTrack L before done m) {k : OutputKey} (hk : k ∉ L.spent) :
    ∀ s ∈ before ++ done, s.outputKey ≠ k := by
  rintro s hs rfl
  exact hk (h.spent ▸ List.mem_map_of_mem hs)

theorem RowsTrack.create {c : ProjectionUtxoOutput} (h : RowsTrack L before done m)
    (hc : L.create? c = some L') (hbare : c.spentBy = none) :
    RowsTrack L' before done (applyCoreCurrentStateCreate m c) := by
  obtain ⟨hfresh,hcreated,hspent⟩ := Ledger.create?_eq_some hc
  have huntaken : withSpend (before ++ done) c = c := by
    refine withSpend_untaken (h.not_spent fun hmem => hfresh ?_) hbare
    exact L.spent_created _ hmem
  constructor
  · rw [h.spent,hspent]
  · intro k o ho
    simp only [applyCoreCurrentStateCreate,OrderedMap.get_set] at ho
    rw [hcreated]
    split at ho
    · rename_i hk
      cases ho
      exact ⟨c,List.mem_append_right _ List.mem_cons_self,hk,huntaken.symm⟩
    · obtain ⟨d,hd,hrest⟩ := h.rows k o ho
      exact ⟨d,List.mem_append_left _ hd,hrest⟩
  · intro s hs
    simp only [applyCoreCurrentStateCreate,OrderedMap.get_set]
    split
    · simp
    · exact h.touched s hs

theorem RowsTrack.current {s : CoreDogecoinSpend} {current : ProjectionUtxoOutput}
    (h : RowsTrack L before done m) (hunspent : s.outputKey ∉ L.spent)
    (hsub : ∀ c ∈ created, c ∈ L.created) (hprev : PrevoutsOf created before prevouts)
    (hcurrent : currentCoreOutput m prevouts s = .ok current) :
    ∃ c ∈ L.created, c.outputKey = s.outputKey ∧ current = withSpend (before ++ done) c := by
  unfold currentCoreOutput at hcurrent
  cases hnext : m.nextOutputs.get s.outputKey with
  | some o =>
    rw [hnext] at hcurrent
    cases hcurrent
    exact h.rows _ _ hnext
  | none =>
    rw [hnext] at hcurrent
    cases hold : prevouts.get s.outputKey with
    | none =>
      rw [hold] at hcurrent
      cases hcurrent
    | some o =>
      rw [hold] at hcurrent
      cases hcurrent
      obtain ⟨c,hc,hkey,rfl⟩ := hprev _ _ hold
      refine ⟨c,hsub c hc,hkey,(withSpend_append_of_ne fun other hother => ?_).symm⟩
      rw [hkey]
      exact h.not_spent hunspent other (List.mem_append_right _ hother)

theorem RowsTrack.take {s : CoreDogecoinSpend} (h : RowsTrack L before done m)
    (hs : L.spend? s.outputKey = some L') (hsub : ∀ c ∈ created, c ∈ L.created)
    (hprev : PrevoutsOf created before prevouts)
    (hm : applyCoreCurrentStateSpend prevouts m s = .ok m') :
    RowsTrack L' before (done ++ [s]) m' := by
  obtain ⟨-,hunspent,hcreated,hspent⟩ := Ledger.spend?_eq_some hs
  have hfirst := h.not_spent hunspent
  obtain ⟨current,hcurrent,hm⟩ := bind_eq_ok.mp hm
  cases hm
  obtain ⟨c,hc,hkey,rfl⟩ := h.current hunspent hsub hprev hcurrent
  constructor
  · rw [← List.append_assoc,List.map_append,h.spent,hspent]
    rfl
  · intro k o ho
    simp only [OrderedMap.get_set] at ho
    rw [hcreated,← List.append_assoc]
    split at ho
    · rename_i hk
      cases ho
      refine ⟨c,hc,hkey.trans hk,(withSpend_taken hkey.symm fun other hother => ?_).symm⟩
      rw [hkey]
      exact hfirst other hother
    · rename_i hk
      obtain ⟨d,hd,hdk,rfl⟩ := h.rows k o ho
      refine ⟨d,hd,hdk,(withSpend_append_of_ne fun other hother => ?_).symm⟩
      rw [List.mem_singleton.mp hother,hdk]
      exact hk
  · intro other hother
    simp only [OrderedMap.get_set]
    split
    · simp
    · rename_i hne
      refine h.touched other ((List.mem_append.mp hother).resolve_right fun hlast => hne ?_)
      rw [List.mem_singleton.mp hlast]

theorem RowsTrack.creates {cs : List ProjectionUtxoOutput} (h : RowsTrack L before done m)
    (hr : L.postAll? (cs.map .create) = some L') (hbare : ∀ c ∈ cs, c.spentBy = none) :
    RowsTrack L' before done (cs.foldl applyCoreCurrentStateCreate m) := by
  induction cs generalizing L m with
  | nil =>
    cases hr
    exact h
  | cons c cs ih =>
    obtain ⟨M,hM,hrest⟩ := Option.bind_eq_some_iff.mp hr
    exact ih (h.create hM (hbare c List.mem_cons_self)) hrest
      fun d hd => hbare d (List.mem_cons_of_mem _ hd)

theorem RowsTrack.takes {ss : List CoreDogecoinSpend} (h : RowsTrack L before done m)
    (hr : L.postAll? (ss.map (fun s => .spend s.outputKey)) = some L')
    (hsub : ∀ c ∈ created, c ∈ L.created) (hprev : PrevoutsOf created before prevouts)
    (hm : ss.foldlM (applyCoreCurrentStateSpend prevouts) m = .ok m') :
    RowsTrack L' before (done ++ ss) m' := by
  induction ss generalizing L m done with
  | nil =>
    cases hr
    cases hm
    rwa [List.append_nil]
  | cons s ss ih =>
    obtain ⟨M,hM,hrest⟩ := Option.bind_eq_some_iff.mp hr
    rw [List.foldlM_cons] at hm
    obtain ⟨n,hn,hm⟩ := bind_eq_ok.mp hm
    obtain ⟨-,-,hcreated,-⟩ := Ledger.spend?_eq_some hM
    rw [List.append_cons]
    exact ih (h.take hM hsub hprev hn) hrest (fun c hc => hcreated ▸ hsub c hc) hm

theorem RowsTrack.blocks {blocks : List ParsedDogecoinBlock} (h : RowsTrack L before done m)
    (hr : L.postAll? (blocks.flatMap blockEntries) = some L')
    (hsub : ∀ c ∈ created, c ∈ L.created) (hprev : PrevoutsOf created before prevouts)
    (hm : (blocks.map coreBlockApplication).foldlM (applyCoreCurrentStateApplication prevouts) m =
      .ok m') : RowsTrack L' before (done ++ blocks.flatMap blockSpends) m' := by
  induction blocks generalizing L m done with
  | nil =>
    cases hr
    cases hm
    rwa [List.flatMap_nil,List.append_nil]
  | cons block blocks ih =>
    rw [List.flatMap_cons,Ledger.postAll?_append] at hr
    obtain ⟨M,hM,hrest⟩ := Option.bind_eq_some_iff.mp hr
    rw [List.map_cons,List.foldlM_cons] at hm
    obtain ⟨n,hn,hm⟩ := bind_eq_ok.mp hm
    have hcreated := (Ledger.postAll?_eq_some hM).1
    rw [blockEntries,Ledger.postAll?_append] at hM
    obtain ⟨N,hN,hspends⟩ := Option.bind_eq_some_iff.mp hM
    have hcreates := h.creates hN fun c hc => blockCreates_unspent hc
    have hblock := hcreates.takes hspends (fun c hc => by
      rw [(Ledger.postAll?_eq_some hN).1]
      exact List.mem_append_left _ (hsub c hc)) hprev hn
    rw [List.flatMap_cons,← List.append_assoc]
    refine ih hblock hrest (fun c hc => ?_) hm
    rw [hcreated]
    exact List.mem_append_left _ (hsub c hc)

end Track

/-- Every row belongs to an output of the chain, the latest one of a key with the spend of the
chain; the by-address table has the same rows. -/
structure CurrentRows (w : Warehouse) (L : CoinLedger) (spends : List CoreDogecoinSpend) :
    Prop where
  spent : spends.map (·.outputKey) = L.spent
  byAddress : w.currentUtxosByAddress = w.currentUtxos
  owned : ∀ row ∈ w.currentUtxos, ∃ c ∈ L.created,
    c.outputKey = row.key ∧ c.address = row.output.address
  latest : ∀ k row, w.latestUtxoRow k = some row →
    ∃ c ∈ L.created, c.outputKey = k ∧ row.output = withSpend spends c

section Table
variable {w : Warehouse} {L L' : CoinLedger} {spends done : List CoreDogecoinSpend}
variable {blocks window : List ParsedDogecoinBlock} {m : CoreCurrentStateMutation}
variable {boundaries : Warehouse → List String} {context : CoreDogecoinApplyContext}

theorem get_latestOutputs {w : Warehouse} {keys : List OutputKey} {k : OutputKey}
    {o : ProjectionUtxoOutput} :
    (OrderedMap.ofEntries (keys.filterMap
      (fun key => (w.latestUtxoRow key).map (fun row => (key,row.output))))).get k = some o ↔
      k ∈ keys ∧ (w.latestUtxoRow k).map (·.output) = some o := by
  have hfun : (fun key => (w.latestUtxoRow key).map (fun row => (key,row.output))) =
      (fun key => ((w.latestUtxoRow key).map (·.output)).map (fun o => (key,o))) := by
    funext key
    cases w.latestUtxoRow key <;> rfl
  rw [hfun]
  exact OrderedMap.get_ofEntries_filterMap

theorem currentRows_empty : CurrentRows emptyWarehouse .empty [] := by
  constructor <;> simp [emptyWarehouse,Warehouse.latestUtxoRow,Ledger.empty]

theorem CurrentRows.prevouts (h : CurrentRows w L spends)
    (pending : List CoreDogecoinBlockApplication) :
    PrevoutsOf L.created spends (coreWindowPrevouts pending context w) := by
  intro k o ho
  unfold coreWindowPrevouts at ho
  split at ho
  · unfold Warehouse.getCurrentUtxoOutputMap at ho
    obtain ⟨row,hrow,rfl⟩ := Option.map_eq_some_iff.mp (get_latestOutputs.mp ho).2
    exact h.latest k row hrow
  · cases ho

theorem exists_windowRows (hup : shouldUpdateCoreCurrentState context)
    (hw : HoldsCurrent blocks L w) {first last : ParsedDogecoinBlock}
    {rest : List ParsedDogecoinBlock} (hlast : (first::rest).getLast? = some last)
    (hv : ValidBlocks .empty (blocks ++ first::rest) L') :
    ∃ m, applyCoreCurrentStateMutations ((first::rest).map coreBlockApplication)
        (coreWindowPrevouts ((first::rest).map coreBlockApplication) context w) = .ok m ∧
      Tracks L L' first.height (windowEndHeight (first::rest) 0) m ∧
      coreWindowCurrentState ((first::rest).map coreBlockApplication) context
        (coreWindowPrevouts ((first::rest).map coreBlockApplication) context w) w =
          .ok (some (windowRows w m last.height)) := by
  obtain ⟨m,hm,htracks⟩ := tracks_window hup (hv.suffix hw.chain.valid)
    (fun k _ c hc => (hw.current.coin k).trans hc)
  refine ⟨m,hm,htracks,?_⟩
  rw [coreWindowCurrentState_eq hup hlast,(coreCurrentStateWindow_eq_ok hm).mpr
    ⟨nonneg_of_tracks htracks hw.current.balance,rfl⟩]
  rfl

theorem currentRows_addWindow (h : CurrentRows w L spends) (hw : HoldsCurrent blocks L w)
    {first last : ParsedDogecoinBlock} {rest : List ParsedDogecoinBlock}
    (hv : ValidBlocks .empty (blocks ++ first::rest) L')
    (hm : applyCoreCurrentStateMutations ((first::rest).map coreBlockApplication)
      (coreWindowPrevouts ((first::rest).map coreBlockApplication) context w) = .ok m)
    (htracks : Tracks L L' first.height (windowEndHeight (first::rest) 0) m)
    (prevouts : OutputMap) :
    CurrentRows (w.addWindow ((first::rest).map coreBlockApplication) prevouts
      (some (windowRows w m last.height))) L' (spends ++ (first::rest).flatMap blockSpends) := by
  have hwindow := hv.suffix hw.chain.valid
  have hstart : RowsTrack L spends [] createCoreCurrentStateMutation := by
    refine ⟨?_,fun k o ho => (by cases ho),fun s hs => (by cases hs)⟩
    rw [List.append_nil,h.spent]
  have hrows := hstart.blocks hwindow.replay (fun _ hc => hc) (h.prevouts _) hm
  rw [List.nil_append] at hrows
  have hcreated : ∀ c ∈ L.created, c ∈ L'.created := by
    intro c hc
    rw [hwindow.created]
    exact List.mem_append_left _ hc
  have hold : ∀ row ∈ w.currentUtxos, row.version < first.height * 2 := by
    intro row hrow
    have hversion := hw.current.versions.1 row hrow
    have hnext := windowEndHeight_le hv.linked
    omega
  constructor
  · exact hrows.spent
  · change w.currentUtxosByAddress ++ _ = w.currentUtxos ++ _
    rw [h.byAddress]
  · intro row hrow
    rcases List.mem_append.mp hrow with hrow | hrow
    · obtain ⟨c,hc,hrest⟩ := h.owned row hrow
      exact ⟨c,hcreated c hc,hrest⟩
    · obtain ⟨o,ho,rfl⟩ := List.mem_map.mp hrow
      obtain ⟨k,hk⟩ := OrderedMap.mem_values.mp ho
      obtain ⟨c,hc,-,rfl⟩ := hrows.rows k o hk
      exact ⟨c,hc,rfl,rfl⟩
  · intro k row hrow
    have hrow := (Warehouse.latestUtxoRow_append htracks.key hold
      (fun k o ho => (htracks.version k o ho).1) k).symm.trans hrow
    cases hnext : m.nextOutputs.get k with
    | some o =>
      rw [hnext] at hrow
      cases hrow
      exact hrows.rows k o hnext
    | none =>
      rw [hnext] at hrow
      obtain ⟨c,hc,hkey,hout⟩ := h.latest k row hrow
      refine ⟨c,hcreated c hc,hkey,hout.trans (withSpend_append_of_ne fun s hs hne => ?_).symm⟩
      exact hrows.touched s hs (by rw [hne,hkey,hnext])

theorem currentRows_window (hup : shouldUpdateCoreCurrentState context)
    (hw : HoldsCurrent blocks L w) (h : CurrentRows w L spends)
    (hv : ValidBlocks .empty (blocks ++ window) L') :
    wp (applyBlockWindow boundaries context window)
      (fun _ t => CurrentRows t L' (spends ++ window.flatMap blockSpends)) OnlyFaults Anywhere
      w := by
  refine wp_applyBlockWindow hw.chain hv ?_ ?_
  · rintro rfl
    rw [List.append_nil] at hv
    have heq : some L' = some L := hv.replay.symm.trans hw.chain.valid.replay
    cases heq
    rwa [List.flatMap_nil,List.append_nil]
  · rintro first rest rfl
    obtain ⟨last,hlast,-⟩ := exists_getLast? first rest
    obtain ⟨m,hm,htracks,hstate⟩ := exists_windowRows hup hw hlast hv
    refine wp_insertPendingCoreWindow (fun cs hcs => ?_) (fun e he => ?_)
    · rw [hstate] at hcs
      cases hcs
      exact currentRows_addWindow h hw hv hm htracks _
    · rw [hstate] at he
      cases he

theorem currentRows_materialized (hw : HoldsChain blocks L w) {last : ParsedDogecoinBlock}
    (hlast : blocks.getLast? = some last) :
    CurrentRows (w.materialized boundaries last.height) L (blocks.flatMap blockSpends) := by
  have hfacts := hw.facts
  have hend : windowEndHeight blocks 0 = last.height + 1 := by simp [windowEndHeight,hlast]
  rw [hend] at hfacts
  have hrows := fun row => (mem_rebuiltUtxos hfacts (coreCurrentStateRanges_cover _) :
    row ∈ (w.materialized boundaries last.height).currentUtxos ↔ _)
  have hspent : L.spent = (blocks.flatMap blockSpends).map (·.outputKey) := hw.valid.spent
  constructor
  · exact hspent.symm
  · rfl
  · intro row hrow
    obtain ⟨c,hc,rfl⟩ := (hrows row).mp hrow
    exact ⟨c,(List.mem_filter.mp (Ledger.coin_eq_some.mp hc).1).1,rfl,rfl⟩
  · intro k row hrow
    obtain ⟨hmem,hkey,-⟩ := Replacing.latest_spec hrow
    obtain ⟨c,hc,rfl⟩ := (hrows row).mp hmem
    obtain ⟨hunspent,-⟩ := Ledger.coin_eq_some.mp hc
    obtain ⟨hcreated,hfree⟩ := List.mem_filter.mp hunspent
    refine ⟨c,hcreated,hkey,(withSpend_untaken (fun s hs hne => ?_)
      (hfacts.bare c hcreated)).symm⟩
    have hin : c.outputKey ∈ L.spent := by
      rw [hspent,← hne]
      exact List.mem_map_of_mem hs
    simp [hin] at hfree

end Table

section Runs
variable {w : Warehouse} {L L' : CoinLedger} {blocks : List ParsedDogecoinBlock}
variable {boundaries : Warehouse → List String} {context : CoreDogecoinApplyContext}

theorem currentRows_backfill (hup : shouldUpdateCoreCurrentState context = false)
    {windows : List (List ParsedDogecoinBlock)} (hv : ValidBlocks .empty windows.flatten L') :
    wp (backfillAndMaterialize boundaries context windows)
      (fun _ t => CurrentRows t L' (windows.flatten.flatMap blockSpends)) OnlyFaults Anywhere
      emptyWarehouse := by
  unfold backfillAndMaterialize
  cases hlast : windows.flatten.getLast? with
  | none =>
    have hnil := List.getLast?_eq_none_iff.mp hlast
    rw [hnil] at hv ⊢
    cases hv.replay
    exact wp_bind (wp_applyBlockWindows_nil hnil (wp_pure currentRows_empty))
  | some last =>
    refine wp_bind (wp_mono (holdsChain_windows hup holdsChain_empty hv) ?_ (fun _ _ h => h)
      (fun _ h => h))
    intro _ t ht
    exact wp_materializeCoreDogecoinCurrentState (currentRows_materialized ht hlast)

theorem currentRows_online (hup : shouldUpdateCoreCurrentState context)
    {windows : List (List ParsedDogecoinBlock)} (hw : HoldsCurrent blocks L w)
    (h : CurrentRows w L (blocks.flatMap blockSpends))
    (hv : ValidBlocks .empty (blocks ++ windows.flatten) L') :
    wp (applyBlockWindows boundaries context windows)
      (fun _ t => CurrentRows t L' ((blocks ++ windows.flatten).flatMap blockSpends)) OnlyFaults
      Anywhere w := by
  refine wp_mono (holds_windows (fun ws M t => HoldsCurrent (blocks ++ ws.flatten) M t ∧
    CurrentRows t M ((blocks ++ ws.flatten).flatMap blockSpends))
    (fun _ _ _ h => h.1.chain.valid) (fun ws window M N t h hN _ => ?_) (by simpa using ⟨hw,h⟩)
    hv) (fun _ _ h => h.2) (fun _ _ h => h) (fun _ h => h)
  refine wp_mono (wp_and (holdsCurrent_window hup h.1 hN) (currentRows_window hup h.1 h.2 hN)) ?_
    (fun _ _ h => h.1) (fun _ h => h.1)
  rintro _ t ⟨⟨hcurrent,-⟩,hrows⟩
  rw [flatten_snoc]
  exact ⟨hcurrent,by rwa [List.flatMap_append]⟩

/-- Whatever the windows were, a run leaves the facts, the current state and the rows of its
chain. -/
theorem applyChainWindows_rows (boundaries : Warehouse → List String)
    {backfill online : CoreDogecoinApplyContext} (base windows : List (List ParsedDogecoinBlock))
    (hback : shouldUpdateCoreCurrentState backfill = false)
    (honline : shouldUpdateCoreCurrentState online)
    (hv : ValidBlocks .empty (base.flatten ++ windows.flatten) L) :
    ∃ w, (applyChainWindows boundaries backfill online base windows).run emptyWarehouse [] =
        (.value (),w,[]) ∧ HoldsCurrent (base.flatten ++ windows.flatten) L w ∧
      HasFacts w (base.map backfillFacts ++ windows.map (onlineFacts L)) ∧
      HasCoins w (base.flatten ++ windows.flatten) ∧
      CurrentRows w L ((base.flatten ++ windows.flatten).flatMap blockSpends) := by
  obtain ⟨w,hrun,hcurrent,hfacts⟩ := applyChainWindows_facts boundaries base windows hback honline
    hv
  obtain ⟨_,hrun',hcoins,-⟩ := applyChainWindows_coins boundaries base windows hback honline hv
  rw [hrun] at hrun'
  cases hrun'
  obtain ⟨M,hM,-⟩ := hv.append
  have h : wp (applyChainWindows boundaries backfill online base windows)
      (fun _ t => CurrentRows t L ((base.flatten ++ windows.flatten).flatMap blockSpends))
      OnlyFaults Anywhere emptyWarehouse := by
    refine wp_bind (wp_mono (wp_and (holdsCurrent_backfill hback hM)
      (currentRows_backfill hback hM)) ?_ (fun _ _ h => h.1) (fun _ h => h.1))
    rintro _ t ⟨ht,hrows⟩
    exact currentRows_online honline ht hrows hv
  exact ⟨w,hrun,hcurrent,hfacts,hcoins,value_of_wp h hrun⟩

end Runs
end OnlyDoge
