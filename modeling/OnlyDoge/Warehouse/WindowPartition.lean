import OnlyDoge.Warehouse.WindowLedger
set_option autoImplicit false

/-! Windows keep the tables on the ledger, however the chain is cut into windows. -/

namespace OnlyDoge
open Job

section AddWindow
variable {w : Warehouse} {L L' : CoinLedger} {last : Option ParsedDogecoinBlock} {next : Nat}
variable {first : ParsedDogecoinBlock} {rest : List ParsedDogecoinBlock}

theorem addWindow_creates (blocks : List ParsedDogecoinBlock) (prevouts : OutputMap)
    (cs : Option CoreCurrentStateWindow) (w : Warehouse) :
    (w.addWindow (blocks.map coreBlockApplication) prevouts cs).coreUtxoCreates =
      w.coreUtxoCreates ++ blocks.flatMap blockCreates := by
  have hcreates : (blocks.flatMap blockCreates).map
      (fun output => { output with spentBy := none }) = blocks.flatMap blockCreates := by
    conv_rhs => rw [← List.map_id (blocks.flatMap blockCreates)]
    refine List.map_congr_left (fun o ho => ?_)
    obtain ⟨block,-,ho⟩ := List.mem_flatMap.mp ho
    have := blockCreates_unspent ho
    cases o
    simp_all
  cases cs <;>
    simp [Warehouse.addWindow,Warehouse.addFacts,Warehouse.addCurrentState,
      Warehouse.insertCoreProcessedBlocks,coreWindowFactInserts,coreBlockApplication_creates,
      hcreates]

theorem addWindow_spends (blocks : List ParsedDogecoinBlock) (prevouts : OutputMap)
    (cs : Option CoreCurrentStateWindow) (w : Warehouse) :
    (w.addWindow (blocks.map coreBlockApplication) prevouts cs).coreUtxoSpends =
      w.coreUtxoSpends ++ blocks.flatMap blockSpends := by
  cases cs <;>
    simp [Warehouse.addWindow,Warehouse.addFacts,Warehouse.addCurrentState,
      Warehouse.insertCoreProcessedBlocks,coreWindowFactInserts,coreBlockApplication_spends]

theorem addWindow_processed (blocks : List ParsedDogecoinBlock) (prevouts : OutputMap)
    (cs : Option CoreCurrentStateWindow) (w : Warehouse) :
    (w.addWindow (blocks.map coreBlockApplication) prevouts cs).coreProcessedBlocks =
      w.coreProcessedBlocks ++
        blocks.map (fun block => toCoreProcessedBlockRow (coreBlockApplication block)) := by
  cases cs <;>
    simp [Warehouse.addWindow,Warehouse.addFacts,Warehouse.addCurrentState,
      Warehouse.insertCoreProcessedBlocks,Function.comp_def]

theorem factsOf_addWindow {blocks : List ParsedDogecoinBlock} {next' : Nat}
    (hw : FactsOf w L next) (hv : ValidBlocks L blocks L') (hle : next ≤ next')
    (hheights : ∀ block ∈ blocks, block.height < next') (prevouts : OutputMap)
    (cs : Option CoreCurrentStateWindow) :
    FactsOf (w.addWindow (blocks.map coreBlockApplication) prevouts cs) L' next' := by
  constructor
  · intro k
    have hnodup := (List.nodup_append.mp hv.create_keys_nodup)
    unfold Warehouse.latestCoreCreate
    rw [addWindow_creates,Replacing.latest_append,Replacing.latest_eq_find hnodup.2.1]
    have hold := hw.created k
    unfold Warehouse.latestCoreCreate at hold
    rw [hold]
    unfold Ledger.find
    rw [hv.created,List.find?_append]
    cases hL : L.created.find? (fun c => c.outputKey = k) with
    | none => simp
    | some c =>
      have hmem : k ∈ L.created.map (·.outputKey) := by
        have hc : c.outputKey = k := by simpa using List.find?_some hL
        exact hc ▸ List.mem_map_of_mem (List.mem_of_find?_eq_some hL)
      have hnone : (blocks.flatMap blockCreates).find? (fun c => c.outputKey = k) = none := by
        rw [List.find?_eq_none]
        intro d hd hk
        rw [decide_eq_true_eq] at hk
        exact hnodup.2.2 k hmem k (hk ▸ List.mem_map_of_mem hd) rfl
      rw [hnone]
      simp
  · intro k
    rw [addWindow_spends,hv.spent,List.map_append,List.mem_append,List.mem_append,hw.spent]
  · intro c hc
    rw [hv.created] at hc
    rcases List.mem_append.mp hc with hc | hc
    · exact hw.bare c hc
    · obtain ⟨block,-,hc⟩ := List.mem_flatMap.mp hc
      exact blockCreates_unspent hc
  · intro c hc
    rw [addWindow_creates] at hc
    rcases List.mem_append.mp hc with hc | hc
    · exact Nat.lt_of_lt_of_le (hw.createHeight c hc) hle
    · obtain ⟨block,hb,hc⟩ := List.mem_flatMap.mp hc
      rw [blockCreates_height hc]
      exact hheights block hb
  · intro s hs
    rw [addWindow_spends] at hs
    rcases List.mem_append.mp hs with hs | hs
    · exact Nat.lt_of_lt_of_le (hw.spendHeight s hs) hle
    · obtain ⟨block,hb,hs⟩ := List.mem_flatMap.mp hs
      rw [blockSpends_height hs]
      exact hheights block hb

theorem getLast?_height {block : ParsedDogecoinBlock}
    (h : (first::rest).getLast? = some block) :
    windowEndHeight (first::rest) 0 = block.height + 1 := by
  simp [windowEndHeight,h]

theorem processedUpTo_addWindow (hp : ProcessedUpTo w last next)
    (hl : (first::rest).IsChain Follows) (hnext : next ≤ first.height) (prevouts : OutputMap)
    (cs : Option CoreCurrentStateWindow) :
    ProcessedUpTo (w.addWindow ((first::rest).map coreBlockApplication) prevouts cs)
      (first::rest).getLast? (windowEndHeight (first::rest) 0) := by
  have hfirst := isChain_heights hl (List.mem_cons_self)
  constructor
  · intro row hrow
    rw [addWindow_processed] at hrow
    rcases List.mem_append.mp hrow with hrow | hrow
    · have := hp.below row hrow
      omega
    · obtain ⟨block,hb,rfl⟩ := List.mem_map.mp hrow
      exact (isChain_heights hl hb).2
  · intro h
    simp at h
  · intro block hblock
    exact getLast?_height hblock
  · intro block hblock row hrow
    have hmem := List.mem_of_getLast? hblock
    unfold Warehouse.latestProcessedBlock at hrow
    rw [addWindow_processed] at hrow
    obtain ⟨hrowmem,hkey,-⟩ := Replacing.latest_spec hrow
    rcases List.mem_append.mp hrowmem with hold | hnew
    · have := hp.below row hold
      have := (isChain_heights hl hmem).1
      omega
    · obtain ⟨b,hb,rfl⟩ := List.mem_map.mp hnew
      have := eq_of_height_eq hl hb hmem hkey
      subst this
      rfl

end AddWindow

def windowRows (w : Warehouse) (m : CoreCurrentStateMutation) (windowEnd : Nat) :
    CoreCurrentStateWindow :=
  ⟨m.balanceDeltas.entries.map (nextBalanceRow windowEnd (w.balancesFor m.balanceDeltas)),
    m.nextOutputs,windowEnd⟩

theorem coreCurrentStateWindow_eq_ok {pending : List CoreDogecoinBlockApplication}
    {last : CoreDogecoinBlockApplication} {prevouts : OutputMap} {w : Warehouse}
    {m : CoreCurrentStateMutation} {cs : CoreCurrentStateWindow}
    (hm : applyCoreCurrentStateMutations pending prevouts = .ok m) :
    coreCurrentStateWindow pending last prevouts w = .ok cs ↔
      (∀ entry ∈ m.balanceDeltas.entries,
        0 ≤ coreCurrentBalanceAmount (w.balancesFor m.balanceDeltas) entry.1 + entry.2.amount) ∧
      cs = windowRows w m last.blockHeight := by
  unfold coreCurrentStateWindow windowRows
  rw [hm]
  change (coreCurrentBalanceRows _ _ (w.balancesFor m.balanceDeltas) >>= _) = _ ↔ _
  rw [bind_eq_ok]
  constructor
  · rintro ⟨rows,hrows,hcs⟩
    obtain ⟨hn,rfl⟩ := coreCurrentBalanceRows_eq_ok.mp hrows
    cases hcs
    exact ⟨hn,rfl⟩
  · rintro ⟨hn,rfl⟩
    exact ⟨_,coreCurrentBalanceRows_eq_ok.mpr ⟨hn,rfl⟩,rfl⟩

/-- What the current tables hold after a window whose mutation tracks the ledger. -/
structure CurrentAfter (w w' : Warehouse) (L L' : CoinLedger) (next' : Nat) : Prop where
  coin : ∀ k, w'.currentCoin k = L'.coin k ∨
    (w'.currentCoin k = w.currentCoin k ∧ L'.coin k = L.coin k)
  balance : ∀ a, w'.addressBalance a = w.addressBalance a +
    (L'.worth (addressWeight a) - L.worth (addressWeight a))
  versions : w'.VersionsBelow (next' * 2)

theorem currentAfter_addWindow {w : Warehouse} {L L' : CoinLedger} {low next next' windowEnd : Nat}
    {m : CoreCurrentStateMutation} (hv : w.VersionsBelow (next * 2)) (hlow : next ≤ low)
    (hend : low ≤ windowEnd) (hnext' : windowEnd < next') (hm : Tracks L L' low next' m)
    (pending : List CoreDogecoinBlockApplication) (prevouts : OutputMap) :
    CurrentAfter w (w.addWindow pending prevouts (some (windowRows w m windowEnd))) L L' next' := by
  have hold : ∀ row ∈ w.currentUtxos, row.version < low * 2 :=
    fun row hrow => Nat.lt_of_lt_of_le (hv.1 row hrow) (Nat.mul_le_mul_right 2 hlow)
  have hbalance : ∀ row ∈ w.balances, row.version ≤ coreCurrentBalanceVersion windowEnd := by
    intro row hrow
    have := hv.2 row hrow
    simp only [coreCurrentBalanceVersion,coreCurrentSpendVersion]
    omega
  constructor
  · intro k
    have hcoin := Warehouse.currentCoin_append hm.key hold (fun k o h => (hm.version k o h).1) k
    cases hg : m.nextOutputs.get k with
    | some o =>
      rw [hg] at hcoin
      exact Or.inl (hcoin.trans (hm.coin k o hg).symm)
    | none =>
      rw [hg] at hcoin
      exact Or.inr ⟨hcoin,hm.frame k hg⟩
  · intro a
    rw [← hm.delta a]
    exact Warehouse.addressBalance_append hm.keyed hbalance a
  · constructor
    · intro row hrow
      rcases List.mem_append.mp hrow with hrow | hrow
      · have := hold row hrow
        omega
      · obtain ⟨o,ho,rfl⟩ := List.mem_map.mp hrow
        obtain ⟨k,hk⟩ := OrderedMap.mem_values.mp ho
        exact (hm.version k o hk).2
    · intro row hrow
      rcases List.mem_append.mp hrow with hrow | hrow
      · have := hv.2 row hrow
        omega
      · obtain ⟨e,-,rfl⟩ := List.mem_map.mp hrow
        simp only [nextBalanceRow,coreCurrentBalanceVersion,coreCurrentSpendVersion]
        omega

theorem currentStateOf_after {w w' : Warehouse} {L L' : CoinLedger} {next next' : Nat}
    (hw : CurrentStateOf w L next) (h : CurrentAfter w w' L L' next') :
    CurrentStateOf w' L' next' where
  coin k := by
    rcases h.coin k with hk | ⟨hk,hL⟩
    · exact hk
    · rw [hk,hw.coin,hL]
  balance a := by
    rw [h.balance,hw.balance]
    omega
  versions := h.versions

section Insert
variable {w : Warehouse} {L L' : CoinLedger} {next : Nat}
variable {first : ParsedDogecoinBlock} {rest : List ParsedDogecoinBlock}
variable {context : CoreDogecoinApplyContext}

/-- The previous outputs that a window loads from a table that agrees with the ledger. -/
theorem coreWindowPrevouts_get (hup : shouldUpdateCoreCurrentState context)
    {blocks : List ParsedDogecoinBlock} (hv : ValidBlocks L blocks L')
    (hcoin : ∀ k ∈ externalCoreSpendKeys (blocks.map coreBlockApplication),
      ∀ c, L.coin k = some c → w.currentCoin k = some c) :
    ∀ block ∈ blocks, ∀ s ∈ blockSpends block, ∀ c, L.coin s.outputKey = some c →
      (coreWindowPrevouts (blocks.map coreBlockApplication) context w).get s.outputKey =
        some c := by
  intro block hb s hs c hc
  have hk := hv.external_of_coin (List.mem_flatMap.mpr ⟨block,hb,hs⟩) hc
  obtain ⟨row,hrow,hif⟩ := Option.bind_eq_some_iff.mp (hcoin _ hk c hc)
  have hrowc : row.output = c := by
    split at hif
    · cases hif
      rfl
    · cases hif
  unfold coreWindowPrevouts
  rw [if_pos hup]
  have hget : (w.latestUtxoRow s.outputKey).map (·.output) = some c := by
    rw [hrow,Option.map_some,hrowc]
  have hfun : (fun key => (w.latestUtxoRow key).map (fun row => (key,row.output))) =
      (fun key => ((w.latestUtxoRow key).map (·.output)).map (fun o => (key,o))) := by
    funext key
    cases w.latestUtxoRow key <;> rfl
  unfold Warehouse.getCurrentUtxoOutputMap
  rw [hfun]
  exact OrderedMap.get_ofEntries_filterMap.mpr ⟨hk,hget⟩

theorem exists_getLast? (first : ParsedDogecoinBlock) (rest : List ParsedDogecoinBlock) :
    ∃ last, (first::rest).getLast? = some last ∧ last ∈ first::rest := by
  refine ⟨(first::rest).getLast (List.cons_ne_nil first rest),?_,List.getLast_mem _⟩
  exact List.getLast?_eq_some_getLast (List.cons_ne_nil first rest)

theorem coreWindowCurrentState_eq (hup : shouldUpdateCoreCurrentState context)
    {last : ParsedDogecoinBlock} (hlast : (first::rest).getLast? = some last)
    (prevouts : OutputMap) (w : Warehouse) :
    coreWindowCurrentState ((first::rest).map coreBlockApplication) context prevouts w =
      (coreCurrentStateWindow ((first::rest).map coreBlockApplication)
        (coreBlockApplication last) prevouts w).map some := by
  unfold coreWindowCurrentState
  rw [hup,List.getLast?_map,hlast]
  rfl

theorem tracks_window (hup : shouldUpdateCoreCurrentState context)
    (hv : ValidBlocks L (first::rest) L')
    (hcoin : ∀ k ∈ externalCoreSpendKeys ((first::rest).map coreBlockApplication),
      ∀ c, L.coin k = some c → w.currentCoin k = some c) :
    ∃ m, applyCoreCurrentStateMutations ((first::rest).map coreBlockApplication)
        (coreWindowPrevouts ((first::rest).map coreBlockApplication) context w) = .ok m ∧
      Tracks L L' first.height (windowEndHeight (first::rest) 0) m :=
  tracks_blocks (tracks_start L first.height (windowEndHeight (first::rest) 0)) hv.replay
    (fun _ hb => isChain_heights hv.linked hb) (coreWindowPrevouts_get hup hv hcoin)

/-- Every delta of a tracking mutation leaves a balance that is at least zero, when the
balances before it were the worth of the ledger. -/
theorem nonneg_of_tracks {low high : Nat} {m : CoreCurrentStateMutation}
    (hm : Tracks L L' low high m)
    (hbalance : ∀ a, w.addressBalance a = L.worth (addressWeight a)) :
    ∀ entry ∈ m.balanceDeltas.entries,
      0 ≤ coreCurrentBalanceAmount (w.balancesFor m.balanceDeltas) entry.1 + entry.2.amount := by
  rintro ⟨key,delta⟩ he
  have hget := OrderedMap.get_eq_some.mpr he
  obtain ⟨hk,-⟩ := hm.keyed key delta hget
  subst hk
  have hdelta := hm.delta delta.address
  simp only [deltaAmount,hget] at hdelta
  rw [Warehouse.coreCurrentBalanceAmount_balancesFor hget,hbalance,hdelta]
  have := Ledger.worth_nonneg L' (addressWeight_nonneg delta.address)
  omega

theorem wp_insertPendingCoreWindow_online (hw : CurrentStateOf w L next)
    (hv : ValidBlocks L (first::rest) L') (hnext : next ≤ first.height)
    (hup : shouldUpdateCoreCurrentState context) {Q : Unit → Warehouse → Prop}
    {P : CoreError → Warehouse → Prop}
    (hdone : ∀ prevouts cs, prevouts =
        coreWindowPrevouts ((first::rest).map coreBlockApplication) context w →
      CurrentStateOf (w.addWindow ((first::rest).map coreBlockApplication) prevouts cs) L'
        (windowEndHeight (first::rest) 0) →
      Q () (w.addWindow ((first::rest).map coreBlockApplication) prevouts cs)) :
    wp (insertPendingCoreWindow ((first::rest).map coreBlockApplication) context) Q
      (FailsWith P) Anywhere w := by
  obtain ⟨m,hm,htracks⟩ := tracks_window hup hv (fun k _ c hc => (hw.coin k).trans hc)
  obtain ⟨last,hlast,hmem⟩ := exists_getLast? first rest
  have hheights := isChain_heights hv.linked hmem
  have hok : coreWindowCurrentState ((first::rest).map coreBlockApplication) context
      (coreWindowPrevouts ((first::rest).map coreBlockApplication) context w) w =
        .ok (some (windowRows w m last.height)) := by
    rw [coreWindowCurrentState_eq hup hlast,(coreCurrentStateWindow_eq_ok hm).mpr
      ⟨nonneg_of_tracks htracks hw.balance,rfl⟩]
    rfl
  refine wp_insertPendingCoreWindow (fun cs hcs => ?_) (fun e he => ?_)
  · rw [hok] at hcs
    cases hcs
    exact hdone _ _ rfl (currentStateOf_after hw
      (currentAfter_addWindow hw.versions hnext hheights.1 hheights.2 htracks _ _))
  · rw [hok] at he
    cases he

theorem wp_insertPendingCoreWindow_backfill {blocks : List ParsedDogecoinBlock}
    (hup : shouldUpdateCoreCurrentState context = false) {Q : Unit → Warehouse → Prop}
    {P : CoreError → Warehouse → Prop}
    (hdone : Q () (w.addWindow (blocks.map coreBlockApplication) .empty none)) :
    wp (insertPendingCoreWindow (blocks.map coreBlockApplication) context) Q
      (FailsWith P) Anywhere w := by
  have hok : coreWindowCurrentState (blocks.map coreBlockApplication) context
      (coreWindowPrevouts (blocks.map coreBlockApplication) context w) w = .ok none := by
    unfold coreWindowCurrentState
    rw [hup]
  have hprev : coreWindowPrevouts (blocks.map coreBlockApplication) context w = .empty := by
    unfold coreWindowPrevouts
    simp [hup]
  refine wp_insertPendingCoreWindow (fun cs hcs => ?_) (fun e he => ?_)
  · rw [hok] at hcs
    cases hcs
    rw [hprev]
    exact hdone
  · rw [hok] at he
    cases he

end Insert

end OnlyDoge
