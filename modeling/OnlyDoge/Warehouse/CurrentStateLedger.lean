import OnlyDoge.Warehouse.MutationLedger
import OnlyDoge.Warehouse.WindowSpec
set_option autoImplicit false

/-! The current UTXO and balance tables, read by greatest version, against the ledger. -/

namespace OnlyDoge

namespace Warehouse

/-- The output that the current table holds unspent under a key. -/
def currentCoin (w : Warehouse) (outputKey : OutputKey) : Option ProjectionUtxoOutput :=
  (w.latestUtxoRow outputKey).bind
    (fun row => if row.output.spentBy = none then some row.output else none)

def addressBalance (w : Warehouse) (address : String) : Int :=
  match w.latestBalanceRow (balanceKey address "") with
  | some row => row.balance
  | none => 0

def currentCoins (w : Warehouse) : List ProjectionUtxoOutput :=
  ((Replacing.collapse UtxoRow.key UtxoRow.version w.currentUtxos).map (·.output)).filter
    (fun output => decide (output.spentBy = none))

/-- The spendable unspent outputs of an address in the current table. -/
def addressCoins (w : Warehouse) (address : String) : List ProjectionUtxoOutput :=
  w.currentCoins.filter
    (fun output => isBalanceAffectingCoreOutput output && decide (output.address = address))

def VersionsBelow (bound : Nat) (w : Warehouse) : Prop :=
  (∀ row ∈ w.currentUtxos, row.version < bound) ∧ (∀ row ∈ w.balances, row.version < bound)

theorem mem_currentCoins {w : Warehouse} {o : ProjectionUtxoOutput} :
    o ∈ w.currentCoins ↔ w.currentCoin o.outputKey = some o := by
  simp only [currentCoins,List.mem_filter,List.mem_map,Replacing.mem_collapse,decide_eq_true_eq]
  constructor
  · rintro ⟨⟨row,hrow,rfl⟩,hspent⟩
    refine Option.bind_eq_some_iff.mpr ⟨row,hrow,?_⟩
    rw [if_pos hspent]
  · intro h
    obtain ⟨row,hrow,h⟩ := Option.bind_eq_some_iff.mp h
    split at h
    · cases h
      exact ⟨⟨row,hrow,rfl⟩,‹_›⟩
    · cases h

theorem currentCoins_nodup (w : Warehouse) : (w.currentCoins.map (·.outputKey)).Nodup := by
  have h := Replacing.collapse_nodup UtxoRow.key UtxoRow.version w.currentUtxos
  refine List.Nodup.sublist (List.Sublist.map _ List.filter_sublist) ?_
  rw [List.map_map]
  exact h

theorem sum_addressWeight (os : List ProjectionUtxoOutput) (address : String) :
    (os.map (addressWeight address)).sum = sumValues (os.filter
      (fun output => isBalanceAffectingCoreOutput output && decide
      (output.address = address))) := by
  induction os with
  | nil => rfl
  | cons o os ih =>
    simp only [List.map_cons,List.sum_cons,ih,addressWeight]
    by_cases h : isBalanceAffectingCoreOutput o ∧ o.address = address
    · rw [if_pos h,List.filter_cons_of_pos (by simpa using h)]
      rfl
    · rw [if_neg h,List.filter_cons_of_neg (by simpa using h),Int.zero_add]

theorem sumValues_addressCoins {w : Warehouse} {L : CoinLedger}
    (h : ∀ k, w.currentCoin k = L.coin k) (address : String) :
    sumValues (w.addressCoins address) = L.worth (addressWeight address) := by
  rw [Ledger.worth_eq_sum (addressWeight address) w.currentCoins_nodup
    (fun c => by rw [mem_currentCoins,h]),sum_addressWeight]
  rfl

theorem latest_coreCurrentUtxoRows {nextOutputs : OutputMap}
    (h : ∀ k o, nextOutputs.get k = some o → o.outputKey = k) (k : OutputKey) :
    Replacing.latest UtxoRow.key UtxoRow.version (coreCurrentUtxoRows nextOutputs) k =
      (nextOutputs.get k).map (fun o => ⟨o,coreCurrentUtxoVersion o⟩) := by
  have hkeys : (coreCurrentUtxoRows nextOutputs).map UtxoRow.key =
      nextOutputs.entries.map Prod.fst := by
    rw [coreCurrentUtxoRows,List.map_map]
    exact OrderedMap.values_map_key h
  have hnodup : ((coreCurrentUtxoRows nextOutputs).map UtxoRow.key).Nodup := by
    rw [hkeys]
    exact nextOutputs.nodup
  cases hg : nextOutputs.get k with
  | none =>
    rw [Option.map_none,Replacing.latest_eq_none]
    intro r hr hk
    have hmem : r.key ∈ (coreCurrentUtxoRows nextOutputs).map UtxoRow.key :=
      List.mem_map_of_mem hr
    rw [hkeys,hk] at hmem
    exact OrderedMap.get_eq_none.mp hg hmem
  | some o =>
    rw [Option.map_some,Replacing.latest_eq_some_of_nodup hnodup]
    exact ⟨List.mem_map_of_mem (OrderedMap.mem_values.mpr ⟨k,hg⟩),h k o hg⟩

/-- New UTXO rows with greater versions replace the old ones and leave the other keys alone. -/
theorem latestUtxoRow_append {w : Warehouse} {nextOutputs : OutputMap} {low : Nat}
    (hkey : ∀ k o, nextOutputs.get k = some o → o.outputKey = k)
    (hold : ∀ row ∈ w.currentUtxos, row.version < low * 2)
    (hnew : ∀ k o, nextOutputs.get k = some o → low * 2 ≤ coreCurrentUtxoVersion o)
    (k : OutputKey) :
    ({ w with currentUtxos := w.currentUtxos ++ coreCurrentUtxoRows nextOutputs } :
      Warehouse).latestUtxoRow k =
      ((nextOutputs.get k).map (fun o => ⟨o,coreCurrentUtxoVersion o⟩)).or
        (w.latestUtxoRow k) := by
  unfold latestUtxoRow
  rw [Replacing.latest_append_newer,latest_coreCurrentUtxoRows hkey]
  intro x hx y hy _ _
  obtain ⟨o,ho,rfl⟩ := List.mem_map.mp hy
  obtain ⟨j,hj⟩ := OrderedMap.mem_values.mp ho
  exact Nat.le_of_lt (Nat.lt_of_lt_of_le (hold x hx) (hnew j o hj))

theorem currentCoin_append {w : Warehouse} {nextOutputs : OutputMap} {low : Nat}
    (hkey : ∀ k o, nextOutputs.get k = some o → o.outputKey = k)
    (hold : ∀ row ∈ w.currentUtxos, row.version < low * 2)
    (hnew : ∀ k o, nextOutputs.get k = some o → low * 2 ≤ coreCurrentUtxoVersion o)
    (k : OutputKey) :
    ({ w with currentUtxos := w.currentUtxos ++ coreCurrentUtxoRows nextOutputs } :
      Warehouse).currentCoin k =
      match nextOutputs.get k with
      | some o => if o.spentBy = none then some o else none
      | none => w.currentCoin k := by
  unfold currentCoin
  rw [latestUtxoRow_append hkey hold hnew]
  cases nextOutputs.get k with
  | some o => rfl
  | none => rfl

end Warehouse

def nextBalanceRow (windowEnd : Nat) (currentBalances : OrderedMap BalanceKey VersionedBalanceRow)
    (entry : BalanceKey × CoreBalanceDelta) : VersionedBalanceRow :=
  ⟨entry.2.address,entry.2.assetAddress,
    coreCurrentBalanceAmount currentBalances entry.1 + entry.2.amount,windowEnd,
    coreCurrentBalanceVersion windowEnd⟩

theorem coreCurrentBalanceRow_eq_ok {windowEnd : Nat}
    {currentBalances : OrderedMap BalanceKey VersionedBalanceRow}
    {entry : BalanceKey × CoreBalanceDelta} {row : VersionedBalanceRow} :
    coreCurrentBalanceRow windowEnd currentBalances entry = .ok row ↔
      0 ≤ coreCurrentBalanceAmount currentBalances entry.1 + entry.2.amount ∧
      row = nextBalanceRow windowEnd currentBalances entry := by
  unfold coreCurrentBalanceRow nextBalanceRow
  simp only
  split
  · constructor
    · intro h
      cases h
    · rintro ⟨h,-⟩
      omega
  · simp only [Except.ok.injEq]
    constructor
    · rintro rfl
      exact ⟨by omega,rfl⟩
    · rintro ⟨-,rfl⟩
      rfl

theorem mapM_eq_ok {ε α β : Type} {f : α → Except ε β} {P : α → Prop} {g : α → β}
    (h : ∀ a b, f a = .ok b ↔ P a ∧ b = g a) (as : List α) (bs : List β) :
    as.mapM f = .ok bs ↔ (∀ a ∈ as, P a) ∧ bs = as.map g := by
  induction as generalizing bs with
  | nil => simp [pure,Except.pure,eq_comm]
  | cons a as ih =>
    simp only [List.mapM_cons,bind_eq_ok,h,ih,List.forall_mem_cons,List.map_cons]
    constructor
    · rintro ⟨b,⟨ha,rfl⟩,cs,⟨has,rfl⟩,hbs⟩
      cases hbs
      exact ⟨⟨ha,has⟩,rfl⟩
    · rintro ⟨⟨ha,has⟩,rfl⟩
      exact ⟨_,⟨ha,rfl⟩,_,⟨has,rfl⟩,rfl⟩

theorem coreCurrentBalanceRows_eq_ok {windowEnd : Nat}
    {deltas : OrderedMap BalanceKey CoreBalanceDelta}
    {currentBalances : OrderedMap BalanceKey VersionedBalanceRow}
    {rows : List VersionedBalanceRow} :
    coreCurrentBalanceRows windowEnd deltas currentBalances = .ok rows ↔
      (∀ entry ∈ deltas.entries,
        0 ≤ coreCurrentBalanceAmount currentBalances entry.1 + entry.2.amount) ∧
      rows = deltas.entries.map (nextBalanceRow windowEnd currentBalances) :=
  mapM_eq_ok (fun _ _ => coreCurrentBalanceRow_eq_ok) _ _

namespace Warehouse

/-- The balances that a window reads, for the keys of its own deltas. -/
def balancesFor (w : Warehouse) (deltas : OrderedMap BalanceKey CoreBalanceDelta) :
    OrderedMap BalanceKey VersionedBalanceRow :=
  w.getBalanceRowsByKeys (deltas.entries.map (·.1))

theorem coreCurrentBalanceAmount_balancesFor {w : Warehouse}
    {deltas : OrderedMap BalanceKey CoreBalanceDelta} {address : String} {delta : CoreBalanceDelta}
    (h : deltas.get (balanceKey address "") = some delta) :
    coreCurrentBalanceAmount (w.balancesFor deltas) (balanceKey address "") =
      w.addressBalance address := by
  have hmem : balanceKey address "" ∈ deltas.entries.map (·.1) :=
    List.mem_map_of_mem (OrderedMap.get_eq_some.mp h)
  have hget (row : VersionedBalanceRow) :
      (w.balancesFor deltas).get (balanceKey address "") = some row ↔
        w.latestBalanceRow (balanceKey address "") = some row := by
    rw [balancesFor,getBalanceRowsByKeys,OrderedMap.get_ofEntries_filterMap]
    simp [hmem]
  unfold coreCurrentBalanceAmount addressBalance
  cases hl : w.latestBalanceRow (balanceKey address "") with
  | some row => rw [(hget row).mpr hl]
  | none =>
    cases hg : (w.balancesFor deltas).get (balanceKey address "") with
    | none => rfl
    | some row =>
      rw [(hget row).mp hg] at hl
      cases hl

theorem addressBalance_append {w : Warehouse} {deltas : OrderedMap BalanceKey CoreBalanceDelta}
    {windowEnd : Nat} (hkeyed : KeyedDeltas deltas)
    (hold : ∀ row ∈ w.balances, row.version ≤ coreCurrentBalanceVersion windowEnd)
    (address : String) :
    ({ w with balances := w.balances ++
        deltas.entries.map (nextBalanceRow windowEnd (w.balancesFor deltas)) } :
      Warehouse).addressBalance address =
      w.addressBalance address + deltaAmount deltas address := by
  have hkey : ∀ e ∈ deltas.entries,
      (nextBalanceRow windowEnd (w.balancesFor deltas) e).key = e.1 := by
    rintro ⟨k,d⟩ he
    obtain ⟨hk,ha⟩ := hkeyed k d (OrderedMap.get_eq_some.mpr he)
    simp [nextBalanceRow,VersionedBalanceRow.key,ha,hk]
  have hnodup : ((deltas.entries.map (nextBalanceRow windowEnd (w.balancesFor deltas))).map
      VersionedBalanceRow.key).Nodup := by
    have hmap : (deltas.entries.map (nextBalanceRow windowEnd (w.balancesFor deltas))).map
        VersionedBalanceRow.key = deltas.entries.map Prod.fst := by
      rw [List.map_map]
      exact List.map_congr_left hkey
    rw [hmap]
    exact deltas.nodup
  have hnew : Replacing.latest VersionedBalanceRow.key VersionedBalanceRow.version
      (deltas.entries.map (nextBalanceRow windowEnd (w.balancesFor deltas)))
        (balanceKey address "") =
      (deltas.get (balanceKey address "")).map
        (fun d => nextBalanceRow windowEnd (w.balancesFor deltas) (balanceKey address "",d)) := by
    cases hg : deltas.get (balanceKey address "") with
    | none =>
      rw [Option.map_none,Replacing.latest_eq_none]
      intro r hr hk
      obtain ⟨e,he,rfl⟩ := List.mem_map.mp hr
      rw [hkey e he] at hk
      exact OrderedMap.get_eq_none.mp hg (hk ▸ List.mem_map_of_mem he)
    | some d =>
      rw [Option.map_some,Replacing.latest_eq_some_of_nodup hnodup]
      have he := OrderedMap.get_eq_some.mp hg
      exact ⟨List.mem_map_of_mem he,hkey _ he⟩
  have hlatest : Replacing.latest VersionedBalanceRow.key VersionedBalanceRow.version
      (w.balances ++ deltas.entries.map (nextBalanceRow windowEnd (w.balancesFor deltas)))
        (balanceKey address "") =
      ((deltas.get (balanceKey address "")).map
        (fun d => nextBalanceRow windowEnd (w.balancesFor deltas) (balanceKey address "",d))).or
        (w.latestBalanceRow (balanceKey address "")) := by
    rw [Replacing.latest_append_newer,hnew]
    · rfl
    · intro x hx y hy _ _
      obtain ⟨e,-,rfl⟩ := List.mem_map.mp hy
      exact hold x hx
  cases hg : deltas.get (balanceKey address "") with
  | none =>
    rw [hg] at hlatest
    simp only [addressBalance,latestBalanceRow,hlatest,deltaAmount,hg]
    simp
  | some d =>
    rw [hg] at hlatest
    have hamount := coreCurrentBalanceAmount_balancesFor (w := w) hg
    simp only [deltaAmount,hg,← hamount]
    simp only [addressBalance,latestBalanceRow,hlatest]
    rfl

end Warehouse

end OnlyDoge
