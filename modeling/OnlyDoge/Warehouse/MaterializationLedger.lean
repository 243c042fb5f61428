import OnlyDoge.Warehouse.WindowPartition
import OnlyDoge.Warehouse.KeyRanges
set_option autoImplicit false

/-! The materialized current state is the ledger of the facts. -/

namespace OnlyDoge
open Job

section Rebuilt
variable {w : Warehouse} {L : CoinLedger} {asOfBlockHeight : Nat}
variable {ranges : List ClickHouseStringRange} {boundaries : Warehouse → List String}

theorem upTo_eq_self {next : Nat} {height : Int} (hw : FactsOf w L next)
    (h : (next : Int) ≤ height + 1) : w.upTo height = w := by
  have hc : w.coreUtxoCreates.filter (fun c => (c.blockHeight : Int) ≤ height) =
      w.coreUtxoCreates := by
    rw [List.filter_eq_self]
    intro c hc
    have := hw.createHeight c hc
    simp only [decide_eq_true_eq]
    omega
  have hs : w.coreUtxoSpends.filter (fun s => (s.spentInBlock : Int) ≤ height) =
      w.coreUtxoSpends := by
    rw [List.filter_eq_self]
    intro s hs
    have := hw.spendHeight s hs
    simp only [decide_eq_true_eq]
    omega
  unfold Warehouse.upTo
  rw [hc,hs]

theorem mem_materializedUtxos (hw : FactsOf w L (asOfBlockHeight + 1))
    {range : ClickHouseStringRange} {row : UtxoRow} :
    row ∈ w.materializedUtxos asOfBlockHeight range ↔
      ∃ c, L.coin c.outputKey = some c ∧ range.contains c.outputKey.text ∧
        row = ⟨c,asOfBlockHeight⟩ := by
  have hspends (k : OutputKey) (hk : range.contains k.text) :
      k ∈ (w.coreUtxoSpends.filter (fun s => range.contains s.outputKey.text)).map (·.outputKey) ↔
        k ∈ L.spent := by
    rw [← hw.spent,List.mem_map,List.mem_map]
    constructor
    · rintro ⟨s,hs,hsk⟩
      exact ⟨s,(List.mem_filter.mp hs).1,hsk⟩
    · rintro ⟨s,hs,hsk⟩
      exact ⟨s,List.mem_filter.mpr ⟨hs,by rw [hsk]; exact hk⟩,hsk⟩
  have hlatest (k : OutputKey) (hk : range.contains k.text) :
      Replacing.latest (·.outputKey) (·.blockHeight)
        (w.coreUtxoCreates.filter (fun c => range.contains c.outputKey.text)) k = L.find k := by
    rw [Replacing.latest_filter,← hw.created]
    · rfl
    · rintro r - rfl
      exact hk
  have hcoin (k : OutputKey) (c : ProjectionUtxoOutput) :
      L.coin k = some c ↔ k ∉ L.spent ∧ L.find k = some c := by
    unfold Ledger.coin
    by_cases hk : k ∈ L.spent <;> simp [hk]
  have hbare (k : OutputKey) (c : ProjectionUtxoOutput) (hc : L.find k = some c) :
      ({ c with spentBy := none } : ProjectionUtxoOutput) = c := by
    have := hw.bare c (Ledger.find_eq_some.mp hc).1
    cases c
    simp_all
  unfold Warehouse.materializedUtxos
  rw [upTo_eq_self hw (by omega)]
  simp only [List.mem_map,List.mem_filter,decide_eq_true_eq]
  constructor
  · rintro ⟨c,⟨hc,hns⟩,rfl⟩
    have hlat := Replacing.mem_collapse.mp hc
    have hin : range.contains c.outputKey.text :=
      (List.mem_filter.mp (Replacing.latest_spec hlat).1).2
    rw [hlatest _ hin] at hlat
    have hns' : c.outputKey ∉ L.spent := by
      rw [← hspends _ hin]
      simpa only [List.mem_map,List.mem_filter] using hns
    exact ⟨c,(hcoin _ _).mpr ⟨hns',hlat⟩,hin,by rw [hbare _ c hlat]⟩
  · rintro ⟨c,hc,hin,rfl⟩
    obtain ⟨hns,hfind⟩ := (hcoin _ _).mp hc
    refine ⟨c,⟨Replacing.mem_collapse.mpr ((hlatest _ hin).trans hfind),?_⟩,by
      rw [hbare _ c hfind]⟩
    rw [← hspends _ hin] at hns
    simpa only [List.mem_map,List.mem_filter] using hns

/-- The rebuilt UTXO rows are the unspent outputs, each with the version of the height. -/
theorem mem_rebuiltUtxos (hw : FactsOf w L (asOfBlockHeight + 1))
    (hcover : ∀ text, ∃ range ∈ ranges, range.contains text) {row : UtxoRow} :
    row ∈ ranges.flatMap (w.materializedUtxos asOfBlockHeight) ↔
      ∃ c, L.coin c.outputKey = some c ∧ row = ⟨c,asOfBlockHeight⟩ := by
  rw [List.mem_flatMap]
  constructor
  · rintro ⟨range,-,hrow⟩
    obtain ⟨c,hc,-,rfl⟩ := (mem_materializedUtxos hw).mp hrow
    exact ⟨c,hc,rfl⟩
  · rintro ⟨c,hc,rfl⟩
    obtain ⟨range,hr,hin⟩ := hcover c.outputKey.text
    exact ⟨range,hr,(mem_materializedUtxos hw).mpr ⟨c,hc,hin,rfl⟩⟩

theorem currentCoin_of_rows {utxos : List UtxoRow}
    (h : ∀ row, row ∈ utxos ↔ ∃ c, L.coin c.outputKey = some c ∧ row = ⟨c,asOfBlockHeight⟩)
    (hbare : ∀ c ∈ L.created, c.spentBy = none) (hutxos : w.currentUtxos = utxos)
    (k : OutputKey) : w.currentCoin k = L.coin k := by
  unfold Warehouse.currentCoin Warehouse.latestUtxoRow
  rw [hutxos]
  cases hl : Replacing.latest UtxoRow.key UtxoRow.version utxos k with
  | none =>
    cases hc : L.coin k with
    | none => rfl
    | some c =>
      have hk : c.outputKey = k := (Ledger.coin_eq_some.mp hc).2
      have hmem := (h ⟨c,asOfBlockHeight⟩).mpr ⟨c,by rw [hk]; exact hc,rfl⟩
      exact absurd hk (Replacing.latest_eq_none.mp hl _ hmem)
  | some row =>
    obtain ⟨hmem,hkey,-⟩ := Replacing.latest_spec hl
    obtain ⟨c,hc,rfl⟩ := (h row).mp hmem
    have hk : c.outputKey = k := hkey
    rw [hk] at hc
    have hunspent := hbare c (List.mem_filter.mp (Ledger.coin_eq_some.mp hc).1).1
    simp [hunspent,hc]

/-- The rows that count towards the balances of a range are the unspent outputs of the ledger
that its addresses own, each once. -/
theorem mem_balanceSource {utxos : List UtxoRow}
    (h : ∀ row, row ∈ utxos ↔ ∃ c, L.coin c.outputKey = some c ∧ row = ⟨c,asOfBlockHeight⟩)
    (hutxos : w.currentUtxosByAddress = utxos) {range : ClickHouseStringRange}
    {c : ProjectionUtxoOutput} :
    c ∈ w.balanceSource range ↔ L.coin c.outputKey = some c ∧
      isBalanceAffectingCoreOutput c ∧ c.unspent ∧ range.contains c.address := by
  unfold Warehouse.balanceSource isBalanceAffectingCoreOutput
  rw [hutxos]
  simp only [List.mem_filter,List.mem_map,Bool.and_eq_true,decide_eq_true_eq,and_assoc]
  refine and_congr_left (fun _ => ?_)
  constructor
  · rintro ⟨row,hrow,rfl⟩
    obtain ⟨hmem,-,-⟩ := Replacing.latest_spec (Replacing.mem_collapse.mp hrow)
    obtain ⟨c,hc,rfl⟩ := (h row).mp hmem
    exact hc
  · intro hc
    have hmem := (h ⟨c,asOfBlockHeight⟩).mpr ⟨c,hc,rfl⟩
    obtain ⟨x,hx⟩ := Replacing.latest_isSome Warehouse.byAddressKey UtxoRow.version hmem
    obtain ⟨hxmem,hxkey,-⟩ := Replacing.latest_spec hx
    obtain ⟨d,hd,rfl⟩ := (h x).mp hxmem
    have hdc : d.outputKey = c.outputKey := (Prod.mk.inj hxkey).2
    rw [hdc,hc] at hd
    cases hd
    exact ⟨_,Replacing.mem_collapse.mpr hx,rfl⟩

theorem balanceSource_nodup (w : Warehouse) (range : ClickHouseStringRange) :
    (w.balanceSource range).Nodup := by
  unfold Warehouse.balanceSource
  refine List.Nodup.filter _ ?_
  have hnodup := Replacing.collapse_nodup Warehouse.byAddressKey UtxoRow.version
    w.currentUtxosByAddress
  have hmap : (Replacing.collapse Warehouse.byAddressKey UtxoRow.version
      w.currentUtxosByAddress).map Warehouse.byAddressKey =
        ((Replacing.collapse Warehouse.byAddressKey UtxoRow.version
          w.currentUtxosByAddress).map (·.output)).map (fun o => (o.address,o.outputKey)) := by
    rw [List.map_map]
    rfl
  rw [hmap] at hnodup
  exact hnodup.of_map

theorem sumValues_balanceSource {utxos : List UtxoRow}
    (h : ∀ row, row ∈ utxos ↔ ∃ c, L.coin c.outputKey = some c ∧ row = ⟨c,asOfBlockHeight⟩)
    (hbare : ∀ c ∈ L.created, c.spentBy = none)
    (hutxos : w.currentUtxosByAddress = utxos) {range : ClickHouseStringRange} {address : String}
    (hin : range.contains address) :
    Warehouse.sumValues ((w.balanceSource range).filter (fun o => decide (o.address = address))) =
      L.worth (addressWeight address) := by
  have hperm : ((w.balanceSource range).filter (fun o => decide (o.address = address))).Perm
      (L.unspent.filter (fun o => isBalanceAffectingCoreOutput o && decide
      (o.address = address))) := by
    rw [List.perm_ext_iff_of_nodup ((balanceSource_nodup w range).filter _)
      (L.unspent_nodup.of_map.filter _)]
    intro c
    simp only [List.mem_filter,mem_balanceSource h hutxos,Ledger.coin_eq_some,and_true,
      Bool.and_eq_true,decide_eq_true_eq]
    constructor
    · rintro ⟨⟨hc,ha,-,-⟩,rfl⟩
      exact ⟨hc,ha,rfl⟩
    · rintro ⟨hc,ha,rfl⟩
      have hunspent := hbare c (List.mem_filter.mp hc).1
      exact ⟨⟨hc,ha,by simp [ProjectionUtxoOutput.unspent,hunspent],hin⟩,rfl⟩
  rw [Ledger.worth,Warehouse.sum_addressWeight]
  exact (hperm.map _).sum_eq

theorem addressBalance_of_rows {utxos : List UtxoRow}
    (h : ∀ row, row ∈ utxos ↔ ∃ c, L.coin c.outputKey = some c ∧ row = ⟨c,asOfBlockHeight⟩)
    (hbare : ∀ c ∈ L.created, c.spentBy = none)
    (hutxos : w.currentUtxosByAddress = utxos)
    (hcover : ∀ text, ∃ range ∈ ranges, range.contains text)
    (hbalances : w.balances = ranges.flatMap (w.materializedBalances asOfBlockHeight))
    (address : String) : w.addressBalance address = L.worth (addressWeight address) := by
  have hrow : ∀ row ∈ w.balances, row.key = balanceKey address "" →
      row.balance = L.worth (addressWeight address) := by
    intro row hrow hkey
    rw [hbalances] at hrow
    obtain ⟨range,-,hrow⟩ := List.mem_flatMap.mp hrow
    obtain ⟨a,ha,rfl⟩ := List.mem_map.mp hrow
    have haddress : a = address := (Prod.mk.inj hkey).1
    subst haddress
    obtain ⟨c,hc,rfl⟩ := List.mem_map.mp (OrderedMap.mem_distinct.mp ha)
    exact sumValues_balanceSource h hbare hutxos ((mem_balanceSource h hutxos).mp hc).2.2.2
  unfold Warehouse.addressBalance Warehouse.latestBalanceRow
  cases hl : Replacing.latest VersionedBalanceRow.key VersionedBalanceRow.version w.balances
      (balanceKey address "") with
  | some row =>
    obtain ⟨hmem,hkey,-⟩ := Replacing.latest_spec hl
    exact hrow row hmem hkey
  | none =>
    -- no row was written for the address, so it owns nothing
    obtain ⟨range,hr,hin⟩ := hcover address
    have hempty : (w.balanceSource range).filter (fun o => decide (o.address = address)) = [] := by
      rw [List.filter_eq_nil_iff]
      intro c hc hca
      rw [decide_eq_true_eq] at hca
      have hmem : c.address ∈ OrderedMap.distinct ((w.balanceSource range).map (·.address)) :=
        OrderedMap.mem_distinct.mpr (List.mem_map_of_mem hc)
      let row : VersionedBalanceRow := ⟨c.address,"",Warehouse.sumValues
        ((w.balanceSource range).filter (·.address = c.address)),asOfBlockHeight,asOfBlockHeight⟩
      have hrowmem : row ∈ w.balances := by
        rw [hbalances]
        exact List.mem_flatMap.mpr ⟨range,hr,List.mem_map_of_mem hmem⟩
      exact Replacing.latest_eq_none.mp hl row hrowmem (congrArg (fun a => balanceKey a "") hca)
    rw [← sumValues_balanceSource h hbare hutxos hin,hempty]
    rfl

theorem currentStateOf_rebuilt (hw : FactsOf w L (asOfBlockHeight + 1))
    (hcover : ∀ text, ∃ range ∈ ranges, range.contains text) :
    CurrentStateOf (w.rebuilt boundaries asOfBlockHeight ranges) L (asOfBlockHeight + 1) := by
  have hrows := fun row => (mem_rebuiltUtxos hw hcover : row ∈ _ ↔ _)
  constructor
  · exact currentCoin_of_rows hrows hw.bare rfl
  · exact addressBalance_of_rows hrows hw.bare rfl (stringRangesFromBoundaries_cover _) rfl
  · constructor
    · intro row hrow
      obtain ⟨c,-,rfl⟩ := (hrows row).mp hrow
      simp only
      omega
    · intro row hrow
      obtain ⟨range,-,hrow⟩ := List.mem_flatMap.mp hrow
      obtain ⟨a,-,rfl⟩ := List.mem_map.mp hrow
      simp only
      omega

/-- A materialization at the tail turns the facts into the current state of the ledger. -/
theorem currentStateOf_materialized (hw : FactsOf w L (asOfBlockHeight + 1)) :
    CurrentStateOf (w.materialized boundaries asOfBlockHeight) L (asOfBlockHeight + 1) :=
  currentStateOf_rebuilt hw (coreCurrentStateRanges_cover _)

end Rebuilt

end OnlyDoge
