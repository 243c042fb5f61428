import OnlyDoge.Warehouse.InMemoryRows
import OnlyDoge.Library.Paging
set_option autoImplicit false

/-!
The two warehouses side by side: a chain applied to both, in windows of their own, gives the same
answers about every output and every address.
-/

namespace OnlyDoge
open Job

theorem get_addCurrentUtxoOutputs {f : OutputKey → Option ProjectionUtxoOutput}
    (hkey : ∀ k o, f k = some o → o.outputKey = k) (keys : List OutputKey) (m : OutputMap)
    (k : OutputKey) : (addCurrentUtxoOutputs (keys.filterMap f) m).get k =
      if k ∈ keys then (f k).or (m.get k) else m.get k := by
  induction keys generalizing m with
  | nil => rfl
  | cons a keys ih =>
    cases ha : f a with
    | none =>
      rw [List.filterMap_cons_none ha,ih]
      by_cases hk : k = a
      · subst hk
        simp [ha]
      · simp [hk]
    | some o =>
      rw [List.filterMap_cons_some ha]
      change (addCurrentUtxoOutputs _ (m.set o.outputKey o)).get k = _
      rw [ih,hkey a o ha,OrderedMap.get_set]
      by_cases hk : k = a
      · subst hk
        simp [ha]
      · simp [hk,Ne.symm hk]

section Reads
variable {w : Warehouse} {L : CoinLedger} {chain : List ParsedDogecoinBlock}
variable {keys : List OutputKey} {address : String}

/-- The output of the chain under a key, with the spend that takes it. -/
def chainOutput (L : CoinLedger) (chain : List ParsedDogecoinBlock) (k : OutputKey) :
    Option ProjectionUtxoOutput := (L.find k).map (withSpend (chain.flatMap blockSpends))

theorem chainOutput_key {k : OutputKey} {o : ProjectionUtxoOutput}
    (h : chainOutput L chain k = some o) : o.outputKey = k := by
  obtain ⟨c,hc,rfl⟩ := Option.map_eq_some_iff.mp h
  exact (Ledger.find_eq_some.mp hc).2

theorem latestUtxoRow_chain (h : CurrentRows w L (chain.flatMap blockSpends)) {k : OutputKey}
    {o : ProjectionUtxoOutput} (ho : (w.latestUtxoRow k).map (·.output) = some o) :
    chainOutput L chain k = some o := by
  obtain ⟨row,hrow,rfl⟩ := Option.map_eq_some_iff.mp ho
  obtain ⟨c,hc,hkey,hout⟩ := h.latest k row hrow
  rw [chainOutput,Ledger.find_eq_some.mpr ⟨hc,hkey⟩,Option.map_some,hout]

theorem coreUtxoOutput_chain (hw : HoldsChain chain L w) (hcoins : HasCoins w chain)
    (k : OutputKey) : w.coreUtxoOutput k = chainOutput L chain k := by
  unfold Warehouse.coreUtxoOutput chainOutput
  rw [hw.facts.created k]
  refine Option.map_congr fun c hc => ?_
  have hnodup : (w.coreUtxoSpends.map (·.outputKey)).Nodup := by
    rw [hcoins.spends]
    exact (List.nodup_append.mp hw.valid.spend_keys_nodup).2.1
  have hlatest : w.latestCoreSpend k = w.coreUtxoSpends.find? (·.outputKey = k) :=
    Replacing.latest_eq_find hnodup k
  rw [hlatest,hcoins.spends,← (Ledger.find_eq_some.mp hc).2]
  rfl

theorem getUtxoOutputs_chain (hw : HoldsChain chain L w) (hcoins : HasCoins w chain)
    (hrows : CurrentRows w L (chain.flatMap blockSpends)) (keys : List OutputKey) :
    ∃ found, (Warehouse.getUtxoOutputs keys).run w [] = (.value found,w,[]) ∧
      ∀ k, found.get k = if k ∈ keys then chainOutput L chain k else none := by
  have hcurrent : ∀ k o, (w.getCurrentUtxoOutputMap keys).get k = some o →
      k ∈ keys ∧ chainOutput L chain k = some o := by
    intro k o ho
    obtain ⟨hk,hrow⟩ := get_latestOutputs.mp ho
    exact ⟨hk,latestUtxoRow_chain hrows hrow⟩
  have hfallback : w.queryUtxoOutputsFromTable
      (missingUtxoOutputKeys keys (w.getCurrentUtxoOutputMap keys)) = [] := by
    refine List.filterMap_eq_nil_iff.mpr fun k hk => ?_
    obtain ⟨hk,hmissing⟩ := List.mem_filter.mp hk
    cases hrow : (w.latestUtxoRow k).map (·.output) with
    | none => rfl
    | some o =>
      have hget : (w.getCurrentUtxoOutputMap keys).get k = some o :=
        get_latestOutputs.mpr ⟨hk,hrow⟩
      rw [hget] at hmissing
      cases hmissing
  -- where the current table answers, it answers what the chain has
  have hfound : ∀ k, k ∈ keys → k ∉ missingUtxoOutputKeys keys (w.getCurrentUtxoOutputMap keys) →
      (w.getCurrentUtxoOutputMap keys).get k = chainOutput L chain k := by
    intro k hk hmissing
    cases hget : (w.getCurrentUtxoOutputMap keys).get k with
    | none => exact absurd (List.mem_filter.mpr ⟨hk,by rw [hget]; rfl⟩) hmissing
    | some o => exact (hcurrent k o hget).2.symm
  have hother : ∀ k, k ∉ keys → (w.getCurrentUtxoOutputMap keys).get k = none := by
    intro k hk
    cases hget : (w.getCurrentUtxoOutputMap keys).get k with
    | none => rfl
    | some o => exact absurd (hcurrent k o hget).1 hk
  have hread : wp (Warehouse.getUtxoOutputs keys) (fun found t => t = w ∧
      ∀ k, found.get k = if k ∈ keys then chainOutput L chain k else none) OnlyFaults Anywhere
      w := by
    refine wp_ite (fun hnil => wp_pure ⟨rfl,fun k => ?_⟩) (fun _ => ?_)
    · rw [hnil]
      rfl
    refine wp_bind (wp_read ?_ trivial trivial)
    refine wp_ite (fun hnil => wp_pure ⟨rfl,fun k => ?_⟩) (fun hmissing => ?_)
    · by_cases hk : k ∈ keys
      · rw [if_pos hk,hfound k hk (by rw [hnil]; simp)]
      · rw [if_neg hk,hother k hk]
    refine wp_bind (wp_bind (wp_read ?_ trivial trivial))
    rw [hfallback]
    refine wp_ite (fun _ => wp_pure ?_) (fun h => absurd rfl h)
    refine wp_ite (fun hnil => absurd hnil hmissing) (fun _ => ?_)
    refine wp_bind (wp_read (wp_pure ⟨rfl,fun k => ?_⟩) trivial trivial)
    have hcore : w.coreUtxoOutput = chainOutput L chain := funext (coreUtxoOutput_chain hw hcoins)
    unfold Warehouse.queryCoreUtxoOutputRows
    rw [hcore,get_addCurrentUtxoOutputs (fun _ _ => chainOutput_key)]
    simp only [OrderedMap.mem_distinct]
    by_cases hmiss : k ∈ missingUtxoOutputKeys keys (w.getCurrentUtxoOutputMap keys)
    · obtain ⟨hk,hnone⟩ := List.mem_filter.mp hmiss
      rw [if_pos hmiss,if_pos hk,Option.isNone_iff_eq_none.mp hnone,Option.or_none]
    · rw [if_neg hmiss]
      by_cases hk : k ∈ keys
      · rw [if_pos hk,hfound k hk hmiss]
      · rw [if_neg hk,hother k hk]
  obtain ⟨found,_,hrun,rfl,hget⟩ := succeeds_of_wp (wp_mono hread (fun _ _ h => h) (fun e _ he => by
    cases e with
    | fault => rfl
    | thrown e => exact absurd he id) (fun _ h => h))
  exact ⟨found,hrun,hget⟩

theorem latest_byAddress (hrows : CurrentRows w L (chain.flatMap blockSpends)) {row : UtxoRow}
    (haddress : row.output.address = address) :
    Replacing.latest UtxoRow.key UtxoRow.version
        (w.currentUtxosByAddress.filter (·.output.address = address)) row.key = some row ↔
      w.latestUtxoRow row.key = some row := by
  rw [hrows.byAddress]
  have hsame (h : row ∈ w.currentUtxos) : Replacing.latest UtxoRow.key UtxoRow.version
      (w.currentUtxos.filter (·.output.address = address)) row.key = w.latestUtxoRow row.key := by
    refine Replacing.latest_filter fun other hother hkey => ?_
    obtain ⟨c,hc,hck,hca⟩ := hrows.owned row h
    obtain ⟨d,hd,hdk,hda⟩ := hrows.owned other hother
    obtain rfl : d = c := List.inj_on_of_nodup_map L.created_nodup hd hc (by rw [hdk,hck,hkey])
    simp [← hda,hca,haddress]
  constructor
  · intro h
    rw [← hsame (List.mem_of_mem_filter (Replacing.latest_spec h).1),h]
  · intro h
    rw [hsame (Replacing.latest_spec h).1,h]

theorem mem_unspentByAddress (hcurrent : ∀ k, w.currentCoin k = L.coin k)
    (hrows : CurrentRows w L (chain.flatMap blockSpends)) {o : ProjectionUtxoOutput} :
    o ∈ w.unspentByAddress address ↔
      L.coin o.outputKey = some o ∧ o.address = address ∧ o.isSpendable = true := by
  unfold Warehouse.unspentByAddress
  simp only [List.mem_filter,List.mem_map,Replacing.mem_collapse,Bool.and_eq_true,
    ProjectionUtxoOutput.unspent,Option.isNone_iff_eq_none]
  rw [← hcurrent,Warehouse.currentCoin,Option.bind_eq_some_iff]
  constructor
  · rintro ⟨⟨row,hrow,rfl⟩,hspendable,hunspent⟩
    have haddress : row.output.address = address := by
      simpa using (List.mem_filter.mp (Replacing.latest_spec hrow).1).2
    exact ⟨⟨row,(latest_byAddress hrows haddress).mp hrow,if_pos hunspent⟩,haddress,hspendable⟩
  · rintro ⟨⟨row,hrow,hout⟩,haddress,hspendable⟩
    split at hout
    · rename_i hunspent
      cases hout
      exact ⟨⟨row,(latest_byAddress hrows haddress).mpr hrow,rfl⟩,hspendable,hunspent⟩
    · cases hout

theorem unspentByAddress_nodup (w : Warehouse) (address : String) :
    (w.unspentByAddress address).Nodup := by
  have hkeys := Replacing.collapse_nodup UtxoRow.key UtxoRow.version
    (w.currentUtxosByAddress.filter (·.output.address = address))
  refine List.Nodup.filter _ (List.Nodup.of_map (·.outputKey) ?_)
  rw [List.map_map]
  exact hkeys

end Reads

section MemoryReads
variable {s : InMemory.WarehouseState} {L : CoinLedger} {chain : List ParsedDogecoinBlock}
variable {address : String}

theorem storedOutputs_chain (hv : ValidBlocks .empty chain L)
    (h : InMemory.StoredOutputs (chain.flatMap blockCreates) (chain.flatMap blockSpends) s)
    {o : ProjectionUtxoOutput} : o ∈ s.utxoOutputs ↔ chainOutput L chain o.outputKey = some o := by
  rw [h,List.mem_map]
  have hcreated : L.created = chain.flatMap blockCreates := hv.created
  constructor
  · rintro ⟨c,hc,rfl⟩
    rw [withSpend_key,chainOutput,hv.find_of_create hc,Option.map_some]
  · intro ho
    obtain ⟨c,hc,rfl⟩ := Option.map_eq_some_iff.mp ho
    exact ⟨c,hcreated ▸ (Ledger.find_eq_some.mp hc).1,rfl⟩

theorem memory_getUtxoOutputs (hv : ValidBlocks .empty chain L)
    (h : InMemory.StoredOutputs (chain.flatMap blockCreates) (chain.flatMap blockSpends) s)
    (keys : List OutputKey) (k : OutputKey) :
    (s.getUtxoOutputs keys).get k = if k ∈ keys then chainOutput L chain k else none := by
  unfold InMemory.WarehouseState.getUtxoOutputs
  cases hget : (OrderedMap.ofEntries ((s.utxoOutputs.filter (·.outputKey ∈ keys)).map
      (fun output => (output.outputKey,output)))).get k with
  | some o =>
    obtain ⟨d,hd,heq⟩ := List.mem_map.mp (OrderedMap.get_ofEntries_of_mem hget)
    cases heq
    obtain ⟨ho,hk⟩ := List.mem_filter.mp hd
    rw [if_pos (of_decide_eq_true hk),(storedOutputs_chain hv h).mp ho]
  | none =>
    split
    · rename_i hk
      cases hchain : chainOutput L chain k with
      | none => rfl
      | some o =>
        have hkey := chainOutput_key hchain
        have ho := (storedOutputs_chain hv h).mpr (hkey.symm ▸ hchain)
        refine absurd hkey (OrderedMap.get_ofEntries_eq_none.mp hget (o.outputKey,o) ?_)
        exact List.mem_map.mpr ⟨o,List.mem_filter.mpr ⟨ho,decide_eq_true (hkey.symm ▸ hk)⟩,rfl⟩
    · rfl

theorem chainOutput_unspent (hv : ValidBlocks .empty chain L) {o : ProjectionUtxoOutput} :
    chainOutput L chain o.outputKey = some o ∧ o.unspent = true ↔
      L.coin o.outputKey = some o := by
  have hspent : L.spent = (chain.flatMap blockSpends).map (·.outputKey) := hv.spent
  have hcreated : L.created = chain.flatMap blockCreates := hv.created
  have huntaken (c : ProjectionUtxoOutput) :
      (∀ spend ∈ chain.flatMap blockSpends, spend.outputKey ≠ c.outputKey) ↔
        c.outputKey ∉ L.spent := by
    rw [hspent,List.mem_map,not_exists]
    exact ⟨fun h spend hs => h spend hs.1 hs.2,fun h spend hs hk => h spend ⟨hs,hk⟩⟩
  have hbare {c : ProjectionUtxoOutput} (hc : c ∈ L.created) : c.spentBy = none := by
    rw [hcreated] at hc
    obtain ⟨block,-,hc⟩ := List.mem_flatMap.mp hc
    exact blockCreates_unspent hc
  rw [ProjectionUtxoOutput.unspent,Option.isNone_iff_eq_none]
  constructor
  · rintro ⟨hchain,hfree⟩
    obtain ⟨c,hc,rfl⟩ := Option.map_eq_some_iff.mp hchain
    have hnone := withSpend_unspent.mp hfree
    rw [withSpend_untaken hnone (hbare (Ledger.find_eq_some.mp hc).1)] at hc ⊢
    rw [Ledger.coin,if_neg ((huntaken c).mp hnone),hc]
  · intro hcoin
    obtain ⟨hmem,-⟩ := Ledger.coin_eq_some.mp hcoin
    obtain ⟨hmem,hfree⟩ := List.mem_filter.mp hmem
    have hnone := (huntaken o).mpr (of_decide_eq_true hfree)
    rw [chainOutput,Ledger.find_eq_some.mpr ⟨hmem,rfl⟩,Option.map_some,
      withSpend_untaken hnone (hbare hmem)]
    exact ⟨rfl,hbare hmem⟩

theorem mem_memoryUnspent (hv : ValidBlocks .empty chain L)
    (h : InMemory.StoredOutputs (chain.flatMap blockCreates) (chain.flatMap blockSpends) s)
    {o : ProjectionUtxoOutput} :
    o ∈ s.utxoOutputs.filter (InMemory.isSpendableAddressUtxo address) ↔
      L.coin o.outputKey = some o ∧ o.address = address ∧ o.isSpendable = true := by
  rw [List.mem_filter,storedOutputs_chain hv h,← chainOutput_unspent hv]
  unfold InMemory.isSpendableAddressUtxo
  simp only [Bool.and_eq_true,decide_eq_true_eq]
  constructor
  · rintro ⟨hchain,⟨haddress,hspendable⟩,hfree⟩
    exact ⟨⟨hchain,hfree⟩,haddress,hspendable⟩
  · rintro ⟨⟨hchain,hfree⟩,haddress,hspendable⟩
    exact ⟨hchain,⟨haddress,hspendable⟩,hfree⟩

end MemoryReads

theorem utxoListedBefore_iff (left right : ProjectionUtxoOutput) :
    utxoListedBefore left right = true ↔ right.blockHeight < left.blockHeight ∨
      right.blockHeight = left.blockHeight ∧ (right.txIndex < left.txIndex ∨
        right.txIndex = left.txIndex ∧ left.vout ≤ right.vout) := by
  unfold utxoListedBefore
  by_cases hheight : left.blockHeight = right.blockHeight
  · by_cases hindex : left.txIndex = right.txIndex
    · simp [hheight,hindex]
    · simp only [hheight,ne_eq,not_true_eq_false,if_false,hindex,not_false_eq_true,if_true,
        decide_eq_true_eq,lt_irrefl,false_or,true_and]
      omega
  · simp only [ne_eq,hheight,not_false_eq_true,if_true,decide_eq_true_eq]
    omega

instance utxoListedBefore_trans :
    IsTrans ProjectionUtxoOutput (fun left right => utxoListedBefore left right = true) := by
  refine ⟨fun a b c hab hbc => ?_⟩
  rw [utxoListedBefore_iff] at *
  omega

instance utxoListedBefore_total :
    Std.Total (fun left right : ProjectionUtxoOutput => utxoListedBefore left right = true) := by
  refine ⟨fun a b => ?_⟩
  rw [utxoListedBefore_iff,utxoListedBefore_iff]
  omega

/-- No two outputs of a transaction carry the same number. -/
def OwnVouts (blocks : List ParsedDogecoinBlock) : Prop :=
  ∀ block ∈ blocks, ∀ tx ∈ block.tx, (tx.vout.zipIdx.map
    (fun entry => entry.1.n.getD entry.2)).Nodup

instance decidableOwnVouts : DecidablePred OwnVouts := fun blocks =>
  inferInstanceAs (Decidable (∀ block ∈ blocks, ∀ tx ∈ block.tx,
    (tx.vout.zipIdx.map (fun entry => entry.1.n.getD entry.2)).Nodup))

theorem OwnVouts.eq_of_place {L : CoinLedger} {chain : List ParsedDogecoinBlock}
    (hvouts : OwnVouts chain) (hv : ValidBlocks .empty chain L) {c d : ProjectionUtxoOutput}
    (hc : c ∈ chain.flatMap blockCreates) (hd : d ∈ chain.flatMap blockCreates)
    (hheight : c.blockHeight = d.blockHeight) (hindex : c.txIndex = d.txIndex)
    (hvout : c.vout = d.vout) : c = d := by
  obtain ⟨block,hb,hcb⟩ := List.mem_flatMap.mp hc
  obtain ⟨block',hb',hdb⟩ := List.mem_flatMap.mp hd
  obtain rfl : block = block' := eq_of_height_eq hv.linked hb hb' (by
    rw [← blockCreates_height hcb,← blockCreates_height hdb,hheight])
  obtain ⟨tx,txIndex,output,outputIndex,htx,houtput,rfl⟩ := mem_blockCreates hcb
  obtain ⟨tx',txIndex',output',outputIndex',htx',houtput',rfl⟩ := mem_blockCreates hdb
  obtain rfl : txIndex = txIndex' := hindex
  have htxs := htx
  rw [List.mk_mem_zipIdx_iff_getElem?] at htx htx'
  obtain rfl : tx = tx' := Option.some.inj (htx.symm.trans htx')
  have hnodup := hvouts block hb tx (List.fst_mem_of_mem_zipIdx htxs)
  have hentry : (output,outputIndex) = (output',outputIndex') :=
    List.inj_on_of_nodup_map hnodup houtput houtput' hvout
  cases hentry
  rfl

/-- What ClickHouse answers as zeros is `null` in memory; any other summary is the same in both. -/
def SameSummary {α : Type} (zeros : α) (clickHouse memory : Option α) : Prop :=
  memory = none ∧ clickHouse = some zeros ∨ ∃ summary, memory = some summary ∧ clickHouse = memory

/-- Both adapters answer alike about outputs and about the current state of every address. -/
structure SameAnswers (w : Warehouse) (s : InMemory.WarehouseState) : Prop where
  outputs : ∀ keys, ∃ found, (Warehouse.getUtxoOutputs keys).run w [] = (.value found,w,[]) ∧
    ∀ key, found.get key = (s.getUtxoOutputs keys).get key
  listed : ∀ address offset limit,
    w.listAddressUtxos address offset limit = s.listAddressUtxos address offset limit
  current : ∀ address, SameSummary ⟨0,0⟩ (w.getCurrentAddressSummary address)
    (s.getCurrentAddressSummary address)

section Answers
variable {w : Warehouse} {s : InMemory.WarehouseState} {L : CoinLedger} {next : Nat}
variable {base windows : List (List ParsedDogecoinBlock)} {chain : List ParsedDogecoinBlock}
variable {address : String}

theorem unspent_perm (hv : ValidBlocks .empty chain L) (hcurrent : ∀ k, w.currentCoin k = L.coin k)
    (hrows : CurrentRows w L (chain.flatMap blockSpends))
    (h : InMemory.StoredOutputs (chain.flatMap blockCreates) (chain.flatMap blockSpends) s)
    (address : String) : (w.unspentByAddress address).Perm
      (s.utxoOutputs.filter (InMemory.isSpendableAddressUtxo address)) := by
  have hnodup : s.utxoOutputs.Nodup := by
    refine List.Nodup.of_map (·.outputKey) ?_
    rw [h.keys]
    exact (List.nodup_append.mp hv.create_keys_nodup).2.1
  rw [List.perm_ext_iff_of_nodup (unspentByAddress_nodup w address) (hnodup.filter _)]
  intro o
  rw [mem_unspentByAddress hcurrent hrows,mem_memoryUnspent hv h]

theorem listAddressUtxos_agree (hv : ValidBlocks .empty chain L) (hvouts : OwnVouts chain)
    (hcurrent : ∀ k, w.currentCoin k = L.coin k)
    (hrows : CurrentRows w L (chain.flatMap blockSpends))
    (h : InMemory.StoredOutputs (chain.flatMap blockCreates) (chain.flatMap blockSpends) s)
    (address : String) (offset : Nat) (limit : Option Nat) :
    w.listAddressUtxos address offset limit = s.listAddressUtxos address offset limit := by
  have hcreated : L.created = chain.flatMap blockCreates := hv.created
  have hmem {o : ProjectionUtxoOutput} (ho : o ∈ w.unspentByAddress address) :
      o ∈ chain.flatMap blockCreates := by
    obtain ⟨hunspent,-⟩ := Ledger.coin_eq_some.mp ((mem_unspentByAddress hcurrent hrows).mp ho).1
    exact hcreated ▸ List.mem_of_mem_filter hunspent
  have hsorted := Paging.insertionSort_eq_of_perm
    (fun left right => utxoListedBefore left right = true)
    (unspent_perm hv hcurrent hrows h address) fun a ha b hb hab hba => by
      rw [utxoListedBefore_iff] at hab hba
      exact hvouts.eq_of_place hv (hmem ha) (hmem hb) (by omega) (by omega) (by omega)
  unfold Warehouse.listAddressUtxos InMemory.WarehouseState.listAddressUtxos
  simp only [InMemory.compareAddressUtxos_le]
  rw [hsorted]

/-- The stored balance of the one warehouse is the sum that the other takes of its rows. -/
theorem balances_agree (hv : ValidBlocks .empty chain L)
    (hcurrent : ∀ k, w.currentCoin k = L.coin k)
    (hrows : CurrentRows w L (chain.flatMap blockSpends)) (hs : InMemory.Holds L next s)
    (address : String) : w.queryNativeBalance address = s.addressBalance address := by
  have hcreated : L.created = chain.flatMap blockCreates := hv.created
  have hperm : (w.unspentByAddress address).Perm (L.unspent.filter
      (fun o => isBalanceAffectingCoreOutput o && decide (o.address = address))) := by
    rw [List.perm_ext_iff_of_nodup (unspentByAddress_nodup w address)
      (L.unspent_nodup.of_map.filter _)]
    intro o
    simp only [mem_unspentByAddress hcurrent hrows,List.mem_filter,Ledger.coin_eq_some,and_true,
      isBalanceAffectingCoreOutput,Bool.and_eq_true,decide_eq_true_eq]
    constructor
    · rintro ⟨hunspent,haddress,hspendable⟩
      refine ⟨hunspent,⟨hspendable,?_⟩,haddress⟩
      -- an output is spendable only with an address
      have hmem := List.mem_of_mem_filter hunspent
      rw [hcreated] at hmem
      obtain ⟨block,-,hmem⟩ := List.mem_flatMap.mp hmem
      obtain ⟨tx,txIndex,output,outputIndex,-,-,rfl⟩ := mem_blockCreates hmem
      exact of_decide_eq_true hspendable
    · rintro ⟨hunspent,⟨hspendable,-⟩,haddress⟩
      exact ⟨hunspent,haddress,hspendable⟩
  rw [hs.moves.balance,Ledger.worth,Warehouse.sum_addressWeight]
  exact (hperm.map _).sum_eq

theorem currentSummary_agree (hbalance : w.queryNativeBalance address = s.addressBalance address)
    (hcount : w.querySpendableUtxoCount address = s.countSpendableUtxos address) :
    SameSummary ⟨0,0⟩ (w.getCurrentAddressSummary address)
      (s.getCurrentAddressSummary address) := by
  have hread : w.getCurrentAddressSummary address =
      some ⟨s.addressBalance address,s.countSpendableUtxos address⟩ := by
    rw [← hbalance,← hcount]
    rfl
  rw [hread]
  unfold InMemory.WarehouseState.getCurrentAddressSummary InMemory.currentAddressSummaryOrNull
  by_cases hempty : isEmptyCurrentAddressSummary (s.addressBalance address)
      (s.countSpendableUtxos address) = true
  · rw [if_pos hempty]
    unfold isEmptyCurrentAddressSummary at hempty
    simp only [Bool.and_eq_true,decide_eq_true_eq] at hempty
    rw [hempty.1,hempty.2]
    exact Or.inl ⟨rfl,rfl⟩
  · rw [if_neg hempty]
    exact Or.inr ⟨_,rfl,rfl⟩

theorem memory_nativeMovements (hv : ValidBlocks .empty chain L)
    (h : s.addressMovements = InMemory.chainRows chain chain) (address : String) :
    s.getNativeMovements address = chainMovements L chain address := by
  have hfacts := @filter_backfillFacts L chain chain address hv (fun _ hb => hb)
  have hlost : (chain.flatMap blockSpends).filter (fun spend =>
      !createsKey chain spend.outputKey && (ownedOutput L address spend).isSome) = [] := by
    refine List.filter_eq_nil_iff.mpr fun spend hspend => ?_
    have hspent : L.spent = (chain.flatMap blockSpends).map (·.outputKey) := hv.spent
    have hcreated : L.created = chain.flatMap blockCreates := hv.created
    have hcreates : createsKey chain spend.outputKey = true := by
      refine decide_eq_true (hcreated ▸ L.spent_created _ ?_)
      exact hspent ▸ List.mem_map_of_mem hspend
    simp [hcreates]
  rw [← blockMovements_backfill hlost,← hfacts]
  unfold InMemory.WarehouseState.getNativeMovements
  rw [h]
  rfl

theorem summary_agree_iff (hbalance : w.queryNativeBalance address = s.addressBalance address)
    (hcount : w.querySpendableUtxoCount address = s.countSpendableUtxos address) :
    SameSummary ⟨0,0,0,0,0⟩ (w.getAddressSummary address) (s.getAddressSummary address) ↔
      sumDirection .credit (w.nativeMovements address) =
          sumDirection .credit (s.getNativeMovements address) ∧
        sumDirection .debit (w.nativeMovements address) =
          sumDirection .debit (s.getNativeMovements address) ∧
        (OrderedMap.distinct ((w.nativeMovements address).map (·.txid))).length =
          (OrderedMap.distinct ((s.getNativeMovements address).map (·.txid))).length := by
  have hread : w.getAddressSummary address = some ⟨s.addressBalance address,
      sumDirection .credit (w.nativeMovements address),
      sumDirection .debit (w.nativeMovements address),
      (OrderedMap.distinct ((w.nativeMovements address).map (·.txid))).length,
      s.countSpendableUtxos address⟩ := by
    rw [← hbalance,← hcount]
    rfl
  rw [hread]
  unfold InMemory.WarehouseState.getAddressSummary InMemory.inMemoryAddressSummary SameSummary
  rw [InMemory.summarizeNativeMovements_eq]
  split
  · rename_i hempty
    obtain ⟨htxs,hzero,hnone⟩ := hempty
    -- without a transaction there is no movement
    have hmoves : s.getNativeMovements address = [] := by
      rw [List.eq_nil_iff_forall_not_mem]
      intro m hm
      have htxid := OrderedMap.mem_distinct.mpr (List.mem_map_of_mem (f := (·.txid)) hm)
      rw [List.length_eq_zero_iff.mp htxs] at htxid
      cases htxid
    rw [hmoves,hzero,hnone]
    simp [sumDirection,OrderedMap.distinct]
  · simp

end Answers

section Lost
variable {L : CoinLedger} {base windows : List (List ParsedDogecoinBlock)} {address txid : String}
variable {resolve : CoreDogecoinSpend → Option ProjectionUtxoOutput}

/-- The rows of an address that a backfill and online windows write. -/
def storedMovements (L : CoinLedger) (base windows : List (List ParsedDogecoinBlock))
    (address : String) : List AddressMovement :=
  base.flatMap (fun window => window.flatMap (blockMovements (backfillResolve L window) address)) ++
    chainMovements L windows.flatten address

theorem sumDirection_stored (base windows : List (List ParsedDogecoinBlock)) (address : String) :
    sumDirection .credit (storedMovements L base windows address) =
        sumDirection .credit (chainMovements L (base.flatten ++ windows.flatten) address) ∧
      (sumDirection .debit (storedMovements L base windows address) : Int) +
          ((lostDebits L base address).map (spentFrom L address)).sum =
        sumDirection .debit (chainMovements L (base.flatten ++ windows.flatten) address) := by
  have hback := @sumDirection_windows address (backfillResolve L) base
  have honline := @sumDirection_windows address (fun _ => onlineResolve L) base
  have hlost := @sum_backfill L base address (fun output => (output.valueBase : Int))
  have hall := @sum_online L address base
  rw [show (fun window : List ParsedDogecoinBlock => window.flatMap
    (blockMovements (onlineResolve L) address)) = fun window => chainMovements L window address
      from rfl,chainMovements_flatten] at honline
  have hsplit : chainMovements L (base.flatten ++ windows.flatten) address =
      chainMovements L base.flatten address ++ chainMovements L windows.flatten address :=
    List.flatMap_append
  unfold storedMovements
  rw [hsplit]
  simp only [sumDirection_append]
  unfold spentFrom at *
  constructor <;> omega

theorem mem_movement_txids (blocks : List ParsedDogecoinBlock) :
    txid ∈ (blocks.flatMap (blockMovements resolve address)).map (·.txid) ↔
      txid ∈ (blocks.flatMap (creditMovements address)).map (·.txid) ∨
        ∃ spend ∈ blocks.flatMap blockSpends,
          ((resolve spend).filter (ownedBy address)).isSome = true ∧ spend.spentByTxid = txid := by
  have hdebit (block : ParsedDogecoinBlock) (spend : CoreDogecoinSpend) :
      (∃ m, debitMovement resolve address block spend = some m ∧ m.txid = txid) ↔
        ((resolve spend).filter (ownedBy address)).isSome = true ∧ spend.spentByTxid = txid := by
    unfold debitMovement
    cases (resolve spend).filter (ownedBy address) with
    | none => simp
    | some output => simp [coreDebitMovement]
  induction blocks with
  | nil => simp
  | cons block blocks ih =>
    simp only [List.flatMap_cons,List.map_append,List.mem_append,ih,blockMovements,or_and_right,
      exists_or]
    have hblock : txid ∈ ((blockSpends block).filterMap
        (debitMovement resolve address block)).map (·.txid) ↔ ∃ spend ∈ blockSpends block,
          ((resolve spend).filter (ownedBy address)).isSome = true ∧ spend.spentByTxid = txid := by
      simp only [List.mem_map,List.mem_filterMap,← hdebit block]
      constructor
      · rintro ⟨m,⟨spend,hspend,hm⟩,htxid⟩
        exact ⟨spend,hspend,m,hm,htxid⟩
      · rintro ⟨spend,hspend,m,hm,htxid⟩
        exact ⟨m,⟨spend,hspend,hm⟩,htxid⟩
    rw [hblock]
    exact or_or_or_comm

theorem mem_chain_txids :
    txid ∈ (chainMovements L (base.flatten ++ windows.flatten) address).map (·.txid) ↔
      txid ∈ (storedMovements L base windows address).map (·.txid) ∨
        ∃ spend ∈ lostDebits L base address, spend.spentByTxid = txid := by
  have hwindow (window : List ParsedDogecoinBlock) :
      txid ∈ (chainMovements L window address).map (·.txid) ↔
        txid ∈ (window.flatMap (blockMovements (backfillResolve L window) address)).map (·.txid) ∨
          ∃ spend ∈ (window.flatMap blockSpends).filter (fun s => !createsKey window s.outputKey &&
            (ownedOutput L address s).isSome), spend.spentByTxid = txid := by
    unfold chainMovements
    rw [mem_movement_txids,mem_movement_txids,or_assoc]
    refine or_congr_right ?_
    have hsplit (spend : CoreDogecoinSpend) :
        ((onlineResolve L spend).filter (ownedBy address)).isSome = true ↔
          ((backfillResolve L window spend).filter (ownedBy address)).isSome = true ∨
            (!createsKey window spend.outputKey &&
            (ownedOutput L address spend).isSome) = true := by
      unfold backfillResolve onlineResolve ownedOutput
      cases createsKey window spend.outputKey <;> simp
    simp only [hsplit,List.mem_filter]
    constructor
    · rintro ⟨spend,hspend,hkept | hlost,htxid⟩
      · exact Or.inl ⟨spend,hspend,hkept,htxid⟩
      · exact Or.inr ⟨spend,⟨hspend,hlost⟩,htxid⟩
    · rintro (⟨spend,hspend,hkept,htxid⟩ | ⟨spend,⟨hspend,hlost⟩,htxid⟩)
      · exact ⟨spend,hspend,Or.inl hkept,htxid⟩
      · exact ⟨spend,hspend,Or.inr hlost,htxid⟩
  have hbase : txid ∈ (chainMovements L base.flatten address).map (·.txid) ↔
      txid ∈ (base.flatMap (fun window =>
          window.flatMap (blockMovements (backfillResolve L window) address))).map (·.txid) ∨
        ∃ spend ∈ lostDebits L base address, spend.spentByTxid = txid := by
    unfold lostDebits
    rw [← chainMovements_flatten]
    induction base with
    | nil => simp
    | cons window base ih =>
      simp only [List.flatMap_cons,List.map_append,List.mem_append,hwindow,or_and_right,exists_or,
        ih]
      exact or_or_or_comm
  have hsplit : chainMovements L (base.flatten ++ windows.flatten) address =
      chainMovements L base.flatten address ++ chainMovements L windows.flatten address :=
    List.flatMap_append
  unfold storedMovements
  rw [hsplit,List.map_append,List.map_append,List.mem_append,List.mem_append,hbase]
  exact or_right_comm

theorem length_distinct_txids :
    (OrderedMap.distinct ((storedMovements L base windows address).map (·.txid))).length =
        (OrderedMap.distinct ((chainMovements L (base.flatten ++ windows.flatten) address).map
          (·.txid))).length ↔
      ∀ spend ∈ lostDebits L base address,
        spend.spentByTxid ∈ (storedMovements L base windows address).map (·.txid) := by
  have hsub : OrderedMap.distinct ((storedMovements L base windows address).map (·.txid)) ⊆
      OrderedMap.distinct ((chainMovements L (base.flatten ++ windows.flatten) address).map
        (·.txid)) := by
    intro txid hmem
    rw [OrderedMap.mem_distinct] at hmem ⊢
    exact mem_chain_txids.mpr (Or.inl hmem)
  have hperm := List.subperm_of_subset (OrderedMap.nodup_distinct _) hsub
  constructor
  · intro hlength spend hspend
    have hsame := hperm.perm_of_length_le (le_of_eq hlength.symm)
    rw [← OrderedMap.mem_distinct,hsame.mem_iff,OrderedMap.mem_distinct]
    exact mem_chain_txids.mpr (Or.inr ⟨spend,hspend,rfl⟩)
  · intro hkept
    refine le_antisymm hperm.length_le
      (List.subperm_of_subset (OrderedMap.nodup_distinct _) ?_).length_le
    intro txid hmem
    rw [OrderedMap.mem_distinct] at hmem ⊢
    rcases mem_chain_txids.mp hmem with hstored | ⟨spend,hspend,rfl⟩
    · exact hstored
    · exact hkept spend hspend

end Lost

theorem plain_of_txids {L : CoinLedger} {chain : List ParsedDogecoinBlock}
    (hv : ValidBlocks .empty chain L)
    (hplain : ∀ block ∈ chain, ∀ tx ∈ block.tx, ':' ∉ tx.txid.toList) :
    ∀ c ∈ L.created, c.outputKey.Plain := by
  intro c hc
  have hcreated : L.created = chain.flatMap blockCreates := hv.created
  rw [hcreated] at hc
  obtain ⟨block,hblock,hc⟩ := List.mem_flatMap.mp hc
  obtain ⟨tx,txIndex,_,_,htx,-,rfl⟩ := mem_blockCreates hc
  exact hplain block hblock tx (List.fst_mem_of_mem_zipIdx htx)

/-- Applied in memory, in whatever windows, a chain leaves its outputs and its movements. -/
theorem memory_run {L : CoinLedger} {cuts : List (List ParsedDogecoinBlock)}
    (hv : ValidBlocks .empty cuts.flatten L)
    (hplain : ∀ block ∈ cuts.flatten, ∀ tx ∈ block.tx, ':' ∉ tx.txid.toList) :
    InMemory.Completes cuts InMemory.emptyWarehouseState ∧
      (∃ last, InMemory.Holds L last
        (InMemory.afterWindows cuts InMemory.emptyWarehouseState)) ∧
      (InMemory.afterWindows cuts InMemory.emptyWarehouseState).addressMovements =
        InMemory.chainRows cuts.flatten cuts.flatten ∧
      InMemory.StoredOutputs (cuts.flatten.flatMap blockCreates)
        (cuts.flatten.flatMap blockSpends)
        (InMemory.afterWindows cuts InMemory.emptyWarehouseState) := by
  have hkeys := plain_of_txids hv hplain
  have hholds : InMemory.Holds .empty ((cuts.flatten.head?.map (·.height)).getD 0)
      InMemory.emptyWarehouseState :=
    ⟨InMemory.holds_empty.outputs.mono (Nat.zero_le _),
      InMemory.holds_empty.moves.mono (Nat.zero_le _),by simp [InMemory.emptyWarehouseState],
      by simp [InMemory.emptyWarehouseState]⟩
  refine InMemory.afterWindows_induction (H := fun blocks t =>
      t.addressMovements = InMemory.chainRows cuts.flatten blocks ∧
        InMemory.StoredOutputs (blocks.flatMap blockCreates) (blocks.flatMap blockSpends) t)
    hv hkeys (fun blocks window rest M N next t hchain hbase hN hrest ht hhead hkept => ?_)
    (List.nil_append _).symm .empty hholds ⟨rfl,rfl⟩ (fun block hblock => by
      rw [Option.mem_def.mp hblock]
      rfl)
  exact wp_mono (wp_and (InMemory.possibly_windowStored hv hkeys hchain hbase hN hrest ht hhead
    hkept.1) (InMemory.possibly_windowOutputs hbase hN ht hhead hkept.2)) (fun _ _ h => h)
    (fun _ _ h => h.1) (fun _ h => h.1)

/-- A chain applied to both warehouses, to ClickHouse with a backfill and a materialization and
to each in windows of its own, leaves them with the same answers. They tell the same history of an
address exactly when the backfill lost none of its debits, and sum it up alike exactly when those
lost are worth nothing and belong to transactions that have another movement. -/
theorem adapters_agree (boundaries : Warehouse → List String)
    {backfill online : CoreDogecoinApplyContext}
    (base windows cuts : List (List ParsedDogecoinBlock)) {L : CoinLedger}
    (hback : shouldUpdateCoreCurrentState backfill = false)
    (honline : shouldUpdateCoreCurrentState online)
    (hv : ValidBlocks .empty (base.flatten ++ windows.flatten) L)
    (hplain : ∀ block ∈ base.flatten ++ windows.flatten, ∀ tx ∈ block.tx, ':' ∉ tx.txid.toList)
    (hvouts : OwnVouts (base.flatten ++ windows.flatten))
    (hcuts : cuts.flatten = base.flatten ++ windows.flatten) :
    ∃ w, (applyChainWindows boundaries backfill online base windows).run emptyWarehouse [] =
        (.value (),w,[]) ∧
      InMemory.Completes cuts InMemory.emptyWarehouseState ∧
      SameAnswers w (InMemory.afterWindows cuts InMemory.emptyWarehouseState) ∧
      ∀ address, (w.nativeMovements address =
          (InMemory.afterWindows cuts InMemory.emptyWarehouseState).getNativeMovements address ↔
            lostDebits L base address = []) ∧
        (SameSummary ⟨0,0,0,0,0⟩ (w.getAddressSummary address)
            ((InMemory.afterWindows cuts InMemory.emptyWarehouseState).getAddressSummary
              address) ↔
          ∀ spend ∈ lostDebits L base address, spentFrom L address spend = 0 ∧
            spend.spentByTxid ∈ (w.nativeMovements address).map (·.txid)) := by
  obtain ⟨w,hrun,hcurrent,hfacts,hcoins,hrows⟩ :=
    applyChainWindows_rows boundaries base windows hback honline hv
  obtain ⟨hcompletes,⟨last,hholds⟩,hmoves,hstored⟩ := memory_run (hcuts ▸ hv) (hcuts ▸ hplain)
  rw [hcuts] at hmoves hstored
  generalize InMemory.afterWindows cuts InMemory.emptyWarehouseState = s at *
  have hbalance := balances_agree hv hcurrent.current.coin hrows hholds
  have hcount (address : String) :
      w.querySpendableUtxoCount address = s.countSpendableUtxos address :=
    (unspent_perm hv hcurrent.current.coin hrows hstored address).length_eq
  refine ⟨w,hrun,hcompletes,⟨fun keys => ?_,?_,?_⟩,fun address => ⟨?_,?_⟩⟩
  · obtain ⟨found,hread,hget⟩ := getUtxoOutputs_chain hcurrent.chain hcoins hrows keys
    exact ⟨found,hread,fun key => by rw [hget,memory_getUtxoOutputs hv hstored]⟩
  · exact listAddressUtxos_agree hv hvouts hcurrent.current.coin hrows hstored
  · exact fun address => currentSummary_agree (hbalance address) (hcount address)
  · rw [memory_nativeMovements hv hmoves]
    exact nativeMovements_eq_chainMovements hv hfacts
  · have hkept : w.nativeMovements address = storedMovements L base windows address := by
      rw [nativeMovements_of_hasFacts hv hfacts,storedMovements,← chainMovements_flatten]
      rfl
    obtain ⟨hcredits,hdebits⟩ := @sumDirection_stored L base windows address
    have hzero := sum_eq_zero_iff (spentFrom_nonneg L address) (lostDebits L base address)
    rw [summary_agree_iff (hbalance address) (hcount address),memory_nativeMovements hv hmoves,
      hkept,length_distinct_txids,forall₂_and,← hzero,hcredits]
    constructor
    · rintro ⟨-,hsent,htxids⟩
      exact ⟨by omega,htxids⟩
    · rintro ⟨hnothing,htxids⟩
      exact ⟨rfl,by omega,htxids⟩

/-- A backfill of the first block, and block by block in memory. -/
theorem adapters_agree_paymentBlocks : ∃ w,
    (applyChainWindows (fun _ => []) ⟨some false,none⟩ ⟨some true,none⟩ [paymentBlocks.take 1]
      [paymentBlocks.drop 1]).run emptyWarehouse [] = (.value (),w,[]) ∧
    InMemory.Completes (paymentBlocks.map fun block => [block]) InMemory.emptyWarehouseState ∧
    SameAnswers w (InMemory.afterWindows (paymentBlocks.map fun block => [block])
      InMemory.emptyWarehouseState) ∧
    ∀ address, (w.nativeMovements address =
        (InMemory.afterWindows (paymentBlocks.map fun block => [block])
          InMemory.emptyWarehouseState).getNativeMovements address ↔
          lostDebits paymentLedger [paymentBlocks.take 1] address = []) ∧
      (SameSummary ⟨0,0,0,0,0⟩ (w.getAddressSummary address)
          ((InMemory.afterWindows (paymentBlocks.map fun block => [block])
            InMemory.emptyWarehouseState).getAddressSummary address) ↔
        ∀ spend ∈ lostDebits paymentLedger [paymentBlocks.take 1] address,
          spentFrom paymentLedger address spend = 0 ∧
            spend.spentByTxid ∈ (w.nativeMovements address).map (·.txid)) :=
  adapters_agree (fun _ => []) [paymentBlocks.take 1] [paymentBlocks.drop 1]
    (paymentBlocks.map fun block => [block])
    (rfl : shouldUpdateCoreCurrentState ⟨some false,none⟩ = false)
    (rfl : shouldUpdateCoreCurrentState ⟨some true,none⟩ = true) paymentBlocks_valid (by decide)
    (by decide) rfl

end OnlyDoge
