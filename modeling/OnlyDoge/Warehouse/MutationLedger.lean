import OnlyDoge.Chain.Effects
import OnlyDoge.Warehouse.CurrentState
set_option autoImplicit false

/-! The current-state mutation of a window follows the ledger of its blocks. -/

namespace OnlyDoge

/-- What an output counts towards the balance of an address. -/
def addressWeight (address : String) (output : ProjectionUtxoOutput) : Int :=
  if isBalanceAffectingCoreOutput output ∧ output.address = address then output.valueBase else 0

theorem addressWeight_nonneg (address : String) (output : ProjectionUtxoOutput) :
    0 ≤ addressWeight address output := by
  unfold addressWeight
  split <;> omega

theorem mem_blockCreates {block : ParsedDogecoinBlock} {output : ProjectionUtxoOutput}
    (h : output ∈ blockCreates block) :
    ∃ tx txIndex vout outputIndex, (tx,txIndex) ∈ block.tx.zipIdx ∧
      (vout,outputIndex) ∈ tx.vout.zipIdx ∧
      output = buildTransactionOutput block tx txIndex vout outputIndex := by
  obtain ⟨⟨tx,txIndex⟩,htx,h⟩ := List.mem_flatMap.mp h
  obtain ⟨⟨vout,outputIndex⟩,hv,rfl⟩ := List.mem_map.mp h
  exact ⟨tx,txIndex,vout,outputIndex,htx,hv,rfl⟩

theorem blockCreates_unspent {block : ParsedDogecoinBlock} {output : ProjectionUtxoOutput}
    (h : output ∈ blockCreates block) : output.spentBy = none := by
  obtain ⟨_,_,_,_,-,-,rfl⟩ := mem_blockCreates h
  rfl

theorem blockCreates_height {block : ParsedDogecoinBlock} {output : ProjectionUtxoOutput}
    (h : output ∈ blockCreates block) : output.blockHeight = block.height := by
  obtain ⟨_,_,_,_,-,-,rfl⟩ := mem_blockCreates h
  rfl

theorem mem_blockSpends {block : ParsedDogecoinBlock} {spend : CoreDogecoinSpend}
    (h : spend ∈ blockSpends block) :
    ∃ tx ∈ block.tx, ∃ vin inputIndex, (vin,inputIndex) ∈ tx.vin.zipIdx ∧
      buildTransactionSpend tx.txid block.height inputIndex vin = some spend := by
  obtain ⟨tx,htx,h⟩ := List.mem_flatMap.mp h
  obtain ⟨⟨vin,inputIndex⟩,hv,h⟩ := List.mem_filterMap.mp h
  exact ⟨tx,htx,vin,inputIndex,hv,h⟩

theorem blockSpends_height {block : ParsedDogecoinBlock} {spend : CoreDogecoinSpend}
    (h : spend ∈ blockSpends block) : spend.spentInBlock = block.height := by
  obtain ⟨tx,-,vin,inputIndex,-,h⟩ := mem_blockSpends h
  cases vin with
  | coinbase => cases h
  | output vinTxid vout =>
    cases h
    rfl

/-- The amount a map of deltas holds for an address. -/
def deltaAmount (deltas : OrderedMap BalanceKey CoreBalanceDelta) (address : String) : Int :=
  match deltas.get (balanceKey address "") with
  | some delta => delta.amount
  | none => 0

theorem deltaAmount_add (deltas : OrderedMap BalanceKey CoreBalanceDelta)
    (output : ProjectionUtxoOutput) (amount : Int) (address : String) :
    deltaAmount (addCoreBalanceDelta deltas output amount) address =
      deltaAmount deltas address +
        if isBalanceAffectingCoreOutput output ∧ output.address = address then amount else 0 := by
  unfold addCoreBalanceDelta
  by_cases hb : isBalanceAffectingCoreOutput output
  · simp only [hb,if_true,true_and]
    by_cases ha : output.address = address
    · subst ha
      unfold applyCoreBalanceDelta deltaAmount
      cases hg : deltas.get (balanceKey output.address "") <;> simp
    · have hk : balanceKey output.address "" ≠ balanceKey address "" := by
        simpa [balanceKey] using ha
      unfold applyCoreBalanceDelta deltaAmount
      cases hg : deltas.get (balanceKey output.address "") <;>
        simp [OrderedMap.get_set_ne _ _ hk,ha]
  · simp [hb]

/-- Every delta stands under the key of its own address. -/
def KeyedDeltas (deltas : OrderedMap BalanceKey CoreBalanceDelta) : Prop :=
  ∀ key delta, deltas.get key = some delta →
    key = balanceKey delta.address "" ∧ delta.assetAddress = ""

theorem keyedDeltas_add {deltas : OrderedMap BalanceKey CoreBalanceDelta}
    (h : KeyedDeltas deltas) (output : ProjectionUtxoOutput) (amount : Int) :
    KeyedDeltas (addCoreBalanceDelta deltas output amount) := by
  unfold addCoreBalanceDelta
  split
  · unfold applyCoreBalanceDelta
    intro key delta hd
    cases hg : deltas.get (balanceKey output.address "") with
    | none =>
      simp only [hg,OrderedMap.get_set] at hd
      split at hd
      · cases hd
        exact ⟨by simp_all,rfl⟩
      · exact h key delta hd
    | some current =>
      obtain ⟨hk,ha⟩ := h _ _ hg
      simp only [hg,OrderedMap.get_set] at hd
      split at hd
      · cases hd
        exact ⟨by simp_all,ha⟩
      · exact h key delta hd
  · exact h

/-- The mutation holds what changed between the ledgers `base` and `L`; the rows it writes
carry versions of the heights from `low` on and below `high`. -/
structure Tracks (base L : CoinLedger) (low high : Nat) (m : CoreCurrentStateMutation) : Prop where
  key : ∀ k o, m.nextOutputs.get k = some o → o.outputKey = k
  coin : ∀ k o, m.nextOutputs.get k = some o → L.coin k = if o.spentBy = none then some o else none
  frame : ∀ k, m.nextOutputs.get k = none → L.coin k = base.coin k
  version : ∀ k o, m.nextOutputs.get k = some o →
    low * 2 ≤ coreCurrentUtxoVersion o ∧ coreCurrentUtxoVersion o < high * 2
  delta : ∀ a, deltaAmount m.balanceDeltas a =
    L.worth (addressWeight a) - base.worth (addressWeight a)
  keyed : KeyedDeltas m.balanceDeltas

theorem tracks_start (base : CoinLedger) (low high : Nat) :
    Tracks base base low high createCoreCurrentStateMutation where
  key k o h := by cases h
  coin k o h := by cases h
  frame k _ := rfl
  version k o h := by cases h
  delta a := by simp [deltaAmount,createCoreCurrentStateMutation]
  keyed key delta h := by cases h

theorem tracks_create {base L L' : CoinLedger} {low high : Nat} {m : CoreCurrentStateMutation}
    {c : ProjectionUtxoOutput} (h : Tracks base L low high m) (hc : L.create? c = some L')
    (hunspent : c.spentBy = none) (hlow : low ≤ c.blockHeight) (hhigh : c.blockHeight < high) :
    Tracks base L' low high (applyCoreCurrentStateCreate m c) := by
  have hcoin := Ledger.coin_create hc
  constructor
  · intro k o ho
    simp only [applyCoreCurrentStateCreate,OrderedMap.get_set] at ho
    split at ho
    · cases ho
      assumption
    · exact h.key k o ho
  · intro k o ho
    simp only [applyCoreCurrentStateCreate,OrderedMap.get_set] at ho
    rw [hcoin k]
    split at ho
    · cases ho
      simp_all
    · rw [if_neg ‹_›]
      exact h.coin k o ho
  · intro k hk
    simp only [applyCoreCurrentStateCreate,OrderedMap.get_set] at hk
    split at hk
    · cases hk
    · rw [hcoin k,if_neg ‹_›]
      exact h.frame k hk
  · intro k o ho
    simp only [applyCoreCurrentStateCreate,OrderedMap.get_set] at ho
    split at ho
    · cases ho
      simp only [coreCurrentUtxoVersion,hunspent,coreCurrentCreateVersion]
      omega
    · exact h.version k o ho
  · intro a
    simp only [applyCoreCurrentStateCreate]
    rw [deltaAmount_add,h.delta a,Ledger.worth_create _ hc]
    simp only [addressWeight]
    omega
  · exact keyedDeltas_add h.keyed c _

theorem tracks_spend {base L L' : CoinLedger} {low high : Nat} {m : CoreCurrentStateMutation}
    {prevouts : OutputMap} {s : CoreDogecoinSpend} (h : Tracks base L low high m)
    (hs : L.spend? s.outputKey = some L') (hlow : low ≤ s.spentInBlock)
    (hhigh : s.spentInBlock < high)
    (hprev : ∀ c, base.coin s.outputKey = some c → prevouts.get s.outputKey = some c) :
    ∃ m', applyCoreCurrentStateSpend prevouts m s = .ok m' ∧ Tracks base L' low high m' := by
  obtain ⟨c,hc⟩ := Ledger.coin_of_spend? hs
  have hcoin := Ledger.coin_spend hs
  have hkey : c.outputKey = s.outputKey := (Ledger.coin_eq_some.mp hc).2
  have hcurrent : currentCoreOutput m prevouts s = .ok c := by
    unfold currentCoreOutput
    cases hg : m.nextOutputs.get s.outputKey with
    | none => simp [hprev c (h.frame _ hg ▸ hc)]
    | some o =>
      have := h.coin _ _ hg
      rw [hc] at this
      split at this
      · cases this
        rfl
      · cases this
  refine ⟨_,by rw [applyCoreCurrentStateSpend,hcurrent]; rfl,?_⟩
  constructor
  · intro k o ho
    simp only [OrderedMap.get_set] at ho
    split at ho
    · cases ho
      simpa [spentCoreOutput] using hkey.trans ‹_›
    · exact h.key k o ho
  · intro k o ho
    simp only [OrderedMap.get_set] at ho
    rw [hcoin k]
    split at ho
    · cases ho
      simp_all [spentCoreOutput]
    · rw [if_neg ‹_›]
      exact h.coin k o ho
  · intro k hk
    simp only [OrderedMap.get_set] at hk
    split at hk
    · cases hk
    · rw [hcoin k,if_neg ‹_›]
      exact h.frame k hk
  · intro k o ho
    simp only [OrderedMap.get_set] at ho
    split at ho
    · cases ho
      simp only [coreCurrentUtxoVersion,spentCoreOutput,coreCurrentSpendVersion]
      omega
    · exact h.version k o ho
  · intro a
    rw [deltaAmount_add,h.delta a,Ledger.worth_spend _ hs hc]
    simp only [addressWeight]
    split <;> omega
  · exact keyedDeltas_add h.keyed c _

theorem tracks_creates {base L L' : CoinLedger} {low high : Nat} {m : CoreCurrentStateMutation}
    {cs : List ProjectionUtxoOutput} (h : Tracks base L low high m)
    (hr : L.postAll? (cs.map .create) = some L')
    (hcs : ∀ c ∈ cs, c.spentBy = none ∧ low ≤ c.blockHeight ∧ c.blockHeight < high) :
    Tracks base L' low high (cs.foldl applyCoreCurrentStateCreate m) := by
  induction cs generalizing L m with
  | nil =>
    cases hr
    exact h
  | cons c cs ih =>
    obtain ⟨M,hM,hr⟩ := Option.bind_eq_some_iff.mp hr
    obtain ⟨hu,hl,hh⟩ := hcs c (by simp)
    exact ih (tracks_create h hM hu hl hh) hr (fun d hd => hcs d (List.mem_cons_of_mem _ hd))

theorem tracks_spends {base L L' : CoinLedger} {low high : Nat} {m : CoreCurrentStateMutation}
    {prevouts : OutputMap} {ss : List CoreDogecoinSpend} (h : Tracks base L low high m)
    (hr : L.postAll? (ss.map (fun s => .spend s.outputKey)) = some L')
    (hss : ∀ s ∈ ss, low ≤ s.spentInBlock ∧ s.spentInBlock < high ∧
      ∀ c, base.coin s.outputKey = some c → prevouts.get s.outputKey = some c) :
    ∃ m', ss.foldlM (applyCoreCurrentStateSpend prevouts) m = .ok m' ∧
      Tracks base L' low high m' := by
  induction ss generalizing L m with
  | nil =>
    cases hr
    exact ⟨m,rfl,h⟩
  | cons s ss ih =>
    obtain ⟨M,hM,hr⟩ := Option.bind_eq_some_iff.mp hr
    obtain ⟨hl,hh,hp⟩ := hss s (by simp)
    obtain ⟨m1,hm1,h1⟩ := tracks_spend h hM hl hh hp
    obtain ⟨m2,hm2,h2⟩ := ih h1 hr (fun d hd => hss d (List.mem_cons_of_mem _ hd))
    exact ⟨m2,by rw [List.foldlM_cons,hm1]; exact hm2,h2⟩

theorem tracks_block {base L L' : CoinLedger} {low high : Nat} {m : CoreCurrentStateMutation}
    {prevouts : OutputMap} {block : ParsedDogecoinBlock} (h : Tracks base L low high m)
    (hr : L.postAll? (blockEntries block) = some L') (hlow : low ≤ block.height)
    (hhigh : block.height < high)
    (hprev : ∀ s ∈ blockSpends block, ∀ c, base.coin s.outputKey = some c →
      prevouts.get s.outputKey = some c) :
    ∃ m', applyCoreCurrentStateApplication prevouts m (coreBlockApplication block) = .ok m' ∧
      Tracks base L' low high m' := by
  rw [blockEntries,Ledger.postAll?_append] at hr
  obtain ⟨M,hM,hr⟩ := Option.bind_eq_some_iff.mp hr
  have hcreates : Tracks base M low high
      ((blockCreates block).foldl applyCoreCurrentStateCreate m) := by
    refine tracks_creates h hM (fun c hc => ?_)
    rw [blockCreates_height hc]
    exact ⟨blockCreates_unspent hc,hlow,hhigh⟩
  refine tracks_spends hcreates hr (fun s hs => ?_)
  rw [blockSpends_height hs]
  exact ⟨hlow,hhigh,hprev s hs⟩

theorem tracks_blocks {base L L' : CoinLedger} {low high : Nat} {m : CoreCurrentStateMutation}
    {prevouts : OutputMap} {blocks : List ParsedDogecoinBlock} (h : Tracks base L low high m)
    (hr : L.postAll? (blocks.flatMap blockEntries) = some L')
    (hheights : ∀ block ∈ blocks, low ≤ block.height ∧ block.height < high)
    (hprev : ∀ block ∈ blocks, ∀ s ∈ blockSpends block, ∀ c, base.coin s.outputKey = some c →
      prevouts.get s.outputKey = some c) :
    ∃ m', (blocks.map coreBlockApplication).foldlM (applyCoreCurrentStateApplication prevouts) m =
      .ok m' ∧ Tracks base L' low high m' := by
  induction blocks generalizing L m with
  | nil =>
    cases hr
    exact ⟨m,rfl,h⟩
  | cons block blocks ih =>
    rw [List.flatMap_cons,Ledger.postAll?_append] at hr
    obtain ⟨M,hM,hr⟩ := Option.bind_eq_some_iff.mp hr
    obtain ⟨hl,hh⟩ := hheights block (by simp)
    obtain ⟨m1,hm1,h1⟩ := tracks_block h hM hl hh (hprev block (by simp))
    obtain ⟨m2,hm2,h2⟩ := ih h1 hr (fun b hb => hheights b (List.mem_cons_of_mem _ hb))
      (fun b hb => hprev b (List.mem_cons_of_mem _ hb))
    exact ⟨m2,by rw [List.map_cons,List.foldlM_cons,hm1]; exact hm2,h2⟩

section Untouched
variable {k : OutputKey} {prevouts : OutputMap} {m m' : CoreCurrentStateMutation}

theorem creates_untouched {cs : List ProjectionUtxoOutput} (hcs : k ∉ cs.map (·.outputKey))
    (hm : m.nextOutputs.get k = none) :
    (cs.foldl applyCoreCurrentStateCreate m).nextOutputs.get k = none := by
  induction cs generalizing m with
  | nil => exact hm
  | cons c cs ih =>
    rw [List.map_cons,List.mem_cons,not_or] at hcs
    refine ih hcs.2 ?_
    simp only [applyCoreCurrentStateCreate]
    rw [OrderedMap.get_set_ne _ _ (Ne.symm hcs.1)]
    exact hm

theorem spends_untouched {ss : List CoreDogecoinSpend} (hk : prevouts.get k = none)
    (hm : m.nextOutputs.get k = none)
    (h : ss.foldlM (applyCoreCurrentStateSpend prevouts) m = .ok m') :
    k ∉ ss.map (·.outputKey) ∧ m'.nextOutputs.get k = none := by
  induction ss generalizing m with
  | nil =>
    cases h
    exact ⟨by simp,hm⟩
  | cons s ss ih =>
    rw [List.foldlM_cons,bind_eq_ok] at h
    obtain ⟨m1,h1,h⟩ := h
    obtain ⟨current,hcurrent,h1⟩ := bind_eq_ok.mp h1
    cases h1
    have hne : s.outputKey ≠ k := by
      rintro rfl
      simp [currentCoreOutput,hm,hk] at hcurrent
    obtain ⟨hss,hm'⟩ := ih (by simpa [OrderedMap.get_set_ne _ _ hne] using hm) h
    exact ⟨by simpa [hss] using Ne.symm hne,hm'⟩

theorem mutations_untouched {pending : List CoreDogecoinBlockApplication}
    (hk : prevouts.get k = none)
    (hc : k ∉ (pending.flatMap (·.utxoCreates)).map (·.outputKey))
    (hm : m.nextOutputs.get k = none)
    (h : pending.foldlM (applyCoreCurrentStateApplication prevouts) m = .ok m') :
    k ∉ (pending.flatMap (·.utxoSpends)).map (·.outputKey) ∧ m'.nextOutputs.get k = none := by
  induction pending generalizing m with
  | nil =>
    cases h
    exact ⟨by simp,hm⟩
  | cons application pending ih =>
    rw [List.foldlM_cons,bind_eq_ok] at h
    obtain ⟨m1,h1,h⟩ := h
    simp only [List.flatMap_cons,List.map_append,List.mem_append,not_or] at hc ⊢
    obtain ⟨hs,hm1⟩ := spends_untouched hk (creates_untouched hc.1 hm) h1
    obtain ⟨hss,hm'⟩ := ih hc.2 hm1 h
    exact ⟨⟨hs,hss⟩,hm'⟩

end Untouched

end OnlyDoge
