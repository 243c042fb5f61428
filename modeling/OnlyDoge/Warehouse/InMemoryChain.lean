import OnlyDoge.Warehouse.InMemoryRecovery
import OnlyDoge.Warehouse.MovementIds
set_option autoImplicit false

/-! The in-memory state that a valid chain leaves, and its recovery. -/

namespace OnlyDoge.InMemory
open Rows Job WarehouseState

section Outputs
variable {L L' : CoinLedger} {next : Nat} {s : WarehouseState}

def bare (output : ProjectionUtxoOutput) : ProjectionUtxoOutput := { output with spentBy := none }

theorem bare_of_unspent {output : ProjectionUtxoOutput} (h : output.spentBy = none) :
    bare output = output := by
  cases output
  simp_all [bare]

/-- The outputs are those of the ledger in their order, marked where they are spent. -/
structure OutputsOf (L : CoinLedger) (next : Nat) (s : WarehouseState) : Prop where
  created : s.utxoOutputs.map bare = L.created
  spent : ∀ o ∈ s.utxoOutputs, o.spentBy = none ↔ o.outputKey ∉ L.spent
  createdBelow : ∀ o ∈ s.utxoOutputs, o.blockHeight < next
  spentBelow : ∀ o ∈ s.utxoOutputs, ∀ taken ∈ o.spentBy, taken.spentInBlock < next

theorem OutputsOf.keys (h : OutputsOf L next s) :
    s.utxoOutputs.map (·.outputKey) = L.created.map (·.outputKey) := by
  rw [← h.created,List.map_map]
  rfl

theorem OutputsOf.nodup (h : OutputsOf L next s) :
    (s.utxoOutputs.map (·.outputKey)).Nodup := by
  rw [h.keys]
  exact L.created_nodup

theorem OutputsOf.mono {later : Nat} (h : OutputsOf L next s) (hle : next ≤ later) :
    OutputsOf L later s :=
  ⟨h.created,h.spent,fun o ho => Nat.lt_of_lt_of_le (h.createdBelow o ho) hle,
    fun o ho taken ht => Nat.lt_of_lt_of_le (h.spentBelow o ho taken ht) hle⟩

theorem OutputsOf.of_utxos {t : WarehouseState} (h : OutputsOf L next s)
    (hutxos : t.utxoOutputs = s.utxoOutputs) : OutputsOf L next t := by
  obtain ⟨hc,hs,hb,ht⟩ := h
  exact ⟨hutxos ▸ hc,hutxos ▸ hs,hutxos ▸ hb,hutxos ▸ ht⟩

theorem creates_posted {creates : List ProjectionUtxoOutput}
    (hL : L.postAll? (creates.map .create) = some L') :
    L'.created = L.created ++ creates ∧ L'.spent = L.spent := by
  obtain ⟨hc,hs⟩ := Ledger.postAll?_eq_some hL
  simp only [List.filterMap_map,Function.comp_def,Ledger.Entry.created?,Ledger.Entry.spent?,
    List.filterMap_some,List.filterMap_none,List.append_nil] at hc hs
  exact ⟨hc,hs⟩

theorem OutputsOf.create {creates : List ProjectionUtxoOutput} (h : OutputsOf L next s)
    (hL : L.postAll? (creates.map .create) = some L')
    (hheight : ∀ c ∈ creates, c.blockHeight < next) (hbare : ∀ c ∈ creates, c.spentBy = none) :
    OutputsOf L' next (creates.foldl upsertUtxoOutput s) := by
  obtain ⟨hcreated,hspent⟩ := creates_posted hL
  have hkeys := L'.created_nodup
  rw [hcreated,List.map_append,List.nodup_append] at hkeys
  obtain ⟨-,hnodup,hdisjoint⟩ := hkeys
  have hnew : ∀ c ∈ creates, c.outputKey ∉ L.created.map (·.outputKey) :=
    fun c hc hmem => hdisjoint _ hmem _ (List.mem_map_of_mem hc) rfl
  rw [upsertUtxoOutputs_eq hnodup (fun c hc o ho heq => hnew c hc (by
    rw [← h.keys,← heq]
    exact List.mem_map_of_mem ho))]
  constructor
  · rw [List.map_append,h.created,hcreated,List.map_congr_left
      (fun c hc => bare_of_unspent (hbare c hc)),List.map_id']
  · intro o ho
    rw [hspent]
    rcases List.mem_append.mp ho with ho | ho
    · exact h.spent o ho
    · simp only [hbare o ho,true_iff]
      exact fun hmem => hnew o ho (L.spent_created _ hmem)
  · intro o ho
    rcases List.mem_append.mp ho with ho | ho
    · exact h.createdBelow o ho
    · exact hheight o ho
  · intro o ho taken htaken
    rcases List.mem_append.mp ho with ho | ho
    · exact h.spentBelow o ho taken htaken
    · rw [hbare o ho] at htaken
      cases htaken

theorem OutputsOf.spend {spend : CoreDogecoinSpend} (h : OutputsOf L next s)
    (hL : L.spend? spend.outputKey = some L') (hheight : spend.spentInBlock < next) :
    (s.utxoOutputs.any (·.outputKey = spend.outputKey)) = true ∧
      OutputsOf L' next (s.spendUtxoOutput spend) := by
  obtain ⟨hmem,-,hcreated,hspent⟩ := Ledger.spend?_eq_some hL
  have hrows : (s.spendUtxoOutput spend).utxoOutputs = s.utxoOutputs.map (fun o =>
      if o.outputKey = spend.outputKey then spentCoreOutput o spend else o) :=
    update_eq_map h.nodup
  refine ⟨?_,?_,?_,?_,?_⟩
  · rw [← h.keys] at hmem
    obtain ⟨o,ho,hkey⟩ := List.mem_map.mp hmem
    exact List.any_eq_true.mpr ⟨o,ho,by simpa using hkey⟩
  · rw [hrows,List.map_map,hcreated,← h.created]
    refine List.map_congr_left (fun o _ => ?_)
    simp only [Function.comp_apply]
    split <;> rfl
  · intro o ho
    rw [hrows] at ho
    obtain ⟨o',ho',rfl⟩ := List.mem_map.mp ho
    rw [hspent,List.mem_append,List.mem_singleton]
    by_cases hkey : o'.outputKey = spend.outputKey
    · simp [hkey,spentCoreOutput]
    · simp [hkey,h.spent o' ho']
  · intro o ho
    rw [hrows] at ho
    obtain ⟨o',ho',rfl⟩ := List.mem_map.mp ho
    split
    · exact h.createdBelow o' ho'
    · exact h.createdBelow o' ho'
  · intro o ho taken htaken
    rw [hrows] at ho
    obtain ⟨o',ho',rfl⟩ := List.mem_map.mp ho
    split at htaken
    · cases htaken
      exact hheight
    · exact h.spentBelow o' ho' taken htaken

theorem OutputsOf.worth (h : OutputsOf L next s) (address : String) :
    L.worth (addressWeight address) =
      ((s.utxoOutputs.filter (·.unspent)).map (addressWeight address)).sum := by
  have hunspent : (s.utxoOutputs.filter (·.unspent)).map bare = L.unspent := by
    unfold Ledger.unspent
    rw [← h.created,List.filter_map]
    congr 1
    refine List.filter_congr (fun o ho => ?_)
    have := h.spent o ho
    simp only [ProjectionUtxoOutput.unspent,Function.comp_apply]
    rw [Bool.eq_iff_iff,Option.isNone_iff_eq_none,this,decide_eq_true_iff]
    rfl
  rw [Ledger.worth,← hunspent,List.map_map]
  rfl

theorem rebuilt_get (height : Int) (outputs : List ProjectionUtxoOutput)
    (balances : OrderedMap BalanceKey BalanceRow) (address : String) :
    (((outputs.foldl (addRebuiltBalance height) balances).get (balanceKey address "")).map
        (·.balance)).getD 0 =
      ((balances.get (balanceKey address "")).map (·.balance)).getD 0 +
        ((outputs.filter (·.unspent)).map (addressWeight address)).sum := by
  induction outputs generalizing balances with
  | nil => simp
  | cons o outputs ih =>
    rw [List.foldl_cons,ih]
    unfold addRebuiltBalance isUnspentSpendableOutput addressWeight isBalanceAffectingCoreOutput
    by_cases hunspent : o.unspent
    · by_cases hcounts : o.isSpendable ∧ o.address ≠ ""
      · by_cases haddress : o.address = address
        · subst haddress
          simp [hunspent,hcounts,add_assoc]
        · have hkey : balanceKey o.address "" ≠ balanceKey address "" :=
            fun heq => haddress (Prod.mk.inj heq).1
          simp [hunspent,hcounts,haddress,OrderedMap.get_set_ne _ _ hkey]
      · by_cases hspendable : o.isSpendable
        · have haddress : o.address = "" := by
            by_contra hne
            exact hcounts ⟨hspendable,hne⟩
          simp [hunspent,hspendable,haddress]
        · simp [hunspent,hspendable]
    · simp [hunspent]

theorem rebuilt_keys (height : Int) (outputs : List ProjectionUtxoOutput)
    {balances : OrderedMap BalanceKey BalanceRow}
    (h : ∀ k row, balances.get k = some row → balanceKey row.address row.assetAddress = k) :
    ∀ k row, (outputs.foldl (addRebuiltBalance height) balances).get k = some row →
      balanceKey row.address row.assetAddress = k := by
  induction outputs generalizing balances with
  | nil => exact h
  | cons o outputs ih =>
    refine ih (fun k row hrow => ?_)
    unfold addRebuiltBalance at hrow
    split at hrow
    · exact h k row hrow
    · rw [OrderedMap.get_set] at hrow
      split at hrow
      · cases hrow
        assumption
      · exact h k row hrow

theorem find?_values {balances : OrderedMap BalanceKey BalanceRow}
    (h : ∀ k row, balances.get k = some row → balanceKey row.address row.assetAddress = k)
    (address : String) :
    balances.values.find? (fun row => row.address = address ∧ row.assetAddress = "") =
      balances.get (balanceKey address "") := by
  cases hget : balances.get (balanceKey address "") with
  | some row =>
    have hkey := h _ _ hget
    cases hfind : balances.values.find? (fun row => row.address = address ∧
        row.assetAddress = "") with
    | none =>
      have hnone := List.find?_eq_none.mp hfind row (OrderedMap.mem_values.mpr ⟨_,hget⟩)
      obtain ⟨ha,hb⟩ := Prod.mk.inj hkey
      exact absurd (by simp [ha,hb]) hnone
    | some found =>
      obtain ⟨k,hk⟩ := OrderedMap.mem_values.mp (List.mem_of_find?_eq_some hfind)
      have hmatch : found.address = address ∧ found.assetAddress = "" := by
        simpa using List.find?_some hfind
      have hsame := h k found hk
      rw [hmatch.1,hmatch.2] at hsame
      rw [← hsame,hget] at hk
      exact hk.symm
  | none =>
    rw [List.find?_eq_none]
    intro row hrow hmatch
    obtain ⟨k,hk⟩ := OrderedMap.mem_values.mp hrow
    have hmatch : row.address = address ∧ row.assetAddress = "" := by simpa using hmatch
    have hsame := h k row hk
    rw [hmatch.1,hmatch.2] at hsame
    rw [← hsame,hget] at hk
    cases hk

theorem addressBalance_rebuilt (s : WarehouseState) (address : String) :
    s.rebuildBalancesFromCurrentUtxos.addressBalance address =
      ((s.utxoOutputs.filter (·.unspent)).map (addressWeight address)).sum := by
  unfold addressBalance rebuildBalancesFromCurrentUtxos
  simp only
  rw [find?_values (rebuilt_keys _ _ (fun k row hrow => by cases hrow)),rebuilt_get]
  simp

theorem addressBalance_write (s : WarehouseState) {movement : AddressMovement}
    (hasset : movement.assetAddress = "") (blockHeight : Nat) (amount : Int) (address : String) :
    (s.writeBalanceSnapshot movement blockHeight amount).addressBalance address =
      if movement.address = address then amount else s.addressBalance address := by
  have hpred : isMovementBalanceSnapshot movement =
      fun row => decide (row.address = movement.address ∧ row.assetAddress = "") := by
    funext row
    simp [isMovementBalanceSnapshot,hasset]
  unfold writeBalanceSnapshot
  split
  · rename_i row hrow
    unfold findBalanceSnapshot at hrow
    rw [hpred] at hrow
    by_cases haddress : movement.address = address
    · subst haddress
      simp only [addressBalance,hpred,if_true]
      rw [find?_update (fun x hx => by simpa using hx),hrow]
      rfl
    · simp only [addressBalance,hpred,if_neg haddress]
      rw [find?_update_other]
      · intro x hx
        have hx : x.address = movement.address ∧ x.assetAddress = "" := by simpa using hx
        simp [hx.1,haddress]
      · intro x hx
        have hx : x.address = movement.address ∧ x.assetAddress = "" := by simpa using hx
        simp [hx.1,haddress]
  · rename_i hnone
    unfold findBalanceSnapshot at hnone
    rw [hpred] at hnone
    by_cases haddress : movement.address = address
    · subst haddress
      simp only [addressBalance,if_true]
      rw [List.find?_append,hnone]
      simp [hasset]
    · simp [addressBalance,List.find?_append,haddress]

end Outputs

section Movements
variable {L L' : CoinLedger} {next blockHeight : Nat} {s t : WarehouseState}

/-- The balances are the worth of the ledger, and each movement is of one of its entries. -/
structure MovesOf (L : CoinLedger) (next : Nat) (s : WarehouseState) : Prop where
  balance : ∀ address, s.addressBalance address = L.worth (addressWeight address)
  ids : ∀ m ∈ s.addressMovements, (∃ c ∈ L.created, m.movementId = creditId c.outputKey) ∨
    ∃ k ∈ L.spent, ∃ txid i, m.movementId = debitId k txid i
  below : ∀ m ∈ s.addressMovements, m.blockHeight < next

/-- Only movements and balances differ. -/
structure SameOutside (s t : WarehouseState) : Prop where
  utxos : t.utxoOutputs = s.utxoOutputs
  facts : t.transactionFacts = s.transactionFacts
  applied : t.appliedBlocks = s.appliedBlocks

theorem SameOutside.trans {u : WarehouseState} (h : SameOutside s t) (h' : SameOutside t u) :
    SameOutside s u :=
  ⟨h'.utxos.trans h.utxos,h'.facts.trans h.facts,h'.applied.trans h.applied⟩

theorem MovesOf.mono {later : Nat} (h : MovesOf L next s) (hle : next ≤ later) :
    MovesOf L later s :=
  ⟨h.balance,h.ids,fun m hm => Nat.lt_of_lt_of_le (h.below m hm) hle⟩

theorem MovesOf.of_rows (h : MovesOf L next s)
    (hmovements : t.addressMovements = s.addressMovements)
    (hbalances : t.balances = s.balances) : MovesOf L next t := by
  obtain ⟨hb,hi,hl⟩ := h
  refine ⟨fun address => ?_,hmovements ▸ hi,hmovements ▸ hl⟩
  unfold addressBalance
  rw [hbalances]
  exact hb address

theorem writeBalanceSnapshot_movements (movement : AddressMovement) (blockHeight : Nat)
    (amount : Int) (s : WarehouseState) :
    (s.writeBalanceSnapshot movement blockHeight amount).addressMovements =
      s.addressMovements := by
  unfold writeBalanceSnapshot
  cases s.findBalanceSnapshot movement <;> rfl

theorem sameOutside_write (movement : AddressMovement) (blockHeight : Nat) (amount : Int)
    (s : WarehouseState) : SameOutside s
      ((s.appendAddressMovement movement).writeBalanceSnapshot movement blockHeight amount) := by
  unfold writeBalanceSnapshot
  cases (s.appendAddressMovement movement).findBalanceSnapshot movement <;> exact ⟨rfl,rfl,rfl⟩

/-- A job that never fails and never stops. -/
abbrev Surely {α : Type} (m : MemoryJob α) (Q : α → WarehouseState → Prop) (s : WarehouseState) :
    Prop := wp m Q (fun _ _ => False) (fun _ => False) s

/-- A movement with a new id that leaves its address a balance of at least zero is applied. -/
theorem surely_movement {movement : AddressMovement} {Q : Unit → WarehouseState → Prop}
    (hasset : movement.assetAddress = "")
    (hnew : ∀ m ∈ s.addressMovements, m.movementId ≠ movement.movementId)
    (hnonneg : 0 ≤ nextBalanceAmount (some (s.addressBalance movement.address)) movement)
    (hdone : Q () ((s.appendAddressMovement movement).writeBalanceSnapshot movement blockHeight
      (nextBalanceAmount (some (s.addressBalance movement.address)) movement))) :
    Surely (applyBatchAddressMovementIfUnique blockHeight movement) Q s := by
  have hamount : nextBalanceAmount (((s.appendAddressMovement movement).findBalanceSnapshot
      movement).map (·.balance)) movement =
        nextBalanceAmount (some (s.addressBalance movement.address)) movement := by
    have hfind : (s.appendAddressMovement movement).findBalanceSnapshot movement =
        s.balances.find? (fun row => row.address = movement.address ∧ row.assetAddress = "") := by
      unfold findBalanceSnapshot isMovementBalanceSnapshot
      rw [hasset]
      rfl
    rw [hfind]
    unfold nextBalanceAmount addressBalance
    rfl
  have hunknown : s.addressMovements.any (·.movementId = movement.movementId) = false := by
    rw [List.any_eq_false]
    exact fun m hm => by simpa using hnew m hm
  refine wp_bind (wp_look (wp_when (fun _ => ?_) (fun hknown => ?_)))
  · refine wp_bind (wp_assign (wp_bind (wp_look (wp_bind (wp_ofExcept ?_ ?_)))))
    · intro _ _
      rw [hamount]
      exact wp_assign hdone
    · intro e he
      rw [hamount] at he
      unfold assertNonNegativeBalance at he
      rw [if_neg (by omega)] at he
      cases he
  · rw [hunknown] at hknown
    exact absurd rfl hknown

/-- The id of a movement that belongs to an entry of the ledger. -/
def IdOf (L : CoinLedger) (id : String) : Prop :=
  (∃ c ∈ L.created, id = creditId c.outputKey) ∨ ∃ k ∈ L.spent, ∃ txid i, id = debitId k txid i

/-- A movement that takes the balances from the worth of one ledger to that of the next. -/
theorem surely_counted {movement : AddressMovement} (h : MovesOf L next s)
    (hasset : movement.assetAddress = "")
    (hnew : ∀ m ∈ s.addressMovements, m.movementId ≠ movement.movementId)
    (hworth : ∀ address, L'.worth (addressWeight address) =
      if movement.address = address then
        nextBalanceAmount (some (L.worth (addressWeight address))) movement
      else L.worth (addressWeight address))
    (hids : ∀ m ∈ s.addressMovements, IdOf L' m.movementId) (hid : IdOf L' movement.movementId)
    (hheight : movement.blockHeight < next) :
    Surely (forEach [movement] (applyBatchAddressMovementIfUnique blockHeight))
      (fun _ t => MovesOf L' next t ∧ SameOutside s t) s := by
  have hamount : nextBalanceAmount (some (s.addressBalance movement.address)) movement =
      L'.worth (addressWeight movement.address) := by
    rw [hworth,if_pos rfl,h.balance]
  refine wp_bind (surely_movement hasset hnew ?_ (wp_pure ⟨⟨?_,?_,?_⟩,?_⟩))
  · rw [hamount]
    exact Ledger.worth_nonneg L' (addressWeight_nonneg _)
  · intro address
    rw [addressBalance_write _ hasset,hamount]
    split
    · rename_i haddress
      rw [haddress]
    · rename_i haddress
      rw [hworth,if_neg haddress]
      exact h.balance address
  · intro m hm
    rw [writeBalanceSnapshot_movements] at hm
    rcases List.mem_append.mp hm with hold | hnew
    · exact hids m hold
    · rw [List.mem_singleton.mp hnew]
      exact hid
  · intro m hm
    rw [writeBalanceSnapshot_movements] at hm
    rcases List.mem_append.mp hm with hold | hnew
    · exact h.below m hold
    · rw [List.mem_singleton.mp hnew]
      exact hheight
  · exact sameOutside_write _ _ _ _

theorem MovesOf.uncounted (h : MovesOf L next s)
    (hworth : ∀ address, L'.worth (addressWeight address) = L.worth (addressWeight address))
    (hids : ∀ m ∈ s.addressMovements, IdOf L' m.movementId) :
    MovesOf L' next s ∧ SameOutside s s :=
  ⟨⟨fun address => (h.balance address).trans (hworth address).symm,hids,h.below⟩,⟨rfl,rfl,rfl⟩⟩

theorem addressWeight_counted {c : ProjectionUtxoOutput} (h : isCoreAddressMovementOutput c)
    (address : String) :
    addressWeight address c = if c.address = address then (c.valueBase : Int) else 0 := by
  have hbalance : isBalanceAffectingCoreOutput c = true := h
  simp [addressWeight,hbalance]

theorem addressWeight_uncounted {c : ProjectionUtxoOutput} (h : ¬isCoreAddressMovementOutput c)
    (address : String) : addressWeight address c = 0 := by
  have hbalance : isBalanceAffectingCoreOutput c = false := Bool.eq_false_iff.mpr h
  simp [addressWeight,hbalance]

theorem surely_credit {c : ProjectionUtxoOutput} (h : MovesOf L next s)
    (hL : L.create? c = some L') (hplain : ∀ c ∈ L'.created, c.outputKey.Plain)
    (hheight : c.blockHeight < next) :
    Surely (forEach (coreCreateAddressMovement c) (applyBatchAddressMovementIfUnique blockHeight))
      (fun _ t => MovesOf L' next t ∧ SameOutside s t) s := by
  obtain ⟨hfresh,hcreated,hspent⟩ := Ledger.create?_eq_some hL
  have hworth (address : String) := Ledger.worth_create (addressWeight address) hL
  have hids : ∀ m ∈ s.addressMovements, IdOf L' m.movementId := by
    intro m hm
    unfold IdOf
    rw [hcreated,hspent]
    rcases h.ids m hm with ⟨d,hd,hid⟩ | hdebit
    · exact .inl ⟨d,List.mem_append_left _ hd,hid⟩
    · exact .inr hdebit
  unfold coreCreateAddressMovement
  by_cases hcounts : isCoreAddressMovementOutput c
  · rw [if_pos hcounts]
    refine surely_counted h rfl ?_ ?_ hids (.inl ⟨c,by simp [hcreated],rfl⟩) hheight
    · -- a movement with this id would be the credit of an output with the same key
      intro m hm hid
      rw [coreCreditMovement_id] at hid
      rcases h.ids m hm with ⟨d,hd,hcredit⟩ | ⟨k,-,txid,i,hdebit⟩
      · have hkey := creditId_injective (hplain d (hcreated ▸ List.mem_append_left _ hd))
          (hplain c (by simp [hcreated])) (hcredit.symm.trans hid)
        exact hfresh (List.mem_map.mpr ⟨d,hd,hkey⟩)
      · exact creditId_ne_debitId _ _ _ _ (hid.symm.trans hdebit)
    · intro address
      rw [hworth,addressWeight_counted hcounts]
      by_cases haddress : c.address = address
      · simp [haddress,coreCreditMovement,nextBalanceAmount,applyMovementAmount]
      · simp [haddress,coreCreditMovement]
  · rw [if_neg hcounts]
    refine wp_pure (h.uncounted (fun address => ?_) hids)
    rw [hworth,addressWeight_uncounted hcounts,add_zero]

theorem surely_debit {block : ParsedDogecoinBlock} {createdOutputs currentOutputs : OutputMap}
    {spend : CoreDogecoinSpend} {o : ProjectionUtxoOutput} (h : MovesOf L next s)
    (hL : L.spend? spend.outputKey = some L') (hplain : ∀ c ∈ L.created, c.outputKey.Plain)
    (hfound : coreSpentOutput createdOutputs currentOutputs spend = some o)
    (hcoin : L.find spend.outputKey = some (bare o)) (hheight : block.height < next) :
    Surely (forEach (coreSpendAddressMovement (coreBlockApplication block) createdOutputs
        currentOutputs spend) (applyBatchAddressMovementIfUnique blockHeight))
      (fun _ t => MovesOf L' next t ∧ SameOutside s t) s := by
  obtain ⟨hmem,hunspent,hcreated,hspent⟩ := Ledger.spend?_eq_some hL
  have hcoin : L.coin spend.outputKey = some (bare o) := by
    unfold Ledger.coin
    rw [if_neg hunspent,hcoin]
  have hworth (address : String) : L'.worth (addressWeight address) =
      L.worth (addressWeight address) - addressWeight address (bare o) :=
    Ledger.worth_spend (addressWeight address) hL hcoin
  have hbare (address : String) : addressWeight address (bare o) = addressWeight address o := rfl
  have hids : ∀ m ∈ s.addressMovements, IdOf L' m.movementId := by
    intro m hm
    unfold IdOf
    rw [hcreated,hspent]
    rcases h.ids m hm with hcredit | ⟨k,hk,hid⟩
    · exact .inl hcredit
    · exact .inr ⟨k,List.mem_append_left _ hk,hid⟩
  have hplainKey {k : OutputKey} (hk : k ∈ L.created.map (·.outputKey)) : k.Plain := by
    obtain ⟨c,hc,rfl⟩ := List.mem_map.mp hk
    exact hplain c hc
  unfold coreSpendAddressMovement
  rw [hfound]
  simp only
  by_cases hcounts : isCoreAddressMovementOutput o
  · rw [if_pos hcounts]
    refine surely_counted h rfl ?_ ?_ hids
      (.inr ⟨spend.outputKey,by simp [hspent],_,_,rfl⟩) hheight
    · -- a movement with this id would be the debit of an output that is spent already
      intro m hm hid
      rw [coreDebitMovement_id] at hid
      rcases h.ids m hm with ⟨c,-,hcredit⟩ | ⟨k,hk,txid,i,hdebit⟩
      · exact creditId_ne_debitId _ _ _ _ (hcredit.symm.trans hid)
      · have hkey := debitId_injective (hplainKey (L.spent_created k hk)) (hplainKey hmem)
          (hdebit.symm.trans hid)
        exact hunspent (hkey ▸ hk)
    · intro address
      rw [hworth,hbare,addressWeight_counted hcounts]
      by_cases haddress : o.address = address
      · simp [haddress,coreDebitMovement,nextBalanceAmount,applyMovementAmount]
      · simp [haddress,coreDebitMovement]
  · rw [if_neg hcounts]
    refine wp_pure (h.uncounted (fun address => ?_) hids)
    rw [hworth,hbare,addressWeight_uncounted hcounts,sub_zero]

theorem surely_credits {creates : List ProjectionUtxoOutput} (h : MovesOf L next s)
    (hL : L.postAll? (creates.map .create) = some L')
    (hplain : ∀ c ∈ L'.created, c.outputKey.Plain) (hheight : ∀ c ∈ creates, c.blockHeight < next) :
    Surely (forEach (creates.flatMap coreCreateAddressMovement)
        (applyBatchAddressMovementIfUnique blockHeight))
      (fun _ t => MovesOf L' next t ∧ SameOutside s t) s := by
  induction creates generalizing L s with
  | nil =>
    cases hL
    exact wp_pure ⟨h,⟨rfl,rfl,rfl⟩⟩
  | cons c creates ih =>
    obtain ⟨M,hM,hrest⟩ := Option.bind_eq_some_iff.mp hL
    have hplainM : ∀ d ∈ M.created, d.outputKey.Plain := by
      intro d hd
      refine hplain d ?_
      rw [(creates_posted hrest).1]
      exact List.mem_append_left _ hd
    rw [List.flatMap_cons]
    refine wp_forEach_append (wp_mono (surely_credit h hM hplainM (hheight c List.mem_cons_self))
      ?_ (fun _ _ h => h) (fun _ h => h))
    rintro _ t ⟨ht,hout⟩
    refine wp_mono (ih ht hrest (fun d hd => hheight d (List.mem_cons_of_mem _ hd))) ?_
      (fun _ _ h => h) (fun _ h => h)
    exact fun _ u hu => ⟨hu.1,hout.trans hu.2⟩

theorem surely_debits {block : ParsedDogecoinBlock} {createdOutputs currentOutputs : OutputMap}
    {spends : List CoreDogecoinSpend} (h : MovesOf L next s)
    (hL : L.postAll? (spends.map (fun spend => .spend spend.outputKey)) = some L')
    (hplain : ∀ c ∈ L.created, c.outputKey.Plain)
    (hfound : ∀ spend ∈ spends, ∃ o,
      coreSpentOutput createdOutputs currentOutputs spend = some o ∧
        L.find spend.outputKey = some (bare o)) (hheight : block.height < next) :
    Surely (forEach (spends.flatMap (coreSpendAddressMovement (coreBlockApplication block)
        createdOutputs currentOutputs)) (applyBatchAddressMovementIfUnique blockHeight))
      (fun _ t => MovesOf L' next t ∧ SameOutside s t) s := by
  induction spends generalizing L s with
  | nil =>
    cases hL
    exact wp_pure ⟨h,⟨rfl,rfl,rfl⟩⟩
  | cons spend spends ih =>
    obtain ⟨M,hM,hrest⟩ := Option.bind_eq_some_iff.mp hL
    obtain ⟨-,-,hcreated,-⟩ := Ledger.spend?_eq_some hM
    obtain ⟨o,ho,hcoin⟩ := hfound spend List.mem_cons_self
    rw [List.flatMap_cons]
    refine wp_forEach_append (wp_mono (surely_debit h hM hplain ho hcoin hheight) ?_
      (fun _ _ h => h) (fun _ h => h))
    rintro _ t ⟨ht,hout⟩
    refine wp_mono (ih ht hrest (hcreated ▸ hplain) ?_) ?_ (fun _ _ h => h) (fun _ h => h)
    · intro spend' hspend'
      unfold Ledger.find
      rw [hcreated]
      exact hfound spend' (List.mem_cons_of_mem _ hspend')
    · exact fun _ u hu => ⟨hu.1,hout.trans hu.2⟩

end Movements

end OnlyDoge.InMemory
