import OnlyDoge.Warehouse.Listing
import OnlyDoge.Warehouse.InMemory
set_option autoImplicit false

/-!
What the adapters answer about one address: its unspent outputs, its balance and its summary
(`listAddressUtxos`, `getAddressSummary` and `getCurrentAddressSummary` in `warehouse.ts`).
-/

namespace OnlyDoge

structure AddressSummary where
  balance : Int
  receivedBase : Nat
  sentBase : Nat
  txCount : Nat
  utxoCount : Nat
  deriving DecidableEq,Repr

structure CurrentAddressSummary where
  balance : Int
  utxoCount : Nat
  deriving DecidableEq,Repr

/-- `LIMIT` and `OFFSET`, and `slice(offset, offset + limit)`. -/
def pageOf {α : Type} (offset : Nat) (limit : Option Nat) (rows : List α) : List α :=
  match limit with
  | none => rows.drop offset
  | some limit => (rows.drop offset).take limit

def isEmptyCurrentAddressSummary (balance : Int) (utxoCount : Nat) : Bool :=
  decide (balance = 0) && decide (utxoCount = 0)

/-- `ORDER BY block_height DESC, tx_index DESC, vout ASC`. -/
def utxoListedBefore (left right : ProjectionUtxoOutput) : Bool :=
  if left.blockHeight ≠ right.blockHeight then right.blockHeight < left.blockHeight
  else if left.txIndex ≠ right.txIndex then right.txIndex < left.txIndex
  else left.vout ≤ right.vout

namespace Warehouse

/-- The rows of the address by greatest version, and of them the spendable unspent outputs. -/
def unspentByAddress (w : Warehouse) (address : String) : List ProjectionUtxoOutput :=
  ((Replacing.collapse UtxoRow.key UtxoRow.version
    (w.currentUtxosByAddress.filter (·.output.address = address))).map (·.output)).filter
      (fun output => output.isSpendable && output.unspent)

def queryNativeBalance (w : Warehouse) (address : String) : Int :=
  sumValues (w.unspentByAddress address)

def querySpendableUtxoCount (w : Warehouse) (address : String) : Nat :=
  (w.unspentByAddress address).length

def listAddressUtxos (w : Warehouse) (address : String) (offset : Nat) (limit : Option Nat) :
    List ProjectionUtxoOutput :=
  pageOf offset limit
    ((w.unspentByAddress address).insertionSort fun left right => utxoListedBefore left right)

/-- A missing row of the movement query would leave no summary for an empty address. -/
def buildClickHouseAddressSummary (movement : Option AddressMovementSummary) (balance : Int)
    (utxoCount : Nat) : Option AddressSummary :=
  match movement with
  | some movement =>
    some ⟨balance,movement.receivedBase,movement.sentBase,movement.txCount,utxoCount⟩
  | none =>
    if isEmptyCurrentAddressSummary balance utxoCount then none
    else some ⟨balance,0,0,0,utxoCount⟩

/-- An aggregate without `GROUP BY` has a row for no movements, too. -/
def getAddressSummary (w : Warehouse) (address : String) : Option AddressSummary :=
  buildClickHouseAddressSummary (some (w.queryAddressMovementSummary address))
    (w.queryNativeBalance address) (w.querySpendableUtxoCount address)

def getCurrentAddressSummary (w : Warehouse) (address : String) : Option CurrentAddressSummary :=
  (w.getAddressSummary address).map fun summary => ⟨summary.balance,summary.utxoCount⟩

/-- The greatest versions of the create and of the spend, whatever their heights. -/
def coreUtxoOutput (w : Warehouse) (outputKey : OutputKey) : Option ProjectionUtxoOutput :=
  (w.latestCoreCreate outputKey).map fun created =>
    { created with
      spentBy := (w.latestCoreSpend outputKey).map
        (fun s => ⟨s.spentByTxid,s.spentInBlock,s.spentInputIndex⟩) }

def queryCoreUtxoOutputRows (outputKeys : List OutputKey) (w : Warehouse) :
    List ProjectionUtxoOutput :=
  (OrderedMap.distinct outputKeys).filterMap w.coreUtxoOutput

def queryUtxoOutputsFromTable (outputKeys : List OutputKey) (w : Warehouse) :
    List ProjectionUtxoOutput :=
  outputKeys.filterMap fun key => (w.latestUtxoRow key).map (·.output)

end Warehouse

def addCurrentUtxoOutputs (rows : List ProjectionUtxoOutput) (currentOutputs : OutputMap) :
    OutputMap :=
  rows.foldl (fun outputs row => outputs.set row.outputKey row) currentOutputs

def fallbackUtxoVersion (row : ProjectionUtxoOutput) : Nat :=
  match row.spentBy with
  | none => row.blockHeight
  | some spent => spent.spentInBlock

def insertFallbackUtxoOutputsIfPresent (fallbackRows : List ProjectionUtxoOutput)
    (currentOutputs : OutputMap) : WarehouseJob OutputMap :=
  if fallbackRows = [] then pure currentOutputs
  else do
    insertRows Warehouse.insertCurrentUtxos
      (fallbackRows.map (fun row => ⟨row,fallbackUtxoVersion row⟩))
    return addCurrentUtxoOutputs fallbackRows currentOutputs

def addFallbackUtxoOutputs (missingOutputKeys : List OutputKey) (currentOutputs : OutputMap) :
    WarehouseJob OutputMap := do
  let fallbackRows ← Job.read (Warehouse.queryUtxoOutputsFromTable missingOutputKeys)
  insertFallbackUtxoOutputsIfPresent fallbackRows currentOutputs

def addHistoricalUtxoOutputsIfMissing (outputKeys : List OutputKey)
    (currentOutputs : OutputMap) : WarehouseJob OutputMap :=
  let stillMissingOutputKeys := missingUtxoOutputKeys outputKeys currentOutputs
  if stillMissingOutputKeys = [] then pure currentOutputs
  else do
    let rows ← Job.read (Warehouse.queryCoreUtxoOutputRows stillMissingOutputKeys)
    return addCurrentUtxoOutputs rows currentOutputs

def addMissingUtxoOutputs (outputKeys : List OutputKey) (currentOutputs : OutputMap) :
    WarehouseJob OutputMap :=
  let missingOutputKeys := missingUtxoOutputKeys outputKeys currentOutputs
  if missingOutputKeys = [] then pure currentOutputs
  else do
    let withFallback ← addFallbackUtxoOutputs missingOutputKeys currentOutputs
    addHistoricalUtxoOutputsIfMissing outputKeys withFallback

/-- The current rows first, then what only the core tables still have. -/
def Warehouse.getUtxoOutputs (outputKeys : List OutputKey) : WarehouseJob OutputMap :=
  if outputKeys = [] then pure .empty
  else do
    let currentOutputs ← Job.read (Warehouse.getCurrentUtxoOutputMap outputKeys)
    addMissingUtxoOutputs outputKeys currentOutputs

namespace InMemory

structure AddressMovementTotals where
  receivedBase : Nat
  sentBase : Nat
  txCount : Nat
  deriving DecidableEq,Repr

/-- The variables of the loop of `summarizeNativeMovements`. -/
structure MovementLoop where
  txids : List String
  receivedBase : Nat
  sentBase : Nat

def addToSet (txids : List String) (txid : String) : List String :=
  if txid ∈ txids then txids else txids ++ [txid]

def nativeMovementTotals (loop : MovementLoop) (movement : AddressMovement) : MovementLoop :=
  match movement.direction with
  | .credit => ⟨addToSet loop.txids movement.txid,loop.receivedBase + movement.amountBase,
      loop.sentBase⟩
  | .debit => ⟨addToSet loop.txids movement.txid,loop.receivedBase,
      loop.sentBase + movement.amountBase⟩

def summarizeNativeMovements (movements : List AddressMovement) : AddressMovementTotals :=
  let loop := movements.foldl nativeMovementTotals ⟨[],0,0⟩
  ⟨loop.receivedBase,loop.sentBase,loop.txids.length⟩

def inMemoryAddressSummary (balance : Int) (totals : AddressMovementTotals) (utxoCount : Nat) :
    Option AddressSummary :=
  if totals.txCount = 0 ∧ balance = 0 ∧ utxoCount = 0 then none
  else some ⟨balance,totals.receivedBase,totals.sentBase,totals.txCount,utxoCount⟩

def currentAddressSummaryOrNull (balance : Int) (utxoCount : Nat) :
    Option CurrentAddressSummary :=
  if isEmptyCurrentAddressSummary balance utxoCount then none else some ⟨balance,utxoCount⟩

def isSpendableAddressUtxo (address : String) (candidate : ProjectionUtxoOutput) : Bool :=
  decide (candidate.address = address) && candidate.isSpendable && candidate.unspent

def firstNonZero (values : List Int) : Int := (values.find? (· ≠ 0)).getD 0

def compareAddressUtxos (left right : ProjectionUtxoOutput) : Int :=
  firstNonZero [(right.blockHeight : Int) - left.blockHeight,(right.txIndex : Int) - left.txIndex,
    (left.vout : Int) - right.vout]

namespace WarehouseState

def getNativeMovements (s : WarehouseState) (address : String) : List AddressMovement :=
  s.addressMovements.filter (isNativeMovement address)

def countSpendableUtxos (s : WarehouseState) (address : String) : Nat :=
  (s.utxoOutputs.filter (isSpendableAddressUtxo address)).length

def listAddressUtxos (s : WarehouseState) (address : String) (offset : Nat)
    (limit : Option Nat) : List ProjectionUtxoOutput :=
  pageOf offset limit ((s.utxoOutputs.filter (isSpendableAddressUtxo address)).insertionSort
    fun left right => compareAddressUtxos left right ≤ 0)

def getAddressSummary (s : WarehouseState) (address : String) : Option AddressSummary :=
  inMemoryAddressSummary (s.addressBalance address)
    (summarizeNativeMovements (s.getNativeMovements address)) (s.countSpendableUtxos address)

def getCurrentAddressSummary (s : WarehouseState) (address : String) :
    Option CurrentAddressSummary :=
  currentAddressSummaryOrNull (s.addressBalance address) (s.countSpendableUtxos address)

end WarehouseState

theorem foldl_nativeMovementTotals (movements : List AddressMovement) (loop : MovementLoop) :
    movements.foldl nativeMovementTotals loop =
      ⟨(movements.map (·.txid)).foldl addToSet loop.txids,
        loop.receivedBase + sumDirection .credit movements,
        loop.sentBase + sumDirection .debit movements⟩ := by
  induction movements generalizing loop with
  | nil => rfl
  | cons m ms ih =>
    rw [List.foldl_cons,ih,sumDirection_cons,sumDirection_cons]
    unfold nativeMovementTotals
    cases m.direction <;> simp [Nat.add_assoc]

theorem foldl_addToSet {xs txids : List String} (h : txids.Nodup) :
    (xs.foldl addToSet txids).Nodup ∧
      ∀ txid, txid ∈ xs.foldl addToSet txids ↔ txid ∈ txids ∨ txid ∈ xs := by
  induction xs generalizing txids with
  | nil => exact ⟨h,fun txid => by simp⟩
  | cons x xs ih =>
    by_cases hx : x ∈ txids
    · obtain ⟨hnodup,hmem⟩ := ih h
      rw [List.foldl_cons,addToSet,if_pos hx]
      refine ⟨hnodup,fun txid => ?_⟩
      rw [hmem,List.mem_cons]
      constructor
      · rintro (hold | hnew)
        · exact Or.inl hold
        · exact Or.inr (Or.inr hnew)
      · rintro (hold | rfl | hnew)
        · exact Or.inl hold
        · exact Or.inl hx
        · exact Or.inr hnew
    · have happend : (txids ++ [x]).Nodup := by
        rw [List.nodup_append]
        refine ⟨h,List.nodup_singleton x,fun a ha b hb heq => hx ?_⟩
        rw [List.mem_singleton.mp hb] at heq
        exact heq ▸ ha
      obtain ⟨hnodup,hmem⟩ := ih happend
      rw [List.foldl_cons,addToSet,if_neg hx]
      exact ⟨hnodup,fun txid => by rw [hmem]; simp [or_assoc]⟩

theorem summarizeNativeMovements_eq (movements : List AddressMovement) :
    summarizeNativeMovements movements =
      ⟨sumDirection .credit movements,sumDirection .debit movements,
        (OrderedMap.distinct (movements.map (·.txid))).length⟩ := by
  obtain ⟨hnodup,hmem⟩ := @foldl_addToSet (movements.map (·.txid)) [] List.nodup_nil
  have hperm : ((movements.map (·.txid)).foldl addToSet []).Perm
      (OrderedMap.distinct (movements.map (·.txid))) := by
    rw [List.perm_ext_iff_of_nodup hnodup (OrderedMap.nodup_distinct _)]
    intro txid
    rw [hmem,OrderedMap.mem_distinct]
    simp
  unfold summarizeNativeMovements
  simp only [foldl_nativeMovementTotals,Nat.zero_add,hperm.length_eq]

theorem compareAddressUtxos_le (left right : ProjectionUtxoOutput) :
    compareAddressUtxos left right ≤ 0 ↔ utxoListedBefore left right = true := by
  unfold compareAddressUtxos firstNonZero utxoListedBefore
  by_cases hheight : left.blockHeight = right.blockHeight
  · by_cases hindex : left.txIndex = right.txIndex
    · by_cases hvout : left.vout = right.vout
      · simp [hheight,hindex,hvout]
      · have hne : (left.vout : Int) - right.vout ≠ 0 := by omega
        simp only [hheight,hindex,sub_self,ne_eq,not_true_eq_false,decide_false,List.find?_cons,
          hne,not_false_eq_true,decide_true,Option.getD_some,if_false,decide_eq_true_eq]
        omega
    · have hne : (right.txIndex : Int) - left.txIndex ≠ 0 := by omega
      simp only [hheight,sub_self,ne_eq,not_true_eq_false,decide_false,List.find?_cons,hne,
        not_false_eq_true,decide_true,Option.getD_some,if_false,hindex,if_true,decide_eq_true_eq]
      omega
  · have hne : (right.blockHeight : Int) - left.blockHeight ≠ 0 := by omega
    simp only [ne_eq,List.find?_cons,hne,not_false_eq_true,decide_true,Option.getD_some,hheight,
      if_true,decide_eq_true_eq]
    omega

end InMemory
end OnlyDoge
