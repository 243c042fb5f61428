import OnlyDoge.Warehouse.Materialization
import OnlyDoge.Library.Grouping
set_option autoImplicit false

/-!
The address-transaction listing of the ClickHouse adapter (`listAddressTransactions`,
`queryAddressMovementSummary` in `warehouse.ts`) and the aggregation of the in-memory adapter
(`aggregateAddressTransactions` in `warehouse-state.ts`).
-/

namespace OnlyDoge

structure AddressTransactionSummary where
  blockHash : String
  blockHeight : Nat
  blockTime : Nat
  txid : String
  txIndex : Nat
  receivedBase : Nat
  sentBase : Nat
  deriving DecidableEq,Repr

structure AddressTransactionRow where
  summary : AddressTransactionSummary
  isCoinbase : Bool
  inputCount : Nat
  outputCount : Nat
  totalInputBase : Nat
  totalOutputBase : Nat
  feeBase : Option Int
  deriving DecidableEq,Repr

structure AddressMovementSummary where
  receivedBase : Nat
  sentBase : Nat
  txCount : Nat
  deriving DecidableEq,Repr

def isNativeMovement (address : String) (movement : AddressMovement) : Bool :=
  movement.address = address ∧ movement.assetAddress = ""

def sumDirection (direction : Direction) (movements : List AddressMovement) : Nat :=
  ((movements.filter (·.direction = direction)).map (·.amountBase)).sum

/-- `GROUP BY block_height, block_hash, block_time, txid, tx_index`. -/
structure AddressTransactionGroup where
  blockHeight : Nat
  blockHash : String
  blockTime : Nat
  txid : String
  txIndex : Nat
  deriving DecidableEq,Repr

def movementGroup (movement : AddressMovement) : AddressTransactionGroup :=
  ⟨movement.blockHeight,movement.blockHash,movement.blockTime,movement.txid,movement.txIndex⟩

def groupSummary (group : AddressTransactionGroup) (movements : List AddressMovement) :
    AddressTransactionSummary where
  blockHash := group.blockHash
  blockHeight := group.blockHeight
  blockTime := group.blockTime
  txid := group.txid
  txIndex := group.txIndex
  receivedBase := sumDirection .credit movements
  sentBase := sumDirection .debit movements

/-- `ORDER BY block_height DESC, tx_index DESC, txid DESC`. -/
def listedBefore (left right : AddressTransactionSummary) : Bool :=
  if left.blockHeight ≠ right.blockHeight then right.blockHeight < left.blockHeight
  else if left.txIndex ≠ right.txIndex then right.txIndex < left.txIndex
  else !textBefore left.txid right.txid

namespace Warehouse

def nativeMovements (w : Warehouse) (address : String) : List AddressMovement :=
  w.addressMovementsByAddress.filter (isNativeMovement address)

def queryAddressMovementSummary (w : Warehouse) (address : String) : AddressMovementSummary :=
  let movements := w.nativeMovements address
  ⟨sumDirection .credit movements,sumDirection .debit movements,
    (OrderedMap.distinct (movements.map (·.txid))).length⟩

def addressTransactions (w : Warehouse) (address : String) : List AddressTransactionSummary :=
  (Grouping.groupBy movementGroup groupSummary (w.nativeMovements address)).insertionSort
    (fun left right => listedBefore left right)

/-- The joined fact: the greatest version of the rows of the transaction in its block. -/
def addressTransactionFact (w : Warehouse) (row : AddressTransactionSummary) :
    Option AnalyticsTransactionFact :=
  Replacing.latest (fun fact => (fact.blockHeight,fact.blockHash,fact.txid)) (·.version)
    w.analyticsTransactions (row.blockHeight,row.blockHash,row.txid)

def addressTransactionRow (w : Warehouse) (row : AddressTransactionSummary) :
    AddressTransactionRow :=
  match w.addressTransactionFact row with
  | none => ⟨row,false,0,0,0,0,none⟩
  | some fact => ⟨row,fact.isCoinbase,fact.inputCount,fact.outputCount,fact.totalInputBase,
      fact.grossOutputBase,fact.feeBase⟩

/-- One page: the rows after `offset`, at most `limit` of them when a limit is given. -/
def listAddressTransactions (w : Warehouse) (address : String) (offset : Nat)
    (limit : Option Nat) : List AddressTransactionRow :=
  let rows := (w.addressTransactions address).drop offset
  (match limit with
  | none => rows
  | some limit => rows.take limit).map w.addressTransactionRow

end Warehouse

def createAddressTransactionAggregate (movement : AddressMovement) : AddressTransactionSummary :=
  ⟨movement.blockHash,movement.blockHeight,movement.blockTime,movement.txid,movement.txIndex,0,0⟩

def applyMovementAmountToAggregate (current : AddressTransactionSummary)
    (movement : AddressMovement) : AddressTransactionSummary :=
  match movement.direction with
  | .credit => { current with receivedBase := current.receivedBase + movement.amountBase }
  | .debit => { current with sentBase := current.sentBase + movement.amountBase }

def aggregateAddressTransactions (movements : List AddressMovement) :
    OrderedMap String AddressTransactionSummary :=
  Grouping.accumulate (·.txid) createAddressTransactionAggregate applyMovementAmountToAggregate
    movements

section Aggregate

theorem sumDirection_cons (direction : Direction) (m : AddressMovement)
    (ms : List AddressMovement) : sumDirection direction (m::ms) =
      (if m.direction = direction then m.amountBase else 0) + sumDirection direction ms := by
  unfold sumDirection
  by_cases h : m.direction = direction <;> simp [h]

theorem foldl_applyMovementAmountToAggregate (current : AddressTransactionSummary)
    (ms : List AddressMovement) : ms.foldl applyMovementAmountToAggregate current =
      { current with
        receivedBase := current.receivedBase + sumDirection .credit ms
        sentBase := current.sentBase + sumDirection .debit ms } := by
  induction ms generalizing current with
  | nil => simp [sumDirection]
  | cons m ms ih =>
    rw [List.foldl_cons,ih,sumDirection_cons,sumDirection_cons]
    cases h : m.direction <;> simp [applyMovementAmountToAggregate,h,Nat.add_assoc]

/-- The aggregate of a transaction takes its place in the chain from its first movement. -/
theorem aggregateAddressTransactions_get {movements : List AddressMovement} {txid : String}
    {summary : AddressTransactionSummary} :
    (aggregateAddressTransactions movements).get txid = some summary ↔
      ∃ m ms, movements.filter (·.txid = txid) = m::ms ∧
        summary = groupSummary (movementGroup m) (m::ms) := by
  unfold aggregateAddressTransactions
  rw [Grouping.get_accumulate]
  cases hf : movements.filter (·.txid = txid) with
  | nil => simp [Grouping.stepAll]
  | cons m ms =>
    have hfold : Grouping.stepAll createAddressTransactionAggregate applyMovementAmountToAggregate
        none (m::ms) = some (groupSummary (movementGroup m) (m::ms)) := by
      rw [Grouping.stepAll,Grouping.stepAll_some,Option.getD_none,
        foldl_applyMovementAmountToAggregate]
      unfold groupSummary
      rw [sumDirection_cons,sumDirection_cons]
      cases hd : m.direction <;>
        simp [applyMovementAmountToAggregate,createAddressTransactionAggregate,movementGroup,hd]
    rw [hfold,Option.some.injEq]
    constructor
    · rintro rfl
      exact ⟨m,ms,rfl,rfl⟩
    · rintro ⟨m',ms',heq,rfl⟩
      cases heq
      rfl

theorem mem_aggregateAddressTransactions {movements : List AddressMovement}
    {summary : AddressTransactionSummary} :
    summary ∈ (aggregateAddressTransactions movements).values ↔
      ∃ txid m ms, movements.filter (·.txid = txid) = m::ms ∧
        summary = groupSummary (movementGroup m) (m::ms) := by
  simp only [OrderedMap.mem_values,aggregateAddressTransactions_get]

theorem aggregateAddressTransactions_txid {movements : List AddressMovement} {txid : String}
    {summary : AddressTransactionSummary}
    (h : (aggregateAddressTransactions movements).get txid = some summary) :
    summary.txid = txid := by
  obtain ⟨m,ms,hf,rfl⟩ := aggregateAddressTransactions_get.mp h
  have hm : m ∈ movements.filter (·.txid = txid) := by rw [hf]; exact List.mem_cons_self
  exact of_decide_eq_true (List.mem_filter.mp hm).2

theorem aggregateAddressTransactions_nodup (movements : List AddressMovement) :
    ((aggregateAddressTransactions movements).values.map (·.txid)).Nodup := by
  rw [OrderedMap.values_map_key (fun _ _ => aggregateAddressTransactions_txid)]
  exact (aggregateAddressTransactions movements).nodup

theorem length_aggregateAddressTransactions (movements : List AddressMovement) :
    (aggregateAddressTransactions movements).values.length =
      (OrderedMap.distinct (movements.map (·.txid))).length := by
  have hperm : ((aggregateAddressTransactions movements).values.map (·.txid)).Perm
      (OrderedMap.distinct (movements.map (·.txid))) := by
    rw [List.perm_ext_iff_of_nodup (aggregateAddressTransactions_nodup _)
      (OrderedMap.nodup_distinct _)]
    intro txid
    rw [OrderedMap.mem_distinct,List.mem_map,List.mem_map]
    constructor
    · rintro ⟨summary,hs,rfl⟩
      obtain ⟨txid,m,ms,hf,rfl⟩ := mem_aggregateAddressTransactions.mp hs
      have hm : m ∈ movements.filter (·.txid = txid) := by rw [hf]; exact List.mem_cons_self
      exact ⟨m,(List.mem_filter.mp hm).1,rfl⟩
    · rintro ⟨m,hm,rfl⟩
      have hmem : m ∈ movements.filter (·.txid = m.txid) := by simp [hm]
      cases hf : movements.filter (·.txid = m.txid) with
      | nil => simp [hf] at hmem
      | cons x xs =>
        have hx : x ∈ movements.filter (·.txid = m.txid) := by rw [hf]; exact List.mem_cons_self
        refine ⟨groupSummary (movementGroup x) (x::xs),
          mem_aggregateAddressTransactions.mpr ⟨m.txid,x,xs,hf,rfl⟩,?_⟩
        exact of_decide_eq_true (List.mem_filter.mp hx).2
  simpa using hperm.length_eq

end Aggregate

section Listing
variable {w : Warehouse} {address : String}

/-- Every movement of a transaction stands at one place of the chain. -/
def OnePlacePerTxid (movements : List AddressMovement) : Prop :=
  ∀ m ∈ movements, ∀ m' ∈ movements, m.txid = m'.txid → movementGroup m = movementGroup m'

/-- Whatever the page size, the pages hold the aggregates of the in-memory adapter, as many as
the summary of the address counts. -/
def Warehouse.ListsEachTransactionOnce (w : Warehouse) (address : String) : Prop :=
  ∀ limit n, 0 < limit → w.addressMovementsByAddress.length ≤ n →
    ((Grouping.pages (fun offset => w.listAddressTransactions address offset (some limit))
      limit n).map (·.summary)).Perm
        (aggregateAddressTransactions (w.nativeMovements address)).values ∧
    (Grouping.pages (fun offset => w.listAddressTransactions address offset (some limit))
      limit n).length = (w.queryAddressMovementSummary address).txCount

theorem addressTransactions_perm (w : Warehouse) (address : String) :
    (w.addressTransactions address).Perm
      (Grouping.groupBy movementGroup groupSummary (w.nativeMovements address)) :=
  List.perm_insertionSort _ _

@[simp] theorem addressTransactionRow_summary (w : Warehouse) (row : AddressTransactionSummary) :
    (w.addressTransactionRow row).summary = row := by
  unfold Warehouse.addressTransactionRow
  cases w.addressTransactionFact row <;> rfl

theorem pages_listAddressTransactions (address : String) {limit n : Nat} (hlimit : 0 < limit)
    (hn : w.addressMovementsByAddress.length ≤ n) :
    (Grouping.pages (fun offset => w.listAddressTransactions address offset (some limit))
      limit n).map (·.summary) = w.addressTransactions address := by
  have hlength : (w.addressTransactions address).length ≤ n := by
    rw [(addressTransactions_perm w address).length_eq]
    refine Nat.le_trans (Grouping.length_groupBy_le _ _ _) (Nat.le_trans ?_ hn)
    exact List.length_filter_le _ _
  rw [← Grouping.pages_eq hlimit hlength]
  unfold Grouping.pages Warehouse.listAddressTransactions
  rw [List.map_flatMap]
  congr 1
  funext i
  simp [Function.comp_def]

theorem groupBy_perm_iff {movements : List AddressMovement} :
    (Grouping.groupBy movementGroup groupSummary movements).Perm
      (aggregateAddressTransactions movements).values ↔ OnePlacePerTxid movements := by
  have hmem {m : AddressMovement} (hm : m ∈ movements) :
      groupSummary (movementGroup m) (movements.filter (movementGroup · = movementGroup m)) ∈
        Grouping.groupBy movementGroup groupSummary movements :=
    Grouping.mem_groupBy.mpr ⟨m,hm,rfl⟩
  constructor
  · intro hperm m hm m' hm' htxid
    -- both groups carry the txid, and the aggregates carry it once
    have hin := hperm.mem_iff.mp (hmem hm)
    have hin' := hperm.mem_iff.mp (hmem hm')
    have heq := List.inj_on_of_nodup_map (aggregateAddressTransactions_nodup movements) hin hin'
      htxid
    have hplace := AddressTransactionSummary.mk.inj heq
    obtain ⟨hhash,hheight,htime,-,hindex,-⟩ := hplace
    simp only [movementGroup] at *
    simp [hhash,hheight,htime,hindex,htxid]
  · intro hplace
    have hnodup : (Grouping.groupBy movementGroup groupSummary movements).Nodup :=
      Grouping.groupBy_nodup (fun s => (⟨s.blockHeight,s.blockHash,s.blockTime,s.txid,s.txIndex⟩ :
        AddressTransactionGroup)) (fun _ _ => rfl)
    have hfilter {m : AddressMovement} (hm : m ∈ movements) :
        movements.filter (movementGroup · = movementGroup m) =
          movements.filter (·.txid = m.txid) := by
      refine List.filter_congr (fun x hx => ?_)
      by_cases h : x.txid = m.txid
      · simp [h,hplace x hx m hm h]
      · have hne : movementGroup x ≠ movementGroup m := fun hg =>
          h (AddressTransactionGroup.mk.inj hg).2.2.2.1
        simp [h,hne]
    rw [List.perm_ext_iff_of_nodup hnodup (aggregateAddressTransactions_nodup movements).of_map]
    intro summary
    rw [Grouping.mem_groupBy,mem_aggregateAddressTransactions]
    constructor
    · rintro ⟨m,hm,rfl⟩
      rw [hfilter hm]
      have hself : m ∈ movements.filter (·.txid = m.txid) := by simp [hm]
      cases hf : movements.filter (·.txid = m.txid) with
      | nil => simp [hf] at hself
      | cons x xs =>
        have hx : x ∈ movements.filter (·.txid = m.txid) := by rw [hf]; exact List.mem_cons_self
        obtain ⟨hx,htxid⟩ := List.mem_filter.mp hx
        rw [← hplace x hx m hm (of_decide_eq_true htxid)]
        exact ⟨m.txid,x,xs,hf,rfl⟩
    · rintro ⟨txid,m,ms,hf,rfl⟩
      have hm : m ∈ movements.filter (·.txid = txid) := by rw [hf]; exact List.mem_cons_self
      obtain ⟨hmem,htxid⟩ := List.mem_filter.mp hm
      obtain rfl := of_decide_eq_true htxid
      exact ⟨m,hmem,by rw [hfilter hmem,hf]⟩

/-- The listing has one row for each transaction exactly when the movements of a transaction
agree on its place. -/
theorem listsEachTransactionOnce_iff :
    w.ListsEachTransactionOnce address ↔ OnePlacePerTxid (w.nativeMovements address) := by
  rw [← groupBy_perm_iff]
  have hperm := addressTransactions_perm w address
  constructor
  · intro h
    have hpages := (h 1 w.addressMovementsByAddress.length Nat.one_pos (Nat.le_refl _)).1
    rw [pages_listAddressTransactions address Nat.one_pos (Nat.le_refl _)] at hpages
    exact hperm.symm.trans hpages
  · intro h limit n hlimit hn
    have hpages := pages_listAddressTransactions address hlimit hn
    have hrows : (w.addressTransactions address).Perm
        (aggregateAddressTransactions (w.nativeMovements address)).values := hperm.trans h
    refine ⟨hpages ▸ hrows,?_⟩
    have hlength := congrArg List.length hpages
    rw [List.length_map,hrows.length_eq,length_aggregateAddressTransactions] at hlength
    exact hlength

end Listing

end OnlyDoge
