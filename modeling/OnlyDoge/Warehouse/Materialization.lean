import OnlyDoge.Warehouse.CurrentState
import OnlyDoge.Library.Job
import OnlyDoge.Library.HexText
set_option autoImplicit false

/-!
Deleting the tail of the core tables and rebuilding the current state from the facts
(`deleteCoreDogecoinTail`, `materializeCoreDogecoinCurrentState` in `warehouse.ts`, and
`clickhouse-core-dogecoin.ts`).
-/

namespace OnlyDoge
open HexText

abbrev WarehouseJob (α : Type) := Job Warehouse CoreError α

structure ClickHouseStringRange where
  start : Option String
  «end» : Option String
  deriving DecidableEq,Repr

def charsBefore : List Char → List Char → Bool
  | _,[] => false
  | [],_::_ => true
  | a::as,b::bs => if a = b then charsBefore as bs else decide (a.val < b.val)

/-- The order of texts by code point, which is also that of their UTF-8 bytes. -/
def textBefore (left right : String) : Bool := charsBefore left.toList right.toList

/-- `column >= start AND column < end`, a missing bound being no condition. -/
def ClickHouseStringRange.contains (range : ClickHouseStringRange) (text : String) : Bool :=
  range.start.all (fun start => !textBefore text start) &&
    range.end.all (fun stop => textBefore text stop)

/-- `value.toString(16).padStart(width, '0')`. -/
def hexText (width value : Nat) : String := padStart width (Nat.toDigits 16 value)

def coreCurrentStateOutputRange (buckets prefixLength value : Nat) : ClickHouseStringRange where
  start := some (hexText prefixLength value)
  «end» := some (if value + 1 = buckets then "g" else hexText prefixLength (value + 1))

def buildCoreCurrentStateOutputKeyRanges (prefixLength : Nat) : List ClickHouseStringRange :=
  let buckets := 16 ^ prefixLength
  ⟨none,some (String.ofList (List.replicate prefixLength '0'))⟩ ::
    (List.range buckets).map (coreCurrentStateOutputRange buckets prefixLength) ++
    [⟨some "g",none⟩]

def coreCurrentStateRangePrefixLength (createdOutputRows : Nat) : Nat :=
  if createdOutputRows > 256 * 1000000 then 3 else 2

def stringRangesFrom : Option String → List String → List ClickHouseStringRange
  | start,[] => [⟨start,none⟩]
  | start,boundary::boundaries =>
    ⟨start,some boundary⟩ :: stringRangesFrom (some boundary) boundaries

def utf16Units (c : Char) : List Nat :=
  if c.toNat < 0x10000 then [c.toNat]
  else [0xd800 + (c.toNat - 0x10000) / 0x400,0xdc00 + (c.toNat - 0x10000) % 0x400]

def unitsBefore : List Nat → List Nat → Bool
  | _,[] => false
  | [],_::_ => true
  | a::as,b::bs => if a = b then unitsBefore as bs else decide (a < b)

/-- The order of `Array.prototype.sort` on strings, which compares UTF-16 code units. -/
def codeUnitsBefore (left right : String) : Bool :=
  unitsBefore (left.toList.flatMap utf16Units) (right.toList.flatMap utf16Units)

def sortedBoundaries (boundaries : List String) : List String :=
  (OrderedMap.distinct (boundaries.filter (· ≠ ""))).insertionSort
    (fun left right => !codeUnitsBefore right left)

/-- `[null, b1), [b1, b2), ..., [bn, null)` for sorted, distinct boundaries. -/
def stringRangesFromBoundaries (boundaries : List String) : List ClickHouseStringRange :=
  stringRangesFrom none (sortedBoundaries boundaries)

/-- The tables that a rewind cuts, in the order of the statements. -/
inductive CoreTailTable where
  | coreUtxoCreates
  | coreUtxoSpends
  | coreProcessedBlocks
  | addressMovements
  | addressMovementsByAddress
  | appliedBlocks
  | analyticsTransactions
  | transactionRefs
  deriving DecidableEq,Repr

def coreTailTables : List CoreTailTable :=
  [.coreUtxoCreates,.coreUtxoSpends,.coreProcessedBlocks,.addressMovements,
    .addressMovementsByAddress,.appliedBlocks,.analyticsTransactions,.transactionRefs]

namespace Warehouse

/-- The heights of a table's rows, in the column that the rewind compares. -/
def tailHeights (w : Warehouse) : CoreTailTable → List Nat
  | .coreUtxoCreates => w.coreUtxoCreates.map (·.blockHeight)
  | .coreUtxoSpends => w.coreUtxoSpends.map (·.spentInBlock)
  | .coreProcessedBlocks => w.coreProcessedBlocks.map (·.blockHeight)
  | .addressMovements => w.addressMovements.map (·.blockHeight)
  | .addressMovementsByAddress => w.addressMovementsByAddress.map (·.blockHeight)
  | .appliedBlocks => w.appliedBlocks.map (·.blockHeight)
  | .analyticsTransactions => w.analyticsTransactions.map (·.blockHeight)
  | .transactionRefs => w.transactionRefs.map (·.blockHeight)

def deleteTail (fromBlockHeight : Nat) (table : CoreTailTable) (w : Warehouse) : Warehouse :=
  match table with
  | .coreUtxoCreates =>
    { w with coreUtxoCreates := w.coreUtxoCreates.filter (·.blockHeight < fromBlockHeight) }
  | .coreUtxoSpends =>
    { w with coreUtxoSpends := w.coreUtxoSpends.filter (·.spentInBlock < fromBlockHeight) }
  | .coreProcessedBlocks =>
    { w with
      coreProcessedBlocks := w.coreProcessedBlocks.filter (·.blockHeight < fromBlockHeight) }
  | .addressMovements =>
    { w with addressMovements := w.addressMovements.filter (·.blockHeight < fromBlockHeight) }
  | .addressMovementsByAddress =>
    { w with
      addressMovementsByAddress :=
        w.addressMovementsByAddress.filter (·.blockHeight < fromBlockHeight) }
  | .appliedBlocks =>
    { w with appliedBlocks := w.appliedBlocks.filter (·.blockHeight < fromBlockHeight) }
  | .analyticsTransactions =>
    { w with
      analyticsTransactions := w.analyticsTransactions.filter (·.blockHeight < fromBlockHeight) }
  | .transactionRefs =>
    { w with transactionRefs := w.transactionRefs.filter (·.blockHeight < fromBlockHeight) }

/-- The materialized view copies every row into the by-address table. -/
def insertCurrentUtxos (rows : List UtxoRow) (w : Warehouse) : Warehouse :=
  { w with
    currentUtxos := w.currentUtxos ++ rows
    currentUtxosByAddress := w.currentUtxosByAddress ++ rows }

def insertBalances (rows : List VersionedBalanceRow) (w : Warehouse) : Warehouse :=
  { w with balances := w.balances ++ rows }

def insertAnalyticsBalances (rows : List VersionedBalanceRow) (w : Warehouse) : Warehouse :=
  { w with analyticsBalances := w.analyticsBalances ++ rows }

def insertAppliedBlocks (rows : List ProjectionAppliedBlock) (w : Warehouse) : Warehouse :=
  { w with appliedBlocks := w.appliedBlocks ++ rows }

/-- Latest creates of a key range up to a height that no spend up to the height takes. -/
def materializedUtxos (w : Warehouse) (asOfBlockHeight : Nat) (range : ClickHouseStringRange) :
    List UtxoRow :=
  let creates := (w.upTo asOfBlockHeight).coreUtxoCreates.filter
    (fun c => range.contains c.outputKey.text)
  let spends := (w.upTo asOfBlockHeight).coreUtxoSpends.filter
    (fun s => range.contains s.outputKey.text)
  ((Replacing.collapse (·.outputKey) (·.blockHeight) creates).filter
    (fun c => c.outputKey ∉ spends.map (·.outputKey))).map
      (fun c => ⟨{ c with spentBy := none },asOfBlockHeight⟩)

def byAddressKey (row : UtxoRow) : String × OutputKey := (row.output.address,row.output.outputKey)

/-- The by-address rows that count towards a balance, read with `FINAL`. -/
def balanceSource (w : Warehouse) (range : ClickHouseStringRange) : List ProjectionUtxoOutput :=
  ((Replacing.collapse byAddressKey UtxoRow.version w.currentUtxosByAddress).map
    (·.output)).filter (fun output => output.isSpendable && decide (output.address ≠ "") &&
      output.unspent && range.contains output.address)

def sumValues (outputs : List ProjectionUtxoOutput) : Int :=
  (outputs.map (fun output => (output.valueBase : Int))).sum

def materializedBalances (w : Warehouse) (asOfBlockHeight : Nat) (range : ClickHouseStringRange) :
    List VersionedBalanceRow :=
  let source := w.balanceSource range
  (OrderedMap.distinct (source.map (·.address))).map fun address =>
    ⟨address,"",sumValues (source.filter (·.address = address)),asOfBlockHeight,asOfBlockHeight⟩

def materializedAppliedBlocks (w : Warehouse) (startHeight endHeight : Nat) :
    List ProjectionAppliedBlock :=
  (Replacing.collapse (·.blockHeight) (·.version) (w.coreProcessedBlocks.filter
    (fun row => startHeight ≤ row.blockHeight ∧ row.blockHeight ≤ endHeight))).map
      (fun row => ⟨row.blockHeight,row.blockHash⟩)

end Warehouse

/-- Tail cleanup waits until no window insert runs on the server, so that a call which was
lost to its caller has landed or not before the first deletion. -/
def waitForCoreWindowInserts : WarehouseJob Unit := Job.read (fun _ => ())

def deleteCoreDogecoinTailTable (fromBlockHeight : Nat) (table : CoreTailTable) :
    WarehouseJob Unit := do
  let present ← Job.read (fun w => (w.tailHeights table).any (fromBlockHeight ≤ ·))
  Job.when present (Job.write (Warehouse.deleteTail fromBlockHeight table))

def deleteCoreDogecoinTail (fromBlockHeight : Nat) : WarehouseJob Unit := do
  waitForCoreWindowInserts
  Job.forEach coreTailTables (deleteCoreDogecoinTailTable fromBlockHeight)

def clearCurrentStateSteps : List (Warehouse → Warehouse) :=
  [fun w => { w with currentUtxos := [] },fun w => { w with currentUtxosByAddress := [] },
    fun w => { w with balances := [] },fun w => { w with appliedBlocks := [] },
    fun w => { w with analyticsBalances := [] }]

def clearCoreDogecoinCurrentState : WarehouseJob Unit :=
  Job.forEach clearCurrentStateSteps Job.write

def clearDerivedStateSteps : List (Warehouse → Warehouse) :=
  [fun w => { w with balances := [] },fun w => { w with analyticsBalances := [] },
    fun w => { w with appliedBlocks := [] }]

def clearCoreDerivedState : WarehouseJob Unit :=
  Job.forEach clearDerivedStateSteps Job.write

def coreCurrentStateRanges : WarehouseJob (List ClickHouseStringRange) := do
  let createdOutputRows ← Job.read (fun w => w.coreUtxoCreates.length)
  return buildCoreCurrentStateOutputKeyRanges (coreCurrentStateRangePrefixLength createdOutputRows)

/-- `context.materialization`: the checkpoint to resume from, and what to do after each range
with the number of completed ranges and of all ranges. -/
structure MaterializationContext (σ : Type) where
  warehouse : StatePart σ Warehouse
  resumeFrom : Option (Nat × Nat)
  onRangeCompleted : Nat → Nat → Job σ CoreError Unit

def resumableCompletedRanges (resumeFrom : Option (Nat × Nat)) (rangeCount : Nat) : Nat :=
  match resumeFrom with
  | none => 0
  | some (completedRanges,resumeRangeCount) =>
    if resumeRangeCount ≠ rangeCount then 0 else min rangeCount completedRanges

section Materialize
variable {σ : Type} (context : MaterializationContext σ)

def insertCoreCurrentUtxoRange (asOfBlockHeight completedRanges rangeCount : Nat)
    (entry : ClickHouseStringRange × Nat) : Job σ CoreError Unit :=
  let (range,index) := entry
  if index < completedRanges then pure ()
  else do
    Job.zoom context.warehouse
      (Job.write (fun w => w.insertCurrentUtxos (w.materializedUtxos asOfBlockHeight range)))
    context.onRangeCompleted (index + 1) rangeCount

def insertCoreCurrentUtxoRanges (asOfBlockHeight completedRanges : Nat)
    (ranges : List ClickHouseStringRange) : Job σ CoreError Unit :=
  Job.forEach ranges.zipIdx
    (insertCoreCurrentUtxoRange context asOfBlockHeight completedRanges ranges.length)

end Materialize

/-- Both balance tables get the rows of one address range before the next range. -/
def insertCoreCurrentBalanceRange (asOfBlockHeight : Nat) (range : ClickHouseStringRange) :
    WarehouseJob Unit := do
  Job.write (fun w => w.insertBalances (w.materializedBalances asOfBlockHeight range))
  Job.write (fun w => w.insertAnalyticsBalances (w.materializedBalances asOfBlockHeight range))

/-- The boundaries come from the table's primary index; any list of texts may be read. -/
def insertCoreCurrentBalances (boundaries : Warehouse → List String) (asOfBlockHeight : Nat) :
    WarehouseJob Unit := do
  let rows ← Job.read boundaries
  Job.forEach (stringRangesFromBoundaries rows) (insertCoreCurrentBalanceRange asOfBlockHeight)

def coreAppliedBlockHeightsPerRange : Nat := 500000

def insertCoreAppliedBlockRange (asOfBlockHeight index : Nat) : WarehouseJob Unit :=
  let startHeight := index * coreAppliedBlockHeightsPerRange
  Job.write (fun w => w.insertAppliedBlocks (w.materializedAppliedBlocks startHeight
    (min asOfBlockHeight (startHeight + coreAppliedBlockHeightsPerRange - 1))))

def insertCoreAppliedBlocks (asOfBlockHeight : Nat) : WarehouseJob Unit :=
  Job.forEach (List.range (asOfBlockHeight / coreAppliedBlockHeightsPerRange + 1))
    (insertCoreAppliedBlockRange asOfBlockHeight)

section Materialize
variable {σ : Type} (context : MaterializationContext σ)
variable (boundaries : Warehouse → List String)

def insertCoreCurrentStateMaterialization (asOfBlockHeight completedRanges : Nat)
    (ranges : List ClickHouseStringRange) : Job σ CoreError Unit := do
  insertCoreCurrentUtxoRanges context asOfBlockHeight completedRanges ranges
  Job.when (completedRanges > 0) (Job.zoom context.warehouse clearCoreDerivedState)
  Job.zoom context.warehouse (insertCoreCurrentBalances boundaries asOfBlockHeight)
  Job.zoom context.warehouse (insertCoreAppliedBlocks asOfBlockHeight)

def materializeCoreDogecoinCurrentState (asOfBlockHeight : Nat) : Job σ CoreError Unit := do
  let ranges ← Job.zoom context.warehouse coreCurrentStateRanges
  let completedRanges := resumableCompletedRanges context.resumeFrom ranges.length
  Job.when (completedRanges = 0) (Job.zoom context.warehouse clearCoreDogecoinCurrentState)
  insertCoreCurrentStateMaterialization context boundaries asOfBlockHeight completedRanges ranges

end Materialize

def rewindMaterialization : MaterializationContext Warehouse :=
  ⟨.whole Warehouse,none,fun _ _ => pure ()⟩

/-- `fromBlockHeight - 1` is negative when everything was removed; then nothing is rebuilt. -/
def rematerializeCoreCurrentStateBelow (boundaries : Warehouse → List String)
    (fromBlockHeight : Nat) : WarehouseJob Unit := do
  clearCoreDogecoinCurrentState
  match fromBlockHeight with
  | 0 => pure ()
  | asOfBlockHeight + 1 =>
    let ranges ← coreCurrentStateRanges
    insertCoreCurrentStateMaterialization rewindMaterialization boundaries asOfBlockHeight 0 ranges

end OnlyDoge
