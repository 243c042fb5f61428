import OnlyDoge.Warehouse.AppliedBlocks
import OnlyDoge.Warehouse.KeyRanges
import OnlyDoge.Warehouse.MovementIds
set_option autoImplicit false

/-!
Where a transaction stands (`getTransactionRef` of the ClickHouse adapter): the lookups in the
stored references, the created outputs and the current outputs, and what every job of the
warehouse keeps of the outputs in the rows of these tables.
-/

namespace OnlyDoge
open Job

structure TransactionPlace where
  blockHash : String
  blockHeight : Nat
  blockTime : Nat
  txIndex : Nat
  deriving DecidableEq,Repr

def TransactionRef.place (ref : TransactionRef) : TransactionPlace :=
  ⟨ref.blockHash,ref.blockHeight,ref.blockTime,ref.txIndex⟩

def ProjectionUtxoOutput.place (output : ProjectionUtxoOutput) : TransactionPlace :=
  ⟨output.blockHash,output.blockHeight,output.blockTime,output.txIndex⟩

/-- `output_key >= 'txid:' AND output_key < 'txid;'`. -/
def transactionKeys (txid : String) : ClickHouseStringRange :=
  ⟨some (txid ++ ":"),some (txid ++ ";")⟩

/-- `ORDER BY output_key ASC, version DESC LIMIT 1 BY output_key LIMIT 1`. -/
def firstOutput {ρ : Type} (key : ρ → OutputKey) (version : ρ → Nat) (rows : List ρ)
    (txid : String) : Option ρ :=
  ((Replacing.collapse key version
    (rows.filter fun row => (transactionKeys txid).contains (key row).text)).insertionSort
      fun left right => !textBefore (key right).text (key left).text).head?

namespace Warehouse

/-- `ORDER BY version DESC LIMIT 1`. -/
def getIndexedTransactionRef (w : Warehouse) (txid : String) : Option TransactionPlace :=
  (Replacing.latest (·.txid) (·.version) w.transactionRefs txid).map TransactionRef.place

def getCoreTransactionRef (w : Warehouse) (txid : String) : Option TransactionPlace :=
  (firstOutput (·.outputKey) (·.blockHeight) w.coreUtxoCreates txid).map
    ProjectionUtxoOutput.place

def getCurrentTransactionRef (w : Warehouse) (txid : String) : Option TransactionPlace :=
  (firstOutput UtxoRow.key UtxoRow.version w.currentUtxos txid).map (·.output.place)

end Warehouse

theorem prefix_of_between {text front : List Char}
    (hstart : charsBefore text (front ++ [':']) = false)
    (hstop : charsBefore text (front ++ [';']) = true) : front ++ [':'] <+: text := by
  induction front generalizing text with
  | nil =>
    cases text with
    | nil => simp [charsBefore] at hstart
    | cons c rest =>
      have hc : c = ':' := by
        by_contra hne
        by_cases hsemi : c = ';'
        · subst hsemi
          simp [charsBefore] at hstop
        · simp only [List.nil_append,charsBefore,hne,hsemi,if_false,decide_eq_false_iff_not,
            decide_eq_true_eq] at hstart hstop
          have hlow : ¬c.val.toNat < 58 := fun h => hstart (UInt32.lt_iff_toNat_lt.mpr h)
          have hhigh : c.val.toNat < 59 := UInt32.lt_iff_toNat_lt.mp hstop
          have hcode : c.val.toNat = 58 := by omega
          exact hne (Char.ext (UInt32.toNat_inj.mp hcode))
      simp [hc]
  | cons a front ih =>
    cases text with
    | nil => simp [charsBefore] at hstart
    | cons c rest =>
      by_cases hc : c = a
      · subst hc
        simp only [List.cons_append,charsBefore,if_true] at hstart hstop
        simpa using ih hstart hstop
      · simp only [List.cons_append,charsBefore,hc,if_false] at hstart hstop
        rw [hstart] at hstop
        cases hstop

theorem txid_of_contains {key : OutputKey} {txid : String} (hplain : key.Plain)
    (h : (transactionKeys txid).contains key.text) : key.txid = txid := by
  simp only [ClickHouseStringRange.contains,transactionKeys,Option.all_some,Bool.and_eq_true,
    Bool.not_eq_true',textBefore,String.toList_append] at h
  obtain ⟨rest,hrest⟩ := prefix_of_between h.1 h.2
  rw [OutputKey.text_toList,List.append_assoc] at hrest
  have hcount := congrArg (List.count ':') hrest
  simp only [List.count_append,List.count_cons,List.count_nil,List.count_eq_zero.mpr hplain,
    List.count_eq_zero.mpr (colon_not_mem_digits key.index),beq_self_eq_true,if_true] at hcount
  have hfront : ':' ∉ txid.toList := List.count_eq_zero.mp (by omega)
  exact String.toList_injective (colon_split hplain hfront hrest.symm).1

theorem mem_of_firstOutput {ρ : Type} {key : ρ → OutputKey} {version : ρ → Nat} {rows : List ρ}
    {txid : String} {row : ρ} (h : firstOutput key version rows txid = some row) :
    row ∈ rows ∧ (transactionKeys txid).contains (key row).text := by
  have hmem := (List.mem_insertionSort _).mp (List.mem_of_mem_head? (Option.mem_def.mpr h))
  obtain ⟨hrow,-,-⟩ := Replacing.latest_spec (Replacing.mem_collapse.mp hmem)
  simpa using List.mem_filter.mp hrow

section Place
variable {P : String → TransactionPlace → Prop}

variable (P) in
structure PlacedOutput (output : ProjectionUtxoOutput) : Prop where
  key : output.outputKey.txid = output.txid
  place : P output.txid output.place

theorem PlacedOutput.of_key {output : ProjectionUtxoOutput} {txid : String}
    (h : PlacedOutput P output) (hplain : ':' ∉ output.txid.toList)
    (hkey : (transactionKeys txid).contains output.outputKey.text) : P txid output.place := by
  have hown : output.outputKey.Plain := by rwa [OutputKey.Plain,h.key]
  rw [← txid_of_contains hown hkey,h.key]
  exact h.place

end Place

section Placed
variable {R : TransactionRef → Prop} {O : ProjectionUtxoOutput → Prop}
variable {P : String → TransactionPlace → Prop} {w t : Warehouse}

/-- The output as its block created it. -/
def ProjectionUtxoOutput.created (output : ProjectionUtxoOutput) : ProjectionUtxoOutput :=
  { output with spentBy := none }

variable (R O) in
/-- Every reference satisfies `R`, and every output satisfied `O` when it was created. -/
structure Placed (w : Warehouse) : Prop where
  refs : ∀ ref ∈ w.transactionRefs, R ref
  creates : ∀ output ∈ w.coreUtxoCreates, O output.created
  current : ∀ row ∈ w.currentUtxos, O row.output.created

theorem placed_empty : Placed R O emptyWarehouse := by
  constructor <;> simp [emptyWarehouse]

theorem placed_any : Placed (fun _ => True) (fun _ => True) w :=
  ⟨fun _ _ => trivial,fun _ _ => trivial,fun _ _ => trivial⟩

theorem Placed.indexed {txid : String} {place : TransactionPlace} (h : Placed R O w)
    (hfound : w.getIndexedTransactionRef txid = some place) :
    ∃ ref ∈ w.transactionRefs, R ref ∧ ref.txid = txid ∧ ref.place = place := by
  obtain ⟨ref,href,rfl⟩ := Option.map_eq_some_iff.mp hfound
  obtain ⟨hmem,hkey,-⟩ := Replacing.latest_spec href
  exact ⟨ref,hmem,h.refs ref hmem,hkey,rfl⟩

theorem Placed.core {txid : String} {place : TransactionPlace} (h : Placed R O w)
    (hO : ∀ output, O output → PlacedOutput P output)
    (hplain : ∀ other place, P other place → ':' ∉ other.toList)
    (hfound : w.getCoreTransactionRef txid = some place) : P txid place := by
  obtain ⟨output,houtput,rfl⟩ := Option.map_eq_some_iff.mp hfound
  obtain ⟨hmem,hkey⟩ := mem_of_firstOutput houtput
  have hplaced := hO _ (h.creates output hmem)
  exact hplaced.of_key (hplain _ _ hplaced.place) hkey

theorem Placed.currentRow {txid : String} {place : TransactionPlace} (h : Placed R O w)
    (hO : ∀ output, O output → PlacedOutput P output)
    (hplain : ∀ other place, P other place → ':' ∉ other.toList)
    (hfound : w.getCurrentTransactionRef txid = some place) : P txid place := by
  obtain ⟨row,hrow,rfl⟩ := Option.map_eq_some_iff.mp hfound
  obtain ⟨hmem,hkey⟩ := mem_of_firstOutput hrow
  have hplaced := hO _ (h.current row hmem)
  exact hplaced.of_key (hplain _ _ hplaced.place) hkey

theorem Placed.of_subset (h : Placed R O w) (hrefs : t.transactionRefs ⊆ w.transactionRefs)
    (hcreates : t.coreUtxoCreates ⊆ w.coreUtxoCreates)
    (hcurrent : t.currentUtxos ⊆ w.currentUtxos) : Placed R O t where
  refs ref hmem := h.refs ref (hrefs hmem)
  creates output hmem := h.creates output (hcreates hmem)
  current row hmem := h.current row (hcurrent hmem)

theorem Placed.deleteTail (h : Placed R O w) (height : Nat) (table : CoreTailTable) :
    Placed R O (w.deleteTail height table) := by
  cases table <;>
    exact h.of_subset (by simp [Warehouse.deleteTail]) (by simp [Warehouse.deleteTail])
      (by simp [Warehouse.deleteTail])

theorem Placed.upsertRefs {refs : List TransactionRef} (h : Placed R O w)
    (hrefs : ∀ ref ∈ refs, R ref) :
    Placed R O { w with transactionRefs := w.transactionRefs ++ refs } := by
  refine ⟨fun ref hmem => ?_,h.creates,h.current⟩
  rcases List.mem_append.mp hmem with hmem | hmem
  · exact h.refs ref hmem
  · exact hrefs ref hmem

theorem Placed.insertCreates {rows : List ProjectionUtxoOutput} (h : Placed R O w)
    (hrows : ∀ output ∈ rows, O output.created) : Placed R O (w.insertCoreCreates rows) := by
  refine ⟨h.refs,fun output hmem => ?_,h.current⟩
  rcases List.mem_append.mp hmem with hmem | hmem
  · exact h.creates output hmem
  · exact hrows output hmem

theorem Placed.insertCurrent {rows : List UtxoRow} (h : Placed R O w)
    (hrows : ∀ row ∈ rows, O row.output.created) : Placed R O (w.insertCurrentUtxos rows) := by
  refine ⟨h.refs,h.creates,fun row hmem => ?_⟩
  rcases List.mem_append.mp hmem with hmem | hmem
  · exact h.current row hmem
  · exact hrows row hmem

theorem Placed.materialized (h : Placed R O w) (asOfBlockHeight : Nat)
    (range : ClickHouseStringRange) :
    ∀ row ∈ w.materializedUtxos asOfBlockHeight range, O row.output.created := by
  intro row hmem
  obtain ⟨output,houtput,rfl⟩ := List.mem_map.mp hmem
  obtain ⟨hlatest,-,-⟩ := Replacing.latest_spec
    (Replacing.mem_collapse.mp (List.mem_of_mem_filter houtput))
  have hcreate := List.mem_of_mem_filter (List.mem_of_mem_filter hlatest)
  exact h.creates output hcreate

end Placed

end OnlyDoge
