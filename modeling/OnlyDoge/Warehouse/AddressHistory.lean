import OnlyDoge.Warehouse.Movements
set_option autoImplicit false

/-!
The stored movements of an address against its unspent outputs: what a run of windows writes and
which debits it leaves out.
-/

namespace OnlyDoge
open Job

/-- The value that a spend of the chain takes from the address. -/
def spentFrom (L : CoinLedger) (address : String) (s : CoreDogecoinSpend) : Int :=
  (ownedOutput L address s).elim 0 (fun output => (output.valueBase : Int))

/-- The spends from the address that a backfill window has no debit row for: an earlier window
created their outputs. -/
def lostDebits (L : CoinLedger) (base : List (List ParsedDogecoinBlock)) (address : String) :
    List CoreDogecoinSpend :=
  base.flatMap fun window => (window.flatMap blockSpends).filter
    (fun s => !createsKey window s.outputKey && (ownedOutput L address s).isSome)

/-- The movements of an address that the blocks amount to, however they are cut. -/
def chainMovements (L : CoinLedger) (blocks : List ParsedDogecoinBlock) (address : String) :
    List AddressMovement :=
  blocks.flatMap (blockMovements (onlineResolve L) address)

section Sums
variable {L : CoinLedger} {address : String} {blocks window : List ParsedDogecoinBlock}
variable {resolve : CoreDogecoinSpend → Option ProjectionUtxoOutput}

theorem sumDirection_append (direction : Direction) (xs ys : List AddressMovement) :
    sumDirection direction (xs ++ ys) = sumDirection direction xs + sumDirection direction ys := by
  simp [sumDirection]

theorem sumDirection_credits (outputs : List ProjectionUtxoOutput) :
    (sumDirection .credit ((outputs.filter (ownedBy address)).map coreCreditMovement) : Int) =
      (outputs.map (addressWeight address)).sum ∧
    sumDirection .debit ((outputs.filter (ownedBy address)).map coreCreditMovement) = 0 := by
  induction outputs with
  | nil => exact ⟨rfl,rfl⟩
  | cons o outputs ih =>
    have hweight : addressWeight address o =
      if ownedBy address o then (o.valueBase : Int) else 0 := by
      unfold addressWeight ownedBy isBalanceAffectingCoreOutput isCoreAddressMovementOutput
      simp only [Bool.and_eq_true,decide_eq_true_eq]
    by_cases ho : ownedBy address o = true
    · rw [List.filter_cons_of_pos ho,List.map_cons,List.map_cons,List.sum_cons,hweight,if_pos ho,
        ← ih.1]
      simp only [sumDirection_cons,ih.2]
      simp [coreCreditMovement]
    · rw [List.filter_cons_of_neg ho,List.map_cons,List.sum_cons,hweight,if_neg ho,← ih.1]
      simp [ih.2]

theorem sumDirection_debits (block : ParsedDogecoinBlock) (spends : List CoreDogecoinSpend) :
    (sumDirection .debit (spends.filterMap (debitMovement resolve address block)) : Int) =
      (spends.map (fun s => ((resolve s).filter (ownedBy address)).elim 0
        (fun output => (output.valueBase : Int)))).sum ∧
    sumDirection .credit (spends.filterMap (debitMovement resolve address block)) = 0 := by
  induction spends with
  | nil => exact ⟨rfl,rfl⟩
  | cons s spends ih =>
    rw [List.filterMap_cons,List.map_cons,List.sum_cons,← ih.1]
    cases ho : (resolve s).filter (ownedBy address) with
    | none =>
      simp only [debitMovement,ho,Option.map_none,Option.elim_none]
      exact ⟨by omega,ih.2⟩
    | some output =>
      simp only [debitMovement,ho,Option.map_some,Option.elim_some,sumDirection_cons]
      simp [coreDebitMovement,ih.2]

theorem sumDirection_blockMovements (block : ParsedDogecoinBlock) :
    (sumDirection .credit (blockMovements resolve address block) : Int) =
      ((blockCreates block).map (addressWeight address)).sum ∧
    (sumDirection .debit (blockMovements resolve address block) : Int) =
      ((blockSpends block).map (fun s => ((resolve s).filter (ownedBy address)).elim 0
        (fun output => (output.valueBase : Int)))).sum := by
  have hc := @sumDirection_credits address (blockCreates block)
  have hd := @sumDirection_debits address resolve block (blockSpends block)
  unfold blockMovements creditMovements
  simp only [sumDirection_append,hc.2,hd.2]
  simpa using ⟨hc.1,hd.1⟩

theorem sumDirection_window (window : List ParsedDogecoinBlock) :
    (sumDirection .credit (window.flatMap (blockMovements resolve address)) : Int) =
      ((window.flatMap blockCreates).map (addressWeight address)).sum ∧
    (sumDirection .debit (window.flatMap (blockMovements resolve address)) : Int) =
      ((window.flatMap blockSpends).map (fun s => ((resolve s).filter (ownedBy address)).elim 0
        (fun output => (output.valueBase : Int)))).sum := by
  induction window with
  | nil => exact ⟨rfl,rfl⟩
  | cons block window ih =>
    have hb := @sumDirection_blockMovements address resolve block
    simp only [List.flatMap_cons,sumDirection_append,List.map_append,List.sum_append]
    push_cast
    rw [hb.1,hb.2,ih.1,ih.2]
    exact ⟨rfl,rfl⟩

theorem sum_backfillResolve (spends : List CoreDogecoinSpend)
    (measure : ProjectionUtxoOutput → Int) :
    (spends.map (fun s => ((backfillResolve L window s).filter (ownedBy address)).elim 0
      measure)).sum +
      ((spends.filter (fun s => !createsKey window s.outputKey &&
        (ownedOutput L address s).isSome)).map
          (fun s => (ownedOutput L address s).elim 0 measure)).sum =
    (spends.map (fun s => (ownedOutput L address s).elim 0 measure)).sum := by
  induction spends with
  | nil => rfl
  | cons s spends ih =>
    simp only [List.map_cons,List.sum_cons,List.filter_cons]
    by_cases hkey : createsKey window s.outputKey = true
    · have hsame : (backfillResolve L window s).filter (ownedBy address) =
          ownedOutput L address s := by
        unfold backfillResolve ownedOutput
        rw [if_pos hkey]
      rw [hsame]
      simp only [hkey,Bool.not_true,Bool.false_and,Bool.false_eq_true,if_false]
      omega
    · have hnone : (backfillResolve L window s).filter (ownedBy address) = none := by
        unfold backfillResolve
        rw [if_neg hkey]
        rfl
      rw [hnone]
      cases howned : ownedOutput L address s with
      | none =>
        simp only [Option.isSome_none,Bool.and_false,Bool.false_eq_true,if_false,
          Option.elim_none]
        omega
      | some output =>
        have hlost : (!createsKey window s.outputKey && (some output).isSome) = true := by
          simp [hkey]
        simp only [howned,hlost,if_true,List.map_cons,List.sum_cons,Option.elim_none,
          Option.elim_some]
        omega

end Sums

section Run
variable {w : Warehouse} {L : CoinLedger} {base windows : List (List ParsedDogecoinBlock)}
variable {address : String}

/-- Window by window, the resolved spends of a backfill and the lost ones are all its spends. -/
theorem sum_backfill (measure : ProjectionUtxoOutput → Int) :
    (base.map (fun window => ((window.flatMap blockSpends).map (fun s =>
        ((backfillResolve L window s).filter (ownedBy address)).elim 0 measure)).sum)).sum +
      ((lostDebits L base address).map
        (fun s => (ownedOutput L address s).elim 0 measure)).sum =
    ((base.flatten.flatMap blockSpends).map
      (fun s => (ownedOutput L address s).elim 0 measure)).sum := by
  unfold lostDebits
  induction base with
  | nil => rfl
  | cons window base ih =>
    have hwindow := @sum_backfillResolve L address window (window.flatMap blockSpends) measure
    simp only [List.map_cons,List.sum_cons,List.flatMap_cons,List.flatten_cons,List.flatMap_append,
      List.map_append,List.sum_append]
    omega

theorem sumDirection_windows
    (resolve : List ParsedDogecoinBlock → CoreDogecoinSpend → Option ProjectionUtxoOutput)
    (ws : List (List ParsedDogecoinBlock)) :
    (sumDirection .credit (ws.flatMap (fun window =>
        window.flatMap (blockMovements (resolve window) address))) : Int) =
      ((ws.flatten.flatMap blockCreates).map (addressWeight address)).sum ∧
    (sumDirection .debit (ws.flatMap (fun window =>
        window.flatMap (blockMovements (resolve window) address))) : Int) =
      (ws.map (fun window => ((window.flatMap blockSpends).map (fun s =>
        ((resolve window s).filter (ownedBy address)).elim 0
          (fun output => (output.valueBase : Int)))).sum)).sum := by
  induction ws with
  | nil => exact ⟨rfl,rfl⟩
  | cons window ws ih =>
    have hw := @sumDirection_window address (resolve window) window
    simp only [List.flatMap_cons,List.flatten_cons,List.flatMap_append,sumDirection_append,
      List.map_append,List.sum_append,List.map_cons,List.sum_cons]
    push_cast
    rw [hw.1,hw.2,ih.1,ih.2]
    exact ⟨rfl,rfl⟩

theorem sum_online (ws : List (List ParsedDogecoinBlock)) :
    (ws.map (fun window => ((window.flatMap blockSpends).map (fun s =>
        ((onlineResolve L s).filter (ownedBy address)).elim 0
          (fun output => (output.valueBase : Int)))).sum)).sum =
      ((ws.flatten.flatMap blockSpends).map (spentFrom L address)).sum := by
  induction ws with
  | nil => rfl
  | cons window ws ih =>
    rw [List.map_cons,List.sum_cons,ih,List.flatten_cons,List.flatMap_append,List.map_append,
      List.sum_append]
    rfl

/-- The spends of a valid chain take from an address what the ledger has for their keys. -/
theorem sum_spent (hv : ValidBlocks .empty (base.flatten ++ windows.flatten) L) :
    (L.spent.map (fun k => (L.find k).elim 0 (addressWeight address))).sum =
      (((base.flatten ++ windows.flatten).flatMap blockSpends).map (spentFrom L address)).sum := by
  rw [hv.spent]
  simp only [Ledger.empty,List.nil_append,List.map_map]
  refine congrArg List.sum (List.map_congr_left (fun s _ => ?_))
  unfold spentFrom ownedOutput
  simp only [Function.comp_apply]
  cases L.find s.outputKey with
  | none => rfl
  | some output =>
    have hweight : addressWeight address output =
        if ownedBy address output then (output.valueBase : Int) else 0 := by
      unfold addressWeight ownedBy isBalanceAffectingCoreOutput isCoreAddressMovementOutput
      simp only [Bool.and_eq_true,decide_eq_true_eq]
    rw [Option.elim_some,hweight,Option.filter_some]
    by_cases ho : ownedBy address output = true <;> simp [ho]

theorem movements_balance (hv : ValidBlocks .empty (base.flatten ++ windows.flatten) L)
    (hfacts : HasFacts w (base.map backfillFacts ++ windows.map (onlineFacts L))) :
    ((w.queryAddressMovementSummary address).receivedBase : Int) -
        (w.queryAddressMovementSummary address).sentBase =
      L.worth (addressWeight address) +
        ((lostDebits L base address).map (spentFrom L address)).sum := by
  have hbase := @sumDirection_windows address (backfillResolve L) base
  have honline := @sumDirection_windows address (fun _ => onlineResolve L) windows
  have hlost := @sum_backfill L base address (fun output => (output.valueBase : Int))
  have hworth := L.worth_eq_created_sub_spent (addressWeight address)
  rw [sum_spent hv,hv.created] at hworth
  simp only [Ledger.empty,List.nil_append,List.flatMap_append,List.map_append,
    List.sum_append] at hworth
  unfold Warehouse.queryAddressMovementSummary
  simp only [nativeMovements_of_hasFacts hv hfacts,sumDirection_append]
  push_cast
  rw [hbase.1,hbase.2,honline.1,honline.2,sum_online]
  unfold spentFrom at *
  omega

theorem spentFrom_nonneg (L : CoinLedger) (address : String) (s : CoreDogecoinSpend) :
    0 ≤ spentFrom L address s := by
  unfold spentFrom
  cases ownedOutput L address s with
  | none => exact Int.le_refl 0
  | some output => exact Int.natCast_nonneg _

theorem sum_eq_zero_iff {α : Type} {f : α → Int} (h : ∀ x, 0 ≤ f x) (xs : List α) :
    (xs.map f).sum = 0 ↔ ∀ x ∈ xs, f x = 0 := by
  induction xs with
  | nil => simp
  | cons x xs ih =>
    have hx := h x
    have hxs : 0 ≤ (xs.map f).sum := by
      refine List.sum_nonneg (fun y hy => ?_)
      obtain ⟨z,-,rfl⟩ := List.mem_map.mp hy
      exact h z
    rw [List.map_cons,List.sum_cons,List.forall_mem_cons,← ih]
    omega

/-- The length of a window's movements of an address counts its credits and resolved debits. -/
theorem length_blockMovements (resolve : CoreDogecoinSpend → Option ProjectionUtxoOutput)
    (window : List ParsedDogecoinBlock) :
    ((window.flatMap (blockMovements resolve address)).length : Int) =
      ((window.flatMap blockCreates).filter (ownedBy address)).length +
      ((window.flatMap blockSpends).map (fun s =>
        ((resolve s).filter (ownedBy address)).elim 0 (fun _ => (1 : Int)))).sum := by
  have hspends (block : ParsedDogecoinBlock) (spends : List CoreDogecoinSpend) :
      ((spends.filterMap (debitMovement resolve address block)).length : Int) =
        (spends.map (fun s =>
          ((resolve s).filter (ownedBy address)).elim 0 (fun _ => (1 : Int)))).sum := by
    induction spends with
    | nil => rfl
    | cons s spends ih =>
      rw [List.filterMap_cons,List.map_cons,List.sum_cons,← ih]
      cases ho : (resolve s).filter (ownedBy address) with
      | none => simp [debitMovement,ho]
      | some output =>
        simp only [debitMovement,ho,Option.map_some,Option.elim_some,List.length_cons]
        omega
  induction window with
  | nil => rfl
  | cons block window ih =>
    simp only [List.flatMap_cons,List.length_append,List.filter_append,List.map_append,
      List.sum_append,blockMovements,creditMovements,List.length_map] at ih ⊢
    push_cast at ih ⊢
    rw [hspends]
    omega

theorem blockMovements_backfill {window : List ParsedDogecoinBlock}
    (h : (window.flatMap blockSpends).filter (fun s => !createsKey window s.outputKey &&
      (ownedOutput L address s).isSome) = []) :
    window.flatMap (blockMovements (backfillResolve L window) address) =
      chainMovements L window address := by
  unfold chainMovements
  refine List.flatMap_congr (fun block hb => ?_)
  unfold blockMovements
  congr 1
  refine List.filterMap_congr (fun s hs => ?_)
  have hs' := List.filter_eq_nil_iff.mp h s (List.mem_flatMap.mpr ⟨block,hb,hs⟩)
  simp only [Bool.and_eq_true,Bool.not_eq_true',not_and,Bool.not_eq_true,
    Option.isSome_eq_false_iff,Option.isNone_iff_eq_none] at hs'
  unfold debitMovement
  by_cases hkey : createsKey window s.outputKey = true
  · unfold backfillResolve onlineResolve
    rw [if_pos hkey]
  · have hnone : (onlineResolve L s).filter (ownedBy address) = none :=
      hs' (Bool.not_eq_true _ ▸ hkey)
    unfold backfillResolve
    rw [if_neg hkey,hnone]
    rfl

theorem chainMovements_flatten (ws : List (List ParsedDogecoinBlock)) :
    ws.flatMap (fun window => chainMovements L window address) =
      chainMovements L ws.flatten address := by
  unfold chainMovements
  induction ws with
  | nil => rfl
  | cons window ws ih => rw [List.flatMap_cons,ih,List.flatten_cons,List.flatMap_append]

/-- Each lost debit is a row that the blocks amount to and the backfill does not write. -/
theorem length_lostDebits (base : List (List ParsedDogecoinBlock)) :
    (base.flatMap (fun window => window.flatMap
        (blockMovements (backfillResolve L window) address))).length +
      (lostDebits L base address).length = (chainMovements L base.flatten address).length := by
  unfold lostDebits chainMovements
  induction base with
  | nil => rfl
  | cons window base ih =>
    have hback := @length_blockMovements address (backfillResolve L window) window
    have honline := @length_blockMovements address (onlineResolve L) window
    have hsum := @sum_backfillResolve L address window (window.flatMap blockSpends) (fun _ => 1)
    have hcount : (((window.flatMap blockSpends).filter (fun s => !createsKey window s.outputKey &&
        (ownedOutput L address s).isSome)).map
          (fun s => (ownedOutput L address s).elim 0 (fun _ => (1 : Int)))).sum =
        ((window.flatMap blockSpends).filter (fun s => !createsKey window s.outputKey &&
          (ownedOutput L address s).isSome)).length := by
      rw [List.map_congr_left (g := fun _ => (1 : Int)) (fun s hs => ?_)]
      · simp
      · obtain ⟨output,houtput⟩ := Option.isSome_iff_exists.mp
          (Bool.and_eq_true_iff.mp (List.mem_filter.mp hs).2).2
        rw [houtput,Option.elim_some]
    have hresolve : (fun s => ((onlineResolve L s).filter (ownedBy address)).elim 0
        (fun _ => (1 : Int))) = fun s => (ownedOutput L address s).elim 0 (fun _ => 1) := rfl
    rw [hresolve] at honline
    simp only [List.flatMap_cons,List.flatten_cons,List.flatMap_append,List.length_append]
    omega

/-- The stored movements are those of the blocks, in their order, unless a debit was lost. -/
theorem nativeMovements_eq_chainMovements
    (hv : ValidBlocks .empty (base.flatten ++ windows.flatten) L)
    (hfacts : HasFacts w (base.map backfillFacts ++ windows.map (onlineFacts L))) :
    w.nativeMovements address = chainMovements L (base.flatten ++ windows.flatten) address ↔
      lostDebits L base address = [] := by
  have hsplit : chainMovements L (base.flatten ++ windows.flatten) address =
      chainMovements L base.flatten address ++
        windows.flatMap (fun window =>
          window.flatMap (blockMovements (onlineResolve L) address)) := by
    rw [show (fun window => window.flatMap (blockMovements (onlineResolve L) address)) =
      fun window => chainMovements L window address from rfl,chainMovements_flatten]
    exact List.flatMap_append
  rw [nativeMovements_of_hasFacts hv hfacts,hsplit,List.append_left_inj]
  constructor
  · intro heq
    have hlength := @length_lostDebits L address base
    rw [heq] at hlength
    exact List.length_eq_zero_iff.mp (by omega)
  · intro hlost
    rw [← chainMovements_flatten]
    refine List.flatMap_congr (fun window hw => blockMovements_backfill ?_)
    exact List.flatMap_eq_nil_iff.mp hlost window hw

end Run

end OnlyDoge
