import OnlyDoge.Warehouse.CurrentStateRuns
set_option autoImplicit false

/-!
A stored chain and a window that meets it: the window repeats stored blocks, extends the chain
behind them, or replaces the stored blocks that follow.
-/

namespace OnlyDoge
open Job

def processedBlockRow (block : ParsedDogecoinBlock) : CoreProcessedBlockRow :=
  toCoreProcessedBlockRow (coreBlockApplication block)

/-- The rows of the core tables are those of the blocks, in any order and number. -/
structure StoresChain (w : Warehouse) (blocks : List ParsedDogecoinBlock) : Prop where
  creates : ∀ c, c ∈ w.coreUtxoCreates ↔ c ∈ blocks.flatMap blockCreates
  spends : ∀ s, s ∈ w.coreUtxoSpends ↔ s ∈ blocks.flatMap blockSpends
  processed : ∀ row, row ∈ w.coreProcessedBlocks ↔ row ∈ blocks.map processedBlockRow

/-- The window takes another block where the stored chain goes on. -/
def Diverges (stale new : List ParsedDogecoinBlock) : Prop :=
  ∀ s n, stale.head? = some s → new.head? = some n → s.height = n.height ∧ s.hash ≠ n.hash

section Stored
variable {w : Warehouse} {L : CoinLedger} {blocks kept stale new : List ParsedDogecoinBlock}

theorem latestProcessedBlock_of_mem (hs : StoresChain w blocks) (hl : blocks.IsChain Follows)
    {b : ParsedDogecoinBlock} (hb : b ∈ blocks) :
    w.latestProcessedBlock b.height = some (processedBlockRow b) := by
  have hmem : processedBlockRow b ∈ w.coreProcessedBlocks :=
    (hs.processed _).mpr (List.mem_map_of_mem hb)
  obtain ⟨row,hrow⟩ := Replacing.latest_isSome (fun row : CoreProcessedBlockRow => row.blockHeight)
    (fun row => row.version) hmem
  obtain ⟨hrowmem,hkey,-⟩ := Replacing.latest_spec hrow
  obtain ⟨a,ha,rfl⟩ := List.mem_map.mp ((hs.processed _).mp hrowmem)
  have hab : a = b := eq_of_height_eq hl ha hb hkey
  subst hab
  exact hrow

theorem latestProcessedBlock_eq_none (hs : StoresChain w blocks) {height : Nat}
    (h : ∀ b ∈ blocks, b.height ≠ height) : w.latestProcessedBlock height = none := by
  refine Replacing.latest_eq_none.mpr (fun row hrow hkey => ?_)
  obtain ⟨b,hb,rfl⟩ := List.mem_map.mp ((hs.processed _).mp hrow)
  exact h b hb hkey

theorem holdsChain_of_stores (hs : StoresChain w blocks) (hv : ValidBlocks .empty blocks L) :
    HoldsChain blocks L w := by
  have hcreated : L.created = blocks.flatMap blockCreates := by
    simpa [Ledger.empty] using hv.created
  have hspent : L.spent = (blocks.flatMap blockSpends).map (·.outputKey) := by
    simpa [Ledger.empty] using hv.spent
  refine ⟨hv,?_,?_⟩
  · constructor
    · intro k
      have hmem (c : ProjectionUtxoOutput) : c ∈ w.coreUtxoCreates ↔ c ∈ L.created := by
        rw [hcreated]
        exact hs.creates c
      cases hl : w.latestCoreCreate k with
      | none =>
        have hnone := Replacing.latest_eq_none.mp hl
        rw [eq_comm,Ledger.find_eq_none]
        intro hk
        obtain ⟨c,hc,rfl⟩ := List.mem_map.mp hk
        exact hnone c ((hmem c).mpr hc) rfl
      | some c =>
        obtain ⟨hc,hkey,-⟩ := Replacing.latest_spec hl
        exact (Ledger.find_eq_some.mpr ⟨(hmem c).mp hc,hkey⟩).symm
    · intro k
      rw [hspent,List.mem_map,List.mem_map]
      simp only [hs.spends]
    · intro c hc
      rw [hcreated] at hc
      obtain ⟨block,-,hc⟩ := List.mem_flatMap.mp hc
      exact blockCreates_unspent hc
    · intro c hc
      obtain ⟨block,hb,hc⟩ := List.mem_flatMap.mp ((hs.creates c).mp hc)
      rw [blockCreates_height hc]
      exact height_lt_windowEndHeight hv.linked hb
    · intro s hspend
      obtain ⟨block,hb,hspend⟩ := List.mem_flatMap.mp ((hs.spends s).mp hspend)
      rw [blockSpends_height hspend]
      exact height_lt_windowEndHeight hv.linked hb
  · constructor
    · intro row hrow
      obtain ⟨b,hb,rfl⟩ := List.mem_map.mp ((hs.processed row).mp hrow)
      exact height_lt_windowEndHeight hv.linked hb
    · intro h
      rw [List.getLast?_eq_none_iff] at h
      subst h
      exact List.eq_nil_iff_forall_not_mem.mpr (fun row hrow => by
        simpa using (hs.processed row).mp hrow)
    · intro block hblock
      simp [windowEndHeight,hblock]
    · intro block hblock row hrow
      rw [latestProcessedBlock_of_mem hs hv.linked (List.mem_of_getLast? hblock)] at hrow
      cases hrow
      rfl

theorem storesChain_cutTail {fromBlockHeight : Nat} (hs : StoresChain w (kept ++ stale))
    (hkept : ∀ b ∈ kept, b.height < fromBlockHeight)
    (hstale : ∀ b ∈ stale, fromBlockHeight ≤ b.height) :
    StoresChain (w.cutTail fromBlockHeight) kept := by
  have hsplit {ρ : Type} (rows : ParsedDogecoinBlock → List ρ) (height : ρ → Nat)
      (hheight : ∀ b r, r ∈ rows b → height r = b.height) (r : ρ) :
      (r ∈ (kept ++ stale).flatMap rows ∧ height r < fromBlockHeight) ↔ r ∈ kept.flatMap rows := by
    simp only [List.flatMap_append,List.mem_append,List.mem_flatMap]
    constructor
    · rintro ⟨⟨b,hb,hr⟩ | ⟨b,hb,hr⟩,hlt⟩
      · exact ⟨b,hb,hr⟩
      · have := hstale b hb
        rw [hheight b r hr] at hlt
        omega
    · rintro ⟨b,hb,hr⟩
      exact ⟨Or.inl ⟨b,hb,hr⟩,by rw [hheight b r hr]; exact hkept b hb⟩
  constructor
  · intro c
    simp only [Warehouse.cutTail,List.mem_filter,decide_eq_true_eq,hs.creates]
    exact hsplit blockCreates (·.blockHeight) (fun _ _ h => blockCreates_height h) c
  · intro s
    simp only [Warehouse.cutTail,List.mem_filter,decide_eq_true_eq,hs.spends]
    exact hsplit blockSpends (·.spentInBlock) (fun _ _ h => blockSpends_height h) s
  · intro row
    simp only [Warehouse.cutTail,List.mem_filter,decide_eq_true_eq,hs.processed]
    have := hsplit (fun b => [processedBlockRow b]) (·.blockHeight)
      (fun b r h => by rw [List.mem_singleton.mp h]; rfl) row
    simpa [List.mem_flatMap,List.mem_map,eq_comm] using this

theorem storesChain_rewound {boundaries : Warehouse → List String}
    {context : CoreDogecoinApplyContext} {fromBlockHeight : Nat}
    (h : StoresChain (w.cutTail fromBlockHeight) kept) :
    StoresChain (w.rewound boundaries fromBlockHeight context) kept := by
  obtain ⟨hc,hs,hp⟩ := h
  unfold Warehouse.rewound Warehouse.rematerializedBelow
  split
  · cases fromBlockHeight with
    | zero => exact ⟨hc,hs,hp⟩
    | succ asOfBlockHeight => exact ⟨hc,hs,hp⟩
  · exact ⟨hc,hs,hp⟩

theorem currentStateOf_rewound {boundaries : Warehouse → List String}
    {context : CoreDogecoinApplyContext} {fromBlockHeight : Nat} {M : CoinLedger}
    (hup : shouldUpdateCoreCurrentState context)
    (hs : StoresChain (w.cutTail fromBlockHeight) kept) (hM : ValidBlocks .empty kept M)
    (hend : windowEndHeight kept 0 ≤ fromBlockHeight) :
    CurrentStateOf (w.rewound boundaries fromBlockHeight context) M fromBlockHeight := by
  have hfacts := (holdsChain_of_stores hs hM).facts
  unfold Warehouse.rewound
  rw [if_pos hup]
  cases fromBlockHeight with
  | zero =>
    have hnil : kept = [] := by
      cases kept with
      | nil => rfl
      | cons b kept =>
        have := height_lt_windowEndHeight hM.linked (List.mem_cons_self : b ∈ b::kept)
        omega
    subst hnil
    cases hM.replay
    exact currentStateOf_cleared _
  | succ asOfBlockHeight =>
    exact currentStateOf_materialized (hfacts.mono hend)

end Stored

section Pending
variable {w : Warehouse} {overlap new : List ParsedDogecoinBlock}
variable {boundaries : Warehouse → List String} {context : CoreDogecoinApplyContext}

theorem getCoreProcessedBlocks_get {heights : List Nat} {height : Nat} (h : height ∈ heights) :
    (w.getCoreProcessedBlocks heights).get height = w.latestProcessedBlock height := by
  have hget (row : CoreProcessedBlockRow) :
      (w.getCoreProcessedBlocks heights).get height = some row ↔
        w.latestProcessedBlock height = some row := by
    unfold Warehouse.getCoreProcessedBlocks
    rw [OrderedMap.get_ofEntries_filterMap]
    simp [h]
  cases hl : w.latestProcessedBlock height with
  | some row => exact (hget row).mpr hl
  | none =>
    cases hg : (w.getCoreProcessedBlocks heights).get height with
    | none => rfl
    | some row =>
      rw [(hget row).mp hg] at hl
      cases hl

theorem filterPendingCoreApplications_append {processed : OrderedMap Nat CoreProcessedBlockRow}
    (hstored : ∀ b ∈ overlap, ∃ row, processed.get b.height = some row ∧ row.blockHash = b.hash)
    (hnew : ∀ b ∈ new, processed.get b.height = none) :
    filterPendingCoreApplications processed ((overlap ++ new).map coreBlockApplication) =
      .ok (new.map coreBlockApplication) := by
  induction overlap with
  | nil =>
    refine filterPendingCoreApplications_eq_ok (fun application ha => ?_)
    obtain ⟨b,hb,rfl⟩ := List.mem_map.mp ha
    exact hnew b hb
  | cons b overlap ih =>
    obtain ⟨row,hrow,hhash⟩ := hstored b List.mem_cons_self
    have hpending : isPendingCoreApplication processed (coreBlockApplication b) = .ok false := by
      simp [isPendingCoreApplication,coreBlockApplication,hrow,hhash]
    rw [List.cons_append,List.map_cons,filterPendingCoreApplications,hpending,
      ih (fun c hc => hstored c (List.mem_cons_of_mem _ hc))]
    rfl

theorem firstCoreReorgHeight_append {processed : OrderedMap Nat CoreProcessedBlockRow}
    (hstored : ∀ b ∈ overlap, ∃ row, processed.get b.height = some row ∧ row.blockHash = b.hash) :
    firstCoreReorgHeight ((overlap ++ new).map coreBlockApplication) processed =
      firstCoreReorgHeight (new.map coreBlockApplication) processed := by
  unfold firstCoreReorgHeight
  rw [List.map_append,List.find?_append,List.find?_eq_none.mpr]
  · rfl
  · intro application ha
    obtain ⟨b,hb,rfl⟩ := List.mem_map.mp ha
    obtain ⟨row,hrow,hhash⟩ := hstored b hb
    simp [coreBlockApplication,hrow,hhash]

theorem filter_from_height {blocks : List ParsedDogecoinBlock} {n : ParsedDogecoinBlock}
    {rest : List ParsedDogecoinBlock} (hl : (blocks ++ n::rest).IsChain Follows) :
    ((blocks ++ n::rest).map coreBlockApplication).filter
      (fun application => n.height ≤ application.blockHeight) =
        (n::rest).map coreBlockApplication := by
  have hbelow : ∀ b ∈ blocks, b.height < n.height := by
    intro b hb
    have hlt := height_lt_windowEndHeight (List.isChain_append.mp hl).1 hb
    have := windowEndHeight_le hl
    omega
  have habove : ∀ b ∈ n::rest, n.height ≤ b.height :=
    fun b hb => (isChain_heights (List.isChain_append.mp hl).2.1 hb).1
  rw [List.map_append,List.filter_append,List.filter_eq_nil_iff.mpr,List.filter_eq_self.mpr]
  · rfl
  · intro application ha
    obtain ⟨b,hb,rfl⟩ := List.mem_map.mp ha
    simp [coreBlockApplication,habove b hb]
  · intro application ha
    obtain ⟨b,hb,rfl⟩ := List.mem_map.mp ha
    intro hle
    have := of_decide_eq_true hle
    have := hbelow b hb
    simp only [coreBlockApplication] at *
    omega

/-- The warehouse on which the new blocks of a window are inserted. -/
def Warehouse.meeting (boundaries : Warehouse → List String) (context : CoreDogecoinApplyContext)
    (stale new : List ParsedDogecoinBlock) (w : Warehouse) : Warehouse :=
  match stale,new with
  | _::_,n::_ => w.rewound boundaries n.height context
  | _,_ => w

theorem wp_pendingCoreWindowApplications_meeting {below stale : List ParsedDogecoinBlock}
    (hs : StoresChain w ((below ++ overlap) ++ stale))
    (hl : ((below ++ overlap) ++ stale).IsChain Follows)
    (hl' : ((below ++ overlap) ++ new).IsChain Follows) (hd : Diverges stale new)
    {Q : List CoreDogecoinBlockApplication → Warehouse → Prop}
    {P : CoreError → Warehouse → Prop}
    (hdone : Q (new.map coreBlockApplication) (w.meeting boundaries context stale new)) :
    wp (pendingCoreWindowApplications boundaries ((overlap ++ new).map coreBlockApplication)
      context) Q (FailsWith P) Anywhere w := by
  have hget {b : ParsedDogecoinBlock} (hb : b ∈ overlap ++ new) :
      (w.getCoreProcessedBlocks (((overlap ++ new).map coreBlockApplication).map
        (·.blockHeight))).get b.height = w.latestProcessedBlock b.height :=
    getCoreProcessedBlocks_get (List.mem_map.mpr
      ⟨coreBlockApplication b,List.mem_map_of_mem hb,rfl⟩)
  refine wp_bind (wp_read ?_ trivial trivial)
  generalize w.getCoreProcessedBlocks (((overlap ++ new).map coreBlockApplication).map
    (·.blockHeight)) = processed at hget ⊢
  have hstored : ∀ b ∈ overlap, ∃ row, processed.get b.height = some row ∧
      row.blockHash = b.hash := by
    intro b hb
    rw [hget (List.mem_append_left _ hb),latestProcessedBlock_of_mem hs hl (by simp [hb])]
    exact ⟨_,rfl,rfl⟩
  rw [firstCoreReorgHeight_append hstored]
  cases new with
  | nil =>
    rw [show firstCoreReorgHeight (List.map coreBlockApplication []) processed = none from rfl,
      filterPendingCoreApplications_append hstored (by simp)]
    refine wp_pure ?_
    cases stale <;> exact hdone
  | cons n rest => cases stale with
    | nil =>
      rw [List.append_nil] at hs
      have hnew : ∀ b ∈ n::rest, processed.get b.height = none := by
        intro b hb
        rw [hget (List.mem_append_right _ hb)]
        refine latestProcessedBlock_eq_none hs (fun c hc heq => ?_)
        have hlt := height_lt_windowEndHeight (List.isChain_append.mp hl').1 hc
        have hle := windowEndHeight_le hl'
        have := (isChain_heights (List.isChain_append.mp hl').2.1 hb).1
        omega
      have hreorg : firstCoreReorgHeight ((n::rest).map coreBlockApplication) processed =
          none := by
        unfold firstCoreReorgHeight
        rw [Option.map_eq_none_iff,List.find?_eq_none]
        intro application ha
        obtain ⟨b,hb,rfl⟩ := List.mem_map.mp ha
        simp [coreBlockApplication,hnew b hb]
      rw [hreorg,filterPendingCoreApplications_append hstored hnew]
      exact wp_pure hdone
    | cons s stale =>
      obtain ⟨hheight,hhash⟩ := hd s n rfl rfl
      have hrow : processed.get n.height = some (processedBlockRow s) := by
        rw [hget (by simp),← hheight]
        exact latestProcessedBlock_of_mem hs hl (by simp)
      have hreorg : firstCoreReorgHeight ((n::rest).map coreBlockApplication) processed =
          some n.height := by
        unfold firstCoreReorgHeight
        rw [List.map_cons,List.find?_cons_of_pos]
        · rfl
        · simp [coreBlockApplication,hrow,processedBlockRow,toCoreProcessedBlockRow,hhash]
      rw [hreorg]
      refine wp_bind (wp_mono (wp_rewindCoreDogecoinWindow ?_) (fun _ _ h => h) ?_ (fun _ h => h))
      · have hlink : (overlap ++ n::rest).IsChain Follows := by
          rw [List.append_assoc] at hl'
          exact (List.isChain_append.mp hl').2.1
        rw [filter_from_height hlink]
        exact wp_pure hdone
      · intro e t he
        cases e with
        | fault => trivial
        | thrown e => exact absurd he id

/-- A window that meets the stored chain is taken from the first block on that is not stored. -/
theorem wp_applyCoreDogecoinWindow_meeting {L' : CoinLedger}
    {below stale : List ParsedDogecoinBlock} (hs : StoresChain w ((below ++ overlap) ++ stale))
    (hl : ((below ++ overlap) ++ stale).IsChain Follows)
    (hv : ValidBlocks .empty ((below ++ overlap) ++ new) L') (hd : Diverges stale new)
    {Q : Warehouse → Prop} {P : CoreError → Warehouse → Prop} (hnil : new = [] → Q w)
    (hinsert : new ≠ [] → StoresChain (w.meeting boundaries context stale new) (below ++ overlap) →
      wp (insertPendingCoreWindowWithRecovery (new.map coreBlockApplication) context)
        (fun _ => Q) (FailsWith P) Anywhere (w.meeting boundaries context stale new)) :
    wp (applyCoreDogecoinWindow boundaries ((overlap ++ new).map coreBlockApplication) context)
      (fun _ => Q) (FailsWith P) Anywhere w := by
  obtain ⟨M,hM,hwindow⟩ := hv.append
  unfold applyCoreDogecoinWindow
  refine wp_ite (fun h => wp_pure (hnil (by simp_all))) (fun _ => ?_)
  refine wp_bind (wp_pendingCoreWindowApplications_meeting hs hl hv.linked hd ?_)
  cases new with
  | nil =>
    refine wp_ite (fun _ => wp_pure ?_) (fun h => absurd rfl h)
    cases stale <;> exact hnil rfl
  | cons n rest =>
    have hmeet : StoresChain (w.meeting boundaries context stale (n::rest)) (below ++ overlap) := by
      cases stale with
      | nil => simpa [Warehouse.meeting] using hs
      | cons s stale =>
        obtain ⟨hheight,-⟩ := hd s n rfl rfl
        refine storesChain_rewound (storesChain_cutTail hs (fun b hb => ?_) (fun b hb => ?_))
        · have hlt := height_lt_windowEndHeight hM.linked hb
          have := windowEndHeight_le hv.linked
          omega
        · have := (isChain_heights (List.isChain_append.mp hl).2.1 hb).1
          omega
    refine wp_ite (fun h => (by cases h)) (fun _ => ?_)
    have hchain := holdsChain_of_stores hmeet hM
    exact wp_validateAndInsert hchain.facts hchain.processed hwindow
      (followsLast_of_chain hv.linked) (hinsert (by simp) hmeet)

end Pending

end OnlyDoge
