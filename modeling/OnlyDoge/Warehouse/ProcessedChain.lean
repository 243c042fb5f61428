import OnlyDoge.Warehouse.ProcessedBlocks
import OnlyDoge.Warehouse.AnalyticsBalances
set_option autoImplicit false

/-! The processed blocks as a hash-linked chain, over windows and recoveries that may fail. -/

namespace OnlyDoge
open Job

/-- The processed rows are those of a chain of blocks from height 0. -/
structure ProcessedChain (w : Warehouse) (chain : List CoreDogecoinBlockApplication) : Prop where
  rows : w.coreProcessedBlocks = chain.map toCoreProcessedBlockRow
  heights : ContiguousFrom 0 chain
  linked : chain.IsChain (fun parent block => block.previousBlockHash = some parent.blockHash)

/-- The height after the greatest processed one. -/
def Warehouse.nextCoreHeight (w : Warehouse) : Nat :=
  match w.getCoreProcessedTail with
  | none => 0
  | some tail => tail + 1

/-- A call to the warehouse and how the requests it makes fare. -/
structure WarehouseCall where
  op : WarehouseOp
  fates : List Fate

/-- The blocks that a call brings. -/
def WarehouseOp.blocks : WarehouseOp → List CoreDogecoinBlockApplication
  | .applyWindow input _ => input
  | .recoverWindow _ _ => []
  | .materialize _ _ => []

namespace WarehouseCall

def after (boundaries : Warehouse → List String) (call : WarehouseCall) (w : Warehouse) :
    Warehouse :=
  ((call.op.job boundaries).run w call.fates).2.1

end WarehouseCall

def afterCalls (boundaries : Warehouse → List String) (calls : List WarehouseCall)
    (w : Warehouse) : Warehouse :=
  calls.foldl (fun w call => call.after boundaries w) w

/-- A window is contiguous and starts at or below the next height. -/
def WarehouseOp.FitsTail (op : WarehouseOp) (w : Warehouse) : Prop :=
  match op with
  | .applyWindow input _ => ∃ start ≤ w.nextCoreHeight, ContiguousFrom start input
  | .recoverWindow _ _ => True
  | .materialize _ _ => True

def CallsFit (boundaries : Warehouse → List String) : List WarehouseCall → Warehouse → Prop
  | [],_ => True
  | call::calls,w => call.op.FitsTail w ∧ CallsFit boundaries calls (call.after boundaries w)

namespace Warehouse

/-- The block is processed with this hash. -/
def HoldsBlock (w : Warehouse) (application : CoreDogecoinBlockApplication) : Prop :=
  ∃ row ∈ w.coreProcessedBlocks, row.blockHeight = application.blockHeight ∧
    row.blockHash = application.blockHash

/-- A block is processed at this height with another hash. -/
def Differs (w : Warehouse) (application : CoreDogecoinBlockApplication) : Prop :=
  ∃ row ∈ w.coreProcessedBlocks, row.blockHeight = application.blockHeight ∧
    row.blockHash ≠ application.blockHash

def FirstDiffersAt (w : Warehouse) (input : List CoreDogecoinBlockApplication) (height : Nat) :
    Prop :=
  (∃ application ∈ input, application.blockHeight = height ∧ w.Differs application) ∧
    ∀ application ∈ input, w.Differs application → height ≤ application.blockHeight

end Warehouse

theorem contiguousFrom_cons {start : Nat} {a : CoreDogecoinBlockApplication}
    {rest : List CoreDogecoinBlockApplication} : ContiguousFrom start (a::rest) ↔
      a.blockHeight = start ∧ ContiguousFrom (start + 1) rest := by
  unfold ContiguousFrom
  rw [List.map_cons,List.length_cons,List.range'_succ,List.cons.injEq]

theorem contiguousFrom_append {start : Nat} {xs ys : List CoreDogecoinBlockApplication} :
    ContiguousFrom start (xs ++ ys) ↔
      ContiguousFrom start xs ∧ ContiguousFrom (start + xs.length) ys := by
  induction xs generalizing start with
  | nil => simp [ContiguousFrom]
  | cons a xs ih =>
    rw [List.cons_append,contiguousFrom_cons,contiguousFrom_cons,ih,and_assoc,List.length_cons,
      Nat.add_assoc,Nat.add_comm 1]

theorem contiguousFrom_filter_lt {start height : Nat} {chain : List CoreDogecoinBlockApplication}
    (h : ContiguousFrom start chain) :
    chain.filter (·.blockHeight < height) = chain.take (height - start) := by
  induction chain generalizing start with
  | nil => simp
  | cons a chain ih =>
    obtain ⟨ha,hrest⟩ := contiguousFrom_cons.mp h
    rw [List.filter_cons,ih hrest,ha]
    by_cases hlt : start < height
    · have hsub : height - start = (height - (start + 1)) + 1 := by omega
      rw [if_pos (by simpa using hlt),hsub,List.take_succ_cons]
    · have hsub : height - start = 0 := by omega
      have hsub' : height - (start + 1) = 0 := by omega
      rw [if_neg (by simpa using hlt),hsub,hsub',List.take_zero,List.take_zero]

section Chain
variable {w : Warehouse} {chain input blocks : List CoreDogecoinBlockApplication}
variable {boundaries : Warehouse → List String}

theorem processedChain_empty : ProcessedChain emptyWarehouse [] := ⟨rfl,rfl,List.isChain_nil⟩

theorem processedChain_below (h : ProcessedChain w chain) : ProcessedBelow w chain.length := by
  unfold ProcessedBelow
  rw [h.rows,List.map_map,List.range_eq_range',← h.heights]
  rfl

theorem nextCoreHeight_eq {next : Nat} (h : ProcessedBelow w next) : w.nextCoreHeight = next := by
  unfold Warehouse.nextCoreHeight Warehouse.getCoreProcessedTail
  rw [h]
  cases next with
  | zero => rfl
  | succ n =>
    have hmax : (List.range (n + 1)).max? = some n := by
      rw [List.max?_eq_some_iff]
      exact ⟨List.self_mem_range_succ,fun b hb => by have := List.mem_range.mp hb; omega⟩
    rw [hmax]

theorem assertCoreShapes_linked {pending : List CoreDogecoinBlockApplication}
    {state state' : CoreWindowShapeState}
    (h : pending.foldlM assertCoreApplicationShape state = .ok state') :
    (∀ first ∈ pending.head?, ∀ hash ∈ state.previousHash, first.previousBlockHash = some hash) ∧
      pending.IsChain (fun parent block => block.previousBlockHash = some parent.blockHash) := by
  induction pending generalizing state with
  | nil => exact ⟨by simp,List.isChain_nil⟩
  | cons a pending ih =>
    rw [List.foldlM_cons] at h
    obtain ⟨s,hs,h⟩ := bind_eq_ok.mp h
    obtain ⟨hfirst,hchain⟩ := ih h
    obtain ⟨_,-,hs⟩ := bind_eq_ok.mp hs
    obtain ⟨_,hprevious,hs⟩ := bind_eq_ok.mp hs
    obtain ⟨_,-,hs⟩ := bind_eq_ok.mp hs
    obtain ⟨_,-,hs⟩ := bind_eq_ok.mp hs
    cases hs
    refine ⟨?_,List.isChain_cons.mpr ⟨fun b hb => hfirst b hb _ rfl,hchain⟩⟩
    intro f hf hash hhash
    cases hf
    unfold assertCoreApplicationPreviousHash at hprevious
    rw [Option.mem_def.mp hhash] at hprevious
    simp only at hprevious
    split at hprevious
    · cases hprevious
    · rename_i heq
      exact Decidable.not_not.mp heq

theorem start_le_keptBelow {start : Nat} (h : ProcessedBelow w chain.length)
    (hstart : start ≤ chain.length) (hc : ContiguousFrom start input) :
    start ≤ w.keptBelow input := by
  unfold Warehouse.keptBelow
  cases hm : w.firstMismatch input with
  | none => rwa [Option.getD_none,processedBelow_length h]
  | some height =>
    obtain ⟨a,ha,rfl,-⟩ := firstMismatch_eq_some hm
    have hmem : a.blockHeight ∈ input.map (·.blockHeight) := List.mem_map_of_mem ha
    rw [hc,List.mem_range'_1] at hmem
    exact hmem.1

theorem keptRows_eq_take (h : ProcessedChain w chain) (input : List CoreDogecoinBlockApplication) :
    w.keptRows input = (chain.take (w.keptBelow input)).map toCoreProcessedBlockRow := by
  have htake : chain.filter (·.blockHeight < w.keptBelow input) = chain.take (w.keptBelow input) :=
    contiguousFrom_filter_lt h.heights
  unfold Warehouse.keptRows
  rw [h.rows,List.filter_map,← htake]
  rfl

theorem processedChain_take {t : Warehouse} (h : ProcessedChain w chain) {n : Nat}
    (ht : HasRows ((chain.take n).map toCoreProcessedBlockRow) t) :
    ProcessedChain t (chain.take n) := by
  refine ⟨ht,?_,h.linked.take n⟩
  have hheights := h.heights
  rw [← List.take_append_drop n chain] at hheights
  exact (contiguousFrom_append.mp hheights).1

theorem processedChain_append {t : Warehouse} (h : ProcessedChain w chain) {start : Nat}
    (hstart : start ≤ chain.length) (hc : ContiguousFrom start input)
    (hlinked : LinkedTo (w.keptRows input) (w.newBlocks input))
    (ht : HasRows (w.keptRows input ++ w.newRows input) t) :
    ProcessedChain t (chain.take (w.keptBelow input) ++ w.newBlocks input) := by
  have hbelow := processedChain_below h
  have hkept : (chain.take (w.keptBelow input)).length = w.keptBelow input := by
    rw [List.length_take]
    exact Nat.min_eq_left (keptBelow_le hbelow)
  have htake := processedChain_take (t := { w with
    coreProcessedBlocks := (chain.take (w.keptBelow input)).map toCoreProcessedBlockRow }) h rfl
  have hnew := newBlocks_contiguous (w := w) hc
  rw [Nat.max_eq_right (start_le_keptBelow hbelow hstart hc)] at hnew
  obtain ⟨⟨state,hshape⟩,hprevious⟩ := hlinked
  refine ⟨?_,contiguousFrom_append.mpr ⟨htake.heights,by rwa [hkept,Nat.zero_add]⟩,?_⟩
  · have hrows : t.coreProcessedBlocks = w.keptRows input ++ w.newRows input := ht
    rw [hrows,keptRows_eq_take h,List.map_append]
    rfl
  · refine List.isChain_append.mpr ⟨htake.linked,(assertCoreShapes_linked hshape).2,?_⟩
    intro parent hparent first hfirst
    have hmem := List.mem_of_mem_getLast? hparent
    refine hprevious first hfirst (toCoreProcessedBlockRow parent) ?_ ?_
    · rw [keptRows_eq_take h]
      exact List.mem_map_of_mem hmem
    · -- the last kept block is the one below the first new block
      obtain ⟨init,hinit⟩ := List.getLast?_eq_some_iff.mp hparent
      have hlast := htake.heights
      rw [hinit,contiguousFrom_append] at hlast
      have hparentHeight := (contiguousFrom_cons.mp hlast.2).1
      have hlength := congrArg List.length hinit
      rw [hkept,List.length_append,List.length_singleton] at hlength
      cases hn : w.newBlocks input with
      | nil =>
        rw [hn] at hfirst
        cases hfirst
      | cons b rest =>
        rw [hn] at hfirst hnew
        cases hfirst
        have hb := (contiguousFrom_cons.mp hnew).1
        simp only [toCoreProcessedBlockRow]
        omega

/-- The processed rows are those of a linked chain, and its blocks are among these. -/
def Warehouse.HoldsProcessedChain (w : Warehouse) (blocks : List CoreDogecoinBlockApplication) :
    Prop :=
  ∃ chain, ProcessedChain w chain ∧ chain ⊆ blocks

theorem holdsProcessedChain_stopped {t : Warehouse} (h : ProcessedChain w chain)
    (hchain : chain ⊆ blocks) (hinput : input ⊆ blocks) {start : Nat}
    (hstart : start ≤ chain.length) (hc : ContiguousFrom start input)
    (ht : w.WindowStopped input t) : t.HoldsProcessedChain blocks := by
  have htake {n : Nat} : chain.take n ⊆ blocks := fun a ha => hchain (List.mem_of_mem_take ha)
  rcases ht.2 with ht | ht | ⟨hlinked,ht⟩
  · exact ⟨chain,⟨Eq.trans ht h.rows,h.heights,h.linked⟩,hchain⟩
  · rw [keptRows_eq_take h] at ht
    exact ⟨_,processedChain_take h ht,htake⟩
  · refine ⟨_,processedChain_append h hstart hc hlinked ht,List.append_subset.mpr ⟨htake,?_⟩⟩
    exact fun a ha => hinput (List.mem_of_mem_filter ha)

theorem windowStopped_of_applied {t : Warehouse} {result : CoreDogecoinApplyResult}
    (h : w.WindowApplied input result t) : w.WindowStopped input t := by
  rcases h with ⟨-,rfl,-⟩ | ⟨hne,hlinked,ht,-⟩
  · exact ⟨fun _ => rfl,Or.inl rfl⟩
  · exact ⟨fun hnil => absurd hnil hne,Or.inr (Or.inr ⟨hlinked,ht⟩)⟩

theorem windowFits_of_chain (h : ProcessedChain w chain)
    (hfits : ∃ start ≤ w.nextCoreHeight, ContiguousFrom start input) :
    WindowFits w chain.length input := by
  rw [nextCoreHeight_eq (processedChain_below h)] at hfits
  exact ⟨processedChain_below h,hfits⟩

theorem wp_job_holdsProcessedChain (op : WarehouseOp) (h : w.HoldsProcessedChain blocks)
    (hblocks : op.blocks ⊆ blocks) (hfits : op.FitsTail w) :
    wp (op.job boundaries) (fun _ t => t.HoldsProcessedChain blocks)
      (fun _ t => t.HoldsProcessedChain blocks) (fun t => t.HoldsProcessedChain blocks) w := by
  obtain ⟨chain,h,hchain⟩ := h
  cases op with
  | applyWindow input context =>
    have hwindow := windowFits_of_chain h hfits
    obtain ⟨start,hstart,hc⟩ := hwindow.contiguous
    have hstopped {t : Warehouse} (ht : w.WindowStopped input t) : t.HoldsProcessedChain blocks :=
      holdsProcessedChain_stopped h hchain hblocks hstart hc ht
    exact wp_bind (wp_mono (wp_applyCoreDogecoinWindow_rows hwindow)
      (fun _ _ ht => wp_pure (hstopped (windowStopped_of_applied ht))) (fun _ _ ht => hstopped ht)
      (fun _ ht => hstopped ht))
  | recoverWindow fromBlockHeight context =>
    have hsame {t : Warehouse} (ht : HasRows w.coreProcessedBlocks t) :
        t.HoldsProcessedChain blocks :=
      ⟨chain,⟨Eq.trans ht h.rows,h.heights,h.linked⟩,hchain⟩
    have hcut {t : Warehouse} (ht : HasRows (w.coreProcessedBlocks.filter
        (·.blockHeight < fromBlockHeight)) t) : t.HoldsProcessedChain blocks := by
      have htake : chain.filter (·.blockHeight < fromBlockHeight) = chain.take fromBlockHeight :=
        contiguousFrom_filter_lt h.heights
      refine ⟨_,processedChain_take (n := fromBlockHeight) h ?_,
        fun a ha => hchain (List.mem_of_mem_take ha)⟩
      rw [h.rows,List.filter_map] at ht
      rw [← htake]
      exact ht
    exact wp_mono wp_rewindCoreDogecoinWindow_rows (fun _ _ ht => hcut ht)
      (fun _ _ ht => ht.elim hsame hcut) (fun _ ht => ht.elim hsame hcut)
  | materialize asOfBlockHeight resumeFrom =>
    have hfacts : AboutFactsOf (resumedMaterialization resumeFrom).warehouse
        (HasRows w.coreProcessedBlocks) := fun v t hv => aboutFacts_hasRows v t hv
    have hkeeps : Keeps (HasRows w.coreProcessedBlocks)
        (materializeCoreDogecoinCurrentState (resumedMaterialization resumeFrom) boundaries
          asOfBlockHeight) :=
      keeps_materializeCoreDogecoinCurrentState hfacts (fun _ _ => keeps_pure ()) asOfBlockHeight
    have hsame {t : Warehouse} (ht : HasRows w.coreProcessedBlocks t) :
        t.HoldsProcessedChain blocks :=
      ⟨chain,⟨Eq.trans ht h.rows,h.heights,h.linked⟩,hchain⟩
    exact wp_mono (hkeeps w rfl) (fun _ _ => hsame) (fun _ _ => hsame) (fun _ => hsame)

theorem wp_run {σ ε α : Type} {m : Job σ ε α} {Q : α → σ → Prop} {E : Failure ε → σ → Prop}
    {K : σ → Prop} {P : σ → Prop} {s : σ} (h : wp m Q E K s) (hQ : ∀ a t, Q a t → P t)
    (hE : ∀ e t, E e t → P t) (hK : ∀ t, K t → P t) (fates : List Fate) :
    P (m.run s fates).2.1 := by
  have hends := h fates
  rcases hr : m.run s fates with ⟨o,t,rest⟩
  rw [hr] at hends
  cases o with
  | value a => exact hQ a t hends
  | failed e => exact hE e t hends
  | halted => exact hK t hends

theorem afterCalls_holdsProcessedChain {calls : List WarehouseCall}
    (h : w.HoldsProcessedChain blocks) (hblocks : ∀ call ∈ calls, call.op.blocks ⊆ blocks)
    (hfit : CallsFit boundaries calls w) :
    (afterCalls boundaries calls w).HoldsProcessedChain blocks := by
  induction calls generalizing w with
  | nil => exact h
  | cons call calls ih =>
    have hafter : (call.after boundaries w).HoldsProcessedChain blocks :=
      wp_run (wp_job_holdsProcessedChain call.op h (hblocks call List.mem_cons_self) hfit.1)
        (fun _ _ h => h) (fun _ _ h => h) (fun _ h => h) call.fates
    exact ih hafter (fun c hc => hblocks c (List.mem_cons_of_mem _ hc)) hfit.2

theorem newBlocks_eq_nil_of_holds {next : Nat} (h : ProcessedBelow w next)
    (hall : ∀ a ∈ input, w.HoldsBlock a) : w.newBlocks input = [] := by
  have hlatest (a : CoreDogecoinBlockApplication) (ha : a ∈ input) :
      ∃ row, w.latestProcessedBlock a.blockHeight = some row ∧ row.blockHash = a.blockHash := by
    obtain ⟨row,hrow,hheight,hhash⟩ := hall a ha
    refine ⟨row,?_,hhash⟩
    rw [latestProcessedBlock_getElem? h,processedBelow_getElem? h]
    exact ⟨hrow,hheight⟩
  have hnone : w.firstMismatch input = none := by
    cases hm : w.firstMismatch input with
    | none => rfl
    | some height =>
      unfold Warehouse.firstMismatch firstCoreReorgHeight at hm
      obtain ⟨a,ha,-⟩ := Option.map_eq_some_iff.mp hm
      have hmem := List.mem_of_find?_eq_some ha
      have hp := List.find?_some ha
      obtain ⟨row,hrow,hhash⟩ := hlatest a hmem
      rw [getCoreProcessedBlocks_get (List.mem_map_of_mem hmem),hrow] at hp
      exact absurd hhash (of_decide_eq_true hp)
  unfold Warehouse.newBlocks Warehouse.keptBelow
  rw [hnone,Option.getD_none,processedBelow_length h,List.filter_eq_nil_iff]
  intro a ha
  obtain ⟨row,hrow,hheight,-⟩ := hall a ha
  have hlt := mem_processedBelow h hrow
  rw [hheight] at hlt
  simpa using hlt

theorem firstMismatch_of_firstDiffers {next start height : Nat} (h : ProcessedBelow w next)
    (hc : ContiguousFrom start input) (hdiffers : w.FirstDiffersAt input height) :
    w.firstMismatch input = some height := by
  obtain ⟨⟨a,ha,hheight,row,hrow,hrowHeight,hhash⟩,hleast⟩ := hdiffers
  have hlatest {b : CoreDogecoinBlockApplication} {r : CoreProcessedBlockRow}
      (hr : r ∈ w.coreProcessedBlocks) (hb : r.blockHeight = b.blockHeight) :
      w.latestProcessedBlock b.blockHeight = some r := by
    rw [latestProcessedBlock_getElem? h,processedBelow_getElem? h]
    exact ⟨hr,hb⟩
  cases hm : w.firstMismatch input with
  | none => exact absurd (firstMismatch_eq_none hm ha (hlatest hrow hrowHeight)) hhash
  | some found =>
    unfold Warehouse.firstMismatch firstCoreReorgHeight at hm
    obtain ⟨b,hb,rfl⟩ := Option.map_eq_some_iff.mp hm
    obtain ⟨hp,before,behind,hinput,hbefore⟩ := List.find?_eq_some_iff_append.mp hb
    have hbmem : b ∈ input := List.mem_of_find?_eq_some hb
    -- the found block differs, so it is not below the least height
    have hbdiffers : w.Differs b := by
      rw [getCoreProcessedBlocks_get (List.mem_map_of_mem hbmem)] at hp
      cases hl : w.latestProcessedBlock b.blockHeight with
      | none =>
        rw [hl] at hp
        cases hp
      | some r =>
        rw [hl] at hp
        have hl' := hl
        rw [latestProcessedBlock_getElem? h,processedBelow_getElem? h] at hl'
        exact ⟨r,hl'.1,hl'.2,of_decide_eq_true hp⟩
    have hle := hleast b hbmem hbdiffers
    rw [hinput,contiguousFrom_append] at hc
    obtain ⟨hcb,hcbehind⟩ := contiguousFrom_cons.mp hc.2
    rw [hinput] at ha
    rcases List.mem_append.mp ha with ha | ha
    · have hno := hbefore a ha
      have hget : (w.getCoreProcessedBlocks (input.map (·.blockHeight))).get a.blockHeight =
          some row := by
        rw [getCoreProcessedBlocks_get,hlatest hrow hrowHeight]
        rw [hinput]
        exact List.mem_map_of_mem (List.mem_append_left _ ha)
      rw [hget] at hno
      simp [hhash] at hno
    · rcases List.mem_cons.mp ha with rfl | ha
      · rw [hheight]
      · have hmem : a.blockHeight ∈ behind.map (·.blockHeight) := List.mem_map_of_mem ha
        rw [hcbehind,List.mem_range'_1] at hmem
        omega

/-- The rows at and above a height are still there, are gone, or are those of the window. -/
def Warehouse.ReplacedFrom (w : Warehouse) (input : List CoreDogecoinBlockApplication)
    (height : Nat) (t : Warehouse) : Prop :=
  t.coreProcessedBlocks = w.coreProcessedBlocks ∨
    t.coreProcessedBlocks = w.coreProcessedBlocks.filter (·.blockHeight < height) ∨
    t.coreProcessedBlocks = w.coreProcessedBlocks.filter (·.blockHeight < height) ++
      (input.filter (height ≤ ·.blockHeight)).map toCoreProcessedBlockRow

/-- What a window at the tail does to the processed rows: nothing when all its blocks are
processed; otherwise the rows from the first difference on, and none below, are replaced. -/
structure WindowKeepsChain (boundaries : Warehouse → List String) (w : Warehouse)
    (input : List CoreDogecoinBlockApplication) (context : CoreDogecoinApplyContext)
    (fates : List Fate) : Prop where
  unchanged : (∀ a ∈ input, w.HoldsBlock a) →
    ((applyCoreDogecoinWindow boundaries input context).run w fates).2.1 = w
  stopped : ∀ height, w.FirstDiffersAt input height →
    w.ReplacedFrom input height ((applyCoreDogecoinWindow boundaries input context).run w fates).2.1
  applied : ∀ height result t rest, w.FirstDiffersAt input height →
    (applyCoreDogecoinWindow boundaries input context).run w fates = (.value result,t,rest) →
    t.coreProcessedBlocks = w.coreProcessedBlocks.filter (·.blockHeight < height) ++
      (input.filter (height ≤ ·.blockHeight)).map toCoreProcessedBlockRow

theorem windowKeepsChain_of_chain {context : CoreDogecoinApplyContext} (h : ProcessedChain w chain)
    (hfits : ∃ start ≤ w.nextCoreHeight, ContiguousFrom start input) (fates : List Fate) :
    WindowKeepsChain boundaries w input context fates := by
  have hwindow := windowFits_of_chain h hfits
  obtain ⟨start,-,hc⟩ := hwindow.contiguous
  have hwp : wp (applyCoreDogecoinWindow boundaries input context)
      (fun result t => w.WindowApplied input result t) (fun _ => w.WindowStopped input)
      (w.WindowStopped input) w := wp_applyCoreDogecoinWindow_rows hwindow
  have hstopped : w.WindowStopped input
      ((applyCoreDogecoinWindow boundaries input context).run w fates).2.1 :=
    wp_run hwp (fun _ _ ht => windowStopped_of_applied ht) (fun _ _ ht => ht) (fun _ ht => ht) fates
  have hat {height : Nat} (hd : w.FirstDiffersAt input height) :
      w.keptRows input = w.coreProcessedBlocks.filter (·.blockHeight < height) ∧
        w.newRows input = (input.filter (height ≤ ·.blockHeight)).map toCoreProcessedBlockRow ∧
        w.newBlocks input ≠ [] := by
    have hm := firstMismatch_of_firstDiffers hwindow.below hc hd
    have hkept : w.keptBelow input = height := by
      unfold Warehouse.keptBelow
      rw [hm,Option.getD_some]
    refine ⟨?_,?_,newBlocks_ne_nil_of_mismatch hm⟩
    · unfold Warehouse.keptRows
      rw [hkept]
    · unfold Warehouse.newRows Warehouse.newBlocks
      rw [hkept]
  constructor
  · exact fun hall => hstopped.1 (newBlocks_eq_nil_of_holds hwindow.below hall)
  · intro height hd
    obtain ⟨hkept,hnew,-⟩ := hat hd
    unfold Warehouse.ReplacedFrom
    rw [← hkept,← hnew]
    exact hstopped.2.imp id (fun ht => ht.imp id And.right)
  · intro height result t rest hd hrun
    obtain ⟨hkept,hnew,hne⟩ := hat hd
    rw [← hkept,← hnew]
    rcases value_of_wp hwp hrun with ⟨hnil,-⟩ | ⟨-,-,ht,-⟩
    · exact absurd hnil hne
    · exact ht

end Chain

/-- Over windows at the tail, recoveries and materializations, any of which may stop anywhere, the
processed rows are those of blocks of these windows that form a hash-linked chain from height 0,
and the next window replaces exactly what lies at and above its first difference. -/
theorem processed_blocks_chain (boundaries : Warehouse → List String) (calls : List WarehouseCall)
    (hfit : CallsFit boundaries calls emptyWarehouse) :
    (afterCalls boundaries calls emptyWarehouse).HoldsProcessedChain
        (calls.flatMap (·.op.blocks)) ∧
      ∀ input context fates,
        (WarehouseOp.applyWindow input context).FitsTail
          (afterCalls boundaries calls emptyWarehouse) →
        WindowKeepsChain boundaries (afterCalls boundaries calls emptyWarehouse) input context
          fates := by
  have hchain : (afterCalls boundaries calls emptyWarehouse).HoldsProcessedChain
      (calls.flatMap (·.op.blocks)) :=
    afterCalls_holdsProcessedChain ⟨[],processedChain_empty,List.nil_subset _⟩
      (fun call hcall _ ha => List.mem_flatMap.mpr ⟨call,hcall,ha⟩) hfit
  refine ⟨hchain,fun input context fates hinput => ?_⟩
  obtain ⟨chain,hchain,-⟩ := hchain
  exact windowKeepsChain_of_chain hchain hinput fates

/-- The first two payment blocks, then a window from the second on whose first insert is refused,
then a recovery from the second. -/
def paymentCalls : List WarehouseCall :=
  [⟨.applyWindow ((paymentBlocks.take 2).map coreBlockApplication) ⟨some false,some false⟩,[]⟩,
    ⟨.applyWindow ((paymentBlocks.drop 1).map coreBlockApplication) ⟨some false,some false⟩,
      [.done,.done,.refused]⟩,
    ⟨.recoverWindow 1 ⟨some false,none⟩,[]⟩]

theorem processed_blocks_chain_paymentCalls :
    (afterCalls (fun _ => []) paymentCalls emptyWarehouse).HoldsProcessedChain
        (paymentCalls.flatMap (·.op.blocks)) ∧
      ∀ input context fates,
        (WarehouseOp.applyWindow input context).FitsTail
          (afterCalls (fun _ => []) paymentCalls emptyWarehouse) →
        WindowKeepsChain (fun _ => []) (afterCalls (fun _ => []) paymentCalls emptyWarehouse) input
          context fates :=
  processed_blocks_chain (fun _ => []) paymentCalls
    ⟨⟨0,by decide,by decide⟩,⟨1,by decide,by decide⟩,trivial,trivial⟩

end OnlyDoge
