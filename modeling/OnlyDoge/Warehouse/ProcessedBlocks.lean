import OnlyDoge.Warehouse.Frames
import OnlyDoge.Warehouse.StoredChain
set_option autoImplicit false

/-!
What a window and a rewind do to the table of processed blocks, at every point where they can
stop.
-/

namespace OnlyDoge
open Job

/-- One row for each height below `next`, in their order. -/
def ProcessedBelow (w : Warehouse) (next : Nat) : Prop :=
  w.coreProcessedBlocks.map (·.blockHeight) = List.range next

def ContiguousFrom (start : Nat) (input : List CoreDogecoinBlockApplication) : Prop :=
  input.map (·.blockHeight) = List.range' start input.length

instance (start : Nat) (input : List CoreDogecoinBlockApplication) :
    Decidable (ContiguousFrom start input) :=
  inferInstanceAs (Decidable (_ = _))

namespace Warehouse

/-- The height of the first block of the window that differs from the processed one. -/
def firstMismatch (w : Warehouse) (input : List CoreDogecoinBlockApplication) : Option Nat :=
  firstCoreReorgHeight input (w.getCoreProcessedBlocks (input.map (·.blockHeight)))

/-- Processed blocks below this height stay. -/
def keptBelow (w : Warehouse) (input : List CoreDogecoinBlockApplication) : Nat :=
  (w.firstMismatch input).getD w.coreProcessedBlocks.length

def keptRows (w : Warehouse) (input : List CoreDogecoinBlockApplication) :
    List CoreProcessedBlockRow :=
  w.coreProcessedBlocks.filter (·.blockHeight < w.keptBelow input)

def newBlocks (w : Warehouse) (input : List CoreDogecoinBlockApplication) :
    List CoreDogecoinBlockApplication :=
  input.filter (fun application => w.keptBelow input ≤ application.blockHeight)

def newRows (w : Warehouse) (input : List CoreDogecoinBlockApplication) :
    List CoreProcessedBlockRow :=
  (w.newBlocks input).map toCoreProcessedBlockRow

end Warehouse

/-- The checks that every accepted window passes: the new blocks are linked to one another and
to the row below them. -/
def LinkedTo (rows : List CoreProcessedBlockRow) (pending : List CoreDogecoinBlockApplication) :
    Prop :=
  (∃ state, assertCoreWindowShape pending = .ok state) ∧
    ∀ first ∈ pending.head?, ∀ row ∈ rows, row.blockHeight + 1 = first.blockHeight →
      first.previousBlockHash = some row.blockHash

section Rows
variable {w : Warehouse} {next : Nat} {input : List CoreDogecoinBlockApplication}

theorem processedBelow_length (h : ProcessedBelow w next) :
    w.coreProcessedBlocks.length = next := by
  have hlength := congrArg List.length h
  simpa using hlength

theorem processedBelow_getElem? (h : ProcessedBelow w next) {row : CoreProcessedBlockRow}
    {height : Nat} : w.coreProcessedBlocks[height]? = some row ↔
      row ∈ w.coreProcessedBlocks ∧ row.blockHeight = height := by
  have hheight (i : Nat) (r : CoreProcessedBlockRow) (hi : w.coreProcessedBlocks[i]? = some r) :
      r.blockHeight = i := by
    have hmap : (w.coreProcessedBlocks.map (·.blockHeight))[i]? = some r.blockHeight := by
      rw [List.getElem?_map,hi]
      rfl
    rw [h,List.getElem?_range (by
      have := (List.getElem?_eq_some_iff.mp hi).1
      rwa [processedBelow_length h] at this)] at hmap
    exact (Option.some.inj hmap).symm
  constructor
  · exact fun hrow => ⟨List.mem_of_getElem? hrow,hheight height row hrow⟩
  · rintro ⟨hmem,rfl⟩
    obtain ⟨i,hi⟩ := List.getElem?_of_mem hmem
    rw [hheight i row hi]
    exact hi

theorem processedBelow_nodup (h : ProcessedBelow w next) :
    (w.coreProcessedBlocks.map (·.blockHeight)).Nodup := by
  rw [h]
  exact List.nodup_range

theorem mem_processedBelow (h : ProcessedBelow w next) {row : CoreProcessedBlockRow}
    (hrow : row ∈ w.coreProcessedBlocks) : row.blockHeight < next := by
  have hmem : row.blockHeight ∈ w.coreProcessedBlocks.map (·.blockHeight) :=
    List.mem_map_of_mem hrow
  rw [h] at hmem
  exact List.mem_range.mp hmem

theorem latestProcessedBlock_getElem? (h : ProcessedBelow w next) (height : Nat) :
    w.latestProcessedBlock height = w.coreProcessedBlocks[height]? := by
  refine Option.ext (fun row => ?_)
  unfold Warehouse.latestProcessedBlock
  rw [Replacing.latest_eq_some_of_nodup (processedBelow_nodup h),processedBelow_getElem? h]

theorem filter_lt_range (height n : Nat) :
    (List.range n).filter (· < height) = List.range (min height n) := by
  induction n with
  | zero => simp
  | succ n ih =>
    rw [List.range_succ,List.filter_append,ih]
    by_cases hn : n < height
    · rw [Nat.min_eq_right hn,Nat.min_eq_right (by omega),List.range_succ]
      simp [hn]
    · rw [Nat.min_eq_left (by omega),Nat.min_eq_left (by omega)]
      simp [hn]

theorem processedBelow_filter (h : ProcessedBelow w next) (height : Nat) :
    (w.coreProcessedBlocks.filter (·.blockHeight < height)).map (·.blockHeight) =
      List.range (min height next) := by
  rw [← filter_lt_range,← h,List.filter_map]
  rfl

theorem filterPendingCoreApplications_eq_filter {processed : OrderedMap Nat CoreProcessedBlockRow}
    {isNew : CoreDogecoinBlockApplication → Bool} {input : List CoreDogecoinBlockApplication}
    (h : ∀ a ∈ input, isPendingCoreApplication processed a = .ok (isNew a)) :
    filterPendingCoreApplications processed input = .ok (input.filter isNew) := by
  induction input with
  | nil => rfl
  | cons a input ih =>
    rw [filterPendingCoreApplications,h a List.mem_cons_self,
      ih (fun b hb => h b (List.mem_cons_of_mem _ hb))]
    cases hn : isNew a with
    | true => simp [hn,Bind.bind,Except.bind,Pure.pure,Except.pure]
    | false => simp [hn,Bind.bind,Except.bind,Pure.pure,Except.pure]

theorem firstMismatch_eq_none (h : w.firstMismatch input = none) {a : CoreDogecoinBlockApplication}
    (ha : a ∈ input) {row : CoreProcessedBlockRow}
    (hrow : w.latestProcessedBlock a.blockHeight = some row) : row.blockHash = a.blockHash := by
  unfold Warehouse.firstMismatch firstCoreReorgHeight at h
  rw [Option.map_eq_none_iff,List.find?_eq_none] at h
  have hsame := h a ha
  rw [getCoreProcessedBlocks_get (List.mem_map_of_mem ha),hrow] at hsame
  simpa using hsame

theorem firstMismatch_eq_some {height : Nat} (h : w.firstMismatch input = some height) :
    ∃ a ∈ input, a.blockHeight = height ∧
      ∃ row, w.latestProcessedBlock height = some row ∧ row.blockHash ≠ a.blockHash := by
  unfold Warehouse.firstMismatch firstCoreReorgHeight at h
  obtain ⟨a,ha,rfl⟩ := Option.map_eq_some_iff.mp h
  have hmem := List.mem_of_find?_eq_some ha
  have hp := List.find?_some ha
  rw [getCoreProcessedBlocks_get (List.mem_map_of_mem hmem)] at hp
  cases hrow : w.latestProcessedBlock a.blockHeight with
  | none =>
    rw [hrow] at hp
    cases hp
  | some row =>
    rw [hrow] at hp
    exact ⟨a,hmem,rfl,row,rfl,of_decide_eq_true hp⟩

theorem filterPending_newBlocks (h : ProcessedBelow w next) (hnone : w.firstMismatch input = none) :
    filterPendingCoreApplications (w.getCoreProcessedBlocks (input.map (·.blockHeight))) input =
      .ok (w.newBlocks input) := by
  refine filterPendingCoreApplications_eq_filter (fun a ha => ?_)
  unfold Warehouse.keptBelow isPendingCoreApplication
  rw [getCoreProcessedBlocks_get (List.mem_map_of_mem ha),hnone,Option.getD_none,
    processedBelow_length h]
  cases hrow : w.latestProcessedBlock a.blockHeight with
  | none =>
    rw [latestProcessedBlock_getElem? h,List.getElem?_eq_none_iff,processedBelow_length h] at hrow
    simp [hrow]
  | some row =>
    have hhash := firstMismatch_eq_none hnone ha hrow
    rw [latestProcessedBlock_getElem? h,processedBelow_getElem? h] at hrow
    have hlt := mem_processedBelow h hrow.1
    rw [hrow.2] at hlt
    simp [hhash,hlt]

theorem keptBelow_le (h : ProcessedBelow w next) : w.keptBelow input ≤ next := by
  unfold Warehouse.keptBelow
  cases hm : w.firstMismatch input with
  | none => rw [Option.getD_none,processedBelow_length h]
  | some height =>
    obtain ⟨a,-,rfl,row,hrow,-⟩ := firstMismatch_eq_some hm
    rw [latestProcessedBlock_getElem? h,processedBelow_getElem? h] at hrow
    have hlt := mem_processedBelow h hrow.1
    rw [hrow.2] at hlt
    exact Nat.le_of_lt hlt

theorem keptRows_heights (h : ProcessedBelow w next) :
    (w.keptRows input).map (·.blockHeight) = List.range (w.keptBelow input) := by
  unfold Warehouse.keptRows
  rw [processedBelow_filter h,Nat.min_eq_left (keptBelow_le h)]

theorem newBlocks_contiguous {start : Nat} (hc : ContiguousFrom start input) :
    ContiguousFrom (max start (w.keptBelow input)) (w.newBlocks input) := by
  unfold ContiguousFrom at *
  have hmap : (w.newBlocks input).map (·.blockHeight) =
      (input.map (·.blockHeight)).filter (fun n => w.keptBelow input ≤ n) := by
    unfold Warehouse.newBlocks
    rw [List.filter_map]
    rfl
  have hlength : (w.newBlocks input).length =
      ((input.map (·.blockHeight)).filter (fun n => w.keptBelow input ≤ n)).length := by
    rw [← hmap,List.length_map]
  rw [hmap,hlength,hc]
  generalize w.keptBelow input = kept
  generalize input.length = n
  clear hc hmap hlength
  induction n generalizing start with
  | zero => rfl
  | succ n ih =>
    have hrest := @ih (start + 1)
    rw [List.range'_succ,List.filter_cons]
    generalize (List.range' (start + 1) n).filter _ = rest at hrest ⊢
    by_cases hle : kept ≤ start
    · rw [Nat.max_eq_left (by omega)] at hrest
      rw [if_pos (by simpa using hle),Nat.max_eq_left hle,List.length_cons,List.range'_succ,
        ← hrest]
    · rw [Nat.max_eq_right (by omega)] at hrest
      rw [if_neg (by simpa using hle),Nat.max_eq_right (by omega),← hrest]

end Rows

def HasRows (rows : List CoreProcessedBlockRow) (w : Warehouse) : Prop :=
  w.coreProcessedBlocks = rows

section Writes
variable {w : Warehouse} {rows : List CoreProcessedBlockRow} {boundaries : Warehouse → List String}
variable {pending : List CoreDogecoinBlockApplication} {context : CoreDogecoinApplyContext}

theorem aboutFacts_hasRows : AboutFacts (HasRows rows) :=
  fun _ _ h hw => h.processed.trans hw

theorem absorbsFacts_hasRows (facts : CoreWindowFacts) : AbsorbsFacts (HasRows rows) facts :=
  ⟨fun _ h => h,fun _ h => h,fun _ h => h,fun _ h => h⟩

theorem hasRows_deleteTail {fromBlockHeight : Nat}
    (hbelow : ∀ row ∈ rows, row.blockHeight < fromBlockHeight) (table : CoreTailTable)
    (w : Warehouse) (h : HasRows rows w) : HasRows rows (w.deleteTail fromBlockHeight table) := by
  unfold HasRows at *
  cases table <;> simp only [Warehouse.deleteTail] <;> try exact h
  rw [h,List.filter_eq_self]
  intro row hrow
  simpa using hbelow row hrow

theorem wp_rewindCoreDogecoinWindow_rows {fromBlockHeight : Nat} :
    wp (rewindCoreDogecoinWindow boundaries fromBlockHeight context)
      (fun _ => HasRows (w.coreProcessedBlocks.filter (·.blockHeight < fromBlockHeight)))
      (fun _ t => HasRows w.coreProcessedBlocks t ∨
        HasRows (w.coreProcessedBlocks.filter (·.blockHeight < fromBlockHeight)) t)
      (fun t => HasRows w.coreProcessedBlocks t ∨
        HasRows (w.coreProcessedBlocks.filter (·.blockHeight < fromBlockHeight)) t) w := by
  have hkeeps : Keeps (fun t => HasRows w.coreProcessedBlocks t ∨
      HasRows (w.coreProcessedBlocks.filter (·.blockHeight < fromBlockHeight)) t)
      (rewindCoreDogecoinWindow boundaries fromBlockHeight context) := by
    refine keeps_rewindCoreDogecoinWindow (fun v t h hv => hv.imp (aboutFacts_hasRows v t h)
      (aboutFacts_hasRows v t h)) (fun table v hv => ?_)
    rcases hv with hv | hv
    · by_cases htable : table = .coreProcessedBlocks
      · subst htable
        unfold HasRows at *
        exact Or.inr (by simp only [Warehouse.deleteTail,hv])
      · unfold HasRows at *
        exact Or.inl (by cases table <;> first | exact absurd rfl htable | exact hv)
    · exact Or.inr (hasRows_deleteTail (fun row hrow => of_decide_eq_true
        (List.mem_filter.mp hrow).2) table v hv)
  have hdone : wp (rewindCoreDogecoinWindow boundaries fromBlockHeight context)
      (fun _ => HasRows (w.coreProcessedBlocks.filter (·.blockHeight < fromBlockHeight)))
      OnlyFaults Anywhere w := by
    refine wp_rewindCoreDogecoinWindow ?_
    unfold Warehouse.rewound HasRows
    split
    · cases fromBlockHeight <;> rfl
    · rfl
  exact wp_mono (wp_and (hkeeps w (Or.inl rfl)) hdone) (fun _ _ h => h.2) (fun _ _ h => h.1)
    (fun _ h => h.1)

/-- The processed rows are the last that a window inserts, and nothing throws after them. -/
theorem wp_insertPendingCoreWindow_rows (hw : HasRows rows w) :
    wp (insertPendingCoreWindow pending context)
      (fun _ => HasRows (rows ++ pending.map toCoreProcessedBlockRow))
      (fun e t => HasRows rows t ∨
        (e = .fault ∧ HasRows (rows ++ pending.map toCoreProcessedBlockRow) t))
      (HasRows rows) w := by
  have hstays {α : Type} {m : WarehouseJob α} (hm : Keeps (HasRows rows) m) {t : Warehouse}
      (ht : HasRows rows t) : wp m (fun _ => HasRows rows)
        (fun e t => HasRows rows t ∨
          (e = .fault ∧ HasRows (rows ++ pending.map toCoreProcessedBlockRow) t))
        (HasRows rows) t :=
    wp_mono (hm t ht) (fun _ _ h => h) (fun _ _ h => Or.inl h) (fun _ h => h)
  have hnext {α β : Type} {m : WarehouseJob α} {f : α → WarehouseJob β} {Q : β → Warehouse → Prop}
      {E : Failure CoreError → Warehouse → Prop} {t : Warehouse}
      (hm : wp m (fun _ => HasRows rows) E (HasRows rows) t)
      (hf : ∀ a u, HasRows rows u → wp (f a) Q E (HasRows rows) u) :
      wp (m >>= f) Q E (HasRows rows) t :=
    wp_bind (wp_mono hm hf (fun _ _ h => h) (fun _ h => h))
  refine hnext (hstays (keeps_loadCoreWindowPrevouts _ _) hw) (fun prevouts t ht => ?_)
  refine hnext (hstays (keeps_resolveCoreCurrentStateWindow _ _ _) ht) (fun cs t ht => ?_)
  refine hnext (hstays (keeps_insertCoreWindowFacts (absorbsFacts_hasRows _)) ht)
    (fun _ t ht => ?_)
  refine hnext (hstays (keeps_insertCoreCurrentStateIfBuilt aboutFacts_hasRows _) ht)
    (fun _ t ht => ?_)
  have hinsert : HasRows (rows ++ pending.map toCoreProcessedBlockRow)
      (t.insertCoreProcessedBlocks (pending.map toCoreProcessedBlockRow)) := by
    unfold HasRows at *
    simp only [Warehouse.insertCoreProcessedBlocks,ht]
  exact wp_insertRows (by simp [Warehouse.insertCoreProcessedBlocks]) hinsert
    (Or.inr ⟨rfl,hinsert⟩) (Or.inl ht) ht

theorem wp_insertPendingCoreWindowWithRecovery_rows (hw : HasRows rows w)
    (hbelow : ∀ first ∈ pending.head?, ∀ row ∈ rows, row.blockHeight < first.blockHeight)
    (habove : ∀ first ∈ pending.head?, ∀ a ∈ pending, first.blockHeight ≤ a.blockHeight) :
    wp (insertPendingCoreWindowWithRecovery pending context)
      (fun _ => HasRows (rows ++ pending.map toCoreProcessedBlockRow))
      (fun _ t => HasRows rows t ∨ HasRows (rows ++ pending.map toCoreProcessedBlockRow) t)
      (fun t => HasRows rows t ∨ HasRows (rows ++ pending.map toCoreProcessedBlockRow) t) w := by
  have hclean : Keeps (fun t => HasRows rows t ∨
      HasRows (rows ++ pending.map toCoreProcessedBlockRow) t)
      (cleanFailedCoreWindowFacts pending) := by
    cases hhead : pending.head? with
    | none =>
      unfold cleanFailedCoreWindowFacts
      rw [hhead]
      exact keeps_pure ()
    | some first =>
      unfold cleanFailedCoreWindowFacts
      rw [hhead]
      refine keeps_deleteCoreDogecoinTail (fun table v hv => ?_)
      rcases hv with hv | hv
      · exact Or.inl (hasRows_deleteTail (hbelow first hhead) table v hv)
      · by_cases htable : table = .coreProcessedBlocks
        · subst htable
          left
          unfold HasRows at *
          simp only [Warehouse.deleteTail,hv,List.filter_append]
          rw [List.filter_eq_self.mpr,List.filter_eq_nil_iff.mpr,List.append_nil]
          · intro row hrow
            obtain ⟨a,ha,rfl⟩ := List.mem_map.mp hrow
            exact fun hlt => absurd (of_decide_eq_true hlt)
              (Nat.not_lt.mpr (habove first hhead a ha))
          · intro row hrow
            simpa using hbelow first hhead row hrow
        · right
          unfold HasRows at *
          cases table <;> first | exact absurd rfl htable | exact hv
  have hcut : Keeps (HasRows rows) (cleanFailedCoreWindowFacts pending) := by
    unfold cleanFailedCoreWindowFacts
    cases hhead : pending.head? with
    | none => exact keeps_pure ()
    | some first =>
      exact keeps_deleteCoreDogecoinTail (fun table v hv =>
        hasRows_deleteTail (hbelow first hhead) table v hv)
  have hstays {α : Type} {m : WarehouseJob α} (hm : Keeps (HasRows rows) m) {t : Warehouse}
      (ht : HasRows rows t) : wp m (fun _ => HasRows rows)
        (fun _ t => HasRows rows t ∨ HasRows (rows ++ pending.map toCoreProcessedBlockRow) t)
        (fun t => HasRows rows t ∨ HasRows (rows ++ pending.map toCoreProcessedBlockRow) t) t :=
    wp_mono (hm t ht) (fun _ _ h => h) (fun _ _ h => Or.inl h) (fun _ h => Or.inl h)
  refine wp_catchThrown (wp_mono (wp_insertPendingCoreWindow_rows hw) (fun _ _ h => h) ?_
    (fun _ h => Or.inl h))
  intro e t ht
  cases e with
  | fault => exact ht.imp id And.right
  | thrown e =>
    have hrows : HasRows rows t := ht.elim id (fun h => by cases h.1)
    cases e with
    | error message => exact wp_throw (Or.inl hrows)
    | missingCoreCurrentPrevout key =>
      refine wp_ite (fun _ => ?_) (fun _ => wp_throw (Or.inl hrows))
      refine wp_bind (wp_mono (wp_bind (wp_mono (hstays hcut hrows)
        (fun _ u hu => hstays (keeps_repairMissingCoreCurrentPrevouts aboutFacts_hasRows _) hu)
        (fun _ _ h => h) (fun _ h => h))) ?_ (fun _ _ h => h) (fun _ h => h))
      intro _ u hu
      refine wp_onFailure (wp_mono (wp_insertPendingCoreWindow_rows hu) (fun _ _ h => h) ?_
        (fun _ h => Or.inl h))
      intro e v hv
      exact hclean v (hv.imp id And.right)

/-- Before the first insert the new blocks are checked against one another and the row below. -/
theorem wp_validatePendingCoreWindow_linked (hw : HasRows rows w)
    (hheights : rows.map (·.blockHeight) = List.range rows.length) :
    wp (validatePendingCoreWindow pending context) (fun _ t => t = w ∧ LinkedTo rows pending)
      (fun _ t => t = w) (fun t => t = w) w := by
  have hbelow : ProcessedBelow w rows.length := by
    unfold ProcessedBelow
    rw [hw,hheights]
  have hstays {m : WarehouseJob Unit} (hm : ∀ I, Keeps I m) {P : Prop} (hP : P) :
      wp m (fun _ t => t = w ∧ P) (fun _ t => t = w) (fun t => t = w) w :=
    wp_mono (hm (fun t => t = w) w rfl) (fun _ _ h => ⟨h,hP⟩) (fun _ _ h => h) (fun _ h => h)
  refine wp_bind (wp_ofExcept (fun state hshape => ?_) (fun _ _ => rfl))
  have hafter (hlinked : LinkedTo rows pending) {t : Warehouse} (ht : t = w) :
      wp (Job.when (shouldValidateCorePrevouts context) (assertCoreWindowPrevouts pending))
        (fun _ t => t = w ∧ LinkedTo rows pending) (fun _ t => t = w) (fun t => t = w) t := by
    subst ht
    exact hstays (fun I => keeps_when (fun _ => keeps_assertCoreWindowPrevouts pending)) hlinked
  unfold assertCoreWindowPreviousBlock
  cases pending with
  | nil => exact wp_bind (wp_pure (hafter ⟨⟨state,hshape⟩,by simp⟩ rfl))
  | cons first rest =>
    have hfirst (P : ∀ row ∈ rows, row.blockHeight + 1 = first.blockHeight →
        first.previousBlockHash = some row.blockHash) : LinkedTo rows (first::rest) := by
      refine ⟨⟨state,hshape⟩,fun f hf => ?_⟩
      cases hf
      exact P
    simp only
    cases hheight : first.blockHeight with
    | zero =>
      refine wp_bind (wp_pure (hafter (hfirst (fun row _ h => ?_)) rfl))
      omega
    | succ previousHeight =>
      refine wp_bind (wp_bind (wp_read (wp_ofExcept (fun _ hok => ?_) (fun _ _ => rfl)) rfl rfl))
      refine hafter (hfirst (fun row hrow hnext => ?_)) rfl
      have hlatest : w.latestProcessedBlock previousHeight = some row := by
        rw [latestProcessedBlock_getElem? hbelow,processedBelow_getElem? hbelow,hw]
        exact ⟨hrow,by omega⟩
      simp only [hlatest,assertPreviousCoreBlockMatches] at hok
      split at hok
      · assumption
      · cases hok

end Writes

/-- A contiguous window that starts at or below the next height. -/
structure WindowFits (w : Warehouse) (next : Nat) (input : List CoreDogecoinBlockApplication) :
    Prop where
  below : ProcessedBelow w next
  contiguous : ∃ start ≤ next, ContiguousFrom start input

namespace Warehouse

/-- The window was accepted, or held nothing new. -/
def WindowApplied (w : Warehouse) (input : List CoreDogecoinBlockApplication)
    (result : CoreDogecoinApplyResult) (t : Warehouse) : Prop :=
  (w.newBlocks input = [] ∧ t = w ∧ result = ⟨false,coreWindowEnd input⟩) ∨
    (w.newBlocks input ≠ [] ∧ LinkedTo (w.keptRows input) (w.newBlocks input) ∧
      HasRows (w.keptRows input ++ w.newRows input) t ∧
      result = ⟨true,coreWindowEnd (w.newBlocks input)⟩)

/-- The window stopped: at its start, after the stale rows were cut, or after its last insert. -/
def WindowStopped (w : Warehouse) (input : List CoreDogecoinBlockApplication) (t : Warehouse) :
    Prop :=
  (w.newBlocks input = [] → t = w) ∧ (HasRows w.coreProcessedBlocks t ∨
    HasRows (w.keptRows input) t ∨ (LinkedTo (w.keptRows input) (w.newBlocks input) ∧
      HasRows (w.keptRows input ++ w.newRows input) t))

end Warehouse

section Apply
variable {w : Warehouse} {next : Nat} {input : List CoreDogecoinBlockApplication}
variable {boundaries : Warehouse → List String} {context : CoreDogecoinApplyContext}

theorem newBlocks_ne_nil_of_mismatch {height : Nat} (h : w.firstMismatch input = some height) :
    w.newBlocks input ≠ [] := by
  obtain ⟨a,ha,rfl,-⟩ := firstMismatch_eq_some h
  refine List.ne_nil_of_mem (List.mem_filter.mpr ⟨ha,?_⟩)
  unfold Warehouse.keptBelow
  rw [h]
  simp

theorem newBlocks_head_le {start : Nat} (hc : ContiguousFrom start input) :
    ∀ first ∈ (w.newBlocks input).head?, ∀ a ∈ w.newBlocks input,
      first.blockHeight ≤ a.blockHeight := by
  have hnew := newBlocks_contiguous (w := w) hc
  unfold ContiguousFrom at hnew
  intro first hfirst a ha
  cases hpending : w.newBlocks input with
  | nil =>
    rw [hpending] at ha
    cases ha
  | cons b rest =>
    rw [hpending] at hnew hfirst ha
    cases hfirst
    rw [List.map_cons,List.length_cons,List.range'_succ] at hnew
    obtain ⟨hb,hrest⟩ := List.cons.inj hnew
    rcases List.mem_cons.mp ha with rfl | ha
    · exact Nat.le_refl _
    · have hmem : a.blockHeight ∈ rest.map (·.blockHeight) := List.mem_map_of_mem ha
      rw [hrest,List.mem_range'_1] at hmem
      omega

theorem wp_insertNewBlocks_rows (h : WindowFits w next input) (hne : w.newBlocks input ≠ [])
    {t : Warehouse} (ht : HasRows (w.keptRows input) t) :
    wp (do
        validatePendingCoreWindow (w.newBlocks input) context
        insertPendingCoreWindowWithRecovery (w.newBlocks input) context
        return ⟨true,coreWindowEnd (w.newBlocks input)⟩)
      (fun result t => w.WindowApplied input result t) (fun _ => w.WindowStopped input)
      (w.WindowStopped input) t := by
  obtain ⟨start,-,hc⟩ := h.contiguous
  have hheights : (w.keptRows input).map (·.blockHeight) = List.range (w.keptBelow input) :=
    keptRows_heights h.below
  have hlength : (w.keptRows input).length = w.keptBelow input := by
    have := congrArg List.length hheights
    simpa using this
  refine wp_bind (wp_mono (wp_validatePendingCoreWindow_linked ht (by rw [hheights,hlength]))
    ?_ ?_ ?_)
  · rintro _ u ⟨rfl,hlinked⟩
    have hbelow : ∀ first ∈ (w.newBlocks input).head?, ∀ row ∈ w.keptRows input,
        row.blockHeight < first.blockHeight := by
      intro first hfirst row hrow
      have hkept := of_decide_eq_true (List.mem_filter.mp hrow).2
      have hnew := of_decide_eq_true (List.mem_filter.mp (List.mem_of_mem_head? hfirst)).2
      omega
    refine wp_bind (wp_mono (wp_insertPendingCoreWindowWithRecovery_rows ht hbelow
      (newBlocks_head_le hc)) ?_ ?_ ?_)
    · exact fun _ v hv => wp_pure (Or.inr ⟨hne,hlinked,hv,rfl⟩)
    · exact fun _ v hv => ⟨fun hnil => absurd hnil hne,Or.inr (hv.imp id (fun hv => ⟨hlinked,hv⟩))⟩
    · exact fun v hv => ⟨fun hnil => absurd hnil hne,Or.inr (hv.imp id (fun hv => ⟨hlinked,hv⟩))⟩
  · rintro _ u rfl
    exact ⟨fun hnil => absurd hnil hne,Or.inr (Or.inl ht)⟩
  · rintro u rfl
    exact ⟨fun hnil => absurd hnil hne,Or.inr (Or.inl ht)⟩

/-- A window replaces the processed rows from its first mismatch on by those of its new blocks. -/
theorem wp_applyCoreDogecoinWindow_rows (h : WindowFits w next input) :
    wp (applyCoreDogecoinWindow boundaries input context)
      (fun result t => w.WindowApplied input result t) (fun _ => w.WindowStopped input)
      (w.WindowStopped input) w := by
  have hstart : w.WindowStopped input w := ⟨fun _ => rfl,Or.inl rfl⟩
  refine wp_ite (fun hnil => wp_pure ?_) (fun _ => ?_)
  · subst hnil
    exact Or.inl ⟨rfl,rfl,rfl⟩
  · refine wp_bind (wp_bind (wp_read ?_ hstart hstart))
    cases hm : firstCoreReorgHeight input (w.getCoreProcessedBlocks (input.map (·.blockHeight)))
      with
    | some height =>
      have hkept : w.keptBelow input = height := by
        unfold Warehouse.keptBelow Warehouse.firstMismatch
        rw [hm,Option.getD_some]
      have hne := @newBlocks_ne_nil_of_mismatch w input height hm
      have hnew : input.filter (fun a => height ≤ a.blockHeight) = w.newBlocks input := by
        unfold Warehouse.newBlocks
        rw [hkept]
      have hrows : w.coreProcessedBlocks.filter (·.blockHeight < height) = w.keptRows input := by
        unfold Warehouse.keptRows
        rw [hkept]
      simp only
      refine wp_bind (wp_mono wp_rewindCoreDogecoinWindow_rows ?_ ?_ ?_)
      · intro _ t ht
        refine wp_pure ?_
        rw [hnew,if_neg hne]
        exact wp_insertNewBlocks_rows h hne (hrows ▸ ht)
      · exact fun _ t ht => ⟨fun hnil => absurd hnil hne,
          ht.imp id (fun ht => Or.inl (hrows ▸ ht))⟩
      · exact fun t ht => ⟨fun hnil => absurd hnil hne,ht.imp id (fun ht => Or.inl (hrows ▸ ht))⟩
    | none =>
      simp only [filterPending_newBlocks h.below hm]
      refine wp_pure ?_
      refine wp_ite (fun hnil => wp_pure (Or.inl ⟨hnil,rfl,rfl⟩)) (fun hne => ?_)
      refine wp_insertNewBlocks_rows h hne ?_
      unfold HasRows Warehouse.keptRows Warehouse.keptBelow Warehouse.firstMismatch
      rw [hm,Option.getD_none,processedBelow_length h.below,eq_comm,List.filter_eq_self]
      intro row hrow
      simpa using mem_processedBelow h.below hrow

end Apply

end OnlyDoge
