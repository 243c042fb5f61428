import OnlyDoge.Indexer.Frames
import OnlyDoge.Warehouse.HeldWindows
set_option autoImplicit false

/-!
The invariant of the indexer: whatever of the metadata survives, the rows that no pending
recovery will delete are those of one block for each height, each written as `A` says.
-/

namespace OnlyDoge.CoreIndexer
open Job

/-- The rows that count: all of them, or those below the window whose recovery is pending. -/
def solidFacts (w : Warehouse) : Option CoreApplyRecoveryMarker → CoreFactTables
  | none => w.facts
  | some marker => w.factsBelow marker.startHeight

/-- The number of processed blocks that recovery leaves. -/
def solidHeight (w : Warehouse) (marker : Option CoreApplyRecoveryMarker) : Nat :=
  (solidFacts w marker).processed.length

structure Solid (A : AppliedBlock → Prop) (w : Warehouse) (marker : Option CoreApplyRecoveryMarker)
    (applied : List AppliedBlock) : Prop where
  facts : solidFacts w marker = appliedFacts applied
  genesis : FromGenesis applied
  written : ∀ a ∈ applied, A a

/-- Before the online stage the recorded tail is not above the rows that count. -/
structure Sound (A : AppliedBlock → Prop) (w : Warehouse) (metadata : Metadata) : Prop where
  solid : ∃ applied, Solid A w metadata.coreApplyRecovery applied
  tail : ∀ row, metadata.indexerState = some row → -1 ≤ row.processTail
  backfill : ∀ row, metadata.indexerState = some row → row.stage ≠ .online →
    row.processTail + 1 ≤ solidHeight w metadata.coreApplyRecovery

/-- Every state of the database that a crash may bring back is sound. -/
structure Recoverable (A : AppliedBlock → Prop) (s : IndexerStore) : Prop where
  current : Sound A s.warehouse s.metadata
  unflushed : ∀ metadata ∈ s.unflushed, Sound A s.warehouse metadata
  pending : ∀ marker, s.metadata.coreApplyRecovery = some marker →
    ∀ metadata ∈ s.unflushed, metadata.coreApplyRecovery = some marker

/-- An iteration between its windows: nothing is pending, `n` blocks are processed. -/
structure Running (A : AppliedBlock → Prop) (stage : CoreIndexerStage) (processTail : Int)
    (n : Nat) (s : IndexerStore) : Prop where
  recoverable : Recoverable A s
  clear : s.metadata.coreApplyRecovery = none
  row : ∃ row, s.metadata.indexerState = some row ∧ row.stage = stage ∧
    row.processTail = processTail
  height : solidHeight s.warehouse none = n

section Solid
variable {A : AppliedBlock → Prop}
variable {w t : Warehouse} {marker : Option CoreApplyRecoveryMarker} {applied : List AppliedBlock}

theorem Solid.height (h : Solid A w marker applied) : solidHeight w marker = applied.length := by
  unfold solidHeight
  rw [h.facts]
  exact List.length_map _

theorem solidFacts_congr (h : t.facts = w.facts) (marker : Option CoreApplyRecoveryMarker) :
    solidFacts t marker = solidFacts w marker := by
  cases marker with
  | none => exact h
  | some marker =>
    unfold solidFacts Warehouse.factsBelow
    rw [h]

theorem Sound.congr {m m' : Metadata} (h : Sound A w m)
    (hfacts : solidFacts t m'.coreApplyRecovery = solidFacts w m.coreApplyRecovery)
    (hrow : m'.indexerState = m.indexerState) : Sound A t m' := by
  have hheight : solidHeight t m'.coreApplyRecovery = solidHeight w m.coreApplyRecovery := by
    unfold solidHeight
    rw [hfacts]
  obtain ⟨applied,hsolid⟩ := h.solid
  refine ⟨⟨applied,hfacts.trans hsolid.facts,hsolid.genesis,hsolid.written⟩,?_,?_⟩
  · intro row hr
    exact h.tail row (hrow ▸ hr)
  · intro row hr hstage
    rw [hheight]
    exact h.backfill row (hrow ▸ hr) hstage

theorem Sound.withRow {m m' : Metadata} (h : Sound A w m) {row : CoreIndexerState}
    (hrow : m'.indexerState = some row) (hmarker : m'.coreApplyRecovery = m.coreApplyRecovery)
    (htail : -1 ≤ row.processTail)
    (hbackfill : row.stage ≠ .online →
      row.processTail + 1 ≤ solidHeight w m.coreApplyRecovery) : Sound A w m' := by
  refine ⟨hmarker ▸ h.solid,?_,?_⟩
  · intro r hr
    rw [hrow] at hr
    cases hr
    exact htail
  · intro r hr hstage
    rw [hrow] at hr
    cases hr
    rw [hmarker]
    exact hbackfill hstage

end Solid

section Recoverable
variable {A : AppliedBlock → Prop}
variable {s t : IndexerStore} {f : Metadata → Metadata}

theorem Recoverable.relaxed (h : Recoverable A s) (hf : Sound A s.warehouse (f s.metadata))
    (hmarker : ∀ marker, (f s.metadata).coreApplyRecovery = some marker →
      s.metadata.coreApplyRecovery = some marker) : Recoverable A (s.relaxed f) := by
  refine ⟨hf,?_,?_⟩
  · intro m hm
    rcases List.mem_append.mp hm with hm | hm
    · exact h.unflushed m hm
    · rw [List.mem_singleton.mp hm]
      exact h.current
  · intro marker hmark m hm
    rcases List.mem_append.mp hm with hm | hm
    · exact h.pending marker (hmarker marker hmark) m hm
    · rw [List.mem_singleton.mp hm]
      exact hmarker marker hmark

theorem Recoverable.durable (hf : Sound A s.warehouse (f s.metadata)) :
    Recoverable A (s.durable f) := by
  refine ⟨hf,?_,?_⟩ <;> simp [IndexerStore.durable]

theorem Recoverable.withWarehouse (h : Recoverable A s) {w : Warehouse}
    (hcurrent : solidFacts w s.metadata.coreApplyRecovery =
      solidFacts s.warehouse s.metadata.coreApplyRecovery)
    (hunflushed : ∀ m ∈ s.unflushed, solidFacts w m.coreApplyRecovery =
      solidFacts s.warehouse m.coreApplyRecovery) :
    Recoverable A { s with warehouse := w } :=
  ⟨h.current.congr hcurrent rfl,fun m hm => (h.unflushed m hm).congr (hunflushed m hm) rfl,
    h.pending⟩

theorem Recoverable.sameFacts (h : Recoverable A s) {w : Warehouse}
    (hfacts : w.facts = s.warehouse.facts) : Recoverable A { s with warehouse := w } :=
  h.withWarehouse (solidFacts_congr hfacts _) (fun _ _ => solidFacts_congr hfacts _)

/-- A write that touches neither the row nor the marker. -/
def KeepsRow (f : Metadata → Metadata) : Prop :=
  ∀ m, (f m).indexerState = m.indexerState ∧ (f m).coreApplyRecovery = m.coreApplyRecovery

theorem Recoverable.keepsRow (h : Recoverable A s) (hf : KeepsRow f) :
    Recoverable A (s.relaxed f) := by
  obtain ⟨hrow,hmarker⟩ := hf s.metadata
  refine h.relaxed (h.current.congr (by rw [hmarker]) hrow) ?_
  intro marker hm
  rwa [hmarker] at hm

theorem Recoverable.durableKeepsRow (h : Recoverable A s) (hf : KeepsRow f) :
    Recoverable A (s.durable f) := by
  obtain ⟨hrow,hmarker⟩ := hf s.metadata
  exact .durable (h.current.congr (by rw [hmarker]) hrow)

theorem keepsRow_withProgress (f : IndexerProgress → IndexerProgress) :
    KeepsRow (Metadata.withProgress f) := fun _ => ⟨rfl,rfl⟩

theorem keepsRow_upsertCoreBlocks (records : List CoreBlockRecord) :
    KeepsRow (Metadata.upsertCoreBlocks records) := by
  intro m
  unfold Metadata.upsertCoreBlocks
  induction records generalizing m with
  | nil => exact ⟨rfl,rfl⟩
  | cons record records ih => exact ih (m.upsertCoreBlock record)

theorem Recoverable.upserted {update : CoreIndexerStateUpdate} (h : Recoverable A s)
    (htail : -1 ≤ (update.next s.metadata.indexerState).processTail)
    (hbackfill : (update.next s.metadata.indexerState).stage ≠ .online →
      (update.next s.metadata.indexerState).processTail + 1 ≤
        solidHeight s.warehouse s.metadata.coreApplyRecovery) :
    Recoverable A (upserted update s) :=
  h.relaxed (h.current.withRow rfl rfl htail hbackfill) (fun _ hm => hm)

theorem Recoverable.upsertedSame {update : CoreIndexerStateUpdate} {row : CoreIndexerState}
    (h : Recoverable A s) (hrow : s.metadata.indexerState = some row)
    (htail : update.processTail = none)
    (hstage : ∀ stage ∈ update.stage, stage ≠ .online → row.stage ≠ .online) :
    Recoverable A (CoreIndexer.upserted update s) := by
  have hprocess : (update.next s.metadata.indexerState).processTail = row.processTail := by
    unfold CoreIndexerStateUpdate.next
    rw [htail,hrow]
    rfl
  refine h.upserted ?_ ?_
  · rw [hprocess]
    exact h.current.tail row hrow
  · intro hne
    rw [hprocess]
    refine h.current.backfill row hrow ?_
    unfold CoreIndexerStateUpdate.next at hne
    rw [hrow] at hne
    cases hs : update.stage with
    | none =>
      rw [hs] at hne
      exact hne
    | some stage =>
      rw [hs] at hne
      exact hstage stage hs hne

theorem recoverable_setCoreIndexerError (h : Recoverable A s) :
    Recoverable A (CoreIndexer.upserted { lastError := some true } s) := by
  cases hrow : s.metadata.indexerState with
  | some row => exact h.upsertedSame hrow rfl (by simp)
  | none =>
    refine h.upserted ?_ (fun _ => ?_) <;> rw [hrow]
    · exact Int.le_refl _
    · exact Int.natCast_nonneg _

end Recoverable

section Running
variable {A : AppliedBlock → Prop}
variable {s : IndexerStore} {stage : CoreIndexerStage} {p : Int} {n : Nat}
variable {f : Metadata → Metadata}

theorem Running.relaxed (h : Running A stage p n s) (hf : KeepsRow f) :
    Running A stage p n (s.relaxed f) := by
  obtain ⟨hrow,hmarker⟩ := hf s.metadata
  exact ⟨h.recoverable.keepsRow hf,hmarker.trans h.clear,by
    obtain ⟨row,hr,hrest⟩ := h.row
    exact ⟨row,hrow.trans hr,hrest⟩,h.height⟩

theorem Running.durable (h : Running A stage p n s) (hf : KeepsRow f) :
    Running A stage p n (s.durable f) := by
  obtain ⟨hrow,hmarker⟩ := hf s.metadata
  exact ⟨h.recoverable.durableKeepsRow hf,hmarker.trans h.clear,by
    obtain ⟨row,hr,hrest⟩ := h.row
    exact ⟨row,hrow.trans hr,hrest⟩,h.height⟩

theorem Running.upserted {update : CoreIndexerStateUpdate} (h : Running A stage p n s)
    (htail : update.processTail = none) (hstage : update.stage = none ∨ update.stage = some stage) :
    Running A stage p n (upserted update s) := by
  obtain ⟨row,hrow,hs,hp⟩ := h.row
  refine ⟨h.recoverable.upsertedSame hrow htail ?_,h.clear,
    ⟨_,rfl,?_,?_⟩,h.height⟩
  · intro st hst hne
    rcases hstage with hnone | hsome
    · rw [hnone] at hst
      cases hst
    · rw [hsome] at hst
      cases hst
      rwa [hs]
  · unfold CoreIndexerStateUpdate.next
    rcases hstage with hnone | hsome
    · rw [hnone,hrow]
      exact hs
    · rw [hsome]
      rfl
  · unfold CoreIndexerStateUpdate.next
    rw [htail,hrow]
    exact hp

theorem Running.sameFacts (h : Running A stage p n s) {w : Warehouse}
    (hfacts : w.facts = s.warehouse.facts) : Running A stage p n { s with warehouse := w } := by
  refine ⟨h.recoverable.sameFacts hfacts,h.clear,h.row,?_⟩
  have hheight := h.height
  unfold solidHeight at *
  rw [← hheight]
  exact congrArg (fun f : CoreFactTables => f.processed.length) hfacts

theorem Running.outside (h : Running A stage p n s) (process : IndexerProcess)
    (rawBlocks : List ParsedDogecoinBlock) (underway : List (RawWrite ParsedDogecoinBlock)) :
    Running A stage p n
      { s with process := process, rawBlocks := rawBlocks, underway := underway } :=
  ⟨⟨h.recoverable.current,h.recoverable.unflushed,h.recoverable.pending⟩,h.clear,h.row,h.height⟩

variable {input : IterationInput} {settings : CoreDogecoinIndexerSettings}

theorem absorbsSync_running (heights : List Nat) :
    AbsorbsSync input heights (Running A stage p n) := by
  constructor
  · exact fun block s _ h => h.outside s.process _ s.underway
  · exact fun blocks s _ h => h.relaxed (keepsRow_upsertCoreBlocks _)
  · exact fun blocks s _ h => h.sameFacts rfl
  · exact fun f s h => h.outside _ s.rawBlocks s.underway
  · exact fun round s _ h => h.outside s.process s.rawBlocks _

theorem keeps_publishProgress_running (latest : Int) (state : CoreIndexerState) :
    Keeps (Running A stage p n) (publishProgress settings latest state) :=
  keeps_publishProgress (fun _ _ h => h.relaxed (keepsRow_withProgress _))

theorem keeps_storeRawBlockHeights_running {heights : List Nat}
    {onCheckpoint : Int → IndexerJob Unit}
    (hcheckpoint : ∀ frontier, Keeps (Running A stage p n) (onCheckpoint frontier)) :
    Keeps (Running A stage p n) (storeRawBlockHeights settings input heights onCheckpoint) :=
  keeps_storeRawBlockHeights (absorbsSync_running heights) hcheckpoint

end Running

end OnlyDoge.CoreIndexer
