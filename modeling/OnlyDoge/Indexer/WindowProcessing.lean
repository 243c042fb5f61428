import OnlyDoge.Indexer.Startup
import OnlyDoge.Indexer.ReportedBlocks
set_option autoImplicit false

/-!
Loading a window and applying it between the marker's two writes: from any place where it
stops, recovery finds the rows below the window as they were.
-/

namespace OnlyDoge.CoreIndexer
open Job

theorem blocksAt_of_heights {start count taken : Nat} {blocks : List ParsedDogecoinBlock}
    (h : blocks.map (·.height) = (List.range' start count).take taken) : BlocksAt start blocks := by
  have hlength : blocks.length = min taken count := by
    have := congrArg List.length h
    rwa [List.length_map,List.length_take,List.length_range'] at this
  unfold BlocksAt
  rw [h,hlength]
  rcases Nat.le_total taken count with hle | hle
  · rw [List.take_range'_of_length_ge hle,Nat.min_eq_left hle]
  · rw [List.take_range'_of_length_le hle,Nat.min_eq_right hle]

section Process
variable {A : AppliedBlock → Prop} {B : ParsedDogecoinBlock → Prop}
variable {settings : CoreDogecoinIndexerSettings} {input : IterationInput} {s : IndexerStore}
variable {stage : CoreIndexerStage} {p : Int} {n start : Nat}
variable {blocks : List ParsedDogecoinBlock} {updateCurrentState : Bool}

theorem attains_runCoreBlockStep {α : Type} {work : IndexerJob α} {Q : α → IndexerStore → Prop}
    (h : Recoverable A s) (hwork : Attains A work Q s) (hQ : ∀ a t, Q a t → Recoverable A t) :
    Attains A (runCoreBlockStep work) Q s := by
  refine wp_bind (wp_read ?_ h h)
  refine attains_bind hwork (fun a t ht => ?_)
  exact wp_bind (wp_read (wp_pure ht) (hQ a t ht) (hQ a t ht))

variable (A) in
/-- The store while a window is written: its marker is flushed, and every state of the database
that a crash may bring back names it. -/
structure Writing (stage : CoreIndexerStage) (p : Int) (start : Nat) (rows : CoreFactTables)
    (marker : CoreApplyRecoveryMarker) (t : IndexerStore) : Prop where
  recoverable : Recoverable A t
  marked : t.metadata.coreApplyRecovery = some marker
  starts : marker.startHeight = start
  flushed : t.unflushed = []
  row : ∃ row, t.metadata.indexerState = some row ∧ row.stage = stage ∧ row.processTail = p
  below : HasBelow start rows t.warehouse

variable (A) in
/-- What the rest of an iteration relies on after a window. -/
def Processed (stage : CoreIndexerStage) (p : Int) (result : CoreDogecoinApplyResult)
    (t : IndexerStore) : Prop :=
  ∃ n, Running A stage p n t ∧ -1 ≤ result.processTail ∧ result.processTail + 1 ≤ (n : Int)

variable (A B) in
/-- The rows that a window of reported blocks writes are as `A` says. -/
def Admits (updateCurrentState : Bool) : Prop :=
  ∀ (window : List ParsedDogecoinBlock) (a : AppliedBlock), (∀ block ∈ window, B block) →
    a.WrittenWith (ReportedOutput B) updateCurrentState window → A a

theorem Writing.withWarehouse {rows : CoreFactTables} {marker : CoreApplyRecoveryMarker}
    (h : Writing A stage p start rows marker s) {w : Warehouse} (hw : HasBelow start rows w) :
    Writing A stage p start rows marker { s with warehouse := w } := by
  have hsame : solidFacts w (some marker) = solidFacts s.warehouse (some marker) := by
    change w.factsBelow marker.startHeight = s.warehouse.factsBelow marker.startHeight
    rw [h.starts]
    exact hw.trans h.below.symm
  refine ⟨h.recoverable.withWarehouse ?_ ?_,h.marked,h.starts,h.flushed,h.row,hw⟩
  · rw [h.marked]
    exact hsame
  · rw [h.flushed]
    simp

theorem Writing.cleared {rows : CoreFactTables} {marker : CoreApplyRecoveryMarker}
    (h : Writing A stage p start rows marker s) {applied : List AppliedBlock}
    (hsolid : Solid A s.warehouse none applied) (hstart : start ≤ applied.length)
    (hstage : stage ≠ .online → p + 1 ≤ start) :
    Running A stage p applied.length
      (s.relaxed (fun metadata => { metadata with coreApplyRecovery := none })) := by
  obtain ⟨row,hrow,hrowStage,hrowTail⟩ := h.row
  have hsound : Sound A s.warehouse { s.metadata with coreApplyRecovery := none } := by
    refine ⟨⟨applied,hsolid⟩,h.recoverable.current.tail,?_⟩
    intro r hr hne
    rw [hrow] at hr
    cases hr
    rw [hrowStage] at hne
    rw [hsolid.height,hrowTail]
    have := hstage hne
    omega
  exact ⟨h.recoverable.relaxed hsound (fun _ hm => absurd hm (by simp)),rfl,
    ⟨row,hrow,hrowStage,hrowTail⟩,hsolid.height⟩

theorem Running.writing (h : Running A stage p n s) {marker : CoreApplyRecoveryMarker}
    (hmarker : marker.startHeight = start) (hstart : start ≤ n)
    (hstage : stage ≠ .online → p + 1 ≤ start) :
    Writing A stage p start (s.warehouse.factsBelow start) marker
      (s.durable (fun metadata => { metadata with coreApplyRecovery := some marker })) := by
  obtain ⟨applied,hsolid⟩ := h.recoverable.current.solid
  rw [h.clear] at hsolid
  have hfacts : s.warehouse.facts = appliedFacts applied := hsolid.facts
  have hn : applied.length = n := hsolid.height.symm.trans h.height
  obtain ⟨row,hrow,hrowStage,hrowTail⟩ := h.row
  have hsolidMarker : Solid A s.warehouse (some marker) (applied.take start) := by
    refine ⟨?_,fromGenesis_take hsolid.genesis start,
      fun a ha => hsolid.written a (List.mem_of_mem_take ha)⟩
    change s.warehouse.factsBelow marker.startHeight = _
    unfold Warehouse.factsBelow
    rw [hmarker,hfacts,below_appliedFacts,fromGenesis_filter hsolid.genesis]
  have hheight : solidHeight s.warehouse (some marker) = start := by
    rw [hsolidMarker.height,List.length_take]
    omega
  have hsound : Sound A s.warehouse { s.metadata with coreApplyRecovery := some marker } := by
    refine ⟨⟨_,hsolidMarker⟩,h.recoverable.current.tail,?_⟩
    intro r hr hne
    rw [hrow] at hr
    cases hr
    rw [hrowStage] at hne
    rw [hheight,hrowTail]
    exact hstage hne
  exact ⟨.durable hsound,rfl,hmarker,rfl,⟨row,hrow,hrowStage,hrowTail⟩,rfl⟩

/-- Applying a window: wherever it stops the rows below it are as before, and where it ends
there is no gap up to its last block. -/
theorem attains_applyWindowApplications {marker : CoreApplyRecoveryMarker}
    {applied : List AppliedBlock}
    (h : Writing A stage p start (s.warehouse.factsBelow start) marker s)
    (hw : s.warehouse.facts = appliedFacts applied) (hg : FromGenesis applied)
    (hb : BlocksAt start blocks) (hstart : start ≤ applied.length)
    (hplaced : Placed (ReportedRef B) (ReportedOutput B) s.warehouse) :
    Attains A (applyWindowApplications input (blocks.map coreBlockApplication) updateCurrentState)
      (fun result t => Writing A stage p start (s.warehouse.factsBelow start) marker t ∧
        ∃ after, WindowHeld (ReportedOutput B) updateCurrentState applied start blocks result after
          t.warehouse) s := by
  refine attains_runCoreBlockStep h.recoverable (wp_zoom ?_) (fun _ _ ht => ht.1.recoverable)
  let context : CoreDogecoinApplyContext := ⟨some updateCurrentState,some false⟩
  have hkeeps : Keeps (HasBelow start (s.warehouse.factsBelow start))
      (applyCoreDogecoinWindow input.boundaries (blocks.map coreBlockApplication) context) :=
    keeps_applyCoreDogecoinWindow_below (fun block hblock => (blocksAt_mem hb hblock).1)
  have hupdate : shouldUpdateCoreCurrentState context = updateCurrentState := by
    cases updateCurrentState <;> rfl
  have hheld : wp (applyCoreDogecoinWindow input.boundaries (blocks.map coreBlockApplication)
      context) (fun result t => ∃ after, WindowHeld (ReportedOutput B) updateCurrentState applied
        start blocks result after t) Fails Anywhere s.warehouse := by
    have hheld := @wp_applyCoreDogecoinWindow_held _ _ _ _ input.boundaries context _ _ hw hg hb
      hstart hplaced
    rwa [hupdate] at hheld
  refine wp_mono (wp_and (hkeeps s.warehouse rfl) hheld) ?_ ?_ ?_
  · exact fun _ w hw => ⟨h.withWarehouse hw.1,hw.2⟩
  · exact fun _ w hw => (h.withWarehouse hw.1).recoverable
  · exact fun w hw => (h.withWarehouse hw.1).recoverable

theorem attains_clearCoreApplyRecoveryMarker {rows : CoreFactTables}
    {marker : CoreApplyRecoveryMarker} (h : Writing A stage p start rows marker s)
    {applied : List AppliedBlock} (hsolid : Solid A s.warehouse none applied)
    (hstart : start ≤ applied.length) (hstage : stage ≠ .online → p + 1 ≤ start) :
    Attains A (clearCoreApplyRecoveryMarker marker)
      (fun _ => Running A stage p applied.length) s := by
  have hcleared := h.cleared hsolid hstart hstage
  refine wp_bind (wp_call ?_ ?_ h.recoverable h.recoverable)
  · simp only [h.marked,if_true]
    exact wp_pure hcleared
  · simp only [h.marked,if_true]
    exact hcleared.recoverable

theorem attains_applyWindowApplicationsWithRecovery (h : Running A stage p n s)
    (hreported : HoldsReported B s) (hB : ∀ block ∈ blocks, B block)
    (hA : Admits A B updateCurrentState) (hb : BlocksAt start blocks) (hstart : start ≤ n)
    (hstage : stage ≠ .online → p + 1 ≤ start) :
    Attains A (applyWindowApplicationsWithRecovery input (blocks.map coreBlockApplication)
      updateCurrentState) (Processed A stage p) s := by
  obtain ⟨applied,hsolid⟩ := h.recoverable.current.solid
  rw [h.clear] at hsolid
  have hn : applied.length = n := hsolid.height.symm.trans h.height
  unfold applyWindowApplicationsWithRecovery
  cases hblocks : blocks with
  | nil =>
    refine attains_runCoreBlockStep h.recoverable (wp_zoom (wp_ite (fun _ => wp_pure ?_)
      (fun hne => absurd rfl hne))) (fun _ _ ⟨_,ht,_⟩ => ht.recoverable)
    exact ⟨n,h,Int.le_refl _,Int.natCast_nonneg n⟩
  | cons first rest =>
    have hfirst : first.height = start := by
      have hheights := hb
      rw [hblocks] at hheights
      unfold BlocksAt at hheights
      rw [List.length_cons,List.range'_succ,List.map_cons] at hheights
      exact (List.cons.inj hheights).1
    refine wp_bind (wp_look ?_)
    generalize hmarker : createCoreApplyRecoveryMarker _ _ _ _ _ _ = marker
    have hstarts : marker.startHeight = start := by
      rw [← hmarker]
      exact hfirst
    have hwriting := h.writing hstarts hstart hstage
    refine wp_bind (wp_write ?_ hwriting.recoverable h.recoverable h.recoverable)
    rw [← hblocks]
    refine attains_bind (attains_applyWindowApplications hwriting hsolid.facts hsolid.genesis hb
      (hn ▸ hstart) hreported.placed) ?_
    rintro result t ⟨ht,after,hheld⟩
    have hafter : Solid A t.warehouse none after := by
      refine ⟨hheld.facts,hheld.genesis,fun a ha => ?_⟩
      rcases hheld.written a ha with hkept | ⟨window,hsubset,hwritten⟩
      · exact hsolid.written a hkept
      · exact hA window a (fun block hmem => hB block (hsubset hmem)) hwritten
    have hcovers := hheld.covers
    have htail := hheld.tail (by rw [hblocks]; simp)
    refine attains_bind (attains_clearCoreApplyRecoveryMarker ht hafter (by omega) hstage) ?_
    exact fun _ u hu => wp_pure ⟨_,hu,by omega,by omega⟩

/-- A window whose blocks begin at or below the end of the rows leaves no gap below it. -/
theorem attains_processWindow {load : IndexerJob (List ParsedDogecoinBlock)}
    (h : Running A stage p n s) (hA : Admits A B updateCurrentState)
    (hload : Attains A load (fun blocks t => Running A stage p n t ∧ HoldsReported B t ∧
      BlocksAt start blocks ∧ ∀ block ∈ blocks, B block) s)
    (hstart : start ≤ n) (hstage : stage ≠ .online → p + 1 ≤ start) :
    Attains A (processWindow input load updateCurrentState) (Processed A stage p) s := by
  refine attains_bind (attains_runCoreBlockStep h.recoverable hload
    (fun _ _ ht => ht.1.recoverable)) ?_
  rintro blocks t ⟨ht,hreported,hb,hB⟩
  have hbuild : Attains A (Job.ofExcept (buildFastCoreDogecoinBlockApplications blocks))
      (fun applications u => (Running A stage p n u ∧ HoldsReported B u) ∧
        buildFastCoreDogecoinBlockApplications blocks = .ok applications) t :=
    wp_ofExcept (fun applications happlications => ⟨⟨ht,hreported⟩,happlications⟩)
      (fun _ _ => ht.recoverable)
  refine attains_bind (attains_runCoreBlockStep ht.recoverable hbuild
    (fun _ _ hu => hu.1.1.recoverable)) ?_
  rintro applications u ⟨⟨hu,hreported⟩,happlications⟩
  obtain ⟨-,-,-,rfl⟩ := buildFastCoreDogecoinBlockApplications_eq_ok.mp happlications
  exact attains_applyWindowApplicationsWithRecovery hu hreported hB hA hb hstart hstage

theorem attains_publishWindowProgress {latest : Int} {result : CoreDogecoinApplyResult}
    (h : Processed A stage p result s) :
    Attains A (publishWindowProgress settings latest result stage)
      (fun _ t => ∃ n, Running A stage result.processTail n t ∧ result.processTail + 1 ≤ (n : Int))
      s := by
  obtain ⟨n,hs,hmin,hle⟩ := h
  have hup : Running A stage result.processTail n (upserted
      { stage := some stage
        processTail := some result.processTail
        onlineTip := some latest
        lastError := some false } s) := by
    refine ⟨hs.recoverable.upserted hmin (fun _ => ?_),hs.clear,⟨_,rfl,rfl,rfl⟩,hs.height⟩
    rw [hs.clear,hs.height]
    exact hle
  refine attains_runCoreBlockStep hs.recoverable ?_ (fun _ _ ⟨_,ht,_⟩ => ht.recoverable)
  refine wp_bind (wp_upsertCoreIndexerState ?_ hup.recoverable hs.recoverable hs.recoverable)
  exact wp_mono (attains_of_keeps (keeps_publishProgress_running _ _)
    (fun _ h => Running.recoverable h) hup) (fun _ t ht => ⟨n,ht,hle⟩) (fun _ _ h => h)
    (fun _ h => h)

end Process

end OnlyDoge.CoreIndexer
