import OnlyDoge.Indexer.ReadyFlags
import OnlyDoge.Indexer.WindowProcessing
import Mathlib.Data.Set.Basic
set_option autoImplicit false

/-!
What the recorded sync tails promise: every height up to a tail has its snapshot in the raw storage
and its row in the database, whatever a crash of the database takes back.
-/

namespace OnlyDoge.CoreIndexer
open Job

def Stored (rawBlocks : List ParsedDogecoinBlock) (metadata : Metadata) (height : Nat) : Prop :=
  height ∈ rawBlocks.map (·.height) ∧ height ∈ metadata.coreBlocks.map (·.blockHeight)

def upTo (tail : Int) : Set Nat := {height | (height : Int) ≤ tail}

/-- The tail of the state row and that of the progress keys. -/
structure TailsStored (rawBlocks : List ParsedDogecoinBlock) (metadata : Metadata) : Prop where
  state : ∀ state ∈ metadata.indexerState, ∀ height ∈ upTo state.syncTail,
    Stored rawBlocks metadata height
  progress : ∀ tail ∈ metadata.progress.syncTail, ∀ height ∈ upTo tail,
    Stored rawBlocks metadata height

/-- The heights are stored, and the tails of every state of the database that a crash may bring
back hold. -/
structure Synced (heights : Set Nat) (s : IndexerStore) : Prop where
  stored : ∀ height ∈ heights, Stored s.rawBlocks s.metadata height
  tails : TailsStored s.rawBlocks s.metadata
  unflushed : ∀ metadata ∈ s.unflushed, TailsStored s.rawBlocks metadata

theorem upTo_neg_one : upTo (-1) = ∅ := by
  ext height
  simp only [upTo,Set.mem_ofPred_eq,Set.mem_empty_iff_false,iff_false]
  omega

section Writes
variable {H H' : Set Nat} {s : IndexerStore} {f : Metadata → Metadata}

theorem Synced.mono (h : Synced H s) (hsub : H' ⊆ H) : Synced H' s :=
  ⟨fun height hmem => h.stored height (hsub hmem),h.tails,h.unflushed⟩

theorem wp_synced_mono {α : Type} {m : IndexerJob α} {Q Q' : α → IndexerStore → Prop}
    (h : wp m Q (fun _ => Synced H) (Synced H) s) (hsub : H' ⊆ H)
    (hdone : ∀ a t, Q a t → Q' a t) : wp m Q' (fun _ => Synced H') (Synced H') s :=
  wp_mono h hdone (fun _ _ ht => ht.mono hsub) (fun _ ht => ht.mono hsub)

theorem Synced.union (h : Synced H s) (h' : ∀ height ∈ H', Stored s.rawBlocks s.metadata height) :
    Synced (H ∪ H') s :=
  ⟨fun height hmem => hmem.elim (h.stored height) (h' height),h.tails,h.unflushed⟩

theorem TailsStored.of_rawBlocks {rawBlocks rawBlocks' : List ParsedDogecoinBlock}
    {metadata : Metadata} (h : TailsStored rawBlocks metadata)
    (hsub : rawBlocks.map (·.height) ⊆ rawBlocks'.map (·.height)) :
    TailsStored rawBlocks' metadata where
  state state hstate height hmem :=
    ⟨hsub (h.state state hstate height hmem).1,(h.state state hstate height hmem).2⟩
  progress tail htail height hmem :=
    ⟨hsub (h.progress tail htail height hmem).1,(h.progress tail htail height hmem).2⟩

theorem mem_putPart {block : ParsedDogecoinBlock} {height : Nat} :
    height ∈ (s.putPart block).rawBlocks.map (·.height) ↔
      height ∈ s.rawBlocks.map (·.height) ∨ height = block.height :=
  Rows.mem_keys_upsert

theorem Synced.putPart (h : Synced H s) (block : ParsedDogecoinBlock) :
    Synced H (s.putPart block) := by
  have hsub : s.rawBlocks.map (·.height) ⊆ (s.putPart block).rawBlocks.map (·.height) :=
    fun height hmem => mem_putPart.mpr (Or.inl hmem)
  exact ⟨fun height hmem => ⟨hsub (h.stored height hmem).1,(h.stored height hmem).2⟩,
    h.tails.of_rawBlocks hsub,fun m hm => (h.unflushed m hm).of_rawBlocks hsub⟩

theorem Stored.of_rows {rawBlocks : List ParsedDogecoinBlock} {m m' : Metadata} {height : Nat}
    (h : Stored rawBlocks m height)
    (hrows : m.coreBlocks.map (·.blockHeight) ⊆ m'.coreBlocks.map (·.blockHeight)) :
    Stored rawBlocks m' height := ⟨h.1,hrows h.2⟩

theorem Synced.relaxed (h : Synced H s)
    (hrows : s.metadata.coreBlocks.map (·.blockHeight) ⊆
      (f s.metadata).coreBlocks.map (·.blockHeight))
    (htails : TailsStored s.rawBlocks (f s.metadata)) : Synced H (s.relaxed f) := by
  refine ⟨fun height hmem => (h.stored height hmem).of_rows hrows,htails,fun m hm => ?_⟩
  rcases List.mem_append.mp hm with hm | hm
  · exact h.unflushed m hm
  · rw [List.mem_singleton.mp hm]
    exact h.tails

/-- No row is lost, and the state row and the progress tail stay as they are. -/
structure KeepsTails (f : Metadata → Metadata) : Prop where
  rows : ∀ m : Metadata, m.coreBlocks.map (·.blockHeight) ⊆ (f m).coreBlocks.map (·.blockHeight)
  state : ∀ m, (f m).indexerState = m.indexerState
  progress : ∀ m, (f m).progress.syncTail = m.progress.syncTail

theorem KeepsTails.of_eq (h : ∀ m : Metadata, (f m).coreBlocks = m.coreBlocks ∧
    (f m).indexerState = m.indexerState ∧ (f m).progress.syncTail = m.progress.syncTail) :
    KeepsTails f :=
  ⟨fun m => by rw [(h m).1]; exact List.Subset.refl _,fun m => (h m).2.1,fun m => (h m).2.2⟩

theorem KeepsTails.tailsStored (hf : KeepsTails f) {rawBlocks : List ParsedDogecoinBlock}
    {m : Metadata} (h : TailsStored rawBlocks m) : TailsStored rawBlocks (f m) where
  state state hs height hmem :=
    (h.state state (hf.state m ▸ hs) height hmem).of_rows (hf.rows m)
  progress tail ht height hmem :=
    (h.progress tail (hf.progress m ▸ ht) height hmem).of_rows (hf.rows m)

theorem Synced.keepsTails_relaxed (h : Synced H s) (hf : KeepsTails f) : Synced H (s.relaxed f) :=
  h.relaxed (hf.rows _) (hf.tailsStored h.tails)

theorem Synced.keepsTails_durable (h : Synced H s) (hf : KeepsTails f) :
    Synced H (s.durable f) :=
  ⟨fun height hmem => (h.stored height hmem).of_rows (hf.rows _),hf.tailsStored h.tails,
    fun m hm => by cases hm⟩

theorem keeps_execute_synced (h : ∀ m : Metadata, (f m).coreBlocks = m.coreBlocks ∧
    (f m).indexerState = m.indexerState ∧ (f m).progress.syncTail = m.progress.syncTail) :
    Keeps (Synced H) (execute f) :=
  keeps_write (fun _ hs => hs.keepsTails_durable (.of_eq h))

theorem keeps_zoom_synced {α : Type} (m : WarehouseJob α) :
    Keeps (Synced H) (Job.zoom IndexerStore.warehousePart m) :=
  keeps_zoom (fun _ hs _ _ => wp_mono (wp_true m)
    (fun _ _ _ => ⟨hs.stored,hs.tails,hs.unflushed⟩)
    (fun _ _ _ => ⟨hs.stored,hs.tails,hs.unflushed⟩)
    (fun _ _ => ⟨hs.stored,hs.tails,hs.unflushed⟩))

theorem mem_upsertCoreBlocks (records : List CoreBlockRecord) (m : Metadata) (height : Nat) :
    height ∈ (Metadata.upsertCoreBlocks records m).coreBlocks.map (·.blockHeight) ↔
      height ∈ m.coreBlocks.map (·.blockHeight) ∨ height ∈ records.map (·.blockHeight) := by
  unfold Metadata.upsertCoreBlocks
  induction records generalizing m with
  | nil => simp
  | cons record records ih =>
    have hrow : height ∈ (m.upsertCoreBlock record).coreBlocks.map (·.blockHeight) ↔
        height ∈ m.coreBlocks.map (·.blockHeight) ∨ height = record.blockHeight :=
      Rows.mem_keys_upsert
    rw [List.foldl_cons,ih,hrow,List.map_cons,List.mem_cons,or_assoc]

theorem keepsTails_upsertCoreBlocks (records : List CoreBlockRecord) :
    KeepsTails (Metadata.upsertCoreBlocks records) where
  rows m height hmem := (mem_upsertCoreBlocks records m height).mpr (Or.inl hmem)
  state m := by
    unfold Metadata.upsertCoreBlocks
    induction records generalizing m with
    | nil => rfl
    | cons record records ih => exact ih (m.upsertCoreBlock record)
  progress m := by
    unfold Metadata.upsertCoreBlocks
    induction records generalizing m with
    | nil => rfl
    | cons record records ih => exact ih (m.upsertCoreBlock record)

variable {update : CoreIndexerStateUpdate} {state : CoreIndexerState}
variable {settings : CoreDogecoinIndexerSettings} {latest : Int}

theorem stored_next (h : Synced H s) (htail : ∀ tail ∈ update.syncTail, upTo tail ⊆ H) :
    ∀ height ∈ upTo (update.next s.metadata.indexerState).syncTail,
      Stored s.rawBlocks s.metadata height := by
  intro height hmem
  cases hgiven : update.syncTail with
  | some tail =>
    have hnext : (update.next s.metadata.indexerState).syncTail = tail := by
      simp [CoreIndexerStateUpdate.next,hgiven]
    exact h.stored height (htail tail hgiven (hnext ▸ hmem))
  | none =>
    cases hrow : s.metadata.indexerState with
    | none =>
      simp only [CoreIndexerStateUpdate.next,hgiven,hrow,Option.map_none,Option.getD_none,
        upTo_neg_one] at hmem
      exact absurd hmem (Set.notMem_empty height)
    | some row =>
      have hnext : (update.next s.metadata.indexerState).syncTail = row.syncTail := by
        simp [CoreIndexerStateUpdate.next,hgiven,hrow]
      exact h.tails.state row hrow height (hnext ▸ hmem)

theorem Synced.upserted (h : Synced H s) (htail : ∀ tail ∈ update.syncTail, upTo tail ⊆ H) :
    Synced (H ∪ upTo (update.next s.metadata.indexerState).syncTail) (upserted update s) := by
  have hnext := stored_next h htail
  refine (h.relaxed (List.Subset.refl _) ⟨?_,h.tails.progress⟩).union hnext
  intro state hstate height hmem
  cases hstate
  exact hnext height hmem

theorem wp_upsert_synced (h : Synced H s) (htail : ∀ tail ∈ update.syncTail, upTo tail ⊆ H) :
    wp (upsertCoreIndexerState update) (fun state => Synced (H ∪ upTo state.syncTail))
      (fun _ => Synced H) (Synced H) s :=
  wp_upsertCoreIndexerState (h.upserted htail) ((h.upserted htail).mono Set.subset_union_left) h h

theorem keeps_upsert_synced (htail : ∀ tail ∈ update.syncTail, upTo tail ⊆ H) :
    Keeps (Synced H) (upsertCoreIndexerState update) := fun _ h =>
  wp_synced_mono (wp_upsert_synced h htail) (Set.Subset.refl H)
    (fun _ _ ht => ht.mono Set.subset_union_left)

theorem keeps_publishProgress_synced (htail : upTo state.syncTail ⊆ H) :
    Keeps (Synced H) (publishProgress settings latest state) := by
  refine keeps_publishProgress (fun s _ h => h.relaxed (List.Subset.refl _) ⟨h.tails.state,?_⟩)
  intro tail ht height hmem
  cases ht
  exact h.stored height (htail hmem)

end Writes

section Sync
variable {settings : CoreDogecoinIndexerSettings} {input : IterationInput} {latest : Int}
variable {state : CoreIndexerState} {stage : CoreIndexerStage}
variable {H : Set Nat} {s : IndexerStore} {onCheckpoint : Int → IndexerJob Unit}

def heightsIn (heights : List Nat) : Set Nat := {height | height ∈ heights}

theorem absorbsSync_synced (heights : List Nat) : AbsorbsSync input heights (Synced H) where
  part block _ _ h := h.putPart block
  blocks _ _ _ h := h.keepsTails_relaxed (keepsTails_upsertCoreBlocks _)
  refs _ _ _ h := ⟨h.stored,h.tails,h.unflushed⟩
  concurrency _ _ h := ⟨h.stored,h.tails,h.unflushed⟩
  underway _ _ _ h := ⟨h.stored,h.tails,h.unflushed⟩

theorem heights_mapM {batch : List Nat} {blocks : List ParsedDogecoinBlock}
    (h : batch.mapM input.node.block = some blocks) : blocks.map (·.height) = batch := by
  induction batch generalizing blocks with
  | nil =>
    cases h
    rfl
  | cons height batch ih =>
    rw [List.mapM_cons] at h
    obtain ⟨block,hblock,h⟩ := Option.bind_eq_some_iff.mp h
    obtain ⟨rest,hrest,h⟩ := Option.bind_eq_some_iff.mp h
    cases h
    rw [List.map_cons,node_block_height hblock,ih hrest]

theorem wp_putParts_synced (blocks : List ParsedDogecoinBlock) (put : List Nat)
    (h : Synced H s) (hput : put ⊆ s.rawBlocks.map (·.height)) :
    wp (Job.settleAll (blocks.map fun block => Job.write (IndexerStore.putPart block)) :
        IndexerJob Unit)
      (fun _ t => Synced H t ∧ put ++ blocks.map (·.height) ⊆ t.rawBlocks.map (·.height))
      (fun _ => Synced H) (Synced H) s := by
  induction blocks generalizing put s with
  | nil => exact wp_pure ⟨h,by simpa using hput⟩
  | cons block blocks ih =>
    have hfailed : Keeps (Synced H) (Job.settleAll
        (blocks.map fun block => Job.write (IndexerStore.putPart block)) : IndexerJob Unit) := by
      refine keeps_settleAll (fun m hm => ?_)
      obtain ⟨block,-,rfl⟩ := List.mem_map.mp hm
      exact keeps_write (fun _ h => h.putPart block)
    have hnext : put ++ [block.height] ⊆ (s.putPart block).rawBlocks.map (·.height) := by
      intro height hmem
      rcases List.mem_append.mp hmem with hmem | hmem
      · exact mem_putPart.mpr (Or.inl (hput hmem))
      · exact mem_putPart.mpr (Or.inr (List.mem_singleton.mp hmem))
    refine wp_settleAll_cons (wp_write ?_ (hfailed _ (h.putPart block)) (hfailed _ h) h)
    refine wp_mono (ih (put ++ [block.height]) (h.putPart block) hnext) (fun _ t ht => ?_)
      (fun _ _ ht => ht) (fun _ ht => ht)
    simpa using ht

theorem wp_syncBatch_synced (h : Synced H s) (batch : List Nat) :
    wp (syncBatch input batch) (fun _ => Synced (H ∪ heightsIn batch)) (fun _ => Synced H)
      (Synced H) s := by
  refine wp_bind (wp_getBlockSnapshots (fun blocks hblocks => ?_) (fun _ => h) h)
  refine wp_bind (wp_mono (wp_putParts_synced blocks [] h (List.nil_subset _)) ?_
    (fun _ _ ht => ht) (fun _ ht => ht))
  rintro - t ⟨ht,hput⟩
  rw [List.nil_append,heights_mapM hblocks] at hput
  have hrows := ht.keepsTails_relaxed (keepsTails_upsertCoreBlocks (blocks.map recordOf))
  have hbatch : Synced (H ∪ heightsIn batch)
      (t.relaxed (Metadata.upsertCoreBlocks (blocks.map recordOf))) := by
    refine hrows.union (fun height hmem => ⟨hput hmem,(mem_upsertCoreBlocks _ _ _).mpr (Or.inr ?_)⟩)
    rw [List.map_map]
    change height ∈ blocks.map (·.height)
    rw [heights_mapM hblocks]
    exact hmem
  refine wp_bind (wp_write ?_ hrows ht ht)
  refine wp_synced_mono (keeps_when (fun _ => keeps_write (fun _ h => ?_)) _ hbatch)
    Set.subset_union_left (fun _ _ h => h)
  exact ⟨h.stored,h.tails,h.unflushed⟩

theorem keeps_recordBatch_synced
    (f : AdaptiveConcurrencyController → AdaptiveConcurrencyController) :
    Keeps (Synced H) (recordBatch f) :=
  keeps_assign (fun _ h => ⟨h.stored,h.tails,h.unflushed⟩)

theorem wp_syncBatchWithRetry_synced (h : Synced H s) (batch : List Nat) (attempts : Nat) :
    wp (syncBatchWithRetry input batch attempts) (fun _ => Synced (H ∪ heightsIn batch))
      (fun _ => Synced H) (Synced H) s := by
  have hdone {t : IndexerStore} (ht : Synced (H ∪ heightsIn batch) t) :
      wp (recordBatch AdaptiveConcurrencyController.recordSuccess)
        (fun _ => Synced (H ∪ heightsIn batch)) (fun _ => Synced H) (Synced H) t :=
    wp_synced_mono (keeps_recordBatch_synced _ t ht) Set.subset_union_left (fun _ _ ht => ht)
  induction attempts generalizing s with
  | zero =>
    refine wp_bind (wp_onFailure (wp_mono (wp_syncBatch_synced h batch) (fun _ _ => hdone) ?_
      (fun _ ht => ht)))
    exact fun _ t ht => keeps_recordBatch_synced _ t ht
  | succ attempts ih =>
    refine wp_bind (wp_attempt (wp_mono (wp_syncBatch_synced h batch) (fun _ _ => hdone) ?_
      (fun _ ht => ht)))
    intro _ t ht
    exact wp_bind (wp_mono (keeps_recordBatch_synced _ t ht) (fun _ _ => ih) (fun _ _ ht => ht)
      (fun _ ht => ht))

theorem wp_round_synced (h : Synced H s) (attempts : Nat) (round : List (List Nat)) :
    wp (Job.settleAll (round.map fun batch => syncBatchWithRetry input batch attempts))
      (fun _ => Synced (H ∪ heightsIn round.flatten)) (fun _ => Synced H) (Synced H) s := by
  induction round generalizing H s with
  | nil => exact wp_pure (h.union (fun height hmem => absurd hmem List.not_mem_nil))
  | cons batch round ih =>
    have hfailed : Keeps (Synced H) (Job.settleAll
        (round.map fun batch => syncBatchWithRetry input batch attempts)) := by
      refine keeps_settleAll (fun m hm => ?_)
      obtain ⟨batch,-,rfl⟩ := List.mem_map.mp hm
      exact keeps_syncBatchWithRetry (absorbsSync_synced batch) (List.Subset.refl _) attempts
    refine wp_settleAll_cons (wp_mono (wp_syncBatchWithRetry_synced h batch attempts) ?_
      (fun _ t ht => hfailed t ht) (fun _ ht => ht))
    intro _ t ht
    refine wp_synced_mono (ih ht) Set.subset_union_left (fun _ u hu => hu.mono ?_)
    rintro height (hmem | hmem)
    · exact Or.inl (Or.inl hmem)
    · rcases List.mem_append.mp hmem with hmem | hmem
      · exact Or.inl (Or.inr hmem)
      · exact Or.inr hmem

theorem flatten_take_range' {batches : List (List Nat)} {first n : Nat}
    (hflat : batches.flatten = List.range' first n) (count : Nat) :
    (batches.take count).flatten = List.range' first (batches.take count).flatten.length ∧
      (batches.drop count).flatten = List.range' (first + (batches.take count).flatten.length)
        (batches.drop count).flatten.length := by
  have hsplit : (batches.take count).flatten ++ (batches.drop count).flatten =
      List.range' first n := by
    rw [← List.flatten_append,List.take_append_drop,hflat]
  have hlength := congrArg List.length hsplit
  rw [List.length_append,List.length_range'] at hlength
  rw [← hlength,← List.range'_append_1] at hsplit
  exact List.append_inj hsplit (by rw [List.length_range'])

/-- A checkpoint is taken at a frontier only when everything below it is stored. -/
def ChecksStored (first : Nat) (H : Set Nat) (onCheckpoint : Int → IndexerJob Unit) : Prop :=
  ∀ (frontier : Int) (H' : Set Nat), H ⊆ H' →
    (∀ height : Nat, first ≤ height → (height : Int) ≤ frontier → height ∈ H') →
      Keeps (Synced H') (onCheckpoint frontier)

theorem ChecksStored.later {first k : Nat} (h : ChecksStored first H onCheckpoint) :
    ChecksStored (first + k) (H ∪ heightsIn (List.range' first k)) onCheckpoint := by
  intro frontier H' hsub hheights
  refine h frontier H' (Set.subset_union_left.trans hsub) (fun height hstart hfrontier => ?_)
  by_cases hdone : height < first + k
  · exact hsub (Or.inr (List.mem_range'_1.mpr ⟨hstart,hdone⟩))
  · exact hheights height (by omega) hfrontier

theorem Synced.noBatch (h : Synced H s) {first n : Nat}
    (hflat : ([] : List (List Nat)).flatten = List.range' first n) :
    Synced (H ∪ heightsIn (List.range' first n)) s := by
  rw [← hflat]
  exact h.union (fun height hmem => absurd hmem List.not_mem_nil)

theorem wp_syncRounds_synced (rounds : Nat) {batches : List (List Nat)} {first n : Nat}
    (hflat : batches.flatten = List.range' first n) (hrounds : batches.length ≤ rounds)
    (hcheckpoint : ChecksStored first H onCheckpoint) (h : Synced H s) :
    wp (syncRounds settings input onCheckpoint rounds ⟨(first : Int) - 1,[],false⟩ batches)
      (fun _ => Synced (H ∪ heightsIn (List.range' first n))) (fun _ => Synced H) (Synced H) s := by
  induction rounds generalizing H s batches first n with
  | zero =>
    obtain rfl := List.length_eq_zero_iff.mp (Nat.le_zero.mp hrounds)
    exact wp_pure (h.noBatch hflat)
  | succ rounds ih =>
    refine wp_ite (fun hempty => wp_pure ?_) (fun hsome => ?_)
    · obtain rfl := List.isEmpty_iff.mp hempty
      exact h.noBatch hflat
    refine wp_bind (wp_read (wp_bind (wp_look ?_)) h h)
    have hpos : 1 ≤ max 1 s.process.concurrency.current := Nat.le_max_left _ _
    generalize max 1 s.process.concurrency.current = concurrency at hpos ⊢
    obtain ⟨hround,hrest⟩ := flatten_take_range' hflat concurrency
    have hn := congrArg List.length hflat
    rw [← List.take_append_drop concurrency batches,List.flatten_append,List.length_append,
      List.length_range'] at hn
    generalize (batches.take concurrency).flatten.length = k at hround hrest hn
    refine wp_bind (wp_onFailure (wp_mono (wp_round_synced h _ (batches.take concurrency)) ?_ ?_
      (fun _ ht => ht)))
    · intro _ t ht
      rw [ContiguousFrontier.foldl_markCompleted _ _ _ _ hround]
      rw [hround] at ht
      have hfrontier : (first : Int) - 1 + (k : Int) = ((first + k : Nat) : Int) - 1 := by omega
      refine wp_bind (wp_synced_mono
        (keeps_when (fun _ => hcheckpoint _ _ Set.subset_union_left ?_) t ht)
        Set.subset_union_left (fun _ u hu => ?_))
      · intro height hstart hle
        simp only at hle
        exact Or.inr (List.mem_range'_1.mpr ⟨hstart,by omega⟩)
      · have hlength : (batches.drop concurrency).length ≤ rounds := by
          rw [List.length_drop]
          omega
        have hlater := ih hrest hlength hcheckpoint.later hu
        rw [← hfrontier] at hlater
        refine wp_synced_mono hlater Set.subset_union_left (fun _ v hv => hv.mono ?_)
        rintro height (hmem | hmem)
        · exact Or.inl (Or.inl hmem)
        · have hrange := List.mem_range'_1.mp hmem
          by_cases hdone : height < first + k
          · exact Or.inl (Or.inr (List.mem_range'_1.mpr ⟨hrange.1,hdone⟩))
          · exact Or.inr (List.mem_range'_1.mpr ⟨by omega,by omega⟩)
    · exact fun _ t ht => wp_assign ⟨ht.stored,ht.tails,ht.unflushed⟩

end Sync

section Walk
variable {settings : CoreDogecoinIndexerSettings} {input : IterationInput} {latest : Int}
variable {state : CoreIndexerState} {update : CoreIndexerStateUpdate} {stage : CoreIndexerStage}
variable {H : Set Nat} {s : IndexerStore} {onCheckpoint : Int → IndexerJob Unit}

theorem wp_storeRawBlockHeights_synced {first n : Nat}
    (hcheckpoint : ChecksStored first H onCheckpoint) (h : Synced H s) :
    wp (storeRawBlockHeights settings input (List.range' first n) onCheckpoint)
      (fun _ => Synced (H ∪ heightsIn (List.range' first n))) (fun _ => Synced H) (Synced H) s := by
  cases n with
  | zero => exact wp_pure (h.noBatch rfl)
  | succ n => exact wp_syncRounds_synced _ chunk_flatten (Nat.le_refl _) hcheckpoint h

theorem keeps_upsert_untailed (hnone : update.syncTail = none) :
    Keeps (Synced H) (upsertCoreIndexerState update) := by
  refine keeps_upsert_synced (fun tail htail => ?_)
  rw [hnone] at htail
  cases htail

theorem keeps_upsertPublish_synced (htail : ∀ tail ∈ update.syncTail, upTo tail ⊆ H) :
    Keeps (Synced H) (upsertCoreIndexerState update >>= fun state =>
      publishProgress settings latest state) := by
  intro s h
  refine wp_bind (wp_mono (wp_upsert_synced h htail) (fun state t ht => ?_) (fun _ _ ht => ht)
    (fun _ ht => ht))
  exact wp_synced_mono (keeps_publishProgress_synced Set.subset_union_right t ht)
    Set.subset_union_left (fun _ _ hu => hu.mono Set.subset_union_left)

theorem checksStored_checkpointSyncTail {first : Nat}
    (hbelow : ∀ height : Nat, height < first → height ∈ H) :
    ChecksStored first H (checkpointSyncTail latest state stage) := by
  intro frontier H' hsub hheights
  refine keeps_checkpointSyncTail (fun t ht => (ht.upserted ?_).mono Set.subset_union_left)
  intro tail htail height hmem
  cases htail
  by_cases hfirst : height < first
  · exact hsub (hbelow height hfirst)
  · exact hheights height (Nat.le_of_not_lt hfirst) hmem

theorem keeps_syncRawBlockHeights_synced {start stop : Int}
    (hbelow : ∀ height : Nat, (height : Int) < start → height ∈ H) :
    Keeps (Synced H)
      (syncRawBlockHeights settings input latest state (range start stop) stop stage) := by
  intro s h
  have hchecks : ChecksStored start.toNat H (checkpointSyncTail latest state stage) :=
    checksStored_checkpointSyncTail (fun height hlt => hbelow height (by omega))
  have hstop : upTo stop ⊆ H ∪ heightsIn (range start stop) := by
    intro height hmem
    have hle : (height : Int) ≤ stop := hmem
    by_cases hstart : (height : Int) < start
    · exact Or.inl (hbelow height hstart)
    · exact Or.inr (List.mem_range'_1.mpr ⟨by omega,by omega⟩)
  refine wp_bind (wp_mono (wp_storeRawBlockHeights_synced hchecks h) (fun _ t ht => ?_)
    (fun _ _ ht => ht) (fun _ ht => ht))
  refine wp_synced_mono
    (keeps_bind keeps_assertPrimaryLease (fun _ => keeps_upsertPublish_synced ?_) t ht)
    Set.subset_union_left (fun _ _ hu => hu.mono Set.subset_union_left)
  intro tail htail
  cases htail
  exact hstop

theorem keeps_syncBackfill_synced (h : upTo state.syncTail ⊆ H) :
    Keeps (Synced H) (syncBackfill settings input latest state) := by
  refine keeps_ite (fun _ => ?_) (fun _ => ?_)
  · exact keeps_bind (keeps_upsert_untailed rfl) (fun _ => keeps_bind
      (keeps_execute_synced (fun _ => ⟨rfl,rfl,rfl⟩)) (fun _ => keeps_pure _))
  · refine keeps_bind (keeps_syncRawBlockHeights_synced (fun height hlt => h ?_))
      (fun _ => keeps_pure _)
    exact Int.lt_add_one_iff.mp hlt

theorem keeps_compareAndDelete_synced (marker : CoreApplyRecoveryMarker) :
    Keeps (Synced H) (compareAndDeleteCoreApplyRecovery marker) := by
  refine keeps_call (fun s h => ?_)
  by_cases hmarker : s.metadata.coreApplyRecovery = some marker
  · simp only [hmarker,if_true]
    exact h.keepsTails_relaxed (.of_eq (fun _ => ⟨rfl,rfl,rfl⟩))
  · simp only [hmarker,if_false]
    exact h

theorem keeps_processWindow_synced {load : IndexerJob (List ParsedDogecoinBlock)}
    {updateCurrentState : Bool} (hload : Keeps (Synced H) load) :
    Keeps (Synced H) (processWindow input load updateCurrentState) := by
  have happly (applications : List CoreDogecoinBlockApplication) : Keeps (Synced H)
      (applyWindowApplications input applications updateCurrentState) :=
    keeps_runCoreBlockStep (keeps_zoom_synced _)
  refine keeps_bind (keeps_runCoreBlockStep hload) (fun _ =>
    keeps_bind (keeps_runCoreBlockStep (keeps_ofExcept _)) (fun applications => ?_))
  unfold applyWindowApplicationsWithRecovery
  cases applications.head? with
  | none => exact happly applications
  | some first =>
    refine keeps_bind (keeps_look _) (fun _ => keeps_bind
      (keeps_execute_synced (fun _ => ⟨rfl,rfl,rfl⟩)) (fun _ =>
      keeps_bind (happly applications) (fun _ => keeps_bind ?_ (fun _ => keeps_pure _))))
    refine keeps_bind (keeps_compareAndDelete_synced _) (fun cleared => ?_)
    cases cleared with
    | true => exact keeps_pure ()
    | false => exact keeps_throw _

theorem keeps_publishWindowProgress_synced {result : CoreDogecoinApplyResult} :
    Keeps (Synced H) (publishWindowProgress settings latest result stage) :=
  keeps_runCoreBlockStep (keeps_upsertPublish_synced (fun _ htail => by cases htail))

theorem keeps_promoteBackfillToOnline_synced {currentStateReady : Bool} :
    Keeps (Synced H) (promoteBackfillToOnline input latest state currentStateReady) := by
  have hmaterialize (asOfBlockHeight : Nat) :
      Keeps (Synced H) (materializeCurrentState input latest asOfBlockHeight) := by
    refine keeps_bind (keeps_read _) (fun resumeFrom => keeps_bind
      (keeps_materializeCoreDogecoinCurrentState
        (fun _ _ _ h => ⟨h.stored,h.tails,h.unflushed⟩) (fun _ _ => ?_) _) (fun _ => ?_))
    · exact keeps_bind (keeps_write (fun _ h =>
          h.keepsTails_relaxed (.of_eq (fun _ => ⟨rfl,rfl,rfl⟩)))) (fun _ =>
        keeps_bind keeps_assertPrimaryLease (fun _ => keeps_when (fun _ =>
          keeps_bind (keeps_upsert_untailed rfl) (fun _ => keeps_pure ()))))
    · refine keeps_bind (keeps_settleAll (fun m hm => ?_))
        (fun _ => keeps_execute_synced (fun _ => ⟨rfl,rfl,rfl⟩))
      simp only [List.mem_cons,List.not_mem_nil,or_false] at hm
      rcases hm with rfl | rfl <;> exact keeps_execute_synced (fun _ => ⟨rfl,rfl,rfl⟩)
  refine keeps_bind (keeps_when (fun _ => hmaterialize _)) (fun _ =>
    keeps_bind (keeps_upsert_untailed rfl) (fun _ => keeps_settleAll (fun m hm => ?_)))
  simp only [List.mem_cons,List.not_mem_nil,or_false] at hm
  rcases hm with rfl | rfl | rfl <;> exact keeps_execute_synced (fun _ => ⟨rfl,rfl,rfl⟩)

theorem keeps_loadBackfillSnapshots_synced (plan : CoreWindowPlan) :
    Keeps (Synced H) (loadBackfillSnapshots settings input plan) := fun _ h =>
  wp_mono (wp_loadBackfillSnapshots (J := Synced H)
    (fun _ _ h => ⟨h.stored,h.tails,h.unflushed⟩) h plan)
    (fun _ _ ht => ht.1) (fun _ _ ht => ht) (fun _ ht => ht)

theorem keeps_processBackfill_synced :
    Keeps (Synced H) (processBackfill settings input latest state) := by
  refine keeps_bind (keeps_read _) (fun ready => keeps_ite (fun _ => ?_) (fun _ => ?_))
  · have hpromote : Keeps (Synced H) (shouldPromoteBackfill settings latest state ready) :=
      keeps_ite (fun _ => keeps_pure _) (fun _ => keeps_ite (fun _ => keeps_pure _)
        (fun _ => keeps_bind (keeps_read _) (fun _ => keeps_pure _)))
    have hreturn : Keeps (Synced H) (returnBackfillToSync latest) :=
      keeps_bind (keeps_upsert_untailed rfl)
        (fun _ => keeps_execute_synced (fun _ => ⟨rfl,rfl,rfl⟩))
    exact keeps_bind hpromote (fun _ => keeps_ite
      (fun _ => keeps_bind keeps_promoteBackfillToOnline_synced (fun _ => keeps_pure _))
      (fun _ => keeps_bind hreturn (fun _ => keeps_pure _)))
  · exact keeps_bind (keeps_look _) (fun _ => keeps_bind
      (keeps_processWindow_synced (keeps_loadBackfillSnapshots_synced _)) (fun _ =>
      keeps_bind keeps_publishWindowProgress_synced (fun _ => keeps_pure _)))

theorem keeps_online_synced (h : upTo state.syncTail ⊆ H) :
    Keeps (Synced H) (online settings input latest state) := by
  have hplan (heights : List Nat) : Keeps (Synced H) (fixedWindowPlan heights) :=
    keeps_ite (fun _ => keeps_throw _) (fun _ => keeps_loadRawSnapshots heights)
  have hwindow (row : CoreIndexerState) (target : Int) (ready : Bool) : Keeps (Synced H)
      (processOnlineWindow settings input latest row target ready) :=
    keeps_bind (keeps_storeRawBlockHeights (absorbsSync_synced _) (fun _ => keeps_pure ()))
      (fun _ => keeps_bind (keeps_processWindow_synced (hplan _)) (fun _ =>
        keeps_bind keeps_publishWindowProgress_synced (fun _ => keeps_pure _)))
  have hprocess (row : CoreIndexerState) (force : Bool) : Keeps (Synced H)
      (processOnlineBacklogIfNeeded settings input latest row force) :=
    keeps_ite (fun _ => keeps_pure _) (fun _ => keeps_bind (keeps_read _)
      (fun _ => hwindow row _ _))
  have hsync (stop : Int) : Keeps (Synced H)
      (syncOnlineBacklogIfNeeded settings input latest state stop) := by
    refine keeps_ite (fun _ => keeps_pure _) (fun _ => keeps_bind
      (keeps_syncRawBlockHeights_synced (fun height hlt => h ?_)) (fun _ => keeps_pure _))
    unfold onlineRawRefreshStart at hlt
    change (height : Int) ≤ state.syncTail
    omega
  have hidle : Keeps (Synced H) (publishOnlineNoWorkIfPossible settings latest state) := by
    refine keeps_bind (keeps_read _) (fun _ => keeps_ite (fun _ => ?_)
      (fun _ => keeps_when (fun _ => keeps_publishProgress_synced h)))
    unfold ensureReadyOnlineState
    by_cases hready : isReadyOnlineState state latest
    · rw [if_pos hready]
      exact fun s hs => wp_bind (wp_pure (keeps_publishProgress_synced h s hs))
    · rw [if_neg hready]
      exact keeps_upsertPublish_synced (fun _ htail => by cases htail)
  refine keeps_bind (keeps_bind (hsync _) (fun didSync => keeps_bind
    (keeps_bind (keeps_read _) (fun _ => keeps_pure _)) (fun row =>
      keeps_bind (hprocess row didSync) (fun _ => keeps_pure _)))) (fun didWork => ?_)
  exact keeps_ite (fun _ => keeps_pure _) (fun _ => keeps_bind hidle (fun _ => keeps_pure _))

theorem Synced.bare (h : Synced H s) : Synced ∅ s := h.mono (Set.empty_subset H)

theorem wp_of_keepsSynced {α : Type} {m : IndexerJob α} {Q : α → IndexerStore → Prop}
    (hkeeps : Keeps (Synced H) m) (h : Synced H s) (hdone : ∀ a t, Synced H t → Q a t) :
    wp m Q (fun _ => Synced ∅) (Synced ∅) s :=
  wp_synced_mono (hkeeps s h) (Set.empty_subset H) hdone

theorem wp_ensureState_synced (h : Synced ∅ s) :
    wp (ensureState latest) (fun state => Synced (upTo state.syncTail)) (fun _ => Synced ∅)
      (Synced ∅) s := by
  refine wp_bind (wp_read ?_ h h)
  cases hrow : s.metadata.indexerState with
  | some state => exact wp_pure ⟨h.tails.state state hrow,h.tails,h.unflushed⟩
  | none =>
    refine wp_bind (wp_read ?_ h h)
    have hstored : Synced (upTo (s.metadata.progress.syncTail.getD (-1))) s := by
      refine ⟨?_,h.tails,h.unflushed⟩
      cases htail : s.metadata.progress.syncTail with
      | none => simp [upTo_neg_one]
      | some tail => exact h.tails.progress tail htail
    refine wp_synced_mono (wp_upsert_synced hstored ?_) (Set.empty_subset _)
      (fun _ _ ht => ht.mono Set.subset_union_right)
    intro tail htail height hmem
    cases htail
    have hle : (height : Int) ≤ min (s.metadata.progress.syncTail.getD (-1)) latest := hmem
    exact hle.trans (min_le_left _ _)

theorem wp_reconcile_synced (h : Synced (upTo state.syncTail) s) :
    wp (reconcileProcessTailWithWarehouse input state) (fun next => Synced (upTo next.syncTail))
      (fun _ => Synced ∅) (Synced ∅) s := by
  refine wp_bind (wp_look (wp_ite (fun _ => wp_pure h) (fun _ => ?_)))
  refine wp_bind (wp_of_keepsSynced (keeps_zoom_synced _) h (fun tail t ht => ?_))
  refine wp_bind (wp_of_keepsSynced
    (keeps_assign (fun _ h => ⟨h.stored,h.tails,h.unflushed⟩)) ht (fun _ u hu => ?_))
  refine wp_ite (fun _ => wp_pure hu) (fun _ => ?_)
  refine wp_bind (wp_of_keepsSynced (keeps_read _) hu (fun _ v hv => ?_))
  refine wp_bind (wp_of_keepsSynced (keeps_zoom_synced _) hv (fun _ w hw => ?_))
  exact wp_synced_mono (wp_upsert_synced hw (fun _ htail => by cases htail)) (Set.empty_subset _)
    (fun _ _ hx => hx.mono Set.subset_union_right)

theorem wp_startIteration_synced (h : Synced ∅ s) :
    wp (startIteration settings input latest) (fun state => Synced (upTo state.syncTail))
      (fun _ => Synced ∅) (Synced ∅) s := by
  have hrecover : Keeps (Synced ∅) (recoverPendingCoreApplyIfNeeded input) := by
    refine keeps_bind (keeps_read _) (fun marker => ?_)
    cases marker with
    | none => exact keeps_pure ()
    | some marker =>
      refine keeps_bind (keeps_ofExcept _) (fun marker => keeps_bind (keeps_zoom_synced _)
        (fun _ => keeps_bind (keeps_compareAndDelete_synced marker) (fun cleared => ?_)))
      cases cleared with
      | true => exact keeps_pure ()
      | false => exact keeps_throw _
  have hrefs (state : CoreIndexerState) :
      Keeps (Synced (upTo state.syncTail)) (markTransactionRefsReadyIfCaughtUp state) := by
    refine keeps_bind (keeps_look _) (fun _ => keeps_ite (fun _ => keeps_pure _) (fun _ => ?_))
    refine keeps_bind (keeps_read _) (fun _ => keeps_bind
      (keeps_when (fun _ => keeps_execute_synced (fun _ => ⟨rfl,rfl,rfl⟩))) (fun _ => ?_))
    exact keeps_assign (fun _ h => ⟨h.stored,h.tails,h.unflushed⟩)
  refine wp_bind (wp_of_keepsSynced hrecover h (fun _ t ht => ?_))
  refine wp_bind (wp_mono (wp_ensureState_synced ht) (fun current u hu => ?_) (fun _ _ hu => hu)
    (fun _ hu => hu))
  refine wp_bind (wp_mono (wp_reconcile_synced hu) (fun state v hv => ?_) (fun _ _ hv => hv)
    (fun _ hv => hv))
  refine wp_bind (wp_of_keepsSynced (hrefs state) hv (fun _ w hw => ?_))
  refine wp_bind (wp_of_keepsSynced (keeps_publishProgress_synced (Set.Subset.refl _)) hw
    (fun _ x hx => ?_))
  exact wp_bind (wp_read (wp_pure hx) hx.bare hx.bare)

theorem keeps_runDogecoinConfig_synced :
    Keeps (Synced ∅) (runDogecoinConfig settings input) := by
  intro s h
  have herror : Keeps (Synced ∅) setCoreIndexerError :=
    keeps_setCoreIndexerError (fun _ h => (h.upserted (fun _ htail => by cases htail)).bare)
  refine wp_bind (wp_read ?_ h h)
  refine wp_bind (wp_read ?_ h h)
  refine wp_onFailure (wp_bind (wp_mono (wp_startIteration_synced h) (fun state t ht => ?_)
    (fun _ => herror) (fun _ ht => ht)))
  have hstage : Keeps (Synced (upTo state.syncTail))
      (runDogecoinStage settings input input.node.latest state) := by
    unfold runDogecoinStage
    cases state.stage with
    | syncBackfill => exact keeps_syncBackfill_synced (Set.Subset.refl _)
    | processBackfill => exact keeps_processBackfill_synced
    | online => exact keeps_online_synced (Set.Subset.refl _)
  exact wp_mono (hstage t ht) (fun _ _ hu => hu.bare) (fun _ u hu => herror u hu.bare)
    (fun _ hu => hu.bare)

theorem Synced.land (h : Synced ∅ s) (write : RawWrite ParsedDogecoinBlock) :
    Synced ∅ (land s write) := by
  cases write with
  | part key block => exact h.putPart block
  | blocks records => exact h.keepsTails_relaxed (keepsTails_upsertCoreBlocks records)
  | refs refs => exact ⟨h.stored,h.tails,h.unflushed⟩

theorem Synced.step (h : Synced ∅ s) (step : IndexerStep) : Synced ∅ (step.after settings s) := by
  cases step with
  | iterate input fates => exact last_of_wp (keeps_runDogecoinConfig_synced s h) fates
  | lands index =>
    simp only [IndexerStep.after]
    cases hwrite : s.underway[index]? with
    | none => exact h
    | some write =>
      have hs : Synced ∅ { s with underway := s.underway.eraseIdx index } :=
        ⟨h.stored,h.tails,h.unflushed⟩
      exact hs.land write
  | restart instanceId => exact ⟨h.stored,h.tails,h.unflushed⟩
  | crash instanceId kept =>
    refine ⟨fun _ hmem => absurd hmem (Set.notMem_empty _),?_,fun m hm => by cases hm⟩
    change TailsStored s.rawBlocks ((s.unflushed[kept]?).getD s.metadata)
    cases hkept : s.unflushed[kept]? with
    | none => exact h.tails
    | some metadata => exact h.unflushed metadata (List.mem_of_getElem? hkept)

theorem synced_initialStore (instanceId : String) :
    Synced ∅ (initialStore settings instanceId) where
  stored _ hmem := absurd hmem (Set.notMem_empty _)
  tails :=
    { state := fun _ hstate => by cases hstate
      progress := fun _ htail => by cases htail }
  unflushed _ hm := by cases hm

theorem synced_afterSteps (steps : List IndexerStep) (instanceId : String) :
    Synced ∅ (afterSteps settings steps (initialStore settings instanceId)) :=
  afterSteps_invariant (fun step _ h _ => h.step step) (synced_initialStore instanceId)
    (stepsMeet_true steps _)

theorem Stored.found {height : Nat} (h : Stored s.rawBlocks s.metadata height) :
    ∃ block record, s.rawBlock height = some block ∧ block.height = height ∧
      s.metadata.coreBlock height = some record ∧ record.blockHeight = height := by
  obtain ⟨block,hblock⟩ := Option.isSome_iff_exists.mp (List.find?_isSome.mpr
    (by simpa using h.1) : (s.rawBlock height).isSome)
  obtain ⟨record,hrecord⟩ := Option.isSome_iff_exists.mp (List.find?_isSome.mpr
    (by simpa using h.2) : (s.metadata.coreBlock height).isSome)
  exact ⟨block,record,hblock,by simpa using List.find?_some hblock,hrecord,
    by simpa using List.find?_some hrecord⟩

theorem stored_of_tail {steps : List IndexerStep} {instanceId : String} {tail : Int}
    {height : Nat} (hrun : afterSteps settings steps (initialStore settings instanceId) = s)
    (htail : s.metadata.indexerState.map (·.syncTail) = some tail ∨
      s.metadata.progress.syncTail = some tail)
    (hle : (height : Int) ≤ tail) : Stored s.rawBlocks s.metadata height := by
  have h : Synced ∅ s := hrun ▸ synced_afterSteps steps instanceId
  rcases htail with hstate | hprogress
  · obtain ⟨state,hrow,rfl⟩ := Option.map_eq_some_iff.mp hstate
    exact h.tails.state state hrow height hle
  · exact h.tails.progress tail hprogress height hle

/-- Whatever fails, comes late, is refused or taken back by a crash: every height up to the tail of
the state row, and up to the published one, is read back from the raw storage and core_blocks. -/
theorem synced_heights_stored {steps : List IndexerStep} {instanceId : String} {tail : Int}
    {height : Nat} (hrun : afterSteps settings steps (initialStore settings instanceId) = s)
    (htail : s.metadata.indexerState.map (·.syncTail) = some tail ∨
      s.metadata.progress.syncTail = some tail)
    (hle : (height : Int) ≤ tail) :
    ∃ block record, s.rawBlock height = some block ∧ block.height = height ∧
      s.metadata.coreBlock height = some record ∧ record.blockHeight = height :=
  (stored_of_tail hrun htail hle).found

abbrev crashedStore : IndexerStore :=
  afterSteps shallowSettings stepsToCrash (initialStore shallowSettings "a")

theorem crashedStore_tail : crashedStore.metadata.indexerState.map (·.syncTail) = some 5 := by
  decide +kernel

theorem synced_heights_stored_after_crash : ∃ block record,
    crashedStore.rawBlock 4 = some block ∧ block.height = 4 ∧
      crashedStore.metadata.coreBlock 4 = some record ∧ record.blockHeight = 4 :=
  synced_heights_stored rfl (Or.inl crashedStore_tail) (by decide)

/-- A load of stored heights fails only as a request does, never for a missing snapshot. -/
theorem wp_loadRawSnapshots_stored {heights : List Nat}
    (hstored : ∀ height ∈ heights, ∃ block, s.rawBlock height = some block) :
    wp (loadRawSnapshots heights) (fun blocks t => s = t ∧ blocks.map (·.height) = heights)
      (fun e t => s = t ∧ e = .fault) (fun t => s = t) s := by
  induction heights with
  | nil => exact wp_pure ⟨rfl,rfl⟩
  | cons height heights ih =>
    obtain ⟨block,hblock⟩ := hstored height List.mem_cons_self
    refine wp_bind (wp_bind (wp_read ?_ ⟨rfl,rfl⟩ rfl))
    rw [hblock]
    refine wp_pure (wp_bind (wp_mono (ih fun height hmem =>
      hstored height (List.mem_cons_of_mem _ hmem)) ?_ (fun _ _ h => h) (fun _ h => h)))
    rintro blocks _ ⟨rfl,hblocks⟩
    exact wp_pure ⟨rfl,by rw [List.map_cons,find?_height hblock,hblocks]⟩

/-- In the same states, a window of synced heights is loaded from the raw storage as it was
planned, whatever requests fail: that a snapshot is missing is never reported. -/
theorem synced_window_loads {steps : List IndexerStep} {instanceId : String} {tail : Int}
    {heights : List Nat}
    (hrun : afterSteps settings steps (initialStore settings instanceId) = s)
    (htail : s.metadata.indexerState.map (·.syncTail) = some tail ∨
      s.metadata.progress.syncTail = some tail)
    (hheights : ∀ height ∈ heights, (height : Int) ≤ tail) :
    wp (loadRawSnapshots heights) (fun blocks t => s = t ∧ blocks.map (·.height) = heights)
      (fun e t => s = t ∧ e = .fault) (fun t => s = t) s := by
  refine wp_loadRawSnapshots_stored (fun height hmem => ?_)
  obtain ⟨block,_,hblock,-⟩ := (stored_of_tail hrun htail (hheights height hmem)).found
  exact ⟨block,hblock⟩

theorem synced_window_loads_after_crash : wp (loadRawSnapshots [2,3,4,5])
    (fun blocks t => crashedStore = t ∧ blocks.map (·.height) = [2,3,4,5])
    (fun e t => crashedStore = t ∧ e = .fault) (fun t => crashedStore = t) crashedStore :=
  synced_window_loads rfl (Or.inl crashedStore_tail) (by decide)

end Walk

end OnlyDoge.CoreIndexer
