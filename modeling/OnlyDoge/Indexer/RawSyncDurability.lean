import OnlyDoge.Indexer.RawBlockSync
set_option autoImplicit false

/-! A checkpointed frontier stands above stored heights only. -/

namespace OnlyDoge

section Chunk
variable {α : Type} {values : List α} {size : Nat}

theorem chunkFor_flatten {n : Nat} (h : values.length ≤ n) :
    (chunkFor size n values).flatten = values := by
  induction n generalizing values with
  | zero =>
    rw [List.length_eq_zero_iff.mp (Nat.le_zero.mp h)]
    rfl
  | succ n ih =>
    unfold chunkFor
    split
    · rename_i hnil
      rw [List.isEmpty_iff.mp hnil]
      rfl
    · have : 1 ≤ Nat.max 1 size := Nat.le_max_left 1 size
      rw [List.flatten_cons,ih (by rw [List.length_drop]; omega),List.take_append_drop]

theorem chunk_flatten : (chunk values size).flatten = values := chunkFor_flatten (Nat.le_refl _)

theorem chunk_ne_nil : ∀ batch ∈ chunk values size, batch ≠ [] := by
  unfold chunk
  generalize values.length = n
  induction n generalizing values with
  | zero => simp [chunkFor]
  | succ n ih =>
    unfold chunkFor
    split
    · simp
    · rename_i hne
      intro batch hbatch
      rcases List.mem_cons.mp hbatch with rfl | hbatch
      · rw [← List.length_pos_iff,List.length_take]
        have := List.length_pos_iff.mpr (fun h => hne (List.isEmpty_iff.mpr h))
        have : 1 ≤ Nat.max 1 size := Nat.le_max_left 1 size
        omega
      · exact ih batch hbatch

end Chunk

namespace ContiguousFrontier

theorem advanceFor_contiguous (n : Nat) (current : Int) (advanced : Bool) :
    advanceFor n ⟨current,(List.range n).map (fun i : Nat => current + 1 + (i : Int)),advanced⟩ =
      ⟨current + n,[],advanced || decide (0 < n)⟩ := by
  induction n generalizing current advanced with
  | zero => simp [advanceFor]
  | succ n ih =>
    have hcons : (List.range (n + 1)).map (fun i : Nat => current + 1 + (i : Int)) =
        (current + 1)::(List.range n).map (fun i : Nat => current + 1 + 1 + (i : Int)) := by
      rw [List.range_succ_eq_map,List.map_cons,List.map_map]
      congr 1
      · simp
      · refine List.map_congr_left (fun i _ => ?_)
        simp only [Function.comp_apply]
        omega
    have hcurrent : current + 1 + (n : Int) = current + ((n + 1 : Nat) : Int) := by omega
    rw [hcons,advanceFor]
    simp only [List.mem_cons_self,↓reduceIte,List.erase_cons_head]
    rw [ih,hcurrent]
    simp

theorem foldl_add_nodup (heights completed : List Int) (h : (completed ++ heights).Nodup) :
    heights.foldl add completed = completed ++ heights := by
  induction heights generalizing completed with
  | nil => simp
  | cons height heights ih =>
    have hnew : height ∉ completed := by
      intro hmem
      exact List.disjoint_of_nodup_append h hmem List.mem_cons_self
    have happend : completed ++ height::heights = (completed ++ [height]) ++ heights := by simp
    rw [List.foldl_cons,add,if_neg hnew,ih _ (by rwa [← happend]),happend]

theorem markCompleted_contiguous (first n : Nat) (advanced : Bool) :
    markCompleted ⟨(first : Int) - 1,[],advanced⟩ ((List.range' first n).map Int.ofNat) =
      ⟨(first : Int) - 1 + n,[],advanced || decide (0 < n)⟩ := by
  have hnodup : ((List.range' first n).map Int.ofNat).Nodup :=
    (List.nodup_range').map (fun _ _ h => Int.ofNat.inj h)
  have hheights : (List.range' first n).map Int.ofNat =
      (List.range n).map (fun i : Nat => (first : Int) - 1 + 1 + (i : Int)) := by
    rw [List.range'_eq_map_range,List.map_map]
    refine List.map_congr_left (fun i _ => ?_)
    simp only [Function.comp_apply,Int.ofNat_eq_natCast]
    omega
  unfold markCompleted advance
  rw [foldl_add_nodup _ _ (by simpa using hnodup),List.nil_append,hheights]
  simp only [List.length_map,List.length_range]
  exact advanceFor_contiguous n _ advanced

/-- The batches of a round, marked one after the other, move the frontier over all of them. -/
theorem foldl_markCompleted (batches : List (List Nat)) (first n : Nat) (advanced : Bool)
    (h : batches.flatten = List.range' first n) :
    batches.foldl (fun (tracker : ContiguousFrontier) batch =>
        tracker.markCompleted (batch.map Int.ofNat)) ⟨(first : Int) - 1,[],advanced⟩ =
      ⟨(first : Int) - 1 + n,[],advanced || decide (0 < n)⟩ := by
  induction batches generalizing first n advanced with
  | nil =>
    have hn := congrArg List.length h
    rw [List.length_range'] at hn
    obtain rfl : n = 0 := hn.symm
    simp
  | cons batch batches ih =>
    rw [List.flatten_cons] at h
    have hlen := congrArg List.length h
    rw [List.length_append,List.length_range'] at hlen
    have hsplit : List.range' first n = List.range' first batch.length ++
        List.range' (first + batch.length) (n - batch.length) := by
      rw [List.range'_append_1]
      congr 1
      omega
    rw [hsplit] at h
    obtain ⟨hbatch,hrest⟩ := List.append_inj h (by rw [List.length_range'])
    have hcurrent : (first : Int) - 1 + batch.length =
        ((first + batch.length : Nat) : Int) - 1 := by omega
    have hend : ((first + batch.length : Nat) : Int) - 1 + ((n - batch.length : Nat) : Int) =
        (first : Int) - 1 + n := by omega
    rw [List.foldl_cons,hbatch,markCompleted_contiguous,hcurrent,
      ih _ _ _ hrest,hend,Bool.or_assoc]
    congr 2
    have hpos : (decide (0 < batch.length) || decide (0 < n - batch.length)) = decide (0 < n) := by
      rw [← Bool.decide_or]
      exact decide_eq_decide.mpr (by omega)
    exact hpos

end ContiguousFrontier

section Durable
variable {ρ : Type} {parse : ρ → Option ParsedRawBlockSnapshot}

/-- One snapshot of the height is stored under it, with its block row and its references. -/
def Durable (parse : ρ → Option ParsedRawBlockSnapshot) (store : RawStore ρ)
    (height : Nat) : Prop :=
  ∃ entry : StoredRawBlock parse, entry.block.height = height ∧
    (height,entry.snapshot) ∈ store.parts ∧ entry.record ∈ store.coreBlocks ∧
    ∀ ref ∈ entry.refs, ref ∈ store.transactionRefs

/-- Writes are never taken back. -/
structure Grows (store store' : RawStore ρ) : Prop where
  parts : store.parts ⊆ store'.parts
  coreBlocks : store.coreBlocks ⊆ store'.coreBlocks
  transactionRefs : store.transactionRefs ⊆ store'.transactionRefs

theorem Grows.refl (store : RawStore ρ) : Grows store store :=
  ⟨List.Subset.refl _,List.Subset.refl _,List.Subset.refl _⟩

theorem grows_write (store : RawStore ρ) (write : RawWrite ρ) :
    Grows store (store.write write) := by
  cases write <;>
    exact ⟨by simp [RawStore.write],by simp [RawStore.write],by simp [RawStore.write]⟩

theorem grows_writeAll (store : RawStore ρ) (writes : List (RawWrite ρ)) :
    Grows store (store.writeAll writes) := by
  induction writes generalizing store with
  | nil => exact .refl store
  | cons write writes ih =>
    have hfirst := grows_write store write
    have hrest := ih (store.write write)
    exact ⟨List.Subset.trans hfirst.parts hrest.parts,
      List.Subset.trans hfirst.coreBlocks hrest.coreBlocks,
      List.Subset.trans hfirst.transactionRefs hrest.transactionRefs⟩

variable {store store' : RawStore ρ}

theorem Durable.mono {height : Nat} (h : Durable parse store height) (hgrows : Grows store store') :
    Durable parse store' height := by
  obtain ⟨entry,hheight,hpart,hrecord,hrefs⟩ := h
  exact ⟨entry,hheight,hgrows.parts hpart,hgrows.coreBlocks hrecord,
    fun ref href => hgrows.transactionRefs (hrefs ref href)⟩

def StoredRawBlock.InParts (store : RawStore ρ) (entry : StoredRawBlock parse) : Prop :=
  (entry.block.height,entry.snapshot) ∈ store.parts

def heightsOf (stored : List (StoredRawBlock parse)) : List Nat := stored.map (·.block.height)

/-- What is stored when a batch has come to a stage. -/
def StageSound (store : RawStore ρ) (batch : List Nat) : BatchStage parse → Prop
  | .storing stored pending => heightsOf stored = batch ∧
      ∀ entry ∈ stored, entry ∈ pending ∨ entry.InParts store
  | .writingBlocks stored => heightsOf stored = batch ∧ ∀ entry ∈ stored, entry.InParts store
  | .writingRefs stored => heightsOf stored = batch ∧
      ∀ entry ∈ stored, entry.InParts store ∧ entry.record ∈ store.coreBlocks
  | .completed => ∀ height ∈ batch, Durable parse store height
  | _ => True

theorem StageSound.mono {batch : List Nat} {stage : BatchStage parse}
    (h : StageSound store batch stage) (hgrows : Grows store store') :
    StageSound store' batch stage := by
  cases stage with
  | storing stored pending =>
    exact ⟨h.1,fun entry he => (h.2 entry he).imp id (fun hp => hgrows.parts hp)⟩
  | writingBlocks stored => exact ⟨h.1,fun entry he => hgrows.parts (h.2 entry he)⟩
  | writingRefs stored =>
    exact ⟨h.1,fun entry he => ⟨hgrows.parts (h.2 entry he).1,hgrows.coreBlocks (h.2 entry he).2⟩⟩
  | completed => exact fun height hh => (h height hh).mono hgrows
  | fetching => trivial
  | waiting => trivial
  | failed => trivial

theorem storeSnapshot_height {height : Nat} {snapshot : ρ} {entry : StoredRawBlock parse}
    (h : storeSnapshot height snapshot = some entry) : entry.block.height = height := by
  unfold storeSnapshot at h
  split at h
  · cases h
  · split at h
    · cases h
      assumption
    · cases h

theorem storeSnapshots_heights {batch : List Nat} {snapshots : List ρ}
    (h : (storeSnapshots batch snapshots : List (StoredRawBlock parse)).length = batch.length) :
    heightsOf (storeSnapshots batch snapshots : List (StoredRawBlock parse)) = batch := by
  induction batch generalizing snapshots with
  | nil => rfl
  | cons height batch ih =>
    cases snapshots with
    | nil => cases h
    | cons snapshot snapshots =>
      have hle : (storeSnapshots batch snapshots : List (StoredRawBlock parse)).length ≤
          batch.length := by
        unfold storeSnapshots
        refine Nat.le_trans (List.length_filterMap_le _ _) ?_
        rw [List.length_zip]
        exact Nat.min_le_left _ _
      cases hs : (storeSnapshot height snapshot : Option (StoredRawBlock parse)) with
      | none =>
        have hskip : (storeSnapshots (height::batch) (snapshot::snapshots) :
            List (StoredRawBlock parse)) = storeSnapshots batch snapshots :=
          List.filterMap_cons_none hs
        rw [hskip,List.length_cons] at h
        omega
      | some entry =>
        have hcons : (storeSnapshots (height::batch) (snapshot::snapshots) :
            List (StoredRawBlock parse)) = entry::storeSnapshots batch snapshots :=
          List.filterMap_cons_some hs
        rw [hcons,List.length_cons,List.length_cons] at h
        have hrest := ih (Nat.succ.inj h)
        rw [hcons]
        show entry.block.height::heightsOf _ = _
        rw [storeSnapshot_height hs,hrest]

theorem durable_of_written {batch : List Nat} {stored : List (StoredRawBlock parse)}
    (hbatch : heightsOf stored = batch)
    (h : ∀ entry ∈ stored, entry.InParts store ∧ entry.record ∈ store.coreBlocks ∧
      ∀ ref ∈ entry.refs, ref ∈ store.transactionRefs) :
    ∀ height ∈ batch, Durable parse store height := by
  intro height hheight
  rw [← hbatch] at hheight
  obtain ⟨entry,hentry,rfl⟩ := List.mem_map.mp hheight
  exact ⟨entry,rfl,h entry hentry⟩

variable {settings : RawBlockSyncSettings} {task : BatchTask parse} {result : BatchStep parse}

theorem failure_sound (late : List (RawWrite ρ)) :
    (task.failure settings late).task.batch = task.batch ∧
      StageSound store' task.batch (task.failure settings late).task.stage := by
  refine ⟨rfl,?_⟩
  unfold BatchTask.failure
  simp only
  split <;> trivial

theorem batchStep_sound {action : BatchAction ρ} (h : StageSound store task.batch task.stage)
    (hstep : task.step settings action = some result) :
    result.task.batch = task.batch ∧
      StageSound (store.writeAll result.writes) task.batch result.task.stage := by
  unfold BatchTask.step at hstep
  cases hs : task.stage with
  | fetching =>
    cases action with
    | fetched snapshots =>
      simp only [hs] at hstep
      split at hstep
      · cases hstep
        exact failure_sound _
      split at hstep
      · cases hstep
        exact failure_sound _
      · rename_i hall
        cases hstep
        exact ⟨rfl,storeSnapshots_heights (not_not.mp hall),fun _ he => Or.inl he⟩
    | fails =>
      simp only [hs] at hstep
      cases hstep
      exact failure_sound _
    | _ => simp [hs] at hstep
  | storing stored pending =>
    rw [hs] at h
    obtain ⟨hbatch,hstored⟩ := h
    cases action with
    | put index =>
      simp only [hs] at hstep
      cases he : pending[index]? with
      | none => simp [he] at hstep
      | some entry =>
        simp only [he] at hstep
        cases hstep
        have hgrows := grows_write store entry.put
        have hput : entry.InParts (store.write entry.put) := List.mem_append_right _ (by simp)
        have hleft (e : StoredRawBlock parse) (hmem : e ∈ stored) :
            e ∈ pending.eraseIdx index ∨ e.InParts (store.write entry.put) := by
          rcases hstored e hmem with hp | hp
          · by_cases heq : e ∈ pending.eraseIdx index
            · exact Or.inl heq
            · obtain ⟨i,hi⟩ := List.mem_iff_getElem?.mp hp
              have hsame : i = index := by
                by_contra hne
                exact heq (List.mem_eraseIdx_iff_getElem?.mpr ⟨i,hne,hi⟩)
              rw [hsame,he] at hi
              cases hi
              exact Or.inr hput
          · exact Or.inr (hgrows.parts hp)
        refine ⟨rfl,?_⟩
        simp only [BatchTask.moved]
        split
        · rename_i hnil
          refine ⟨hbatch,fun e hmem => ?_⟩
          rcases hleft e hmem with hp | hp
          · rw [List.isEmpty_iff.mp hnil] at hp
            cases hp
          · exact hp
        · exact ⟨hbatch,hleft⟩
    | fails =>
      simp only [hs] at hstep
      cases hstep
      exact failure_sound _
    | _ => simp [hs] at hstep
  | writingBlocks stored =>
    rw [hs] at h
    obtain ⟨hbatch,hstored⟩ := h
    cases action with
    | partly index =>
      simp only [hs] at hstep
      obtain ⟨entry,-,rfl⟩ := Option.map_eq_some_iff.mp hstep
      refine ⟨rfl,?_⟩
      have hgrows := grows_writeAll store [.blocks [entry.record]]
      exact ⟨hbatch,fun e hmem => hgrows.parts (hstored e hmem)⟩
    | written =>
      simp only [hs] at hstep
      have hgrows := grows_write store (.blocks (stored.map StoredRawBlock.record))
      have hrows (e : StoredRawBlock parse) (hmem : e ∈ stored) : e.record ∈
          (store.write (.blocks (stored.map StoredRawBlock.record))).coreBlocks :=
        List.mem_append_right _ (List.mem_map_of_mem hmem)
      split at hstep
      · rename_i hnone
        cases hstep
        refine ⟨rfl,durable_of_written hbatch (fun e hmem => ?_)⟩
        refine ⟨hgrows.parts (hstored e hmem),hrows e hmem,fun ref href => ?_⟩
        have hmem := List.mem_flatMap.mpr ⟨e,hmem,href⟩
        rw [List.isEmpty_iff.mp hnone] at hmem
        cases hmem
      · cases hstep
        exact ⟨rfl,hbatch,fun e hmem => ⟨hgrows.parts (hstored e hmem),hrows e hmem⟩⟩
    | fails =>
      simp only [hs] at hstep
      cases hstep
      exact failure_sound _
    | _ => simp [hs] at hstep
  | writingRefs stored =>
    rw [hs] at h
    obtain ⟨hbatch,hstored⟩ := h
    cases action with
    | partly index =>
      simp only [hs] at hstep
      obtain ⟨ref,-,rfl⟩ := Option.map_eq_some_iff.mp hstep
      refine ⟨rfl,?_⟩
      have hgrows := grows_writeAll store [.refs [ref]]
      exact ⟨hbatch,fun e hmem =>
        ⟨hgrows.parts (hstored e hmem).1,hgrows.coreBlocks (hstored e hmem).2⟩⟩
    | written =>
      simp only [hs] at hstep
      cases hstep
      have hgrows := grows_write store (.refs (stored.flatMap StoredRawBlock.refs))
      refine ⟨rfl,durable_of_written hbatch (fun e hmem => ?_)⟩
      refine ⟨hgrows.parts (hstored e hmem).1,hgrows.coreBlocks (hstored e hmem).2,?_⟩
      exact fun ref href => List.mem_append_right _ (List.mem_flatMap.mpr ⟨e,hmem,href⟩)
    | fails =>
      simp only [hs] at hstep
      cases hstep
      exact failure_sound _
    | _ => simp [hs] at hstep
  | waiting =>
    cases action with
    | wakes =>
      simp only [hs] at hstep
      cases hstep
      exact ⟨rfl,trivial⟩
    | _ => simp [hs] at hstep
  | completed => cases action <;> simp [hs] at hstep
  | failed => cases action <;> simp [hs] at hstep

variable {call : RawBlockSyncCall} {before : Int} {s t : RawBlockSyncer parse}
  {finished : List (List Nat)}

/-- The batches of the rounds that ended are stored, the frontier stands on the last of them, and
nothing above it has been checkpointed. -/
structure SyncInvariant (call : RawBlockSyncCall) (before : Int) (s : RawBlockSyncer parse)
    (finished : List (List Nat)) : Prop where
  split : chunk (heightRange call.start call.stop) call.settings.syncBatchSize =
    finished ++ (s.round.map (·.batch) ++ s.batches)
  tracker : s.tracker = ⟨((heightRange call.start call.stop).head?.getD 0 : Int) - 1 +
    finished.flatten.length,[],false⟩
  stored : ∀ height ∈ finished.flatten, Durable parse s.store height
  tasks : ∀ task ∈ s.round, StageSound s.store task.batch task.stage
  increasing : s.checkpoints.Pairwise (· < ·)
  below : ∀ frontier ∈ s.checkpoints, frontier ≤ s.tracker.current
  tail : s.syncTail = before ∨ s.syncTail ≤ s.tracker.current ∨ s.status = .recorded
  ended : s.status = .returned ∨ s.status = .recorded → s.round = [] ∧ s.batches = []

theorem syncInvariant_begin (call : RawBlockSyncCall) (concurrency : AdaptiveConcurrencyController)
    (store : RawStore ρ) (before : Int) :
    SyncInvariant call before (RawBlockSyncer.begin call concurrency store before :
      RawBlockSyncer parse) [] where
  split := rfl
  tracker := by simp [RawBlockSyncer.begin,ContiguousFrontier.base]
  stored := by simp
  tasks := by simp [RawBlockSyncer.begin]
  increasing := List.Pairwise.nil
  below := by simp [RawBlockSyncer.begin]
  tail := Or.inl rfl
  ended := by simp [RawBlockSyncer.begin]

theorem heightRange_head {start stop height : Nat} (h : height ∈ heightRange start stop) :
    (heightRange start stop).head?.getD 0 = start := by
  unfold heightRange at h ⊢
  have hmem := List.mem_range'_1.mp h
  obtain ⟨n,hn⟩ := Nat.exists_eq_succ_of_ne_zero (show stop + 1 - start ≠ 0 by omega)
  rw [hn,List.range'_succ]
  rfl

/-- The heights of the finished batches are the first of the range, and those of the round
follow them. -/
theorem round_heights (h : SyncInvariant call before s finished) :
    finished.flatten = List.range' call.start finished.flatten.length ∧
      (s.round.map (·.batch)).flatten = List.range' (call.start + finished.flatten.length)
        (s.round.map (·.batch)).flatten.length := by
  have hflat := congrArg List.flatten h.split
  rw [chunk_flatten,List.flatten_append,List.flatten_append,heightRange] at hflat
  have hlen := congrArg List.length hflat
  rw [List.length_range',List.length_append,List.length_append] at hlen
  generalize finished.flatten = first at hflat hlen ⊢
  generalize (s.round.map (·.batch)).flatten = second at hflat hlen ⊢
  generalize s.batches.flatten = third at hflat hlen
  rw [hlen,← List.range'_append_1,← List.range'_append_1] at hflat
  obtain ⟨hfirst,hrest⟩ := List.append_inj hflat (by rw [List.length_range'])
  obtain ⟨hsecond,-⟩ := List.append_inj hrest (by rw [List.length_range'])
  exact ⟨hfirst.symm,hsecond.symm⟩

theorem round_nonempty (h : SyncInvariant call before s finished) (hround : s.round ≠ []) :
    0 < (s.round.map (·.batch)).flatten.length ∧
      (heightRange call.start call.stop).head?.getD 0 = call.start := by
  obtain ⟨task,tasks,htask⟩ := List.exists_cons_of_ne_nil hround
  have hmem : task.batch ∈ chunk (heightRange call.start call.stop)
    call.settings.syncBatchSize := by
    rw [h.split,htask]
    simp
  have hne := List.length_pos_iff.mpr (chunk_ne_nil _ hmem)
  have hpos : 0 < (s.round.map (·.batch)).flatten.length := by
    rw [htask,List.map_cons,List.flatten_cons,List.length_append]
    omega
  obtain ⟨height,rest,hbatch⟩ := List.exists_cons_of_ne_nil (List.length_pos_iff.mp hne)
  refine ⟨hpos,@heightRange_head _ _ height ?_⟩
  rw [← @chunk_flatten _ (heightRange call.start call.stop) call.settings.syncBatchSize]
  exact List.mem_flatten.mpr ⟨_,hmem,by rw [hbatch]; exact List.mem_cons_self⟩

theorem marked_round (h : SyncInvariant call before s finished) (hround : s.round ≠ []) :
    s.round.foldl (fun tracker task => tracker.markCompleted (task.batch.map Int.ofNat)) s.tracker =
      ⟨((heightRange call.start call.stop).head?.getD 0 : Int) - 1 +
        (finished ++ s.round.map (·.batch)).flatten.length,[],true⟩ := by
  obtain ⟨hpos,hhead⟩ := round_nonempty h hround
  have hheights := (round_heights h).2
  have hbase : (((heightRange call.start call.stop).head?.getD 0 : Nat) : Int) - 1 +
      finished.flatten.length = ((call.start + finished.flatten.length : Nat) : Int) - 1 := by
    rw [hhead]
    omega
  have hfold := ContiguousFrontier.foldl_markCompleted _ _ _ false hheights
  rw [List.foldl_map] at hfold
  rw [h.tracker,hbase,hfold,List.flatten_append,List.length_append,hhead]
  simp only [hpos,decide_true,Bool.or_true]
  congr 1
  omega

theorem syncInvariant_step {action : SyncAction ρ} (h : SyncInvariant call before s finished)
    (hstep : RawBlockSyncer.step call action s = some t) :
    ∃ finished, SyncInvariant call before t finished := by
  cases action with
  | startRound =>
    simp only [RawBlockSyncer.step] at hstep
    split at hstep
    · rename_i hguard
      obtain ⟨hlooping,hround,-⟩ := hguard
      cases hstep
      have hbatches : ((s.batches.take s.concurrency.current).map fun batch =>
          (⟨batch,1,.fetching⟩ : BatchTask parse)).map (·.batch) =
            s.batches.take s.concurrency.current := by
        rw [List.map_map]
        exact List.map_id _
      refine ⟨finished,?_,h.tracker,h.stored,?_,h.increasing,h.below,h.tail,?_⟩
      · rw [h.split,List.isEmpty_iff.mp hround,hbatches,List.take_append_drop]
        rfl
      · intro task htask
        obtain ⟨batch,-,rfl⟩ := List.mem_map.mp htask
        trivial
      · rw [hlooping]
        rintro (hs | hs) <;> cases hs
    · cases hstep
  | assertFails =>
    simp only [RawBlockSyncer.step] at hstep
    split at hstep
    · rename_i hguard
      cases hstep
      refine ⟨finished,h.split,h.tracker,h.stored,h.tasks,h.increasing,h.below,?_,?_⟩
      · exact h.tail.imp id (Or.imp id (fun hs => by rw [hguard.1] at hs; cases hs))
      · rintro (hs | hs) <;> cases hs
    · cases hstep
  | batch index action =>
    simp only [RawBlockSyncer.step] at hstep
    cases htask : s.round[index]? with
    | none => simp [htask] at hstep
    | some task =>
      simp only [htask] at hstep
      obtain ⟨result,hresult,rfl⟩ := Option.map_eq_some_iff.mp hstep
      have hmem := List.mem_of_getElem? htask
      obtain ⟨hbatch,hsound⟩ := batchStep_sound (h.tasks task hmem) hresult
      have hgrows := grows_writeAll s.store result.writes
      have hround : s.round ≠ [] := List.ne_nil_of_mem hmem
      have hbatches : (s.round.set index result.task).map (·.batch) = s.round.map (·.batch) := by
        obtain ⟨hlt,heq⟩ := List.getElem?_eq_some_iff.mp htask
        have hlt' : index < (s.round.map (·.batch)).length := by simpa using hlt
        have hsame : task.batch = (s.round.map (·.batch))[index] := by
          rw [List.getElem_map,heq]
        rw [List.map_set,hbatch,hsame,List.set_getElem_self]
      have hstatus {status : SyncStatus} (hne : status ≠ .aborted)
          (hs : (if RawBlockSyncer.isFailed result.task then .aborted else s.status) = status) :
          s.status = status := by
        split at hs
        · exact absurd hs.symm hne
        · exact hs
      refine ⟨finished,?_,h.tracker,fun height hh => (h.stored height hh).mono hgrows,?_,
        h.increasing,h.below,?_,?_⟩
      · rw [h.split,hbatches]
      · intro other hother
        rcases List.mem_or_eq_of_mem_set hother with hother | rfl
        · exact (h.tasks other hother).mono hgrows
        · rw [hbatch]
          exact hsound
      · refine h.tail.imp id (Or.imp id (fun hs => ?_))
        exact absurd (h.ended (Or.inr hs)).1 hround
      · rintro (hs | hs)
        · exact absurd (h.ended (Or.inl (hstatus (by decide) hs))).1 hround
        · exact absurd (h.ended (Or.inr (hstatus (by decide) hs))).1 hround
  | late index =>
    simp only [RawBlockSyncer.step] at hstep
    obtain ⟨write,-,rfl⟩ := Option.map_eq_some_iff.mp hstep
    have hgrows := grows_write s.store write
    exact ⟨finished,h.split,h.tracker,fun height hh => (h.stored height hh).mono hgrows,
      fun task htask => (h.tasks task htask).mono hgrows,h.increasing,h.below,h.tail,h.ended⟩
  | endRound =>
    simp only [RawBlockSyncer.step] at hstep
    split at hstep
    · rename_i hguard
      obtain ⟨hlooping,hround,hall⟩ := hguard
      have hne : s.round ≠ [] := fun hnil => hround (List.isEmpty_iff.mpr hnil)
      have hmarked := marked_round h hne
      obtain ⟨hpos,-⟩ := round_nonempty h hne
      have hstored : ∀ height ∈ (finished ++ s.round.map (·.batch)).flatten,
          Durable parse s.store height := by
        intro height hheight
        rw [List.flatten_append] at hheight
        rcases List.mem_append.mp hheight with hh | hh
        · exact h.stored height hh
        · obtain ⟨batch,hbatch,hin⟩ := List.mem_flatten.mp hh
          obtain ⟨task,htask,rfl⟩ := List.mem_map.mp hbatch
          have hdone := List.all_eq_true.mp hall task htask
          have hsound := h.tasks task htask
          unfold RawBlockSyncer.isCompleted at hdone
          split at hdone
          · rename_i hstage
            rw [hstage] at hsound
            exact hsound height hin
          · cases hdone
      have hsplit : chunk (heightRange call.start call.stop) call.settings.syncBatchSize =
          (finished ++ s.round.map (·.batch)) ++ s.batches := by
        rw [h.split,List.append_assoc]
      have hcurrent : s.tracker.current < ((heightRange call.start call.stop).head?.getD 0 : Int) -
          1 + (finished ++ s.round.map (·.batch)).flatten.length := by
        rw [h.tracker,List.flatten_append,List.length_append]
        simp only
        omega
      have htail : s.syncTail = before ∨ s.syncTail ≤
          ((heightRange call.start call.stop).head?.getD 0 : Int) - 1 +
            (finished ++ s.round.map (·.batch)).flatten.length := by
        rcases h.tail with ht | ht | ht
        · exact Or.inl ht
        · exact Or.inr (by omega)
        · rw [hlooping] at ht
          cases ht
      rw [hmarked] at hstep
      simp only [ContiguousFrontier.consumeAdvance,true_and] at hstep
      split at hstep
      · cases hstep
        refine ⟨_,hsplit,rfl,hstored,by simp,?_,?_,?_,?_⟩
        · rw [List.pairwise_append]
          refine ⟨h.increasing,List.pairwise_singleton _ _,fun frontier hf last hlast => ?_⟩
          rw [List.mem_singleton.mp hlast]
          exact Int.lt_of_le_of_lt (h.below frontier hf) hcurrent
        · intro frontier hf
          rcases List.mem_append.mp hf with hf | hf
          · exact Int.le_of_lt (Int.lt_of_le_of_lt (h.below frontier hf) hcurrent)
          · exact Int.le_of_eq (List.mem_singleton.mp hf)
        · exact htail.imp id Or.inl
        · rintro (hs | hs) <;> cases hs
      · cases hstep
        refine ⟨_,hsplit,rfl,hstored,by simp,h.increasing,?_,?_,?_⟩
        · exact fun frontier hf => Int.le_of_lt (Int.lt_of_le_of_lt (h.below frontier hf) hcurrent)
        · exact htail.imp id Or.inl
        · simp only [hlooping]
          rintro (hs | hs) <;> cases hs
    · cases hstep
  | checkpointed fate =>
    simp only [RawBlockSyncer.step] at hstep
    split at hstep
    · rename_i hchecking
      have hchecked : s.checkpointSyncTail = before ∨ s.checkpointSyncTail ≤ s.tracker.current := by
        unfold RawBlockSyncer.checkpointSyncTail
        split
        · rcases h.tail with ht | ht | ht
          · exact Or.inl ht
          · exact Or.inr ht
          · rw [hchecking] at ht
            cases ht
        · exact Or.inr (Int.le_refl _)
      have hkept : s.syncTail = before ∨ s.syncTail ≤ s.tracker.current := by
        rcases h.tail with ht | ht | ht
        · exact Or.inl ht
        · exact Or.inr ht
        · rw [hchecking] at ht
          cases ht
      cases fate <;> cases hstep <;>
        refine ⟨finished,h.split,h.tracker,h.stored,h.tasks,h.increasing,h.below,?_,?_⟩
      all_goals first
        | exact hchecked.imp id Or.inl
        | exact hkept.imp id Or.inl
        | rintro (hs | hs) <;> cases hs
    · cases hstep
  | finish =>
    simp only [RawBlockSyncer.step] at hstep
    split at hstep
    · rename_i hguard
      cases hstep
      refine ⟨finished,h.split,h.tracker,h.stored,h.tasks,h.increasing,h.below,?_,?_⟩
      · exact h.tail.imp id (Or.imp id (fun hs => by rw [hguard.1] at hs; cases hs))
      · exact fun _ => ⟨List.isEmpty_iff.mp hguard.2.1,List.isEmpty_iff.mp hguard.2.2⟩
    · cases hstep
  | recordTail =>
    simp only [RawBlockSyncer.step] at hstep
    split at hstep
    · rename_i hreturned
      cases hstep
      exact ⟨finished,h.split,h.tracker,h.stored,h.tasks,h.increasing,h.below,Or.inr (Or.inr rfl),
        fun _ => h.ended (Or.inl hreturned)⟩
    · cases hstep

/-- Whatever fails, is retried or aborted, and in whatever order the batches finish: the heights
up to a checkpointed frontier, and up to a recorded tail, are stored with their rows and
references; checkpoints rise; and a call that returns has reached its last height. -/
theorem raw_sync_durable (call : RawBlockSyncCall) (concurrency : AdaptiveConcurrencyController)
    (store : RawStore ρ) (before : Int) (actions : List (SyncAction ρ)) (s : RawBlockSyncer parse)
    (hrun : Machine.run (RawBlockSyncer.step call) actions
      (RawBlockSyncer.begin call concurrency store before) = some s) :
    (∀ frontier ∈ s.checkpoints, ∀ height ∈ heightRange call.start call.stop,
        (height : Int) ≤ frontier → Durable parse s.store height) ∧
      s.checkpoints.Pairwise (· < ·) ∧
      (∀ height ∈ heightRange call.start call.stop, before < height → (height : Int) ≤ s.syncTail →
        Durable parse s.store height) ∧
      (s.status = .returned ∨ s.status = .recorded →
        ∀ last ∈ (heightRange call.start call.stop).getLast?, s.tracker.current = last) := by
  have hinv : ∃ finished, SyncInvariant call before s finished :=
    Machine.run_invariant (I := fun s => ∃ finished, SyncInvariant call before s finished)
      (fun _ _ _ ⟨_,h⟩ hstep => syncInvariant_step h hstep)
      ⟨[],syncInvariant_begin call concurrency store before⟩ hrun
  obtain ⟨finished,h⟩ := hinv
  obtain ⟨hfinished,-⟩ := round_heights h
  -- the finished heights are those of the range up to the frontier
  have hup (height : Nat) (hmem : height ∈ heightRange call.start call.stop)
      (hle : (height : Int) ≤ s.tracker.current) : Durable parse s.store height := by
    refine h.stored height ?_
    rw [h.tracker,heightRange_head hmem] at hle
    rw [hfinished,List.mem_range'_1]
    have := (List.mem_range'_1.mp hmem).1
    simp only at hle
    omega
  have hall (hended : s.status = .returned ∨ s.status = .recorded) :
      finished.flatten = heightRange call.start call.stop := by
    obtain ⟨hround,hbatches⟩ := h.ended hended
    have hsplit := h.split
    rw [hround,hbatches,List.map_nil,List.append_nil,List.append_nil] at hsplit
    rw [← hsplit,chunk_flatten]
  refine ⟨fun frontier hf height hmem hle => ?_,h.increasing,fun height hmem hbefore hle => ?_,
    fun hended last hlast => ?_⟩
  · exact hup height hmem (Int.le_trans hle (h.below frontier hf))
  · rcases h.tail with ht | ht | ht
    · omega
    · exact hup height hmem (Int.le_trans hle ht)
    · refine h.stored height ?_
      rw [hall (Or.inr ht)]
      exact hmem
  · have hmem := List.mem_of_getLast? hlast
    have hlen : finished.flatten.length = call.stop + 1 - call.start := by
      rw [hall hended,heightRange,List.length_range']
    have hstop : last = call.stop := by
      unfold heightRange at hlast hmem
      have hrange := List.mem_range'_1.mp hmem
      rw [List.getLast?_range'] at hlast
      split at hlast
      · cases hlast
      · cases hlast
        omega
    rw [h.tracker,heightRange_head hmem,hlen,hstop]
    have hrange := List.mem_range'_1.mp hmem
    simp only
    omega

end Durable

def retriedCall : RawBlockSyncCall := ⟨⟨1,2,2⟩,0,1,true⟩

def retriedBlock (height : Nat) : ParsedRawBlockSnapshot := ⟨"h",height,none,0,["t"]⟩

/-- Two batches side by side; the first one fails once and finishes last. -/
def retriedActions : List (SyncAction ParsedRawBlockSnapshot) :=
  [.startRound,.batch 0 .fails,.batch 1 (.fetched [retriedBlock 1]),.batch 1 (.put 0),
    .batch 1 .written,.batch 0 .wakes,.batch 1 .written,.batch 0 (.fetched [retriedBlock 0]),
    .batch 0 (.put 0),.batch 0 .written,.batch 0 .written,.endRound,.checkpointed .done,.finish,
    .recordTail]

def retriedSync : Option (@RawBlockSyncer ParsedRawBlockSnapshot some) :=
  Machine.run (RawBlockSyncer.step retriedCall) retriedActions
    (RawBlockSyncer.begin retriedCall ⟨2,2,0⟩ ⟨[],[],[]⟩ (-1))

theorem retriedSync_isSome : retriedSync.isSome = true := rfl

/-- The run with the retry, which checkpoints height 1 and records it. -/
theorem raw_sync_durable_retried :
    (retriedSync.get retriedSync_isSome).checkpoints = [1] ∧
      (retriedSync.get retriedSync_isSome).syncTail = 1 ∧
      (∀ frontier ∈ (retriedSync.get retriedSync_isSome).checkpoints, ∀ height ∈ heightRange 0 1,
        (height : Int) ≤ frontier →
          Durable some (retriedSync.get retriedSync_isSome).store height) :=
  ⟨rfl,rfl,(raw_sync_durable retriedCall ⟨2,2,0⟩ ⟨[],[],[]⟩ (-1) retriedActions
    (retriedSync.get retriedSync_isSome) (Option.some_get _).symm).1⟩

end OnlyDoge
