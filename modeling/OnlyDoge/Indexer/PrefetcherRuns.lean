import OnlyDoge.Indexer.PrefetcherBatches
set_option autoImplicit false

/-! What the read-ahead keeps along every run, whatever the fetches answer and in which order. -/

namespace OnlyDoge.Prefetch
variable {σ W : Type} {options : CoreBlockPrefetcherOptions σ W}
  {s : CoreBlockPrefetcher σ W} {cursor : Int}

theorem lt_of_pump_stops {height : Int} (hstops : s.shouldSchedule options height = false)
    (hlimit : height ≤ s.limit) : height < s.nextStart := by
  unfold CoreBlockPrefetcher.shouldSchedule at hstops
  split at hstops
  · omega
  · split at hstops
    · cases hstops
    · omega

theorem sound_get (h : Sound options s)
    (height limitHeight : Int) :
    Sound options (s.get options height limitHeight).2 ∧
      (height ≤ limitHeight → ∃ id, (s.get options height limitHeight).1 = .ok id) := by
  have hlimited : Sound options { s with limit := limitHeight } := h.congr rfl rfl rfl rfl rfl
  obtain ⟨haligned,hready⟩ := sound_alignTo hlimited height
  obtain ⟨hpumped,hready⟩ := sound_pump haligned hready
  have hstops := @pump_stops _ _ options
    (CoreBlockPrefetcher.alignTo { s with limit := limitHeight } height) height
  have hlimit : ((CoreBlockPrefetcher.alignTo { s with limit := limitHeight } height).pump options
      height).limit = limitHeight := by
    refine pump_invariant (I := fun t => t.limit = limitHeight) (fun _ _ ht => ht) ?_
    unfold CoreBlockPrefetcher.alignTo
    split <;> rfl
  unfold CoreBlockPrefetcher.get
  dsimp only
  split
  · rename_i hnone
    refine ⟨hpumped,fun hle => ?_⟩
    obtain ⟨id,hid⟩ := hready.batchFor (lt_of_pump_stops hstops (by omega))
    rw [hid] at hnone
    cases hnone
  · rename_i id hid
    obtain ⟨batch,hsome,-,hheld⟩ := batchFor_spec hpumped hid
    refine ⟨⟨hpumped.ids,hpumped.chain,hpumped.below,hpumped.generations,hpumped.ordered,
      hpumped.once,hpumped.budget,?_,hpumped.answered⟩,fun _ => ⟨id,rfl⟩⟩
    intro call hcall
    rcases List.mem_append.mp hcall with hcall | hcall
    · exact hpumped.waiting call hcall
    · obtain rfl := List.mem_singleton.mp hcall
      refine ⟨batch.fetch,?_,hheld⟩
      rw [CoreBlockPrefetcher.fetches,List.getElem?_map]
      exact congrArg _ hsome

theorem Sound.observeWeight (h : Sound options s) (sample : W) :
    Sound options (s.observeWeight options sample) :=
  h.congr rfl rfl rfl rfl rfl

theorem sound_settle (h : Sound options s) {id : Nat}
    {batch : PrefetchBatch σ W} (hsome : s.scheduled[id]? = some batch)
    (hnone : batch.answer = none) (answer : Answer σ) :
    Sound options (s.settle options id batch answer) := by
  have hempty : batch.snapshots = none := by
    cases hsnapshots : batch.snapshots with
    | none => rfl
    | some snapshots =>
      have := ((h.answered batch (List.mem_of_getElem? hsome)).snapshots snapshots hsnapshots).1
      rw [hnone] at this
      cases this
  have hcounted : Sound options { s with inFlight := s.inFlight - 1 } := h.congr rfl rfl rfl rfl rfl
  unfold CoreBlockPrefetcher.settle
  dsimp only
  split
  · rename_i hstale
    refine h.updateBatch (fun _ => rfl) fun other hother => ?_
    obtain rfl := Option.some.inj (hsome.symm.trans hother)
    exact ⟨fun snapshots hs => by simp [hempty] at hs,fun _ hgeneration =>
      absurd hgeneration hstale⟩
  · rename_i hgeneration
    cases answer with
    | rejected error =>
      refine hcounted.updateBatch (fun _ => rfl) fun other hother => ?_
      obtain rfl := Option.some.inj (hsome.symm.trans hother)
      refine ⟨fun snapshots hs => by simp [hempty] at hs,fun answer _ hanswer _ => ?_⟩
      cases hanswer
      rfl
    | resolved snapshots =>
      dsimp only
      split
      · refine hcounted.updateBatch (fun _ => rfl) fun other hother => ?_
        obtain rfl := Option.some.inj (hsome.symm.trans hother)
        refine ⟨fun snapshots hs => by simp [hempty] at hs,fun answer _ hanswer _ => ?_⟩
        cases hanswer
        rfl
      · rename_i hlength
        have hloaded := (h.load hsome (not_not.mp hlength) (options.arithmetic.sum
          (snapshots.map options.weigh))).observeWeight
        exact sound_pump_of_lt (hloaded _)
          ((hloaded _).head_lt (h.start_lt hsome (not_not.mp hgeneration)))

theorem step_resume {k : Nat} {t : CoreBlockPrefetcher σ W}
    (h : step options (.resume k) s = some t) :
    ∃ height id batch answer, s.waiting[k]? = some (height,id) ∧
      s.scheduled[id]? = some batch ∧ batch.answer = some answer ∧
      t = { (snapshotFrom batch height s).2 with
        waiting := (snapshotFrom batch height s).2.waiting.eraseIdx k } := by
  unfold step at h
  dsimp only at h
  split at h
  · cases h
  · rename_i height id hwaiting
    split at h
    · cases h
    · rename_i batch hbatch
      split at h
      · rename_i hdone
        obtain ⟨answer,hanswer⟩ := Option.isSome_iff_exists.mp hdone
        cases h
        exact ⟨height,id,batch,answer,hwaiting,hbatch,hanswer,rfl⟩
      · cases h

theorem step_settle {id : Nat} {answer : Answer σ} {t : CoreBlockPrefetcher σ W}
    (h : step options (.settle id answer) s = some t) :
    ∃ batch, s.scheduled[id]? = some batch ∧ batch.answer = none ∧
      t = s.settle options id batch answer := by
  unfold step at h
  dsimp only at h
  split at h
  · cases h
  · rename_i batch hbatch
    split at h
    · rename_i hnone
      cases h
      exact ⟨batch,hbatch,Option.isNone_iff_eq_none.mp hnone,rfl⟩
    · cases h

theorem sound_step {event : Event σ}
    {t : CoreBlockPrefetcher σ W} (h : Sound options s) (hstep : step options event s = some t) :
    Sound options t := by
  cases event with
  | get height limitHeight =>
    cases hstep
    exact (sound_get h height limitHeight).1
  | reset =>
    cases hstep
    exact h.reset
  | settle id answer =>
    obtain ⟨batch,hsome,hnone,rfl⟩ := step_settle hstep
    exact sound_settle h hsome hnone answer
  | resume k =>
    obtain ⟨height,id,batch,answer,-,-,-,rfl⟩ := step_resume hstep
    have hsnapshot : Sound options (snapshotFrom batch height s).2 := by
      unfold snapshotFrom
      split
      · exact h
      · split
        · exact h.reset
        · split
          · exact h.reset
          · exact h
    exact ⟨hsnapshot.ids,hsnapshot.chain,hsnapshot.below,hsnapshot.generations,hsnapshot.ordered,
      hsnapshot.once,hsnapshot.budget,
      fun call hcall => hsnapshot.waiting call (List.mem_of_mem_eraseIdx hcall),
      hsnapshot.answered⟩

theorem sound_started :
    Sound options (started options) := by
  have hzero : (started options).bufferedBlocks = 0 := rfl
  refine ⟨by simp [started],⟨0,rfl⟩,?_,?_,?_,List.Pairwise.nil,?_,by simp [started],
    by simp [started]⟩
  · simp [started,CoreBlockPrefetcher.fetches]
  · simp [started,CoreBlockPrefetcher.fetches]
  · simp [started,CoreBlockPrefetcher.fetches]
  · have hone := options.one_le_batchBlocks
    rw [hzero]
    omega

variable {events : List (Event σ)} {u v : CoreBlockPrefetcher σ W}

theorem sound_run (hrun : Machine.run (step options) events (started options) = some u) :
    Sound options u :=
  Machine.run_invariant (fun _ _ _ h hstep => sound_step h hstep) sound_started hrun

theorem pump_fetches {fetches : List Fetch} (h : s.fetches = fetches) :
    ∃ new, (s.pump options cursor).fetches = fetches ++ new ∧
      ∀ fetch ∈ new, fetch.stop ≤ (s.pump options cursor).limit := by
  refine pump_invariant (I := fun t => ∃ new, t.fetches = fetches ++ new ∧
    ∀ fetch ∈ new, fetch.stop ≤ t.limit) ?_ ⟨[],by simp [h],by simp⟩
  rintro t - ⟨new,hfetches,hnew⟩
  refine ⟨new ++ [⟨t.generation,t.nextStart,nextStop options t⟩],?_,?_⟩
  · rw [fetches_schedule,hfetches,List.append_assoc]
  · intro fetch hfetch
    rcases List.mem_append.mp hfetch with hfetch | hfetch
    · exact hnew fetch hfetch
    · obtain rfl := List.mem_singleton.mp hfetch
      exact min_le_left _ _

theorem step_fetches {event : Event σ} (hstep : step options event u = some v) :
    ∃ new, v.fetches = u.fetches ++ new ∧ ∀ fetch ∈ new, fetch.stop ≤ v.limit := by
  have hsame {t : CoreBlockPrefetcher σ W} (h : t.fetches = u.fetches) :
      ∃ new, t.fetches = u.fetches ++ new ∧ ∀ fetch ∈ new, fetch.stop ≤ t.limit :=
    ⟨[],by simp [h],by simp⟩
  cases event with
  | get height limitHeight =>
    cases hstep
    have haligned : (CoreBlockPrefetcher.alignTo { u with limit := limitHeight } height).fetches =
        u.fetches := by
      unfold CoreBlockPrefetcher.alignTo
      split <;> rfl
    unfold CoreBlockPrefetcher.get
    dsimp only
    split
    · exact pump_fetches haligned
    · exact pump_fetches haligned
  | reset =>
    cases hstep
    exact hsame rfl
  | settle id answer =>
    obtain ⟨batch,hsome,hnone,rfl⟩ := step_settle hstep
    unfold CoreBlockPrefetcher.settle
    dsimp only
    split
    · exact hsame (CoreBlockPrefetcher.fetches_updateBatch _ (fun _ => rfl))
    · cases answer with
      | rejected error => exact hsame (CoreBlockPrefetcher.fetches_updateBatch _ (fun _ => rfl))
      | resolved snapshots =>
        dsimp only
        split
        · exact hsame (CoreBlockPrefetcher.fetches_updateBatch _ (fun _ => rfl))
        · exact pump_fetches (CoreBlockPrefetcher.fetches_updateBatch _ (fun _ => rfl))
  | resume k =>
    obtain ⟨height,id,batch,answer,-,-,-,rfl⟩ := step_resume hstep
    refine hsame ?_
    unfold snapshotFrom
    split
    · rfl
    · split
      · rfl
      · split <;> rfl

/-- Along every run: a call that goes on gets what the fetcher gave for its height in a fetch of
this generation, or fails with that fetch or by a reset; a height up to the limit has a batch;
a generation fetches no height twice and none past the limit; and the blocks that are buffered
are bounded. -/
theorem read_ahead_faithful (hbatch : 0 < options.batchSize)
    (hrun : Machine.run (step options) events (started options) = some u) :
    (∀ (k id : Nat) (height : Int), u.waiting[k]? = some (height,id) → ∃ batch,
      u.scheduled[id]? = some batch ∧ batch.start ≤ height ∧ height ≤ batch.stop ∧
      ∀ answer, batch.answer = some answer →
        (∀ snapshot, (snapshotFrom batch height u).1 = .ok snapshot →
          batch.generation = u.generation ∧ ∃ snapshots, answer = .resolved snapshots ∧
            snapshots.length = (blocksOf batch.span).toNat ∧
            snapshots[(height - batch.start).toNat]? = some snapshot) ∧
        ∀ error, (snapshotFrom batch height u).1 = .error error →
          (batch.generation ≠ u.generation ∧ error = resetMessage height) ∨
            (batch.generation = u.generation ∧ error = failureOf batch answer)) ∧
    (∀ height limitHeight, height ≤ limitHeight →
      ∃ id, (u.get options height limitHeight).1 = .ok id) ∧
    (u.fetches.Pairwise fun earlier later =>
      earlier.generation = later.generation → earlier.stop < later.start) ∧
    (∀ event v, step options event u = some v → ∃ new, v.fetches = u.fetches ++ new ∧
      ∀ fetch ∈ new, fetch.stop ≤ v.limit) ∧
    u.bufferedBlocks ≤
      max options.batchSize (options.maxBufferedBlocks + options.batchSize - 1) := by
  have hsound := sound_run hrun
  refine ⟨fun k id height hwaiting => ?_,
    fun height limitHeight => (sound_get hsound height limitHeight).2,hsound.once,
    fun _ _ hstep => step_fetches hstep,?_⟩
  rotate_left
  · have hblocks : options.batchBlocks = options.batchSize := by
      unfold CoreBlockPrefetcherOptions.batchBlocks
      omega
    rw [← hblocks]
    exact hsound.budget
  obtain ⟨fetch,hfetch,hheld⟩ := hsound.waiting _ (List.mem_of_getElem? hwaiting)
  rw [CoreBlockPrefetcher.fetches,List.getElem?_map] at hfetch
  obtain ⟨batch,hsome,rfl⟩ := Option.map_eq_some_iff.mp hfetch
  exact ⟨batch,hsome,hheld.1,hheld.2,fun answer hanswer =>
    snapshotFrom_spec (hsound.answered batch (List.mem_of_getElem? hsome)) hheld hanswer⟩

/-- Weights in whole numbers. -/
def countWeights : WeightArithmetic Nat :=
  ⟨id,Nat.add,Nat.sub,Nat.mul,Nat.div,fun weight => weight = 0,fun x y => x < y⟩

def sampleOptions : CoreBlockPrefetcherOptions Nat Nat := ⟨countWeights,2,2,6,100,fun _ => 1⟩

def sampleEvents : List (Event Nat) :=
  [.get 0 9,.settle 1 (.resolved [12,13]),.settle 0 (.resolved [10,11]),.resume 0,.get 1 9]

theorem read_ahead_faithful_two_gets :
    ∃ u, Machine.run (step sampleOptions) sampleEvents (started sampleOptions) = some u ∧
      u.bufferedBlocks ≤ 7 := by
  have hsome : (Machine.run (step sampleOptions) sampleEvents
    (started sampleOptions)).isSome = true := by
    decide +kernel
  obtain ⟨u,hu⟩ := Option.isSome_iff_exists.mp hsome
  exact ⟨u,hu,(read_ahead_faithful (by decide) hu).2.2.2.2⟩

end OnlyDoge.Prefetch
