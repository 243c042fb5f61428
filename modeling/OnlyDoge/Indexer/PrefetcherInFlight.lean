import OnlyDoge.Indexer.PrefetcherRuns
set_option autoImplicit false

/-!
How many fetches run at once, over all generations: the counter forgets those that a reset leaves
behind.
-/

namespace OnlyDoge.Prefetch
variable {σ W : Type}

/-- The fetches that have been started and have not settled. -/
def CoreBlockPrefetcher.unsettled (s : CoreBlockPrefetcher σ W) : Nat :=
  s.scheduled.countP (·.answer.isNone)

def CoreBlockPrefetcher.Running (s : CoreBlockPrefetcher σ W) (id : Nat) : Prop :=
  ∃ batch, s.scheduled[id]? = some batch ∧ batch.answer = none

/-- No read-ahead is dropped while a fetch runs: not by a reset, a cursor that is not covered or
a failed batch. And a call waits for the one before. -/
def Calm (event : Event σ) (s : CoreBlockPrefetcher σ W) : Prop :=
  match event with
  | .get height _ => s.waiting = [] ∧ (s.covers height = false → s.unsettled = 0)
  | .reset => s.unsettled = 0
  | .settle _ _ => True
  | .resume k => ∀ (id : Nat) (height : Int) (batch : PrefetchBatch σ W),
      s.waiting[k]? = some (height,id) → s.scheduled[id]? = some batch →
      batch.generation = s.generation → batch.snapshots = none → s.unsettled = 0

theorem countP_modify {α : Type} {p : α → Bool} {f : α → α} {l : List α} {i : Nat} {x : α}
    (h : l[i]? = some x) (hp : p x = true) (hf : p (f x) = false) :
    (l.modify i f).countP p + 1 = l.countP p := by
  induction l generalizing i with
  | nil => simp at h
  | cons y l ih =>
    cases i with
    | zero =>
      obtain rfl : y = x := by simpa using h
      simp [List.modify_zero_cons,hp,hf]
    | succ i =>
      have hrest := ih (by simpa using h)
      rw [List.modify_succ_cons,List.countP_cons,List.countP_cons]
      omega

/-- The counter counts the fetches that run, all of this generation. -/
structure Counted (s : CoreBlockPrefetcher σ W) : Prop where
  count : (s.unsettled : Int) = s.inFlight
  current : ∀ batch ∈ s.scheduled, batch.answer = none → batch.generation = s.generation

section Counted
variable {options : CoreBlockPrefetcherOptions σ W} {s t : CoreBlockPrefetcher σ W}

theorem Counted.congr (h : Counted s) (hscheduled : t.scheduled = s.scheduled)
    (hgeneration : t.generation = s.generation) (hinFlight : t.inFlight = s.inFlight) :
    Counted t := by
  refine ⟨?_,?_⟩
  · rw [CoreBlockPrefetcher.unsettled,hscheduled,hinFlight]
    exact h.count
  · rw [hscheduled,hgeneration]
    exact h.current

theorem counted_reset (h : s.unsettled = 0) : Counted s.reset := by
  refine ⟨?_,fun batch hbatch hnone => ?_⟩
  · have hunsettled : s.reset.unsettled = s.unsettled := rfl
    rw [hunsettled,h]
    rfl
  · have := List.countP_eq_zero.mp h batch hbatch
    rw [hnone] at this
    simp at this

theorem Counted.updateBatch (h : Counted s) {id : Nat} {batch : PrefetchBatch σ W}
    (hsome : s.scheduled[id]? = some batch) (hnone : batch.answer = none)
    {f : PrefetchBatch σ W → PrefetchBatch σ W} (hf : (f batch).answer ≠ none) :
    Counted (CoreBlockPrefetcher.updateBatch { s with inFlight := s.inFlight - 1 } id f) := by
  have hcount := countP_modify (p := fun batch : PrefetchBatch σ W => batch.answer.isNone)
    (f := f) hsome (by simp [hnone]) (by simpa [Option.isSome_iff_ne_none] using hf)
  refine ⟨?_,fun other hother hopen => ?_⟩
  · have hbefore := h.count
    unfold CoreBlockPrefetcher.unsettled CoreBlockPrefetcher.updateBatch at *
    dsimp only
    omega
  · rcases CoreBlockPrefetcher.mem_updateBatch hother with hother | ⟨before,hbefore,rfl⟩
    · exact h.current other hother hopen
    · obtain rfl := Option.some.inj (hsome.symm.trans hbefore)
      exact absurd hopen hf

theorem counted_alignTo {height : Int} (h : Counted s) (hroom : s.inFlight ≤ options.concurrency)
    (hdrained : s.covers height = false → s.unsettled = 0) :
    Counted (s.alignTo height) ∧ (s.alignTo height).inFlight ≤ options.concurrency := by
  unfold CoreBlockPrefetcher.alignTo
  by_cases hcovers : s.covers height = true
  · rw [if_pos hcovers]
    exact ⟨h.congr rfl rfl rfl,hroom⟩
  · rw [if_neg hcovers]
    have hzero : ((0 : Nat) : Int) ≤ options.concurrency := Int.ofNat_le.mpr (Nat.zero_le _)
    exact ⟨(counted_reset (hdrained (by simpa using hcovers))).congr rfl rfl rfl,hzero⟩

structure Bounded (options : CoreBlockPrefetcherOptions σ W) (s : CoreBlockPrefetcher σ W) :
    Prop where
  sound : Sound options s
  counted : Counted s
  bound : s.inFlight ≤ options.concurrency ∨
    (s.inFlight ≤ options.concurrency + 1 ∧ ∃ call ∈ s.waiting, s.Running call.2)

theorem bounded_reset (h : Bounded options s) (hdrained : s.unsettled = 0) :
    Bounded options s.reset := by
  have hzero : ((0 : Nat) : Int) ≤ options.concurrency := Int.ofNat_le.mpr (Nat.zero_le _)
  exact ⟨h.sound.reset,counted_reset hdrained,Or.inl hzero⟩

theorem Counted.schedule (h : Counted s) : Counted (s.schedule options) := by
  refine ⟨?_,fun batch hbatch hnone => ?_⟩
  · have hunsettled : (s.schedule options).unsettled = s.unsettled + 1 := by
      simp [CoreBlockPrefetcher.unsettled,CoreBlockPrefetcher.schedule]
    have hinFlight : (s.schedule options).inFlight = s.inFlight + 1 := rfl
    have hcount := h.count
    omega
  · rcases List.mem_append.mp hbatch with hbatch | hbatch
    · exact h.current batch hbatch hnone
    · obtain rfl := List.mem_singleton.mp hbatch
      rfl

theorem running_last : (s.schedule options).Running s.scheduled.length :=
  ⟨_,scheduled_schedule_last,rfl⟩

/-- The counter is within the concurrency, or the batch of the cursor has gone beyond it and
everything that is buffered has just been scheduled. -/
def CursorBeyond (options : CoreBlockPrefetcherOptions σ W) (height : Int)
    (s : CoreBlockPrefetcher σ W) : Prop :=
  s.inFlight ≤ options.concurrency ∨
    (s.inFlight ≤ options.concurrency + 1 ∧ height < s.nextStart ∧ ∀ id ∈ s.batches, s.Running id)

theorem CursorBeyond.schedule {height : Int} (h : CursorBeyond options height s)
    (haligned : Aligned height s) (hschedule : s.shouldSchedule options height = true) :
    CursorBeyond options height (s.schedule options) := by
  have hinFlight : (s.schedule options).inFlight = s.inFlight + 1 := rfl
  obtain ⟨hlimit,hcursor | ⟨hroom,-⟩⟩ := shouldSchedule_spec hschedule
  · rcases h with h | ⟨-,hlt,-⟩
    · have hstop := @le_nextStop _ _ options s hlimit
      have hnext : (s.schedule options).nextStart = nextStop options s + 1 := rfl
      have hle := haligned.le
      refine Or.inr ⟨by omega,by omega,fun id hid => ?_⟩
      have hbatches : (s.schedule options).batches = s.batches ++ [s.scheduled.length] := rfl
      rw [hbatches,haligned.empty hcursor] at hid
      obtain rfl := List.mem_singleton.mp hid
      exact running_last
    · omega
  · exact Or.inl (by omega)

theorem bounded_get (h : Bounded options s) {height : Int} (limitHeight : Int)
    (hcalm : Calm (.get height limitHeight : Event σ) s) :
    Bounded options (s.get options height limitHeight).2 := by
  obtain ⟨hwaiting,hdrained⟩ := hcalm
  have hroom : s.inFlight ≤ options.concurrency := by
    rcases h.bound with h | ⟨-,call,hcall,-⟩
    · exact h
    · rw [hwaiting] at hcall
      cases hcall
  have hsound := (sound_get h.sound height limitHeight).1
  have hlimited : Sound options { s with limit := limitHeight } :=
    h.sound.congr rfl rfl rfl rfl rfl
  obtain ⟨haligned,hready⟩ := sound_alignTo hlimited height
  have hcounted := counted_alignTo (s := { s with limit := limitHeight })
    (h.counted.congr rfl rfl rfl) hroom hdrained
  have hloop (t : CoreBlockPrefetcher σ W) (hschedule : t.shouldSchedule options height = true)
      (ht : Sound options t ∧ Aligned height t ∧ Counted t ∧ CursorBeyond options height t) :
      Sound options (t.schedule options) ∧ Aligned height (t.schedule options) ∧
        Counted (t.schedule options) ∧ CursorBeyond options height (t.schedule options) := by
    obtain ⟨ht,hready,hcounted,hbeyond⟩ := ht
    obtain ⟨hlimit,hreason⟩ := shouldSchedule_spec hschedule
    exact ⟨sound_schedule ht hlimit (hreason.imp hready.empty And.right),
      hready.schedule ht hlimit,hcounted.schedule,hbeyond.schedule hready hschedule⟩
  obtain ⟨hpumped,hready,hcounted,hbeyond⟩ := pump_invariant hloop
    ⟨haligned,hready,hcounted.1,Or.inl hcounted.2⟩
  refine ⟨hsound,?_,?_⟩
  · unfold CoreBlockPrefetcher.get
    dsimp only
    split
    · exact hcounted
    · exact hcounted.congr rfl rfl rfl
  · unfold CoreBlockPrefetcher.get
    dsimp only
    split
    · rename_i hnone
      rcases hbeyond with hbeyond | ⟨-,hlt,-⟩
      · exact Or.inl hbeyond
      · obtain ⟨id,hid⟩ := hready.batchFor hlt
        rw [hid] at hnone
        cases hnone
    · rename_i id hid
      rcases hbeyond with hbeyond | ⟨hcount,-,hall⟩
      · exact Or.inl hbeyond
      · exact Or.inr ⟨hcount,(height,id),List.mem_append_right _ (List.mem_singleton_self _),
          hall id (List.mem_of_find?_eq_some hid)⟩

theorem counted_pump {cursor : Int} (h : Counted s) (hroom : s.inFlight ≤ options.concurrency)
    (hcursor : cursor < s.nextStart) :
    Counted (s.pump options cursor) ∧ (s.pump options cursor).inFlight ≤ options.concurrency := by
  refine (pump_invariant (I := fun t => cursor < t.nextStart ∧ Counted t ∧
    t.inFlight ≤ options.concurrency) ?_ ⟨hcursor,h,hroom⟩).2
  rintro t hschedule ⟨hcursor,hcounted,-⟩
  have hinFlight : (t.schedule options).inFlight = t.inFlight + 1 := rfl
  have hnext : (t.schedule options).nextStart = nextStop options t + 1 := rfl
  obtain ⟨hlimit,hreason⟩ := shouldSchedule_spec hschedule
  have hstop := @le_nextStop _ _ options t hlimit
  rcases hreason with hreason | ⟨hroom,-⟩
  · omega
  · exact ⟨by omega,hcounted.schedule,by omega⟩

theorem bounded_settle (h : Bounded options s) {id : Nat} {batch : PrefetchBatch σ W}
    (hsome : s.scheduled[id]? = some batch) (hnone : batch.answer = none) (answer : Answer σ) :
    Bounded options (s.settle options id batch answer) := by
  have hcurrent := h.counted.current batch (List.mem_of_getElem? hsome) hnone
  have hroom : s.inFlight - 1 ≤ options.concurrency := by
    rcases h.bound with h | ⟨h,-⟩
    · omega
    · omega
  suffices hcounted : Counted (s.settle options id batch answer) ∧
      (s.settle options id batch answer).inFlight ≤ options.concurrency from
    ⟨sound_settle h.sound hsome hnone answer,hcounted.1,Or.inl hcounted.2⟩
  have hupdated {f : PrefetchBatch σ W → PrefetchBatch σ W} (hf : (f batch).answer ≠ none) :=
    h.counted.updateBatch hsome hnone hf
  unfold CoreBlockPrefetcher.settle
  rw [if_neg (not_not.mpr hcurrent)]
  cases answer with
  | rejected error => exact ⟨hupdated (by simp),hroom⟩
  | resolved snapshots =>
    dsimp only
    split
    · exact ⟨hupdated (by simp),hroom⟩
    · rename_i hlength
      have hloaded := (h.sound.load hsome (not_not.mp hlength) (options.arithmetic.sum
        (snapshots.map options.weigh))).observeWeight
      exact counted_pump ((hupdated (by simp [PrefetchBatch.load])).congr rfl rfl rfl) hroom
        ((hloaded _).head_lt (h.sound.start_lt hsome hcurrent))

theorem bounded_step (h : Bounded options s) {event : Event σ} (hcalm : Calm event s)
    (hstep : step options event s = some t) : Bounded options t := by
  cases event with
  | get height limitHeight =>
    cases hstep
    exact bounded_get h limitHeight hcalm
  | reset =>
    cases hstep
    exact bounded_reset h hcalm
  | settle id answer =>
    obtain ⟨batch,hsome,hnone,rfl⟩ := step_settle hstep
    exact bounded_settle h hsome hnone answer
  | resume k =>
    have hsound := sound_step h.sound hstep
    obtain ⟨height,id,batch,answer,hwaiting,hsome,hanswer,rfl⟩ := step_resume hstep
    have hanswered := h.sound.answered batch (List.mem_of_getElem? hsome)
    rcases snapshotFrom_state hanswered (h.sound.held hwaiting hsome) with
      hstate | ⟨hstate,hgeneration,hnone⟩
    · rw [hstate] at hsound ⊢
      refine ⟨hsound,h.counted.congr rfl rfl rfl,h.bound.imp_right ?_⟩
      rintro ⟨hcount,call,hcall,hrunning⟩
      obtain ⟨i,hi⟩ := List.mem_iff_getElem?.mp hcall
      have hother : i ≠ k := by
        rintro rfl
        obtain rfl := Option.some.inj (hwaiting.symm.trans hi)
        obtain ⟨running,hrunning,hnone⟩ := hrunning
        obtain rfl := Option.some.inj (hsome.symm.trans hrunning)
        rw [hanswer] at hnone
        cases hnone
      exact ⟨hcount,call,List.mem_eraseIdx_iff_getElem?.mpr ⟨i,hother,hi⟩,hrunning⟩
    · have hreset := bounded_reset h (hcalm id height batch hwaiting hsome hgeneration hnone)
      have hzero : ((0 : Nat) : Int) ≤ options.concurrency := Int.ofNat_le.mpr (Nat.zero_le _)
      rw [hstate] at hsound ⊢
      exact ⟨hsound,hreset.counted.congr rfl rfl rfl,Or.inl hzero⟩

variable {events : List (Event σ)} {u : CoreBlockPrefetcher σ W}

theorem bounded_started : Bounded options (started options) := by
  have hzero : ((0 : Nat) : Int) ≤ options.concurrency := Int.ofNat_le.mpr (Nat.zero_le _)
  exact ⟨sound_started,⟨rfl,by simp [started]⟩,Or.inl hzero⟩

/-- Along a run that drops no read-ahead while a fetch runs, one fetch more than the concurrency
runs at most. -/
theorem fetches_in_flight_bounded
    (hcalm : ∀ passed event ahead u, events = passed ++ event::ahead →
      Machine.run (step options) passed (started options) = some u → Calm event u)
    (hrun : Machine.run (step options) events (started options) = some u) :
    u.unsettled ≤ options.concurrency + 1 := by
  have hbounded : Bounded options u := Machine.run_invariant_of
    (fun _ _ _ h hcalm hstep => bounded_step h hcalm hstep) bounded_started hcalm hrun
  have hcount := hbounded.counted.count
  rcases hbounded.bound with h | ⟨h,-⟩
  · omega
  · omega

end Counted

/-- One block at a time, one fetch at once. -/
def narrowOptions : CoreBlockPrefetcherOptions Nat Nat := ⟨countWeights,1,1,10,100,fun _ => 1⟩

/-- Each jump leaves the batch behind that was read ahead of the cursor before. -/
def jumpingEvents : List (Event Nat) :=
  [.get 0 1000,.settle 0 (.resolved [0]),.resume 0,
    .get 100 1000,.settle 2 (.resolved [100]),.resume 0,.get 200 1000]

theorem jumps_pile_up_fetches :
    ∃ u, Machine.run (step narrowOptions) jumpingEvents (started narrowOptions) = some u ∧
      u.unsettled = 3 ∧ ¬u.unsettled ≤ narrowOptions.concurrency + 1 := by
  have hunsettled : (Machine.run (step narrowOptions) jumpingEvents (started narrowOptions)).map
      CoreBlockPrefetcher.unsettled = some 3 := by
    decide +kernel
  obtain ⟨u,hu,hthree⟩ := Option.map_eq_some_iff.mp hunsettled
  exact ⟨u,hu,hthree,by rw [hthree]; decide⟩

/-- A call and the answer of its fetch, behind which the next batch is read. -/
def forwardEvents : List (Event Nat) := [.get 0 1000,.settle 0 (.resolved [0])]

theorem fetches_in_flight_bounded_forward :
    ∃ u, Machine.run (step narrowOptions) forwardEvents (started narrowOptions) = some u ∧
      u.unsettled ≤ narrowOptions.concurrency + 1 := by
  have hcalm : Machine.Along (step narrowOptions) Calm forwardEvents (started narrowOptions) :=
    ⟨⟨rfl,fun _ => rfl⟩,fun _ _ => ⟨trivial,fun _ _ => trivial⟩⟩
  have hsome : (Machine.run (step narrowOptions) forwardEvents
    (started narrowOptions)).isSome = true := by
    decide +kernel
  obtain ⟨u,hu⟩ := Option.isSome_iff_exists.mp hsome
  exact ⟨u,hu,fetches_in_flight_bounded hcalm.split hu⟩

end OnlyDoge.Prefetch
