import OnlyDoge.Indexer.Prefetcher
import OnlyDoge.Library.Spans
import Mathlib.Data.List.Basic
import Mathlib.Algebra.Order.BigOperators.Group.List
set_option autoImplicit false

/-! The buffered batches and the fetches behind them: what aligning and scheduling keep. -/

namespace OnlyDoge.Prefetch
open Spans
variable {σ W : Type}

theorem sum_blocks_filter (spans : List (Int × Int)) (hspans : ∀ span ∈ spans, span.1 ≤ span.2)
    (p : Int × Int → Bool) :
    ((spans.filter p).map blocksOf).sum ≤ (spans.map blocksOf).sum := by
  induction spans with
  | nil => simp
  | cons span rest ih =>
    have hhead := hspans span (by simp)
    have hrest := ih fun other hother => hspans other (List.mem_cons_of_mem _ hother)
    have hblocks : 0 ≤ blocksOf span := by
      unfold blocksOf
      omega
    by_cases hp : p span = true
    · simp only [List.filter_cons_of_pos hp,List.map_cons,List.sum_cons]
      omega
    · simp only [List.filter_cons_of_neg hp,List.map_cons,List.sum_cons]
      omega

namespace CoreBlockPrefetcher
variable {s : CoreBlockPrefetcher σ W} {id : Nat} {f : PrefetchBatch σ W → PrefetchBatch σ W}

def fetches (s : CoreBlockPrefetcher σ W) : List Fetch := s.scheduled.map (·.fetch)

/-- A change of what a batch holds. -/
def KeepsFetch (f : PrefetchBatch σ W → PrefetchBatch σ W) : Prop :=
  ∀ batch, (f batch).fetch = batch.fetch

theorem KeepsFetch.span (hf : KeepsFetch f) (batch : PrefetchBatch σ W) :
    (f batch).span = batch.span := by
  have hfetch := hf batch
  simp only [PrefetchBatch.fetch,Fetch.mk.injEq] at hfetch
  simp [PrefetchBatch.span,hfetch]

theorem fetches_updateBatch (id : Nat) (hf : KeepsFetch f) :
    (s.updateBatch id f).fetches = s.fetches := by
  refine List.ext_getElem? fun other => ?_
  simp only [fetches,updateBatch,List.getElem?_map,List.getElem?_modify]
  cases s.scheduled[other]? with
  | none => rfl
  | some batch =>
    by_cases h : id = other
    · simp [h,hf batch]
    · simp [h]

theorem spans_updateBatch (id : Nat) (hf : KeepsFetch f) :
    (s.updateBatch id f).spans = s.spans := by
  have hlookup : (s.updateBatch id f).spanOf = s.spanOf := by
    funext other
    simp only [spanOf,updateBatch,List.getElem?_modify]
    cases s.scheduled[other]? with
    | none => rfl
    | some batch =>
      by_cases h : id = other
      · simp [h,hf.span batch]
      · simp [h]
  unfold spans
  rw [hlookup]
  rfl

theorem mem_updateBatch {batch : PrefetchBatch σ W}
    (h : batch ∈ (s.updateBatch id f).scheduled) :
    batch ∈ s.scheduled ∨ ∃ before, s.scheduled[id]? = some before ∧ batch = f before := by
  obtain ⟨other,hother⟩ := List.mem_iff_getElem?.mp h
  simp only [updateBatch,List.getElem?_modify] at hother
  cases hbefore : s.scheduled[other]? with
  | none => simp [hbefore] at hother
  | some before =>
    by_cases hid : id = other
    · subst hid
      simp only [hbefore,Option.map_eq_map,Option.map_some,if_true,Option.some.injEq] at hother
      exact Or.inr ⟨before,hbefore,hother.symm⟩
    · simp only [hbefore,hid,Option.map_eq_map,Option.map_some,if_false,Option.some.injEq]
        at hother
      rw [← hother]
      exact Or.inl (List.mem_of_getElem? hbefore)

end CoreBlockPrefetcher

/-- What the call of `get` throws that consumes a batch whose fetch has failed. -/
def failureOf (batch : PrefetchBatch σ W) : Answer σ → String
  | .rejected error => error
  | .resolved snapshots =>
    CoreBlockPrefetcher.sizeMismatch (blocksOf batch.span).toNat snapshots.length

/-- What a batch holds is what its fetch has answered. -/
structure Answered (generation : Nat) (batch : PrefetchBatch σ W) : Prop where
  snapshots : ∀ snapshots, batch.snapshots = some snapshots →
    batch.answer = some (.resolved snapshots) ∧
      snapshots.length = (blocksOf batch.span).toNat
  error : ∀ answer, batch.generation = generation → batch.answer = some answer →
    batch.snapshots = none → batch.error = some (failureOf batch answer)

structure Sound (options : CoreBlockPrefetcherOptions σ W) (s : CoreBlockPrefetcher σ W) :
    Prop where
  ids : ∀ id ∈ s.batches, ∃ fetch, s.fetches[id]? = some fetch ∧ fetch.generation = s.generation
  chain : ∃ first, Chain first s.spans s.nextStart
  below : ∀ fetch ∈ s.fetches, fetch.generation = s.generation → fetch.stop < s.nextStart
  generations : ∀ fetch ∈ s.fetches, fetch.generation ≤ s.generation
  ordered : ∀ fetch ∈ s.fetches, fetch.start ≤ fetch.stop
  once : s.fetches.Pairwise fun earlier later =>
    earlier.generation = later.generation → earlier.stop < later.start
  budget : s.bufferedBlocks ≤
    max options.batchBlocks (options.maxBufferedBlocks + options.batchBlocks - 1)
  waiting : ∀ call ∈ s.waiting, ∃ fetch, s.fetches[call.2]? = some fetch ∧
    fetch.start ≤ call.1 ∧ call.1 ≤ fetch.stop
  answered : ∀ batch ∈ s.scheduled, Answered s.generation batch

namespace Sound
variable {options : CoreBlockPrefetcherOptions σ W} {s : CoreBlockPrefetcher σ W}

theorem congr {t : CoreBlockPrefetcher σ W} (h : Sound options s)
    (hbatches : t.batches = s.batches) (hgeneration : t.generation = s.generation)
    (hnextStart : t.nextStart = s.nextStart) (hscheduled : t.scheduled = s.scheduled)
    (hwaiting : t.waiting = s.waiting) : Sound options t := by
  have hfetches : t.fetches = s.fetches := by
    rw [CoreBlockPrefetcher.fetches,hscheduled]
    rfl
  have hspans : t.spans = s.spans := by
    have hspanOf : t.spanOf = s.spanOf := by
      unfold CoreBlockPrefetcher.spanOf
      rw [hscheduled]
    rw [CoreBlockPrefetcher.spans,hspanOf,hbatches]
    rfl
  refine ⟨?_,?_,?_,?_,?_,?_,?_,?_,?_⟩
  · rw [hbatches,hfetches,hgeneration]
    exact h.ids
  · rw [hspans,hnextStart]
    exact h.chain
  · rw [hfetches,hgeneration,hnextStart]
    exact h.below
  · rw [hfetches,hgeneration]
    exact h.generations
  · rw [hfetches]
    exact h.ordered
  · rw [hfetches]
    exact h.once
  · rw [CoreBlockPrefetcher.bufferedBlocks,hspans]
    exact h.budget
  · rw [hwaiting,hfetches]
    exact h.waiting
  · rw [hscheduled,hgeneration]
    exact h.answered

theorem updateBatch (h : Sound options s) {id : Nat} {f : PrefetchBatch σ W → PrefetchBatch σ W}
    (hf : CoreBlockPrefetcher.KeepsFetch f)
    (hanswered : ∀ batch, s.scheduled[id]? = some batch → Answered s.generation (f batch)) :
    Sound options (s.updateBatch id f) := by
  have hfetches := @CoreBlockPrefetcher.fetches_updateBatch _ _ s f id hf
  have hspans := @CoreBlockPrefetcher.spans_updateBatch _ _ s f id hf
  refine ⟨?_,?_,?_,?_,?_,?_,?_,?_,?_⟩
  · rw [hfetches]
    exact h.ids
  · rw [hspans]
    exact h.chain
  · rw [hfetches]
    exact h.below
  · rw [hfetches]
    exact h.generations
  · rw [hfetches]
    exact h.ordered
  · rw [hfetches]
    exact h.once
  · rw [CoreBlockPrefetcher.bufferedBlocks,hspans]
    exact h.budget
  · rw [hfetches]
    exact h.waiting
  · intro batch hbatch
    rcases CoreBlockPrefetcher.mem_updateBatch hbatch with hbatch | ⟨before,hbefore,rfl⟩
    · exact h.answered batch hbatch
    · exact hanswered before hbefore

theorem reset (h : Sound options s) : Sound options s.reset := by
  refine ⟨?_,⟨s.nextStart,rfl⟩,?_,?_,h.ordered,h.once,?_,h.waiting,?_⟩
  · intro id hid
    cases hid
  · intro fetch hfetch hgeneration
    have := h.generations fetch hfetch
    have hnext : fetch.generation = s.generation + 1 := hgeneration
    omega
  · intro fetch hfetch
    have := h.generations fetch hfetch
    have hnext : s.reset.generation = s.generation + 1 := rfl
    omega
  · have hzero : s.reset.bufferedBlocks = 0 := rfl
    have hone := options.one_le_batchBlocks
    rw [hzero]
    omega
  · intro batch hmem
    have hfetch := h.generations batch.fetch (List.mem_map_of_mem hmem)
    refine ⟨(h.answered batch hmem).snapshots,fun answer hgeneration => ?_⟩
    have hnext : batch.generation = s.generation + 1 := hgeneration
    have : batch.fetch.generation = batch.generation := rfl
    omega

theorem of_id (h : Sound options s) {id : Nat} (hid : id ∈ s.batches) :
    ∃ batch, s.scheduled[id]? = some batch ∧ batch.generation = s.generation ∧
      batch.start ≤ batch.stop ∧ batch.stop < s.nextStart := by
  obtain ⟨fetch,hfetch,hgeneration⟩ := h.ids id hid
  have hmem := List.mem_of_getElem? hfetch
  rw [CoreBlockPrefetcher.fetches,List.getElem?_map] at hfetch
  obtain ⟨batch,hbatch,rfl⟩ := Option.map_eq_some_iff.mp hfetch
  exact ⟨batch,hbatch,hgeneration,h.ordered _ hmem,h.below _ hmem hgeneration⟩

theorem of_span (h : Sound options s) {span : Int × Int} (hspan : span ∈ s.spans) :
    span.1 ≤ span.2 := by
  obtain ⟨first,hchain⟩ := h.chain
  exact (hchain.mem hspan).2.1

theorem head_lt (h : Sound options s) {start : Int} (hstart : start < s.nextStart) :
    (s.spans.head?.map (·.1)).getD start < s.nextStart := by
  obtain ⟨first,hchain⟩ := h.chain
  cases hspans : s.spans with
  | nil => exact hstart
  | cons span rest =>
    rw [hspans] at hchain
    have hspan := hchain.mem (List.mem_cons_self)
    simp only [List.head?_cons,Option.map_some,Option.getD_some]
    omega

theorem start_lt (h : Sound options s) {id : Nat} {batch : PrefetchBatch σ W}
    (hsome : s.scheduled[id]? = some batch) (hgeneration : batch.generation = s.generation) :
    batch.start < s.nextStart := by
  have hmem : batch.fetch ∈ s.fetches := List.mem_map_of_mem (List.mem_of_getElem? hsome)
  have hordered : batch.start ≤ batch.stop := h.ordered _ hmem
  have hbelow : batch.stop < s.nextStart := h.below _ hmem hgeneration
  omega

theorem load (h : Sound options s) {id : Nat} {batch : PrefetchBatch σ W}
    (hsome : s.scheduled[id]? = some batch) {snapshots : List σ}
    (hlength : snapshots.length = (blocksOf batch.span).toNat) (weight : W) :
    Sound options (CoreBlockPrefetcher.updateBatch { s with inFlight := s.inFlight - 1 } id
      (PrefetchBatch.load snapshots weight)) := by
  have hcounted : Sound options { s with inFlight := s.inFlight - 1 } := h.congr rfl rfl rfl rfl rfl
  refine hcounted.updateBatch (fun _ => rfl) fun other hother => ?_
  obtain rfl := Option.some.inj (hsome.symm.trans hother)
  refine ⟨fun found hs => ?_,fun answer _ _ hs => by cases hs⟩
  obtain rfl := Option.some.inj hs
  exact ⟨rfl,hlength⟩

theorem held (h : Sound options s) {k id : Nat} {height : Int} {batch : PrefetchBatch σ W}
    (hwaiting : s.waiting[k]? = some (height,id)) (hsome : s.scheduled[id]? = some batch) :
    batch.start ≤ height ∧ height ≤ batch.stop := by
  obtain ⟨fetch,hfetch,hheld⟩ := h.waiting _ (List.mem_of_getElem? hwaiting)
  rw [CoreBlockPrefetcher.fetches,List.getElem?_map,hsome] at hfetch
  obtain rfl := Option.some.inj hfetch
  exact hheld

end Sound

section Align
variable {options : CoreBlockPrefetcherOptions σ W} {s : CoreBlockPrefetcher σ W} {height : Int}

theorem covers_eq_true (h : s.covers height = true) : height ≤ s.nextStart ∧
    ∃ first rest, s.spans = first::rest ∧ first.1 ≤ height := by
  unfold CoreBlockPrefetcher.covers at h
  cases hspans : s.spans with
  | nil => simp [hspans] at h
  | cons first rest =>
    simp only [hspans,List.head?_cons,Bool.and_eq_true,decide_eq_true_eq] at h
    exact ⟨h.2,first,rest,rfl,h.1⟩

theorem spans_kept (s : CoreBlockPrefetcher σ W) (height : Int) :
    ({ s with batches := s.batches.filter (s.endsFrom height) }).spans =
      s.spans.filter fun span => height ≤ span.2 := by
  have hspanOf : ({ s with batches := s.batches.filter (s.endsFrom height) }).spanOf = s.spanOf :=
    rfl
  unfold CoreBlockPrefetcher.spans
  rw [hspanOf]
  dsimp only
  induction s.batches with
  | nil => rfl
  | cons id ids ih =>
    cases hbatch : s.scheduled[id]? with
    | none =>
      have hends : s.endsFrom height id = false := by
        rw [CoreBlockPrefetcher.endsFrom,hbatch]
        rfl
      have hnone : s.spanOf id = none := by
        rw [CoreBlockPrefetcher.spanOf,hbatch]
        rfl
      rw [List.filter_cons_of_neg (by simp [hends]),List.filterMap_cons_none hnone,ih]
    | some batch =>
      have hsome : s.spanOf id = some batch.span := by
        rw [CoreBlockPrefetcher.spanOf,hbatch]
        rfl
      have hends : s.endsFrom height id = decide (height ≤ batch.stop) := by
        rw [CoreBlockPrefetcher.endsFrom,hbatch]
        rfl
      have hstop : batch.span.2 = batch.stop := rfl
      by_cases h : height ≤ batch.stop
      · rw [List.filter_cons_of_pos (by simp [hends,h]),List.filterMap_cons_some hsome,
          List.filterMap_cons_some hsome,ih,List.filter_cons]
        simp [hstop,h]
      · rw [List.filter_cons_of_neg (by simp [hends,h]),List.filterMap_cons_some hsome,ih,
          List.filter_cons]
        simp [hstop,h]

/-- Where the cursor stands before anything is scheduled for it. -/
structure Aligned (height : Int) (s : CoreBlockPrefetcher σ W) : Prop where
  le : height ≤ s.nextStart
  chain : ∃ first ≤ height, Chain first s.spans s.nextStart
  empty : s.nextStart ≤ height → s.batches = []

theorem sound_alignTo (h : Sound options s) (height : Int) :
    Sound options (s.alignTo height) ∧ Aligned height (s.alignTo height) := by
  unfold CoreBlockPrefetcher.alignTo
  by_cases hcovers : s.covers height = true
  · obtain ⟨hle,first,rest,hspans,hfirst⟩ := covers_eq_true hcovers
    rw [if_pos hcovers]
    obtain ⟨start,hchain⟩ := h.chain
    have hstart : start ≤ height := by
      rw [hspans] at hchain
      have := hchain.1
      omega
    obtain ⟨kept,hkept,hfiltered⟩ := hchain.filter hstart
    rw [← spans_kept] at hfiltered
    refine ⟨⟨?_,⟨kept,hfiltered⟩,h.below,h.generations,h.ordered,h.once,?_,h.waiting,h.answered⟩,
      ⟨hle,⟨kept,hkept,hfiltered⟩,fun hnext => ?_⟩⟩
    · intro id hid
      exact h.ids id (List.mem_filter.mp hid).1
    · rw [CoreBlockPrefetcher.bufferedBlocks,spans_kept]
      exact le_trans (sum_blocks_filter _ (fun _ => h.of_span) _) h.budget
    · refine List.filter_eq_nil_iff.mpr fun id hid hends => ?_
      obtain ⟨batch,hsome,-,-,hstop⟩ := h.of_id hid
      have : height ≤ batch.stop := by
        simpa [CoreBlockPrefetcher.endsFrom,hsome] using hends
      have hnext' : s.nextStart ≤ height := hnext
      omega
  · rw [if_neg hcovers]
    have hreset := h.reset
    have hspans : ({ s.reset with nextStart := height }).spans = [] := rfl
    refine ⟨⟨hreset.ids,⟨height,rfl⟩,?_,hreset.generations,hreset.ordered,hreset.once,?_,
      hreset.waiting,hreset.answered⟩,⟨le_refl _,⟨height,le_refl _,rfl⟩,fun _ => rfl⟩⟩
    · intro fetch hfetch hgeneration
      have := h.generations fetch hfetch
      have hnext : fetch.generation = s.generation + 1 := hgeneration
      omega
    · exact hreset.budget

theorem Aligned.batchFor {height : Int} (h : Aligned height s) (hnext : height < s.nextStart) :
    ∃ id, s.batchFor height = some id := by
  obtain ⟨first,hfirst,hchain⟩ := h.chain
  obtain ⟨span,hspan,hheld⟩ := hchain.holds hfirst hnext
  obtain ⟨id,hid,hsome⟩ := List.mem_filterMap.mp hspan
  cases hfound : s.batchFor height with
  | some id => exact ⟨id,rfl⟩
  | none =>
    obtain ⟨batch,hbatch,rfl⟩ := Option.map_eq_some_iff.mp hsome
    have hnone := List.find?_eq_none.mp hfound id hid
    rw [CoreBlockPrefetcher.holds,hbatch] at hnone
    simp only [Option.any_some,Bool.and_eq_true,decide_eq_true_eq] at hnone
    exact absurd hheld hnone

theorem batchFor_spec {height : Int} {id : Nat} (h : Sound options s)
    (hfound : s.batchFor height = some id) :
    ∃ batch, s.scheduled[id]? = some batch ∧ batch.generation = s.generation ∧
      batch.start ≤ height ∧ height ≤ batch.stop := by
  have hholds := List.find?_some hfound
  obtain ⟨batch,hbatch,hgeneration,-⟩ := h.of_id (List.mem_of_find?_eq_some hfound)
  rw [CoreBlockPrefetcher.holds,hbatch] at hholds
  simp only [Option.any_some,Bool.and_eq_true,decide_eq_true_eq] at hholds
  exact ⟨batch,hbatch,hgeneration,hholds⟩

theorem snapshotFrom_state {batch : PrefetchBatch σ W} (h : Answered s.generation batch)
    (hheld : batch.start ≤ height ∧ height ≤ batch.stop) :
    (snapshotFrom batch height s).2 = s ∨ ((snapshotFrom batch height s).2 = s.reset ∧
      batch.generation = s.generation ∧ batch.snapshots = none) := by
  by_cases hgeneration : batch.generation = s.generation
  · cases hsnapshots : batch.snapshots with
    | none => simp [snapshotFrom,hgeneration,hsnapshots]
    | some snapshots =>
      have hlength := (h.snapshots snapshots hsnapshots).2
      have hindex : (height - batch.start).toNat < snapshots.length := by
        rw [hlength]
        simp only [blocksOf,PrefetchBatch.span]
        omega
      simp [snapshotFrom,hgeneration,hsnapshots,List.getElem?_eq_getElem hindex]
  · simp [snapshotFrom,hgeneration]

theorem snapshotFrom_spec {batch : PrefetchBatch σ W} {height : Int} {answer : Answer σ}
    (h : Answered s.generation batch) (hheld : batch.start ≤ height ∧ height ≤ batch.stop)
    (hanswer : batch.answer = some answer) :
    (∀ snapshot, (snapshotFrom batch height s).1 = .ok snapshot →
      batch.generation = s.generation ∧ ∃ snapshots, answer = .resolved snapshots ∧
        snapshots.length = (blocksOf batch.span).toNat ∧
        snapshots[(height - batch.start).toNat]? = some snapshot) ∧
    ∀ error, (snapshotFrom batch height s).1 = .error error →
      (batch.generation ≠ s.generation ∧ error = resetMessage height) ∨
        (batch.generation = s.generation ∧ error = failureOf batch answer) := by
  by_cases hgeneration : batch.generation = s.generation
  · cases hsnapshots : batch.snapshots with
    | none =>
      have herror := h.error answer hgeneration hanswer hsnapshots
      simp [snapshotFrom,hgeneration,hsnapshots,herror,eq_comm]
    | some snapshots =>
      obtain ⟨hresolved,hlength⟩ := h.snapshots snapshots hsnapshots
      obtain rfl := Option.some.inj (hanswer.symm.trans hresolved)
      have hindex : (height - batch.start).toNat < snapshots.length := by
        rw [hlength]
        simp only [blocksOf,PrefetchBatch.span]
        omega
      simp only [snapshotFrom,hgeneration,hsnapshots,ne_eq,not_true_eq_false,if_false,
        List.getElem?_eq_getElem hindex,Except.ok.injEq]
      refine ⟨fun snapshot h => ⟨trivial,snapshots,rfl,hlength,?_⟩,fun error h => by cases h⟩
      rw [← h,List.getElem?_eq_getElem hindex]
  · simp [snapshotFrom,hgeneration,eq_comm]

end Align

section Schedule
variable {options : CoreBlockPrefetcherOptions σ W} {s : CoreBlockPrefetcher σ W} {cursor : Int}

variable (options s) in
/-- The height up to which the next batch goes. -/
def nextStop : Int := min s.limit (s.nextStart + options.batchBlocks - 1)

theorem le_nextStop (hlimit : s.nextStart ≤ s.limit) : s.nextStart ≤ nextStop options s := by
  have hone := options.one_le_batchBlocks
  unfold nextStop
  omega

theorem shouldSchedule_spec (h : s.shouldSchedule options cursor = true) :
    s.nextStart ≤ s.limit ∧ (s.nextStart ≤ cursor ∨
      (s.inFlight < options.concurrency ∧ s.bufferedBlocks < options.maxBufferedBlocks)) := by
  unfold CoreBlockPrefetcher.shouldSchedule at h
  split at h
  · cases h
  rename_i hlimit
  split at h
  · rename_i hcursor
    exact ⟨Int.not_lt.mp hlimit,Or.inl hcursor⟩
  · simp only [CoreBlockPrefetcher.hasBudget,Bool.and_eq_true,decide_eq_true_eq] at h
    exact ⟨Int.not_lt.mp hlimit,Or.inr ⟨h.1,h.2.1⟩⟩

theorem fetches_schedule : (s.schedule options).fetches =
    s.fetches ++ [⟨s.generation,s.nextStart,nextStop options s⟩] := by
  simp [CoreBlockPrefetcher.fetches,CoreBlockPrefetcher.schedule,PrefetchBatch.fetch,nextStop]

theorem scheduled_schedule_of_lt {id : Nat} (h : id < s.scheduled.length) :
    (s.schedule options).scheduled[id]? = s.scheduled[id]? :=
  List.getElem?_append_left h

theorem scheduled_schedule_last : (s.schedule options).scheduled[s.scheduled.length]? =
    some ⟨s.nextStart,nextStop options s,s.generation,none,none,
      options.arithmetic.ofNat 0,none⟩ := by
  simp [CoreBlockPrefetcher.schedule,nextStop]

theorem spans_schedule (h : Sound options s) : (s.schedule options).spans =
    s.spans ++ [(s.nextStart,nextStop options s)] := by
  have hold : s.batches.filterMap (s.schedule options).spanOf = s.spans := by
    refine List.filterMap_congr fun id hid => ?_
    obtain ⟨batch,hbatch,-⟩ := h.of_id hid
    unfold CoreBlockPrefetcher.spanOf
    rw [scheduled_schedule_of_lt (List.getElem?_eq_some_iff.mp hbatch).1]
  have hnew : (s.schedule options).spanOf s.scheduled.length =
      some (s.nextStart,nextStop options s) := by
    rw [CoreBlockPrefetcher.spanOf,scheduled_schedule_last]
    rfl
  have hbatches : (s.schedule options).batches = s.batches ++ [s.scheduled.length] := rfl
  rw [CoreBlockPrefetcher.spans,hbatches,List.filterMap_append,hold,
    List.filterMap_cons_some hnew]
  rfl

theorem sound_schedule (h : Sound options s)
    (hlimit : s.nextStart ≤ s.limit)
    (hbudget : s.batches = [] ∨ s.bufferedBlocks < options.maxBufferedBlocks) :
    Sound options (s.schedule options) := by
  have hstop := @le_nextStop _ _ options s hlimit
  have hnext : (s.schedule options).nextStart = nextStop options s + 1 := rfl
  have hfetches := @fetches_schedule _ _ options s
  have hmem (fetch : Fetch) (hf : fetch ∈ (s.schedule options).fetches) :
      fetch ∈ s.fetches ∨ fetch = ⟨s.generation,s.nextStart,nextStop options s⟩ := by
    rw [hfetches] at hf
    simpa using hf
  have hlookup {id : Nat} {fetch : Fetch} (hf : s.fetches[id]? = some fetch) :
      (s.schedule options).fetches[id]? = some fetch := by
    rw [hfetches,List.getElem?_append_left (List.getElem?_eq_some_iff.mp hf).1]
    exact hf
  refine ⟨?_,?_,?_,?_,?_,?_,?_,?_,?_⟩
  · intro id hid
    rcases List.mem_append.mp hid with hid | hid
    · obtain ⟨fetch,hfetch,hgeneration⟩ := h.ids id hid
      exact ⟨fetch,hlookup hfetch,hgeneration⟩
    · obtain rfl := List.mem_singleton.mp hid
      refine ⟨⟨s.generation,s.nextStart,nextStop options s⟩,?_,rfl⟩
      have hlength : s.scheduled.length = s.fetches.length := by
        simp [CoreBlockPrefetcher.fetches]
      rw [hfetches,hlength,List.getElem?_concat_length]
  · obtain ⟨first,hchain⟩ := h.chain
    rw [spans_schedule h]
    exact ⟨first,hchain.snoc hstop⟩
  · intro fetch hf hgeneration
    rw [hnext]
    rcases hmem fetch hf with hf | rfl
    · have := h.below fetch hf hgeneration
      omega
    · simp only
      omega
  · intro fetch hf
    rcases hmem fetch hf with hf | rfl
    · exact h.generations fetch hf
    · exact le_refl _
  · intro fetch hf
    rcases hmem fetch hf with hf | rfl
    · exact h.ordered fetch hf
    · exact hstop
  · rw [hfetches]
    refine List.pairwise_append.mpr ⟨h.once,List.pairwise_singleton _ _,?_⟩
    intro earlier hearlier later hlater hgeneration
    obtain rfl := List.mem_singleton.mp hlater
    exact h.below earlier hearlier hgeneration
  · have hblocks : (s.schedule options).bufferedBlocks =
        s.bufferedBlocks + (nextStop options s - s.nextStart + 1) := by
      rw [CoreBlockPrefetcher.bufferedBlocks,spans_schedule h]
      simp [CoreBlockPrefetcher.bufferedBlocks,blocksOf]
    have hsize : nextStop options s - s.nextStart + 1 ≤ options.batchBlocks := by
      unfold nextStop
      omega
    rw [hblocks]
    rcases hbudget with hempty | hbudget
    · have hzero : s.bufferedBlocks = 0 := by
        simp [CoreBlockPrefetcher.bufferedBlocks,CoreBlockPrefetcher.spans,hempty]
      omega
    · omega
  · intro call hcall
    obtain ⟨fetch,hfetch,hheld⟩ := h.waiting call hcall
    exact ⟨fetch,hlookup hfetch,hheld⟩
  · intro batch hmem
    rcases List.mem_append.mp hmem with hmem | hmem
    · exact h.answered batch hmem
    · obtain rfl := List.mem_singleton.mp hmem
      exact ⟨fun _ hsnapshots => (Option.noConfusion rfl (heq_of_eq hsnapshots)),
        fun _ _ hanswer => (Option.noConfusion rfl (heq_of_eq hanswer))⟩

theorem pump_invariant {I : CoreBlockPrefetcher σ W → Prop}
    (hstep : ∀ s, s.shouldSchedule options cursor = true → I s → I (s.schedule options))
    (h : I s) : I (s.pump options cursor) := by
  unfold CoreBlockPrefetcher.pump
  generalize (s.limit + 1 - s.nextStart).toNat = fuel
  induction fuel generalizing s with
  | zero => exact h
  | succ fuel ih =>
    unfold CoreBlockPrefetcher.pumpFrom
    split
    · rename_i hschedule
      exact ih (hstep s hschedule h)
    · exact h

theorem pump_stops : (s.pump options cursor).shouldSchedule options cursor = false := by
  suffices hfuel : ∀ fuel (s : CoreBlockPrefetcher σ W), (s.limit + 1 - s.nextStart).toNat ≤ fuel →
      (s.pumpFrom options cursor fuel).shouldSchedule options cursor = false from
    hfuel _ s (le_refl _)
  intro fuel
  induction fuel with
  | zero =>
    intro s hfuel
    have hpast : s.nextStart > s.limit := by omega
    simp [CoreBlockPrefetcher.pumpFrom,CoreBlockPrefetcher.shouldSchedule,hpast]
  | succ fuel ih =>
    intro s hfuel
    unfold CoreBlockPrefetcher.pumpFrom
    split
    · rename_i hschedule
      have hlimit := (shouldSchedule_spec hschedule).1
      have hstop := @le_nextStop _ _ options s hlimit
      have hnext : (s.schedule options).nextStart = nextStop options s + 1 := rfl
      have hsame : (s.schedule options).limit = s.limit := rfl
      refine ih _ ?_
      rw [hnext,hsame]
      omega
    · rename_i hschedule
      simpa using hschedule

theorem Aligned.schedule {height : Int} (h : Aligned height s) (hsound : Sound options s)
    (hlimit : s.nextStart ≤ s.limit) : Aligned height (s.schedule options) := by
  have hle := h.le
  have hstop := @le_nextStop _ _ options s hlimit
  have hnext : (s.schedule options).nextStart = nextStop options s + 1 := rfl
  obtain ⟨first,hfirst,hchain⟩ := h.chain
  refine ⟨by omega,⟨first,hfirst,?_⟩,fun hpast => by omega⟩
  rw [spans_schedule hsound,hnext]
  exact hchain.snoc hstop

theorem sound_pump {height : Int} (h : Sound options s)
    (haligned : Aligned height s) :
    Sound options (s.pump options height) ∧ Aligned height (s.pump options height) := by
  refine pump_invariant (I := fun s => Sound options s ∧ Aligned height s) ?_ ⟨h,haligned⟩
  rintro s hschedule ⟨h,haligned⟩
  obtain ⟨hlimit,hreason⟩ := shouldSchedule_spec hschedule
  exact ⟨sound_schedule h hlimit (hreason.imp haligned.empty And.right),
    haligned.schedule h hlimit⟩

theorem sound_pump_of_lt (h : Sound options s)
    (hcursor : cursor < s.nextStart) : Sound options (s.pump options cursor) := by
  refine (pump_invariant (I := fun s => Sound options s ∧ cursor < s.nextStart) ?_
    ⟨h,hcursor⟩).1
  rintro s hschedule ⟨h,hcursor⟩
  obtain ⟨hlimit,hreason⟩ := shouldSchedule_spec hschedule
  have hstop := @le_nextStop _ _ options s hlimit
  have hnext : (s.schedule options).nextStart = nextStop options s + 1 := rfl
  refine ⟨sound_schedule h hlimit (Or.inr ?_),by omega⟩
  rcases hreason with hreason | ⟨-,hbudget⟩
  · omega
  · exact hbudget

end Schedule

end OnlyDoge.Prefetch
