import OnlyDoge.Library.Machine
import Mathlib.Algebra.Ring.Int.Defs
import Mathlib.Algebra.Ring.Nat
set_option autoImplicit false

/-!
Read-ahead of blocks (`core-block-prefetcher.ts`): what runs between two awaits is one step, so
fetches settle, calls of `get` go on and resets come in any order. Weights are any numbers with
the operations that the source uses, floating point ones too; nothing is asked of them.
-/

namespace OnlyDoge.Prefetch

/-- What the promise of a fetch settles with. -/
inductive Answer (σ : Type) where
  | resolved (snapshots : List σ)
  | rejected (error : String)
  deriving DecidableEq,Repr

/-- The operations that the source uses on weights; `isZero` is `=== 0` and `below` is `<`. -/
structure WeightArithmetic (W : Type) where
  ofNat : Nat → W
  add : W → W → W
  sub : W → W → W
  mul : W → W → W
  div : W → W → W
  isZero : W → Bool
  below : W → W → Bool

structure CoreBlockPrefetcherOptions (σ W : Type) where
  arithmetic : WeightArithmetic W
  batchSize : Int
  concurrency : Nat
  maxBufferedBlocks : Int
  maxBufferedWeight : W
  weigh : σ → W

/-- `stop` is the `end` of the source. `answer` is there once `done` has resolved. -/
structure PrefetchBatch (σ W : Type) where
  start : Int
  stop : Int
  generation : Nat
  snapshots : Option (List σ)
  error : Option String
  weight : W
  answer : Option (Answer σ)
  deriving DecidableEq,Repr

/-- `scheduled` are all batches in the order of their fetches, and `batches` the numbers of those
that are buffered. `waiting` are the calls of `get` that await a batch, each with its height. -/
structure CoreBlockPrefetcher (σ W : Type) where
  averageWeight : W
  batches : List Nat
  generation : Nat
  inFlight : Int
  limit : Int
  nextStart : Int
  scheduled : List (PrefetchBatch σ W)
  waiting : List (Int × Nat)
  deriving DecidableEq,Repr

inductive Event (σ : Type) where
  | get (height limitHeight : Int)
  | reset
  | settle (id : Nat) (answer : Answer σ)
  | resume (k : Nat)
  deriving DecidableEq,Repr

variable {σ W : Type}

/-- What a fetch was started for. -/
structure Fetch where
  generation : Nat
  start : Int
  stop : Int
  deriving DecidableEq,Repr

def PrefetchBatch.load (snapshots : List σ) (weight : W) (batch : PrefetchBatch σ W) :
    PrefetchBatch σ W :=
  { batch with
    answer := some (.resolved snapshots), snapshots := some snapshots, weight := weight }

/-- A batch takes one height at least. -/
def CoreBlockPrefetcherOptions.batchBlocks (options : CoreBlockPrefetcherOptions σ W) : Int :=
  max 1 options.batchSize

theorem CoreBlockPrefetcherOptions.one_le_batchBlocks
    (options : CoreBlockPrefetcherOptions σ W) : 1 ≤ options.batchBlocks :=
  Int.le_max_left _ _

/-- What its fetch was started for. -/
def PrefetchBatch.fetch (batch : PrefetchBatch σ W) : Fetch :=
  ⟨batch.generation,batch.start,batch.stop⟩

def PrefetchBatch.span (batch : PrefetchBatch σ W) : Int × Int := (batch.start,batch.stop)

def blocksOf (span : Int × Int) : Int := span.2 - span.1 + 1

namespace CoreBlockPrefetcher
variable (s : CoreBlockPrefetcher σ W)

def spanOf (id : Nat) : Option (Int × Int) := (s.scheduled[id]?).map (·.span)

def spans : List (Int × Int) := s.batches.filterMap s.spanOf

def bufferedBlocks : Int := (s.spans.map blocksOf).sum

/-- Drops all read-ahead. Fetches in flight settle into the void. -/
def reset : CoreBlockPrefetcher σ W :=
  { s with generation := s.generation + 1, batches := [], inFlight := 0 }

def covers (height : Int) : Bool :=
  match s.spans.head? with
  | none => false
  | some first => first.1 ≤ height && height ≤ s.nextStart

def endsFrom (height : Int) (id : Nat) : Bool :=
  (s.scheduled[id]?).any fun batch => height ≤ batch.stop

def alignTo (height : Int) : CoreBlockPrefetcher σ W :=
  if s.covers height then { s with batches := s.batches.filter (s.endsFrom height) }
  else { s.reset with nextStart := height }

def holds (height : Int) (id : Nat) : Bool :=
  (s.scheduled[id]?).any fun batch => batch.start ≤ height && height ≤ batch.stop

def batchFor (height : Int) : Option Nat := s.batches.find? (s.holds height)

def updateBatch (id : Nat) (f : PrefetchBatch σ W → PrefetchBatch σ W) :
    CoreBlockPrefetcher σ W :=
  { s with scheduled := s.scheduled.modify id f }

end CoreBlockPrefetcher

def resetMessage (height : Int) : String :=
  "core block prefetch was reset while height=" ++ toString height ++ " was pending"

/-- How a call of `get` ends whose batch is done. -/
def snapshotFrom (batch : PrefetchBatch σ W) (height : Int) (s : CoreBlockPrefetcher σ W) :
    Except String σ × CoreBlockPrefetcher σ W :=
  if batch.generation ≠ s.generation then (.error (resetMessage height),s)
  else
    match batch.snapshots with
    | none => (.error (batch.error.getD "null"),s.reset)
    | some snapshots =>
      match snapshots[(height - batch.start).toNat]? with
      | none =>
        (.error ("core block prefetch returned no snapshot for height=" ++ toString height),s.reset)
      | some snapshot => (.ok snapshot,s)

section Weights
variable (options : CoreBlockPrefetcherOptions σ W)

namespace WeightArithmetic
variable (arithmetic : WeightArithmetic W)

def averageWeightSmoothing : W := arithmetic.div (arithmetic.ofNat 3) (arithmetic.ofNat 10)

def sum (weights : List W) : W := weights.foldl arithmetic.add (arithmetic.ofNat 0)

end WeightArithmetic

namespace CoreBlockPrefetcher

def batchWeight (s : CoreBlockPrefetcher σ W) (batch : PrefetchBatch σ W) : W :=
  match batch.snapshots with
  | some _ => batch.weight
  | none =>
    options.arithmetic.mul (options.arithmetic.ofNat (blocksOf batch.span).toNat) s.averageWeight

def bufferedWeight (s : CoreBlockPrefetcher σ W) : W :=
  options.arithmetic.sum
    ((s.batches.filterMap (s.scheduled[·]?)).map (s.batchWeight options))

def hasBudget (s : CoreBlockPrefetcher σ W) : Bool :=
  s.bufferedBlocks < options.maxBufferedBlocks &&
    options.arithmetic.below (s.bufferedWeight options) options.maxBufferedWeight

/-- The batch that holds the cursor is scheduled whatever the budget. -/
def shouldSchedule (cursor : Int) (s : CoreBlockPrefetcher σ W) : Bool :=
  if s.nextStart > s.limit then false
  else if s.nextStart ≤ cursor then true
  else s.inFlight < options.concurrency && s.hasBudget options

def schedule (s : CoreBlockPrefetcher σ W) : CoreBlockPrefetcher σ W :=
  let stop := min s.limit (s.nextStart + options.batchBlocks - 1)
  { s with
    nextStart := stop + 1
    inFlight := s.inFlight + 1
    batches := s.batches ++ [s.scheduled.length]
    scheduled := s.scheduled ++ [⟨s.nextStart,stop,s.generation,none,none,
      options.arithmetic.ofNat 0,none⟩] }

def pumpFrom (cursor : Int) : Nat → CoreBlockPrefetcher σ W → CoreBlockPrefetcher σ W
  | 0,s => s
  | fuel + 1,s =>
    if s.shouldSchedule options cursor then pumpFrom cursor fuel (s.schedule options) else s

/-- Each batch takes at least one height up to the limit. -/
def pump (cursor : Int) (s : CoreBlockPrefetcher σ W) : CoreBlockPrefetcher σ W :=
  pumpFrom options cursor (s.limit + 1 - s.nextStart).toNat s

def observeWeight (sample : W) (s : CoreBlockPrefetcher σ W) : CoreBlockPrefetcher σ W :=
  { s with
    averageWeight :=
      if options.arithmetic.isZero s.averageWeight then sample
      else
        options.arithmetic.add s.averageWeight
          (options.arithmetic.mul options.arithmetic.averageWeightSmoothing
            (options.arithmetic.sub sample s.averageWeight)) }

/-- `get` up to its await: the batch that it waits for. -/
def get (height limitHeight : Int) (s : CoreBlockPrefetcher σ W) :
    Except String Nat × CoreBlockPrefetcher σ W :=
  let s := ({ s with limit := limitHeight }.alignTo height).pump options height
  match s.batchFor height with
  | none => (.error ("core block prefetch has no batch for height=" ++ toString height),s)
  | some id => (.ok id,{ s with waiting := s.waiting ++ [(height,id)] })

def sizeMismatch (expected received : Nat) : String :=
  "core block prefetch size mismatch requested=" ++ toString expected ++ " received=" ++
    toString received

/-- The callback of a fetch; that of an older generation does nothing. -/
def settle (id : Nat) (batch : PrefetchBatch σ W) (answer : Answer σ)
    (s : CoreBlockPrefetcher σ W) : CoreBlockPrefetcher σ W :=
  let expected := (blocksOf batch.span).toNat
  if batch.generation ≠ s.generation then
    s.updateBatch id fun batch => { batch with answer := some answer }
  else
    let s := { s with inFlight := s.inFlight - 1 }
    match answer with
    | .rejected error =>
      s.updateBatch id fun batch => { batch with answer := some answer, error := some error }
    | .resolved snapshots =>
      if snapshots.length ≠ expected then
        s.updateBatch id fun batch =>
          { batch with
            answer := some answer
            error := some (sizeMismatch expected snapshots.length) }
      else
        let weight := options.arithmetic.sum (snapshots.map options.weigh)
        let s := s.updateBatch id (PrefetchBatch.load snapshots weight)
        let s := s.observeWeight options
          (options.arithmetic.div weight (options.arithmetic.ofNat expected))
        s.pump options ((s.spans.head?.map (·.1)).getD batch.start)

end CoreBlockPrefetcher

/-- A fetch settles once, and a call of `get` goes on when its batch is done. -/
def step (event : Event σ) (s : CoreBlockPrefetcher σ W) : Option (CoreBlockPrefetcher σ W) :=
  match event with
  | .get height limitHeight => some (s.get options height limitHeight).2
  | .reset => some s.reset
  | .settle id answer =>
    match s.scheduled[id]? with
    | none => none
    | some batch => if batch.answer.isNone then some (s.settle options id batch answer) else none
  | .resume k =>
    match s.waiting[k]? with
    | none => none
    | some (height,id) =>
      match s.scheduled[id]? with
      | none => none
      | some batch =>
        if batch.answer.isSome then
          let t := (snapshotFrom batch height s).2
          some { t with waiting := t.waiting.eraseIdx k }
        else none

def started : CoreBlockPrefetcher σ W := ⟨options.arithmetic.ofNat 0,[],0,0,-1,0,[],[]⟩

end Weights

end OnlyDoge.Prefetch
