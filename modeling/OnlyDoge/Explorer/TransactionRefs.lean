import OnlyDoge.Indexer.ProcessedTail
import OnlyDoge.Indexer.ReportedBlocks
set_option autoImplicit false

/-!
The explorer's lookup of a transaction (`getTransactionRef` of `explorer-query-service.ts`) while
the indexer runs: each of its reads finds the store as it is then.
-/

namespace OnlyDoge

/-- `WHERE block_hash = ? LIMIT 1`. -/
def Metadata.getCoreBlockByHash (metadata : Metadata) (blockHash : String) :
    Option CoreBlockRecord :=
  metadata.coreBlocks.find? (·.blockHash = blockHash)

def Warehouse.getTransactionRef (w : Warehouse) (txid : String) : Option TransactionPlace :=
  (w.getIndexedTransactionRef txid).or
    ((w.getCoreTransactionRef txid).or (w.getCurrentTransactionRef txid))

namespace Explorer
open CoreIndexer

def rawTransactionRefLookupLimit : Int := 1000

/-- The heights that `findRawTransactionRef` looks at, in its order. -/
def rawLookupHeights (syncTail processTail : Int) : List Nat :=
  (range (max 0 (max (processTail + 1) (syncTail - rawTransactionRefLookupLimit + 1)))
    syncTail).reverse

def findTransaction (txid : String) (block : OnlyDoge.ParsedDogecoinBlock) :
    Option TransactionPlace :=
  (block.tx.findIdx? (·.txid = txid)).map
    fun txIndex => ⟨block.hash,block.height,block.time,txIndex⟩

/-- How far a lookup has come; each stands before the read that it is named after. -/
inductive Lookup where
  | indexed
  | core
  | current
  | checking (place : TransactionPlace)
  | readiness
  | syncTail
  | processTail (syncTail : Int)
  | scanning (height : Nat) (heights : List Nat)
  | answered (place : Option TransactionPlace)
  deriving DecidableEq

namespace Lookup

def checkingOr (place : Option TransactionPlace) (otherwise : Lookup) : Lookup :=
  match place with
  | some place => .checking place
  | none => otherwise

def scan : List Nat → Lookup
  | [] => .answered none
  | height::heights => .scanning height heights

/-- The answer for a place of the warehouse: that of the block in `core_blocks`, or none. -/
def canonical (s : IndexerStore) (place : TransactionPlace) : Option TransactionPlace :=
  match s.metadata.getCoreBlockByHash place.blockHash with
  | none => none
  | some record => if record.blockHeight = place.blockHeight then some place else none

def next (txid : String) (s : IndexerStore) : Lookup → Lookup
  | .indexed => checkingOr (s.warehouse.getIndexedTransactionRef txid) .core
  | .core => checkingOr (s.warehouse.getCoreTransactionRef txid) .current
  | .current => checkingOr (s.warehouse.getCurrentTransactionRef txid) .readiness
  | .checking place => .answered (canonical s place)
  | .readiness => if s.metadata.transactionRefsReady then .answered none else .syncTail
  | .syncTail =>
    let tail := s.metadata.progress.syncTail.getD (-1)
    if tail < 0 then .answered none else .processTail tail
  | .processTail tail =>
    scan (rawLookupHeights tail (s.metadata.progress.processTail.getD (-1)))
  | .scanning height heights =>
    match (s.rawBlock height).bind (findTransaction txid) with
    | some place => .answered (some place)
    | none => scan heights
  | .answered place => .answered place

end Lookup

/-- A read falls between two steps of the indexer, or into an iteration, which has then come as
far as it would have come with the fates. -/
inductive LookupEvent where
  | indexer (step : IndexerStep)
  | read (during : Option (IterationInput × List Fate))

section Run
variable (settings : CoreDogecoinIndexerSettings) (txid : String)

/-- The store that a read finds. -/
def storeAt (during : Option (IterationInput × List Fate)) (s : IndexerStore) : IndexerStore :=
  match during with
  | none => s
  | some (input,fates) => (IndexerStep.iterate input fates).after settings s

structure Watched where
  store : IndexerStore
  lookup : Lookup

def LookupEvent.after (event : LookupEvent) (watched : Watched) : Watched :=
  match event with
  | .indexer step => { watched with store := step.after settings watched.store }
  | .read during =>
    { watched with lookup := watched.lookup.next txid (storeAt settings during watched.store) }

def afterEvents (events : List LookupEvent) (watched : Watched) : Watched :=
  events.foldl (fun watched event => event.after settings txid watched) watched

def begun (instanceId : String) : Watched := ⟨initialStore settings instanceId,.indexed⟩

end Run

def LookupEvent.inputs : LookupEvent → List IterationInput
  | .indexer step => step.inputs
  | .read none => []
  | .read (some (input,_)) => [input]

/-- A node reported the block to the indexer. -/
def ReportedIn (events : List LookupEvent) (block : OnlyDoge.ParsedDogecoinBlock) : Prop :=
  ∃ event ∈ events, ∃ input ∈ event.inputs, ∃ height, input.node.block height = some block

section Sound
variable {B : OnlyDoge.ParsedDogecoinBlock → Prop} {txid : String} {s : IndexerStore}
  {lookup : Lookup}
variable {settings : CoreDogecoinIndexerSettings} {place found : TransactionPlace}

variable (B txid) in
/-- What a lookup has found so far. -/
def FoundReported : Lookup → Prop
  | .checking place => ReportedPlace B txid place
  | .answered (some place) => ReportedPlace B txid place
  | _ => True

theorem foundReported_checkingOr {answer : Option TransactionPlace}
    (h : ∀ place, answer = some place → ReportedPlace B txid place)
    (hother : FoundReported B txid lookup) :
    FoundReported B txid (Lookup.checkingOr answer lookup) := by
  cases answer with
  | none => exact hother
  | some place => exact h place rfl

theorem foundReported_scan (heights : List Nat) : FoundReported B txid (Lookup.scan heights) := by
  cases heights <;> trivial

theorem canonical_eq_some (h : Lookup.canonical s place = some found) :
    found = place ∧ ∃ record ∈ s.metadata.coreBlocks, record.blockHash = place.blockHash ∧
      record.blockHeight = place.blockHeight := by
  unfold Lookup.canonical Metadata.getCoreBlockByHash at h
  cases hrecord : s.metadata.coreBlocks.find? (·.blockHash = place.blockHash) with
  | none =>
    rw [hrecord] at h
    cases h
  | some record =>
    rw [hrecord] at h
    by_cases hheight : record.blockHeight = place.blockHeight
    · simp only [hheight,if_true,Option.some.injEq] at h
      exact ⟨h.symm,record,List.mem_of_find?_eq_some hrecord,by simpa using List.find?_some hrecord,
        hheight⟩
    · simp only [hheight,if_false] at h
      cases h

theorem findTransaction_eq_some {block : OnlyDoge.ParsedDogecoinBlock}
    (h : findTransaction txid block = some place) : block.HasAt txid place ∧
      ∀ tx ∈ block.tx.take place.txIndex, tx.txid ≠ txid := by
  obtain ⟨txIndex,hfound,rfl⟩ := Option.map_eq_some_iff.mp h
  obtain ⟨hlt,htx,hbefore⟩ := List.findIdx?_eq_some_iff_getElem.mp hfound
  refine ⟨⟨rfl,rfl,rfl,?_⟩,fun tx hmem => ?_⟩
  · simpa [List.getElem?_eq_getElem hlt] using htx
  · obtain ⟨j,hj,rfl⟩ := List.mem_take_iff_getElem.mp hmem
    have hlt : j < txIndex := (lt_min_iff.mp hj).1
    simpa using hbefore j hlt

theorem plain_of_reportedPlace (hplain : ∀ block, B block → ∀ tx ∈ block.tx, ':' ∉ tx.txid.toList)
    (h : ReportedPlace B txid place) : ':' ∉ txid.toList := by
  obtain ⟨block,hblock,hat⟩ := h
  obtain ⟨tx,htx,rfl⟩ := Option.map_eq_some_iff.mp hat.listed
  exact hplain block hblock tx (List.mem_of_getElem? htx)

theorem foundReported_next (h : HoldsReported B s)
    (hplain : ∀ block, B block → ∀ tx ∈ block.tx, ':' ∉ tx.txid.toList)
    (hfound : FoundReported B txid lookup) : FoundReported B txid (lookup.next txid s) := by
  have hreported : ∀ other place, ReportedPlace B other place → ':' ∉ other.toList :=
    fun _ _ => plain_of_reportedPlace hplain
  have hplaced : ∀ output, ReportedOutput B output → PlacedOutput (ReportedPlace B) output :=
    fun _ => reportedOutput_placed
  cases lookup with
  | indexed =>
    refine foundReported_checkingOr (fun place hplace => ?_) trivial
    obtain ⟨ref,-,href,rfl,rfl⟩ := h.placed.indexed hplace
    exact href.place
  | core => exact foundReported_checkingOr (fun _ => h.placed.core hplaced hreported) trivial
  | current =>
    exact foundReported_checkingOr (fun _ => h.placed.currentRow hplaced hreported) trivial
  | checking place =>
    change FoundReported B txid (.answered (Lookup.canonical s place))
    cases hcanonical : Lookup.canonical s place with
    | none => trivial
    | some found => exact (canonical_eq_some hcanonical).1 ▸ hfound
  | readiness =>
    simp only [Lookup.next]
    split <;> trivial
  | syncTail =>
    simp only [Lookup.next]
    split <;> trivial
  | processTail tail => exact foundReported_scan _
  | scanning height heights =>
    simp only [Lookup.next]
    cases hblock : (s.rawBlock height).bind (findTransaction txid) with
    | none => exact foundReported_scan heights
    | some place =>
      obtain ⟨block,hraw,hlisted⟩ := Option.bind_eq_some_iff.mp hblock
      exact ⟨block,h.rawBlock hraw,(findTransaction_eq_some hlisted).1⟩
  | answered found => exact hfound

theorem storeAt_reported {during : Option (IterationInput × List Fate)} (h : HoldsReported B s)
    (hnode : ∀ input ∈ (LookupEvent.read during).inputs, ∀ height block,
      input.node.block height = some block → B block) :
    HoldsReported B (storeAt settings during s) := by
  cases during with
  | none => exact h
  | some read => exact h.step hnode

variable (B txid) in
structure WatchedReported (watched : Watched) : Prop where
  store : HoldsReported B watched.store
  lookup : FoundReported B txid watched.lookup

theorem WatchedReported.step {watched : Watched} {event : LookupEvent}
    (h : WatchedReported B txid watched)
    (hplain : ∀ block, B block → ∀ tx ∈ block.tx, ':' ∉ tx.txid.toList)
    (hnode : ∀ input ∈ event.inputs, ∀ height block, input.node.block height = some block →
      B block) : WatchedReported B txid (event.after settings txid watched) := by
  cases event with
  | indexer step => exact ⟨h.store.step hnode,h.lookup⟩
  | read during =>
    exact ⟨h.store,foundReported_next (storeAt_reported h.store hnode) hplain h.lookup⟩

theorem watchedReported_afterEvents {events : List LookupEvent} {watched : Watched}
    (h : WatchedReported B txid watched)
    (hplain : ∀ block, B block → ∀ tx ∈ block.tx, ':' ∉ tx.txid.toList)
    (hnode : ∀ event ∈ events, ∀ input ∈ event.inputs, ∀ height block,
      input.node.block height = some block → B block) :
    WatchedReported B txid (afterEvents settings txid events watched) := by
  induction events generalizing watched with
  | nil => exact h
  | cons event events ih =>
    exact ih (h.step hplain (hnode event List.mem_cons_self))
      (fun e he => hnode e (List.mem_cons_of_mem _ he))

theorem next_answered (hopen : ∀ answer, lookup ≠ .answered answer)
    (h : lookup.next txid s = .answered (some place)) :
    (∃ record ∈ s.metadata.coreBlocks, record.blockHash = place.blockHash ∧
      record.blockHeight = place.blockHeight) ∨
    ∃ block, s.rawBlock place.blockHeight = some block ∧ block.HasAt txid place ∧
      ∀ tx ∈ block.tx.take place.txIndex, tx.txid ≠ txid := by
  have hchecking {answer : Option TransactionPlace} {other : Lookup}
      (hother : other ≠ .answered (some place)) :
      Lookup.checkingOr answer other ≠ .answered (some place) := by
    cases answer with
    | none => exact hother
    | some place => exact Lookup.noConfusion
  have hscan (heights : List Nat) : Lookup.scan heights ≠ .answered (some place) := by
    cases heights <;> simp [Lookup.scan]
  cases lookup with
  | indexed => exact absurd h (hchecking Lookup.noConfusion)
  | core => exact absurd h (hchecking Lookup.noConfusion)
  | current => exact absurd h (hchecking Lookup.noConfusion)
  | checking asked =>
    obtain ⟨rfl,hrecord⟩ := canonical_eq_some (Lookup.answered.inj h)
    exact .inl hrecord
  | readiness =>
    simp only [Lookup.next] at h
    split at h <;> cases h
  | syncTail =>
    simp only [Lookup.next] at h
    split at h <;> cases h
  | processTail tail => exact absurd h (hscan _)
  | scanning height heights =>
    simp only [Lookup.next] at h
    cases hblock : (s.rawBlock height).bind (findTransaction txid) with
    | none =>
      rw [hblock] at h
      exact absurd h (hscan heights)
    | some found =>
      rw [hblock] at h
      cases h
      obtain ⟨block,hraw,hlisted⟩ := Option.bind_eq_some_iff.mp hblock
      obtain ⟨hat,hfirst⟩ := findTransaction_eq_some hlisted
      have hheight : block.height = height := find?_height hraw
      exact .inr ⟨block,by rw [hat.height,hheight]; exact hraw,hat,hfirst⟩
  | answered answer => exact absurd rfl (hopen answer)

end Sound

/-- However the indexer runs, fails, recovers and crashes while a lookup goes on, an answer is a
place that a block reported by a node has the transaction at. When it is given, that block is the
one of its height in `core_blocks`, or the stored snapshot of the height that lists the transaction
there first. -/
theorem answered_place {settings : CoreDogecoinIndexerSettings} {txid instanceId : String}
    {events : List LookupEvent} {during : Option (IterationInput × List Fate)}
    {place : TransactionPlace} {watched : Watched}
    (hrun : afterEvents settings txid events (begun settings instanceId) = watched)
    (hplain : ∀ block, ReportedIn (events ++ [.read during]) block →
      ∀ tx ∈ block.tx, ':' ∉ tx.txid.toList)
    (hopen : ∀ answer, watched.lookup ≠ .answered answer)
    (hanswer : watched.lookup.next txid (storeAt settings during watched.store) =
      .answered (some place)) :
    (∃ block, ReportedIn (events ++ [.read during]) block ∧ block.HasAt txid place) ∧
      ((∃ record ∈ (storeAt settings during watched.store).metadata.coreBlocks,
          record.blockHash = place.blockHash ∧ record.blockHeight = place.blockHeight) ∨
        ∃ block, (storeAt settings during watched.store).rawBlock place.blockHeight = some block ∧
          block.HasAt txid place ∧ ∀ tx ∈ block.tx.take place.txIndex, tx.txid ≠ txid) := by
  refine ⟨?_,next_answered hopen hanswer⟩
  have hnode : ∀ event ∈ events ++ [.read during], ∀ input ∈ event.inputs, ∀ height block,
      input.node.block height = some block → ReportedIn (events ++ [.read during]) block :=
    fun event hevent input hinput height _ hblock => ⟨event,hevent,input,hinput,height,hblock⟩
  have hbegun : WatchedReported (ReportedIn (events ++ [.read during])) txid
      (begun settings instanceId) := ⟨holdsReported_initialStore instanceId,trivial⟩
  have hreported := @watchedReported_afterEvents _ _ settings events _ hbegun hplain
    (fun event hevent => hnode event (List.mem_append_left _ hevent))
  rw [hrun] at hreported
  have hstore := @storeAt_reported _ _ settings during hreported.store
    (hnode _ (List.mem_append_right _ (List.mem_singleton.mpr rfl)))
  have hfound := foundReported_next hstore hplain hreported.lookup
  rw [hanswer] at hfound
  exact hfound

/-- Six blocks are synced, and a lookup makes its first read. -/
def syncedAndRead : List LookupEvent := [.indexer (.iterate (coinbaseInput 5) []),.read none]

theorem plain_syncedAndRead : ∀ block, ReportedIn (syncedAndRead ++ [.read none]) block →
    ∀ tx ∈ block.tx, ':' ∉ tx.txid.toList := by
  have hchain : ∀ block ∈ (coinbaseChain 5).blocks, ∀ tx ∈ block.tx, ':' ∉ tx.txid.toList := by
    decide +kernel
  intro block hblock
  obtain ⟨event,hevent,input,hinput,height,hreported⟩ := hblock
  simp only [syncedAndRead,List.cons_append,List.nil_append,List.mem_cons,List.not_mem_nil,
    or_false] at hevent
  rcases hevent with rfl | rfl | rfl
  · obtain rfl := List.mem_singleton.mp hinput
    exact hchain block (List.mem_of_getElem? hreported)
  · cases hinput
  · cases hinput

theorem answered_place_tx3 : ∃ place : TransactionPlace, place.blockHeight = 3 ∧
    ∃ block, ReportedIn (syncedAndRead ++ [.read none]) block ∧ block.HasAt "tx3" place := by
  obtain ⟨watched,hrun⟩ : ∃ watched,
      afterEvents shallowSettings "tx3" syncedAndRead (begun shallowSettings "a") =
        watched := ⟨_,rfl⟩
  have hlookup : watched.lookup = .checking ⟨"3",3,3,0⟩ := by
    rw [← hrun]
    decide +kernel
  have hanswer : watched.lookup.next "tx3" (storeAt shallowSettings none watched.store) =
      .answered (some ⟨"3",3,3,0⟩) := by
    rw [← hrun]
    decide +kernel
  have hopen : ∀ answer, watched.lookup ≠ .answered answer := by
    rw [hlookup]
    exact fun answer => Lookup.noConfusion
  exact ⟨_,rfl,(answered_place hrun plain_syncedAndRead hopen hanswer).1⟩

section Undisturbed
variable {txid : String} {s : IndexerStore}

def findRawTransactionRef (txid : String) (s : IndexerStore) : Option TransactionPlace :=
  let syncTail := s.metadata.progress.syncTail.getD (-1)
  if syncTail < 0 then none
  else (rawLookupHeights syncTail (s.metadata.progress.processTail.getD (-1))).findSome?
    fun height => (s.rawBlock height).bind (findTransaction txid)

def getTransactionRef (txid : String) (s : IndexerStore) : Option TransactionPlace :=
  match s.warehouse.getTransactionRef txid with
  | some place => Lookup.canonical s place
  | none => if s.metadata.transactionRefsReady then none else findRawTransactionRef txid s

theorem scan_settles (heights : List Nat) : ∃ n, (Lookup.next txid s)^[n] (Lookup.scan heights) =
    .answered (heights.findSome? fun height =>
      (s.rawBlock height).bind (findTransaction txid)) := by
  induction heights with
  | nil => exact ⟨0,rfl⟩
  | cons height heights ih =>
    obtain ⟨n,hn⟩ := ih
    refine ⟨n + 1,?_⟩
    rw [Function.iterate_succ_apply]
    simp only [Lookup.scan,Lookup.next,List.findSome?_cons]
    cases (s.rawBlock height).bind (findTransaction txid) with
    | none => exact hn
    | some place => exact Function.iterate_fixed rfl n

theorem checkingOr_settles {answer : Option TransactionPlace} {other : Lookup}
    {result : Option TransactionPlace}
    (h : ∃ n, (Lookup.next txid s)^[n] other = .answered result) :
    ∃ n, (Lookup.next txid s)^[n] (Lookup.checkingOr answer other) =
      .answered (answer.elim result (Lookup.canonical s)) := by
  cases answer with
  | none => exact h
  | some place => exact ⟨1,rfl⟩

theorem next_settles {lookup : Lookup} {result : Option TransactionPlace}
    (h : ∃ n, (Lookup.next txid s)^[n] (lookup.next txid s) = .answered result) :
    ∃ n, (Lookup.next txid s)^[n] lookup = .answered result := by
  obtain ⟨n,hn⟩ := h
  exact ⟨n + 1,by rwa [Function.iterate_succ_apply]⟩

theorem lookup_settles (txid : String) (s : IndexerStore) :
    ∃ n, (Lookup.next txid s)^[n] .indexed = .answered (getTransactionRef txid s) := by
  have hraw : ∃ n, (Lookup.next txid s)^[n] .syncTail =
      .answered (findRawTransactionRef txid s) := by
    refine next_settles ?_
    unfold findRawTransactionRef
    simp only [Lookup.next]
    split
    · exact ⟨0,rfl⟩
    · exact next_settles (scan_settles _)
  have hready : ∃ n, (Lookup.next txid s)^[n] .readiness = .answered
      (if s.metadata.transactionRefsReady then none else findRawTransactionRef txid s) := by
    refine next_settles ?_
    simp only [Lookup.next]
    split
    · exact ⟨0,rfl⟩
    · exact hraw
  have hcurrent : ∃ n, (Lookup.next txid s)^[n] .current = _ :=
    next_settles (checkingOr_settles hready)
  have hcore : ∃ n, (Lookup.next txid s)^[n] .core = _ :=
    next_settles (checkingOr_settles hcurrent)
  obtain ⟨n,hn⟩ : ∃ n, (Lookup.next txid s)^[n] .indexed = _ :=
    next_settles (checkingOr_settles hcore)
  refine ⟨n,hn.trans (congrArg Lookup.answered ?_)⟩
  unfold getTransactionRef Warehouse.getTransactionRef
  cases s.warehouse.getIndexedTransactionRef txid <;>
    cases s.warehouse.getCoreTransactionRef txid <;>
      cases s.warehouse.getCurrentTransactionRef txid <;> rfl

/-- The table of references may return its rows in another order. -/
def withRefs (refs : List TransactionRef) (s : IndexerStore) : IndexerStore :=
  { s with warehouse := { s.warehouse with transactionRefs := refs } }

theorem getTransactionRef_of_latest {ref : TransactionRef} (h : Replacing.latest
    TransactionRef.txid TransactionRef.version s.warehouse.transactionRefs txid = some ref) :
    getTransactionRef txid s = Lookup.canonical s ref.place := by
  unfold getTransactionRef Warehouse.getTransactionRef Warehouse.getIndexedTransactionRef
  rw [h]
  rfl

theorem canonical_self {place : TransactionPlace} {record : CoreBlockRecord}
    (hrecord : s.metadata.getCoreBlockByHash place.blockHash = some record)
    (hheight : record.blockHeight = place.blockHeight) :
    Lookup.canonical s place = some place := by
  unfold Lookup.canonical
  rw [hrecord]
  simp [hheight]

theorem latest_last {refs : List TransactionRef} {ref : TransactionRef} (hmem : ref ∈ refs)
    (hmax : ∀ other ∈ refs, other.txid = ref.txid → other.version ≤ ref.version) :
    ∃ order : List TransactionRef, order.Perm refs ∧
      Replacing.latest TransactionRef.txid TransactionRef.version order ref.txid = some ref := by
  refine ⟨refs.erase ref ++ [ref],?_,?_⟩
  · exact (List.perm_append_comm.trans (List.perm_cons_erase hmem).symm)
  · rw [Replacing.latest_append_newer]
    · simp [Replacing.latest]
    · intro x hx y hy hxid _
      obtain rfl := List.mem_singleton.mp hy
      exact hmax x (List.mem_of_mem_erase hx) hxid

end Undisturbed

/-- In every state that a run of the indexer reaches, a stored reference to a block of `core_blocks`
is what the explorer answers, in whatever order the table returns its rows, exactly when no stored
reference of the transaction at this position or a later one names another place. -/
theorem reference_found_iff {settings : CoreDogecoinIndexerSettings} {instanceId : String}
    {steps : List IndexerStep} {s : IndexerStore} {ref : TransactionRef} {record : CoreBlockRecord}
    (hrun : afterSteps settings steps (initialStore settings instanceId) = s)
    (href : ref ∈ s.warehouse.transactionRefs)
    (hrecord : s.metadata.getCoreBlockByHash ref.blockHash = some record)
    (hheight : record.blockHeight = ref.blockHeight) :
    (∀ refs : List TransactionRef, refs.Perm s.warehouse.transactionRefs →
        getTransactionRef ref.txid (withRefs refs s) = some ref.place) ↔
      ∀ other ∈ s.warehouse.transactionRefs, other.txid = ref.txid →
        transactionRefVersion ref.blockHeight ref.txIndex .rawSync ≤
          transactionRefVersion other.blockHeight other.txIndex .rawSync →
            other.place = ref.place := by
  have hversion : ∀ other ∈ s.warehouse.transactionRefs,
      other.version = transactionRefVersion other.blockHeight other.txIndex .rawSync := by
    have hreported : HoldsReported (fun _ => True) s := by
      rw [← hrun]
      exact afterSteps_invariant (fun _ _ h _ => h.step (fun _ _ _ _ _ => trivial))
        (holdsReported_initialStore instanceId) (stepsMeet_true steps _)
    exact fun other hother => (hreported.placed.refs other hother).version
  have hcanonical (refs : List TransactionRef) :
      Lookup.canonical (withRefs refs s) ref.place = some ref.place :=
    @canonical_self (withRefs refs s) _ _ hrecord hheight
  constructor
  · intro hfound other hother hid hle
    obtain ⟨top,htop⟩ := Replacing.latest_isSome TransactionRef.txid TransactionRef.version href
    obtain ⟨hmem,htopid,hmax⟩ := Replacing.latest_spec htop
    have hanswer := hfound s.warehouse.transactionRefs (List.Perm.refl _)
    rw [@getTransactionRef_of_latest _ (withRefs _ s) _ htop] at hanswer
    have hplace := (canonical_eq_some hanswer).1
    -- the row of greatest version stands where the reference stands, so no version is above its own
    have htopversion : top.version = ref.version := by
      have hsame : top.blockHeight = ref.blockHeight ∧ top.txIndex = ref.txIndex :=
        ⟨congrArg TransactionPlace.blockHeight hplace.symm,
          congrArg TransactionPlace.txIndex hplace.symm⟩
      rw [hversion top hmem,hversion ref href,hsame.1,hsame.2]
    rw [← hversion ref href,← hversion other hother] at hle
    obtain ⟨order,hperm,hlast⟩ := latest_last hother (fun row hrow hrowid => by
      have := hmax row hrow (hrowid.trans hid)
      omega)
    have hlastanswer := hfound order hperm
    rw [← hid,@getTransactionRef_of_latest _ (withRefs order s) _ hlast] at hlastanswer
    exact (canonical_eq_some hlastanswer).1.symm
  · intro hlater refs hperm
    obtain ⟨top,htop⟩ := Replacing.latest_isSome TransactionRef.txid TransactionRef.version
      (hperm.mem_iff.mpr href)
    obtain ⟨hmem,hid,hmax⟩ := Replacing.latest_spec htop
    have hle := hmax ref (hperm.mem_iff.mpr href) rfl
    rw [hversion ref href,hversion top (hperm.mem_iff.mp hmem)] at hle
    rw [@getTransactionRef_of_latest _ (withRefs refs s) _ htop,
      hlater top (hperm.mem_iff.mp hmem) hid hle]
    exact hcanonical refs

abbrev syncedStore : IndexerStore :=
  afterSteps shallowSettings [.iterate (coinbaseInput 5) []] (initialStore shallowSettings "a")

theorem reference_found_iff_tx3 :
    getTransactionRef "tx3" (withRefs syncedStore.warehouse.transactionRefs.reverse syncedStore) =
      some ⟨"3",3,3,0⟩ := by
  have href : ⟨"tx3",3,"3",3,0,.rawSync,3000000⟩ ∈ syncedStore.warehouse.transactionRefs := by
    decide +kernel
  have hrecord : syncedStore.metadata.getCoreBlockByHash "3" = some ⟨3,"3",some "2",3,1⟩ := by
    decide +kernel
  have hlater : ∀ other ∈ syncedStore.warehouse.transactionRefs, other.txid = "tx3" →
      transactionRefVersion 3 0 .rawSync ≤
        transactionRefVersion other.blockHeight other.txIndex .rawSync →
          other.place = ⟨"3",3,3,0⟩ := by decide +kernel
  exact (reference_found_iff rfl href hrecord rfl).mpr hlater _ (List.reverse_perm _)

/-! A reorganization that moves a transaction to an earlier place of its height, before the height
is processed, leaves the orphan's reference with the greater version. -/

def bareTransaction (txid : String) : DogecoinTransaction :=
  ⟨txid,[.coinbase],[⟨some 0,7,"addr","p2pkh"⟩]⟩

def movedBlock (hash : String) (before : List String) : OnlyDoge.ParsedDogecoinBlock where
  hash := hash
  height := 4
  time := 4
  previousHash := some "3"
  tx := (before ++ ["moved"]).map bareTransaction

def orphaningChain : NodeChain :=
  ⟨(List.range 4).map coinbaseBlock ++ [movedBlock "4" ["c","d"]],by decide +kernel,
    by simp [List.range_succ]⟩

def orphanedChain : NodeChain :=
  ⟨(List.range 4).map coinbaseBlock ++
    [movedBlock "4b" ["e"],{ coinbaseBlock 5 with previousHash := some "4b" }],by decide +kernel,
    by simp [List.range_succ]⟩

def blockwiseSettings : CoreDogecoinIndexerSettings :=
  { shallowSettings with
    coreProcessWindow := 1
    processWindow_pos := Nat.succ_pos 0 }

def reorganizedSteps : List IndexerStep :=
  List.replicate 5 (.iterate (coinbaseInput 1) []) ++
    .iterate { coinbaseInput 4 with node := orphaningChain } [] ::
      List.replicate 3 (.iterate { coinbaseInput 5 with node := orphanedChain } [])

theorem moved_transaction_hidden : ∃ s,
    afterSteps blockwiseSettings reorganizedSteps (initialStore blockwiseSettings "a") = s ∧
      s.metadata.indexerState = some ⟨.online,5,5,5,false⟩ ∧
      s.metadata.coreBlock 4 = some (recordOf (movedBlock "4b" ["e"])) ∧
      s.rawBlock 4 = some (movedBlock "4b" ["e"]) ∧ getTransactionRef "moved" s = none := by
  obtain ⟨s,hs⟩ : ∃ s, afterSteps blockwiseSettings reorganizedSteps
      (initialStore blockwiseSettings "a") = s := ⟨_,rfl⟩
  refine ⟨s,hs,?_⟩
  rw [← hs]
  decide +kernel

end Explorer

end OnlyDoge
