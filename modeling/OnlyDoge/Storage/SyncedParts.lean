import OnlyDoge.Indexer.RawSyncDurability
import OnlyDoge.Storage.RawBlockStorage
set_option autoImplicit false

/-! What the raw block sync writes, as it is read back from files and from objects. -/

namespace OnlyDoge

namespace Storage
open Slots

section
variable {ρ : Type} {parse : ρ → Option ParsedRawBlockSnapshot}

def IsSnapshotOf (parse : ρ → Option ParsedRawBlockSnapshot) (height : Nat) (snapshot : ρ) : Prop :=
  ∃ block, parse snapshot = some block ∧ block.height = height

def SnapshotWrite (parse : ρ → Option ParsedRawBlockSnapshot) : RawWrite ρ → Prop
  | .part height snapshot => IsSnapshotOf parse height snapshot
  | .blocks _ => True
  | .refs _ => True

def SnapshotParts (parse : ρ → Option ParsedRawBlockSnapshot) (store : RawStore ρ) : Prop :=
  ∀ part ∈ store.parts, IsSnapshotOf parse part.1 part.2

theorem snapshotParts_write {store : RawStore ρ} (h : SnapshotParts parse store)
    {write : RawWrite ρ} (hwrite : SnapshotWrite parse write) :
    SnapshotParts parse (store.write write) := by
  cases write with
  | part height snapshot =>
    intro part hpart
    rcases List.mem_append.mp hpart with hpart | hpart
    · exact h part hpart
    · rw [List.mem_singleton.mp hpart]
      exact hwrite
  | blocks records => exact h
  | refs refs => exact h

variable {settings : RawBlockSyncSettings} {task : BatchTask parse} {result : BatchStep parse}

def SnapshotWrites (parse : ρ → Option ParsedRawBlockSnapshot)
    (writes : List (RawWrite ρ)) : Prop :=
  ∀ write ∈ writes, SnapshotWrite parse write

theorem snapshotWrites_puts (entries : List (StoredRawBlock parse)) :
    SnapshotWrites parse (entries.map StoredRawBlock.put) := by
  intro write hwrite
  obtain ⟨entry,-,rfl⟩ := List.mem_map.mp hwrite
  exact ⟨entry.block,entry.parsed,rfl⟩

theorem snapshotWrites_rows {writes : List (RawWrite ρ)}
    (h : ∀ height snapshot, .part height snapshot ∉ writes) : SnapshotWrites parse writes := by
  intro write hwrite
  cases write with
  | part height snapshot => exact absurd hwrite (h height snapshot)
  | blocks records => trivial
  | refs refs => trivial

/-- A batch writes parts only as `storeSnapshot` passed them, in time or late. -/
theorem snapshotWrites_batch {action : BatchAction ρ}
    (hstep : task.step settings action = some result) :
    SnapshotWrites parse (result.writes ++ result.late) := by
  unfold BatchTask.step at hstep
  cases action with
  | fetched snapshots =>
    cases hs : task.stage <;> simp only [hs] at hstep <;> try cases hstep
    split at hstep
    · cases hstep
      exact snapshotWrites_rows (by simp [BatchTask.failure])
    split at hstep
    · cases hstep
      exact snapshotWrites_puts _
    · cases hstep
      exact snapshotWrites_rows (by simp [BatchTask.moved])
  | put index =>
    cases hs : task.stage <;> simp only [hs] at hstep <;> try cases hstep
    split at hstep
    · cases hstep
    · rename_i entry _
      cases hstep
      exact snapshotWrites_puts [entry]
  | partly index =>
    cases hs : task.stage <;> simp only [hs] at hstep <;> try cases hstep
    all_goals
      obtain ⟨row,-,rfl⟩ := Option.map_eq_some_iff.mp hstep
      exact snapshotWrites_rows (by simp [BatchTask.moved])
  | written =>
    cases hs : task.stage <;> simp only [hs] at hstep <;> try cases hstep
    · split at hstep <;> cases hstep <;>
        exact snapshotWrites_rows (by simp [BatchTask.moved,BatchTask.succeeded])
    · exact snapshotWrites_rows (by simp [BatchTask.succeeded])
  | fails =>
    cases hs : task.stage <;> simp only [hs] at hstep <;> cases hstep
    · exact snapshotWrites_rows (by simp [BatchTask.failure])
    · exact snapshotWrites_puts _
    · exact snapshotWrites_rows (by simp [BatchTask.failure])
    · exact snapshotWrites_rows (by simp [BatchTask.failure])
  | wakes =>
    cases hs : task.stage <;> simp only [hs] at hstep <;> cases hstep
    exact snapshotWrites_rows (by simp)

theorem snapshotParts_writeAll {store : RawStore ρ} (h : SnapshotParts parse store)
    {writes : List (RawWrite ρ)} (hwrites : SnapshotWrites parse writes) :
    SnapshotParts parse (store.writeAll writes) := by
  induction writes generalizing store with
  | nil => exact h
  | cons write writes ih =>
    exact ih (snapshotParts_write h (hwrites write (List.mem_cons_self ..)))
      (fun other ho => hwrites other (List.mem_cons_of_mem _ ho))

variable {call : RawBlockSyncCall} {s t : RawBlockSyncer parse}

structure SnapshotSync (s : RawBlockSyncer parse) : Prop where
  parts : SnapshotParts parse s.store
  late : SnapshotWrites parse s.late

theorem snapshotSync_step {action : SyncAction ρ} (h : SnapshotSync s)
    (hstep : RawBlockSyncer.step call action s = some t) : SnapshotSync t := by
  cases action with
  | batch index action =>
    simp only [RawBlockSyncer.step] at hstep
    split at hstep
    · cases hstep
    · obtain ⟨result,hresult,rfl⟩ := Option.map_eq_some_iff.mp hstep
      have hwrites := snapshotWrites_batch hresult
      refine ⟨snapshotParts_writeAll h.parts fun write hw => ?_,fun write hw => ?_⟩
      · exact hwrites write (List.mem_append_left _ hw)
      · rcases List.mem_append.mp hw with hw | hw
        · exact h.late write hw
        · exact hwrites write (List.mem_append_right _ hw)
  | late index =>
    simp only [RawBlockSyncer.step] at hstep
    obtain ⟨write,hwrite,rfl⟩ := Option.map_eq_some_iff.mp hstep
    exact ⟨snapshotParts_write h.parts (h.late write (List.mem_of_getElem? hwrite)),
      fun other ho => h.late other (List.mem_of_mem_eraseIdx ho)⟩
  | checkpointed fate =>
    simp only [RawBlockSyncer.step] at hstep
    split at hstep
    · cases fate <;> cases hstep <;> exact ⟨h.parts,h.late⟩
    · cases hstep
  | endRound =>
    simp only [RawBlockSyncer.step] at hstep
    split at hstep
    · split at hstep <;> cases hstep <;> exact ⟨h.parts,h.late⟩
    · cases hstep
  | _ =>
    simp only [RawBlockSyncer.step] at hstep
    split at hstep <;> cases hstep
    exact ⟨h.parts,h.late⟩

section
variable {before : Int} {finished : List (List Nat)} {height : Nat}

theorem part_of_finished (h : SyncInvariant call before s finished)
    (hfinished : height ∈ finished.flatten) : ∃ part ∈ s.store.parts, part.1 = height := by
  obtain ⟨entry,hheight,hpart,-,-⟩ := h.stored height hfinished
  exact ⟨_,hpart,rfl⟩

theorem finished_of_frontier (h : SyncInvariant call before s finished)
    (hmem : height ∈ heightRange call.start call.stop) (hle : (height : Int) ≤ s.tracker.current) :
    height ∈ finished.flatten := by
  obtain ⟨hfinished,-⟩ := round_heights h
  rw [h.tracker,heightRange_head hmem] at hle
  rw [hfinished,List.mem_range'_1]
  have hstart := (List.mem_range'_1.mp hmem).1
  simp only at hle
  omega

theorem finished_of_tail (h : SyncInvariant call before s finished)
    (hmem : height ∈ heightRange call.start call.stop) (hbefore : before < height)
    (hle : (height : Int) ≤ s.syncTail) : height ∈ finished.flatten := by
  rcases h.tail with htail | htail | htail
  · omega
  · exact finished_of_frontier h hmem (Int.le_trans hle htail)
  · obtain ⟨hround,hbatches⟩ := h.ended (Or.inr htail)
    have hsplit := h.split
    rw [hround,hbatches,List.map_nil,List.append_nil,List.append_nil] at hsplit
    rw [← hsplit,chunk_flatten]
    exact hmem

end

end

section
variable {zlib : Zlib} {storage : RawBlockStorage} {parts : List (Nat × Payload)}
  {writes : List StorageWrite} {height : Nat} {parse : Payload → Option ParsedRawBlockSnapshot}

def partWrite (part : Nat × Payload) : StorageWrite := ⟨(part.1,rawBlockPart),part.2,.done⟩

/-- The whole puts are these, and any number of others were refused or cut short. -/
def WrittenBy (parts : List (Nat × Payload)) (writes : List StorageWrite) : Prop :=
  (writes.filter Write.isWhole).map (fun w => (w.key,w.value)) =
    parts.map fun part => ((part.1,rawBlockPart),part.2)

/-- A put of the height that was cut short shows nothing, or a whole one came after it. -/
def Rewritten (storage : RawBlockStorage) (writes : List StorageWrite) (height : Nat) : Prop :=
  storage.atomic = true ∨ ∀ w ∈ lastWrite false (height,rawBlockPart) writes, w.isWhole = true

instance (storage : RawBlockStorage) (writes : List StorageWrite) (height : Nat) :
    Decidable (Rewritten storage writes height) :=
  inferInstanceAs (Decidable (_ ∨ _))

theorem lastWrite_of_part (hwrites : WrittenBy parts writes)
    (hrewritten : Rewritten storage writes height) (hpart : ∃ part ∈ parts, part.1 = height) :
    ∃ part ∈ parts, part.1 = height ∧ ∃ w, w.isWhole = true ∧ w.value = part.2 ∧
      lastWrite storage.atomic (height,rawBlockPart) writes = some w := by
  obtain ⟨part,hmem,rfl⟩ := hpart
  have hput : ((part.1,rawBlockPart),part.2) ∈
      (writes.filter Write.isWhole).map (fun w => (w.key,w.value)) := by
    rw [hwrites]
    exact List.mem_map_of_mem hmem
  obtain ⟨put,hput,heq⟩ := List.mem_map.mp hput
  obtain ⟨hput,hwhole⟩ := List.mem_filter.mp hput
  have hleft : put ∈ writes.filter fun w => w.key = (part.1,rawBlockPart) &&
      w.leaves storage.atomic := by
    refine List.mem_filter.mpr ⟨hput,?_⟩
    rw [(Prod.mk.inj heq).1,Write.leaves_of_isWhole hwhole]
    simp
  obtain ⟨w,hw⟩ := Option.ne_none_iff_exists'.mp
    (mt List.getLast?_eq_none_iff.mp (List.ne_nil_of_mem hleft))
  obtain ⟨hmem,hkept⟩ := List.mem_filter.mp (List.mem_of_getLast? hw)
  rw [Bool.and_eq_true,decide_eq_true_eq] at hkept
  have hwhole : w.isWhole = true := by
    cases hatomic : storage.atomic with
    | true => exact Write.isWhole_of_leaves (hatomic ▸ hkept.2)
    | false =>
      refine hrewritten.resolve_left (by simp [hatomic]) w ?_
      rw [← hatomic]
      exact hw
  have hlast : (w.key,w.value) ∈ parts.map fun part => ((part.1,rawBlockPart),part.2) := by
    rw [← hwrites]
    exact List.mem_map_of_mem (f := fun w : StorageWrite => (w.key,w.value))
      (List.mem_filter.mpr ⟨hmem,hwhole⟩)
  obtain ⟨last,hlastmem,hlast⟩ := List.mem_map.mp hlast
  obtain ⟨hkey,hvalue⟩ := Prod.mk.inj hlast
  refine ⟨last,hlastmem,?_,w,hwhole,hvalue.symm,hw⟩
  exact (Prod.mk.inj (hkey.trans hkept.1)).1

def ReadsSnapshot (zlib : Zlib) (storage : RawBlockStorage)
    (parse : Payload → Option ParsedRawBlockSnapshot) (writes : List StorageWrite) (height : Nat) :
    Prop :=
  ∃ payload, storage.getPart zlib (storage.after zlib writes) height rawBlockPart .served =
    .ok (some payload) ∧ IsSnapshotOf parse height payload

theorem readsSnapshot_of_part (h : zlib.Lawful) (hwrites : WrittenBy parts writes)
    (hrewritten : Rewritten storage writes height)
    (hparts : ∀ part ∈ parts, IsSnapshotOf parse part.1 part.2)
    (hpart : ∃ part ∈ parts, part.1 = height) : ReadsSnapshot zlib storage parse writes height := by
  obtain ⟨part,hmem,rfl,w,hwhole,hvalue,hlast⟩ := lastWrite_of_part hwrites hrewritten hpart
  refine ⟨part.2,?_,hparts part hmem⟩
  rw [getPart_served_after h,hlast,RawBlockStorage.answer,Write.isTorn_of_isWhole hwhole,hvalue]
  rfl

/-- Whatever fails, is retried, aborted or comes late in a sync, a height up to a checkpointed
frontier or to the recorded tail is read back as a snapshot of that height: from objects always,
from files unless a put of it was cut short after the whole ones. -/
theorem synced_heights_read (h : zlib.Lawful) (storage : RawBlockStorage)
    (parse : Payload → Option ParsedRawBlockSnapshot) (call : RawBlockSyncCall)
    (concurrency : AdaptiveConcurrencyController) (store : RawStore Payload) (before : Int)
    (actions : List (SyncAction Payload)) (s : RawBlockSyncer parse)
    (hstore : SnapshotParts parse store)
    (hrun : Machine.run (RawBlockSyncer.step call) actions
      (RawBlockSyncer.begin call concurrency store before) = some s)
    (writes : List StorageWrite) (hwrites : WrittenBy s.store.parts writes) :
    ∀ height ∈ heightRange call.start call.stop,
      ((∃ frontier ∈ s.checkpoints, (height : Int) ≤ frontier) ∨
        before < height ∧ (height : Int) ≤ s.syncTail) →
      Rewritten storage writes height → ReadsSnapshot zlib storage parse writes height := by
  have hbegin : SnapshotSync (RawBlockSyncer.begin call concurrency store before :
    RawBlockSyncer parse) := ⟨hstore,by simp [RawBlockSyncer.begin,SnapshotWrites]⟩
  have hkept : (∃ finished, SyncInvariant call before s finished) ∧ SnapshotSync s := by
    refine Machine.run_invariant
      (I := fun s => (∃ finished, SyncInvariant call before s finished) ∧ SnapshotSync s)
      (fun t action t' ht hstep => ?_)
      ⟨⟨[],syncInvariant_begin call concurrency store before⟩,hbegin⟩ hrun
    obtain ⟨finished,hsync⟩ := ht.1
    exact ⟨syncInvariant_step hsync hstep,snapshotSync_step ht.2 hstep⟩
  obtain ⟨⟨finished,hsync⟩,hsnapshots⟩ := hkept
  intro height hmem hbelow hrewritten
  have hfinished : height ∈ finished.flatten := by
    rcases hbelow with ⟨frontier,hfrontier,hle⟩ | ⟨hbefore,hle⟩
    · exact finished_of_frontier hsync hmem (Int.le_trans hle (hsync.below frontier hfrontier))
    · exact finished_of_tail hsync hmem hbefore hle
  exact readsSnapshot_of_part h hwrites hrewritten hsnapshots.parts
    (part_of_finished hsync hfinished)

end

/-! A sync of height 7 whose first attempt fails amid its put, which is carried out at the end. -/

def snapshotOfHeight (payload : Payload) : Option ParsedRawBlockSnapshot :=
  match payload.value.get "height" with
  | some (.number height) =>
    height.toInt.map fun height => ⟨"h",height.toNat,none,0,["t"]⟩
  | _ => none

def lateCall : RawBlockSyncCall := ⟨⟨1,2,2⟩,7,7,true⟩

def lateActions : List (SyncAction Payload) :=
  [.startRound,.batch 0 (.fetched [heightPayload 7]),.batch 0 .fails,.batch 0 .wakes,
    .batch 0 (.fetched [heightPayload 7]),.batch 0 (.put 0),.batch 0 .written,.batch 0 .written,
    .endRound,.checkpointed .done,.finish,.recordTail,.late 0]

def lateSync : Option (RawBlockSyncer snapshotOfHeight) :=
  Machine.run (RawBlockSyncer.step lateCall) lateActions
    (RawBlockSyncer.begin lateCall ⟨2,2,0⟩ ⟨[],[],[]⟩ 6)

theorem lateSync_isSome : lateSync.isSome = true := rfl

/-- The two puts, and one of the first attempt that was cut short. -/
def lateWrites : List StorageWrite :=
  [⟨(7,rawBlockPart),heightPayload 7,.cut 10⟩,partWrite (7,heightPayload 7),
    partWrite (7,heightPayload 7)]

theorem synced_heights_read_late :
    (lateSync.get lateSync_isSome).syncTail = 7 ∧
      ReadsSnapshot sampleZlib (.file "/data/raw") snapshotOfHeight lateWrites 7 ∧
      ReadsSnapshot sampleZlib (.s3 "raw") snapshotOfHeight lateWrites.reverse 7 := by
  have hempty : SnapshotParts snapshotOfHeight ⟨[],[],[]⟩ := by simp [SnapshotParts]
  have hread (storage : RawBlockStorage) (writes : List StorageWrite)
      (hwrites : WrittenBy (lateSync.get lateSync_isSome).store.parts writes) :=
    synced_heights_read sampleZlib_lawful storage snapshotOfHeight lateCall
      ⟨2,2,0⟩ ⟨[],[],[]⟩ 6 lateActions (lateSync.get lateSync_isSome) hempty
      (Option.some_get _).symm writes hwrites 7 (by decide) (Or.inr ⟨by decide,by decide⟩)
  refine ⟨rfl,hread _ lateWrites rfl (Or.inr ?_),hread _ lateWrites.reverse rfl (Or.inl rfl)⟩
  intro w hw
  cases hw
  rfl

end Storage

end OnlyDoge
