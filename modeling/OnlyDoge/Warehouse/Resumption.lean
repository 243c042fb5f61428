import OnlyDoge.Warehouse.StateStore
import OnlyDoge.Warehouse.MaterializationLedger
import OnlyDoge.Warehouse.Frames
set_option autoImplicit false

/-!
A materialization that resumes from its checkpoint ends with the tables of one that was never
interrupted.
-/

namespace OnlyDoge
open Job

section Rows
variable {w t : Warehouse} {asOfBlockHeight : Nat}

theorem SameFacts.materializedUtxos (h : SameFacts w t) (range : ClickHouseStringRange) :
    t.materializedUtxos asOfBlockHeight range = w.materializedUtxos asOfBlockHeight range := by
  unfold Warehouse.materializedUtxos Warehouse.upTo
  rw [h.creates,h.spends]

theorem SameFacts.materializedAppliedBlocks (h : SameFacts w t) (startHeight endHeight : Nat) :
    t.materializedAppliedBlocks startHeight endHeight =
      w.materializedAppliedBlocks startHeight endHeight := by
  unfold Warehouse.materializedAppliedBlocks
  rw [h.processed]

def Warehouse.outputKeyRanges (w : Warehouse) : List ClickHouseStringRange :=
  buildCoreCurrentStateOutputKeyRanges (coreCurrentStateRangePrefixLength w.coreUtxoCreates.length)

/-- The current UTXO rows of the facts, over every key range. -/
def Warehouse.unspentRows (w : Warehouse) (asOfBlockHeight : Nat) : List UtxoRow :=
  w.outputKeyRanges.flatMap (w.materializedUtxos asOfBlockHeight)

theorem unspentRows_key {r r' : UtxoRow} (hr : r ∈ w.unspentRows asOfBlockHeight)
    (hr' : r' ∈ w.unspentRows asOfBlockHeight) (h : r.key = r'.key) : r = r' := by
  have hlatest {x : UtxoRow} (hx : x ∈ w.unspentRows asOfBlockHeight) :
      ∃ c, Replacing.latest (·.outputKey) (·.blockHeight) (w.upTo asOfBlockHeight).coreUtxoCreates
        x.key = some c ∧ x = ⟨{ c with spentBy := none },asOfBlockHeight⟩ := by
    obtain ⟨range,-,hx⟩ := List.mem_flatMap.mp hx
    obtain ⟨c,hc,rfl⟩ := List.mem_map.mp hx
    have hcollapse := Replacing.mem_collapse.mp (List.mem_filter.mp hc).1
    have hin := (List.mem_filter.mp (Replacing.latest_spec hcollapse).1).2
    rw [Replacing.latest_filter (fun d _ hd => by rw [hd]; exact hin)] at hcollapse
    exact ⟨c,hcollapse,rfl⟩
  obtain ⟨c,hc,hrc⟩ := hlatest hr
  obtain ⟨d,hd,hrd⟩ := hlatest hr'
  rw [h,hd] at hc
  cases hc
  rw [hrc,hrd]

@[simp] theorem contains_unbounded (text : String) :
    (⟨none,none⟩ : ClickHouseStringRange).contains text = true := rfl

theorem mem_balanceSource_range {range : ClickHouseStringRange} {c : ProjectionUtxoOutput} :
    c ∈ w.balanceSource range ↔ c ∈ w.balanceSource ⟨none,none⟩ ∧ range.contains c.address := by
  unfold Warehouse.balanceSource
  simp [and_assoc]

theorem sumValues_perm {xs ys : List ProjectionUtxoOutput} (h : xs.Perm ys) :
    Warehouse.sumValues xs = Warehouse.sumValues ys := (h.map _).sum_eq

/-- The balance row of an address that owns an unspent output. -/
def Warehouse.balanceRow (w : Warehouse) (asOfBlockHeight : Nat) (address : String) :
    VersionedBalanceRow :=
  ⟨address,"",Warehouse.sumValues ((w.balanceSource ⟨none,none⟩).filter (·.address = address)),
    asOfBlockHeight,asOfBlockHeight⟩

theorem balanceSource_filter {range : ClickHouseStringRange} {address : String}
    (h : range.contains address) :
    (w.balanceSource range).filter (fun c => decide (c.address = address)) =
      (w.balanceSource ⟨none,none⟩).filter (fun c => decide (c.address = address)) := by
  unfold Warehouse.balanceSource
  rw [List.filter_filter,List.filter_filter]
  refine List.filter_congr (fun c _ => ?_)
  by_cases hc : c.address = address
  · simp [hc,h]
  · simp [hc]

theorem mem_materializedBalances {boundaries : List String} {row : VersionedBalanceRow} :
    row ∈ (stringRangesFromBoundaries boundaries).flatMap
        (w.materializedBalances asOfBlockHeight) ↔
      ∃ address ∈ (w.balanceSource ⟨none,none⟩).map (·.address),
        row = w.balanceRow asOfBlockHeight address := by
  simp only [List.mem_flatMap,Warehouse.materializedBalances,List.mem_map,OrderedMap.mem_distinct]
  constructor
  · rintro ⟨range,-,address,⟨c,hc,rfl⟩,rfl⟩
    obtain ⟨hsource,hin⟩ := mem_balanceSource_range.mp hc
    refine ⟨c.address,⟨c,hsource,rfl⟩,?_⟩
    rw [balanceSource_filter hin]
    rfl
  · rintro ⟨address,⟨c,hc,rfl⟩,rfl⟩
    obtain ⟨range,hrange,hin⟩ := stringRangesFromBoundaries_cover boundaries c.address
    refine ⟨range,hrange,c.address,⟨c,mem_balanceSource_range.mpr ⟨hc,hin⟩,rfl⟩,?_⟩
    rw [balanceSource_filter hin]
    rfl

/-- The tables as an attempt that ends leaves them, for some reading of the boundaries. -/
structure Materialized (w : Warehouse) (asOfBlockHeight : Nat) (t : Warehouse) : Prop where
  utxos : ∀ row, row ∈ t.currentUtxos ↔ row ∈ w.unspentRows asOfBlockHeight
  byAddress : t.currentUtxosByAddress = t.currentUtxos
  balances : ∃ boundaries, t.balances =
    (stringRangesFromBoundaries boundaries).flatMap (t.materializedBalances asOfBlockHeight)
  analytics : t.analyticsBalances = t.balances
  applied : t.appliedBlocks =
    (List.range (asOfBlockHeight / coreAppliedBlockHeightsPerRange + 1)).flatMap
      (fun index => w.materializedAppliedBlocks (index * coreAppliedBlockHeightsPerRange)
        (min asOfBlockHeight
          (index * coreAppliedBlockHeightsPerRange + coreAppliedBlockHeightsPerRange - 1)))

/-- The same current state: the tables hold the same rows, and a lookup by key, which replaces
older rows, finds the same row. -/
structure SameCurrentState (t u : Warehouse) : Prop where
  utxos : ∀ row, row ∈ t.currentUtxos ↔ row ∈ u.currentUtxos
  utxosByAddress : ∀ row, row ∈ t.currentUtxosByAddress ↔ row ∈ u.currentUtxosByAddress
  balances : ∀ row, row ∈ t.balances ↔ row ∈ u.balances
  analyticsBalances : ∀ row, row ∈ t.analyticsBalances ↔ row ∈ u.analyticsBalances
  appliedBlocks : t.appliedBlocks = u.appliedBlocks
  latestUtxoRow : ∀ key, t.latestUtxoRow key = u.latestUtxoRow key
  latestBalanceRow : ∀ key, t.latestBalanceRow key = u.latestBalanceRow key

variable {u : Warehouse}

theorem Materialized.balanceSource_perm (ht : Materialized w asOfBlockHeight t)
    (hu : Materialized w asOfBlockHeight u) (range : ClickHouseStringRange) :
    (t.balanceSource range).Perm (u.balanceSource range) := by
  have hrows (row : UtxoRow) :
      row ∈ t.currentUtxosByAddress ↔ row ∈ u.currentUtxosByAddress := by
    rw [ht.byAddress,hu.byAddress,ht.utxos,hu.utxos]
  have hone : ∀ r ∈ t.currentUtxosByAddress, ∀ r' ∈ t.currentUtxosByAddress,
      Warehouse.byAddressKey r = Warehouse.byAddressKey r' → r = r' := by
    rw [ht.byAddress]
    intro r hr r' hr' hkey
    exact unspentRows_key ((ht.utxos r).mp hr) ((ht.utxos r').mp hr') (Prod.mk.inj hkey).2
  rw [List.perm_ext_iff_of_nodup (balanceSource_nodup t range) (balanceSource_nodup u range)]
  intro c
  unfold Warehouse.balanceSource
  simp only [List.mem_filter,List.mem_map,Replacing.mem_collapse,
    Replacing.latest_congr_of_mem hrows hone]

theorem Materialized.balanceRow_eq (ht : Materialized w asOfBlockHeight t)
    (hu : Materialized w asOfBlockHeight u) (address : String) :
    t.balanceRow asOfBlockHeight address = u.balanceRow asOfBlockHeight address := by
  unfold Warehouse.balanceRow
  rw [sumValues_perm ((ht.balanceSource_perm hu _).filter _)]

theorem Materialized.mem_balances (ht : Materialized w asOfBlockHeight t)
    {row : VersionedBalanceRow} : row ∈ t.balances ↔
      ∃ address ∈ (t.balanceSource ⟨none,none⟩).map (·.address),
        row = t.balanceRow asOfBlockHeight address := by
  obtain ⟨boundaries,hrows⟩ := ht.balances
  rw [hrows,mem_materializedBalances]

theorem Materialized.same (ht : Materialized w asOfBlockHeight t)
    (hu : Materialized w asOfBlockHeight u) : SameCurrentState t u := by
  have hutxos (row : UtxoRow) : row ∈ t.currentUtxos ↔ row ∈ u.currentUtxos := by
    rw [ht.utxos,hu.utxos]
  have hbalances (row : VersionedBalanceRow) : row ∈ t.balances ↔ row ∈ u.balances := by
    rw [ht.mem_balances,hu.mem_balances]
    simp only [ht.balanceRow_eq hu,((ht.balanceSource_perm hu _).map _).mem_iff]
  constructor
  · exact hutxos
  · rwa [ht.byAddress,hu.byAddress]
  · exact hbalances
  · rwa [ht.analytics,hu.analytics]
  · rw [ht.applied,hu.applied]
  · intro key
    refine Replacing.latest_congr_of_mem hutxos (fun r hr r' hr' hkey => ?_) key
    exact unspentRows_key ((ht.utxos r).mp hr) ((ht.utxos r').mp hr') hkey
  · intro key
    refine Replacing.latest_congr_of_mem hbalances (fun r hr r' hr' hkey => ?_) key
    obtain ⟨a,-,rfl⟩ := ht.mem_balances.mp hr
    obtain ⟨b,-,rfl⟩ := ht.mem_balances.mp hr'
    have hab : a = b := (Prod.mk.inj hkey).1
    rw [hab]

end Rows

section Attempt
variable (w : Warehouse) (asOfBlockHeight : Nat)

/-- The UTXO tables hold rows of the facts only, and all those of the first `completed` ranges. -/
structure RangesDone (completed : Nat) (t : Warehouse) : Prop where
  sound : ∀ row ∈ t.currentUtxos, row ∈ w.unspentRows asOfBlockHeight
  present : ∀ range ∈ w.outputKeyRanges.take completed,
    ∀ row ∈ w.materializedUtxos asOfBlockHeight range, row ∈ t.currentUtxos
  byAddress : t.currentUtxosByAddress = t.currentUtxos

/-- What every attempt leaves, wherever it stops: the facts, and a checkpoint that promises no
more than the tables hold. -/
structure Resumable (s : CoreStateStore) : Prop where
  facts : SameFacts w s.warehouse
  checkpoint : ∀ completed,
    s.resumePoint asOfBlockHeight = some (completed,w.outputKeyRanges.length) → 0 < completed →
      RangesDone w asOfBlockHeight completed s.warehouse

variable {w} {asOfBlockHeight} {completed : Nat} {t : Warehouse} {s : CoreStateStore}

theorem RangesDone.mono {fewer : Nat} (h : RangesDone w asOfBlockHeight completed t)
    (hle : fewer ≤ completed) : RangesDone w asOfBlockHeight fewer t := by
  refine ⟨h.sound,fun range hrange => h.present range ?_,h.byAddress⟩
  exact (List.take_prefix_take_left hle).subset hrange

theorem RangesDone.min (h : RangesDone w asOfBlockHeight completed t) :
    RangesDone w asOfBlockHeight (min w.outputKeyRanges.length completed) t :=
  h.mono (Nat.min_le_right _ _)

theorem RangesDone.insert {index : Nat} {range : ClickHouseStringRange}
    (h : RangesDone w asOfBlockHeight index t) (hrange : w.outputKeyRanges[index]? = some range) :
    RangesDone w asOfBlockHeight (index + 1)
      (t.insertCurrentUtxos (w.materializedUtxos asOfBlockHeight range)) := by
  constructor
  · intro row hrow
    rcases List.mem_append.mp hrow with hold | hnew
    · exact h.sound row hold
    · exact List.mem_flatMap.mpr ⟨range,List.mem_of_getElem? hrange,hnew⟩
  · intro done hdone row hrow
    rw [List.take_add_one,hrange] at hdone
    rcases List.mem_append.mp hdone with hold | hnew
    · exact List.mem_append_left _ (h.present done hold row hrow)
    · obtain rfl : done = range := by simpa using hnew
      exact List.mem_append_right _ hrow
  · change t.currentUtxosByAddress ++ _ = t.currentUtxos ++ _
    rw [h.byAddress]

theorem RangesDone.again {range : ClickHouseStringRange}
    (h : RangesDone w asOfBlockHeight completed t) (hrange : range ∈ w.outputKeyRanges) :
    RangesDone w asOfBlockHeight completed
      (t.insertCurrentUtxos (w.materializedUtxos asOfBlockHeight range)) := by
  constructor
  · intro row hrow
    rcases List.mem_append.mp hrow with hold | hnew
    · exact h.sound row hold
    · exact List.mem_flatMap.mpr ⟨range,hrange,hnew⟩
  · exact fun done hdone row hrow => List.mem_append_left _ (h.present done hdone row hrow)
  · change t.currentUtxosByAddress ++ _ = t.currentUtxos ++ _
    rw [h.byAddress]

/-- A failure leaves the store resumable, and only a failed call is one. -/
def StaysResumable (w : Warehouse) (asOfBlockHeight : Nat) (e : Failure CoreError)
    (s : CoreStateStore) : Prop := OnlyFaults e s ∧ Resumable w asOfBlockHeight s

/-- The derived tables of a store. -/
def CoreStateStore.derived (s : CoreStateStore) :
    List VersionedBalanceRow × List VersionedBalanceRow × List ProjectionAppliedBlock :=
  (s.warehouse.balances,s.warehouse.analyticsBalances,s.warehouse.appliedBlocks)

theorem zipIdx_split {α : Type} {xs : List α} {passed ahead : List (α × Nat)} {x : α} {i : Nat}
    (h : xs.zipIdx = passed ++ (x,i)::ahead) : i = passed.length ∧ xs[i]? = some x := by
  have hget : xs.zipIdx[passed.length]? = some (x,i) := by
    rw [h,List.getElem?_append_right (Nat.le_refl _)]
    simp
  rw [List.getElem?_zipIdx] at hget
  cases hx : xs[passed.length]? with
  | none => simp [hx] at hget
  | some y =>
    simp only [hx,Option.map_some,Option.some.injEq,Prod.mk.injEq,Nat.zero_add] at hget
    obtain ⟨rfl,rfl⟩ := hget
    exact ⟨rfl,hx⟩

theorem wp_insertUtxoRanges {resumeFrom : Option (Nat × Nat)} (h : Resumable w asOfBlockHeight s)
    (hdone : RangesDone w asOfBlockHeight completed s.warehouse) :
    wp (insertCoreCurrentUtxoRanges (resumableMaterialization asOfBlockHeight resumeFrom)
      asOfBlockHeight completed w.outputKeyRanges)
      (fun _ s' => Resumable w asOfBlockHeight s' ∧
        RangesDone w asOfBlockHeight w.outputKeyRanges.length s'.warehouse ∧
        s'.derived = s.derived)
      (StaysResumable w asOfBlockHeight) (Resumable w asOfBlockHeight) s := by
  refine wp_mono (wp_forEach (fun passed s' => Resumable w asOfBlockHeight s' ∧
    RangesDone w asOfBlockHeight (max completed passed.length) s'.warehouse ∧
    s'.derived = s.derived) ?_ ⟨h,by simpa using hdone,rfl⟩) ?_ (fun _ _ h => h) (fun _ h => h)
  · rintro passed ⟨range,index⟩ ahead s' hentries ⟨hres,hranges,hderived⟩
    obtain ⟨rfl,hrange⟩ := zipIdx_split hentries
    have hmem := List.mem_of_getElem? hrange
    refine wp_ite (fun hskip => wp_pure ⟨hres,?_,hderived⟩) (fun hnew => ?_)
    · refine hranges.mono ?_
      simp only [List.length_append,List.length_singleton]
      omega
    -- the rows are inserted, then the checkpoint counts their range
    have hindex : max completed passed.length = passed.length := by omega
    rw [hindex] at hranges
    have hinsert := hranges.insert hrange
    let inserted : CoreStateStore := { s' with
      warehouse := s'.warehouse.insertCurrentUtxos (s'.warehouse.materializedUtxos
        asOfBlockHeight range) }
    have hrows : s'.warehouse.materializedUtxos asOfBlockHeight range =
        w.materializedUtxos asOfBlockHeight range := hres.facts.materializedUtxos range
    have hinserted : Resumable w asOfBlockHeight inserted := by
      refine ⟨hres.facts.trans ⟨rfl,rfl,rfl,rfl,rfl,rfl,rfl⟩,fun c hc hpos => ?_⟩
      simp only [inserted,hrows]
      exact (hres.checkpoint c hc hpos).again hmem
    have hsaved : Resumable w asOfBlockHeight (inserted.saveCheckpoint asOfBlockHeight
        (passed.length + 1) w.outputKeyRanges.length) := by
      refine ⟨hinserted.facts,fun c hc _ => ?_⟩
      obtain rfl : passed.length + 1 = c := by
        simp only [CoreStateStore.resumePoint,CoreStateStore.saveCheckpoint,if_true] at hc
        exact (Prod.mk.inj (Option.some.inj hc)).1
      simp only [CoreStateStore.saveCheckpoint,inserted,hrows]
      exact hinsert
    refine wp_bind (wp_zoom (wp_write ?_ ⟨trivial,hinserted⟩ ⟨trivial,hres⟩ hres))
    refine wp_write ⟨hsaved,?_,hderived⟩ ⟨trivial,hsaved⟩ ⟨trivial,hinserted⟩ hinserted
    have hlen : max completed (passed ++ [(range,passed.length)]).length = passed.length + 1 := by
      simp only [List.length_append,List.length_singleton]
      omega
    rw [hlen]
    simp only [CoreStateStore.saveCheckpoint]
    change RangesDone w asOfBlockHeight (passed.length + 1) inserted.warehouse
    simp only [inserted,hrows]
    exact hinsert
  · rintro - s' ⟨hres,hranges,hderived⟩
    refine ⟨hres,hranges.mono ?_,hderived⟩
    rw [List.length_zipIdx]
    exact Nat.le_max_right _ _

/-! What follows the ranges touches the derived tables only. -/

/-- A property of the facts and of the UTXO tables. -/
def AboutUtxos (I : Warehouse → Prop) : Prop := ∀ w t, SameFacts w t →
  t.currentUtxos = w.currentUtxos → t.currentUtxosByAddress = w.currentUtxosByAddress → I w → I t

section Derived
variable {I : Warehouse → Prop} {boundaries : Warehouse → List String}

theorem keeps_utxos_clear (hI : AboutUtxos I) : Keeps I clearCoreDerivedState := by
  refine keeps_forEach (fun step hstep => keeps_write (fun w hw => ?_))
  simp only [clearDerivedStateSteps,List.mem_cons,List.not_mem_nil,or_false] at hstep
  rcases hstep with rfl | rfl | rfl
  · exact hI w _ ⟨rfl,rfl,rfl,rfl,rfl,rfl,rfl⟩ rfl rfl hw
  · exact hI w _ ⟨rfl,rfl,rfl,rfl,rfl,rfl,rfl⟩ rfl rfl hw
  · exact hI w _ ⟨rfl,rfl,rfl,rfl,rfl,rfl,rfl⟩ rfl rfl hw

theorem keeps_utxos_balances (hI : AboutUtxos I) :
    Keeps I (insertCoreCurrentBalances boundaries asOfBlockHeight) := by
  refine keeps_bind (keeps_read _) (fun _ => keeps_forEach (fun _ _ => keeps_bind ?_ (fun _ => ?_)))
  · exact keeps_write (fun w hw => hI w _ ⟨rfl,rfl,rfl,rfl,rfl,rfl,rfl⟩ rfl rfl hw)
  · exact keeps_write (fun w hw => hI w _ ⟨rfl,rfl,rfl,rfl,rfl,rfl,rfl⟩ rfl rfl hw)

theorem keeps_utxos_applied (hI : AboutUtxos I) :
    Keeps I (insertCoreAppliedBlocks asOfBlockHeight) :=
  keeps_forEach (fun _ _ => keeps_write (fun w hw =>
    hI w _ ⟨rfl,rfl,rfl,rfl,rfl,rfl,rfl⟩ rfl rfl hw))

theorem Resumable.with {u : Warehouse} (h : Resumable w asOfBlockHeight s)
    (hfacts : SameFacts s.warehouse u) (hutxos : u.currentUtxos = s.warehouse.currentUtxos)
    (hby : u.currentUtxosByAddress = s.warehouse.currentUtxosByAddress) :
    Resumable w asOfBlockHeight { s with warehouse := u } := by
  refine ⟨h.facts.trans hfacts,fun c hc hpos => ?_⟩
  obtain ⟨hsound,hpresent,haddress⟩ := h.checkpoint c hc hpos
  constructor
  · rwa [hutxos]
  · rwa [hutxos]
  · rw [hutxos,hby,haddress]

theorem wp_derived {m : WarehouseJob Unit} {Q : Unit → Warehouse → Prop}
    (h : Resumable w asOfBlockHeight s) (hm : ∀ I, AboutUtxos I → Keeps I m)
    (hspec : wp m Q OnlyFaults Anywhere s.warehouse) :
    wp (zoom CoreStateStore.warehousePart m)
      (fun _ s' => Resumable w asOfBlockHeight s' ∧ Q () s'.warehouse)
      (StaysResumable w asOfBlockHeight) (Resumable w asOfBlockHeight) s := by
  have hkeeps := hm (fun u => Resumable w asOfBlockHeight { s with warehouse := u })
    (fun v u hfacts hutxos hby hv => hv.with hfacts hutxos hby) s.warehouse h
  refine wp_zoom (wp_mono (wp_and hspec hkeeps) ?_ ?_ ?_)
  · exact fun _ u hu => ⟨hu.2,hu.1⟩
  · rintro e u ⟨hfault,hu⟩
    refine ⟨?_,hu⟩
    cases e with
    | fault => trivial
    | thrown e => exact hfault
  · exact fun u hu => hu.2

end Derived

theorem wp_clearForRestart (h : Resumable w asOfBlockHeight s)
    (hnone : ∀ completed, s.resumePoint asOfBlockHeight =
      some (completed,w.outputKeyRanges.length) → completed = 0) :
    wp (zoom CoreStateStore.warehousePart clearCoreDogecoinCurrentState)
      (fun _ s' => Resumable w asOfBlockHeight s' ∧ RangesDone w asOfBlockHeight 0 s'.warehouse ∧
        s'.derived = ([],[],[]))
      (StaysResumable w asOfBlockHeight) (Resumable w asOfBlockHeight) s := by
  have hany {u : Warehouse} (hu : SameFacts w u) :
      Resumable w asOfBlockHeight { s with warehouse := u } := by
    refine ⟨hu,fun c hc hpos => ?_⟩
    have := hnone c hc
    omega
  have hkeeps := keeps_clearCoreDogecoinCurrentState (I := SameFacts w)
    (fun v u hvu hv => hv.trans hvu) s.warehouse h.facts
  have hspec := wp_clearCoreDogecoinCurrentState (w := s.warehouse)
    (Q := fun _ u => u = s.warehouse.cleared) rfl
  refine wp_zoom (wp_mono (wp_and hspec hkeeps) ?_ ?_ ?_)
  · rintro _ u ⟨rfl,hu⟩
    exact ⟨hany hu,⟨by simp [Warehouse.cleared,CoreStateStore.warehousePart],by simp,rfl⟩,rfl⟩
  · rintro e u ⟨hfault,hu⟩
    refine ⟨?_,hany hu⟩
    cases e with
    | fault => trivial
    | thrown e => exact hfault
  · exact fun u hu => hany hu.2

variable {boundaries : Warehouse → List String}

theorem wp_insertDerived (h : Resumable w asOfBlockHeight s)
    (hranges : RangesDone w asOfBlockHeight w.outputKeyRanges.length s.warehouse)
    (hempty : s.derived = ([],[],[])) :
    wp (do
        Job.zoom CoreStateStore.warehousePart (insertCoreCurrentBalances boundaries asOfBlockHeight)
        Job.zoom CoreStateStore.warehousePart (insertCoreAppliedBlocks asOfBlockHeight))
      (fun _ s' => Resumable w asOfBlockHeight s' ∧ Materialized w asOfBlockHeight s'.warehouse)
      (StaysResumable w asOfBlockHeight) (Resumable w asOfBlockHeight) s := by
  obtain ⟨hb,ha,happlied⟩ : s.warehouse.balances = [] ∧ s.warehouse.analyticsBalances = [] ∧
      s.warehouse.appliedBlocks = [] := by
    simpa only [CoreStateStore.derived,Prod.mk.injEq] using hempty
  refine wp_bind (wp_mono (wp_derived h (fun I hI => keeps_utxos_balances hI)
    (wp_insertCoreCurrentBalances (Q := fun _ t => ∃ rows,
      rows = (stringRangesFromBoundaries (boundaries s.warehouse)).flatMap
        (s.warehouse.materializedBalances asOfBlockHeight) ∧
      t = { s.warehouse with balances := rows,analyticsBalances := rows }) hb ha
      (fun rows hrows => ⟨rows,hrows,rfl⟩))) ?_ (fun _ _ h => h) (fun _ h => h))
  rintro _ s' ⟨hres,rows,hrows,hs'⟩
  refine wp_mono (wp_derived hres (fun I hI => keeps_utxos_applied hI)
    (wp_insertCoreAppliedBlocks (Q := fun _ t => t = s'.warehouse.insertAppliedBlocks _) rfl))
    ?_ (fun _ _ h => h) (fun _ h => h)
  rintro _ s'' ⟨hres',hs''⟩
  refine ⟨hres',?_⟩
  rw [hs'',hs']
  constructor
  · intro row
    refine ⟨hranges.sound row,fun hrow => ?_⟩
    obtain ⟨range,hrange,hrow⟩ := List.mem_flatMap.mp hrow
    exact hranges.present range (by rwa [List.take_length]) row hrow
  · exact hranges.byAddress
  · exact ⟨boundaries s.warehouse,hrows⟩
  · rfl
  · simp only [Warehouse.insertAppliedBlocks,happlied,List.nil_append]
    have happlies (startHeight endHeight : Nat) :
        s.warehouse.materializedAppliedBlocks startHeight endHeight =
          w.materializedAppliedBlocks startHeight endHeight :=
      h.facts.materializedAppliedBlocks startHeight endHeight
    simp only [← happlies]
    rfl

theorem wp_insertMaterialization {resumeFrom : Option (Nat × Nat)}
    (h : Resumable w asOfBlockHeight s)
    (hdone : RangesDone w asOfBlockHeight completed s.warehouse)
    (hempty : completed = 0 → s.derived = ([],[],[])) :
    wp (insertCoreCurrentStateMaterialization
        (resumableMaterialization asOfBlockHeight resumeFrom) boundaries asOfBlockHeight completed
        w.outputKeyRanges)
      (fun _ s' => Resumable w asOfBlockHeight s' ∧ Materialized w asOfBlockHeight s'.warehouse)
      (StaysResumable w asOfBlockHeight) (Resumable w asOfBlockHeight) s := by
  refine wp_bind (wp_mono (wp_insertUtxoRanges h hdone) ?_ (fun _ _ h => h) (fun _ h => h))
  rintro _ s' ⟨hres,hranges,hderived⟩
  refine wp_bind (wp_when (fun hpos => ?_) (fun hzero => ?_))
  · -- rows that a failed attempt left in the derived tables go first
    refine wp_mono (wp_derived hres (fun I hI => keeps_utxos_clear hI) (wp_forEach_write
      (Q := fun _ t => t = { s'.warehouse with
        balances := [],analyticsBalances := [],appliedBlocks := [] }) rfl
      (fun _ _ _ => ⟨trivial,trivial⟩))) ?_ (fun _ _ h => h) (fun _ h => h)
    rintro _ s'' ⟨hres',hs''⟩
    refine wp_insertDerived hres' ?_ ?_
    · rw [hs'']
      exact ⟨hranges.sound,hranges.present,hranges.byAddress⟩
    · rw [CoreStateStore.derived,hs'']
  · have hcompleted : completed = 0 := by omega
    exact wp_insertDerived hres hranges (hderived.trans (hempty hcompleted))

theorem Resumable.ranges (h : Resumable w asOfBlockHeight s) :
    s.warehouse.outputKeyRanges = w.outputKeyRanges := by
  unfold Warehouse.outputKeyRanges
  rw [h.facts.creates]

theorem Resumable.flags {s' : CoreStateStore} (h : Resumable w asOfBlockHeight s)
    (hwarehouse : s'.warehouse = s.warehouse)
    (hcheckpoint : s'.materialization = s.materialization ∨ s'.materialization = none) :
    Resumable w asOfBlockHeight s' := by
  refine ⟨by rw [hwarehouse]; exact h.facts,fun c hc hpos => ?_⟩
  rw [hwarehouse]
  rcases hcheckpoint with hsame | hnone
  · refine h.checkpoint c ?_ hpos
    rwa [CoreStateStore.resumePoint,← hsame]
  · simp [CoreStateStore.resumePoint,hnone] at hc

theorem wp_finishMaterialization (h : Resumable w asOfBlockHeight s)
    (hdone : Materialized w asOfBlockHeight s.warehouse) :
    wp (do
        Job.settleAll [Job.write (CoreStateStore.setCurrentStateReady true),
          Job.write (CoreStateStore.setHistoryReady false)]
        Job.write CoreStateStore.deleteCheckpoint)
      (fun _ s' => Resumable w asOfBlockHeight s' ∧ Materialized w asOfBlockHeight s'.warehouse)
      (StaysResumable w asOfBlockHeight) (Resumable w asOfBlockHeight) s := by
  let I : CoreStateStore → Prop := fun s' =>
    Resumable w asOfBlockHeight s' ∧ Materialized w asOfBlockHeight s'.warehouse
  have hflags : ∀ step ∈ [CoreStateStore.setCurrentStateReady true,
      CoreStateStore.setHistoryReady false], ∀ s', I s' → I (step s') := by
    intro step hstep s' hs'
    simp only [List.mem_cons,List.not_mem_nil,or_false] at hstep
    rcases hstep with rfl | rfl
    · exact ⟨hs'.1.flags rfl (.inl rfl),hs'.2⟩
    · exact ⟨hs'.1.flags rfl (.inl rfl),hs'.2⟩
  refine wp_bind (wp_mono (wp_settleAll_write hflags ⟨h,hdone⟩) ?_ ?_ (fun _ hs' => hs'.1))
  · intro _ s' hs'
    have hdeleted : I s'.deleteCheckpoint := ⟨hs'.1.flags rfl (.inr rfl),hs'.2⟩
    exact wp_write hdeleted ⟨trivial,hdeleted.1⟩ ⟨trivial,hs'.1⟩ hs'.1
  · rintro e s' ⟨rfl,hs'⟩
    exact ⟨trivial,hs'.1⟩

theorem resumableCompletedRanges_pos {resumeFrom : Option (Nat × Nat)} {rangeCount : Nat}
    (h : 0 < resumableCompletedRanges resumeFrom rangeCount) :
    ∃ completed, resumeFrom = some (completed,rangeCount) ∧ 0 < completed ∧
      resumableCompletedRanges resumeFrom rangeCount ≤ completed := by
  unfold resumableCompletedRanges at h ⊢
  cases resumeFrom with
  | none => exact absurd h (Nat.lt_irrefl 0)
  | some progress =>
    obtain ⟨completed,count⟩ := progress
    simp only at h ⊢
    by_cases hcount : count = rangeCount
    · subst hcount
      simp only [ne_eq,not_true_eq_false,if_false] at h ⊢
      exact ⟨completed,rfl,by omega,Nat.min_le_right _ _⟩
    · simp [hcount] at h

theorem resumableCompletedRanges_zero {completed rangeCount : Nat} (hcount : 0 < rangeCount)
    (h : resumableCompletedRanges (some (completed,rangeCount)) rangeCount = 0) :
    completed = 0 := by
  simp only [resumableCompletedRanges,ne_eq,not_true_eq_false,if_false] at h
  omega

theorem wp_materializeAttempt (h : Resumable w asOfBlockHeight s) :
    wp (CoreStateStore.materializeCoreDogecoinCurrentState boundaries asOfBlockHeight)
      (fun _ s' => Resumable w asOfBlockHeight s' ∧ Materialized w asOfBlockHeight s'.warehouse)
      (StaysResumable w asOfBlockHeight) (Resumable w asOfBlockHeight) s := by
  refine wp_bind (wp_read ?_ ⟨trivial,h⟩ h)
  refine wp_bind (wp_mono (Q := fun _ s' =>
    Resumable w asOfBlockHeight s' ∧ Materialized w asOfBlockHeight s'.warehouse) ?_
    (fun _ _ hs' => wp_finishMaterialization hs'.1 hs'.2) (fun _ _ h => h) (fun _ h => h))
  refine wp_bind (wp_zoom (wp_bind (wp_read (wp_pure ?_) ⟨trivial,h⟩ h)))
  change wp (do
    Job.when (resumableCompletedRanges (s.resumePoint asOfBlockHeight)
      s.warehouse.outputKeyRanges.length = 0) _
    insertCoreCurrentStateMaterialization _ boundaries asOfBlockHeight
      (resumableCompletedRanges (s.resumePoint asOfBlockHeight)
        s.warehouse.outputKeyRanges.length) s.warehouse.outputKeyRanges) _ _ _ s
  rw [h.ranges]
  generalize hcompleted : resumableCompletedRanges (s.resumePoint asOfBlockHeight)
    w.outputKeyRanges.length = completed
  refine wp_bind (wp_when (fun hzero => ?_) (fun hpos => ?_))
  · subst hzero
    refine wp_mono (wp_clearForRestart h (fun c hc => ?_)) ?_ (fun _ _ h => h) (fun _ h => h)
    · rw [hc] at hcompleted
      refine resumableCompletedRanges_zero ?_ hcompleted
      unfold Warehouse.outputKeyRanges buildCoreCurrentStateOutputKeyRanges
      simp
    · rintro _ s' ⟨hres,hranges,hempty⟩
      exact wp_insertMaterialization hres hranges (fun _ => hempty)
  · obtain ⟨c,hc,hcpos,hle⟩ := resumableCompletedRanges_pos
      (hcompleted ▸ Nat.pos_of_ne_zero hpos)
    rw [hcompleted] at hle
    exact wp_insertMaterialization h ((h.checkpoint c hc hcpos).mono hle) (fun h => absurd h hpos)

end Attempt

/-- One attempt: what its reading of the address boundaries gives, and how its calls fare. -/
structure MaterializationAttempt where
  boundaries : Warehouse → List String
  fates : List Fate

namespace MaterializationAttempt

def run (attempt : MaterializationAttempt) (asOfBlockHeight : Nat) (s : CoreStateStore) :
    Outcome CoreError Unit × CoreStateStore × List Fate :=
  (CoreStateStore.materializeCoreDogecoinCurrentState attempt.boundaries asOfBlockHeight).run s
    attempt.fates

end MaterializationAttempt

def afterAttempts (attempts : List MaterializationAttempt) (asOfBlockHeight : Nat)
    (s : CoreStateStore) : CoreStateStore :=
  attempts.foldl (fun s attempt => (attempt.run asOfBlockHeight s).2.1) s

section Attempts
variable {w : Warehouse} {asOfBlockHeight : Nat} {s : CoreStateStore}

theorem Resumable.fresh (h : s.resumePoint asOfBlockHeight = none) :
    Resumable s.warehouse asOfBlockHeight s := by
  refine ⟨sameFacts_refl _,fun c hc => ?_⟩
  rw [h] at hc
  cases hc

theorem Resumable.attempt (h : Resumable w asOfBlockHeight s)
    (attempt : MaterializationAttempt) :
    Resumable w asOfBlockHeight (attempt.run asOfBlockHeight s).2.1 := by
  have hkeeps := wp_mono (@wp_materializeAttempt w asOfBlockHeight s attempt.boundaries h)
    (fun _ _ hs => hs.1) (fun _ _ hs => hs.2) (fun _ hs => hs)
  exact last_of_wp hkeeps attempt.fates

theorem Resumable.attempts (h : Resumable w asOfBlockHeight s)
    (attempts : List MaterializationAttempt) :
    Resumable w asOfBlockHeight (afterAttempts attempts asOfBlockHeight s) := by
  induction attempts generalizing s with
  | nil => exact h
  | cons attempt attempts ih => exact ih (h.attempt attempt)

theorem Resumable.succeeds (h : Resumable w asOfBlockHeight s)
    (boundaries : Warehouse → List String) :
    ∃ s', (MaterializationAttempt.mk boundaries []).run asOfBlockHeight s = (.value (),s',[]) ∧
      Materialized w asOfBlockHeight s'.warehouse := by
  have hfault : ∀ e t, StaysResumable w asOfBlockHeight e t → e = .fault := by
    intro e t he
    cases e with
    | fault => rfl
    | thrown e => exact absurd he.1 id
  obtain ⟨_,s',hrun,-,hdone⟩ := succeeds_of_wp (wp_mono
    (@wp_materializeAttempt w asOfBlockHeight s boundaries h) (fun _ _ h => h) hfault
    (fun _ h => h))
  exact ⟨s',hrun,hdone⟩

end Attempts

/-- An attempt that ends, after any others at its height, leaves the current state of one
attempt that nothing interrupts. The output-key ranges of every positive prefix length are a
partition of the texts; the address ranges leave no text out, and are a partition exactly when
the boundaries, sorted by code units, ascend by bytes, as they do where no character takes two
code units. -/
theorem materialization_resumes :
    (∀ (s : CoreStateStore) (asOfBlockHeight : Nat), s.resumePoint asOfBlockHeight = none →
      ∀ (attempts : List MaterializationAttempt) (last : MaterializationAttempt)
        (boundaries : Warehouse → List String) (s' : CoreStateStore) (rest : List Fate),
        last.run asOfBlockHeight (afterAttempts attempts asOfBlockHeight s) =
          (.value (),s',rest) →
        ∃ whole, (MaterializationAttempt.mk boundaries []).run asOfBlockHeight s =
            (.value (),whole,[]) ∧
          SameCurrentState s'.warehouse whole.warehouse) ∧
    (∀ (prefixLength : Nat), 0 < prefixLength → ∀ text,
      (buildCoreCurrentStateOutputKeyRanges prefixLength).countP (·.contains text) = 1) ∧
    ∀ boundaries : List String,
      (∀ text, ∃ range ∈ stringRangesFromBoundaries boundaries, range.contains text) ∧
      ((∀ text, (stringRangesFromBoundaries boundaries).countP (·.contains text) = 1) ↔
        (sortedBoundaries boundaries).Pairwise (· ≤ ·)) ∧
      ((∀ boundary ∈ boundaries, ∀ c ∈ boundary.toList, c.toNat < 0x10000) →
        (sortedBoundaries boundaries).Pairwise (· ≤ ·)) := by
  refine ⟨?_,?_,fun boundaries => ⟨stringRangesFromBoundaries_cover boundaries,
    stringRangesFromBoundaries_partition_iff boundaries,sortedBoundaries_ascending⟩⟩
  · intro s asOfBlockHeight hfresh attempts last boundaries s' rest hlast
    have hstart := Resumable.fresh hfresh
    obtain ⟨whole,hwhole,hmaterialized⟩ := hstart.succeeds boundaries
    have hend := value_of_wp (wp_materializeAttempt (hstart.attempts attempts)) hlast
    exact ⟨whole,hwhole,hend.2.same hmaterialized⟩
  · intro prefixLength hpos text
    obtain ⟨width,rfl⟩ := Nat.exists_eq_add_of_lt hpos
    rw [Nat.zero_add]
    exact outputKeyRanges_partition width text

/-- One unspent output of height 0 and nothing materialized. -/
def unmaterializedStore : CoreStateStore where
  warehouse := { emptyWarehouse with
    coreUtxoCreates := [⟨⟨"0c",0⟩,0,"b0",0,"0c",0,0,"D1","pubkeyhash",50,true,true,none⟩] }
  currentStateReady := false
  historyReady := false
  materialization := none

/-- The reads, the five deletions and the first range are done; the second range is refused. -/
def failingAttempt : MaterializationAttempt where
  boundaries _ := []
  fates := List.replicate 9 .done ++ [.refused]

theorem materialization_resumes_after_failure :
    (afterAttempts [failingAttempt] 0 unmaterializedStore).materialization = some ⟨0,1,258⟩ ∧
      ∃ s' whole : CoreStateStore,
        (MaterializationAttempt.mk (fun _ => ["D1"]) []).run 0
          (afterAttempts [failingAttempt] 0 unmaterializedStore) = (.value (),s',[]) ∧
        (MaterializationAttempt.mk (fun _ => []) []).run 0 unmaterializedStore =
          (.value (),whole,[]) ∧
        SameCurrentState s'.warehouse whole.warehouse := by
  refine ⟨by decide +kernel,?_⟩
  have hfresh : unmaterializedStore.resumePoint 0 = none := rfl
  obtain ⟨s',hrun,-⟩ :=
    ((Resumable.fresh hfresh).attempts [failingAttempt]).succeeds (fun _ => ["D1"])
  obtain ⟨whole,hwhole,hsame⟩ := materialization_resumes.1 unmaterializedStore 0 hfresh
    [failingAttempt] _ (fun _ => []) s' [] hrun
  exact ⟨s',whole,hrun,hwhole,hsame⟩

/-- Boundaries whose code-unit order is not their byte order, and buckets of no digit. -/
theorem ranges_not_exact :
    (stringRangesFromBoundaries ["\uFFFD","😀"]).countP (·.contains "\uFFFD") = 2 ∧
      (buildCoreCurrentStateOutputKeyRanges 0).countP (·.contains "!") = 0 := by
  decide

end OnlyDoge
