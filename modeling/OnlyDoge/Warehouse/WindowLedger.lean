import OnlyDoge.Warehouse.CurrentStateLedger
set_option autoImplicit false

/-! Applying valid windows: the checks accept, and the tables follow the ledger of the chain. -/

namespace OnlyDoge
open Job

/-- `last` is the block below a list of blocks that follows it. -/
def FollowsLast (last : Option ParsedDogecoinBlock) (blocks : List ParsedDogecoinBlock) : Prop :=
  ∀ parent block, last = some parent → blocks.head? = some block → Follows parent block

/-- The fact tables hold the outputs and spends of `L`, all of them below the height `next`. -/
structure FactsOf (w : Warehouse) (L : CoinLedger) (next : Nat) : Prop where
  created : ∀ k, w.latestCoreCreate k = L.find k
  spent : ∀ k, k ∈ w.coreUtxoSpends.map (·.outputKey) ↔ k ∈ L.spent
  bare : ∀ c ∈ L.created, c.spentBy = none
  createHeight : ∀ c ∈ w.coreUtxoCreates, c.blockHeight < next
  spendHeight : ∀ s ∈ w.coreUtxoSpends, s.spentInBlock < next

theorem FactsOf.mono {w : Warehouse} {L : CoinLedger} {next next' : Nat} (h : FactsOf w L next)
    (hle : next ≤ next') : FactsOf w L next' :=
  ⟨h.created,h.spent,h.bare,fun c hc => Nat.lt_of_lt_of_le (h.createHeight c hc) hle,
    fun s hs => Nat.lt_of_lt_of_le (h.spendHeight s hs) hle⟩

/-- The processed blocks end with `last`, at the height below `next`. -/
structure ProcessedUpTo (w : Warehouse) (last : Option ParsedDogecoinBlock) (next : Nat) :
    Prop where
  below : ∀ row ∈ w.coreProcessedBlocks, row.blockHeight < next
  empty : last = none → w.coreProcessedBlocks = []
  height : ∀ block, last = some block → next = block.height + 1
  hash : ∀ block, last = some block → ∀ row, w.latestProcessedBlock block.height = some row →
    row.blockHash = block.hash

/-- The current tables, read by greatest version, are the unspent outputs of `L`. -/
structure CurrentStateOf (w : Warehouse) (L : CoinLedger) (next : Nat) : Prop where
  coin : ∀ k, w.currentCoin k = L.coin k
  balance : ∀ a, w.addressBalance a = L.worth (addressWeight a)
  versions : w.VersionsBelow (next * 2)

def windowEndHeight (blocks : List ParsedDogecoinBlock) (next : Nat) : Nat :=
  match blocks.getLast? with
  | some block => block.height + 1
  | none => next

theorem coreBlockApplication_creates (blocks : List ParsedDogecoinBlock) :
    (blocks.map coreBlockApplication).flatMap (·.utxoCreates) = blocks.flatMap blockCreates := by
  simp [List.flatMap_map,coreBlockApplication]

theorem coreBlockApplication_spends (blocks : List ParsedDogecoinBlock) :
    (blocks.map coreBlockApplication).flatMap (·.utxoSpends) = blocks.flatMap blockSpends := by
  simp [List.flatMap_map,coreBlockApplication]

theorem isChain_heights {first : ParsedDogecoinBlock} {blocks : List ParsedDogecoinBlock}
    (h : (first::blocks).IsChain Follows) {block : ParsedDogecoinBlock}
    (hb : block ∈ first::blocks) :
    first.height ≤ block.height ∧ block.height < windowEndHeight (first::blocks) 0 := by
  induction blocks generalizing first block with
  | nil =>
    simp only [List.mem_singleton] at hb
    subst hb
    simp [windowEndHeight]
  | cons second blocks ih =>
    obtain ⟨hf,hrest⟩ := List.isChain_cons_cons.mp h
    have hend : windowEndHeight (first::second::blocks) 0 =
        windowEndHeight (second::blocks) 0 := by
      simp [windowEndHeight]
    have hheight := hf.1
    rw [hend]
    rcases List.mem_cons.mp hb with rfl | hb
    · have := ih hrest (List.mem_cons_self)
      omega
    · have := ih hrest hb
      omega

theorem heights_nodup {blocks : List ParsedDogecoinBlock} (hl : blocks.IsChain Follows) :
    (blocks.map (·.height)).Nodup := by
  have hpair : (blocks.map (·.height)).Pairwise (· < ·) := by
    rw [List.pairwise_map]
    have hlt : blocks.IsChain (fun a b => a.height < b.height) :=
      hl.imp (fun a b h => by have := h.1; omega)
    exact List.isChain_iff_pairwise.mp hlt
  exact hpair.imp (fun h => Nat.ne_of_lt h)

theorem eq_of_height_eq {blocks : List ParsedDogecoinBlock} (hl : blocks.IsChain Follows)
    {a b : ParsedDogecoinBlock} (ha : a ∈ blocks) (hb : b ∈ blocks) (h : a.height = b.height) :
    a = b :=
  List.inj_on_of_nodup_map (heights_nodup hl) ha hb h

theorem height_lt_windowEndHeight {blocks : List ParsedDogecoinBlock}
    (hl : blocks.IsChain Follows) {b : ParsedDogecoinBlock} (hb : b ∈ blocks) :
    b.height < windowEndHeight blocks 0 := by
  cases blocks with
  | nil => cases hb
  | cons first rest => exact (isChain_heights hl hb).2

theorem assertUniqueCoreKeys_eq_ok {message : String} {seen keys : List OutputKey}
    (h : (seen ++ keys).Nodup) :
    keys.foldlM (assertUniqueCoreKey message) seen = .ok (seen ++ keys) := by
  induction keys generalizing seen with
  | nil =>
    rw [List.append_nil]
    rfl
  | cons k keys ih =>
    rw [List.append_cons] at h ⊢
    have hk : k ∉ seen :=
      (nodup_append_singleton (List.nodup_append.mp (List.nodup_append.mp h).1).1).mp
        (List.nodup_append.mp h).1
    rw [List.foldlM_cons,assertUniqueCoreKey,if_neg hk]
    exact ih h

/-- The shape state that a list of linked blocks leaves behind. -/
def shapeAfter (state : CoreWindowShapeState) (block : ParsedDogecoinBlock) :
    CoreWindowShapeState :=
  ⟨state.created ++ (blockCreates block).map (·.outputKey),
    state.spent ++ (blockSpends block).map (·.outputKey),some block.hash,some block.height⟩

def ShapeFollows (state : CoreWindowShapeState) (block : ParsedDogecoinBlock) : Prop :=
  (∀ height, state.previousHeight = some height → block.height = height + 1) ∧
  (∀ hash, state.previousHash = some hash → block.previousHash = some hash)

theorem assertCoreApplicationShape_eq_ok {state : CoreWindowShapeState}
    {block : ParsedDogecoinBlock} (hf : ShapeFollows state block)
    (hc : (state.created ++ (blockCreates block).map (·.outputKey)).Nodup)
    (hs : (state.spent ++ (blockSpends block).map (·.outputKey)).Nodup) :
    assertCoreApplicationShape state (coreBlockApplication block) =
      .ok (shapeAfter state block) := by
  have hheight : assertCoreApplicationHeight (coreBlockApplication block) state = .ok () := by
    unfold assertCoreApplicationHeight
    cases h : state.previousHeight with
    | none => rfl
    | some height =>
      have := hf.1 height h
      simp [coreBlockApplication,this]
  have hprevious : assertCoreApplicationPreviousHash (coreBlockApplication block) state =
      .ok () := by
    unfold assertCoreApplicationPreviousHash
    cases h : state.previousHash with
    | none => rfl
    | some hash =>
      have := hf.2 hash h
      simp [coreBlockApplication,this]
  unfold assertCoreApplicationShape assertUniqueCoreOutputs assertUniqueCoreSpends
  rw [hheight,hprevious]
  simp only [coreBlockApplication]
  rw [assertUniqueCoreKeys_eq_ok hc,assertUniqueCoreKeys_eq_ok hs]
  rfl

theorem assertCoreShapes_eq_ok {state : CoreWindowShapeState} {blocks : List ParsedDogecoinBlock}
    (hf : ∀ block, blocks.head? = some block → ShapeFollows state block)
    (hl : blocks.IsChain Follows)
    (hc : (state.created ++ (blocks.flatMap blockCreates).map (·.outputKey)).Nodup)
    (hs : (state.spent ++ (blocks.flatMap blockSpends).map (·.outputKey)).Nodup) :
    ∃ state', (blocks.map coreBlockApplication).foldlM assertCoreApplicationShape state =
      .ok state' := by
  induction blocks generalizing state with
  | nil => exact ⟨state,rfl⟩
  | cons block blocks ih =>
    simp only [List.flatMap_cons,List.map_append,← List.append_assoc] at hc hs
    have hstep := assertCoreApplicationShape_eq_ok (hf block rfl) (List.nodup_append.mp hc).1
      (List.nodup_append.mp hs).1
    have hnext : ∀ b, blocks.head? = some b → ShapeFollows (shapeAfter state block) b := by
      intro b hb
      cases blocks with
      | nil => cases hb
      | cons second blocks =>
        cases hb
        obtain ⟨hfollows,-⟩ := List.isChain_cons_cons.mp hl
        exact ⟨fun _ h => by cases h; exact hfollows.1,fun _ h => by cases h; exact hfollows.2⟩
    obtain ⟨state',h⟩ := ih hnext hl.of_cons hc hs
    exact ⟨state',by rw [List.map_cons,List.foldlM_cons,hstep]; exact h⟩

namespace ValidBlocks
variable {L L' : CoinLedger} {blocks : List ParsedDogecoinBlock}

theorem create_keys_nodup (h : ValidBlocks L blocks L') :
    (L.created.map (·.outputKey) ++ (blocks.flatMap blockCreates).map (·.outputKey)).Nodup := by
  have := L'.created_nodup
  rwa [h.created,List.map_append] at this

theorem spend_keys_nodup (h : ValidBlocks L blocks L') :
    (L.spent ++ (blocks.flatMap blockSpends).map (·.outputKey)).Nodup := by
  have := L'.spent_nodup
  rwa [h.spent] at this

theorem shape (h : ValidBlocks L blocks L') :
    ∃ state, assertCoreWindowShape (blocks.map coreBlockApplication) = .ok state :=
  assertCoreShapes_eq_ok (fun _ _ => ⟨fun _ h => (by cases h),fun _ h => (by cases h)⟩) h.linked
    (List.nodup_append.mp h.create_keys_nodup).2.1 (List.nodup_append.mp h.spend_keys_nodup).2.1

theorem external (h : ValidBlocks L blocks L') {k : OutputKey}
    (hk : k ∈ externalCoreSpendKeys (blocks.map coreBlockApplication)) :
    k ∉ L.spent ∧ ∃ c, L.find k = some c := by
  unfold externalCoreSpendKeys at hk
  rw [coreBlockApplication_creates,coreBlockApplication_spends] at hk
  simp only [OrderedMap.mem_distinct,List.mem_filter,decide_eq_true_eq] at hk
  obtain ⟨hspent,hcreated⟩ := hk
  refine ⟨fun hs => ?_,?_⟩
  · exact (List.nodup_append.mp h.spend_keys_nodup).2.2 k hs k hspent rfl
  · have hmem : k ∈ L'.created.map (·.outputKey) := by
      refine L'.spent_created k ?_
      rw [h.spent]
      exact List.mem_append_right _ hspent
    rw [h.created,List.map_append] at hmem
    rcases List.mem_append.mp hmem with hmem | hmem
    · cases hf : L.find k with
      | none => exact absurd hmem (Ledger.find_eq_none.mp hf)
      | some c => exact ⟨c,rfl⟩
    · exact absurd hmem hcreated

/-- A coin of the ledger before the window that the window spends is an external key. -/
theorem external_of_coin (h : ValidBlocks L blocks L') {s : CoreDogecoinSpend}
    (hs : s ∈ blocks.flatMap blockSpends) {c : ProjectionUtxoOutput}
    (hc : L.coin s.outputKey = some c) :
    s.outputKey ∈ externalCoreSpendKeys (blocks.map coreBlockApplication) := by
  obtain ⟨hu,hk⟩ := Ledger.coin_eq_some.mp hc
  have hcreated : s.outputKey ∈ L.created.map (·.outputKey) :=
    hk ▸ List.mem_map_of_mem (List.mem_filter.mp hu).1
  unfold externalCoreSpendKeys
  rw [coreBlockApplication_creates,coreBlockApplication_spends]
  simp only [OrderedMap.mem_distinct,List.mem_filter,decide_eq_true_eq]
  refine ⟨List.mem_map_of_mem hs,fun hnew => ?_⟩
  exact (List.nodup_append.mp h.create_keys_nodup).2.2 _ hcreated _ hnew rfl

end ValidBlocks

section Accept
variable {w : Warehouse} {L L' : CoinLedger} {last : Option ParsedDogecoinBlock} {next : Nat}
variable {first : ParsedDogecoinBlock} {rest : List ParsedDogecoinBlock}
variable {boundaries : Warehouse → List String} {context : CoreDogecoinApplyContext}

theorem getCoreProcessedBlocks_eq_none (hp : ProcessedUpTo w last next) {heights : List Nat}
    {height : Nat} (hheight : next ≤ height) :
    (w.getCoreProcessedBlocks heights).get height = none := by
  cases hg : (w.getCoreProcessedBlocks heights).get height with
  | none => rfl
  | some row =>
    obtain ⟨-,hrow⟩ := OrderedMap.get_ofEntries_filterMap.mp hg
    obtain ⟨hmem,hk,-⟩ := Replacing.latest_spec hrow
    have := hp.below row hmem
    omega

theorem filterPendingCoreApplications_eq_ok
    {processedBlocks : OrderedMap Nat CoreProcessedBlockRow}
    {applications : List CoreDogecoinBlockApplication}
    (h : ∀ application ∈ applications, processedBlocks.get application.blockHeight = none) :
    filterPendingCoreApplications processedBlocks applications = .ok applications := by
  induction applications with
  | nil => rfl
  | cons application applications ih =>
    have hpending : isPendingCoreApplication processedBlocks application = .ok true := by
      simp [isPendingCoreApplication,h application (by simp)]
    rw [filterPendingCoreApplications,hpending,
      ih (fun a ha => h a (List.mem_cons_of_mem _ ha))]
    rfl

theorem wp_pendingCoreWindowApplications (hp : ProcessedUpTo w last next)
    {applications : List CoreDogecoinBlockApplication}
    (hheights : ∀ application ∈ applications, next ≤ application.blockHeight)
    {Q : List CoreDogecoinBlockApplication → Warehouse → Prop}
    {P : CoreError → Warehouse → Prop} (hdone : Q applications w) :
    wp (pendingCoreWindowApplications boundaries applications context) Q (FailsWith P)
      Anywhere w := by
  have hnone : ∀ application ∈ applications,
      (w.getCoreProcessedBlocks (applications.map (·.blockHeight))).get application.blockHeight =
        none := fun application ha => getCoreProcessedBlocks_eq_none hp (hheights application ha)
  have hreorg : firstCoreReorgHeight applications
      (w.getCoreProcessedBlocks (applications.map (·.blockHeight))) = none := by
    unfold firstCoreReorgHeight
    rw [Option.map_eq_none_iff,List.find?_eq_none]
    intro application ha
    simp [hnone application ha]
  refine wp_bind (wp_read ?_ trivial trivial)
  rw [hreorg,filterPendingCoreApplications_eq_ok hnone]
  exact wp_pure hdone

theorem wp_assertCoreWindowPreviousBlock (hp : ProcessedUpTo w last next)
    (hf : FollowsLast last (first::rest)) {Q : Unit → Warehouse → Prop}
    {P : CoreError → Warehouse → Prop} (hdone : Q () w) :
    wp (assertCoreWindowPreviousBlock ((first::rest).map coreBlockApplication)) Q (FailsWith P)
      Anywhere w := by
  unfold assertCoreWindowPreviousBlock
  simp only [List.map_cons]
  cases hheight : (coreBlockApplication first).blockHeight with
  | zero => exact wp_pure hdone
  | succ previousHeight =>
    refine wp_bind (wp_read ?_ trivial trivial)
    have hok : assertPreviousCoreBlockMatches (w.latestProcessedBlock previousHeight)
        (coreBlockApplication first) = .ok () := by
      unfold assertPreviousCoreBlockMatches
      cases hrow : w.latestProcessedBlock previousHeight with
      | none => rfl
      | some row =>
        cases hlast : last with
        | none =>
          have hmem := (Replacing.latest_spec hrow).1
          rw [hp.empty hlast] at hmem
          cases hmem
        | some parent =>
          have hfollows := hf parent first hlast rfl
          have hparent : parent.height = previousHeight := by
            have := hfollows.1
            simp only [coreBlockApplication] at hheight
            omega
          have hhash := hp.hash parent hlast row (hparent ▸ hrow)
          simp [coreBlockApplication,hhash,hfollows.2]
    rw [hok]
    exact wp_pure hdone

theorem wp_assertCoreWindowPrevouts {blocks : List ParsedDogecoinBlock} (hw : FactsOf w L next)
    (hv : ValidBlocks L blocks L') {Q : Unit → Warehouse → Prop}
    {P : CoreError → Warehouse → Prop} (hdone : Q () w) :
    wp (assertCoreWindowPrevouts (blocks.map coreBlockApplication)) Q (FailsWith P)
      Anywhere w := by
  unfold assertCoreWindowPrevouts
  refine wp_ite (fun _ => wp_pure hdone) (fun _ => ?_)
  refine wp_bind (wp_read (wp_bind (wp_read ?_ trivial trivial)) trivial trivial)
  have hexist : assertCorePrevoutsExist
      (externalCoreSpendKeys (blocks.map coreBlockApplication))
      (w.getCoreUtxoCreateRows (externalCoreSpendKeys (blocks.map coreBlockApplication))) =
        .ok () := by
    unfold assertCorePrevoutsExist
    rw [List.find?_eq_none.mpr]
    intro k hk
    obtain ⟨-,c,hc⟩ := hv.external hk
    have := OrderedMap.get_ofEntries_filterMap.mpr ⟨hk,(hw.created k).trans hc⟩
    simp [Warehouse.getCoreUtxoCreateRows,this]
  have hunspent : assertCorePrevoutsUnspent
      (externalCoreSpendKeys (blocks.map coreBlockApplication))
      (w.getCoreUtxoSpendRows (externalCoreSpendKeys (blocks.map coreBlockApplication)))
      (coreSpendsInWindow (blocks.map coreBlockApplication)) = .ok () := by
    unfold assertCorePrevoutsUnspent
    rw [List.find?_eq_none.mpr]
    intro k hk
    obtain ⟨hs,-⟩ := hv.external hk
    have hnone : (w.getCoreUtxoSpendRows
        (externalCoreSpendKeys (blocks.map coreBlockApplication))).get k = none := by
      cases hg : (w.getCoreUtxoSpendRows
          (externalCoreSpendKeys (blocks.map coreBlockApplication))).get k with
      | none => rfl
      | some s =>
        obtain ⟨-,hl⟩ := OrderedMap.get_ofEntries_filterMap.mp hg
        obtain ⟨hmem,hkey,-⟩ := Replacing.latest_spec hl
        exact absurd ((hw.spent k).mp (hkey ▸ List.mem_map_of_mem hmem)) hs
    simp [hnone,isConflictingCoreSpend]
  rw [hexist,hunspent]
  exact wp_bind (wp_pure (wp_pure hdone))

theorem wp_validateAndInsert (hw : FactsOf w L next) (hp : ProcessedUpTo w last next)
    (hv : ValidBlocks L (first::rest) L') (hf : FollowsLast last (first::rest))
    {Q : CoreDogecoinApplyResult → Warehouse → Prop} {P : CoreError → Warehouse → Prop}
    (hinsert : wp (insertPendingCoreWindowWithRecovery
        ((first::rest).map coreBlockApplication) context)
      (fun _ => Q ⟨true,coreWindowEnd ((first::rest).map coreBlockApplication)⟩)
      (FailsWith P) Anywhere w) :
    wp (do
        validatePendingCoreWindow ((first::rest).map coreBlockApplication) context
        insertPendingCoreWindowWithRecovery ((first::rest).map coreBlockApplication) context
        return ⟨true,coreWindowEnd ((first::rest).map coreBlockApplication)⟩)
      Q (FailsWith P) Anywhere w := by
  obtain ⟨state,hstate⟩ := hv.shape
  refine wp_bind (wp_bind ?_)
  rw [hstate]
  refine wp_pure (wp_bind (wp_assertCoreWindowPreviousBlock hp hf ?_))
  have hgo : wp (do
      insertPendingCoreWindowWithRecovery ((first::rest).map coreBlockApplication) context
      return ⟨true,coreWindowEnd ((first::rest).map coreBlockApplication)⟩) Q (FailsWith P)
        Anywhere w :=
    wp_bind (wp_mono hinsert (fun _ _ h => wp_pure h) (fun _ _ h => h) (fun _ h => h))
  refine wp_when (fun _ => ?_) (fun _ => hgo)
  exact wp_assertCoreWindowPrevouts hw hv hgo

theorem wp_applyCoreDogecoinWindow (hw : FactsOf w L next) (hp : ProcessedUpTo w last next)
    (hv : ValidBlocks L (first::rest) L') (hf : FollowsLast last (first::rest))
    (hnext : next ≤ first.height)
    {Q : CoreDogecoinApplyResult → Warehouse → Prop} {P : CoreError → Warehouse → Prop}
    (hinsert : wp (insertPendingCoreWindowWithRecovery
        ((first::rest).map coreBlockApplication) context)
      (fun _ => Q ⟨true,coreWindowEnd ((first::rest).map coreBlockApplication)⟩)
      (FailsWith P) Anywhere w) :
    wp (applyCoreDogecoinWindow boundaries ((first::rest).map coreBlockApplication) context)
      Q (FailsWith P) Anywhere w := by
  have hheights : ∀ application ∈ (first::rest).map coreBlockApplication,
      next ≤ application.blockHeight := by
    intro application ha
    obtain ⟨block,hb,rfl⟩ := List.mem_map.mp ha
    exact Nat.le_trans hnext (isChain_heights hv.linked hb).1
  unfold applyCoreDogecoinWindow
  refine wp_ite (fun h => (by cases h)) (fun _ => ?_)
  refine wp_bind (wp_pendingCoreWindowApplications hp hheights ?_)
  refine wp_ite (fun h => (by cases h)) (fun _ => ?_)
  exact wp_validateAndInsert hw hp hv hf hinsert

end Accept

end OnlyDoge
