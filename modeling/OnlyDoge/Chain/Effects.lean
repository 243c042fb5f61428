import OnlyDoge.Chain.Block
import OnlyDoge.Library.Ledger
import Mathlib.Data.List.Chain
set_option autoImplicit false

/-! What a list of blocks creates and spends, and when such a list is a valid chain. -/

namespace OnlyDoge

def blockCreates (block : ParsedDogecoinBlock) : List ProjectionUtxoOutput :=
  block.tx.zipIdx.flatMap (fun (tx,txIndex) => buildTransactionOutputs block tx txIndex)

def blockSpends (block : ParsedDogecoinBlock) : List CoreDogecoinSpend :=
  block.tx.flatMap (buildTransactionSpends block.height)

def coreBlockApplication (block : ParsedDogecoinBlock) : CoreDogecoinBlockApplication where
  blockHeight := block.height
  blockHash := block.hash
  previousBlockHash := block.previousHash
  blockTime := block.time
  txCount := block.tx.length
  utxoCreates := blockCreates block
  utxoSpends := blockSpends block

namespace CoreWindowKeyTracker

def add (tracker : CoreWindowKeyTracker) (creates spends : List OutputKey) :
    CoreWindowKeyTracker :=
  ⟨tracker.createdOutputKeys ++ creates,tracker.spentOutputKeys ++ spends⟩

/-- No key is seen twice, neither among the remembered keys nor among the new ones. -/
def Fresh (tracker : CoreWindowKeyTracker) (creates spends : List OutputKey) : Prop :=
  (tracker.createdOutputKeys ++ creates).Nodup ∧ (tracker.spentOutputKeys ++ spends).Nodup

@[simp] theorem add_nil (tracker : CoreWindowKeyTracker) : tracker.add [] [] = tracker := by
  simp [add]

theorem add_add (tracker : CoreWindowKeyTracker) (cs ss cs' ss' : List OutputKey) :
    (tracker.add cs ss).add cs' ss' = tracker.add (cs ++ cs') (ss ++ ss') := by
  simp [add]

theorem fresh_add {tracker : CoreWindowKeyTracker} {cs ss cs' ss' : List OutputKey} :
    (tracker.add cs ss).Fresh cs' ss' ↔ tracker.Fresh (cs ++ cs') (ss ++ ss') := by
  simp [add,Fresh]

theorem Fresh.left {tracker : CoreWindowKeyTracker} {cs ss cs' ss' : List OutputKey}
    (h : tracker.Fresh (cs ++ cs') (ss ++ ss')) : tracker.Fresh cs ss := by
  rw [Fresh,← List.append_assoc,← List.append_assoc] at h
  exact ⟨(List.nodup_append.mp h.1).1,(List.nodup_append.mp h.2).1⟩

end CoreWindowKeyTracker

theorem nodup_append_singleton {ks : List OutputKey} {k : OutputKey} (h : ks.Nodup) :
    (ks ++ [k]).Nodup ↔ k ∉ ks := by
  rw [List.nodup_append]
  simp only [h,List.nodup_singleton,List.mem_singleton,true_and]
  constructor
  · exact fun hd hk => hd k hk k rfl rfl
  · rintro hk a ha b rfl rfl
    exact hk ha

theorem assertUniqueCoreSpends_eq_ok {keys : List OutputKey} {tracker t : CoreWindowKeyTracker}
    (h : tracker.spentOutputKeys.Nodup) :
    keys.foldlM assertUniqueCoreSpend tracker = .ok t ↔
      (tracker.spentOutputKeys ++ keys).Nodup ∧ t = tracker.add [] keys := by
  induction keys generalizing tracker with
  | nil =>
    simp only [List.foldlM_nil,List.append_nil,h,true_and,CoreWindowKeyTracker.add_nil]
    exact ⟨fun ht => by cases ht; rfl,fun ht => by rw [ht]; rfl⟩
  | cons k keys ih =>
    rw [List.foldlM_cons,List.append_cons]
    unfold assertUniqueCoreSpend
    by_cases hk : k ∈ tracker.spentOutputKeys
    · rw [if_pos hk]
      refine ⟨fun ht => (by cases ht),fun ht => absurd ?_ (not_not_intro hk)⟩
      exact (nodup_append_singleton h).mp (List.nodup_append.mp ht.1).1
    · rw [if_neg hk]
      have hn := (nodup_append_singleton h).mpr hk
      have := @ih { tracker with spentOutputKeys := tracker.spentOutputKeys ++ [k] } hn
      refine Iff.trans this ?_
      simp [CoreWindowKeyTracker.add]

theorem assertUniqueCoreOutputs_eq_ok {keys : List OutputKey} {tracker t : CoreWindowKeyTracker}
    (h : tracker.createdOutputKeys.Nodup) :
    keys.foldlM assertUniqueCoreOutput tracker = .ok t ↔
      (tracker.createdOutputKeys ++ keys).Nodup ∧ t = tracker.add keys [] := by
  induction keys generalizing tracker with
  | nil =>
    simp only [List.foldlM_nil,List.append_nil,h,true_and,CoreWindowKeyTracker.add_nil]
    exact ⟨fun ht => by cases ht; rfl,fun ht => by rw [ht]; rfl⟩
  | cons k keys ih =>
    rw [List.foldlM_cons,List.append_cons]
    unfold assertUniqueCoreOutput
    by_cases hk : k ∈ tracker.createdOutputKeys
    · rw [if_pos hk]
      refine ⟨fun ht => (by cases ht),fun ht => absurd ?_ (not_not_intro hk)⟩
      exact (nodup_append_singleton h).mp (List.nodup_append.mp ht.1).1
    · rw [if_neg hk]
      have hn := (nodup_append_singleton h).mpr hk
      have := @ih { tracker with createdOutputKeys := tracker.createdOutputKeys ++ [k] } hn
      refine Iff.trans this ?_
      simp [CoreWindowKeyTracker.add]

theorem bind_eq_ok {ε α β : Type} {x : Except ε α} {f : α → Except ε β} {b : β} :
    x >>= f = .ok b ↔ ∃ a, x = .ok a ∧ f a = .ok b := by
  cases x with
  | error e => simp [bind,Except.bind]
  | ok a => simp [bind,Except.bind]

theorem appendTransactionEffects_eq_ok {block : ParsedDogecoinBlock}
    {effects effects' : CoreTransactionEffects} {tracker t : CoreWindowKeyTracker}
    {tx : DogecoinTransaction} {txIndex : Nat} (h : tracker.Fresh [] []) :
    appendTransactionEffects block (effects,tracker) (tx,txIndex) = .ok (effects',t) ↔
      tracker.Fresh ((buildTransactionOutputs block tx txIndex).map (·.outputKey))
        ((buildTransactionSpends block.height tx).map (·.outputKey)) ∧
      effects' = ⟨effects.utxoCreates ++ buildTransactionOutputs block tx txIndex,
        effects.utxoSpends ++ buildTransactionSpends block.height tx⟩ ∧
      t = tracker.add ((buildTransactionOutputs block tx txIndex).map (·.outputKey))
        ((buildTransactionSpends block.height tx).map (·.outputKey)) := by
  have hc : tracker.createdOutputKeys.Nodup := by simpa using h.1
  have hs : tracker.spentOutputKeys.Nodup := by simpa using h.2
  simp only [appendTransactionEffects,bind_eq_ok,assertUniqueCoreSpends_eq_ok hs]
  constructor
  · rintro ⟨t1,⟨hn,rfl⟩,t2,ht,he⟩
    obtain ⟨hn',rfl⟩ := (assertUniqueCoreOutputs_eq_ok (by simpa [CoreWindowKeyTracker.add])).mp ht
    cases he
    refine ⟨⟨by simpa [CoreWindowKeyTracker.add] using hn',hn⟩,rfl,?_⟩
    simp [CoreWindowKeyTracker.add]
  · rintro ⟨hf,rfl,rfl⟩
    refine ⟨_,⟨hf.2,rfl⟩,_,(assertUniqueCoreOutputs_eq_ok (by simpa [CoreWindowKeyTracker.add])).mpr
      ⟨by simpa [CoreWindowKeyTracker.add] using hf.1,rfl⟩,?_⟩
    simp [CoreWindowKeyTracker.add,Pure.pure,Except.pure]

theorem CoreWindowKeyTracker.Fresh.remember {tracker : CoreWindowKeyTracker}
    {cs ss : List OutputKey} (h : tracker.Fresh cs ss) : (tracker.add cs ss).Fresh [] [] := by
  simpa [CoreWindowKeyTracker.fresh_add] using h

theorem appendTransactionsEffects_eq_ok {block : ParsedDogecoinBlock}
    {txs : List (DogecoinTransaction × Nat)} {effects effects' : CoreTransactionEffects}
    {tracker t : CoreWindowKeyTracker} (h : tracker.Fresh [] []) :
    txs.foldlM (appendTransactionEffects block) (effects,tracker) = .ok (effects',t) ↔
      tracker.Fresh
        ((txs.flatMap (fun e => buildTransactionOutputs block e.1 e.2)).map (·.outputKey))
        ((txs.flatMap (fun e => buildTransactionSpends block.height e.1)).map (·.outputKey)) ∧
      effects' = ⟨effects.utxoCreates ++
          txs.flatMap (fun e => buildTransactionOutputs block e.1 e.2),
        effects.utxoSpends ++ txs.flatMap (fun e => buildTransactionSpends block.height e.1)⟩ ∧
      t = tracker.add
        ((txs.flatMap (fun e => buildTransactionOutputs block e.1 e.2)).map (·.outputKey))
        ((txs.flatMap (fun e => buildTransactionSpends block.height e.1)).map (·.outputKey)) := by
  induction txs generalizing effects tracker with
  | nil =>
    simp only [List.foldlM_nil,List.flatMap_nil,List.map_nil,List.append_nil,h,true_and,
      CoreWindowKeyTracker.add_nil]
    exact ⟨fun he => by cases he; exact ⟨rfl,rfl⟩,fun he => by rw [he.1,he.2]; rfl⟩
  | cons e txs ih =>
    obtain ⟨tx,txIndex⟩ := e
    rw [List.foldlM_cons,bind_eq_ok]
    simp only [List.flatMap_cons,List.map_append]
    constructor
    · rintro ⟨⟨effects1,t1⟩,h1,h2⟩
      obtain ⟨hf,rfl,rfl⟩ := (appendTransactionEffects_eq_ok h).mp h1
      obtain ⟨hf',rfl,rfl⟩ := (ih hf.remember).mp h2
      refine ⟨CoreWindowKeyTracker.fresh_add.mp hf',?_,CoreWindowKeyTracker.add_add ..⟩
      simp only [List.append_assoc]
    · rintro ⟨hf,rfl,rfl⟩
      refine ⟨_,(appendTransactionEffects_eq_ok h).mpr ⟨hf.left,rfl,rfl⟩,?_⟩
      refine (ih hf.left.remember).mpr ⟨CoreWindowKeyTracker.fresh_add.mpr hf,?_,?_⟩
      · simp only [List.append_assoc]
      · exact (CoreWindowKeyTracker.add_add ..).symm

theorem zipIdx_flatMap_fst {α β : Type} (xs : List α) (n : Nat) (f : α → List β) :
    (xs.zipIdx n).flatMap (fun e => f e.1) = xs.flatMap f := by
  induction xs generalizing n with
  | nil => rfl
  | cons x xs ih => simp [List.zipIdx_cons,ih]

theorem buildCoreBlockApplication_eq_ok {block : ParsedDogecoinBlock}
    {application : CoreDogecoinBlockApplication} {tracker t : CoreWindowKeyTracker}
    (h : tracker.Fresh [] []) :
    buildCoreBlockApplication block tracker = .ok (application,t) ↔
      block.tx ≠ [] ∧
      tracker.Fresh ((blockCreates block).map (·.outputKey))
        ((blockSpends block).map (·.outputKey)) ∧
      application = coreBlockApplication block ∧
      t = tracker.add ((blockCreates block).map (·.outputKey))
        ((blockSpends block).map (·.outputKey)) := by
  unfold buildCoreBlockApplication readDogecoinTransactions collectCoreBlockEffects
  by_cases htx : block.tx = []
  · simp [htx,bind,Except.bind]
  · have hs : block.tx.zipIdx.flatMap (fun e => buildTransactionSpends block.height e.1) =
        blockSpends block := zipIdx_flatMap_fst ..
    have hread : (if block.tx = [] then .error
      (.error ("invalid dogecoin block transactions height="
        ++ toString block.height ++ ": expected non-empty array")) else .ok () :
        Except CoreError Unit) = .ok () := if_neg htx
    simp only [hread,bind_eq_ok,Prod.exists,appendTransactionsEffects_eq_ok h,List.nil_append,hs]
    constructor
    · rintro ⟨-,-,effects,t1,⟨hf,rfl,rfl⟩,he⟩
      cases he
      exact ⟨htx,hf,rfl,rfl⟩
    · rintro ⟨-,hf,rfl,rfl⟩
      exact ⟨(),trivial,_,_,⟨hf,rfl,rfl⟩,rfl⟩

theorem buildCoreBlockApplications_eq_ok {blocks : List ParsedDogecoinBlock}
    {applications : List CoreDogecoinBlockApplication} {tracker : CoreWindowKeyTracker}
    (h : tracker.Fresh [] []) :
    buildCoreBlockApplications tracker blocks = .ok applications ↔
      (∀ block ∈ blocks, block.tx ≠ []) ∧
      tracker.Fresh ((blocks.flatMap blockCreates).map (·.outputKey))
        ((blocks.flatMap blockSpends).map (·.outputKey)) ∧
      applications = blocks.map coreBlockApplication := by
  induction blocks generalizing tracker applications with
  | nil => simp [buildCoreBlockApplications,h,eq_comm]
  | cons block blocks ih =>
    simp only [buildCoreBlockApplications,bind_eq_ok,Prod.exists,List.flatMap_cons,
      List.map_append,List.forall_mem_cons,List.map_cons]
    constructor
    · rintro ⟨application,t,h1,rest,h2,he⟩
      obtain ⟨htx,hf,rfl,rfl⟩ := (buildCoreBlockApplication_eq_ok h).mp h1
      obtain ⟨htxs,hf',rfl⟩ := (ih hf.remember).mp h2
      cases he
      exact ⟨⟨htx,htxs⟩,CoreWindowKeyTracker.fresh_add.mp hf',rfl⟩
    · rintro ⟨⟨htx,htxs⟩,hf,rfl⟩
      exact ⟨_,_,(buildCoreBlockApplication_eq_ok h).mpr ⟨htx,hf.left,rfl,rfl⟩,_,
        (ih hf.left.remember).mpr ⟨htxs,CoreWindowKeyTracker.fresh_add.mpr hf,rfl⟩,rfl⟩

/-- The builder accepts a window exactly when no block is empty and no key comes twice. -/
theorem buildFastCoreDogecoinBlockApplications_eq_ok {blocks : List ParsedDogecoinBlock}
    {applications : List CoreDogecoinBlockApplication} :
    buildFastCoreDogecoinBlockApplications blocks = .ok applications ↔
      (∀ block ∈ blocks, block.tx ≠ []) ∧
      ((blocks.flatMap blockCreates).map (·.outputKey)).Nodup ∧
      ((blocks.flatMap blockSpends).map (·.outputKey)).Nodup ∧
      applications = blocks.map coreBlockApplication := by
  unfold buildFastCoreDogecoinBlockApplications
  have hfresh : createCoreWindowKeyTracker.Fresh [] [] := ⟨List.nodup_nil,List.nodup_nil⟩
  rw [buildCoreBlockApplications_eq_ok hfresh]
  simp [CoreWindowKeyTracker.Fresh,createCoreWindowKeyTracker,and_assoc]

abbrev CoinLedger := Ledger ProjectionUtxoOutput.outputKey

abbrev CoinEntry := Ledger.Entry OutputKey ProjectionUtxoOutput

/-- A block creates its outputs before it spends, so that it can spend what it creates. -/
def blockEntries (block : ParsedDogecoinBlock) : List CoinEntry :=
  (blockCreates block).map .create ++ (blockSpends block).map (fun s => .spend s.outputKey)

def Follows (parent block : ParsedDogecoinBlock) : Prop :=
  block.height = parent.height + 1 ∧ block.previousHash = some parent.hash

instance (parent block : ParsedDogecoinBlock) : Decidable (Follows parent block) :=
  inferInstanceAs (Decidable (_ ∧ _))

/-- Linked blocks that lead from the ledger `L` to `L'`: every output key is created once, and
every spend takes an output created before and not yet spent. -/
structure ValidBlocks (L : CoinLedger) (blocks : List ParsedDogecoinBlock) (L' : CoinLedger) :
    Prop where
  nonempty : ∀ block ∈ blocks, block.tx ≠ []
  linked : blocks.IsChain Follows
  replay : L.postAll? (blocks.flatMap blockEntries) = some L'

theorem blockEntries_created (blocks : List ParsedDogecoinBlock) :
    (blocks.flatMap blockEntries).filterMap Ledger.Entry.created? =
      blocks.flatMap blockCreates := by
  induction blocks with
  | nil => rfl
  | cons block blocks ih =>
    simp [blockEntries,ih,List.filterMap_map,Function.comp_def,Ledger.Entry.created?]

theorem blockEntries_spent (blocks : List ParsedDogecoinBlock) :
    (blocks.flatMap blockEntries).filterMap Ledger.Entry.spent? =
      (blocks.flatMap blockSpends).map (·.outputKey) := by
  induction blocks with
  | nil => rfl
  | cons block blocks ih =>
    simp [blockEntries,ih,List.filterMap_map,Function.comp_def,Ledger.Entry.spent?]

namespace ValidBlocks
variable {L L' : CoinLedger} {blocks : List ParsedDogecoinBlock}

theorem created (h : ValidBlocks L blocks L') :
    L'.created = L.created ++ blocks.flatMap blockCreates := by
  rw [(Ledger.postAll?_eq_some h.replay).1,blockEntries_created]

theorem spent (h : ValidBlocks L blocks L') :
    L'.spent = L.spent ++ (blocks.flatMap blockSpends).map (·.outputKey) := by
  rw [(Ledger.postAll?_eq_some h.replay).2,blockEntries_spent]

theorem build (h : ValidBlocks L blocks L') :
    buildFastCoreDogecoinBlockApplications blocks = .ok (blocks.map coreBlockApplication) := by
  have hc := L'.created_nodup
  have hs := L'.spent_nodup
  rw [h.created,List.map_append] at hc
  rw [h.spent] at hs
  exact buildFastCoreDogecoinBlockApplications_eq_ok.mpr
    ⟨h.nonempty,(List.nodup_append.mp hc).2.1,(List.nodup_append.mp hs).2.1,rfl⟩

theorem append {bs cs : List ParsedDogecoinBlock} (h : ValidBlocks L (bs ++ cs) L') :
    ∃ M, ValidBlocks L bs M ∧ ValidBlocks M cs L' := by
  have hr := h.replay
  rw [List.flatMap_append,Ledger.postAll?_append] at hr
  obtain ⟨M,hM,hr⟩ := Option.bind_eq_some_iff.mp hr
  have hl := List.isChain_append.mp h.linked
  exact ⟨M,⟨fun b hb => h.nonempty b (List.mem_append_left _ hb),hl.1,hM⟩,
    ⟨fun b hb => h.nonempty b (List.mem_append_right _ hb),hl.2.1,hr⟩⟩

end ValidBlocks

end OnlyDoge
