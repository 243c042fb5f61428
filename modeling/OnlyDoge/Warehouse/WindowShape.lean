import OnlyDoge.Warehouse.Window
import OnlyDoge.Chain.Effects
set_option autoImplicit false

/-! Which windows `assertCoreWindowShape` accepts. -/

namespace OnlyDoge

abbrev CoreWindow := List CoreDogecoinBlockApplication

def createdKeys (blocks : CoreWindow) : List OutputKey :=
  (blocks.flatMap (·.utxoCreates)).map (·.outputKey)

def spentKeys (blocks : CoreWindow) : List OutputKey :=
  (blocks.flatMap (·.utxoSpends)).map (·.outputKey)

theorem createdKeys_append (xs ys : CoreWindow) :
    createdKeys (xs ++ ys) = createdKeys xs ++ createdKeys ys := by
  simp [createdKeys]

theorem spentKeys_append (xs ys : CoreWindow) :
    spentKeys (xs ++ ys) = spentKeys xs ++ spentKeys ys := by
  simp [spentKeys]

theorem createdKeys_cons (a : CoreDogecoinBlockApplication) (blocks : CoreWindow) :
    createdKeys (a::blocks) = createdKeys [a] ++ createdKeys blocks :=
  createdKeys_append [a] blocks

theorem spentKeys_cons (a : CoreDogecoinBlockApplication) (blocks : CoreWindow) :
    spentKeys (a::blocks) = spentKeys [a] ++ spentKeys blocks :=
  spentKeys_append [a] blocks

/-- The next block of a chain. -/
def NextBlock (parent block : CoreDogecoinBlockApplication) : Prop :=
  block.blockHeight = parent.blockHeight + 1 ∧ block.previousBlockHash = some parent.blockHash

def ShapeAllows (state : CoreWindowShapeState) (block : CoreDogecoinBlockApplication) : Prop :=
  (∀ height ∈ state.previousHeight, block.blockHeight = height + 1) ∧
    ∀ hash ∈ state.previousHash, block.previousBlockHash = some hash

theorem assertUniqueCoreKeys_iff {message : String} {seen keys seen' : List OutputKey}
    (h : seen.Nodup) : keys.foldlM (assertUniqueCoreKey message) seen = .ok seen' ↔
      (seen ++ keys).Nodup ∧ seen' = seen ++ keys := by
  induction keys generalizing seen with
  | nil =>
    rw [List.foldlM_nil,List.append_nil]
    exact ⟨fun ht => (by cases ht; exact ⟨h,rfl⟩),fun ht => (by rw [ht.2]; rfl)⟩
  | cons k keys ih =>
    rw [List.foldlM_cons,List.append_cons]
    unfold assertUniqueCoreKey
    by_cases hk : k ∈ seen
    · rw [if_pos hk]
      refine ⟨fun ht => (by cases ht),fun ht => absurd ?_ (not_not_intro hk)⟩
      exact (nodup_append_singleton h).mp (List.nodup_append.mp ht.1).1
    · rw [if_neg hk]
      exact ih ((nodup_append_singleton h).mpr hk)

theorem assertCoreApplicationHeight_iff {state : CoreWindowShapeState}
    {a : CoreDogecoinBlockApplication} : assertCoreApplicationHeight a state = .ok () ↔
      ∀ height ∈ state.previousHeight, a.blockHeight = height + 1 := by
  unfold assertCoreApplicationHeight
  cases state.previousHeight with
  | none => simp
  | some height => by_cases hh : a.blockHeight = height + 1 <;> simp [hh]

theorem assertCoreApplicationPreviousHash_iff {state : CoreWindowShapeState}
    {a : CoreDogecoinBlockApplication} : assertCoreApplicationPreviousHash a state = .ok () ↔
      ∀ hash ∈ state.previousHash, a.previousBlockHash = some hash := by
  unfold assertCoreApplicationPreviousHash
  cases state.previousHash with
  | none => simp
  | some hash => by_cases hh : a.previousBlockHash = some hash <;> simp [hh]

theorem assertCoreApplicationShape_iff {state state' : CoreWindowShapeState}
    {a : CoreDogecoinBlockApplication} (hcreated : state.created.Nodup)
    (hspent : state.spent.Nodup) : assertCoreApplicationShape state a = .ok state' ↔
      ShapeAllows state a ∧ (state.created ++ createdKeys [a]).Nodup ∧
      (state.spent ++ spentKeys [a]).Nodup ∧
      state' = ⟨state.created ++ createdKeys [a],state.spent ++ spentKeys [a],some a.blockHash,
        some a.blockHeight⟩ := by
  have hck : createdKeys [a] = a.utxoCreates.map (·.outputKey) := by simp [createdKeys]
  have hsk : spentKeys [a] = a.utxoSpends.map (·.outputKey) := by simp [spentKeys]
  unfold assertCoreApplicationShape ShapeAllows
  simp only [bind_eq_ok,assertUniqueCoreOutputs,assertUniqueCoreSpends,
    assertUniqueCoreKeys_iff hcreated,assertUniqueCoreKeys_iff hspent,
    ← assertCoreApplicationHeight_iff,← assertCoreApplicationPreviousHash_iff]
  rw [hck,hsk]
  constructor
  · rintro ⟨_,hh,_,hp,_,⟨hc,rfl⟩,_,⟨hs,rfl⟩,heq⟩
    cases heq
    exact ⟨⟨hh,hp⟩,hc,hs,rfl⟩
  · rintro ⟨⟨hh,hp⟩,hc,hs,rfl⟩
    exact ⟨(),hh,(),hp,_,⟨hc,rfl⟩,_,⟨hs,rfl⟩,rfl⟩

/-- A window is accepted when it is a chain that follows the state and repeats no key. -/
theorem assertCoreShapes_iff {state : CoreWindowShapeState} {window : CoreWindow}
    (hcreated : state.created.Nodup) (hspent : state.spent.Nodup) :
    (∃ state', window.foldlM assertCoreApplicationShape state = .ok state') ↔
      (∀ first ∈ window.head?, ShapeAllows state first) ∧ window.IsChain NextBlock ∧
      (state.created ++ createdKeys window).Nodup ∧ (state.spent ++ spentKeys window).Nodup := by
  induction window generalizing state with
  | nil => simp [createdKeys,spentKeys,hcreated,hspent,Pure.pure,Except.pure]
  | cons a window ih =>
    simp only [List.foldlM_cons,bind_eq_ok,assertCoreApplicationShape_iff hcreated hspent]
    rw [createdKeys_cons a window,spentKeys_cons a window,← List.append_assoc,← List.append_assoc,
      List.isChain_cons]
    constructor
    · rintro ⟨state',_,⟨hallows,hc,hs,rfl⟩,hrest⟩
      obtain ⟨hfirst,hchain,hcs,hss⟩ := (ih hc hs).mp ⟨state',hrest⟩
      refine ⟨fun first hf => ?_,⟨fun b hb => ?_,hchain⟩,hcs,hss⟩
      · cases hf
        exact hallows
      · exact ⟨(hfirst b hb).1 _ rfl,(hfirst b hb).2 _ rfl⟩
    · rintro ⟨hfirst,⟨hnext,hchain⟩,hcs,hss⟩
      have hc := (List.nodup_append.mp hcs).1
      have hs := (List.nodup_append.mp hss).1
      have hallows : ∀ b ∈ window.head?, ShapeAllows ⟨state.created ++ createdKeys [a],
          state.spent ++ spentKeys [a],some a.blockHash,some a.blockHeight⟩ b := by
        refine fun b hb => ⟨fun height hh => ?_,fun hash hh => ?_⟩
        · cases hh
          exact (hnext b hb).1
        · cases hh
          exact (hnext b hb).2
      obtain ⟨state',hrest⟩ := (ih hc hs).mpr ⟨hallows,hchain,hcs,hss⟩
      exact ⟨state',_,⟨hfirst a rfl,hc,hs,rfl⟩,hrest⟩

theorem assertCoreWindowShape_iff {window : CoreWindow} :
    (∃ state, assertCoreWindowShape window = .ok state) ↔
      window.IsChain NextBlock ∧ (createdKeys window).Nodup ∧ (spentKeys window).Nodup := by
  refine (assertCoreShapes_iff List.nodup_nil List.nodup_nil).trans ?_
  refine and_iff_right (fun first _ => ⟨fun height hh => ?_,fun hash hh => ?_⟩)
  · cases hh
  · cases hh

end OnlyDoge
