import Mathlib.Data.List.Nodup
import Mathlib.Algebra.BigOperators.Group.List.Basic
import Mathlib.Algebra.Order.BigOperators.Group.List
import Mathlib.Tactic.Abel
set_option autoImplicit false

/-- What has been created and what of it has been spent, each only once. -/
structure Ledger {κ γ : Type} (key : γ → κ) where
  created : List γ
  spent : List κ
  created_nodup : (created.map key).Nodup
  spent_nodup : spent.Nodup
  spent_created : ∀ k ∈ spent, k ∈ created.map key

namespace Ledger
variable {κ γ : Type} {key : γ → κ}

inductive Entry (κ γ : Type) where
  | create (c : γ)
  | spend (k : κ)

def Entry.created? : Entry κ γ → Option γ
  | .create c => some c
  | .spend _ => none

def Entry.spent? : Entry κ γ → Option κ
  | .create _ => none
  | .spend k => some k

def empty : Ledger key := ⟨[],[],by simp,by simp,by simp⟩

variable [DecidableEq κ]

def create? (L : Ledger key) (c : γ) : Option (Ledger key) :=
  if h : key c ∈ L.created.map key then none
  else some
    { L with
      created := L.created ++ [c]
      created_nodup := by
        rw [List.map_append,List.nodup_append]
        refine ⟨L.created_nodup,by simp,?_⟩
        rintro a ha b hb rfl
        rw [List.map_singleton,List.mem_singleton] at hb
        exact h (hb ▸ ha)
      spent_created := fun k hk => by
        rw [List.map_append,List.mem_append]
        exact Or.inl (L.spent_created k hk) }

def spend? (L : Ledger key) (k : κ) : Option (Ledger key) :=
  if h : k ∈ L.created.map key ∧ k ∉ L.spent then
    some
      { L with
        spent := L.spent ++ [k]
        spent_nodup := by
          rw [List.nodup_append]
          refine ⟨L.spent_nodup,by simp,?_⟩
          rintro a ha b hb rfl
          rw [List.mem_singleton] at hb
          exact h.2 (hb ▸ ha)
        spent_created := fun j hj => by
          rcases List.mem_append.mp hj with hj | hj
          · exact L.spent_created j hj
          · rw [List.mem_singleton.mp hj]
            exact h.1 }
  else none

def post? (L : Ledger key) : Entry κ γ → Option (Ledger key)
  | .create c => L.create? c
  | .spend k => L.spend? k

def postAll? (L : Ledger key) : List (Entry κ γ) → Option (Ledger key)
  | [] => some L
  | e::es => (L.post? e).bind (fun L' => L'.postAll? es)

def find (L : Ledger key) (k : κ) : Option γ :=
  L.created.find? (fun c => key c = k)

def unspent (L : Ledger key) : List γ :=
  L.created.filter (fun c => key c ∉ L.spent)

/-- The unspent coin under a key. -/
def coin (L : Ledger key) (k : κ) : Option γ :=
  if k ∈ L.spent then none else L.find k

def worth (weight : γ → Int) (L : Ledger key) : Int :=
  (L.unspent.map weight).sum

theorem postAll?_append (L : Ledger key) (es fs : List (Entry κ γ)) :
    L.postAll? (es ++ fs) = (L.postAll? es).bind (fun L' => L'.postAll? fs) := by
  induction es generalizing L with
  | nil => rfl
  | cons e es ih =>
    simp only [List.cons_append,postAll?,Option.bind_assoc,ih]

theorem create?_eq_some {L L' : Ledger key} {c : γ} (h : L.create? c = some L') :
    key c ∉ L.created.map key ∧ L'.created = L.created ++ [c] ∧ L'.spent = L.spent := by
  unfold create? at h
  split at h
  · cases h
  · cases h
    exact ⟨‹_›,rfl,rfl⟩

theorem spend?_eq_some {L L' : Ledger key} {k : κ} (h : L.spend? k = some L') :
    k ∈ L.created.map key ∧ k ∉ L.spent ∧ L'.created = L.created ∧
      L'.spent = L.spent ++ [k] := by
  unfold spend? at h
  split at h
  · cases h
    exact ⟨(‹_ ∧ _›).1,(‹_ ∧ _›).2,rfl,rfl⟩
  · cases h

theorem postAll?_eq_some {L L' : Ledger key} {es : List (Entry κ γ)}
    (h : L.postAll? es = some L') :
    L'.created = L.created ++ es.filterMap Entry.created? ∧
      L'.spent = L.spent ++ es.filterMap Entry.spent? := by
  induction es generalizing L with
  | nil =>
    cases h
    simp
  | cons e es ih =>
    obtain ⟨M,hM,h⟩ := Option.bind_eq_some_iff.mp h
    obtain ⟨hc,hs⟩ := ih h
    cases e with
    | create c =>
      obtain ⟨-,hc',hs'⟩ := create?_eq_some hM
      simp [hc,hs,hc',hs',List.filterMap_cons,Entry.created?,Entry.spent?]
    | spend k =>
      obtain ⟨-,-,hc',hs'⟩ := spend?_eq_some hM
      simp [hc,hs,hc',hs',List.filterMap_cons,Entry.created?,Entry.spent?]

theorem find_eq_some {L : Ledger key} {k : κ} {c : γ} :
    L.find k = some c ↔ c ∈ L.created ∧ key c = k := by
  constructor
  · intro h
    exact ⟨List.mem_of_find?_eq_some h,by simpa using List.find?_some h⟩
  · rintro ⟨hm,rfl⟩
    cases hf : L.find (key c) with
    | none => exact absurd (List.find?_eq_none.mp hf c hm) (by simp)
    | some d =>
      have hd := List.mem_of_find?_eq_some hf
      have hk : key d = key c := by simpa using List.find?_some hf
      rw [List.inj_on_of_nodup_map L.created_nodup hd hm hk]

theorem find_eq_none {L : Ledger key} {k : κ} :
    L.find k = none ↔ k ∉ L.created.map key := by
  simp [find]

theorem coin_eq_some {L : Ledger key} {k : κ} {c : γ} :
    L.coin k = some c ↔ c ∈ L.unspent ∧ key c = k := by
  unfold coin unspent
  by_cases hk : k ∈ L.spent
  · simp only [hk,if_true,List.mem_filter,decide_eq_true_eq]
    constructor
    · intro h
      cases h
    · rintro ⟨⟨-,hc⟩,rfl⟩
      exact absurd hk hc
  · simp only [hk,if_false,find_eq_some,List.mem_filter,decide_eq_true_eq]
    constructor
    · rintro ⟨hm,rfl⟩
      exact ⟨⟨hm,hk⟩,rfl⟩
    · rintro ⟨⟨hm,-⟩,rfl⟩
      exact ⟨hm,rfl⟩

theorem unspent_nodup (L : Ledger key) : (L.unspent.map key).Nodup :=
  L.created_nodup.sublist (List.filter_sublist.map key)

theorem coin_create {L L' : Ledger key} {c : γ} (h : L.create? c = some L') (k : κ) :
    L'.coin k = if key c = k then some c else L.coin k := by
  obtain ⟨hnew,hcreated,hspent⟩ := create?_eq_some h
  have hc : key c ∉ L.spent := fun hs => hnew (L.spent_created _ hs)
  unfold coin find
  rw [hcreated,hspent,List.find?_append]
  by_cases hk : key c = k
  · subst hk
    have hnone : L.created.find? (fun d => key d = key c) = none := find_eq_none.mpr hnew
    simp [hc,hnone]
  · simp [hk]

theorem coin_spend {L L' : Ledger key} {j : κ} (h : L.spend? j = some L') (k : κ) :
    L'.coin k = if j = k then none else L.coin k := by
  obtain ⟨-,-,hcreated,hspent⟩ := spend?_eq_some h
  unfold coin find
  rw [hcreated,hspent]
  by_cases hk : j = k
  · simp [hk]
  · simp [hk,Ne.symm hk]

theorem worth_create {L L' : Ledger key} {c : γ} (weight : γ → Int)
    (h : L.create? c = some L') : L'.worth weight = L.worth weight + weight c := by
  obtain ⟨hnew,hcreated,hspent⟩ := create?_eq_some h
  have hc : key c ∉ L.spent := fun hs => hnew (L.spent_created _ hs)
  simp [worth,unspent,hcreated,hspent,List.filter_append,hc]

theorem sum_filter_ne (weight : γ → Int) (cs : List γ) (p : γ → Bool) (c : γ)
    (hnodup : (cs.map key).Nodup) (hc : c ∈ cs) (hp : p c) :
    ((cs.filter (fun d => p d ∧ key d ≠ key c)).map weight).sum =
      ((cs.filter p).map weight).sum - weight c := by
  induction cs with
  | nil => simp at hc
  | cons d cs ih =>
    simp only [List.map_cons,List.nodup_cons] at hnodup
    rcases List.mem_cons.mp hc with rfl | hm
    · have hrest : cs.filter (fun d => p d ∧ key d ≠ key c) = cs.filter p := by
        apply List.filter_congr
        intro x hx
        have : key x ≠ key c := fun he => hnodup.1 (he ▸ List.mem_map_of_mem hx)
        simp [this]
      rw [List.filter_cons_of_neg (by simp),List.filter_cons_of_pos hp,hrest]
      simp
    · have hne : key d ≠ key c := fun he => hnodup.1 (he ▸ List.mem_map_of_mem hm)
      have ih := ih hnodup.2 hm
      by_cases hd : p d
      · rw [List.filter_cons_of_pos (by simp [hd,hne]),List.filter_cons_of_pos hd]
        simp only [List.map_cons,List.sum_cons,ih]
        abel
      · rw [List.filter_cons_of_neg (by simp [hd]),List.filter_cons_of_neg hd,ih]

theorem worth_spend {L L' : Ledger key} {k : κ} {c : γ} (weight : γ → Int)
    (h : L.spend? k = some L') (hc : L.coin k = some c) :
    L'.worth weight = L.worth weight - weight c := by
  obtain ⟨-,-,hcreated,hspent⟩ := spend?_eq_some h
  obtain ⟨hm,rfl⟩ := coin_eq_some.mp hc
  obtain ⟨hm,hp⟩ := List.mem_filter.mp hm
  rw [worth,worth,unspent,hcreated,hspent,unspent,
    ← sum_filter_ne weight L.created _ c L.created_nodup hm hp]
  congr 3
  funext d
  simp

theorem coin_of_spend? {L L' : Ledger key} {k : κ} (h : L.spend? k = some L') :
    ∃ c, L.coin k = some c := by
  obtain ⟨hk,hs,-,-⟩ := spend?_eq_some h
  cases hf : L.find k with
  | none => exact absurd hk (find_eq_none.mp hf)
  | some c => exact ⟨c,by simp [coin,hs,hf]⟩

theorem worth_eq_sum {L : Ledger key} {cs : List γ} (weight : γ → Int)
    (hnodup : (cs.map key).Nodup) (hcs : ∀ c, c ∈ cs ↔ L.coin (key c) = some c) :
    L.worth weight = (cs.map weight).sum := by
  have hperm : L.unspent.Perm cs := by
    rw [List.perm_ext_iff_of_nodup L.unspent_nodup.of_map hnodup.of_map]
    intro c
    rw [hcs,coin_eq_some]
    simp
  exact (hperm.map weight).sum_eq

theorem sum_filterMap_elim {ι : Type} (f : ι → Option γ) (weight : γ → Int) (xs : List ι) :
    ((xs.filterMap f).map weight).sum = (xs.map (fun x => (f x).elim 0 weight)).sum := by
  induction xs with
  | nil => rfl
  | cons x xs ih => cases hx : f x <;> simp [hx,ih]

theorem sum_filter_add_sum_not (p : γ → Bool) (weight : γ → Int) (xs : List γ) :
    ((xs.filter p).map weight).sum + ((xs.filter (fun x => !p x)).map weight).sum =
      (xs.map weight).sum := by
  induction xs with
  | nil => rfl
  | cons x xs ih => cases hx : p x <;> simp [hx] <;> omega

theorem worth_eq_created_sub_spent (L : Ledger key) (weight : γ → Int) : L.worth weight =
    (L.created.map weight).sum - (L.spent.map (fun k => (L.find k).elim 0 weight)).sum := by
  have hspent : (L.created.filter (fun c => key c ∈ L.spent)).Perm (L.spent.filterMap L.find) := by
    have hcreated : (L.created.filter (fun c => key c ∈ L.spent)).Nodup :=
      L.created_nodup.of_map.filter _
    have hfound : (L.spent.filterMap L.find).Nodup := by
      refine L.spent_nodup.filterMap (fun j k c hj hk => ?_)
      rw [← (find_eq_some.mp hj).2,(find_eq_some.mp hk).2]
    rw [List.perm_ext_iff_of_nodup hcreated hfound]
    intro c
    simp only [List.mem_filter,decide_eq_true_eq,List.mem_filterMap,find_eq_some]
    constructor
    · rintro ⟨hc,hk⟩
      exact ⟨key c,hk,hc,rfl⟩
    · rintro ⟨k,hk,hc,rfl⟩
      exact ⟨hc,hk⟩
  have hsplit := sum_filter_add_sum_not (fun c => decide (key c ∈ L.spent)) weight L.created
  rw [(hspent.map weight).sum_eq,sum_filterMap_elim] at hsplit
  have hunspent : L.unspent = L.created.filter (fun c => !decide (key c ∈ L.spent)) := by
    simp [unspent]
  rw [worth,hunspent]
  omega

theorem worth_nonneg (L : Ledger key) {weight : γ → Int} (h : ∀ c, 0 ≤ weight c) :
    0 ≤ L.worth weight := by
  refine List.sum_nonneg (fun x hx => ?_)
  obtain ⟨c,-,rfl⟩ := List.mem_map.mp hx
  exact h c

end Ledger
