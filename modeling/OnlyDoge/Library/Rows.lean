import Mathlib.Data.List.Basic
import Mathlib.Data.List.Nodup
set_option autoImplicit false

/-! Rows of a list that are changed in place: the first that matches, or a new last one. -/

namespace Rows
variable {α β : Type}

def update (p : α → Bool) (f : α → α) : List α → List α
  | [] => []
  | x::xs => if p x then f x::xs else x::update p f xs

/-- Replace the first match, or append. -/
def upsert (p : α → Bool) (next : α) (rows : List α) : List α :=
  if rows.any p then update p (fun _ => next) rows else rows ++ [next]

variable {p : α → Bool} {f : α → α} {rows : List α} {next : α}

theorem upsert_new (h : ∀ x ∈ rows, p x = false) : upsert p next rows = rows ++ [next] := by
  have hany : rows.any p = false := by
    rw [List.any_eq_false]
    exact fun x hx => by simp [h x hx]
  unfold upsert
  rw [hany]
  rfl

theorem flatMap_update {g : α → List β} (h : ∀ x ∈ rows, p x → g (f x) = g x) :
    (update p f rows).flatMap g = rows.flatMap g := by
  induction rows with
  | nil => rfl
  | cons x xs ih =>
    have ih := ih (fun y hy => h y (List.mem_cons_of_mem _ hy))
    rw [update]
    split
    · rw [List.flatMap_cons,List.flatMap_cons,h x List.mem_cons_self ‹_›]
    · rw [List.flatMap_cons,List.flatMap_cons,ih]

theorem map_update {g : α → β} (h : ∀ x ∈ rows, p x → g (f x) = g x) :
    (update p f rows).map g = rows.map g := by
  induction rows with
  | nil => rfl
  | cons x xs ih =>
    have ih := ih (fun y hy => h y (List.mem_cons_of_mem _ hy))
    rw [update]
    split
    · rw [List.map_cons,List.map_cons,h x List.mem_cons_self ‹_›]
    · rw [List.map_cons,List.map_cons,ih]

theorem filter_update {keep : α → Bool} (hold : ∀ x ∈ rows, p x → keep x = false)
    (hnew : ∀ x ∈ rows, p x → keep (f x) = false) :
    (update p f rows).filter keep = rows.filter keep := by
  induction rows with
  | nil => rfl
  | cons x xs ih =>
    have ih := ih (fun y hy => hold y (List.mem_cons_of_mem _ hy))
      (fun y hy => hnew y (List.mem_cons_of_mem _ hy))
    rw [update]
    split
    · have hp : p x = true := ‹_›
      rw [List.filter_cons_of_neg (by simp [hnew x List.mem_cons_self hp]),
        List.filter_cons_of_neg (by simp [hold x List.mem_cons_self hp])]
    · rw [List.filter_cons,List.filter_cons,ih]

theorem mem_update {y : α} (h : y ∈ update p f rows) :
    y ∈ rows ∨ ∃ x ∈ rows, p x ∧ y = f x := by
  induction rows with
  | nil => cases h
  | cons x xs ih =>
    rw [update] at h
    split at h
    · rcases List.mem_cons.mp h with rfl | hy
      · exact .inr ⟨x,List.mem_cons_self,‹_›,rfl⟩
      · exact .inl (List.mem_cons_of_mem _ hy)
    · rcases List.mem_cons.mp h with rfl | hy
      · exact .inl List.mem_cons_self
      · rcases ih hy with hold | ⟨z,hz,hpz,rfl⟩
        · exact .inl (List.mem_cons_of_mem _ hold)
        · exact .inr ⟨z,List.mem_cons_of_mem _ hz,hpz,rfl⟩

theorem mem_upsert {y : α} (h : y ∈ upsert p next rows) : y = next ∨ y ∈ rows := by
  unfold upsert at h
  split at h
  · rcases mem_update h with hold | ⟨x,-,-,rfl⟩
    · exact .inr hold
    · exact .inl rfl
  · rcases List.mem_append.mp h with hold | hnew
    · exact .inr hold
    · exact .inl (List.mem_singleton.mp hnew)

theorem update_eq_map {κ : Type} [DecidableEq κ] {key : α → κ} {k : κ}
    (h : (rows.map key).Nodup) :
    update (fun x => decide (key x = k)) f rows =
      rows.map (fun x => if key x = k then f x else x) := by
  induction rows with
  | nil => rfl
  | cons x xs ih =>
    obtain ⟨hx,hxs⟩ := List.nodup_cons.mp h
    by_cases hk : key x = k
    · have hrest : xs.map (fun y => if key y = k then f y else y) = xs := by
        refine (List.map_congr_left (fun y hy => if_neg ?_)).trans (List.map_id xs)
        exact fun heq => hx (List.mem_map.mpr ⟨y,hy,heq.trans hk.symm⟩)
      simp [update,hk,hrest]
    · simp [update,hk,ih hxs]

/-- A row under its key is found under that key afterwards, and no other key is lost. -/
theorem mem_keys_upsert {κ : Type} [DecidableEq κ] {key : α → κ} {k : κ} :
    k ∈ (upsert (fun x => decide (key x = key next)) next rows).map key ↔
      k ∈ rows.map key ∨ k = key next := by
  unfold upsert
  split
  · rename_i hany
    rw [map_update (fun x _ hx => (of_decide_eq_true hx).symm)]
    obtain ⟨x,hx,hkey⟩ := List.any_eq_true.mp hany
    refine ⟨Or.inl,?_⟩
    rintro (hk | rfl)
    · exact hk
    · exact List.mem_map.mpr ⟨x,hx,of_decide_eq_true hkey⟩
  · simp

theorem find?_update (hf : ∀ x, p x → p (f x)) :
    (update p f rows).find? p = (rows.find? p).map f := by
  induction rows with
  | nil => rfl
  | cons x xs ih =>
    rw [update]
    by_cases hp : p x
    · rw [if_pos hp,List.find?_cons_of_pos (hf x hp),List.find?_cons_of_pos hp]
      rfl
    · rw [if_neg hp,List.find?_cons_of_neg hp,List.find?_cons_of_neg hp,ih]

theorem find?_update_other {q : α → Bool} (hold : ∀ x, p x → q x = false)
    (hnew : ∀ x, p x → q (f x) = false) : (update p f rows).find? q = rows.find? q := by
  induction rows with
  | nil => rfl
  | cons x xs ih =>
    rw [update]
    by_cases hp : p x
    · rw [if_pos hp,List.find?_cons_of_neg (by simp [hnew x hp]),
        List.find?_cons_of_neg (by simp [hold x hp])]
    · rw [if_neg hp,List.find?_cons,List.find?_cons,ih]

end Rows
