import Mathlib.Data.List.Dedup
import Mathlib.Data.List.Perm.Subperm
import Mathlib.Algebra.BigOperators.Group.List.Basic
set_option autoImplicit false

/-!
Tables whose rows replace each other: of the rows with one key the one with the greatest
version counts, and of equal versions the one written last.
-/

namespace Replacing
variable {κ ρ : Type}

def newer (version : ρ → Nat) : Option ρ → Option ρ → Option ρ
  | none,r => r
  | some a,none => some a
  | some a,some b => if version a ≤ version b then some b else some a

@[simp] theorem newer_none_left (version : ρ → Nat) (r : Option ρ) :
    newer version none r = r := rfl

@[simp] theorem newer_none_right (version : ρ → Nat) (r : Option ρ) :
    newer version r none = r := by
  cases r <;> rfl

theorem newer_eq_none {version : ρ → Nat} {a b : Option ρ} :
    newer version a b = none ↔ a = none ∧ b = none := by
  cases a with
  | none => simp
  | some a => cases b with
    | none => simp
    | some b =>
      simp only [newer]
      split <;> simp

theorem newer_assoc (version : ρ → Nat) (a b c : Option ρ) :
    newer version (newer version a b) c = newer version a (newer version b c) := by
  cases a with
  | none => rfl
  | some a => cases b with
    | none => rfl
    | some b => cases c with
      | none => simp
      | some c =>
        by_cases hab : version a ≤ version b
        · by_cases hbc : version b ≤ version c
          · have hac : version a ≤ version c := Nat.le_trans hab hbc
            simp [newer,hab,hbc,hac]
          · simp [newer,hab,hbc]
        · by_cases hbc : version b ≤ version c
          · simp [newer,hab,hbc]
          · have hac : ¬version a ≤ version c := by omega
            simp [newer,hab,hbc,hac]

variable [DecidableEq κ]

/-- The row that counts for `k`. -/
def latest (key : ρ → κ) (version : ρ → Nat) : List ρ → κ → Option ρ
  | [],_ => none
  | r::rows,k => newer version (if key r = k then some r else none) (latest key version rows k)

variable {key : ρ → κ} {version : ρ → Nat}

@[simp] theorem latest_nil (k : κ) : latest key version [] k = none := rfl

theorem latest_append (xs ys : List ρ) (k : κ) :
    latest key version (xs ++ ys) k =
      newer version (latest key version xs k) (latest key version ys k) := by
  induction xs with
  | nil => rfl
  | cons r xs ih => simp only [List.cons_append,latest,ih,newer_assoc]

theorem latest_eq_none {rows : List ρ} {k : κ} :
    latest key version rows k = none ↔ ∀ r ∈ rows, key r ≠ k := by
  induction rows with
  | nil => simp
  | cons a rows ih =>
    simp only [latest,newer_eq_none,ih,List.forall_mem_cons]
    by_cases ha : key a = k <;> simp [ha]

theorem latest_spec {rows : List ρ} {k : κ} {r : ρ} (h : latest key version rows k = some r) :
    r ∈ rows ∧ key r = k ∧ ∀ x ∈ rows, key x = k → version x ≤ version r := by
  induction rows generalizing r with
  | nil => simp at h
  | cons a rows ih =>
    simp only [latest] at h
    by_cases ha : key a = k
    · simp only [ha,if_true] at h
      cases hl : latest key version rows k with
      | none =>
        have hr : a = r := by simpa [hl] using h
        subst hr
        refine ⟨by simp,ha,?_⟩
        intro x hx hxk
        rcases List.mem_cons.mp hx with rfl | hx
        · exact Nat.le_refl _
        · exact absurd hxk (latest_eq_none.mp hl x hx)
      | some b =>
        obtain ⟨hmem,hkey,hmax⟩ := ih hl
        rw [hl] at h
        simp only [newer] at h
        split at h <;> cases h
        · refine ⟨List.mem_cons_of_mem _ hmem,hkey,?_⟩
          intro x hx hxk
          rcases List.mem_cons.mp hx with rfl | hx
          · assumption
          · exact hmax x hx hxk
        · refine ⟨by simp,ha,?_⟩
          intro x hx hxk
          rcases List.mem_cons.mp hx with rfl | hx
          · exact Nat.le_refl _
          · have := hmax x hx hxk
            omega
    · simp only [ha,if_false,newer_none_left] at h
      obtain ⟨hmem,hkey,hmax⟩ := ih h
      refine ⟨List.mem_cons_of_mem _ hmem,hkey,?_⟩
      intro x hx hxk
      rcases List.mem_cons.mp hx with rfl | hx
      · exact absurd hxk ha
      · exact hmax x hx hxk

theorem latest_isSome (key : ρ → κ) (version : ρ → Nat) {rows : List ρ} {r : ρ} (h : r ∈ rows) :
    ∃ x, latest key version rows (key r) = some x := by
  cases hl : latest key version rows (key r) with
  | none => exact absurd rfl (latest_eq_none.mp hl r h)
  | some x => exact ⟨x,rfl⟩

theorem latest_append_newer {xs ys : List ρ} {k : κ}
    (h : ∀ x ∈ xs, ∀ y ∈ ys, key x = k → key y = k → version x ≤ version y) :
    latest key version (xs ++ ys) k =
      (latest key version ys k).or (latest key version xs k) := by
  rw [latest_append]
  cases hx : latest key version xs k with
  | none => simp
  | some x => cases hy : latest key version ys k with
    | none => simp
    | some y =>
      obtain ⟨hxm,hxk,-⟩ := latest_spec hx
      obtain ⟨hym,hyk,-⟩ := latest_spec hy
      simp [newer,h x hxm y hym hxk hyk]

theorem latest_eq_some_of_nodup {rows : List ρ} (h : (rows.map key).Nodup) {r : ρ} {k : κ} :
    latest key version rows k = some r ↔ r ∈ rows ∧ key r = k := by
  constructor
  · intro hl
    obtain ⟨hm,hk,-⟩ := latest_spec hl
    exact ⟨hm,hk⟩
  · rintro ⟨hm,rfl⟩
    obtain ⟨x,hx⟩ := latest_isSome key version hm
    obtain ⟨hxm,hxk,-⟩ := latest_spec hx
    rw [hx,List.inj_on_of_nodup_map h hxm hm hxk]

theorem latest_isSome_iff {rows : List ρ} {k : κ} :
    (latest key version rows k).isSome ↔ k ∈ rows.map key := by
  rw [Option.isSome_iff_ne_none,ne_eq,latest_eq_none,List.mem_map]
  push Not
  rfl

theorem latest_eq_find {rows : List ρ} (h : (rows.map key).Nodup) (k : κ) :
    latest key version rows k = rows.find? (fun r => key r = k) := by
  cases hl : latest key version rows k with
  | none =>
    rw [eq_comm,List.find?_eq_none]
    intro r hr
    simpa using latest_eq_none.mp hl r hr
  | some x =>
    obtain ⟨hx,hk,-⟩ := latest_spec hl
    cases hf : rows.find? (fun r => key r = k) with
    | none => exact absurd (List.find?_eq_none.mp hf x hx) (by simpa using hk)
    | some y =>
      have hyk : key y = k := by simpa using List.find?_some hf
      rw [List.inj_on_of_nodup_map h hx (List.mem_of_find?_eq_some hf) (hk.trans hyk.symm)]

/-- Where the rows of a key are all one row, the rows that are there decide what counts. -/
theorem latest_congr_of_mem {xs ys : List ρ} (h : ∀ r, r ∈ xs ↔ r ∈ ys)
    (hone : ∀ r ∈ xs, ∀ r' ∈ xs, key r = key r' → r = r') (k : κ) :
    latest key version xs k = latest key version ys k := by
  cases hx : latest key version xs k with
  | none =>
    have hnone := latest_eq_none.mp hx
    exact (latest_eq_none.mpr (fun r hr => hnone r ((h r).mpr hr))).symm
  | some r =>
    obtain ⟨hr,hk,-⟩ := latest_spec hx
    obtain ⟨y,hy⟩ := latest_isSome key version ((h r).mp hr)
    rw [hk] at hy
    obtain ⟨hym,hyk,-⟩ := latest_spec hy
    rw [hy,hone r hr y ((h y).mpr hym) (hk.trans hyk.symm)]

theorem latest_filter {rows : List ρ} {k : κ} {p : ρ → Bool} (h : ∀ r ∈ rows, key r = k → p r) :
    latest key version (rows.filter p) k = latest key version rows k := by
  induction rows with
  | nil => rfl
  | cons a rows ih =>
    have ih := ih (fun r hr => h r (List.mem_cons_of_mem _ hr))
    by_cases hp : p a
    · simp only [List.filter_cons_of_pos hp,latest,ih]
    · have ha : key a ≠ k := fun hk => hp (h a (by simp) hk)
      simp only [List.filter_cons_of_neg hp,latest,ha,if_false,newer_none_left,ih]

/-- The table after every merge: one row for each key. -/
def collapse (key : ρ → κ) (version : ρ → Nat) (rows : List ρ) : List ρ :=
  ((rows.map key).dedup).filterMap (latest key version rows)

theorem mem_collapse {rows : List ρ} {r : ρ} :
    r ∈ collapse key version rows ↔ latest key version rows (key r) = some r := by
  simp only [collapse,List.mem_filterMap,List.mem_dedup,List.mem_map]
  constructor
  · rintro ⟨k,-,hk⟩
    obtain ⟨-,rfl,-⟩ := latest_spec hk
    exact hk
  · intro h
    obtain ⟨hm,-,-⟩ := latest_spec h
    exact ⟨key r,⟨r,hm,rfl⟩,h⟩

theorem map_key_filterMap_latest (rows : List ρ) (ks : List κ)
    (h : ∀ k ∈ ks, k ∈ rows.map key) :
    (ks.filterMap (latest key version rows)).map key = ks := by
  induction ks with
  | nil => rfl
  | cons k ks ih =>
    obtain ⟨r,hr,rfl⟩ := List.mem_map.mp (h k (by simp))
    obtain ⟨x,hx⟩ := latest_isSome key version hr
    have hxk := (latest_spec hx).2.1
    simp only [List.filterMap_cons,hx,List.map_cons,hxk]
    rw [ih (fun k hk => h k (List.mem_cons_of_mem _ hk))]

theorem collapse_map_key (rows : List ρ) :
    (collapse key version rows).map key = (rows.map key).dedup :=
  map_key_filterMap_latest rows _ (fun _ hk => List.mem_dedup.mp hk)

theorem collapse_nodup (key : ρ → κ) (version : ρ → Nat) (rows : List ρ) :
    ((collapse key version rows).map key).Nodup := by
  rw [collapse_map_key]
  exact List.nodup_dedup _

end Replacing
