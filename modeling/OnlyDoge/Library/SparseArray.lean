import Mathlib.Data.List.Basic
import Mathlib.Data.List.Nodup
import Mathlib.Data.List.Perm.Subperm
set_option autoImplicit false

/-! Arrays with unset slots, filled by writes in any order. -/

/-- A slot that was never written is `none`; a later write to a slot stands. -/
abbrev SparseArray (α : Type) := List (Option α)

namespace SparseArray
variable {ε α β : Type}

def create (n : Nat) : SparseArray α := List.replicate n none

/-- Whether a set slot passes the test: unset slots are not visited. -/
def someSet (test : α → Bool) (slots : SparseArray α) : Bool :=
  slots.any fun slot => slot.any test

/-- The image of each set slot, from index `first` on: unset slots stay unset. -/
def mapSetFrom (f : α → Nat → Except ε β) : Nat → SparseArray α → Except ε (SparseArray β)
  | _,[] => .ok []
  | first,none::slots => do
    let rest ← mapSetFrom f (first + 1) slots
    return none::rest
  | first,some a::slots => do
    let b ← f a first
    let rest ← mapSetFrom f (first + 1) slots
    return some b::rest

def mapSet (f : α → Nat → Except ε β) (slots : SparseArray α) : Except ε (SparseArray β) :=
  mapSetFrom f 0 slots

def writeAll (slots : SparseArray α) : List (Nat × α) → SparseArray α
  | [] => slots
  | write::writes => writeAll (slots.set write.1 (some write.2)) writes

theorem create_length (n : Nat) : (create n : SparseArray α).length = n := List.length_replicate

theorem create_unset {n i : Nat} {a : α} : (create n : SparseArray α)[i]? ≠ some (some a) := by
  unfold create
  rw [List.getElem?_replicate]
  split <;> simp

theorem writeAll_length (slots : SparseArray α) (writes : List (Nat × α)) :
    (slots.writeAll writes).length = slots.length := by
  induction writes generalizing slots with
  | nil => rfl
  | cons write writes ih =>
    rw [writeAll,ih]
    exact List.length_set

theorem writeAll_set {slots : SparseArray α} {writes : List (Nat × α)} {i : Nat} {a : α}
    (h : (slots.writeAll writes)[i]? = some (some a)) :
    (i,a) ∈ writes ∨ slots[i]? = some (some a) := by
  induction writes generalizing slots with
  | nil => exact Or.inr h
  | cons write writes ih =>
    rcases ih h with hlater | hset
    · exact Or.inl (List.mem_cons_of_mem _ hlater)
    · rw [List.getElem?_set] at hset
      split at hset
      · next heq =>
        split at hset
        · left
          have ha : write.2 = a := Option.some.inj (Option.some.inj hset)
          rw [← heq,← ha]
          exact List.mem_cons_self
        · cases hset
      · exact Or.inr hset

theorem writeAll_keeps {slots : SparseArray α} {writes : List (Nat × α)} {i : Nat} {a : α}
    (h : slots[i]? = some (some a)) : ∃ b, (slots.writeAll writes)[i]? = some (some b) := by
  induction writes generalizing slots a with
  | nil => exact ⟨a,h⟩
  | cons write writes ih =>
    have hi : i < slots.length := (List.getElem?_eq_some_iff.mp h).1
    by_cases heq : write.1 = i
    · refine ih (a := write.2) ?_
      rw [heq,List.getElem?_set_self hi]
    · refine ih (a := a) ?_
      rw [List.getElem?_set_ne heq,h]

theorem writeAll_written {slots : SparseArray α} {writes : List (Nat × α)} {write : Nat × α}
    (h : write ∈ writes) (hi : write.1 < slots.length) :
    ∃ a, (slots.writeAll writes)[write.1]? = some (some a) := by
  induction writes generalizing slots with
  | nil => cases h
  | cons other writes ih =>
    rcases List.mem_cons.mp h with rfl | h
    · rw [writeAll]
      exact writeAll_keeps (List.getElem?_set_self hi)
    · exact ih h (by rw [List.length_set]; exact hi)

/-- A list of `n` indices below `n` names each of them exactly when it repeats none. -/
theorem indices_covered_iff {n : Nat} {indices : List Nat} (hlength : indices.length = n)
    (hbelow : ∀ i ∈ indices, i < n) : (∀ i < n, i ∈ indices) ↔ indices.Nodup := by
  constructor
  · intro hcovered
    have hsub : List.range n ⊆ indices := fun i hi => hcovered i (List.mem_range.mp hi)
    have hperm := (List.subperm_of_subset List.nodup_range hsub).perm_of_length_le
      (by simp [hlength])
    exact hperm.nodup_iff.mp List.nodup_range
  · intro hnodup i hi
    have hsub : indices ⊆ List.range n := fun j hj => List.mem_range.mpr (hbelow j hj)
    have hperm := (List.subperm_of_subset hnodup hsub).perm_of_length_le
      (by simp [hlength])
    exact hperm.mem_iff.mpr (List.mem_range.mpr hi)

theorem filled_iff {n : Nat} {writes : List (Nat × α)} (hlength : writes.length = n)
    (hbelow : ∀ write ∈ writes, write.1 < n) :
    (∀ i < n, ∃ a, ((create n).writeAll writes)[i]? = some (some a)) ↔
      (writes.map Prod.fst).Nodup := by
  rw [← indices_covered_iff (n := n) (by rw [List.length_map,hlength])]
  · constructor
    · intro h i hi
      obtain ⟨a,ha⟩ := h i hi
      rcases writeAll_set ha with hmem | hunset
      · exact List.mem_map_of_mem hmem
      · exact absurd hunset create_unset
    · intro h i hi
      obtain ⟨write,hmem,rfl⟩ := List.mem_map.mp (h i hi)
      exact writeAll_written hmem (by rw [create_length]; exact hi)
  · intro i hi
    obtain ⟨write,hmem,rfl⟩ := List.mem_map.mp hi
    exact hbelow write hmem

theorem mapSetFrom_ok {f : α → Nat → Except ε β} {first : Nat} {slots : SparseArray α}
    {images : SparseArray β} (h : mapSetFrom f first slots = .ok images) :
    images.length = slots.length ∧ ∀ i, (slots[i]? = some none → images[i]? = some none) ∧
      ∀ a, slots[i]? = some (some a) → ∃ b, f a (first + i) = .ok b ∧ images[i]? =
        some (some b) := by
  induction slots generalizing first images with
  | nil =>
    cases h
    exact ⟨rfl,fun i => by simp⟩
  | cons slot slots ih =>
    cases slot with
    | none =>
      cases hrest : mapSetFrom f (first + 1) slots with
      | error e => simp [mapSetFrom,hrest,Bind.bind,Except.bind] at h
      | ok rest =>
        simp only [mapSetFrom,hrest,Bind.bind,Except.bind,Pure.pure,Except.pure,
          Except.ok.injEq] at h
        subst h
        obtain ⟨hlength,hslots⟩ := ih hrest
        refine ⟨by simp [hlength],fun i => ?_⟩
        cases i with
        | zero => simp
        | succ i => simpa [Nat.add_assoc,Nat.add_comm 1] using hslots i
    | some a =>
      cases hb : f a first with
      | error e => simp [mapSetFrom,hb,Bind.bind,Except.bind] at h
      | ok b =>
        cases hrest : mapSetFrom f (first + 1) slots with
        | error e => simp [mapSetFrom,hb,hrest,Bind.bind,Except.bind] at h
        | ok rest =>
          simp only [mapSetFrom,hb,hrest,Bind.bind,Except.bind,Pure.pure,Except.pure,
            Except.ok.injEq] at h
          subst h
          obtain ⟨hlength,hslots⟩ := ih hrest
          refine ⟨by simp [hlength],fun i => ?_⟩
          cases i with
          | zero => simpa using hb
          | succ i => simpa [Nat.add_assoc,Nat.add_comm 1] using hslots i

theorem mapSet_ok {f : α → Nat → Except ε β} {slots : SparseArray α} {images : SparseArray β}
    (h : slots.mapSet f = .ok images) :
    images.length = slots.length ∧ ∀ i, (slots[i]? = some none → images[i]? = some none) ∧
      ∀ a, slots[i]? = some (some a) → ∃ b, f a i = .ok b ∧ images[i]? = some (some b) := by
  simpa using mapSetFrom_ok h

theorem mapSet_set {f : α → Nat → Except ε β} {slots : SparseArray α} {images : SparseArray β}
    (h : slots.mapSet f = .ok images) {i : Nat} {b : β} (hb : images[i]? = some (some b)) :
    ∃ a, slots[i]? = some (some a) ∧ f a i = .ok b := by
  obtain ⟨hlength,himages⟩ := mapSet_ok h
  have hi : i < slots.length := by
    rw [← hlength]
    exact (List.getElem?_eq_some_iff.mp hb).1
  cases hslot : slots[i] with
  | none =>
    have hunset := (himages i).1 (by rw [List.getElem?_eq_getElem hi,hslot])
    rw [hb] at hunset
    cases hunset
  | some a =>
    have hset : slots[i]? = some (some a) := by rw [List.getElem?_eq_getElem hi,hslot]
    obtain ⟨b',hf,hb'⟩ := (himages i).2 a hset
    rw [hb] at hb'
    cases hb'
    exact ⟨a,hset,hf⟩

end SparseArray
