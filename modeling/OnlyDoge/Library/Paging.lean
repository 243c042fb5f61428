import Mathlib.Data.List.Sort
import Mathlib.Algebra.Ring.Nat
set_option autoImplicit false

/-!
Pages of a sorted list, each of the rows after a cursor: the key of the last row of the page
before it. The rows may be sorted by one order and be after a cursor by another.
-/

namespace Paging
variable {α κ : Type}

theorem filter_orderedInsert {r : α → α → Prop} [DecidableRel r] [IsTrans α r] (p : α → Bool)
    (a : α) {rows : List α} (h : rows.Pairwise r) : (rows.orderedInsert r a).filter p =
      if p a then (rows.filter p).orderedInsert r a else rows.filter p := by
  induction rows with
  | nil => by_cases ha : p a <;> simp [ha]
  | cons b rows ih =>
    obtain ⟨hb,hrows⟩ := List.pairwise_cons.mp h
    rw [List.orderedInsert_cons]
    by_cases hab : r a b
    · by_cases ha : p a
      · -- `a` stands before every row that is left
        have hfirst : ((b::rows).filter p).orderedInsert r a = a::(b::rows).filter p := by
          cases hfilter : (b::rows).filter p with
          | nil => rfl
          | cons c kept =>
            have hc : c ∈ b::rows := List.mem_of_mem_filter (hfilter ▸ List.mem_cons_self)
            rw [List.orderedInsert_cons,if_pos]
            rcases List.mem_cons.mp hc with rfl | hc
            · exact hab
            · exact Trans.trans hab (hb c hc)
        rw [if_pos hab,List.filter_cons_of_pos ha,if_pos ha,hfirst]
      · rw [if_pos hab,List.filter_cons_of_neg ha,if_neg ha]
    · rw [if_neg hab]
      by_cases hpb : p b
      · rw [List.filter_cons_of_pos hpb,List.filter_cons_of_pos hpb,ih hrows]
        by_cases ha : p a
        · simp only [ha,if_true,List.orderedInsert_cons,if_neg hab]
        · simp only [ha,Bool.false_eq_true,if_false]
      · rw [List.filter_cons_of_neg hpb,List.filter_cons_of_neg hpb,ih hrows]

theorem filter_insertionSort (r : α → α → Prop) [DecidableRel r] [IsTrans α r] [Std.Total r]
    (p : α → Bool) (rows : List α) :
    (rows.insertionSort r).filter p = (rows.filter p).insertionSort r := by
  induction rows with
  | nil => rfl
  | cons a rows ih =>
    rw [List.insertionSort_cons,filter_orderedInsert p a (List.pairwise_insertionSort r rows),ih]
    by_cases ha : p a
    · rw [if_pos ha,List.filter_cons_of_pos ha,List.insertionSort_cons]
    · rw [if_neg ha,List.filter_cons_of_neg ha]

/-- Rows that no two places tie for have one sorted order, whatever order they come in. -/
theorem insertionSort_eq_of_perm (r : α → α → Prop) [DecidableRel r] [IsTrans α r] [Std.Total r]
    {xs ys : List α} (h : xs.Perm ys) (hanti : ∀ a ∈ xs, ∀ b ∈ xs, r a b → r b a → a = b) :
    xs.insertionSort r = ys.insertionSort r := by
  have hxs := List.perm_insertionSort r xs
  have hys := List.perm_insertionSort r ys
  refine List.Perm.eq_of_pairwise (fun a b ha hb => hanti a (hxs.mem_iff.mp ha) b ?_)
    (List.pairwise_insertionSort r xs) (List.pairwise_insertionSort r ys)
    (hxs.trans (h.trans hys.symm))
  exact h.mem_iff.mpr (hys.mem_iff.mp hb)

def page (after : α → κ → Bool) (limit : Nat) (rows : List α) (cursor : Option κ) : List α :=
  (rows.filter fun row => cursor.all (after row)).take limit

/-- A full page has a cursor: the key of its last row. -/
def nextCursor (key : α → κ) (limit : Nat) (rows : List α) : Option κ :=
  if rows.length = limit then rows.getLast?.map key else none

/-- The rows of the pages from `cursor` on, where at most `fuel` pages are read. -/
def visit (after : α → κ → Bool) (key : α → κ) (limit : Nat) (rows : List α) :
    Nat → Option κ → Option (List α)
  | 0,_ => none
  | fuel + 1,cursor =>
    match nextCursor key limit (page after limit rows cursor) with
    | none => some (page after limit rows cursor)
    | some next =>
      (visit after key limit rows fuel (some next)).map (page after limit rows cursor ++ ·)

/-- The rows after the last of the first `m` rows are those from index `m` on. -/
def CutsAt (after : α → κ → Bool) (key : α → κ) (rows : List α) (m : Nat) : Prop :=
  ∀ last, rows[m - 1]? = some last → ∀ i row, rows[i]? = some row →
    (after row (key last) = true ↔ m ≤ i)

theorem filter_eq_drop {p : α → Bool} {rows : List α} {m : Nat}
    (h : ∀ i row, rows[i]? = some row → (p row = true ↔ m ≤ i)) : rows.filter p = rows.drop m := by
  induction rows generalizing m with
  | nil => simp
  | cons row rows ih =>
    have hhead := h 0 row rfl
    cases m with
    | zero =>
      rw [List.drop_zero,List.filter_eq_self]
      intro a ha
      obtain ⟨i,hi⟩ := List.getElem?_of_mem ha
      exact (h i a hi).mpr (Nat.zero_le i)
    | succ m =>
      have hp : ¬p row = true := fun hp => absurd (hhead.mp hp) (by omega)
      rw [List.filter_cons_of_neg hp,List.drop_succ_cons]
      exact ih fun i a ha => (h (i + 1) a ha).trans (by omega)

section Visit
variable {after : α → κ → Bool} {key : α → κ} {limit : Nat} {rows : List α}
variable {cursor : Option κ} {fuel : Nat} {visited : List α}

theorem nextCursor_eq_some {shown : List α} {next : κ}
    (h : nextCursor key limit shown = some next) :
    shown.length = limit ∧ ∃ last ∈ shown, shown[limit - 1]? = some last ∧ key last = next := by
  unfold nextCursor at h
  split at h
  · next hlength =>
    obtain ⟨last,hlast,hkey⟩ := Option.map_eq_some_iff.mp h
    refine ⟨hlength,last,List.mem_of_getLast? hlast,?_,hkey⟩
    rw [← hlength,← List.getLast?_eq_getElem?,hlast]
  · cases h

theorem nextCursor_eq_none {shown : List α} (hlimit : 0 < limit)
    (h : nextCursor key limit shown = none) : shown.length ≠ limit := by
  intro hlength
  rw [nextCursor,if_pos hlength,Option.map_eq_none_iff,List.getLast?_eq_none_iff] at h
  rw [h] at hlength
  simp at hlength
  omega

theorem mem_page {row : α} (h : row ∈ page after limit rows cursor) :
    row ∈ rows ∧ cursor.all (after row) = true :=
  List.mem_filter.mp (List.mem_of_mem_take h)

theorem visit_cases (h : visit after key limit rows fuel cursor = some visited) :
    ∃ fewer, fuel = fewer + 1 ∧
      ((nextCursor key limit (page after limit rows cursor) = none ∧
        visited = page after limit rows cursor) ∨
      ∃ next rest, nextCursor key limit (page after limit rows cursor) = some next ∧
        visit after key limit rows fewer (some next) = some rest ∧
        visited = page after limit rows cursor ++ rest) := by
  cases fuel with
  | zero => cases h
  | succ fuel =>
    refine ⟨fuel,rfl,?_⟩
    rw [visit] at h
    split at h
    · next hnone => exact Or.inl ⟨hnone,(Option.some.inj h).symm⟩
    · next next hnext =>
      obtain ⟨rest,hrest,rfl⟩ := Option.map_eq_some_iff.mp h
      exact Or.inr ⟨next,rest,hnext,hrest,rfl⟩

theorem page_subset_visit (h : visit after key limit rows fuel cursor = some visited) :
    page after limit rows cursor ⊆ visited := by
  obtain ⟨-,-,⟨-,rfl⟩ | ⟨-,rest,-,-,rfl⟩⟩ := visit_cases h
  · exact List.Subset.refl _
  · exact List.subset_append_left _ _

/-- Rows after a row that is after a cursor are after the cursor. -/
def Ascending (after : α → κ → Bool) (key : α → κ) : Prop :=
  ∀ row last cursor, after row (key last) = true → after last cursor = true →
    after row cursor = true

theorem visit_after (hascending : Ascending after key)
    (h : visit after key limit rows fuel cursor = some visited) {row : α} (hrow : row ∈ visited) :
    row ∈ rows ∧ cursor.all (after row) = true := by
  induction fuel generalizing cursor visited with
  | zero => cases h
  | succ fuel ih =>
    obtain ⟨fewer,hfuel,⟨-,rfl⟩ | ⟨next,rest,hnext,hrest,rfl⟩⟩ := visit_cases h
    · exact mem_page hrow
    · cases hfuel
      rcases List.mem_append.mp hrow with hrow | hrow
      · exact mem_page hrow
      · obtain ⟨hmem,hafter⟩ := ih hrest hrow
        obtain ⟨-,last,hlast,-,rfl⟩ := nextCursor_eq_some hnext
        refine ⟨hmem,?_⟩
        cases cursor with
        | none => rfl
        | some cursor => exact hascending row last cursor hafter (mem_page hlast).2

theorem visit_ends (hascending : Ascending after key) (hself : ∀ row, after row (key row) = false)
    (h : (rows.filter fun row => cursor.all (after row)).length < fuel) :
    ∃ visited, visit after key limit rows fuel cursor = some visited := by
  induction fuel generalizing cursor with
  | zero => cases h
  | succ fuel ih =>
    rw [visit]
    cases hnext : nextCursor key limit (page after limit rows cursor) with
    | none => exact ⟨_,rfl⟩
    | some next =>
      obtain ⟨-,last,hlast,-,rfl⟩ := nextCursor_eq_some hnext
      obtain ⟨hmem,hafter⟩ := mem_page hlast
      have hfewer : (rows.filter fun row => (some (key last)).all (after row)).length <
          (rows.filter fun row => cursor.all (after row)).length := by
        have hsub : (rows.filter fun row => (some (key last)).all (after row)) =
            (rows.filter fun row => cursor.all (after row)).filter
              fun row => (some (key last)).all (after row) := by
          rw [List.filter_filter]
          refine List.filter_congr fun row hrow => ?_
          cases cursor with
          | none => simp
          | some cursor =>
            have := hascending row last cursor
            cases hrowLast : after row (key last) with
            | false => simp [hrowLast]
            | true => simp [hrowLast,this hrowLast hafter]
        rw [hsub]
        refine List.length_filter_lt_length_iff_exists.mpr
          ⟨last,List.mem_filter.mpr ⟨hmem,hafter⟩,?_⟩
        simp [hself]
      obtain ⟨rest,hrest⟩ : ∃ rest, visit after key limit rows fuel (some (key last)) = some rest :=
        ih (by omega)
      exact ⟨page after limit rows cursor ++ rest,by simp only [hrest,Option.map_some]⟩

/-- The page of a cursor that leaves the rows from `m` on. -/
theorem page_eq_of_drop {m : Nat}
    (h : (rows.filter fun row => cursor.all (after row)) = rows.drop m) :
    page after limit rows cursor = (rows.drop m).take limit := by
  rw [page,h]

/-- A row of the page that is also after the page's cursor is visited again: fewer than `limit` such
rows stand before it. -/
theorem mem_next_page {m : Nat} {next : κ}
    (h : (rows.filter fun row => cursor.all (after row)) = rows.drop m)
    (hearlier : ∀ row, after row next = true → cursor.all (after row) = true) {row : α}
    (hrow : row ∈ page after limit rows cursor) (hafter : after row next = true) :
    row ∈ page after limit rows (some next) := by
  have hkept : rows.filter (fun row => (some next).all (after row)) =
      (rows.drop m).filter fun row => after row next := by
    rw [← h,List.filter_filter]
    refine List.filter_congr fun a _ => ?_
    cases ha : after a next with
    | false => simp [ha]
    | true => simp [ha,hearlier a ha]
  rw [page_eq_of_drop h] at hrow
  rw [page,hkept,← List.take_append_drop limit (rows.drop m),List.filter_append]
  have hlength : (((rows.drop m).take limit).filter fun row => after row next).length ≤ limit :=
    (List.length_filter_le _ _).trans (List.length_take_le _ _)
  rw [List.take_append,List.take_of_length_le hlength]
  exact List.mem_append_left _ (List.mem_filter.mpr ⟨hrow,hafter⟩)

theorem index_unique (hnodup : rows.Nodup) {i j : Nat} {row : α} (hi : rows[i]? = some row)
    (hj : rows[j]? = some row) : i = j :=
  (List.getElem?_inj (List.getElem?_eq_some_iff.mp hi).1 hnodup).mp (hi.trans hj.symm)

theorem mem_drop_iff (hnodup : rows.Nodup) {i m : Nat} {row : α} (hi : rows[i]? = some row) :
    row ∈ rows.drop m ↔ m ≤ i := by
  constructor
  · intro hmem
    obtain ⟨k,hk⟩ := List.getElem?_of_mem hmem
    rw [List.getElem?_drop] at hk
    have := index_unique hnodup hi hk
    omega
  · intro hle
    refine List.mem_of_getElem? (i := i - m) ?_
    rw [List.getElem?_drop,Nat.add_sub_of_le hle,hi]

theorem mem_take_drop_iff (hnodup : rows.Nodup) {i m n : Nat} {row : α} (hi : rows[i]? = some row) :
    row ∈ (rows.drop m).take n ↔ m ≤ i ∧ i < m + n := by
  constructor
  · intro hmem
    obtain ⟨k,hk⟩ := List.getElem?_of_mem hmem
    have hkn : k < n := by
      have := (List.getElem?_eq_some_iff.mp hk).1
      rw [List.length_take] at this
      omega
    rw [List.getElem?_take_of_lt hkn,List.getElem?_drop] at hk
    have := index_unique hnodup hi hk
    omega
  · rintro ⟨hle,hlt⟩
    refine List.mem_of_getElem? (i := i - m) ?_
    rw [List.getElem?_take_of_lt (by omega),List.getElem?_drop,Nat.add_sub_of_le hle,hi]

/-- From a cursor that leaves the rows from `m` on, each of them is visited once exactly when every
later full page ends where the rows after its cursor start. -/
theorem visit_perm_iff (hlimit : 0 < limit) (hascending : Ascending after key)
    (hnodup : rows.Nodup) {m : Nat} (hm : m ≤ rows.length)
    (hcursor : (rows.filter fun row => cursor.all (after row)) = rows.drop m)
    (h : visit after key limit rows fuel cursor = some visited) :
    visited.Perm (rows.drop m) ↔
      ∀ k ≥ 1, m + k * limit ≤ rows.length → CutsAt after key rows (m + k * limit) := by
  induction fuel generalizing m cursor visited with
  | zero => cases h
  | succ fuel ih =>
    have hpage : page after limit rows cursor = (rows.drop m).take limit := page_eq_of_drop hcursor
    have hpageLength : (page after limit rows cursor).length = min limit (rows.length - m) := by
      rw [hpage,List.length_take,List.length_drop]
    obtain ⟨fewer,hfuel,⟨hnone,rfl⟩ | ⟨next,rest,hnext,hrest,rfl⟩⟩ := visit_cases h
    · -- the last page holds all the rows that are left
      have hshort := nextCursor_eq_none hlimit hnone
      constructor
      · intro _ k hk hle
        have := Nat.le_mul_of_pos_left limit hk
        omega
      · intro _
        rw [hpage,List.take_of_length_le (by rw [List.length_drop]; omega)]
    · cases hfuel
      obtain ⟨hfull,last,hlast,hlastAt,rfl⟩ := nextCursor_eq_some hnext
      have hle : m + limit ≤ rows.length := by omega
      have hearlier : ∀ row, after row (key last) = true → cursor.all (after row) = true := by
        intro row hrow
        cases cursor with
        | none => rfl
        | some cursor => exact hascending row last cursor hrow (mem_page hlast).2
      have hat : rows[m + limit - 1]? = some last := by
        rw [hpage,List.getElem?_take_of_lt (by omega),List.getElem?_drop] at hlastAt
        rw [← hlastAt,Nat.add_sub_assoc hlimit]
      by_cases hcut : CutsAt after key rows (m + limit)
      · have hleft : (rows.filter fun row => (some (key last)).all (after row)) =
            rows.drop (m + limit) := filter_eq_drop (hcut last hat)
        have hsplit : rows.drop m = page after limit rows cursor ++ rows.drop (m + limit) := by
          rw [hpage,← List.drop_drop,List.take_append_drop]
        rw [hsplit,List.perm_append_left_iff,ih hle hleft hrest]
        constructor
        · intro hrest k hk hkle
          obtain ⟨k,rfl⟩ := Nat.exists_eq_add_of_le' hk
          rw [Nat.add_mul,Nat.one_mul,← Nat.add_assoc,Nat.add_right_comm] at hkle ⊢
          by_cases hk0 : k = 0
          · subst hk0
            simpa using hcut
          · exact hrest k (by omega) hkle
        · intro hall k hk hkle
          have := hall (k + 1) (by omega)
          rw [Nat.add_mul,Nat.one_mul,← Nat.add_assoc,Nat.add_right_comm] at this
          exact this hkle
      · refine iff_of_false (fun hperm => hcut ?_) fun hall => hcut ?_
        · intro last' hlast' i row hi
          rw [hat] at hlast'
          cases hlast'
          by_cases hafter : after row (key last) = true
          · refine iff_of_true hafter ?_
            by_contra hbefore
            -- the row stands on the page and on the next one
            have hin : m ≤ i := by
              refine (mem_drop_iff hnodup hi).mp ?_
              rw [← hcursor]
              exact List.mem_filter.mpr ⟨List.mem_of_getElem? hi,hearlier row hafter⟩
            have hrow : row ∈ page after limit rows cursor := by
              rw [hpage]
              exact (mem_take_drop_iff hnodup hi).mpr ⟨hin,by omega⟩
            have hagain := page_subset_visit hrest (mem_next_page hcursor hearlier hrow hafter)
            have hdistinct := hperm.nodup_iff.mpr (hnodup.sublist (List.drop_sublist m rows))
            exact (List.disjoint_of_nodup_append hdistinct) hrow hagain
          · refine iff_of_false hafter fun hbehind => ?_
            -- the row stands on no page
            have hmem : row ∈ page after limit rows cursor ++ rest :=
              hperm.mem_iff.mpr ((mem_drop_iff hnodup hi).mpr (by omega))
            rcases List.mem_append.mp hmem with hrow | hrow
            · rw [hpage] at hrow
              have := (mem_take_drop_iff hnodup hi).mp hrow
              omega
            · exact hafter (visit_after hascending hrest hrow).2
        · have := hall 1 (by omega)
          rw [Nat.one_mul] at this
          exact this hle

end Visit

end Paging
