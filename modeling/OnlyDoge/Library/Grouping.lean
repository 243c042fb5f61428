import OnlyDoge.Library.OrderedMap
set_option autoImplicit false

/-!
Rows grouped by a key in two ways: one entry for each key, and a map that is built up row by
row. A finer key gives the same entries when the coarse key determines it. Pages of a list.
-/

namespace Grouping
variable {ρ κ τ ν : Type} [DecidableEq κ]

/-- One entry for each key, made from the rows that carry it. -/
def groupBy (key : ρ → κ) (make : κ → List ρ → τ) (rows : List ρ) : List τ :=
  (OrderedMap.distinct (rows.map key)).map (fun k => make k (rows.filter (fun r => key r = k)))

theorem mem_groupBy {key : ρ → κ} {make : κ → List ρ → τ} {rows : List ρ} {t : τ} :
    t ∈ groupBy key make rows ↔
      ∃ r ∈ rows, t = make (key r) (rows.filter (fun x => key x = key r)) := by
  simp only [groupBy,List.mem_map,OrderedMap.mem_distinct]
  constructor
  · rintro ⟨k,⟨r,hr,rfl⟩,rfl⟩
    exact ⟨r,hr,rfl⟩
  · rintro ⟨r,hr,rfl⟩
    exact ⟨key r,⟨r,hr,rfl⟩,rfl⟩

theorem groupBy_nodup {key : ρ → κ} {make : κ → List ρ → τ} {rows : List ρ} (label : τ → κ)
    (h : ∀ k rs, label (make k rs) = k) : (groupBy key make rows).Nodup := by
  refine List.Nodup.map ?_ (OrderedMap.nodup_distinct _)
  intro k k' hk
  have := congrArg label hk
  rwa [h,h] at this

theorem length_groupBy_le (key : ρ → κ) (make : κ → List ρ → τ) (rows : List ρ) :
    (groupBy key make rows).length ≤ rows.length := by
  simp only [groupBy,List.length_map,OrderedMap.distinct,List.length_reverse]
  exact Nat.le_trans (List.dedup_sublist _).length_le (by simp)

/-- A map that starts an entry at the first row of a key and steps it at every row. -/
def accumulate (key : ρ → κ) (start : ρ → ν) (step : ν → ρ → ν) (rows : List ρ) :
    OrderedMap κ ν :=
  rows.foldl (fun m r => m.set (key r) (step ((m.get (key r)).getD (start r)) r)) .empty

/-- What the rows of a key make of an entry that may be there already. -/
def stepAll (start : ρ → ν) (step : ν → ρ → ν) : Option ν → List ρ → Option ν
  | entry,[] => entry
  | entry,r::rows => stepAll start step (some (step (entry.getD (start r)) r)) rows

theorem get_foldl_accumulate (key : ρ → κ) (start : ρ → ν) (step : ν → ρ → ν) (rows : List ρ)
    (m : OrderedMap κ ν) (k : κ) :
    (rows.foldl (fun m r => m.set (key r) (step ((m.get (key r)).getD (start r)) r)) m).get k =
      stepAll start step (m.get k) (rows.filter (fun r => key r = k)) := by
  induction rows generalizing m with
  | nil => rfl
  | cons r rows ih =>
    rw [List.foldl_cons,ih,OrderedMap.get_set]
    by_cases h : key r = k
    · subst h
      simp [stepAll]
    · simp [h]

theorem get_accumulate (key : ρ → κ) (start : ρ → ν) (step : ν → ρ → ν) (rows : List ρ) (k : κ) :
    (accumulate key start step rows).get k =
      stepAll start step none (rows.filter (fun r => key r = k)) :=
  get_foldl_accumulate key start step rows .empty k

theorem stepAll_some (start : ρ → ν) (step : ν → ρ → ν) (v : ν) (rows : List ρ) :
    stepAll start step (some v) rows = some (rows.foldl step v) := by
  induction rows generalizing v with
  | nil => rfl
  | cons r rows ih => exact ih (step v r)

/-- The pages of a list, each of `limit` entries, up to the page `n`. -/
def pages {α : Type} (page : Nat → List α) (limit n : Nat) : List α :=
  (List.range n).flatMap (fun i => page (i * limit))

theorem pages_eq_take {α : Type} (rows : List α) (limit n : Nat) :
    pages (fun offset => (rows.drop offset).take limit) limit n = rows.take (n * limit) := by
  induction n with
  | zero => simp [pages]
  | succ n ih =>
    have hsucc : pages (fun offset => (rows.drop offset).take limit) limit (n + 1) =
        pages (fun offset => (rows.drop offset).take limit) limit n ++
          (rows.drop (n * limit)).take limit := by
      simp [pages,List.range_succ]
    rw [hsucc,ih,Nat.succ_mul,List.take_add]

theorem pages_eq {α : Type} {rows : List α} {limit n : Nat} (hlimit : 0 < limit)
    (hn : rows.length ≤ n) :
    pages (fun offset => (rows.drop offset).take limit) limit n = rows := by
  rw [pages_eq_take,List.take_of_length_le]
  exact Nat.le_trans hn (Nat.le_mul_of_pos_right n hlimit)

end Grouping
