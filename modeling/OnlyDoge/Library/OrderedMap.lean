import Mathlib.Data.List.Dedup
set_option autoImplicit false

/-- A map that keeps its entries in the order of their first insertion. -/
structure OrderedMap (κ ν : Type) where
  entries : List (κ × ν)
  nodup : (entries.map Prod.fst).Nodup

namespace OrderedMap
variable {κ ν : Type}

def empty : OrderedMap κ ν := ⟨[],List.nodup_nil⟩

def values (m : OrderedMap κ ν) : List ν := m.entries.map Prod.snd

variable [DecidableEq κ]

def lookup : List (κ × ν) → κ → Option ν
  | [],_ => none
  | (j,v)::rest,k => if j = k then some v else lookup rest k

def put : List (κ × ν) → κ → ν → List (κ × ν)
  | [],k,v => [(k,v)]
  | (j,w)::rest,k,v => if j = k then (k,v)::rest else (j,w)::put rest k v

theorem mem_put_keys {es : List (κ × ν)} {k j : κ} {v : ν} :
    j ∈ (put es k v).map Prod.fst ↔ j = k ∨ j ∈ es.map Prod.fst := by
  induction es with
  | nil => simp [put]
  | cons e es ih =>
    obtain ⟨i,w⟩ := e
    by_cases h : i = k
    · subst h
      simp [put]
    · simp only [put,h,if_false,List.map_cons,List.mem_cons,ih]
      tauto

theorem put_nodup {es : List (κ × ν)} {k : κ} {v : ν} (h : (es.map Prod.fst).Nodup) :
    ((put es k v).map Prod.fst).Nodup := by
  induction es with
  | nil => simp [put]
  | cons e es ih =>
    obtain ⟨i,w⟩ := e
    simp only [List.map_cons,List.nodup_cons] at h
    by_cases hi : i = k
    · subst hi
      simpa [put] using h
    · simp only [put,hi,if_false,List.map_cons,List.nodup_cons,mem_put_keys,
        false_or]
      exact ⟨h.1,ih h.2⟩

def get (m : OrderedMap κ ν) (k : κ) : Option ν := lookup m.entries k

def set (m : OrderedMap κ ν) (k : κ) (v : ν) : OrderedMap κ ν :=
  ⟨put m.entries k v,put_nodup m.nodup⟩

def ofEntries (es : List (κ × ν)) : OrderedMap κ ν :=
  es.foldl (fun m e => m.set e.1 e.2) empty

/-- The values in the order of their first occurrence, as in `[...new Set(xs)]`. -/
def distinct (xs : List κ) : List κ := xs.reverse.dedup.reverse

@[simp] theorem mem_distinct {xs : List κ} {k : κ} : k ∈ distinct xs ↔ k ∈ xs := by
  simp [distinct]

theorem nodup_distinct (xs : List κ) : (distinct xs).Nodup :=
  List.nodup_reverse.mpr (List.nodup_dedup _)

@[simp] theorem get_empty (k : κ) : (empty : OrderedMap κ ν).get k = none := rfl

theorem lookup_put {es : List (κ × ν)} {k j : κ} {v : ν} :
    lookup (put es k v) j = if k = j then some v else lookup es j := by
  induction es with
  | nil => rfl
  | cons e es ih =>
    obtain ⟨i,w⟩ := e
    by_cases hi : i = k
    · subst hi
      by_cases hj : i = j <;> simp [put,lookup,hj]
    · by_cases hj : i = j
      · subst hj
        simp [put,lookup,hi,Ne.symm hi]
      · simp [put,lookup,hi,hj,ih]

theorem get_set (m : OrderedMap κ ν) (k j : κ) (v : ν) :
    (m.set k v).get j = if k = j then some v else m.get j :=
  lookup_put

@[simp] theorem get_set_self (m : OrderedMap κ ν) (k : κ) (v : ν) :
    (m.set k v).get k = some v := by
  simp [get_set]

theorem get_set_ne (m : OrderedMap κ ν) {k j : κ} (v : ν) (h : k ≠ j) :
    (m.set k v).get j = m.get j := by
  simp [get_set,h]

theorem lookup_eq_some {es : List (κ × ν)} (h : (es.map Prod.fst).Nodup) {k : κ} {v : ν} :
    lookup es k = some v ↔ (k,v) ∈ es := by
  induction es with
  | nil => simp [lookup]
  | cons e es ih =>
    obtain ⟨i,w⟩ := e
    simp only [List.map_cons,List.nodup_cons] at h
    by_cases hi : i = k
    · subst hi
      simp only [lookup,if_true,Option.some.injEq,List.mem_cons,Prod.mk.injEq,true_and]
      refine ⟨fun hw => Or.inl hw.symm,?_⟩
      rintro (hw | hm)
      · exact hw.symm
      · exact absurd (List.mem_map.mpr ⟨_,hm,rfl⟩) h.1
    · simp [lookup,hi,ih h.2,Ne.symm hi]

theorem get_eq_some {m : OrderedMap κ ν} {k : κ} {v : ν} :
    m.get k = some v ↔ (k,v) ∈ m.entries :=
  lookup_eq_some m.nodup

theorem mem_values {m : OrderedMap κ ν} {v : ν} : v ∈ m.values ↔ ∃ k, m.get k = some v := by
  simp [values,get_eq_some]

theorem get_eq_none {m : OrderedMap κ ν} {k : κ} :
    m.get k = none ↔ k ∉ m.entries.map Prod.fst := by
  simp [Option.eq_none_iff_forall_ne_some,get_eq_some]

/-- Of several entries with one key the last one stays, as in `new Map(entries)`. -/
theorem get_foldl_set (es : List (κ × ν)) (m : OrderedMap κ ν) (k : κ) :
    (es.foldl (fun m e => m.set e.1 e.2) m).get k =
      ((es.reverse.find? (fun e => e.1 = k)).map Prod.snd).or (m.get k) := by
  induction es generalizing m with
  | nil => simp
  | cons e es ih =>
    rw [List.foldl_cons,ih,get_set]
    simp only [List.reverse_cons,List.find?_append]
    cases List.find? (fun e => e.1 = k) es.reverse with
    | some x => simp
    | none => by_cases h : e.1 = k <;> simp [h]

theorem get_ofEntries_eq_none {es : List (κ × ν)} {k : κ} :
    (ofEntries es).get k = none ↔ ∀ e ∈ es, e.1 ≠ k := by
  simp [ofEntries,get_foldl_set]

theorem get_ofEntries_of_mem {es : List (κ × ν)} {k : κ} {v : ν}
    (h : (ofEntries es).get k = some v) : (k,v) ∈ es := by
  simp only [ofEntries,get_foldl_set,get_empty,Option.or_none,Option.map_eq_some_iff] at h
  obtain ⟨e,he,rfl⟩ := h
  have hk : e.1 = k := by simpa using List.find?_some he
  subst hk
  exact List.mem_reverse.mp (List.mem_of_find?_eq_some he)

theorem get_ofEntries {es : List (κ × ν)} (h : (es.map Prod.fst).Nodup) {k : κ} {v : ν} :
    (ofEntries es).get k = some v ↔ (k,v) ∈ es := by
  refine ⟨get_ofEntries_of_mem,fun hm => ?_⟩
  cases hg : (ofEntries es).get k with
  | none => exact absurd rfl (get_ofEntries_eq_none.mp hg _ hm)
  | some w =>
    have := List.inj_on_of_nodup_map h (get_ofEntries_of_mem hg) hm rfl
    simp_all

theorem put_new {es : List (κ × ν)} {k : κ} {v : ν} (h : k ∉ es.map Prod.fst) :
    put es k v = es ++ [(k,v)] := by
  induction es with
  | nil => rfl
  | cons e es ih =>
    obtain ⟨hk,hes⟩ := not_or.mp (fun hmem => h (List.mem_cons.mpr hmem))
    rw [put,if_neg (fun heq => hk heq.symm),ih hes]
    rfl

theorem entries_ofEntries {es : List (κ × ν)} (h : (es.map Prod.fst).Nodup) :
    (ofEntries es).entries = es := by
  suffices hfold : ∀ m : OrderedMap κ ν, ((m.entries ++ es).map Prod.fst).Nodup →
      (es.foldl (fun m e => m.set e.1 e.2) m).entries = m.entries ++ es by
    simpa [ofEntries,empty] using hfold .empty (by simpa [empty] using h)
  clear h
  induction es with
  | nil =>
    intro m _
    rw [List.append_nil]
    rfl
  | cons e es ih =>
    intro m hm
    have hnew : (m.set e.1 e.2).entries = m.entries ++ [e] := by
      refine put_new fun hmem => ?_
      rw [List.map_append,List.nodup_append] at hm
      exact hm.2.2 _ hmem _ List.mem_cons_self rfl
    rw [List.foldl_cons,ih,hnew,List.append_assoc]
    · rfl
    · rw [hnew,List.append_assoc]
      exact hm

theorem get_ofEntries_filterMap {keys : List κ} {f : κ → Option ν} {k : κ} {v : ν} :
    (ofEntries (keys.filterMap (fun k => (f k).map (fun v => (k,v))))).get k = some v ↔
      k ∈ keys ∧ f k = some v := by
  have hmem : ∀ e : κ × ν, e ∈ keys.filterMap (fun k => (f k).map (fun v => (k,v))) ↔
      e.1 ∈ keys ∧ f e.1 = some e.2 := by
    rintro ⟨j,w⟩
    simp only [List.mem_filterMap,Option.map_eq_some_iff,Prod.mk.injEq]
    constructor
    · rintro ⟨i,hi,u,hu,rfl,rfl⟩
      exact ⟨hi,hu⟩
    · rintro ⟨hj,hw⟩
      exact ⟨j,hj,w,hw,rfl,rfl⟩
  constructor
  · exact fun h => (hmem _).mp (get_ofEntries_of_mem h)
  · rintro ⟨hk,hv⟩
    cases hg : (ofEntries (keys.filterMap (fun k => (f k).map (fun v => (k,v))))).get k with
    | none => exact absurd rfl (get_ofEntries_eq_none.mp hg (k,v) ((hmem _).mpr ⟨hk,hv⟩))
    | some w =>
      have hw := ((hmem _).mp (get_ofEntries_of_mem hg)).2
      rw [hv] at hw
      exact hw.symm

theorem values_map_key {m : OrderedMap κ ν} {key : ν → κ}
    (h : ∀ k v, m.get k = some v → key v = k) : m.values.map key = m.entries.map Prod.fst := by
  rw [values,List.map_map]
  exact List.map_congr_left (fun e he => h e.1 e.2 (get_eq_some.mpr he))

end OrderedMap
