import OnlyDoge.Warehouse.Materialization
import OnlyDoge.Library.Pieces
import Mathlib.Data.String.Basic
set_option autoImplicit false

/-!
The key ranges of a materialization (`buildCoreCurrentStateOutputKeyRanges`,
`stringRangesFromBoundaries`) are the pieces between consecutive bounds.
-/

namespace OnlyDoge
open Pieces HexText

theorem charsBefore_iff (left right : List Char) : charsBefore left right ↔ left < right := by
  induction left generalizing right with
  | nil =>
    cases right with
    | nil => simp [charsBefore]
    | cons b right => simp [charsBefore]
  | cons a left ih =>
    cases right with
    | nil => simp [charsBefore]
    | cons b right =>
      rw [List.cons_lt_cons_iff,charsBefore]
      by_cases h : a = b
      · simp [h,ih]
      · simp [h,Char.lt_def]

theorem textBefore_iff (left right : String) : textBefore left right ↔ left < right := by
  rw [textBefore,charsBefore_iff,String.lt_iff_toList_lt]

theorem textBefore_eq_false_iff (left right : String) :
    textBefore left right = false ↔ right ≤ left := by
  rw [← Bool.not_eq_true,textBefore_iff,not_lt]

theorem contains_iff (range : ClickHouseStringRange) (text : String) :
    range.contains text ↔ Inside text (range.start,range.end) := by
  obtain ⟨start,stop⟩ := range
  unfold ClickHouseStringRange.contains Inside
  cases start <;> cases stop <;> simp [textBefore_eq_false_iff,textBefore_iff]

theorem stringRangesFrom_eq (start : Option String) (boundaries : List String) :
    (stringRangesFrom start boundaries).map (fun range => (range.start,range.end)) =
      pieces start boundaries := by
  induction boundaries generalizing start with
  | nil => rfl
  | cons boundary boundaries ih =>
    rw [stringRangesFrom,List.map_cons,ih]
    rfl

theorem countP_stringRangesFrom (start : Option String) (boundaries : List String)
    (text : String) :
    (stringRangesFrom start boundaries).countP (·.contains text) =
      (pieces start boundaries).countP (fun piece => Inside text piece) := by
  rw [← stringRangesFrom_eq,List.countP_map]
  refine List.countP_congr (fun range _ => ?_)
  simp [contains_iff]

theorem stringRangesFrom_cover (boundaries : List String) (text : String) :
    ∃ range ∈ stringRangesFrom none boundaries, range.contains text := by
  obtain ⟨piece,hmem,hin⟩ := exists_inside boundaries text
  rw [← stringRangesFrom_eq] at hmem
  obtain ⟨range,hrange,rfl⟩ := List.mem_map.mp hmem
  exact ⟨range,hrange,(contains_iff range text).mpr hin⟩

theorem stringRangesFrom_countP_iff (boundaries : List String) :
    (∀ text, (stringRangesFrom none boundaries).countP (·.contains text) = 1) ↔
      boundaries.Pairwise (· ≤ ·) := by
  rw [← countP_eq_one_iff]
  simp only [countP_stringRangesFrom]

theorem stringRangesFromBoundaries_cover (boundaries : List String) (text : String) :
    ∃ range ∈ stringRangesFromBoundaries boundaries, range.contains text :=
  stringRangesFrom_cover _ text

theorem digitChar_lt {m n : Nat} (h : m < n) (hn : n < 16) :
    Nat.digitChar m < Nat.digitChar n := by
  have hall : ∀ n : Fin 16, ∀ m : Fin 16, m < n → Nat.digitChar m < Nat.digitChar n := by decide
  exact hall ⟨n,hn⟩ ⟨m,h.trans hn⟩ h

theorem digitChar_lt_g {n : Nat} (h : n < 16) : Nat.digitChar n < 'g' := by
  have hall : ∀ n : Fin 16, Nat.digitChar n < 'g' := by decide
  exact hall ⟨n,h⟩

theorem hexText_succ (width value : Nat) (hwidth : 0 < width) :
    (hexText (width + 1) value).toList =
      (hexText width (value / 16)).toList ++ [Nat.digitChar (value % 16)] := by
  unfold hexText padStart
  simp only [String.toList_ofList]
  by_cases h : value < 16
  · have hdiv : value / 16 = 0 := by omega
    have hmod : value % 16 = value := by omega
    rw [Nat.toDigits_of_lt_base h,hdiv,hmod,Nat.toDigits_zero]
    have hrep : List.replicate width '0' = List.replicate (width - 1) '0' ++ ['0'] := by
      rw [← List.replicate_succ',Nat.sub_add_cancel hwidth]
    simp [hrep]
  · rw [Nat.toDigits_of_base_le (by omega) (by omega : 16 ≤ value)]
    simp

theorem hexText_one {value : Nat} (h : value < 16) :
    (hexText 1 value).toList = [Nat.digitChar value] := by
  unfold hexText padStart
  simp [Nat.toDigits_of_lt_base h]

theorem hexText_length {width value : Nat} (h : value < 16 ^ (width + 1)) :
    (hexText (width + 1) value).toList.length = width + 1 := by
  have hlen := (Nat.length_toDigits_le_iff (b := 16) (n := value) (by omega)
    (Nat.succ_pos width)).mpr h
  unfold hexText padStart
  simp only [String.toList_ofList,List.length_append,List.length_replicate]
  omega

theorem append_lt_append {xs ys : List Char} (as bs : List Char) (hlen : xs.length = ys.length)
    (h : xs < ys) : xs ++ as < ys ++ bs := by
  induction xs generalizing ys with
  | nil =>
    cases ys with
    | nil => exact absurd h (lt_irrefl _)
    | cons y ys => simp at hlen
  | cons x xs ih =>
    cases ys with
    | nil => simp at hlen
    | cons y ys =>
      simp only [List.cons_append,List.cons_lt_cons_iff] at h ⊢
      rcases h with hlt | ⟨rfl,hrest⟩
      · exact .inl hlt
      · exact .inr ⟨rfl,ih (by simpa using hlen) hrest⟩

theorem hexText_lt {width m n : Nat} (h : m < n) (hn : n < 16 ^ (width + 1)) :
    (hexText (width + 1) m).toList < (hexText (width + 1) n).toList := by
  induction width generalizing m n with
  | zero =>
    rw [hexText_one hn,hexText_one (h.trans hn)]
    exact List.cons_lt_cons_iff.mpr (.inl (digitChar_lt h hn))
  | succ width ih =>
    rw [hexText_succ _ m (Nat.succ_pos width),hexText_succ _ n (Nat.succ_pos width)]
    have hquot : n / 16 < 16 ^ (width + 1) := by
      rw [Nat.div_lt_iff_lt_mul (by omega),← Nat.pow_succ]
      exact hn
    rcases Nat.lt_or_eq_of_le (Nat.div_le_div_right (c := 16) h.le) with hlt | heq
    · refine append_lt_append _ _ ?_ (ih hlt hquot)
      rw [hexText_length hquot,hexText_length (hlt.trans hquot)]
    · have hmod : m % 16 < n % 16 := by omega
      rw [heq]
      exact List.append_left_lt (List.cons_lt_cons_iff.mpr
        (.inl (digitChar_lt hmod (Nat.mod_lt n (by omega)))))

theorem hexText_lt_g {width n : Nat} (hn : n < 16 ^ (width + 1)) :
    (hexText (width + 1) n).toList < ['g'] := by
  induction width generalizing n with
  | zero =>
    rw [hexText_one hn]
    exact List.cons_lt_cons_iff.mpr (.inl (digitChar_lt_g hn))
  | succ width ih =>
    have hquot : n / 16 < 16 ^ (width + 1) := by
      rw [Nat.div_lt_iff_lt_mul (by omega),← Nat.pow_succ]
      exact hn
    have hprefix := ih hquot
    have hlen := hexText_length hquot
    rw [hexText_succ _ n (Nat.succ_pos width)]
    cases hcs : (hexText (width + 1) (n / 16)).toList with
    | nil => simp [hcs] at hlen
    | cons c cs =>
      rw [hcs] at hprefix
      rcases List.cons_lt_cons_iff.mp hprefix with hlt | ⟨-,hnil⟩
      · exact List.cons_lt_cons_iff.mpr (.inl hlt)
      · exact absurd hnil (List.not_lt_nil _)

/-- The bucket bounds in order, closed by the text above every hexadecimal digit. -/
def outputKeyBounds (prefixLength : Nat) : List String :=
  (List.range (16 ^ prefixLength)).map (hexText prefixLength) ++ ["g"]

theorem outputKeyBounds_ascending (width : Nat) :
    (outputKeyBounds (width + 1)).Pairwise (· < ·) := by
  unfold outputKeyBounds
  rw [List.pairwise_append]
  refine ⟨?_,List.pairwise_singleton _ _,?_⟩
  · rw [List.pairwise_map]
    refine List.pairwise_lt_range.imp_of_mem (fun _ hn hlt => ?_)
    exact String.lt_iff_toList_lt.mpr (hexText_lt hlt (List.mem_range.mp hn))
  · intro text htext stop hstop
    obtain ⟨n,hn,rfl⟩ := List.mem_map.mp htext
    rw [List.mem_singleton.mp hstop]
    exact String.lt_iff_toList_lt.mpr (hexText_lt_g (List.mem_range.mp hn))

theorem hexText_zero (width : Nat) :
    hexText (width + 1) 0 = String.ofList (List.replicate (width + 1) '0') := by
  unfold hexText padStart
  rw [Nat.toDigits_zero,List.replicate_succ']
  rfl

theorem stringRangesFrom_buckets (buckets width count first : Nat)
    (h : first + count = buckets) (hcount : 0 < count) :
    stringRangesFrom (some (hexText width first))
        ((List.range' (first + 1) (count - 1)).map (hexText width) ++ ["g"]) =
      (List.range' first count).map (coreCurrentStateOutputRange buckets width) ++
        [⟨some "g",none⟩] := by
  induction count generalizing first with
  | zero => omega
  | succ count ih =>
    cases count with
    | zero =>
      simp [stringRangesFrom,coreCurrentStateOutputRange,h]
    | succ count =>
      have hrest := ih (first + 1) (by omega) (by omega)
      have hne : ¬first + 1 = buckets := by omega
      simp only [Nat.add_sub_cancel] at hrest ⊢
      rw [List.range'_succ,List.range'_succ,List.map_cons,List.cons_append,stringRangesFrom,hrest]
      simp [coreCurrentStateOutputRange,hne]

theorem outputKeyRanges_eq (width : Nat) :
    buildCoreCurrentStateOutputKeyRanges (width + 1) =
      stringRangesFrom none (outputKeyBounds (width + 1)) := by
  have hpos : 0 < 16 ^ (width + 1) := Nat.pow_pos (by omega)
  have hbuckets := stringRangesFrom_buckets _ (width + 1) _ 0 (Nat.zero_add _) hpos
  have hrange : List.range (16 ^ (width + 1)) =
      0::List.range' (0 + 1) (16 ^ (width + 1) - 1) := by
    rw [← List.range'_succ,Nat.sub_add_cancel hpos,← List.range_eq_range']
  unfold outputKeyBounds
  rw [hrange,List.map_cons,List.cons_append,stringRangesFrom,hbuckets,hexText_zero,
    ← List.range_eq_range']
  rfl

theorem outputKeyRanges_partition (width : Nat) (text : String) :
    (buildCoreCurrentStateOutputKeyRanges (width + 1)).countP (·.contains text) = 1 := by
  rw [outputKeyRanges_eq]
  refine (stringRangesFrom_countP_iff _).mpr ?_ text
  exact (outputKeyBounds_ascending width).imp le_of_lt

theorem outputKeyRanges_cover (width : Nat) (text : String) :
    ∃ range ∈ buildCoreCurrentStateOutputKeyRanges (width + 1), range.contains text := by
  rw [outputKeyRanges_eq]
  exact stringRangesFrom_cover _ text

theorem coreCurrentStateRanges_cover (createdOutputRows : Nat) (text : String) :
    ∃ range ∈ buildCoreCurrentStateOutputKeyRanges
      (coreCurrentStateRangePrefixLength createdOutputRows), range.contains text := by
  unfold coreCurrentStateRangePrefixLength
  split
  · exact outputKeyRanges_cover 2 text
  · exact outputKeyRanges_cover 1 text

theorem stringRangesFromBoundaries_partition_iff (boundaries : List String) :
    (∀ text, (stringRangesFromBoundaries boundaries).countP (·.contains text) = 1) ↔
      (sortedBoundaries boundaries).Pairwise (· ≤ ·) :=
  stringRangesFrom_countP_iff _

theorem unitsBefore_iff (left right : List Nat) : unitsBefore left right ↔ left < right := by
  induction left generalizing right with
  | nil =>
    cases right with
    | nil => simp [unitsBefore]
    | cons b right => simp [unitsBefore]
  | cons a left ih =>
    cases right with
    | nil => simp [unitsBefore]
    | cons b right =>
      rw [List.cons_lt_cons_iff,unitsBefore]
      by_cases h : a = b
      · simp [h,ih]
      · simp [h]

theorem unitsBefore_map_toNat (left right : List Char) :
    unitsBefore (left.map Char.toNat) (right.map Char.toNat) = charsBefore left right := by
  induction left generalizing right with
  | nil => cases right <;> rfl
  | cons a left ih =>
    cases right with
    | nil => rfl
    | cons b right =>
      by_cases h : a = b
      · simp [unitsBefore,charsBefore,h,ih]
      · have hne : a.toNat ≠ b.toNat := fun heq => h (Char.toNat_inj.mp heq)
        simp only [List.map_cons,unitsBefore,charsBefore,if_neg h,if_neg hne]
        rfl

theorem units_basic {text : List Char} (h : ∀ c ∈ text, c.toNat < 0x10000) :
    text.flatMap utf16Units = text.map Char.toNat := by
  induction text with
  | nil => rfl
  | cons c text ih =>
    have hc : utf16Units c = [c.toNat] := if_pos (h c List.mem_cons_self)
    rw [List.flatMap_cons,hc,ih (fun d hd => h d (List.mem_cons_of_mem _ hd))]
    rfl

theorem mem_sortedBoundaries {boundaries : List String} {boundary : String}
    (h : boundary ∈ sortedBoundaries boundaries) : boundary ∈ boundaries := by
  have hperm := List.perm_insertionSort (fun left right => !codeUnitsBefore right left)
    (OrderedMap.distinct (boundaries.filter (· ≠ "")))
  exact (List.mem_filter.mp (OrderedMap.mem_distinct.mp (hperm.mem_iff.mp h))).1

/-- Where every character is one code unit, the sorted boundaries ascend in byte order too. -/
theorem sortedBoundaries_ascending {boundaries : List String}
    (h : ∀ boundary ∈ boundaries, ∀ c ∈ boundary.toList, c.toNat < 0x10000) :
    (sortedBoundaries boundaries).Pairwise (· ≤ ·) := by
  let notAfter : String → String → Prop := fun left right => !codeUnitsBefore right left
  have hunits (left right : String) : notAfter left right ↔
      left.toList.flatMap utf16Units ≤ right.toList.flatMap utf16Units := by
    simp only [notAfter,codeUnitsBefore,Bool.not_eq_true',← Bool.not_eq_true,unitsBefore_iff,
      not_lt]
  have : Std.Total notAfter := ⟨fun left right => by
    rw [hunits,hunits]
    exact le_total _ _⟩
  have : IsTrans String notAfter := ⟨fun left middle right => by
    rw [hunits,hunits,hunits]
    exact le_trans⟩
  have hsorted := List.pairwise_insertionSort notAfter
    (OrderedMap.distinct (boundaries.filter (· ≠ "")))
  refine List.Pairwise.imp_of_mem (fun hleft hright hle => ?_) hsorted
  have hl := h _ (mem_sortedBoundaries hleft)
  have hr := h _ (mem_sortedBoundaries hright)
  simp only [notAfter,codeUnitsBefore,units_basic hl,units_basic hr,unitsBefore_map_toNat,
    Bool.not_eq_true'] at hle
  exact (textBefore_eq_false_iff _ _).mp hle

end OnlyDoge
