import OnlyDoge.Library.Regex
set_option autoImplicit false

/-!
Replacing the matches of a scanner part by part: where every match that starts in a part ends in
it, the part is replaced as it is alone.
-/

namespace Scanning
open Regex

/-- A match is not empty, and one that ends in the front of a text is a match of the front alone. -/
structure Scanner (scan : List Char → Option Nat) : Prop where
  positive : ∀ text n, scan text = some n → 0 < n
  bounded : ∀ text n, scan text = some n → n ≤ text.length
  inside : ∀ front rest n, scan (front ++ rest) = some n → n ≤ front.length → scan front = some n
  none_front : ∀ front rest, scan (front ++ rest) = none → scan front = none

/-- Every match that starts in the part, with `rest` behind it, ends in the part; the counter is
what is left of a match. -/
def staysIn (scan : List Char → Option Nat) (rest : List Char) : Nat → List Char → Bool
  | 0,[] => true
  | _ + 1,[] => false
  | skip + 1,_::part => staysIn scan rest skip part
  | 0,c::part =>
    match scan (c::part ++ rest) with
    | some length => staysIn scan rest (length - 1) part
    | none => staysIn scan rest 0 part

inductive Within (scan : List Char → Option Nat) (rest : List Char) : List Char → Prop where
  | nil : Within scan rest []
  | skip {c : Char} {part : List Char} : scan (c::part ++ rest) = none → Within scan rest part →
      Within scan rest (c::part)
  | matched {found part : List Char} : scan (found ++ part ++ rest) = some found.length →
      found ≠ [] → Within scan rest part → Within scan rest (found ++ part)

section Scan
variable {scan : List Char → Option Nat} {replacement rest part : List Char}

theorem staysIn_drop {skip : Nat} (h : staysIn scan rest skip part = true) :
    skip ≤ part.length ∧ staysIn scan rest 0 (part.drop skip) = true := by
  induction skip generalizing part with
  | zero => exact ⟨Nat.zero_le _,by simpa using h⟩
  | succ skip ih =>
    cases part with
    | nil => cases h
    | cons c part =>
      obtain ⟨hle,hdrop⟩ := @ih part h
      exact ⟨by simpa using hle,by simpa using hdrop⟩

theorem within_of_staysIn (hscan : Scanner scan) (h : staysIn scan rest 0 part = true) :
    Within scan rest part := by
  induction hn : part.length using Nat.strongRecOn generalizing part with
  | ind n ih =>
    cases part with
    | nil => exact .nil
    | cons c part =>
      simp only [List.length_cons] at hn
      rw [staysIn] at h
      split at h
      · next length hlength =>
        obtain ⟨hle,hdrop⟩ := staysIn_drop h
        have hpos := hscan.positive _ _ hlength
        have hsplit : c::part = (c::part.take (length - 1)) ++ part.drop (length - 1) := by simp
        have hfound : (c::part.take (length - 1)).length = length := by
          simp only [List.length_cons,List.length_take]
          omega
        rw [hsplit]
        refine .matched ?_ (by simp) (ih _ ?_ hdrop rfl)
        · rw [← hsplit,hfound,hlength]
        · rw [List.length_drop]
          omega
      · next hnone => exact .skip hnone (ih _ (by omega) h rfl)

theorem replaceFrom_drop (skip : Nat) (text : List Char) :
    replaceFrom scan replacement skip text = replaceAll scan replacement (text.drop skip) := by
  induction skip generalizing text with
  | zero => rfl
  | succ skip ih =>
    cases text with
    | nil => rfl
    | cons c text => exact ih text

theorem replaceAll_skip {c : Char} {text : List Char} (h : scan (c::text) = none) :
    replaceAll scan replacement (c::text) = c::replaceAll scan replacement text := by
  rw [replaceAll,replaceFrom,h]
  rfl

theorem replaceAll_matched {found text : List Char} (h : scan (found ++ text) = some found.length)
    (hne : found ≠ []) :
    replaceAll scan replacement (found ++ text) =
      replacement ++ replaceAll scan replacement text := by
  cases found with
  | nil => exact absurd rfl hne
  | cons c found =>
    rw [List.cons_append] at h ⊢
    rw [replaceAll,replaceFrom,h]
    simp only [List.length_cons,replaceFrom_drop,List.drop_left]

theorem replaceAll_append (hscan : Scanner scan) (h : Within scan rest part) :
    replaceAll scan replacement (part ++ rest) =
      replaceAll scan replacement part ++ replaceAll scan replacement rest := by
  induction h with
  | nil => rfl
  | @skip c part hnone _ ih =>
    have halone := hscan.none_front (c::part) rest hnone
    rw [List.cons_append] at hnone ⊢
    rw [replaceAll_skip hnone,replaceAll_skip halone,ih,List.cons_append]
  | @matched found part hfound hne _ ih =>
    have halone : scan (found ++ part) = some found.length :=
      hscan.inside _ _ _ hfound (by simp)
    rw [List.append_assoc] at hfound
    rw [List.append_assoc,replaceAll_matched hfound hne,replaceAll_matched halone hne,ih,
      List.append_assoc]

theorem mem_replaceAll {c : Char} (h : c ∈ replaceAll scan replacement part) :
    c ∈ replacement ∨ c ∈ part := by
  have hfrom : ∀ (text : List Char) (skip : Nat),
      c ∈ replaceFrom scan replacement skip text → c ∈ replacement ∨ c ∈ text := by
    intro text
    induction text with
    | nil =>
      intro skip h
      cases skip <;> cases h
    | cons d text ih =>
      intro skip h
      cases skip with
      | succ skip => exact (ih skip h).imp_right (List.mem_cons_of_mem d)
      | zero =>
        rw [replaceFrom] at h
        split at h
        · rcases List.mem_append.mp h with h | h
          · exact Or.inl h
          · exact (ih _ h).imp_right (List.mem_cons_of_mem d)
        · rcases List.mem_cons.mp h with rfl | h
          · exact Or.inr List.mem_cons_self
          · exact (ih 0 h).imp_right (List.mem_cons_of_mem d)
  exact hfrom part 0 h

end Scan

end Scanning
