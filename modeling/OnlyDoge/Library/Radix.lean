import Mathlib.Data.Nat.Digits.Lemmas
import Mathlib.Data.List.TakeWhile
set_option autoImplicit false

/-! Numbers by their digits in a base, the most significant digit first. -/

namespace Radix

def number (b : Nat) (ds : List Nat) : Nat := ds.foldl (fun value d => value * b + d) 0

/-- The digits of a number without leading zeros; zero has none. -/
def numeral (b : Nat) (n : Nat) : List Nat := (Nat.digits b n).reverse

variable {b : Nat}

theorem number_eq_ofDigits (ds : List Nat) : number b ds = Nat.ofDigits b ds.reverse := by
  rw [Nat.ofDigits_eq_foldr,List.foldr_reverse,number]
  congr 1
  funext value d
  simp only [Nat.cast_id]
  rw [Nat.mul_comm,Nat.add_comm]

theorem number_numeral (n : Nat) : number b (numeral b n) = n := by
  rw [number_eq_ofDigits,numeral,List.reverse_reverse,Nat.ofDigits_digits]

theorem number_replicate_zero (k : Nat) (ds : List Nat) :
    number b (List.replicate k 0 ++ ds) = number b ds := by
  rw [number_eq_ofDigits,number_eq_ofDigits,List.reverse_append,List.reverse_replicate,
    Nat.ofDigits_append_replicate_zero]

theorem numeral_lt (hb : 1 < b) {n d : Nat} (h : d ∈ numeral b n) : d < b :=
  Nat.digits_lt_base hb (List.mem_reverse.mp h)

theorem head_numeral (n : Nat) : ∀ d ∈ (numeral b n).head?, d ≠ 0 := by
  intro d hd
  rw [numeral,List.head?_reverse] at hd
  have hne : Nat.digits b n ≠ [] := by
    intro hnil
    rw [hnil] at hd
    cases hd
  have hlast : (Nat.digits b n).getLast hne = d := by
    rw [List.getLast?_eq_some_getLast hne] at hd
    exact Option.some.inj hd
  rw [← hlast]
  have hn : n ≠ 0 := by
    rintro rfl
    simp at hne
  exact Nat.getLast_digit_ne_zero b hn

theorem numeral_number_of_head (hb : 1 < b) {ds : List Nat} (hlt : ∀ d ∈ ds, d < b)
    (hhead : ∀ d ∈ ds.head?, d ≠ 0) : numeral b (number b ds) = ds := by
  rw [number_eq_ofDigits,numeral,Nat.digits_ofDigits b hb,List.reverse_reverse]
  · intro d hd
    exact hlt d (List.mem_reverse.mp hd)
  · intro hne
    have hlast := List.getLast?_eq_some_getLast hne
    rw [List.getLast?_reverse] at hlast
    exact hhead _ hlast

theorem numeral_number (hb : 1 < b) {ds : List Nat} (hlt : ∀ d ∈ ds, d < b) :
    numeral b (number b ds) = ds.dropWhile (· = 0) := by
  have hsplit : ds = List.replicate (ds.takeWhile (· = 0)).length 0 ++ ds.dropWhile (· = 0) := by
    have hzeros : ds.takeWhile (· = 0) = List.replicate (ds.takeWhile (· = 0)).length 0 := by
      rw [List.eq_replicate_iff]
      exact ⟨rfl,fun d hd => by simpa using List.mem_takeWhile_imp hd⟩
    conv_lhs => rw [← List.takeWhile_append_dropWhile (p := (· = 0)) (l := ds),hzeros]
  have hnumber : number b ds = number b (ds.dropWhile (· = 0)) := by
    conv_lhs => rw [hsplit]
    exact number_replicate_zero _ _
  rw [hnumber]
  apply numeral_number_of_head hb
  · intro d hd
    exact hlt d ((List.dropWhile_sublist _).subset hd)
  · intro d hd hzero
    have hne : ds.dropWhile (· = 0) ≠ [] := by
      intro hnil
      rw [hnil] at hd
      cases hd
    have hhead := List.head_dropWhile_not (fun d : Nat => decide (d = 0)) hne
    rw [List.head?_eq_some_head hne] at hd
    have hd' := Option.some.inj hd
    rw [hd',hzero] at hhead
    simp at hhead

end Radix
