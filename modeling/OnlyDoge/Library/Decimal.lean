import Mathlib.Data.List.Basic
import Mathlib.Data.List.Induction
import Mathlib.Tactic.Ring
set_option autoImplicit false

/-! Decimal digits of a fixed width, and texts with leading zeros. -/

namespace Decimal

/-- The last `width` digits of a number. -/
def fixedDigits : Nat → Nat → List Char
  | 0,_ => []
  | width + 1,n => fixedDigits width (n / 10) ++ [(n % 10).digitChar]

/-- Leading zeros go as long as another digit follows. -/
def stripZeros : List Char → List Char
  | '0'::digit::rest => stripZeros (digit::rest)
  | digits => digits

theorem fixedDigits_length (width n : Nat) : (fixedDigits width n).length = width := by
  induction width generalizing n with
  | zero => rfl
  | succ width ih => simp [fixedDigits,ih]

theorem toDigits_split {n : Nat} (h : 10 ≤ n) :
    Nat.toDigits 10 n = Nat.toDigits 10 (n / 10) ++ [(n % 10).digitChar] := by
  have hdigit : n % 10 < 10 := Nat.mod_lt _ (by omega)
  have hsplit := @Nat.toDigits_append_toDigits 10 (n / 10) (n % 10) (by omega) (by omega) hdigit
  rw [Nat.div_add_mod,Nat.toDigits_of_lt_base hdigit] at hsplit
  exact hsplit.symm

theorem toDigits_mul_add {upper : Nat} (h : 0 < upper) (width lower : Nat)
    (hlower : lower < 10 ^ width) :
    Nat.toDigits 10 (upper * 10 ^ width + lower) =
      Nat.toDigits 10 upper ++ fixedDigits width lower := by
  induction width generalizing lower with
  | zero =>
    have : lower = 0 := by simpa using hlower
    simp [this,fixedDigits]
  | succ width ih =>
    have hpow : upper * 10 ^ (width + 1) = upper * 10 ^ width * 10 := by ring
    have hpos : 0 < upper * 10 ^ width := Nat.mul_pos h (Nat.pow_pos (by omega))
    have hdiv : (upper * 10 ^ (width + 1) + lower) / 10 = upper * 10 ^ width + lower / 10 := by
      omega
    have hmod : (upper * 10 ^ (width + 1) + lower) % 10 = lower % 10 := by omega
    have hlt : lower / 10 < 10 ^ width := by
      rw [Nat.pow_succ] at hlower
      omega
    rw [toDigits_split (by omega),hdiv,hmod,ih (lower / 10) hlt,fixedDigits,List.append_assoc]

theorem replicate_toDigits {width n : Nat} (h : n < 10 ^ (width + 1)) :
    List.replicate (width + 1 - (Nat.toDigits 10 n).length) '0' ++ Nat.toDigits 10 n =
      fixedDigits (width + 1) n := by
  induction width generalizing n with
  | zero =>
    have hlt : n < 10 := by simpa using h
    simp [Nat.toDigits_of_lt_base hlt,fixedDigits,Nat.mod_eq_of_lt hlt]
  | succ width ih =>
    have hdiv : n / 10 < 10 ^ (width + 1) := by
      rw [Nat.pow_succ] at h
      omega
    by_cases hn : n < 10
    · have hzero : n / 10 = 0 := by omega
      have hih := ih hdiv
      rw [hzero,Nat.toDigits_zero] at hih
      rw [fixedDigits,hzero,← hih,Nat.toDigits_of_lt_base hn,Nat.mod_eq_of_lt hn]
      simp only [List.length_singleton,Nat.add_sub_cancel,← List.replicate_succ']
    · rw [fixedDigits,← ih hdiv,toDigits_split (by omega),List.length_append,List.length_singleton,
        ← List.append_assoc,Nat.add_sub_add_right]

theorem toDigits_head {n : Nat} (h : 0 < n) : (Nat.toDigits 10 n).head? ≠ some '0' := by
  induction n using Nat.strong_induction_on with
  | _ n ih =>
    by_cases hn : n < 10
    · have hall : ∀ n : Fin 10, 0 < n.val → [n.val.digitChar].head? ≠ some '0' := by decide
      rw [Nat.toDigits_of_lt_base hn]
      exact hall ⟨n,hn⟩ h
    · rw [toDigits_split (by omega),List.head?_append]
      have hne : Nat.toDigits 10 (n / 10) ≠ [] := Nat.toDigits_ne_nil
      have hhead := ih (n / 10) (by omega) (by omega)
      cases hd : Nat.toDigits 10 (n / 10) with
      | nil => exact absurd hd hne
      | cons c cs =>
        rw [hd] at hhead
        simpa using hhead

theorem stripZeros_toDigits (n : Nat) : stripZeros (Nat.toDigits 10 n) = Nat.toDigits 10 n := by
  by_cases hn : n < 10
  · rw [Nat.toDigits_of_lt_base hn]
    unfold stripZeros
    split
    · rename_i heq
      cases (List.cons.inj heq).2
    · rfl
  · have hhead := toDigits_head (show 0 < n by omega)
    cases hd : Nat.toDigits 10 n with
    | nil => exact absurd hd Nat.toDigits_ne_nil
    | cons c cs =>
      have hc : c ≠ '0' := by
        rw [hd] at hhead
        simpa using hhead
      unfold stripZeros
      split
      · rename_i heq
        exact absurd (List.cons.inj heq).1 hc
      · rfl

theorem stripZeros_replicate (zeros n : Nat) :
    stripZeros (List.replicate zeros '0' ++ Nat.toDigits 10 n) = Nat.toDigits 10 n := by
  induction zeros with
  | zero => exact stripZeros_toDigits n
  | succ zeros ih =>
    rw [List.replicate_succ,List.cons_append]
    cases hrest : List.replicate zeros '0' ++ Nat.toDigits 10 n with
    | nil => exact absurd (List.append_eq_nil_iff.mp hrest).2 Nat.toDigits_ne_nil
    | cons c cs =>
      rw [hrest] at ih
      exact ih

theorem stripZeros_parts {upper width lower : Nat} (h : lower < 10 ^ (width + 1)) :
    stripZeros (Nat.toDigits 10 upper ++ fixedDigits (width + 1) lower) =
      Nat.toDigits 10 (upper * 10 ^ (width + 1) + lower) := by
  by_cases hupper : upper = 0
  · subst hupper
    have hzeros := stripZeros_replicate (1 + (width + 1 - (Nat.toDigits 10 lower).length)) lower
    rw [List.replicate_add,List.append_assoc,replicate_toDigits h] at hzeros
    rw [Nat.zero_mul,Nat.zero_add,← hzeros,Nat.toDigits_zero]
    rfl
  · rw [← toDigits_mul_add (by omega) (width + 1) lower h,stripZeros_toDigits]

theorem fixedDigits_isDigit (width n : Nat) : ∀ c ∈ fixedDigits width n, c.isDigit := by
  induction width generalizing n with
  | zero => simp [fixedDigits]
  | succ width ih =>
    intro c hc
    rcases List.mem_append.mp hc with hc | hc
    · exact ih (n / 10) c hc
    · obtain rfl := List.mem_singleton.mp hc
      have hall : ∀ n : Fin 10, n.val.digitChar.isDigit := by decide
      exact hall ⟨n % 10,Nat.mod_lt _ (by omega)⟩

theorem digit_eq {c : Char} (h : c.isDigit) :
    c.toNat - 48 < 10 ∧ (c.toNat - 48).digitChar = c := by
  have hrange : 48 ≤ c.toNat ∧ c.toNat ≤ 57 := by
    simpa [Char.isDigit,UInt32.le_iff_toNat_le] using h
  have hall : ∀ n : Fin 10, (n.val.digitChar).toNat = n.val + 48 := by decide
  refine ⟨by omega,Char.toNat_inj.mp ?_⟩
  rw [hall ⟨c.toNat - 48,by omega⟩]
  simp only
  omega

theorem ofDigitChars_snoc (front : List Char) (c : Char) :
    Nat.ofDigitChars 10 (front ++ [c]) 0 = 10 * Nat.ofDigitChars 10 front 0 + (c.toNat - 48) := by
  rw [Nat.ofDigitChars_append,Nat.ofDigitChars_cons,Nat.ofDigitChars_nil]
  rfl

theorem toDigits_ofDigitChars {digits : List Char} (hne : digits ≠ [])
    (hdigits : ∀ c ∈ digits, c.isDigit) (hhead : digits.length = 1 ∨ digits.head? ≠ some '0') :
    Nat.toDigits 10 (Nat.ofDigitChars 10 digits 0) = digits := by
  induction digits using List.reverseRecOn with
  | nil => exact absurd rfl hne
  | append_singleton front c ih =>
    obtain ⟨hlt,hchar⟩ := digit_eq (hdigits c (by simp))
    rw [ofDigitChars_snoc]
    cases front with
    | nil =>
      rw [Nat.ofDigitChars_nil,Nat.mul_zero,Nat.zero_add,Nat.toDigits_of_lt_base hlt,hchar]
      rfl
    | cons d front =>
      have hd : d ≠ '0' := by
        rcases hhead with hlength | hhead
        · simp at hlength
        · simpa using hhead
      have hfront := ih (List.cons_ne_nil _ _)
        (fun e he => hdigits e (List.mem_append_left _ he)) (Or.inr (by simpa using hd))
      have hpos : 0 < Nat.ofDigitChars 10 (d::front) 0 := by
        rw [Nat.pos_iff_ne_zero]
        intro hzero
        rw [hzero,Nat.toDigits_zero] at hfront
        exact hd (List.cons.inj hfront).1.symm
      have hdiv : (10 * Nat.ofDigitChars 10 (d::front) 0 + (c.toNat - 48)) / 10 =
          Nat.ofDigitChars 10 (d::front) 0 := by omega
      have hmod : (10 * Nat.ofDigitChars 10 (d::front) 0 + (c.toNat - 48)) % 10 =
          c.toNat - 48 := by omega
      rw [toDigits_split (by omega),hdiv,hmod,hfront,hchar]

theorem stripZeros_eq {digits : List Char} (hne : digits ≠ [])
    (hdigits : ∀ c ∈ digits, c.isDigit) :
    stripZeros digits = Nat.toDigits 10 (Nat.ofDigitChars 10 digits 0) := by
  induction digits using stripZeros.induct with
  | case1 digit rest ih =>
    rw [stripZeros,ih (List.cons_ne_nil _ _) (fun c hc => hdigits c (List.mem_cons_of_mem _ hc)),
      Nat.ofDigitChars_cons]
    rfl
  | case2 digits hkept =>
    rw [stripZeros.eq_2 _ hkept]
    refine (toDigits_ofDigitChars hne hdigits ?_).symm
    cases digits with
    | nil => exact absurd rfl hne
    | cons c rest =>
      cases rest with
      | nil => exact Or.inl rfl
      | cons digit rest =>
        refine Or.inr fun hzero => ?_
        have hc : c = '0' := Option.some.inj hzero
        exact hkept digit rest (by rw [hc])

end Decimal
