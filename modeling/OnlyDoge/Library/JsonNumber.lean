import OnlyDoge.Library.Decimal
import Mathlib.Data.List.TakeDrop
set_option autoImplicit false

/-!
The numbers of JSON texts as exact decimals: how they are printed and how they are scanned. The
exponents that very large and very small numbers are printed with, and the rounding of digits
that no number holds, are left out.
-/

namespace JsonValue

/-- `digits / 10 ^ places`, with no more places than it takes. -/
structure Number where
  digits : Int
  places : Nat
  reduced : places = 0 ∨ digits % 10 ≠ 0
  deriving DecidableEq,Repr

namespace Number

def ofDecimal (digits : Int) : Nat → Number
  | 0 => ⟨digits,0,Or.inl rfl⟩
  | places + 1 =>
    if h : digits % 10 = 0 then ofDecimal (digits / 10) places else ⟨digits,places + 1,Or.inr h⟩

def ofInt (n : Int) : Number := ⟨n,0,Or.inl rfl⟩

/-- `Number.isInteger(x)`, with the integer. -/
def toInt (x : Number) : Option Int := if x.places = 0 then some x.digits else none

theorem ofDecimal_self (x : Number) : ofDecimal x.digits x.places = x := by
  obtain ⟨digits,places,hreduced⟩ := x
  cases places with
  | zero => rfl
  | succ places =>
    have hdigits : digits % 10 ≠ 0 := by simpa using hreduced
    simp [ofDecimal,hdigits]

@[simp] theorem toInt_ofInt (n : Int) : (ofInt n).toInt = some n := rfl

def sign (digits : Int) : List Char := if digits < 0 then ['-'] else []

def printFraction (n : Nat) : Nat → List Char
  | 0 => []
  | places + 1 => '.'::Decimal.fixedDigits (places + 1) (n % 10 ^ (places + 1))

def print (x : Number) : List Char :=
  sign x.digits ++ (Nat.toDigits 10 (x.digits.natAbs / 10 ^ x.places) ++
    printFraction x.digits.natAbs x.places)

def scanDigits (text : List Char) : Option (List Char × List Char) :=
  if text.takeWhile Char.isDigit = [] then none
  else some (text.takeWhile Char.isDigit,text.dropWhile Char.isDigit)

def scanSign : List Char → Bool × List Char
  | '-'::rest => (true,rest)
  | text => (false,text)

def scanFraction : List Char → Option (List Char × List Char)
  | '.'::rest => scanDigits rest
  | text => some ([],text)

/-- A plus sign is allowed here only. -/
def scanExponent : List Char → Option (Int × List Char)
  | 'e' :: '+'::rest | 'E' :: '+'::rest =>
    (scanDigits rest).map fun (digits,rest) => ((Nat.ofDigitChars 10 digits 0 : Int),rest)
  | 'e'::rest | 'E'::rest =>
    (scanDigits (scanSign rest).2).map fun (digits,tail) =>
      (if (scanSign rest).1 then -(Nat.ofDigitChars 10 digits 0 : Int)
        else Nat.ofDigitChars 10 digits 0,tail)
  | text => some (0,text)

def leadingZero (digits : List Char) : Bool := digits.head? = some '0' && digits.length ≠ 1

def ofParts (negative : Bool) (whole fraction : List Char) (exponent : Int) : Number :=
  let n : Int := Nat.ofDigitChars 10 (whole ++ fraction) 0
  let signed := if negative then -n else n
  ofDecimal (signed * 10 ^ (exponent - fraction.length).toNat)
    ((fraction.length : Int) - exponent).toNat

def scan (text : List Char) : Option (Number × List Char) := do
  let (negative,text) := scanSign text
  let (whole,text) ← scanDigits text
  if leadingZero whole then none
  else
    let (fraction,text) ← scanFraction text
    let (exponent,text) ← scanExponent text
    return (ofParts negative whole fraction exponent,text)

/-- What may follow a value in a text that is printed. -/
def Ends (rest : List Char) : Prop :=
  rest = [] ∨ rest.head? = some ',' ∨ rest.head? = some ']' ∨ rest.head? = some '}'

theorem Ends.comma (rest : List Char) : Ends (','::rest) := Or.inr (Or.inl rfl)
theorem Ends.bracket (rest : List Char) : Ends (']'::rest) := Or.inr (Or.inr (Or.inl rfl))
theorem Ends.brace (rest : List Char) : Ends ('}'::rest) := Or.inr (Or.inr (Or.inr rfl))
theorem Ends.nil : Ends [] := Or.inl rfl

def NoDigit (rest : List Char) : Prop := rest.takeWhile Char.isDigit = []

variable {rest : List Char}

theorem NoDigit.dropWhile (h : NoDigit rest) : rest.dropWhile Char.isDigit = rest := by
  have hsplit := @List.takeWhile_append_dropWhile _ Char.isDigit rest
  rw [h] at hsplit
  exact hsplit

theorem Ends.scans (h : Ends rest) :
    NoDigit rest ∧ scanFraction rest = some ([],rest) ∧ scanExponent rest = some (0,rest) := by
  cases rest with
  | nil => exact ⟨rfl,rfl,rfl⟩
  | cons c rest =>
    have hc : c = ',' ∨ c = ']' ∨ c = '}' := by simpa [Ends] using h
    rcases hc with rfl | rfl | rfl
    · exact ⟨rfl,rfl,rfl⟩
    · exact ⟨rfl,rfl,rfl⟩
    · exact ⟨rfl,rfl,rfl⟩

theorem scanDigits_append {digits : List Char} (hne : digits ≠ [])
    (hdigits : ∀ c ∈ digits, c.isDigit) (h : NoDigit rest) :
    scanDigits (digits ++ rest) = some (digits,rest) := by
  have htake : (digits ++ rest).takeWhile Char.isDigit = digits := by
    rw [List.takeWhile_append_of_pos hdigits,h,List.append_nil]
  have hdrop : (digits ++ rest).dropWhile Char.isDigit = rest := by
    rw [List.dropWhile_append_of_pos hdigits,h.dropWhile]
  rw [scanDigits,htake,hdrop,if_neg hne]

theorem toDigits_isDigit (n : Nat) : ∀ c ∈ Nat.toDigits 10 n, c.isDigit := by
  intro c hc
  exact Nat.isDigit_of_mem_toDigits (by omega) (by omega) hc

theorem leadingZero_toDigits (n : Nat) : leadingZero (Nat.toDigits 10 n) = false := by
  by_cases h : n = 0
  · subst h
    rfl
  · simp [leadingZero,Decimal.toDigits_head (Nat.pos_of_ne_zero h)]

theorem ofDigitChars_fixedDigits (width n : Nat) :
    Nat.ofDigitChars 10 (Decimal.fixedDigits width n) 0 = n % 10 ^ width := by
  induction width generalizing n with
  | zero => simp [Decimal.fixedDigits,Nat.mod_one]
  | succ width ih =>
    have hchar : ∀ d : Fin 10, (d.val.digitChar).toNat - 48 = d.val := by decide
    have hdigit := hchar ⟨n % 10,Nat.mod_lt _ (by omega)⟩
    simp only at hdigit
    rw [Decimal.fixedDigits,Decimal.ofDigitChars_snoc,ih,hdigit,Nat.pow_succ',Nat.mod_mul]
    omega

/-- The digits of the whole part and those of the fraction are the digits of the number. -/
theorem ofDigitChars_parts (n width : Nat) :
    Nat.ofDigitChars 10 (Nat.toDigits 10 (n / 10 ^ width) ++
      Decimal.fixedDigits width (n % 10 ^ width)) 0 = n := by
  rw [Nat.ofDigitChars_append,Nat.ofDigitChars_eq_ofDigitChars_zero,Nat.ofDigitChars_ten_toDigits,
    ofDigitChars_fixedDigits,Decimal.fixedDigits_length,Nat.mod_mod]
  exact Nat.div_add_mod n (10 ^ width)

theorem scanFraction_printFraction (n places : Nat) (h : Ends rest) :
    scanFraction (printFraction n places ++ rest) =
      some (Decimal.fixedDigits places (n % 10 ^ places),rest) := by
  cases places with
  | zero => exact h.scans.2.1
  | succ places =>
    have hne : Decimal.fixedDigits (places + 1) (n % 10 ^ (places + 1)) ≠ [] := by
      simp [Decimal.fixedDigits]
    exact scanDigits_append hne (Decimal.fixedDigits_isDigit _ _) h.scans.1

theorem noDigit_printFraction (n places : Nat) (h : Ends rest) :
    NoDigit (printFraction n places ++ rest) := by
  cases places with
  | zero => exact h.scans.1
  | succ places => rfl

theorem toDigits_cons (n : Nat) : ∃ c cs, Nat.toDigits 10 n = c::cs ∧ c.isDigit := by
  have hdigits := toDigits_isDigit n
  cases hcs : Nat.toDigits 10 n with
  | nil => exact absurd hcs Nat.toDigits_ne_nil
  | cons c cs =>
    rw [hcs] at hdigits
    exact ⟨c,cs,rfl,hdigits c (by simp)⟩

theorem scanSign_toDigits (n : Nat) (text : List Char) :
    scanSign (Nat.toDigits 10 n ++ text) = (false,Nat.toDigits 10 n ++ text) := by
  obtain ⟨c,cs,hcs,hc⟩ := toDigits_cons n
  have hne : c ≠ '-' := by
    rintro rfl
    exact absurd hc (by decide)
  rw [hcs,List.cons_append]
  unfold scanSign
  split
  · rename_i heq
    exact absurd (List.cons.inj heq).1 hne
  · rfl

theorem scanSign_sign (digits : Int) (n : Nat) (text : List Char) :
    scanSign (sign digits ++ (Nat.toDigits 10 n ++ text)) =
      (decide (digits < 0),Nat.toDigits 10 n ++ text) := by
  by_cases h : digits < 0
  · simp [sign,h,scanSign]
  · simp [sign,h,scanSign_toDigits]

theorem ofParts_print (x : Number) :
    ofParts (decide (x.digits < 0)) (Nat.toDigits 10 (x.digits.natAbs / 10 ^ x.places))
      (Decimal.fixedDigits x.places (x.digits.natAbs % 10 ^ x.places)) 0 = x := by
  have hsigned : (if decide (x.digits < 0) = true then -(x.digits.natAbs : Int)
      else (x.digits.natAbs : Int)) = x.digits := by
    split
    · rename_i h
      have := of_decide_eq_true h
      omega
    · rename_i h
      have : ¬x.digits < 0 := by simpa using h
      omega
  simp only [ofParts,ofDigitChars_parts,hsigned,Decimal.fixedDigits_length]
  have hzero : (0 - (x.places : Int)).toNat = 0 := by omega
  have hplaces : ((x.places : Int) - 0).toNat = x.places := by omega
  rw [hzero,hplaces,Int.pow_zero,Int.mul_one]
  exact ofDecimal_self x

theorem scan_print (x : Number) (h : Ends rest) : scan (print x ++ rest) = some (x,rest) := by
  have hdigits := scanDigits_append Nat.toDigits_ne_nil
    (toDigits_isDigit (x.digits.natAbs / 10 ^ x.places))
    (noDigit_printFraction x.digits.natAbs x.places h)
  rw [print,List.append_assoc,List.append_assoc,scan,scanSign_sign]
  simp only [hdigits,Option.bind_eq_bind,Option.bind_some,leadingZero_toDigits,
    scanFraction_printFraction _ _ h,h.scans.2.2,Bool.false_eq_true,if_false]
  rw [ofParts_print]
  rfl

theorem print_cons (x : Number) : ∃ c cs, print x = c::cs ∧ (c = '-' ∨ c.isDigit) := by
  obtain ⟨c,cs,hcs,hc⟩ := toDigits_cons (x.digits.natAbs / 10 ^ x.places)
  unfold print sign
  split
  · exact ⟨'-',_,rfl,Or.inl rfl⟩
  · exact ⟨c,_,by rw [hcs]; rfl,Or.inr hc⟩

example : scan "-0.50,".toList = some (⟨-5,1,by decide⟩,[',']) := by decide

end Number
end JsonValue
