import OnlyDoge.Chain.Amounts
import Mathlib.Algebra.Field.Rat
import Mathlib.Data.List.TakeWhile
import Mathlib.Tactic.FieldSimp
import Mathlib.Tactic.Ring
set_option autoImplicit false

/-! `fromDecimalUnits`: the texts that it accepts, and what it returns for texts and numbers. -/

namespace OnlyDoge
open Decimal

/-- `-?digits(.digits)?`, with an empty fraction where the text has none. -/
structure IsDecimal (text : List Char) (negative : Bool) (whole fraction : List Char) : Prop where
  whole_ne : whole ≠ []
  whole_digits : ∀ c ∈ whole, c.isDigit
  fraction_digits : ∀ c ∈ fraction, c.isDigit
  text_eq : text = (if negative then ['-'] else []) ++
    (whole ++ if fraction = [] then [] else '.'::fraction)

/-- The number that such a text stands for. -/
def decimalValue (negative : Bool) (whole fraction : List Char) : ℚ :=
  (if negative then -1 else 1) *
    (Nat.ofDigitChars 10 whole 0 + Nat.ofDigitChars 10 fraction 0 / 10 ^ fraction.length)

def signOf (negative : Bool) : String := if negative then "-" else ""

theorem matchUnsigned_eq_some {sign : String} {digits : List Char} {found : DecimalUnitMatch} :
    matchUnsigned sign digits = some found ↔
      found.sign = sign ∧ IsDecimal digits false found.whole found.fraction := by
  constructor
  · intro h
    have happend := @List.takeWhile_append_dropWhile _ Char.isDigit digits
    have hwhole : ∀ c ∈ digits.takeWhile Char.isDigit, c.isDigit := fun c hc =>
      List.mem_takeWhile_imp hc
    unfold matchUnsigned at h
    split at h
    · cases h
    · rename_i hdrop hne
      cases h
      rw [hdrop] at happend
      exact ⟨rfl,fun hnil => hne hnil,hwhole,by simp,by simpa using happend.symm⟩
    · rename_i fraction hdrop hne
      split at h
      · rename_i hfraction
        cases h
        rw [hdrop] at happend
        refine ⟨rfl,fun hnil => hne hnil,hwhole,List.all_eq_true.mp hfraction.2,?_⟩
        simp [hfraction.1,happend]
      · cases h
    · cases h
  · rintro ⟨rfl,hne,hwhole,hfraction,heq⟩
    obtain ⟨sign,whole,fraction⟩ := found
    simp only [Bool.false_eq_true,if_false,List.nil_append] at heq
    subst heq
    by_cases hempty : fraction = []
    · subst hempty
      have htake : (whole ++ []).takeWhile Char.isDigit = whole := by
        rw [List.append_nil]
        exact List.takeWhile_eq_self_iff.mpr hwhole
      have hdrop : (whole ++ []).dropWhile Char.isDigit = [] := by
        rw [List.append_nil]
        exact List.dropWhile_eq_nil_iff.mpr hwhole
      rw [if_pos rfl]
      unfold matchUnsigned
      rw [htake,hdrop]
      cases whole with
      | nil => exact absurd rfl hne
      | cons c whole => rfl
    · rw [if_neg hempty]
      exact matchUnsigned_parts hne hwhole hempty hfraction

theorem decimalUnitMatch_eq_some {text : List Char} {found : DecimalUnitMatch} :
    decimalUnitMatch text = some found ↔
      ∃ negative, found.sign = signOf negative ∧
        IsDecimal text negative found.whole found.fraction := by
  unfold decimalUnitMatch
  split
  · rename_i digits
    rw [matchUnsigned_eq_some]
    constructor
    · rintro ⟨hsign,hne,hwhole,hfraction,heq⟩
      exact ⟨true,hsign,hne,hwhole,hfraction,by rw [heq]; rfl⟩
    · rintro ⟨negative,hsign,hne,hwhole,hfraction,heq⟩
      cases negative with
      | true => exact ⟨hsign,hne,hwhole,hfraction,(List.cons.inj heq).2⟩
      | false =>
        cases hcons : found.whole with
        | nil => exact absurd hcons hne
        | cons c whole =>
          rw [hcons] at heq hwhole
          have hc := hwhole c List.mem_cons_self
          rw [← (List.cons.inj heq).1] at hc
          exact absurd hc (by decide)
  · rename_i hminus
    rw [matchUnsigned_eq_some]
    constructor
    · rintro ⟨hsign,hdecimal⟩
      exact ⟨false,hsign,hdecimal⟩
    · rintro ⟨negative,hsign,hdecimal⟩
      cases negative with
      | true => exact absurd hdecimal.text_eq (hminus _)
      | false => exact ⟨hsign,hdecimal⟩

theorem assertDecimalFractionPrecision_eq_ok {fraction : List Char} {decimals : Nat}
    {raw : DecimalAmount} : assertDecimalFractionPrecision fraction decimals raw = .ok () ↔
      ∀ c ∈ fraction.drop decimals, c = '0' := by
  have hexcess : hasExcessDecimalPrecision fraction decimals = false ↔
      ∀ c ∈ fraction.drop decimals, c = '0' := by
    by_cases hlength : fraction.length > decimals
    · simp [hasExcessDecimalPrecision,hlength]
    · simp [hasExcessDecimalPrecision,hlength,List.drop_eq_nil_of_le (Nat.le_of_not_lt hlength)]
  rw [← hexcess]
  unfold assertDecimalFractionPrecision
  cases hasExcessDecimalPrecision fraction decimals <;> simp

theorem IsDecimal.found {text : List Char} {negative : Bool} {whole fraction : List Char}
    (h : IsDecimal text negative whole fraction) :
    decimalUnitMatch text = some ⟨signOf negative,whole,fraction⟩ :=
  decimalUnitMatch_eq_some.mpr ⟨negative,rfl,h⟩

theorem fromDecimalUnits_of_isDecimal {value : DecimalAmount} {negative : Bool}
    {whole fraction : List Char} {decimals : Nat}
    (h : IsDecimal (decimalUnitSource value decimals).toList negative whole fraction)
    {out : String} : fromDecimalUnits value decimals = .ok out ↔
      (∀ c ∈ fraction.drop decimals, c = '0') ∧
        out = formatDecimalUnitParts ⟨signOf negative,whole,fraction⟩ decimals := by
  unfold fromDecimalUnits requireDecimalUnitMatch
  rw [h.found,← @assertDecimalFractionPrecision_eq_ok _ _ value]
  simp only [bind,Except.bind]
  cases assertDecimalFractionPrecision fraction decimals value with
  | error e => simp
  | ok _ => simp [pure,Except.pure,eq_comm]

theorem fromDecimalUnits_of_text {value : String} {negative : Bool} {whole fraction : List Char}
    (h : IsDecimal (trim value).toList negative whole fraction) {decimals : Nat} {out : String} :
    fromDecimalUnits value decimals = .ok out ↔ (∀ c ∈ fraction.drop decimals, c = '0') ∧
      out = formatDecimalUnitParts ⟨signOf negative,whole,fraction⟩ decimals :=
  @fromDecimalUnits_of_isDecimal value negative whole fraction decimals h out

theorem isDecimal_of_ok {value : String} {decimals : Nat} {out : String}
    (h : fromDecimalUnits value decimals = .ok out) :
    ∃ negative whole fraction, IsDecimal (trim value).toList negative whole fraction := by
  unfold fromDecimalUnits requireDecimalUnitMatch decimalUnitSource at h
  cases hmatch : decimalUnitMatch (trim value).toList with
  | none =>
    rw [hmatch] at h
    cases h
  | some found =>
    obtain ⟨negative,-,hdecimal⟩ := decimalUnitMatch_eq_some.mp hmatch
    exact ⟨negative,_,_,hdecimal⟩

theorem ofDigitChars_append_zeros (digits : List Char) (zeros : Nat) :
    Nat.ofDigitChars 10 (digits ++ List.replicate zeros '0') 0 =
      10 ^ zeros * Nat.ofDigitChars 10 digits 0 := by
  rw [Nat.ofDigitChars_append,Nat.ofDigitChars_replicate_zero]

theorem paddedFraction_value {fraction : List Char} {decimals : Nat}
    (hzeros : ∀ c ∈ fraction.drop decimals, c = '0') :
    Nat.ofDigitChars 10 (padEnd decimals (fraction.take decimals)) 0 * 10 ^ fraction.length =
      Nat.ofDigitChars 10 fraction 0 * 10 ^ decimals := by
  have hdrop : fraction.drop decimals = List.replicate (fraction.length - decimals) '0' := by
    rw [← List.length_drop]
    exact List.eq_replicate_of_mem hzeros
  have hfraction : Nat.ofDigitChars 10 fraction 0 =
      10 ^ (fraction.length - decimals) * Nat.ofDigitChars 10 (fraction.take decimals) 0 := by
    rw [← ofDigitChars_append_zeros,← hdrop,List.take_append_drop]
  have hlength : (fraction.take decimals).length = min decimals fraction.length :=
    List.length_take
  unfold padEnd
  rw [ofDigitChars_append_zeros,hfraction,hlength]
  have hpow : decimals - min decimals fraction.length + fraction.length =
      fraction.length - decimals + decimals := by omega
  calc 10 ^ (decimals - min decimals fraction.length) *
        Nat.ofDigitChars 10 (fraction.take decimals) 0 * 10 ^ fraction.length
      = 10 ^ (decimals - min decimals fraction.length + fraction.length) *
          Nat.ofDigitChars 10 (fraction.take decimals) 0 := by rw [Nat.pow_add]; ring
    _ = 10 ^ (fraction.length - decimals + decimals) *
          Nat.ofDigitChars 10 (fraction.take decimals) 0 := by rw [hpow]
    _ = _ := by rw [Nat.pow_add]; ring

theorem padEnd_length {fraction : List Char} {decimals : Nat} :
    (padEnd decimals (fraction.take decimals)).length = decimals := by
  simp only [padEnd,List.length_append,List.length_replicate,List.length_take]
  omega

theorem formatDecimalUnitParts_eq {text : List Char} {negative : Bool}
    {whole fraction : List Char} (h : IsDecimal text negative whole fraction) (decimals : Nat) :
    formatDecimalUnitParts ⟨signOf negative,whole,fraction⟩ decimals = signOf negative ++
      String.ofList (Nat.toDigits 10 (Nat.ofDigitChars 10
        (whole ++ padEnd decimals (fraction.take decimals)) 0)) := by
  have hne : whole ++ padEnd decimals (fraction.take decimals) ≠ [] := by
    intro hnil
    exact h.whole_ne (List.append_eq_nil_iff.mp hnil).1
  have hdigits : ∀ c ∈ whole ++ padEnd decimals (fraction.take decimals), c.isDigit := by
    intro c hc
    rcases List.mem_append.mp hc with hwhole | hpadded
    · exact h.whole_digits c hwhole
    · rcases List.mem_append.mp hpadded with hfraction | hzero
      · exact h.fraction_digits c (List.mem_of_mem_take hfraction)
      · rw [List.eq_of_mem_replicate hzero]
        decide
  unfold formatDecimalUnitParts
  simp only
  rw [stripZeros_eq hne hdigits,if_neg Nat.toDigits_ne_nil]

theorem decimalValue_scaled {negative : Bool} {whole fraction : List Char} {decimals : Nat}
    (hzeros : ∀ c ∈ fraction.drop decimals, c = '0') :
    decimalValue negative whole fraction * 10 ^ decimals = (if negative then -1 else 1) *
      (Nat.ofDigitChars 10 (whole ++ padEnd decimals (fraction.take decimals)) 0 : ℚ) := by
  have hvalue : Nat.ofDigitChars 10 (whole ++ padEnd decimals (fraction.take decimals)) 0 =
      10 ^ decimals * Nat.ofDigitChars 10 whole 0 +
        Nat.ofDigitChars 10 (padEnd decimals (fraction.take decimals)) 0 := by
    rw [Nat.ofDigitChars_append,Nat.ofDigitChars_eq_ofDigitChars_zero,padEnd_length]
  have hpadded : (Nat.ofDigitChars 10 (padEnd decimals (fraction.take decimals)) 0 : ℚ) *
      10 ^ fraction.length = Nat.ofDigitChars 10 fraction 0 * 10 ^ decimals := by
    exact_mod_cast paddedFraction_value hzeros
  have hsplit : (Nat.ofDigitChars 10 fraction 0 : ℚ) / 10 ^ fraction.length * 10 ^ decimals =
      Nat.ofDigitChars 10 (padEnd decimals (fraction.take decimals)) 0 := by
    field_simp
    rw [← hpadded,mul_comm]
  unfold decimalValue
  rw [hvalue,mul_assoc,add_mul,hsplit]
  push_cast
  ring

/-- A text is accepted exactly when it is a decimal without other digits than zeros behind the
decimals, and what is returned is its value in the smallest unit, without leading zeros. -/
theorem fromDecimalUnits_exact (value : String) (decimals : Nat) :
    ((∃ out, fromDecimalUnits value decimals = .ok out) ↔
      ∃ negative whole fraction, IsDecimal (trim value).toList negative whole fraction ∧
        ∀ c ∈ fraction.drop decimals, c = '0') ∧
    ∀ out, fromDecimalUnits value decimals = .ok out → ∀ negative whole fraction,
      IsDecimal (trim value).toList negative whole fraction →
      ∃ n : Nat, out = signOf negative ++ String.ofList (Nat.toDigits 10 n) ∧
        (if negative then -1 else 1) * (n : ℚ) =
          decimalValue negative whole fraction * 10 ^ decimals := by
  constructor
  · constructor
    · rintro ⟨out,hout⟩
      obtain ⟨negative,whole,fraction,hdecimal⟩ := isDecimal_of_ok hout
      exact ⟨negative,whole,fraction,hdecimal,((fromDecimalUnits_of_text hdecimal).mp hout).1⟩
    · rintro ⟨negative,whole,fraction,hdecimal,hzeros⟩
      exact ⟨_,(fromDecimalUnits_of_text hdecimal).mpr ⟨hzeros,rfl⟩⟩
  · intro out hout negative whole fraction hdecimal
    obtain ⟨hzeros,rfl⟩ := (fromDecimalUnits_of_text hdecimal).mp hout
    exact ⟨_,formatDecimalUnitParts_eq hdecimal decimals,(decimalValue_scaled hzeros).symm⟩

/-- The smallest units of a number, without its sign. -/
def fixedUnits (value : FixedNumber) (decimals : Nat) : Nat :=
  (round (|value.number.value| * 10 ^ decimals)).toNat

/-- No number is refused, and what is returned is its nearest amount in the smallest unit. -/
theorem fromDecimalUnits_number (value : FixedNumber) (decimals : Nat) :
    fromDecimalUnits (.number value) decimals =
      .ok (signOf (decide (value.number.value < 0)) ++
        String.ofList (Nat.toDigits 10 (fixedUnits value decimals))) := by
  generalize hn : fixedUnits value decimals = n
  have hdecimal : IsDecimal (decimalUnitSource (.number value) decimals).toList
      (decide (value.number.value < 0)) (Nat.toDigits 10 (n / 10 ^ decimals))
      (fixedDigits decimals (n % 10 ^ decimals)) := by
    refine ⟨Nat.toDigits_ne_nil,toDigits_isDigit _,fixedDigits_isDigit _ _,?_⟩
    subst hn
    unfold decimalUnitSource toFixed
    simp only [String.toList_ofList,decide_eq_true_eq]
    rfl
  refine (fromDecimalUnits_of_isDecimal hdecimal).mpr ⟨?_,?_⟩
  · rw [List.drop_eq_nil_of_le (by rw [fixedDigits_length])]
    simp
  · have hpad : padEnd decimals ((fixedDigits decimals (n % 10 ^ decimals)).take decimals) =
        fixedDigits decimals (n % 10 ^ decimals) := by
      rw [List.take_of_length_le (by rw [fixedDigits_length])]
      simp [padEnd,fixedDigits_length]
    have hdigits : stripZeros (Nat.toDigits 10 (n / 10 ^ decimals) ++
        fixedDigits decimals (n % 10 ^ decimals)) = Nat.toDigits 10 n := by
      cases decimals with
      | zero => simp [fixedDigits,stripZeros_toDigits]
      | succ width =>
        rw [stripZeros_parts (Nat.mod_lt _ (Nat.pow_pos (by omega))),Nat.div_add_mod']
    unfold formatDecimalUnitParts
    simp only [hpad,hdigits,if_neg Nat.toDigits_ne_nil]

end OnlyDoge
