import OnlyDoge.Chain.Block
import OnlyDoge.Node.RawBlock
import OnlyDoge.Library.Binary64
import OnlyDoge.Library.Decimal
set_option autoImplicit false

/-! Decimal amounts (`domain/amounts.ts`), and what they give on the node's amounts. -/

namespace OnlyDoge
open HexText Decimal

/-- `value.trim()` -/
def trim (value : String) : String := String.ofList (trimText value.toList)

/-- The groups of `/^(-?)(\d+)(?:\.(\d+))?$/u`, with an empty fraction where the text has none. -/
structure DecimalUnitMatch where
  sign : String
  whole : List Char
  fraction : List Char
  deriving DecidableEq,Repr

/-- The part of the match after the sign. -/
def matchUnsigned (sign : String) (digits : List Char) : Option DecimalUnitMatch :=
  match digits.takeWhile Char.isDigit,digits.dropWhile Char.isDigit with
  | [],_ => none
  | whole,[] => some ⟨sign,whole,[]⟩
  | whole,'.'::fraction =>
    if fraction ≠ [] ∧ fraction.all Char.isDigit then some ⟨sign,whole,fraction⟩ else none
  | _,_ => none

def decimalUnitMatch : List Char → Option DecimalUnitMatch
  | '-' :: digits => matchUnsigned "-" digits
  | digits => matchUnsigned "" digits

/-- A number that `toFixed` writes without an exponent. -/
structure FixedNumber where
  number : Binary64
  small : |number.value| < 10 ^ 21
  deriving DecidableEq,Repr

/-- `number | string` -/
inductive DecimalAmount where
  | number (value : FixedNumber)
  | text (value : String)
  deriving DecidableEq,Repr

instance : Coe String DecimalAmount := ⟨.text⟩

/-- `value.toFixed(decimals)`: of two nearest numbers with so many decimals the greater one. -/
def toFixed (value : FixedNumber) (decimals : Nat) : String :=
  let n := (round (|value.number.value| * 10 ^ decimals)).toNat
  let fraction := fixedDigits decimals (n % 10 ^ decimals)
  String.ofList ((if value.number.value < 0 then ['-'] else []) ++
    (Nat.toDigits 10 (n / 10 ^ decimals) ++ if fraction = [] then [] else '.'::fraction))

def decimalUnitSource (value : DecimalAmount) (decimals : Nat) : String :=
  match value with
  | .number value => toFixed value decimals
  | .text value => trim value

/-- The amount in an error text. No number is refused, so there is none for it. -/
def DecimalAmount.raw : DecimalAmount → String
  | .number _ => ""
  | .text value => value

def requireDecimalUnitMatch (value : String) (raw : DecimalAmount) :
    Except CoreError DecimalUnitMatch :=
  match decimalUnitMatch value.toList with
  | some found => .ok found
  | none => .error (.error ("invalid decimal amount: " ++ raw.raw))

def hasExcessDecimalPrecision (fraction : List Char) (decimals : Nat) : Bool :=
  decide (fraction.length > decimals) && (fraction.drop decimals).any (· ≠ '0')

def assertDecimalFractionPrecision (fraction : List Char) (decimals : Nat) (raw : DecimalAmount) :
    Except CoreError Unit :=
  if hasExcessDecimalPrecision fraction decimals then
    .error (.error ("invalid decimal amount: " ++ raw.raw))
  else .ok ()

/-- `text.padEnd(width, '0')` -/
def padEnd (width : Nat) (text : List Char) : List Char :=
  text ++ List.replicate (width - text.length) '0'

def formatDecimalUnitParts (found : DecimalUnitMatch) (decimals : Nat) : String :=
  let paddedFraction := padEnd decimals (found.fraction.take decimals)
  let normalized := stripZeros (found.whole ++ paddedFraction)
  found.sign ++ String.ofList (if normalized = [] then ['0'] else normalized)

def fromDecimalUnits (value : DecimalAmount) (decimals : Nat) : Except CoreError String := do
  let found ← requireDecimalUnitMatch (decimalUnitSource value decimals) value
  assertDecimalFractionPrecision found.fraction decimals value
  return formatDecimalUnitParts found decimals

def requireTrimmedAmount (value : String) : Except CoreError String :=
  let trimmed := trim value
  if trimmed = "" then .error (.error ("invalid dogecoin amount: " ++ value)) else .ok trimmed

def requireAmount (value : DecimalAmount) : Except CoreError String :=
  match value with
  | .number value => .ok (toFixed value 8)
  | .text value => requireTrimmedAmount value

theorem dropWhile_of_head {α : Type} {p : α → Bool} {xs : List α}
    (h : ∀ x ∈ xs.head?, p x = false) : xs.dropWhile p = xs := by
  cases xs with
  | nil => rfl
  | cons x xs => rw [List.dropWhile_cons_of_neg (by simp [h x rfl])]

theorem trimText_of_ends {text : List Char} (hhead : ∀ c ∈ text.head?, isTrimmed c = false)
    (hlast : ∀ c ∈ text.getLast?, isTrimmed c = false) : trimText text = text := by
  unfold trimText
  rw [dropWhile_of_head hhead,dropWhile_of_head (by rwa [List.head?_reverse]),List.reverse_reverse]

theorem head_dropWhile {α : Type} {p : α → Bool} (xs : List α) :
    ∀ x ∈ (xs.dropWhile p).head?, p x = false := by
  induction xs with
  | nil => simp
  | cons x xs ih =>
    rw [List.dropWhile_cons]
    split
    · exact ih
    · rename_i hx
      rintro y hy
      obtain rfl := Option.some.inj hy
      exact Bool.eq_false_iff.mpr hx

theorem getLast_dropWhile {α : Type} {p : α → Bool} (xs : List α) :
    ∀ x ∈ (xs.dropWhile p).getLast?, xs.getLast? = some x := by
  intro x hx
  obtain ⟨front,hfront⟩ := List.dropWhile_suffix p (l := xs)
  rw [← hfront,List.getLast?_append]
  obtain hx : (xs.dropWhile p).getLast? = some x := hx
  rw [hx]
  rfl

theorem trimText_trimText (text : List Char) : trimText (trimText text) = trimText text := by
  refine trimText_of_ends ?_ ?_
  · intro c hc
    unfold trimText at hc
    rw [List.head?_reverse] at hc
    have hlast := getLast_dropWhile _ c hc
    rw [List.getLast?_reverse] at hlast
    exact head_dropWhile text c hlast
  · intro c hc
    unfold trimText at hc
    rw [List.getLast?_reverse] at hc
    exact head_dropWhile _ c hc

theorem trim_trim (value : String) : trim (trim value) = trim value := by
  unfold trim
  rw [String.toList_ofList,trimText_trimText]

theorem isTrimmed_isDigit {c : Char} (h : c.isDigit) : isTrimmed c = false := by
  have hrange : 48 ≤ c.toNat ∧ c.toNat ≤ 57 := by
    simpa [Char.isDigit,UInt32.le_iff_toNat_le] using h
  unfold isTrimmed
  simp only [Bool.or_eq_false_iff,Bool.and_eq_false_iff,decide_eq_false_iff_not]
  omega

theorem isTrimmed_minus : isTrimmed '-' = false := by decide

theorem trim_ofList {text : List Char} (hne : text ≠ [])
    (h : ∀ c ∈ text.head?, isTrimmed c = false) (h' : ∀ c ∈ text.getLast?, isTrimmed c = false) :
    trim (String.ofList text) = String.ofList text ∧ String.ofList text ≠ "" := by
  have hempty : String.ofList text ≠ "" := by
    intro heq
    have := congrArg String.toList heq
    simp only [String.toList_ofList] at this
    exact hne this
  unfold trim
  rw [String.toList_ofList,trimText_of_ends h h']
  exact ⟨rfl,hempty⟩

def signText (value : Int) : List Char := if value < 0 then ['-'] else []

def wholeDigits (value : Int) : List Char := Nat.toDigits 10 (value.natAbs / 100000000)

def koinuDigits (value : Int) : List Char := fixedDigits 8 (value.natAbs % 100000000)

theorem toDigits_isDigit (n : Nat) : ∀ c ∈ Nat.toDigits 10 n, c.isDigit := by
  intro c hc
  exact Nat.isDigit_of_mem_toDigits (by omega) (by omega) hc

theorem wholeDigits_isDigit (value : Int) : ∀ c ∈ wholeDigits value, c.isDigit :=
  toDigits_isDigit _

theorem wholeDigits_ne_nil (value : Int) : wholeDigits value ≠ [] := Nat.toDigits_ne_nil

theorem koinuDigits_isDigit (value : Int) : ∀ c ∈ koinuDigits value, c.isDigit :=
  fixedDigits_isDigit 8 _

theorem koinuDigits_length (value : Int) : (koinuDigits value).length = 8 := fixedDigits_length 8 _

theorem koinuDigits_ne_nil (value : Int) : koinuDigits value ≠ [] := by
  rw [← List.length_pos_iff,koinuDigits_length]
  omega

theorem stripZeros_koinu (value : Int) :
    stripZeros (wholeDigits value ++ koinuDigits value) = Nat.toDigits 10 value.natAbs := by
  have hlt : value.natAbs % 100000000 < 10 ^ (7 + 1) := Nat.mod_lt _ (by omega)
  have hvalue : value.natAbs / 100000000 * 10 ^ (7 + 1) + value.natAbs % 100000000 =
      value.natAbs := Nat.div_add_mod' _ _
  unfold wholeDigits koinuDigits
  rw [stripZeros_parts hlt,hvalue]

theorem toString_int (value : Int) :
    toString value = String.ofList (signText value ++ Nat.toDigits 10 value.natAbs) := by
  unfold signText
  cases value with
  | ofNat n => rfl
  | negSucc n =>
    rw [if_pos (Int.negSucc_lt_zero n)]
    exact (String.ofList_append : String.ofList (['-'] ++ _) = _).symm

theorem formatKoinu_eq (value : Int) : formatKoinu value =
    String.ofList (signText value ++ (wholeDigits value ++ '.'::koinuDigits value)) := by
  have hfraction : value.natAbs % 100000000 < 10 ^ (7 + 1) := Nat.mod_lt _ (by omega)
  have hpad : padStart 8 (Nat.toDigits 10 (value.natAbs % 100000000)) =
      String.ofList (koinuDigits value) := congrArg String.ofList (replicate_toDigits hfraction)
  have hsign : (if value < 0 then "-" else "") = String.ofList (signText value) := by
    unfold signText
    split <;> rfl
  have hwhole : toString (value.natAbs / 100000000) = String.ofList (wholeDigits value) := rfl
  have hdot : "." = String.ofList ['.'] := rfl
  unfold formatKoinu
  simp only
  rw [hpad,hsign,hwhole,hdot]
  simp only [← String.ofList_append,List.append_assoc,List.singleton_append]

theorem matchUnsigned_parts {sign : String} {whole fraction : List Char} (hwhole : whole ≠ [])
    (hdigits : ∀ c ∈ whole, c.isDigit) (hfraction : fraction ≠ [])
    (hdigits' : ∀ c ∈ fraction, c.isDigit) :
    matchUnsigned sign (whole ++ '.'::fraction) = some ⟨sign,whole,fraction⟩ := by
  have htake : (whole ++ '.'::fraction).takeWhile Char.isDigit = whole := by
    rw [List.takeWhile_append_of_pos hdigits,List.takeWhile_cons_of_neg (by decide),
      List.append_nil]
  have hdrop : (whole ++ '.'::fraction).dropWhile Char.isDigit = '.'::fraction := by
    rw [List.dropWhile_append_of_pos hdigits,List.dropWhile_cons_of_neg (by decide)]
  have hall : fraction ≠ [] ∧ fraction.all Char.isDigit := ⟨hfraction,List.all_eq_true.mpr hdigits'⟩
  unfold matchUnsigned
  rw [htake,hdrop]
  cases whole with
  | nil => exact absurd rfl hwhole
  | cons c whole => simp only [if_pos hall]

theorem decimalUnitMatch_formatKoinu (value : Int) :
    decimalUnitMatch (formatKoinu value).toList =
      some ⟨String.ofList (signText value),wholeDigits value,koinuDigits value⟩ := by
  have hmatch (sign : String) := @matchUnsigned_parts sign _ _ (wholeDigits_ne_nil value)
    (wholeDigits_isDigit value) (koinuDigits_ne_nil value) (koinuDigits_isDigit value)
  rw [formatKoinu_eq,String.toList_ofList]
  unfold signText
  by_cases hneg : value < 0
  · rw [if_pos hneg]
    exact hmatch _
  · rw [if_neg hneg,List.nil_append]
    rw [← show matchUnsigned "" _ = _ from hmatch ""]
    cases hwhole : wholeDigits value with
    | nil => exact absurd hwhole (wholeDigits_ne_nil value)
    | cons c whole =>
      have hc : c ≠ '-' := by
        have hdigit := wholeDigits_isDigit value c (by rw [hwhole]; exact List.mem_cons_self)
        rintro rfl
        exact absurd hdigit (by decide)
      rw [List.cons_append,decimalUnitMatch]
      rintro digits heq
      exact hc (List.cons.inj heq).1

theorem trim_formatKoinu (value : Int) :
    trim (formatKoinu value) = formatKoinu value ∧ formatKoinu value ≠ "" := by
  rw [formatKoinu_eq]
  refine trim_ofList (by simp) ?_ ?_
  · intro c hc
    unfold signText at hc
    by_cases hneg : value < 0
    · rw [if_pos hneg] at hc
      obtain rfl := Option.some.inj hc
      exact isTrimmed_minus
    · rw [if_neg hneg,List.nil_append] at hc
      cases hwhole : wholeDigits value with
      | nil => exact absurd hwhole (wholeDigits_ne_nil value)
      | cons d whole =>
        rw [hwhole] at hc
        obtain rfl := Option.some.inj hc
        exact isTrimmed_isDigit (wholeDigits_isDigit value d
          (by rw [hwhole]; exact List.mem_cons_self))
  · intro c hc
    cases heq : (koinuDigits value).getLast? with
    | none => exact absurd (List.getLast?_eq_none_iff.mp heq) (koinuDigits_ne_nil value)
    | some d =>
      rw [List.getLast?_append,List.getLast?_append,List.getLast?_cons,heq] at hc
      obtain rfl := Option.some.inj hc
      exact isTrimmed_isDigit (koinuDigits_isDigit value d (List.mem_of_getLast? heq))

theorem requireAmount_formatKoinu (value : Int) :
    requireAmount (formatKoinu value) = .ok (formatKoinu value) := by
  obtain ⟨htrim,hne⟩ := trim_formatKoinu value
  unfold requireAmount requireTrimmedAmount
  simp only [htrim,if_neg hne]

theorem formatDecimalUnitParts_koinu (value : Int) :
    formatDecimalUnitParts ⟨String.ofList (signText value),wholeDigits value,koinuDigits value⟩ 8 =
      toString value := by
  have hlength := koinuDigits_length value
  have hpad : padEnd 8 ((koinuDigits value).take 8) = koinuDigits value := by
    rw [List.take_of_length_le (by omega)]
    simp [padEnd,hlength]
  unfold formatDecimalUnitParts
  simp only [hpad,stripZeros_koinu,if_neg Nat.toDigits_ne_nil,toString_int,String.ofList_append]

theorem fromDecimalUnits_formatKoinu (value : Int) :
    fromDecimalUnits (formatKoinu value) 8 = .ok (toString value) := by
  have hmatch : requireDecimalUnitMatch (trim (formatKoinu value)) (formatKoinu value) =
      .ok ⟨String.ofList (signText value),wholeDigits value,koinuDigits value⟩ := by
    unfold requireDecimalUnitMatch
    rw [(trim_formatKoinu value).1,decimalUnitMatch_formatKoinu]
  have hprecision : hasExcessDecimalPrecision (koinuDigits value) 8 = false := by
    simp [hasExcessDecimalPrecision,koinuDigits_length]
  unfold fromDecimalUnits decimalUnitSource assertDecimalFractionPrecision
  simp only
  rw [hmatch]
  simp only [bind,Except.bind,hprecision,Bool.false_eq_true,if_false,pure,Except.pure,
    formatDecimalUnitParts_koinu]

end OnlyDoge
