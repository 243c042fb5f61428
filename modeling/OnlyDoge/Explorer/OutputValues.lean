import OnlyDoge.Explorer.OneSummary
import OnlyDoge.Mempool.Detector
import OnlyDoge.Node.WireEncoding
import OnlyDoge.Node.PushOnly
set_option autoImplicit false

/-! Output values from the wire to the amounts of the indexer, the mempool and the explorer. -/

namespace OnlyDoge.Explorer
open Reader MempoolAppear

/-- `valueBase` of an output that the indexer processes. -/
def processedValueBase (value : DecimalAmount) : Except CoreError String := do
  fromDecimalUnits (← requireAmount value) 8

/-- What `JSON.parse` makes of a number without an exponent: the nearest one that there is. -/
def parseNumber (text : String) : Option FixedNumber := do
  let found ← decimalUnitMatch text.toList
  let number ← Binary64.nearest
    (decimalValue (decide (found.sign = "-")) found.whole found.fraction)
  if small : |number.value| < 10 ^ 21 then some ⟨number,small⟩ else none

theorem processedValueBase_of_amount {text : String} (h : requireAmount text = .ok text) :
    processedValueBase text = fromDecimalUnits text 8 := by
  unfold processedValueBase
  rw [h]
  rfl

/-- Eight little endian bytes as a number in two's complement. -/
def signed64 (bytes : List UInt8) : Int :=
  if littleEndian bytes < 2 ^ 63 then littleEndian bytes else (littleEndian bytes : Int) - 2 ^ 64

theorem decodes_uint32 (b₀ b₁ b₂ b₃ : UInt8) :
    Decodes ByteReader.readUint32LE [b₀,b₁,b₂,b₃] (littleEndian [b₀,b₁,b₂,b₃]) := by
  refine decodes_return (decodes_read rfl) ?_
  have h₀ := b₀.toNat_lt
  have h₁ := b₁.toNat_lt
  have h₂ := b₂.toNat_lt
  simp only [ByteReader.byteAt,List.getElem?_cons_zero,List.getElem?_cons_succ,Option.getD_some]
  rw [bytes_or (by omega) (by omega) (by omega)]
  simp only [littleEndian,List.foldr_cons,List.foldr_nil]
  omega

theorem decodes_int64 (b₀ b₁ b₂ b₃ b₄ b₅ b₆ b₇ : UInt8) :
    Decodes ByteReader.readInt64LE [b₀,b₁,b₂,b₃,b₄,b₅,b₆,b₇]
      (signed64 [b₀,b₁,b₂,b₃,b₄,b₅,b₆,b₇]) := by
  have hlow := decodes_uint32 b₀ b₁ b₂ b₃
  have hhigh := decodes_uint32 b₄ b₅ b₆ b₇
  have hjoin : Decodes ByteReader.readInt64LE ([b₀,b₁,b₂,b₃] ++ [b₄,b₅,b₆,b₇])
      (ByteReader.toInt32 (littleEndian [b₄,b₅,b₆,b₇]) * 2 ^ 32 +
        littleEndian [b₀,b₁,b₂,b₃]) :=
    decodes_bind hlow (decodes_return hhigh rfl)
  have hvalue : ByteReader.toInt32 (littleEndian [b₄,b₅,b₆,b₇]) * 2 ^ 32 +
      littleEndian [b₀,b₁,b₂,b₃] = signed64 [b₀,b₁,b₂,b₃,b₄,b₅,b₆,b₇] := by
    have hparts : littleEndian [b₀,b₁,b₂,b₃,b₄,b₅,b₆,b₇] =
        littleEndian [b₀,b₁,b₂,b₃] + littleEndian [b₄,b₅,b₆,b₇] * 2 ^ 32 := by
      simp only [littleEndian,List.foldr_cons,List.foldr_nil]
      omega
    have hsmall : littleEndian [b₀,b₁,b₂,b₃] < 2 ^ 32 := by
      have h₀ := b₀.toNat_lt
      have h₁ := b₁.toNat_lt
      have h₂ := b₂.toNat_lt
      have h₃ := b₃.toNat_lt
      simp only [littleEndian,List.foldr_cons,List.foldr_nil]
      omega
    unfold ByteReader.toInt32 signed64
    by_cases hsign : littleEndian [b₄,b₅,b₆,b₇] < 2 ^ 31
    · rw [if_pos hsign,if_pos (by omega)]
      omega
    · rw [if_neg hsign,if_neg (by omega)]
      omega
  rw [← hvalue]
  exact hjoin

theorem abs_signed64_le (b₀ b₁ b₂ b₃ b₄ b₅ b₆ b₇ : UInt8) :
    |signed64 [b₀,b₁,b₂,b₃,b₄,b₅,b₆,b₇]| ≤ 2 ^ 63 := by
  have hlt : littleEndian [b₀,b₁,b₂,b₃,b₄,b₅,b₆,b₇] < 2 ^ 64 := by
    have h₀ := b₀.toNat_lt
    have h₁ := b₁.toNat_lt
    have h₂ := b₂.toNat_lt
    have h₃ := b₃.toNat_lt
    have h₄ := b₄.toNat_lt
    have h₅ := b₅.toNat_lt
    have h₆ := b₆.toNat_lt
    have h₇ := b₇.toNat_lt
    simp only [littleEndian,List.foldr_cons,List.foldr_nil]
    omega
  unfold signed64
  rw [abs_le]
  split <;> omega

theorem decimalValue_formatKoinu (value : Int) : decimalValue
    (decide (String.ofList (signText value) = "-")) (wholeDigits value) (koinuDigits value) =
      value / 10 ^ 8 := by
  have hsign : decide (String.ofList (signText value) = "-") = decide (value < 0) := by
    unfold signText
    by_cases hneg : value < 0 <;> simp [hneg]
  have hdigits := stripZeros_koinu value
  have hall : ∀ c ∈ wholeDigits value ++ koinuDigits value, c.isDigit := fun c hc =>
    (List.mem_append.mp hc).elim (wholeDigits_isDigit value c) (koinuDigits_isDigit value c)
  rw [Decimal.stripZeros_eq (by simp [wholeDigits_ne_nil]) hall] at hdigits
  have hnat := congrArg (Nat.ofDigitChars 10 · 0) hdigits
  simp only [Nat.ofDigitChars_toDigits (show 1 < 10 by omega) (Nat.le_refl 10)] at hnat
  have hlength := koinuDigits_length value
  have hpad : padEnd 8 ((koinuDigits value).take 8) = koinuDigits value := by
    rw [List.take_of_length_le (by omega)]
    simp [padEnd,hlength]
  have hscaled := @decimalValue_scaled (decide (value < 0)) (wholeDigits value) (koinuDigits value)
    8 (by rw [List.drop_eq_nil_of_le (by omega)]; simp)
  rw [hpad,hnat,← hsign] at hscaled
  rw [eq_div_iff (by norm_num),hscaled,hsign]
  rcases lt_or_ge value 0 with hneg | hpos
  · rw [if_pos (decide_eq_true hneg),Nat.cast_natAbs,abs_of_neg hneg]
    push_cast
    ring
  · rw [if_neg (by simpa using hpos),Nat.cast_natAbs,abs_of_nonneg hpos,one_mul]

/-- A node writes an amount as its text, and the number read from it is the nearest one. -/
theorem parseNumber_formatKoinu {value : Int} (hbound : |value| ≤ 2 ^ 63) :
    ∃ number, parseNumber (formatKoinu value) = some number ∧
      number.number.value = Binary64.rounded (value / 10 ^ 8) := by
  have hcast : |(value : ℚ)| ≤ 2 ^ 63 := by
    rw [← Int.cast_abs]
    exact_mod_cast hbound
  have habs : |(value : ℚ) / 10 ^ 8| ≤ 2 ^ 37 := by
    rw [abs_div,abs_of_pos (by norm_num : (0 : ℚ) < 10 ^ 8),div_le_iff₀ (by norm_num)]
    exact le_trans hcast (by norm_num)
  obtain ⟨x,hx,hvalue⟩ := @Binary64.exists_nearest ((value : ℚ) / 10 ^ 8)
    (le_trans habs (zpow_le_zpow_right₀ (by norm_num) (by norm_num : (37 : ℤ) ≤ 1022)))
  have hsmall : |x.value| < 10 ^ 21 := by
    rw [hvalue]
    refine lt_of_le_of_lt (Binary64.abs_rounded_le _) ?_
    linarith
  refine ⟨⟨x,hsmall⟩,?_,hvalue⟩
  unfold parseNumber
  rw [decimalUnitMatch_formatKoinu]
  simp only [Option.bind_eq_bind,Option.bind_some,decimalValue_formatKoinu,hx,dif_pos hsmall]

theorem fixedUnits_eq_iff {value : FixedNumber} {n : Nat} : fixedUnits value 8 = n ↔
    (n : ℚ) - 1 / 2 ≤ |value.number.value| * 10 ^ 8 ∧
      |value.number.value| * 10 ^ 8 < n + 1 / 2 := by
  have hpos : 0 ≤ round (|value.number.value| * 10 ^ 8) := by
    rw [round_eq]
    exact Int.floor_nonneg.mpr (by positivity)
  have hnat : fixedUnits value 8 = n ↔ round (|value.number.value| * 10 ^ 8) = (n : ℤ) := by
    unfold fixedUnits
    omega
  rw [hnat,round_eq,Int.floor_eq_iff]
  push_cast
  constructor
  · exact fun h => ⟨by linarith,by linarith⟩
  · exact fun h => ⟨by linarith,by linarith⟩

theorem signedDigits_eq_iff {value : Int} {negative : Bool} {n : Nat} :
    signOf negative ++ String.ofList (Nat.toDigits 10 n) = toString value ↔
      negative = decide (value < 0) ∧ n = value.natAbs := by
  have hsign : signOf negative = String.ofList (if negative then ['-'] else []) := by
    cases negative <;> rfl
  have hhead {m : Nat} {rest : List Char} (h : Nat.toDigits 10 m = '-'::rest) : False :=
    absurd (toDigits_isDigit m '-' (by rw [h]; exact List.mem_cons_self)) (by decide)
  have hdigits {a b : Nat} (h : Nat.toDigits 10 a = Nat.toDigits 10 b) : a = b := by
    have hvalue := congrArg (Nat.ofDigitChars 10 · 0) h
    simpa only [Nat.ofDigitChars_toDigits (show 1 < 10 by omega) (Nat.le_refl 10)] using hvalue
  rw [toString_int,hsign,← String.ofList_append,String.ofList_inj]
  unfold signText
  constructor
  · intro h
    cases negative with
    | true =>
      by_cases hneg : value < 0
      · rw [if_pos rfl,if_pos hneg] at h
        exact ⟨(decide_eq_true hneg).symm,hdigits (List.cons.inj h).2⟩
      · rw [if_pos rfl,if_neg hneg] at h
        exact (hhead h.symm).elim
    | false =>
      by_cases hneg : value < 0
      · rw [if_neg (by decide),if_pos hneg] at h
        exact (hhead h).elim
      · rw [if_neg (by decide),if_neg hneg] at h
        exact ⟨(decide_eq_false hneg).symm,hdigits h⟩
  · rintro ⟨rfl,rfl⟩
    simp only [decide_eq_true_eq]

/-- A number comes so near to the amount that rounding gives it back: less than half a koinu above
it and at most half a koinu below, signs aside. -/
def NearNumber (value : Int) : Prop :=
  ∃ x : Binary64, abs (value : ℚ) - 1 / 2 ≤ x.value * 10 ^ 8 ∧
    x.value * 10 ^ 8 < abs (value : ℚ) + 1 / 2

theorem abs_rounded_koinu_le (value : Int) (y : Binary64) :
    |Binary64.rounded (value / 10 ^ 8) * 10 ^ 8 - value| ≤
      |y.value * 10 ^ 8 - abs (value : ℚ)| := by
  have hscale (z : ℚ) : |z * 10 ^ 8 - value| = |z - value / 10 ^ 8| * 10 ^ 8 := by
    have hfactor : z * 10 ^ 8 - value = (z - value / 10 ^ 8) * 10 ^ 8 := by field_simp
    rw [hfactor,abs_mul,abs_of_pos (by norm_num : (0 : ℚ) < 10 ^ 8)]
  obtain ⟨z,hz⟩ : ∃ z : Binary64,
      |z.value * 10 ^ 8 - value| = |y.value * 10 ^ 8 - abs (value : ℚ)| := by
    rcases le_total 0 (value : ℚ) with h | h
    · exact ⟨y,by rw [abs_of_nonneg h]⟩
    · refine ⟨y.neg,?_⟩
      rw [abs_of_nonpos h,← abs_neg]
      congr 1
      simp only [Binary64.neg]
      ring
  rw [← hz,hscale,hscale]
  exact mul_le_mul_of_nonneg_right (Binary64.abs_rounded_sub_le _ z) (by norm_num)

theorem sign_rounded_koinu {value : Int}
    (h : |Binary64.rounded (value / 10 ^ 8) * 10 ^ 8 - value| ≤ 1 / 2) :
    decide (Binary64.rounded (value / 10 ^ 8) < 0) = decide (value < 0) := by
  obtain ⟨hlow,hhigh⟩ := abs_le.mp h
  rcases lt_trichotomy value 0 with hneg | rfl | hpos
  · have hle : (value : ℚ) ≤ -1 := by exact_mod_cast Int.le_sub_one_of_lt hneg
    rw [decide_eq_true hneg,decide_eq_true_eq]
    linarith
  · simp [Binary64.rounded_zero]
  · have hle : (1 : ℚ) ≤ value := by exact_mod_cast hpos
    rw [decide_eq_false (not_lt.mpr hpos.le),decide_eq_false_iff_not]
    linarith

theorem rounded_koinu_iff {value : Int} {x : Binary64}
    (hx : x.value = Binary64.rounded (value / 10 ^ 8)) :
    (decide (x.value < 0) = decide (value < 0) ∧
      abs (value : ℚ) - 1 / 2 ≤ |x.value| * 10 ^ 8 ∧
      |x.value| * 10 ^ 8 < abs (value : ℚ) + 1 / 2) ↔ NearNumber value := by
  obtain ⟨magnitude,hmagnitude⟩ := x.exists_abs
  constructor
  · rintro ⟨-,hlow,hhigh⟩
    exact ⟨magnitude,by rwa [hmagnitude],by rwa [hmagnitude]⟩
  · rintro ⟨y,hylow,hyhigh⟩
    have hnear := abs_rounded_koinu_le value y
    have hhalf : |y.value * 10 ^ 8 - abs (value : ℚ)| ≤ 1 / 2 :=
      abs_le.mpr ⟨by linarith,by linarith⟩
    have hmag : |(|x.value| * 10 ^ 8 - abs (value : ℚ))| ≤
        |y.value * 10 ^ 8 - abs (value : ℚ)| := by
      have hscale : |x.value| * 10 ^ 8 = |x.value * 10 ^ 8| := by
        rw [abs_mul,abs_of_pos (by norm_num : (0 : ℚ) < 10 ^ 8)]
      rw [hscale]
      exact le_trans (abs_abs_sub_abs_le _ _) (hx ▸ hnear)
    obtain ⟨hlow,hhigh⟩ := abs_le.mp (le_trans hmag hhalf)
    refine ⟨hx ▸ sign_rounded_koinu (le_trans hnear hhalf),by linarith,?_⟩
    -- half a koinu above, the other number would lie half a koinu below
    by_contra hover
    have htie : |x.value| * 10 ^ 8 = abs (value : ℚ) + 1 / 2 := by linarith
    have hybelow : y.value * 10 ^ 8 = abs (value : ℚ) - 1 / 2 := by
      rw [htie,add_sub_cancel_left,abs_of_pos (by norm_num : (0 : ℚ) < 1 / 2)] at hmag
      rcases le_abs.mp hmag with h | h
      · linarith
      · linarith
    refine Binary64.sub_mul_ten_pow_ne_one magnitude y 7 ?_
    rw [hmagnitude,sub_mul,htie,hybelow]
    ring

theorem nearNumber_of_lt {value : Int} (h : |value| < 2 ^ 26 * 10 ^ 8) : NearNumber value := by
  obtain ⟨number,-,hvalue⟩ := @parseNumber_formatKoinu value (le_trans h.le (by norm_num))
  have habs : |(value : ℚ) / 10 ^ 8| < 2 ^ (26 : ℤ) := by
    rw [abs_div,abs_of_pos (by norm_num : (0 : ℚ) < 10 ^ 8),div_lt_iff₀ (by norm_num),
      ← Int.cast_abs]
    exact_mod_cast h
  have hplace : Binary64.lastPlace ((value : ℚ) / 10 ^ 8) ≤ -27 := by
    have hlog : Int.log 2 |(value : ℚ) / 10 ^ 8| < 26 := by
      rcases (abs_nonneg ((value : ℚ) / 10 ^ 8)).eq_or_lt with hzero | hpos
      · rw [← hzero,Int.log_zero_right]
        norm_num
      · exact (Int.lt_zpow_iff_log_lt (by norm_num) hpos).mp (by exact_mod_cast habs)
    unfold Binary64.lastPlace
    omega
  have hhalf := le_trans (Binary64.abs_rounded_sub_le_half ((value : ℚ) / 10 ^ 8))
    (div_le_div_of_nonneg_right (zpow_le_zpow_right₀ (by norm_num : (1 : ℚ) ≤ 2) hplace)
      (by norm_num))
  obtain ⟨magnitude,hmagnitude⟩ := number.number.exists_abs
  have hmag := le_trans (abs_abs_sub_abs_le (Binary64.rounded ((value : ℚ) / 10 ^ 8)) _) hhalf
  rw [abs_div,abs_of_pos (by norm_num : (0 : ℚ) < 10 ^ 8),← hvalue,← hmagnitude] at hmag
  obtain ⟨hlow,hhigh⟩ := abs_le.mp hmag
  norm_num at hlow hhigh
  exact ⟨magnitude,by linarith,by linarith⟩

/-- The mempool reads the number of an amount as the amount when a number is near enough. -/
theorem outputValueBase_iff {value : Int} {number : FixedNumber}
    (hnumber : number.number.value = Binary64.rounded (value / 10 ^ 8)) :
    outputValueBase (some (.number number)) = .ok (toString value) ↔ NearNumber value := by
  have hcast : ((value.natAbs : ℕ) : ℚ) = abs (value : ℚ) := by
    rw [Nat.cast_natAbs,Int.cast_abs]
  unfold outputValueBase
  simp only
  rw [fromDecimalUnits_number,Except.ok.injEq,signedDigits_eq_iff,fixedUnits_eq_iff,hcast,
    rounded_koinu_iff hnumber]

theorem parseAmountBase_minus {digits : List Char} (hne : digits ≠ [])
    (hdigits : ∀ c ∈ digits, c.isDigit) :
    parseAmountBase ("-" ++ String.ofList digits) =
      .ok (-(Nat.ofDigitChars 10 digits 0 : Int)) := by
  have htext : "-" ++ String.ofList digits = String.ofList ('-'::digits) :=
    (String.ofList_append : String.ofList (['-'] ++ _) = _).symm
  have htrim : trim (String.ofList ('-'::digits)) = String.ofList ('-'::digits) := by
    refine (trim_ofList (by simp) ?_ ?_).1
    · rintro c ⟨⟩
      exact isTrimmed_minus
    · intro c hc
      rw [List.getLast?_cons_of_ne_nil hne] at hc
      exact isTrimmed_isDigit (hdigits c (List.mem_of_getLast? hc))
  have hall : digits ≠ [] ∧ digits.all Char.isDigit := ⟨hne,List.all_eq_true.mpr hdigits⟩
  unfold parseAmountBase
  rw [htext,htrim,String.toList_ofList]
  simp only [if_pos hall]

/-- The detector adds up what `outputValueBase` returns for the outputs. -/
theorem outputValueBase_reported (output : ReportedVout) :
    ∃ text, outputValueBase (output.value.map .number) = .ok text ∧
      parseAmountBase text = .ok output.valueBase := by
  cases hvalue : output.value with
  | none => exact ⟨"0",rfl,by rw [ReportedVout.valueBase,hvalue]; decide⟩
  | some value =>
    refine ⟨_,fromDecimalUnits_number value 8,?_⟩
    rw [ReportedVout.valueBase,hvalue]
    by_cases hneg : value.number.value < 0
    · rw [decide_eq_true hneg]
      simp only [if_pos hneg]
      have hparse := parseAmountBase_minus Nat.toDigits_ne_nil
        (toDigits_isDigit (fixedUnits value 8))
      rwa [Nat.ofDigitChars_toDigits (by omega) (by omega)] at hparse
    · rw [decide_eq_false hneg]
      simp only [if_neg hneg]
      exact parseAmountBase_toString _

/-- The mempool reads this amount from the number that a node writes for it. -/
def MempoolReads (value : Int) : Prop :=
  ∃ number, parseNumber (formatKoinu value) = some number ∧
    outputValueBase (some (.number number)) = .ok (toString value)

/-- Whatever 64-bit value an output has on the wire, its text gives it back to the indexer, and to
the explorer where it is not negative; its number gives it back to the mempool exactly when some
number is near enough. -/
theorem outputValue_survives_iff (b₀ b₁ b₂ b₃ b₄ b₅ b₆ b₇ : UInt8) :
    ∃ value : Int, value = signed64 [b₀,b₁,b₂,b₃,b₄,b₅,b₆,b₇] ∧
      Decodes ByteReader.readInt64LE [b₀,b₁,b₂,b₃,b₄,b₅,b₆,b₇] value ∧
      fromDecimalUnits (formatKoinu value) 8 = .ok (toString value) ∧
      processedValueBase (formatKoinu value) = .ok (toString value) ∧
      (0 ≤ value → requireAmountBase (some (formatKoinu value)) = .ok (toString value)) ∧
      (MempoolReads value ↔ NearNumber value) := by
  have hwire := decodes_int64 b₀ b₁ b₂ b₃ b₄ b₅ b₆ b₇
  have hbound : |signed64 [b₀,b₁,b₂,b₃,b₄,b₅,b₆,b₇]| ≤ 2 ^ 63 := abs_signed64_le _ _ _ _ _ _ _ _
  generalize hvalue : signed64 [b₀,b₁,b₂,b₃,b₄,b₅,b₆,b₇] = value at hwire hbound
  have hunits := fromDecimalUnits_formatKoinu value
  refine ⟨value,rfl,hwire,hunits,?_,?_,?_⟩
  · rw [processedValueBase_of_amount (requireAmount_formatKoinu value)]
    exact hunits
  · intro hpos
    obtain ⟨koinu,rfl⟩ := Int.eq_ofNat_of_zero_le hpos
    exact stringDecimalToBase_formatKoinu koinu
  · obtain ⟨number,hparse,hnumber⟩ := parseNumber_formatKoinu hbound
    constructor
    · rintro ⟨read,hread,htext⟩
      obtain rfl := Option.some.inj (hread.symm.trans hparse)
      exact (outputValueBase_iff hnumber).mp htext
    · exact fun hnear => ⟨number,hparse,(outputValueBase_iff hnumber).mpr hnear⟩

/-- 90071992.54740993 DOGE is 9007199254740993 koinu in a block and one more in the mempool. -/
theorem amount_raised_in_mempool :
    Decodes ByteReader.readInt64LE [1,0,0,0,0,0,32,0] 9007199254740993 ∧
      processedValueBase (formatKoinu 9007199254740993) = .ok "9007199254740993" ∧
      (∃ number, parseNumber (formatKoinu 9007199254740993) = some number ∧
        outputValueBase (some (.number number)) = .ok "9007199254740994") ∧
      ¬MempoolReads 9007199254740993 := by
  have hvalue : signed64 [1,0,0,0,0,0,32,0] = 9007199254740993 := by decide +kernel
  obtain ⟨number,hnumber⟩ : ∃ number, parseNumber (formatKoinu 9007199254740993) = some number :=
    Option.isSome_iff_exists.mp (by decide +kernel)
  have hread : (parseNumber (formatKoinu 9007199254740993)).map
      (fun number => outputValueBase (some (.number number))) =
        some (.ok "9007199254740994") := by
    decide +kernel
  rw [hnumber] at hread
  have hread : outputValueBase (some (.number number)) = .ok "9007199254740994" :=
    Option.some.inj hread
  refine ⟨hvalue ▸ decodes_int64 1 0 0 0 0 0 32 0,by decide +kernel,⟨number,hnumber,hread⟩,?_⟩
  rintro ⟨other,hother,hexact⟩
  obtain rfl := Option.some.inj (hother.symm.trans hnumber)
  rw [hread] at hexact
  exact absurd (Except.ok.inj hexact) (by decide +kernel)

end OnlyDoge.Explorer
