import Mathlib.Algebra.Order.Round
import Mathlib.Data.Int.Log
import Mathlib.Data.Rat.Floor
import Mathlib.RingTheory.Int.Basic
import Mathlib.Tactic.Linarith
import Mathlib.Tactic.NormNum.Prime
set_option autoImplicit false

/-! The finite numbers of the binary64 format as rationals, and the nearest one to a rational. -/

/-- A significand of 53 bits, scaled. -/
structure Binary64 where
  value : ℚ
  finite : ∃ m e : ℤ, |m| < 2 ^ 53 ∧ -1074 ≤ e ∧ e ≤ 971 ∧ value = m * 2 ^ e
  deriving DecidableEq,Repr

namespace Binary64

/-- The nearest integer, the even one of two. -/
def roundHalfEven (r : ℚ) : ℤ :=
  if 2 * Int.fract r < 1 then ⌊r⌋
  else if 1 < 2 * Int.fract r then ⌊r⌋ + 1
  else if Even ⌊r⌋ then ⌊r⌋
  else ⌊r⌋ + 1

/-- The exponent of the last place near a rational. -/
def lastPlace (q : ℚ) : ℤ := max (Int.log 2 |q| - 52) (-1074)

/-- The rational rounded to its last place, whatever its size. -/
def rounded (q : ℚ) : ℚ := roundHalfEven (q / 2 ^ lastPlace q) * 2 ^ lastPlace q

theorem rounded_zero : rounded 0 = 0 := by simp [rounded,roundHalfEven]

theorem roundHalfEven_cases (r : ℚ) :
    (roundHalfEven r = ⌊r⌋ ∧ 2 * Int.fract r ≤ 1) ∨
      (roundHalfEven r = ⌊r⌋ + 1 ∧ 1 ≤ 2 * Int.fract r) := by
  unfold roundHalfEven
  split
  · rename_i h
    exact Or.inl ⟨rfl,le_of_lt h⟩
  · rename_i h
    split
    · rename_i h'
      exact Or.inr ⟨rfl,le_of_lt h'⟩
    · rename_i h'
      split
      · exact Or.inl ⟨rfl,not_lt.mp h'⟩
      · exact Or.inr ⟨rfl,not_lt.mp h⟩

theorem abs_roundHalfEven_sub_le (r : ℚ) (z : ℤ) : |(roundHalfEven r : ℚ) - r| ≤ |(z : ℚ) - r| := by
  have hfract := Int.floor_add_fract r
  have hpos := Int.fract_nonneg r
  have hlt := Int.fract_lt_one r
  have hside : (z : ℚ) ≤ ⌊r⌋ ∨ (⌊r⌋ : ℚ) + 1 ≤ z := by
    rcases le_or_gt z ⌊r⌋ with h | h
    · exact Or.inl (by exact_mod_cast h)
    · exact Or.inr (by exact_mod_cast h)
  rcases roundHalfEven_cases r with ⟨heq,h⟩ | ⟨heq,h⟩
  · have hdist : |(roundHalfEven r : ℚ) - r| = Int.fract r := by
      rw [heq,abs_of_nonpos (by linarith)]
      linarith
    rw [hdist]
    rcases hside with hz | hz
    · exact le_trans (by linarith) (neg_le_abs _)
    · exact le_trans (by linarith) (le_abs_self _)
  · have hdist : |(roundHalfEven r : ℚ) - r| = 1 - Int.fract r := by
      rw [heq]
      push_cast
      rw [abs_of_nonneg (by linarith)]
      linarith
    rw [hdist]
    rcases hside with hz | hz
    · exact le_trans (by linarith) (neg_le_abs _)
    · exact le_trans (by linarith) (le_abs_self _)

theorem abs_roundHalfEven_le {r : ℚ} {n : ℤ} (h : |r| ≤ n) : |roundHalfEven r| ≤ n := by
  obtain ⟨hlow,hhigh⟩ := abs_le.mp h
  have hfloor : -n ≤ ⌊r⌋ := Int.le_floor.mpr (by push_cast; exact hlow)
  have hle : (⌊r⌋ : ℚ) ≤ r := Int.floor_le r
  have hfract := Int.floor_add_fract r
  rw [abs_le]
  rcases roundHalfEven_cases r with ⟨heq,-⟩ | ⟨heq,hhalf⟩
  · rw [heq]
    exact ⟨hfloor,by exact_mod_cast le_trans hle hhigh⟩
  · rw [heq]
    refine ⟨by omega,?_⟩
    have hlt : (⌊r⌋ : ℚ) < n := by linarith
    exact_mod_cast hlt

theorem le_abs_roundHalfEven {r : ℚ} {n : ℤ} (h : (n : ℚ) ≤ |r|) : n ≤ |roundHalfEven r| := by
  have hfract := Int.floor_add_fract r
  have hlt := Int.fract_lt_one r
  rcases le_total 0 r with hr | hr
  · rw [abs_of_nonneg hr] at h
    have hfloor : n ≤ ⌊r⌋ := Int.le_floor.mpr h
    refine le_trans ?_ (le_abs_self _)
    rcases roundHalfEven_cases r with ⟨heq,-⟩ | ⟨heq,-⟩ <;> omega
  · rw [abs_of_nonpos hr] at h
    refine le_trans ?_ (neg_le_abs _)
    rcases roundHalfEven_cases r with ⟨heq,-⟩ | ⟨heq,hhalf⟩
    · have hle : (n : ℚ) ≤ -⌊r⌋ := by linarith [Int.floor_le r]
      rw [heq]
      exact_mod_cast hle
    · have hle : (⌊r⌋ : ℚ) + n < 0 := by linarith
      have hint : ⌊r⌋ + n < 0 := by exact_mod_cast hle
      omega

section Nearest
variable {q : ℚ}

theorem two_zpow_pos (e : ℤ) : (0 : ℚ) < 2 ^ e := zpow_pos (by norm_num) e

theorem abs_lt_lastPlace (q : ℚ) : |q| < 2 ^ (lastPlace q + 53) := by
  have h := Int.lt_zpow_succ_log_self (b := 2) (by norm_num) |q|
  refine lt_of_lt_of_le h (zpow_le_zpow_right₀ (by norm_num) ?_)
  have := le_max_left (Int.log 2 |q| - 52) (-1074)
  unfold lastPlace
  omega

/-- Unless it is the least exponent, the rational fills 53 bits above its last place. -/
theorem lastPlace_le_abs (hq : q ≠ 0) :
    lastPlace q = -1074 ∨ (2 : ℚ) ^ (lastPlace q + 52) ≤ |q| := by
  have h := Int.zpow_log_le_self (b := 2) (by norm_num) (abs_pos.mpr hq)
  rcases max_cases (Int.log 2 |q| - 52) (-1074) with ⟨heq,-⟩ | ⟨heq,-⟩
  · refine Or.inr ?_
    have hlog : lastPlace q + 52 = Int.log 2 |q| := by
      unfold lastPlace
      omega
    rw [hlog]
    exact_mod_cast h
  · exact Or.inl heq

theorem abs_div_lastPlace_le (q : ℚ) : |q / 2 ^ lastPlace q| ≤ ((2 ^ 53 : ℤ) : ℚ) := by
  have hpos := two_zpow_pos (lastPlace q)
  rw [abs_div,abs_of_pos hpos,div_le_iff₀ hpos]
  refine le_of_lt (lt_of_lt_of_eq (abs_lt_lastPlace q) ?_)
  rw [zpow_add₀ (by norm_num : (2 : ℚ) ≠ 0),mul_comm]
  norm_num

theorem abs_rounded_sub_le_multiple (q : ℚ) (z : ℤ) :
    |rounded q - q| ≤ |z * 2 ^ lastPlace q - q| := by
  have hpos := two_zpow_pos (lastPlace q)
  have hscale (m : ℤ) : |m * 2 ^ lastPlace q - q| =
      |m - q / 2 ^ lastPlace q| * 2 ^ lastPlace q := by
    rw [← abs_of_pos hpos,← abs_mul,abs_of_pos hpos,sub_mul,div_mul_cancel₀ q hpos.ne']
  unfold rounded
  rw [hscale,hscale]
  exact mul_le_mul_of_nonneg_right (abs_roundHalfEven_sub_le _ z) hpos.le

theorem abs_rounded_sub_le_fine (hq : q ≠ 0) {x : Binary64} {m e : ℤ} (hm : |m| < 2 ^ 53)
    (hmin : -1074 ≤ e) (he : e < lastPlace q) (hx : x.value = m * 2 ^ e) :
    |rounded q - q| ≤ |x.value - q| := by
  have hnormal : (2 : ℚ) ^ (lastPlace q + 52) ≤ |q| :=
    (lastPlace_le_abs hq).resolve_left (by omega)
  have hsmall : |x.value| ≤ 2 ^ (lastPlace q + 52) := by
    have hm' : |(m : ℚ)| ≤ 2 ^ (53 : ℤ) := by
      rw [← Int.cast_abs]
      exact_mod_cast hm.le
    rw [hx,abs_mul,abs_of_pos (two_zpow_pos e)]
    refine le_trans (mul_le_mul_of_nonneg_right hm' (two_zpow_pos e).le) ?_
    rw [← zpow_add₀ (by norm_num : (2 : ℚ) ≠ 0)]
    exact zpow_le_zpow_right₀ (by norm_num) (by omega)
  have hpower : ((2 ^ 52 : ℤ) : ℚ) * 2 ^ lastPlace q = 2 ^ (lastPlace q + 52) := by
    rw [zpow_add₀ (by norm_num : (2 : ℚ) ≠ 0),mul_comm]
    norm_num
  rcases le_total 0 q with hpos | hneg
  · refine le_trans (abs_rounded_sub_le_multiple q (2 ^ 52)) ?_
    rw [abs_of_nonneg hpos] at hnormal
    rw [hpower,abs_of_nonpos (by linarith)]
    refine le_trans ?_ (neg_le_abs _)
    linarith [le_abs_self x.value]
  · refine le_trans (abs_rounded_sub_le_multiple q (-2 ^ 52)) ?_
    rw [abs_of_nonpos hneg] at hnormal
    rw [Int.cast_neg,neg_mul,hpower,abs_of_nonneg (by linarith)]
    refine le_trans ?_ (le_abs_self _)
    linarith [neg_abs_le x.value]

theorem abs_rounded_sub_le (q : ℚ) (x : Binary64) : |rounded q - q| ≤ |x.value - q| := by
  by_cases hq : q = 0
  · rw [hq,rounded_zero,sub_zero,abs_zero]
    exact abs_nonneg _
  · obtain ⟨m,e,hm,hmin,-,hx⟩ := x.finite
    rcases le_or_gt (lastPlace q) e with he | he
    · obtain ⟨k,hk⟩ := Int.le.dest he
      have hmultiple : x.value = ((m * 2 ^ k : ℤ) : ℚ) * 2 ^ lastPlace q := by
        rw [hx,← hk,zpow_add₀ (by norm_num : (2 : ℚ) ≠ 0),zpow_natCast]
        push_cast
        ring
      rw [hmultiple]
      exact abs_rounded_sub_le_multiple q _
    · exact abs_rounded_sub_le_fine hq hm hmin he hx

theorem rounded_finite (h : |rounded q| < 2 ^ (1024 : ℤ)) :
    ∃ m e : ℤ, |m| < 2 ^ 53 ∧ -1074 ≤ e ∧ e ≤ 971 ∧ rounded q = m * 2 ^ e := by
  have hmin : -1074 ≤ lastPlace q := le_max_right _ _
  by_cases hq : q = 0
  · exact ⟨0,0,by norm_num,by omega,by omega,by simp [hq,rounded_zero]⟩
  have hle : |roundHalfEven (q / 2 ^ lastPlace q)| ≤ 2 ^ 53 :=
    abs_roundHalfEven_le (abs_div_lastPlace_le q)
  have hpos := two_zpow_pos (lastPlace q)
  have hvalue : |rounded q| = (|roundHalfEven (q / 2 ^ lastPlace q)| : ℤ) * 2 ^ lastPlace q := by
    unfold rounded
    rw [abs_mul,abs_of_pos hpos,Int.cast_abs]
  have hexponent {n k : ℤ} (hn : n ≤ |roundHalfEven (q / 2 ^ lastPlace q)|)
      (hk : (n : ℚ) = 2 ^ k) : k + lastPlace q < 1024 := by
    have hn' : (n : ℚ) ≤ (|roundHalfEven (q / 2 ^ lastPlace q)| : ℤ) := by exact_mod_cast hn
    have hlt := lt_of_le_of_lt (mul_le_mul_of_nonneg_right hn' hpos.le) (hvalue ▸ h)
    rw [hk,← zpow_add₀ (by norm_num : (2 : ℚ) ≠ 0)] at hlt
    exact (zpow_lt_zpow_iff_right₀ (by norm_num)).mp hlt
  rcases hle.lt_or_eq with hlt | heq
  · refine ⟨_,_,hlt,hmin,?_,rfl⟩
    rcases lastPlace_le_abs hq with hleast | hnormal
    · omega
    · have hbig : 2 ^ 52 ≤ |roundHalfEven (q / 2 ^ lastPlace q)| := by
        refine le_abs_roundHalfEven ?_
        rw [abs_div,abs_of_pos hpos,le_div_iff₀ hpos]
        refine le_trans (le_of_eq ?_) hnormal
        rw [zpow_add₀ (by norm_num : (2 : ℚ) ≠ 0),mul_comm]
        norm_num
      have := @hexponent _ 52 hbig (by norm_num)
      omega
  · -- the significand overflowed into the next place
    have hnext := @hexponent _ 53 heq.ge (by norm_num)
    have hsplit : rounded q = (roundHalfEven (q / 2 ^ lastPlace q) : ℚ) * 2 ^ lastPlace q := rfl
    have hdouble : (2 : ℚ) ^ (lastPlace q + 1) = 2 ^ lastPlace q * 2 := by
      rw [zpow_add₀ (by norm_num : (2 : ℚ) ≠ 0),zpow_one]
    rcases abs_eq (by norm_num) |>.mp heq with hm | hm
    · refine ⟨2 ^ 52,lastPlace q + 1,by norm_num,by omega,by omega,?_⟩
      rw [hsplit,hm,hdouble]
      push_cast
      ring
    · refine ⟨-2 ^ 52,lastPlace q + 1,by norm_num,by omega,by omega,?_⟩
      rw [hsplit,hm,hdouble]
      push_cast
      ring

theorem abs_rounded_sub_le_half (q : ℚ) : |rounded q - q| ≤ 2 ^ lastPlace q / 2 := by
  have hpos := two_zpow_pos (lastPlace q)
  obtain ⟨z,hz⟩ : ∃ z : ℤ, |(z : ℚ) - q / 2 ^ lastPlace q| ≤ 1 / 2 :=
    ⟨round (q / 2 ^ lastPlace q),abs_sub_comm (q / 2 ^ lastPlace q) _ ▸ abs_sub_round _⟩
  refine le_trans (abs_rounded_sub_le_multiple q z) ?_
  have hscale : z * 2 ^ lastPlace q - q = (z - q / 2 ^ lastPlace q) * 2 ^ lastPlace q := by
    rw [sub_mul,div_mul_cancel₀ q hpos.ne']
  rw [hscale,abs_mul,abs_of_pos hpos]
  linarith [mul_le_mul_of_nonneg_right hz hpos.le]

end Nearest

/-- The nearest number of the format; none where it overflows. -/
def nearest (q : ℚ) : Option Binary64 :=
  if h : |rounded q| < 2 ^ (1024 : ℤ) then some ⟨rounded q,rounded_finite h⟩ else none

theorem abs_rounded_le (q : ℚ) : |rounded q| ≤ 2 * |q| := by
  have hzero := abs_rounded_sub_le q ⟨0,0,0,by norm_num,by norm_num,by norm_num,by norm_num⟩
  have htriangle := abs_add_le (rounded q - q) q
  rw [sub_add_cancel] at htriangle
  rw [zero_sub,abs_neg] at hzero
  linarith

theorem exists_nearest {q : ℚ} (h : |q| ≤ 2 ^ (1022 : ℤ)) :
    ∃ x, nearest q = some x ∧ x.value = rounded q := by
  have hlt : |rounded q| < 2 ^ (1024 : ℤ) := by
    have hrounded := abs_rounded_le q
    have hsplit : (2 : ℚ) ^ (1024 : ℤ) = 2 ^ (1022 : ℤ) * 4 := by
      rw [show (1024 : ℤ) = 1022 + 2 by norm_num,zpow_add₀ (by norm_num : (2 : ℚ) ≠ 0)]
      norm_num
    have hpos := two_zpow_pos 1022
    rw [hsplit]
    generalize (2 : ℚ) ^ (1022 : ℤ) = bound at h hpos ⊢
    linarith
  exact ⟨_,dif_pos hlt,rfl⟩

def neg (x : Binary64) : Binary64 where
  value := -x.value
  finite := by
    obtain ⟨m,e,hm,hmin,hmax,hx⟩ := x.finite
    exact ⟨-m,e,by rwa [abs_neg],hmin,hmax,by rw [hx]; push_cast; ring⟩

theorem exists_abs (x : Binary64) : ∃ y : Binary64, y.value = |x.value| := by
  rcases abs_choice x.value with h | h
  · exact ⟨x,h.symm⟩
  · exact ⟨x.neg,h.symm⟩

theorem exists_multiple (x : Binary64) : ∃ z : ℤ, x.value * 2 ^ 1074 = z := by
  obtain ⟨m,e,-,hmin,-,hx⟩ := x.finite
  obtain ⟨k,hk⟩ := Int.le.dest hmin
  refine ⟨m * 2 ^ k,?_⟩
  have hpow : (2 : ℚ) ^ e * 2 ^ 1074 = 2 ^ k := by
    rw [← zpow_natCast,← zpow_natCast,← zpow_add₀ (by norm_num : (2 : ℚ) ≠ 0)]
    congr 1
    push_cast
    omega
  rw [hx,mul_assoc,hpow]
  push_cast
  rfl

theorem sub_mul_ten_pow_ne_one (x y : Binary64) (width : ℕ) :
    (x.value - y.value) * 10 ^ (width + 1) ≠ 1 := by
  obtain ⟨m,hm⟩ := x.exists_multiple
  obtain ⟨n,hn⟩ := y.exists_multiple
  generalize 1074 = least at hm hn
  intro heq
  have hscaled : (m - n) * 10 ^ (width + 1) = (2 : ℤ) ^ least := by
    have hrat : ((m : ℚ) - n) * 10 ^ (width + 1) = 2 ^ least := by
      rw [← hm,← hn,← sub_mul,mul_right_comm,heq,one_mul]
    exact_mod_cast hrat
  have hfive : (5 : ℤ) ∣ 2 ^ least := by
    rw [← hscaled]
    exact Dvd.dvd.mul_left (dvd_trans (by norm_num) (dvd_pow_self 10 (Nat.succ_ne_zero width))) _
  have hprime : Prime (5 : ℤ) := Int.prime_iff_natAbs_prime.mpr (by norm_num)
  exact absurd (hprime.dvd_of_dvd_pow hfive) (by norm_num)

end Binary64
