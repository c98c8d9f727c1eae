import Mathlib
import Db8.Core.MojObject

/-!
# Core.MojDouble

`MojDouble` as the rationals it stands for, and the arithmetic of `MojDecimal` that goes through it.

* `MojDouble.nearest`    — the nearest double; every operation on doubles is the exact one, rounded.
* `MojDecimal.addDouble` — the sum of two decimals by way of doubles.
* `addDouble_rep`        — it is exact below 2^49 millionths.
-/

namespace Db8

namespace MojDouble

/-- The nearest integer, the even one of two. -/
def roundHalfEven (q : ℚ) : ℤ :=
  if q - ⌊q⌋ < 1 / 2 then ⌊q⌋
  else if 1 / 2 < q - ⌊q⌋ then ⌊q⌋ + 1
  else if ⌊q⌋ % 2 = 0 then ⌊q⌋
  else ⌊q⌋ + 1

/-- The exponent of the last of the 53 digits. -/
def exponent (q : ℚ) : ℤ := Int.log 2 |q| - 52

/-- The double nearest to a number. The numbers here stay far from the ends of the exponent's range. -/
def nearest (q : ℚ) : ℚ := if q = 0 then 0 else roundHalfEven (q / 2 ^ exponent q) * 2 ^ exponent q

/-- `llround`: half away from zero. -/
def llround (q : ℚ) : ℤ := if q < 0 then -⌊-q + 1 / 2⌋ else ⌊q + 1 / 2⌋

theorem abs_roundHalfEven_sub_le (q : ℚ) : |roundHalfEven q - q| ≤ 1 / 2 := by
  have hlow := Int.floor_le q
  have hhigh := Int.lt_floor_add_one q
  rw [abs_le]
  unfold roundHalfEven
  split_ifs <;> push_cast <;> constructor <;> linarith

/-- Half of the last digit. -/
theorem abs_nearest_sub_le (q : ℚ) : |nearest q - q| ≤ |q| / 2 ^ 53 := by
  unfold nearest
  by_cases hq : q = 0
  · simp [hq]
  rw [if_neg hq]
  have hpos : 0 < |q| := abs_pos.mpr hq
  have hscale : (0 : ℚ) < 2 ^ exponent q := by positivity
  have hdiff : roundHalfEven (q / 2 ^ exponent q) * 2 ^ exponent q - q =
      (roundHalfEven (q / 2 ^ exponent q) - q / 2 ^ exponent q) * 2 ^ exponent q := by
    rw [sub_mul, div_mul_cancel₀ q hscale.ne']
  have hlog : (2 : ℚ) ^ Int.log 2 |q| ≤ |q| := by
    have hle := Int.zpow_log_le_self (b := 2) (by decide) hpos
    simpa using hle
  have hexp : (2 : ℚ) ^ exponent q = 2 ^ Int.log 2 |q| / 2 ^ 52 := by
    rw [exponent, zpow_sub₀ (by norm_num)]
    norm_num
  rw [hdiff, abs_mul, abs_of_pos hscale]
  calc |(roundHalfEven (q / 2 ^ exponent q) : ℚ) - q / 2 ^ exponent q| * 2 ^ exponent q
      ≤ 1 / 2 * 2 ^ exponent q := by gcongr; exact abs_roundHalfEven_sub_le _
    _ = 2 ^ Int.log 2 |q| / 2 ^ 53 := by rw [hexp]; ring
    _ ≤ |q| / 2 ^ 53 := by gcongr

theorem llround_eq {q : ℚ} {n : ℤ} (h : |q - n| < 1 / 2) : llround q = n := by
  obtain ⟨hlow, hhigh⟩ := abs_lt.mp h
  unfold llround
  split_ifs with hq
  · have hfloor : ⌊-q + 1 / 2⌋ = -n := by
      rw [Int.floor_eq_iff]
      push_cast
      constructor <;> linarith
    omega
  · rw [Int.floor_eq_iff]
    constructor <;> linarith

end MojDouble

namespace MojDecimal

open MojDouble

def Numerator : Int64 := 1000000

def magnitude (d : MojDecimal) : Int64 := d.rep / Numerator

/-- `MojAbs(m_rep) % Numerator`. -/
def fraction (d : MojDecimal) : Int64 := (if d.rep < 0 then -d.rep else d.rep) % Numerator

/-- `assign(magnitude, 0)`. -/
def ofMagnitude (magnitude : Int64) : MojDecimal := ⟨magnitude * Numerator⟩

def floatValue (d : MojDecimal) : ℚ := nearest (nearest d.rep.toInt / 1000000)

/-- `assign(MojDouble)`. -/
def ofDouble (d : ℚ) : MojDecimal := ⟨Int64.ofInt (llround (nearest (d * 1000000)))⟩

/-- `MojDecimal(a.floatValue() + b.floatValue())`. -/
def addDouble (a b : MojDecimal) : MojDecimal := ofDouble (nearest (a.floatValue + b.floatValue))

theorem abs_floatValue_sub_le (d : MojDecimal) :
    |d.floatValue * 1000000 - d.rep.toInt| ≤ |(d.rep.toInt : ℚ)| * (2 / 2 ^ 53 + 1 / 2 ^ 106) := by
  have hrep := abs_nearest_sub_le d.rep.toInt
  have hdiv := abs_nearest_sub_le (nearest d.rep.toInt / 1000000)
  unfold floatValue
  generalize (d.rep.toInt : ℚ) = r at hrep hdiv ⊢
  generalize nearest r = x at hrep hdiv ⊢
  generalize nearest (x / 1000000) = y at hdiv ⊢
  have hscaled : |y * 1000000 - x| ≤ |x| / 2 ^ 53 := by
    have hmul : y * 1000000 - x = (y - x / 1000000) * 1000000 := by ring
    have habs : |x / 1000000| = |x| / 1000000 := by rw [abs_div]; norm_num
    rw [habs] at hdiv
    rw [hmul, abs_mul, abs_of_pos (by norm_num : (0 : ℚ) < 1000000)]
    linarith
  have hx : |x| ≤ |r| + |r| / 2 ^ 53 := by
    have hsub := abs_sub_abs_le_abs_sub x r
    linarith
  have hsum := abs_sub_le (y * 1000000) x r
  have hdivx : |x| / 2 ^ 53 ≤ (|r| + |r| / 2 ^ 53) / 2 ^ 53 := by gcongr
  have hexpand : |r| * (2 / 2 ^ 53 + 1 / 2 ^ 106) = (|r| + |r| / 2 ^ 53) / 2 ^ 53 + |r| / 2 ^ 53 := by ring
  linarith

/-- Four roundings of a relative error of 2^-53 stay below a half. -/
theorem addDouble_rep {a b : MojDecimal} (h : |a.rep.toInt| + |b.rep.toInt| ≤ 2 ^ 49) :
    (addDouble a b).rep.toInt = a.rep.toInt + b.rep.toInt := by
  have ha := abs_floatValue_sub_le a
  have hb := abs_floatValue_sub_le b
  have hle : |(a.rep.toInt : ℚ)| + |(b.rep.toInt : ℚ)| ≤ 2 ^ 49 := by exact_mod_cast h
  have hnear : |nearest (nearest (a.floatValue + b.floatValue) * 1000000) - ((a.rep.toInt + b.rep.toInt : ℤ) : ℚ)| < 1 / 2 := by
    push_cast
    generalize (a.rep.toInt : ℚ) = r at ha hle ⊢
    generalize (b.rep.toInt : ℚ) = t at hb hle ⊢
    generalize a.floatValue = x at ha ⊢
    generalize b.floatValue = y at hb ⊢
    have hs := abs_nearest_sub_le (x + y)
    have hm := abs_nearest_sub_le (nearest (x + y) * 1000000)
    generalize nearest (x + y) = s at hs hm ⊢
    generalize nearest (s * 1000000) = m at hm ⊢
    have hxy : |(x + y) * 1000000 - (r + t)| ≤ (|r| + |t|) * (2 / 2 ^ 53 + 1 / 2 ^ 106) := by
      have hadd := abs_add_le (x * 1000000 - r) (y * 1000000 - t)
      have he : (x + y) * 1000000 - (r + t) = x * 1000000 - r + (y * 1000000 - t) := by ring
      rw [he]
      linarith
    have hxyabs : |(x + y) * 1000000| ≤ (|r| + |t|) * (1 + 2 / 2 ^ 53 + 1 / 2 ^ 106) := by
      have hsub := abs_sub_abs_le_abs_sub ((x + y) * 1000000) (r + t)
      have hrt := abs_add_le r t
      linarith
    have hs' : |s * 1000000 - (x + y) * 1000000| ≤ |(x + y) * 1000000| / 2 ^ 53 := by
      have he : s * 1000000 - (x + y) * 1000000 = (s - (x + y)) * 1000000 := by ring
      rw [he, abs_mul, abs_mul, abs_of_pos (by norm_num : (0 : ℚ) < 1000000)]
      linarith
    have hsabs := abs_sub_abs_le_abs_sub (s * 1000000) ((x + y) * 1000000)
    have hm1 := abs_sub_le m (s * 1000000) (r + t)
    have hm2 := abs_sub_le (s * 1000000) ((x + y) * 1000000) (r + t)
    have hrt : 0 ≤ |r| + |t| := by positivity
    linarith
  have hround := llround_eq hnear
  have hrange := abs_add_le a.rep.toInt b.rep.toInt
  rw [addDouble, ofDouble, hround]
  obtain ⟨hlow, hhigh⟩ := abs_le.mp (hrange.trans h)
  exact Int64.toInt_ofInt_of_le (by omega) (by omega)

end MojDecimal

end Db8
