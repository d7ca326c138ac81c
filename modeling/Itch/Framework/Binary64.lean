import Mathlib.Data.Int.Log
import Mathlib.Data.Rat.Floor
import Mathlib.Tactic

/-!
# Arithmetic on doubles

A finite double is its value, a rational number. An operation is the exact one
followed by `round64`, which rounds to the nearest value of 53 significant
bits, to the even one of two. §1 rounds to integers, §2 to doubles; there is
no overflow, nor are there signed zeros. §3 says where rounding does nothing.
-/

namespace Binary64

/-! ## §1  Rounding to integers -/

def roundTiesEven (q : ℚ) : ℤ :=
  if q - ⌊q⌋ < 1 / 2 ∨ q - ⌊q⌋ = 1 / 2 ∧ ⌊q⌋ % 2 = 0 then ⌊q⌋ else ⌊q⌋ + 1

theorem abs_roundTiesEven_sub_le (q : ℚ) :
    |(roundTiesEven q : ℚ) - q| ≤ 1 / 2 := by
  have hfloor := Int.floor_le q
  have hnext := Int.lt_floor_add_one q
  rw [roundTiesEven, abs_le]
  split
  · rename_i h
    have hle : q - ⌊q⌋ ≤ 1 / 2 := by
      rcases h with h | ⟨h, -⟩
      · exact h.le
      · exact h.le
    constructor <;> linarith
  · rename_i h
    have hge : 1 / 2 ≤ q - ⌊q⌋ := not_lt.mp fun hlt => h (.inl hlt)
    push_cast
    constructor <;> linarith

/-- Nothing else is closer than one half. -/
theorem roundTiesEven_eq {q : ℚ} {n : ℤ} (h : |q - n| < 1 / 2) :
    roundTiesEven q = n := by
  have hround := abs_roundTiesEven_sub_le q
  have hdist : |((roundTiesEven q - n : ℤ) : ℚ)| < 1 := by
    have htriangle := abs_add_le ((roundTiesEven q : ℚ) - q) (q - n)
    rw [sub_add_sub_cancel] at htriangle
    push_cast
    linarith
  have hzero : |roundTiesEven q - n| < 1 := by exact_mod_cast hdist
  exact sub_eq_zero.mp (Int.abs_lt_one_iff.mp hzero)

theorem roundTiesEven_intCast (n : ℤ) : roundTiesEven (n : ℚ) = n := by
  apply roundTiesEven_eq
  rw [sub_self, abs_zero]
  norm_num

/-! ## §2  Rounding to doubles -/

/-- The exponent of the last bit of a double near `q`. -/
def quantum (q : ℚ) : ℤ := max (Int.log 2 |q| - 52) (-1074)

def round64 (q : ℚ) : ℚ :=
  roundTiesEven (q / 2 ^ quantum q) * 2 ^ quantum q

/-- `static_cast<double>` of an unsigned integer. -/
def ofNat (n : ℕ) : ℚ := round64 n

def add (a b : ℚ) : ℚ := round64 (a + b)

def sub (a b : ℚ) : ℚ := round64 (a - b)

def mul (a b : ℚ) : ℚ := round64 (a * b)

def div (a b : ℚ) : ℚ := round64 (a / b)

theorem quantum_pos (q : ℚ) : (0 : ℚ) < 2 ^ quantum q := by positivity

theorem abs_round64_sub_le (q : ℚ) :
    |round64 q - q| ≤ 2 ^ quantum q / 2 := by
  have hpos := quantum_pos q
  have hscale : round64 q - q =
      ((roundTiesEven (q / 2 ^ quantum q) : ℚ) - q / 2 ^ quantum q) *
        2 ^ quantum q := by
    rw [round64, sub_mul, div_mul_cancel₀ _ hpos.ne']
  rw [hscale, abs_mul, abs_of_pos hpos]
  calc |(roundTiesEven (q / 2 ^ quantum q) : ℚ) - q / 2 ^ quantum q| *
        2 ^ quantum q
      ≤ 1 / 2 * 2 ^ quantum q :=
        mul_le_mul_of_nonneg_right (abs_roundTiesEven_sub_le _) hpos.le
    _ = 2 ^ quantum q / 2 := by ring

/-! ## §3  Exact values and small errors -/

theorem log_lt {q : ℚ} {k : ℤ} (hq : q ≠ 0) (h : |q| < 2 ^ k) :
    Int.log 2 |q| < k := by
  have hle : ((2 : ℕ) : ℚ) ^ Int.log 2 |q| ≤ |q| :=
    Int.zpow_log_le_self one_lt_two (abs_pos.mpr hq)
  have hlt := hle.trans_lt h
  exact (zpow_lt_zpow_iff_right₀ (by norm_num : (1 : ℚ) < 2)).mp hlt

/-- A number of at most 53 bits is a double. -/
theorem round64_intCast {n : ℤ} (h : |n| < 2 ^ 53) :
    round64 (n : ℚ) = n := by
  have hquantum : quantum (n : ℚ) ≤ 0 := by
    by_cases hn : n = 0
    · subst hn
      simp [quantum]
    · have hlt : |(n : ℚ)| < 2 ^ (53 : ℤ) := by exact_mod_cast h
      have hlog := log_lt (by exact_mod_cast hn) hlt
      rw [quantum, max_le_iff]
      constructor <;> omega
  obtain ⟨k, hk⟩ := Int.eq_ofNat_of_zero_le (neg_nonneg.mpr hquantum)
  -- the number is a multiple of its last bit
  have hmultiple : (n : ℚ) / 2 ^ quantum (n : ℚ) = ((n * 2 ^ k : ℤ) : ℚ) := by
    rw [div_eq_mul_inv, ← zpow_neg, hk]
    push_cast
    rw [zpow_natCast]
  rw [round64, hmultiple, roundTiesEven_intCast, ← hmultiple,
    div_mul_cancel₀ _ (quantum_pos _).ne']

theorem ofNat_eq {n : ℕ} (h : n < 2 ^ 53) : ofNat n = n := by
  have hint : |(n : ℤ)| < 2 ^ 53 := by
    rw [Nat.abs_cast]
    exact_mod_cast h
  have hround := round64_intCast hint
  rwa [Int.cast_natCast] at hround

theorem sub_intCast {m n : ℤ} (h : |m - n| < 2 ^ 53) :
    sub (m : ℚ) (n : ℚ) = m - n := by
  have hround := round64_intCast h
  push_cast at hround
  exact hround

/-- The error below `2 ^ k` is at most half the last bit there. -/
theorem abs_round64_sub_le_of_lt {q : ℚ} {k : ℤ} (hk : -1021 ≤ k)
    (h : |q| < 2 ^ k) : |round64 q - q| ≤ 2 ^ (k - 53) / 2 := by
  by_cases hq : q = 0
  · subst hq
    have hzero : round64 0 = 0 := by
      have hround := round64_intCast (n := 0) (by norm_num)
      rwa [Int.cast_zero] at hround
    rw [hzero, sub_self, abs_zero]
    positivity
  · have hlog := log_lt hq h
    have hquantum : quantum q ≤ k - 53 := by
      rw [quantum, max_le_iff]
      constructor <;> omega
    refine (abs_round64_sub_le q).trans ?_
    have hle : (2 : ℚ) ^ quantum q ≤ 2 ^ (k - 53) :=
      zpow_le_zpow_right₀ (by norm_num) hquantum
    linarith

end Binary64
