import Itch.Framework.Binary64
import Mathlib.Algebra.BigOperators.Group.List.Basic

/-!
# Rounding errors

§1 says which numbers are doubles, and that `round64` is the nearest of them;
that it is monotone and leaves doubles as they are follows. §2 bounds the
error relative to the value. §3 counts the roundings between two numbers that
are not negative, and says how the count grows with each operation.
-/

namespace Binary64

/-! ## §1  Doubles -/

/-- A multiple of a power of two, by a number of at most 53 bits. -/
def IsDouble (x : ℚ) : Prop :=
  ∃ m e : ℤ, |m| ≤ 2 ^ 53 ∧ -1074 ≤ e ∧ x = m * 2 ^ e

theorem IsDouble.intCast {n : ℤ} (h : |n| ≤ 2 ^ 53) : IsDouble n :=
  ⟨n, 0, h, by norm_num, by rw [zpow_zero, mul_one]⟩

theorem IsDouble.zpow {k : ℤ} (h : -1074 ≤ k) : IsDouble (2 ^ k) :=
  ⟨1, k, by norm_num, h, by rw [Int.cast_one, one_mul]⟩

theorem IsDouble.two_mul {x : ℚ} (h : IsDouble x) : IsDouble (2 * x) := by
  obtain ⟨m, e, hm, he, rfl⟩ := h
  refine ⟨m, e + 1, hm, by linarith, ?_⟩
  rw [zpow_add_one₀ (by norm_num)]
  ring

theorem round64_zero : round64 0 = 0 := by
  have hround := round64_intCast (n := 0) (by norm_num)
  rwa [Int.cast_zero] at hround

/-- No integer is closer. -/
theorem abs_roundTiesEven_le (q : ℚ) (n : ℤ) :
    |(roundTiesEven q : ℚ) - q| ≤ |(n : ℚ) - q| := by
  by_cases h : |(n : ℚ) - q| < 1 / 2
  · rw [roundTiesEven_eq (by rwa [abs_sub_comm])]
  · exact (abs_roundTiesEven_sub_le q).trans (not_lt.mp h)

theorem two_zpow_quantum_dvd {q : ℚ} {e : ℤ} (h : quantum q ≤ e) (m : ℤ) :
    ∃ n : ℤ, (m : ℚ) * 2 ^ e = n * 2 ^ quantum q := by
  obtain ⟨k, hk⟩ := Int.eq_ofNat_of_zero_le (sub_nonneg.mpr h)
  refine ⟨m * 2 ^ k, ?_⟩
  have hsplit : e = k + quantum q := by
    rw [← hk]
    exact (sub_add_cancel _ _).symm
  rw [hsplit, zpow_add₀ (by norm_num), zpow_natCast]
  push_cast
  ring

/-- Among the multiples of the last bit, none is closer. -/
theorem abs_round64_le_multiple (q : ℚ) (n : ℤ) :
    |round64 q - q| ≤ |n * 2 ^ quantum q - q| := by
  have hpos := quantum_pos q
  have hscale (k : ℤ) : (k : ℚ) * 2 ^ quantum q - q =
      (k - q / 2 ^ quantum q) * 2 ^ quantum q := by
    rw [sub_mul, div_mul_cancel₀ _ hpos.ne']
  rw [round64, hscale, hscale, abs_mul, abs_mul]
  exact mul_le_mul_of_nonneg_right (abs_roundTiesEven_le _ n) (abs_nonneg _)

theorem zpow_log_le {q : ℚ} (h : q ≠ 0) : (2 : ℚ) ^ Int.log 2 |q| ≤ |q| :=
  Int.zpow_log_le_self one_lt_two (abs_pos.mpr h)

/-- The signed power of two below `|q|`. -/
theorem exists_multiple_log {q : ℚ} (hq : q ≠ 0)
    (hlog : quantum q ≤ Int.log 2 |q|) :
    ∃ n : ℤ, |(n : ℚ) * 2 ^ quantum q - q| = |q| - 2 ^ Int.log 2 |q| := by
  have hle := sub_nonneg.mpr (zpow_log_le hq)
  rcases lt_or_gt_of_ne hq with hneg | hpos
  · obtain ⟨n, hn⟩ := two_zpow_quantum_dvd hlog (-1)
    refine ⟨n, ?_⟩
    rw [abs_of_neg hneg] at hn hle ⊢
    rw [← hn, Int.cast_neg, Int.cast_one, ← abs_of_nonneg hle]
    congr 1
    ring
  · obtain ⟨n, hn⟩ := two_zpow_quantum_dvd hlog 1
    refine ⟨n, ?_⟩
    rw [abs_of_pos hpos] at hn hle ⊢
    rw [← hn, Int.cast_one, one_mul, abs_sub_comm, abs_of_nonneg hle]

/-- `round64` rounds to the nearest double. -/
theorem abs_round64_le (q : ℚ) {x : ℚ} (h : IsDouble x) :
    |round64 q - q| ≤ |x - q| := by
  obtain ⟨m, e, hm, he, rfl⟩ := h
  by_cases hq : q = 0
  · rw [hq, round64_zero, sub_self, abs_zero]
    exact abs_nonneg _
  by_cases hquantum : quantum q ≤ e
  · obtain ⟨n, hn⟩ := two_zpow_quantum_dvd hquantum m
    rw [hn]
    exact abs_round64_le_multiple q n
  · -- a finer double is below the power of two that `q` is above
    have hnormal : quantum q = Int.log 2 |q| - 52 := by
      rw [quantum] at hquantum ⊢
      omega
    obtain ⟨n, hn⟩ := exists_multiple_log hq (by omega)
    have hbelow : |(m : ℚ) * 2 ^ e| ≤ 2 ^ Int.log 2 |q| := by
      have hm' : |(m : ℚ)| ≤ 2 ^ (53 : ℤ) := by exact_mod_cast hm
      rw [abs_mul, abs_of_pos (by positivity : (0 : ℚ) < 2 ^ e)]
      calc |(m : ℚ)| * 2 ^ e ≤ 2 ^ (53 : ℤ) * 2 ^ e :=
            mul_le_mul_of_nonneg_right hm' (by positivity)
        _ = 2 ^ (53 + e) := (zpow_add₀ (by norm_num) _ _).symm
        _ ≤ 2 ^ Int.log 2 |q| :=
            zpow_le_zpow_right₀ (by norm_num) (by omega)
    calc |round64 q - q| ≤ |(n : ℚ) * 2 ^ quantum q - q| :=
          abs_round64_le_multiple q n
      _ = |q| - 2 ^ Int.log 2 |q| := hn
      _ ≤ |q| - |(m : ℚ) * 2 ^ e| := by linarith
      _ ≤ |q - m * 2 ^ e| := abs_sub_abs_le_abs_sub _ _
      _ = |m * 2 ^ e - q| := abs_sub_comm _ _

/-- A double is not changed. -/
theorem IsDouble.round64_eq {x : ℚ} (h : IsDouble x) : round64 x = x := by
  have hnearest := abs_round64_le x h
  rw [sub_self, abs_zero] at hnearest
  exact sub_eq_zero.mp (abs_nonpos_iff.mp hnearest)

theorem roundTiesEven_le {q : ℚ} {n : ℤ} (h : q ≤ n) :
    roundTiesEven q ≤ n := by
  by_contra hlt
  have hnext : (n : ℚ) + 1 ≤ roundTiesEven q := by
    exact_mod_cast not_le.mp hlt
  have herror := abs_le.mp (abs_roundTiesEven_sub_le q)
  linarith [herror.2]

theorem le_roundTiesEven {q : ℚ} {n : ℤ} (h : (n : ℚ) ≤ q) :
    n ≤ roundTiesEven q := by
  by_contra hlt
  have hnext : (roundTiesEven q : ℚ) + 1 ≤ n := by
    exact_mod_cast not_le.mp hlt
  have herror := abs_le.mp (abs_roundTiesEven_sub_le q)
  linarith [herror.1]

theorem abs_div_quantum_le (q : ℚ) :
    |q / 2 ^ quantum q| ≤ 2 ^ (53 : ℤ) := by
  rw [abs_div, abs_of_pos (quantum_pos q), div_le_iff₀ (quantum_pos q),
    ← zpow_add₀ (by norm_num)]
  have hlt : |q| < (2 : ℚ) ^ (Int.log 2 |q| + 1) :=
    Int.lt_zpow_succ_log_self one_lt_two _
  refine hlt.le.trans (zpow_le_zpow_right₀ (by norm_num) ?_)
  rw [quantum]
  omega

/-- What it rounds to is a double. -/
theorem isDouble_round64 (q : ℚ) : IsDouble (round64 q) := by
  refine ⟨roundTiesEven (q / 2 ^ quantum q), quantum q, ?_,
    le_max_right _ _, rfl⟩
  have hrange := abs_le.mp (abs_div_quantum_le q)
  rw [abs_le]
  constructor
  · apply le_roundTiesEven
    push_cast
    exact_mod_cast hrange.1
  · apply roundTiesEven_le
    push_cast
    exact_mod_cast hrange.2

theorem round64_mono {q r : ℚ} (h : q ≤ r) : round64 q ≤ round64 r := by
  rcases h.eq_or_lt with rfl | hlt
  · exact le_rfl
  · by_contra hcross
    have hcross' := not_le.mp hcross
    -- each is at least as close to its own number as the other one is
    have hq := abs_round64_le q (isDouble_round64 r)
    have hr := abs_round64_le r (isDouble_round64 q)
    rw [← sq_le_sq] at hq hr
    nlinarith

theorem IsDouble.le_round64 {x q : ℚ} (hx : IsDouble x) (h : x ≤ q) :
    x ≤ round64 q := by
  rw [← hx.round64_eq]
  exact round64_mono h

theorem IsDouble.round64_le {x q : ℚ} (hx : IsDouble x) (h : q ≤ x) :
    round64 q ≤ x := by
  rw [← hx.round64_eq]
  exact round64_mono h

theorem round64_nonneg {q : ℚ} (h : 0 ≤ q) : 0 ≤ round64 q := by
  rw [← round64_zero]
  exact round64_mono h

/-- A tie is resolved alike on both sides of zero. -/
theorem roundTiesEven_neg (q : ℚ) : roundTiesEven (-q) = -roundTiesEven q := by
  rcases (abs_roundTiesEven_sub_le q).lt_or_eq with hlt | heq
  · apply roundTiesEven_eq
    rw [Int.cast_neg, neg_sub_neg]
    exact hlt
  · have hfract : q - ⌊q⌋ = 1 / 2 := by
      have hfloor := Int.floor_le q
      have hnext := Int.lt_floor_add_one q
      rw [roundTiesEven] at heq
      split at heq
      · rw [abs_of_nonpos (by linarith)] at heq
        linarith
      · push_cast at heq
        rw [abs_of_nonneg (by linarith)] at heq
        linarith
    have hfloor : ⌊-q⌋ = -⌊q⌋ - 1 := by
      rw [Int.floor_eq_iff]
      push_cast
      constructor <;> linarith
    have hfract' : -q - ⌊-q⌋ = 1 / 2 := by
      rw [hfloor]
      push_cast
      linarith
    rw [roundTiesEven, roundTiesEven, hfract, hfract', hfloor]
    simp only [lt_irrefl, false_or, true_and]
    split <;> split <;> omega

theorem quantum_neg (q : ℚ) : quantum (-q) = quantum q := by
  rw [quantum, quantum, abs_neg]

theorem round64_neg (q : ℚ) : round64 (-q) = -round64 q := by
  rw [round64, round64, quantum_neg, neg_div, roundTiesEven_neg, Int.cast_neg,
    neg_mul]

theorem abs_round64 (q : ℚ) : |round64 q| = round64 |q| := by
  rcases abs_cases q with ⟨habs, hq⟩ | ⟨habs, hq⟩
  · rw [habs, abs_of_nonneg (round64_nonneg hq)]
  · have hneg : 0 ≤ round64 (-q) := round64_nonneg (by linarith)
    rw [habs, round64_neg]
    rw [round64_neg] at hneg
    exact abs_of_nonpos (by linarith)

/-! ## §2  Relative errors -/

/-- Half of the last bit of one. -/
def unit : ℚ := 1 / 2 ^ 53

theorem one_sub_unit_pos : 0 < 1 - unit := by
  norm_num [unit]

theorem one_sub_unit_pow_pos (k : ℕ) : 0 < (1 - unit) ^ k :=
  pow_pos one_sub_unit_pos k

/-- Zero, or not smaller than a power of two. -/
def Sized (k : ℤ) (x : ℚ) : Prop := x = 0 ∨ 2 ^ k ≤ x

namespace Sized

variable {j k : ℤ} {x y : ℚ}

theorem nonneg (h : Sized k x) : 0 ≤ x := by
  rcases h with rfl | h
  · exact le_rfl
  · exact (by positivity : (0 : ℚ) ≤ 2 ^ k).trans h

theorem mono (h : Sized k x) (hjk : j ≤ k) : Sized j x :=
  h.imp_right (zpow_le_zpow_right₀ (by norm_num) hjk).trans

theorem natCast (n : ℕ) : Sized 0 (n : ℚ) := by
  rcases n.eq_zero_or_pos with rfl | h
  · exact .inl Nat.cast_zero
  · right
    rw [zpow_zero]
    exact_mod_cast h

protected theorem add (hx : Sized k x) (hy : Sized k y) :
    Sized k (x + y) := by
  rcases hx with rfl | hx'
  · rwa [zero_add]
  · exact .inr (by linarith [hy.nonneg])

protected theorem mul (hx : Sized j x) (hy : Sized k y) :
    Sized (j + k) (x * y) := by
  rcases hx with rfl | hx
  · exact .inl (zero_mul y)
  rcases hy with rfl | hy
  · exact .inl (mul_zero x)
  right
  rw [zpow_add₀ (by norm_num)]
  exact mul_le_mul hx hy (by positivity)
    ((by positivity : (0 : ℚ) ≤ 2 ^ j).trans hx)

protected theorem div (hx : Sized j x) (hpos : 0 < y) (hy : y ≤ 2 ^ k) :
    Sized (j - k) (x / y) := by
  rcases hx with rfl | hx
  · exact .inl (zero_div y)
  right
  rw [le_div_iff₀ hpos]
  calc (2 : ℚ) ^ (j - k) * y ≤ 2 ^ (j - k) * 2 ^ k :=
        mul_le_mul_of_nonneg_left hy (by positivity)
    _ = 2 ^ j := by rw [← zpow_add₀ (by norm_num), sub_add_cancel]
    _ ≤ x := hx

theorem round (h : Sized k x) (hk : -1074 ≤ k) : Sized k (round64 x) := by
  rcases h with rfl | h
  · exact .inl round64_zero
  · exact .inr ((IsDouble.zpow hk).le_round64 h)

end Sized

/-- Above the subnormal numbers the error is relative. -/
theorem abs_round64_sub_le_unit {x : ℚ} (h : Sized (-1022) x) :
    |round64 x - x| ≤ unit * x := by
  rcases h with rfl | h
  · rw [round64_zero, sub_self, abs_zero, mul_zero]
  have hpos : 0 < x := (by positivity : (0 : ℚ) < 2 ^ (-1022 : ℤ)).trans_le h
  have hlog : -1022 ≤ Int.log 2 x := by
    rw [← Int.zpow_le_iff_le_log one_lt_two hpos]
    exact h
  have hquantum : quantum x = Int.log 2 x - 52 := by
    rw [quantum, abs_of_pos hpos]
    omega
  have hle : (2 : ℚ) ^ Int.log 2 x ≤ x := by
    have hle := zpow_log_le hpos.ne'
    rwa [abs_of_pos hpos] at hle
  calc |round64 x - x| ≤ 2 ^ quantum x / 2 := abs_round64_sub_le x
    _ = unit * 2 ^ Int.log 2 x := by
        rw [hquantum, zpow_sub₀ (by norm_num), unit]
        norm_num
        ring
    _ ≤ unit * x := mul_le_mul_of_nonneg_left hle (by norm_num [unit])

/-! ## §3  Counting roundings -/

/-- The relative error `k` roundings can make. -/
def relativeError (k : ℕ) : ℚ := k / (2 ^ 53 - k)

/-- Numbers that `k` roundings can tell apart. -/
structure Near (k : ℕ) (x y : ℚ) : Prop where
  nonneg_left : 0 ≤ x
  nonneg_right : 0 ≤ y
  below : (1 - unit) ^ k * y ≤ x
  above : (1 - unit) ^ k * x ≤ y

namespace Near

variable {j k : ℕ} {w x y z : ℚ}

theorem refl (h : 0 ≤ x) : Near 0 x x where
  nonneg_left := h
  nonneg_right := h
  below := by rw [pow_zero, one_mul]
  above := by rw [pow_zero, one_mul]

theorem symm (h : Near k x y) : Near k y x :=
  ⟨h.nonneg_right, h.nonneg_left, h.above, h.below⟩

theorem trans (hxy : Near j x y) (hyz : Near k y z) : Near (j + k) x z where
  nonneg_left := hxy.nonneg_left
  nonneg_right := hyz.nonneg_right
  below := by
    rw [pow_add, mul_assoc]
    exact (mul_le_mul_of_nonneg_left hyz.below
      (one_sub_unit_pow_pos j).le).trans hxy.below
  above := by
    rw [pow_add, mul_comm ((1 - unit) ^ j), mul_assoc]
    exact (mul_le_mul_of_nonneg_left hxy.above
      (one_sub_unit_pow_pos k).le).trans hyz.above

theorem mono (h : Near j x y) (hjk : j ≤ k) : Near k x y := by
  have hpow : (1 - unit) ^ k ≤ (1 - unit) ^ j :=
    pow_le_pow_of_le_one one_sub_unit_pos.le (by norm_num [unit]) hjk
  exact ⟨h.nonneg_left, h.nonneg_right,
    (mul_le_mul_of_nonneg_right hpow h.nonneg_right).trans h.below,
    (mul_le_mul_of_nonneg_right hpow h.nonneg_left).trans h.above⟩

protected theorem add (hwx : Near k w x) (hyz : Near k y z) :
    Near k (w + y) (x + z) where
  nonneg_left := add_nonneg hwx.nonneg_left hyz.nonneg_left
  nonneg_right := add_nonneg hwx.nonneg_right hyz.nonneg_right
  below := by linarith [hwx.below, hyz.below]
  above := by linarith [hwx.above, hyz.above]

protected theorem mul (hwx : Near j w x) (hyz : Near k y z) :
    Near (j + k) (w * y) (x * z) where
  nonneg_left := mul_nonneg hwx.nonneg_left hyz.nonneg_left
  nonneg_right := mul_nonneg hwx.nonneg_right hyz.nonneg_right
  below := by
    rw [pow_add, mul_mul_mul_comm]
    exact mul_le_mul hwx.below hyz.below
      (mul_nonneg (one_sub_unit_pow_pos k).le hyz.nonneg_right)
      hwx.nonneg_left
  above := by
    rw [pow_add, mul_mul_mul_comm]
    exact mul_le_mul hwx.above hyz.above
      (mul_nonneg (one_sub_unit_pow_pos k).le hyz.nonneg_left)
      hwx.nonneg_right

theorem eq_zero (h : Near k x 0) : x = 0 := by
  have habove := h.above
  have hpow := one_sub_unit_pow_pos k
  exact le_antisymm (nonpos_of_mul_nonpos_right habove hpow) h.nonneg_left

theorem pos (h : Near k x y) (hy : 0 < y) : 0 < x :=
  (mul_pos (one_sub_unit_pow_pos k) hy).trans_le h.below

protected theorem inv (h : Near k x y) (hy : 0 < y) :
    Near k x⁻¹ y⁻¹ := by
  have hx := h.pos hy
  refine ⟨inv_nonneg.mpr hx.le, inv_nonneg.mpr hy.le, ?_, ?_⟩
  · rw [← div_eq_mul_inv, div_le_iff₀ hy, ← div_eq_inv_mul, le_div_iff₀ hx]
    exact h.above
  · rw [← div_eq_mul_inv, div_le_iff₀ hx, ← div_eq_inv_mul, le_div_iff₀ hy]
    exact h.below

protected theorem div (hwx : Near j w x) (hyz : Near k y z) (hz : 0 < z) :
    Near (j + k) (w / y) (x / z) := by
  rw [div_eq_mul_inv, div_eq_mul_inv]
  exact hwx.mul (hyz.inv hz)

/-- One rounding more. -/
theorem round (h : Near k x y) (hx : Sized (-1022) x) :
    Near (k + 1) (round64 x) y := by
  have herror := abs_le.mp (abs_round64_sub_le_unit hx)
  have hunit : 0 ≤ unit := by norm_num [unit]
  have hone : Near 1 (round64 x) x := by
    refine ⟨round64_nonneg hx.nonneg, hx.nonneg, ?_, ?_⟩
    · rw [pow_one]
      linarith [herror.1]
    · -- `(1 - unit) * (1 + unit)` is less than one
      rw [pow_one]
      nlinarith [herror.2, hx.nonneg, mul_nonneg hunit hx.nonneg,
        one_sub_unit_pos]
  rw [add_comm]
  exact hone.trans h

theorem one_sub_mul_le_pow (k : ℕ) : 1 - k * unit ≤ (1 - unit) ^ k := by
  have hge := one_add_mul_le_pow (a := -unit) (by norm_num [unit]) k
  rw [mul_neg, ← sub_eq_add_neg, ← sub_eq_add_neg] at hge
  exact hge

/-- `k` roundings do not make a number much larger. -/
theorem le_two_pow_mul (h : Near k x y) (hk : k < 2 ^ 53) :
    x ≤ 2 ^ 53 * y := by
  have hkq : (k : ℚ) + 1 ≤ 2 ^ 53 := by exact_mod_cast hk
  have habove : (1 - k * unit) * x ≤ y :=
    (mul_le_mul_of_nonneg_right (one_sub_mul_le_pow k) h.nonneg_left).trans
      h.above
  have hx := mul_le_mul_of_nonneg_right hkq h.nonneg_left
  rw [unit] at habove
  linarith

theorem abs_sub_le (h : Near k x y) (hk : k < 2 ^ 53) :
    |x - y| ≤ relativeError k * y := by
  have hkq : (k : ℚ) < 2 ^ 53 := by exact_mod_cast hk
  have hgap : (0 : ℚ) < 2 ^ 53 - k := sub_pos.mpr hkq
  have hbernoulli := one_sub_mul_le_pow k
  have hbelow : (1 - k * unit) * y ≤ x :=
    (mul_le_mul_of_nonneg_right hbernoulli h.nonneg_right).trans h.below
  have habove : (1 - k * unit) * x ≤ y :=
    (mul_le_mul_of_nonneg_right hbernoulli h.nonneg_left).trans h.above
  have hk0 : (0 : ℚ) ≤ k := Nat.cast_nonneg k
  have hky := mul_nonneg hk0 h.nonneg_right
  rw [unit] at hbelow habove
  rw [relativeError, div_mul_eq_mul_div, le_div_iff₀ hgap, abs_sub_comm]
  rcases abs_cases (y - x) with ⟨habs, -⟩ | ⟨habs, -⟩
  · rw [habs]
    nlinarith
  · rw [habs]
    nlinarith

end Near

theorem sized_ofNat (n : ℕ) : Sized 0 (ofNat n) :=
  (Sized.natCast n).round (by norm_num)

theorem near_ofNat (n : ℕ) : Near 1 (ofNat n) n :=
  (Near.refl (Nat.cast_nonneg n)).round ((Sized.natCast n).mono (by norm_num))

end Binary64
