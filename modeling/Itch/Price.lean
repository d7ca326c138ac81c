import Itch.Basic
import Itch.Framework.Binary64Error

/-!
# Prices

A price as a double (§1), and as a decimal string (§2). Neither loses
anything of the raw value. §3 is the other price type, of which that holds up
to the size from which on doubles are further apart than prices.
-/

namespace Itch

open Binary64

/-- The digits of a number, as characters. -/
def decimalDigits (n : ℕ) : Str :=
  (Nat.toDigits 10 n).map Char.toUInt8

/-- `std::format` with a precision, for a number that is not negative. -/
def formatFixed (q : ℚ) (precision : ℕ) : Str :=
  let scaled := (roundTiesEven (q * 10 ^ precision)).toNat
  let fraction := decimalDigits (scaled % 10 ^ precision)
  decimalDigits (scaled / 10 ^ precision) ++ '.'.toUInt8 ::
    (List.replicate (precision - fraction.length) '0'.toUInt8 ++ fraction)

theorem decimalDigits_ne_nil (n : ℕ) : decimalDigits n ≠ [] := by
  rw [decimalDigits, ne_eq, List.map_eq_nil_iff]
  exact Nat.toDigits_ne_nil

/-- Digits are digits. -/
theorem decimalDigits_range {n : ℕ} {c : UInt8} (h : c ∈ decimalDigits n) :
    '0'.toUInt8 ≤ c ∧ c ≤ '9'.toUInt8 := by
  obtain ⟨d, hd, rfl⟩ := List.mem_map.mp h
  have hdigit := Nat.isDigit_of_mem_toDigits (by decide) (by decide) hd
  rw [Char.isDigit, Bool.and_eq_true, decide_eq_true_eq, decide_eq_true_eq,
    ge_iff_le, UInt32.le_iff_toNat_le, UInt32.le_iff_toNat_le] at hdigit
  have hcode : d.toUInt8.toNat = d.val.toNat % 2 ^ 8 := UInt32.toNat_toUInt8 _
  have hzero : '0'.val.toNat = 48 := rfl
  have hnine : '9'.val.toNat = 57 := rfl
  have hzero' : '0'.toUInt8.toNat = 48 := rfl
  have hnine' : '9'.toUInt8.toNat = 57 := rfl
  rw [UInt8.le_iff_toNat_le, UInt8.le_iff_toNat_le]
  constructor <;> omega

namespace StandardPrice

/-! ## §1  Doubles -/

def decimals : ℕ := 4

def divisor : UInt32 := (List.range decimals).foldl (fun result _ => result * 10) 1

def toDouble (p : StandardPrice) : ℚ :=
  div (ofNat p.raw.toNat) (ofNat divisor.toNat)

def toString (p : StandardPrice) : Str := formatFixed p.toDouble decimals

theorem toDouble_eq (p : StandardPrice) :
    p.toDouble = round64 (p.raw.toNat / 10000) := by
  have hraw : p.raw.toNat < 2 ^ 53 := p.raw.toNat_lt.trans (by norm_num)
  have hdivisor : divisor.toNat = 10000 := by decide
  rw [toDouble, hdivisor, ofNat_eq hraw, ofNat_eq (by norm_num)]
  rfl

/-- The double is much closer to the price than two prices are. -/
theorem abs_toDouble_sub_lt (p : StandardPrice) :
    |p.toDouble - p.raw.toNat / 10000| < 1 / 20000 := by
  have hraw : (p.raw.toNat : ℚ) < 2 ^ 32 := by exact_mod_cast p.raw.toNat_lt
  have hnonneg : (0 : ℚ) ≤ p.raw.toNat / 10000 := by positivity
  have hsmall : |(p.raw.toNat / 10000 : ℚ)| < 2 ^ (19 : ℤ) := by
    rw [abs_of_nonneg hnonneg, div_lt_iff₀ (by norm_num)]
    exact hraw.trans (by norm_num)
  rw [toDouble_eq]
  refine (abs_round64_sub_le_of_lt (by norm_num) hsmall).trans_lt ?_
  norm_num

theorem toDouble_lt_iff {p q : StandardPrice} :
    p.toDouble < q.toDouble ↔ p.raw < q.raw := by
  have hlt {p q : StandardPrice} (h : p.raw.toNat < q.raw.toNat) :
      p.toDouble < q.toDouble := by
    have hstep : (p.raw.toNat : ℚ) + 1 ≤ q.raw.toNat := by exact_mod_cast h
    have hp := abs_lt.mp (abs_toDouble_sub_lt p)
    have hq := abs_lt.mp (abs_toDouble_sub_lt q)
    linarith [hp.2, hq.1]
  rw [UInt32.lt_iff_toNat_lt]
  refine ⟨fun h => ?_, hlt⟩
  by_contra hge
  rcases (not_lt.mp hge).lt_or_eq with hlt' | heq
  · exact absurd (hlt hlt') h.not_gt
  · rw [toDouble_eq, toDouble_eq, heq] at h
    exact lt_irrefl _ h

theorem toDouble_inj {p q : StandardPrice} :
    p.toDouble = q.toDouble ↔ p.raw = q.raw := by
  constructor
  · intro h
    by_contra hne
    rcases UInt32.lt_or_lt_of_ne hne with hlt | hlt
    · exact absurd (toDouble_lt_iff.mpr hlt) (by rw [h]; exact lt_irrefl _)
    · exact absurd (toDouble_lt_iff.mpr hlt) (by rw [h]; exact lt_irrefl _)
  · intro h
    rw [toDouble_eq, toDouble_eq, h]

/-- The price, without rounding. -/
def exact (p : StandardPrice) : ℚ := p.raw.toNat / 10000

theorem sized_exact (p : StandardPrice) : Sized (-14) p.exact := by
  rcases p.raw.toNat.eq_zero_or_pos with hzero | hpos
  · left
    rw [exact, hzero, Nat.cast_zero, zero_div]
  · right
    have hone : (1 : ℚ) ≤ p.raw.toNat := by exact_mod_cast hpos
    rw [exact, le_div_iff₀ (by norm_num)]
    exact le_trans (by norm_num) hone

theorem near_toDouble (p : StandardPrice) : Near 1 p.toDouble p.exact := by
  have hsized := p.sized_exact
  rw [toDouble_eq]
  exact (Near.refl hsized.nonneg).round (hsized.mono (by norm_num))

theorem sized_toDouble (p : StandardPrice) : Sized (-14) p.toDouble := by
  rw [toDouble_eq]
  exact p.sized_exact.round (by norm_num)

theorem isDouble_toDouble (p : StandardPrice) : IsDouble p.toDouble := by
  rw [toDouble_eq]
  exact isDouble_round64 _

/-! ## §2  Strings -/

/-- The digits of the string are those of the raw value. -/
theorem roundTiesEven_toDouble (p : StandardPrice) :
    roundTiesEven (p.toDouble * 10 ^ decimals) = p.raw.toNat := by
  apply roundTiesEven_eq
  have herror := abs_toDouble_sub_lt p
  have hscale : p.toDouble * 10 ^ decimals - ((p.raw.toNat : ℤ) : ℚ) =
      (p.toDouble - p.raw.toNat / 10000) * 10000 := by
    rw [decimals]
    push_cast
    ring
  rw [hscale, abs_mul, abs_of_pos (by norm_num : (0 : ℚ) < 10000)]
  linarith

theorem toString_eq (p : StandardPrice) :
    p.toString = decimalDigits (p.raw.toNat / 10 ^ decimals) ++
      '.'.toUInt8 ::
        (List.replicate
            (decimals - (decimalDigits (p.raw.toNat % 10 ^ decimals)).length)
            '0'.toUInt8 ++
          decimalDigits (p.raw.toNat % 10 ^ decimals)) := by
  rw [toString, formatFixed, roundTiesEven_toDouble]
  rfl

theorem toString_range {p : StandardPrice} {c : UInt8} (h : c ∈ p.toString) :
    c = '.'.toUInt8 ∨ '0'.toUInt8 ≤ c ∧ c ≤ '9'.toUInt8 := by
  rw [toString_eq, List.mem_append, List.mem_cons, List.mem_append] at h
  rcases h with h | h | h | h
  · exact .inr (decimalDigits_range h)
  · exact .inl h
  · rw [List.eq_of_mem_replicate h]
    exact .inr (by decide)
  · exact .inr (decimalDigits_range h)

end StandardPrice

/-! ## §3  Decline levels -/

/-- A decline level of the circuit breaker: eight implied decimals. -/
structure MwcbPrice where
  raw : UInt64 := 0
deriving DecidableEq, Repr

namespace MwcbPrice

def decimals : ℕ := 8

def divisor : UInt64 :=
  (List.range decimals).foldl (fun result _ => result * 10) 1

def toDouble (p : MwcbPrice) : ℚ :=
  div (ofNat p.raw.toNat) (ofNat divisor.toNat)

def toString (p : MwcbPrice) : Str := formatFixed p.toDouble decimals

theorem toDouble_eq {p : MwcbPrice} (h : p.raw.toNat < 2 ^ 53) :
    p.toDouble = round64 (p.raw.toNat / 10 ^ 8) := by
  have hdivisor : divisor.toNat = 10 ^ 8 := by decide
  rw [toDouble, hdivisor, ofNat_eq h, ofNat_eq (by norm_num), div,
    Nat.cast_pow, Nat.cast_ofNat]

/-- Where doubles are less than two units of the last decimal apart, they are
closer to a price than half a unit. -/
theorem abs_toDouble_sub_lt {p : MwcbPrice}
    (h : p.raw.toNat < 2 ^ 26 * 10 ^ 8) :
    |p.toDouble - p.raw.toNat / 10 ^ 8| < 1 / (2 * 10 ^ 8) := by
  have hraw : (p.raw.toNat : ℚ) < 2 ^ 26 * 10 ^ 8 := by exact_mod_cast h
  have hnonneg : (0 : ℚ) ≤ p.raw.toNat / 10 ^ 8 := by positivity
  have hsmall : |(p.raw.toNat / 10 ^ 8 : ℚ)| < 2 ^ (26 : ℤ) := by
    rw [abs_of_nonneg hnonneg, div_lt_iff₀ (by norm_num)]
    exact hraw
  rw [toDouble_eq (h.trans (by norm_num))]
  refine (abs_round64_sub_le_of_lt (by norm_num) hsmall).trans_lt ?_
  norm_num

theorem roundTiesEven_toDouble {p : MwcbPrice}
    (h : p.raw.toNat < 2 ^ 26 * 10 ^ 8) :
    roundTiesEven (p.toDouble * 10 ^ decimals) = p.raw.toNat := by
  apply roundTiesEven_eq
  have herror := abs_toDouble_sub_lt h
  have hscale : p.toDouble * 10 ^ decimals - ((p.raw.toNat : ℤ) : ℚ) =
      (p.toDouble - p.raw.toNat / 10 ^ 8) * 10 ^ 8 := by
    rw [decimals]
    push_cast
    ring
  rw [hscale, abs_mul, abs_of_pos (by norm_num : (0 : ℚ) < 10 ^ 8)]
  linarith

theorem toDouble_lt {p q : MwcbPrice} (hp : p.raw.toNat < 2 ^ 26 * 10 ^ 8)
    (hq : q.raw.toNat < 2 ^ 26 * 10 ^ 8) (h : p.raw.toNat < q.raw.toNat) :
    p.toDouble < q.toDouble := by
  have hstep : (p.raw.toNat : ℚ) + 1 ≤ q.raw.toNat := by exact_mod_cast h
  have hbelow := (abs_lt.mp (abs_toDouble_sub_lt hp)).2
  have habove := (abs_lt.mp (abs_toDouble_sub_lt hq)).1
  linarith

/-- **Decline levels are printed exactly** below 67,108,864 dollars, and there
they are ordered as doubles as they are as raw values. -/
theorem toString_exact (p q : MwcbPrice) (hp : p.raw.toNat < 2 ^ 26 * 10 ^ 8)
    (hq : q.raw.toNat < 2 ^ 26 * 10 ^ 8) :
    p.toString = decimalDigits (p.raw.toNat / 10 ^ 8) ++ '.'.toUInt8 ::
        (List.replicate (8 - (decimalDigits (p.raw.toNat % 10 ^ 8)).length)
            '0'.toUInt8 ++
          decimalDigits (p.raw.toNat % 10 ^ 8)) ∧
      (p.toDouble < q.toDouble ↔ p.raw < q.raw) := by
  constructor
  · rw [toString, formatFixed, roundTiesEven_toDouble hp]
    rfl
  · rw [UInt64.lt_iff_toNat_lt]
    refine ⟨fun h => ?_, toDouble_lt hp hq⟩
    rcases lt_trichotomy p.raw.toNat q.raw.toNat with hlt | heq | hgt
    · exact hlt
    · rw [toDouble, toDouble, heq] at h
      exact absurd h (lt_irrefl _)
    · exact absurd h (toDouble_lt hq hp hgt).not_gt

/-- Two levels of the index, one unit of the last decimal apart. -/
theorem toString_exact_neighbours :
    toDouble ⟨500000000000⟩ < toDouble ⟨500000000001⟩ :=
  (toString_exact ⟨500000000000⟩ ⟨500000000001⟩ (by decide) (by decide)).2.mpr
    (by decide)

/-- The next levels are one double: the bound is sharp. -/
example :
    toString ⟨2 ^ 26 * 10 ^ 8 + 1⟩ = toString ⟨2 ^ 26 * 10 ^ 8 + 2⟩ := by
  decide +kernel

end MwcbPrice

end Itch
