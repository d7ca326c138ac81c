import Itch.Framework.OrderedCode
import Itch.Price

/-!
# Times of day

§1 is numbers written with a fixed count of digits, §2 the string of a
timestamp. Both keep the order: sorted strings are sorted times.
-/

namespace Itch

/-! ## §1  Digits -/

/-- The digits of a number, filled up with zeros to a width. -/
def paddedDigits (width n : ℕ) : Str :=
  List.replicate (width - (decimalDigits n).length) '0'.toUInt8 ++
    decimalDigits n

def digit (n : ℕ) : UInt8 := n.digitChar.toUInt8

theorem paddedDigits_one {n : ℕ} (h : n < 10) : paddedDigits 1 n = [digit n] := by
  rw [paddedDigits, decimalDigits, Nat.toDigits_of_lt_base h]
  rfl

theorem paddedDigits_zero {width : ℕ} (h : 1 ≤ width) :
    paddedDigits width 0 = List.replicate width '0'.toUInt8 := by
  obtain ⟨width, rfl⟩ := Nat.exists_eq_succ_of_ne_zero (Nat.one_le_iff_ne_zero.mp h)
  rw [paddedDigits, decimalDigits, Nat.toDigits_zero, List.replicate_succ']
  rfl

/-- The last digit behind the other ones. -/
theorem paddedDigits_succ {width : ℕ} (h : 1 ≤ width) (n : ℕ) :
    paddedDigits (width + 1) n =
      paddedDigits width (n / 10) ++ [digit (n % 10)] := by
  by_cases hn : n < 10
  · rw [Nat.div_eq_of_lt hn, Nat.mod_eq_of_lt hn, paddedDigits_zero h,
      paddedDigits, decimalDigits, Nat.toDigits_of_lt_base hn]
    rfl
  · rw [paddedDigits, paddedDigits, decimalDigits,
      Nat.toDigits_of_base_le (by norm_num) (not_lt.mp hn), List.map_append,
      ← decimalDigits, List.length_append, List.append_assoc]
    congr 2
    exact Nat.add_sub_add_right ..

theorem orderedCode_paddedDigits {width : ℕ} (h : 1 ≤ width) :
    OrderedCode (· < ·) (10 ^ width) width (paddedDigits width) := by
  have hdigit : OrderedCode (· < ·) 10 1 fun n => [digit n] :=
    .singleton (by decide)
  induction width, h using Nat.le_induction with
  | base => exact hdigit.congr fun n hn => paddedDigits_one hn
  | succ width hwidth ih =>
    exact (ih.append hdigit []).congr fun n _ => paddedDigits_succ hwidth n

/-! ## §2  Timestamps -/

/-- `std::format("{:%T}", ..)` of nanoseconds, where the count is one of
`std::chrono::nanoseconds`. -/
def formatTimestamp (nanosPastMidnight : UInt64) : Str :=
  let nanos := nanosPastMidnight.toNat
  paddedDigits 2 (nanos / 3600000000000) ++ ':'.toUInt8 ::
    (paddedDigits 2 (nanos / 60000000000 % 60) ++ ':'.toUInt8 ::
      (paddedDigits 2 (nanos / 1000000000 % 60) ++ '.'.toUInt8 ::
        paddedDigits 9 (nanos % 1000000000)))

/-- Hours, minutes, seconds and their fraction are a mixed radix. -/
theorem orderedCode_timestamp :
    OrderedCode (· < ·) (100 * (60 * (60 * 1000000000))) 18 fun n =>
      paddedDigits 2 (n / 3600000000000) ++ ':'.toUInt8 ::
        (paddedDigits 2 (n / 60000000000 % 60) ++ ':'.toUInt8 ::
          (paddedDigits 2 (n / 1000000000 % 60) ++ '.'.toUInt8 ::
            paddedDigits 9 (n % 1000000000))) := by
  have htwo := @orderedCode_paddedDigits 2 (by norm_num)
  have hnine := @orderedCode_paddedDigits 9 (by norm_num)
  have hseconds := (htwo.mono (by norm_num : 60 ≤ 10 ^ 2)).append hnine
    ['.'.toUInt8]
  have hminutes := (htwo.mono (by norm_num : 60 ≤ 10 ^ 2)).append hseconds
    [':'.toUInt8]
  refine (htwo.append hminutes [':'.toUInt8]).congr fun n _ => ?_
  have hminute : n / 60000000000 % 60 =
      n % (60 * (60 * 10 ^ 9)) / (60 * 10 ^ 9) := by omega
  have hsecond : n / 1000000000 % 60 =
      n % (60 * (60 * 10 ^ 9)) % (60 * 10 ^ 9) / 10 ^ 9 := by omega
  have hfraction : n % 1000000000 =
      n % (60 * (60 * 10 ^ 9)) % (60 * 10 ^ 9) % 10 ^ 9 := by omega
  rw [hminute, hsecond, hfraction]
  rfl

/-- **Formatted timestamps sort as timestamps do.** The strings of all
timestamps that are read from the wire have 18 bytes, and compared byte by byte
they are ordered as the timestamps are. -/
theorem formatTimestamp_sorted (timestamp timestamp' : UInt64)
    (h : timestamp < 2 ^ 48) (h' : timestamp' < 2 ^ 48) :
    (formatTimestamp timestamp).length = 18 ∧
      (formatTimestamp timestamp < formatTimestamp timestamp' ↔
        timestamp < timestamp') ∧
      (formatTimestamp timestamp = formatTimestamp timestamp' ↔
        timestamp = timestamp') := by
  have hcode := orderedCode_timestamp
  have hbound {t : UInt64} (ht : t < 2 ^ 48) :
      t.toNat < 100 * (60 * (60 * 1000000000)) :=
    lt_trans (UInt64.lt_iff_toNat_lt.mp ht) (by decide)
  refine ⟨hcode.length_eq (hbound h), ?_, ?_⟩
  · rw [UInt64.lt_iff_toNat_lt]
    exact hcode.lex_iff (hbound h) (hbound h')
  · constructor
    · intro heq
      exact UInt64.toNat_inj.mp (hcode.eq_of_code (hbound h) (hbound h') heq)
    · exact congrArg formatTimestamp

/-- Half past nine, and a nanosecond later. -/
theorem formatTimestamp_sorted_opening :
    formatTimestamp 34200000000000 < formatTimestamp 34200000000001 :=
  (formatTimestamp_sorted 34200000000000 34200000000001 (by decide)
    (by decide)).2.1.mpr (by decide)

example : formatTimestamp 34200000000001 =
    "09:30:00.000000001".toList.map Char.toUInt8 := by decide +kernel

end Itch
