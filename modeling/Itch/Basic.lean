import Mathlib.Data.UInt
import Itch.Framework.SortedLadder

/-!
# Value types of the books

Prices, sides and the records the book queries return. A string is the list
of its bytes.
-/

namespace Itch

abbrev Str : Type := List UInt8

/-- The bytes of a literal. -/
def literal (s : String) : Str := s.toList.map Char.toUInt8

/-- A price field: the raw wire value, four implied decimals. -/
structure StandardPrice where
  raw : UInt32 := 0
deriving DecidableEq, Repr

namespace Book

inductive Side where
  | buy
  | sell
deriving DecidableEq, Repr

/-- The underlying character of the enumeration. -/
def Side.toChar : Side → UInt8
  | .buy => 'B'.toUInt8
  | .sell => 'S'.toUInt8

/-- Price priority of a side: bids descend, asks ascend. -/
def Side.before : Side → UInt32 → UInt32 → Bool
  | .buy, a, b => decide (a > b)
  | .sell, a, b => decide (a < b)

theorem Side.priority (side : Side) :
    SortedLadder.Priority side.before where
  irrefl a := by cases side <;> simp [before]
  trans {a b c} h h' := by
    cases side <;>
      simp only [before, decide_eq_true_eq, gt_iff_lt,
        UInt32.lt_iff_toNat_lt] at * <;> omega
  total a b := by
    cases side <;>
      simp only [before, decide_eq_true_eq, gt_iff_lt, UInt32.lt_iff_toNat_lt,
        ← UInt32.toNat_inj] <;> omega

/-- The same priority as a three-way comparison. -/
def Side.compare : Side → UInt32 → UInt32 → Ordering
  | .buy, a, b => Ord.compare b a
  | .sell, a, b => Ord.compare a b

instance (side : Side) : Std.TransCmp side.compare := by
  cases side
  · exact inferInstanceAs (Std.TransCmp fun a b : UInt32 => Ord.compare b a)
  · exact inferInstanceAs (Std.TransCmp (Ord.compare : UInt32 → _))

instance (side : Side) : Std.LawfulEqCmp side.compare := by
  cases side
  · exact inferInstanceAs
      (Std.LawfulEqCmp fun a b : UInt32 => Ord.compare b a)
  · exact inferInstanceAs (Std.LawfulEqCmp (Ord.compare : UInt32 → _))

theorem Side.compare_eq_lt {side : Side} {a b : UInt32} :
    side.compare a b = .lt ↔ side.before a b = true := by
  cases side <;>
    simp [Side.compare, Side.before, Std.compare_eq_lt]

/-- Aggregated state of one price level. -/
structure DepthLevel where
  price : StandardPrice := {}
  shares : UInt64 := 0
  orderCount : UInt32 := 0
deriving DecidableEq, Repr

/-- A single resting order. -/
structure OrderView where
  referenceNumber : UInt64 := 0
  shares : UInt32 := 0
  price : StandardPrice := {}
deriving DecidableEq, Repr

/-- Best bid and offer of a single book. -/
structure Bbo where
  hasBid : Bool := false
  hasAsk : Bool := false
  bidPrice : StandardPrice := {}
  bidShares : UInt64 := 0
  askPrice : StandardPrice := {}
  askShares : UInt64 := 0
deriving DecidableEq, Repr

end Book

end Itch
