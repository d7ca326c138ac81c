import Itch.Analytics.Microstructure
import Itch.Book.ShareConservation

/-!
# The top of the book

Spread, mid price, queue imbalance and depth. §1 has the four functions. §2
says what is left of the prices in the first two, §3 that the third is the
normalized difference it is documented to be, and §4 which orders the last
one counts.
-/

namespace Itch.Analytics

open Binary64 Book

/-! ## §1  Definitions -/

def spread (b : Bbo) : Option ℚ :=
  if !b.hasBid || !b.hasAsk then none
  else some (sub b.askPrice.toDouble b.bidPrice.toDouble)

def midPrice (b : Bbo) : Option ℚ :=
  if !b.hasBid || !b.hasAsk then none
  else some (div (add b.bidPrice.toDouble b.askPrice.toDouble) 2)

def queueImbalance (b : Bbo) : Option ℚ :=
  let bid := ofNat b.bidShares.toNat
  let ask := ofNat b.askShares.toNat
  let total := add bid ask
  if total ≤ 0 then none else some (div (sub bid ask) total)

def depthAtLevel (b : L3Book) (side : Side) (levels : ℕ) : UInt64 :=
  (b.depth side levels).foldl (fun total level => total + level.shares) 0

/-! ## §2  Spread and mid price -/

theorem exact_le (p : StandardPrice) : p.exact ≤ 2 ^ 19 - 1 := by
  have hraw : (p.raw.toNat : ℚ) ≤ 2 ^ 32 := by
    exact_mod_cast p.raw.toNat_lt.le
  rw [StandardPrice.exact, div_le_iff₀ (by norm_num)]
  exact hraw.trans (by norm_num)

theorem abs_toDouble_sub_exact_le (p : StandardPrice) :
    |p.toDouble - p.exact| ≤ 1 / 2 ^ 34 := by
  have herror := p.near_toDouble.abs_sub_le (by norm_num)
  rw [relativeError, Nat.cast_one] at herror
  refine herror.trans ?_
  calc 1 / (2 ^ 53 - 1) * p.exact ≤ 1 / (2 ^ 53 - 1) * (2 ^ 19 - 1) :=
        mul_le_mul_of_nonneg_left (exact_le p) (by norm_num)
    _ ≤ 1 / 2 ^ 34 := by norm_num

theorem toDouble_nonneg (p : StandardPrice) : 0 ≤ p.toDouble :=
  p.sized_toDouble.nonneg

theorem toDouble_lt (p : StandardPrice) : p.toDouble < 2 ^ 19 := by
  have hexact := exact_le p
  have herror := abs_le.mp (abs_toDouble_sub_exact_le p)
  have hsmall : (1 : ℚ) / 2 ^ 34 < 1 := by norm_num
  linarith [herror.2]

/-- The spread and the mid price are those of the raw prices, up to less than
half a tick. -/
structure Quotes (bid ask : StandardPrice) (s m : ℚ) : Prop where
  spread : roundTiesEven (s * 10000) = (ask.raw.toNat : ℤ) - bid.raw.toNat
  mid : roundTiesEven (m * 20000) = (bid.raw.toNat : ℤ) + ask.raw.toNat
  spread_pos : 0 < s ↔ bid.raw < ask.raw
  spread_neg : s < 0 ↔ ask.raw < bid.raw
  between : bid.raw ≤ ask.raw → bid.toDouble ≤ m ∧ m ≤ ask.toDouble

theorem abs_spread_sub_lt (bid ask : StandardPrice) :
    |sub ask.toDouble bid.toDouble * 10000 -
      (((ask.raw.toNat : ℤ) - bid.raw.toNat : ℤ) : ℚ)| < 1 / 2 := by
  have hbid := abs_le.mp (abs_toDouble_sub_exact_le bid)
  have hask := abs_le.mp (abs_toDouble_sub_exact_le ask)
  have hrange : |ask.toDouble - bid.toDouble| < 2 ^ (19 : ℤ) := by
    have hbid0 := toDouble_nonneg bid
    have hask0 := toDouble_nonneg ask
    have hbid' := toDouble_lt bid
    have hask' := toDouble_lt ask
    rw [abs_lt]
    norm_num at hbid' hask' ⊢
    constructor <;> linarith
  have hround := abs_le.mp (abs_round64_sub_le_of_lt (by norm_num) hrange)
  rw [StandardPrice.exact] at hbid hask
  rw [sub, abs_lt]
  push_cast
  norm_num at hround hbid hask ⊢
  constructor <;> linarith [hround.1, hround.2, hbid.1, hbid.2, hask.1, hask.2]

theorem abs_mid_sub_lt (bid ask : StandardPrice) :
    |div (add bid.toDouble ask.toDouble) 2 * 20000 -
      (((bid.raw.toNat : ℤ) + ask.raw.toNat : ℤ) : ℚ)| < 1 / 2 := by
  have hbid := abs_le.mp (abs_toDouble_sub_exact_le bid)
  have hask := abs_le.mp (abs_toDouble_sub_exact_le ask)
  have hsum0 : 0 ≤ bid.toDouble + ask.toDouble :=
    add_nonneg (toDouble_nonneg bid) (toDouble_nonneg ask)
  have hsum : bid.toDouble + ask.toDouble < 2 ^ (20 : ℤ) := by
    have hbid' := toDouble_lt bid
    have hask' := toDouble_lt ask
    norm_num at hbid' hask' ⊢
    linarith
  have hadd := abs_le.mp (abs_round64_sub_le_of_lt (k := 20) (by norm_num)
    (by rwa [abs_of_nonneg hsum0]))
  -- the rounded sum is not above the power of two either
  have hhalf0 : 0 ≤ add bid.toDouble ask.toDouble / 2 :=
    div_nonneg (round64_nonneg hsum0) (by norm_num)
  have hhalf : add bid.toDouble ask.toDouble / 2 < 2 ^ (20 : ℤ) := by
    have hle : add bid.toDouble ask.toDouble ≤ 2 ^ (20 : ℤ) :=
      (IsDouble.zpow (by norm_num)).round64_le hsum.le
    norm_num at hle ⊢
    linarith
  have hdiv := abs_le.mp (abs_round64_sub_le_of_lt (k := 20) (by norm_num)
    (by rwa [abs_of_nonneg hhalf0]))
  rw [StandardPrice.exact] at hbid hask
  rw [← add] at hadd
  rw [← div] at hdiv
  rw [abs_lt]
  push_cast
  norm_num at hadd hdiv hbid hask ⊢
  constructor <;>
    linarith [hadd.1, hadd.2, hdiv.1, hdiv.2, hbid.1, hbid.2, hask.1, hask.2]

/-- A difference of at least one tick keeps its sign. -/
theorem spread_sign (bid ask : StandardPrice) :
    (0 < sub ask.toDouble bid.toDouble ↔ bid.raw < ask.raw) ∧
      (sub ask.toDouble bid.toDouble < 0 ↔ ask.raw < bid.raw) := by
  obtain ⟨hlo, hhi⟩ := abs_lt.mp (abs_spread_sub_lt bid ask)
  rw [UInt32.lt_iff_toNat_lt, UInt32.lt_iff_toNat_lt]
  rcases lt_trichotomy bid.raw.toNat ask.raw.toNat with hlt | heq | hgt
  · have hone : (1 : ℚ) ≤ ((ask.raw.toNat : ℤ) - bid.raw.toNat : ℤ) := by
      exact_mod_cast (by omega : (1 : ℤ) ≤ ask.raw.toNat - bid.raw.toNat)
    have hpos : 0 < sub ask.toDouble bid.toDouble := by linarith
    exact ⟨iff_of_true hpos hlt, iff_of_false hpos.not_gt hlt.not_gt⟩
  · have hzero : sub ask.toDouble bid.toDouble = 0 := by
      rw [sub, StandardPrice.toDouble_inj.mpr (UInt32.toNat_inj.mp heq),
        sub_self, round64_zero]
    rw [hzero, heq]
    exact ⟨iff_of_false (lt_irrefl _) (lt_irrefl _),
      iff_of_false (lt_irrefl _) (lt_irrefl _)⟩
  · have hone : ((ask.raw.toNat : ℤ) - bid.raw.toNat : ℤ) ≤ (-1 : ℚ) := by
      exact_mod_cast (by omega : (ask.raw.toNat : ℤ) - bid.raw.toNat ≤ -1)
    have hneg : sub ask.toDouble bid.toDouble < 0 := by linarith
    exact ⟨iff_of_false hneg.not_gt hgt.not_gt, iff_of_true hneg hgt⟩

theorem toDouble_mono {p q : StandardPrice} (h : p.raw ≤ q.raw) :
    p.toDouble ≤ q.toDouble := by
  rw [← not_lt, StandardPrice.toDouble_lt_iff, UInt32.not_lt]
  exact h

theorem quotes_of_prices (bid ask : StandardPrice) :
    Quotes bid ask (sub ask.toDouble bid.toDouble)
      (div (add bid.toDouble ask.toDouble) 2) where
  spread := roundTiesEven_eq (abs_spread_sub_lt bid ask)
  mid := roundTiesEven_eq (abs_mid_sub_lt bid ask)
  spread_pos := (spread_sign bid ask).1
  spread_neg := (spread_sign bid ask).2
  between h := by
    have hle := toDouble_mono h
    constructor
    · apply bid.isDouble_toDouble.le_round64
      rw [le_div_iff₀ (by norm_num), mul_comm]
      apply bid.isDouble_toDouble.two_mul.le_round64
      linarith
    · apply ask.isDouble_toDouble.round64_le
      rw [div_le_iff₀ (by norm_num), mul_comm]
      apply ask.isDouble_toDouble.two_mul.round64_le
      linarith

/-- Both are there with both sides, and then tell the raw prices. -/
theorem spread_midPrice_quotes (b : Bbo) :
    match spread b, midPrice b with
    | some s, some m =>
      b.hasBid = true ∧ b.hasAsk = true ∧ Quotes b.bidPrice b.askPrice s m
    | none, none => b.hasBid = false ∨ b.hasAsk = false
    | _, _ => False := by
  rw [spread, midPrice]
  cases hbid : b.hasBid with
  | false => exact .inl rfl
  | true =>
    cases hask : b.hasAsk with
    | false => exact .inr rfl
    | true => exact ⟨rfl, rfl, quotes_of_prices b.bidPrice b.askPrice⟩

/-! ## §3  Queue imbalance -/

/-- The value lies between minus one and one and has the sign of the
difference; it is the rounded quotient while doubles can count the shares. -/
structure Imbalance (bid ask : ℕ) (x : ℚ) : Prop where
  range : |x| ≤ 1
  nonneg : ask ≤ bid → 0 ≤ x
  nonpos : bid ≤ ask → x ≤ 0
  quotient : bid + ask < 2 ^ 53 →
    x = round64 (((bid : ℤ) - ask : ℤ) / (bid + ask : ℕ))

theorem ofNat_mono {m n : ℕ} (h : m ≤ n) : ofNat m ≤ ofNat n :=
  round64_mono (by exact_mod_cast h)

theorem total_pos {bid ask : ℕ} (h : 0 < bid + ask) :
    0 < add (ofNat bid) (ofNat ask) := by
  have hsized : Sized 0 (add (ofNat bid) (ofNat ask)) :=
    ((sized_ofNat bid).add (sized_ofNat ask)).round (by norm_num)
  have hnear : Near 2 (add (ofNat bid) (ofNat ask)) ((bid : ℚ) + ask) :=
    ((near_ofNat bid).add (near_ofNat ask)).round
      (((sized_ofNat bid).add (sized_ofNat ask)).mono (by norm_num))
  exact hnear.pos (by exact_mod_cast h)

theorem imbalance_of_shares {bid ask : ℕ} (h : 0 < bid + ask) :
    Imbalance bid ask
      (div (sub (ofNat bid) (ofNat ask)) (add (ofNat bid) (ofNat ask))) := by
  have htotal := total_pos h
  have hbid := (sized_ofNat bid).nonneg
  have hask := (sized_ofNat ask).nonneg
  constructor
  · -- rounding keeps the difference within the sum, and the quotient within one
    have hdiff : |sub (ofNat bid) (ofNat ask)| ≤
        add (ofNat bid) (ofNat ask) := by
      rw [sub, abs_round64]
      apply round64_mono
      rw [abs_le]
      constructor <;> linarith
    have hone : IsDouble 1 := by
      have hint := IsDouble.intCast (n := 1) (by norm_num)
      rwa [Int.cast_one] at hint
    rw [div, abs_round64]
    apply hone.round64_le
    rw [abs_div, abs_of_pos htotal, div_le_one htotal]
    exact hdiff
  · intro hle
    have hdiff : 0 ≤ sub (ofNat bid) (ofNat ask) :=
      round64_nonneg (sub_nonneg.mpr (ofNat_mono hle))
    exact round64_nonneg (div_nonneg hdiff htotal.le)
  · intro hle
    have hdiff : sub (ofNat bid) (ofNat ask) ≤ 0 := by
      rw [← round64_zero]
      exact round64_mono (sub_nonpos.mpr (ofNat_mono hle))
    rw [← round64_zero]
    exact round64_mono (div_nonpos_of_nonpos_of_nonneg hdiff htotal.le)
  · intro hlt
    have hsub : sub (bid : ℚ) (ask : ℚ) = ((bid : ℤ) - ask : ℤ) := by
      have hexact := @sub_intCast bid ask (by rw [abs_lt]; omega)
      push_cast at hexact ⊢
      exact hexact
    have hadd : add (bid : ℚ) (ask : ℚ) = ((bid + ask : ℕ) : ℚ) := by
      have hexact := ofNat_eq hlt
      rw [ofNat, Nat.cast_add] at hexact
      rw [add, hexact, Nat.cast_add]
    rw [ofNat_eq (by omega), ofNat_eq (by omega), hsub, hadd, div]

theorem sub_swap (a b : ℚ) : sub a b = -sub b a := by
  rw [sub, sub, ← round64_neg, neg_sub]

theorem add_swap (a b : ℚ) : add a b = add b a := by
  rw [add, add, add_comm]

/-- There is none only when nothing rests on either side, and when the sides
are exchanged it changes its sign. -/
theorem queueImbalance_normalized (b : Bbo) (m : UInt32) :
    match queueImbalance b with
    | none =>
      b.bidShares = 0 ∧ b.askShares = 0 ∧ queueImbalance (mirror m b) = none
    | some x =>
      (b.bidShares ≠ 0 ∨ b.askShares ≠ 0) ∧
        Imbalance b.bidShares.toNat b.askShares.toNat x ∧
        queueImbalance (mirror m b) = some (-x) := by
  by_cases hempty : b.bidShares = 0 ∧ b.askShares = 0
  · obtain ⟨hbid, hask⟩ := hempty
    have hzero : add (ofNat (0 : UInt64).toNat) (ofNat (0 : UInt64).toNat) = 0 := by
      rw [UInt64.toNat_zero, ofNat, Nat.cast_zero, round64_zero, add, add_zero,
        round64_zero]
    rw [queueImbalance, queueImbalance, mirror, hbid, hask]
    simp only [hzero, if_pos (le_refl (0 : ℚ)), and_self]
  · have hsome : b.bidShares ≠ 0 ∨ b.askShares ≠ 0 := by
      rwa [ne_eq, ne_eq, ← not_and_or]
    have hpos : 0 < b.bidShares.toNat + b.askShares.toNat := by
      by_contra hnot
      obtain ⟨hbid, hask⟩ := Nat.add_eq_zero_iff.mp (Nat.eq_zero_of_not_pos hnot)
      exact hempty ⟨UInt64.toNat_inj.mp hbid, UInt64.toNat_inj.mp hask⟩
    have htotal := total_pos hpos
    have htotal' := htotal
    rw [add_swap] at htotal'
    rw [queueImbalance, queueImbalance, mirror]
    simp only [if_neg htotal.not_ge, if_neg htotal'.not_ge]
    refine ⟨hsome, imbalance_of_shares hpos, ?_⟩
    rw [sub_swap, add_swap, div, neg_div, round64_neg]
    rfl

/-! ## §4  Depth -/

/-- The prices of a side that come before `price`. -/
def betterPrices (os : OrderList) (side : Side) (price : UInt32) : List UInt32 :=
  (os.prices side).filter (side.before · price)

/-- The orders of a side with fewer than `levels` prices before their own; all
of them for no levels at all. -/
def within (os : OrderList) (side : Side) (levels : ℕ) : OrderList :=
  os.filter fun o =>
    decide (o.side = side ∧
      (levels = 0 ∨ (betterPrices os side o.price).length < levels))

theorem mem_depth_prices {os : OrderList} {side : Side} {levels : ℕ}
    {o : RestingOrder} (ho : o ∈ os) (hside : o.side = side) :
    o.price ∈ (if levels = 0 then os.prices side
        else (os.prices side).take levels) ↔
      levels = 0 ∨ (betterPrices os side o.price).length < levels := by
  have hprice : o.price ∈ os.prices side :=
    OrderList.mem_prices.mpr ⟨o, ho, hside, rfl⟩
  by_cases hzero : levels = 0
  · rw [if_pos hzero]
    exact iff_of_true hprice (.inl hzero)
  · rw [if_neg hzero,
      SortedLadder.mem_take_iff side.priority (os.prices_sorted side)]
    constructor
    · rintro ⟨-, hlt⟩
      exact .inr hlt
    · rintro (h | hlt)
      · exact absurd h hzero
      · exact ⟨hprice, hlt⟩

/-- The queues of the best prices hold the orders within the levels. -/
theorem sum_depth_queues (os : OrderList) (side : Side) (levels : ℕ) :
    ((if levels = 0 then os.prices side
        else (os.prices side).take levels).map
      fun p => (os.queue side p).totalShares).sum =
      (within os side levels).totalShares := by
  set ps := if levels = 0 then os.prices side
    else (os.prices side).take levels with hps
  have hnodup : ps.Nodup := by
    have hall := SortedLadder.sorted_keys_nodup side.priority
      (os.prices_sorted side)
    rw [List.map_id] at hall
    rw [hps]
    split
    · exact hall
    · exact hall.sublist (List.take_sublist _ _)
  have hwithin : within os side levels =
      (os.filter fun o => decide (o.price ∈ ps)).filter
        fun o => decide (o.side = side) := by
    rw [within, List.filter_filter]
    refine List.filter_congr fun o ho => ?_
    rw [← Bool.decide_and, decide_eq_decide]
    refine and_congr_right fun hside => ?_
    exact (mem_depth_prices ho hside).symm
  have hqueue : ∀ p ∈ ps, os.queue side p =
      OrderList.queue (os.filter fun o => decide (o.price ∈ ps)) side p := by
    intro p hp
    rw [OrderList.queue, OrderList.queue, List.filter_filter]
    refine List.filter_congr fun o _ => ?_
    rw [← Bool.decide_and, decide_eq_decide]
    constructor
    · rintro ⟨hside, rfl⟩
      exact ⟨⟨hside, rfl⟩, hp⟩
    · exact And.left
  rw [hwithin, ← OrderList.sum_queues hnodup]
  · refine congrArg List.sum (List.map_congr_left fun p hp => ?_)
    rw [hqueue p hp]
  · intro o ho _
    exact of_decide_eq_true (List.mem_filter.mp ho).2

theorem toNat_foldl_shares (levels : List DepthLevel) (total : UInt64)
    (h : total.toNat + (levels.map (·.shares.toNat)).sum < 2 ^ 64) :
    (levels.foldl (fun total level => total + level.shares) total).toNat =
      total.toNat + (levels.map (·.shares.toNat)).sum := by
  induction levels generalizing total with
  | nil => rfl
  | cons level levels ih =>
    rw [List.map_cons, List.sum_cons] at h ⊢
    have hadd : (total + level.shares).toNat =
        total.toNat + level.shares.toNat := by
      rw [UInt64.toNat_add, Nat.mod_eq_of_lt (by omega)]
    rw [List.foldl_cons, ih _ (by rw [hadd]; omega), hadd]
    exact Nat.add_assoc _ _ _

theorem depthAtLevel_of_rep {b : L3Book} {os : OrderList} (h : b.Rep os)
    (side : Side) (levels : ℕ) :
    (depthAtLevel b side levels).toNat = (within os side levels).totalShares := by
  have hshares (p : UInt32) :
      (os.level side p).shares.toNat = (os.queue side p).totalShares := by
    rw [OrderList.level, UInt64.toNat_ofNat']
    exact Nat.mod_eq_of_lt (h.agrees.shares_fit side p)
  have hsum : ((os.depth side levels).map (·.shares.toNat)).sum =
      (within os side levels).totalShares := by
    rw [← sum_depth_queues, OrderList.depth]
    by_cases hzero : levels = 0
    · rw [if_pos hzero, if_pos hzero, List.map_map]
      exact congrArg List.sum (List.map_congr_left fun p _ => hshares p)
    · rw [if_neg hzero, if_neg hzero, ← List.map_take, List.map_map]
      exact congrArg List.sum (List.map_congr_left fun p _ => hshares p)
  have hfits : (within os side levels).totalShares < 2 ^ 64 :=
    OrderList.totalShares_lt
      ((List.length_filter_le _ _).trans_lt h.length_lt)
  rw [depthAtLevel, h.depth, toNat_foldl_shares, hsum]
  · exact Nat.zero_add _
  · rw [hsum]
    exact lt_of_eq_of_lt (Nat.zero_add _) hfits

open Transducer in
/-- After any calls on a book, with fewer than `2 ^ 32` orders resting
throughout, the depth is the shares of the orders that rest within the
levels. -/
theorem depthAtLevel_within (symbol : Str) (ops : List BookOp)
    (hroom : ∀ pre, pre <+: ops →
      (run BookOp.onList [] pre).1.length < 2 ^ 32)
    (side : Side) (levels : ℕ) :
    (depthAtLevel (run BookOp.onBook { symbol } ops).1 side levels).toNat =
      (within (run BookOp.onList [] ops).1 side levels).totalShares :=
  depthAtLevel_of_rep (BookOp.run_rep symbol hroom).1 side levels

open Transducer in
/-- Two bids of one level and a better one; the first was partly executed. -/
theorem depthAtLevel_within_threeBids :
    (depthAtLevel (run BookOp.onBook { symbol := [] }
      [.addOrder 1 .buy 100 20, .addOrder 2 .buy 50 20,
        .addOrder 3 .buy 7 25, .executeOrder 1 30]).1 .buy 2).toNat = 127 := by
  rw [depthAtLevel_within]
  · decide
  · intro pre hpre
    rw [← List.mem_inits] at hpre
    revert pre
    decide

end Itch.Analytics
