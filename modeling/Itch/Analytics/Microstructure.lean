import Itch.Price

/-!
# Order flow

§1 is the order-flow imbalance between two snapshots of the best bid and
offer, and the contribution it is meant to be. §2 computes the first in
integers, and §3 says when it is the second.
-/

namespace Itch.Analytics

open Binary64 Book

/-! ## §1  Definitions -/

def orderFlowImbalance (previous current : Bbo) : ℚ :=
  let prevBidPrice := previous.bidPrice.toDouble
  let currBidPrice := current.bidPrice.toDouble
  let prevAskPrice := previous.askPrice.toDouble
  let currAskPrice := current.askPrice.toDouble
  let prevBidSize := ofNat previous.bidShares.toNat
  let currBidSize := ofNat current.bidShares.toNat
  let prevAskSize := ofNat previous.askShares.toNat
  let currAskSize := ofNat current.askShares.toNat
  let bidFlow :=
    if currBidPrice > prevBidPrice then currBidSize
    else if currBidPrice = prevBidPrice then sub currBidSize prevBidSize
    else -prevBidSize
  let askFlow :=
    if currAskPrice > prevAskPrice then prevAskSize
    else if currAskPrice = prevAskPrice then sub currAskSize prevAskSize
    else -currAskSize
  sub bidFlow askFlow

/-- Both sides are there, with sizes on which doubles are exact. -/
structure Snapshot (b : Bbo) : Prop where
  hasBid : b.hasBid = true
  hasAsk : b.hasAsk = true
  bidShares : b.bidShares.toNat < 2 ^ 51
  askShares : b.askShares.toNat < 2 ^ 51

/-- The size, where the condition holds. -/
def indicator (p : Prop) [Decidable p] (shares : UInt64) : ℤ :=
  if p then shares.toNat else 0

/-- The contribution of Cont, Kukanov and Stoikov. -/
def contribution (previous current : Bbo) : ℤ :=
  indicator (previous.bidPrice.raw ≤ current.bidPrice.raw) current.bidShares
    - indicator (current.bidPrice.raw ≤ previous.bidPrice.raw)
        previous.bidShares
    - indicator (current.askPrice.raw ≤ previous.askPrice.raw)
        current.askShares
    + indicator (previous.askPrice.raw ≤ current.askPrice.raw)
        previous.askShares

/-- Bid and ask exchanged, with prices reflected at `m`. -/
def mirror (m : UInt32) (b : Bbo) : Bbo where
  hasBid := b.hasAsk
  hasAsk := b.hasBid
  bidPrice := ⟨m - b.askPrice.raw⟩
  bidShares := b.askShares
  askPrice := ⟨m - b.bidPrice.raw⟩
  askShares := b.bidShares

/-- The prices of a snapshot can be reflected at `m`. -/
def Below (m : UInt32) (b : Bbo) : Prop :=
  b.bidPrice.raw ≤ m ∧ b.askPrice.raw ≤ m

/-- An ask that has moved counts for nothing: what was there before it was
lifted, or what is there since it improved. -/
def AskCountsNothing (previous current : Bbo) : Prop :=
  (previous.askPrice.raw < current.askPrice.raw → previous.askShares = 0) ∧
    (current.askPrice.raw < previous.askPrice.raw → current.askShares = 0)

def BidCountsNothing (previous current : Bbo) : Prop :=
  (previous.bidPrice.raw < current.bidPrice.raw → current.bidShares = 0) ∧
    (current.bidPrice.raw < previous.bidPrice.raw → previous.bidShares = 0)

def FollowsContModel (previous current : Bbo) : Prop :=
  orderFlowImbalance previous current = contribution previous current

def MirrorAntisymmetric (previous current : Bbo) : Prop :=
  ∀ m, Below m previous → Below m current →
    orderFlowImbalance (mirror m previous) (mirror m current) =
      -orderFlowImbalance previous current

/-! ## §2  Integers -/

/-- The flow of the bid, from price and size before and after. -/
def bidFlow (price price' size size' : ℕ) : ℤ :=
  if price < price' then size'
  else if price' = price then size' - size
  else -size

/-- The flow of the ask, as the code has it. -/
def askFlow (price price' size size' : ℕ) : ℤ :=
  if price < price' then size
  else if price' = price then size' - size
  else -size'

theorem abs_bidFlow_lt {price price' size size' : ℕ} (h : size < 2 ^ 51)
    (h' : size' < 2 ^ 51) : |bidFlow price price' size size'| < 2 ^ 51 := by
  rw [abs_lt, bidFlow]
  split_ifs <;> omega

theorem abs_askFlow_lt {price price' size size' : ℕ} (h : size < 2 ^ 51)
    (h' : size' < 2 ^ 51) : |askFlow price price' size size'| < 2 ^ 51 := by
  rw [abs_lt, askFlow]
  split_ifs <;> omega

theorem sub_natCast {size size' : ℕ} (h : size < 2 ^ 51)
    (h' : size' < 2 ^ 51) :
    sub (size' : ℚ) (size : ℚ) = ((size' - size : ℤ) : ℚ) := by
  have hsub := @sub_intCast size' size (by
    rw [abs_lt]
    omega)
  push_cast at hsub ⊢
  exact hsub

theorem orderFlowImbalance_eq {previous current : Bbo}
    (hprevious : Snapshot previous) (hcurrent : Snapshot current) :
    orderFlowImbalance previous current =
      ((bidFlow previous.bidPrice.raw.toNat current.bidPrice.raw.toNat
          previous.bidShares.toNat current.bidShares.toNat -
        askFlow previous.askPrice.raw.toNat current.askPrice.raw.toNat
          previous.askShares.toNat current.askShares.toNat : ℤ) : ℚ) := by
  have hgt {p q : StandardPrice} :
      p.toDouble > q.toDouble ↔ q.raw.toNat < p.raw.toNat :=
    StandardPrice.toDouble_lt_iff.trans UInt32.lt_iff_toNat_lt
  have heq {p q : StandardPrice} :
      p.toDouble = q.toDouble ↔ p.raw.toNat = q.raw.toNat :=
    StandardPrice.toDouble_inj.trans UInt32.toNat_inj.symm
  have hexact {shares : UInt64} (h : shares.toNat < 2 ^ 51) :
      ofNat shares.toNat = shares.toNat :=
    ofNat_eq (h.trans (by norm_num))
  have hbid := abs_lt.mp (@abs_bidFlow_lt previous.bidPrice.raw.toNat
    current.bidPrice.raw.toNat _ _ hprevious.bidShares hcurrent.bidShares)
  have hask := abs_lt.mp (@abs_askFlow_lt previous.askPrice.raw.toNat
    current.askPrice.raw.toNat _ _ hprevious.askShares hcurrent.askShares)
  rw [Int.cast_sub, ← sub_intCast (abs_lt.mpr ⟨by linarith, by linarith⟩)]
  simp only [orderFlowImbalance, hgt, heq, hexact hprevious.bidShares,
    hexact hcurrent.bidShares, hexact hprevious.askShares,
    hexact hcurrent.askShares,
    sub_natCast hprevious.bidShares hcurrent.bidShares,
    sub_natCast hprevious.askShares hcurrent.askShares]
  congr 1
  · rw [bidFlow]
    split_ifs <;> push_cast <;> rfl
  · rw [askFlow]
    split_ifs <;> push_cast <;> rfl

/-! ## §3  The contribution of the ask

An ask that moves is counted with the sign of a bid that moves, so that it
should count for nothing if the two are to agree.
-/

/-- One side of the contribution is the flow of a bid. -/
theorem indicator_sub_indicator (price price' : UInt32)
    (shares shares' : UInt64) :
    indicator (price ≤ price') shares' - indicator (price' ≤ price) shares =
      bidFlow price.toNat price'.toNat shares.toNat shares'.toNat := by
  simp only [indicator, bidFlow, UInt32.le_iff_toNat_le]
  rcases lt_trichotomy price.toNat price'.toNat with hlt | heq | hgt
  · rw [if_pos hlt.le, if_neg hlt.not_ge, if_pos hlt, sub_zero]
  · rw [if_pos heq.le, if_pos heq.ge, if_neg heq.not_lt, if_pos heq.symm]
  · rw [if_neg hgt.not_ge, if_pos hgt.le, if_neg hgt.not_gt, if_neg hgt.ne,
      zero_sub]

theorem contribution_eq (previous current : Bbo) :
    contribution previous current =
      bidFlow previous.bidPrice.raw.toNat current.bidPrice.raw.toNat
          previous.bidShares.toNat current.bidShares.toNat -
        bidFlow current.askPrice.raw.toNat previous.askPrice.raw.toNat
          previous.askShares.toNat current.askShares.toNat := by
  rw [contribution, ← indicator_sub_indicator, ← indicator_sub_indicator]
  ring

theorem askFlow_eq_iff {price price' size size' : ℕ} :
    askFlow price price' size size' = bidFlow price' price size size' ↔
      (price < price' → size = 0) ∧ (price' < price → size' = 0) := by
  rw [askFlow, bidFlow]
  rcases lt_trichotomy price price' with hlt | heq | hgt
  · rw [if_pos hlt, if_neg hlt.not_gt, if_neg hlt.ne]
    constructor
    · intro h
      exact ⟨fun _ => by omega, fun h' => absurd h' hlt.not_gt⟩
    · rintro ⟨h, -⟩
      rw [h hlt]
      rfl
  · subst heq
    simp
  · rw [if_neg hgt.not_gt, if_neg hgt.ne, if_pos hgt]
    constructor
    · intro h
      exact ⟨fun h' => absurd h' hgt.not_gt, fun _ => by omega⟩
    · rintro ⟨-, h⟩
      rw [h hgt]
      rfl

theorem askCountsNothing_iff (previous current : Bbo) :
    AskCountsNothing previous current ↔
      askFlow previous.askPrice.raw.toNat current.askPrice.raw.toNat
          previous.askShares.toNat current.askShares.toNat =
        bidFlow current.askPrice.raw.toNat previous.askPrice.raw.toNat
          previous.askShares.toNat current.askShares.toNat := by
  rw [askFlow_eq_iff, AskCountsNothing, UInt32.lt_iff_toNat_lt,
    UInt32.lt_iff_toNat_lt, ← UInt64.toNat_inj, ← UInt64.toNat_inj]
  rfl

theorem bidCountsNothing_iff (previous current : Bbo) :
    BidCountsNothing previous current ↔
      askFlow current.bidPrice.raw.toNat previous.bidPrice.raw.toNat
          previous.bidShares.toNat current.bidShares.toNat =
        bidFlow previous.bidPrice.raw.toNat current.bidPrice.raw.toNat
          previous.bidShares.toNat current.bidShares.toNat := by
  rw [askFlow_eq_iff, and_comm, BidCountsNothing, UInt32.lt_iff_toNat_lt,
    UInt32.lt_iff_toNat_lt, ← UInt64.toNat_inj, ← UInt64.toNat_inj]
  rfl

theorem followsContModel_iff {previous current : Bbo}
    (hprevious : Snapshot previous) (hcurrent : Snapshot current) :
    FollowsContModel previous current ↔ AskCountsNothing previous current := by
  rw [FollowsContModel, orderFlowImbalance_eq hprevious hcurrent,
    contribution_eq, Int.cast_inj, sub_right_inj, askCountsNothing_iff]

theorem Snapshot.mirror {b : Bbo} (h : Snapshot b) (m : UInt32) :
    Snapshot (mirror m b) :=
  ⟨h.hasAsk, h.hasBid, h.askShares, h.bidShares⟩

theorem orderFlowImbalance_mirror {previous current : Bbo} {m : UInt32}
    (hprevious : Snapshot previous) (hcurrent : Snapshot current)
    (hm : Below m previous) (hm' : Below m current) :
    orderFlowImbalance (mirror m previous) (mirror m current) =
      ((bidFlow current.askPrice.raw.toNat previous.askPrice.raw.toNat
          previous.askShares.toNat current.askShares.toNat -
        askFlow current.bidPrice.raw.toNat previous.bidPrice.raw.toNat
          previous.bidShares.toNat current.bidShares.toNat : ℤ) : ℚ) := by
  have hlt {p q : UInt32} (hp : p ≤ m) (hq : q ≤ m) :
      (m - p).toNat < (m - q).toNat ↔ q.toNat < p.toNat := by
    rw [UInt32.toNat_sub_of_le _ _ hp, UInt32.toNat_sub_of_le _ _ hq]
    rw [UInt32.le_iff_toNat_le] at hp hq
    omega
  have heq {p q : UInt32} (hp : p ≤ m) (hq : q ≤ m) :
      (m - p).toNat = (m - q).toNat ↔ q.toNat = p.toNat := by
    rw [UInt32.toNat_sub_of_le _ _ hp, UInt32.toNat_sub_of_le _ _ hq]
    rw [UInt32.le_iff_toNat_le] at hp hq
    omega
  rw [orderFlowImbalance_eq (hprevious.mirror m) (hcurrent.mirror m)]
  simp only [mirror, bidFlow, askFlow, hlt hm.1 hm'.1, hlt hm.2 hm'.2,
    heq hm'.1 hm.1, heq hm'.2 hm.2]

theorem mirrorAntisymmetric_iff {previous current : Bbo}
    (hprevious : Snapshot previous) (hcurrent : Snapshot current)
    (hask : AskCountsNothing previous current) :
    MirrorAntisymmetric previous current ↔
      BidCountsNothing previous current := by
  rw [askCountsNothing_iff] at hask
  rw [bidCountsNothing_iff]
  constructor
  · intro h
    have hbelow (p : UInt32) : p ≤ (4294967295 : UInt32) := by
      rw [UInt32.le_iff_toNat_le]
      exact Nat.le_pred_of_lt p.toNat_lt
    have hm (b : Bbo) : Below 4294967295 b := ⟨hbelow _, hbelow _⟩
    have hneg := h 4294967295 (hm _) (hm _)
    rw [orderFlowImbalance_mirror hprevious hcurrent (hm _) (hm _),
      orderFlowImbalance_eq hprevious hcurrent, hask, ← Int.cast_neg,
      Int.cast_inj] at hneg
    linarith
  · intro hbid m hm hm'
    rw [orderFlowImbalance_mirror hprevious hcurrent hm hm',
      orderFlowImbalance_eq hprevious hcurrent, hask, hbid, ← Int.cast_neg,
      neg_sub]

/-- The imbalance is the contribution if and only if the ask counts for
nothing where it has moved, and its mirror image is its negation if and only
if so does the bid. -/
theorem orderFlowImbalance_follows_iff {previous current : Bbo}
    (hprevious : Snapshot previous) (hcurrent : Snapshot current) :
    (FollowsContModel previous current ↔ AskCountsNothing previous current) ∧
      (FollowsContModel previous current ∧
          MirrorAntisymmetric previous current ↔
        AskCountsNothing previous current ∧
          BidCountsNothing previous current) := by
  refine ⟨followsContModel_iff hprevious hcurrent, ?_⟩
  rw [followsContModel_iff hprevious hcurrent]
  exact and_congr_right fun hask =>
    mirrorAntisymmetric_iff hprevious hcurrent hask

/-- A bid of 100 at 100.00 and an ask of 100 at 100.02. -/
def quotes : Bbo where
  hasBid := true
  hasAsk := true
  bidPrice := ⟨1000000⟩
  bidShares := 100
  askPrice := ⟨1000200⟩
  askShares := 100

def deeperQuotes : Bbo := { quotes with bidShares := 150 }

/-- The ask was lifted. -/
def liftedQuotes : Bbo := { quotes with askPrice := ⟨1000300⟩ }

theorem orderFlowImbalance_follows_iff_deeper :
    (Snapshot quotes ∧ Snapshot deeperQuotes) ∧
      FollowsContModel quotes deeperQuotes ∧
      MirrorAntisymmetric quotes deeperQuotes := by
  have hquotes : Snapshot quotes := by constructor <;> decide
  have hdeeper : Snapshot deeperQuotes := by constructor <;> decide
  refine ⟨⟨hquotes, hdeeper⟩,
    (orderFlowImbalance_follows_iff hquotes hdeeper).2.mpr ?_⟩
  rw [AskCountsNothing, BidCountsNothing]
  decide

/-- An ask that is lifted counts as pressure to sell. -/
theorem not_followsContModel_lifted :
    ¬ ∀ previous current, Snapshot previous → Snapshot current →
      FollowsContModel previous current ∧
        MirrorAntisymmetric previous current := by
  intro h
  have hquotes : Snapshot quotes := by constructor <;> decide
  have hlifted : Snapshot liftedQuotes := by constructor <;> decide
  have hask := (followsContModel_iff hquotes hlifted).mp
    (h _ _ hquotes hlifted).1
  rw [AskCountsNothing] at hask
  revert hask
  decide

end Itch.Analytics
