import Itch.Framework.Transducer
import Itch.Wire.Messages

/-!
# Auctions

§1 is the tracker, which keeps the latest imbalance of each security and puts
it beside a cross. §2 proves which one that is, for a cross anywhere in the
feed, and that other securities and other messages have no part in it.
-/

namespace Itch.Analytics

open Transducer

/-! ## §1  The tracker -/

/-- A decoded view of a NOII message. -/
structure ImbalanceInfo where
  timestamp : UInt64 := 0
  stockLocate : UInt16 := 0
  stock : Str := []
  pairedShares : UInt64 := 0
  imbalanceShares : UInt64 := 0
  imbalanceDirection : UInt8 := 0
  farPrice : StandardPrice := {}
  nearPrice : StandardPrice := {}
  currentReferencePrice : StandardPrice := {}
  crossType : UInt8 := 0
  priceVariationIndicator : UInt8 := 0
deriving DecidableEq, Repr

def makeImbalanceInfo (msg : NOIIMessage) : ImbalanceInfo where
  timestamp := msg.timestamp
  stockLocate := msg.stockLocate
  stock := toString msg.stock
  pairedShares := msg.pairedShares
  imbalanceShares := msg.imbalanceShares
  imbalanceDirection := msg.imbalanceDirection
  farPrice := ⟨msg.farPrice⟩
  nearPrice := ⟨msg.nearPrice⟩
  currentReferencePrice := ⟨msg.currentReferencePrice⟩
  crossType := msg.crossType
  priceVariationIndicator := msg.priceVariationIndicator

/-- A reconstructed auction event. -/
structure Auction where
  timestamp : UInt64 := 0
  stockLocate : UInt16 := 0
  stock : Str := []
  crossType : UInt8 := 0
  crossPrice : StandardPrice := {}
  crossShares : UInt64 := 0
  pairedShares : UInt64 := 0
  imbalanceShares : UInt64 := 0
  imbalanceDirection : UInt8 := 0
  hadImbalance : Bool := false
deriving DecidableEq, Repr

structure AuctionTracker where
  latestImbalance : Std.HashMap UInt16 ImbalanceInfo := ∅
  hasCallback : Bool := false

namespace AuctionTracker

def processCross (t : AuctionTracker) (cross : CrossTradeMessage) :
    AuctionTracker × List Auction :=
  let auction : Auction := {
    timestamp := cross.timestamp
    stockLocate := cross.stockLocate
    stock := toString cross.stock
    crossType := cross.crossType
    crossPrice := ⟨cross.crossPrice⟩
    crossShares := cross.shares }
  let auction :=
    match t.latestImbalance[cross.stockLocate]? with
    | none => auction
    | some info =>
        { auction with
          pairedShares := info.pairedShares
          imbalanceShares := info.imbalanceShares
          imbalanceDirection := info.imbalanceDirection
          hadImbalance := true }
  (t, if t.hasCallback then [auction] else [])

def process (t : AuctionTracker) : Message → AuctionTracker × List Auction
  | .noii noii =>
      ({ t with latestImbalance :=
          t.latestImbalance.insert noii.stockLocate (makeImbalanceInfo noii) },
        [])
  | .crossTrade cross => t.processCross cross
  | _ => (t, [])

end AuctionTracker

/-! ## §2  The imbalance of a cross -/

/-- The last NOII of a security in a feed. -/
def LatestNoii (stockLocate : UInt16) (feed : List Message)
    (noii : NOIIMessage) : Prop :=
  ∃ before after, feed = before ++ .noii noii :: after ∧
    noii.stockLocate = stockLocate ∧
    ∀ other, .noii other ∈ after → other.stockLocate ≠ stockLocate

/-- The crosses of a feed, each with the messages before it. -/
def crosses (feed : List Message) :
    List (List Message × CrossTradeMessage) :=
  (withPast feed).filterMap fun
    | (past, .crossTrade cross) => some (past, cross)
    | _ => none

/-- The auction of a cross. -/
structure Reconstructs (a : Auction)
    (x : List Message × CrossTradeMessage) : Prop where
  timestamp : a.timestamp = x.2.timestamp
  stockLocate : a.stockLocate = x.2.stockLocate
  stock : a.stock = toString x.2.stock
  crossType : a.crossType = x.2.crossType
  crossPrice : a.crossPrice = ⟨x.2.crossPrice⟩
  crossShares : a.crossShares = x.2.shares
  hadImbalance : a.hadImbalance = true ↔
    ∃ noii, .noii noii ∈ x.1 ∧ noii.stockLocate = x.2.stockLocate
  imbalance : ∀ noii, LatestNoii x.2.stockLocate x.1 noii →
    a.pairedShares = noii.pairedShares ∧
      a.imbalanceShares = noii.imbalanceShares ∧
      a.imbalanceDirection = noii.imbalanceDirection
  noImbalance : a.hadImbalance = false →
    a.pairedShares = 0 ∧ a.imbalanceShares = 0 ∧ a.imbalanceDirection = 0

/-- The security whose auctions a message has a part in. -/
def security : Message → Option UInt16
  | .noii noii => some noii.stockLocate
  | .crossTrade cross => some cross.stockLocate
  | _ => none

section Latest

variable {stockLocate : UInt16} {feed : List Message} {noii : NOIIMessage}
  {m : Message}

theorem latestNoii_self (feed : List Message) (noii : NOIIMessage) :
    LatestNoii noii.stockLocate (feed ++ [.noii noii]) noii :=
  ⟨feed, [], rfl, rfl, by simp⟩

theorem latestNoii_snoc (h : LatestNoii stockLocate feed noii)
    (hm : ∀ other, m = .noii other → other.stockLocate ≠ stockLocate) :
    LatestNoii stockLocate (feed ++ [m]) noii := by
  obtain ⟨before, after, rfl, hlocate, hafter⟩ := h
  refine ⟨before, after ++ [m], by simp, hlocate, ?_⟩
  intro other hother
  rcases List.mem_append.mp hother with hother | hother
  · exact hafter other hother
  · exact hm other (List.mem_singleton.mp hother).symm

theorem LatestNoii.eq_of_append {before after before' after' : List Message}
    {noii' : NOIIMessage} {gap : List Message}
    (hafter : ∀ other, .noii other ∈ after →
      other.stockLocate ≠ stockLocate)
    (hlocate : noii'.stockLocate = stockLocate)
    (hbefore : before' = before ++ gap)
    (heq : Message.noii noii :: after = gap ++ .noii noii' :: after') :
    noii = noii' := by
  cases gap with
  | nil => exact Message.noii.inj (List.cons.inj heq).1
  | cons m gap =>
      refine absurd hlocate (hafter noii' ?_)
      rw [(List.cons.inj heq).2]
      exact List.mem_append_right _ List.mem_cons_self

/-- There is at most one. -/
theorem LatestNoii.unique {noii' : NOIIMessage}
    (h : LatestNoii stockLocate feed noii)
    (h' : LatestNoii stockLocate feed noii') : noii = noii' := by
  obtain ⟨before, after, rfl, hlocate, hafter⟩ := h
  obtain ⟨before', after', heq, hlocate', hafter'⟩ := h'
  rcases List.append_eq_append_iff.mp heq with ⟨gap, hgap, hrest⟩ | h
  · exact LatestNoii.eq_of_append hafter hlocate' hgap hrest
  · obtain ⟨gap, hgap, hrest⟩ := h
    exact (LatestNoii.eq_of_append hafter' hlocate hgap hrest).symm

theorem LatestNoii.mem (h : LatestNoii stockLocate feed noii) :
    .noii noii ∈ feed ∧ noii.stockLocate = stockLocate := by
  obtain ⟨before, after, rfl, hlocate, -⟩ := h
  exact ⟨by simp, hlocate⟩

end Latest

/-- What is kept of a feed: the latest NOII of each security that had one. -/
structure Tracks (feed : List Message) (t : AuctionTracker) : Prop where
  hasCallback : t.hasCallback = true
  absent : ∀ stockLocate, t.latestImbalance[stockLocate]? = none →
    ∀ noii, .noii noii ∈ feed → noii.stockLocate ≠ stockLocate
  latest : ∀ stockLocate info,
    t.latestImbalance[stockLocate]? = some info →
    ∃ noii, LatestNoii stockLocate feed noii ∧ info = makeImbalanceInfo noii

section Steps

variable {feed : List Message} {t : AuctionTracker}

theorem Tracks.noii (h : Tracks feed t) (noii : NOIIMessage) :
    Tracks (feed ++ [.noii noii]) (t.process (.noii noii)).1 := by
  refine ⟨h.hasCallback, ?_, ?_⟩
  · intro stockLocate hnone other hother
    rw [AuctionTracker.process, Std.HashMap.getElem?_insert] at hnone
    by_cases hlocate : noii.stockLocate = stockLocate
    · rw [if_pos (beq_iff_eq.mpr hlocate)] at hnone
      cases hnone
    · rw [if_neg (fun h => hlocate (beq_iff_eq.mp h))] at hnone
      rcases List.mem_append.mp hother with hother | hother
      · exact h.absent stockLocate hnone other hother
      · rwa [Message.noii.inj (List.mem_singleton.mp hother)]
  · intro stockLocate info hsome
    rw [AuctionTracker.process, Std.HashMap.getElem?_insert] at hsome
    by_cases hlocate : noii.stockLocate = stockLocate
    · rw [if_pos (beq_iff_eq.mpr hlocate)] at hsome
      subst hlocate
      exact ⟨noii, latestNoii_self feed noii, (Option.some.inj hsome).symm⟩
    · rw [if_neg (fun h => hlocate (beq_iff_eq.mp h))] at hsome
      obtain ⟨other, hlatest, hinfo⟩ := h.latest stockLocate info hsome
      refine ⟨other, latestNoii_snoc hlatest ?_, hinfo⟩
      rintro _ ⟨⟩
      exact hlocate

/-- Any other message leaves the tracker as it is. -/
theorem Tracks.other (h : Tracks feed t) {m : Message}
    (hm : ∀ noii, m ≠ .noii noii) : Tracks (feed ++ [m]) t := by
  refine ⟨h.hasCallback, ?_, ?_⟩
  · intro stockLocate hnone noii hnoii
    rcases List.mem_append.mp hnoii with hnoii | hnoii
    · exact h.absent stockLocate hnone noii hnoii
    · exact absurd (List.mem_singleton.mp hnoii).symm (hm noii)
  · intro stockLocate info hsome
    obtain ⟨noii, hlatest, hinfo⟩ := h.latest stockLocate info hsome
    exact ⟨noii, latestNoii_snoc hlatest fun other hother =>
      absurd hother (hm other), hinfo⟩

theorem Tracks.processCross (h : Tracks feed t) (cross : CrossTradeMessage) :
    (t.processCross cross).1 = t ∧ ∃ a,
      (t.processCross cross).2 = [a] ∧ Reconstructs a (feed, cross) := by
  rw [AuctionTracker.processCross, h.hasCallback]
  refine ⟨rfl, _, rfl, ?_⟩
  cases hget : t.latestImbalance[cross.stockLocate]? with
  | none =>
      have habsent := h.absent cross.stockLocate hget
      refine ⟨rfl, rfl, rfl, rfl, rfl, rfl, ?_, ?_, fun _ => ⟨rfl, rfl, rfl⟩⟩
      · refine iff_of_false (by simp) ?_
        rintro ⟨noii, hmem, hlocate⟩
        exact habsent noii hmem hlocate
      · intro noii hlatest
        exact absurd hlatest.mem.2 (habsent noii hlatest.mem.1)
  | some info =>
      obtain ⟨noii, hlatest, rfl⟩ := h.latest cross.stockLocate info hget
      refine ⟨rfl, rfl, rfl, rfl, rfl, rfl, ?_, ?_, fun h => by cases h⟩
      · exact iff_of_true rfl ⟨noii, hlatest.mem⟩
      · intro other hother
        rw [hother.unique hlatest]
        exact ⟨rfl, rfl, rfl⟩

end Steps

theorem crosses_snoc (feed : List Message) (m : Message) :
    crosses (feed ++ [m]) = crosses feed ++
      match m with
      | .crossTrade cross => [(feed, cross)]
      | _ => [] := by
  rw [crosses, withPast_snoc, List.filterMap_append, ← crosses]
  cases m <;> rfl

theorem tracks_run (feed : List Message) :
    Tracks feed (run AuctionTracker.process { hasCallback := true } feed).1 ∧
      List.Forall₂ Reconstructs
        (run AuctionTracker.process { hasCallback := true } feed).2
        (crosses feed) := by
  induction feed using List.reverseRecOn with
  | nil =>
      refine ⟨⟨rfl, ?_, ?_⟩, .nil⟩
      · intro _ _ _ hmem
        cases hmem
      · intro stockLocate info hsome
        rw [run_nil, Std.HashMap.getElem?_empty] at hsome
        cases hsome
  | append_singleton feed m ih =>
      obtain ⟨htracks, hauctions⟩ := ih
      rw [run_snoc, crosses_snoc]
      cases m with
      | noii noii =>
          refine ⟨htracks.noii noii, ?_⟩
          rw [List.append_nil]
          exact (List.append_nil _).symm ▸ hauctions
      | crossTrade cross =>
          obtain ⟨hsame, a, hemitted, ha⟩ := htracks.processCross cross
          rw [AuctionTracker.process, hsame, hemitted]
          refine ⟨htracks.other fun _ h => (by cases h), ?_⟩
          exact List.rel_append hauctions (.cons ha .nil)
      | _ =>
          refine ⟨htracks.other fun _ h => (by cases h), ?_⟩
          rw [List.append_nil]
          exact (List.append_nil _).symm ▸ hauctions

/-! ### Other securities -/

/-- Trackers that look alike to the messages of a security. -/
def SameFor (stockLocate : Option UInt16) (t t' : AuctionTracker) : Prop :=
  t.hasCallback = t'.hasCallback ∧ ∀ l, stockLocate = some l →
    t.latestImbalance[l]? = t'.latestImbalance[l]?

theorem unwinding_process : Unwinding AuctionTracker.process security
    (fun a : Auction => some a.stockLocate) SameFor where
  consistent {t t' m} h := by
    cases m with
    | noii noii =>
        refine ⟨⟨h.1, ?_⟩, rfl⟩
        rintro l ⟨⟩
        simp [AuctionTracker.process]
    | crossTrade cross =>
        have hget := h.2 cross.stockLocate rfl
        refine ⟨h, ?_⟩
        simp only [AuctionTracker.process, AuctionTracker.processCross, h.1,
          hget]
    | _ => exact ⟨h, rfl⟩
  respects {k t t' m} hk h := by
    cases m with
    | noii noii =>
        refine ⟨h.1, ?_⟩
        rintro l rfl
        rw [AuctionTracker.process, Std.HashMap.getElem?_insert, if_neg]
        · exact h.2 l rfl
        · intro hlocate
          exact hk (congrArg some (beq_iff_eq.mp hlocate))
    | _ => exact h
  tagged {t m a} ha := by
    cases m with
    | crossTrade cross =>
        rw [AuctionTracker.process, AuctionTracker.processCross] at ha
        obtain ⟨-, ha⟩ := List.mem_ite_nil_right.mp ha
        obtain rfl := List.mem_singleton.mp ha
        cases t.latestImbalance[cross.stockLocate]? <;> rfl
    | _ => cases ha

/-- Every cross makes one auction, in the order of the feed, with its own
fields and with the latest imbalance of its security. What comes of the
messages of other securities, and of other types, is as if it were not there.
-/
theorem auctions_reconstructed (feed : List Message) :
    List.Forall₂ Reconstructs
      (run AuctionTracker.process { hasCallback := true } feed).2
      (crosses feed) ∧
    ∀ stockLocate : UInt16,
      (run AuctionTracker.process { hasCallback := true } feed).2.filter
          (fun a => decide (some a.stockLocate = some stockLocate)) =
        (run AuctionTracker.process { hasCallback := true } (feed.filter
          fun m => decide (security m = some stockLocate))).2 := by
  refine ⟨(tracks_run feed).2, fun stockLocate => ?_⟩
  exact (unwinding_process.purge ⟨rfl, fun _ _ => rfl⟩ feed).2

/-- There is a NOII of the security since its last cross. -/
def NoiiSinceCross (stockLocate : UInt16) (past : List Message) : Prop :=
  ∃ before after noii, past = before ++ .noii noii :: after ∧
    noii.stockLocate = stockLocate ∧
    ∀ cross, .crossTrade cross ∈ after → cross.stockLocate ≠ stockLocate

/-- A second cross is given the imbalance of the first once more. -/
theorem not_noiiSinceCross :
    ¬∀ feed, List.Forall₂
      (fun (a : Auction) x => a.hadImbalance = true ↔
        NoiiSinceCross x.2.stockLocate x.1)
      (run AuctionTracker.process { hasCallback := true } feed).2
      (crosses feed) := by
  intro himbalances
  have h := himbalances [.noii {}, .crossTrade {}, .crossTrade {}]
  have hauctions := (tracks_run [.noii {}, .crossTrade {}, .crossTrade {}]).2
  have hcrosses : crosses [.noii {}, .crossTrade {}, .crossTrade {}] =
      [([.noii {}], {}), ([.noii {}, .crossTrade {}], {})] := rfl
  rw [hcrosses] at h hauctions
  generalize (run AuctionTracker.process { hasCallback := true }
    [.noii {}, .crossTrade {}, .crossTrade {}]).2 = auctions at h hauctions
  rcases hauctions with _ | ⟨-, _ | ⟨hsecond, -⟩⟩
  rcases h with _ | ⟨-, _ | ⟨hsince, -⟩⟩
  have hhad := hsecond.hadImbalance.mpr ⟨{}, by simp, rfl⟩
  obtain ⟨before, after, noii, hpast, -, hafter⟩ := hsince.mp hhad
  rcases before with _ | ⟨m, _ | ⟨m', before⟩⟩
  · obtain ⟨-, rfl⟩ := List.cons.inj hpast
    exact hafter {} List.mem_cons_self rfl
  · cases (List.cons.inj (List.cons.inj hpast).2).1
  · exact absurd (congrArg List.length hpast) (by simp)

end Itch.Analytics
