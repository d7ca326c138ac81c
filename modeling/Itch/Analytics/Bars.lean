import Itch.Framework.Runs
import Itch.Framework.Transducer
import Itch.Book.BookManager

/-!
# Bars

§1 is `BarBuilder`, for any clock. §2 proves that the bars are the runs of the
tape whose trades fall in one bucket of the clock; the bucket of a trade may
depend on what was traded before it.
-/

namespace Itch

/-- Prices are ordered by their raw value. -/
instance : LinearOrder StandardPrice :=
  LinearOrder.lift' (fun p => p.raw.toNat) (fun p q h => by
    cases p
    cases q
    exact congrArg StandardPrice.mk (UInt32.toNat_inj.mp h))

namespace Analytics

open Book Runs Transducer

/-! ## §1  The builder -/

/-- One OHLCV bar aggregated from the trade tape. -/
structure Bar where
  bucket : UInt64 := 0
  startTimestamp : UInt64 := 0
  endTimestamp : UInt64 := 0
  open_ : StandardPrice := {}
  high : StandardPrice := {}
  low : StandardPrice := {}
  close : StandardPrice := {}
  volume : UInt64 := 0
  tradeCount : UInt64 := 0
deriving DecidableEq, Repr

/-- The bucket of a trade, of the volume and of the number of trades so far. -/
abbrev Clock : Type := Trade → UInt64 → UInt64 → UInt64

/-- By the time of the trade. -/
def timeClock (intervalNs : UInt64) : Clock :=
  fun trade _ _ => trade.timestamp / intervalNs

/-- A fixed number of trades for each bucket. -/
def tickClock (ticksPerBar : UInt64) : Clock :=
  fun _ _ tickIndex => tickIndex / ticksPerBar

/-- By the volume traded so far. -/
def volumeClock (volumePerBar : UInt64) : Clock :=
  fun _ cumulativeVolume _ => cumulativeVolume / volumePerBar

structure BarBuilder where
  bar : Bar := {}
  hasBar : Bool := false
  cumulativeVolume : UInt64 := 0
  tickIndex : UInt64 := 0
deriving DecidableEq, Repr

namespace BarBuilder

/-- Hands the bar to the callback, which is given with the clock. -/
def emit (b : BarBuilder) : BarBuilder × List Bar :=
  ({ b with hasBar := false }, [b.bar])

def add (clock : Clock) (b : BarBuilder) (trade : Trade) :
    BarBuilder × List Bar :=
  let bucket := clock trade b.cumulativeVolume b.tickIndex
  let (b, emitted) :=
    if b.hasBar && bucket != b.bar.bucket then b.emit else (b, [])
  let b :=
    if !b.hasBar then
      { b with
        bar := {
          bucket
          startTimestamp := trade.timestamp
          open_ := trade.price
          high := trade.price
          low := trade.price }
        hasBar := true }
    else b
  ({ b with
    bar := { b.bar with
      high := max b.bar.high trade.price
      low := min b.bar.low trade.price
      close := trade.price
      endTimestamp := trade.timestamp
      volume := b.bar.volume + trade.shares
      tradeCount := b.bar.tradeCount + 1 }
    cumulativeVolume := b.cumulativeVolume + trade.shares
    tickIndex := b.tickIndex + 1 }, emitted)

def flush (b : BarBuilder) : BarBuilder × List Bar :=
  if b.hasBar then b.emit else (b, [])

end BarBuilder

/-- The bars that are complete when the tape ends. -/
def completedBars (clock : Clock) (tape : List Trade) : List Bar :=
  (run (BarBuilder.add clock) {} tape).2

/-- All bars, with the one that is left to `flush`. -/
def bars (clock : Clock) (tape : List Trade) : List Bar :=
  completedBars clock tape ++
    (run (BarBuilder.add clock) {} tape).1.flush.2

/-! ### What the bars should be -/

def totalShares (tape : List Trade) : ℕ :=
  (tape.map fun trade => trade.shares.toNat).sum

/-- Each trade with its bucket. -/
def bucketed (clock : Clock) (tape : List Trade) : List (UInt64 × Trade) :=
  (withPast tape).map fun (past, trade) =>
    (clock trade (UInt64.ofNat (totalShares past)) (UInt64.ofNat past.length),
      trade)

/-- The maximal runs of trades in one bucket. -/
def tapeRuns (clock : Clock) (tape : List Trade) :
    List (List (UInt64 × Trade)) :=
  runsBy Prod.fst (bucketed clock tape)

def trades (run : List (UInt64 × Trade)) : List Trade := run.map Prod.snd

def prices (run : List (UInt64 × Trade)) : Set StandardPrice :=
  { p | ∃ trade ∈ trades run, trade.price = p }

/-- The bar of a run. -/
structure Summarizes (bar : Bar) (run : List (UInt64 × Trade)) : Prop where
  bucket : ∀ x ∈ run, x.1 = bar.bucket
  startTimestamp :
    (trades run).head?.map Trade.timestamp = some bar.startTimestamp
  endTimestamp :
    (trades run).getLast?.map Trade.timestamp = some bar.endTimestamp
  open_ : (trades run).head?.map Trade.price = some bar.open_
  close : (trades run).getLast?.map Trade.price = some bar.close
  high : IsGreatest (prices run) bar.high
  low : IsLeast (prices run) bar.low
  volume : bar.volume = UInt64.ofNat (totalShares (trades run))
  tradeCount : bar.tradeCount = UInt64.ofNat run.length

/-! ## §2  The bars of a tape -/

theorem totalShares_append (tape tape' : List Trade) :
    totalShares (tape ++ tape') = totalShares tape + totalShares tape' := by
  rw [totalShares, List.map_append, List.sum_append]
  rfl

theorem bucketed_snoc (clock : Clock) (tape : List Trade) (trade : Trade) :
    bucketed clock (tape ++ [trade]) = bucketed clock tape ++
      [(clock trade (UInt64.ofNat (totalShares tape))
        (UInt64.ofNat tape.length), trade)] := by
  rw [bucketed, withPast_snoc, List.map_append]
  rfl

theorem trades_bucketed (clock : Clock) (tape : List Trade) :
    trades (bucketed clock tape) = tape := by
  rw [trades, bucketed, List.map_map]
  exact map_snd_withPast tape

/-- The bar of a single trade. -/
def Bar.first (bucket : UInt64) (trade : Trade) : Bar where
  bucket
  startTimestamp := trade.timestamp
  endTimestamp := trade.timestamp
  open_ := trade.price
  high := trade.price
  low := trade.price
  close := trade.price
  volume := trade.shares
  tradeCount := 1

/-- The bar with one more trade. -/
def Bar.extend (bar : Bar) (trade : Trade) : Bar :=
  { bar with
    high := max bar.high trade.price
    low := min bar.low trade.price
    close := trade.price
    endTimestamp := trade.timestamp
    volume := bar.volume + trade.shares
    tradeCount := bar.tradeCount + 1 }

namespace BarBuilder

variable {clock : Clock} {b : BarBuilder} {trade : Trade}

/-- The builder behind a trade that left it with `bar`. -/
def advance (b : BarBuilder) (bar : Bar) (trade : Trade) : BarBuilder where
  bar
  hasBar := true
  cumulativeVolume := b.cumulativeVolume + trade.shares
  tickIndex := b.tickIndex + 1

theorem add_of_not_hasBar (h : b.hasBar = false) :
    b.add clock trade =
      (b.advance (.first (clock trade b.cumulativeVolume b.tickIndex) trade)
        trade, []) := by
  simp [add, h, advance, Bar.first]

theorem add_of_eq (h : b.hasBar = true)
    (hbucket : clock trade b.cumulativeVolume b.tickIndex = b.bar.bucket) :
    b.add clock trade = (b.advance (b.bar.extend trade) trade, []) := by
  simp [add, h, hbucket, advance, Bar.extend]

theorem add_of_ne (h : b.hasBar = true)
    (hbucket : clock trade b.cumulativeVolume b.tickIndex ≠ b.bar.bucket) :
    b.add clock trade =
      (b.advance (.first (clock trade b.cumulativeVolume b.tickIndex) trade)
        trade, [b.bar]) := by
  simp [add, h, hbucket, emit, advance, Bar.first]

end BarBuilder

theorem summarizes_first (bucket : UInt64) (trade : Trade) :
    Summarizes (.first bucket trade) [(bucket, trade)] where
  bucket x hx := by rw [List.mem_singleton.mp hx]; rfl
  startTimestamp := rfl
  endTimestamp := rfl
  open_ := rfl
  close := rfl
  high := by
    constructor
    · exact ⟨trade, by simp [trades], rfl⟩
    · rintro p ⟨x, hx, rfl⟩
      rw [List.mem_singleton.mp hx]
      exact le_rfl
  low := by
    constructor
    · exact ⟨trade, by simp [trades], rfl⟩
    · rintro p ⟨x, hx, rfl⟩
      rw [List.mem_singleton.mp hx]
      exact le_rfl
  volume := by simp [trades, totalShares, Bar.first]
  tradeCount := rfl

section Extend

variable {bar : Bar} {run : List (UInt64 × Trade)} {bucket : UInt64}
  {trade : Trade}

theorem trades_snoc (run : List (UInt64 × Trade)) (bucket : UInt64)
    (trade : Trade) :
    trades (run ++ [(bucket, trade)]) = trades run ++ [trade] := by
  rw [trades, List.map_append]
  rfl

theorem mem_prices_snoc {p : StandardPrice} :
    p ∈ prices (run ++ [(bucket, trade)]) ↔
      p ∈ prices run ∨ p = trade.price := by
  show (∃ x ∈ trades (run ++ [(bucket, trade)]), x.price = p) ↔ _
  rw [trades_snoc]
  constructor
  · rintro ⟨x, hx, rfl⟩
    rcases List.mem_append.mp hx with hx | hx
    · exact .inl ⟨x, hx, rfl⟩
    · rw [List.mem_singleton.mp hx]
      exact .inr rfl
  · rintro (⟨x, hx, rfl⟩ | rfl)
    · exact ⟨x, List.mem_append_left _ hx, rfl⟩
    · exact ⟨trade, by simp, rfl⟩

theorem prices_snoc : prices (run ++ [(bucket, trade)]) =
    insert trade.price (prices run) := by
  ext p
  rw [mem_prices_snoc, Set.mem_insert_iff, or_comm]

theorem Summarizes.extend (h : Summarizes bar run)
    (hbucket : bucket = bar.bucket) :
    Summarizes (bar.extend trade) (run ++ [(bucket, trade)]) := by
  have hne : trades run ≠ [] := by
    intro hnil
    have hstart := h.startTimestamp
    rw [hnil] at hstart
    cases hstart
  constructor
  · intro x hx
    rcases List.mem_append.mp hx with hx | hx
    · exact h.bucket x hx
    · rw [List.mem_singleton.mp hx]
      exact hbucket
  · rw [trades_snoc, List.head?_append_of_ne_nil _ hne]
    exact h.startTimestamp
  · rw [trades_snoc, List.getLast?_concat]
    rfl
  · rw [trades_snoc, List.head?_append_of_ne_nil _ hne]
    exact h.open_
  · rw [trades_snoc, List.getLast?_concat]
    rfl
  · rw [prices_snoc, Bar.extend, max_comm]
    exact h.high.insert trade.price
  · rw [prices_snoc, Bar.extend, min_comm]
    exact h.low.insert trade.price
  · rw [trades_snoc, totalShares_append, UInt64.ofNat_add, ← h.volume]
    simp [totalShares, Bar.extend]
  · rw [List.length_append, UInt64.ofNat_add, ← h.tradeCount]
    rfl

end Extend

/-- Behind a tape, with the bars that were emitted: the open bar is that of
the last run, the others have been emitted. -/
structure Builds (clock : Clock) (tape : List Trade) (b : BarBuilder)
    (emitted : List Bar) : Prop where
  cumulativeVolume : b.cumulativeVolume = UInt64.ofNat (totalShares tape)
  tickIndex : b.tickIndex = UInt64.ofNat tape.length
  empty : b.hasBar = false → tape = [] ∧ emitted = []
  runs : b.hasBar = true → ∃ closed run,
    IsRuns Prod.fst (bucketed clock tape) (closed ++ [run]) ∧
      List.Forall₂ Summarizes emitted closed ∧ Summarizes b.bar run

theorem Builds.add {clock : Clock} {tape : List Trade} {b : BarBuilder}
    {emitted : List Bar} (h : Builds clock tape b emitted) (trade : Trade) :
    Builds clock (tape ++ [trade]) (b.add clock trade).1
      (emitted ++ (b.add clock trade).2) := by
  have hvolume : b.cumulativeVolume + trade.shares =
      UInt64.ofNat (totalShares (tape ++ [trade])) := by
    rw [totalShares_append, UInt64.ofNat_add, ← h.cumulativeVolume]
    simp [totalShares]
  have htick : b.tickIndex + 1 = UInt64.ofNat (tape ++ [trade]).length := by
    rw [List.length_append, UInt64.ofNat_add, ← h.tickIndex]
    rfl
  have hbucketed := bucketed_snoc clock tape trade
  rw [← h.cumulativeVolume, ← h.tickIndex] at hbucketed
  cases hhas : b.hasBar with
  | false =>
      obtain ⟨rfl, rfl⟩ := h.empty hhas
      rw [BarBuilder.add_of_not_hasBar hhas]
      refine ⟨hvolume, htick, fun hnone => (by cases hnone), fun _ => ?_⟩
      refine ⟨[], _, ?_, .nil, summarizes_first _ trade⟩
      rw [hbucketed]
      exact (IsRuns.nil Prod.fst).start (by simp)
  | true =>
      obtain ⟨closed, run, hruns, hclosed, hbar⟩ := h.runs hhas
      by_cases hbucket : clock trade b.cumulativeVolume b.tickIndex =
          b.bar.bucket
      · rw [BarBuilder.add_of_eq hhas hbucket, List.append_nil]
        refine ⟨hvolume, htick, fun hnone => (by cases hnone), fun _ => ?_⟩
        refine ⟨closed, _, ?_, hclosed, hbar.extend hbucket⟩
        rw [hbucketed]
        refine hruns.extend fun x hx => ?_
        rw [hbar.bucket x hx, hbucket]
      · rw [BarBuilder.add_of_ne hhas hbucket]
        refine ⟨hvolume, htick, fun hnone => (by cases hnone), fun _ => ?_⟩
        refine ⟨closed ++ [run], _, ?_, ?_, summarizes_first _ trade⟩
        · rw [hbucketed]
          refine hruns.start fun x hx hkey => hbucket ?_
          rw [← hruns.flatten, List.flatten_append, List.flatten_singleton,
            List.getLast?_append_of_ne_nil _ (hruns.ne_nil run (by simp))]
            at hx
          rw [← hbar.bucket x (List.mem_of_getLast? hx), hkey]
        · exact List.rel_append hclosed (.cons hbar .nil)

theorem builds_run (clock : Clock) (tape : List Trade) :
    Builds clock tape (run (BarBuilder.add clock) {} tape).1
      (completedBars clock tape) := by
  induction tape using List.reverseRecOn with
  | nil => exact ⟨rfl, rfl, fun _ => ⟨rfl, rfl⟩, fun h => by cases h⟩
  | append_singleton tape trade ih =>
      rw [completedBars, run_snoc]
      exact ih.add trade

/-- The bars of the runs, of which the last is left to `flush`. -/
theorem bars_eq (clock : Clock) (tape : List Trade) :
    List.Forall₂ Summarizes (bars clock tape) (tapeRuns clock tape) ∧
      completedBars clock tape = (bars clock tape).dropLast := by
  have h := builds_run clock tape
  rw [bars]
  cases hhas : (run (BarBuilder.add clock) {} tape).1.hasBar with
  | false =>
      obtain ⟨rfl, hemitted⟩ := h.empty hhas
      rw [hemitted, BarBuilder.flush, hhas]
      exact ⟨.nil, rfl⟩
  | true =>
      obtain ⟨closed, last, hruns, hclosed, hbar⟩ := h.runs hhas
      rw [BarBuilder.flush, hhas, if_pos rfl, tapeRuns, ← hruns.eq_runsBy]
      exact ⟨List.rel_append hclosed (.cons hbar .nil),
        List.dropLast_concat.symm⟩

theorem isRuns_tapeRuns (clock : Clock) (tape : List Trade) :
    IsRuns Prod.fst (bucketed clock tape) (tapeRuns clock tape) :=
  isRuns_runsBy Prod.fst _

theorem flatten_trades (clock : Clock) (tape : List Trade) :
    ((tapeRuns clock tape).map trades).flatten = tape := by
  have hflatten := (isRuns_tapeRuns clock tape).flatten
  rw [show (tapeRuns clock tape).map trades =
    (tapeRuns clock tape).map (List.map Prod.snd) from rfl,
    ← List.map_flatten, hflatten]
  exact trades_bucketed clock tape

theorem totalShares_flatten (tapes : List (List Trade)) :
    totalShares tapes.flatten = (tapes.map totalShares).sum := by
  induction tapes with
  | nil => rfl
  | cons tape tapes ih =>
      rw [List.flatten_cons, totalShares_append, ih, List.map_cons,
        List.sum_cons]

theorem length_flatten_trades (runs : List (List (UInt64 × Trade))) :
    (runs.map trades).flatten.length = (runs.map List.length).sum := by
  rw [List.length_flatten, List.map_map]
  congr 1
  exact List.map_congr_left fun run _ => List.length_map _

/-- What is counted modulo `2 ^ 64` in each bar is counted exactly where it
does not exceed that in any run. -/
theorem map_toNat_eq {field : Bar → UInt64}
    {measure : List (UInt64 × Trade) → ℕ} {bars : List Bar}
    {runs : List (List (UInt64 × Trade))}
    (h : List.Forall₂ Summarizes bars runs)
    (hfield : ∀ bar run, Summarizes bar run →
      field bar = UInt64.ofNat (measure run))
    (hsmall : (runs.map measure).sum < 2 ^ 64) :
    bars.map (fun bar => (field bar).toNat) = runs.map measure := by
  induction h with
  | nil => rfl
  | @cons bar run bars runs hbar _ ih =>
      rw [List.map_cons, List.sum_cons] at hsmall
      have hrun : measure run < 2 ^ 64 :=
        (Nat.le_add_right _ _).trans_lt hsmall
      rw [List.map_cons, List.map_cons, hfield bar run hbar,
        UInt64.toNat_ofNat_of_lt' hrun,
        ih ((Nat.le_add_left _ _).trans_lt hsmall)]

theorem Summarizes.le {bar : Bar} {run : List (UInt64 × Trade)}
    (h : Summarizes bar run) :
    bar.low ≤ bar.open_ ∧ bar.open_ ≤ bar.high ∧
      bar.low ≤ bar.close ∧ bar.close ≤ bar.high := by
  obtain ⟨first, hfirst, hopen⟩ := Option.map_eq_some_iff.mp h.open_
  obtain ⟨last, hlast, hclose⟩ := Option.map_eq_some_iff.mp h.close
  have hopen' : bar.open_ ∈ prices run :=
    ⟨first, List.mem_of_head? hfirst, hopen⟩
  have hclose' : bar.close ∈ prices run :=
    ⟨last, List.mem_of_getLast? hlast, hclose⟩
  exact ⟨h.low.2 hopen', h.high.2 hopen', h.low.2 hclose', h.high.2 hclose'⟩

/-- The bars of a tape are those of its runs, in order: nothing is lost and
nothing counted twice. -/
theorem bars_partition (clock : Clock) (tape : List Trade) :
    IsRuns Prod.fst (bucketed clock tape) (tapeRuns clock tape) ∧
    List.Forall₂ Summarizes (bars clock tape) (tapeRuns clock tape) ∧
    ((tapeRuns clock tape).map trades).flatten = tape ∧
    (∀ bar ∈ bars clock tape, bar.low ≤ bar.open_ ∧ bar.open_ ≤ bar.high ∧
      bar.low ≤ bar.close ∧ bar.close ≤ bar.high) ∧
    (totalShares tape < 2 ^ 64 →
      (bars clock tape).map (fun bar => bar.volume.toNat) =
        (tapeRuns clock tape).map (fun run => totalShares (trades run)) ∧
      ((bars clock tape).map fun bar => bar.volume.toNat).sum =
        totalShares tape) ∧
    (tape.length < 2 ^ 64 →
      (bars clock tape).map (fun bar => bar.tradeCount.toNat) =
        (tapeRuns clock tape).map List.length ∧
      ((bars clock tape).map fun bar => bar.tradeCount.toNat).sum =
        tape.length) := by
  obtain ⟨hbars, -⟩ := bars_eq clock tape
  have hshares : ((tapeRuns clock tape).map
      fun run => totalShares (trades run)).sum = totalShares tape := by
    conv_rhs => rw [← flatten_trades clock tape, totalShares_flatten]
    rw [List.map_map]
    rfl
  have hcount : ((tapeRuns clock tape).map List.length).sum =
      tape.length := by
    conv_rhs => rw [← flatten_trades clock tape, length_flatten_trades]
  refine ⟨isRuns_tapeRuns clock tape, hbars, flatten_trades clock tape, ?_,
    ?_, ?_⟩
  · intro bar hbar
    obtain ⟨i, hi, rfl⟩ := List.mem_iff_getElem.mp hbar
    have hlen := hbars.length_eq ▸ hi
    exact (hbars.get hi hlen).le
  · intro hsmall
    have hmap := map_toNat_eq hbars (fun _ _ h => h.volume)
      (hshares.trans_lt hsmall)
    exact ⟨hmap, by rw [hmap, hshares]⟩
  · intro hsmall
    have hmap := map_toNat_eq hbars (fun _ _ h => h.tradeCount)
      (hcount.trans_lt hsmall)
    exact ⟨hmap, by rw [hmap, hcount]⟩

end Analytics

end Itch
