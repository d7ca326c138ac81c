import Itch.Analytics.Bars

/-!
# Clocks over whole tapes

§1 says where the trades of a bar stand in the tape and what their clock was
given. §2 is about the boundaries between bars under each of the three clocks,
§3 about the volume that a bar of the volume clock carries.
-/

namespace Itch.Analytics

open Book Runs Transducer

/-! ## §1  Bars and their places -/

variable {clock : Clock} {tape : List Trade} {i : ℕ} {bar : Bar}

/-- The trades before the bars from the `i`-th on. -/
def tradesBefore (clock : Clock) (tape : List Trade) (i : ℕ) : List Trade :=
  trades ((tapeRuns clock tape).take i).flatten

/-- The run of a bar, and what is before and behind it. -/
theorem exists_run (h : (bars clock tape)[i]? = some bar) :
    ∃ run, Summarizes bar run ∧
      (tapeRuns clock tape).take (i + 1) =
        (tapeRuns clock tape).take i ++ [run] ∧
      tapeRuns clock tape = (tapeRuns clock tape).take i ++
        run :: (tapeRuns clock tape).drop (i + 1) := by
  obtain ⟨hbars, -⟩ := bars_eq clock tape
  obtain ⟨hi, rfl⟩ := List.getElem?_eq_some_iff.mp h
  have hlen := hbars.length_eq ▸ hi
  refine ⟨_, hbars.get hi hlen, List.take_succ_eq_append_getElem hlen, ?_⟩
  conv_lhs => rw [← List.take_append_drop i (tapeRuns clock tape),
    List.drop_eq_getElem_cons hlen]
  rfl

/-- What the clock was given for a trade is told by the trades before it. -/
theorem bucket_eq {before after : List (UInt64 × Trade)} {x : UInt64 × Trade}
    (h : bucketed clock tape = before ++ x :: after) :
    x.1 = clock x.2 (UInt64.ofNat (totalShares (trades before)))
      (UInt64.ofNat before.length) := by
  obtain ⟨pasts, ys, hsplit, rfl, hys⟩ := List.map_eq_append_iff.mp h
  obtain ⟨y, ys, rfl, rfl, -⟩ := List.map_eq_cons_iff.mp hys
  have hpast := past_of_eq_append hsplit
  have htrades (bucket : List Trade × Trade → UInt64) :
      trades (pasts.map fun p => (bucket p, p.2)) = y.1 := by
    rw [trades, List.map_map, hpast]
    rfl
  rw [List.length_map, ← List.length_map (f := Prod.snd), ← hpast]
  exact congrArg (fun past => clock y.2 (UInt64.ofNat (totalShares past))
    (UInt64.ofNat y.1.length)) (htrades _).symm

/-- Where the buckets do not decrease, the bars have increasing buckets. -/
theorem pairwise_bucket (hmono : (bucketed clock tape).Pairwise
      fun x y => x.1.toNat ≤ y.1.toNat) :
    (bars clock tape).Pairwise fun x y => x.bucket < y.bucket := by
  obtain ⟨hbars, -⟩ := bars_eq clock tape
  have hruns := (isRuns_tapeRuns clock tape)
  have hincreasing := hruns.increasing
    (fun _ _ h => UInt64.toNat_inj.mp h) hmono
  have : Trans (fun x y : Bar => x.bucket < y.bucket)
      (fun x y : Bar => x.bucket < y.bucket)
      (fun x y : Bar => x.bucket < y.bucket) := ⟨UInt64.lt_trans⟩
  refine List.isChain_iff_pairwise.mp (List.isChain_iff_getElem.mpr ?_)
  intro i hi
  have hlen := hbars.length_eq
  have hi' : i + 1 < (tapeRuns clock tape).length := hlen ▸ hi
  have hbar := hbars.get (i.lt_succ_self.trans hi) (i.lt_succ_self.trans hi')
  have hbar' := hbars.get hi hi'
  obtain ⟨x, hx⟩ := List.exists_mem_of_ne_nil _
    (hruns.ne_nil _ (List.get_mem _ ⟨i, i.lt_succ_self.trans hi'⟩))
  obtain ⟨y, hy⟩ := List.exists_mem_of_ne_nil _
    (hruns.ne_nil _ (List.get_mem _ ⟨i + 1, hi'⟩))
  have hlt := List.isChain_iff_getElem.mp hincreasing i hi' x hx y hy
  rw [hbar.bucket x hx, hbar'.bucket y hy] at hlt
  exact UInt64.lt_iff_toNat_lt.mpr hlt

/-- The place of a bar in the tape: its run, with what is directly before and
behind it, each in another bucket. -/
theorem exists_place (h : (bars clock tape)[i]? = some bar) :
    ∃ before run after, Summarizes bar run ∧ run ≠ [] ∧
      bucketed clock tape = before ++ (run ++ after) ∧
      trades before = tradesBefore clock tape i ∧
      trades (before ++ run) = tradesBefore clock tape (i + 1) ∧
      (∀ x ∈ before.getLast?, x.1 ≠ bar.bucket) ∧
      (∀ x ∈ after.head?, x.1 ≠ bar.bucket) ∧
      (i + 1 < (bars clock tape).length → after ≠ []) := by
  obtain ⟨run, hbar, htake, hsplit⟩ := exists_run h
  obtain ⟨hbars, -⟩ := bars_eq clock tape
  have hne_nil := (isRuns_tapeRuns clock tape).ne_nil
  have hruns := isRuns_tapeRuns clock tape
  rw [hsplit] at hruns
  have hne := hruns.mem
  obtain ⟨y, hy⟩ := List.exists_mem_of_ne_nil run hne
  refine ⟨_, run, _, hbar, hne, hruns.eq_append, rfl, ?_, ?_, ?_, ?_⟩
  · rw [tradesBefore, htake, List.flatten_append, List.flatten_singleton]
  · intro x hx
    rw [← hbar.bucket y hy]
    exact hruns.before_ne hx hy
  · intro x hx
    rw [← hbar.bucket y hy]
    exact (hruns.after_ne hx hy).symm
  · intro hlen hnil
    rw [hbars.length_eq] at hlen
    have hmem := List.getElem_mem hlen
    rw [List.flatten_eq_nil_iff, List.drop_eq_getElem_cons hlen] at hnil
    exact hne_nil _ hmem (hnil _ List.mem_cons_self)

/-! ## §2  Boundaries -/

/-! ### Ticks -/

theorem dvd_of_pred_div_ne {n j : ℕ} (h : 0 < j → (j - 1) / n ≠ j / n) :
    n ∣ j := by
  by_contra hdvd
  have hpos : 0 < j := Nat.pos_of_ne_zero fun h0 => hdvd (h0 ▸ dvd_zero n)
  refine h hpos ?_
  have hsucc : (j - 1 + 1) / n =
      (j - 1) / n + if n ∣ j - 1 + 1 then 1 else 0 := Nat.succ_div
  rw [Nat.sub_add_cancel hpos, if_neg hdvd, Nat.add_zero] at hsucc
  exact hsucc.symm

/-- From a boundary on, as many ticks have one bucket as it is wide, or less
where there are no more. -/
theorem tick_count {n j count : ℕ} (hn : 0 < n) (hdvd : n ∣ j)
    (hpos : 0 < count) (hlast : (j + (count - 1)) / n = j / n) :
    count ≤ n ∧ ((j + count) / n ≠ j / n → count = n) := by
  obtain ⟨q, rfl⟩ := hdvd
  rw [Nat.mul_add_div hn, Nat.mul_div_cancel_left q hn,
    Nat.add_eq_left, Nat.div_eq_zero_iff_lt hn] at hlast
  refine ⟨by omega, fun hnext => ?_⟩
  rw [Nat.mul_add_div hn, Nat.mul_div_cancel_left q hn, Ne,
    Nat.add_eq_left, Nat.div_eq_zero_iff_lt hn] at hnext
  omega

/-- What a tick clock says at the `j`-th trade. -/
theorem tick_bucket {n : UInt64} {before after : List (UInt64 × Trade)}
    {x : UInt64 × Trade}
    (h : bucketed (tickClock n) tape = before ++ x :: after)
    (hlen : tape.length ≤ 2 ^ 64) :
    x.1.toNat = before.length / n.toNat := by
  have htape := congrArg List.length h
  rw [← List.length_map (f := Prod.snd), ← trades, trades_bucketed,
    List.length_append, List.length_cons] at htape
  rw [bucket_eq h, tickClock, UInt64.toNat_div,
    UInt64.toNat_ofNat_of_lt' (by simp only [UInt64.size]; omega)]

theorem tickClock_counts (n : UInt64) (hn : 0 < n)
    (hlen : tape.length ≤ 2 ^ 64)
    (h : (bars (tickClock n) tape)[i]? = some bar) :
    1 ≤ bar.tradeCount ∧ bar.tradeCount ≤ n ∧
      (i + 1 < (bars (tickClock n) tape).length → bar.tradeCount = n) := by
  have hn' : 0 < n.toNat := UInt64.lt_iff_toNat_lt.mp hn
  obtain ⟨before, run, after, hbar, hne, hplace, -, -, hbefore, hafter,
    hmore⟩ := exists_place h
  have hpos : 0 < run.length := List.length_pos_iff.mpr hne
  have hbucket : bar.bucket.toNat = before.length / n.toNat := by
    obtain ⟨first, rest, rfl⟩ := List.exists_cons_of_ne_nil hne
    rw [← hbar.bucket first List.mem_cons_self, tick_bucket hplace hlen]
  have hlast : (before.length + (run.length - 1)) / n.toNat =
      before.length / n.toNat := by
    rcases List.eq_nil_or_concat run with rfl | ⟨init, last, rfl⟩
    · exact absurd rfl hne
    · have hsplit : bucketed (tickClock n) tape =
          (before ++ init) ++ last :: after := by
        rw [hplace]
        simp
      have hkey := tick_bucket hsplit hlen
      rw [hbar.bucket last (by simp), List.length_append] at hkey
      simpa [hbucket] using hkey.symm
  have hdvd : n.toNat ∣ before.length := by
    refine dvd_of_pred_div_ne fun hsome heq => ?_
    rcases List.eq_nil_or_concat before with rfl | ⟨init, z, rfl⟩
    · cases hsome
    · have hsplit : bucketed (tickClock n) tape =
          init ++ z :: (run ++ after) := by
        rw [hplace]
        simp
      have hkey := tick_bucket hsplit hlen
      refine hbefore z (by simp) (UInt64.toNat_inj.mp ?_)
      rw [hkey, hbucket, ← heq]
      simp
  obtain ⟨hle, heq⟩ := tick_count hn' hdvd hpos hlast
  have hsmall : run.length < 2 ^ 64 := hle.trans_lt n.toNat_lt
  have hcount : bar.tradeCount.toNat = run.length := by
    rw [hbar.tradeCount, UInt64.toNat_ofNat_of_lt' hsmall]
  refine ⟨?_, ?_, fun hnext => ?_⟩
  · rw [UInt64.le_iff_toNat_le, hcount]
    exact hpos
  · rw [UInt64.le_iff_toNat_le, hcount]
    exact hle
  · obtain ⟨y, rest, rfl⟩ := List.exists_cons_of_ne_nil (hmore hnext)
    have hsplit : bucketed (tickClock n) tape =
        (before ++ run) ++ y :: rest := by
      rw [hplace]
      simp
    have hkey := tick_bucket hsplit hlen
    rw [List.length_append] at hkey
    refine UInt64.toNat_inj.mp (hcount.trans (heq fun hsame => ?_))
    refine hafter y (by simp) (UInt64.toNat_inj.mp ?_)
    rw [hkey, hsame, hbucket]

/-! ### Time -/

/-- A bucket is an interval, and the next one begins where it ends. -/
theorem interval_of_div {c v k : ℕ} (hv : 0 < v) (h : c / v = k) :
    k * v ≤ c ∧ c < (k + 1) * v := by
  subst h
  exact ⟨Nat.div_mul_le_self c v,
    Nat.lt_mul_of_div_lt (Nat.lt_succ_self _) hv⟩

theorem bucketed_timeClock (n : UInt64) (tape : List Trade) :
    bucketed (timeClock n) tape =
      tape.map fun trade => (trade.timestamp / n, trade) := by
  induction tape using List.reverseRecOn with
  | nil => rfl
  | append_singleton tape trade ih =>
      rw [bucketed_snoc, ih, List.map_append]
      rfl

theorem timeClock_intervals (n : UInt64) (hn : 0 < n)
    (hsorted : tape.Pairwise fun x y => x.timestamp ≤ y.timestamp) :
    (bars (timeClock n) tape).Pairwise (fun x y => x.bucket < y.bucket) ∧
      List.Forall₂ (fun bar run => ∀ trade ∈ trades run,
        bar.bucket.toNat * n.toNat ≤ trade.timestamp.toNat ∧
          trade.timestamp.toNat < (bar.bucket.toNat + 1) * n.toNat)
        (bars (timeClock n) tape) (tapeRuns (timeClock n) tape) := by
  have hn' : 0 < n.toNat := UInt64.lt_iff_toNat_lt.mp hn
  constructor
  · apply pairwise_bucket
    rw [bucketed_timeClock, List.pairwise_map]
    refine hsorted.imp fun {x y} hxy => ?_
    rw [UInt64.toNat_div, UInt64.toNat_div]
    exact Nat.div_le_div_right (UInt64.le_iff_toNat_le.mp hxy)
  · obtain ⟨hbars, -⟩ := bars_eq (timeClock n) tape
    have hflatten := (isRuns_tapeRuns (timeClock n) tape).flatten
    rw [bucketed_timeClock] at hflatten
    refine List.forall₂_iff_zip.mpr ⟨hbars.length_eq, ?_⟩
    intro bar run hmem trade htrade
    have hbar := (List.forall₂_iff_zip.mp hbars).2 hmem
    obtain ⟨x, hx, rfl⟩ := List.mem_map.mp htrade
    -- a trade of the tape, with its own bucket
    have hx' : x ∈ (tapeRuns (timeClock n) tape).flatten :=
      List.mem_flatten.mpr ⟨run, (List.of_mem_zip hmem).2, hx⟩
    rw [hflatten] at hx'
    obtain ⟨trade, -, rfl⟩ := List.mem_map.mp hx'
    have hkey := hbar.bucket _ hx
    dsimp only at hkey ⊢
    apply interval_of_div hn'
    rw [← hkey, UInt64.toNat_div]

/-! ### Volume -/

theorem totalShares_trades {before after : List (UInt64 × Trade)}
    (h : bucketed clock tape = before ++ after) :
    totalShares tape = totalShares (trades before) +
      totalShares (trades after) := by
  rw [← totalShares_append, ← trades_bucketed clock tape, h, trades,
    List.map_append]
  rfl

theorem volume_bucket {v : UInt64} {before after : List (UInt64 × Trade)}
    {x : UInt64 × Trade}
    (h : bucketed (volumeClock v) tape = before ++ x :: after)
    (hsmall : totalShares tape < 2 ^ 64) :
    x.1.toNat = totalShares (trades before) / v.toNat := by
  rw [totalShares_trades h] at hsmall
  rw [bucket_eq h, volumeClock, UInt64.toNat_div,
    UInt64.toNat_ofNat_of_lt' ((Nat.le_add_right _ _).trans_lt hsmall)]

theorem pairwise_volumeClock (v : UInt64) (tape : List Trade)
    (hsmall : totalShares tape < 2 ^ 64) :
    (bucketed (volumeClock v) tape).Pairwise
      fun x y => x.1.toNat ≤ y.1.toNat := by
  induction tape using List.reverseRecOn with
  | nil => exact List.Pairwise.nil
  | append_singleton tape trade ih =>
      rw [totalShares_append] at hsmall
      have hsmall' := (Nat.le_add_right _ _).trans_lt hsmall
      rw [bucketed_snoc]
      refine List.pairwise_append.mpr ⟨ih hsmall', List.pairwise_singleton ..,
        fun x hx y hy => ?_⟩
      -- less had been traded before the earlier trade
      obtain ⟨before, after, hsplit⟩ := List.append_of_mem hx
      obtain rfl := List.mem_singleton.mp hy
      rw [volume_bucket hsplit hsmall', volumeClock, UInt64.toNat_div,
        UInt64.toNat_ofNat_of_lt' hsmall']
      apply Nat.div_le_div_right
      rw [totalShares_trades hsplit]
      exact Nat.le_add_right _ _

/-- A bar that is not the last one reaches its boundary with its last
trade. -/
theorem volume_reached (v : UInt64) (hv : 0 < v)
    (hsmall : totalShares tape < 2 ^ 64)
    (h : (bars (volumeClock v) tape)[i]? = some bar)
    (hnext : i + 1 < (bars (volumeClock v) tape).length) :
    (bar.bucket.toNat + 1) * v.toNat ≤
        totalShares (tradesBefore (volumeClock v) tape (i + 1)) ∧
      totalShares (tradesBefore (volumeClock v) tape (i + 1)).dropLast <
        (bar.bucket.toNat + 1) * v.toNat := by
  have hv' : 0 < v.toNat := UInt64.lt_iff_toNat_lt.mp hv
  obtain ⟨before, run, after, hbar, hne, hplace, hbefore, hthrough, -, hafter,
    hmore⟩ := exists_place h
  rcases List.eq_nil_or_concat run with rfl | ⟨init, last, rfl⟩
  · exact absurd rfl hne
  rw [List.concat_eq_append] at *
  have hsplit : bucketed (volumeClock v) tape =
      (before ++ init) ++ last :: after := by
    rw [hplace]
    simp
  have hlast := volume_bucket hsplit hsmall
  rw [hbar.bucket last (by simp)] at hlast
  have hcut : trades (before ++ (init ++ [last])) =
      trades (before ++ init) ++ [last.2] := by
    simp [trades]
  obtain ⟨y, rest, rfl⟩ := List.exists_cons_of_ne_nil (hmore hnext)
  have hsplit' : bucketed (volumeClock v) tape =
      (before ++ (init ++ [last])) ++ y :: rest := by
    rw [hplace]
    simp
  have hy := volume_bucket hsplit' hsmall
  rw [hthrough] at hy hcut
  constructor
  · -- the trade behind the bar falls in a later bucket
    rw [← Nat.le_div_iff_mul_le hv', ← hy, Nat.add_one_le_iff]
    refine lt_of_le_of_ne ?_ fun heq => ?_
    · rw [hlast, hy, hcut, totalShares_append]
      exact Nat.div_le_div_right (Nat.le_add_right _ _)
    · exact hafter y (by simp) (UInt64.toNat_inj.mp heq.symm)
  · rw [hcut, List.dropLast_concat]
    exact (interval_of_div hv' hlast.symm).2

/-! ### The three clocks -/

/-- What bounds the bars under each clock. The index of a trade is a
`std::uint64_t` to the tick clock. -/
theorem clock_boundaries (tape : List Trade) :
    (∀ n : UInt64, 0 < n → tape.length ≤ 2 ^ 64 →
      ∀ i bar, (bars (tickClock n) tape)[i]? = some bar →
        1 ≤ bar.tradeCount ∧ bar.tradeCount ≤ n ∧
          (i + 1 < (bars (tickClock n) tape).length → bar.tradeCount = n)) ∧
    (∀ n : UInt64, 0 < n →
      tape.Pairwise (fun x y => x.timestamp ≤ y.timestamp) →
      (bars (timeClock n) tape).Pairwise (fun x y => x.bucket < y.bucket) ∧
        List.Forall₂ (fun bar run => ∀ trade ∈ trades run,
          bar.bucket.toNat * n.toNat ≤ trade.timestamp.toNat ∧
            trade.timestamp.toNat < (bar.bucket.toNat + 1) * n.toNat)
          (bars (timeClock n) tape) (tapeRuns (timeClock n) tape)) ∧
    (∀ v : UInt64, 0 < v → totalShares tape < 2 ^ 64 →
      (bars (volumeClock v) tape).Pairwise (fun x y => x.bucket < y.bucket) ∧
        ∀ i bar, (bars (volumeClock v) tape)[i]? = some bar →
          i + 1 < (bars (volumeClock v) tape).length →
          (bar.bucket.toNat + 1) * v.toNat ≤
              totalShares (tradesBefore (volumeClock v) tape (i + 1)) ∧
            totalShares
                (tradesBefore (volumeClock v) tape (i + 1)).dropLast <
              (bar.bucket.toNat + 1) * v.toNat) := by
  refine ⟨fun n hn hlen i bar h => tickClock_counts n hn hlen h,
    fun n hn hsorted => timeClock_intervals n hn hsorted,
    fun v hv hsmall => ⟨?_, fun i bar h hnext =>
      volume_reached v hv hsmall h hnext⟩⟩
  exact pairwise_bucket (pairwise_volumeClock v tape hsmall)

theorem tapeRuns_start {trade : Trade}
    (h : ∀ x ∈ (bucketed clock tape).getLast?, x.1 ≠ clock trade
      (UInt64.ofNat (totalShares tape)) (UInt64.ofNat tape.length)) :
    tapeRuns clock (tape ++ [trade]) = tapeRuns clock tape ++
      [[(clock trade (UInt64.ofNat (totalShares tape))
        (UInt64.ofNat tape.length), trade)]] := by
  rw [tapeRuns, bucketed_snoc]
  exact ((isRuns_tapeRuns clock tape).start h).eq_runsBy.symm

/-- Trades whose buckets differ from the one before make bars of their own. -/
theorem tapeRuns_alone {before : List Trade} {n : UInt64} {j : ℕ}
    (trade : Trade) (hlen : before.length = j)
    (h : UInt64.ofNat j / n ≠ UInt64.ofNat (j + 1) / n)
    (h' : UInt64.ofNat (j + 1) / n ≠ UInt64.ofNat (j + 2) / n) :
    tapeRuns (tickClock n) (before ++ [trade] ++ [trade] ++ [trade]) =
      tapeRuns (tickClock n) (before ++ [trade]) ++
        [[(UInt64.ofNat (j + 1) / n, trade)],
          [(UInt64.ofNat (j + 2) / n, trade)]] := by
  have hlen₁ : (before ++ [trade]).length = j + 1 := by
    rw [List.length_append, hlen, List.length_singleton]
  have hlen₂ : (before ++ [trade] ++ [trade]).length = j + 2 := by
    rw [List.length_append, hlen₁, List.length_singleton]
  have hlast : ∀ x ∈ (bucketed (tickClock n) (before ++ [trade])).getLast?,
      x.1 = UInt64.ofNat j / n := by
    intro x hx
    rw [bucketed_snoc, List.getLast?_concat, hlen] at hx
    obtain rfl := Option.some.inj hx
    rfl
  have hlast' : ∀ x ∈ (bucketed (tickClock n)
      (before ++ [trade] ++ [trade])).getLast?,
      x.1 = UInt64.ofNat (j + 1) / n := by
    intro x hx
    rw [bucketed_snoc, List.getLast?_concat, hlen₁] at hx
    obtain rfl := Option.some.inj hx
    rfl
  rw [tapeRuns_start, tapeRuns_start, hlen₁, hlen₂]
  · exact List.append_assoc _ _ _
  · intro x hx
    rw [hlast x hx, hlen₁]
    exact h
  · intro x hx
    rw [hlast' x hx, hlen₂]
    exact h'

/-- A tape that is longer than the index of a trade can tell has a bar of one
trade before its last. -/
theorem not_tickClock_counts :
    ¬∀ (n : UInt64) (tape : List Trade), 0 < n →
      ∀ i bar, (bars (tickClock n) tape)[i]? = some bar →
        i + 1 < (bars (tickClock n) tape).length → bar.tradeCount = n := by
  intro hcounts
  obtain ⟨trade⟩ : Nonempty Trade := ⟨{}⟩
  obtain ⟨before, hlen⟩ : ∃ before : List Trade,
      before.length = 18446744073709551614 :=
    ⟨List.replicate 18446744073709551614 trade, List.length_replicate⟩
  have hruns := tapeRuns_alone (n := 3) trade hlen
    (by decide +kernel) (by decide +kernel)
  obtain ⟨hbars, -⟩ := bars_eq (tickClock 3) (before ++ [trade] ++ [trade] ++ [trade])
  rw [hruns] at hbars
  -- the bars of the last two runs
  have htail := List.forall₂_drop_append _ _ _ hbars
  generalize (tapeRuns (tickClock 3) (before ++ [trade])).length = i at htail
  obtain ⟨bar, rest, hbar, hrest, hdrop⟩ :=
    List.forall₂_cons_right_iff.mp htail
  obtain ⟨last, rest, -, hnil, rfl⟩ := List.forall₂_cons_right_iff.mp hrest
  cases hnil
  have hget : (bars (tickClock 3) (before ++ [trade] ++ [trade] ++ [trade]))[i]? =
      some bar := by
    rw [← List.head?_drop, hdrop]
    rfl
  have hnext : i + 1 <
      (bars (tickClock 3) (before ++ [trade] ++ [trade] ++ [trade])).length := by
    have hlen := congrArg List.length hdrop
    rw [List.length_drop, List.length_cons, List.length_cons] at hlen
    omega
  have hthree := hcounts 3 _ (by decide) i bar hget hnext
  have hone : bar.tradeCount = 1 := hbar.tradeCount
  exact absurd (hone.symm.trans hthree) (by decide)

/-! ## §3  Volume -/

theorem completed_getElem? (h : (completedBars clock tape)[i]? = some bar) :
    (bars clock tape)[i]? = some bar ∧ i + 1 < (bars clock tape).length ∧
      (completedBars clock tape).take i = (bars clock tape).take i := by
  rw [(bars_eq clock tape).2] at h ⊢
  obtain ⟨hi, hget⟩ := List.getElem?_eq_some_iff.mp h
  have hi' := hi
  rw [List.length_dropLast] at hi'
  refine ⟨?_, by omega, ?_⟩
  · rw [List.getElem_dropLast] at hget
    rw [← hget]
    exact List.getElem?_eq_getElem _
  · rw [List.dropLast_eq_take, List.take_take, min_eq_left hi'.le]

/-- The volume of the bars before the `i`-th one. -/
theorem sum_volumes (hsmall : totalShares tape < 2 ^ 64) (i : ℕ) :
    (((bars clock tape).take i).map fun bar => bar.volume.toNat).sum =
      totalShares (tradesBefore clock tape i) := by
  have hmap := congrArg (List.take i)
    ((bars_partition clock tape).2.2.2.2.1 hsmall).1
  rw [← List.map_take, ← List.map_take] at hmap
  rw [hmap, tradesBefore, trades, List.map_flatten, totalShares_flatten,
    List.map_map]
  rfl

/-- A bar that is complete carries the configured volume, less what the bars
before it had beyond their own. -/
theorem volume_add_overshoot (v : UInt64) (hv : 0 < v) (tape : List Trade)
    (hsmall : totalShares tape < 2 ^ 64) (i : ℕ) (bar : Bar)
    (h : (completedBars (volumeClock v) tape)[i]? = some bar) :
    v.toNat ≤ bar.volume.toNat +
      (((completedBars (volumeClock v) tape).take i).map
        fun bar => bar.volume.toNat).sum % v.toNat := by
  have hv' : 0 < v.toNat := UInt64.lt_iff_toNat_lt.mp hv
  obtain ⟨hbar, hnext, htake⟩ := completed_getElem? h
  obtain ⟨hreached, -⟩ := volume_reached v hv hsmall hbar hnext
  obtain ⟨before, run, after, hsum, hne, hplace, hbefore, hthrough, -⟩ :=
    exists_place hbar
  have htotal := totalShares_trades
    (hplace.trans (List.append_assoc before run after).symm)
  obtain ⟨first, rest, rfl⟩ := List.exists_cons_of_ne_nil hne
  have hfirst := volume_bucket hplace hsmall
  rw [hsum.bucket first List.mem_cons_self] at hfirst
  have hshares : totalShares (trades (before ++ first :: rest)) =
      totalShares (trades before) + totalShares (trades (first :: rest)) := by
    rw [trades, List.map_append, totalShares_append]
    rfl
  have hvolume : bar.volume.toNat = totalShares (trades (first :: rest)) := by
    rw [hsum.volume, UInt64.toNat_ofNat_of_lt']
    simp only [UInt64.size]
    omega
  rw [htake, sum_volumes hsmall, ← hbefore, hvolume]
  rw [← hthrough, hshares, hfirst] at hreached
  -- the boundary lies one width behind the one before the bar
  have hdiv := Nat.div_add_mod' (totalShares (trades before)) v.toNat
  rw [Nat.add_mul, Nat.one_mul] at hreached
  omega

/-- A trade of one and a half bars, and three small ones. -/
def overshootTape : List Trade :=
  [{ shares := 150 }, { shares := 40 }, { shares := 20 }, { shares := 1 }]

theorem volume_add_overshoot_second :
    (100 : UInt64).toNat ≤ (60 : UInt64).toNat +
      (((completedBars (volumeClock 100) overshootTape).take 1).map
        fun bar => bar.volume.toNat).sum % (100 : UInt64).toNat :=
  volume_add_overshoot 100 (by decide) overshootTape (by decide) 1
    { bucket := 1, volume := 60, tradeCount := 2 } (by decide +kernel)

/-- The second bar is complete with less than the volume of a bar. -/
theorem not_volume_ge :
    (completedBars (volumeClock 100) overshootTape).map Bar.volume =
      [150, 60] ∧
    ¬∀ (v : UInt64) (tape : List Trade), 0 < v → totalShares tape < 2 ^ 64 →
      ∀ bar ∈ completedBars (volumeClock v) tape, v ≤ bar.volume := by
  have hvolumes : (completedBars (volumeClock 100) overshootTape).map
      Bar.volume = [150, 60] := by
    decide +kernel
  refine ⟨hvolumes, fun hreached => ?_⟩
  have hall : ∀ volume ∈ ([150, 60] : List UInt64), 100 ≤ volume := by
    intro volume hmem
    rw [← hvolumes] at hmem
    obtain ⟨bar, hbar, rfl⟩ := List.mem_map.mp hmem
    exact hreached 100 overshootTape (by decide) (by decide) bar hbar
  exact absurd (hall 60 (by simp)) (by decide)

end Itch.Analytics
