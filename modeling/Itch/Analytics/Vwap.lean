import Itch.Price

/-!
# Average prices

The running averages of a price, weighted by volume and by time. §1 is the
average they stand for, over exact prices, and how far a quotient of rounded
sums is from it. §2 is about the calls since the last reset. §3 and §4 are the
two accumulators, and what they report after any sequence of calls.
-/

namespace Itch

open Binary64

namespace Analytics

/-! ## §1  Weighted means -/

/-- Prices, and what each counts. -/
abbrev Weighted : Type := List (StandardPrice × ℕ)

namespace Weighted

variable {samples : Weighted}

def total (samples : Weighted) : ℚ :=
  (samples.map fun s => s.1.exact * (s.2 : ℚ)).sum

def weight (samples : Weighted) : ℕ := (samples.map Prod.snd).sum

def mean (samples : Weighted) : ℚ := samples.total / samples.weight

theorem total_concat (samples : Weighted) (s : StandardPrice × ℕ) :
    total (samples ++ [s]) = total samples + s.1.exact * s.2 := by
  rw [total, List.map_append, List.sum_append, List.map_singleton,
    List.sum_singleton, total]

theorem weight_concat (samples : Weighted) (s : StandardPrice × ℕ) :
    weight (samples ++ [s]) = weight samples + s.2 := by
  rw [weight, List.map_append, List.sum_append, List.map_singleton,
    List.sum_singleton, weight]

/-- What every price satisfies, the mean does. -/
theorem mul_weight_le_total {lo : ℚ} (h : ∀ s ∈ samples, lo ≤ s.1.exact) :
    lo * samples.weight ≤ samples.total := by
  rw [weight, total, Nat.cast_list_sum, List.map_map, ← List.sum_map_mul_left]
  apply List.sum_le_sum
  intro s hs
  exact mul_le_mul_of_nonneg_right (h s hs) (Nat.cast_nonneg _)

theorem total_le_mul_weight {hi : ℚ} (h : ∀ s ∈ samples, s.1.exact ≤ hi) :
    samples.total ≤ hi * samples.weight := by
  rw [weight, total, Nat.cast_list_sum, List.map_map, ← List.sum_map_mul_left]
  apply List.sum_le_sum
  intro s hs
  exact mul_le_mul_of_nonneg_right (h s hs) (Nat.cast_nonneg _)

/-- The mean, up to `k` roundings: close to the exact one, and no further out
of the range of the prices. -/
structure Approximates (k : ℕ) (x : ℚ) (samples : Weighted) : Prop where
  error : |x - samples.mean| ≤ relativeError k * samples.mean
  above : ∀ lo, (∀ s ∈ samples, lo ≤ s.1.exact) → (1 - unit) ^ k * lo ≤ x
  below : ∀ hi, (∀ s ∈ samples, s.1.exact ≤ hi) → (1 - unit) ^ k * x ≤ hi

theorem approximates {k : ℕ} {x : ℚ} (h : Near k x samples.mean)
    (hk : k < 2 ^ 53) (hpos : 0 < samples.weight) :
    Approximates k x samples where
  error := h.abs_sub_le hk
  above lo hlo := by
    have hposq : (0 : ℚ) < samples.weight := by exact_mod_cast hpos
    have hmean : lo ≤ samples.mean :=
      (le_div_iff₀ hposq).mpr (mul_weight_le_total hlo)
    exact (mul_le_mul_of_nonneg_left hmean
      (one_sub_unit_pow_pos k).le).trans h.below
  below hi hhi := by
    have hposq : (0 : ℚ) < samples.weight := by exact_mod_cast hpos
    have hmean : samples.mean ≤ hi :=
      (div_le_iff₀ hposq).mpr (total_le_mul_weight hhi)
    exact h.above.trans hmean

/-- A term of the sum: the product of two rounded factors, rounded. -/
theorem near_mul (p : StandardPrice) (n : ℕ) :
    Near 3 (mul p.toDouble (ofNat n)) (p.exact * n) := by
  have hsized : Sized (-14) (p.toDouble * ofNat n) :=
    p.sized_toDouble.mul (sized_ofNat n)
  exact (p.near_toDouble.mul (near_ofNat n)).round (hsized.mono (by norm_num))

theorem sized_mul (p : StandardPrice) (n : ℕ) :
    Sized (-14) (mul p.toDouble (ofNat n)) :=
  (p.sized_toDouble.mul (sized_ofNat n)).round (by norm_num)

/-- The sum as it is accumulated, after a number of additions. -/
structure Accumulated (k : ℕ) (sum : ℚ) (samples : Weighted) : Prop where
  near : Near (k + 3) sum samples.total
  sized : Sized (-14) sum

theorem Accumulated.zero : Accumulated 0 0 [] :=
  ⟨(Near.refl (x := 0) le_rfl).mono (by norm_num), .inl rfl⟩

theorem Accumulated.concat {k : ℕ} {sum : ℚ} (h : Accumulated k sum samples)
    (p : StandardPrice) (n : ℕ) :
    Accumulated (k + 1) (add sum (mul p.toDouble (ofNat n)))
      (samples ++ [(p, n)]) := by
  have hsized := h.sized.add (sized_mul p n)
  have hterm : Near (k + 3) (mul p.toDouble (ofNat n)) (p.exact * n) :=
    (near_mul p n).mono (by omega)
  refine ⟨?_, hsized.round (by norm_num)⟩
  rw [total_concat]
  exact ((h.near.add hterm).round (hsized.mono (by norm_num))).mono (by omega)

/-- What counts nothing may be left out. -/
theorem Accumulated.concat_zero {k : ℕ} {sum : ℚ}
    (h : Accumulated k sum samples) (p : StandardPrice) :
    Accumulated (k + 1) sum (samples ++ [(p, 0)]) := by
  refine ⟨?_, h.sized⟩
  rw [total_concat, Nat.cast_zero, mul_zero, add_zero]
  exact h.near.mono (by omega)

/-- The quotient of the two sums is rounded once more. -/
theorem Accumulated.near_mean {j k : ℕ} {sum count : ℚ}
    (h : Accumulated k sum samples) (hcount : Near j count samples.weight)
    (hpos : 0 < samples.weight) (hle : count ≤ 2 ^ (1000 : ℤ)) :
    Near (k + 3 + j + 1) (div sum count) samples.mean := by
  have hposq : (0 : ℚ) < samples.weight := by exact_mod_cast hpos
  have hsized := h.sized.div (hcount.pos hposq) hle
  exact (h.near.div hcount hposq).round (hsized.mono (by norm_num))

end Weighted

/-! ## §2  Calls since the last reset -/

inductive AverageCall (α : Type) where
  | add (sample : α)
  | reset

/-- What has been added since the last reset. -/
def sinceReset {α : Type} (calls : List (AverageCall α)) : List α :=
  calls.foldl
    (fun samples call =>
      match call with
      | .add sample => samples ++ [sample]
      | .reset => []) []

/-- A call on an accumulator. -/
def applyCall {α σ : Type} (add : σ → α → σ) (init : σ) (s : σ) :
    AverageCall α → σ
  | .add sample => add s sample
  | .reset => init

/-- Resetting forgets everything before. -/
theorem foldl_applyCall {α σ : Type} (add : σ → α → σ) (init : σ)
    (calls : List (AverageCall α)) :
    calls.foldl (applyCall add init) init = (sinceReset calls).foldl add init := by
  induction calls using List.reverseRecOn with
  | nil => rfl
  | append_singleton calls call ih =>
    rw [sinceReset, List.foldl_append, List.foldl_append, ih]
    cases call with
    | add sample =>
      rw [List.foldl_cons, List.foldl_nil, List.foldl_cons, List.foldl_nil,
        List.foldl_append]
      rfl
    | reset => rfl

/-! ## §3  Weighted by volume -/

structure Vwap where
  priceVolume : ℚ := 0
  volume : UInt64 := 0
deriving DecidableEq

namespace Vwap

def add (v : Vwap) (execution : StandardPrice × UInt64) : Vwap where
  priceVolume := Binary64.add v.priceVolume
    (mul execution.1.toDouble (ofNat execution.2.toNat))
  volume := v.volume + execution.2

/-- Nothing stands for NaN. -/
def value (v : Vwap) : Option ℚ :=
  if v.volume = 0 then none
  else some (div v.priceVolume (ofNat v.volume.toNat))

def reset : Vwap := {}

def run (calls : List (AverageCall (StandardPrice × UInt64))) : Vwap :=
  calls.foldl (applyCall add reset) {}

/-- The executions, with their volume. -/
def weighted (executions : List (StandardPrice × UInt64)) : Weighted :=
  executions.map (Prod.map id UInt64.toNat)

structure Summed (executions : List (StandardPrice × UInt64)) (v : Vwap) :
    Prop where
  priceVolume : (weighted executions).Accumulated executions.length v.priceVolume
  volume : v.volume.toNat = (weighted executions).weight % 2 ^ 64

theorem summed_foldl (executions : List (StandardPrice × UInt64)) :
    Summed executions (executions.foldl add {}) := by
  induction executions using List.reverseRecOn with
  | nil => exact ⟨Weighted.Accumulated.zero, rfl⟩
  | append_singleton executions e ih =>
    have hsplit : weighted (executions ++ [e]) =
        weighted executions ++ [(e.1, e.2.toNat)] := List.map_append
    rw [List.foldl_append, List.foldl_cons, List.foldl_nil]
    constructor
    · rw [hsplit, List.length_append, List.length_singleton]
      exact ih.priceVolume.concat e.1 e.2.toNat
    · rw [hsplit, Weighted.weight_concat, add, UInt64.toNat_add, ih.volume,
        Nat.mod_add_mod]

/-- The volume-weighted average of the executions since the last reset, as
long as their volume can be counted; NaN where there is none. -/
theorem value_approximates (calls : List (AverageCall (StandardPrice × UInt64)))
    (hvolume : (weighted (sinceReset calls)).weight < 2 ^ 64)
    (hcount : (sinceReset calls).length + 5 < 2 ^ 53) :
    (run calls).volume.toNat = (weighted (sinceReset calls)).weight ∧
      match (run calls).value with
      | none => (weighted (sinceReset calls)).weight = 0
      | some x =>
        0 < (weighted (sinceReset calls)).weight ∧
          (weighted (sinceReset calls)).Approximates
            ((sinceReset calls).length + 5) x := by
  have hrun : run calls = (sinceReset calls).foldl add {} :=
    foldl_applyCall add reset calls
  obtain ⟨hsum, hmod⟩ := summed_foldl (sinceReset calls)
  rw [← hrun] at hsum hmod
  rw [Nat.mod_eq_of_lt hvolume] at hmod
  refine ⟨hmod, ?_⟩
  rw [value]
  by_cases hzero : (run calls).volume = 0
  · rw [if_pos hzero]
    rw [hzero] at hmod
    exact hmod.symm
  · rw [if_neg hzero]
    have hpos : 0 < (weighted (sinceReset calls)).weight := by
      rw [← hmod]
      exact Nat.pos_of_ne_zero fun h => hzero (UInt64.toNat_inj.mp h)
    have hle : ofNat (weighted (sinceReset calls)).weight ≤ 2 ^ (64 : ℤ) := by
      apply (IsDouble.zpow (by norm_num)).round64_le
      exact_mod_cast hvolume.le
    have hle' : (2 : ℚ) ^ (64 : ℤ) ≤ 2 ^ (1000 : ℤ) :=
      zpow_le_zpow_right₀ (by norm_num) (by norm_num)
    have hnear := hsum.near_mean (near_ofNat _) hpos (hle.trans hle')
    rw [← hmod] at hnear
    exact ⟨hpos, Weighted.approximates hnear hcount hpos⟩

/-- Two executions after a reset, the second three times the first. -/
theorem value_approximates_twoExecutions :
    ∃ x, (run [.add (⟨50000⟩, 7), .reset, .add (⟨10000⟩, 100),
        .add (⟨20000⟩, 300)]).value = some x ∧
      Weighted.Approximates 7 x [(⟨10000⟩, 100), (⟨20000⟩, 300)] := by
  have h := value_approximates [.add (⟨50000⟩, 7), .reset,
    .add (⟨10000⟩, 100), .add (⟨20000⟩, 300)] (by decide) (by decide)
  have hvalue : ∃ x, (run [.add (⟨50000⟩, 7), .reset, .add (⟨10000⟩, 100),
      .add (⟨20000⟩, 300)]).value = some x := ⟨_, if_neg (by decide)⟩
  obtain ⟨x, hx⟩ := hvalue
  rw [hx] at h
  exact ⟨x, hx, h.2.2⟩

end Vwap

/-! ## §4  Weighted by time -/

structure Twap where
  priceTime : ℚ := 0
  totalTime : ℚ := 0
  lastPrice : ℚ := 0
  lastTimestamp : UInt64 := 0
  hasSample : Bool := false

namespace Twap

def add (t : Twap) (sample : StandardPrice × UInt64) : Twap :=
  let t :=
    if t.hasSample ∧ sample.2 > t.lastTimestamp then
      let elapsed := ofNat (sample.2 - t.lastTimestamp).toNat
      { t with
        priceTime := Binary64.add t.priceTime (mul t.lastPrice elapsed)
        totalTime := Binary64.add t.totalTime elapsed }
    else t
  { t with
    lastPrice := sample.1.toDouble
    lastTimestamp := sample.2
    hasSample := true }

def value (t : Twap) : Option ℚ :=
  if t.totalTime ≤ 0 then if t.hasSample then some t.lastPrice else none
  else some (div t.priceTime t.totalTime)

def reset : Twap := {}

def run (calls : List (AverageCall (StandardPrice × UInt64))) : Twap :=
  calls.foldl (applyCall add reset) {}

/-- Each price, and how long it prevailed: not at all, when the next sample is
not later. -/
def held : List (StandardPrice × UInt64) → Weighted
  | s :: t :: samples => (s.1, t.2.toNat - s.2.toNat) :: held (t :: samples)
  | _ => []

theorem held_concat (samples : List (StandardPrice × UInt64))
    (s t : StandardPrice × UInt64) :
    held (samples ++ [s] ++ [t]) =
      held (samples ++ [s]) ++ [(s.1, t.2.toNat - s.2.toNat)] := by
  induction samples with
  | nil => rfl
  | cons a samples ih =>
    cases samples with
    | nil => rfl
    | cons b samples => exact congrArg _ ih

theorem weight_held_le (samples : List (StandardPrice × UInt64)) :
    (held samples).weight ≤ samples.length * 2 ^ 64 := by
  induction samples with
  | nil => exact le_rfl
  | cons s samples ih =>
    cases samples with
    | nil => exact Nat.zero_le _
    | cons t samples =>
      have ht := t.2.toNat_lt
      rw [held, Weighted.weight, List.map_cons, List.sum_cons,
        List.length_cons]
      rw [Weighted.weight] at ih
      omega

/-- The state after samples up to `s`. -/
structure Integrated (samples : List (StandardPrice × UInt64))
    (s : StandardPrice × UInt64) (t : Twap) : Prop where
  hasSample : t.hasSample = true
  lastPrice : t.lastPrice = s.1.toDouble
  lastTimestamp : t.lastTimestamp = s.2
  priceTime : (held (samples ++ [s])).Accumulated samples.length t.priceTime
  totalTime : Near (samples.length + 1) t.totalTime
    (held (samples ++ [s])).weight
  sized : Sized 0 t.totalTime

section Integrated

variable {samples : List (StandardPrice × UInt64)} {s : StandardPrice × UInt64}
  {t : Twap}

/-- The price before prevailed for the time that has passed. -/
theorem Integrated.add_later (h : Integrated samples s t)
    {u : StandardPrice × UInt64} (hlater : u.2 > s.2) :
    (t.add u).priceTime = Binary64.add t.priceTime
        (mul s.1.toDouble (ofNat (u.2.toNat - s.2.toNat))) ∧
      (t.add u).totalTime =
        Binary64.add t.totalTime (ofNat (u.2.toNat - s.2.toNat)) := by
  have helapsed : (u.2 - s.2).toNat = u.2.toNat - s.2.toNat :=
    UInt64.toNat_sub_of_le _ _ (UInt64.le_of_lt hlater)
  have hcond : t.hasSample = true ∧ u.2 > t.lastTimestamp := by
    rw [h.lastTimestamp]
    exact ⟨h.hasSample, hlater⟩
  constructor
  · simp only [add, if_pos hcond]
    rw [h.lastPrice, h.lastTimestamp, helapsed]
  · simp only [add, if_pos hcond]
    rw [h.lastTimestamp, helapsed]

/-- It did not prevail for any time. -/
theorem Integrated.add_notLater (h : Integrated samples s t)
    {u : StandardPrice × UInt64} (hlater : ¬u.2 > s.2) :
    (t.add u).priceTime = t.priceTime ∧
      (t.add u).totalTime = t.totalTime := by
  have hcond : ¬(t.hasSample = true ∧ u.2 > t.lastTimestamp) := by
    rw [h.lastTimestamp]
    rintro ⟨-, hboth⟩
    exact hlater hboth
  constructor
  · simp only [add, if_neg hcond]
  · simp only [add, if_neg hcond]

theorem integrated_add (h : Integrated samples s t)
    (u : StandardPrice × UInt64) :
    Integrated (samples ++ [s]) u (t.add u) := by
  have hlength : (samples ++ [s]).length = samples.length + 1 := by simp
  by_cases hlater : u.2 > s.2
  · obtain ⟨hpriceTime, htotalTime⟩ := h.add_later hlater
    have hsum := h.sized.add (sized_ofNat (u.2.toNat - s.2.toNat))
    refine ⟨rfl, rfl, rfl, ?_, ?_, ?_⟩
    · rw [hlength, held_concat, hpriceTime]
      exact h.priceTime.concat _ _
    · rw [hlength, held_concat, htotalTime, Weighted.weight_concat,
        Nat.cast_add]
      have hterm := (near_ofNat (u.2.toNat - s.2.toNat)).mono
        (show 1 ≤ samples.length + 1 by omega)
      exact (h.totalTime.add hterm).round (hsum.mono (by norm_num))
    · rw [htotalTime]
      exact hsum.round (by norm_num)
  · obtain ⟨hpriceTime, htotalTime⟩ := h.add_notLater hlater
    have hweight : u.2.toNat - s.2.toNat = 0 :=
      Nat.sub_eq_zero_of_le (UInt64.not_lt.mp hlater)
    refine ⟨rfl, rfl, rfl, ?_, ?_, ?_⟩
    · rw [hlength, held_concat, hpriceTime, hweight]
      exact h.priceTime.concat_zero s.1
    · rw [hlength, held_concat, htotalTime, hweight, Weighted.weight_concat,
        add_zero]
      exact h.totalTime.mono (by omega)
    · rw [htotalTime]
      exact h.sized

/-- The total time is far below where doubles overflow. -/
theorem Integrated.totalTime_le (h : Integrated samples s t)
    (hcount : samples.length + 1 < 2 ^ 53) :
    t.totalTime ≤ 2 ^ (1000 : ℤ) := by
  have hweight : ((held (samples ++ [s])).weight : ℚ) ≤ 2 ^ 53 * 2 ^ 64 := by
    have hbound := weight_held_le (samples ++ [s])
    rw [List.length_append, List.length_singleton] at hbound
    have hlength : (samples.length + 1) * 2 ^ 64 ≤ 2 ^ 53 * 2 ^ 64 :=
      Nat.mul_le_mul_right _ hcount.le
    exact_mod_cast hbound.trans hlength
  calc t.totalTime
      ≤ 2 ^ 53 * (held (samples ++ [s])).weight :=
        h.totalTime.le_two_pow_mul (by omega)
    _ ≤ 2 ^ 53 * (2 ^ 53 * 2 ^ 64) :=
        mul_le_mul_of_nonneg_left hweight (by positivity)
    _ = 2 ^ (170 : ℤ) := by norm_num
    _ ≤ 2 ^ (1000 : ℤ) := zpow_le_zpow_right₀ (by norm_num) (by norm_num)

end Integrated

theorem integrated_foldl (samples : List (StandardPrice × UInt64))
    (s : StandardPrice × UInt64) :
    Integrated samples s ((samples ++ [s]).foldl add {}) := by
  induction samples using List.reverseRecOn generalizing s with
  | nil =>
    refine ⟨rfl, rfl, rfl, ?_, ?_, ?_⟩
    · exact Weighted.Accumulated.zero
    · exact (Near.refl (x := 0) le_rfl).mono (by norm_num)
    · exact .inl rfl
  | append_singleton samples a ih =>
    rw [List.foldl_append]
    exact integrated_add (ih a) s

/-- The time-weighted average of the samples since the last reset; the last
price while no time has passed, and NaN where there is none. -/
theorem value_approximates_held
    (calls : List (AverageCall (StandardPrice × UInt64)))
    (hcount : 2 * (sinceReset calls).length + 3 < 2 ^ 53) :
    match (run calls).value with
    | none => sinceReset calls = []
    | some x =>
      ∃ samples s, sinceReset calls = samples ++ [s] ∧
        if (held (sinceReset calls)).weight = 0 then x = s.1.toDouble
        else (held (sinceReset calls)).Approximates
          (2 * samples.length + 5) x := by
  have hrun : run calls = (sinceReset calls).foldl add {} :=
    foldl_applyCall add reset calls
  rw [hrun]
  rcases List.eq_nil_or_concat (sinceReset calls) with hnil | ⟨samples, s, hs⟩
  · rw [hnil]
    rfl
  · rw [List.concat_eq_append] at hs
    rw [hs] at hcount ⊢
    rw [List.length_append, List.length_singleton] at hcount
    have hstate := integrated_foldl samples s
    rw [value]
    by_cases hzero : (held (samples ++ [s])).weight = 0
    · have htotal : ((samples ++ [s]).foldl add {}).totalTime ≤ 0 := by
        have hnear := hstate.totalTime
        rw [hzero, Nat.cast_zero] at hnear
        exact (hnear.eq_zero).le
      rw [if_pos htotal, if_pos hstate.hasSample]
      refine ⟨samples, s, rfl, ?_⟩
      rw [if_pos hzero, hstate.lastPrice]
    · have hpos := Nat.pos_of_ne_zero hzero
      have htotal : 0 < ((samples ++ [s]).foldl add {}).totalTime :=
        hstate.totalTime.pos (by exact_mod_cast hpos)
      rw [if_neg htotal.not_ge]
      refine ⟨samples, s, rfl, ?_⟩
      rw [if_neg hzero]
      have hle := hstate.totalTime_le (by omega)
      have hnear := hstate.priceTime.near_mean hstate.totalTime hpos hle
      have hrounds : samples.length + 3 + (samples.length + 1) + 1 =
          2 * samples.length + 5 := by ring
      rw [hrounds] at hnear
      exact Weighted.approximates hnear (by omega) hpos

/-- One price for ten nanoseconds, then another for thirty. -/
theorem value_approximates_held_threeSamples :
    ∃ x, (run [.add (⟨10000⟩, 100), .add (⟨20000⟩, 110),
        .add (⟨70000⟩, 140)]).value = some x ∧
      Weighted.Approximates 9 x [(⟨10000⟩, 10), (⟨20000⟩, 30)] := by
  have h := value_approximates_held [.add (⟨10000⟩, 100), .add (⟨20000⟩, 110),
    .add (⟨70000⟩, 140)] (by decide)
  cases hvalue : (run [.add (⟨10000⟩, 100), .add (⟨20000⟩, 110),
      .add (⟨70000⟩, 140)]).value with
  | none =>
    rw [hvalue] at h
    cases h
  | some x =>
    rw [hvalue] at h
    obtain ⟨samples, s, hs, hx⟩ := h
    have hlength := congrArg List.length hs
    rw [List.length_append, List.length_singleton] at hlength
    have htwo : samples.length = 2 := (Nat.succ_inj.mp hlength).symm
    rw [if_neg (by decide), htwo] at hx
    exact ⟨x, rfl, hx⟩

end Twap

end Analytics

end Itch
