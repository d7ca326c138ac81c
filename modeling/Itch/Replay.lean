import Itch.Framework.Binary64Error
import Itch.Wire.Overlay
import Itch.Wire.Reencode

/-!
# Replaying a feed

A replay delivers the messages of a buffer, each not before its time. §1 is
the engine, with a call of the clock as an event of its own. §2 is about the
waiting times, §3 says which events there are, and §4 when they take place,
whatever the clock and the callback do.
-/

namespace Itch

open Binary64

/-! ## §1  The engine -/

inductive ReplayEvent where
  | now
  | sleepUntil (target : ℤ)
  | callback (message : Message)

/-- `static_cast` of a double to a signed 64-bit integer; undefined where the
integer does not fit. -/
def toInt64 (x : ℚ) : Option ℤ :=
  let n := if 0 ≤ x then ⌊x⌋ else ⌈x⌉
  if -2 ^ 63 ≤ n ∧ n < 2 ^ 63 then some n else none

/-- The sum of signed 64-bit integers, undefined on overflow. -/
def addInt64 (m n : ℤ) : Option ℤ :=
  if -2 ^ 63 ≤ m + n ∧ m + n < 2 ^ 63 then some (m + n) else none

structure ReplayEngine where
  speedMultiplier : ℚ := 1

namespace ReplayEngine

/-- The variables of `replay` that its lambda changes. -/
structure Progress where
  replayed : UInt64 := 0
  haveBase : Bool := false
  baseTimestamp : UInt64 := 0
  baseWall : ℤ := 0

/-- Nanoseconds from the first message to one of time `timestamp`. -/
def elapsedNs (e : ReplayEngine) (baseTimestamp timestamp : UInt64) : ℚ :=
  div (ofNat (timestamp - baseTimestamp).toNat) e.speedMultiplier

/-- The lambda; `wall` is what the clock says when it is asked. -/
def onMessage (e : ReplayEngine) (wall : ℤ) (p : Progress)
    (message : Message) : Option (Progress × List ReplayEvent) :=
  let deliver (p : Progress) (events : List ReplayEvent) :=
    some ({ p with replayed := p.replayed + 1 }, events ++ [.callback message])
  if e.speedMultiplier > 0 then
    let feedTimestamp := message.header.timestamp
    if ¬p.haveBase then
      deliver { p with
        haveBase := true, baseTimestamp := feedTimestamp, baseWall := wall }
        [.now]
    else if feedTimestamp > p.baseTimestamp then
      (toInt64 (e.elapsedNs p.baseTimestamp feedTimestamp)).bind fun n =>
        (addInt64 p.baseWall n).bind fun target =>
          deliver p [.sleepUntil target]
    else deliver p []
  else deliver p []

def onMessages (e : ReplayEngine) (wall : ℤ) (p : Progress) :
    List Message → Option (Progress × List ReplayEvent)
  | [] => some (p, [])
  | m :: ms =>
    (e.onMessage wall p m).bind fun done =>
      (e.onMessages wall done.1 ms).map fun rest =>
        (rest.1, done.2 ++ rest.2)

/-- The events, and the count or the error that the parser throws. -/
def replay (e : ReplayEngine) (wall : ℤ) (data : List UInt8) :
    Option (List ReplayEvent × Except ParseError UInt64) :=
  let outcome := Parser.parse {} data
  (e.onMessages wall {} outcome.messages).map fun done =>
    (done.2,
      match outcome.2.2 with
      | some error => .error error
      | none => .ok done.1.replayed)

/-! ## §2  Waiting times -/

/-- The time a message is due, from the first one on. -/
def offset (e : ReplayEngine) (baseTimestamp timestamp : UInt64) : ℤ :=
  ⌊e.elapsedNs baseTimestamp timestamp⌋

/-- Fast enough for every wait within a day to fit a signed integer. -/
def Paced (e : ReplayEngine) : Prop := 1 / 2 ^ 14 ≤ e.speedMultiplier

variable {e : ReplayEngine} {base timestamp timestamp' : UInt64}

theorem Paced.pos (h : e.Paced) : 0 < e.speedMultiplier :=
  lt_of_lt_of_le (by norm_num) h

theorem elapsedNs_nonneg (h : e.Paced) : 0 ≤ e.elapsedNs base timestamp :=
  round64_nonneg (div_nonneg (sized_ofNat _).nonneg h.pos.le)

theorem elapsedNs_le (h : e.Paced) (htime : timestamp < 2 ^ 48)
    (hbase : base ≤ timestamp) : e.elapsedNs base timestamp ≤ 2 ^ (62 : ℤ) := by
  have hdiff : (timestamp - base).toNat ≤ 2 ^ 48 := by
    have hlt : timestamp.toNat < 2 ^ 48 := UInt64.lt_iff_toNat_lt.mp htime
    rw [UInt64.toNat_sub_of_le _ _ hbase]
    omega
  have hcount : ofNat (timestamp - base).toNat ≤ 2 ^ (48 : ℤ) := by
    apply (IsDouble.zpow (by norm_num)).round64_le
    exact_mod_cast hdiff
  apply (IsDouble.zpow (by norm_num)).round64_le
  rw [div_le_iff₀ h.pos]
  calc ofNat (timestamp - base).toNat ≤ 2 ^ (62 : ℤ) * (1 / 2 ^ 14) := by
        norm_num at hcount ⊢
        exact hcount
    _ ≤ 2 ^ (62 : ℤ) * e.speedMultiplier :=
        mul_le_mul_of_nonneg_left h (by positivity)

theorem offset_nonneg (h : e.Paced) : 0 ≤ e.offset base timestamp :=
  Int.floor_nonneg.mpr (elapsedNs_nonneg h)

theorem offset_le (h : e.Paced) (htime : timestamp < 2 ^ 48)
    (hbase : base ≤ timestamp) : e.offset base timestamp ≤ 2 ^ 62 := by
  have hle := (Int.floor_le _).trans (elapsedNs_le h htime hbase)
  rw [offset]
  exact_mod_cast hle

theorem toInt64_elapsedNs (h : e.Paced) (htime : timestamp < 2 ^ 48)
    (hbase : base ≤ timestamp) :
    toInt64 (e.elapsedNs base timestamp) = some (e.offset base timestamp) := by
  have hlo : 0 ≤ e.offset base timestamp := offset_nonneg h
  have hhi := offset_le h htime hbase
  rw [toInt64, if_pos (elapsedNs_nonneg h), ← offset]
  exact if_pos ⟨by omega, by omega⟩

/-- A later message is not due earlier. -/
theorem offset_mono (h : e.Paced) (hbase : base ≤ timestamp)
    (hle : timestamp ≤ timestamp') :
    e.offset base timestamp ≤ e.offset base timestamp' := by
  have hdiff : (timestamp - base).toNat ≤ (timestamp' - base).toNat := by
    rw [UInt64.toNat_sub_of_le _ _ hbase,
      UInt64.toNat_sub_of_le _ _ (UInt64.le_trans hbase hle)]
    exact Nat.sub_le_sub_right hle _
  apply Int.floor_le_floor
  apply round64_mono
  apply div_le_div_of_nonneg_right _ h.pos.le
  exact round64_mono (by exact_mod_cast hdiff)

theorem ofNat_elapsed (htime : timestamp < 2 ^ 48) (hbase : base ≤ timestamp) :
    ofNat (timestamp - base).toNat = timestamp.toNat - base.toNat := by
  have hlt : timestamp.toNat < 2 ^ 48 := UInt64.lt_iff_toNat_lt.mp htime
  rw [UInt64.toNat_sub_of_le _ _ hbase, ofNat_eq (by omega),
    Nat.cast_sub (UInt64.le_iff_toNat_le.mp hbase)]

/-- In real time the waits are those of the feed. -/
theorem offset_realTime (hspeed : e.speedMultiplier = 1)
    (htime : timestamp < 2 ^ 48) (hbase : base ≤ timestamp) :
    e.offset base timestamp = timestamp.toNat - base.toNat := by
  have hlt : timestamp.toNat < 2 ^ 48 := UInt64.lt_iff_toNat_lt.mp htime
  have hle : base.toNat ≤ timestamp.toNat := hbase
  have hexact : round64 ((timestamp.toNat : ℚ) - base.toNat) =
      ((timestamp.toNat - base.toNat : ℤ) : ℚ) := by
    rw [← round64_intCast (n := timestamp.toNat - base.toNat)
      (by rw [abs_lt]; omega)]
    push_cast
    rfl
  rw [offset, elapsedNs, hspeed, div, div_one, ofNat_elapsed htime hbase,
    hexact, Int.floor_intCast]

/-- Not slower than in real time, they are right to two nanoseconds. -/
theorem abs_offset_sub_lt (hspeed : 1 ≤ e.speedMultiplier)
    (htime : timestamp < 2 ^ 48) (hbase : base ≤ timestamp) :
    |(e.offset base timestamp : ℚ) -
      (timestamp.toNat - base.toNat) / e.speedMultiplier| < 2 := by
  have hlt : (timestamp.toNat : ℚ) < 2 ^ 48 := by
    exact_mod_cast UInt64.lt_iff_toNat_lt.mp htime
  have hle : (base.toNat : ℚ) ≤ timestamp.toNat := by exact_mod_cast hbase
  have hpos : 0 < e.speedMultiplier := lt_of_lt_of_le one_pos hspeed
  have hwait0 : 0 ≤ ((timestamp.toNat : ℚ) - base.toNat) / e.speedMultiplier :=
    div_nonneg (sub_nonneg.mpr hle) hpos.le
  have hwait : ((timestamp.toNat : ℚ) - base.toNat) / e.speedMultiplier <
      2 ^ (48 : ℤ) := by
    have hbase0 : (0 : ℚ) ≤ base.toNat := Nat.cast_nonneg _
    rw [div_lt_iff₀ hpos]
    calc (timestamp.toNat : ℚ) - base.toNat < 2 ^ (48 : ℤ) * 1 := by
          rw [mul_one, zpow_ofNat]
          linarith
      _ ≤ 2 ^ (48 : ℤ) * e.speedMultiplier :=
          mul_le_mul_of_nonneg_left hspeed (by positivity)
  have hround := abs_le.mp (abs_round64_sub_le_of_lt (k := 48) (by norm_num)
    (by rwa [abs_of_nonneg hwait0]))
  have helapsed : e.elapsedNs base timestamp =
      round64 ((timestamp.toNat - base.toNat) / e.speedMultiplier) := by
    rw [elapsedNs, ofNat_elapsed htime hbase, div]
  have hfloor := Int.floor_le (e.elapsedNs base timestamp)
  have hnext := Int.lt_floor_add_one (e.elapsedNs base timestamp)
  rw [offset, abs_lt]
  rw [← helapsed] at hround
  norm_num at hround
  constructor <;> linarith [hround.1, hround.2]

/-! ## §3  Events -/

/-- The events after the first message of a paced replay. -/
def schedule (e : ReplayEngine) (wall : ℤ) (base : UInt64)
    (messages : List Message) : List ReplayEvent :=
  messages.flatMap fun m =>
    (if m.header.timestamp > base then
      [.sleepUntil (wall + e.offset base m.header.timestamp)]
    else []) ++ [.callback m]

/-- The events of a paced replay. -/
def pacedEvents (e : ReplayEngine) (wall : ℤ) : List Message → List ReplayEvent
  | [] => []
  | m :: messages =>
    .now :: .callback m :: e.schedule wall m.header.timestamp messages

/-- A clock that has not run long enough to overflow. -/
def ClockOk (wall : ℤ) : Prop := 0 ≤ wall ∧ wall < 2 ^ 62

theorem onMessages_cons {w : ℤ} {p q : Progress} {m : Message}
    {events : List ReplayEvent} (h : e.onMessage w p m = some (q, events))
    (messages : List Message) :
    e.onMessages w p (m :: messages) =
      (e.onMessages w q messages).map fun rest =>
        (rest.1, events ++ rest.2) := by
  rw [onMessages, h, Option.bind_some]

/-- A count that has gone on over some messages. -/
def Progress.counted (p : Progress) (messages : List Message) : Progress :=
  { p with replayed := p.replayed + UInt64.ofNat messages.length }

theorem Progress.counted_nil (p : Progress) : p.counted [] = p := by
  have hzero : UInt64.ofNat ([] : List Message).length = 0 := rfl
  rw [counted, hzero, UInt64.add_zero]

theorem Progress.counted_cons (p : Progress) (m : Message)
    (messages : List Message) :
    { p with replayed := p.replayed + 1 }.counted messages =
      p.counted (m :: messages) := by
  have hone : UInt64.ofNat 1 = 1 := rfl
  rw [counted, counted, List.length_cons, UInt64.ofNat_add, hone,
    UInt64.add_assoc, UInt64.add_comm 1]

theorem onMessages_schedule {wall : ℤ} (he : e.Paced) (hwall : ClockOk wall)
    {messages : List Message}
    (htimes : ∀ m ∈ messages, m.header.timestamp < 2 ^ 48) (w : ℤ)
    (p : Progress) (hbase : p.haveBase = true) (hp : p.baseWall = wall) :
    e.onMessages w p messages =
      some (p.counted messages, e.schedule wall p.baseTimestamp messages) := by
  induction messages generalizing p with
  | nil => rw [onMessages, p.counted_nil, schedule, List.flatMap_nil]
  | cons m messages ih =>
    have hm := htimes m List.mem_cons_self
    have hrest := ih (fun x hx => htimes x (List.mem_cons_of_mem _ hx))
      { p with replayed := p.replayed + 1 } hbase hp
    have hspeed : e.speedMultiplier > 0 := he.pos
    rw [p.counted_cons m messages] at hrest
    by_cases hlater : m.header.timestamp > p.baseTimestamp
    · have hle : p.baseTimestamp ≤ m.header.timestamp := UInt64.le_of_lt hlater
      have hcast := toInt64_elapsedNs he hm hle
      have hadd : addInt64 p.baseWall
          (e.offset p.baseTimestamp m.header.timestamp) =
          some (wall + e.offset p.baseTimestamp m.header.timestamp) := by
        have hlo : 0 ≤ e.offset p.baseTimestamp m.header.timestamp :=
          offset_nonneg he
        have hhi := offset_le he hm hle
        obtain ⟨hwall0, hwall1⟩ := hwall
        rw [addInt64, hp]
        exact if_pos ⟨by omega, by omega⟩
      have hstep : e.onMessage w p m =
          some ({ p with replayed := p.replayed + 1 },
            [.sleepUntil
              (wall + e.offset p.baseTimestamp m.header.timestamp),
              .callback m]) := by
        simp only [onMessage, if_pos hspeed, hbase, not_true, if_false,
          if_pos hlater, hcast, Option.bind_some, hadd]
        rfl
      rw [onMessages_cons hstep, hrest, schedule, schedule,
        List.flatMap_cons, if_pos hlater]
      rfl
    · have hstep : e.onMessage w p m =
          some ({ p with replayed := p.replayed + 1 }, [.callback m]) := by
        simp only [onMessage, if_pos hspeed, hbase, not_true, if_false,
          if_neg hlater]
        rfl
      rw [onMessages_cons hstep, hrest, schedule, schedule,
        List.flatMap_cons, if_neg hlater]
      rfl

theorem onMessages_paced {wall : ℤ} (he : e.Paced) (hwall : ClockOk wall)
    {messages : List Message}
    (htimes : ∀ m ∈ messages, m.header.timestamp < 2 ^ 48) :
    ∃ p : Progress, p.replayed = UInt64.ofNat messages.length ∧
      e.onMessages wall {} messages = some (p, e.pacedEvents wall messages) := by
  cases messages with
  | nil => exact ⟨{}, rfl, rfl⟩
  | cons m messages =>
    have hspeed : e.speedMultiplier > 0 := he.pos
    have hstep : e.onMessage wall {} m =
        some (⟨0 + 1, true, m.header.timestamp, wall⟩,
          [.now, .callback m]) := by
      simp only [onMessage, if_pos hspeed, Bool.false_eq_true,
        not_false_eq_true, if_true]
      rfl
    have hrest := onMessages_schedule he hwall
      (fun x hx => htimes x (List.mem_cons_of_mem _ hx)) wall
      ⟨0 + 1, true, m.header.timestamp, wall⟩ rfl rfl
    rw [onMessages_cons hstep, hrest]
    refine ⟨_, ?_, rfl⟩
    rw [Progress.counted_cons ⟨0, true, m.header.timestamp, wall⟩ m messages]
    exact UInt64.zero_add _

/-- Without a speed the clock plays no part. -/
theorem onMessages_unpaced (hspeed : e.speedMultiplier ≤ 0) (wall : ℤ)
    (messages : List Message) (p : Progress) :
    e.onMessages wall p messages =
      some (p.counted messages, messages.map .callback) := by
  induction messages generalizing p with
  | nil => rw [onMessages, p.counted_nil, List.map_nil]
  | cons m messages ih =>
    have hstep : e.onMessage wall p m =
        some ({ p with replayed := p.replayed + 1 }, [.callback m]) := by
      rw [onMessage, if_neg hspeed.not_gt]
      rfl
    rw [onMessages_cons hstep, ih, p.counted_cons m messages]
    rfl

/-- Nothing but the messages, whatever they say of the time. -/
theorem replay_unpaced (hspeed : e.speedMultiplier ≤ 0) (wall : ℤ)
    (data : List UInt8) :
    e.replay wall data =
      some ((Parser.parse {} data).messages.map .callback,
        match (Parser.parse {} data).2.2 with
        | some error => .error error
        | none => .ok (UInt64.ofNat (Parser.parse {} data).messages.length)) := by
  have hcount (messages : List Message) :
      (Progress.counted {} messages).replayed = UInt64.ofNat messages.length :=
    UInt64.zero_add _
  rw [replay, onMessages_unpaced hspeed, Option.map_some, hcount]

def callbacks (events : List ReplayEvent) : List Message :=
  events.filterMap fun
    | .callback m => some m
    | _ => none

def targets (events : List ReplayEvent) : List ℤ :=
  events.filterMap fun
    | .sleepUntil target => some target
    | _ => none

theorem callbacks_schedule (e : ReplayEngine) (wall : ℤ) (base : UInt64)
    (messages : List Message) :
    callbacks (e.schedule wall base messages) = messages := by
  induction messages with
  | nil => rfl
  | cons m messages ih =>
    rw [schedule, List.flatMap_cons, callbacks, List.filterMap_append]
    show _ ++ callbacks (e.schedule wall base messages) = _
    rw [ih]
    split <;> rfl

theorem callbacks_pacedEvents (e : ReplayEngine) (wall : ℤ)
    (messages : List Message) :
    callbacks (e.pacedEvents wall messages) = messages := by
  cases messages with
  | nil => rfl
  | cons m messages =>
    exact congrArg (m :: ·) (e.callbacks_schedule wall _ messages)

theorem targets_schedule (e : ReplayEngine) (wall : ℤ) (base : UInt64)
    (messages : List Message) :
    targets (e.schedule wall base messages) =
      (messages.filter (·.header.timestamp > base)).map
        fun m => wall + e.offset base m.header.timestamp := by
  induction messages with
  | nil => rfl
  | cons m messages ih =>
    rw [schedule, List.flatMap_cons, targets, List.filterMap_append]
    show _ ++ targets (e.schedule wall base messages) = _
    rw [ih]
    by_cases hlater : m.header.timestamp > base
    · rw [if_pos hlater, List.filter_cons, if_pos (decide_eq_true hlater)]
      rfl
    · rw [if_neg hlater, List.filter_cons, if_neg (by simpa using hlater)]
      rfl

/-- The targets of a feed in order are in order. -/
theorem pairwise_targets (he : e.Paced) (wall : ℤ) {messages : List Message}
    (h : messages.Pairwise fun a b => a.header.timestamp ≤ b.header.timestamp) :
    (targets (e.pacedEvents wall messages)).Pairwise (· ≤ ·) := by
  cases messages with
  | nil => exact List.Pairwise.nil
  | cons m messages =>
    show (targets (e.schedule wall _ messages)).Pairwise _
    rw [targets_schedule, List.pairwise_map]
    have hsorted := (List.pairwise_cons.mp h).2.filter
      (decide <| ·.header.timestamp > m.header.timestamp)
    refine hsorted.imp_of_mem fun {a b} ha _ hab => ?_
    have hlater := of_decide_eq_true (List.mem_filter.mp ha).2
    have hoffset := offset_mono he (UInt64.le_of_lt hlater) hab
    linarith

/-! ## §4  Times -/

/-- The times at which the events are over. A call of the clock says when it
is, and no sleep ends before its target. -/
structure Observed (wall : ℤ) (timed : List (ReplayEvent × ℤ)) : Prop where
  ordered : timed.Pairwise fun x y => x.2 ≤ y.2
  now : ∀ t, (.now, t) ∈ timed → t = wall
  sleeps : ∀ target t, (.sleepUntil target, t) ∈ timed → target ≤ t

/-- The message is not delivered before its time. -/
structure NotEarly (e : ReplayEngine) (wall : ℤ) (base : UInt64) (m : Message)
    (t : ℤ) : Prop where
  start : wall ≤ t
  due : base < m.header.timestamp →
    wall + e.offset base m.header.timestamp ≤ t

/-- The same in terms of the feed: exact in real time, and to two nanoseconds
when it is faster. -/
structure KeepsPace (e : ReplayEngine) (wall : ℤ) (base : UInt64) (m : Message)
    (t : ℤ) : Prop extends NotEarly e wall base m t where
  realTime : e.speedMultiplier = 1 →
    wall + (m.header.timestamp.toNat - base.toNat) ≤ t
  faster : 1 ≤ e.speedMultiplier →
    wall + (m.header.timestamp.toNat - base.toNat) / e.speedMultiplier - 2 <
      (t : ℚ)

theorem NotEarly.keepsPace {wall t : ℤ} {m : Message}
    (h : e.NotEarly wall base m t) (htime : m.header.timestamp < 2 ^ 48) :
    e.KeepsPace wall base m t := by
  refine { h with realTime := fun hspeed => ?_, faster := fun hspeed => ?_ }
  · by_cases hlater : base < m.header.timestamp
    · rw [← offset_realTime hspeed htime (UInt64.le_of_lt hlater)]
      exact h.due hlater
    · have hle : m.header.timestamp.toNat ≤ base.toNat :=
        UInt64.le_iff_toNat_le.mp (UInt64.not_lt.mp hlater)
      have hstart := h.start
      omega
  · have hstart : (wall : ℚ) ≤ t := by exact_mod_cast h.start
    by_cases hlater : base < m.header.timestamp
    · have hdue : (wall : ℚ) + e.offset base m.header.timestamp ≤ t := by
        exact_mod_cast h.due hlater
      have herror := abs_lt.mp
        (abs_offset_sub_lt hspeed htime (UInt64.le_of_lt hlater))
      linarith [herror.1]
    · have hle : (m.header.timestamp.toNat : ℚ) ≤ base.toNat := by
        exact_mod_cast UInt64.le_iff_toNat_le.mp (UInt64.not_lt.mp hlater)
      have hneg : ((m.header.timestamp.toNat : ℚ) - base.toNat) /
          e.speedMultiplier ≤ 0 :=
        div_nonpos_of_nonpos_of_nonneg (sub_nonpos.mpr hle)
          (zero_le_one.trans hspeed)
      linarith

theorem notEarly_schedule {wall : ℤ} {base : UInt64} {messages : List Message}
    {timed : List (ReplayEvent × ℤ)}
    (hevents : timed.map Prod.fst = e.schedule wall base messages)
    (hordered : timed.Pairwise fun x y => x.2 ≤ y.2)
    (hsleeps : ∀ target t, (.sleepUntil target, t) ∈ timed → target ≤ t)
    (hstart : ∀ x ∈ timed, wall ≤ x.2) {m : Message} {t : ℤ}
    (hm : (.callback m, t) ∈ timed) : e.NotEarly wall base m t := by
  induction messages generalizing timed with
  | nil =>
    rw [schedule, List.flatMap_nil, List.map_eq_nil_iff] at hevents
    rw [hevents] at hm
    cases hm
  | cons a messages ih =>
    rw [schedule, List.flatMap_cons, List.map_eq_append_iff] at hevents
    obtain ⟨front, rest, rfl, hfront, hrest⟩ := hevents
    obtain ⟨hfrontOrder, hrestOrder, -⟩ := List.pairwise_append.mp hordered
    rcases List.mem_append.mp hm with hm | hm
    · -- the sleep before the message, if there is one, is over
      refine ⟨hstart _ (List.mem_append_left _ hm), fun hlater => ?_⟩
      by_cases ha : a.header.timestamp > base
      · rw [if_pos ha, List.singleton_append, List.map_eq_cons_iff] at hfront
        obtain ⟨s, front, rfl, hs, hfront⟩ := hfront
        rw [List.map_eq_singleton_iff] at hfront
        obtain ⟨c, rfl, hc⟩ := hfront
        rcases List.mem_cons.mp hm with rfl | hm
        · cases hs
        · obtain rfl := List.mem_singleton.mp hm
          obtain rfl : m = a := ReplayEvent.callback.inj hc
          have hsleep := hsleeps (wall + e.offset base m.header.timestamp) s.2
            (by rw [← hs]; exact List.mem_cons_self)
          have hafter := (List.pairwise_cons.mp hfrontOrder).1 _
            List.mem_cons_self
          exact hsleep.trans hafter
      · rw [if_neg ha, List.nil_append, List.map_eq_singleton_iff] at hfront
        obtain ⟨c, rfl, hc⟩ := hfront
        obtain rfl := List.mem_singleton.mp hm
        obtain rfl : m = a := ReplayEvent.callback.inj hc
        exact absurd hlater ha
    · exact ih hrest hrestOrder
        (fun target u hu => hsleeps target u (List.mem_append_right _ hu))
        (fun x hx => hstart x (List.mem_append_right _ hx)) hm

theorem notEarly_pacedEvents {wall : ℤ} {first : Message}
    {messages : List Message} {timed : List (ReplayEvent × ℤ)}
    (hevents : timed.map Prod.fst = e.pacedEvents wall (first :: messages))
    (h : Observed wall timed) {m : Message} {t : ℤ}
    (hm : (.callback m, t) ∈ timed) :
    e.NotEarly wall first.header.timestamp m t := by
  rw [pacedEvents, List.map_eq_cons_iff] at hevents
  obtain ⟨⟨clock, t₀⟩, timed, rfl, rfl, hevents⟩ := hevents
  rw [List.map_eq_cons_iff] at hevents
  obtain ⟨⟨callback, t₁⟩, timed, rfl, rfl, hevents⟩ := hevents
  obtain ⟨hstart, hordered⟩ := List.pairwise_cons.mp h.ordered
  obtain rfl := h.now t₀ List.mem_cons_self
  rcases List.mem_cons.mp hm with hm | hm
  · cases hm
  rcases List.mem_cons.mp hm with hm | hm
  · cases hm
    exact ⟨hstart _ List.mem_cons_self, fun hlater =>
      absurd hlater (UInt64.lt_irrefl _)⟩
  · refine notEarly_schedule hevents (List.pairwise_cons.mp hordered).2 ?_ ?_ hm
    · intro target u hu
      exact h.sleeps target u
        (List.mem_cons_of_mem _ (List.mem_cons_of_mem _ hu))
    · intro x hx
      exact hstart x (List.mem_cons_of_mem _ hx)

theorem timestamp_of_parse {data : List UInt8} {m : Message}
    (h : m ∈ (Parser.parse {} data).messages) : m.header.timestamp < 2 ^ 48 := by
  obtain ⟨frames, tail, hd⟩ := Decomposition.exists data
  rw [Overlay.messages_parse {} hd, List.mem_filterMap] at h
  obtain ⟨payload, -, hpayload⟩ := h
  exact (reencodes_of_frameEvent (decodable_eq_some_iff.mp hpayload)).2.2

/-- **A replay keeps pace.** The messages of the buffer are delivered in order
and counted, an error at its end notwithstanding; whenever the events take
place, none is delivered early, and those of a feed in order wait in order. -/
theorem replay_keepsPace (he : e.Paced) {wall : ℤ} (hwall : ClockOk wall)
    (data : List UInt8) :
    ∃ events : List ReplayEvent,
      e.replay wall data = some (events,
        match (Parser.parse {} data).2.2 with
        | some error => .error error
        | none => .ok (UInt64.ofNat (Parser.parse {} data).messages.length)) ∧
      callbacks events = (Parser.parse {} data).messages ∧
      ((callbacks events).Pairwise
          (fun a b => a.header.timestamp ≤ b.header.timestamp) →
        (targets events).Pairwise (· ≤ ·)) ∧
      ∀ timed : List (ReplayEvent × ℤ), timed.map Prod.fst = events →
        Observed wall timed → ∀ first ∈ (callbacks events).head?,
          ∀ m t, (.callback m, t) ∈ timed →
            e.KeepsPace wall first.header.timestamp m t := by
  set messages := (Parser.parse {} data).messages with hmessages
  have htimes : ∀ m ∈ messages, m.header.timestamp < 2 ^ 48 :=
    fun m hm => timestamp_of_parse hm
  obtain ⟨p, hcount, hevents⟩ := onMessages_paced he hwall htimes
  refine ⟨e.pacedEvents wall messages, ?_, ?_, ?_, ?_⟩
  · rw [replay, ← hmessages, hevents, Option.map_some, hcount]
  · exact e.callbacks_pacedEvents wall messages
  · rw [callbacks_pacedEvents]
    exact pairwise_targets he wall
  · rw [callbacks_pacedEvents]
    intro timed htimed hobserved first hfirst m t hm
    obtain ⟨rest, hrest⟩ := List.head?_eq_some_iff.mp hfirst
    have hmem : m ∈ messages := by
      rw [← e.callbacks_pacedEvents wall messages, ← htimed]
      exact List.mem_filterMap.mpr ⟨_, List.mem_map_of_mem hm, rfl⟩
    rw [hrest] at htimed
    exact (notEarly_pacedEvents htimed hobserved hm).keepsPace (htimes m hmem)

def opening : Message :=
  .systemEvent { timestamp := 7, eventCode := 'O'.toUInt8 }

def closing : Message :=
  .systemEvent { timestamp := 107, eventCode := 'C'.toUInt8 }

/-- At twice the speed, a hundred nanoseconds are at least 49. -/
theorem replay_keepsPace_twice : ∃ events : List ReplayEvent,
    ReplayEngine.replay { speedMultiplier := 2 } 1000
        ([some opening, some closing].map StreamItem.bytes).flatten =
      some (events, .ok 2) ∧
      ∀ timed : List (ReplayEvent × ℤ), timed.map Prod.fst = events →
        Observed 1000 timed → ∀ t, (.callback closing, t) ∈ timed → 1048 < t := by
  have hsend : ∀ item ∈ [some opening, some closing],
      StreamItem.Sendable item := by
    intro item hitem m hm
    simp only [List.mem_cons, List.not_mem_nil, or_false] at hitem
    rcases hitem with rfl | rfl <;> cases hm <;> exact ⟨by rfl, by decide⟩
  have hparse := Parser.parse_eq (Parser.parseImpl_items {} hsend)
  have hpaced : Paced { speedMultiplier := 2 } := by norm_num [Paced]
  have hclock : ClockOk 1000 := by norm_num [ClockOk]
  obtain ⟨events, hreplay, hcallbacks, -, htimes⟩ := replay_keepsPace hpaced
    hclock ([some opening, some closing].map StreamItem.bytes).flatten
  rw [hparse] at hreplay hcallbacks
  refine ⟨events, hreplay, fun timed htimed hobserved t ht => ?_⟩
  have hfirst : opening ∈ (callbacks events).head? := by
    rw [hcallbacks]
    rfl
  have hpace := htimes timed htimed hobserved opening hfirst closing t ht
  have hfaster := hpace.faster (by norm_num)
  have hopening : opening.header.timestamp.toNat = 7 := rfl
  have hclosing : closing.header.timestamp.toNat = 107 := rfl
  rw [hopening, hclosing] at hfaster
  norm_num at hfaster
  exact_mod_cast hfaster

end ReplayEngine

end Itch
