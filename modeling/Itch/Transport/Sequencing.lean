import Itch.Basic
import Itch.Framework.Frontier

/-!
# The sequence tracker

§1 is the tracker, which says what it tells the installed gap callback and
the retransmission hook. §2 follows it by the frontiers of numbered streams,
§3 says what its accounts hold, §4 when the messages it counts are the
distinct ones, and §5 when it does not matter that a packet comes twice.
-/

namespace Itch.Transport

open Transducer

/-! ## §1  The tracker -/

/-- What the tracker calls. -/
inductive TrackerEvent
  | gap (session : Str) (expected received : UInt64)
  | requestRetransmit (session : Str) (startSequence count : UInt64)
deriving DecidableEq, Repr

/-- `gapCallback` and `requester` say whether the two hooks are installed. -/
structure SequenceTracker where
  expectedBySession : Str → Option UInt64 := fun _ => none
  gapCallback : Bool := false
  requester : Bool := false
  gapCount : UInt64 := 0
  messagesSeen : UInt64 := 0

namespace SequenceTracker

/-- The result of `observe` beside the new state of the tracker and the calls
it made. -/
structure Observed where
  tracker : SequenceTracker
  events : List TrackerEvent
  gap : UInt64

def observe (t : SequenceTracker) (session : Str)
    (firstSequence count : UInt64) : Observed :=
  match t.expectedBySession session with
  | none =>
      -- The first time we see this session: anchor on its first sequence.
      { tracker :=
          { t with
            expectedBySession := Function.update t.expectedBySession session
              (some (firstSequence + count))
            messagesSeen := t.messagesSeen + count }
        events := []
        gap := 0 }
  | some expected =>
      let gap := if firstSequence > expected then firstSequence - expected
        else 0
      let events := if firstSequence > expected then
          (if t.gapCallback then [.gap session expected firstSequence]
            else []) ++
          (if t.requester then [.requestRetransmit session expected gap]
            else [])
        else []
      let t := { t with gapCount := t.gapCount + gap }
      let endSequence := firstSequence + count
      if endSequence > expected then
        let alreadySeen := if expected > firstSequence then
            expected - firstSequence else 0
        { tracker :=
            { t with
              expectedBySession := Function.update t.expectedBySession session
                (some endSequence)
              messagesSeen :=
                t.messagesSeen + (count - min count alreadySeen) }
          events, gap }
      else { tracker := t, events, gap }

def expectedNext (t : SequenceTracker) (session : Str) : Option UInt64 :=
  t.expectedBySession session

def reset (t : SequenceTracker) : SequenceTracker :=
  { t with
    expectedBySession := fun _ => none
    gapCount := 0
    messagesSeen := 0 }

/-- A call of `observe`. -/
structure Call where
  session : Str
  firstSequence : UInt64
  count : UInt64

def step (t : SequenceTracker) (c : Call) :
    SequenceTracker × List TrackerEvent :=
  ((t.observe c.session c.firstSequence c.count).tracker,
    (t.observe c.session c.firstSequence c.count).events)

variable {t : SequenceTracker} {s : Frontier.State Str} {c : Call}
  {calls : List Call}

/-- A call never changes the expectation of another session. -/
theorem expectedNext_step_other (t : SequenceTracker) (c : Call)
    {session : Str} (h : session ≠ c.session) :
    (t.step c).1.expectedNext session = t.expectedNext session := by
  unfold expectedNext step observe
  cases t.expectedBySession c.session with
  | none => exact Function.update_of_ne h _ _
  | some e =>
      dsimp only
      split
      · exact Function.update_of_ne h _ _
      · rfl

/-! What a call does to a session that is known already. -/

section Known

variable {e : UInt64} (he : t.expectedBySession c.session = some e)

include he

theorem gapCount_step : (t.step c).1.gapCount = t.gapCount +
    if c.firstSequence > e then c.firstSequence - e else 0 := by
  simp only [step, observe, he]
  split <;> rfl

theorem expectedNext_step : (t.step c).1.expectedNext c.session =
    some (if c.firstSequence + c.count > e then c.firstSequence + c.count
      else e) := by
  simp only [step, observe, expectedNext, he]
  split
  · exact Function.update_self _ _ _
  · exact he

theorem messagesSeen_step : (t.step c).1.messagesSeen = t.messagesSeen +
    if c.firstSequence + c.count > e then
      c.count - min c.count
        (if e > c.firstSequence then e - c.firstSequence else 0)
    else 0 := by
  simp only [step, observe, he]
  split
  · rfl
  · exact (UInt64.add_zero _).symm

theorem events_step : (t.step c).2 =
    if c.firstSequence > e then
      (if t.gapCallback then [.gap c.session e c.firstSequence] else []) ++
      (if t.requester then
        [.requestRetransmit c.session e (c.firstSequence - e)] else [])
    else [] := by
  simp only [step, observe, he]
  split
  · split
    · rfl
    · rfl
  · split
    · rfl
    · rfl

end Known

theorem expectedNext_step_unknown (h : t.expectedBySession c.session = none) :
    (t.step c).1.expectedNext c.session =
      some (c.firstSequence + c.count) := by
  simp only [step, observe, expectedNext, h]
  exact Function.update_self _ _ _

theorem hooks_step (t : SequenceTracker) (c : Call) :
    (t.step c).1.gapCallback = t.gapCallback ∧
      (t.step c).1.requester = t.requester := by
  unfold step observe
  cases t.expectedBySession c.session with
  | none => exact ⟨rfl, rfl⟩
  | some e =>
      dsimp only
      split <;> exact ⟨rfl, rfl⟩

theorem gap_mem_step {e : UInt64} (he : t.expectedBySession c.session = some e)
    (hgap : t.gapCallback = true) (hlt : c.firstSequence > e) :
    .gap c.session e c.firstSequence ∈ (t.step c).2 := by
  rw [events_step he, if_pos hlt, hgap]
  exact List.mem_append_left _ (List.mem_singleton.mpr rfl)

/-- The tracker reports no gap but at a number beyond what it expects. -/
theorem gap_of_report (h : (t.step c).1.gapCount ≠ t.gapCount ∨
    ∃ e, e ∈ (t.step c).2) :
    ∃ e, t.expectedNext c.session = some e ∧ e < c.firstSequence := by
  cases he : t.expectedNext c.session with
  | none =>
      simp only [step, observe, show t.expectedBySession c.session = none
        from he] at h
      simp at h
  | some e =>
      refine ⟨e, rfl, ?_⟩
      by_contra hlt
      rw [gapCount_step he, events_step he, if_neg hlt, if_neg hlt,
        UInt64.add_zero] at h
      simp at h

theorem expectedNext_step_eq_none (t : SequenceTracker) (c : Call)
    (session : Str) : (t.step c).1.expectedNext session = none ↔
      t.expectedNext session = none ∧ c.session ≠ session := by
  by_cases hs : session = c.session
  · subst hs
    refine iff_of_false ?_ fun h => h.2 rfl
    cases he : t.expectedBySession c.session with
    | none =>
        rw [expectedNext_step_unknown he]
        exact Option.some_ne_none _
    | some e =>
        rw [expectedNext_step he]
        exact Option.some_ne_none _
  · rw [expectedNext_step_other t c hs]
    exact (and_iff_left (Ne.symm hs)).symm

/-- A run knows the sessions it was called for, and those it knew. -/
theorem expectedNext_run_eq_none (t : SequenceTracker) (calls : List Call)
    (session : Str) : (run step t calls).1.expectedNext session = none ↔
      t.expectedNext session = none ∧ ∀ c ∈ calls, c.session ≠ session := by
  induction calls using List.reverseRecOn with
  | nil => simp
  | append_singleton calls c ih =>
      rw [run_snoc, expectedNext_step_eq_none, ih, List.forall_mem_append,
        List.forall_mem_singleton, and_assoc]

theorem hooks_run (t : SequenceTracker) (calls : List Call) :
    (run step t calls).1.gapCallback = t.gapCallback ∧
      (run step t calls).1.requester = t.requester := by
  have hstep (t' : SequenceTracker) (c : Call)
      (h : t'.gapCallback = t.gapCallback ∧ t'.requester = t.requester) :
      (t'.step c).1.gapCallback = t.gapCallback ∧
        (t'.step c).1.requester = t.requester := by
    obtain ⟨hgap, hrequester⟩ := hooks_step t' c
    exact ⟨hgap.trans h.1, hrequester.trans h.2⟩
  exact run_invariant hstep ⟨rfl, rfl⟩ calls

/-! ## §2  The frontiers it follows -/

def Call.span (c : Call) : Frontier.Span Str :=
  ⟨c.session, c.firstSequence.toNat, c.count.toNat⟩

/-- The call does not run over the end of the sequence numbers. -/
def Call.Within (c : Call) : Prop :=
  c.firstSequence.toNat + c.count.toNat < 2 ^ 64

instance (c : Call) : Decidable c.Within :=
  inferInstanceAs (Decidable (_ < _))

/-- What the tracker calls for a gap. -/
def announce (t : SequenceTracker) (g : Frontier.Gap Str) :
    List TrackerEvent :=
  (if t.gapCallback then
    [.gap g.key (.ofNat g.expected) (.ofNat g.received)] else []) ++
  (if t.requester then
    [.requestRetransmit g.key (.ofNat g.expected)
      (.ofNat (g.received - g.expected))] else [])

/-- The tracker `t₀` keeps the frontiers of `s` and its counts, the counts as
far as 64 bits go. -/
structure Tracks (t₀ t : SequenceTracker) (s : Frontier.State Str) :
    Prop where
  next : ∀ session, (t.expectedNext session).map UInt64.toNat =
    s.next session
  gapCount : t.gapCount = .ofNat s.missing
  messagesSeen : t.messagesSeen = .ofNat s.seen
  gapCallback : t.gapCallback = t₀.gapCallback
  requester : t.requester = t₀.requester

/-- The difference of two sequence numbers where it is not negative. -/
theorem toNat_excess (a b : UInt64) :
    (if a > b then a - b else 0).toNat = a.toNat - b.toNat := by
  split
  · rename_i h
    exact UInt64.toNat_sub_of_le a b (UInt64.le_of_lt h)
  · rename_i h
    rw [gt_iff_lt, UInt64.lt_iff_toNat_lt] at h
    exact (Nat.sub_eq_zero_of_le (Nat.le_of_not_lt h)).symm

theorem toNat_stop (hc : c.Within) :
    (c.firstSequence + c.count).toNat = c.span.stop := by
  rw [UInt64.toNat_add, Nat.mod_eq_of_lt hc]
  rfl

/-- The messages of a call that are counted are those beyond the
expectation. -/
theorem toNat_fresh (hc : c.Within) (e : UInt64) :
    (if c.firstSequence + c.count > e then
      c.count - min c.count
        (if e > c.firstSequence then e - c.firstSequence else 0)
    else 0).toNat = c.span.stop - max e.toNat c.span.first := by
  have hstop := toNat_stop hc
  have hseen := toNat_excess e c.firstSequence
  generalize (if e > c.firstSequence then e - c.firstSequence else 0) = seen
    at hseen ⊢
  have hspan : c.span.stop = c.span.first + c.count.toNat := rfl
  have hfirst : c.span.first = c.firstSequence.toNat := rfl
  split
  · rename_i hlt
    rw [gt_iff_lt, UInt64.lt_iff_toNat_lt, hstop] at hlt
    have hle : seen ≤ c.count := by
      rw [UInt64.le_iff_toNat_le]
      omega
    rw [show min c.count seen = seen from ?_, UInt64.toNat_sub_of_le _ _ hle]
    · omega
    · show (if c.count ≤ seen then c.count else seen) = seen
      split
      · exact UInt64.le_antisymm ‹_› hle
      · rfl
  · rename_i hlt
    rw [gt_iff_lt, UInt64.lt_iff_toNat_lt, hstop] at hlt
    show 0 = _
    omega

/-- The expectation of the session itself moves on to the end of the call if
that is beyond it. -/
theorem expectedNext_step_self (t : SequenceTracker) (hc : c.Within) :
    ((t.step c).1.expectedNext c.session).map UInt64.toNat =
      some (c.span.advance ((t.expectedNext c.session).map UInt64.toNat)) := by
  cases he : t.expectedNext c.session with
  | none =>
      rw [expectedNext_step_unknown he]
      simp [toNat_stop hc, Frontier.Span.advance]
  | some e =>
      rw [expectedNext_step he]
      split
      · rename_i hlt
        rw [gt_iff_lt, UInt64.lt_iff_toNat_lt, toNat_stop hc] at hlt
        simp [toNat_stop hc, Frontier.Span.advance, max_eq_right hlt.le]
      · rename_i hlt
        rw [gt_iff_lt, UInt64.lt_iff_toNat_lt, toNat_stop hc, not_lt] at hlt
        simp [Frontier.Span.advance, max_eq_left hlt]

theorem Tracks.next_step {t₀ : SequenceTracker} (h : Tracks t₀ t s)
    (hc : c.Within) (session : Str) :
    ((t.step c).1.expectedNext session).map UInt64.toNat =
      (Frontier.observe s c.span).1.next session := by
  rw [Frontier.next_observe]
  by_cases hs : session = c.session
  · subst hs
    rw [expectedNext_step_self t hc, h.next]
    exact (Function.update_self c.session _ s.next).symm
  · rw [expectedNext_step_other t c hs, h.next]
    exact (Function.update_of_ne hs _ s.next).symm

theorem Tracks.messagesSeen_step {t₀ : SequenceTracker} (h : Tracks t₀ t s)
    (hc : c.Within) :
    (t.step c).1.messagesSeen =
      .ofNat (Frontier.observe s c.span).1.seen := by
  have hnext : _ = s.next c.span.key := h.next c.session
  unfold expectedNext at hnext
  rw [Frontier.observe, ← hnext]
  cases he : t.expectedBySession c.session with
  | none =>
      simp only [SequenceTracker.step, SequenceTracker.observe, he,
        Option.map_none, UInt64.ofNat_add, ← h.messagesSeen]
      exact congrArg _ UInt64.ofNat_toNat.symm
  | some e =>
      simp only [SequenceTracker.messagesSeen_step he, Option.map_some,
        UInt64.ofNat_add, ← h.messagesSeen, ← toNat_fresh hc e]
      exact congrArg _ UInt64.ofNat_toNat.symm

theorem Tracks.gapCount_step {t₀ : SequenceTracker} (h : Tracks t₀ t s)
    (c : Call) :
    (t.step c).1.gapCount = .ofNat (Frontier.observe s c.span).1.missing := by
  have hnext : _ = s.next c.span.key := h.next c.session
  unfold expectedNext at hnext
  rw [Frontier.observe, ← hnext]
  cases he : t.expectedBySession c.session with
  | none =>
      simp only [SequenceTracker.step, SequenceTracker.observe, he]
      exact h.gapCount
  | some e =>
      have hgap : c.span.first - e.toNat = _ :=
        (toNat_excess c.firstSequence e).symm
      simp only [SequenceTracker.gapCount_step he, Option.map_some,
        UInt64.ofNat_add, ← h.gapCount, hgap]
      exact congrArg _ UInt64.ofNat_toNat.symm

theorem Tracks.events_step {t₀ : SequenceTracker} (h : Tracks t₀ t s)
    (c : Call) :
    (t.step c).2 = (Frontier.observe s c.span).2.flatMap t₀.announce := by
  have hnext : _ = s.next c.span.key := h.next c.session
  unfold expectedNext at hnext
  rw [Frontier.observe, ← hnext]
  cases he : t.expectedBySession c.session with
  | none => simp only [SequenceTracker.step, SequenceTracker.observe, he]; rfl
  | some e =>
      rw [SequenceTracker.events_step he, h.gapCallback, h.requester]
      by_cases hlt : c.firstSequence > e
      · have hsub := UInt64.toNat_sub_of_le _ _ (UInt64.le_of_lt hlt)
        have hlt' : e.toNat < c.span.first := UInt64.lt_iff_toNat_lt.mp hlt
        rw [if_pos hlt]
        simp only [Option.map_some, if_pos hlt', List.flatMap_cons,
          List.flatMap_nil, List.append_nil, announce]
        simp only [Call.span, ← hsub, UInt64.ofNat_toNat]
      · have hlt' : ¬e.toNat < c.span.first :=
          fun h' => hlt (UInt64.lt_iff_toNat_lt.mpr h')
        rw [if_neg hlt]
        simp only [Option.map_some, if_neg hlt', List.flatMap_nil]

/-- One call does to the frontiers what it does to the tracker. -/
theorem Tracks.step {t₀ : SequenceTracker} (h : Tracks t₀ t s)
    (hc : c.Within) :
    Tracks t₀ (t.step c).1 (Frontier.observe s c.span).1 ∧
      (t.step c).2 = (Frontier.observe s c.span).2.flatMap t₀.announce := by
  obtain ⟨hcallback, hrequester⟩ := hooks_step t c
  exact ⟨{ next := h.next_step hc
           gapCount := h.gapCount_step c
           messagesSeen := h.messagesSeen_step hc
           gapCallback := hcallback.trans h.gapCallback
           requester := hrequester.trans h.requester }, h.events_step c⟩

/-- A fresh tracker with some of the hooks installed. -/
def fresh (gapCallback requester : Bool) : SequenceTracker :=
  { gapCallback, requester }

theorem tracks_fresh (gapCallback requester : Bool) :
    Tracks (fresh gapCallback requester) (fresh gapCallback requester) {} :=
  ⟨fun _ => rfl, rfl, rfl, rfl, rfl⟩

theorem tracks_run (gapCallback requester : Bool)
    (hcalls : ∀ c ∈ calls, c.Within) :
    Tracks (fresh gapCallback requester)
        (run step (fresh gapCallback requester) calls).1
        (run Frontier.observe {} (calls.map Call.span)).1 ∧
      (run step (fresh gapCallback requester) calls).2 =
        (run Frontier.observe {} (calls.map Call.span)).2.flatMap
          (fresh gapCallback requester).announce :=
  run_translates (fun _ _ _ h hc => h.step hc)
    (tracks_fresh gapCallback requester) hcalls

/-! ## §3  The accounts -/

/-- The numbers between the first call of each session and the last number
any of its calls covers, in all sessions. -/
def total (calls : List Call) : ℕ :=
  ∑ session ∈ Frontier.keys (calls.map Call.span),
    Frontier.extent (calls.map Call.span) session

theorem Tracks.expected_lt {t₀ : SequenceTracker} (h : Tracks t₀ t s)
    {session : Str} {e : ℕ} (he : e ∈ s.next session) : e < 2 ^ 64 := by
  rw [← h.next session] at he
  obtain ⟨n, -, rfl⟩ := Option.map_eq_some_iff.mp he
  exact n.toNat_lt

/-- The tracker expects of each session the largest number behind its calls.
It has counted every number up to there once, as seen or as missing. What it
has called are the gaps, which are apart in each session, and a call leaves
the expectations of the other sessions alone. -/
theorem accounts_exact (gapCallback requester : Bool) (calls : List Call)
    (hcalls : ∀ c ∈ calls, c.Within) :
    (∀ session,
      ((run step (fresh gapCallback requester) calls).1.expectedNext
          session).map UInt64.toNat =
        Frontier.frontier (calls.map Call.span) session) ∧
    (total calls < 2 ^ 64 →
      (run step (fresh gapCallback requester) calls).1.messagesSeen.toNat +
          (run step (fresh gapCallback requester) calls).1.gapCount.toNat =
        total calls) ∧
    (∃ gaps : List (Frontier.Gap Str),
      (run step (fresh gapCallback requester) calls).2 =
        gaps.flatMap (fresh gapCallback requester).announce ∧
      (∀ g ∈ gaps, g.expected < g.received ∧ g.received < 2 ^ 64) ∧
      ∀ session, (Frontier.gapsOf session gaps).Pairwise
        fun g h => g.received ≤ h.expected) ∧
    ∀ pre c session, session ≠ c.session →
      (run step (fresh gapCallback requester) (pre ++ [c])).1.expectedNext
          session =
        (run step (fresh gapCallback requester) pre).1.expectedNext
          session := by
  obtain ⟨htracks, hevents⟩ := tracks_run gapCallback requester hcalls
  have hcounted := Frontier.seen_add_missing (calls.map Call.span)
  have hapart := Frontier.apart_run (calls.map Call.span)
  refine ⟨?_, ?_, ?_, ?_⟩
  · intro session
    rw [htracks.next, Frontier.next_run]
  · intro htotal
    change _ = total calls at hcounted
    -- neither counter exceeds their sum, so neither has wrapped around
    rw [htracks.messagesSeen, htracks.gapCount, ← hcounted,
      UInt64.toNat_ofNat_of_lt' (lt_of_le_of_lt (by omega) htotal),
      UInt64.toNat_ofNat_of_lt' (lt_of_le_of_lt (by omega) htotal)]
  · refine ⟨_, hevents, fun g hg => ⟨hapart.nonempty g hg, ?_⟩,
      hapart.increasing⟩
    obtain ⟨e, he, hle⟩ := hapart.below g hg
    exact hle.trans_lt (htracks.expected_lt he)
  · intro pre c session hs
    rw [run_snoc, expectedNext_step_other _ _ hs]

/-- Two sessions, one with a gap that is recovered after it was reported. -/
def lateRecovery : List Call :=
  [⟨[65], 1, 1⟩, ⟨[65], 5, 1⟩, ⟨[66], 9, 2⟩, ⟨[65], 2, 3⟩]

theorem lateRecovery_within : ∀ c ∈ lateRecovery, c.Within := by
  decide

theorem accounts_exact_lateRecovery :
    (run step (fresh true true) lateRecovery).1.messagesSeen.toNat +
      (run step (fresh true true) lateRecovery).1.gapCount.toNat = 7 :=
  (accounts_exact true true lateRecovery lateRecovery_within).2.1
    (by decide)

/-! ## §4  The messages seen -/

/-- The messages seen are the distinct numbers of the calls exactly when no
call brings a number below the expectation of its session that was not
observed before. -/
theorem messagesSeen_eq_distinct_iff (gapCallback requester : Bool)
    (calls : List Call) (hcalls : ∀ c ∈ calls, c.Within) :
    (run step (fresh gapCallback requester) calls).1.messagesSeen.toNat =
        (Frontier.heard (calls.map Call.span)).card ↔
      Frontier.OnTime (calls.map Call.span) ∧
        (Frontier.heard (calls.map Call.span)).card < 2 ^ 64 := by
  obtain ⟨htracks, -⟩ := tracks_run gapCallback requester hcalls
  obtain ⟨hle, htime⟩ := Frontier.seen_run (calls.map Call.span)
  rw [← htime]
  constructor
  · intro heq
    have hlt : (Frontier.heard (calls.map Call.span)).card < 2 ^ 64 :=
      heq ▸ UInt64.toNat_lt _
    rw [htracks.messagesSeen,
      UInt64.toNat_ofNat_of_lt' (hle.trans_lt hlt)] at heq
    exact ⟨heq, hlt⟩
  · rintro ⟨heq, hlt⟩
    rw [htracks.messagesSeen, heq, UInt64.toNat_ofNat_of_lt' hlt]

/-- Without the late call there is nothing to miss. -/
theorem messagesSeen_eq_distinct_inOrder :
    (run step (fresh true true) (lateRecovery.take 3)).1.messagesSeen.toNat =
        (Frontier.heard ((lateRecovery.take 3).map Call.span)).card ↔
      Frontier.OnTime ((lateRecovery.take 3).map Call.span) ∧
        (Frontier.heard ((lateRecovery.take 3).map Call.span)).card < 2 ^ 64 :=
  messagesSeen_eq_distinct_iff true true (lateRecovery.take 3) (by decide)

/-- The recovered messages are not counted: four of the seven are. -/
theorem messagesSeen_misses_recovered :
    (∀ c ∈ lateRecovery, c.Within) ∧
      ¬(run step (fresh true true) lateRecovery).1.messagesSeen.toNat =
        (Frontier.heard (lateRecovery.map Call.span)).card := by
  decide

/-! ## §5  Packets that come twice -/

/-- Right after the call, the same call finds no gap, calls nobody and
changes nothing that can be asked for. -/
structure Harmless (t : SequenceTracker) (c : Call) : Prop where
  gap : ((t.step c).1.observe c.session c.firstSequence c.count).gap = 0
  silent : ((t.step c).1.step c).2 = []
  expectedNext : ∀ session, ((t.step c).1.step c).1.expectedNext session =
    (t.step c).1.expectedNext session
  gapCount : ((t.step c).1.step c).1.gapCount = (t.step c).1.gapCount
  messagesSeen :
    ((t.step c).1.step c).1.messagesSeen = (t.step c).1.messagesSeen

theorem gap_observe {e : UInt64} (he : t.expectedBySession c.session = some e) :
    (t.observe c.session c.firstSequence c.count).gap =
      if c.firstSequence > e then c.firstSequence - e else 0 := by
  simp only [observe, he]
  split <;> rfl

/-- The numbers of the call run on from the first, without wrapping round. -/
theorem within_iff (c : Call) :
    c.Within ↔ c.firstSequence ≤ c.firstSequence + c.count := by
  have hfirst := c.firstSequence.toNat_lt
  have hcount := c.count.toNat_lt
  rw [UInt64.le_iff_toNat_le, UInt64.toNat_add, Call.Within]
  omega

/-- It is harmless if the tracker expects nothing before its end. -/
theorem harmless_iff {e : UInt64}
    (he : (t.step c).1.expectedBySession c.session = some e) :
    t.Harmless c ↔ c.firstSequence ≤ e ∧ c.firstSequence + c.count ≤ e := by
  constructor
  · intro h
    have hgap := h.gap
    have hnext := h.expectedNext c.session
    rw [gap_observe he] at hgap
    rw [expectedNext_step he, expectedNext, he, Option.some.injEq] at hnext
    constructor
    · by_contra hlt
      rw [if_pos (UInt64.not_le.mp hlt)] at hgap
      have heq := congrArg (· + e) hgap
      simp only [UInt64.sub_add_cancel, UInt64.zero_add] at heq
      exact hlt (UInt64.le_of_eq heq)
    · by_contra hlt
      rw [if_pos (UInt64.not_le.mp hlt)] at hnext
      exact hlt (UInt64.le_of_eq hnext)
  · rintro ⟨hfirst, hstop⟩
    have hfirst' : ¬c.firstSequence > e := UInt64.not_lt.mpr hfirst
    have hstop' : ¬c.firstSequence + c.count > e := UInt64.not_lt.mpr hstop
    refine ⟨?_, ?_, ?_, ?_, ?_⟩
    · rw [gap_observe he, if_neg hfirst']
    · rw [events_step he, if_neg hfirst']
    · intro session
      by_cases hs : session = c.session
      · subst hs
        rw [expectedNext_step he, if_neg hstop', expectedNext, he]
      · exact expectedNext_step_other _ c hs
    · rw [gapCount_step he, if_neg hfirst', UInt64.add_zero]
    · rw [messagesSeen_step he, if_neg hstop', UInt64.add_zero]

/-- A packet that comes twice is harmless exactly when its numbers do not run
over the end of the sequence numbers, or its first one is not beyond what was
expected of its session before. -/
theorem observe_twice_harmless_iff (t : SequenceTracker) (c : Call) :
    t.Harmless c ↔
      c.Within ∨ ∃ e, t.expectedNext c.session = some e ∧
        c.firstSequence ≤ e := by
  cases he : t.expectedNext c.session with
  | none =>
      have hnext := expectedNext_step_unknown he
      rw [harmless_iff hnext, within_iff]
      simp
  | some e =>
      have hnext := expectedNext_step he
      have hsome : (∃ e', some e = some e' ∧ c.firstSequence ≤ e') ↔
          c.firstSequence ≤ e := by simp
      rw [harmless_iff hnext, hsome, within_iff]
      split
      · rename_i hlt
        -- the call moved the expectation to its end
        rw [and_iff_left (UInt64.le_refl _)]
        constructor
        · exact Or.inl
        · rintro (h | h)
          · exact h
          · exact UInt64.le_trans h (UInt64.le_of_lt hlt)
      · rename_i hlt
        have hstop := UInt64.not_lt.mp hlt
        rw [and_iff_left hstop]
        constructor
        · exact Or.inr
        · rintro (h | h)
          · exact UInt64.le_trans h hstop
          · exact h

/-- The largest sequence number and one more: the expectation wraps round to
a number far behind, and the same packet is then a gap. -/
theorem observe_twice_harms :
    ¬(fresh true true).Harmless ⟨[65], 0xFFFFFFFFFFFFFFFF, 2⟩ := by
  intro h
  have hgap := h.gap
  revert hgap
  decide

end SequenceTracker

end Itch.Transport
