import Itch.Framework.Recovery
import Itch.Transport.Delivery

/-!
# Recovery of lost messages

For every gap the tracker asks the retransmission hook for the messages in it.
§1 says what is asked for and what arrives, §2 what the decoder does with the
answers, and §3 that they are all a session needs.
-/

namespace Itch.Transport

open Transducer

/-! ## §1  What is asked for, and what arrives -/

/-- The datagram repeats numbers that the tracker is past already. -/
def Datagram.Repeats (t : SequenceTracker) (x : Datagram) : Prop :=
  ∀ c, x.call = some c → ∃ expected, t.expectedNext c.session = some expected ∧
    c.firstSequence.toNat + c.count.toNat ≤ expected.toNat

namespace MoldUdp64Decoder

/-- The sequence numbers of the session that are asked for again. -/
def requested (session : Str) (events : List MoldUdp64Event) : List ℕ :=
  (events.filterMap MoldUdp64Event.tracker?).flatMap fun
    | .requestRetransmit s startSequence count =>
        if s = session then List.range' startSequence.toNat count.toNat else []
    | .gap .. => []

/-- The sequence numbers of the session under which messages arrive. -/
def arrived (session : Str) (xs : List Datagram) : List ℕ :=
  Frontier.brought session (spans xs)

/-- A decoder whose tracker has a retransmission hook, after datagrams. -/
def received (gapCallback : Bool) (xs : List Datagram) :
    MoldUdp64Decoder × List MoldUdp64Event :=
  run step (fresh gapCallback true) (xs.map Datagram.bytes)

variable {xs : List Datagram} {sent : Str → ℕ → Message} {session : Str}
  {gapCallback : Bool}

theorem spans_append (xs ys : List Datagram) :
    spans (xs ++ ys) = spans xs ++ spans ys := by
  rw [spans, List.filterMap_append, List.map_append]
  rfl

/-- What is asked for are the numbers in the gaps. -/
theorem requested_announce {gaps : List (Frontier.Gap Str)}
    {events : List MoldUdp64Event}
    (hgaps : ∀ g ∈ gaps, g.expected < g.received ∧ g.received < 2 ^ 64)
    (hevents : events.filterMap MoldUdp64Event.tracker? =
      gaps.flatMap (SequenceTracker.fresh gapCallback true).announce) :
    requested session events = Frontier.asked session gaps := by
  rw [requested, hevents]
  clear hevents
  induction gaps with
  | nil => rfl
  | cons g gaps ih =>
      obtain ⟨⟨hlt, hsmall⟩, hgaps⟩ := List.forall_mem_cons.mp hgaps
      have hstart : (UInt64.ofNat g.expected).toNat = g.expected :=
        UInt64.toNat_ofNat_of_lt' (hlt.trans hsmall)
      have hcount : (UInt64.ofNat (g.received - g.expected)).toNat =
          g.received - g.expected :=
        UInt64.toNat_ofNat_of_lt' ((Nat.sub_le _ _).trans_lt hsmall)
      rw [List.flatMap_cons, List.flatMap_append, ih hgaps, Frontier.asked,
        Frontier.asked, Frontier.gapsOf, Frontier.gapsOf, List.filter_cons]
      have hannounce : ((SequenceTracker.fresh gapCallback true).announce
          g).flatMap (fun
            | .requestRetransmit s startSequence count =>
                if s = session then
                  List.range' startSequence.toNat count.toNat else []
            | .gap .. => []) = if g.key = session then g.range else [] := by
        cases gapCallback <;>
          simp [SequenceTracker.announce, SequenceTracker.fresh, hstart,
            hcount, Frontier.Gap.range]
      rw [hannounce]
      by_cases hk : g.key = session
      · rw [if_pos hk, if_pos (decide_eq_true hk), List.flatMap_cons]
      · rw [if_neg hk, if_neg (by simpa using hk), List.nil_append]

theorem received_spec (gapCallback : Bool)
    (hxs : ∀ x ∈ xs, x.Sendable ∧ x.CutFrom sent) :
    SequenceTracker.Tracks (.fresh gapCallback true)
        (received gapCallback xs).1.tracker
        (run Frontier.observe {} (spans xs)).1 ∧
      (received gapCallback xs).2.filterMap MoldUdp64Event.tracker? =
        (run Frontier.observe {} (spans xs)).2.flatMap
          (SequenceTracker.fresh gapCallback true).announce := by
  have hsend : ∀ x ∈ xs, x.Sendable := fun x hx => (hxs x hx).1
  obtain ⟨-, -, hevents⟩ :=
    run_bytes_events (fresh gapCallback true) rfl hsend
  rw [received, hevents, run_bytes_decoder _ hsend]
  exact SequenceTracker.tracks_run gapCallback true (within_calls hxs)

theorem requested_received (gapCallback : Bool)
    (hxs : ∀ x ∈ xs, x.Sendable ∧ x.CutFrom sent) (session : Str) :
    requested session (received gapCallback xs).2 =
      Frontier.asked session (run Frontier.observe {} (spans xs)).2 := by
  obtain ⟨htracks, hevents⟩ := received_spec gapCallback hxs
  refine requested_announce (fun g hg => ?_) hevents
  have hapart := Frontier.apart_run (spans xs)
  obtain ⟨e, he, hle⟩ := hapart.below g hg
  exact ⟨hapart.nonempty g hg, hle.trans_lt (htracks.expected_lt he)⟩

/-- What a datagram makes the decoder ask for. -/
theorem requested_step (gapCallback : Bool)
    (hxs : ∀ x ∈ xs, x.Sendable ∧ x.CutFrom sent) {x : Datagram}
    {c : SequenceTracker.Call} (hx : x.Sendable ∧ x.CutFrom sent)
    (hc : x.call = some c) (session : Str) :
    requested session (step (received gapCallback xs).1 x.bytes).2 =
      Frontier.asked session
        (Frontier.observe (run Frontier.observe {} (spans xs)).1 c.span).2 := by
  obtain ⟨htracks, -⟩ := received_spec gapCallback hxs
  obtain ⟨hwithin, -⟩ := messages_of_call hx hc
  refine @requested_announce session gapCallback _ _ (fun g hg => ?_) ?_
  · obtain ⟨e, -, hlt, rfl⟩ := Frontier.mem_observe hg
    exact ⟨hlt, c.firstSequence.toNat_lt⟩
  · rw [step_bytes _ hx.1, hc, Option.toList_some, run_cons, run_nil,
      List.append_nil, (htracks.step hwithin).2]
    simp only [List.filterMap_append, List.filterMap_map]
    split <;> simp [MoldUdp64Event.tracker?, Function.comp_def]

theorem requested_step_endOfSession (d : MoldUdp64Decoder) {x : Datagram}
    (hx : x.Sendable) (hc : x.call = none) (session : Str) :
    requested session (d.step x.bytes).2 = [] := by
  rw [step_bytes d hx, hc, Option.toList_none, run_nil, requested]
  split <;>
    simp [MoldUdp64Event.tracker?, List.filterMap_map, Function.comp_def]

end MoldUdp64Decoder

/-! ## §2  What the decoder does with the answers -/

/-- A call for numbers that the tracker is past does nothing to it. -/
theorem SequenceTracker.step_behind {t : SequenceTracker}
    {c : SequenceTracker.Call} {expected : UInt64}
    (he : t.expectedNext c.session = some expected)
    (hle : c.firstSequence.toNat + c.count.toNat ≤ expected.toNat) :
    t.step c = (t, []) := by
  have hfirst : ¬c.firstSequence > expected := by
    rw [gt_iff_lt, UInt64.lt_iff_toNat_lt, not_lt]
    exact (Nat.le_add_right _ _).trans hle
  have hstop : ¬c.firstSequence + c.count > expected := by
    rw [gt_iff_lt, UInt64.lt_iff_toNat_lt, not_lt,
      toNat_stop (hle.trans_lt expected.toNat_lt)]
    exact hle
  unfold step observe
  rw [show t.expectedBySession c.session = some expected from he]
  simp only [if_neg hfirst, if_neg hstop, UInt64.add_zero]

namespace MoldUdp64Decoder

variable {xs ys : List Datagram} {sent : Str → ℕ → Message}

/-- Datagrams that repeat what the tracker is past leave it as it is. -/
theorem run_calls_repeats {t : SequenceTracker}
    (hys : ∀ y ∈ ys, y.Repeats t) :
    run SequenceTracker.step t (ys.filterMap Datagram.call) = (t, []) := by
  induction ys with
  | nil => rfl
  | cons y ys ih =>
      obtain ⟨hy, hys⟩ := List.forall_mem_cons.mp hys
      cases hc : y.call with
      | none =>
          rw [List.filterMap_cons_none hc]
          exact ih hys
      | some c =>
          obtain ⟨expected, he, hle⟩ := hy c hc
          rw [List.filterMap_cons_some hc, run_cons,
            SequenceTracker.step_behind he hle, ih hys]
          rfl

/-- Answers change nothing of the tracker, and it calls nothing. -/
theorem received_repeats (gapCallback : Bool)
    (hsend : ∀ x ∈ xs ++ ys, x.Sendable)
    (hys : ∀ y ∈ ys, y.Repeats (received gapCallback xs).1.tracker) :
    (received gapCallback (xs ++ ys)).1.tracker =
        (received gapCallback xs).1.tracker ∧
      (received gapCallback (xs ++ ys)).2.filterMap MoldUdp64Event.tracker? =
        (received gapCallback xs).2.filterMap MoldUdp64Event.tracker? := by
  obtain ⟨hxs, hsend'⟩ := List.forall_mem_append.mp hsend
  have hrun := run_calls_repeats hys
  have hcallback : (received gapCallback xs).1.callback = true := by
    rw [received, run_bytes_decoder _ hxs]
    rfl
  obtain ⟨-, -, hevents⟩ :=
    run_bytes_events (received gapCallback xs).1 hcallback hsend'
  have happend : received gapCallback (xs ++ ys) =
      ((run step (received gapCallback xs).1 (ys.map Datagram.bytes)).1,
        (received gapCallback xs).2 ++
          (run step (received gapCallback xs).1 (ys.map Datagram.bytes)).2) := by
    rw [received, List.map_append, run_append]
    rfl
  rw [happend]
  constructor
  · rw [run_bytes_decoder _ hsend', hrun]
  · rw [List.filterMap_append, hevents, hrun, List.append_nil]

/-! ## §3  Whole sessions -/

/-- **What is asked for is what is missing.** With a retransmission hook the
decoder asks for no number twice and for none that has arrived. Answers, which
may come in any order and cut up in any way, change nothing of its accounts and
make it ask for nothing; and with them all messages of a session have arrived,
from the first number observed up to the one expected next, if and only if
those that were asked for have. -/
theorem recovery_complete (sent : Str → ℕ → Message) (gapCallback : Bool)
    (xs ys : List Datagram)
    (hsent : ∀ x ∈ xs ++ ys, x.Sendable ∧ x.CutFrom sent)
    (hys : ∀ y ∈ ys, y.Repeats (received gapCallback xs).1.tracker)
    (session : Str) :
    deliveredTo session (received gapCallback (xs ++ ys)).2 =
        (arrived session (xs ++ ys)).map (sent session) ∧
      (received gapCallback (xs ++ ys)).1.tracker =
        (received gapCallback xs).1.tracker ∧
      requested session (received gapCallback (xs ++ ys)).2 =
        requested session (received gapCallback xs).2 ∧
      (requested session (received gapCallback xs).2).Pairwise (· < ·) ∧
      (∀ pre x post, xs = pre ++ x :: post →
        ∀ n ∈ requested session (step (received gapCallback pre).1 x.bytes).2,
          n ∉ arrived session pre) ∧
      ((∀ n ∈ requested session (received gapCallback xs).2,
          n ∈ arrived session (xs ++ ys)) ↔
        ∀ first expected, Frontier.anchor (spans xs) session = some first →
          (received gapCallback xs).1.tracker.expectedNext session =
            some expected →
          ∀ n, first ≤ n → n < expected.toNat →
            n ∈ arrived session (xs ++ ys)) := by
  have hsend : ∀ x ∈ xs ++ ys, x.Sendable := fun x hx => (hsent x hx).1
  obtain ⟨hxs, -⟩ := List.forall_mem_append.mp hsent
  obtain ⟨htracker, hevents⟩ := received_repeats gapCallback hsend hys
  refine ⟨?_, htracker, ?_, ?_, ?_, ?_⟩
  · rw [received, deliveredTo_run gapCallback true hsend, messages_ofKey hsent]
    rfl
  · rw [requested, hevents, requested]
  · rw [requested_received gapCallback hxs]
    exact Frontier.asked_increasing _ _
  · rintro pre x post rfl n hn
    obtain ⟨hpre, hrest⟩ := List.forall_mem_append.mp hxs
    have hx := hrest x List.mem_cons_self
    cases hc : x.call with
    | none =>
        rw [requested_step_endOfSession _ hx.1 hc] at hn
        cases hn
    | some c =>
        rw [requested_step gapCallback hpre hx hc] at hn
        exact Frontier.not_brought_of_asked _ _ hn
  · have hnext : ((received gapCallback xs).1.tracker.expectedNext
        session).map UInt64.toNat = Frontier.frontier (spans xs) session :=
      expectedNext_run gapCallback true hxs session
    rw [requested_received gapCallback hxs, arrived, spans_append,
      Frontier.complete_iff]
    constructor
    · intro h first expected hfirst hexpected n
      refine h first hfirst expected.toNat ?_ n
      rw [← hnext, hexpected]
      rfl
    · intro h first hfirst e he n
      rw [← hnext] at he
      obtain ⟨expected, hexpected, rfl⟩ := Option.map_eq_some_iff.mp he
      exact h first expected hfirst hexpected n

def marketOpens : Message := .systemEvent { timestamp := 7, eventCode := 79 }

/-- The second of three datagrams does not arrive. -/
def oneLost : List Datagram :=
  [.data default 1 [marketOpens], .data default 3 [marketOpens]]

def oneAnswer : List Datagram := [.data default 2 [marketOpens]]

theorem sent_oneLost : ∀ x ∈ oneLost ++ oneAnswer,
    x.Sendable ∧ x.CutFrom fun _ _ => marketOpens := by
  intro x hx
  simp only [oneLost, oneAnswer, List.cons_append, List.nil_append,
    List.mem_cons, List.not_mem_nil, or_false] at hx
  rcases hx with rfl | rfl | rfl <;>
  · refine ⟨⟨by decide, fun m hm => ?_⟩, by decide, rfl⟩
    obtain rfl := List.mem_singleton.mp hm
    exact ⟨rfl, by decide⟩

/-- The lost message is asked for, and with the answer all three are there. -/
theorem recovery_complete_oneLost :
    deliveredTo [] (received true (oneLost ++ oneAnswer)).2 =
        [marketOpens, marketOpens, marketOpens] ∧
      ∀ n, 1 ≤ n → n < 4 → n ∈ arrived [] (oneLost ++ oneAnswer) := by
  have hsent := (List.forall_mem_append.mp sent_oneLost).1
  have hexpected : (received true oneLost).1.tracker.expectedNext [] =
      some 4 := by
    rw [received, run_bytes_decoder _ fun x hx => (hsent x hx).1]
    rfl
  have hanswer : ∀ y ∈ oneAnswer,
      y.Repeats (received true oneLost).1.tracker := by
    intro y hy c hc
    obtain rfl := List.mem_singleton.mp hy
    cases hc
    exact ⟨4, hexpected, by decide⟩
  obtain ⟨hdelivered, -, -, -, -, hcomplete⟩ := recovery_complete
    (fun _ _ => marketOpens) true oneLost oneAnswer sent_oneLost hanswer []
  refine ⟨hdelivered.trans rfl, hcomplete.mp ?_ 1 4 rfl hexpected⟩
  intro n hn
  rw [requested_received true hsent] at hn
  obtain rfl : n = 2 := List.mem_singleton.mp hn
  decide

end MoldUdp64Decoder

end Itch.Transport
