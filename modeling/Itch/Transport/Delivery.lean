import Itch.Framework.Consecutive
import Itch.Transport.MoldUdp64

/-!
# Delivery over an unreliable network

A sender numbers the messages of each session and cuts them up into datagrams,
which may be lost, repeated and reordered on their way. The decoder hands on
what arrives. §1 says what is sent and what is delivered, §2 follows a run, and
§3 proves that the decoder and its tracker certify whole sessions.
-/

namespace Itch.Transport

open Transducer

/-! ## §1  What is sent, and what is delivered -/

/-- The datagram is a piece of the session that `sent` numbers. -/
def Datagram.CutFrom (sent : Str → ℕ → Message) : Datagram → Prop
  | .data session sequenceNumber messages =>
      sequenceNumber.toNat + messages.length < 2 ^ 64 ∧
        messages = (List.range' sequenceNumber.toNat messages.length).map
          (sent (toString session))
  | .endOfSession .. => True

namespace MoldUdp64Decoder

/-- The messages called back with, each with the session of the header that is
then returned. `pending` are those of the datagram at hand. -/
def attributed : List Message → List MoldUdp64Event → List (Str × Message)
  | _, [] => []
  | pending, .message m :: events => attributed (pending ++ [m]) events
  | pending, .tracker _ :: events => attributed pending events
  | pending, .returned header :: events =>
      (header.elim [] fun h => pending.map fun m => (h.sessionView, m)) ++
        attributed [] events

def deliveredTo (session : Str) (events : List MoldUdp64Event) :
    List Message :=
  ((attributed [] events).filter fun d => d.1 = session).map Prod.snd

/-- No gap was reported, and every message decoded was seen for the first
time. -/
def Certified (r : MoldUdp64Decoder × List MoldUdp64Event) : Prop :=
  r.2.filterMap MoldUdp64Event.tracker? = [] ∧
    r.1.tracker.messagesSeen = r.1.messagesDecoded

/-- The spans of the session numbers that datagrams announce. -/
def spans (xs : List Datagram) : List (Frontier.Span Str) :=
  (xs.filterMap Datagram.call).map SequenceTracker.Call.span

/-- The datagrams of each session arrive in order, each one once and none
missing between them. -/
def InOrder (xs : List Datagram) : Prop := Frontier.Consecutive (spans xs)

/-! ## §2  A run -/

theorem attributed_tracker (pending : List Message) (es : List TrackerEvent)
    (rest : List MoldUdp64Event) :
    attributed pending (es.map .tracker ++ rest) = attributed pending rest := by
  induction es with
  | nil => rfl
  | cons e es ih => exact ih

theorem attributed_message (pending ms : List Message)
    (rest : List MoldUdp64Event) :
    attributed pending (ms.map .message ++ rest) =
      attributed (pending ++ ms) rest := by
  induction ms generalizing pending with
  | nil => rw [List.append_nil]; rfl
  | cons m ms ih =>
      show attributed (pending ++ [m]) (ms.map .message ++ rest) = _
      rw [ih, List.append_assoc, List.singleton_append]

variable {xs : List Datagram} {sent : Str → ℕ → Message} {session : Str}

/-- Each message is attributed to the session of its datagram. -/
theorem attributed_run (d : MoldUdp64Decoder) (hd : d.callback = true)
    (hxs : ∀ x ∈ xs, x.Sendable) :
    attributed [] (run step d (xs.map Datagram.bytes)).2 =
      xs.flatMap fun x =>
        x.messages.map fun m => (x.header.sessionView, m) := by
  induction xs generalizing d with
  | nil => rfl
  | cons x xs ih =>
      obtain ⟨hx, hxs⟩ := List.forall_mem_cons.mp hxs
      have hstep := step_bytes d hx
      rw [List.map_cons, run_cons, hstep]
      simp only [hd, if_true, List.append_assoc]
      rw [attributed_tracker, attributed_message, List.nil_append,
        List.singleton_append, attributed, List.flatMap_cons]
      congr 1
      exact ih _ rfl hxs

/-- What a session is delivered are the messages of its datagrams. -/
theorem deliveredTo_run (gapCallback requester : Bool)
    (hxs : ∀ x ∈ xs, x.Sendable) (session : Str) :
    deliveredTo session (run step (fresh gapCallback requester)
        (xs.map Datagram.bytes)).2 =
      (xs.filter fun x => x.header.sessionView = session).flatMap
        Datagram.messages := by
  rw [deliveredTo, attributed_run _ rfl hxs]
  clear hxs
  induction xs with
  | nil => rfl
  | cons x xs ih =>
      rw [List.flatMap_cons, List.filter_append, List.map_append, ih]
      by_cases hx : x.header.sessionView = session
      · simp [hx, List.filter_map, Function.comp_def]
      · simp [hx, List.filter_map, Function.comp_def]

/-- A datagram that announces a span holds what is sent under its numbers. -/
theorem messages_of_call {x : Datagram} {c : SequenceTracker.Call}
    (hx : x.Sendable ∧ x.CutFrom sent) (hc : x.call = some c) :
    c.Within ∧ c.session = x.header.sessionView ∧
      c.span.count = x.messages.length ∧
      x.messages = c.span.range.map (sent c.session) := by
  cases x with
  | endOfSession session sequenceNumber rest => cases hc
  | data session sequenceNumber messages =>
      obtain ⟨⟨hsmall, -⟩, hfits, hcut⟩ := hx
      change messages.length < 65535 at hsmall
      have hcount : (UInt64.ofNat messages.length).toNat = messages.length :=
        UInt64.toNat_ofNat_of_lt' (hsmall.trans (by norm_num))
      cases hc
      refine ⟨?_, rfl, hcount, ?_⟩
      · show _ + (UInt64.ofNat messages.length).toNat < 2 ^ 64
        rw [hcount]
        exact hfits
      · show messages = (List.range' _ (UInt64.ofNat _).toNat).map _
        rw [hcount]
        exact hcut

theorem messages_of_no_call {x : Datagram} (h : x.call = none) :
    x.messages = [] := by
  cases x with
  | data session sequenceNumber messages => cases h
  | endOfSession session sequenceNumber rest => rfl

/-- All messages of the datagrams have a number in a span. -/
theorem volume_spans (hxs : ∀ x ∈ xs, x.Sendable ∧ x.CutFrom sent) :
    Frontier.volume (spans xs) = (xs.flatMap Datagram.messages).length := by
  induction xs with
  | nil => rfl
  | cons x xs ih =>
      obtain ⟨hx, hxs⟩ := List.forall_mem_cons.mp hxs
      have hrest := ih hxs
      rw [List.flatMap_cons, List.length_append, ← hrest, spans]
      cases hc : x.call with
      | none =>
          rw [List.filterMap_cons_none hc, messages_of_no_call hc,
            List.length_nil, Nat.zero_add]
          rfl
      | some c =>
          obtain ⟨-, -, hcount, -⟩ := messages_of_call hx hc
          rw [List.filterMap_cons_some hc, ← hcount]
          rfl

/-- The messages of a session are those its spans number. -/
theorem messages_ofKey (hxs : ∀ x ∈ xs, x.Sendable ∧ x.CutFrom sent)
    (session : Str) :
    (xs.filter fun x => x.header.sessionView = session).flatMap
        Datagram.messages =
      ((Frontier.ofKey session (spans xs)).flatMap Frontier.Span.range).map
        (sent session) := by
  induction xs with
  | nil => rfl
  | cons x xs ih =>
      obtain ⟨hx, hxs⟩ := List.forall_mem_cons.mp hxs
      have hrest := ih hxs
      rw [spans]
      cases hc : x.call with
      | none =>
          have hnil := messages_of_no_call hc
          rw [List.filterMap_cons_none hc, List.filter_cons]
          split
          · rw [List.flatMap_cons, hnil, List.nil_append]
            exact hrest
          · exact hrest
      | some c =>
          obtain ⟨-, hsession, -, hmessages⟩ := messages_of_call hx hc
          have hkey : c.span.key = x.header.sessionView := hsession
          rw [List.filterMap_cons_some hc, List.map_cons, List.filter_cons,
            Frontier.ofKey, List.filter_cons, hkey]
          split
          · rename_i heq
            have heq : x.header.sessionView = session := of_decide_eq_true heq
            rw [List.flatMap_cons, List.flatMap_cons, List.map_append,
              hmessages, hsession, heq, hrest]
            rfl
          · exact hrest

/-! ## §3  Certificates -/

theorem within_calls (hxs : ∀ x ∈ xs, x.Sendable ∧ x.CutFrom sent) :
    ∀ c ∈ xs.filterMap Datagram.call, c.Within := by
  intro c hc
  obtain ⟨x, hx, hcall⟩ := List.mem_filterMap.mp hc
  exact (messages_of_call (hxs x hx) hcall).1

/-- What is expected next of a session is its frontier. -/
theorem expectedNext_run (gapCallback requester : Bool)
    (hxs : ∀ x ∈ xs, x.Sendable ∧ x.CutFrom sent) (session : Str) :
    ((run step (fresh gapCallback requester)
        (xs.map Datagram.bytes)).1.tracker.expectedNext session).map
          UInt64.toNat = Frontier.frontier (spans xs) session := by
  obtain ⟨htracks, -⟩ := SequenceTracker.tracks_run gapCallback requester
    (within_calls hxs)
  rw [← Frontier.next_run, run_bytes_decoder _ fun x hx => (hxs x hx).1]
  exact htracks.next session

/-- With the gap callback installed, every gap is heard of. -/
theorem announce_eq_nil_iff {requester : Bool}
    {gaps : List (Frontier.Gap Str)} :
    gaps.flatMap (SequenceTracker.fresh true requester).announce = [] ↔
      gaps = [] := by
  cases gaps with
  | nil => exact iff_of_true rfl rfl
  | cons g gaps =>
      refine iff_of_false ?_ (List.cons_ne_nil g gaps)
      rw [List.flatMap_cons, List.append_eq_nil_iff]
      rintro ⟨h, -⟩
      cases h

theorem certified_iff (requester : Bool)
    (hxs : ∀ x ∈ xs, x.Sendable ∧ x.CutFrom sent)
    (hvolume : (xs.flatMap Datagram.messages).length < 2 ^ 64) :
    Certified (run step (fresh true requester) (xs.map Datagram.bytes)) ↔
      InOrder xs := by
  have hsend : ∀ x ∈ xs, x.Sendable := fun x hx => (hxs x hx).1
  obtain ⟨-, -, hevents⟩ := run_bytes_events (fresh true requester) rfl hsend
  have hdecoder := run_bytes_decoder (fresh true requester) hsend
  obtain ⟨htracks, hcalls⟩ := SequenceTracker.tracks_run true requester
    (within_calls hxs)
  have hseen := Frontier.seen_run_le (spans xs)
  rw [volume_spans hxs] at hseen
  change _ = List.flatMap _ (run Frontier.observe {} (spans xs)).2 at hcalls
  have hcount : (run step (fresh true requester)
      (xs.map Datagram.bytes)).1.tracker.messagesSeen =
        .ofNat (run Frontier.observe {} (spans xs)).1.seen := by
    rw [hdecoder]
    exact htracks.messagesSeen
  have hdecoded : (run step (fresh true requester)
      (xs.map Datagram.bytes)).1.messagesDecoded =
        .ofNat (xs.flatMap Datagram.messages).length := by
    rw [hdecoder]
    exact UInt64.zero_add _
  have heq : UInt64.ofNat (run Frontier.observe {} (spans xs)).1.seen =
      .ofNat (xs.flatMap Datagram.messages).length ↔
        (run Frontier.observe {} (spans xs)).1.seen =
          (xs.flatMap Datagram.messages).length := by
    rw [← UInt64.toNat_inj, UInt64.toNat_ofNat_of_lt' hvolume,
      UInt64.toNat_ofNat_of_lt' (hseen.trans_lt hvolume)]
  rw [Certified, hevents, hcount, hdecoded, heq, InOrder,
    Frontier.consecutive_iff, volume_spans hxs]
  exact and_congr_left' (by
    rw [← @announce_eq_nil_iff requester, ← hcalls]
    rfl)

/-- **Certified sessions are whole.** Whatever the network loses, repeats or
reorders, no gap is reported and every message decoded is a new one if and only
if the datagrams of each session came in order. Then a session was delivered
exactly its messages from the first number observed up to the one expected
next. What is delivered otherwise was sent too, under a number below that. -/
theorem delivery_certified (sent : Str → ℕ → Message) (requester : Bool)
    (xs : List Datagram) (hxs : ∀ x ∈ xs, x.Sendable ∧ x.CutFrom sent)
    (hvolume : (xs.flatMap Datagram.messages).length < 2 ^ 64) :
    (Certified (run step (fresh true requester) (xs.map Datagram.bytes)) ↔
      InOrder xs) ∧
    (Certified (run step (fresh true requester) (xs.map Datagram.bytes)) →
      ∀ session, ∃ first count,
        deliveredTo session (run step (fresh true requester)
            (xs.map Datagram.bytes)).2 =
          (List.range' first count).map (sent session) ∧
        ∀ expected, (run step (fresh true requester)
            (xs.map Datagram.bytes)).1.tracker.expectedNext session =
              some expected →
          Frontier.anchor (spans xs) session = some first ∧
            first + count = expected.toNat) ∧
    ∀ session, ∀ m ∈ deliveredTo session (run step (fresh true requester)
        (xs.map Datagram.bytes)).2,
      ∃ n expected, (run step (fresh true requester)
          (xs.map Datagram.bytes)).1.tracker.expectedNext session =
            some expected ∧
        n < expected.toNat ∧ m = sent session n := by
  have hsend : ∀ x ∈ xs, x.Sendable := fun x hx => (hxs x hx).1
  have hnext := expectedNext_run true requester hxs
  have hdelivered (session : Str) :
      deliveredTo session (run step (fresh true requester)
          (xs.map Datagram.bytes)).2 = _ :=
    (deliveredTo_run true requester hsend session).trans
      (messages_ofKey hxs session)
  refine ⟨certified_iff requester hxs hvolume, ?_, ?_⟩
  · intro hcertified session
    have horder := (certified_iff requester hxs hvolume).mp hcertified
    refine ⟨(Frontier.anchor (spans xs) session).getD 0,
      Frontier.extent (spans xs) session, ?_, ?_⟩
    · rw [hdelivered, Frontier.Consecutive.ranges horder]
    · intro expected hexpected
      have hfrontier := hnext session
      rw [hexpected] at hfrontier
      obtain ⟨first, hfirst⟩ := Frontier.exists_anchor hfrontier.symm
      rw [hfirst]
      exact ⟨rfl, Frontier.anchor_add_extent hfirst hfrontier.symm⟩
  · intro session m hm
    rw [hdelivered] at hm
    obtain ⟨n, hn, rfl⟩ := List.mem_map.mp hm
    have hheard : (session, n) ∈ Frontier.heard (spans xs) :=
      Frontier.mem_heard.mpr (List.mem_flatMap.mp hn)
    obtain ⟨e, he, hlt⟩ := Frontier.lt_frontier hheard
    rw [← hnext] at he
    obtain ⟨expected, hexpected, rfl⟩ := Option.map_eq_some_iff.mp he
    exact ⟨n, expected, hexpected, hlt, rfl⟩

theorem cutFrom_shortSession : ∀ x ∈ shortSession, x.Sendable ∧
    x.CutFrom fun _ _ => .systemEvent { timestamp := 7, eventCode := 79 } := by
  intro x hx
  simp only [shortSession, List.mem_cons, List.not_mem_nil, or_false] at hx
  rcases hx with rfl | rfl | rfl
  · refine ⟨⟨by decide, fun m hm => ?_⟩, by decide, rfl⟩
    obtain rfl := List.mem_singleton.mp hm
    exact ⟨rfl, by decide⟩
  · exact ⟨⟨by decide, fun m hm => absurd hm List.not_mem_nil⟩, by decide, rfl⟩
  · exact ⟨⟨by decide, fun m hm => absurd hm List.not_mem_nil⟩, trivial⟩

/-- A message and a heartbeat behind it, in order. -/
theorem delivery_certified_shortSession :
    Certified (run step (fresh true true)
      (shortSession.map Datagram.bytes)) := by
  apply (delivery_certified _ true shortSession cutFrom_shortSession
    (by decide)).1.mpr
  exact (Frontier.consecutive_iff _).mpr ⟨rfl, rfl⟩

end MoldUdp64Decoder

end Itch.Transport
