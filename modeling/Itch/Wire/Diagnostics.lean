import Itch.Framework.Transducer
import Itch.Wire.Framing

/-!
# Diagnostics

What a parser counts and reports over its life. §1 is its interface as a step
function, §2 says what a buffer adds to the counters, §3 what the counters are
and what the callbacks have been told after any sequence of calls.
-/

namespace Itch

open Transducer

/-! ## §1  The calls of a parser -/

inductive ParserCall where
  | parse (data : List UInt8)
  | setErrorCallback (installed : Bool)
  | resetDiagnostics

/-- What a call of `parse` comes to: the callbacks, and the error for which it
throws. -/
structure Parsed where
  events : List ParserEvent
  error : Option ParseError

namespace Parser

def setErrorCallback (p : Parser) (installed : Bool) : Parser :=
  { p with hasErrorCallback := installed }

def resetDiagnostics (p : Parser) : Parser :=
  { p with unknownMessageCount := 0, malformedMessageCount := 0 }

def call (p : Parser) : ParserCall → Parser × List Parsed
  | .parse data =>
    let outcome := p.parse data
    (outcome.1, [⟨outcome.2.1, outcome.2.2⟩])
  | .setErrorCallback installed => (p.setErrorCallback installed, [])
  | .resetDiagnostics => (p.resetDiagnostics, [])

/-! ## §2  One buffer -/

/-- Everything there is to report about a buffer. -/
def reports (data : List UInt8) : List ParserEvent :=
  (parse { hasErrorCallback := true } data).2.1

/-- The error for which a buffer makes `parse` throw. -/
def thrown (data : List UInt8) : Option ParseError :=
  (parse { hasErrorCallback := true } data).2.2

/-- The event is counted as unknown. -/
def countsUnknown : ParserEvent → Bool
  | .error .unknownType _ => true
  | _ => false

/-- The event is counted as malformed. -/
def countsMalformed : ParserEvent → Bool
  | .error .sizeMismatch _ => true
  | .error .truncated _ => true
  | _ => false

/-- The counters moved by the events. -/
def tallied (p : Parser) (events : List ParserEvent) : Parser :=
  { p with
    unknownMessageCount :=
      p.unknownMessageCount + .ofNat (events.countP countsUnknown)
    malformedMessageCount :=
      p.malformedMessageCount + .ofNat (events.countP countsMalformed) }

theorem countsUnknown_of_frameEvent {f : List UInt8} {e : ParserEvent}
    (hne : f ≠ []) (h : FrameEvent f e) : countsUnknown e = isUnknown f := by
  cases h with
  | message ht =>
    rw [isUnknown, ht]
    simp [countsUnknown]
  | unknownType ht =>
    rw [isUnknown, ht]
    simpa [countsUnknown] using hne
  | sizeMismatch ht =>
    rw [isUnknown, ht]
    simp [countsUnknown]

theorem countsMalformed_of_frameEvent {f : List UInt8} {e : ParserEvent}
    (hne : f ≠ []) (h : FrameEvent f e) :
    countsMalformed e = isUndersized f := by
  cases h with
  | message ht hsize =>
    rw [isUndersized, ht, Option.any_some, decide_eq_false hsize.not_gt,
      Bool.and_false]
    rfl
  | unknownType ht =>
    rw [isUndersized, ht]
    simp [countsMalformed]
  | sizeMismatch ht hsize =>
    rw [isUndersized, ht, Option.any_some, decide_eq_true hsize,
      Bool.and_true]
    exact (decide_eq_true hne).symm

/-- Padding is not counted, so that the events of the frames tell all. -/
theorem countP_events {frames : List (List UInt8)} {events : List ParserEvent}
    {counts : ParserEvent → Bool} {counted : List UInt8 → Bool}
    (hnil : counted [] = false)
    (hcounts : ∀ f e, f ≠ [] → FrameEvent f e → counts e = counted f)
    (h : List.Forall₂ FrameEvent (frames.filter (· ≠ [])) events) :
    events.countP counts = frames.countP counted := by
  induction frames generalizing events with
  | nil =>
    rw [List.filter_nil, List.forall₂_nil_left_iff] at h
    rw [h, List.countP_nil, List.countP_nil]
  | cons f frames ih =>
    by_cases hf : f = []
    · subst hf
      rw [List.countP_cons, hnil]
      exact ih h
    · have hfilter : (f :: frames).filter (· ≠ []) =
          f :: frames.filter (· ≠ []) :=
        List.filter_cons_of_pos (decide_eq_true hf)
      rw [hfilter, List.forall₂_cons_left_iff] at h
      obtain ⟨e, events, he, hevents, rfl⟩ := h
      rw [List.countP_cons, List.countP_cons, ih hevents, hcounts f e hf he]

theorem tallied_events (p : Parser) {frames : List (List UInt8)}
    {events : List ParserEvent}
    (h : List.Forall₂ FrameEvent (frames.filter (· ≠ [])) events)
    (tail : List UInt8) :
    p.tallied (events ++ tailEvents tail) =
      (p.count frames).countTail tail := by
  have hunknown := countP_events rfl
    (fun _ _ hf he => countsUnknown_of_frameEvent hf he) h
  have hmalformed := countP_events rfl
    (fun _ _ hf he => countsMalformed_of_frameEvent hf he) h
  rw [tallied, List.countP_append, List.countP_append, hunknown, hmalformed]
  by_cases htail : tail = []
  · simp [tailEvents, htail, count, countTail]
  · simp [tailEvents, htail, count, countTail, countsUnknown, countsMalformed,
      UInt64.ofNat_add, UInt64.add_assoc]

/-- A parser counts all there is to report, and delivers what it has callbacks
for. -/
theorem parse_eq_reports (p : Parser) (data : List UInt8) :
    p.parse data = (p.tallied (reports data),
      (reports data).filter p.delivers, thrown data) := by
  obtain ⟨frames, tail, hd⟩ := Decomposition.exists data
  obtain ⟨events, hevents, hparse⟩ := p.parseImpl_decomposition hd
  obtain ⟨events', hevents', hfull⟩ :=
    parseImpl_decomposition { hasErrorCallback := true } hd
  obtain rfl := List.right_unique_forall₂' FrameEvent.rightUnique hevents
    hevents'
  have hall : (events ++ tailEvents tail).filter
      (delivers { hasErrorCallback := true }) = events ++ tailEvents tail := by
    rw [List.filter_eq_self]
    rintro (_ | _) _ <;> rfl
  rw [hall] at hfull
  rw [reports, thrown, parse_eq hfull, parse_eq hparse]
  dsimp only
  rw [tallied_events p hevents]

/-! ## §3  Sequences of calls -/

/-- Whether an error callback is installed after the calls. -/
def installedAfter : List ParserCall → Bool :=
  List.foldl (fun installed call =>
    match call with
    | .setErrorCallback installed => installed
    | _ => installed) false

/-- The buffers parsed since the last reset of the counters. -/
def parsedSinceReset : List ParserCall → List (List UInt8) :=
  List.foldl (fun buffers call =>
    match call with
    | .parse data => buffers ++ [data]
    | .resetDiagnostics => []
    | .setErrorCallback _ => buffers) []

/-- What a call comes to, after the calls before it. -/
def parsedAfter (calls : List ParserCall) : ParserCall → List Parsed
  | .parse data =>
    let deliver : ParserEvent → Bool
      | .message _ => true
      | .error _ _ => installedAfter calls
    [⟨(reports data).filter deliver, thrown data⟩]
  | _ => []

/-- The parser after the calls. -/
def afterCalls (calls : List ParserCall) : Parser :=
  tallied { hasErrorCallback := installedAfter calls }
    ((parsedSinceReset calls).flatMap reports)

theorem tallied_append (p : Parser) (events events' : List ParserEvent) :
    p.tallied (events ++ events') =
      (p.tallied events).tallied events' := by
  simp [tallied, UInt64.ofNat_add, UInt64.add_assoc]

theorem tallied_nil (p : Parser) : p.tallied [] = p := by
  simp [tallied]

theorem call_afterCalls (calls : List ParserCall) (c : ParserCall) :
    (afterCalls calls).call c = (afterCalls (calls ++ [c]), parsedAfter calls c) := by
  cases c with
  | parse data =>
    have hinstalled : installedAfter (calls ++ [.parse data]) =
        installedAfter calls := List.foldl_concat ..
    have hparsed : parsedSinceReset (calls ++ [.parse data]) =
        parsedSinceReset calls ++ [data] := List.foldl_concat ..
    rw [call, parse_eq_reports, afterCalls, afterCalls, hinstalled, hparsed,
      List.flatMap_append, tallied_append, List.flatMap_singleton]
    rfl
  | setErrorCallback installed =>
    have hinstalled : installedAfter (calls ++ [.setErrorCallback installed]) =
        installed := List.foldl_concat ..
    have hparsed : parsedSinceReset (calls ++ [.setErrorCallback installed]) =
        parsedSinceReset calls := List.foldl_concat ..
    rw [call, afterCalls, afterCalls, hinstalled, hparsed]
    rfl
  | resetDiagnostics =>
    have hinstalled : installedAfter (calls ++ [.resetDiagnostics]) =
        installedAfter calls := List.foldl_concat ..
    have hparsed : parsedSinceReset (calls ++ [.resetDiagnostics]) = [] :=
      List.foldl_concat ..
    rw [call, afterCalls, afterCalls, hinstalled, hparsed, List.flatMap_nil,
      tallied_nil]
    rfl

/-- The parser after a run and what the run has delivered. -/
theorem run_call (calls : List ParserCall) :
    run call {} calls =
      (afterCalls calls, (withPast calls).flatMap fun x => parsedAfter x.1 x.2) := by
  induction calls using List.reverseRecOn with
  | nil => rfl
  | append_singleton calls c ih =>
    rw [run_snoc, ih, call_afterCalls, withPast_snoc, List.flatMap_append,
      List.flatMap_singleton]

/-- **The counters count what is reported.** After any calls the counters are
the numbers of frames and tails to be reported in the buffers parsed since the
last reset, modulo `2 ^ 64`, whether a callback was there or not. No call of
`parse` depends on the buffers before it. -/
theorem run_diagnostics (calls : List ParserCall) :
    let counted := (parsedSinceReset calls).flatMap reports
    (run call {} calls).1.unknownMessageCount =
        .ofNat (counted.countP countsUnknown) ∧
      (run call {} calls).1.malformedMessageCount =
        .ofNat (counted.countP countsMalformed) ∧
      (run call {} calls).2 =
        (withPast calls).flatMap fun x => parsedAfter x.1 x.2 := by
  intro counted
  rw [run_call, afterCalls]
  exact ⟨UInt64.zero_add _, UInt64.zero_add _, rfl⟩

end Parser

end Itch
