import Mathlib.Data.List.DropRight
import Itch.Wire.Overlay
import Itch.Wire.RoundTrip
import Itch.Transport.Sequencing

/-!
# The MoldUDP64 decoder

§1 is the decoder; a read outside the datagram would be `none`. §2 says which
datagrams take which way through it, §3 that what was put into datagrams comes
out again, §4 which numbers it accounts for when datagrams are damaged, and §5
when they deliver no more than they announce.
-/

namespace Itch.Transport

open ByteCursor Transducer

/-! ## §1  The decoder -/

structure MoldUdp64Header where
  session : Chars 10 := default
  sequenceNumber : UInt64 := 0
  messageCount : UInt16 := 0
deriving DecidableEq

namespace MoldUdp64Header

/-- The `message_count` of an end-of-session packet. -/
def END_OF_SESSION : UInt16 := 0xFFFF

/-- The session without its trailing spaces and NUL bytes. -/
def sessionView (header : MoldUdp64Header) : Str :=
  header.session.val.rdropWhile fun c => c == ' '.toUInt8 || c == 0

def isHeartbeat (header : MoldUdp64Header) : Bool := header.messageCount == 0

def isEndOfSession (header : MoldUdp64Header) : Bool :=
  header.messageCount == END_OF_SESSION

/-- The call of the tracker for a header. -/
def call (header : MoldUdp64Header) : SequenceTracker.Call :=
  ⟨header.sessionView, header.sequenceNumber, header.messageCount.toUInt64⟩

end MoldUdp64Header

/-- What the decoder and its tracker call, and what `decode_packet` then
returns. -/
inductive MoldUdp64Event
  | message (message : Message)
  | tracker (event : TrackerEvent)
  | returned (header : Option MoldUdp64Header)

namespace MoldUdp64Event

def message? : MoldUdp64Event → Option Message
  | .message m => some m
  | _ => none

def tracker? : MoldUdp64Event → Option TrackerEvent
  | .tracker event => some event
  | _ => none

def returned? : MoldUdp64Event → Option (Option MoldUdp64Header)
  | .returned header => some header
  | _ => none

end MoldUdp64Event

/-- `callback` says whether the message callback is installed. -/
structure MoldUdp64Decoder where
  callback : Bool := true
  parser : Parser := {}
  tracker : SequenceTracker := {}
  packetsDecoded : UInt64 := 0
  messagesDecoded : UInt64 := 0

namespace MoldUdp64Decoder

def HEADER_SIZE : ℕ := 20
def SEQUENCE_OFFSET : ℕ := 10
def COUNT_OFFSET : ℕ := 18

def readHeader (packet : List UInt8) : Option MoldUdp64Header := do
  let session ← readAt (unpackString 10) packet 0
  let sequenceNumber ← readAt (unpack UInt64) packet SEQUENCE_OFFSET
  let messageCount ← readAt (unpack UInt16) packet COUNT_OFFSET
  return { session, sequenceNumber, messageCount }

/-- The blocks behind the header go to the parser, and what it throws is
swallowed. -/
def parseBlocks (d : MoldUdp64Decoder) (blocks : List UInt8) :
    MoldUdp64Decoder × List MoldUdp64Event :=
  let outcome := d.parser.parse blocks
  ({ d with
      parser := outcome.1
      messagesDecoded :=
        d.messagesDecoded + .ofNat outcome.messages.length },
    if d.callback then outcome.messages.map .message else [])

def decodePacket (d : MoldUdp64Decoder) (packet : List UInt8) :
    Option (MoldUdp64Decoder × List MoldUdp64Event) :=
  if packet.length < HEADER_SIZE then some (d, [.returned none])
  else do
    let d := { d with packetsDecoded := d.packetsDecoded + 1 }
    let header ← readHeader packet
    if header.isEndOfSession then
      return (d, [.returned header])  -- no message blocks, no sequence advance
    else
      let observed := d.tracker.observe header.sessionView
        header.sequenceNumber header.messageCount.toUInt64
      let d := { d with tracker := observed.tracker }
      let events := observed.events.map .tracker
      if header.isHeartbeat then
        return (d, events ++ [.returned header])
      else
        let blocks ← subspan packet HEADER_SIZE
        let (d, events') := d.parseBlocks blocks
        return (d, events ++ events' ++ [.returned header])

/-! ## §2  The ways through it -/

variable {d : MoldUdp64Decoder} {packet : List UInt8}
  {header : MoldUdp64Header}

/-- The header lies inside a datagram of its size. -/
theorem exists_readHeader (h : HEADER_SIZE ≤ packet.length) :
    ∃ header, readHeader packet = some header := by
  have hle {offset n : ℕ} (hn : offset + n ≤ HEADER_SIZE) :
      offset + n ≤ packet.length := hn.trans h
  obtain ⟨session, hsession⟩ :=
    (consumes_unpackString 10).readAt (hle (show 0 + 10 ≤ _ by decide))
  obtain ⟨sequence, hsequence⟩ := (consumes_unpack UInt64).readAt
    (hle (show SEQUENCE_OFFSET + 8 ≤ _ by decide))
  obtain ⟨count, hcount⟩ := (consumes_unpack UInt16).readAt
    (hle (show COUNT_OFFSET + 2 ≤ _ by decide))
  refine ⟨⟨session, sequence, count⟩, ?_⟩
  rw [readHeader, hsession, hsequence, hcount]
  rfl

/-- No read is outside the datagram. -/
theorem isSome_decodePacket (d : MoldUdp64Decoder) (packet : List UInt8) :
    (d.decodePacket packet).isSome := by
  unfold decodePacket
  split
  · rfl
  · rename_i hlen
    obtain ⟨header, hheader⟩ := exists_readHeader (not_lt.mp hlen)
    rw [hheader]
    dsimp only [Option.bind_eq_bind, Option.bind_some]
    split
    · rfl
    · split
      · rfl
      · rw [subspan_eq (not_lt.mp hlen)]
        rfl

def step (d : MoldUdp64Decoder) (packet : List UInt8) :
    MoldUdp64Decoder × List MoldUdp64Event :=
  (d.decodePacket packet).get (d.isSome_decodePacket packet)

def counted (d : MoldUdp64Decoder) : MoldUdp64Decoder :=
  { d with packetsDecoded := d.packetsDecoded + 1 }

/-- The decoder after the tracker was told of a header. -/
def observed (d : MoldUdp64Decoder) (header : MoldUdp64Header) :
    MoldUdp64Decoder × List MoldUdp64Event :=
  ({ d with tracker := (d.tracker.step header.call).1 },
    (d.tracker.step header.call).2.map .tracker)

theorem step_eq (d : MoldUdp64Decoder) {packet : List UInt8}
    {r : MoldUdp64Decoder × List MoldUdp64Event}
    (h : d.decodePacket packet = some r) : d.step packet = r := by
  unfold step
  simp only [h, Option.get_some]

theorem step_short (d : MoldUdp64Decoder)
    (hlen : packet.length < HEADER_SIZE) :
    d.step packet = (d, [.returned none]) := by
  refine step_eq d ?_
  rw [decodePacket, if_pos hlen]

theorem step_endOfSession (d : MoldUdp64Decoder)
    (hlen : HEADER_SIZE ≤ packet.length)
    (hheader : readHeader packet = some header)
    (hend : header.isEndOfSession) :
    d.step packet = (d.counted, [.returned header]) := by
  refine step_eq d ?_
  rw [decodePacket, if_neg (not_lt.mpr hlen), hheader]
  dsimp only [Option.bind_eq_bind, Option.bind_some]
  rw [if_pos hend]
  rfl

theorem step_heartbeat (d : MoldUdp64Decoder)
    (hlen : HEADER_SIZE ≤ packet.length)
    (hheader : readHeader packet = some header)
    (hend : header.isEndOfSession = false) (hbeat : header.isHeartbeat) :
    d.step packet = ((d.counted.observed header).1,
      (d.counted.observed header).2 ++ [.returned header]) := by
  refine step_eq d ?_
  rw [decodePacket, if_neg (not_lt.mpr hlen), hheader]
  dsimp only [Option.bind_eq_bind, Option.bind_some]
  rw [if_neg (by simp [hend]), if_pos hbeat]
  rfl

theorem step_data (d : MoldUdp64Decoder)
    (hlen : HEADER_SIZE ≤ packet.length)
    (hheader : readHeader packet = some header)
    (hend : header.isEndOfSession = false)
    (hbeat : header.isHeartbeat = false) :
    d.step packet =
      (((d.counted.observed header).1.parseBlocks
          (packet.drop HEADER_SIZE)).1,
        (d.counted.observed header).2 ++
          ((d.counted.observed header).1.parseBlocks
            (packet.drop HEADER_SIZE)).2 ++ [.returned header]) := by
  refine step_eq d ?_
  rw [decodePacket, if_neg (not_lt.mpr hlen), hheader]
  dsimp only [Option.bind_eq_bind, Option.bind_some]
  rw [if_neg (by simp [hend]), if_neg (by simp [hbeat]), subspan_eq hlen]
  rfl

end MoldUdp64Decoder

/-! ## §3  What is put into datagrams -/

def MoldUdp64Header.bytes (header : MoldUdp64Header) : List UInt8 :=
  putChars header.session ++
    (put header.sequenceNumber ++ put header.messageCount)

/-- A datagram as a sender makes it. Behind the header of an end-of-session
packet anything may follow. -/
inductive Datagram
  | data (session : Chars 10) (sequenceNumber : UInt64)
      (messages : List Message)
  | endOfSession (session : Chars 10) (sequenceNumber : UInt64)
      (rest : List UInt8)

namespace Datagram

def header : Datagram → MoldUdp64Header
  | .data session sequenceNumber messages =>
      { session, sequenceNumber, messageCount := .ofNat messages.length }
  | .endOfSession session sequenceNumber _ =>
      { session, sequenceNumber,
        messageCount := MoldUdp64Header.END_OF_SESSION }

def messages : Datagram → List Message
  | .data _ _ messages => messages
  | .endOfSession .. => []

def body : Datagram → List UInt8
  | .data _ _ messages => (messages.map encodeFrame).flatten
  | .endOfSession _ _ rest => rest

def bytes (x : Datagram) : List UInt8 := x.header.bytes ++ x.body

/-- What the tracker is told of a datagram. -/
def call : Datagram → Option SequenceTracker.Call
  | .data session sequenceNumber messages =>
      some ⟨toString session, sequenceNumber, .ofNat messages.length⟩
  | .endOfSession .. => none

/-- The messages are well formed and can be counted. -/
def Sendable (x : Datagram) : Prop :=
  x.messages.length < 65535 ∧
    ∀ m ∈ x.messages, m.OwnType ∧ m.header.timestamp < 2 ^ 48

end Datagram

namespace MoldUdp64Decoder

open MoldUdp64Header (END_OF_SESSION)

variable {x : Datagram}

theorem length_headerBytes (header : MoldUdp64Header) :
    header.bytes.length = HEADER_SIZE := by
  rw [MoldUdp64Header.bytes, List.length_append, List.length_append,
    length_putChars, length_put, length_put]
  rfl

theorem readHeader_bytes (header : MoldUdp64Header) (body : List UInt8) :
    readHeader (header.bytes ++ body) = some header := by
  obtain ⟨hsession, hrest⟩ := (holds_zero header.bytes body).append
  obtain ⟨hsequence, hcount⟩ := hrest.append
  rw [length_putChars] at hsequence hcount
  rw [readHeader, hsession.readAt (inverts_unpackString header.session),
    show SEQUENCE_OFFSET = 0 + 10 from rfl,
    hsequence.readAt (inverts_unpack header.sequenceNumber),
    show COUNT_OFFSET = 0 + 10 + (put header.sequenceNumber).length from
      (length_put header.sequenceNumber).symm ▸ rfl,
    hcount.readAt (inverts_unpack header.messageCount)]
  rfl

/-- A message count that is neither of the special ones. -/
theorem toUInt64_count {n : ℕ} (hn : n < 65535) :
    (UInt16.ofNat n).toUInt64 = .ofNat n ∧
      UInt16.ofNat n ≠ END_OF_SESSION ∧ (UInt16.ofNat n = 0 ↔ n = 0) := by
  have hcount : (UInt16.ofNat n).toNat = n :=
    UInt16.toNat_ofNat_of_lt' (hn.trans (by decide))
  refine ⟨?_, ?_, ?_⟩
  · rw [← UInt64.toNat_inj, UInt16.toNat_toUInt64, hcount,
      UInt64.toNat_ofNat_of_lt' (hn.trans (by decide))]
  · rw [Ne, ← UInt16.toNat_inj, hcount]
    exact hn.ne
  · rw [← UInt16.toNat_inj, hcount]
    rfl

theorem parse_messages (p : Parser) {messages : List Message}
    (h : ∀ m ∈ messages, m.OwnType ∧ m.header.timestamp < 2 ^ 48) :
    p.parse (messages.map encodeFrame).flatten =
      (p, messages.map .message, none) := by
  have hsend : ∀ item ∈ messages.map some, StreamItem.Sendable item := by
    rintro item hi m rfl
    obtain ⟨m', hm', hm⟩ := List.mem_map.mp hi
    cases hm
    exact h m hm'
  have hitems := p.parseImpl_items hsend
  rw [List.map_map, List.filterMap_map] at hitems
  refine p.parse_eq (hitems.trans ?_)
  simp

theorem call_data (session : Chars 10) (sequenceNumber : UInt64)
    {messages : List Message} (hn : messages.length < 65535) :
    (Datagram.data session sequenceNumber messages).call =
      some (Datagram.data session sequenceNumber messages).header.call := by
  obtain ⟨hcount, -, -⟩ := toUInt64_count hn
  rw [MoldUdp64Header.call, Datagram.header, hcount]
  rfl

/-- A decoder takes out of a datagram what was put into it. -/
theorem step_bytes (d : MoldUdp64Decoder) (hx : x.Sendable) :
    d.step x.bytes =
      ({ d with
          tracker := (run SequenceTracker.step d.tracker x.call.toList).1
          packetsDecoded := d.packetsDecoded + 1
          messagesDecoded := d.messagesDecoded + .ofNat x.messages.length },
        (run SequenceTracker.step d.tracker x.call.toList).2.map .tracker ++
          (if d.callback then x.messages.map .message else []) ++
          [.returned x.header]) := by
  have hheader := readHeader_bytes x.header x.body
  have hlen : HEADER_SIZE ≤ x.bytes.length := by
    rw [Datagram.bytes, List.length_append, length_headerBytes]
    exact Nat.le_add_right _ _
  have hbody : x.bytes.drop HEADER_SIZE = x.body :=
    List.drop_left' (length_headerBytes x.header)
  cases x with
  | endOfSession session sequenceNumber rest =>
      rw [d.step_endOfSession hlen hheader rfl]
      simp [Datagram.call, Datagram.messages, counted]
  | data session sequenceNumber messages =>
      obtain ⟨hn, hmessages⟩ := hx
      change messages.length < 65535 at hn
      obtain ⟨-, hend, hzero⟩ := toUInt64_count hn
      have hend' : (Datagram.data session sequenceNumber
          messages).header.isEndOfSession = false :=
        beq_false_of_ne hend
      rw [call_data session sequenceNumber hn, Option.toList_some, run_cons,
        run_nil, List.append_nil]
      by_cases hnil : messages = []
      · subst hnil
        rw [d.step_heartbeat hlen hheader hend' rfl]
        simp [Datagram.messages, observed, counted]
      · have hbeat : (Datagram.data session sequenceNumber
            messages).header.isHeartbeat = false := by
          refine beq_false_of_ne fun h => hnil ?_
          exact List.eq_nil_of_length_eq_zero (hzero.mp h)
        rw [d.step_data hlen hheader hend' hbeat, hbody]
        have hparse := parse_messages d.parser hmessages
        have hoverall : Parser.Outcome.messages
            (d.parser, messages.map ParserEvent.message, none) =
              messages := by
          simp [Parser.Outcome.messages, List.filterMap_map]
        simp only [parseBlocks, observed, counted, Datagram.body] at hparse ⊢
        simp only [Datagram.messages] at hparse
        rw [hparse, hoverall]
        rfl

variable {xs : List Datagram}

/-- The decoder after datagrams. -/
theorem run_bytes_decoder (d : MoldUdp64Decoder)
    (hxs : ∀ x ∈ xs, x.Sendable) :
    (run step d (xs.map Datagram.bytes)).1 =
      { d with
        tracker :=
          (run SequenceTracker.step d.tracker (xs.filterMap Datagram.call)).1
        packetsDecoded := d.packetsDecoded + .ofNat xs.length
        messagesDecoded :=
          d.messagesDecoded + .ofNat (xs.flatMap Datagram.messages).length } := by
  induction xs generalizing d with
  | nil => simp
  | cons x xs ih =>
      obtain ⟨hx, hxs⟩ := List.forall_mem_cons.mp hxs
      have hcalls : (x :: xs).filterMap Datagram.call =
          x.call.toList ++ xs.filterMap Datagram.call := by
        cases h : x.call <;> simp [h]
      rw [List.map_cons, run_cons, ih _ hxs, step_bytes d hx, hcalls,
        run_append]
      simp [UInt64.add_assoc, UInt64.add_comm]

/-- The calls the decoder makes and what it returns. -/
theorem run_bytes_events (d : MoldUdp64Decoder) (hd : d.callback = true)
    (hxs : ∀ x ∈ xs, x.Sendable) :
    (run step d (xs.map Datagram.bytes)).2.filterMap
        MoldUdp64Event.returned? = xs.map (fun x => some x.header) ∧
      (run step d (xs.map Datagram.bytes)).2.filterMap
        MoldUdp64Event.message? = xs.flatMap Datagram.messages ∧
      (run step d (xs.map Datagram.bytes)).2.filterMap
        MoldUdp64Event.tracker? =
          (run SequenceTracker.step d.tracker
            (xs.filterMap Datagram.call)).2 := by
  induction xs generalizing d with
  | nil => exact ⟨rfl, rfl, rfl⟩
  | cons x xs ih =>
      obtain ⟨hx, hxs⟩ := List.forall_mem_cons.mp hxs
      have hcalls : (x :: xs).filterMap Datagram.call =
          x.call.toList ++ xs.filterMap Datagram.call := by
        cases h : x.call <;> simp [h]
      have hstep := step_bytes d hx
      obtain ⟨hreturned, hmessages, htracker⟩ :=
        ih (d.step x.bytes).1 (by rw [hstep]; exact hd) hxs
      rw [List.map_cons, run_cons]
      simp only [List.filterMap_append, hreturned, hmessages, htracker]
      rw [hcalls, run_append]
      simp only [hstep, hd]
      refine ⟨?_, ?_, ?_⟩ <;>
        simp [MoldUdp64Event.returned?, MoldUdp64Event.message?,
          MoldUdp64Event.tracker?, List.filterMap_map, Function.comp_def]

/-- A decoder with some of the hooks of its tracker installed. -/
def fresh (gapCallback requester : Bool) : MoldUdp64Decoder :=
  { tracker := .fresh gapCallback requester }

/-- Datagrams come out of a decoder as they were put together: it returns
their headers, calls back with their messages, counts both, and tells the
tracker of each but those that end a session. These change neither the tracker
nor the number of messages, whatever else is in them. -/
theorem datagrams_roundTrip (gapCallback requester : Bool)
    (xs : List Datagram) (hxs : ∀ x ∈ xs, x.Sendable) :
    ((run step (fresh gapCallback requester)
        (xs.map Datagram.bytes)).2.filterMap MoldUdp64Event.returned? =
          xs.map (fun x => some x.header) ∧
      (run step (fresh gapCallback requester)
        (xs.map Datagram.bytes)).2.filterMap MoldUdp64Event.message? =
          xs.flatMap Datagram.messages ∧
      (run step (fresh gapCallback requester)
        (xs.map Datagram.bytes)).1.messagesDecoded =
          .ofNat (xs.flatMap Datagram.messages).length ∧
      (run step (fresh gapCallback requester)
        (xs.map Datagram.bytes)).1.packetsDecoded = .ofNat xs.length ∧
      (run step (fresh gapCallback requester)
        (xs.map Datagram.bytes)).1.tracker =
          (run SequenceTracker.step (.fresh gapCallback requester)
            (xs.filterMap Datagram.call)).1 ∧
      (run step (fresh gapCallback requester)
        (xs.map Datagram.bytes)).2.filterMap MoldUdp64Event.tracker? =
          (run SequenceTracker.step (.fresh gapCallback requester)
            (xs.filterMap Datagram.call)).2) ∧
    ∀ (d : MoldUdp64Decoder) (header : MoldUdp64Header) (rest : List UInt8),
      header.messageCount = END_OF_SESSION →
        (d.step (header.bytes ++ rest)).1.tracker = d.tracker ∧
        (d.step (header.bytes ++ rest)).1.messagesDecoded =
          d.messagesDecoded := by
  obtain ⟨hreturned, hmessages, htracker⟩ :=
    run_bytes_events (fresh gapCallback requester) rfl hxs
  rw [run_bytes_decoder (fresh gapCallback requester) hxs]
  refine ⟨⟨hreturned, hmessages, UInt64.zero_add _, UInt64.zero_add _, rfl,
    htracker⟩, fun d header rest hend => ?_⟩
  have hlen : HEADER_SIZE ≤ (header.bytes ++ rest).length := by
    rw [List.length_append, length_headerBytes]
    exact Nat.le_add_right _ _
  rw [d.step_endOfSession hlen (readHeader_bytes header rest)
    (beq_of_eq hend)]
  exact ⟨rfl, rfl⟩

/-- A datagram of one message, a heartbeat, and the end of the session. -/
def shortSession : List Datagram :=
  [.data default 1 [.systemEvent { timestamp := 7, eventCode := 79 }],
    .data default 2 [], .endOfSession default 2 []]

theorem datagrams_roundTrip_shortSession :
    (run step (fresh true true)
      (shortSession.map Datagram.bytes)).1.messagesDecoded = 1 := by
  refine (datagrams_roundTrip true true shortSession ?_).1.2.2.1
  intro x hx
  simp only [shortSession, List.mem_cons, List.not_mem_nil, or_false] at hx
  rcases hx with rfl | rfl | rfl
  · refine ⟨by decide, fun m hm => ?_⟩
    obtain rfl := List.mem_singleton.mp hm
    exact ⟨rfl, by decide⟩
  · exact ⟨by decide, fun m hm => absurd hm List.not_mem_nil⟩
  · exact ⟨by decide, fun m hm => absurd hm List.not_mem_nil⟩

/-! ## §4  Damaged datagrams -/

/-- What the tracker is told of arbitrary bytes. -/
def callOf (packet : List UInt8) : Option SequenceTracker.Call :=
  if packet.length < HEADER_SIZE then none
  else (readHeader packet).bind fun header =>
    if header.isEndOfSession then none else some header.call

/-- The datagram, which is none of the special ones, holds the message with
this number of the session in a complete block, which the parser is given. -/
def Carries (packet : List UInt8) (session : Str) (n : ℕ) : Prop :=
  ∃ header frames tail i, readHeader packet = some header ∧
    header.isEndOfSession = false ∧ header.sessionView = session ∧
    Decomposition (packet.drop HEADER_SIZE) frames tail ∧
    i < frames.length ∧ i < header.messageCount.toNat ∧
    n = header.sequenceNumber.toNat + i

/-- The number is in a gap that was reported. -/
def Reported (events : List MoldUdp64Event) (session : Str) (n : ℕ) : Prop :=
  ∃ expected received,
    .tracker (.gap session expected received) ∈ events ∧
      expected.toNat ≤ n ∧ n < received.toNat

/-- The first sequence number observed of a session. -/
def firstObserved (packets : List (List UInt8)) (session : Str) :
    Option UInt64 :=
  ((packets.filterMap callOf).find? fun c => decide (c.session = session)).map
    SequenceTracker.Call.firstSequence

/-- Each number from the first observed one of a session up to the expected
one was carried by a datagram or is in a reported gap. -/
def Accounted (packets : List (List UInt8))
    (r : MoldUdp64Decoder × List MoldUdp64Event) : Prop :=
  ∀ session first expected, firstObserved packets session = some first →
    r.1.tracker.expectedNext session = some expected →
    ∀ n, first.toNat ≤ n → n < expected.toNat →
      (∃ packet ∈ packets, Carries packet session n) ∨
        Reported r.2 session n

/-- A datagram that ends beyond what is expected of its session holds as many
complete blocks as it declares. -/
def Complete (d : MoldUdp64Decoder) (packet : List UInt8) : Prop :=
  ∀ header frames tail, readHeader packet = some header →
    header.isEndOfSession = false →
    Decomposition (packet.drop HEADER_SIZE) frames tail →
    (∀ expected,
      d.tracker.expectedNext header.sessionView = some expected →
      expected.toNat <
        header.sequenceNumber.toNat + header.messageCount.toNat) →
    header.messageCount.toNat ≤ frames.length

variable {d : MoldUdp64Decoder} {packet : List UInt8}
  {packets : List (List UInt8)} {session : Str} {n : ℕ}

theorem parseBlocks_tracker (d : MoldUdp64Decoder) (blocks : List UInt8) :
    (d.parseBlocks blocks).1.tracker = d.tracker ∧
      ∀ e, .tracker e ∉ (d.parseBlocks blocks).2 := by
  refine ⟨rfl, fun e he => ?_⟩
  unfold parseBlocks at he
  dsimp only at he
  split at he
  · obtain ⟨m, -, hm⟩ := List.mem_map.mp he
    cases hm
  · exact List.not_mem_nil he

/-- The tracker is told of a datagram or it is not; the decoder calls what the
tracker does. -/
theorem step_tracker (d : MoldUdp64Decoder) (packet : List UInt8) :
    (d.step packet).1.tracker =
        (run SequenceTracker.step d.tracker (callOf packet).toList).1 ∧
      ∀ e, .tracker e ∈ (d.step packet).2 ↔
        e ∈ (run SequenceTracker.step d.tracker (callOf packet).toList).2 := by
  unfold callOf
  by_cases hlen : packet.length < HEADER_SIZE
  · rw [if_pos hlen, d.step_short hlen]
    simp
  · rw [if_neg hlen]
    rw [not_lt] at hlen
    obtain ⟨header, hheader⟩ := exists_readHeader hlen
    rw [hheader, Option.bind_some]
    cases hend : header.isEndOfSession with
    | true =>
        rw [if_pos rfl, d.step_endOfSession hlen hheader hend]
        simp [counted]
    | false =>
        rw [if_neg (by simp)]
        cases hbeat : header.isHeartbeat with
        | true =>
            rw [d.step_heartbeat hlen hheader hend hbeat]
            simp [observed, counted, run_cons]
        | false =>
            obtain ⟨htracker, hevents⟩ := parseBlocks_tracker
              (d.counted.observed header).1 (packet.drop HEADER_SIZE)
            rw [d.step_data hlen hheader hend hbeat, htracker]
            simp [observed, counted, run_cons]
            exact fun e he => absurd he (hevents e)

/-- The same for a whole run. -/
theorem run_tracker (d : MoldUdp64Decoder) (packets : List (List UInt8)) :
    (run step d packets).1.tracker =
        (run SequenceTracker.step d.tracker (packets.filterMap callOf)).1 ∧
      ∀ e, .tracker e ∈ (run step d packets).2 ↔
        e ∈ (run SequenceTracker.step d.tracker
          (packets.filterMap callOf)).2 := by
  induction packets using List.reverseRecOn with
  | nil => simp
  | append_singleton packets packet ih =>
      obtain ⟨htracker, hevents⟩ := ih
      obtain ⟨hstep, hcalls⟩ := step_tracker (run step d packets).1 packet
      have hsnoc : (packets ++ [packet]).filterMap callOf =
          packets.filterMap callOf ++ (callOf packet).toList := by
        cases h : callOf packet <;> simp [h]
      rw [run_snoc, hsnoc, run_append, hstep, htracker]
      rw [htracker] at hcalls
      refine ⟨rfl, fun e => ?_⟩
      rw [List.mem_append, List.mem_append, hevents, hcalls]

theorem callOf_eq_some {c : SequenceTracker.Call}
    (h : callOf packet = some c) : ∃ header,
      readHeader packet = some header ∧ header.isEndOfSession = false ∧
        c = header.call := by
  unfold callOf at h
  split at h
  · cases h
  · obtain ⟨header, hheader, h⟩ := Option.bind_eq_some_iff.mp h
    split at h
    · cases h
    · rename_i hend
      cases h
      exact ⟨header, hheader, by simpa using hend, rfl⟩

/-- Complete datagrams carry all they declare. -/
theorem carries_of_complete {header : MoldUdp64Header}
    (hpacket : d.Complete packet) (hheader : readHeader packet = some header)
    (hend : header.isEndOfSession = false)
    (hnew : ∀ expected,
      d.tracker.expectedNext header.sessionView = some expected →
      expected.toNat ≤ n)
    (hfirst : header.sequenceNumber.toNat ≤ n)
    (hlast : n <
      header.sequenceNumber.toNat + header.messageCount.toNat) :
    Carries packet header.sessionView n := by
  obtain ⟨frames, tail, hd⟩ :=
    Decomposition.exists (packet.drop HEADER_SIZE)
  have hcount := hpacket header frames tail hheader hend hd
    fun expected he => (hnew expected he).trans_lt hlast
  exact ⟨header, frames, tail, n - header.sequenceNumber.toNat, hheader, hend,
    rfl, hd, by omega, by omega, by omega⟩

theorem Reported.mono {events : List MoldUdp64Event}
    (h : Reported events session n) (events' : List MoldUdp64Event) :
    Reported (events ++ events') session n := by
  obtain ⟨expected, received, hmem, hn⟩ := h
  exact ⟨expected, received, List.mem_append_left _ hmem, hn⟩

/-- A datagram that was complete when it arrived accounts for what it moved
the expectation of its session over. -/
theorem step_accounts {header : MoldUdp64Header} {expected : UInt64}
    (hcomplete : d.Complete packet) (hcall : callOf packet = some header.call)
    (hheader : readHeader packet = some header)
    (hend : header.isEndOfSession = false)
    (hgap : d.tracker.gapCallback = true)
    (hexpected : (d.step packet).1.tracker.expectedNext header.sessionView =
      some expected)
    (hlt : n < expected.toNat)
    (hnew : match d.tracker.expectedNext header.sessionView with
      | none => header.sequenceNumber.toNat ≤ n
      | some e => e.toNat ≤ n) :
    Carries packet header.sessionView n ∨
      Reported (d.step packet).2 header.sessionView n := by
  obtain ⟨htracker, hevents⟩ := step_tracker d packet
  rw [hcall, Option.toList_some, run_cons, run_nil, List.append_nil]
    at htracker hevents
  rw [htracker] at hexpected
  have hcount : header.call.count.toNat = header.messageCount.toNat :=
    UInt16.toNat_toUInt64 _
  -- where the sum wraps around, the expectation is below the first number
  have hsum : expected = header.call.firstSequence + header.call.count →
      header.sequenceNumber.toNat ≤ n →
      n < header.sequenceNumber.toNat + header.messageCount.toNat := by
    rintro rfl hfirst
    rw [UInt64.toNat_add] at hlt
    have hmod := Nat.mod_le (header.call.firstSequence.toNat +
      header.call.count.toNat) (2 ^ 64)
    rw [hcount] at hmod hlt
    exact hlt.trans_le hmod
  cases he : d.tracker.expectedNext header.sessionView with
  | none =>
      rw [he] at hnew
      rw [show header.sessionView = header.call.session from rfl,
        SequenceTracker.expectedNext_step_unknown he] at hexpected
      refine .inl (carries_of_complete hcomplete hheader hend ?_ hnew
        (hsum (Option.some.inj hexpected).symm hnew))
      intro e he'
      rw [he] at he'
      cases he'
  | some e =>
      rw [he] at hnew
      rw [show header.sessionView = header.call.session from rfl,
        SequenceTracker.expectedNext_step he] at hexpected
      -- if the expectation moved, it moved over the datagram or over a gap
      split at hexpected
      · by_cases hfirst : header.sequenceNumber.toNat ≤ n
        · refine .inl (carries_of_complete hcomplete hheader hend ?_ hfirst
            (hsum (Option.some.inj hexpected).symm hfirst))
          intro e' he'
          rw [he] at he'
          cases he'
          exact hnew
        · have hgt : header.call.firstSequence > e :=
            UInt64.lt_iff_toNat_lt.mpr (hnew.trans_lt (not_le.mp hfirst))
          refine .inr ⟨e, header.sequenceNumber, (hevents _).mpr ?_, hnew,
            not_le.mp hfirst⟩
          exact SequenceTracker.gap_mem_step he hgap hgt
      · cases hexpected
        exact absurd hlt (not_lt.mpr hnew)

theorem firstObserved_singleton (packet : List UInt8) (session : Str) :
    firstObserved [packet] session =
      ((callOf packet).filter fun c => decide (c.session = session)).map
        SequenceTracker.Call.firstSequence := by
  unfold firstObserved
  cases h : callOf packet with
  | none => simp [h]
  | some c =>
      by_cases hs : c.session = session <;> simp [h, hs]

theorem firstObserved_snoc (packets : List (List UInt8))
    (packet : List UInt8) (session : Str) :
    firstObserved (packets ++ [packet]) session =
      (firstObserved packets session).or (firstObserved [packet] session) := by
  unfold firstObserved
  rw [List.filterMap_append, List.find?_append, Option.map_or]

/-- A session has a first number exactly when the tracker expects one. -/
theorem firstObserved_eq_none (hfresh : ∀ session,
      d.tracker.expectedNext session = none) (packets : List (List UInt8))
    (session : Str) :
    firstObserved packets session = none ↔
      (run step d packets).1.tracker.expectedNext session = none := by
  rw [(run_tracker d packets).1, SequenceTracker.expectedNext_run_eq_none,
    firstObserved, Option.map_eq_none_iff, List.find?_eq_none]
  simp [hfresh session]

theorem gapCallback_run (d : MoldUdp64Decoder)
    (packets : List (List UInt8)) :
    (run step d packets).1.tracker.gapCallback = d.tracker.gapCallback := by
  rw [(run_tracker d packets).1]
  exact (SequenceTracker.hooks_run _ _).1

/-- A datagram that was complete when it arrived leaves nothing
unaccounted. -/
theorem Accounted.snoc (hfresh : ∀ session,
      d.tracker.expectedNext session = none)
    (hgap : d.tracker.gapCallback = true)
    (h : Accounted packets (run step d packets))
    (hcomplete : (run step d packets).1.Complete packet) :
    Accounted (packets ++ [packet]) (run step d (packets ++ [packet])) := by
  intro session first expected hfirst hexpected n hle hlt
  have hknown := firstObserved_eq_none hfresh packets session
  have hgap : (run step d packets).1.tracker.gapCallback = true :=
    (gapCallback_run d packets).trans hgap
  obtain ⟨htracker, -⟩ := step_tracker (run step d packets).1 packet
  rw [firstObserved_snoc, firstObserved_singleton] at hfirst
  rw [run_snoc] at hexpected ⊢
  generalize run step d packets = r at *
  -- what was accounted for before still is
  have hkeep {e : UInt64} (hf : firstObserved packets session = some first)
      (he : r.1.tracker.expectedNext session = some e) (hn : n < e.toNat) :
      (∃ p ∈ packets ++ [packet], Carries p session n) ∨
        Reported (r.2 ++ (step r.1 packet).2) session n := by
    rcases h session first e hf he n hle hn with ⟨p, hp, hc⟩ | hrep
    · exact .inl ⟨p, List.mem_append_left _ hp, hc⟩
    · exact .inr (hrep.mono _)
  have hstep (hc : Carries packet session n ∨
      Reported (step r.1 packet).2 session n) :
      (∃ p ∈ packets ++ [packet], Carries p session n) ∨
        Reported (r.2 ++ (step r.1 packet).2) session n := by
    rcases hc with hc | ⟨e, e', hmem, hn⟩
    · exact .inl ⟨packet, by simp, hc⟩
    · exact .inr ⟨e, e', List.mem_append_right _ hmem, hn⟩
  cases hcall : callOf packet with
  | none =>
      rw [hcall] at htracker hfirst
      rw [htracker] at hexpected
      exact hkeep (by simpa using hfirst) hexpected hlt
  | some c =>
      obtain ⟨header, hheader, hend, rfl⟩ := callOf_eq_some hcall
      rw [hcall] at hfirst
      rw [hcall, Option.toList_some, run_cons, run_nil] at htracker
      by_cases hs : header.sessionView = session
      · subst hs
        have hnew := fun hnew => hstep (step_accounts (n := n) hcomplete hcall
          hheader hend hgap hexpected hlt hnew)
        cases he : r.1.tracker.expectedNext header.sessionView with
        | none =>
            rw [hknown.mpr he] at hfirst
            have hf : header.sequenceNumber = first := by
              simpa [MoldUdp64Header.call] using hfirst
            rw [he] at hnew
            exact hnew (hf ▸ hle)
        | some e =>
            obtain ⟨f, hf⟩ : ∃ f,
                firstObserved packets header.sessionView = some f := by
              refine Option.ne_none_iff_exists'.mp fun hf => ?_
              rw [hknown.mp hf] at he
              cases he
            rw [hf, Option.some_or] at hfirst
            rw [he] at hnew
            rcases lt_or_ge n e.toNat with hn | hn
            · exact hkeep (hf.trans hfirst) he hn
            · exact hnew hn
      · have hother : session ≠ header.call.session := Ne.symm hs
        rw [htracker, SequenceTracker.expectedNext_step_other _ _ hother]
          at hexpected
        refine hkeep ?_ hexpected hlt
        simpa [MoldUdp64Header.call, hs] using hfirst

/-- While every datagram that ends beyond what is expected of its session is
complete, each number from the first observed one of a session up to the
expected one was carried by a datagram or is in a reported gap. -/
theorem accounted_of_complete (requester : Bool)
    (packets : List (List UInt8))
    (h : Legal step Complete (fresh true requester) packets) :
    ∀ pre, pre <+: packets →
      Accounted pre (run step (fresh true requester) pre) := by
  intro pre hpre
  replace h := h.of_prefix hpre
  clear hpre
  induction pre using List.reverseRecOn with
  | nil =>
      intro session first expected hfirst
      cases hfirst
  | append_singleton pre packet ih =>
      obtain ⟨hpre, hpacket⟩ := legal_snoc.mp h
      exact (ih hpre).snoc (fun _ => rfl) rfl hpacket

/-- A datagram with one complete block, of `count` declared ones, and part of
another one. -/
def oneBlock (count : UInt16) (rest : List UInt8) : List UInt8 :=
  MoldUdp64Header.bytes { sequenceNumber := 1, messageCount := count } ++
    ([0, 1, 83] ++ rest)

theorem frames_oneBlock {header : MoldUdp64Header} {rest tail : List UInt8}
    {frames : List (List UInt8)} (hrest : IsTail rest)
    (h : Decomposition ((header.bytes ++ ([0, 1, 83] ++ rest)).drop HEADER_SIZE)
      frames tail) :
    frames = [[83]] := by
  have hone : Decomposition ([0, 1, 83] ++ rest) [[83]] rest :=
    ⟨by decide, rfl, hrest⟩
  rw [List.drop_left' (length_headerBytes _)] at h
  exact (h.unique hone).1

theorem readHeader_oneBlock (count : UInt16) (rest : List UInt8) :
    readHeader (oneBlock count rest) =
      some { sequenceNumber := 1, messageCount := count } :=
  readHeader_bytes _ _

/-- The first and the fourth message, and a datagram with the first three that
is cut short. -/
def gapAndDuplicate : List (List UInt8) :=
  [oneBlock 1 [],
    MoldUdp64Header.bytes { sequenceNumber := 4, messageCount := 1 } ++
      ([0, 1, 83] ++ []),
    oneBlock 3 [0]]

theorem callOf_bytes (header : MoldUdp64Header) (body : List UInt8)
    (hend : header.isEndOfSession = false) :
    callOf (header.bytes ++ body) = some header.call := by
  have hlen : ¬(header.bytes ++ body).length < HEADER_SIZE := by
    rw [List.length_append, length_headerBytes]
    omega
  rw [callOf, if_neg hlen, readHeader_bytes, Option.bind_some, hend]
  rfl

/-- The second and the third message are reported, although the last datagram
does not have them either. -/
theorem accounted_of_complete_gapAndDuplicate :
    Accounted gapAndDuplicate (run step (fresh true false) gapAndDuplicate) := by
  refine accounted_of_complete false gapAndDuplicate ⟨?_, ?_, ?_, trivial⟩ _
    (List.prefix_refl _)
  · intro header frames tail hheader _ hd _
    rw [readHeader_oneBlock] at hheader
    rw [frames_oneBlock .empty hd]
    cases hheader
    decide
  · intro header frames tail hheader _ hd _
    rw [readHeader_bytes] at hheader
    rw [frames_oneBlock .empty hd]
    cases hheader
    decide
  · intro header frames tail hheader _ _ hbeyond
    rw [readHeader_oneBlock] at hheader
    cases hheader
    -- the datagram ends before what is expected by then
    obtain ⟨htracker, -⟩ := run_tracker (fresh true false)
      (gapAndDuplicate.take 2)
    have hcalls : (gapAndDuplicate.take 2).filterMap callOf =
        [⟨[], 1, 1⟩, ⟨[], 4, 1⟩] := by
      show List.filterMap callOf [oneBlock 1 [], _ ++ _] = _
      rw [oneBlock, List.filterMap_cons_some (callOf_bytes _ _ rfl),
        List.filterMap_cons_some (callOf_bytes _ _ rfl)]
      rfl
    have hexpected : (run step (fresh true false)
        (gapAndDuplicate.take 2)).1.tracker.expectedNext [] = some 5 := by
      rw [htracker, hcalls]
      rfl
    exact absurd (hbeyond 5 hexpected) (by decide)

/-- Three messages are declared and one is there: the second is neither
carried nor reported nor expected any more. -/
theorem not_accounted_cutShort :
    ¬Accounted [oneBlock 3 [0]]
      (run step (fresh true false) [oneBlock 3 [0]]) := by
  intro h
  obtain ⟨htracker, hevents⟩ :=
    run_tracker (fresh true false) [oneBlock 3 [0]]
  have hcalls : [oneBlock 3 [0]].filterMap callOf = [⟨[], 1, 3⟩] := by
    rw [oneBlock, List.filterMap_cons_some (callOf_bytes _ _ rfl)]
    rfl
  have hexpected : (run step (fresh true false)
      [oneBlock 3 [0]]).1.tracker.expectedNext [] = some 4 := by
    rw [htracker, hcalls]
    rfl
  have hfirst : firstObserved [oneBlock 3 [0]] [] = some 1 := by
    rw [firstObserved, hcalls]
    rfl
  rcases h [] 1 4 hfirst hexpected 2 (by decide) (by decide) with hc | hr
  · obtain ⟨packet, hpacket, header, frames, tail, i, hheader, -, -, hd, hi,
      -, hn⟩ := hc
    obtain rfl := List.mem_singleton.mp hpacket
    rw [readHeader_oneBlock] at hheader
    rw [frames_oneBlock (.byte 0) hd] at hi
    cases hheader
    obtain rfl := Nat.lt_one_iff.mp hi
    exact absurd hn (by decide)
  · obtain ⟨expected, received, hmem, -⟩ := hr
    rw [hevents, hcalls] at hmem
    exact absurd hmem List.not_mem_nil

/-! ## §5  Datagrams that hold more -/

def delivered (events : List MoldUdp64Event) : List Message :=
  events.filterMap MoldUdp64Event.message?

/-- The messages the tracker is told of. -/
def announced (header : MoldUdp64Header) : ℕ :=
  if header.isEndOfSession then 0 else header.messageCount.toNat

/-- No more messages are delivered than the header announces. -/
def KeepsCount (d : MoldUdp64Decoder) (packet : List UInt8) : Prop :=
  ∀ header, readHeader packet = some header →
    (delivered (d.step packet).2).length ≤ announced header

theorem le_length_of_readHeader (h : readHeader packet = some header) :
    HEADER_SIZE ≤ packet.length := by
  obtain ⟨session, -, h⟩ := Option.bind_eq_some_iff.mp h
  obtain ⟨sequence, -, h⟩ := Option.bind_eq_some_iff.mp h
  obtain ⟨count, hcount, -⟩ := Option.bind_eq_some_iff.mp h
  obtain ⟨⟨a, last⟩, hread, -⟩ := Option.map_eq_some_iff.mp hcount
  rw [unpack, map_apply] at hread
  obtain ⟨s, htake, -⟩ := Option.map_eq_some_iff.mp hread
  unfold ByteCursor.take at htake
  split at htake
  · assumption
  · cases htake

theorem delivered_observed (d : MoldUdp64Decoder) (header : MoldUdp64Header) :
    delivered (d.observed header).2 = [] := by
  unfold observed delivered
  rw [List.filterMap_map]
  exact List.filterMap_eq_nil_iff.mpr fun _ _ => rfl

theorem delivered_data (hlen : HEADER_SIZE ≤ packet.length)
    (hheader : readHeader packet = some header)
    (hend : header.isEndOfSession = false)
    (hbeat : header.isHeartbeat = false) :
    delivered (d.step packet).2 =
      if d.callback then
        (d.parser.parse (packet.drop HEADER_SIZE)).messages
      else [] := by
  have hobserved := d.counted.delivered_observed header
  unfold delivered at hobserved ⊢
  rw [d.step_data hlen hheader hend hbeat, List.filterMap_append,
    List.filterMap_append, hobserved]
  unfold parseBlocks
  show [] ++ List.filterMap _ (if d.callback then _ else _) ++ [] = _
  rw [List.nil_append, List.append_nil]
  split
  · rw [List.filterMap_map]
    exact List.filterMap_some
  · rfl

/-- A datagram delivers no more than it announces exactly when it is a
heartbeat, ends the session, or holds no more blocks that can be decoded than
its header counts. -/
theorem keepsCount_iff (d : MoldUdp64Decoder) (packet : List UInt8) :
    d.KeepsCount packet ↔
      ∀ header frames tail, readHeader packet = some header →
        d.callback = true → header.isEndOfSession = false →
        header.isHeartbeat = false →
        Decomposition (packet.drop HEADER_SIZE) frames tail →
        (frames.filter fun f => decide (Overlay.Accepted f)).length ≤
          header.messageCount.toNat := by
  constructor
  · intro h header frames tail hheader hcallback hend hbeat hd
    have hle := h header hheader
    have hlen := le_length_of_readHeader hheader
    rw [delivered_data hlen hheader hend hbeat, if_pos hcallback,
      ← (Overlay.forall₂_parse d.parser hd).length_eq] at hle
    rwa [announced, hend] at hle
  · intro h header hheader
    have hlen := le_length_of_readHeader hheader
    cases hend : header.isEndOfSession with
    | true =>
        rw [d.step_endOfSession hlen hheader hend]
        exact Nat.zero_le _
    | false =>
        cases hbeat : header.isHeartbeat with
        | true =>
            have hobserved := d.counted.delivered_observed header
            rw [d.step_heartbeat hlen hheader hend hbeat]
            unfold delivered at hobserved ⊢
            rw [List.filterMap_append, hobserved]
            exact Nat.zero_le _
        | false =>
            obtain ⟨frames, tail, hd⟩ :=
              Decomposition.exists (packet.drop HEADER_SIZE)
            rw [delivered_data hlen hheader hend hbeat]
            split
            · rename_i hcallback
              rw [← (Overlay.forall₂_parse d.parser hd).length_eq, announced,
                hend]
              exact h header frames tail hheader hcallback hend hbeat hd
            · exact Nat.zero_le _

/-- Two blocks behind a header that counts one. -/
def twoForOne : List UInt8 :=
  MoldUdp64Header.bytes { sequenceNumber := 1, messageCount := 1 } ++
    (List.replicate 2 (encodeFrame (.systemEvent {}))).flatten

theorem not_keepsCount_twoForOne :
    ¬(fresh true true).KeepsCount twoForOne := by
  intro h
  have hheader : readHeader twoForOne =
      some { sequenceNumber := 1, messageCount := 1 } := readHeader_bytes _ _
  have hlen := le_length_of_readHeader hheader
  have hle := h _ hheader
  have hbody : twoForOne.drop HEADER_SIZE = ([.systemEvent {},
      .systemEvent {}].map encodeFrame).flatten :=
    List.drop_left' (length_headerBytes _)
  rw [delivered_data hlen hheader rfl rfl, hbody, parse_messages] at hle
  · revert hle
    decide
  · intro m hm
    simp only [List.mem_cons, List.not_mem_nil, or_false, or_self] at hm
    subst hm
    exact ⟨rfl, by decide⟩

end MoldUdp64Decoder

end Itch.Transport
