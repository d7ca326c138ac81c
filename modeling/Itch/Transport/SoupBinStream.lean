import Itch.Wire.RoundTrip
import Itch.Transport.MoldUdp64
import Itch.Transport.SoupBinSequence

/-!
# What a SoupBinTCP stream delivers

§1 writes the packets of a server and says what they are for a client: a
message, an event, a number. §2 follows one packet through the decoder and §3
a stream of them, also over several connections.
-/

namespace Itch.Transport

open ByteCursor Transducer

/-! ## §1  Packets -/

/-- A packet of a server. A control packet is of none of the types of the
others. -/
inductive SoupBinPacket
  | loginAccepted (session : Chars 10) (sequence : Chars 20)
  | sequenced (message : Message)
  | unsequenced (message : Message)
  | control (type : UInt8) (payload : List UInt8)

/-- The session that the client is in, and the number that comes next. -/
structure Position where
  session : Str := []
  next : UInt64 := 1

namespace SoupBinPacket

def bytes : SoupBinPacket → List UInt8
  | .loginAccepted session sequence =>
      'A'.toUInt8 :: (session.val ++ sequence.val)
  | .sequenced message => 'S'.toUInt8 :: encodeMessage message
  | .unsequenced message => 'U'.toUInt8 :: encodeMessage message
  | .control type payload => type :: payload

structure Sendable (x : SoupBinPacket) : Prop where
  message : ∀ m, x = .sequenced m ∨ x = .unsequenced m →
    m.OwnType ∧ m.header.timestamp < 2 ^ 48
  control : ∀ type payload, x = .control type payload →
    SoupBinPacketType.ofChar type ∉
      [.loginAccepted, .sequencedData, .unsequencedData]
  small : x.bytes.length < 2 ^ 16

def messages : SoupBinPacket → List Message
  | .sequenced message | .unsequenced message => [message]
  | .loginAccepted .. | .control .. => []

/-- What the callbacks are to be called with. -/
def deliveries : SoupBinPacket → List SoupBinEvent
  | .loginAccepted session sequence =>
      [.event .loginAccepted (session.val ++ sequence.val)]
  | .sequenced message | .unsequenced message => [.message message]
  | .control type payload => [.event (.ofChar type) payload]

/-- A login moves the client to its start number, a sequenced message to the
number behind its own. -/
def advance (p : Position) : SoupBinPacket → Position
  | .loginAccepted session sequence =>
      ⟨trimField session.val, .ofNat (startNumber sequence.val)⟩
  | .sequenced _ => ⟨p.session, p.next + 1⟩
  | .unsequenced _ | .control .. => p

/-- What the tracker is told of a packet. -/
def call (p : Position) : SoupBinPacket → Option SequenceTracker.Call
  | .sequenced _ => some ⟨p.session, p.next, 1⟩
  | _ => none

/-- The calls of the tracker for a stream. -/
def calls : Position → List SoupBinPacket → List SequenceTracker.Call
  | _, [] => []
  | p, x :: xs => (x.call p).toList ++ calls (x.advance p) xs

end SoupBinPacket

/-! ## §2  One packet -/

namespace SoupBinDecoder

def position (d : SoupBinDecoder) : Position := ⟨d.session, d.nextSequence⟩

/-- The decoder at another position, with another tracker and more messages
decoded. -/
def moved (d : SoupBinDecoder) (p : Position) (tracker : SequenceTracker)
    (messages : ℕ) : SoupBinDecoder :=
  { d with
    session := p.session
    nextSequence := p.next
    tracker
    messagesDecoded := d.messagesDecoded + .ofNat messages }

/-- The bytes of a message are decoded to that message. -/
theorem decodeApplicationMessage_encode (d : SoupBinDecoder)
    (hcallback : d.callback = true) {m : Message} (htype : m.OwnType)
    (htime : m.header.timestamp < 2 ^ 48) :
    d.decodeApplicationMessage (encodeMessage m) =
      ({ d with messagesDecoded := d.messagesDecoded + 1 },
        [.message m]) := by
  have hne := (frameEvent_encodeMessage m htype htime).1
  have hsmall := StreamItem.length_payload (some m)
  change (encodeMessage m).length < 2 ^ 16 at hsmall
  have hframe : encodeBE LENGTH_PREFIX_SIZE (encodeMessage m).length ++
      encodeMessage m = ([m].map encodeFrame).flatten :=
    (StreamItem.bytes_eq (some m)).symm.trans (List.append_nil _).symm
  have hparse := MoldUdp64Decoder.parse_messages d.parser
    (List.forall_mem_singleton.mpr ⟨htype, htime⟩)
  have hguard : ¬(encodeMessage m = [] ∨
      (encodeMessage m).length > MAX_WIRE_MESSAGE_LEN) := by
    rintro (h | h)
    · exact hne h
    · exact absurd hsmall (Nat.not_lt.mpr h)
  rw [decodeApplicationMessage, if_neg hguard]
  dsimp only
  rw [hframe, hparse, hcallback]
  rfl

variable {d : SoupBinDecoder} {x : SoupBinPacket}

theorem notify_eq (hevents : d.eventCallback = true)
    (type : SoupBinPacketType) (payload : List UInt8) :
    d.notify type payload = (d, [.event type payload]) := by
  rw [notify, if_pos hevents]

theorem packet_loginAccepted (hevents : d.eventCallback = true)
    (session : Chars 10) (sequence : Chars 20) :
    d.packet (SoupBinPacket.loginAccepted session sequence).bytes =
      (d.moved ⟨trimField session.val, .ofNat (startNumber sequence.val)⟩
          d.tracker 0,
        [.event .loginAccepted (session.val ++ sequence.val)]) := by
  have hlen : (session.val ++ sequence.val).length ≥
      LOGIN_SESSION_SIZE + LOGIN_SEQUENCE_SIZE := by
    rw [List.length_append, session.property, sequence.property]
    exact le_rfl
  have hsession : (session.val ++ sequence.val).take LOGIN_SESSION_SIZE =
      session.val := List.take_left' session.property
  have hsequence : ((session.val ++ sequence.val).drop
      LOGIN_SESSION_SIZE).take LOGIN_SEQUENCE_SIZE = sequence.val := by
    rw [show LOGIN_SESSION_SIZE = 10 from rfl,
      List.drop_left' session.property]
    exact List.take_of_length_le sequence.property.le
  have hstart := toNat_startNumber sequence.val
  show d.processPacket .loginAccepted _ = _
  rw [processPacket, if_pos hlen]
  dsimp only
  rw [hsession, hsequence, notify_eq (by exact hevents), ← hstart,
    UInt64.ofNat_toNat, moved]
  simp

theorem packet_control (hevents : d.eventCallback = true) {type : UInt8}
    (htype : SoupBinPacketType.ofChar type ∉
      [.loginAccepted, .sequencedData, .unsequencedData])
    (payload : List UInt8) :
    d.packet (SoupBinPacket.control type payload).bytes =
      (d, [.event (.ofChar type) payload]) := by
  show d.processPacket (.ofChar type) payload = _
  cases h : SoupBinPacketType.ofChar type with
  | loginAccepted => simp [h] at htype
  | sequencedData => simp [h] at htype
  | unsequencedData => simp [h] at htype
  | _ => exact notify_eq hevents _ payload

/-- The decoder after a packet, and what it has called. -/
theorem packet_bytes (hcallback : d.callback = true)
    (hevents : d.eventCallback = true) (hx : x.Sendable) :
    d.packet x.bytes =
      (d.moved (x.advance d.position)
          (run SequenceTracker.step d.tracker (x.call d.position).toList).1
          x.messages.length,
        (run SequenceTracker.step d.tracker
            (x.call d.position).toList).2.map .tracker ++ x.deliveries) := by
  cases x with
  | loginAccepted session sequence =>
      exact packet_loginAccepted hevents session sequence
  | control type payload =>
      rw [packet_control hevents (hx.control type payload rfl)]
      simp [moved, position, SoupBinPacket.advance, SoupBinPacket.call,
        SoupBinPacket.messages, SoupBinPacket.deliveries]
  | unsequenced m =>
      obtain ⟨htype, htime⟩ := hx.message m (.inr rfl)
      exact decodeApplicationMessage_encode d hcallback htype htime
  | sequenced m =>
      obtain ⟨htype, htime⟩ := hx.message m (.inl rfl)
      have hdecode := decodeApplicationMessage_encode
        { d with
          tracker := (d.tracker.observe d.session d.nextSequence 1).tracker
          nextSequence := d.nextSequence + 1 } hcallback htype htime
      show d.processPacket .sequencedData (encodeMessage m) = _
      rw [processPacket]
      dsimp only
      rw [hdecode]
      simp [moved, position, SoupBinPacket.advance, SoupBinPacket.call,
        SoupBinPacket.messages, SoupBinPacket.deliveries, run_cons,
        SequenceTracker.step]

/-! ## §3  A stream -/

/-- Where the packets lead a client. -/
def goTo (p : Position) (xs : List SoupBinPacket) : Position :=
  xs.foldl (fun p x => x.advance p) p

variable {xs : List SoupBinPacket}

theorem run_packets_decoder (hcallback : d.callback = true)
    (hevents : d.eventCallback = true) (hxs : ∀ x ∈ xs, x.Sendable) :
    (run packet d (xs.map SoupBinPacket.bytes)).1 =
      d.moved (goTo d.position xs)
        (run SequenceTracker.step d.tracker
          (SoupBinPacket.calls d.position xs)).1
        (xs.flatMap SoupBinPacket.messages).length := by
  induction xs generalizing d with
  | nil => simp [moved, goTo, position, SoupBinPacket.calls]
  | cons x xs ih =>
      obtain ⟨hx, hxs⟩ := List.forall_mem_cons.mp hxs
      rw [List.map_cons, run_cons, packet_bytes hcallback hevents hx,
        ih (by exact hcallback) (by exact hevents) hxs,
        SoupBinPacket.calls, run_append, List.flatMap_cons,
        List.length_append]
      simp only [moved, goTo, position, List.foldl_cons, UInt64.ofNat_add,
        UInt64.add_assoc]

theorem run_packets_calls (hcallback : d.callback = true)
    (hevents : d.eventCallback = true) (hxs : ∀ x ∈ xs, x.Sendable) :
    (run packet d (xs.map SoupBinPacket.bytes)).2.filter
        SoupBinEvent.isDelivery = xs.flatMap SoupBinPacket.deliveries ∧
      (run packet d (xs.map SoupBinPacket.bytes)).2.filterMap
          SoupBinEvent.tracker? =
        (run SequenceTracker.step d.tracker
          (SoupBinPacket.calls d.position xs)).2 := by
  induction xs generalizing d with
  | nil => exact ⟨rfl, rfl⟩
  | cons x xs ih =>
      obtain ⟨hx, hxs⟩ := List.forall_mem_cons.mp hxs
      have hx' := packet_bytes hcallback hevents hx
      obtain ⟨hdeliveries, htracker⟩ := ih (d := (d.packet x.bytes).1)
        (by rw [hx']; exact hcallback) (by rw [hx']; exact hevents) hxs
      have hdelivered : x.deliveries.filter SoupBinEvent.isDelivery =
          x.deliveries ∧ x.deliveries.filterMap SoupBinEvent.tracker? = [] :=
        by cases x <;> exact ⟨rfl, rfl⟩
      rw [List.map_cons, run_cons, SoupBinPacket.calls, run_append]
      simp only [List.filter_append, List.filterMap_append, hdeliveries,
        htracker]
      rw [hx']
      constructor
      · rw [List.filter_append, hdelivered.1, List.filter_map,
          List.filter_eq_nil_iff.mpr (by simp [SoupBinEvent.isDelivery])]
        rfl
      · rw [List.filterMap_append, hdelivered.2, List.append_nil,
          List.filterMap_map]
        congr 1
        exact List.filterMap_some

theorem messagesOf_deliveries (xs : List SoupBinPacket) :
    messagesOf (xs.flatMap SoupBinPacket.deliveries) =
      xs.flatMap SoupBinPacket.messages := by
  unfold messagesOf
  rw [List.filterMap_flatMap]
  congr 1
  ext x : 1
  cases x <;> rfl

/-- **A stream delivers what was sent.** The packets of a server come in any
chunks, also over several connections that each end behind a packet. The
callbacks are called with their messages and their events, in order. The
decoder stands where the logins and the sequenced messages lead a client, and
has told the tracker of each sequenced message under its own number. -/
theorem stream_delivers (gapCallback requester : Bool)
    (xs : List SoupBinPacket) (hxs : ∀ x ∈ xs, x.Sendable)
    (chunks : List (List UInt8))
    (hchunks : chunks.flatten =
      (xs.map fun x => frameBytes x.bytes).flatten) :
    (run feed (fresh true true gapCallback requester) chunks).2.filter
        SoupBinEvent.isDelivery = xs.flatMap SoupBinPacket.deliveries ∧
    messagesOf (run feed (fresh true true gapCallback requester) chunks).2 =
      xs.flatMap SoupBinPacket.messages ∧
    (run feed (fresh true true gapCallback requester) chunks).2.filterMap
        SoupBinEvent.tracker? =
      (run SequenceTracker.step (.fresh gapCallback requester)
        (SoupBinPacket.calls {} xs)).2 ∧
    (run feed (fresh true true gapCallback requester) chunks).1 =
      (fresh true true gapCallback requester).moved (goTo {} xs)
        (run SequenceTracker.step (.fresh gapCallback requester)
          (SoupBinPacket.calls {} xs)).1
        (xs.flatMap SoupBinPacket.messages).length := by
  have hd : Decomposition chunks.flatten (xs.map SoupBinPacket.bytes) [] := by
    refine ⟨?_, ?_, .empty⟩
    · intro bytes hbytes
      obtain ⟨x, hx, rfl⟩ := List.mem_map.mp hbytes
      exact (hxs x hx).small
    · rw [hchunks, List.append_nil, List.map_map]
      rfl
  have hrun := run_feed (d := fresh true true gapCallback requester) .empty hd
  obtain ⟨hdeliveries, htracker⟩ := run_packets_calls
    (d := fresh true true gapCallback requester) rfl rfl hxs
  have hdecoder := run_packets_decoder
    (d := fresh true true gapCallback requester) rfl rfl hxs
  rw [hrun]
  refine ⟨hdeliveries, ?_, htracker, ?_⟩
  · rw [← messagesOf_filter, hdeliveries, messagesOf_deliveries]
  · dsimp only
    rw [hdecoder]
    rfl

/-- A login at 205, a message, and the heartbeats around it. -/
def shortStream : List SoupBinPacket :=
  [.loginAccepted ⟨List.replicate 10 65, rfl⟩
      ⟨List.replicate 17 32 ++ [50, 48, 53], rfl⟩,
    .control 72 [], .sequenced (.systemEvent { timestamp := 7 }),
    .control 72 []]

theorem stream_delivers_shortStream :
    messagesOf (run feed (fresh true true true true)
      [(shortStream.map fun x => frameBytes x.bytes).flatten]).2 =
        [.systemEvent { timestamp := 7 }] := by
  refine (stream_delivers true true shortStream ?_ _
    List.flatten_singleton).2.1
  intro x hx
  simp only [shortStream, List.mem_cons, List.not_mem_nil, or_false] at hx
  rcases hx with rfl | rfl | rfl | rfl
  · exact ⟨by simp, by simp, by decide⟩
  · exact ⟨by simp, by rintro _ _ ⟨⟩; decide, by decide⟩
  · refine ⟨?_, by simp, by decide⟩
    rintro m (⟨⟨⟩⟩ | ⟨⟨⟩⟩)
    exact ⟨rfl, by decide⟩
  · exact ⟨by simp, by rintro _ _ ⟨⟩; decide, by decide⟩

end SoupBinDecoder

end Itch.Transport
