import Mathlib.Data.List.DropRight
import Itch.Wire.Framing
import Itch.Transport.Sequencing

/-!
# The SoupBinTCP decoder

§1 is the decoder. The packets of SoupBinTCP are cut up as the frames of the
parser are; §2 follows the loop of `feed` over them, and §3 proves that the
chunks the stream came in do not matter.
-/

namespace Itch.Transport

open ByteCursor Transducer

/-! ## §1  The decoder -/

/-- The type byte of a packet; a byte that is none of the defined types is
`other`. -/
inductive SoupBinPacketType
  | debug
  | loginAccepted
  | loginRejected
  | sequencedData
  | serverHeartbeat
  | endOfSession
  | loginRequest
  | unsequencedData
  | clientHeartbeat
  | logoutRequest
  | other (value : UInt8)
deriving DecidableEq, Repr

def SoupBinPacketType.ofChar (c : UInt8) : SoupBinPacketType :=
  if c = '+'.toUInt8 then .debug
  else if c = 'A'.toUInt8 then .loginAccepted
  else if c = 'J'.toUInt8 then .loginRejected
  else if c = 'S'.toUInt8 then .sequencedData
  else if c = 'H'.toUInt8 then .serverHeartbeat
  else if c = 'Z'.toUInt8 then .endOfSession
  else if c = 'L'.toUInt8 then .loginRequest
  else if c = 'U'.toUInt8 then .unsequencedData
  else if c = 'R'.toUInt8 then .clientHeartbeat
  else if c = 'O'.toUInt8 then .logoutRequest
  else .other c

/-- What the decoder and its tracker call. -/
inductive SoupBinEvent
  | message (message : Message)
  | event (type : SoupBinPacketType) (payload : List UInt8)
  | tracker (event : TrackerEvent)

namespace SoupBinEvent

def message? : SoupBinEvent → Option Message
  | .message m => some m
  | _ => none

def tracker? : SoupBinEvent → Option TrackerEvent
  | .tracker e => some e
  | _ => none

/-- A call of one of the user's callbacks. -/
def isDelivery : SoupBinEvent → Bool
  | .tracker _ => false
  | _ => true

end SoupBinEvent

def LENGTH_PREFIX_SIZE : ℕ := 2
def LOGIN_SESSION_SIZE : ℕ := 10
def LOGIN_SEQUENCE_SIZE : ℕ := 20
def MAX_WIRE_MESSAGE_LEN : ℕ := 0xFFFF

/-- Trims trailing spaces. -/
def trimField (field : List UInt8) : Str :=
  field.rdropWhile (· == ' '.toUInt8)

/-- `std::from_chars` for an unsigned number: the digits at the front, and no
value where there are none or where they do not fit. -/
def fromChars (text : Str) : Option UInt64 :=
  let digits := text.takeWhile
    fun c => '0'.toUInt8 ≤ c && c ≤ '9'.toUInt8
  let value := digits.foldl
    (fun value c => 10 * value + (c.toNat - '0'.toNat)) 0
  if digits ≠ [] ∧ value < 2 ^ 64 then some (.ofNat value) else none

def parseSequenceField (field : List UInt8) : UInt64 :=
  let text := (trimField field).dropWhile (· == ' '.toUInt8)
  (fromChars text).getD 0

/-- `callback` and `eventCallback` say whether the callbacks are installed. -/
structure SoupBinDecoder where
  callback : Bool := true
  eventCallback : Bool := false
  parser : Parser := {}
  tracker : SequenceTracker := {}
  buffer : List UInt8 := []
  session : Str := []
  nextSequence : UInt64 := 1
  messagesDecoded : UInt64 := 0

namespace SoupBinDecoder

/-- Puts the length in front of the payload again and parses that. What the
parser throws is swallowed. -/
def decodeApplicationMessage (d : SoupBinDecoder) (payload : List UInt8) :
    SoupBinDecoder × List SoupBinEvent :=
  if payload = [] ∨ payload.length > MAX_WIRE_MESSAGE_LEN then (d, [])
  else
    let framed := encodeBE LENGTH_PREFIX_SIZE payload.length ++ payload
    let outcome := d.parser.parse framed
    ({ d with
        parser := outcome.1
        messagesDecoded :=
          d.messagesDecoded + .ofNat outcome.messages.length },
      if d.callback then outcome.messages.map .message else [])

/-- The end of `process_packet`. -/
def notify (d : SoupBinDecoder) (type : SoupBinPacketType)
    (payload : List UInt8) : SoupBinDecoder × List SoupBinEvent :=
  (d, if d.eventCallback then [.event type payload] else [])

def processPacket (d : SoupBinDecoder) (type : SoupBinPacketType)
    (payload : List UInt8) : SoupBinDecoder × List SoupBinEvent :=
  match type with
  | .loginAccepted =>
      if payload.length ≥ LOGIN_SESSION_SIZE + LOGIN_SEQUENCE_SIZE then
        let session := trimField (payload.take LOGIN_SESSION_SIZE)
        let nextSequence := parseSequenceField
          ((payload.drop LOGIN_SESSION_SIZE).take LOGIN_SEQUENCE_SIZE)
        let nextSequence := if nextSequence = 0 then 1 else nextSequence
        { d with session, nextSequence }.notify type payload
      else d.notify type payload
  | .sequencedData =>
      let observed := d.tracker.observe d.session d.nextSequence 1
      let d := { d with
        tracker := observed.tracker
        nextSequence := d.nextSequence + 1 }
      let (d, events) := d.decodeApplicationMessage payload
      (d, observed.events.map .tracker ++ events)
  | .unsequencedData => d.decodeApplicationMessage payload
  | .debug | .loginRejected | .serverHeartbeat | .endOfSession
  | .loginRequest | .clientHeartbeat | .logoutRequest | .other _ =>
      d.notify type payload

/-- The loop of `feed` from `offset` on. The consumed bytes are dropped at its
end. -/
def feedLoop (buffer : List UInt8) (d : SoupBinDecoder) (offset : ℕ) :
    SoupBinDecoder × List SoupBinEvent :=
  if buffer.length - offset ≥ LENGTH_PREFIX_SIZE then
    let packetLength :=
      decodeBE ((buffer.drop offset).take LENGTH_PREFIX_SIZE)
    if packetLength = 0 then
      feedLoop buffer d (offset + LENGTH_PREFIX_SIZE)
    else if buffer.length - offset < LENGTH_PREFIX_SIZE + packetLength then
      -- The rest of this packet has not arrived yet.
      ({ d with buffer := buffer.drop offset }, [])
    else
      let type := SoupBinPacketType.ofChar
        (buffer.getD (offset + LENGTH_PREFIX_SIZE) 0)
      let payload := (buffer.drop (offset + LENGTH_PREFIX_SIZE + 1)).take
        (packetLength - 1)
      let (d, events) := d.processPacket type payload
      let (d, events') := feedLoop buffer d
        (offset + (LENGTH_PREFIX_SIZE + packetLength))
      (d, events ++ events')
  else ({ d with buffer := buffer.drop offset }, [])
termination_by buffer.length - offset
decreasing_by all_goals simp only [LENGTH_PREFIX_SIZE] at *; omega

def feed (d : SoupBinDecoder) (bytes : List UInt8) :
    SoupBinDecoder × List SoupBinEvent :=
  feedLoop (d.buffer ++ bytes) d 0

/-! ## §2  The packets of a stream -/

variable {d : SoupBinDecoder} {buffer tail : List UInt8} {offset : ℕ}

/-- The bytes of one packet behind its length; there are none in a
zero-length frame. -/
def packet (d : SoupBinDecoder) :
    List UInt8 → SoupBinDecoder × List SoupBinEvent
  | [] => (d, [])
  | c :: payload => d.processPacket (.ofChar c) payload

def setBuffer (d : SoupBinDecoder) (buffer : List UInt8) : SoupBinDecoder :=
  { d with buffer }

theorem decodeApplicationMessage_setBuffer (d : SoupBinDecoder)
    (buffer payload : List UInt8) :
    (d.setBuffer buffer).decodeApplicationMessage payload =
      ((d.decodeApplicationMessage payload).1.setBuffer buffer,
        (d.decodeApplicationMessage payload).2) := by
  unfold decodeApplicationMessage
  split <;> rfl

/-- A packet is processed without a look at the buffer. -/
theorem packet_setBuffer (bytes : List UInt8) :
    (d.setBuffer buffer).packet bytes =
      ((d.packet bytes).1.setBuffer buffer, (d.packet bytes).2) := by
  cases bytes with
  | nil => rfl
  | cons c payload =>
      unfold packet processPacket
      dsimp only
      cases SoupBinPacketType.ofChar c with
      | loginAccepted => dsimp only; split <;> rfl
      | sequencedData =>
          have h := decodeApplicationMessage_setBuffer
            { d with
              tracker := (d.tracker.observe d.session d.nextSequence 1).tracker
              nextSequence := d.nextSequence + 1 } buffer payload
          exact congrArg (fun r => (r.1, _ ++ r.2)) h
      | unsequencedData =>
          exact decodeApplicationMessage_setBuffer d buffer payload
      | _ => rfl

theorem run_packet_setBuffer (frames : List (List UInt8)) :
    run packet (d.setBuffer buffer) frames =
      ((run packet d frames).1.setBuffer buffer,
        (run packet d frames).2) := by
  induction frames generalizing d with
  | nil => rfl
  | cons bytes frames ih =>
      rw [run_cons, run_cons, packet_setBuffer, ih]

/-- The loop where a packet begins. -/
theorem feedLoop_frame {bytes rest : List UInt8}
    (hbuffer : buffer.drop offset = frameBytes bytes ++ rest)
    (hsmall : bytes.length < 2 ^ 16) :
    feedLoop buffer d offset =
      ((feedLoop buffer (d.packet bytes).1 (offset + (2 + bytes.length))).1,
        (d.packet bytes).2 ++
          (feedLoop buffer (d.packet bytes).1
            (offset + (2 + bytes.length))).2) := by
  obtain ⟨hlen, hdecode, hpayload, -⟩ := drop_frame hbuffer hsmall
  rw [feedLoop]
  simp only [LENGTH_PREFIX_SIZE, hdecode]
  rw [if_pos (by omega)]
  cases bytes with
  | nil => rfl
  | cons c payload =>
      have htype : buffer.getD (offset + 2) 0 = c := by
        rw [List.getD_eq_getElem?_getD, ← List.head?_drop, hpayload]
        rfl
      have hrest : (buffer.drop (offset + 2 + 1)).take
          ((c :: payload).length - 1) = payload := by
        rw [← List.drop_drop, hpayload]
        exact List.take_left' rfl
      rw [if_neg (by simp), if_neg (by omega), htype, hrest]
      rfl

theorem feedLoop_tail (hbuffer : buffer.drop offset = tail)
    (htail : IsTail tail) :
    feedLoop buffer d offset = (d.setBuffer tail, []) := by
  have hlen : buffer.length - offset = tail.length := by
    rw [← List.length_drop, hbuffer]
  rw [feedLoop]
  simp only [LENGTH_PREFIX_SIZE, hbuffer]
  cases htail with
  | empty => rw [if_neg (by simp [hlen])]; rfl
  | byte b => rw [if_neg (by simp [hlen])]; rfl
  | short n payload hn hlt =>
      obtain ⟨hlen, hdecode⟩ := drop_short hbuffer hn
      rw [hbuffer] at hdecode
      rw [if_pos (by omega), hdecode, if_neg (by omega), if_pos (by omega)]
      rfl

theorem feedLoop_frames {frames : List (List UInt8)}
    (hbuffer : buffer.drop offset = (frames.map frameBytes).flatten ++ tail)
    (hsmall : ∀ bytes ∈ frames, bytes.length < 2 ^ 16)
    (htail : IsTail tail) :
    feedLoop buffer d offset =
      ((run packet d frames).1.setBuffer tail, (run packet d frames).2) := by
  induction frames generalizing d offset with
  | nil => exact feedLoop_tail hbuffer htail
  | cons bytes frames ih =>
      rw [List.map_cons, List.flatten_cons, List.append_assoc] at hbuffer
      obtain ⟨hbytes, hframes⟩ := List.forall_mem_cons.mp hsmall
      obtain ⟨-, -, -, hrest⟩ := drop_frame hbuffer hbytes
      rw [feedLoop_frame hbuffer hbytes, ih hrest hframes, run_cons]

theorem feed_decomposition {bytes : List UInt8} {frames : List (List UInt8)}
    (hd : Decomposition (d.buffer ++ bytes) frames tail) :
    d.feed bytes =
      ((run packet d frames).1.setBuffer tail, (run packet d frames).2) :=
  feedLoop_frames hd.bytes hd.small hd.rest

/-! ## §3  Segmentation -/

/-- The chunks of a stream are fed as the whole of it is. -/
theorem run_feed {chunks frames : List (List UInt8)}
    (hrest : IsTail d.buffer)
    (hd : Decomposition (d.buffer ++ chunks.flatten) frames tail) :
    run feed d chunks =
      ((run packet d frames).1.setBuffer tail, (run packet d frames).2) := by
  induction chunks generalizing d frames with
  | nil =>
      rw [List.flatten_nil, List.append_nil] at hd
      have hempty : Decomposition d.buffer [] d.buffer := by
        exact ⟨by simp, rfl, hrest⟩
      obtain ⟨rfl, rfl⟩ := hempty.unique hd
      rfl
  | cons chunk chunks ih =>
      obtain ⟨first, rest, hfirst⟩ := Decomposition.exists (d.buffer ++ chunk)
      obtain ⟨others, last, hothers⟩ :=
        Decomposition.exists (rest ++ chunks.flatten)
      -- the packets of the stream: those of the first chunk, then the others
      rw [List.flatten_cons, ← List.append_assoc] at hd
      obtain ⟨rfl, rfl⟩ := hd.unique (hfirst.append hothers)
      rw [run_cons, feed_decomposition hfirst, ih hfirst.rest hothers,
        run_packet_setBuffer, run_append]
      rfl

/-- A decoder with some of the callbacks and hooks installed. -/
def fresh (callback eventCallback gapCallback requester : Bool) :
    SoupBinDecoder :=
  { callback, eventCallback, tracker := { gapCallback, requester } }

/-- However a stream is cut into chunks, the decoder makes the same calls and
ends in the same state. -/
theorem feed_segmentation (callback eventCallback gapCallback requester : Bool)
    (chunks chunks' : List (List UInt8))
    (hstream : chunks.flatten = chunks'.flatten) :
    run feed (fresh callback eventCallback gapCallback requester) chunks =
      run feed (fresh callback eventCallback gapCallback requester)
        chunks' := by
  obtain ⟨frames, tail, hd⟩ := Decomposition.exists chunks.flatten
  have hd' : Decomposition chunks'.flatten frames tail := hstream ▸ hd
  have hrun {cs : List (List UInt8)} (h : Decomposition cs.flatten frames tail) :
      run feed (fresh callback eventCallback gapCallback requester) cs = _ :=
    run_feed .empty h
  rw [hrun hd, hrun hd']

/-- A heartbeat and a cut packet, at once and byte by byte. -/
theorem feed_segmentation_heartbeat :
    run feed (fresh true true true true) [[0, 1, 72, 0, 2, 83]] =
      run feed (fresh true true true true)
        [[0], [1], [], [72, 0], [2, 83]] :=
  feed_segmentation true true true true _ _ rfl

end SoupBinDecoder

end Itch.Transport
