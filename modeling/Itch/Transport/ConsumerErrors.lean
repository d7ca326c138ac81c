import Itch.Framework.Interruption
import Itch.Transport.MoldUdp64
import Itch.Transport.SoupBinSequence

/-!
# Callbacks that throw

§1 is the parser again, with callbacks that may throw, and §2 what the message
callback of a decoder does. §3 and §4 are the two decoders with such callbacks,
which catch what the parser throws. §5 says what becomes of an exception of the
message callback there.
-/

namespace Itch

open ByteCursor Interruption

/-- What a callback throws: something derived from `std::runtime_error`, or
anything else. -/
inductive Thrown
  | runtimeError (what : String)
  | other (what : String)
deriving DecidableEq

def Thrown.isRuntimeError : Thrown → Bool
  | .runtimeError _ => true
  | .other _ => false

/-! ## §1  The parser -/

namespace Parser

/-- The state of the parser, the calls it has made, and the result or what one
of the calls has thrown. -/
abbrev ThrowingOutcome : Type :=
  Parser × List ParserEvent × Except Thrown (Option ParseError)

/-- Makes the calls, and goes on unless one of them throws. -/
def calling (throws : Throws ParserEvent Thrown) (p : Parser)
    (before events : List ParserEvent) (next : Option ThrowingOutcome) :
    Option ThrowingOutcome :=
  match perform throws before events with
  | (made, some x) => some (p, made, .error x)
  | (made, none) => next.map fun o => (o.1, made ++ o.2.1, o.2.2)

/-- The loop of `parse_impl` from `offset` on, after the calls `before`. -/
def parseLoopThrowing (throws : Throws ParserEvent Thrown)
    (data : List UInt8) (p : Parser) (before : List ParserEvent)
    (offset : ℕ) : Option ThrowingOutcome :=
  if offset < data.length then
    if offset + 2 > data.length then
      let (p, events) := p.reportError .truncated 0
      calling throws p before events (some (p, [], .ok (some .truncated)))
    else
      let length := decodeBE ((data.drop offset).take 2)
      let offset := offset + 2
      if length = 0 then
        parseLoopThrowing throws data p before offset
      else if offset + length > data.length then
        let (p, events) := p.reportError .truncated 0
        calling throws p before events (some (p, [], .ok (some .truncated)))
      else
        let message := data.drop offset
        let messageType := message.headD 0
        let offset := offset + length
        let entry := DISPATCH_TABLE.getD messageType.toNat {}
        match entry.decode with
        | none =>
            let (p, events) := p.reportError .unknownType messageType
            calling throws p before events
              (parseLoopThrowing throws data p (before ++ events) offset)
        | some t =>
            if length < entry.wireSize.toNat then
              let (p, events) := p.reportError .sizeMismatch messageType
              calling throws p before events
                (parseLoopThrowing throws data p (before ++ events) offset)
            else
              (t.decode message).bind fun m =>
                calling throws p before [.message m]
                  (parseLoopThrowing throws data p (before ++ [.message m])
                    offset)
  else some (p, [], .ok none)
termination_by data.length - offset

def ending (result : Option ParseError) : Option Thrown →
    Except Thrown (Option ParseError)
  | some x => .error x
  | none => .ok result

/-- The outcome `o`, cut off after the first call that throws. -/
def Cut (throws : Throws ParserEvent Thrown) (before : List ParserEvent)
    (o : Outcome) (cut : Option ThrowingOutcome) : Prop :=
  ∃ p, cut = some (p, (perform throws before o.2.1).1,
      ending o.2.2 (perform throws before o.2.1).2) ∧
    ((perform throws before o.2.1).2 = none → p = o.1)

variable {throws : Throws ParserEvent Thrown} {before events : List ParserEvent}
  {p : Parser} {o : Outcome} {data : List UInt8} {offset : ℕ}

theorem Cut.calling {next : Option ThrowingOutcome}
    (h : Cut throws (before ++ events) o next) :
    Cut throws before (o.after events)
      (calling throws p before events next) := by
  obtain ⟨p', rfl, hp'⟩ := h
  unfold Cut Parser.calling Outcome.after
  rcases hevents : perform throws before events with ⟨made, x | x⟩
  · have hnone : (perform throws before events).2 = none := by rw [hevents]
    have hmade := perform_eq_of_none hnone
    rw [hevents] at hmade
    cases hmade
    rw [perform_append_none hnone]
    exact ⟨p', rfl, hp'⟩
  · have hsome : (perform throws before events).2 = some x := by rw [hevents]
    rw [perform_append_some hsome, hevents]
    refine ⟨p, rfl, ?_⟩
    intro h
    cases h

theorem cut_nil (result : Option ParseError) :
    Cut throws before (p, [], result) (some (p, [], .ok result)) :=
  ⟨p, rfl, fun _ => rfl⟩

/-- The last calls of a parse. -/
theorem cut_last (result : Option ParseError) :
    Cut throws before (p, events, result)
      (calling throws p before events (some (p, [], .ok result))) := by
  have hnil : Cut throws (before ++ events) (p, [], result)
      (some (p, [], .ok result)) := cut_nil result
  have hcalling := hnil.calling (p := p)
  unfold Outcome.after at hcalling
  rw [List.append_nil] at hcalling
  exact hcalling

/-- What an outcome is when one frame is dealt with first. -/
theorem Cut.frame {rest : Option Outcome} {next : Option ThrowingOutcome}
    (hnext : ∀ o, rest = some o → Cut throws (before ++ events) o next)
    (h : rest.map (·.after events) = some o) :
    Cut throws before o (Parser.calling throws p before events next) := by
  obtain ⟨o', ho', rfl⟩ := Option.map_eq_some_iff.mp h
  exact (hnext o' ho').calling

theorem cut_parseLoop (throws : Throws ParserEvent Thrown)
    (before : List ParserEvent) (h : parseLoop data p offset = some o) :
    Cut throws before o (parseLoopThrowing throws data p before offset) := by
  induction hn : data.length - offset using Nat.strong_induction_on
    generalizing p offset before o with
  | _ n ih =>
    rw [parseLoop] at h
    rw [parseLoopThrowing]
    by_cases hlt : offset < data.length
    · rw [if_pos hlt] at h ⊢
      by_cases hshort : offset + 2 > data.length
      · rw [if_pos hshort] at h ⊢
        cases h
        exact cut_last _
      · rw [if_neg hshort] at h ⊢
        dsimp only at h ⊢
        generalize hlength : decodeBE ((data.drop offset).take 2) = length at h ⊢
        have hnext {p : Parser} {o : Outcome} (before : List ParserEvent)
            (m : ℕ) (h : parseLoop data p (offset + 2 + m) = some o) :
            Cut throws before o
              (parseLoopThrowing throws data p before (offset + 2 + m)) :=
          ih (data.length - (offset + 2 + m)) (by omega) before h rfl
        by_cases hzero : length = 0
        · rw [if_pos hzero] at h ⊢
          exact hnext before 0 h
        · rw [if_neg hzero] at h ⊢
          by_cases hcut : offset + 2 + length > data.length
          · rw [if_pos hcut] at h ⊢
            cases h
            exact cut_last _
          · rw [if_neg hcut] at h ⊢
            generalize DISPATCH_TABLE.getD
              ((data.drop (offset + 2)).headD 0).toNat {} = entry at h ⊢
            obtain ⟨wireSize, decode⟩ := entry
            cases decode with
            | none => exact Cut.frame (fun o ho => hnext _ length ho) h
            | some t =>
              dsimp only at h ⊢
              by_cases hsize : length < wireSize.toNat
              · rw [if_pos hsize] at h ⊢
                exact Cut.frame (fun o ho => hnext _ length ho) h
              · rw [if_neg hsize] at h ⊢
                obtain ⟨m, hm, h⟩ := Option.bind_eq_some_iff.mp h
                rw [hm, Option.bind_some]
                exact Cut.frame (fun o ho => hnext _ length ho) h
    · rw [if_neg hlt] at h ⊢
      cases h
      exact ⟨p, rfl, fun _ => rfl⟩

theorem cut_parse (throws : Throws ParserEvent Thrown) (p : Parser)
    (before : List ParserEvent) (data : List UInt8) :
    Cut throws before (p.parse data)
      (parseLoopThrowing throws data p before 0) := by
  obtain ⟨o, ho⟩ := Option.isSome_iff_exists.mp (p.isSome_parseImpl data)
  rw [p.parse_eq ho]
  exact cut_parseLoop throws before ho

theorem isSome_parseLoopThrowing (throws : Throws ParserEvent Thrown)
    (p : Parser) (before : List ParserEvent) (data : List UInt8) :
    (parseLoopThrowing throws data p before 0).isSome := by
  obtain ⟨p', hp', -⟩ := cut_parse throws p before data
  rw [hp']
  rfl

/-- What `parse` throws itself. -/
def INCOMPLETE : Thrown :=
  .runtimeError "Incomplete message at end of buffer."

/-- `parse` with the calls it makes and what it throws. -/
def parseThrowing (throws : Throws ParserEvent Thrown) (p : Parser)
    (before : List ParserEvent) (data : List UInt8) :
    Parser × List ParserEvent × Option Thrown :=
  let outcome := (parseLoopThrowing throws data p before 0).get
    (isSome_parseLoopThrowing throws p before data)
  (outcome.1, outcome.2.1,
    match outcome.2.2 with
    | .error x => some x
    | .ok none => none
    | .ok (some _) => some INCOMPLETE)

theorem parseThrowing_spec (throws : Throws ParserEvent Thrown) (p : Parser)
    (before : List ParserEvent) (data : List UInt8) :
    (p.parseThrowing throws before data).2.1 =
        (perform throws before (p.parse data).2.1).1 ∧
      (p.parseThrowing throws before data).2.2 =
        (perform throws before (p.parse data).2.1).2.or
          ((p.parse data).2.2.map fun _ => INCOMPLETE) ∧
      ((perform throws before (p.parse data).2.1).2 = none →
        (p.parseThrowing throws before data).1 = (p.parse data).1) := by
  obtain ⟨p', hp', hsame⟩ := cut_parse throws p before data
  unfold parseThrowing
  simp only [hp', Option.get_some, true_and]
  refine ⟨?_, hsame⟩
  cases hthrown : (perform throws before (p.parse data).2.1).2 with
  | some x => rfl
  | none =>
      cases hresult : (p.parse data).2.2 with
      | none => rfl
      | some error => rfl

theorem parseThrowing_quiet {throws : Throws ParserEvent Thrown}
    (h : ∀ before e, throws before e = none) (p : Parser)
    (before : List ParserEvent) (data : List UInt8) :
    p.parseThrowing throws before data =
      ((p.parse data).1, (p.parse data).2.1,
        (p.parse data).2.2.map fun _ => INCOMPLETE) := by
  obtain ⟨hmade, hthrown, hstate⟩ := p.parseThrowing_spec throws before data
  rw [perform_quiet h] at hmade hthrown hstate
  exact Prod.ext (hstate rfl) (Prod.ext hmade hthrown)

end Parser

/-! ## §2  The callback of a decoder -/

open Overlay (messages)

/-- `counting_callback` as the parser sees it, which has no error callback. -/
def counting (installed : Bool) (callback : Throws Message Thrown) :
    Throws ParserEvent Thrown :=
  fun calls e =>
    match e with
    | .message m => if installed then callback (messages calls) m else none
    | .error .. => none

/-- What is decoded is given to the callback until that throws. -/
theorem perform_counting (callback : Throws Message Thrown)
    (events : List ParserEvent) :
    messages (perform (counting true callback) [] events).1 =
        (perform callback [] (messages events)).1 ∧
      (perform (counting true callback) [] events).2 =
        (perform callback [] (messages events)).2 := by
  have hthrows (before : List ParserEvent) (e : ParserEvent) :
      counting true callback before e =
        (match e with
          | .message m => some m
          | .error .. => none : Option Message).bind
            (callback (messages before)) := by
    cases e with
    | message m => rfl
    | error error c => rfl
  have h := perform_filterMap hthrows [] events
  exact ⟨(congrArg Prod.fst h).symm, (congrArg Prod.snd h).symm⟩

theorem perform_counting_false (callback : Throws Message Thrown)
    (before events : List ParserEvent) :
    perform (counting false callback) before events = (events, none) := by
  apply perform_quiet
  intro before e
  cases e with
  | message m => rfl
  | error error c => rfl

theorem counting_quiet (installed : Bool) (before : List ParserEvent)
    (e : ParserEvent) : counting installed (fun _ _ => none) before e = none := by
  cases e with
  | message m => exact ite_self _
  | error error c => rfl

/-- Whether a decoder lets an exception through. -/
def escaping (thrown : Option Thrown) : Option Thrown :=
  thrown.filter fun x => !x.isRuntimeError

/-- What `parse` throws itself never comes through. -/
theorem escaping_or (thrown : Option Thrown) (result : Option ParseError) :
    escaping (thrown.or (result.map fun _ => Parser.INCOMPLETE)) =
      escaping thrown := by
  cases thrown with
  | some x => rfl
  | none =>
      cases result with
      | none => rfl
      | some error => rfl

/-! ## §3  MoldUDP64 -/

namespace Transport

namespace MoldUdp64Decoder

/-- `before` are the messages the callback has had before this packet. -/
def parseBlocksThrowing (callback : Throws Message Thrown)
    (d : MoldUdp64Decoder) (before : List Message) (blocks : List UInt8) :
    MoldUdp64Decoder × List MoldUdp64Event × Option Thrown :=
  let outcome := d.parser.parseThrowing
    (counting d.callback fun ms => callback (before ++ ms)) [] blocks
  let decoded := messages outcome.2.1
  ({ d with
      parser := outcome.1
      messagesDecoded := d.messagesDecoded + .ofNat decoded.length },
    if d.callback then decoded.map .message else [],
    escaping outcome.2.2)

/-- The header is returned behind the calls unless something is thrown. -/
def returning (header : MoldUdp64Header) (events : List MoldUdp64Event)
    (outcome : MoldUdp64Decoder × List MoldUdp64Event × Option Thrown) :
    MoldUdp64Decoder × List MoldUdp64Event × Option Thrown :=
  match outcome.2.2 with
  | some x => (outcome.1, events ++ outcome.2.1, some x)
  | none => (outcome.1, events ++ outcome.2.1 ++ [.returned header], none)

def decodePacketThrowing (callback : Throws Message Thrown)
    (d : MoldUdp64Decoder) (before : List Message) (packet : List UInt8) :
    Option (MoldUdp64Decoder × List MoldUdp64Event × Option Thrown) :=
  if packet.length < HEADER_SIZE then some (d, [.returned none], none)
  else do
    let d := { d with packetsDecoded := d.packetsDecoded + 1 }
    let header ← readHeader packet
    if header.isEndOfSession then
      return (d, [.returned header], none)
    else
      let observed := d.tracker.observe header.sessionView
        header.sequenceNumber header.messageCount.toUInt64
      let d := { d with tracker := observed.tracker }
      let events := observed.events.map .tracker
      if header.isHeartbeat then
        return (d, events ++ [.returned header], none)
      else
        let blocks ← subspan packet HEADER_SIZE
        return returning header events
          (d.parseBlocksThrowing callback before blocks)

variable {callback : Throws Message Thrown} {d : MoldUdp64Decoder}
  {before : List Message} {packet tail : List UInt8}
  {header : MoldUdp64Header} {frames : List (List UInt8)}

theorem parseBlocksThrowing_spec (callback : Throws Message Thrown)
    (before : List Message) (hcallback : d.callback = true)
    {blocks : List UInt8} (hd : Decomposition blocks frames tail) :
    (d.parseBlocksThrowing callback before blocks).2.1 =
        (perform callback before (frames.filterMap decodable)).1.map .message ∧
      (d.parseBlocksThrowing callback before blocks).2.2 =
        escaping (perform callback before (frames.filterMap decodable)).2 := by
  have hmessages : messages (d.parser.parse blocks).2.1 =
      frames.filterMap decodable := Overlay.messages_parse d.parser hd
  obtain ⟨hmade, hthrown, -⟩ := d.parser.parseThrowing_spec
    (counting true fun ms => callback (before ++ ms)) [] blocks
  obtain ⟨hgiven, hcaught⟩ := perform_counting
    (fun ms => callback (before ++ ms)) (d.parser.parse blocks).2.1
  rw [hmessages, perform_shift, List.append_nil] at hgiven hcaught
  unfold parseBlocksThrowing
  dsimp only
  rw [hcallback, if_pos rfl, hmade, hthrown, hgiven, hcaught, escaping_or]
  exact ⟨rfl, rfl⟩

theorem returning_spec (header : MoldUdp64Header)
    (events : List MoldUdp64Event)
    (outcome : MoldUdp64Decoder × List MoldUdp64Event × Option Thrown) :
    (returning header events outcome).2.2 = outcome.2.2 ∧
      delivered (returning header events outcome).2.1 =
        delivered events ++ delivered outcome.2.1 := by
  unfold returning delivered
  cases outcome.2.2 with
  | some x => exact ⟨rfl, List.filterMap_append⟩
  | none =>
      refine ⟨rfl, ?_⟩
      rw [List.filterMap_append, List.filterMap_append]
      exact List.append_nil _

/-- No read is outside the datagram, whatever the callback does. -/
theorem isSome_decodePacketThrowing (callback : Throws Message Thrown)
    (d : MoldUdp64Decoder) (before : List Message) (packet : List UInt8) :
    (d.decodePacketThrowing callback before packet).isSome := by
  unfold decodePacketThrowing
  split
  · rfl
  · rename_i hlen
    obtain ⟨header, hheader⟩ := exists_readHeader (not_lt.mp hlen)
    rw [hheader]
    dsimp only [Option.bind_eq_bind, Option.bind_some]
    split
    · rfl
    · split
      · rfl
      · rw [subspan_eq (not_lt.mp hlen)]
        rfl

def stepThrowing (callback : Throws Message Thrown) (d : MoldUdp64Decoder)
    (before : List Message) (packet : List UInt8) :
    MoldUdp64Decoder × List MoldUdp64Event × Option Thrown :=
  (d.decodePacketThrowing callback before packet).get
    (d.isSome_decodePacketThrowing callback before packet)

/-- A data packet: the messages of its blocks go to the callback, and what is
thrown there escapes if it does not look like an error of the parser. -/
theorem stepThrowing_data (callback : Throws Message Thrown)
    (before : List Message) (hcallback : d.callback = true)
    (hheader : readHeader packet = some header)
    (hend : header.isEndOfSession = false)
    (hbeat : header.isHeartbeat = false)
    (hd : Decomposition (packet.drop HEADER_SIZE) frames tail) :
    delivered (d.stepThrowing callback before packet).2.1 =
        (perform callback before (frames.filterMap decodable)).1 ∧
      (d.stepThrowing callback before packet).2.2 =
        escaping (perform callback before (frames.filterMap decodable)).2 := by
  have hlen := le_length_of_readHeader hheader
  have hinstalled : (d.counted.observed header).1.callback = true := hcallback
  obtain ⟨hevents, hthrown⟩ :=
    parseBlocksThrowing_spec callback before hinstalled hd
  have hstep : d.decodePacketThrowing callback before packet =
      some (returning header (d.counted.observed header).2
        ((d.counted.observed header).1.parseBlocksThrowing callback before
          (packet.drop HEADER_SIZE))) := by
    unfold decodePacketThrowing
    rw [if_neg (not_lt.mpr hlen), hheader]
    dsimp only [Option.bind_eq_bind, Option.bind_some]
    rw [if_neg (by simp [hend]), if_neg (by simp [hbeat]), subspan_eq hlen]
    rfl
  obtain ⟨hreturned, hcalled⟩ := returning_spec header
    (d.counted.observed header).2 ((d.counted.observed header
      ).1.parseBlocksThrowing callback before (packet.drop HEADER_SIZE))
  unfold stepThrowing
  simp only [hstep, Option.get_some]
  constructor
  · have hobserved := d.counted.delivered_observed header
    rw [hcalled, hobserved, List.nil_append, hevents, delivered,
      List.filterMap_map]
    exact List.filterMap_some
  · rw [hreturned, hthrown]

/-- Where nothing is thrown, this is the decoder without exceptions. -/
theorem stepThrowing_quiet (d : MoldUdp64Decoder) (before : List Message)
    (packet : List UInt8) :
    d.stepThrowing (fun _ _ => none) before packet =
      ((d.step packet).1, (d.step packet).2, none) := by
  have hblocks (d : MoldUdp64Decoder) (blocks : List UInt8) :
      d.parseBlocksThrowing (fun _ _ => none) before blocks =
        ((d.parseBlocks blocks).1, (d.parseBlocks blocks).2, none) := by
    unfold parseBlocksThrowing
    rw [Parser.parseThrowing_quiet (counting_quiet _)]
    exact congrArg (_, _, ·) (escaping_or none _)
  have hdecode : d.decodePacketThrowing (fun _ _ => none) before packet =
      (d.decodePacket packet).map fun outcome =>
        (outcome.1, outcome.2, none) := by
    unfold decodePacketThrowing decodePacket
    split
    · rfl
    · cases readHeader packet with
      | none => rfl
      | some header =>
          dsimp only [Option.bind_eq_bind, Option.bind_some]
          split
          · rfl
          · split
            · rfl
            · cases subspan packet HEADER_SIZE with
              | none => rfl
              | some blocks =>
                  dsimp only [Option.bind_some]
                  rw [hblocks]
                  rfl
  obtain ⟨outcome, houtcome⟩ :=
    Option.isSome_iff_exists.mp (d.isSome_decodePacket packet)
  rw [d.step_eq houtcome]
  unfold stepThrowing
  simp only [hdecode, houtcome, Option.map_some, Option.get_some]

end MoldUdp64Decoder

/-! ## §4  SoupBinTCP -/

/-- What the callbacks throw, after the calls of the two before. The hooks of
the tracker do not throw. -/
structure SoupBinCallbacks where
  message : List SoupBinEvent → Message → Option Thrown := fun _ _ => none
  event : List SoupBinEvent → SoupBinPacketType → List UInt8 → Option Thrown :=
    fun _ _ _ => none

/-- A packet that was handed to `process_packet`: where it lies in the stream,
`next_sequence()` before and after it, and the calls. -/
structure Visit where
  position : ℕ
  packet : List UInt8
  nextBefore : UInt64
  nextAfter : UInt64
  events : List SoupBinEvent

def Visit.deliveries (v : Visit) : List SoupBinEvent :=
  v.events.filter SoupBinEvent.isDelivery

namespace SoupBinDecoder

def decodeApplicationMessageThrowing (callbacks : SoupBinCallbacks)
    (d : SoupBinDecoder) (before : List SoupBinEvent) (payload : List UInt8) :
    SoupBinDecoder × List SoupBinEvent × Option Thrown :=
  if payload = [] ∨ payload.length > MAX_WIRE_MESSAGE_LEN then (d, [], none)
  else
    let framed := encodeBE LENGTH_PREFIX_SIZE payload.length ++ payload
    let outcome := d.parser.parseThrowing
      (counting d.callback fun ms =>
        callbacks.message (before ++ ms.map .message)) [] framed
    let decoded := messages outcome.2.1
    ({ d with
        parser := outcome.1
        messagesDecoded := d.messagesDecoded + .ofNat decoded.length },
      if d.callback then decoded.map .message else [],
      escaping outcome.2.2)

def notifyThrowing (callbacks : SoupBinCallbacks) (d : SoupBinDecoder)
    (before : List SoupBinEvent) (type : SoupBinPacketType)
    (payload : List UInt8) :
    SoupBinDecoder × List SoupBinEvent × Option Thrown :=
  if d.eventCallback then
    (d, [.event type payload], callbacks.event before type payload)
  else (d, [], none)

def processPacketThrowing (callbacks : SoupBinCallbacks) (d : SoupBinDecoder)
    (before : List SoupBinEvent) (type : SoupBinPacketType)
    (payload : List UInt8) :
    SoupBinDecoder × List SoupBinEvent × Option Thrown :=
  match type with
  | .loginAccepted =>
      if payload.length ≥ LOGIN_SESSION_SIZE + LOGIN_SEQUENCE_SIZE then
        let session := trimField (payload.take LOGIN_SESSION_SIZE)
        let nextSequence := parseSequenceField
          ((payload.drop LOGIN_SESSION_SIZE).take LOGIN_SEQUENCE_SIZE)
        let nextSequence := if nextSequence = 0 then 1 else nextSequence
        { d with session, nextSequence }.notifyThrowing callbacks before type
          payload
      else d.notifyThrowing callbacks before type payload
  | .sequencedData =>
      let observed := d.tracker.observe d.session d.nextSequence 1
      let d := { d with
        tracker := observed.tracker
        nextSequence := d.nextSequence + 1 }
      let (d, events, thrown) :=
        d.decodeApplicationMessageThrowing callbacks before payload
      (d, observed.events.map .tracker ++ events, thrown)
  | .unsequencedData =>
      d.decodeApplicationMessageThrowing callbacks before payload
  | .debug | .loginRejected | .serverHeartbeat | .endOfSession
  | .loginRequest | .clientHeartbeat | .logoutRequest | .other _ =>
      d.notifyThrowing callbacks before type payload

/-- The loop of `feed` from `offset` on, in a buffer before which `consumed`
bytes of the stream have been dropped. An exception leaves it where it is:
nothing is dropped then. -/
def feedLoopThrowing (callbacks : SoupBinCallbacks) (consumed : ℕ)
    (buffer : List UInt8) (d : SoupBinDecoder) (before : List SoupBinEvent)
    (offset : ℕ) : SoupBinDecoder × List Visit × Option Thrown :=
  if buffer.length - offset ≥ LENGTH_PREFIX_SIZE then
    let packetLength :=
      decodeBE ((buffer.drop offset).take LENGTH_PREFIX_SIZE)
    if packetLength = 0 then
      feedLoopThrowing callbacks consumed buffer d before
        (offset + LENGTH_PREFIX_SIZE)
    else if buffer.length - offset < LENGTH_PREFIX_SIZE + packetLength then
      ({ d with buffer := buffer.drop offset }, [], none)
    else
      let type := SoupBinPacketType.ofChar
        (buffer.getD (offset + LENGTH_PREFIX_SIZE) 0)
      let payload := (buffer.drop (offset + LENGTH_PREFIX_SIZE + 1)).take
        (packetLength - 1)
      let processed := d.processPacketThrowing callbacks before type payload
      let visit : Visit :=
        { position := consumed + offset
          packet := (buffer.drop (offset + LENGTH_PREFIX_SIZE)).take packetLength
          nextBefore := d.nextSequence
          nextAfter := processed.1.nextSequence
          events := processed.2.1 }
      match processed.2.2 with
      | some x => (processed.1, [visit], some x)
      | none =>
          let (d, visits, thrown) := feedLoopThrowing callbacks consumed buffer
            processed.1 (before ++ visit.deliveries)
            (offset + (LENGTH_PREFIX_SIZE + packetLength))
          (d, visit :: visits, thrown)
  else ({ d with buffer := buffer.drop offset }, [], none)
termination_by buffer.length - offset
decreasing_by all_goals simp only [LENGTH_PREFIX_SIZE] at *; omega

def feedThrowing (callbacks : SoupBinCallbacks) (d : SoupBinDecoder)
    (before : List SoupBinEvent) (consumed : ℕ) (bytes : List UInt8) :
    SoupBinDecoder × List Visit × Option Thrown :=
  feedLoopThrowing callbacks consumed (d.buffer ++ bytes)
    (d.setBuffer (d.buffer ++ bytes)) before 0

def packetThrowing (callbacks : SoupBinCallbacks) (d : SoupBinDecoder)
    (before : List SoupBinEvent) :
    List UInt8 → SoupBinDecoder × List SoupBinEvent × Option Thrown
  | [] => (d, [], none)
  | c :: payload =>
      d.processPacketThrowing callbacks before (.ofChar c) payload

def isData : SoupBinPacketType → Bool
  | .sequencedData | .unsequencedData => true
  | _ => false

/-- The call made for a packet. -/
def delivery? (callback eventCallback : Bool) :
    List UInt8 → Option SoupBinEvent
  | [] => none
  | c :: payload =>
      if isData (.ofChar c) then
        if callback then (decodable payload).map .message else none
      else if eventCallback then some (.event (.ofChar c) payload)
      else none

end SoupBinDecoder

/-- What a call throws that is not taken for an error of the parser. -/
def SoupBinCallbacks.escapes (callbacks : SoupBinCallbacks) :
    Throws SoupBinEvent Thrown :=
  fun before e =>
    match e with
    | .message m => escaping (callbacks.message before m)
    | .event type payload => callbacks.event before type payload
    | .tracker _ => none

/-- A message callback, with an event callback that never throws. -/
def SoupBinCallbacks.ofMessage (callback : Throws Message Thrown) :
    SoupBinCallbacks :=
  { message := fun before m =>
      callback (before.filterMap SoupBinEvent.message?) m }

namespace SoupBinDecoder

variable {callbacks : SoupBinCallbacks} {d : SoupBinDecoder}
  {before : List SoupBinEvent} {bytes payload tail : List UInt8}
  {frames : List (List UInt8)}

/-- The outcome of a packet with one call at most, which is `delivery`. -/
structure Delivers (callbacks : SoupBinCallbacks) (d : SoupBinDecoder)
    (before : List SoupBinEvent) (delivery : Option SoupBinEvent)
    (outcome : SoupBinDecoder × List SoupBinEvent × Option Thrown) :
    Prop where
  callback : outcome.1.callback = d.callback
  eventCallback : outcome.1.eventCallback = d.eventCallback
  buffer : outcome.1.buffer = d.buffer
  events : outcome.2.1.filter SoupBinEvent.isDelivery = delivery.toList
  thrown : outcome.2.2 = delivery.bind (callbacks.escapes before)

theorem delivers_notify (callbacks : SoupBinCallbacks) (d : SoupBinDecoder)
    (before : List SoupBinEvent) (type : SoupBinPacketType)
    (payload : List UInt8) :
    Delivers callbacks d before
      (if d.eventCallback then some (.event type payload) else none)
      (d.notifyThrowing callbacks before type payload) := by
  unfold notifyThrowing
  split
  · exact ⟨rfl, rfl, rfl, rfl, rfl⟩
  · exact ⟨rfl, rfl, rfl, rfl, rfl⟩

theorem delivers_decode (callbacks : SoupBinCallbacks) (d : SoupBinDecoder)
    (before : List SoupBinEvent) (hsmall : payload.length < 2 ^ 16) :
    (d.decodeApplicationMessageThrowing callbacks before payload
        ).1.nextSequence = d.nextSequence ∧
      Delivers callbacks d before
        (if d.callback then (decodable payload).map .message else none)
        (d.decodeApplicationMessageThrowing callbacks before payload) := by
  unfold decodeApplicationMessageThrowing
  by_cases hempty : payload = []
  · subst hempty
    have hno : decodable [] = none := by decide
    rw [if_pos (Or.inl rfl), hno, Option.map_none, ite_self]
    exact ⟨rfl, rfl, rfl, rfl, rfl, rfl⟩
  · have hfits : ¬(payload = [] ∨ payload.length > MAX_WIRE_MESSAGE_LEN) := by
      rintro (h | h)
      · exact hempty h
      · exact absurd hsmall (not_lt.mpr h)
    rw [if_neg hfits]
    have hmessages : messages (d.parser.parse (frameBytes payload)).2.1 =
        (decodable payload).toList :=
      Overlay.messages_parse_frame d.parser hsmall
    cases hcallback : d.callback with
    | false =>
        obtain ⟨-, hthrown, -⟩ := d.parser.parseThrowing_spec
          (counting false fun ms =>
            callbacks.message (before ++ ms.map .message)) []
          (frameBytes payload)
        rw [perform_counting_false] at hthrown
        refine ⟨rfl, hcallback.symm, rfl, rfl, rfl, ?_⟩
        exact (congrArg escaping hthrown).trans (escaping_or none _)
    | true =>
        obtain ⟨hmade, hthrown, -⟩ := d.parser.parseThrowing_spec
          (counting true fun ms =>
            callbacks.message (before ++ ms.map .message)) []
          (frameBytes payload)
        obtain ⟨hgiven, hcaught⟩ := perform_counting
          (fun ms => callbacks.message (before ++ ms.map .message))
          (d.parser.parse (frameBytes payload)).2.1
        rw [← hmade, hmessages, perform_toList] at hgiven
        rw [hcaught, hmessages, perform_toList] at hthrown
        refine ⟨rfl, hcallback.symm, rfl, rfl, ?_, ?_⟩
        · change ((messages (d.parser.parseThrowing _ []
            (frameBytes payload)).2.1).map SoupBinEvent.message).filter
              SoupBinEvent.isDelivery =
            ((decodable payload).map SoupBinEvent.message).toList
          rw [hgiven]
          cases decodable payload with
          | none => rfl
          | some m => rfl
        · refine (congrArg escaping hthrown).trans ?_
          rw [escaping_or]
          cases decodable payload with
          | none => rfl
          | some m =>
              show escaping (callbacks.message (before ++ []) m) = _
              rw [List.append_nil]
              rfl

theorem delivers_process (callbacks : SoupBinCallbacks) (d : SoupBinDecoder)
    (before : List SoupBinEvent) (type : SoupBinPacketType)
    (hsmall : payload.length < 2 ^ 16) :
    Delivers callbacks d before
      (if isData type then
        if d.callback then (decodable payload).map .message else none
      else if d.eventCallback then some (.event type payload) else none)
      (d.processPacketThrowing callbacks before type payload) := by
  cases type with
  | loginAccepted =>
      unfold processPacketThrowing
      dsimp only
      by_cases hlen : payload.length ≥ LOGIN_SESSION_SIZE + LOGIN_SEQUENCE_SIZE
      · rw [if_pos hlen]
        have h (session : Str) (nextSequence : UInt64) :=
          delivers_notify callbacks { d with session, nextSequence } before
            .loginAccepted payload
        exact ⟨(h _ _).callback, (h _ _).eventCallback, (h _ _).buffer,
          (h _ _).events, (h _ _).thrown⟩
      · rw [if_neg hlen]
        exact delivers_notify callbacks d before .loginAccepted payload
  | sequencedData =>
      obtain ⟨-, h⟩ := delivers_decode callbacks { d with
        tracker := (d.tracker.observe d.session d.nextSequence 1).tracker
        nextSequence := d.nextSequence + 1 } before hsmall
      refine ⟨h.callback, h.eventCallback, h.buffer, ?_, h.thrown⟩
      have htracker (events : List TrackerEvent) :
          (events.map SoupBinEvent.tracker).filter
            SoupBinEvent.isDelivery = [] := by
        rw [List.filter_map, List.map_eq_nil_iff, List.filter_eq_nil_iff]
        intro e _ he
        cases he
      unfold processPacketThrowing
      dsimp only
      rw [List.filter_append, htracker, List.nil_append]
      exact h.events
  | unsequencedData => exact (delivers_decode callbacks d before hsmall).2
  | _ => exact delivers_notify callbacks d before _ payload

/-- A packet makes the call that there is to make for it, whatever becomes of
that. -/
theorem delivers_packet (callbacks : SoupBinCallbacks) (d : SoupBinDecoder)
    (before : List SoupBinEvent) (hsmall : bytes.length < 2 ^ 16) :
    Delivers callbacks d before (delivery? d.callback d.eventCallback bytes)
      (d.packetThrowing callbacks before bytes) := by
  cases bytes with
  | nil => exact ⟨rfl, rfl, rfl, rfl, rfl⟩
  | cons c payload =>
      exact delivers_process callbacks d before _
        ((Nat.lt_succ_self _).trans hsmall)

/-- A sequenced packet advances the sequence number by one, whatever becomes
of its message. -/
theorem nextSequence_packetThrowing (hsmall : bytes.length < 2 ^ 16)
    (hsequenced : isSequenced bytes) :
    (d.packetThrowing callbacks before bytes).1.nextSequence =
      d.nextSequence + 1 := by
  cases bytes with
  | nil => cases hsequenced
  | cons c payload =>
      have htype : SoupBinPacketType.ofChar c = .sequencedData :=
        of_decide_eq_true hsequenced
      have hpayload : payload.length < 2 ^ 16 :=
        (Nat.lt_succ_self _).trans hsmall
      show (d.processPacketThrowing callbacks before (.ofChar c)
        payload).1.nextSequence = _
      rw [htype]
      exact (delivers_decode callbacks _ before hpayload).1

/-- The packets of a stream, from `position` on, where a zero-length frame is
none. -/
def packetsAt : ℕ → List (List UInt8) → List (ℕ × List UInt8)
  | _, [] => []
  | position, [] :: frames => packetsAt (position + 2) frames
  | position, (c :: payload) :: frames =>
      (position, c :: payload) ::
        packetsAt (position + (2 + (c :: payload).length)) frames

/-- `packetThrowing` with a note of it; the state also holds the calls. -/
def handle (callbacks : SoupBinCallbacks)
    (s : SoupBinDecoder × List SoupBinEvent) (p : ℕ × List UInt8) :
    (SoupBinDecoder × List SoupBinEvent) × Visit × Option Thrown :=
  let processed := s.1.packetThrowing callbacks s.2 p.2
  let visit : Visit :=
    { position := p.1
      packet := p.2
      nextBefore := s.1.nextSequence
      nextAfter := processed.1.nextSequence
      events := processed.2.1 }
  ((processed.1, s.2 ++ visit.deliveries), visit, processed.2.2)

/-- The loop where a packet begins. -/
theorem feedLoopThrowing_frame {consumed offset : ℕ}
    {buffer rest payload : List UInt8} {c : UInt8}
    (hbuffer : buffer.drop offset = frameBytes (c :: payload) ++ rest)
    (hsmall : (c :: payload).length < 2 ^ 16) :
    feedLoopThrowing callbacks consumed buffer d before offset =
      match handle callbacks (d, before) (consumed + offset, c :: payload) with
      | (s, visit, some x) => (s.1, [visit], some x)
      | (s, visit, none) =>
          let (d, visits, thrown) := feedLoopThrowing callbacks consumed buffer
            s.1 s.2 (offset + (2 + (c :: payload).length))
          (d, visit :: visits, thrown) := by
  obtain ⟨hlen, hdecode, hpayload, -⟩ := drop_frame hbuffer hsmall
  rw [feedLoopThrowing]
  simp only [LENGTH_PREFIX_SIZE, hdecode]
  rw [if_pos (by omega)]
  have htype : buffer.getD (offset + 2) 0 = c := by
    rw [List.getD_eq_getElem?_getD, ← List.head?_drop, hpayload]
    rfl
  have hrest : (buffer.drop (offset + 2 + 1)).take
      ((c :: payload).length - 1) = payload := by
    rw [← List.drop_drop, hpayload]
    exact List.take_left' rfl
  have hpacket : (buffer.drop (offset + 2)).take (c :: payload).length =
      c :: payload := by
    rw [hpayload]
    exact List.take_left' rfl
  rw [if_neg (by simp), if_neg (by omega), htype, hrest, hpacket]
  unfold handle packetThrowing
  dsimp only
  cases (d.processPacketThrowing callbacks before (.ofChar c) payload).2.2 with
  | none => rfl
  | some x => rfl

theorem feedLoopThrowing_padding {consumed offset : ℕ}
    {buffer rest : List UInt8}
    (hbuffer : buffer.drop offset = frameBytes [] ++ rest) :
    feedLoopThrowing callbacks consumed buffer d before offset =
      feedLoopThrowing callbacks consumed buffer d before (offset + 2) := by
  obtain ⟨hlen, hdecode, -, -⟩ := drop_frame hbuffer (Nat.two_pow_pos 16)
  rw [feedLoopThrowing]
  simp only [LENGTH_PREFIX_SIZE, hdecode]
  rw [if_pos (by omega)]
  rfl

theorem feedLoopThrowing_tail {consumed offset : ℕ} {buffer : List UInt8}
    (hbuffer : buffer.drop offset = tail) (htail : IsTail tail) :
    feedLoopThrowing callbacks consumed buffer d before offset =
      (d.setBuffer tail, [], none) := by
  have hlen : buffer.length - offset = tail.length := by
    rw [← List.length_drop, hbuffer]
  rw [feedLoopThrowing]
  simp only [LENGTH_PREFIX_SIZE, hbuffer]
  cases htail with
  | empty => rw [if_neg (by simp [hlen])]; rfl
  | byte b => rw [if_neg (by simp [hlen])]; rfl
  | short n payload hn hlt =>
      obtain ⟨hlen, hdecode⟩ := drop_short hbuffer hn
      rw [hbuffer] at hdecode
      rw [if_pos (by omega), hdecode, if_neg (by omega), if_pos (by omega)]
      rfl

/-- What is left in the buffer. -/
def settle (tail : List UInt8)
    (outcome : (SoupBinDecoder × List SoupBinEvent) × List Visit ×
      Option Thrown) : SoupBinDecoder × List Visit × Option Thrown :=
  match outcome.2.2 with
  | none => (outcome.1.1.setBuffer tail, outcome.2.1, none)
  | some x => (outcome.1.1, outcome.2.1, some x)

/-- The loop handles the packets one by one until something is thrown. -/
theorem feedLoopThrowing_frames {consumed offset : ℕ} {buffer : List UInt8}
    (hbuffer : buffer.drop offset = (frames.map frameBytes).flatten ++ tail)
    (hsmall : ∀ f ∈ frames, f.length < 2 ^ 16) (htail : IsTail tail) :
    feedLoopThrowing callbacks consumed buffer d before offset =
      settle tail (attempt (handle callbacks) (d, before)
        (packetsAt (consumed + offset) frames)) := by
  induction frames generalizing d before offset with
  | nil => exact feedLoopThrowing_tail hbuffer htail
  | cons bytes frames ih =>
      rw [List.map_cons, List.flatten_cons, List.append_assoc] at hbuffer
      obtain ⟨hbytes, hframes⟩ := List.forall_mem_cons.mp hsmall
      obtain ⟨-, -, -, hrest⟩ := drop_frame hbuffer hbytes
      cases bytes with
      | nil =>
          exact (feedLoopThrowing_padding hbuffer).trans (ih hrest hframes)
      | cons c payload =>
          rw [feedLoopThrowing_frame hbuffer hbytes]
          unfold packetsAt
          rcases hhandle : handle callbacks (d, before)
            (consumed + offset, c :: payload) with ⟨⟨d', calls⟩, visit, _ | x⟩
          · have hnone : (handle callbacks (d, before)
                (consumed + offset, c :: payload)).2.2 = none := by
              rw [hhandle]
            rw [attempt_cons_none hnone, hhandle]
            dsimp only
            rw [ih hrest hframes, Nat.add_assoc]
            rcases attempt (handle callbacks) (d', calls) _ with
              ⟨s, visits, _ | x⟩
            · rfl
            · rfl
          · have hsome : (handle callbacks (d, before)
                (consumed + offset, c :: payload)).2.2 = some x := by
              rw [hhandle]
            rw [attempt_cons_some hsome, hhandle]
            rfl

/-- The calls made for the packets. -/
def deliveriesOf (callback eventCallback : Bool)
    (packets : List (ℕ × List UInt8)) : List SoupBinEvent :=
  packets.filterMap fun p => delivery? callback eventCallback p.2

theorem deliveriesOf_cons (callback eventCallback : Bool)
    (p : ℕ × List UInt8) (packets : List (ℕ × List UInt8)) :
    deliveriesOf callback eventCallback (p :: packets) =
      (delivery? callback eventCallback p.2).toList ++
        deliveriesOf callback eventCallback packets := by
  unfold deliveriesOf
  rw [List.filterMap_cons]
  cases delivery? callback eventCallback p.2 with
  | none => rfl
  | some e => rfl

/-- The outcome of handling packets whose calls are `calls`, up to the first
from which something escapes. -/
structure Performs (callbacks : SoupBinCallbacks) (d : SoupBinDecoder)
    (before calls : List SoupBinEvent)
    (outcome : (SoupBinDecoder × List SoupBinEvent) × List Visit ×
      Option Thrown) : Prop where
  callback : outcome.1.1.callback = d.callback
  eventCallback : outcome.1.1.eventCallback = d.eventCallback
  buffer : outcome.1.1.buffer = d.buffer
  history : outcome.1.2 =
    before ++ (perform callbacks.escapes before calls).1
  deliveries : outcome.2.1.flatMap Visit.deliveries =
    (perform callbacks.escapes before calls).1
  thrown : outcome.2.2 = (perform callbacks.escapes before calls).2

theorem performs_attempt (callbacks : SoupBinCallbacks) (d : SoupBinDecoder)
    (before : List SoupBinEvent) {packets : List (ℕ × List UInt8)}
    (hsmall : ∀ p ∈ packets, p.2.length < 2 ^ 16) :
    Performs callbacks d before
      (deliveriesOf d.callback d.eventCallback packets)
      (attempt (handle callbacks) (d, before) packets) := by
  induction packets generalizing d before with
  | nil => exact ⟨rfl, rfl, rfl, (List.append_nil _).symm, rfl, rfl⟩
  | cons p packets ih =>
      obtain ⟨hp, hpackets⟩ := List.forall_mem_cons.mp hsmall
      have hdelivers := delivers_packet callbacks d before hp
      have hperform := perform_toList callbacks.escapes before
        (delivery? d.callback d.eventCallback p.2)
      have hthrown : (handle callbacks (d, before) p).2.2 = _ :=
        hdelivers.thrown
      have hvisit : (handle callbacks (d, before) p).2.1.deliveries =
          (delivery? d.callback d.eventCallback p.2).toList := hdelivers.events
      have hhistory : (handle callbacks (d, before) p).1.2 =
          before ++ (delivery? d.callback d.eventCallback p.2).toList :=
        congrArg (before ++ ·) hvisit
      rw [deliveriesOf_cons]
      cases hx : (delivery? d.callback d.eventCallback p.2).bind
        (callbacks.escapes before) with
      | some x =>
          rw [hx] at hthrown hperform
          have hsome := congrArg Prod.snd hperform
          rw [attempt_cons_some hthrown]
          refine ⟨hdelivers.callback, hdelivers.eventCallback,
            hdelivers.buffer, ?_, ?_, ?_⟩
          · rw [perform_append_some hsome, hperform]
            exact hhistory
          · rw [perform_append_some hsome, hperform, List.flatMap_singleton]
            exact hvisit
          · rw [perform_append_some hsome, hperform]
      | none =>
          rw [hx] at hthrown hperform
          have hnone := congrArg Prod.snd hperform
          have hstate : (handle callbacks (d, before) p).1 =
              ((handle callbacks (d, before) p).1.1,
                before ++ (delivery? d.callback d.eventCallback p.2).toList) :=
            Prod.ext rfl hhistory
          have hrest := ih (handle callbacks (d, before) p).1.1
            (before ++ (delivery? d.callback d.eventCallback p.2).toList)
            hpackets
          rw [show (handle callbacks (d, before) p).1.1.callback = d.callback
              from hdelivers.callback,
            show (handle callbacks (d, before) p).1.1.eventCallback =
              d.eventCallback from hdelivers.eventCallback] at hrest
          rw [attempt_cons_none hthrown, hstate]
          refine ⟨hrest.callback.trans hdelivers.callback,
            hrest.eventCallback.trans hdelivers.eventCallback,
            hrest.buffer.trans hdelivers.buffer, ?_, ?_, ?_⟩
          · rw [perform_append_none hnone, ← List.append_assoc]
            exact hrest.history
          · rw [perform_append_none hnone, List.flatMap_cons, hvisit]
            exact congrArg _ hrest.deliveries
          · rw [perform_append_none hnone]
            exact hrest.thrown

theorem filterMap_packetsAt {γ : Type} {f : List UInt8 → Option γ}
    (hf : f [] = none) (position : ℕ) (frames : List (List UInt8)) :
    (packetsAt position frames).filterMap (fun p => f p.2) =
      frames.filterMap f := by
  induction frames generalizing position with
  | nil => rfl
  | cons bytes frames ih =>
      cases bytes with
      | nil => rw [List.filterMap_cons_none hf]; exact ih _
      | cons c payload =>
          unfold packetsAt
          rw [List.filterMap_cons, List.filterMap_cons, ih]

theorem mem_of_mem_packetsAt {position : ℕ} {p : ℕ × List UInt8}
    (hp : p ∈ packetsAt position frames) : p.2 ∈ frames := by
  induction frames generalizing position with
  | nil => cases hp
  | cons bytes frames ih =>
      cases bytes with
      | nil => exact List.mem_cons_of_mem _ (ih hp)
      | cons c payload =>
          rcases List.mem_cons.mp hp with rfl | hp
          · exact List.mem_cons_self
          · exact List.mem_cons_of_mem _ (ih hp)

/-- `feed` on the packets that are complete then. -/
theorem feedThrowing_decomposition {consumed : ℕ}
    (hd : Decomposition (d.buffer ++ bytes) frames tail) :
    d.feedThrowing callbacks before consumed bytes =
      settle tail (attempt (handle callbacks)
        (d.setBuffer (d.buffer ++ bytes), before)
        (packetsAt consumed frames)) :=
  feedLoopThrowing_frames hd.bytes hd.small hd.rest

/-! ### Without exceptions -/

section Quiet

theorem decodeApplicationMessageThrowing_quiet (d : SoupBinDecoder)
    (before : List SoupBinEvent) (payload : List UInt8) :
    d.decodeApplicationMessageThrowing {} before payload =
      ((d.decodeApplicationMessage payload).1,
        (d.decodeApplicationMessage payload).2, none) := by
  unfold decodeApplicationMessageThrowing decodeApplicationMessage
  split
  · rfl
  · dsimp only
    rw [Parser.parseThrowing_quiet (counting_quiet _)]
    exact congrArg (_, _, ·) (escaping_or none _)

theorem packetThrowing_quiet (d : SoupBinDecoder)
    (before : List SoupBinEvent) (bytes : List UInt8) :
    d.packetThrowing {} before bytes =
      ((d.packet bytes).1, (d.packet bytes).2, none) := by
  have hnotify (d : SoupBinDecoder) (type : SoupBinPacketType)
      (payload : List UInt8) : d.notifyThrowing {} before type payload =
        ((d.notify type payload).1, (d.notify type payload).2, none) := by
    unfold notifyThrowing notify
    split
    · rfl
    · rfl
  cases bytes with
  | nil => rfl
  | cons c payload =>
      unfold packetThrowing packet processPacketThrowing processPacket
      dsimp only
      cases SoupBinPacketType.ofChar c with
      | loginAccepted =>
          dsimp only
          split
          · exact hnotify _ _ payload
          · exact hnotify _ _ payload
      | sequencedData =>
          dsimp only
          rw [decodeApplicationMessageThrowing_quiet]
      | unsequencedData =>
          exact decodeApplicationMessageThrowing_quiet d before payload
      | _ => exact hnotify d _ payload

theorem attempt_quiet (d : SoupBinDecoder) (before : List SoupBinEvent)
    (position : ℕ) (frames : List (List UInt8)) :
    (attempt (handle {}) (d, before) (packetsAt position frames)).1.1 =
        (Transducer.run packet d frames).1 ∧
      (attempt (handle {}) (d, before)
          (packetsAt position frames)).2.1.flatMap Visit.events =
        (Transducer.run packet d frames).2 ∧
      (attempt (handle {}) (d, before) (packetsAt position frames)).2.2 =
        none := by
  induction frames generalizing d before position with
  | nil => exact ⟨rfl, rfl, rfl⟩
  | cons bytes frames ih =>
      cases bytes with
      | nil => exact ih d before _
      | cons c payload =>
          have hpacket := packetThrowing_quiet d before (c :: payload)
          have hnone : (handle {} (d, before) (position, c :: payload)).2.2 =
              none := congrArg (·.2.2) hpacket
          have hstate : (handle {} (d, before)
              (position, c :: payload)).1.1 = (d.packet (c :: payload)).1 :=
            congrArg (·.1) hpacket
          have hevents : (handle {} (d, before)
              (position, c :: payload)).2.1.events =
                (d.packet (c :: payload)).2 := congrArg (·.2.1) hpacket
          obtain ⟨hrun, hcalls, hthrown⟩ := ih
            (handle {} (d, before) (position, c :: payload)).1.1
            (handle {} (d, before) (position, c :: payload)).1.2
            (position + (2 + (c :: payload).length))
          unfold packetsAt
          rw [attempt_cons_none hnone, Transducer.run_cons, List.flatMap_cons,
            hevents, ← hstate, ← hcalls]
          exact ⟨hrun, rfl, hthrown⟩

/-- Where nothing is thrown, this is the decoder without exceptions. -/
theorem feedThrowing_quiet (d : SoupBinDecoder) (before : List SoupBinEvent)
    (consumed : ℕ) (bytes : List UInt8) :
    (d.feedThrowing {} before consumed bytes).1 = (d.feed bytes).1 ∧
      (d.feedThrowing {} before consumed bytes).2.1.flatMap Visit.events =
        (d.feed bytes).2 ∧
      (d.feedThrowing {} before consumed bytes).2.2 = none := by
  obtain ⟨frames, tail, hd⟩ := Decomposition.exists (d.buffer ++ bytes)
  obtain ⟨hrun, hcalls, hthrown⟩ :=
    attempt_quiet (d.setBuffer (d.buffer ++ bytes)) before consumed frames
  rw [run_packet_setBuffer] at hrun hcalls
  rw [feedThrowing_decomposition hd, feed_decomposition hd]
  unfold settle
  rw [hthrown]
  dsimp only
  rw [hrun]
  exact ⟨rfl, hcalls, rfl⟩

end Quiet

/-- The message of a data packet. -/
def dataMessage? : List UInt8 → Option Message
  | [] => none
  | c :: payload => if isData (.ofChar c) then decodable payload else none

def messagesIn (visits : List Visit) : List Message :=
  (visits.flatMap Visit.events).filterMap SoupBinEvent.message?

theorem messagesIn_eq (visits : List Visit) : messagesIn visits =
    (visits.flatMap Visit.deliveries).filterMap SoupBinEvent.message? := by
  unfold messagesIn
  rw [List.filterMap_flatMap, List.filterMap_flatMap]
  congr 1
  funext v
  exact (messagesOf_filter v.events).symm

theorem settle_snd (outcome : (SoupBinDecoder × List SoupBinEvent) ×
    List Visit × Option Thrown) : (settle tail outcome).2 = outcome.2 := by
  rcases outcome with ⟨s, visits, _ | x⟩
  · rfl
  · rfl

theorem message?_deliveriesOf (eventCallback : Bool) (position : ℕ)
    (frames : List (List UInt8)) :
    (deliveriesOf true eventCallback (packetsAt position frames)).filterMap
        SoupBinEvent.message? = frames.filterMap dataMessage? := by
  have hbind (bytes : List UInt8) :
      (delivery? true eventCallback bytes).bind SoupBinEvent.message? =
        dataMessage? bytes := by
    cases bytes with
    | nil => rfl
    | cons c payload =>
        unfold delivery? dataMessage?
        dsimp only
        cases isData (.ofChar c) with
        | true =>
            cases decodable payload with
            | none => rfl
            | some m => rfl
        | false =>
            cases eventCallback with
            | false => rfl
            | true => rfl
  unfold deliveriesOf
  rw [List.filterMap_filterMap, ← filterMap_packetsAt rfl position]
  congr 1
  funext p
  exact hbind p.2

/-- The messages of the data packets go to the callback, until one is thrown
at that does not look like an error of the parser. -/
theorem messages_feedThrowing (callback : Throws Message Thrown)
    (before : List SoupBinEvent) (consumed : ℕ)
    (hcallback : d.callback = true)
    (hd : Decomposition (d.buffer ++ bytes) frames tail) :
    messagesIn (d.feedThrowing (.ofMessage callback) before consumed
        bytes).2.1 =
      (perform (sparing Thrown.isRuntimeError callback)
        (before.filterMap SoupBinEvent.message?)
        (frames.filterMap dataMessage?)).1 ∧
    (d.feedThrowing (.ofMessage callback) before consumed bytes).2.2 =
      (perform (sparing Thrown.isRuntimeError callback)
        (before.filterMap SoupBinEvent.message?)
        (frames.filterMap dataMessage?)).2 := by
  have hsmall : ∀ p ∈ packetsAt consumed frames, p.2.length < 2 ^ 16 := by
    intro p hp
    exact hd.small p.2 (mem_of_mem_packetsAt hp)
  have hperforms := performs_attempt (.ofMessage callback)
    (d.setBuffer (d.buffer ++ bytes)) before hsmall
  have hthrows (before : List SoupBinEvent) (e : SoupBinEvent) :
      (SoupBinCallbacks.ofMessage callback).escapes before e =
        (SoupBinEvent.message? e).bind
          (sparing Thrown.isRuntimeError callback
            (before.filterMap SoupBinEvent.message?)) := by
    cases e with
    | message m => rfl
    | event type payload => rfl
    | tracker e => rfl
  have hcalls : (deliveriesOf d.callback d.eventCallback
      (packetsAt consumed frames)).filterMap SoupBinEvent.message? =
        frames.filterMap dataMessage? := by
    rw [hcallback]
    exact message?_deliveriesOf _ _ _
  rw [feedThrowing_decomposition hd, settle_snd, messagesIn_eq, ← hcalls,
    perform_filterMap hthrows]
  exact ⟨congrArg _ hperforms.deliveries, hperforms.thrown⟩

end SoupBinDecoder

/-! ## §5  Errors of the consumer -/

/-- Of both decoders: what the message callback throws comes out of the call,
and a call that returns has delivered everything, exactly when the first
exception of the callback is not derived from `std::runtime_error`. -/
theorem forwards_iff_spared (callback : Throws Message Thrown) :
    (∀ (d : MoldUdp64Decoder) (before : List Message)
      (packet : List UInt8) (header : MoldUdp64Header)
      (frames : List (List UInt8)) (tail : List UInt8), d.callback = true →
      MoldUdp64Decoder.readHeader packet = some header →
      header.isEndOfSession = false → header.isHeartbeat = false →
      Decomposition (packet.drop MoldUdp64Decoder.HEADER_SIZE) frames tail →
      (Forwards callback before (frames.filterMap decodable)
          (MoldUdp64Decoder.delivered
            (d.stepThrowing callback before packet).2.1)
          (d.stepThrowing callback before packet).2.2 ↔
        Spared Thrown.isRuntimeError callback before
          (frames.filterMap decodable))) ∧
    ∀ (d : SoupBinDecoder) (before : List SoupBinEvent) (consumed : ℕ)
      (bytes : List UInt8) (frames : List (List UInt8)) (tail : List UInt8),
      d.callback = true → Decomposition (d.buffer ++ bytes) frames tail →
      (Forwards callback (before.filterMap SoupBinEvent.message?)
          (frames.filterMap SoupBinDecoder.dataMessage?)
          (SoupBinDecoder.messagesIn
            (d.feedThrowing (.ofMessage callback) before consumed bytes).2.1)
          (d.feedThrowing (.ofMessage callback) before consumed bytes).2.2 ↔
        Spared Thrown.isRuntimeError callback
          (before.filterMap SoupBinEvent.message?)
          (frames.filterMap SoupBinDecoder.dataMessage?)) := by
  constructor
  · intro d before packet header frames tail hcallback hheader hend hbeat hd
    obtain ⟨hmade, hresult⟩ := MoldUdp64Decoder.stepThrowing_data callback
      before hcallback hheader hend hbeat hd
    rw [hmade, hresult]
    exact forwards_caught_iff
  · intro d before consumed bytes frames tail hcallback hd
    obtain ⟨hmade, hresult⟩ := SoupBinDecoder.messages_feedThrowing callback
      before consumed hcallback hd
    rw [hmade, hresult]
    exact forwards_sparing_iff

/-- Throws at the message with this number. -/
def failsAt (n : ℕ) (x : Thrown) : Throws Message Thrown :=
  fun before _ => if before.length = n then some x else none

/-- A datagram with two messages. -/
def twoBlocks : List UInt8 :=
  MoldUdp64Header.bytes { sequenceNumber := 1, messageCount := 2 } ++
    ((List.replicate 2 (encodeMessage (.systemEvent {}))).map
      frameBytes).flatten

theorem decomposition_twoBlocks :
    Decomposition (twoBlocks.drop MoldUdp64Decoder.HEADER_SIZE)
      (List.replicate 2 (encodeMessage (.systemEvent {}))) [] := by
  refine ⟨by decide, ?_, .empty⟩
  rw [twoBlocks, List.append_nil]
  exact List.drop_left' (MoldUdp64Decoder.length_headerBytes _)

/-- Two sequenced packets with a message each. -/
def twoPackets : List (List UInt8) :=
  List.replicate 2 ('S'.toUInt8 :: encodeMessage (.systemEvent {}))

/-- An exception of another type at the second message comes out of both. -/
theorem forwards_iff_spared_stop :
    (Forwards (failsAt 1 (.other "stop")) []
      [.systemEvent {}, .systemEvent {}]
      (MoldUdp64Decoder.delivered (({} : MoldUdp64Decoder).stepThrowing
        (failsAt 1 (.other "stop")) [] twoBlocks).2.1)
      (({} : MoldUdp64Decoder).stepThrowing
        (failsAt 1 (.other "stop")) [] twoBlocks).2.2) ∧
    Forwards (failsAt 1 (.other "stop")) []
      [.systemEvent {}, .systemEvent {}]
      (SoupBinDecoder.messagesIn (({} : SoupBinDecoder).feedThrowing
        (.ofMessage (failsAt 1 (.other "stop"))) [] 0
        (twoPackets.map frameBytes).flatten).2.1)
      (({} : SoupBinDecoder).feedThrowing
        (.ofMessage (failsAt 1 (.other "stop"))) [] 0
        (twoPackets.map frameBytes).flatten).2.2 := by
  constructor
  · refine ((forwards_iff_spared (failsAt 1 (.other "stop"))).1 {} []
      twoBlocks _ _ _ rfl (MoldUdp64Decoder.readHeader_bytes _ _) rfl rfl
      decomposition_twoBlocks).mpr ?_
    rintro x hx
    cases hx
    rfl
  · have hd : Decomposition (({} : SoupBinDecoder).buffer ++
        (twoPackets.map frameBytes).flatten) twoPackets [] :=
      ⟨by decide, (List.append_nil _).symm, .empty⟩
    refine ((forwards_iff_spared (failsAt 1 (.other "stop"))).2 {} [] 0
      _ twoPackets [] rfl hd).mpr ?_
    rintro x hx
    cases hx
    rfl

/-- A `std::runtime_error` at the first message is taken for a datagram that
was cut short: nothing comes out, and the second message is lost. -/
theorem not_forwards_runtimeError :
    ¬Forwards (failsAt 0 (.runtimeError "full")) []
      [.systemEvent {}, .systemEvent {}]
      (MoldUdp64Decoder.delivered (({} : MoldUdp64Decoder).stepThrowing
        (failsAt 0 (.runtimeError "full")) [] twoBlocks).2.1)
      (({} : MoldUdp64Decoder).stepThrowing
        (failsAt 0 (.runtimeError "full")) [] twoBlocks).2.2 := by
  intro h
  obtain ⟨hmade, hresult⟩ := MoldUdp64Decoder.stepThrowing_data
    (d := {}) (failsAt 0 (.runtimeError "full")) [] rfl
    (MoldUdp64Decoder.readHeader_bytes _ _) rfl rfl decomposition_twoBlocks
  have hsome := hresult.symm.trans
    (h.propagates [] (.systemEvent {}) [] _ hmade rfl)
  cases hsome

end Transport

end Itch
