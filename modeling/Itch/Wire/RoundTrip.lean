import Itch.Wire.Encoder
import Itch.Wire.Framing

/-!
# Decoding undoes encoding

§1 and §2 show it for one message: field by field, what `write_body` puts is
what `unpack_message` reads. §3 lifts it to streams of frames with padding
between them.
-/

namespace Itch

open ByteCursor

/-! ## §1  Fields -/

theorem length_put {α : Type} [Word α] (a : α) :
    (put a).length = Word.width α := length_encodeBE ..

theorem inverts_unpack {α : Type} [Word α] (a : α) :
    Inverts (unpack α) (put a) a := by
  have h : Inverts (unpack α) (put a) (Word.ofNat (decodeBE (put a)) : α) :=
    inverts_map _ (inverts_take ⟨put a, length_put a⟩)
  rwa [put, decodeBE_encodeBE_word] at h

theorem putChar_eq_put (c : UInt8) : putChar c = put c := by
  show [c] = [UInt8.ofNat (c.toNat / 1)]
  rw [Nat.div_one, UInt8.ofNat_toNat]

theorem inverts_unpackChar (c : UInt8) :
    Inverts (unpack UInt8) (putChar c) c := by
  rw [putChar_eq_put]
  exact inverts_unpack c

theorem inverts_unpackString {n : ℕ} (s : Chars n) :
    Inverts (unpackString n) (putChars s) s := inverts_take s

/-- Both halves of a 48-bit timestamp come back. -/
theorem timestamp_halves {timestamp : UInt64} (h : timestamp < 2 ^ 48) :
    (timestamp >>> 32).toUInt16.toUInt64 <<< 32 |||
      (timestamp &&& 0xFFFFFFFF).toUInt32.toUInt64 = timestamp := by
  have hlt : timestamp.toNat < 2 ^ 48 := UInt64.lt_iff_toNat_lt.mp h
  have hhigh : timestamp.toNat / 2 ^ 32 < 2 ^ 16 := by omega
  have hlow : timestamp.toNat &&& (2 ^ 32 - 1) = timestamp.toNat % 2 ^ 32 :=
    Nat.and_two_pow_sub_one_eq_mod ..
  have hor := Nat.two_pow_add_eq_or_of_lt (i := 32)
    (Nat.mod_lt timestamp.toNat (by norm_num)) (timestamp.toNat / 2 ^ 32)
  rw [← UInt64.toNat_inj, UInt64.toNat_or, UInt64.toNat_shiftLeft,
    UInt16.toNat_toUInt64, UInt64.toNat_toUInt16, UInt64.toNat_shiftRight,
    UInt32.toNat_toUInt64, UInt64.toNat_toUInt32, UInt64.toNat_and]
  show ((timestamp.toNat >>> 32) % 2 ^ 16) <<< 32 % 2 ^ 64 |||
    (timestamp.toNat &&& (2 ^ 32 - 1)) % 2 ^ 32 = timestamp.toNat
  rw [Nat.shiftRight_eq_div_pow, Nat.shiftLeft_eq, Nat.mod_eq_of_lt hhigh,
    hlow, Nat.mod_mod, Nat.mod_eq_of_lt (by omega), Nat.mul_comm, ← hor]
  omega

theorem inverts_unpackTimestamp {timestamp : UInt64}
    (h : timestamp < 2 ^ 48) :
    Inverts unpackTimestamp (putTimestamp timestamp) timestamp := by
  have hbytes : putTimestamp timestamp = put (timestamp >>> 32).toUInt16 ++
      (put (timestamp &&& 0xFFFFFFFF).toUInt32 ++ []) := by
    rw [putTimestamp, List.append_nil]
  rw [hbytes]
  conv => arg 3; rw [← timestamp_halves h]
  apply inverts_bind (inverts_unpack _)
  apply inverts_bind (inverts_unpack _)
  exact inverts_pure _

/-! ## §2  Messages -/

section Struct

variable {M : Type} [MessageStruct M] [UnpackMessage M] [WriteBody M]

/-- `unpack_message` reads what `write_body` puts and leaves the header. -/
def BodyInverts (msg : M) : Prop :=
  ∀ into : M, Inverts (unpackMessage into) (writeBody msg).flatten
    (MessageStruct.withHeader msg (MessageStruct.header into))

theorem inverts_readTyped {msg : M} (hbody : BodyInverts msg)
    (htype : (MessageStruct.header msg).messageType =
      (MessageStruct.header (MessageStruct.init : M)).messageType)
    (htime : (MessageStruct.header msg).timestamp < 2 ^ 48) :
    Inverts (readTyped M) ((writeMessage msg).drop 1)
      (MessageStruct.toMessage msg) := by
  let h := MessageStruct.header msg
  have hbytes : (writeMessage msg).drop 1 = put h.stockLocate ++
      (put h.trackingNumber ++ (putTimestamp h.timestamp ++
        ((writeBody msg).flatten ++ []))) := by
    simp [writeMessage, writeHeader, putChar, h]
  have hheader : { MessageStruct.header (MessageStruct.init : M) with
      stockLocate := h.stockLocate
      trackingNumber := h.trackingNumber
      timestamp := h.timestamp } = h := by
    show MessageHeader.mk _ _ _ _ = h
    rw [← htype]
  have hinto : ∀ h', h' = h → Inverts
      (unpackMessage (MessageStruct.withHeader (MessageStruct.init : M) h'))
      (writeBody msg).flatten msg := by
    rintro _ rfl
    have := hbody (MessageStruct.withHeader MessageStruct.init h)
    rwa [MessageStruct.header_withHeader, MessageStruct.withHeader_header]
      at this
  rw [hbytes]
  apply inverts_bind (inverts_unpack _)
  apply inverts_bind (inverts_unpack _)
  apply inverts_bind (inverts_unpackTimestamp htime)
  exact inverts_bind (hinto _ hheader) (inverts_pure _)

theorem decodeTyped_writeMessage {msg : M} (hbody : BodyInverts msg)
    (htype : (MessageStruct.header msg).messageType =
      (MessageStruct.header (MessageStruct.init : M)).messageType)
    (htime : (MessageStruct.header msg).timestamp < 2 ^ 48)
    (rest : List UInt8) :
    decodeTyped M (writeMessage msg ++ rest) =
      some (MessageStruct.toMessage msg) := by
  have hsplit : writeMessage msg =
      [(MessageStruct.header msg).messageType] ++ (writeMessage msg).drop 1 :=
    rfl
  have h := inverts_readTyped hbody htype htime
    [(MessageStruct.header msg).messageType] rest
  rw [decodeTyped, hsplit, List.append_assoc]
  exact congrArg (Option.map (·.1)) h

end Struct

/-- The message carries the type byte of its alternative. -/
def Message.OwnType (m : Message) : Prop :=
  m.header.messageType = m.alternative.typeByte

/-- Every field list of the encoder is the field list of the decoder. -/
theorem decode_encodeMessage (m : Message) (htype : m.OwnType)
    (htime : m.header.timestamp < 2 ^ 48) (rest : List UInt8) :
    m.alternative.decode (encodeMessage m ++ rest) = some m := by
  cases m
  all_goals
    refine decodeTyped_writeMessage (fun into => ?_) ?_ ?_ rest
    · simp only [writeBody, unpackMessage, List.flatten_cons,
        List.flatten_nil]
      repeat
        with_reducible
          first
          | apply inverts_bind (inverts_unpack _)
          | apply inverts_bind (inverts_unpackChar _)
          | apply inverts_bind (inverts_unpackString _)
      exact inverts_pure _
    · exact htype
    · exact htime

@[simp] theorem length_putChar (c : UInt8) : (putChar c).length = 1 := rfl

@[simp] theorem length_putChars {n : ℕ} (s : Chars n) :
    (putChars s).length = n := s.property

theorem length_writeMessage {M : Type} [MessageStruct M] [WriteBody M]
    (msg : M) : (writeMessage msg).length =
      11 + ((writeBody msg).map List.length).sum := by
  rw [writeMessage, List.length_append, List.length_flatten]
  congr 1

/-- What is encoded has the wire size of its type. -/
theorem length_encodeMessage (m : Message) :
    (encodeMessage m).length = m.alternative.wireSize := by
  cases m
  all_goals
    refine (length_writeMessage _).trans ?_
    simp only [writeBody, List.map_cons, List.map_nil, length_put,
      length_putChar, length_putChars]
    rfl

theorem head_encodeMessage (m : Message) :
    (encodeMessage m).headD 0 = m.header.messageType := by
  cases m <;> rfl

theorem MsgType.lookup_typeByte (t : MsgType) : lookup t.typeByte = some t := by
  cases t <;> decide

/-! ## §3  Streams -/

/-- A message to be framed, or a zero-length padding frame. -/
abbrev StreamItem : Type := Option Message

def StreamItem.bytes : StreamItem → List UInt8
  | none => [0, 0]
  | some m => encodeFrame m

/-- The payload of the item's frame. -/
def StreamItem.payload : StreamItem → List UInt8
  | none => []
  | some m => encodeMessage m

theorem StreamItem.length_payload (item : StreamItem) :
    item.payload.length < 2 ^ 16 := by
  cases item with
  | none => simp [payload]
  | some m =>
      rw [payload, length_encodeMessage]
      exact m.alternative.wireSize_bounds.2

theorem StreamItem.bytes_eq (item : StreamItem) :
    item.bytes = frameBytes item.payload := by
  cases item with
  | none => rfl
  | some m =>
      have hlen := length_payload (some m)
      show put (UInt16.ofNat (encodeMessage m).length) ++ encodeMessage m = _
      rw [put, frameBytes]
      congr 2
      show (UInt16.ofNat _).toNat = _
      rw [UInt16.toNat_ofNat']
      exact Nat.mod_eq_of_lt hlen

/-- The frame of a message is not padding, and is worth that message. -/
theorem frameEvent_encodeMessage (m : Message) (htype : m.OwnType)
    (htime : m.header.timestamp < 2 ^ 48) :
    encodeMessage m ≠ [] ∧ FrameEvent (encodeMessage m) (.message m) := by
  have hlen := length_encodeMessage m
  have hpos := m.alternative.wireSize_bounds.1
  constructor
  · intro hnil
    rw [hnil] at hlen
    simp at hlen
    omega
  · refine .message (t := m.alternative) ?_ hlen.ge ?_
    · rw [head_encodeMessage, htype]
      exact m.alternative.lookup_typeByte
    · rw [← hlen, List.take_length]
      have := decode_encodeMessage m htype htime []
      rwa [List.append_nil] at this

/-- The item can be sent: it is padding, or its message is well formed. -/
def StreamItem.Sendable (item : StreamItem) : Prop :=
  ∀ m, item = some m → m.OwnType ∧ m.header.timestamp < 2 ^ 48

theorem forall₂_frameEvent {items : List StreamItem}
    (h : ∀ item ∈ items, item.Sendable) :
    List.Forall₂ FrameEvent
      ((items.map StreamItem.payload).filter (· ≠ []))
      ((items.filterMap id).map .message) := by
  induction items with
  | nil => exact .nil
  | cons item items ih =>
      have ih' := ih fun i hi => h i (List.mem_cons_of_mem _ hi)
      cases item with
      | none => exact ih'
      | some m =>
          obtain ⟨htype, htime⟩ := h _ List.mem_cons_self m rfl
          obtain ⟨hne, hev⟩ := frameEvent_encodeMessage m htype htime
          have hfilter : ((some m :: items).map StreamItem.payload).filter
              (· ≠ []) = encodeMessage m ::
                (items.map StreamItem.payload).filter (· ≠ []) :=
            List.filter_cons_of_pos (decide_eq_true hne)
          rw [hfilter]
          exact .cons hev ih'

theorem StreamItem.count_payload (p : Parser) {item : StreamItem}
    (h : item.Sendable) : p.count [item.payload] = p := by
  cases item with
  | none =>
      exact p.count_decoded (fun _ h => absurd rfl h) (fun h => absurd rfl h)
  | some m =>
      obtain ⟨htype, htime⟩ := h m rfl
      have hlook : lookup ((encodeMessage m).headD 0) = some m.alternative := by
        rw [head_encodeMessage, htype]
        exact m.alternative.lookup_typeByte
      refine p.count_decoded (fun t _ ht => ?_) fun _ => ?_
      · rw [payload, hlook] at ht
        rw [← Option.some.inj ht, payload, length_encodeMessage]
      · rw [payload, hlook]
        exact Option.some_ne_none _

theorem count_payloads (p : Parser) {items : List StreamItem}
    (h : ∀ item ∈ items, item.Sendable) :
    p.count (items.map StreamItem.payload) = p := by
  induction items with
  | nil => exact p.count_nil
  | cons item items ih =>
      rw [List.map_cons, ← List.singleton_append, p.count_append,
        StreamItem.count_payload p (h item List.mem_cons_self)]
      exact ih fun i hi => h i (List.mem_cons_of_mem _ hi)

namespace Parser

theorem parseImpl_items (p : Parser) {items : List StreamItem}
    (hsend : ∀ item ∈ items, item.Sendable) :
    p.parseImpl (items.map StreamItem.bytes).flatten =
      some (p, (items.filterMap id).map .message, none) := by
  have hd : Decomposition (items.map StreamItem.bytes).flatten
      (items.map StreamItem.payload) [] := by
    refine ⟨?_, ?_, .empty⟩
    · intro f hf
      obtain ⟨item, _, rfl⟩ := List.mem_map.mp hf
      exact item.length_payload
    · rw [List.append_nil, List.map_map]
      congr 2
      funext item
      exact item.bytes_eq
  obtain ⟨evs, hev, hparse⟩ := p.parseImpl_decomposition hd
  have hevs : evs = (items.filterMap id).map .message :=
    List.right_unique_forall₂' FrameEvent.rightUnique hev
      (forall₂_frameEvent hsend)
  have hall : ∀ e ∈ evs, p.delivers e = true := by
    rw [hevs]
    intro e he
    obtain ⟨m, _, rfl⟩ := List.mem_map.mp he
    rfl
  rw [hparse, count_payloads p hsend, ← hevs]
  simp [Parser.countTail, tailEvents, tailResult,
    List.filter_eq_self.mpr hall]

end Parser

/-- **Decoding undoes encoding.** A stream of encoded frames, with padding
anywhere between them, is parsed into exactly the messages it was made from;
no error is reported and no counter moves. -/
theorem parse_encodeFrames (p : Parser) (items : List StreamItem)
    (h : ∀ m, some m ∈ items → m.OwnType ∧ m.header.timestamp < 2 ^ 48) :
    p.parseImpl (items.map StreamItem.bytes).flatten =
      some (p, (items.filterMap id).map .message, none) := by
  refine p.parseImpl_items ?_
  rintro item hi m rfl
  exact h m hi

/-- A system event and an order deletion around a padding frame. -/
def twoMessages : List StreamItem :=
  [some (.systemEvent { timestamp := 7, eventCode := 'O'.toUInt8 }), none,
    some (.orderDelete { stockLocate := 5, orderReferenceNumber := 2 ^ 40 })]

theorem parse_encodeFrames_twoMessages :
    Parser.parseImpl {} (twoMessages.map StreamItem.bytes).flatten =
      some ({}, (twoMessages.filterMap id).map .message, none) :=
  parse_encodeFrames {} twoMessages (by
    intro m hm
    simp only [twoMessages, List.mem_cons, List.not_mem_nil, or_false,
      Option.some.injEq, reduceCtorEq, false_or] at hm
    rcases hm with rfl | rfl <;> exact ⟨by rfl, by decide⟩)

end Itch
