import Itch.Wire.Overlay
import Itch.Wire.RoundTrip

/-!
# Encoding undoes decoding

What a reader returns determines the bytes it was read off. §1 shows it for
the fields, §2 for the messages: a decoder loses no bit of its frame. §3 lifts
it to what a whole parse delivers.
-/

namespace Itch

open ByteCursor Overlay

/-! ## §1  Fields -/

theorem reads_unpack (α : Type) [Word α] [FullWord α] :
    Reads (unpack α) (fun bs a => bs = put a) := by
  apply reads_map (reads_take _)
  rintro _ ⟨bs, hlen⟩ rfl
  exact (encodeBE_decodeBE_word hlen).symm

theorem reads_unpackChar :
    Reads (unpack UInt8) (fun bs c => bs = putChar c) := by
  simp only [putChar_eq_put]
  exact reads_unpack UInt8

theorem reads_unpackString (n : ℕ) :
    Reads (unpackString n) (fun bs s => bs = putChars s) :=
  reads_take n

theorem toNat_timestamp (high : UInt16) (low : UInt32) :
    (high.toUInt64 <<< 32 ||| low.toUInt64).toNat =
      2 ^ 32 * high.toNat + low.toNat := by
  have hhigh := high.toNat_lt
  have hlow := low.toNat_lt
  have hor := Nat.two_pow_add_eq_or_of_lt (i := 32) hlow high.toNat
  rw [UInt64.toNat_or, UInt64.toNat_shiftLeft, UInt16.toNat_toUInt64,
    UInt32.toNat_toUInt64]
  show high.toNat <<< 32 % 2 ^ 64 ||| low.toNat = _
  rw [Nat.shiftLeft_eq, Nat.mod_eq_of_lt (by omega), Nat.mul_comm, ← hor]

/-- The halves of a timestamp are those it was put together from. -/
theorem putTimestamp_halves (high : UInt16) (low : UInt32) :
    putTimestamp (high.toUInt64 <<< 32 ||| low.toUInt64) =
      put high ++ put low := by
  have hhigh := high.toNat_lt
  have hlow := low.toNat_lt
  have hts := toNat_timestamp high low
  generalize high.toUInt64 <<< 32 ||| low.toUInt64 = timestamp at hts
  have h₁ : (timestamp >>> 32).toUInt16 = high := by
    rw [← UInt16.toNat_inj, UInt64.toNat_toUInt16, UInt64.toNat_shiftRight]
    show (timestamp.toNat >>> 32) % 2 ^ 16 = high.toNat
    rw [Nat.shiftRight_eq_div_pow, hts]
    omega
  have h₂ : (timestamp &&& 0xFFFFFFFF).toUInt32 = low := by
    rw [← UInt32.toNat_inj, UInt64.toNat_toUInt32, UInt64.toNat_and]
    show (timestamp.toNat &&& (2 ^ 32 - 1)) % 2 ^ 32 = low.toNat
    rw [Nat.and_two_pow_sub_one_eq_mod, hts]
    omega
  rw [putTimestamp, h₁, h₂]

theorem reads_unpackTimestamp : Reads unpackTimestamp
    (fun bs timestamp => bs = putTimestamp timestamp ∧ timestamp < 2 ^ 48) := by
  apply reads_bind (reads_unpack UInt16)
  rintro _ high rfl
  apply reads_bind (reads_unpack UInt32)
  rintro _ low rfl
  apply reads_pure
  constructor
  · rw [List.append_nil, putTimestamp_halves]
  · have hhigh := high.toNat_lt
    have hlow := low.toNat_lt
    rw [UInt64.lt_iff_toNat_lt, toNat_timestamp]
    show _ < 2 ^ 48
    omega

/-! ## §2  Messages -/

section Struct

variable {M : Type} [MessageStruct M] [UnpackMessage M] [WriteBody M]

/-- `unpack_message` reads what `write_body` writes of the result, and leaves
the header. -/
def BodyReads (M : Type) [MessageStruct M] [UnpackMessage M] [WriteBody M] :
    Prop :=
  ∀ msg : M, Reads (unpackMessage msg) (fun bs msg' =>
    bs = (writeBody msg').flatten ∧
      MessageStruct.header msg' = MessageStruct.header msg)

/-- What `decode_typed` reads behind the type byte of a message. -/
theorem reads_readTyped (hbody : BodyReads M) :
    Reads (readTyped M) (fun bs m => ∃ msg : M,
      m = MessageStruct.toMessage msg ∧
      (MessageStruct.header msg).messageType =
        (MessageStruct.header (MessageStruct.init : M)).messageType ∧
      (MessageStruct.header msg).timestamp < 2 ^ 48 ∧
      writeMessage msg = (MessageStruct.header msg).messageType :: bs) := by
  apply reads_bind (reads_unpack UInt16)
  rintro _ stockLocate rfl
  apply reads_bind (reads_unpack UInt16)
  rintro _ trackingNumber rfl
  apply reads_bind reads_unpackTimestamp
  rintro _ timestamp ⟨rfl, htime⟩
  apply reads_bind (hbody _)
  rintro _ msg ⟨rfl, hheader⟩
  apply reads_pure
  rw [MessageStruct.header_withHeader] at hheader
  refine ⟨msg, rfl, ?_, ?_, ?_⟩
  · rw [hheader]
  · rw [hheader]
    exact htime
  · rw [writeMessage, hheader]
    simp [writeHeader, putChar]

/-- A decoded message is written back as the bytes it was decoded from. -/
theorem encodeMessage_of_decodeTyped (hbody : BodyReads M)
    (hwrite : ∀ msg : M,
      encodeMessage (MessageStruct.toMessage msg) = writeMessage msg)
    {buffer : List UInt8} {m : Message}
    (h : decodeTyped M buffer = some m) : ∃ msg : M,
      m = MessageStruct.toMessage msg ∧
      (MessageStruct.header msg).messageType =
        (MessageStruct.header (MessageStruct.init : M)).messageType ∧
      (MessageStruct.header msg).timestamp < 2 ^ 48 ∧
      (encodeMessage m).drop 1 =
        (buffer.take m.alternative.wireSize).drop 1 := by
  obtain ⟨⟨m', last⟩, hread, hm⟩ := Option.map_eq_some_iff.mp h
  obtain rfl : m' = m := hm
  obtain ⟨bs, hbs, -, msg, rfl, htype, htime, hbytes⟩ :=
    reads_readTyped hbody buffer 1 m' last hread
  refine ⟨msg, rfl, htype, htime, ?_⟩
  have hlen := length_encodeMessage (MessageStruct.toMessage msg)
  rw [hwrite, hbytes, List.length_cons] at hlen
  rw [hwrite, hbytes, ← hlen, List.drop_take, Nat.add_sub_cancel,
    ← List.prefix_iff_eq_take.mp hbs]
  rfl

end Struct

/-- A decoder keeps every bit behind the type byte; the type byte of its
message is that of the type. -/
theorem encodeMessage_of_decode {t : MsgType} {buffer : List UInt8}
    {m : Message} (h : t.decode buffer = some m) :
    m.alternative = t ∧ m.OwnType ∧ m.header.timestamp < 2 ^ 48 ∧
      (encodeMessage m).drop 1 = (buffer.take t.wireSize).drop 1 := by
  cases t
  all_goals
    obtain ⟨msg, rfl, htype, htime, hbytes⟩ :=
      encodeMessage_of_decodeTyped (by
        intro msg
        simp only [unpackMessage, writeBody]
        repeat
          with_reducible
            first
            | apply reads_bind reads_unpackChar
            | apply reads_bind (reads_unpack _)
            | apply reads_bind (reads_unpackString _)
          rintro _ _ rfl
        apply reads_pure
        constructor
        · simp
        · rfl) (fun _ => rfl) h
    exact ⟨rfl, htype, htime, hbytes⟩

/-! ## §3  Frames and streams -/

/-- The message is encoded as the front of the frame it was decoded from. -/
structure Reencodes (payload : List UInt8) (m : Message) : Prop where
  event : FrameEvent payload (.message m)
  type : lookup (payload.headD 0) = some m.alternative
  size : m.alternative.wireSize ≤ payload.length
  bytes : encodeFrame m = encodeBE 2 m.alternative.wireSize ++
    payload.take m.alternative.wireSize

/-- The payload without the bytes behind the message. -/
def trimmed (payload : List UInt8) : List UInt8 :=
  match lookup (payload.headD 0) with
  | some t => payload.take t.wireSize
  | none => payload

theorem encodeMessage_of_frame {payload : List UInt8} {m : Message}
    (htype : lookup (payload.headD 0) = some m.alternative)
    (hown : m.OwnType) (hsize : m.alternative.wireSize ≤ payload.length)
    (hbytes : (encodeMessage m).drop 1 =
      (payload.take m.alternative.wireSize).drop 1) :
    encodeMessage m = payload.take m.alternative.wireSize := by
  have hhead := head_encodeMessage m
  have hpos := m.alternative.wireSize_bounds.1
  rw [hown, typeByte_of_lookup htype] at hhead
  rcases hm : encodeMessage m with _ | ⟨c, cs⟩
  · have hlen := length_encodeMessage m
    rw [hm, List.length_nil] at hlen
    omega
  · rcases payload with _ | ⟨b, bs⟩
    · rw [List.length_nil] at hsize
      omega
    · rw [hm, List.headD_cons, List.headD_cons] at hhead
      rw [hm] at hbytes
      obtain ⟨n, hn⟩ : ∃ n, m.alternative.wireSize = n + 1 :=
        ⟨_, (Nat.succ_pred_eq_of_pos (by omega)).symm⟩
      rw [hn] at hbytes ⊢
      rw [hhead, List.take_succ_cons]
      exact congrArg (b :: ·) hbytes

theorem reencodes_of_frameEvent {payload : List UInt8} {m : Message}
    (h : FrameEvent payload (.message m)) :
    Reencodes payload m ∧ m.OwnType ∧ m.header.timestamp < 2 ^ 48 := by
  have hevent := h
  cases h with
  | message htype hsize hdecode =>
      obtain ⟨rfl, hown, htime, hbytes⟩ := encodeMessage_of_decode hdecode
      rw [List.take_take, min_self] at hbytes
      have hmessage := encodeMessage_of_frame htype hown hsize hbytes
      refine ⟨⟨hevent, htype, hsize, ?_⟩, hown, htime⟩
      show StreamItem.bytes (some m) = _
      rw [StreamItem.bytes_eq, frameBytes, StreamItem.payload,
        length_encodeMessage, hmessage]

theorem Reencodes.frameBytes_trimmed {payload : List UInt8} {m : Message}
    (h : Reencodes payload m) : frameBytes (trimmed payload) = encodeFrame m := by
  unfold trimmed frameBytes
  rw [h.type, h.bytes]
  show encodeBE 2 (payload.take _).length ++ payload.take _ = _
  rw [List.length_take_of_le h.size]

/-- **Encoding undoes decoding.** Every delivered message is encoded as the
wire size of its type and that many bytes of its frame. Encoding all of them
leaves the accepted frames, cut to their messages; a parser delivers the same
messages again from that, and reports nothing else. -/
theorem encodeFrames_parse (p : Parser) (data : List UInt8) :
    ∃ frames tail p' events result,
      Decomposition data frames tail ∧
      p.parseImpl data = some (p', events, result) ∧
      List.Forall₂ Reencodes (frames.filter (fun f => decide (Accepted f)))
        (messages events) ∧
      ((messages events).map encodeFrame).flatten =
        ((frames.filter (fun f => decide (Accepted f))).map
          (fun f => frameBytes (trimmed f))).flatten ∧
      ∀ q : Parser, q.parseImpl ((messages events).map encodeFrame).flatten =
        some (q, (messages events).map .message, none) := by
  obtain ⟨frames, tail, hd⟩ := Decomposition.exists data
  obtain ⟨p', events, result, hparse, hframes⟩ := parseImpl_messages p hd
  have hdelivered : List.Forall₂
      (fun f m => FrameEvent f (.message m))
      (frames.filter (fun f => decide (Accepted f))) (messages events) := by
    rw [← map_snd_acceptedFrames 0, List.forall₂_map_left_iff]
    exact hframes
  have hreencodes := hdelivered.imp fun f m h => (reencodes_of_frameEvent h).1
  refine ⟨frames, tail, p', events, result, hd, hparse, hreencodes, ?_, ?_⟩
  · have hbytes : (messages events).map encodeFrame =
        (frames.filter (fun f => decide (Accepted f))).map
          (fun f => frameBytes (trimmed f)) := by
      have := hreencodes.imp fun f m h => h.frameBytes_trimmed
      symm
      rwa [← List.forall₂_eq_eq_eq, List.forall₂_map_left_iff,
        List.forall₂_map_right_iff]
    rw [hbytes]
  · intro q
    have hboth := hdelivered.flip.imp fun m f h =>
      And.intro (reencodes_of_frameEvent h).2 h
    have hown := ((List.forall₂_and_left _ _).mp hboth).1
    have hsend : ∀ item ∈ (messages events).map some,
        StreamItem.Sendable item := by
      rintro _ hitem m rfl
      exact hown m (by simpa using hitem)
    have hitems := q.parseImpl_items hsend
    rw [List.map_map, List.filterMap_map] at hitems
    rw [show encodeFrame = StreamItem.bytes ∘ some from rfl, hitems]
    simp

end Itch
