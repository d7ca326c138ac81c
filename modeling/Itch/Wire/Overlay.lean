import Itch.Wire.Framing

/-!
# The zero-copy overlay

§1 translates the views, which read fields at fixed offsets when asked, and
the framing loop of their own. §2 shows that the loop stops at the frames the
parser decodes, §3 that the views read there what the parser has decoded.

As in the parser, a read past the end of the buffer is `none`.
-/

namespace Itch

open ByteCursor

namespace Overlay

/-! ## §1  Views -/

def readField (FieldType : Type) [Word FieldType] (base : List UInt8)
    (offset : ℕ) : Option FieldType :=
  if offset + Word.width FieldType ≤ base.length then
    some (Word.ofNat
      (decodeBE ((base.drop offset).take (Word.width FieldType))))
  else none

def readTimestamp (base : List UInt8) (offset : ℕ) : Option UInt64 := do
  let high ← readField UInt16 base offset
  let low ← readField UInt32 base (offset + 2)
  return (high.toUInt64 <<< 32) ||| low.toUInt64

/-- The stock field, untrimmed. -/
def readStock (base : List UInt8) (offset : ℕ) : Option (Chars 8) :=
  if h : offset + 8 ≤ base.length then
    some ⟨(base.drop offset).take 8, by
      rw [List.length_take, List.length_drop]; omega⟩
  else none

def STOCK_LOCATE_OFFSET : ℕ := 1

def TRACKING_NUMBER_OFFSET : ℕ := 3

def TIMESTAMP_OFFSET : ℕ := 5

/-- A pointer to the type byte of a frame, that is the buffer from there on,
and the size of the frame. -/
structure MessageView where
  data : List UInt8
  size : ℕ
deriving DecidableEq, Repr

namespace MessageView

def type (v : MessageView) : Option UInt8 := v.data.head?

def stockLocate (v : MessageView) : Option UInt16 :=
  readField UInt16 v.data STOCK_LOCATE_OFFSET

def trackingNumber (v : MessageView) : Option UInt16 :=
  readField UInt16 v.data TRACKING_NUMBER_OFFSET

def timestamp (v : MessageView) : Option UInt64 :=
  readTimestamp v.data TIMESTAMP_OFFSET

def read (FieldType : Type) [Word FieldType] (v : MessageView) (offset : ℕ) :
    Option FieldType := readField FieldType v.data offset

end MessageView

namespace AddOrderView

def orderReferenceNumber (v : MessageView) := v.read UInt64 11

def buySellIndicator (v : MessageView) := v.read UInt8 19

def shares (v : MessageView) := v.read UInt32 20

def stock (v : MessageView) := readStock v.data 24

def price (v : MessageView) := v.read UInt32 32

end AddOrderView

namespace OrderExecutedView

def orderReferenceNumber (v : MessageView) := v.read UInt64 11

def executedShares (v : MessageView) := v.read UInt32 19

def matchNumber (v : MessageView) := v.read UInt64 23

end OrderExecutedView

namespace OrderExecutedWithPriceView

def orderReferenceNumber (v : MessageView) := v.read UInt64 11

def executedShares (v : MessageView) := v.read UInt32 19

def matchNumber (v : MessageView) := v.read UInt64 23

def printable (v : MessageView) := v.read UInt8 31

def executionPrice (v : MessageView) := v.read UInt32 32

end OrderExecutedWithPriceView

namespace OrderCancelView

def orderReferenceNumber (v : MessageView) := v.read UInt64 11

def cancelledShares (v : MessageView) := v.read UInt32 19

end OrderCancelView

namespace OrderDeleteView

def orderReferenceNumber (v : MessageView) := v.read UInt64 11

end OrderDeleteView

namespace OrderReplaceView

def originalOrderReferenceNumber (v : MessageView) := v.read UInt64 11

def newOrderReferenceNumber (v : MessageView) := v.read UInt64 19

def shares (v : MessageView) := v.read UInt32 27

def price (v : MessageView) := v.read UInt32 31

end OrderReplaceView

namespace NonCrossTradeView

def orderReferenceNumber (v : MessageView) := v.read UInt64 11

def buySellIndicator (v : MessageView) := v.read UInt8 19

def shares (v : MessageView) := v.read UInt32 20

def stock (v : MessageView) := readStock v.data 24

def price (v : MessageView) := v.read UInt32 32

def matchNumber (v : MessageView) := v.read UInt64 36

end NonCrossTradeView

def buildSizeTable : List UInt16 :=
  registry.foldl
    (fun table (t, type) => table.set type.toNat (UInt16.ofNat t.wireSize))
    (List.replicate 256 0)

def SIZE_TABLE : List UInt16 := buildSizeTable

/-- The loop of `for_each_message` from `offset` on: the views it delivers
and the final count. -/
def overlayLoop (data : List UInt8) (offset : ℕ) (delivered : UInt64) :
    List MessageView × UInt64 :=
  if offset + 2 ≤ data.length then
    let length := decodeBE ((data.drop offset).take 2)
    let offset := offset + 2
    if length = 0 then overlayLoop data offset delivered
    else if offset + length > data.length then ([], delivered)
    else
      let frame := data.drop offset
      let messageType := frame.headD 0
      let offset := offset + length
      let expected := SIZE_TABLE.getD messageType.toNat 0
      if expected = 0 ∨ length < expected.toNat then
        overlayLoop data offset delivered  -- unknown type or undersized frame
      else
        let rest := overlayLoop data offset (delivered + 1)
        (⟨frame, length⟩ :: rest.1, rest.2)
  else ([], delivered)
termination_by data.length - offset

def forEachMessage (data : List UInt8) : List MessageView × UInt64 :=
  overlayLoop data 0 0

/-! ## §2  The same frames -/

theorem sizeTable_eq (c : UInt8) :
    SIZE_TABLE.getD c.toNat 0 =
      match lookup c with
      | none => 0
      | some t => UInt16.ofNat t.wireSize := by
  have hlt : c.toNat < (List.replicate 256 (0 : UInt16)).length := by
    rw [List.length_replicate]
    exact c.toNat_lt
  rw [SIZE_TABLE, buildSizeTable]
  change (registry.foldl (fun table e => table.set e.2.toNat
    (UInt16.ofNat e.1.wireSize)) (List.replicate 256 0)).getD c.toNat 0 = _
  rw [getD_foldl_set hlt nodup_registry, find?_registry, lookup]
  cases registry.find? (fun e => e.2 == c) with
  | none =>
      rw [List.getD_eq_getElem?_getD, List.getElem?_replicate]
      split <;> rfl
  | some e => rfl

/-- The parser decodes this frame. -/
def Accepted (payload : List UInt8) : Prop :=
  ∃ t, lookup (payload.headD 0) = some t ∧ t.wireSize ≤ payload.length

instance (payload : List UInt8) : Decidable (Accepted payload) :=
  match h : lookup (payload.headD 0) with
  | none => isFalse fun ⟨t, ht, _⟩ => by rw [h] at ht; cases ht
  | some t =>
      decidable_of_iff (t.wireSize ≤ payload.length)
        ⟨fun hle => ⟨t, h, hle⟩, fun ⟨t', ht, hle⟩ => by
          rw [h] at ht
          rwa [Option.some.inj ht]⟩

/-- Frames with the offsets of their payloads, the first one at `offset`. -/
def framesAt : ℕ → List (List UInt8) → List (ℕ × List UInt8)
  | _, [] => []
  | offset, payload :: frames =>
      (offset + 2, payload) :: framesAt (offset + (2 + payload.length)) frames

/-- The frames the parser decodes, with their offsets. -/
def acceptedFrames (frames : List (ℕ × List UInt8)) : List (ℕ × List UInt8) :=
  frames.filter (fun f => decide (Accepted f.2))

theorem acceptedFrames_cons (f : ℕ × List UInt8)
    (frames : List (ℕ × List UInt8)) : acceptedFrames (f :: frames) =
      if Accepted f.2 then f :: acceptedFrames frames
      else acceptedFrames frames := by
  rw [acceptedFrames, List.filter_cons]
  simp only [decide_eq_true_eq]
  rfl

/-- The view of a frame. -/
def viewOf (data : List UInt8) (f : ℕ × List UInt8) : MessageView :=
  ⟨data.drop f.1, f.2.length⟩

theorem overlayLoop_frame {data payload rest : List UInt8} {offset : ℕ}
    (delivered : UInt64)
    (hdata : data.drop offset = frameBytes payload ++ rest)
    (hsmall : payload.length < 2 ^ 16) :
    overlayLoop data offset delivered =
      if Accepted payload then
        (viewOf data (offset + 2, payload) :: (overlayLoop data
          (offset + (2 + payload.length)) (delivered + 1)).1,
          (overlayLoop data (offset + (2 + payload.length))
            (delivered + 1)).2)
      else overlayLoop data (offset + (2 + payload.length)) delivered := by
  obtain ⟨hlen, hlength, hdata', _⟩ := drop_frame hdata hsmall
  rw [overlayLoop, if_pos (by omega)]
  simp only [hlength, Nat.add_assoc]
  cases payload with
  | nil =>
      have hno : ¬ Accepted [] := by decide
      rw [if_pos (List.length_nil), if_neg hno]
      rfl
  | cons c cs =>
      have hhead : ((c :: cs) ++ rest).headD 0 = c := rfl
      rw [if_neg (by simp), if_neg (by omega), hdata', hhead, sizeTable_eq]
      cases ht : lookup c with
      | none =>
          have hno : ¬ Accepted (c :: cs) := by
            rintro ⟨t, ht', _⟩
            rw [List.headD_cons, ht] at ht'
            cases ht'
          rw [if_pos (Or.inl rfl), if_neg hno]
      | some t =>
          have hne : UInt16.ofNat t.wireSize ≠ 0 := by
            rw [Ne, ← UInt16.toNat_inj, t.toNat_wireSize]
            have := t.wireSize_bounds.1
            simp
            omega
          have hiff : Accepted (c :: cs) ↔ t.wireSize ≤ (c :: cs).length := by
            constructor
            · rintro ⟨t', ht', hle⟩
              rw [List.headD_cons, ht] at ht'
              rwa [Option.some.inj ht']
            · exact fun hle => ⟨t, ht, hle⟩
          simp only [t.toNat_wireSize, hne, false_or]
          -- a known type is skipped exactly when its frame is undersized
          by_cases hsize : (c :: cs).length < t.wireSize
          · rw [if_pos hsize, if_neg fun h => by
              have := hiff.mp h
              omega]
          · rw [if_neg hsize, if_pos (hiff.mpr (not_lt.mp hsize)), viewOf,
              hdata']

theorem overlayLoop_tail {data tail : List UInt8} {offset : ℕ}
    (delivered : UInt64) (hdata : data.drop offset = tail) (ht : IsTail tail) :
    overlayLoop data offset delivered = ([], delivered) := by
  have hlen : data.length - offset = tail.length := by
    rw [← List.length_drop, hdata]
  cases ht with
  | empty =>
      rw [List.length_nil] at hlen
      rw [overlayLoop, if_neg (by omega)]
  | byte b =>
      rw [List.length_singleton] at hlen
      rw [overlayLoop, if_neg (by omega)]
  | short n payload hn hlt =>
      obtain ⟨hlen, hlength⟩ := drop_short hdata hn
      rw [overlayLoop, if_pos (by omega)]
      simp only [hlength]
      rw [if_neg (by omega), if_pos (by omega)]

theorem overlayLoop_frames {data tail : List UInt8} (ht : IsTail tail) :
    ∀ {frames : List (List UInt8)} {offset : ℕ} (delivered : UInt64),
      data.drop offset = (frames.map frameBytes).flatten ++ tail →
      (∀ payload ∈ frames, payload.length < 2 ^ 16) →
      overlayLoop data offset delivered =
        ((acceptedFrames (framesAt offset frames)).map (viewOf data),
          delivered + UInt64.ofNat
            (acceptedFrames (framesAt offset frames)).length) := by
  intro frames
  induction frames with
  | nil =>
      intro offset delivered hdata _
      rw [overlayLoop_tail delivered hdata ht]
      simp [framesAt, acceptedFrames]
  | cons payload frames ih =>
      intro offset delivered hdata hsmall
      rw [List.map_cons, List.flatten_cons, List.append_assoc] at hdata
      obtain ⟨_, _, _, hnext⟩ :=
        drop_frame hdata (hsmall payload List.mem_cons_self)
      have hsmall' := fun f hf => hsmall f (List.mem_cons_of_mem payload hf)
      rw [overlayLoop_frame delivered hdata (hsmall _ List.mem_cons_self),
        ih _ hnext hsmall', ih _ hnext hsmall']
      rw [framesAt, acceptedFrames_cons]
      by_cases hacc : Accepted payload
      · rw [if_pos hacc, if_pos hacc, List.map_cons, List.length_cons,
          UInt64.ofNat_add]
        refine Prod.ext rfl ?_
        show delivered + 1 + _ = delivered + (_ + 1)
        rw [UInt64.add_assoc, UInt64.add_comm 1]
      · rw [if_neg hacc, if_neg hacc]

/-- The frames are where `framesAt` says. -/
theorem drop_framesAt {data rest : List UInt8} :
    ∀ {frames : List (List UInt8)} {offset : ℕ},
      data.drop offset = (frames.map frameBytes).flatten ++ rest →
      (∀ payload ∈ frames, payload.length < 2 ^ 16) →
      ∀ f ∈ framesAt offset frames, ∃ r, data.drop f.1 = f.2 ++ r := by
  intro frames
  induction frames with
  | nil => intro _ _ _ f hf; cases hf
  | cons payload frames ih =>
      intro offset hdata hsmall f hf
      rw [List.map_cons, List.flatten_cons, List.append_assoc] at hdata
      obtain ⟨_, _, hpayload, hnext⟩ :=
        drop_frame hdata (hsmall payload List.mem_cons_self)
      rcases List.mem_cons.mp hf with rfl | hf
      · exact ⟨_, hpayload⟩
      · exact ih hnext (fun f hf => hsmall f (List.mem_cons_of_mem _ hf)) f hf

theorem map_snd_framesAt (offset : ℕ) (frames : List (List UInt8)) :
    (framesAt offset frames).map (·.2) = frames := by
  induction frames generalizing offset with
  | nil => rfl
  | cons payload frames ih => rw [framesAt, List.map_cons, ih]

theorem map_snd_acceptedFrames (offset : ℕ) (frames : List (List UInt8)) :
    (acceptedFrames (framesAt offset frames)).map (·.2) =
      frames.filter (fun f => decide (Accepted f)) := by
  conv => rhs; rw [← map_snd_framesAt offset frames, List.filter_map]
  rfl

/-- The messages among the events. -/
def messages (events : List ParserEvent) : List Message :=
  events.filterMap fun
    | .message m => some m
    | .error _ _ => none

theorem messages_filter (p : Parser) (events : List ParserEvent) :
    messages (events.filter p.delivers) = messages events := by
  induction events with
  | nil => rfl
  | cons e events ih =>
      cases e with
      | message m => exact congrArg (m :: ·) ih
      | error error c =>
          cases h : p.hasErrorCallback <;>
            simpa [Parser.delivers, h, messages] using ih

theorem accepted_iff {payload : List UInt8} {e : ParserEvent}
    (h : FrameEvent payload e) :
    Accepted payload ↔ ∃ m, e = .message m := by
  cases h with
  | message ht hsize _ => exact ⟨fun _ => ⟨_, rfl⟩, fun _ => ⟨_, ht, hsize⟩⟩
  | unknownType ht =>
      refine ⟨fun ⟨t, ht', _⟩ => ?_, fun ⟨_, h⟩ => by cases h⟩
      rw [ht] at ht'
      cases ht'
  | sizeMismatch ht hsize =>
      refine ⟨fun ⟨t, ht', hle⟩ => ?_, fun ⟨_, h⟩ => by cases h⟩
      rw [ht] at ht'
      rw [Option.some.inj ht'] at hsize
      omega

/-- The accepted frames are those whose events are messages. -/
theorem forall₂_messages {frames : List (ℕ × List UInt8)} :
    ∀ {events : List ParserEvent}, List.Forall₂ FrameEvent
      ((frames.map (·.2)).filter (· ≠ [])) events →
    List.Forall₂ (fun f m => FrameEvent f.2 (.message m))
      (acceptedFrames frames) (messages events) := by
  induction frames with
  | nil =>
      intro events h
      cases h
      exact .nil
  | cons f frames ih =>
      intro events h
      rw [acceptedFrames_cons]
      rw [List.map_cons, List.filter_cons] at h
      by_cases hne : f.2 = []
      · have hno : ¬ Accepted f.2 := by
          rw [hne]
          decide
        rw [if_neg hno]
        exact ih (by simpa [hne] using h)
      · rw [if_pos (decide_eq_true hne)] at h
        obtain ⟨e, events, he, h', rfl⟩ := List.forall₂_cons_left_iff.mp h
        cases e with
        | message m =>
            rw [if_pos ((accepted_iff he).mpr ⟨m, rfl⟩)]
            exact .cons he (ih h')
        | error error c =>
            rw [if_neg fun hacc => by
              obtain ⟨m, hm⟩ := (accepted_iff he).mp hacc
              cases hm]
            show List.Forall₂ _ _ (messages events)
            exact ih h'

/-- The messages a parse delivers, each from an accepted frame. -/
theorem parseImpl_messages (p : Parser) {data tail : List UInt8}
    {frames : List (List UInt8)} (hd : Decomposition data frames tail) :
    ∃ p' events result, p.parseImpl data = some (p', events, result) ∧
      List.Forall₂ (fun f m => FrameEvent f.2 (.message m))
        (acceptedFrames (framesAt 0 frames)) (messages events) := by
  obtain ⟨evs, hev, hparse⟩ := p.parseImpl_decomposition hd
  have hmessages : messages ((evs ++ tailEvents tail).filter p.delivers) =
      messages evs := by
    have htail : messages (tailEvents tail) = [] := by
      by_cases ht : tail = [] <;> simp [tailEvents, ht, messages]
    rw [messages_filter, messages, List.filterMap_append]
    show messages evs ++ messages (tailEvents tail) = _
    rw [htail, List.append_nil]
  refine ⟨_, _, _, hparse, ?_⟩
  rw [hmessages]
  exact forall₂_messages (by rwa [map_snd_framesAt])

/-- The same for `parse`, by the payloads alone. -/
theorem forall₂_parse (p : Parser) {data tail : List UInt8}
    {frames : List (List UInt8)} (hd : Decomposition data frames tail) :
    List.Forall₂ (fun f m => FrameEvent f (.message m))
      (frames.filter fun f => decide (Accepted f))
      (p.parse data).messages := by
  obtain ⟨p', events, result, hparse, hframes⟩ := parseImpl_messages p hd
  rw [p.parse_eq hparse, ← map_snd_acceptedFrames 0,
    List.forall₂_map_left_iff]
  exact hframes

theorem decodable_eq_none {payload : List UInt8} (h : ¬Accepted payload) :
    decodable payload = none := by
  rw [decodable, Option.bind_eq_none_iff]
  intro t ht
  rw [if_neg fun hsize => h ⟨t, ht, hsize⟩]

/-- The messages of a parse are the frames that can be decoded. -/
theorem messages_parse (p : Parser) {data tail : List UInt8}
    {frames : List (List UInt8)} (hd : Decomposition data frames tail) :
    (p.parse data).messages = frames.filterMap decodable := by
  have hframes := forall₂_parse p hd
  generalize (p.parse data).messages = ms at hframes ⊢
  clear hd
  induction frames generalizing ms with
  | nil =>
      cases hframes
      rfl
  | cons payload frames ih =>
      rw [List.filter_cons] at hframes
      by_cases haccepted : Accepted payload
      · rw [if_pos (decide_eq_true haccepted)] at hframes
        obtain ⟨m, ms', hm, hms', rfl⟩ := List.forall₂_cons_left_iff.mp hframes
        rw [List.filterMap_cons_some (decodable_eq_some_iff.mpr hm),
          ih ms' hms']
      · rw [if_neg (by simpa using haccepted)] at hframes
        rw [List.filterMap_cons_none (decodable_eq_none haccepted), ih ms hframes]

theorem messages_parse_frame (p : Parser) {payload : List UInt8}
    (hsmall : payload.length < 2 ^ 16) :
    (p.parse (frameBytes payload)).messages = (decodable payload).toList := by
  rw [messages_parse p (.frame hsmall), List.filterMap_cons]
  cases decodable payload with
  | none => rfl
  | some m => rfl

/-! ## §3  The same fields -/

/-- The view reads the common fields of the message. -/
structure HeaderAgrees (v : MessageView) (h : MessageHeader) : Prop where
  type : v.type = some h.messageType
  stockLocate : v.stockLocate = some h.stockLocate
  trackingNumber : v.trackingNumber = some h.trackingNumber
  timestamp : v.timestamp = some h.timestamp

/-- The typed view reads the fields of the body, where there is one. -/
def BodyAgrees (v : MessageView) : Message → Prop
  | .addOrder msg =>
      AddOrderView.orderReferenceNumber v = some msg.orderReferenceNumber ∧
      AddOrderView.buySellIndicator v = some msg.buySellIndicator ∧
      AddOrderView.shares v = some msg.shares ∧
      AddOrderView.stock v = some msg.stock ∧
      AddOrderView.price v = some msg.price
  | .orderExecuted msg =>
      OrderExecutedView.orderReferenceNumber v =
        some msg.orderReferenceNumber ∧
      OrderExecutedView.executedShares v = some msg.executedShares ∧
      OrderExecutedView.matchNumber v = some msg.matchNumber
  | .orderExecutedWithPrice msg =>
      OrderExecutedWithPriceView.orderReferenceNumber v =
        some msg.orderReferenceNumber ∧
      OrderExecutedWithPriceView.executedShares v =
        some msg.executedShares ∧
      OrderExecutedWithPriceView.matchNumber v = some msg.matchNumber ∧
      OrderExecutedWithPriceView.printable v = some msg.printable ∧
      OrderExecutedWithPriceView.executionPrice v = some msg.executionPrice
  | .orderCancel msg =>
      OrderCancelView.orderReferenceNumber v = some msg.orderReferenceNumber ∧
      OrderCancelView.cancelledShares v = some msg.cancelledShares
  | .orderDelete msg =>
      OrderDeleteView.orderReferenceNumber v = some msg.orderReferenceNumber
  | .orderReplace msg =>
      OrderReplaceView.originalOrderReferenceNumber v =
        some msg.originalOrderReferenceNumber ∧
      OrderReplaceView.newOrderReferenceNumber v =
        some msg.newOrderReferenceNumber ∧
      OrderReplaceView.shares v = some msg.shares ∧
      OrderReplaceView.price v = some msg.price
  | .nonCrossTrade msg =>
      NonCrossTradeView.orderReferenceNumber v =
        some msg.orderReferenceNumber ∧
      NonCrossTradeView.buySellIndicator v = some msg.buySellIndicator ∧
      NonCrossTradeView.shares v = some msg.shares ∧
      NonCrossTradeView.stock v = some msg.stock ∧
      NonCrossTradeView.price v = some msg.price ∧
      NonCrossTradeView.matchNumber v = some msg.matchNumber
  | _ => True

def ViewAgrees (v : MessageView) (m : Message) : Prop :=
  HeaderAgrees v m.header ∧ BodyAgrees v m

section Reads

variable {γ : Type} {buffer : List UInt8} {offset last : ℕ} {c : γ}

/-- A field that was unpacked is what the view reads at that offset. -/
theorem unpack_bind_eq {α : Type} [Word α] {k : α → Reader UInt8 γ}
    (h : (unpack α >>= k) buffer offset = some (c, last)) :
    ∃ a, readField α buffer offset = some a ∧
      k a buffer (offset + Word.width α) = some (c, last) := by
  rw [bind_apply, unpack, map_apply, take] at h
  by_cases hle : offset + Word.width α ≤ buffer.length
  · rw [dif_pos hle] at h
    exact ⟨_, if_pos hle, h⟩
  · rw [dif_neg hle] at h
    cases h

theorem unpackString_bind_eq {k : Chars 8 → Reader UInt8 γ}
    (h : (unpackString 8 >>= k) buffer offset = some (c, last)) :
    ∃ stock, readStock buffer offset = some stock ∧
      k stock buffer (offset + 8) = some (c, last) := by
  rw [bind_apply, unpackString, take] at h
  by_cases hle : offset + 8 ≤ buffer.length
  · rw [dif_pos hle] at h
    exact ⟨_, dif_pos hle, h⟩
  · rw [dif_neg hle] at h
    cases h

theorem unpackTimestamp_bind_eq {k : UInt64 → Reader UInt8 γ}
    (h : (unpackTimestamp >>= k) buffer offset = some (c, last)) :
    ∃ timestamp, readTimestamp buffer offset = some timestamp ∧
      k timestamp buffer (offset + 6) = some (c, last) := by
  rw [bind_apply] at h
  obtain ⟨⟨timestamp, offset'⟩, hts, hk⟩ := Option.bind_eq_some_iff.mp h
  obtain ⟨high, hhigh, hts⟩ := unpack_bind_eq hts
  obtain ⟨low, hlow, hts⟩ := unpack_bind_eq hts
  have hlow : readField UInt32 buffer (offset + 2) = some low := hlow
  cases hts
  refine ⟨_, ?_, hk⟩
  rw [readTimestamp, hhigh, hlow]
  rfl

end Reads

section Messages

variable {data : List UInt8} {n last : ℕ}

/-- The decoder reads the common fields where the view does, and goes on to
the body at offset 11. -/
theorem decodeTyped_eq {M : Type} [MessageStruct M] [UnpackMessage M]
    (hkeeps : ∀ msg : M, Yields (unpackMessage msg)
      (fun msg' => MessageStruct.header msg' = MessageStruct.header msg))
    {m : Message} (h : decodeTyped M data = some m) :
    ∃ (msg msg' : M) (last : ℕ),
      unpackMessage msg data 11 = some (msg', last) ∧
      m = MessageStruct.toMessage msg' ∧
      (MessageStruct.header msg').messageType =
        (MessageStruct.header (MessageStruct.init : M)).messageType ∧
      readField UInt16 data 1 =
        some (MessageStruct.header msg').stockLocate ∧
      readField UInt16 data 3 =
        some (MessageStruct.header msg').trackingNumber ∧
      readTimestamp data 5 =
        some (MessageStruct.header msg').timestamp := by
  obtain ⟨⟨m', last⟩, hread, hm⟩ := Option.map_eq_some_iff.mp h
  obtain rfl : m' = m := hm
  obtain ⟨stockLocate, hlocate, hread⟩ := unpack_bind_eq hread
  obtain ⟨trackingNumber, htracking, hread⟩ := unpack_bind_eq hread
  obtain ⟨timestamp, htimestamp, hread⟩ := unpackTimestamp_bind_eq hread
  rw [bind_apply] at hread
  obtain ⟨⟨msg', last'⟩, hbody, hread⟩ := Option.bind_eq_some_iff.mp hread
  cases hread
  have hheader := hkeeps _ _ _ _ _ hbody
  rw [MessageStruct.header_withHeader] at hheader
  refine ⟨_, msg', last', hbody, rfl, ?_⟩
  rw [hheader]
  exact ⟨rfl, hlocate, htracking, htimestamp⟩

theorem bodyAgrees_addOrder {msg msg' : AddOrderMessage}
    (h : unpackMessage msg data 11 = some (msg', last)) :
    BodyAgrees ⟨data, n⟩ (.addOrder msg') := by
  obtain ⟨ref, href, h⟩ := unpack_bind_eq h
  obtain ⟨side, hside, h⟩ := unpack_bind_eq h
  obtain ⟨shares, hshares, h⟩ := unpack_bind_eq h
  obtain ⟨stock, hstock, h⟩ := unpackString_bind_eq h
  obtain ⟨price, hprice, h⟩ := unpack_bind_eq h
  cases h
  exact ⟨href, hside, hshares, hstock, hprice⟩

theorem bodyAgrees_orderExecuted {msg msg' : OrderExecutedMessage}
    (h : unpackMessage msg data 11 = some (msg', last)) :
    BodyAgrees ⟨data, n⟩ (.orderExecuted msg') := by
  obtain ⟨ref, href, h⟩ := unpack_bind_eq h
  obtain ⟨shares, hshares, h⟩ := unpack_bind_eq h
  obtain ⟨number, hnumber, h⟩ := unpack_bind_eq h
  cases h
  exact ⟨href, hshares, hnumber⟩

theorem bodyAgrees_orderExecutedWithPrice
    {msg msg' : OrderExecutedWithPriceMessage}
    (h : unpackMessage msg data 11 = some (msg', last)) :
    BodyAgrees ⟨data, n⟩ (.orderExecutedWithPrice msg') := by
  obtain ⟨ref, href, h⟩ := unpack_bind_eq h
  obtain ⟨shares, hshares, h⟩ := unpack_bind_eq h
  obtain ⟨number, hnumber, h⟩ := unpack_bind_eq h
  obtain ⟨printable, hprintable, h⟩ := unpack_bind_eq h
  obtain ⟨price, hprice, h⟩ := unpack_bind_eq h
  cases h
  exact ⟨href, hshares, hnumber, hprintable, hprice⟩

theorem bodyAgrees_orderCancel {msg msg' : OrderCancelMessage}
    (h : unpackMessage msg data 11 = some (msg', last)) :
    BodyAgrees ⟨data, n⟩ (.orderCancel msg') := by
  obtain ⟨ref, href, h⟩ := unpack_bind_eq h
  obtain ⟨shares, hshares, h⟩ := unpack_bind_eq h
  cases h
  exact ⟨href, hshares⟩

theorem bodyAgrees_orderDelete {msg msg' : OrderDeleteMessage}
    (h : unpackMessage msg data 11 = some (msg', last)) :
    BodyAgrees ⟨data, n⟩ (.orderDelete msg') := by
  obtain ⟨ref, href, h⟩ := unpack_bind_eq h
  cases h
  exact href

theorem bodyAgrees_orderReplace {msg msg' : OrderReplaceMessage}
    (h : unpackMessage msg data 11 = some (msg', last)) :
    BodyAgrees ⟨data, n⟩ (.orderReplace msg') := by
  obtain ⟨original, horiginal, h⟩ := unpack_bind_eq h
  obtain ⟨ref, href, h⟩ := unpack_bind_eq h
  obtain ⟨shares, hshares, h⟩ := unpack_bind_eq h
  obtain ⟨price, hprice, h⟩ := unpack_bind_eq h
  cases h
  exact ⟨horiginal, href, hshares, hprice⟩

theorem bodyAgrees_nonCrossTrade {msg msg' : NonCrossTradeMessage}
    (h : unpackMessage msg data 11 = some (msg', last)) :
    BodyAgrees ⟨data, n⟩ (.nonCrossTrade msg') := by
  obtain ⟨ref, href, h⟩ := unpack_bind_eq h
  obtain ⟨side, hside, h⟩ := unpack_bind_eq h
  obtain ⟨shares, hshares, h⟩ := unpack_bind_eq h
  obtain ⟨stock, hstock, h⟩ := unpackString_bind_eq h
  obtain ⟨price, hprice, h⟩ := unpack_bind_eq h
  obtain ⟨number, hnumber, h⟩ := unpack_bind_eq h
  cases h
  exact ⟨href, hside, hshares, hstock, hprice, hnumber⟩

/-- The registered type of a byte is the one that has it as its own. -/
theorem typeByte_of_lookup {b : UInt8} {t : MsgType} (h : lookup b = some t) :
    t.typeByte = b := by
  have hall : ∀ e ∈ registry, e.1.typeByte = e.2 := by decide
  obtain ⟨e, he, rfl⟩ := Option.map_eq_some_iff.mp h
  rw [hall e (List.mem_of_find?_eq_some he)]
  have heq := List.find?_some he
  exact eq_of_beq heq

theorem viewAgrees_of_decode {t : MsgType} {m : Message}
    (htype : data.head? = some t.typeByte) (h : t.decode data = some m) :
    ViewAgrees ⟨data, n⟩ m := by
  cases t
  all_goals
    obtain ⟨msg, msg', last, hbody, rfl, hown, hlocate, htracking, hts⟩ :=
      decodeTyped_eq (by
        intro msg
        repeat
          first
          | refine yields_bind (r := unpack _) fun _ => ?_
          | refine yields_bind (r := unpackString _) fun _ => ?_
        exact yields_pure rfl) h
    refine ⟨⟨htype.trans (congrArg some hown.symm), hlocate, htracking, hts⟩, ?_⟩
  case addOrder => exact bodyAgrees_addOrder hbody
  case orderExecuted => exact bodyAgrees_orderExecuted hbody
  case orderExecutedWithPrice => exact bodyAgrees_orderExecutedWithPrice hbody
  case orderCancel => exact bodyAgrees_orderCancel hbody
  case orderDelete => exact bodyAgrees_orderDelete hbody
  case orderReplace => exact bodyAgrees_orderReplace hbody
  case nonCrossTrade => exact bodyAgrees_nonCrossTrade hbody
  all_goals trivial

/-- The view of a frame agrees with the message the parser decodes from it,
although it reads from the buffer and not from the frame alone. -/
theorem viewAgrees_frame {f : ℕ × List UInt8} {rest : List UInt8}
    {m : Message} (hdata : data.drop f.1 = f.2 ++ rest)
    (hf : FrameEvent f.2 (.message m)) : ViewAgrees (viewOf data f) m := by
  cases hf with
  | @message t _ htype hsize hdecode =>
      have hpos : 0 < f.2.length :=
        lt_of_lt_of_le (by norm_num) (t.wireSize_bounds.1.trans hsize)
      obtain ⟨c, cs, hcs⟩ := List.exists_cons_of_length_pos hpos
      refine viewAgrees_of_decode (t := t) ?_ ?_
      · rw [hcs, List.headD_cons] at htype
        rw [hdata, hcs, typeByte_of_lookup htype]
        rfl
      · have hlen : (f.2.take t.wireSize).length = t.wireSize :=
          List.length_take_of_le hsize
        obtain ⟨m', hm'⟩ := t.decodes (f.2.take t.wireSize) hlen.ge
        obtain rfl : m' = m := by
          rw [hm' _ hlen.ge rfl] at hdecode
          exact Option.some.inj hdecode
        apply hm' (data.drop f.1)
        · rw [hdata, List.length_append]
          omega
        · rw [hdata, List.take_append_of_le_length hsize, List.take_take,
            min_self]

end Messages

/-- **The overlay agrees with the parser.** On every buffer the loop delivers
a view of each frame the parser calls back for, and counts them; the view
reads there what the parser has decoded. -/
theorem forEachMessage_agrees (p : Parser) (data : List UInt8) :
    ∃ frames tail p' events result,
      Decomposition data frames tail ∧
      p.parseImpl data = some (p', events, result) ∧
      List.Forall₂ (fun f m => FrameEvent f.2 (.message m))
        (acceptedFrames (framesAt 0 frames)) (messages events) ∧
      forEachMessage data =
        ((acceptedFrames (framesAt 0 frames)).map (viewOf data),
          UInt64.ofNat (messages events).length) ∧
      List.Forall₂ ViewAgrees (forEachMessage data).1 (messages events) := by
  obtain ⟨frames, tail, hd⟩ := Decomposition.exists data
  obtain ⟨p', events, result, hparse, hframes⟩ := parseImpl_messages p hd
  have hstart : data.drop 0 = (frames.map frameBytes).flatten ++ tail :=
    hd.bytes
  have hviews := overlayLoop_frames hd.rest 0 hstart hd.small
  refine ⟨frames, tail, p', events, result, hd, hparse, hframes, ?_, ?_⟩
  · rw [forEachMessage, hviews, UInt64.zero_add, hframes.length_eq]
  · rw [forEachMessage, hviews, List.forall₂_map_left_iff]
    have hplace : ∀ f ∈ acceptedFrames (framesAt 0 frames),
        ∃ rest, data.drop f.1 = f.2 ++ rest := fun f hf =>
      drop_framesAt hstart hd.small f (List.mem_of_mem_filter hf)
    have hboth := (List.forall₂_and_left _ _).mpr ⟨hplace, hframes⟩
    refine hboth.imp fun f m h => ?_
    obtain ⟨⟨rest, hrest⟩, hf⟩ := h
    exact viewAgrees_frame hrest hf

end Overlay

end Itch
