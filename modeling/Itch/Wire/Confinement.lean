import Itch.Wire.Overlay

/-!
# Reads stay inside

§1 says which bytes a read depends on. §2 collects the accessors of the typed
views and confines each to the wire size of its message. §3 repeats the two
framing loops with reads that can fail, and shows that none does. §4 puts them
together: what is read for a frame is in the frame.
-/

namespace Itch

open ByteCursor Overlay

/-! ## §1  Confined reads -/

/-- `read` needs the first `n` bytes of a buffer and no others: where there
are so many it succeeds, and buffers that agree on them are alike to it. -/
def Confined {α : Type} (read : List UInt8 → Option α) (n : ℕ) : Prop :=
  ∀ buffer : List UInt8, n ≤ buffer.length →
    ∃ a, ∀ buffer' : List UInt8, n ≤ buffer'.length →
      buffer'.take n = buffer.take n → read buffer' = some a

section Confined

variable {α γ : Type} {n : ℕ}

theorem confined_pure (a : α) : Confined (fun _ => some a) n :=
  fun _ _ => ⟨a, fun _ _ _ => rfl⟩

theorem confined_bind {read : List UInt8 → Option α}
    {next : α → List UInt8 → Option γ} (h : Confined read n)
    (hnext : ∀ a, Confined (next a) n) :
    Confined (fun data => (read data).bind fun a => next a data) n := by
  intro buffer hle
  obtain ⟨a, ha⟩ := h buffer hle
  obtain ⟨c, hc⟩ := hnext a buffer hle
  refine ⟨c, ?_⟩
  intro buffer' hle' heq
  show (read buffer').bind _ = _
  rw [ha buffer' hle' heq]
  exact hc buffer' hle' heq

/-- A slice that ends before `n` lies in the first `n` bytes. -/
theorem slice_take {buffer : List UInt8} {offset width : ℕ}
    (h : offset + width ≤ n) :
    ((buffer.take n).drop offset).take width =
      (buffer.drop offset).take width := by
  rw [List.drop_take, List.take_take, min_eq_left (by omega)]

theorem confined_readField [Word α] {offset : ℕ}
    (h : offset + Word.width α ≤ n) :
    Confined (fun data => readField α data offset) n := by
  intro buffer hle
  refine ⟨Word.ofNat
    (decodeBE ((buffer.drop offset).take (Word.width α))), ?_⟩
  intro buffer' hle' heq
  show readField α buffer' offset = _
  unfold readField
  rw [if_pos (by omega), ← slice_take h, heq, slice_take h]

theorem confined_readTimestamp {offset : ℕ} (h : offset + 6 ≤ n) :
    Confined (fun data => readTimestamp data offset) n := by
  have hhigh : offset + Word.width UInt16 ≤ n := by
    show offset + 2 ≤ n
    omega
  have hlow : offset + 2 + Word.width UInt32 ≤ n := by
    show offset + 2 + 4 ≤ n
    omega
  apply confined_bind (confined_readField hhigh)
  intro high
  apply confined_bind (confined_readField hlow)
  intro low
  exact confined_pure _

theorem confined_readStock {offset : ℕ} (h : offset + 8 ≤ n) :
    Confined (fun data => readStock data offset) n := by
  intro buffer hle
  refine ⟨⟨(buffer.drop offset).take 8, ?_⟩, ?_⟩
  · rw [List.length_take, List.length_drop]
    omega
  · intro buffer' hle' heq
    show readStock buffer' offset = _
    unfold readStock
    rw [dif_pos (by omega)]
    congr 2
    rw [← slice_take h, heq, slice_take h]

theorem confined_head? (h : 1 ≤ n) :
    Confined (fun data => data.head?) n := by
  intro buffer hle
  rcases buffer with _ | ⟨b, bs⟩
  · rw [List.length_nil] at hle
    omega
  · refine ⟨b, ?_⟩
    intro buffer' hle' heq
    have hhead := congrArg List.head? heq
    rw [List.head?_take, List.head?_take, if_neg (by omega),
      if_neg (by omega)] at hhead
    exact hhead

end Confined

/-! ## §2  Accessors -/

namespace Overlay

/-- A member function of a view that reads a field. -/
structure Accessor where
  FieldType : Type
  read : MessageView → Option FieldType

/-- What every view has. -/
def commonAccessors : List Accessor :=
  [⟨_, MessageView.type⟩, ⟨_, MessageView.stockLocate⟩,
    ⟨_, MessageView.trackingNumber⟩, ⟨_, MessageView.timestamp⟩]

/-- What the view of the type adds, where there is one. -/
def typedAccessors : MsgType → List Accessor
  | .addOrder =>
      [⟨_, AddOrderView.orderReferenceNumber⟩,
        ⟨_, AddOrderView.buySellIndicator⟩, ⟨_, AddOrderView.shares⟩,
        ⟨_, AddOrderView.stock⟩, ⟨_, AddOrderView.price⟩]
  | .orderExecuted =>
      [⟨_, OrderExecutedView.orderReferenceNumber⟩,
        ⟨_, OrderExecutedView.executedShares⟩,
        ⟨_, OrderExecutedView.matchNumber⟩]
  | .orderExecutedWithPrice =>
      [⟨_, OrderExecutedWithPriceView.orderReferenceNumber⟩,
        ⟨_, OrderExecutedWithPriceView.executedShares⟩,
        ⟨_, OrderExecutedWithPriceView.matchNumber⟩,
        ⟨_, OrderExecutedWithPriceView.printable⟩,
        ⟨_, OrderExecutedWithPriceView.executionPrice⟩]
  | .orderCancel =>
      [⟨_, OrderCancelView.orderReferenceNumber⟩,
        ⟨_, OrderCancelView.cancelledShares⟩]
  | .orderDelete => [⟨_, OrderDeleteView.orderReferenceNumber⟩]
  | .orderReplace =>
      [⟨_, OrderReplaceView.originalOrderReferenceNumber⟩,
        ⟨_, OrderReplaceView.newOrderReferenceNumber⟩,
        ⟨_, OrderReplaceView.shares⟩, ⟨_, OrderReplaceView.price⟩]
  | .nonCrossTrade =>
      [⟨_, NonCrossTradeView.orderReferenceNumber⟩,
        ⟨_, NonCrossTradeView.buySellIndicator⟩,
        ⟨_, NonCrossTradeView.shares⟩, ⟨_, NonCrossTradeView.stock⟩,
        ⟨_, NonCrossTradeView.price⟩, ⟨_, NonCrossTradeView.matchNumber⟩]
  | _ => []

def accessors (t : MsgType) : List Accessor :=
  commonAccessors ++ typedAccessors t

/-- The accessor reads the first `n` bytes of the frame only. -/
def Accessor.ConfinedTo (a : Accessor) (n : ℕ) : Prop :=
  ∀ size, Confined (fun data => a.read ⟨data, size⟩) n

theorem confinedTo_common {t : MsgType} :
    ∀ a ∈ commonAccessors, a.ConfinedTo t.wireSize := by
  have hsize := t.wireSize_bounds.1
  intro a ha size
  simp only [commonAccessors, List.mem_cons, List.not_mem_nil, or_false] at ha
  rcases ha with rfl | rfl | rfl | rfl
  · exact confined_head? (by omega)
  · apply confined_readField
    show 1 + 2 ≤ _
    omega
  · apply confined_readField
    show 3 + 2 ≤ _
    omega
  · apply confined_readTimestamp
    show 5 + 6 ≤ _
    omega

theorem confinedTo_typed (t : MsgType) :
    ∀ a ∈ typedAccessors t, a.ConfinedTo t.wireSize := by
  cases t
  all_goals
    intro a ha size
    simp only [typedAccessors, List.mem_cons, List.not_mem_nil, or_false]
      at ha
    try rcases ha with rfl | rfl | rfl | rfl | rfl | rfl
    all_goals
      first
      | exact confined_readField (by decide)
      | exact confined_readStock (by decide)

theorem confinedTo_accessors (t : MsgType) :
    ∀ a ∈ accessors t, a.ConfinedTo t.wireSize := by
  intro a ha
  rcases List.mem_append.mp ha with ha | ha
  · exact confinedTo_common a ha
  · exact confinedTo_typed t a ha

end Overlay

/-! ## §3  Framing reads -/

theorem readField_length {data : List UInt8} {offset : ℕ}
    (h : offset + 2 ≤ data.length) :
    ∃ length, readField UInt16 data offset = some length ∧
      length.toNat = decodeBE ((data.drop offset).take 2) := by
  refine ⟨UInt16.ofNat (decodeBE ((data.drop offset).take 2)), ?_, ?_⟩
  · exact if_pos h
  · apply UInt16.toNat_ofNat_of_lt'
    have hlt := decodeBE_lt ((data.drop offset).take 2)
    rwa [List.length_take_of_le (by rw [List.length_drop]; omega)] at hlt

theorem readField_type {data : List UInt8} {offset : ℕ}
    (h : offset + 1 ≤ data.length) :
    readField UInt8 data offset = some ((data.drop offset).headD 0) := by
  have hfield : readField UInt8 data offset =
      some (UInt8.ofNat (decodeBE ((data.drop offset).take 1))) := if_pos h
  rw [hfield]
  rcases hdrop : data.drop offset with _ | ⟨c, cs⟩
  · have hlen := congrArg List.length hdrop
    rw [List.length_drop, List.length_nil] at hlen
    omega
  · show some (UInt8.ofNat (decodeBE [c])) = some c
    rw [decodeBE_cons]
    simp [decodeBE]

/-- The loop of `parse_impl` where a read past the end of the buffer fails. -/
def Parser.checkedLoop (data : List UInt8) (p : Parser) (offset : ℕ) :
    Option Parser.Outcome :=
  if offset < data.length then
    if offset + 2 > data.length then
      let (p, events) := p.reportError .truncated 0
      some (p, events, some .truncated)
    else do
      let length ← readField UInt16 data offset
      let offset := offset + 2
      if length = 0 then
        Parser.checkedLoop data p offset
      else if offset + length.toNat > data.length then
        let (p, events) := p.reportError .truncated 0
        some (p, events, some .truncated)
      else
        let message := data.drop offset
        let messageType ← readField UInt8 data offset
        let offset := offset + length.toNat
        let entry := DISPATCH_TABLE.getD messageType.toNat {}
        match entry.decode with
        | none =>
            let (p, events) := p.reportError .unknownType messageType
            (Parser.checkedLoop data p offset).map (·.after events)
        | some t =>
            if length < entry.wireSize then
              let (p, events) := p.reportError .sizeMismatch messageType
              (Parser.checkedLoop data p offset).map (·.after events)
            else
              (t.decode message).bind fun m =>
                (Parser.checkedLoop data p offset).map (·.after [.message m])
  else some (p, [], none)
termination_by data.length - offset

/-- The loop of `for_each_message`, likewise. -/
def Overlay.checkedLoop (data : List UInt8) (offset : ℕ)
    (delivered : UInt64) : Option (List MessageView × UInt64) :=
  if offset + 2 ≤ data.length then do
    let length ← readField UInt16 data offset
    let offset := offset + 2
    if length = 0 then Overlay.checkedLoop data offset delivered
    else if offset + length.toNat > data.length then some ([], delivered)
    else
      let frame := data.drop offset
      let messageType ← readField UInt8 data offset
      let offset := offset + length.toNat
      let expected := SIZE_TABLE.getD messageType.toNat 0
      if expected = 0 ∨ length < expected then
        Overlay.checkedLoop data offset delivered
      else
        let rest ← Overlay.checkedLoop data offset (delivered + 1)
        return (⟨frame, length.toNat⟩ :: rest.1, rest.2)
  else some ([], delivered)
termination_by data.length - offset

theorem Parser.checkedLoop_eq (data : List UInt8) (p : Parser) (offset : ℕ) :
    Parser.checkedLoop data p offset = Parser.parseLoop data p offset := by
  induction hn : data.length - offset using Nat.strong_induction_on
    generalizing p offset with
  | _ n ih =>
    unfold Parser.checkedLoop Parser.parseLoop
    by_cases hend : offset < data.length
    · rw [if_pos hend, if_pos hend]
      by_cases hshort : offset + 2 > data.length
      · rw [if_pos hshort, if_pos hshort]
      · have hnext : ∀ (p : Parser) (k : ℕ), Parser.checkedLoop data p
            (offset + 2 + k) = Parser.parseLoop data p (offset + 2 + k) :=
          fun p k => ih (data.length - (offset + 2 + k)) (by omega) p _ rfl
        obtain ⟨length, hread, hlength⟩ := readField_length (not_lt.mp hshort)
        have hzero : length = 0 ↔ length.toNat = 0 := by
          rw [← UInt16.toNat_inj]
          rfl
        rw [if_neg hshort, if_neg hshort, hread]
        simp only [← hlength, Option.bind_eq_bind, Option.bind_some, hzero,
          hnext, UInt16.lt_iff_toNat_lt]
        by_cases hpad : length.toNat = 0
        · rw [if_pos hpad, if_pos hpad]
          exact hnext p 0
        · rw [if_neg hpad, if_neg hpad]
          by_cases hcut : offset + 2 + length.toNat > data.length
          · rw [if_pos hcut, if_pos hcut]
          · rw [if_neg hcut, if_neg hcut, readField_type (by omega)]
            rfl
    · rw [if_neg hend, if_neg hend]

theorem Overlay.checkedLoop_eq (data : List UInt8) (offset : ℕ)
    (delivered : UInt64) : Overlay.checkedLoop data offset delivered =
      some (overlayLoop data offset delivered) := by
  induction hn : data.length - offset using Nat.strong_induction_on
    generalizing offset delivered with
  | _ n ih =>
    unfold Overlay.checkedLoop overlayLoop
    by_cases hshort : offset + 2 ≤ data.length
    · have hnext : ∀ (k : ℕ) (delivered : UInt64), Overlay.checkedLoop data
          (offset + 2 + k) delivered =
            some (overlayLoop data (offset + 2 + k) delivered) :=
        fun k delivered => ih (data.length - (offset + 2 + k)) (by omega) _ _ rfl
      obtain ⟨length, hread, hlength⟩ := readField_length hshort
      have hzero : length = 0 ↔ length.toNat = 0 := by
        rw [← UInt16.toNat_inj]
        rfl
      rw [if_pos hshort, if_pos hshort, hread]
      simp only [← hlength, Option.bind_eq_bind, Option.bind_some, hzero,
        hnext, UInt16.lt_iff_toNat_lt]
      by_cases hpad : length.toNat = 0
      · rw [if_pos hpad, if_pos hpad]
        exact hnext 0 delivered
      · rw [if_neg hpad, if_neg hpad]
        by_cases hcut : offset + 2 + length.toNat > data.length
        · rw [if_pos hcut, if_pos hcut]
        · rw [if_neg hcut, if_neg hcut, readField_type (by omega),
            Option.bind_some]
          split
          · rfl
          · rfl
    · rw [if_neg hshort, if_neg hshort]

/-! ## §4  Frames -/

/-- All that is read for the frame lies in it: the decoder and the accessors
work on any buffer that begins like the payload, up to the wire size. -/
structure StaysInside (data : List UInt8) (f : ℕ × List UInt8) (m : Message) :
    Prop where
  inBuffer : f.1 + f.2.length ≤ data.length
  payload : f.2 <+: data.drop f.1
  reads : ∃ t, lookup (f.2.headD 0) = some t ∧ t.wireSize ≤ f.2.length ∧
    (∀ buffer : List UInt8, t.wireSize ≤ buffer.length →
      buffer.take t.wireSize = f.2.take t.wireSize →
      t.decode buffer = some m) ∧
    (∀ a ∈ accessors t, ∃ x, ∀ buffer : List UInt8,
      t.wireSize ≤ buffer.length →
      buffer.take t.wireSize = f.2.take t.wireSize →
      a.read ⟨buffer, f.2.length⟩ = some x) ∧
    (∀ payload : List UInt8, t.wireSize ≤ payload.length →
      payload.take t.wireSize = f.2.take t.wireSize →
      ∀ e, FrameEvent payload e ↔ e = .message m)

/-- The message depends on the first bytes of the frame only. -/
theorem frameEvent_of_take {payload payload' : List UInt8} {t : MsgType}
    {m : Message} (htype : lookup (payload.headD 0) = some t)
    (hdecode : t.decode (payload.take t.wireSize) = some m)
    (hsize' : t.wireSize ≤ payload'.length)
    (htake : payload'.take t.wireSize = payload.take t.wireSize) :
    FrameEvent payload' (.message m) := by
  have hpos := t.wireSize_bounds.1
  have hhead : payload'.headD 0 = payload.headD 0 := by
    have hfirst := congrArg List.head? htake
    rw [List.head?_take, List.head?_take, if_neg (by omega),
      if_neg (by omega)] at hfirst
    rw [List.headD_eq_head?_getD, List.headD_eq_head?_getD, hfirst]
  refine .message ?_ hsize' ?_
  · rwa [hhead]
  · rwa [htake]

theorem staysInside_frame {data : List UInt8} {f : ℕ × List UInt8}
    {m : Message} (hpayload : f.2 <+: data.drop f.1)
    (hf : FrameEvent f.2 (.message m)) : StaysInside data f m := by
  cases hf with
  | @message t _ htype hsize hdecode =>
      have hpos := t.wireSize_bounds.1
      have htake := List.length_take_of_le hsize
      refine ⟨?_, hpayload, t, htype, hsize, ?_, ?_, ?_⟩
      · have hle := hpayload.length_le
        rw [List.length_drop] at hle
        omega
      · intro buffer hle heq
        obtain ⟨m', hm'⟩ := t.decodes _ htake.ge
        obtain rfl : m' = m := by
          rw [hm' _ htake.ge rfl] at hdecode
          exact Option.some.inj hdecode
        apply hm' buffer hle
        rw [heq, List.take_take, min_self]
      · intro a ha
        exact confinedTo_accessors t a ha f.2.length f.2 hsize
      · intro payload hle heq e
        have hevent := frameEvent_of_take htype hdecode hle heq
        constructor
        · intro he
          exact FrameEvent.rightUnique he hevent
        · rintro rfl
          exact hevent

/-- **Decoding is confined to the frame.** The frames that are delivered lie
in the buffer. What is read for one of them lies in its first bytes, up to the
wire size, so nothing else can change its message; and no framing read is past
the end of the buffer. -/
theorem decoding_stays_inside (p : Parser) (data : List UInt8) :
    ∃ frames tail p' events result,
      Decomposition data frames tail ∧
      p.parseImpl data = some (p', events, result) ∧
      (forEachMessage data).1 =
        (acceptedFrames (framesAt 0 frames)).map (viewOf data) ∧
      List.Forall₂ (StaysInside data) (acceptedFrames (framesAt 0 frames))
        (messages events) ∧
      Parser.checkedLoop data p 0 = p.parseImpl data ∧
      Overlay.checkedLoop data 0 0 = some (forEachMessage data) := by
  obtain ⟨frames, tail, hd⟩ := Decomposition.exists data
  obtain ⟨p', events, result, hparse, hframes⟩ := parseImpl_messages p hd
  have hstart : data.drop 0 = (frames.map frameBytes).flatten ++ tail :=
    hd.bytes
  have hviews := overlayLoop_frames hd.rest 0 hstart hd.small
  refine ⟨frames, tail, p', events, result, hd, hparse, ?_, ?_,
    Parser.checkedLoop_eq data p 0, Overlay.checkedLoop_eq data 0 0⟩
  · rw [forEachMessage, hviews]
  · have hplace : ∀ f ∈ acceptedFrames (framesAt 0 frames),
        f.2 <+: data.drop f.1 := by
      intro f hf
      obtain ⟨rest, hrest⟩ :=
        drop_framesAt hstart hd.small f (List.mem_of_mem_filter hf)
      exact ⟨rest, hrest.symm⟩
    have hboth := (List.forall₂_and_left _ _).mpr ⟨hplace, hframes⟩
    exact hboth.imp fun f m h => staysInside_frame h.1 h.2

end Itch
