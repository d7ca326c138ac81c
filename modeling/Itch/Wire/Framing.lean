import Itch.Wire.Parser

/-!
# The framing grammar

A buffer is a sequence of frames and a tail that does not hold another one
(§1); it can be cut up in only one way. §2 describes what a frame is worth to
the parser, §3 proves that `parseImpl` delivers just that, frame by frame.
-/

namespace Itch

open ByteCursor

/-! ## §1  The grammar -/

/-- A complete frame: the length, then as many bytes. -/
def frameBytes (payload : List UInt8) : List UInt8 :=
  encodeBE 2 payload.length ++ payload

/-- What can follow the last complete frame: nothing, a single byte, or a
length with fewer bytes than it declares. -/
inductive IsTail : List UInt8 → Prop where
  | empty : IsTail []
  | byte (b : UInt8) : IsTail [b]
  | short (n : ℕ) (payload : List UInt8) (hn : n < 2 ^ 16)
      (hlt : payload.length < n) : IsTail (encodeBE 2 n ++ payload)

structure Decomposition (data : List UInt8) (frames : List (List UInt8))
    (tail : List UInt8) : Prop where
  small : ∀ payload ∈ frames, payload.length < 2 ^ 16
  bytes : data = (frames.map frameBytes).flatten ++ tail
  rest : IsTail tail

theorem length_frameBytes (payload : List UInt8) :
    (frameBytes payload).length = 2 + payload.length := by
  rw [frameBytes, List.length_append, length_encodeBE]

/-- What can be read where a frame begins. -/
theorem drop_frame {data payload rest : List UInt8} {offset : ℕ}
    (hdata : data.drop offset = frameBytes payload ++ rest)
    (hsmall : payload.length < 2 ^ 16) :
    data.length - offset = 2 + payload.length + rest.length ∧
      decodeBE ((data.drop offset).take 2) = payload.length ∧
      data.drop (offset + 2) = payload ++ rest ∧
      data.drop (offset + (2 + payload.length)) = rest := by
  refine ⟨?_, ?_, ?_, ?_⟩
  · rw [← List.length_drop, hdata, List.length_append, length_frameBytes]
  · rw [hdata, frameBytes, List.append_assoc,
      List.take_left' (length_encodeBE ..), decodeBE_encodeBE]
    exact Nat.mod_eq_of_lt hsmall
  · rw [← List.drop_drop, hdata, frameBytes, List.append_assoc,
      List.drop_left' (length_encodeBE ..)]
  · rw [← List.drop_drop, hdata, List.drop_left' (length_frameBytes _)]

/-- What can be read where a frame is cut off. -/
theorem drop_short {data payload : List UInt8} {offset n : ℕ}
    (hdata : data.drop offset = encodeBE 2 n ++ payload) (hn : n < 2 ^ 16) :
    data.length - offset = 2 + payload.length ∧
      decodeBE ((data.drop offset).take 2) = n := by
  constructor
  · rw [← List.length_drop, hdata, List.length_append, length_encodeBE]
  · rw [hdata, List.take_left' (length_encodeBE ..), decodeBE_encodeBE]
    exact Nat.mod_eq_of_lt hn

theorem encodeBE_two_append_inj {n m : ℕ} {xs ys : List UInt8}
    (hn : n < 2 ^ 16) (hm : m < 2 ^ 16)
    (h : encodeBE 2 n ++ xs = encodeBE 2 m ++ ys) : n = m ∧ xs = ys := by
  obtain ⟨h₁, h₂⟩ := List.append_inj h (by simp)
  exact ⟨encodeBE_inj hn hm h₁, h₂⟩

/-- What is left of `a` is cut up together with what follows. -/
theorem Decomposition.append {a b tail tail' : List UInt8}
    {frames frames' : List (List UInt8)} (ha : Decomposition a frames tail)
    (hb : Decomposition (tail ++ b) frames' tail') :
    Decomposition (a ++ b) (frames ++ frames') tail' where
  small payload hp :=
    (List.mem_append.mp hp).elim (ha.small payload) (hb.small payload)
  bytes := by
    rw [ha.bytes, List.append_assoc, hb.bytes, List.map_append,
      List.flatten_append, List.append_assoc]
  rest := hb.rest

theorem Decomposition.frame {payload : List UInt8}
    (hsmall : payload.length < 2 ^ 16) :
    Decomposition (frameBytes payload) [payload] [] := by
  refine ⟨?_, by simp, .empty⟩
  intro f hf
  obtain rfl := List.mem_singleton.mp hf
  exact hsmall

/-- A tail does not begin with a complete frame. -/
theorem IsTail.ne_frame {tail payload : List UInt8} (h : IsTail tail)
    (hp : payload.length < 2 ^ 16) (rest : List UInt8) :
    tail ≠ frameBytes payload ++ rest := by
  intro he
  have hlen := congrArg List.length he
  rw [List.length_append, length_frameBytes] at hlen
  cases h with
  | empty =>
      rw [List.length_nil] at hlen
      omega
  | byte b =>
      rw [List.length_singleton] at hlen
      omega
  | short n short hn hlt =>
      rw [frameBytes, List.append_assoc] at he
      obtain ⟨rfl, rfl⟩ := encodeBE_two_append_inj hn hp he
      rw [List.length_append] at hlt
      omega

theorem Decomposition.unique {tail tail' : List UInt8} :
    ∀ {data : List UInt8} {frames frames' : List (List UInt8)},
      Decomposition data frames tail → Decomposition data frames' tail' →
      frames = frames' ∧ tail = tail' := by
  intro data frames
  induction frames generalizing data with
  | nil =>
      intro frames' h h'
      cases frames' with
      | nil =>
          have h₁ := h.bytes
          have h₂ := h'.bytes
          exact ⟨rfl, by simpa using h₁.symm.trans h₂⟩
      | cons payload frames' =>
          refine absurd ?_ (h.rest.ne_frame (h'.small payload (by simp))
            ((frames'.map frameBytes).flatten ++ tail'))
          have h₁ := h.bytes
          have h₂ := h'.bytes
          simpa using h₁.symm.trans h₂
  | cons payload frames ih =>
      intro frames' h h'
      cases frames' with
      | nil =>
          refine absurd ?_ (h'.rest.ne_frame (h.small payload (by simp))
            ((frames.map frameBytes).flatten ++ tail))
          have h₁ := h.bytes
          have h₂ := h'.bytes
          simpa using h₂.symm.trans h₁
      | cons payload' frames' =>
          have he := h.bytes.symm.trans h'.bytes
          simp only [List.map_cons, List.flatten_cons, frameBytes,
            List.append_assoc] at he
          obtain ⟨hlen, he⟩ := encodeBE_two_append_inj
            (h.small payload (by simp)) (h'.small payload' (by simp)) he
          obtain ⟨rfl, hrest⟩ := List.append_inj he hlen
          obtain ⟨hf, ht⟩ := ih
            ⟨fun f hf => h.small f (List.mem_cons_of_mem _ hf), rfl, h.rest⟩
            ⟨fun f hf => h'.small f (List.mem_cons_of_mem _ hf), hrest,
              h'.rest⟩
          exact ⟨congrArg _ hf, ht⟩

/-- Every buffer is cut up by reading lengths from its front. -/
theorem Decomposition.exists (data : List UInt8) :
    ∃ frames tail, Decomposition data frames tail := by
  induction hn : data.length using Nat.strong_induction_on generalizing data with
  | _ n ih =>
    match data with
    | [] => exact ⟨[], [], by simp, rfl, .empty⟩
    | [b] => exact ⟨[], [b], by simp, rfl, .byte b⟩
    | b₁ :: b₂ :: rest =>
        obtain ⟨len, hlt, henc⟩ :
            ∃ len, len < 2 ^ 16 ∧ encodeBE 2 len = [b₁, b₂] :=
          ⟨_, (decodeBE_lt [b₁, b₂]).trans_eq (by norm_num),
            encodeBE_decodeBE [b₁, b₂]⟩
        by_cases hle : len ≤ rest.length
        · have hpay : (rest.take len).length = len := List.length_take_of_le hle
          obtain ⟨frames, tail, hd⟩ := ih (rest.drop len).length (by
            rw [← hn, List.length_cons, List.length_cons, List.length_drop]
            omega) (rest.drop len) rfl
          refine ⟨rest.take len :: frames, tail, ?_, ?_, hd.rest⟩
          · intro f hf
            rcases List.mem_cons.mp hf with rfl | hf
            · omega
            · exact hd.small f hf
          · rw [List.map_cons, List.flatten_cons, List.append_assoc,
              ← hd.bytes, frameBytes, hpay, henc, List.append_assoc,
              List.take_append_drop]
            rfl
        · refine ⟨[], b₁ :: b₂ :: rest, by simp, rfl, ?_⟩
          have := IsTail.short len rest hlt (not_le.mp hle)
          rwa [henc] at this

/-! ## §2  What a frame is worth -/

/-- The message type registered for a type byte. -/
def lookup (c : UInt8) : Option MsgType :=
  (registry.find? (fun e => e.2 == c)).map (·.1)

/-- Reading a table that was filled entry by entry, each at its own place. -/
theorem getD_foldl_set {α β : Type} {place : α → ℕ} {value : α → β} {x : β}
    {i : ℕ} : ∀ {entries : List α} {table : List β}, i < table.length →
    (entries.map place).Nodup →
    (entries.foldl (fun table e => table.set (place e) (value e))
        table).getD i x =
      ((entries.find? (fun e => place e == i)).map value).getD
        (table.getD i x) := by
  intro entries
  induction entries with
  | nil => intro _ _ _; rfl
  | cons e entries ih =>
      intro table hi hnodup
      obtain ⟨hnot, hnodup⟩ := List.nodup_cons.mp hnodup
      rw [List.foldl_cons, ih (by rwa [List.length_set]) hnodup,
        List.find?_cons]
      by_cases he : place e = i
      · have hnone : entries.find? (fun e => place e == i) = none := by
          rw [List.find?_eq_none]
          intro e' he' hp
          exact hnot (he ▸ beq_iff_eq.mp hp ▸ List.mem_map_of_mem he')
        rw [hnone, beq_iff_eq.mpr he, he, List.getD_eq_getElem?_getD,
          List.getElem?_set_self hi]
        rfl
      · rw [beq_eq_false_iff_ne.mpr he, List.getD_eq_getElem?_getD,
          List.getElem?_set_ne he, ← List.getD_eq_getElem?_getD]

theorem nodup_registry : (registry.map fun e => e.2.toNat).Nodup := by
  decide

theorem find?_registry (c : UInt8) :
    registry.find? (fun e => e.2.toNat == c.toNat) =
      registry.find? (fun e => e.2 == c) := by
  congr 1
  funext e
  rw [Bool.eq_iff_iff, beq_iff_eq, beq_iff_eq, UInt8.toNat_inj]

/-- The table, which later entries overwrite, agrees with the registry. -/
theorem dispatchTable_eq (c : UInt8) :
    DISPATCH_TABLE.getD c.toNat {} =
      match lookup c with
      | none => {}
      | some t => { wireSize := UInt16.ofNat t.wireSize, decode := some t } := by
  have hlt : c.toNat < (List.replicate DISPATCH_TABLE_SIZE
      ({} : DispatchEntry)).length := by
    rw [List.length_replicate]
    exact c.toNat_lt
  rw [DISPATCH_TABLE, buildDispatchTable]
  change (registry.foldl (fun table e => table.set e.2.toNat
    ({ wireSize := UInt16.ofNat e.1.wireSize, decode := some e.1 } :
      DispatchEntry))
    (List.replicate DISPATCH_TABLE_SIZE {})).getD c.toNat {} = _
  -- no two types share a byte, so no entry is overwritten
  rw [getD_foldl_set hlt nodup_registry, find?_registry, lookup]
  cases registry.find? (fun e => e.2 == c) with
  | none =>
      rw [List.getD_eq_getElem?_getD, List.getElem?_replicate]
      split <;> rfl
  | some e => rfl

theorem MsgType.wireSize_bounds (t : MsgType) :
    12 ≤ t.wireSize ∧ t.wireSize < 2 ^ 16 := by
  cases t <;> decide

theorem MsgType.toNat_wireSize (t : MsgType) :
    (UInt16.ofNat t.wireSize).toNat = t.wireSize := by
  rw [UInt16.toNat_ofNat']
  exact Nat.mod_eq_of_lt t.wireSize_bounds.2

theorem consumes_unpack (α : Type) [Word α] :
    Consumes (unpack α) (Word.width α) :=
  consumes_map _ (consumes_take _)

theorem consumes_unpackString (n : ℕ) : Consumes (unpackString n) n :=
  consumes_take n

theorem consumes_unpackTimestamp : Consumes unpackTimestamp 6 :=
  consumes_bind (consumes_unpack UInt16) fun _ =>
    consumes_bind (consumes_unpack UInt32) fun _ => consumes_pure _

/-- Behind the type byte come the 10 bytes of the header, then the body. -/
theorem consumes_readTyped {M : Type} [MessageStruct M] [UnpackMessage M]
    {n : ℕ} (h : ∀ msg : M, Consumes (unpackMessage msg) n) :
    Consumes (readTyped M) (2 + (2 + (6 + (n + 0)))) :=
  consumes_bind (consumes_unpack UInt16) fun _ =>
    consumes_bind (consumes_unpack UInt16) fun _ =>
      consumes_bind consumes_unpackTimestamp fun _ =>
        consumes_bind (h _) fun _ => consumes_pure _

/-- A decoder reads the bytes of the wire size and no others. -/
def Decodes (decode : List UInt8 → Option Message) (size : ℕ) : Prop :=
  ∀ buffer : List UInt8, size ≤ buffer.length →
    ∃ m, ∀ buffer' : List UInt8, size ≤ buffer'.length →
      buffer'.take size = buffer.take size → decode buffer' = some m

theorem decodes_decodeTyped {M : Type} [MessageStruct M] [UnpackMessage M]
    {n size : ℕ} (h : ∀ msg : M, Consumes (unpackMessage msg) n)
    (hsize : size = 11 + n) : Decodes (decodeTyped M) size := by
  subst hsize
  intro buffer hle
  obtain ⟨m, hm⟩ := consumes_readTyped h buffer 1 (by omega)
  refine ⟨m, fun buffer' hle' heq => ?_⟩
  have hdrop : ∀ xs : List UInt8, (xs.drop 1).take (2 + (2 + (6 + (n + 0)))) =
      (xs.take (11 + n)).drop 1 := by
    intro xs
    rw [List.drop_take]
    congr 1
    omega
  rw [decodeTyped, hm buffer' 1 (by omega) (by rw [hdrop, hdrop, heq])]
  rfl

/-- Every decoder reads what the wire size says: the fields `unpack_message`
reads are those of the struct. -/
theorem MsgType.decodes (t : MsgType) : Decodes t.decode t.wireSize := by
  cases t
  all_goals
    apply decodes_decodeTyped
    case h =>
      intro msg
      repeat
        first
        | apply consumes_bind (consumes_unpack _)
        | apply consumes_bind (consumes_unpackString _)
        intro _
      exact consumes_pure _
    case hsize => rfl

/-- What the parser reports for a frame that is not padding. -/
inductive FrameEvent (payload : List UInt8) : ParserEvent → Prop where
  | message {t : MsgType} {m : Message}
      (htype : lookup (payload.headD 0) = some t)
      (hsize : t.wireSize ≤ payload.length)
      (hdecode : t.decode (payload.take t.wireSize) = some m) :
      FrameEvent payload (.message m)
  | unknownType (htype : lookup (payload.headD 0) = none) :
      FrameEvent payload (.error .unknownType (payload.headD 0))
  | sizeMismatch {t : MsgType} (htype : lookup (payload.headD 0) = some t)
      (hsize : payload.length < t.wireSize) :
      FrameEvent payload (.error .sizeMismatch (payload.headD 0))

/-- A frame determines its event. -/
theorem FrameEvent.rightUnique : Relator.RightUnique FrameEvent := by
  intro payload e e' h h'
  cases h with
  | message ht hsize hm =>
      cases h' with
      | message ht' _ hm' =>
          rw [ht] at ht'
          obtain rfl := Option.some.inj ht'
          rw [hm] at hm'
          rw [Option.some.inj hm']
      | unknownType ht' => rw [ht] at ht'; cases ht'
      | sizeMismatch ht' hsize' =>
          rw [ht] at ht'
          obtain rfl := Option.some.inj ht'
          omega
  | unknownType ht =>
      cases h' with
      | message ht' => rw [ht] at ht'; cases ht'
      | unknownType => rfl
      | sizeMismatch ht' => rw [ht] at ht'; cases ht'
  | sizeMismatch ht hsize =>
      cases h' with
      | message ht' hsize' =>
          rw [ht] at ht'
          obtain rfl := Option.some.inj ht'
          omega
      | unknownType ht' => rw [ht] at ht'; cases ht'
      | sizeMismatch => rfl

/-- The message of a frame, if it can be decoded. -/
def decodable (payload : List UInt8) : Option Message :=
  (lookup (payload.headD 0)).bind fun t =>
    if t.wireSize ≤ payload.length then t.decode (payload.take t.wireSize)
    else none

theorem decodable_eq_some_iff {payload : List UInt8} {m : Message} :
    decodable payload = some m ↔ FrameEvent payload (.message m) := by
  constructor
  · intro h
    obtain ⟨t, ht, h⟩ := Option.bind_eq_some_iff.mp h
    obtain ⟨hsize, hdecode⟩ := Option.ite_none_right_eq_some.mp h
    exact .message ht hsize hdecode
  · intro h
    cases h with
    | message ht hsize hdecode =>
        rw [decodable, ht, Option.bind_some, if_pos hsize, hdecode]

/-- What is reported for the tail. -/
def tailEvents (tail : List UInt8) : List ParserEvent :=
  if tail = [] then [] else [.error .truncated 0]

def tailResult (tail : List UInt8) : Option ParseError :=
  if tail = [] then none else some .truncated

def isUnknown (payload : List UInt8) : Bool :=
  payload ≠ [] && (lookup (payload.headD 0)).isNone

def isUndersized (payload : List UInt8) : Bool :=
  payload ≠ [] && (lookup (payload.headD 0)).any
    (fun t => payload.length < t.wireSize)

namespace Parser

/-- Messages are always delivered, errors to an installed callback only. -/
def delivers (p : Parser) : ParserEvent → Bool
  | .message _ => true
  | .error _ _ => p.hasErrorCallback

/-- The counters after `frames`. -/
def count (p : Parser) (frames : List (List UInt8)) : Parser :=
  { p with
    unknownMessageCount :=
      p.unknownMessageCount + UInt64.ofNat (frames.countP isUnknown)
    malformedMessageCount :=
      p.malformedMessageCount + UInt64.ofNat (frames.countP isUndersized) }

theorem delivers_count (p : Parser) (frames : List (List UInt8)) :
    (p.count frames).delivers = p.delivers := by
  funext e
  cases e <;> rfl

theorem count_nil (p : Parser) : p.count [] = p := by
  simp [count]

theorem count_append (p : Parser) (frames frames' : List (List UInt8)) :
    p.count (frames ++ frames') = (p.count frames).count frames' := by
  simp [count, UInt64.ofNat_add, UInt64.add_assoc]

theorem after_nil (o : Outcome) : o.after [] = o := rfl

theorem after_after (evs evs' : List ParserEvent) (o : Outcome) :
    (o.after evs').after evs = o.after (evs ++ evs') := by
  simp [Outcome.after]

/-- A report delivers its event if there is a callback. -/
theorem reportError_events (p : Parser) (error : ParseError) (c : UInt8) :
    (p.reportError error c).2 = [ParserEvent.error error c].filter p.delivers
    := by
  cases error <;> cases h : p.hasErrorCallback <;>
    simp [reportError, delivers, h]

theorem reportError_unknownType {payload : List UInt8} (p : Parser)
    (c : UInt8) (hne : payload ≠ []) (ht : lookup (payload.headD 0) = none) :
    (p.reportError .unknownType c).1 = p.count [payload] := by
  have h₁ : isUnknown payload = true := by rw [isUnknown, ht]; simpa using hne
  have h₂ : isUndersized payload = false := by
    rw [isUndersized, ht]
    simp
  simp [reportError, count, h₁, h₂]

theorem reportError_sizeMismatch {payload : List UInt8} {t : MsgType}
    (p : Parser) (c : UInt8) (hne : payload ≠ [])
    (ht : lookup (payload.headD 0) = some t)
    (hsize : payload.length < t.wireSize) :
    (p.reportError .sizeMismatch c).1 = p.count [payload] := by
  have h₁ : isUnknown payload = false := by
    rw [isUnknown, ht]
    simp
  have h₂ : isUndersized payload = true := by
    rw [isUndersized, ht]
    simpa [hsize] using hne
  simp [reportError, count, h₁, h₂]

/-- A frame that is decoded moves no counter, and neither does padding. -/
theorem count_decoded {payload : List UInt8} (p : Parser)
    (h : ∀ t, payload ≠ [] → lookup (payload.headD 0) = some t →
      t.wireSize ≤ payload.length)
    (hsome : payload ≠ [] → lookup (payload.headD 0) ≠ none) :
    p.count [payload] = p := by
  have h₁ : isUnknown payload = false := by
    by_cases hne : payload = []
    · simp [isUnknown, hne]
    · simpa [isUnknown, hne, Option.ne_none_iff_isSome] using hsome hne
  have h₂ : isUndersized payload = false := by
    by_cases hne : payload = []
    · simp [isUndersized, hne]
    · cases ht : lookup (payload.headD 0) with
      | none => rw [isUndersized, ht]; simp
      | some t =>
          have := h t hne ht
          rw [isUndersized, ht]
          simpa using fun _ => this
  simp [count, h₁, h₂]

/-! ## §3  The loop -/

/-- One turn of the loop over a complete frame: the counters move by that
frame, its event is delivered, and the loop goes on behind the frame. -/
theorem parseLoop_frame {data payload rest : List UInt8} {offset : ℕ}
    (p : Parser) (hdata : data.drop offset = frameBytes payload ++ rest)
    (hsmall : payload.length < 2 ^ 16) :
    ∃ evs, List.Forall₂ FrameEvent ([payload].filter (· ≠ [])) evs ∧
      parseLoop data p offset =
        (parseLoop data (p.count [payload]) (offset + (2 + payload.length))
          ).map (·.after (evs.filter p.delivers)) := by
  obtain ⟨hlen, hlength, hdata', _⟩ := drop_frame hdata hsmall
  rw [parseLoop, if_pos (by omega), if_neg (by omega)]
  simp only [hlength, hdata', Nat.add_assoc]
  by_cases hne : payload = []
  · -- padding
    subst hne
    refine ⟨[], by simp, ?_⟩
    rw [count_decoded p (fun _ h => absurd rfl h) (fun h => absurd rfl h)]
    simp [after_nil]
  · have hpos : ¬ payload.length = 0 := fun h =>
      hne (List.length_eq_zero_iff.mp h)
    have hhead : (payload ++ rest).headD 0 = payload.headD 0 := by
      cases payload with
      | nil => exact absurd rfl hne
      | cons c cs => rfl
    have hfilter : [payload].filter (· ≠ []) = [payload] := by simp [hne]
    rw [if_neg hpos, if_neg (by omega), hhead, dispatchTable_eq, hfilter]
    cases ht : lookup (payload.headD 0) with
    | none =>
        refine ⟨_, .cons (.unknownType ht) .nil, ?_⟩
        rw [← reportError_unknownType p (payload.headD 0) hne ht,
          ← reportError_events]
    | some t =>
        simp only [t.toNat_wireSize]
        by_cases hsize : payload.length < t.wireSize
        · refine ⟨_, .cons (.sizeMismatch ht hsize) .nil, ?_⟩
          rw [if_pos hsize,
            ← reportError_sizeMismatch p (payload.headD 0) hne ht hsize,
            ← reportError_events]
        · -- the decoder sees the frame and what follows, and reads the frame
          have hle : t.wireSize ≤ payload.length := not_lt.mp hsize
          obtain ⟨m, hm⟩ := t.decodes payload hle
          have hfull : t.decode (payload ++ rest) = some m :=
            hm _ (by rw [List.length_append]; omega)
              (List.take_append_of_le_length hle)
          have htake : t.decode (payload.take t.wireSize) = some m :=
            hm _ (List.length_take_of_le hle).ge (by
              rw [List.take_take, min_self])
          refine ⟨_, .cons (.message ht hle htake) .nil, ?_⟩
          have hcount : p.count [payload] = p := by
            refine count_decoded p (fun t' _ ht' => ?_) fun _ => ?_
            · rw [ht] at ht'
              rwa [← Option.some.inj ht']
            · rw [ht]
              exact Option.some_ne_none t
          rw [if_neg hsize, hfull, Option.bind_some, hcount]
          rfl

/-- The loop at the tail of the buffer. -/
theorem parseLoop_tail {data tail : List UInt8} {offset : ℕ} (p : Parser)
    (hdata : data.drop offset = tail) (ht : IsTail tail) :
    parseLoop data p offset = some
      (if tail = [] then (p, [], none)
      else ((p.reportError .truncated 0).1,
        [ParserEvent.error .truncated 0].filter p.delivers,
        some .truncated)) := by
  have hlen : data.length - offset = tail.length := by
    rw [← List.length_drop, hdata]
  cases ht with
  | empty =>
      rw [List.length_nil] at hlen
      rw [parseLoop, if_neg (by omega), if_pos rfl]
  | byte b =>
      rw [List.length_singleton] at hlen
      rw [parseLoop, if_pos (by omega), if_pos (by omega), if_neg (by simp),
        ← reportError_events]
  | short n payload hn hlt =>
      obtain ⟨hlen, hlength⟩ := drop_short hdata hn
      -- the two length bytes are there, what they announce is not
      have hne : encodeBE 2 n ++ payload ≠ [] := by
        rw [Ne, List.append_eq_nil_iff]
        rintro ⟨h, _⟩
        have := congrArg List.length h
        rw [length_encodeBE] at this
        simp at this
      rw [parseLoop, if_pos (by omega), if_neg (by omega)]
      simp only [hlength]
      rw [if_neg (by omega), if_pos (by omega), if_neg hne,
        ← reportError_events]

/-- The loop over a sequence of frames. -/
theorem parseLoop_frames {data rest : List UInt8} :
    ∀ {frames : List (List UInt8)} {offset : ℕ} (p : Parser),
      data.drop offset = (frames.map frameBytes).flatten ++ rest →
      (∀ payload ∈ frames, payload.length < 2 ^ 16) →
      ∃ evs, List.Forall₂ FrameEvent (frames.filter (· ≠ [])) evs ∧
        parseLoop data p offset =
          (parseLoop data (p.count frames)
            (offset + (frames.map frameBytes).flatten.length)).map
            (·.after (evs.filter p.delivers)) := by
  intro frames
  induction frames with
  | nil =>
      intro offset p _ _
      refine ⟨[], .nil, ?_⟩
      rw [count_nil]
      simp [after_nil]
  | cons payload frames ih =>
      intro offset p hdata hsmall
      rw [List.map_cons, List.flatten_cons, List.append_assoc] at hdata
      obtain ⟨evs₁, hev₁, hloop₁⟩ :=
        parseLoop_frame p hdata (hsmall payload List.mem_cons_self)
      obtain ⟨_, _, _, hnext⟩ :=
        drop_frame hdata (hsmall payload List.mem_cons_self)
      obtain ⟨evs₂, hev₂, hloop₂⟩ := ih (p.count [payload]) hnext
        fun f hf => hsmall f (List.mem_cons_of_mem _ hf)
      refine ⟨evs₁ ++ evs₂, ?_, ?_⟩
      · rw [← List.singleton_append, List.filter_append]
        exact List.rel_append hev₁ hev₂
      · rw [hloop₁, hloop₂, delivers_count, ← count_append, Option.map_map,
          List.map_cons, List.flatten_cons, List.length_append,
          length_frameBytes, List.filter_append, Nat.add_assoc]
        simp [Function.comp_def, after_after, Nat.add_assoc]

/-- The counters after the tail. -/
def countTail (p : Parser) (tail : List UInt8) : Parser :=
  { p with
    malformedMessageCount :=
      p.malformedMessageCount + if tail = [] then 0 else 1 }

theorem parseImpl_decomposition {data tail : List UInt8}
    {frames : List (List UInt8)} (p : Parser)
    (hd : Decomposition data frames tail) :
    ∃ evs, List.Forall₂ FrameEvent (frames.filter (· ≠ [])) evs ∧
      p.parseImpl data = some ((p.count frames).countTail tail,
        (evs ++ tailEvents tail).filter p.delivers, tailResult tail) := by
  have hstart : data.drop 0 = (frames.map frameBytes).flatten ++ tail :=
    hd.bytes
  obtain ⟨evs, hev, hloop⟩ := parseLoop_frames p hstart hd.small
  refine ⟨evs, hev, ?_⟩
  have hrest : data.drop (0 + (frames.map frameBytes).flatten.length) =
      tail := by
    rw [Nat.zero_add, hd.bytes, List.drop_left]
  rw [parseImpl, hloop, parseLoop_tail _ hrest hd.rest, delivers_count,
    List.filter_append]
  by_cases ht : tail = []
  · simp [ht, countTail, Outcome.after, tailEvents, tailResult]
  · simp [ht, countTail, Outcome.after, reportError, tailEvents, tailResult]

/-- Complete frames are parsed first, then the rest. -/
theorem parseImpl_append {a b : List UInt8} {frames : List (List UInt8)}
    (p : Parser) (ha : Decomposition a frames []) :
    p.parseImpl (a ++ b) = (p.parseImpl a).bind fun o =>
      (o.1.parseImpl b).map (·.after o.2.1) := by
  obtain ⟨frames', tail, hb⟩ := Decomposition.exists b
  have hab : Decomposition (a ++ b) (frames ++ frames') tail := ha.append hb
  obtain ⟨evs, hev, hparse⟩ := p.parseImpl_decomposition hab
  obtain ⟨evs₁, hev₁, hparse₁⟩ := p.parseImpl_decomposition ha
  have hnil : (p.count frames).countTail [] = p.count frames := by
    simp [countTail]
  rw [hnil] at hparse₁
  obtain ⟨evs₂, hev₂, hparse₂⟩ := (p.count frames).parseImpl_decomposition hb
  -- the events of the whole are those of the parts
  have hevs : evs = evs₁ ++ evs₂ := by
    rw [List.filter_append] at hev
    exact List.right_unique_forall₂' FrameEvent.rightUnique hev
      (List.rel_append hev₁ hev₂)
  rw [hparse, hparse₁, Option.bind_some, hparse₂, hevs, count_append,
    delivers_count]
  simp [Outcome.after, tailEvents]

theorem isSome_parseImpl (p : Parser) (data : List UInt8) :
    (p.parseImpl data).isSome := by
  obtain ⟨frames, tail, hd⟩ := Decomposition.exists data
  obtain ⟨evs, -, hparse⟩ := p.parseImpl_decomposition hd
  rw [hparse]
  rfl

/-- `parse`, which throws where there is an error in the outcome. No read of
`parseImpl` is outside the buffer, so there is always an outcome. -/
def parse (p : Parser) (data : List UInt8) : Outcome :=
  (p.parseImpl data).get (p.isSome_parseImpl data)

theorem parse_eq {p : Parser} {data : List UInt8} {o : Outcome}
    (h : p.parseImpl data = some o) : p.parse data = o := by
  unfold parse
  simp only [h, Option.get_some]

/-- The calls of the message callback. -/
def Outcome.messages (o : Outcome) : List Message :=
  o.2.1.filterMap fun
    | .message m => some m
    | .error .. => none

end Parser

/-- **The parser accepts the framing grammar.** A buffer is cut up in exactly
one way. One event is reported for each frame that is not padding, one more
for a tail that is not empty; the counters and the result say the same. Hence
parsing `a ++ b`, where `a` is made of complete frames, is parsing `a`, then
parsing `b`. -/
theorem parse_grammar :
    (∀ data : List UInt8, ∃! d : List (List UInt8) × List UInt8,
      Decomposition data d.1 d.2) ∧
    (∀ (p : Parser) (data : List UInt8) (frames : List (List UInt8))
      (tail : List UInt8), Decomposition data frames tail →
      ∃ evs, List.Forall₂ FrameEvent (frames.filter (· ≠ [])) evs ∧
        p.parseImpl data = some
          ({ p with
            unknownMessageCount :=
              p.unknownMessageCount + UInt64.ofNat (frames.countP isUnknown)
            malformedMessageCount := p.malformedMessageCount + UInt64.ofNat
              (frames.countP isUndersized + if tail = [] then 0 else 1) },
          (evs ++ tailEvents tail).filter p.delivers, tailResult tail)) ∧
    (∀ (p : Parser) (a b : List UInt8) (frames : List (List UInt8)),
      Decomposition a frames [] → p.parseImpl (a ++ b) =
        (p.parseImpl a).bind fun o =>
          (o.1.parseImpl b).map (·.after o.2.1)) := by
  refine ⟨fun data => ?_, fun p data frames tail hd => ?_,
    fun p a b frames ha => p.parseImpl_append ha⟩
  · obtain ⟨frames, tail, hd⟩ := Decomposition.exists data
    refine ⟨(frames, tail), hd, fun d hd' => ?_⟩
    obtain ⟨hf, ht⟩ := hd'.unique hd
    exact Prod.ext hf ht
  · obtain ⟨evs, hev, hparse⟩ := p.parseImpl_decomposition hd
    refine ⟨evs, hev, hparse.trans ?_⟩
    by_cases ht : tail = []
    · simp [ht, Parser.countTail, Parser.count]
    · simp [ht, Parser.countTail, Parser.count, UInt64.ofNat_add,
        UInt64.add_assoc]

/-- An undersized frame and padding, then an unknown type and a single byte:
three events for the whole, the same as for its two halves. -/
theorem parse_grammar_threeEvents :
    (∃ evs, List.Forall₂ FrameEvent [[83], [1, 2]] evs ∧
      Parser.parseImpl { hasErrorCallback := true }
        ([0, 1, 83, 0, 0] ++ [0, 2, 1, 2, 0]) = some
          ({ hasErrorCallback := true, unknownMessageCount := 1,
             malformedMessageCount := 2 },
            (evs ++ [ParserEvent.error .truncated 0]).filter
              (Parser.delivers { hasErrorCallback := true }),
            some .truncated)) ∧
    Parser.parseImpl {} ([0, 1, 83, 0, 0] ++ [0, 2, 1, 2, 0]) =
      (Parser.parseImpl {} [0, 1, 83, 0, 0]).bind fun o =>
        (o.1.parseImpl [0, 2, 1, 2, 0]).map (·.after o.2.1) := by
  constructor
  · have hd : Decomposition ([0, 1, 83, 0, 0] ++ [0, 2, 1, 2, 0])
        [[83], [], [1, 2]] [0] := ⟨by decide, by decide, .byte 0⟩
    exact parse_grammar.2.1 { hasErrorCallback := true } _ _ _ hd
  · have ha : Decomposition [0, 1, 83, 0, 0] [[83], []] [] :=
      ⟨by decide, by decide, .empty⟩
    exact parse_grammar.2.2 {} _ [0, 2, 1, 2, 0] _ ha

end Itch
