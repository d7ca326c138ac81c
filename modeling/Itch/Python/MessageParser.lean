import Itch.Price
import Itch.Python.MessageIteration

/-!
# Message objects and their parser

§1 makes a message object of the bytes of a message, and is the round trip of
the two. §2 is the loop that hands the messages of an iterator to a callback:
it ends, and §3 says what it delivers. §4 is what an object makes of its
fields.
-/

namespace Itch.Python

open MessageIterator ByteCursor Overlay

/-! ## §1  Objects and bytes -/

/-- What the constructor of a message class throws. -/
inductive UnpackError where
  | valueError
  | runtimeError
  | badVariantAccess
deriving DecidableEq

/-- `unpack_body`: the body in a frame of its own; of its messages, the last. -/
def unpackBody (body : List UInt8) : Except UnpackError Message :=
  let frame := UInt8.ofNat (body.length >>> 8) :: UInt8.ofNat body.length :: body
  let outcome := Parser.parse {} frame
  match outcome.2.2 with
  | some _ => .error .runtimeError
  | none =>
    match outcome.messages.getLast? with
    | some message => .ok message
    | none => .error .valueError

/-- `MsgType(body)`, for the class of a type. -/
def construct (t : MsgType) (body : List UInt8) : Except UnpackError Message :=
  match unpackBody body with
  | .ok message =>
    if message.alternative = t then .ok message else .error .badVariantAccess
  | .error error => .error error

/-- `MessageParser.get_message_type`. -/
def getMessageType (body : List UInt8) : Except UnpackError Message :=
  match body with
  | [] => .error .valueError
  | typeByte :: _ =>
    if typeByte ∉ ALL_MESSAGES then .error .valueError else unpackBody body

theorem frame_eq (body : List UInt8) :
    UInt8.ofNat (body.length >>> 8) :: UInt8.ofNat body.length :: body =
      frameBytes body := by
  show _ = UInt8.ofNat (body.length / 256 ^ 1) ::
    UInt8.ofNat (body.length / 256 ^ 0) :: body
  rw [Nat.shiftRight_eq_div_pow, pow_one, pow_zero, Nat.div_one]

theorem unpackBody_eq {body : List UInt8} (h : body.length < 2 ^ 16) :
    unpackBody body =
      match decodable body with
      | some m => .ok m
      | none => .error .valueError := by
  have hmessages := messages_parse_frame {} h
  obtain ⟨evs, -, hparse⟩ := Parser.parseImpl_decomposition {} (.frame h)
  have hresult : (Parser.parse {} (frameBytes body)).2.2 = none := by
    rw [Parser.parse_eq hparse]
    rfl
  rw [unpackBody, frame_eq, hresult, hmessages]
  cases decodable body <;> rfl

/-- A type byte that is not listed is not decoded either. -/
theorem getMessageType_eq {body : List UInt8} (h : body.length < 2 ^ 16) :
    getMessageType body = unpackBody body := by
  have hunlisted (hc : body.headD 0 ∉ ALL_MESSAGES) :
      unpackBody body = .error .valueError := by
    rw [mem_ALL_MESSAGES, Option.not_isSome_iff_eq_none] at hc
    rw [unpackBody_eq h, decodable, hc, Option.bind_none]
  cases body with
  | nil => exact (hunlisted (by decide)).symm
  | cons c cs =>
    rw [getMessageType]
    split
    · rename_i hc
      exact (hunlisted hc).symm
    · rfl

/-- A body can be unpacked when its type byte is registered and it has the
size of that type. -/
theorem decodable_eq_some {body : List UInt8} {t : MsgType}
    (ht : lookup (body.headD 0) = some t) (hsize : t.wireSize ≤ body.length) :
    ∃ m, decodable body = some m ∧ m.alternative = t ∧ m.OwnType ∧
      m.header.timestamp < 2 ^ 48 ∧ encodeMessage m = body.take t.wireSize := by
  obtain ⟨m, hm⟩ := decodable_of_sized ht hsize
  obtain ⟨hreencodes, hown, htime⟩ :=
    reencodes_of_frameEvent (decodable_eq_some_iff.mp hm)
  obtain rfl : m.alternative = t :=
    Option.some.inj (hreencodes.type.symm.trans ht)
  refine ⟨m, hm, rfl, hown, htime, ?_⟩
  have hbytes := hreencodes.bytes
  rw [encodeFrame] at hbytes
  apply (List.append_inj' hbytes _).2
  rw [length_encodeMessage, List.length_take_of_le hsize]

theorem decodable_encodeMessage {m : Message} (hown : m.OwnType)
    (htime : m.header.timestamp < 2 ^ 48) (extra : List UInt8) :
    decodable (encodeMessage m ++ extra) = some m := by
  have hpos := m.alternative.wireSize_bounds.1
  have hlength := length_encodeMessage m
  have hhead : (encodeMessage m ++ extra).headD 0 = m.alternative.typeByte := by
    have hhead := head_encodeMessage m
    rw [hown] at hhead
    cases hbytes : encodeMessage m with
    | nil =>
      rw [hbytes, List.length_nil] at hlength
      omega
    | cons c cs =>
      rw [hbytes] at hhead
      exact hhead
  rw [decodable, hhead, MsgType.lookup_typeByte, Option.bind_some,
    if_pos (by rw [List.length_append]; omega), ← hlength, List.take_left]
  have hdecode := decode_encodeMessage m hown htime []
  rwa [List.append_nil] at hdecode

/-- An object of a class, as the class makes them. -/
def Constructed (t : MsgType) (m : Message) : Prop :=
  m.alternative = t ∧ m.OwnType ∧ m.header.timestamp < 2 ^ 48

/-- What the constructor comes to, from the first byte and the length. -/
def expectedObject (t : MsgType) (body : List UInt8) :
    Except UnpackError Message → Prop
  | .ok m => lookup (body.headD 0) = some t ∧ t.wireSize ≤ body.length ∧
      Constructed t m ∧ encodeMessage m = body.take t.wireSize
  | .error .valueError => ∀ u, lookup (body.headD 0) = some u →
      body.length < u.wireSize
  | .error .badVariantAccess => ∃ u, u ≠ t ∧
      lookup (body.headD 0) = some u ∧ u.wireSize ≤ body.length
  | .error .runtimeError => False

/-- **Objects and bytes are each other's inverse.** An object comes back from
its bytes, whatever follows them, and is turned into the bytes it was made
from; the constructor fails for the two reasons there are. -/
theorem construct_roundTrip (t : MsgType) :
    (∀ m, Constructed t m → ∀ extra : List UInt8,
      t.wireSize + extra.length < 2 ^ 16 →
        construct t (encodeMessage m ++ extra) = .ok m) ∧
    ∀ body : List UInt8, body.length < 2 ^ 16 →
      expectedObject t body (construct t body) := by
  constructor
  · rintro m ⟨rfl, hown, htime⟩ extra hsize
    have hlength : (encodeMessage m ++ extra).length < 2 ^ 16 := by
      rw [List.length_append, length_encodeMessage]
      exact hsize
    rw [construct, unpackBody_eq hlength, decodable_encodeMessage hown htime]
    exact if_pos rfl
  · intro body hlength
    rw [construct, unpackBody_eq hlength]
    cases hu : lookup (body.headD 0) with
    | none =>
      have hnone : decodable body = none := by
        rw [decodable, hu, Option.bind_none]
      rw [hnone]
      intro u hu'
      rw [hu] at hu'
      cases hu'
    | some u =>
      by_cases hsize : u.wireSize ≤ body.length
      · obtain ⟨m, hm, halternative, hown, htime, hbytes⟩ :=
          decodable_eq_some hu hsize
        rw [hm]
        dsimp only
        by_cases hut : u = t
        · subst hut
          rw [if_pos halternative]
          exact ⟨hu, hsize, ⟨halternative, hown, htime⟩, hbytes⟩
        · rw [if_neg (by rwa [halternative])]
          exact ⟨u, hut, hu, hsize⟩
      · rw [decodable_of_not_sized hu hsize]
        intro u' hu'
        rw [hu] at hu'
        obtain rfl := Option.some.inj hu'
        exact not_le.mp hsize

/-! ## §2  The callback loop -/

namespace MessageIterator

variable {iter iter' : MessageIterator} {total : ℕ} {m : Message}

theorem pending_deliver {typeByte : UInt8} {parsed : Option Message}
    {frame : List UInt8} {outside : Bool} :
    (iter.deliver typeByte parsed frame outside).iter.pending =
      iter.pending := by
  cases hstop : isStop typeByte parsed with
  | error e => rw [deliver_error hstop]
  | ok stop =>
    by_cases hkept : typeByte ∈ iter.filter
    · rw [deliver_kept hstop hkept]
      rfl
    · rw [deliver_dropped hstop hkept]

theorem visit_message (h : (iter.visit total).result = some (.message m)) :
    (iter.visit total).iter.pending =
      { iter with offset := iter.offset + total }.pending := by
  rw [visit] at h ⊢
  dsimp only at h ⊢
  by_cases hknown :
      iter.buffer.getD (iter.offset + FRAME_HEADER_LEN) 0 ∉ ALL_MESSAGES
  · rw [if_pos hknown] at h
    cases h
  · rw [if_neg hknown] at h ⊢
    cases herror : (Parser.parse {} ((iter.buffer.drop iter.offset).take
        total)).2.2 with
    | some e =>
      rw [herror] at h
      cases h
    | none => exact pending_deliver

/-- A pass that returns a message consumes its frame. -/
theorem pass_message (h : iter.pass.result = some (.message m)) :
    iter.pass.iter.pending.length < iter.pending.length := by
  cases hstopped : iter.stopped with
  | true =>
    rw [pass, if_pos hstopped] at h
    cases h
  | false =>
    rcases pass_cases hstopped with
      ⟨iter', -, hpass, -⟩ | ⟨iter', hrefills, hpass, hlen⟩
    · rw [hpass] at h
      cases h
    · rw [hpass] at h ⊢
      rw [visit_message h, ← hrefills.pending, length_pending, length_pending]
      dsimp only
      omega

theorem next_message (h : iter.next.1.result = .message m) :
    iter.next.2.pending.length < iter.pending.length := by
  induction hn : iter.pending.length using Nat.strong_induction_on
    generalizing iter with
  | _ n ih =>
    subst hn
    rcases hpass : iter.pass with ⟨_ | result, outside, iter'⟩
    · have hless : iter'.pending.length < iter.pending.length := by
        have hless := @pass_none iter (by rw [hpass])
        rwa [hpass] at hless
      rw [next_of_none hpass] at h ⊢
      exact (ih _ hless h rfl).trans hless
    · rw [next_of_result hpass] at h ⊢
      have hless := @pass_message iter m (by rw [hpass]; exact congrArg _ h)
      rwa [hpass] at hless

end MessageIterator

/-- What `parse_messages` reads: bytes, or a file object. -/
inductive Source where
  | buffer (data : List UInt8)
  | file (chunks : List (List UInt8))

/-- `make_iterator`, without a file for saving. -/
def Source.iterator (filter : List UInt8) : Source → MessageIterator
  | .buffer data => { buffer := data, filter := filter }
  | .file chunks => { filter := filter, file := some chunks }

/-- The calls of the callback, the exception that is thrown on, and whether a
type byte was read outside of its frame. -/
structure Dispatched where
  calls : List Message
  error : Option Result
  outside : Bool

/-- The loop of `parse_messages`, for a callback that does not throw. -/
def dispatch (iter : MessageIterator) : Dispatched :=
  match _h : iter.next with
  | (⟨.message message, outside⟩, iter') =>
    let rest := dispatch iter'
    ⟨message :: rest.calls, rest.error, outside || rest.outside⟩
  | (⟨.stopIteration, outside⟩, _) => ⟨[], none, outside⟩
  | (⟨error, outside⟩, _) => ⟨[], some error, outside⟩
termination_by iter.pending.length
decreasing_by
  have hless := @next_message iter message (by rw [_h])
  rwa [_h] at hless

/-- `MessageParser(message_type).parse_messages`. -/
def parseMessages (messageType : List UInt8) (data : Source) : Dispatched :=
  dispatch (data.iterator messageType)

/-- How an iteration that has returned all its messages ends the loop. -/
def errorOf : Result → Option Result
  | .stopIteration => none
  | error => some error

theorem errorOf_injective : Function.Injective errorOf := by
  intro r r' h
  cases r <;> cases r' <;> first | rfl | exact Option.some.inj h | cases h

section Dispatch

variable {iter iter' : MessageIterator} {m : Message} {outside : Bool}

theorem dispatch_message (h : iter.next = (⟨.message m, outside⟩, iter')) :
    dispatch iter =
      ⟨m :: (dispatch iter').calls, (dispatch iter').error,
        outside || (dispatch iter').outside⟩ := by
  rw [dispatch]
  split
  all_goals
    rename_i hnext
    rw [h] at hnext
    cases hnext
  · rfl
  · rename_i hmessage _
    exact (hmessage m rfl).elim

theorem dispatch_end {result : Result}
    (h : iter.next.1 = ⟨result, outside⟩)
    (hresult : ∀ m, result ≠ .message m) :
    dispatch iter = ⟨[], errorOf result, outside⟩ := by
  have hnext : iter.next = (⟨result, outside⟩, iter.next.2) :=
    Prod.ext h rfl
  rw [dispatch]
  split
  all_goals
    rename_i hcall
    rw [hnext] at hcall
    cases hcall
  · exact absurd rfl (hresult _)
  · rfl
  · rename_i hstop
    rw [errorOf]
    exact hstop

theorem follows_nil_iff {result : Result} :
    Follows false ([], result) iter ↔ iter.next.1 = ⟨result, false⟩ := by
  constructor
  · exact Follows.next
  · rintro h n (hforever | hn)
    · cases hforever
    · obtain rfl := Nat.le_zero.mp hn
      exact h

/-- A first call that returns something else than a message. -/
theorem calls_dispatch_eq_nil :
    (dispatch iter).calls = [] ↔
      ∀ m, iter.next.1.result ≠ .message m := by
  constructor
  · intro hnil m hm
    rw [dispatch_message (Prod.ext (by rw [← hm]) rfl)] at hnil
    cases hnil
  · intro hresult
    rw [dispatch_end rfl hresult]

/-- The loop comes to the expected calls if and only if the iterator does, up
to the end of the iteration. -/
theorem dispatch_iff_follows {result : Result}
    (hresult : ∀ m, result ≠ .message m) (ms : List Message) :
    dispatch iter = ⟨ms, errorOf result, false⟩ ↔
      Follows false (ms, result) iter := by
  induction ms generalizing iter with
  | nil =>
    rw [follows_nil_iff]
    constructor
    · intro h
      have hnil := congrArg Dispatched.calls h
      rw [dispatch_end rfl (calls_dispatch_eq_nil.mp hnil)] at h
      obtain ⟨-, herror, houtside⟩ := Dispatched.mk.inj h
      rw [← errorOf_injective herror, ← houtside]
    · intro h
      exact dispatch_end h hresult
  | cons m ms ih =>
    constructor
    · intro h
      have hcalls : (dispatch iter).calls ≠ [] := by
        rw [h]
        exact List.cons_ne_nil m ms
      rw [ne_eq, calls_dispatch_eq_nil, not_forall_not] at hcalls
      obtain ⟨m', hm'⟩ := hcalls
      have hnext : iter.next =
          (⟨.message m', iter.next.1.outside⟩, iter.next.2) :=
        Prod.ext (by rw [← hm']) rfl
      rw [dispatch_message hnext] at h
      obtain ⟨hcons, herror, houtside⟩ := Dispatched.mk.inj h
      obtain ⟨rfl, hms⟩ := List.cons.inj hcons
      obtain ⟨hfirst, hrest⟩ := Bool.or_eq_false_iff.mp houtside
      rw [hfirst] at hnext
      rw [follows_cons (d := (ms, result)) hnext, ← ih, ← hms, ← herror,
        ← hrest]
    · intro h
      have hnext : iter.next = (⟨.message m, false⟩, iter.next.2) :=
        Prod.ext h.next rfl
      have hrest := ih.mpr ((follows_cons (d := (ms, result)) hnext).mp h)
      rw [dispatch_message hnext, hrest]
      rfl

end Dispatch

/-! ## §3  What the loop delivers -/

def Source.data : Source → List UInt8
  | .buffer data => data
  | .file chunks => chunks.flatten

/-- `read(n)` returns at most `n` bytes, and none only at the end. -/
def Source.Readable : Source → Prop
  | .buffer _ => True
  | .file chunks =>
    ∀ chunk ∈ chunks, chunk ≠ [] ∧ chunk.length ≤ DEFAULT_CACHE_SIZE

section Delivered

variable {filter tail : List UInt8} {frames : List (List UInt8)}
  {source : Source} {messages : List Message}

theorem loads_iterator (hread : source.Readable) :
    Loads filter source.data (source.iterator filter) := by
  cases source with
  | buffer data => exact .stream none
  | file chunks => exact .file chunks DEFAULT_CACHE_SIZE none hread rfl

theorem parseMessages_iff_clean (hread : source.Readable)
    (hd : Decomposition source.data frames tail) {ms : List Message}
    {result : Result} (hexpected : expected filter source.data = (ms, result)) :
    parseMessages filter source = ⟨ms, errorOf result, false⟩ ↔
      Clean false filter frames := by
  have hresult : ∀ m, result ≠ .message m := by
    obtain ⟨events, -, hiterated⟩ := expected_eq filter hd
    rw [hiterated] at hexpected
    rintro m rfl
    have hend := @iterated_snd filter (events ++ tailEvents tail)
    rw [hexpected] at hend
    rcases hend with hend | ⟨c, hend⟩
    · cases hend
    · cases hend
  rw [parseMessages, dispatch_iff_follows hresult, ← hexpected]
  exact follows_expected_iff hd (loads_iterator hread)

/-- The messages up to the system event that ends them. -/
def untilEnd : List Message → List Message
  | [] => []
  | m :: messages => if stops m then [m] else m :: untilEnd messages

/-- Every message has the type byte of its type and a timestamp that fits. -/
def Packable (messages : List Message) : Prop :=
  ∀ m ∈ messages, m.OwnType ∧ m.header.timestamp < 2 ^ 48

theorem iterated_messages (filter : List UInt8) (messages : List Message) :
    iterated filter (messages.map .message) =
      ((untilEnd messages).filter (·.header.messageType ∈ filter),
        .stopIteration) := by
  induction messages with
  | nil => rfl
  | cons m messages ih =>
    rw [List.map_cons, iterated, ih, untilEnd]
    cases hs : stops m with
    | true =>
      rw [if_pos rfl, if_pos rfl, List.filter_singleton]
      by_cases hkept : m.header.messageType ∈ filter <;> simp [hkept]
    | false =>
      rw [if_neg Bool.false_ne_true, if_neg Bool.false_ne_true,
        List.filter_cons]
      by_cases hkept : m.header.messageType ∈ filter <;> simp [hkept]

theorem clean_packable (h : Packable messages) :
    Clean false filter (messages.map encodeMessage) := by
  induction messages with
  | nil => trivial
  | cons m messages ih =>
    obtain ⟨⟨hown, htime⟩, hrest⟩ := List.forall_mem_cons.mp h
    obtain ⟨hne, hevent⟩ := frameEvent_encodeMessage m hown htime
    have htype := (reencodes_of_frameEvent hevent).1.type
    rw [List.map_cons, clean_cons hne htype]
    constructor
    · rintro -
      exact (length_encodeMessage m).ge
    · split
      · rintro - hforever
        cases hforever
      · exact ih hrest

/-- **The callback gets what the core parser delivers.** It is called with the
messages that the parser delivers and the filter keeps, up to the one that ends
the iteration, and the loop throws for the first frame of unknown type before
it; unless the frames up to there are not clean. -/
theorem parseMessages_delivers (messageType : List UInt8) (source : Source)
    (hread : source.Readable) (frames : List (List UInt8))
    (tail : List UInt8) (hd : Decomposition source.data frames tail) :
    parseMessages messageType source =
        ⟨(expected messageType source.data).1,
          errorOf (expected messageType source.data).2, false⟩ ↔
      Clean false messageType frames :=
  parseMessages_iff_clean hread hd rfl

def oneDelete : Message := .orderDelete { orderReferenceNumber := 7 }

/-- A message, and a frame of unknown type that comes in two chunks. -/
def deleteAndUnknown : Source := .file [encodeFrame oneDelete ++ [0], [1, 122]]

theorem parseMessages_delivers_unknown :
    parseMessages ['D'.toUInt8] deleteAndUnknown =
      ⟨[oneDelete], some (.valueError 122), false⟩ := by
  have hread : deleteAndUnknown.Readable := by
    show ∀ chunk ∈ [encodeFrame oneDelete ++ [0], [1, 122]], _
    decide
  have hd : Decomposition deleteAndUnknown.data
      [encodeMessage oneDelete, [122]] [] :=
    ⟨by decide, by decide, .empty⟩
  have hunknown : lookup ([122].headD 0) = none := by decide
  obtain ⟨hne, hevent⟩ := frameEvent_encodeMessage oneDelete rfl (by decide)
  have hsame : List.Forall₂ FrameEvent
      ([encodeMessage oneDelete, [122]].filter (· ≠ []))
      [.message oneDelete, .error .unknownType 122] :=
    .cons hevent (.cons (.unknownType hunknown) .nil)
  have hexpected : expected ['D'.toUInt8] deleteAndUnknown.data =
      ([oneDelete], .valueError 122) := by
    obtain ⟨events, hevents, heq⟩ := expected_eq ['D'.toUInt8] hd
    obtain rfl :=
      List.right_unique_forall₂' FrameEvent.rightUnique hevents hsame
    exact heq.trans rfl
  have hclean : Clean false ['D'.toUInt8] [encodeMessage oneDelete, [122]] := by
    rw [clean_cons hne (reencodes_of_frameEvent hevent).1.type]
    refine ⟨fun _ => (length_encodeMessage oneDelete).ge, ?_⟩
    rw [if_neg (by decide), Clean, hunknown]
    exact ⟨List.cons_ne_nil _ _, trivial⟩
  have hdelivers := (parseMessages_delivers _ _ hread _ _ hd).mpr hclean
  rwa [hexpected] at hdelivers

theorem decomposition_encodeFrames (messages : List Message) :
    Decomposition (messages.map encodeFrame).flatten
      (messages.map encodeMessage) [] := by
  refine ⟨?_, ?_, .empty⟩
  · intro f hf
    obtain ⟨m, -, rfl⟩ := List.mem_map.mp hf
    exact StreamItem.length_payload (some m)
  · rw [List.append_nil, List.map_map]
    congr 2
    funext m
    exact StreamItem.bytes_eq (some m)

theorem expected_encodeFrames (filter : List UInt8) (h : Packable messages) :
    expected filter (messages.map encodeFrame).flatten =
      ((untilEnd messages).filter (·.header.messageType ∈ filter),
        .stopIteration) := by
  have hsend : ∀ item ∈ messages.map some, StreamItem.Sendable item := by
    intro item hitem m hm
    obtain ⟨m', hm', rfl⟩ := List.mem_map.mp hitem
    rw [← Option.some.inj hm]
    exact h m' hm'
  have hbytes : (messages.map encodeFrame).flatten =
      ((messages.map some).map StreamItem.bytes).flatten := by
    rw [List.map_map]
    rfl
  have hparse := Parser.parseImpl_items { hasErrorCallback := true } hsend
  rw [List.filterMap_map, Function.id_comp, List.filterMap_some] at hparse
  rw [expected, hbytes, Parser.parse_eq hparse, iterated_messages]

/-- **What is written is read.** The bytes of messages, framed one after the
other, come back as these messages, up to the one that ends them and without
those that the filter drops, however a file object cuts them. -/
theorem parseMessages_encodeFrames (messageType : List UInt8)
    (messages : List Message) (h : Packable messages) (source : Source)
    (hread : source.Readable)
    (hdata : source.data = (messages.map encodeFrame).flatten) :
    parseMessages messageType source =
      ⟨(untilEnd messages).filter (·.header.messageType ∈ messageType), none,
        false⟩ := by
  have hd := decomposition_encodeFrames messages
  have hexpected := expected_encodeFrames messageType h
  rw [← hdata] at hd hexpected
  exact (parseMessages_iff_clean hread hd hexpected).mpr (clean_packable h)

/-- An event that ends the messages, between two deletions. -/
def threeMessages : List Message :=
  [.orderDelete { orderReferenceNumber := 7 },
    .systemEvent { eventCode := 'C'.toUInt8 },
    .orderDelete { orderReferenceNumber := 8 }]

theorem packable_threeMessages : Packable threeMessages := by
  intro m hm
  simp only [threeMessages, List.mem_cons, List.not_mem_nil, or_false] at hm
  rcases hm with rfl | rfl | rfl <;> exact ⟨by rfl, by decide⟩

theorem parseMessages_encodeFrames_threeMessages :
    parseMessages ['D'.toUInt8]
        (.buffer (threeMessages.map encodeFrame).flatten) =
      ⟨[.orderDelete { orderReferenceNumber := 7 }], none, false⟩ :=
  parseMessages_encodeFrames _ threeMessages packable_threeMessages _ trivial
    rfl

end Delivered

/-! ## §4  Fields -/

/-- `decode_price`: the quotient of two integers of Python is rounded once. -/
def decodePrice (raw pricePrecision : ℕ) : ℚ :=
  Binary64.round64 (raw / 10 ^ pricePrecision)

/-- `split_timestamp`: the high and the low 32 bits. -/
def splitTimestamp (timestamp : UInt64) : UInt64 × UInt64 :=
  let high := timestamp >>> 32
  (high, timestamp - (high <<< 32))

def setTimestamp (ts1 ts2 : UInt64) : UInt64 := ts2 ||| (ts1 <<< 32)

theorem decodePrice_standard (p : StandardPrice) :
    decodePrice p.raw.toNat StandardPrice.decimals = p.toDouble := by
  rw [decodePrice, StandardPrice.toDouble_eq, StandardPrice.decimals]
  norm_num

theorem decodePrice_mwcb {p : MwcbPrice} (h : p.raw.toNat < 2 ^ 53) :
    decodePrice p.raw.toNat MwcbPrice.decimals = p.toDouble := by
  rw [decodePrice, MwcbPrice.toDouble_eq h, MwcbPrice.decimals]

theorem toNat_high (timestamp : UInt64) :
    (timestamp >>> 32 <<< 32).toNat = timestamp.toNat / 2 ^ 32 * 2 ^ 32 := by
  have hlt := timestamp.toNat_lt
  rw [UInt64.toNat_shiftLeft, UInt64.toNat_shiftRight]
  show (timestamp.toNat >>> 32) <<< 32 % 2 ^ 64 = _
  rw [Nat.shiftRight_eq_div_pow, Nat.shiftLeft_eq]
  omega

theorem setTimestamp_splitTimestamp (timestamp : UInt64) :
    setTimestamp (splitTimestamp timestamp).1 (splitTimestamp timestamp).2 =
      timestamp := by
  have hhigh := toNat_high timestamp
  have hle : timestamp >>> 32 <<< 32 ≤ timestamp := by
    rw [UInt64.le_iff_toNat_le, hhigh]
    omega
  have hor := Nat.two_pow_add_eq_or_of_lt (i := 32)
    (Nat.mod_lt timestamp.toNat (by norm_num)) (timestamp.toNat / 2 ^ 32)
  rw [← UInt64.toNat_inj, setTimestamp, splitTimestamp, UInt64.toNat_or,
    UInt64.toNat_sub_of_le _ _ hle, hhigh, Nat.or_comm]
  have hlow : timestamp.toNat - timestamp.toNat / 2 ^ 32 * 2 ^ 32 =
      timestamp.toNat % 2 ^ 32 := by omega
  rw [hlow, Nat.mul_comm, ← hor]
  omega

end Itch.Python
