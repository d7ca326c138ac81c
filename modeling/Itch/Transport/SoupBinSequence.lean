import Mathlib.Data.Nat.Digits.Defs
import Itch.Wire.Overlay
import Itch.Transport.SoupBinTcp

/-!
# Sequence numbers follow the login

§1 reads the sequence field of a Login Accepted packet as a number. §2 says
what the next sequence number should be after the packets of a stream, §3 what
one packet does, and §4 what a stream of them does.
-/

namespace Itch.Transport

open ByteCursor Transducer

/-! ## §1  The sequence field -/

def isDigit (c : UInt8) : Bool := '0'.toUInt8 ≤ c && c ≤ '9'.toUInt8

/-- The number the digits are in base ten, the most significant one first. -/
def decimal (digits : List UInt8) : ℕ :=
  Nat.ofDigits 10 (digits.map fun c => c.toNat - '0'.toNat).reverse

/-- The digits behind the leading spaces. -/
def startDigits (field : List UInt8) : List UInt8 :=
  (field.dropWhile (· == ' '.toUInt8)).takeWhile isDigit

/-- The start number of a login: `1` where the field holds no number that can
be one. -/
def startNumber (field : List UInt8) : ℕ :=
  if startDigits field = [] ∨ decimal (startDigits field) = 0 ∨
      2 ^ 64 ≤ decimal (startDigits field) then 1
  else decimal (startDigits field)

theorem foldl_decimal (digits : List UInt8) :
    digits.foldl (fun value c => 10 * value + (c.toNat - '0'.toNat)) 0 =
      decimal digits := by
  induction digits using List.reverseRecOn with
  | nil => rfl
  | append_singleton digits c ih =>
      rw [List.foldl_append, ih]
      unfold decimal
      rw [List.map_append, List.reverse_append]
      show _ = Nat.ofDigits 10 (_ :: _)
      rw [Nat.ofDigits_cons]
      simp [Nat.add_comm]

theorem startDigits_space (field : List UInt8) :
    startDigits (field ++ [' '.toUInt8]) = startDigits field := by
  unfold startDigits
  rw [List.dropWhile_append]
  generalize field.dropWhile (· == ' '.toUInt8) = rest
  cases rest with
  | nil => rfl
  | cons c rest =>
      have hspace : [' '.toUInt8].takeWhile isDigit = [] := by decide
      rw [if_neg (by simp), List.takeWhile_append, hspace]
      split
      · rename_i hlen
        rw [List.append_nil]
        exact ((List.takeWhile_prefix isDigit).eq_of_length hlen).symm
      · rfl

/-- The trailing spaces do not matter to what stands before them. -/
theorem startDigits_trimField (field : List UInt8) :
    startDigits (trimField field) = startDigits field := by
  induction field using List.reverseRecOn with
  | nil => rfl
  | append_singleton field c ih =>
      unfold trimField
      rw [List.rdropWhile_concat]
      split
      · rename_i hspace
        have hc : c = ' '.toUInt8 := beq_iff_eq.mp hspace
        rw [hc, startDigits_space]
        exact ih
      · rfl

theorem parseSequenceField_eq (field : List UInt8) :
    parseSequenceField field =
      if startDigits field ≠ [] ∧ decimal (startDigits field) < 2 ^ 64 then
        .ofNat (decimal (startDigits field))
      else 0 := by
  have hdigits : ((trimField field).dropWhile (· == ' '.toUInt8)).takeWhile
      (fun c => '0'.toUInt8 ≤ c && c ≤ '9'.toUInt8) = startDigits field :=
    startDigits_trimField field
  unfold parseSequenceField fromChars
  simp only [hdigits, foldl_decimal]
  split
  · rfl
  · rfl

/-- The number with which the decoder goes on after a login. -/
theorem toNat_startNumber (field : List UInt8) :
    (if parseSequenceField field = 0 then 1
      else parseSequenceField field).toNat = startNumber field := by
  rw [parseSequenceField_eq]
  unfold startNumber
  by_cases hvalid : startDigits field ≠ [] ∧
      decimal (startDigits field) < 2 ^ 64
  · have hvalue := UInt64.toNat_ofNat_of_lt' hvalid.2
    have hiff : UInt64.ofNat (decimal (startDigits field)) = 0 ↔
        decimal (startDigits field) = 0 := by
      rw [← UInt64.toNat_inj, hvalue]
      rfl
    simp only [if_pos hvalid]
    by_cases hzero : decimal (startDigits field) = 0
    · rw [if_pos (hiff.mpr hzero), if_pos (Or.inr (Or.inl hzero))]
      rfl
    · have hno : ¬(startDigits field = [] ∨ decimal (startDigits field) = 0 ∨
          2 ^ 64 ≤ decimal (startDigits field)) := by
        rintro (h | h | h)
        · exact hvalid.1 h
        · exact hzero h
        · exact absurd hvalid.2 (not_lt.mpr h)
      rw [if_neg (hiff.not.mpr hzero), if_neg hno, hvalue]
  · have hyes : startDigits field = [] ∨ decimal (startDigits field) = 0 ∨
        2 ^ 64 ≤ decimal (startDigits field) := by
      by_cases hnil : startDigits field = []
      · exact .inl hnil
      · right; right
        by_contra hlt
        exact hvalid ⟨hnil, not_le.mp hlt⟩
    rw [if_neg hvalid, if_pos rfl, if_pos hyes]
    rfl

/-! ## §2  What should come next -/

/-- What a Login Accepted packet says. -/
structure Login where
  session : Str
  start : ℕ

/-- The login of a packet, if it is one and long enough. -/
def login? : List UInt8 → Option Login
  | [] => none
  | c :: payload =>
      if SoupBinPacketType.ofChar c = .loginAccepted ∧ 30 ≤ payload.length then
        some ⟨trimField (payload.take 10),
          startNumber ((payload.drop 10).take 20)⟩
      else none

theorem login?_some {c : UInt8} {payload : List UInt8} {l : Login}
    (h : login? (c :: payload) = some l) :
    SoupBinPacketType.ofChar c = .loginAccepted ∧ 30 ≤ payload.length ∧
      l = ⟨trimField (payload.take 10),
        startNumber ((payload.drop 10).take 20)⟩ := by
  change (if _ then _ else _) = _ at h
  split at h
  · rename_i hlogin
    exact ⟨hlogin.1, hlogin.2, (Option.some.inj h).symm⟩
  · cases h

def isSequenced : List UInt8 → Bool
  | [] => false
  | c :: _ => SoupBinPacketType.ofChar c = .sequencedData

def lastLogin (packets : List (List UInt8)) : Option Login :=
  (packets.filterMap login?).getLast?

/-- The start number of the last login. -/
def start (packets : List (List UInt8)) : ℕ :=
  (lastLogin packets).elim 1 Login.start

/-- The sequenced packets since the last login. -/
def since (packets : List (List UInt8)) : ℕ :=
  (packets.rtakeWhile fun p => (login? p).isNone).countP isSequenced

theorem lastLogin_snoc (packets : List (List UInt8)) (bytes : List UInt8) :
    lastLogin (packets ++ [bytes]) =
      (login? bytes).or (lastLogin packets) := by
  unfold lastLogin
  rw [List.filterMap_append]
  cases h : login? bytes with
  | none => simp [h]
  | some l => simp [h]

theorem since_snoc (packets : List (List UInt8)) (bytes : List UInt8) :
    since (packets ++ [bytes]) =
      if (login? bytes).isSome then 0
      else since packets + if isSequenced bytes then 1 else 0 := by
  unfold since
  rw [List.rtakeWhile_concat]
  cases h : login? bytes with
  | none => simp [List.countP_append, List.countP_singleton]
  | some l => simp

/-! ## §3  One packet -/

namespace SoupBinDecoder

def messagesOf (events : List SoupBinEvent) : List Message :=
  events.filterMap SoupBinEvent.message?

theorem messagesOf_filter (events : List SoupBinEvent) :
    messagesOf (events.filter SoupBinEvent.isDelivery) =
      messagesOf events := by
  unfold messagesOf
  rw [List.filterMap_filter]
  congr 1
  ext e : 1
  cases e <;> rfl

variable {d : SoupBinDecoder} {bytes payload : List UInt8} {l : Login}

/-- Decoding a message leaves the counters alone and tells the tracker
nothing. -/
theorem decodeApplicationMessage_keeps (d : SoupBinDecoder)
    (payload : List UInt8) :
    (d.decodeApplicationMessage payload).1.session = d.session ∧
      (d.decodeApplicationMessage payload).1.nextSequence = d.nextSequence ∧
      (d.decodeApplicationMessage payload).1.tracker = d.tracker ∧
      ∀ e, .tracker e ∉ (d.decodeApplicationMessage payload).2 := by
  unfold decodeApplicationMessage
  split
  · simp
  · refine ⟨rfl, rfl, rfl, ?_⟩
    intro e he
    dsimp only at he
    split at he
    · obtain ⟨m, -, hm⟩ := List.mem_map.mp he
      cases hm
    · cases he

theorem tracker_notMem_notify (d : SoupBinDecoder) (type : SoupBinPacketType)
    (payload : List UInt8) (e : TrackerEvent) :
    .tracker e ∉ (d.notify type payload).2 := by
  intro he
  unfold notify at he
  dsimp only at he
  split at he
  · simp at he
  · cases he

theorem packet_login (h : login? bytes = some l) :
    (d.packet bytes).1.session = l.session ∧
      (d.packet bytes).1.nextSequence.toNat = l.start ∧
      (d.packet bytes).1.tracker = d.tracker ∧
      ∀ e, .tracker e ∉ (d.packet bytes).2 := by
  rcases bytes with _ | ⟨c, payload⟩
  · cases h
  · obtain ⟨htype, hlen, rfl⟩ := login?_some h
    have hlen' : payload.length ≥ LOGIN_SESSION_SIZE + LOGIN_SEQUENCE_SIZE :=
      hlen
    unfold packet processPacket
    simp only [htype]
    rw [if_pos hlen']
    exact ⟨rfl, toNat_startNumber _, rfl, tracker_notMem_notify _ _ _⟩

theorem packet_sequenced (h : isSequenced bytes) :
    (d.packet bytes).1.session = d.session ∧
      (d.packet bytes).1.nextSequence = d.nextSequence + 1 ∧
      (d.packet bytes).1.tracker =
        (d.tracker.step ⟨d.session, d.nextSequence, 1⟩).1 ∧
      ∀ e, .tracker e ∈ (d.packet bytes).2 ↔
        e ∈ (d.tracker.step ⟨d.session, d.nextSequence, 1⟩).2 := by
  rcases bytes with _ | ⟨c, payload⟩
  · cases h
  · have htype : SoupBinPacketType.ofChar c = .sequencedData :=
      of_decide_eq_true h
    unfold packet processPacket
    simp only [htype]
    obtain ⟨hsession, hnext, htracker, hevents⟩ :=
      decodeApplicationMessage_keeps { d with
        tracker := (d.tracker.observe d.session d.nextSequence 1).tracker
        nextSequence := d.nextSequence + 1 } payload
    refine ⟨hsession, hnext, htracker, ?_⟩
    intro e
    rw [List.mem_append]
    constructor
    · rintro (he | he)
      · obtain ⟨e', he', heq⟩ := List.mem_map.mp he
        cases heq
        exact he'
      · exact absurd he (hevents e)
    · intro he
      exact .inl (List.mem_map_of_mem he)

theorem packet_other (hlogin : login? bytes = none)
    (hsequenced : isSequenced bytes = false) :
    (d.packet bytes).1.session = d.session ∧
      (d.packet bytes).1.nextSequence = d.nextSequence ∧
      (d.packet bytes).1.tracker = d.tracker ∧
      ∀ e, .tracker e ∉ (d.packet bytes).2 := by
  rcases bytes with _ | ⟨c, payload⟩
  · exact ⟨rfl, rfl, rfl, fun e => List.not_mem_nil⟩
  · unfold packet processPacket
    dsimp only
    cases htype : SoupBinPacketType.ofChar c with
    | loginAccepted =>
        have hshort : ¬payload.length ≥
            LOGIN_SESSION_SIZE + LOGIN_SEQUENCE_SIZE := by
          intro hlen
          have hlong : login? (c :: payload) = some _ :=
            if_pos ⟨htype, hlen⟩
          rw [hlong] at hlogin
          cases hlogin
        dsimp only
        rw [if_neg hshort]
        exact ⟨rfl, rfl, rfl, tracker_notMem_notify _ _ _⟩
    | sequencedData =>
        have hyes : isSequenced (c :: payload) = true :=
          decide_eq_true htype
        rw [hyes] at hsequenced
        cases hsequenced
    | unsequencedData => exact decodeApplicationMessage_keeps d payload
    | _ => exact ⟨rfl, rfl, rfl, tracker_notMem_notify _ _ _⟩

/-- One message at most, and that the decode of the payload. -/
def AtMostDecode (payload : List UInt8) (ms : List Message) : Prop :=
  ms = [] ∨ ∃ m, ms = [m] ∧ FrameEvent payload (.message m)

theorem parse_frame (p : Parser) (hsmall : payload.length < 2 ^ 16) :
    AtMostDecode payload (p.parse (frameBytes payload)).messages := by
  rw [Overlay.messages_parse_frame p hsmall]
  cases h : decodable payload with
  | none => exact .inl rfl
  | some m => exact .inr ⟨m, rfl, decodable_eq_some_iff.mp h⟩

theorem atMostDecode_decodeApplicationMessage (d : SoupBinDecoder)
    (payload : List UInt8) : AtMostDecode payload
      (messagesOf (d.decodeApplicationMessage payload).2) := by
  unfold decodeApplicationMessage
  split
  · exact .inl rfl
  · rename_i hpayload
    rw [not_or, not_lt] at hpayload
    have hparse := parse_frame d.parser (Nat.lt_succ_of_le hpayload.2)
    dsimp only
    split
    · have hlist (ms : List Message) :
          messagesOf (ms.map SoupBinEvent.message) = ms := by
        unfold messagesOf
        rw [List.filterMap_map]
        exact List.filterMap_some
      rw [hlist]
      exact hparse
    · exact .inl rfl

/-- Only data packets deliver messages. -/
theorem messagesOf_packet (d : SoupBinDecoder) (bytes : List UInt8) :
    messagesOf (d.packet bytes).2 = [] ∨
      ∃ c payload, bytes = c :: payload ∧
        (SoupBinPacketType.ofChar c = .sequencedData ∨
          SoupBinPacketType.ofChar c = .unsequencedData) ∧
        AtMostDecode payload (messagesOf (d.packet bytes).2) := by
  rcases bytes with _ | ⟨c, payload⟩
  · exact .inl rfl
  · have hnotify (d : SoupBinDecoder) (type : SoupBinPacketType) :
        messagesOf (d.notify type payload).2 = [] := by
      unfold notify
      dsimp only
      split
      · rfl
      · rfl
    unfold packet processPacket
    dsimp only
    cases htype : SoupBinPacketType.ofChar c with
    | loginAccepted =>
        left
        dsimp only
        split
        · exact hnotify _ _
        · exact hnotify _ _
    | sequencedData =>
        right
        refine ⟨c, payload, rfl, .inl htype, ?_⟩
        have htracker (events : List TrackerEvent) :
            messagesOf (events.map SoupBinEvent.tracker) = [] := by
          unfold messagesOf
          rw [List.filterMap_map]
          exact List.filterMap_eq_nil_iff.mpr fun _ _ => rfl
        dsimp only
        unfold messagesOf at htracker ⊢
        rw [List.filterMap_append, htracker, List.nil_append]
        exact atMostDecode_decodeApplicationMessage _ payload
    | unsequencedData =>
        right
        exact ⟨c, payload, rfl, .inr htype,
          atMostDecode_decodeApplicationMessage d payload⟩
    | _ => exact .inl (hnotify _ _)

/-! ## §4  Streams -/

/-- Where the decoder stands after the packets: at the number of the login and
the packets since, which the tracker does not expect to be smaller once it has
seen one of them. -/
structure Follows (packets : List (List UInt8)) (d : SoupBinDecoder) :
    Prop where
  next : d.nextSequence.toNat = start packets + since packets
  session : ∀ l ∈ lastLogin packets, d.session = l.session
  frontier : since packets = 0 ∨
    ∃ e, d.tracker.expectedNext d.session = some e ∧ d.nextSequence ≤ e
  silent : lastLogin packets = none → since packets = 0 →
    ∀ session, d.tracker.expectedNext session = none

theorem follows_fresh (callback eventCallback gapCallback requester : Bool) :
    Follows [] (fresh callback eventCallback gapCallback requester) := by
  refine ⟨rfl, ?_, .inl rfl, fun _ _ _ => rfl⟩
  intro l hl
  cases hl

variable {packets : List (List UInt8)}

theorem Follows.login (d : SoupBinDecoder) (hlogin : login? bytes = some l) :
    Follows (packets ++ [bytes]) (d.packet bytes).1 := by
  obtain ⟨hsession, hnext, -⟩ := d.packet_login hlogin
  have hlast : lastLogin (packets ++ [bytes]) = some l := by
    rw [lastLogin_snoc, hlogin]
    rfl
  have hsince : since (packets ++ [bytes]) = 0 := by
    rw [since_snoc, hlogin]
    rfl
  refine ⟨?_, ?_, .inl hsince, ?_⟩
  · rw [hnext, start, hlast, hsince]
    rfl
  · intro l' hl'
    rw [hlast] at hl'
    cases hl'
    exact hsession
  · intro hnone
    rw [hlast] at hnone
    cases hnone

theorem Follows.other (h : Follows packets d) (hlogin : login? bytes = none)
    (hsequenced : isSequenced bytes = false) :
    Follows (packets ++ [bytes]) (d.packet bytes).1 := by
  obtain ⟨hsession, hnext, htracker, -⟩ := d.packet_other hlogin hsequenced
  have hlast : lastLogin (packets ++ [bytes]) = lastLogin packets := by
    rw [lastLogin_snoc, hlogin]
    rfl
  have hsince : since (packets ++ [bytes]) = since packets := by
    rw [since_snoc, hlogin, hsequenced]
    rfl
  refine ⟨?_, ?_, ?_, ?_⟩
  · rw [hnext, h.next, start, start, hlast, hsince]
  · rw [hlast, hsession]
    exact h.session
  · rw [hsince, hsession, hnext, htracker]
    exact h.frontier
  · rw [hlast, hsince, htracker]
    exact h.silent

theorem Follows.sequenced (h : Follows packets d)
    (hlogin : login? bytes = none) (hsequenced : isSequenced bytes = true)
    (hfits : start packets + (since packets + 1) < 2 ^ 64) :
    Follows (packets ++ [bytes]) (d.packet bytes).1 := by
  obtain ⟨hsession, hnext, htracker, -⟩ := d.packet_sequenced hsequenced
  have hlast : lastLogin (packets ++ [bytes]) = lastLogin packets := by
    rw [lastLogin_snoc, hlogin]
    rfl
  have hsince : since (packets ++ [bytes]) = since packets + 1 := by
    rw [since_snoc, hlogin, hsequenced]
    rfl
  have hvalue : (d.nextSequence + 1).toNat = d.nextSequence.toNat + 1 := by
    rw [UInt64.toNat_add]
    apply Nat.mod_eq_of_lt
    show d.nextSequence.toNat + 1 < 2 ^ 64
    rw [h.next, Nat.add_assoc]
    exact hfits
  refine ⟨?_, ?_, .inr ?_, ?_⟩
  · rw [hnext, hvalue, h.next, start, start, hlast, hsince, Nat.add_assoc]
  · rw [hlast, hsession]
    exact h.session
  · rw [hsession, hnext, htracker]
    cases he : d.tracker.expectedNext d.session with
    | none =>
        refine ⟨_, SequenceTracker.expectedNext_step_unknown he, ?_⟩
        exact UInt64.le_refl _
    | some e =>
        refine ⟨_, SequenceTracker.expectedNext_step he, ?_⟩
        split
        · exact UInt64.le_refl _
        · rename_i hlt
          exact UInt64.not_lt.mp hlt
  · intro _ hzero
    rw [hsince] at hzero
    exact absurd hzero (Nat.succ_ne_zero _)

theorem Follows.packet (h : Follows packets d)
    (hfits : start (packets ++ [bytes]) + since (packets ++ [bytes]) <
      2 ^ 64) : Follows (packets ++ [bytes]) (d.packet bytes).1 := by
  unfold start at hfits
  rw [lastLogin_snoc, since_snoc] at hfits
  cases hlogin : login? bytes with
  | some l => exact Follows.login d hlogin
  | none =>
      cases hsequenced : isSequenced bytes with
      | false => exact h.other hlogin hsequenced
      | true =>
          rw [hlogin, hsequenced] at hfits
          exact h.sequenced hlogin hsequenced hfits

/-- A gap at the next packet of the stream. -/
theorem Follows.gap (h : Follows packets d)
    (hgap : (d.packet bytes).1.tracker.gapCount ≠ d.tracker.gapCount ∨
      ∃ e, .tracker e ∈ (d.packet bytes).2) :
    isSequenced bytes ∧ since packets = 0 ∧
      ∃ l ∈ lastLogin packets, ∃ e,
        d.tracker.expectedNext l.session = some e ∧ e.toNat < l.start := by
  have hsequenced : isSequenced bytes := by
    by_contra hno
    rw [Bool.not_eq_true] at hno
    have hquiet : (d.packet bytes).1.tracker = d.tracker ∧
        ∀ e, .tracker e ∉ (d.packet bytes).2 := by
      cases hlogin : login? bytes with
      | some l => exact (d.packet_login hlogin).2.2
      | none => exact (d.packet_other hlogin hno).2.2
    rcases hgap with hcount | ⟨e, he⟩
    · exact hcount (congrArg SequenceTracker.gapCount hquiet.1)
    · exact hquiet.2 e he
  obtain ⟨-, -, htracker, hevents⟩ := d.packet_sequenced hsequenced
  rw [htracker] at hgap
  simp only [hevents] at hgap
  obtain ⟨e, he, hlt⟩ := SequenceTracker.gap_of_report hgap
  change d.tracker.expectedNext d.session = some e at he
  change e < d.nextSequence at hlt
  -- the tracker is never behind once a packet of the login has come
  have hsince : since packets = 0 := by
    rcases h.frontier with hzero | ⟨e', he', hle⟩
    · exact hzero
    · rw [he] at he'
      cases he'
      exact absurd hle (UInt64.not_le.mpr hlt)
  refine ⟨hsequenced, hsince, ?_⟩
  cases hlast : lastLogin packets with
  | none =>
      rw [h.silent hlast hsince] at he
      cases he
  | some l =>
      refine ⟨l, rfl, e, ?_, ?_⟩
      · rw [← h.session l hlast]
        exact he
      · have hnext := h.next
        rw [start, hlast, hsince] at hnext
        change _ = l.start at hnext
        rw [← hnext]
        exact UInt64.lt_iff_toNat_lt.mp hlt

theorem follows_run (callback eventCallback gapCallback requester : Bool)
    (hfits : ∀ pre, pre <+: packets → start pre + since pre < 2 ^ 64) :
    Follows packets (run packet
      (fresh callback eventCallback gapCallback requester) packets).1 := by
  induction packets using List.reverseRecOn with
  | nil => exact follows_fresh _ _ _ _
  | append_singleton packets bytes ih =>
      rw [run_snoc]
      apply Follows.packet
      · apply ih
        intro pre hpre
        exact hfits pre (hpre.trans (List.prefix_append _ _))
      · exact hfits _ (List.prefix_refl _)

/-- The next sequence number is the start number of the last login and the
number of sequenced packets since. The calls are those of the packets, one
after the other. A packet delivers one message at most, the decode of its own
payload, and there is no gap but at the first sequenced packet after a login
with a start number beyond what was expected of its session. -/
theorem sequence_follows_login
    (callback eventCallback gapCallback requester : Bool)
    (packets chunks : List (List UInt8))
    (hsmall : ∀ bytes ∈ packets, bytes.length < 2 ^ 16)
    (hchunks : chunks.flatten = (packets.map frameBytes).flatten)
    (hfits : ∀ pre, pre <+: packets → start pre + since pre < 2 ^ 64) :
    (run feed (fresh callback eventCallback gapCallback requester)
        chunks).1.nextSequence.toNat = start packets + since packets ∧
    (run feed (fresh callback eventCallback gapCallback requester) chunks).2 =
      (run packet (fresh callback eventCallback gapCallback requester)
        packets).2 ∧
    ∀ pre bytes, pre ++ [bytes] <+: packets → ∀ d,
      d = (run packet (fresh callback eventCallback gapCallback requester)
        pre).1 →
      (messagesOf (d.packet bytes).2 = [] ∨
        ∃ c payload, bytes = c :: payload ∧
          (SoupBinPacketType.ofChar c = .sequencedData ∨
            SoupBinPacketType.ofChar c = .unsequencedData) ∧
          AtMostDecode payload (messagesOf (d.packet bytes).2)) ∧
      ((d.packet bytes).1.tracker.gapCount ≠ d.tracker.gapCount ∨
          (∃ e, .tracker e ∈ (d.packet bytes).2) →
        isSequenced bytes ∧ since pre = 0 ∧
          ∃ l ∈ lastLogin pre, ∃ e,
            d.tracker.expectedNext l.session = some e ∧
              e.toNat < l.start) := by
  have hd : Decomposition chunks.flatten packets [] := by
    refine ⟨?_, ?_, .empty⟩
    · exact hsmall
    · rw [hchunks, List.append_nil]
  have hrun := run_feed (d := fresh callback eventCallback gapCallback
    requester) .empty hd
  rw [hrun]
  refine ⟨?_, rfl, ?_⟩
  · exact (follows_run callback eventCallback gapCallback requester hfits).next
  · rintro pre bytes hpre d rfl
    refine ⟨messagesOf_packet _ bytes, ?_⟩
    apply Follows.gap
    apply follows_run
    intro first hfirst
    exact hfits first (hfirst.trans ((List.prefix_append pre [bytes]).trans hpre))

/-- A login at 205, a heartbeat, two sequenced packets and one without a
sequence number. -/
def session205 : List (List UInt8) :=
  [65 :: (List.replicate 27 32 ++ [50, 48, 53]), [72], [83, 90], [85, 90],
    [83]]

theorem session205_fits :
    ∀ pre, pre <+: session205 → start pre + since pre < 2 ^ 64 := by
  intro pre hpre
  have hall : ∀ pre ∈ session205.inits, start pre + since pre < 2 ^ 64 := by
    decide
  exact hall pre ((List.mem_inits pre session205).mpr hpre)

theorem sequence_follows_login_session205 :
    (run feed (fresh true true true true)
      [(session205.map frameBytes).flatten]).1.nextSequence.toNat = 207 :=
  (sequence_follows_login true true true true session205 _ (by decide)
    List.flatten_singleton session205_fits).1

end SoupBinDecoder

end Itch.Transport
