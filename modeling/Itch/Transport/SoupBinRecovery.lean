import Itch.Transport.ConsumerErrors

/-!
# A consumer that goes on after an exception

§1 is a caller of `feed` who catches what is thrown and goes on with the next
chunk. `feed` drops the bytes it has consumed at its end only, so what was
pending is handled again; §2 reads the caller as a queue that is emptied at
the end, and §3 says when every packet is still processed once.
-/

namespace Itch.Transport

open ByteCursor Transducer Interruption

/-! ## §1  The caller -/

/-- `calls` are the calls made so far, `consumed` counts the bytes that were
dropped. -/
structure Consumer where
  decoder : SoupBinDecoder
  calls : List SoupBinEvent := []
  consumed : ℕ := 0

/-- What is left of `feed` to a caller who catches what it throws. -/
def Consumer.resume (s : Consumer) (bytes : List UInt8)
    (outcome : SoupBinDecoder × List Visit × Option Thrown) :
    Consumer × List Visit :=
  ({ decoder := outcome.1
     calls := s.calls ++ outcome.2.1.flatMap Visit.deliveries
     consumed := s.consumed +
       ((s.decoder.buffer ++ bytes).length - outcome.1.buffer.length) },
    outcome.2.1)

def Consumer.feed (callbacks : SoupBinCallbacks) (s : Consumer)
    (bytes : List UInt8) : Consumer × List Visit :=
  s.resume bytes
    (s.decoder.feedThrowing callbacks s.calls s.consumed bytes)

/-- Where the visit delivered something. -/
def Visit.delivered (v : Visit) : List ℕ :=
  v.deliveries.map fun _ => v.position

/-- No packet is delivered twice, and the sequence number advances once for
every sequenced one. -/
structure ProcessedOnce (packets : List (ℕ × List UInt8))
    (visits : List Visit) : Prop where
  delivered : (visits.flatMap Visit.delivered).Nodup
  advanced : ∀ p ∈ packets, isSequenced p.2 →
    visits.countP (fun v =>
      v.position = p.1 ∧ v.nextAfter = v.nextBefore + 1) = 1

namespace SoupBinDecoder

/-! ## §2  The queue -/

variable {callbacks : SoupBinCallbacks} {d : SoupBinDecoder}
  {before : List SoupBinEvent} {bytes tail : List UInt8}
  {frames : List (List UInt8)} {position : ℕ} {p : ℕ × List UInt8}

/-! ### Packets and their places -/

def endOf (p : ℕ × List UInt8) : ℕ := p.1 + (2 + p.2.length)

def size (frames : List (List UInt8)) : ℕ :=
  (frames.map frameBytes).flatten.length

theorem size_cons (bytes : List UInt8) (frames : List (List UInt8)) :
    size (bytes :: frames) = 2 + bytes.length + size frames := by
  unfold size
  rw [List.map_cons, List.flatten_cons, List.length_append, length_frameBytes]

theorem size_append (frames frames' : List (List UInt8)) :
    size (frames ++ frames') = size frames + size frames' := by
  unfold size
  rw [List.map_append, List.flatten_append, List.length_append]

theorem packetsAt_cons (position : ℕ) (bytes : List UInt8)
    (frames : List (List UInt8)) : packetsAt position (bytes :: frames) =
      packetsAt position [bytes] ++
        packetsAt (position + (2 + bytes.length)) frames := by
  cases bytes with
  | nil => rfl
  | cons c payload => rfl

theorem packetsAt_append (position : ℕ) (frames frames' : List (List UInt8)) :
    packetsAt position (frames ++ frames') =
      packetsAt position frames ++
        packetsAt (position + size frames) frames' := by
  induction frames generalizing position with
  | nil => rfl
  | cons bytes frames ih =>
      rw [List.cons_append, packetsAt_cons, ih,
        packetsAt_cons position bytes frames, size_cons, List.append_assoc,
        Nat.add_assoc position]

theorem mem_packetsAt_singleton (hp : p ∈ packetsAt position [bytes]) :
    p = (position, bytes) := by
  cases bytes with
  | nil => cases hp
  | cons c payload => exact List.mem_singleton.mp hp

/-- A packet lies among the frames. -/
theorem bounds_of_mem_packetsAt (hp : p ∈ packetsAt position frames) :
    position ≤ p.1 ∧ endOf p ≤ position + size frames := by
  induction frames generalizing position with
  | nil => cases hp
  | cons bytes frames ih =>
      rw [packetsAt_cons] at hp
      rw [size_cons]
      rcases List.mem_append.mp hp with hp | hp
      · rw [mem_packetsAt_singleton hp]
        unfold endOf
        dsimp only
        omega
      · obtain ⟨hstart, hend⟩ := ih hp
        omega

theorem pairwise_packetsAt (position : ℕ) (frames : List (List UInt8)) :
    (packetsAt position frames).Pairwise fun p q => p.1 < q.1 := by
  induction frames generalizing position with
  | nil => exact .nil
  | cons bytes frames ih =>
      cases bytes with
      | nil => exact ih _
      | cons c payload =>
          refine .cons ?_ (ih _)
          intro q hq
          have hstart := (bounds_of_mem_packetsAt hq).1
          show position < q.1
          omega

theorem nodup_packetsAt (position : ℕ) (frames : List (List UInt8)) :
    ((packetsAt position frames).map Prod.fst).Nodup := by
  rw [List.Nodup, List.pairwise_map]
  exact (pairwise_packetsAt position frames).imp Nat.ne_of_lt

/-- A packet that was not complete ends behind what there was of it. -/
theorem lt_endOf {rest : List UInt8} (htail : IsTail tail)
    (hd : Decomposition (tail ++ rest) frames bytes)
    (hp : p ∈ packetsAt position frames) :
    position + tail.length < endOf p := by
  cases frames with
  | nil => cases hp
  | cons first frames =>
      have hfirst : tail.length < 2 + first.length := by
        by_contra hle
        rw [not_lt, ← length_frameBytes] at hle
        have hbytes := hd.bytes
        rw [List.map_cons, List.flatten_cons, List.append_assoc] at hbytes
        have hprefix : frameBytes first <+: tail := by
          apply List.prefix_of_prefix_length_le _ (List.prefix_append tail rest)
            hle
          rw [hbytes]
          exact List.prefix_append _ _
        obtain ⟨last, hlast⟩ := hprefix
        exact htail.ne_frame (hd.small first List.mem_cons_self) last hlast.symm
      rw [packetsAt_cons] at hp
      rcases List.mem_append.mp hp with hp | hp
      · rw [mem_packetsAt_singleton hp]
        unfold endOf
        dsimp only
        omega
      · have hstart := (bounds_of_mem_packetsAt hp).1
        unfold endOf
        omega

/-! ### The buffer -/

section SetBuffer

variable (callbacks : SoupBinCallbacks) (d : SoupBinDecoder)
  (before : List SoupBinEvent) (buffer payload : List UInt8)

theorem decodeApplicationMessageThrowing_setBuffer :
    (d.setBuffer buffer).decodeApplicationMessageThrowing callbacks before
        payload =
      ((d.decodeApplicationMessageThrowing callbacks before payload
          ).1.setBuffer buffer,
        (d.decodeApplicationMessageThrowing callbacks before payload).2) := by
  unfold decodeApplicationMessageThrowing
  split
  · rfl
  · rfl

theorem notifyThrowing_setBuffer (type : SoupBinPacketType) :
    (d.setBuffer buffer).notifyThrowing callbacks before type payload =
      ((d.notifyThrowing callbacks before type payload).1.setBuffer buffer,
        (d.notifyThrowing callbacks before type payload).2) := by
  unfold notifyThrowing setBuffer
  dsimp only
  split
  · rfl
  · rfl

theorem processPacketThrowing_setBuffer (type : SoupBinPacketType) :
    (d.setBuffer buffer).processPacketThrowing callbacks before type payload =
      ((d.processPacketThrowing callbacks before type payload).1.setBuffer
          buffer,
        (d.processPacketThrowing callbacks before type payload).2) := by
  cases type with
  | loginAccepted =>
      have h (session : Str) (nextSequence : UInt64) :=
        notifyThrowing_setBuffer callbacks { d with session, nextSequence }
          before buffer payload .loginAccepted
      unfold processPacketThrowing
      dsimp only
      split
      · exact h _ _
      · exact h _ _
  | sequencedData =>
      have h := decodeApplicationMessageThrowing_setBuffer callbacks { d with
        tracker := (d.tracker.observe d.session d.nextSequence 1).tracker
        nextSequence := d.nextSequence + 1 } before buffer payload
      exact congrArg (fun r => (r.1, _ ++ r.2.1, r.2.2)) h
  | unsequencedData =>
      exact decodeApplicationMessageThrowing_setBuffer callbacks d before
        buffer payload
  | _ => exact notifyThrowing_setBuffer callbacks d before buffer payload _

theorem handle_setBuffer (p : ℕ × List UInt8) :
    handle callbacks (d.setBuffer buffer, before) p =
      (((handle callbacks (d, before) p).1.1.setBuffer buffer,
        (handle callbacks (d, before) p).1.2),
        (handle callbacks (d, before) p).2) := by
  rcases p with ⟨position, _ | ⟨c, payload⟩⟩
  · rfl
  · unfold handle packetThrowing
    dsimp only
    rw [processPacketThrowing_setBuffer]
    rfl

end SetBuffer

/-- Packets are handled without a look at the buffer. -/
theorem attempt_setBuffer (buffer : List UInt8)
    (packets : List (ℕ × List UInt8)) :
    attempt (handle callbacks) (d.setBuffer buffer, before) packets =
      (((attempt (handle callbacks) (d, before) packets).1.1.setBuffer buffer,
        (attempt (handle callbacks) (d, before) packets).1.2),
        (attempt (handle callbacks) (d, before) packets).2) := by
  induction packets generalizing d before with
  | nil => rfl
  | cons p packets ih =>
      have hhandle := handle_setBuffer callbacks d before buffer p
      cases hx : (handle callbacks (d, before) p).2.2 with
      | some x =>
          have hx' : (handle callbacks (d.setBuffer buffer, before) p).2.2 =
              some x := by
            rw [hhandle]
            exact hx
          rw [attempt_cons_some hx, attempt_cons_some hx', hhandle]
      | none =>
          have hx' : (handle callbacks (d.setBuffer buffer, before) p).2.2 =
              none := by
            rw [hhandle]
            exact hx
          rw [attempt_cons_none hx, attempt_cons_none hx', hhandle]
          dsimp only
          rw [ih]

/-- The state keeps the calls. -/
theorem history_attempt (callbacks : SoupBinCallbacks)
    (s : SoupBinDecoder × List SoupBinEvent)
    (packets : List (ℕ × List UInt8)) :
    (attempt (handle callbacks) s packets).1.2 =
      s.2 ++ (attempt (handle callbacks) s packets).2.1.flatMap
        Visit.deliveries := by
  induction packets generalizing s with
  | nil => exact (List.append_nil _).symm
  | cons p packets ih =>
      cases hx : (handle callbacks s p).2.2 with
      | some x =>
          rw [attempt_cons_some hx, List.flatMap_singleton]
          rfl
      | none =>
          rw [attempt_cons_none hx, List.flatMap_cons, ← List.append_assoc, ih]
          rfl

/-! ### The caller and the queue -/

/-- The queue holds the packets that are complete in the buffer. -/
structure Queued (s : Consumer)
    (q : Queue (SoupBinDecoder × List SoupBinEvent) (ℕ × List UInt8))
    (frames : List (List UInt8)) (tail : List UInt8) : Prop where
  decoder : s.decoder = q.state.1.setBuffer s.decoder.buffer
  calls : s.calls = q.state.2
  buffer : Decomposition s.decoder.buffer frames tail
  pending : q.pending = packetsAt s.consumed frames

theorem length_decomposition {data : List UInt8} (hd : Decomposition data frames tail) :
    data.length = size frames + tail.length := by
  rw [hd.bytes, List.length_append, size]

/-- A chunk is a batch of packets: those that are complete with it. -/
theorem Queued.feed {s : Consumer}
    {q : Queue (SoupBinDecoder × List SoupBinEvent) (ℕ × List UInt8)}
    {chunk tail' : List UInt8} {new : List (List UInt8)}
    (callbacks : SoupBinCallbacks) (h : Queued s q frames tail)
    (hnew : Decomposition (tail ++ chunk) new tail') :
    (s.feed callbacks chunk).2 = (q.feed (handle callbacks)
        (packetsAt (s.consumed + size frames) new)).2 ∧
      ∃ frames', Queued (s.feed callbacks chunk).1 (q.feed (handle callbacks)
          (packetsAt (s.consumed + size frames) new)).1 frames' tail' ∧
        (s.feed callbacks chunk).1.consumed + size frames' =
          s.consumed + size frames + size new := by
  have hd := h.buffer.append hnew
  have hitems : packetsAt s.consumed (frames ++ new) =
      q.pending ++ packetsAt (s.consumed + size frames) new := by
    rw [packetsAt_append, h.pending]
  have hfeed : s.decoder.feedThrowing callbacks s.calls s.consumed chunk =
      settle tail' (((attempt (handle callbacks) q.state
          (q.pending ++ packetsAt (s.consumed + size frames) new)
            ).1.1.setBuffer (s.decoder.buffer ++ chunk),
        (attempt (handle callbacks) q.state
          (q.pending ++ packetsAt (s.consumed + size frames) new)).1.2),
        (attempt (handle callbacks) q.state
          (q.pending ++ packetsAt (s.consumed + size frames) new)).2) := by
    rw [feedThrowing_decomposition hd, hitems, h.calls, ← attempt_setBuffer,
      h.decoder]
    rfl
  have hhistory := history_attempt callbacks q.state
    (q.pending ++ packetsAt (s.consumed + size frames) new)
  have hlen := length_decomposition hd
  rw [size_append] at hlen
  unfold Consumer.feed Consumer.resume
  rw [hfeed]
  unfold Queue.feed
  generalize attempt (handle callbacks) q.state
    (q.pending ++ packetsAt (s.consumed + size frames) new) =
      outcome at hhistory ⊢
  rcases outcome with ⟨⟨d', calls⟩, visits, _ | x⟩
  · refine ⟨rfl, [], ⟨rfl, ?_, ?_, rfl⟩, ?_⟩
    · exact (congrArg (· ++ _) h.calls).trans hhistory.symm
    · exact ⟨by simp, rfl, hd.rest⟩
    · show s.consumed + ((s.decoder.buffer ++ chunk).length - tail'.length) +
        size [] = _
      rw [hlen, Nat.add_sub_cancel]
      exact (Nat.add_assoc _ _ _).symm
  · have hnone : s.consumed + ((s.decoder.buffer ++ chunk).length -
        (s.decoder.buffer ++ chunk).length) = s.consumed := by
      rw [Nat.sub_self, Nat.add_zero]
    refine ⟨rfl, frames ++ new, ⟨rfl, ?_, hd, ?_⟩, ?_⟩
    · exact (congrArg (· ++ _) h.calls).trans hhistory.symm
    · rw [← hitems]
      exact congrArg (packetsAt · _) hnone.symm
    · rw [size_append, ← Nat.add_assoc]
      exact congrArg (· + size frames + size new) hnone

/-- The batches of the chunks `chunks` behind a tail that begins at `position`:
all packets are in them, and those that are complete before the last chunk are
not in the last one. -/
structure Batched (position : ℕ) (tail : List UInt8)
    (chunks : List (List UInt8)) (batches : List (List (ℕ × List UInt8)))
    (packets : List (ℕ × List UInt8)) : Prop where
  flatten : batches.flatten = packets
  empty : chunks = [] ↔ batches = []
  last : ∀ p ∈ packets, p ∈ batches.dropLast.flatten ↔
    endOf p ≤ position + tail.length + chunks.dropLast.flatten.length

/-- The packets that are complete with the first chunk are the first batch. -/
theorem Batched.cons {chunk tail' rest : List UInt8}
    {chunks new others : List (List UInt8)}
    {batches : List (List (ℕ × List UInt8))} (htail : IsTail tail)
    (hnew : Decomposition (tail ++ chunk) new tail')
    (hwhole : Decomposition (tail ++ (chunk ++ chunks.flatten))
      (new ++ others) rest)
    (h : Batched (position + size new) tail' chunks batches
      (packetsAt (position + size new) others)) :
    Batched position tail (chunk :: chunks)
      (packetsAt position new :: batches)
      (packetsAt position (new ++ others)) := by
  have hlen := length_decomposition hnew
  rw [List.length_append] at hlen
  refine ⟨?_, ?_, ?_⟩
  · rw [List.flatten_cons, h.flatten, packetsAt_append]
  · exact iff_of_false (List.cons_ne_nil _ _) (List.cons_ne_nil _ _)
  · intro p hp
    by_cases hnil : chunks = []
    · rw [h.empty.mp hnil, hnil]
      have hlt := lt_endOf htail hwhole hp
      refine iff_of_false List.not_mem_nil ?_
      exact not_le.mpr hlt
    · have hne : batches ≠ [] := fun hb => hnil (h.empty.mpr hb)
      rw [List.dropLast_cons_of_ne_nil hne,
        List.dropLast_cons_of_ne_nil hnil, List.flatten_cons,
        List.flatten_cons, List.length_append, List.mem_append]
      have hrest := h.last p
      rw [packetsAt_append, List.mem_append] at hp
      constructor
      · rintro (hfirst | hlater)
        · have hend := (bounds_of_mem_packetsAt hfirst).2
          omega
        · have hmem : p ∈ packetsAt (position + size new) others := by
            rw [← h.flatten]
            exact (List.dropLast_prefix batches).flatten.subset hlater
          have hend := (hrest hmem).mp hlater
          omega
      · intro hend
        rcases hp with hfirst | hlater
        · exact .inl hfirst
        · right
          apply (hrest hlater).mpr
          omega

/-- The visits are those of the queue, fed with the batches. -/
theorem Queued.run {s : Consumer}
    {q : Queue (SoupBinDecoder × List SoupBinEvent) (ℕ × List UInt8)}
    (callbacks : SoupBinCallbacks) (h : Queued s q frames tail)
    {chunks all : List (List UInt8)} {rest : List UInt8}
    (hd : Decomposition (tail ++ chunks.flatten) all rest) :
    ∃ batches, Batched (s.consumed + size frames) tail chunks batches
        (packetsAt (s.consumed + size frames) all) ∧
      (Transducer.run (Consumer.feed callbacks) s chunks).2 =
        (Transducer.run (Queue.feed (handle callbacks)) q batches).2 := by
  induction chunks generalizing s q frames tail all with
  | nil =>
      have hempty : Decomposition (tail ++ [].flatten) [] tail :=
        ⟨by simp, List.append_nil _, h.buffer.rest⟩
      obtain ⟨rfl, -⟩ := hempty.unique hd
      refine ⟨[], ⟨rfl, iff_of_true rfl rfl, ?_⟩, rfl⟩
      intro p hp
      cases hp
  | cons chunk chunks ih =>
      obtain ⟨new, tail', hnew⟩ := Decomposition.exists (tail ++ chunk)
      obtain ⟨others, last, hothers⟩ :=
        Decomposition.exists (tail' ++ chunks.flatten)
      have hparts := hnew.append hothers
      rw [List.append_assoc] at hparts
      rw [List.flatten_cons] at hd
      obtain ⟨rfl, rfl⟩ := hd.unique hparts
      obtain ⟨hvisits, frames', hqueued, hplace⟩ := h.feed callbacks hnew
      obtain ⟨batches, hbatched, hrun⟩ := ih hqueued hothers
      rw [hplace] at hbatched
      refine ⟨_, hbatched.cons h.buffer.rest hnew hd, ?_⟩
      rw [run_cons, run_cons, hvisits, hrun]

/-! ## §3  Every packet once -/

def delivers (callback eventCallback : Bool) (p : ℕ × List UInt8) : Bool :=
  (delivery? callback eventCallback p.2).isSome

def counts (p : ℕ × List UInt8) : Bool := isSequenced p.2

def packetOf (v : Visit) : ℕ × List UInt8 := (v.position, v.packet)

/-- The callbacks that are installed. -/
def Installed (callback eventCallback : Bool)
    (s : SoupBinDecoder × List SoupBinEvent) : Prop :=
  s.1.callback = callback ∧ s.1.eventCallback = eventCallback

/-- A visit to one of the packets, which made the call there is to make. -/
structure Visited (callback eventCallback : Bool)
    (packets : List (ℕ × List UInt8)) (v : Visit) : Prop where
  mem : packetOf v ∈ packets
  deliveries : v.deliveries =
    (delivery? callback eventCallback v.packet).toList
  advanced : isSequenced v.packet → v.nextAfter = v.nextBefore + 1

section Stream

variable {callback eventCallback : Bool} {packets : List (ℕ × List UInt8)}

theorem handles_packets (callbacks : SoupBinCallbacks)
    (callback eventCallback : Bool)
    (hsmall : ∀ p ∈ packets, p.2.length < 2 ^ 16) :
    Handles (handle callbacks) packetOf (delivers callback eventCallback)
      (Installed callback eventCallback) (· ∈ packets) where
  noted s p := rfl
  keeps := by
    rintro ⟨d, before⟩ p ⟨hcallback, heventCallback⟩ hp
    have h := delivers_packet callbacks d before (hsmall p hp)
    exact ⟨h.callback.trans hcallback, h.eventCallback.trans heventCallback⟩
  delivered := by
    rintro ⟨d, before⟩ p ⟨hcallback, heventCallback⟩ hp hthrows
    have h := delivers_packet callbacks d before (hsmall p hp)
    have hthrown : (handle callbacks (d, before) p).2.2 = _ := h.thrown
    rw [hthrown, hcallback, heventCallback] at hthrows
    unfold delivers
    cases hdelivery : delivery? callback eventCallback p.2 with
    | none =>
        rw [hdelivery] at hthrows
        exact absurd rfl hthrows
    | some e => rfl

theorem visited_handle (hsmall : ∀ p ∈ packets, p.2.length < 2 ^ 16)
    {s : SoupBinDecoder × List SoupBinEvent}
    (hs : Installed callback eventCallback s) (hp : p ∈ packets) :
    Visited callback eventCallback packets (handle callbacks s p).2.1 := by
  rcases s with ⟨d, before⟩
  obtain ⟨hcallback, heventCallback⟩ := hs
  refine ⟨hp, ?_, nextSequence_packetThrowing (hsmall p hp)⟩
  have h := (delivers_packet callbacks d before (hsmall p hp)).events
  rw [hcallback, heventCallback] at h
  exact h

theorem delivered_visits {visits : List Visit}
    (hvisits : ∀ v ∈ visits, Visited callback eventCallback packets v) :
    visits.flatMap Visit.delivered =
      ((visits.map packetOf).filter
        (delivers callback eventCallback)).map Prod.fst := by
  induction visits with
  | nil => rfl
  | cons v visits ih =>
      obtain ⟨hv, hvisits⟩ := List.forall_mem_cons.mp hvisits
      rw [List.flatMap_cons, ih hvisits, List.map_cons, Visit.delivered,
        hv.deliveries]
      cases hdelivery : delivery? callback eventCallback v.packet with
      | none =>
          have hno : ¬delivers callback eventCallback (packetOf v) := by
            rw [delivers, packetOf, hdelivery]
            exact Bool.false_ne_true
          rw [List.filter_cons_of_neg hno]
          rfl
      | some e =>
          have hyes : delivers callback eventCallback (packetOf v) := by
            rw [delivers, packetOf, hdelivery]
            rfl
          rw [List.filter_cons_of_pos hyes]
          rfl

theorem processedOnce_iff {visits : List Visit}
    (hnodup : (packets.map Prod.fst).Nodup)
    (hvisits : ∀ v ∈ visits, Visited callback eventCallback packets v) :
    ProcessedOnce packets visits ↔
      Once (delivers callback eventCallback) counts packets
        (visits.map packetOf) := by
  have hplace {p q : ℕ × List UInt8} (hp : p ∈ packets) (hq : q ∈ packets)
      (h : p.1 = q.1) : p = q :=
    List.inj_on_of_nodup_map hnodup hp hq h
  have hmem : ∀ p ∈ (visits.map packetOf).filter
      (delivers callback eventCallback), p ∈ packets := by
    intro p hp
    obtain ⟨v, hv, rfl⟩ := List.mem_map.mp (List.mem_filter.mp hp).1
    exact (hvisits v hv).mem
  have hdelivered : (visits.flatMap Visit.delivered).Nodup ↔
      ((visits.map packetOf).filter
        (delivers callback eventCallback)).Nodup := by
    rw [delivered_visits hvisits]
    constructor
    · exact List.Nodup.of_map _
    · intro h
      exact h.map_on fun p hp q hq => hplace (hmem p hp) (hmem q hq)
  have hadvanced : ∀ p ∈ packets, isSequenced p.2 →
      visits.countP (fun v =>
        v.position = p.1 ∧ v.nextAfter = v.nextBefore + 1) =
      (visits.map packetOf).count p := by
    intro p hp hsequenced
    rw [List.count, List.countP_map]
    apply List.countP_congr
    intro v hv
    rw [decide_eq_true_eq, Function.comp_apply, beq_iff_eq]
    constructor
    · rintro ⟨hposition, -⟩
      exact hplace (hvisits v hv).mem hp hposition
    · rintro rfl
      exact ⟨rfl, (hvisits v hv).advanced hsequenced⟩
  constructor
  · intro h
    refine ⟨hdelivered.mp h.delivered, ?_⟩
    intro p hp hsequenced
    exact (hadvanced p hp hsequenced).symm.trans (h.advanced p hp hsequenced)
  · intro h
    refine ⟨hdelivered.mpr h.delivered, ?_⟩
    intro p hp hsequenced
    rw [hadvanced p hp hsequenced]
    exact h.counted p hp hsequenced

end Stream

/-- A consumer with a fresh decoder. -/
def freshConsumer (callback eventCallback gapCallback requester : Bool) :
    Consumer :=
  { decoder := fresh callback eventCallback gapCallback requester }

/-- The first packet at which something escapes, if there is one, is complete
only with the last chunk, and no sequenced packet follows it. -/
def EscapesLast (callbacks : SoupBinCallbacks)
    (callback eventCallback : Bool) (chunks : List (List UInt8))
    (packets : List (ℕ × List UInt8)) : Prop :=
  ∀ pre p post, packets = pre ++ p :: post →
    (perform callbacks.escapes []
      (deliveriesOf callback eventCallback pre)).2 = none →
    (delivery? callback eventCallback p.2).bind
      (callbacks.escapes (deliveriesOf callback eventCallback pre)) ≠ none →
    chunks.dropLast.flatten.length < endOf p ∧
      ∀ q ∈ post, isSequenced q.2 = false

/-- What escapes from a packet after others from which nothing did. -/
theorem thrown_after (callbacks : SoupBinCallbacks) (d : SoupBinDecoder)
    {pre : List (ℕ × List UInt8)} (hpre : ∀ q ∈ pre, q.2.length < 2 ^ 16)
    (hp : p.2.length < 2 ^ 16)
    (hnone : (perform callbacks.escapes []
      (deliveriesOf d.callback d.eventCallback pre)).2 = none) :
    (handle callbacks (attempt (handle callbacks) (d, []) pre).1 p).2.2 =
      (delivery? d.callback d.eventCallback p.2).bind
        (callbacks.escapes (deliveriesOf d.callback d.eventCallback pre)) := by
  have hperforms := performs_attempt callbacks d [] hpre
  have hhistory := hperforms.history
  rw [perform_eq_of_none hnone, List.nil_append] at hhistory
  have h := (delivers_packet callbacks
    (attempt (handle callbacks) (d, []) pre).1.1
    (attempt (handle callbacks) (d, []) pre).1.2 hp).thrown
  rw [hperforms.callback, hperforms.eventCallback, hhistory] at h
  rw [← h, ← hhistory]
  rfl

/-- Every packet is processed once exactly when what escapes first does so
only after everything else was done. -/
theorem processedOnce_iff_escapesLast (callbacks : SoupBinCallbacks)
    (callback eventCallback gapCallback requester : Bool)
    (chunks frames : List (List UInt8)) (tail : List UInt8)
    (hd : Decomposition chunks.flatten frames tail) :
    ProcessedOnce (packetsAt 0 frames)
        (run (Consumer.feed callbacks) (freshConsumer callback eventCallback
          gapCallback requester) chunks).2 ↔
      EscapesLast callbacks callback eventCallback chunks
        (packetsAt 0 frames) := by
  have hsmall : ∀ p ∈ packetsAt 0 frames, p.2.length < 2 ^ 16 := by
    intro p hp
    exact hd.small p.2 (mem_of_mem_packetsAt hp)
  have hqueued : Queued
      (freshConsumer callback eventCallback gapCallback requester)
      ⟨(fresh callback eventCallback gapCallback requester, []), []⟩ [] [] :=
    ⟨rfl, rfl, ⟨by simp, rfl, .empty⟩, rfl⟩
  obtain ⟨batches, hbatched, hrun⟩ := hqueued.run callbacks hd
  change Batched 0 [] chunks batches (packetsAt 0 frames) at hbatched
  have hhandles := handles_packets callbacks callback eventCallback hsmall
  have hinstalled : Installed callback eventCallback
      (fresh callback eventCallback gapCallback requester, []) := ⟨rfl, rfl⟩
  have hgood : ∀ p ∈ batches.flatten, p ∈ packetsAt 0 frames := by
    rw [hbatched.flatten]
    exact fun p hp => hp
  have hnodup := nodup_packetsAt 0 frames
  have hvisits := noted_run hhandles (visited_handle hsmall)
    (q := ⟨(fresh callback eventCallback gapCallback requester, []), []⟩)
    hinstalled (fun p hp => absurd hp List.not_mem_nil) hgood
  have hdistinct : batches.flatten.Nodup := by
    rw [hbatched.flatten]
    exact hnodup.of_map _
  have honce : Once (delivers callback eventCallback) counts batches.flatten
    _ ↔ _ := once_iff hhandles hinstalled hgood hdistinct
  rw [hbatched.flatten] at honce
  rw [hrun, processedOnce_iff hnodup hvisits]
  refine honce.trans ?_
  unfold EscapesLast
  apply forall_congr'
  intro pre
  apply forall_congr'
  intro p
  apply forall_congr'
  intro post
  apply forall_congr'
  intro heq
  rw [heq] at hsmall
  obtain ⟨hpre, hrest⟩ := List.forall_mem_append.mp hsmall
  have hp := hrest p List.mem_cons_self
  have hquiet := (performs_attempt callbacks
    (fresh callback eventCallback gapCallback requester) [] hpre).thrown
  have hlast := hbatched.last p (by rw [heq]; simp)
  rw [hquiet]
  apply forall_congr'
  intro hnone
  rw [thrown_after callbacks
    (fresh callback eventCallback gapCallback requester) hpre hp hnone]
  apply forall_congr'
  intro _
  rw [hlast, not_le, List.length_nil, Nat.add_zero, Nat.zero_add]
  rfl

/-- An event callback that throws when it is called for this time. -/
def eventFailsAt (n : ℕ) : SoupBinCallbacks :=
  { event := fun before _ _ =>
      if before.length = n then some (.runtimeError "busy") else none }

/-- Two heartbeats, and an exception at the second. -/
theorem processedOnce_secondHeartbeat :
    ProcessedOnce [(0, [72]), (3, [72])]
      (run (Consumer.feed (eventFailsAt 1)) (freshConsumer true true true true)
        [[0, 1, 72], [0, 1, 72]]).2 := by
  refine (processedOnce_iff_escapesLast (eventFailsAt 1) true true true true
    [[0, 1, 72], [0, 1, 72]] [[72], [72]] [] ⟨by decide, rfl, .empty⟩).mpr ?_
  intro pre p post heq hnone hthrows
  rcases pre with _ | ⟨first, _ | ⟨second, pre⟩⟩
  · cases heq
    exact absurd rfl hthrows
  · cases heq
    exact ⟨by decide, fun q hq => absurd hq List.not_mem_nil⟩
  · cases pre with
    | nil => cases heq
    | cons third pre => cases heq

/-- A heartbeat and an exception, and then a chunk with nothing in it: the
heartbeat is delivered again. -/
theorem not_processedOnce_heartbeat :
    ¬ProcessedOnce [(0, [72])]
      (run (Consumer.feed (eventFailsAt 0)) (freshConsumer true true true true)
        [[0, 1, 72], []]).2 := by
  have hfeed (s : Consumer) (bytes : List UInt8)
      (hbytes : s.decoder.buffer ++ bytes = [0, 1, 72]) :
      s.feed (eventFailsAt 0) bytes = s.resume bytes
        (settle [] (attempt (handle (eventFailsAt 0))
          (s.decoder.setBuffer (s.decoder.buffer ++ bytes), s.calls)
          (packetsAt s.consumed [[72]]))) := by
    have hd : Decomposition (s.decoder.buffer ++ bytes) [[72]] [] := by
      rw [hbytes]
      exact ⟨by decide, rfl, .empty⟩
    rw [Consumer.feed, feedThrowing_decomposition hd]
  intro h
  have hdelivered := h.delivered
  have hvisits : (run (Consumer.feed (eventFailsAt 0))
      (freshConsumer true true true true) [[0, 1, 72], []]).2.flatMap
        Visit.delivered = [0, 0] := by
    rw [run_cons, run_cons, hfeed _ [0, 1, 72] rfl, hfeed _ [] rfl]
    rfl
  rw [hvisits] at hdelivered
  revert hdelivered
  decide

end SoupBinDecoder

end Itch.Transport
