import Itch.Transport.Delivery
import Itch.Transport.PcapNgContainment

/-!
# What a capture delivers

§1 takes the reading of a capture apart: which UDP datagrams are in it depends
on its bytes alone, the port filter selects some of them, and the decoder gets
these. §2 follows messages through a capture file of the classic format, down
from the file to the callback, and §3 through one in the pcapng format.
-/

namespace Itch.Transport

open ByteCursor Transducer

/-! ## §1  The traffic of a capture -/

/-- A UDP datagram in a captured frame. -/
structure Traffic where
  port : UInt16
  payload : List UInt8

/-- The payloads that a port filter lets through. -/
def admitted (portFilter : Option UInt16) (traffic : List Traffic) :
    List (List UInt8) :=
  (traffic.filter fun x => admits portFilter x.port).map Traffic.payload

/-- The call of the decoder. -/
def PcapEvent.mold? : PcapEvent → Option MoldUdp64Event
  | .mold event => some event
  | _ => none

theorem admitted_append (portFilter : Option UInt16)
    (traffic traffic' : List Traffic) :
    admitted portFilter (traffic ++ traffic') =
      admitted portFilter traffic ++ admitted portFilter traffic' := by
  rw [admitted, List.filter_append, List.map_append]
  rfl

/-- The datagram in a UDP header and what follows it, if there is one. -/
theorem exists_traffic_udp (udp : List UInt8) :
    ∃ x : Option Traffic, ∀ portFilter, readUdp portFilter udp =
      some ((x.filter fun x => admits portFilter x.port).map
        Traffic.payload) := by
  by_cases hlen : udp.length < UDP_HEADER_SIZE
  · refine ⟨none, ?_⟩
    intro portFilter
    rw [readUdp, if_pos hlen]
    rfl
  · have hle : 8 ≤ udp.length := not_lt.mp hlen
    obtain ⟨dstPort, hport⟩ : ∃ port, readNet UInt16 udp 2 = some port :=
      exists_readNet UInt16 ((show 2 + 2 ≤ 8 by decide).trans hle)
    obtain ⟨payload, hpayload⟩ := exists_readUdp none udp
    have hread := hpayload
    rw [readUdp, if_neg hlen, hport] at hread
    dsimp only [Option.bind_eq_bind, Option.bind_some] at hread
    rw [if_neg (by simp)] at hread
    -- without a filter there always is a payload
    obtain ⟨bytes, rfl⟩ : ∃ bytes, payload = some bytes := by
      obtain ⟨_, -, h⟩ := Option.bind_eq_some_iff.mp hread
      obtain ⟨bytes, -, h⟩ := Option.bind_eq_some_iff.mp h
      exact ⟨bytes, (Option.some.inj h).symm⟩
    refine ⟨some ⟨dstPort, bytes⟩, ?_⟩
    intro portFilter
    rw [readUdp, if_neg hlen, hport]
    dsimp only [Option.bind_eq_bind, Option.bind_some]
    simp only [dropped_iff]
    cases hadmits : admits portFilter dstPort with
    | false =>
        rw [if_pos rfl, Option.filter_some, hadmits]
        rfl
    | true =>
        rw [if_neg (by simp), hread, Option.filter_some, hadmits]
        rfl

theorem exists_traffic_network (network : List UInt8) :
    ∃ x : Option Traffic, ∀ portFilter,
      extractUdpPayload portFilter network =
        some ((x.filter fun x => admits portFilter x.port).map
          Traffic.payload) := by
  unfold extractUdpPayload
  split
  · exact ⟨none, fun _ => rfl⟩
  · rename_i hne
    obtain ⟨ip, hip, hsize⟩ := exists_readIpHeader hne
    rw [hip]
    dsimp only [Option.bind_eq_bind, Option.bind_some]
    split
    · exact ⟨none, fun _ => rfl⟩
    · split
      · exact ⟨none, fun _ => rfl⟩
      · rw [subspan_eq (hsize _ _ rfl)]
        exact exists_traffic_udp _

namespace PcapReader

/-- The datagram that a frame carries is told by the frame alone. -/
theorem exists_traffic_frame (frame : List UInt8) (linkType : UInt32) :
    ∃ traffic : List Traffic, ∀ r : PcapReader, r.handled frame linkType =
      run deliver r (admitted r.portFilter traffic) := by
  obtain ⟨network, hnetwork⟩ := exists_stripLinkLayer frame linkType
  have hhandled {r : PcapReader} {result : PcapReader × List PcapEvent}
      (h : r.handleFrame frame linkType = some result) :
      r.handled frame linkType = result :=
    Option.some.inj ((r.handleFrame_eq frame linkType).symm.trans h)
  cases network with
  | none =>
      refine ⟨[], ?_⟩
      intro r
      apply hhandled
      rw [handleFrame, hnetwork]
      rfl
  | some network =>
      obtain ⟨x, hx⟩ := exists_traffic_network network
      refine ⟨x.toList, ?_⟩
      intro r
      apply hhandled
      have hfilter := hx r.portFilter
      cases x with
      | none => exact handleFrame_dropped hnetwork hfilter
      | some x =>
          rw [admitted, Option.toList_some, List.filter_singleton]
          cases hadmits : admits r.portFilter x.port with
          | false =>
              rw [Option.filter_some, hadmits] at hfilter
              exact handleFrame_dropped hnetwork hfilter
          | true =>
              rw [Option.filter_some, hadmits] at hfilter
              rw [handleFrame_payload hnetwork hfilter, cond_true,
                List.map_singleton, run_cons, run_nil, List.append_nil]

theorem exists_traffic_calls (calls : List FrameCall) :
    ∃ traffic : List Traffic, ∀ r : PcapReader,
      run handleCall r calls =
        run deliver r (admitted r.portFilter traffic) := by
  induction calls with
  | nil => exact ⟨[], fun r => rfl⟩
  | cons call calls ih =>
      obtain ⟨first, hfirst⟩ := exists_traffic_frame call.frame call.linkType
      obtain ⟨rest, hrest⟩ := ih
      refine ⟨first ++ rest, ?_⟩
      intro r
      rw [run_cons, handleCall, hfirst, hrest, portFilter_run,
        admitted_append, run_append]

/-- The frames of a classic file are told by its bytes alone. -/
theorem exists_calls_records (capture : List UInt8) (swapped : Bool)
    (linkType : UInt32) (offset : ℕ) :
    ∃ calls, ∀ r, readRecords capture swapped linkType r offset =
      some (run handleCall r calls) := by
  induction hn : capture.length - offset using Nat.strong_induction_on
    generalizing offset with
  | _ n ih =>
    by_cases hlen : offset + RECORD_HEADER_SIZE ≤ capture.length
    · have hsize : offset + 16 ≤ capture.length := hlen
      obtain ⟨inclLen, hincl⟩ : ∃ inclLen, readLeOrBe UInt32 capture
          (offset + INCL_LEN_OFFSET) swapped = some inclLen :=
        exists_readLeOrBe UInt32 swapped
          ((show offset + 8 + 4 ≤ offset + 16 by omega).trans hsize)
      by_cases hdata : offset + RECORD_HEADER_SIZE + inclLen.toNat >
          capture.length
      · refine ⟨[], ?_⟩
        intro r
        rw [readRecords, if_pos hlen, hincl]
        dsimp only [Option.bind_eq_bind, Option.bind_some]
        rw [if_pos hdata]
        rfl
      · obtain ⟨calls, hcalls⟩ := ih (capture.length -
            (offset + RECORD_HEADER_SIZE + inclLen.toNat))
          (by simp only [RECORD_HEADER_SIZE]; omega)
          (offset + RECORD_HEADER_SIZE + inclLen.toNat) rfl
        refine ⟨⟨offset + RECORD_HEADER_SIZE,
          (capture.drop (offset + RECORD_HEADER_SIZE)).take inclLen.toNat,
          linkType⟩ :: calls, ?_⟩
        intro r
        rw [readRecords, if_pos hlen, hincl]
        dsimp only [Option.bind_eq_bind, Option.bind_some]
        rw [if_neg hdata, subspanOf_eq (not_lt.mp hdata), Option.bind_some,
          handleFrame_eq, Option.bind_some, hcalls]
        rfl
    · refine ⟨[], ?_⟩
      intro r
      rw [readRecords, if_neg hlen]
      rfl

/-- The decoder gets these payloads, one after the other. -/
structure Receives (r : PcapReader) (payloads : List (List UInt8))
    (result : PcapReader × List PcapEvent) : Prop where
  datagrams : result.2.filterMap PcapEvent.datagram? = payloads
  calls : result.2.filterMap PcapEvent.mold? =
    (run MoldUdp64Decoder.step r.mold payloads).2
  mold : result.1.mold = (run MoldUdp64Decoder.step r.mold payloads).1
  udpDatagrams : result.1.udpDatagrams =
    r.udpDatagrams + .ofNat payloads.length
  portFilter : result.1.portFilter = r.portFilter

theorem calls_deliver (r : PcapReader) (payload : List UInt8) :
    (r.deliver payload).2.filterMap PcapEvent.mold? =
      (r.mold.step payload).2 := by
  show (PcapEvent.datagram payload :: _).filterMap _ = _
  rw [List.filterMap_cons_none rfl, List.filterMap_map]
  exact List.filterMap_some

theorem receives_run (r : PcapReader) (payloads : List (List UInt8)) :
    r.Receives payloads (run deliver r payloads) := by
  refine ⟨datagrams_run r payloads, ?_, ?_, ?_, portFilter_run r payloads⟩
  · induction payloads generalizing r with
    | nil => rfl
    | cons payload payloads ih =>
        rw [run_cons, List.filterMap_append, ih, calls_deliver, run_cons]
        rfl
  · induction payloads generalizing r with
    | nil => rfl
    | cons payload payloads ih =>
        rw [run_cons, ih]
        rfl
  · induction payloads generalizing r with
    | nil => simp
    | cons payload payloads ih =>
        rw [run_cons, ih]
        simp [deliver, UInt64.add_assoc, UInt64.add_comm]

theorem exists_calls_classic (capture : List UInt8) (swapped : Bool) :
    ∃ calls recognised, (recognised = false → calls = []) ∧
      ∀ r, readClassicPcap r capture swapped =
        some ((run handleCall r calls).1, (run handleCall r calls).2,
          recognised) := by
  by_cases hlen : capture.length < GLOBAL_HEADER_SIZE
  · refine ⟨[], false, fun _ => rfl, ?_⟩
    intro r
    rw [readClassicPcap, if_pos hlen]
    rfl
  · have hsize : 20 + 4 ≤ capture.length := not_lt.mp hlen
    obtain ⟨linkType, hlink⟩ : ∃ linkType, readLeOrBe UInt32 capture
        NETWORK_OFFSET swapped = some linkType :=
      exists_readLeOrBe UInt32 swapped hsize
    obtain ⟨calls, hcalls⟩ := exists_calls_records capture swapped linkType
      GLOBAL_HEADER_SIZE
    refine ⟨calls, true, by simp, ?_⟩
    intro r
    rw [readClassicPcap, if_neg hlen, hlink]
    dsimp only [Option.bind_eq_bind, Option.bind_some]
    rw [hcalls]
    rfl

/-- Whatever the format, the frames are told by the bytes alone. -/
theorem exists_calls (capture : List UInt8) :
    ∃ calls recognised, (recognised = false → calls = []) ∧
      ∀ r : PcapReader, r.read capture =
        some ((run handleCall r calls).1, (run handleCall r calls).2,
          recognised) := by
  by_cases hlen : capture.length < 4
  · refine ⟨[], false, fun _ => rfl, ?_⟩
    intro r
    rw [read, if_pos hlen]
    rfl
  · have hsize : 0 + 4 ≤ capture.length := not_lt.mp hlen
    obtain ⟨magic, hmagic⟩ :
        ∃ magic, readLeOrBe UInt32 capture 0 false = some magic :=
      exists_readLeOrBe UInt32 false hsize
    unfold read
    simp only [if_neg hlen, hmagic, Option.bind_eq_bind, Option.bind_some]
    split
    · exact exists_calls_classic capture false
    · split
      · exact exists_calls_classic capture true
      · split
        · refine ⟨frameCalls capture (visitedFrom capture {} 0), true,
            by simp, ?_⟩
          intro r
          rw [readPcapng, readBlocks_eq_run]
          rfl
        · exact ⟨[], false, fun _ => rfl, fun r => rfl⟩

/-- **A port filter hides datagrams and does nothing else.** Any bytes hold
some UDP datagrams, whoever reads them, and none if they are not taken for a
capture. A reader hands its decoder the payloads of those that its filter
admits, in order, and does nothing that the decoder would not do with these. -/
theorem read_extracts (capture : List UInt8) :
    ∃ traffic recognised, (recognised = false → traffic = []) ∧
      ∀ r : PcapReader, ∃ result,
        r.read capture = some (result.1, result.2, recognised) ∧
          r.Receives (admitted r.portFilter traffic) result := by
  obtain ⟨calls, recognised, hnone, hread⟩ := exists_calls capture
  cases recognised with
  | false =>
      refine ⟨[], false, fun _ => rfl, ?_⟩
      intro r
      refine ⟨run deliver r [], ?_, receives_run r []⟩
      rw [hread, hnone rfl]
      rfl
  | true =>
      obtain ⟨traffic, htraffic⟩ := exists_traffic_calls calls
      refine ⟨traffic, true, by simp, ?_⟩
      intro r
      refine ⟨run deliver r (admitted r.portFilter traffic), ?_,
        receives_run r _⟩
      rw [hread, htraffic]

/-! ## §2  Messages in a classic file -/

end PcapReader

/-- A captured packet: one that carries a datagram of the feed, or one for
another port. -/
structure Captured where
  packet : Packet
  datagram : Option Datagram

/-- The datagram is what it says, and the filter tells it from the others. -/
def Captured.Carries (portFilter : Option UInt16) (c : Captured) : Prop :=
  match c.datagram with
  | some x => x.Sendable ∧ c.packet.udp.payload = x.bytes ∧
      admits portFilter c.packet.udp.dstPort = true
  | none => admits portFilter c.packet.udp.dstPort = false

namespace PcapReader

/-- The messages that the callback is called with. -/
def messagesOf (events : List PcapEvent) : List Message :=
  (events.filterMap PcapEvent.mold?).filterMap MoldUdp64Event.message?

variable {r : PcapReader}

/-- A packet of the feed is handed to the decoder, any other is dropped. -/
theorem handled_captured {c : Captured} (h : c.Carries r.portFilter) :
    r.handled c.packet.frame c.packet.link.linkType.toUInt32 =
      run deliver r (c.datagram.toList.map Datagram.bytes) := by
  have hlink := stripLinkLayer_frame c.packet.link c.packet.ip
    (c.packet.ip.bytes ++ (c.packet.udp.bytes ++ c.packet.padding))
  have hextract := extractUdpPayload_bytes r.portFilter c.packet.ip
    c.packet.udp c.packet.padding
  apply Option.some.inj
  rw [← handleFrame_eq]
  unfold Captured.Carries at h
  cases hx : c.datagram with
  | none =>
      rw [hx] at h
      rw [h] at hextract
      exact handleFrame_dropped hlink hextract
  | some x =>
      rw [hx] at h
      obtain ⟨-, hpayload, hadmits⟩ := h
      rw [hadmits, hpayload] at hextract
      rw [Option.toList_some, List.map_singleton, run_cons, run_nil,
        List.append_nil]
      exact handleFrame_payload hlink hextract

theorem run_captured {cs : List Captured} {linkType : UInt32}
    (hcs : ∀ c ∈ cs, c.packet.link.linkType.toUInt32 = linkType ∧
      c.Carries r.portFilter) :
    run (fun r frame => r.handled frame linkType) r
        (cs.map fun c => c.packet.frame) =
      run deliver r ((cs.filterMap Captured.datagram).map
        Datagram.bytes) := by
  induction cs generalizing r with
  | nil => rfl
  | cons c cs ih =>
      obtain ⟨⟨rfl, hc⟩, hcs⟩ := List.forall_mem_cons.mp hcs
      have hsplit : (c :: cs).filterMap Captured.datagram =
          c.datagram.toList ++ cs.filterMap Captured.datagram := by
        cases h : c.datagram <;> simp [h]
      rw [List.map_cons, run_cons, handled_captured hc, hsplit,
        List.map_append, run_append, ih]
      rwa [portFilter_run]

/-- The decoder gets these datagrams, and the callback their messages. -/
structure Delivers (r : PcapReader) (xs : List Datagram)
    (result : PcapReader × List PcapEvent) : Prop where
  receives : r.Receives (xs.map Datagram.bytes) result
  messages : messagesOf result.2 = xs.flatMap Datagram.messages
  messagesDecoded : result.1.mold.messagesDecoded =
    r.mold.messagesDecoded + .ofNat (xs.flatMap Datagram.messages).length

theorem delivers_run (hcallback : r.mold.callback = true)
    {xs : List Datagram} (hxs : ∀ x ∈ xs, x.Sendable) :
    r.Delivers xs (run deliver r (xs.map Datagram.bytes)) := by
  have hreceives := receives_run r (xs.map Datagram.bytes)
  obtain ⟨-, hmessages, -⟩ :=
    MoldUdp64Decoder.run_bytes_events r.mold hcallback hxs
  refine ⟨hreceives, ?_, ?_⟩
  · rw [messagesOf, hreceives.calls, hmessages]
  · rw [hreceives.mold, MoldUdp64Decoder.run_bytes_decoder r.mold hxs]

theorem sendable_datagrams {cs : List Captured}
    (hcs : ∀ c ∈ cs, c.Carries r.portFilter) :
    ∀ x ∈ cs.filterMap Captured.datagram, x.Sendable := by
  intro x hx
  obtain ⟨c, hc, hdatagram⟩ := List.mem_filterMap.mp hx
  have hcarries := hcs c hc
  unfold Captured.Carries at hcarries
  rw [hdatagram] at hcarries
  exact hcarries.1

/-- The datagrams of the packets that are whole in the first `n` bytes behind
the header of the file. -/
def arrived (n : ℕ) (f : ClassicFile) (cs : List Captured) : List Datagram :=
  (cs.take (wholeRecords n f.records).length).filterMap Captured.datagram

theorem read_classic_take (hcallback : r.mold.callback = true)
    {f : ClassicFile} {cs : List Captured}
    (hframes : f.records.map Record.frame = cs.map fun c => c.packet.frame)
    (hcs : ∀ c ∈ cs, c.packet.link.linkType.toUInt32 = f.network ∧
      c.Carries r.portFilter) (n : ℕ) :
    ∃ result, r.read (f.header ++ f.body.take n) =
        some (result.1, result.2, true) ∧
      r.Delivers (arrived n f cs) result := by
  have hwhole : (wholeRecords n f.records).map Record.frame =
      (cs.take (wholeRecords n f.records).length).map
        fun c => c.packet.frame := by
    rw [List.map_take, ← hframes, ← List.map_take]
    congr 1
    exact List.prefix_iff_eq_take.mp (isPrefix_wholeRecords n f.records)
  have htake : ∀ c ∈ cs.take (wholeRecords n f.records).length,
      c.packet.link.linkType.toUInt32 = f.network ∧
        c.Carries r.portFilter :=
    fun c hc => hcs c (List.mem_of_mem_take hc)
  have hread := (replays_take r f n).result
  rw [hwhole, run_captured htake] at hread
  exact ⟨_, hread, delivers_run hcallback
    (sendable_datagrams fun c hc => (htake c hc).2)⟩

/-- The whole file. -/
theorem read_classic (hcallback : r.mold.callback = true)
    {f : ClassicFile} {cs : List Captured}
    (hframes : f.records.map Record.frame = cs.map fun c => c.packet.frame)
    (hcs : ∀ c ∈ cs, c.packet.link.linkType.toUInt32 = f.network ∧
      c.Carries r.portFilter) :
    ∃ result, r.read f.bytes = some (result.1, result.2, true) ∧
      r.Delivers (cs.filterMap Captured.datagram) result := by
  have hlength : f.records.length = cs.length := by
    simpa using congrArg List.length hframes
  have hall := read_classic_take hcallback hframes hcs f.body.length
  rw [arrived, wholeRecords_all, List.take_length, hlength,
    List.take_length] at hall
  exact hall

/-- **A capture delivers what was sent.** Messages are put into datagrams,
these into UDP, IP and link layer, with UDP packets between them for ports that
the filter refuses, and the frames into a classic file. Reading the file
delivers the messages, in order, and counts them; reading one that is cut off
behind its header delivers those of the packets that are whole. -/
theorem classic_delivers (r : PcapReader) (hcallback : r.mold.callback = true)
    (f : ClassicFile) (cs : List Captured)
    (hframes : f.records.map Record.frame = cs.map fun c => c.packet.frame)
    (hcs : ∀ c ∈ cs, c.packet.link.linkType.toUInt32 = f.network ∧
      c.Carries r.portFilter) :
    (∃ result, r.read f.bytes = some (result.1, result.2, true) ∧
      r.Delivers (cs.filterMap Captured.datagram) result) ∧
    ∀ n, ∃ result,
      r.read (f.header ++ f.body.take n) =
          some (result.1, result.2, true) ∧
        r.Delivers (arrived n f cs) result :=
  ⟨read_classic hcallback hframes hcs,
    read_classic_take hcallback hframes hcs⟩

/-- A raw IPv4 packet for a port. The reader goes by the length of the UDP
header, not by the total length in the IP header. -/
def rawPacket (port : UInt16) (payload : List UInt8)
    (small : UDP_HEADER_SIZE + payload.length < 2 ^ 16) : Packet :=
  { onePacket with udp := { dstPort := port, payload, small } }

def openingDatagram : Datagram :=
  .data default 1 [.systemEvent { timestamp := 7, eventCode := 79 }]

/-- A datagram of the feed at port 26400, behind a name lookup. -/
def lookupAndFeed : List Captured :=
  [{ packet := rawPacket 53 [0] (by decide), datagram := none },
    { packet := rawPacket 26400 openingDatagram.bytes (by decide)
      datagram := some openingDatagram }]

def lookupAndFeedFile : ClassicFile where
  order := .big
  unit := .nano
  network := 101
  records :=
    [{ frame := (rawPacket 53 [0] (by decide)).frame, small := by decide },
      { frame := (rawPacket 26400 openingDatagram.bytes (by decide)).frame
        small := by decide }]

theorem classic_delivers_lookupAndFeed :
    ∃ result, ({ portFilter := some 26400 } : PcapReader).read
        lookupAndFeedFile.bytes = some (result.1, result.2, true) ∧
      ({ portFilter := some 26400 } : PcapReader).Delivers
        [openingDatagram] result := by
  refine (classic_delivers { portFilter := some 26400 } rfl lookupAndFeedFile
    lookupAndFeed rfl ?_).1
  intro c hc
  simp only [lookupAndFeed, List.mem_cons, List.not_mem_nil, or_false] at hc
  rcases hc with rfl | rfl
  · exact ⟨rfl, rfl⟩
  · refine ⟨rfl, ⟨by decide, fun m hm => ?_⟩, rfl, rfl⟩
    obtain rfl := List.mem_singleton.mp hm
    exact ⟨rfl, by decide⟩

/-! ## §3  Messages in a pcapng file -/

/-- The same for a little-endian file in the pcapng format. -/
theorem pcapng_delivers (r : PcapReader) (hcallback : r.mold.callback = true)
    (hfilter : r.portFilter = none) {file : List FileSection}
    (hne : file ≠ []) (hfile : ∀ x ∈ file, x.WellFormed ∧ x.order = .little)
    {xs : List Datagram} (hxs : ∀ x ∈ xs, x.Sendable)
    (hpayloads : filePayloads file = xs.map Datagram.bytes) :
    ∃ result, r.read (fileBytes file) = some (result.1, result.2, true) ∧
      r.Delivers xs result := by
  have hread := decodes_littleEndian hfilter hne hfile
  rw [Decodes, hpayloads] at hread
  exact ⟨_, hread, delivers_run hcallback hxs⟩

end PcapReader

end Itch.Transport
