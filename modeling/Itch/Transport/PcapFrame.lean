import Itch.Transport.Pcap

/-!
# Captured frames

§1 puts UDP datagrams into frames. §2 takes the link layer off them again and
§3 the rest, so that `handle_frame` hands over the payload it was given, or
drops it where a port filter asks for another port.
-/

namespace Itch.Transport

open ByteCursor Transducer

/-! ## §1  Frames -/

structure UdpDatagram where
  srcPort : UInt16 := 0
  dstPort : UInt16 := 0
  checksum : UInt16 := 0
  payload : List UInt8
  small : UDP_HEADER_SIZE + payload.length < 2 ^ 16

def UdpDatagram.bytes (x : UdpDatagram) : List UInt8 :=
  put x.srcPort ++ (put x.dstPort ++
    (put (UInt16.ofNat (UDP_HEADER_SIZE + x.payload.length)) ++
      (put x.checksum ++ x.payload)))

/-- An IPv4 header with `ihl` words that announces UDP. -/
structure Ipv4Header where
  ihl : ℕ
  bytes : List UInt8
  five_le : 5 ≤ ihl
  le_fifteen : ihl ≤ 15
  length_eq : bytes.length = ihl * 4
  first : bytes[0]? = some (UInt8.ofNat (0x40 + ihl))
  protocol : bytes[9]? = some IP_PROTOCOL_UDP

/-- An IPv6 header that announces UDP. -/
structure Ipv6Header where
  bytes : List UInt8
  length_eq : bytes.length = IPV6_HEADER_SIZE
  first : ∃ b : UInt8, bytes[0]? = some b ∧ b >>> 4 = 6
  protocol : bytes[6]? = some IP_PROTOCOL_UDP

inductive IpHeader
  | v4 (header : Ipv4Header)
  | v6 (header : Ipv6Header)

namespace IpHeader

def bytes : IpHeader → List UInt8
  | .v4 header => header.bytes
  | .v6 header => header.bytes

def ethertype : IpHeader → UInt16
  | .v4 _ => ETHERTYPE_IPV4
  | .v6 _ => ETHERTYPE_IPV6

end IpHeader

/-- The ethertype behind some VLAN tags, and what follows it. -/
def taggedBytes (tags : List (Chars 2)) (ethertype : UInt16)
    (network : List UInt8) : List UInt8 :=
  match tags with
  | [] => put ethertype ++ network
  | tag :: tags =>
      put ETHERTYPE_VLAN ++ (tag.val ++ taggedBytes tags ethertype network)

inductive LinkHeader
  | ethernet (addresses : Chars 12) (tags : List (Chars 2))
  | linuxSll (header : Chars 16)
  | raw

namespace LinkHeader

def linkType : LinkHeader → UInt16
  | .ethernet .. => 1
  | .linuxSll _ => 113
  | .raw => 101

def frame (link : LinkHeader) (ethertype : UInt16) (network : List UInt8) :
    List UInt8 :=
  match link with
  | .ethernet addresses tags =>
      addresses.val ++ taggedBytes tags ethertype network
  | .linuxSll header => header.val ++ network
  | .raw => network

end LinkHeader

/-- A captured frame that carries a UDP datagram; a link layer may have padded
it. -/
structure Packet where
  link : LinkHeader
  ip : IpHeader
  udp : UdpDatagram
  padding : List UInt8 := []

def Packet.frame (p : Packet) : List UInt8 :=
  p.link.frame p.ip.ethertype (p.ip.bytes ++ (p.udp.bytes ++ p.padding))

/-! ## §2  The link layer -/

theorem readNet_put {α : Type} [Word α] (pre rest : List UInt8) (a : α) :
    readNet α (pre ++ (put a ++ rest)) pre.length = some a :=
  Holds.readAt ⟨pre, rest, rfl, rfl⟩ (inverts_unpack a)

theorem readNet_byte {data : List UInt8} {offset : ℕ} {b : UInt8}
    (h : data[offset]? = some b) : readNet UInt8 data offset = some b := by
  obtain ⟨hlt, rfl⟩ := List.getElem?_eq_some_iff.mp h
  have hput := readNet_put (data.take offset) (data.drop (offset + 1))
    data[offset]
  rw [← putChar_eq_put, putChar, List.singleton_append, List.cons_getElem_drop_succ,
    List.take_append_drop, List.length_take, min_eq_left hlt.le] at hput
  exact hput

/-- The first ethertype of a frame. -/
def outerType (tags : List (Chars 2)) (ethertype : UInt16) : UInt16 :=
  match tags with
  | [] => ethertype
  | _ :: _ => ETHERTYPE_VLAN

theorem readNet_taggedBytes (pre : List UInt8) (tags : List (Chars 2))
    (ethertype : UInt16) (network : List UInt8) :
    readNet UInt16 (pre ++ taggedBytes tags ethertype network) pre.length =
      some (outerType tags ethertype) := by
  cases tags with
  | nil => exact readNet_put pre network ethertype
  | cons tag tags => exact readNet_put pre _ ETHERTYPE_VLAN

theorem length_taggedBytes (tags : List (Chars 2)) (ethertype : UInt16)
    (network : List UInt8) :
    (taggedBytes tags ethertype network).length =
      2 + 4 * tags.length + network.length := by
  induction tags with
  | nil => simp [taggedBytes, length_put, Word.width]
  | cons tag tags ih =>
      rw [taggedBytes, List.length_append, List.length_append, length_put,
        tag.property, ih, List.length_cons]
      simp only [Word.width]
      omega

theorem drop_taggedBytes (tags : List (Chars 2)) (ethertype : UInt16)
    (network : List UInt8) :
    (taggedBytes tags ethertype network).drop (2 + 4 * tags.length) =
      network := by
  induction tags with
  | nil => exact List.drop_left' (length_put ethertype)
  | cons tag tags ih =>
      have hsplit : 2 + 4 * (tag :: tags).length =
          Word.width UInt16 + (2 + (2 + 4 * tags.length)) := by
        rw [List.length_cons]
        simp only [Word.width]
        omega
      rw [taggedBytes, hsplit, ← List.drop_drop,
        List.drop_left' (length_put ETHERTYPE_VLAN), ← List.drop_drop,
        List.drop_left' tag.property, ih]

/-- The loop goes over the tags, to the ethertype behind them. -/
theorem skipVlanTags_taggedBytes (pre : List UInt8) (tags : List (Chars 2))
    {ethertype : UInt16} (h : ethertype ≠ ETHERTYPE_VLAN)
    (network : List UInt8) :
    skipVlanTags (pre ++ taggedBytes tags ethertype network)
        (pre.length + 2) (outerType tags ethertype) =
      some (pre.length + 2 + 4 * tags.length, ethertype) := by
  induction tags generalizing pre with
  | nil =>
      rw [skipVlanTags, if_neg fun hc => h hc.1]
      rfl
  | cons tag tags ih =>
      have hlen := length_taggedBytes (tag :: tags) ethertype network
      have hpre : (pre ++ (put ETHERTYPE_VLAN ++ tag.val)).length =
          pre.length + 2 + 2 := by
        rw [List.length_append, List.length_append, length_put, tag.property]
        rfl
      have hframe : pre ++ taggedBytes (tag :: tags) ethertype network =
          (pre ++ (put ETHERTYPE_VLAN ++ tag.val)) ++
            taggedBytes tags ethertype network := by
        simp only [taggedBytes, List.append_assoc]
      have hnext := readNet_taggedBytes
        (pre ++ (put ETHERTYPE_VLAN ++ tag.val)) tags ethertype network
      have hrest := ih (pre ++ (put ETHERTYPE_VLAN ++ tag.val))
      rw [← hframe, hpre] at hnext hrest
      rw [skipVlanTags, if_pos, hnext]
      · show skipVlanTags _ (pre.length + 2 + VLAN_TAG_SIZE) _ = _
        rw [show pre.length + 2 + VLAN_TAG_SIZE = pre.length + 2 + 2 + 2
          from rfl, hrest, List.length_cons]
        congr 2
        omega
      · refine ⟨rfl, ?_⟩
        rw [List.length_append, hlen, List.length_cons]
        simp only [VLAN_TAG_SIZE]
        omega

theorem IpHeader.ethertype_cases (ip : IpHeader) :
    ip.ethertype ≠ ETHERTYPE_VLAN ∧
      (ip.ethertype = ETHERTYPE_IPV4 ∨ ip.ethertype = ETHERTYPE_IPV6) := by
  cases ip with
  | v4 header =>
      exact ⟨(by decide : ETHERTYPE_IPV4 ≠ ETHERTYPE_VLAN), .inl rfl⟩
  | v6 header =>
      exact ⟨(by decide : ETHERTYPE_IPV6 ≠ ETHERTYPE_VLAN), .inr rfl⟩

theorem stripLinkLayer_ethernet (addresses : Chars 12)
    (tags : List (Chars 2)) (ip : IpHeader) (network : List UInt8) :
    stripLinkLayer
      (addresses.val ++ taggedBytes tags ip.ethertype network)
      LINKTYPE_ETHERNET = some (some network) := by
  obtain ⟨hvlan, hip⟩ := ip.ethertype_cases
  have hlen := length_taggedBytes tags ip.ethertype network
  have hread := readNet_taggedBytes addresses.val tags ip.ethertype network
  have hskip := skipVlanTags_taggedBytes addresses.val tags hvlan network
  rw [addresses.property] at hread hskip
  have hsize : ¬(addresses.val ++
      taggedBytes tags ip.ethertype network).length < ETHERNET_HEADER_SIZE := by
    rw [List.length_append, hlen, addresses.property]
    simp only [ETHERNET_HEADER_SIZE]
    omega
  have hheader : 12 + 2 + 4 * tags.length ≤
      (addresses.val ++ taggedBytes tags ip.ethertype network).length := by
    rw [List.length_append, hlen, addresses.property]
    omega
  have hrest : (addresses.val ++
      taggedBytes tags ip.ethertype network).drop
        (12 + 2 + 4 * tags.length) = network := by
    rw [Nat.add_assoc, ← List.drop_drop, List.drop_left' addresses.property,
      drop_taggedBytes]
  have hknown : ¬(ip.ethertype ≠ ETHERTYPE_IPV4 ∧
      ip.ethertype ≠ ETHERTYPE_IPV6) := by
    rintro ⟨h4, h6⟩
    exact hip.elim h4 h6
  rw [stripLinkLayer, if_pos rfl, if_neg hsize, hread]
  dsimp only [Option.bind_eq_bind, Option.bind_some]
  rw [show ETHERNET_HEADER_SIZE = 12 + 2 from rfl, hskip]
  dsimp only [Option.bind_some]
  rw [if_neg hknown, subspan_eq hheader, hrest]
  rfl

/-- The frame without its link layer. -/
theorem stripLinkLayer_frame (link : LinkHeader) (ip : IpHeader)
    (network : List UInt8) :
    stripLinkLayer (link.frame ip.ethertype network)
      link.linkType.toUInt32 = some (some network) := by
  cases link with
  | ethernet addresses tags =>
      exact stripLinkLayer_ethernet addresses tags ip network
  | linuxSll header =>
      show stripLinkLayer (header.val ++ network) LINKTYPE_LINUX_SLL = _
      have hlen : (header.val ++ network).length =
          LINUX_SLL_HEADER_SIZE + network.length := by
        rw [List.length_append, header.property]
        rfl
      rw [stripLinkLayer, if_neg (by decide), if_pos rfl,
        if_neg (by omega), subspan_eq (by omega),
        show LINUX_SLL_HEADER_SIZE = 16 from rfl,
        List.drop_left' header.property]
      rfl
  | raw => rfl

/-! ## §3  The network layer -/

theorem readIpHeader_bytes (ip : IpHeader) (rest : List UInt8) :
    readIpHeader (ip.bytes ++ rest) =
      some (some (ip.bytes.length, IP_PROTOCOL_UDP)) := by
  have hbyte {bs : List UInt8} {i : ℕ} {b : UInt8} (h : bs[i]? = some b) :
      readNet UInt8 (bs ++ rest) i = some b := by
    obtain ⟨hlt, -⟩ := List.getElem?_eq_some_iff.mp h
    exact readNet_byte (by rw [List.getElem?_append_left hlt, h])
  cases ip with
  | v4 header =>
      have hihl : ∀ ihl : Fin 16, UInt8.ofNat (0x40 + ihl) >>> 4 = 4 ∧
          (UInt8.ofNat (0x40 + ihl) &&& 0x0F).toNat = ihl := by
        decide
      obtain ⟨hversion, hlen⟩ :=
        hihl ⟨header.ihl, Nat.lt_succ_of_le header.le_fifteen⟩
      have hfive := header.five_le
      have hsize := header.length_eq
      have hguard : ¬((header.bytes ++ rest).length < header.ihl * 4 ∨
          header.ihl * 4 < 20) := by
        rw [List.length_append]
        omega
      show readIpHeader (header.bytes ++ rest) =
        some (some (header.bytes.length, _))
      rw [readIpHeader, hbyte header.first]
      dsimp only [Option.bind_eq_bind, Option.bind_some]
      rw [if_pos hversion, hlen, if_neg hguard, hbyte header.protocol, hsize]
      rfl
  | v6 header =>
      obtain ⟨b, hb, hversion⟩ := header.first
      have hsize := header.length_eq
      have hguard : ¬(header.bytes ++ rest).length < IPV6_HEADER_SIZE := by
        rw [List.length_append]
        omega
      show readIpHeader (header.bytes ++ rest) =
        some (some (header.bytes.length, _))
      rw [readIpHeader, hbyte hb]
      dsimp only [Option.bind_eq_bind, Option.bind_some]
      rw [if_neg (by rw [hversion]; decide), if_pos hversion, if_neg hguard,
        hbyte header.protocol, hsize]
      rfl

theorem UdpDatagram.length_bytes (x : UdpDatagram) :
    x.bytes.length = UDP_HEADER_SIZE + x.payload.length := by
  simp only [bytes, List.length_append, length_put, Word.width,
    UDP_HEADER_SIZE]
  omega

/-- No port filter is set, or it is the destination port. -/
def admits (portFilter : Option UInt16) (dstPort : UInt16) : Bool :=
  portFilter.all (· == dstPort)

theorem dropped_iff (portFilter : Option UInt16) (dstPort : UInt16) :
    (portFilter.isSome ∧ some dstPort ≠ portFilter) ↔
      admits portFilter dstPort = false := by
  cases portFilter with
  | none => simp [admits]
  | some port =>
      have hne : some dstPort ≠ some port ↔ port ≠ dstPort := by
        rw [Ne, Option.some.injEq, ne_comm]
      rw [hne, admits, Option.all_some, beq_eq_false_iff_ne]
      exact and_iff_right rfl

/-- The payload is what the length field of the datagram says, the padding
behind it is cut off. -/
theorem readUdp_bytes (portFilter : Option UInt16) (x : UdpDatagram)
    (padding : List UInt8) : readUdp portFilter (x.bytes ++ padding) =
      some (if admits portFilter x.dstPort then some x.payload else none) := by
  have hlen : (x.bytes ++ padding).length =
      UDP_HEADER_SIZE + x.payload.length + padding.length := by
    rw [List.length_append, x.length_bytes]
  have hport : readNet UInt16 (x.bytes ++ padding) 2 = some x.dstPort := by
    have h := readNet_put (put x.srcPort)
      (put (UInt16.ofNat (UDP_HEADER_SIZE + x.payload.length)) ++
        (put x.checksum ++ x.payload) ++ padding) x.dstPort
    simp only [UdpDatagram.bytes, List.append_assoc, length_put] at h ⊢
    exact h
  have hlength : readNet UInt16 (x.bytes ++ padding) 4 =
      some (UInt16.ofNat (UDP_HEADER_SIZE + x.payload.length)) := by
    have h := readNet_put (put x.srcPort ++ put x.dstPort)
      (put x.checksum ++ x.payload ++ padding)
      (UInt16.ofNat (UDP_HEADER_SIZE + x.payload.length))
    simp only [UdpDatagram.bytes, List.append_assoc, List.length_append,
      length_put] at h ⊢
    exact h
  have hpayload : (x.bytes ++ padding).drop UDP_HEADER_SIZE =
      x.payload ++ padding := by
    have hsplit : x.bytes ++ padding = (put x.srcPort ++ put x.dstPort ++
        put (UInt16.ofNat (UDP_HEADER_SIZE + x.payload.length)) ++
          put x.checksum) ++ (x.payload ++ padding) := by
      simp only [UdpDatagram.bytes, List.append_assoc]
    rw [hsplit, List.drop_left']
    simp only [List.length_append, length_put]
    rfl
  have hvalue : (UInt16.ofNat (UDP_HEADER_SIZE + x.payload.length)).toNat =
      UDP_HEADER_SIZE + x.payload.length :=
    UInt16.toNat_ofNat_of_lt' x.small
  have hmin : min ((x.bytes ++ padding).length - UDP_HEADER_SIZE)
      (UDP_HEADER_SIZE + x.payload.length - UDP_HEADER_SIZE) =
        x.payload.length := by
    omega
  rw [readUdp, if_neg (by omega), hport]
  dsimp only [Option.bind_eq_bind, Option.bind_some]
  simp only [dropped_iff]
  cases hadmits : admits portFilter x.dstPort with
  | false => rfl
  | true =>
      rw [if_neg (by simp), hlength]
      dsimp only [Option.bind_some]
      rw [hvalue, if_pos (Nat.le_add_right _ _), hmin,
        subspanOf_eq (by omega), hpayload, List.take_left' rfl]
      rfl

theorem extractUdpPayload_bytes (portFilter : Option UInt16) (ip : IpHeader)
    (x : UdpDatagram) (padding : List UInt8) :
    extractUdpPayload portFilter (ip.bytes ++ (x.bytes ++ padding)) =
      some (if admits portFilter x.dstPort then some x.payload else none) := by
  have hne : ip.bytes ++ (x.bytes ++ padding) ≠ [] := by
    intro h
    have hlen := congrArg List.length h
    rw [List.length_append, List.length_append, x.length_bytes] at hlen
    simp only [UDP_HEADER_SIZE, List.length_nil] at hlen
    omega
  rw [extractUdpPayload, if_neg hne, readIpHeader_bytes]
  dsimp only [Option.bind_eq_bind, Option.bind_some]
  rw [if_neg (by simp), subspan_eq, Option.bind_some, List.drop_left]
  · exact readUdp_bytes portFilter x padding
  · rw [List.length_append]
    exact Nat.le_add_right _ _

namespace PcapReader

/-- A payload is counted and handed to the decoder. -/
def deliver (r : PcapReader) (payload : List UInt8) :
    PcapReader × List PcapEvent :=
  ({ r with
      mold := (r.mold.step payload).1
      udpDatagrams := r.udpDatagrams + 1 },
    .datagram payload :: (r.mold.step payload).2.map .mold)

section HandleFrame

variable {r : PcapReader} {frame network : List UInt8} {linkType : UInt32}

theorem handleFrame_payload {payload : List UInt8}
    (hlink : stripLinkLayer frame linkType = some (some network))
    (hpayload : extractUdpPayload r.portFilter network =
      some (some payload)) :
    r.handleFrame frame linkType = some (r.deliver payload) := by
  have hdecode : r.mold.decodePacket payload = some (r.mold.step payload) :=
    (Option.some_get _).symm
  rw [handleFrame, hlink]
  dsimp only [Option.bind_eq_bind, Option.bind_some]
  rw [hpayload]
  dsimp only [Option.bind_some]
  rw [hdecode, deliver]
  rfl

theorem handleFrame_dropped
    (hlink : stripLinkLayer frame linkType = some (some network))
    (hpayload : extractUdpPayload r.portFilter network = some none) :
    r.handleFrame frame linkType = some (r, []) := by
  rw [handleFrame, hlink]
  dsimp only [Option.bind_eq_bind, Option.bind_some]
  rw [hpayload]
  rfl

end HandleFrame

theorem handleFrame_frame (r : PcapReader) (hfilter : r.portFilter = none)
    (p : Packet) : r.handleFrame p.frame p.link.linkType.toUInt32 =
      some (r.deliver p.udp.payload) := by
  apply handleFrame_payload (stripLinkLayer_frame ..)
  rw [hfilter, extractUdpPayload_bytes]
  rfl

/-- **Extraction undoes encapsulation.** Whatever link layer, tags, IP header
and padding a datagram is captured with, its payload alone reaches the
decoder and is counted once; where a filter asks for another port, nothing
changes. -/
theorem handleFrame_undoes_encapsulation (r : PcapReader) (p : Packet) :
    r.handleFrame p.frame p.link.linkType.toUInt32 =
      some (if admits r.portFilter p.udp.dstPort then
        r.deliver p.udp.payload
      else (r, [])) := by
  have hlink := stripLinkLayer_frame p.link p.ip
    (p.ip.bytes ++ (p.udp.bytes ++ p.padding))
  have hextract := extractUdpPayload_bytes r.portFilter p.ip p.udp p.padding
  cases hadmits : admits r.portFilter p.udp.dstPort with
  | true =>
      rw [hadmits] at hextract
      exact handleFrame_payload hlink hextract
  | false =>
      rw [hadmits] at hextract
      exact handleFrame_dropped hlink hextract

end PcapReader

end Itch.Transport
