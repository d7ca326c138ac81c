import Itch.Transport.MoldUdp64

/-!
# The capture reader

§1 reads fields, §2 unwraps a captured frame down to its UDP payload, §3 walks
over the two kinds of capture file. The host is little-endian. Every read and
every subspan is checked, `none` stands for one outside its span; §4 proves
that there is none. Offsets are natural numbers: no sum below exceeds the size
of the capture by more than `2 ^ 33`.
-/

namespace Itch.Transport

open ByteCursor Transducer

/-! ## §1  Fields -/

/-- A result, or a read outside the span it is applied to. -/
abbrev Checked (α : Type) : Type := Option α

/-- An integer in the byte order of the host, or in the other one. -/
def fileWord (UintType : Type) [Word UintType] (swapped : Bool) :
    Reader UInt8 UintType :=
  (fun bs => Word.ofNat
    (if swapped then decodeBE bs.val else decodeLE bs.val)) <$>
      take (Word.width UintType)

def readLeOrBe (UintType : Type) [Word UintType] (data : List UInt8)
    (offset : ℕ) (swapped : Bool) : Checked UintType :=
  readAt (fileWord UintType swapped) data offset

def readNet (UintType : Type) [Word UintType] (data : List UInt8)
    (offset : ℕ) : Checked UintType :=
  readAt (unpack UintType) data offset

/-- `subspan` with a count. -/
def subspanOf (data : List UInt8) (offset count : ℕ) : Checked (List UInt8) :=
  (readAt (take count) data offset).map Subtype.val

def LINKTYPE_ETHERNET : UInt32 := 1
def LINKTYPE_RAW : UInt32 := 101
def LINKTYPE_LINUX_SLL : UInt32 := 113

def ETHERTYPE_IPV4 : UInt16 := 0x0800
def ETHERTYPE_IPV6 : UInt16 := 0x86DD
def ETHERTYPE_VLAN : UInt16 := 0x8100

def IP_PROTOCOL_UDP : UInt8 := 17

def ETHERNET_HEADER_SIZE : ℕ := 14
def VLAN_TAG_SIZE : ℕ := 4
def LINUX_SLL_HEADER_SIZE : ℕ := 16
def IPV6_HEADER_SIZE : ℕ := 40
def UDP_HEADER_SIZE : ℕ := 8

def PCAP_MAGIC : UInt32 := 0xA1B2C3D4
def PCAP_MAGIC_SWAPPED : UInt32 := 0xD4C3B2A1
def PCAP_MAGIC_NANO : UInt32 := 0xA1B23C4D
def PCAP_MAGIC_NANO_SWP : UInt32 := 0x4D3CB2A1
def PCAPNG_BLOCK_SHB : UInt32 := 0x0A0D0D0A

/-! ## §2  Frames -/

/-- The loop over VLAN tags: the size of the header and its ethertype. -/
def skipVlanTags (frame : List UInt8) (header : ℕ) (ethertype : UInt16) :
    Checked (ℕ × UInt16) :=
  if ethertype = ETHERTYPE_VLAN ∧ frame.length ≥ header + VLAN_TAG_SIZE then do
    let ethertype ← readNet UInt16 frame (header + 2)
    skipVlanTags frame (header + VLAN_TAG_SIZE) ethertype
  else return (header, ethertype)
termination_by frame.length - header
decreasing_by simp only [VLAN_TAG_SIZE] at *; omega

def stripLinkLayer (frame : List UInt8) (linkType : UInt32) :
    Checked (Option (List UInt8)) :=
  if linkType = LINKTYPE_ETHERNET then
    if frame.length < ETHERNET_HEADER_SIZE then some none
    else do
      let ethertype ← readNet UInt16 frame 12
      let (header, ethertype) ←
        skipVlanTags frame ETHERNET_HEADER_SIZE ethertype
      if ethertype ≠ ETHERTYPE_IPV4 ∧ ethertype ≠ ETHERTYPE_IPV6 then
        return none
      else return some (← subspan frame header)
  else if linkType = LINKTYPE_LINUX_SLL then
    if frame.length < LINUX_SLL_HEADER_SIZE then some none
    else return some (← subspan frame LINUX_SLL_HEADER_SIZE)
  else if linkType ≠ LINKTYPE_RAW then some none  -- unsupported
  else some (some frame)

/-- The size of the IP header and the protocol, if the version is known and
the header is there. -/
def readIpHeader (network : List UInt8) : Checked (Option (ℕ × UInt8)) := do
  let first ← readNet UInt8 network 0
  let version := first >>> 4
  if version = 4 then
    let ipHeaderLen := (first &&& 0x0F).toNat * 4
    if network.length < ipHeaderLen ∨ ipHeaderLen < 20 then return none
    else return some (ipHeaderLen, ← readNet UInt8 network 9)
  else if version = 6 then
    if network.length < IPV6_HEADER_SIZE then return none
    else return some (IPV6_HEADER_SIZE, ← readNet UInt8 network 6)
  else return none

/-- What `extract_udp_payload` does behind the IP header. -/
def readUdp (portFilter : Option UInt16) (udp : List UInt8) :
    Checked (Option (List UInt8)) :=
  if udp.length < UDP_HEADER_SIZE then some none
  else do
    let dstPort ← readNet UInt16 udp 2
    if portFilter.isSome ∧ some dstPort ≠ portFilter then return none
    else
      let udpLength ← readNet UInt16 udp 4
      let payloadLen := udp.length - UDP_HEADER_SIZE
      let payloadLen := if udpLength.toNat ≥ UDP_HEADER_SIZE then
          min payloadLen (udpLength.toNat - UDP_HEADER_SIZE)
        else payloadLen
      return some (← subspanOf udp UDP_HEADER_SIZE payloadLen)

def extractUdpPayload (portFilter : Option UInt16) (network : List UInt8) :
    Checked (Option (List UInt8)) :=
  if network = [] then some none
  else do
    match ← readIpHeader network with
    | none => return none
    | some (ipHeaderLen, protocol) =>
        if protocol ≠ IP_PROTOCOL_UDP then return none
        else readUdp portFilter (← subspan network ipHeaderLen)

/-- A datagram handed to the decoder, and what the decoder then calls. -/
inductive PcapEvent
  | datagram (payload : List UInt8)
  | mold (event : MoldUdp64Event)

structure PcapReader where
  mold : MoldUdp64Decoder := {}
  portFilter : Option UInt16 := none
  udpDatagrams : UInt64 := 0

namespace PcapReader

def handleFrame (r : PcapReader) (frame : List UInt8) (linkType : UInt32) :
    Checked (PcapReader × List PcapEvent) := do
  match ← stripLinkLayer frame linkType with
  | none => return (r, [])
  | some network =>
      match ← extractUdpPayload r.portFilter network with
      | none => return (r, [])
      | some payload =>
          let r := { r with udpDatagrams := r.udpDatagrams + 1 }
          let (mold, events) ← r.mold.decodePacket payload
          return ({ r with mold }, .datagram payload :: events.map .mold)

/-! ## §3  Capture files -/

def GLOBAL_HEADER_SIZE : ℕ := 24
def NETWORK_OFFSET : ℕ := 20
def RECORD_HEADER_SIZE : ℕ := 16
def INCL_LEN_OFFSET : ℕ := 8

/-- The loop of `read_classic_pcap`. -/
def readRecords (capture : List UInt8) (swapped : Bool) (linkType : UInt32)
    (r : PcapReader) (offset : ℕ) : Checked (PcapReader × List PcapEvent) :=
  if offset + RECORD_HEADER_SIZE ≤ capture.length then do
    let inclLen ←
      readLeOrBe UInt32 capture (offset + INCL_LEN_OFFSET) swapped
    let data := offset + RECORD_HEADER_SIZE
    if data + inclLen.toNat > capture.length then
      return (r, [])  -- truncated final record
    else
      let frame ← subspanOf capture data inclLen.toNat
      let (r, events) ← r.handleFrame frame linkType
      let (r, events') ← readRecords capture swapped linkType r
        (offset + RECORD_HEADER_SIZE + inclLen.toNat)
      return (r, events ++ events')
  else return (r, [])
termination_by capture.length - offset
decreasing_by simp only [RECORD_HEADER_SIZE] at *; omega

def readClassicPcap (r : PcapReader) (capture : List UInt8)
    (swapped : Bool) : Checked (PcapReader × List PcapEvent × Bool) :=
  if capture.length < GLOBAL_HEADER_SIZE then some (r, [], false)
  else do
    let linkType ← readLeOrBe UInt32 capture NETWORK_OFFSET swapped
    let (r, events) ←
      readRecords capture swapped linkType r GLOBAL_HEADER_SIZE
    return (r, events, true)

def BLOCK_HEADER_SIZE : ℕ := 8
def BOM_OFFSET : ℕ := 8
def BOM_LITTLE : UInt32 := 0x1A2B3C4D
def BLOCK_IDB : UInt32 := 0x00000001
def BLOCK_SPB : UInt32 := 0x00000003
def BLOCK_EPB : UInt32 := 0x00000006
def EPB_IFACE_OFFSET : ℕ := BLOCK_HEADER_SIZE
def EPB_CAPLEN_OFFSET : ℕ := BLOCK_HEADER_SIZE + 12
def EPB_DATA_OFFSET : ℕ := BLOCK_HEADER_SIZE + 20
def SPB_DATA_OFFSET : ℕ := BLOCK_HEADER_SIZE + 4

/-- What the loop of `read_pcapng` knows of the section it is in. -/
structure Section where
  swapped : Bool := false
  interfaceLinkTypes : List UInt32 := []

/-- An Enhanced Packet Block, if it is large enough for its fixed fields. -/
def readEnhancedPacket (capture : List UInt8) (offset totalLength : ℕ)
    (s : Section) (r : PcapReader) :
    Checked (PcapReader × List PcapEvent) :=
  if totalLength ≥ EPB_DATA_OFFSET + 4 then do
    let iface ←
      readLeOrBe UInt32 capture (offset + EPB_IFACE_OFFSET) s.swapped
    let capLen ←
      readLeOrBe UInt32 capture (offset + EPB_CAPLEN_OFFSET) s.swapped
    if offset + EPB_DATA_OFFSET + capLen.toNat ≤ capture.length ∧
        iface.toNat < s.interfaceLinkTypes.length then
      let frame ← subspanOf capture (offset + EPB_DATA_OFFSET) capLen.toNat
      let linkType ← s.interfaceLinkTypes[iface.toNat]?
      r.handleFrame frame linkType
    else return (r, [])
  else some (r, [])

/-- A Simple Packet Block has no captured length, it follows from its size. -/
def readSimplePacket (capture : List UInt8) (offset totalLength : ℕ)
    (s : Section) (r : PcapReader) :
    Checked (PcapReader × List PcapEvent) :=
  if totalLength ≥ SPB_DATA_OFFSET + 4 ∧ s.interfaceLinkTypes ≠ [] then do
    let dataLen := totalLength - SPB_DATA_OFFSET - 4
    let frame ← subspanOf capture (offset + SPB_DATA_OFFSET) dataLen
    let linkType ← s.interfaceLinkTypes.head?
    r.handleFrame frame linkType
  else some (r, [])

/-- One block, whose length has been checked. -/
def readBlock (capture : List UInt8) (offset : ℕ) (blockType : UInt32)
    (totalLength : ℕ) (s : Section) (r : PcapReader) :
    Checked (Section × PcapReader × List PcapEvent) :=
  if blockType = PCAPNG_BLOCK_SHB then do
    let _bom ← readNet UInt32 capture (offset + BOM_OFFSET)
    let bomNative ← readLeOrBe UInt32 capture (offset + BOM_OFFSET) false
    return ({ swapped := bomNative != BOM_LITTLE }, r, [])
  else if blockType = BLOCK_IDB then do
    let linkType ←
      readLeOrBe UInt16 capture (offset + BLOCK_HEADER_SIZE) s.swapped
    return ({ s with
      interfaceLinkTypes := s.interfaceLinkTypes ++ [linkType.toUInt32] },
      r, [])
  else if blockType = BLOCK_EPB then
    return (s, ← readEnhancedPacket capture offset totalLength s r)
  else if blockType = BLOCK_SPB then
    return (s, ← readSimplePacket capture offset totalLength s r)
  else some (s, r, [])

/-- The loop of `read_pcapng`. Block types are read in the order of the host,
and so is the length of a section header. -/
def readBlocks (capture : List UInt8) (s : Section) (r : PcapReader)
    (offset : ℕ) : Checked (PcapReader × List PcapEvent) :=
  if offset + BLOCK_HEADER_SIZE ≤ capture.length then do
    let blockType ← readLeOrBe UInt32 capture offset false
    let blockSwapped :=
      if blockType = PCAPNG_BLOCK_SHB then false else s.swapped
    let totalLength ← readLeOrBe UInt32 capture (offset + 4) blockSwapped
    if totalLength.toNat < BLOCK_HEADER_SIZE + 4 ∨
        offset + totalLength.toNat > capture.length then
      return (r, [])
    else
      let (s, r, events) ←
        readBlock capture offset blockType totalLength.toNat s r
      let (r, events') ←
        readBlocks capture s r (offset + totalLength.toNat)
      return (r, events ++ events')
  else return (r, [])
termination_by capture.length - offset
decreasing_by simp only [BLOCK_HEADER_SIZE] at *; omega

def readPcapng (r : PcapReader) (capture : List UInt8) :
    Checked (PcapReader × List PcapEvent × Bool) := do
  let (r, events) ← readBlocks capture {} r 0
  return (r, events, true)

def read (r : PcapReader) (capture : List UInt8) :
    Checked (PcapReader × List PcapEvent × Bool) :=
  if capture.length < 4 then some (r, [], false)
  else do
    let magic ← readLeOrBe UInt32 capture 0 false
    if magic = PCAP_MAGIC ∨ magic = PCAP_MAGIC_NANO then
      r.readClassicPcap capture false
    else if magic = PCAP_MAGIC_SWAPPED ∨ magic = PCAP_MAGIC_NANO_SWP then
      r.readClassicPcap capture true
    else if magic = PCAPNG_BLOCK_SHB then r.readPcapng capture
    else return (r, [], false)

end PcapReader

/-! ## §4  Bounds -/

section Fields

variable {data : List UInt8} {offset : ℕ}

theorem exists_readLeOrBe (UintType : Type) [Word UintType] (swapped : Bool)
    (h : offset + Word.width UintType ≤ data.length) :
    ∃ value, readLeOrBe UintType data offset swapped = some value :=
  (consumes_map _ (consumes_take _)).readAt h

theorem exists_readNet (UintType : Type) [Word UintType]
    (h : offset + Word.width UintType ≤ data.length) :
    ∃ value, readNet UintType data offset = some value :=
  (consumes_unpack UintType).readAt h

theorem subspanOf_eq {count : ℕ} (h : offset + count ≤ data.length) :
    subspanOf data offset count = some ((data.drop offset).take count) := by
  rw [subspanOf, readAt, take, dif_pos h]
  rfl

end Fields

/-- The loop ends inside the frame. -/
theorem exists_skipVlanTags (frame : List UInt8) {header : ℕ}
    (h : header ≤ frame.length) (ethertype : UInt16) :
    ∃ header' ethertype', header' ≤ frame.length ∧
      skipVlanTags frame header ethertype = some (header', ethertype') := by
  induction hn : frame.length - header using Nat.strong_induction_on
    generalizing header ethertype with
  | _ n ih =>
    rw [skipVlanTags]
    by_cases hc : ethertype = ETHERTYPE_VLAN ∧
        frame.length ≥ header + VLAN_TAG_SIZE
    · have hsize : header + 4 ≤ frame.length := hc.2
      obtain ⟨next, hnext⟩ : ∃ next, readNet UInt16 frame (header + 2) =
          some next := exists_readNet UInt16 hsize
      rw [if_pos hc, hnext]
      exact ih (frame.length - (header + VLAN_TAG_SIZE))
        (by simp only [VLAN_TAG_SIZE]; omega) hsize next rfl
    · rw [if_neg hc]
      exact ⟨header, ethertype, h, rfl⟩

theorem exists_stripLinkLayer (frame : List UInt8) (linkType : UInt32) :
    ∃ network, stripLinkLayer frame linkType = some network := by
  unfold stripLinkLayer
  split
  · split
    · exact ⟨none, rfl⟩
    · rename_i hlen
      have hle : 12 + 2 ≤ frame.length := not_lt.mp hlen
      obtain ⟨ethertype, hread⟩ :
          ∃ ethertype, readNet UInt16 frame 12 = some ethertype :=
        exists_readNet UInt16 hle
      obtain ⟨header, ethertype', hheader, hskip⟩ :=
        exists_skipVlanTags frame hle ethertype
      rw [hread]
      dsimp only [Option.bind_eq_bind, Option.bind_some]
      rw [show ETHERNET_HEADER_SIZE = 12 + 2 from rfl, hskip,
        Option.bind_some]
      dsimp only
      rw [subspan_eq hheader]
      split
      · exact ⟨none, rfl⟩
      · exact ⟨_, rfl⟩
  · split
    · split
      · exact ⟨none, rfl⟩
      · rename_i hlen
        rw [subspan_eq (not_lt.mp hlen)]
        exact ⟨_, rfl⟩
    · split
      · exact ⟨none, rfl⟩
      · exact ⟨_, rfl⟩

/-- The IP header that was read is there. -/
theorem exists_readIpHeader {network : List UInt8} (h : network ≠ []) :
    ∃ ip, readIpHeader network = some ip ∧
      ∀ size protocol, ip = some (size, protocol) → size ≤ network.length := by
  have hpos : 0 + 1 ≤ network.length := List.length_pos_iff.mpr h
  obtain ⟨first, hfirst⟩ : ∃ first, readNet UInt8 network 0 = some first :=
    exists_readNet UInt8 hpos
  rw [readIpHeader, hfirst]
  dsimp only [Option.bind_eq_bind, Option.bind_some]
  split
  · split
    · exact ⟨none, rfl, fun _ _ h => absurd h (by simp)⟩
    · rename_i hlen
      rw [not_or, not_lt, not_lt] at hlen
      obtain ⟨protocol, hprotocol⟩ :
          ∃ protocol, readNet UInt8 network 9 = some protocol :=
        exists_readNet UInt8
          ((show 9 + 1 ≤ 20 by decide).trans (hlen.2.trans hlen.1))
      rw [hprotocol]
      refine ⟨_, rfl, ?_⟩
      rintro size protocol ⟨⟩
      exact hlen.1
  · split
    · split
      · exact ⟨none, rfl, fun _ _ h => absurd h (by simp)⟩
      · rename_i hlen
        rw [not_lt] at hlen
        obtain ⟨protocol, hprotocol⟩ :
            ∃ protocol, readNet UInt8 network 6 = some protocol :=
          exists_readNet UInt8 ((show 6 + 1 ≤ 40 by decide).trans hlen)
        rw [hprotocol]
        refine ⟨_, rfl, ?_⟩
        rintro size protocol ⟨⟩
        exact hlen
    · exact ⟨none, rfl, fun _ _ h => absurd h (by simp)⟩

theorem exists_readUdp (portFilter : Option UInt16) (udp : List UInt8) :
    ∃ payload, readUdp portFilter udp = some payload := by
  unfold readUdp
  split
  · exact ⟨none, rfl⟩
  · rename_i hlen
    have hle : 8 ≤ udp.length := not_lt.mp hlen
    obtain ⟨dstPort, hport⟩ : ∃ port, readNet UInt16 udp 2 = some port :=
      exists_readNet UInt16 ((show 2 + 2 ≤ 8 by decide).trans hle)
    obtain ⟨udpLength, hlength⟩ : ∃ length, readNet UInt16 udp 4 =
        some length :=
      exists_readNet UInt16 ((show 4 + 2 ≤ 8 by decide).trans hle)
    rw [hport]
    dsimp only [Option.bind_eq_bind, Option.bind_some]
    split
    · exact ⟨none, rfl⟩
    · rw [hlength]
      dsimp only [Option.bind_some]
      -- the payload is what is behind the header, or less
      rw [subspanOf_eq]
      · exact ⟨_, rfl⟩
      · split <;> simp only [UDP_HEADER_SIZE] <;> omega

theorem exists_extractUdpPayload (portFilter : Option UInt16)
    (network : List UInt8) :
    ∃ payload, extractUdpPayload portFilter network = some payload := by
  unfold extractUdpPayload
  split
  · exact ⟨none, rfl⟩
  · rename_i hne
    obtain ⟨ip, hip, hsize⟩ := exists_readIpHeader hne
    rw [hip]
    dsimp only [Option.bind_eq_bind, Option.bind_some]
    split
    · exact ⟨none, rfl⟩
    · split
      · exact ⟨none, rfl⟩
      · rw [subspan_eq (hsize _ _ rfl)]
        exact exists_readUdp portFilter _

namespace PcapReader

theorem exists_handleFrame (r : PcapReader) (frame : List UInt8)
    (linkType : UInt32) :
    ∃ result, r.handleFrame frame linkType = some result := by
  obtain ⟨network, hnetwork⟩ := exists_stripLinkLayer frame linkType
  rw [handleFrame, hnetwork]
  dsimp only [Option.bind_eq_bind, Option.bind_some]
  cases network with
  | none => exact ⟨_, rfl⟩
  | some network =>
      obtain ⟨payload, hpayload⟩ :=
        exists_extractUdpPayload r.portFilter network
      dsimp only
      rw [hpayload, Option.bind_some]
      cases payload with
      | none => exact ⟨_, rfl⟩
      | some payload =>
          obtain ⟨decoded, hdecoded⟩ := Option.isSome_iff_exists.mp
            (r.mold.isSome_decodePacket payload)
          dsimp only
          rw [hdecoded]
          exact ⟨_, rfl⟩

theorem exists_readRecords (capture : List UInt8) (swapped : Bool)
    (linkType : UInt32) (r : PcapReader) (offset : ℕ) :
    ∃ result, readRecords capture swapped linkType r offset =
      some result := by
  induction hn : capture.length - offset using Nat.strong_induction_on
    generalizing r offset with
  | _ n ih =>
    rw [readRecords]
    by_cases hlen : offset + RECORD_HEADER_SIZE ≤ capture.length
    · have hsize : offset + 16 ≤ capture.length := hlen
      obtain ⟨inclLen, hincl⟩ : ∃ inclLen, readLeOrBe UInt32 capture
          (offset + INCL_LEN_OFFSET) swapped = some inclLen :=
        exists_readLeOrBe UInt32 swapped
          ((show offset + 8 + 4 ≤ offset + 16 by omega).trans hsize)
      rw [if_pos hlen, hincl]
      dsimp only [Option.bind_eq_bind, Option.bind_some]
      split
      · exact ⟨_, rfl⟩
      · rename_i hdata
        rw [subspanOf_eq (not_lt.mp hdata), Option.bind_some]
        obtain ⟨⟨r', events⟩, hframe⟩ := r.exists_handleFrame
          ((capture.drop (offset + RECORD_HEADER_SIZE)).take inclLen.toNat)
          linkType
        obtain ⟨rest, hrest⟩ := ih (capture.length -
            (offset + RECORD_HEADER_SIZE + inclLen.toNat))
          (by simp only [RECORD_HEADER_SIZE]; omega) r'
          (offset + RECORD_HEADER_SIZE + inclLen.toNat) rfl
        rw [hframe, Option.bind_some, hrest]
        exact ⟨_, rfl⟩
    · rw [if_neg hlen]
      exact ⟨_, rfl⟩

theorem exists_readEnhancedPacket {capture : List UInt8}
    {offset totalLength : ℕ} (hle : offset + totalLength ≤ capture.length)
    (s : Section) (r : PcapReader) :
    ∃ result, readEnhancedPacket capture offset totalLength s r =
      some result := by
  unfold readEnhancedPacket
  split
  · rename_i hmin
    have hfit : offset + 32 ≤ capture.length :=
      (Nat.add_le_add_left hmin offset).trans hle
    obtain ⟨iface, hiface⟩ : ∃ iface, readLeOrBe UInt32 capture
        (offset + EPB_IFACE_OFFSET) s.swapped = some iface :=
      exists_readLeOrBe UInt32 s.swapped
        ((show offset + 8 + 4 ≤ offset + 32 by omega).trans hfit)
    obtain ⟨capLen, hcapLen⟩ : ∃ capLen, readLeOrBe UInt32 capture
        (offset + EPB_CAPLEN_OFFSET) s.swapped = some capLen :=
      exists_readLeOrBe UInt32 s.swapped
        ((show offset + 20 + 4 ≤ offset + 32 by omega).trans hfit)
    rw [hiface, hcapLen]
    dsimp only [Option.bind_eq_bind, Option.bind_some]
    split
    · rename_i hdata
      rw [subspanOf_eq hdata.1, Option.bind_some,
        List.getElem?_eq_getElem hdata.2, Option.bind_some]
      exact r.exists_handleFrame _ _
    · exact ⟨_, rfl⟩
  · exact ⟨_, rfl⟩

theorem exists_readSimplePacket {capture : List UInt8}
    {offset totalLength : ℕ} (hle : offset + totalLength ≤ capture.length)
    (s : Section) (r : PcapReader) :
    ∃ result, readSimplePacket capture offset totalLength s r =
      some result := by
  unfold readSimplePacket
  split
  · rename_i hmin
    obtain ⟨hmin, hne⟩ := hmin
    obtain ⟨linkType, links, hlinks⟩ := List.exists_cons_of_ne_nil hne
    have hdata : offset + SPB_DATA_OFFSET +
        (totalLength - SPB_DATA_OFFSET - 4) ≤ capture.length := by
      omega
    dsimp only [Option.bind_eq_bind]
    rw [subspanOf_eq hdata, Option.bind_some, hlinks, List.head?_cons,
      Option.bind_some]
    exact r.exists_handleFrame _ _
  · exact ⟨_, rfl⟩

theorem exists_readBlock {capture : List UInt8} {offset totalLength : ℕ}
    (hmin : BLOCK_HEADER_SIZE + 4 ≤ totalLength)
    (hle : offset + totalLength ≤ capture.length) (blockType : UInt32)
    (s : Section) (r : PcapReader) :
    ∃ result, readBlock capture offset blockType totalLength s r =
      some result := by
  have hmin' : 12 ≤ totalLength := hmin
  -- whatever the block, it is read within the length that was checked
  unfold readBlock
  split
  · have hfit : offset + 8 + 4 ≤ capture.length :=
      (show offset + 8 + 4 ≤ offset + totalLength by omega).trans hle
    obtain ⟨bom, hbom⟩ :
        ∃ bom, readNet UInt32 capture (offset + BOM_OFFSET) = some bom :=
      exists_readNet UInt32 hfit
    obtain ⟨native, hnative⟩ : ∃ native, readLeOrBe UInt32 capture
        (offset + BOM_OFFSET) false = some native :=
      exists_readLeOrBe UInt32 false hfit
    rw [hbom, hnative]
    exact ⟨_, rfl⟩
  · split
    · obtain ⟨linkType, hlink⟩ : ∃ linkType, readLeOrBe UInt16 capture
          (offset + BLOCK_HEADER_SIZE) s.swapped = some linkType :=
        exists_readLeOrBe UInt16 s.swapped
          ((show offset + 8 + 2 ≤ offset + totalLength by omega).trans hle)
      rw [hlink]
      exact ⟨_, rfl⟩
    · split
      · obtain ⟨result, hresult⟩ := exists_readEnhancedPacket hle s r
        rw [hresult]
        exact ⟨_, rfl⟩
      · split
        · obtain ⟨result, hresult⟩ := exists_readSimplePacket hle s r
          rw [hresult]
          exact ⟨_, rfl⟩
        · exact ⟨_, rfl⟩

theorem exists_readBlocks (capture : List UInt8) (s : Section)
    (r : PcapReader) (offset : ℕ) :
    ∃ result, readBlocks capture s r offset = some result := by
  induction hn : capture.length - offset using Nat.strong_induction_on
    generalizing s r offset with
  | _ n ih =>
    -- a block is at least 12 bytes long, so what follows is shorter
    rw [readBlocks]
    by_cases hlen : offset + BLOCK_HEADER_SIZE ≤ capture.length
    · have hsize : offset + 8 ≤ capture.length := hlen
      obtain ⟨blockType, htype⟩ : ∃ blockType, readLeOrBe UInt32 capture
          offset false = some blockType :=
        exists_readLeOrBe UInt32 false
          ((show offset + 4 ≤ offset + 8 by omega).trans hsize)
      rw [if_pos hlen, htype]
      dsimp only [Option.bind_eq_bind, Option.bind_some]
      generalize (if blockType = PCAPNG_BLOCK_SHB then false
        else s.swapped) = swapped
      obtain ⟨totalLength, htotal⟩ : ∃ totalLength, readLeOrBe UInt32 capture
          (offset + 4) swapped = some totalLength :=
        exists_readLeOrBe UInt32 swapped hsize
      rw [htotal, Option.bind_some]
      split
      · exact ⟨_, rfl⟩
      · rename_i hguard
        rw [not_or, not_lt, not_lt] at hguard
        obtain ⟨hmin, hle⟩ := hguard
        obtain ⟨⟨s', r', events⟩, hblock⟩ :=
          exists_readBlock hmin hle blockType s r
        obtain ⟨rest, hrest⟩ :=
          ih (capture.length - (offset + totalLength.toNat))
            (by simp only [BLOCK_HEADER_SIZE] at hmin; omega) s' r'
            (offset + totalLength.toNat) rfl
        rw [hblock, Option.bind_some, hrest]
        exact ⟨_, rfl⟩
    · rw [if_neg hlen]
      exact ⟨_, rfl⟩

theorem exists_readClassicPcap (r : PcapReader) (capture : List UInt8)
    (swapped : Bool) :
    ∃ result, r.readClassicPcap capture swapped = some result := by
  unfold readClassicPcap
  split
  · exact ⟨_, rfl⟩
  · rename_i hlen
    have hsize : 20 + 4 ≤ capture.length := not_lt.mp hlen
    obtain ⟨linkType, hlink⟩ : ∃ linkType, readLeOrBe UInt32 capture
        NETWORK_OFFSET swapped = some linkType :=
      exists_readLeOrBe UInt32 swapped hsize
    obtain ⟨result, hresult⟩ := exists_readRecords capture swapped linkType r
      GLOBAL_HEADER_SIZE
    rw [hlink]
    dsimp only [Option.bind_eq_bind, Option.bind_some]
    rw [hresult]
    exact ⟨_, rfl⟩

/-- Whatever it is given, the reader comes to an end without a read outside
its input: not of the file, not of a frame, not of a datagram. -/
theorem read_inBounds (r : PcapReader) (capture : List UInt8) :
    ∃ result, r.read capture = some result := by
  unfold read
  split
  · exact ⟨_, rfl⟩
  · rename_i hlen
    have hsize : 0 + 4 ≤ capture.length := not_lt.mp hlen
    obtain ⟨magic, hmagic⟩ :
        ∃ magic, readLeOrBe UInt32 capture 0 false = some magic :=
      exists_readLeOrBe UInt32 false hsize
    rw [hmagic]
    dsimp only [Option.bind_eq_bind, Option.bind_some]
    split
    · exact r.exists_readClassicPcap capture false
    · split
      · exact r.exists_readClassicPcap capture true
      · split
        · obtain ⟨result, hresult⟩ := exists_readBlocks capture {} r 0
          rw [readPcapng, hresult]
          exact ⟨_, rfl⟩
        · exact ⟨_, rfl⟩

end PcapReader

end Itch.Transport
