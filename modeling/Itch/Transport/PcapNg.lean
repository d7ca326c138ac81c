import Itch.Transport.PcapClassic

/-!
# Files in the pcapng format

§1 writes files of sections, each in its own byte order. §2 reads the sections
of a file back and §3 says which files are read as they were written.
-/

namespace Itch.Transport

open ByteCursor Transducer

/-! ## §1  Files -/

/-- A block: its type, its length, its body, and the length again. -/
def blockBytes (order : ByteOrder) (type : UInt32) (body : List UInt8) :
    List UInt8 :=
  order.put type ++ (order.put (UInt32.ofNat (12 + body.length)) ++
    (body ++ order.put (UInt32.ofNat (12 + body.length))))

/-- The blocks of a section. What follows the fields that are read is in
`options` or `rest`, with its padding. -/
inductive Block
  | interface (linkType reserved : UInt16) (snapLen : UInt32)
      (options : List UInt8)
  | enhancedPacket (iface timestampHigh timestampLow originalLen : UInt32)
      (packet : Packet) (rest : List UInt8)
  | simplePacket (originalLen : UInt32) (packet : Packet)
  | other (type : UInt32) (body : List UInt8)

namespace Block

def type : Block → UInt32
  | .interface .. => PcapReader.BLOCK_IDB
  | .enhancedPacket .. => PcapReader.BLOCK_EPB
  | .simplePacket .. => PcapReader.BLOCK_SPB
  | .other type _ => type

def body (order : ByteOrder) : Block → List UInt8
  | .interface linkType reserved snapLen options =>
      order.put linkType ++ (order.put reserved ++
        (order.put snapLen ++ options))
  | .enhancedPacket iface high low originalLen packet rest =>
      order.put iface ++ (order.put high ++ (order.put low ++
        (order.put (UInt32.ofNat packet.frame.length) ++
          (order.put originalLen ++ (packet.frame ++ rest)))))
  | .simplePacket originalLen packet =>
      order.put originalLen ++ packet.frame
  | .other _ body => body

def bytes (order : ByteOrder) (b : Block) : List UInt8 :=
  blockBytes order b.type (b.body order)

/-- The interface that a block describes, by its link type. -/
def links : Block → List UInt16
  | .interface linkType .. => [linkType]
  | _ => []

/-- The payload of a packet block. -/
def payloads : Block → List (List UInt8)
  | .enhancedPacket _ _ _ _ packet _ => [packet.udp.payload]
  | .simplePacket _ packet => [packet.udp.payload]
  | _ => []

/-- The block fits its length field, a packet is captured from an interface
of its link type, and the other blocks are others. -/
structure Fits (order : ByteOrder) (links : List UInt16) (b : Block) :
    Prop where
  small : 12 + (b.body order).length < 2 ^ 32
  enhanced : ∀ iface high low originalLen packet rest,
    b = .enhancedPacket iface high low originalLen packet rest →
      links[iface.toNat]? = some packet.link.linkType
  simple : ∀ originalLen packet, b = .simplePacket originalLen packet →
    links.head? = some packet.link.linkType
  other : ∀ type body, b = .other type body →
    type ≠ PCAPNG_BLOCK_SHB ∧ type ≠ PcapReader.BLOCK_IDB ∧
      type ≠ PcapReader.BLOCK_EPB ∧ type ≠ PcapReader.BLOCK_SPB

end Block

/-- Each block fits, with the interfaces described before it. -/
def BlocksFit (order : ByteOrder) : List UInt16 → List Block → Prop
  | _, [] => True
  | links, b :: blocks =>
      b.Fits order links ∧ BlocksFit order (links ++ b.links) blocks

structure FileSection where
  order : ByteOrder
  major : UInt16 := 1
  minor : UInt16 := 0
  sectionLength : UInt64 := 0xFFFFFFFFFFFFFFFF
  options : List UInt8 := []
  blocks : List Block

namespace FileSection

/-- The body of the section header block. -/
def headerBody (s : FileSection) : List UInt8 :=
  s.order.put PcapReader.BOM_LITTLE ++ (s.order.put s.major ++
    (s.order.put s.minor ++ (s.order.put s.sectionLength ++ s.options)))

def bytes (s : FileSection) : List UInt8 :=
  blockBytes s.order PCAPNG_BLOCK_SHB s.headerBody ++
    s.blocks.flatMap (Block.bytes s.order)

def payloads (s : FileSection) : List (List UInt8) :=
  s.blocks.flatMap Block.payloads

structure WellFormed (s : FileSection) : Prop where
  small : 12 + s.headerBody.length < 2 ^ 32
  blocks : BlocksFit s.order [] s.blocks

end FileSection

def fileBytes (file : List FileSection) : List UInt8 :=
  file.flatMap FileSection.bytes

def filePayloads (file : List FileSection) : List (List UInt8) :=
  file.flatMap FileSection.payloads

/-! ## §2  Sections read back -/

namespace PcapReader

variable {capture : List UInt8} {offset : ℕ} {s : Section} {r : PcapReader}

theorem length_blockBytes (order : ByteOrder) (type : UInt32)
    (body : List UInt8) :
    (blockBytes order type body).length = 12 + body.length := by
  simp only [blockBytes, List.length_append, ByteOrder.length_put, Word.width]
  omega

/-- The parts of a block in a capture. -/
theorem holds_blockBytes {order : ByteOrder} {type : UInt32}
    {body : List UInt8}
    (h : Holds capture offset (blockBytes order type body)) :
    Holds capture offset (order.put type) ∧
      Holds capture (offset + 4)
        (order.put (UInt32.ofNat (12 + body.length))) ∧
      Holds capture (offset + 8) body := by
  obtain ⟨htype, hrest⟩ := h.append
  obtain ⟨hlength, hrest⟩ := hrest.append
  obtain ⟨hbody, -⟩ := hrest.append
  rw [order.length_put] at hlength hbody
  rw [order.length_put] at hbody
  exact ⟨htype, hlength, hbody⟩

/-- The loop at a little-endian block: it is read, and the rest after it. -/
theorem readBlocks_block {type : UInt32} {body : List UInt8}
    {s' : Section} {r' : PcapReader} {events : List PcapEvent}
    {result : PcapReader × List PcapEvent}
    (h : Holds capture offset (blockBytes .little type body))
    (hsmall : 12 + body.length < 2 ^ 32) (hs : s.swapped = false)
    (hblock : readBlock capture offset type (12 + body.length) s r =
      some (s', r', events))
    (hrest : readBlocks capture s' r'
      (offset + (blockBytes .little type body).length) = some result) :
    readBlocks capture s r offset =
      some (result.1, events ++ result.2) := by
  obtain ⟨htype, hlength, -⟩ := holds_blockBytes h
  have hle := h.le_length
  rw [length_blockBytes] at hle hrest
  have hvalue : (UInt32.ofNat (12 + body.length)).toNat =
      12 + body.length :=
    UInt32.toNat_ofNat_of_lt' hsmall
  have hguard : ¬(12 + body.length < BLOCK_HEADER_SIZE + 4 ∨
      offset + (12 + body.length) > capture.length) := by
    simp only [BLOCK_HEADER_SIZE]
    omega
  rw [readBlocks, if_pos (by simp only [BLOCK_HEADER_SIZE]; omega),
    show false = ByteOrder.little.swapped from rfl,
    readLeOrBe_of_holds htype]
  dsimp only [Option.bind_eq_bind, Option.bind_some]
  rw [hs, show (if type = PCAPNG_BLOCK_SHB then ByteOrder.little.swapped
      else false) = ByteOrder.little.swapped from ite_self _,
    readLeOrBe_of_holds hlength, Option.bind_some, hvalue, if_neg hguard,
    hblock, Option.bind_some, hrest]
  rfl

/-- A section header begins a new section. -/
theorem readBlock_sectionHeader {rest : List UInt8}
    (h : Holds capture (offset + 8)
      (ByteOrder.little.put BOM_LITTLE ++ rest)) (totalLength : ℕ)
    (s : Section) (r : PcapReader) :
    readBlock capture offset PCAPNG_BLOCK_SHB totalLength s r =
      some ({}, r, []) := by
  obtain ⟨hbom, -⟩ := h.append
  have hle := hbom.le_length
  rw [ByteOrder.length_put] at hle
  obtain ⟨bom, hnet⟩ : ∃ bom, readNet UInt32 capture (offset + BOM_OFFSET) =
      some bom := exists_readNet UInt32 hle
  have hnative : readLeOrBe UInt32 capture (offset + BOM_OFFSET)
      ByteOrder.little.swapped = some BOM_LITTLE := readLeOrBe_of_holds hbom
  rw [readBlock, if_pos rfl, hnet]
  dsimp only [Option.bind_eq_bind, Option.bind_some]
  rw [show false = ByteOrder.little.swapped from rfl, hnative]
  rfl

theorem readBlock_interface {linkType : UInt16} {rest : List UInt8}
    (h : Holds capture (offset + 8) (ByteOrder.little.put linkType ++ rest))
    (totalLength : ℕ) (hs : s.swapped = false) (r : PcapReader) :
    readBlock capture offset BLOCK_IDB totalLength s r =
      some ({ s with
        interfaceLinkTypes := s.interfaceLinkTypes ++ [linkType.toUInt32] },
        r, []) := by
  obtain ⟨hlink, -⟩ := h.append
  have hread : readLeOrBe UInt16 capture (offset + BLOCK_HEADER_SIZE)
      ByteOrder.little.swapped = some linkType := readLeOrBe_of_holds hlink
  rw [readBlock, if_neg (by decide), if_pos rfl, hs,
    show false = ByteOrder.little.swapped from rfl, hread]
  rfl

theorem readBlock_enhancedPacket {links : List UInt16}
    {iface high low originalLen : UInt32} {packet : Packet}
    {rest : List UInt8}
    (h : Holds capture (offset + 8)
      ((Block.enhancedPacket iface high low originalLen packet rest).body
        .little))
    (hfit : (Block.enhancedPacket iface high low originalLen packet
      rest).Fits .little links)
    (hfilter : r.portFilter = none) :
    readBlock capture offset BLOCK_EPB
        (12 + ((Block.enhancedPacket iface high low originalLen packet
          rest).body .little).length)
        { interfaceLinkTypes := links.map UInt16.toUInt32 } r =
      some ({ interfaceLinkTypes := links.map UInt16.toUInt32 },
        r.deliver packet.udp.payload) := by
  have hsmall := hfit.small
  have hlen : ((Block.enhancedPacket iface high low originalLen packet
      rest).body .little).length =
        20 + packet.frame.length + rest.length := by
    simp only [Block.body, List.length_append, ByteOrder.length_put,
      Word.width]
    omega
  rw [hlen] at hsmall ⊢
  -- the body: interface, timestamp in two words, both lengths, the frame
  obtain ⟨hiface, h⟩ := h.append
  obtain ⟨-, h⟩ := h.append
  obtain ⟨-, h⟩ := h.append
  obtain ⟨hcapLen, h⟩ := h.append
  obtain ⟨-, h⟩ := h.append
  obtain ⟨hframe, -⟩ := h.append
  simp only [ByteOrder.length_put] at hcapLen hframe
  have hcap : (UInt32.ofNat packet.frame.length).toNat =
      packet.frame.length :=
    UInt32.toNat_ofNat_of_lt' (by simp only [UInt32.size]; omega)
  have hlink : (links.map UInt16.toUInt32)[iface.toNat]? =
      some packet.link.linkType.toUInt32 := by
    rw [List.getElem?_map, hfit.enhanced _ _ _ _ _ _ rfl]
    rfl
  obtain ⟨hindex, -⟩ := List.getElem?_eq_some_iff.mp hlink
  have hreadIface : readLeOrBe UInt32 capture (offset + EPB_IFACE_OFFSET)
      ByteOrder.little.swapped = some iface := readLeOrBe_of_holds hiface
  have hreadCap : readLeOrBe UInt32 capture (offset + EPB_CAPLEN_OFFSET)
      ByteOrder.little.swapped = some (UInt32.ofNat packet.frame.length) :=
    readLeOrBe_of_holds hcapLen
  have hdata : Holds capture (offset + EPB_DATA_OFFSET) packet.frame := hframe
  rw [readBlock, if_neg (by decide), if_neg (by decide), if_pos rfl,
    readEnhancedPacket,
    if_pos (by simp only [EPB_DATA_OFFSET, BLOCK_HEADER_SIZE]; omega)]
  dsimp only [Option.bind_eq_bind]
  rw [show false = ByteOrder.little.swapped from rfl, hreadIface,
    Option.bind_some, hreadCap, Option.bind_some, hcap,
    if_pos ⟨hdata.le_length, hindex⟩, subspanOf_of_holds hdata,
    Option.bind_some, hlink, Option.bind_some,
    r.handleFrame_frame hfilter packet]
  rfl

theorem readBlock_simplePacket {links : List UInt16}
    {originalLen : UInt32} {packet : Packet}
    (h : Holds capture (offset + 8)
      ((Block.simplePacket originalLen packet).body .little))
    (hfit : (Block.simplePacket originalLen packet).Fits .little links)
    (hfilter : r.portFilter = none) :
    readBlock capture offset BLOCK_SPB
        (12 + ((Block.simplePacket originalLen packet).body .little).length)
        { interfaceLinkTypes := links.map UInt16.toUInt32 } r =
      some ({ interfaceLinkTypes := links.map UInt16.toUInt32 },
        r.deliver packet.udp.payload) := by
  have hlen : ((Block.simplePacket originalLen packet).body
      .little).length = 4 + packet.frame.length := by
    simp only [Block.body, List.length_append, ByteOrder.length_put,
      Word.width]
  have hlink : (links.map UInt16.toUInt32).head? =
      some packet.link.linkType.toUInt32 := by
    rw [List.head?_map, hfit.simple _ _ rfl]
    rfl
  have hne : links.map UInt16.toUInt32 ≠ [] := by
    intro hnil
    rw [hnil] at hlink
    cases hlink
  obtain ⟨-, hframe⟩ := h.append
  rw [ByteOrder.length_put] at hframe
  have hdata : Holds capture (offset + SPB_DATA_OFFSET) packet.frame := hframe
  -- the length of the frame is told by the length of the block alone
  have hdataLen : 12 + (4 + packet.frame.length) - SPB_DATA_OFFSET - 4 =
      packet.frame.length := by
    simp only [SPB_DATA_OFFSET, BLOCK_HEADER_SIZE]
    omega
  have hguard : 12 + (4 + packet.frame.length) ≥ SPB_DATA_OFFSET + 4 := by
    simp only [SPB_DATA_OFFSET, BLOCK_HEADER_SIZE]
    omega
  rw [hlen, readBlock, if_neg (by decide), if_neg (by decide),
    if_neg (by decide), if_pos rfl, readSimplePacket, if_pos ⟨hguard, hne⟩]
  dsimp only [Option.bind_eq_bind]
  rw [hdataLen, subspanOf_of_holds hdata, Option.bind_some, hlink,
    Option.bind_some, r.handleFrame_frame hfilter packet]
  rfl

theorem readBlock_other {type : UInt32} {body : List UInt8}
    {links : List UInt16}
    (hfit : (Block.other type body).Fits .little links) (totalLength : ℕ)
    (s : Section) (r : PcapReader) :
    readBlock capture offset type totalLength s r = some (s, r, []) := by
  obtain ⟨hshb, hidb, hepb, hspb⟩ := hfit.other type body rfl
  rw [readBlock, if_neg hshb, if_neg hidb, if_neg hepb, if_neg hspb]

/-- A block of a section adds the interface it describes and hands over the
payload it carries. -/
theorem readBlock_fits {links : List UInt16} {b : Block}
    (h : Holds capture (offset + 8) (b.body .little))
    (hfit : b.Fits .little links) (hfilter : r.portFilter = none) :
    readBlock capture offset b.type (12 + (b.body .little).length)
        { interfaceLinkTypes := links.map UInt16.toUInt32 } r =
      some ({ interfaceLinkTypes := (links ++ b.links).map UInt16.toUInt32 },
        run deliver r b.payloads) := by
  cases b with
  | interface linkType reserved snapLen options =>
      rw [List.map_append]
      exact readBlock_interface h _ rfl r
  | enhancedPacket iface high low originalLen packet rest =>
      simp only [Block.links, Block.payloads, run_cons, run_nil,
        List.append_nil]
      exact readBlock_enhancedPacket h hfit hfilter
  | simplePacket originalLen packet =>
      simp only [Block.links, Block.payloads, run_cons, run_nil,
        List.append_nil]
      exact readBlock_simplePacket h hfit hfilter
  | other type body =>
      simp only [Block.links, Block.payloads, run_nil, List.append_nil]
      exact readBlock_other hfit _ _ r

theorem portFilter_run (r : PcapReader) (payloads : List (List UInt8)) :
    (run deliver r payloads).1.portFilter = r.portFilter := by
  have hstep (r' : PcapReader) (payload : List UInt8)
      (h : r'.portFilter = r.portFilter) :
      (r'.deliver payload).1.portFilter = r.portFilter := h
  exact run_invariant hstep rfl payloads

theorem readBlocks_blocks {blocks : List Block} {links : List UInt16}
    {result : PcapReader × List PcapEvent}
    (h : Holds capture offset (blocks.flatMap (Block.bytes .little)))
    (hfit : BlocksFit .little links blocks) (hfilter : r.portFilter = none)
    (hrest : ∀ s, s.swapped = false →
      readBlocks capture s (run deliver r (blocks.flatMap Block.payloads)).1
        (offset + (blocks.flatMap (Block.bytes .little)).length) =
          some result) :
    readBlocks capture
        { interfaceLinkTypes := links.map UInt16.toUInt32 } r offset =
      some (result.1,
        (run deliver r (blocks.flatMap Block.payloads)).2 ++ result.2) := by
  induction blocks generalizing links offset r with
  | nil => exact hrest _ rfl
  | cons b blocks ih =>
      rw [List.flatMap_cons] at h
      obtain ⟨hb, hblocks⟩ := h.append
      obtain ⟨-, -, hbody⟩ := holds_blockBytes hb
      have hread := readBlock_fits hbody hfit.1 hfilter
      simp only [List.flatMap_cons, List.length_append, run_append,
        ← Nat.add_assoc] at hrest ⊢
      have hrest' := ih hblocks hfit.2
        ((portFilter_run r b.payloads).trans hfilter) hrest
      refine (readBlocks_block hb hfit.1.small rfl hread hrest').trans ?_
      rw [List.append_assoc]

/-- Little-endian sections are read in turn, whatever follows them. -/
theorem readBlocks_sections {file : List FileSection}
    {result : PcapReader × List PcapEvent}
    (h : Holds capture offset (fileBytes file))
    (hfile : ∀ x ∈ file, x.WellFormed ∧ x.order = .little)
    (hs : s.swapped = false) (hfilter : r.portFilter = none)
    (hrest : ∀ s', s'.swapped = false →
      readBlocks capture s' (run deliver r (filePayloads file)).1
        (offset + (fileBytes file).length) = some result) :
    readBlocks capture s r offset =
      some (result.1, (run deliver r (filePayloads file)).2 ++ result.2) := by
  induction file generalizing s offset r with
  | nil => exact hrest s hs
  | cons x file ih =>
      obtain ⟨⟨hwf, horder⟩, hrestfile⟩ := List.forall_mem_cons.mp hfile
      obtain ⟨order, major, minor, sectionLength, options, blocks⟩ := x
      obtain rfl : order = .little := horder
      rw [fileBytes, List.flatMap_cons] at h
      obtain ⟨hx, hxs⟩ := h.append
      obtain ⟨hheader, hblocks⟩ := hx.append
      obtain ⟨-, -, hbody⟩ := holds_blockBytes hheader
      simp only [fileBytes, filePayloads, List.flatMap_cons,
        FileSection.bytes, FileSection.payloads, List.length_append,
        run_append, ← Nat.add_assoc] at hrest hxs ⊢
      have hsections := fun (s' : Section) (hs' : s'.swapped = false) =>
        ih hxs hrestfile hs' ((portFilter_run r _).trans hfilter) hrest
      have hsection := readBlocks_blocks hblocks hwf.blocks hfilter hsections
      refine (readBlocks_block hheader hwf.small hs
        (readBlock_sectionHeader hbody _ s r) hsection).trans ?_
      rw [List.append_assoc]
      rfl

theorem readBlocks_end (h : capture.length ≤ offset) (s : Section)
    (r : PcapReader) : readBlocks capture s r offset = some (r, []) := by
  have hguard : ¬offset + BLOCK_HEADER_SIZE ≤ capture.length := by
    simp only [BLOCK_HEADER_SIZE]
    omega
  rw [readBlocks, if_neg hguard]
  rfl

end PcapReader

/-! ## §3  Which files are read -/

/-- The length of a big-endian section header, as the reader has it. -/
def FileSection.misreadLength (x : FileSection) : ℕ :=
  decodeLE (ByteOrder.big.put (UInt32.ofNat (12 + x.headerBody.length)))

/-- No section is big-endian, or the length of the first that is, misread,
does not lie in the file and no packet stands from there on. -/
def BigEndianHarmless (file : List FileSection) : Prop :=
  (∀ x ∈ file, x.order = .little) ∨
    ∃ before x after, file = before ++ x :: after ∧
      (∀ y ∈ before, y.order = .little) ∧ x.order = .big ∧
      (x.misreadLength < 12 ∨
        (fileBytes (x :: after)).length < x.misreadLength) ∧
      filePayloads (x :: after) = []

/-- The payload of a datagram that was handed over. -/
def PcapEvent.datagram? : PcapEvent → Option (List UInt8)
  | .datagram payload => some payload
  | .mold _ => none

namespace PcapReader

variable {capture : List UInt8} {offset : ℕ} {s : Section} {r : PcapReader}
  {file : List FileSection}

/-- The loop ends at a big-endian section header whose length, misread, does
not lie in the file. -/
theorem readBlocks_bigEndian {x : FileSection}
    (h : Holds capture offset (blockBytes .big PCAPNG_BLOCK_SHB x.headerBody))
    (hmisread : x.misreadLength < 12 ∨
      capture.length < offset + x.misreadLength) :
    readBlocks capture s r offset = some (r, []) := by
  obtain ⟨htype, hlength, -⟩ := holds_blockBytes h
  have hle := h.le_length
  rw [length_blockBytes] at hle
  have hread : readLeOrBe UInt32 capture offset false =
      some PCAPNG_BLOCK_SHB := by
    -- the bytes of this type are a palindrome
    have hsame : ByteOrder.big.put PCAPNG_BLOCK_SHB =
        ByteOrder.little.put PCAPNG_BLOCK_SHB := by decide
    rw [hsame] at htype
    exact readLeOrBe_of_holds htype
  have hwidth : (ByteOrder.big.put
      (UInt32.ofNat (12 + x.headerBody.length))).length = 4 :=
    ByteOrder.big.length_put _
  have htotal : readLeOrBe UInt32 capture (offset + 4) false =
      some (UInt32.ofNat x.misreadLength) :=
    hlength.readAt (inverts_map _ (inverts_take ⟨_, hwidth⟩))
  have hvalue : (UInt32.ofNat x.misreadLength).toNat = x.misreadLength := by
    refine UInt32.toNat_ofNat_of_lt' ((decodeBE_lt _).trans_le ?_)
    rw [List.length_reverse, hwidth]
    decide
  rw [readBlocks, if_pos (by simp only [BLOCK_HEADER_SIZE]; omega), hread]
  dsimp only [Option.bind_eq_bind, Option.bind_some]
  rw [if_pos rfl, htotal, Option.bind_some, hvalue, if_pos]
  · rfl
  · simp only [BLOCK_HEADER_SIZE]
    omega

/-- A file begins with the type of a section header, in either order. -/
theorem read_fileBytes (r : PcapReader) (x : FileSection)
    (file : List FileSection) :
    r.read (fileBytes (x :: file)) =
      r.readPcapng (fileBytes (x :: file)) := by
  have hx : Holds (fileBytes (x :: file)) 0
      (blockBytes x.order PCAPNG_BLOCK_SHB x.headerBody) := by
    have hbytes : Holds (fileBytes (x :: file)) 0 x.bytes := holds_zero _ _
    exact hbytes.append.1
  have hle := hx.le_length
  rw [length_blockBytes] at hle
  obtain ⟨htype, -, -⟩ := holds_blockBytes hx
  have hmagic : readLeOrBe UInt32 (fileBytes (x :: file)) 0 false =
      some PCAPNG_BLOCK_SHB := by
    have hsame : x.order.put PCAPNG_BLOCK_SHB =
        ByteOrder.little.put PCAPNG_BLOCK_SHB := by
      cases x.order <;> decide
    rw [hsame] at htype
    exact readLeOrBe_of_holds htype
  rw [read, if_neg (by omega), hmagic]
  rfl

/-- The reader returns true and has handed over the payloads in order. -/
def Decodes (r : PcapReader) (capture : List UInt8)
    (payloads : List (List UInt8)) : Prop :=
  r.read capture = some ((run deliver r payloads).1,
    (run deliver r payloads).2, true)

theorem decodes_littleEndian (hfilter : r.portFilter = none)
    (hne : file ≠ [])
    (hfile : ∀ x ∈ file, x.WellFormed ∧ x.order = .little) :
    r.Decodes (fileBytes file) (filePayloads file) := by
  obtain ⟨x, xs, rfl⟩ := List.exists_cons_of_ne_nil hne
  have hholds : Holds (fileBytes (x :: xs)) 0 (fileBytes (x :: xs)) := by
    simpa using holds_zero (fileBytes (x :: xs)) []
  have hstart : ({} : Section).swapped = false := rfl
  have hread := readBlocks_sections hholds hfile hstart hfilter
    fun s' _ => readBlocks_end (Nat.zero_add _).ge s' _
  rw [Decodes, read_fileBytes, readPcapng, hread, List.append_nil]
  rfl

theorem datagrams_run (r : PcapReader) (payloads : List (List UInt8)) :
    (run deliver r payloads).2.filterMap PcapEvent.datagram? = payloads := by
  induction payloads generalizing r with
  | nil => rfl
  | cons payload payloads ih =>
      rw [run_cons, List.filterMap_append, ih]
      simp [deliver, PcapEvent.datagram?, List.filterMap_map]

/-- With the length of its section header misread, nothing of a big-endian
section is handed over, and nothing behind it. -/
theorem decodes_iff_bigEndian {before after : List FileSection}
    {x : FileSection} (hfilter : r.portFilter = none)
    (hbefore : ∀ y ∈ before, y.WellFormed ∧ y.order = .little)
    (hx : x.order = .big)
    (hmisread : x.misreadLength < 12 ∨
      (fileBytes (x :: after)).length < x.misreadLength) :
    r.Decodes (fileBytes (before ++ x :: after))
        (filePayloads (before ++ x :: after)) ↔
      filePayloads (x :: after) = [] := by
  have hsplit : fileBytes (before ++ x :: after) =
      fileBytes before ++ fileBytes (x :: after) := List.flatMap_append
  have hall : Holds (fileBytes (before ++ x :: after)) 0
      (fileBytes before ++ fileBytes (x :: after)) := by
    rw [hsplit]
    simpa using holds_zero (fileBytes before ++ fileBytes (x :: after)) []
  obtain ⟨hholds, hrest⟩ := hall.append
  have hheader := hrest.append.1.append.1
  rw [hx] at hheader
  have hstart : ({} : Section).swapped = false := rfl
  -- one of the two guards on the length of a block stops the loop
  have hlen : x.misreadLength < 12 ∨
      (fileBytes (before ++ x :: after)).length <
        0 + (fileBytes before).length + x.misreadLength := by
    rw [hsplit, List.length_append]
    omega
  have hread := readBlocks_sections hholds hbefore hstart hfilter
    fun s' _ => readBlocks_bigEndian hheader hlen
  have hfile : r.read (fileBytes (before ++ x :: after)) =
      r.readPcapng (fileBytes (before ++ x :: after)) := by
    cases before with
    | nil => exact read_fileBytes r x after
    | cons y before => exact read_fileBytes r y (before ++ x :: after)
  have hpayloads : filePayloads (before ++ x :: after) =
      filePayloads before ++ filePayloads (x :: after) := List.flatMap_append
  rw [Decodes, hfile, readPcapng, hread, hpayloads, List.append_nil]
  constructor
  · intro heq
    have hevents := congrArg (fun o => (o.map fun y =>
      y.2.1.filterMap PcapEvent.datagram?).getD []) heq
    have hsame : filePayloads before =
        filePayloads before ++ filePayloads (x :: after) := by
      simpa [datagrams_run] using hevents
    exact List.append_cancel_left (hsame.symm.trans (List.append_nil _).symm)
  · intro hnil
    rw [hnil, List.append_nil]
    rfl

/-- A well-formed file is read as it was written where no section is
big-endian, or none of the packets is lost to the first that is. Where its
misread length does not lie in the file, the packets from there on are lost. -/
theorem decodes_of_bigEndianHarmless (r : PcapReader)
    (hfilter : r.portFilter = none) (file : List FileSection)
    (hne : file ≠ []) (hfile : ∀ x ∈ file, x.WellFormed) :
    (BigEndianHarmless file →
      r.Decodes (fileBytes file) (filePayloads file)) ∧
    ∀ before x after, file = before ++ x :: after →
      (∀ y ∈ before, y.order = .little) → x.order = .big →
      (x.misreadLength < 12 ∨
        (fileBytes (x :: after)).length < x.misreadLength) →
      (r.Decodes (fileBytes file) (filePayloads file) ↔
        filePayloads (x :: after) = []) := by
  constructor
  · rintro (hlittle | ⟨before, x, after, rfl, hlittle, hx, hmisread, hnil⟩)
    · exact decodes_littleEndian hfilter hne
        fun x hx => ⟨hfile x hx, hlittle x hx⟩
    · have hbefore := fun y hy => hfile y (List.mem_append_left _ hy)
      exact (decodes_iff_bigEndian hfilter
        (fun y hy => ⟨hbefore y hy, hlittle y hy⟩) hx hmisread).mpr hnil
  · rintro before x after rfl hlittle hx hmisread
    have hbefore := fun y hy => hfile y (List.mem_append_left _ hy)
    exact decodes_iff_bigEndian hfilter
      (fun y hy => ⟨hbefore y hy, hlittle y hy⟩) hx hmisread

/-- A raw frame with one byte of payload. -/
def onePacket : Packet where
  link := .raw
  ip := .v4
    { ihl := 5
      bytes := [0x45, 0, 0, 29, 0, 0, 0, 0, 64, 17, 0, 0,
        10, 0, 0, 1, 10, 0, 0, 2]
      five_le := le_rfl
      le_fifteen := by decide
      length_eq := rfl
      first := rfl
      protocol := rfl }
  udp := { payload := [7], small := by decide }

/-- A section with one interface and one packet. -/
def onePacketSection (order : ByteOrder) : FileSection :=
  { order
    blocks := [.interface 101 0 0 [],
      .enhancedPacket 0 0 0 29 onePacket [0, 0, 0]] }

theorem wellFormed_onePacketSection (order : ByteOrder) :
    (onePacketSection order).WellFormed := by
  refine ⟨by cases order <;> decide, ⟨?_, ?_, ?_, ?_⟩, ⟨?_, ?_, ?_, ?_⟩,
    trivial⟩
  · cases order <;> decide
  · rintro _ _ _ _ _ _ ⟨⟩
  · rintro _ _ ⟨⟩
  · rintro _ _ ⟨⟩
  · cases order <;> decide
  · rintro _ _ _ _ _ _ ⟨⟩
    rfl
  · rintro _ _ ⟨⟩
  · rintro _ _ ⟨⟩

/-- A big-endian section without packets behind a little-endian one. -/
def packetAndEmptySection : List FileSection :=
  [onePacketSection .little, { order := .big, blocks := [] }]

theorem decodes_of_bigEndianHarmless_emptySection :
    Decodes {} (fileBytes packetAndEmptySection) [[7]] := by
  have hempty : FileSection.WellFormed { order := .big, blocks := [] } :=
    ⟨by decide, trivial⟩
  have hfile : ∀ x ∈ packetAndEmptySection, x.WellFormed := by
    simp [packetAndEmptySection, wellFormed_onePacketSection, hempty]
  have hharmless : BigEndianHarmless packetAndEmptySection :=
    .inr ⟨[onePacketSection .little], _, [], rfl,
      by simp [onePacketSection], rfl, .inr (by decide), rfl⟩
  exact (decodes_of_bigEndianHarmless {} rfl packetAndEmptySection
    (by simp [packetAndEmptySection]) hfile).1 hharmless

/-- The same file in big-endian order is not read. -/
theorem not_decodes_bigEndian :
    (onePacketSection .big).WellFormed ∧
      ¬Decodes {} (fileBytes [onePacketSection .big]) [[7]] := by
  refine ⟨wellFormed_onePacketSection .big, fun h => ?_⟩
  have hmisread : (onePacketSection .big).misreadLength < 12 ∨
      (fileBytes [onePacketSection .big]).length <
        (onePacketSection .big).misreadLength := .inr (by decide)
  have hbefore : ∀ y ∈ ([] : List FileSection),
      y.WellFormed ∧ y.order = .little := by simp
  have hnone := (decodes_iff_bigEndian rfl hbefore rfl hmisread).mp h
  exact absurd hnone (by decide)

end PcapReader

end Itch.Transport
