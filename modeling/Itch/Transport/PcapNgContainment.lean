import Itch.Transport.PcapNg

/-!
# Where the frames of a pcapng file lie

§1 takes the walk over the blocks apart: which blocks are visited, and what
each of them hands to `handle_frame`; `read_pcapng` is the run over these
calls. §2 says when every frame lies in the body of its block, and what
another file with the same beginning then yields.
-/

namespace Itch.Transport

open ByteCursor Transducer

namespace PcapReader

/-! ## §1  Blocks and their frames -/

/-- A block that the walk visits, with what is then known of its section. -/
structure VisitedBlock where
  offset : ℕ
  type : UInt32
  totalLength : ℕ
  sect : Section

/-- A call of `handle_frame`, with the offset of its frame in the file. -/
structure FrameCall where
  start : ℕ
  frame : List UInt8
  linkType : UInt32

namespace VisitedBlock

/-- The offset behind the block. -/
def last (b : VisitedBlock) : ℕ := b.offset + b.totalLength

/-- The block is as long as the loop requires and ends in the file. -/
structure InFile (capture : List UInt8) (b : VisitedBlock) : Prop where
  min : BLOCK_HEADER_SIZE + 4 ≤ b.totalLength
  last_le : b.last ≤ capture.length

/-- What is known of the section behind the block. -/
def nextSection (capture : List UInt8) (b : VisitedBlock) : Checked Section :=
  if b.type = PCAPNG_BLOCK_SHB then do
    let bomNative ←
      readLeOrBe UInt32 capture (b.offset + BOM_OFFSET) false
    return { swapped := bomNative != BOM_LITTLE }
  else if b.type = BLOCK_IDB then do
    let linkType ← readLeOrBe UInt16 capture
      (b.offset + BLOCK_HEADER_SIZE) b.sect.swapped
    return { b.sect with
      interfaceLinkTypes :=
        b.sect.interfaceLinkTypes ++ [linkType.toUInt32] }
  else some b.sect

def interfaceId (capture : List UInt8) (b : VisitedBlock) : Checked UInt32 :=
  readLeOrBe UInt32 capture (b.offset + EPB_IFACE_OFFSET)
    b.sect.swapped

def capturedLength (capture : List UInt8) (b : VisitedBlock) :
    Checked UInt32 :=
  readLeOrBe UInt32 capture (b.offset + EPB_CAPLEN_OFFSET)
    b.sect.swapped

/-- What an Enhanced Packet Block hands over. -/
def enhancedCall (capture : List UInt8) (b : VisitedBlock) :
    Option FrameCall :=
  if b.totalLength ≥ EPB_DATA_OFFSET + 4 then do
    let iface ← b.interfaceId capture
    let capLen ← b.capturedLength capture
    let start := b.offset + EPB_DATA_OFFSET
    if start + capLen.toNat ≤ capture.length then
      let linkType ← b.sect.interfaceLinkTypes[iface.toNat]?
      return ⟨start, (capture.drop start).take capLen.toNat, linkType⟩
    else none
  else none

/-- What a Simple Packet Block hands over. -/
def simpleCall (capture : List UInt8) (b : VisitedBlock) :
    Option FrameCall :=
  if b.totalLength ≥ SPB_DATA_OFFSET + 4 then do
    let linkType ← b.sect.interfaceLinkTypes.head?
    let start := b.offset + SPB_DATA_OFFSET
    let dataLen := b.totalLength - SPB_DATA_OFFSET - 4
    return ⟨start, (capture.drop start).take dataLen, linkType⟩
  else none

def frameCall (capture : List UInt8) (b : VisitedBlock) : Option FrameCall :=
  if b.type = BLOCK_EPB then b.enhancedCall capture
  else if b.type = BLOCK_SPB then b.simpleCall capture
  else none

/-- The header of the block and the fixed fields of its type. -/
def fixedSize (b : VisitedBlock) : ℕ :=
  if b.type = BLOCK_EPB then EPB_DATA_OFFSET
  else SPB_DATA_OFFSET

/-- The frame is made of bytes of the file behind the fixed fields and before
the length that ends the block. -/
structure InBody (capture : List UInt8) (b : VisitedBlock)
    (call : FrameCall) : Prop where
  holds : Holds capture call.start call.frame
  le_start : b.offset + b.fixedSize ≤ call.start
  end_le : call.start + call.frame.length + 4 ≤ b.last

/-- The captured length of an Enhanced Packet Block, where it is one that
is not refused, leaves room for the other fields in the block. -/
def CaptureFits (capture : List UInt8) (b : VisitedBlock) : Prop :=
  b.type = BLOCK_EPB →
    EPB_DATA_OFFSET + 4 ≤ b.totalLength →
    ∀ iface capLen, b.interfaceId capture = some iface →
      b.capturedLength capture = some capLen →
      iface.toNat < b.sect.interfaceLinkTypes.length →
      b.offset + EPB_DATA_OFFSET + capLen.toNat ≤ capture.length →
      EPB_DATA_OFFSET + capLen.toNat + 4 ≤ b.totalLength

end VisitedBlock

/-- The block that stands at `offset` in the section `s`, if the loop does
not end there. -/
def blockAt (capture : List UInt8) (s : Section) (offset : ℕ) :
    Option VisitedBlock :=
  if offset + BLOCK_HEADER_SIZE ≤ capture.length then do
    let blockType ← readLeOrBe UInt32 capture offset false
    let blockSwapped :=
      if blockType = PCAPNG_BLOCK_SHB then false else s.swapped
    let totalLength ← readLeOrBe UInt32 capture (offset + 4) blockSwapped
    if totalLength.toNat < BLOCK_HEADER_SIZE + 4 ∨
        offset + totalLength.toNat > capture.length then
      none
    else return ⟨offset, blockType, totalLength.toNat, s⟩
  else none

theorem blockAt_eq_some {capture : List UInt8} {s : Section} {offset : ℕ}
    {b : VisitedBlock} (h : blockAt capture s offset = some b) :
    b.offset = offset ∧ b.sect = s ∧ b.InFile capture := by
  unfold blockAt at h
  split at h
  · obtain ⟨blockType, -, h⟩ := Option.bind_eq_some_iff.mp h
    obtain ⟨totalLength, -, h⟩ := Option.bind_eq_some_iff.mp h
    split at h
    · cases h
    · rename_i hguard
      rw [not_or, not_lt, not_lt] at hguard
      cases h
      exact ⟨rfl, rfl, hguard.1, hguard.2⟩
  · cases h

/-- The blocks that the loop of `read_pcapng` visits. -/
def visitedFrom (capture : List UInt8) (s : Section) (offset : ℕ) :
    List VisitedBlock :=
  match _hb : blockAt capture s offset with
  | none => []
  | some b =>
      b :: match b.nextSection capture with
        | none => []
        | some s => visitedFrom capture s b.last
termination_by capture.length - offset
decreasing_by
  obtain ⟨rfl, -, hmin, hle⟩ := blockAt_eq_some _hb
  simp only [VisitedBlock.last, BLOCK_HEADER_SIZE] at *
  omega

def visitedBlocks (capture : List UInt8) : List VisitedBlock :=
  visitedFrom capture {} 0

def frameCalls (capture : List UInt8) (blocks : List VisitedBlock) :
    List FrameCall :=
  blocks.filterMap (VisitedBlock.frameCall capture)

/-- `handle_frame` at a call. -/
def handleCall (r : PcapReader) (call : FrameCall) :
    PcapReader × List PcapEvent :=
  r.handled call.frame call.linkType

variable {capture capture' : List UInt8} {s : Section} {offset : ℕ}
  {b : VisitedBlock}

theorem exists_fields (hb : b.InFile capture)
    (hmin : EPB_DATA_OFFSET + 4 ≤ b.totalLength) :
    ∃ iface capLen, b.interfaceId capture = some iface ∧
      b.capturedLength capture = some capLen := by
  have hfit : b.offset + 32 ≤ capture.length :=
    (Nat.add_le_add_left hmin b.offset).trans hb.last_le
  obtain ⟨iface, hiface⟩ : ∃ iface, b.interfaceId capture = some iface :=
    exists_readLeOrBe UInt32 b.sect.swapped
      ((show b.offset + 8 + 4 ≤ b.offset + 32 by omega).trans hfit)
  obtain ⟨capLen, hcapLen⟩ : ∃ capLen, b.capturedLength capture =
      some capLen :=
    exists_readLeOrBe UInt32 b.sect.swapped
      ((show b.offset + 20 + 4 ≤ b.offset + 32 by omega).trans hfit)
  exact ⟨iface, capLen, hiface, hcapLen⟩

theorem enhancedCall_eq {iface capLen : UInt32}
    (hmin : EPB_DATA_OFFSET + 4 ≤ b.totalLength)
    (hiface : b.interfaceId capture = some iface)
    (hcapLen : b.capturedLength capture = some capLen) :
    b.enhancedCall capture =
      if b.offset + EPB_DATA_OFFSET + capLen.toNat ≤ capture.length then
        b.sect.interfaceLinkTypes[iface.toNat]?.map
          (⟨b.offset + EPB_DATA_OFFSET,
            (capture.drop (b.offset + EPB_DATA_OFFSET)).take capLen.toNat,
            ·⟩)
      else none := by
  rw [VisitedBlock.enhancedCall, if_pos hmin, hiface, hcapLen]
  dsimp only [Option.bind_eq_bind, Option.bind_some]
  cases b.sect.interfaceLinkTypes[iface.toNat]? <;> rfl

theorem readEnhancedPacket_eq (hb : b.InFile capture) (r : PcapReader) :
    readEnhancedPacket capture b.offset b.totalLength b.sect r =
      some (run handleCall r (b.enhancedCall capture).toList) := by
  rw [readEnhancedPacket]
  by_cases hmin : b.totalLength ≥ EPB_DATA_OFFSET + 4
  · obtain ⟨iface, capLen, hiface, hcapLen⟩ := exists_fields hb hmin
    rw [if_pos hmin, enhancedCall_eq hmin hiface hcapLen]
    rw [VisitedBlock.interfaceId] at hiface
    rw [VisitedBlock.capturedLength] at hcapLen
    rw [hiface, hcapLen]
    dsimp only [Option.bind_eq_bind, Option.bind_some]
    by_cases hdata : b.offset + EPB_DATA_OFFSET + capLen.toNat ≤
        capture.length
    · rw [if_pos hdata]
      by_cases hlink : iface.toNat < b.sect.interfaceLinkTypes.length
      · rw [if_pos ⟨hdata, hlink⟩, subspanOf_eq hdata,
          List.getElem?_eq_getElem hlink]
        dsimp only [Option.bind_some, Option.map_some]
        rw [handleFrame_eq]
        simp [handleCall, run_cons]
      · rw [if_neg (fun h => hlink h.2),
          List.getElem?_eq_none (not_lt.mp hlink)]
        rfl
    · rw [if_neg (fun h => hdata h.1), if_neg hdata]
      rfl
  · rw [if_neg hmin, VisitedBlock.enhancedCall, if_neg hmin]
    rfl

theorem readSimplePacket_eq (hb : b.InFile capture) (r : PcapReader) :
    readSimplePacket capture b.offset b.totalLength b.sect r =
      some (run handleCall r (b.simpleCall capture).toList) := by
  have hle : b.offset + b.totalLength ≤ capture.length := hb.last_le
  rw [readSimplePacket, VisitedBlock.simpleCall]
  by_cases hmin : b.totalLength ≥ SPB_DATA_OFFSET + 4
  · have hdata : b.offset + SPB_DATA_OFFSET +
        (b.totalLength - SPB_DATA_OFFSET - 4) ≤ capture.length := by
      omega
    rw [if_pos hmin]
    dsimp only [Option.bind_eq_bind]
    cases hlinks : b.sect.interfaceLinkTypes with
    | nil =>
        rw [if_neg (fun h => h.2 rfl)]
        rfl
    | cons linkType links =>
        rw [if_pos ⟨hmin, List.cons_ne_nil _ _⟩, subspanOf_eq hdata]
        dsimp only [Option.bind_some, List.head?_cons]
        rw [handleFrame_eq]
        simp [handleCall, run_cons]
  · rw [if_neg (fun h => hmin h.1), if_neg hmin]
    rfl

/-- A block changes what is known of the section, or it hands over a frame. -/
theorem readBlock_eq (hb : b.InFile capture) (r : PcapReader) :
    readBlock capture b.offset b.type b.totalLength b.sect r =
      (b.nextSection capture).map fun s =>
        (s, run handleCall r (b.frameCall capture).toList) := by
  have hmin : 12 ≤ b.totalLength := hb.min
  have hle : b.offset + b.totalLength ≤ capture.length := hb.last_le
  rw [readBlock, VisitedBlock.nextSection, VisitedBlock.frameCall]
  by_cases hshb : b.type = PCAPNG_BLOCK_SHB
  · obtain ⟨bom, hbom⟩ : ∃ bom, readNet UInt32 capture
        (b.offset + BOM_OFFSET) = some bom :=
      exists_readNet UInt32
        ((show b.offset + 8 + 4 ≤ b.offset + b.totalLength by omega).trans
          hle)
    rw [if_pos hshb, if_pos hshb, hbom, hshb, if_neg (by decide),
      if_neg (by decide)]
    dsimp only [Option.bind_eq_bind, Option.bind_some]
    cases readLeOrBe UInt32 capture (b.offset + BOM_OFFSET) false <;> rfl
  rw [if_neg hshb, if_neg hshb]
  by_cases hidb : b.type = BLOCK_IDB
  · rw [if_pos hidb, if_pos hidb, hidb, if_neg (by decide),
      if_neg (by decide)]
    dsimp only [Option.bind_eq_bind]
    cases readLeOrBe UInt16 capture (b.offset + BLOCK_HEADER_SIZE)
      b.sect.swapped <;> rfl
  rw [if_neg hidb, if_neg hidb]
  by_cases hepb : b.type = BLOCK_EPB
  · rw [if_pos hepb, if_pos hepb, readEnhancedPacket_eq hb r]
    rfl
  rw [if_neg hepb, if_neg hepb]
  by_cases hspb : b.type = BLOCK_SPB
  · rw [if_pos hspb, if_pos hspb, readSimplePacket_eq hb r]
    rfl
  · rw [if_neg hspb, if_neg hspb]
    rfl

theorem exists_nextSection (hb : b.InFile capture) :
    ∃ s', b.nextSection capture = some s' := by
  have hmin : 12 ≤ b.totalLength := hb.min
  have hfit : b.offset + 12 ≤ capture.length :=
    (Nat.add_le_add_left hmin b.offset).trans hb.last_le
  unfold VisitedBlock.nextSection
  split
  · obtain ⟨bom, hbom⟩ : ∃ bom, readLeOrBe UInt32 capture
        (b.offset + BOM_OFFSET) false = some bom :=
      exists_readLeOrBe UInt32 false hfit
    rw [hbom]
    exact ⟨_, rfl⟩
  · split
    · obtain ⟨linkType, hlink⟩ : ∃ linkType, readLeOrBe UInt16 capture
          (b.offset + BLOCK_HEADER_SIZE) b.sect.swapped = some linkType :=
        exists_readLeOrBe UInt16 b.sect.swapped
          ((show b.offset + 8 + 2 ≤ b.offset + 12 by omega).trans hfit)
      rw [hlink]
      exact ⟨_, rfl⟩
    · exact ⟨_, rfl⟩

theorem visitedFrom_none (h : blockAt capture s offset = none) :
    visitedFrom capture s offset = [] := by
  rw [visitedFrom]
  split
  · rfl
  · rename_i hb
    rw [h] at hb
    cases hb

theorem visitedFrom_some {s' : Section}
    (h : blockAt capture s offset = some b)
    (hnext : b.nextSection capture = some s') :
    visitedFrom capture s offset = b :: visitedFrom capture s' b.last := by
  rw [visitedFrom]
  split
  · rename_i hb
    rw [h] at hb
    cases hb
  · rename_i b' hb
    obtain rfl : b = b' := Option.some.inj (h.symm.trans hb)
    rw [hnext]

/-- Induction along the blocks of a file. -/
theorem visitedFrom_induction (capture : List UInt8)
    {P : Section → ℕ → List VisitedBlock → Prop}
    (stop : ∀ s offset, blockAt capture s offset = none → P s offset [])
    (block : ∀ b s', blockAt capture b.sect b.offset = some b →
      b.InFile capture → b.nextSection capture = some s' →
      P s' b.last (visitedFrom capture s' b.last) →
      P b.sect b.offset (b :: visitedFrom capture s' b.last))
    (s : Section) (offset : ℕ) :
    P s offset (visitedFrom capture s offset) := by
  induction hn : capture.length - offset using Nat.strong_induction_on
    generalizing s offset with
  | _ n ih =>
    cases hb : blockAt capture s offset with
    | none =>
        rw [visitedFrom_none hb]
        exact stop s offset hb
    | some b =>
        obtain ⟨rfl, rfl, hfile⟩ := blockAt_eq_some hb
        obtain ⟨s', hnext⟩ := exists_nextSection hfile
        rw [visitedFrom_some hb hnext]
        refine block b s' hb hfile hnext (ih _ ?_ s' b.last rfl)
        -- the rest of the file gets shorter
        have hmin : 12 ≤ b.totalLength := hfile.min
        have hle := hfile.last_le
        simp only [VisitedBlock.last] at hle ⊢
        omega

theorem readBlocks_eq_blockAt (capture : List UInt8) (s : Section)
    (r : PcapReader) (offset : ℕ) :
    readBlocks capture s r offset =
      match blockAt capture s offset with
      | none => some (r, [])
      | some b => do
          let (s, r, events) ←
            readBlock capture b.offset b.type b.totalLength b.sect r
          let (r, events') ← readBlocks capture s r b.last
          return (r, events ++ events') := by
  rw [readBlocks, blockAt]
  by_cases hlen : offset + BLOCK_HEADER_SIZE ≤ capture.length
  · have hsize : offset + 8 ≤ capture.length := hlen
    obtain ⟨blockType, htype⟩ : ∃ blockType, readLeOrBe UInt32 capture
        offset false = some blockType :=
      exists_readLeOrBe UInt32 false
        ((show offset + 4 ≤ offset + 8 by omega).trans hsize)
    rw [if_pos hlen, if_pos hlen, htype]
    dsimp only [Option.bind_eq_bind, Option.bind_some]
    generalize (if blockType = PCAPNG_BLOCK_SHB then false
      else s.swapped) = swapped
    obtain ⟨totalLength, htotal⟩ : ∃ totalLength, readLeOrBe UInt32 capture
        (offset + 4) swapped = some totalLength :=
      exists_readLeOrBe UInt32 swapped hsize
    rw [htotal]
    dsimp only [Option.bind_some]
    split <;> rfl
  · rw [if_neg hlen, if_neg hlen]
    rfl

theorem frameCalls_cons (capture : List UInt8) (b : VisitedBlock)
    (blocks : List VisitedBlock) :
    frameCalls capture (b :: blocks) =
      (b.frameCall capture).toList ++ frameCalls capture blocks := by
  cases hcall : b.frameCall capture with
  | none =>
      rw [frameCalls, List.filterMap_cons_none hcall]
      rfl
  | some call =>
      rw [frameCalls, List.filterMap_cons_some hcall]
      rfl

/-- The loop is a run over the frames of the blocks that are visited. -/
theorem readBlocks_eq_run (capture : List UInt8) (s : Section) (offset : ℕ) :
    ∀ r, readBlocks capture s r offset = some (run handleCall r
      (frameCalls capture (visitedFrom capture s offset))) := by
  refine visitedFrom_induction capture (P := fun s offset blocks => ∀ r,
    readBlocks capture s r offset =
      some (run handleCall r (frameCalls capture blocks))) ?_ ?_ s offset
  · intro s offset hstop r
    rw [readBlocks_eq_blockAt, hstop]
    rfl
  · intro b s' hb hfile hnext ih r
    rw [readBlocks_eq_blockAt, hb]
    dsimp only [Option.bind_eq_bind]
    rw [readBlock_eq hfile, hnext, Option.map_some, Option.bind_some]
    dsimp only
    rw [ih, Option.bind_some]
    rw [frameCalls_cons, run_append]
    rfl

/-! ## §2  Containment -/

/-- Every frame of the file lies in the body of its block. -/
def Contained (capture : List UInt8) : Prop :=
  ∀ b ∈ visitedBlocks capture, ∀ call, b.frameCall capture = some call →
    b.InBody capture call

def CapturesFit (capture : List UInt8) : Prop :=
  ∀ b ∈ visitedBlocks capture, b.CaptureFits capture

theorem inFile_of_mem (capture : List UInt8) (s : Section) (offset : ℕ) :
    ∀ b ∈ visitedFrom capture s offset, b.InFile capture := by
  refine visitedFrom_induction capture
    (P := fun _ _ blocks => ∀ b ∈ blocks, b.InFile capture) ?_ ?_ s offset
  · intro _ _ _ b hb
    cases hb
  · intro b s' _ hfile _ ih
    exact List.forall_mem_cons.mpr ⟨hfile, ih⟩

/-- A window of the file is as long as it should be. -/
theorem holds_window {start count : ℕ}
    (h : start + count ≤ capture.length) :
    Holds capture start ((capture.drop start).take count) ∧
      ((capture.drop start).take count).length = count := by
  constructor
  · refine holds_of_drop (List.take_append_drop count _).symm ?_
    exact (Nat.le_add_right start count).trans h
  · rw [List.length_take, List.length_drop]
    omega

theorem inBody_simpleCall (hb : b.InFile capture)
    (hepb : b.type ≠ BLOCK_EPB) {call : FrameCall}
    (h : b.simpleCall capture = some call) : b.InBody capture call := by
  have hle : b.offset + b.totalLength ≤ capture.length := hb.last_le
  unfold VisitedBlock.simpleCall at h
  split at h
  · rename_i hmin
    obtain ⟨linkType, -, h⟩ := Option.bind_eq_some_iff.mp h
    cases h
    -- the length of the frame is what the block has left
    have hdata : b.offset + SPB_DATA_OFFSET +
        (b.totalLength - SPB_DATA_OFFSET - 4) ≤ capture.length := by
      omega
    obtain ⟨hholds, hlen⟩ := holds_window hdata
    refine ⟨hholds, ?_, ?_⟩
    · rw [VisitedBlock.fixedSize, if_neg hepb]
    · dsimp only
      rw [hlen, VisitedBlock.last]
      omega
  · cases h

theorem inBody_iff_captureFits (hb : b.InFile capture) :
    (∀ call, b.frameCall capture = some call → b.InBody capture call) ↔
      b.CaptureFits capture := by
  by_cases hepb : b.type = BLOCK_EPB
  · have hcalls : b.frameCall capture = b.enhancedCall capture := if_pos hepb
    rw [hcalls]
    constructor
    · intro h _ hmin iface capLen hiface hcapLen hlink hdata
      obtain ⟨-, hlen⟩ := holds_window hdata
      have hend := (h _ (by rw [enhancedCall_eq hmin hiface hcapLen,
        if_pos hdata, List.getElem?_eq_getElem hlink]; rfl)).end_le
      dsimp only at hend
      rw [hlen, VisitedBlock.last] at hend
      omega
    · intro hfit call hcall
      by_cases hmin : EPB_DATA_OFFSET + 4 ≤ b.totalLength
      · obtain ⟨iface, capLen, hiface, hcapLen⟩ := exists_fields hb hmin
        rw [enhancedCall_eq hmin hiface hcapLen] at hcall
        split at hcall
        · rename_i hdata
          obtain ⟨linkType, hlink, rfl⟩ := Option.map_eq_some_iff.mp hcall
          obtain ⟨hindex, -⟩ := List.getElem?_eq_some_iff.mp hlink
          have hroom :=
            hfit hepb hmin iface capLen hiface hcapLen hindex hdata
          obtain ⟨hholds, hlen⟩ := holds_window hdata
          refine ⟨hholds, ?_, ?_⟩
          · rw [VisitedBlock.fixedSize, if_pos hepb]
          · dsimp only
            rw [hlen, VisitedBlock.last]
            omega
        · cases hcall
      · rw [VisitedBlock.enhancedCall, if_neg hmin] at hcall
        cases hcall
  · have hnone : b.CaptureFits capture := fun h => absurd h hepb
    refine iff_of_true (fun call hcall => ?_) hnone
    rw [VisitedBlock.frameCall, if_neg hepb] at hcall
    split at hcall
    · exact inBody_simpleCall hb hepb hcall
    · cases hcall

theorem contained_iff : Contained capture ↔ CapturesFit capture :=
  forall₂_congr fun b hb =>
    inBody_iff_captureFits (inFile_of_mem capture {} 0 b hb)

/-! ### Files that agree up to the end of a block -/

theorem readLeOrBe_congr (UintType : Type) [Word UintType] {m : ℕ}
    (swapped : Bool) (hn : offset + Word.width UintType ≤ m)
    (hm : m ≤ capture.length) (hsame : capture'.take m = capture.take m) :
    readLeOrBe UintType capture' offset swapped =
      readLeOrBe UintType capture offset swapped :=
  (consumes_map _ (consumes_take _)).readAt_congr hn hm hsame

theorem nextSection_congr (hb : b.InFile capture)
    (hsame : capture'.take b.last = capture.take b.last) :
    b.nextSection capture' = b.nextSection capture := by
  have hmin : 12 ≤ b.totalLength := hb.min
  have hbom : b.offset + BOM_OFFSET + 4 ≤ b.last :=
    Nat.add_le_add_left hmin b.offset
  have hlink : b.offset + BLOCK_HEADER_SIZE + 2 ≤ b.last :=
    Nat.add_le_add_left ((show 8 + 2 ≤ 12 by decide).trans hmin) b.offset
  rw [VisitedBlock.nextSection, VisitedBlock.nextSection,
    readLeOrBe_congr UInt32 false hbom hb.last_le hsame,
    readLeOrBe_congr UInt16 b.sect.swapped hlink hb.last_le hsame]

theorem blockAt_congr (h : blockAt capture s offset = some b)
    (hsame : capture'.take b.last = capture.take b.last) :
    blockAt capture' s offset = some b := by
  obtain ⟨rfl, rfl, hfile⟩ := blockAt_eq_some h
  have hmin : 12 ≤ b.totalLength := hfile.min
  have hsize : b.offset + 12 ≤ b.last := Nat.add_le_add_left hmin b.offset
  have hle' := le_length_of_take hfile.last_le hsame
  have hread {at' : ℕ} (swapped : Bool) (hat : at' + 4 ≤ b.offset + 12) :
      readLeOrBe UInt32 capture' at' swapped =
        readLeOrBe UInt32 capture at' swapped :=
    readLeOrBe_congr UInt32 swapped (hat.trans hsize) hfile.last_le hsame
  rw [blockAt, if_pos (by
    simp only [BLOCK_HEADER_SIZE]
    exact hfile.last_le.trans' ((by omega : _ ≤ _).trans hsize))] at h
  rw [blockAt, if_pos (by
    simp only [BLOCK_HEADER_SIZE]
    exact hle'.trans' ((by omega : _ ≤ _).trans hsize))]
  obtain ⟨blockType, htype, h⟩ := Option.bind_eq_some_iff.mp h
  obtain ⟨totalLength, htotal, h⟩ := Option.bind_eq_some_iff.mp h
  split at h
  · cases h
  · rename_i hguard
    rw [hread false (by omega), htype]
    dsimp only [Option.bind_eq_bind, Option.bind_some]
    rw [hread _ (by omega), htotal]
    dsimp only [Option.bind_some]
    -- the block ends in both files
    rw [if_neg]
    · exact h
    · rintro (hshort | hlong)
      · exact hguard (.inl hshort)
      · have htot : totalLength.toNat = b.totalLength :=
          congrArg VisitedBlock.totalLength (Option.some.inj h)
        rw [htot] at hlong
        exact absurd hle' (not_le.mpr hlong)

theorem simpleCall_congr
    (hsame : capture'.take b.last = capture.take b.last) :
    b.simpleCall capture' = b.simpleCall capture := by
  rw [VisitedBlock.simpleCall, VisitedBlock.simpleCall]
  by_cases hmin : b.totalLength ≥ SPB_DATA_OFFSET + 4
  · have hdata : b.offset + SPB_DATA_OFFSET +
        (b.totalLength - SPB_DATA_OFFSET - 4) ≤ b.last := by
      simp only [VisitedBlock.last]
      omega
    rw [if_pos hmin, if_pos hmin]
    dsimp only
    rw [window_eq_of_take hdata hsame]
  · rw [if_neg hmin, if_neg hmin]

/-- Where the captured length fits in both files, both hand over the same. -/
theorem enhancedCall_congr (hb : b.InFile capture)
    (hepb : b.type = BLOCK_EPB)
    (hsame : capture'.take b.last = capture.take b.last)
    (hfit : b.CaptureFits capture) (hfit' : b.CaptureFits capture') :
    b.enhancedCall capture' = b.enhancedCall capture := by
  have hle' := le_length_of_take hb.last_le hsame
  by_cases hmin : EPB_DATA_OFFSET + 4 ≤ b.totalLength
  · obtain ⟨iface, capLen, hiface, hcapLen⟩ := exists_fields hb hmin
    have hsize : b.offset + 32 ≤ b.last := Nat.add_le_add_left hmin b.offset
    have hiface' : b.interfaceId capture' = some iface :=
      (readLeOrBe_congr UInt32 b.sect.swapped
        ((show b.offset + 8 + 4 ≤ b.offset + 32 by omega).trans hsize)
        hb.last_le hsame).trans hiface
    have hcapLen' : b.capturedLength capture' = some capLen :=
      (readLeOrBe_congr UInt32 b.sect.swapped
        ((show b.offset + 20 + 4 ≤ b.offset + 32 by omega).trans hsize)
        hb.last_le hsame).trans hcapLen
    rw [enhancedCall_eq hmin hiface' hcapLen',
      enhancedCall_eq hmin hiface hcapLen]
    by_cases hlink : iface.toNat < b.sect.interfaceLinkTypes.length
    · by_cases hroom : EPB_DATA_OFFSET + capLen.toNat + 4 ≤ b.totalLength
      · have hdata : b.offset + EPB_DATA_OFFSET + capLen.toNat ≤ b.last := by
          simp only [VisitedBlock.last]
          omega
        rw [if_pos (hdata.trans hle'), if_pos (hdata.trans hb.last_le),
          window_eq_of_take hdata hsame]
      · -- a frame that does not fit is refused by both
        rw [if_neg, if_neg]
        · intro hdata
          exact hroom (hfit hepb hmin iface capLen hiface hcapLen hlink hdata)
        · intro hdata
          exact hroom
            (hfit' hepb hmin iface capLen hiface' hcapLen' hlink hdata)
    · rw [List.getElem?_eq_none (not_lt.mp hlink)]
      simp
  · rw [VisitedBlock.enhancedCall, VisitedBlock.enhancedCall, if_neg hmin,
      if_neg hmin]

theorem frameCall_congr (hb : b.InFile capture)
    (hsame : capture'.take b.last = capture.take b.last)
    (hfit : b.CaptureFits capture) (hfit' : b.CaptureFits capture') :
    b.frameCall capture' = b.frameCall capture := by
  rw [VisitedBlock.frameCall, VisitedBlock.frameCall]
  by_cases hepb : b.type = BLOCK_EPB
  · rw [if_pos hepb, if_pos hepb,
      enhancedCall_congr hb hepb hsame hfit hfit']
  · rw [if_neg hepb, if_neg hepb, simpleCall_congr hsame]

theorem offset_le_last_of_mem (capture : List UInt8) (s : Section)
    (offset : ℕ) : ∀ b ∈ visitedFrom capture s offset, offset ≤ b.last := by
  refine visitedFrom_induction capture
    (P := fun _ offset blocks => ∀ b ∈ blocks, offset ≤ b.last) ?_ ?_ s offset
  · intro _ _ _ b hb
    cases hb
  · intro b s' _ _ _ ih
    have hstart : b.offset ≤ b.last := Nat.le_add_right _ _
    refine List.forall_mem_cons.mpr ⟨hstart, fun x hx => ?_⟩
    exact hstart.trans (ih x hx)

/-- The blocks end one behind the other. -/
theorem pairwise_last (capture : List UInt8) (s : Section) (offset : ℕ) :
    (visitedFrom capture s offset).Pairwise (fun x y => x.last ≤ y.last) := by
  refine visitedFrom_induction capture (P := fun _ _ blocks =>
    blocks.Pairwise (fun x y => x.last ≤ y.last)) ?_ ?_ s offset
  · intro _ _ _
    exact List.Pairwise.nil
  · intro x s' _ _ _ ih
    refine List.pairwise_cons.mpr ⟨?_, ih⟩
    exact offset_le_last_of_mem capture s' x.last

theorem take_of_le {n m : ℕ} (h : n ≤ m)
    (hsame : capture'.take m = capture.take m) :
    capture'.take n = capture.take n := by
  have htake := congrArg (List.take n) hsame
  rwa [List.take_take, List.take_take, min_eq_left h] at htake

/-- The blocks up to `b` are visited in every file that agrees up to its
end. -/
theorem visitedFrom_congr (s : Section) (offset : ℕ) :
    ∀ pre post, visitedFrom capture s offset = pre ++ b :: post →
      capture'.take b.last = capture.take b.last →
      ∃ post', visitedFrom capture' s offset = pre ++ b :: post' := by
  refine visitedFrom_induction capture (P := fun s offset blocks =>
    ∀ pre post, blocks = pre ++ b :: post →
      capture'.take b.last = capture.take b.last →
      ∃ post', visitedFrom capture' s offset = pre ++ b :: post')
    ?_ ?_ s offset
  · intro _ _ _ pre post h
    exact absurd h (by simp)
  · intro x s' hx hfile hnext ih pre post h hsame
    cases pre with
    | nil =>
        obtain ⟨rfl, -⟩ := List.cons.inj h
        have hfile' : x.InFile capture' :=
          ⟨hfile.min, le_length_of_take hfile.last_le hsame⟩
        obtain ⟨s'', hnext'⟩ := exists_nextSection hfile'
        exact ⟨_, visitedFrom_some (blockAt_congr hx hsame) hnext'⟩
    | cons y pre =>
        obtain ⟨rfl, hrest⟩ := List.cons.inj h
        have hmem : b ∈ visitedFrom capture s' x.last := by
          rw [hrest]
          exact List.mem_append_right _ List.mem_cons_self
        have hsame' := take_of_le
          (offset_le_last_of_mem capture s' x.last b hmem) hsame
        obtain ⟨post', hpost⟩ := ih pre post hrest hsame
        have hnext' := (nextSection_congr hfile hsame').trans hnext
        refine ⟨post', ?_⟩
        rw [visitedFrom_some (blockAt_congr hx hsame') hnext', hpost]
        rfl

/-- The frames of the blocks up to `b` do not depend on what follows it. -/
theorem frameCalls_congr {pre post post' : List VisitedBlock}
    (hvisited : visitedBlocks capture = pre ++ b :: post)
    (hvisited' : visitedBlocks capture' = pre ++ b :: post')
    (hsame : capture'.take b.last = capture.take b.last)
    (hfit : CapturesFit capture) (hfit' : CapturesFit capture') :
    frameCalls capture' (pre ++ [b]) = frameCalls capture (pre ++ [b]) := by
  have hsorted := pairwise_last capture {} 0
  rw [← visitedBlocks, hvisited, List.pairwise_append] at hsorted
  refine List.filterMap_congr fun x hx => ?_
  have hlast : x.last ≤ b.last := by
    rcases List.mem_append.mp hx with hpre | hb
    · exact hsorted.2.2 x hpre b List.mem_cons_self
    · exact (congrArg VisitedBlock.last (List.mem_singleton.mp hb)).le
  have hmem : x ∈ visitedBlocks capture := by
    rw [hvisited, List.append_cons]
    exact List.mem_append_left _ hx
  have hmem' : x ∈ visitedBlocks capture' := by
    rw [hvisited', List.append_cons]
    exact List.mem_append_left _ hx
  exact frameCall_congr (inFile_of_mem capture {} 0 x hmem)
    (take_of_le hlast hsame) (hfit x hmem) (hfit' x hmem')

/-- The loop hands over the frames of the blocks it visits. They lie in their
blocks exactly if no captured length that is not refused exceeds its block,
and then the frames of a block do not depend on the bytes behind it. -/
theorem contained_iff_capturesFit (r : PcapReader) (capture : List UInt8) :
    r.readPcapng capture =
      some ((run handleCall r (frameCalls capture (visitedBlocks capture))).1,
        (run handleCall r (frameCalls capture (visitedBlocks capture))).2,
        true) ∧
    (Contained capture ↔ CapturesFit capture) ∧
    (Contained capture → ∀ capture', Contained capture' →
      ∀ pre b post, visitedBlocks capture = pre ++ b :: post →
        capture'.take b.last = capture.take b.last →
        (∃ post', visitedBlocks capture' = pre ++ b :: post') ∧
          run handleCall r (frameCalls capture' (pre ++ [b])) =
            run handleCall r (frameCalls capture (pre ++ [b]))) := by
  refine ⟨?_, contained_iff, ?_⟩
  · rw [readPcapng, readBlocks_eq_run]
    rfl
  · intro hin capture' hin' pre b post hvisited hsame
    obtain ⟨post', hvisited'⟩ := visitedFrom_congr {} 0 pre post hvisited hsame
    refine ⟨⟨post', hvisited'⟩, ?_⟩
    rw [frameCalls_congr hvisited hvisited' hsame (contained_iff.mp hin)
      (contained_iff.mp hin')]

deriving instance DecidableEq for Section, VisitedBlock, FrameCall

/-- A section with one interface and a packet block without data whose
captured length is eight, with a block of another type behind it. -/
def leakyCapture (next : UInt32) : List UInt8 :=
  fileBytes [{ order := .little, blocks := [.interface 101 0 0 [],
    .other BLOCK_EPB
      [0, 0, 0, 0, 0, 0, 0, 0, 0, 0, 0, 0, 8, 0, 0, 0, 8, 0, 0, 0],
    .other next []] }]

def leakyHeader : VisitedBlock := ⟨0, PCAPNG_BLOCK_SHB, 28, {}⟩

def leakyInterface : VisitedBlock := ⟨28, BLOCK_IDB, 20, {}⟩

def leakyPacket : VisitedBlock := ⟨48, BLOCK_EPB, 32, ⟨false, [101]⟩⟩

theorem mem_visitedBlocks_leakyCapture :
    leakyPacket ∈ visitedBlocks (leakyCapture 7) := by
  have hheader : blockAt (leakyCapture 7) {} 0 = some leakyHeader := by
    decide
  have hinterface : blockAt (leakyCapture 7) {} 28 = some leakyInterface := by
    decide
  have hpacket : blockAt (leakyCapture 7) ⟨false, [101]⟩ 48 =
      some leakyPacket := by
    decide
  have hsection : leakyHeader.nextSection (leakyCapture 7) = some {} := by
    decide
  have hlinks : leakyInterface.nextSection (leakyCapture 7) =
      some ⟨false, [101]⟩ := by
    decide
  have hnext : leakyPacket.nextSection (leakyCapture 7) =
      some ⟨false, [101]⟩ := by
    decide
  rw [visitedBlocks, visitedFrom_some hheader hsection]
  rw [show leakyHeader.last = 28 from rfl,
    visitedFrom_some hinterface hlinks]
  rw [show leakyInterface.last = 48 from rfl, visitedFrom_some hpacket hnext]
  simp

/-- The frame of a block ends in the block behind it, and another block there
makes it another frame. -/
theorem not_contained_leakyCapture :
    ¬Contained (leakyCapture 7) ∧
      frameCalls (leakyCapture 7) [leakyPacket] ≠
        frameCalls (leakyCapture 8) [leakyPacket] := by
  constructor
  · intro h
    have hcall : leakyPacket.frameCall (leakyCapture 7) =
        some ⟨76, [32, 0, 0, 0, 7, 0, 0, 0], 101⟩ := by
      decide
    have hin := h leakyPacket mem_visitedBlocks_leakyCapture _ hcall
    exact absurd hin.end_le (by decide)
  · decide

end PcapReader

end Itch.Transport
