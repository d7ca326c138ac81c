import Itch.Transport.PcapFrame

/-!
# Classic capture files

§1 writes files in either byte order and with either kind of timestamps. §2
reads words and frames back, §3 follows the loop over the records, with
`handle_frame` left open, and proves that a file yields its frames, also
where it is cut off.
-/

namespace Itch.Transport

open ByteCursor Transducer

/-! ## §1  Files -/

inductive ByteOrder
  | little
  | big
deriving DecidableEq

namespace ByteOrder

/-- Whether a little-endian host has to swap the bytes. -/
def swapped : ByteOrder → Bool
  | .little => false
  | .big => true

def put {α : Type} [Word α] (order : ByteOrder) (a : α) : List UInt8 :=
  match order with
  | .little => encodeLE (Word.width α) (Word.toNat a)
  | .big => encodeBE (Word.width α) (Word.toNat a)

theorem length_put {α : Type} [Word α] (order : ByteOrder) (a : α) :
    (order.put a).length = Word.width α := by
  cases order
  · exact length_encodeLE _ _
  · exact length_encodeBE _ _

end ByteOrder

/-- What the magic number says about the timestamps. -/
inductive TimestampUnit
  | micro
  | nano
deriving DecidableEq

def TimestampUnit.magic : TimestampUnit → UInt32
  | .micro => PCAP_MAGIC
  | .nano => PCAP_MAGIC_NANO

structure Record where
  tsSec : UInt32 := 0
  tsFraction : UInt32 := 0
  origLen : UInt32 := 0
  frame : List UInt8
  small : frame.length < 2 ^ 32

def Record.bytes (order : ByteOrder) (x : Record) : List UInt8 :=
  order.put x.tsSec ++ (order.put x.tsFraction ++
    (order.put (UInt32.ofNat x.frame.length) ++
      (order.put x.origLen ++ x.frame)))

structure ClassicFile where
  order : ByteOrder
  unit : TimestampUnit
  versionMajor : UInt16 := 2
  versionMinor : UInt16 := 4
  thisZone : UInt32 := 0
  sigFigs : UInt32 := 0
  snapLen : UInt32 := 65535
  network : UInt32
  records : List Record

namespace ClassicFile

/-- The global header. -/
def header (f : ClassicFile) : List UInt8 :=
  f.order.put f.unit.magic ++ (f.order.put f.versionMajor ++
    (f.order.put f.versionMinor ++ (f.order.put f.thisZone ++
      (f.order.put f.sigFigs ++ (f.order.put f.snapLen ++
        f.order.put f.network)))))

def body (f : ClassicFile) : List UInt8 :=
  f.records.flatMap (Record.bytes f.order)

def bytes (f : ClassicFile) : List UInt8 := f.header ++ f.body

end ClassicFile

/-- The records that are whole in the first `n` bytes. -/
def wholeRecords : ℕ → List Record → List Record
  | _, [] => []
  | n, x :: xs =>
      if 16 + x.frame.length ≤ n then
        x :: wholeRecords (n - (16 + x.frame.length)) xs
      else []

/-! ## §2  Words and frames -/

section Words

variable {α : Type} [Word α] {buffer : List UInt8} {offset : ℕ}

theorem inverts_fileWord (order : ByteOrder) (a : α) :
    Inverts (fileWord α order.swapped) (order.put a) a := by
  have h := inverts_map (fun bs => (Word.ofNat
      (if order.swapped then decodeBE bs.val else decodeLE bs.val) : α))
    (inverts_take ⟨order.put a, order.length_put a⟩)
  have hvalue : (Word.ofNat (if order.swapped then decodeBE (order.put a)
      else decodeLE (order.put a)) : α) = a := by
    cases order with
    | little =>
        show Word.ofNat (decodeLE (encodeLE _ _)) = a
        rw [decodeLE_encodeLE, Nat.mod_eq_of_lt (Word.toNat_lt a),
          Word.ofNat_toNat]
    | big => exact decodeBE_encodeBE_word a
  simp only [hvalue] at h
  exact h

theorem readLeOrBe_of_holds {order : ByteOrder} {a : α}
    (h : Holds buffer offset (order.put a)) :
    readLeOrBe α buffer offset order.swapped = some a :=
  h.readAt (inverts_fileWord order a)

end Words

theorem subspanOf_of_holds {buffer bs : List UInt8} {offset : ℕ}
    (h : Holds buffer offset bs) :
    subspanOf buffer offset bs.length = some bs := by
  rw [subspanOf, h.readAt (inverts_take ⟨bs, rfl⟩)]
  rfl

/-! ## §3  The loop over the records -/

namespace PcapReader

/-- `handle_frame`, none of whose reads is outside the frame. -/
def handled (r : PcapReader) (frame : List UInt8) (linkType : UInt32) :
    PcapReader × List PcapEvent :=
  (r.handleFrame frame linkType).get
    (Option.isSome_iff_exists.mpr (r.exists_handleFrame frame linkType))

theorem handleFrame_eq (r : PcapReader) (frame : List UInt8)
    (linkType : UInt32) :
    r.handleFrame frame linkType = some (r.handled frame linkType) :=
  (Option.some_get _).symm

section Walk

variable {σ ε : Type} (handle : σ → List UInt8 → UInt32 → σ × List ε)

/-- The loop of `read_classic_pcap`, where `handle` is called in place of
`handle_frame`. -/
def walkRecords (capture : List UInt8) (swapped : Bool) (linkType : UInt32)
    (s : σ) (offset : ℕ) : Checked (σ × List ε) :=
  if offset + RECORD_HEADER_SIZE ≤ capture.length then do
    let inclLen ←
      readLeOrBe UInt32 capture (offset + INCL_LEN_OFFSET) swapped
    let data := offset + RECORD_HEADER_SIZE
    if data + inclLen.toNat > capture.length then
      return (s, [])
    else
      let frame ← subspanOf capture data inclLen.toNat
      let (s, events) := handle s frame linkType
      let (s, events') ← walkRecords capture swapped linkType s
        (offset + RECORD_HEADER_SIZE + inclLen.toNat)
      return (s, events ++ events')
  else return (s, [])
termination_by capture.length - offset
decreasing_by simp only [RECORD_HEADER_SIZE] at *; omega

def walkClassic (s : σ) (capture : List UInt8) (swapped : Bool) :
    Checked (σ × List ε × Bool) :=
  if capture.length < GLOBAL_HEADER_SIZE then some (s, [], false)
  else do
    let linkType ← readLeOrBe UInt32 capture NETWORK_OFFSET swapped
    let (s, events) ←
      walkRecords handle capture swapped linkType s GLOBAL_HEADER_SIZE
    return (s, events, true)

end Walk

/-- A `handle_frame` that only notes what it is called with. -/
def noteCall (_ : Unit) (frame : List UInt8) (linkType : UInt32) :
    Unit × List (List UInt8 × UInt32) :=
  ((), [(frame, linkType)])

theorem readRecords_eq_walk (capture : List UInt8) (swapped : Bool)
    (linkType : UInt32) (r : PcapReader) (offset : ℕ) :
    readRecords capture swapped linkType r offset =
      walkRecords handled capture swapped linkType r offset := by
  induction hn : capture.length - offset using Nat.strong_induction_on
    generalizing r offset with
  | _ n ih =>
    rw [readRecords, walkRecords]
    by_cases hlen : offset + RECORD_HEADER_SIZE ≤ capture.length
    · rw [if_pos hlen, if_pos hlen]
      dsimp only [Option.bind_eq_bind]
      cases readLeOrBe UInt32 capture (offset + INCL_LEN_OFFSET) swapped with
      | none => rfl
      | some inclLen =>
          dsimp only [Option.bind_some]
          split
          · rfl
          · rename_i hdata
            cases subspanOf capture (offset + RECORD_HEADER_SIZE)
                inclLen.toNat with
            | none => rfl
            | some frame =>
                dsimp only [Option.bind_some]
                rw [handleFrame_eq, Option.bind_some, ih (capture.length -
                  (offset + RECORD_HEADER_SIZE + inclLen.toNat))
                  (by simp only [RECORD_HEADER_SIZE] at *; omega) _ _ rfl]
    · rw [if_neg hlen, if_neg hlen]

theorem readClassicPcap_eq_walk (r : PcapReader) (capture : List UInt8)
    (swapped : Bool) :
    r.readClassicPcap capture swapped =
      walkClassic handled r capture swapped := by
  rw [readClassicPcap, walkClassic]
  simp only [readRecords_eq_walk]

variable {σ ε : Type} {handle : σ → List UInt8 → UInt32 → σ × List ε}
  {capture : List UInt8} {offset : ℕ} {order : ByteOrder} {linkType : UInt32}

theorem length_recordBytes (order : ByteOrder) (x : Record) :
    (x.bytes order).length = 16 + x.frame.length := by
  simp only [Record.bytes, List.length_append, ByteOrder.length_put,
    Word.width]
  omega

/-- The loop at a whole record: its frame is handed over. -/
theorem walkRecords_whole {x : Record}
    (h : Holds capture offset (x.bytes order)) (s : σ) :
    walkRecords handle capture order.swapped linkType s offset =
      (walkRecords handle capture order.swapped linkType
        (handle s x.frame linkType).1
        (offset + (x.bytes order).length)).map fun o =>
          (o.1, (handle s x.frame linkType).2 ++ o.2) := by
  have hle := h.le_length
  obtain ⟨-, h⟩ := h.append
  obtain ⟨-, h⟩ := h.append
  obtain ⟨hincl, h⟩ := h.append
  obtain ⟨-, hframe⟩ := h.append
  simp only [ByteOrder.length_put, Word.width] at hincl hframe
  have hsize : (UInt32.ofNat x.frame.length).toNat = x.frame.length :=
    UInt32.toNat_ofNat_of_lt' x.small
  have hread : readLeOrBe UInt32 capture (offset + INCL_LEN_OFFSET)
      order.swapped = some (UInt32.ofNat x.frame.length) :=
    readLeOrBe_of_holds hincl
  have hdata : Holds capture (offset + RECORD_HEADER_SIZE) x.frame := hframe
  rw [length_recordBytes] at hle ⊢
  rw [walkRecords, if_pos (by simp only [RECORD_HEADER_SIZE]; omega), hread]
  dsimp only [Option.bind_eq_bind, Option.bind_some]
  rw [hsize, if_neg (by simp only [RECORD_HEADER_SIZE]; omega),
    subspanOf_of_holds hdata]
  dsimp only [Option.bind_some]
  rw [Nat.add_assoc offset, show RECORD_HEADER_SIZE = 16 from rfl]
  cases walkRecords handle capture order.swapped linkType
    (handle s x.frame linkType).1 (offset + (16 + x.frame.length)) <;> rfl

/-- The loop at a record that is cut off: it ends. -/
theorem walkRecords_cut {x : Record} {rest : List UInt8} {n : ℕ}
    (h : capture.drop offset = (x.bytes order ++ rest).take n)
    (hle : offset ≤ capture.length) (hcut : n < 16 + x.frame.length) (s : σ) :
    walkRecords handle capture order.swapped linkType s offset =
      some (s, []) := by
  have hlen := congrArg List.length h
  rw [List.length_drop, List.length_take, List.length_append,
    length_recordBytes] at hlen
  rw [walkRecords]
  by_cases hsize : offset + RECORD_HEADER_SIZE ≤ capture.length
  · -- the header of the record is there, its frame is not
    have hn : 12 ≤ n := by
      simp only [RECORD_HEADER_SIZE] at hsize
      omega
    have hsplit : x.bytes order ++ rest = (order.put x.tsSec ++
        (order.put x.tsFraction ++
          order.put (UInt32.ofNat x.frame.length))) ++
        (order.put x.origLen ++ (x.frame ++ rest)) := by
      simp only [Record.bytes, List.append_assoc]
    have hfields := h
    rw [hsplit, List.take_append, List.take_of_length_le (by
      simpa only [List.length_append, ByteOrder.length_put, Word.width]
        using hn)] at hfields
    have hincl := (holds_of_drop hfields hle).append.2.append.2
    simp only [ByteOrder.length_put, Word.width] at hincl
    have hvalue : (UInt32.ofNat x.frame.length).toNat = x.frame.length :=
      UInt32.toNat_ofNat_of_lt' x.small
    have hread : readLeOrBe UInt32 capture (offset + INCL_LEN_OFFSET)
        order.swapped = some (UInt32.ofNat x.frame.length) :=
      readLeOrBe_of_holds hincl
    rw [if_pos hsize, hread]
    dsimp only [Option.bind_eq_bind, Option.bind_some]
    rw [hvalue, if_pos (by simp only [RECORD_HEADER_SIZE] at *; omega)]
    rfl
  · rw [if_neg hsize]
    rfl

/-- The loop over records, of which the first `n` bytes are there. -/
theorem walkRecords_take {xs : List Record} {n : ℕ}
    (h : capture.drop offset = (xs.flatMap (Record.bytes order)).take n)
    (hle : offset ≤ capture.length) (s : σ) :
    walkRecords handle capture order.swapped linkType s offset =
      some (run (fun s frame => handle s frame linkType) s
        ((wholeRecords n xs).map Record.frame)) := by
  induction xs generalizing s offset n with
  | nil =>
      have hlen := congrArg List.length h
      rw [List.flatMap_nil, List.take_nil, List.length_drop,
        List.length_nil] at hlen
      rw [walkRecords, if_neg (by simp only [RECORD_HEADER_SIZE]; omega)]
      rfl
  | cons x xs ih =>
      rw [List.flatMap_cons] at h
      rw [wholeRecords]
      by_cases hwhole : 16 + x.frame.length ≤ n
      · have hlen := length_recordBytes order x
        rw [if_pos hwhole, List.map_cons, run_cons]
        rw [List.take_append, List.take_of_length_le (by omega), hlen] at h
        have hholds := holds_of_drop h hle
        have hrest : capture.drop (offset + (x.bytes order).length) =
            (xs.flatMap (Record.bytes order)).take
              (n - (16 + x.frame.length)) := by
          rw [← List.drop_drop, h, List.drop_left]
        rw [walkRecords_whole hholds, ih hrest hholds.le_length]
        rfl
      · rw [if_neg hwhole]
        exact walkRecords_cut h hle (not_le.mp hwhole) s

theorem isPrefix_wholeRecords (n : ℕ) (xs : List Record) :
    wholeRecords n xs <+: xs := by
  induction xs generalizing n with
  | nil => exact List.nil_prefix
  | cons x xs ih =>
      rw [wholeRecords]
      split
      · exact (List.prefix_cons_inj x).mpr (ih _)
      · exact List.nil_prefix

/-- The first records are whole in `n` bytes if they take no more. -/
theorem prefix_wholeRecords_iff {pre xs : List Record} (hpre : pre <+: xs)
    (n : ℕ) : pre <+: wholeRecords n xs ↔
      (pre.flatMap (Record.bytes order)).length ≤ n := by
  induction pre generalizing n xs with
  | nil => simp
  | cons x pre ih =>
      obtain ⟨rest, rfl⟩ := hpre
      rw [List.cons_append, wholeRecords, List.flatMap_cons,
        List.length_append, length_recordBytes]
      split
      · rw [List.prefix_cons_inj, ih (List.prefix_append pre rest)]
        omega
      · refine iff_of_false (by simp) ?_
        omega

theorem wholeRecords_all (f : ClassicFile) :
    wholeRecords f.body.length f.records = f.records := by
  have hall : f.records <+: wholeRecords f.body.length f.records :=
    (prefix_wholeRecords_iff (List.prefix_refl f.records) _).mpr le_rfl
  exact (isPrefix_wholeRecords _ _).eq_of_length_le hall.length_le

/-- Reading `capture` is calling `handle_frame` with `frames`, in order and
with that link type. -/
structure Replays (r : PcapReader) (capture : List UInt8) (swapped : Bool)
    (frames : List (List UInt8)) (linkType : UInt32) : Prop where
  walks : r.read capture = walkClassic handled r capture swapped
  calls : walkClassic noteCall () capture swapped =
    some ((), frames.map fun frame => (frame, linkType), true)
  result : r.read capture =
    some ((run (fun r frame => r.handled frame linkType) r frames).1,
      (run (fun r frame => r.handled frame linkType) r frames).2, true)

theorem length_header (f : ClassicFile) :
    f.header.length = GLOBAL_HEADER_SIZE := by
  simp only [ClassicFile.header, List.length_append, ByteOrder.length_put,
    Word.width]
  rfl

theorem walkClassic_take (f : ClassicFile) (n : ℕ) (s : σ) :
    walkClassic handle s (f.header ++ f.body.take n) f.order.swapped =
      some ((run (fun s frame => handle s frame f.network) s
          ((wholeRecords n f.records).map Record.frame)).1,
        (run (fun s frame => handle s frame f.network) s
          ((wholeRecords n f.records).map Record.frame)).2, true) := by
  have hheader := length_header f
  have hlen : (f.header ++ f.body.take n).length =
      GLOBAL_HEADER_SIZE + (f.body.take n).length := by
    rw [List.length_append, hheader]
  have hholds := holds_zero f.header (f.body.take n)
  have hnetwork := hholds.append.2.append.2.append.2.append.2.append.2.append.2
  simp only [ByteOrder.length_put, Word.width] at hnetwork
  have hread : readLeOrBe UInt32 (f.header ++ f.body.take n) NETWORK_OFFSET
      f.order.swapped = some f.network := readLeOrBe_of_holds hnetwork
  have hrest : (f.header ++ f.body.take n).drop GLOBAL_HEADER_SIZE =
      (f.records.flatMap (Record.bytes f.order)).take n :=
    List.drop_left' hheader
  rw [walkClassic, if_neg (by omega), hread]
  dsimp only [Option.bind_eq_bind, Option.bind_some]
  rw [walkRecords_take hrest (by omega)]
  rfl

/-- The magic number tells the format and the byte order. -/
theorem read_header (r : PcapReader) (f : ClassicFile) (rest : List UInt8) :
    r.read (f.header ++ rest) =
      r.readClassicPcap (f.header ++ rest) f.order.swapped := by
  have hmagic := (holds_zero f.header rest).append.1
  have hlen : ¬ (f.header ++ rest).length < 4 := by
    rw [List.length_append, length_header]
    simp only [GLOBAL_HEADER_SIZE]
    omega
  rw [read, if_neg hlen]
  cases horder : f.order with
  | little =>
      rw [horder] at hmagic
      rw [show false = ByteOrder.little.swapped from rfl,
        readLeOrBe_of_holds hmagic]
      cases f.unit <;> rfl
  | big =>
      rw [horder] at hmagic
      have hswapped : readLeOrBe UInt32 (f.header ++ rest) 0 false =
          some (match f.unit with
            | .micro => PCAP_MAGIC_SWAPPED
            | .nano => PCAP_MAGIC_NANO_SWP) := by
        have hread : Inverts (fileWord UInt32 false)
            (ByteOrder.big.put f.unit.magic) _ :=
          inverts_map _ (inverts_take
            ⟨ByteOrder.big.put f.unit.magic, ByteOrder.length_put _ _⟩)
        rw [readLeOrBe, hmagic.readAt hread]
        cases f.unit <;> decide
      rw [hswapped]
      cases f.unit <;> rfl

theorem replays_take (r : PcapReader) (f : ClassicFile) (n : ℕ) :
    r.Replays (f.header ++ f.body.take n) f.order.swapped
      ((wholeRecords n f.records).map Record.frame) f.network where
  walks := (read_header r f _).trans (readClassicPcap_eq_walk r _ _)
  calls := by
    rw [walkClassic_take]
    have hnote (frames : List (List UInt8)) :
        run (fun s frame => noteCall s frame f.network) () frames =
          ((), frames.map fun frame => (frame, f.network)) := by
      induction frames with
      | nil => rfl
      | cons frame frames ih => rw [run_cons, ih]; rfl
    rw [hnote]
  result := by
    rw [read_header, readClassicPcap_eq_walk, walkClassic_take]

/-- **Classic capture files are transparent.** `handle_frame` is called with
the frames of the file, in order and with its link type; where the file is cut
off behind its global header, with the frames of the records that are whole
in what is left. -/
theorem classic_transparent (r : PcapReader) (f : ClassicFile) :
    r.Replays f.bytes f.order.swapped (f.records.map Record.frame)
      f.network ∧
    ∀ n, r.Replays (f.header ++ f.body.take n) f.order.swapped
      ((wholeRecords n f.records).map Record.frame) f.network := by
  refine ⟨?_, replays_take r f⟩
  have hall := replays_take r f f.body.length
  rwa [wholeRecords_all, List.take_length] at hall

end PcapReader

end Itch.Transport
