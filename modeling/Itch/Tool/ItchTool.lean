import Itch.Export.CsvSink
import Itch.Transport.Captures
import Itch.Wire.FilteredParse

/-!
# `itch-tool`

§1 is the program behind its command line: how it tells a capture from a raw
stream, and its commands. §2 says which files are taken for what, §3 what
`stats` and `inspect` print and §4 what `filter` writes.
-/

namespace Itch.Tool

open ByteCursor Transport Export

/-! ## §1  The program -/

/-- The calls of the callback, and what the raw parser throws. -/
def forEachMessage (data : List UInt8) :
    Checked (List Message × Option ParseError) := do
  let (_, events, recognised) ← ({} : PcapReader).read data
  if recognised then
    return (PcapReader.messagesOf events, none)  -- a capture file
  else
    let outcome := ({} : Parser).parse data
    return (PcapReader.messagesOf events ++ outcome.messages, outcome.2.2)

def messageTypeOf (message : Message) : UInt8 := message.header.messageType

/-- A comma-or-concatenated list of types, as the array of the wanted ones. -/
def parseTypeFilter (spec : Str) : UInt8 → Bool :=
  spec.foldl (fun wanted chr =>
    if chr ≠ ','.toUInt8 then Function.update wanted chr true else wanted)
    fun _ => false

structure Stats where
  counts : UInt8 → UInt64 := fun _ => 0
  total : UInt64 := 0

namespace Stats

/-- The callback of `cmd_stats`. -/
def count (s : Stats) (msg : Message) : Stats where
  counts := Function.update s.counts (messageTypeOf msg)
    (s.counts (messageTypeOf msg) + 1)
  total := s.total + 1

/-- The types in the order of their bytes, those that were counted. -/
def table (s : Stats) : List (UInt8 × UInt64) :=
  ((List.range 256).map UInt8.ofNat).filterMap fun type =>
    if s.counts type > 0 then some (type, s.counts type) else none

/-- A line in the format `{:<6} {:>14}`. -/
def line (left right : Str) : Str :=
  left ++ List.replicate (6 - left.length) ' '.toUInt8 ++ ' '.toUInt8 ::
    (List.replicate (14 - right.length) ' '.toUInt8 ++ right ++
      ['\n'.toUInt8])

def print (s : Stats) : Str :=
  line (literal "type") (literal "count") ++
    s.table.flatMap (fun e => line [e.1] (decimalDigits e.2.toNat)) ++
    line (literal "TOTAL") (decimalDigits s.total.toNat)

end Stats

/-- What is printed, unless an exception ends the program before. -/
def cmdStats (data : List UInt8) : Checked (Except ParseError Str) := do
  let (messages, thrown) ← forEachMessage data
  match thrown with
  | some error => return .error error
  | none => return .ok (messages.foldl .count ({} : Stats)).print

/-- The messages shown, and their number in the last line, which is missing
after an exception. -/
def cmdInspect (data : List UInt8) (limit : UInt64) :
    Checked (List Message × Except ParseError UInt64) := do
  let (messages, thrown) ← forEachMessage data
  let shown := messages.foldl (fun shown msg =>
    if shown.2 < limit then (shown.1 ++ [msg], shown.2 + 1) else shown)
    (([] : List Message), (0 : UInt64))
  match thrown with
  | some error => return (shown.1, .error error)
  | none => return (shown.1, .ok shown.2)

/-- The sink that is written to, and what is thrown at the end of the rows. -/
def cmdFilterOrConvert (data : List UInt8) (wanted : UInt8 → Bool)
    (hasFilter : Bool) : Checked (CsvSink × Option ParseError) := do
  let (messages, thrown) ← forEachMessage data
  return (messages.foldl (fun sink msg =>
    if ¬ hasFilter ∨ wanted (messageTypeOf msg) then sink.write msg else sink)
    (CsvSink.init true), thrown)

/-! ## §2  Captures and raw streams -/

/-- The first bytes of a raw stream: the length of padding or of a frame of
less than 256 bytes, or any length before a known type. -/
def StartsRaw (data : List UInt8) : Prop :=
  data.length < 4 ∨ data[0]? = some 0 ∨
    ∃ c, data[2]? = some c ∧ (lookup c).isSome

/-- The bytes of a word that was read. -/
theorem take_of_readLeOrBe {data : List UInt8} {v : UInt32}
    (h : readLeOrBe UInt32 data 0 false = some v) :
    data.take 4 = encodeLE 4 v.toNat := by
  by_cases hle : 0 + Word.width UInt32 ≤ data.length
  · have hlen : (data.take 4).length = 4 := List.length_take_of_le hle
    have hread : readLeOrBe UInt32 data 0 false =
        some (UInt32.ofNat (decodeLE (data.take 4))) := by
      rw [readLeOrBe, readAt, fileWord, map_apply, ByteCursor.take,
        dif_pos hle]
      rfl
    have hlt : decodeLE (data.take 4) < 2 ^ 32 := by
      have hbound := decodeBE_lt (data.take 4).reverse
      rwa [List.length_reverse, hlen] at hbound
    have hinverse := encodeBE_decodeBE (data.take 4).reverse
    rw [List.length_reverse, hlen] at hinverse
    rw [hread] at h
    rw [← Option.some.inj h, UInt32.toNat_ofNat_of_lt' hlt, encodeLE,
      decodeLE, hinverse, List.reverse_reverse]
  · rw [readLeOrBe, readAt, fileWord, map_apply, ByteCursor.take,
      dif_neg hle] at h
    cases h

/-- No magic number starts as a raw stream does. -/
theorem not_magic {data : List UInt8} {magic : UInt32}
    (hraw : StartsRaw data) (hlen : ¬data.length < 4)
    (hmagic : readLeOrBe UInt32 data 0 false = some magic) :
    magic ∉ [PCAP_MAGIC, PCAP_MAGIC_NANO, PCAP_MAGIC_SWAPPED,
      PCAP_MAGIC_NANO_SWP, PCAPNG_BLOCK_SHB] := by
  intro hmem
  have hbytes : ∀ m ∈ [PCAP_MAGIC, PCAP_MAGIC_NANO, PCAP_MAGIC_SWAPPED,
      PCAP_MAGIC_NANO_SWP, PCAPNG_BLOCK_SHB],
      (encodeLE 4 m.toNat)[0]? ≠ some 0 ∧
        (encodeLE 4 m.toNat)[2]?.bind lookup = none := by
    intro m hm
    simp only [List.mem_cons, List.not_mem_nil, or_false] at hm
    rcases hm with rfl | rfl | rfl | rfl | rfl <;> decide
  obtain ⟨hfirst, htype⟩ := hbytes magic hmem
  rw [← take_of_readLeOrBe hmagic, List.getElem?_take_of_lt (by decide)]
    at hfirst htype
  rcases hraw with h | h | ⟨c, hc, hknown⟩
  · exact hlen h
  · exact hfirst h
  · rw [hc, Option.bind_some] at htype
    rw [htype] at hknown
    cases hknown

theorem read_raw {data : List UInt8} (hraw : StartsRaw data)
    (r : PcapReader) : r.read data = some (r, [], false) := by
  by_cases hlen : data.length < 4
  · rw [PcapReader.read, if_pos hlen]
  · obtain ⟨magic, hmagic⟩ :
        ∃ magic, readLeOrBe UInt32 data 0 false = some magic :=
      exists_readLeOrBe UInt32 false (show 0 + 4 ≤ _ from not_lt.mp hlen)
    have hnot := not_magic hraw hlen hmagic
    simp only [List.mem_cons, List.not_mem_nil, or_false, not_or] at hnot
    obtain ⟨hmicro, hnano, hswapped, hswappedNano, hblock⟩ := hnot
    rw [PcapReader.read, if_neg hlen, hmagic]
    dsimp only [Option.bind_eq_bind, Option.bind_some]
    rw [if_neg (by simp [hmicro, hnano]),
      if_neg (by simp [hswapped, hswappedNano]), if_neg hblock]
    rfl

theorem forEachMessage_raw {data : List UInt8} (hraw : StartsRaw data) :
    forEachMessage data = some ((Parser.parse {} data).messages,
      (Parser.parse {} data).2.2) := by
  rw [forEachMessage, read_raw hraw]
  rfl

theorem forEachMessage_capture {data : List UInt8}
    {r : PcapReader} {events : List PcapEvent}
    (h : ({} : PcapReader).read data = some (r, events, true)) :
    forEachMessage data = some (PcapReader.messagesOf events, none) := by
  rw [forEachMessage, h]
  rfl

/-- Streams of frames start as raw streams do. -/
theorem startsRaw_items (items : List StreamItem) :
    StartsRaw (items.map StreamItem.bytes).flatten := by
  have hsize (t : MsgType) : UInt8.ofNat (t.wireSize / 256 ^ 1) = 0 := by
    cases t <;> decide
  cases items with
  | nil => exact .inl (by decide)
  | cons item items =>
      refine .inr (.inl ?_)
      cases item with
      | none => rfl
      | some m =>
          have hsmall := StreamItem.length_payload (some m)
          change (encodeMessage m).length < 2 ^ 16 at hsmall
          rw [List.map_cons, List.flatten_cons, StreamItem.bytes_eq,
            frameBytes, StreamItem.payload, length_encodeMessage, encodeBE,
            hsize]
          rfl

theorem forEachMessage_items {items : List StreamItem}
    (hsend : ∀ item ∈ items, item.Sendable) :
    forEachMessage (items.map StreamItem.bytes).flatten =
      some (items.filterMap id, none) := by
  have hparse := Parser.parse_eq (Parser.parseImpl_items {} hsend)
  rw [forEachMessage_raw (startsRaw_items items), hparse]
  simp [Parser.Outcome.messages, List.filterMap_map]

/-- A file that is no capture has not been decoded when it goes to the parser
of raw streams. -/
theorem forEachMessage_either (data : List UInt8) :
    (∃ r events, ({} : PcapReader).read data = some (r, events, true) ∧
      forEachMessage data = some (PcapReader.messagesOf events, none)) ∨
    (∃ r, ({} : PcapReader).read data = some (r, [], false) ∧
      forEachMessage data = some ((Parser.parse {} data).messages,
        (Parser.parse {} data).2.2)) := by
  obtain ⟨calls, recognised, hnone, hread⟩ := PcapReader.exists_calls data
  cases recognised with
  | true => exact .inl ⟨_, _, hread {}, forEachMessage_capture (hread {})⟩
  | false =>
      right
      have hraw := hread {}
      rw [hnone rfl] at hraw
      refine ⟨_, hraw, ?_⟩
      rw [forEachMessage, hraw]
      rfl

/-- **The tool tells captures from raw streams.** The same messages are found
in a raw stream, in a classic capture of either byte order and in a
little-endian pcapng one. No file that starts as a raw stream does is taken for
a capture, however it goes on, and no message is decoded twice. -/
theorem forEachMessage_detects :
    (∀ items : List StreamItem, (∀ item ∈ items, item.Sendable) →
      forEachMessage (items.map StreamItem.bytes).flatten =
        some (items.filterMap id, none)) ∧
    (∀ (f : ClassicFile) (cs : List Captured),
      f.records.map Record.frame = cs.map (fun c => c.packet.frame) →
      (∀ c ∈ cs, c.packet.link.linkType.toUInt32 = f.network ∧
        c.Carries none) →
      forEachMessage f.bytes = some
        ((cs.filterMap Captured.datagram).flatMap Datagram.messages, none)) ∧
    (∀ (file : List FileSection) (xs : List Datagram), file ≠ [] →
      (∀ x ∈ file, x.WellFormed ∧ x.order = .little) →
      (∀ x ∈ xs, x.Sendable) → filePayloads file = xs.map Datagram.bytes →
      forEachMessage (fileBytes file) =
        some (xs.flatMap Datagram.messages, none)) ∧
    (∀ data, StartsRaw data →
      forEachMessage data = some ((Parser.parse {} data).messages,
        (Parser.parse {} data).2.2)) ∧
    ∀ data,
      (∃ r events, ({} : PcapReader).read data = some (r, events, true) ∧
        forEachMessage data = some (PcapReader.messagesOf events, none)) ∨
      (∃ r, ({} : PcapReader).read data = some (r, [], false) ∧
        forEachMessage data = some ((Parser.parse {} data).messages,
          (Parser.parse {} data).2.2)) := by
  refine ⟨fun items hsend => forEachMessage_items hsend, ?_, ?_,
    fun data hraw => forEachMessage_raw hraw, forEachMessage_either⟩
  · intro f cs hframes hcs
    obtain ⟨result, hread, hdelivers⟩ :=
      PcapReader.read_classic (r := {}) rfl hframes hcs
    rw [forEachMessage_capture hread, hdelivers.messages]
  · intro file xs hne hfile hxs hpayloads
    obtain ⟨result, hread, hdelivers⟩ :=
      PcapReader.pcapng_delivers {} rfl rfl hne hfile hxs hpayloads
    rw [forEachMessage_capture hread, hdelivers.messages]

/-- A message in a raw stream behind padding. -/
theorem forEachMessage_detects_padded :
    forEachMessage (([none, some (.systemEvent { timestamp := 7 })] :
        List StreamItem).map StreamItem.bytes).flatten =
      some ([.systemEvent { timestamp := 7 }], none) := by
  refine forEachMessage_detects.1 [none, some _] ?_
  rintro item hitem m rfl
  simp only [List.mem_cons, List.not_mem_nil, or_false, reduceCtorEq,
    Option.some.injEq, false_or] at hitem
  subst hitem
  exact ⟨rfl, by decide⟩

/-! ## §3  `stats` -/

/-- The table holds the types that occur, in order, and how often. -/
structure Tallies (messages : List Message) (table : List (UInt8 × UInt64)) :
    Prop where
  mem_iff : ∀ c n, (c, n) ∈ table ↔
    n.toNat = messages.countP (fun m => messageTypeOf m = c) ∧ 0 < n.toNat
  ordered : table.Pairwise fun e e' => e.1 < e'.1
  sum : (table.map fun e => e.2.toNat).sum = messages.length

/-- All bytes, in order. -/
def allBytes : List UInt8 := (List.range 256).map UInt8.ofNat

theorem mem_allBytes (c : UInt8) : c ∈ allBytes := by
  rw [allBytes, List.mem_map]
  exact ⟨c.toNat, List.mem_range.mpr c.toNat_lt, c.ofNat_toNat⟩

theorem pairwise_allBytes : allBytes.Pairwise (· < ·) := by
  rw [allBytes, List.pairwise_map]
  refine List.pairwise_lt_range.imp_of_mem ?_
  intro i j hi hj hlt
  rw [List.mem_range] at hi hj
  rw [UInt8.lt_iff_toNat_lt, UInt8.toNat_ofNat_of_lt' hi,
    UInt8.toNat_ofNat_of_lt' hj]
  exact hlt

theorem sum_indicator (cs : List UInt8) (t : UInt8) :
    (cs.map fun c => if t = c then 1 else 0).sum = cs.count t := by
  induction cs with
  | nil => rfl
  | cons c cs ih =>
      rw [List.map_cons, List.sum_cons, ih, List.count_cons, Nat.add_comm]
      by_cases h : t = c
      · simp [h]
      · simp [h, Ne.symm h]

/-- Each message is of one type. -/
theorem sum_countP (messages : List Message) :
    (allBytes.map fun c =>
      messages.countP fun m => messageTypeOf m = c).sum = messages.length := by
  induction messages with
  | nil => simp
  | cons m messages ih =>
      have hnodup : allBytes.Nodup :=
        pairwise_allBytes.imp fun h => UInt8.ne_of_lt h
      simp only [List.countP_cons, decide_eq_true_eq, List.sum_map_add, ih,
        sum_indicator, List.length_cons,
        List.count_eq_one_of_mem hnodup (mem_allBytes _)]

theorem foldl_count (s : Stats) (messages : List Message) :
    (messages.foldl .count s).total = s.total + .ofNat messages.length ∧
      ∀ c, (messages.foldl .count s).counts c = s.counts c +
        .ofNat (messages.countP fun m => messageTypeOf m = c) := by
  induction messages generalizing s with
  | nil => simp
  | cons m messages ih =>
      obtain ⟨htotal, hcounts⟩ := ih (s.count m)
      rw [List.foldl_cons, htotal]
      constructor
      · rw [Stats.count, List.length_cons, UInt64.ofNat_add,
          UInt64.add_assoc, UInt64.add_comm 1]
        rfl
      · intro c
        rw [hcounts, List.countP_cons, Stats.count]
        by_cases hc : messageTypeOf m = c
        · subst hc
          dsimp only
          rw [Function.update_self, if_pos (decide_eq_true rfl),
            UInt64.ofNat_add, UInt64.add_assoc, UInt64.add_comm 1]
          rfl
        · simp [hc, Function.update_of_ne (Ne.symm hc)]

/-- Counters below their range hold the table of what was counted. -/
theorem tallies_table {s : Stats} {messages : List Message}
    (h : ∀ c, (s.counts c).toNat =
      messages.countP fun m => messageTypeOf m = c) :
    Tallies messages s.table := by
  have hpos (c : UInt8) : s.counts c > 0 ↔ 0 < (s.counts c).toNat :=
    UInt64.lt_iff_toNat_lt
  have hmem (c : UInt8) (n : UInt64) :
      (c, n) ∈ s.table ↔ s.counts c = n ∧ 0 < n.toNat := by
    rw [Stats.table, List.mem_filterMap]
    constructor
    · rintro ⟨c', -, hc'⟩
      split at hc'
      · rename_i hlt
        cases hc'
        exact ⟨rfl, (hpos c).mp hlt⟩
      · cases hc'
    · rintro ⟨rfl, hlt⟩
      exact ⟨c, mem_allBytes c, if_pos ((hpos c).mpr hlt)⟩
  constructor
  · intro c n
    rw [hmem, ← h c, UInt64.toNat_inj, eq_comm]
  · rw [Stats.table]
    refine List.Pairwise.filterMap _ ?_ pairwise_allBytes
    intro c c' hlt e he e' he'
    split at he
    · split at he'
      · cases he
        cases he'
        exact hlt
      · cases he'
    · cases he
  · rw [← sum_countP, Stats.table]
    show (((allBytes).filterMap _).map _).sum = _
    induction allBytes with
    | nil => rfl
    | cons c cs ih =>
        rw [List.map_cons, List.sum_cons, ← ih, ← h c, List.filterMap_cons]
        split
        · rename_i hnone
          split at hnone
          · cases hnone
          · rename_i hzero
            rw [hpos, Nat.pos_iff_ne_zero, not_not] at hzero
            rw [hzero, Nat.zero_add]
        · rename_i e hsome
          split at hsome
          · cases hsome
            rfl
          · cases hsome

/-- **`stats` accounts for every message.** What is printed for a file that is
read to its end is the table of the types that occur, each with the number of
its messages, and these add up to the total in the last line. -/
theorem cmdStats_tallies (data : List UInt8) (messages : List Message)
    (hdata : forEachMessage data = some (messages, none))
    (hsize : messages.length < 2 ^ 64) :
    ∃ s : Stats, cmdStats data = some (.ok s.print) ∧
      Tallies messages s.table ∧ s.total.toNat = messages.length := by
  obtain ⟨htotal, hcounts⟩ := foldl_count {} messages
  refine ⟨messages.foldl .count {}, ?_, tallies_table fun c => ?_, ?_⟩
  · rw [cmdStats, hdata]
    rfl
  · have hle : messages.countP (fun m => messageTypeOf m = c) ≤
        messages.length := List.countP_le_length
    rw [hcounts, UInt64.zero_add,
      UInt64.toNat_ofNat_of_lt' (hle.trans_lt hsize)]
  · rw [htotal, UInt64.zero_add, UInt64.toNat_ofNat_of_lt' hsize]

/-- Two system events, with an order and padding between them. -/
def eventsAndOrder : List StreamItem :=
  [some (.systemEvent { timestamp := 7 }),
    some (.addOrder { timestamp := 8, orderReferenceNumber := 1
                      buySellIndicator := 'B'.toUInt8, shares := 100 }),
    none, some (.systemEvent { timestamp := 9 })]

theorem sendable_eventsAndOrder : ∀ item ∈ eventsAndOrder, item.Sendable := by
  rintro item hitem m rfl
  simp only [eventsAndOrder, List.mem_cons, List.not_mem_nil, or_false,
    reduceCtorEq, false_or, Option.some.injEq] at hitem
  rcases hitem with rfl | rfl | rfl <;> exact ⟨rfl, by decide⟩

/-- Three messages are tallied, in two types. -/
theorem cmdStats_tallies_eventsAndOrder : ∃ s : Stats,
    cmdStats (eventsAndOrder.map StreamItem.bytes).flatten =
      some (.ok s.print) ∧
    s.total.toNat = 3 ∧ ('A'.toUInt8, 1) ∈ s.table ∧
    ('S'.toUInt8, 2) ∈ s.table := by
  obtain ⟨s, hprint, htallies, htotal⟩ := cmdStats_tallies _
    (eventsAndOrder.filterMap id) (forEachMessage_items sendable_eventsAndOrder)
    (by decide)
  refine ⟨s, hprint, htotal, (htallies.mem_iff _ _).mpr ?_,
    (htallies.mem_iff _ _).mpr ?_⟩
  · exact ⟨rfl, by decide⟩
  · exact ⟨rfl, by decide⟩

/-- The messages shown are the first ones. -/
theorem foldl_shown (limit : UInt64) (messages : List Message) :
    messages.foldl (fun shown msg =>
      if shown.2 < limit then (shown.1 ++ [msg], shown.2 + 1) else shown)
      (([] : List Message), (0 : UInt64)) =
        (messages.take limit.toNat,
          .ofNat (min limit.toNat messages.length)) := by
  induction messages using List.reverseRecOn with
  | nil =>
    rw [List.foldl_nil, List.take_nil, List.length_nil, Nat.min_zero]
    rfl
  | append_singleton messages m ih =>
    have hlimit := limit.toNat_lt
    have hshown : UInt64.ofNat (min limit.toNat messages.length) < limit ↔
        messages.length < limit.toNat := by
      have hmin : min limit.toNat messages.length < 2 ^ 64 :=
        (Nat.min_le_left _ _).trans_lt hlimit
      rw [UInt64.lt_iff_toNat_lt, UInt64.toNat_ofNat_of_lt' hmin]
      omega
    rw [List.foldl_append, ih, List.foldl_cons, List.foldl_nil,
      List.length_append, List.length_singleton]
    by_cases hlt : messages.length < limit.toNat
    · rw [if_pos (hshown.mpr hlt), List.take_of_length_le hlt.le,
        List.take_of_length_le (by rw [List.length_append]; exact hlt),
        Nat.min_eq_right hlt.le, Nat.min_eq_right hlt, Nat.succ_eq_add_one,
        UInt64.ofNat_add]
      rfl
    · rw [if_neg (mt hshown.mp hlt),
        List.take_append_of_le_length (not_lt.mp hlt),
        Nat.min_eq_left (not_lt.mp hlt),
        Nat.min_eq_left (Nat.le_succ_of_le (not_lt.mp hlt))]

/-- `inspect` shows the first messages, as many as the limit, and counts those
that there are. -/
theorem cmdInspect_eq {data : List UInt8} {messages : List Message}
    (hdata : forEachMessage data = some (messages, none)) (limit : UInt64) :
    cmdInspect data limit = some (messages.take limit.toNat,
      .ok (.ofNat (min limit.toNat messages.length))) := by
  rw [cmdInspect, hdata]
  simp only [Option.bind_eq_bind, Option.bind_some, foldl_shown]
  rfl

/-! ## §4  `filter` and `convert` -/

/-- The types of a filter: its characters without the commas. -/
def typesOf (spec : Str) : List UInt8 := spec.filter (· ≠ ','.toUInt8)

theorem parseTypeFilter_iff (spec : Str) (c : UInt8) :
    parseTypeFilter spec c = true ↔ c ∈ typesOf spec := by
  unfold parseTypeFilter typesOf
  induction spec using List.reverseRecOn with
  | nil => simp
  | append_singleton spec chr ih =>
      rw [List.foldl_append, List.foldl_cons, List.foldl_nil,
        List.filter_append, List.mem_append, ← ih]
      by_cases hcomma : chr = ','.toUInt8
      · simp [hcomma]
      · rw [if_pos hcomma, List.filter_cons_of_pos (by simpa using hcomma),
          List.filter_nil, List.mem_singleton]
        by_cases hc : c = chr
        · simp [hc]
        · rw [Function.update_of_ne hc]
          exact (or_iff_left hc).symm

/-- Rows are written for the messages that are wanted. -/
theorem foldl_wanted (wanted : UInt8 → Bool) (hasFilter : Bool)
    (sink : CsvSink) (messages : List Message) :
    messages.foldl (fun sink msg =>
        if ¬ hasFilter ∨ wanted (messageTypeOf msg) then sink.write msg
        else sink) sink =
      (messages.filter fun msg =>
        !hasFilter || wanted (messageTypeOf msg)).foldl .write sink := by
  rw [List.foldl_filter]
  congr 1
  funext sink msg
  cases hasFilter <;> cases wanted (messageTypeOf msg) <;> rfl

theorem parseTypes_result (p : Parser) {data : List UInt8}
    (hend : (p.parse data).2.2 = none) (types : List UInt8) :
    (p.parseTypes data types).result =
      .ok ((p.parse data).messages.filter fun msg =>
        msg.header.messageType ∈ types) := by
  by_cases hnil : types = []
  · subst hnil
    simp [Parser.parseTypes]
  · have hresult := (p.filtersFull_of_ne_nil data hnil).result
    rw [hresult, Parser.parseAll, Parser.parseWith, hend]
    dsimp only
    rw [Parser.foldl_append, List.nil_append]
    rfl

/-- **`filter` writes what the filtered parse returns.** For a raw stream that
is read to its end, the rows are those of the messages that `Parser::parse`
returns for the types of the filter. They are counted, and a reader of CSV
recovers all of them if and only if it can recover each. -/
theorem cmdFilter_agrees (data : List UInt8) (spec : Str)
    (hraw : StartsRaw data) (hend : (Parser.parse {} data).2.2 = none) :
    ∃ messages sink,
      (Parser.parseTypes {} data (typesOf spec)).result = .ok messages ∧
      cmdFilterOrConvert data (parseTypeFilter spec) true =
        some (sink, none) ∧
      sink = messages.foldl .write (CsvSink.init true) ∧
      sink.out = ((rows true messages).map csv.record).flatten ∧
      sink.rowsWritten = .ofNat messages.length ∧
      (csv.parse sink.out = some (expected true messages) ↔
        ∀ m ∈ messages, Readable m) := by
  have hwanted : ((Parser.parse {} data).messages.filter fun msg =>
      !true || parseTypeFilter spec (messageTypeOf msg)) =
        (Parser.parse {} data).messages.filter fun msg =>
          msg.header.messageType ∈ typesOf spec := by
    congr 1
    funext msg
    rw [Bool.not_true, Bool.false_or, Bool.eq_iff_iff, parseTypeFilter_iff,
      decide_eq_true_eq]
    rfl
  refine ⟨_, _, parseTypes_result {} hend _, ?_, rfl, foldl_init true _, ?_,
    parse_out_iff true _⟩
  · rw [cmdFilterOrConvert, forEachMessage_raw hraw, hend]
    dsimp only [Option.bind_eq_bind, Option.bind_some]
    rw [foldl_wanted, hwanted]
    rfl
  · rw [(foldl_write _ _).2]
    exact UInt64.zero_add _

/-- The order is kept, and the row of it can be read. -/
theorem cmdFilter_agrees_eventsAndOrder : ∃ sink,
    cmdFilterOrConvert (eventsAndOrder.map StreamItem.bytes).flatten
      (parseTypeFilter (literal "A,F")) true =
        some (sink, none) ∧
    sink.rowsWritten = 1 ∧
    csv.parse sink.out = some (expected true
      [.addOrder { timestamp := 8, orderReferenceNumber := 1
                   buySellIndicator := 'B'.toUInt8, shares := 100 }]) := by
  have hparse := Parser.parse_eq
    (Parser.parseImpl_items {} sendable_eventsAndOrder)
  have hend : (Parser.parse {}
      (eventsAndOrder.map StreamItem.bytes).flatten).2.2 = none :=
    congrArg (·.2.2) hparse
  obtain ⟨messages, sink, hresult, hwrites, -, -, hcount, hreads⟩ :=
    cmdFilter_agrees _ (literal "A,F")
      (startsRaw_items eventsAndOrder) hend
  rw [parseTypes_result {} hend, hparse] at hresult
  have hkept : [Message.addOrder
      { timestamp := 8, orderReferenceNumber := 1
        buySellIndicator := 'B'.toUInt8, shares := 100 }] = messages :=
    Except.ok.inj hresult
  subst hkept
  refine ⟨sink, hwrites, hcount, hreads.mpr ?_⟩
  rw [List.forall_mem_singleton]
  exact ⟨by decide, by decide, by decide⟩

end Itch.Tool
