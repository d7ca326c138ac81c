import Mathlib.Data.List.TakeWhile
import Itch.Framework.Csv
import Itch.Price
import Itch.Wire.RoundTrip

/-!
# The CSV sink

§1 is the sink: the row of a message, and the text that is written for it. §2
says which messages a reader of such text recovers.
-/

namespace Itch.Export

open Csv

/-! ## §1  The sink -/

/-- The flattened view of one message, with blanks for absent fields. -/
structure Row where
  messageType : UInt8 := 0
  timestamp : UInt64 := 0
  stockLocate : UInt16 := 0
  trackingNumber : UInt16 := 0
  symbol : Str := []
  referenceNumber : Str := []
  side : UInt8 := 0
  shares : Str := []
  price : Str := []
  matchNumber : Str := []
  printable : UInt8 := 0
  extra : Str := []

def fillCommon (row : Row) (msg : MessageHeader) : Row :=
  { row with
    messageType := msg.messageType
    timestamp := msg.timestamp
    stockLocate := msg.stockLocate
    trackingNumber := msg.trackingNumber }

/-- Quotes a value only if it contains a comma. -/
def field (value : Str) : Str :=
  if ','.toUInt8 ∈ value then '"'.toUInt8 :: (value ++ ['"'.toUInt8])
  else value

def buildRow (message : Message) : Row :=
  let row := fillCommon {} message.header
  match message with
  | .addOrder add =>
      { row with
        symbol := toString add.stock
        referenceNumber := decimalDigits add.orderReferenceNumber.toNat
        side := add.buySellIndicator
        shares := decimalDigits add.shares.toNat
        price := StandardPrice.toString ⟨add.price⟩ }
  | .addOrderMPIDAttribution add =>
      { row with
        symbol := toString add.stock
        referenceNumber := decimalDigits add.orderReferenceNumber.toNat
        side := add.buySellIndicator
        shares := decimalDigits add.shares.toNat
        price := StandardPrice.toString ⟨add.price⟩
        extra := literal "mpid=" ++ toString add.attribution }
  | .orderExecuted exec =>
      { row with
        referenceNumber := decimalDigits exec.orderReferenceNumber.toNat
        shares := decimalDigits exec.executedShares.toNat
        matchNumber := decimalDigits exec.matchNumber.toNat }
  | .orderExecutedWithPrice exec =>
      { row with
        referenceNumber := decimalDigits exec.orderReferenceNumber.toNat
        shares := decimalDigits exec.executedShares.toNat
        price := StandardPrice.toString ⟨exec.executionPrice⟩
        matchNumber := decimalDigits exec.matchNumber.toNat
        printable := exec.printable }
  | .orderCancel cancel =>
      { row with
        referenceNumber := decimalDigits cancel.orderReferenceNumber.toNat
        shares := decimalDigits cancel.cancelledShares.toNat }
  | .orderDelete del =>
      { row with
        referenceNumber := decimalDigits del.orderReferenceNumber.toNat }
  | .orderReplace replace =>
      { row with
        referenceNumber := decimalDigits replace.newOrderReferenceNumber.toNat
        shares := decimalDigits replace.shares.toNat
        price := StandardPrice.toString ⟨replace.price⟩
        extra := literal "orig=" ++
          decimalDigits replace.originalOrderReferenceNumber.toNat }
  | .nonCrossTrade trade =>
      { row with
        symbol := toString trade.stock
        referenceNumber := decimalDigits trade.orderReferenceNumber.toNat
        side := trade.buySellIndicator
        shares := decimalDigits trade.shares.toNat
        price := StandardPrice.toString ⟨trade.price⟩
        matchNumber := decimalDigits trade.matchNumber.toNat }
  | .crossTrade cross =>
      { row with
        symbol := toString cross.stock
        shares := decimalDigits cross.shares.toNat
        price := StandardPrice.toString ⟨cross.crossPrice⟩
        matchNumber := decimalDigits cross.matchNumber.toNat
        extra := literal "cross=" ++ [cross.crossType] }
  | .systemEvent event =>
      { row with extra := literal "event=" ++ [event.eventCode] }
  | .stockDirectory directory =>
      { row with
        symbol := toString directory.stock
        extra := literal "category=" ++ [directory.marketCategory] }
  | _ => row

/-- A single character field, blank when unset. -/
def charField (value : UInt8) : Str := if value = 0 then [] else [value]

structure CsvSink where
  out : Str := []
  rowsWritten : UInt64 := 0

namespace CsvSink

/-- The constructor, on an empty stream. -/
def init (writeHeader : Bool) : CsvSink :=
  { out :=
      if writeHeader then
        literal ("message_type,timestamp,stock_locate,tracking_number,symbol,"
          ++ "reference_number,"
          ++ "side,shares,price,match_number,printable,extra\n")
      else [] }

def write (sink : CsvSink) (message : Message) : CsvSink :=
  let row := buildRow message
  { out := sink.out ++
      List.intercalate [','.toUInt8]
        [[row.messageType],
          decimalDigits row.timestamp.toNat,
          decimalDigits row.stockLocate.toNat,
          decimalDigits row.trackingNumber.toNat,
          field row.symbol,
          row.referenceNumber,
          charField row.side,
          row.shares,
          row.price,
          row.matchNumber,
          charField row.printable,
          field row.extra] ++ ['\n'.toUInt8]
    rowsWritten := sink.rowsWritten + 1 }

end CsvSink

/-! ## §2  Reading the rows -/

def csv : Dialect UInt8 where
  comma := ','.toUInt8
  quote := '"'.toUInt8
  cr := '\r'.toUInt8
  lf := '\n'.toUInt8
  comma_ne_quote := by decide
  comma_ne_cr := by decide
  comma_ne_lf := by decide
  cr_ne_quote := by decide
  cr_ne_lf := by decide
  lf_ne_quote := by decide

/-- The values of a row, as a reader should recover them. -/
def Row.values (row : Row) : List Str :=
  [[row.messageType],
    decimalDigits row.timestamp.toNat,
    decimalDigits row.stockLocate.toNat,
    decimalDigits row.trackingNumber.toNat,
    row.symbol,
    row.referenceNumber,
    charField row.side,
    row.shares,
    row.price,
    row.matchNumber,
    charField row.printable,
    row.extra]

/-- The names of the columns. -/
def columnNames : List Str :=
  ["message_type", "timestamp", "stock_locate", "tracking_number", "symbol",
    "reference_number", "side", "shares", "price", "match_number",
    "printable", "extra"].map literal

/-- All records of the text, with the header row first. -/
def expected (writeHeader : Bool) (messages : List Message) :
    List (List Str) :=
  (if writeHeader then [columnNames] else []) ++
    messages.map fun m => (buildRow m).values

/-- What was written reads as one record of twelve fields for each message. -/
structure ReadsBack (writeHeader : Bool) (messages : List Message) : Prop where
  parses : csv.parse (messages.foldl .write (CsvSink.init writeHeader)).out =
    some (expected writeHeader messages)
  twelve : ∀ record ∈ expected writeHeader messages, record.length = 12
  counts : (messages.foldl .write (CsvSink.init writeHeader)).rowsWritten =
    .ofNat (messages.map fun m => (buildRow m).values).length

/-- A character that can stand in a column of its own. -/
def CharReadable (c : UInt8) : Prop :=
  c ≠ ','.toUInt8 ∧ c ≠ '"'.toUInt8 ∧ c ≠ '\r'.toUInt8 ∧ c ≠ '\n'.toUInt8

instance : DecidablePred CharReadable :=
  fun _ => inferInstanceAs (Decidable (_ ∧ _))

/-- A text without quotes, and with a comma if it has a line break. -/
def TextReadable (s : Str) : Prop :=
  '"'.toUInt8 ∉ s ∧
    (','.toUInt8 ∉ s → '\r'.toUInt8 ∉ s ∧ '\n'.toUInt8 ∉ s)

instance : DecidablePred TextReadable :=
  fun _ => inferInstanceAs (Decidable (_ ∧ _))

def Readable (message : Message) : Prop :=
  CharReadable message.header.messageType ∧
    match message with
    | .addOrder add =>
        TextReadable add.stock.val ∧ CharReadable add.buySellIndicator
    | .addOrderMPIDAttribution add =>
        TextReadable add.stock.val ∧ CharReadable add.buySellIndicator ∧
          TextReadable add.attribution.val
    | .orderExecutedWithPrice exec => CharReadable exec.printable
    | .nonCrossTrade trade =>
        TextReadable trade.stock.val ∧ CharReadable trade.buySellIndicator
    | .crossTrade cross =>
        TextReadable cross.stock.val ∧ TextReadable [cross.crossType]
    | .systemEvent event => TextReadable [event.eventCode]
    | .stockDirectory directory =>
        TextReadable directory.stock.val ∧
          TextReadable [directory.marketCategory]
    | _ => True

/-- The columns that are written for a row. -/
def columns (row : Row) : List (Column UInt8) :=
  [{ value := [row.messageType] },
    { value := decimalDigits row.timestamp.toNat },
    { value := decimalDigits row.stockLocate.toNat },
    { value := decimalDigits row.trackingNumber.toNat },
    { value := row.symbol, quoted := ','.toUInt8 ∈ row.symbol },
    { value := row.referenceNumber },
    { value := charField row.side },
    { value := row.shares },
    { value := row.price },
    { value := row.matchNumber },
    { value := charField row.printable },
    { value := row.extra, quoted := ','.toUInt8 ∈ row.extra }]

theorem text_field (s : Str) :
    csv.text { value := s, quoted := ','.toUInt8 ∈ s } = field s := by
  rw [Dialect.text, field]
  by_cases h : ','.toUInt8 ∈ s
  · rw [if_pos h, if_pos (decide_eq_true h)]
    rfl
  · rw [if_neg h, if_neg (by simpa using h)]

theorem write_out (sink : CsvSink) (message : Message) :
    (sink.write message).out =
      sink.out ++ csv.record (columns (buildRow message)) := by
  simp only [CsvSink.write, columns, Dialect.record, text_field]
  simp [Dialect.text, csv]

theorem foldl_write (sink : CsvSink) (messages : List Message) :
    (messages.foldl .write sink).out = sink.out ++
        (messages.map fun m => csv.record (columns (buildRow m))).flatten ∧
      (messages.foldl .write sink).rowsWritten =
        sink.rowsWritten + .ofNat messages.length := by
  induction messages generalizing sink with
  | nil => simp
  | cons m messages ih =>
    rw [List.foldl_cons, (ih _).1, (ih _).2, write_out]
    constructor
    · simp
    · rw [CsvSink.write, List.length_cons, UInt64.ofNat_add, UInt64.add_assoc,
        UInt64.add_comm 1]
      rfl

/-- The header row, if any, and a row for each message. -/
def rows (writeHeader : Bool) (messages : List Message) :
    List (List (Column UInt8)) :=
  (if writeHeader then [columnNames.map fun name => { value := name }]
    else []) ++ messages.map fun m => columns (buildRow m)

theorem foldl_init (writeHeader : Bool) (messages : List Message) :
    (messages.foldl .write (CsvSink.init writeHeader)).out =
      ((rows writeHeader messages).map csv.record).flatten := by
  rw [(foldl_write _ _).1, rows, List.map_append, List.flatten_append,
    List.map_map]
  congr 1
  cases writeHeader
  · rfl
  · decide +kernel

theorem plain_of_range {s : Str}
    (h : ∀ c ∈ s, c = '.'.toUInt8 ∨ '0'.toUInt8 ≤ c ∧ c ≤ '9'.toUInt8) :
    csv.Plain s := by
  intro c hc
  rcases h c hc with rfl | ⟨hge, hle⟩
  · decide
  · have hne {d : UInt8} (hd : d < '0'.toUInt8) : c ≠ d := by
      rintro rfl
      exact absurd hge (UInt8.not_le.mpr hd)
    exact ⟨hne (by decide), hne (by decide), hne (by decide), hne (by decide)⟩

theorem plain_decimalDigits (n : ℕ) : csv.Plain (decimalDigits n) :=
  plain_of_range fun _ hc => .inr (decimalDigits_range hc)

theorem plain_toString (p : StandardPrice) : csv.Plain p.toString :=
  plain_of_range fun _ hc => StandardPrice.toString_range hc

theorem plain_nil : csv.Plain [] := fun _ hc => absurd hc List.not_mem_nil

theorem plain_singleton {c : UInt8} : csv.Plain [c] ↔ CharReadable c :=
  List.forall_mem_singleton

theorem plain_charField {c : UInt8} :
    csv.Plain (charField c) ↔ CharReadable c := by
  rw [charField]
  by_cases h : c = 0
  · subst h
    rw [if_pos rfl]
    exact iff_of_true plain_nil (by unfold CharReadable; decide)
  · rw [if_neg h, plain_singleton]

theorem good_field {s : Str} :
    csv.Good { value := s, quoted := ','.toUInt8 ∈ s } ↔ TextReadable s := by
  rw [Dialect.Good, TextReadable]
  by_cases h : ','.toUInt8 ∈ s
  · rw [if_pos (decide_eq_true h)]
    exact (and_iff_left fun hnot => absurd h hnot).symm
  · rw [if_neg (by simpa using h)]
    constructor
    · intro hplain
      exact ⟨fun hq => (hplain _ hq).2.1 rfl, fun _ =>
        ⟨fun hr => (hplain _ hr).2.2.1 rfl, fun hn => (hplain _ hn).2.2.2 rfl⟩⟩
    · rintro ⟨hquote, hbreaks⟩ c hc
      refine ⟨?_, ?_, ?_, ?_⟩ <;> rintro rfl
      · exact h hc
      · exact hquote hc
      · exact (hbreaks h).1 hc
      · exact (hbreaks h).2 hc

/-- The columns that are copied as they are hold numbers. -/
structure Row.Numeric (row : Row) : Prop where
  referenceNumber : csv.Plain row.referenceNumber
  shares : csv.Plain row.shares
  price : csv.Plain row.price
  matchNumber : csv.Plain row.matchNumber

theorem numeric_buildRow (message : Message) : (buildRow message).Numeric := by
  cases message
  all_goals
    constructor <;>
      first
      | exact plain_nil
      | exact plain_decimalDigits _
      | exact plain_toString _

theorem good_columns_iff {row : Row} (h : row.Numeric) :
    (∀ c ∈ columns row, csv.Good c) ↔
      CharReadable row.messageType ∧ TextReadable row.symbol ∧
        CharReadable row.side ∧ CharReadable row.printable ∧
        TextReadable row.extra := by
  have hcopied (v : Str) : csv.Good { value := v } ↔ csv.Plain v := Iff.rfl
  simp only [columns, List.forall_mem_cons, good_field, hcopied,
    plain_singleton, plain_charField, plain_decimalDigits, h.referenceNumber,
    h.shares, h.price, h.matchNumber, true_and]
  simp

/-- Only spaces and NUL bytes are trimmed. -/
theorem mem_toString {n : ℕ} {source : Chars n} {c : UInt8}
    (hspace : c ≠ ' '.toUInt8) (hnul : c ≠ 0) :
    c ∈ toString source ↔ c ∈ source.val := by
  rw [toString, List.mem_reverse]
  constructor
  · intro h
    exact List.mem_reverse.mp ((List.dropWhile_sublist _).subset h)
  · intro h
    have hsplit := @List.takeWhile_append_dropWhile _
      (fun c => c == ' '.toUInt8 || c == 0) source.val.reverse
    rw [← List.mem_reverse, ← hsplit, List.mem_append] at h
    rcases h with h | h
    · have hblank := List.mem_takeWhile_imp h
      simp [hspace, hnul] at hblank
    · exact h

theorem textReadable_toString {n : ℕ} (source : Chars n) :
    TextReadable (toString source) ↔ TextReadable source.val := by
  rw [TextReadable, TextReadable, mem_toString (by decide) (by decide),
    mem_toString (by decide) (by decide), mem_toString (by decide) (by decide),
    mem_toString (by decide) (by decide)]

theorem textReadable_append {p : Str} (hp : csv.Plain p) (s : Str) :
    TextReadable (p ++ s) ↔ TextReadable s := by
  have hmem {c : UInt8} (hc : ¬ CharReadable c) : c ∈ p ++ s ↔ c ∈ s := by
    rw [List.mem_append, or_iff_right fun h => hc (hp c h)]
  rw [TextReadable, TextReadable, hmem (by decide), hmem (by decide),
    hmem (by decide), hmem (by decide)]

theorem textReadable_of_plain {s : Str} (hs : csv.Plain s) :
    TextReadable s := by
  rw [← List.append_nil s, textReadable_append hs]
  decide

theorem good_buildRow_iff (message : Message) :
    (∀ c ∈ columns (buildRow message), csv.Good c) ↔ Readable message := by
  have hnul : CharReadable 0 := by decide
  have hnil : TextReadable [] := by decide
  have hmpid : csv.Plain (literal "mpid=") := by decide
  have horig : csv.Plain (literal "orig=") := by decide
  have hcross : csv.Plain (literal "cross=") := by decide
  have hevent : csv.Plain (literal "event=") := by decide
  have hcategory : csv.Plain (literal "category=") := by decide
  rw [good_columns_iff (numeric_buildRow message)]
  cases message
  all_goals
    simp only [buildRow, fillCommon, Readable, Message.header, hnul, hnil,
      textReadable_append hmpid, textReadable_append horig,
      textReadable_append hcross, textReadable_append hevent,
      textReadable_append hcategory, textReadable_toString,
      textReadable_of_plain (plain_decimalDigits _), and_true, true_and]

theorem map_rows (writeHeader : Bool) (messages : List Message) :
    (rows writeHeader messages).map (fun row => row.map (·.value)) =
      expected writeHeader messages := by
  rw [rows, expected, List.map_append, List.map_map]
  cases writeHeader <;> rfl

theorem good_rows_iff (writeHeader : Bool) (messages : List Message) :
    (∀ row ∈ rows writeHeader messages, ∀ c ∈ row, csv.Good c) ↔
      ∀ m ∈ messages, Readable m := by
  have hheader : ∀ name ∈ columnNames, csv.Plain name := by
    decide +kernel
  rw [rows, List.forall_mem_append, List.forall_mem_map,
    and_iff_right_of_imp]
  · exact forall₂_congr fun m _ => good_buildRow_iff m
  · intro _ row hrow
    cases writeHeader with
    | false => cases hrow
    | true =>
      rw [if_pos rfl, List.mem_singleton] at hrow
      rw [hrow, List.forall_mem_map]
      exact hheader

theorem length_expected (writeHeader : Bool) (messages : List Message) :
    ∀ record ∈ expected writeHeader messages, record.length = 12 := by
  rw [expected, List.forall_mem_append, List.forall_mem_map]
  constructor
  · cases writeHeader <;> decide
  · exact fun _ _ => rfl

theorem parse_out_iff (writeHeader : Bool) (messages : List Message) :
    csv.parse (messages.foldl .write (CsvSink.init writeHeader)).out =
        some (expected writeHeader messages) ↔
      ∀ m ∈ messages, Readable m := by
  have hrows : ∀ row ∈ rows writeHeader messages, row ≠ [] := by
    intro row hrow hnil
    have hlength := length_expected writeHeader messages
      (row.map (·.value)) (by
        rw [← map_rows]
        exact List.mem_map_of_mem hrow)
    rw [hnil] at hlength
    cases hlength
  rw [foldl_init, ← map_rows, ← good_rows_iff writeHeader]
  exact csv.parse_records _ hrows

/-- Each message is read back as the one record that was written for it, if
and only if its text columns can be read. -/
theorem readsBack_iff (writeHeader : Bool) (messages : List Message) :
    ReadsBack writeHeader messages ↔ ∀ m ∈ messages, Readable m := by
  constructor
  · intro h
    exact (parse_out_iff writeHeader messages).mp h.parses
  · intro h
    refine ⟨(parse_out_iff writeHeader messages).mpr h,
      length_expected writeHeader messages, ?_⟩
    rw [(foldl_write _ _).2, List.length_map]
    exact UInt64.zero_add _

/-- An order whose side is a comma. -/
def commaOrder : AddOrderMessage := { buySellIndicator := ','.toUInt8 }

/-- The parser delivers that order, and the row of it has thirteen fields. -/
theorem not_readsBack_commaOrder :
    ¬ ∀ (data : List UInt8) (writeHeader : Bool),
      ReadsBack writeHeader (Parser.parse {} data).messages := by
  intro h
  have hsend : ∀ item ∈ [some (Message.addOrder commaOrder)],
      StreamItem.Sendable item := by
    intro item hitem m hm
    rw [List.mem_singleton] at hitem
    obtain rfl := Option.some.inj (hitem.symm.trans hm)
    exact ⟨rfl, by decide⟩
  have hparse := Parser.parse_eq (Parser.parseImpl_items {} hsend)
  have hread :=
    h ([some (Message.addOrder commaOrder)].map StreamItem.bytes).flatten true
  rw [hparse] at hread
  obtain ⟨-, -, hside⟩ := (parse_out_iff true _).mp hread.parses
    (.addOrder commaOrder) List.mem_cons_self
  exact hside.1 rfl

end Itch.Export
