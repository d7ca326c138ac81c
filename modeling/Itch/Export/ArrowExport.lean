import Itch.Export.CsvSink

/-!
# The Arrow exporter

§1 is the exporter, a list of cells for each column. §2 compares the cells of
a message with its row in the CSV sink.
-/

namespace Itch.Export

/-! ## §1  The exporter -/

/-- A column that is being built, a null being `none`. It records the cells
that it is given, in order, as is assumed of Arrow. -/
abbrev Builder (α : Type) : Type := List (Option α)

def Builder.append {α : Type} (b : Builder α) (value : α) : Builder α :=
  b ++ [some value]

def Builder.appendNull {α : Type} (b : Builder α) : Builder α := b ++ [none]

structure Impl where
  messageType : Builder Str := []
  timestamp : Builder UInt64 := []
  stockLocate : Builder UInt16 := []
  trackingNumber : Builder UInt16 := []
  symbol : Builder Str := []
  referenceNumber : Builder UInt64 := []
  side : Builder Str := []
  shares : Builder UInt64 := []
  price : Builder ℚ := []
  matchNumber : Builder UInt64 := []
  printable : Builder Str := []
  extra : Builder Str := []
  rowCount : UInt64 := 0

def Impl.appendCommon (impl : Impl) (msg : MessageHeader) : Impl :=
  { impl with
    messageType := impl.messageType.append [msg.messageType]
    timestamp := impl.timestamp.append msg.timestamp
    stockLocate := impl.stockLocate.append msg.stockLocate
    trackingNumber := impl.trackingNumber.append msg.trackingNumber }

namespace ArrowExporter

/-- The local variables of `append`. -/
structure Values where
  symbolValue : Str := []
  hasReference : Bool := false
  reference : UInt64 := 0
  sideValue : Str := []
  hasShares : Bool := false
  sharesValue : UInt64 := 0
  hasPrice : Bool := false
  priceValue : ℚ := 0
  hasMatch : Bool := false
  matchValue : UInt64 := 0
  printableValue : Str := []
  extraValue : Str := []

def values (message : Message) : Values :=
  match message with
  | .addOrder add =>
      { symbolValue := toString add.stock
        hasReference := true
        reference := add.orderReferenceNumber
        sideValue := [add.buySellIndicator]
        hasShares := true
        sharesValue := add.shares.toUInt64
        hasPrice := true
        priceValue := StandardPrice.toDouble ⟨add.price⟩ }
  | .addOrderMPIDAttribution add =>
      { symbolValue := toString add.stock
        hasReference := true
        reference := add.orderReferenceNumber
        sideValue := [add.buySellIndicator]
        hasShares := true
        sharesValue := add.shares.toUInt64
        hasPrice := true
        priceValue := StandardPrice.toDouble ⟨add.price⟩
        extraValue := literal "mpid=" ++ toString add.attribution }
  | .orderExecuted exec =>
      { hasReference := true
        reference := exec.orderReferenceNumber
        hasShares := true
        sharesValue := exec.executedShares.toUInt64
        hasMatch := true
        matchValue := exec.matchNumber }
  | .orderExecutedWithPrice exec =>
      { hasReference := true
        reference := exec.orderReferenceNumber
        hasShares := true
        sharesValue := exec.executedShares.toUInt64
        hasPrice := true
        priceValue := StandardPrice.toDouble ⟨exec.executionPrice⟩
        hasMatch := true
        matchValue := exec.matchNumber
        printableValue := [exec.printable] }
  | .orderCancel cancel =>
      { hasReference := true
        reference := cancel.orderReferenceNumber
        hasShares := true
        sharesValue := cancel.cancelledShares.toUInt64 }
  | .orderDelete del =>
      { hasReference := true
        reference := del.orderReferenceNumber }
  | .orderReplace replace =>
      { hasReference := true
        reference := replace.newOrderReferenceNumber
        hasShares := true
        sharesValue := replace.shares.toUInt64
        hasPrice := true
        priceValue := StandardPrice.toDouble ⟨replace.price⟩
        extraValue := literal "orig=" ++
          decimalDigits replace.originalOrderReferenceNumber.toNat }
  | .nonCrossTrade trade =>
      { symbolValue := toString trade.stock
        hasReference := true
        reference := trade.orderReferenceNumber
        sideValue := [trade.buySellIndicator]
        hasShares := true
        sharesValue := trade.shares.toUInt64
        hasPrice := true
        priceValue := StandardPrice.toDouble ⟨trade.price⟩
        hasMatch := true
        matchValue := trade.matchNumber }
  | .crossTrade cross =>
      { symbolValue := toString cross.stock
        hasShares := true
        sharesValue := cross.shares
        hasPrice := true
        priceValue := StandardPrice.toDouble ⟨cross.crossPrice⟩
        hasMatch := true
        matchValue := cross.matchNumber
        extraValue := literal "cross=" ++ [cross.crossType] }
  | .systemEvent event =>
      { extraValue := literal "event=" ++ [event.eventCode] }
  | .stockDirectory directory =>
      { symbolValue := toString directory.stock }
  | _ => {}

def append (impl : Impl) (message : Message) : Impl :=
  let impl := impl.appendCommon message.header
  let v := values message
  { impl with
    symbol := impl.symbol.append v.symbolValue
    referenceNumber :=
      if v.hasReference then impl.referenceNumber.append v.reference
      else impl.referenceNumber.appendNull
    side := impl.side.append v.sideValue
    shares :=
      if v.hasShares then impl.shares.append v.sharesValue
      else impl.shares.appendNull
    price :=
      if v.hasPrice then impl.price.append v.priceValue
      else impl.price.appendNull
    matchNumber :=
      if v.hasMatch then impl.matchNumber.append v.matchValue
      else impl.matchNumber.appendNull
    printable := impl.printable.append v.printableValue
    extra := impl.extra.append v.extraValue
    rowCount := impl.rowCount + 1 }

end ArrowExporter

/-! ## §2  The two exporters -/

/-- One cell of each column. -/
structure Cells where
  messageType : Option Str
  timestamp : Option UInt64
  stockLocate : Option UInt16
  trackingNumber : Option UInt16
  symbol : Option Str
  referenceNumber : Option UInt64
  side : Option Str
  shares : Option UInt64
  price : Option ℚ
  matchNumber : Option UInt64
  printable : Option Str
  extra : Option Str

/-- Exactly one more cell in each column. -/
def Impl.push (impl : Impl) (c : Cells) : Impl where
  messageType := impl.messageType ++ [c.messageType]
  timestamp := impl.timestamp ++ [c.timestamp]
  stockLocate := impl.stockLocate ++ [c.stockLocate]
  trackingNumber := impl.trackingNumber ++ [c.trackingNumber]
  symbol := impl.symbol ++ [c.symbol]
  referenceNumber := impl.referenceNumber ++ [c.referenceNumber]
  side := impl.side ++ [c.side]
  shares := impl.shares ++ [c.shares]
  price := impl.price ++ [c.price]
  matchNumber := impl.matchNumber ++ [c.matchNumber]
  printable := impl.printable ++ [c.printable]
  extra := impl.extra ++ [c.extra]
  rowCount := impl.rowCount + 1

/-- A null or an empty text is a blank column. -/
def TextAgrees (cell : Option Str) (text : Str) : Prop := cell.getD [] = text

structure NumberAgrees (cell : Option UInt64) (text : Str) : Prop where
  blank : cell = none ↔ text = []
  number : ∀ n, cell = some n → text = decimalDigits n.toNat

/-- The double and the text are those of one price. -/
structure PriceAgrees (cell : Option ℚ) (text : Str) : Prop where
  blank : cell = none ↔ text = []
  price : ∀ q, cell = some q →
    ∃ p : StandardPrice, q = p.toDouble ∧ text = p.toString

/-- The cells are those of the row, in all twelve columns. -/
structure Agrees (c : Cells) (row : Row) : Prop where
  messageType : TextAgrees c.messageType [row.messageType]
  timestamp : c.timestamp = some row.timestamp
  stockLocate : c.stockLocate = some row.stockLocate
  trackingNumber : c.trackingNumber = some row.trackingNumber
  symbol : TextAgrees c.symbol row.symbol
  referenceNumber : NumberAgrees c.referenceNumber row.referenceNumber
  side : TextAgrees c.side (charField row.side)
  shares : NumberAgrees c.shares row.shares
  price : PriceAgrees c.price row.price
  matchNumber : NumberAgrees c.matchNumber row.matchNumber
  printable : TextAgrees c.printable (charField row.printable)
  extra : TextAgrees c.extra row.extra

/-- No character column is NUL, and the message is not a stock directory,
whose market category the exporter leaves out. -/
def FlattensAlike : Message → Prop
  | .addOrder add => add.buySellIndicator ≠ 0
  | .addOrderMPIDAttribution add => add.buySellIndicator ≠ 0
  | .orderExecutedWithPrice exec => exec.printable ≠ 0
  | .nonCrossTrade trade => trade.buySellIndicator ≠ 0
  | .stockDirectory _ => False
  | _ => True

/-- The cells that `append` adds. -/
def cells (message : Message) : Cells :=
  let v := ArrowExporter.values message
  { messageType := some [message.header.messageType]
    timestamp := some message.header.timestamp
    stockLocate := some message.header.stockLocate
    trackingNumber := some message.header.trackingNumber
    symbol := some v.symbolValue
    referenceNumber := if v.hasReference then some v.reference else none
    side := some v.sideValue
    shares := if v.hasShares then some v.sharesValue else none
    price := if v.hasPrice then some v.priceValue else none
    matchNumber := if v.hasMatch then some v.matchValue else none
    printable := some v.printableValue
    extra := some v.extraValue }

theorem append_eq_push (impl : Impl) (message : Message) :
    ArrowExporter.append impl message = impl.push (cells message) := by
  have hcell {α : Type} (has : Bool) (b : Builder α) (value : α) :
      (if has then b.append value else b.appendNull) =
        b ++ [if has then some value else none] := by
    cases has <;> rfl
  rw [ArrowExporter.append, hcell, hcell, hcell, hcell]
  rfl

theorem numberAgrees_none : NumberAgrees none [] :=
  ⟨iff_of_true rfl rfl, fun _ h => nomatch h⟩

theorem numberAgrees_some (n : UInt64) :
    NumberAgrees (some n) (decimalDigits n.toNat) := by
  refine ⟨iff_of_false (Option.some_ne_none n) (decimalDigits_ne_nil _), ?_⟩
  rintro _ ⟨⟩
  rfl

theorem numberAgrees_toUInt64 (n : UInt32) :
    NumberAgrees (some n.toUInt64) (decimalDigits n.toNat) := by
  have h := numberAgrees_some n.toUInt64
  rwa [UInt32.toNat_toUInt64] at h

theorem priceAgrees_none : PriceAgrees none [] :=
  ⟨iff_of_true rfl rfl, fun _ h => nomatch h⟩

theorem priceAgrees_some (p : StandardPrice) :
    PriceAgrees (some p.toDouble) p.toString := by
  constructor
  · refine iff_of_false (Option.some_ne_none _) ?_
    rw [StandardPrice.toString_eq]
    exact List.append_ne_nil_of_right_ne_nil _ (List.cons_ne_nil _ _)
  · rintro _ ⟨⟩
    exact ⟨p, rfl, rfl⟩

/-- The other columns always agree. -/
theorem agrees_iff_texts (message : Message) :
    Agrees (cells message) (buildRow message) ↔
      (ArrowExporter.values message).sideValue =
          charField (buildRow message).side ∧
        (ArrowExporter.values message).printableValue =
          charField (buildRow message).printable ∧
        (ArrowExporter.values message).extraValue =
          (buildRow message).extra := by
  constructor
  · intro h
    exact ⟨h.side, h.printable, h.extra⟩
  · rintro ⟨hside, hprintable, hextra⟩
    cases message
    all_goals
      refine ⟨rfl, rfl, rfl, rfl, rfl, ?_, hside, ?_, ?_, ?_, hprintable,
        hextra⟩ <;>
      first
      | exact numberAgrees_none
      | exact numberAgrees_some _
      | exact numberAgrees_toUInt64 _
      | exact priceAgrees_none
      | exact priceAgrees_some _

theorem singleton_eq_charField {c : UInt8} : [c] = charField c ↔ c ≠ 0 := by
  rw [charField]
  by_cases h : c = 0
  · rw [if_pos h]
    exact iff_of_false (List.cons_ne_nil _ _) fun hne => hne h
  · rw [if_neg h]
    exact iff_of_true rfl h

theorem agrees_iff (message : Message) :
    Agrees (cells message) (buildRow message) ↔ FlattensAlike message := by
  have hnil : [] = charField 0 := rfl
  have hcategory (c : UInt8) : [] ≠ literal "category=" ++ [c] :=
    (List.append_ne_nil_of_right_ne_nil _ (List.cons_ne_nil _ _)).symm
  rw [agrees_iff_texts]
  cases message
  all_goals
    simp only [ArrowExporter.values, buildRow, fillCommon, FlattensAlike,
      singleton_eq_charField, ← hnil, and_true, true_and]
  case stockDirectory directory => exact iff_false_intro (hcategory _)

/-- Every append adds one cell to each column, and they are those of the row
in the CSV sink if and only if the message flattens alike. -/
theorem append_agrees_iff (impl : Impl) (message : Message) :
    ∃ c, ArrowExporter.append impl message = impl.push c ∧
      (Agrees c (buildRow message) ↔ FlattensAlike message) :=
  ⟨cells message, append_eq_push impl message, agrees_iff message⟩

/-- The market category of a stock directory is in the CSV row only. -/
theorem not_agrees_stockDirectory :
    ¬ ∀ (impl : Impl) (message : Message),
      ∃ c, ArrowExporter.append impl message = impl.push c ∧
        Agrees c (buildRow message) := by
  intro h
  obtain ⟨c, happend, hagrees⟩ := h {} (.stockDirectory {})
  have hextra : c.extra = some [] := by
    have hcolumn := congrArg Impl.extra happend
    exact (List.cons.inj hcolumn).1.symm
  have htext := hagrees.extra
  rw [hextra] at htext
  revert htext
  unfold TextAgrees
  decide

end Itch.Export
