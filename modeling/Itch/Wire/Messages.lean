import Itch.Basic
import Itch.Framework.ByteCursor

/-!
# The messages and their wire sizes

Every struct begins with the four common fields of `MessageHeader`. Its
`messageType` is its own type byte by default, but remains an ordinary field.
-/

namespace Itch

/-! ## §1  The structs -/

/-- A fixed-width character field. -/
abbrev Chars (n : ℕ) : Type := ByteCursor.Block UInt8 n

instance (n : ℕ) : Inhabited (Chars n) :=
  ⟨⟨List.replicate n 0, List.length_replicate⟩⟩

structure MessageHeader where
  messageType : UInt8
  stockLocate : UInt16 := 0
  trackingNumber : UInt16 := 0
  timestamp : UInt64 := 0

/-- System Event (`S`). -/
structure SystemEventMessage extends MessageHeader where
  messageType := 'S'.toUInt8
  eventCode : UInt8 := 0

/-- Stock Directory (`R`). -/
structure StockDirectoryMessage extends MessageHeader where
  messageType := 'R'.toUInt8
  stock : Chars 8 := default
  marketCategory : UInt8 := 0
  financialStatusIndicator : UInt8 := 0
  roundLotSize : UInt32 := 0
  roundLotsOnly : UInt8 := 0
  issueClassification : UInt8 := 0
  issueSubType : Chars 2 := default
  authenticity : UInt8 := 0
  shortSaleThresholdIndicator : UInt8 := 0
  ipoFlag : UInt8 := 0
  luldRef : UInt8 := 0
  etpFlag : UInt8 := 0
  etpLeverageFactor : UInt32 := 0
  inverseIndicator : UInt8 := 0

/-- Stock Trading Action (`H`). -/
structure StockTradingActionMessage extends MessageHeader where
  messageType := 'H'.toUInt8
  stock : Chars 8 := default
  tradingState : UInt8 := 0
  reserved : UInt8 := 0
  reason : Chars 4 := default

/-- Reg SHO Short Sale Price Test Restriction (`Y`). -/
structure RegSHOMessage extends MessageHeader where
  messageType := 'Y'.toUInt8
  stock : Chars 8 := default
  regShoAction : UInt8 := 0

/-- Market Participant Position (`L`). -/
structure MarketParticipantPositionMessage extends MessageHeader where
  messageType := 'L'.toUInt8
  mpid : Chars 4 := default
  stock : Chars 8 := default
  primaryMarketMaker : UInt8 := 0
  marketMakerMode : UInt8 := 0
  marketParticipantState : UInt8 := 0

/-- MWCB Decline Level (`V`). -/
structure MWCBDeclineLevelMessage extends MessageHeader where
  messageType := 'V'.toUInt8
  level1 : UInt64 := 0
  level2 : UInt64 := 0
  level3 : UInt64 := 0

/-- MWCB Status (`W`). -/
structure MWCBStatusMessage extends MessageHeader where
  messageType := 'W'.toUInt8
  breachedLevel : UInt8 := 0

/-- IPO Quoting Period Update (`K`). -/
structure IPOQuotingPeriodUpdateMessage extends MessageHeader where
  messageType := 'K'.toUInt8
  stock : Chars 8 := default
  ipoQuotationReleaseTime : UInt32 := 0
  ipoQuotationReleaseQualifier : UInt8 := 0
  ipoPrice : UInt32 := 0

/-- LULD Auction Collar (`J`). -/
structure LULDAuctionCollarMessage extends MessageHeader where
  messageType := 'J'.toUInt8
  stock : Chars 8 := default
  auctionCollarReferencePrice : UInt32 := 0
  upperAuctionCollarPrice : UInt32 := 0
  lowerAuctionCollarPrice : UInt32 := 0
  auctionCollarExtension : UInt32 := 0

/-- Operational Halt (`h`). -/
structure OperationalHaltMessage extends MessageHeader where
  messageType := 'h'.toUInt8
  stock : Chars 8 := default
  marketCode : UInt8 := 0
  operationalHaltAction : UInt8 := 0

/-- Add Order, No MPID Attribution (`A`). -/
structure AddOrderMessage extends MessageHeader where
  messageType := 'A'.toUInt8
  orderReferenceNumber : UInt64 := 0
  buySellIndicator : UInt8 := 0
  shares : UInt32 := 0
  stock : Chars 8 := default
  price : UInt32 := 0

/-- Add Order, With MPID Attribution (`F`). -/
structure AddOrderMPIDAttributionMessage extends MessageHeader where
  messageType := 'F'.toUInt8
  orderReferenceNumber : UInt64 := 0
  buySellIndicator : UInt8 := 0
  shares : UInt32 := 0
  stock : Chars 8 := default
  price : UInt32 := 0
  attribution : Chars 4 := default

/-- Order Executed (`E`). -/
structure OrderExecutedMessage extends MessageHeader where
  messageType := 'E'.toUInt8
  orderReferenceNumber : UInt64 := 0
  executedShares : UInt32 := 0
  matchNumber : UInt64 := 0

/-- Order Executed With Price (`C`). -/
structure OrderExecutedWithPriceMessage extends MessageHeader where
  messageType := 'C'.toUInt8
  orderReferenceNumber : UInt64 := 0
  executedShares : UInt32 := 0
  matchNumber : UInt64 := 0
  printable : UInt8 := 0
  executionPrice : UInt32 := 0

/-- Order Cancel (`X`). -/
structure OrderCancelMessage extends MessageHeader where
  messageType := 'X'.toUInt8
  orderReferenceNumber : UInt64 := 0
  cancelledShares : UInt32 := 0

/-- Order Delete (`D`). -/
structure OrderDeleteMessage extends MessageHeader where
  messageType := 'D'.toUInt8
  orderReferenceNumber : UInt64 := 0

/-- Order Replace (`U`). -/
structure OrderReplaceMessage extends MessageHeader where
  messageType := 'U'.toUInt8
  originalOrderReferenceNumber : UInt64 := 0
  newOrderReferenceNumber : UInt64 := 0
  shares : UInt32 := 0
  price : UInt32 := 0

/-- Trade, Non-Cross (`P`). -/
structure NonCrossTradeMessage extends MessageHeader where
  messageType := 'P'.toUInt8
  orderReferenceNumber : UInt64 := 0
  buySellIndicator : UInt8 := 0
  shares : UInt32 := 0
  stock : Chars 8 := default
  price : UInt32 := 0
  matchNumber : UInt64 := 0

/-- Cross Trade (`Q`). -/
structure CrossTradeMessage extends MessageHeader where
  messageType := 'Q'.toUInt8
  shares : UInt64 := 0
  stock : Chars 8 := default
  crossPrice : UInt32 := 0
  matchNumber : UInt64 := 0
  crossType : UInt8 := 0

/-- Broken Trade (`B`). -/
structure BrokenTradeMessage extends MessageHeader where
  messageType := 'B'.toUInt8
  matchNumber : UInt64 := 0

/-- Net Order Imbalance Indicator (`I`). -/
structure NOIIMessage extends MessageHeader where
  messageType := 'I'.toUInt8
  pairedShares : UInt64 := 0
  imbalanceShares : UInt64 := 0
  imbalanceDirection : UInt8 := 0
  stock : Chars 8 := default
  farPrice : UInt32 := 0
  nearPrice : UInt32 := 0
  currentReferencePrice : UInt32 := 0
  crossType : UInt8 := 0
  priceVariationIndicator : UInt8 := 0

/-- Retail Price Improvement Indicator (`N`). -/
structure RetailPriceImprovementIndicatorMessage extends MessageHeader where
  messageType := 'N'.toUInt8
  stock : Chars 8 := default
  interestFlag : UInt8 := 0

/-- Direct Listing with Capital Raise Price Discovery (`O`). -/
structure DLCRMessage extends MessageHeader where
  messageType := 'O'.toUInt8
  stock : Chars 8 := default
  openEligibilityStatus : UInt8 := 0
  minimumAllowablePrice : UInt32 := 0
  maximumAllowablePrice : UInt32 := 0
  nearExecutionPrice : UInt32 := 0
  nearExecutionTime : UInt64 := 0
  lowerPriceRangeCollar : UInt32 := 0
  upperPriceRangeCollar : UInt32 := 0

/-- Holds any one of the message structs. -/
inductive Message where
  | systemEvent (msg : SystemEventMessage)
  | stockDirectory (msg : StockDirectoryMessage)
  | stockTradingAction (msg : StockTradingActionMessage)
  | regSHO (msg : RegSHOMessage)
  | marketParticipantPosition (msg : MarketParticipantPositionMessage)
  | mwcbDeclineLevel (msg : MWCBDeclineLevelMessage)
  | mwcbStatus (msg : MWCBStatusMessage)
  | ipoQuotingPeriodUpdate (msg : IPOQuotingPeriodUpdateMessage)
  | luldAuctionCollar (msg : LULDAuctionCollarMessage)
  | operationalHalt (msg : OperationalHaltMessage)
  | addOrder (msg : AddOrderMessage)
  | addOrderMPIDAttribution (msg : AddOrderMPIDAttributionMessage)
  | orderExecuted (msg : OrderExecutedMessage)
  | orderExecutedWithPrice (msg : OrderExecutedWithPriceMessage)
  | orderCancel (msg : OrderCancelMessage)
  | orderDelete (msg : OrderDeleteMessage)
  | orderReplace (msg : OrderReplaceMessage)
  | nonCrossTrade (msg : NonCrossTradeMessage)
  | crossTrade (msg : CrossTradeMessage)
  | brokenTrade (msg : BrokenTradeMessage)
  | noii (msg : NOIIMessage)
  | retailPriceImprovementIndicator
      (msg : RetailPriceImprovementIndicatorMessage)
  | dlcr (msg : DLCRMessage)

/-- What the templates over the message structs use of them: a new object, its
common fields and its place in the variant. -/
class MessageStruct (M : Type) where
  init : M
  header : M → MessageHeader
  withHeader : M → MessageHeader → M
  toMessage : M → Message
  header_withHeader : ∀ m h, header (withHeader m h) = h
  withHeader_header : ∀ m, withHeader m (header m) = m

instance : MessageStruct SystemEventMessage :=
  ⟨{}, (·.toMessageHeader), fun m h => { m with toMessageHeader := h },
    .systemEvent, fun _ _ => rfl, fun _ => rfl⟩

instance : MessageStruct StockDirectoryMessage :=
  ⟨{}, (·.toMessageHeader), fun m h => { m with toMessageHeader := h },
    .stockDirectory, fun _ _ => rfl, fun _ => rfl⟩

instance : MessageStruct StockTradingActionMessage :=
  ⟨{}, (·.toMessageHeader), fun m h => { m with toMessageHeader := h },
    .stockTradingAction, fun _ _ => rfl, fun _ => rfl⟩

instance : MessageStruct RegSHOMessage :=
  ⟨{}, (·.toMessageHeader), fun m h => { m with toMessageHeader := h },
    .regSHO, fun _ _ => rfl, fun _ => rfl⟩

instance : MessageStruct MarketParticipantPositionMessage :=
  ⟨{}, (·.toMessageHeader), fun m h => { m with toMessageHeader := h },
    .marketParticipantPosition, fun _ _ => rfl, fun _ => rfl⟩

instance : MessageStruct MWCBDeclineLevelMessage :=
  ⟨{}, (·.toMessageHeader), fun m h => { m with toMessageHeader := h },
    .mwcbDeclineLevel, fun _ _ => rfl, fun _ => rfl⟩

instance : MessageStruct MWCBStatusMessage :=
  ⟨{}, (·.toMessageHeader), fun m h => { m with toMessageHeader := h },
    .mwcbStatus, fun _ _ => rfl, fun _ => rfl⟩

instance : MessageStruct IPOQuotingPeriodUpdateMessage :=
  ⟨{}, (·.toMessageHeader), fun m h => { m with toMessageHeader := h },
    .ipoQuotingPeriodUpdate, fun _ _ => rfl, fun _ => rfl⟩

instance : MessageStruct LULDAuctionCollarMessage :=
  ⟨{}, (·.toMessageHeader), fun m h => { m with toMessageHeader := h },
    .luldAuctionCollar, fun _ _ => rfl, fun _ => rfl⟩

instance : MessageStruct OperationalHaltMessage :=
  ⟨{}, (·.toMessageHeader), fun m h => { m with toMessageHeader := h },
    .operationalHalt, fun _ _ => rfl, fun _ => rfl⟩

instance : MessageStruct AddOrderMessage :=
  ⟨{}, (·.toMessageHeader), fun m h => { m with toMessageHeader := h },
    .addOrder, fun _ _ => rfl, fun _ => rfl⟩

instance : MessageStruct AddOrderMPIDAttributionMessage :=
  ⟨{}, (·.toMessageHeader), fun m h => { m with toMessageHeader := h },
    .addOrderMPIDAttribution, fun _ _ => rfl, fun _ => rfl⟩

instance : MessageStruct OrderExecutedMessage :=
  ⟨{}, (·.toMessageHeader), fun m h => { m with toMessageHeader := h },
    .orderExecuted, fun _ _ => rfl, fun _ => rfl⟩

instance : MessageStruct OrderExecutedWithPriceMessage :=
  ⟨{}, (·.toMessageHeader), fun m h => { m with toMessageHeader := h },
    .orderExecutedWithPrice, fun _ _ => rfl, fun _ => rfl⟩

instance : MessageStruct OrderCancelMessage :=
  ⟨{}, (·.toMessageHeader), fun m h => { m with toMessageHeader := h },
    .orderCancel, fun _ _ => rfl, fun _ => rfl⟩

instance : MessageStruct OrderDeleteMessage :=
  ⟨{}, (·.toMessageHeader), fun m h => { m with toMessageHeader := h },
    .orderDelete, fun _ _ => rfl, fun _ => rfl⟩

instance : MessageStruct OrderReplaceMessage :=
  ⟨{}, (·.toMessageHeader), fun m h => { m with toMessageHeader := h },
    .orderReplace, fun _ _ => rfl, fun _ => rfl⟩

instance : MessageStruct NonCrossTradeMessage :=
  ⟨{}, (·.toMessageHeader), fun m h => { m with toMessageHeader := h },
    .nonCrossTrade, fun _ _ => rfl, fun _ => rfl⟩

instance : MessageStruct CrossTradeMessage :=
  ⟨{}, (·.toMessageHeader), fun m h => { m with toMessageHeader := h },
    .crossTrade, fun _ _ => rfl, fun _ => rfl⟩

instance : MessageStruct BrokenTradeMessage :=
  ⟨{}, (·.toMessageHeader), fun m h => { m with toMessageHeader := h },
    .brokenTrade, fun _ _ => rfl, fun _ => rfl⟩

instance : MessageStruct NOIIMessage :=
  ⟨{}, (·.toMessageHeader), fun m h => { m with toMessageHeader := h },
    .noii, fun _ _ => rfl, fun _ => rfl⟩

instance : MessageStruct RetailPriceImprovementIndicatorMessage :=
  ⟨{}, (·.toMessageHeader), fun m h => { m with toMessageHeader := h },
    .retailPriceImprovementIndicator, fun _ _ => rfl, fun _ => rfl⟩

instance : MessageStruct DLCRMessage :=
  ⟨{}, (·.toMessageHeader), fun m h => { m with toMessageHeader := h },
    .dlcr, fun _ _ => rfl, fun _ => rfl⟩
/-! ## §2  Wire metadata -/

/-- The alternatives of `Message`. -/
inductive MsgType where
  | systemEvent
  | stockDirectory
  | stockTradingAction
  | regSHO
  | marketParticipantPosition
  | mwcbDeclineLevel
  | mwcbStatus
  | ipoQuotingPeriodUpdate
  | luldAuctionCollar
  | operationalHalt
  | addOrder
  | addOrderMPIDAttribution
  | orderExecuted
  | orderExecutedWithPrice
  | orderCancel
  | orderDelete
  | orderReplace
  | nonCrossTrade
  | crossTrade
  | brokenTrade
  | noii
  | retailPriceImprovementIndicator
  | dlcr
deriving DecidableEq, Repr

/-- The common fields take 13 bytes of a struct: the timestamp is 48 bits wide
on the wire but 64 in the struct. -/
def HEADER_SIZE : ℕ := 1 + 2 + 2 + 8

def TIMESTAMP_STRUCT_PADDING : ℕ := 8 - 6

def Message.alternative : Message → MsgType
  | .systemEvent _ => .systemEvent
  | .stockDirectory _ => .stockDirectory
  | .stockTradingAction _ => .stockTradingAction
  | .regSHO _ => .regSHO
  | .marketParticipantPosition _ => .marketParticipantPosition
  | .mwcbDeclineLevel _ => .mwcbDeclineLevel
  | .mwcbStatus _ => .mwcbStatus
  | .ipoQuotingPeriodUpdate _ => .ipoQuotingPeriodUpdate
  | .luldAuctionCollar _ => .luldAuctionCollar
  | .operationalHalt _ => .operationalHalt
  | .addOrder _ => .addOrder
  | .addOrderMPIDAttribution _ => .addOrderMPIDAttribution
  | .orderExecuted _ => .orderExecuted
  | .orderExecutedWithPrice _ => .orderExecutedWithPrice
  | .orderCancel _ => .orderCancel
  | .orderDelete _ => .orderDelete
  | .orderReplace _ => .orderReplace
  | .nonCrossTrade _ => .nonCrossTrade
  | .crossTrade _ => .crossTrade
  | .brokenTrade _ => .brokenTrade
  | .noii _ => .noii
  | .retailPriceImprovementIndicator _ => .retailPriceImprovementIndicator
  | .dlcr _ => .dlcr

def Message.header : Message → MessageHeader
  | .systemEvent msg => msg.toMessageHeader
  | .stockDirectory msg => msg.toMessageHeader
  | .stockTradingAction msg => msg.toMessageHeader
  | .regSHO msg => msg.toMessageHeader
  | .marketParticipantPosition msg => msg.toMessageHeader
  | .mwcbDeclineLevel msg => msg.toMessageHeader
  | .mwcbStatus msg => msg.toMessageHeader
  | .ipoQuotingPeriodUpdate msg => msg.toMessageHeader
  | .luldAuctionCollar msg => msg.toMessageHeader
  | .operationalHalt msg => msg.toMessageHeader
  | .addOrder msg => msg.toMessageHeader
  | .addOrderMPIDAttribution msg => msg.toMessageHeader
  | .orderExecuted msg => msg.toMessageHeader
  | .orderExecutedWithPrice msg => msg.toMessageHeader
  | .orderCancel msg => msg.toMessageHeader
  | .orderDelete msg => msg.toMessageHeader
  | .orderReplace msg => msg.toMessageHeader
  | .nonCrossTrade msg => msg.toMessageHeader
  | .crossTrade msg => msg.toMessageHeader
  | .brokenTrade msg => msg.toMessageHeader
  | .noii msg => msg.toMessageHeader
  | .retailPriceImprovementIndicator msg => msg.toMessageHeader
  | .dlcr msg => msg.toMessageHeader

/-- `sizeof(MsgType)`: the structs are packed, so it is the sum of the widths
of their fields. -/
def MsgType.sizeof : MsgType → ℕ
  | .systemEvent => HEADER_SIZE + 1
  | .stockDirectory =>
      HEADER_SIZE + 8 + 1 + 1 + 4 + 1 + 1 + 2 + 1 + 1 + 1 + 1 + 1 + 4 + 1
  | .stockTradingAction => HEADER_SIZE + 8 + 1 + 1 + 4
  | .regSHO => HEADER_SIZE + 8 + 1
  | .marketParticipantPosition => HEADER_SIZE + 4 + 8 + 1 + 1 + 1
  | .mwcbDeclineLevel => HEADER_SIZE + 8 + 8 + 8
  | .mwcbStatus => HEADER_SIZE + 1
  | .ipoQuotingPeriodUpdate => HEADER_SIZE + 8 + 4 + 1 + 4
  | .luldAuctionCollar => HEADER_SIZE + 8 + 4 + 4 + 4 + 4
  | .operationalHalt => HEADER_SIZE + 8 + 1 + 1
  | .addOrder => HEADER_SIZE + 8 + 1 + 4 + 8 + 4
  | .addOrderMPIDAttribution => HEADER_SIZE + 8 + 1 + 4 + 8 + 4 + 4
  | .orderExecuted => HEADER_SIZE + 8 + 4 + 8
  | .orderExecutedWithPrice => HEADER_SIZE + 8 + 4 + 8 + 1 + 4
  | .orderCancel => HEADER_SIZE + 8 + 4
  | .orderDelete => HEADER_SIZE + 8
  | .orderReplace => HEADER_SIZE + 8 + 8 + 4 + 4
  | .nonCrossTrade => HEADER_SIZE + 8 + 1 + 4 + 8 + 4 + 8
  | .crossTrade => HEADER_SIZE + 8 + 8 + 4 + 8 + 1
  | .brokenTrade => HEADER_SIZE + 8
  | .noii => HEADER_SIZE + 8 + 8 + 1 + 8 + 4 + 4 + 4 + 1 + 1
  | .retailPriceImprovementIndicator => HEADER_SIZE + 8 + 1
  | .dlcr => HEADER_SIZE + 8 + 1 + 4 + 4 + 4 + 8 + 4 + 4

/-- The exact on-wire size of a fully formed message. -/
def MsgType.wireSize (t : MsgType) : ℕ := t.sizeof - TIMESTAMP_STRUCT_PADDING

example : [MsgType.systemEvent, .stockDirectory, .addOrder, .noii,
    .dlcr].map MsgType.wireSize = [12, 39, 36, 50, 48] := rfl

/-- `for_each_message_type`: the registry of message types and their type
bytes, in the order of the visit. -/
def registry : List (MsgType × UInt8) :=
  [(.systemEvent, 'S'.toUInt8),
    (.stockDirectory, 'R'.toUInt8),
    (.stockTradingAction, 'H'.toUInt8),
    (.regSHO, 'Y'.toUInt8),
    (.marketParticipantPosition, 'L'.toUInt8),
    (.mwcbDeclineLevel, 'V'.toUInt8),
    (.mwcbStatus, 'W'.toUInt8),
    (.ipoQuotingPeriodUpdate, 'K'.toUInt8),
    (.luldAuctionCollar, 'J'.toUInt8),
    (.operationalHalt, 'h'.toUInt8),
    (.addOrder, 'A'.toUInt8),
    (.addOrderMPIDAttribution, 'F'.toUInt8),
    (.orderExecuted, 'E'.toUInt8),
    (.orderExecutedWithPrice, 'C'.toUInt8),
    (.orderCancel, 'X'.toUInt8),
    (.orderDelete, 'D'.toUInt8),
    (.orderReplace, 'U'.toUInt8),
    (.nonCrossTrade, 'P'.toUInt8),
    (.crossTrade, 'Q'.toUInt8),
    (.brokenTrade, 'B'.toUInt8),
    (.noii, 'I'.toUInt8),
    (.retailPriceImprovementIndicator, 'N'.toUInt8),
    (.dlcr, 'O'.toUInt8)]

/-- The type byte under which an alternative is registered. -/
def MsgType.typeByte (t : MsgType) : UInt8 :=
  ((registry.find? (fun e => e.1 == t)).map (·.2)).getD 0

/-! ## §3  Symbols -/

/-- `to_string`: the field without its trailing spaces and NUL bytes. -/
def toString {n : ℕ} (source : Chars n) : Str :=
  (source.val.reverse.dropWhile
    (fun c => c == ' '.toUInt8 || c == 0)).reverse

end Itch
