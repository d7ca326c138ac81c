import Itch.Wire.Messages

/-!
# The parser

§1 reads single fields, §2 whole messages, §3 is the framing loop. A read past
the end of the buffer, which the source leaves undefined, is `none`. What the
loop does is proved in `Framing`.
-/

namespace Itch

open ByteCursor

/-! ## §1  Fields -/

/-- `utils::unpack`: a big-endian integer, whatever the host order is. -/
def unpack (ValueType : Type) [Word ValueType] : Reader UInt8 ValueType :=
  (fun bs => Word.ofNat (decodeBE bs.val)) <$> take (Word.width ValueType)

def unpackString (size : ℕ) : Reader UInt8 (Chars size) := take size

def unpackTimestamp : Reader UInt8 UInt64 := do
  let high ← unpack UInt16
  let low ← unpack UInt32
  return (high.toUInt64 <<< 32) ||| low.toUInt64

/-! ## §2  Messages -/

/-- The overloads of `unpack_message`. -/
class UnpackMessage (M : Type) where
  unpackMessage : M → Reader UInt8 M

export UnpackMessage (unpackMessage)

instance : UnpackMessage SystemEventMessage where
  unpackMessage msg := do
    let eventCode ← unpack UInt8
    return { msg with eventCode }

instance : UnpackMessage StockDirectoryMessage where
  unpackMessage msg := do
    let stock ← unpackString 8
    let marketCategory ← unpack UInt8
    let financialStatusIndicator ← unpack UInt8
    let roundLotSize ← unpack UInt32
    let roundLotsOnly ← unpack UInt8
    let issueClassification ← unpack UInt8
    let issueSubType ← unpackString 2
    let authenticity ← unpack UInt8
    let shortSaleThresholdIndicator ← unpack UInt8
    let ipoFlag ← unpack UInt8
    let luldRef ← unpack UInt8
    let etpFlag ← unpack UInt8
    let etpLeverageFactor ← unpack UInt32
    let inverseIndicator ← unpack UInt8
    return { msg with
      stock, marketCategory, financialStatusIndicator, roundLotSize,
      roundLotsOnly, issueClassification, issueSubType, authenticity,
      shortSaleThresholdIndicator, ipoFlag, luldRef, etpFlag,
      etpLeverageFactor, inverseIndicator }

instance : UnpackMessage StockTradingActionMessage where
  unpackMessage msg := do
    let stock ← unpackString 8
    let tradingState ← unpack UInt8
    let reserved ← unpack UInt8
    let reason ← unpackString 4
    return { msg with stock, tradingState, reserved, reason }

instance : UnpackMessage RegSHOMessage where
  unpackMessage msg := do
    let stock ← unpackString 8
    let regShoAction ← unpack UInt8
    return { msg with stock, regShoAction }

instance : UnpackMessage MarketParticipantPositionMessage where
  unpackMessage msg := do
    let mpid ← unpackString 4
    let stock ← unpackString 8
    let primaryMarketMaker ← unpack UInt8
    let marketMakerMode ← unpack UInt8
    let marketParticipantState ← unpack UInt8
    return { msg with
      mpid, stock, primaryMarketMaker, marketMakerMode,
      marketParticipantState }

instance : UnpackMessage MWCBDeclineLevelMessage where
  unpackMessage msg := do
    let level1 ← unpack UInt64
    let level2 ← unpack UInt64
    let level3 ← unpack UInt64
    return { msg with level1, level2, level3 }

instance : UnpackMessage MWCBStatusMessage where
  unpackMessage msg := do
    let breachedLevel ← unpack UInt8
    return { msg with breachedLevel }

instance : UnpackMessage IPOQuotingPeriodUpdateMessage where
  unpackMessage msg := do
    let stock ← unpackString 8
    let ipoQuotationReleaseTime ← unpack UInt32
    let ipoQuotationReleaseQualifier ← unpack UInt8
    let ipoPrice ← unpack UInt32
    return { msg with
      stock, ipoQuotationReleaseTime, ipoQuotationReleaseQualifier, ipoPrice }

instance : UnpackMessage LULDAuctionCollarMessage where
  unpackMessage msg := do
    let stock ← unpackString 8
    let auctionCollarReferencePrice ← unpack UInt32
    let upperAuctionCollarPrice ← unpack UInt32
    let lowerAuctionCollarPrice ← unpack UInt32
    let auctionCollarExtension ← unpack UInt32
    return { msg with
      stock, auctionCollarReferencePrice, upperAuctionCollarPrice,
      lowerAuctionCollarPrice, auctionCollarExtension }

instance : UnpackMessage OperationalHaltMessage where
  unpackMessage msg := do
    let stock ← unpackString 8
    let marketCode ← unpack UInt8
    let operationalHaltAction ← unpack UInt8
    return { msg with stock, marketCode, operationalHaltAction }

instance : UnpackMessage AddOrderMessage where
  unpackMessage msg := do
    let orderReferenceNumber ← unpack UInt64
    let buySellIndicator ← unpack UInt8
    let shares ← unpack UInt32
    let stock ← unpackString 8
    let price ← unpack UInt32
    return { msg with
      orderReferenceNumber, buySellIndicator, shares, stock, price }

instance : UnpackMessage AddOrderMPIDAttributionMessage where
  unpackMessage msg := do
    let orderReferenceNumber ← unpack UInt64
    let buySellIndicator ← unpack UInt8
    let shares ← unpack UInt32
    let stock ← unpackString 8
    let price ← unpack UInt32
    let attribution ← unpackString 4
    return { msg with
      orderReferenceNumber, buySellIndicator, shares, stock, price,
      attribution }

instance : UnpackMessage OrderExecutedMessage where
  unpackMessage msg := do
    let orderReferenceNumber ← unpack UInt64
    let executedShares ← unpack UInt32
    let matchNumber ← unpack UInt64
    return { msg with orderReferenceNumber, executedShares, matchNumber }

instance : UnpackMessage OrderExecutedWithPriceMessage where
  unpackMessage msg := do
    let orderReferenceNumber ← unpack UInt64
    let executedShares ← unpack UInt32
    let matchNumber ← unpack UInt64
    let printable ← unpack UInt8
    let executionPrice ← unpack UInt32
    return { msg with
      orderReferenceNumber, executedShares, matchNumber, printable,
      executionPrice }

instance : UnpackMessage OrderCancelMessage where
  unpackMessage msg := do
    let orderReferenceNumber ← unpack UInt64
    let cancelledShares ← unpack UInt32
    return { msg with orderReferenceNumber, cancelledShares }

instance : UnpackMessage OrderDeleteMessage where
  unpackMessage msg := do
    let orderReferenceNumber ← unpack UInt64
    return { msg with orderReferenceNumber }

instance : UnpackMessage OrderReplaceMessage where
  unpackMessage msg := do
    let originalOrderReferenceNumber ← unpack UInt64
    let newOrderReferenceNumber ← unpack UInt64
    let shares ← unpack UInt32
    let price ← unpack UInt32
    return { msg with
      originalOrderReferenceNumber, newOrderReferenceNumber, shares, price }

instance : UnpackMessage NonCrossTradeMessage where
  unpackMessage msg := do
    let orderReferenceNumber ← unpack UInt64
    let buySellIndicator ← unpack UInt8
    let shares ← unpack UInt32
    let stock ← unpackString 8
    let price ← unpack UInt32
    let matchNumber ← unpack UInt64
    return { msg with
      orderReferenceNumber, buySellIndicator, shares, stock, price,
      matchNumber }

instance : UnpackMessage CrossTradeMessage where
  unpackMessage msg := do
    let shares ← unpack UInt64
    let stock ← unpackString 8
    let crossPrice ← unpack UInt32
    let matchNumber ← unpack UInt64
    let crossType ← unpack UInt8
    return { msg with shares, stock, crossPrice, matchNumber, crossType }

instance : UnpackMessage BrokenTradeMessage where
  unpackMessage msg := do
    let matchNumber ← unpack UInt64
    return { msg with matchNumber }

instance : UnpackMessage NOIIMessage where
  unpackMessage msg := do
    let pairedShares ← unpack UInt64
    let imbalanceShares ← unpack UInt64
    let imbalanceDirection ← unpack UInt8
    let stock ← unpackString 8
    let farPrice ← unpack UInt32
    let nearPrice ← unpack UInt32
    let currentReferencePrice ← unpack UInt32
    let crossType ← unpack UInt8
    let priceVariationIndicator ← unpack UInt8
    return { msg with
      pairedShares, imbalanceShares, imbalanceDirection, stock, farPrice,
      nearPrice, currentReferencePrice, crossType, priceVariationIndicator }

instance : UnpackMessage RetailPriceImprovementIndicatorMessage where
  unpackMessage msg := do
    let stock ← unpackString 8
    let interestFlag ← unpack UInt8
    return { msg with stock, interestFlag }

instance : UnpackMessage DLCRMessage where
  unpackMessage msg := do
    let stock ← unpackString 8
    let openEligibilityStatus ← unpack UInt8
    let minimumAllowablePrice ← unpack UInt32
    let maximumAllowablePrice ← unpack UInt32
    let nearExecutionPrice ← unpack UInt32
    let nearExecutionTime ← unpack UInt64
    let lowerPriceRangeCollar ← unpack UInt32
    let upperPriceRangeCollar ← unpack UInt32
    return { msg with
      stock, openEligibilityStatus, minimumAllowablePrice,
      maximumAllowablePrice, nearExecutionPrice, nearExecutionTime,
      lowerPriceRangeCollar, upperPriceRangeCollar }

/-- The reads of `decode_typed`. -/
def readTyped (M : Type) [MessageStruct M] [UnpackMessage M] :
    Reader UInt8 Message := do
  let msg : M := MessageStruct.init
  let stockLocate ← unpack UInt16
  let trackingNumber ← unpack UInt16
  let timestamp ← unpackTimestamp
  let header := MessageStruct.header msg
  let msg := MessageStruct.withHeader msg
    { header with stockLocate, trackingNumber, timestamp }
  let msg ← unpackMessage msg
  return MessageStruct.toMessage msg

/-- Decodes the common header and the type-specific body of a message. -/
def decodeTyped (M : Type) [MessageStruct M] [UnpackMessage M]
    (buffer : List UInt8) : Option Message :=
  (readTyped M buffer 1).map (·.1)  -- skip the message type byte

/-- `&decode_typed<MsgType>`. -/
def MsgType.decode : MsgType → List UInt8 → Option Message
  | .systemEvent => decodeTyped SystemEventMessage
  | .stockDirectory => decodeTyped StockDirectoryMessage
  | .stockTradingAction => decodeTyped StockTradingActionMessage
  | .regSHO => decodeTyped RegSHOMessage
  | .marketParticipantPosition => decodeTyped MarketParticipantPositionMessage
  | .mwcbDeclineLevel => decodeTyped MWCBDeclineLevelMessage
  | .mwcbStatus => decodeTyped MWCBStatusMessage
  | .ipoQuotingPeriodUpdate => decodeTyped IPOQuotingPeriodUpdateMessage
  | .luldAuctionCollar => decodeTyped LULDAuctionCollarMessage
  | .operationalHalt => decodeTyped OperationalHaltMessage
  | .addOrder => decodeTyped AddOrderMessage
  | .addOrderMPIDAttribution => decodeTyped AddOrderMPIDAttributionMessage
  | .orderExecuted => decodeTyped OrderExecutedMessage
  | .orderExecutedWithPrice => decodeTyped OrderExecutedWithPriceMessage
  | .orderCancel => decodeTyped OrderCancelMessage
  | .orderDelete => decodeTyped OrderDeleteMessage
  | .orderReplace => decodeTyped OrderReplaceMessage
  | .nonCrossTrade => decodeTyped NonCrossTradeMessage
  | .crossTrade => decodeTyped CrossTradeMessage
  | .brokenTrade => decodeTyped BrokenTradeMessage
  | .noii => decodeTyped NOIIMessage
  | .retailPriceImprovementIndicator =>
      decodeTyped RetailPriceImprovementIndicatorMessage
  | .dlcr => decodeTyped DLCRMessage

/-- One slot of the dispatch table; the decoder is named by its type. -/
structure DispatchEntry where
  wireSize : UInt16 := 0
  decode : Option MsgType := none
deriving DecidableEq

def DISPATCH_TABLE_SIZE : ℕ := 256

def buildDispatchTable : List DispatchEntry :=
  registry.foldl
    (fun table (t, type) => table.set type.toNat
      { wireSize := UInt16.ofNat t.wireSize, decode := some t })
    (List.replicate DISPATCH_TABLE_SIZE {})

def DISPATCH_TABLE : List DispatchEntry := buildDispatchTable

/-! ## §3  Framing -/

/-- Categories of problems met while framing a feed. -/
inductive ParseError where
  | truncated
  | unknownType
  | sizeMismatch
deriving DecidableEq, Repr

/-- A call of the message callback or of the error callback. -/
inductive ParserEvent where
  | message (message : Message)
  | error (error : ParseError) (messageType : UInt8)

structure Parser where
  hasErrorCallback : Bool := false
  unknownMessageCount : UInt64 := 0
  malformedMessageCount : UInt64 := 0
deriving DecidableEq, Repr

namespace Parser

def reportError (p : Parser) (error : ParseError) (messageType : UInt8) :
    Parser × List ParserEvent :=
  let p :=
    match error with
    | .unknownType =>
        { p with unknownMessageCount := p.unknownMessageCount + 1 }
    | .sizeMismatch | .truncated =>
        { p with malformedMessageCount := p.malformedMessageCount + 1 }
  (p, if p.hasErrorCallback then [.error error messageType] else [])

/-- The state of the parser, the calls it has made and the result. -/
abbrev Outcome : Type := Parser × List ParserEvent × Option ParseError

/-- Calls made before those of `o`. -/
def Outcome.after (events : List ParserEvent) (o : Outcome) : Outcome :=
  (o.1, events ++ o.2.1, o.2.2)

/-- The loop of `parse_impl` from `offset` on. -/
def parseLoop (data : List UInt8) (p : Parser) (offset : ℕ) :
    Option Outcome :=
  if offset < data.length then
    if offset + 2 > data.length then
      let (p, events) := p.reportError .truncated 0
      some (p, events, some .truncated)
    else
      let length := decodeBE ((data.drop offset).take 2)
      let offset := offset + 2
      if length = 0 then
        parseLoop data p offset  -- zero-length padding frame
      else if offset + length > data.length then
        let (p, events) := p.reportError .truncated 0
        some (p, events, some .truncated)
      else
        let message := data.drop offset
        let messageType := message.headD 0
        let offset := offset + length
        let entry := DISPATCH_TABLE.getD messageType.toNat {}
        match entry.decode with
        | none =>
            let (p, events) := p.reportError .unknownType messageType
            (parseLoop data p offset).map (·.after events)
        | some t =>
            if length < entry.wireSize.toNat then
              let (p, events) := p.reportError .sizeMismatch messageType
              (parseLoop data p offset).map (·.after events)
            else
              (t.decode message).bind fun m =>
                (parseLoop data p offset).map (·.after [.message m])
  else some (p, [], none)
termination_by data.length - offset

def parseImpl (p : Parser) (data : List UInt8) : Option Outcome :=
  parseLoop data p 0

end Parser

end Itch
