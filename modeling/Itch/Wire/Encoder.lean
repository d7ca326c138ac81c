import Itch.Wire.Messages

/-!
# The encoder

A `ByteWriter` appends what it is given, so writing a message is the
concatenation of what its fields put.
-/

namespace Itch

open ByteCursor

/-! ## §1  Fields -/

/-- `ByteWriter::put`: an integer in big-endian order. -/
def put {IntType : Type} [Word IntType] (value : IntType) : List UInt8 :=
  encodeBE (Word.width IntType) (Word.toNat value)

def putChar (value : UInt8) : List UInt8 := [value]

def putChars {size : ℕ} (source : Chars size) : List UInt8 := source.val

def putTimestamp (timestamp : UInt64) : List UInt8 :=
  put (timestamp >>> 32).toUInt16 ++
    put (timestamp &&& 0xFFFFFFFF).toUInt32

/-! ## §2  Messages -/

def writeHeader (msg : MessageHeader) : List UInt8 :=
  [putChar msg.messageType, put msg.stockLocate, put msg.trackingNumber,
    putTimestamp msg.timestamp].flatten

/-- The overloads of `write_body`: what the fields put, in order. -/
class WriteBody (M : Type) where
  writeBody : M → List (List UInt8)

export WriteBody (writeBody)

instance : WriteBody SystemEventMessage where
  writeBody msg :=
    [putChar msg.eventCode]

instance : WriteBody StockDirectoryMessage where
  writeBody msg :=
    [putChars msg.stock, putChar msg.marketCategory,
     putChar msg.financialStatusIndicator, put msg.roundLotSize,
     putChar msg.roundLotsOnly, putChar msg.issueClassification,
     putChars msg.issueSubType, putChar msg.authenticity,
     putChar msg.shortSaleThresholdIndicator, putChar msg.ipoFlag,
     putChar msg.luldRef, putChar msg.etpFlag, put msg.etpLeverageFactor,
     putChar msg.inverseIndicator]

instance : WriteBody StockTradingActionMessage where
  writeBody msg :=
    [putChars msg.stock, putChar msg.tradingState, putChar msg.reserved,
     putChars msg.reason]

instance : WriteBody RegSHOMessage where
  writeBody msg :=
    [putChars msg.stock, putChar msg.regShoAction]

instance : WriteBody MarketParticipantPositionMessage where
  writeBody msg :=
    [putChars msg.mpid, putChars msg.stock, putChar msg.primaryMarketMaker,
     putChar msg.marketMakerMode, putChar msg.marketParticipantState]

instance : WriteBody MWCBDeclineLevelMessage where
  writeBody msg :=
    [put msg.level1, put msg.level2, put msg.level3]

instance : WriteBody MWCBStatusMessage where
  writeBody msg :=
    [putChar msg.breachedLevel]

instance : WriteBody IPOQuotingPeriodUpdateMessage where
  writeBody msg :=
    [putChars msg.stock, put msg.ipoQuotationReleaseTime,
     putChar msg.ipoQuotationReleaseQualifier, put msg.ipoPrice]

instance : WriteBody LULDAuctionCollarMessage where
  writeBody msg :=
    [putChars msg.stock, put msg.auctionCollarReferencePrice,
     put msg.upperAuctionCollarPrice, put msg.lowerAuctionCollarPrice,
     put msg.auctionCollarExtension]

instance : WriteBody OperationalHaltMessage where
  writeBody msg :=
    [putChars msg.stock, putChar msg.marketCode,
     putChar msg.operationalHaltAction]

instance : WriteBody AddOrderMessage where
  writeBody msg :=
    [put msg.orderReferenceNumber, putChar msg.buySellIndicator,
     put msg.shares, putChars msg.stock, put msg.price]

instance : WriteBody AddOrderMPIDAttributionMessage where
  writeBody msg :=
    [put msg.orderReferenceNumber, putChar msg.buySellIndicator,
     put msg.shares, putChars msg.stock, put msg.price,
     putChars msg.attribution]

instance : WriteBody OrderExecutedMessage where
  writeBody msg :=
    [put msg.orderReferenceNumber, put msg.executedShares,
     put msg.matchNumber]

instance : WriteBody OrderExecutedWithPriceMessage where
  writeBody msg :=
    [put msg.orderReferenceNumber, put msg.executedShares,
     put msg.matchNumber, putChar msg.printable, put msg.executionPrice]

instance : WriteBody OrderCancelMessage where
  writeBody msg :=
    [put msg.orderReferenceNumber, put msg.cancelledShares]

instance : WriteBody OrderDeleteMessage where
  writeBody msg :=
    [put msg.orderReferenceNumber]

instance : WriteBody OrderReplaceMessage where
  writeBody msg :=
    [put msg.originalOrderReferenceNumber, put msg.newOrderReferenceNumber,
     put msg.shares, put msg.price]

instance : WriteBody NonCrossTradeMessage where
  writeBody msg :=
    [put msg.orderReferenceNumber, putChar msg.buySellIndicator,
     put msg.shares, putChars msg.stock, put msg.price, put msg.matchNumber]

instance : WriteBody CrossTradeMessage where
  writeBody msg :=
    [put msg.shares, putChars msg.stock, put msg.crossPrice,
     put msg.matchNumber, putChar msg.crossType]

instance : WriteBody BrokenTradeMessage where
  writeBody msg :=
    [put msg.matchNumber]

instance : WriteBody NOIIMessage where
  writeBody msg :=
    [put msg.pairedShares, put msg.imbalanceShares,
     putChar msg.imbalanceDirection, putChars msg.stock, put msg.farPrice,
     put msg.nearPrice, put msg.currentReferencePrice, putChar msg.crossType,
     putChar msg.priceVariationIndicator]

instance : WriteBody RetailPriceImprovementIndicatorMessage where
  writeBody msg :=
    [putChars msg.stock, putChar msg.interestFlag]

instance : WriteBody DLCRMessage where
  writeBody msg :=
    [putChars msg.stock, putChar msg.openEligibilityStatus,
     put msg.minimumAllowablePrice, put msg.maximumAllowablePrice,
     put msg.nearExecutionPrice, put msg.nearExecutionTime,
     put msg.lowerPriceRangeCollar, put msg.upperPriceRangeCollar]

def writeMessage {M : Type} [MessageStruct M] [WriteBody M] (msg : M) :
    List UInt8 :=
  writeHeader (MessageStruct.header msg) ++ (writeBody msg).flatten

/-- The message bytes, as they stand inside a frame. -/
def encodeMessage : Message → List UInt8
  | .systemEvent msg => writeMessage msg
  | .stockDirectory msg => writeMessage msg
  | .stockTradingAction msg => writeMessage msg
  | .regSHO msg => writeMessage msg
  | .marketParticipantPosition msg => writeMessage msg
  | .mwcbDeclineLevel msg => writeMessage msg
  | .mwcbStatus msg => writeMessage msg
  | .ipoQuotingPeriodUpdate msg => writeMessage msg
  | .luldAuctionCollar msg => writeMessage msg
  | .operationalHalt msg => writeMessage msg
  | .addOrder msg => writeMessage msg
  | .addOrderMPIDAttribution msg => writeMessage msg
  | .orderExecuted msg => writeMessage msg
  | .orderExecutedWithPrice msg => writeMessage msg
  | .orderCancel msg => writeMessage msg
  | .orderDelete msg => writeMessage msg
  | .orderReplace msg => writeMessage msg
  | .nonCrossTrade msg => writeMessage msg
  | .crossTrade msg => writeMessage msg
  | .brokenTrade msg => writeMessage msg
  | .noii msg => writeMessage msg
  | .retailPriceImprovementIndicator msg => writeMessage msg
  | .dlcr msg => writeMessage msg

/-- The message bytes behind their length. -/
def encodeFrame (message : Message) : List UInt8 :=
  let body := encodeMessage message
  put (UInt16.ofNat body.length) ++ body

end Itch
