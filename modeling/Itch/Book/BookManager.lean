import Itch.Book.L3Book
import Itch.Wire.Messages

/-!
# `BookManager`: one book for each security

Messages are routed by their locate code. A callback is an event in the output
of a step; the book it is called with is named by its locate code and handed
over as it is at that moment.
-/

namespace Itch.Book

/-- An executed or printed trade. -/
structure Trade where
  timestamp : UInt64 := 0
  stockLocate : UInt16 := 0
  symbol : Str := []
  price : StandardPrice := {}
  shares : UInt64 := 0
  matchNumber : UInt64 := 0
  side : UInt8 := 0
  printable : Bool := true
  isCross : Bool := false
  crossType : UInt8 := 0
deriving DecidableEq, Repr

structure BookEntry where
  book : L3Book := {}
  lastBbo : Bbo := {}

/-- A call of the BBO callback or of the trade callback. -/
inductive BookEvent where
  | bbo (stockLocate : UInt16) (book : L3Book) (bbo : Bbo)
  | trade (trade : Trade)

/-- What is installed in a manager: the symbols to track, all if there is
none, and which callbacks. -/
structure ManagerConfig where
  trackedUniverse : Finset Str := ∅
  hasBboCallback : Bool := false
  hasTradeCallback : Bool := false

structure BookManager extends ManagerConfig where
  booksByLocate : List (Option BookEntry) := []
  symbolByLocate : List Str := []
  bookCount : ℕ := 0

/-- Maps an ITCH buy/sell indicator byte to the book side. -/
def toSide (buySellIndicator : UInt8) : Side :=
  if buySellIndicator = 'B'.toUInt8 then .buy else .sell

/-- `std::vector::resize` to a size that is not smaller. -/
def resize {α : Type} (xs : List α) (n : ℕ) (x : α) : List α :=
  xs ++ List.replicate (n - xs.length) x

namespace BookManager

def trackSymbol (m : BookManager) (symbol : Str) : BookManager :=
  { m with trackedUniverse := insert symbol m.trackedUniverse }

def inUniverse (m : ManagerConfig) (symbol : Str) : Prop :=
  m.trackedUniverse = ∅ ∨ symbol ∈ m.trackedUniverse

instance (m : ManagerConfig) (symbol : Str) :
    Decidable (inUniverse m symbol) := instDecidableOr

/-- The entry at a locate code, `none` beyond the table too. -/
def entry (m : BookManager) (stockLocate : UInt16) : Option BookEntry :=
  if stockLocate.toNat ≥ m.booksByLocate.length then none
  else m.booksByLocate.getD stockLocate.toNat none

/-- The entry that a pointer into the table leads to is written. -/
def setEntry (m : BookManager) (stockLocate : UInt16) (e : BookEntry) :
    BookManager :=
  { m with booksByLocate := m.booksByLocate.set stockLocate.toNat (some e) }

def ensureEntry (m : BookManager) (stockLocate : UInt16) (symbol : Str) :
    BookManager × Option BookEntry :=
  let m :=
    if stockLocate.toNat ≥ m.booksByLocate.length then
      { m with booksByLocate :=
          resize m.booksByLocate (stockLocate.toNat + 1) none }
    else m
  match m.entry stockLocate with
  | some slot =>
      let slot :=
        if slot.book.symbol = [] ∧ symbol ≠ [] then
          { slot with book := slot.book.setSymbol symbol }
        else slot
      (m.setEntry stockLocate slot, some slot)
  | none =>
      if ¬ inUniverse m.toManagerConfig symbol then (m, none)
      else
        let slot : BookEntry := { book := ({} : L3Book).setSymbol symbol }
        ({ m.setEntry stockLocate slot with bookCount := m.bookCount + 1 },
          some slot)

/-- The target is a reference in the source; it is written back to the table
at its locate code. -/
def emitBboIfChanged (m : BookManager) (stockLocate : UInt16)
    (target : BookEntry) : BookManager × List BookEvent :=
  let current := target.book.bbo
  if current ≠ target.lastBbo then
    (m.setEntry stockLocate { target with lastBbo := current },
      if m.hasBboCallback then [.bbo stockLocate target.book current] else [])
  else (m.setEntry stockLocate target, [])

/-- A template of the source over the two add messages. -/
def handleAddOrder (m : BookManager) (stockLocate : UInt16)
    (orderReferenceNumber : UInt64) (buySellIndicator : UInt8)
    (shares : UInt32) (stock : Chars 8) (price : UInt32) :
    BookManager × List BookEvent :=
  match m.ensureEntry stockLocate (toString stock) with
  | (m, none) => (m, [])
  | (m, some target) =>
      m.emitBboIfChanged stockLocate { target with
        book := target.book.addOrder orderReferenceNumber
          (toSide buySellIndicator) shares price }

def handleOrderExecuted (m : BookManager) (exec : OrderExecutedMessage) :
    BookManager × List BookEvent :=
  match m.entry exec.stockLocate with
  | none => (m, [])
  | some target =>
      let trades : List BookEvent :=
        if m.hasTradeCallback then
          let price := target.book.orderPrice exec.orderReferenceNumber
          let side := target.book.orderSide exec.orderReferenceNumber
          match price with
          | none => []
          | some price =>
              [.trade {
                timestamp := exec.timestamp
                stockLocate := exec.stockLocate
                symbol := target.book.symbol
                price := ⟨price⟩
                shares := exec.executedShares.toUInt64
                matchNumber := exec.matchNumber
                side := (side.map Side.toChar).getD 0
                printable := true }]
        else []
      let (m, bbos) := m.emitBboIfChanged exec.stockLocate { target with
        book := (target.book.executeOrder exec.orderReferenceNumber
          exec.executedShares).1 }
      (m, trades ++ bbos)

def handleOrderExecutedWithPrice (m : BookManager)
    (exec : OrderExecutedWithPriceMessage) :
    BookManager × List BookEvent :=
  match m.entry exec.stockLocate with
  | none => (m, [])
  | some target =>
      let trades : List BookEvent :=
        if m.hasTradeCallback then
          let side := target.book.orderSide exec.orderReferenceNumber
          [.trade {
            timestamp := exec.timestamp
            stockLocate := exec.stockLocate
            symbol := target.book.symbol
            price := ⟨exec.executionPrice⟩
            shares := exec.executedShares.toUInt64
            matchNumber := exec.matchNumber
            side := (side.map Side.toChar).getD 0
            printable := exec.printable == 'Y'.toUInt8 }]
        else []
      let (m, bbos) := m.emitBboIfChanged exec.stockLocate { target with
        book := (target.book.executeOrder exec.orderReferenceNumber
          exec.executedShares).1 }
      (m, trades ++ bbos)

def handleOrderCancel (m : BookManager) (cancel : OrderCancelMessage) :
    BookManager × List BookEvent :=
  match m.entry cancel.stockLocate with
  | none => (m, [])
  | some target =>
      m.emitBboIfChanged cancel.stockLocate { target with
        book := (target.book.reduceOrder cancel.orderReferenceNumber
          cancel.cancelledShares).1 }

def handleOrderDelete (m : BookManager) (del : OrderDeleteMessage) :
    BookManager × List BookEvent :=
  match m.entry del.stockLocate with
  | none => (m, [])
  | some target =>
      m.emitBboIfChanged del.stockLocate { target with
        book := target.book.deleteOrder del.orderReferenceNumber }

def handleOrderReplace (m : BookManager) (replace : OrderReplaceMessage) :
    BookManager × List BookEvent :=
  match m.entry replace.stockLocate with
  | none => (m, [])
  | some target =>
      m.emitBboIfChanged replace.stockLocate { target with
        book := target.book.replaceOrder
          replace.originalOrderReferenceNumber
          replace.newOrderReferenceNumber replace.shares replace.price }

/-- A non-displayable order print does not alter the visible book. -/
def handleNonCrossTrade (m : BookManager) (trade : NonCrossTradeMessage) :
    BookManager × List BookEvent :=
  if ¬ m.hasTradeCallback then (m, [])
  else
    (m, [.trade {
      timestamp := trade.timestamp
      stockLocate := trade.stockLocate
      symbol := toString trade.stock
      price := ⟨trade.price⟩
      shares := trade.shares.toUInt64
      matchNumber := trade.matchNumber
      side := trade.buySellIndicator
      printable := true }])

def handleCrossTrade (m : BookManager) (cross : CrossTradeMessage) :
    BookManager × List BookEvent :=
  if ¬ m.hasTradeCallback then (m, [])
  else
    (m, [.trade {
      timestamp := cross.timestamp
      stockLocate := cross.stockLocate
      symbol := toString cross.stock
      price := ⟨cross.crossPrice⟩
      shares := cross.shares
      matchNumber := cross.matchNumber
      printable := true
      isCross := true
      crossType := cross.crossType }])

def handleStockDirectory (m : BookManager)
    (directory : StockDirectoryMessage) : BookManager × List BookEvent :=
  let symbols :=
    if directory.stockLocate.toNat ≥ m.symbolByLocate.length then
      resize m.symbolByLocate (directory.stockLocate.toNat + 1) []
    else m.symbolByLocate
  ({ m with symbolByLocate :=
      symbols.set directory.stockLocate.toNat (toString directory.stock) },
    [])

def process (m : BookManager) : Message → BookManager × List BookEvent
  | .addOrder add =>
      m.handleAddOrder add.stockLocate add.orderReferenceNumber
        add.buySellIndicator add.shares add.stock add.price
  | .addOrderMPIDAttribution add =>
      m.handleAddOrder add.stockLocate add.orderReferenceNumber
        add.buySellIndicator add.shares add.stock add.price
  | .orderExecuted executed => m.handleOrderExecuted executed
  | .orderExecutedWithPrice executed => m.handleOrderExecutedWithPrice executed
  | .orderCancel cancel => m.handleOrderCancel cancel
  | .orderDelete del => m.handleOrderDelete del
  | .orderReplace replace => m.handleOrderReplace replace
  | .nonCrossTrade trade => m.handleNonCrossTrade trade
  | .crossTrade cross => m.handleCrossTrade cross
  | .stockDirectory directory => m.handleStockDirectory directory
  | _ => (m, [])

/-! ## Queries -/

def book (m : BookManager) (stockLocate : UInt16) : Option L3Book :=
  (m.entry stockLocate).map (·.book)

def bookForSymbol (m : BookManager) (symbol : Str) : Option L3Book :=
  (m.booksByLocate.reduceOption.find?
    (fun slot => slot.book.symbol == symbol)).map (·.book)

def symbolForLocate (m : BookManager) (stockLocate : UInt16) : Str :=
  match m.entry stockLocate with
  | some found =>
      if found.book.symbol ≠ [] then found.book.symbol
      else m.symbolByLocate.getD stockLocate.toNat []
  | none => m.symbolByLocate.getD stockLocate.toNat []

end BookManager

end Itch.Book
