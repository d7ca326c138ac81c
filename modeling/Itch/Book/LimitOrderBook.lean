import Itch.Basic
import Itch.Wire.Messages

/-!
# `LimitOrderBook`: the map-based single-symbol book

Orders are shared objects; here they live in a heap that only grows, and a
pointer to one is its position. An order is pushed to one list, once, so the
position also stands for the list iterator that `m_orders` holds. A level
pointer is the side and the key of the map node it points to: map nodes do not
move, and one is erased only when no order points to it.
-/

namespace Itch

open Book (Side)

/-- What a `PriceLevel*` points to. -/
structure LevelPtr where
  side : Side := .buy
  price : UInt32 := 0
deriving DecidableEq, Repr

/-- A single resting order. -/
structure Order where
  orderReferenceNumber : UInt64 := 0
  buySellIndicator : UInt8 := 0
  shares : UInt32 := 0
  price : UInt32 := 0
  level : LevelPtr := {}
  stock : Str := []
deriving DecidableEq, Repr

/-- A specific price node. -/
structure PriceLevel where
  totalShares : UInt32 := 0
  orders : List ℕ := []
deriving DecidableEq, Repr

/-- `std::map` with `std::greater` for the bids and `std::less` for the
asks. -/
abbrev LevelMap (side : Side) : Type :=
  Std.TreeMap UInt32 PriceLevel side.compare

structure LimitOrderBook where
  stockSymbol : Str := []
  heap : List Order := []
  bids : LevelMap .buy := {}
  asks : LevelMap .sell := {}
  orders : Std.TreeMap UInt64 ℕ := {}

namespace PriceLevel

def addOrder (level : PriceLevel) (order : ℕ) (shares : UInt32) :
    PriceLevel :=
  { totalShares := level.totalShares + shares
    orders := level.orders ++ [order] }

def removeOrder (level : PriceLevel) (order : ℕ) : PriceLevel :=
  { level with orders := level.orders.erase order }

end PriceLevel

namespace LimitOrderBook

/-! ## §1  Access to the members -/

/-- The object an order pointer leads to. -/
def order (b : LimitOrderBook) (i : ℕ) : Order := b.heap.getD i {}

def modifyOrder (b : LimitOrderBook) (i : ℕ) (f : Order → Order) :
    LimitOrderBook :=
  { b with heap := b.heap.modify i f }

def levels (b : LimitOrderBook) : (side : Side) → LevelMap side
  | .buy => b.bids
  | .sell => b.asks

def modifyLevels (b : LimitOrderBook) (side : Side)
    (f : LevelMap side → LevelMap side) : LimitOrderBook :=
  match side with
  | .buy => { b with bids := f b.bids }
  | .sell => { b with asks := f b.asks }

/-- The level a pointer leads to. -/
def level (b : LimitOrderBook) (p : LevelPtr) : PriceLevel :=
  ((b.levels p.side)[p.price]?).getD {}

def modifyLevel (b : LimitOrderBook) (p : LevelPtr)
    (f : PriceLevel → PriceLevel) : LimitOrderBook :=
  b.modifyLevels p.side (fun levels => levels.modify p.price f)

/-- The side whose map a buy/sell indicator selects. -/
def sideOf (buySellIndicator : UInt8) : Side :=
  if buySellIndicator = 'B'.toUInt8 then .buy else .sell

/-! ## §2  Mutations -/

/-- `m_bids[price]` and `m_asks[price]` insert an empty level where there is
none. A reference that is in `m_orders` already is taken over by the new
order. -/
def addOrder (b : LimitOrderBook) (orderRef : UInt64) (side : UInt8)
    (shares price : UInt32) (stock : Str) : LimitOrderBook :=
  let level : LevelPtr := ⟨sideOf side, price⟩
  let order := b.heap.length
  let object : Order :=
    { orderReferenceNumber := orderRef
      buySellIndicator := side
      shares, price, level, stock }
  let b := { b with heap := b.heap ++ [object] }
  let b := b.modifyLevels level.side (fun levels =>
    levels.alter price (fun l => some ((l.getD {}).addOrder order shares)))
  { b with orders := b.orders.insert orderRef order }

/-- The part of `remove_order` that erases an order with no shares left from
its list, and its level when that has become empty. Which map that is in is
read off the order, not off the level pointer. -/
def unlistOrder (b : LimitOrderBook) (level : LevelPtr) (order : ℕ) :
    LimitOrderBook :=
  let orderPtr := b.order order
  let b := b.modifyLevel level (·.removeOrder order)
  if (b.level level).orders = [] then
    b.modifyLevels (sideOf orderPtr.buySellIndicator) (·.erase orderPtr.price)
  else b

def removeOrder (b : LimitOrderBook) (orderRef : UInt64)
    (canceledShares : UInt32) : LimitOrderBook :=
  match b.orders[orderRef]? with
  | none => b
  | some order =>
      let level := (b.order order).level
      let b := b.modifyLevel level
        (fun l => { l with totalShares := l.totalShares - canceledShares })
      let b := b.modifyOrder order
        (fun o => { o with shares := o.shares - canceledShares })
      if (b.order order).shares = 0 then
        let b := b.unlistOrder level order
        { b with orders := b.orders.erase orderRef }
      else b

/-! ## §3  Messages -/

/-- The type bytes of the messages that affect the book. -/
def bookMessages : List UInt8 :=
  ['A'.toUInt8, 'F'.toUInt8, 'E'.toUInt8, 'C'.toUInt8, 'X'.toUInt8,
    'D'.toUInt8, 'U'.toUInt8]

/-- The body of the handlers of both add messages. -/
def handleAdd (b : LimitOrderBook) (orderReferenceNumber : UInt64)
    (buySellIndicator : UInt8) (shares : UInt32) (stock : Chars 8)
    (price : UInt32) : LimitOrderBook :=
  if toString stock ≠ b.stockSymbol then b
  else
    b.addOrder orderReferenceNumber buySellIndicator shares price
      (toString stock)

/-- The body of the handlers of executions and cancels. -/
def handleRemove (b : LimitOrderBook) (orderReferenceNumber : UInt64)
    (shares : UInt32) : LimitOrderBook :=
  match b.orders[orderReferenceNumber]? with
  | none => b
  | some order =>
      if (b.order order).stock ≠ b.stockSymbol then b
      else b.removeOrder orderReferenceNumber shares

/-- The overloads of `handle_message`. -/
def handleMessage (b : LimitOrderBook) : Message → LimitOrderBook
  | .addOrder msg =>
      b.handleAdd msg.orderReferenceNumber msg.buySellIndicator msg.shares
        msg.stock msg.price
  | .addOrderMPIDAttribution msg =>
      b.handleAdd msg.orderReferenceNumber msg.buySellIndicator msg.shares
        msg.stock msg.price
  | .orderExecuted msg =>
      b.handleRemove msg.orderReferenceNumber msg.executedShares
  | .orderExecutedWithPrice msg =>
      b.handleRemove msg.orderReferenceNumber msg.executedShares
  | .orderCancel msg =>
      b.handleRemove msg.orderReferenceNumber msg.cancelledShares
  | .orderDelete msg =>
      match b.orders[msg.orderReferenceNumber]? with
      | none => b
      | some order =>
          if (b.order order).stock = b.stockSymbol then
            b.removeOrder msg.orderReferenceNumber (b.order order).shares
          else b
  | .orderReplace msg =>
      match b.orders[msg.originalOrderReferenceNumber]? with
      | none => b
      | some order =>
          let oldOrder := b.order order
          if oldOrder.stock = b.stockSymbol then
            let b := b.removeOrder msg.originalOrderReferenceNumber
              oldOrder.shares
            b.addOrder msg.newOrderReferenceNumber oldOrder.buySellIndicator
              msg.shares msg.price oldOrder.stock
          else b
  | _ => b

def process (b : LimitOrderBook) (message : Message) : LimitOrderBook :=
  if message.header.messageType ∉ bookMessages then b
  else b.handleMessage message

end LimitOrderBook

end Itch
