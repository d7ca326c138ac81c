import Itch.Book.OrderIndexMap
import Itch.Book.OrderList

/-!
# `L3Book`: the single-symbol, order-level book

Orders live in a pool with a free list threaded through `next`; each price
level holds the head and tail of a FIFO threaded through `next` and `prev`;
each side keeps its levels in a sorted vector, best price first; an
`OrderIndex` takes a reference number to its pool index.

Reads outside a vector yield a default and writes outside it do nothing. That
no operation ever does either is part of the invariant in `L3BookInvariant`.
-/

namespace Itch.Book

open SortedLadder

/-- Sentinel index meaning "no node". -/
def NIL : UInt32 := 0xFFFFFFFF

/-- One resting order in the pool, linked into a level's FIFO, or a free
node, linked into the free list by `next`. -/
structure OrderNode where
  referenceNumber : UInt64 := 0
  shares : UInt32 := 0
  price : UInt32 := 0
  side : Side := .buy
  next : UInt32 := NIL
  prev : UInt32 := NIL
deriving DecidableEq, Repr, Inhabited

/-- One price level. -/
structure Level where
  price : UInt32 := 0
  totalShares : UInt64 := 0
  orderCount : UInt32 := 0
  head : UInt32 := NIL
  tail : UInt32 := NIL
deriving DecidableEq, Repr, Inhabited

structure L3Book where
  symbol : Str := []
  pool : List OrderNode := []
  freeHead : UInt32 := NIL
  bids : List Level := []
  asks : List Level := []
  index : OrderIndex hash := .new

namespace L3Book

/-! ## Access to the members -/

def setSymbol (b : L3Book) (symbol : Str) : L3Book := { b with symbol }

def sideLevels (b : L3Book) : Side → List Level
  | .buy => b.bids
  | .sell => b.asks

def setSideLevels (b : L3Book) (side : Side) (levels : List Level) : L3Book :=
  match side with
  | .buy => { b with bids := levels }
  | .sell => { b with asks := levels }

/-- `m_pool[i]`. -/
def node (b : L3Book) (i : UInt32) : OrderNode := b.pool.getD i.toNat {}

def modifyNode (b : L3Book) (i : UInt32) (f : OrderNode → OrderNode) :
    L3Book :=
  { b with pool := b.pool.modify i.toNat f }

/-- `side_levels(side)[i]`. -/
def level (b : L3Book) (side : Side) (i : UInt32) : Level :=
  (b.sideLevels side).getD i.toNat {}

def modifyLevel (b : L3Book) (side : Side) (i : UInt32) (f : Level → Level) :
    L3Book :=
  b.setSideLevels side ((b.sideLevels side).modify i.toNat f)

/-! ## Node and level management -/

def allocateNode (b : L3Book) : L3Book × UInt32 :=
  if b.freeHead ≠ NIL then
    let index := b.freeHead
    let b := { b with freeHead := (b.node index).next }
    (b.modifyNode index (fun _ => {}), index)
  else
    let b := { b with pool := b.pool ++ [{}] }
    (b, UInt32.ofNat (b.pool.length - 1))

def freeNode (b : L3Book) (nodeIndex : UInt32) : L3Book :=
  let b := b.modifyNode nodeIndex (fun _ => {})
  let b := b.modifyNode nodeIndex (fun n => { n with next := b.freeHead })
  { b with freeHead := nodeIndex }

/-- The `lower_bound` of `price` on a side. The two comparators of the source
are `level.price > value` for bids and `level.price < value` for asks. -/
def lowerBound (b : L3Book) (side : Side) (price : UInt32) : ℕ :=
  SortedLadder.lowerBound side.before Level.price (b.sideLevels side) price

def findLevel (b : L3Book) (side : Side) (price : UInt32) : UInt32 :=
  let iter := b.lowerBound side price
  if iter ≠ (b.sideLevels side).length ∧
      ((b.sideLevels side).getD iter {}).price = price then
    UInt32.ofNat iter
  else NIL

def findOrCreateLevel (b : L3Book) (side : Side) (price : UInt32) :
    L3Book × UInt32 :=
  let position := b.lowerBound side price
  if position ≠ (b.sideLevels side).length ∧
      ((b.sideLevels side).getD position {}).price = price then
    (b, UInt32.ofNat position)
  else
    (b.setSideLevels side
      ((b.sideLevels side).insertIdx position { price := price }),
      UInt32.ofNat position)

/-! ## Mutations -/

/-- Append to the tail of the level FIFO to preserve time priority. -/
def appendNode (b : L3Book) (side : Side) (levelIndex nodeIndex : UInt32)
    (shares : UInt32) : L3Book :=
  let tail := (b.level side levelIndex).tail
  let b := b.modifyNode nodeIndex
    (fun n => { n with prev := tail, next := NIL })
  let b :=
    if tail ≠ NIL then
      b.modifyNode tail (fun n => { n with next := nodeIndex })
    else
      b.modifyLevel side levelIndex (fun l => { l with head := nodeIndex })
  b.modifyLevel side levelIndex (fun l =>
    { l with
      tail := nodeIndex
      totalShares := l.totalShares + shares.toUInt64
      orderCount := l.orderCount + 1 })

def addOrder (b : L3Book) (referenceNumber : UInt64) (side : Side)
    (shares price : UInt32) : L3Book :=
  if b.index.find referenceNumber ≠ NPOS then
    b  -- duplicate add; ignored
  else
    let (b, nodeIndex) := b.allocateNode
    let b := b.modifyNode nodeIndex
      (fun n => { n with referenceNumber, shares, price, side })
    let (b, levelIndex) := b.findOrCreateLevel side price
    let b := b.appendNode side levelIndex nodeIndex shares
    { b with index := b.index.insert referenceNumber nodeIndex }

/-- The node is a reference in the source, so it is read again after each
write to the pool. -/
def unlinkNode (b : L3Book) (nodeIndex : UInt32) : L3Book :=
  let node := b.node nodeIndex
  let side := node.side
  let levelIndex := b.findLevel side node.price
  if levelIndex = NIL then b
  else
    let b :=
      if node.prev ≠ NIL then
        b.modifyNode node.prev (fun n => { n with next := node.next })
      else
        b.modifyLevel side levelIndex (fun l => { l with head := node.next })
    let node := b.node nodeIndex
    let b :=
      if node.next ≠ NIL then
        b.modifyNode node.next (fun n => { n with prev := node.prev })
      else
        b.modifyLevel side levelIndex (fun l => { l with tail := node.prev })
    let node := b.node nodeIndex
    let b := b.modifyLevel side levelIndex (fun l =>
      { l with
        totalShares := l.totalShares - node.shares.toUInt64
        orderCount := l.orderCount - 1 })
    if (b.level side levelIndex).orderCount = 0 then
      b.setSideLevels side ((b.sideLevels side).eraseIdx levelIndex.toNat)
    else b

/-- The three calls with which an order leaves the book. -/
def dropOrder (b : L3Book) (referenceNumber : UInt64) (nodeIndex : UInt32) :
    L3Book :=
  let b := b.unlinkNode nodeIndex
  let b := b.freeNode nodeIndex
  { b with index := b.index.erase referenceNumber }

def executeOrder (b : L3Book) (referenceNumber : UInt64) (shares : UInt32) :
    L3Book × UInt32 :=
  let nodeIndex := b.index.find referenceNumber
  if nodeIndex = NPOS then (b, 0)
  else
    let node := b.node nodeIndex
    let removed := min shares node.shares
    if removed = node.shares then
      (b.dropOrder referenceNumber nodeIndex, removed)
    else
      let b := b.modifyNode nodeIndex
        (fun n => { n with shares := n.shares - removed })
      let levelIndex := b.findLevel node.side node.price
      let b :=
        if levelIndex ≠ NIL then
          b.modifyLevel node.side levelIndex
            (fun l => { l with
              totalShares := l.totalShares - removed.toUInt64 })
        else b
      (b, removed)

/-- A partial cancel removes shares exactly as an execution does. -/
def reduceOrder (b : L3Book) (referenceNumber : UInt64) (shares : UInt32) :
    L3Book × UInt32 :=
  b.executeOrder referenceNumber shares

def deleteOrder (b : L3Book) (referenceNumber : UInt64) : L3Book :=
  let nodeIndex := b.index.find referenceNumber
  if nodeIndex = NPOS then b
  else b.dropOrder referenceNumber nodeIndex

def replaceOrder (b : L3Book) (oldReferenceNumber newReferenceNumber : UInt64)
    (shares price : UInt32) : L3Book :=
  let nodeIndex := b.index.find oldReferenceNumber
  if nodeIndex = NPOS then b
  else
    let side := (b.node nodeIndex).side
    let b := b.deleteOrder oldReferenceNumber
    b.addOrder newReferenceNumber side shares price

/-! ## Queries -/

def contains (b : L3Book) (referenceNumber : UInt64) : Bool :=
  b.index.contains referenceNumber

def orderPrice (b : L3Book) (referenceNumber : UInt64) : Option UInt32 :=
  let nodeIndex := b.index.find referenceNumber
  if nodeIndex = NPOS then none else some (b.node nodeIndex).price

def orderSide (b : L3Book) (referenceNumber : UInt64) : Option Side :=
  let nodeIndex := b.index.find referenceNumber
  if nodeIndex = NPOS then none else some (b.node nodeIndex).side

def bbo (b : L3Book) : Bbo :=
  let result : Bbo := {}
  let result :=
    match b.bids with
    | [] => result
    | front :: _ => { result with
        hasBid := true
        bidPrice := ⟨front.price⟩
        bidShares := front.totalShares }
  match b.asks with
  | [] => result
  | front :: _ => { result with
      hasAsk := true
      askPrice := ⟨front.price⟩
      askShares := front.totalShares }

def depth (b : L3Book) (side : Side) (maxLevels : ℕ) : List DepthLevel :=
  let levels := b.sideLevels side
  let count :=
    if maxLevels = 0 then levels.length else min maxLevels levels.length
  (levels.take count).map
    (fun l => ⟨⟨l.price⟩, l.totalShares, l.orderCount⟩)

/-- The loop of `orders_at`: follow `next` until the sentinel. `none` means
that it was not met within one step for each node of the pool. -/
def fifoFrom (b : L3Book) (fuel : ℕ) (nodeIndex : UInt32) :
    Option (List OrderView) :=
  if nodeIndex = NIL then some []
  else
    match fuel with
    | 0 => none
    | fuel + 1 => do
        let node := b.node nodeIndex
        let rest ← b.fifoFrom fuel node.next
        return ⟨node.referenceNumber, node.shares, ⟨node.price⟩⟩ :: rest

def ordersAt (b : L3Book) (side : Side) (price : UInt32) :
    Option (List OrderView) :=
  let levelIndex := b.findLevel side price
  if levelIndex = NIL then some []
  else b.fifoFrom b.pool.length (b.level side levelIndex).head

def levelCount (b : L3Book) (side : Side) : ℕ := (b.sideLevels side).length

def empty (b : L3Book) : Bool := b.index.empty

end L3Book

end Itch.Book
