import Itch.Book.LimitOrderBookRefinement
import Itch.Wire.RoundTrip

/-!
# The two book engines agree

A `LimitOrderBook` for a stock and the `L3Book` that a `BookManager` keeps at
the locate code of that stock share no data structure. Both represent an order
list, so they show the same book as long as they represent the same one. §1
says what a feed makes of the orders of every stock and when it is well formed,
§2 that both engines follow it, §3 what they show. §4 fills the pool of an
`L3Book`, which is where they part.
-/

namespace Itch

open Book (Side OrderList RestingOrder BookOp L3Book BookEntry BookManager
  ManagerConfig)
open Transducer

/-! ## §1  The feed -/

/-- The orders that rest in the feed, for every stock. -/
abbrev Feed : Type := Str → OrderList

/-- A feed follows its messages and puts nothing out. -/
def Feed.step (feed : Feed) (msg : Message) : Feed × List Empty :=
  (fun stock => msg.onOrders stock (feed stock), [])

/-- The orders of a stock that rest after the messages. -/
def resting (stock : Str) (msgs : List Message) : OrderList :=
  (run Feed.step (fun _ => []) msgs).1 stock

/-- The reference number that a call names. -/
def Book.BookOp.oldRef : BookOp → Option UInt64
  | .addOrder .. => none
  | .executeOrder ref _ => some ref
  | .reduceOrder ref _ => some ref
  | .deleteOrder ref => some ref
  | .replaceOrder oldRef .. => some oldRef

/-- The reference number that a call introduces. -/
def Book.BookOp.newRef : BookOp → Option UInt64
  | .addOrder ref .. => some ref
  | .replaceOrder _ newRef .. => some newRef
  | _ => none

/-- The shares that an execution or a cancel takes. -/
def Book.BookOp.taken : BookOp → Option UInt32
  | .executeOrder _ n => some n
  | .reduceOrder _ n => some n
  | _ => none

/-- The message is well formed where it arrives, for the book of `stock` at
`locate`. -/
structure WellFormedAt (stock : Str) (locate : UInt16) (feed : Feed)
    (msg : Message) : Prop where
  ownType : msg.OwnType
  fresh : ∀ op ∈ msg.bookOp, ∀ ref ∈ op.newRef,
    op.oldRef = some ref ∨ ∀ s, (feed s).find? ref = none
  remaining : ∀ op ∈ msg.bookOp, ∀ ref ∈ op.oldRef, ∀ n ∈ op.taken,
    ∀ s, ∀ o ∈ (feed s).find? ref, n ≤ o.shares
  addLocate : ∀ symbol ∈ msg.addSymbol,
    (msg.stockLocate = locate ↔ symbol = stock)
  orderLocate : ∀ op ∈ msg.bookOp, ∀ ref ∈ op.oldRef,
    (feed stock).find? ref ≠ none → msg.stockLocate = locate
  totals : ∀ side price,
    ((msg.onOrders stock (feed stock)).queue side price).totalShares < 2 ^ 32

/-- Every message is well formed where it arrives. -/
def WellFormed (stock : Str) (locate : UInt16) (msgs : List Message) : Prop :=
  ∀ pre msg, pre ++ [msg] <+: msgs →
    WellFormedAt stock locate (fun s => resting s pre) msg

section Feed

variable {stock : Str} {locate : UInt16} {feed : Feed} {os : OrderList}
  {msg : Message} {msgs : List Message} {op : BookOp}

theorem wellFormed_iff : WellFormed stock locate msgs ↔
    Legal Feed.step (WellFormedAt stock locate) (fun _ => []) msgs := by
  rw [legal_iff_prefixes]
  rfl

theorem wellFormed_snoc : WellFormed stock locate (msgs ++ [msg]) ↔
    WellFormed stock locate msgs ∧
      WellFormedAt stock locate (fun s => resting s msgs) msg := by
  rw [wellFormed_iff, legal_snoc, ← wellFormed_iff]
  rfl

theorem resting_snoc (stock : Str) (msgs : List Message) (msg : Message) :
    resting stock (msgs ++ [msg]) =
      msg.onOrders stock (resting stock msgs) := by
  rw [resting, run_snoc]
  rfl

theorem Message.onOrders_of_concerns (hop : msg.bookOp = some op)
    (h : msg.Concerns stock) : msg.onOrders stock os = (op.onList os).1 := by
  rw [onOrders, hop]
  cases hs : msg.addSymbol with
  | none => rfl
  | some symbol => exact if_pos (h symbol hs)

theorem Message.onOrders_of_not_concerns (h : ¬ msg.Concerns stock) :
    msg.onOrders stock os = os := by
  rw [onOrders]
  cases hop : msg.bookOp with
  | none => rfl
  | some op =>
      cases hs : msg.addSymbol with
      | none =>
          refine absurd (fun symbol hmem => ?_) h
          rw [hs] at hmem
          cases hmem
      | some symbol =>
          refine if_neg fun he => h fun symbol' hmem => ?_
          rw [hs] at hmem
          rw [← Option.some.inj hmem, he]

/-- A message that makes a call and adds no order names one. -/
theorem Message.oldRef_of_addSymbol (hop : msg.bookOp = some op)
    (hs : msg.addSymbol = none) : ∃ ref, op.oldRef = some ref := by
  cases msg
  case addOrder | addOrderMPIDAttribution => cases hs
  case orderExecuted | orderExecutedWithPrice | orderCancel | orderDelete |
      orderReplace =>
    cases hop
    exact ⟨_, rfl⟩
  all_goals cases hop

/-- A call that names an order that does not rest does nothing. -/
theorem Book.BookOp.onList_of_absent {ref : UInt64}
    (hold : op.oldRef = some ref) (h : os.find? ref = none) :
    (op.onList os).1 = os := by
  cases op with
  | addOrder => cases hold
  | executeOrder ref' n =>
      obtain rfl := Option.some.inj hold
      rw [onList, OrderList.execute, h]
  | reduceOrder ref' n =>
      obtain rfl := Option.some.inj hold
      rw [onList, OrderList.execute, h]
  | deleteOrder ref' =>
      obtain rfl := Option.some.inj hold
      exact OrderList.delete_of_not_mem (OrderList.find?_none.mp h)
  | replaceOrder oldRef newRef shares price =>
      obtain rfl := Option.some.inj hold
      rw [onList, OrderList.replace, h]

/-- Only the seven book messages make a call. -/
theorem Message.OwnType.mem_bookMessages (h : msg.OwnType)
    (hop : msg.bookOp = some op) :
    msg.header.messageType ∈ LimitOrderBook.bookMessages := by
  have hbytes : ∀ t ∈ [MsgType.addOrder, .addOrderMPIDAttribution,
      .orderExecuted, .orderExecutedWithPrice, .orderCancel, .orderDelete,
      .orderReplace], t.typeByte ∈ LimitOrderBook.bookMessages := by
    decide
  rw [h]
  cases msg
  case addOrder | addOrderMPIDAttribution | orderExecuted |
      orderExecutedWithPrice | orderCancel | orderDelete | orderReplace =>
    exact hbytes _ (by simp [Message.alternative])
  all_goals cases hop

/-- What is well formed for the feed is within the bounds of the map-based
book. -/
theorem WellFormedAt.within (h : WellFormedAt stock locate feed msg) :
    msg.Within stock (feed stock) := by
  intro hconcerns op hop
  have htotals := h.totals
  rw [Message.onOrders_of_concerns hop hconcerns] at htotals
  cases op with
  | addOrder ref side shares price =>
      have hfresh : (feed stock).find? ref = none := by
        rcases h.fresh _ hop ref rfl with hold | hnew
        · cases hold
        · exact hnew stock
      refine ⟨hfresh, ?_⟩
      have hroom := htotals side price
      rw [BookOp.onList, OrderList.add, hfresh] at hroom
      exact (OrderList.totalShares_queue_snoc _ _).symm.trans_lt hroom
  | executeOrder ref n => exact h.remaining _ hop ref rfl n rfl stock
  | reduceOrder ref n => exact h.remaining _ hop ref rfl n rfl stock
  | deleteOrder ref => trivial
  | replaceOrder oldRef newRef shares price =>
      intro o hf
      have hnew : newRef = oldRef ∨ (feed stock).find? newRef = none := by
        rcases h.fresh _ hop newRef rfl with hold | hnew
        · exact Or.inl (Option.some.inj hold).symm
        · exact Or.inr (hnew stock)
      have hfresh : ((feed stock).delete oldRef).find? newRef = none := by
        rw [OrderList.find?_delete]
        rcases hnew with he | hnone
        · rw [if_pos he]
        · rw [hnone, ite_self]
      refine ⟨hnew, ?_⟩
      have hroom := htotals o.side price
      have hf : (feed stock).find? oldRef = some o := hf
      rw [BookOp.onList, OrderList.replace, hf] at hroom
      simp only [OrderList.add, hfresh] at hroom
      exact (OrderList.totalShares_queue_snoc _ _).symm.trans_lt hroom

end Feed

/-! ## §2  Both engines follow the feed -/

section Engines

variable {stock : Str} {locate : UInt16} {feed : Feed} {os : OrderList}
  {msg : Message} {msgs : List Message} {op : BookOp} {b : LimitOrderBook}
  {c : ManagerConfig} {e : Option BookEntry}

theorem LimitOrderBook.Rep.process_onOrders (h : b.Rep os)
    (hown : msg.OwnType) (hin : msg.Within b.stockSymbol os) :
    (b.process msg).Rep (msg.onOrders b.stockSymbol os) ∧
      (b.process msg).stockSymbol = b.stockSymbol := by
  obtain ⟨hrep, hF⟩ := h.process fun _ => hin
  refine ⟨?_, hF.symbol⟩
  split_ifs at hrep with htype
  · exact hrep
  · cases hop : msg.bookOp with
    | none => rwa [Message.onOrders, hop]
    | some op => exact absurd (hown.mem_bookMessages hop) htype

open Book (entryBook)

/-- Without a universe an add message always has an entry. -/
theorem Book.ManagerConfig.ensure_rep (hc : c.trackedUniverse = ∅)
    (symbol : Str) (h : (entryBook e).Rep os) :
    ∃ slot, c.ensure symbol e = some slot ∧ slot.book.Rep os := by
  cases e with
  | none => exact ⟨_, if_pos (Or.inl hc), h.setSymbol symbol⟩
  | some slot =>
      refine ⟨_, rfl, ?_⟩
      split
      · exact h.setSymbol symbol
      · exact h

/-- A message that concerns the stock, seen from the entry of its book. -/
theorem Book.ManagerConfig.localStep_rep (hc : c.trackedUniverse = ∅)
    (h : (entryBook e).Rep os) (hconcerns : msg.Concerns stock)
    (hfew : (msg.onOrders stock os).length < 2 ^ 32) :
    (entryBook (c.localStep msg e).1).Rep (msg.onOrders stock os) := by
  cases hop : msg.bookOp with
  | none =>
      rw [ManagerConfig.localStep, Message.onOrders, hop]
      exact h
  | some op =>
      rw [Message.onOrders_of_concerns hop hconcerns] at hfew ⊢
      have hcall : ∀ slot, c.target msg e = some slot → slot.book.Rep os →
          (entryBook (c.localStep msg e).1).Rep (op.onList os).1 := by
        intro slot ht hslot
        rw [ManagerConfig.localStep, hop, ht]
        exact (BookOp.step hslot op hfew).1
      cases hs : msg.addSymbol with
      | some symbol =>
          obtain ⟨slot, hensure, hslot⟩ := ensure_rep hc symbol h
          refine hcall slot ?_ hslot
          rw [ManagerConfig.target, hs]
          exact hensure
      | none =>
          have ht : c.target msg e = e := by rw [ManagerConfig.target, hs]
          cases e with
          | some slot => exact hcall slot ht h
          | none =>
              -- without an entry there are no orders to name
              have hnil : os = [] := by
                rw [← List.isEmpty_iff, ← h.empty]
                rfl
              obtain ⟨ref, href⟩ := Message.oldRef_of_addSymbol hop hs
              rw [hnil] at h ⊢
              rw [BookOp.onList_of_absent href rfl, ManagerConfig.localStep,
                hop, ht]
              exact h

/-- A message that is not for the book at `locate` does nothing to the orders
of its stock. -/
theorem WellFormedAt.onOrders_of_ne
    (h : WellFormedAt stock locate feed msg) (hl : msg.stockLocate ≠ locate) :
    msg.onOrders stock (feed stock) = feed stock := by
  cases hop : msg.bookOp with
  | none => rw [Message.onOrders, hop]
  | some op =>
      cases hs : msg.addSymbol with
      | some symbol =>
          refine Message.onOrders_of_not_concerns fun hconcerns => hl ?_
          exact (h.addLocate symbol hs).mpr (hconcerns symbol hs)
      | none =>
          obtain ⟨ref, href⟩ := Message.oldRef_of_addSymbol hop hs
          have hconcerns : msg.Concerns stock := by
            intro symbol hmem
            rw [hs] at hmem
            cases hmem
          rw [Message.onOrders_of_concerns hop hconcerns]
          refine BookOp.onList_of_absent href ?_
          by_contra hne
          exact hl (h.orderLocate _ hop ref href hne)

theorem WellFormedAt.concerns (h : WellFormedAt stock locate feed msg)
    (hl : msg.stockLocate = locate) : msg.Concerns stock :=
  fun symbol hs => (h.addLocate symbol hs).mp hl

/-- Both engines hold the orders `os` of the stock. -/
structure Follow (stock : Str) (locate : UInt16) (b : LimitOrderBook)
    (m : BookManager) (os : OrderList) : Prop where
  symbol : b.stockSymbol = stock
  universe_empty : m.trackedUniverse = ∅
  limit : b.Rep os
  l3 : (entryBook (m.entry locate)).Rep os

theorem Follow.process {m : BookManager}
    (h : Follow stock locate b m (feed stock))
    (hw : WellFormedAt stock locate feed msg)
    (hfew : (msg.onOrders stock (feed stock)).length < 2 ^ 32) :
    Follow stock locate (b.process msg) (m.process msg).1
      (msg.onOrders stock (feed stock)) := by
  have hsymbol := h.symbol
  obtain ⟨hrep, hkeep⟩ := h.limit.process_onOrders hw.ownType
    (by rw [hsymbol]; exact hw.within)
  rw [hsymbol] at hrep
  have hP := BookManager.processed m msg
  refine ⟨hkeep.trans hsymbol, ?_, hrep, ?_⟩
  · rw [hP.config]
    exact h.universe_empty
  · by_cases hl : msg.stockLocate = locate
    · have hown := hP.own
      rw [hl] at hown
      rw [hown]
      exact ManagerConfig.localStep_rep h.universe_empty h.l3 (hw.concerns hl)
        hfew
    · rw [hP.other locate (Ne.symm hl), hw.onOrders_of_ne hl]
      exact h.l3

/-- Both engines from the start, over a well-formed feed. -/
theorem follow_run (stock : Str) (locate : UInt16) (hasBbo hasTrade : Bool)
    (hw : WellFormed stock locate msgs)
    (hfew : ∀ pre, pre <+: msgs → (resting stock pre).length < 2 ^ 32) :
    Follow stock locate
      (msgs.foldl LimitOrderBook.process { stockSymbol := stock })
      (run BookManager.process
        { hasBboCallback := hasBbo, hasTradeCallback := hasTrade } msgs).1
      (resting stock msgs) := by
  induction msgs using List.reverseRecOn with
  | nil =>
      exact ⟨rfl, rfl, LimitOrderBook.rep_empty stock, L3Book.rep_empty []⟩
  | append_singleton msgs msg ih =>
      obtain ⟨hw, hmsg⟩ := wellFormed_snoc.mp hw
      have hmsgs := ih hw fun pre hpre =>
        hfew pre (hpre.trans (List.prefix_append msgs [msg]))
      have hlast := hfew _ (List.prefix_refl _)
      rw [resting_snoc] at hlast ⊢
      rw [List.foldl_append, run_snoc]
      exact hmsgs.process hmsg hlast

end Engines

/-! ## §3  They show the same book -/

/-- The prices of a side in order, with the total of each level. -/
def LimitOrderBook.levelTotals (b : LimitOrderBook) (side : Side) :
    List (UInt32 × ℕ) :=
  (b.levels side).toList.map (fun x => (x.1, x.2.totalShares.toNat))

/-- The orders of a level, oldest first. -/
def LimitOrderBook.fifo (b : LimitOrderBook) (side : Side) (price : UInt32) :
    List (UInt64 × UInt32) :=
  (b.level ⟨side, price⟩).orders.map
    (fun i => ((b.order i).orderReferenceNumber, (b.order i).shares))

def Book.L3Book.levelTotals (b : L3Book) (side : Side) : List (UInt32 × ℕ) :=
  (b.depth side 0).map (fun l => (l.price.raw, l.shares.toNat))

def Book.L3Book.fifo (b : L3Book) (side : Side) (price : UInt32) :
    Option (List (UInt64 × UInt32)) :=
  (b.ordersAt side price).map
    (List.map fun o => (o.referenceNumber, o.shares))

/-- The same prices in the same order, the same totals, and at every price the
same orders. -/
structure SameBook (b : LimitOrderBook) (b' : L3Book) : Prop where
  levels : ∀ side, b.levelTotals side = b'.levelTotals side
  orders : ∀ side price, some (b.fifo side price) = b'.fifo side price

section SameBook

variable {b : LimitOrderBook} {b' : L3Book} {os : OrderList} {side : Side}
  {price : UInt32} {stock : Str} {locate : UInt16} {msgs pre : List Message}

theorem Book.L3Book.Rep.levelTotals (h : b'.Rep os) (side : Side) :
    b'.levelTotals side =
      (os.prices side).map (fun p => (p, (os.queue side p).totalShares)) := by
  rw [L3Book.levelTotals, h.depth, OrderList.depth, if_pos rfl, List.map_map]
  refine List.map_congr_left fun p _ => ?_
  have hfit := h.agrees.shares_fit side p
  have htotal : (UInt64.ofNat (os.queue side p).totalShares).toNat =
      (os.queue side p).totalShares := by
    rw [UInt64.toNat_ofNat', Nat.mod_eq_of_lt hfit]
  exact congrArg (Prod.mk p) htotal

theorem Book.L3Book.Rep.fifo (h : b'.Rep os) (side : Side) (price : UInt32) :
    b'.fifo side price = some ((os.queue side price).map
      (fun o => (o.referenceNumber, o.shares))) := by
  rw [L3Book.fifo, h.ordersAt, OrderList.ordersAt, Option.map_some,
    List.map_map]
  rfl

theorem LimitOrderBook.Rep.prices (h : b.Rep os) (side : Side) :
    os.prices side = (b.levels side).toList.map (·.1) := by
  refine OrderList.prices_unique ?_ fun p => ?_
  · refine List.pairwise_map.mpr ?_
    exact Std.TreeMap.ordered_keys_toList.imp Side.compare_eq_lt.mp
  · rw [← OrderList.mem_prices, ← OrderList.queue_ne_nil_iff, List.mem_map]
    have hlv := h.levels side p
    constructor
    · rintro ⟨⟨p', l⟩, hmem, rfl⟩
      have hl : b.level? side p' = some l :=
        Std.TreeMap.mem_toList_iff_getElem?_eq_some.mp hmem
      exact (h.level_orders hl).2
    · intro hne
      cases hl : b.level? side p with
      | none =>
          rw [hl] at hlv
          generalize os.queue side p = q at hlv hne
          cases hlv
          exact absurd rfl hne
      | some l =>
          exact ⟨(p, l), Std.TreeMap.mem_toList_iff_getElem?_eq_some.mpr hl,
            rfl⟩

theorem LimitOrderBook.Rep.levelTotals (h : b.Rep os) (side : Side) :
    b.levelTotals side =
      (os.prices side).map (fun p => (p, (os.queue side p).totalShares)) := by
  rw [LimitOrderBook.levelTotals, h.prices, List.map_map]
  refine List.map_congr_left fun x hx => ?_
  have hl : b.level? side x.1 = some x.2 :=
    Std.TreeMap.mem_toList_iff_getElem?_eq_some.mp hx
  have htotal := h.level_total side x.1
  have hlevel : b.level ⟨side, x.1⟩ = x.2 :=
    congrArg (fun l : Option PriceLevel => l.getD {}) hl
  rw [hlevel] at htotal
  exact congrArg (Prod.mk x.1) htotal

theorem LimitOrderBook.Rep.fifo (h : b.Rep os) (side : Side)
    (price : UInt32) : b.fifo side price =
      (os.queue side price).map (fun o => (o.referenceNumber, o.shares)) := by
  have horders : (b.level ⟨side, price⟩).orders =
      (os.queue side price).map b.handle := by
    have hlv := h.levels side price
    show ((b.level? side price).getD {}).orders = _
    generalize b.level? side price = l at hlv
    generalize os.queue side price = q at hlv
    cases hlv with
    | none => rfl
    | some _ _ orders => exact orders
  rw [LimitOrderBook.fifo, horders, List.map_map]
  refine List.map_congr_left fun o ho => ?_
  have hst := h.nodes o (OrderList.mem_queue.mp ho).1
  simp only [Function.comp_apply, hst.referenceNumber, hst.shares]

/-- Books that represent the same orders show the same. -/
theorem SameBook.of_rep (h : b.Rep os) (h' : b'.Rep os) : SameBook b b' where
  levels side := by rw [h.levelTotals, h'.levelTotals]
  orders side price := by rw [h.fifo, h'.fifo]

/-- **The engines agree.** After any part of a well-formed feed in which fewer
than `2 ^ 32` orders of the stock rest at a time, the two books of the stock
show the same. -/
theorem engines_agree (stock : Str) (locate : UInt16)
    (hasBbo hasTrade : Bool) (hw : WellFormed stock locate msgs)
    (hfew : ∀ pre, pre <+: msgs → (resting stock pre).length < 2 ^ 32)
    (hpre : pre <+: msgs) :
    SameBook (pre.foldl LimitOrderBook.process { stockSymbol := stock })
      (((run BookManager.process
        { hasBboCallback := hasBbo, hasTradeCallback := hasTrade }
        pre).1.book locate).getD {}) := by
  have h := follow_run stock locate hasBbo hasTrade
    (fun pre' msg hpre' => hw pre' msg (hpre'.trans hpre))
    fun pre' hpre' => hfew pre' (hpre'.trans hpre)
  exact .of_rep h.limit h.l3

end SameBook

/-! An order that is executed in part and then replaced. -/

section OneTrade

theorem totalShares_queue_singleton (o : RestingOrder) (side : Side)
    (p : UInt32) :
    (OrderList.queue [o] side p).totalShares ≤ o.shares.toNat := by
  by_cases hp : o.side = side ∧ o.price = p
  · obtain ⟨rfl, rfl⟩ := hp
    rw [OrderList.queue_singleton_self, OrderList.totalShares_cons]
    exact le_rfl
  · rw [OrderList.queue_singleton_other hp]
    exact Nat.zero_le _

def tradedOrder : List Message :=
  [.addOrder { stockLocate := 1, orderReferenceNumber := 7
               buySellIndicator := 'B'.toUInt8, shares := 100, price := 20
               stock := LimitOrderBook.itchStock },
    .orderExecuted { stockLocate := 1, orderReferenceNumber := 7
                     executedShares := 40 },
    .orderReplace { stockLocate := 1, originalOrderReferenceNumber := 7
                    newOrderReferenceNumber := 8, shares := 80, price := 21 }]

theorem resting_tradedOrder_one (s : Str) :
    resting s (tradedOrder.take 1) =
      if toString LimitOrderBook.itchStock = s then [⟨7, .buy, 100, 20⟩]
      else [] := rfl

theorem resting_tradedOrder_two (s : Str) :
    resting s (tradedOrder.take 2) =
      if toString LimitOrderBook.itchStock = s then [⟨7, .buy, 60, 20⟩]
      else [] := by
  refine (resting_snoc s (tradedOrder.take 1) _).trans ?_
  rw [resting_tradedOrder_one]
  split <;> rfl

theorem wellFormed_tradedOrder :
    WellFormed (toString LimitOrderBook.itchStock) 1 tradedOrder := by
  have hone (o : RestingOrder) (side : Side) (p : UInt32) :
      (OrderList.queue [o] side p).totalShares < 2 ^ 32 :=
    (totalShares_queue_singleton o side p).trans_lt o.shares.toNat_lt
  refine wellFormed_iff.mpr ⟨?_, ?_, ?_, trivial⟩
  · exact
      { ownType := rfl
        fresh := by
          rintro op ⟨⟩ ref ⟨⟩
          exact .inr fun _ => rfl
        remaining := by rintro op ⟨⟩ ref ⟨⟩
        addLocate := by
          rintro symbol ⟨⟩
          exact iff_of_true rfl rfl
        orderLocate := by rintro op ⟨⟩ ref ⟨⟩
        totals := hone ⟨7, .buy, 100, 20⟩ }
  · show WellFormedAt _ _ (fun s => resting s (tradedOrder.take 1)) _
    exact
      { ownType := rfl
        fresh := by rintro op ⟨⟩ ref ⟨⟩
        remaining := by
          rintro op ⟨⟩ ref ⟨⟩ n ⟨⟩ s o ho
          rw [resting_tradedOrder_one] at ho
          split at ho
          · cases ho
            decide
          · cases ho
        addLocate := by rintro symbol ⟨⟩
        orderLocate := by
          rintro op ⟨⟩ ref ⟨⟩ -
          rfl
        totals := hone ⟨7, .buy, 60, 20⟩ }
  · show WellFormedAt _ _ (fun s => resting s (tradedOrder.take 2)) _
    exact
      { ownType := rfl
        fresh := by
          rintro op ⟨⟩ ref ⟨⟩
          refine .inr fun s => ?_
          rw [resting_tradedOrder_two]
          split <;> rfl
        remaining := by rintro op ⟨⟩ ref ⟨⟩ n ⟨⟩
        addLocate := by rintro symbol ⟨⟩
        orderLocate := by
          rintro op ⟨⟩ ref ⟨⟩ -
          rfl
        totals := hone ⟨8, .buy, 80, 21⟩ }

theorem engines_agree_tradedOrder :
    SameBook (tradedOrder.foldl LimitOrderBook.process
        { stockSymbol := toString LimitOrderBook.itchStock })
      (((run BookManager.process
        { hasBboCallback := true, hasTradeCallback := true }
        tradedOrder).1.book 1).getD {}) :=
  engines_agree (toString LimitOrderBook.itchStock) 1 true true
    wellFormed_tradedOrder (by
      intro pre hpre
      rw [← List.mem_inits] at hpre
      revert pre
      decide) (List.prefix_refl _)

end OneTrade

/-! ## §4  A full pool -/

section FullPool

variable {b : L3Book} {os : OrderList} {side : Side} {ref : UInt64}
  {shares price : UInt32}

/-- The orders take every node that is not `NIL`, so the next node is that. -/
theorem Book.L3Book.Rep.allocateNode_full (h : b.Rep os)
    (hfull : os.length + 1 = 2 ^ 32) :
    b.allocateNode = ({ b with pool := b.pool ++ [{}] }, Book.NIL) := by
  obtain ⟨free, hp⟩ := h.pool
  have hlength := hp.length
  have hsmall := hp.small
  rw [List.length_map] at hlength
  have hfree : free = [] := List.length_eq_zero_iff.mp (by omega)
  have hhead : b.freeHead = Book.NIL := by
    have hchain := hp.chain
    rwa [hfree] at hchain
  have hindex : UInt32.ofNat b.pool.length = Book.NIL := by
    rw [← UInt32.toNat_inj, UInt32.toNat_ofNat', L3Book.toNat_NIL]
    omega
  rw [L3Book.allocateNode, if_neg (not_not.mpr hhead)]
  simp only [List.length_append, List.length_singleton, Nat.add_sub_cancel,
    hindex]

/-- The order that takes the node `NIL` is not in the FIFO of its level. -/
theorem Book.L3Book.Rep.ordersAt_addOrder_full (h : b.Rep os)
    (hfull : os.length + 1 = 2 ^ 32) (hfresh : os.find? ref = none)
    (hside : ∀ p, os.queue side p = []) :
    (b.addOrder ref side shares price).ordersAt side price = some [] := by
  have hlevels : b.sideLevels side = [] := by
    rw [List.eq_nil_iff_forall_not_mem]
    exact fun l hl => (h.ladder side).nonempty l hl (hside l.price)
  have hal := h.allocateNode_full hfull
  -- its level is the only one of the side
  obtain ⟨b₂, hb₂⟩ : ∃ b₂, b₂ = ({ b with pool := b.pool ++ [{}] } :
      L3Book).modifyNode Book.NIL (fun n => { n with
        referenceNumber := ref, shares, price, side }) := ⟨_, rfl⟩
  have hlevels₂ : b₂.sideLevels side = [] := by
    rw [hb₂, L3Book.sideLevels_modifyNode, ← hlevels]
    cases side <;> rfl
  have hfc : b₂.findOrCreateLevel side price =
      (b₂.setSideLevels side [{ price }], 0) := by
    rw [L3Book.findOrCreateLevel, L3Book.lowerBound, hlevels₂]
    rfl
  obtain ⟨b₃, hb₃⟩ : ∃ b₃, b₃ = b₂.setSideLevels side [{ price }] := ⟨_, rfl⟩
  have hlevels₃ : b₃.sideLevels side = [{ price }] := by
    rw [hb₃, L3Book.sideLevels_setSideLevels, if_pos rfl]
  have happend : (b₃.appendNode side 0 Book.NIL shares).sideLevels side =
      [{ price, totalShares := 0 + shares.toUInt64, orderCount := 1 }] := by
    have htail : (b₃.level side 0).tail = Book.NIL := by
      rw [L3Book.level, hlevels₃]
      rfl
    rw [L3Book.appendNode, htail]
    simp only [ne_eq, not_true_eq_false, if_false,
      L3Book.sideLevels_modifyLevel, L3Book.sideLevels_modifyNode, if_true,
      hlevels₃]
    rfl
  rw [hb₂] at hfc
  rw [L3Book.addOrder_eq (h.absent ref hfresh) hal hfc, ← hb₂, ← hb₃]
  obtain ⟨b₄, hb₄⟩ : ∃ b₄, b₄ =
      { b₃.appendNode side 0 Book.NIL shares with
        index := (b₃.appendNode side 0 Book.NIL shares).index.insert ref
          Book.NIL } := ⟨_, rfl⟩
  have hlevels₄ : b₄.sideLevels side =
      [{ price, totalShares := 0 + shares.toUInt64, orderCount := 1 }] := by
    rw [hb₄, ← happend]
    cases side <;> rfl
  have hfind : b₄.findLevel side price = 0 := by
    have hfirst : b₄.lowerBound side price = 0 := by
      rw [L3Book.lowerBound, hlevels₄, SortedLadder.lowerBound,
        List.findIdx_cons, side.priority.irrefl]
      rfl
    rw [L3Book.findLevel, hfirst, hlevels₄]
    exact if_pos ⟨Nat.zero_ne_one, rfl⟩
  have hhead₄ : (b₄.level side 0).head = Book.NIL := by
    rw [L3Book.level, hlevels₄]
    rfl
  rw [← hb₄, L3Book.ordersAt, hfind, hhead₄, if_neg (by decide),
    L3Book.fifoFrom.eq_def, if_pos rfl]

/-- An order of one share at the price 1. -/
def addOne (k : ℕ) (buySellIndicator : UInt8) : Message :=
  .addOrder { stockLocate := 1, orderReferenceNumber := UInt64.ofNat k
              buySellIndicator, shares := 1, price := 1
              stock := LimitOrderBook.itchStock }

def buys (n : ℕ) : List Message :=
  (List.range n).map (fun k => addOne k 'B'.toUInt8)

/-- As many buy orders as there are nodes but `NIL`, then a sell order. -/
def fullPool (n : ℕ) : List Message := buys n ++ [addOne n 'S'.toUInt8]

def buyOrders (n : ℕ) : OrderList :=
  (List.range n).map (fun k => ⟨UInt64.ofNat k, .buy, 1, 1⟩)

section Buys

variable {n k : ℕ} {c : UInt8} {s : Str} {p : UInt32} {feed : Feed}

theorem buys_succ (n : ℕ) : buys (n + 1) = buys n ++ [addOne n 'B'.toUInt8] :=
  by rw [buys, List.range_succ, List.map_append, List.map_singleton, buys]

theorem buyOrders_succ (n : ℕ) : buyOrders (n + 1) =
    buyOrders n ++ [⟨UInt64.ofNat n, .buy, 1, 1⟩] := by
  rw [buyOrders, List.range_succ, List.map_append, List.map_singleton,
    buyOrders]

theorem find?_buyOrders (hk : n ≤ k) (hlt : k < 2 ^ 64) :
    (buyOrders n).find? (UInt64.ofNat k) = none := by
  rw [OrderList.find?_none]
  intro o ho he
  obtain ⟨j, hj, rfl⟩ := List.mem_map.mp ho
  rw [List.mem_range] at hj
  have he := congrArg UInt64.toNat he
  rw [UInt64.toNat_ofNat', UInt64.toNat_ofNat', Nat.mod_eq_of_lt (by omega),
    Nat.mod_eq_of_lt hlt] at he
  omega

theorem queue_buyOrders_sell (n : ℕ) (p : UInt32) :
    (buyOrders n).queue .sell p = [] := by
  rw [List.eq_nil_iff_forall_not_mem]
  intro o ho
  obtain ⟨hmem, hs, -⟩ := OrderList.mem_queue.mp ho
  obtain ⟨j, -, rfl⟩ := List.mem_map.mp hmem
  cases hs

theorem totalShares_queue_buyOrders (n : ℕ) (side : Side) (p : UInt32) :
    ((buyOrders n).queue side p).totalShares ≤ n := by
  induction n with
  | zero => exact le_rfl
  | succ n ih =>
      rw [buyOrders_succ, OrderList.queue_append,
        OrderList.totalShares_append]
      exact Nat.add_le_add ih (totalShares_queue_singleton _ side p)

theorem onOrders_addOne (hfresh : os.find? (UInt64.ofNat k) = none) :
    (addOne k c).onOrders s os =
      if toString LimitOrderBook.itchStock = s then
        os ++ [⟨UInt64.ofNat k, Book.toSide c, 1, 1⟩] else os := by
  show (if toString LimitOrderBook.itchStock = s then os.add _ else os) = _
  rw [OrderList.add, hfresh]
  rfl

theorem resting_buys (hn : n ≤ 2 ^ 64) (s : Str) :
    resting s (buys n) =
      if toString LimitOrderBook.itchStock = s then buyOrders n else [] := by
  induction n with
  | zero => exact (ite_self _).symm
  | succ n ih =>
      rw [buys_succ, resting_snoc, ih (by omega)]
      by_cases hs : toString LimitOrderBook.itchStock = s
      · rw [if_pos hs, if_pos hs,
          onOrders_addOne (find?_buyOrders le_rfl (by omega)), if_pos hs,
          buyOrders_succ]
        rfl
      · rw [if_neg hs, if_neg hs, onOrders_addOne rfl, if_neg hs]

theorem wellFormedAt_addOne
    (hfresh : ∀ s, (feed s).find? (UInt64.ofNat k) = none)
    (htotals : ∀ side p, (OrderList.queue
      (feed (toString LimitOrderBook.itchStock) ++
        [⟨UInt64.ofNat k, Book.toSide c, 1, 1⟩]) side p).totalShares < 2 ^ 32) :
    WellFormedAt (toString LimitOrderBook.itchStock) 1 feed (addOne k c) where
  ownType := rfl
  fresh op hop ref href := by
    cases hop
    cases href
    exact Or.inr hfresh
  remaining op hop ref href := by
    cases hop
    cases href
  addLocate symbol hs := by
    cases hs
    exact iff_of_true rfl rfl
  orderLocate op hop ref href := by
    cases hop
    cases href
  totals := by
    rw [onOrders_addOne (hfresh _), if_pos rfl]
    exact htotals

theorem wellFormed_buys (hn : n < 2 ^ 32) :
    WellFormed (toString LimitOrderBook.itchStock) 1 (buys n) := by
  induction n with
  | zero => exact wellFormed_iff.mpr trivial
  | succ n ih =>
      rw [buys_succ]
      refine wellFormed_snoc.mpr ⟨ih (by omega), wellFormedAt_addOne ?_ ?_⟩
      · intro s
        show (resting s (buys n)).find? _ = none
        rw [resting_buys (by omega)]
        split
        · exact find?_buyOrders le_rfl (by omega)
        · rfl
      · intro side p
        show (OrderList.queue (resting _ (buys n) ++ _) _ _).totalShares < _
        rw [resting_buys (by omega), if_pos rfl]
        have hle := totalShares_queue_buyOrders (n + 1) side p
        rw [buyOrders_succ] at hle
        exact hle.trans_lt hn

theorem wellFormed_fullPool (hn : n < 2 ^ 32) :
    WellFormed (toString LimitOrderBook.itchStock) 1 (fullPool n) := by
  refine wellFormed_snoc.mpr ⟨wellFormed_buys hn, wellFormedAt_addOne ?_ ?_⟩
  · intro s
    show (resting s (buys n)).find? _ = none
    rw [resting_buys (by omega)]
    split
    · exact find?_buyOrders le_rfl (by omega)
    · rfl
  · intro side p
    show (OrderList.queue (resting _ (buys n) ++ _) _ _).totalShares < _
    rw [resting_buys (by omega), if_pos rfl, OrderList.queue_append,
      OrderList.totalShares_append]
    have hle := totalShares_queue_buyOrders n side p
    cases side with
    | buy =>
        rw [OrderList.queue_singleton_other (by rintro ⟨hs, -⟩; cases hs)]
        exact hle.trans_lt hn
    | sell =>
        rw [queue_buyOrders_sell]
        refine lt_of_le_of_lt (Nat.add_le_add le_rfl
          (totalShares_queue_singleton _ .sell p)) ?_
        show 0 + (1 : UInt32).toNat < 2 ^ 32
        decide

theorem length_resting_buys (hn : n < 2 ^ 32) {pre : List Message}
    (hpre : pre <+: buys n) :
    (resting (toString LimitOrderBook.itchStock) pre).length < 2 ^ 32 := by
  have hpre : pre = buys (min pre.length n) := by
    rw [buys, ← List.take_range, List.map_take, ← buys]
    exact List.prefix_iff_eq_take.mp hpre
  rw [hpre, resting_buys (by omega), if_pos rfl, buyOrders, List.length_map,
    List.length_range]
  omega

/-- The `L3Book` after the last order. -/
theorem l3_fullPool {m : BookManager} (hn : n + 1 = 2 ^ 32)
    (hm : m.trackedUniverse = ∅)
    (h : (Book.entryBook (m.entry 1)).Rep (buyOrders n)) :
    (((m.process (addOne n 'S'.toUInt8)).1.book 1).getD {}).fifo .sell 1 =
      some [] := by
  obtain ⟨slot, hensure, hslot⟩ :=
    ManagerConfig.ensure_rep hm (toString LimitOrderBook.itchStock) h
  have hfresh : (buyOrders n).find? (UInt64.ofNat n) = none :=
    find?_buyOrders le_rfl (by omega)
  have hlength : (buyOrders n).length + 1 = 2 ^ 32 := by
    rwa [buyOrders, List.length_map, List.length_range]
  have hnone : (slot.book.addOrder (UInt64.ofNat n) .sell 1 1).ordersAt
      .sell 1 = some [] :=
    hslot.ordersAt_addOrder_full hlength hfresh (queue_buyOrders_sell n)
  have hentry : (m.process (addOne n 'S'.toUInt8)).1.entry 1 =
      some (slot.apply (.addOrder (UInt64.ofNat n) .sell 1 1)) := by
    refine (BookManager.processed m (addOne n 'S'.toUInt8)).own.trans ?_
    have htarget : m.target (addOne n 'S'.toUInt8)
        (m.entry (addOne n 'S'.toUInt8).stockLocate) = some slot := hensure
    rw [ManagerConfig.localStep, htarget]
    rfl
  rw [BookManager.book, hentry, L3Book.fifo]
  exact congrArg (Option.map _) hnone

/-- **Without the bound the engines part.** The map-based book lists the last
order, the `L3Book` does not. -/
theorem engines_part (hn : n + 1 = 2 ^ 32) :
    ¬ SameBook ((fullPool n).foldl LimitOrderBook.process
        { stockSymbol := toString LimitOrderBook.itchStock })
      (((run BookManager.process {} (fullPool n)).1.book 1).getD {}) := by
  obtain ⟨hbuys, hsell⟩ :=
    wellFormed_snoc.mp (wellFormed_fullPool (n := n) (by omega))
  have hresting : resting (toString LimitOrderBook.itchStock) (buys n) =
      buyOrders n := by
    rw [resting_buys (by omega), if_pos rfl]
  have h := follow_run (toString LimitOrderBook.itchStock) 1 false false hbuys
    fun pre hpre => length_resting_buys (by omega) hpre
  have hwithin := hsell.within
  have hlimit := (h.limit.process_onOrders hsell.ownType
    (by rw [h.symbol]; exact hwithin)).1
  rw [h.symbol, hresting,
    onOrders_addOne (find?_buyOrders le_rfl (by omega)), if_pos rfl] at hlimit
  rw [hresting] at h
  intro hsame
  rw [fullPool, List.foldl_append, run_snoc] at hsame
  have hfifo := hsame.orders .sell 1
  rw [l3_fullPool hn h.universe_empty h.l3] at hfifo
  have hone := (hlimit.fifo .sell 1).symm.trans (Option.some.inj hfifo)
  rw [OrderList.queue_append, queue_buyOrders_sell] at hone
  cases hone

theorem engines_part_fullPool :
    WellFormed (toString LimitOrderBook.itchStock) 1 (fullPool (2 ^ 32 - 1)) ∧
      ¬ SameBook ((fullPool (2 ^ 32 - 1)).foldl LimitOrderBook.process
          { stockSymbol := toString LimitOrderBook.itchStock })
        (((run BookManager.process {} (fullPool (2 ^ 32 - 1))).1.book
          1).getD {}) :=
  ⟨wellFormed_fullPool (by norm_num), engines_part (by norm_num)⟩

end Buys

end FullPool

end Itch
