import Itch.Book.LimitOrderBook
import Itch.Book.BookManagerRouting

/-!
# `LimitOrderBook` refines the order list, on feeds that are well behaved

The book keeps two maps of levels, their lists, level pointers and a map of
references, and checks nothing. §1 says what can be read after each write, §2
states the invariant `Rep`: the book represents an order list. §3 and §4 show
that adding a fresh reference and taking no more than the remaining shares
keep it, §5 that messages within these bounds do. From `Rep` follow the
consistency of the book over whole runs (§6) and the three ways to lose it.
-/

namespace Itch

open Book (Side OrderList RestingOrder BookOp)

namespace LimitOrderBook

/-! ## §1  Reads after writes -/

section Reads

variable {b : LimitOrderBook} {side side' : Side} {i j : ℕ} {p : LevelPtr}
  {price : UInt32}

/-- The level of a price, if there is one. -/
def level? (b : LimitOrderBook) (side : Side) (price : UInt32) :
    Option PriceLevel := (b.levels side)[price]?

theorem levels_modifyLevels_self (f : LevelMap side → LevelMap side) :
    (b.modifyLevels side f).levels side = f (b.levels side) := by
  cases side <;> rfl

theorem levels_modifyLevels_other (f : LevelMap side → LevelMap side)
    (h : side' ≠ side) :
    (b.modifyLevels side f).levels side' = b.levels side' := by
  cases side <;> cases side' <;> first | rfl | exact absurd rfl h

@[simp] theorem heap_modifyLevels (f : LevelMap side → LevelMap side) :
    (b.modifyLevels side f).heap = b.heap := by cases side <;> rfl

@[simp] theorem orders_modifyLevels (f : LevelMap side → LevelMap side) :
    (b.modifyLevels side f).orders = b.orders := by cases side <;> rfl

@[simp] theorem stockSymbol_modifyLevels (f : LevelMap side → LevelMap side) :
    (b.modifyLevels side f).stockSymbol = b.stockSymbol := by
  cases side <;> rfl

@[simp] theorem order_modifyLevels (f : LevelMap side → LevelMap side) :
    (b.modifyLevels side f).order i = b.order i := by
  rw [order, heap_modifyLevels, order]

theorem level?_modifyLevel (f : PriceLevel → PriceLevel) :
    (b.modifyLevel p f).level? side price =
      if p = ⟨side, price⟩ then (b.level? side price).map f
      else b.level? side price := by
  obtain ⟨pside, pprice⟩ := p
  simp only [LevelPtr.mk.injEq]
  by_cases hs : side = pside
  · subst hs
    rw [level?, modifyLevel, levels_modifyLevels_self,
      Std.TreeMap.getElem?_modify, level?]
    simp only [Std.LawfulEqCmp.compare_eq_iff_eq, true_and]
    split_ifs with hp
    · rw [hp]
    · rfl
  · rw [level?, modifyLevel, levels_modifyLevels_other _ hs, level?,
      if_neg fun h => hs h.1.symm]

theorem level?_alter (f : Option PriceLevel → Option PriceLevel)
    (pprice : UInt32) :
    (b.modifyLevels side' (fun levels => levels.alter pprice f)).level? side
        price =
      if side' = side ∧ pprice = price then f (b.level? side price)
      else b.level? side price := by
  by_cases hs : side = side'
  · subst hs
    rw [level?, levels_modifyLevels_self, Std.TreeMap.getElem?_alter, level?]
    simp only [Std.LawfulEqCmp.compare_eq_iff_eq, true_and]
    split_ifs with hp
    · rw [hp]
    · rfl
  · rw [level?, levels_modifyLevels_other _ hs, level?,
      if_neg fun h => hs h.1.symm]

theorem level?_erase (pprice : UInt32) :
    (b.modifyLevels side' (·.erase pprice)).level? side price =
      if side' = side ∧ pprice = price then none
      else b.level? side price := by
  by_cases hs : side = side'
  · subst hs
    rw [level?, levels_modifyLevels_self, Std.TreeMap.getElem?_erase, level?]
    simp only [Std.LawfulEqCmp.compare_eq_iff_eq, true_and]
  · rw [level?, levels_modifyLevels_other _ hs, level?,
      if_neg fun h => hs h.1.symm]

theorem order_modifyOrder (f : Order → Order) (hi : i < b.heap.length) :
    (b.modifyOrder i f).order j =
      if j = i then f (b.order i) else b.order j := by
  rw [order, order, order, modifyOrder, List.getD_eq_getElem?_getD,
    List.getElem?_modify]
  by_cases hj : j = i
  · subst hj
    simp [hi]
  · simp [hj, Ne.symm hj]

end Reads

section Operations

variable {b : LimitOrderBook} {ref : UInt64}

/-- What `add_order` makes of the book. -/
structure Added (b b' : LimitOrderBook) (object : Order) : Prop where
  orders : ∀ r, b'.orders[r]? =
    if r = object.orderReferenceNumber then some b.heap.length
    else b.orders[r]?
  order : ∀ i, b'.order i = if i = b.heap.length then object else b.order i
  level : ∀ side price, b'.level? side price =
    if sideOf object.buySellIndicator = side ∧ object.price = price then
      some (((b.level? side price).getD {}).addOrder b.heap.length
        object.shares)
    else b.level? side price
  length : b'.heap.length = b.heap.length + 1
  symbol : b'.stockSymbol = b.stockSymbol

theorem addOrder_added (b : LimitOrderBook) (ref : UInt64) (c : UInt8)
    (shares price : UInt32) (stock : Str) :
    Added b (b.addOrder ref c shares price stock)
      { orderReferenceNumber := ref
        buySellIndicator := c
        shares, price, level := ⟨sideOf c, price⟩, stock } where
  orders r := by
    rw [addOrder]
    simp only [orders_modifyLevels, Std.TreeMap.getElem?_insert,
      Std.LawfulEqCmp.compare_eq_iff_eq, @eq_comm _ ref]
  order i := by
    show (LimitOrderBook.modifyLevels _ _ _).order i = _
    rw [order_modifyLevels]
    show (b.heap ++ [_]).getD i {} = _
    rw [order, List.getD_eq_getElem?_getD, List.getD_eq_getElem?_getD]
    rcases Nat.lt_trichotomy i b.heap.length with hi | rfl | hi
    · rw [List.getElem?_append_left hi, if_neg (Nat.ne_of_lt hi)]
    · rw [List.getElem?_concat_length, if_pos rfl]
      rfl
    · rw [if_neg (Nat.ne_of_gt hi), List.getElem?_eq_none (by simpa using hi),
        List.getElem?_eq_none (Nat.le_of_lt hi)]
  level side price' := by
    show (LimitOrderBook.modifyLevels _ _ _).level? side price' = _
    rw [level?_alter]
    rfl
  length := by
    rw [addOrder]
    simp
  symbol := by
    rw [addOrder]
    simp

/-- What `remove_order` makes of the book when it takes `n` shares of the
order at `i`. -/
structure Removed (b b' : LimitOrderBook) (ref : UInt64) (i : ℕ) (n : UInt32) :
    Prop where
  orders : ∀ r, b'.orders[r]? =
    if (b.order i).shares - n = 0 ∧ r = ref then none else b.orders[r]?
  order : ∀ j, b'.order j =
    if j = i then { b.order i with shares := (b.order i).shares - n }
    else b.order j
  level : ∀ side price, b'.level? side price =
    if (b.order i).level = ⟨side, price⟩ then
      (b.level? side price).bind fun l =>
        if (b.order i).shares - n = 0 then
          if l.orders.erase i = [] then none
          else some ⟨l.totalShares - n, l.orders.erase i⟩
        else some ⟨l.totalShares - n, l.orders⟩
    else b.level? side price
  length : b'.heap.length = b.heap.length
  symbol : b'.stockSymbol = b.stockSymbol

/-- What is left when an order leaves the list of its level. -/
structure Unlisted (b b' : LimitOrderBook) (p : LevelPtr) (i : ℕ) : Prop where
  heap : b'.heap = b.heap
  orders : b'.orders = b.orders
  symbol : b'.stockSymbol = b.stockSymbol
  level : ∀ side price, b'.level? side price =
    if p = ⟨side, price⟩ then
      (b.level? side price).bind fun l =>
        if l.orders.erase i = [] then none
        else some ⟨l.totalShares, l.orders.erase i⟩
    else b.level? side price

theorem unlistOrder_spec {p : LevelPtr} {i : ℕ}
    (hside : p.side = sideOf (b.order i).buySellIndicator)
    (hprice : p.price = (b.order i).price) :
    Unlisted b (b.unlistOrder p i) p i := by
  obtain ⟨b₃, hb₃⟩ : ∃ b₃, b₃ = b.modifyLevel p (·.removeOrder i) := ⟨_, rfl⟩
  have hheap : b₃.heap = b.heap := by
    rw [hb₃]
    exact heap_modifyLevels _
  have horders : b₃.orders = b.orders := by
    rw [hb₃]
    exact orders_modifyLevels _
  have hsymbol : b₃.stockSymbol = b.stockSymbol := by
    rw [hb₃]
    exact stockSymbol_modifyLevels _
  have hlevel : ∀ side price, b₃.level? side price =
      if p = ⟨side, price⟩ then
        (b.level? side price).map (·.removeOrder i)
      else b.level? side price := by
    intro side price
    rw [hb₃, level?_modifyLevel]
  have hown : b₃.level p =
      ((b.level? p.side p.price).map (·.removeOrder i)).getD {} := by
    show (b₃.level? p.side p.price).getD {} = _
    rw [hlevel, if_pos rfl]
  rw [unlistOrder, ← hb₃, ← hside, ← hprice]
  split_ifs with hempty
  · refine ⟨(heap_modifyLevels _).trans hheap,
      (orders_modifyLevels _).trans horders,
      (stockSymbol_modifyLevels _).trans hsymbol, fun side price => ?_⟩
    rw [level?_erase, hlevel]
    by_cases hq : p = ⟨side, price⟩
    · rw [if_pos ⟨congrArg LevelPtr.side hq, congrArg LevelPtr.price hq⟩,
        if_pos hq]
      rw [hown, hq] at hempty
      cases hl : b.level? side price with
      | none => rfl
      | some l =>
          rw [hl] at hempty
          have hempty : l.orders.erase i = [] := hempty
          rw [Option.bind_some, if_pos hempty]
    · rw [if_neg fun h => hq (congrArg₂ LevelPtr.mk h.1 h.2), if_neg hq,
        if_neg hq]
  · refine ⟨hheap, horders, hsymbol, fun side price => ?_⟩
    rw [hlevel]
    by_cases hq : p = ⟨side, price⟩
    · rw [if_pos hq, if_pos hq]
      rw [hown, hq] at hempty
      cases hl : b.level? side price with
      | none => rfl
      | some l =>
          rw [hl] at hempty
          have hempty : ¬ l.orders.erase i = [] := hempty
          rw [Option.bind_some, if_neg hempty]
          rfl
    · rw [if_neg hq, if_neg hq]

/-- What taking `n` shares off the order at `i` and off its level makes of the
book. -/
structure Reduced (b b' : LimitOrderBook) (p : LevelPtr) (i : ℕ) (n : UInt32) :
    Prop where
  orders : b'.orders = b.orders
  order : ∀ j, b'.order j =
    if j = i then { b.order i with shares := (b.order i).shares - n }
    else b.order j
  level : ∀ side price, b'.level? side price =
    if p = ⟨side, price⟩ then
      (b.level? side price).map
        (fun l => { l with totalShares := l.totalShares - n })
    else b.level? side price
  length : b'.heap.length = b.heap.length
  symbol : b'.stockSymbol = b.stockSymbol

def reduce (b : LimitOrderBook) (p : LevelPtr) (i : ℕ) (n : UInt32) :
    LimitOrderBook :=
  (b.modifyLevel p
    (fun l => { l with totalShares := l.totalShares - n })).modifyOrder i
    (fun o => { o with shares := o.shares - n })

theorem reduce_reduced {i : ℕ} (hi : i < b.heap.length) (p : LevelPtr)
    (n : UInt32) : Reduced b (b.reduce p i n) p i n where
  orders := orders_modifyLevels _
  order := by
    intro j
    have hi' : i < (b.modifyLevel p (fun l =>
        { l with totalShares := l.totalShares - n })).heap.length := by
      rwa [modifyLevel, heap_modifyLevels]
    rw [reduce, order_modifyOrder _ hi', modifyLevel, order_modifyLevels,
      order_modifyLevels]
  level := by
    intro side price
    rw [← level?_modifyLevel, reduce]
    cases side <;> rfl
  length := by
    show (List.modify _ _ _).length = _
    rw [List.length_modify, modifyLevel, heap_modifyLevels]
  symbol := stockSymbol_modifyLevels _

/-- `remove_order` on a known reference: the shares are taken off first. -/
theorem removeOrder_eq {i : ℕ} (href : b.orders[ref]? = some i) {n : UInt32}
    {p : LevelPtr} {b' : LimitOrderBook} (hp : (b.order i).level = p)
    (hb' : b.reduce p i n = b') : b.removeOrder ref n =
      if (b'.order i).shares = 0 then
        { b'.unlistOrder p i with
          orders := (b'.unlistOrder p i).orders.erase ref }
      else b' := by
  subst hp hb'
  rw [removeOrder, href]
  rfl

/-- The level pointer leads to the level the other fields name. -/
theorem removeOrder_removed {i : ℕ} (hi : i < b.heap.length)
    (href : b.orders[ref]? = some i)
    (hptr : (b.order i).level =
      ⟨sideOf (b.order i).buySellIndicator, (b.order i).price⟩)
    (n : UInt32) : Removed b (b.removeOrder ref n) ref i n := by
  have hred := reduce_reduced hi (b.order i).level n
  generalize hb' : b.reduce (b.order i).level i n = b' at hred
  have hself := hred.order i
  rw [if_pos rfl] at hself
  rw [removeOrder_eq href rfl hb', congrArg Order.shares hself]
  by_cases hzero : (b.order i).shares - n = 0
  · have hplace : (b.order i).level =
        ⟨sideOf (b'.order i).buySellIndicator, (b'.order i).price⟩ := by
      rw [hself]
      exact hptr
    have hun := unlistOrder_spec (congrArg LevelPtr.side hplace)
      (congrArg LevelPtr.price hplace)
    rw [if_pos hzero]
    refine ⟨?_, ?_, ?_, ?_, hun.symbol.trans hred.symbol⟩
    · intro r
      show ((b'.unlistOrder _ i).orders.erase ref)[r]? = _
      rw [Std.TreeMap.getElem?_erase, hun.orders, hred.orders]
      simp only [Std.LawfulEqCmp.compare_eq_iff_eq, @eq_comm _ ref, hzero,
        true_and]
    · intro j
      show (b'.unlistOrder _ i).heap.getD j {} = _
      rw [hun.heap]
      exact hred.order j
    · intro side price
      show (b'.unlistOrder _ i).level? side price = _
      rw [hun.level, hred.level]
      split_ifs
      · rw [Option.bind_map]
        rfl
      · rfl
    · exact (congrArg List.length hun.heap).trans hred.length
  · rw [if_neg hzero]
    refine ⟨?_, hred.order, ?_, hred.length, hred.symbol⟩
    · intro r
      rw [if_neg fun h => hzero h.1, hred.orders]
    · intro side price
      rw [hred.level]
      split_ifs
      · cases b.level? side price <;> rfl
      · rfl

end Operations

/-! ## §2  The invariant -/

/-- Where the object of an order is. -/
def handle (b : LimitOrderBook) (o : RestingOrder) : ℕ :=
  (b.orders[o.referenceNumber]?).getD 0

/-- The object holds the fields of the order. -/
structure Stores (symbol : Str) (x : Order) (o : RestingOrder) : Prop where
  referenceNumber : x.orderReferenceNumber = o.referenceNumber
  side : sideOf x.buySellIndicator = o.side
  shares : x.shares = o.shares
  price : x.price = o.price
  level : x.level = ⟨o.side, o.price⟩
  stock : x.stock = symbol

/-- A level keeps a FIFO, and there is one if and only if that is not
empty. -/
inductive LevelOk (b : LimitOrderBook) : Option PriceLevel → OrderList → Prop
    where
  | none : LevelOk b none []
  | some {l : PriceLevel} {q : OrderList} (hne : q ≠ [])
      (total : l.totalShares.toNat = q.totalShares)
      (orders : l.orders = q.map b.handle) : LevelOk b (some l) q

/-- The book represents the order list. -/
structure Rep (b : LimitOrderBook) (os : OrderList) : Prop where
  refs : os.RefsNodup
  mapped : ∀ ref, b.orders[ref]? = none ↔ os.find? ref = none
  bound : ∀ o ∈ os, b.handle o < b.heap.length
  nodes : ∀ o ∈ os, Stores b.stockSymbol (b.order (b.handle o)) o
  levels : ∀ side price,
    LevelOk b (b.level? side price) (os.queue side price)

section Rep

variable {b b' : LimitOrderBook} {os : OrderList} {o o' : RestingOrder}

theorem rep_empty (symbol : Str) : Rep { stockSymbol := symbol } [] where
  refs := List.nodup_nil
  mapped ref := iff_of_true Std.TreeMap.getElem?_emptyc rfl
  bound o ho := absurd ho List.not_mem_nil
  nodes o ho := absurd ho List.not_mem_nil
  levels side price := by
    have hnone : level? { stockSymbol := symbol } side price = none := by
      cases side <;> exact Std.TreeMap.getElem?_emptyc
    rw [hnone]
    exact .none

theorem Rep.lookup (h : Rep b os) (ho : o ∈ os) :
    b.orders[o.referenceNumber]? = some (b.handle o) := by
  cases hl : b.orders[o.referenceNumber]? with
  | none =>
      have := (h.mapped _).mp hl
      rw [h.refs.find? ho] at this
      cases this
  | some i => rw [handle, hl, Option.getD_some]

theorem Rep.handle_inj (h : Rep b os) (ho : o ∈ os) (ho' : o' ∈ os)
    (he : b.handle o = b.handle o') : o = o' := by
  apply h.refs.inj ho ho'
  rw [← (h.nodes o ho).referenceNumber, he, (h.nodes o' ho').referenceNumber]

/-- What a reference that is mapped stands for. -/
theorem Rep.find?_of_lookup (h : Rep b os) {ref : UInt64} {i : ℕ}
    (hi : b.orders[ref]? = some i) :
    ∃ o ∈ os, os.find? ref = some o ∧ o.referenceNumber = ref ∧
      b.handle o = i := by
  cases hf : os.find? ref with
  | none =>
      rw [(h.mapped ref).mpr hf] at hi
      cases hi
  | some o =>
      obtain ⟨ho, rfl⟩ := OrderList.find?_some hf
      refine ⟨o, ho, rfl, rfl, ?_⟩
      rw [handle, hi, Option.getD_some]

theorem LevelOk.congr {l : Option PriceLevel} {q : OrderList}
    (h : LevelOk b l q) (hh : ∀ x ∈ q, b'.handle x = b.handle x) :
    LevelOk b' l q := by
  cases h with
  | none => exact .none
  | some hne total orders =>
      refine .some hne total (orders.trans ?_)
      exact (List.map_congr_left hh).symm

/-! ## §3  Adding an order -/

/-- The order comes last. A level counts in 32 bits, which `hroom` keeps from
overflowing. -/
theorem LevelOk.addOrder {l : Option PriceLevel} {q : OrderList} {i : ℕ}
    (h : LevelOk b l q) (hself : b'.handle o = i)
    (hold : ∀ x ∈ q, b'.handle x = b.handle x)
    (hroom : q.totalShares + o.shares.toNat < 2 ^ 32) :
    LevelOk b' (Option.some ((l.getD {}).addOrder i o.shares)) (q ++ [o]) := by
  have hone : OrderList.totalShares [o] = o.shares.toNat := by
    simp [OrderList.totalShares]
  have hmap : (q ++ [o]).map b'.handle = q.map b.handle ++ [i] := by
    rw [List.map_append, List.map_singleton, hself, List.map_congr_left hold]
  refine .some (List.append_ne_nil_of_right_ne_nil _ (by simp)) ?_ ?_
  · rw [OrderList.totalShares_append, hone, PriceLevel.addOrder,
      UInt32.toNat_add]
    cases h with
    | none => simp [OrderList.totalShares]
    | some _ total _ =>
        rw [← total] at hroom ⊢
        exact Nat.mod_eq_of_lt hroom
  · rw [hmap, PriceLevel.addOrder]
    cases h with
    | none => rfl
    | some _ _ orders =>
        rw [← orders]
        rfl

theorem Added.rep {object : Order} (hA : Added b b' object) (h : Rep b os)
    (hobject : Stores b.stockSymbol object o)
    (hfresh : os.find? o.referenceNumber = none)
    (hroom : (os.queue o.side o.price).totalShares + o.shares.toNat < 2 ^ 32) :
    Rep b' (os ++ [o]) := by
  have hne := OrderList.find?_none.mp hfresh
  have hself : b'.handle o = b.heap.length := by
    rw [handle, hA.orders, if_pos hobject.referenceNumber.symm]
    rfl
  have hold : ∀ x ∈ os, b'.handle x = b.handle x := by
    intro x hx
    rw [handle, hA.orders, if_neg, handle]
    rw [hobject.referenceNumber]
    exact hne x hx
  refine ⟨h.refs.append hne, fun ref => ?_, fun x hx => ?_, fun x hx => ?_,
    fun side price => ?_⟩
  · rw [hA.orders, OrderList.find?_append_singleton,
      hobject.referenceNumber]
    by_cases hr : ref = o.referenceNumber
    · rw [if_pos hr, if_pos hr.symm]
      simp
    · rw [if_neg hr, if_neg (Ne.symm hr), Option.or_none, h.mapped]
  · rw [hA.length]
    rcases List.mem_append.mp hx with hx | hx
    · rw [hold x hx]
      exact Nat.lt_succ_of_lt (h.bound x hx)
    · rw [List.mem_singleton.mp hx, hself]
      exact Nat.lt_succ_self _
  · rw [hA.symbol, hA.order]
    rcases List.mem_append.mp hx with hx | hx
    · rw [hold x hx, if_neg (Nat.ne_of_lt (h.bound x hx))]
      exact h.nodes x hx
    · rw [List.mem_singleton.mp hx, hself, if_pos rfl]
      exact hobject
  · rw [hA.level, hobject.side, hobject.price, hobject.shares]
    have hlv := h.levels side price
    by_cases hp : o.side = side ∧ o.price = price
    · obtain ⟨rfl, rfl⟩ := hp
      have hq : OrderList.queue (os ++ [o]) o.side o.price =
          os.queue o.side o.price ++ [o] := by
        rw [OrderList.queue_append, OrderList.queue_singleton_self]
      rw [if_pos ⟨rfl, rfl⟩, hq]
      exact hlv.addOrder hself
        (fun x hx => hold x (OrderList.mem_queue.mp hx).1) hroom
    · rw [if_neg hp, OrderList.queue_append,
        OrderList.queue_singleton_other hp, List.append_nil]
      exact hlv.congr fun x hx => hold x (OrderList.mem_queue.mp hx).1

/-! ## §4  Removing shares -/

theorem map_handle_setShares (b : LimitOrderBook) (os : OrderList)
    (ref : UInt64) (n : UInt32) :
    (os.setShares ref n).map b.handle = os.map b.handle := by
  have hhandle : b.handle = (fun r => (b.orders[r]?).getD 0) ∘
      RestingOrder.referenceNumber := rfl
  rw [hhandle, ← List.map_map, ← List.map_map, OrderList.refs_setShares]

/-- The handles of a queue that an order has left. -/
theorem Rep.erase_handle (h : Rep b os) {q : OrderList} (hn : q.RefsNodup)
    (hsub : ∀ x ∈ q, x ∈ os) (ho : o ∈ q) :
    (q.map b.handle).erase (b.handle o) =
      (q.delete o.referenceNumber).map b.handle := by
  obtain ⟨l, r, hsplit, hdel⟩ := hn.split ho
  have hnot : b.handle o ∉ l.map b.handle := by
    intro hm
    obtain ⟨x, hx, he⟩ := List.mem_map.mp hm
    have hxq : x ∈ q := hsplit ▸ List.mem_append_left _ hx
    obtain rfl := h.handle_inj (hsub x hxq) (hsub o ho) he
    rw [hsplit] at hn
    exact (List.nodup_append.mp hn.nodup).2.2 x hx x List.mem_cons_self rfl
  rw [hdel, hsplit, List.map_append, List.map_cons,
    List.erase_append_right _ hnot, List.erase_cons_head, List.map_append]

/-- An order leaves its level, and the level the book when it was the last. -/
theorem LevelOk.delete {l : Option PriceLevel} {q : OrderList}
    (h : LevelOk b l q) (hn : q.RefsNodup) (ho : o ∈ q)
    (herase : (q.map b.handle).erase (b.handle o) =
      (q.delete o.referenceNumber).map b.handle)
    (hkeep : ∀ x ∈ q.delete o.referenceNumber, b'.handle x = b.handle x) :
    LevelOk b' (l.bind fun l =>
        if l.orders.erase (b.handle o) = [] then Option.none
        else Option.some
          ⟨l.totalShares - o.shares, l.orders.erase (b.handle o)⟩)
      (q.delete o.referenceNumber) := by
  have hle := OrderList.shares_le_totalShares ho
  have hsum := hn.totalShares_delete ho
  cases h with
  | none => exact absurd ho List.not_mem_nil
  | @some l _ _ total orders =>
      rw [Option.bind_some, orders, herase]
      by_cases hnil : q.delete o.referenceNumber = []
      · rw [hnil, List.map_nil, if_pos rfl]
        exact .none
      · rw [if_neg (by rwa [List.map_eq_nil_iff])]
        refine LevelOk.congr (.some hnil ?_ rfl) hkeep
        rw [← total] at hle hsum
        rw [UInt32.toNat_sub_of_le _ _ (UInt32.le_iff_toNat_le.mpr hle)]
        omega

/-- An order of the level loses shares. -/
theorem LevelOk.setShares {l : Option PriceLevel} {q : OrderList} {n : UInt32}
    (h : LevelOk b l q) (hnodup : q.RefsNodup) (ho : o ∈ q)
    (hn : n ≤ o.shares) (hold : b'.handle = b.handle) :
    LevelOk b' (l.bind fun l => Option.some ⟨l.totalShares - n, l.orders⟩)
      (q.setShares o.referenceNumber (o.shares - n)) := by
  have hge := OrderList.shares_le_totalShares ho
  have hsum := hnodup.totalShares_setShares ho (o.shares - n)
  rw [UInt32.toNat_sub_of_le _ _ hn] at hsum
  rw [UInt32.le_iff_toNat_le] at hn
  cases h with
  | none => exact absurd ho List.not_mem_nil
  | @some l _ hne total orders =>
      rw [← total] at hge hsum
      refine .some ?_ ?_ ?_
      · rwa [OrderList.setShares, Ne, List.map_eq_nil_iff]
      · rw [UInt32.toNat_sub_of_le _ _
          (UInt32.le_iff_toNat_le.mpr (hn.trans hge))]
        omega
      · rw [hold, map_handle_setShares]
        exact orders

theorem Removed.rep_delete {n : UInt32}
    (hR : Removed b b' o.referenceNumber (b.handle o) n) (h : Rep b os)
    (ho : o ∈ os) (hn : n = o.shares) :
    Rep b' (os.delete o.referenceNumber) := by
  have hst := h.nodes o ho
  have hzero : (b.order (b.handle o)).shares - n = 0 := by
    rw [hst.shares, hn, UInt32.sub_self]
  have hold : ∀ x ∈ os.delete o.referenceNumber, b'.handle x = b.handle x := by
    intro x hx
    rw [handle, hR.orders, if_neg fun he => (OrderList.mem_delete.mp hx).2 he.2,
      handle]
  refine ⟨h.refs.delete _, fun ref => ?_, fun x hx => ?_, fun x hx => ?_,
    fun side price => ?_⟩
  · rw [hR.orders, OrderList.find?_delete]
    simp only [hzero, true_and]
    split_ifs
    · exact iff_of_true rfl rfl
    · exact h.mapped ref
  · rw [hold x hx, hR.length]
    exact h.bound x (OrderList.mem_delete.mp hx).1
  · obtain ⟨hmem, hne⟩ := OrderList.mem_delete.mp hx
    have hhandle : b.handle x ≠ b.handle o := by
      intro he
      exact hne (by rw [h.handle_inj hmem ho he])
    rw [hold x hx, hR.order, if_neg hhandle, hR.symbol]
    exact h.nodes x hmem
  · rw [hR.level, hst.level, OrderList.queue_delete]
    have hlv := h.levels side price
    by_cases hp : o.side = side ∧ o.price = price
    · obtain ⟨rfl, rfl⟩ := hp
      have hoq : o ∈ os.queue o.side o.price :=
        OrderList.mem_queue.mpr ⟨ho, rfl, rfl⟩
      have hnq := h.refs.queue o.side o.price
      have herase := h.erase_handle hnq
        (fun x hx => (OrderList.mem_queue.mp hx).1) hoq
      rw [if_pos rfl]
      simp only [hzero, if_true]
      rw [hn]
      refine hlv.delete hnq hoq herase fun x hx => ?_
      obtain ⟨hxq, hne⟩ := OrderList.mem_delete.mp hx
      exact hold x (OrderList.mem_delete.mpr
        ⟨(OrderList.mem_queue.mp hxq).1, hne⟩)
    · rw [if_neg fun he => hp ⟨congrArg LevelPtr.side he,
          congrArg LevelPtr.price he⟩,
        OrderList.delete_of_not_mem (h.refs.queue_other ho hp)]
      refine hlv.congr fun x hx => hold x (OrderList.mem_delete.mpr ⟨?_, ?_⟩)
      · exact (OrderList.mem_queue.mp hx).1
      · exact h.refs.queue_other ho hp x hx

theorem Removed.rep_setShares {n : UInt32}
    (hR : Removed b b' o.referenceNumber (b.handle o) n) (h : Rep b os)
    (ho : o ∈ os) (hn : n < o.shares) :
    Rep b' (os.setShares o.referenceNumber (o.shares - n)) := by
  have hst := h.nodes o ho
  have hle : n ≤ o.shares := UInt32.le_of_lt hn
  have hnz : ¬ (b.order (b.handle o)).shares - n = 0 := by
    rw [hst.shares, ← UInt32.toNat_inj, UInt32.toNat_sub_of_le _ _ hle]
    rw [UInt32.lt_iff_toNat_lt] at hn
    show ¬ _ = 0
    omega
  have hold : b'.handle = b.handle := by
    funext x
    rw [handle, hR.orders, if_neg fun he => hnz he.1, handle]
  refine ⟨h.refs.setShares _ _, fun ref => ?_, fun x hx => ?_, fun x hx => ?_,
    fun side price => ?_⟩
  · rw [hR.orders, if_neg fun he => hnz he.1, OrderList.find?_setShares_none]
    exact h.mapped ref
  · obtain ⟨y, hy, rfl⟩ := OrderList.mem_setShares.mp hx
    rw [hold, hR.length]
    have hb := h.bound y hy
    rw [handle] at hb ⊢
    split <;> exact hb
  · obtain ⟨y, hy, rfl⟩ := OrderList.mem_setShares.mp hx
    have hy' := h.nodes y hy
    rw [hold, hR.symbol, hR.order]
    by_cases hyo : y.referenceNumber = o.referenceNumber
    · obtain rfl := h.refs.inj hy ho hyo
      rw [if_pos rfl]
      show Stores _ (if b.handle y = b.handle y then _ else _) _
      rw [if_pos rfl]
      exact ⟨hy'.referenceNumber, hy'.side,
        congrArg (· - n) hy'.shares, hy'.price, hy'.level, hy'.stock⟩
    · rw [if_neg hyo, if_neg fun he => hyo (by rw [h.handle_inj hy ho he])]
      exact hy'
  · rw [hR.level, hst.level, OrderList.queue_setShares]
    have hlv := h.levels side price
    by_cases hp : o.side = side ∧ o.price = price
    · obtain ⟨rfl, rfl⟩ := hp
      rw [if_pos rfl]
      simp only [hnz, if_false]
      exact hlv.setShares (h.refs.queue o.side o.price)
        (OrderList.mem_queue.mpr ⟨ho, rfl, rfl⟩) hle hold
    · rw [if_neg fun he => hp ⟨congrArg LevelPtr.side he,
          congrArg LevelPtr.price he⟩,
        OrderList.setShares_of_not_mem (h.refs.queue_other ho hp)]
      exact hlv.congr fun x _ => congrFun hold x

/-- The book after one, as far as its orders go: none is lost, and none gains
shares. -/
structure Follows (b b' : LimitOrderBook) : Prop where
  symbol : b'.stockSymbol = b.stockSymbol
  length : b.heap.length ≤ b'.heap.length
  shares : ∀ i < b.heap.length, (b'.order i).shares ≤ (b.order i).shares

theorem Follows.refl (b : LimitOrderBook) : Follows b b :=
  ⟨rfl, le_rfl, fun _ _ => UInt32.le_refl _⟩

theorem Follows.trans {b'' : LimitOrderBook} (h : Follows b b')
    (h' : Follows b' b'') : Follows b b'' where
  symbol := h'.symbol.trans h.symbol
  length := h.length.trans h'.length
  shares i hi := UInt32.le_trans (h'.shares i (hi.trans_le h.length))
    (h.shares i hi)

theorem Added.follows {object : Order} (hA : Added b b' object) :
    Follows b b' where
  symbol := hA.symbol
  length := hA.length ▸ Nat.le_succ _
  shares i hi := by
    rw [hA.order, if_neg (Nat.ne_of_lt hi)]
    exact UInt32.le_refl _

theorem Removed.follows {ref : UInt64} {i : ℕ} {n : UInt32}
    (hR : Removed b b' ref i n) (hn : n ≤ (b.order i).shares) :
    Follows b b' where
  symbol := hR.symbol
  length := hR.length.ge
  shares j hj := by
    rw [hR.order]
    split_ifs with hji
    · rw [hji, UInt32.le_iff_toNat_le]
      show ((b.order i).shares - n).toNat ≤ _
      rw [UInt32.toNat_sub_of_le _ _ hn]
      exact Nat.sub_le _ _
    · exact UInt32.le_refl _

theorem Rep.removed (h : Rep b os) (ho : o ∈ os) (n : UInt32) :
    Removed b (b.removeOrder o.referenceNumber n) o.referenceNumber
      (b.handle o) n := by
  have hst := h.nodes o ho
  refine removeOrder_removed (h.bound o ho) (h.lookup ho) ?_ n
  rw [hst.level, hst.side, hst.price]

/-- Taking no more than there is does what the list does. -/
theorem Rep.removeOrder (h : Rep b os) (ho : o ∈ os) {n : UInt32}
    (hn : n ≤ o.shares) :
    Rep (b.removeOrder o.referenceNumber n)
        (os.execute o.referenceNumber n).1 ∧
      Follows b (b.removeOrder o.referenceNumber n) := by
  have hR := h.removed ho n
  have hmin : min n o.shares = n := by rw [Std.min_eq_if, if_pos hn]
  refine ⟨?_, hR.follows (by rwa [(h.nodes o ho).shares])⟩
  rw [OrderList.execute, h.refs.find? ho]
  simp only [hmin]
  split_ifs with he
  · exact hR.rep_delete h ho he
  · refine hR.rep_setShares h ho ?_
    rw [UInt32.lt_iff_toNat_lt]
    rw [UInt32.le_iff_toNat_le] at hn
    rw [← UInt32.toNat_inj] at he
    omega

/-- Taking all there is. -/
theorem Rep.removeOrder_all (h : Rep b os) (ho : o ∈ os) :
    Rep (b.removeOrder o.referenceNumber (b.order (b.handle o)).shares)
        (os.delete o.referenceNumber) ∧
      Follows b
        (b.removeOrder o.referenceNumber (b.order (b.handle o)).shares) := by
  have hR := h.removed ho (b.order (b.handle o)).shares
  exact ⟨hR.rep_delete h ho (h.nodes o ho).shares,
    hR.follows (UInt32.le_refl _)⟩

theorem Rep.addOrder (h : Rep b os) {ref : UInt64} {c : UInt8}
    {shares price : UInt32} {stock : Str} (hstock : stock = b.stockSymbol)
    (hfresh : os.find? ref = none)
    (hroom : (os.queue (sideOf c) price).totalShares + shares.toNat <
      2 ^ 32) :
    Rep (b.addOrder ref c shares price stock)
        (os ++ [⟨ref, sideOf c, shares, price⟩]) ∧
      Follows b (b.addOrder ref c shares price stock) := by
  have hA := addOrder_added b ref c shares price stock
  exact ⟨hA.rep h ⟨rfl, rfl, rfl, rfl, rfl, hstock⟩ hfresh hroom, hA.follows⟩

end Rep

end LimitOrderBook

/-! ## §5  Messages -/

/-- The orders of a stock after a message. -/
def Message.onOrders (stock : Str) (os : OrderList) (msg : Message) :
    OrderList :=
  match msg.bookOp with
  | none => os
  | some op =>
      match msg.addSymbol with
      | none => (op.onList os).1
      | some symbol => if symbol = stock then (op.onList os).1 else os

/-- The call stays within what the orders allow: a reference that comes in is
fresh, no more shares go than an order has, and the total of a level stays
below `2 ^ 32`. -/
def Book.BookOp.Within (os : OrderList) : BookOp → Prop
  | .addOrder ref side shares price =>
      os.find? ref = none ∧
        (os.queue side price).totalShares + shares.toNat < 2 ^ 32
  | .executeOrder ref n => ∀ o ∈ os.find? ref, n ≤ o.shares
  | .reduceOrder ref n => ∀ o ∈ os.find? ref, n ≤ o.shares
  | .deleteOrder _ => True
  | .replaceOrder oldRef newRef shares price => ∀ o ∈ os.find? oldRef,
      (newRef = oldRef ∨ os.find? newRef = none) ∧
      ((os.delete oldRef).queue o.side price).totalShares + shares.toNat <
        2 ^ 32

/-- The message is not an add message of another stock. -/
def Message.Concerns (stock : Str) (msg : Message) : Prop :=
  ∀ symbol ∈ msg.addSymbol, symbol = stock

instance (stock : Str) (msg : Message) : Decidable (msg.Concerns stock) :=
  inferInstanceAs (Decidable (∀ symbol ∈ msg.addSymbol, symbol = stock))

def Message.Within (stock : Str) (os : OrderList) (msg : Message) : Prop :=
  msg.Concerns stock → ∀ op ∈ msg.bookOp, op.Within os

namespace LimitOrderBook

section Messages

variable {b : LimitOrderBook} {os : OrderList} {ref : UInt64}

/-- What the handlers find under a reference: nothing where the list has
nothing, else the object of the order, and its stock is that of the book. -/
theorem Rep.lookup_cases (h : Rep b os) (ref : UInt64) :
    (b.orders[ref]? = none ∧ os.find? ref = none) ∨
    ∃ o ∈ os, os.find? ref = some o ∧ o.referenceNumber = ref ∧
      b.orders[ref]? = some (b.handle o) ∧
      (b.order (b.handle o)).stock = b.stockSymbol := by
  cases hi : b.orders[ref]? with
  | none => exact Or.inl ⟨rfl, (h.mapped ref).mp hi⟩
  | some i =>
      obtain ⟨o, ho, hf, hr, rfl⟩ := h.find?_of_lookup hi
      exact Or.inr ⟨o, ho, hf, hr, rfl, (h.nodes o ho).stock⟩

theorem Rep.handleAdd (h : Rep b os) {c : UInt8} {shares price : UInt32}
    {stock : Chars 8} (hin : toString stock = b.stockSymbol →
      os.find? ref = none ∧
        (os.queue (sideOf c) price).totalShares + shares.toNat < 2 ^ 32) :
    Rep (b.handleAdd ref c shares stock price)
        (if toString stock = b.stockSymbol then
          os.add ⟨ref, sideOf c, shares, price⟩ else os) ∧
      Follows b (b.handleAdd ref c shares stock price) := by
  rw [LimitOrderBook.handleAdd]
  by_cases hs : toString stock = b.stockSymbol
  · obtain ⟨hfresh, hroom⟩ := hin hs
    rw [if_neg (not_not.mpr hs), if_pos hs, OrderList.add, hfresh]
    exact h.addOrder hs hfresh hroom
  · rw [if_pos hs, if_neg hs]
    exact ⟨h, .refl b⟩

theorem Rep.handleRemove (h : Rep b os) {n : UInt32}
    (hin : ∀ o ∈ os.find? ref, n ≤ o.shares) :
    Rep (b.handleRemove ref n) (os.execute ref n).1 ∧
      Follows b (b.handleRemove ref n) := by
  rw [LimitOrderBook.handleRemove]
  rcases h.lookup_cases ref with ⟨hi, hf⟩ | ⟨o, ho, hf, rfl, hi, hstock⟩
  · rw [hi, OrderList.execute, hf]
    exact ⟨h, .refl b⟩
  · rw [hi]
    simp only [hstock, ne_eq, not_true_eq_false, if_false]
    exact h.removeOrder ho (hin o hf)

theorem Rep.handleDelete (h : Rep b os) (del : OrderDeleteMessage) :
    Rep (b.handleMessage (.orderDelete del))
        (os.delete del.orderReferenceNumber) ∧
      Follows b (b.handleMessage (.orderDelete del)) := by
  rw [handleMessage]
  rcases h.lookup_cases del.orderReferenceNumber with
    ⟨hi, hf⟩ | ⟨o, ho, hf, hr, hi, hstock⟩
  · rw [hi, OrderList.delete_of_not_mem (OrderList.find?_none.mp hf)]
    exact ⟨h, .refl b⟩
  · rw [hi]
    simp only [hstock, if_true, ← hr]
    exact h.removeOrder_all ho

theorem Rep.handleReplace (h : Rep b os) (rep : OrderReplaceMessage)
    (hin : ∀ o ∈ os.find? rep.originalOrderReferenceNumber,
      (rep.newOrderReferenceNumber = rep.originalOrderReferenceNumber ∨
        os.find? rep.newOrderReferenceNumber = none) ∧
      ((os.delete rep.originalOrderReferenceNumber).queue o.side
        rep.price).totalShares + rep.shares.toNat < 2 ^ 32) :
    Rep (b.handleMessage (.orderReplace rep))
        (os.replace rep.originalOrderReferenceNumber
          rep.newOrderReferenceNumber rep.shares rep.price) ∧
      Follows b (b.handleMessage (.orderReplace rep)) := by
  rw [handleMessage, OrderList.replace]
  rcases h.lookup_cases rep.originalOrderReferenceNumber with
    ⟨hi, hf⟩ | ⟨o, ho, hf, hr, hi, hstock⟩
  · rw [hi, hf]
    exact ⟨h, .refl b⟩
  · obtain ⟨hnew, hroom⟩ := hin o hf
    rw [hi, hf]
    simp only [hstock, if_true]
    rw [← hr] at hnew hroom ⊢
    obtain ⟨hrep, hfollows⟩ := h.removeOrder_all ho
    have hfresh : (os.delete o.referenceNumber).find?
        rep.newOrderReferenceNumber = none := by
      rw [OrderList.find?_delete]
      rcases hnew with he | hnone
      · rw [if_pos he]
      · rw [hnone, ite_self]
    have hside := (h.nodes o ho).side
    rw [← hside] at hroom ⊢
    obtain ⟨hrep', hfollows'⟩ :=
      hrep.addOrder hfollows.symbol.symm hfresh hroom
    rw [OrderList.add, hfresh]
    exact ⟨hrep', hfollows.trans hfollows'⟩

/-- **One message.** Within the bounds the book does what the list does. -/
theorem Rep.handleMessage (h : Rep b os) {msg : Message}
    (hin : msg.Within b.stockSymbol os) :
    Rep (b.handleMessage msg) (msg.onOrders b.stockSymbol os) ∧
      Follows b (b.handleMessage msg) := by
  have hnone : msg.addSymbol = none → msg.Concerns b.stockSymbol := by
    intro hs symbol hmem
    rw [hs] at hmem
    cases hmem
  cases msg
  case addOrder add =>
    refine h.handleAdd fun hs => hin ?_ _ rfl
    exact fun symbol hmem => (Option.some.inj hmem).symm.trans hs
  case addOrderMPIDAttribution add =>
    refine h.handleAdd fun hs => hin ?_ _ rfl
    exact fun symbol hmem => (Option.some.inj hmem).symm.trans hs
  case orderExecuted exec => exact h.handleRemove (hin (hnone rfl) _ rfl)
  case orderExecutedWithPrice exec =>
    exact h.handleRemove (hin (hnone rfl) _ rfl)
  case orderCancel cancel => exact h.handleRemove (hin (hnone rfl) _ rfl)
  case orderDelete del => exact h.handleDelete del
  case orderReplace rep => exact h.handleReplace rep (hin (hnone rfl) _ rfl)
  all_goals exact ⟨h, .refl b⟩

theorem Rep.process (h : Rep b os) {msg : Message}
    (hin : msg.header.messageType ∈ bookMessages →
      msg.Within b.stockSymbol os) :
    Rep (b.process msg) (if msg.header.messageType ∈ bookMessages then
        msg.onOrders b.stockSymbol os else os) ∧
      Follows b (b.process msg) := by
  rw [LimitOrderBook.process]
  by_cases htype : msg.header.messageType ∈ bookMessages
  · rw [if_neg (not_not.mpr htype), if_pos htype]
    exact h.handleMessage (hin htype)
  · rw [if_pos htype, if_neg htype]
    exact ⟨h, .refl b⟩

end Messages

/-! ## §6  Consistency -/

open Transducer

/-- One message, and the shares that the orders it adds are added with. Every
order is a new object on the heap, at the position of its shares here. -/
def step (b : LimitOrderBook) (msg : Message) :
    LimitOrderBook × List UInt32 :=
  (b.process msg, ((b.process msg).heap.drop b.heap.length).map (·.shares))

/-- The book is consistent; `added` are the shares its orders were added
with. -/
structure Consistent (b : LimitOrderBook) (added : List UInt32) : Prop where
  levels_ne_nil : ∀ side price l, b.level? side price = some l →
    l.orders ≠ []
  totalShares_eq : ∀ side price l, b.level? side price = some l →
    l.totalShares.toNat = (l.orders.map (fun i => (b.order i).shares.toNat)).sum
  orders_nodup : ∀ side price l, b.level? side price = some l →
    l.orders.Nodup
  mapped_of_listed : ∀ side price l, b.level? side price = some l →
    ∀ i ∈ l.orders, b.orders[(b.order i).orderReferenceNumber]? = some i
  listed_of_mapped : ∀ ref i, b.orders[ref]? = some i →
    (b.order i).orderReferenceNumber = ref ∧
      ∃ side price l, b.level? side price = some l ∧ i ∈ l.orders
  placed : ∀ side price l, b.level? side price = some l → ∀ i ∈ l.orders,
    sideOf (b.order i).buySellIndicator = side ∧ (b.order i).price = price
  shares_le : ∀ side price l, b.level? side price = some l → ∀ i ∈ l.orders,
    ∃ shares, added[i]? = some shares ∧ (b.order i).shares ≤ shares

/-- The call stays within what the book allows: a reference that comes in is
fresh, no more shares go than an order has, and the total of a level stays
below `2 ^ 32`. -/
def Allows (b : LimitOrderBook) : BookOp → Prop
  | .addOrder ref side shares price =>
      b.orders[ref]? = none ∧
        (b.level ⟨side, price⟩).totalShares.toNat + shares.toNat < 2 ^ 32
  | .executeOrder ref n => ∀ i ∈ b.orders[ref]?, n ≤ (b.order i).shares
  | .reduceOrder ref n => ∀ i ∈ b.orders[ref]?, n ≤ (b.order i).shares
  | .deleteOrder _ => True
  | .replaceOrder oldRef newRef shares price => ∀ i ∈ b.orders[oldRef]?,
      (newRef = oldRef ∨ b.orders[newRef]? = none) ∧
      (b.level ⟨sideOf (b.order i).buySellIndicator,
          price⟩).totalShares.toNat + shares.toNat <
        2 ^ 32 + if (b.order i).price = price then
          (b.order i).shares.toNat else 0

instance (b : LimitOrderBook) : (op : BookOp) → Decidable (b.Allows op)
  | .addOrder .. => inferInstanceAs (Decidable (_ ∧ _))
  | .executeOrder ref n =>
      inferInstanceAs (Decidable (∀ i ∈ b.orders[ref]?, n ≤ _))
  | .reduceOrder ref n =>
      inferInstanceAs (Decidable (∀ i ∈ b.orders[ref]?, n ≤ _))
  | .deleteOrder _ => inferInstanceAs (Decidable True)
  | .replaceOrder oldRef .. =>
      inferInstanceAs (Decidable (∀ i ∈ b.orders[oldRef]?, _ ∧ _))

/-- The bounds within which the book stays consistent: they bind a message
that the book acts on. -/
def Admissible (b : LimitOrderBook) (msg : Message) : Prop :=
  msg.header.messageType ∈ bookMessages → msg.Concerns b.stockSymbol →
    ∀ op ∈ msg.bookOp, b.Allows op

instance (b : LimitOrderBook) (msg : Message) : Decidable (b.Admissible msg) :=
  inferInstanceAs (Decidable (_ → _ → ∀ op ∈ msg.bookOp, b.Allows op))

section Consistency

variable {b : LimitOrderBook} {os : OrderList} {side : Side} {price : UInt32}
  {l : PriceLevel} {i : ℕ} {msg : Message} {added : List UInt32}

theorem Rep.level_total (h : Rep b os) (side : Side) (price : UInt32) :
    (b.level ⟨side, price⟩).totalShares.toNat =
      (os.queue side price).totalShares := by
  have hlv := h.levels side price
  show ((b.level? side price).getD {}).totalShares.toNat = _
  generalize b.level? side price = l at hlv
  generalize os.queue side price = q at hlv
  cases hlv with
  | none => rfl
  | some _ total _ => exact total

/-- What is listed at a level. -/
theorem Rep.level_orders (h : Rep b os) (hl : b.level? side price = some l) :
    l.orders = (os.queue side price).map b.handle ∧
      os.queue side price ≠ [] := by
  have hlv := h.levels side price
  rw [hl] at hlv
  generalize os.queue side price = q at hlv
  cases hlv with
  | some hne _ orders => exact ⟨orders, hne⟩

theorem Rep.listed (h : Rep b os) (hl : b.level? side price = some l)
    (hi : i ∈ l.orders) : ∃ o ∈ os, b.handle o = i ∧ o.side = side ∧
      o.price = price := by
  rw [(h.level_orders hl).1] at hi
  obtain ⟨o, hq, rfl⟩ := List.mem_map.mp hi
  obtain ⟨ho, hs, hp⟩ := OrderList.mem_queue.mp hq
  exact ⟨o, ho, rfl, hs, hp⟩

/-- A book that represents orders is consistent. -/
theorem Rep.consistent (h : Rep b os) (hadded : ∀ i < b.heap.length,
      ∃ shares, added[i]? = some shares ∧ (b.order i).shares ≤ shares) :
    Consistent b added where
  levels_ne_nil side price l hl := by
    obtain ⟨horders, hne⟩ := h.level_orders hl
    rwa [horders, Ne, List.map_eq_nil_iff]
  totalShares_eq side price l hl := by
    have htotal := h.level_total side price
    have hlevel : b.level ⟨side, price⟩ = l :=
      congrArg (fun x : Option PriceLevel => x.getD {}) hl
    rw [hlevel] at htotal
    rw [htotal, (h.level_orders hl).1, List.map_map, OrderList.totalShares]
    congr 1
    refine List.map_congr_left fun o ho => ?_
    have hst := h.nodes o (OrderList.mem_queue.mp ho).1
    exact (congrArg UInt32.toNat hst.shares).symm
  orders_nodup side price l hl := by
    rw [(h.level_orders hl).1]
    refine List.Nodup.map_on (fun o ho o' ho' he => ?_)
      (h.refs.queue side price).nodup
    exact h.handle_inj (OrderList.mem_queue.mp ho).1
      (OrderList.mem_queue.mp ho').1 he
  mapped_of_listed side price l hl i hi := by
    obtain ⟨o, ho, rfl, _, _⟩ := h.listed hl hi
    rw [(h.nodes o ho).referenceNumber]
    exact h.lookup ho
  listed_of_mapped ref i hi := by
    obtain ⟨o, ho, _, hr, rfl⟩ := h.find?_of_lookup hi
    refine ⟨(h.nodes o ho).referenceNumber.trans hr, o.side, o.price, ?_⟩
    have hq : o ∈ os.queue o.side o.price :=
      OrderList.mem_queue.mpr ⟨ho, rfl, rfl⟩
    have hlv := h.levels o.side o.price
    cases hl : b.level? o.side o.price with
    | none =>
        rw [hl] at hlv
        generalize os.queue o.side o.price = q at hlv hq
        cases hlv
        exact absurd hq List.not_mem_nil
    | some l =>
        refine ⟨l, rfl, ?_⟩
        rw [(h.level_orders hl).1]
        exact List.mem_map_of_mem hq
  placed side price l hl i hi := by
    obtain ⟨o, ho, rfl, hs, hp⟩ := h.listed hl hi
    exact ⟨(h.nodes o ho).side.trans hs, (h.nodes o ho).price.trans hp⟩
  shares_le side price l hl i hi := by
    obtain ⟨o, ho, rfl, _, _⟩ := h.listed hl hi
    exact hadded _ (h.bound o ho)

/-- Bounds on the book are bounds on the orders it represents. -/
theorem Rep.within (h : Rep b os) {op : BookOp} (hop : b.Allows op) :
    op.Within os := by
  cases op with
  | addOrder ref side shares price =>
      obtain ⟨hfresh, hroom⟩ := hop
      rw [h.level_total] at hroom
      exact ⟨(h.mapped ref).mp hfresh, hroom⟩
  | executeOrder ref n =>
      intro o hf
      obtain ⟨ho, rfl⟩ := OrderList.find?_some hf
      have hn := hop _ (h.lookup ho)
      rwa [(h.nodes o ho).shares] at hn
  | reduceOrder ref n =>
      intro o hf
      obtain ⟨ho, rfl⟩ := OrderList.find?_some hf
      have hn := hop _ (h.lookup ho)
      rwa [(h.nodes o ho).shares] at hn
  | deleteOrder ref => trivial
  | replaceOrder oldRef newRef shares price =>
      intro o hf
      obtain ⟨ho, rfl⟩ := OrderList.find?_some hf
      obtain ⟨hnew, hroom⟩ := hop _ (h.lookup ho)
      have hst := h.nodes o ho
      rw [hst.side, hst.price, hst.shares, h.level_total] at hroom
      refine ⟨hnew.imp_right (h.mapped newRef).mp, ?_⟩
      rw [OrderList.queue_delete]
      by_cases hp : o.price = price
      · subst hp
        have hq : o ∈ os.queue o.side o.price :=
          OrderList.mem_queue.mpr ⟨ho, rfl, rfl⟩
        have hsum := (h.refs.queue _ _).totalShares_delete hq
        rw [if_pos rfl] at hroom
        omega
      · rw [if_neg hp] at hroom
        rw [OrderList.delete_of_not_mem
          (h.refs.queue_other ho fun he => hp he.2)]
        exact hroom

/-- The invariant of a run: the book represents some orders, and `added` has
an entry for each object of the heap that bounds its shares. -/
def Tracks (b : LimitOrderBook) (added : List UInt32) : Prop :=
  (∃ os, Rep b os) ∧ added.length = b.heap.length ∧
    ∀ i < b.heap.length,
      ∃ shares, added[i]? = some shares ∧ (b.order i).shares ≤ shares

theorem Tracks.step (h : Tracks b added) (hm : b.Admissible msg) :
    Tracks (b.step msg).1 (added ++ (b.step msg).2) := by
  obtain ⟨⟨os, hrep⟩, hlen, hadded⟩ := h
  obtain ⟨hrep', hF⟩ := hrep.process fun htype hconcerns op hop =>
    hrep.within (hm htype hconcerns op hop)
  have hgrow := hF.length
  refine ⟨⟨_, hrep'⟩, ?_, fun i hi => ?_⟩
  · simp only [LimitOrderBook.step, List.length_append, List.length_map,
      List.length_drop]
    omega
  · by_cases hold : i < b.heap.length
    · obtain ⟨shares, hshares, hle⟩ := hadded i hold
      refine ⟨shares, ?_, UInt32.le_trans (hF.shares i hold) hle⟩
      rwa [List.getElem?_append_left (hlen ▸ hold)]
    · -- a new order has the shares it was added with
      refine ⟨((b.process msg).order i).shares, ?_, UInt32.le_refl _⟩
      have hnew : b.heap.length + (i - b.heap.length) = i := by omega
      have hi : i < (b.process msg).heap.length := hi
      rw [List.getElem?_append_right (by omega), hlen, LimitOrderBook.step,
        List.getElem?_map, List.getElem?_drop, hnew, order,
        List.getD_eq_getElem?_getD, List.getElem?_eq_getElem hi]
      rfl

/-- **The book stays consistent within the bounds.** In a run whose messages
are all admissible where they arrive, the book is consistent after each. -/
theorem consistent_of_admissible {symbol : Str} {msgs : List Message}
    (hok : Legal step Admissible { stockSymbol := symbol } msgs)
    {pre : List Message} (hpre : pre <+: msgs) :
    Consistent (run step { stockSymbol := symbol } pre).1
      (run step { stockSymbol := symbol } pre).2 := by
  have hempty : Tracks { stockSymbol := symbol } [] :=
    ⟨⟨[], rep_empty symbol⟩, rfl, fun i hi => absurd hi (Nat.not_lt_zero i)⟩
  obtain ⟨⟨os, hrep⟩, -, hadded⟩ := (hok.of_prefix hpre).history
    (fun _ _ _ h hm => Tracks.step h hm) hempty
  exact hrep.consistent hadded

/-- `ITCH`, padded. -/
theorem length_itch :
    ([73, 84, 67, 72, 32, 32, 32, 32] : List UInt8).length = 8 := rfl

def itchStock : Chars 8 := ⟨[73, 84, 67, 72, 32, 32, 32, 32], length_itch⟩

/-- Two orders at one price, a partial execution, a cancel that takes the rest,
and a replace that keeps its reference. -/
def twoOrders : List Message :=
  [.addOrder { orderReferenceNumber := 1, buySellIndicator := 'B'.toUInt8
               shares := 100, stock := itchStock, price := 20 },
    .addOrder { orderReferenceNumber := 2, buySellIndicator := 'B'.toUInt8
                shares := 50, stock := itchStock, price := 20 },
    .orderExecuted { orderReferenceNumber := 1, executedShares := 30 },
    .orderCancel { orderReferenceNumber := 1, cancelledShares := 70 },
    .orderReplace { originalOrderReferenceNumber := 2
                    newOrderReferenceNumber := 2, shares := 60, price := 25 }]

theorem consistent_of_admissible_twoOrders :
    Consistent (run step { stockSymbol := toString itchStock } twoOrders).1
      (run step { stockSymbol := toString itchStock } twoOrders).2 :=
  consistent_of_admissible (by decide) (List.prefix_refl _)

/-! Each bound is needed: an execution of more than there is leaves an order
with more shares than it was added with, an add message with a reference that
rests leaves an order that no reference maps to, and a total that reaches
`2 ^ 32` is not the sum of the shares. -/

def overExecution : List Message :=
  [.addOrder { orderReferenceNumber := 1, buySellIndicator := 'B'.toUInt8
               shares := 100, stock := itchStock, price := 20 },
    .orderExecuted { orderReferenceNumber := 1, executedShares := 150 }]

def sameReference : List Message :=
  [.addOrder { orderReferenceNumber := 1, buySellIndicator := 'B'.toUInt8
               shares := 100, stock := itchStock, price := 20 },
    .addOrder { orderReferenceNumber := 1, buySellIndicator := 'B'.toUInt8
                shares := 50, stock := itchStock, price := 20 }]

def fullLevel : List Message :=
  [.addOrder { orderReferenceNumber := 1, buySellIndicator := 'B'.toUInt8
               shares := 0xFFFFFFFF, stock := itchStock
               price := 20 },
    .addOrder { orderReferenceNumber := 2, buySellIndicator := 'B'.toUInt8
                shares := 1, stock := itchStock, price := 20 }]

theorem not_always_consistent :
    ¬ Consistent
        (run step { stockSymbol := toString itchStock } overExecution).1
        (run step { stockSymbol := toString itchStock } overExecution).2 ∧
      ¬ Consistent
        (run step { stockSymbol := toString itchStock } sameReference).1
        (run step { stockSymbol := toString itchStock } sameReference).2 ∧
      ¬ Consistent
        (run step { stockSymbol := toString itchStock } fullLevel).1
        (run step { stockSymbol := toString itchStock } fullLevel).2 := by
  refine ⟨fun h => ?_, fun h => ?_, fun h => ?_⟩
  · obtain ⟨shares, hshares, hle⟩ := h.shares_le .buy 20
      ⟨4294967246, [0]⟩ (by decide) 0 (by decide)
    have hadded : shares = 100 := Option.some.inj (hshares.symm.trans rfl)
    revert hle
    rw [hadded]
    decide
  · have hmapped := h.mapped_of_listed .buy 20 ⟨150, [0, 1]⟩ (by decide) 0
      (by decide)
    revert hmapped
    decide
  · have htotal := h.totalShares_eq .buy 20 ⟨0, [0, 1]⟩ (by decide)
    revert htotal
    decide

end Consistency

end LimitOrderBook

end Itch
