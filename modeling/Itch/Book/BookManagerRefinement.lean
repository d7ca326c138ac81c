import Mathlib.Data.FinEnum
import Mathlib.Data.Set.Card
import Itch.Book.Directory
import Itch.Book.OrderPool

/-!
# A `BookManager` is a plain manager

A plain manager keeps a list of resting orders for each locate code, without
pools, ladders or tables. §1 is about its calls, §2 about the outputs of a
`BookManager` in their order, §3 says what it means that the two agree, and §4
follows both through any calls.
-/

namespace Itch.Book

open Transducer BookManager

/-! ## §1  The plain manager -/

/-- The book of a security: its symbol and the orders that rest. -/
structure PlainBook where
  symbol : Str
  orders : OrderList := []
deriving DecidableEq

/-- A call of a callback, with the book as it is at that moment. -/
inductive PlainEvent where
  | bbo (stockLocate : UInt16) (book : PlainBook) (bbo : Bbo)
  | trade (trade : Trade)

structure PlainManager extends ManagerConfig where
  books : UInt16 → Option PlainBook := fun _ => none
  listed : UInt16 → Str := fun _ => []

/-- The calls that change a manager. -/
inductive ManagerCall where
  | setBboCallback (installed : Bool)
  | setTradeCallback (installed : Bool)
  | trackSymbol (symbol : Str)
  | process (message : Message)

/-- A book without a symbol takes the first that it hears of. -/
def PlainBook.named (b : PlainBook) (symbol : Str) : PlainBook :=
  if b.symbol = [] then { b with symbol } else b

def PlainBook.apply (b : PlainBook) (op : BookOp) : PlainBook :=
  { b with orders := (op.onList b.orders).1 }

namespace PlainManager

/-- The book that a message is for. An add message opens one, if its symbol is
tracked. -/
def target (p : PlainManager) (msg : Message) : Option PlainBook :=
  match msg.addSymbol, p.books msg.stockLocate with
  | none, b => b
  | some symbol, some b => some (b.named symbol)
  | some symbol, none =>
      if inUniverse p.toManagerConfig symbol then some { symbol } else none

/-- What becomes of the book at the locate code of a message. -/
def next (p : PlainManager) (msg : Message) : Option PlainBook :=
  match msg.bookOp, p.target msg with
  | some op, some b => some (b.apply op)
  | _, _ => p.books msg.stockLocate

/-- The BBO callback is for a top that has changed. -/
def bbos (p : PlainManager) (msg : Message) : List PlainEvent :=
  match msg.bookOp, p.target msg with
  | some op, some b =>
      if (b.apply op).orders.bbo ≠ b.orders.bbo ∧ p.hasBboCallback = true then
        [.bbo msg.stockLocate (b.apply op) (b.apply op).orders.bbo]
      else []
  | _, _ => []

/-- The trades of a message, given the book at its locate code: executions of
orders at the price at which they rest, executions at a price of their own,
and the trades off the book. -/
def printed (b : Option PlainBook) : Message → List Trade
  | .orderExecuted exec =>
      (b.bind fun b => (b.orders.find? exec.orderReferenceNumber).map fun o =>
        { timestamp := exec.timestamp
          stockLocate := exec.stockLocate
          symbol := b.symbol
          price := ⟨o.price⟩
          shares := exec.executedShares.toUInt64
          matchNumber := exec.matchNumber
          side := o.side.toChar }).toList
  | .orderExecutedWithPrice exec =>
      (b.map fun b =>
        { timestamp := exec.timestamp
          stockLocate := exec.stockLocate
          symbol := b.symbol
          price := ⟨exec.executionPrice⟩
          shares := exec.executedShares.toUInt64
          matchNumber := exec.matchNumber
          side := ((b.orders.find? exec.orderReferenceNumber).map
            fun o => o.side.toChar).getD 0
          printable := exec.printable == 'Y'.toUInt8 }).toList
  | .nonCrossTrade trade =>
      [{ timestamp := trade.timestamp
         stockLocate := trade.stockLocate
         symbol := toString trade.stock
         price := ⟨trade.price⟩
         shares := trade.shares.toUInt64
         matchNumber := trade.matchNumber
         side := trade.buySellIndicator }]
  | .crossTrade cross =>
      [{ timestamp := cross.timestamp
         stockLocate := cross.stockLocate
         symbol := toString cross.stock
         price := ⟨cross.crossPrice⟩
         shares := cross.shares
         matchNumber := cross.matchNumber
         isCross := true
         crossType := cross.crossType }]
  | _ => []

def trades (p : PlainManager) (msg : Message) : List PlainEvent :=
  if p.hasTradeCallback then
    (printed (p.books msg.stockLocate) msg).map .trade
  else []

def process (p : PlainManager) (msg : Message) :
    PlainManager × List PlainEvent :=
  ({ p with
      books := fun l => if l = msg.stockLocate then p.next msg else p.books l
      listed := fun l =>
        if l = msg.stockLocate then msg.directorySymbol.getD (p.listed l)
        else p.listed l },
    p.trades msg ++ p.bbos msg)

def call (p : PlainManager) : ManagerCall → PlainManager × List PlainEvent
  | .setBboCallback installed => ({ p with hasBboCallback := installed }, [])
  | .setTradeCallback installed =>
      ({ p with hasTradeCallback := installed }, [])
  | .trackSymbol symbol =>
      ({ p with trackedUniverse := insert symbol p.trackedUniverse }, [])
  | .process message => p.process message

/-- The locate codes with a book. -/
def opened (p : PlainManager) : Set UInt16 := {l | (p.books l).isSome}

end PlainManager

namespace BookManager

def setBboCallback (m : BookManager) (installed : Bool) : BookManager :=
  { m with hasBboCallback := installed }

def setTradeCallback (m : BookManager) (installed : Bool) : BookManager :=
  { m with hasTradeCallback := installed }

def call (m : BookManager) : ManagerCall → BookManager × List BookEvent
  | .setBboCallback installed => (m.setBboCallback installed, [])
  | .setTradeCallback installed => (m.setTradeCallback installed, [])
  | .trackSymbol symbol => (m.trackSymbol symbol, [])
  | .process message => m.process message

/-! ## §2  The outputs of a step -/

variable {m : BookManager} {msg : Message} {l : UInt16}

theorem events_emitBboIfChanged (m : BookManager) (l : UInt16)
    (slot : BookEntry) (op : BookOp) :
    (m.emitBboIfChanged l { slot with book := (op.onBook slot.book).1 }).2 =
      (m.emits slot (slot.apply op)).map fun x => .bbo l x.1 x.2 := by
  rw [emitBboIfChanged]
  by_cases hne : (op.onBook slot.book).1.bbo = slot.lastBbo
  · rw [if_neg (not_not.mpr hne), ManagerConfig.emits,
      if_neg fun h => h.1 hne]
    rfl
  · rw [if_pos hne]
    by_cases hc : m.hasBboCallback = true
    · rw [if_pos hc, ManagerConfig.emits, if_pos ⟨hne, hc⟩]
      rfl
    · rw [if_neg hc, ManagerConfig.emits, if_neg fun h => hc h.2]
      rfl

theorem trades_add {c : ManagerConfig} {e : Option BookEntry} {symbol : Str}
    (hs : msg.addSymbol = some symbol) : c.trades e msg = [] := by
  apply trades_nil
  cases msg
  case addOrder add => rfl
  case addOrderMPIDAttribution add => rfl
  all_goals cases hs

theorem events_add {ref : UInt64} {buySell : UInt8} {shares : UInt32}
    {stock : Chars 8} {price : UInt32}
    (hop : msg.bookOp = some (.addOrder ref (toSide buySell) shares price))
    (hsymbol : msg.addSymbol = some (toString stock)) :
    (m.handleAddOrder msg.stockLocate ref buySell shares stock price).2 =
      (m.localStep msg (m.entry msg.stockLocate)).2.map
        fun x => .bbo msg.stockLocate x.1 x.2 := by
  obtain ⟨m₁, heq, hE⟩ :=
    ensureEntry_spec m msg.stockLocate (toString stock)
  have htarget : m.target msg (m.entry msg.stockLocate) =
      m.ensure (toString stock) (m.entry msg.stockLocate) := by
    rw [ManagerConfig.target, hsymbol]
  rw [handleAddOrder, heq, ManagerConfig.localStep, hop, htarget]
  cases m.ensure (toString stock) (m.entry msg.stockLocate) with
  | none => rfl
  | some slot =>
    rw [← hE.config]
    exact events_emitBboIfChanged m₁ msg.stockLocate slot
      (.addOrder ref (toSide buySell) shares price)

/-- A step puts out its trades, then the top if it has changed. -/
theorem events_process (m : BookManager) (msg : Message) :
    (m.process msg).2 = m.trades (m.entry msg.stockLocate) msg ++
      (m.localStep msg (m.entry msg.stockLocate)).2.map
        fun x => .bbo msg.stockLocate x.1 x.2 := by
  cases hs : msg.addSymbol with
  | some symbol =>
    rw [trades_add hs, List.nil_append]
    cases msg
    case addOrder add => exact @events_add m (.addOrder add) _ _ _ _ _ rfl rfl
    case addOrderMPIDAttribution add =>
      exact @events_add m (.addOrderMPIDAttribution add) _ _ _ _ _ rfl rfl
    all_goals cases hs
  | none =>
    rw [ManagerConfig.localStep, ManagerConfig.target, hs]
    cases hop : msg.bookOp with
    | some op =>
      cases he : m.entry msg.stockLocate with
      | none =>
        rw [process_none hop hs he,
          trades_nil (printed_none (tradeSymbol_of_bookOp hop))]
        rfl
      | some slot =>
        rw [process_some hop hs he]
        exact congrArg (_ ++ ·) (events_emitBboIfChanged ..)
    | none =>
      rw [List.map_nil, List.append_nil]
      cases hdir : msg.directorySymbol with
      | none => rw [process_idle hop hdir (m.entry msg.stockLocate)]
      | some symbol =>
        cases msg
        case stockDirectory directory => exact (trades_nil rfl).symm
        all_goals cases hdir

end BookManager

/-! ## §3  Agreement -/

/-- The book has the symbol and answers every query from the orders. -/
structure L3Book.Shows (b : L3Book) (p : PlainBook) : Prop where
  symbol : b.symbol = p.symbol
  agrees : Agrees b p.orders

inductive BookEvent.Observes : BookEvent → PlainEvent → Prop where
  | bbo {b : L3Book} {p : PlainBook} (h : b.Shows p) (l : UInt16) (x : Bbo) :
      Observes (.bbo l b x) (.bbo l p x)
  | trade (t : Trade) : Observes (.trade t) (.trade t)

/-- The manager answers every query from the plain one. Of several books with
a symbol, that of the lowest locate code is found. -/
structure BookManager.Answers (m : BookManager) (p : PlainManager) : Prop where
  book : ∀ l, Option.Rel L3Book.Shows (m.book l) (p.books l)
  bookForSymbol : ∀ s,
    match m.bookForSymbol s with
    | none => ∀ l, ∀ b ∈ p.books l, b.symbol ≠ s
    | some b => ∃ l x, p.books l = some x ∧ x.symbol = s ∧ b.Shows x ∧
        ∀ k < l, ∀ y ∈ p.books k, y.symbol ≠ s
  symbolForLocate : ∀ l, m.symbolForLocate l =
    match p.books l with
    | some b => if b.symbol = [] then p.listed l else b.symbol
    | none => p.listed l
  bookCount : m.bookCount = p.opened.ncard

/-! ## §4  Calls -/

structure BookEntry.Represents (e : BookEntry) (b : PlainBook) : Prop where
  symbol : e.book.symbol = b.symbol
  orders : e.book.Rep b.orders
  lastBbo : e.lastBbo = b.orders.bbo

structure BookManager.Follows (m : BookManager) (p : PlainManager) : Prop where
  config : m.toManagerConfig = p.toManagerConfig
  entry : ∀ l, Option.Rel BookEntry.Represents (m.entry l) (p.books l)
  listed : ∀ l, m.symbolByLocate.getD l.toNat [] = p.listed l
  bookCount : m.bookCount = p.opened.ncard
  length : m.booksByLocate.length ≤ 2 ^ 16

variable {m : BookManager} {p : PlainManager} {e : BookEntry} {b : PlainBook}
  {msg : Message} {l : UInt16}

theorem BookEntry.Represents.shows (h : e.Represents b) : e.book.Shows b :=
  ⟨h.symbol, h.orders.agrees⟩

theorem represents_new (symbol : Str) :
    BookEntry.Represents { book := ({} : L3Book).setSymbol symbol } { symbol } :=
  ⟨rfl, L3Book.rep_empty symbol, rfl⟩

theorem BookEntry.Represents.named (h : e.Represents b) (symbol : Str) :
    BookEntry.Represents (if e.book.symbol = [] ∧ symbol ≠ [] then
        { e with book := e.book.setSymbol symbol } else e) (b.named symbol) := by
  rw [PlainBook.named, h.symbol]
  by_cases hblank : b.symbol = []
  · rw [if_pos hblank]
    by_cases hsymbol : symbol = []
    · rw [if_neg fun hboth => hboth.2 hsymbol, hsymbol, ← hblank]
      exact h
    · rw [if_pos ⟨hblank, hsymbol⟩]
      exact ⟨rfl, h.orders.setSymbol symbol, h.lastBbo⟩
  · rw [if_neg hblank, if_neg fun hboth => hblank hboth.1]
    exact h

theorem BookEntry.Represents.apply (h : e.Represents b) (op : BookOp)
    (hroom : (b.apply op).orders.length < 2 ^ 32) :
    (e.apply op).Represents (b.apply op) := by
  have hrep := (BookOp.step h.orders op hroom).1
  exact ⟨(op.symbol_onBook e.book).trans h.symbol, hrep, hrep.bbo⟩

theorem BookManager.Follows.target (h : m.Follows p) (msg : Message) :
    Option.Rel BookEntry.Represents (m.target msg (m.entry msg.stockLocate))
      (p.target msg) := by
  have hentry := h.entry msg.stockLocate
  rw [ManagerConfig.target, PlainManager.target]
  generalize m.entry msg.stockLocate = e at hentry ⊢
  generalize p.books msg.stockLocate = b at hentry ⊢
  cases msg.addSymbol with
  | none => exact hentry
  | some symbol =>
    cases hentry with
    | some hslot => exact .some (hslot.named symbol)
    | none =>
      rw [← h.config]
      show Option.Rel _ (ManagerConfig.ensure _ _ none) (ite _ _ _)
      rw [ManagerConfig.ensure]
      split
      · exact .some (represents_new symbol)
      · exact .none

/-- What a message does to its book, and what is said about the top. -/
theorem BookManager.Follows.localStep (h : m.Follows p) (msg : Message)
    (hroom : ∀ b ∈ p.next msg, b.orders.length < 2 ^ 32) :
    Option.Rel BookEntry.Represents
        (m.localStep msg (m.entry msg.stockLocate)).1 (p.next msg) ∧
      List.Forall₂ BookEvent.Observes
        ((m.localStep msg (m.entry msg.stockLocate)).2.map
          fun x => .bbo msg.stockLocate x.1 x.2)
        (p.bbos msg) := by
  have htarget := h.target msg
  have hentry := h.entry msg.stockLocate
  rw [PlainManager.next] at hroom ⊢
  rw [PlainManager.bbos, ManagerConfig.localStep]
  generalize m.target msg (m.entry msg.stockLocate) = e at htarget ⊢
  generalize p.target msg = b at htarget hroom ⊢
  generalize msg.bookOp = op at hroom ⊢
  cases op with
  | none => exact ⟨hentry, .nil⟩
  | some op =>
    cases htarget with
    | none => exact ⟨hentry, .nil⟩
    | @some slot b hslot =>
      have happly := hslot.apply op (hroom _ rfl)
      refine ⟨.some happly, ?_⟩
      show List.Forall₂ _ (List.map _ (m.emits slot (slot.apply op))) (ite _ _ _)
      rw [ManagerConfig.emits, happly.lastBbo, hslot.lastBbo, h.config]
      split
      · exact .cons (.bbo happly.shows _ _) .nil
      · exact .nil

theorem printed_represents {e : Option BookEntry} {b : Option PlainBook}
    (h : Option.Rel BookEntry.Represents e b) (msg : Message) :
    printed e msg = PlainManager.printed b msg := by
  cases h with
  | none => cases msg <;> rfl
  | @some slot b hslot =>
    cases msg
    case orderExecuted exec =>
      simp only [printed, PlainManager.printed, hslot.symbol,
        hslot.orders.orderPrice, hslot.orders.orderSide, OrderList.orderPrice,
        OrderList.orderSide, Option.bind_some]
      cases b.orders.find? exec.orderReferenceNumber <;> rfl
    case orderExecutedWithPrice exec =>
      simp only [printed, PlainManager.printed, hslot.symbol,
        hslot.orders.orderSide, OrderList.orderSide, Option.map_some,
        Option.map_map]
      rfl
    all_goals rfl

theorem BookManager.Follows.trades (h : m.Follows p) (msg : Message) :
    List.Forall₂ BookEvent.Observes (m.trades (m.entry msg.stockLocate) msg)
      (p.trades msg) := by
  rw [ManagerConfig.trades, PlainManager.trades, h.config,
    printed_represents (h.entry msg.stockLocate)]
  split
  · rw [List.forall₂_map_left_iff, List.forall₂_map_right_iff,
      List.forall₂_same]
    exact fun t _ => .trade t
  · exact .nil

theorem isSome_next (h : (p.books msg.stockLocate).isSome) :
    (p.next msg).isSome := by
  rw [PlainManager.next]
  split
  · rfl
  · exact h

/-- A book may be opened at a locate code, and none is closed. -/
theorem ncard_opened {α : Type} (f : UInt16 → Option α) (l : UInt16)
    {x : Option α} (hkeep : (f l).isSome → x.isSome) :
    {k | (if k = l then x else f k).isSome}.ncard =
      {k | (f k).isSome}.ncard +
        if (f l).isNone ∧ x.isSome then 1 else 0 := by
  by_cases hopens : (f l).isNone ∧ x.isSome
  · have hinsert : {k | (if k = l then x else f k).isSome} =
        insert l {k | (f k).isSome} := by
      ext k
      rw [Set.mem_insert_iff, Set.mem_ofPred_eq, Set.mem_ofPred_eq]
      by_cases hk : k = l
      · rw [if_pos hk]
        exact iff_of_true hopens.2 (.inl hk)
      · rw [if_neg hk, or_iff_right hk]
    rw [hinsert, Set.ncard_insert_of_notMem, if_pos hopens]
    rw [Set.mem_ofPred_eq, Bool.not_eq_true, Option.isSome_eq_false_iff]
    exact hopens.1
  · have hsame : {k | (if k = l then x else f k).isSome} =
        {k | (f k).isSome} := by
      ext k
      rw [Set.mem_ofPred_eq, Set.mem_ofPred_eq]
      by_cases hk : k = l
      · subst hk
        rw [if_pos rfl]
        refine ⟨fun hx => ?_, hkeep⟩
        by_contra hnone
        exact hopens ⟨by simpa using hnone, hx⟩
      · rw [if_neg hk]
    rw [hsame, if_neg hopens, Nat.add_zero]

theorem BookManager.Follows.process (h : m.Follows p) (msg : Message)
    (hroom : ∀ b ∈ p.next msg, b.orders.length < 2 ^ 32) :
    (m.process msg).1.Follows (p.process msg).1 ∧
      List.Forall₂ BookEvent.Observes (m.process msg).2 (p.process msg).2 := by
  have hP := processed m msg
  obtain ⟨hnext, hbbos⟩ := h.localStep msg hroom
  rw [← hP.own] at hnext
  refine ⟨⟨hP.config.trans h.config, fun l => ?_, fun l => ?_, ?_, ?_⟩, ?_⟩
  · show Option.Rel _ _ (ite _ _ _)
    by_cases hl : l = msg.stockLocate
    · rw [if_pos hl, hl]
      exact hnext
    · rw [if_neg hl, hP.other l hl]
      exact h.entry l
  · show _ = ite _ _ _
    rw [hP.symbols, h.listed]
  · have hcount := ncard_opened p.books msg.stockLocate
      (fun hopen => isSome_next (p := p) hopen)
    refine hP.count.trans ?_
    rw [h.bookCount]
    refine Eq.trans ?_ hcount.symm
    have hold := h.entry msg.stockLocate
    congr 1
    generalize m.entry msg.stockLocate = e at hold ⊢
    generalize p.books msg.stockLocate = b at hold ⊢
    generalize (m.process msg).1.entry msg.stockLocate = e' at hnext ⊢
    generalize p.next msg = b' at hnext ⊢
    cases hold <;> cases hnext <;> rfl
  · exact length_process_le m msg h.length
  · rw [events_process]
    exact List.rel_append (h.trades msg) hbbos

/-- No book has an order more than the pool can hold. -/
def PlainManager.Room (p : PlainManager) : Prop :=
  ∀ l, ∀ b ∈ p.books l, b.orders.length < 2 ^ 32

theorem BookManager.Follows.call (h : m.Follows p) (c : ManagerCall)
    (hroom : (p.call c).1.Room) :
    (m.call c).1.Follows (p.call c).1 ∧
      List.Forall₂ BookEvent.Observes (m.call c).2 (p.call c).2 := by
  have hconfig := h.config
  cases c with
  | setBboCallback installed =>
    exact ⟨⟨congrArg (fun c : ManagerConfig =>
      { c with hasBboCallback := installed }) hconfig, h.entry, h.listed,
      h.bookCount, h.length⟩, .nil⟩
  | setTradeCallback installed =>
    exact ⟨⟨congrArg (fun c : ManagerConfig =>
      { c with hasTradeCallback := installed }) hconfig, h.entry, h.listed,
      h.bookCount, h.length⟩, .nil⟩
  | trackSymbol symbol =>
    exact ⟨⟨congrArg (fun c : ManagerConfig =>
      { c with trackedUniverse := insert symbol c.trackedUniverse }) hconfig,
      h.entry, h.listed, h.bookCount, h.length⟩, .nil⟩
  | process msg =>
    apply h.process msg
    intro b hb
    apply hroom msg.stockLocate b
    show b ∈ ite _ _ _
    rwa [if_pos rfl]

theorem follows_new (c : ManagerConfig) :
    (newManager c).Follows { toManagerConfig := c } := by
  refine ⟨rfl, fun l => ?_, fun l => rfl, ?_, Nat.zero_le _⟩
  · rw [entry_eq]
    exact .none
  · have hnone : ({ toManagerConfig := c } : PlainManager).opened = ∅ :=
      Set.eq_empty_of_forall_notMem fun l hl => by cases hl
    rw [hnone, Set.ncard_empty]
    rfl

theorem BookManager.Follows.answers (h : m.Follows p) : m.Answers p := by
  have hbook (l : UInt16) : Option.Rel L3Book.Shows (m.book l) (p.books l) := by
    have hentry := h.entry l
    rw [book]
    generalize m.entry l = e at hentry ⊢
    generalize p.books l = b at hentry ⊢
    cases hentry with
    | some hslot => exact .some hslot.shows
    | none => exact .none
  have hsymbol (l : UInt16) :
      (m.book l).map L3Book.symbol = (p.books l).map PlainBook.symbol := by
    have hrel := hbook l
    generalize m.book l = e at hrel ⊢
    generalize p.books l = b at hrel ⊢
    cases hrel with
    | some hshows => exact congrArg some hshows.symbol
    | none => rfl
  have hother {s : Str} {l : UInt16}
      (hl : (m.book l).map L3Book.symbol ≠ some s) :
      ∀ b ∈ p.books l, b.symbol ≠ s := by
    rintro b hb rfl
    apply hl
    rw [hsymbol, hb]
    rfl
  refine ⟨hbook, fun s => ?_, fun l => ?_, h.bookCount⟩
  · have hfirst := bookForSymbol_first h.length s
    cases hfind : m.bookForSymbol s with
    | none =>
      rw [hfind] at hfirst
      exact fun l => hother (hfirst l)
    | some b =>
      rw [hfind] at hfirst
      obtain ⟨l, hl, rfl, hbefore⟩ := hfirst
      have hrel := hbook l
      rw [hl] at hrel
      generalize hx : p.books l = x at hrel
      cases hrel with
      | some hshows =>
        exact ⟨l, _, hx, hshows.symbol.symm, hshows,
          fun k hk => hother (hbefore k hk)⟩
  · have hentry := h.entry l
    rw [symbolForLocate, ← h.listed]
    generalize m.entry l = e at hentry ⊢
    generalize p.books l = b at hentry ⊢
    cases hentry with
    | some hslot =>
      show (if _ ≠ _ then _ else _) = ite _ _ _
      rw [hslot.symbol]
      exact ite_not ..
    | none => rfl

theorem OrderList.length_add_le (os : OrderList) (o : RestingOrder) :
    (os.add o).length ≤ os.length + 1 := by
  rw [add]
  split
  · exact Nat.le_succ _
  · rw [List.length_append, List.length_singleton]

theorem BookOp.length_onList_le (op : BookOp) (os : OrderList) :
    (op.onList os).1.length ≤ os.length + 1 := by
  cases op with
  | addOrder ref side shares price => exact os.length_add_le _
  | executeOrder ref n => exact (os.length_execute_le ref n).trans (Nat.le_succ _)
  | reduceOrder ref n => exact (os.length_execute_le ref n).trans (Nat.le_succ _)
  | deleteOrder ref =>
    exact (List.length_filter_le ..).trans (Nat.le_succ _)
  | replaceOrder oldRef newRef shares price =>
    show (os.replace oldRef newRef shares price).length ≤ _
    rw [OrderList.replace]
    cases os.find? oldRef with
    | none => exact Nat.le_succ _
    | some o =>
      exact (OrderList.length_add_le _ _).trans
        (Nat.succ_le_succ (List.length_filter_le ..))

theorem length_next_le {n : ℕ}
    (h : ∀ b ∈ p.books msg.stockLocate, b.orders.length ≤ n) :
    ∀ b ∈ p.next msg, b.orders.length ≤ n + 1 := by
  have htarget : ∀ b ∈ p.target msg, b.orders.length ≤ n := by
    rw [PlainManager.target]
    generalize p.books msg.stockLocate = x at h ⊢
    cases msg.addSymbol with
    | none => exact h
    | some symbol =>
      cases x with
      | some x =>
        rintro b ⟨⟩
        have hx := h x rfl
        rw [PlainBook.named]
        split <;> exact hx
      | none =>
        intro b hb
        dsimp only at hb
        split at hb
        · obtain rfl := Option.some.inj hb
          exact Nat.zero_le n
        · cases hb
  intro b hb
  rw [PlainManager.next] at hb
  split at hb
  · rename_i op x _ hx
    obtain rfl := Option.some.inj hb
    exact (op.length_onList_le x.orders).trans
      (Nat.succ_le_succ (htarget x hx))
  · exact (h b hb).trans (Nat.le_succ n)

/-- There is an order at most for every call. -/
theorem length_orders_run (c : ManagerConfig) (calls : List ManagerCall) :
    ∀ l, ∀ b ∈ (run PlainManager.call { toManagerConfig := c } calls).1.books l,
      b.orders.length ≤ calls.length := by
  induction calls using List.reverseRecOn with
  | nil => rintro l b ⟨⟩
  | append_singleton calls a ih =>
    rw [run_snoc, List.length_append, List.length_singleton]
    have hkeep (l : UInt16) : ∀ b ∈ (run PlainManager.call
        { toManagerConfig := c } calls).1.books l,
        b.orders.length ≤ calls.length + 1 :=
      fun b hb => (ih l b hb).trans (Nat.le_succ _)
    cases a with
    | process msg =>
      intro l b hb
      change b ∈ ite _ _ _ at hb
      split at hb
      · exact length_next_le (ih msg.stockLocate) b hb
      · exact hkeep l b hb
    | _ => exact hkeep

theorem room_of_length {c : ManagerConfig} {calls : List ManagerCall}
    (h : calls.length < 2 ^ 32) : ∀ pre, pre <+: calls →
      (run PlainManager.call { toManagerConfig := c } pre).1.Room :=
  fun pre hpre l b hb =>
    ((length_orders_run c pre l b hb).trans hpre.length_le).trans_lt h

theorem follows_run (c : ManagerConfig) (calls : List ManagerCall)
    (hroom : ∀ pre, pre <+: calls →
      (run PlainManager.call { toManagerConfig := c } pre).1.Room) :
    (run call (newManager c) calls).1.Follows
        (run PlainManager.call { toManagerConfig := c } calls).1 ∧
      List.Forall₂ BookEvent.Observes (run call (newManager c) calls).2
        (run PlainManager.call { toManagerConfig := c } calls).2 := by
  have hok : Legal PlainManager.call (fun p a => (p.call a).1.Room)
      { toManagerConfig := c } calls := by
    refine legal_of_prefixes fun pre a hpre => ?_
    have hafter := hroom _ hpre
    rwa [run_snoc] at hafter
  exact run_relates (R := BookManager.Follows)
    (fun m p a h hroom => h.call a hroom) (follows_new c) hok

/-- **`BookManager` refines the plain manager.** Whatever is called, in any
order, the callbacks are called with the same arguments in the same order and
the queries answer the same, as long as the pools have room. -/
theorem refines_plainManager (c : ManagerConfig) (calls : List ManagerCall)
    (hroom : ∀ pre, pre <+: calls →
      (run PlainManager.call { toManagerConfig := c } pre).1.Room) :
    List.Forall₂ BookEvent.Observes (run call (newManager c) calls).2
        (run PlainManager.call { toManagerConfig := c } calls).2 ∧
      (run call (newManager c) calls).1.Answers
        (run PlainManager.call { toManagerConfig := c } calls).1 := by
  obtain ⟨hfollows, houts⟩ := follows_run c calls hroom
  exact ⟨houts, hfollows.answers⟩

/-- A symbol that is not on the feed, then one that is. -/
theorem refines_plainManager_oneOrder :
    List.Forall₂ BookEvent.Observes
        (run call (newManager { hasBboCallback := true })
          (.trackSymbol [65] :: .trackSymbol [73, 84, 67, 72] ::
            oneOrder.map .process)).2
        (run PlainManager.call { hasBboCallback := true }
          (.trackSymbol [65] :: .trackSymbol [73, 84, 67, 72] ::
            oneOrder.map .process)).2 :=
  (refines_plainManager _ _ (room_of_length (by decide))).1

end Itch.Book
