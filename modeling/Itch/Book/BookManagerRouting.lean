import Mathlib.Data.List.GetD
import Itch.Book.BookManager
import Itch.Book.L3BookRefinement

/-!
# What a `BookManager` does to one book

A message acts on the entry at its own locate code, and there in one of two
ways: it makes a call on the book and refreshes the cached top (`localStep`),
or it leaves the entry alone. §1 says so for every handler (`processed`). The
three properties of whole runs follow: the BBO events are exact (§2), the
securities do not interfere (§3), and a universe only hides books (§4).
-/

namespace Itch

open Book

/-! ## §1  One step -/

/-- The call that a message makes on a book. -/
def Message.bookOp : Message → Option BookOp
  | .addOrder add =>
      some (.addOrder add.orderReferenceNumber (toSide add.buySellIndicator)
        add.shares add.price)
  | .addOrderMPIDAttribution add =>
      some (.addOrder add.orderReferenceNumber (toSide add.buySellIndicator)
        add.shares add.price)
  | .orderExecuted exec =>
      some (.executeOrder exec.orderReferenceNumber exec.executedShares)
  | .orderExecutedWithPrice exec =>
      some (.executeOrder exec.orderReferenceNumber exec.executedShares)
  | .orderCancel cancel =>
      some (.reduceOrder cancel.orderReferenceNumber cancel.cancelledShares)
  | .orderDelete del => some (.deleteOrder del.orderReferenceNumber)
  | .orderReplace replace =>
      some (.replaceOrder replace.originalOrderReferenceNumber
        replace.newOrderReferenceNumber replace.shares replace.price)
  | _ => none

/-- The trimmed symbol of an add message. -/
def Message.addSymbol : Message → Option Str
  | .addOrder add => some (toString add.stock)
  | .addOrderMPIDAttribution add => some (toString add.stock)
  | _ => none

/-- The trimmed symbol of a stock directory message. -/
def Message.directorySymbol : Message → Option Str
  | .stockDirectory directory => some (toString directory.stock)
  | _ => none

/-- The trimmed symbol of a trade message. -/
def Message.tradeSymbol : Message → Option Str
  | .nonCrossTrade trade => some (toString trade.stock)
  | .crossTrade cross => some (toString cross.stock)
  | _ => none

def Message.stockLocate (msg : Message) : UInt16 := msg.header.stockLocate

namespace Book

def BookEvent.stockLocate : BookEvent → UInt16
  | .bbo stockLocate _ _ => stockLocate
  | .trade t => t.stockLocate

/-- The book of an entry; a missing one counts as empty. -/
def entryBook (e : Option BookEntry) : L3Book := (e.map (·.book)).getD {}

/-- The BBO events of one book: the book and its top, as they were handed
over. -/
def bboEvents (l : UInt16) (events : List BookEvent) : List (L3Book × Bbo) :=
  events.filterMap fun
    | .bbo stockLocate book bbo =>
        if stockLocate = l then some (book, bbo) else none
    | .trade _ => none

/-- The entry after a call on its book: the cached top is that of the book. -/
def BookEntry.apply (e : BookEntry) (op : BookOp) : BookEntry :=
  ⟨(op.onBook e.book).1, (op.onBook e.book).1.bbo⟩

/-- The BBO events when `e` becomes `e'`. -/
def ManagerConfig.emits (c : ManagerConfig) (e e' : BookEntry) :
    List (L3Book × Bbo) :=
  if e'.lastBbo ≠ e.lastBbo ∧ c.hasBboCallback = true then
    [(e'.book, e'.lastBbo)]
  else []

/-- The entry an add message finds or creates. -/
def ManagerConfig.ensure (c : ManagerConfig) (symbol : Str) :
    Option BookEntry → Option BookEntry
  | some slot =>
      some (if slot.book.symbol = [] ∧ symbol ≠ [] then
        { slot with book := slot.book.setSymbol symbol } else slot)
  | none =>
      if BookManager.inUniverse c symbol then
        some { book := ({} : L3Book).setSymbol symbol }
      else none

/-- The entry a message acts on. -/
def ManagerConfig.target (c : ManagerConfig) (msg : Message)
    (e : Option BookEntry) : Option BookEntry :=
  match msg.addSymbol with
  | some symbol => c.ensure symbol e
  | none => e

/-- The trades of a message that finds the entry `e` at its locate code. -/
def printed (e : Option BookEntry) : Message → List Trade
  | .orderExecuted exec =>
      match e with
      | none => []
      | some target =>
          match target.book.orderPrice exec.orderReferenceNumber with
          | none => []
          | some price =>
              [{ timestamp := exec.timestamp
                 stockLocate := exec.stockLocate
                 symbol := target.book.symbol
                 price := ⟨price⟩
                 shares := exec.executedShares.toUInt64
                 matchNumber := exec.matchNumber
                 side := ((target.book.orderSide
                   exec.orderReferenceNumber).map Side.toChar).getD 0
                 printable := true }]
  | .orderExecutedWithPrice exec =>
      match e with
      | none => []
      | some target =>
          [{ timestamp := exec.timestamp
             stockLocate := exec.stockLocate
             symbol := target.book.symbol
             price := ⟨exec.executionPrice⟩
             shares := exec.executedShares.toUInt64
             matchNumber := exec.matchNumber
             side := ((target.book.orderSide
               exec.orderReferenceNumber).map Side.toChar).getD 0
             printable := exec.printable == 'Y'.toUInt8 }]
  | .nonCrossTrade trade =>
      [{ timestamp := trade.timestamp
         stockLocate := trade.stockLocate
         symbol := toString trade.stock
         price := ⟨trade.price⟩
         shares := trade.shares.toUInt64
         matchNumber := trade.matchNumber
         side := trade.buySellIndicator
         printable := true }]
  | .crossTrade cross =>
      [{ timestamp := cross.timestamp
         stockLocate := cross.stockLocate
         symbol := toString cross.stock
         price := ⟨cross.crossPrice⟩
         shares := cross.shares
         matchNumber := cross.matchNumber
         printable := true
         isCross := true
         crossType := cross.crossType }]
  | _ => []

/-- The trades that are delivered. -/
def ManagerConfig.trades (c : ManagerConfig) (e : Option BookEntry)
    (msg : Message) : List BookEvent :=
  if c.hasTradeCallback then (printed e msg).map .trade else []

/-- What a message makes of the entry at its locate code. -/
def ManagerConfig.localStep (c : ManagerConfig) (msg : Message)
    (e : Option BookEntry) : Option BookEntry × List (L3Book × Bbo) :=
  match msg.bookOp, c.target msg e with
  | some op, some slot => (some (slot.apply op), c.emits slot (slot.apply op))
  | _, _ => (e, [])

namespace BookManager

variable {m m' : BookManager} {l k : UInt16} {e : BookEntry} {msg : Message}

theorem entry_eq (m : BookManager) (l : UInt16) :
    m.entry l = m.booksByLocate.getD l.toNat none := by
  rw [entry]
  by_cases h : l.toNat ≥ m.booksByLocate.length
  · rw [if_pos h, List.getD_eq_default _ _ h]
  · rw [if_neg h]

theorem entry_lt (h : m.entry l = some e) :
    l.toNat < m.booksByLocate.length := by
  by_contra hge
  rw [entry, if_pos (not_lt.mp hge)] at h
  cases h

theorem entry_setEntry (h : l.toNat < m.booksByLocate.length) :
    (m.setEntry l e).entry k = if k = l then some e else m.entry k := by
  rw [entry_eq, entry_eq]
  show (m.booksByLocate.set l.toNat (some e)).getD k.toNat none = _
  rw [List.getD_eq_getElem?_getD, List.getElem?_set,
    List.getD_eq_getElem?_getD]
  by_cases hk : k = l
  · rw [if_pos (congrArg UInt16.toNat hk.symm), if_pos h, if_pos hk]
    rfl
  · rw [if_neg fun he => hk (UInt16.toNat_inj.mp he).symm, if_neg hk]

/-- A table can be read as before when it has grown. -/
theorem getD_resize {α : Type} (xs : List α) (n i : ℕ) (x : α) :
    (resize xs n x).getD i x = xs.getD i x := by
  rw [resize]
  by_cases h : i < xs.length
  · rw [List.getD_append _ _ _ _ h]
  · rw [List.getD_append_right _ _ _ _ (not_lt.mp h),
      List.getD_eq_default _ _ (not_lt.mp h), List.getD_eq_getElem?_getD,
      List.getElem?_replicate]
    split <;> rfl

/-- An order message other than an add finds no entry and does nothing. -/
theorem process_none {op : BookOp} (hop : msg.bookOp = some op)
    (hs : msg.addSymbol = none) (he : m.entry msg.stockLocate = none) :
    m.process msg = (m, []) := by
  cases msg
  case addOrder add => cases hs
  case addOrderMPIDAttribution add => cases hs
  case orderExecuted exec =>
    rw [process, handleOrderExecuted,
      show m.entry exec.stockLocate = none from he]
  case orderExecutedWithPrice exec =>
    rw [process, handleOrderExecutedWithPrice,
      show m.entry exec.stockLocate = none from he]
  case orderCancel cancel =>
    rw [process, handleOrderCancel,
      show m.entry cancel.stockLocate = none from he]
  case orderDelete del =>
    rw [process, handleOrderDelete, show m.entry del.stockLocate = none from he]
  case orderReplace replace =>
    rw [process, handleOrderReplace,
      show m.entry replace.stockLocate = none from he]
  all_goals cases hop

theorem trades_nil {c : ManagerConfig} {e : Option BookEntry}
    (h : printed e msg = []) : c.trades e msg = [] := by
  rw [ManagerConfig.trades, h]
  exact ite_self _

/-- It delivers its trades, makes its call on the book it finds, and refreshes
the top. -/
theorem process_some {op : BookOp} (hop : msg.bookOp = some op)
    (hs : msg.addSymbol = none) (he : m.entry msg.stockLocate = some e) :
    m.process msg =
      ((m.emitBboIfChanged msg.stockLocate
          { e with book := (op.onBook e.book).1 }).1,
        m.trades (some e) msg ++ (m.emitBboIfChanged msg.stockLocate
          { e with book := (op.onBook e.book).1 }).2) := by
  cases msg
  case addOrder add => cases hs
  case addOrderMPIDAttribution add => cases hs
  case orderExecuted exec =>
    cases hop
    rw [process, handleOrderExecuted,
      show m.entry exec.stockLocate = some e from he]
    refine Prod.ext rfl (congrArg (· ++ _) ?_)
    simp only [ManagerConfig.trades, printed]
    cases e.book.orderPrice exec.orderReferenceNumber <;> rfl
  case orderExecutedWithPrice exec =>
    cases hop
    rw [process, handleOrderExecutedWithPrice,
      show m.entry exec.stockLocate = some e from he]
    rfl
  case orderCancel cancel =>
    cases hop
    rw [process, handleOrderCancel,
      show m.entry cancel.stockLocate = some e from he, trades_nil rfl]
    rfl
  case orderDelete del =>
    cases hop
    rw [process, handleOrderDelete,
      show m.entry del.stockLocate = some e from he, trades_nil rfl]
    rfl
  case orderReplace replace =>
    cases hop
    rw [process, handleOrderReplace,
      show m.entry replace.stockLocate = some e from he, trades_nil rfl]
    rfl
  all_goals cases hop

/-- A message that makes no call on a book delivers its trades; only a stock
directory message is recorded. -/
theorem process_idle (hop : msg.bookOp = none)
    (hdir : msg.directorySymbol = none) (e : Option BookEntry) :
    m.process msg = (m, m.trades e msg) := by
  cases msg
  case nonCrossTrade trade =>
    rw [process, handleNonCrossTrade, ManagerConfig.trades, ite_not]
    split <;> rfl
  case crossTrade cross =>
    rw [process, handleCrossTrade, ManagerConfig.trades, ite_not]
    split <;> rfl
  case stockDirectory directory => cases hdir
  case addOrder add => cases hop
  case addOrderMPIDAttribution add => cases hop
  case orderExecuted exec => cases hop
  case orderExecutedWithPrice exec => cases hop
  case orderCancel cancel => cases hop
  case orderDelete del => cases hop
  case orderReplace replace => cases hop
  all_goals exact Prod.ext rfl (trades_nil rfl).symm

theorem directorySymbol_of_bookOp {op : BookOp}
    (hop : msg.bookOp = some op) : msg.directorySymbol = none := by
  cases msg
  case stockDirectory directory => cases hop
  all_goals rfl

/-- The step `r` from `m` on `msg` acts on the entry at its locate code as
`localStep` says, and on no other. -/
structure Processed (m : BookManager) (msg : Message)
    (r : BookManager × List BookEvent) : Prop where
  config : r.1.toManagerConfig = m.toManagerConfig
  own : r.1.entry msg.stockLocate =
    (m.localStep msg (m.entry msg.stockLocate)).1
  other : ∀ l, l ≠ msg.stockLocate → r.1.entry l = m.entry l
  symbols : ∀ l, r.1.symbolByLocate.getD l.toNat [] =
    if l = msg.stockLocate then
      msg.directorySymbol.getD (m.symbolByLocate.getD l.toNat [])
    else m.symbolByLocate.getD l.toNat []
  count : r.1.bookCount = m.bookCount +
    if (m.entry msg.stockLocate).isNone ∧
        (r.1.entry msg.stockLocate).isSome then 1 else 0
  bbos : bboEvents msg.stockLocate r.2 =
    (m.localStep msg (m.entry msg.stockLocate)).2
  tagged : ∀ ev ∈ r.2, ev.stockLocate = msg.stockLocate

/-- Trades, all with one locate code. -/
def TradesAt (l : UInt16) (trades : List BookEvent) : Prop :=
  ∀ ev ∈ trades, ∃ t : Trade, ev = .trade t ∧ t.stockLocate = l

theorem TradesAt.bboEvents_append {trades : List BookEvent}
    (h : TradesAt l trades) (events : List BookEvent) :
    bboEvents k (trades ++ events) = bboEvents k events := by
  rw [bboEvents, List.filterMap_append, List.filterMap_eq_nil_iff.mpr]
  · rfl
  · intro ev hev
    obtain ⟨t, rfl, _⟩ := h ev hev
    rfl

theorem TradesAt.bboEvents_eq {trades : List BookEvent}
    (h : TradesAt l trades) : bboEvents k trades = [] := by
  have := h.bboEvents_append (k := k) []
  rwa [List.append_nil] at this

/-- The write and the event at the end of every order handler. -/
theorem emitBboIfChanged_spec (m : BookManager) (l : UInt16)
    (slot : BookEntry) (op : BookOp) : ∃ events,
    m.emitBboIfChanged l { slot with book := (op.onBook slot.book).1 } =
        (m.setEntry l (slot.apply op), events) ∧
      bboEvents l events = m.emits slot (slot.apply op) ∧
      ∀ ev ∈ events, ev.stockLocate = l := by
  rw [emitBboIfChanged]
  by_cases hne : (op.onBook slot.book).1.bbo = slot.lastBbo
  · refine ⟨[], ?_, ?_, by simp⟩
    · rw [if_neg (not_not.mpr hne), BookEntry.apply, hne]
    · rw [ManagerConfig.emits, if_neg fun h => h.1 hne]
      rfl
  · rw [if_pos hne]
    by_cases hc : m.hasBboCallback = true
    · rw [if_pos hc, ManagerConfig.emits, if_pos ⟨hne, hc⟩]
      refine ⟨_, rfl, ?_, ?_⟩
      · simp [bboEvents, BookEntry.apply]
      · intro ev hev
        rw [List.mem_singleton] at hev
        rw [hev]
        rfl
    · rw [if_neg hc, ManagerConfig.emits, if_neg fun h => hc h.2]
      exact ⟨[], rfl, rfl, by simp⟩

/-- A handler that goes on to a book, after the table has been prepared. -/
theorem Processed.of_emit {m₁ : BookManager} {op : BookOp} {slot : BookEntry}
    {trades : List BookEvent} (hop : msg.bookOp = some op)
    (hdir : msg.directorySymbol = none)
    (htarget : m.target msg (m.entry msg.stockLocate) = some slot)
    (hl : msg.stockLocate.toNat < m₁.booksByLocate.length)
    (hconfig : m₁.toManagerConfig = m.toManagerConfig)
    (hother : ∀ l, l ≠ msg.stockLocate → m₁.entry l = m.entry l)
    (hsymbols : m₁.symbolByLocate = m.symbolByLocate)
    (hcount : m₁.bookCount = m.bookCount +
      if (m.entry msg.stockLocate).isNone then 1 else 0)
    (htrades : TradesAt msg.stockLocate trades) :
    Processed m msg
      ((m₁.emitBboIfChanged msg.stockLocate
          { slot with book := (op.onBook slot.book).1 }).1,
        trades ++ (m₁.emitBboIfChanged msg.stockLocate
          { slot with book := (op.onBook slot.book).1 }).2) := by
  obtain ⟨events, heq, hbbos, htagged⟩ := emitBboIfChanged_spec m₁
    msg.stockLocate slot op
  have hlocal : m.localStep msg (m.entry msg.stockLocate) =
      (some (slot.apply op), m.emits slot (slot.apply op)) := by
    rw [ManagerConfig.localStep, hop, htarget]
  have hown : (m₁.setEntry msg.stockLocate (slot.apply op)).entry
      msg.stockLocate = some (slot.apply op) := by
    rw [entry_setEntry hl, if_pos rfl]
  rw [heq]
  refine ⟨hconfig, ?_, ?_, ?_, ?_, ?_, ?_⟩
  · rw [hlocal]
    exact hown
  · intro l hne
    rw [entry_setEntry hl, if_neg hne, hother l hne]
  · intro l
    rw [hdir, Option.getD_none, ite_self]
    exact congrArg (List.getD · l.toNat []) hsymbols
  · simp only [hown, Option.isSome_some, and_true]
    exact hcount
  · rw [hlocal, htrades.bboEvents_append, hbbos, hconfig]
  · intro ev hev
    rcases List.mem_append.mp hev with hev | hev
    · obtain ⟨t, rfl, ht⟩ := htrades ev hev
      exact ht
    · exact htagged ev hev

/-- A handler that leaves the entry alone. -/
theorem Processed.of_idle {trades : List BookEvent}
    (hidle : msg.bookOp = none ∨
      m.target msg (m.entry msg.stockLocate) = none)
    {m₁ : BookManager} (hconfig : m₁.toManagerConfig = m.toManagerConfig)
    (hentry : ∀ l, m₁.entry l = m.entry l)
    (hsymbols : ∀ l, m₁.symbolByLocate.getD l.toNat [] =
      if l = msg.stockLocate then
        msg.directorySymbol.getD (m.symbolByLocate.getD l.toNat [])
      else m.symbolByLocate.getD l.toNat [])
    (hcount : m₁.bookCount = m.bookCount)
    (htrades : TradesAt msg.stockLocate trades) :
    Processed m msg (m₁, trades) := by
  have hlocal : m.localStep msg (m.entry msg.stockLocate) =
      (m.entry msg.stockLocate, []) := by
    rw [ManagerConfig.localStep]
    rcases hidle with h | h
    · rw [h]
    · rw [h]
      cases msg.bookOp <;> rfl
  refine ⟨hconfig, ?_, fun l _ => hentry l, hsymbols, ?_, ?_, ?_⟩
  · rw [hlocal]
    exact hentry _
  · rw [hentry]
    cases m.entry msg.stockLocate <;> simpa using hcount
  · rw [hlocal, htrades.bboEvents_eq]
  · intro ev hev
    obtain ⟨t, rfl, ht⟩ := htrades ev hev
    exact ht

/-- The table after an add message has looked for its entry. -/
structure Ensured (m : BookManager) (l : UInt16) (symbol : Str)
    (m₁ : BookManager) : Prop where
  config : m₁.toManagerConfig = m.toManagerConfig
  size : l.toNat < m₁.booksByLocate.length
  other : ∀ k, k ≠ l → m₁.entry k = m.entry k
  absent : m.ensure symbol (m.entry l) = none → m₁.entry l = m.entry l
  symbols : m₁.symbolByLocate = m.symbolByLocate
  count : m₁.bookCount = m.bookCount +
    if (m.entry l).isNone ∧ (m.ensure symbol (m.entry l)).isSome then 1 else 0

/-- The manager whose table reaches up to the locate `l`. -/
def grown (m : BookManager) (l : UInt16) : BookManager :=
  if l.toNat ≥ m.booksByLocate.length then
    { m with booksByLocate := resize m.booksByLocate (l.toNat + 1) none }
  else m

/-- The table that has grown reads as the old one. -/
theorem grown_spec (m : BookManager) (l : UInt16) :
    (m.grown l).toManagerConfig = m.toManagerConfig ∧
      l.toNat < (m.grown l).booksByLocate.length ∧
      (∀ k, (m.grown l).entry k = m.entry k) ∧
      (m.grown l).symbolByLocate = m.symbolByLocate ∧
      (m.grown l).bookCount = m.bookCount := by
  unfold grown
  by_cases h : l.toNat ≥ m.booksByLocate.length
  · rw [if_pos h]
    refine ⟨rfl, ?_, ?_, rfl, rfl⟩
    · show l.toNat < (resize m.booksByLocate (l.toNat + 1) none).length
      rw [resize, List.length_append, List.length_replicate]
      omega
    · intro k
      rw [entry_eq, entry_eq]
      exact getD_resize ..
  · rw [if_neg h]
    exact ⟨rfl, not_le.mp h, fun _ => rfl, rfl, rfl⟩

theorem ensureEntry_spec (m : BookManager) (l : UInt16) (symbol : Str) :
    ∃ m₁, m.ensureEntry l symbol = (m₁, m.ensure symbol (m.entry l)) ∧
      Ensured m l symbol m₁ := by
  obtain ⟨hconfig, hsize, hentry, hsymbols, hcount⟩ := m.grown_spec l
  rw [ensureEntry, ← grown]
  generalize m.grown l = m₀ at *
  simp only [hentry]
  cases he : m.entry l with
  | some slot =>
      refine ⟨_, rfl, hconfig, ?_, ?_, ?_, hsymbols, ?_⟩
      · simpa [setEntry] using hsize
      · intro k hk
        rw [entry_setEntry hsize, if_neg hk, hentry]
      · intro h
        rw [he] at h
        cases h
      · rw [he]
        exact hcount
  | none =>
      have hc : inUniverse m₀.toManagerConfig symbol =
          inUniverse m.toManagerConfig symbol := by rw [hconfig]
      by_cases hin : inUniverse m.toManagerConfig symbol
      · have hensure : m.ensure symbol none =
            some { book := ({} : L3Book).setSymbol symbol } := by
          rw [ManagerConfig.ensure, if_pos hin]
        rw [if_neg (by rwa [hc, not_not]), hensure]
        refine ⟨_, rfl, hconfig, ?_, ?_, ?_, hsymbols, ?_⟩
        · simpa [setEntry] using hsize
        · intro k hk
          exact (entry_setEntry hsize).trans ((if_neg hk).trans (hentry k))
        · intro h
          rw [he, hensure] at h
          cases h
        · rw [he, hensure]
          simpa using hcount
      · have hensure : m.ensure symbol none = none := by
          rw [ManagerConfig.ensure, if_neg hin]
        rw [if_pos (by rwa [hc]), hensure]
        refine ⟨_, rfl, hconfig, hsize, fun k _ => hentry k,
          fun _ => hentry l, hsymbols, ?_⟩
        rw [he, hensure]
        simpa using hcount

theorem symbols_handleStockDirectory (m : BookManager)
    (directory : StockDirectoryMessage) (l : UInt16) :
    (m.handleStockDirectory directory).1.symbolByLocate.getD l.toNat [] =
      if l = directory.stockLocate then toString directory.stock
      else m.symbolByLocate.getD l.toNat [] := by
  rw [handleStockDirectory]
  simp only [List.getD_eq_getElem?_getD, List.getElem?_set]
  by_cases hl : l = directory.stockLocate
  · rw [if_pos (congrArg UInt16.toNat hl.symm), if_pos hl, if_pos]
    · rfl
    · split
      · rw [resize, List.length_append, List.length_replicate]
        omega
      · omega
  · rw [if_neg fun h => hl (UInt16.toNat_inj.mp h).symm, if_neg hl]
    split
    · rw [← List.getD_eq_getElem?_getD, getD_resize,
        List.getD_eq_getElem?_getD]
    · rfl

theorem Processed.of_add {ref : UInt64} {buySell : UInt8} {shares : UInt32}
    {stock : Chars 8} {price : UInt32}
    (hop : msg.bookOp = some (.addOrder ref (toSide buySell) shares price))
    (hdir : msg.directorySymbol = none)
    (hsymbol : msg.addSymbol = some (toString stock)) :
    Processed m msg
      (m.handleAddOrder msg.stockLocate ref buySell shares stock price) := by
  obtain ⟨m₁, heq, hE⟩ :=
    ensureEntry_spec m msg.stockLocate (toString stock)
  have htarget : m.target msg (m.entry msg.stockLocate) =
      m.ensure (toString stock) (m.entry msg.stockLocate) := by
    rw [ManagerConfig.target, hsymbol]
  rw [handleAddOrder, heq]
  cases ha : m.ensure (toString stock) (m.entry msg.stockLocate) with
  | none =>
      refine Processed.of_idle (Or.inr (htarget.trans ha)) hE.config ?_ ?_ ?_
        (by simp [TradesAt])
      · intro l
        by_cases hl : l = msg.stockLocate
        · rw [hl]
          exact hE.absent ha
        · exact hE.other l hl
      · intro l
        rw [hE.symbols, hdir, Option.getD_none, ite_self]
      · rw [hE.count, ha]
        simp
  | some slot =>
      refine @Processed.of_emit _ _ _ _ _ [] hop hdir (htarget.trans ha) hE.size
        hE.config hE.other hE.symbols ?_ (by simp [TradesAt])
      rw [hE.count, ha]
      simp

/-- The trades of a message carry its locate code. -/
theorem tradesAt_trades (c : ManagerConfig) (e : Option BookEntry)
    (msg : Message) : TradesAt msg.stockLocate (c.trades e msg) := by
  intro ev hev
  rw [ManagerConfig.trades] at hev
  split at hev
  · obtain ⟨t, ht, rfl⟩ := List.mem_map.mp hev
    refine ⟨t, rfl, ?_⟩
    cases msg
    case orderExecuted exec =>
      simp only [printed] at ht
      split at ht
      · cases ht
      · split at ht
        · cases ht
        · rw [List.mem_singleton.mp ht]
          rfl
    case orderExecutedWithPrice exec =>
      simp only [printed] at ht
      split at ht
      · cases ht
      · rw [List.mem_singleton.mp ht]
        rfl
    case nonCrossTrade trade =>
      rw [List.mem_singleton.mp ht]
      rfl
    case crossTrade cross =>
      rw [List.mem_singleton.mp ht]
      rfl
    all_goals cases ht
  · cases hev

/-- A handler that has nothing to do without an entry. -/
theorem Processed.of_entry {op : BookOp} (hop : msg.bookOp = some op)
    (hs : msg.addSymbol = none) : Processed m msg (m.process msg) := by
  have hdir := directorySymbol_of_bookOp hop
  have htarget : m.target msg (m.entry msg.stockLocate) =
      m.entry msg.stockLocate := by
    rw [ManagerConfig.target, hs]
  cases he : m.entry msg.stockLocate with
  | none =>
      rw [process_none hop hs he]
      exact Processed.of_idle (Or.inr (htarget.trans he)) rfl (fun _ => rfl)
        (fun _ => by rw [hdir, Option.getD_none, ite_self]) rfl
        (by simp [TradesAt])
  | some slot =>
      rw [process_some hop hs he]
      refine Processed.of_emit hop hdir (htarget.trans he) (entry_lt he) rfl
        (fun _ _ => rfl) rfl ?_ (tradesAt_trades _ _ _)
      rw [he]
      rfl

/-- Every message is processed as `localStep` says. -/
theorem processed (m : BookManager) (msg : Message) :
    Processed m msg (m.process msg) := by
  cases hs : msg.addSymbol with
  | some symbol =>
      cases msg
      case addOrder add => exact Processed.of_add rfl rfl rfl
      case addOrderMPIDAttribution add => exact Processed.of_add rfl rfl rfl
      all_goals cases hs
  | none =>
      cases hop : msg.bookOp with
      | some op => exact Processed.of_entry hop hs
      | none =>
          cases hdir : msg.directorySymbol with
          | none =>
              rw [process_idle hop hdir none]
              exact Processed.of_idle (Or.inl hop) rfl (fun _ => rfl)
                (fun _ => by rw [hdir, Option.getD_none, ite_self]) rfl
                (tradesAt_trades _ _ _)
          | some symbol =>
              cases msg
              case stockDirectory directory =>
                exact Processed.of_idle (Or.inl rfl) rfl (fun _ => rfl)
                  (symbols_handleStockDirectory m directory) rfl
                  (by simp [TradesAt])
              all_goals cases hdir

/-! ## §2  The BBO events are exact -/

/-- The top of a book as last cached; that of the empty book without one. -/
def cachedBbo (e : Option BookEntry) : Bbo := (e.map (·.lastBbo)).getD {}

theorem cachedBbo_target {c : ManagerConfig} {e : Option BookEntry}
    {slot : BookEntry} (h : c.target msg e = some slot) :
    slot.lastBbo = cachedBbo e := by
  rw [ManagerConfig.target] at h
  cases hs : msg.addSymbol with
  | none =>
      rw [hs] at h
      rw [show e = some slot from h]
      rfl
  | some symbol =>
      rw [hs] at h
      cases e with
      | some slot' =>
          obtain rfl := Option.some.inj h
          show (if _ then _ else _ : BookEntry).lastBbo = slot'.lastBbo
          split <;> rfl
      | none =>
          simp only [ManagerConfig.ensure] at h
          split at h
          · rw [← Option.some.inj h]
            rfl
          · cases h

/-- The two ways in which a message acts on the entry of its book. -/
theorem localStep_cases (c : ManagerConfig) (msg : Message)
    (e : Option BookEntry) :
    (∃ op slot, msg.bookOp = some op ∧ c.target msg e = some slot ∧
      c.localStep msg e = (some (slot.apply op), c.emits slot (slot.apply op)))
    ∨ c.localStep msg e = (e, []) := by
  rw [ManagerConfig.localStep]
  cases hop : msg.bookOp with
  | none => exact Or.inr rfl
  | some op =>
      cases ht : c.target msg e with
      | none => exact Or.inr rfl
      | some slot => exact Or.inl ⟨op, slot, rfl, rfl, rfl⟩

theorem bboEvents_append (l : UInt16) (events events' : List BookEvent) :
    bboEvents l (events ++ events') =
      bboEvents l events ++ bboEvents l events' := List.filterMap_append ..

theorem bboEvents_other {events : List BookEvent}
    (h : ∀ ev ∈ events, ev.stockLocate = k) (hne : k ≠ l) :
    bboEvents l events = [] := by
  rw [bboEvents, List.filterMap_eq_nil_iff]
  intro ev hev
  cases ev with
  | bbo l' book bbo =>
      obtain rfl : l' = k := h _ hev
      exact if_neg hne
  | trade t => rfl

/-- A step of the manager, seen from the book at `l`. -/
theorem process_at (m : BookManager) (msg : Message) (l : UInt16) :
    ((m.process msg).1.entry l, bboEvents l (m.process msg).2) =
      if l = msg.stockLocate then m.localStep msg (m.entry l)
      else (m.entry l, []) := by
  have hP := processed m msg
  by_cases hl : l = msg.stockLocate
  · rw [if_pos hl, hl]
    exact Prod.ext hP.own hP.bbos
  · rw [if_neg hl, hP.other l hl, bboEvents_other hP.tagged (Ne.symm hl)]

/-- What has been delivered for the book at `l` and what is cached there. -/
structure StreamOk (l : UInt16) (m : BookManager)
    (events : List BookEvent) : Prop where
  installed : m.hasBboCallback = true
  cached : ∀ slot, m.entry l = some slot → slot.lastBbo = slot.book.bbo
  last : ((bboEvents l events).map (·.2)).getLastD {} = cachedBbo (m.entry l)
  silent : m.entry l = none → bboEvents l events = []
  chain : List.IsChain (· ≠ ·) ({} :: (bboEvents l events).map (·.2))

theorem isChain_snoc {α : Type} {R : α → α → Prop} {x y : α} {xs : List α}
    (h : List.IsChain R (x :: xs)) (hy : R (xs.getLastD x) y) :
    List.IsChain R (x :: (xs ++ [y])) := by
  rw [← List.cons_append, List.isChain_append]
  refine ⟨h, List.isChain_singleton y, ?_⟩
  intro a ha b hb
  rw [List.getLast?_cons, Option.mem_some_iff] at ha
  rw [List.head?_cons, Option.mem_some_iff] at hb
  rw [← ha, ← hb, ← List.getLastD_eq_getLast?]
  exact hy

/-- A step that leaves the entry alone and delivers nothing for it. -/
theorem StreamOk.idle {events events' : List BookEvent}
    (h : StreamOk l m events) (hinst : m'.hasBboCallback = true)
    (hentry : m'.entry l = m.entry l) (hbbos : bboEvents l events' = []) :
    StreamOk l m' (events ++ events') := by
  have hall : bboEvents l (events ++ events') = bboEvents l events := by
    rw [bboEvents_append, hbbos, List.append_nil]
  constructor
  · exact hinst
  · rw [hentry]
    exact h.cached
  · rw [hall, hentry]
    exact h.last
  · rw [hall, hentry]
    exact h.silent
  · rw [hall]
    exact h.chain

/-- A call on the book: its top is cached, and delivered if it is new. -/
theorem StreamOk.call {events events' : List BookEvent}
    (h : StreamOk l m events) (hinst : m'.hasBboCallback = true)
    {slot : BookEntry} {op : BookOp}
    (hslot : slot.lastBbo = cachedBbo (m.entry l))
    (hentry : m'.entry l = some (slot.apply op))
    (hbbos : bboEvents l events' = m.emits slot (slot.apply op)) :
    StreamOk l m' (events ++ events') := by
  have hlast : ((bboEvents l events).map (·.2)).getLastD {} = slot.lastBbo :=
    h.last.trans hslot.symm
  have hcached : ∀ slot', m'.entry l = some slot' →
      slot'.lastBbo = slot'.book.bbo := by
    intro slot' he
    rw [hentry] at he
    rw [← Option.some.inj he]
    rfl
  have hsome : m'.entry l ≠ none := by
    rw [hentry]
    exact Option.some_ne_none _
  by_cases hne : (slot.apply op).lastBbo = slot.lastBbo
  · -- the top is the one delivered before
    rw [ManagerConfig.emits, if_neg fun hc => hc.1 hne] at hbbos
    have hall : bboEvents l (events ++ events') = bboEvents l events := by
      rw [bboEvents_append, hbbos, List.append_nil]
    refine ⟨hinst, hcached, ?_, fun he => absurd he hsome, ?_⟩
    · rw [hall, hlast, hentry]
      exact hne.symm
    · rw [hall]
      exact h.chain
  · rw [ManagerConfig.emits, if_pos ⟨hne, h.installed⟩] at hbbos
    have hall : (bboEvents l (events ++ events')).map (·.2) =
        (bboEvents l events).map (·.2) ++ [(slot.apply op).lastBbo] := by
      rw [bboEvents_append, hbbos, List.map_append]
      rfl
    refine ⟨hinst, hcached, ?_, fun he => absurd he hsome, ?_⟩
    · rw [hall, hentry, List.getLastD_concat]
      rfl
    · rw [hall]
      refine isChain_snoc h.chain ?_
      rw [hlast]
      exact Ne.symm hne

theorem StreamOk.step {events : List BookEvent} (h : StreamOk l m events)
    (msg : Message) :
    StreamOk l (m.process msg).1 (events ++ (m.process msg).2) := by
  have hinst : (m.process msg).1.hasBboCallback = true :=
    (congrArg ManagerConfig.hasBboCallback (processed m msg).config).trans
      h.installed
  have hat := process_at m msg l
  by_cases hl : l = msg.stockLocate
  · rw [if_pos hl] at hat
    rcases localStep_cases m.toManagerConfig msg (m.entry l) with
      ⟨op, slot, _, htarget, hstep⟩ | hstep
    · rw [hstep] at hat
      obtain ⟨hentry, hbbos⟩ := Prod.mk.inj hat
      exact h.call hinst (cachedBbo_target htarget) hentry hbbos
    · rw [hstep] at hat
      obtain ⟨hentry, hbbos⟩ := Prod.mk.inj hat
      exact h.idle hinst hentry hbbos
  · rw [if_neg hl] at hat
    obtain ⟨hentry, hbbos⟩ := Prod.mk.inj hat
    exact h.idle hinst hentry hbbos

open Transducer

def BookEvent.isBbo : BookEvent → Bool
  | .bbo _ _ _ => true
  | .trade _ => false

/-- A step delivers at most one top, whatever the book. -/
theorem length_isBbo_le (m : BookManager) (msg : Message) :
    ((m.process msg).2.filter BookEvent.isBbo).length ≤ 1 := by
  have hcount : ∀ events : List BookEvent,
      (∀ ev ∈ events, ev.stockLocate = msg.stockLocate) →
      (events.filter BookEvent.isBbo).length =
        (bboEvents msg.stockLocate events).length := by
    intro events
    induction events with
    | nil => intro _; rfl
    | cons ev events ih =>
        intro h
        have ih' := ih fun ev' hev => h ev' (List.mem_cons_of_mem _ hev)
        cases ev with
        | bbo l book bbo =>
            obtain rfl : l = msg.stockLocate := h _ List.mem_cons_self
            rw [List.filter_cons_of_pos rfl, List.length_cons, ih']
            simp [bboEvents]
        | trade t => exact ih'
  have hP := processed m msg
  rw [hcount _ hP.tagged, hP.bbos]
  rcases localStep_cases m.toManagerConfig msg (m.entry msg.stockLocate) with
    ⟨op, slot, _, _, hstep⟩ | hstep
  · rw [hstep, ManagerConfig.emits]
    split <;> simp
  · rw [hstep]
    simp

/-- **The BBO event stream is exact.** With the callback installed from the
start, the top delivered last for a book is its top, the one of the empty book
if none was delivered; a message delivers one top at most; and tops delivered
in a row for the same book differ. -/
theorem bbo_stream_exact (c : ManagerConfig) (hc : c.hasBboCallback = true)
    (msgs : List Message) (l : UInt16) :
    ((bboEvents l (run process { toManagerConfig := c } msgs).2).map
        (·.2)).getLastD {} =
      (((run process { toManagerConfig := c } msgs).1.book l).map
        L3Book.bbo).getD {} ∧
    ((run process { toManagerConfig := c } msgs).1.book l = none →
      bboEvents l (run process { toManagerConfig := c } msgs).2 = []) ∧
    List.IsChain (· ≠ ·) ({} ::
      (bboEvents l (run process { toManagerConfig := c } msgs).2).map
        (·.2)) ∧
    ∀ pre msg, pre ++ [msg] <+: msgs →
      ((process (run process { toManagerConfig := c } pre).1 msg).2.filter
        BookEvent.isBbo).length ≤ 1 := by
  have hstart : StreamOk l { toManagerConfig := c } [] :=
    ⟨hc, fun _ h => (Option.some_ne_none _ h.symm).elim, rfl, fun _ => rfl,
      List.isChain_singleton _⟩
  have h : StreamOk l (run process { toManagerConfig := c } msgs).1
      (run process { toManagerConfig := c } msgs).2 :=
    run_history (fun _ _ msg h => h.step msg) hstart msgs
  refine ⟨?_, ?_, h.chain, fun pre msg _ => length_isBbo_le _ msg⟩
  · rw [h.last, book]
    cases he : (run process { toManagerConfig := c } msgs).1.entry l with
    | none => rfl
    | some slot => exact h.cached slot he
  · intro hnone
    rw [book, Option.map_eq_none_iff] at hnone
    exact h.silent hnone

/-- One order, executed twice: the top moves with each message. -/
def oneOrder : List Message :=
  [.addOrder { stockLocate := 3, orderReferenceNumber := 1
               buySellIndicator := 'B'.toUInt8, shares := 100, price := 20
               stock := ⟨[73, 84, 67, 72, 32, 32, 32, 32], rfl⟩ },
    .orderExecuted { stockLocate := 3, orderReferenceNumber := 1
                     executedShares := 40 },
    .orderExecuted { stockLocate := 3, orderReferenceNumber := 1
                     executedShares := 60 }]

theorem bbo_stream_exact_oneOrder :
    List.IsChain (· ≠ ·) ({} ::
      (bboEvents 3 (run process
        { hasBboCallback := true, hasTradeCallback := true } oneOrder).2).map
        (·.2)) :=
  (bbo_stream_exact { hasBboCallback := true, hasTradeCallback := true } rfl
    oneOrder 3).2.2.1

/-! ## §3  Securities do not interfere -/

/-- Two managers look alike from the locate code `l`. -/
structure SameAt (l : UInt16) (m m' : BookManager) : Prop where
  config : m.toManagerConfig = m'.toManagerConfig
  entry : m.entry l = m'.entry l
  symbol : m.symbolByLocate.getD l.toNat [] =
    m'.symbolByLocate.getD l.toNat []

theorem emitBboIfChanged_congr (hc : m.toManagerConfig = m'.toManagerConfig)
    (l : UInt16) (slot : BookEntry) :
    (m.emitBboIfChanged l slot).2 = (m'.emitBboIfChanged l slot).2 := by
  have hcb := congrArg ManagerConfig.hasBboCallback hc
  rw [emitBboIfChanged, emitBboIfChanged, hcb]
  split <;> rfl

theorem handleAddOrder_congr (hc : m.toManagerConfig = m'.toManagerConfig)
    (he : m.entry l = m'.entry l) (ref : UInt64) (buySell : UInt8)
    (shares : UInt32) (stock : Chars 8) (price : UInt32) :
    (m.handleAddOrder l ref buySell shares stock price).2 =
      (m'.handleAddOrder l ref buySell shares stock price).2 := by
  obtain ⟨m₁, heq, hE⟩ := ensureEntry_spec m l (toString stock)
  obtain ⟨m₁', heq', hE'⟩ := ensureEntry_spec m' l (toString stock)
  have hensure : m.ensure (toString stock) (m.entry l) =
      m'.ensure (toString stock) (m'.entry l) := by rw [hc, he]
  rw [handleAddOrder, handleAddOrder, heq, heq', hensure]
  cases m'.ensure (toString stock) (m'.entry l) with
  | none => rfl
  | some slot =>
      apply emitBboIfChanged_congr
      rw [hE.config, hE'.config, hc]

/-- What a message delivers depends on what it can see. -/
theorem process_congr (h : SameAt msg.stockLocate m m') :
    (m.process msg).2 = (m'.process msg).2 := by
  obtain ⟨hc, he, -⟩ := h
  have htrades : m.trades = m'.trades := by rw [hc]
  cases hs : msg.addSymbol with
  | some symbol =>
      cases msg
      case addOrder add => exact handleAddOrder_congr hc he ..
      case addOrderMPIDAttribution add => exact handleAddOrder_congr hc he ..
      all_goals cases hs
  | none =>
      cases hop : msg.bookOp with
      | some op =>
          cases he' : m'.entry msg.stockLocate with
          | none =>
              rw [process_none hop hs (he.trans he'), process_none hop hs he']
          | some slot =>
              rw [process_some hop hs (he.trans he'), process_some hop hs he',
                htrades]
              exact congrArg (_ ++ ·) (emitBboIfChanged_congr hc _ _)
      | none =>
          cases hdir : msg.directorySymbol with
          | none =>
              rw [process_idle hop hdir none, process_idle hop hdir none,
                htrades]
          | some symbol =>
              cases msg
              case stockDirectory directory => rfl
              all_goals cases hdir

theorem unwinding : Unwinding process Message.stockLocate
    BookEvent.stockLocate SameAt where
  consistent {m m' msg} h := by
    have hP := processed m msg
    have hP' := processed m' msg
    refine ⟨⟨?_, ?_, ?_⟩, process_congr h⟩
    · rw [hP.config, hP'.config, h.config]
    · rw [hP.own, hP'.own, h.config, h.entry]
    · rw [hP.symbols, hP'.symbols, if_pos rfl, if_pos rfl, h.symbol]
  respects {l m m' msg} hne h := by
    have hP := processed m msg
    refine ⟨?_, ?_, ?_⟩
    · rw [hP.config, h.config]
    · rw [hP.other l (Ne.symm hne), h.entry]
    · rw [hP.symbols, if_neg (Ne.symm hne), h.symbol]
  tagged {m msg _} hev := (processed m msg).tagged _ hev

/-- Two runs end alike for the security at `l`, and have delivered the same
for it. -/
structure SameResults (l : UInt16) (r r' : BookManager × List BookEvent) :
    Prop where
  book : r.1.book l = r'.1.book l
  symbolForLocate : r.1.symbolForLocate l = r'.1.symbolForLocate l
  events : r.2.filter (fun ev => decide (ev.stockLocate = l)) =
    r'.2.filter (fun ev => decide (ev.stockLocate = l))

/-- **Securities do not interfere.** A manager fed all messages and one fed
only those with locate code `l` end with the same book and symbol for `l` and
have delivered the same BBO and trade events. Hence two interleavings of the
same streams do. -/
theorem securities_do_not_interfere (c : ManagerConfig) (l : UInt16) :
    (∀ msgs : List Message, SameResults l
      (run process { toManagerConfig := c } msgs)
      (run process { toManagerConfig := c }
        (msgs.filter (fun msg => decide (msg.stockLocate = l))))) ∧
    ∀ msgs msgs' : List Message,
      msgs.filter (fun msg => decide (msg.stockLocate = l)) =
        msgs'.filter (fun msg => decide (msg.stockLocate = l)) →
      SameResults l (run process { toManagerConfig := c } msgs)
        (run process { toManagerConfig := c } msgs') := by
  have hpurge : ∀ msgs : List Message, SameResults l
      (run process { toManagerConfig := c } msgs)
      (run process { toManagerConfig := c }
        (msgs.filter (fun msg => decide (msg.stockLocate = l)))) := by
    intro msgs
    obtain ⟨hsame, hevents⟩ := unwinding.purge (k := l)
      (⟨rfl, rfl, rfl⟩ : SameAt l { toManagerConfig := c } _) msgs
    refine ⟨?_, ?_, ?_⟩
    · rw [book, book, hsame.entry]
    · rw [symbolForLocate, symbolForLocate, hsame.entry, hsame.symbol]
    · rw [← hevents, List.filter_filter]
      simp
  refine ⟨hpurge, fun msgs msgs' h => ?_⟩
  have h₁ := hpurge msgs
  have h₂ := hpurge msgs'
  rw [h] at h₁
  exact ⟨h₁.book.trans h₂.book.symm,
    h₁.symbolForLocate.trans h₂.symbolForLocate.symm,
    h₁.events.trans h₂.events.symm⟩

theorem securities_do_not_interfere_swapped :
    SameResults 3
      (run process {} (oneOrder ++ [.orderDelete { stockLocate := 4 }]))
      (run process {} (.orderDelete { stockLocate := 4 } :: oneOrder)) :=
  (securities_do_not_interfere {} 3).2 _ _ rfl

/-! ## §4  A universe only hides books -/

/-- A manager in which `track_symbol` has been called for each of `symbols`,
before anything was processed. -/
def tracking (symbols : List Str) (hasBboCallback hasTradeCallback : Bool) :
    BookManager :=
  symbols.foldl trackSymbol
    { hasBboCallback := hasBboCallback, hasTradeCallback := hasTradeCallback }

/-- The locate codes of the add messages whose symbol is tracked. -/
def trackedLocates (symbols : List Str) (msgs : List Message) :
    Finset UInt16 :=
  ((msgs.filter (fun msg => msg.addSymbol.any (· ∈ symbols))).map
    Message.stockLocate).toFinset

/-- Add messages with the same locate code carry the same symbol. -/
def ConsistentSymbols (msgs : List Message) : Prop :=
  ∀ msg ∈ msgs, ∀ msg' ∈ msgs, msg.stockLocate = msg'.stockLocate →
    ∀ symbol symbol', msg.addSymbol = some symbol →
      msg'.addSymbol = some symbol' → symbol = symbol'

theorem foldl_trackSymbol (symbols : List Str) (m : BookManager) :
    symbols.foldl trackSymbol m =
      { m with trackedUniverse := m.trackedUniverse ∪ symbols.toFinset } := by
  induction symbols generalizing m with
  | nil => simp
  | cons symbol symbols ih =>
      rw [List.foldl_cons, ih, trackSymbol, List.toFinset_cons]
      simp only [Finset.union_insert, Finset.insert_union]

theorem tracking_eq (symbols : List Str) (b t : Bool) :
    tracking symbols b t =
      { trackedUniverse := symbols.toFinset
        hasBboCallback := b
        hasTradeCallback := t } := by
  rw [tracking, foldl_trackSymbol]
  simp only [Finset.empty_union]

theorem inUniverse_tracking {symbols : List Str} (hne : symbols ≠ [])
    {c : ManagerConfig} (hc : c.trackedUniverse = symbols.toFinset)
    (symbol : Str) : inUniverse c symbol ↔ symbol ∈ symbols := by
  have hne' : symbols.toFinset ≠ ∅ := by
    rwa [Ne, List.toFinset_eq_empty_iff]
  rw [inUniverse, hc, List.mem_toFinset]
  exact or_iff_right hne'

/-- Two universes that agree about the symbol of a message. -/
theorem localStep_congr {c c' : ManagerConfig} {msg : Message}
    (hcb : c.hasBboCallback = c'.hasBboCallback)
    (h : ∀ symbol, msg.addSymbol = some symbol →
      (inUniverse c symbol ↔ inUniverse c' symbol)) (e : Option BookEntry) :
    c.localStep msg e = c'.localStep msg e := by
  have htarget : c.target msg e = c'.target msg e := by
    rw [ManagerConfig.target, ManagerConfig.target]
    cases hs : msg.addSymbol with
    | none => rfl
    | some symbol =>
        cases e with
        | some slot => rfl
        | none =>
            simp only [ManagerConfig.ensure, h symbol hs]
  have hemits : c.emits = c'.emits := by
    funext slot slot'
    rw [ManagerConfig.emits, ManagerConfig.emits, hcb]
  rw [ManagerConfig.localStep, ManagerConfig.localStep, htarget, hemits]

/-- Without an entry, and without a symbol to create one for, a message does
nothing. -/
theorem localStep_none {c : ManagerConfig} {msg : Message}
    (h : ∀ symbol, msg.addSymbol = some symbol → ¬ inUniverse c symbol) :
    c.localStep msg none = (none, []) := by
  have htarget : c.target msg none = none := by
    rw [ManagerConfig.target]
    cases hs : msg.addSymbol with
    | none => rfl
    | some symbol => exact if_neg (h symbol hs)
  rw [ManagerConfig.localStep, htarget]
  cases msg.bookOp <;> rfl

theorem bookOp_of_addSymbol {msg : Message} {symbol : Str}
    (h : msg.addSymbol = some symbol) : ∃ op, msg.bookOp = some op := by
  cases msg
  case addOrder add => exact ⟨_, rfl⟩
  case addOrderMPIDAttribution add => exact ⟨_, rfl⟩
  all_goals cases h

/-- When there is an entry after a message. -/
theorem isSome_localStep (c : ManagerConfig) (msg : Message)
    (e : Option BookEntry) : (c.localStep msg e).1.isSome ↔
      e.isSome ∨ ∃ symbol, msg.addSymbol = some symbol ∧
        inUniverse c symbol := by
  cases e with
  | some slot =>
      refine iff_of_true ?_ (Or.inl rfl)
      rcases localStep_cases c msg (some slot) with ⟨op, slot', _, _, h⟩ | h
      · rw [h]
        rfl
      · rw [h]
        rfl
  | none =>
      by_cases hin : ∃ symbol, msg.addSymbol = some symbol ∧ inUniverse c symbol
      · refine iff_of_true ?_ (Or.inr hin)
        obtain ⟨symbol, hs, hu⟩ := hin
        obtain ⟨op, hop⟩ := bookOp_of_addSymbol hs
        have htarget : c.target msg none =
            some { book := ({} : L3Book).setSymbol symbol } := by
          rw [ManagerConfig.target, hs]
          exact if_pos hu
        rw [ManagerConfig.localStep, hop, htarget]
        rfl
      · refine iff_of_false ?_ (by simpa using hin)
        rw [localStep_none fun symbol hs hu => hin ⟨symbol, hs, hu⟩]
        simp

theorem config_run (m : BookManager) (msgs : List Message) :
    (run process m msgs).1.toManagerConfig = m.toManagerConfig :=
  run_invariant (fun m' msg h => (processed m' msg).config.trans h) rfl msgs

/-- The last step of a run, seen from the book at `l`. -/
theorem run_snoc_at (m : BookManager) (msgs : List Message) (msg : Message)
    (l : UInt16) :
    ((run process m (msgs ++ [msg])).1.entry l,
      bboEvents l (run process m (msgs ++ [msg])).2) =
    if l = msg.stockLocate then
      ((m.localStep msg ((run process m msgs).1.entry l)).1,
        bboEvents l (run process m msgs).2 ++
          (m.localStep msg ((run process m msgs).1.entry l)).2)
    else ((run process m msgs).1.entry l,
      bboEvents l (run process m msgs).2) := by
  have hat := process_at (run process m msgs).1 msg l
  rw [config_run] at hat
  rw [run_snoc, bboEvents_append]
  by_cases hl : l = msg.stockLocate
  · rw [if_pos hl] at hat ⊢
    rw [← hat]
  · rw [if_neg hl] at hat ⊢
    obtain ⟨hentry, hbbos⟩ := Prod.mk.inj hat
    rw [hentry, hbbos, List.append_nil]

section Universe

variable {symbols : List Str} {b t : Bool} {msgs : List Message}

/-- Where the universe lets every add message through, it makes no
difference. -/
theorem run_kept (hne : symbols ≠ [])
    (hkept : ∀ msg ∈ msgs, msg.stockLocate = l → ∀ symbol,
      msg.addSymbol = some symbol → symbol ∈ symbols) :
    ((run process (tracking symbols b t) msgs).1.entry l,
        bboEvents l (run process (tracking symbols b t) msgs).2) =
      ((run process (tracking [] b t) msgs).1.entry l,
        bboEvents l (run process (tracking [] b t) msgs).2) := by
  induction msgs using List.reverseRecOn with
  | nil =>
      rw [tracking_eq, tracking_eq]
      rfl
  | append_singleton msgs msg ih =>
      have ih := ih fun msg hm => hkept msg (List.mem_append_left _ hm)
      obtain ⟨hentry, hbbos⟩ := Prod.mk.inj ih
      rw [run_snoc_at, run_snoc_at, hentry, hbbos]
      by_cases hl : l = msg.stockLocate
      · have hlocal : ∀ e, (tracking symbols b t).localStep msg e =
            (tracking [] b t).localStep msg e := by
          refine localStep_congr ?_ fun symbol hs => iff_of_true ?_ ?_
          · rw [tracking_eq, tracking_eq]
          · rw [tracking_eq]
            exact (inUniverse_tracking hne rfl symbol).mpr
              (hkept msg (by simp) hl.symm symbol hs)
          · rw [tracking_eq]
            exact Or.inl rfl
        rw [if_pos hl, if_pos hl, hlocal]
      · rw [if_neg hl, if_neg hl]

/-- Where it lets none through, there is no book. -/
theorem run_hidden (hne : symbols ≠ [])
    (hhidden : ∀ msg ∈ msgs, msg.stockLocate = l → ∀ symbol,
      msg.addSymbol = some symbol → symbol ∉ symbols) :
    ((run process (tracking symbols b t) msgs).1.entry l,
        bboEvents l (run process (tracking symbols b t) msgs).2) =
      (none, []) := by
  induction msgs using List.reverseRecOn with
  | nil =>
      rw [tracking_eq]
      rfl
  | append_singleton msgs msg ih =>
      have ih := ih fun msg hm => hhidden msg (List.mem_append_left _ hm)
      obtain ⟨hentry, hbbos⟩ := Prod.mk.inj ih
      rw [run_snoc_at, hentry, hbbos]
      by_cases hl : l = msg.stockLocate
      · rw [if_pos hl, localStep_none]
        · rfl
        · intro symbol hs
          rw [tracking_eq, inUniverse_tracking hne rfl]
          exact hhidden msg (by simp) hl.symm symbol hs
      · rw [if_neg hl]

theorem mem_trackedLocates : l ∈ trackedLocates symbols msgs ↔
    ∃ msg ∈ msgs, msg.stockLocate = l ∧
      ∃ symbol ∈ symbols, msg.addSymbol = some symbol := by
  simp only [trackedLocates, List.mem_toFinset, List.mem_map, List.mem_filter,
    Option.any_eq_true, decide_eq_true_eq]
  constructor
  · rintro ⟨msg, ⟨hm, symbol, hs, hmem⟩, hl⟩
    exact ⟨msg, hm, hl, symbol, hmem, hs⟩
  · rintro ⟨msg, hm, hl, symbol, hmem, hs⟩
    exact ⟨msg, ⟨hm, symbol, hs, hmem⟩, hl⟩

theorem trackedLocates_snoc (symbols : List Str) (msgs : List Message)
    (msg : Message) : trackedLocates symbols (msgs ++ [msg]) =
      if ∃ symbol ∈ symbols, msg.addSymbol = some symbol then
        insert msg.stockLocate (trackedLocates symbols msgs)
      else trackedLocates symbols msgs := by
  ext l
  rw [mem_trackedLocates]
  simp only [List.mem_append, List.mem_singleton, or_and_right, exists_or,
    exists_eq_left]
  rw [← mem_trackedLocates]
  split_ifs with h
  · rw [Finset.mem_insert, and_iff_left h, or_comm, eq_comm]
  · rw [or_iff_left fun h' => h h'.2]

/-- Which books there are, and how many. -/
theorem run_count (hne : symbols ≠ []) (b t : Bool) (msgs : List Message) :
    (∀ l, ((run process (tracking symbols b t) msgs).1.entry l).isSome ↔
      l ∈ trackedLocates symbols msgs) ∧
    (run process (tracking symbols b t) msgs).1.bookCount =
      (trackedLocates symbols msgs).card := by
  induction msgs using List.reverseRecOn with
  | nil =>
      rw [tracking_eq]
      simp [trackedLocates, entry]
  | append_singleton msgs msg ih =>
      obtain ⟨hsome, hcount⟩ := ih
      have huniverse : (∃ symbol, msg.addSymbol = some symbol ∧
          inUniverse (tracking symbols b t).toManagerConfig symbol) ↔
          ∃ symbol ∈ symbols, msg.addSymbol = some symbol := by
        refine exists_congr fun symbol => ?_
        rw [tracking_eq, inUniverse_tracking hne rfl, and_comm]
      have hsome' : ∀ l,
          ((run process (tracking symbols b t) (msgs ++ [msg])).1.entry
            l).isSome ↔ l ∈ trackedLocates symbols (msgs ++ [msg]) := by
        intro l
        have hat := congrArg Prod.fst
          (run_snoc_at (tracking symbols b t) msgs msg l)
        rw [show (run process (tracking symbols b t) (msgs ++ [msg])).1.entry
          l = _ from hat, trackedLocates_snoc]
        by_cases hl : l = msg.stockLocate
        · rw [if_pos hl, isSome_localStep, hsome, huniverse]
          split_ifs with h
          · rw [hl]
            exact iff_of_true (Or.inr h) (Finset.mem_insert_self _ _)
          · exact or_iff_left h
        · rw [if_neg hl, hsome]
          split_ifs with h
          · rw [Finset.mem_insert, or_iff_right hl]
          · exact Iff.rfl
      refine ⟨hsome', ?_⟩
      have hown := hsome' msg.stockLocate
      rw [run_snoc] at hown ⊢
      have hP := processed (run process (tracking symbols b t) msgs).1 msg
      rw [hP.count, hcount]
      rw [trackedLocates_snoc] at hown ⊢
      have hold := hsome msg.stockLocate
      -- a book is counted when its entry was empty and no longer is
      by_cases hin : msg.stockLocate ∈ trackedLocates symbols msgs
      · have hnone : ¬ ((run process (tracking symbols b t) msgs).1.entry
            msg.stockLocate).isNone = true := by
          rw [← Option.not_isSome, hold.mpr hin]
          simp
        rw [if_neg fun h => hnone h.1, Nat.add_zero, Finset.insert_eq_of_mem
          hin, ite_self]
      · have hnone : ((run process (tracking symbols b t) msgs).1.entry
            msg.stockLocate).isNone = true := by
          rw [← Option.not_isSome, Bool.not_eq_true']
          exact Bool.eq_false_iff.mpr fun h => hin (hold.mp h)
        by_cases h : ∃ symbol ∈ symbols, msg.addSymbol = some symbol
        · rw [if_pos h] at hown ⊢
          rw [if_pos ⟨hnone, hown.mpr (Finset.mem_insert_self _ _)⟩,
            Finset.card_insert_of_notMem hin]
        · rw [if_neg h] at hown ⊢
          rw [if_neg fun h' => hin (hown.mp h'.2), Nat.add_zero]

/-- **Restricting the universe does not change the books that are kept.** Where
the symbol is tracked the restricted manager has the book of the unrestricted
one and has delivered the same BBO events, elsewhere it has no book and has
delivered none; and it counts the locate codes with a tracked symbol. -/
theorem universe_keeps_books (hne : symbols ≠ []) (b t : Bool)
    (hsym : ConsistentSymbols msgs) {pre : List Message}
    (hpre : pre <+: msgs) :
    (∀ l ∈ trackedLocates symbols msgs,
      (run process (tracking symbols b t) pre).1.book l =
          (run process (tracking [] b t) pre).1.book l ∧
        bboEvents l (run process (tracking symbols b t) pre).2 =
          bboEvents l (run process (tracking [] b t) pre).2) ∧
    (∀ l, l ∉ trackedLocates symbols msgs →
      (run process (tracking symbols b t) pre).1.book l = none ∧
        bboEvents l (run process (tracking symbols b t) pre).2 = []) ∧
    (run process (tracking symbols b t) pre).1.bookCount =
      (trackedLocates symbols pre).card := by
  refine ⟨fun l hl => ?_, fun l hl => ?_, (run_count hne b t pre).2⟩
  · obtain ⟨msg₀, hm₀, hl₀, symbol₀, hsymbol₀, hs₀⟩ := mem_trackedLocates.mp hl
    have hkept : ∀ msg ∈ pre, msg.stockLocate = l → ∀ symbol,
        msg.addSymbol = some symbol → symbol ∈ symbols := by
      intro msg hm hlm symbol hs
      rw [hsym msg (hpre.subset hm) msg₀ hm₀ (hlm.trans hl₀.symm) symbol
        symbol₀ hs hs₀]
      exact hsymbol₀
    obtain ⟨hentry, hbbos⟩ := Prod.mk.inj (run_kept (b := b) (t := t) hne hkept)
    exact ⟨congrArg (Option.map BookEntry.book) hentry, hbbos⟩
  · have hhidden : ∀ msg ∈ pre, msg.stockLocate = l → ∀ symbol,
        msg.addSymbol = some symbol → symbol ∉ symbols := by
      intro msg hm hlm symbol hs hmem
      exact hl (mem_trackedLocates.mpr
        ⟨msg, hpre.subset hm, hlm, symbol, hmem, hs⟩)
    obtain ⟨hentry, hbbos⟩ :=
      Prod.mk.inj (run_hidden (b := b) (t := t) hne hhidden)
    exact ⟨congrArg (Option.map BookEntry.book) hentry, hbbos⟩

end Universe

theorem universe_keeps_books_oneOrder :
    (run process (tracking [[73, 84, 67, 72]] true true) oneOrder).1.book 3 =
        (run process (tracking [] true true) oneOrder).1.book 3 ∧
      (run process (tracking [[73, 84, 67, 72]] true true)
        oneOrder).1.bookCount = 1 := by
  have hsym : ConsistentSymbols oneOrder := by
    intro msg hm msg' hm' _ symbol symbol' hs hs'
    simp only [oneOrder, List.mem_cons, List.not_mem_nil, or_false] at hm hm'
    rcases hm with rfl | rfl | rfl <;> rcases hm' with rfl | rfl | rfl <;>
      first
      | exact Option.some.inj (hs.symm.trans hs')
      | exact (Option.some_ne_none _ hs.symm).elim
      | exact (Option.some_ne_none _ hs'.symm).elim
  have hne : ([[73, 84, 67, 72]] : List Str) ≠ [] := List.cons_ne_nil _ _
  have h := universe_keeps_books hne true true hsym
    (List.prefix_refl oneOrder)
  exact ⟨(h.1 3 (by decide)).1, h.2.2⟩

end BookManager

end Book

end Itch
