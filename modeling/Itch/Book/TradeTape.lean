import Itch.Book.BookManagerRouting

/-!
# The trade tape of a `BookManager`

Four handlers deliver trades. An execution (`E`, `C`) prints with the symbol
of the book it finds at its locate code; a trade message (`P`, `Q`) prints
with its own symbol and looks at no book, nor at the universe. §1 says that
the tape is what the messages print, §2 whose symbol the book of a locate code
carries. §3 compares the tape of a restricted manager with that of an
unrestricted one: the executions it keeps are those of the tracked symbols,
but the trade messages are all there.
-/

namespace Itch

open Book Transducer

/-- The trimmed symbol of a message with a stock field. -/
def Message.symbol : Message → Option Str
  | .stockDirectory msg => some (toString msg.stock)
  | .stockTradingAction msg => some (toString msg.stock)
  | .regSHO msg => some (toString msg.stock)
  | .marketParticipantPosition msg => some (toString msg.stock)
  | .ipoQuotingPeriodUpdate msg => some (toString msg.stock)
  | .luldAuctionCollar msg => some (toString msg.stock)
  | .operationalHalt msg => some (toString msg.stock)
  | .addOrder msg => some (toString msg.stock)
  | .addOrderMPIDAttribution msg => some (toString msg.stock)
  | .nonCrossTrade msg => some (toString msg.stock)
  | .crossTrade msg => some (toString msg.stock)
  | .noii msg => some (toString msg.stock)
  | .retailPriceImprovementIndicator msg => some (toString msg.stock)
  | .dlcr msg => some (toString msg.stock)
  | _ => none

/-- Messages with the same locate code that carry a symbol carry the same
one. -/
def ConsistentStocks (msgs : List Message) : Prop :=
  ∀ msg ∈ msgs, ∀ msg' ∈ msgs, msg.stockLocate = msg'.stockLocate →
    ∀ symbol symbol', msg.symbol = some symbol →
      msg'.symbol = some symbol' → symbol = symbol'

namespace Book

/-! ## §1  What a message prints -/

/-- The trades among the events, in order. -/
def tape (events : List BookEvent) : List Trade :=
  events.filterMap fun
    | .bbo _ _ _ => none
    | .trade trade => some trade

theorem tape_append (events events' : List BookEvent) :
    tape (events ++ events') = tape events ++ tape events' :=
  List.filterMap_append ..

namespace BookManager

variable {m : BookManager} {msg : Message} {msgs : List Message} {l : UInt16}
  {e : Option BookEntry} {slot : BookEntry}

/-- Refreshing the top prints nothing. -/
theorem tape_emitBboIfChanged (m : BookManager) (l : UInt16)
    (slot : BookEntry) : tape (m.emitBboIfChanged l slot).2 = [] := by
  rw [emitBboIfChanged]
  split
  · split <;> rfl
  · rfl

theorem tape_handleAddOrder (m : BookManager) (l : UInt16) (ref : UInt64)
    (buySell : UInt8) (shares : UInt32) (stock : Chars 8) (price : UInt32) :
    tape (m.handleAddOrder l ref buySell shares stock price).2 = [] := by
  rw [handleAddOrder]
  split
  · rfl
  · exact tape_emitBboIfChanged ..

/-- Without a book only trade messages print. -/
theorem printed_none (h : msg.tradeSymbol = none) : printed none msg = [] := by
  cases msg
  case nonCrossTrade trade => cases h
  case crossTrade cross => cases h
  all_goals rfl

theorem tradeSymbol_of_bookOp {op : BookOp} (hop : msg.bookOp = some op) :
    msg.tradeSymbol = none := by
  cases msg
  case nonCrossTrade trade => cases hop
  case crossTrade cross => cases hop
  all_goals rfl

theorem tape_trades {c : ManagerConfig} (hc : c.hasTradeCallback = true)
    (e : Option BookEntry) (msg : Message) :
    tape (c.trades e msg) = printed e msg := by
  rw [ManagerConfig.trades, if_pos hc, tape, List.filterMap_map]
  exact List.filterMap_some

/-- What a step prints depends on nothing but the entry at the locate code of
the message. -/
theorem tape_process (hc : m.hasTradeCallback = true) (msg : Message) :
    tape (m.process msg).2 = printed (m.entry msg.stockLocate) msg := by
  cases hs : msg.addSymbol with
  | some symbol =>
      cases msg
      case addOrder add => exact tape_handleAddOrder ..
      case addOrderMPIDAttribution add => exact tape_handleAddOrder ..
      all_goals cases hs
  | none =>
      cases hop : msg.bookOp with
      | some op =>
          cases he : m.entry msg.stockLocate with
          | none =>
              rw [process_none hop hs he, printed_none]
              · rfl
              · exact tradeSymbol_of_bookOp hop
          | some slot =>
              rw [process_some hop hs he, tape_append, tape_trades hc,
                tape_emitBboIfChanged, List.append_nil]
      | none =>
          cases hdir : msg.directorySymbol with
          | none =>
              rw [process_idle hop hdir (m.entry msg.stockLocate),
                tape_trades hc]
          | some symbol =>
              cases msg
              case stockDirectory directory => rfl
              all_goals cases hdir

theorem tape_run_snoc (hc : m.hasTradeCallback = true) (msgs : List Message)
    (msg : Message) : tape (run process m (msgs ++ [msg])).2 =
      tape (run process m msgs).2 ++
        printed ((run process m msgs).1.entry msg.stockLocate) msg := by
  rw [run_snoc, tape_append, tape_process]
  exact (congrArg ManagerConfig.hasTradeCallback (config_run m msgs)).trans hc

/-- A trade carries the symbol of its trade message or that of the book. -/
theorem symbol_printed {t : Trade} (ht : t ∈ printed e msg) :
    msg.tradeSymbol = some t.symbol ∨ msg.tradeSymbol = none ∧
      ∃ slot, e = some slot ∧ slot.book.symbol = t.symbol := by
  cases msg
  case orderExecuted exec =>
    refine Or.inr ⟨rfl, ?_⟩
    cases e with
    | none => cases ht
    | some slot =>
        refine ⟨slot, rfl, ?_⟩
        simp only [printed] at ht
        split at ht
        · cases ht
        · rw [List.mem_singleton.mp ht]
  case orderExecutedWithPrice exec =>
    refine Or.inr ⟨rfl, ?_⟩
    cases e with
    | none => cases ht
    | some slot =>
        refine ⟨slot, rfl, ?_⟩
        rw [List.mem_singleton.mp ht]
  case nonCrossTrade trade =>
    rw [List.mem_singleton.mp ht]
    exact Or.inl rfl
  case crossTrade cross =>
    rw [List.mem_singleton.mp ht]
    exact Or.inl rfl
  all_goals cases ht

/-- A trade message prints, whatever the book. -/
theorem printed_of_tradeSymbol {symbol : Str}
    (h : msg.tradeSymbol = some symbol) :
    (∃ t ∈ printed e msg, t.symbol = symbol) ∧
      ∀ e', printed e' msg = printed e msg := by
  cases msg
  case nonCrossTrade trade =>
    cases h
    exact ⟨⟨_, List.mem_singleton_self _, rfl⟩, fun _ => rfl⟩
  case crossTrade cross =>
    cases h
    exact ⟨⟨_, List.mem_singleton_self _, rfl⟩, fun _ => rfl⟩
  all_goals cases h

/-! ## §2  Whose symbol a book carries -/

end BookManager

namespace L3Book

variable {b : L3Book}

theorem symbol_allocateNode : b.allocateNode.1.symbol = b.symbol := by
  rw [allocateNode]
  split <;> rfl

theorem symbol_findOrCreateLevel (side : Side) (price : UInt32) :
    (b.findOrCreateLevel side price).1.symbol = b.symbol := by
  rw [findOrCreateLevel]
  split
  · rfl
  · exact symbol_setSideLevels _

theorem symbol_addOrder (ref : UInt64) (side : Side) (shares price : UInt32) :
    (b.addOrder ref side shares price).symbol = b.symbol := by
  rw [addOrder]
  split
  · rfl
  · simp only [appendNode, symbol_modifyLevel]
    split <;>
      simp only [symbol_modifyNode, symbol_modifyLevel,
        symbol_findOrCreateLevel, symbol_allocateNode]

theorem symbol_unlinkNode (i : UInt32) :
    (b.unlinkNode i).symbol = b.symbol := by
  simp only [unlinkNode, apply_ite symbol, symbol_modifyNode,
    symbol_modifyLevel, symbol_setSideLevels, ite_self]

theorem symbol_dropOrder (ref : UInt64) (i : UInt32) :
    (b.dropOrder ref i).symbol = b.symbol := by
  simp only [dropOrder, freeNode, modifyNode, symbol_unlinkNode]

theorem symbol_executeOrder (ref : UInt64) (n : UInt32) :
    (b.executeOrder ref n).1.symbol = b.symbol := by
  simp only [executeOrder]
  split_ifs <;>
    simp only [symbol_dropOrder, symbol_modifyNode, symbol_modifyLevel]

theorem symbol_deleteOrder (ref : UInt64) :
    (b.deleteOrder ref).symbol = b.symbol := by
  rw [deleteOrder]
  split
  · rfl
  · exact symbol_dropOrder ..

theorem symbol_replaceOrder (oldRef newRef : UInt64) (shares price : UInt32) :
    (b.replaceOrder oldRef newRef shares price).symbol = b.symbol := by
  rw [replaceOrder]
  split
  · rfl
  · exact (symbol_addOrder ..).trans (symbol_deleteOrder _)

end L3Book

/-- No call on a book touches its symbol. -/
theorem BookOp.symbol_onBook (op : BookOp) (b : L3Book) :
    (op.onBook b).1.symbol = b.symbol := by
  cases op with
  | addOrder ref side shares price => exact L3Book.symbol_addOrder ..
  | executeOrder ref n => exact L3Book.symbol_executeOrder ..
  | reduceOrder ref n => exact L3Book.symbol_executeOrder ..
  | deleteOrder ref => exact L3Book.symbol_deleteOrder _
  | replaceOrder oldRef newRef shares price =>
      exact L3Book.symbol_replaceOrder ..

namespace BookManager

variable {m : BookManager} {msg : Message} {msgs : List Message} {l : UInt16}
  {e : Option BookEntry} {slot : BookEntry}

/-- A message leaves a book with the symbol it had, or with its own. -/
theorem symbol_localStep {c : ManagerConfig}
    (h : (c.localStep msg e).1 = some slot) :
    (∃ slot₀, e = some slot₀ ∧ slot₀.book.symbol = slot.book.symbol) ∨
      msg.addSymbol = some slot.book.symbol := by
  rcases localStep_cases c msg e with ⟨op, slot₁, _, htarget, hstep⟩ | hstep
  · rw [hstep] at h
    obtain rfl := Option.some.inj h
    rw [show (slot₁.apply op).book.symbol = slot₁.book.symbol from
      op.symbol_onBook slot₁.book]
    rw [ManagerConfig.target] at htarget
    cases hs : msg.addSymbol with
    | none =>
        rw [hs] at htarget
        exact Or.inl ⟨slot₁, htarget, rfl⟩
    | some symbol =>
        simp only [hs] at htarget
        cases e with
        | some slot₀ =>
            have hslot := Option.some.inj htarget
            split at hslot
            · rw [← hslot]
              exact Or.inr rfl
            · exact Or.inl ⟨slot₀, rfl, congrArg (·.book.symbol) hslot⟩
        | none =>
            simp only [ManagerConfig.ensure] at htarget
            split at htarget
            · rw [← Option.some.inj htarget]
              exact Or.inr rfl
            · cases htarget
  · rw [hstep] at h
    exact Or.inl ⟨slot, h, rfl⟩

/-- The symbol of a book is that of an add message with its locate code. -/
theorem run_symbol (c : ManagerConfig) {msgs : List Message}
    (h : (run process { toManagerConfig := c } msgs).1.entry l = some slot) :
    ∃ msg ∈ msgs, msg.stockLocate = l ∧
      msg.addSymbol = some slot.book.symbol := by
  induction msgs using List.reverseRecOn generalizing slot with
  | nil => cases h
  | append_singleton msgs msg ih =>
      have hkeep : ∀ slot₀, (run process { toManagerConfig := c } msgs).1.entry
          l = some slot₀ → slot₀.book.symbol = slot.book.symbol →
          ∃ msg' ∈ msgs ++ [msg], msg'.stockLocate = l ∧
            msg'.addSymbol = some slot.book.symbol := by
        intro slot₀ h₀ hsymbol
        obtain ⟨msg', hm, hl, hs⟩ := ih h₀
        rw [hsymbol] at hs
        exact ⟨msg', List.mem_append_left _ hm, hl, hs⟩
      have hat := congrArg Prod.fst
        (run_snoc_at { toManagerConfig := c } msgs msg l)
      by_cases hl : l = msg.stockLocate
      · rw [if_pos hl] at hat
        rcases symbol_localStep (hat.symm.trans h) with ⟨slot₀, h₀, hsymbol⟩ | hs
        · exact hkeep slot₀ h₀ hsymbol
        · exact ⟨msg, by simp, hl.symm, hs⟩
      · rw [if_neg hl] at hat
        exact hkeep slot (hat.symm.trans h) rfl

/-! ## §3  The tape of a restricted manager -/

theorem symbol_of_addSymbol {symbol : Str}
    (h : msg.addSymbol = some symbol) : msg.symbol = some symbol := by
  cases msg
  case addOrder add => exact h
  case addOrderMPIDAttribution add => exact h
  all_goals cases h

/-- Symbols that are read off a table are consistent. -/
theorem consistentStocks_of_table (f : UInt16 → Str)
    (h : ∀ msg ∈ msgs, ∀ symbol ∈ msg.symbol, symbol = f msg.stockLocate) :
    ConsistentStocks msgs := by
  intro msg hm msg' hm' hl symbol symbol' hs hs'
  rw [h msg hm symbol hs, h msg' hm' symbol' hs', hl]

section Universe

variable {symbols : List Str} {b : Bool}

/-- At each locate code the restricted manager has the entry of the
unrestricted one if its symbol is tracked, and none otherwise. -/
theorem tracking_entry (hne : symbols ≠ []) (hsym : ConsistentStocks msgs)
    (t : Bool) (l : UInt16) :
    ((run process (tracking symbols b t) msgs).1.entry l =
        (run process (tracking [] b t) msgs).1.entry l ∧
      ∀ slot, (run process (tracking [] b t) msgs).1.entry l = some slot →
        slot.book.symbol ∈ symbols) ∨
    ((run process (tracking symbols b t) msgs).1.entry l = none ∧
      ∀ slot, (run process (tracking [] b t) msgs).1.entry l = some slot →
        slot.book.symbol ∉ symbols) := by
  have hbook : ∀ slot, (run process (tracking [] b t) msgs).1.entry l =
      some slot → ∃ msg ∈ msgs, msg.stockLocate = l ∧
        msg.addSymbol = some slot.book.symbol := by
    intro slot h
    rw [tracking_eq] at h
    exact run_symbol _ h
  -- one tracked add settles it, as all adds of a locate name one symbol
  by_cases hmem : l ∈ trackedLocates symbols msgs
  · obtain ⟨msg₀, hm₀, hl₀, symbol₀, hsymbol₀, hs₀⟩ :=
      mem_trackedLocates.mp hmem
    have hkept : ∀ msg ∈ msgs, msg.stockLocate = l → ∀ symbol,
        msg.addSymbol = some symbol → symbol ∈ symbols := by
      intro msg hm hl symbol hs
      rw [hsym msg hm msg₀ hm₀ (hl.trans hl₀.symm) symbol symbol₀
        (symbol_of_addSymbol hs) (symbol_of_addSymbol hs₀)]
      exact hsymbol₀
    refine Or.inl ⟨congrArg Prod.fst (run_kept hne hkept), fun slot h => ?_⟩
    obtain ⟨msg, hm, hl, hs⟩ := hbook slot h
    exact hkept msg hm hl _ hs
  · have hhidden : ∀ msg ∈ msgs, msg.stockLocate = l → ∀ symbol,
        msg.addSymbol = some symbol → symbol ∉ symbols := by
      intro msg hm hl symbol hs hin
      exact hmem (mem_trackedLocates.mpr ⟨msg, hm, hl, symbol, hin, hs⟩)
    refine Or.inr ⟨congrArg Prod.fst (run_hidden hne hhidden), fun slot h => ?_⟩
    obtain ⟨msg, hm, hl, hs⟩ := hbook slot h
    exact hhidden msg hm hl _ hs

/-- What a message prints with the entry of the restricted manager, next to
what it prints with that of the unrestricted one. -/
theorem printed_filter {e e' : Option BookEntry}
    (h : (e = e' ∧ ∀ slot, e' = some slot → slot.book.symbol ∈ symbols) ∨
      (e = none ∧ ∀ slot, e' = some slot → slot.book.symbol ∉ symbols))
    (hin : ∀ symbol, msg.tradeSymbol = some symbol → symbol ∈ symbols) :
    printed e msg =
      (printed e' msg).filter (fun t => decide (t.symbol ∈ symbols)) := by
  rcases h with ⟨rfl, hall⟩ | ⟨rfl, hall⟩
  · -- the same entry, and every trade is of a tracked symbol
    symm
    apply List.filter_eq_self.mpr
    intro t ht
    rw [decide_eq_true_eq]
    rcases symbol_printed ht with hs | ⟨_, slot, he, hs⟩
    · exact hin _ hs
    · rw [← hs]
      exact hall slot he
  · cases htrade : msg.tradeSymbol with
    | some symbol =>
        obtain ⟨_, hsame⟩ := printed_of_tradeSymbol (e := e') htrade
        rw [hsame none, eq_comm, List.filter_eq_self]
        intro t ht
        rw [decide_eq_true_eq]
        rcases symbol_printed ht with hs | ⟨hs, _⟩
        · exact hin _ hs
        · rw [htrade] at hs
          cases hs
    | none =>
        -- an execution on a book that the restricted manager does not have
        rw [printed_none htrade, eq_comm, List.filter_eq_nil_iff]
        intro t ht
        rw [decide_eq_true_eq]
        rcases symbol_printed ht with hs | ⟨_, slot, he, hs⟩
        · rw [htrade] at hs
          cases hs
        · rw [← hs]
          exact hall slot he

theorem tape_filter (hne : symbols ≠ []) (hsym : ConsistentStocks msgs)
    (hin : ∀ msg ∈ msgs, ∀ symbol, msg.tradeSymbol = some symbol →
      symbol ∈ symbols) :
    tape (run process (tracking symbols b true) msgs).2 =
      (tape (run process (tracking [] b true) msgs).2).filter
        (fun t => decide (t.symbol ∈ symbols)) := by
  have hc : ∀ symbols, (tracking symbols b true).hasTradeCallback = true := by
    intro symbols
    rw [tracking_eq]
  induction msgs using List.reverseRecOn with
  | nil => rfl
  | append_singleton msgs msg ih =>
      have hsym' : ConsistentStocks msgs := by
        intro msg₁ hm₁ msg₂ hm₂
        exact hsym msg₁ (List.mem_append_left _ hm₁) msg₂
          (List.mem_append_left _ hm₂)
      rw [tape_run_snoc (hc _), tape_run_snoc (hc _), List.filter_append]
      congr 1
      · exact ih hsym' fun msg' hm => hin msg' (List.mem_append_left _ hm)
      · exact printed_filter (tracking_entry hne hsym' true _)
          (hin msg (by simp))

/-- A trade message is on the tape, whatever the universe. -/
theorem mem_tape_run (hc : m.hasTradeCallback = true) (hm : msg ∈ msgs)
    {symbol : Str} (h : msg.tradeSymbol = some symbol) :
    ∃ t ∈ tape (run process m msgs).2, t.symbol = symbol := by
  induction msgs using List.reverseRecOn with
  | nil => cases hm
  | append_singleton msgs last ih =>
      rw [tape_run_snoc hc]
      rcases List.mem_append.mp hm with hm | hm
      · obtain ⟨t, ht, hs⟩ := ih hm
        exact ⟨t, List.mem_append_left _ ht, hs⟩
      · obtain rfl := List.mem_singleton.mp hm
        obtain ⟨⟨t, ht, hs⟩, _⟩ := printed_of_tradeSymbol
          (e := (run process m msgs).1.entry msg.stockLocate) h
        exact ⟨t, List.mem_append_right _ ht, hs⟩

/-- **When a universe governs the tape.** The restricted manager prints the
tracked symbols only, the projection of the unrestricted tape, exactly if
every trade message is of a tracked symbol. -/
theorem restricted_tape_iff (hne : symbols ≠ [])
    (hsym : ConsistentStocks msgs) (b : Bool) :
    ((∀ t ∈ tape (run process (tracking symbols b true) msgs).2,
        t.symbol ∈ symbols) ∧
      tape (run process (tracking symbols b true) msgs).2 =
        (tape (run process (tracking [] b true) msgs).2).filter
          (fun t => decide (t.symbol ∈ symbols))) ↔
    ∀ msg ∈ msgs, ∀ symbol, msg.tradeSymbol = some symbol →
      symbol ∈ symbols := by
  constructor
  · rintro ⟨htape, _⟩ msg hm symbol hs
    have hc : (tracking symbols b true).hasTradeCallback = true := by
      rw [tracking_eq]
    obtain ⟨t, ht, rfl⟩ := mem_tape_run hc hm hs
    exact htape t ht
  · intro hin
    have heq := tape_filter (b := b) hne hsym hin
    refine ⟨fun t ht => ?_, heq⟩
    rw [heq, List.mem_filter, decide_eq_true_eq] at ht
    exact ht.2

end Universe

/-- The order of `oneOrder`, and then a trade message of another symbol at
another locate code. -/
def foreignTrade : List Message :=
  oneOrder ++ [.nonCrossTrade
    { stockLocate := 4, buySellIndicator := 'B'.toUInt8, shares := 10
      stock := ⟨[65, 65, 80, 76, 32, 32, 32, 32], rfl⟩, price := 30 }]

theorem restricted_tape_iff_oneOrder :
    tape (run process (tracking [[73, 84, 67, 72]] true true) oneOrder).2 =
      (tape (run process (tracking [] true true) oneOrder).2).filter
        (fun t => decide (t.symbol ∈ ([[73, 84, 67, 72]] : List Str))) := by
  have hsym : ConsistentStocks oneOrder :=
    consistentStocks_of_table (fun _ => [73, 84, 67, 72]) (by decide)
  have hne : ([[73, 84, 67, 72]] : List Str) ≠ [] := List.cons_ne_nil _ _
  have hin : ∀ msg ∈ oneOrder, ∀ symbol ∈ msg.tradeSymbol,
      symbol ∈ ([[73, 84, 67, 72]] : List Str) := by decide
  exact ((restricted_tape_iff hne hsym true).mpr hin).2

/-- The manager that tracks `ITCH` prints `AAPL`. -/
theorem restricted_tape_leaks :
    ConsistentStocks foreignTrade ∧
      (∃ t ∈ tape (run process (tracking [[73, 84, 67, 72]] false true)
        foreignTrade).2, t.symbol = [65, 65, 80, 76]) ∧
      ¬ ∀ t ∈ tape (run process (tracking [[73, 84, 67, 72]] false true)
        foreignTrade).2, t.symbol ∈ [[73, 84, 67, 72]] := by
  have hsym : ConsistentStocks foreignTrade :=
    consistentStocks_of_table
      (fun l => if l = 4 then [65, 65, 80, 76] else [73, 84, 67, 72])
      (by decide)
  have hc : (tracking [[73, 84, 67, 72]] false true).hasTradeCallback =
      true := by
    rw [tracking_eq]
  obtain ⟨t, ht, hs⟩ : ∃ t ∈ tape (run process
      (tracking [[73, 84, 67, 72]] false true) foreignTrade).2,
      t.symbol = [65, 65, 80, 76] :=
    mem_tape_run hc (List.mem_append_right _ List.mem_cons_self) rfl
  refine ⟨hsym, ⟨t, ht, hs⟩, fun hall => ?_⟩
  have hin := hall t ht
  rw [hs] at hin
  revert hin
  decide

end BookManager

end Book

end Itch
