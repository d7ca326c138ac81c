import Itch.Book.TradeTape

/-!
# Books and symbols

A manager tells the book of a symbol and the symbol of a locate code. §1 says
what the answers should be, from the messages alone; §2 is about the symbol of
one entry, and §3 about the table after any messages.
-/

namespace Itch.Book

/-! ## §1  The directory of a feed -/

def messagesAt (l : UInt16) (msgs : List Message) : List Message :=
  msgs.filter fun msg => decide (msg.stockLocate = l)

/-- The symbols of the add messages with a locate code. -/
def addSymbols (l : UInt16) (msgs : List Message) : List Str :=
  (messagesAt l msgs).filterMap Message.addSymbol

/-- The symbol of a book: a symbol of the universe opens it, and the first one
that is not blank from there on names it. -/
def openedAs (c : ManagerConfig) (symbols : List Str) : Option Str :=
  match symbols.dropWhile fun s => !decide (BookManager.inUniverse c s) with
  | [] => none
  | s :: rest => some (((s :: rest).find? fun s => decide (s ≠ [])).getD [])

/-- The last symbol that a stock directory message gives a locate code. -/
def listedAs (l : UInt16) (msgs : List Message) : Str :=
  ((messagesAt l msgs).filterMap Message.directorySymbol).getLast?.getD []

/-- The locate codes with a book. -/
def openLocates (c : ManagerConfig) (msgs : List Message) : Finset UInt16 :=
  (msgs.map Message.stockLocate).toFinset.filter fun l =>
    (openedAs c (addSymbols l msgs)).isSome

/-- The manager knows the books and symbols of the feed. -/
structure Directory (c : ManagerConfig) (msgs : List Message)
    (m : BookManager) : Prop where
  symbol : ∀ l, (m.book l).map L3Book.symbol = openedAs c (addSymbols l msgs)
  symbolForLocate : ∀ l, m.symbolForLocate l =
    if (openedAs c (addSymbols l msgs)).getD [] = [] then listedAs l msgs
    else (openedAs c (addSymbols l msgs)).getD []
  bookForSymbol : ∀ s,
    match m.bookForSymbol s with
    | none => ∀ l, openedAs c (addSymbols l msgs) ≠ some s
    | some b => ∃ l, m.book l = some b ∧
        openedAs c (addSymbols l msgs) = some s ∧
        ∀ k < l, openedAs c (addSymbols k msgs) ≠ some s
  bookCount : m.bookCount = (openLocates c msgs).card

/-! ## §2  One entry -/

/-- What an add message makes of the symbol of an entry. -/
def carried (c : ManagerConfig) (symbol : Str) : Option Str → Option Str
  | none => if BookManager.inUniverse c symbol then some symbol else none
  | some name => some (if name = [] then symbol else name)

theorem find?_concat_getD (symbols : List Str) (symbol : Str) :
    ((symbols ++ [symbol]).find? fun s => decide (s ≠ [])).getD [] =
      if (symbols.find? fun s => decide (s ≠ [])).getD [] = [] then symbol
      else (symbols.find? fun s => decide (s ≠ [])).getD [] := by
  rw [List.find?_append]
  cases hfind : symbols.find? fun s => decide (s ≠ []) with
  | none =>
    rw [Option.none_or, Option.getD_none, if_pos rfl]
    by_cases hblank : symbol = []
    · subst hblank
      rfl
    · simp [hblank]
  | some name =>
    have hname : name ≠ [] := by
      have hkept := List.find?_some hfind
      exact of_decide_eq_true hkept
    rw [Option.some_or, Option.getD_some, if_neg hname]

theorem openedAs_concat (c : ManagerConfig) (symbols : List Str)
    (symbol : Str) :
    openedAs c (symbols ++ [symbol]) = carried c symbol (openedAs c symbols) := by
  rw [openedAs, openedAs, List.dropWhile_append]
  cases hrest : symbols.dropWhile fun s =>
      !decide (BookManager.inUniverse c s) with
  | nil =>
    rw [List.isEmpty_nil, if_pos rfl, carried]
    by_cases hin : BookManager.inUniverse c symbol
    · rw [if_pos hin, List.dropWhile_cons_of_neg (by simpa using hin)]
      have hfind := find?_concat_getD [] symbol
      rw [List.find?_nil, Option.getD_none, if_pos rfl] at hfind
      exact congrArg some hfind
    · rw [if_neg hin, List.dropWhile_cons_of_pos (by simpa using hin)]
      rfl
  | cons s rest =>
    rw [List.isEmpty_cons, if_neg Bool.false_ne_true, carried]
    exact congrArg some (find?_concat_getD (s :: rest) symbol)

/-- The symbol changes only with an add message. -/
theorem symbol_localStep_carried (c : ManagerConfig) (msg : Message)
    (e : Option BookEntry) :
    ((c.localStep msg e).1.map fun slot => slot.book.symbol) =
      match msg.addSymbol with
      | none => e.map fun slot => slot.book.symbol
      | some symbol => carried c symbol (e.map fun slot => slot.book.symbol) := by
  have happly (slot : BookEntry) (op : BookOp) :
      (slot.apply op).book.symbol = slot.book.symbol := op.symbol_onBook slot.book
  cases hs : msg.addSymbol with
  | none =>
    have htarget : c.target msg e = e := by rw [ManagerConfig.target, hs]
    rcases BookManager.localStep_cases c msg e with ⟨op, slot, -, hslot, h⟩ | h
    · rw [htarget] at hslot
      rw [h, hslot]
      exact congrArg some (happly slot op)
    · rw [h]
  | some symbol =>
    obtain ⟨op, hop⟩ := BookManager.bookOp_of_addSymbol hs
    have htarget : c.target msg e = c.ensure symbol e := by
      rw [ManagerConfig.target, hs]
    rw [ManagerConfig.localStep, hop, htarget]
    cases e with
    | none =>
      show _ = carried c symbol none
      rw [ManagerConfig.ensure, carried]
      by_cases hin : BookManager.inUniverse c symbol
      · rw [if_pos hin, if_pos hin]
        exact congrArg some (happly _ op)
      · rw [if_neg hin, if_neg hin]
        rfl
    | some slot =>
      show _ = carried c symbol (some slot.book.symbol)
      rw [ManagerConfig.ensure, carried]
      refine congrArg some ((happly _ op).trans ?_)
      by_cases hblank : slot.book.symbol = []
      · rw [if_pos hblank]
        by_cases hsymbol : symbol = []
        · rw [if_neg fun h => h.2 hsymbol, hblank, hsymbol]
        · rw [if_pos ⟨hblank, hsymbol⟩]
          rfl
      · rw [if_neg hblank, if_neg fun h => hblank h.1]

/-! ## §3  Every entry -/

open Transducer BookManager

theorem messagesAt_concat (l : UInt16) (msgs : List Message) (msg : Message) :
    messagesAt l (msgs ++ [msg]) = messagesAt l msgs ++
      if l = msg.stockLocate then [msg] else [] := by
  rw [messagesAt, List.filter_append, ← messagesAt]
  by_cases hl : l = msg.stockLocate
  · simp [hl]
  · have hother : ¬msg.stockLocate = l := fun h => hl h.symm
    simp [hl, hother]

theorem addSymbols_concat (l : UInt16) (msgs : List Message) (msg : Message) :
    addSymbols l (msgs ++ [msg]) = addSymbols l msgs ++
      if l = msg.stockLocate then msg.addSymbol.toList else [] := by
  rw [addSymbols, messagesAt_concat, List.filterMap_append, ← addSymbols]
  congr 1
  by_cases hl : l = msg.stockLocate
  · rw [if_pos hl, if_pos hl]
    cases hs : msg.addSymbol with
    | none => rw [List.filterMap_cons_none hs, List.filterMap_nil]; rfl
    | some symbol => rw [List.filterMap_cons_some hs, List.filterMap_nil]; rfl
  · rw [if_neg hl, if_neg hl, List.filterMap_nil]

theorem listedAs_concat (l : UInt16) (msgs : List Message) (msg : Message) :
    listedAs l (msgs ++ [msg]) =
      if l = msg.stockLocate then msg.directorySymbol.getD (listedAs l msgs)
      else listedAs l msgs := by
  rw [listedAs, messagesAt_concat, List.filterMap_append]
  by_cases hl : l = msg.stockLocate
  · rw [if_pos hl, if_pos hl]
    cases hs : msg.directorySymbol with
    | none =>
      rw [List.filterMap_cons_none hs, List.filterMap_nil, List.append_nil]
      rfl
    | some symbol =>
      rw [List.filterMap_cons_some hs, List.filterMap_nil,
        List.getLast?_concat]
      rfl
  · rw [if_neg hl, if_neg hl, List.filterMap_nil, List.append_nil, listedAs]

/-- A manager that has seen no message. -/
def newManager (c : ManagerConfig) : BookManager := { toManagerConfig := c }

theorem symbol_run (c : ManagerConfig) (msgs : List Message) (l : UInt16) :
    (((run process (newManager c) msgs).1.entry l).map
      fun slot => slot.book.symbol) = openedAs c (addSymbols l msgs) := by
  induction msgs using List.reverseRecOn with
  | nil =>
    rw [run, newManager, entry_eq]
    rfl
  | append_singleton msgs msg ih =>
    have hP := processed (run process (newManager c) msgs).1 msg
    have hconfig : (run process (newManager c) msgs).1.toManagerConfig = c :=
      config_run (newManager c) msgs
    rw [run_snoc, addSymbols_concat]
    by_cases hl : l = msg.stockLocate
    · subst hl
      rw [if_pos rfl, hP.own, hconfig, symbol_localStep_carried, ih]
      cases msg.addSymbol with
      | none => rw [Option.toList_none, List.append_nil]
      | some symbol => exact (openedAs_concat c _ symbol).symm
    · rw [if_neg hl, hP.other l hl, List.append_nil]
      exact ih

theorem symbolByLocate_run (c : ManagerConfig) (msgs : List Message)
    (l : UInt16) :
    (run process (newManager c) msgs).1.symbolByLocate.getD l.toNat [] =
      listedAs l msgs := by
  induction msgs using List.reverseRecOn with
  | nil => rfl
  | append_singleton msgs msg ih =>
    rw [run_snoc, listedAs_concat, (processed _ msg).symbols l, ih]

theorem mem_openLocates {c : ManagerConfig} {msgs : List Message} {l : UInt16} :
    l ∈ openLocates c msgs ↔ (openedAs c (addSymbols l msgs)).isSome := by
  rw [openLocates, Finset.mem_filter, List.mem_toFinset]
  refine and_iff_right_of_imp fun h => ?_
  by_contra hnone
  have hempty : addSymbols l msgs = [] := by
    rw [addSymbols, messagesAt, List.filter_eq_nil_iff.mpr, List.filterMap_nil]
    intro msg hmsg hl
    exact hnone (List.mem_map.mpr ⟨msg, hmsg, of_decide_eq_true hl⟩)
  rw [hempty] at h
  cases h

theorem isSome_entry_run (c : ManagerConfig) (msgs : List Message)
    (l : UInt16) :
    ((run process (newManager c) msgs).1.entry l).isSome ↔
      l ∈ openLocates c msgs := by
  rw [mem_openLocates, ← symbol_run, Option.isSome_map]

/-- A book that is there stays. -/
theorem openLocates_subset (c : ManagerConfig) (msgs : List Message)
    (msg : Message) : openLocates c msgs ⊆ openLocates c (msgs ++ [msg]) := by
  intro l hl
  rw [mem_openLocates] at hl ⊢
  obtain ⟨name, hname⟩ := Option.isSome_iff_exists.mp hl
  rw [addSymbols_concat]
  split
  · cases msg.addSymbol with
    | none => rwa [Option.toList_none, List.append_nil]
    | some symbol =>
      rw [Option.toList_some, openedAs_concat, hname]
      rfl
  · rwa [List.append_nil]

theorem bookCount_run (c : ManagerConfig) (msgs : List Message) :
    (run process (newManager c) msgs).1.bookCount = (openLocates c msgs).card := by
  induction msgs using List.reverseRecOn with
  | nil => rfl
  | append_singleton msgs msg ih =>
    have hold := isSome_entry_run c msgs
    have hnew := isSome_entry_run c (msgs ++ [msg])
    rw [run_snoc] at hnew ⊢
    have hP := processed (run process (newManager c) msgs).1 msg
    rw [hP.count, ih]
    have hother (l : UInt16) (hl : l ≠ msg.stockLocate) :
        l ∈ openLocates c (msgs ++ [msg]) ↔ l ∈ openLocates c msgs := by
      rw [← hold, ← hnew, hP.other l hl]
    by_cases hopens : msg.stockLocate ∉ openLocates c msgs ∧
        msg.stockLocate ∈ openLocates c (msgs ++ [msg])
    · have hinsert : openLocates c (msgs ++ [msg]) =
          insert msg.stockLocate (openLocates c msgs) := by
        ext l
        rw [Finset.mem_insert]
        by_cases hl : l = msg.stockLocate
        · rw [hl]
          exact iff_of_true hopens.2 (.inl rfl)
        · rw [hother l hl, or_iff_right hl]
      rw [hinsert, Finset.card_insert_of_notMem hopens.1, if_pos]
      rw [← Option.not_isSome, Bool.not_eq_true', ← Bool.not_eq_true, hold, hnew]
      exact hopens
    · have hsame : openLocates c (msgs ++ [msg]) = openLocates c msgs := by
        ext l
        by_cases hl : l = msg.stockLocate
        · subst hl
          refine ⟨fun h => ?_, fun h => openLocates_subset c msgs msg h⟩
          by_contra hnot
          exact hopens ⟨hnot, h⟩
        · exact hother l hl
      rw [hsame, if_neg, Nat.add_zero]
      rw [← Option.not_isSome, Bool.not_eq_true', ← Bool.not_eq_true, hold, hnew]
      exact hopens

theorem length_emitBboIfChanged (m : BookManager) (l : UInt16)
    (target : BookEntry) :
    (m.emitBboIfChanged l target).1.booksByLocate.length =
      m.booksByLocate.length := by
  rw [emitBboIfChanged]
  split <;> exact List.length_set

theorem length_ensureEntry_le (m : BookManager) (l : UInt16) (symbol : Str)
    (h : m.booksByLocate.length ≤ 2 ^ 16) :
    (m.ensureEntry l symbol).1.booksByLocate.length ≤ 2 ^ 16 := by
  have hgrown : (m.grown l).booksByLocate.length ≤ 2 ^ 16 := by
    have hl := l.toNat_lt
    rw [grown]
    split
    · rw [resize, List.length_append, List.length_replicate]
      omega
    · exact h
  rw [ensureEntry, ← grown]
  generalize m.grown l = m₀ at *
  dsimp only
  split
  · rw [setEntry, List.length_set]
    exact hgrown
  · split
    · exact hgrown
    · rw [setEntry, List.length_set]
      exact hgrown

/-- The table has no index that is not a locate code. -/
theorem length_process_le (m : BookManager) (msg : Message)
    (h : m.booksByLocate.length ≤ 2 ^ 16) :
    (m.process msg).1.booksByLocate.length ≤ 2 ^ 16 := by
  have hadd (l : UInt16) (ref : UInt64) (side : UInt8) (shares : UInt32)
      (stock : Chars 8) (price : UInt32) :
      (m.handleAddOrder l ref side shares stock price).1.booksByLocate.length ≤
        2 ^ 16 := by
    have hensure := length_ensureEntry_le m l (toString stock) h
    rw [handleAddOrder]
    split
    · rename_i heq
      rw [heq] at hensure
      exact hensure
    · rename_i heq
      rw [heq] at hensure
      rw [length_emitBboIfChanged]
      exact hensure
  cases hs : msg.addSymbol with
  | some symbol =>
    cases msg
    case addOrder add => exact hadd ..
    case addOrderMPIDAttribution add => exact hadd ..
    all_goals cases hs
  | none =>
    cases hop : msg.bookOp with
    | some op =>
      cases he : m.entry msg.stockLocate with
      | none => rwa [process_none hop hs he]
      | some e =>
        rw [process_some hop hs he]
        exact (length_emitBboIfChanged ..).trans_le h
    | none =>
      cases hdir : msg.directorySymbol with
      | none => rwa [process_idle hop hdir none]
      | some symbol =>
        cases msg
        case stockDirectory directory => exact h
        all_goals cases hdir

theorem getElem?_of_entry {m : BookManager} {l : UInt16} {e : BookEntry}
    (h : m.entry l = some e) : m.booksByLocate[l.toNat]? = some (some e) := by
  rw [entry_eq, List.getD_eq_getElem?_getD] at h
  cases hslot : m.booksByLocate[l.toNat]? with
  | none =>
    rw [hslot] at h
    cases h
  | some slot =>
    rw [hslot] at h
    exact congrArg some h

theorem bookForSymbol_eq (m : BookManager) (s : Str) :
    m.bookForSymbol s =
      ((m.booksByLocate.find? fun o =>
        (id o).any fun slot => slot.book.symbol == s).bind id).map
          BookEntry.book :=
  congrArg (Option.map BookEntry.book) List.find?_filterMap

/-- The search goes through the locate codes in order. -/
theorem bookForSymbol_first {m : BookManager}
    (h : m.booksByLocate.length ≤ 2 ^ 16) (s : Str) :
    match m.bookForSymbol s with
    | none => ∀ l, (m.book l).map L3Book.symbol ≠ some s
    | some b => ∃ l, m.book l = some b ∧ b.symbol = s ∧
        ∀ k < l, (m.book k).map L3Book.symbol ≠ some s := by
  have hentry (l : UInt16) (hl : (m.book l).map L3Book.symbol = some s) :
      ∃ e : BookEntry, m.booksByLocate[l.toNat]? = some (some e) ∧
        (e.book.symbol == s) = true := by
    rw [book, Option.map_map, Option.map_eq_some_iff] at hl
    obtain ⟨e, he, hsymbol⟩ := hl
    exact ⟨e, getElem?_of_entry he, beq_iff_eq.mpr hsymbol⟩
  rw [bookForSymbol_eq]
  cases hfind : m.booksByLocate.find? fun o =>
      (id o).any fun slot => slot.book.symbol == s with
  | none =>
    rw [Option.bind_none, Option.map_none]
    intro l hl
    obtain ⟨e, he, hsymbol⟩ := hentry l hl
    exact List.find?_eq_none.mp hfind _ (List.mem_of_getElem? he) hsymbol
  | some o =>
    obtain ⟨ho, i, hi, hslot, hbefore⟩ := List.find?_eq_some_iff_getElem.mp hfind
    cases o with
    | none => cases ho
    | some e =>
      rw [Option.bind_some, id, Option.map_some]
      have htoNat : (UInt16.ofNat i).toNat = i :=
        UInt16.toNat_ofNat_of_lt' (hi.trans_le h)
      have hat : m.entry (UInt16.ofNat i) = some e := by
        rw [entry_eq, htoNat, List.getD_eq_getElem _ _ hi]
        exact hslot
      refine ⟨UInt16.ofNat i, ?_, beq_iff_eq.mp ho, fun k hk hsymbol => ?_⟩
      · rw [book, hat]
        rfl
      · have hlt : k.toNat < i := by
          rw [← htoNat]
          exact UInt16.lt_iff_toNat_lt.mp hk
        obtain ⟨e', he', hsymbol'⟩ := hentry k hsymbol
        have hnot := hbefore k.toNat hlt
        obtain ⟨hk', hslot'⟩ := List.getElem?_eq_some_iff.mp he'
        rw [hslot'] at hnot
        rw [Bool.not_eq_true'] at hnot
        exact Bool.eq_false_iff.mp hnot hsymbol'

/-- **The directory of a manager.** After any messages, under any universe,
the books carry the symbols that opened them, the search for a symbol finds
the book of the lowest locate code that carries it, a locate code without a
named book has the symbol that was listed last, and the books are counted. -/
theorem directory_run (c : ManagerConfig) (msgs : List Message) :
    Directory c msgs (run process (newManager c) msgs).1 := by
  have hsymbol (l : UInt16) :
      ((run process (newManager c) msgs).1.book l).map L3Book.symbol =
        openedAs c (addSymbols l msgs) := by
    rw [← symbol_run, book, Option.map_map]
    rfl
  have hlength : (run process (newManager c) msgs).1.booksByLocate.length ≤
      2 ^ 16 :=
    run_invariant length_process_le (Nat.zero_le _) msgs
  refine ⟨hsymbol, fun l => ?_, fun s => ?_, bookCount_run c msgs⟩
  · rw [← symbol_run, ← symbolByLocate_run c msgs l, symbolForLocate]
    cases (run process (newManager c) msgs).1.entry l with
    | none => rfl
    | some e =>
      rw [Option.map_some, Option.getD_some]
      exact ite_not ..
  · have hfirst := bookForSymbol_first hlength s
    cases hfind : (run process (newManager c) msgs).1.bookForSymbol s with
    | none =>
      rw [hfind] at hfirst
      intro l
      rw [← hsymbol]
      exact hfirst l
    | some b =>
      rw [hfind] at hfirst
      obtain ⟨l, hl, hs, hbefore⟩ := hfirst
      refine ⟨l, hl, ?_, fun k hk => ?_⟩
      · rw [← hsymbol, hl]
        exact congrArg some hs
      · rw [← hsymbol]
        exact hbefore k hk

end Itch.Book
