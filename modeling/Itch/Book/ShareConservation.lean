import Mathlib.Algebra.BigOperators.Group.Finset.Basic
import Itch.Book.TradeTape

/-!
# Shares on the book and shares on the tape

An execution takes the shares that its book returns, but prints those of its
message, and `C` prints even for a reference that does not rest. §1 counts
the shares of a book and says what every call does to them, §2 follows books
that represent order lists through a run. §3 says when an execution prints
what it takes; §4 adds up, for one order, what is printed over a run.
-/

namespace Itch

open Book Transducer

/-- The order that an execution names, and the shares it carries. -/
def Message.execution : Message → Option (UInt64 × UInt32)
  | .orderExecuted exec =>
      some (exec.orderReferenceNumber, exec.executedShares)
  | .orderExecutedWithPrice exec =>
      some (exec.orderReferenceNumber, exec.executedShares)
  | _ => none

namespace Book

/-! ## §1  Shares -/

namespace OrderList

variable {os : OrderList} {o : RestingOrder} {ref : UInt64} {side : Side}

/-- The shares left on the order `ref`. -/
def sharesOf (os : OrderList) (ref : UInt64) : ℕ :=
  ((os.find? ref).map (·.shares.toNat)).getD 0

theorem find?_setShares (os : OrderList) (ref ref' : UInt64) (n : UInt32) :
    (os.setShares ref n).find? ref' = (os.find? ref').map
      (fun o => if o.referenceNumber = ref then { o with shares := n }
        else o) := by
  rw [find?, setShares, List.find?_map, find?]
  congr 2
  funext o
  simp only [Function.comp_apply]
  split <;> rfl

/-- An execution takes from the list what it returns. -/
theorem totalShares_execute (hn : os.RefsNodup) (ref : UInt64) (n : UInt32) :
    (os.execute ref n).1.totalShares + (os.execute ref n).2.toNat =
      os.totalShares := by
  cases hf : os.find? ref with
  | none => simp [execute, hf]
  | some o =>
      obtain ⟨ho, rfl⟩ := find?_some hf
      simp only [execute, hf]
      split
      · next hall =>
          rw [hall]
          exact hn.totalShares_delete ho
      · have hle : min n o.shares ≤ o.shares := Std.min_le_right
        have hset := hn.totalShares_setShares ho (o.shares - min n o.shares)
        rw [UInt32.toNat_sub_of_le _ _ hle] at hset
        have hle' := UInt32.le_iff_toNat_le.mp hle
        simp only
        omega

theorem sharesOf_delete (os : OrderList) (ref ref' : UInt64) :
    (os.delete ref).sharesOf ref' =
      if ref' = ref then 0 else os.sharesOf ref' := by
  rw [sharesOf, find?_delete]
  split <;> rfl

/-- What an execution returns comes from the order it names. -/
theorem sharesOf_execute (os : OrderList) (ref ref' : UInt64) (n : UInt32) :
    (os.execute ref n).1.sharesOf ref' +
        (if ref' = ref then (os.execute ref n).2.toNat else 0) =
      os.sharesOf ref' := by
  cases hf : os.find? ref with
  | none => simp [execute, hf]
  | some o =>
      obtain ⟨_, rfl⟩ := find?_some hf
      simp only [execute, hf]
      split
      · next hall =>
          simp only [sharesOf_delete]
          split
          · next he => simp [he, sharesOf, hf, hall]
          · rfl
      · have hle : min n o.shares ≤ o.shares := Std.min_le_right
        simp only [sharesOf, find?_setShares]
        split
        · next he =>
            have hle' := UInt32.le_iff_toNat_le.mp hle
            simp only [he, hf, Option.map_some, if_pos, Option.getD_some,
              UInt32.toNat_sub_of_le _ _ hle]
            omega
        · next hne =>
            cases hf' : os.find? ref' with
            | none => rfl
            | some o' =>
                obtain ⟨_, rfl⟩ := find?_some hf'
                simp only [Option.map_some, if_neg hne, Option.getD_some,
                  Nat.add_zero]

theorem sharesOf_add (os : OrderList) (o : RestingOrder) (ref : UInt64) :
    (os.add o).sharesOf ref =
      if o.referenceNumber = ref ∧ os.find? ref = none then o.shares.toNat
      else os.sharesOf ref := by
  rw [add]
  cases hf : os.find? o.referenceNumber with
  | some o' =>
      rw [Option.isSome_some, if_pos rfl, if_neg]
      rintro ⟨rfl, hnone⟩
      rw [hnone] at hf
      cases hf
  | none =>
      rw [Option.isSome_none, if_neg Bool.false_ne_true, sharesOf,
        find?_append_singleton, sharesOf]
      by_cases he : o.referenceNumber = ref
      · rw [if_pos he, if_pos ⟨he, he ▸ hf⟩, ← he, hf]
        rfl
      · rw [if_neg he, if_neg fun h => he h.1, Option.or_none]

/-- The levels of a side hold the orders of the side. -/
theorem sum_queues {ps : List UInt32} (hps : ps.Nodup)
    (hall : ∀ o ∈ os, o.side = side → o.price ∈ ps) :
    (ps.map (fun p => (os.queue side p).totalShares)).sum =
      totalShares (os.filter (fun o => decide (o.side = side))) := by
  rw [← List.sum_toFinset _ hps]
  induction os with
  | nil => simp [totalShares, queue]
  | cons o os ih =>
      have ih := ih fun x hx => hall x (List.mem_cons_of_mem _ hx)
      by_cases hs : o.side = side
      · have hqueue : ∀ p, (queue (o :: os) side p).totalShares =
            (if o.price = p then o.shares.toNat else 0) +
              (queue os side p).totalShares := by
          intro p
          rw [queue, List.filter_cons]
          by_cases hp : o.price = p
          · rw [if_pos (by simp [hs, hp]), if_pos hp, totalShares_cons]
            rfl
          · rw [if_neg (by simp [hp]), if_neg hp, Nat.zero_add]
            rfl
        have hmem : o.price ∈ ps.toFinset :=
          List.mem_toFinset.mpr (hall o List.mem_cons_self hs)
        rw [List.filter_cons, if_pos (by simpa using hs), totalShares_cons,
          Finset.sum_congr rfl fun p _ => hqueue p, Finset.sum_add_distrib,
          Finset.sum_ite_eq, if_pos hmem, ih]
      · have hqueue : ∀ p, queue (o :: os) side p = queue os side p :=
          fun p => queue_cons_other (fun h => hs h.1) os
        rw [List.filter_cons, if_neg (by simpa using hs), ← ih]
        exact Finset.sum_congr rfl fun p _ => by rw [hqueue]

theorem totalShares_sides (os : OrderList) :
    totalShares (os.filter (fun o => decide (o.side = .buy))) +
        totalShares (os.filter (fun o => decide (o.side = .sell))) =
      os.totalShares := by
  induction os with
  | nil => rfl
  | cons o os ih =>
      rw [List.filter_cons, List.filter_cons, totalShares_cons, ← ih]
      cases hs : o.side
      · simp only [decide_true, if_true, totalShares_cons, reduceCtorEq,
          decide_false, Bool.false_eq_true, if_false]
        omega
      · simp only [decide_true, if_true, totalShares_cons, reduceCtorEq,
          decide_false, Bool.false_eq_true, if_false]
        omega

end OrderList

namespace L3Book

variable {b : L3Book} {os : OrderList}

/-- The total resting shares of a book: what its levels hold. -/
def restingShares (b : L3Book) : ℕ :=
  ((b.bids ++ b.asks).map (·.totalShares.toNat)).sum

/-- The shares left on the order `ref`, like `orderPrice` and `orderSide`. -/
def orderShares (b : L3Book) (referenceNumber : UInt64) : Option UInt32 :=
  let nodeIndex := b.index.find referenceNumber
  if nodeIndex = NPOS then none else some (b.node nodeIndex).shares

theorem Rep.orderShares (h : Rep b os) (ref : UInt64) :
    b.orderShares ref = (os.find? ref).map (·.shares) := by
  rw [L3Book.orderShares]
  cases hf : os.find? ref with
  | none => rw [if_pos (h.absent ref hf), Option.map_none]
  | some o =>
      obtain ⟨ho, rfl⟩ := OrderList.find?_some hf
      have hne : b.index.find o.referenceNumber ≠ NPOS := h.slot_ne_nil ho
      rw [if_neg hne, Option.map_some]
      exact congrArg some (h.nodes o ho).shares

theorem Rep.sum_levels (h : Rep b os) (side : Side) :
    ((b.sideLevels side).map (·.totalShares.toNat)).sum =
      OrderList.totalShares (os.filter (fun o => decide (o.side = side))) := by
  have hL := h.ladder side
  have hps : ((b.sideLevels side).map (·.price)).Nodup :=
    SortedLadder.sorted_keys_nodup side.priority hL.sorted
  rw [← OrderList.sum_queues hps, List.map_map]
  · exact congrArg List.sum
      (List.map_congr_left fun l hl => (hL.levels l hl).total)
  · intro o ho hs
    obtain ⟨l, hl, hp⟩ := hL.complete o ho hs
    rw [← hp]
    exact List.mem_map_of_mem hl

theorem Rep.restingShares (h : Rep b os) :
    b.restingShares = os.totalShares := by
  rw [L3Book.restingShares, List.map_append, List.sum_append,
    ← os.totalShares_sides, ← h.sum_levels, ← h.sum_levels]
  rfl

end L3Book

/-! ## §2  Books that represent order lists -/

/-- The pool has a node for the order that a call adds. -/
def BookOp.HasRoom (b : L3Book) : BookOp → Prop
  | .addOrder ref _ _ _ =>
      b.contains ref = false → b.index.size + 1 < 2 ^ 32
  | _ => True

instance (op : BookOp) (b : L3Book) : Decidable (op.HasRoom b) := by
  cases op
  case addOrder ref side shares price =>
    exact inferInstanceAs (Decidable (_ → _))
  all_goals exact inferInstanceAs (Decidable True)

theorem BookOp.HasRoom.rep {b : L3Book} {os : OrderList} {op : BookOp}
    (hroom : op.HasRoom b) (h : b.Rep os) :
    (op.onBook b).1.Rep (op.onList os).1 := by
  cases op with
  | addOrder ref side shares price =>
      refine (BookOp.step h _ ?_).1
      rw [HasRoom, h.contains, OrderList.contains, h.size] at hroom
      rw [onList, OrderList.add]
      cases hf : os.find? ref with
      | some o => simpa [hf] using h.length_lt
      | none => simpa [hf] using hroom (by rw [hf]; rfl)
  | executeOrder ref n => exact (h.executeOrder ref n).1
  | reduceOrder ref n => exact (h.executeOrder ref n).1
  | deleteOrder ref => exact h.deleteOrder ref
  | replaceOrder oldRef newRef shares price =>
      exact h.replaceOrder oldRef newRef shares price

/-- The order that a call puts on the book: its reference number and its
shares. -/
def BookOp.entered (b : L3Book) : BookOp → Option (UInt64 × UInt32)
  | .addOrder ref _ shares _ =>
      if b.contains ref then none else some (ref, shares)
  | .replaceOrder oldRef newRef shares _ =>
      if b.contains oldRef ∧ (newRef = oldRef ∨ ¬ b.contains newRef) then
        some (newRef, shares)
      else none
  | _ => none

/-- What a call takes from the order `ref` by an execution. -/
def BookOp.executed (os : OrderList) (ref : UInt64) : BookOp → ℕ
  | .executeOrder ref' n => if ref = ref' then (os.execute ref' n).2.toNat else 0
  | _ => 0

/-- No call but one that puts it on the book gives an order shares. -/
theorem BookOp.sharesOf_onList {b : L3Book} {os : OrderList} (h : b.Rep os)
    (op : BookOp) (ref : UInt64) :
    (∃ n, op.entered b = some (ref, n) ∧
      (op.onList os).1.sharesOf ref = n.toNat) ∨
    (∀ n, op.entered b ≠ some (ref, n)) ∧
      (op.onList os).1.sharesOf ref + op.executed os ref ≤
        os.sharesOf ref := by
  have hcontains : ∀ ref', b.contains ref' = (os.find? ref').isSome :=
    h.contains
  cases op with
  | addOrder ref' side n price =>
      simp only [entered, hcontains, executed, onList, Nat.add_zero,
        OrderList.sharesOf_add]
      by_cases hnew : ref' = ref ∧ os.find? ref = none
      · obtain ⟨rfl, hf⟩ := hnew
        refine Or.inl ⟨n, ?_, if_pos ⟨rfl, hf⟩⟩
        rw [hf]
        rfl
      · refine Or.inr ⟨fun m he => hnew ?_, le_of_eq (if_neg hnew)⟩
        split at he
        · cases he
        · next hsome =>
            cases he
            exact ⟨rfl, Option.not_isSome_iff_eq_none.mp hsome⟩
  | executeOrder ref' n =>
      refine Or.inr ⟨fun _ he => (Option.some_ne_none _ he.symm).elim, ?_⟩
      exact le_of_eq (os.sharesOf_execute ref' ref n)
  | reduceOrder ref' n =>
      -- a cancel takes shares too, but they are not printed
      refine Or.inr ⟨fun _ he => (Option.some_ne_none _ he.symm).elim, ?_⟩
      exact Nat.le.intro (os.sharesOf_execute ref' ref n)
  | deleteOrder ref' =>
      refine Or.inr ⟨fun _ he => (Option.some_ne_none _ he.symm).elim, ?_⟩
      show (os.delete ref').sharesOf ref + 0 ≤ _
      rw [os.sharesOf_delete]
      split <;> omega
  | replaceOrder oldRef newRef n price =>
      simp only [entered, hcontains, executed, onList, OrderList.replace]
      cases hf : os.find? oldRef with
      | none => exact Or.inr ⟨fun _ he => by simp at he, le_refl _⟩
      | some o =>
          simp only [OrderList.sharesOf_add, OrderList.find?_delete,
            OrderList.sharesOf_delete]
          -- the new order rests unless its reference does, the old one apart
          by_cases hnew : newRef = ref ∧
              (if ref = oldRef then none else os.find? ref) = none
          · rw [if_pos hnew]
            obtain ⟨rfl, hnone⟩ := hnew
            refine Or.inl ⟨n, if_pos ⟨rfl, ?_⟩, rfl⟩
            split at hnone
            · next he => exact Or.inl he
            · exact Or.inr (by rw [hnone]; simp)
          · rw [if_neg hnew]
            refine Or.inr ⟨fun m he => hnew ?_, by split <;> omega⟩
            split at he
            · next hin =>
                cases he
                refine ⟨rfl, ?_⟩
                rcases hin.2 with rfl | hnone
                · exact if_pos rfl
                · rw [Option.not_isSome_iff_eq_none.mp hnone, ite_self]
            · cases he

namespace BookManager

variable {m : BookManager} {msg : Message} {msgs : List Message} {l : UInt16}
  {e : Option BookEntry} {slot : BookEntry} {os : OrderList} {ref : UInt64}

/-- The pool has a node for the order that a message adds. -/
def HasRoom (m : BookManager) (msg : Message) : Prop :=
  ∀ op ∈ msg.bookOp, ∀ slot ∈ m.target msg (m.entry msg.stockLocate),
    op.HasRoom slot.book

instance : DecidableRel HasRoom := fun m msg =>
  inferInstanceAs (Decidable (∀ op ∈ msg.bookOp,
    ∀ slot ∈ m.target msg (m.entry msg.stockLocate), op.HasRoom slot.book))

theorem target_rep {c : ManagerConfig} (h : (entryBook e).Rep os)
    (ht : c.target msg e = some slot) : slot.book.Rep os := by
  rw [ManagerConfig.target] at ht
  cases hs : msg.addSymbol with
  | none =>
      rw [hs] at ht
      rw [show e = some slot from ht] at h
      exact h
  | some symbol =>
      simp only [hs] at ht
      cases e with
      | some slot₀ =>
          rw [← Option.some.inj ht]
          split
          · exact h.setSymbol symbol
          · exact h
      | none =>
          simp only [ManagerConfig.ensure] at ht
          split at ht
          · rw [← Option.some.inj ht]
            exact h.setSymbol symbol
          · cases ht

theorem rep_none (h : (entryBook none).Rep os) : os = [] := by
  rw [← List.isEmpty_iff, ← h.empty]
  rfl

/-- What a message does to the orders at its locate code. -/
theorem process_rep (hroom : HasRoom m msg)
    (h : (entryBook (m.entry msg.stockLocate)).Rep os) :
    (∃ op slot, msg.bookOp = some op ∧
      m.target msg (m.entry msg.stockLocate) = some slot ∧
      slot.book.Rep os ∧
      (m.process msg).1.entry msg.stockLocate = some (slot.apply op) ∧
      (slot.apply op).book.Rep (op.onList os).1) ∨
    (msg.bookOp = none ∨ m.target msg (m.entry msg.stockLocate) = none) ∧
      (m.process msg).1.entry msg.stockLocate = m.entry msg.stockLocate := by
  rw [(processed m msg).own, ManagerConfig.localStep]
  cases hop : msg.bookOp with
  | none => exact Or.inr ⟨Or.inl rfl, rfl⟩
  | some op =>
      cases ht : m.target msg (m.entry msg.stockLocate) with
      | none => exact Or.inr ⟨Or.inr rfl, rfl⟩
      | some slot =>
          have hslot := target_rep h ht
          exact Or.inl ⟨op, slot, rfl, rfl, hslot, rfl,
            (hroom op hop slot ht).rep hslot⟩

/-- Every book represents an order list. -/
def Sound (m : BookManager) : Prop := ∀ l, ∃ os, (entryBook (m.entry l)).Rep os

theorem Sound.process (h : Sound m) (hroom : HasRoom m msg) :
    Sound (m.process msg).1 := by
  intro l
  by_cases hl : l = msg.stockLocate
  · obtain ⟨os, hos⟩ := h msg.stockLocate
    rw [hl]
    rcases process_rep hroom hos with ⟨op, slot, _, _, _, he, hrep⟩ | ⟨_, he⟩
    · rw [he]
      exact ⟨_, hrep⟩
    · rw [he]
      exact ⟨os, hos⟩
  · rw [(processed m msg).other l hl]
    exact h l

/-! ## §3  What an execution prints -/

/-- The shares of some trades. -/
def tapeShares (trades : List Trade) : ℕ := (trades.map (·.shares.toNat)).sum

/-- The trades of a message total what it takes from its book, and there is
none if it takes nothing. -/
def Conserves (m : BookManager) (msg : Message) : Prop :=
  ∀ b, m.book msg.stockLocate = some b →
    ∃ b', (m.process msg).1.book msg.stockLocate = some b' ∧
      tapeShares (tape (m.process msg).2) + b'.restingShares =
        b.restingShares ∧
      (b'.restingShares = b.restingShares → tape (m.process msg).2 = [])

/-- An execution carries at least one share, and no more than its order has
left; `C` must name an order that rests. -/
def ExecutionOn (b : L3Book) : Message → Prop
  | .orderExecuted exec =>
      ∀ shares ∈ b.orderShares exec.orderReferenceNumber,
        0 < exec.executedShares ∧ exec.executedShares ≤ shares
  | .orderExecutedWithPrice exec =>
      ∃ shares ∈ b.orderShares exec.orderReferenceNumber,
        0 < exec.executedShares ∧ exec.executedShares ≤ shares
  | _ => True

instance (b : L3Book) (msg : Message) : Decidable (ExecutionOn b msg) := by
  cases msg
  case orderExecuted exec =>
    show Decidable (∀ shares ∈ b.orderShares exec.orderReferenceNumber,
      0 < exec.executedShares ∧ exec.executedShares ≤ shares)
    exact Option.decidableForallMem _
  case orderExecutedWithPrice exec =>
    show Decidable (∃ shares ∈ b.orderShares exec.orderReferenceNumber,
      0 < exec.executedShares ∧ exec.executedShares ≤ shares)
    exact Option.decidableExistsMem _
  all_goals exact inferInstanceAs (Decidable True)

/-- The condition on the executions that find a book. -/
def ExecutionOk (m : BookManager) (msg : Message) : Prop :=
  ∀ slot ∈ m.entry msg.stockLocate, ExecutionOn slot.book msg

instance : DecidableRel ExecutionOk := fun m msg =>
  inferInstanceAs (Decidable (∀ slot ∈ m.entry msg.stockLocate,
    ExecutionOn slot.book msg))

theorem tapeShares_singleton (t : Trade) : tapeShares [t] = t.shares.toNat :=
  Nat.add_zero _

/-- When the shares of a message are those taken, and there are some. -/
theorem taken_iff (n shares : UInt32) :
    n.toNat = (min n shares).toNat ∧ (min n shares).toNat ≠ 0 ↔
      0 < n ∧ n ≤ shares := by
  rw [Std.min_eq_if, UInt32.lt_iff_toNat_lt, UInt32.toNat_zero]
  split
  · next hle =>
      rw [and_iff_left hle]
      omega
  · next hle =>
      rw [UInt32.le_iff_toNat_le] at hle ⊢
      omega

theorem execution_spec {n : UInt32} (hexec : msg.execution = some (ref, n)) :
    msg.bookOp = some (.executeOrder ref n) ∧ msg.addSymbol = none := by
  cases msg
  case orderExecuted exec =>
    cases hexec
    exact ⟨rfl, rfl⟩
  case orderExecutedWithPrice exec =>
    cases hexec
    exact ⟨rfl, rfl⟩
  all_goals cases hexec

/-- An execution on a book: what it prints and what it takes. -/
theorem process_execution (hc : m.hasTradeCallback = true) {n : UInt32}
    (hexec : msg.execution = some (ref, n))
    (he : m.entry msg.stockLocate = some slot) (h : slot.book.Rep os) :
    tape (m.process msg).2 = printed (some slot) msg ∧
      ∃ slot', (m.process msg).1.entry msg.stockLocate = some slot' ∧
        slot'.book.Rep (os.execute ref n).1 := by
  obtain ⟨hop, hsymbol⟩ := execution_spec hexec
  have htarget : m.target msg (m.entry msg.stockLocate) = some slot := by
    rw [ManagerConfig.target, hsymbol, he]
  refine ⟨?_, slot.apply (.executeOrder ref n), ?_, ?_⟩
  · rw [tape_process hc, he]
  · rw [(processed m msg).own, ManagerConfig.localStep, hop, htarget]
  · exact (h.executeOrder ref n).1

theorem conserves_iff_taken (hc : m.hasTradeCallback = true) {n : UInt32}
    (hexec : msg.execution = some (ref, n))
    (he : m.entry msg.stockLocate = some slot) (h : slot.book.Rep os) :
    m.Conserves msg ↔
      tapeShares (printed (some slot) msg) = (os.execute ref n).2.toNat ∧
      ((os.execute ref n).2.toNat = 0 → printed (some slot) msg = []) := by
  obtain ⟨htape, slot', he', h'⟩ := process_execution hc hexec he h
  have hbook : m.book msg.stockLocate = some slot.book := by
    rw [book, he]
    rfl
  have hbook' : (m.process msg).1.book msg.stockLocate = some slot'.book := by
    rw [book, he']
    rfl
  have htotal := OrderList.totalShares_execute h.refs ref n
  rw [Conserves, hbook, hbook', htape]
  simp only [Option.some.injEq, forall_eq', exists_eq_left', h.restingShares,
    h'.restingShares]
  refine and_congr (by omega) (imp_congr_left (by omega))

theorem executed_toNat (os : OrderList) (ref : UInt64) (n : UInt32) :
    (os.execute ref n).2.toNat =
      ((os.find? ref).map fun o => (min n o.shares).toNat).getD 0 := by
  rw [OrderList.execute]
  cases os.find? ref with
  | none => rfl
  | some o =>
      simp only
      split <;> rfl

/-- An execution on a book prints what it takes exactly if it is in order. -/
theorem conserves_iff (hc : m.hasTradeCallback = true) (hsound : Sound m)
    (hexec : msg.execution ≠ none) :
    m.Conserves msg ↔ m.ExecutionOk msg := by
  cases he : m.entry msg.stockLocate with
  | none =>
      refine iff_of_true ?_ ?_
      · intro b hb
        rw [book, he] at hb
        cases hb
      · intro slot hslot
        rw [he] at hslot
        cases hslot
  | some slot =>
      obtain ⟨os, h⟩ := hsound msg.stockLocate
      rw [he] at h
      replace h : slot.book.Rep os := h
      have hok : m.ExecutionOk msg ↔ ExecutionOn slot.book msg := by
        rw [ExecutionOk, he]
        simp only [Option.mem_some_iff, forall_eq']
      rw [hok]
      cases msg
      case orderExecuted exec =>
        rw [conserves_iff_taken hc rfl he h, executed_toNat]
        simp only [ExecutionOn, printed, h.orderPrice, OrderList.orderPrice,
          h.orderShares]
        cases os.find? exec.orderReferenceNumber with
        | none => simp [tapeShares]
        | some o => simp [tapeShares_singleton, ← taken_iff]
      case orderExecutedWithPrice exec =>
        rw [conserves_iff_taken hc rfl he h, executed_toNat]
        simp only [ExecutionOn, printed, h.orderShares]
        cases os.find? exec.orderReferenceNumber with
        | none => simp [tapeShares]
        | some o => simp [tapeShares_singleton, ← taken_iff]
      all_goals exact absurd rfl hexec

/-! ## §4  An order over a run -/

/-- The order that a message puts on its book, with its shares. -/
def entered (m : BookManager) (msg : Message) : Option (UInt64 × UInt32) :=
  msg.bookOp.bind fun op =>
    (m.target msg (m.entry msg.stockLocate)).bind fun slot =>
      op.entered slot.book

/-- The shares left on the order `ref` at `l`. -/
def sharesLeft (m : BookManager) (l : UInt16) (ref : UInt64) : ℕ :=
  (((entryBook (m.entry l)).orderShares ref).map UInt32.toNat).getD 0

/-- What a message prints for the order `ref` at `l`. -/
def printedBy (l : UInt16) (ref : UInt64) (m : BookManager) (msg : Message) :
    ℕ :=
  if msg.stockLocate = l ∧ msg.execution.map Prod.fst = some ref then
    tapeShares (tape (m.process msg).2)
  else 0

/-- What a run prints for the order `ref` at `l`. -/
def printedFor (l : UInt16) (ref : UInt64) : BookManager → List Message → ℕ
  | _, [] => 0
  | m, msg :: msgs =>
      printedBy l ref m msg + printedFor l ref (m.process msg).1 msgs

theorem sharesLeft_eq (h : (entryBook (m.entry l)).Rep os) (ref : UInt64) :
    m.sharesLeft l ref = os.sharesOf ref := by
  rw [sharesLeft, h.orderShares, Option.map_map]
  rfl

theorem executed_of_not_execution {op : BookOp} (hexec : msg.execution = none)
    (hop : msg.bookOp = some op) (os : OrderList) (ref : UInt64) :
    op.executed os ref = 0 := by
  cases msg
  case orderExecuted exec => cases hexec
  case orderExecutedWithPrice exec => cases hexec
  all_goals cases hop <;> rfl

/-- What an execution prints for its order is what it takes from it. -/
theorem printedBy_own (hc : m.hasTradeCallback = true) (hsound : Sound m)
    (hok : m.ExecutionOk msg)
    (h : (entryBook (m.entry msg.stockLocate)).Rep os) (ref : UInt64) :
    printedBy msg.stockLocate ref m msg =
      (msg.bookOp.map (BookOp.executed os ref)).getD 0 := by
  rw [printedBy]
  cases hexec : msg.execution with
  | none =>
      rw [if_neg fun hand => by cases hand.2]
      cases hop : msg.bookOp with
      | none => rfl
      | some op => exact (executed_of_not_execution hexec hop os ref).symm
  | some order =>
      obtain ⟨ref', n⟩ := order
      obtain ⟨hop, _⟩ := execution_spec hexec
      have htrade := tradeSymbol_of_bookOp hop
      rw [hop]
      show _ = if ref = ref' then (os.execute ref' n).2.toNat else 0
      by_cases href : ref = ref'
      · rw [if_pos ⟨rfl, congrArg some href.symm⟩, if_pos href]
        cases he : m.entry msg.stockLocate with
        | none =>
            rw [he] at h
            rw [tape_process hc, he, printed_none htrade, rep_none h]
            rfl
        | some slot =>
            rw [he] at h
            replace h : slot.book.Rep os := h
            have hcons := (conserves_iff hc hsound
              (by rw [hexec]; exact Option.some_ne_none _)).mpr hok
            rw [tape_process hc, he]
            exact ((conserves_iff_taken hc hexec he h).mp hcons).1
      · rw [if_neg fun hand => href (Option.some.inj hand.2).symm,
          if_neg href]

/-- One step, seen from the order `ref` at `l`: it is put on the book, or what
is printed for it comes from what it had left. -/
theorem sharesLeft_process (hc : m.hasTradeCallback = true)
    (hsound : Sound m) (hroom : HasRoom m msg) (hok : m.ExecutionOk msg)
    (l : UInt16) (ref : UInt64) :
    (∃ n, msg.stockLocate = l ∧ m.entered msg = some (ref, n) ∧
      (m.process msg).1.sharesLeft l ref = n.toNat) ∨
    (msg.stockLocate = l → ∀ n, m.entered msg ≠ some (ref, n)) ∧
      printedBy l ref m msg + (m.process msg).1.sharesLeft l ref ≤
        m.sharesLeft l ref := by
  by_cases hl : msg.stockLocate = l
  · obtain ⟨os, hos⟩ := hsound msg.stockLocate
    have hprinted := printedBy_own hc hsound hok hos ref
    rw [← hl]
    rcases process_rep hroom hos with
      ⟨op, slot, hop, htarget, hslot, he, hrep⟩ | ⟨hidle, he⟩
    · have hleft : (m.process msg).1.sharesLeft msg.stockLocate ref =
          (op.onList os).1.sharesOf ref := by
        refine sharesLeft_eq ?_ ref
        rw [he]
        exact hrep
      have hentered : m.entered msg = op.entered slot.book := by
        rw [entered, hop, htarget]
        rfl
      rw [hop] at hprinted
      rw [hentered, hleft, sharesLeft_eq hos, hprinted]
      rcases op.sharesOf_onList hslot ref with ⟨n, hin, hn⟩ | ⟨hout, hle⟩
      · exact Or.inl ⟨n, rfl, hin, hn⟩
      · refine Or.inr ⟨fun _ => hout, ?_⟩
        rw [Nat.add_comm]
        exact hle
    · have hentered : m.entered msg = none := by
        rw [entered]
        rcases hidle with hop | htarget
        · rw [hop]
          rfl
        · rw [htarget]
          cases msg.bookOp <;> rfl
      -- an execution that reaches no book has none to take shares from
      have hzero : printedBy msg.stockLocate ref m msg = 0 := by
        rw [hprinted]
        rcases hidle with hop | htarget
        · rw [hop]
          rfl
        · cases hexec : msg.execution with
          | none =>
              cases hop : msg.bookOp with
              | none => rfl
              | some op => exact executed_of_not_execution hexec hop os ref
          | some order =>
              obtain ⟨hop, hsymbol⟩ := execution_spec hexec
              rw [ManagerConfig.target, hsymbol] at htarget
              rw [show m.entry msg.stockLocate = none from htarget] at hos
              rw [hop, rep_none hos]
              exact ite_self 0
      refine Or.inr ⟨fun _ n hn => ?_, ?_⟩
      · rw [hentered] at hn
        cases hn
      · rw [hzero, sharesLeft, he, Nat.zero_add, sharesLeft]
  · refine Or.inr ⟨fun he => absurd he hl, ?_⟩
    have hother := (processed m msg).other l (Ne.symm hl)
    rw [printedBy, if_neg fun hand => hl hand.1, sharesLeft, hother,
      Nat.zero_add, sharesLeft]

/-- While nothing puts it on the book again, an order prints no more than it
had left. -/
theorem printedFor_le (hc : m.hasTradeCallback = true) (hsound : Sound m)
    (hroom : Legal process HasRoom m msgs)
    (hok : Legal process ExecutionOk m msgs) {l : UInt16} {ref : UInt64}
    (hnot : Legal process (fun m msg => msg.stockLocate = l →
      (m.entered msg).map Prod.fst ≠ some ref) m msgs) :
    printedFor l ref m msgs ≤ m.sharesLeft l ref := by
  induction msgs generalizing m with
  | nil => exact Nat.zero_le _
  | cons msg msgs ih =>
      obtain ⟨hroom, hrooms⟩ := hroom
      obtain ⟨hok, hoks⟩ := hok
      obtain ⟨hnot, hnots⟩ := hnot
      have hc' : (m.process msg).1.hasTradeCallback = true :=
        (congrArg ManagerConfig.hasTradeCallback (processed m msg).config).trans
          hc
      have hrest := ih hc' (hsound.process hroom) hrooms hoks hnots
      rcases sharesLeft_process hc hsound hroom hok l ref with
        ⟨n, hl, hin, _⟩ | ⟨_, hle⟩
      · exact absurd (congrArg (Option.map Prod.fst) hin) (hnot hl)
      · calc printedFor l ref m (msg :: msgs)
            = printedBy l ref m msg +
                printedFor l ref (m.process msg).1 msgs := rfl
          _ ≤ printedBy l ref m msg + (m.process msg).1.sharesLeft l ref :=
              Nat.add_le_add_left hrest _
          _ ≤ m.sharesLeft l ref := hle

theorem sound_run {c : ManagerConfig}
    (hroom : Legal process HasRoom { toManagerConfig := c } msgs) :
    Sound (run process { toManagerConfig := c } msgs).1 := by
  have hstart : Sound { toManagerConfig := c } :=
    fun l => ⟨[], L3Book.rep_empty []⟩
  induction msgs using List.reverseRecOn with
  | nil => exact hstart
  | append_singleton msgs msg ih =>
      obtain ⟨hrooms, hroom⟩ := legal_snoc.mp hroom
      rw [run_snoc]
      exact (ih hrooms).process hroom

/-- **When tape and book conserve shares together.** As long as the pools have
room, an execution on a book prints the shares it takes exactly if it is in
order; and if all are, no order prints more than it was added with. -/
theorem tape_conserves_shares {c : ManagerConfig}
    (hc : c.hasTradeCallback = true)
    (hroom : Legal process HasRoom { toManagerConfig := c } msgs) :
    (∀ pre msg, pre ++ [msg] <+: msgs → msg.execution ≠ none →
      (Conserves (run process { toManagerConfig := c } pre).1 msg ↔
        ExecutionOk (run process { toManagerConfig := c } pre).1 msg)) ∧
    (Legal process ExecutionOk { toManagerConfig := c } msgs →
      ∀ pre msg post ref n, pre ++ msg :: post = msgs →
        entered (run process { toManagerConfig := c } pre).1 msg =
          some (ref, n) →
        Legal process (fun m msg' => msg'.stockLocate = msg.stockLocate →
            (m.entered msg').map Prod.fst ≠ some ref)
          (run process { toManagerConfig := c } (pre ++ [msg])).1 post →
        printedFor msg.stockLocate ref
          (run process { toManagerConfig := c } (pre ++ [msg])).1 post ≤
            n.toNat) := by
  have hcall : ∀ pre, (run process { toManagerConfig := c }
      pre).1.hasTradeCallback = true := fun pre =>
    (congrArg ManagerConfig.hasTradeCallback (config_run _ pre)).trans hc
  constructor
  · intro pre msg hpre hexec
    refine conserves_iff (hcall pre) (sound_run (hroom.of_prefix ?_)) hexec
    exact (List.prefix_append pre [msg]).trans hpre
  · rintro hok pre msg post ref n rfl hin hnot
    rw [List.append_cons] at hroom hok
    obtain ⟨hroom, hrooms⟩ := legal_append.mp hroom
    obtain ⟨hok, hoks⟩ := legal_append.mp hok
    -- the order starts out with the shares that its message names
    have hleft : (run process { toManagerConfig := c }
        (pre ++ [msg])).1.sharesLeft msg.stockLocate ref = n.toNat := by
      rw [legal_snoc] at hroom hok
      rw [run_snoc]
      rcases sharesLeft_process (hcall pre) (sound_run hroom.1) hroom.2 hok.2
        msg.stockLocate ref with ⟨n', _, hin', hn'⟩ | ⟨hout, _⟩
      · rw [hin] at hin'
        cases hin'
        exact hn'
      · exact absurd hin (hout rfl n)
    rw [← hleft]
    exact printedFor_le (hcall _) (sound_run hroom) hrooms hoks hnot

/-- The add message of `oneOrder`, of 100 shares. -/
def addHundred : Message := oneOrder.head (List.cons_ne_nil _ _)

def execute (ref : UInt64) (shares : UInt32) : Message :=
  .orderExecuted { stockLocate := 3, orderReferenceNumber := ref
                   executedShares := shares }

def executeWithPrice (ref : UInt64) (shares : UInt32) : Message :=
  .orderExecutedWithPrice
    { stockLocate := 3, orderReferenceNumber := ref, executedShares := shares
      printable := 'Y'.toUInt8, executionPrice := 21 }

theorem tape_conserves_shares_twoExecutions :
    printedFor 3 1 (run process { hasTradeCallback := true } [addHundred]).1
      [execute 1 40, executeWithPrice 1 60] ≤ 100 := by
  have hroom : Legal process HasRoom { hasTradeCallback := true }
      [addHundred, execute 1 40, executeWithPrice 1 60] := by decide +kernel
  have hok : Legal process ExecutionOk { hasTradeCallback := true }
      [addHundred, execute 1 40, executeWithPrice 1 60] := by decide +kernel
  exact (tape_conserves_shares (c := { hasTradeCallback := true }) rfl
    hroom).2 hok [] addHundred _ 1 100 rfl (by decide +kernel)
    (by decide +kernel)

/-- The tape has 150 shares of an order of 100, and 10 of none. -/
theorem tape_prints_more_than_rested :
    Legal process HasRoom { hasTradeCallback := true }
        [addHundred, execute 1 150, executeWithPrice 2 10] ∧
      printedFor 3 1 (run process { hasTradeCallback := true }
        [addHundred]).1 [execute 1 150] = 150 ∧
      ¬ Conserves (run process { hasTradeCallback := true }
        [addHundred]).1 (execute 1 150) ∧
      printedFor 3 2 (run process { hasTradeCallback := true }
        [addHundred, execute 1 150]).1 [executeWithPrice 2 10] = 10 ∧
      ¬ Conserves (run process { hasTradeCallback := true }
        [addHundred, execute 1 150]).1 (executeWithPrice 2 10) := by
  have hroom : Legal process HasRoom { hasTradeCallback := true }
      [addHundred, execute 1 150, executeWithPrice 2 10] := by decide +kernel
  have hnot : ∀ pre msg, pre ++ [msg] <+:
      [addHundred, execute 1 150, executeWithPrice 2 10] →
      msg.execution ≠ none →
      ¬ ExecutionOk (run process { hasTradeCallback := true } pre).1 msg →
      ¬ Conserves (run process { hasTradeCallback := true } pre).1 msg := by
    intro pre msg hpre hexec hbad hcons
    refine hbad ((conserves_iff ?_ (sound_run (c :=
      { hasTradeCallback := true }) (hroom.of_prefix ?_)) hexec).mp hcons)
    · exact congrArg ManagerConfig.hasTradeCallback (config_run _ pre)
    · exact (List.prefix_append pre [msg]).trans hpre
  refine ⟨hroom, by decide +kernel, ?_, by decide +kernel, ?_⟩
  · exact hnot [addHundred] (execute 1 150) ⟨[executeWithPrice 2 10], rfl⟩
      (Option.some_ne_none _) (by decide +kernel)
  · exact hnot [addHundred, execute 1 150] (executeWithPrice 2 10) ⟨[], rfl⟩
      (Option.some_ne_none _) (by decide +kernel)

end BookManager

end Book

end Itch
