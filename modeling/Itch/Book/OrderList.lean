import Itch.Basic

/-!
# The abstract order list

What a book is for, without pools, ladders or hash tables: the resting orders
in time priority. §1 gives the five operations, §2 the queries, and §3 the
facts about both that refinements use. Nothing here is bounded; totals are
natural numbers.
-/

namespace Itch.Book

open SortedLadder

/-! ## §1  Operations -/

structure RestingOrder where
  referenceNumber : UInt64
  side : Side
  shares : UInt32
  price : UInt32
deriving DecidableEq, Repr

abbrev OrderList : Type := List RestingOrder

namespace OrderList

def find? (os : OrderList) (ref : UInt64) : Option RestingOrder :=
  List.find? (fun o => o.referenceNumber == ref) os

/-- A new order joins the back; a reference that rests already is ignored. -/
def add (os : OrderList) (o : RestingOrder) : OrderList :=
  if (os.find? o.referenceNumber).isSome then os else os ++ [o]

def delete (os : OrderList) (ref : UInt64) : OrderList :=
  os.filter (fun o => o.referenceNumber != ref)

/-- Leaves `shares` on the order `ref`. -/
def setShares (os : OrderList) (ref : UInt64) (shares : UInt32) :
    OrderList :=
  os.map (fun o => if o.referenceNumber = ref then { o with shares } else o)

/-- Removes up to `n` shares; an order with nothing left goes. Returns what
was removed. -/
def execute (os : OrderList) (ref : UInt64) (n : UInt32) :
    OrderList × UInt32 :=
  match os.find? ref with
  | none => (os, 0)
  | some o =>
      let removed := min n o.shares
      if removed = o.shares then (os.delete ref, removed)
      else (os.setShares ref (o.shares - removed), removed)

def replace (os : OrderList) (oldRef newRef : UInt64)
    (shares price : UInt32) : OrderList :=
  match os.find? oldRef with
  | none => os
  | some o => (os.delete oldRef).add ⟨newRef, o.side, shares, price⟩

/-! ## §2  Queries -/

/-- The orders of one price level, oldest first. -/
def queue (os : OrderList) (side : Side) (price : UInt32) : OrderList :=
  os.filter (fun o => decide (o.side = side ∧ o.price = price))

def totalShares (os : OrderList) : ℕ := (os.map (·.shares.toNat)).sum

/-- Sorted insertion of a price, without duplicates. -/
def insertPrice (side : Side) (p : UInt32) : List UInt32 → List UInt32
  | [] => [p]
  | q :: qs =>
      if side.before p q then p :: q :: qs
      else if p = q then q :: qs
      else q :: insertPrice side p qs

/-- The prices of a side, best first. -/
def prices (os : OrderList) (side : Side) : List UInt32 :=
  ((os.filter (fun o => decide (o.side = side))).map (·.price)).foldr
    (insertPrice side) []

/-- The aggregate of one level. -/
def level (os : OrderList) (side : Side) (price : UInt32) : DepthLevel where
  price := ⟨price⟩
  shares := UInt64.ofNat (os.queue side price).totalShares
  orderCount := UInt32.ofNat (os.queue side price).length

/-- Levels of a side, best first; at most `maxLevels` unless that is `0`. -/
def depth (os : OrderList) (side : Side) (maxLevels : ℕ) : List DepthLevel :=
  let levels := (os.prices side).map (os.level side)
  if maxLevels = 0 then levels else levels.take maxLevels

def bbo (os : OrderList) : Bbo :=
  let bid := (os.depth .buy 1).head?
  let ask := (os.depth .sell 1).head?
  { hasBid := bid.isSome
    hasAsk := ask.isSome
    bidPrice := (bid.getD {}).price
    bidShares := (bid.getD {}).shares
    askPrice := (ask.getD {}).price
    askShares := (ask.getD {}).shares }

def ordersAt (os : OrderList) (side : Side) (price : UInt32) :
    List OrderView :=
  (os.queue side price).map
    (fun o => ⟨o.referenceNumber, o.shares, ⟨o.price⟩⟩)

def contains (os : OrderList) (ref : UInt64) : Bool := (os.find? ref).isSome

def orderPrice (os : OrderList) (ref : UInt64) : Option UInt32 :=
  (os.find? ref).map (·.price)

def orderSide (os : OrderList) (ref : UInt64) : Option Side :=
  (os.find? ref).map (·.side)

def levelCount (os : OrderList) (side : Side) : ℕ := (os.prices side).length

/-! ## §3  Facts -/

/-- The references of an order list are distinct. -/
def RefsNodup (os : OrderList) : Prop := (os.map (·.referenceNumber)).Nodup

variable {os : OrderList} {o : RestingOrder} {ref : UInt64} {side : Side}
  {price : UInt32}

theorem find?_some (h : os.find? ref = some o) :
    o ∈ os ∧ o.referenceNumber = ref := by
  refine ⟨List.mem_of_find?_eq_some h, ?_⟩
  simpa using List.find?_some h

theorem find?_none :
    os.find? ref = none ↔ ∀ o ∈ os, o.referenceNumber ≠ ref := by
  simp [find?, List.find?_eq_none]

theorem RefsNodup.inj (hn : os.RefsNodup) {o o' : RestingOrder}
    (ho : o ∈ os) (ho' : o' ∈ os)
    (h : o.referenceNumber = o'.referenceNumber) : o = o' :=
  List.inj_on_of_nodup_map hn ho ho' h

theorem RefsNodup.find? (hn : os.RefsNodup) (ho : o ∈ os) :
    os.find? o.referenceNumber = some o := by
  cases h : os.find? o.referenceNumber with
  | none => exact absurd rfl (find?_none.mp h o ho)
  | some o' =>
      obtain ⟨ho', hr⟩ := find?_some h
      rw [hn.inj ho' ho hr]

theorem RefsNodup.nodup (hn : os.RefsNodup) : os.Nodup :=
  List.Nodup.of_map _ hn

theorem mem_delete {x : RestingOrder} :
    x ∈ os.delete ref ↔ x ∈ os ∧ x.referenceNumber ≠ ref := by
  simp [delete]

theorem RefsNodup.delete (hn : os.RefsNodup) (ref : UInt64) :
    (os.delete ref).RefsNodup :=
  List.Nodup.sublist ((List.filter_sublist).map _) hn

theorem find?_delete (os : OrderList) (ref ref' : UInt64) :
    (os.delete ref).find? ref' =
      if ref' = ref then none else os.find? ref' := by
  by_cases h : ref' = ref
  · rw [if_pos h, find?_none]
    intro o ho
    rw [h]
    exact (mem_delete.mp ho).2
  · rw [if_neg h, find?, delete, List.find?_filter, find?]
    congr 1
    funext o
    by_cases ho : o.referenceNumber = ref'
    · simp [ho, h]
    · simp [ho]

theorem delete_of_not_mem (h : ∀ o ∈ os, o.referenceNumber ≠ ref) :
    os.delete ref = os := by
  rw [delete, List.filter_eq_self]
  intro o ho
  simpa using h o ho

theorem RefsNodup.append (hn : os.RefsNodup)
    (h : ∀ x ∈ os, x.referenceNumber ≠ o.referenceNumber) :
    (os ++ [o]).RefsNodup := by
  rw [RefsNodup, List.map_append, List.nodup_append]
  refine ⟨hn, by simp, ?_⟩
  intro a ha b hb
  obtain ⟨x, hx, rfl⟩ := List.mem_map.mp ha
  rw [List.map_singleton, List.mem_singleton] at hb
  rw [hb]
  exact h x hx

/-- Taking one order out of a list of distinct ones. -/
theorem RefsNodup.split (hn : os.RefsNodup) (ho : o ∈ os) :
    ∃ l r, os = l ++ o :: r ∧ os.delete o.referenceNumber = l ++ r := by
  obtain ⟨l, r, rfl⟩ := List.append_of_mem ho
  refine ⟨l, r, rfl, ?_⟩
  rw [RefsNodup, List.map_append, List.map_cons, List.nodup_append] at hn
  obtain ⟨_, hr, hlr⟩ := hn
  have hr' := (List.nodup_cons.mp hr).1
  have h₁ : OrderList.delete l o.referenceNumber = l :=
    delete_of_not_mem fun x hx => hlr _ (List.mem_map_of_mem hx) _
      List.mem_cons_self
  have h₂ : OrderList.delete r o.referenceNumber = r :=
    delete_of_not_mem fun x hx h => hr' (h ▸ List.mem_map_of_mem hx)
  rw [OrderList.delete] at h₁ h₂ ⊢
  rw [List.filter_append, h₁, List.filter_cons, if_neg (by simp), h₂]

theorem queue_delete (os : OrderList) (ref : UInt64) (side : Side)
    (price : UInt32) :
    (os.delete ref).queue side price = (os.queue side price).delete ref := by
  simp only [delete, queue, List.filter_filter, Bool.and_comm]

theorem RefsNodup.length_delete (hn : os.RefsNodup) (ho : o ∈ os) :
    (os.delete o.referenceNumber).length + 1 = os.length := by
  obtain ⟨l, r, rfl, hdel⟩ := hn.split ho
  rw [hdel, List.length_append, List.length_append, List.length_cons]
  omega

theorem mem_queue {x : RestingOrder} :
    x ∈ os.queue side price ↔ x ∈ os ∧ x.side = side ∧ x.price = price := by
  simp [queue]

theorem queue_append (os os' : OrderList) (side : Side) (price : UInt32) :
    queue (os ++ os') side price = os.queue side price ++
      os'.queue side price := List.filter_append ..

theorem queue_singleton_self (o : RestingOrder) :
    queue [o] o.side o.price = [o] := by simp [queue]

theorem queue_singleton_other (h : ¬ (o.side = side ∧ o.price = price)) :
    queue [o] side price = [] := by simpa [queue] using h

theorem queue_cons_other (h : ¬ (o.side = side ∧ o.price = price))
    (os : OrderList) : queue (o :: os) side price = os.queue side price := by
  rw [queue, List.filter_cons, if_neg (by simpa using h), queue]

theorem RefsNodup.queue (hn : os.RefsNodup) (side : Side) (price : UInt32) :
    (os.queue side price).RefsNodup :=
  List.Nodup.sublist ((List.filter_sublist).map _) hn

/-- An order is looked for in vain in the queue of another level. -/
theorem RefsNodup.queue_other (hn : os.RefsNodup) (ho : o ∈ os)
    (hne : ¬ (o.side = side ∧ o.price = price)) :
    ∀ x ∈ os.queue side price, x.referenceNumber ≠ o.referenceNumber := by
  intro x hx he
  obtain ⟨hmem, hs, hp⟩ := mem_queue.mp hx
  rw [hn.inj hmem ho he] at hs hp
  exact hne ⟨hs, hp⟩

theorem totalShares_append (os os' : OrderList) :
    totalShares (os ++ os') = os.totalShares + os'.totalShares := by
  simp [totalShares]

theorem totalShares_cons (o : RestingOrder) (os : OrderList) :
    totalShares (o :: os) = o.shares.toNat + os.totalShares := by
  simp [totalShares]

/-- The total of the level that a new order joins. -/
theorem totalShares_queue_snoc (os : OrderList) (o : RestingOrder) :
    (queue (os ++ [o]) o.side o.price).totalShares =
      (os.queue o.side o.price).totalShares + o.shares.toNat := by
  rw [queue_append, queue_singleton_self, totalShares_append]
  simp [totalShares]

theorem shares_le_totalShares (ho : o ∈ os) :
    o.shares.toNat ≤ os.totalShares := by
  obtain ⟨l, r, rfl⟩ := List.append_of_mem ho
  rw [totalShares_append, totalShares_cons]
  omega

theorem RefsNodup.totalShares_delete (hn : os.RefsNodup) (ho : o ∈ os) :
    (os.delete o.referenceNumber).totalShares + o.shares.toNat =
      os.totalShares := by
  obtain ⟨l, r, rfl, hdel⟩ := hn.split ho
  rw [hdel, totalShares_append, totalShares_append, totalShares_cons]
  omega

theorem totalShares_le (os : OrderList) :
    os.totalShares ≤ os.length * (2 ^ 32 - 1) := by
  induction os with
  | nil => simp [totalShares]
  | cons o os ih =>
      have := o.shares.toNat_lt
      rw [totalShares_cons, List.length_cons]
      omega

theorem length_queue_le (os : OrderList) (side : Side) (price : UInt32) :
    (os.queue side price).length ≤ os.length := List.length_filter_le ..

/-- Below `2 ^ 32` resting orders no total of a level leaves 64 bits. -/
theorem totalShares_lt (h : os.length < 2 ^ 32) :
    os.totalShares < 2 ^ 64 := by
  have h₁ := os.totalShares_le
  have h₂ : os.length * (2 ^ 32 - 1) ≤ (2 ^ 32 - 1) * (2 ^ 32 - 1) :=
    Nat.mul_le_mul_right _ (by omega)
  omega

theorem mem_insertPrice {p x : UInt32} : ∀ {qs : List UInt32},
    x ∈ insertPrice side p qs ↔ x = p ∨ x ∈ qs
  | [] => by simp [insertPrice]
  | q :: qs => by
      rw [insertPrice]
      split_ifs with h h'
      · rw [List.mem_cons]
      · subst h'
        simp
      · rw [List.mem_cons, mem_insertPrice, List.mem_cons]
        tauto

theorem sorted_insertPrice {p : UInt32} : ∀ {qs : List UInt32},
    Sorted side.before id qs → Sorted side.before id (insertPrice side p qs)
  | [], _ => List.pairwise_singleton ..
  | q :: qs, hs => by
      obtain ⟨hq, hqs⟩ := sorted_cons.mp hs
      rw [insertPrice]
      split_ifs with h h'
      · refine sorted_cons.mpr ⟨fun y hy => ?_, hs⟩
        rcases List.mem_cons.mp hy with rfl | hy
        · exact h
        · exact side.priority.trans h (hq y hy)
      · exact hs
      · refine sorted_cons.mpr ⟨fun y hy => ?_, sorted_insertPrice hqs⟩
        rcases mem_insertPrice.mp hy with rfl | hy
        · rcases side.priority.total y q with h'' | h'' | h''
          · exact absurd h'' h
          · exact absurd h'' h'
          · exact h''
        · exact hq y hy

theorem prices_sorted (os : OrderList) (side : Side) :
    Sorted side.before id (os.prices side) := by
  unfold prices
  generalize (os.filter _).map _ = ps
  induction ps with
  | nil => exact List.Pairwise.nil
  | cons p ps ih => exact sorted_insertPrice ih

theorem mem_prices {p : UInt32} :
    p ∈ os.prices side ↔ ∃ o ∈ os, o.side = side ∧ o.price = p := by
  have hfold : ∀ ps : List UInt32,
      p ∈ ps.foldr (insertPrice side) [] ↔ p ∈ ps := by
    intro ps
    induction ps with
    | nil => simp
    | cons q ps ih => rw [List.foldr_cons, mem_insertPrice, ih, List.mem_cons]
  rw [prices, hfold, List.mem_map]
  simp [and_assoc]

/-- The ladder of a side is the only sorted list of its prices. -/
theorem prices_unique {ps : List UInt32} (hs : Sorted side.before id ps)
    (hmem : ∀ p, p ∈ ps ↔ ∃ o ∈ os, o.side = side ∧ o.price = p) :
    os.prices side = ps :=
  sorted_ext side.priority (os.prices_sorted side) hs
    fun p => mem_prices.trans (hmem p).symm

theorem queue_ne_nil_iff :
    os.queue side price ≠ [] ↔ price ∈ os.prices side := by
  rw [mem_prices, List.ne_nil_iff_exists_cons]
  constructor
  · rintro ⟨o, _, h⟩
    have := mem_queue.mp (h ▸ List.mem_cons_self : o ∈ os.queue side price)
    exact ⟨o, this⟩
  · rintro ⟨o, h⟩
    have hm : o ∈ os.queue side price := mem_queue.mpr h
    exact List.exists_cons_of_ne_nil (List.ne_nil_of_mem hm)

/-- A side has no more prices than the book has orders. -/
theorem length_prices_le (os : OrderList) (side : Side) :
    (os.prices side).length ≤ os.length := by
  have hnd : (os.prices side).Nodup := by
    simpa using sorted_keys_nodup side.priority (os.prices_sorted side)
  have hsub : os.prices side ⊆ os.map (·.price) := by
    intro p hp
    obtain ⟨o, ho, _, rfl⟩ := mem_prices.mp hp
    exact List.mem_map_of_mem ho
  simpa using (List.subperm_of_subset hnd hsub).length_le

/-! Leaving fewer shares on an order keeps references, sides and prices. -/

theorem mem_setShares {n : UInt32} {x : RestingOrder} :
    x ∈ os.setShares ref n ↔ ∃ o ∈ os,
      x = if o.referenceNumber = ref then { o with shares := n } else o := by
  simp only [setShares, List.mem_map]
  exact exists_congr fun o => and_congr_right fun _ => eq_comm

theorem refs_setShares (os : OrderList) (ref : UInt64) (n : UInt32) :
    (os.setShares ref n).map (·.referenceNumber) =
      os.map (·.referenceNumber) := by
  rw [setShares, List.map_map]
  refine List.map_congr_left fun o _ => ?_
  simp only [Function.comp_apply]
  split <;> rfl

theorem find?_append_singleton (os : OrderList) (o : RestingOrder)
    (ref : UInt64) : find? (os ++ [o]) ref =
      (os.find? ref).or (if o.referenceNumber = ref then some o else none)
    := by
  rw [find?, List.find?_append, List.find?_singleton, find?]
  simp only [beq_iff_eq]

theorem find?_setShares_none {n : UInt32} {ref' : UInt64} :
    (os.setShares ref n).find? ref' = none ↔ os.find? ref' = none := by
  have hmem : ∀ xs : OrderList, xs.find? ref' = none ↔
      ref' ∉ xs.map (·.referenceNumber) := by
    intro xs
    rw [find?_none, List.mem_map]
    push Not
    rfl
  rw [hmem, hmem, refs_setShares]

theorem RefsNodup.setShares (hn : os.RefsNodup) (ref : UInt64) (n : UInt32) :
    (os.setShares ref n).RefsNodup := by
  rw [RefsNodup, refs_setShares]
  exact hn

theorem queue_setShares (os : OrderList) (ref : UInt64) (n : UInt32)
    (side : Side) (price : UInt32) :
    (os.setShares ref n).queue side price =
      (os.queue side price).setShares ref n := by
  rw [setShares, queue, List.filter_map, setShares, queue]
  congr 1
  refine List.filter_congr fun o _ => ?_
  simp only [Function.comp_apply]
  split <;> rfl

theorem setShares_of_not_mem {n : UInt32}
    (h : ∀ o ∈ os, o.referenceNumber ≠ ref) : os.setShares ref n = os := by
  rw [setShares]
  conv_rhs => rw [← List.map_id os]
  refine List.map_congr_left fun o ho => ?_
  rw [if_neg (h o ho)]
  rfl

theorem setShares_append (os os' : OrderList) (ref : UInt64) (n : UInt32) :
    setShares (os ++ os') ref n =
      os.setShares ref n ++ os'.setShares ref n := List.map_append ..

/-- The total after one of distinct orders was left with `n` shares. -/
theorem RefsNodup.totalShares_setShares (hn : os.RefsNodup) (ho : o ∈ os)
    (n : UInt32) :
    (os.setShares o.referenceNumber n).totalShares + o.shares.toNat =
      os.totalShares + n.toNat := by
  obtain ⟨l, r, rfl⟩ := List.append_of_mem ho
  rw [RefsNodup, List.map_append, List.map_cons, List.nodup_append] at hn
  obtain ⟨_, hr, hlr⟩ := hn
  have hr' := (List.nodup_cons.mp hr).1
  have h₁ : OrderList.setShares l o.referenceNumber n = l :=
    setShares_of_not_mem fun x hx => hlr _ (List.mem_map_of_mem hx) _
      List.mem_cons_self
  have h₂ : OrderList.setShares r o.referenceNumber n = r :=
    setShares_of_not_mem fun x hx h => hr' (h ▸ List.mem_map_of_mem hx)
  have h₃ : OrderList.setShares (o :: r) o.referenceNumber n =
      { o with shares := n } :: r := by
    rw [OrderList.setShares, List.map_cons, if_pos rfl]
    exact congrArg _ h₂
  rw [setShares_append, h₁, h₃, totalShares_append, totalShares_append,
    totalShares_cons, totalShares_cons]
  simp only
  omega

end OrderList

end Itch.Book
