import Itch.Book.L3BookRefinement

/-!
# When a replace is all or nothing

`replace_order` deletes the old order, then adds the new one, which is ignored
where its reference rests already. §1 says by queries what it is for nothing
to be lost on the way, §2 looks at the order list, and §3 goes back to the
books that calls can build.
-/

namespace Itch.Book

open Transducer

/-! ## §1  What is asked of the book -/

/-- Every query is answered alike. -/
structure SameQueries (b b' : L3Book) : Prop where
  bbo : b'.bbo = b.bbo
  depth : ∀ side maxLevels, b'.depth side maxLevels = b.depth side maxLevels
  ordersAt : ∀ side price, b'.ordersAt side price = b.ordersAt side price
  contains : ∀ ref, b'.contains ref = b.contains ref
  orderPrice : ∀ ref, b'.orderPrice ref = b.orderPrice ref
  orderSide : ∀ ref, b'.orderSide ref = b.orderSide ref
  levelCount : ∀ side, b'.levelCount side = b.levelCount side
  empty : b'.empty = b.empty

/-- The orders that are neither the old one nor the new one. -/
def otherOrders (oldRef newRef : UInt64) (vs : List OrderView) :
    List OrderView :=
  vs.filter fun v =>
    decide (v.referenceNumber ≠ oldRef ∧ v.referenceNumber ≠ newRef)

/-- The old order is gone, the new one stands at the tail of its level on the
same side and nowhere else, and the others are where they were. -/
structure Replaced (b b' : L3Book) (oldRef newRef : UInt64)
    (shares price : UInt32) : Prop where
  gone : newRef ≠ oldRef → b'.contains oldRef = false
  placed : ∃ side front, b.orderSide oldRef = some side ∧
    b'.ordersAt side price = some (front ++ [⟨newRef, shares, ⟨price⟩⟩]) ∧
    (∀ v ∈ front, v.referenceNumber ≠ newRef) ∧
    ∀ side' price' vs, ¬(side' = side ∧ price' = price) →
      b'.ordersAt side' price' = some vs →
      ∀ v ∈ vs, v.referenceNumber ≠ newRef
  others : ∀ side price,
    (b'.ordersAt side price).map (otherOrders oldRef newRef) =
      (b.ordersAt side price).map (otherOrders oldRef newRef)
  elsewhere : ∀ ref, ref ≠ oldRef → ref ≠ newRef →
    b'.contains ref = b.contains ref ∧
      b'.orderPrice ref = b.orderPrice ref ∧
      b'.orderSide ref = b.orderSide ref

def AllOrNothing (b : L3Book) (oldRef newRef : UInt64)
    (shares price : UInt32) : Prop :=
  Replaced b (b.replaceOrder oldRef newRef shares price) oldRef newRef shares
      price ∨
    SameQueries b (b.replaceOrder oldRef newRef shares price)

/-- An order like the replacement stands there already: with its reference,
on the side of the old order, and last of its level once that is gone. -/
def StandsAlready (b : L3Book) (oldRef newRef : UInt64)
    (shares price : UInt32) : Prop :=
  ∃ side vs, b.orderSide oldRef = some side ∧
    b.ordersAt side price = some vs ∧
    (vs.filter fun v => decide (v.referenceNumber ≠ oldRef)).getLast? =
      some ⟨newRef, shares, ⟨price⟩⟩

/-! ## §2  On the order list -/

namespace OrderList

variable {os : OrderList} {o : RestingOrder} {oldRef newRef ref : UInt64}
  {side : Side} {price : UInt32}

theorem ordersAt_append (os os' : OrderList) (side : Side) (price : UInt32) :
    ordersAt (os ++ os') side price =
      os.ordersAt side price ++ os'.ordersAt side price := by
  unfold ordersAt
  rw [queue_append, List.map_append]

/-- A level without an order is the level without its view. -/
theorem ordersAt_delete (os : OrderList) (ref : UInt64) (side : Side)
    (price : UInt32) :
    (os.delete ref).ordersAt side price =
      (os.ordersAt side price).filter
        fun v => decide (v.referenceNumber ≠ ref) := by
  unfold ordersAt
  rw [queue_delete, List.filter_map]
  congr 1
  unfold delete
  congr 1
  funext o
  by_cases h : o.referenceNumber = ref
  · simp [h]
  · simp [h]

theorem mem_ordersAt {v : OrderView} (h : v ∈ os.ordersAt side price) :
    ∃ o ∈ os, o.side = side ∧ o.price = price ∧
      v = ⟨o.referenceNumber, o.shares, ⟨o.price⟩⟩ := by
  obtain ⟨o, ho, rfl⟩ := List.mem_map.mp h
  obtain ⟨hmem, hside, hprice⟩ := mem_queue.mp ho
  exact ⟨o, hmem, hside, hprice, rfl⟩

theorem otherOrders_delete (os : OrderList) (oldRef newRef : UInt64)
    (side : Side) (price : UInt32) :
    otherOrders oldRef newRef ((os.delete oldRef).ordersAt side price) =
      otherOrders oldRef newRef (os.ordersAt side price) := by
  unfold otherOrders
  rw [ordersAt_delete, List.filter_filter]
  congr 1
  funext v
  by_cases h : v.referenceNumber = oldRef
  · simp [h]
  · simp [h]

theorem otherOrders_singleton (h : o.referenceNumber = newRef) (side : Side)
    (price : UInt32) :
    otherOrders oldRef newRef (ordersAt [o] side price) = [] := by
  unfold otherOrders
  rw [List.filter_eq_nil_iff]
  intro v hv
  obtain ⟨o', ho', -, -, rfl⟩ := mem_ordersAt hv
  obtain rfl := List.mem_singleton.mp ho'
  simp [h]

/-- An order stands in one level only, and once there. -/
theorem RefsNodup.ordersAt_other (hn : os.RefsNodup) (ho : o ∈ os)
    (hne : ¬(side = o.side ∧ price = o.price)) :
    ∀ v ∈ os.ordersAt side price, v.referenceNumber ≠ o.referenceNumber := by
  intro v hv he
  obtain ⟨o', ho', hside, hprice, rfl⟩ := mem_ordersAt hv
  obtain rfl := hn.inj ho' ho he
  exact hne ⟨hside.symm, hprice.symm⟩

theorem RefsNodup.ordersAt_front (hn : os.RefsNodup) {front : List OrderView}
    {v : OrderView} (h : os.ordersAt side price = front ++ [v]) :
    ∀ x ∈ front, x.referenceNumber ≠ v.referenceNumber := by
  have hnodup : ((os.ordersAt side price).map
      OrderView.referenceNumber).Nodup := by
    unfold ordersAt
    rw [List.map_map]
    exact hn.queue side price
  rw [h, List.map_append, List.nodup_append] at hnodup
  intro x hx
  exact hnodup.2.2 _ (List.mem_map_of_mem hx) _ (by simp)

/-- What a replace of the order `o` leaves of the others. -/
structure Kept (os os' : OrderList) (oldRef newRef : UInt64) : Prop where
  gone : newRef ≠ oldRef → os'.find? oldRef = none
  others : ∀ side price,
    otherOrders oldRef newRef (os'.ordersAt side price) =
      otherOrders oldRef newRef (os.ordersAt side price)
  elsewhere : ∀ ref, ref ≠ oldRef → ref ≠ newRef →
    os'.find? ref = os.find? ref

theorem kept_delete (os : OrderList) (oldRef newRef : UInt64) :
    Kept os (os.delete oldRef) oldRef newRef := by
  refine ⟨?_, ?_, ?_⟩
  · intro _
    rw [find?_delete, if_pos rfl]
  · exact otherOrders_delete os oldRef newRef
  · intro ref hold _
    rw [find?_delete, if_neg hold]

theorem kept_append (os : OrderList) (oldRef : UInt64) (o : RestingOrder) :
    Kept os (os.delete oldRef ++ [o]) oldRef o.referenceNumber := by
  have hk := kept_delete os oldRef o.referenceNumber
  refine ⟨?_, ?_, ?_⟩
  · intro hne
    rw [find?_append_singleton, hk.gone hne, if_neg hne]
    rfl
  · intro side price
    rw [ordersAt_append, otherOrders, List.filter_append]
    show otherOrders _ _ _ ++ otherOrders _ _ _ = _
    rw [hk.others, otherOrders_singleton rfl, List.append_nil]
  · intro ref hold hnew
    rw [find?_append_singleton, hk.elsewhere ref hold hnew,
      if_neg (Ne.symm hnew), Option.or_none]

end OrderList

/-! ## §3  On the book -/

namespace L3Book.Rep

variable {b b' : L3Book} {os os' : OrderList} {o : RestingOrder}
  {oldRef newRef : UInt64} {shares price : UInt32}

theorem sameQueries_contains (h : SameQueries b b') (hold : b.contains oldRef)
    (hgone : b'.contains oldRef = false) : False := by
  rw [h.contains, hold] at hgone
  cases hgone

/-- The book is replaced exactly when the new order is last of its level. -/
theorem replaced_iff (h : Rep b os) (h' : Rep b' os')
    (hk : os.Kept os' oldRef newRef) (hold : os.find? oldRef = some o) :
    Replaced b b' oldRef newRef shares price ↔
      (os'.ordersAt o.side price).getLast? =
        some ⟨newRef, shares, ⟨price⟩⟩ := by
  have hside : b.orderSide oldRef = some o.side := by
    rw [h.orderSide, OrderList.orderSide, hold]
    rfl
  constructor
  · rintro ⟨-, ⟨side, front, hs, htail, -⟩, -⟩
    rw [hside] at hs
    obtain rfl := Option.some.inj hs
    rw [h'.ordersAt, Option.some.injEq] at htail
    rw [htail, List.getLast?_concat]
  · intro hlast
    obtain ⟨front, htail⟩ := List.getLast?_eq_some_iff.mp hlast
    obtain ⟨o', ho', hs', hp', hview⟩ := OrderList.mem_ordersAt
      (List.mem_of_getLast? hlast)
    have href : newRef = o'.referenceNumber := congrArg (·.referenceNumber) hview
    refine ⟨?_, ⟨o.side, front, hside, ?_, ?_, ?_⟩, ?_, ?_⟩
    · intro hne
      exact h'.contains_none (hk.gone hne)
    · rw [h'.ordersAt, htail]
    · exact h'.refs.ordersAt_front htail
    · intro side' price' vs hne hvs
      rw [h'.ordersAt, Option.some.injEq] at hvs
      subst hvs
      rw [href]
      apply h'.refs.ordersAt_other ho'
      rwa [hs', hp']
    · intro side price
      rw [h'.ordersAt, h.ordersAt, Option.map_some, Option.map_some, hk.others]
    · intro ref hne hne'
      have hfind := hk.elsewhere ref hne hne'
      refine ⟨?_, ?_, ?_⟩
      · rw [h'.contains, h.contains, OrderList.contains, hfind]
        rfl
      · rw [h'.orderPrice, h.orderPrice, OrderList.orderPrice, hfind]
        rfl
      · rw [h'.orderSide, h.orderSide, OrderList.orderSide, hfind]
        rfl

theorem standsAlready_iff (h : Rep b os) (hold : os.find? oldRef = some o) :
    StandsAlready b oldRef newRef shares price ↔
      ((os.delete oldRef).ordersAt o.side price).getLast? =
        some ⟨newRef, shares, ⟨price⟩⟩ := by
  have hside : b.orderSide oldRef = some o.side := by
    rw [h.orderSide, OrderList.orderSide, hold]
    rfl
  rw [OrderList.ordersAt_delete]
  constructor
  · rintro ⟨side, vs, hs, hvs, hlast⟩
    rw [hside] at hs
    obtain rfl := Option.some.inj hs
    rw [h.ordersAt, Option.some.injEq] at hvs
    rwa [hvs]
  · intro hlast
    exact ⟨o.side, _, hside, h.ordersAt o.side price, hlast⟩

/-- Where the new reference is free, the new order comes last of its level. -/
theorem replaced_free (h : Rep b os) (hold : os.find? oldRef = some o)
    (hnew : (os.delete oldRef).find? newRef = none) :
    Replaced b (b.replaceOrder oldRef newRef shares price) oldRef newRef shares
      price := by
  have h' := h.replaceOrder oldRef newRef shares price
  have hreplace : os.replace oldRef newRef shares price =
      os.delete oldRef ++ [⟨newRef, o.side, shares, price⟩] := by
    unfold OrderList.replace OrderList.add
    simp only [hold, hnew, Option.isSome_none, Bool.false_eq_true, if_false]
  rw [hreplace] at h'
  have hk := OrderList.kept_append os oldRef ⟨newRef, o.side, shares, price⟩
  refine (h.replaced_iff h' hk hold).mpr ?_
  rw [OrderList.ordersAt_append]
  unfold OrderList.ordersAt
  rw [OrderList.queue_singleton_self ⟨newRef, o.side, shares, price⟩]
  exact List.getLast?_concat

/-- Where it rests on another order, the old order is deleted and that is
all. -/
theorem allOrNothing_taken (h : Rep b os) {x : RestingOrder}
    (hold : os.find? oldRef = some o)
    (hnew : (os.delete oldRef).find? newRef = some x)
    (hne : newRef ≠ oldRef) :
    AllOrNothing b oldRef newRef shares price ↔
      StandsAlready b oldRef newRef shares price := by
  have h' := h.replaceOrder oldRef newRef shares price
  have hreplace : os.replace oldRef newRef shares price =
      os.delete oldRef := by
    unfold OrderList.replace OrderList.add
    simp only [hold, hnew, Option.isSome_some, if_true]
  rw [hreplace] at h'
  have hk := OrderList.kept_delete os oldRef newRef
  unfold AllOrNothing
  rw [h.replaced_iff h' hk hold, ← h.standsAlready_iff hold, or_iff_left]
  intro hsame
  exact sameQueries_contains hsame (h.contains_some hold)
    (h'.contains_none (hk.gone hne))

/-- A replace is all or nothing unless the new reference rests on another
order, which is then not the replacement already. -/
theorem allOrNothing_iff (h : Rep b os) :
    AllOrNothing b oldRef newRef shares price ↔
      (b.contains oldRef → b.contains newRef → newRef ≠ oldRef →
        StandsAlready b oldRef newRef shares price) := by
  cases hold : os.find? oldRef with
  | none =>
      have hsame : b.replaceOrder oldRef newRef shares price = b := by
        unfold L3Book.replaceOrder
        exact if_pos (h.absent oldRef hold)
      refine iff_of_true (.inr ?_) ?_
      · rw [hsame]
        exact ⟨rfl, fun _ _ => rfl, fun _ _ => rfl, fun _ => rfl,
          fun _ => rfl, fun _ => rfl, fun _ => rfl, rfl⟩
      · intro hrests
        rw [h.contains_none hold] at hrests
        cases hrests
  | some o =>
      cases hnew : (os.delete oldRef).find? newRef with
      | none =>
          refine iff_of_true (.inl (h.replaced_free hold hnew)) ?_
          intro _ hcontains hne
          rw [OrderList.find?_delete, if_neg hne] at hnew
          rw [h.contains_none hnew] at hcontains
          cases hcontains
      | some x =>
          have hne : newRef ≠ oldRef := by
            rintro rfl
            rw [OrderList.find?_delete, if_pos rfl] at hnew
            cases hnew
          rw [h.allOrNothing_taken hold hnew hne]
          rw [OrderList.find?_delete, if_neg hne] at hnew
          constructor
          · intro hstands _ _ _
            exact hstands
          · intro hstands
            exact hstands (h.contains_some hold) (h.contains_some hnew) hne

end L3Book.Rep

/-- In every book that calls can build, with fewer than `2 ^ 32` orders
resting at a time, a replace is all or nothing exactly when the old order does
not rest, or the new reference is free or that of the old order, or the order
that has it is the replacement already. -/
theorem replaceOrder_allOrNothing_iff (symbol : Str) (ops : List BookOp)
    (hroom : ∀ pre, pre <+: ops →
      (run BookOp.onList [] pre).1.length < 2 ^ 32)
    (oldRef newRef : UInt64) (shares price : UInt32) :
    AllOrNothing (run BookOp.onBook { symbol } ops).1 oldRef newRef shares
        price ↔
      ((run BookOp.onBook { symbol } ops).1.contains oldRef →
        (run BookOp.onBook { symbol } ops).1.contains newRef →
        newRef ≠ oldRef →
        StandsAlready (run BookOp.onBook { symbol } ops).1 oldRef newRef
          shares price) := by
  obtain ⟨h, -⟩ := BookOp.run_rep symbol hroom
  exact h.allOrNothing_iff

/-- Two orders of one level. -/
def twoBids : List BookOp :=
  [.addOrder 1 .buy 100 20, .addOrder 2 .buy 50 20]

theorem twoBids_room : ∀ pre, pre <+: twoBids →
    (run BookOp.onList [] pre).1.length < 2 ^ 32 := by
  intro pre hpre
  rw [← List.mem_inits] at hpre
  revert pre
  decide

theorem replaceOrder_allOrNothing_iff_twoBids :
    AllOrNothing (run BookOp.onBook { symbol := [] } twoBids).1 1 3 70 25 ↔
      ((run BookOp.onBook { symbol := [] } twoBids).1.contains 1 →
        (run BookOp.onBook { symbol := [] } twoBids).1.contains 3 →
        (3 : UInt64) ≠ 1 →
        StandsAlready (run BookOp.onBook { symbol := [] } twoBids).1 1 3
          70 25) :=
  replaceOrder_allOrNothing_iff [] twoBids twoBids_room 1 3 70 25

/-- The first order is replaced under the reference of the second: it is
deleted, and nothing takes its place. -/
theorem replaceOrder_loses_order :
    ¬AllOrNothing (run BookOp.onBook { symbol := [] } twoBids).1 1 2
      70 25 := by
  obtain ⟨h, -⟩ := BookOp.run_rep [] twoBids_room
  have hold : (run BookOp.onList [] twoBids).1.find? 1 =
      some ⟨1, .buy, 100, 20⟩ := by decide
  rw [h.allOrNothing_iff, h.standsAlready_iff hold, h.contains, h.contains]
  decide

end Itch.Book
