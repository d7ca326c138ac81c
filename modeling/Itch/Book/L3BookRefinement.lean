import Itch.Framework.Transducer
import Itch.Book.L3BookInvariant

/-!
# `L3Book` refines the order list

§1 to §3 show that adding, dropping and partly executing an order keep `Rep`,
§4 that every query reads the order list it represents, §5 compares whole
call sequences.
-/

namespace Itch.Book

open SortedLadder LinkedQueue

namespace L3Book

variable {b b' : L3Book} {os : OrderList} {side : Side} {price : UInt32}
  {l l' : Level} {ls rs : List Level} {i j : UInt32}

theorem level_split (hsplit : b.sideLevels side = ls ++ l :: rs)
    (hi : i.toNat = ls.length) : b.level side i = l := by
  rw [level, hsplit, hi, getD_split]

/-- What a write to the node `p` leaves to be read, or the write to the level
`l` made in its stead when `p` is no node. -/
structure Relinked (b b' : L3Book) (side : Side) (ls : List Level) (l : Level)
    (rs : List Level) (p : UInt32) (f : OrderNode → OrderNode)
    (g : Level → Level) : Prop where
  levels : b'.sideLevels side = ls ++ (if p = NIL then g l else l) :: rs
  other : ∀ side', side' ≠ side → b'.sideLevels side' = b.sideLevels side'
  nodes : ∀ j, j ≠ NIL →
    b'.node j = if j = p then f (b.node j) else b.node j
  length : b'.pool.length = b.pool.length
  index : b'.index = b.index
  freeHead : b'.freeHead = b.freeHead

/-- A write to the level in its place. -/
theorem relinked_level {li : UInt32} (g : Level → Level)
    (hsplit : b.sideLevels side = ls ++ l :: rs) (hli : li.toNat = ls.length) :
    Relinked b (b.modifyLevel side li g) side ls l rs NIL id g where
  levels := by
    rw [sideLevels_modifyLevel, if_pos rfl, hsplit, hli, modify_split,
      if_pos rfl]
  other := by
    intro side' hs
    rw [sideLevels_modifyLevel, if_neg hs]
  nodes := by
    intro j hj
    rw [node_modifyLevel, if_neg hj]
  length := by simp
  index := by simp
  freeHead := by simp

theorem relinked {li p : UInt32} (f : OrderNode → OrderNode)
    (g : Level → Level) (hsplit : b.sideLevels side = ls ++ l :: rs)
    (hli : li.toNat = ls.length) (hp : p ≠ NIL → p.toNat < b.pool.length) :
    Relinked b (if p ≠ NIL then b.modifyNode p f else b.modifyLevel side li g)
      side ls l rs p f g := by
  by_cases hnil : p = NIL
  · subst hnil
    have h := relinked_level g hsplit hli
    rw [if_neg (not_not.mpr rfl)]
    refine ⟨h.levels, h.other, fun j hj => ?_, h.length, h.index, h.freeHead⟩
    rw [h.nodes j hj, if_neg hj, if_neg hj]
  · rw [if_pos hnil]
    refine ⟨?_, fun side' _ => sideLevels_modifyNode _, fun j _ => ?_,
      length_modifyNode _, rfl, rfl⟩
    · rw [sideLevels_modifyNode, if_neg hnil, hsplit]
    · rw [node_modifyNode _ (hp hnil)]
      split
      · next h => rw [h]
      · rfl

/-! ## §1  Adding an order -/

/-- What `appendNode` leaves to be read. -/
structure Appended (b b' : L3Book) (side : Side) (ls : List Level) (l : Level)
    (rs : List Level) (i shares : UInt32) : Prop where
  levels : b'.sideLevels side = ls ++
    { l with
      head := if l.tail = NIL then i else l.head
      tail := i
      totalShares := l.totalShares + shares.toUInt64
      orderCount := l.orderCount + 1 } :: rs
  other : ∀ side', side' ≠ side → b'.sideLevels side' = b.sideLevels side'
  self : b'.node i = { b.node i with prev := l.tail, next := NIL }
  tail : l.tail ≠ NIL → b'.node l.tail = { b.node l.tail with next := i }
  nodes : ∀ j, j ≠ NIL → j ≠ i → j ≠ l.tail → b'.node j = b.node j
  length : b'.pool.length = b.pool.length
  index : b'.index = b.index
  freeHead : b'.freeHead = b.freeHead

theorem appendNode_spec {li shares : UInt32}
    (hsplit : b.sideLevels side = ls ++ l :: rs) (hli : li.toNat = ls.length)
    (hi : i.toNat < b.pool.length) (hnil : i ≠ NIL) (hne : l.tail ≠ i)
    (ht : l.tail ≠ NIL → l.tail.toNat < b.pool.length) :
    Appended b (b.appendNode side li i shares) side ls l rs i shares := by
  have htail : (b.level side li).tail = l.tail := by
    rw [level_split hsplit hli]
  let b₁ := b.modifyNode i (fun n => { n with prev := l.tail, next := NIL })
  have hnode : ∀ j, b₁.node j = if j = i then
      { b.node i with prev := l.tail, next := NIL } else b.node j :=
    fun j => node_modifyNode _ hi
  let b₂ := if l.tail ≠ NIL then
      b₁.modifyNode l.tail (fun n => { n with next := i })
    else b₁.modifyLevel side li (fun l => { l with head := i })
  have h₂ : Relinked b₁ b₂ side ls l rs l.tail _ _ :=
    relinked _ _ (by rwa [sideLevels_modifyNode]) hli (by simpa [b₁] using ht)
  let b₃ := b₂.modifyLevel side li (fun l => { l with
    tail := i
    totalShares := l.totalShares + shares.toUInt64
    orderCount := l.orderCount + 1 })
  have h₃ : Relinked b₂ b₃ side ls _ rs NIL id _ :=
    relinked_level _ h₂.levels hli
  have hdef : b.appendNode side li i shares = b₃ := by
    rw [appendNode, htail]
  rw [hdef]
  refine ⟨?_, fun side' hs => ?_, ?_, fun ht => ?_, fun j hj hji hjt => ?_,
    ?_, h₃.index.trans h₂.index, h₃.freeHead.trans h₂.freeHead⟩
  · rw [h₃.levels, if_pos rfl]
    split <;> rfl
  · rw [h₃.other side' hs, h₂.other side' hs, sideLevels_modifyNode]
  · rw [h₃.nodes i hnil, if_neg hnil, h₂.nodes i hnil, if_neg hne.symm, hnode,
      if_pos rfl]
  · rw [h₃.nodes _ ht, if_neg ht, h₂.nodes _ ht, if_pos rfl, hnode, if_neg hne]
  · rw [h₃.nodes j hj, if_neg hj, h₂.nodes j hj, if_neg hjt, hnode, if_neg hji]
  · rw [h₃.length, h₂.length, length_modifyNode]

/-- The FIFO of the level takes the new node at its end. -/
theorem LevelOk.push {b' : L3Book} {q : OrderList} {o : RestingOrder}
    (h : LevelOk b l q) (hnd : (q.map b.slot).Nodup)
    (hnil : NIL ∉ q.map b.slot) (hslot : ∀ x ∈ q, b'.slot x = b.slot x)
    (hprev : ∀ x ∈ q, b'.prev (b.slot x) = b.prev (b.slot x))
    (hnext : ∀ x ∈ q, b.slot x ≠ l.tail →
      b'.next (b.slot x) = b.next (b.slot x))
    (hi : b'.slot o = i) (htail : l.tail ≠ NIL → b'.next l.tail = i)
    (hni : b'.next i = NIL) (hpi : b'.prev i = l.tail)
    (hsmall : q.length + 1 < 2 ^ 32) : LevelOk b'
      { l with
        head := if l.tail = NIL then i else l.head
        tail := i
        totalShares := l.totalShares + o.shares.toUInt64
        orderCount := l.orderCount + 1 } (q ++ [o]) where
  total := by
    have h₁ : (q ++ [o]).totalShares < 2 ^ 64 :=
      OrderList.totalShares_lt (by simpa using hsmall)
    have h₂ : OrderList.totalShares [o] = o.shares.toNat := by
      simp [OrderList.totalShares]
    rw [OrderList.totalShares_append, h₂] at h₁ ⊢
    rw [UInt64.toNat_add, h.total, UInt32.toNat_toUInt64, Nat.mod_eq_of_lt h₁]
  count := by
    rw [UInt32.toNat_add, h.count, List.length_append]
    exact Nat.mod_eq_of_lt hsmall
  queue := by
    have hmap : (q ++ [o]).map b'.slot = q.map b.slot ++ [i] := by
      rw [List.map_append, List.map_congr_left hslot, List.map_singleton, hi]
    have hempty : l.tail = NIL ↔ q.map b.slot = [] :=
      queue_tail_eq_nil hnil h.queue
    rw [hmap]
    refine queue_push hnd h.queue ?_ hni hpi (List.forall_mem_map.mpr hnext)
      (fun hne => htail fun ht => hne (hempty.mp ht))
      (List.forall_mem_map.mpr hprev)
    by_cases ht : l.tail = NIL
    · rw [if_pos ht, if_pos (hempty.mp ht)]
    · rw [if_neg ht, if_neg fun he => ht (hempty.mpr he)]

/-- The tail of a level is a node of its FIFO. -/
theorem LevelOk.tail_mem {q : OrderList} (h : LevelOk b l q)
    (hne : l.tail ≠ NIL) : ∃ x ∈ q, b.slot x = l.tail := by
  have hq : q.map b.slot ≠ [] := by
    intro he
    apply hne
    rw [h.queue.tail_eq, he]
    rfl
  have := getLastD_mem (p := NIL) hq
  rw [← h.queue.tail_eq] at this
  exact List.mem_map.mp this

theorem addOrder_eq {b₁ b₃ : L3Book} {ref : UInt64} {shares li : UInt32}
    (hnew : b.index.find ref = NPOS) (hal : b.allocateNode = (b₁, i))
    (hfc : (b₁.modifyNode i fun n =>
      { n with referenceNumber := ref, shares, price, side }).findOrCreateLevel
        side price = (b₃, li)) :
    b.addOrder ref side shares price =
      { b₃.appendNode side li i shares with
        index := (b₃.appendNode side li i shares).index.insert ref i } := by
  simp only [addOrder, hnew, hal, ne_eq, not_true_eq_false, if_false, hfc]

/-- What adding the order `o` to `b` leaves to be read: the node `i`, linked
behind the level `l`. -/
structure Added (b b' : L3Book) (os : OrderList) (o : RestingOrder)
    (i : UInt32) (l : Level) (ls rs : List Level) : Prop where
  pool : ∃ free, PoolOk b' (i :: os.map b.slot) free
  placed : Placed b os o.side l ls rs
  price : l.price = o.price
  levels : b'.sideLevels o.side = ls ++
    { l with
      head := if l.tail = NIL then i else l.head
      tail := i
      totalShares := l.totalShares + o.shares.toUInt64
      orderCount := l.orderCount + 1 } :: rs
  other : ∀ side, side ≠ o.side → b'.sideLevels side = b.sideLevels side
  self : Stores (b'.node i) o
  next : b'.next i = NIL
  prev : b'.prev i = l.tail
  tail : l.tail ≠ NIL → b'.node l.tail = { b.node l.tail with next := i }
  nodes : ∀ x ∈ os, b.slot x ≠ l.tail → b'.node (b.slot x) = b.node (b.slot x)
  index : b'.index = b.index.insert o.referenceNumber i

/-- The book when the node `i` of the new order `o` has been filled in. -/
structure Filled (b b' : L3Book) (os : OrderList) (o : RestingOrder)
    (i : UInt32) : Prop where
  pool : ∃ free, PoolOk b' (i :: os.map b.slot) free
  levels : ∀ side, b'.sideLevels side = b.sideLevels side
  self : b'.node i =
    { referenceNumber := o.referenceNumber, shares := o.shares
      price := o.price, side := o.side }
  nodes : ∀ j, j ≠ i → b'.node j = b.node j
  index : b'.index = b.index

theorem allocateNode_filled (h : Rep b os) (o : RestingOrder)
    (hroom : os.length + 1 < 2 ^ 32) : ∃ b₁ i, b.allocateNode = (b₁, i) ∧
    Filled b (b₁.modifyNode i fun n =>
      { n with
        referenceNumber := o.referenceNumber
        shares := o.shares
        price := o.price
        side := o.side }) os o i := by
  obtain ⟨free, hp⟩ := h.pool
  obtain ⟨b₁, i, free', hal, hp₁, hfr, hfresh⟩ :=
    allocateNode_spec hp (by rwa [List.length_map])
  have hi : i.toNat < b₁.pool.length := hp₁.bound i (by simp)
  refine ⟨b₁, i, hal, ⟨free', ?_⟩, ?_, ?_, ?_, ?_⟩
  · refine hp₁.congr (length_modifyNode _) (freeHead_modifyNode _) ?_
    intro j hj
    have hji : j ≠ i :=
      (List.nodup_append.mp hp₁.nodup).2.2 j hj i List.mem_cons_self
    rw [L3Book.next, node_modifyNode _ hi, if_neg hji]
    rfl
  · exact fun side => (sideLevels_modifyNode _).trans (hfr.levels side)
  · rw [node_modifyNode _ hi, if_pos rfl, hfresh]
  · intro j hj
    rw [node_modifyNode _ hi, if_neg hj]
    exact hfr.nodes j hj
  · rw [index_modifyNode, hfr.index]

theorem Filled.slot_ne {b' : L3Book} {o : RestingOrder}
    (hF : Filled b b' os o i) {x : RestingOrder} (hx : x ∈ os) :
    b.slot x ≠ i := by
  obtain ⟨free, hp⟩ := hF.pool
  rintro rfl
  have hnodup := (List.nodup_append.mp hp.nodup).2.1
  exact (List.nodup_cons.mp hnodup).1 (List.mem_map_of_mem hx)

/-- The tail of a placed level names no node or that of an order. -/
theorem Placed.tail_slot (hpl : Placed b os side l ls rs)
    (hne : l.tail ≠ NIL) : ∃ x ∈ os, b.slot x = l.tail := by
  obtain ⟨x, hx, hxs⟩ := hpl.level.tail_mem hne
  exact ⟨x, (OrderList.mem_queue.mp hx).1, hxs⟩

/-- So it is not a node that no order occupies. -/
theorem Placed.tail_ne (hpl : Placed b os side l ls rs) {j : UInt32}
    (hnil : j ≠ NIL) (hj : ∀ x ∈ os, b.slot x ≠ j) : l.tail ≠ j := by
  rintro rfl
  obtain ⟨x, hx, hxs⟩ := hpl.tail_slot hnil
  exact hj x hx hxs

theorem addOrder_added (h : Rep b os) (o : RestingOrder)
    (hnew : os.find? o.referenceNumber = none)
    (hroom : os.length + 1 < 2 ^ 32) : ∃ i l ls rs,
    Added b (b.addOrder o.referenceNumber o.side o.shares o.price) os o i l ls
      rs := by
  -- the node is filled in, then its level is found or inserted
  obtain ⟨b₁, i, hal, hF⟩ := allocateNode_filled h o hroom
  let b₂ := b₁.modifyNode i (fun n => { n with
    referenceNumber := o.referenceNumber
    shares := o.shares
    price := o.price
    side := o.side })
  change Filled b b₂ os o i at hF
  obtain ⟨free, hp⟩ := hF.pool
  obtain ⟨li, l, ls, rs, hfc, hli, hprice, hpl⟩ :=
    findOrCreateLevel_spec (h.ladder o.side) (hF.levels o.side) o.price
      (by omega)
  have hinil : i ≠ NIL := hp.ne_nil (by simp)
  have htne : l.tail ≠ i := hpl.tail_ne hinil fun x hx => hF.slot_ne hx
  let b₃ := b₂.setSideLevels o.side (ls ++ l :: rs)
  have hlen₃ : b₃.pool.length = b₂.pool.length := by rw [pool_setSideLevels]
  have hA : Appended b₃ (b₃.appendNode o.side li i o.shares) o.side ls l rs i
      o.shares := by
    refine appendNode_spec (by rw [sideLevels_setSideLevels, if_pos rfl]) hli
      ?_ hinil htne ?_
    · rw [hlen₃]
      exact hp.bound i (by simp)
    · intro hnil
      obtain ⟨x, hx, hxs⟩ := hpl.tail_slot hnil
      rw [hlen₃, ← hxs]
      exact hp.bound _ (by simp [List.mem_map_of_mem hx])
  have hself : (b₃.appendNode o.side li i o.shares).node i =
      ⟨o.referenceNumber, o.shares, o.price, o.side, NIL, l.tail⟩ := by
    rw [hA.self, node_setSideLevels, hF.self]
  have hnode : ∀ j, j ≠ NIL → j ≠ i → j ≠ l.tail →
      (b₃.appendNode o.side li i o.shares).node j = b₂.node j := by
    intro j hj hji hjt
    rw [hA.nodes j hj hji hjt, node_setSideLevels]
  rw [addOrder_eq (h.absent _ hnew) hal hfc]
  refine ⟨i, l, ls, rs, ⟨free, ?_⟩, hpl, hprice, hA.levels, ?_, ?_, ?_, ?_,
    ?_, ?_, ?_⟩
  · refine hp.congr (hA.length.trans hlen₃)
      (hA.freeHead.trans (freeHead_setSideLevels _)) ?_
    intro j hj
    have hdisj := (List.nodup_append.mp hp.nodup).2.2
    have hji : j ≠ i := hdisj j hj i List.mem_cons_self
    have hjn : j ≠ NIL := hp.ne_nil (List.mem_append_left _ hj)
    have hjt : l.tail ≠ j := by
      apply hpl.tail_ne hjn
      intro x hx
      exact (hdisj j hj _
        (List.mem_cons_of_mem _ (List.mem_map_of_mem hx))).symm
    exact congrArg OrderNode.next (hnode j hjn hji hjt.symm)
  · intro side hs
    refine (hA.other side hs).trans ?_
    rw [sideLevels_setSideLevels, if_neg hs, hF.levels]
  · show Stores (L3Book.node (b₃.appendNode o.side li i o.shares) i) o
    rw [hself]
    exact ⟨rfl, rfl, rfl, rfl⟩
  · exact congrArg OrderNode.next hself
  · exact congrArg OrderNode.prev hself
  · intro hnil
    refine (hA.tail hnil).trans ?_
    rw [node_setSideLevels, hF.nodes _ htne]
  · intro x hx hne
    have hxi := hF.slot_ne hx
    exact (hnode _ (h.slot_ne_nil hx) hxi hne).trans (hF.nodes _ hxi)
  · show (b₃.appendNode o.side li i o.shares).index.insert _ i = _
    rw [hA.index, index_setSideLevels, hF.index]

namespace Added

variable {o : RestingOrder}

theorem slot_self (hA : Added b b' os o i l ls rs) : b'.slot o = i := by
  rw [slot, hA.index, OrderIndex.find_insert, if_pos rfl]

theorem slot_other (hA : Added b b' os o i l ls rs) {x : RestingOrder}
    (hne : x.referenceNumber ≠ o.referenceNumber) : b'.slot x = b.slot x := by
  rw [slot, hA.index, OrderIndex.find_insert, if_neg hne, slot]

/-- Of a node in use only `next` is rewritten, and only behind the tail. -/
theorem node_fields (hA : Added b b' os o i l ls rs) (h : Rep b os)
    {x : RestingOrder} (hx : x ∈ os) :
    Stores (b'.node (b.slot x)) x ∧ b'.prev (b.slot x) = b.prev (b.slot x) ∧
      (b.slot x ≠ l.tail → b'.next (b.slot x) = b.next (b.slot x)) := by
  have hst := h.nodes x hx
  by_cases ht : b.slot x = l.tail
  · have hnode : b'.node (b.slot x) = { b.node (b.slot x) with next := i } := by
      have := hA.tail (ht ▸ h.slot_ne_nil hx)
      rwa [← ht] at this
    refine ⟨?_, ?_, fun hne => absurd ht hne⟩
    · rw [hnode]
      exact ⟨hst.1, hst.2, hst.3, hst.4⟩
    · rw [L3Book.prev, hnode, L3Book.prev]
  · have hnode := hA.nodes x hx ht
    refine ⟨hnode ▸ hst, ?_, fun _ => ?_⟩
    · rw [L3Book.prev, hnode, L3Book.prev]
    · rw [L3Book.next, hnode, L3Book.next]

/-- The levels of other prices and of the other side are kept. -/
theorem level_other (hA : Added b b' os o i l ls rs) (h : Rep b os)
    (hnew : ∀ x ∈ os, x.referenceNumber ≠ o.referenceNumber) {side : Side}
    {x : Level} (hne : ¬ (side = o.side ∧ x.price = o.price))
    (hx : LevelOk b x (os.queue side x.price)) :
    LevelOk b' x (os.queue side x.price) := by
  have hmem : ∀ y ∈ os.queue side x.price, y ∈ os := fun y hy =>
    (OrderList.mem_queue.mp hy).1
  refine hx.congr (fun y hy => hA.slot_other (hnew y (hmem y hy)))
    (fun y hy => ?_) fun y hy => (hA.node_fields h (hmem y hy)).2.1
  refine (hA.node_fields h (hmem y hy)).2.2 fun hyt => hne ?_
  -- the tail of the level is an order of that level, not of this one
  obtain ⟨z, hz, hzt⟩ :=
    hA.placed.level.tail_mem (hyt ▸ h.slot_ne_nil (hmem y hy))
  obtain ⟨hzm, hzs, hzp⟩ := OrderList.mem_queue.mp hz
  obtain ⟨hym, hys, hyp⟩ := OrderList.mem_queue.mp hy
  have hyz : y = z := h.slot_inj hym hzm (hyt.trans hzt.symm)
  rw [← hys, ← hyp, hyz]
  exact ⟨hzs, hzp.trans hA.price⟩

theorem ladder (hA : Added b b' os o i l ls rs) (h : Rep b os)
    (hnew : ∀ x ∈ os, x.referenceNumber ≠ o.referenceNumber)
    (hroom : os.length + 1 < 2 ^ 32) (side : Side) :
    LadderOk b' (os ++ [o]) side := by
  by_cases hside : side = o.side
  · subst hside
    have hq : (os ++ [o]).queue o.side l.price =
        os.queue o.side l.price ++ [o] := by
      rw [OrderList.queue_append, hA.price, OrderList.queue_singleton_self]
    refine hA.placed.put (h.ladder _) hA.levels rfl (fun p hp => ?_) ?_ ?_ ?_
    · rw [OrderList.queue_append, OrderList.queue_singleton_other, List.append_nil]
      rintro ⟨_, hp'⟩
      exact hp (hp'.symm.trans hA.price.symm)
    · simp [hq]
    · rw [hq]
      have hmem : ∀ y ∈ os.queue o.side l.price, y ∈ os := fun y hy =>
        (OrderList.mem_queue.mp hy).1
      have hlen := os.length_queue_le o.side l.price
      refine hA.placed.level.push (h.queue_slots_nodup _ _)
        (h.nil_not_mem_queue _ _)
        (fun y hy => hA.slot_other (hnew y (hmem y hy)))
        (fun y hy => (hA.node_fields h (hmem y hy)).2.1)
        (fun y hy => (hA.node_fields h (hmem y hy)).2.2) hA.slot_self
        (fun hnil => ?_) hA.next hA.prev (by omega)
      rw [L3Book.next, hA.tail hnil]
    · intro x hx
      refine hA.level_other h hnew fun he => ?_
      exact hA.placed.ne x hx (he.2.trans hA.price.symm)
  · refine (h.ladder side).keep (hA.other side hside) (fun p => ?_)
      fun x _ => hA.level_other h hnew fun he => hside he.1
    rw [OrderList.queue_append, OrderList.queue_singleton_other, List.append_nil]
    exact fun he => hside he.1.symm

theorem rep (hA : Added b b' os o i l ls rs) (h : Rep b os)
    (hnew : os.find? o.referenceNumber = none)
    (hroom : os.length + 1 < 2 ^ 32) : Rep b' (os ++ [o]) := by
  have hrefs := OrderList.find?_none.mp hnew
  have hslots : (os ++ [o]).map b'.slot = os.map b.slot ++ [i] := by
    rw [List.map_append, List.map_singleton, hA.slot_self,
      List.map_congr_left fun x hx => hA.slot_other (hrefs x hx)]
  have hfree : ∀ v, ¬ b.index.Entry o.referenceNumber v := by
    rcases b.index.find_cases o.referenceNumber with he | he
    · rw [h.absent _ hnew] at he
      exact absurd he (h.plain _)
    · exact he.2
  obtain ⟨free, hp⟩ := hA.pool
  refine ⟨h.refs.append hrefs, ?_, ?_, ?_, ?_, ⟨free, ?_⟩,
    hA.ladder h hrefs hroom⟩
  · intro x hx
    rcases List.mem_append.mp hx with hx | hx
    · rw [hA.slot_other (hrefs x hx)]
      exact (hA.node_fields h hx).1
    · rw [List.mem_singleton.mp hx, hA.slot_self]
      exact hA.self
  · intro ref href
    rw [OrderList.find?_none] at href
    have hne : ref ≠ o.referenceNumber := (href o (by simp)).symm
    rw [hA.index, OrderIndex.find_insert, if_neg hne]
    apply h.absent
    rw [OrderList.find?_none]
    exact fun x hx => href x (List.mem_append_left _ hx)
  · intro ref href
    rw [hA.index, OrderIndex.entry_insert] at href
    split at href
    · exact hp.ne_nil (by simp) href.symm
    · exact h.plain _ href
  · rw [hA.index, OrderIndex.size_insert _ _ hfree, h.size, List.length_append,
      List.length_singleton]
  · rw [hslots]
    exact hp.perm (List.perm_append_singleton i _).symm

end Added

/-- A duplicate add is ignored. -/
theorem Rep.addOrder (h : Rep b os) (o : RestingOrder)
    (hroom : os.length + 1 < 2 ^ 32) :
    Rep (b.addOrder o.referenceNumber o.side o.shares o.price) (os.add o) := by
  rw [OrderList.add]
  cases hf : os.find? o.referenceNumber with
  | none =>
      obtain ⟨i, l, ls, rs, hA⟩ := addOrder_added h o hf hroom
      exact hA.rep h hf hroom
  | some x =>
      have hne : b.index.find o.referenceNumber ≠ NPOS := by
        rw [Ne, h.find_eq_npos, hf]
        exact Option.some_ne_none x
      rw [L3Book.addOrder, if_pos hne]
      exact h

/-! ## §2  Dropping an order -/

/-- What `unlinkNode` leaves to be read. -/
structure Unlinked (b b' : L3Book) (side : Side) (ls : List Level) (l : Level)
    (rs : List Level) (i : UInt32) : Prop where
  levels : b'.sideLevels side =
    if l.orderCount - 1 = 0 then ls ++ rs
    else ls ++
      { l with
        head := if b.prev i = NIL then b.next i else l.head
        tail := if b.next i = NIL then b.prev i else l.tail
        totalShares := l.totalShares - (b.node i).shares.toUInt64
        orderCount := l.orderCount - 1 } :: rs
  other : ∀ side', side' ≠ side → b'.sideLevels side' = b.sideLevels side'
  nodes : ∀ j, j ≠ NIL → b'.node j =
    { b.node j with
      next := if j = b.prev i then b.next i else b.next j
      prev := if j = b.next i then b.prev i else b.prev j }
  length : b'.pool.length = b.pool.length
  index : b'.index = b.index
  freeHead : b'.freeHead = b.freeHead

/-- `unlinkNode` up to the test whether the level is empty now: first the
predecessor, then the successor, then the aggregates. -/
def detachNode (b : L3Book) (side : Side) (li i : UInt32) : L3Book :=
  let b₁ := if (b.node i).prev ≠ NIL then
      b.modifyNode (b.node i).prev (fun n => { n with next := (b.node i).next })
    else b.modifyLevel side li (fun l => { l with head := (b.node i).next })
  let b₂ := if (b₁.node i).next ≠ NIL then
      b₁.modifyNode (b₁.node i).next
        (fun n => { n with prev := (b₁.node i).prev })
    else b₁.modifyLevel side li (fun l => { l with tail := (b₁.node i).prev })
  b₂.modifyLevel side li (fun l => { l with
    totalShares := l.totalShares - (b₂.node i).shares.toUInt64
    orderCount := l.orderCount - 1 })

/-- What `detachNode` leaves to be read. -/
structure Detached (b b' : L3Book) (side : Side) (ls : List Level) (l : Level)
    (rs : List Level) (i : UInt32) : Prop where
  levels : b'.sideLevels side = ls ++
    { l with
      head := if b.prev i = NIL then b.next i else l.head
      tail := if b.next i = NIL then b.prev i else l.tail
      totalShares := l.totalShares - (b.node i).shares.toUInt64
      orderCount := l.orderCount - 1 } :: rs
  other : ∀ side', side' ≠ side → b'.sideLevels side' = b.sideLevels side'
  nodes : ∀ j, j ≠ NIL → b'.node j =
    { b.node j with
      next := if j = b.prev i then b.next i else b.next j
      prev := if j = b.next i then b.prev i else b.prev j }
  length : b'.pool.length = b.pool.length
  index : b'.index = b.index
  freeHead : b'.freeHead = b.freeHead

theorem detachNode_spec {li : UInt32}
    (hsplit : b.sideLevels side = ls ++ l :: rs) (hli : li.toNat = ls.length)
    (hnil : i ≠ NIL) (hpi : b.prev i ≠ i) (hni : b.next i ≠ i)
    (hp : b.prev i ≠ NIL → (b.prev i).toNat < b.pool.length)
    (hn : b.next i ≠ NIL → (b.next i).toNat < b.pool.length) :
    Detached b (b.detachNode side li i) side ls l rs i := by
  let b₁ := if (b.node i).prev ≠ NIL then
      b.modifyNode (b.node i).prev (fun n => { n with next := b.next i })
    else b.modifyLevel side li (fun l => { l with head := b.next i })
  have h₁ : Relinked b b₁ side ls l rs (b.prev i) _ _ :=
    relinked _ _ hsplit hli hp
  have hi₁ : b₁.node i = b.node i := by
    rw [h₁.nodes i hnil, if_neg hpi.symm]
  let b₂ := if (b₁.node i).next ≠ NIL then
      b₁.modifyNode (b₁.node i).next
        (fun n => { n with prev := (b₁.node i).prev })
    else b₁.modifyLevel side li (fun l => { l with tail := (b₁.node i).prev })
  have h₂ : Relinked b₁ b₂ side ls _ rs (b₁.node i).next _ _ :=
    relinked _ _ h₁.levels hli (by rwa [hi₁, h₁.length])
  rw [hi₁] at h₂
  change Relinked b₁ b₂ side ls _ rs (b.next i)
    (fun n => { n with prev := b.prev i })
    (fun l => { l with tail := b.prev i }) at h₂
  have hi₂ : b₂.node i = b.node i := by
    rw [h₂.nodes i hnil, if_neg hni.symm, hi₁]
  have h₃ : Relinked b₂ (b.detachNode side li i) side ls _ rs NIL id
      (fun l => { l with
        totalShares := l.totalShares - (b₂.node i).shares.toUInt64
        orderCount := l.orderCount - 1 }) :=
    relinked_level _ h₂.levels hli
  rw [hi₂] at h₃
  refine ⟨?_, ?_, ?_, ?_, ?_, ?_⟩
  · rw [h₃.levels, if_pos rfl]
    split_ifs <;> rfl
  · intro side' hs
    rw [h₃.other side' hs, h₂.other side' hs, h₁.other side' hs]
  · intro j hj
    rw [h₃.nodes j hj, if_neg hj, h₂.nodes j hj, h₁.nodes j hj]
    split_ifs <;> rfl
  · rw [h₃.length, h₂.length, h₁.length]
  · rw [h₃.index, h₂.index, h₁.index]
  · rw [h₃.freeHead, h₂.freeHead, h₁.freeHead]

theorem unlinkNode_eq {li : UInt32} (hside : (b.node i).side = side)
    (hfind : b.findLevel side (b.node i).price = li) (hlne : li ≠ NIL) :
    b.unlinkNode i =
      if ((b.detachNode side li i).level side li).orderCount = 0 then
        (b.detachNode side li i).setSideLevels side
          (((b.detachNode side li i).sideLevels side).eraseIdx li.toNat)
      else b.detachNode side li i := by
  subst hside
  rw [unlinkNode, hfind, if_neg hlne]
  rfl

theorem unlinkNode_spec {li : UInt32} (hside : (b.node i).side = side)
    (hfind : b.findLevel side (b.node i).price = li) (hlne : li ≠ NIL)
    (hsplit : b.sideLevels side = ls ++ l :: rs) (hli : li.toNat = ls.length)
    (hnil : i ≠ NIL) (hpi : b.prev i ≠ i) (hni : b.next i ≠ i)
    (hp : b.prev i ≠ NIL → (b.prev i).toNat < b.pool.length)
    (hn : b.next i ≠ NIL → (b.next i).toNat < b.pool.length) :
    Unlinked b (b.unlinkNode i) side ls l rs i := by
  have hD := detachNode_spec hsplit hli hnil hpi hni hp hn
  rw [unlinkNode_eq hside hfind hlne, level_split hD.levels hli]
  -- a level that counts no more orders leaves the ladder
  by_cases hc : l.orderCount - 1 = 0
  · rw [if_pos hc]
    refine ⟨?_, ?_, ?_, ?_, ?_, ?_⟩
    · rw [sideLevels_setSideLevels, if_pos rfl, if_pos hc, hD.levels, hli,
        eraseIdx_split]
    · intro side' hs
      rw [sideLevels_setSideLevels, if_neg hs, hD.other side' hs]
    · intro j hj
      rw [node_setSideLevels, hD.nodes j hj]
    · rw [pool_setSideLevels, hD.length]
    · rw [index_setSideLevels, hD.index]
    · rw [freeHead_setSideLevels, hD.freeHead]
  · rw [if_neg hc]
    refine ⟨?_, hD.other, hD.nodes, hD.length, hD.index, hD.freeHead⟩
    rw [hD.levels, if_neg hc]

/-- The FIFO of the level loses the node, its neighbours are joined. -/
theorem LevelOk.remove {q₁ q₂ : OrderList} {o : RestingOrder}
    (h : LevelOk b l (q₁ ++ o :: q₂))
    (hnd : ((q₁ ++ o :: q₂).map b.slot).Nodup)
    (hnil : NIL ∉ (q₁ ++ o :: q₂).map b.slot) (hi : b.slot o = i)
    (hslot : ∀ x ∈ q₁ ++ q₂, b'.slot x = b.slot x)
    (hnode : ∀ j ∈ (q₁ ++ q₂).map b.slot,
      b'.next j = (if j = b.prev i then b.next i else b.next j) ∧
      b'.prev j = (if j = b.next i then b.prev i else b.prev j)) : LevelOk b'
      { l with
        head := if b.prev i = NIL then b.next i else l.head
        tail := if b.next i = NIL then b.prev i else l.tail
        totalShares := l.totalShares - o.shares.toUInt64
        orderCount := l.orderCount - 1 } (q₁ ++ q₂) where
  total := by
    have ht := h.total
    rw [OrderList.totalShares_append, OrderList.totalShares_cons] at ht
    have hle : o.shares.toUInt64 ≤ l.totalShares := by
      rw [UInt64.le_iff_toNat_le, UInt32.toNat_toUInt64]
      omega
    rw [UInt64.toNat_sub_of_le _ _ hle, OrderList.totalShares_append,
      UInt32.toNat_toUInt64]
    omega
  count := by
    have hc := h.count
    rw [List.length_append, List.length_cons] at hc
    have hle : 1 ≤ l.orderCount := by
      rw [UInt32.le_iff_toNat_le, UInt32.toNat_one]
      omega
    rw [UInt32.toNat_sub_of_le _ _ hle, UInt32.toNat_one, List.length_append]
    omega
  queue := by
    have hq := h.queue
    simp only [List.map_append, List.map_cons, hi] at hq hnd hnil hnode
    rw [List.map_congr_left hslot, List.map_append]
    have hpm : b.prev i ≠ NIL →
        b.prev i ∈ q₁.map b.slot ++ q₂.map b.slot := by
      intro hne
      rw [(queue_neighbours hq).1] at hne ⊢
      refine List.mem_append_left _ (getLastD_mem fun he => hne ?_)
      rw [he]
      rfl
    have hnm : b.next i ≠ NIL →
        b.next i ∈ q₁.map b.slot ++ q₂.map b.slot := by
      intro hne
      rw [(queue_neighbours hq).2] at hne ⊢
      refine List.mem_append_right _ (headD_mem fun he => hne ?_)
      rw [he]
      rfl
    refine queue_remove hnd hnil hq rfl rfl (fun j hj hne => ?_)
      (fun hne => ?_) (fun j hj hne => ?_) fun hne => ?_
    · rw [(hnode j hj).1, if_neg hne]
    · rw [(hnode _ (hpm hne)).1, if_pos rfl]
    · rw [(hnode j hj).2, if_neg hne]
    · rw [(hnode _ (hnm hne)).2, if_pos rfl]

/-- The links of a queued node are the sentinel or other orders of its
level. -/
theorem Rep.link (h : Rep b os) {o : RestingOrder} (ho : o ∈ os) {j : UInt32}
    (hj : j = b.prev (b.slot o) ∨ j = b.next (b.slot o)) (hne : j ≠ NIL) :
    ∃ x ∈ os.queue o.side o.price, x ≠ o ∧ b.slot x = j := by
  obtain ⟨l, hl, hlp⟩ := (h.ladder o.side).complete o ho rfl
  have hlevel := (h.ladder o.side).levels l hl
  rw [hlp] at hlevel
  have hmem : o ∈ os.queue o.side o.price :=
    OrderList.mem_queue.mpr ⟨ho, rfl, rfl⟩
  have hnd := (h.refs.queue o.side o.price).nodup
  obtain ⟨q₁, q₂, hsplit⟩ := List.append_of_mem hmem
  have hq := hlevel.queue
  rw [hsplit] at hnd hq ⊢
  simp only [List.map_append, List.map_cons] at hq
  obtain ⟨hp, hn⟩ := queue_neighbours hq
  obtain ⟨hnd₁, hnd₂, hdisj⟩ := List.nodup_append.mp hnd
  rcases hj with rfl | rfl
  · have hj : b.prev (b.slot o) ∈ q₁.map b.slot := by
      rw [hp] at hne ⊢
      refine getLastD_mem fun he => hne ?_
      rw [he]
      rfl
    obtain ⟨x, hx, hxs⟩ := List.mem_map.mp hj
    exact ⟨x, List.mem_append_left _ hx,
      hdisj x hx o List.mem_cons_self, hxs⟩
  · have hj : b.next (b.slot o) ∈ q₂.map b.slot := by
      rw [hn] at hne ⊢
      refine headD_mem fun he => hne ?_
      rw [he]
      rfl
    obtain ⟨x, hx, hxs⟩ := List.mem_map.mp hj
    refine ⟨x, List.mem_append_right _ (List.mem_cons_of_mem _ hx), ?_, hxs⟩
    rintro rfl
    exact (List.nodup_cons.mp hnd₂).1 hx

/-- What dropping the order `o` from `b` leaves to be read. -/
structure Dropped (b b' : L3Book) (os : OrderList) (o : RestingOrder)
    (ls : List Level) (l : Level) (rs : List Level) : Prop where
  pool : ∃ free, PoolOk b' ((os.delete o.referenceNumber).map b.slot) free
  split : b.sideLevels o.side = ls ++ l :: rs
  price : l.price = o.price
  levels : b'.sideLevels o.side =
    if l.orderCount - 1 = 0 then ls ++ rs
    else ls ++
      { l with
        head := if b.prev (b.slot o) = NIL then b.next (b.slot o) else l.head
        tail := if b.next (b.slot o) = NIL then b.prev (b.slot o) else l.tail
        totalShares := l.totalShares - o.shares.toUInt64
        orderCount := l.orderCount - 1 } :: rs
  other : ∀ side, side ≠ o.side → b'.sideLevels side = b.sideLevels side
  nodes : ∀ x ∈ os.delete o.referenceNumber, b'.node (b.slot x) =
    { b.node (b.slot x) with
      next := if b.slot x = b.prev (b.slot o) then b.next (b.slot o)
        else b.next (b.slot x)
      prev := if b.slot x = b.next (b.slot o) then b.prev (b.slot o)
        else b.prev (b.slot x) }
  index : b'.index = b.index.erase o.referenceNumber

theorem dropOrder_dropped (h : Rep b os) {o : RestingOrder} (ho : o ∈ os) :
    ∃ ls l rs, Dropped b (b.dropOrder o.referenceNumber (b.slot o)) os o ls l
      rs := by
  have hst := h.nodes o ho
  obtain ⟨l, hl, hlp⟩ := (h.ladder o.side).complete o ho rfl
  obtain ⟨ls, rs, hsplit, hli, hlne⟩ :=
    (h.ladder o.side).findLevel_mem hl h.length_lt
  have hbound : ∀ j, j = b.prev (b.slot o) ∨ j = b.next (b.slot o) →
      j ≠ NIL → j.toNat < b.pool.length ∧ j ≠ b.slot o := by
    intro j hj hne
    obtain ⟨x, hx, hxo, rfl⟩ := h.link ho hj hne
    have hx' := (OrderList.mem_queue.mp hx).1
    exact ⟨h.slot_bound hx', fun he => hxo (h.slot_inj hx' ho he)⟩
  have hself : ∀ j, j = b.prev (b.slot o) ∨ j = b.next (b.slot o) →
      j ≠ b.slot o := by
    intro j hj
    by_cases hnil : j = NIL
    · rw [hnil]
      exact (h.slot_ne_nil ho).symm
    · exact (hbound j hj hnil).2
  have hU : Unlinked b (b.unlinkNode (b.slot o)) o.side ls l rs (b.slot o) :=
    unlinkNode_spec hst.side (by rw [hst.price, ← hlp]) hlne hsplit hli
      (h.slot_ne_nil ho) (hself _ (Or.inl rfl)) (hself _ (Or.inr rfl))
      (fun hne => (hbound _ (Or.inl rfl) hne).1)
      (fun hne => (hbound _ (Or.inr rfl) hne).1)
  have hsh : (b.node (b.slot o)).shares = o.shares := hst.shares
  obtain ⟨free, hp⟩ := h.pool
  obtain ⟨L, R, hos, hdel⟩ := h.refs.split ho
  have hperm : (os.map b.slot).Perm
      (b.slot o :: (os.delete o.referenceNumber).map b.slot) := by
    rw [hdel]
    conv_lhs => rw [hos]
    exact List.perm_middle.map b.slot
  have hp₁ : PoolOk (b.unlinkNode (b.slot o))
      (b.slot o :: (os.delete o.referenceNumber).map b.slot) free := by
    refine (hp.perm hperm).congr hU.length hU.freeHead fun j hj => ?_
    have hj' : j ≠ NIL := hp.ne_nil (List.mem_append_left _ hj)
    rw [next, hU.nodes j hj']
    refine if_neg fun he => ?_
    obtain ⟨x, hx, _, hxs⟩ := h.link ho (Or.inl he) hj'
    have hdisj := (List.nodup_append.mp hp.nodup).2.2
    exact hdisj j hj j (hxs ▸ List.mem_map_of_mem (OrderList.mem_queue.mp hx).1)
      rfl
  obtain ⟨hp₂, hfr⟩ := freeNode_spec hp₁
  rw [dropOrder]
  generalize (b.unlinkNode (b.slot o)).freeNode (b.slot o) = freed at hp₂ hfr ⊢
  refine ⟨ls, l, rs, ⟨_, hp₂.congr rfl rfl fun _ _ => rfl⟩, hsplit, hlp, ?_,
    fun side hs => ?_, ?_, ?_⟩
  · refine (hfr.levels o.side).trans ?_
    rw [hU.levels, hsh]
  · exact (hfr.levels side).trans (hU.other side hs)
  · intro x hx
    obtain ⟨hx', hne⟩ := OrderList.mem_delete.mp hx
    refine (hfr.nodes _ fun he => hne ?_).trans
      (hU.nodes _ (h.slot_ne_nil hx'))
    rw [h.slot_inj hx' ho he]
  · show freed.index.erase _ = _
    rw [hfr.index, hU.index]

namespace Dropped

variable {o : RestingOrder}

theorem slot_other (hD : Dropped b b' os o ls l rs) {x : RestingOrder}
    (hx : x ∈ os.delete o.referenceNumber) : b'.slot x = b.slot x := by
  rw [slot, hD.index, OrderIndex.find_erase,
    if_neg (OrderList.mem_delete.mp hx).2, slot]

/-- The levels of other prices and of the other side are kept. -/
theorem level_other (hD : Dropped b b' os o ls l rs) (h : Rep b os)
    (ho : o ∈ os) {side : Side} {x : Level}
    (hne : ¬ (side = o.side ∧ x.price = o.price))
    (hx : LevelOk b x (os.queue side x.price)) :
    LevelOk b' x (os.queue side x.price) := by
  have hmem : ∀ y ∈ os.queue side x.price,
      y ∈ os.delete o.referenceNumber := by
    intro y hy
    obtain ⟨hym, hys, hyp⟩ := OrderList.mem_queue.mp hy
    refine OrderList.mem_delete.mpr ⟨hym, fun he => hne ?_⟩
    rw [← hys, ← hyp, h.refs.inj hym ho he]
    exact ⟨rfl, rfl⟩
  -- a neighbour of `o` is an order of its level, not of this one
  have hlink : ∀ y ∈ os.queue side x.price, ∀ j,
      j = b.prev (b.slot o) ∨ j = b.next (b.slot o) → b.slot y ≠ j := by
    intro y hy j hj he
    obtain ⟨hym, hys, hyp⟩ := OrderList.mem_queue.mp hy
    obtain ⟨z, hz, _, hzj⟩ := h.link ho hj (he ▸ h.slot_ne_nil hym)
    obtain ⟨hzm, hzs, hzp⟩ := OrderList.mem_queue.mp hz
    have hyz : y = z := h.slot_inj hym hzm (he.trans hzj.symm)
    apply hne
    rw [← hys, ← hyp, hyz]
    exact ⟨hzs, hzp⟩
  refine hx.congr (fun y hy => hD.slot_other (hmem y hy)) (fun y hy => ?_)
    fun y hy => ?_
  · rw [L3Book.next, hD.nodes y (hmem y hy)]
    exact if_neg (hlink y hy _ (Or.inl rfl))
  · rw [L3Book.prev, hD.nodes y (hmem y hy)]
    exact if_neg (hlink y hy _ (Or.inr rfl))

theorem ladder (hD : Dropped b b' os o ls l rs) (h : Rep b os) (ho : o ∈ os)
    (side : Side) : LadderOk b' (os.delete o.referenceNumber) side := by
  have hkeep : ∀ s p, ¬ (s = o.side ∧ p = o.price) →
      (os.delete o.referenceNumber).queue s p = os.queue s p := by
    intro s p hne
    rw [OrderList.queue_delete]
    refine OrderList.delete_of_not_mem fun y hy he => hne ?_
    obtain ⟨hym, hys, hyp⟩ := OrderList.mem_queue.mp hy
    rw [← hys, ← hyp, h.refs.inj hym ho he]
    exact ⟨rfl, rfl⟩
  by_cases hside : side = o.side
  · subst hside
    have hpl := (h.ladder o.side).placed hD.split
    have hq : ∀ p, p ≠ l.price →
        (os.delete o.referenceNumber).queue o.side p = os.queue o.side p :=
      fun p hp => hkeep _ _ fun he => hp (he.2.trans hD.price.symm)
    have hlevel : ∀ x ∈ ls ++ rs, LevelOk b x (os.queue o.side x.price) →
        LevelOk b' x (os.queue o.side x.price) := fun x hx =>
      hD.level_other h ho fun he =>
        hpl.ne x hx (he.2.trans hD.price.symm)
    -- the FIFO around the order that leaves
    have hmem : o ∈ os.queue o.side l.price :=
      OrderList.mem_queue.mpr ⟨ho, rfl, hD.price.symm⟩
    obtain ⟨q₁, q₂, hsplit, hdel⟩ := (h.refs.queue o.side l.price).split hmem
    have hq' : (os.delete o.referenceNumber).queue o.side l.price = q₁ ++ q₂ := by
      rw [OrderList.queue_delete, hdel]
    have hq₁₂ : ∀ x ∈ q₁ ++ q₂, x ∈ os.delete o.referenceNumber := by
      intro x hx
      rw [← hq'] at hx
      exact (OrderList.mem_queue.mp hx).1
    have hlv := hpl.level
    rw [hsplit] at hlv
    have hl' := hlv.remove (hsplit ▸ h.queue_slots_nodup _ _)
      (hsplit ▸ h.nil_not_mem_queue _ _) rfl
      (fun x hx => hD.slot_other (hq₁₂ x hx)) (by
        intro j hj
        obtain ⟨x, hx, rfl⟩ := List.mem_map.mp hj
        have hn := hD.nodes x (hq₁₂ x hx)
        exact ⟨congrArg OrderNode.next hn, congrArg OrderNode.prev hn⟩)
    have hlvs := hD.levels
    by_cases hc : l.orderCount - 1 = 0
    · rw [if_pos hc] at hlvs
      refine hpl.erase (h.ladder _) hlvs hq ?_ hlevel
      rw [hq', ← List.length_eq_zero_iff, ← hl'.count, hc]
      rfl
    · rw [if_neg hc] at hlvs
      refine hpl.put (h.ladder _) hlvs rfl hq ?_ (hq' ▸ hl') hlevel
      intro hnil
      apply hc
      rw [← UInt32.toNat_inj]
      refine hl'.count.trans ?_
      rw [← hq', hnil]
      rfl
  · exact (h.ladder side).keep (hD.other side hside)
      (fun p => hkeep _ _ fun he => hside he.1)
      fun x _ => hD.level_other h ho fun he => hside he.1

theorem rep (hD : Dropped b b' os o ls l rs) (h : Rep b os) (ho : o ∈ os) :
    Rep b' (os.delete o.referenceNumber) := by
  obtain ⟨free, hp⟩ := hD.pool
  have hentry : b.index.Entry o.referenceNumber (b.slot o) := by
    rcases b.index.find_cases o.referenceNumber with he | ⟨he, _⟩
    · exact he
    · exact absurd he (h.slot_ne_nil ho)
  refine ⟨h.refs.delete _, fun x hx => ?_, fun ref href => ?_,
    fun ref href => ?_, ?_, ⟨free, ?_⟩, hD.ladder h ho⟩
  · have hst := h.nodes x (OrderList.mem_delete.mp hx).1
    rw [hD.slot_other hx, hD.nodes x hx]
    exact ⟨hst.1, hst.2, hst.3, hst.4⟩
  · rw [OrderList.find?_delete] at href
    rw [hD.index, OrderIndex.find_erase]
    split
    · rfl
    · next hne =>
        rw [if_neg hne] at href
        exact h.absent ref href
  · rw [hD.index, OrderIndex.entry_erase] at href
    exact h.plain ref href.2
  · have h₁ := OrderIndex.size_erase b.index hentry
    have h₂ := h.refs.length_delete ho
    rw [hD.index]
    rw [h.size] at h₁
    omega
  · rw [List.map_congr_left fun x hx => hD.slot_other hx]
    exact hp

end Dropped

theorem Rep.dropOrder (h : Rep b os) {o : RestingOrder} (ho : o ∈ os) :
    Rep (b.dropOrder o.referenceNumber (b.slot o))
      (os.delete o.referenceNumber) := by
  obtain ⟨ls, l, rs, hD⟩ := dropOrder_dropped h ho
  exact hD.rep h ho

theorem Rep.deleteOrder (h : Rep b os) (ref : UInt64) :
    Rep (b.deleteOrder ref) (os.delete ref) := by
  cases hf : os.find? ref with
  | none =>
      rw [L3Book.deleteOrder, if_pos (h.absent ref hf),
        OrderList.delete_of_not_mem (OrderList.find?_none.mp hf)]
      exact h
  | some o =>
      obtain ⟨ho, rfl⟩ := OrderList.find?_some hf
      have hne : b.index.find o.referenceNumber ≠ NPOS := h.slot_ne_nil ho
      rw [L3Book.deleteOrder, if_neg hne]
      exact h.dropOrder ho

/-! ## §3  Executing and replacing -/

theorem map_slot_setShares (b : L3Book) (os : OrderList) (ref : UInt64)
    (n : UInt32) : (os.setShares ref n).map b.slot = os.map b.slot := by
  have hslot : b.slot = b.index.find ∘ RestingOrder.referenceNumber := rfl
  rw [hslot, ← List.map_map, ← List.map_map, OrderList.refs_setShares]

/-- What a partial execution of the order `o` leaves to be read. -/
structure Reduced (b b' : L3Book) (o : RestingOrder) (removed : UInt32)
    (ls : List Level) (l : Level) (rs : List Level) : Prop where
  split : b.sideLevels o.side = ls ++ l :: rs
  price : l.price = o.price
  levels : b'.sideLevels o.side = ls ++
    { l with totalShares := l.totalShares - removed.toUInt64 } :: rs
  other : ∀ side, side ≠ o.side → b'.sideLevels side = b.sideLevels side
  nodes : ∀ j, b'.node j = if j = b.slot o then
    { b.node j with shares := o.shares - removed } else b.node j
  length : b'.pool.length = b.pool.length
  index : b'.index = b.index
  freeHead : b'.freeHead = b.freeHead

namespace Reduced

variable {o : RestingOrder} {removed : UInt32}

theorem slot_eq (hR : Reduced b b' o removed ls l rs) : b'.slot = b.slot := by
  funext x
  rw [slot, hR.index, slot]

theorem links (hR : Reduced b b' o removed ls l rs) (j : UInt32) :
    b'.next j = b.next j ∧ b'.prev j = b.prev j := by
  rw [L3Book.next, L3Book.prev, hR.nodes]
  split <;> exact ⟨rfl, rfl⟩

theorem level_keep (hR : Reduced b b' o removed ls l rs) {x : Level}
    {q : OrderList} (hx : LevelOk b x q) : LevelOk b' x q :=
  hx.congr (fun y _ => congrFun hR.slot_eq y)
    (fun y _ => (hR.links (b.slot y)).1) fun y _ => (hR.links (b.slot y)).2

theorem level_self (hR : Reduced b b' o removed ls l rs) {q : OrderList}
    (hn : q.RefsNodup) (ho : o ∈ q) (hle : removed ≤ o.shares)
    (hl : LevelOk b l q) : LevelOk b'
      { l with totalShares := l.totalShares - removed.toUInt64 }
      (q.setShares o.referenceNumber (o.shares - removed)) := by
  have hk := hR.level_keep hl
  refine ⟨?_, ?_, ?_⟩
  · have hsum := hn.totalShares_setShares ho (o.shares - removed)
    have htot := hl.total
    rw [UInt32.toNat_sub_of_le _ _ hle] at hsum
    rw [UInt32.le_iff_toNat_le] at hle
    obtain ⟨q₁, q₂, hsplit⟩ := List.append_of_mem ho
    have hge : o.shares.toNat ≤ q.totalShares := by
      rw [hsplit, OrderList.totalShares_append, OrderList.totalShares_cons]
      omega
    rw [UInt64.toNat_sub_of_le, UInt32.toNat_toUInt64]
    · omega
    · rw [UInt64.le_iff_toNat_le, UInt32.toNat_toUInt64]
      omega
  · refine hk.count.trans ?_
    rw [OrderList.setShares, List.length_map]
  · rw [map_slot_setShares]
    exact hk.queue

theorem rep (hR : Reduced b b' o removed ls l rs) (h : Rep b os) (ho : o ∈ os)
    (hle : removed ≤ o.shares) :
    Rep b' (os.setShares o.referenceNumber (o.shares - removed)) := by
  have hkeep : ∀ s p, ¬ (s = o.side ∧ p = o.price) →
      (os.setShares o.referenceNumber (o.shares - removed)).queue s p =
        os.queue s p := by
    intro s p hne
    rw [OrderList.queue_setShares]
    refine OrderList.setShares_of_not_mem fun y hy he => hne ?_
    obtain ⟨hym, hys, hyp⟩ := OrderList.mem_queue.mp hy
    rw [← hys, ← hyp, h.refs.inj hym ho he]
    exact ⟨rfl, rfl⟩
  obtain ⟨free, hp⟩ := h.pool
  refine ⟨h.refs.setShares _ _, fun x hx => ?_, fun ref href => ?_, ?_, ?_,
    ⟨free, ?_⟩, fun side => ?_⟩
  · obtain ⟨y, hy, rfl⟩ := OrderList.mem_setShares.mp hx
    have hst := h.nodes y hy
    rw [hR.slot_eq, hR.nodes]
    by_cases hyo : y.referenceNumber = o.referenceNumber
    · obtain rfl := h.refs.inj hy ho hyo
      rw [if_pos rfl]
      show Stores (if b.slot y = b.slot y then _ else _) _
      rw [if_pos rfl]
      exact ⟨hst.1, rfl, hst.3, hst.4⟩
    · rw [if_neg hyo, if_neg fun he => hyo (by rw [h.slot_inj hy ho he])]
      exact hst
  · rw [hR.index]
    exact h.absent ref (OrderList.find?_setShares_none.mp href)
  · rw [hR.index]
    exact h.plain
  · rw [hR.index, h.size, OrderList.setShares, List.length_map]
  · rw [hR.slot_eq, map_slot_setShares]
    exact hp.congr hR.length hR.freeHead fun j _ => (hR.links j).1
  · by_cases hside : side = o.side
    · subst hside
      have hpl := (h.ladder o.side).placed hR.split
      have hmem : o ∈ os.queue o.side l.price :=
        OrderList.mem_queue.mpr ⟨ho, rfl, hR.price.symm⟩
      have hq := OrderList.queue_setShares os o.referenceNumber
        (o.shares - removed) o.side l.price
      refine hpl.put (h.ladder _) hR.levels rfl
        (fun p hp => hkeep _ _ fun he => hp (he.2.trans hR.price.symm)) ?_ ?_
        fun x _ => hR.level_keep
      · rw [hq, OrderList.setShares, Ne, List.map_eq_nil_iff]
        exact List.ne_nil_of_mem hmem
      · rw [hq]
        exact hR.level_self (h.refs.queue _ _) hmem hle hpl.level
    · exact (h.ladder side).keep (hR.other side hside)
        (fun p => hkeep _ _ fun he => hside he.1) fun x _ => hR.level_keep

end Reduced

/-- The two writes of a partial execution. -/
theorem reduced_spec (h : Rep b os) {o : RestingOrder} (ho : o ∈ os)
    (removed : UInt32) : ∃ li ls l rs, li ≠ NIL ∧
    b.findLevel o.side o.price = li ∧
    Reduced b ((b.modifyNode (b.slot o) fun n =>
      { n with shares := n.shares - removed }).modifyLevel o.side li fun l =>
        { l with totalShares := l.totalShares - removed.toUInt64 })
      o removed ls l rs := by
  obtain ⟨l, hl, hlp⟩ := (h.ladder o.side).complete o ho rfl
  obtain ⟨ls, rs, hsplit, hli, hlne⟩ :=
    (h.ladder o.side).findLevel_mem hl h.length_lt
  rw [hlp] at hli hlne
  refine ⟨_, ls, l, rs, hlne, rfl, hsplit, hlp, ?_, fun side hs => ?_,
    fun j => ?_, ?_, ?_, ?_⟩
  · rw [sideLevels_modifyLevel, if_pos rfl, sideLevels_modifyNode, hsplit, hli,
      modify_split]
  · rw [sideLevels_modifyLevel, if_neg hs, sideLevels_modifyNode]
  · rw [node_modifyLevel, node_modifyNode _ (h.slot_bound ho),
      (h.nodes o ho).shares]
    split
    · next he => rw [he]
    · rfl
  · rw [pool_modifyLevel, length_modifyNode]
  · rw [index_modifyLevel, index_modifyNode]
  · rw [freeHead_modifyLevel, freeHead_modifyNode]

theorem Rep.executeOrder (h : Rep b os) (ref : UInt64) (n : UInt32) :
    Rep (b.executeOrder ref n).1 (os.execute ref n).1 ∧
      (b.executeOrder ref n).2 = (os.execute ref n).2 := by
  cases hf : os.find? ref with
  | none =>
      rw [L3Book.executeOrder, if_pos (h.absent ref hf), OrderList.execute, hf]
      exact ⟨h, rfl⟩
  | some o =>
      obtain ⟨ho, rfl⟩ := OrderList.find?_some hf
      have hst := h.nodes o ho
      have hne : b.index.find o.referenceNumber ≠ NPOS := h.slot_ne_nil ho
      have hsh : (b.node (b.index.find o.referenceNumber)).shares = o.shares :=
        hst.shares
      have hside : (b.node (b.index.find o.referenceNumber)).side = o.side :=
        hst.side
      have hprice : (b.node (b.index.find o.referenceNumber)).price = o.price :=
        hst.price
      rw [L3Book.executeOrder, if_neg hne, OrderList.execute, hf]
      simp only [hsh, hside, hprice, findLevel_modifyNode]
      by_cases hall : min n o.shares = o.shares
      · rw [if_pos hall, if_pos hall]
        exact ⟨h.dropOrder ho, rfl⟩
      · rw [if_neg hall, if_neg hall]
        obtain ⟨li, ls, l, rs, hlne, hli, hR⟩ :=
          reduced_spec h ho (min n o.shares)
        refine ⟨?_, rfl⟩
        rw [hli, if_pos hlne]
        exact hR.rep h ho Std.min_le_right

/-- A replace is a delete, then an add on the same side into the room the
deleted order left. -/
theorem Rep.replaceOrder (h : Rep b os) (oldRef newRef : UInt64)
    (shares price : UInt32) :
    Rep (b.replaceOrder oldRef newRef shares price)
      (os.replace oldRef newRef shares price) := by
  cases hf : os.find? oldRef with
  | none =>
      rw [L3Book.replaceOrder, if_pos (h.absent oldRef hf), OrderList.replace,
        hf]
      exact h
  | some o =>
      obtain ⟨ho, rfl⟩ := OrderList.find?_some hf
      have hne : b.index.find o.referenceNumber ≠ NPOS := h.slot_ne_nil ho
      have hside : (b.node (b.index.find o.referenceNumber)).side = o.side :=
        (h.nodes o ho).side
      rw [L3Book.replaceOrder, if_neg hne, OrderList.replace, hf]
      simp only [hside]
      refine (h.deleteOrder o.referenceNumber).addOrder
        ⟨newRef, o.side, shares, price⟩ ?_
      rw [h.refs.length_delete ho]
      exact h.length_lt

/-- The empty book represents the empty list. -/
theorem rep_empty (symbol : Str) : Rep { symbol } [] where
  refs := List.nodup_nil
  nodes := by simp
  absent := fun ref _ => OrderIndex.find_new ref
  plain := by
    intro ref he
    exact (@Table.fresh_spec hash).2 ref _ he
  size := rfl
  pool := ⟨[], rfl, by simp, by simp, rfl, by simp⟩
  ladder := fun side => by
    have hnil : ({ symbol } : L3Book).sideLevels side = [] := by
      cases side <;> rfl
    refine ⟨?_, by simp, ?_, ?_⟩
    · rw [hnil]
      exact List.Pairwise.nil
    · simp [hnil]
    · simp [hnil]

/-- The symbol plays no part. -/
theorem Rep.setSymbol (h : Rep b os) (symbol : Str) :
    Rep (b.setSymbol symbol) os where
  refs := h.refs
  nodes := h.nodes
  absent := h.absent
  plain := h.plain
  size := h.size
  pool := h.pool.imp fun _ hp => hp.congr rfl rfl fun _ _ => rfl
  ladder side := (h.ladder side).keep (by cases side <;> rfl) (fun _ => rfl)
    fun _ _ hl => hl.congr (fun _ _ => rfl) (fun _ _ => rfl) fun _ _ => rfl

/-! ## §4  Queries -/

theorem fifoFrom_chain : ∀ (fuel : ℕ) {xs : List UInt32} {i : UInt32},
    Chain b.next NIL i xs → NIL ∉ xs → xs.length ≤ fuel →
    b.fifoFrom fuel i = some (xs.map fun j =>
      ⟨(b.node j).referenceNumber, (b.node j).shares, ⟨(b.node j).price⟩⟩) := by
  intro fuel xs i hc hnil hlen
  induction xs generalizing fuel i with
  | nil =>
      have hi : i = NIL := hc
      rw [fifoFrom.eq_def, if_pos hi]
      rfl
  | cons x xs ih =>
      obtain ⟨rfl, hrest⟩ := hc
      have hi : i ≠ NIL := fun he => hnil (he ▸ List.mem_cons_self)
      cases fuel with
      | zero => simp at hlen
      | succ fuel =>
          have := ih fuel hrest (fun hm => hnil (List.mem_cons_of_mem _ hm))
            (by simpa using hlen)
          rw [fifoFrom.eq_def, if_neg hi]
          show (b.fifoFrom fuel (b.next i)).bind _ = _
          rw [this]
          rfl

namespace Rep

/-- A level reports the aggregate of its queue. -/
theorem depthLevel (h : Rep b os) {l : Level} (hl : l ∈ b.sideLevels side) :
    (⟨⟨l.price⟩, l.totalShares, l.orderCount⟩ : DepthLevel) =
      os.level side l.price := by
  have hlv := (h.ladder side).levels l hl
  rw [OrderList.level, ← hlv.total, ← hlv.count, UInt64.ofNat_toNat,
    UInt32.ofNat_toNat]

theorem depthLevels (h : Rep b os) (side : Side) :
    (b.sideLevels side).map
        (fun l => (⟨⟨l.price⟩, l.totalShares, l.orderCount⟩ : DepthLevel)) =
      (os.prices side).map (os.level side) := by
  rw [← (h.ladder side).prices, List.map_map]
  exact List.map_congr_left fun l hl => h.depthLevel hl

theorem depth (h : Rep b os) (side : Side) (maxLevels : ℕ) :
    b.depth side maxLevels = os.depth side maxLevels := by
  rw [L3Book.depth, List.map_take, h.depthLevels, OrderList.depth]
  by_cases hz : maxLevels = 0
  · rw [if_pos hz, if_pos hz]
    refine List.take_of_length_le (le_of_eq ?_)
    rw [← h.depthLevels, List.length_map]
  · rw [if_neg hz, if_neg hz]
    by_cases hle : maxLevels ≤ (b.sideLevels side).length
    · rw [min_eq_left hle]
    · have hlen : ((os.prices side).map (os.level side)).length =
          (b.sideLevels side).length := by
        rw [← h.depthLevels, List.length_map]
      rw [min_eq_right (by omega), List.take_of_length_le (by omega),
        List.take_of_length_le (by omega)]

/-- The top of a side. -/
theorem top (h : Rep b os) (side : Side) :
    (b.sideLevels side).head?.map
        (fun l => (⟨⟨l.price⟩, l.totalShares, l.orderCount⟩ : DepthLevel)) =
      (os.depth side 1).head? := by
  rw [OrderList.depth, if_neg one_ne_zero, ← h.depthLevels]
  cases b.sideLevels side <;> rfl

theorem bbo (h : Rep b os) : b.bbo = os.bbo := by
  have hb := h.top .buy
  have ha := h.top .sell
  rw [OrderList.bbo, ← hb, ← ha, L3Book.bbo]
  cases hbids : b.bids <;> cases hasks : b.asks <;>
    simp [L3Book.sideLevels, hbids, hasks]

theorem ordersAt (h : Rep b os) (side : Side) (price : UInt32) :
    b.ordersAt side price = some (os.ordersAt side price) := by
  by_cases hex : ∃ l ∈ b.sideLevels side, l.price = price
  · obtain ⟨l, hl, rfl⟩ := hex
    obtain ⟨ls, rs, hsplit, hli, hlne⟩ :=
      (h.ladder side).findLevel_mem hl h.length_lt
    have hlv := (h.ladder side).levels l hl
    obtain ⟨free, hp⟩ := h.pool
    have hlen : (os.queue side l.price).length ≤ b.pool.length := by
      have h₁ := os.length_queue_le side l.price
      have h₂ := hp.length
      rw [List.length_map] at h₂
      omega
    rw [L3Book.ordersAt, if_neg hlne, level_split hsplit hli,
      fifoFrom_chain _ (seg_chain hlv.queue.head_eq hlv.queue.linked)
        (h.nil_not_mem_queue side l.price) (by rwa [List.length_map]),
      OrderList.ordersAt, List.map_map]
    refine congrArg some (List.map_congr_left fun o ho => ?_)
    have hst := h.nodes o (OrderList.mem_queue.mp ho).1
    simp only [Function.comp_apply, hst.referenceNumber, hst.shares, hst.price]
  · have hno : ∀ l ∈ b.sideLevels side, l.price ≠ price :=
      fun l hl hp => hex ⟨l, hl, hp⟩
    rw [L3Book.ordersAt, if_pos (findLevel_absent hno), OrderList.ordersAt,
      (h.ladder side).queue_eq_nil hno]
    rfl

theorem contains (h : Rep b os) (ref : UInt64) :
    b.contains ref = os.contains ref := by
  rw [L3Book.contains, OrderIndex.contains, OrderList.contains]
  cases hf : os.find? ref with
  | none => simp [h.absent ref hf]
  | some o =>
      obtain ⟨ho, rfl⟩ := OrderList.find?_some hf
      have hne : b.index.find o.referenceNumber ≠ NPOS := h.slot_ne_nil ho
      simpa using hne

theorem contains_none (h : Rep b os) {ref : UInt64}
    (hf : os.find? ref = none) : b.contains ref = false := by
  rw [h.contains, OrderList.contains, hf]
  rfl

theorem contains_some (h : Rep b os) {ref : UInt64} {o : RestingOrder}
    (hf : os.find? ref = some o) : b.contains ref = true := by
  rw [h.contains, OrderList.contains, hf]
  rfl

theorem orderPrice (h : Rep b os) (ref : UInt64) :
    b.orderPrice ref = os.orderPrice ref := by
  rw [L3Book.orderPrice, OrderList.orderPrice]
  cases hf : os.find? ref with
  | none => rw [if_pos (h.absent ref hf), Option.map_none]
  | some o =>
      obtain ⟨ho, rfl⟩ := OrderList.find?_some hf
      have hne : b.index.find o.referenceNumber ≠ NPOS := h.slot_ne_nil ho
      rw [if_neg hne, Option.map_some]
      exact congrArg some (h.nodes o ho).price

theorem orderSide (h : Rep b os) (ref : UInt64) :
    b.orderSide ref = os.orderSide ref := by
  rw [L3Book.orderSide, OrderList.orderSide]
  cases hf : os.find? ref with
  | none => rw [if_pos (h.absent ref hf), Option.map_none]
  | some o =>
      obtain ⟨ho, rfl⟩ := OrderList.find?_some hf
      have hne : b.index.find o.referenceNumber ≠ NPOS := h.slot_ne_nil ho
      rw [if_neg hne, Option.map_some]
      exact congrArg some (h.nodes o ho).side

theorem levelCount (h : Rep b os) (side : Side) :
    b.levelCount side = os.levelCount side := by
  rw [L3Book.levelCount, OrderList.levelCount, ← (h.ladder side).prices,
    List.length_map]

theorem empty (h : Rep b os) : b.empty = os.isEmpty := by
  have hsize : b.index.table.count = os.length := h.size
  rw [L3Book.empty, OrderIndex.empty, Table.empty, hsize]
  cases os <;> rfl

end Rep

end L3Book

/-! ## §5  Call sequences -/

inductive BookOp where
  | addOrder (referenceNumber : UInt64) (side : Side) (shares price : UInt32)
  | executeOrder (referenceNumber : UInt64) (shares : UInt32)
  | reduceOrder (referenceNumber : UInt64) (shares : UInt32)
  | deleteOrder (referenceNumber : UInt64)
  | replaceOrder (oldReferenceNumber newReferenceNumber : UInt64)
      (shares price : UInt32)
deriving DecidableEq, Repr

/-- A call on the book, with the value it returns, if it returns one. -/
def BookOp.onBook (b : L3Book) : BookOp → L3Book × List UInt32
  | addOrder ref side shares price => (b.addOrder ref side shares price, [])
  | executeOrder ref n =>
      ((b.executeOrder ref n).1, [(b.executeOrder ref n).2])
  | reduceOrder ref n => ((b.reduceOrder ref n).1, [(b.reduceOrder ref n).2])
  | deleteOrder ref => (b.deleteOrder ref, [])
  | replaceOrder oldRef newRef shares price =>
      (b.replaceOrder oldRef newRef shares price, [])

/-- The same call on the order list. -/
def BookOp.onList (os : OrderList) : BookOp → OrderList × List UInt32
  | addOrder ref side shares price => (os.add ⟨ref, side, shares, price⟩, [])
  | executeOrder ref n => ((os.execute ref n).1, [(os.execute ref n).2])
  | reduceOrder ref n => ((os.execute ref n).1, [(os.execute ref n).2])
  | deleteOrder ref => (os.delete ref, [])
  | replaceOrder oldRef newRef shares price =>
      (os.replace oldRef newRef shares price, [])

open Transducer

/-- One call: the book still represents the list and returns what it does,
unless the call leaves `2 ^ 32` orders. -/
theorem BookOp.step {b : L3Book} {os : OrderList} (h : b.Rep os)
    (op : BookOp) (hroom : (op.onList os).1.length < 2 ^ 32) :
    (op.onBook b).1.Rep (op.onList os).1 ∧
      (op.onBook b).2 = (op.onList os).2 := by
  cases op with
  | addOrder ref side shares price =>
      refine ⟨?_, rfl⟩
      show (b.addOrder ref side shares price).Rep (os.add _)
      cases hf : os.find? ref with
      | none =>
          refine h.addOrder ⟨ref, side, shares, price⟩ ?_
          simpa [onList, OrderList.add, hf] using hroom
      | some o =>
          have hne : b.index.find ref ≠ NPOS := by
            rw [Ne, h.find_eq_npos, hf]
            exact Option.some_ne_none o
          rw [L3Book.addOrder, if_pos hne, OrderList.add, hf]
          exact h
  | executeOrder ref n =>
      obtain ⟨hrep, hret⟩ := h.executeOrder ref n
      exact ⟨hrep, congrArg (fun r => [r]) hret⟩
  | reduceOrder ref n =>
      obtain ⟨hrep, hret⟩ := h.executeOrder ref n
      exact ⟨hrep, congrArg (fun r => [r]) hret⟩
  | deleteOrder ref => exact ⟨h.deleteOrder ref, rfl⟩
  | replaceOrder oldRef newRef shares price =>
      exact ⟨h.replaceOrder oldRef newRef shares price, rfl⟩

theorem BookOp.run_rep (symbol : Str) {ops : List BookOp}
    (hroom : ∀ pre, pre <+: ops → (run onList [] pre).1.length < 2 ^ 32) :
    (run onBook { symbol } ops).1.Rep (run onList [] ops).1 ∧
      (run onBook { symbol } ops).2 = (run onList [] ops).2 := by
  have hok : Legal onList (fun os op => (op.onList os).1.length < 2 ^ 32) []
      ops := by
    refine legal_of_prefixes fun pre op hpre => ?_
    have := hroom _ hpre
    rwa [run_snoc] at this
  exact run_simulates (R := L3Book.Rep)
    (fun _ _ op h hlen => step h op hlen) (L3Book.rep_empty symbol) hok

/-- Every query of the book answers as the list does, and no aggregate of the
list is too large for the field that holds it. -/
structure Agrees (b : L3Book) (os : OrderList) : Prop where
  bbo : b.bbo = os.bbo
  depth : ∀ side maxLevels, b.depth side maxLevels = os.depth side maxLevels
  ordersAt : ∀ side price,
    b.ordersAt side price = some (os.ordersAt side price)
  contains : ∀ ref, b.contains ref = os.contains ref
  orderPrice : ∀ ref, b.orderPrice ref = os.orderPrice ref
  orderSide : ∀ ref, b.orderSide ref = os.orderSide ref
  levelCount : ∀ side, b.levelCount side = os.levelCount side
  empty : b.empty = os.isEmpty
  shares_fit : ∀ side price, (os.queue side price).totalShares < 2 ^ 64
  orderCount_fits : ∀ side price, (os.queue side price).length < 2 ^ 32

theorem L3Book.Rep.agrees {b : L3Book} {os : OrderList} (h : b.Rep os) :
    Agrees b os := by
  have hlen : ∀ side price, (os.queue side price).length < 2 ^ 32 :=
    fun side price => (os.length_queue_le side price).trans_lt h.length_lt
  exact ⟨h.bbo, h.depth, h.ordersAt, h.contains, h.orderPrice, h.orderSide,
    h.levelCount, h.empty,
    fun side price => OrderList.totalShares_lt (hlen side price), hlen⟩

/-- **`L3Book` refines the order list.** After any calls with fewer than
`2 ^ 32 - 1` orders resting at a time, the book has returned what the list
returned and answers every query as the list does. -/
theorem l3Book_refines_orderList (symbol : Str) (ops : List BookOp)
    (hroom : ∀ pre, pre <+: ops →
      (run BookOp.onList [] pre).1.length < 2 ^ 32 - 1) :
    (run BookOp.onBook { symbol } ops).2 = (run BookOp.onList [] ops).2 ∧
      Agrees (run BookOp.onBook { symbol } ops).1
        (run BookOp.onList [] ops).1 := by
  obtain ⟨h, hret⟩ := BookOp.run_rep symbol fun pre hpre =>
    (hroom pre hpre).trans (by norm_num)
  exact ⟨hret, h.agrees⟩

/-- Two orders of one level, a duplicate reference, an execution that takes
the first order away, and a replace. -/
def twoOrders : List BookOp :=
  [.addOrder 1 .buy 100 20, .addOrder 2 .buy 50 20, .addOrder 1 .sell 9 9,
    .executeOrder 1 100, .replaceOrder 2 3 70 25]

theorem l3Book_refines_orderList_twoOrders :
    (run BookOp.onBook { symbol := [] } twoOrders).2 =
        (run BookOp.onList [] twoOrders).2 ∧
      Agrees (run BookOp.onBook { symbol := [] } twoOrders).1
        (run BookOp.onList [] twoOrders).1 :=
  l3Book_refines_orderList [] twoOrders (by
    intro pre hpre
    rw [← List.mem_inits] at hpre
    revert pre
    decide)

end Itch.Book
