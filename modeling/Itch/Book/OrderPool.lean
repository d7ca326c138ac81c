import Itch.Book.EnginesAgree

/-!
# The order pool of an `L3Book`

Every node of the pool has one owner: the free list, or the FIFO of one level.
§1 says so of a book by itself (`Partitioned`), following `next` as the code
does, and reads it off `Rep`. §2 follows the size of the pool, which is the
largest number of orders that have rested at a time. Both are for books in
which fewer than `2 ^ 32` orders rest: an index has 32 bits, and the largest
is the sentinel. §3 has the book in which it has become a node.
-/

namespace Itch.Book

open LinkedQueue Transducer

namespace L3Book

variable {b : L3Book} {os : OrderList} {side : Side} {l : Level}

/-! ## §1  Every node has one owner -/

/-- The nodes `xs` are those of the FIFO of the level `l`. -/
structure OwnsLevel (b : L3Book) (side : Side) (l : Level)
    (xs : List UInt32) : Prop where
  walked : walk b.next NIL b.pool.length l.head = some xs
  first : b.prev l.head = NIL
  last : l.tail = xs.getLastD NIL
  inverse : ∀ i ∈ xs,
    (b.next i ≠ NIL → b.next i ∈ xs ∧ b.prev (b.next i) = i) ∧
      (b.prev i ≠ NIL → b.prev i ∈ xs ∧ b.next (b.prev i) = i)
  stored : ∀ i ∈ xs, (b.node i).side = side ∧ (b.node i).price = l.price ∧
    b.index.find (b.node i).referenceNumber = i

/-- The nodes of all FIFOs, level by level. -/
def liveNodes (b : L3Book) (fifo : Side → Level → List UInt32) :
    List UInt32 :=
  b.bids.flatMap (fifo .buy) ++ b.asks.flatMap (fifo .sell)

/-- The pool splits into the free list and the FIFOs of the levels, and the
index has the nodes of the FIFOs and no others. -/
structure Partitioned (b : L3Book) (free : List UInt32)
    (fifo : Side → Level → List UInt32) : Prop where
  walked : walk b.next NIL b.pool.length b.freeHead = some free
  levels : ∀ side, ∀ l ∈ b.sideLevels side, OwnsLevel b side l (fifo side l)
  nodes : ((free ++ b.liveNodes fifo).map UInt32.toNat).Perm
    (List.range b.pool.length)
  index : ∀ ref, b.index.find ref ≠ NPOS →
    b.index.find ref ∈ b.liveNodes fifo ∧
      (b.node (b.index.find ref)).referenceNumber = ref
  size : b.index.size = (b.liveNodes fifo).length

/-- The sentinel is never a node of a partitioned pool. -/
theorem Partitioned.small {free : List UInt32}
    {fifo : Side → Level → List UInt32} (h : Partitioned b free fifo) :
    b.pool.length < 2 ^ 32 := by
  by_contra hge
  have hmem : NIL.toNat ∈ List.range b.pool.length := by
    rw [List.mem_range, toNat_NIL]
    omega
  obtain ⟨i, hi, he⟩ := List.mem_map.mp (h.nodes.mem_iff.mpr hmem)
  obtain rfl := UInt32.toNat_inj.mp he
  have hlevel : ∀ side, ∀ l ∈ b.sideLevels side, NIL ∉ fifo side l :=
    fun side l hl => nil_not_mem_walk (h.levels side l hl).walked
  rcases List.mem_append.mp hi with hi | hi
  · exact nil_not_mem_walk h.walked hi
  · rcases List.mem_append.mp hi with hi | hi
    · obtain ⟨l, hl, hi⟩ := List.mem_flatMap.mp hi
      exact hlevel .buy l hl hi
    · obtain ⟨l, hl, hi⟩ := List.mem_flatMap.mp hi
      exact hlevel .sell l hl hi

/-- The nodes of a level are linked, and they are those of its orders. -/
theorem Rep.ownsLevel (h : Rep b os) (hl : l ∈ b.sideLevels side) :
    OwnsLevel b side l ((os.queue side l.price).map b.slot) := by
  have hlevel := (h.ladder side).levels l hl
  have hne := (h.ladder side).nonempty l hl
  obtain ⟨free, hp⟩ := h.pool
  constructor
  · refine walk_chain (seg_chain hlevel.queue.head_eq hlevel.queue.linked)
      (h.nil_not_mem_queue side l.price) ?_
    have hlength := hp.length
    have hqueue := os.length_queue_le side l.price
    rw [List.length_map] at hlength ⊢
    omega
  · obtain ⟨o, q, hq⟩ := List.exists_cons_of_ne_nil hne
    have hqueue := hlevel.queue
    rw [hq, List.map_cons] at hqueue
    rw [hqueue.head_eq]
    exact hqueue.linked.1
  · exact hlevel.queue.tail_eq
  · intro i hi
    exact queue_inverse hlevel.queue hi
  · intro i hi
    obtain ⟨o, ho, rfl⟩ := List.mem_map.mp hi
    obtain ⟨hmem, rfl, hprice⟩ := OrderList.mem_queue.mp ho
    have hst := h.nodes o hmem
    refine ⟨hst.side, hst.price.trans hprice, ?_⟩
    rw [hst.referenceNumber]
    rfl

/-- The levels of a side share no orders. -/
theorem Rep.nodup_levels (h : Rep b os) (side : Side) :
    ((b.sideLevels side).flatMap
      (fun l => os.queue side l.price)).Nodup := by
  refine List.nodup_flatMap.mpr ⟨fun l _ => ?_, ?_⟩
  · exact (h.refs.queue side l.price).nodup
  · refine (h.ladder side).sorted.imp fun {l l'} hlt o ho ho' => ?_
    have hprice := (OrderList.mem_queue.mp ho).2.2
    have hprice' := (OrderList.mem_queue.mp ho').2.2
    rw [← hprice, ← hprice', side.priority.irrefl] at hlt
    cases hlt

theorem Rep.mem_levels (h : Rep b os) (side : Side) {o : RestingOrder} :
    o ∈ (b.sideLevels side).flatMap (fun l => os.queue side l.price) ↔
      o ∈ os ∧ o.side = side := by
  rw [List.mem_flatMap]
  constructor
  · rintro ⟨l, _, ho⟩
    obtain ⟨hmem, hside, _⟩ := OrderList.mem_queue.mp ho
    exact ⟨hmem, hside⟩
  · rintro ⟨hmem, hside⟩
    obtain ⟨l, hl, hp⟩ := (h.ladder side).complete o hmem hside
    exact ⟨l, hl, OrderList.mem_queue.mpr ⟨hmem, hside, hp.symm⟩⟩

/-- The levels of both sides hold each order once. -/
theorem Rep.perm_levels (h : Rep b os) :
    (b.bids.flatMap (fun l => os.queue .buy l.price) ++
      b.asks.flatMap (fun l => os.queue .sell l.price)).Perm os := by
  have hbids := h.nodup_levels .buy
  have hasks := h.nodup_levels .sell
  refine (List.perm_ext_iff_of_nodup ?_ h.refs.nodup).mpr fun o => ?_
  · refine List.nodup_append.mpr ⟨hbids, hasks, ?_⟩
    rintro o ho o' ho' rfl
    have hbuy := (h.mem_levels .buy).mp ho
    have hsell := (h.mem_levels .sell).mp ho'
    rw [hbuy.2] at hsell
    cases hsell.2
  · rw [List.mem_append]
    have hbuy := h.mem_levels .buy (o := o)
    have hsell := h.mem_levels .sell (o := o)
    rw [show _ ∈ b.bids.flatMap _ ↔ _ from hbuy,
      show _ ∈ b.asks.flatMap _ ↔ _ from hsell]
    cases o.side <;> simp

/-- A book that represents a list has its pool partitioned. -/
theorem Rep.partitioned (h : Rep b os) : ∃ free, Partitioned b free
    (fun side l => (os.queue side l.price).map b.slot) := by
  obtain ⟨free, hp⟩ := h.pool
  have hlive : (b.liveNodes fun side l =>
      (os.queue side l.price).map b.slot).Perm (os.map b.slot) := by
    have hperm := h.perm_levels.map b.slot
    rw [List.map_append, List.map_flatMap, List.map_flatMap] at hperm
    exact hperm
  refine ⟨free, ?_, fun side l hl => h.ownsLevel hl, ?_, ?_, ?_⟩
  · refine walk_chain hp.chain (fun hm => ?_) ?_
    · exact hp.ne_nil (List.mem_append_left _ hm) rfl
    · have hlength := hp.length
      omega
  · refine ((hlive.append_left free).map _).trans ?_
    have hnodup : ((free ++ os.map b.slot).map UInt32.toNat).Nodup :=
      hp.nodup.map fun _ _ => UInt32.toNat_inj.mp
    have hsub : (free ++ os.map b.slot).map UInt32.toNat ⊆
        List.range b.pool.length := by
      intro n hn
      obtain ⟨i, hi, rfl⟩ := List.mem_map.mp hn
      exact List.mem_range.mpr (hp.bound i hi)
    refine (List.subperm_of_subset hnodup hsub).perm_of_length_le ?_
    rw [List.length_range, List.length_map, List.length_append, hp.length]
  · intro ref hne
    cases hf : os.find? ref with
    | none => exact absurd (h.absent ref hf) hne
    | some o =>
        obtain ⟨ho, rfl⟩ := OrderList.find?_some hf
        refine ⟨hlive.mem_iff.mpr (List.mem_map_of_mem ho), ?_⟩
        exact (h.nodes o ho).referenceNumber
  · rw [h.size, hlive.length_eq, List.length_map]

/-! ## §2  The size of the pool -/

theorem length_allocateNode (b : L3Book) : b.allocateNode.1.pool.length =
    if b.freeHead = NIL then b.pool.length + 1 else b.pool.length := by
  rw [allocateNode]
  by_cases hnil : b.freeHead = NIL
  · rw [if_neg (not_not.mpr hnil), if_pos hnil]
    exact List.length_append
  · rw [if_pos hnil, if_neg hnil]
    exact length_modifyNode _

theorem pool_findOrCreateLevel (b : L3Book) (side : Side) (price : UInt32) :
    (b.findOrCreateLevel side price).1.pool = b.pool := by
  rw [findOrCreateLevel]
  split
  · rfl
  · exact pool_setSideLevels _

theorem length_appendNode (b : L3Book) (side : Side)
    (levelIndex nodeIndex shares : UInt32) :
    (b.appendNode side levelIndex nodeIndex shares).pool.length =
      b.pool.length := by
  simp only [appendNode, pool_modifyLevel]
  split <;> simp only [pool_modifyLevel, length_modifyNode]

theorem length_addOrder (b : L3Book) (ref : UInt64) (side : Side)
    (shares price : UInt32) : (b.addOrder ref side shares price).pool.length =
      if b.index.find ref ≠ NPOS ∨ b.freeHead ≠ NIL then b.pool.length
      else b.pool.length + 1 := by
  rw [addOrder]
  by_cases hdup : b.index.find ref ≠ NPOS
  · rw [if_pos hdup, if_pos (Or.inl hdup)]
  · rw [if_neg hdup]
    simp only [length_appendNode, pool_findOrCreateLevel, length_modifyNode,
      length_allocateNode, hdup, false_or, ite_not]

theorem length_unlinkNode (b : L3Book) (i : UInt32) :
    (b.unlinkNode i).pool.length = b.pool.length := by
  simp only [unlinkNode]
  split_ifs <;>
    simp only [length_modifyNode, pool_modifyLevel, pool_setSideLevels]

theorem length_dropOrder (b : L3Book) (ref : UInt64) (i : UInt32) :
    (b.dropOrder ref i).pool.length = b.pool.length := by
  simp only [dropOrder, freeNode, length_modifyNode, length_unlinkNode]

theorem length_executeOrder (b : L3Book) (ref : UInt64) (n : UInt32) :
    (b.executeOrder ref n).1.pool.length = b.pool.length := by
  simp only [executeOrder]
  split_ifs <;>
    simp only [length_dropOrder, pool_modifyLevel, length_modifyNode]

theorem length_deleteOrder (b : L3Book) (ref : UInt64) :
    (b.deleteOrder ref).pool.length = b.pool.length := by
  rw [deleteOrder]
  split
  · rfl
  · exact length_dropOrder ..

/-- The pool has a node for each order. -/
theorem Rep.length_le (h : Rep b os) : os.length ≤ b.pool.length := by
  obtain ⟨free, hp⟩ := h.pool
  have hlength := hp.length
  rw [List.length_map] at hlength
  omega

/-- The free list is empty exactly when every node holds an order. -/
theorem Rep.freeHead_eq_nil (h : Rep b os) :
    b.freeHead = NIL ↔ b.pool.length = os.length := by
  obtain ⟨free, hp⟩ := h.pool
  have hlength := hp.length
  rw [List.length_map] at hlength
  cases free with
  | nil => exact iff_of_true hp.chain (by simpa using hlength)
  | cons i free =>
      refine iff_of_false ?_ ?_
      · rw [show b.freeHead = i from hp.chain.1]
        exact hp.ne_nil (by simp)
      · rw [hlength, List.length_cons]
        omega

/-- Adding an order grows the pool only when all of its nodes are in use. -/
theorem Rep.length_addOrder (h : Rep b os) (o : RestingOrder) :
    (b.addOrder o.referenceNumber o.side o.shares o.price).pool.length =
      max b.pool.length (os.add o).length := by
  have hle := h.length_le
  simp only [L3Book.length_addOrder, ne_eq, h.find_eq_npos,
    h.freeHead_eq_nil, OrderList.add]
  cases hf : os.find? o.referenceNumber with
  | some x => simp [hle]
  | none =>
      by_cases hfull : b.pool.length = os.length
      · simp [hfull]
      · simp only [not_true_eq_false, hfull, not_false_eq_true, or_true,
          if_true, Option.isSome_none, Bool.false_eq_true, if_false,
          List.length_append, List.length_singleton]
        omega

end L3Book

theorem OrderList.length_execute_le (os : OrderList) (ref : UInt64)
    (n : UInt32) : (os.execute ref n).1.length ≤ os.length := by
  rw [OrderList.execute]
  cases os.find? ref with
  | none => exact le_rfl
  | some o =>
      simp only
      split
      · exact List.length_filter_le ..
      · exact le_of_eq (List.length_map _)

/-- No call makes the pool larger than the orders it leaves require. -/
theorem BookOp.length_onBook {b : L3Book} {os : OrderList} (h : b.Rep os)
    (op : BookOp) : (op.onBook b).1.pool.length =
      max b.pool.length (op.onList os).1.length := by
  have hle := h.length_le
  cases op with
  | addOrder ref side shares price =>
      exact h.length_addOrder ⟨ref, side, shares, price⟩
  | executeOrder ref n =>
      rw [show (onBook b (.executeOrder ref n)).1 = (b.executeOrder ref n).1
        from rfl, L3Book.length_executeOrder, eq_comm]
      exact max_eq_left ((os.length_execute_le ref n).trans hle)
  | reduceOrder ref n =>
      rw [show (onBook b (.reduceOrder ref n)).1 = (b.executeOrder ref n).1
        from rfl, L3Book.length_executeOrder, eq_comm]
      exact max_eq_left ((os.length_execute_le ref n).trans hle)
  | deleteOrder ref =>
      rw [show (onBook b (.deleteOrder ref)).1 = b.deleteOrder ref from rfl,
        L3Book.length_deleteOrder, eq_comm]
      exact max_eq_left ((List.length_filter_le ..).trans hle)
  | replaceOrder oldRef newRef shares price =>
      show (b.replaceOrder oldRef newRef shares price).pool.length =
        max _ (os.replace oldRef newRef shares price).length
      rw [L3Book.replaceOrder, OrderList.replace]
      cases hf : os.find? oldRef with
      | none =>
          rw [if_pos (h.absent oldRef hf)]
          exact (max_eq_left hle).symm
      | some o =>
          obtain ⟨ho, rfl⟩ := OrderList.find?_some hf
          -- the side is read before the delete, whose node the add takes
          have hne : b.index.find o.referenceNumber ≠ NPOS := h.slot_ne_nil ho
          have hside : (b.node (b.index.find o.referenceNumber)).side =
              o.side := (h.nodes o ho).side
          rw [if_neg hne, hside, ← L3Book.length_deleteOrder b
            o.referenceNumber]
          exact (h.deleteOrder o.referenceNumber).length_addOrder
            ⟨newRef, o.side, shares, price⟩

/-- How many orders have rested after the calls of a prefix. -/
def restingCounts (ops : List BookOp) : Set ℕ :=
  {n | ∃ pre, pre <+: ops ∧ (run BookOp.onList [] pre).1.length = n}

theorem restingCounts_snoc (ops : List BookOp) (op : BookOp) :
    restingCounts (ops ++ [op]) = insert
      (run BookOp.onList [] (ops ++ [op])).1.length (restingCounts ops) := by
  ext n
  simp only [restingCounts, Set.mem_ofPred_eq, Set.mem_insert_iff,
    List.prefix_concat_iff]
  constructor
  · rintro ⟨pre, rfl | hpre, hn⟩
    · exact Or.inl hn.symm
    · exact Or.inr ⟨pre, hpre, hn⟩
  · rintro (rfl | ⟨pre, hpre, hn⟩)
    · exact ⟨_, Or.inl rfl, rfl⟩
    · exact ⟨pre, Or.inr hpre, hn⟩

theorem length_pool_run (symbol : Str) {ops : List BookOp}
    (hroom : ∀ pre, pre <+: ops →
      (run BookOp.onList [] pre).1.length < 2 ^ 32) :
    IsGreatest (restingCounts ops)
      (run BookOp.onBook { symbol } ops).1.pool.length := by
  induction ops using List.reverseRecOn with
  | nil =>
      refine ⟨⟨[], List.prefix_refl _, rfl⟩, ?_⟩
      rintro n ⟨pre, hpre, rfl⟩
      rw [List.prefix_nil.mp hpre]
      exact le_rfl
  | append_singleton ops op ih =>
      have hroom' : ∀ pre, pre <+: ops →
          (run BookOp.onList [] pre).1.length < 2 ^ 32 :=
        fun pre hpre => hroom pre (hpre.trans (List.prefix_append ops [op]))
      obtain ⟨hrep, _⟩ := BookOp.run_rep symbol hroom'
      rw [restingCounts_snoc, run_snoc, run_snoc, BookOp.length_onBook hrep,
        max_comm]
      exact (ih hroom').insert _

/-- **The pool neither leaks nor double-books nodes.** While fewer than
`2 ^ 32` orders rest at a time, the pool splits into the free list and the
FIFOs of the levels, and it is as large as the most orders that have rested
at a time. -/
theorem order_pool_exact (symbol : Str) (ops : List BookOp)
    (hroom : ∀ pre, pre <+: ops →
      (run BookOp.onList [] pre).1.length < 2 ^ 32) :
    (∃ free fifo,
      (run BookOp.onBook { symbol } ops).1.Partitioned free fifo) ∧
    IsGreatest (restingCounts ops)
      (run BookOp.onBook { symbol } ops).1.pool.length := by
  obtain ⟨hrep, _⟩ := BookOp.run_rep symbol hroom
  obtain ⟨free, hfree⟩ := hrep.partitioned
  exact ⟨⟨free, _, hfree⟩, length_pool_run symbol hroom⟩

theorem order_pool_exact_twoOrders :
    IsGreatest (restingCounts twoOrders)
      (run BookOp.onBook { symbol := [] } twoOrders).1.pool.length :=
  (order_pool_exact [] twoOrders (by
    intro pre hpre
    rw [← List.mem_inits] at hpre
    revert pre
    decide)).2

/-! ## §3  The sentinel as a node -/

/-- Adds of `n` different references. -/
def addOps (n : ℕ) : List BookOp :=
  (List.range n).map (fun k => .addOrder (UInt64.ofNat k) .buy 1 1)

theorem addOps_succ (n : ℕ) :
    addOps (n + 1) = addOps n ++ [.addOrder (UInt64.ofNat n) .buy 1 1] := by
  rw [addOps, List.range_succ, List.map_append, List.map_singleton, addOps]

theorem run_addOps {n : ℕ} (hn : n ≤ 2 ^ 64) :
    (run BookOp.onList [] (addOps n)).1 = buyOrders n := by
  induction n with
  | zero => rfl
  | succ n ih =>
      rw [addOps_succ, run_snoc, ih (by omega), buyOrders_succ]
      show OrderList.add _ _ = _
      rw [OrderList.add, find?_buyOrders le_rfl (by omega)]
      rfl

/-- With `2 ^ 32` orders the pool is not partitioned any more: the node of the
last one is the sentinel. -/
theorem not_partitioned_addOps (symbol : Str) {n : ℕ} (hn : n = 2 ^ 32) :
    ¬ ∃ free fifo, (run BookOp.onBook { symbol }
      (addOps n)).1.Partitioned free fifo := by
  rintro ⟨free, fifo, h⟩
  obtain ⟨k, rfl⟩ : ∃ k, n = k + 1 := ⟨n - 1, by omega⟩
  have hroom : ∀ pre, pre <+: addOps k →
      (run BookOp.onList [] pre).1.length < 2 ^ 32 := by
    intro pre hpre
    have hpre : pre = addOps (min pre.length k) := by
      rw [addOps, ← List.take_range, List.map_take, ← addOps]
      exact List.prefix_iff_eq_take.mp hpre
    rw [hpre, run_addOps (by omega), buyOrders, List.length_map,
      List.length_range]
    omega
  obtain ⟨hrep, _⟩ := BookOp.run_rep symbol hroom
  have hlength := hrep.length_addOrder ⟨UInt64.ofNat k, .buy, 1, 1⟩
  have hlist : ((run BookOp.onList [] (addOps k)).1.add
      ⟨UInt64.ofNat k, .buy, 1, 1⟩).length = k + 1 := by
    rw [run_addOps (by omega), OrderList.add,
      find?_buyOrders le_rfl (by omega)]
    simp [buyOrders]
  rw [hlist] at hlength
  have hsmall := h.small
  rw [addOps_succ, run_snoc] at hsmall
  have hgrown : k + 1 ≤ _ := hlength.symm ▸ le_max_right _ _
  exact absurd (hgrown.trans_lt hsmall) (by omega)

theorem not_partitioned_full : ¬ ∃ free fifo,
    (run BookOp.onBook { symbol := [] } (addOps (2 ^ 32))).1.Partitioned free
      fifo :=
  not_partitioned_addOps [] rfl

end Itch.Book
