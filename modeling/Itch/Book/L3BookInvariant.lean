import Itch.Framework.LinkedQueue
import Itch.Book.L3Book

/-!
# The representation invariant of `L3Book`

`Rep b os` says that the book `b` represents the order list `os`. The index
takes each reference to the node of its order, the pool splits into the nodes
in use and the free list, and each side's vector is the sorted ladder of the
prices in use, every level holding its totals and its FIFO.

§1 lists what the writes leave to be read, §2 is the invariant, §3 and §4 are
the specifications of the pool and of the ladder.
-/

namespace Itch.Book

open SortedLadder LinkedQueue

namespace L3Book

/-! ## §1  Reads after writes -/

variable {b : L3Book} {i j : UInt32} {side side' : Side}

@[simp] theorem length_modifyNode (f : OrderNode → OrderNode) :
    (b.modifyNode i f).pool.length = b.pool.length := by
  simp [modifyNode]

@[simp] theorem bids_modifyNode (f : OrderNode → OrderNode) :
    (b.modifyNode i f).bids = b.bids := rfl

@[simp] theorem asks_modifyNode (f : OrderNode → OrderNode) :
    (b.modifyNode i f).asks = b.asks := rfl

@[simp] theorem sideLevels_modifyNode (f : OrderNode → OrderNode) :
    (b.modifyNode i f).sideLevels side = b.sideLevels side := by
  cases side <;> rfl

@[simp] theorem index_modifyNode (f : OrderNode → OrderNode) :
    (b.modifyNode i f).index = b.index := rfl

@[simp] theorem freeHead_modifyNode (f : OrderNode → OrderNode) :
    (b.modifyNode i f).freeHead = b.freeHead := rfl

@[simp] theorem symbol_modifyNode (f : OrderNode → OrderNode) :
    (b.modifyNode i f).symbol = b.symbol := rfl

@[simp] theorem findLevel_modifyNode (f : OrderNode → OrderNode)
    (price : UInt32) :
    (b.modifyNode i f).findLevel side price = b.findLevel side price := by
  simp [findLevel, lowerBound]

@[simp] theorem level_modifyNode (f : OrderNode → OrderNode) :
    (b.modifyNode i f).level side j = b.level side j := by
  simp [level]

theorem node_modifyNode (f : OrderNode → OrderNode)
    (h : i.toNat < b.pool.length) :
    (b.modifyNode i f).node j = if j = i then f (b.node i) else b.node j := by
  rw [node, node, node, modifyNode, List.getD_eq_getElem?_getD,
    List.getElem?_modify]
  by_cases hj : j = i
  · subst hj
    simp [h]
  · have : ¬ i.toNat = j.toNat := fun he => hj (UInt32.toNat_inj.mp he).symm
    simp [hj, this]

@[simp] theorem pool_setSideLevels (levels : List Level) :
    (b.setSideLevels side levels).pool = b.pool := by
  cases side <;> rfl

@[simp] theorem index_setSideLevels (levels : List Level) :
    (b.setSideLevels side levels).index = b.index := by
  cases side <;> rfl

@[simp] theorem freeHead_setSideLevels (levels : List Level) :
    (b.setSideLevels side levels).freeHead = b.freeHead := by
  cases side <;> rfl

@[simp] theorem symbol_setSideLevels (levels : List Level) :
    (b.setSideLevels side levels).symbol = b.symbol := by
  cases side <;> rfl

@[simp] theorem node_setSideLevels (levels : List Level) :
    (b.setSideLevels side levels).node i = b.node i := by
  simp [node]

theorem sideLevels_setSideLevels (levels : List Level) :
    (b.setSideLevels side levels).sideLevels side' =
      if side' = side then levels else b.sideLevels side' := by
  cases side <;> cases side' <;> rfl

@[simp] theorem pool_modifyLevel (f : Level → Level) :
    (b.modifyLevel side i f).pool = b.pool := pool_setSideLevels _

@[simp] theorem index_modifyLevel (f : Level → Level) :
    (b.modifyLevel side i f).index = b.index := index_setSideLevels _

@[simp] theorem freeHead_modifyLevel (f : Level → Level) :
    (b.modifyLevel side i f).freeHead = b.freeHead := freeHead_setSideLevels _

@[simp] theorem symbol_modifyLevel (f : Level → Level) :
    (b.modifyLevel side i f).symbol = b.symbol := symbol_setSideLevels _

@[simp] theorem node_modifyLevel (f : Level → Level) :
    (b.modifyLevel side i f).node j = b.node j := node_setSideLevels _

theorem sideLevels_modifyLevel (f : Level → Level) :
    (b.modifyLevel side i f).sideLevels side' =
      if side' = side then (b.sideLevels side).modify i.toNat f
      else b.sideLevels side' := sideLevels_setSideLevels _

/-! ## §2  The invariant -/

/-- The pool index of the order `o`. -/
def slot (b : L3Book) (o : RestingOrder) : UInt32 :=
  b.index.find o.referenceNumber

def next (b : L3Book) (i : UInt32) : UInt32 := (b.node i).next

def prev (b : L3Book) (i : UInt32) : UInt32 := (b.node i).prev

/-- The node holds the fields of the order. -/
structure Stores (n : OrderNode) (o : RestingOrder) : Prop where
  referenceNumber : n.referenceNumber = o.referenceNumber
  shares : n.shares = o.shares
  price : n.price = o.price
  side : n.side = o.side

/-- The pool is made of the nodes `live` and of the free list `free`. -/
structure PoolOk (b : L3Book) (live free : List UInt32) : Prop where
  chain : Chain b.next NIL b.freeHead free
  nodup : (free ++ live).Nodup
  bound : ∀ i ∈ free ++ live, i.toNat < b.pool.length
  length : b.pool.length = free.length + live.length
  small : b.pool.length < 2 ^ 32

/-- The level `l` keeps the FIFO `q`. -/
structure LevelOk (b : L3Book) (l : Level) (q : OrderList) : Prop where
  total : l.totalShares.toNat = q.totalShares
  count : l.orderCount.toNat = q.length
  queue : Queue b.next b.prev NIL l.head l.tail (q.map b.slot)

/-- The vector of a side is the ladder of the prices in use. -/
structure LadderOk (b : L3Book) (os : OrderList) (side : Side) : Prop where
  sorted : Sorted side.before Level.price (b.sideLevels side)
  complete : ∀ o ∈ os, o.side = side →
    ∃ l ∈ b.sideLevels side, l.price = o.price
  nonempty : ∀ l ∈ b.sideLevels side, os.queue side l.price ≠ []
  levels : ∀ l ∈ b.sideLevels side, LevelOk b l (os.queue side l.price)

structure Rep (b : L3Book) (os : OrderList) : Prop where
  refs : os.RefsNodup
  nodes : ∀ o ∈ os, Stores (b.node (b.slot o)) o
  absent : ∀ ref, os.find? ref = none → b.index.find ref = NPOS
  plain : ∀ ref, ¬ b.index.Entry ref NPOS
  size : b.index.size = os.length
  pool : ∃ free, PoolOk b (os.map b.slot) free
  ladder : ∀ side, LadderOk b os side

theorem toNat_NIL : NIL.toNat = 2 ^ 32 - 1 := rfl

theorem PoolOk.ne_nil {live free : List UInt32} (h : PoolOk b live free)
    (hi : i ∈ free ++ live) : i ≠ NIL := by
  rintro rfl
  have h₁ := h.bound _ hi
  have h₂ := h.small
  rw [toNat_NIL] at h₁
  omega

/-- Which nodes are in use is what matters, not their order. -/
theorem PoolOk.perm {live live' free : List UInt32} (h : PoolOk b live free)
    (hp : live.Perm live') : PoolOk b live' free where
  chain := h.chain
  nodup := (hp.append_left free).nodup_iff.mp h.nodup
  bound := fun i hi => h.bound i ((hp.append_left free).mem_iff.mpr hi)
  length := by rw [h.length, hp.length_eq]
  small := h.small

namespace Rep

variable {os : OrderList} {o o' : RestingOrder}

theorem slot_bound (h : Rep b os) (ho : o ∈ os) :
    (b.slot o).toNat < b.pool.length := by
  obtain ⟨free, hp⟩ := h.pool
  exact hp.bound _ (List.mem_append_right _ (List.mem_map_of_mem ho))

theorem slot_ne_nil (h : Rep b os) (ho : o ∈ os) : b.slot o ≠ NIL := by
  obtain ⟨free, hp⟩ := h.pool
  exact hp.ne_nil (List.mem_append_right _ (List.mem_map_of_mem ho))

theorem slot_inj (h : Rep b os) (ho : o ∈ os) (ho' : o' ∈ os)
    (he : b.slot o = b.slot o') : o = o' := by
  apply h.refs.inj ho ho'
  rw [← (h.nodes o ho).referenceNumber, he, (h.nodes o' ho').referenceNumber]

theorem slots_nodup (h : Rep b os) {xs : OrderList} (hsub : ∀ x ∈ xs, x ∈ os)
    (hxs : xs.Nodup) : (xs.map b.slot).Nodup :=
  List.Nodup.map_on (fun x hx y hy => h.slot_inj (hsub x hx) (hsub y hy)) hxs

/-- The index finds exactly the references that rest. -/
theorem find_eq_npos (h : Rep b os) {ref : UInt64} :
    b.index.find ref = NPOS ↔ os.find? ref = none := by
  refine ⟨fun he => ?_, h.absent ref⟩
  cases ho : os.find? ref with
  | none => rfl
  | some o =>
      obtain ⟨hmem, rfl⟩ := OrderList.find?_some ho
      exact absurd he (h.slot_ne_nil hmem)

theorem queue_slots_nodup (h : Rep b os) (side : Side) (price : UInt32) :
    ((os.queue side price).map b.slot).Nodup :=
  h.slots_nodup (fun _ hx => (OrderList.mem_queue.mp hx).1)
    (h.refs.queue side price).nodup

theorem nil_not_mem_queue (h : Rep b os) (side : Side) (price : UInt32) :
    NIL ∉ (os.queue side price).map b.slot := by
  intro hm
  obtain ⟨x, hx, he⟩ := List.mem_map.mp hm
  exact h.slot_ne_nil (OrderList.mem_queue.mp hx).1 he

theorem length_lt (h : Rep b os) : os.length < 2 ^ 32 := by
  obtain ⟨free, hp⟩ := h.pool
  have h₁ := hp.length
  have h₂ := hp.small
  rw [List.length_map] at h₁
  omega

end Rep

/-- A level is kept by any write that leaves its nodes and their slots. -/
theorem LevelOk.congr {b b' : L3Book} {l : Level} {q : OrderList}
    (h : LevelOk b l q) (hslot : ∀ o ∈ q, b'.slot o = b.slot o)
    (hnext : ∀ o ∈ q, b'.next (b.slot o) = b.next (b.slot o))
    (hprev : ∀ o ∈ q, b'.prev (b.slot o) = b.prev (b.slot o)) :
    LevelOk b' l q where
  total := h.total
  count := h.count
  queue := by
    rw [List.map_congr_left hslot]
    refine queue_congr ?_ ?_ h.queue
    · exact List.forall_mem_map.mpr hnext
    · exact List.forall_mem_map.mpr hprev

/-! ## §3  The pool -/

/-- The pool is kept by any write that leaves the free list alone. -/
theorem PoolOk.congr {b b' : L3Book} {live free : List UInt32}
    (h : PoolOk b live free) (hlen : b'.pool.length = b.pool.length)
    (hfree : b'.freeHead = b.freeHead)
    (hnext : ∀ i ∈ free, b'.next i = b.next i) : PoolOk b' live free where
  chain := by
    rw [hfree]
    exact chain_congr hnext h.chain
  nodup := h.nodup
  bound := by
    rw [hlen]
    exact h.bound
  length := hlen.trans h.length
  small := by
    rw [hlen]
    exact h.small

/-- `b'` differs from `b` at most in the node `i` and in the free list. -/
structure Frame (i : UInt32) (b b' : L3Book) : Prop where
  nodes : ∀ j, j ≠ i → b'.node j = b.node j
  levels : ∀ side, b'.sideLevels side = b.sideLevels side
  index : b'.index = b.index
  symbol : b'.symbol = b.symbol

/-- Popping the head of the free list. -/
theorem allocateNode_pop {b : L3Book} {live free : List UInt32} {i : UInt32}
    (hp : PoolOk b live (i :: free)) :
    ∃ b', b.allocateNode = (b', i) ∧ PoolOk b' (i :: live) free ∧
      Frame i b b' ∧ b'.node i = {} := by
  have hi : i.toNat < b.pool.length := hp.bound i (by simp)
  have hhead : b.freeHead = i := hp.chain.1
  have hnil : b.freeHead ≠ NIL := by
    rw [hhead]
    exact hp.ne_nil (by simp)
  let b₁ : L3Book := { b with freeHead := b.next i }
  have hnode : ∀ j, (b₁.modifyNode i (fun _ => {})).node j =
      if j = i then {} else b.node j := fun j => node_modifyNode _ hi
  refine ⟨b₁.modifyNode i (fun _ => {}), ?_, ?_, ?_, ?_⟩
  · rw [allocateNode, if_pos hnil, hhead]
    rfl
  · obtain ⟨hnot, _⟩ := List.nodup_cons.mp hp.nodup
    refine ⟨?_, ?_, ?_, ?_, ?_⟩
    · refine chain_congr (fun j hj => ?_) hp.chain.2
      have hne : j ≠ i := by
        rintro rfl
        exact hnot (List.mem_append_left _ hj)
      rw [next, hnode, if_neg hne, next]
    · exact (@List.perm_middle _ _ free _).nodup_iff.mpr hp.nodup
    · intro j hj
      rw [length_modifyNode]
      exact hp.bound j ((@List.perm_middle _ _ free _).mem_iff.mp hj)
    · rw [length_modifyNode]
      show b.pool.length = _
      rw [hp.length, List.length_cons, List.length_cons]
      omega
    · rw [length_modifyNode]
      exact hp.small
  · exact ⟨fun j hj => by rw [hnode, if_neg hj],
      fun side => sideLevels_modifyNode _, rfl, rfl⟩
  · rw [hnode, if_pos rfl]

/-- Growing the pool. -/
theorem allocateNode_grow {b : L3Book} {live : List UInt32}
    (hp : PoolOk b live []) (hroom : live.length + 1 < 2 ^ 32) :
    ∃ b' i, b.allocateNode = (b', i) ∧ PoolOk b' (i :: live) [] ∧
      Frame i b b' ∧ b'.node i = {} := by
  have hhead : ¬ b.freeHead ≠ NIL := not_not.mpr hp.chain
  have hlen : b.pool.length = live.length := by simpa using hp.length
  let i := UInt32.ofNat b.pool.length
  have hi : i.toNat = b.pool.length := by
    show (UInt32.ofNat _).toNat = _
    rw [UInt32.toNat_ofNat']
    omega
  let b' : L3Book := { b with pool := b.pool ++ [{}] }
  have hlen' : b'.pool.length = b.pool.length + 1 := by simp [b']
  have hnode : ∀ j, b'.node j = b.node j := by
    intro j
    show List.getD (b.pool ++ [({} : OrderNode)]) j.toNat {} =
      b.pool.getD j.toNat {}
    rw [List.getD_eq_getElem?_getD, List.getD_eq_getElem?_getD,
      List.getElem?_append]
    split
    · rfl
    · next h =>
        rw [List.getElem?_eq_none (l := b.pool) (by omega)]
        rcases j.toNat - b.pool.length with _ | n <;> rfl
  refine ⟨b', i, ?_, ⟨hp.chain, ?_, ?_, ?_, ?_⟩,
    ⟨fun j _ => hnode j, fun side => ?_, rfl, rfl⟩, ?_⟩
  · rw [allocateNode, if_neg hhead]
    simp [b', i]
  · rw [List.nil_append, List.nodup_cons]
    refine ⟨fun hm => ?_, hp.nodup⟩
    have := hp.bound i hm
    omega
  · intro j hj
    rw [List.nil_append, List.mem_cons] at hj
    rcases hj with rfl | hj
    · omega
    · have := hp.bound j hj
      omega
  · rw [hlen', hlen]
    simp
  · omega
  · cases side <;> rfl
  · rw [hnode, node, List.getD_eq_getElem?_getD,
      List.getElem?_eq_none (by omega), Option.getD_none]

theorem allocateNode_spec {b : L3Book} {live free : List UInt32}
    (hp : PoolOk b live free) (hroom : live.length + 1 < 2 ^ 32) :
    ∃ b' i free', b.allocateNode = (b', i) ∧ PoolOk b' (i :: live) free' ∧
      Frame i b b' ∧ b'.node i = {} := by
  cases free with
  | nil =>
      obtain ⟨b', i, h⟩ := allocateNode_grow hp hroom
      exact ⟨b', i, [], h⟩
  | cons i free =>
      obtain ⟨b', h⟩ := allocateNode_pop hp
      exact ⟨b', i, free, h⟩

theorem freeNode_spec {b : L3Book} {live free : List UInt32} {i : UInt32}
    (hp : PoolOk b (i :: live) free) :
    PoolOk (b.freeNode i) live (i :: free) ∧ Frame i b (b.freeNode i) := by
  have hi : i.toNat < b.pool.length := hp.bound i (by simp)
  have hnode : ∀ j, (b.freeNode i).node j =
      if j = i then { next := b.freeHead } else b.node j := by
    intro j
    show ((b.modifyNode i _).modifyNode i _).node j = _
    rw [node_modifyNode _ (by simpa using hi), node_modifyNode _ hi,
      node_modifyNode _ hi, if_pos rfl]
    split <;> rfl
  have hlen : (b.freeNode i).pool.length = b.pool.length := by
    simp [freeNode]
  have hnd : (i :: (free ++ live)).Nodup :=
    (@List.perm_middle _ _ free _).nodup_iff.mp hp.nodup
  refine ⟨⟨⟨rfl, ?_⟩, hnd, ?_, ?_, ?_⟩,
    ⟨fun j hj => by rw [hnode, if_neg hj], fun side => ?_, rfl, rfl⟩⟩
  · rw [next, hnode, if_pos rfl]
    refine chain_congr (fun j hj => ?_) hp.chain
    have hne : j ≠ i := by
      rintro rfl
      exact (List.nodup_cons.mp hnd).1 (List.mem_append_left _ hj)
    rw [next, hnode, if_neg hne, next]
  · intro j hj
    rw [hlen]
    exact hp.bound j ((@List.perm_middle _ _ free _).mem_iff.mpr hj)
  · rw [hlen, hp.length, List.length_cons, List.length_cons]
    omega
  · rw [hlen]
    exact hp.small
  · cases side <;> rfl

/-! ## §4  The ladder -/

section Ladder

variable {b : L3Book} {os : OrderList} {side : Side} {price : UInt32}

/-- The vector holds the prices in use, best first. -/
theorem LadderOk.prices (h : LadderOk b os side) :
    (b.sideLevels side).map (·.price) = os.prices side := by
  refine (OrderList.prices_unique ?_ fun p => ?_).symm
  · rw [Sorted, List.pairwise_map]
    exact h.sorted
  · rw [List.mem_map]
    constructor
    · rintro ⟨l, hl, rfl⟩
      exact OrderList.mem_prices.mp
        (OrderList.queue_ne_nil_iff.mp (h.nonempty l hl))
    · rintro ⟨o, ho, hs, rfl⟩
      exact h.complete o ho hs

theorem LadderOk.length_le (h : LadderOk b os side) :
    (b.sideLevels side).length ≤ os.length := by
  rw [← List.length_map (·.price), h.prices]
  exact os.length_prices_le side

/-- A price outside the ladder is one at which nothing rests. -/
theorem LadderOk.queue_eq_nil (h : LadderOk b os side)
    (hno : ∀ l ∈ b.sideLevels side, l.price ≠ price) :
    os.queue side price = [] := by
  rw [List.eq_nil_iff_forall_not_mem]
  intro o ho
  obtain ⟨hmem, hside, rfl⟩ := OrderList.mem_queue.mp ho
  obtain ⟨l, hl, hp⟩ := h.complete o hmem hside
  exact hno l hl hp

theorem findLevel_absent
    (hno : ∀ l ∈ b.sideLevels side, l.price ≠ price) :
    b.findLevel side price = NIL := by
  rw [findLevel, if_neg]
  rintro ⟨hne, hp⟩
  have hle : b.lowerBound side price ≤ (b.sideLevels side).length :=
    List.findIdx_le_length
  have hlt : b.lowerBound side price < (b.sideLevels side).length :=
    lt_of_le_of_ne hle hne
  rw [List.getD_eq_getElem?_getD, List.getElem?_eq_getElem hlt,
    Option.getD_some] at hp
  exact hno _ (List.getElem_mem hlt) hp

/-- Where the search for a price of the ladder ends. -/
theorem LadderOk.lowerBound_eq (h : LadderOk b os side) {l : Level}
    (hl : l ∈ b.sideLevels side) : ∃ ls rs, b.sideLevels side = ls ++ l :: rs
      ∧ b.lowerBound side l.price = ls.length :=
  lowerBound_found side.priority h.sorted hl

theorem LadderOk.findLevel_mem (h : LadderOk b os side) {l : Level}
    (hl : l ∈ b.sideLevels side) (hlen : os.length < 2 ^ 32) :
    ∃ ls rs, b.sideLevels side = ls ++ l :: rs ∧
      (b.findLevel side l.price).toNat = ls.length ∧
      b.findLevel side l.price ≠ NIL := by
  obtain ⟨ls, rs, hsplit, hlb⟩ := h.lowerBound_eq hl
  have hle := h.length_le
  have hcons : (b.sideLevels side).length = ls.length + (rs.length + 1) := by
    rw [hsplit, List.length_append, List.length_cons]
  have hfind : b.findLevel side l.price = UInt32.ofNat ls.length := by
    rw [findLevel, hlb, if_pos]
    rw [hsplit, getD_split]
    refine ⟨?_, rfl⟩
    simp
  have hnat : (b.findLevel side l.price).toNat = ls.length := by
    rw [hfind, UInt32.toNat_ofNat']
    omega
  refine ⟨ls, rs, hsplit, hnat, fun hnil => ?_⟩
  rw [hnil, toNat_NIL] at hnat
  omega

theorem setSideLevels_self (b : L3Book) (side : Side) :
    b.setSideLevels side (b.sideLevels side) = b := by
  cases side <;> rfl

/-- A level without orders. -/
theorem levelOk_nil (b : L3Book) (price : UInt32) :
    LevelOk b { price := price } [] where
  total := rfl
  count := rfl
  queue := ⟨rfl, rfl, trivial⟩

/-- The level of `price`, in its place of the ladder, whether it was there or
has been inserted. -/
structure Placed (b : L3Book) (os : OrderList) (side : Side) (l : Level)
    (ls rs : List Level) : Prop where
  sorted : Sorted side.before Level.price (ls ++ l :: rs)
  level : LevelOk b l (os.queue side l.price)
  rest : ∀ x ∈ ls ++ rs, x ∈ b.sideLevels side
  complete : ∀ x ∈ b.sideLevels side, x.price ≠ l.price → x ∈ ls ++ rs

theorem Placed.ne {l : Level} {ls rs : List Level}
    (h : Placed b os side l ls rs) : ∀ x ∈ ls ++ rs, x.price ≠ l.price :=
  fun _ hx => sorted_split_ne side.priority h.sorted hx

theorem LadderOk.placed (h : LadderOk b os side) {l : Level}
    {ls rs : List Level} (hsplit : b.sideLevels side = ls ++ l :: rs) :
    Placed b os side l ls rs where
  sorted := hsplit ▸ h.sorted
  level := h.levels l (by simp [hsplit])
  rest := by
    intro x hx
    rw [hsplit]
    rcases List.mem_append.mp hx with hx | hx
    · exact List.mem_append_left _ hx
    · exact List.mem_append_right _ (List.mem_cons_of_mem _ hx)
  complete := by
    intro x hx hne
    rw [hsplit, List.mem_append, List.mem_cons] at hx
    rcases hx with hx | rfl | hx
    · exact List.mem_append_left _ hx
    · exact absurd rfl hne
    · exact List.mem_append_right _ hx

/-- The level of `price` after the search in a book `b'` with the side of
`b`: found or inserted. -/
theorem findOrCreateLevel_spec {b' : L3Book} (h : LadderOk b os side)
    (hb : b'.sideLevels side = b.sideLevels side) (price : UInt32)
    (hlen : os.length < 2 ^ 32) : ∃ i l ls rs,
    b'.findOrCreateLevel side price =
      (b'.setSideLevels side (ls ++ l :: rs), i) ∧
      i.toNat = ls.length ∧ l.price = price ∧ Placed b os side l ls rs := by
  have hle := h.length_le
  have hlbb : b'.lowerBound side price = b.lowerBound side price := by
    rw [lowerBound, hb, lowerBound]
  by_cases hex : ∃ l ∈ b.sideLevels side, l.price = price
  · obtain ⟨l, hl, rfl⟩ := hex
    obtain ⟨ls, rs, hsplit, hlb⟩ := h.lowerBound_eq hl
    have hcons : (b.sideLevels side).length = ls.length + (rs.length + 1) := by
      rw [hsplit, List.length_append, List.length_cons]
    refine ⟨UInt32.ofNat ls.length, l, ls, rs, ?_, ?_, rfl, h.placed hsplit⟩
    · rw [findOrCreateLevel, hlbb, hlb, if_pos, ← hsplit, ← hb,
        setSideLevels_self]
      rw [hb, hsplit, getD_split]
      refine ⟨?_, rfl⟩
      simp
    · rw [UInt32.toNat_ofNat']
      omega
  · have hno : ∀ l ∈ b.sideLevels side, l.price ≠ price :=
      fun l hl hp => hex ⟨l, hl, hp⟩
    obtain ⟨ls, rs, hsplit, hlb, hls, hrs⟩ :=
      lowerBound_absent side.priority h.sorted hno
    have hlb' : b.lowerBound side price = ls.length := hlb
    have hcons : (b.sideLevels side).length = ls.length + rs.length := by
      rw [hsplit, List.length_append]
    refine ⟨UInt32.ofNat ls.length, { price := price }, ls, rs, ?_, ?_, rfl,
      ?_⟩
    · rw [findOrCreateLevel, hlbb, hlb', hb, if_neg, hsplit, insertIdx_split]
      rintro ⟨hne, hp⟩
      have hlt : ls.length < (b.sideLevels side).length := by omega
      rw [List.getD_eq_getElem?_getD, List.getElem?_eq_getElem hlt,
        Option.getD_some] at hp
      exact hno _ (List.getElem_mem hlt) hp
    · rw [UInt32.toNat_ofNat']
      omega
    · refine ⟨sorted_insert (hsplit ▸ h.sorted) hls hrs, ?_, ?_, ?_⟩
      · rw [h.queue_eq_nil hno]
        exact levelOk_nil b price
      · rw [hsplit]
        exact fun x hx => hx
      · rw [hsplit]
        exact fun x hx _ => hx

/-- A side whose queues did not change. -/
theorem LadderOk.keep {b' : L3Book} {os' : OrderList} (h : LadderOk b os side)
    (hlv : b'.sideLevels side = b.sideLevels side)
    (hq : ∀ p, os'.queue side p = os.queue side p)
    (hlevel : ∀ l ∈ b.sideLevels side, LevelOk b l (os.queue side l.price) →
      LevelOk b' l (os.queue side l.price)) : LadderOk b' os' side where
  sorted := by
    rw [hlv]
    exact h.sorted
  complete := by
    intro o ho hs
    have hm : o ∈ os.queue side o.price := by
      rw [← hq]
      exact OrderList.mem_queue.mpr ⟨ho, hs, rfl⟩
    rw [hlv]
    exact h.complete o (OrderList.mem_queue.mp hm).1 hs
  nonempty := by
    intro l hl
    rw [hlv] at hl
    rw [hq]
    exact h.nonempty l hl
  levels := by
    intro l hl
    rw [hlv] at hl
    rw [hq]
    exact hlevel l hl (h.levels l hl)

/-- One level was rewritten, the others did not change. -/
theorem Placed.put {b' : L3Book} {os' : OrderList} {l l' : Level}
    {ls rs : List Level} (h : LadderOk b os side)
    (hpl : Placed b os side l ls rs)
    (hlv : b'.sideLevels side = ls ++ l' :: rs) (hprice : l'.price = l.price)
    (hq : ∀ p, p ≠ l.price → os'.queue side p = os.queue side p)
    (hne : os'.queue side l.price ≠ [])
    (hl' : LevelOk b' l' (os'.queue side l.price))
    (hlevel : ∀ x ∈ ls ++ rs, LevelOk b x (os.queue side x.price) →
      LevelOk b' x (os.queue side x.price)) : LadderOk b' os' side where
  sorted := by
    rw [hlv]
    exact sorted_replace hpl.sorted hprice
  complete := by
    intro o ho hs
    rw [hlv]
    by_cases hp : o.price = l.price
    · exact ⟨l', by simp, hprice.trans hp.symm⟩
    · have hm : o ∈ os.queue side o.price := by
        rw [← hq _ hp]
        exact OrderList.mem_queue.mpr ⟨ho, hs, rfl⟩
      obtain ⟨x, hx, hxp⟩ := h.complete o (OrderList.mem_queue.mp hm).1 hs
      have hx' := hpl.complete x hx (by rwa [hxp])
      refine ⟨x, ?_, hxp⟩
      exact (List.perm_middle.mem_iff).mpr (List.mem_cons_of_mem _ hx')
  nonempty := by
    intro x hx
    rw [hlv, List.perm_middle.mem_iff] at hx
    rcases List.mem_cons.mp hx with rfl | hx
    · rwa [hprice]
    · rw [hq _ (hpl.ne x hx)]
      exact h.nonempty x (hpl.rest x hx)
  levels := by
    intro x hx
    rw [hlv, List.perm_middle.mem_iff] at hx
    rcases List.mem_cons.mp hx with rfl | hx
    · rwa [hprice]
    · rw [hq _ (hpl.ne x hx)]
      exact hlevel x hx (h.levels x (hpl.rest x hx))

/-- One level emptied and was erased, the others did not change. -/
theorem Placed.erase {b' : L3Book} {os' : OrderList} {l : Level}
    {ls rs : List Level} (h : LadderOk b os side)
    (hpl : Placed b os side l ls rs) (hlv : b'.sideLevels side = ls ++ rs)
    (hq : ∀ p, p ≠ l.price → os'.queue side p = os.queue side p)
    (hnil : os'.queue side l.price = [])
    (hlevel : ∀ x ∈ ls ++ rs, LevelOk b x (os.queue side x.price) →
      LevelOk b' x (os.queue side x.price)) : LadderOk b' os' side where
  sorted := by
    rw [hlv]
    exact sorted_erase hpl.sorted
  complete := by
    intro o ho hs
    have hm' : o ∈ os'.queue side o.price :=
      OrderList.mem_queue.mpr ⟨ho, hs, rfl⟩
    have hp : o.price ≠ l.price := by
      intro hp
      rw [hp, hnil] at hm'
      exact List.not_mem_nil hm'
    rw [hq _ hp] at hm'
    obtain ⟨x, hx, hxp⟩ := h.complete o (OrderList.mem_queue.mp hm').1 hs
    rw [hlv]
    exact ⟨x, hpl.complete x hx (by rwa [hxp]), hxp⟩
  nonempty := by
    intro x hx
    rw [hlv] at hx
    rw [hq _ (hpl.ne x hx)]
    exact h.nonempty x (hpl.rest x hx)
  levels := by
    intro x hx
    rw [hlv] at hx
    rw [hq _ (hpl.ne x hx)]
    exact hlevel x hx (h.levels x (hpl.rest x hx))

end Ladder

end L3Book

end Itch.Book
