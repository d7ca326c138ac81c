import Itch.Framework.LinearProbing

/-!
# `OrderIndex`: the open-addressed map from reference number to pool index

§1 translates the class as functions on the raw `Table`. The probe loops and
the shifting loop run on a budget of one pass over the table; `none` means
that a loop did not stop within it. §2 states when a table is valid, §3 to §5
give one spec lemma per operation. `OrderIndexMap` builds the map on top.

The hash function is a parameter throughout: nothing depends on how keys are
spread.
-/

namespace Itch.Book

open LinearProbing

/-! ## §1  The class -/

/-- Sentinel returned by `find` when a key is absent. -/
def NPOS : UInt32 := 0xFFFFFFFF

structure Slot where
  key : UInt64 := 0
  value : UInt32 := 0
  used : Bool := false
deriving DecidableEq, Repr, Inhabited

def initialCapacity : ℕ := 1024

/-- Grow past 70% load. -/
def loadFactorNum : ℕ := 7

def loadFactorDen : ℕ := 10

/-- The finalizing mix (splitmix64) of a key. -/
def hash (key : UInt64) : UInt64 :=
  let key := key ^^^ (key >>> 33)
  let key := key * 0xFF51AFD7ED558CCD
  let key := key ^^^ (key >>> 33)
  let key := key * 0xC4CEB9FE1A85EC53
  key ^^^ (key >>> 33)

/-- The members of the class. Sizes are naturals: a vector of 16-byte slots
cannot reach a capacity at which `capacity * 10` leaves `size_t`. -/
structure Table where
  slots : List Slot := []
  count : ℕ := 0
  mask : ℕ := 0

namespace Table

def slot (t : Table) (i : ℕ) : Slot := t.slots.getD i {}

def setSlot (t : Table) (i : ℕ) (s : Slot) : Table :=
  { t with slots := t.slots.set i s }

def nextSlot (t : Table) (i : ℕ) : ℕ := (i + 1) &&& t.mask

section Operations

variable (hash : UInt64 → UInt64)

def homeSlot (t : Table) (key : UInt64) : ℕ := (hash key).toNat &&& t.mask

/-- The loop `find`, `insert` and `erase` share: walk while the slot is used
by another key. -/
def probe (t : Table) (key : UInt64) : ℕ → ℕ → Option ℕ
  | 0, _ => none
  | fuel + 1, i =>
      if (t.slot i).used then
        if (t.slot i).key = key then some i
        else probe t key fuel (t.nextSlot i)
      else some i

def probeFrom (t : Table) (key : UInt64) : Option ℕ :=
  t.probe key t.slots.length (t.homeSlot hash key)

def find (t : Table) (key : UInt64) : Option UInt32 := do
  let i ← t.probeFrom hash key
  return if (t.slot i).used then (t.slot i).value else NPOS

/-- `insert` after its growth check. -/
def place (t : Table) (key : UInt64) (value : UInt32) : Option Table := do
  let i ← t.probeFrom hash key
  return if (t.slot i).used then
    t.setSlot i { t.slot i with value := value }
  else
    { t.setSlot i ⟨key, value, true⟩ with count := t.count + 1 }

/-- `rehash`, given the `insert` it calls for every stored key. -/
def rehash (insert : Table → UInt64 → UInt32 → Option Table) (t : Table)
    (newCapacity : ℕ) : Option Table :=
  t.slots.foldlM
    (fun t s => if s.used then insert t s.key s.value else some t)
    { slots := List.replicate newCapacity {}, count := 0,
      mask := newCapacity - 1 }

/-- The growth check of `insert`. -/
def reserve (insert : Table → UInt64 → UInt32 → Option Table) (t : Table) :
    Option Table :=
  if (t.count + 1) * loadFactorDen ≥ t.slots.length * loadFactorNum then
    rehash insert t (t.slots.length * 2)
  else some t

/-- `insert` calls `rehash`, which calls `insert` again. The first argument
bounds how deep these calls nest. -/
def insertDepth : ℕ → Table → UInt64 → UInt32 → Option Table
  | 0, _, _, _ => none
  | depth + 1, t, key, value => do
      let t ← reserve (insertDepth depth) t
      t.place hash key value

/-- The keys put back by a `rehash` trigger no second one. -/
def insert (t : Table) (key : UInt64) (value : UInt32) : Option Table :=
  insertDepth hash 2 t key value

/-- The shifting loop of `remove_at`. -/
def shiftLoop (t : Table) : ℕ → ℕ → ℕ → Option Table
  | 0, _, _ => none
  | fuel + 1, hole, next =>
      if (t.slot next).used then
        let home := t.homeSlot hash (t.slot next).key
        let movable :=
          if hole ≤ next then decide (home ≤ hole) || decide (home > next)
          else decide (home ≤ hole) && decide (home > next)
        if movable then
          let t := t.setSlot hole (t.slot next)
          let t := t.setSlot next { t.slot next with used := false }
          shiftLoop t fuel next (t.nextSlot next)
        else shiftLoop t fuel hole (t.nextSlot next)
      else some t

def removeAt (t : Table) (hole : ℕ) : Option Table :=
  let t := { t.setSlot hole { t.slot hole with used := false } with
    count := t.count - 1 }
  t.shiftLoop hash t.slots.length hole (t.nextSlot hole)

def erase (t : Table) (key : UInt64) : Option Table := do
  let i ← t.probeFrom hash key
  if (t.slot i).used then t.removeAt hash i else some t

def contains (t : Table) (key : UInt64) : Option Bool := do
  let value ← t.find hash key
  return value != NPOS

end Operations

def size (t : Table) : ℕ := t.count

def empty (t : Table) : Bool := t.count == 0

/-- Drops all keys, retaining the capacity. -/
def clear (t : Table) : Table :=
  { t with slots := t.slots.map (fun s => { s with used := false }),
           count := 0 }

/-- The table of the constructor, `rehash(INITIAL_CAPACITY)` on no slots. -/
def fresh : Table :=
  { slots := List.replicate initialCapacity {}, count := 0,
    mask := initialCapacity - 1 }

/-! ## §2  Valid tables -/

/-- What slot `i` stores. -/
def content (t : Table) (i : ℕ) : Option (UInt64 × UInt32) :=
  if (t.slot i).used then some ((t.slot i).key, (t.slot i).value) else none

/-- The entry `(k, v)` is stored in some slot. -/
def Entry (t : Table) (k : UInt64) (v : UInt32) : Prop :=
  Holds t.slots.length t.content k v

/-- A power-of-two capacity, intact probe chains, an exact count. -/
structure Valid (hash : UInt64 → UInt64) (t : Table) : Prop where
  capacity : ∃ b, t.slots.length = 2 ^ b
  mask : t.mask = t.slots.length - 1
  chained : Chained t.slots.length (t.homeSlot hash) t.content
  count : t.count = t.slots.countP (·.used)

/-- The tables the class builds: valid, never smaller than the initial
capacity and below the load limit. -/
structure Sound (hash : UInt64 → UInt64) (t : Table) : Prop
    extends Valid hash t where
  atLeast : initialCapacity ≤ t.slots.length
  load : t.count * loadFactorDen < t.slots.length * loadFactorNum

variable {hash : UInt64 → UInt64} {t : Table}

/-- The mask of a power-of-two capacity reduces modulo the capacity. -/
theorem and_mask_eq_mod (hcapacity : ∃ b, t.slots.length = 2 ^ b)
    (hmask : t.mask = t.slots.length - 1) (x : ℕ) :
    x &&& t.mask = x % t.slots.length := by
  obtain ⟨b, hb⟩ := hcapacity
  rw [hmask, hb, Nat.and_two_pow_sub_one_eq_mod]

theorem homeSlot_lt (hcapacity : ∃ b, t.slots.length = 2 ^ b)
    (hmask : t.mask = t.slots.length - 1) (key : UInt64) :
    t.homeSlot hash key < t.slots.length := by
  rw [homeSlot, and_mask_eq_mod hcapacity hmask]
  apply Nat.mod_lt
  obtain ⟨b, hb⟩ := hcapacity
  rw [hb]
  positivity

theorem Valid.and_mask (h : t.Valid hash) (x : ℕ) :
    x &&& t.mask = x % t.slots.length := and_mask_eq_mod h.capacity h.mask x

theorem Valid.nextSlot_eq (h : t.Valid hash) (i : ℕ) :
    t.nextSlot i = (i + 1) % t.slots.length := h.and_mask _

theorem Valid.homeSlot_lt (h : t.Valid hash) (k : UInt64) :
    t.homeSlot hash k < t.slots.length :=
  Table.homeSlot_lt h.capacity h.mask k

/-- Doubling the capacity keeps below the load limit. -/
theorem load_doubled {count n : ℕ}
    (hload : count * loadFactorDen < n * loadFactorNum) :
    count * loadFactorDen < n * 2 * loadFactorNum :=
  hload.trans_le (Nat.mul_le_mul_right _
    (Nat.le_mul_of_pos_right _ Nat.two_pos))

/-! Reading a slot back after a write. -/

theorem slot_setSlot {i j : ℕ} (s : Slot) (hi : i < t.slots.length) :
    (t.setSlot i s).slot j = if j = i then s else t.slot j := by
  simp only [slot, setSlot, List.getD_eq_getElem?_getD, List.getElem?_set]
  by_cases h : j = i
  · subst h
    simp [hi]
  · rw [if_neg h, if_neg (Ne.symm h)]

theorem slot_ge {i : ℕ} (hi : t.slots.length ≤ i) : t.slot i = {} := by
  simp [slot, hi]

theorem getElem_slots {i : ℕ} (hi : i < t.slots.length) :
    t.slots[i] = t.slot i := by
  simp [slot, hi]

theorem slot_mem {i : ℕ} (hi : i < t.slots.length) : t.slot i ∈ t.slots := by
  rw [← getElem_slots hi]
  exact List.getElem_mem hi

@[simp] theorem length_setSlot (i : ℕ) (s : Slot) :
    (t.setSlot i s).slots.length = t.slots.length := by simp [setSlot]

theorem content_eq_none {i : ℕ} :
    t.content i = none ↔ (t.slot i).used = false := by
  unfold content
  split <;> simp_all

theorem content_eq_some {i : ℕ} {k : UInt64} {v : UInt32} :
    t.content i = some (k, v) ↔
      (t.slot i).used = true ∧ (t.slot i).key = k ∧ (t.slot i).value = v := by
  unfold content
  split <;> simp_all

theorem content_setSlot_used (t : Table) {i : ℕ} (s : Slot) (hi : i < t.slots.length)
    (hs : s.used = true) :
    (t.setSlot i s).content =
      Function.update t.content i (some (s.key, s.value)) := by
  funext j
  unfold content
  rw [slot_setSlot s hi]
  by_cases h : j = i
  · simp [h, hs]
  · rw [if_neg h, Function.update_of_ne h]

theorem content_setSlot_unused (t : Table) {i : ℕ} (s : Slot) (hi : i < t.slots.length)
    (hs : s.used = false) :
    (t.setSlot i s).content = Function.update t.content i none := by
  funext j
  unfold content
  rw [slot_setSlot s hi]
  by_cases h : j = i
  · simp [h, hs]
  · rw [if_neg h, Function.update_of_ne h]

/-- Writing a slot changes the number of used slots by that slot alone. -/
theorem countP_setSlot (t : Table) {i : ℕ} (s : Slot) (hi : i < t.slots.length) :
    (t.setSlot i s).slots.countP (·.used) + (t.slot i).used.toNat =
      t.slots.countP (·.used) + s.used.toNat := by
  have hle : (t.slot i).used.toNat ≤ t.slots.countP (·.used) := by
    cases hu : (t.slot i).used with
    | false => simp
    | true =>
        exact List.countP_pos_iff.mpr ⟨t.slot i, slot_mem hi, hu⟩
  rw [setSlot, List.countP_set hi, getElem_slots hi]
  cases hu : (t.slot i).used <;> cases s.used <;> simp_all

/-- Moving an entry into an unused slot keeps the number of used slots. -/
theorem countP_move {i j : ℕ} {s s' : Slot} (hi : i < t.slots.length)
    (hj : j < t.slots.length) (hij : j ≠ i) (hiu : (t.slot i).used = false)
    (hju : (t.slot j).used = true) (hs : s.used = true)
    (hs' : s'.used = false) :
    ((t.setSlot i s).setSlot j s').slots.countP (·.used) =
      t.slots.countP (·.used) := by
  have h₁ := countP_setSlot t s hi
  have h₂ := countP_setSlot (t.setSlot i s) s' (by simpa using hj)
  rw [slot_setSlot _ hi, if_neg hij, hju, hs'] at h₂
  rw [hiu, hs] at h₁
  simp only [Bool.toNat_true, Bool.toNat_false] at h₁ h₂
  omega

/-- An entry moves from slot `j` into the unused slot `i`. -/
theorem content_move {i j : ℕ} {s s' : Slot} (hi : i < t.slots.length)
    (hj : j < t.slots.length) (hs : s.used = true) (hs' : s'.used = false) :
    ((t.setSlot i s).setSlot j s').content =
      Function.update (Function.update t.content i (some (s.key, s.value)))
        j none := by
  rw [content_setSlot_unused _ _ (by simpa using hj) hs',
    content_setSlot_used _ _ hi hs]

theorem exists_unused (h : t.slots.countP (·.used) < t.slots.length) :
    ∃ u < t.slots.length, t.content u = none := by
  rw [List.countP_lt_length_iff] at h
  obtain ⟨s, hs, hu⟩ := h
  obtain ⟨i, hi, rfl⟩ := List.mem_iff_getElem.mp hs
  refine ⟨i, hi, content_eq_none.mpr ?_⟩
  rw [← getElem_slots hi]
  simpa using hu

/-- The load limit leaves a slot unused. -/
theorem Valid.exists_unused (h : t.Valid hash)
    (hload : t.count * loadFactorDen < t.slots.length * loadFactorNum) :
    ∃ u < t.slots.length, t.content u = none := by
  apply Table.exists_unused
  rw [← h.count]
  simp only [loadFactorDen, loadFactorNum] at hload
  omega

theorem Sound.exists_unused (h : t.Sound hash) :
    ∃ u < t.slots.length, t.content u = none := h.toValid.exists_unused h.load

/-- Room for one more key is room for the keys there are. -/
theorem load_of_room {count bound : ℕ}
    (hroom : (count + 1) * loadFactorDen < bound) :
    count * loadFactorDen < bound :=
  lt_of_le_of_lt (Nat.mul_le_mul_right _ (Nat.le_succ count)) hroom

/-- Tables with the same members apart from the count are valid together. -/
theorem Valid.with_count {t' : Table} (h : t.Valid hash)
    (hlen : t'.slots.length = t.slots.length) (hmask : t'.mask = t.mask)
    (hch : Chained t.slots.length (t.homeSlot hash) t'.content)
    (hcount : t'.count = t'.slots.countP (·.used)) : t'.Valid hash where
  capacity := hlen ▸ h.capacity
  mask := by rw [hmask, hlen, h.mask]
  chained := by
    have : t'.homeSlot hash = t.homeSlot hash := by
      funext k
      simp [homeSlot, hmask]
    rw [this, hlen]
    exact hch
  count := hcount

/-! ## §3  The probe loop -/

/-- From any point of a walk, the loop stops: at the key, or at the unused
slot that shows its absence. -/
theorem probe_spec (hv : t.Valid hash) {u : ℕ} (hu : u < t.slots.length)
    (hTu : t.content u = none) {key : UInt64} :
    ∀ {fuel i : ℕ},
      Searched t.slots.length (t.homeSlot hash) t.content key i →
      t.slots.length ≤ fuel + steps t.slots.length (t.homeSlot hash key) i →
      ∃ j, t.probe key fuel i = some j ∧
        Searched t.slots.length (t.homeSlot hash) t.content key j ∧
        (t.content j = none ∨ ∃ v, t.content j = some (key, v)) := by
  intro fuel
  induction fuel with
  | zero =>
      intro i hs hf
      have := steps_lt (hv.homeSlot_lt key) hs.inRange
      omega
  | succ fuel ih =>
      intro i hs hf
      unfold probe
      by_cases hused : (t.slot i).used = true
      · rw [if_pos hused]
        by_cases hkey : (t.slot i).key = key
        · rw [if_pos hkey]
          exact ⟨i, rfl, hs, Or.inr ⟨(t.slot i).value,
            content_eq_some.mpr ⟨hused, hkey, rfl⟩⟩⟩
        · rw [if_neg hkey, hv.nextSlot_eq]
          obtain ⟨hs', hd⟩ := searched_step (hv.homeSlot_lt key) hs hu hTu
            (content_eq_some.mpr ⟨hused, rfl, rfl⟩) hkey
          exact ih hs' (by omega)
      · rw [if_neg hused]
        exact ⟨i, rfl, hs, Or.inl (content_eq_none.mpr (by simpa using hused))⟩

theorem probeFrom_spec (hv : t.Valid hash) {u : ℕ} (hu : u < t.slots.length)
    (hTu : t.content u = none) (key : UInt64) :
    ∃ j, t.probeFrom hash key = some j ∧
      Searched t.slots.length (t.homeSlot hash) t.content key j ∧
      (t.content j = none ∨ ∃ v, t.content j = some (key, v)) :=
  probe_spec hv hu hTu (searched_home (hv.homeSlot_lt key)) (by omega)

/-- `find` returns, with the stored value or with `NPOS`. -/
theorem find_spec (hv : t.Valid hash) {u : ℕ} (hu : u < t.slots.length)
    (hTu : t.content u = none) (key : UInt64) :
    (∃ v, t.find hash key = some v ∧ t.Entry key v) ∨
      (t.find hash key = some NPOS ∧ ∀ v, ¬ t.Entry key v) := by
  obtain ⟨j, hj, hs, hnone | ⟨v, hv'⟩⟩ := probeFrom_spec hv hu hTu key
  · right
    refine ⟨?_, searched_absent (hv.homeSlot_lt key) hv.chained hs hnone⟩
    simp [find, hj, content_eq_none.mp hnone]
  · left
    obtain ⟨hused, _, hval⟩ := content_eq_some.mp hv'
    exact ⟨v, by simp [find, hj, hused, hval], j, hs.inRange, hv'⟩

/-! ## §4  `insert` and `rehash` -/

/-- The table after `(key, value)` was written to slot `i`. -/
def stored (t : Table) (i : ℕ) (key : UInt64) (value : UInt32) : Table :=
  { t.setSlot i ⟨key, value, true⟩ with
    count := t.count + (!(t.slot i).used).toNat }

@[simp] theorem length_stored (t : Table) (i : ℕ) (key : UInt64)
    (value : UInt32) :
    (t.stored i key value).slots.length = t.slots.length := by simp [stored]

theorem content_stored (t : Table) {i : ℕ} (hi : i < t.slots.length)
    (key : UInt64) (value : UInt32) : (t.stored i key value).content =
      Function.update t.content i (some (key, value)) :=
  content_setSlot_used t ⟨key, value, true⟩ hi rfl

theorem countP_stored (t : Table) {i : ℕ} (hi : i < t.slots.length)
    (key : UInt64) (value : UInt32) :
    (t.stored i key value).slots.countP (·.used) =
      t.slots.countP (·.used) + (!(t.slot i).used).toNat := by
  have h := countP_setSlot t ⟨key, value, true⟩ hi
  show (t.setSlot i ⟨key, value, true⟩).slots.countP (·.used) = _
  cases hused : (t.slot i).used <;> rw [hused] at h <;> simpa using h

/-- Whether the key is new or not, the slot where its walk stops is written. -/
theorem place_eq_stored {j : ℕ} {key : UInt64} (value : UInt32)
    (hj : t.probeFrom hash key = some j)
    (hstop : t.content j = none ∨ ∃ v, t.content j = some (key, v)) :
    t.place hash key value = some (t.stored j key value) := by
  rw [place, hj, Option.bind_eq_bind, Option.bind_some]
  rcases hstop with hnone | ⟨v, hv⟩
  · have hunused := content_eq_none.mp hnone
    simp [stored, hunused]
  · obtain ⟨hused, hkey, -⟩ := content_eq_some.mp hv
    simp [stored, hused, hkey]
    rfl

/-- Storing a key in a table with an unused slot. -/
theorem place_spec (hv : t.Valid hash) {u : ℕ} (hu : u < t.slots.length)
    (hTu : t.content u = none) (key : UInt64) (value : UInt32) :
    ∃ t', t.place hash key value = some t' ∧ t'.Valid hash ∧
      t'.slots.length = t.slots.length ∧
      (∀ k v, t'.Entry k v ↔ if k = key then v = value else t.Entry k v) ∧
      ((∀ v, ¬ t.Entry key v) → t'.count = t.count + 1) ∧
      ((∃ v, t.Entry key v) → t'.count = t.count) := by
  obtain ⟨j, hj, hs, hstop⟩ := probeFrom_spec hv hu hTu key
  have hcontent := content_stored t hs.inRange key value
  refine ⟨t.stored j key value, place_eq_stored value hj hstop,
    hv.with_count (by simp) rfl ?_ ?_, by simp, ?_, ?_, ?_⟩
  · rw [hcontent]
    exact chained_write (hv.homeSlot_lt key) hv.chained hs hstop
  · rw [countP_stored t hs.inRange, ← hv.count]
    rfl
  · intro k v
    rw [Entry, hcontent, length_stored]
    exact holds_write (hv.homeSlot_lt key) hv.chained hs hstop k v
  · intro habs
    rcases hstop with hnone | ⟨v, hv'⟩
    · rw [stored, content_eq_none.mp hnone]
      rfl
    · exact absurd ⟨j, hs.inRange, hv'⟩ (habs v)
  · rintro ⟨v, hentry⟩
    rcases hstop with hnone | ⟨v', hv'⟩
    · exact absurd hentry
        (searched_absent (hv.homeSlot_lt key) hv.chained hs hnone v)
    · rw [stored, (content_eq_some.mp hv').1]
      rfl

/-- A table of unused slots. -/
theorem valid_replicate (hash : UInt64 → UInt64) (t : Table) (b : ℕ)
    (hslots : ∀ s ∈ t.slots, s.used = false) (hlen : t.slots.length = 2 ^ b)
    (hmask : t.mask = t.slots.length - 1) (hcount : t.count = 0) :
    t.Valid hash ∧ ∀ k v, ¬ t.Entry k v := by
  have hcontent : t.content = fun _ => none := by
    funext i
    apply content_eq_none.mpr
    by_cases hi : i < t.slots.length
    · exact hslots _ (slot_mem hi)
    · rw [slot_ge (by omega)]
  refine ⟨⟨⟨b, hlen⟩, hmask, hcontent ▸ chained_empty, ?_⟩, ?_⟩
  · rw [hcount, eq_comm, List.countP_eq_zero]
    intro s hs
    simp [hslots s hs]
  · intro k v
    rw [Entry, hcontent]
    exact not_holds_empty k v

/-- The used slots of a valid table hold pairwise different keys. -/
theorem Valid.keys_distinct (hv : t.Valid hash) :
    t.slots.Pairwise (fun a b => a.used → b.used → a.key ≠ b.key) := by
  rw [List.pairwise_iff_getElem]
  intro i j hi hj hij hui huj heq
  rw [getElem_slots hi, getElem_slots hj] at *
  have := hv.chained.inj i hi j hj (t.slot i).key (t.slot i).value
    (t.slot j).value (content_eq_some.mpr ⟨hui, rfl, rfl⟩)
    (content_eq_some.mpr ⟨huj, heq.symm, rfl⟩)
  omega

theorem entry_iff_mem (k : UInt64) (v : UInt32) :
    t.Entry k v ↔
      ∃ s ∈ t.slots, s.used = true ∧ s.key = k ∧ s.value = v := by
  constructor
  · rintro ⟨i, hi, h⟩
    exact ⟨t.slot i, slot_mem hi, content_eq_some.mp h⟩
  · rintro ⟨s, hs, h⟩
    obtain ⟨i, hi, rfl⟩ := List.mem_iff_getElem.mp hs
    refine ⟨i, hi, content_eq_some.mpr ?_⟩
    rwa [← getElem_slots hi]

/-- Below the load limit the growth check fails, and `insert` only places. -/
theorem insertDepth_eq_place (hash : UInt64 → UInt64) (depth : ℕ)
    (hroom : (t.count + 1) * loadFactorDen < t.slots.length * loadFactorNum)
    (key : UInt64) (value : UInt32) :
    insertDepth hash (depth + 1) t key value = t.place hash key value := by
  rw [insertDepth, reserve, if_neg (not_le.mpr hroom)]
  rfl

/-- Below the load limit a new key lands without a growth step. -/
theorem insertDepth_room (depth : ℕ) (hv : t.Valid hash) {key : UInt64}
    (value : UInt32) (hnew : ∀ v, ¬ t.Entry key v)
    (hroom : (t.count + 1) * loadFactorDen <
      t.slots.length * loadFactorNum) :
    ∃ t', insertDepth hash (depth + 1) t key value = some t' ∧
      t'.Valid hash ∧ t'.slots.length = t.slots.length ∧
      t'.count = t.count + 1 ∧
      ∀ k v, t'.Entry k v ↔ t.Entry k v ∨ (key = k ∧ value = v) := by
  obtain ⟨u, hu, hTu⟩ := hv.exists_unused (load_of_room hroom)
  obtain ⟨t', hplace, hv', hlen, hentries, hcount, -⟩ :=
    place_spec hv hu hTu key value
  refine ⟨t', ?_, hv', hlen, hcount hnew, ?_⟩
  · rw [insertDepth_eq_place hash depth hroom]
    exact hplace
  · intro k v
    rw [hentries k v]
    by_cases hk : k = key
    · subst hk
      rw [if_pos rfl, or_iff_right (hnew v), eq_comm]
      exact (and_iff_right rfl).symm
    · rw [if_neg hk]
      exact (or_iff_left fun h => hk h.1.symm).symm

/-- Putting back one slot of the old table, which may be unused. -/
theorem putBack_spec (depth : ℕ) (hv : t.Valid hash) {s : Slot}
    (hnew : s.used = true → ∀ v, ¬ t.Entry s.key v)
    (hroom : (t.count + s.used.toNat) * loadFactorDen <
      t.slots.length * loadFactorNum) :
    ∃ t', (if s.used then insertDepth hash (depth + 1) t s.key s.value
        else some t) = some t' ∧
      t'.Valid hash ∧ t'.slots.length = t.slots.length ∧
      t'.count = t.count + s.used.toNat ∧
      ∀ k v, t'.Entry k v ↔
        t.Entry k v ∨ (s.used = true ∧ s.key = k ∧ s.value = v) := by
  cases hused : s.used with
  | true =>
      rw [hused] at hroom
      obtain ⟨t', h, hv', hlen', hcnt', hent'⟩ :=
        insertDepth_room depth hv s.value (hnew hused) hroom
      refine ⟨t', h, hv', hlen', hcnt', ?_⟩
      intro k v
      rw [hent' k v, and_iff_right rfl]
  | false =>
      refine ⟨t, rfl, hv, rfl, rfl, ?_⟩
      intro k v
      simp

/-- Putting back a list of slots with new, pairwise different keys: every one
lands without a growth step as long as the whole list fits the load limit. -/
theorem reinsert_spec (depth : ℕ) : ∀ {ls : List Slot} {t : Table},
    t.Valid hash → ls.Pairwise (fun a b => a.used → b.used → a.key ≠ b.key) →
    (∀ s ∈ ls, s.used = true → ∀ v, ¬ t.Entry s.key v) →
    (t.count + ls.countP (·.used)) * loadFactorDen <
      t.slots.length * loadFactorNum →
    ∃ t', ls.foldlM (fun t s => if s.used then
        insertDepth hash (depth + 1) t s.key s.value else some t) t =
        some t' ∧ t'.Valid hash ∧ t'.slots.length = t.slots.length ∧
      t'.count = t.count + ls.countP (·.used) ∧
      ∀ k v, t'.Entry k v ↔ t.Entry k v ∨
        ∃ s ∈ ls, s.used = true ∧ s.key = k ∧ s.value = v := by
  intro ls
  induction ls with
  | nil =>
      intro t hv _ _ _
      exact ⟨t, rfl, hv, rfl, rfl, by simp⟩
  | cons s ls ih =>
      intro t hv hdist hnew hroom
      obtain ⟨hs, hls⟩ := List.pairwise_cons.mp hdist
      have hcons : (s :: ls).countP (·.used) =
          s.used.toNat + ls.countP (·.used) := by
        cases hused : s.used <;> simp [hused, Nat.add_comm]
      rw [hcons, ← Nat.add_assoc] at hroom
      have hone : (t.count + s.used.toNat) * loadFactorDen <
          t.slots.length * loadFactorNum :=
        lt_of_le_of_lt (Nat.mul_le_mul_right _ (Nat.le_add_right _ _)) hroom
      obtain ⟨t₁, hput, hv₁, hlen₁, hcnt₁, hent₁⟩ :=
        putBack_spec depth hv (hnew s List.mem_cons_self) hone
      have hnew₁ : ∀ s' ∈ ls, s'.used = true → ∀ v, ¬ t₁.Entry s'.key v := by
        intro s' hs' hused' v h
        rcases (hent₁ _ v).mp h with h | ⟨hused, hkey, -⟩
        · exact hnew s' (List.mem_cons_of_mem _ hs') hused' v h
        · exact hs s' hs' hused hused' hkey
      rw [← hcnt₁, ← hlen₁] at hroom
      obtain ⟨t', hfold, hv', hlen', hcnt', hent'⟩ := ih hv₁ hls hnew₁ hroom
      refine ⟨t', ?_, hv', hlen'.trans hlen₁, ?_, ?_⟩
      · rw [List.foldlM_cons, hput]
        exact hfold
      · rw [hcnt', hcnt₁, hcons, Nat.add_assoc]
      · intro k v
        rw [hent' k v, hent₁ k v, or_assoc]
        simp only [List.mem_cons, exists_eq_or_imp]

/-- A growth step that has put back the slots `done`, the first ones of the
old table. -/
theorem refill_spec (depth : ℕ) (hs : t.Sound hash) {done : List Slot}
    (hdone : done <+: t.slots) :
    ∃ t', rehash (insertDepth hash (depth + 1)) { t with slots := done }
        (t.slots.length * 2) = some t' ∧ t'.Valid hash ∧
      t'.slots.length = t.slots.length * 2 ∧
      t'.count = done.countP (·.used) ∧
      ∀ k v, t'.Entry k v ↔
        ∃ s ∈ done, s.used = true ∧ s.key = k ∧ s.value = v := by
  obtain ⟨b, hb⟩ := hs.capacity
  obtain ⟨hv₀, hno⟩ := valid_replicate hash
    { slots := List.replicate (t.slots.length * 2) {}, count := 0,
      mask := t.slots.length * 2 - 1 } (b + 1)
    (by
      intro s hs
      rw [(List.mem_replicate.mp hs).2])
    (by simp [hb, pow_succ]) (by simp) rfl
  have hroom : (0 + done.countP (·.used)) * loadFactorDen <
      (List.replicate (t.slots.length * 2) ({} : Slot)).length *
        loadFactorNum := by
    have hload := hs.load
    have hle : done.countP (·.used) ≤ t.count := by
      rw [hs.count]
      exact hdone.sublist.countP_le
    simp only [loadFactorDen, loadFactorNum, List.length_replicate] at hload ⊢
    omega
  obtain ⟨t', hfold, hv', hlen', hcnt', hent'⟩ :=
    reinsert_spec depth hv₀ (hs.keys_distinct.sublist hdone.sublist)
      (fun _ _ _ v => hno _ v) hroom
  refine ⟨t', hfold, hv', by simpa using hlen', by simpa using hcnt', ?_⟩
  intro k v
  rw [hent' k v, or_iff_right (hno k v)]

/-- Doubling keeps every entry. -/
theorem rehash_spec (depth : ℕ) (hs : t.Sound hash) :
    ∃ t', rehash (insertDepth hash (depth + 1)) t (t.slots.length * 2) =
        some t' ∧ t'.Valid hash ∧
      t'.slots.length = t.slots.length * 2 ∧ t'.count = t.count ∧
      ∀ k v, t'.Entry k v ↔ t.Entry k v := by
  obtain ⟨t', h, hv', hlen', hcnt', hent'⟩ :=
    refill_spec depth hs (List.prefix_refl t.slots)
  refine ⟨t', h, hv', hlen', hcnt'.trans hs.count.symm, ?_⟩
  intro k v
  rw [hent' k v, entry_iff_mem]

/-- After the growth check there is room for one more key. -/
theorem reserve_spec (depth : ℕ) (hs : t.Sound hash) :
    ∃ t', reserve (insertDepth hash (depth + 1)) t = some t' ∧
      t'.Valid hash ∧ initialCapacity ≤ t'.slots.length ∧
      (t.count + 1) * loadFactorDen < t'.slots.length * loadFactorNum ∧
      t'.count = t.count ∧ ∀ k v, t'.Entry k v ↔ t.Entry k v := by
  have hmin := hs.atLeast
  have hload := hs.load
  unfold reserve
  by_cases hfull : (t.count + 1) * loadFactorDen ≥
      t.slots.length * loadFactorNum
  · rw [if_pos hfull]
    obtain ⟨t', h, hv, hlen, hcnt, hent⟩ := rehash_spec depth hs
    refine ⟨t', h, hv, by omega, ?_, hcnt, hent⟩
    simp only [initialCapacity, loadFactorDen, loadFactorNum, hlen] at *
    omega
  · rw [if_neg hfull]
    exact ⟨t, rfl, hs.toValid, hmin, not_le.mp hfull, rfl, fun _ _ => Iff.rfl⟩

/-- `insert` returns a sound table that differs in the entry of `key` only. -/
theorem insert_spec (hs : t.Sound hash) (key : UInt64) (value : UInt32) :
    ∃ t', t.insert hash key value = some t' ∧ t'.Sound hash ∧
      (∀ k v, t'.Entry k v ↔ if k = key then v = value else t.Entry k v) ∧
      ((∀ v, ¬ t.Entry key v) → t'.count = t.count + 1) ∧
      ((∃ v, t.Entry key v) → t'.count = t.count) := by
  obtain ⟨t₁, hgrow, hv₁, hmin, hroom, hcnt₁, hent₁⟩ := reserve_spec 0 hs
  rw [← hcnt₁] at hroom
  obtain ⟨u, hu, hTu⟩ := hv₁.exists_unused (load_of_room hroom)
  obtain ⟨t', hplace, hv', hlen', hent', habs', hpres'⟩ :=
    place_spec hv₁ hu hTu key value
  have hload' : t'.count * loadFactorDen <
      t'.slots.length * loadFactorNum := by
    have hle : t'.count ≤ t₁.count + 1 := by
      by_cases h : ∃ v, t₁.Entry key v
      · have := hpres' h
        omega
      · have := habs' (fun v hv => h ⟨v, hv⟩)
        omega
    rw [hlen']
    exact lt_of_le_of_lt (Nat.mul_le_mul_right _ hle) hroom
  refine ⟨t', ?_, ⟨hv', by omega, hload'⟩, fun k v => ?_, fun h => ?_,
    fun h => ?_⟩
  · rw [insert, insertDepth, hgrow, Option.bind_eq_bind, Option.bind_some]
    exact hplace
  · rw [hent' k v]
    split
    · exact Iff.rfl
    · exact hent₁ k v
  · rw [habs' (fun v hv => h v ((hent₁ key v).mp hv)), hcnt₁]
  · obtain ⟨v, hv⟩ := h
    rw [hpres' ⟨v, (hent₁ key v).mpr hv⟩, hcnt₁]

/-! ## §5  `remove_at`, `erase` and `clear` -/

/-- The shift condition of the source says that the walk of the entry comes
through the hole. -/
theorem movable_iff {n hole next home : ℕ} (hh : hole < n) (hn : next < n)
    (hhome : home < n) (hne : hole ≠ next) :
    (if hole ≤ next then decide (home ≤ hole) || decide (home > next)
      else decide (home ≤ hole) && decide (home > next)) = true ↔
      steps n home hole < steps n home next := by
  unfold steps
  split_ifs <;> simp only [Bool.or_eq_true, Bool.and_eq_true,
    decide_eq_true_eq] <;> omega

/-- The shifting loop is at `next` with the hole behind it. The unused slot `u`,
which is not the hole, lies ahead and stops it. -/
structure Shifting (hash : UInt64 → UInt64) (t : Table) (hole next u : ℕ) :
    Prop where
  capacity : ∃ b, t.slots.length = 2 ^ b
  mask : t.mask = t.slots.length - 1
  count : t.count = t.slots.countP (·.used)
  gap : Gap t.slots.length (t.homeSlot hash) t.content hole next
  next_ne : next ≠ hole
  stop_lt : u < t.slots.length
  stop : t.content u = none
  stop_ne : u ≠ hole
  ahead : steps t.slots.length hole next ≤ steps t.slots.length hole u

namespace Shifting

variable {hole next u : ℕ}

theorem and_mask (h : Shifting hash t hole next u) (x : ℕ) :
    x &&& t.mask = x % t.slots.length := and_mask_eq_mod h.capacity h.mask x

theorem homeSlot_lt (h : Shifting hash t hole next u) (k : UInt64) :
    t.homeSlot hash k < t.slots.length :=
  Table.homeSlot_lt h.capacity h.mask k

theorem ne_stop (h : Shifting hash t hole next u)
    (hused : (t.slot next).used = true) : next ≠ u := by
  rintro rfl
  rw [content_eq_none.mp h.stop] at hused
  cases hused

/-- The loop comes closer to the slot that stops it. -/
theorem nearer (h : Shifting hash t hole next u)
    (hused : (t.slot next).used = true) :
    steps t.slots.length (t.nextSlot next) u <
      steps t.slots.length next u := by
  rw [nextSlot, h.and_mask,
    ← steps_from_succ h.gap.next_lt h.stop_lt (h.ne_stop hused)]
  exact Nat.lt_succ_self _

end Shifting

/-- The table after the entry at `next` has moved into the hole. -/
def moved (t : Table) (hole next : ℕ) : Table :=
  let t := t.setSlot hole (t.slot next)
  t.setSlot next { t.slot next with used := false }

@[simp] theorem length_moved (t : Table) (hole next : ℕ) :
    (t.moved hole next).slots.length = t.slots.length := by simp [moved]

namespace Shifting

variable {hole next u : ℕ}

theorem content_moved (h : Shifting hash t hole next u)
    (hused : (t.slot next).used = true) :
    (t.moved hole next).content = Function.update (Function.update t.content
      hole (some ((t.slot next).key, (t.slot next).value))) next none :=
  content_move h.gap.hole_lt h.gap.next_lt hused rfl

/-- The entry at `next` moves into the hole, which leaves a hole there. -/
theorem move (h : Shifting hash t hole next u)
    (hused : (t.slot next).used = true)
    (hmove : steps t.slots.length (t.homeSlot hash (t.slot next).key) hole <
      steps t.slots.length (t.homeSlot hash (t.slot next).key) next) :
    Shifting hash (t.moved hole next) next ((t.moved hole next).nextSlot next)
        u ∧
      ∀ k v, (t.moved hole next).Entry k v ↔ t.Entry k v := by
  have hT : t.content next = some ((t.slot next).key, (t.slot next).value) :=
    content_eq_some.mpr ⟨hused, rfl, rfl⟩
  have hnext : (t.moved hole next).nextSlot next =
      (next + 1) % t.slots.length := h.and_mask _
  have hne := (h.ne_stop hused).symm
  have hwrap := succ_mod_ne h.gap.next_lt h.stop_lt hne
  have hlen := length_moved t hole next
  have hcontent := h.content_moved hused
  rw [hnext]
  constructor
  · refine ⟨?_, ?_, ?_, ?_, hwrap, ?_, ?_, hne, ?_⟩
    · rw [hlen]
      exact h.capacity
    · rw [hlen]
      exact h.mask
    · show t.count = (t.moved hole next).slots.countP (·.used)
      rw [moved, countP_move h.gap.hole_lt h.gap.next_lt h.next_ne
        (content_eq_none.mp h.gap.unused) hused hused rfl]
      exact h.count
    · rw [hlen, hcontent]
      exact gap_shift h.gap hT hmove
    · rw [hlen]
      exact h.stop_lt
    · rw [hcontent, Function.update_of_ne hne,
        Function.update_of_ne h.stop_ne]
      exact h.stop
    · rw [hlen]
      exact steps_succ_le h.gap.next_lt h.stop_lt hne
  · intro k v
    rw [Entry, hlen, hcontent]
    exact holds_shift h.gap hT k v

/-- The entry at `next` stays: its walk does not come through the hole. -/
theorem stay (h : Shifting hash t hole next u)
    (hused : (t.slot next).used = true)
    (hstay : ¬ steps t.slots.length (t.homeSlot hash (t.slot next).key) hole <
      steps t.slots.length (t.homeSlot hash (t.slot next).key) next) :
    Shifting hash t hole (t.nextSlot next) u := by
  have hT : t.content next = some ((t.slot next).key, (t.slot next).value) :=
    content_eq_some.mpr ⟨hused, rfl, rfl⟩
  have hnext : t.nextSlot next = (next + 1) % t.slots.length := h.and_mask _
  have hhole : (next + 1) % t.slots.length ≠ hole := by
    intro he
    rw [succ_mod_eq h.gap.next_lt] at he
    have hlt' := h.gap.next_lt
    have hahead := h.ahead
    have hstop := h.stop_lt
    have hne := h.ne_stop hused
    unfold steps at hahead
    split_ifs at he hahead <;> omega
  rw [hnext]
  refine ⟨h.capacity, h.mask, h.count, gap_skip h.gap hT hhole hstay, hhole,
    h.stop_lt, h.stop, h.stop_ne, ?_⟩
  rw [steps_succ h.gap.hole_lt h.gap.next_lt hhole]
  refine Nat.succ_le_of_lt (lt_of_le_of_ne h.ahead fun he => ?_)
  exact h.ne_stop hused
    (steps_inj h.gap.hole_lt h.gap.next_lt h.stop_lt he)

/-- An unused slot closes the gap. -/
theorem close (h : Shifting hash t hole next u)
    (hunused : (t.slot next).used = false) : t.Valid hash :=
  ⟨h.capacity, h.mask, gap_close h.homeSlot_lt h.gap
    (content_eq_none.mpr hunused) h.next_ne, h.count⟩

end Shifting

/-- The shifting loop stops, closes the gap and keeps what is stored. -/
theorem shiftLoop_spec {fuel hole next u : ℕ}
    (h : Shifting hash t hole next u)
    (hfuel : steps t.slots.length next u < fuel) :
    ∃ t', t.shiftLoop hash fuel hole next = some t' ∧ t'.Valid hash ∧
      t'.slots.length = t.slots.length ∧ t'.count = t.count ∧
      ∀ k v, t'.Entry k v ↔ t.Entry k v := by
  induction fuel generalizing t hole next with
  | zero => cases hfuel
  | succ fuel ih =>
      unfold shiftLoop
      cases hused : (t.slot next).used with
      | true =>
          have hnear : steps t.slots.length (t.nextSlot next) u < fuel :=
            lt_of_lt_of_le (h.nearer hused) (Nat.le_of_lt_succ hfuel)
          rw [if_pos rfl]
          simp only [movable_iff h.gap.hole_lt h.gap.next_lt (h.homeSlot_lt _)
            h.next_ne.symm]
          by_cases hmove : steps t.slots.length
              (t.homeSlot hash (t.slot next).key) hole <
              steps t.slots.length (t.homeSlot hash (t.slot next).key) next
          · rw [if_pos hmove]
            obtain ⟨hmoved, hentries⟩ := h.move hused hmove
            rw [← length_moved t hole next] at hnear
            obtain ⟨t', hloop, hvalid, hlen, hcount, hent⟩ := ih hmoved hnear
            refine ⟨t', hloop, hvalid, hlen.trans (length_moved t hole next),
              hcount, ?_⟩
            intro k v
            exact (hent k v).trans (hentries k v)
          · rw [if_neg hmove]
            exact ih (h.stay hused hmove) hnear
      | false =>
          rw [if_neg Bool.false_ne_true]
          exact ⟨t, rfl, h.close hused, rfl, rfl, fun _ _ => Iff.rfl⟩

/-- The table as `remove_at` hands it to the shifting loop. -/
def emptied (t : Table) (h : ℕ) : Table :=
  { t.setSlot h { t.slot h with used := false } with count := t.count - 1 }

@[simp] theorem length_emptied (t : Table) (h : ℕ) :
    (t.emptied h).slots.length = t.slots.length := by simp [emptied]

section Emptied

variable {h : ℕ} (hh : h < t.slots.length)

include hh

theorem content_emptied :
    (t.emptied h).content = Function.update t.content h none :=
  content_setSlot_unused t { t.slot h with used := false } hh rfl

theorem countP_emptied (hused : (t.slot h).used = true) :
    (t.emptied h).slots.countP (·.used) + 1 = t.slots.countP (·.used) := by
  have hcount := countP_setSlot t { t.slot h with used := false } hh
  rw [hused] at hcount
  exact hcount

/-- The loop starts behind the emptied slot. -/
theorem Valid.shifting_emptied (hv : t.Valid hash) {u : ℕ}
    (hu : u < t.slots.length) (hTu : t.content u = none)
    (hused : (t.slot h).used = true) :
    Shifting hash (t.emptied h) h ((t.emptied h).nextSlot h) u := by
  have huh : u ≠ h := by
    rintro rfl
    rw [content_eq_none.mp hTu] at hused
    cases hused
  have hnext : (t.emptied h).nextSlot h = (h + 1) % t.slots.length :=
    hv.nextSlot_eq h
  have hlen := length_emptied t h
  have hcontent := content_emptied hh
  rw [hnext]
  refine ⟨hlen ▸ hv.capacity, hlen ▸ hv.mask, ?_, ?_,
    succ_mod_ne hh hu huh, hlen ▸ hu, ?_, huh, ?_⟩
  · show t.count - 1 = _
    rw [hv.count, ← countP_emptied hh hused, Nat.add_sub_cancel]
  · rw [hlen, hcontent]
    exact gap_open hv.chained hh
  · rw [hcontent, Function.update_of_ne huh]
    exact hTu
  · rw [hlen]
    exact steps_succ_le hh hu huh

end Emptied

/-- `remove_at` returns a valid table without the entry at `h`. -/
theorem removeAt_spec (hv : t.Valid hash) {u h : ℕ}
    (hu : u < t.slots.length) (hTu : t.content u = none)
    (hh : h < t.slots.length) {k₀ : UInt64} {v₀ : UInt32}
    (hT : t.content h = some (k₀, v₀)) :
    ∃ t', t.removeAt hash h = some t' ∧ t'.Valid hash ∧
      t'.slots.length = t.slots.length ∧ t'.count + 1 = t.count ∧
      ∀ k v, t'.Entry k v ↔ k ≠ k₀ ∧ t.Entry k v := by
  have hused := (content_eq_some.mp hT).1
  have hshifting := hv.shifting_emptied hh hu hTu hused
  have hcount : (t.emptied h).count + 1 = t.count := by
    rw [hshifting.count, countP_emptied hh hused, hv.count]
  obtain ⟨t', hloop, hv', hlen, hcnt, hent⟩ := shiftLoop_spec hshifting
    (steps_lt hshifting.gap.next_lt hshifting.stop_lt)
  refine ⟨t', hloop, hv', hlen.trans (length_emptied t h), ?_, ?_⟩
  · rw [hcnt]
    exact hcount
  · intro k v
    rw [hent k v, Entry, length_emptied, content_emptied hh]
    exact holds_remove hv.chained hh hT k v

/-- `erase` returns a sound table without the entry of `key`. -/
theorem erase_spec (hs : t.Sound hash) (key : UInt64) :
    ∃ t', t.erase hash key = some t' ∧ t'.Sound hash ∧
      (∀ k v, t'.Entry k v ↔ k ≠ key ∧ t.Entry k v) ∧
      ((∀ v, ¬ t.Entry key v) → t'.count = t.count) ∧
      ((∃ v, t.Entry key v) → t'.count + 1 = t.count) := by
  obtain ⟨u, hu, hTu⟩ := hs.exists_unused
  obtain ⟨j, hj, hsr, hnone | ⟨v₀, hv₀⟩⟩ :=
    probeFrom_spec hs.toValid hu hTu key
  · have habs := searched_absent (hs.homeSlot_lt key) hs.chained hsr hnone
    refine ⟨t, by simp [erase, hj, content_eq_none.mp hnone], hs,
      fun k v => ?_, fun _ => rfl, fun ⟨v, h⟩ => absurd h (habs v)⟩
    constructor
    · intro h
      exact ⟨fun hk => habs v (hk ▸ h), h⟩
    · exact fun h => h.2
  · obtain ⟨t', hrem, hv', hlen', hcnt', hent'⟩ :=
      removeAt_spec hs.toValid hu hTu hsr.inRange hv₀
    refine ⟨t', by simp [erase, hj, (content_eq_some.mp hv₀).1, hrem],
      ⟨hv', by have := hs.atLeast; omega, ?_⟩, hent',
      fun h => absurd ⟨j, hsr.inRange, hv₀⟩ (h v₀), fun _ => hcnt'⟩
    have := hs.load
    simp only [loadFactorDen, loadFactorNum, hlen'] at this ⊢
    omega

theorem clear_spec (hs : t.Sound hash) :
    t.clear.Sound hash ∧ (∀ k v, ¬ t.clear.Entry k v) ∧
      t.clear.count = 0 := by
  obtain ⟨b, hb⟩ := hs.capacity
  obtain ⟨hv, hno⟩ := valid_replicate hash t.clear b
    (by
      intro s hs
      obtain ⟨s', _, rfl⟩ := List.mem_map.mp hs
      rfl)
    (by simp [clear, hb]) (by simp [clear, hs.mask]) rfl
  have := hs.atLeast
  refine ⟨⟨hv, by simpa [clear] using this, ?_⟩, hno, rfl⟩
  simp only [clear, List.length_map, loadFactorNum, initialCapacity] at *
  omega

theorem fresh_spec : fresh.Sound hash ∧ ∀ k v, ¬ fresh.Entry k v := by
  obtain ⟨hv, hno⟩ := valid_replicate hash fresh 10
    (by
      intro s hs
      rw [(List.mem_replicate.mp hs).2])
    (by rw [fresh, List.length_replicate]; rfl)
    (by rw [fresh, List.length_replicate]) rfl
  have hlen : fresh.slots.length = initialCapacity :=
    List.length_replicate ..
  refine ⟨⟨hv, hlen.ge, ?_⟩, hno⟩
  rw [hlen]
  decide

end Table

end Itch.Book
