import Itch.Book.OrderIndex
import Mathlib.Data.Finset.Card

/-!
# `OrderIndex` is a finite map

§1 packs a sound table into `OrderIndex`: every operation of the class
returns on such a table and yields another one, so on `OrderIndex` the
operations are total, and they obey the equations of a finite map.

§2 compares whole call sequences on the raw table with the history they
record: the value of a key is that of its most recent insert, unless an erase
or a clear came later.
-/

namespace Itch.Book

/-! ## §1  The map -/

/-- A table built by the class. -/
structure OrderIndex (hash : UInt64 → UInt64) where
  table : Table
  sound : table.Sound hash

namespace OrderIndex

variable {hash : UInt64 → UInt64}

theorem find_isSome (ix : OrderIndex hash) (key : UInt64) :
    (ix.table.find hash key).isSome := by
  obtain ⟨u, hu, hTu⟩ := ix.sound.exists_unused
  rcases Table.find_spec ix.sound.toValid hu hTu key with ⟨v, h, _⟩ | ⟨h, _⟩
  · simp [h]
  · simp [h]

theorem insert_isSome (ix : OrderIndex hash) (key : UInt64) (value : UInt32) :
    (ix.table.insert hash key value).isSome := by
  obtain ⟨t', h, _⟩ := Table.insert_spec ix.sound key value
  simp [h]

theorem erase_isSome (ix : OrderIndex hash) (key : UInt64) :
    (ix.table.erase hash key).isSome := by
  obtain ⟨t', h, _⟩ := Table.erase_spec ix.sound key
  simp [h]

/-- The default constructor. -/
def new : OrderIndex hash := ⟨Table.fresh, Table.fresh_spec.1⟩

def find (ix : OrderIndex hash) (key : UInt64) : UInt32 :=
  (ix.table.find hash key).get (ix.find_isSome key)

def contains (ix : OrderIndex hash) (key : UInt64) : Bool :=
  ix.find key != NPOS

def insert (ix : OrderIndex hash) (key : UInt64) (value : UInt32) :
    OrderIndex hash where
  table := (ix.table.insert hash key value).get (ix.insert_isSome key value)
  sound := by
    obtain ⟨t', h, hs, _⟩ := Table.insert_spec ix.sound key value
    simpa only [h, Option.get_some] using hs

def erase (ix : OrderIndex hash) (key : UInt64) : OrderIndex hash where
  table := (ix.table.erase hash key).get (ix.erase_isSome key)
  sound := by
    obtain ⟨t', h, hs, _⟩ := Table.erase_spec ix.sound key
    simpa only [h, Option.get_some] using hs

def clear (ix : OrderIndex hash) : OrderIndex hash :=
  ⟨ix.table.clear, (Table.clear_spec ix.sound).1⟩

def size (ix : OrderIndex hash) : ℕ := ix.table.size

def empty (ix : OrderIndex hash) : Bool := ix.table.empty

def Entry (ix : OrderIndex hash) (k : UInt64) (v : UInt32) : Prop :=
  ix.table.Entry k v

variable {ix : OrderIndex hash}

/-- `find` answers with the entry of the key, if there is one. -/
theorem find_cases (ix : OrderIndex hash) (key : UInt64) :
    ix.Entry key (ix.find key) ∨
      (ix.find key = NPOS ∧ ∀ v, ¬ ix.Entry key v) := by
  obtain ⟨u, hu, hTu⟩ := ix.sound.exists_unused
  rcases Table.find_spec ix.sound.toValid hu hTu key
    with ⟨v, h, he⟩ | ⟨h, he⟩
  · left
    have : ix.find key = v := by simp [find, h]
    rwa [this]
  · right
    exact ⟨by simp [find, h], he⟩

theorem find_of_entry {key : UInt64} {v : UInt32} (h : ix.Entry key v) :
    ix.find key = v := by
  rcases ix.find_cases key with h' | ⟨_, h'⟩
  · exact LinearProbing.holds_unique ix.sound.chained h' h
  · exact absurd h (h' v)

theorem find_of_not_entry {key : UInt64} (h : ∀ v, ¬ ix.Entry key v) :
    ix.find key = NPOS := by
  rcases ix.find_cases key with h' | ⟨h', _⟩
  · exact absurd h' (h _)
  · exact h'

/-- Maps with the same entries answer alike. -/
theorem find_congr {ix' : OrderIndex hash} {key key' : UInt64}
    (h : ∀ v, ix'.Entry key' v ↔ ix.Entry key v) :
    ix'.find key' = ix.find key := by
  rcases ix.find_cases key with he | ⟨he, hno⟩
  · exact find_of_entry ((h _).mpr he)
  · rw [he]
    exact find_of_not_entry fun v hv => hno v ((h v).mp hv)

theorem entry_insert (ix : OrderIndex hash) (key : UInt64) (value : UInt32)
    (k : UInt64) (v : UInt32) :
    (ix.insert key value).Entry k v ↔
      if k = key then v = value else ix.Entry k v := by
  obtain ⟨t', h, _, he, _⟩ := Table.insert_spec ix.sound key value
  have : (ix.insert key value).table = t' := by simp [insert, h]
  rw [Entry, this]
  exact he k v

theorem entry_erase (ix : OrderIndex hash) (key k : UInt64) (v : UInt32) :
    (ix.erase key).Entry k v ↔ k ≠ key ∧ ix.Entry k v := by
  obtain ⟨t', h, _, he, _⟩ := Table.erase_spec ix.sound key
  have : (ix.erase key).table = t' := by simp [erase, h]
  rw [Entry, this]
  exact he k v

@[simp] theorem find_new (key : UInt64) :
    (new : OrderIndex hash).find key = NPOS :=
  find_of_not_entry fun v => (@Table.fresh_spec hash).2 key v

theorem find_insert (ix : OrderIndex hash) (key : UInt64) (value : UInt32)
    (k : UInt64) :
    (ix.insert key value).find k = if k = key then value else ix.find k := by
  by_cases h : k = key
  · rw [if_pos h]
    exact find_of_entry ((entry_insert ..).mpr (by rw [if_pos h]))
  · rw [if_neg h]
    exact find_congr fun v => by rw [entry_insert, if_neg h]

theorem find_erase (ix : OrderIndex hash) (key k : UInt64) :
    (ix.erase key).find k = if k = key then NPOS else ix.find k := by
  by_cases h : k = key
  · rw [if_pos h]
    exact find_of_not_entry fun v hv => ((entry_erase ..).mp hv).1 h
  · rw [if_neg h]
    exact find_congr fun v => by rw [entry_erase]; exact and_iff_right h

theorem size_insert (ix : OrderIndex hash) {key : UInt64} (value : UInt32)
    (h : ∀ v, ¬ ix.Entry key v) :
    (ix.insert key value).size = ix.size + 1 := by
  obtain ⟨t', h', _, _, hc, _⟩ := Table.insert_spec ix.sound key value
  have : (ix.insert key value).table = t' := by simp [insert, h']
  rw [size, this]
  exact hc h

theorem size_erase (ix : OrderIndex hash) {key : UInt64} {v : UInt32}
    (h : ix.Entry key v) : (ix.erase key).size + 1 = ix.size := by
  obtain ⟨t', h', _, _, _, hc⟩ := Table.erase_spec ix.sound key
  have : (ix.erase key).table = t' := by simp [erase, h']
  rw [size, this]
  exact hc ⟨v, h⟩

end OrderIndex

/-! ## §2  Call sequences -/

inductive IndexOp where
  | insert (key : UInt64) (value : UInt32)
  | erase (key : UInt64)
  | clear
deriving DecidableEq, Repr

def IndexOp.apply (hash : UInt64 → UInt64) (t : Table) :
    IndexOp → Option Table
  | .insert key value => t.insert hash key value
  | .erase key => t.erase hash key
  | .clear => some t.clear

/-- The calls `ops`, in order, on a freshly constructed index. -/
def runIndex (hash : UInt64 → UInt64) (ops : List IndexOp) : Option Table :=
  ops.foldlM (IndexOp.apply hash) Table.fresh

theorem runIndex_snoc (hash : UInt64 → UInt64) (ops : List IndexOp)
    (op : IndexOp) :
    runIndex hash (ops ++ [op]) =
      (runIndex hash ops).bind (fun t => op.apply hash t) := by
  simp [runIndex, List.foldlM_append]

/-- The value of the most recent insert of `k` that no erase of `k` and no
clear follows; the calls are listed newest first. -/
def newestInsert (k : UInt64) : List IndexOp → Option UInt32
  | [] => none
  | .insert key value :: earlier =>
      if key = k then some value else newestInsert k earlier
  | .erase key :: earlier =>
      if key = k then none else newestInsert k earlier
  | .clear :: _ => none

/-- What the calls `ops` leave stored under `k`. -/
def live (ops : List IndexOp) (k : UInt64) : Option UInt32 :=
  newestInsert k ops.reverse

theorem live_insert (ops : List IndexOp) (key : UInt64) (value : UInt32)
    (k : UInt64) :
    live (ops ++ [.insert key value]) k =
      if key = k then some value else live ops k := by
  simp [live, newestInsert]

theorem live_erase (ops : List IndexOp) (key k : UInt64) :
    live (ops ++ [.erase key]) k =
      if key = k then none else live ops k := by
  simp [live, newestInsert]

theorem live_clear (ops : List IndexOp) (k : UInt64) :
    live (ops ++ [.clear]) k = none := by
  simp [live, newestInsert]

/-- A live value is one that some insert stored. -/
theorem mem_of_live {k : UInt64} {v : UInt32} : ∀ {ops : List IndexOp},
    live ops k = some v → IndexOp.insert k v ∈ ops := by
  intro ops
  induction ops using List.reverseRecOn with
  | nil => intro h; simp [live, newestInsert] at h
  | append_singleton ops op ih =>
      intro h
      rw [List.mem_append]
      cases op with
      | insert key value =>
          rw [live_insert] at h
          by_cases hk : key = k
          · rw [if_pos hk, Option.some.injEq] at h
            right
            simp [hk, h]
          · rw [if_neg hk] at h
            exact Or.inl (ih h)
      | erase key =>
          rw [live_erase] at h
          by_cases hk : key = k
          · simp [hk] at h
          · rw [if_neg hk] at h
            exact Or.inl (ih h)
      | clear =>
          rw [live_clear] at h
          simp at h

def insertedKeys (ops : List IndexOp) : List UInt64 :=
  ops.filterMap fun
    | .insert key _ => some key
    | _ => none

/-- The keys the calls `ops` leave stored. -/
def liveKeys (ops : List IndexOp) : Finset UInt64 :=
  (insertedKeys ops).toFinset.filter (fun k => (live ops k).isSome)

theorem mem_liveKeys {ops : List IndexOp} {k : UInt64} :
    k ∈ liveKeys ops ↔ (live ops k).isSome := by
  rw [liveKeys, Finset.mem_filter, List.mem_toFinset]
  refine and_iff_right_of_imp fun h => ?_
  obtain ⟨v, hv⟩ := Option.isSome_iff_exists.mp h
  exact List.mem_filterMap.mpr ⟨_, mem_of_live hv, rfl⟩

@[simp] theorem liveKeys_insert (ops : List IndexOp) (key : UInt64)
    (value : UInt32) :
    liveKeys (ops ++ [.insert key value]) = insert key (liveKeys ops) := by
  ext k
  rw [Finset.mem_insert, mem_liveKeys, mem_liveKeys, live_insert]
  by_cases hk : key = k
  · simp [hk]
  · rw [if_neg hk]
    exact (or_iff_right (Ne.symm hk)).symm

@[simp] theorem liveKeys_erase (ops : List IndexOp) (key : UInt64) :
    liveKeys (ops ++ [.erase key]) = (liveKeys ops).erase key := by
  ext k
  rw [Finset.mem_erase, mem_liveKeys, mem_liveKeys, live_erase]
  by_cases hk : key = k
  · simp [hk]
  · rw [if_neg hk]
    exact (and_iff_right (Ne.symm hk)).symm

@[simp] theorem liveKeys_clear (ops : List IndexOp) :
    liveKeys (ops ++ [.clear]) = ∅ := by
  ext k
  rw [mem_liveKeys, live_clear]
  simp

/-- The table stores what the calls `ops` left stored, and counts it. -/
structure Records (hash : UInt64 → UInt64) (ops : List IndexOp) (t : Table) :
    Prop where
  sound : t.Sound hash
  entries : ∀ k v, t.Entry k v ↔ live ops k = some v
  count : t.count = (liveKeys ops).card

section Records

variable {hash : UInt64 → UInt64} {ops : List IndexOp} {t : Table}

theorem records_fresh (hash : UInt64 → UInt64) :
    Records hash [] Table.fresh where
  sound := Table.fresh_spec.1
  entries := by
    intro k v
    simpa [live, newestInsert] using (@Table.fresh_spec hash).2 k v
  count := rfl

namespace Records

theorem mem_liveKeys_iff (h : Records hash ops t) (k : UInt64) :
    k ∈ liveKeys ops ↔ ∃ v, t.Entry k v := by
  rw [mem_liveKeys, Option.isSome_iff_exists]
  exact exists_congr fun v => (h.entries k v).symm

theorem insert (h : Records hash ops t) (key : UInt64) (value : UInt32) :
    ∃ t', t.insert hash key value = some t' ∧
      Records hash (ops ++ [.insert key value]) t' := by
  obtain ⟨t', hinsert, hs', hent', habsent, hpresent⟩ :=
    Table.insert_spec h.sound key value
  refine ⟨t', hinsert, hs', ?_, ?_⟩
  · intro k v
    rw [hent' k v, live_insert]
    by_cases hk : k = key
    · simp [hk, eq_comm]
    · rw [if_neg hk, if_neg (Ne.symm hk)]
      exact h.entries k v
  · rw [liveKeys_insert]
    by_cases hin : ∃ v, t.Entry key v
    · have hmem := (h.mem_liveKeys_iff key).mpr hin
      rw [hpresent hin, h.count, Finset.insert_eq_of_mem hmem]
    · have hnot : key ∉ liveKeys ops :=
        fun hmem => hin ((h.mem_liveKeys_iff key).mp hmem)
      rw [habsent (fun v hv => hin ⟨v, hv⟩), h.count,
        Finset.card_insert_of_notMem hnot]

theorem erase (h : Records hash ops t) (key : UInt64) :
    ∃ t', t.erase hash key = some t' ∧
      Records hash (ops ++ [.erase key]) t' := by
  obtain ⟨t', herase, hs', hent', habsent, hpresent⟩ :=
    Table.erase_spec h.sound key
  refine ⟨t', herase, hs', ?_, ?_⟩
  · intro k v
    rw [hent' k v, live_erase]
    by_cases hk : k = key
    · simp [hk]
    · rw [if_neg (Ne.symm hk)]
      exact (and_iff_right hk).trans (h.entries k v)
  · rw [liveKeys_erase]
    by_cases hin : ∃ v, t.Entry key v
    · have hmem := (h.mem_liveKeys_iff key).mpr hin
      rw [Finset.card_erase_of_mem hmem, ← h.count, ← hpresent hin,
        Nat.add_sub_cancel]
    · have hnot : key ∉ liveKeys ops :=
        fun hmem => hin ((h.mem_liveKeys_iff key).mp hmem)
      rw [habsent (fun v hv => hin ⟨v, hv⟩), h.count,
        Finset.erase_eq_of_notMem hnot]

theorem clear (h : Records hash ops t) :
    Records hash (ops ++ [.clear]) t.clear := by
  obtain ⟨hs', hno, hcount⟩ := Table.clear_spec h.sound
  refine ⟨hs', ?_, ?_⟩
  · intro k v
    rw [live_clear]
    simpa using hno k v
  · rw [liveKeys_clear, hcount]
    rfl

/-- Each call returns and keeps the table in step with the history. -/
theorem step (h : Records hash ops t) (op : IndexOp) :
    ∃ t', op.apply hash t = some t' ∧ Records hash (ops ++ [op]) t' := by
  cases op with
  | insert key value => exact h.insert key value
  | erase key => exact h.erase key
  | clear => exact ⟨t.clear, rfl, h.clear⟩

end Records

theorem runIndex_records (hash : UInt64 → UInt64) (ops : List IndexOp) :
    ∃ t, runIndex hash ops = some t ∧ Records hash ops t := by
  induction ops using List.reverseRecOn with
  | nil => exact ⟨Table.fresh, rfl, records_fresh hash⟩
  | append_singleton ops op ih =>
      obtain ⟨t, hrun, h⟩ := ih
      obtain ⟨t', hstep, h'⟩ := h.step op
      refine ⟨t', ?_, h'⟩
      rw [runIndex_snoc, hrun, Option.bind_some]
      exact hstep

/-- Every call sequence returns, and the table it ends in stores what the
sequence left stored and counts it. -/
theorem runIndex_spec (hash : UInt64 → UInt64) (ops : List IndexOp) :
    ∃ t, runIndex hash ops = some t ∧ t.Sound hash ∧
      (∀ k v, t.Entry k v ↔ live ops k = some v) ∧
      t.count = (liveKeys ops).card := by
  obtain ⟨t, hrun, h⟩ := runIndex_records hash ops
  exact ⟨t, hrun, h.sound, h.entries, h.count⟩

end Records

/-- **`OrderIndex` is a finite map.** For every hash function and every
sequence of calls that stores no `NPOS`, the calls return, and so do the
lookups after them: `find` with the live value or `NPOS`, `contains`, `size`
and `empty` with what that makes of the keys. -/
theorem orderIndex_finite_map (hash : UInt64 → UInt64) (ops : List IndexOp)
    (hvalue : ∀ key value, IndexOp.insert key value ∈ ops → value ≠ NPOS) :
    ∃ t, runIndex hash ops = some t ∧
      (∀ k, t.find hash k = some ((live ops k).getD NPOS) ∧
        t.contains hash k = some (live ops k).isSome) ∧
      t.size = (liveKeys ops).card ∧
      (t.empty = true ↔ ∀ k, live ops k = none) := by
  obtain ⟨t, hrun, hs, hent, hcnt⟩ := runIndex_spec hash ops
  have hfind : ∀ k, t.find hash k = some ((live ops k).getD NPOS) := by
    intro k
    obtain ⟨u, hu, hTu⟩ := hs.exists_unused
    rcases Table.find_spec hs.toValid hu hTu k with ⟨v, h, he⟩ | ⟨h, he⟩
    · rw [h, (hent k v).mp he, Option.getD_some]
    · have : live ops k = none := by
        rw [Option.eq_none_iff_forall_ne_some]
        exact fun v hv => he v ((hent k v).mpr hv)
      rw [h, this, Option.getD_none]
  refine ⟨t, hrun, fun k => ⟨hfind k, ?_⟩, hcnt, ?_⟩
  · rw [Table.contains, hfind k]
    cases hl : live ops k with
    | none => simp
    | some v =>
        simpa using hvalue k v (mem_of_live hl)
  · rw [Table.empty, beq_iff_eq, hcnt, Finset.card_eq_zero,
      Finset.eq_empty_iff_forall_notMem]
    refine forall_congr' fun k => ?_
    rw [mem_liveKeys]
    simp

/-- A key that is stored, erased and stored again. -/
def storedAgain : List IndexOp :=
  [.insert 7 0, .insert 9 1, .erase 7, .insert 7 2]

theorem orderIndex_finite_map_storedAgain :
    ∃ t, runIndex hash storedAgain = some t ∧
      (∀ k, t.find hash k = some ((live storedAgain k).getD NPOS) ∧
        t.contains hash k = some (live storedAgain k).isSome) ∧
      t.size = (liveKeys storedAgain).card ∧
      (t.empty = true ↔ ∀ k, live storedAgain k = none) :=
  orderIndex_finite_map hash storedAgain (by
    intro key value h
    simp only [storedAgain, List.mem_cons, IndexOp.insert.injEq, reduceCtorEq,
      List.not_mem_nil, or_false, false_or] at h
    rcases h with ⟨_, rfl⟩ | ⟨_, rfl⟩ | ⟨_, rfl⟩ <;> decide)

end Itch.Book
