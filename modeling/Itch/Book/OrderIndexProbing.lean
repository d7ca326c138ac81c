import Itch.Book.OrderIndexMap

/-!
# The probe chains of `OrderIndex`

`OrderIndex` states validity through distances on the ring, which is what the
proofs need. Here it is stated by walking, in the terms of the class alone:
`Intact`. §1 connects the two, §2 shows that `remove_at` takes intact tables
to intact tables.

§3 is about the loops themselves. None of them has a bound of its own; they
stop because the growth check leaves every table an unused slot. The check
also holds back while a `rehash` puts the keys back, so no `rehash` runs
inside another.
-/

namespace Itch.Book.Table

open LinearProbing

variable {hash : UInt64 → UInt64} {t : Table}

/-! ## §1  Walking -/

/-- The slot `d` steps after slot `i`, stepping as the probe loops do. -/
def walk (t : Table) (i : ℕ) : ℕ → ℕ
  | 0 => i
  | d + 1 => t.nextSlot (t.walk i d)

/-- Slot `x` is met walking cyclically from slot `i` up to slot `s`. -/
def Met (t : Table) (i s x : ℕ) : Prop :=
  ∃ d, t.walk i d = x ∧ ∀ d' < d, t.walk i d' ≠ s

/-- Validity in the terms of the class: no walk from the home of a stored key
up to its slot meets an unused slot, no key is stored twice, and the count is
that of the used slots. -/
structure Intact (hash : UInt64 → UInt64) (t : Table) : Prop where
  chain : ∀ s < t.slots.length, (t.slot s).used = true →
    ∀ x, t.Met (t.homeSlot hash (t.slot s).key) s x → (t.slot x).used = true
  distinct : ∀ s < t.slots.length, ∀ s' < t.slots.length,
    (t.slot s).used = true → (t.slot s').used = true →
    (t.slot s).key = (t.slot s').key → s = s'
  count : t.count = t.slots.countP (·.used)

/-- The stored pairs of key and value. -/
def entries (t : Table) : Set (UInt64 × UInt32) :=
  {e | t.Entry e.1 e.2}

section Walk

variable (hcapacity : ∃ b, t.slots.length = 2 ^ b)
  (hmask : t.mask = t.slots.length - 1)

include hcapacity hmask

theorem walk_eq {i : ℕ} (hi : i < t.slots.length) (d : ℕ) :
    t.walk i d = (i + d) % t.slots.length := by
  induction d with
  | zero => exact (Nat.mod_eq_of_lt hi).symm
  | succ d ih =>
      rw [walk, nextSlot, ih, and_mask_eq_mod hcapacity hmask, Nat.mod_add_mod,
        Nat.add_assoc]

theorem walk_lt {i : ℕ} (hi : i < t.slots.length) (d : ℕ) :
    t.walk i d < t.slots.length := by
  rw [walk_eq hcapacity hmask hi]
  exact Nat.mod_lt _ (Nat.zero_lt_of_lt hi)

theorem met_iff {i s x : ℕ} (hi : i < t.slots.length)
    (hs : s < t.slots.length) :
    t.Met i s x ↔ x < t.slots.length ∧
      steps t.slots.length i x ≤ steps t.slots.length i s := by
  have hwalk := walk_eq hcapacity hmask hi
  constructor
  · rintro ⟨d, rfl, hd⟩
    have hx := walk_lt hcapacity hmask hi d
    refine ⟨hx, (met_iff_steps_le hi hs hx).mp ⟨d, (hwalk d).symm, ?_⟩⟩
    intro d' hd' h
    exact hd d' hd' ((hwalk d').trans h)
  · rintro ⟨hx, hle⟩
    obtain ⟨d, he, hd⟩ := (met_iff_steps_le hi hs hx).mpr hle
    refine ⟨d, (hwalk d).trans he, ?_⟩
    intro d' hd' h
    exact hd d' hd' ((hwalk d').symm.trans h)

/-- Both notions of a valid table agree. -/
theorem valid_iff_intact : t.Valid hash ↔ t.Intact hash := by
  have hhome : ∀ key, t.homeSlot hash key < t.slots.length :=
    homeSlot_lt hcapacity hmask
  constructor
  · intro hv
    refine ⟨?_, ?_, hv.count⟩
    · intro s hs hused x hmet
      obtain ⟨hx, hle⟩ := (met_iff hcapacity hmask (hhome _) hs).mp hmet
      rcases Nat.lt_or_eq_of_le hle with hlt | heq
      · have hne := hv.chained.path s hs _ _
          (content_eq_some.mpr ⟨hused, rfl, rfl⟩) x hx hlt
        rw [Ne, content_eq_none] at hne
        exact Bool.eq_true_of_not_eq_false hne
      · have hxs : x = s := steps_inj (hhome _) hx hs heq
        rw [hxs]
        exact hused
    · intro s hs s' hs' hused hused' hkey
      exact hv.chained.inj s hs s' hs' _ _ _
        (content_eq_some.mpr ⟨hused, rfl, rfl⟩)
        (content_eq_some.mpr ⟨hused', hkey.symm, rfl⟩)
  · intro h
    refine ⟨hcapacity, hmask, ⟨?_, ?_⟩, h.count⟩
    · intro s hs k v hT x hx hlt hnone
      obtain ⟨hused, rfl, -⟩ := content_eq_some.mp hT
      have hmet := (met_iff hcapacity hmask (hhome _) hs).mpr ⟨hx, hlt.le⟩
      have := h.chain s hs hused x hmet
      rw [content_eq_none.mp hnone] at this
      cases this
    · intro s hs s' hs' k v v' hT hT'
      obtain ⟨hused, hkey, -⟩ := content_eq_some.mp hT
      obtain ⟨hused', hkey', -⟩ := content_eq_some.mp hT'
      exact h.distinct s hs s' hs' hused hused' (hkey.trans hkey'.symm)

end Walk

/-- Every sequence of calls leaves an intact table. -/
theorem runIndex_intact (hash : UInt64 → UInt64) (ops : List IndexOp) :
    ∃ t, runIndex hash ops = some t ∧ t.Intact hash := by
  obtain ⟨t, hrun, hs, -⟩ := runIndex_spec hash ops
  exact ⟨t, hrun, (valid_iff_intact hs.capacity hs.mask).mp hs.toValid⟩

/-! ## §2  `remove_at` -/

/-- **Backward-shift deletion repairs the probe chains.** Removing a used slot
of an intact table that has an unused slot stops in an intact table of the
same size, which stores everything but the removed entry. -/
theorem removeAt_repairs (hash : UInt64 → UInt64) (t : Table)
    (hcapacity : ∃ b, t.slots.length = 2 ^ b)
    (hmask : t.mask = t.slots.length - 1) (hintact : t.Intact hash)
    (hunused : ∃ u < t.slots.length, (t.slot u).used = false) (h : ℕ)
    (hh : h < t.slots.length) (hused : (t.slot h).used = true) :
    ∃ t', t.removeAt hash h = some t' ∧
      t'.slots.length = t.slots.length ∧ t'.mask = t.mask ∧
      t'.Intact hash ∧
      t'.entries = t.entries \ {((t.slot h).key, (t.slot h).value)} := by
  have hv := (valid_iff_intact hcapacity hmask).mpr hintact
  obtain ⟨u, hu, hfree⟩ := hunused
  have hT : t.content h = some ((t.slot h).key, (t.slot h).value) :=
    content_eq_some.mpr ⟨hused, rfl, rfl⟩
  obtain ⟨t', hrem, hv', hlen, -, hent⟩ :=
    removeAt_spec hv hu (content_eq_none.mpr hfree) hh hT
  refine ⟨t', hrem, hlen, ?_, (valid_iff_intact hv'.capacity hv'.mask).mp hv',
    ?_⟩
  · rw [hv'.mask, hlen, hmask]
  · ext ⟨k, v⟩
    show t'.Entry k v ↔ t.Entry k v ∧ (k, v) ≠ _
    rw [hent k v]
    constructor
    · rintro ⟨hne, he⟩
      refine ⟨he, ?_⟩
      intro heq
      exact hne (Prod.mk.inj heq).1
    · rintro ⟨he, hne⟩
      refine ⟨?_, he⟩
      -- a key has one value, so another value would be another key
      rintro rfl
      apply hne
      rw [holds_unique hv.chained he ⟨h, hh, hT⟩]

/-- Keys `3`, `7` and `4` in four slots, placed by their low bits: `7` went
past the end of the table and `4` one further. -/
def wrapped : Table where
  slots := [⟨7, 1, true⟩, ⟨4, 2, true⟩, {}, ⟨3, 0, true⟩]
  count := 3
  mask := 3

theorem removeAt_repairs_wrapped :
    ∃ t', wrapped.removeAt id 3 = some t' ∧
      t'.slots.length = 4 ∧ t'.mask = 3 ∧ t'.Intact id ∧
      t'.entries = wrapped.entries \ {(3, 0)} := by
  have hcapacity : ∃ b, wrapped.slots.length = 2 ^ b := ⟨2, rfl⟩
  have hmask : wrapped.mask = wrapped.slots.length - 1 := rfl
  have hchain : ∀ s < 4, (wrapped.slot s).used = true → ∀ x < 4,
      steps 4 (wrapped.homeSlot id (wrapped.slot s).key) x ≤
        steps 4 (wrapped.homeSlot id (wrapped.slot s).key) s →
      (wrapped.slot x).used = true := by decide
  refine removeAt_repairs id wrapped hcapacity hmask ⟨?_, by decide, rfl⟩
    ⟨2, by decide, rfl⟩ 3 (by decide) rfl
  intro s hs hused x hmet
  obtain ⟨hx, hle⟩ := (met_iff hcapacity hmask
    (homeSlot_lt hcapacity hmask _) hs).mp hmet
  exact hchain s hs hused x hx hle

/-! ## §3  The loops stop -/

/-- The probe loop for `key` ends at slot `i`: it is unused or holds `key`. -/
def Stops (t : Table) (key : UInt64) (i : ℕ) : Prop :=
  (t.slot i).used = true → (t.slot i).key = key

theorem walk_nextSlot (t : Table) (i d : ℕ) :
    t.walk (t.nextSlot i) d = t.walk i (d + 1) := by
  induction d with
  | zero => rfl
  | succ d ih =>
      rw [walk, ih]
      rfl

theorem probe_of_stops {key : UInt64} {i : ℕ} (h : t.Stops key i)
    (fuel : ℕ) : t.probe key (fuel + 1) i = some i := by
  unfold probe
  by_cases hused : (t.slot i).used = true
  · rw [if_pos hused, if_pos (h hused)]
  · rw [if_neg hused]

theorem probe_of_not_stops {key : UInt64} {i : ℕ} (h : ¬ t.Stops key i)
    (fuel : ℕ) :
    t.probe key (fuel + 1) i = t.probe key fuel (t.nextSlot i) := by
  rw [Stops, Classical.not_imp] at h
  obtain ⟨hused, hkey⟩ := h
  rw [probe, if_pos hused, if_neg hkey]

/-- On a budget of `fuel` steps the probe loop returns the slot at which it
stops by itself, if it reaches one. -/
theorem probe_eq_some_iff {key : UInt64} {fuel i j : ℕ} :
    t.probe key fuel i = some j ↔
      ∃ d < fuel, t.walk i d = j ∧ t.Stops key j ∧
        ∀ d' < d, ¬ t.Stops key (t.walk i d') := by
  induction fuel generalizing i with
  | zero =>
      constructor
      · intro h
        cases h
      · rintro ⟨d, hd, _⟩
        cases hd
  | succ fuel ih =>
      by_cases hstop : t.Stops key i
      · rw [probe_of_stops hstop, Option.some.injEq]
        constructor
        · rintro rfl
          exact ⟨0, Nat.succ_pos _, rfl, hstop, fun _ h => absurd h (by simp)⟩
        · rintro ⟨d, -, hj, -, hbefore⟩
          cases d with
          | zero => exact hj
          | succ d => exact absurd hstop (hbefore 0 (Nat.succ_pos d))
      · rw [probe_of_not_stops hstop, ih]
        constructor
        · rintro ⟨d, hd, hj, hs, hbefore⟩
          rw [walk_nextSlot] at hj
          refine ⟨d + 1, Nat.succ_lt_succ hd, hj, hs, ?_⟩
          intro d' hd'
          cases d' with
          | zero => exact hstop
          | succ d' =>
              rw [← walk_nextSlot]
              exact hbefore d' (Nat.lt_of_succ_lt_succ hd')
        · rintro ⟨d, hd, hj, hs, hbefore⟩
          cases d with
          | zero =>
              rw [walk] at hj
              rw [hj] at hstop
              exact absurd hs hstop
          | succ d =>
              refine ⟨d, Nat.lt_of_succ_lt_succ hd, ?_, hs, ?_⟩
              · rw [walk_nextSlot]
                exact hj
              · intro d' hd'
                rw [walk_nextSlot]
                exact hbefore (d' + 1) (Nat.succ_lt_succ hd')

/-- The growth check of `insert` as `size_t` computes it. -/
def growthCheck (t : Table) : Bool :=
  decide ((t.count + 1) * loadFactorDen % 2 ^ 64 ≥
    t.slots.length * loadFactorNum % 2 ^ 64)

/-- As long as ten times the capacity fits `size_t`, the check is the one on
numbers. -/
theorem growthCheck_iff
    (hload : t.count * loadFactorDen < t.slots.length * loadFactorNum)
    (hsize : t.slots.length * loadFactorDen < 2 ^ 64) :
    t.growthCheck = true ↔
      (t.count + 1) * loadFactorDen ≥ t.slots.length * loadFactorNum := by
  simp only [loadFactorDen, loadFactorNum] at hload hsize
  have hcount : (t.count + 1) * loadFactorDen < 2 ^ 64 := by
    simp only [loadFactorDen]
    omega
  have hslots : t.slots.length * loadFactorNum < 2 ^ 64 := by
    simp only [loadFactorNum]
    omega
  rw [growthCheck, decide_eq_true_eq, Nat.mod_eq_of_lt hcount,
    Nat.mod_eq_of_lt hslots]

/-- What makes every loop of the class finite on a table. -/
structure LoopsStop (hash : UInt64 → UInt64) (t : Table) : Prop where
  capacity : ∃ b, t.slots.length = 2 ^ b
  mask : t.mask = t.slots.length - 1
  load : t.count * loadFactorDen < t.slots.length * loadFactorNum
  unused : ∃ u < t.slots.length, (t.slot u).used = false
  -- the loop of `find`, `insert` and `erase`
  probe : ∀ key, ∃ d < t.slots.length,
    t.Stops key (t.walk (t.homeSlot hash key) d)
  -- the loop of `remove_at`, on a budget of one step for each slot
  shift : ∀ h < t.slots.length, (t.slot h).used = true →
    ∃ t', t.removeAt hash h = some t'
  check : t.slots.length * loadFactorDen < 2 ^ 64 →
    (t.growthCheck = true ↔
      (t.count + 1) * loadFactorDen ≥ t.slots.length * loadFactorNum)

theorem Valid.loopsStop (hv : t.Valid hash)
    (hload : t.count * loadFactorDen < t.slots.length * loadFactorNum) :
    t.LoopsStop hash := by
  obtain ⟨u, hu, hTu⟩ := hv.exists_unused hload
  refine ⟨hv.capacity, hv.mask, hload, ⟨u, hu, content_eq_none.mp hTu⟩, ?_,
    ?_, growthCheck_iff hload⟩
  · intro key
    obtain ⟨j, hj, -⟩ := probeFrom_spec hv hu hTu key
    obtain ⟨d, hd, rfl, hstop, -⟩ := probe_eq_some_iff.mp hj
    exact ⟨d, hd, hstop⟩
  · intro h hh hused
    obtain ⟨t', hrem, -⟩ :=
      removeAt_spec hv hu hTu hh (content_eq_some.mpr ⟨hused, rfl, rfl⟩)
    exact ⟨t', hrem⟩

/-! ## §4  No `rehash` inside another -/

/-- The table a growth step fills, after it has put back the slots `done`. -/
def refilled (hash : UInt64 → UInt64) (t : Table) (done : List Slot) :
    Option Table :=
  rehash (insert hash) { t with slots := done } (t.slots.length * 2)

/-- Whenever a key is put back, there is room for it. -/
theorem refill_room (depth : ℕ) (hs : t.Sound hash) {done rest : List Slot}
    {s : Slot} (hsplit : t.slots = done ++ s :: rest) (hused : s.used = true) :
    ∃ t', rehash (insertDepth hash (depth + 1)) { t with slots := done }
        (t.slots.length * 2) = some t' ∧ t'.Valid hash ∧
      t'.slots.length = t.slots.length * 2 ∧
      (t'.count + 1) * loadFactorDen < t'.slots.length * loadFactorNum := by
  obtain ⟨t', h, hv, hlen, hcnt, -⟩ :=
    refill_spec depth hs ⟨s :: rest, hsplit.symm⟩
  refine ⟨t', h, hv, hlen, ?_⟩
  have hle : t'.count + 1 ≤ t.count := by
    rw [hcnt, hs.count, hsplit, List.countP_append, List.countP_cons_of_pos hused]
    exact Nat.add_le_add_left (Nat.le_add_left 1 _) _
  rw [hlen]
  calc (t'.count + 1) * loadFactorDen ≤ t.count * loadFactorDen :=
        Nat.mul_le_mul_right _ hle
    _ < t.slots.length * 2 * loadFactorNum := load_doubled hs.load

theorem rehash_snoc (insert : Table → UInt64 → UInt32 → Option Table)
    (t : Table) (done : List Slot) (s : Slot) (newCapacity : ℕ) :
    rehash insert { t with slots := done ++ [s] } newCapacity =
      (rehash insert { t with slots := done } newCapacity).bind
        fun t => if s.used then insert t s.key s.value else some t := by
  rw [rehash, List.foldlM_append]
  simp only [List.foldlM_cons, List.foldlM_nil, Option.bind_eq_bind,
    Option.pure_def, Option.bind_fun_some]
  rfl

/-- Putting the keys back comes to the same without a look at the growth
check. -/
theorem rehash_eq_place (depth : ℕ) (hs : t.Sound hash) {done : List Slot}
    (hdone : done <+: t.slots) :
    rehash (insertDepth hash (depth + 1)) { t with slots := done }
        (t.slots.length * 2) =
      rehash (place hash) { t with slots := done } (t.slots.length * 2) := by
  induction done using List.reverseRecOn with
  | nil => rfl
  | append_singleton done s ih =>
      rw [rehash_snoc, rehash_snoc,
        ← ih ((List.prefix_append done [s]).trans hdone)]
      cases hused : s.used with
      | false => rfl
      | true =>
          obtain ⟨rest, hrest⟩ := hdone
          rw [List.append_assoc, List.singleton_append] at hrest
          obtain ⟨t', h, -, -, hroom⟩ := refill_room depth hs hrest.symm hused
          rw [h, Option.bind_some, Option.bind_some, if_pos rfl, if_pos rfl]
          exact insertDepth_eq_place hash depth hroom s.key s.value

theorem reserve_eq_place (depth : ℕ) (hs : t.Sound hash) :
    reserve (insertDepth hash (depth + 1)) t = reserve (place hash) t := by
  rw [reserve, reserve, rehash_eq_place depth hs (List.prefix_refl t.slots)]

/-- The bound on how deep the calls nest is never felt. -/
theorem insertDepth_eq_insert (depth : ℕ) (hs : t.Sound hash) (key : UInt64)
    (value : UInt32) :
    insertDepth hash (depth + 2) t key value = t.insert hash key value := by
  rw [insert, insertDepth, insertDepth, reserve_eq_place depth hs,
    reserve_eq_place 0 hs]

end Itch.Book.Table

namespace Itch.Book

open Table

/-- **Every loop of `OrderIndex` stops.** For every hash function, each
sequence of calls reaches a table on which the loops stop within one pass and
the next call returns. `insert` may grow the table first and then runs its
loop on the grown one. A growth step puts every entry back, and at none of the
keys it puts back does the growth check ask for another one. -/
theorem orderIndex_loops_stop (hash : UInt64 → UInt64) (ops : List IndexOp) :
    ∃ t, runIndex hash ops = some t ∧ t.LoopsStop hash ∧
      (∀ key, (∃ value, t.find hash key = some value) ∧
        ∃ t', t.erase hash key = some t') ∧
      (∀ key value, ∃ t₁ t', reserve (Table.insert hash) t = some t₁ ∧
        t₁.LoopsStop hash ∧ t₁.place hash key value = some t' ∧
        t.insert hash key value = some t') ∧
      (∃ t', t.refilled hash t.slots = some t' ∧ t'.LoopsStop hash ∧
        t'.entries = t.entries) ∧
      ∀ done s rest, t.slots = done ++ s :: rest → s.used = true →
        ∃ t₁, t.refilled hash done = some t₁ ∧ t₁.LoopsStop hash ∧
          (t₁.count + 1) * loadFactorDen < t₁.slots.length * loadFactorNum ∧
          (t.slots.length * 2 * loadFactorDen < 2 ^ 64 →
            t₁.growthCheck = false) := by
  obtain ⟨t, hrun, hs, -⟩ := runIndex_spec hash ops
  refine ⟨t, hrun, hs.toValid.loopsStop hs.load, ?_, ?_, ?_, ?_⟩
  · intro key
    constructor
    · obtain ⟨u, hu, hTu⟩ := hs.exists_unused
      rcases find_spec hs.toValid hu hTu key with ⟨v, h, -⟩ | ⟨h, -⟩
      · exact ⟨v, h⟩
      · exact ⟨NPOS, h⟩
    · obtain ⟨t', h, -⟩ := erase_spec hs key
      exact ⟨t', h⟩
  · intro key value
    obtain ⟨t₁, hgrow, hv₁, -, hroom, hcnt₁, -⟩ := reserve_spec 1 hs
    obtain ⟨t', hinsert, -⟩ := insert_spec hs key value
    rw [← hcnt₁] at hroom
    refine ⟨t₁, t', hgrow, hv₁.loopsStop (load_of_room hroom), ?_, hinsert⟩
    rw [← insertDepth_eq_insert 1 hs, insertDepth, hgrow] at hinsert
    exact hinsert
  · obtain ⟨t', h, hv', hlen', hcnt', hent'⟩ := rehash_spec 1 hs
    refine ⟨t', h, hv'.loopsStop ?_, ?_⟩
    · rw [hcnt', hlen']
      exact load_doubled hs.load
    · ext ⟨k, v⟩
      exact hent' k v
  · intro done s rest hsplit hused
    obtain ⟨t₁, h, hv₁, hlen₁, hroom⟩ := refill_room 1 hs hsplit hused
    have hstop := hv₁.loopsStop (load_of_room hroom)
    refine ⟨t₁, h, hstop, hroom, ?_⟩
    intro hsize
    rw [← hlen₁] at hsize
    rw [Bool.eq_false_iff, Ne, hstop.check hsize, not_le]
    exact hroom

theorem orderIndex_loops_stop_storedAgain :
    ∃ t, runIndex hash storedAgain = some t ∧ t.LoopsStop hash ∧
      ∃ done s rest, t.slots = done ++ s :: rest ∧ s.used = true ∧
        ∃ t₁, t.refilled hash done = some t₁ ∧ t₁.LoopsStop hash ∧
          t₁.growthCheck = false := by
  obtain ⟨t, hrun, hstop, -, -, -, hrefill⟩ :=
    orderIndex_loops_stop hash storedAgain
  have hslots : (runIndex hash storedAgain).map
      (fun t => (t.slots.length, t.slots.any (·.used))) =
        some (1024, true) := by decide +kernel
  rw [hrun, Option.map_some, Option.some.injEq, Prod.mk.injEq] at hslots
  obtain ⟨hlen, hany⟩ := hslots
  obtain ⟨s, hs, hused⟩ := List.any_eq_true.mp hany
  obtain ⟨done, rest, hsplit⟩ := List.append_of_mem hs
  obtain ⟨t₁, h, hstop₁, -, hgrowth⟩ := hrefill done s rest hsplit hused
  refine ⟨t, hrun, hstop, done, s, rest, hsplit, hused, t₁, h, hstop₁,
    hgrowth ?_⟩
  rw [hlen]
  decide

end Itch.Book
