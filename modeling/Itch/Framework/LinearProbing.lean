import Mathlib.Logic.Function.Basic
import Mathlib.Tactic

/-!
# Linear probing with backward-shift deletion

An open-addressed table is a ring of `n` slots; `home k` is the slot where the
walk for the key `k` starts. Everything here is about the contents
`T : ℕ → Option (κ × ν)` of the slots, so that any concrete table can use it
through its own view of the slots.

- `Chained`: every slot met between a key's home and the key is used, and no
  key is stored twice. This is what makes a lookup by walking correct.
- `Searched`: how far one walk has come. Its rules (`searched_home`,
  `searched_step`, `searched_absent`) are those of lookup and insertion.
- `Gap`: the state of a deletion in progress. One slot has been emptied and
  only keys not yet looked at may still miss it. Its rules (`gap_open`,
  `gap_skip`, `gap_shift`, `gap_close`) are those of the shifting loop.
-/

namespace LinearProbing

variable {κ ν : Type*} {n : ℕ} {home : κ → ℕ} {T : ℕ → Option (κ × ν)}

/-! ## Distances on the ring -/

/-- Steps walked forward from slot `a` to slot `b`. -/
def steps (n a b : ℕ) : ℕ := if a ≤ b then b - a else b + n - a

@[simp] theorem steps_self (n a : ℕ) : steps n a a = 0 := by simp [steps]

theorem steps_lt {a b : ℕ} (ha : a < n) (hb : b < n) : steps n a b < n := by
  unfold steps
  split <;> omega

theorem steps_eq_zero {a b : ℕ} (ha : a < n) (h : steps n a b = 0) :
    a = b := by
  unfold steps at h
  split at h <;> omega

theorem steps_inj {a x y : ℕ} (ha : a < n) (hx : x < n) (hy : y < n)
    (h : steps n a x = steps n a y) : x = y := by
  unfold steps at h
  split at h <;> split at h <;> omega

/-- One step forward, wrapping after the last slot. -/
theorem succ_mod_eq {s : ℕ} (hs : s < n) :
    (s + 1) % n = if s + 1 = n then 0 else s + 1 := by
  split
  · next h => rw [h, Nat.mod_self]
  · exact Nat.mod_eq_of_lt (by omega)

theorem steps_succ {a s : ℕ} (ha : a < n) (hs : s < n)
    (hne : (s + 1) % n ≠ a) : steps n a ((s + 1) % n) = steps n a s + 1 := by
  rw [succ_mod_eq hs] at hne ⊢
  unfold steps
  split_ifs at hne ⊢ <;> omega

/-- The walk from `a` comes through `x` on its way to `y`, so what is ahead of
`x` at `y`'s distance is met from `a` as well. -/
theorem steps_through {a x y z : ℕ} (ha : a < n) (hx : x < n) (hy : y < n)
    (hz : z < n) (hxz : steps n a x < steps n a z)
    (hyz : steps n x y < steps n x z) : steps n a y < steps n a z := by
  unfold steps at *
  split_ifs at * <;> omega

/-- Shrinking what is left of a walk to `u` by one step. -/
theorem steps_from_succ {s u : ℕ} (hs : s < n) (hu : u < n) (hne : s ≠ u) :
    steps n ((s + 1) % n) u + 1 = steps n s u := by
  rw [succ_mod_eq hs]
  unfold steps
  split_ifs <;> omega

/-- A second slot keeps the step from coming back at once. -/
theorem succ_mod_ne {a u : ℕ} (ha : a < n) (hu : u < n) (hne : u ≠ a) :
    (a + 1) % n ≠ a := by
  rw [succ_mod_eq ha]
  split_ifs <;> omega

/-- One step is no more than the steps to another slot. -/
theorem steps_succ_le {a u : ℕ} (ha : a < n) (hu : u < n) (hne : u ≠ a) :
    steps n a ((a + 1) % n) ≤ steps n a u := by
  rw [steps_succ ha ha (succ_mod_ne ha hu hne), steps_self]
  apply Nat.one_le_iff_ne_zero.mpr
  intro h
  exact hne (steps_eq_zero ha h).symm

/-- Walking as many steps as there are from `a` to `b` leads to `b`. -/
theorem add_steps_mod {a b : ℕ} (ha : a < n) (hb : b < n) :
    (a + steps n a b) % n = b := by
  unfold steps
  split
  · next h => rw [Nat.add_sub_cancel' h, Nat.mod_eq_of_lt hb]
  · next h =>
      have he : a + (b + n - a) = b + n := by omega
      rw [he, Nat.add_mod_right, Nat.mod_eq_of_lt hb]

theorem steps_add_mod {a d : ℕ} (ha : a < n) (hd : d < n) :
    steps n a ((a + d) % n) = d := by
  have hn : 0 < n := Nat.zero_lt_of_lt ha
  apply Nat.ModEq.eq_of_lt_of_lt _ (steps_lt ha (Nat.mod_lt _ hn)) hd
  apply Nat.ModEq.add_left_cancel' a
  rw [Nat.ModEq, add_steps_mod ha (Nat.mod_lt _ hn)]

/-- The slots met on the walk from `a` up to `s` are those that are no farther
from `a` than `s` is. -/
theorem met_iff_steps_le {a s x : ℕ} (ha : a < n) (hs : s < n) (hx : x < n) :
    (∃ d, (a + d) % n = x ∧ ∀ d' < d, (a + d') % n ≠ s) ↔
      steps n a x ≤ steps n a s := by
  constructor
  · rintro ⟨d, rfl, hd⟩
    have hle : d ≤ steps n a s := by
      by_contra h
      exact hd _ (not_le.mp h) (add_steps_mod ha hs)
    rwa [steps_add_mod ha (lt_of_le_of_lt hle (steps_lt ha hs))]
  · intro hle
    refine ⟨steps n a x, add_steps_mod ha hx, ?_⟩
    rintro d' hd' rfl
    rw [steps_add_mod ha (hd'.trans (steps_lt ha hx))] at hle
    exact absurd hd' (not_lt.mpr hle)

/-! ## Valid tables -/

/-- Every slot between a key's home and the key is used, and keys occupy one
slot each. -/
structure Chained (n : ℕ) (home : κ → ℕ) (T : ℕ → Option (κ × ν)) :
    Prop where
  path : ∀ s < n, ∀ k v, T s = some (k, v) → ∀ x < n,
    steps n (home k) x < steps n (home k) s → T x ≠ none
  inj : ∀ s < n, ∀ s' < n, ∀ k v v', T s = some (k, v) →
    T s' = some (k, v') → s = s'

/-- The table stores the entry `(k, v)`. -/
def Holds (n : ℕ) (T : ℕ → Option (κ × ν)) (k : κ) (v : ν) : Prop :=
  ∃ s < n, T s = some (k, v)

theorem holds_unique (h : Chained n home T) {k : κ} {v v' : ν}
    (hv : Holds n T k v) (hv' : Holds n T k v') : v = v' := by
  obtain ⟨s, hs, hT⟩ := hv
  obtain ⟨s', hs', hT'⟩ := hv'
  have hss : s = s' := h.inj s hs s' hs' k v v' hT hT'
  subst hss
  rw [hT] at hT'
  exact (Prod.mk.inj (Option.some.inj hT')).2

theorem chained_empty : Chained n home (fun _ => (none : Option (κ × ν))) :=
  ⟨fun _ _ _ _ h => by simp at h, fun _ _ _ _ _ _ _ h => by simp at h⟩

theorem not_holds_empty (k : κ) (v : ν) :
    ¬ Holds n (fun _ => (none : Option (κ × ν))) k v := by
  rintro ⟨s, _, h⟩
  simp at h

/-! ## Looking a key up -/

/-- The walk for `k` has reached `slot`: every slot before it is used, by
another key. -/
structure Searched (n : ℕ) (home : κ → ℕ) (T : ℕ → Option (κ × ν)) (k : κ)
    (slot : ℕ) : Prop where
  inRange : slot < n
  others : ∀ x < n, steps n (home k) x < steps n (home k) slot →
    ∃ k' v', T x = some (k', v') ∧ k' ≠ k

theorem searched_home {k : κ} (hk : home k < n) :
    Searched n home T k (home k) :=
  ⟨hk, fun x _ h => by simp at h⟩

/-- A used slot with another key is passed. An unused slot anywhere keeps the
walk from coming back to its start. -/
theorem searched_step {k : κ} {slot u : ℕ} (hk : home k < n)
    (hs : Searched n home T k slot) (hu : u < n) (hTu : T u = none)
    {k' : κ} {v' : ν} (hT : T slot = some (k', v')) (hne : k' ≠ k) :
    Searched n home T k ((slot + 1) % n) ∧
      steps n (home k) ((slot + 1) % n) = steps n (home k) slot + 1 := by
  have hslot := hs.inRange
  have hpos : 0 < n := by omega
  have hu' : steps n (home k) slot < steps n (home k) u := by
    rcases Nat.lt_trichotomy (steps n (home k) slot) (steps n (home k) u)
      with h | h | h
    · exact h
    · have := steps_inj hk hslot hu h
      subst this
      rw [hT] at hTu
      simp at hTu
    · obtain ⟨_, _, h', _⟩ := hs.others u hu h
      rw [hTu] at h'
      simp at h'
  have hwrap : (slot + 1) % n ≠ home k := by
    intro h
    have hlt := steps_lt hk hu
    rw [succ_mod_eq hslot] at h
    unfold steps at hu' hlt
    split_ifs at h hu' hlt <;> omega
  have hd := steps_succ hk hslot hwrap
  refine ⟨⟨Nat.mod_lt _ hpos, fun x hx hlt => ?_⟩, hd⟩
  rw [hd] at hlt
  by_cases hxs : x = slot
  · exact ⟨k', v', hxs ▸ hT, hne⟩
  · refine hs.others x hx ?_
    have : steps n (home k) x ≠ steps n (home k) slot :=
      fun h => hxs (steps_inj hk hx hslot h)
    omega

/-- A walk that meets an unused slot has shown its key to be absent. -/
theorem searched_absent {k : κ} {slot : ℕ} (hk : home k < n)
    (hc : Chained n home T) (hs : Searched n home T k slot)
    (hT : T slot = none) (v : ν) : ¬ Holds n T k v := by
  rintro ⟨s, hsn, hTs⟩
  rcases Nat.lt_trichotomy (steps n (home k) s) (steps n (home k) slot)
    with h | h | h
  · obtain ⟨_, _, h', hne⟩ := hs.others s hsn h
    rw [hTs] at h'
    exact hne (Prod.mk.inj (Option.some.inj h')).1.symm
  · have := steps_inj hk hsn hs.inRange h
    subst this
    rw [hT] at hTs
    simp at hTs
  · exact hc.path s hsn k v hTs slot hs.inRange h hT

/-! ## Storing an entry -/

/-- An absent key goes into the unused slot its walk ends at. -/
theorem chained_place {k : κ} {v : ν} {slot : ℕ} (hk : home k < n)
    (hc : Chained n home T) (hs : Searched n home T k slot)
    (hT : T slot = none) :
    Chained n home (Function.update T slot (some (k, v))) := by
  have habs := searched_absent hk hc hs hT
  refine ⟨fun s hsn k' v' hTs x hx hlt => ?_,
    fun s hsn s' hsn' k' v₁ v₂ h₁ h₂ => ?_⟩
  · by_cases hxs : x = slot
    · simp [hxs]
    rw [Function.update_of_ne hxs]
    by_cases hss : s = slot
    · subst hss
      simp only [Function.update_self, Option.some.injEq,
        Prod.mk.injEq] at hTs
      obtain ⟨_, _, h', _⟩ := hs.others x hx (by rw [hTs.1]; exact hlt)
      simp [h']
    · rw [Function.update_of_ne hss] at hTs
      exact hc.path s hsn k' v' hTs x hx hlt
  · by_cases h : s = slot <;> by_cases h' : s' = slot
    · rw [h, h']
    · subst h
      rw [Function.update_of_ne h'] at h₂
      simp only [Function.update_self, Option.some.injEq,
        Prod.mk.injEq] at h₁
      exact absurd ⟨s', hsn', h₁.1 ▸ h₂⟩ (habs v₂)
    · subst h'
      rw [Function.update_of_ne h] at h₁
      simp only [Function.update_self, Option.some.injEq,
        Prod.mk.injEq] at h₂
      exact absurd ⟨s, hsn, h₂.1 ▸ h₁⟩ (habs v₁)
    · rw [Function.update_of_ne h] at h₁
      rw [Function.update_of_ne h'] at h₂
      exact hc.inj s hsn s' hsn' k' v₁ v₂ h₁ h₂

/-- Overwriting the value of a stored key moves no key. -/
theorem chained_overwrite {k : κ} {v w : ν} {slot : ℕ}
    (hc : Chained n home T) (hT : T slot = some (k, v)) :
    Chained n home (Function.update T slot (some (k, w))) := by
  have hkey : ∀ s k' v', Function.update T slot (some (k, w)) s =
      some (k', v') → ∃ v'', T s = some (k', v'') := by
    intro s k' v' h
    by_cases hs : s = slot
    · subst hs
      simp only [Function.update_self, Option.some.injEq,
        Prod.mk.injEq] at h
      exact ⟨v, h.1 ▸ hT⟩
    · rw [Function.update_of_ne hs] at h
      exact ⟨v', h⟩
  refine ⟨fun s hsn k' v' h x hx hlt => ?_,
    fun s hsn s' hsn' k' v₁ v₂ h₁ h₂ => ?_⟩
  · obtain ⟨v'', h''⟩ := hkey s k' v' h
    have := hc.path s hsn k' v'' h'' x hx hlt
    by_cases hxs : x = slot
    · simp [hxs]
    · rwa [Function.update_of_ne hxs]
  · obtain ⟨_, h₁'⟩ := hkey s k' v₁ h₁
    obtain ⟨_, h₂'⟩ := hkey s' k' v₂ h₂
    exact hc.inj s hsn s' hsn' k' _ _ h₁' h₂'

section Write

variable {k : κ} {w : ν} {slot : ℕ} (hk : home k < n)
  (hc : Chained n home T) (hs : Searched n home T k slot)
  (hT : T slot = none ∨ ∃ v, T slot = some (k, v))

include hk hc hs hT

/-- An entry is written where the walk for its key stops. -/
theorem chained_write :
    Chained n home (Function.update T slot (some (k, w))) := by
  rcases hT with hnone | ⟨v, hv⟩
  · exact chained_place hk hc hs hnone
  · exact chained_overwrite hc hv

theorem eq_slot_of_key {s : ℕ} (hsn : s < n) {v : ν} (h : T s = some (k, v)) :
    s = slot := by
  rcases hT with hnone | ⟨v', hv'⟩
  · exact absurd ⟨s, hsn, h⟩ (searched_absent hk hc hs hnone v)
  · exact hc.inj s hsn slot hs.inRange k v v' h hv'

/-- What a table holds after `(k, w)` was written. -/
theorem holds_write [DecidableEq κ] (k' : κ) (v' : ν) :
    Holds n (Function.update T slot (some (k, w))) k' v' ↔
      if k' = k then v' = w else Holds n T k' v' := by
  have honly : ∀ s < n, ∀ v, T s = some (k, v) → s = slot :=
    fun _ hsn _ h => eq_slot_of_key hk hc hs hT hsn h
  constructor
  · rintro ⟨s, hsn, h⟩
    by_cases hslot : s = slot
    · rw [hslot, Function.update_self, Option.some.injEq, Prod.mk.injEq] at h
      rw [if_pos h.1.symm]
      exact h.2.symm
    · rw [Function.update_of_ne hslot] at h
      have hne : k' ≠ k := by
        rintro rfl
        exact hslot (honly s hsn v' h)
      rw [if_neg hne]
      exact ⟨s, hsn, h⟩
  · intro h
    by_cases hkey : k' = k
    · rw [if_pos hkey] at h
      refine ⟨slot, hs.inRange, ?_⟩
      rw [Function.update_self, hkey, h]
    · rw [if_neg hkey] at h
      obtain ⟨s, hsn, hTs⟩ := h
      refine ⟨s, hsn, ?_⟩
      rw [Function.update_of_ne, hTs]
      -- the slot written was unused or had the key `k`
      rintro rfl
      rcases hT with hnone | ⟨v, hv⟩
      · rw [hnone] at hTs
        cases hTs
      · rw [hv, Option.some.injEq, Prod.mk.injEq] at hTs
        exact hkey hTs.1.symm

end Write

/-! ## Deleting an entry by backward shift -/

theorem eq_some_of_clear {h s : ℕ} {e : κ × ν}
    (hs : Function.update T h none s = some e) : s ≠ h ∧ T s = some e := by
  have hne : s ≠ h := by
    rintro rfl
    simp at hs
  rw [Function.update_of_ne hne] at hs
  exact ⟨hne, hs⟩

/-- What is stored after the entry `(k, v)` moved from `next` to `hole`. -/
theorem eq_some_of_move {hole next s : ℕ} {k k' : κ} {v v' : ν}
    (hs : Function.update (Function.update T hole (some (k, v))) next none s =
      some (k', v')) :
    s ≠ next ∧ ((s = hole ∧ k = k' ∧ v = v') ∨
      (s ≠ hole ∧ T s = some (k', v'))) := by
  obtain ⟨hne, hs⟩ := eq_some_of_clear hs
  refine ⟨hne, ?_⟩
  by_cases h : s = hole
  · left
    rw [h, Function.update_self, Option.some.injEq, Prod.mk.injEq] at hs
    exact ⟨h, hs⟩
  · right
    rw [Function.update_of_ne h] at hs
    exact ⟨h, hs⟩

theorem move_ne_none {hole next x : ℕ} {e : κ × ν} (hx : x ≠ next)
    (h : x = hole ∨ T x ≠ none) :
    Function.update (Function.update T hole (some e)) next none x ≠ none := by
  rw [Function.update_of_ne hx]
  by_cases hxh : x = hole
  · rw [hxh, Function.update_self]
    exact Option.some_ne_none e
  · rw [Function.update_of_ne hxh]
    exact h.resolve_left hxh

/-- A deletion in progress: `hole` is unused, and the walks that still miss it
lead to slots from `next` on. -/
structure Gap (n : ℕ) (home : κ → ℕ) (T : ℕ → Option (κ × ν))
    (hole next : ℕ) : Prop where
  hole_lt : hole < n
  next_lt : next < n
  unused : T hole = none
  path : ∀ s < n, ∀ k v, T s = some (k, v) → ∀ x < n,
    steps n (home k) x < steps n (home k) s → T x ≠ none ∨
      (x = hole ∧ steps n hole next ≤ steps n hole s)
  inj : ∀ s < n, ∀ s' < n, ∀ k v v', T s = some (k, v) →
    T s' = some (k, v') → s = s'

/-- Emptying a slot opens a gap right behind it. -/
theorem gap_open {h : ℕ} (hc : Chained n home T) (hh : h < n) :
    Gap n home (Function.update T h none) h ((h + 1) % n) where
  hole_lt := hh
  next_lt := Nat.mod_lt _ (Nat.zero_lt_of_lt hh)
  unused := by simp
  path := by
    intro s hsn k v hT x hx hlt
    obtain ⟨hs, hT⟩ := eq_some_of_clear hT
    by_cases hxh : x = h
    · right
      exact ⟨hxh, steps_succ_le hh hsn hs⟩
    · left
      rw [Function.update_of_ne hxh]
      exact hc.path s hsn k v hT x hx hlt
  inj := by
    intro s hsn s' hsn' k v v' hT hT'
    exact hc.inj s hsn s' hsn' k v v' (eq_some_of_clear hT).2
      (eq_some_of_clear hT').2

/-- An entry whose walk does not come through the hole stays where it is. -/
theorem gap_skip {hole next : ℕ} {k : κ} {v : ν}
    (hg : Gap n home T hole next) (hT : T next = some (k, v))
    (hne : (next + 1) % n ≠ hole)
    (hstay : ¬ steps n (home k) hole < steps n (home k) next) :
    Gap n home T hole ((next + 1) % n) where
  hole_lt := hg.hole_lt
  next_lt := Nat.mod_lt _ (by have := hg.hole_lt; omega)
  unused := hg.unused
  path := by
    intro s hsn k' v' hT' x hx hlt
    rcases hg.path s hsn k' v' hT' x hx hlt with h | ⟨rfl, hle⟩
    · exact Or.inl h
    right
    refine ⟨rfl, ?_⟩
    rw [steps_succ hg.hole_lt hg.next_lt hne]
    -- only the slot `next` itself could be at exactly this distance
    have hsne : s ≠ next := by
      rintro rfl
      rw [hT] at hT'
      simp only [Option.some.injEq, Prod.mk.injEq] at hT'
      rw [← hT'.1] at hlt
      exact hstay hlt
    have hd : steps n x next ≠ steps n x s :=
      fun h => hsne (steps_inj hg.hole_lt hsn hg.next_lt h.symm)
    omega
  inj := hg.inj

/-- An entry whose walk comes through the hole fills it and leaves the hole
behind at its own slot. -/
theorem gap_shift {hole next : ℕ} {k : κ} {v : ν}
    (hg : Gap n home T hole next) (hT : T next = some (k, v))
    (hmove : steps n (home k) hole < steps n (home k) next) :
    Gap n home (Function.update (Function.update T hole (some (k, v)))
      next none) next ((next + 1) % n) where
  hole_lt := hg.next_lt
  next_lt := Nat.mod_lt _ (Nat.zero_lt_of_lt hg.hole_lt)
  unused := Function.update_self ..
  path := by
    intro s hsn k' v' hT' x hx hlt
    obtain ⟨hsne, hsource⟩ := eq_some_of_move hT'
    by_cases hxn : x = next
    · right
      exact ⟨hxn, steps_succ_le hg.next_lt hsn hsne⟩
    left
    apply move_ne_none hxn
    by_cases hxh : x = hole
    · exact Or.inl hxh
    right
    -- the moved entry walked up to `next` before, all others as now
    rcases hsource with ⟨rfl, rfl, rfl⟩ | ⟨_, hTs⟩
    · have := hg.path next hg.next_lt k v hT x hx (hlt.trans hmove)
      exact this.resolve_right fun h => hxh h.1
    · have := hg.path s hsn k' v' hTs x hx hlt
      exact this.resolve_right fun h => hxh h.1
  inj := by
    intro s hsn s' hsn' k' v₁ v₂ h₁ h₂
    obtain ⟨hne₁, hsource₁⟩ := eq_some_of_move h₁
    obtain ⟨hne₂, hsource₂⟩ := eq_some_of_move h₂
    rcases hsource₁ with ⟨rfl, rfl, -⟩ | ⟨-, hT₁⟩
    · rcases hsource₂ with ⟨rfl, -, -⟩ | ⟨-, hT₂⟩
      · rfl
      · exact absurd (hg.inj s' hsn' next hg.next_lt k v₂ v hT₂ hT) hne₂
    · rcases hsource₂ with ⟨rfl, rfl, -⟩ | ⟨-, hT₂⟩
      · exact absurd (hg.inj s hsn next hg.next_lt k v₁ v hT₁ hT) hne₁
      · exact hg.inj s hsn s' hsn' k' v₁ v₂ hT₁ hT₂

/-- Moving an entry into the hole does not change what is stored. -/
theorem holds_shift {hole next : ℕ} {k : κ} {v : ν}
    (hg : Gap n home T hole next) (hT : T next = some (k, v)) (k' : κ)
    (v' : ν) :
    Holds n (Function.update (Function.update T hole (some (k, v)))
      next none) k' v' ↔ Holds n T k' v' := by
  have hhn : hole ≠ next := by
    rintro rfl
    rw [hg.unused] at hT
    cases hT
  constructor
  · rintro ⟨s, hsn, h⟩
    obtain ⟨-, ⟨-, rfl, rfl⟩ | ⟨-, hTs⟩⟩ := eq_some_of_move h
    · exact ⟨next, hg.next_lt, hT⟩
    · exact ⟨s, hsn, hTs⟩
  · rintro ⟨s, hsn, h⟩
    by_cases hs : s = next
    · refine ⟨hole, hg.hole_lt, ?_⟩
      rw [Function.update_of_ne hhn, Function.update_self, ← hT, ← hs, h]
    · have hsh : s ≠ hole := by
        rintro rfl
        rw [hg.unused] at h
        cases h
      refine ⟨s, hsn, ?_⟩
      rw [Function.update_of_ne hs, Function.update_of_ne hsh, h]

/-- The loop may stop at the first unused slot: no walk misses the hole. -/
theorem gap_close {hole next : ℕ} (hhome : ∀ k, home k < n)
    (hg : Gap n home T hole next) (hT : T next = none)
    (hne : next ≠ hole) : Chained n home T := by
  refine ⟨fun s hsn k v hTs x hx hlt => ?_, hg.inj⟩
  rcases hg.path s hsn k v hTs x hx hlt with h | ⟨rfl, hle⟩
  · exact h
  exfalso
  have hsne : s ≠ next := by
    rintro rfl
    rw [hT] at hTs
    simp at hTs
  have hlt' : steps n x next < steps n x s := by
    have : steps n x next ≠ steps n x s :=
      fun h => hsne (steps_inj hg.hole_lt hsn hg.next_lt h.symm)
    omega
  have hnext := steps_through (hhome k) hx hg.next_lt hsn hlt hlt'
  rcases hg.path s hsn k v hTs next hg.next_lt hnext with h | h
  · exact h hT
  · exact hne h.1

/-- What a table holds after the entry at `h` was emptied. -/
theorem holds_remove {h : ℕ} {k : κ} {v : ν} (hc : Chained n home T)
    (hh : h < n) (hT : T h = some (k, v)) (k' : κ) (v' : ν) :
    Holds n (Function.update T h none) k' v' ↔ k' ≠ k ∧ Holds n T k' v' := by
  constructor
  · rintro ⟨s, hsn, hs⟩
    obtain ⟨hne, hs⟩ := eq_some_of_clear hs
    refine ⟨?_, s, hsn, hs⟩
    rintro rfl
    exact hne (hc.inj s hsn h hh k' v' v hs hT)
  · rintro ⟨hne, s, hsn, hs⟩
    refine ⟨s, hsn, ?_⟩
    rw [Function.update_of_ne, hs]
    rintro rfl
    rw [hT] at hs
    exact hne (Prod.mk.inj (Option.some.inj hs)).1.symm

end LinearProbing
