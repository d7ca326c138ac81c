import Itch.Basic
import Itch.Framework.SortedLadder

/-!
# Lookup tables

§1 is a table that is sorted once and searched by bisection, §2 says that a
lookup finds what the table was made of. §3 is the tables of the analytics.
-/

namespace Itch

open SortedLadder

/-! ## §1  Tables -/

/-- `FrozenMap`, for keys compared by `r`. What `std::ranges::sort` makes of
entries with equal keys is left open. -/
structure FrozenMap {κ : Type} (r : κ → κ → Bool) (given : List (κ × Str)) where
  entries : List (κ × Str)
  perm : entries.Perm given
  sorted : entries.Pairwise fun a b => r b.1 a.1 = false

namespace FrozenMap

variable {κ : Type} {r : κ → κ → Bool} {given : List (κ × Str)}

/-- Sorted by a stable sort. -/
def ofEntries (hr : Priority r) (given : List (κ × Str)) : FrozenMap r given where
  entries := given.mergeSort fun a b => !r b.1 a.1
  perm := given.mergeSort_perm _
  sorted := by
    have hnot {a b : κ × Str} (h : (!r b.1 a.1) = true) : r b.1 a.1 = false :=
      by
      rwa [Bool.not_eq_true'] at h
    refine (List.pairwise_mergeSort ?_ ?_ given).imp hnot
    · intro a b c hab hbc
      rw [Bool.not_eq_true'] at hab hbc ⊢
      by_contra hca
      rw [Bool.not_eq_false] at hca
      -- `b` is on one side of `a`, or it has its key
      rcases hr.total a.1 b.1 with h | h | h
      · rw [hr.trans hca h] at hbc
        cases hbc
      · rw [← h, hca] at hbc
        cases hbc
      · rw [h] at hab
        cases hab
    · intro a b
      rcases hr.total a.1 b.1 with h | h | h
      · simp [Bool.eq_false_iff.mpr (hr.asymm h)]
      · simp [h, hr.irrefl]
      · simp [Bool.eq_false_iff.mpr (hr.asymm h)]

variable [DecidableEq κ]

def find (m : FrozenMap r given) (key : κ) : Option Str :=
  match m.entries[lowerBound r Prod.fst m.entries key]? with
  | some entry => if entry.1 = key then some entry.2 else none
  | none => none

def atOr (m : FrozenMap r given) (key : κ) (fallback : Str) : Str :=
  (m.find key).getD fallback

/-! ## §2  Lookups -/

/-- The bisection finds what a search from the front finds. -/
theorem find_eq (hr : Priority r) (m : FrozenMap r given) (key : κ) :
    m.find key = (m.entries.find? (·.1 = key)).map Prod.snd := by
  rw [find]
  have hsorted := m.sorted
  generalize m.entries = xs at hsorted ⊢
  induction xs with
  | nil => rfl
  | cons x xs ih =>
    obtain ⟨hx, hxs⟩ := List.pairwise_cons.mp hsorted
    cases hlt : r x.1 key with
    | true =>
      have hne := hr.ne hlt
      have hbound : lowerBound r Prod.fst (x :: xs) key =
          lowerBound r Prod.fst xs key + 1 := by
        simp [lowerBound, List.findIdx_cons, hlt]
      rw [hbound, List.getElem?_cons_succ, List.find?_cons_of_neg (by simpa)]
      exact ih hxs
    | false =>
      have hbound : lowerBound r Prod.fst (x :: xs) key = 0 := by
        simp [lowerBound, List.findIdx_cons, hlt]
      rw [hbound, List.getElem?_cons_zero]
      dsimp only
      by_cases heq : x.1 = key
      · rw [if_pos heq, List.find?_cons_of_pos (by simpa)]
        rfl
      · rw [if_neg heq, List.find?_cons_of_neg (by simpa)]
        -- everything behind `x` comes after the key as well
        have hafter : xs.find? (·.1 = key) = none := by
          rw [List.find?_eq_none]
          intro y hy hkey
          have hyx := hx y hy
          rw [of_decide_eq_true hkey] at hyx
          rcases hr.total x.1 key with h | h | h
          · rw [hlt] at h
            cases h
          · exact heq h
          · rw [hyx] at h
            cases h
        rw [hafter]
        rfl

theorem find_eq_none_iff (hr : Priority r) (m : FrozenMap r given) (key : κ) :
    m.find key = none ↔ key ∉ given.map Prod.fst := by
  rw [find_eq hr, Option.map_eq_none_iff, List.find?_eq_none, List.mem_map]
  constructor
  · rintro h ⟨entry, hentry, hkey⟩
    exact h entry (m.perm.mem_iff.mpr hentry) (decide_eq_true hkey)
  · intro h entry hentry hkey
    exact h ⟨entry, m.perm.mem_iff.mp hentry, of_decide_eq_true hkey⟩

theorem mem_of_find (hr : Priority r) (m : FrozenMap r given) {key : κ}
    {description : Str} (h : m.find key = some description) :
    (key, description) ∈ given := by
  rw [find_eq hr, Option.map_eq_some_iff] at h
  obtain ⟨entry, hentry, rfl⟩ := h
  have hkey : decide (entry.1 = key) = true :=
    List.find?_some (p := fun x : κ × Str => decide (x.1 = key)) hentry
  rw [← of_decide_eq_true hkey]
  exact m.perm.mem_iff.mp (List.mem_of_find?_eq_some hentry)

theorem exists_find (hr : Priority r) (m : FrozenMap r given) {key : κ}
    (h : key ∈ given.map Prod.fst) :
    ∃ description, m.find key = some description := by
  rw [← Option.ne_none_iff_exists']
  intro hnone
  exact (m.find_eq_none_iff hr key).mp hnone h

theorem find_of_mem (hr : Priority r) (m : FrozenMap r given)
    (hnodup : (given.map Prod.fst).Nodup) {key : κ} {description : Str}
    (h : (key, description) ∈ given) : m.find key = some description := by
  obtain ⟨description', hfind⟩ := m.exists_find hr (List.mem_map_of_mem h)
  have heq := List.inj_on_of_nodup_map hnodup h (m.mem_of_find hr hfind) rfl
  rw [hfind, (Prod.mk.inj heq).2]

/-- Of distinct keys, a lookup is a search through the entries as given. -/
theorem atOr_eq (hr : Priority r) (m : FrozenMap r given)
    (hnodup : (given.map Prod.fst).Nodup) (key : κ) (fallback : Str) :
    m.atOr key fallback =
      ((given.find? (·.1 = key)).map Prod.snd).getD fallback := by
  rw [atOr]
  cases hfind : given.find? (·.1 = key) with
  | none =>
    have habsent : key ∉ given.map Prod.fst := by
      rw [List.mem_map]
      rintro ⟨entry, hentry, hkey⟩
      exact List.find?_eq_none.mp hfind entry hentry (decide_eq_true hkey)
    rw [(m.find_eq_none_iff hr key).mpr habsent]
    rfl
  | some entry =>
    have hkey : decide (entry.1 = key) = true :=
      List.find?_some (p := fun x : κ × Str => decide (x.1 = key)) hfind
    have hmem := List.mem_of_find?_eq_some hfind
    rw [← of_decide_eq_true hkey, m.find_of_mem hr hnodup hmem]
    rfl

/-- **A lookup finds what the table was made of.** In whatever order the
entries were given and however equal keys were sorted, a key is found if and
only if it has an entry, and then with one of its descriptions; where the keys
are distinct, with its description. -/
theorem find_made (hr : Priority r) (m : FrozenMap r given) (key : κ) :
    (∀ fallback, key ∉ given.map Prod.fst → m.atOr key fallback = fallback) ∧
      (key ∈ given.map Prod.fst → ∃ description, (key, description) ∈ given ∧
        ∀ fallback, m.atOr key fallback = description) ∧
      ((given.map Prod.fst).Nodup → ∀ description,
        (m.find key = some description ↔ (key, description) ∈ given)) := by
  refine ⟨?_, ?_, ?_⟩
  · intro fallback h
    rw [atOr, (m.find_eq_none_iff hr key).mpr h, Option.getD_none]
  · intro h
    obtain ⟨description, hfind⟩ := m.exists_find hr h
    refine ⟨description, m.mem_of_find hr hfind, fun fallback => ?_⟩
    rw [atOr, hfind, Option.getD_some]
  · intro hnodup description
    exact ⟨m.mem_of_find hr, m.find_of_mem hr hnodup⟩

end FrozenMap

/-! ## §3  The tables of the analytics -/

/-- A `char`, compared as a signed byte. -/
def charLess (a b : UInt8) : Bool := decide (a.toInt8 < b.toInt8)

theorem charLess_priority : Priority charLess where
  irrefl a := by simp [charLess, Int8.lt_irrefl]
  trans {a b c} h h' := by
    rw [charLess, decide_eq_true_eq] at h h' ⊢
    exact Int8.lt_trans h h'
  total a b := by
    simp only [charLess, decide_eq_true_eq, Int8.lt_iff_toInt_lt]
    rcases lt_trichotomy a.toInt8.toInt b.toInt8.toInt with h | h | h
    · exact .inl h
    · right; left
      rw [← a.toUInt8_toInt8, Int8.toInt_inj.mp h, b.toUInt8_toInt8]
    · exact .inr (.inr h)

/-- The table of `cross_type_name`. -/
def crossTypes : List (UInt8 × Str) :=
  [('O'.toUInt8, literal "Opening Cross"),
    ('C'.toUInt8, literal "Closing Cross"),
    ('H'.toUInt8, literal "Cross for halted/paused security"),
    ('I'.toUInt8, literal "Intraday/IPO Cross")]

def crossTypeName (crossType : UInt8) : Str :=
  (FrozenMap.ofEntries charLess_priority crossTypes).atOr crossType
    (literal "Unknown")

/-- The table of `imbalance_direction_name`. -/
def imbalanceDirections : List (UInt8 × Str) :=
  [('B'.toUInt8, literal "Buy imbalance"),
    ('S'.toUInt8, literal "Sell imbalance"),
    ('N'.toUInt8, literal "No imbalance"),
    ('O'.toUInt8, literal "Insufficient orders to calculate"),
    ('P'.toUInt8, literal "Paused")]

def imbalanceDirectionName (direction : UInt8) : Str :=
  (FrozenMap.ofEntries charLess_priority imbalanceDirections).atOr direction
    (literal "Unknown")

theorem FrozenMap.find_made_crossTypes :
    (ofEntries charLess_priority crossTypes).find 'C'.toUInt8 =
      some (literal "Closing Cross") :=
  ((find_made charLess_priority _ 'C'.toUInt8).2.2 (by decide) _).mpr
    (by decide)

theorem crossTypeName_eq (crossType : UInt8) :
    crossTypeName crossType =
      ((crossTypes.find? (·.1 = crossType)).map Prod.snd).getD
        (literal "Unknown") :=
  FrozenMap.atOr_eq charLess_priority _ (by decide) crossType _

theorem imbalanceDirectionName_eq (direction : UInt8) :
    imbalanceDirectionName direction =
      ((imbalanceDirections.find? (·.1 = direction)).map Prod.snd).getD
        (literal "Unknown") :=
  FrozenMap.atOr_eq charLess_priority _ (by decide) direction _

end Itch
