import Mathlib.Algebra.BigOperators.Group.Finset.Basic
import Mathlib.Order.Interval.Finset.Nat
import Mathlib.Tactic
import Itch.Framework.Transducer

/-!
# Frontiers of numbered streams

Ranges of numbers arrive for each of many keys, in any order and with
repetitions. `observe` keeps one number a key, the frontier: the first number
that nothing was heard of yet. A range that begins beyond it leaves a gap.

§1 is the tracker. §2 says what a run makes of the frontiers, §3 what the
counters add up to, §4 that the gaps of a key are apart, and §5 when the
numbers counted are the numbers heard of.
-/

namespace Frontier

open Transducer

/-! ## §1  The tracker -/

/-- The numbers `first`, `first + 1`, .., `count` of them. -/
structure Span (κ : Type*) where
  key : κ
  first : ℕ
  count : ℕ

/-- The number behind a span. -/
def Span.stop {κ : Type*} (x : Span κ) : ℕ := x.first + x.count

structure State (κ : Type*) where
  next : κ → Option ℕ := fun _ => none
  seen : ℕ := 0
  missing : ℕ := 0

/-- The numbers from `expected` up to `received` are missing. -/
structure Gap (κ : Type*) where
  key : κ
  expected : ℕ
  received : ℕ

variable {κ : Type*} [DecidableEq κ]

/-- The first span of a key sets its frontier. After that only the part of a
span beyond the frontier counts. -/
def observe (s : State κ) (x : Span κ) : State κ × List (Gap κ) :=
  match s.next x.key with
  | none =>
      ({ s with
        next := Function.update s.next x.key (some x.stop)
        seen := s.seen + x.count }, [])
  | some e =>
      ({ next := Function.update s.next x.key (some (max e x.stop))
         seen := s.seen + (x.stop - max e x.first)
         missing := s.missing + (x.first - e) },
        if e < x.first then [⟨x.key, e, x.first⟩] else [])

/-- The frontier that a span leaves behind it. -/
def Span.advance (x : Span κ) (e : Option ℕ) : ℕ := max (e.getD 0) x.stop

variable {s : State κ} {x : Span κ} {xs : List (Span κ)} {k : κ}

theorem next_observe (s : State κ) (x : Span κ) :
    (observe s x).1.next =
      Function.update s.next x.key (some (x.advance (s.next x.key))) := by
  rw [observe]
  cases h : s.next x.key with
  | none => simp [Span.advance]
  | some e => rfl

theorem next_observe_other (h : k ≠ x.key) :
    (observe s x).1.next k = s.next k := by
  rw [next_observe, Function.update_of_ne h]

/-! ## §2  The frontiers -/

/-- The spans of one key. -/
def ofKey (k : κ) (xs : List (Span κ)) : List (Span κ) :=
  xs.filter (fun x => decide (x.key = k))

/-- The largest number behind a span of the key. -/
def frontier (xs : List (Span κ)) (k : κ) : Option ℕ :=
  ((ofKey k xs).map Span.stop).max?

/-- The number at which the first span of the key begins. -/
def anchor (xs : List (Span κ)) (k : κ) : Option ℕ :=
  (ofKey k xs).head?.map Span.first

theorem max?_snoc (ns : List ℕ) (n : ℕ) :
    (ns ++ [n]).max? = some (max (ns.max?.getD 0) n) := by
  cases ns with
  | nil => simp
  | cons m ns =>
      rw [List.cons_append, List.max?_cons', List.foldl_append, List.max?_cons']
      rfl

theorem ofKey_snoc_self (xs : List (Span κ)) (x : Span κ) :
    ofKey x.key (xs ++ [x]) = ofKey x.key xs ++ [x] := by
  simp [ofKey]

theorem ofKey_snoc_other (xs : List (Span κ)) (h : k ≠ x.key) :
    ofKey k (xs ++ [x]) = ofKey k xs := by
  simp [ofKey, Ne.symm h]

theorem frontier_snoc_self (xs : List (Span κ)) (x : Span κ) :
    frontier (xs ++ [x]) x.key = some (x.advance (frontier xs x.key)) := by
  rw [frontier, ofKey_snoc_self, List.map_append, List.map_singleton,
    max?_snoc]
  rfl

theorem frontier_snoc_other (xs : List (Span κ)) (h : k ≠ x.key) :
    frontier (xs ++ [x]) k = frontier xs k := by
  rw [frontier, ofKey_snoc_other xs h, frontier]

theorem anchor_snoc_self (xs : List (Span κ)) (x : Span κ) :
    anchor (xs ++ [x]) x.key = some ((anchor xs x.key).getD x.first) := by
  rw [anchor, ofKey_snoc_self, anchor]
  cases ofKey x.key xs <;> rfl

theorem anchor_snoc_other (xs : List (Span κ)) (h : k ≠ x.key) :
    anchor (xs ++ [x]) k = anchor xs k := by
  rw [anchor, ofKey_snoc_other xs h, anchor]

/-- The tracker keeps the frontier of each key. -/
theorem next_run (xs : List (Span κ)) :
    (run observe {} xs).1.next = frontier xs := by
  induction xs using List.reverseRecOn with
  | nil => rfl
  | append_singleton xs x ih =>
      funext k
      rw [run_snoc, next_observe, ih]
      by_cases hk : k = x.key
      · subst hk
        rw [Function.update_self, frontier_snoc_self]
      · rw [Function.update_of_ne hk, frontier_snoc_other xs hk]

/-- A key has a frontier and an anchor once it has been heard of. -/
theorem frontier_eq_none_iff : frontier xs k = none ↔ ofKey k xs = [] := by
  rw [frontier, List.max?_eq_none_iff, List.map_eq_nil_iff]

theorem anchor_eq_none_iff : anchor xs k = none ↔ ofKey k xs = [] := by
  rw [anchor, Option.map_eq_none_iff, List.head?_eq_none_iff]

theorem exists_anchor {e : ℕ} (h : frontier xs k = some e) :
    ∃ a, anchor xs k = some a := by
  rw [← Option.ne_none_iff_exists', Ne, anchor_eq_none_iff,
    ← frontier_eq_none_iff, h]
  exact Option.some_ne_none e

theorem anchor_le_frontier (xs : List (Span κ)) (k : κ) :
    (anchor xs k).getD 0 ≤ (frontier xs k).getD 0 := by
  induction xs using List.reverseRecOn with
  | nil => exact le_rfl
  | append_singleton xs x ih =>
      by_cases hk : k = x.key
      · subst hk
        rw [anchor_snoc_self, frontier_snoc_self]
        show (anchor xs x.key).getD x.first ≤ max _ x.stop
        cases ha : anchor xs x.key with
        | none => exact le_max_of_le_right (Nat.le_add_right _ _)
        | some a =>
            rw [ha] at ih
            exact le_max_of_le_left ih
      · rw [anchor_snoc_other xs hk, frontier_snoc_other xs hk]
        exact ih

/-! ## §3  The counters -/

/-- The keys heard of. -/
def keys (xs : List (Span κ)) : Finset κ := (xs.map Span.key).toFinset

/-- How many numbers lie between the anchor of a key and its frontier. -/
def extent (xs : List (Span κ)) (k : κ) : ℕ :=
  (frontier xs k).getD 0 - (anchor xs k).getD 0

/-- The numbers that a span adds to the extent of its key. -/
def Span.growth (x : Span κ) : Option ℕ → ℕ
  | none => x.count
  | some e => x.stop - e

/-- From its anchor on, the extent of a key reaches up to its frontier. -/
theorem anchor_add_extent {a e : ℕ} (ha : anchor xs k = some a)
    (he : frontier xs k = some e) : a + extent xs k = e := by
  have hle := anchor_le_frontier xs k
  rw [ha, he] at hle
  rw [extent, ha, he]
  exact Nat.add_sub_cancel' hle

theorem keys_snoc (xs : List (Span κ)) (x : Span κ) :
    keys (xs ++ [x]) = insert x.key (keys xs) := by
  simp [keys, Finset.union_comm]

theorem ofKey_eq_nil_iff : ofKey k xs = [] ↔ k ∉ keys xs := by
  simp [ofKey, keys, List.filter_eq_nil_iff]

theorem extent_of_notMem (h : k ∉ keys xs) : extent xs k = 0 := by
  rw [extent, frontier_eq_none_iff.mpr (ofKey_eq_nil_iff.mpr h)]
  exact Nat.zero_sub _

/-- A span beyond the frontier adds what it leaves missing and what it brings,
any other the part of it beyond the frontier. -/
theorem counters_observe (s : State κ) (x : Span κ) :
    (observe s x).1.seen + (observe s x).1.missing =
      s.seen + s.missing + x.growth (s.next x.key) := by
  rw [observe]
  cases s.next x.key with
  | none => simp only [Span.growth]; omega
  | some e => simp only [Span.growth, Span.stop]; omega

theorem extent_snoc_self (xs : List (Span κ)) (x : Span κ) :
    extent (xs ++ [x]) x.key =
      extent xs x.key + x.growth (frontier xs x.key) := by
  have hle := anchor_le_frontier xs x.key
  rw [extent, frontier_snoc_self, anchor_snoc_self, extent]
  cases hf : frontier xs x.key with
  | none =>
      rw [anchor_eq_none_iff.mpr (frontier_eq_none_iff.mp hf)]
      simp [Span.advance, Span.growth, Span.stop]
  | some e =>
      cases ha : anchor xs x.key with
      | none =>
          rw [frontier_eq_none_iff.mpr (anchor_eq_none_iff.mp ha)] at hf
          exact absurd hf.symm (Option.some_ne_none e)
      | some a =>
          rw [hf, ha] at hle
          simp only [Option.getD_some, Span.advance, Span.growth] at hle ⊢
          omega

theorem extent_snoc_other (xs : List (Span κ)) (h : k ≠ x.key) :
    extent (xs ++ [x]) k = extent xs k := by
  rw [extent, frontier_snoc_other xs h, anchor_snoc_other xs h, extent]

/-- Between the anchors and the frontiers every number is counted once, as
seen or as missing. -/
theorem seen_add_missing (xs : List (Span κ)) :
    (run observe {} xs).1.seen + (run observe {} xs).1.missing =
      ∑ k ∈ keys xs, extent xs k := by
  induction xs using List.reverseRecOn with
  | nil => rfl
  | append_singleton xs x ih =>
      have hold : ∑ k ∈ insert x.key (keys xs), extent xs k =
          ∑ k ∈ keys xs, extent xs k :=
        Finset.sum_insert_of_eq_zero_if_notMem extent_of_notMem
      -- only the extent of the key of the span grows
      have hnew : ∀ k ∈ insert x.key (keys xs), extent (xs ++ [x]) k =
          extent xs k +
            if k = x.key then x.growth (frontier xs x.key) else 0 := by
        intro k _
        by_cases hk : k = x.key
        · subst hk
          rw [if_pos rfl, extent_snoc_self]
        · rw [if_neg hk, extent_snoc_other xs hk, add_zero]
      rw [run_snoc, counters_observe, ih, next_run, keys_snoc,
        Finset.sum_congr rfl hnew, Finset.sum_add_distrib, hold,
        Finset.sum_ite_eq', if_pos (Finset.mem_insert_self _ _)]

/-! ## §4  The gaps -/

/-- The gaps of one key, the oldest first. -/
def gapsOf (k : κ) (gs : List (Gap κ)) : List (Gap κ) :=
  gs.filter (fun g => decide (g.key = k))

/-- The gaps of a key are not empty, each one ends where or before the next
begins, and all end where or before the frontier is. -/
structure Apart (next : κ → Option ℕ) (gs : List (Gap κ)) : Prop where
  nonempty : ∀ g ∈ gs, g.expected < g.received
  increasing : ∀ k, (gapsOf k gs).Pairwise fun g h => g.received ≤ h.expected
  below : ∀ g ∈ gs, ∃ e ∈ next g.key, g.received ≤ e

theorem mem_observe {g : Gap κ} (h : g ∈ (observe s x).2) :
    ∃ e, s.next x.key = some e ∧ e < x.first ∧ g = ⟨x.key, e, x.first⟩ := by
  rw [observe] at h
  cases hn : s.next x.key with
  | none =>
      rw [hn] at h
      exact absurd h List.not_mem_nil
  | some e =>
      rw [hn] at h
      dsimp only at h
      split at h
      · rename_i hlt
        exact ⟨e, rfl, hlt, List.mem_singleton.mp h⟩
      · exact absurd h List.not_mem_nil

theorem length_observe_le (s : State κ) (x : Span κ) :
    (observe s x).2.length ≤ 1 := by
  rw [observe]
  cases s.next x.key with
  | none => exact Nat.zero_le 1
  | some e =>
      dsimp only
      split <;> simp

/-- The frontier of a key never moves back. -/
theorem le_next_observe {e : ℕ} (h : s.next k = some e) (x : Span κ) :
    ∃ e' ∈ (observe s x).1.next k, e ≤ e' := by
  by_cases hk : k = x.key
  · subst hk
    rw [next_observe, Function.update_self]
    refine ⟨_, rfl, ?_⟩
    rw [h]
    exact le_max_left _ _
  · rw [next_observe_other hk]
    exact ⟨e, h, le_rfl⟩

theorem Apart.observe {gs : List (Gap κ)} (h : Apart s.next gs)
    (x : Span κ) :
    Apart (Frontier.observe s x).1.next (gs ++ (Frontier.observe s x).2) where
  nonempty g hg := by
    rcases List.mem_append.mp hg with hg | hg
    · exact h.nonempty g hg
    · obtain ⟨e, -, hlt, rfl⟩ := mem_observe hg
      exact hlt
  increasing k := by
    rw [gapsOf, List.filter_append, List.pairwise_append]
    -- a span leaves at most one gap, which begins at the frontier
    refine ⟨h.increasing k, ?_, ?_⟩
    · have hlen := (List.length_filter_le (fun g => decide (g.key = k))
        (Frontier.observe s x).2).trans (length_observe_le s x)
      generalize List.filter _ (Frontier.observe s x).2 = ys at hlen
      match ys, hlen with
      | [], _ => exact List.Pairwise.nil
      | [g], _ => exact List.pairwise_singleton _ g
    · intro g hg g' hg'
      rw [List.mem_filter, decide_eq_true_eq] at hg hg'
      obtain ⟨e, hn, -, rfl⟩ := mem_observe hg'.1
      obtain ⟨e', hn', hle⟩ := h.below g hg.1
      rw [hg.2, ← hg'.2, hn] at hn'
      cases hn'
      exact hle
  below g hg := by
    rcases List.mem_append.mp hg with hg | hg
    · obtain ⟨e, hn, hle⟩ := h.below g hg
      obtain ⟨e', hn', hle'⟩ := le_next_observe hn x
      exact ⟨e', hn', hle.trans hle'⟩
    · obtain ⟨e, hn, hlt, rfl⟩ := mem_observe hg
      rw [next_observe, Function.update_self]
      refine ⟨_, rfl, ?_⟩
      exact le_max_of_le_right (Nat.le_add_right _ _)

theorem apart_run (xs : List (Span κ)) :
    Apart (run observe {} xs).1.next (run observe {} xs).2 := by
  have hstart : Apart (fun _ : κ => none) [] :=
    ⟨by simp, fun k => List.Pairwise.nil, by simp⟩
  exact run_history (fun (s : State κ) gs x (h : Apart s.next gs) =>
    h.observe x) hstart xs

/-! ## §5  The numbers heard of -/

/-- The numbers of a span, each with its key. -/
def Span.numbers (x : Span κ) : Finset (κ × ℕ) :=
  (Finset.Ico x.first x.stop).map (Function.Embedding.sectR x.key ℕ)

/-- The numbers heard of. -/
def heard : List (Span κ) → Finset (κ × ℕ)
  | [] => ∅
  | x :: xs => x.numbers ∪ heard xs

/-- No number of the span is below the frontier of its key, and new. -/
def Span.OnTime (x : Span κ) (xs : List (Span κ)) : Prop :=
  ∀ n, x.first ≤ n → n < x.stop → n < (frontier xs x.key).getD 0 →
    (x.key, n) ∈ heard xs

/-- Each span is on time when it arrives. -/
def OnTime (xs : List (Span κ)) : Prop :=
  ∀ pre x, pre ++ [x] <+: xs → x.OnTime pre

omit [DecidableEq κ] in
theorem mem_numbers {n : ℕ} :
    (k, n) ∈ x.numbers ↔ x.key = k ∧ x.first ≤ n ∧ n < x.stop := by
  simp only [Span.numbers, Finset.mem_map, Finset.mem_Ico,
    Function.Embedding.sectR_apply, Prod.mk.injEq]
  constructor
  · rintro ⟨m, hm, rfl, rfl⟩
    exact ⟨rfl, hm⟩
  · rintro ⟨rfl, hn⟩
    exact ⟨n, hn, rfl, rfl⟩

theorem heard_snoc (xs : List (Span κ)) (x : Span κ) :
    heard (xs ++ [x]) = heard xs ∪ x.numbers := by
  induction xs with
  | nil => simp [heard]
  | cons y ys ih => rw [List.cons_append, heard, ih, heard, Finset.union_assoc]

/-- Every number heard of is below the frontier. -/
theorem lt_frontier {n : ℕ} (h : (k, n) ∈ heard xs) :
    ∃ e, frontier xs k = some e ∧ n < e := by
  induction xs using List.reverseRecOn with
  | nil => exact absurd h (Finset.notMem_empty _)
  | append_singleton xs x ih =>
      rw [heard_snoc, Finset.mem_union, mem_numbers] at h
      by_cases hk : k = x.key
      · subst hk
        refine ⟨_, frontier_snoc_self xs x, ?_⟩
        rcases h with h | ⟨-, -, h⟩
        · obtain ⟨e, he, hn⟩ := ih h
          rw [he]
          exact lt_max_of_lt_left hn
        · exact lt_max_of_lt_right h
      · rw [frontier_snoc_other xs hk]
        rcases h with h | ⟨h, -⟩
        · exact ih h
        · exact absurd h.symm hk

theorem onTime_snoc (xs : List (Span κ)) (x : Span κ) :
    OnTime (xs ++ [x]) ↔ OnTime xs ∧ x.OnTime xs := by
  constructor
  · intro h
    exact ⟨fun pre y hpre => h pre y (hpre.trans (List.prefix_append xs [x])),
      h xs x (List.prefix_refl _)⟩
  · rintro ⟨hxs, hx⟩ pre y hpre
    rcases List.prefix_concat_iff.mp hpre with heq | hpre
    · obtain ⟨rfl, hy⟩ := List.append_inj' heq rfl
      cases hy
      exact hx
    · exact hxs pre y hpre

theorem card_numbers_sdiff_none (h : frontier xs x.key = none) :
    (x.numbers \ heard xs).card = x.count := by
  have hdisj : Disjoint x.numbers (heard xs) := by
    refine Finset.disjoint_left.mpr fun ⟨k, n⟩ hn hn' => ?_
    obtain ⟨rfl, -⟩ := mem_numbers.mp hn
    obtain ⟨e, he, -⟩ := lt_frontier hn'
    rw [h] at he
    exact Option.some_ne_none e he.symm
  rw [Finset.sdiff_eq_self_of_disjoint hdisj, Span.numbers, Finset.card_map,
    Nat.card_Ico, Span.stop, Nat.add_sub_cancel_left]

/-- Of the new numbers of a span those beyond the frontier are counted, and
the others are not. -/
theorem card_numbers_sdiff_some {e : ℕ} (h : frontier xs x.key = some e) :
    (x.numbers \ heard xs).card = x.stop - max e x.first +
      ((x.numbers \ heard xs).filter (fun p => p.2 < e)).card := by
  have hbeyond : (x.numbers \ heard xs).filter (fun p => ¬p.2 < e) =
      (Finset.Ico (max e x.first) x.stop).map
        (Function.Embedding.sectR x.key ℕ) := by
    ext ⟨k, n⟩
    rw [Finset.mem_filter, Finset.mem_sdiff, mem_numbers, Finset.mem_map]
    simp only [Finset.mem_Ico, Function.Embedding.sectR_apply, Prod.mk.injEq]
    constructor
    · rintro ⟨⟨⟨hk, hfirst, hstop⟩, -⟩, he⟩
      exact ⟨n, ⟨max_le (not_lt.mp he) hfirst, hstop⟩, hk, rfl⟩
    · rintro ⟨m, ⟨hm, hstop⟩, rfl, rfl⟩
      have he : e ≤ m := le_of_max_le_left hm
      refine ⟨⟨⟨rfl, le_of_max_le_right hm, hstop⟩, fun hn => ?_⟩,
        not_lt.mpr he⟩
      obtain ⟨e', he', hlt⟩ := lt_frontier hn
      rw [h] at he'
      cases he'
      exact absurd he (not_le.mpr hlt)
  rw [← Finset.card_filter_add_card_filter_not (fun p => p.2 < e), hbeyond,
    Finset.card_map, Nat.card_Ico, Nat.add_comm]

theorem card_late_eq_zero {e : ℕ} (h : frontier xs x.key = some e) :
    ((x.numbers \ heard xs).filter (fun p => p.2 < e)).card = 0 ↔
      x.OnTime xs := by
  rw [Finset.card_eq_zero, Finset.filter_eq_empty_iff, Span.OnTime, h]
  constructor
  · intro hlate n hfirst hstop hlt
    by_contra hn
    have hnew : (x.key, n) ∈ x.numbers \ heard xs :=
      Finset.mem_sdiff.mpr ⟨mem_numbers.mpr ⟨rfl, hfirst, hstop⟩, hn⟩
    exact hlate hnew hlt
  · rintro htime ⟨k, n⟩ hn hlt
    obtain ⟨hn, hnew⟩ := Finset.mem_sdiff.mp hn
    obtain ⟨rfl, hfirst, hstop⟩ := mem_numbers.mp hn
    exact hnew (htime n hfirst hstop hlt)

/-- The tracker counts no more than what was heard of, and all of it exactly
when every span was on time. -/
theorem seen_run (xs : List (Span κ)) :
    (run observe {} xs).1.seen ≤ (heard xs).card ∧
      ((run observe {} xs).1.seen = (heard xs).card ↔ OnTime xs) := by
  induction xs using List.reverseRecOn with
  | nil =>
      refine ⟨Nat.zero_le _, iff_of_true rfl fun pre x hpre => ?_⟩
      exact absurd (List.prefix_nil.mp hpre) (by simp)
  | append_singleton xs x ih =>
      obtain ⟨hle, hiff⟩ := ih
      have hcard : (heard (xs ++ [x])).card =
          (heard xs).card + (x.numbers \ heard xs).card := by
        rw [heard_snoc, Finset.union_comm, Finset.card_union, Nat.add_comm]
        have := Finset.card_sdiff_add_card_inter x.numbers (heard xs)
        omega
      have hnext := congrFun (next_run xs) x.key
      rw [run_snoc, hcard, onTime_snoc, ← hiff]
      show (observe _ x).1.seen ≤ _ ∧ _
      rw [observe]
      cases hf : frontier xs x.key with
      | none =>
          rw [hnext, hf, card_numbers_sdiff_none hf]
          have htime : x.OnTime xs := by
            intro n _ _ hn
            rw [hf] at hn
            exact absurd hn (Nat.not_lt_zero n)
          simp only [htime, and_true]
          omega
      | some e =>
          have hlate := card_late_eq_zero hf
          rw [hnext, hf, card_numbers_sdiff_some hf, ← hlate]
          dsimp only
          omega

end Frontier
