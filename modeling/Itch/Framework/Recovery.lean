import Itch.Framework.Consecutive

/-!
# Recovering what is missing

The gaps of a tracker ask for numbers to be sent again. §1 says which numbers
they ask for, and §2 that with these nothing is missing.
-/

namespace Frontier

open Transducer

variable {κ : Type*} [DecidableEq κ] {s : State κ} {x : Span κ}
  {xs ys : List (Span κ)} {k : κ} {n : ℕ}

/-! ## §1  The numbers asked for -/

/-- The numbers of a gap, in order. -/
def Gap.range {κ : Type*} (g : Gap κ) : List ℕ :=
  List.range' g.expected (g.received - g.expected)

/-- The numbers of a key that the gaps ask for. -/
def asked (k : κ) (gs : List (Gap κ)) : List ℕ :=
  (gapsOf k gs).flatMap Gap.range

/-- The numbers of a key that the spans bring. -/
def brought (k : κ) (xs : List (Span κ)) : List ℕ :=
  (ofKey k xs).flatMap Span.range

theorem mem_gapRange {κ : Type*} {g : Gap κ} :
    n ∈ g.range ↔ g.expected ≤ n ∧ n < g.received := by
  rw [Gap.range, List.mem_range'_1]
  omega

theorem asked_append (k : κ) (gs gs' : List (Gap κ)) :
    asked k (gs ++ gs') = asked k gs ++ asked k gs' := by
  rw [asked, gapsOf, List.filter_append, List.flatMap_append]
  rfl

theorem brought_append (k : κ) (xs ys : List (Span κ)) :
    brought k (xs ++ ys) = brought k xs ++ brought k ys := by
  rw [brought, ofKey, List.filter_append, List.flatMap_append]
  rfl

theorem mem_brought : n ∈ brought k xs ↔ (k, n) ∈ heard xs := by
  rw [mem_heard, brought, List.mem_flatMap]

/-- A span asks for the numbers between the frontier and itself. -/
theorem mem_asked_observe : n ∈ asked k (observe s x).2 ↔
    x.key = k ∧ ∃ e ∈ s.next k, e ≤ n ∧ n < x.first := by
  constructor
  · intro h
    obtain ⟨g, hg, hn⟩ := List.mem_flatMap.mp h
    obtain ⟨hg, hk⟩ := List.mem_filter.mp hg
    obtain ⟨e, he, -, rfl⟩ := mem_observe hg
    obtain rfl : x.key = k := of_decide_eq_true hk
    exact ⟨rfl, e, he, mem_gapRange.mp hn⟩
  · rintro ⟨rfl, e, he, hle, hlt⟩
    refine List.mem_flatMap.mpr
      ⟨⟨x.key, e, x.first⟩, ?_, mem_gapRange.mpr ⟨hle, hlt⟩⟩
    refine List.mem_filter.mpr ⟨?_, decide_eq_true rfl⟩
    rw [observe, he]
    dsimp only
    rw [if_pos (hle.trans_lt hlt)]
    exact List.mem_singleton_self _

/-- Each number is asked for once, and lower ones first. -/
theorem asked_increasing (xs : List (Span κ)) (k : κ) :
    (asked k (run observe {} xs).2).Pairwise (· < ·) := by
  have hapart := (apart_run xs).increasing k
  rw [asked, List.pairwise_flatMap]
  refine ⟨fun g _ => List.pairwise_lt_range', ?_⟩
  refine hapart.imp fun {g g'} hle n hn n' hn' => ?_
  exact (mem_gapRange.mp hn).2.trans_le (hle.trans (mem_gapRange.mp hn').1)

/-- What is asked for is between the anchor and the frontier. -/
theorem asked_within (h : n ∈ asked k (run observe {} xs).2) :
    (∃ a ∈ anchor xs k, a ≤ n) ∧ ∃ e ∈ frontier xs k, n < e := by
  induction xs using List.reverseRecOn with
  | nil => cases h
  | append_singleton xs x ih =>
      rw [run_snoc, asked_append, List.mem_append, mem_asked_observe,
        next_run] at h
      by_cases hk : k = x.key
      · subst hk
        rw [anchor_snoc_self, frontier_snoc_self]
        rcases h with h | ⟨-, e, he, hle, hlt⟩
        · obtain ⟨⟨a, ha, hle⟩, e, he, hlt⟩ := ih h
          rw [Option.mem_def] at ha he
          rw [ha, he]
          exact ⟨⟨a, rfl, hle⟩, _, rfl, lt_max_of_lt_left hlt⟩
        · have hanchor := anchor_le_frontier xs x.key
          obtain ⟨a, ha⟩ := exists_anchor he
          rw [ha, he] at hanchor
          rw [ha]
          refine ⟨⟨a, rfl, le_trans hanchor hle⟩, _, rfl, ?_⟩
          exact lt_max_of_lt_right (hlt.trans_le (Nat.le_add_right _ _))
      · rw [anchor_snoc_other xs hk, frontier_snoc_other xs hk]
        rcases h with h | ⟨hkey, -⟩
        · exact ih h
        · exact absurd hkey.symm hk

/-- From the anchor up to the frontier, what is not brought is asked for. -/
theorem brought_or_asked {a e : ℕ} (ha : anchor xs k = some a) (hle : a ≤ n)
    (he : frontier xs k = some e) (hlt : n < e) :
    n ∈ brought k xs ∨ n ∈ asked k (run observe {} xs).2 := by
  induction xs using List.reverseRecOn generalizing a e with
  | nil => cases ha
  | append_singleton xs x ih =>
      rw [brought_append, run_snoc, asked_append, List.mem_append,
        List.mem_append]
      by_cases hk : k = x.key
      · subst hk
        rw [anchor_snoc_self, Option.some.injEq] at ha
        rw [frontier_snoc_self, Option.some.injEq] at he
        subst ha he
        have hspan (hfirst : x.first ≤ n) (hstop : n < x.stop) :
            n ∈ brought x.key [x] := by
          refine mem_brought.mpr (Finset.mem_union_left _ ?_)
          exact mem_numbers.mpr ⟨rfl, hfirst, hstop⟩
        cases hf : frontier xs x.key with
        | none =>
            rw [anchor_eq_none_iff.mpr (frontier_eq_none_iff.mp hf)] at hle
            rw [hf, Span.advance, Option.getD_none, Nat.zero_max] at hlt
            exact .inl (.inr (hspan hle hlt))
        | some f =>
            obtain ⟨a, ha⟩ := exists_anchor hf
            rw [ha] at hle
            rw [hf] at hlt
            -- below the old frontier, in the gap, or in the span
            rcases lt_or_ge n f with hold | hnew
            · rcases ih ha hle hf hold with h | h
              · exact .inl (.inl h)
              · exact .inr (.inl h)
            · rcases lt_or_ge n x.first with hgap | hfirst
              · have hnext : (run observe {} xs).1.next x.key = some f := by
                  rw [next_run]
                  exact hf
                exact .inr (.inr
                  (mem_asked_observe.mpr ⟨rfl, f, hnext, hnew, hgap⟩))
              · rcases lt_max_iff.mp hlt with h | hstop
                · exact absurd h (not_lt.mpr hnew)
                · exact .inl (.inr (hspan hfirst hstop))
      · rw [anchor_snoc_other xs hk] at ha
        rw [frontier_snoc_other xs hk] at he
        rcases ih ha hle he hlt with h | h
        · exact .inl (.inl h)
        · exact .inr (.inl h)

/-- What is asked for has not been brought yet. -/
theorem not_brought_of_asked (pre : List (Span κ)) (x : Span κ)
    (h : n ∈ asked k (observe (run observe {} pre).1 x).2) :
    n ∉ brought k pre := by
  obtain ⟨-, e, he, hle, -⟩ := mem_asked_observe.mp h
  rw [next_run] at he
  intro hn
  obtain ⟨e', he', hlt⟩ := lt_frontier (mem_brought.mp hn)
  rw [he] at he'
  cases he'
  exact absurd hlt (not_lt.mpr hle)

/-! ## §2  Nothing else is missing -/

/-- With other spans the numbers between the anchor and the frontier are all
brought if and only if those asked for are. -/
theorem complete_iff (xs ys : List (Span κ)) (k : κ) :
    (∀ n ∈ asked k (run observe {} xs).2, n ∈ brought k (xs ++ ys)) ↔
      ∀ a ∈ anchor xs k, ∀ e ∈ frontier xs k, ∀ n, a ≤ n → n < e →
        n ∈ brought k (xs ++ ys) := by
  constructor
  · intro h a ha e he n hle hlt
    rcases brought_or_asked ha hle he hlt with hn | hn
    · rw [brought_append]
      exact List.mem_append_left _ hn
    · exact h n hn
  · intro h n hn
    obtain ⟨⟨a, ha, hle⟩, e, he, hlt⟩ := asked_within hn
    exact h a ha e he n hle hlt

end Frontier
