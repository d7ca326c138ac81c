import Itch.Framework.Frontier

/-!
# Streams that arrive whole and in order

§1 says when the spans of every key follow each other, §2 that a tracker can
tell: it leaves no gap and counts all there is. §3 is what such spans hold.
-/

namespace Frontier

open Transducer

variable {κ : Type*} [DecidableEq κ] {s : State κ} {x : Span κ}
  {xs : List (Span κ)} {k : κ}

/-! ## §1  Spans that follow each other -/

/-- The span begins at the frontier of its key. An empty one may also begin
before it, as nothing of it is late. -/
def Span.Continues (x : Span κ) (frontier : Option ℕ) : Prop :=
  ∀ e ∈ frontier, x.first ≤ e ∧ (x.count = 0 ∨ x.first = e)

/-- Each span continues those before it. -/
def Consecutive (xs : List (Span κ)) : Prop :=
  ∀ pre x, pre ++ [x] <+: xs → x.Continues (frontier pre x.key)

/-- How many numbers the spans hold, each as often as it comes. -/
def volume (xs : List (Span κ)) : ℕ := (xs.map Span.count).sum

theorem consecutive_snoc (xs : List (Span κ)) (x : Span κ) :
    Consecutive (xs ++ [x]) ↔
      Consecutive xs ∧ x.Continues (frontier xs x.key) := by
  constructor
  · intro h
    constructor
    · intro pre y hpre
      exact h pre y (hpre.trans (List.prefix_append xs [x]))
    · exact h xs x (List.prefix_refl _)
  · rintro ⟨hxs, hx⟩ pre y hpre
    rcases List.prefix_concat_iff.mp hpre with heq | hpre
    · obtain ⟨rfl, hy⟩ := List.append_inj' heq rfl
      cases hy
      exact hx
    · exact hxs pre y hpre

omit [DecidableEq κ] in
theorem volume_snoc (xs : List (Span κ)) (x : Span κ) :
    volume (xs ++ [x]) = volume xs + x.count := by
  simp [volume]

/-! ## §2  What a tracker tells of them -/

theorem seen_observe_le (s : State κ) (x : Span κ) :
    (observe s x).1.seen ≤ s.seen + x.count := by
  rw [observe]
  cases s.next x.key with
  | none => exact le_rfl
  | some e =>
      have hle := le_max_right e x.first
      simp only [Span.stop]
      omega

theorem seen_run_le (xs : List (Span κ)) :
    (run observe {} xs).1.seen ≤ volume xs := by
  induction xs using List.reverseRecOn with
  | nil => exact le_rfl
  | append_singleton xs x ih =>
      rw [run_snoc, volume_snoc]
      exact (seen_observe_le _ x).trans (Nat.add_le_add_right ih _)

/-- A span continues the stream if it leaves no gap and all of it counts. -/
theorem continues_iff (s : State κ) (x : Span κ) :
    x.Continues (s.next x.key) ↔ (observe s x).2 = [] ∧
      (observe s x).1.seen = s.seen + x.count := by
  rw [observe, Span.Continues]
  cases s.next x.key with
  | none => simp
  | some e =>
      have hgap : (if e < x.first then [(⟨x.key, e, x.first⟩ : Gap κ)]
          else []) = [] ↔ x.first ≤ e := by
        split
        · rename_i hlt
          exact iff_of_false (by simp) (not_le.mpr hlt)
        · rename_i hlt
          exact iff_of_true rfl (not_lt.mp hlt)
      have hcount (hle : x.first ≤ e) :
          x.count = 0 ∨ x.first = e ↔
            s.seen + (x.stop - max e x.first) = s.seen + x.count := by
        rw [max_eq_left hle, Span.stop]
        omega
      rw [hgap]
      constructor
      · intro h
        obtain ⟨hle, hx⟩ := h e rfl
        exact ⟨hle, (hcount hle).mp hx⟩
      · rintro ⟨hle, hx⟩ e' ⟨⟩
        exact ⟨hle, (hcount hle).mpr hx⟩

/-- The spans follow each other if and only if no gap is left and every number
is counted as often as it came. -/
theorem consecutive_iff (xs : List (Span κ)) :
    Consecutive xs ↔ (run observe {} xs).2 = [] ∧
      (run observe {} xs).1.seen = volume xs := by
  induction xs using List.reverseRecOn with
  | nil =>
      refine iff_of_true ?_ ⟨rfl, rfl⟩
      intro pre x hpre
      exact absurd (List.prefix_nil.mp hpre) (by simp)
  | append_singleton xs x ih =>
      have hle := seen_run_le xs
      have hstep := seen_observe_le (run observe {} xs).1 x
      have hx := continues_iff (run observe {} xs).1 x
      rw [next_run] at hx
      rw [consecutive_snoc, ih, hx, run_snoc, volume_snoc,
        List.append_eq_nil_iff]
      constructor
      · rintro ⟨⟨hgaps, hseen⟩, hgap, hcount⟩
        exact ⟨⟨hgaps, hgap⟩, by rw [hcount, hseen]⟩
      · rintro ⟨⟨hgaps, hgap⟩, hcount⟩
        dsimp only at hcount
        -- neither part of the volume can have come short
        exact ⟨⟨hgaps, by omega⟩, hgap, by omega⟩

/-! ## §3  What they hold -/

/-- The numbers of a span, in order. -/
def Span.range (x : Span κ) : List ℕ := List.range' x.first x.count

omit [DecidableEq κ] in
theorem mem_range {n : ℕ} : n ∈ x.range ↔ x.first ≤ n ∧ n < x.stop :=
  List.mem_range'_1

theorem mem_heard {n : ℕ} : (k, n) ∈ heard xs ↔
    ∃ x ∈ ofKey k xs, n ∈ x.range := by
  induction xs with
  | nil => simp [heard, ofKey]
  | cons y ys ih =>
      rw [heard, Finset.mem_union, mem_numbers, ih]
      simp only [ofKey, List.filter_cons]
      constructor
      · rintro (⟨hk, hn⟩ | ⟨x, hx, hn⟩)
        · rw [if_pos (decide_eq_true hk)]
          exact ⟨y, List.mem_cons_self, mem_range.mpr hn⟩
        · refine ⟨x, ?_, hn⟩
          split
          · exact List.mem_cons_of_mem y hx
          · exact hx
      · rintro ⟨x, hx, hn⟩
        split at hx
        · rename_i hk
          rcases List.mem_cons.mp hx with rfl | hx
          · exact .inl ⟨of_decide_eq_true hk, mem_range.mp hn⟩
          · exact .inr ⟨x, hx, hn⟩
        · exact .inr ⟨x, hx, hn⟩

/-- One after the other the spans of a key hold the numbers from its anchor up
to its frontier. -/
theorem Consecutive.ranges (h : Consecutive xs) (k : κ) :
    (ofKey k xs).flatMap Span.range =
      List.range' ((anchor xs k).getD 0) (extent xs k) := by
  induction xs using List.reverseRecOn with
  | nil => rfl
  | append_singleton xs x ih =>
      obtain ⟨hxs, hx⟩ := (consecutive_snoc xs x).mp h
      by_cases hk : k = x.key
      · subst hk
        have hle := anchor_le_frontier xs x.key
        rw [ofKey_snoc_self, List.flatMap_append, ih hxs, extent_snoc_self,
          anchor_snoc_self, List.flatMap_singleton, Span.range]
        cases hf : frontier xs x.key with
        | none =>
            have hnil := frontier_eq_none_iff.mp hf
            rw [anchor_eq_none_iff.mpr hnil,
              extent_of_notMem (ofKey_eq_nil_iff.mp hnil)]
            simp [Span.growth]
        | some e =>
            obtain ⟨a, ha⟩ := exists_anchor hf
            obtain ⟨hfirst, hx⟩ := hx e hf
            have hextent : extent xs x.key = e - a := by
              rw [extent, hf, ha]
              rfl
            rw [hf, ha] at hle
            change a ≤ e at hle
            rw [ha, hextent]
            simp only [Option.getD_some, Span.growth, Span.stop]
            rcases hx with hzero | rfl
            · rw [hzero, List.range'_zero, List.append_nil]
              congr 1
              omega
            · have hsplit := @List.range'_append_1 a (x.first - a) x.count
              rw [Nat.add_sub_cancel' hle] at hsplit
              rw [hsplit, Nat.add_sub_cancel_left]
      · rw [ofKey_snoc_other xs hk, ih hxs, anchor_snoc_other xs hk,
          extent_snoc_other xs hk]

end Frontier
