import Mathlib.Data.List.Basic
import Mathlib.Tactic

/-!
# Queues threaded through a node store

A node store gives every index `x` a successor `next x` and a predecessor
`prev x`; `nil` is the index that names no node. `Seg p xs q` says that `xs`
is linked both ways, entered from `p` and left towards `q`. A `Queue` is a
segment between two `nil`s with its head and tail recorded. A `Chain` is a
singly linked list, as a free list is.

The rules are stated for any store that reads like the old one except at the
named indices, so a concrete store only has to describe its reads.
-/

namespace LinkedQueue

variable {ι : Type*} {next next' prev prev' : ι → ι} {nil : ι}

/-! ## Segments -/

def Seg (next prev : ι → ι) : ι → List ι → ι → Prop
  | _, [], _ => True
  | p, x :: xs, q => prev x = p ∧ next x = xs.headD q ∧ Seg next prev x xs q

theorem getLastD_append_cons (p x : ι) (xs ys : List ι) :
    (xs ++ x :: ys).getLastD p = ys.getLastD x := by
  induction xs generalizing p with
  | nil => exact List.getLastD_cons ..
  | cons y xs ih => rw [List.cons_append, List.getLastD_cons, ih]

theorem getLastD_mem {p : ι} {xs : List ι} (h : xs ≠ []) :
    xs.getLastD p ∈ xs := by
  rw [List.getLastD_eq_getLast?, List.getLast?_eq_getLast_of_ne_nil h]
  exact List.getLast_mem h

theorem headD_mem {q : ι} {xs : List ι} (h : xs ≠ []) :
    xs.headD q ∈ xs := by
  cases xs with
  | nil => exact absurd rfl h
  | cons x xs => exact List.mem_cons_self

theorem headD_append (q : ι) (xs ys : List ι) :
    (xs ++ ys).headD q = xs.headD (ys.headD q) := by
  cases xs <;> rfl

theorem seg_append {p q : ι} {ys : List ι} : ∀ {xs : List ι},
    Seg next prev p (xs ++ ys) q ↔
      Seg next prev p xs (ys.headD q) ∧ Seg next prev (xs.getLastD p) ys q
      := by
  intro xs
  induction xs generalizing p with
  | nil => simp [Seg]
  | cons x xs ih =>
      simp only [List.cons_append, Seg, ih, headD_append, List.getLastD_cons,
        and_assoc]

/-- Stores that read alike on `xs` link it alike. -/
theorem seg_congr {q : ι} : ∀ {p : ι} {xs : List ι},
    (∀ x ∈ xs, next' x = next x) → (∀ x ∈ xs, prev' x = prev x) →
    Seg next prev p xs q → Seg next' prev' p xs q
  | _, [], _, _, _ => trivial
  | _, x :: _, hn, hp, ⟨h1, h2, h3⟩ =>
      ⟨(hp x List.mem_cons_self).trans h1,
        (hn x List.mem_cons_self).trans h2,
        seg_congr (fun y hy => hn y (List.mem_cons_of_mem _ hy))
          (fun y hy => hp y (List.mem_cons_of_mem _ hy)) h3⟩

/-- Redirecting the successor of the last node. -/
theorem seg_set_last {q q' : ι} : ∀ {p : ι} {xs : List ι}, xs.Nodup →
    (∀ x ∈ xs, x ≠ xs.getLastD p → next' x = next x) →
    (xs ≠ [] → next' (xs.getLastD p) = q') →
    (∀ x ∈ xs, prev' x = prev x) →
    Seg next prev p xs q → Seg next' prev' p xs q'
  | _, [], _, _, _, _, _ => trivial
  | p, x :: xs, hnd, hother, hlast, hp, ⟨h1, h2, h3⟩ => by
      obtain ⟨hx, hxs⟩ := List.nodup_cons.mp hnd
      rw [List.getLastD_cons] at hother hlast
      refine ⟨(hp x List.mem_cons_self).trans h1, ?_, ?_⟩
      · cases xs with
        | nil => exact hlast (by simp)
        | cons y ys =>
            rw [hother x List.mem_cons_self, h2]
            · rfl
            · intro h
              apply hx
              rw [h]
              exact getLastD_mem (by simp)
      · exact seg_set_last hxs
          (fun y hy => hother y (List.mem_cons_of_mem _ hy))
          (fun _ => hlast (by simp))
          (fun y hy => hp y (List.mem_cons_of_mem _ hy)) h3

/-- Redirecting the predecessor of the first node. -/
theorem seg_set_first {p p' q : ι} {xs : List ι} (hnd : xs.Nodup)
    (hother : ∀ x ∈ xs, x ≠ xs.headD q → prev' x = prev x)
    (hfirst : xs ≠ [] → prev' (xs.headD q) = p')
    (hn : ∀ x ∈ xs, next' x = next x) (h : Seg next prev p xs q) :
    Seg next' prev' p' xs q := by
  cases xs with
  | nil => trivial
  | cons x xs =>
      obtain ⟨hx, _⟩ := List.nodup_cons.mp hnd
      obtain ⟨_, h2, h3⟩ := h
      refine ⟨hfirst (by simp), (hn x List.mem_cons_self).trans h2, ?_⟩
      refine seg_congr (fun y hy => hn y (List.mem_cons_of_mem _ hy))
        (fun y hy => hother y (List.mem_cons_of_mem _ hy) ?_) h3
      rintro rfl
      exact hx hy

/-! ## Queues -/

structure Queue (next prev : ι → ι) (nil head tail : ι) (xs : List ι) :
    Prop where
  head_eq : head = xs.headD nil
  tail_eq : tail = xs.getLastD nil
  linked : Seg next prev nil xs nil

theorem queue_congr {head tail : ι} {xs : List ι}
    (hn : ∀ x ∈ xs, next' x = next x) (hp : ∀ x ∈ xs, prev' x = prev x)
    (h : Queue next prev nil head tail xs) :
    Queue next' prev' nil head tail xs :=
  ⟨h.head_eq, h.tail_eq, seg_congr hn hp h.linked⟩

theorem getLastD_eq_nil {xs : List ι} (hnil : nil ∉ xs) :
    xs.getLastD nil = nil ↔ xs = [] := by
  constructor
  · intro h
    by_contra hne
    apply hnil
    rw [← h]
    exact getLastD_mem hne
  · rintro rfl
    rfl

theorem headD_eq_nil {xs : List ι} (hnil : nil ∉ xs) :
    xs.headD nil = nil ↔ xs = [] := by
  constructor
  · intro h
    by_contra hne
    apply hnil
    rw [← h]
    exact headD_mem hne
  · rintro rfl
    rfl

/-- The tail names a node exactly when the queue is not empty. -/
theorem queue_tail_eq_nil {head tail : ι} {xs : List ι} (hnil : nil ∉ xs)
    (h : Queue next prev nil head tail xs) : tail = nil ↔ xs = [] := by
  rw [h.tail_eq]
  exact getLastD_eq_nil hnil

/-- The last node of one list is not in another that shares no node with
it. -/
theorem ne_getLastD {xs : List ι} {y : ι} (hnil : nil ≠ y) (hy : y ∉ xs) :
    y ≠ xs.getLastD nil := by
  rintro rfl
  by_cases hx : xs = []
  · rw [hx] at hnil
    exact hnil rfl
  · exact hy (getLastD_mem hx)

theorem ne_headD {xs : List ι} {y : ι} (hnil : nil ≠ y) (hy : y ∉ xs) :
    y ≠ xs.headD nil := by
  rintro rfl
  by_cases hx : xs = []
  · rw [hx] at hnil
    exact hnil rfl
  · exact hy (headD_mem hx)

/-- Appending a new node behind the tail. -/
theorem queue_push {head head' tail i : ι} {xs : List ι} (hnd : xs.Nodup)
    (h : Queue next prev nil head tail xs)
    (hhead : head' = if xs = [] then i else head)
    (hni : next' i = nil) (hpi : prev' i = tail)
    (hother : ∀ x ∈ xs, x ≠ tail → next' x = next x)
    (htail : xs ≠ [] → next' tail = i) (hp : ∀ x ∈ xs, prev' x = prev x) :
    Queue next' prev' nil head' i (xs ++ [i]) where
  head_eq := by
    rw [hhead, headD_append]
    split
    · next he => subst he; rfl
    · next he =>
        rw [h.head_eq]
        cases xs with
        | nil => exact absurd rfl he
        | cons x xs => rfl
  tail_eq := (getLastD_append_cons nil i xs []).symm
  linked := by
    rw [h.tail_eq] at hother htail hpi
    exact seg_append.mpr ⟨seg_set_last hnd hother htail hp h.linked,
      hpi, hni, trivial⟩

/-- The neighbours of a queued node. -/
theorem queue_neighbours {head tail n : ι} {xs ys : List ι}
    (h : Queue next prev nil head tail (xs ++ n :: ys)) :
    prev n = xs.getLastD nil ∧ next n = ys.headD nil := by
  have := (seg_append.mp h.linked).2
  exact ⟨this.1, this.2.1⟩

/-- Inside a queue the two links are inverse to each other. -/
theorem queue_inverse {head tail n : ι} {xs : List ι}
    (h : Queue next prev nil head tail xs) (hn : n ∈ xs) :
    (next n ≠ nil → next n ∈ xs ∧ prev (next n) = n) ∧
      (prev n ≠ nil → prev n ∈ xs ∧ next (prev n) = n) := by
  obtain ⟨ls, rs, rfl⟩ := List.append_of_mem hn
  obtain ⟨hp, hs⟩ := queue_neighbours h
  constructor
  · intro hne
    cases rs with
    | nil => exact absurd hs hne
    | cons y rs =>
        have hy : next n = y := hs
        rw [hy]
        rw [List.append_cons] at h
        refine ⟨by simp, (queue_neighbours h).1.trans ?_⟩
        exact getLastD_append_cons nil n ls []
  · intro hne
    rcases List.eq_nil_or_concat ls with rfl | ⟨ls, y, rfl⟩
    · exact absurd hp hne
    · rw [List.concat_eq_append] at h hp ⊢
      have hy : prev n = y := hp.trans (getLastD_append_cons nil y ls [])
      rw [hy]
      rw [List.append_assoc] at h
      exact ⟨by simp, (queue_neighbours h).2⟩

/-- Taking a node out: its neighbours are joined, and where one is missing
the head or the tail moves instead. -/
theorem queue_remove [DecidableEq ι] {head head' tail tail' n : ι} {xs ys : List ι}
    (hnd : (xs ++ n :: ys).Nodup) (hnil : nil ∉ xs ++ n :: ys)
    (h : Queue next prev nil head tail (xs ++ n :: ys))
    (hhead : head' = if prev n = nil then next n else head)
    (htail : tail' = if next n = nil then prev n else tail)
    (hnext : ∀ x ∈ xs ++ ys, x ≠ prev n → next' x = next x)
    (hnextp : prev n ≠ nil → next' (prev n) = next n)
    (hprev : ∀ x ∈ xs ++ ys, x ≠ next n → prev' x = prev x)
    (hprevn : next n ≠ nil → prev' (next n) = prev n) :
    Queue next' prev' nil head' tail' (xs ++ ys) := by
  obtain ⟨hp, hn⟩ := queue_neighbours h
  have hxs : nil ∉ xs := fun hm => hnil (List.mem_append_left _ hm)
  have hys : nil ∉ ys :=
    fun hm => hnil (List.mem_append_right _ (List.mem_cons_of_mem _ hm))
  obtain ⟨hndx, hndy, hdisj⟩ := List.nodup_append.mp hnd
  have hndy' := (List.nodup_cons.mp hndy).2
  have hp0 : prev n = nil ↔ xs = [] := hp ▸ getLastD_eq_nil hxs
  have hn0 : next n = nil ↔ ys = [] := hn ▸ headD_eq_nil hys
  -- the last node of `xs` is not in `ys`, nor the first of `ys` in `xs`
  have hpy : ∀ y ∈ ys, y ≠ prev n := by
    intro y hy
    rw [hp]
    apply ne_getLastD
    · exact fun he => hys (he ▸ hy)
    · exact fun hx => hdisj y hx y (List.mem_cons_of_mem _ hy) rfl
  have hnx : ∀ x ∈ xs, x ≠ next n := by
    intro x hx
    rw [hn]
    apply ne_headD
    · exact fun he => hxs (he ▸ hx)
    · exact fun hy => hdisj x hx x (List.mem_cons_of_mem _ hy) rfl
  obtain ⟨hseg₁, hseg₂⟩ := seg_append.mp h.linked
  refine ⟨?_, ?_, seg_append.mpr ⟨?_, ?_⟩⟩
  · rw [hhead, headD_append]
    split
    · next h0 => rw [hp0.mp h0, hn]; rfl
    · next h0 =>
        rw [h.head_eq]
        cases xs with
        | nil => exact absurd (hp0.mpr rfl) h0
        | cons x xs => rfl
  · rw [htail]
    split
    · next h0 => rw [hn0.mp h0, List.append_nil, hp]
    · next h0 =>
        cases ys with
        | nil => exact absurd (hn0.mpr rfl) h0
        | cons y ys =>
            rw [h.tail_eq, getLastD_append_cons, getLastD_append_cons,
              List.getLastD_cons]
  · refine seg_set_last hndx
      (fun x hx hne => hnext x (List.mem_append_left _ hx) (hp ▸ hne))
      (fun hne => ?_)
      (fun x hx => hprev x (List.mem_append_left _ hx) (hnx x hx)) hseg₁
    rw [← hp, hnextp fun h0 => hne (hp0.mp h0), hn]
  · refine seg_set_first hndy'
      (fun y hy hne => hprev y (List.mem_append_right _ hy) (hn ▸ hne))
      (fun hne => ?_)
      (fun y hy => hnext y (List.mem_append_right _ hy) (hpy y hy)) hseg₂.2.2
    rw [← hn, hprevn fun h0 => hne (hn0.mp h0), hp]

/-! ## Singly linked chains -/

def Chain (next : ι → ι) (nil : ι) : ι → List ι → Prop
  | h, [] => h = nil
  | h, x :: xs => h = x ∧ Chain next nil (next x) xs

theorem chain_congr : ∀ {h : ι} {xs : List ι},
    (∀ x ∈ xs, next' x = next x) → Chain next nil h xs →
    Chain next' nil h xs
  | _, [], _, hc => hc
  | h, x :: xs, hn, ⟨hh, hc⟩ =>
      ⟨hh, by
        rw [hn x List.mem_cons_self]
        exact chain_congr (fun y hy => hn y (List.mem_cons_of_mem _ hy)) hc⟩

/-- Follows the successors from `i` to `nil`; `none` if that is not met within
`fuel` nodes, as on a cycle. -/
def walk [DecidableEq ι] (next : ι → ι) (nil : ι) (fuel : ℕ) (i : ι) :
    Option (List ι) :=
  if i = nil then some []
  else
    match fuel with
    | 0 => none
    | fuel + 1 => (walk next nil fuel (next i)).map (i :: ·)

theorem walk_chain [DecidableEq ι] : ∀ {xs : List ι} {i : ι} {fuel : ℕ},
    Chain next nil i xs → nil ∉ xs → xs.length ≤ fuel →
    walk next nil fuel i = some xs := by
  intro xs
  induction xs with
  | nil =>
      intro i fuel hc _ _
      rw [walk.eq_def, if_pos (show i = nil from hc)]
  | cons x xs ih =>
      rintro i fuel ⟨rfl, hc⟩ hnil hlen
      have hi : i ≠ nil := fun he => hnil (he ▸ List.mem_cons_self)
      cases fuel with
      | zero => exact absurd hlen (Nat.not_succ_le_zero _)
      | succ fuel =>
          have hrest := ih hc (fun hm => hnil (List.mem_cons_of_mem _ hm))
            (Nat.le_of_succ_le_succ hlen)
          rw [walk.eq_def, if_neg hi]
          show (walk next nil fuel (next i)).map _ = _
          rw [hrest, Option.map_some]

theorem nil_not_mem_walk [DecidableEq ι] : ∀ {fuel : ℕ} {i : ι} {xs : List ι},
    walk next nil fuel i = some xs → nil ∉ xs := by
  intro fuel
  induction fuel with
  | zero =>
      intro i xs h
      rw [walk.eq_def] at h
      split at h
      · cases h
        exact List.not_mem_nil
      · cases h
  | succ fuel ih =>
      intro i xs h
      rw [walk.eq_def] at h
      split at h
      · cases h
        exact List.not_mem_nil
      · next hi =>
          obtain ⟨ys, hys, rfl⟩ := Option.map_eq_some_iff.mp h
          rw [List.mem_cons, not_or]
          exact ⟨fun he => hi he.symm, ih hys⟩

/-- A queue, read along its successors alone, is a chain from its head. -/
theorem seg_chain {p h : ι} : ∀ {xs : List ι}, h = xs.headD nil →
    Seg next prev p xs nil → Chain next nil h xs := by
  intro xs
  induction xs generalizing p h with
  | nil => intro hh _; exact hh
  | cons x xs ih =>
      rintro rfl ⟨_, h2, h3⟩
      exact ⟨rfl, ih h2 h3⟩

end LinkedQueue
