import Mathlib.Data.List.Basic
import Mathlib.Tactic

/-!
# Sorted vectors searched by lower bound

A ladder is a list sorted by a strict priority `r` on the keys of its
elements. `lowerBound` is the position a binary search over it returns: the
first element whose key does not come before the one looked for. The two
split lemmas (`lowerBound_found`, `lowerBound_absent`) say what lies on either
side of that position, so that reading, inserting and erasing there become
facts about `ls ++ x :: rs`.
-/

namespace SortedLadder

variable {α κ : Type*}

/-- A strict total order, as a Boolean comparator. -/
structure Priority (r : κ → κ → Bool) : Prop where
  irrefl : ∀ a, r a a = false
  trans : ∀ {a b c}, r a b = true → r b c = true → r a c = true
  total : ∀ a b, r a b = true ∨ a = b ∨ r b a = true

variable {r : κ → κ → Bool} {key : α → κ}

theorem Priority.asymm (hr : Priority r) {a b : κ} (h : r a b = true) :
    ¬ r b a = true := by
  intro h'
  have := hr.trans h h'
  rw [hr.irrefl] at this
  exact Bool.noConfusion this

theorem Priority.ne (hr : Priority r) {a b : κ} (h : r a b = true) :
    a ≠ b := by
  rintro rfl
  exact hr.asymm h h

/-- Strictly sorted by key. -/
def Sorted (r : κ → κ → Bool) (key : α → κ) (xs : List α) : Prop :=
  xs.Pairwise (fun a b => r (key a) (key b) = true)

/-- `std::lower_bound`: the furthest position all of whose predecessors come
before `k`. -/
def lowerBound (r : κ → κ → Bool) (key : α → κ) (xs : List α) (k : κ) : ℕ :=
  xs.findIdx (fun x => !r (key x) k)

theorem sorted_cons {x : α} {xs : List α} :
    Sorted r key (x :: xs) ↔
      (∀ y ∈ xs, r (key x) (key y) = true) ∧ Sorted r key xs :=
  List.pairwise_cons

theorem sorted_append {xs ys : List α} :
    Sorted r key (xs ++ ys) ↔ Sorted r key xs ∧ Sorted r key ys ∧
      ∀ x ∈ xs, ∀ y ∈ ys, r (key x) (key y) = true :=
  List.pairwise_append

theorem sorted_keys_nodup (hr : Priority r) {xs : List α}
    (hs : Sorted r key xs) : (xs.map key).Nodup := by
  rw [List.Nodup, List.pairwise_map]
  exact hs.imp fun h => hr.ne h

/-- The elements before the position come before `k`, the rest do not. -/
theorem lowerBound_split (hr : Priority r) {k : κ} : ∀ {xs : List α},
    Sorted r key xs → ∃ ls rs, xs = ls ++ rs ∧
      lowerBound r key xs k = ls.length ∧
      (∀ x ∈ ls, r (key x) k = true) ∧ ∀ x ∈ rs, r (key x) k = false := by
  intro xs
  induction xs with
  | nil => intro _; exact ⟨[], [], rfl, rfl, by simp, by simp⟩
  | cons x xs ih =>
      intro hs
      obtain ⟨hx, hxs⟩ := sorted_cons.mp hs
      cases hk : r (key x) k with
      | true =>
          obtain ⟨ls, rs, rfl, hlb, hls, hrs⟩ := ih hxs
          refine ⟨x :: ls, rs, rfl, ?_, ?_, hrs⟩
          · simp only [lowerBound] at hlb
            simp [lowerBound, List.findIdx_cons, hk, hlb]
          · intro y hy
            rcases List.mem_cons.mp hy with rfl | hy
            · exact hk
            · exact hls y hy
      | false =>
          refine ⟨[], x :: xs, rfl, ?_, by simp, ?_⟩
          · simp [lowerBound, List.findIdx_cons, hk]
          · intro y hy
            rcases List.mem_cons.mp hy with rfl | hy
            · exact hk
            · by_contra h
              have := hr.trans (hx y hy) (by simpa using h)
              rw [hk] at this
              exact Bool.noConfusion this

/-- A key that is present sits at its lower bound. -/
theorem lowerBound_found (hr : Priority r) {xs : List α} {y : α}
    (hs : Sorted r key xs) (hy : y ∈ xs) :
    ∃ ls rs, xs = ls ++ y :: rs ∧
      lowerBound r key xs (key y) = ls.length := by
  obtain ⟨ls, rs, rfl, hlb, hls, hrs⟩ := lowerBound_split hr (k := key y) hs
  have hyrs : y ∈ rs := by
    rcases List.mem_append.mp hy with h | h
    · have := hls y h
      rw [hr.irrefl] at this
      exact Bool.noConfusion this
    · exact h
  cases rs with
  | nil => simp at hyrs
  | cons x rs =>
      have hxy : x = y := by
        rcases List.mem_cons.mp hyrs with h | h
        · exact h.symm
        · have hsrt := (sorted_append.mp hs).2.1
          have := (sorted_cons.mp hsrt).1 y h
          rw [hrs x List.mem_cons_self] at this
          exact Bool.noConfusion this
      subst hxy
      exact ⟨ls, rs, rfl, hlb⟩

/-- The lower bound of an absent key is where the key belongs. -/
theorem lowerBound_absent (hr : Priority r) {xs : List α} {k : κ}
    (hs : Sorted r key xs) (hk : ∀ x ∈ xs, key x ≠ k) :
    ∃ ls rs, xs = ls ++ rs ∧ lowerBound r key xs k = ls.length ∧
      (∀ x ∈ ls, r (key x) k = true) ∧ ∀ x ∈ rs, r k (key x) = true := by
  obtain ⟨ls, rs, rfl, hlb, hls, hrs⟩ := lowerBound_split hr (k := k) hs
  refine ⟨ls, rs, rfl, hlb, hls, fun x hx => ?_⟩
  rcases hr.total (key x) k with h | h | h
  · rw [hrs x hx] at h
    exact Bool.noConfusion h
  · exact absurd h (hk x (List.mem_append_right _ hx))
  · exact h

/-- An absent key, inserted at its lower bound, keeps the ladder sorted. -/
theorem sorted_insert {ls rs : List α} {x : α}
    (hs : Sorted r key (ls ++ rs)) (hls : ∀ y ∈ ls, r (key y) (key x) = true)
    (hrs : ∀ y ∈ rs, r (key x) (key y) = true) :
    Sorted r key (ls ++ x :: rs) := by
  obtain ⟨h1, h2, h3⟩ := sorted_append.mp hs
  refine sorted_append.mpr ⟨h1, sorted_cons.mpr ⟨hrs, h2⟩, ?_⟩
  intro y hy z hz
  rcases List.mem_cons.mp hz with rfl | hz
  · exact hls y hy
  · exact h3 y hy z hz

theorem sorted_erase {ls rs : List α} {x : α}
    (hs : Sorted r key (ls ++ x :: rs)) : Sorted r key (ls ++ rs) :=
  hs.sublist ((List.sublist_cons_self x rs).append_left ls)

/-- Sortedness depends on the keys alone. -/
theorem sorted_replace {ls rs : List α} {x y : α}
    (hs : Sorted r key (ls ++ x :: rs)) (hk : key y = key x) :
    Sorted r key (ls ++ y :: rs) := by
  obtain ⟨h1, h2, h3⟩ := sorted_append.mp hs
  obtain ⟨h4, h5⟩ := sorted_cons.mp h2
  refine sorted_append.mpr ⟨h1, sorted_cons.mpr ⟨by rwa [hk], h5⟩, ?_⟩
  intro a ha b hb
  rcases List.mem_cons.mp hb with rfl | hb
  · rw [hk]
    exact h3 a ha x List.mem_cons_self
  · exact h3 a ha b (List.mem_cons_of_mem _ hb)

/-- In a sorted ladder the other elements have other keys. -/
theorem sorted_split_ne (hr : Priority r) {ls rs : List α} {x y : α}
    (hs : Sorted r key (ls ++ x :: rs)) (hy : y ∈ ls ++ rs) :
    key y ≠ key x := by
  obtain ⟨_, h2, h3⟩ := sorted_append.mp hs
  rcases List.mem_append.mp hy with h | h
  · exact hr.ne (h3 y h x List.mem_cons_self)
  · exact (hr.ne ((sorted_cons.mp h2).1 y h)).symm

/-- Two sorted lists of keys with the same members are equal. -/
theorem sorted_ext (hr : Priority r) {xs ys : List κ}
    (hx : Sorted r id xs) (hy : Sorted r id ys)
    (hmem : ∀ k, k ∈ xs ↔ k ∈ ys) : xs = ys := by
  have hnx : xs.Nodup := by simpa using sorted_keys_nodup hr hx
  have hny : ys.Nodup := by simpa using sorted_keys_nodup hr hy
  refine List.Perm.eq_of_pairwise (fun a b _ _ h h' => ?_) hx hy
    ((List.perm_ext_iff_of_nodup hnx hny).mpr hmem)
  exact absurd h' (hr.asymm h)

/-- A key is among the first `n` when fewer than `n` come before it. -/
theorem mem_take_iff (hr : Priority r) {ks : List κ} {k : κ} {n : ℕ}
    (hs : Sorted r id ks) :
    k ∈ ks.take n ↔ k ∈ ks ∧ (ks.filter (r · k)).length < n := by
  induction ks generalizing n with
  | nil => simp
  | cons x ks ih =>
    obtain ⟨hx, hks⟩ := sorted_cons.mp hs
    cases n with
    | zero => simp
    | succ n =>
      rw [List.take_succ_cons, List.mem_cons, List.mem_cons, ih hks]
      by_cases hk : k = x
      · subst hk
        have hnone : (k :: ks).filter (r · k) = [] := by
          rw [List.filter_eq_nil_iff]
          intro y hy
          rcases List.mem_cons.mp hy with rfl | hy
          · rw [hr.irrefl]
            exact Bool.false_ne_true
          · exact hr.asymm (hx y hy)
        rw [hnone]
        simp
      · simp only [hk, false_or]
        refine and_congr_right fun hmem => ?_
        have hbefore : r x k = true := hx k hmem
        rw [List.filter_cons, if_pos hbefore, List.length_cons]
        exact Nat.succ_lt_succ_iff.symm

/-! Reads and writes at the position of a split. -/

theorem getD_split (d x : α) : ∀ ls rs : List α,
    (ls ++ x :: rs).getD ls.length d = x
  | [], _ => rfl
  | _ :: ls, rs => getD_split d x ls rs

theorem modify_split (f : α → α) (x : α) : ∀ ls rs : List α,
    (ls ++ x :: rs).modify ls.length f = ls ++ f x :: rs
  | [], _ => rfl
  | y :: ls, rs => congrArg (y :: ·) (modify_split f x ls rs)

theorem insertIdx_split (x : α) : ∀ ls rs : List α,
    (ls ++ rs).insertIdx ls.length x = ls ++ x :: rs
  | [], _ => rfl
  | y :: ls, rs => congrArg (y :: ·) (insertIdx_split x ls rs)

theorem eraseIdx_split (x : α) : ∀ ls rs : List α,
    (ls ++ x :: rs).eraseIdx ls.length = ls ++ rs
  | [], _ => rfl
  | y :: ls, rs => congrArg (y :: ·) (eraseIdx_split x ls rs)

end SortedLadder
