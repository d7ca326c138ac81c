import Mathlib.Data.List.SplitBy
import Mathlib.Tactic

/-!
# Runs of equal keys

`runsBy key xs` cuts a list into its maximal runs of consecutive elements with
one key. §1 characterizes it by `IsRuns`, and says how the runs grow when an
element is added at the end. §2 is about where a run begins and ends, and
about keys that do not decrease.
-/

namespace Runs

variable {α κ : Type*} {key : α → κ} {xs : List α}
  {groups before after : List (List α)} {g : List α} {a : α}

/-! ## §1  Maximal runs -/

def runsBy [DecidableEq κ] (key : α → κ) (xs : List α) : List (List α) :=
  xs.splitBy fun a b => decide (key a = key b)

/-- The groups make up the list, each has one key, and no two neighbours have
the same. -/
structure IsRuns (key : α → κ) (xs : List α) (groups : List (List α)) :
    Prop where
  flatten : groups.flatten = xs
  ne_nil : ∀ g ∈ groups, g ≠ []
  same : ∀ g ∈ groups, ∀ a ∈ g, ∀ b ∈ g, key a = key b
  differ : groups.IsChain fun g h => ∀ a ∈ g, ∀ b ∈ h, key a ≠ key b

theorem isRuns_runsBy [DecidableEq κ] (key : α → κ) (xs : List α) :
    IsRuns key xs (runsBy key xs) := by
  have hne : ∀ g ∈ runsBy key xs, g ≠ [] := fun g hg =>
    List.ne_nil_of_mem_splitBy hg
  have hsame : ∀ g ∈ runsBy key xs, ∀ a ∈ g, ∀ b ∈ g, key a = key b := by
    intro g hg
    have hchain := List.isChain_of_mem_splitBy hg
    have hpairs : g.Pairwise fun a b => key a = key b := by
      refine List.IsChain.pairwise (R := fun a b => key a = key b) ?_
      exact hchain.imp fun a b h => of_decide_eq_true h
    have hsymm : Std.Symm fun a b => key a = key b := ⟨fun _ _ h => h.symm⟩
    intro a ha b hb
    exact List.Pairwise.forall_of_forall (R := fun a b => key a = key b)
      (fun _ _ => rfl) hpairs ha hb
  refine ⟨List.flatten_splitBy _ xs, hne, hsame, ?_⟩
  refine (List.isChain_getLast_head_splitBy _ xs).imp_of_mem_imp ?_
  rintro g h hg hh ⟨hgne, hhne, hdiffer⟩ a ha b hb hab
  -- one element of each group tells the groups apart
  have hlast := hsame g hg a ha _ (List.getLast_mem hgne)
  have hhead := hsame h hh b hb _ (List.head_mem hhne)
  exact of_decide_eq_false hdiffer (hlast.symm.trans (hab.trans hhead))

theorem IsRuns.eq_runsBy [DecidableEq κ] (h : IsRuns key xs groups) :
    groups = runsBy key xs := by
  refine (List.splitBy_eq_iff.mpr ⟨h.flatten.symm, ?_, ?_, ?_⟩).symm
  · intro hnil
    exact h.ne_nil [] hnil rfl
  · intro g hg
    refine (List.pairwise_of_forall_mem_list ?_).isChain
    intro a ha b hb
    exact decide_eq_true (h.same g hg a ha b hb)
  · refine h.differ.imp_of_mem_imp ?_
    intro g g' hg hg' hdiffer
    have hne := h.ne_nil g hg
    have hne' := h.ne_nil g' hg'
    exact ⟨hne, hne', decide_eq_false
      (hdiffer _ (List.getLast_mem hne) _ (List.head_mem hne'))⟩

theorem IsRuns.nil (key : α → κ) : IsRuns key [] [] :=
  ⟨rfl, by simp, by simp, List.IsChain.nil⟩

/-- An element with the key of the last run belongs to it. -/
theorem IsRuns.extend (h : IsRuns key xs (groups ++ [g]))
    (ha : ∀ b ∈ g, key b = key a) :
    IsRuns key (xs ++ [a]) (groups ++ [g ++ [a]]) := by
  have hg : g ≠ [] := h.ne_nil g (by simp)
  obtain ⟨hchain, -, hlast⟩ := List.isChain_append.mp h.differ
  have hkey : ∀ b ∈ g ++ [a], key b = key a := by
    intro b hb
    rcases List.mem_append.mp hb with hb | hb
    · exact ha b hb
    · rw [List.mem_singleton.mp hb]
  constructor
  · rw [← h.flatten]
    simp
  · intro x hx
    rcases List.mem_append.mp hx with hx | hx
    · exact h.ne_nil x (List.mem_append_left _ hx)
    · rw [List.mem_singleton.mp hx]
      simp
  · intro x hx
    rcases List.mem_append.mp hx with hx | hx
    · exact h.same x (List.mem_append_left _ hx)
    · obtain rfl := List.mem_singleton.mp hx
      intro b hb c hc
      exact (hkey b hb).trans (hkey c hc).symm
  · refine List.isChain_append.mpr ⟨hchain, List.IsChain.singleton _, ?_⟩
    intro x hx y hy b hb c hc
    obtain rfl : g ++ [a] = y := by simpa using hy
    -- the run that grows had this key before
    obtain ⟨d, hd⟩ := List.exists_mem_of_ne_nil g hg
    have hdiffer := hlast x hx g (by simp) b hb d hd
    rw [hkey c hc, ← ha d hd]
    exact hdiffer

/-- An element with another key than the one before it begins a run. -/
theorem IsRuns.start (h : IsRuns key xs groups)
    (ha : ∀ b ∈ xs.getLast?, key b ≠ key a) :
    IsRuns key (xs ++ [a]) (groups ++ [[a]]) := by
  constructor
  · rw [← h.flatten]
    simp
  · intro x hx
    rcases List.mem_append.mp hx with hx | hx
    · exact h.ne_nil x hx
    · rw [List.mem_singleton.mp hx]
      simp
  · intro x hx
    rcases List.mem_append.mp hx with hx | hx
    · exact h.same x hx
    · obtain rfl := List.mem_singleton.mp hx
      simp
  · refine List.isChain_append.mpr ⟨h.differ, List.IsChain.singleton _, ?_⟩
    intro x hx y hy b hb c hc
    obtain rfl : [a] = y := by simpa using hy
    obtain ⟨init, rfl⟩ := List.getLast?_eq_some_iff.mp hx
    -- the last element tells the key of the last run
    have hne : x ≠ [] := h.ne_nil x (by simp)
    have hlast : x.getLast hne ∈ xs.getLast? := by
      rw [← h.flatten, List.flatten_append, List.flatten_singleton,
        List.getLast?_append_of_ne_nil _ hne]
      exact List.getLast?_eq_getLast_of_ne_nil hne
    rw [List.mem_singleton.mp hc,
      h.same x (by simp) b hb _ (List.getLast_mem hne)]
    exact ha _ hlast

/-! ## §2  Where a run begins and ends -/

theorem IsRuns.eq_append (h : IsRuns key xs (before ++ g :: after)) :
    xs = before.flatten ++ (g ++ after.flatten) := by
  rw [← h.flatten]
  simp

/-- What comes before a run has another key than the run. -/
theorem IsRuns.before_ne (h : IsRuns key xs (before ++ g :: after))
    {b : α} (hb : b ∈ before.flatten.getLast?) (ha : a ∈ g) :
    key b ≠ key a := by
  obtain ⟨-, -, hlast⟩ := List.isChain_append.mp h.differ
  rcases before.eq_nil_or_concat with rfl | ⟨init, last, rfl⟩
  · simp at hb
  · have hne : last ≠ [] := h.ne_nil last (by simp)
    rw [List.concat_eq_append, List.flatten_append, List.flatten_singleton,
      List.getLast?_append_of_ne_nil _ hne] at hb
    exact hlast last (by simp) g (by simp) b (List.mem_of_getLast? hb) a ha

/-- What comes behind a run has another key than the run. -/
theorem IsRuns.after_ne (h : IsRuns key xs (before ++ g :: after))
    {b : α} (hb : b ∈ after.flatten.head?) (ha : a ∈ g) :
    key a ≠ key b := by
  obtain ⟨-, hchain, -⟩ := List.isChain_append.mp h.differ
  cases after with
  | nil => simp at hb
  | cons next rest =>
      have hne : next ≠ [] := h.ne_nil next (by simp)
      rw [List.flatten_cons, List.head?_append_of_ne_nil _ hne] at hb
      exact (List.isChain_cons_cons.mp hchain).1 a ha b
        (List.mem_of_head? hb)

theorem IsRuns.mem (h : IsRuns key xs (before ++ g :: after)) : g ≠ [] :=
  h.ne_nil g (by simp)

/-- Keys that do not decrease along the list increase from run to run. -/
theorem IsRuns.increasing {ι : Type*} [PartialOrder ι] {f : κ → ι}
    (h : IsRuns key xs groups) (hf : Function.Injective f)
    (hmono : xs.Pairwise fun a b => f (key a) ≤ f (key b)) :
    groups.IsChain fun g g' => ∀ a ∈ g, ∀ b ∈ g', f (key a) < f (key b) := by
  rw [← h.flatten, List.pairwise_flatten] at hmono
  have hle := List.isChain_iff_getElem.mp hmono.2.isChain
  have hdiffer := List.isChain_iff_getElem.mp h.differ
  refine List.isChain_iff_getElem.mpr fun i hi a ha b hb => ?_
  exact lt_of_le_of_ne (hle i hi a ha b hb)
    (hf.ne (hdiffer i hi a ha b hb))

end Runs
