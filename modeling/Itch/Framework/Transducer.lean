import Mathlib.Data.List.Basic
import Mathlib.Tactic

/-!
# Runs of a step function with outputs

A component is a function `step : σ → α → σ × List β`: from a state and an
input to the next state and the outputs of this step. `run` feeds it a list
of inputs and collects what it puts out.

The rules are the invariant rule (`run_invariant`, and `run_history` for what
was put out), both also under a side condition `ok` on the steps, collected
over a run by `Legal` (`Legal.history`), the simulation rule
(`run_simulates`) under such a condition on the second component, the same
for outputs that correspond (`run_relates`) and over translated inputs and
outputs (`run_translates`), and the unwinding rule (`Unwinding.purge`) for
components that keep a state for each of many keys.
What is put out at an input may depend on all of the inputs before it;
`withPast` puts these beside it.
-/

namespace Transducer

variable {σ τ α β : Type*}

def run (step : σ → α → σ × List β) (s : σ) : List α → σ × List β
  | [] => (s, [])
  | a :: as =>
      ((run step (step s a).1 as).1,
        (step s a).2 ++ (run step (step s a).1 as).2)

variable {step : σ → α → σ × List β} {step' : τ → α → τ × List β}

@[simp] theorem run_nil (s : σ) : run step s [] = (s, []) := rfl

theorem run_cons (s : σ) (a : α) (as : List α) :
    run step s (a :: as) =
      ((run step (step s a).1 as).1,
        (step s a).2 ++ (run step (step s a).1 as).2) := rfl

theorem run_append (s : σ) (as bs : List α) :
    run step s (as ++ bs) =
      ((run step (run step s as).1 bs).1,
        (run step s as).2 ++ (run step (run step s as).1 bs).2) := by
  induction as generalizing s with
  | nil => simp
  | cons a as ih => simp only [List.cons_append, run_cons, ih, List.append_assoc]

theorem run_snoc (s : σ) (as : List α) (a : α) :
    run step s (as ++ [a]) =
      ((step (run step s as).1 a).1,
        (run step s as).2 ++ (step (run step s as).1 a).2) := by
  rw [run_append, run_cons, run_nil, List.append_nil]

/-- What every step keeps, every run keeps. -/
theorem run_invariant {inv : σ → Prop}
    (hstep : ∀ s a, inv s → inv (step s a).1) {s : σ} (hs : inv s)
    (as : List α) : inv (run step s as).1 := by
  induction as generalizing s with
  | nil => exact hs
  | cons a as ih => exact ih (hstep s a hs)

/-- Every step of the run from `t` meets `ok`. -/
def Legal (step' : τ → α → τ × List β) (ok : τ → α → Prop) :
    τ → List α → Prop
  | _, [] => True
  | t, a :: as => ok t a ∧ Legal step' ok (step' t a).1 as

instance decidableLegal {ok : τ → α → Prop} [∀ t a, Decidable (ok t a)] :
    (t : τ) → (as : List α) → Decidable (Legal step' ok t as)
  | _, [] => inferInstanceAs (Decidable True)
  | t, a :: as =>
      have : Decidable (Legal step' ok (step' t a).1 as) := decidableLegal _ as
      inferInstanceAs (Decidable (_ ∧ _))

section Legal

variable {ok : τ → α → Prop} {t : τ} {as bs : List α} {a : α}

theorem legal_append : Legal step' ok t (as ++ bs) ↔
    Legal step' ok t as ∧ Legal step' ok (run step' t as).1 bs := by
  induction as generalizing t with
  | nil => simp [Legal]
  | cons b as ih => simp only [List.cons_append, Legal, ih, run_cons, and_assoc]

theorem legal_snoc : Legal step' ok t (as ++ [a]) ↔
    Legal step' ok t as ∧ ok (run step' t as).1 a := by
  rw [legal_append]
  simp only [Legal, and_true]

theorem Legal.of_prefix (h : Legal step' ok t bs) (hpre : as <+: bs) :
    Legal step' ok t as := by
  obtain ⟨cs, rfl⟩ := hpre
  exact (legal_append.mp h).1

theorem legal_of_prefixes
    (h : ∀ pre a, pre ++ [a] <+: as → ok (run step' t pre).1 a) :
    Legal step' ok t as := by
  induction as using List.reverseRecOn with
  | nil => trivial
  | append_singleton as a ih =>
      refine legal_snoc.mpr ⟨ih fun pre b hpre => ?_, ?_⟩
      · exact h pre b (hpre.trans (List.prefix_append as [a]))
      · exact h as a (List.prefix_refl _)

theorem legal_iff_prefixes : Legal step' ok t as ↔
    ∀ pre a, pre ++ [a] <+: as → ok (run step' t pre).1 a :=
  ⟨fun h _ _ hpre => (legal_snoc.mp (h.of_prefix hpre)).2, legal_of_prefixes⟩

/-- What every legal step keeps of the state and of what has been put out,
every legal run keeps. -/
theorem Legal.history {inv : τ → List β → Prop}
    (hstep : ∀ t bs a, inv t bs → ok t a →
      inv (step' t a).1 (bs ++ (step' t a).2))
    (ht : inv t []) (has : Legal step' ok t as) :
    inv (run step' t as).1 (run step' t as).2 := by
  induction as using List.reverseRecOn with
  | nil => exact ht
  | append_singleton as a ih =>
      obtain ⟨has, ha⟩ := legal_snoc.mp has
      rw [run_snoc]
      exact hstep _ _ a (ih has) ha

end Legal

/-- The same where every step is legal. -/
theorem run_history {inv : σ → List β → Prop}
    (hstep : ∀ s bs a, inv s bs → inv (step s a).1 (bs ++ (step s a).2))
    {s : σ} (hs : inv s []) (as : List α) :
    inv (run step s as).1 (run step s as).2 := by
  have has : Legal step (fun _ _ => True) s as :=
    legal_of_prefixes fun _ _ _ => trivial
  exact has.history (fun s bs a h _ => hstep s bs a h) hs

/-- Two components in step stay in step and put out the same. -/
theorem run_simulates {R : σ → τ → Prop} {ok : τ → α → Prop}
    (hstep : ∀ s t a, R s t → ok t a →
      R (step s a).1 (step' t a).1 ∧ (step s a).2 = (step' t a).2)
    {s : σ} {t : τ} (hst : R s t) {as : List α}
    (hok : Legal step' ok t as) :
    R (run step s as).1 (run step' t as).1 ∧
      (run step s as).2 = (run step' t as).2 := by
  induction as generalizing s t with
  | nil => exact ⟨hst, rfl⟩
  | cons a as ih =>
      obtain ⟨hR, hout⟩ := hstep s t a hst hok.1
      obtain ⟨hR', hout'⟩ := ih hR hok.2
      refine ⟨hR', ?_⟩
      rw [run_cons, run_cons, hout, hout']

/-- The same where the outputs correspond one by one. -/
theorem run_relates {γ : Type*} {step' : τ → α → τ × List γ} {R : σ → τ → Prop}
    {Q : β → γ → Prop} {ok : τ → α → Prop}
    (hstep : ∀ s t a, R s t → ok t a →
      R (step s a).1 (step' t a).1 ∧
        List.Forall₂ Q (step s a).2 (step' t a).2)
    {s : σ} {t : τ} (hst : R s t) {as : List α}
    (hok : Legal step' ok t as) :
    R (run step s as).1 (run step' t as).1 ∧
      List.Forall₂ Q (run step s as).2 (run step' t as).2 := by
  induction as generalizing s t with
  | nil => exact ⟨hst, .nil⟩
  | cons a as ih =>
      obtain ⟨hR, hout⟩ := hstep s t a hst hok.1
      obtain ⟨hR', hout'⟩ := ih hR hok.2
      exact ⟨hR', List.rel_append hout hout'⟩

/-- The same for a component that takes the inputs through `f` and whose
outputs are to be read through `g`. -/
theorem run_translates {α' β' : Type*} {step' : τ → α' → τ × List β'}
    {f : α → α'} {g : β' → List β} {R : σ → τ → Prop} {ok : α → Prop}
    (hstep : ∀ s t a, R s t → ok a →
      R (step s a).1 (step' t (f a)).1 ∧
        (step s a).2 = (step' t (f a)).2.flatMap g)
    {s : σ} {t : τ} (hst : R s t) {as : List α} (hok : ∀ a ∈ as, ok a) :
    R (run step s as).1 (run step' t (as.map f)).1 ∧
      (run step s as).2 = (run step' t (as.map f)).2.flatMap g := by
  induction as generalizing s t with
  | nil => exact ⟨hst, rfl⟩
  | cons a as ih =>
      obtain ⟨ha, has⟩ := List.forall_mem_cons.mp hok
      obtain ⟨hR, hout⟩ := hstep s t a hst ha
      obtain ⟨hR', hout'⟩ := ih hR has
      refine ⟨hR', ?_⟩
      rw [List.map_cons, run_cons, run_cons, hout, hout', List.flatMap_append]

/-! ### The past -/

/-- Each input with those before it. -/
def withPast (as : List α) : List (List α × α) :=
  as.mapIdx fun i a => (as.take i, a)

theorem withPast_snoc (as : List α) (a : α) :
    withPast (as ++ [a]) = withPast as ++ [(as, a)] := by
  rw [withPast, List.mapIdx_concat, List.take_left]
  congr 1
  refine List.mapIdx_eq_mapIdx_iff.mpr fun i hi => ?_
  rw [List.take_append_of_le_length hi.le]

theorem map_snd_withPast (as : List α) : (withPast as).map Prod.snd = as := by
  induction as using List.reverseRecOn with
  | nil => rfl
  | append_singleton as a ih =>
      rw [withPast_snoc, List.map_append, ih]
      rfl

theorem past_of_eq_append {as : List α} {before after : List (List α × α)}
    {x : List α × α} (h : withPast as = before ++ x :: after) :
    x.1 = before.map Prod.snd := by
  have has : as = before.map Prod.snd ++ x.2 :: after.map Prod.snd := by
    rw [← map_snd_withPast as, h, List.map_append]
    rfl
  have hlen : (before.map Prod.snd).length = before.length :=
    List.length_map _
  have hget : (withPast as)[before.length]? = some x := by
    rw [h, List.getElem?_append_right le_rfl, Nat.sub_self]
    rfl
  have ha : as[before.length]? = some x.2 := by
    rw [has, List.getElem?_append_right hlen.le, hlen, Nat.sub_self]
    rfl
  rw [withPast, List.getElem?_mapIdx, ha, Option.map_some] at hget
  rw [← Option.some.inj hget, has, List.take_left' hlen]

/-! ### Unwinding -/

variable {κ : Type*} {key : α → κ} {tag : β → κ} {same : κ → σ → σ → Prop}

/-- Each input has a key. `same k s s'` says that `s` and `s'` look alike to
the inputs of key `k`: these then do the same in both, and the inputs of other
keys change nothing about that. -/
structure Unwinding (step : σ → α → σ × List β) (key : α → κ) (tag : β → κ)
    (same : κ → σ → σ → Prop) : Prop where
  consistent : ∀ {s s' : σ} {a : α}, same (key a) s s' →
    same (key a) (step s a).1 (step s' a).1 ∧ (step s a).2 = (step s' a).2
  respects : ∀ {k : κ} {s s' : σ} {a : α}, key a ≠ k → same k s s' →
    same k (step s a).1 s'
  tagged : ∀ {s : σ} {a : α} {b : β}, b ∈ (step s a).2 → tag b = key a

/-- The inputs of the other keys can be taken out of a run. -/
theorem Unwinding.purge [DecidableEq κ] (h : Unwinding step key tag same)
    {k : κ} {s s' : σ} (hs : same k s s') (as : List α) :
    same k (run step s as).1
        (run step s' (as.filter (fun a => decide (key a = k)))).1 ∧
      (run step s as).2.filter (fun b => decide (tag b = k)) =
        (run step s' (as.filter (fun a => decide (key a = k)))).2 := by
  induction as generalizing s s' with
  | nil => exact ⟨hs, rfl⟩
  | cons a as ih =>
      rw [run_cons, List.filter_append]
      by_cases hk : key a = k
      · subst hk
        obtain ⟨hstep, hout⟩ := h.consistent hs
        obtain ⟨hrun, houts⟩ := ih hstep
        have hall : (step s a).2.filter (fun b => decide (tag b = key a)) =
            (step s a).2 :=
          List.filter_eq_self.mpr fun b hb => decide_eq_true (h.tagged hb)
        rw [List.filter_cons_of_pos (by simp), run_cons]
        exact ⟨hrun, by rw [hall, houts, hout]⟩
      · obtain ⟨hrun, houts⟩ := ih (h.respects hk hs)
        have hnone : (step s a).2.filter (fun b => decide (tag b = k)) = [] :=
          List.filter_eq_nil_iff.mpr fun b hb hb' =>
            hk ((h.tagged hb).symm.trans (of_decide_eq_true hb'))
        rw [List.filter_cons_of_neg (by simpa using hk), hnone]
        exact ⟨hrun, houts⟩

end Transducer
