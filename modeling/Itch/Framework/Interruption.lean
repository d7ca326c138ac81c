import Itch.Framework.Transducer

/-!
# Calls that throw

A component calls back, and a call may throw, which depends on the calls made
before it. `perform` makes a list of calls up to the first that throws, which
is all there is to know about them (§1). `Forwards` says that nothing which is
thrown gets lost; §2 says when that is so for a component that catches some of
it. §3 is about a queue whose items are only taken off after all of them have
been handled (`Queue.feed`), and says when no item is handled twice although
handling them may throw (`once_iff`).
-/

namespace Interruption

open Transducer

variable {α β γ σ ε : Type*}

/-! ## §1  Making calls -/

/-- What a call throws after the calls before it. -/
abbrev Throws (β ε : Type*) := List β → β → Option ε

/-- The calls that are made of a list, and what the last of them throws. -/
def perform (throws : Throws β ε) (before : List β) :
    List β → List β × Option ε
  | [] => ([], none)
  | b :: bs =>
      match throws before b with
      | some x => ([b], some x)
      | none =>
          (b :: (perform throws (before ++ [b]) bs).1,
            (perform throws (before ++ [b]) bs).2)

section Perform

variable {throws : Throws β ε} {before bs cs : List β} {b : β} {x : ε}

@[simp] theorem perform_nil : perform throws before [] = ([], none) := rfl

theorem perform_cons_some (h : throws before b = some x) :
    perform throws before (b :: bs) = ([b], some x) := by
  simp only [perform, h]

theorem perform_cons_none (h : throws before b = none) :
    perform throws before (b :: bs) =
      (b :: (perform throws (before ++ [b]) bs).1,
        (perform throws (before ++ [b]) bs).2) := by
  simp only [perform, h]

/-- One call at most. -/
theorem perform_toList (throws : Throws β ε) (before : List β)
    (o : Option β) :
    perform throws before o.toList = (o.toList, o.bind (throws before)) := by
  cases o with
  | none => rfl
  | some b =>
      rw [Option.bind_some]
      cases h : throws before b with
      | none => exact perform_cons_none h
      | some x => exact perform_cons_some h

/-- Either nothing is thrown and all calls are made, or the last call that is
made throws. -/
theorem perform_cases (throws : Throws β ε) (before bs : List β) :
    perform throws before bs = (bs, none) ∨
      ∃ pre b post x, bs = pre ++ b :: post ∧
        perform throws before pre = (pre, none) ∧
        throws (before ++ pre) b = some x ∧
        perform throws before bs = (pre ++ [b], some x) := by
  induction bs generalizing before with
  | nil => exact .inl rfl
  | cons b bs ih =>
      cases h : throws before b with
      | some x =>
          refine .inr ⟨[], b, bs, x, rfl, rfl, ?_, perform_cons_some h⟩
          rw [List.append_nil]
          exact h
      | none =>
          rw [perform_cons_none h]
          rcases ih (before ++ [b]) with hall | ⟨pre, c, post, x, rfl, hpre, hx, hall⟩
          · left
            rw [hall]
          · right
            refine ⟨b :: pre, c, post, x, rfl, ?_, ?_, ?_⟩
            · rw [perform_cons_none h, hpre]
            · rw [← hx, List.append_assoc]
              rfl
            · rw [hall]
              rfl

theorem perform_quiet (h : ∀ before b, throws before b = none)
    (before bs : List β) : perform throws before bs = (bs, none) := by
  rcases perform_cases throws before bs with
    hall | ⟨pre, b, post, x, -, -, hx, -⟩
  · exact hall
  · rw [h] at hx
    cases hx

theorem perform_append_none (h : (perform throws before bs).2 = none) :
    perform throws before (bs ++ cs) =
      (bs ++ (perform throws (before ++ bs) cs).1,
        (perform throws (before ++ bs) cs).2) := by
  induction bs generalizing before with
  | nil => simp
  | cons b bs ih =>
      cases hb : throws before b with
      | some x =>
          rw [perform_cons_some hb] at h
          cases h
      | none =>
          rw [perform_cons_none hb] at h
          rw [List.cons_append, perform_cons_none hb, ih h, List.append_assoc]
          rfl

theorem perform_append_some (h : (perform throws before bs).2 = some x) :
    perform throws before (bs ++ cs) = perform throws before bs := by
  induction bs generalizing before with
  | nil => cases h
  | cons b bs ih =>
      cases hb : throws before b with
      | some x => rw [List.cons_append, perform_cons_some hb, perform_cons_some hb]
      | none =>
          rw [perform_cons_none hb] at h
          rw [List.cons_append, perform_cons_none hb, perform_cons_none hb,
            ih h]

theorem perform_eq_of_none (h : (perform throws before bs).2 = none) :
    perform throws before bs = (bs, none) := by
  have happend : perform throws before (bs ++ []) = _ := perform_append_none h
  rw [List.append_nil] at happend
  rw [happend, perform_nil]
  exact congrArg (·, none) (List.append_nil bs)

theorem perform_append_eq_none :
    (perform throws before (bs ++ cs)).2 = none ↔
      (perform throws before bs).2 = none ∧
        (perform throws (before ++ bs) cs).2 = none := by
  cases h : (perform throws before bs).2 with
  | none => rw [perform_append_none h, and_iff_right rfl]
  | some x =>
      rw [perform_append_some h, h]
      simp

theorem perform_cons_eq_none :
    (perform throws before (b :: bs)).2 = none ↔
      throws before b = none ∧
        (perform throws (before ++ [b]) bs).2 = none := by
  cases h : throws before b with
  | none => rw [perform_cons_none h, and_iff_right rfl]
  | some x =>
      rw [perform_cons_some h]
      simp

/-- The calls before can be left to what is thrown. -/
theorem perform_shift (throws : Throws β ε) (before first bs : List β) :
    perform (fun bs' => throws (before ++ bs')) first bs =
      perform throws (before ++ first) bs := by
  induction bs generalizing first with
  | nil => rfl
  | cons b bs ih => simp only [perform, ih, List.append_assoc]

/-- Calls that only some of the events are, read through `f`. -/
theorem perform_filterMap {f : β → Option γ} {throws' : Throws γ ε}
    (hthrows : ∀ before b,
      throws before b = (f b).bind (throws' (before.filterMap f)))
    (before bs : List β) :
    perform throws' (before.filterMap f) (bs.filterMap f) =
      ((perform throws before bs).1.filterMap f,
        (perform throws before bs).2) := by
  induction bs generalizing before with
  | nil => rfl
  | cons b bs ih =>
      have hb := hthrows before b
      cases hf : f b with
      | none =>
          rw [hf] at hb
          rw [perform_cons_none hb, List.filterMap_cons_none hf,
            List.filterMap_cons_none hf, ← ih, List.filterMap_append,
            List.filterMap_cons_none hf, List.filterMap_nil, List.append_nil]
      | some c =>
          rw [hf, Option.bind_some] at hb
          rw [List.filterMap_cons_some hf]
          cases hc : throws' (before.filterMap f) c with
          | some x =>
              rw [hc] at hb
              rw [perform_cons_some hb, perform_cons_some hc,
                List.filterMap_cons_some hf]
              rfl
          | none =>
              rw [hc] at hb
              have hbefore : (before ++ [b]).filterMap f =
                  before.filterMap f ++ [c] := by
                rw [List.filterMap_append, List.filterMap_cons_some hf]
                rfl
              rw [perform_cons_none hb, perform_cons_none hc,
                List.filterMap_cons_some hf, ← hbefore, ih]

end Perform

/-! ## §2  What is thrown and caught -/

/-- The calls `made` of those that were `wanted`: what one of them throws is
the result, and if there is none then no call is missing. -/
structure Forwards (throws : Throws β ε) (before wanted made : List β)
    (result : Option ε) : Prop where
  propagates : ∀ pre b post x, made = pre ++ b :: post →
    throws (before ++ pre) b = some x → result = some x
  complete : result = none → made = wanted

/-- The calls of a component that catches some of what they throw, and goes
on. -/
def sparing (caught : ε → Bool) (throws : Throws β ε) : Throws β ε :=
  fun before b => (throws before b).filter fun x => !caught x

section Caught

variable (caught : ε → Bool) (throws : Throws β ε) (before bs : List β)

/-- Nothing that is caught is thrown first. -/
def Spared : Prop :=
  ∀ x ∈ (perform throws before bs).2, caught x = false

variable {caught throws before bs}

/-- What a call throws that is made is what is thrown in the end. -/
theorem perform_propagates {pre post : List β} {b : β} {x : ε}
    (hmade : (perform throws before bs).1 = pre ++ b :: post)
    (hx : throws (before ++ pre) b = some x) :
    (perform throws before bs).2 = some x := by
  rcases perform_cases throws before bs with
    hall | ⟨pre', b', post', x', -, hpre', hx', hall⟩
  · have hquiet : (perform throws before (pre ++ b :: post)).2 = none := by
      rw [← hmade, hall, hall]
    rw [perform_append_eq_none, perform_cons_eq_none, hx] at hquiet
    cases hquiet.2.1
  · rw [hall] at hmade
    rcases List.eq_nil_or_concat' post with rfl | ⟨rest, c, rfl⟩
    · obtain ⟨rfl, hb⟩ := List.append_inj' hmade rfl
      cases hb
      rw [hall, ← hx, hx']
    · -- then it was made before the one that threw
      have heq : pre' ++ [b'] = (pre ++ b :: rest) ++ [c] := by
        rw [List.append_assoc, List.cons_append]
        exact hmade
      obtain ⟨rfl, -⟩ := List.append_inj' heq rfl
      have hquiet : (perform throws before (pre ++ b :: rest)).2 = none := by
        rw [hpre']
      rw [perform_append_eq_none, perform_cons_eq_none, hx] at hquiet
      cases hquiet.2.1

theorem forwards_perform : Forwards throws before bs
    (perform throws before bs).1 (perform throws before bs).2 := by
  constructor
  · intro pre b post x hmade hx
    exact perform_propagates hmade hx
  · intro h
    rw [perform_eq_of_none h]

/-- A component that gives up after what it has caught. -/
theorem forwards_caught_iff : Forwards throws before bs
      (perform throws before bs).1
      ((perform throws before bs).2.filter fun x => !caught x) ↔
    Spared caught throws before bs := by
  constructor
  · intro h x hx
    rw [Option.mem_def] at hx
    rcases perform_cases throws before bs with
      hall | ⟨pre, b, post, x', -, -, hx', hall⟩
    · rw [hall] at hx
      cases hx
    · rw [hall] at hx h
      cases hx
      have hfilter := h.propagates pre b [] x rfl hx'
      simpa using (Option.filter_eq_some_iff.mp hfilter).2
  · intro h
    have hfilter : ((perform throws before bs).2.filter fun x => !caught x) =
        (perform throws before bs).2 := by
      cases hresult : (perform throws before bs).2 with
      | none => rfl
      | some x => rw [Option.filter_some, h x hresult]; rfl
    rw [hfilter]
    exact forwards_perform

theorem perform_sparing_none (h : (perform throws before bs).2 = none) :
    (perform (sparing caught throws) before bs).2 = none := by
  induction bs generalizing before with
  | nil => rfl
  | cons b bs ih =>
      rw [perform_cons_eq_none] at h ⊢
      refine ⟨?_, ih h.2⟩
      rw [sparing, h.1]
      rfl

/-- A component that goes on after what it has caught. -/
theorem forwards_sparing_iff : Forwards throws before bs
      (perform (sparing caught throws) before bs).1
      (perform (sparing caught throws) before bs).2 ↔
    Spared caught throws before bs := by
  rcases perform_cases throws before bs with
    hall | ⟨pre, b, post, x, rfl, hpre, hx, hall⟩
  · have hnone : (perform throws before bs).2 = none := by rw [hall]
    have hquiet : (perform (sparing caught throws) before bs).2 = none :=
      perform_sparing_none hnone
    rw [perform_eq_of_none hquiet, ← hall]
    refine iff_of_true forwards_perform ?_
    intro x hx
    rw [hnone] at hx
    cases hx
  · have hquiet : (perform (sparing caught throws) before pre).2 = none := by
      apply perform_sparing_none
      rw [hpre]
    cases hcaught : caught x with
    | false =>
        have hthrows : sparing caught throws (before ++ pre) b = some x := by
          rw [sparing, hx]
          simp [hcaught]
        have hsame : perform (sparing caught throws) before (pre ++ b :: post) =
            perform throws before (pre ++ b :: post) := by
          rw [perform_append_none hquiet, perform_cons_some hthrows, hall]
        rw [hsame]
        refine iff_of_true forwards_perform ?_
        rw [Spared, hall]
        rintro x' hx'
        cases hx'
        exact hcaught
    | true =>
        refine iff_of_false ?_ ?_
        · intro h
          have hthrows : sparing caught throws (before ++ pre) b = none := by
            rw [sparing, hx]
            simp [hcaught]
          -- the call is made and what it throws is not the result
          have hresult := h.propagates pre b _ x
            (by rw [perform_append_none hquiet, perform_cons_none hthrows]) hx
          rcases perform_cases (sparing caught throws) before
            (pre ++ b :: post) with hnone | ⟨pre', b', -, x', -, -, hx', hsome⟩
          · rw [hnone] at hresult
            cases hresult
          · rw [hsome] at hresult
            cases hresult
            have hspared := (Option.filter_eq_some_iff.mp hx').2
            rw [hcaught] at hspared
            cases hspared
        · intro h
          have hfalse := h x (by rw [hall]; rfl)
          rw [hcaught] at hfalse
          cases hfalse

end Caught

/-! ## §3  A queue that is emptied at the end -/

/-- Handles items until one of them throws: the state then, what there is to
note of each item, and what was thrown. -/
def attempt (handle : σ → α → σ × β × Option ε) (s : σ) :
    List α → σ × List β × Option ε
  | [] => (s, [], none)
  | a :: as =>
      match (handle s a).2.2 with
      | some x => ((handle s a).1, [(handle s a).2.1], some x)
      | none =>
          ((attempt handle (handle s a).1 as).1,
            (handle s a).2.1 :: (attempt handle (handle s a).1 as).2.1,
            (attempt handle (handle s a).1 as).2.2)

structure Queue (σ α : Type*) where
  state : σ
  pending : List α

/-- Handles what is pending and the new items. All of them stay pending if one
of them throws. -/
def Queue.feed (handle : σ → α → σ × β × Option ε) (q : Queue σ α)
    (as : List α) : Queue σ α × List β :=
  match (attempt handle q.state (q.pending ++ as)).2.2 with
  | none =>
      (⟨(attempt handle q.state (q.pending ++ as)).1, []⟩,
        (attempt handle q.state (q.pending ++ as)).2.1)
  | some _ =>
      (⟨(attempt handle q.state (q.pending ++ as)).1, q.pending ++ as⟩,
        (attempt handle q.state (q.pending ++ as)).2.1)

/-- No delivery is made twice, and every item that counts is handled once. -/
structure Once [BEq α] (delivers counts : α → Bool)
    (items handled : List α) : Prop where
  delivered : (handled.filter delivers).Nodup
  counted : ∀ a ∈ items, counts a → handled.count a = 1

section Queue

variable {handle : σ → α → σ × β × Option ε} {s : σ} {as bs : List α} {a : α}
  {x : ε}

theorem attempt_cons_some (h : (handle s a).2.2 = some x) :
    attempt handle s (a :: as) =
      ((handle s a).1, [(handle s a).2.1], some x) := by
  simp only [attempt, h]

theorem attempt_cons_none (h : (handle s a).2.2 = none) :
    attempt handle s (a :: as) =
      ((attempt handle (handle s a).1 as).1,
        (handle s a).2.1 :: (attempt handle (handle s a).1 as).2.1,
        (attempt handle (handle s a).1 as).2.2) := by
  simp only [attempt, h]

theorem attempt_append_none (h : (attempt handle s as).2.2 = none) :
    attempt handle s (as ++ bs) =
      ((attempt handle (attempt handle s as).1 bs).1,
        (attempt handle s as).2.1 ++
          (attempt handle (attempt handle s as).1 bs).2.1,
        (attempt handle (attempt handle s as).1 bs).2.2) := by
  induction as generalizing s with
  | nil => rfl
  | cons a as ih =>
      cases ha : (handle s a).2.2 with
      | some x =>
          rw [attempt_cons_some ha] at h
          cases h
      | none =>
          rw [attempt_cons_none ha] at h
          rw [List.cons_append, attempt_cons_none ha, attempt_cons_none ha,
            ih h]
          rfl

theorem attempt_append_some (h : (attempt handle s as).2.2 = some x) :
    attempt handle s (as ++ bs) = attempt handle s as := by
  induction as generalizing s with
  | nil => cases h
  | cons a as ih =>
      cases ha : (handle s a).2.2 with
      | some y =>
          rw [List.cons_append, attempt_cons_some ha, attempt_cons_some ha]
      | none =>
          rw [attempt_cons_none ha] at h
          rw [List.cons_append, attempt_cons_none ha, attempt_cons_none ha,
            ih h]

theorem attempt_append_eq_none :
    (attempt handle s (as ++ bs)).2.2 = none ↔
      (attempt handle s as).2.2 = none ∧
        (attempt handle (attempt handle s as).1 bs).2.2 = none := by
  cases h : (attempt handle s as).2.2 with
  | none => rw [attempt_append_none h, and_iff_right rfl]
  | some x =>
      rw [attempt_append_some h, h]
      simp

theorem attempt_cons_eq_none :
    (attempt handle s (a :: as)).2.2 = none ↔
      (handle s a).2.2 = none ∧
        (attempt handle (handle s a).1 as).2.2 = none := by
  cases h : (handle s a).2.2 with
  | none => rw [attempt_cons_none h, and_iff_right rfl]
  | some x =>
      rw [attempt_cons_some h]
      simp

theorem feed_none {q : Queue σ α}
    (h : (attempt handle q.state (q.pending ++ as)).2.2 = none) :
    q.feed handle as =
      (⟨(attempt handle q.state (q.pending ++ as)).1, []⟩,
        (attempt handle q.state (q.pending ++ as)).2.1) := by
  simp only [Queue.feed, h]

theorem feed_some {q : Queue σ α}
    (h : (attempt handle q.state (q.pending ++ as)).2.2 = some x) :
    q.feed handle as =
      (⟨(attempt handle q.state (q.pending ++ as)).1, q.pending ++ as⟩,
        (attempt handle q.state (q.pending ++ as)).2.1) := by
  simp only [Queue.feed, h]

theorem feed_snd (q : Queue σ α) : (q.feed handle as).2 =
    (attempt handle q.state (q.pending ++ as)).2.1 := by
  unfold Queue.feed
  split
  · rfl
  · rfl

/-- Where nothing is thrown it does not matter how the items come. -/
theorem run_feed_none {batches : List (List α)}
    (h : (attempt handle s batches.flatten).2.2 = none) :
    run (Queue.feed handle) ⟨s, []⟩ batches =
      (⟨(attempt handle s batches.flatten).1, []⟩,
        (attempt handle s batches.flatten).2.1) := by
  induction batches generalizing s with
  | nil => rfl
  | cons as batches ih =>
      rw [List.flatten_cons] at h ⊢
      have hboth := attempt_append_eq_none.mp h
      have hfeed : Queue.feed handle ⟨s, []⟩ as =
          (⟨(attempt handle s as).1, []⟩, (attempt handle s as).2.1) :=
        feed_none hboth.1
      rw [run_cons, hfeed, attempt_append_none hboth.1, ih hboth.2]

variable {item : β → α} {delivers counts : α → Bool}

section Items

variable (hitem : ∀ s a, item (handle s a).2.1 = a)

include hitem

theorem items_of_none (h : (attempt handle s as).2.2 = none) :
    (attempt handle s as).2.1.map item = as := by
  induction as generalizing s with
  | nil => rfl
  | cons a as ih =>
      have hboth := attempt_cons_eq_none.mp h
      rw [attempt_cons_none hboth.1, List.map_cons, hitem, ih hboth.2]

theorem items_of_some (post : List α) (h : (attempt handle s as).2.2 = none)
    (ha : (handle (attempt handle s as).1 a).2.2 = some x) :
    (attempt handle s (as ++ a :: post)).2.2 = some x ∧
      (attempt handle s (as ++ a :: post)).2.1.map item = as ++ [a] := by
  rw [attempt_append_none h, attempt_cons_some ha]
  refine ⟨rfl, ?_⟩
  rw [List.map_append, items_of_none hitem h, List.map_singleton, hitem]

/-- The item that throws first tells them apart. -/
theorem first_unique {pre pre' post post' : List α} {b : α} {y : ε}
    (hpre : (attempt handle s pre).2.2 = none)
    (hx : (handle (attempt handle s pre).1 a).2.2 = some x)
    (hpre' : (attempt handle s pre').2.2 = none)
    (hy : (handle (attempt handle s pre').1 b).2.2 = some y)
    (heq : pre ++ a :: post = pre' ++ b :: post') :
    pre = pre' ∧ a = b ∧ post = post' := by
  have hitems := (items_of_some hitem post hpre hx).2
  rw [heq, (items_of_some hitem post' hpre' hy).2] at hitems
  obtain ⟨rfl, hab⟩ := List.append_inj' hitems rfl
  cases hab
  exact ⟨rfl, rfl, List.cons.inj (List.append_cancel_left heq) |>.2⟩

end Items

/-- The first item that throws. -/
theorem attempt_cases (handle : σ → α → σ × β × Option ε) (s : σ)
    (as : List α) :
    (attempt handle s as).2.2 = none ∨
      ∃ pre a post x, as = pre ++ a :: post ∧
        (attempt handle s pre).2.2 = none ∧
        (handle (attempt handle s pre).1 a).2.2 = some x := by
  induction as generalizing s with
  | nil => exact .inl rfl
  | cons a as ih =>
      cases ha : (handle s a).2.2 with
      | some x => exact .inr ⟨[], a, as, x, rfl, rfl, ha⟩
      | none =>
          rcases ih (handle s a).1 with h | ⟨pre, b, post, x, rfl, hpre, hx⟩
          · exact .inl (attempt_cons_eq_none.mpr ⟨ha, h⟩)
          · refine .inr ⟨a :: pre, b, post, x, rfl, ?_, ?_⟩
            · exact attempt_cons_eq_none.mpr ⟨ha, hpre⟩
            · rw [attempt_cons_none ha]
              exact hx

/-- The first batch of which an item throws. -/
theorem exists_first_batch {batches : List (List α)}
    (h : (attempt handle s batches.flatten).2.2 ≠ none) :
    ∃ init as rest, batches = init ++ as :: rest ∧
      (attempt handle s init.flatten).2.2 = none ∧
      (attempt handle s (init ++ [as]).flatten).2.2 ≠ none := by
  induction batches using List.reverseRecOn with
  | nil => exact absurd rfl h
  | append_singleton batches as ih =>
      cases hbatches : (attempt handle s batches.flatten).2.2 with
      | none => exact ⟨batches, as, [], rfl, hbatches, h⟩
      | some x =>
          obtain ⟨init, first, rest, rfl, hinit, hfirst⟩ :=
            ih (by rw [hbatches]; exact Option.some_ne_none x)
          exact ⟨init, first, rest ++ [as], by simp, hinit, hfirst⟩

/-- What is noted of an item tells which it was, and an item that throws was
delivered. The states and the items this is asked of are those of a run. -/
structure Handles (handle : σ → α → σ × β × Option ε) (item : β → α)
    (delivers : α → Bool) (inv : σ → Prop) (good : α → Prop) : Prop where
  noted : ∀ s a, item (handle s a).2.1 = a
  keeps : ∀ {s a}, inv s → good a → inv (handle s a).1
  delivered : ∀ {s a}, inv s → good a → (handle s a).2.2 ≠ none → delivers a

/-- All but the items in `post` were handled, and those once. -/
theorem once_append_iff [BEq α] [LawfulBEq α] {handled post : List α}
    (hnodup : (handled ++ post).Nodup) :
    Once delivers counts (handled ++ post) handled ↔
      ∀ b ∈ post, counts b = false := by
  obtain ⟨hhandled, -, hdisjoint⟩ := List.nodup_append.mp hnodup
  constructor
  · intro h b hb
    by_contra hcounts
    have hcount := h.counted b (List.mem_append_right _ hb)
      (Bool.not_eq_false _ ▸ hcounts)
    have hmem : b ∈ handled :=
      List.count_pos_iff.mp (by rw [hcount]; exact one_pos)
    exact hdisjoint b hmem b hb rfl
  · intro h
    refine ⟨hhandled.filter _, ?_⟩
    intro b hb hcounted
    rcases List.mem_append.mp hb with hb | hb
    · exact List.count_eq_one_of_mem hhandled hb
    · rw [h b hb] at hcounted
      cases hcounted

section Once

variable {inv : σ → Prop} {good : α → Prop} {batches : List (List α)}
  (hhandles : Handles handle item delivers inv good)

include hhandles

theorem inv_attempt (hs : inv s) (hgood : ∀ a ∈ as, good a) :
    inv (attempt handle s as).1 := by
  induction as generalizing s with
  | nil => exact hs
  | cons a as ih =>
      obtain ⟨ha, has⟩ := List.forall_mem_cons.mp hgood
      cases hx : (handle s a).2.2 with
      | some x =>
          rw [attempt_cons_some hx]
          exact hhandles.keeps hs ha
      | none =>
          rw [attempt_cons_none hx]
          exact ih (hhandles.keeps hs ha) has

theorem delivers_of_throws {pre : List α} (hs : inv s)
    (hgood : ∀ b ∈ pre ++ [a], good b)
    (hx : (handle (attempt handle s pre).1 a).2.2 = some x) :
    delivers a := by
  obtain ⟨hpre, ha⟩ := List.forall_mem_append.mp hgood
  apply hhandles.delivered (inv_attempt hhandles hs hpre)
  · exact ha a (List.mem_singleton_self a)
  · rw [hx]
    exact Option.some_ne_none x

/-- What is pending is handled again up to something that was delivered. -/
theorem redelivered {pre post : List α} (hs : inv s)
    (hgood : ∀ a ∈ as, good a) (has : as = pre ++ a :: post)
    (ha : delivers a) :
    ∃ b ∈ pre ++ [a], delivers b ∧
      b ∈ (attempt handle s as).2.1.map item := by
  have hfirst : pre ++ [a] <+: as := ⟨post, by rw [has, List.append_assoc]; rfl⟩
  rcases attempt_cases handle s as with
    hnone | ⟨pre', b, post', x, heq, hpre', hx⟩
  · refine ⟨a, by simp, ha, ?_⟩
    rw [items_of_none hhandles.noted hnone]
    exact hfirst.subset (by simp)
  · have hitems := (items_of_some hhandles.noted post' hpre' hx).2
    have hsecond : pre' ++ [b] <+: as :=
      ⟨post', by rw [heq, List.append_assoc]; rfl⟩
    rw [heq, hitems]
    rcases List.prefix_or_prefix_of_prefix hfirst hsecond with h | h
    · exact ⟨a, by simp, ha, h.subset (by simp)⟩
    · refine ⟨b, h.subset (by simp), ?_, by simp⟩
      exact delivers_of_throws hhandles hs
        (fun c hc => hgood c (hsecond.subset hc)) hx

/-- Something is delivered again if a batch is followed by another one and
one of its items throws. -/
theorem not_nodup_run {init rest : List (List α)} (hs : inv s)
    (hgood : ∀ a ∈ (init ++ as :: bs :: rest).flatten, good a)
    (hinit : (attempt handle s init.flatten).2.2 = none)
    (hthrows : (attempt handle s (init ++ [as]).flatten).2.2 ≠ none) :
    ¬(((run (Queue.feed handle) ⟨s, []⟩ (init ++ as :: bs :: rest)).2.map
      item).filter delivers).Nodup := by
  intro hnodup
  rw [run_append, run_feed_none hinit, run_cons, run_cons] at hnodup
  rw [List.flatten_append, List.flatten_singleton, Ne,
    attempt_append_eq_none] at hthrows
  rw [List.flatten_append, List.flatten_cons, List.flatten_cons,
    ← List.append_assoc as bs] at hgood
  obtain ⟨hgoodInit, hgoodRest⟩ := List.forall_mem_append.mp hgood
  obtain ⟨hgoodBoth, -⟩ := List.forall_mem_append.mp hgoodRest
  obtain ⟨hgoodAs, -⟩ := List.forall_mem_append.mp hgoodBoth
  have hfirst := inv_attempt hhandles hs hgoodInit
  rcases attempt_cases handle (attempt handle s init.flatten).1 as with
    hnone | ⟨pre, a, post, x, rfl, hpre, hx⟩
  · exact hthrows ⟨hinit, hnone⟩
  · obtain ⟨hsome, hitems⟩ := items_of_some hhandles.noted post hpre hx
    have hsecond := inv_attempt hhandles hfirst hgoodAs
    have ha : delivers a := by
      apply delivers_of_throws hhandles hfirst _ hx
      intro b hb
      apply hgoodAs
      rw [List.append_cons]
      exact List.mem_append_left _ hb
    have hfeed : Queue.feed handle ⟨(attempt handle s init.flatten).1, []⟩
        (pre ++ a :: post) = (⟨_, pre ++ a :: post⟩, _) := feed_some hsome
    rw [hfeed, feed_snd] at hnodup
    obtain ⟨b, hb, hdelivered, hagain⟩ := redelivered hhandles hsecond
      hgoodBoth (List.append_assoc pre (a :: post) bs) ha
    simp only [List.map_append, List.filter_append] at hnodup
    obtain ⟨-, hnodup, -⟩ := List.nodup_append.mp hnodup
    obtain ⟨-, -, hdisjoint⟩ := List.nodup_append.mp hnodup
    refine hdisjoint b ?_ b ?_ rfl
    · refine List.mem_filter.mpr ⟨?_, hdelivered⟩
      have hitems' : List.map item (attempt handle (attempt handle s
          init.flatten).1 ([] ++ (pre ++ a :: post))).2.1 = pre ++ [a] := hitems
      rw [hitems']
      exact hb
    · exact List.mem_append_left _ (List.mem_filter.mpr ⟨hagain, hdelivered⟩)

variable {init : List (List α)} {last : List α}

theorem not_once_early [BEq α] (hs : inv s)
    (hgood : ∀ a ∈ (init ++ [last]).flatten, good a)
    (hthrows : (attempt handle s init.flatten).2.2 ≠ none) :
    ¬Once delivers counts (init ++ [last]).flatten
      ((run (Queue.feed handle) ⟨s, []⟩ (init ++ [last])).2.map item) := by
  intro h
  obtain ⟨first, as, rest, rfl, hfirst, has⟩ := exists_first_batch hthrows
  obtain ⟨bs, rest', hrest⟩ : ∃ bs rest', rest ++ [last] = bs :: rest' :=
    List.exists_cons_of_ne_nil (by simp)
  have hdelivered := h.delivered
  rw [List.append_assoc, List.cons_append, hrest] at hdelivered hgood
  exact not_nodup_run hhandles hs hgood hfirst has hdelivered

/-- The items handled where nothing is thrown before the last batch. -/
theorem items_run_last (hinit : (attempt handle s init.flatten).2.2 = none) :
    (run (Queue.feed handle) ⟨s, []⟩ (init ++ [last])).2.map item =
      init.flatten ++ (attempt handle (attempt handle s init.flatten).1
        last).2.1.map item := by
  have hfeed : Queue.feed handle ⟨(attempt handle s init.flatten).1, []⟩
      last = (_, (attempt handle (attempt handle s init.flatten).1
        last).2.1) := Prod.ext rfl (feed_snd _)
  rw [run_snoc, run_feed_none hinit, hfeed, List.map_append,
    items_of_none hhandles.noted hinit]

theorem once_last_iff [BEq α] [LawfulBEq α]
    (hnodup : (init.flatten ++ last).Nodup)
    (hinit : (attempt handle s init.flatten).2.2 = none) :
    Once delivers counts (init.flatten ++ last)
        ((run (Queue.feed handle) ⟨s, []⟩ (init ++ [last])).2.map item) ↔
      ∀ pre a post, init.flatten ++ last = pre ++ a :: post →
        (attempt handle s pre).2.2 = none →
        (handle (attempt handle s pre).1 a).2.2 ≠ none →
        a ∉ init.flatten ∧ ∀ b ∈ post, counts b = false := by
  rw [items_run_last hhandles hinit]
  rcases attempt_cases handle (attempt handle s init.flatten).1 last with
    hlast | ⟨pre, a, post, x, rfl, hpre, hx⟩
  · -- nothing is thrown at all
    rw [items_of_none hhandles.noted hlast]
    rw [← List.append_nil (init.flatten ++ last)] at hnodup
    have honce : Once delivers counts (init.flatten ++ last ++ [])
        (init.flatten ++ last) := (once_append_iff hnodup).mpr (by simp)
    rw [List.append_nil] at honce
    refine iff_of_true honce ?_
    intro pre a post heq _ hthrows
    have hall := attempt_append_eq_none.mpr ⟨hinit, hlast⟩
    rw [heq, attempt_append_eq_none, attempt_cons_eq_none] at hall
    exact absurd hall.2.1 hthrows
  · rw [(items_of_some hhandles.noted post hpre hx).2]
    have hall : init.flatten ++ (pre ++ a :: post) =
        (init.flatten ++ (pre ++ [a])) ++ post := by simp
    have hfirst : (attempt handle s (init.flatten ++ pre)).2.2 = none :=
      attempt_append_eq_none.mpr ⟨hinit, hpre⟩
    have hx' : (handle (attempt handle s (init.flatten ++ pre)).1 a).2.2 =
        some x := by
      rw [attempt_append_none hinit]
      exact hx
    rw [hall] at hnodup ⊢
    rw [once_append_iff hnodup]
    constructor
    · intro h pre' a' post' heq hpre' hthrows
      obtain ⟨y, hy⟩ := Option.ne_none_iff_exists'.mp hthrows
      rw [← hall, ← List.append_assoc] at heq
      obtain ⟨rfl, rfl, rfl⟩ :=
        first_unique hhandles.noted hfirst hx' hpre' hy heq
      refine ⟨?_, h⟩
      intro ha
      have hhandled := (List.nodup_append.mp hnodup).1
      exact (List.nodup_append.mp hhandled).2.2 _ ha _ (by simp) rfl
    · intro h
      exact (h (init.flatten ++ pre) a post (by simp) hfirst
        (by rw [hx']; exact Option.some_ne_none x)).2

/-- Nothing is delivered twice and nothing that counts is left out, if and
only if nothing is thrown before the last batch, and there by no item that
something follows which counts. -/
theorem once_iff [BEq α] [LawfulBEq α] (hs : inv s)
    (hgood : ∀ a ∈ batches.flatten, good a)
    (hnodup : batches.flatten.Nodup) :
    Once delivers counts batches.flatten
        ((run (Queue.feed handle) ⟨s, []⟩ batches).2.map item) ↔
      ∀ pre a post, batches.flatten = pre ++ a :: post →
        (attempt handle s pre).2.2 = none →
        (handle (attempt handle s pre).1 a).2.2 ≠ none →
        a ∉ batches.dropLast.flatten ∧ ∀ b ∈ post, counts b = false := by
  rcases List.eq_nil_or_concat' batches with rfl | ⟨init, last, rfl⟩
  · refine iff_of_true ⟨List.nodup_nil, ?_⟩ ?_
    · intro a ha
      cases ha
    · intro pre a post heq
      cases pre with
      | nil => cases heq
      | cons b pre => cases heq
  · rw [List.dropLast_concat]
    rcases attempt_cases handle s init.flatten with
      hinit | ⟨pre, a, post, x, heq, hpre, hx⟩
    · rw [List.flatten_append, List.flatten_singleton] at hnodup ⊢
      exact once_last_iff hhandles hnodup hinit
    · have hthrows : (attempt handle s init.flatten).2.2 ≠ none := by
        rw [heq, (items_of_some hhandles.noted post hpre hx).1]
        exact Option.some_ne_none x
      refine iff_of_false (not_once_early hhandles hs hgood hthrows) ?_
      intro h
      refine (h pre a (post ++ last) (by simp [heq]) hpre ?_).1 (by simp [heq])
      rw [hx]
      exact Option.some_ne_none x

end Once

section Noted

variable {noted : β → Prop} {inv : σ → Prop} {good : α → Prop}
  (hhandles : Handles handle item delivers inv good)
  (hnoted : ∀ {s a}, inv s → good a → noted (handle s a).2.1)

include hhandles hnoted

theorem noted_attempt (hs : inv s) (hgood : ∀ a ∈ as, good a) :
    ∀ b ∈ (attempt handle s as).2.1, noted b := by
  induction as generalizing s with
  | nil =>
      intro b hb
      cases hb
  | cons a as ih =>
      obtain ⟨ha, has⟩ := List.forall_mem_cons.mp hgood
      cases hx : (handle s a).2.2 with
      | some x =>
          rw [attempt_cons_some hx]
          exact List.forall_mem_singleton.mpr (hnoted hs ha)
      | none =>
          rw [attempt_cons_none hx]
          exact List.forall_mem_cons.mpr
            ⟨hnoted hs ha, ih (hhandles.keeps hs ha) has⟩

/-- What is noted of every item is noted in every run. -/
theorem noted_run {q : Queue σ α} {batches : List (List α)}
    (hs : inv q.state) (hpending : ∀ a ∈ q.pending, good a)
    (hgood : ∀ a ∈ batches.flatten, good a) :
    ∀ b ∈ (run (Queue.feed handle) q batches).2, noted b := by
  induction batches generalizing q with
  | nil =>
      intro b hb
      cases hb
  | cons as batches ih =>
      rw [List.flatten_cons] at hgood
      obtain ⟨has, hbatches⟩ := List.forall_mem_append.mp hgood
      have hitems : ∀ a ∈ q.pending ++ as, good a :=
        List.forall_mem_append.mpr ⟨hpending, has⟩
      have hstate := inv_attempt hhandles hs hitems
      have hfirst := noted_attempt hhandles hnoted hs hitems
      rw [run_cons]
      refine List.forall_mem_append.mpr ⟨?_, ?_⟩
      · rw [feed_snd]
        exact hfirst
      · cases hx : (attempt handle q.state (q.pending ++ as)).2.2 with
        | none =>
            rw [feed_none hx]
            exact ih hstate (fun a ha => absurd ha List.not_mem_nil) hbatches
        | some x =>
            rw [feed_some hx]
            exact ih hstate hitems hbatches

end Noted

end Queue

end Interruption
