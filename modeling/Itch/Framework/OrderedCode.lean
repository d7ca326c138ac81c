import Mathlib.Data.List.Basic
import Mathlib.Tactic

/-!
# Codes that keep the order

Numbers below a bound are written as lists of one length. The code keeps the
order if the lists are ordered lexicographically as the numbers are. Codes are
put together digit by digit or field by field (`OrderedCode.append`), as in a
positional or a mixed radix.
-/

variable {α : Type*} {r : α → α → Prop}

structure OrderedCode (r : α → α → Prop) (bound length : ℕ)
    (code : ℕ → List α) : Prop where
  length_eq : ∀ {n}, n < bound → (code n).length = length
  lex_iff : ∀ {m n}, m < bound → n < bound →
    (List.Lex r (code m) (code n) ↔ m < n)

namespace OrderedCode

/-- Of lists of one length, the fronts decide first. -/
theorem lex_append_iff {s s' rest rest' : List α} (h : s.length = s'.length) :
    List.Lex r (s ++ rest) (s' ++ rest') ↔
      List.Lex r s s' ∨ s = s' ∧ List.Lex r rest rest' := by
  induction s generalizing s' with
  | nil =>
    obtain rfl := List.length_eq_zero_iff.mp h.symm
    simp
  | cons c s ih =>
    cases s' with
    | nil => cases h
    | cons c' s' =>
      rw [List.cons_append, List.cons_append, List.cons_lex_cons_iff,
        List.cons_lex_cons_iff, ih (Nat.succ.inj h), List.cons.injEq]
      tauto

/-- The quotients decide first, then the remainders. -/
theorem lt_iff_div_mod (k m n : ℕ) :
    m < n ↔ m / k < n / k ∨ m / k = n / k ∧ m % k < n % k := by
  have hm := Nat.div_add_mod m k
  have hn := Nat.div_add_mod n k
  rcases lt_trichotomy (m / k) (n / k) with hlt | heq | hgt
  · exact iff_of_true (Nat.lt_of_div_lt_div hlt) (.inl hlt)
  · rw [heq] at hm ⊢
    constructor
    · intro h
      exact .inr ⟨rfl, by omega⟩
    · rintro (h | ⟨-, h⟩)
      · exact absurd h (lt_irrefl _)
      · omega
  · have hle := (Nat.lt_of_div_lt_div hgt).not_gt
    refine iff_of_false hle ?_
    rintro (h | ⟨h, -⟩)
    · exact lt_asymm h hgt
    · exact hgt.ne' h

variable {bound bound' length length' : ℕ} {code code' : ℕ → List α}

theorem mono (h : OrderedCode r bound length code) (hle : bound' ≤ bound) :
    OrderedCode r bound' length code :=
  ⟨fun hn => h.length_eq (hn.trans_le hle),
    fun hm hn => h.lex_iff (hm.trans_le hle) (hn.trans_le hle)⟩

theorem congr (h : OrderedCode r bound length code)
    (heq : ∀ n < bound, code' n = code n) :
    OrderedCode r bound length code' := by
  constructor
  · intro n hn
    rw [heq n hn, h.length_eq hn]
  · intro m n hm hn
    rw [heq m hm, heq n hn, h.lex_iff hm hn]

/-- One digit. -/
theorem singleton {digit : ℕ → α}
    (h : ∀ m < bound, ∀ n < bound, r (digit m) (digit n) ↔ m < n) :
    OrderedCode r bound 1 fun n => [digit n] := by
  constructor
  · intro n _
    rfl
  · intro m n hm hn
    rw [List.cons_lex_cons_iff, h m hm n hn]
    simp

variable [Std.Irrefl r]

theorem eq_of_code (h : OrderedCode r bound length code) {m n : ℕ}
    (hm : m < bound) (hn : n < bound) (heq : code m = code n) : m = n := by
  have hirrefl := List.lex_irrefl (r := r) (Std.Irrefl.irrefl) (code n)
  rcases lt_trichotomy m n with hlt | hmn | hgt
  · rw [← h.lex_iff hm hn, heq] at hlt
    exact absurd hlt hirrefl
  · exact hmn
  · rw [← h.lex_iff hn hm, heq] at hgt
    exact absurd hgt hirrefl

/-- A field in front of another, with a separator between them. -/
theorem append (h : OrderedCode r bound length code)
    (h' : OrderedCode r bound' length' code') (separator : List α) :
    OrderedCode r (bound * bound') (length + (separator.length + length'))
      fun n => code (n / bound') ++ (separator ++ code' (n % bound')) := by
  have hfields {n : ℕ} (hn : n < bound * bound') :
      n / bound' < bound ∧ n % bound' < bound' := by
    have hpos : 0 < bound' := Nat.pos_of_ne_zero (by
      rintro rfl
      exact absurd hn (Nat.not_lt_zero n))
    exact ⟨Nat.div_lt_of_lt_mul (by rwa [mul_comm] at hn), Nat.mod_lt n hpos⟩
  constructor
  · intro n hn
    obtain ⟨hfront, hback⟩ := hfields hn
    rw [List.length_append, List.length_append, h.length_eq hfront,
      h'.length_eq hback]
  · intro m n hm hn
    obtain ⟨hfront, hback⟩ := hfields hm
    obtain ⟨hfront', hback'⟩ := hfields hn
    have hlength := (h.length_eq hfront).trans (h.length_eq hfront').symm
    have hcode : code (m / bound') = code (n / bound') ↔
        m / bound' = n / bound' :=
      ⟨h.eq_of_code hfront hfront', congrArg code⟩
    have hseparator := List.lex_irrefl (r := r) (Std.Irrefl.irrefl) separator
    rw [lex_append_iff hlength, lex_append_iff rfl, h.lex_iff hfront hfront',
      h'.lex_iff hback hback', hcode, lt_iff_div_mod bound' m n]
    simp [hseparator]

end OrderedCode
