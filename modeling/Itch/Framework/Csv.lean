import Mathlib.Data.List.Basic
import Mathlib.Data.List.Flatten
import Mathlib.Tactic.Tauto

/-!
# Comma-separated values

§1 is a reader of RFC 4180 over an arbitrary alphabet: a field is quoted, with
its quotes doubled, or has none of the four special characters; a record ends
with a line feed, or with a carriage return and a line feed. §2 is a writer
that copies each value, or copies it between quotes. §3 says what the reader
makes of one field that was written so, and §4 of all records.
-/

namespace Csv

/-! ## §1  The reader -/

structure Dialect (α : Type*) where
  comma : α
  quote : α
  cr : α
  lf : α
  comma_ne_quote : comma ≠ quote
  comma_ne_cr : comma ≠ cr
  comma_ne_lf : comma ≠ lf
  cr_ne_quote : cr ≠ quote
  cr_ne_lf : cr ≠ lf
  lf_ne_quote : lf ≠ quote

/-- Where in a field the reader is, outside of quotes. -/
inductive Place where
  | start
  | text
  | closed
deriving DecidableEq

inductive Mode where
  | outside (p : Place)
  | quoted
  | cr

/-- A value, and whether it is put between quotes. -/
structure Column (α : Type*) where
  value : List α
  quoted : Bool := false

/-- What is left to read: of a field, of its record, and after that. -/
structure Rest (α : Type*) where
  field : List α
  fields : List (List α)
  records : List (List (List α))

variable {α : Type*}

namespace Rest

def push (c : α) (r : Rest α) : Rest α := { r with field := c :: r.field }

def put (v : List α) (r : Rest α) : Rest α := { r with field := v }

def next (r : Rest α) : Rest α := ⟨[], r.field :: r.fields, r.records⟩

def table (r : Rest α) : List (List (List α)) :=
  (r.field :: r.fields) :: r.records

/-- A record begins, unless the text ends. -/
def line : List α → Option (Rest α) → Option (Rest α)
  | [], _ => some ⟨[], [], []⟩
  | _ :: _, r => r.map fun r => ⟨[], [], r.table⟩

theorem line_field {s : List α} {r : Option (Rest α)} {r' : Rest α}
    (h : line s r = some r') : r'.field = [] := by
  cases s with
  | nil =>
    cases h
    rfl
  | cons c s =>
    rw [line, Option.map_eq_some_iff] at h
    obtain ⟨_, -, rfl⟩ := h
    rfl

end Rest

namespace Dialect

variable [DecidableEq α] (d : Dialect α)

def read : Mode → List α → Option (Rest α)
  | .outside _, [] => some ⟨[], [], []⟩
  | .quoted, [] => none
  | .cr, [] => none
  | .outside p, c :: s =>
    if c = d.comma then (read (.outside .start) s).map Rest.next
    else if c = d.lf then Rest.line s (read (.outside .start) s)
    else if c = d.cr then read .cr s
    else if c = d.quote then
      match p with
      | .start => read .quoted s
      | .text => none
      | .closed => (read .quoted s).map (Rest.push c)
    else if p = .closed then none
    else (read (.outside .text) s).map (Rest.push c)
  | .quoted, c :: s =>
    if c = d.quote then read (.outside .closed) s
    else (read .quoted s).map (Rest.push c)
  | .cr, c :: s =>
    if c = d.lf then Rest.line s (read (.outside .start) s) else none

/-- The records of a text, if it is well formed. -/
def parse : List α → Option (List (List (List α)))
  | [] => some []
  | c :: s => (d.read (.outside .start) (c :: s)).map Rest.table

/-! ## §2  The writer -/

def text (c : Column α) : List α :=
  if c.quoted then d.quote :: (c.value ++ [d.quote]) else c.value

def record : List (Column α) → List α
  | [] => [d.lf]
  | [c] => d.text c ++ [d.lf]
  | c :: next :: cs => d.text c ++ d.comma :: record (next :: cs)

/-- None of the special characters. -/
def Plain (v : List α) : Prop :=
  ∀ c ∈ v, c ≠ d.comma ∧ c ≠ d.quote ∧ c ≠ d.cr ∧ c ≠ d.lf

instance (v : List α) : Decidable (d.Plain v) :=
  inferInstanceAs (Decidable (∀ c ∈ v, _))

def Good (c : Column α) : Prop :=
  if c.quoted then d.quote ∉ c.value else d.Plain c.value

/-! ## §3  One field -/

theorem read_outside (p : Place) (c : α) (s : List α) :
    d.read (.outside p) (c :: s) =
      if c = d.comma then (d.read (.outside .start) s).map Rest.next
      else if c = d.lf then Rest.line s (d.read (.outside .start) s)
      else if c = d.cr then d.read .cr s
      else if c = d.quote then
        match p with
        | .start => d.read .quoted s
        | .text => none
        | .closed => (d.read .quoted s).map (Rest.push c)
      else if p = .closed then none
      else (d.read (.outside .text) s).map (Rest.push c) := by
  rfl

theorem read_quoted (c : α) (s : List α) :
    d.read .quoted (c :: s) =
      if c = d.quote then d.read (.outside .closed) s
      else (d.read .quoted s).map (Rest.push c) := by
  rfl

def Separator (c : α) : Prop := c = d.comma ∨ c = d.lf

omit [DecidableEq α] in
theorem Separator.ne_quote {c : α} (h : d.Separator c) : c ≠ d.quote := by
  rcases h with rfl | rfl
  · exact d.comma_ne_quote
  · exact d.lf_ne_quote

/-- What is read after a field that `c` ends. -/
def after (c : α) (s : List α) : Option (Rest α) :=
  if c = d.comma then (d.read (.outside .start) s).map Rest.next
  else Rest.line s (d.read (.outside .start) s)

theorem read_separator {c : α} (h : d.Separator c) (p : Place) (s : List α) :
    d.read (.outside p) (c :: s) = d.after c s := by
  rw [read_outside, after]
  rcases h with rfl | rfl
  · rw [if_pos rfl, if_pos rfl]
  · rw [if_neg d.comma_ne_lf.symm, if_pos rfl, if_neg d.comma_ne_lf.symm]

theorem read_cr (p : Place) (s : List α) :
    d.read (.outside p) (d.cr :: s) = d.read .cr s := by
  rw [read_outside, if_neg d.comma_ne_cr.symm, if_neg d.cr_ne_lf,
    if_pos rfl]

theorem after_field {c : α} {s : List α} {r : Rest α}
    (h : d.after c s = some r) : r.field = [] := by
  rw [after] at h
  split at h
  · rw [Option.map_eq_some_iff] at h
    obtain ⟨_, -, rfl⟩ := h
    rfl
  · exact Rest.line_field h

theorem put_nil_after (c : α) (s : List α) :
    (d.after c s).map (Rest.put []) = d.after c s := by
  cases h : d.after c s with
  | none => rfl
  | some r =>
    have hfield := d.after_field h
    cases r
    cases hfield
    rfl

/-- No field goes past the end of its record, nor past a comma. -/
theorem read_end {p : Place} {c : α} {s : List α} {r : Rest α}
    (hc : d.Separator c ∨ c = d.cr)
    (h : d.read (.outside p) (c :: s) = some r) : r.field = [] := by
  rcases hc with hc | rfl
  · rw [d.read_separator hc] at h
    exact d.after_field h
  · rw [d.read_cr] at h
    cases s with
    | nil => cases h
    | cons c s =>
      rw [read] at h
      split_ifs at h
      exact Rest.line_field h

theorem read_quote (p : Place) (s : List α) :
    d.read (.outside p) (d.quote :: s) =
      match p with
      | .start => d.read .quoted s
      | .text => none
      | .closed => (d.read .quoted s).map (Rest.push d.quote) := by
  rw [read_outside, if_neg d.comma_ne_quote.symm, if_neg d.lf_ne_quote.symm,
    if_neg d.cr_ne_quote.symm, if_pos rfl]

theorem read_closed {c : α} {s : List α} {r : Rest α}
    (h : d.read (.outside .closed) (c :: s) = some r) :
    r.field = [] ∨
      c = d.quote ∧ ∃ r', d.read .quoted s = some r' ∧ r'.push c = r := by
  by_cases hend : d.Separator c ∨ c = d.cr
  · exact .inl (d.read_end hend h)
  · rw [not_or, Separator, not_or] at hend
    obtain ⟨⟨hcomma, hlf⟩, hcr⟩ := hend
    by_cases hquote : c = d.quote
    · subst hquote
      rw [read_quote, Option.map_eq_some_iff] at h
      exact .inr ⟨rfl, h⟩
    · rw [read_outside, if_neg hcomma, if_neg hlf, if_neg hcr, if_neg hquote,
        if_pos rfl] at h
      cases h

/-- A plain value is read back. -/
theorem read_plain {c : α} (hc : d.Separator c) (s : List α) :
    ∀ {v : List α} {p : Place}, d.Plain v → p ≠ .closed →
      d.read (.outside p) (v ++ c :: s) = (d.after c s).map (Rest.put v) := by
  intro v
  induction v with
  | nil =>
    intro p _ _
    rw [List.nil_append, read_separator d hc, put_nil_after]
  | cons x v ih =>
    intro p hv hp
    obtain ⟨hcomma, hquote, hcr, hlf⟩ := hv x List.mem_cons_self
    have hrest : d.Plain v := fun y hy => hv y (List.mem_cons_of_mem _ hy)
    rw [List.cons_append, read_outside, if_neg hcomma, if_neg hlf, if_neg hcr,
      if_neg hquote, if_neg hp, ih hrest (by decide), Option.map_map]
    rfl

/-- A value without quotes is read back from between quotes. -/
theorem read_enclosed {c : α} (hc : d.Separator c) (s : List α) :
    ∀ {v : List α}, d.quote ∉ v →
      d.read .quoted (v ++ d.quote :: c :: s) =
        (d.after c s).map (Rest.put v) := by
  intro v
  induction v with
  | nil =>
    intro _
    rw [List.nil_append, read_quoted, if_pos rfl, read_separator d hc,
      put_nil_after]
  | cons x v ih =>
    intro hv
    rw [List.mem_cons, not_or] at hv
    rw [List.cons_append, read_quoted, if_neg (Ne.symm hv.1), ih hv.2,
      Option.map_map]
    rfl

/-- Quotes doubled. -/
def escape : List α → List α
  | [] => []
  | c :: s => if c = d.quote then c :: c :: escape s else c :: escape s

/-- What is read between quotes stands there with its quotes doubled. -/
theorem read_escape : ∀ (t : List α) {r : Rest α},
    (d.read .quoted t = some r →
      ∃ t', t = d.escape r.field ++ d.quote :: t') ∧
    (d.read (.outside .closed) t = some r →
      ∃ t', d.quote :: t = d.escape r.field ++ d.quote :: t') := by
  intro t
  induction t with
  | nil =>
    intro r
    constructor
    · intro h
      cases h
    · intro h
      cases h
      exact ⟨[], rfl⟩
  | cons c t ih =>
    intro r
    constructor
    · intro h
      rw [read_quoted] at h
      split_ifs at h with hc
      · subst hc
        exact ih.2 h
      · rw [Option.map_eq_some_iff] at h
        obtain ⟨r', hr', rfl⟩ := h
        obtain ⟨t', ht'⟩ := ih.1 hr'
        refine ⟨t', ?_⟩
        rw [Rest.push, escape, if_neg hc, List.cons_append, ← ht']
    · intro h
      rcases d.read_closed h with hfield | ⟨rfl, r', hr', rfl⟩
      · exact ⟨c :: t, by rw [hfield]; rfl⟩
      · obtain ⟨t', ht'⟩ := ih.1 hr'
        refine ⟨t', ?_⟩
        rw [Rest.push, escape, if_pos rfl, List.cons_append, List.cons_append,
          ← ht']

theorem escape_eq_self : ∀ {s : List α}, d.quote ∉ s → d.escape s = s := by
  intro s
  induction s with
  | nil =>
    intro _
    rfl
  | cons c s ih =>
    intro h
    rw [List.mem_cons, not_or] at h
    rw [escape, if_neg (Ne.symm h.1), ih h.2]

theorem escape_append (s t : List α) :
    d.escape (s ++ t) = d.escape s ++ d.escape t := by
  induction s with
  | nil => rfl
  | cons c s ih =>
    rw [List.cons_append, escape, escape, ih]
    split_ifs <;> rfl

/-- A value is shorter than with its quotes doubled. Both begin with a quote,
and all that follows in one would have to be a quote because it is in the
other. -/
theorem append_ne_escape {z : List α}
    (hz : ¬ [d.quote, d.quote] <+: z) :
    ∀ (s : List α) (n : ℕ) (t : List α),
      s ++ z ≠
        List.replicate (n + 1) d.quote ++ (d.escape s ++ d.quote :: t) := by
  intro s
  induction s with
  | nil =>
    intro n t h
    apply hz
    rw [List.nil_append] at h
    rw [h, escape, List.nil_append]
    cases n with
    | zero => exact ⟨t, rfl⟩
    | succ n => exact ⟨_, rfl⟩
  | cons c s ih =>
    intro n t h
    rw [List.replicate_succ, List.cons_append, List.cons_append,
      List.cons.injEq] at h
    obtain ⟨rfl, htail⟩ := h
    apply ih (n + 1) t
    rw [htail, escape, if_pos rfl, List.replicate_succ', List.replicate_succ']
    simp

/-- A value that is not plain is not read back. -/
theorem read_not_plain {c : α} (hc : d.Separator c) {s : List α} :
    ∀ {v : List α} {p : Place} {r : Rest α}, ¬ d.Plain v → p ≠ .closed →
      d.read (.outside p) (v ++ c :: s) = some r → r.field ≠ v := by
  intro v
  induction v with
  | nil =>
    intro p r hv _ _
    exact absurd (fun x hx => absurd hx List.not_mem_nil) hv
  | cons x v ih =>
    intro p r hv hp h
    rw [List.cons_append] at h
    by_cases hend : d.Separator x ∨ x = d.cr
    · rw [d.read_end hend h]
      exact (List.cons_ne_nil x v).symm
    by_cases hquote : x = d.quote
    · subst hquote
      rw [read_quote] at h
      cases p with
      | start =>
        intro hfield
        obtain ⟨t, ht⟩ := (d.read_escape _).1 h
        have hz : ¬ [d.quote, d.quote] <+: c :: s := by
          rintro ⟨u, hu⟩
          exact hc.ne_quote d (List.cons.inj hu).1.symm
        apply d.append_ne_escape hz v 1 t
        rw [ht, hfield, escape, if_pos rfl]
        rfl
      | text => cases h
      | closed => exact absurd rfl hp
    · rw [not_or, Separator, not_or] at hend
      obtain ⟨⟨hcomma, hlf⟩, hcr⟩ := hend
      have hrest : ¬ d.Plain v := by
        intro hplain
        apply hv
        intro y hy
        rcases List.mem_cons.mp hy with rfl | hy
        · exact ⟨hcomma, hquote, hcr, hlf⟩
        · exact hplain y hy
      rw [read_outside, if_neg hcomma, if_neg hlf, if_neg hcr, if_neg hquote,
        if_neg hp, Option.map_eq_some_iff] at h
      obtain ⟨r', hr', rfl⟩ := h
      intro hfield
      exact ih hrest (by decide) hr' (List.cons.inj hfield).2

/-- A value with a quote is not read back from between quotes. -/
theorem read_not_enclosed {c : α} (hc : d.Separator c) {s v : List α}
    {r : Rest α} (hv : d.quote ∈ v)
    (h : d.read .quoted (v ++ d.quote :: c :: s) = some r) : r.field ≠ v := by
  intro hfield
  obtain ⟨a, b, rfl, ha⟩ := List.eq_append_cons_of_mem hv
  obtain ⟨t, ht⟩ := (d.read_escape _).1 h
  have hz : ¬ [d.quote, d.quote] <+: d.quote :: c :: s := by
    rintro ⟨u, hu⟩
    exact hc.ne_quote d (List.cons.inj (List.cons.inj hu).2).1.symm
  rw [hfield, escape_append, escape_eq_self d ha, escape, if_pos rfl,
    List.append_assoc, List.append_assoc, List.append_cancel_left_eq] at ht
  exact d.append_ne_escape hz b 0 t (List.cons.inj ht).2

theorem map_put_eq_some {c : α} {s v : List α} {r : Rest α}
    (hfield : r.field = v) :
    (d.after c s).map (Rest.put v) = some r ↔
      d.after c s = some (r.put []) := by
  constructor
  · intro h
    rw [Option.map_eq_some_iff] at h
    obtain ⟨r', hr', rfl⟩ := h
    have hnil := d.after_field hr'
    rw [hr']
    cases r'
    cases hnil
    rfl
  · intro h
    rw [h, ← hfield]
    rfl

theorem read_column {c : α} (hc : d.Separator c) {s : List α}
    {col : Column α} {r : Rest α} (hfield : r.field = col.value) :
    d.read (.outside .start) (d.text col ++ c :: s) = some r ↔
      d.Good col ∧ d.after c s = some (r.put []) := by
  obtain ⟨v, quoted⟩ := col
  rw [text, Good]
  cases quoted with
  | false =>
    by_cases hv : d.Plain v
    · rw [if_neg Bool.false_ne_true, if_neg Bool.false_ne_true,
        d.read_plain hc s hv (by decide), map_put_eq_some d hfield]
      exact (and_iff_right hv).symm
    · constructor
      · intro h
        exact absurd hfield (d.read_not_plain hc hv (by decide) h)
      · rintro ⟨hgood, -⟩
        exact absurd hgood hv
  | true =>
    have htext : d.quote :: (v ++ [d.quote]) ++ c :: s =
        d.quote :: (v ++ d.quote :: c :: s) := by simp
    rw [if_pos rfl, if_pos rfl, htext, read_quote]
    by_cases hv : d.quote ∈ v
    · constructor
      · intro h
        exact absurd hfield (d.read_not_enclosed hc hv h)
      · rintro ⟨hgood, -⟩
        exact absurd hv hgood
    · rw [d.read_enclosed hc s hv, map_put_eq_some d hfield]
      exact (and_iff_right hv).symm

/-! ## §4  Records -/

theorem line_eq (s : List α) :
    Rest.line s (d.read (.outside .start) s) =
      (d.parse s).map fun t => ⟨[], [], t⟩ := by
  cases s with
  | nil => rfl
  | cons c s =>
    rw [Rest.line, parse, Option.map_map]
    rfl

theorem read_record (s : List α) (t : List (List (List α))) :
    ∀ (col : Column α) (cols : List (Column α)),
      d.read (.outside .start) (d.record (col :: cols) ++ s) =
          some ⟨col.value, cols.map (·.value), t⟩ ↔
        (∀ c ∈ col :: cols, d.Good c) ∧ d.parse s = some t := by
  intro col cols
  induction cols generalizing col with
  | nil =>
    have hafter : d.after d.lf s = some (Rest.put [] ⟨col.value, [], t⟩) ↔
        d.parse s = some t := by
      rw [after, if_neg d.comma_ne_lf.symm, line_eq]
      cases d.parse s <;> simp [Rest.put]
    rw [record, List.append_assoc, List.singleton_append, List.map_nil,
      d.read_column (.inr rfl) rfl, hafter, List.forall_mem_singleton]
  | cons next cols ih =>
    have hafter :
        d.after d.comma (d.record (next :: cols) ++ s) =
            some (Rest.put []
              ⟨col.value, (next :: cols).map (·.value), t⟩) ↔
          d.read (.outside .start) (d.record (next :: cols) ++ s) =
            some ⟨next.value, cols.map (·.value), t⟩ := by
      rw [after, if_pos rfl]
      cases d.read (.outside .start) (d.record (next :: cols) ++ s) with
      | none => simp
      | some r =>
        obtain ⟨field, fields, records⟩ := r
        simp [Rest.next, Rest.put, and_assoc]
    rw [record, List.append_assoc, List.cons_append,
      d.read_column (.inl rfl) rfl, hafter, ih, ← and_assoc,
      List.forall_mem_cons (a := col)]

theorem parse_record (s : List α) (t : List (List (List α)))
    {row : List (Column α)} (hrow : row ≠ []) :
    d.parse (d.record row ++ s) = some (row.map (·.value) :: t) ↔
      (∀ c ∈ row, d.Good c) ∧ d.parse s = some t := by
  obtain ⟨col, cols, rfl⟩ := List.exists_cons_of_ne_nil hrow
  have hparse : d.parse (d.record (col :: cols) ++ s) =
      (d.read (.outside .start) (d.record (col :: cols) ++ s)).map
        Rest.table := by
    cases h : d.record (col :: cols) ++ s with
    | nil =>
      cases cols <;> simp [record] at h
    | cons c s => rfl
  rw [← d.read_record, hparse]
  cases d.read (.outside .start) (d.record (col :: cols) ++ s) with
  | none => simp
  | some r =>
    obtain ⟨field, fields, records⟩ := r
    simp [Rest.table, and_assoc]

/-- What was written is read back if and only if every value is good. -/
theorem parse_records (rows : List (List (Column α)))
    (hrows : ∀ row ∈ rows, row ≠ []) :
    d.parse (rows.map d.record).flatten =
        some (rows.map fun row => row.map (·.value)) ↔
      ∀ row ∈ rows, ∀ c ∈ row, d.Good c := by
  induction rows with
  | nil => simp [parse]
  | cons row rows ih =>
    rw [List.forall_mem_cons] at hrows
    rw [List.map_cons, List.flatten_cons, List.map_cons,
      d.parse_record _ _ hrows.1, ih hrows.2, List.forall_mem_cons]

end Dialect

end Csv
