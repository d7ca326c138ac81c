import Mathlib.Data.List.Basic
import Mathlib.Tactic

/-!
# Reading bytes through a cursor

§1 is the big-endian number format. A `Reader` (§2) is given a buffer and an
offset into it; it fails or returns a value and the offset behind what it has
read. Statements about readers compose along `>>=`: `Consumes r n` says
that `r` reads exactly `n` symbols and depends on nothing else, `Yields r P`
that every value of `r` satisfies `P`, and `Inverts r bs a` that `r` turns the
symbols `bs` into the value `a`, wherever they stand. `Reads r R` says of
what a reader has returned which symbols it was read off. `readAt` is a single
read and `subspan` the rest of a buffer, with nothing beyond its end.
-/

namespace ByteCursor

/-! ## §1  Big-endian numbers -/

/-- The number `v`, modulo `256 ^ n`, in `n` bytes. -/
def encodeBE : ℕ → ℕ → List UInt8
  | 0, _ => []
  | n + 1, v => UInt8.ofNat (v / 256 ^ n) :: encodeBE n v

def decodeBE (bs : List UInt8) : ℕ :=
  bs.foldl (fun acc b => acc * 256 + b.toNat) 0

@[simp] theorem length_encodeBE (n v : ℕ) : (encodeBE n v).length = n := by
  induction n with
  | zero => rfl
  | succ n ih => rw [encodeBE, List.length_cons, ih]

theorem foldl_decodeBE (acc : ℕ) (bs : List UInt8) :
    bs.foldl (fun acc b => acc * 256 + b.toNat) acc =
      acc * 256 ^ bs.length + decodeBE bs := by
  induction bs generalizing acc with
  | nil => simp [decodeBE]
  | cons b bs ih =>
      have hb : decodeBE (b :: bs) =
          (0 * 256 + b.toNat) * 256 ^ bs.length + decodeBE bs := ih _
      rw [List.foldl_cons, ih, hb, List.length_cons]
      ring

theorem decodeBE_cons (b : UInt8) (bs : List UInt8) :
    decodeBE (b :: bs) = b.toNat * 256 ^ bs.length + decodeBE bs := by
  rw [decodeBE, List.foldl_cons, foldl_decodeBE]
  simp

theorem decodeBE_encodeBE (n v : ℕ) :
    decodeBE (encodeBE n v) = v % 256 ^ n := by
  induction n with
  | zero => simp [encodeBE, decodeBE, Nat.mod_one]
  | succ n ih =>
      rw [encodeBE, decodeBE_cons, ih, length_encodeBE, UInt8.toNat_ofNat']
      show v / 256 ^ n % 256 * 256 ^ n + v % 256 ^ n = _
      rw [Nat.pow_succ, Nat.mod_mul]
      ring

theorem decodeBE_lt (bs : List UInt8) : decodeBE bs < 256 ^ bs.length := by
  induction bs with
  | nil => simp [decodeBE]
  | cons b bs ih =>
      have hb := b.toNat_lt
      rw [decodeBE_cons, List.length_cons, Nat.pow_succ]
      calc b.toNat * 256 ^ bs.length + decodeBE bs
          < b.toNat * 256 ^ bs.length + 256 ^ bs.length := by omega
        _ = (b.toNat + 1) * 256 ^ bs.length := by ring
        _ ≤ 256 * 256 ^ bs.length := Nat.mul_le_mul_right _ (by omega)
        _ = 256 ^ bs.length * 256 := by ring

/-- Bytes are determined by their count and the number they spell. -/
theorem decodeBE_inj : ∀ {as bs : List UInt8}, as.length = bs.length →
    decodeBE as = decodeBE bs → as = bs
  | [], [], _, _ => rfl
  | a :: as, b :: bs, hlen, h => by
      have hlen' : as.length = bs.length := Nat.succ.inj hlen
      rw [decodeBE_cons, decodeBE_cons, hlen'] at h
      have ha := hlen' ▸ decodeBE_lt as
      have hb := decodeBE_lt bs
      have hpos : 0 < 256 ^ bs.length := by positivity
      have hdiv := congrArg (· / 256 ^ bs.length) h
      have hmod := congrArg (· % 256 ^ bs.length) h
      simp only [Nat.mul_comm _ (256 ^ bs.length), Nat.mul_add_div hpos,
        Nat.div_eq_of_lt ha, Nat.div_eq_of_lt hb, Nat.add_zero,
        UInt8.toNat_inj] at hdiv
      simp only [Nat.mul_comm _ (256 ^ bs.length), Nat.mul_add_mod,
        Nat.mod_eq_of_lt ha, Nat.mod_eq_of_lt hb] at hmod
      rw [hdiv, decodeBE_inj hlen' hmod]

theorem encodeBE_decodeBE (bs : List UInt8) :
    encodeBE bs.length (decodeBE bs) = bs := by
  apply decodeBE_inj (length_encodeBE ..)
  rw [decodeBE_encodeBE, Nat.mod_eq_of_lt (decodeBE_lt bs)]

theorem encodeBE_inj {n v w : ℕ} (hv : v < 256 ^ n) (hw : w < 256 ^ n)
    (h : encodeBE n v = encodeBE n w) : v = w := by
  have := congrArg decodeBE h
  rwa [decodeBE_encodeBE, decodeBE_encodeBE, Nat.mod_eq_of_lt hv,
    Nat.mod_eq_of_lt hw] at this

/-- The same formats with the least significant byte first. -/
def encodeLE (n v : ℕ) : List UInt8 := (encodeBE n v).reverse

def decodeLE (bs : List UInt8) : ℕ := decodeBE bs.reverse

theorem length_encodeLE (n v : ℕ) : (encodeLE n v).length = n := by
  rw [encodeLE, List.length_reverse, length_encodeBE]

theorem decodeLE_encodeLE (n v : ℕ) :
    decodeLE (encodeLE n v) = v % 256 ^ n := by
  rw [decodeLE, encodeLE, List.reverse_reverse, decodeBE_encodeBE]

/-- An unsigned integer type of `width` bytes. -/
class Word (α : Type) where
  width : ℕ
  ofNat : ℕ → α
  toNat : α → ℕ
  ofNat_toNat : ∀ a, ofNat (toNat a) = a
  toNat_lt : ∀ a, toNat a < 256 ^ width

instance : Word UInt8 :=
  ⟨1, UInt8.ofNat, UInt8.toNat, fun a => a.ofNat_toNat, fun a => a.toNat_lt⟩

instance : Word UInt16 :=
  ⟨2, UInt16.ofNat, UInt16.toNat, fun a => a.ofNat_toNat, fun a => a.toNat_lt⟩

instance : Word UInt32 :=
  ⟨4, UInt32.ofNat, UInt32.toNat, fun a => a.ofNat_toNat, fun a => a.toNat_lt⟩

instance : Word UInt64 :=
  ⟨8, UInt64.ofNat, UInt64.toNat, fun a => a.ofNat_toNat, fun a => a.toNat_lt⟩

theorem decodeBE_encodeBE_word {α : Type} [Word α] (a : α) :
    (Word.ofNat (decodeBE (encodeBE (Word.width α) (Word.toNat a))) : α) = a
    := by
  rw [decodeBE_encodeBE, Nat.mod_eq_of_lt (Word.toNat_lt a), Word.ofNat_toNat]

/-- Every number that fits in the bytes is a value of the type. -/
class FullWord (α : Type) [Word α] : Prop where
  toNat_ofNat : ∀ n, n < 256 ^ Word.width α → Word.toNat (Word.ofNat n : α) = n

instance : FullWord UInt8 := ⟨fun _ h => UInt8.toNat_ofNat_of_lt' h⟩

instance : FullWord UInt16 := ⟨fun _ h => UInt16.toNat_ofNat_of_lt' h⟩

instance : FullWord UInt32 := ⟨fun _ h => UInt32.toNat_ofNat_of_lt' h⟩

instance : FullWord UInt64 := ⟨fun _ h => UInt64.toNat_ofNat_of_lt' h⟩

/-- Bytes spell the word they are decoded to. -/
theorem encodeBE_decodeBE_word {α : Type} [Word α] [FullWord α]
    {bs : List UInt8} (h : bs.length = Word.width α) :
    encodeBE (Word.width α) (Word.toNat (Word.ofNat (decodeBE bs) : α)) = bs
    := by
  have hlt : decodeBE bs < 256 ^ Word.width α := h ▸ decodeBE_lt bs
  rw [FullWord.toNat_ofNat _ hlt, ← h, encodeBE_decodeBE]

/-! ## §2  Readers -/

/-- A list of known length. -/
abbrev Block (β : Type) (n : ℕ) : Type := { bs : List β // bs.length = n }

abbrev Reader (β : Type) : Type → Type := ReaderT (List β) (StateT ℕ Option)

variable {β α γ : Type} {r : Reader β α} {k : α → Reader β γ}

/-- Reads `n` symbols; fails where the buffer ends before. -/
def take (n : ℕ) : Reader β (Block β n) := fun buffer offset =>
  if h : offset + n ≤ buffer.length then
    some (⟨(buffer.drop offset).take n, by
      rw [List.length_take, List.length_drop]; omega⟩, offset + n)
  else none

theorem bind_apply (r : Reader β α) (k : α → Reader β γ) (buffer : List β)
    (offset : ℕ) : (r >>= k) buffer offset =
      (r buffer offset).bind (fun s => k s.1 buffer s.2) := rfl

theorem pure_apply (a : α) (buffer : List β) (offset : ℕ) :
    (pure a : Reader β α) buffer offset = some (a, offset) := rfl

theorem map_apply (f : α → γ) (r : Reader β α) (buffer : List β)
    (offset : ℕ) : (f <$> r) buffer offset =
      (r buffer offset).map (fun s => (f s.1, s.2)) := by
  show (r buffer offset).bind _ = _
  cases r buffer offset <;> rfl

/-! ### What a reader consumes -/

/-- `r` reads exactly `n` symbols, and its value depends on them alone. -/
def Consumes (r : Reader β α) (n : ℕ) : Prop :=
  ∀ (buffer : List β) (offset : ℕ), offset + n ≤ buffer.length →
    ∃ a, ∀ (buffer' : List β) (offset' : ℕ), offset' + n ≤ buffer'.length →
      (buffer'.drop offset').take n = (buffer.drop offset).take n →
      r buffer' offset' = some (a, offset' + n)

theorem consumes_pure (a : α) : Consumes (pure a : Reader β α) 0 :=
  fun _ _ _ => ⟨a, fun _ _ _ _ => rfl⟩

theorem consumes_take (n : ℕ) :
    Consumes (take n : Reader β (Block β n)) n := by
  intro buffer offset hle
  refine ⟨⟨(buffer.drop offset).take n, ?_⟩, fun buffer' offset' hle' h => ?_⟩
  · rw [List.length_take, List.length_drop]
    omega
  · rw [take, dif_pos hle']
    congr 3

theorem consumes_map {n : ℕ} (f : α → γ) (h : Consumes r n) :
    Consumes (f <$> r) n := by
  intro buffer offset hle
  obtain ⟨a, ha⟩ := h buffer offset hle
  refine ⟨f a, fun buffer' offset' hle' heq => ?_⟩
  rw [map_apply, ha buffer' offset' hle' heq]
  rfl

theorem consumes_bind {n m : ℕ} (hr : Consumes r n)
    (hk : ∀ a, Consumes (k a) m) : Consumes (r >>= k) (n + m) := by
  intro buffer offset hle
  obtain ⟨a, ha⟩ := hr buffer offset (by omega)
  obtain ⟨c, hc⟩ := hk a buffer (offset + n) (by omega)
  refine ⟨c, fun buffer' offset' hle' heq => ?_⟩
  -- the first `n` symbols agree, and so do the `m` after them
  have hn : (buffer'.drop offset').take n = (buffer.drop offset).take n := by
    have := congrArg (List.take n) heq
    rwa [List.take_take, List.take_take, min_eq_left (by omega)] at this
  have hm : (buffer'.drop (offset' + n)).take m =
      (buffer.drop (offset + n)).take m := by
    have := congrArg (List.drop n) heq
    rwa [List.drop_take, List.drop_take, List.drop_drop, List.drop_drop,
      Nat.add_sub_cancel_left] at this
  rw [bind_apply, ha buffer' offset' (by omega) hn, Option.bind_some,
    hc buffer' (offset' + n) (by omega) hm, Nat.add_assoc]

/-! ### What a reader returns -/

/-- Every value `r` returns satisfies `P`. -/
def Yields (r : Reader β α) (P : α → Prop) : Prop :=
  ∀ (buffer : List β) (offset : ℕ) (a : α) (last : ℕ),
    r buffer offset = some (a, last) → P a

theorem yields_pure {P : α → Prop} {a : α} (h : P a) :
    Yields (pure a : Reader β α) P := by
  intro buffer offset a' last heq
  rw [pure_apply] at heq
  cases heq
  exact h

theorem yields_bind {P : γ → Prop} (hk : ∀ a, Yields (k a) P) :
    Yields (r >>= k) P := by
  intro buffer offset c last heq
  rw [bind_apply] at heq
  obtain ⟨s, -, heq⟩ := Option.bind_eq_some_iff.mp heq
  exact hk s.1 buffer s.2 c last heq

/-! ### What a reader inverts -/

/-- `r` reads the value `a` off the symbols `bs`. -/
def Inverts (r : Reader β α) (bs : List β) (a : α) : Prop :=
  ∀ pre rest : List β, r (pre ++ (bs ++ rest)) pre.length =
    some (a, pre.length + bs.length)

theorem inverts_pure (a : α) : Inverts (pure a : Reader β α) [] a :=
  fun _ _ => rfl

theorem inverts_take {n : ℕ} (bs : Block β n) :
    Inverts (take n) bs.val bs := by
  obtain ⟨bs, rfl⟩ := bs
  intro pre rest
  rw [take, dif_pos (by simp)]
  simp

theorem inverts_map {bs : List β} {a : α} (f : α → γ) (h : Inverts r bs a) :
    Inverts (f <$> r) bs (f a) := by
  intro pre rest
  rw [map_apply, h pre rest]
  rfl

theorem inverts_bind {bs cs : List β} {a : α} {c : γ} (hr : Inverts r bs a)
    (hk : Inverts (k a) cs c) : Inverts (r >>= k) (bs ++ cs) c := by
  intro pre rest
  have h := hk (pre ++ bs) rest
  rw [bind_apply, List.append_assoc bs, hr pre (cs ++ rest), Option.bind_some]
  rw [List.append_assoc, List.length_append] at h
  rw [h, List.length_append, Nat.add_assoc]

/-! ### What a reader has read -/

/-- Every value of `r` stands in the relation `R` to the symbols read. -/
def Reads (r : Reader β α) (R : List β → α → Prop) : Prop :=
  ∀ (buffer : List β) (offset : ℕ) (a : α) (last : ℕ),
    r buffer offset = some (a, last) →
      ∃ bs, bs <+: buffer.drop offset ∧ last = offset + bs.length ∧ R bs a

theorem reads_pure {R : List β → α → Prop} {a : α} (h : R [] a) :
    Reads (pure a : Reader β α) R := by
  intro buffer offset a' last heq
  rw [pure_apply] at heq
  cases heq
  exact ⟨[], List.nil_prefix, rfl, h⟩

theorem reads_take (n : ℕ) : Reads (take n : Reader β (Block β n))
    (fun bs b => bs = b.val) := by
  intro buffer offset b last heq
  unfold take at heq
  by_cases hle : offset + n ≤ buffer.length
  · rw [dif_pos hle] at heq
    cases heq
    refine ⟨_, List.take_prefix n _, ?_, rfl⟩
    rw [List.length_take, List.length_drop]
    omega
  · rw [dif_neg hle] at heq
    cases heq

theorem reads_map {R : List β → α → Prop} {S : List β → γ → Prop} {f : α → γ}
    (h : Reads r R) (hf : ∀ bs a, R bs a → S bs (f a)) :
    Reads (f <$> r) S := by
  intro buffer offset c last heq
  rw [map_apply] at heq
  obtain ⟨⟨a, last'⟩, hr, hc⟩ := Option.map_eq_some_iff.mp heq
  cases hc
  obtain ⟨bs, hbs, hlast, hR⟩ := h buffer offset a last' hr
  exact ⟨bs, hbs, hlast, hf bs a hR⟩

/-- The symbols of a sequence are those of its parts, one behind the other. -/
theorem reads_bind {R : List β → α → Prop} {S : List β → γ → Prop}
    (hr : Reads r R)
    (hk : ∀ bs a, R bs a → Reads (k a) (fun cs c => S (bs ++ cs) c)) :
    Reads (r >>= k) S := by
  intro buffer offset c last heq
  rw [bind_apply] at heq
  obtain ⟨⟨a, mid⟩, hfirst, hrest⟩ := Option.bind_eq_some_iff.mp heq
  obtain ⟨bs, ⟨rest, hbs⟩, rfl, hR⟩ := hr buffer offset a mid hfirst
  obtain ⟨cs, hcs, rfl, hS⟩ := hk bs a hR buffer _ c last hrest
  refine ⟨bs ++ cs, ?_, ?_, hS⟩
  · rw [← List.drop_drop, ← hbs, List.drop_left] at hcs
    rw [← hbs]
    exact (List.prefix_append_right_inj bs).mpr hcs
  · rw [List.length_append, Nat.add_assoc]

/-! ### Single reads -/

/-- The value of `r` at an offset. -/
def readAt (r : Reader β α) (buffer : List β) (offset : ℕ) : Option α :=
  (r buffer offset).map Prod.fst

theorem Consumes.readAt {n : ℕ} (h : Consumes r n) {buffer : List β}
    {offset : ℕ} (hle : offset + n ≤ buffer.length) :
    ∃ a, readAt r buffer offset = some a := by
  obtain ⟨a, ha⟩ := h buffer offset hle
  exact ⟨a, by rw [ByteCursor.readAt, ha buffer offset hle rfl]; rfl⟩

/-- Buffers that agree up to `m` agree on every window before it. -/
theorem window_eq_of_take {buffer buffer' : List β} {offset n m : ℕ}
    (hm : offset + n ≤ m) (heq : buffer'.take m = buffer.take m) :
    (buffer'.drop offset).take n = (buffer.drop offset).take n := by
  have hwindow (bs : List β) :
      (bs.drop offset).take n = ((bs.take m).drop offset).take n := by
    rw [List.drop_take, List.take_take, min_eq_left (by omega)]
  rw [hwindow buffer', heq, ← hwindow buffer]

theorem le_length_of_take {buffer buffer' : List β} {m : ℕ}
    (hm : m ≤ buffer.length) (heq : buffer'.take m = buffer.take m) :
    m ≤ buffer'.length := by
  have hlen := congrArg List.length heq
  rw [List.length_take, List.length_take, min_eq_left hm] at hlen
  exact hlen ▸ min_le_right m buffer'.length

theorem Consumes.readAt_congr {n m : ℕ} (h : Consumes r n)
    {buffer buffer' : List β} {offset : ℕ} (hn : offset + n ≤ m)
    (hm : m ≤ buffer.length) (heq : buffer'.take m = buffer.take m) :
    ByteCursor.readAt r buffer' offset = ByteCursor.readAt r buffer offset := by
  obtain ⟨a, ha⟩ := h buffer offset (hn.trans hm)
  have hm' := le_length_of_take hm heq
  rw [ByteCursor.readAt, ByteCursor.readAt, ha buffer offset (hn.trans hm) rfl,
    ha buffer' offset (hn.trans hm') (window_eq_of_take hn heq)]

/-- The buffer has the symbols `bs` at the offset. -/
def Holds (buffer : List β) (offset : ℕ) (bs : List β) : Prop :=
  ∃ pre rest, buffer = pre ++ (bs ++ rest) ∧ pre.length = offset

section Holds

variable {buffer bs cs : List β} {offset : ℕ}

theorem holds_zero (bs rest : List β) : Holds (bs ++ rest) 0 bs :=
  ⟨[], rest, rfl, rfl⟩

theorem holds_of_drop {rest : List β} (h : buffer.drop offset = bs ++ rest)
    (hle : offset ≤ buffer.length) : Holds buffer offset bs := by
  refine ⟨buffer.take offset, rest, ?_, List.length_take_of_le hle⟩
  rw [← h, List.take_append_drop]

theorem Holds.append (h : Holds buffer offset (bs ++ cs)) :
    Holds buffer offset bs ∧ Holds buffer (offset + bs.length) cs := by
  obtain ⟨pre, rest, rfl, rfl⟩ := h
  constructor
  · exact ⟨pre, cs ++ rest, by rw [List.append_assoc], rfl⟩
  · exact ⟨pre ++ bs, rest, by simp only [List.append_assoc],
      List.length_append⟩

theorem Holds.le_length (h : Holds buffer offset bs) :
    offset + bs.length ≤ buffer.length := by
  obtain ⟨pre, rest, rfl, rfl⟩ := h
  rw [List.length_append, List.length_append, ← Nat.add_assoc]
  exact Nat.le_add_right _ _

theorem Holds.readAt {a : α} (h : Holds buffer offset bs)
    (hr : Inverts r bs a) : readAt r buffer offset = some a := by
  obtain ⟨pre, rest, rfl, rfl⟩ := h
  rw [ByteCursor.readAt, hr pre rest]
  rfl

end Holds

/-- The symbols from `offset` on. -/
def subspan (buffer : List β) (offset : ℕ) : Option (List β) :=
  if offset ≤ buffer.length then some (buffer.drop offset) else none

theorem subspan_eq {buffer : List β} {offset : ℕ}
    (h : offset ≤ buffer.length) :
    subspan buffer offset = some (buffer.drop offset) :=
  if_pos h

end ByteCursor
