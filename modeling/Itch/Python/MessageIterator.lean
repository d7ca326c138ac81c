import Itch.Wire.Reencode

/-!
# The message iterator

The iterator of the Python module frames its input on its own and parses one
frame at a time. §1 is a pass of its loop, §2 says what refilling the buffer
does, §3 what a pass does; every pass that does not end the call consumes a
frame, so that a call ends. §4 is the call.
-/

namespace Itch.Python

/-! ## §1  The loop -/

def ALL_MESSAGES : List UInt8 :=
  "SAFECXDUBHRYPQINLVWKJhO".toList.map Char.toUInt8

def FRAME_HEADER_LEN : ℕ := 2

def DEFAULT_CACHE_SIZE : ℕ := 65536

/-- The file object is the chunks it is going to return; the file for saving
is the bytes written to it. -/
structure MessageIterator where
  buffer : List UInt8 := []
  offset : ℕ := 0
  filter : List UInt8
  file : Option (List (List UInt8)) := none
  cachesize : ℕ := DEFAULT_CACHE_SIZE
  saveFile : Option (List UInt8) := none
  stopped : Bool := false

/-- What a call of `__next__` comes to. -/
inductive Result where
  | message (message : Message)
  | stopIteration
  | valueError (typeByte : UInt8)
  | runtimeError
  /-- `*parsed` where there is nothing. -/
  | emptyResult
  /-- `std::get` of another alternative. -/
  | badVariantAccess

namespace MessageIterator

/-- Drops the consumed bytes. -/
def compact (iter : MessageIterator) : MessageIterator :=
  if iter.offset > 0 then
    { iter with buffer := iter.buffer.drop iter.offset, offset := 0 }
  else iter

/-- Reads chunks until there are `need` bytes. -/
def fillFrom (need : ℕ) : List (List UInt8) → MessageIterator →
    Bool × MessageIterator
  | [], iter =>
    if iter.buffer.length - iter.offset < need then (false, iter.compact)
    else (true, iter)
  | chunk :: chunks, iter =>
    if iter.buffer.length - iter.offset < need then
      let iter := { iter.compact with file := some chunks }
      if chunk.isEmpty then (false, iter)
      else fillFrom need chunks { iter with buffer := iter.buffer ++ chunk }
    else (true, iter)

/-- Ensures at least `need` unconsumed bytes are buffered. -/
def fillTo (iter : MessageIterator) (need : ℕ) : Bool × MessageIterator :=
  match iter.file with
  | none => (decide (need ≤ iter.buffer.length - iter.offset), iter)
  | some chunks => fillFrom need chunks iter

/-- How a pass of the loop ends the call, if it does, and whether it has read
the type byte of a frame outside of the frame. -/
structure Pass where
  result : Option Result
  outside : Bool
  iter : MessageIterator

def isStop (typeByte : UInt8) (parsed : Option Message) :
    Except Result Bool :=
  if typeByte = 'S'.toUInt8 then
    match parsed with
    | none => .error .emptyResult
    | some (.systemEvent event) => .ok (event.eventCode == 'C'.toUInt8)
    | some _ => .error .badVariantAccess
  else .ok false

/-- The rest of a pass, from the parsed message on. -/
def deliver (iter : MessageIterator) (typeByte : UInt8)
    (parsed : Option Message) (frame : List UInt8) (outside : Bool) : Pass :=
  let kept := typeByte ∈ iter.filter
  match isStop typeByte parsed with
  | .error error => ⟨some error, outside, iter⟩
  | .ok isStop =>
    if kept then
      let iter := { iter with saveFile := iter.saveFile.map (· ++ frame) }
      let iter := if isStop then { iter with stopped := true } else iter
      match parsed with
      | some message => ⟨some (.message message), outside, iter⟩
      | none => ⟨some .emptyResult, outside, iter⟩
    else if isStop then ⟨some .stopIteration, outside, iter⟩
    else ⟨none, outside, iter⟩

/-- A pass from the type byte on, where the frame is in the buffer. -/
def visit (iter : MessageIterator) (total : ℕ) : Pass :=
  let pos := iter.offset
  -- the terminating NUL of the buffer, where the index is its size
  let typeByte := iter.buffer.getD (pos + FRAME_HEADER_LEN) 0
  let outside := decide (pos + total ≤ pos + FRAME_HEADER_LEN)
  if typeByte ∉ ALL_MESSAGES then ⟨some (.valueError typeByte), outside, iter⟩
  else
    let frame := (iter.buffer.drop pos).take total
    let outcome := Parser.parse {} frame
    match outcome.2.2 with
    | some _ => ⟨some .runtimeError, outside, iter⟩
    | none =>
      deliver { iter with offset := pos + total } typeByte
        outcome.messages.getLast? frame outside

/-- One pass of the loop. -/
def pass (iter : MessageIterator) : Pass :=
  if iter.stopped then ⟨some .stopIteration, false, iter⟩
  else
    match iter.fillTo FRAME_HEADER_LEN with
    | (false, iter) => ⟨some .stopIteration, false, iter⟩
    | (true, iter) =>
      let high := iter.buffer.getD iter.offset 0
      let low := iter.buffer.getD (iter.offset + 1) 0
      let bodyLen := high.toNat <<< 8 ||| low.toNat
      let total := FRAME_HEADER_LEN + bodyLen
      match iter.fillTo total with
      | (false, iter) =>
        ⟨some .stopIteration, false, iter⟩  -- incomplete trailing message
      | (true, iter) => iter.visit total

/-! ## §2  Refilling -/

/-- All bytes that are still to come. -/
def pending (iter : MessageIterator) : List UInt8 :=
  iter.buffer.drop iter.offset ++ (iter.file.getD []).flatten

/-- No read returns an empty chunk before the end of the file. -/
def Fed (iter : MessageIterator) : Prop :=
  ∀ chunk ∈ iter.file.getD [], chunk ≠ []

/-- Nothing but the place of the bytes has changed. -/
structure Refills (iter iter' : MessageIterator) : Prop where
  filter : iter'.filter = iter.filter
  stopped : iter'.stopped = iter.stopped
  pending : iter'.pending = iter.pending
  fed : iter.Fed → iter'.Fed

theorem Refills.refl (iter : MessageIterator) : Refills iter iter :=
  ⟨rfl, rfl, rfl, id⟩

theorem Refills.trans {iter iter' iter'' : MessageIterator}
    (h : Refills iter iter') (h' : Refills iter' iter'') :
    Refills iter iter'' :=
  ⟨h'.filter.trans h.filter, h'.stopped.trans h.stopped,
    h'.pending.trans h.pending, fun hfed => h'.fed (h.fed hfed)⟩

theorem offset_compact (iter : MessageIterator) : iter.compact.offset = 0 := by
  rw [compact]
  split
  · rfl
  · omega

theorem file_compact (iter : MessageIterator) :
    iter.compact.file = iter.file := by
  rw [compact]
  split <;> rfl

theorem refills_compact (iter : MessageIterator) :
    Refills iter iter.compact := by
  rw [compact]
  split
  · exact ⟨rfl, rfl, rfl, id⟩
  · exact Refills.refl iter

/-- A chunk goes from the file to the buffer. -/
theorem refills_read {iter : MessageIterator} {chunk : List UInt8}
    {chunks : List (List UInt8)} (hoffset : iter.offset = 0)
    (hfile : iter.file = some (chunk :: chunks)) :
    Refills iter { iter with
      buffer := iter.buffer ++ chunk, file := some chunks } := by
  refine ⟨rfl, rfl, ?_, ?_⟩
  · rw [pending, pending, hoffset, hfile]
    simp
  · intro hfed c hc
    apply hfed
    rw [hfile]
    exact List.mem_cons_of_mem _ hc

theorem length_pending (iter : MessageIterator) :
    iter.pending.length = iter.buffer.length - iter.offset +
      (iter.file.getD []).flatten.length := by
  rw [pending, List.length_append, List.length_drop]

theorem fillFrom_spec (need : ℕ) :
    ∀ (chunks : List (List UInt8)) (iter : MessageIterator),
      iter.file = some chunks →
      ∃ ok iter', fillFrom need chunks iter = (ok, iter') ∧
        Refills iter iter' ∧
        (ok = true → need ≤ iter'.buffer.length - iter'.offset) ∧
        (ok = false → iter.Fed → iter.pending.length < need) := by
  intro chunks
  induction chunks with
  | nil =>
    intro iter hfile
    rw [fillFrom]
    by_cases hlt : iter.buffer.length - iter.offset < need
    · rw [if_pos hlt]
      refine ⟨_, _, rfl, refills_compact iter, nofun, ?_⟩
      intro _ _
      rw [length_pending, hfile]
      exact hlt
    · rw [if_neg hlt]
      exact ⟨_, _, rfl, Refills.refl iter, fun _ => not_lt.mp hlt, nofun⟩
  | cons chunk chunks ih =>
    intro iter hfile
    rw [fillFrom]
    by_cases hlt : iter.buffer.length - iter.offset < need
    · rw [if_pos hlt]
      have hcompact := refills_compact iter
      have hread := refills_read (offset_compact iter)
        ((file_compact iter).trans hfile)
      cases chunk with
      | nil =>
        rw [List.append_nil] at hread
        refine ⟨_, _, rfl, hcompact.trans hread, nofun, ?_⟩
        intro _ hfed
        exact absurd rfl (hfed [] (by rw [hfile]; exact List.mem_cons_self))
      | cons c cs =>
        have hrefills := hcompact.trans hread
        obtain ⟨ok, iter', hfill, hrefills', hok, hfalse⟩ := ih
          { iter.compact with
            buffer := iter.compact.buffer ++ c :: cs, file := some chunks } rfl
        refine ⟨ok, iter', hfill, hrefills.trans hrefills', hok, ?_⟩
        intro hno hfed
        rw [← hrefills.pending]
        exact hfalse hno (hrefills.fed hfed)
    · rw [if_neg hlt]
      exact ⟨_, _, rfl, Refills.refl iter, fun _ => not_lt.mp hlt, nofun⟩

/-- There are as many bytes as are needed, or there are not that many left. -/
theorem fillTo_spec (iter : MessageIterator) (need : ℕ) :
    ∃ ok iter', iter.fillTo need = (ok, iter') ∧
      Refills iter iter' ∧
      (ok = true → need ≤ iter'.buffer.length - iter'.offset) ∧
      (ok = false → iter.Fed → iter.pending.length < need) := by
  rw [fillTo]
  cases hfile : iter.file with
  | none =>
    refine ⟨_, _, rfl, Refills.refl iter, of_decide_eq_true, ?_⟩
    intro hno _
    rw [length_pending, hfile]
    simpa using hno
  | some chunks => exact fillFrom_spec need chunks iter hfile

/-! ## §3  A pass -/

/-- The length a frame declares. -/
def bodyLen (bytes : List UInt8) : ℕ :=
  (bytes.getD 0 0).toNat <<< 8 ||| (bytes.getD 1 0).toNat

theorem getD_buffer {iter : MessageIterator} {i : ℕ}
    (h : i < iter.buffer.length - iter.offset) :
    iter.buffer.getD (iter.offset + i) 0 = iter.pending.getD i 0 := by
  rw [pending, List.getD_eq_getElem?_getD, List.getD_eq_getElem?_getD,
    List.getElem?_append_left (by rwa [List.length_drop]), List.getElem?_drop]

theorem take_buffer {iter : MessageIterator} {n : ℕ}
    (h : n ≤ iter.buffer.length - iter.offset) :
    (iter.buffer.drop iter.offset).take n = iter.pending.take n := by
  rw [pending, List.take_append_of_le_length (by rwa [List.length_drop])]

/-- A pass without a complete frame ends the iteration; any other visits the
frame. -/
theorem pass_cases {iter : MessageIterator} (hstopped : iter.stopped = false) :
    (∃ iter', Refills iter iter' ∧
        iter.pass = ⟨some .stopIteration, false, iter'⟩ ∧
        (iter.Fed → iter.pending.length < 2 ∨
          iter.pending.length < 2 + bodyLen iter.pending)) ∨
      ∃ iter', Refills iter iter' ∧
        iter.pass = iter'.visit (2 + bodyLen iter.pending) ∧
        2 + bodyLen iter.pending ≤ iter'.buffer.length - iter'.offset := by
  rw [pass, if_neg (by rw [hstopped]; exact Bool.false_ne_true)]
  obtain ⟨ok, iter', hfill, hrefills, hok, hno⟩ :=
    iter.fillTo_spec FRAME_HEADER_LEN
  rw [hfill]
  cases ok with
  | false => exact .inl ⟨iter', hrefills, rfl, fun hfed => .inl (hno rfl hfed)⟩
  | true =>
    have hlen : 2 ≤ iter'.buffer.length - iter'.offset := hok rfl
    have hhigh := getD_buffer (lt_of_lt_of_le Nat.zero_lt_two hlen)
    have hlow := getD_buffer (lt_of_lt_of_le Nat.one_lt_two hlen)
    rw [hrefills.pending, Nat.add_zero] at hhigh
    rw [hrefills.pending] at hlow
    obtain ⟨ok', iter'', hfill', hrefills', hok', hno'⟩ :=
      iter'.fillTo_spec (2 + bodyLen iter.pending)
    have hboth := hrefills.trans hrefills'
    dsimp only
    rw [hhigh, hlow, FRAME_HEADER_LEN, ← bodyLen, hfill']
    cases ok' with
    | false =>
      refine .inl ⟨iter'', hboth, rfl, fun hfed => .inr ?_⟩
      have hshort := hno' rfl (hrefills.fed hfed)
      rwa [hrefills.pending] at hshort
    | true => exact .inr ⟨iter'', hboth, rfl, hok' rfl⟩

section Deliver

variable {iter : MessageIterator} {typeByte : UInt8} {parsed : Option Message}
  {frame : List UInt8} {outside : Bool}

theorem deliver_error {e : Result} (h : isStop typeByte parsed = .error e) :
    iter.deliver typeByte parsed frame outside = ⟨some e, outside, iter⟩ := by
  rw [deliver, h]

/-- The result of a message that passes the filter. -/
def returned (parsed : Option Message) : Result :=
  match parsed with
  | some message => .message message
  | none => .emptyResult

theorem deliver_kept {stop : Bool} (h : isStop typeByte parsed = .ok stop)
    (hkept : typeByte ∈ iter.filter) :
    iter.deliver typeByte parsed frame outside =
      ⟨some (returned parsed), outside,
        { iter with
          saveFile := iter.saveFile.map (· ++ frame)
          stopped := iter.stopped || stop }⟩ := by
  rw [deliver, h]
  dsimp only
  rw [if_pos hkept]
  cases parsed <;> cases stop <;> simp [returned]

theorem deliver_dropped {stop : Bool} (h : isStop typeByte parsed = .ok stop)
    (hkept : typeByte ∉ iter.filter) :
    iter.deliver typeByte parsed frame outside =
      ⟨if stop then some .stopIteration else none, outside, iter⟩ := by
  rw [deliver, h]
  dsimp only
  rw [if_neg hkept]
  cases stop <;> rfl

theorem deliver_none
    (h : (iter.deliver typeByte parsed frame outside).result = none) :
    (iter.deliver typeByte parsed frame outside).iter = iter := by
  cases hstop : isStop typeByte parsed with
  | error e =>
    rw [deliver_error hstop]
  | ok stop =>
    by_cases hkept : typeByte ∈ iter.filter
    · rw [deliver_kept hstop hkept] at h
      cases h
    · rw [deliver_dropped hstop hkept]

end Deliver

theorem visit_none {iter : MessageIterator} {total : ℕ}
    (h : (iter.visit total).result = none) :
    (iter.visit total).iter =
      { iter with offset := iter.offset + total } := by
  rw [visit] at h ⊢
  dsimp only at h ⊢
  by_cases hknown :
      iter.buffer.getD (iter.offset + FRAME_HEADER_LEN) 0 ∉ ALL_MESSAGES
  · rw [if_pos hknown] at h
    cases h
  · rw [if_neg hknown] at h ⊢
    cases herror : (Parser.parse {} ((iter.buffer.drop iter.offset).take
        total)).2.2 with
    | some e =>
      rw [herror] at h
      cases h
    | none =>
      rw [herror] at h
      exact deliver_none h

/-- A pass that does not end the call consumes a frame. -/
theorem pass_none {iter : MessageIterator} (h : iter.pass.result = none) :
    iter.pass.iter.pending.length < iter.pending.length := by
  cases hstopped : iter.stopped with
  | true =>
    rw [pass, if_pos hstopped] at h
    cases h
  | false =>
    rcases pass_cases hstopped with
      ⟨iter', -, hpass, -⟩ | ⟨iter', hrefills, hpass, hlen⟩
    · rw [hpass] at h
      cases h
    · rw [hpass] at h ⊢
      rw [visit_none h, ← hrefills.pending, length_pending, length_pending]
      dsimp only
      omega

/-! ## §4  Calls -/

/-- A call: what it comes to, and whether it has read a type byte outside of
its frame. -/
structure Call where
  result : Result
  outside : Bool

/-- `__next__`. -/
def next (iter : MessageIterator) : Call × MessageIterator :=
  match _h : iter.pass with
  | ⟨some result, outside, iter⟩ => (⟨result, outside⟩, iter)
  | ⟨none, outside, iter'⟩ =>
    let (call, iter'') := next iter'
    (⟨call.result, outside || call.outside⟩, iter'')
termination_by iter.pending.length
decreasing_by
  have hless := @pass_none iter (by rw [_h])
  rwa [_h] at hless

/-- The calls of `__next__`, one after the other. -/
def calls (iter : MessageIterator) : ℕ → Call
  | 0 => iter.next.1
  | n + 1 => calls iter.next.2 n

end MessageIterator

end Itch.Python
