import Itch.Python.MessageIterator
import Itch.Wire.FilteredParse

/-!
# Iterating over messages

§1 says what repeated calls of the iterator should come to, and under which
condition on the frames they do. §2 is one call, frame by frame, §3 all calls.
-/

namespace Itch.Python

open MessageIterator ByteCursor Overlay

/-! ## §1  Definitions -/

/-- The message ends the iteration: it is a system event with code `C`. -/
def stops : Message → Bool
  | .systemEvent event => event.eventCode == 'C'.toUInt8
  | _ => false

/-- Of what the parser reports, the messages that pass the filter, up to the
first one that ends the iteration or the first frame of unknown type; and how
the iteration ends. -/
def iterated (filter : List UInt8) :
    List ParserEvent → List Message × Result
  | [] => ([], .stopIteration)
  | .message m :: events =>
    let kept := if m.header.messageType ∈ filter then [m] else []
    if stops m then (kept, .stopIteration)
    else (kept ++ (iterated filter events).1, (iterated filter events).2)
  | .error .unknownType typeByte :: _ => ([], .valueError typeByte)
  | .error _ _ :: events => iterated filter events

/-- What the parser delivers from the bytes, as an iteration. -/
def expected (filter data : List UInt8) : List Message × Result :=
  iterated filter (Parser.parse { hasErrorCallback := true } data).2.1

/-- The result of a call: each message once, then the end again and again. -/
def resultOf (d : List Message × Result) (n : ℕ) : Result :=
  match d.1[n]? with
  | some m => .message m
  | none => d.2

/-- The iterator over a whole string. -/
def inMemory (filter data : List UInt8) : MessageIterator :=
  { buffer := data, filter := filter }

/-- An iterator over the bytes, in memory or in chunks. -/
inductive Loads (filter data : List UInt8) : MessageIterator → Prop where
  | stream (saveFile : Option (List UInt8)) :
      Loads filter data { buffer := data, filter, saveFile }
  | file (chunks : List (List UInt8)) (cachesize : ℕ)
      (saveFile : Option (List UInt8))
      (hsize : ∀ chunk ∈ chunks, chunk ≠ [] ∧ chunk.length ≤ cachesize)
      (hdata : chunks.flatten = data) :
      Loads filter data { filter, file := some chunks, cachesize, saveFile }

/-- The calls up to the one that ends the iteration, or all calls. -/
def Counts (forever : Bool) (d : List Message × Result) (n : ℕ) : Prop :=
  forever = true ∨ n ≤ d.1.length

/-- The calls are the expected ones, none of them reads a type byte outside of
its frame, and they are those of the iterator in memory. -/
structure Agrees (forever : Bool) (filter data : List UInt8) : Prop where
  parser : ∀ iter, Loads filter data iter → ∀ n,
    Counts forever (expected filter data) n →
      iter.calls n = ⟨resultOf (expected filter data) n, false⟩
  memory : ∀ iter, Loads filter data iter → ∀ n,
    Counts forever (expected filter data) n →
      iter.calls n = (inMemory filter data).calls n

/-- The frame has at least the size of its type. -/
def Sized (f : List UInt8) (t : MsgType) : Prop := t.wireSize ≤ f.length

/-- Nothing is returned for any of the frames, nor goes wrong. -/
def Silent (filter : List UInt8) (frames : List (List UInt8)) : Prop :=
  ∀ f ∈ frames, f ≠ [] ∧ f.headD 0 ∉ filter ∧
    ∃ t, lookup (f.headD 0) = some t ∧ (f.headD 0 = 'S'.toUInt8 → Sized f t)

/-- No padding and no undersized frame of a system event or of a type in the
filter, up to the end of the iteration. If that is a system event which the
filter drops, a caller that goes on sees nothing else. -/
def Clean (forever : Bool) (filter : List UInt8) :
    List (List UInt8) → Prop
  | [] => True
  | f :: frames =>
    f ≠ [] ∧
      match lookup (f.headD 0) with
      | none => True
      | some t =>
        (f.headD 0 ∈ filter ∨ f.headD 0 = 'S'.toUInt8 → Sized f t) ∧
          if (decodable f).any stops then
            f.headD 0 ∉ filter → forever = true → Silent filter frames
          else Clean forever filter frames

/-! ## §2  One call -/

/-- The state of an iterator, up to where its bytes are. -/
structure Holds (filter : List UInt8) (stopped : Bool) (bytes : List UInt8)
    (iter : MessageIterator) : Prop where
  filter : iter.filter = filter
  stopped : iter.stopped = stopped
  pending : iter.pending = bytes
  fed : iter.Fed

variable {filter bytes rest tail f : List UInt8} {stopped : Bool}
  {iter iter' : MessageIterator}

theorem Holds.refills (h : Holds filter stopped bytes iter)
    (hrefills : Refills iter iter') : Holds filter stopped bytes iter' :=
  ⟨hrefills.filter.trans h.filter, hrefills.stopped.trans h.stopped,
    hrefills.pending.trans h.pending, hrefills.fed h.fed⟩

theorem holds_of_loads {data : List UInt8} (h : Loads filter data iter) :
    Holds filter false data iter := by
  cases h with
  | stream saveFile =>
    refine ⟨rfl, rfl, ?_, nofun⟩
    simp [pending]
  | file chunks cachesize saveFile hsize hdata =>
    refine ⟨rfl, rfl, ?_, fun chunk hchunk => (hsize chunk hchunk).1⟩
    simp [pending, hdata]

theorem next_of_result {result : Result} {outside : Bool}
    (h : iter.pass = ⟨some result, outside, iter'⟩) :
    iter.next = (⟨result, outside⟩, iter') := by
  rw [next]
  split
  · rename_i hpass
    rw [h] at hpass
    cases hpass
    rfl
  · rename_i hpass
    rw [h] at hpass
    cases hpass

theorem next_of_none {outside : Bool}
    (h : iter.pass = ⟨none, outside, iter'⟩) :
    iter.next =
      (⟨iter'.next.1.result, outside || iter'.next.1.outside⟩,
        iter'.next.2) := by
  rw [next]
  split
  · rename_i hpass
    rw [h] at hpass
    cases hpass
  · rename_i hpass
    rw [h] at hpass
    cases hpass
    rfl

theorem mem_ALL_MESSAGES (c : UInt8) :
    c ∈ ALL_MESSAGES ↔ (lookup c).isSome := by
  have hregistered : ∀ c ∈ ALL_MESSAGES, ∃ e ∈ registry, (e.2 == c) = true := by
    decide +kernel
  have hlisted : ∀ e ∈ registry, e.2 ∈ ALL_MESSAGES := by decide +kernel
  rw [lookup, Option.isSome_map, List.find?_isSome]
  constructor
  · exact hregistered c
  · rintro ⟨e, he, heq⟩
    rw [← eq_of_beq heq]
    exact hlisted e he

theorem decodable_of_sized {t : MsgType} (ht : lookup (f.headD 0) = some t)
    (hsize : Sized f t) : ∃ m, decodable f = some m := by
  obtain ⟨m, hm⟩ := t.decodes f hsize
  refine ⟨m, ?_⟩
  rw [Sized] at hsize
  rw [decodable, ht, Option.bind_some, if_pos hsize]
  apply hm _ (List.length_take_of_le hsize).ge
  rw [List.take_take, min_self]

theorem decodable_of_not_sized {t : MsgType}
    (ht : lookup (f.headD 0) = some t) (hsize : ¬ Sized f t) :
    decodable f = none := by
  rw [Sized] at hsize
  rw [decodable, ht, Option.bind_some, if_neg hsize]

theorem decodable_of_error {error : ParseError} {c : UInt8}
    (h : FrameEvent f (.error error c)) : decodable f = none := by
  cases h with
  | unknownType ht => rw [decodable, ht, Option.bind_none]
  | sizeMismatch ht hsize => exact decodable_of_not_sized ht (not_le.mpr hsize)

/-- The parser makes of a frame what the frame is worth. -/
theorem parse_frame (hsize : f.length < 2 ^ 16) (hne : f ≠ []) :
    (Parser.parse {} (frameBytes f)).2.2 = none ∧
      (Parser.parse {} (frameBytes f)).messages.getLast? = decodable f := by
  have hd : Decomposition (frameBytes f) [f] [] := by
    refine ⟨?_, ?_, .empty⟩
    · intro payload hpayload
      rwa [List.mem_singleton.mp hpayload]
    · simp
  obtain ⟨evs, hevs, hparse⟩ := Parser.parseImpl_decomposition {} hd
  have hfilter : [f].filter (fun g => decide (g ≠ [])) = [f] :=
    List.filter_cons_of_pos (decide_eq_true hne)
  rw [hfilter, List.forall₂_cons_left_iff] at hevs
  obtain ⟨e, evs, he, hnil, rfl⟩ := hevs
  rw [List.forall₂_nil_left_iff] at hnil
  subst hnil
  rw [Parser.parse_eq hparse]
  refine ⟨rfl, ?_⟩
  cases e with
  | message m => rw [decodable_eq_some_iff.mpr he]; rfl
  | error error c => rw [decodable_of_error he]; rfl

/-- The type of a message is the type byte of its frame. -/
theorem messageType_of_decodable {m : Message} (h : decodable f = some m) :
    m.header.messageType = f.headD 0 := by
  obtain ⟨hreencodes, hown, -⟩ :=
    reencodes_of_frameEvent (decodable_eq_some_iff.mp h)
  rw [hown, typeByte_of_lookup hreencodes.type]

theorem isStop_of_decodable {m : Message} (h : decodable f = some m) :
    isStop (f.headD 0) (some m) = .ok (stops m) := by
  obtain ⟨hreencodes, -, -⟩ :=
    reencodes_of_frameEvent (decodable_eq_some_iff.mp h)
  have htype := typeByte_of_lookup hreencodes.type
  by_cases hs : f.headD 0 = 'S'.toUInt8
  · have hlookup := hreencodes.type
    rw [hs] at hlookup
    have hsystem : MsgType.systemEvent = m.alternative :=
      Option.some.inj ((by decide : _ = lookup 'S'.toUInt8).trans hlookup)
    cases m <;> cases hsystem
    rw [isStop, if_pos hs]
    rfl
  · unfold isStop
    rw [if_neg hs]
    cases m <;> first | rfl | exact absurd htype.symm hs

theorem Holds.consume {total : ℕ} (h : Holds filter stopped bytes iter)
    (hlen : total ≤ iter.buffer.length - iter.offset) :
    Holds filter stopped (bytes.drop total)
      { iter with offset := iter.offset + total } := by
  refine ⟨h.filter, h.stopped, ?_, h.fed⟩
  rw [← h.pending, MessageIterator.pending, MessageIterator.pending,
    List.drop_append_of_le_length (by rwa [List.length_drop]), List.drop_drop]

theorem bodyLen_encodeBE {n : ℕ} (hn : n < 2 ^ 16) :
    bodyLen (encodeBE 2 n ++ rest) = n := by
  show (UInt8.ofNat (n / 256 ^ 1)).toNat <<< 8 |||
    (UInt8.ofNat (n / 256 ^ 0)).toNat = n
  rw [UInt8.toNat_ofNat', UInt8.toNat_ofNat',
    ← Nat.shiftLeft_add_eq_or_of_lt (Nat.mod_lt _ (by norm_num)),
    Nat.shiftLeft_eq]
  omega

theorem length_tail_lt (h : IsTail tail) :
    tail.length < 2 + bodyLen tail := by
  cases h with
  | empty => exact Nat.lt_of_lt_of_le Nat.zero_lt_two (Nat.le_add_right _ _)
  | byte b => exact Nat.lt_of_lt_of_le Nat.one_lt_two (Nat.le_add_right _ _)
  | short n payload hn hlt =>
    rw [bodyLen_encodeBE hn, List.length_append, length_encodeBE]
    omega

/-- What a call does where a frame begins. -/
inductive Visited (filter f rest : List UInt8) (iter : MessageIterator) :
    Prop where
  /-- The type byte of padding is that of something else. -/
  | padding (hf : f = []) (houtside : iter.next.1.outside = true)
  | unknown (hf : f ≠ []) (ht : lookup (f.headD 0) = none)
      (iter' : MessageIterator)
      (hnext : iter.next = (⟨.valueError (f.headD 0), false⟩, iter'))
      (hholds : Holds filter false (frameBytes f ++ rest) iter')
  | undersized (hf : f ≠ []) (t : MsgType) (ht : lookup (f.headD 0) = some t)
      (hread : f.headD 0 ∈ filter ∨ f.headD 0 = 'S'.toUInt8)
      (hsize : ¬ Sized f t) (hempty : iter.next.1.result = .emptyResult)
  | kept (hf : f ≠ []) (t : MsgType) (ht : lookup (f.headD 0) = some t)
      (hsize : Sized f t) (hkept : f.headD 0 ∈ filter) (m : Message)
      (hm : decodable f = some m) (iter' : MessageIterator)
      (hnext : iter.next = (⟨.message m, false⟩, iter'))
      (hholds : Holds filter (stops m) rest iter')
  | stop (hf : f ≠ []) (t : MsgType) (ht : lookup (f.headD 0) = some t)
      (hsize : Sized f t) (hkept : f.headD 0 ∉ filter) (m : Message)
      (hm : decodable f = some m) (hstop : stops m = true)
      (iter' : MessageIterator)
      (hnext : iter.next = (⟨.stopIteration, false⟩, iter'))
      (hholds : Holds filter false rest iter')
  | dropped (hf : f ≠ []) (t : MsgType) (ht : lookup (f.headD 0) = some t)
      (hsize : f.headD 0 = 'S'.toUInt8 → Sized f t)
      (hkept : f.headD 0 ∉ filter) (hstop : (decodable f).any stops = false)
      (iter' : MessageIterator) (hnext : iter.next.1 = iter'.next.1)
      (hrest : iter.next.2 = iter'.next.2)
      (hholds : Holds filter false rest iter')

/-- The frame is in the buffer, and its type byte is read. -/
theorem visit_frame (hsize : f.length < 2 ^ 16)
    (hholds : Holds filter false (frameBytes f ++ rest) iter)
    (hlen : 2 + f.length ≤ iter.buffer.length - iter.offset) (hf : f ≠ []) :
    iter.visit (2 + f.length) =
      if f.headD 0 ∉ ALL_MESSAGES then
        ⟨some (.valueError (f.headD 0)), false, iter⟩
      else
        deliver { iter with offset := iter.offset + (2 + f.length) }
          (f.headD 0) (decodable f) (frameBytes f) false := by
  have hpos := List.length_pos_of_ne_nil hf
  have htype : iter.buffer.getD (iter.offset + FRAME_HEADER_LEN) 0 =
      f.headD 0 := by
    rw [FRAME_HEADER_LEN, getD_buffer (by omega), hholds.pending]
    cases f with
    | nil => exact absurd rfl hf
    | cons c cs => rfl
  have hframe : (iter.buffer.drop iter.offset).take (2 + f.length) =
      frameBytes f := by
    rw [take_buffer hlen, hholds.pending, ← length_frameBytes,
      List.take_left]
  have houtside : decide (iter.offset + (2 + f.length) ≤
      iter.offset + FRAME_HEADER_LEN) = false := by
    rw [FRAME_HEADER_LEN, decide_eq_false_iff_not]
    omega
  obtain ⟨hresult, hmessages⟩ := parse_frame hsize hf
  rw [visit]
  dsimp only
  rw [htype, hframe, houtside, hresult, hmessages]

theorem outside_deliver {typeByte : UInt8} {parsed : Option Message}
    {frame : List UInt8} {outside : Bool} :
    (iter.deliver typeByte parsed frame outside).outside = outside := by
  cases hstop : isStop typeByte parsed with
  | error e => rw [deliver_error hstop]
  | ok stop =>
    by_cases hkept : typeByte ∈ iter.filter
    · rw [deliver_kept hstop hkept]
    · rw [deliver_dropped hstop hkept]

/-- The type byte of padding is outside of it. -/
theorem outside_visit : (iter.visit 2).outside = true := by
  have houtside : decide (iter.offset + 2 ≤ iter.offset + FRAME_HEADER_LEN) =
      true := decide_eq_true le_rfl
  rw [visit]
  dsimp only
  rw [houtside]
  split
  · rfl
  · split
    · rfl
    · exact outside_deliver

theorem outside_next (h : iter.pass.outside = true) :
    iter.next.1.outside = true := by
  rcases hpass : iter.pass with ⟨result, outside, iter'⟩
  rw [hpass] at h
  obtain rfl : outside = true := h
  cases result with
  | none =>
    rw [next_of_none hpass]
    rfl
  | some result => rw [next_of_result hpass]

theorem dropped_of_pass (h : iter.pass = ⟨none, false, iter'⟩) :
    iter.next.1 = iter'.next.1 ∧ iter.next.2 = iter'.next.2 := by
  rw [next_of_none h]
  exact ⟨rfl, rfl⟩

section Known

variable {t : MsgType}

/-- A frame of a known type that has its size. -/
theorem visited_sized (hf : f ≠ []) (ht : lookup (f.headD 0) = some t)
    (hsize : Sized f t) (hholds : Holds filter false rest iter')
    (hpass : iter.pass =
      iter'.deliver (f.headD 0) (decodable f) (frameBytes f) false) :
    Visited filter f rest iter := by
  obtain ⟨m, hm⟩ := decodable_of_sized ht hsize
  have hstop := isStop_of_decodable hm
  rw [hm] at hpass
  by_cases hkept : f.headD 0 ∈ filter
  · rw [deliver_kept hstop (by rwa [hholds.filter])] at hpass
    refine .kept hf t ht hsize hkept m hm _ (next_of_result hpass)
      ⟨hholds.filter, ?_, hholds.pending, hholds.fed⟩
    dsimp only
    rw [hholds.stopped, Bool.false_or]
  · rw [deliver_dropped hstop (by rwa [hholds.filter])] at hpass
    cases hs : stops m with
    | true =>
      rw [hs] at hpass
      exact .stop hf t ht hsize hkept m hm hs _ (next_of_result hpass) hholds
    | false =>
      rw [hs] at hpass
      obtain ⟨hcall, hrest⟩ := dropped_of_pass hpass
      refine .dropped hf t ht (fun _ => hsize) hkept ?_ _ hcall hrest hholds
      rw [hm]
      exact hs

/-- A frame of a known type that is too short for it. -/
theorem visited_not_sized (hf : f ≠ []) (ht : lookup (f.headD 0) = some t)
    (hsize : ¬ Sized f t) (hholds : Holds filter false rest iter')
    (hpass : iter.pass =
      iter'.deliver (f.headD 0) (decodable f) (frameBytes f) false) :
    Visited filter f rest iter := by
  have hnone := decodable_of_not_sized ht hsize
  rw [hnone] at hpass
  by_cases hs : f.headD 0 = 'S'.toUInt8
  · have hstop : isStop (f.headD 0) none = .error .emptyResult := by
      rw [isStop, if_pos hs]
    rw [deliver_error hstop] at hpass
    refine .undersized hf t ht (.inr hs) hsize ?_
    rw [next_of_result hpass]
  · have hstop : isStop (f.headD 0) none = .ok false := by
      unfold isStop
      rw [if_neg hs]
    by_cases hkept : f.headD 0 ∈ filter
    · rw [deliver_kept hstop (by rwa [hholds.filter])] at hpass
      refine .undersized hf t ht (.inl hkept) hsize ?_
      rw [next_of_result hpass]
      rfl
    · rw [deliver_dropped hstop (by rwa [hholds.filter])] at hpass
      obtain ⟨hcall, hrest⟩ := dropped_of_pass hpass
      refine .dropped hf t ht (fun h => absurd h hs) hkept ?_ _ hcall hrest
        hholds
      rw [hnone]
      rfl

end Known

/-- The pass where a frame begins visits that frame. -/
theorem pass_frame (hsize : f.length < 2 ^ 16)
    (hholds : Holds filter false (frameBytes f ++ rest) iter) :
    ∃ iter', Holds filter false (frameBytes f ++ rest) iter' ∧
      iter.pass = iter'.visit (2 + f.length) ∧
      2 + f.length ≤ iter'.buffer.length - iter'.offset := by
  have hbody : bodyLen iter.pending = f.length := by
    rw [hholds.pending, frameBytes, List.append_assoc]
    exact bodyLen_encodeBE hsize
  rcases pass_cases hholds.stopped with
    ⟨iter', -, -, hshort⟩ | ⟨iter', hrefills, hpass, hlen⟩
  · have hlength : iter.pending.length = 2 + f.length + rest.length := by
      rw [hholds.pending, List.length_append, length_frameBytes]
    rcases hshort hholds.fed with hshort | hshort
    · omega
    · omega
  · rw [hbody] at hpass hlen
    exact ⟨iter', hholds.refills hrefills, hpass, hlen⟩

theorem next_frame (hsize : f.length < 2 ^ 16)
    (hholds : Holds filter false (frameBytes f ++ rest) iter) :
    Visited filter f rest iter := by
  obtain ⟨iter', hholds', hpass, hlen⟩ := pass_frame hsize hholds
  by_cases hf : f = []
  · refine .padding hf (outside_next ?_)
    rw [hpass, hf]
    exact outside_visit
  rw [visit_frame hsize hholds' hlen hf] at hpass
  cases ht : lookup (f.headD 0) with
  | none =>
    have hknown : f.headD 0 ∉ ALL_MESSAGES := by
      rw [mem_ALL_MESSAGES, ht]
      decide
    rw [if_pos hknown] at hpass
    exact .unknown hf ht iter' (next_of_result hpass) hholds'
  | some t =>
    have hknown : f.headD 0 ∈ ALL_MESSAGES := by
      rw [mem_ALL_MESSAGES, ht]
      rfl
    rw [if_neg (not_not.mpr hknown)] at hpass
    have hconsume := hholds'.consume hlen
    rw [← length_frameBytes, List.drop_left, length_frameBytes] at hconsume
    by_cases hsized : Sized f t
    · exact visited_sized hf ht hsized hconsume hpass
    · exact visited_not_sized hf ht hsized hconsume hpass

/-- Where no frame begins, the iteration ends, again and again. -/
theorem next_tail (htail : IsTail tail)
    (hholds : Holds filter false tail iter) :
    ∃ iter', iter.next = (⟨.stopIteration, false⟩, iter') ∧
      Holds filter false tail iter' := by
  rcases pass_cases hholds.stopped with
    ⟨iter', hrefills, hpass, -⟩ | ⟨iter', hrefills, -, hlen⟩
  · exact ⟨iter', next_of_result hpass, hholds.refills hrefills⟩
  · have hshort := length_tail_lt htail
    have hpending := length_pending iter'
    rw [hrefills.pending] at hpending
    rw [hholds.pending] at hlen hpending
    omega

/-! ## §3  All calls -/

theorem calls_of_next (hcall : iter.next.1 = iter'.next.1)
    (hrest : iter.next.2 = iter'.next.2) (n : ℕ) :
    iter.calls n = iter'.calls n := by
  cases n with
  | zero => exact hcall
  | succ n => rw [calls, calls, hrest]

theorem calls_const {c : Call} {P : MessageIterator → Prop}
    (hstep : ∀ iter, P iter → ∃ iter', iter.next = (c, iter') ∧ P iter') :
    ∀ (n : ℕ) (iter : MessageIterator), P iter → iter.calls n = c := by
  intro n
  induction n with
  | zero =>
    intro iter h
    obtain ⟨iter', hnext, -⟩ := hstep iter h
    rw [calls, hnext]
  | succ n ih =>
    intro iter h
    obtain ⟨iter', hnext, h'⟩ := hstep iter h
    rw [calls, hnext]
    exact ih iter' h'

/-- The iteration is over. -/
def Ended (iter : MessageIterator) : Prop :=
  ∀ n, iter.calls n = ⟨.stopIteration, false⟩

theorem Ended.next (h : Ended iter) :
    iter.next.1 = ⟨.stopIteration, false⟩ := h 0

theorem ended_of_stopped (h : Holds filter true bytes iter) : Ended iter := by
  intro n
  refine @calls_const _ (Holds filter true bytes) ?_ n iter h
  intro iter h
  have hpass : iter.pass = ⟨some .stopIteration, false, iter⟩ := by
    rw [MessageIterator.pass, if_pos h.stopped]
  exact ⟨iter, next_of_result hpass, h⟩

theorem ended_of_tail (htail : IsTail tail)
    (h : Holds filter false tail iter) : Ended iter := by
  intro n
  exact @calls_const _ (Holds filter false tail)
    (fun _ => next_tail htail) n iter h

/-- A frame of unknown type is an error, again and again. -/
theorem calls_unknown (hsize : f.length < 2 ^ 16) (hf : f ≠ [])
    (ht : lookup (f.headD 0) = none)
    (h : Holds filter false (frameBytes f ++ rest) iter) (n : ℕ) :
    iter.calls n = ⟨.valueError (f.headD 0), false⟩ := by
  refine @calls_const _ (Holds filter false (frameBytes f ++ rest)) ?_ n iter h
  intro iter h
  cases next_frame hsize h with
  | padding hnil => exact absurd hnil hf
  | unknown _ _ iter' hnext hholds => exact ⟨iter', hnext, hholds⟩
  | undersized _ t ht' => rw [ht] at ht'; cases ht'
  | kept _ t ht' => rw [ht] at ht'; cases ht'
  | stop _ t ht' => rw [ht] at ht'; cases ht'
  | dropped _ t ht' => rw [ht] at ht'; cases ht'

theorem ended_succ
    (hnext : iter.next = (⟨.stopIteration, false⟩, iter')) :
    Ended iter ↔ Ended iter' := by
  constructor
  · intro h n
    have hn := h (n + 1)
    rwa [calls, hnext] at hn
  · intro h n
    cases n with
    | zero => rw [calls, hnext]
    | succ n =>
      rw [calls, hnext]
      exact h n

theorem ended_iff_silent (htail : IsTail tail) :
    ∀ {frames : List (List UInt8)} {iter : MessageIterator},
      (∀ f ∈ frames, f.length < 2 ^ 16) →
      Holds filter false ((frames.map frameBytes).flatten ++ tail) iter →
      (Ended iter ↔ Silent filter frames) := by
  intro frames
  induction frames with
  | nil =>
    intro iter _ h
    exact iff_of_true (ended_of_tail htail h) fun f hf =>
      absurd hf List.not_mem_nil
  | cons f frames ih =>
    intro iter hsmall h
    rw [List.forall_mem_cons] at hsmall
    rw [List.map_cons, List.flatten_cons, List.append_assoc] at h
    rw [Silent, List.forall_mem_cons]
    cases next_frame hsmall.1 h with
    | padding hf houtside =>
      constructor
      · intro hended
        rw [hended.next] at houtside
        cases houtside
      · rintro ⟨⟨hne, -⟩, -⟩
        exact absurd hf hne
    | unknown hf ht iter' hnext hholds =>
      constructor
      · intro hended
        have hcall := hended.next
        rw [hnext] at hcall
        cases hcall
      · rintro ⟨⟨-, -, t, ht', -⟩, -⟩
        rw [ht] at ht'
        cases ht'
    | undersized hf t ht hread hsize hempty =>
      constructor
      · intro hended
        rw [hended.next] at hempty
        cases hempty
      · rintro ⟨⟨-, hkept, t', ht', hsystem⟩, -⟩
        rw [ht] at ht'
        cases ht'
        rcases hread with hread | hread
        · exact absurd hread hkept
        · exact absurd (hsystem hread) hsize
    | kept hf t ht hsize hkept m hm iter' hnext hholds =>
      constructor
      · intro hended
        have hcall := hended.next
        rw [hnext] at hcall
        cases hcall
      · rintro ⟨⟨-, hnot, -⟩, -⟩
        exact absurd hkept hnot
    | stop hf t ht hsize hkept m hm hstop iter' hnext hholds =>
      rw [ended_succ hnext, ih hsmall.2 hholds]
      exact (and_iff_right ⟨hf, hkept, t, ht, fun _ => hsize⟩).symm
    | dropped hf t ht hsize hkept hstop iter' hnext hrest hholds =>
      have hended : Ended iter ↔ Ended iter' := by
        unfold Ended
        simp only [calls_of_next hnext hrest]
      rw [hended, ih hsmall.2 hholds]
      exact (and_iff_right ⟨hf, hkept, t, ht, hsize⟩).symm

/-- The calls that count are the expected ones. -/
def Follows (forever : Bool) (d : List Message × Result)
    (iter : MessageIterator) : Prop :=
  ∀ n, Counts forever d n → iter.calls n = ⟨resultOf d n, false⟩

variable {forever : Bool} {d : List Message × Result} {m : Message}

theorem Follows.next (h : Follows forever d iter) :
    iter.next.1 = ⟨resultOf d 0, false⟩ := h 0 (.inr (Nat.zero_le _))

theorem follows_nil {result : Result}
    (h : ∀ n, iter.calls n = ⟨result, false⟩) :
    Follows forever ([], result) iter := fun n _ => h n

theorem follows_cons (hnext : iter.next = (⟨.message m, false⟩, iter')) :
    Follows forever (m :: d.1, d.2) iter ↔ Follows forever d iter' := by
  constructor
  · intro h n hn
    have hcounts : Counts forever (m :: d.1, d.2) (n + 1) :=
      hn.imp id Nat.succ_le_succ
    have hcall := h (n + 1) hcounts
    rwa [calls, hnext] at hcall
  · intro h n hn
    cases n with
    | zero =>
      rw [calls, hnext]
      rfl
    | succ n =>
      rw [calls, hnext]
      exact h n (hn.imp id Nat.le_of_succ_le_succ)

theorem iterated_snd (events : List ParserEvent) :
    (iterated filter events).2 = .stopIteration ∨
      ∃ c, (iterated filter events).2 = .valueError c := by
  induction events with
  | nil => exact .inl rfl
  | cons e events ih =>
    cases e with
    | message m =>
      rw [iterated]
      split
      · exact .inl rfl
      · exact ih
    | error error c =>
      cases error with
      | unknownType => exact .inr ⟨c, rfl⟩
      | truncated => exact ih
      | sizeMismatch => exact ih

/-- Nothing that is not there is to be returned. -/
theorem resultOf_ne_emptyResult (events : List ParserEvent) (n : ℕ) :
    resultOf (iterated filter events) n ≠ .emptyResult := by
  intro h
  rw [resultOf] at h
  cases hget : (iterated filter events).1[n]? with
  | some m =>
    rw [hget] at h
    cases h
  | none =>
    rw [hget] at h
    rcases @iterated_snd filter events with hend | ⟨c, hend⟩
    · cases h.symm.trans hend
    · cases h.symm.trans hend

theorem iterated_tailEvents :
    iterated filter (tailEvents tail) = ([], .stopIteration) := by
  rw [tailEvents]
  split <;> rfl

/-- Nothing is expected of a frame that is dropped. -/
theorem iterated_dropped {t : MsgType} {e : ParserEvent}
    (ht : lookup (f.headD 0) = some t) (hkept : f.headD 0 ∉ filter)
    (hstop : (decodable f).any stops = false) (hevent : FrameEvent f e)
    (events : List ParserEvent) :
    iterated filter (e :: events) = iterated filter events := by
  cases hevent with
  | message ht' hsize' hdecode =>
    have hm := decodable_eq_some_iff.mpr (.message ht' hsize' hdecode)
    rw [hm, Option.any_some] at hstop
    rw [iterated, if_neg (Bool.eq_false_iff.mp hstop),
      if_neg (by rwa [messageType_of_decodable hm])]
    rfl
  | unknownType ht' =>
    rw [ht] at ht'
    cases ht'
  | sizeMismatch => rfl

/-- The end of an iteration that returns nothing more. -/
theorem follows_stop
    (hnext : iter.next = (⟨.stopIteration, false⟩, iter')) :
    Follows forever ([], .stopIteration) iter ↔
      (forever = true → Ended iter') := by
  rw [← ended_succ hnext]
  constructor
  · intro hfollows hforever n
    exact hfollows n (.inl hforever)
  · intro hended n hn
    cases n with
    | zero =>
      rw [calls, hnext]
      rfl
    | succ n =>
      rcases hn with hforever | hn
      · exact hended hforever (n + 1)
      · exact absurd hn (Nat.not_succ_le_zero n)

theorem follows_of_next (hcall : iter.next.1 = iter'.next.1)
    (hrest : iter.next.2 = iter'.next.2) :
    Follows forever d iter ↔ Follows forever d iter' := by
  unfold Follows
  simp only [calls_of_next hcall hrest]

theorem not_follows_of_outside (h : iter.next.1.outside = true) :
    ¬ Follows forever d iter := by
  intro hfollows
  rw [hfollows.next] at h
  cases h

section Frames

variable {frames : List (List UInt8)} {events : List ParserEvent}

theorem clean_cons {t : MsgType} (hf : f ≠ [])
    (ht : lookup (f.headD 0) = some t) :
    Clean forever filter (f :: frames) ↔
      (f.headD 0 ∈ filter ∨ f.headD 0 = 'S'.toUInt8 → Sized f t) ∧
        if (decodable f).any stops then
          f.headD 0 ∉ filter → forever = true → Silent filter frames
        else Clean forever filter frames := by
  rw [Clean, ht]
  exact and_iff_right hf

/-- The step of the induction: a frame in front of frames for which the calls
are the expected ones if and only if they are clean. -/
theorem follows_cons_iff_clean {e : ParserEvent} (htail : IsTail tail)
    (hsmall : ∀ g ∈ f :: frames, g.length < 2 ^ 16) (hf : f ≠ [])
    (hevent : FrameEvent f e)
    (ih : ∀ {iter}, Holds filter false
        ((frames.map frameBytes).flatten ++ tail) iter →
      (Follows forever (iterated filter events) iter ↔
        Clean forever filter frames))
    (h : Holds filter false
      (frameBytes f ++ ((frames.map frameBytes).flatten ++ tail)) iter) :
    Follows forever (iterated filter (e :: events)) iter ↔
      Clean forever filter (f :: frames) := by
  rw [List.forall_mem_cons] at hsmall
  have hmessage {m : Message} (hm : decodable f = some m) : e = .message m :=
    FrameEvent.rightUnique hevent (decodable_eq_some_iff.mp hm)
  cases next_frame hsmall.1 h with
  | padding hnil => exact absurd hnil hf
  | unknown _ ht iter' hnext hholds =>
    obtain rfl : e = .error .unknownType (f.headD 0) :=
      FrameEvent.rightUnique hevent (.unknownType ht)
    refine iff_of_true (follows_nil (calls_unknown hsmall.1 hf ht h)) ?_
    rw [Clean, ht]
    exact ⟨hf, trivial⟩
  | undersized _ t ht hread hsize hempty =>
    constructor
    · intro hfollows
      rw [hfollows.next] at hempty
      exact absurd hempty (resultOf_ne_emptyResult _ _)
    · intro hclean
      exact absurd (((clean_cons hf ht).mp hclean).1 hread) hsize
  | kept _ t ht hsize hkept m hm iter' hnext hholds =>
    obtain rfl := hmessage hm
    have hmem : m.header.messageType ∈ filter := by
      rwa [messageType_of_decodable hm]
    rw [clean_cons hf ht, and_iff_right fun _ => hsize, hm, iterated]
    cases hs : stops m with
    | true =>
      rw [hs] at hholds
      rw [Option.any_some, hs, if_pos rfl, if_pos rfl, if_pos hmem,
        follows_cons (d := ([], _)) hnext]
      exact iff_of_true (follows_nil (ended_of_stopped hholds))
        fun hnot => absurd hkept hnot
    | false =>
      rw [hs] at hholds
      rw [Option.any_some, hs, if_neg Bool.false_ne_true,
        if_neg Bool.false_ne_true, if_pos hmem]
      exact (follows_cons hnext).trans (ih hholds)
  | stop _ t ht hsize hkept m hm hstop iter' hnext hholds =>
    obtain rfl := hmessage hm
    have hmem : m.header.messageType ∉ filter := by
      rwa [messageType_of_decodable hm]
    rw [clean_cons hf ht, and_iff_right fun _ => hsize, hm, iterated,
      Option.any_some, hstop, if_pos rfl, if_pos rfl, if_neg hmem,
      follows_stop hnext, ended_iff_silent htail hsmall.2 hholds]
    exact (imp_iff_right hkept).symm
  | dropped _ t ht hsize hkept hstop iter' hnext hrest hholds =>
    have hread : f.headD 0 ∈ filter ∨ f.headD 0 = 'S'.toUInt8 →
        Sized f t := by
      rintro (hin | hs)
      · exact absurd hin hkept
      · exact hsize hs
    rw [iterated_dropped ht hkept hstop hevent, follows_of_next hnext hrest,
      ih hholds, clean_cons hf ht, and_iff_right hread, hstop,
      if_neg Bool.false_ne_true]

theorem follows_iff_clean (htail : IsTail tail)
    (hsmall : ∀ f ∈ frames, f.length < 2 ^ 16)
    (hevents : List.Forall₂ FrameEvent (frames.filter (· ≠ [])) events)
    (h : Holds filter false
      ((frames.map frameBytes).flatten ++ tail) iter) :
    Follows forever (iterated filter (events ++ tailEvents tail)) iter ↔
      Clean forever filter frames := by
  induction frames generalizing events iter with
  | nil =>
    rw [List.filter_nil, List.forall₂_nil_left_iff] at hevents
    subst hevents
    rw [List.nil_append, iterated_tailEvents]
    exact iff_of_true (follows_nil (ended_of_tail htail h)) trivial
  | cons f frames ih =>
    rw [List.map_cons, List.flatten_cons, List.append_assoc] at h
    have hrest := (List.forall_mem_cons.mp hsmall).2
    by_cases hf : f = []
    · cases next_frame (hsmall f List.mem_cons_self) h with
      | padding _ houtside =>
        exact iff_of_false (not_follows_of_outside houtside)
          fun hclean => hclean.1 hf
      | unknown hne => exact absurd hf hne
      | undersized hne => exact absurd hf hne
      | kept hne => exact absurd hf hne
      | stop hne => exact absurd hf hne
      | dropped hne => exact absurd hf hne
    · have hfilter : (f :: frames).filter (· ≠ []) =
          f :: frames.filter (· ≠ []) :=
        List.filter_cons_of_pos (decide_eq_true hf)
      rw [hfilter, List.forall₂_cons_left_iff] at hevents
      obtain ⟨e, events, hevent, hevents, rfl⟩ := hevents
      exact follows_cons_iff_clean htail hsmall hf hevent
        (ih hrest hevents) h

end Frames

/-- With an error callback the parser reports every event. -/
theorem expected_eq {data : List UInt8} {frames : List (List UInt8)}
    (filter : List UInt8) (hd : Decomposition data frames tail) :
    ∃ events, List.Forall₂ FrameEvent (frames.filter (· ≠ [])) events ∧
      expected filter data = iterated filter (events ++ tailEvents tail) := by
  obtain ⟨events, hevents, hparse⟩ :=
    Parser.parseImpl_decomposition { hasErrorCallback := true } hd
  refine ⟨events, hevents, ?_⟩
  rw [expected, Parser.parse_eq hparse]
  dsimp only
  rw [List.filter_eq_self.mpr]
  intro e _
  cases e <;> rfl

theorem follows_expected_iff {data : List UInt8} {frames : List (List UInt8)}
    (hd : Decomposition data frames tail) (hloads : Loads filter data iter) :
    Follows forever (expected filter data) iter ↔
      Clean forever filter frames := by
  obtain ⟨events, hevents, hexpected⟩ := expected_eq filter hd
  have hholds := holds_of_loads hloads
  rw [hd.bytes] at hholds
  rw [hexpected]
  exact follows_iff_clean hd.rest hd.small hevents hholds

/-- The iterator does what it should, up to the end of the iteration or for
ever, if and only if the frames are clean. -/
theorem agrees_iff_clean (forever : Bool) (filter data : List UInt8) :
    Agrees forever filter data ↔
      ∃ frames tail, Decomposition data frames tail ∧
        Clean forever filter frames := by
  constructor
  · intro h
    obtain ⟨frames, tail, hd⟩ := Decomposition.exists data
    exact ⟨frames, tail, hd, (follows_expected_iff hd (.stream none)).mp
      (h.parser _ (.stream none))⟩
  · rintro ⟨frames, tail, hd, hclean⟩
    have hparser (iter) (hloads : Loads filter data iter) :=
      (follows_expected_iff hd hloads).mpr hclean
    refine ⟨hparser, ?_⟩
    intro iter hloads n hn
    exact (hparser iter hloads n hn).trans
      (hparser (inMemory filter data) (.stream none) n hn).symm

/-- A system event of one byte is dereferenced although the parser does not
deliver it. -/
theorem not_agrees_undersized :
    ¬ ∃ forever, ∀ filter data, Agrees forever filter data := by
  rintro ⟨forever, h⟩
  have hd : Decomposition [0, 1, 83] [[83]] [] :=
    ⟨by decide, by decide, .empty⟩
  have hclean := (follows_expected_iff hd (.stream none)).mp
    ((h ALL_MESSAGES [0, 1, 83]).parser _ (.stream none))
  have ht : lookup ([83].headD 0) = some .systemEvent := by decide
  have hsize := ((clean_cons (by decide) ht).mp hclean).1 (.inr rfl)
  revert hsize
  unfold Sized
  decide

end Itch.Python
