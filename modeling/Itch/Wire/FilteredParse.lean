import Itch.Wire.Framing

/-!
# Parsing with a filter

§1 is `parse` with a message callback, and the two overloads built on it: one
collects all messages, the other those of the given types. §2 says when the
second does what the first does and returns its messages filtered.
-/

namespace Itch

/-! ## §1  The overloads -/

/-- A call that returns or throws, with the parser it leaves behind and the
calls of the error callback it has made. -/
structure ParseCall (α : Type) where
  parser : Parser
  errorCalls : List (ParseError × UInt8)
  result : Except String α

/-- The text of the exception. -/
def INCOMPLETE_MESSAGE : String := "Incomplete message at end of buffer."

namespace Parser

/-- The calls of the error callback. -/
def Outcome.errorCalls (o : Outcome) : List (ParseError × UInt8) :=
  o.2.1.filterMap fun
    | .message _ => none
    | .error error messageType => some (error, messageType)

/-- `parse` with a message callback that updates `s`. What it has collected
is lost when an exception is thrown. -/
def parseWith {σ : Type} (p : Parser) (data : List UInt8)
    (callback : σ → Message → σ) (s : σ) : ParseCall σ where
  parser := (p.parse data).1
  errorCalls := (p.parse data).errorCalls
  result :=
    match (p.parse data).2.2 with
    | some _ => .error INCOMPLETE_MESSAGE
    | none => .ok ((p.parse data).messages.foldl callback s)

/-- The overload that collects all messages. -/
def parseAll (p : Parser) (data : List UInt8) : ParseCall (List Message) :=
  p.parseWith data (fun messages msg => messages ++ [msg]) []

/-- The overload with a list of message types. -/
def parseTypes (p : Parser) (data : List UInt8) (messages : List UInt8) :
    ParseCall (List Message) :=
  let filter := messages.toFinset
  if filter = ∅ then ⟨p, [], .ok []⟩
  else
    p.parseWith data (fun results msg =>
      if msg.header.messageType ∈ filter then results ++ [msg] else results) []

/-- The filtered parse returns what is of the given types and does otherwise
what the full parse does. -/
structure FiltersFull (p : Parser) (data types : List UInt8) : Prop where
  parser : (p.parseTypes data types).parser = (p.parseAll data).parser
  errorCalls :
    (p.parseTypes data types).errorCalls = (p.parseAll data).errorCalls
  result : (p.parseTypes data types).result =
    (p.parseAll data).result.map
      (List.filter fun msg => msg.header.messageType ∈ types)

end Parser

/-- Nothing is reported about the buffer: it is made of complete frames, of
padding and of messages. -/
def NothingReported (data : List UInt8) : Prop :=
  ∃ frames, Decomposition data frames [] ∧
    ∀ payload ∈ frames, payload ≠ [] → (decodable payload).isSome

/-! ## §2  Where they agree -/

variable {data types : List UInt8}

theorem isSome_decodable_iff {payload : List UInt8} (hne : payload ≠ []) :
    (decodable payload).isSome ↔
      isUnknown payload = false ∧ isUndersized payload = false := by
  unfold decodable isUnknown isUndersized
  cases ht : lookup (payload.headD 0) with
  | none => simp [hne]
  | some t =>
      by_cases hsize : t.wireSize ≤ payload.length
      · obtain ⟨m, hm⟩ := t.decodes payload hsize
        have htake : t.decode (payload.take t.wireSize) = some m :=
          hm _ (List.length_take_of_le hsize).ge (by
            rw [List.take_take, min_self])
        simp [hsize, htake]
      · simp [hne, not_le.mp hsize]

theorem Decomposition.length_le {tail : List UInt8}
    {frames : List (List UInt8)} (hd : Decomposition data frames tail) :
    frames.length ≤ data.length := by
  have hlen : frames.length ≤ (frames.map frameBytes).flatten.length := by
    clear hd
    induction frames with
    | nil => exact Nat.zero_le _
    | cons payload frames ih =>
        rw [List.map_cons, List.flatten_cons, List.length_append,
          length_frameBytes, List.length_cons]
        omega
  rw [hd.bytes, List.length_append]
  exact hlen.trans (Nat.le_add_right _ _)

/-- A counter that has moved by less than its range has not come round. -/
theorem eq_zero_of_add_ofNat {c : UInt64} {n : ℕ} (hn : n < 2 ^ 64)
    (h : c + UInt64.ofNat n = c) : n = 0 := by
  have hzero : UInt64.ofNat n = 0 := by simpa using h
  have hnat := congrArg UInt64.toNat hzero
  rwa [UInt64.toNat_ofNat_of_lt' hn] at hnat

theorem forall_decodable_iff {frames : List (List UInt8)} :
    (∀ payload ∈ frames, payload ≠ [] → (decodable payload).isSome) ↔
      frames.countP isUnknown = 0 ∧ frames.countP isUndersized = 0 := by
  rw [List.countP_eq_zero, List.countP_eq_zero, ← forall₂_and]
  refine forall₂_congr fun payload _ => ?_
  by_cases hne : payload = []
  · simp [hne, isUnknown, isUndersized]
  · simp [hne, isSome_decodable_iff hne]

/-- Frames that can be decoded report no errors. -/
theorem errorCalls_eq_nil {frames : List (List UInt8)}
    {evs : List ParserEvent} (hevs : List.Forall₂ FrameEvent frames evs)
    (h : ∀ payload ∈ frames, (decodable payload).isSome) (p p' : Parser)
    (result : Option ParseError) :
    Parser.Outcome.errorCalls (p', evs.filter p.delivers, result) = [] := by
  induction hevs with
  | nil => rfl
  | @cons payload e frames evs hevent _ ih =>
      obtain ⟨hpayload, hframes⟩ := List.forall_mem_cons.mp h
      obtain ⟨m, hm⟩ := Option.isSome_iff_exists.mp hpayload
      obtain rfl : e = .message m :=
        FrameEvent.rightUnique hevent (decodable_eq_some_iff.mp hm)
      exact ih hframes

namespace Parser

theorem foldl_append (acc ms : List Message) :
    ms.foldl (fun messages msg => messages ++ [msg]) acc = acc ++ ms := by
  induction ms generalizing acc with
  | nil => simp
  | cons m ms ih => rw [List.foldl_cons, ih, List.append_assoc]; rfl

theorem foldl_filter (types : List UInt8) (acc ms : List Message) :
    ms.foldl (fun results msg =>
        if msg.header.messageType ∈ types.toFinset then results ++ [msg]
        else results) acc =
      acc ++ ms.filter fun msg => msg.header.messageType ∈ types := by
  induction ms generalizing acc with
  | nil => simp
  | cons m ms ih =>
      rw [List.foldl_cons, ih]
      by_cases hm : m.header.messageType ∈ types
      · rw [if_pos (List.mem_toFinset.mpr hm), List.append_assoc,
          List.filter_cons_of_pos (by simpa using hm)]
        rfl
      · rw [if_neg (fun h => hm (List.mem_toFinset.mp h)),
          List.filter_cons_of_neg (by simpa using hm)]

/-- A filter that is not empty takes no shortcut. -/
theorem filtersFull_of_ne_nil (p : Parser) (data : List UInt8)
    (h : types ≠ []) : p.FiltersFull data types := by
  have hfilter : types.toFinset ≠ ∅ := by simpa using h
  have hcall : p.parseTypes data types = p.parseWith data (fun results msg =>
      if msg.header.messageType ∈ types.toFinset then results ++ [msg]
      else results) [] := if_neg hfilter
  constructor
  · rw [hcall]
    rfl
  · rw [hcall]
    rfl
  · rw [hcall, parseAll, parseWith, parseWith]
    dsimp only
    cases (p.parse data).2.2 with
    | some e => rfl
    | none =>
        dsimp only
        rw [foldl_filter, foldl_append, List.nil_append, List.nil_append]
        rfl

/-- The empty filter returns at once. The full parse has then reported
nothing, or else one of its counters, or its result, tells of it. -/
theorem filtersFull_nil_iff (p : Parser) (hsize : data.length < 2 ^ 64) :
    p.FiltersFull data [] ↔ NothingReported data := by
  have hcall : p.parseTypes data [] = ⟨p, [], .ok []⟩ := rfl
  obtain ⟨frames, tail, hd⟩ := Decomposition.exists data
  obtain ⟨evs, hevs, hparse⟩ := p.parseImpl_decomposition hd
  have hfull := parse_eq hparse
  constructor
  · intro h
    have hresult := h.result
    have hparser := h.parser
    rw [hcall, parseAll, parseWith, hfull] at hresult hparser
    have htail : tail = [] := by
      by_contra hne
      rw [tailResult, if_neg hne] at hresult
      cases hresult
    have hlen := hd.length_le.trans_lt hsize
    have hunknown : frames.countP isUnknown = 0 :=
      eq_zero_of_add_ofNat (List.countP_le_length.trans_lt hlen)
        (congrArg Parser.unknownMessageCount hparser).symm
    have hundersized : frames.countP isUndersized = 0 := by
      have hcount := (congrArg Parser.malformedMessageCount hparser).symm
      simp only [countTail, if_pos htail, UInt64.add_zero] at hcount
      exact eq_zero_of_add_ofNat (List.countP_le_length.trans_lt hlen) hcount
    exact ⟨frames, htail ▸ hd, forall_decodable_iff.mpr
      ⟨hunknown, hundersized⟩⟩
  · rintro ⟨frames', hd', hdecodable⟩
    obtain ⟨rfl, rfl⟩ := hd.unique hd'
    obtain ⟨hunknown, hundersized⟩ := forall_decodable_iff.mp hdecodable
    have hcount : (p.count frames).countTail [] = p := by
      simp [count, countTail, hunknown, hundersized]
    constructor
    · rw [hcall, parseAll, parseWith, hfull]
      exact hcount.symm
    · have hframes : ∀ payload ∈ frames.filter (· ≠ []),
          (decodable payload).isSome := by
        intro payload hmem
        obtain ⟨hmem, hne⟩ := List.mem_filter.mp hmem
        exact hdecodable payload hmem (by simpa using hne)
      rw [hcall, parseAll, parseWith, hfull, tailEvents, if_pos rfl,
        List.append_nil]
      exact (errorCalls_eq_nil hevs hframes p _ _).symm
    · rw [hcall, parseAll, parseWith, hfull]
      show _ = Except.ok (List.filter _ _)
      simp

/-- The filtered parse is the full parse, filtered, unless the filter is empty
and there is something to report. The size of a buffer is a `size_t`. -/
theorem filtersFull_iff (p : Parser) (data types : List UInt8)
    (hsize : data.length < 2 ^ 64) :
    p.FiltersFull data types ↔ types ≠ [] ∨ NothingReported data := by
  by_cases htypes : types = []
  · subst htypes
    rw [filtersFull_nil_iff p hsize]
    simp
  · exact iff_of_true (p.filtersFull_of_ne_nil data htypes) (.inl htypes)

theorem filtersFull_iff_oneByte :
    FiltersFull {} [0] [65] ↔
      ([65] : List UInt8) ≠ [] ∨ NothingReported [0] :=
  filtersFull_iff {} [0] [65] (by decide)

/-- The full parse throws at a lone byte, with an empty filter it does not. -/
theorem not_filtersFull_nil : ¬FiltersFull {} [0] [] := by
  intro h
  have hfull : parse {} [0] = ({ malformedMessageCount := 1 }, [],
      some ParseError.truncated) := parse_eq (by
    rw [parseImpl, parseLoop]
    rfl)
  have hresult := h.result
  rw [parseAll, parseWith, hfull] at hresult
  cases hresult

end Parser

end Itch
