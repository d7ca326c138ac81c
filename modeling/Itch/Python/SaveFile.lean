import Itch.Framework.Transducer
import Itch.Python.MessageParser

/-!
# What an iterator saves

An iterator with a file for saving writes the frames of the messages that it
returns. §1 is about one call, and §2 reads back what any calls have written.
-/

namespace Itch.Python

open MessageIterator ByteCursor Overlay Transducer

/-! ## §1  One call -/

/-- Between `iter` and `iter'` the frame of a message is written if one is
returned, and nothing otherwise. -/
def Saves (iter iter' : MessageIterator) : Option Result → Prop
  | some (.message m) =>
      iter'.filter = iter.filter ∧ iter'.stopped = (iter.stopped || stops m) ∧
        m.header.messageType ∈ iter.filter ∧
        ∃ f, f.length < 2 ^ 16 ∧ decodable f = some m ∧
          iter'.saveFile = iter.saveFile.map (· ++ frameBytes f)
  | some .emptyResult => True
  | _ => iter'.filter = iter.filter ∧ iter'.stopped = iter.stopped ∧
      iter'.saveFile = iter.saveFile

namespace MessageIterator

variable {iter iter' : MessageIterator} {m : Message} {f : List UInt8}

theorem saveFile_compact : iter.compact.saveFile = iter.saveFile := by
  rw [compact]
  split <;> rfl

theorem saveFile_fillFrom (need : ℕ) (chunks : List (List UInt8))
    (iter : MessageIterator) :
    (fillFrom need chunks iter).2.saveFile = iter.saveFile := by
  induction chunks generalizing iter with
  | nil =>
    rw [fillFrom]
    split
    · exact saveFile_compact
    · rfl
  | cons chunk chunks ih =>
    rw [fillFrom]
    split
    · dsimp only
      split
      · exact saveFile_compact
      · exact (ih _).trans saveFile_compact
    · rfl

theorem saveFile_fillTo (need : ℕ) :
    (iter.fillTo need).2.saveFile = iter.saveFile := by
  rw [fillTo]
  split
  · rfl
  · exact saveFile_fillFrom ..

/-- As many bytes as a frame declares are that frame. -/
theorem take_frame {bytes : List UInt8}
    (h : 2 + bodyLen bytes ≤ bytes.length) :
    ∃ f rest, f.length < 2 ^ 16 ∧ bytes = frameBytes f ++ rest ∧
      bodyLen bytes = f.length := by
  obtain ⟨frames, tail, hd⟩ := Decomposition.exists bytes
  cases frames with
  | nil =>
    obtain rfl : bytes = tail := hd.bytes
    exact absurd (length_tail_lt hd.rest) (not_lt.mpr h)
  | cons f frames =>
    have hsmall := hd.small f List.mem_cons_self
    have hbytes := hd.bytes
    rw [List.map_cons, List.flatten_cons, List.append_assoc] at hbytes
    refine ⟨f, _, hsmall, hbytes, ?_⟩
    rw [hbytes, frameBytes, List.append_assoc]
    exact bodyLen_encodeBE hsmall

/-- The rest of a pass, from the parsed message on. -/
theorem saves_deliver {typeByte : UInt8} {outside : Bool}
    (hsmall : f.length < 2 ^ 16) (htype : f ≠ [] → typeByte = f.headD 0) :
    Saves iter (iter.deliver typeByte (decodable f) (frameBytes f) outside).iter
      (iter.deliver typeByte (decodable f) (frameBytes f) outside).result := by
  cases hstop : isStop typeByte (decodable f) with
  | error e =>
    rw [deliver_error hstop]
    unfold isStop at hstop
    split at hstop
    · split at hstop
      · cases hstop
        trivial
      · cases hstop
      · cases hstop
        exact ⟨rfl, rfl, rfl⟩
    · cases hstop
  | ok stop =>
    by_cases hkept : typeByte ∈ iter.filter
    · rw [deliver_kept hstop hkept]
      cases hm : decodable f with
      | none => trivial
      | some m =>
        have hf : f ≠ [] := by
          rintro rfl
          cases hm
        obtain rfl := htype hf
        rw [hm, isStop_of_decodable hm] at hstop
        refine ⟨rfl, ?_, ?_, f, hsmall, hm, rfl⟩
        · rw [Except.ok.inj hstop]
        · rwa [messageType_of_decodable hm]
    · rw [deliver_dropped hstop hkept]
      cases stop <;> exact ⟨rfl, rfl, rfl⟩

theorem saves_visit {rest : List UInt8} (hsmall : f.length < 2 ^ 16)
    (hpending : iter.pending = frameBytes f ++ rest)
    (hlen : 2 + f.length ≤ iter.buffer.length - iter.offset) :
    Saves iter (iter.visit (2 + f.length)).iter
      (iter.visit (2 + f.length)).result := by
  have htype (hf : f ≠ []) :
      iter.buffer.getD (iter.offset + FRAME_HEADER_LEN) 0 = f.headD 0 := by
    have hpos := List.length_pos_of_ne_nil hf
    rw [FRAME_HEADER_LEN, getD_buffer (by omega), hpending]
    cases f with
    | nil => exact absurd rfl hf
    | cons c cs => rfl
  have hframe : (iter.buffer.drop iter.offset).take (2 + f.length) =
      frameBytes f := by
    rw [take_buffer hlen, hpending, ← length_frameBytes, List.take_left]
  have hmessages : (Parser.parse {} (frameBytes f)).messages.getLast? =
      decodable f := by
    rw [messages_parse_frame {} hsmall]
    cases decodable f <;> rfl
  rw [visit]
  dsimp only
  rw [hframe, hmessages]
  split
  · exact ⟨rfl, rfl, rfl⟩
  · split
    · exact ⟨rfl, rfl, rfl⟩
    · exact @saves_deliver { iter with offset := iter.offset + (2 + f.length) }
        f _ _ hsmall htype

theorem Saves.of_same {iter'' : MessageIterator} {result : Option Result}
    (hfilter : iter'.filter = iter.filter)
    (hstopped : iter'.stopped = iter.stopped)
    (hsaveFile : iter'.saveFile = iter.saveFile)
    (h : Saves iter' iter'' result) : Saves iter iter'' result := by
  unfold Saves at h ⊢
  rwa [hfilter, hstopped, hsaveFile] at h

theorem saves_pass (iter : MessageIterator) :
    Saves iter iter.pass.iter iter.pass.result := by
  have hsaveFile {need : ℕ} {iter iter' : MessageIterator} {ok : Bool}
      (hfill : iter.fillTo need = (ok, iter')) :
      iter'.saveFile = iter.saveFile := by
    rw [← @saveFile_fillTo iter need, hfill]
  rw [pass]
  split
  · exact ⟨rfl, rfl, rfl⟩
  obtain ⟨ok, iter₁, hfill, hrefills, hok, -⟩ :=
    iter.fillTo_spec FRAME_HEADER_LEN
  rw [hfill]
  cases ok with
  | false => exact ⟨hrefills.filter, hrefills.stopped, hsaveFile hfill⟩
  | true =>
    have hlen : 2 ≤ iter₁.buffer.length - iter₁.offset := hok rfl
    have hhigh := getD_buffer (lt_of_lt_of_le Nat.zero_lt_two hlen)
    have hlow := getD_buffer (lt_of_lt_of_le Nat.one_lt_two hlen)
    rw [Nat.add_zero] at hhigh
    obtain ⟨ok', iter₂, hfill', hrefills', hok', -⟩ :=
      iter₁.fillTo_spec (2 + bodyLen iter₁.pending)
    dsimp only
    rw [hhigh, hlow, FRAME_HEADER_LEN, ← bodyLen, hfill']
    apply Saves.of_same hrefills.filter hrefills.stopped (hsaveFile hfill)
    cases ok' with
    | false => exact ⟨hrefills'.filter, hrefills'.stopped, hsaveFile hfill'⟩
    | true =>
      apply Saves.of_same hrefills'.filter hrefills'.stopped (hsaveFile hfill')
      have hlen' := hok' rfl
      rw [← hrefills'.pending] at hlen' ⊢
      obtain ⟨f, rest, hsmall, hpending, hlength⟩ :=
        take_frame (hlen'.trans (by rw [length_pending]; omega))
      rw [hlength] at hlen' ⊢
      exact saves_visit hsmall hpending hlen'

theorem saves_next (iter : MessageIterator) :
    Saves iter iter.next.2 (some iter.next.1.result) := by
  induction hn : iter.pending.length using Nat.strong_induction_on
    generalizing iter with
  | _ n ih =>
    subst hn
    have hpass := saves_pass iter
    rcases heq : iter.pass with ⟨_ | result, outside, iter'⟩
    · have hless := @pass_none iter (by rw [heq])
      rw [heq] at hpass hless
      rw [next_of_none heq]
      obtain ⟨hfilter, hstopped, hsaveFile⟩ := hpass
      exact Saves.of_same hfilter hstopped hsaveFile (ih _ hless iter' rfl)
    · rw [heq] at hpass
      rw [next_of_result heq]
      exact hpass

/-- A stopped iterator returns nothing. -/
theorem not_stopped_of_next (h : iter.next.1.result = .message m) :
    iter.stopped = false := by
  by_contra hnot
  have hpass : iter.pass = ⟨some .stopIteration, false, iter⟩ :=
    if_pos (by simpa using hnot)
  rw [next_of_result hpass] at h
  cases h

end MessageIterator

/-! ## §2  Any number of calls -/

/-- A call of `__next__`, with its result. -/
def step (iter : MessageIterator) (_ : Unit) : MessageIterator × List Result :=
  (iter.next.2, [iter.next.1.result])

def returnedMessages (results : List Result) : List Message :=
  results.filterMap fun
    | .message m => some m
    | _ => none

/-- The frames of the messages have been written, in order. -/
structure Saved (filter : List UInt8) (iter : MessageIterator)
    (messages : List Message) (frames : List (List UInt8)) : Prop where
  sameFilter : iter.filter = filter
  stopped : iter.stopped = messages.any stops
  ends : untilEnd messages = messages
  kept : ∀ m ∈ messages, m.header.messageType ∈ filter
  decoded : List.Forall₂
    (fun f m => f.length < 2 ^ 16 ∧ decodable f = some m) frames messages
  saveFile : iter.saveFile = some (frames.map frameBytes).flatten

variable {filter : List UInt8} {iter : MessageIterator} {m : Message}
  {messages : List Message} {frames : List (List UInt8)}

theorem untilEnd_concat (h : messages.any stops = false) (m : Message) :
    untilEnd (messages ++ [m]) = messages ++ [m] := by
  induction messages with
  | nil => exact ite_self _
  | cons m' messages ih =>
    obtain ⟨hm', hmessages⟩ := Bool.or_eq_false_iff.mp h
    rw [List.cons_append, untilEnd, hm', ih hmessages]
    rfl

theorem Saved.next (h : Saved filter iter messages frames)
    (hdefined : iter.next.1.result ≠ .emptyResult) :
    ∃ frames', Saved filter iter.next.2
      (messages ++ returnedMessages [iter.next.1.result]) frames' := by
  have hsaves := saves_next iter
  cases hresult : iter.next.1.result with
  | message m =>
    rw [hresult] at hsaves
    obtain ⟨hfilter, hstopped, hkept, f, hsmall, hdecodable, hsaveFile⟩ :=
      hsaves
    have hgoes : messages.any stops = false := by
      rw [← h.stopped]
      exact not_stopped_of_next hresult
    have hdecoded := List.rel_append h.decoded
      (.cons ⟨hsmall, hdecodable⟩ .nil)
    refine ⟨frames ++ [f], hfilter.trans h.sameFilter, ?_,
      untilEnd_concat hgoes m, ?_, hdecoded, ?_⟩
    · rw [hstopped, h.stopped]
      simp [returnedMessages]
    · intro m' hm'
      rcases List.mem_append.mp hm' with hm' | hm'
      · exact h.kept m' hm'
      · obtain rfl := List.mem_singleton.mp hm'
        rwa [h.sameFilter] at hkept
    · rw [hsaveFile, h.saveFile, List.map_append, List.flatten_append]
      simp
  | emptyResult => exact absurd hresult hdefined
  | stopIteration | valueError | runtimeError | badVariantAccess =>
    rw [hresult] at hsaves
    obtain ⟨hfilter, hstopped, hsaveFile⟩ := hsaves
    refine ⟨frames, ?_⟩
    show Saved _ _ (messages ++ []) _
    rw [List.append_nil]
    exact ⟨hfilter.trans h.sameFilter, hstopped.trans h.stopped, h.ends, h.kept,
      h.decoded, hsaveFile.trans h.saveFile⟩

theorem saved_run (h : Saved filter iter [] []) (n : ℕ) :
    .emptyResult ∉ (run step iter (List.replicate n ())).2 →
      ∃ frames, Saved filter (run step iter (List.replicate n ())).1
        (returnedMessages (run step iter (List.replicate n ())).2) frames := by
  refine @run_history _ _ _ step (fun iter results =>
    .emptyResult ∉ results →
      ∃ frames, Saved filter iter (returnedMessages results) frames)
    ?_ iter (fun _ => ⟨[], h⟩) (List.replicate n ())
  intro iter results _ ih hdefined
  rw [step, List.mem_append, List.mem_singleton, not_or] at hdefined
  obtain ⟨frames, hsaved⟩ := ih hdefined.1
  rw [step, returnedMessages, List.filterMap_append]
  exact hsaved.next fun h => hdefined.2 h.symm

/-! ## §3  Reading it back -/

/-- The bytes that have been written. -/
def bytesOf (frames : List (List UInt8)) : List UInt8 :=
  (frames.map frameBytes).flatten

theorem ne_nil_of_decodable {f : List UInt8} (h : decodable f = some m) :
    f ≠ [] := by
  rintro rfl
  cases h

section Decoded

variable (h : List.Forall₂
  (fun f m => f.length < 2 ^ 16 ∧ decodable f = some m) frames messages)

include h

theorem mem_decoded {f : List UInt8} (hf : f ∈ frames) :
    ∃ m, f.length < 2 ^ 16 ∧ decodable f = some m := by
  induction h with
  | nil => cases hf
  | @cons _ m _ _ hfirst _ ih =>
    rcases List.mem_cons.mp hf with rfl | hf
    · exact ⟨m, hfirst⟩
    · exact ih hf

theorem decomposition_decoded :
    Decomposition (bytesOf frames) frames [] := by
  refine ⟨fun f hf => ?_, (List.append_nil _).symm, .empty⟩
  obtain ⟨m, hsmall, -⟩ := mem_decoded h hf
  exact hsmall

theorem filterMap_decoded : frames.filterMap decodable = messages := by
  induction h with
  | nil => rfl
  | cons hf _ ih => rw [List.filterMap_cons_some hf.2, ih]

theorem frameEvents_decoded :
    List.Forall₂ FrameEvent (frames.filter (· ≠ []))
      (messages.map .message) := by
  have hne : frames.filter (· ≠ []) = frames := by
    refine List.filter_eq_self.mpr fun f hf => decide_eq_true ?_
    obtain ⟨m, -, hm⟩ := mem_decoded h hf
    exact ne_nil_of_decodable hm
  rw [hne, List.forall₂_map_right_iff]
  exact h.imp fun _ _ hf => decodable_eq_some_iff.mp hf.2

theorem clean_decoded : Clean false filter frames := by
  induction h with
  | nil => trivial
  | cons hf _ ih =>
    have hne := ne_nil_of_decodable hf.2
    cases decodable_eq_some_iff.mp hf.2 with
    | message htype hsize hdecode =>
      rw [clean_cons hne htype]
      refine ⟨fun _ => hsize, ?_⟩
      split
      · rintro - hforever
        cases hforever
      · exact ih

end Decoded

theorem Saved.expected_bytesOf (h : Saved filter iter messages frames) :
    expected filter (bytesOf frames) = (messages, .stopIteration) := by
  obtain ⟨events, hevents, hexpected⟩ := expected_eq filter
    (decomposition_decoded h.decoded)
  have hsame : events = messages.map .message :=
    List.right_unique_forall₂' FrameEvent.rightUnique hevents
      (frameEvents_decoded h.decoded)
  have hkept : messages.filter (·.header.messageType ∈ filter) = messages :=
    List.filter_eq_self.mpr fun m hm => decide_eq_true (h.kept m hm)
  rw [hexpected, hsame, tailEvents, if_pos rfl, List.append_nil,
    iterated_messages, h.ends, hkept]

/-- **What is saved is what was returned.** After any number of calls, and
wherever they have stopped, the file holds a stream of whole frames that the
parser decodes into the messages returned so far; and an iteration over it with
the same filter returns these again. -/
theorem saved_rereads (filter : List UInt8) (source : Source) (n : ℕ) :
    let (iter, results) := run step
      { source.iterator filter with saveFile := some [] }
      (List.replicate n ())
    .emptyResult ∉ results →
      ∃ saved, iter.saveFile = some saved ∧
        (Parser.parse {} saved).messages = returnedMessages results ∧
        (Parser.parse {} saved).2.2 = none ∧
        ∀ copy : Source, copy.Readable → copy.data = saved →
          parseMessages filter copy =
            ⟨returnedMessages results, none, false⟩ := by
  intro hdefined
  have hstart : Saved filter
      { source.iterator filter with saveFile := some [] } [] [] := by
    cases source <;> exact ⟨rfl, rfl, rfl, by simp, .nil, rfl⟩
  obtain ⟨frames, hsaved⟩ := saved_run hstart n hdefined
  have hd := decomposition_decoded hsaved.decoded
  obtain ⟨events, -, hparse⟩ := Parser.parseImpl_decomposition {} hd
  refine ⟨bytesOf frames, hsaved.saveFile, ?_, ?_, ?_⟩
  · rw [messages_parse {} hd, filterMap_decoded hsaved.decoded]
  · rw [Parser.parse_eq hparse]
    rfl
  · rintro copy hreadable hdata
    rw [← hdata] at hd
    have hexpected := hsaved.expected_bytesOf
    rw [← hdata] at hexpected
    exact (parseMessages_iff_clean hreadable hd hexpected).mpr
      (clean_decoded hsaved.decoded)

theorem results_run (iter : MessageIterator) (n : ℕ) :
    (run step iter (List.replicate n ())).2 =
      (List.range n).map fun i => (iter.calls i).result := by
  induction n generalizing iter with
  | zero => rfl
  | succ n ih =>
    rw [List.replicate_succ, run_cons, ih, List.range_succ_eq_map,
      List.map_cons, List.map_map]
    rfl

/-- One of three messages is saved; the second call ends the iteration. -/
theorem saved_rereads_threeMessages :
    ∃ saved, (run step
        { buffer := (threeMessages.map encodeFrame).flatten
          filter := ['D'.toUInt8], saveFile := some [] }
        [(), ()]).1.saveFile = some saved ∧
      (Parser.parse {} saved).messages =
        [.orderDelete { orderReferenceNumber := 7 }] := by
  have hexpected : expected ['D'.toUInt8]
      (threeMessages.map encodeFrame).flatten =
        ([.orderDelete { orderReferenceNumber := 7 }], .stopIteration) :=
    (expected_encodeFrames _ packable_threeMessages).trans rfl
  have hfollows := (follows_expected_iff
    (decomposition_encodeFrames threeMessages) (.stream (some []))).mpr
      (@clean_packable ['D'.toUInt8] _ packable_threeMessages)
  rw [hexpected] at hfollows
  have hresults := results_run
    { buffer := (threeMessages.map encodeFrame).flatten
      filter := ['D'.toUInt8], saveFile := some [] } 2
  rw [List.range_succ, List.range_succ, List.range_zero, List.nil_append,
    List.map_append, List.map_singleton, List.map_singleton,
    hfollows 0 (.inr (by decide)), hfollows 1 (.inr (by decide))] at hresults
  obtain ⟨saved, hsaved, hmessages, -⟩ := saved_rereads ['D'.toUInt8]
    (.buffer (threeMessages.map encodeFrame).flatten) 2 (by
      change Result.emptyResult ∉ (run step _ (List.replicate 2 ())).2
      rw [Source.iterator, hresults]
      simp [resultOf])
  refine ⟨saved, hsaved, hmessages.trans ?_⟩
  change returnedMessages (run step _ (List.replicate 2 ())).2 = _
  rw [Source.iterator, hresults]
  rfl

end Itch.Python
