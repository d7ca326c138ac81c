import Itch.Book.BookManagerRefinement
import Itch.Python.MessageParser

/-!
# Books from bytes

The `BookManager` class of the Python module is fed with buffers of raw bytes.
§1 is about a stream of messages that is cut off anywhere, §2 about the class.
-/

namespace Itch.Python

open Book ByteCursor Transducer

/-! ## §1  Streams that are cut off -/

/-- Messages, framed one after the other. -/
def framed (messages : List Message) : List UInt8 :=
  (messages.map encodeFrame).flatten

/-- The messages whose frames are within the first `n` bytes. -/
def whole : ℕ → List Message → List Message
  | _, [] => []
  | n, m :: messages =>
      if (encodeFrame m).length ≤ n then
        m :: whole (n - (encodeFrame m).length) messages
      else []

variable {messages : List Message} {n : ℕ}

theorem encodeFrame_eq (m : Message) :
    encodeFrame m = frameBytes (encodeMessage m) :=
  StreamItem.bytes_eq (some m)

theorem small_encodeMessage (m : Message) :
    (encodeMessage m).length < 2 ^ 16 :=
  StreamItem.length_payload (some m)

/-- A frame that is cut off is a tail. -/
theorem isTail_take {payload : List UInt8} (hsmall : payload.length < 2 ^ 16)
    (hn : n < (frameBytes payload).length) :
    IsTail ((frameBytes payload).take n) := by
  rw [length_frameBytes] at hn
  match n with
  | 0 => exact .empty
  | 1 =>
    obtain ⟨b, rest, hb⟩ : ∃ b rest, frameBytes payload = b :: rest := by
      apply List.exists_cons_of_length_pos
      rw [length_frameBytes]
      omega
    rw [hb]
    exact .byte b
  | k + 2 =>
    have hlength := length_encodeBE 2 payload.length
    rw [frameBytes, List.take_append, hlength,
      List.take_of_length_le (by omega)]
    refine .short _ _ hsmall ?_
    rw [List.length_take]
    omega

theorem decomposition_take (messages : List Message) (n : ℕ) :
    ∃ tail, Decomposition ((framed messages).take n)
      ((whole n messages).map encodeMessage) tail := by
  induction messages generalizing n with
  | nil => exact ⟨[], by simp [whole], by simp [framed, whole], .empty⟩
  | cons m messages ih =>
    have hframed : framed (m :: messages) =
        encodeFrame m ++ framed messages := rfl
    rw [whole, hframed, List.take_append]
    by_cases hle : (encodeFrame m).length ≤ n
    · obtain ⟨tail, htail⟩ := ih (n - (encodeFrame m).length)
      rw [if_pos hle, List.take_of_length_le hle]
      refine ⟨tail, ?_⟩
      have hfirst : Decomposition (encodeFrame m) [encodeMessage m] [] := by
        rw [encodeFrame_eq]
        exact .frame (small_encodeMessage m)
      exact hfirst.append htail
    · rw [if_neg hle, Nat.sub_eq_zero_of_le (Nat.le_of_not_le hle),
        List.take_zero, List.append_nil]
      refine ⟨_, by simp, rfl, ?_⟩
      rw [encodeFrame_eq] at hle ⊢
      exact isTail_take (small_encodeMessage m) (Nat.lt_of_not_le hle)

theorem packable_whole (h : Packable messages) (n : ℕ) :
    Packable (whole n messages) := by
  induction messages generalizing n with
  | nil => exact h
  | cons m messages ih =>
    obtain ⟨hm, hmessages⟩ := List.forall_mem_cons.mp h
    rw [whole]
    split
    · exact List.forall_mem_cons.mpr ⟨hm, ih hmessages _⟩
    · intro m' hm'
      cases hm'

theorem filterMap_decodable (h : Packable messages) :
    (messages.map encodeMessage).filterMap decodable = messages := by
  rw [List.filterMap_map]
  refine (List.filterMap_congr fun m hm => ?_).trans List.filterMap_some
  obtain ⟨hown, htime⟩ := h m hm
  exact decodable_eq_some_iff.mpr (frameEvent_encodeMessage m hown htime).2

/-- The messages that are whole are delivered, and the parser throws if there
is a part of another one. -/
theorem parse_take (h : Packable messages) (n : ℕ) :
    (Parser.parse {} ((framed messages).take n)).messages =
        whole n messages ∧
      (Parser.parse {} ((framed messages).take n)).2.2 =
        if (framed messages).take n = framed (whole n messages) then none
        else some .truncated := by
  obtain ⟨tail, hd⟩ := decomposition_take messages n
  obtain ⟨events, -, hparse⟩ := Parser.parseImpl_decomposition {} hd
  refine ⟨?_, ?_⟩
  · rw [Overlay.messages_parse {} hd, filterMap_decodable (packable_whole h n)]
  · have hframed : ((whole n messages).map encodeMessage).map frameBytes =
        (whole n messages).map encodeFrame := by
      rw [List.map_map]
      exact List.map_congr_left fun m _ => (encodeFrame_eq m).symm
    rw [Parser.parse_eq hparse, hd.bytes, hframed, ← framed]
    simp only [List.append_right_eq_self]
    rfl

/-! ## §2  The class -/

/-- The calls that change an object of the class. -/
inductive BookManagerCall where
  | trackSymbol (symbol : Str)
  | processStream (rawBinaryData : List UInt8)

/-- Every buffer has a parser of its own; what this throws is thrown after the
messages before it have been processed. -/
def processStream (m : BookManager) (rawBinaryData : List UInt8) :
    BookManager × Option ParseError :=
  let outcome := Parser.parse {} rawBinaryData
  ((run BookManager.process m outcome.messages).1, outcome.2.2)

/-- A call, and what it throws. -/
def call (m : BookManager) :
    BookManagerCall → BookManager × List (Option ParseError)
  | .trackSymbol symbol => (m.trackSymbol symbol, [none])
  | .processStream rawBinaryData =>
      let (m, thrown) := processStream m rawBinaryData
      (m, [thrown])

/-- The calls on the manager behind the object. -/
def BookManagerCall.steps : BookManagerCall → List ManagerCall
  | .trackSymbol symbol => [.trackSymbol symbol]
  | .processStream rawBinaryData =>
      (Parser.parse {} rawBinaryData).messages.map .process

theorem run_process (m : BookManager) (messages : List Message) :
    (run BookManager.process m messages).1 =
      (run BookManager.call m (messages.map .process)).1 := by
  induction messages generalizing m with
  | nil => rfl
  | cons msg messages ih => exact ih _

theorem run_steps (m : BookManager) (calls : List BookManagerCall) :
    (run call m calls).1 =
      (run BookManager.call m (calls.flatMap BookManagerCall.steps)).1 := by
  induction calls generalizing m with
  | nil => rfl
  | cons c calls ih =>
    rw [run_cons, List.flatMap_cons, run_append]
    cases c with
    | trackSymbol symbol => exact ih _
    | processStream rawBinaryData =>
      show (run call (run BookManager.process m _).1 calls).1 = _
      rw [run_process]
      exact ih _

/-- Messages in a buffer that may be cut off after some bytes. -/
structure Recording where
  messages : List Message
  length : ℕ
  packable : Packable messages

namespace Recording

def bytes (r : Recording) : List UInt8 := (framed r.messages).take r.length

/-- The messages that are in the buffer as a whole. -/
def complete (r : Recording) : List Message := whole r.length r.messages

/-- What is thrown at the end of the buffer. -/
def thrown (r : Recording) : Option ParseError :=
  if r.bytes = framed r.complete then none else some .truncated

end Recording

/-- What is done with an object of the class. -/
inductive ManagerUse where
  | trackSymbol (symbol : Str)
  | processRecording (recording : Recording)

namespace ManagerUse

def call : ManagerUse → BookManagerCall
  | trackSymbol symbol => .trackSymbol symbol
  | processRecording recording => .processStream recording.bytes

def thrown : ManagerUse → Option ParseError
  | trackSymbol _ => none
  | processRecording recording => recording.thrown

/-- The same for a plain manager, message by message. -/
def plain : ManagerUse → List ManagerCall
  | trackSymbol symbol => [.trackSymbol symbol]
  | processRecording recording => recording.complete.map .process

theorem steps_call (u : ManagerUse) : u.call.steps = u.plain := by
  cases u with
  | trackSymbol symbol => rfl
  | processRecording recording =>
    exact congrArg (List.map ManagerCall.process)
      (parse_take recording.packable recording.length).1

theorem call_thrown (m : BookManager) (u : ManagerUse) :
    (Python.call m u.call).2 = [u.thrown] := by
  cases u with
  | trackSymbol symbol => rfl
  | processRecording recording =>
    exact congrArg (fun thrown => [thrown])
      (parse_take recording.packable recording.length).2

end ManagerUse

theorem run_thrown (m : BookManager) (uses : List ManagerUse) :
    (run call m (uses.map ManagerUse.call)).2 = uses.map ManagerUse.thrown := by
  induction uses generalizing m with
  | nil => rfl
  | cons u uses ih =>
    rw [List.map_cons, run_cons, ih, u.call_thrown]
    rfl

/-- **Books from bytes.** However messages are put into buffers, whole or cut
off, and whatever symbols are tracked from when on, the object throws for the
buffers that end within a frame, and its queries answer as a plain manager does
that was given the whole messages one by one. -/
theorem answers_fromBytes (uses : List ManagerUse)
    (hroom : ∀ pre, pre <+: uses.flatMap ManagerUse.plain →
      (run PlainManager.call {} pre).1.Room) :
    (run call {} (uses.map ManagerUse.call)).2 =
        uses.map ManagerUse.thrown ∧
      (run call {} (uses.map ManagerUse.call)).1.Answers
        (run PlainManager.call {} (uses.flatMap ManagerUse.plain)).1 := by
  refine ⟨run_thrown {} uses, ?_⟩
  have hsteps : (uses.map ManagerUse.call).flatMap BookManagerCall.steps =
      uses.flatMap ManagerUse.plain := by
    rw [List.flatMap_map]
    exact List.flatMap_congr fun u _ => u.steps_call
  rw [run_steps, hsteps]
  exact (follows_run {} _ hroom).1.answers

theorem packable_oneOrder : Packable (BookManager.oneOrder.take 2) := by
  intro m hm
  rw [BookManager.oneOrder] at hm
  simp only [List.take_succ_cons, List.take_zero, List.mem_cons,
    List.not_mem_nil, or_false] at hm
  rcases hm with rfl | rfl <;> exact ⟨by rfl, by decide⟩

/-- An order that is added, and a message that is cut off. -/
def cutRecording : Recording where
  messages := BookManager.oneOrder.take 2
  length := 40
  packable := packable_oneOrder

/-- The buffer throws, and its order is in the book. -/
theorem answers_fromBytes_cutRecording :
    (run call {} [.trackSymbol [73, 84, 67, 72],
        .processStream cutRecording.bytes]).2 = [none, some .truncated] ∧
      ∃ b, (run call {} [.trackSymbol [73, 84, 67, 72],
          .processStream cutRecording.bytes]).1.book 3 = some b ∧
        b.symbol = [73, 84, 67, 72] ∧ b.bbo.bidShares = 100 := by
  obtain ⟨hthrown, hanswers⟩ := answers_fromBytes
    [.trackSymbol [73, 84, 67, 72], .processRecording cutRecording]
    (room_of_length (by decide))
  refine ⟨hthrown.trans (by decide), ?_⟩
  have hplain : (run PlainManager.call {} ([ManagerUse.trackSymbol
      [73, 84, 67, 72], .processRecording cutRecording].flatMap
        ManagerUse.plain)).1.books 3 =
      some ⟨[73, 84, 67, 72], [⟨1, .buy, 100, 20⟩]⟩ := by decide
  have hbook := hanswers.book 3
  rw [hplain] at hbook
  generalize hb : (run call {} _).1.book 3 = b at hbook
  cases hbook with
  | @some b _ hshows =>
    refine ⟨b, hb, hshows.symbol, ?_⟩
    rw [hshows.agrees.bbo]
    decide

end Itch.Python
