import Itch.Book.BookManagerRefinement
import Itch.Transport.Captures
import Itch.Transport.Delivery

/-!
# Books from a capture

A `PcapReader` calls the `process` of a `BookManager` with what it reads. §1 is
about a session that a capture certifies, §2 about the books made of it.
-/

namespace Itch.Transport.PcapReader

open Transducer MoldUdp64Decoder

/-! ## §1  Certified captures -/

/-- The decoder of a reader, with its calls, as after a run of its own. -/
def molded (result : PcapReader × List PcapEvent) :
    MoldUdp64Decoder × List MoldUdp64Event :=
  (result.1.mold, result.2.filterMap PcapEvent.mold?)

variable {r : PcapReader} {xs : List Datagram} {requester : Bool}
  {result : PcapReader × List PcapEvent} {sent : Str → ℕ → Message}
  {session : Str}

theorem Delivers.molded (h : r.Delivers xs result)
    (hr : r.mold = fresh true requester) :
    PcapReader.molded result =
      run step (fresh true requester) (xs.map Datagram.bytes) := by
  rw [← hr]
  exact Prod.ext h.receives.mold h.receives.calls

/-- If the datagrams of one session are in order, they hold its messages from
the first number on. -/
theorem messages_of_inOrder
    (hxs : ∀ x ∈ xs, x.Sendable ∧ x.CutFrom sent)
    (hsession : ∀ x ∈ xs, x.header.sessionView = session)
    (horder : InOrder xs) :
    xs.flatMap Datagram.messages =
      (List.range' ((Frontier.anchor (spans xs) session).getD 0)
        (Frontier.extent (spans xs) session)).map (sent session) := by
  have hall : (xs.filter fun x => x.header.sessionView = session) = xs :=
    List.filter_eq_self.mpr fun x hx => decide_eq_true (hsession x hx)
  rw [← Frontier.Consecutive.ranges horder, ← messages_ofKey hxs, hall]

end Itch.Transport.PcapReader

namespace Itch.Book

open Transducer Transport MoldUdp64Decoder

/-! ## §2  Books -/

/-- The calls of a manager that is set up, and then given messages. -/
def feed (setup : List ManagerCall) (messages : List Message) :
    List ManagerCall :=
  setup ++ messages.map .process

/-- The messages of a session from `first` up to `expected`. -/
def numbered (sent : ℕ → Message) (first expected : ℕ) : List Message :=
  (List.range' first (expected - first)).map sent

/-- **A certified capture gives the true books.** Datagrams of a session are
lost, repeated and reordered, and then captured with UDP packets for ports that
the filter refuses. The reader reports no gap and has seen as many messages as
it decoded if and only if they came in order; and then the manager that it
calls puts out and answers what a plain one does that was given the messages of
the session as they were sent, from the first number observed up to the one
expected next. -/
theorem certified_books (sent : Str → ℕ → Message) (session : Str)
    (setup : List ManagerCall) (r : PcapReader) (requester : Bool)
    (hr : r.mold = fresh true requester) (f : ClassicFile) (cs : List Captured)
    (hframes : f.records.map Record.frame = cs.map fun c => c.packet.frame)
    (hcs : ∀ c ∈ cs, c.packet.link.linkType.toUInt32 = f.network ∧
      c.Carries r.portFilter)
    (hsent : ∀ x ∈ cs.filterMap Captured.datagram,
      x.CutFrom sent ∧ x.header.sessionView = session)
    (hvolume : ((cs.filterMap Captured.datagram).flatMap
      Datagram.messages).length < 2 ^ 64) :
    ∃ result, r.read f.bytes = some (result.1, result.2, true) ∧
      (Certified (PcapReader.molded result) ↔
        InOrder (cs.filterMap Captured.datagram)) ∧
      ∀ first expected, Certified (PcapReader.molded result) →
        Frontier.anchor (spans (cs.filterMap Captured.datagram)) session =
          some first →
        result.1.mold.tracker.expectedNext session = some expected →
        (∀ pre, pre <+: feed setup
            (numbered (sent session) first expected.toNat) →
          (run PlainManager.call {} pre).1.Room) →
        List.Forall₂ BookEvent.Observes
            (run BookManager.call {}
              (feed setup (PcapReader.messagesOf result.2))).2
            (run PlainManager.call {} (feed setup
              (numbered (sent session) first expected.toNat))).2 ∧
          (run BookManager.call {}
              (feed setup (PcapReader.messagesOf result.2))).1.Answers
            (run PlainManager.call {} (feed setup
              (numbered (sent session) first expected.toNat))).1 := by
  have hcallback : r.mold.callback = true := by
    rw [hr]
    rfl
  obtain ⟨result, hread, hdelivers⟩ :=
    PcapReader.read_classic hcallback hframes hcs
  have hxs : ∀ x ∈ cs.filterMap Captured.datagram,
      x.Sendable ∧ x.CutFrom sent := fun x hx =>
    ⟨PcapReader.sendable_datagrams (fun c hc => (hcs c hc).2) x hx,
      (hsent x hx).1⟩
  have hmolded := hdelivers.molded hr
  have hcertified : Certified (PcapReader.molded result) ↔
      InOrder (cs.filterMap Captured.datagram) := by
    rw [hmolded]
    exact certified_iff requester hxs hvolume
  refine ⟨result, hread, hcertified, ?_⟩
  intro first expected h hfirst hexpected hroom
  have hmessages : PcapReader.messagesOf result.2 =
      numbered (sent session) first expected.toNat := by
    have hnext := expectedNext_run true requester hxs session
    rw [← hmolded, show (PcapReader.molded result).1.tracker.expectedNext
      session = some expected from hexpected] at hnext
    have hextent := Frontier.anchor_add_extent hfirst hnext.symm
    rw [hdelivers.messages, numbered, ← hextent, Nat.add_sub_cancel_left]
    have hrange := PcapReader.messages_of_inOrder hxs
      (fun x hx => (hsent x hx).2) (hcertified.mp h)
    rwa [hfirst] at hrange
  rw [hmessages]
  obtain ⟨hfollows, houts⟩ := follows_run {} _ hroom
  exact ⟨houts, hfollows.answers⟩

/-- An order and an execution of it. -/
def orderDatagram : Datagram := .data default 1 (BookManager.oneOrder.take 2)

def orderSent (_ : Str) (n : ℕ) : Message :=
  BookManager.oneOrder.getD (n - 1) (.systemEvent {})

def orderPacket : Packet :=
  PcapReader.rawPacket 26400 orderDatagram.bytes (by decide)

def orderCapture : List Captured :=
  [{ packet := orderPacket, datagram := some orderDatagram }]

def orderFile : ClassicFile where
  order := .little
  unit := .micro
  network := 101
  records := [{ frame := orderPacket.frame, small := by decide }]

theorem carries_orderCapture : ∀ c ∈ orderCapture,
    c.packet.link.linkType.toUInt32 = orderFile.network ∧ c.Carries none := by
  intro c hc
  obtain rfl := List.mem_singleton.mp hc
  refine ⟨rfl, ⟨by decide, fun m hm => ?_⟩, rfl, rfl⟩
  rw [orderDatagram, Datagram.messages, BookManager.oneOrder] at hm
  simp only [List.take_succ_cons, List.take_zero, List.mem_cons,
    List.not_mem_nil, or_false] at hm
  rcases hm with rfl | rfl <;> exact ⟨rfl, by decide⟩

theorem sent_orderCapture : ∀ x ∈ orderCapture.filterMap Captured.datagram,
    x.CutFrom orderSent ∧ x.header.sessionView = [] := by
  intro x hx
  obtain rfl := List.mem_singleton.mp hx
  exact ⟨⟨by decide, rfl⟩, rfl⟩

/-- What is left of the order is in the book. -/
theorem certified_books_orderFile :
    ∃ (result : PcapReader × List PcapEvent) (b : L3Book),
      ({ mold := fresh true false } : PcapReader).read orderFile.bytes =
        some (result.1, result.2, true) ∧
      (run BookManager.call {} (feed [.trackSymbol [73, 84, 67, 72]]
        (PcapReader.messagesOf result.2))).1.book 3 = some b ∧
      b.bbo.bidShares = 60 := by
  obtain ⟨result, hread, hcertified, hbooks⟩ := certified_books orderSent []
    [.trackSymbol [73, 84, 67, 72]] { mold := fresh true false } false rfl
    orderFile orderCapture rfl carries_orderCapture sent_orderCapture
    (by decide)
  have hexpected : result.1.mold.tracker.expectedNext [] = some 3 := by
    obtain ⟨result', hread', hdelivers⟩ := @PcapReader.read_classic
      { mold := fresh true false } rfl orderFile orderCapture rfl
      carries_orderCapture
    obtain ⟨hreader, -⟩ :=
      Prod.mk.inj (Option.some.inj (hread.symm.trans hread'))
    have hsend : ∀ x ∈ orderCapture.filterMap Captured.datagram, x.Sendable :=
      @PcapReader.sendable_datagrams {} _ fun c hc =>
        (carries_orderCapture c hc).2
    rw [hreader, hdelivers.receives.mold, run_bytes_decoder _ hsend]
    rfl
  have horder : InOrder (orderCapture.filterMap Captured.datagram) :=
    (Frontier.consecutive_iff _).mpr ⟨rfl, rfl⟩
  obtain ⟨-, hanswers⟩ := hbooks 1 3 (hcertified.mpr horder) rfl hexpected
    (room_of_length (by decide))
  have hplain : (run PlainManager.call {} (feed
      [.trackSymbol [73, 84, 67, 72]]
        (numbered (orderSent []) 1 (3 : UInt64).toNat))).1.books 3 =
      some ⟨[73, 84, 67, 72], [⟨1, .buy, 60, 20⟩]⟩ := by decide
  have hbook := hanswers.book 3
  rw [hplain] at hbook
  generalize hb : (run BookManager.call {} _).1.book 3 = b at hbook
  cases hbook with
  | @some b _ hshows =>
    refine ⟨result, b, hread, hb, ?_⟩
    rw [hshows.agrees.bbo]
    decide

end Itch.Book
