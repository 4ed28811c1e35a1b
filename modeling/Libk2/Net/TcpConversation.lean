import Libk2.Foundation.StepSystem
import Libk2.Net.TcpTransfer

/-!
# Messages over a connection

One end writes messages with `write_all`, one after another, and the other end reads them with
`read_all`, into buffers of the same lengths. In between is a reliable stream: `send` puts bytes on
the wire, and `recv` takes bytes off it. A step is one call of either, and its label is the number
of bytes that the call moves, which is any number the system may choose.

Both ends go through the same list of messages, so what an end has done is a position in the stream
of all their bytes. The invariant (`Inv`) says that what was sent, received and stored is that
stream up to the position of its end.
-/

namespace Libk2

open RoundLoop StepSystem

/-! ### The two ends -/

/-- A message, and the address of the buffer that it is read into. -/
structure Message where
  bytes : List UInt8
  buf : ℕ
deriving DecidableEq

namespace Message

/-- The bytes into the buffer. -/
def stores (msg : Message) : List (ℕ × UInt8) := ByteMemory.byteStores msg.buf msg.bytes

theorem length_stores (msg : Message) : msg.stores.length = msg.bytes.length :=
  ByteMemory.length_byteStores msg.buf msg.bytes

end Message

/-- One end: the messages whose calls have ended, and how, and those that are left. `bytesDone` is
that of the call for the first of these. -/
structure Endpoint where
  finished : List Message
  ends : List CallEnd
  pending : List Message
  bytesDone : ℕ
deriving DecidableEq

namespace Endpoint

/-- Take over what a round of the current call has come to. -/
def advance {σ : Type*} (e : Endpoint) : Progress (ℕ × σ) CallEnd → Endpoint
  | .more (bytesDone, _) => { e with bytesDone }
  | .ended _ how =>
    ⟨e.finished ++ e.pending.take 1, e.ends ++ [how], e.pending.drop 1, 0⟩

/-- How many bytes have gone through. -/
def position (e : Endpoint) : ℕ := (e.finished.flatMap Message.bytes).length + e.bytesDone

/-- How much is left: the bytes, and the calls. -/
def left (e : Endpoint) : ℕ :=
  (e.pending.flatMap Message.bytes).length - e.bytesDone + e.pending.length

/-- The end works through `msgs`, and its calls have returned the lengths they were given. -/
structure At (msgs : List Message) (e : Endpoint) : Prop where
  split : msgs = e.finished ++ e.pending
  ends_eq : e.ends = e.finished.map fun msg ↦ .returned msg.bytes.length
  bytesDone_lt : e.bytesDone = 0 ∨ ∃ msg ∈ e.pending.head?, e.bytesDone < msg.bytes.length

end Endpoint

/-! ### The conversation -/

/-- The two ends, the bytes on the wire, and the memory that the messages are read into. The rest is
a record: what was sent and received, where each byte was stored, and what was in each buffer when
its call returned. -/
structure Conversation where
  writer : Endpoint
  reader : Endpoint
  wire : List UInt8
  mem : ByteMemory
  sent : List UInt8
  received : List UInt8
  stores : List (ℕ × UInt8)
  delivered : List (List UInt8)

/-- A call of `send` or of `recv` that moves `count` bytes. -/
inductive Transfer
  | send (count : ℕ)
  | recv (count : ℕ)
deriving DecidableEq

/-- A call with length `n` may move `count` bytes: at most `n`, and at least one if `n` is not 0. -/
def Moves (n count : ℕ) : Prop := (n ≠ 0 → 1 ≤ count) ∧ count ≤ n

instance (n count : ℕ) : Decidable (Moves n count) := inferInstanceAs (Decidable (_ ∧ _))

theorem moves_min_one (n : ℕ) : Moves n (min 1 n) := ⟨fun _ ↦ by omega, by omega⟩

namespace Conversation

/-- Nothing is written or read yet. -/
def start (msgs : List Message) (mem : ByteMemory) : Conversation :=
  ⟨⟨[], [], msgs, 0⟩, ⟨[], [], msgs, 0⟩, [], mem, [], [], [], []⟩

/-- A round of the current `tcp_write_all` or `tcp_read_all`. -/
def step (c : Conversation) : Transfer → Option Conversation
  | .send count =>
    match c.writer.pending with
    | [] => none
    | msg :: _ =>
      if Moves (request msg.bytes.length c.writer.bytesDone) count then
        let p := tcpWriteAllRound msg.bytes msg.bytes.length (c.writer.bytesDone, []) (some count)
        some { c with
          writer := c.writer.advance p
          wire := c.wire ++ p.state.2
          sent := c.sent ++ p.state.2 }
      else none
  | .recv count =>
    match c.reader.pending with
    | [] => none
    | msg :: _ =>
      if Moves (request msg.bytes.length c.reader.bytesDone) count ∧ count ≤ c.wire.length then
        let data := c.wire.take count
        let p := tcpReadAllRound msg.buf msg.bytes.length (c.reader.bytesDone, c.mem) (some data)
        some { c with
          reader := c.reader.advance p
          wire := c.wire.drop count
          mem := p.state.2
          received := c.received ++ data
          stores := c.stores ++ ByteMemory.byteStores (msg.buf + c.reader.bytesDone) data
          delivered := c.delivered ++
            if p.outcome.isSome then [p.state.2.loadBytes msg.buf msg.bytes.length] else [] }
      else none

end Conversation

/-! ### A round -/

section Rounds

variable {bytes bytesDone count : ℕ}

/-- A round that moves `count` bytes goes on with the rest or returns the length. -/
def RoundMoves {σ : Type*} (bytes bytesDone count : ℕ) (s : σ) (p : Progress (ℕ × σ) CallEnd) :
    Prop :=
  (bytesDone + count < bytes ∧ p = .more (bytesDone + count, s)) ∨
    (bytesDone + count = bytes ∧ p = .ended (bytesDone + count, s) (.returned bytes))

theorem RoundMoves.state_eq {σ : Type*} {s : σ} {p : Progress (ℕ × σ) CallEnd}
    (h : RoundMoves bytes bytesDone count s p) : p.state = (bytesDone + count, s) := by
  rcases h with ⟨-, rfl⟩ | ⟨-, rfl⟩ <;> rfl

theorem roundMoves_write {buf sent : List UInt8} (h : bytesDone + count ≤ bytes) :
    RoundMoves bytes bytesDone count (sent ++ (buf.drop bytesDone).take count)
      (tcpWriteAllRound buf bytes (bytesDone, sent) (some count)) := by
  rcases Nat.lt_or_eq_of_le h with hlt | heq
  · exact .inl ⟨hlt, if_neg hlt.ne⟩
  · exact .inr ⟨heq, if_pos heq⟩

/-- A read of no bytes is a read of length zero, and returns it. -/
theorem roundMoves_read {buf : ℕ} {m : ByteMemory} {data : List UInt8}
    (hmoves : Moves (bytes - bytesDone) data.length) (h : bytesDone = 0 ∨ bytesDone < bytes) :
    RoundMoves bytes bytesDone data.length (m.storeBytes (buf + bytesDone) data)
      (tcpReadAllRound buf bytes (bytesDone, m) (some data)) := by
  obtain ⟨hsome, hle⟩ := hmoves
  by_cases hzero : data.length = 0
  · obtain rfl : bytes = 0 := by omega
    obtain rfl : bytesDone = 0 := by omega
    refine .inr ⟨by omega, ?_⟩
    rw [tcpReadAllRound, tcpRead]
    simp only [hzero, if_true]
  · rcases Nat.lt_or_eq_of_le (show bytesDone + data.length ≤ bytes by omega) with hlt | heq
    · exact .inl ⟨hlt, (if_neg hzero).trans (if_neg hlt.ne)⟩
    · exact .inr ⟨heq, (if_neg hzero).trans (if_pos heq)⟩

end Rounds

/-! ### Positions -/

namespace Endpoint

variable {msgs rest : List Message} {e : Endpoint} {msg : Message} {count : ℕ}

theorem at_start (msgs : List Message) : At msgs ⟨[], [], msgs, 0⟩ := ⟨rfl, rfl, .inl rfl⟩

theorem At.bytesDone_le (h : e.At msgs) (hp : e.pending = msg :: rest) :
    e.bytesDone = 0 ∨ e.bytesDone < msg.bytes.length := by
  refine h.bytesDone_lt.imp_right fun ⟨msg', hmsg', hlt⟩ ↦ ?_
  rw [hp, List.head?_cons, Option.mem_some_iff] at hmsg'
  rwa [hmsg']

theorem At.bytesDone_of_nil (h : e.At msgs) (hp : e.pending = []) : e.bytesDone = 0 := by
  refine h.bytesDone_lt.resolve_right fun ⟨msg, hmsg, _⟩ ↦ ?_
  rw [hp] at hmsg
  cases hmsg

/-- **One round** takes an end `count` bytes further. -/
theorem At.advance {σ : Type*} {s : σ} {p : Progress (ℕ × σ) CallEnd} (h : e.At msgs)
    (hp : e.pending = msg :: rest)
    (hround : RoundMoves msg.bytes.length e.bytesDone count s p) :
    (e.advance p).At msgs ∧ (e.advance p).position = e.position + count := by
  rcases hround with ⟨hlt, rfl⟩ | ⟨heq, rfl⟩
  · refine ⟨⟨h.split, h.ends_eq, .inr ⟨msg, ?_, hlt⟩⟩, (Nat.add_assoc _ _ _).symm⟩
    change msg ∈ e.pending.head?
    rw [hp]
    rfl
  · refine ⟨⟨?_, ?_, .inl rfl⟩, ?_⟩
    · rw [h.split, Endpoint.advance, List.append_assoc, List.take_append_drop]
    · simp only [Endpoint.advance, h.ends_eq, hp, List.take_one, List.head?_cons,
        Option.toList_some, List.map_append, List.map_cons, List.map_nil]
    · simp only [position, Endpoint.advance, hp, List.take_one, List.head?_cons, Option.toList_some,
        List.flatMap_append, List.flatMap_singleton, List.length_append, ← heq]
      omega

/-- A round takes away from what is left. -/
theorem left_advance_lt {σ : Type*} {s : σ} {p : Progress (ℕ × σ) CallEnd}
    (hp : e.pending = msg :: rest)
    (hround : RoundMoves msg.bytes.length e.bytesDone count s p)
    (hcount : e.bytesDone + count < msg.bytes.length → 1 ≤ count) :
    (e.advance p).left < e.left := by
  rcases hround with ⟨hlt, rfl⟩ | ⟨heq, rfl⟩
  · have := hcount hlt
    simp only [left, Endpoint.advance, hp, List.flatMap_cons, List.length_append]
    omega
  · simp only [left, Endpoint.advance, hp, List.flatMap_cons, List.length_append,
      List.drop_one, List.tail_cons, List.length_cons]
    omega

/-- What an end is about to move, in the stream of what `f` makes of the messages. -/
theorem At.drop_position {β : Type*} {f : Message → List β}
    (hf : ∀ msg, (f msg).length = msg.bytes.length) (h : e.At msgs) (hp : e.pending = msg :: rest)
    (hcount : e.bytesDone + count ≤ msg.bytes.length) :
    ((msgs.flatMap f).drop e.position).take count = ((f msg).drop e.bytesDone).take count := by
  have hfinished : (e.finished.flatMap Message.bytes).length = (e.finished.flatMap f).length := by
    simp only [List.length_flatMap, hf]
  rw [h.split, hp, List.flatMap_append, List.flatMap_cons, position, hfinished,
    List.drop_length_add_append, List.drop_append_of_le_length (by rw [hf]; omega),
    List.take_append_of_le_length (by rw [List.length_drop, hf]; omega)]

theorem At.position_le (h : e.At msgs) : e.position ≤ (msgs.flatMap Message.bytes).length := by
  rw [h.split, List.flatMap_append, List.length_append, position]
  cases hp : e.pending with
  | nil =>
    have := h.bytesDone_of_nil hp
    omega
  | cons msg rest =>
    have := h.bytesDone_le hp
    rw [List.flatMap_cons, List.length_append]
    omega

theorem At.mem (h : e.At msgs) (hp : e.pending = msg :: rest) : msg ∈ msgs := by
  simp [h.split, hp]

/-- With nothing left to do, an end is at the end of the stream. -/
theorem At.of_nil (h : e.At msgs) (hp : e.pending = []) :
    e.finished = msgs ∧ e.position = (msgs.flatMap Message.bytes).length := by
  have hfinished : e.finished = msgs := by rw [h.split, hp, List.append_nil]
  rw [position, h.bytesDone_of_nil hp, hfinished]
  exact ⟨rfl, rfl⟩

end Endpoint

/-! ### The invariant -/

namespace Conversation

variable {msgs : List Message} {mem : ByteMemory} {c c' : Conversation} {count : ℕ}

/-- Everything is the stream of the messages, up to where an end has come. -/
structure Inv (msgs : List Message) (mem : ByteMemory) (c : Conversation) : Prop where
  writer : c.writer.At msgs
  reader : c.reader.At msgs
  sent : c.sent = (msgs.flatMap Message.bytes).take c.writer.position
  received : c.received = (msgs.flatMap Message.bytes).take c.reader.position
  wire : c.received ++ c.wire = c.sent
  stores : c.stores = (msgs.flatMap Message.stores).take c.reader.position
  mem : c.mem = mem.storeAll c.stores
  current : ∀ msg ∈ c.reader.pending.head?,
    c.mem.loadBytes msg.buf c.reader.bytesDone = msg.bytes.take c.reader.bytesDone
  delivered : c.delivered = c.reader.finished.map Message.bytes

theorem inv_start (msgs : List Message) (mem : ByteMemory) : Inv msgs mem (start msgs mem) where
  writer := Endpoint.at_start msgs
  reader := Endpoint.at_start msgs
  sent := List.take_zero.symm
  received := List.take_zero.symm
  wire := rfl
  stores := List.take_zero.symm
  mem := rfl
  current _ _ := List.take_zero.symm
  delivered := rfl

/-- What a `send` does. -/
theorem step_send (hstep : c.step (.send count) = some c') : ∃ msg rest,
    c.writer.pending = msg :: rest ∧
    Moves (request msg.bytes.length c.writer.bytesDone) count ∧
    ∃ p, p = tcpWriteAllRound msg.bytes msg.bytes.length (c.writer.bytesDone, []) (some count) ∧
      c' = { c with
        writer := c.writer.advance p
        wire := c.wire ++ p.state.2
        sent := c.sent ++ p.state.2 } := by
  rw [step] at hstep
  cases hp : c.writer.pending with
  | nil => simp [hp] at hstep
  | cons msg rest =>
    simp only [hp, Option.ite_none_right_eq_some, Option.some.injEq] at hstep
    exact ⟨msg, rest, rfl, hstep.1, _, rfl, hstep.2.symm⟩

/-- What a `recv` does. -/
theorem step_recv (hstep : c.step (.recv count) = some c') : ∃ msg rest,
    c.reader.pending = msg :: rest ∧
    Moves (request msg.bytes.length c.reader.bytesDone) count ∧ count ≤ c.wire.length ∧
    ∃ p, p = tcpReadAllRound msg.buf msg.bytes.length (c.reader.bytesDone, c.mem)
        (some (c.wire.take count)) ∧
      c' = { c with
        reader := c.reader.advance p
        wire := c.wire.drop count
        mem := p.state.2
        received := c.received ++ c.wire.take count
        stores := c.stores ++
          ByteMemory.byteStores (msg.buf + c.reader.bytesDone) (c.wire.take count)
        delivered := c.delivered ++
          if p.outcome.isSome then [p.state.2.loadBytes msg.buf msg.bytes.length] else [] } := by
  rw [step] at hstep
  cases hp : c.reader.pending with
  | nil => simp [hp] at hstep
  | cons msg rest =>
    simp only [hp, Option.ite_none_right_eq_some, Option.some.injEq] at hstep
    exact ⟨msg, rest, rfl, hstep.1.1, hstep.1.2, _, rfl, hstep.2.symm⟩

/-- What is taken off the wire is what comes next in the stream. -/
theorem Inv.wire_take (h : c.Inv msgs mem) (hwire : count ≤ c.wire.length) :
    c.wire.take count = ((msgs.flatMap Message.bytes).drop c.reader.position).take count := by
  have hreceived : c.received.length = c.reader.position := by
    rw [h.received, List.length_take_of_le h.reader.position_le]
  have hstream : msgs.flatMap Message.bytes =
      c.received ++ (c.wire ++ (msgs.flatMap Message.bytes).drop c.writer.position) := by
    rw [← List.append_assoc, h.wire, h.sent, List.take_append_drop]
  rw [hstream, ← hreceived, List.drop_left, List.take_append_of_le_length hwire]

section Step

variable (hlen : ∀ msg ∈ msgs, msg.bytes.length < 2 ^ 31) (h : c.Inv msgs mem)

include hlen

/-- A call asks for all that is left of its message, and moves no more. -/
theorem moves_of_request {e : Endpoint} {msg : Message} {rest : List Message} (he : e.At msgs)
    (hp : e.pending = msg :: rest) (hmoves : Moves (request msg.bytes.length e.bytesDone) count) :
    Moves (msg.bytes.length - e.bytesDone) count ∧ e.bytesDone + count ≤ msg.bytes.length := by
  have hfits := hlen msg (he.mem hp)
  rw [request_of_lt (by omega)] at hmoves
  have hdone := he.bytesDone_le hp
  have hle := hmoves.2
  exact ⟨hmoves, by omega⟩

include h

theorem Inv.send (hstep : c.step (.send count) = some c') :
    c'.Inv msgs mem ∧ c'.writer.left < c.writer.left ∧ c'.reader = c.reader := by
  obtain ⟨msg, rest, hp, hmoves, p, hpdef, rfl⟩ := step_send hstep
  obtain ⟨hmoves, hle⟩ := moves_of_request hlen h.writer hp hmoves
  have hround : RoundMoves msg.bytes.length c.writer.bytesDone count
      ([] ++ (msg.bytes.drop c.writer.bytesDone).take count) p := hpdef ▸ roundMoves_write hle
  have hdata : p.state.2 = ((msgs.flatMap Message.bytes).drop c.writer.position).take count := by
    rw [hround.state_eq, h.writer.drop_position (fun _ ↦ rfl) hp hle]
    rfl
  obtain ⟨hat, hposition⟩ := h.writer.advance hp hround
  refine ⟨{ h with writer := hat, sent := ?_, wire := ?_ }, ?_, rfl⟩
  · rw [hposition, List.take_add, hdata, h.sent]
  · rw [← List.append_assoc, h.wire]
  · exact Endpoint.left_advance_lt hp hround fun hlt ↦ hmoves.1 (by omega)

theorem Inv.recv (hstep : c.step (.recv count) = some c') :
    c'.Inv msgs mem ∧ c'.reader.left < c.reader.left ∧ c'.writer = c.writer := by
  obtain ⟨msg, rest, hp, hmoves, hwire, p, hpdef, rfl⟩ := step_recv hstep
  obtain ⟨hmoves, hle⟩ := moves_of_request hlen h.reader hp hmoves
  have hcount : (c.wire.take count).length = count := List.length_take_of_le hwire
  have hnext := h.wire_take hwire
  have hdata : c.wire.take count = (msg.bytes.drop c.reader.bytesDone).take count := by
    rw [hnext, h.reader.drop_position (fun _ ↦ rfl) hp hle]
  have hround : RoundMoves msg.bytes.length c.reader.bytesDone count
      (c.mem.storeBytes (msg.buf + c.reader.bytesDone) (c.wire.take count)) p := by
    have hread := @roundMoves_read _ _ msg.buf c.mem _ (hcount.symm ▸ hmoves)
      (h.reader.bytesDone_le hp)
    rwa [hcount, ← hpdef] at hread
  have hmem : p.state.2 = c.mem.storeBytes (msg.buf + c.reader.bytesDone) (c.wire.take count) := by
    rw [hround.state_eq]
  have hload : p.state.2.loadBytes msg.buf (c.reader.bytesDone + count) =
      msg.bytes.take (c.reader.bytesDone + count) := by
    have hstore := c.mem.loadBytes_storeBytes msg.buf c.reader.bytesDone (c.wire.take count)
    rw [hcount] at hstore
    rw [hmem, hstore, h.current msg (by rw [hp]; rfl), hdata, List.take_add]
  obtain ⟨hat, hposition⟩ := h.reader.advance hp hround
  refine ⟨⟨h.writer, hat, h.sent, ?_, ?_, ?_, ?_, ?_, ?_⟩, ?_, rfl⟩
  · rw [hposition, List.take_add, hnext, h.received]
  · rw [List.append_assoc, List.take_append_drop, h.wire]
  · rw [hposition, List.take_add, h.stores, h.reader.drop_position Message.length_stores hp hle,
      Message.stores, ByteMemory.drop_take_byteStores, hdata]
  · rw [hmem, ByteMemory.storeBytes_eq_storeAll, h.mem, ByteMemory.storeAll_append]
  · -- the buffer of the call that is current now
    intro msg' hmsg'
    rcases hround with ⟨-, rfl⟩ | ⟨-, rfl⟩
    · change msg' ∈ c.reader.pending.head? at hmsg'
      rw [hp, List.head?_cons, Option.mem_some_iff] at hmsg'
      exact hmsg' ▸ hload
    · exact List.take_zero.symm
  · -- the buffer of a call that has returned
    rcases hround with ⟨-, rfl⟩ | ⟨heq, hended⟩
    · exact (List.append_nil _).trans h.delivered
    · have hfull : p.state.2.loadBytes msg.buf msg.bytes.length = msg.bytes := by
        rw [← heq, hload, heq, List.take_length]
      have hadvance : (c.reader.advance p).finished = c.reader.finished ++ [msg] := by
        rw [hended, Endpoint.advance, hp]
        rfl
      have hsome : p.outcome.isSome = true := by rw [hended]; rfl
      rw [hadvance, hfull, if_pos hsome, h.delivered, List.map_append]
      rfl
  · exact Endpoint.left_advance_lt hp hround fun hlt ↦ hmoves.1 (by omega)

theorem Inv.step_of_step {l : Transfer} (hstep : c.step l = some c') :
    c'.Inv msgs mem ∧ c'.writer.left + c'.reader.left < c.writer.left + c.reader.left := by
  cases l with
  | send count =>
    obtain ⟨hinv, hleft, hreader⟩ := h.send hlen hstep
    exact ⟨hinv, by rw [hreader]; omega⟩
  | recv count =>
    obtain ⟨hinv, hleft, hwriter⟩ := h.recv hlen hstep
    exact ⟨hinv, by rw [hwriter]; omega⟩

/-- Where no call can move, everything is written and read. -/
theorem Inv.pending_eq_nil (hstuck : ∀ l, c.step l = none) :
    c.writer.pending = [] ∧ c.reader.pending = [] := by
  have hwriter : c.writer.pending = [] := by
    cases hp : c.writer.pending with
    | nil => rfl
    | cons msg rest =>
      have hmoves := moves_min_one (request msg.bytes.length c.writer.bytesDone)
      have hnone := hstuck (.send (min 1 (request msg.bytes.length c.writer.bytesDone)))
      simp [step, hp, hmoves] at hnone
  refine ⟨hwriter, ?_⟩
  cases hp : c.reader.pending with
  | nil => rfl
  | cons msg rest =>
    -- the rest of the message is on the wire
    have hwire : msg.bytes.length - c.reader.bytesDone ≤ c.wire.length := by
      have hsent := congrArg List.length h.wire
      rw [h.sent, h.received, List.length_append, List.length_take_of_le h.reader.position_le,
        List.length_take_of_le h.writer.position_le, (h.writer.of_nil hwriter).2, h.reader.split,
        hp, List.flatMap_append, List.flatMap_cons, List.length_append, List.length_append,
        Endpoint.position] at hsent
      omega
    have hrequest : request msg.bytes.length c.reader.bytesDone =
        msg.bytes.length - c.reader.bytesDone := by
      have := hlen msg (h.reader.mem hp)
      exact request_of_lt (by omega)
    have hmoves := moves_min_one (msg.bytes.length - c.reader.bytesDone)
    have hle : min 1 (msg.bytes.length - c.reader.bytesDone) ≤ c.wire.length := by omega
    have hnone := hstuck (.recv (min 1 (msg.bytes.length - c.reader.bytesDone)))
    simp [step, hp, hrequest, hmoves, hle] at hnone

end Step

/-! ### What arrives -/

/-- Every call that has ended has returned its length, and every byte was sent, received and stored
in its turn. -/
structure Arrives (msgs : List Message) (mem : ByteMemory) (c : Conversation) : Prop where
  writeEnds : c.writer.ends <+: msgs.map fun msg ↦ .returned msg.bytes.length
  readEnds : c.reader.ends <+: msgs.map fun msg ↦ .returned msg.bytes.length
  delivered : c.delivered <+: msgs.map Message.bytes
  delivered_length : c.delivered.length = c.reader.ends.length
  sent : c.sent <+: msgs.flatMap Message.bytes
  received : c.received ++ c.wire = c.sent
  stores : c.stores <+: msgs.flatMap Message.stores
  stored : c.stores.map Prod.snd = c.received
  mem : c.mem = mem.storeAll c.stores

/-- A step stores only into the buffer of the current call. -/
def KeepsToBuffer (c : Conversation) (l : Transfer) : Prop :=
  ∀ c', c.step l = some c' → ∃ new, c'.stores = c.stores ++ new ∧ ∀ store ∈ new,
    ∃ msg ∈ c.reader.pending.head?, msg.buf ≤ store.1 ∧ store.1 < msg.buf + msg.bytes.length

/-- All calls have returned their lengths, and the buffers were filled with the messages. -/
structure Complete (msgs : List Message) (c : Conversation) : Prop where
  writeEnds : c.writer.ends = msgs.map fun msg ↦ .returned msg.bytes.length
  readEnds : c.reader.ends = msgs.map fun msg ↦ .returned msg.bytes.length
  delivered : c.delivered = msgs.map Message.bytes
  wire : c.wire = []

theorem Inv.arrives (h : c.Inv msgs mem) : c.Arrives msgs mem := by
  have hsnd : (msgs.flatMap Message.stores).map Prod.snd = msgs.flatMap Message.bytes := by
    rw [List.map_flatMap]
    exact List.flatMap_congr fun msg _ ↦ ByteMemory.map_snd_byteStores msg.buf msg.bytes
  refine ⟨?_, ?_, ?_, ?_, h.sent ▸ List.take_prefix _ _, h.wire, h.stores ▸ List.take_prefix _ _,
    ?_, h.mem⟩
  · rw [h.writer.ends_eq, h.writer.split, List.map_append]
    exact List.prefix_append _ _
  · rw [h.reader.ends_eq, h.reader.split, List.map_append]
    exact List.prefix_append _ _
  · rw [h.delivered, h.reader.split, List.map_append]
    exact List.prefix_append _ _
  · rw [h.delivered, h.reader.ends_eq, List.length_map, List.length_map]
  · rw [h.stores, h.received, List.map_take, hsnd]

theorem Inv.complete (h : c.Inv msgs mem) (hwriter : c.writer.pending = [])
    (hreader : c.reader.pending = []) : c.Complete msgs := by
  obtain ⟨hwritten, hsent⟩ := h.writer.of_nil hwriter
  obtain ⟨hread, hreceived⟩ := h.reader.of_nil hreader
  refine ⟨?_, ?_, ?_, ?_⟩
  · rw [h.writer.ends_eq, hwritten]
  · rw [h.reader.ends_eq, hread]
  · rw [h.delivered, hread]
  · have hwire := h.wire
    rw [h.sent, h.received, hsent, hreceived] at hwire
    exact List.append_right_eq_self.1 hwire

section Step

variable (hlen : ∀ msg ∈ msgs, msg.bytes.length < 2 ^ 31)

include hlen

theorem Inv.keepsToBuffer (h : c.Inv msgs mem) (l : Transfer) : c.KeepsToBuffer l := by
  intro c' hstep
  cases l with
  | send count =>
    obtain ⟨msg, rest, -, -, p, -, rfl⟩ := step_send hstep
    exact ⟨[], (List.append_nil _).symm, nofun⟩
  | recv count =>
    obtain ⟨msg, rest, hp, hmoves, hwire, p, -, rfl⟩ := step_recv hstep
    refine ⟨_, rfl, fun store hstore ↦ ⟨msg, by rw [hp]; rfl, ?_⟩⟩
    obtain ⟨-, hle⟩ := moves_of_request hlen h.reader hp hmoves
    have hcell := ByteMemory.mem_byteStores hstore
    rw [List.length_take_of_le hwire] at hcell
    omega

/-- **Messages arrive.** Along every run, and every run ends with all of them read. -/
theorem messages_arrive (mem : ByteMemory) (ls : List Transfer) :
    EveryState step (Arrives msgs mem) (start msgs mem) ls ∧
      EveryStep step KeepsToBuffer (start msgs mem) ls ∧
      ∀ c, run step (start msgs mem) ls = some c →
        ls.length ≤ 2 * ((msgs.flatMap Message.bytes).length + msgs.length) ∧
          ((∀ l, c.step l = none) → c.Complete msgs) := by
  have hinv : EveryState step (Inv msgs mem) (start msgs mem) ls :=
    everyState_of_invariant (fun _ _ _ h hstep ↦ (h.step_of_step hlen hstep).1) (inv_start msgs mem)
  refine ⟨hinv.mono fun c h ↦ h.arrives, hinv.everyStep fun c l h ↦ h.keepsToBuffer hlen l,
    fun c hrun ↦ ⟨?_, fun hstuck ↦ ?_⟩⟩
  · have hbound := run_length_add_le (fun _ _ _ h hstep ↦ h.step_of_step hlen hstep)
      (inv_start msgs mem) hrun
    have hstart : (start msgs mem).writer.left + (start msgs mem).reader.left =
        2 * ((msgs.flatMap Message.bytes).length + msgs.length) := (Nat.two_mul _).symm
    omega
  · have h := hinv.last hrun
    obtain ⟨hwriter, hreader⟩ := h.pending_eq_nil hlen hstuck
    exact h.complete hwriter hreader

end Step

/-- Three bytes in two parts each way, with other parts at the two ends, and an empty message. -/
def shortConversation : List Transfer :=
  [.send 2, .recv 1, .send 1, .recv 2, .send 0, .recv 0]

/-- The short conversation. -/
theorem messages_arrive_short : ∃ c,
    run step (start [⟨[1, 2, 3], 100⟩, ⟨[], 200⟩] fun _ ↦ 0) shortConversation = some c ∧
      c.Arrives [⟨[1, 2, 3], 100⟩, ⟨[], 200⟩] (fun _ ↦ 0) ∧ c.delivered = [[1, 2, 3], []] :=
  ⟨_, rfl, (messages_arrive (by decide) (fun _ ↦ 0) shortConversation).1.last rfl, rfl⟩

end Conversation

end Libk2
