import Libk2.Net.TcpTransfer
import Mathlib.Algebra.BigOperators.Intervals

/-!
# Large transfers

The lengths in `tcp_write` and `tcp_read` go through `socklen_t`, which has 32 bits. Of a transfer
of `bytes` bytes, the first requests therefore add up to `bytes` modulo `2 ^ 32` (`socklen bytes`),
whatever the partial transfers are (`exists_moved_eq`). If that is not all, the next request is for
no bytes at all: `send` sends nothing, and the write goes round for ever; `recv` returns 0, and the
read takes the connection for closed. So the transfers are whole exactly below `2 ^ 32` bytes
(`wholeTransfers_iff`).
-/

namespace Libk2

open RoundLoop

/-! ### What `send` and `recv` do -/

/-- What the first `k` calls have moved. -/
def movedBy (counts : ℕ → ℕ) (k : ℕ) : ℕ := ∑ i ∈ Finset.range k, counts i

/-- A call with length `len` moves `count` bytes: none if `len` is zero; else at least one and at
most `len`, and no more than an `int` can hold. -/
def CallMoves (len count : ℕ) : Prop :=
  if len = 0 then count = 0 else 1 ≤ count ∧ count ≤ len ∧ count ≤ 2 ^ 31 - 1

/-- Call `k` moves `counts k` bytes, as long as not all have been moved. -/
def CallsMove (bytes : ℕ) (counts : ℕ → ℕ) : Prop :=
  ∀ k, movedBy counts k < bytes → CallMoves (request bytes (movedBy counts k)) (counts k)

/-- What the first `n` calls of `send` return. -/
def sendRets (counts : ℕ → ℕ) (n : ℕ) : List (Option ℕ) :=
  (List.range n).map fun k ↦ some (counts k)

/-- What the first `n` calls of `recv` give, of the bytes that the peer sends. -/
def recvRets (stream : List UInt8) (counts : ℕ → ℕ) (n : ℕ) : List (Option (List UInt8)) :=
  (List.range n).map fun k ↦ some ((stream.drop (movedBy counts k)).take (counts k))

variable {bytes n k : ℕ} {counts : ℕ → ℕ}

theorem movedBy_succ (counts : ℕ → ℕ) (k : ℕ) :
    movedBy counts (k + 1) = movedBy counts k + counts k :=
  Finset.sum_range_succ counts k

theorem sendRets_succ (counts : ℕ → ℕ) (n : ℕ) :
    sendRets counts (n + 1) = sendRets counts n ++ [some (counts n)] := by
  rw [sendRets, List.range_succ, List.map_append]
  rfl

theorem recvRets_succ (stream : List UInt8) (counts : ℕ → ℕ) (n : ℕ) :
    recvRets stream counts (n + 1) =
      recvRets stream counts n ++ [some ((stream.drop (movedBy counts n)).take (counts n))] := by
  rw [recvRets, List.range_succ, List.map_append]
  rfl

/-! ### How far the requests lead -/

theorem socklen_le (bytes : ℕ) : socklen bytes ≤ bytes := Nat.mod_le _ _

theorem socklen_of_lt (h : bytes < 2 ^ 32) : socklen bytes = bytes := Nat.mod_eq_of_lt h

theorem socklen_lt_iff : socklen bytes < bytes ↔ 2 ^ 32 ≤ bytes := by
  rw [socklen]
  constructor
  · intro h
    by_contra! hlt
    rw [Nat.mod_eq_of_lt hlt] at h
    exact lt_irrefl _ h
  · exact fun h ↦ (Nat.mod_lt _ (by decide)).trans_le h

/-- **The requests** lead to `socklen bytes` and no further. -/
theorem request_of_le {done : ℕ} (h : done ≤ socklen bytes) :
    request bytes done = socklen bytes - done := by
  rw [socklen] at h
  rw [request, socklen, socklen]
  omega

/-- A call does not go further than that, and goes on before. -/
theorem CallsMove.step (h : CallsMove bytes counts) (hk : movedBy counts k < socklen bytes) :
    movedBy counts k < movedBy counts (k + 1) ∧ movedBy counts (k + 1) ≤ socklen bytes := by
  have hcall := h k (hk.trans_le (socklen_le bytes))
  rw [request_of_le hk.le, CallMoves, if_neg (by omega)] at hcall
  rw [movedBy_succ]
  omega

/-- **Some number of calls** gets there, each before it going on. -/
theorem exists_moved_eq (h : CallsMove bytes counts) :
    ∃ n, movedBy counts n = socklen bytes ∧ ∀ k < n, movedBy counts k < socklen bytes := by
  have hreach : ∃ n, socklen bytes ≤ movedBy counts n := by
    by_contra! hbelow
    have hgrow : ∀ k, k ≤ movedBy counts k := by
      intro k
      induction k with
      | zero => exact Nat.zero_le _
      | succ k ih => exact Nat.succ_le_of_lt (ih.trans_lt (h.step (hbelow k)).1)
    exact (hbelow (socklen bytes)).not_ge (hgrow _)
  have hbefore : ∀ k < Nat.find hreach, movedBy counts k < socklen bytes :=
    fun k hk ↦ not_le.1 (Nat.find_min hreach hk)
  refine ⟨Nat.find hreach, le_antisymm ?_ (Nat.find_spec hreach), hbefore⟩
  cases hn : Nat.find hreach with
  | zero => exact Nat.zero_le _
  | succ k => exact (h.step (hbefore k (hn ▸ Nat.lt_succ_self k))).2

/-- If that is not all, nothing more is moved. -/
theorem CallsMove.movedBy_le (h : CallsMove bytes counts) (hlarge : socklen bytes < bytes) (k : ℕ) :
    movedBy counts k ≤ socklen bytes := by
  induction k with
  | zero => exact Nat.zero_le _
  | succ k ih =>
    rcases Nat.lt_or_eq_of_le ih with hlt | heq
    · exact (h.step hlt).2
    · have hcall := h k (heq ▸ hlarge)
      rw [request_of_le ih, CallMoves, if_pos (by omega)] at hcall
      rw [movedBy_succ]
      omega

/-! ### The loops -/

section Loops

variable {buf stream : List UInt8} {p : ℕ} {m : ByteMemory}

theorem tcpWriteAllRound_some {d res : ℕ} {sent : List UInt8} :
    tcpWriteAllRound buf bytes (d, sent) (some res) =
      if d + res = bytes then .ended (d + res, sent ++ (buf.drop d).take res) (.returned bytes)
      else .more (d + res, sent ++ (buf.drop d).take res) :=
  rfl

/-- A write goes on until a number of calls have moved all. -/
theorem tcpWriteAll_under_way (h : ∀ k ≤ n, 0 < k → movedBy counts k ≠ bytes) :
    tcpWriteAll buf bytes (sendRets counts n) =
      .more (movedBy counts n, buf.take (movedBy counts n)) := by
  induction n with
  | zero => rfl
  | succ n ih =>
    have hround := h (n + 1) le_rfl n.succ_pos
    rw [movedBy_succ] at hround
    rw [tcpWriteAll] at ih ⊢
    rw [sendRets_succ, loop_append, ih fun k hk ↦ h k (Nat.le_succ_of_le hk), Progress.andThen,
      loop_singleton, tcpWriteAllRound_some, if_neg hround, ← List.take_add, movedBy_succ]

/-- Then it returns. -/
theorem tcpWriteAll_done (h : ∀ k ≤ n, 0 < k → movedBy counts k ≠ bytes)
    (hdone : movedBy counts (n + 1) = bytes) :
    tcpWriteAll buf bytes (sendRets counts (n + 1)) =
      .ended (bytes, buf.take bytes) (.returned bytes) := by
  have hbefore : tcpWriteAll buf bytes (sendRets counts n) = _ := tcpWriteAll_under_way h
  rw [movedBy_succ] at hdone
  rw [tcpWriteAll] at hbefore ⊢
  rw [sendRets_succ, loop_append, hbefore, Progress.andThen, loop_singleton,
    tcpWriteAllRound_some, if_pos hdone, ← List.take_add, hdone]

theorem tcpReadAllRound_some {d : ℕ} {data : List UInt8} :
    tcpReadAllRound p bytes (d, m) (some data) =
      if data.length = 0 then .ended (d, m.storeBytes (p + d) data) (.returned 0)
      else if d + data.length = bytes then
        .ended (d + data.length, m.storeBytes (p + d) data) (.returned bytes)
      else .more (d + data.length, m.storeBytes (p + d) data) :=
  rfl

theorem length_chunk {d len : ℕ} (h : d + len ≤ stream.length) :
    ((stream.drop d).take len).length = len := by
  rw [List.length_take, List.length_drop]
  omega

/-- What a call has given follows on what was in the buffer. -/
theorem loadBytes_chunk {d len : ℕ} (h : d + len ≤ stream.length)
    (hload : m.loadBytes p d = stream.take d) :
    (m.storeBytes (p + d) ((stream.drop d).take len)).loadBytes p (d + len) =
      stream.take (d + len) := by
  have hstore := m.loadBytes_storeBytes p d ((stream.drop d).take len)
  rwa [length_chunk h, hload, ← List.take_add] at hstore

/-- A read goes on until a call has moved nothing, or all has been moved, with the beginning of the
stream in its buffer. -/
theorem tcpReadAll_under_way (h : ∀ k < n, 0 < counts k ∧ movedBy counts (k + 1) < bytes)
    (hstream : bytes ≤ stream.length) :
    ∃ m', tcpReadAll p bytes m (recvRets stream counts n) = .more (movedBy counts n, m') ∧
      m'.loadBytes p (movedBy counts n) = stream.take (movedBy counts n) := by
  induction n with
  | zero => exact ⟨m, rfl, rfl⟩
  | succ n ih =>
    obtain ⟨m', hloop, hload⟩ := ih fun k hk ↦ h k (Nat.lt_succ_of_lt hk)
    obtain ⟨hpos, hlt⟩ := h n n.lt_succ_self
    rw [movedBy_succ] at hlt
    have hle : movedBy counts n + counts n ≤ stream.length := hlt.le.trans hstream
    refine ⟨m'.storeBytes (p + movedBy counts n) ((stream.drop (movedBy counts n)).take (counts n)),
      ?_, ?_⟩
    · rw [tcpReadAll] at hloop ⊢
      rw [recvRets_succ, loop_append, hloop, Progress.andThen, loop_singleton,
        tcpReadAllRound_some, length_chunk hle, if_neg hpos.ne', if_neg hlt.ne, movedBy_succ]
    · rw [movedBy_succ]
      exact loadBytes_chunk hle hload

theorem tcpReadAll_done (h : ∀ k < n, 0 < counts k ∧ movedBy counts (k + 1) < bytes)
    (hpos : 0 < counts n) (hdone : movedBy counts (n + 1) = bytes)
    (hstream : bytes ≤ stream.length) :
    ∃ m', tcpReadAll p bytes m (recvRets stream counts (n + 1)) =
      .ended (bytes, m') (.returned bytes) ∧ m'.loadBytes p bytes = stream.take bytes := by
  obtain ⟨m', hloop, hload⟩ := tcpReadAll_under_way (p := p) (m := m) h hstream
  rw [movedBy_succ] at hdone
  have hle : movedBy counts n + counts n ≤ stream.length := hdone.trans_le hstream
  refine ⟨m'.storeBytes (p + movedBy counts n) ((stream.drop (movedBy counts n)).take (counts n)),
    ?_, hdone ▸ loadBytes_chunk hle hload⟩
  rw [tcpReadAll] at hloop ⊢
  rw [recvRets_succ, loop_append, hloop, Progress.andThen, loop_singleton, tcpReadAllRound_some,
    length_chunk hle, if_neg hpos.ne', if_pos hdone, hdone]

/-- A call that moves nothing is taken for the end of the stream. -/
theorem tcpReadAll_closed (h : ∀ k < n, 0 < counts k ∧ movedBy counts (k + 1) < bytes)
    (hzero : counts n = 0) (hstream : bytes ≤ stream.length) :
    ∃ s, tcpReadAll p bytes m (recvRets stream counts (n + 1)) = .ended s (.returned 0) := by
  obtain ⟨m', hloop, -⟩ := tcpReadAll_under_way (p := p) (m := m) h hstream
  rw [tcpReadAll] at hloop
  refine ⟨(movedBy counts n, m'.storeBytes (p + movedBy counts n) []), ?_⟩
  rw [tcpReadAll, recvRets_succ, loop_append, hloop, Progress.andThen, loop_singleton, hzero,
    tcpReadAllRound_some, List.take_zero, if_pos List.length_nil]

/-- It does not matter how many more calls there would be. -/
theorem tcpReadAll_ended_unique {n' : ℕ} {s s' : ℕ × ByteMemory} {e e' : CallEnd}
    (h : tcpReadAll p bytes m (recvRets stream counts n) = .ended s e)
    (h' : tcpReadAll p bytes m (recvRets stream counts n') = .ended s' e') : e = e' := by
  have hmore : ∀ {a b : ℕ}, a ≤ b →
      ∃ rest, recvRets stream counts b = recvRets stream counts a ++ rest := by
    intro a b hab
    obtain ⟨c, rfl⟩ := Nat.exists_eq_add_of_le hab
    exact ⟨_, by rw [recvRets, List.range_add, List.map_append]; rfl⟩
  rcases le_total n n' with hle | hle
  · obtain ⟨rest, hrest⟩ := hmore hle
    rw [tcpReadAll, hrest, loop_append_of_ended h] at h'
    cases h'
    rfl
  · obtain ⟨rest, hrest⟩ := hmore hle
    rw [tcpReadAll, hrest, loop_append_of_ended h'] at h
    cases h
    rfl

end Loops

/-! ### Whole transfers -/

/-- `tcp_write_all` finishes, and has sent the whole buffer. -/
def WritesAll (buf : List UInt8) (counts : ℕ → ℕ) : Prop :=
  ∃ n, tcpWriteAll buf buf.length (sendRets counts n) =
    .ended (buf.length, buf) (.returned buf.length)

/-- `tcp_read_all` finishes, with the beginning of the stream in its buffer, and does not say that
the peer has closed the connection. -/
structure ReadsAll (p bytes : ℕ) (m : ByteMemory) (stream : List UInt8) (counts : ℕ → ℕ) :
    Prop where
  fills : ∃ n m', tcpReadAll p bytes m (recvRets stream counts n) =
    .ended (bytes, m') (.returned bytes) ∧ m'.loadBytes p bytes = stream.take bytes
  not_closed : ∀ n s, tcpReadAll p bytes m (recvRets stream counts n) ≠ .ended s (.returned 0)

theorem writesAll_iff {buf : List UInt8} (h0 : 0 < buf.length) (h : CallsMove buf.length counts) :
    WritesAll buf counts ↔ buf.length < 2 ^ 32 := by
  constructor
  · rintro ⟨n, hended⟩
    by_contra! hlarge
    have hlt := socklen_lt_iff.2 hlarge
    rw [tcpWriteAll_under_way fun k _ _ ↦ ((h.movedBy_le hlt k).trans_lt hlt).ne] at hended
    cases hended
  · intro hsmall
    obtain ⟨n, hn, hbefore⟩ := exists_moved_eq h
    rw [socklen_of_lt hsmall] at hn hbefore
    cases n with
    | zero => exact absurd hn h0.ne
    | succ n =>
      have hdone : tcpWriteAll buf buf.length (sendRets counts (n + 1)) = _ :=
        tcpWriteAll_done (fun k hk _ ↦ (hbefore k (Nat.lt_succ_of_le hk)).ne) hn
      rw [List.take_length] at hdone
      exact ⟨n + 1, hdone⟩

theorem readsAll_iff (h0 : 0 < bytes) (h : CallsMove bytes counts) {stream : List UInt8}
    (hstream : bytes ≤ stream.length) (p : ℕ) (m : ByteMemory) :
    ReadsAll p bytes m stream counts ↔ bytes < 2 ^ 32 := by
  obtain ⟨n, hn, hbefore⟩ := exists_moved_eq h
  constructor
  · intro hreads
    by_contra! hlarge
    have hlt := socklen_lt_iff.2 hlarge
    have hgoing : ∀ k < n, 0 < counts k ∧ movedBy counts (k + 1) < bytes := by
      intro k hk
      have hstep := h.step (hbefore k hk)
      rw [movedBy_succ] at hstep ⊢
      omega
    have hzero : counts n = 0 := by
      have hle := h.movedBy_le hlt (n + 1)
      rw [movedBy_succ] at hle
      omega
    obtain ⟨s, hclosed⟩ := tcpReadAll_closed (p := p) (m := m) hgoing hzero hstream
    exact hreads.not_closed _ _ hclosed
  · intro hsmall
    rw [socklen_of_lt hsmall] at hn hbefore
    cases n with
    | zero => exact absurd hn h0.ne
    | succ n =>
      have hstep : ∀ k < n + 1, movedBy counts k < movedBy counts k + counts k := by
        intro k hk
        rw [← movedBy_succ]
        exact (h.step ((hbefore k hk).trans_eq (socklen_of_lt hsmall).symm)).1
      obtain ⟨m', hdone, hload⟩ := tcpReadAll_done (p := p) (m := m)
        (fun k hk ↦ ⟨by have := hstep k (Nat.lt_succ_of_lt hk); omega,
          hbefore (k + 1) (Nat.succ_lt_succ hk)⟩)
        (by have := hstep n n.lt_succ_self; omega) hn hstream
      refine ⟨⟨n + 1, m', hdone, hload⟩, fun n' s hclosed ↦ ?_⟩
      cases tcpReadAll_ended_unique hdone hclosed
      exact lt_irrefl _ h0

/-- **Transfers are whole** exactly below `2 ^ 32` bytes. -/
theorem wholeTransfers_iff {buf stream : List UInt8} (h0 : 0 < buf.length)
    (h : CallsMove buf.length counts) (hstream : buf.length ≤ stream.length) (p : ℕ)
    (m : ByteMemory) :
    (WritesAll buf counts ↔ buf.length < 2 ^ 32) ∧
      (ReadsAll p buf.length m stream counts ↔ buf.length < 2 ^ 32) :=
  ⟨writesAll_iff h0 h, readsAll_iff h0 h hstream p m⟩

/-- Two bytes, one at a time. -/
theorem wholeTransfers_two : WritesAll [7, 8] (fun _ ↦ 1) ∧
    ReadsAll 16 2 (fun _ ↦ 0) [7, 8, 9] fun _ ↦ 1 := by
  have hcalls : CallsMove 2 fun _ ↦ 1 := by
    intro k hk
    have hk' : movedBy (fun _ ↦ 1) k = k := by simp [movedBy]
    rw [hk'] at hk ⊢
    rw [request_of_lt (by decide), CallMoves, if_neg (by omega)]
    show 1 ≤ 1 ∧ 1 ≤ 2 - k ∧ 1 ≤ 2 ^ 31 - 1
    omega
  obtain ⟨hwrites, hreads⟩ := @wholeTransfers_iff _ [7, 8] [7, 8, 9] (by decide) hcalls (by decide)
    16 fun _ ↦ 0
  exact ⟨hwrites.2 (by decide), hreads.2 (by decide)⟩

/-- **Four gigabytes.** The first request is for no bytes. -/
theorem four_gigabytes_not_written :
    ¬ ∀ (buf stream : List UInt8) (counts : ℕ → ℕ) (p : ℕ) (m : ByteMemory), 0 < buf.length →
      buf.length < 2 ^ 64 → CallsMove buf.length counts → buf.length ≤ stream.length →
      WritesAll buf counts ∧ ReadsAll p buf.length m stream counts := by
  intro hall
  have hlength : (List.replicate (2 ^ 32) (0 : UInt8)).length = 2 ^ 32 := List.length_replicate
  have hcalls : CallsMove (2 ^ 32) fun _ ↦ 0 := by
    intro k _
    have hk' : movedBy (fun _ ↦ 0) k = 0 := by simp [movedBy]
    rw [hk']
    rfl
  obtain ⟨hwrites, -⟩ := hall (List.replicate (2 ^ 32) 0) (List.replicate (2 ^ 32) 0) (fun _ ↦ 0) 0
    (fun _ ↦ 0) (by rw [hlength]; decide) (by rw [hlength]; decide) (by rw [hlength]; exact hcalls)
    le_rfl
  have hsmall := (writesAll_iff (by rw [hlength]; decide) (by rw [hlength]; exact hcalls)).1 hwrites
  rw [hlength] at hsmall
  exact lt_irrefl _ hsmall

end Libk2
