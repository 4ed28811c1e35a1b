import Libk2.Foundation.LossyNet
import Libk2.Foundation.StepSystem
import Libk2.Net.SockAddr
import Libk2.Net.TcpTransfer
import Libk2.Net.Transports

/-!
# Datagrams

`udp_transport::write` and `read`, for any number of transports over a network that may lose, copy
and reorder what is sent. Both make one system call and return what it returns, -1 as `io_error`.
`read` sets the caller's `remote_addr` only if there is a datagram.

The address of a datagram goes through `sockaddr_in` four times: the sender's own is put there by
the system, the destination by `write`, and both are compared or converted back on the other side.
`datagrams_arrive` is what is left of a datagram at the end, and who it is said to be from.
-/

namespace Libk2

open LossyNet StepSystem

/-! ### The calls -/

/-- An `int` as a `size_t` of 64 bits. -/
def sizeOfInt (ret : ℤ) : ℕ := (ret % 2 ^ 64).toNat

/-- `udp_transport::io_error`. -/
def ioError : ℕ := sizeOfInt (-1)

/-- What `sendto` is asked to send: the bytes, and the destination. -/
structure SendtoArgs where
  data : List UInt8
  sa : SockaddrIn
deriving DecidableEq

/-- `udp_write`: the call of `sendto`, and the result if it returns `ret`. -/
def udpWrite (buf : List UInt8) (remoteAddr : Ipv4.TransportAddr) (ret : ℤ) : SendtoArgs × ℕ :=
  (⟨buf.take (socklen buf.length), remoteAddr.toSockaddrIn⟩, sizeOfInt ret)

/-- What `recvfrom` gives: the sender, and the bytes. -/
structure RecvfromRet where
  sa : SockaddrIn
  data : List UInt8
deriving DecidableEq

/-- `udp_read`: the memory, `remote_addr` and the result. `none` is -1. -/
def udpRead (m : ByteMemory) (buf : ℕ) (remoteAddr : Ipv4.TransportAddr) :
    Option RecvfromRet → ByteMemory × Ipv4.TransportAddr × ℕ
  | none => (m, remoteAddr, ioError)
  | some ret => (m.storeBytes buf ret.data, .ofSockaddrIn ret.sa, sizeOfInt ret.data.length)

/-- `udp_read` with a timeout, which waits with `select` first, or without. -/
def udpReadWaiting (select : Option ℤ) (m : ByteMemory) (buf : ℕ)
    (remoteAddr : Ipv4.TransportAddr) (ret : Option RecvfromRet) :
    ByteMemory × Ipv4.TransportAddr × Except TransportError ℕ :=
  if waited select = false then (m, remoteAddr, .error .socketTimedoutError)
  else
    let r := udpRead m buf remoteAddr ret
    (r.1, r.2.1, .ok r.2.2)

/-! ### Transports over a network -/

/-- The most bytes that fit into a datagram of IPv4. -/
def maxDatagram : ℕ := 65507

/-- A `write` whose datagram was sent: by whom, its arguments, and the datagram. -/
structure UdpWrite (ι : Type*) where
  writer : ι
  buf : List UInt8
  remoteAddr : Ipv4.TransportAddr
  ret : ℕ
  src : SockaddrIn
  datagram : SendtoArgs
deriving DecidableEq

/-- A `read` that has returned: by whom, its length, its result, what is then in `remote_addr` and
in the part of the buffer that the result speaks of. `datagram` is the number of what was
delivered. -/
structure UdpRead (ι : Type*) where
  reader : ι
  bytes : ℕ
  ret : Except TransportError ℕ
  remoteAddr : Ipv4.TransportAddr
  data : List UInt8
  datagram : Option ℕ

/-- Transports `ι`, the network between them, and for each one the memory it reads into and the
variable for the address. -/
structure UdpSys (ι : Type*) where
  net : Net (UdpWrite ι)
  mem : ι → ByteMemory
  remoteAddr : ι → Ipv4.TransportAddr
  reads : List (UdpRead ι)

/-- A `write` that `sendto` refuses or not; a `read` that fails, or gets the `i`th datagram under
way; or the network loses or copies one. -/
inductive UdpAction (ι : Type*) where
  | write (t : ι) (buf : List UInt8) (remoteAddr : Ipv4.TransportAddr) (sends : Bool)
  | read (t : ι) (buf bytes : ℕ) (select : Option ℤ) (i : Option ℕ)
  | lose (i : ℕ)
  | copy (i : ℕ)

namespace UdpSys

variable {ι : Type*}

/-- Nothing has been written. -/
def start (mem : ι → ByteMemory) (remoteAddr : ι → Ipv4.TransportAddr) : UdpSys ι :=
  ⟨.empty, mem, remoteAddr, []⟩

variable [DecidableEq ι] (addr : ι → Ipv4.TransportAddr)

/-- What `recvfrom` does for transport `t`: it gives a datagram for `t` that is under way, cut to
the length of the buffer. -/
def recvfrom (s : UdpSys ι) (t : ι) (bytes : ℕ) :
    Option ℕ → Option (Option (ℕ × RecvfromRet) × Net (UdpWrite ι))
  | none => some (none, s.net)
  | some i => (s.net.deliver i).bind fun ((k, w), net) ↦
    if w.datagram.sa = (addr t).toSockaddrIn then
      some (some (k, ⟨w.src, w.datagram.data.take (socklen bytes)⟩), net)
    else none

/-- Transport `t` has read with this outcome. -/
def finishRead (s : UdpSys ι) (t : ι) (buf bytes : ℕ) (select : Option ℤ)
    (got : Option (ℕ × RecvfromRet)) (net : Net (UdpWrite ι)) : UdpSys ι :=
  let r := udpReadWaiting select (s.mem t) buf (s.remoteAddr t) (got.map Prod.snd)
  { net := net
    mem := Function.update s.mem t r.1
    remoteAddr := Function.update s.remoteAddr t r.2.1
    reads := s.reads ++ [⟨t, bytes, r.2.2, r.2.1,
      r.1.loadBytes buf ((got.map fun g ↦ g.2.data.length).getD 0), got.map Prod.fst⟩] }

def step (s : UdpSys ι) : UdpAction ι → Option (UdpSys ι)
  | .write t buf remoteAddr sends =>
    let args := (udpWrite buf remoteAddr 0).1
    if sends = false then some s
    else if args.data.length ≤ maxDatagram then
      let ret := (udpWrite buf remoteAddr args.data.length).2
      some { s with net := s.net.send ⟨t, buf, remoteAddr, ret, (addr t).toSockaddrIn, args⟩ }
    else none
  | .read t buf bytes select i =>
    -- after a timeout there is no call of `recvfrom`
    if waited select = false then
      if i = none then some (s.finishRead t buf bytes select none s.net) else none
    else
      (s.recvfrom addr t bytes i).map fun (got, net) ↦ s.finishRead t buf bytes select got net
  | .lose i => some { s with net := s.net.lose i }
  | .copy i => some { s with net := s.net.copy i }

/-! ### What is to hold -/

/-- What was sent is what `write` was given, cut where `socklen_t` wraps around; it comes from the
writer's address, and its length is what `write` returned. -/
structure Sends (w : UdpWrite ι) : Prop where
  src : w.src = (addr w.writer).toSockaddrIn
  datagram : w.datagram = ⟨w.buf.take (socklen w.buf.length), w.remoteAddr.toSockaddrIn⟩
  length : w.datagram.data.length ≤ maxDatagram
  ret : w.ret = w.datagram.data.length

/-- What `read` returned. A length: of the bytes of a datagram that was sent here from the address
in `remote_addr`, as far as they fit. Otherwise nothing was taken off the network. -/
structure Explained (sent : List (UdpWrite ι)) (r : UdpRead ι) : Prop where
  got : ∀ n, r.ret = .ok n → n ≠ ioError → r.data.length = n ∧ ∃ k w, r.datagram = some k ∧
    sent[k]? = some w ∧ addr w.writer = r.remoteAddr ∧ w.remoteAddr = addr r.reader ∧
    r.data = (w.buf.take (socklen w.buf.length)).take (socklen r.bytes)
  failed : (∀ n, r.ret = .ok n → n = ioError) → r.datagram = none ∧ r.data = []

/-- What is written to the address that a `read` reported is read, if at all, where the datagram of
that `read` was written. -/
def AnswersReturn (s : UdpSys ι) : Prop :=
  ∀ r ∈ s.reads, ∀ r' ∈ s.reads, ∀ k ∈ r.datagram, ∀ k' ∈ r'.datagram, ∀ w ∈ s.net.sent[k]?,
    ∀ w' ∈ s.net.sent[k']?, w'.remoteAddr = r.remoteAddr → addr r'.reader = addr w.writer

/-- Only a `read` that gets a datagram changes anything for its caller, and only in its buffer. One
that gets none leaves the network as it is, too. -/
def Frame (s : UdpSys ι) (a : UdpAction ι) : Prop :=
  ∀ s', s.step addr a = some s' → match a with
    | .read t buf bytes _ (some _) =>
      (∀ u ≠ t, s'.mem u = s.mem u ∧ s'.remoteAddr u = s.remoteAddr u) ∧
        ∀ b, b < buf ∨ buf + bytes ≤ b → s'.mem t b = s.mem t b
    | .read _ _ _ _ none => s'.net = s.net ∧ s'.mem = s.mem ∧ s'.remoteAddr = s.remoteAddr
    | _ => s'.mem = s.mem ∧ s'.remoteAddr = s.remoteAddr

/-- The network keeps its accounts, and every call is what it should be. -/
structure Inv (s : UdpSys ι) : Prop where
  net : s.net.Inv
  sent : ∀ w ∈ s.net.sent, Sends addr w
  delivered : s.net.delivered = s.reads.filterMap UdpRead.datagram
  reads : ∀ r ∈ s.reads, Explained addr s.net.sent r

variable {addr}

omit [DecidableEq ι] in
theorem inv_start (mem : ι → ByteMemory) (remoteAddr : ι → Ipv4.TransportAddr) :
    (start mem remoteAddr).Inv addr where
  net := Net.inv_empty
  sent := nofun
  delivered := rfl
  reads := nofun

/-! ### One call -/

theorem sizeOfInt_natCast {n : ℕ} (h : n < 2 ^ 64) : sizeOfInt n = n := by
  rw [sizeOfInt]
  omega

/-- No datagram is so long that its length would look like an error. -/
theorem ne_ioError {n : ℕ} (h : n ≤ maxDatagram) : n ≠ ioError := by
  have hio : ioError = 2 ^ 64 - 1 := rfl
  rw [maxDatagram] at h
  omega

omit [DecidableEq ι] in
/-- A datagram that goes out. -/
theorem sends_of_write {t : ι} {buf : List UInt8} {remoteAddr : Ipv4.TransportAddr}
    (h : (udpWrite buf remoteAddr 0).1.data.length ≤ maxDatagram) :
    Sends addr ⟨t, buf, remoteAddr,
      (udpWrite buf remoteAddr (udpWrite buf remoteAddr 0).1.data.length).2,
      (addr t).toSockaddrIn, (udpWrite buf remoteAddr 0).1⟩ where
  src := rfl
  datagram := rfl
  length := h
  ret := sizeOfInt_natCast (by rw [maxDatagram] at h; omega)

omit [DecidableEq ι] in
/-- More datagrams leave what was read before explained. -/
theorem Explained.mono {sent : List (UdpWrite ι)} {r : UdpRead ι} (h : Explained addr sent r)
    (w : UdpWrite ι) : Explained addr (sent ++ [w]) r where
  got n hret hn := by
    obtain ⟨hlength, k, w', hk, hw', hrest⟩ := h.got n hret hn
    exact ⟨hlength, k, w', hk, List.getElem?_append_left (List.getElem?_eq_some_iff.1 hw').1 ▸ hw',
      hrest⟩
  failed := h.failed

/-- The record of a `read`. -/
def record (s : UdpSys ι) (t : ι) (buf bytes : ℕ) (select : Option ℤ)
    (got : Option (ℕ × RecvfromRet)) : UdpRead ι :=
  let r := udpReadWaiting select (s.mem t) buf (s.remoteAddr t) (got.map Prod.snd)
  ⟨t, bytes, r.2.2, r.2.1, r.1.loadBytes buf ((got.map fun g ↦ g.2.data.length).getD 0),
    got.map Prod.fst⟩

omit [DecidableEq ι] in
/-- A `read` without a datagram returns `io_error` or times out. -/
theorem explained_of_none (s : UdpSys ι) (t : ι) (buf bytes : ℕ) (select : Option ℤ) :
    Explained addr s.net.sent (s.record t buf bytes select none) := by
  have hret : ∀ n, (s.record t buf bytes select none).ret = .ok n → n = ioError := by
    intro n hn
    simp only [record, udpReadWaiting, Option.map_none] at hn
    split at hn
    · cases hn
    · exact (Except.ok.inj hn).symm
  exact ⟨fun n hn hne ↦ absurd (hret n hn) hne, fun _ ↦ ⟨rfl, rfl⟩⟩

omit [DecidableEq ι] in
/-- A `read` that gets a datagram. -/
theorem explained_of_some {s : UdpSys ι} {t : ι} {buf bytes k : ℕ} {select : Option ℤ}
    {w : UdpWrite ι} (hselect : waited select = true) (hw : s.net.sent[k]? = some w)
    (hsends : Sends addr w) (hsa : w.datagram.sa = (addr t).toSockaddrIn) :
    Explained addr s.net.sent (s.record t buf bytes select
      (some (k, ⟨w.src, w.datagram.data.take (socklen bytes)⟩))) := by
  set data := w.datagram.data.take (socklen bytes) with hdata
  have hle : data.length ≤ maxDatagram := (List.length_take_le' ..).trans hsends.length
  have hsize : sizeOfInt data.length = data.length :=
    sizeOfInt_natCast (hle.trans_lt (by decide))
  have hread : udpReadWaiting select (s.mem t) buf (s.remoteAddr t) (some ⟨w.src, data⟩) =
      ((s.mem t).storeBytes buf data, addr w.writer, .ok data.length) := by
    rw [udpReadWaiting, if_neg (hselect ▸ Bool.noConfusion), udpRead, hsize,
      hsends.src, Ipv4.TransportAddr.ofSockaddrIn_toSockaddrIn]
  have hrecord : s.record t buf bytes select (some (k, ⟨w.src, data⟩)) =
      ⟨t, bytes, .ok data.length, addr w.writer, data, some k⟩ := by
    rw [record, Option.map_some, hread]
    show (⟨t, bytes, _, _, ((s.mem t).storeBytes buf data).loadBytes buf data.length, _⟩ :
      UdpRead ι) = _
    rw [ByteMemory.loadBytes_storeBytes_self]
    rfl
  have hto : w.remoteAddr = addr t := by
    have hsame : w.remoteAddr.toSockaddrIn = (addr t).toSockaddrIn := by
      rw [← hsa, hsends.datagram]
    rw [← w.remoteAddr.ofSockaddrIn_toSockaddrIn, hsame,
      Ipv4.TransportAddr.ofSockaddrIn_toSockaddrIn]
  rw [hrecord]
  refine ⟨fun n hn _ ↦ ?_, fun hfailed ↦ absurd (hfailed _ rfl) (ne_ioError hle)⟩
  refine ⟨Except.ok.inj hn, k, w, rfl, hw, rfl, hto, ?_⟩
  rw [hdata, hsends.datagram]

omit [DecidableEq ι] in
/-- A datagram that was read was sent to the reader, from the address that was reported. -/
theorem Explained.addresses {sent : List (UdpWrite ι)} {r : UdpRead ι} {w : UdpWrite ι} {k : ℕ}
    (h : Explained addr sent r) (hk : k ∈ r.datagram) (hw : w ∈ sent[k]?) :
    addr w.writer = r.remoteAddr ∧ w.remoteAddr = addr r.reader := by
  have hgot : ∃ n, r.ret = .ok n ∧ n ≠ ioError := by
    by_contra! hfailed
    rw [(h.failed hfailed).1] at hk
    cases hk
  obtain ⟨n, hret, hn⟩ := hgot
  obtain ⟨-, k', w', hk', hw', hsrc, hdst, -⟩ := h.got n hret hn
  obtain rfl : k' = k := Option.some.inj (hk'.symm.trans hk)
  obtain rfl : w' = w := Option.some.inj (hw'.symm.trans hw)
  exact ⟨hsrc, hdst⟩

omit [DecidableEq ι] in
theorem Inv.answersReturn {s : UdpSys ι} (h : s.Inv addr) : s.AnswersReturn addr := by
  intro r hr r' hr' k hk k' hk' w hw w' hw' hanswer
  rw [((h.reads r hr).addresses hk hw).1, ← hanswer, ((h.reads r' hr').addresses hk' hw').2]

/-! ### One step -/

/-- What a `read` can do: nothing is delivered, or a datagram that was sent to the reader. -/
theorem read_cases {s s' : UdpSys ι} {t : ι} {buf bytes : ℕ} {select : Option ℤ} {i : Option ℕ}
    (h : s.step addr (.read t buf bytes select i) = some s') :
    (i = none ∧ s' = s.finishRead t buf bytes select none s.net) ∨
      ∃ j k w net, i = some j ∧ waited select = true ∧ s.net.deliver j = some ((k, w), net) ∧
        w.datagram.sa = (addr t).toSockaddrIn ∧ s' = s.finishRead t buf bytes select
          (some (k, ⟨w.src, w.datagram.data.take (socklen bytes)⟩)) net := by
  simp only [step] at h
  split at h
  · obtain ⟨hi, hs'⟩ := Option.ite_none_right_eq_some.1 h
    exact .inl ⟨hi, (Option.some.inj hs').symm⟩
  · rename_i hselect
    obtain ⟨⟨got, net⟩, hrecv, rfl⟩ := Option.map_eq_some_iff.1 h
    cases i with
    | none =>
      cases hrecv
      exact .inl ⟨rfl, rfl⟩
    | some j =>
      obtain ⟨⟨⟨k, w⟩, net'⟩, hdeliver, hif⟩ := Option.bind_eq_some_iff.1 hrecv
      obtain ⟨hsa, heq⟩ := Option.ite_none_right_eq_some.1 hif
      cases heq
      exact .inr ⟨j, k, w, net, rfl, Bool.not_eq_false _ ▸ hselect, hdeliver, hsa, rfl⟩

/-- **One step** keeps the invariant. -/
theorem Inv.step {s s' : UdpSys ι} {a : UdpAction ι} (h : s.Inv addr)
    (hstep : s.step addr a = some s') : s'.Inv addr := by
  cases a with
  | write t buf remoteAddr sends =>
    simp only [UdpSys.step] at hstep
    split at hstep
    · exact Option.some.inj hstep ▸ h
    · obtain ⟨hlength, heq⟩ := Option.ite_none_right_eq_some.1 hstep
      obtain rfl := Option.some.inj heq
      refine ⟨h.net.send _, fun w hw ↦ ?_, h.delivered, fun r hr ↦ (h.reads r hr).mono _⟩
      rcases List.mem_append.1 hw with hw | hw
      · exact h.sent w hw
      · rw [List.mem_singleton.1 hw]
        exact sends_of_write hlength
  | read t buf bytes select i =>
    obtain ⟨-, rfl⟩ | ⟨j, k, w, net, -, hselect, hdeliver, hsa, rfl⟩ := read_cases hstep
    · refine ⟨h.net, h.sent, ?_, fun r hr ↦ ?_⟩
      · rw [finishRead, List.filterMap_append, ← h.delivered]
        exact (List.append_nil _).symm
      · rcases List.mem_append.1 hr with hr | hr
        · exact h.reads r hr
        · rw [List.mem_singleton.1 hr]
          exact explained_of_none s t buf bytes select
    · obtain ⟨hw, hsent, -, hdelivered⟩ := Net.getElem?_of_deliver hdeliver
      refine ⟨h.net.deliver hdeliver, ?_, ?_, fun r hr ↦ ?_⟩
      · exact fun w' hw' ↦ h.sent w' (hsent ▸ hw')
      · rw [finishRead, List.filterMap_append, ← h.delivered]
        exact hdelivered
      · rw [finishRead, hsent]
        rcases List.mem_append.1 hr with hr | hr
        · exact h.reads r hr
        · rw [List.mem_singleton.1 hr]
          exact explained_of_some hselect hw (h.sent w (List.mem_of_getElem? hw)) hsa
  | lose i =>
    cases hstep
    exact ⟨h.net.lose i, h.sent, h.delivered, h.reads⟩
  | copy i =>
    cases hstep
    exact ⟨h.net.copy i, h.sent, h.delivered, h.reads⟩

theorem frame (s : UdpSys ι) (a : UdpAction ι) : s.Frame addr a := by
  intro s' hstep
  cases a with
  | write t buf remoteAddr sends =>
    simp only [step] at hstep
    split at hstep
    · obtain rfl := Option.some.inj hstep
      exact ⟨rfl, rfl⟩
    · obtain rfl := Option.some.inj (Option.ite_none_right_eq_some.1 hstep).2
      exact ⟨rfl, rfl⟩
  | read t buf bytes select i =>
    obtain ⟨rfl, rfl⟩ | ⟨j, k, w, net, rfl, hselect, -, -, rfl⟩ := read_cases hstep
    · have hnothing : ∀ m b r, (udpReadWaiting select m b r none).1 = m ∧
          (udpReadWaiting select m b r none).2.1 = r := by
        intro m b r
        unfold udpReadWaiting
        split <;> exact ⟨rfl, rfl⟩
      refine ⟨rfl, ?_⟩
      simp only [finishRead, Option.map_none, hnothing, Function.update_eq_self, and_self]
    · refine ⟨fun u hu ↦ ⟨Function.update_of_ne hu .., Function.update_of_ne hu ..⟩, ?_⟩
      intro b hb
      have hlength : (w.datagram.data.take (socklen bytes)).length ≤ bytes :=
        (List.length_take_le ..).trans (Nat.mod_le _ _)
      simp only [finishRead, Function.update_self, udpReadWaiting, hselect, udpRead,
        Option.map_some]
      simp only [Bool.true_eq_false, if_false]
      exact ByteMemory.storeBytes_of_outside (by omega)
  | lose i =>
    cases hstep
    exact ⟨rfl, rfl⟩
  | copy i =>
    cases hstep
    exact ⟨rfl, rfl⟩

/-! ### Runs -/

/-- **Datagrams.** Whatever the network does, a `read` that returns a length has that many bytes of
a datagram that was written to this transport, from the address in `remote_addr`, and any other
changes nothing. No datagram is read more often than it was sent and copied. What is written to the
address in `remote_addr` goes back to where the datagram came from. -/
theorem datagrams_arrive (mem : ι → ByteMemory) (remoteAddr : ι → Ipv4.TransportAddr)
    (as : List (UdpAction ι)) :
    EveryState (step addr) (fun s ↦ (∀ w ∈ s.net.sent, Sends addr w) ∧
      (∀ r ∈ s.reads, Explained addr s.net.sent r) ∧ s.AnswersReturn addr ∧
      ∀ k, (s.reads.filterMap UdpRead.datagram).count k ≤ s.net.copied.count k + 1)
      (start mem remoteAddr) as ∧
    EveryStep (step addr) (Frame addr) (start mem remoteAddr) as := by
  constructor
  · have hinv : EveryState (step addr) (Inv addr) (start mem remoteAddr) as :=
      everyState_of_invariant (fun _ _ _ h hstep ↦ h.step hstep) (inv_start mem remoteAddr)
    refine hinv.mono fun s h ↦ ⟨h.sent, h.reads, h.answersReturn, fun k ↦ ?_⟩
    rw [← h.delivered]
    exact (Nat.le_add_right _ _).trans (h.net.count k)
  · exact fun _ a _ s _ _ ↦ frame s a

/-- `127.0.0.1:80`, and another port there. -/
def localPorts (t : Bool) : Ipv4.TransportAddr :=
  ⟨⟨[127, 0, 0, 1], rfl⟩, if t then 80 else 8080⟩

/-- Three bytes are written and copied on the way; they are read once in full and once as far as
there is room, and then there is a time-out. -/
def copiedDatagram : List (UdpAction Bool) :=
  [.write false [1, 2, 3] (localPorts true) true, .copy 0, .read true 16 8 none (some 0),
    .read true 32 2 (some 1) (some 0), .read true 16 8 (some 0) none]

/-- The first two reads report the writer. -/
theorem datagrams_arrive_copied :
    ∃ s, run (step localPorts) (start (fun _ _ ↦ 0) localPorts) copiedDatagram = some s ∧
      s.reads.map (fun r ↦ (r.ret, r.remoteAddr, r.data)) =
        [(.ok 3, localPorts false, [1, 2, 3]), (.ok 2, localPorts false, [1, 2]),
          (.error .socketTimedoutError, localPorts false, [])] ∧
      s.AnswersReturn localPorts ∧
      ∀ k, (s.reads.filterMap UdpRead.datagram).count k ≤ s.net.copied.count k + 1 := by
  have hrun : run (step localPorts) (start (fun _ _ ↦ 0) localPorts) copiedDatagram = some _ := rfl
  obtain ⟨-, -, hanswers, hcount⟩ :=
    (datagrams_arrive (fun _ _ ↦ 0) localPorts copiedDatagram).1.last hrun
  exact ⟨_, hrun, rfl, hanswers, hcount⟩

end UdpSys

end Libk2
