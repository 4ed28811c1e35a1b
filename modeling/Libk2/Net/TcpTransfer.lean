import Libk2.Foundation.ByteMemory
import Libk2.Foundation.RoundLoop
import Libk2.Timing.Timestamp

/-!
# Transfers over TCP

`tcp_write` and `tcp_read` call `send` and `recv` once, and the `_all` functions call them until the
whole length has gone through: these are loops whose rounds take what the system returns there. The
timed ones wait for the socket before each round.

A `size_t` is a natural number here. No count passes the length of its buffer as long as `send` and
`recv` return at most what they are asked for, so nothing would wrap around; what they are asked for
does go through `socklen_t` (`request`).
-/

namespace Libk2

open RoundLoop

/-! ### One call -/

/-- `socket_timedout_error` and `socket_connection_error`. -/
inductive SocketError
  | timedout
  | connection
deriving DecidableEq

/-- How a call ends. -/
inductive CallEnd
  | returned (ret : ℕ)
  | threw (error : SocketError)
deriving DecidableEq

/-- `(socklen_t)bytes`. -/
def socklen (bytes : ℕ) : ℕ := bytes % 2 ^ 32

/-- The length that `send` or `recv` is called with when `bytesDone` bytes are done. -/
def request (bytes bytesDone : ℕ) : ℕ := socklen (bytes - bytesDone)

/-- `tcp_write`, where `send` returns `ret`: the bytes that are sent, and the result. `none` is -1,
and then `socket_connection_error`. -/
def tcpWrite (buf : List UInt8) (ret : Option ℕ) : List UInt8 × Option ℕ :=
  match ret with
  | none => ([], none)
  | some res => (buf.take res, some res)

/-- `tcp_read`, where `recv` gives `ret`. -/
def tcpRead (m : ByteMemory) (buf : ℕ) (ret : Option (List UInt8)) : ByteMemory × Option ℕ :=
  match ret with
  | none => (m, none)
  | some data => (m.storeBytes buf data, some data.length)

/-! ### The loops -/

/-- The body of `tcp_write_all`, over `bytes_done` and the bytes sent. -/
def tcpWriteAllRound (buf : List UInt8) (bytes : ℕ) :
    ℕ × List UInt8 → Option ℕ → Progress (ℕ × List UInt8) CallEnd
  | (bytesDone, sent), ret =>
    match tcpWrite (buf.drop bytesDone) ret with
    | (data, none) => .ended (bytesDone, sent ++ data) (.threw .connection)
    | (data, some res) =>
      if bytesDone + res = bytes then
        .ended (bytesDone + res, sent ++ data) (.returned bytes)
      else .more (bytesDone + res, sent ++ data)

/-- `tcp_write_all`. -/
def tcpWriteAll (buf : List UInt8) (bytes : ℕ) (rets : List (Option ℕ)) :
    Progress (ℕ × List UInt8) CallEnd :=
  loop (tcpWriteAllRound buf bytes) (0, []) rets

/-- The body of `tcp_read_all`, over `bytes_done` and the memory. -/
def tcpReadAllRound (buf bytes : ℕ) :
    ℕ × ByteMemory → Option (List UInt8) → Progress (ℕ × ByteMemory) CallEnd
  | (bytesDone, m), ret =>
    match tcpRead m (buf + bytesDone) ret with
    | (m', none) => .ended (bytesDone, m') (.threw .connection)
    | (m', some res) =>
      -- connection closed by peer
      if res = 0 then .ended (bytesDone, m') (.returned 0)
      else if bytesDone + res = bytes then .ended (bytesDone + res, m') (.returned bytes)
      else .more (bytesDone + res, m')

/-- `tcp_read_all`. -/
def tcpReadAll (buf bytes : ℕ) (m : ByteMemory) (rets : List (Option (List UInt8))) :
    Progress (ℕ × ByteMemory) CallEnd :=
  loop (tcpReadAllRound buf bytes) (0, m) rets

/-! ### Waiting -/

/-- What `select` returns. -/
inductive SelectRet
  | ready
  | timedOut
  | failed
deriving DecidableEq

/-- As an `int`. -/
def SelectRet.toInt : SelectRet → ℤ
  | ready => 1
  | timedOut => 0
  | failed => -1

/-- What `socket_wait2` gets from the system: what `select` returns and leaves in `tv`, and the
clock before and after. -/
structure Waited where
  ret : SelectRet
  tvSec : UInt64
  tvUsec : UInt64
  preWait : Timestamp
  now : Timestamp
deriving DecidableEq

/-- `socket_wait2`, for Linux and for the other systems: the result, and `timeout` afterwards. -/
def socketWait2 (linux : Bool) (w : Waited) (timeout : TimeSpan) : Bool × TimeSpan :=
  if w.ret.toInt < 1 then (false, ⟨0⟩)
  else if linux then (true, ⟨w.tvSec * 1000 + w.tvUsec / 1000⟩)
  else
    let waited := w.now.sub w.preWait
    if waited.gt timeout then (true, ⟨0⟩) else (true, timeout.subAssign waited)

/-- The body of the timed `tcp_write_all`. -/
def timedWriteAllRound (linux : Bool) (buf : List UInt8) (bytes : ℕ) :
    (ℕ × List UInt8) × TimeSpan → Waited × Option ℕ →
      Progress ((ℕ × List UInt8) × TimeSpan) CallEnd :=
  guarded (socketWait2 linux) (.threw .timedout) (tcpWriteAllRound buf bytes)

/-- The timed `tcp_write_all`. -/
def timedWriteAll (linux : Bool) (buf : List UInt8) (bytes : ℕ) (timeout : TimeSpan)
    (rounds : List (Waited × Option ℕ)) : Progress ((ℕ × List UInt8) × TimeSpan) CallEnd :=
  loop (timedWriteAllRound linux buf bytes) ((0, []), timeout) rounds

/-- The body of the timed `tcp_read_all`. -/
def timedReadAllRound (linux : Bool) (buf bytes : ℕ) :
    (ℕ × ByteMemory) × TimeSpan → Waited × Option (List UInt8) →
      Progress ((ℕ × ByteMemory) × TimeSpan) CallEnd :=
  guarded (socketWait2 linux) (.threw .timedout) (tcpReadAllRound buf bytes)

/-- The timed `tcp_read_all`. -/
def timedReadAll (linux : Bool) (buf bytes : ℕ) (timeout : TimeSpan) (m : ByteMemory)
    (rounds : List (Waited × Option (List UInt8))) :
    Progress ((ℕ × ByteMemory) × TimeSpan) CallEnd :=
  loop (timedReadAllRound linux buf bytes) ((0, m), timeout) rounds

/-! ### Lemmas -/

theorem socketWait2_fst {linux : Bool} {w : Waited} {timeout : TimeSpan} :
    (socketWait2 linux w timeout).1 = decide (w.ret = .ready) := by
  cases h : w.ret with
  | ready =>
    rw [socketWait2, h, if_neg (by decide)]
    dsimp only
    split_ifs <;> rfl
  | timedOut => rw [socketWait2, h, if_pos (by decide)]; rfl
  | failed => rw [socketWait2, h, if_pos (by decide)]; rfl

/-- A request below `2 ^ 32` is made in full. -/
theorem request_of_lt {bytes bytesDone : ℕ} (h : bytes < 2 ^ 32) :
    request bytes bytesDone = bytes - bytesDone := by
  rw [request, socklen, Nat.mod_eq_of_lt (by omega)]

end Libk2
