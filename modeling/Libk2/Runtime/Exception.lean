import Libk2.Foundation.CString

/-!
# Exceptions and their messages

`exception` copies its message into a buffer of `max_what + 1` characters; the other exceptions pass
theirs on to it. The bound of the copy is `sizeof(what)`, and `what` is a pointer. So as many
characters are kept as a pointer has bytes (`kept_iff`), and none of the default messages is that
short (`not_kept_defaultWhat`).
-/

namespace Libk2

namespace Exception

/-- `exception::max_what`. -/
def maxWhat : ℕ := 255

/-- `m_what`. -/
abbrev WhatBuffer := Fin (maxWhat + 1) → UInt8

/-! ### The constructors

Each of them gets the buffer as it is when the object is allocated, and the message. `sizeofWhat` is
the size of a pointer; one of more than `max_what` bytes makes them write behind the buffer, and
then there is no result. -/

section Constructors

variable (sizeofWhat : ℕ) (mWhat : WhatBuffer) (what : CString)

/-- `exception::exception`. -/
def exception : Option WhatBuffer :=
  (CString.strncpy mWhat what sizeofWhat).bind fun mWhat ↦ CString.store mWhat sizeofWhat 0

/-- `timedout_error::timedout_error`. -/
def timedoutError : Option WhatBuffer := exception sizeofWhat mWhat what

/-- `bad_resource_alloc::bad_resource_alloc`. -/
def badResourceAlloc : Option WhatBuffer := exception sizeofWhat mWhat what

/-- `critical_error::critical_error`. -/
def criticalError : Option WhatBuffer := exception sizeofWhat mWhat what

/-- `thread_error::thread_error`. -/
def threadError : Option WhatBuffer := exception sizeofWhat mWhat what

/-- `runtime_error::runtime_error`. -/
def runtimeError : Option WhatBuffer := exception sizeofWhat mWhat what

/-- `socket_accept_error::socket_accept_error`. -/
def socketAcceptError : Option WhatBuffer := badResourceAlloc sizeofWhat mWhat what

/-- `socket_open_error::socket_open_error`. -/
def socketOpenError : Option WhatBuffer := badResourceAlloc sizeofWhat mWhat what

/-- `socket_bind_error::socket_bind_error`. -/
def socketBindError : Option WhatBuffer := runtimeError sizeofWhat mWhat what

/-- `socket_connect_error::socket_connect_error`. -/
def socketConnectError : Option WhatBuffer := runtimeError sizeofWhat mWhat what

/-- `socket_timedout_error::socket_timedout_error`. -/
def socketTimedoutError : Option WhatBuffer := timedoutError sizeofWhat mWhat what

/-- `socket_connection_error::socket_connection_error`. -/
def socketConnectionError : Option WhatBuffer := runtimeError sizeofWhat mWhat what

end Constructors

/-- `exception` and the classes derived from it. -/
inductive Class where
  | exception
  | timedoutError
  | badResourceAlloc
  | criticalError
  | threadError
  | runtimeError
  | socketAcceptError
  | socketOpenError
  | socketBindError
  | socketConnectError
  | socketTimedoutError
  | socketConnectionError
deriving DecidableEq

namespace Class

/-- The constructor. -/
def construct : Class → ℕ → WhatBuffer → CString → Option WhatBuffer
  | exception => Exception.exception
  | timedoutError => Exception.timedoutError
  | badResourceAlloc => Exception.badResourceAlloc
  | criticalError => Exception.criticalError
  | threadError => Exception.threadError
  | runtimeError => Exception.runtimeError
  | socketAcceptError => Exception.socketAcceptError
  | socketOpenError => Exception.socketOpenError
  | socketBindError => Exception.socketBindError
  | socketConnectError => Exception.socketConnectError
  | socketTimedoutError => Exception.socketTimedoutError
  | socketConnectionError => Exception.socketConnectionError

/-- The default argument of the constructor. -/
def defaultWhat : Class → CString
  | exception => .literal "exception"
  | timedoutError => .literal "timedout_error"
  | badResourceAlloc => .literal "bad_resource_alloc"
  | criticalError => .literal "critical_error"
  | threadError => .literal "thread_error"
  | runtimeError => .literal "runtime_error"
  | socketAcceptError => .literal "k2::socket_accept_error"
  | socketOpenError => .literal "k2::socket_open_error"
  | socketBindError => .literal "k2::socket_bind_error"
  | socketConnectError => .literal "k2::socket_connect_error"
  | socketTimedoutError => .literal "k2::socket_timedout_error"
  | socketConnectionError => .literal "k2::socket_connection_error"

end Class

/-! ### What is kept -/

section Kept

variable (sizeofWhat : ℕ) (c : Class) (mWhat : WhatBuffer) (what : CString)

/-- `what()` is the message up to `max_what` characters, zero-terminated inside the buffer, and
nothing has been written behind that. -/
def Kept : Prop := ∃ mWhat', c.construct sizeofWhat mWhat what = some mWhat' ∧
  CString.Holds mWhat' (what.take maxWhat)

/-- All of them construct the base. -/
theorem construct_eq : c.construct sizeofWhat mWhat what = exception sizeofWhat mWhat what := by
  cases c <;> rfl

/-- **What `what()` is**: as many characters of the message as a pointer has bytes, if it is no
larger than the buffer. -/
theorem holds_construct_iff {s : CString} : (∃ mWhat', c.construct sizeofWhat mWhat what =
    some mWhat' ∧ CString.Holds mWhat' s) ↔ sizeofWhat ≤ maxWhat ∧ s = what.take sizeofWhat := by
  rw [construct_eq, exception, CString.holds_store_strncpy_iff, Nat.lt_succ_iff]

/-- **A message is kept** exactly if it has no more characters than a pointer has bytes, and that no
more than there is room for; or if `sizeof(what)` happens to be `max_what`. -/
theorem kept_iff : Kept sizeofWhat c mWhat what ↔
    sizeofWhat = maxWhat ∨ (what.chars.length ≤ sizeofWhat ∧ sizeofWhat ≤ maxWhat) := by
  rw [Kept, holds_construct_iff, CString.take_eq_take_iff, maxWhat]
  omega

/-- No default message is kept, where a pointer has up to eight bytes. -/
theorem not_kept_defaultWhat (h : sizeofWhat ≤ 8) : ¬ Kept sizeofWhat c mWhat c.defaultWhat := by
  have hlong : 8 < c.defaultWhat.chars.length := by
    cases c <;> decide
  rw [Kept, holds_construct_iff, CString.take_eq_take_iff, maxWhat]
  omega

end Kept

/-- **The message of `socket_timedout_error`** is `k2::sock`, where a pointer has eight bytes. -/
theorem message_is_cut_short : ¬ ∀ sizeofWhat c mWhat what, Kept sizeofWhat c mWhat what := by
  intro hall
  have hkept := hall 8 .socketTimedoutError (fun _ ↦ 0) (.literal "k2::socket_timedout_error")
  exact not_kept_defaultWhat 8 .socketTimedoutError _ (Nat.le_refl 8) hkept

end Exception

end Libk2
