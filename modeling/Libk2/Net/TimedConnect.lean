import Libk2.Timing.WaitTimes

/-!
# Connecting with a timeout

`transport_connect` makes the socket non-blocking, calls `connect`, and if that is in progress waits
for the socket to become writable. Then the POSIX branch asks for the pending error, and the Windows
branch calls `connect` again and compares what it returns with `EISCONN`, which is an error code. So
a connection that comes up during the wait is an error there. On either system the wait may be too
short, since the seconds of the timeout are narrowed on their way to `select`
(`connectsWhenUp_iff`).

What the system does is a `ConnectScript`, which says when the connection comes up, and what its
calls answer has to follow it: `select` waits for the time in its `timeval`. A call that fails on
Windows leaves its code to be translated by `socket_errno::get_last`.
-/

namespace Libk2

namespace TimedConnect

/-- What the headers of the system define. -/
structure Headers where
  einprogress : ℤ
  eagain : ℤ
  oNonblock : BitVec 32

/-! ### The socket -/

/-- A socket: its file status flags, and whether `FIONBIO` is on. -/
structure Socket where
  flags : BitVec 32
  fionbio : Bool
deriving DecidableEq

/-- `socket_set_nb`, where `fcntl` and `ioctlsocket` succeed. -/
def socketSetNb (os : Os) (hdr : Headers) (nb : Bool) (s : Socket) : Socket :=
  match os with
  | .posix =>
    if s.flags ≠ -1 && nb then { s with flags := s.flags ||| hdr.oNonblock }
    else { s with flags := s.flags &&& ~~~hdr.oNonblock }
  | .windows => { s with fionbio := nb }

/-- In blocking mode. -/
def Socket.Blocking (os : Os) (hdr : Headers) (s : Socket) : Prop :=
  match os with
  | .posix => s.flags &&& hdr.oNonblock = 0
  | .windows => s.fionbio = false

/-! ### Error codes -/

/-- `WSAEWOULDBLOCK`. -/
def wsaewouldblock : ℤ := 10035

/-- `EISCONN` on Windows, which is also `WSAEISCONN`. -/
def eisconn : ℤ := 10056

/-- `WSAEACCES`, `WSAEFAULT`, `WSAEINTR`, `WSAEINVAL` and `WSAEMFILE`. -/
def wsaCommon : List ℤ := [10013, 10014, 10004, 10022, 10024]

/-- `socket_errno::get_last`, when the last error is `err`. -/
def getLast (os : Os) (hdr : Headers) (err : ℤ) : ℤ :=
  match os with
  | .posix => err
  | .windows =>
    if err ∈ wsaCommon then err - 10000 else if err = wsaewouldblock then hdr.eagain else err

/-- `connect_in_progress`. `EWOULDBLOCK` is `EAGAIN` on Windows. -/
def connectInProgress (os : Os) (hdr : Headers) : ℤ :=
  match os with
  | .posix => hdr.einprogress
  | .windows => hdr.eagain

/-- The code that the system itself gives to a connection in progress. -/
def inProgressCode (os : Os) (hdr : Headers) : ℤ :=
  match os with
  | .posix => hdr.einprogress
  | .windows => wsaewouldblock

theorem getLast_inProgressCode (os : Os) (hdr : Headers) :
    getLast os hdr (inProgressCode os hdr) = connectInProgress os hdr := by
  cases os with
  | posix => rfl
  | windows => rfl

/-! ### The call -/

/-- What a system call answers: what it returns, and the error code, or the error of the socket. -/
structure Answer where
  ret : ℤ
  code : ℤ
deriving DecidableEq

/-- What the system calls answer; `reconnect` is the second `connect`. -/
structure Answers where
  connect : Answer
  select : Timeval → ℤ
  getsockopt : Answer
  reconnect : Answer

/-- How `transport_connect` ends. -/
inductive Outcome where
  | returned
  | socketConnectError
deriving DecidableEq

/-- `socket_wait`, for writing. -/
def socketWait (timeT : WordSize) (a : Answers) (timeout : TimeSpan) : Bool :=
  !decide (a.select (socketWaitTimeval timeT timeout) < 1)

/-- Whether the connection has come up, once the wait is over. -/
def completed (os : Os) (a : Answers) : Outcome :=
  match os with
  | .posix =>
    if a.getsockopt.ret ≠ 0 then .socketConnectError
    else if a.getsockopt.code ≠ 0 then .socketConnectError
    else .returned
  | .windows => if a.reconnect.ret ≠ eisconn then .socketConnectError else .returned

/-- The body of `transport_connect`, in the scope of `nb`. -/
def connectBody (os : Os) (hdr : Headers) (timeT : WordSize) (a : Answers) (timeout : TimeSpan) :
    Outcome :=
  if a.connect.ret = -1 then
    if getLast os hdr a.connect.code ≠ connectInProgress os hdr then .socketConnectError
    else if socketWait timeT a timeout = false then .socketConnectError
    else completed os a
  else .returned

/-- `transport_connect`, with a timeout. The destructor of `nb` runs however the body ends. -/
def transportConnect (os : Os) (hdr : Headers) (timeT : WordSize) (a : Answers)
    (timeout : TimeSpan) (s : Socket) : Outcome × Socket :=
  (connectBody os hdr timeT a timeout, socketSetNb os hdr false (socketSetNb os hdr true s))

/-! ### What the system does -/

/-- What the system does about the connection. -/
inductive ConnectScript where
  | atOnce
  | failsAtOnce (code : ℤ)
  /-- In progress, and then established, after so many microseconds of waiting. -/
  | established (after : ℕ)
  /-- In progress, and then refused in time. -/
  | refused (code : ℤ)
  /-- Still in progress when the wait ends. -/
  | pending
deriving DecidableEq

/-- The connection is up within the timeout. -/
def ConnectScript.Up (timeout : TimeSpan) : ConnectScript → Prop
  | .atOnce => True
  | .established after => after ≤ timeout.inMsec.toNat * 1000
  | _ => False

/-- A `select` with this `timeval` is still waiting after so many microseconds. It refuses a
negative number of seconds. -/
def Reaches (tv : Timeval) (after : ℕ) : Prop :=
  0 ≤ tv.sec ∧ (after : ℤ) ≤ tv.sec * 1000000 + tv.usec

instance (tv : Timeval) (after : ℕ) : Decidable (Reaches tv after) :=
  inferInstanceAs (Decidable (_ ∧ _))

/-- The answers are those of a system that follows the script. -/
def Answers.Follow (os : Os) (hdr : Headers) (a : Answers) : ConnectScript → Prop
  | .atOnce => a.connect.ret = 0
  | .failsAtOnce code => a.connect = ⟨-1, code⟩ ∧ code ≠ inProgressCode os hdr ∧
      (a.reconnect.ret = 0 ∨ a.reconnect.ret = -1)
  | .established after => a.connect = ⟨-1, inProgressCode os hdr⟩ ∧
      (∀ tv, 1 ≤ a.select tv ↔ Reaches tv after) ∧
      a.getsockopt = ⟨0, 0⟩ ∧ a.reconnect = ⟨-1, eisconn⟩
  | .refused code => a.connect = ⟨-1, inProgressCode os hdr⟩ ∧ code ≠ 0 ∧
      (a.getsockopt.ret = 0 → a.getsockopt.code = code) ∧
      (a.reconnect.ret = 0 ∨ a.reconnect.ret = -1)
  | .pending => a.connect = ⟨-1, inProgressCode os hdr⟩ ∧ ∀ tv, a.select tv < 1

/-- The call returns exactly if the connection is up, and leaves the socket in blocking mode. -/
structure ConnectsWhenUp (os : Os) (hdr : Headers) (timeT : WordSize) (script : ConnectScript)
    (a : Answers) (timeout : TimeSpan) (s : Socket) : Prop where
  returned : (transportConnect os hdr timeT a timeout s).1 = .returned ↔ script.Up timeout
  threw : (transportConnect os hdr timeT a timeout s).1 = .socketConnectError ↔ ¬ script.Up timeout
  blocking : (transportConnect os hdr timeT a timeout s).2.Blocking os hdr

/-- The timeout is still running after so many microseconds when its seconds have been narrowed to
32 bits, and these are not negative as a `time_t`. -/
structure SelectWaits (timeT : WordSize) (timeout : TimeSpan) (after : ℕ) : Prop where
  sec_lt : timeout.inMsec.toNat / 1000 % 2 ^ 32 < timeT.endOfSeconds
  le : after ≤
    (timeout.inMsec.toNat / 1000 % 2 ^ 32 * 1000 + timeout.inMsec.toNat % 1000) * 1000

/-- **The condition.** If the connection comes up during the wait, and in time, the system is a
POSIX one, and the wait is long enough. -/
def SeenComingUp (os : Os) (timeT : WordSize) (timeout : TimeSpan) : ConnectScript → Prop
  | .established after => after ≤ timeout.inMsec.toNat * 1000 →
      os = .posix ∧ SelectWaits timeT timeout after
  | _ => True

/-! ### The socket afterwards -/

/-- **Blocking mode is back**, whatever the mode was. -/
theorem blocking_transportConnect (os : Os) (hdr : Headers) (timeT : WordSize) (a : Answers)
    (timeout : TimeSpan) (s : Socket) :
    (transportConnect os hdr timeT a timeout s).2.Blocking os hdr := by
  cases os with
  | posix =>
    have hclear : ∀ flags : BitVec 32, flags &&& ~~~hdr.oNonblock &&& hdr.oNonblock = 0 := by
      intro flags
      rw [BitVec.and_assoc, BitVec.and_comm (~~~hdr.oNonblock), BitVec.and_not_self]
      exact BitVec.and_zero
    simp only [transportConnect, Socket.Blocking, socketSetNb, Bool.and_false, Bool.false_eq_true,
      if_false]
    exact hclear _
  | windows => rfl

/-! ### The outcome -/

section Outcome

variable {os : Os} {hdr : Headers} {timeT : WordSize} {a : Answers} {timeout : TimeSpan}

theorem Outcome.eq_socketConnectError_iff {o : Outcome} :
    o = .socketConnectError ↔ ¬ o = .returned := by
  cases o with
  | returned => exact iff_of_false nofun (fun h ↦ h rfl)
  | socketConnectError => exact iff_of_true rfl nofun

/-- Behind a connection in progress, the wait and the check decide. -/
theorem connectBody_of_inProgress (h : a.connect = ⟨-1, inProgressCode os hdr⟩) :
    connectBody os hdr timeT a timeout =
      if socketWait timeT a timeout = false then .socketConnectError else completed os a := by
  rw [connectBody, h, if_pos rfl, getLast_inProgressCode, if_neg (fun hne ↦ hne rfl)]

theorem completed_posix_eq_iff :
    completed .posix a = .returned ↔ a.getsockopt.ret = 0 ∧ a.getsockopt.code = 0 := by
  rw [completed]
  split
  · next hret => exact iff_of_false nofun (fun h ↦ hret h.1)
  · next hret =>
    split
    · next hcode => exact iff_of_false nofun (fun h ↦ hcode h.2)
    · next hcode => exact iff_of_true rfl ⟨not_not.1 hret, not_not.1 hcode⟩

/-- `connect` does not return an error code. -/
theorem completed_windows (h : a.reconnect.ret = 0 ∨ a.reconnect.ret = -1) :
    completed .windows a = .socketConnectError := by
  refine if_pos fun heq ↦ ?_
  rw [heq] at h
  exact absurd h (by decide)

/-- A connection that fails at once, or is refused, is an error. -/
theorem connectBody_of_failsAtOnce {code : ℤ} (h : a.Follow os hdr (.failsAtOnce code)) :
    connectBody os hdr timeT a timeout = .socketConnectError := by
  obtain ⟨hconnect, hcode, hreconnect⟩ := h
  rw [connectBody, hconnect, if_pos rfl]
  cases os with
  | posix => exact if_pos hcode
  | windows =>
    -- the translation may take the code for `EWOULDBLOCK`; then the second `connect` is the error
    rw [completed_windows hreconnect]
    split <;> simp

theorem connectBody_of_refused {code : ℤ} (h : a.Follow os hdr (.refused code)) :
    connectBody os hdr timeT a timeout = .socketConnectError := by
  obtain ⟨hconnect, hcode, hpending, hreconnect⟩ := h
  have hcompleted : completed os a = .socketConnectError := by
    cases os with
    | posix =>
      rw [Outcome.eq_socketConnectError_iff, completed_posix_eq_iff]
      exact fun hno ↦ hcode ((hpending hno.1).symm.trans hno.2)
    | windows => exact completed_windows hreconnect
  rw [connectBody_of_inProgress hconnect, hcompleted]
  exact ite_self _

theorem connectBody_of_pending (h : a.Follow os hdr .pending) :
    connectBody os hdr timeT a timeout = .socketConnectError := by
  obtain ⟨hconnect, hselect⟩ := h
  rw [connectBody_of_inProgress hconnect, socketWait, decide_eq_true (hselect _)]
  rfl

/-- What `select` is given. -/
theorem reaches_socketWaitTimeval_iff (timeT : WordSize) (timeout : TimeSpan) (after : ℕ) :
    Reaches (socketWaitTimeval timeT timeout) after ↔ SelectWaits timeT timeout after := by
  have hsec : timeout.inSec.toNat = timeout.inMsec.toNat / 1000 % 2 ^ 32 := toNat_inSec timeout.msec
  have hrest : timeout.msecOfSec.toNat = timeout.inMsec.toNat % 1000 :=
    toNat_msecOfSec timeout.msec
  have hparts : SelectWaits timeT timeout after ↔ _ ∧ _ := ⟨fun h ↦ ⟨h.1, h.2⟩, fun h ↦ ⟨h.1, h.2⟩⟩
  rw [hparts, Reaches, socketWaitTimeval, toTimeT, hsec, hrest, BitVec.toInt_eq_toNat_cond,
    BitVec.toNat_ofNat]
  generalize timeout.inMsec.toNat = n
  cases timeT with
  | w32 =>
    simp only [WordSize.bits, WordSize.endOfSeconds]
    omega
  | w64 =>
    simp only [WordSize.bits, WordSize.endOfSeconds]
    omega

/-- A timeout whose seconds are not narrowed is waited for. -/
theorem selectWaits_of_lt {after : ℕ} (h : timeout.inMsec.toNat / 1000 < timeT.endOfSeconds)
    (hafter : after ≤ timeout.inMsec.toNat * 1000) : SelectWaits timeT timeout after := by
  have hle := timeT.endOfSeconds_le
  have hsec : timeout.inMsec.toNat / 1000 % 2 ^ 32 = timeout.inMsec.toNat / 1000 :=
    Nat.mod_eq_of_lt (h.trans_le hle)
  exact ⟨hsec.symm ▸ h, by rwa [hsec, Nat.div_add_mod']⟩

/-- The wait is never longer than the timeout. -/
theorem SelectWaits.up {after : ℕ} (h : SelectWaits timeT timeout after) :
    after ≤ timeout.inMsec.toNat * 1000 := by
  refine h.le.trans (Nat.mul_le_mul_right 1000 ?_)
  have hmod := Nat.mod_le (timeout.inMsec.toNat / 1000) (2 ^ 32)
  omega

/-- Where the branches differ. -/
theorem connectBody_of_established {after : ℕ} (h : a.Follow os hdr (.established after)) :
    connectBody os hdr timeT a timeout = .returned ↔
      os = .posix ∧ SelectWaits timeT timeout after := by
  obtain ⟨hconnect, hselect, hsockopt, hreconnect⟩ := h
  rw [connectBody_of_inProgress hconnect, ← reaches_socketWaitTimeval_iff, ← hselect]
  by_cases hready : 1 ≤ a.select (socketWaitTimeval timeT timeout)
  · have hwait : socketWait timeT a timeout = true := by
      rw [socketWait, decide_eq_false (Int.not_lt.2 hready)]
      rfl
    rw [hwait, if_neg (by decide), and_iff_left hready]
    cases os with
    | posix => exact iff_of_true (completed_posix_eq_iff.2 (by rw [hsockopt]; exact ⟨rfl, rfl⟩)) rfl
    | windows =>
      rw [completed_windows (.inr (by rw [hreconnect]))]
      exact iff_of_false nofun nofun
  · have hwait : socketWait timeT a timeout = false := by
      rw [socketWait, decide_eq_true (Int.not_le.1 hready)]
      rfl
    rw [hwait, if_pos rfl]
    exact iff_of_false nofun fun h ↦ hready h.2

/-- What the body of the call comes to. -/
theorem connectBody_eq_returned_iff {script : ConnectScript} (h : a.Follow os hdr script) :
    connectBody os hdr timeT a timeout = .returned ↔
      script.Up timeout ∧ SeenComingUp os timeT timeout script := by
  cases script with
  | atOnce =>
    have hret : a.connect.ret = 0 := h
    rw [connectBody, hret]
    exact iff_of_true (if_neg (by decide)) ⟨trivial, trivial⟩
  | failsAtOnce code => exact iff_of_false (by rw [connectBody_of_failsAtOnce h]; nofun) And.left
  | established after =>
    rw [connectBody_of_established h]
    exact ⟨fun hseen ↦ ⟨hseen.2.up, fun _ ↦ hseen⟩, fun ⟨hup, hseen⟩ ↦ hseen hup⟩
  | refused code => exact iff_of_false (by rw [connectBody_of_refused h]; nofun) And.left
  | pending => exact iff_of_false (by rw [connectBody_of_pending h]; nofun) And.left

/-- What is not up has not been missed. -/
theorem seenComingUp_of_not_up {script : ConnectScript} (h : ¬ script.Up timeout) :
    SeenComingUp os timeT timeout script := by
  cases script with
  | established after => exact fun hafter ↦ absurd hafter h
  | _ => trivial

/-- **A timed connect returns exactly if the connection is up**, unless that comes up during the
wait and the system is Windows, or it does so when `select` has already stopped waiting. -/
theorem connectsWhenUp_iff {script : ConnectScript} (h : a.Follow os hdr script) (s : Socket) :
    ConnectsWhenUp os hdr timeT script a timeout s ↔ SeenComingUp os timeT timeout script := by
  have hbody : (transportConnect os hdr timeT a timeout s).1 = .returned ↔ _ :=
    connectBody_eq_returned_iff h
  constructor
  · intro hconnects
    by_cases hup : script.Up timeout
    · exact (hbody.1 (hconnects.returned.2 hup)).2
    · exact seenComingUp_of_not_up hup
  · intro hseen
    have hup : (transportConnect os hdr timeT a timeout s).1 = .returned ↔ script.Up timeout :=
      hbody.trans (and_iff_left hseen)
    exact ⟨hup, Outcome.eq_socketConnectError_iff.trans (not_congr hup),
      blocking_transportConnect os hdr timeT a timeout s⟩

/-- The answers about a connection that comes up after so many microseconds. -/
def slowAnswers (os : Os) (hdr : Headers) (after : ℕ) : Answers where
  connect := ⟨-1, inProgressCode os hdr⟩
  select tv := if Reaches tv after then 1 else 0
  getsockopt := ⟨0, 0⟩
  reconnect := ⟨-1, eisconn⟩

theorem follow_slowAnswers (os : Os) (hdr : Headers) (after : ℕ) :
    (slowAnswers os hdr after).Follow os hdr (.established after) := by
  refine ⟨rfl, fun tv ↦ ?_, rfl, rfl⟩
  show 1 ≤ (if Reaches tv after then 1 else 0 : ℤ) ↔ Reaches tv after
  split
  · next hreaches => exact iff_of_true (Int.le_refl 1) hreaches
  · next hreaches => exact iff_of_false (by decide) hreaches

/-- **A slow connection on POSIX**, of three seconds within five, is what the caller waits for. -/
theorem slow_connection_on_posix :
    ConnectsWhenUp .posix ⟨115, 11, 2048⟩ .w64 (.established 3000000)
      (slowAnswers .posix ⟨115, 11, 2048⟩ 3000000) ⟨5000⟩ ⟨2, false⟩ ∧
      (transportConnect .posix ⟨115, 11, 2048⟩ .w64
        (slowAnswers .posix ⟨115, 11, 2048⟩ 3000000) ⟨5000⟩ ⟨2, false⟩).1 = .returned :=
  ⟨(connectsWhenUp_iff (follow_slowAnswers ..) ⟨2, false⟩).2
    fun hafter ↦ ⟨rfl, selectWaits_of_lt (by decide) hafter⟩, by decide⟩

/-- **The same connection on Windows** is an error. -/
theorem slow_connection_on_windows :
    ¬ ∀ os hdr timeT script a timeout s, Answers.Follow os hdr a script →
      ConnectsWhenUp os hdr timeT script a timeout s := by
  intro hall
  have hconnects := hall .windows ⟨115, 11, 2048⟩ .w32 (.established 3000000) _ ⟨5000⟩ ⟨2, false⟩
    (follow_slowAnswers ..)
  exact absurd (hconnects.returned.2 (by decide : 3000000 ≤ 5000 * 1000)) (by decide)

/-- **A very long timeout**, of `2 ^ 32` seconds, is one of none, on POSIX as well. -/
theorem long_timeout_on_posix :
    ¬ ∀ hdr timeT script a timeout s, Answers.Follow .posix hdr a script →
      ConnectsWhenUp .posix hdr timeT script a timeout s := by
  intro hall
  have hconnects := hall ⟨115, 11, 2048⟩ .w64 (.established 5000000) _ ⟨4294967296000⟩ ⟨2, false⟩
    (follow_slowAnswers ..)
  exact absurd (hconnects.returned.2 (by decide : 5000000 ≤ 4294967296000 * 1000)) (by decide)

end Outcome

end TimedConnect

end Libk2
