import Libk2.Timing.Timestamp
import Mathlib.Tactic.Linarith

/-!
# The times that reach the system

A span is handed to the system in seconds and a rest (`select`, through `timeval`), as is a
timestamp (`pthread_cond_timedwait`, through `timespec`), or in one number (`usleep`, `Sleep`). On
the way the seconds and the milliseconds are narrowed to 32 bits, the seconds may become a signed
number of 32 bits, and the microseconds are narrowed after they have been multiplied.

`size_t` and `time_t` have 32 or 64 bits each. What is below the second never gets lost; the rest is
right up to a bound, another one at each place (`fullTime_iff`).
-/

namespace Libk2

/-- The width of an integer type of the system. -/
inductive WordSize where
  | w32
  | w64
deriving DecidableEq

/-- In bits. -/
def WordSize.bits : WordSize → ℕ
  | .w32 => 32
  | .w64 => 64

/-- The systems that libk2 has a body for. -/
inductive Os where
  | posix
  | windows
deriving DecidableEq

/-- `uint32_t` to `time_t`, which is signed. -/
def toTimeT (timeT : WordSize) (sec : UInt32) : ℤ := (BitVec.ofNat timeT.bits sec.toNat).toInt

/-- `struct timeval`. -/
structure Timeval where
  sec : ℤ
  usec : ℤ
deriving DecidableEq

/-- `struct timespec`. -/
structure Timespec where
  sec : ℤ
  nsec : ℤ
deriving DecidableEq

/-- What `socket_wait` and `socket_wait2` set up for `select`. -/
def socketWaitTimeval (timeT : WordSize) (timeout : TimeSpan) : Timeval :=
  ⟨toTimeT timeT timeout.inSec, (timeout.msecOfSec.toNat : ℤ) * 1000⟩

/-- What `cond_var::wait` sets up for `pthread_cond_timedwait`. -/
def condVarWaitTimespec (timeT : WordSize) (timer : Timestamp) : Timespec :=
  ⟨toTimeT timeT timer.inSec, (timer.msecOfSec.toNat : ℤ) * 1000 * 1000⟩

/-- The system call of `os_msleep`. -/
inductive SleepCall where
  | usleep (usec : BitVec 32)
  | sleep (msec : BitVec 32)
deriving DecidableEq

/-- For how many microseconds; `Sleep(INFINITE)` is for ever. -/
def SleepCall.usec : SleepCall → Option ℕ
  | usleep usec => some usec.toNat
  | sleep msec => if msec.toNat = 2 ^ 32 - 1 then none else some (msec.toNat * 1000)

/-- `os_msleep`. -/
def osMsleep (os : Os) (sizeT : WordSize) (msec : BitVec sizeT.bits) : SleepCall :=
  match os with
  | .posix => .usleep ((msec * BitVec.ofNat sizeT.bits 1000).setWidth 32)
  | .windows => .sleep (msec.setWidth 32)

/-- `thread::sleep`, for a span. -/
def threadSleep (os : Os) (sizeT : WordSize) (span : TimeSpan) : SleepCall :=
  osMsleep os sizeT (BitVec.ofNat sizeT.bits span.inMsec.toUInt32.toNat)

/-! ### Seconds -/

theorem toNat_msecOfSec (msec : UInt64) :
    (msec % oneThousand).toUInt16.toNat = msec.toNat % 1000 := by
  rw [UInt64.toNat_toUInt16, UInt64.toNat_mod, show oneThousand.toNat = 1000 from rfl]
  omega

theorem toNat_inSec (msec : UInt64) :
    (msec / oneThousand).toUInt32.toNat = msec.toNat / 1000 % 2 ^ 32 := by
  rw [UInt64.toNat_toUInt32, UInt64.toNat_div]
  rfl

/-- From here on the seconds come out wrong. -/
def WordSize.endOfSeconds : WordSize → ℕ
  | .w32 => 2 ^ 31
  | .w64 => 2 ^ 32

theorem toTimeT_eq_iff (timeT : WordSize) (msec : UInt64) :
    toTimeT timeT (msec / oneThousand).toUInt32 = (msec.toNat / 1000 : ℕ) ↔
      msec.toNat / 1000 < timeT.endOfSeconds := by
  rw [toTimeT, toNat_inSec, BitVec.toInt_eq_toNat_cond, BitVec.toNat_ofNat]
  cases timeT with
  | w32 =>
    simp only [WordSize.bits, WordSize.endOfSeconds]
    omega
  | w64 =>
    simp only [WordSize.bits, WordSize.endOfSeconds]
    omega

theorem WordSize.endOfSeconds_le (timeT : WordSize) : timeT.endOfSeconds ≤ 2 ^ 32 := by
  cases timeT <;> decide

/-- `in_sec` and `msec_of_sec` make up the whole. -/
theorem parts_of_lt {msec : UInt64} (h : msec.toNat / 1000 < 2 ^ 32) :
    (msec / oneThousand).toUInt32.toNat * 1000 + (msec % oneThousand).toUInt16.toNat =
      msec.toNat := by
  rw [toNat_inSec, toNat_msecOfSec]
  omega

/-- What is below the second, counted in `unit` parts of a millisecond, next to the seconds. -/
theorem seconds_and_rest_iff {unit second : ℤ} (hunit : 0 < unit) (hsecond : second = 1000 * unit)
    (timeT : WordSize) (msec : UInt64) :
    toTimeT timeT (msec / oneThousand).toUInt32 * second +
        ((msec % oneThousand).toUInt16.toNat : ℤ) * unit = msec.toNat * unit ↔
      msec.toNat / 1000 < timeT.endOfSeconds := by
  have hmsec : (msec.toNat : ℤ) = (msec.toNat / 1000 : ℕ) * 1000 + (msec.toNat % 1000 : ℕ) := by
    omega
  -- the rest is the same on both sides, so only the seconds count
  rw [← toTimeT_eq_iff, toNat_msecOfSec, hmsec, hsecond, ← mul_assoc, ← add_mul,
    mul_left_inj' hunit.ne']
  omega

theorem rest_lt (msec : UInt64) : (msec % oneThousand).toUInt16.toNat < 1000 := by
  rw [toNat_msecOfSec]
  exact Nat.mod_lt _ (by norm_num)

/-! ### Sleeping -/

/-- From here on the system is asked for another time. -/
def Os.endOfSleep : Os → ℕ
  | .posix => 2 ^ 32
  | .windows => (2 ^ 32 - 1) * 1000

theorem WordSize.thirtyTwo_le_bits (sizeT : WordSize) : 32 ≤ sizeT.bits := by
  cases sizeT <;> decide

/-- Narrowing forgets how wide the word was. -/
theorem toNat_setWidth_ofNat {w : ℕ} (hw : 32 ≤ w) (a : ℕ) :
    ((BitVec.ofNat w a).setWidth 32).toNat = a % 2 ^ 32 := by
  rw [BitVec.toNat_setWidth, BitVec.toNat_ofNat, Nat.mod_mod_of_dvd _ (Nat.pow_dvd_pow 2 hw)]

theorem usec_threadSleep_iff (os : Os) (sizeT : WordSize) (span : TimeSpan) :
    (threadSleep os sizeT span).usec = some (span.msec.toNat * 1000) ↔
      span.msec.toNat * 1000 < os.endOfSleep := by
  have hmsec : span.inMsec.toUInt32.toNat = span.msec.toNat % 2 ^ 32 := UInt64.toNat_toUInt32 _
  rw [threadSleep, hmsec]
  cases os with
  | posix =>
    rw [osMsleep, SleepCall.usec, Option.some_inj, ← BitVec.ofNat_mul,
      toNat_setWidth_ofNat sizeT.thirtyTwo_le_bits, Os.endOfSleep]
    omega
  | windows =>
    rw [osMsleep, SleepCall.usec, toNat_setWidth_ofNat sizeT.thirtyTwo_le_bits, Os.endOfSleep]
    split
    · -- `INFINITE`, from a span that is not infinite
      exact iff_of_false nofun (by omega)
    · rw [Option.some_inj]
      omega

/-! ### All the times -/

/-- The whole time reaches the system: `d`, in a call that waits for a span, and `t`, in one that
waits until a timestamp. -/
structure FullTime (os : Os) (sizeT timeT : WordSize) (d : TimeSpan) (t : Timestamp) : Prop where
  span_parts : d.inSec.toNat * 1000 + d.msecOfSec.toNat = d.inMsec.toNat
  stamp_parts : t.inSec.toNat * 1000 + t.msecOfSec.toNat = t.inMsec.toNat
  timeval : (socketWaitTimeval timeT d).sec * 1000000 + (socketWaitTimeval timeT d).usec =
    d.inMsec.toNat * 1000
  usec : 0 ≤ (socketWaitTimeval timeT d).usec ∧ (socketWaitTimeval timeT d).usec < 1000000
  timespec : (condVarWaitTimespec timeT t).sec * 1000000000 + (condVarWaitTimespec timeT t).nsec =
    t.inMsec.toNat * 1000000
  nsec : 0 ≤ (condVarWaitTimespec timeT t).nsec ∧ (condVarWaitTimespec timeT t).nsec < 1000000000
  sleep : (threadSleep os sizeT d).usec = some (d.inMsec.toNat * 1000)

/-- **The condition.** The seconds fit in 32 bits and in `time_t`; the microseconds of the span fit
in 32 bits, or, where the system counts milliseconds, those do and are not `INFINITE`. -/
structure ShortEnough (os : Os) (timeT : WordSize) (d : TimeSpan) (t : Timestamp) : Prop where
  span : d.inMsec.toNat / 1000 < timeT.endOfSeconds
  stamp : t.inMsec.toNat / 1000 < timeT.endOfSeconds
  sleep : d.inMsec.toNat * 1000 < os.endOfSleep

/-- **The whole time reaches the system** exactly if it is short enough. -/
theorem fullTime_iff (os : Os) (sizeT timeT : WordSize) (d : TimeSpan) (t : Timestamp) :
    FullTime os sizeT timeT d t ↔ ShortEnough os timeT d t := by
  have hspan := seconds_and_rest_iff (by norm_num) (by norm_num : (1000000 : ℤ) = 1000 * 1000)
    timeT d.msec
  have hstamp := seconds_and_rest_iff (by norm_num)
    (by norm_num : (1000000000 : ℤ) = 1000 * 1000000) timeT t.msec
  have hnsec : (condVarWaitTimespec timeT t).nsec = (t.msecOfSec.toNat : ℤ) * 1000000 :=
    mul_assoc _ _ _
  have hd : d.msecOfSec.toNat < 1000 := rest_lt d.msec
  have ht : t.msecOfSec.toNat < 1000 := rest_lt t.msec
  have hle := timeT.endOfSeconds_le
  constructor
  · intro h
    have htimespec := h.timespec
    rw [hnsec] at htimespec
    exact ⟨hspan.1 h.timeval, hstamp.1 htimespec, (usec_threadSleep_iff os sizeT d).1 h.sleep⟩
  · intro h
    refine ⟨parts_of_lt (h.span.trans_le hle), parts_of_lt (h.stamp.trans_le hle), hspan.2 h.span,
      ?_, ?_, ?_, (usec_threadSleep_iff os sizeT d).2 h.sleep⟩
    · show 0 ≤ (d.msecOfSec.toNat : ℤ) * 1000 ∧ (d.msecOfSec.toNat : ℤ) * 1000 < 1000000
      omega
    · rw [hnsec]
      exact hstamp.2 h.stamp
    · rw [hnsec]
      omega

/-- **An hour and a quarter**, as one call of `usleep`, is over in a few minutes. -/
theorem long_sleep_is_cut_short : ¬ ∀ os sizeT timeT d t, FullTime os sizeT timeT d t := by
  intro hall
  exact absurd (hall .posix .w64 .w64 ⟨4500000⟩ ⟨0⟩).sleep (by decide)

end Libk2
