import Libk2.Foundation.MonitorProgram

/-!
# Threads

One `thread_cntx` and the parties that use it: the spawner, in `spawn_impl`; the spawned thread, in
`pthread_entry_wrapper` and, from its entry function, in `test_cancel` and `cancel_enabled`; and,
once the constructor of an attached `thread` has returned, any number of callers of `cancel`,
`join`, the timed `join` and `~thread` on the object. Locking, unlocking, waiting, waking and
signalling are steps of their own, and so is every access to a member of the context.

Not modelled: an allocation of the context that fails, which leaves no context; errors of
`pthread_mutex_lock` and `pthread_mutex_unlock`, which POSIX does not give for these calls; and a
failing `tls_ptr::release` at the end of the wrapper, which ends the process.
-/

namespace Libk2

open Monitor

/-! ### The context -/

/-- `thread_cntx::state_enum`. -/
inductive ThreadState where
  | initializing
  | running
  | cancelPending
  | exited
deriving DecidableEq

/-- `thread_cntx::exit_cause_enum`. -/
inductive ExitCause where
  | na
  | completed
  | cancelled
  | uncaughtException
deriving DecidableEq

/-- The members of `thread_cntx` besides `m_mtx` and `m_state_change_cv`. -/
structure ThreadCntx where
  detached : Bool
  state : ThreadState
  exitCause : ExitCause
  cancelEnabled : Bool

/-- How an entry function ends: it returns, or with a `cancel_signal`, or another exception. -/
inductive EntryEnd where
  | returned
  | cancelSignal
  | otherException
deriving DecidableEq

/-- The exit cause of each. -/
def EntryEnd.cause : EntryEnd → ExitCause
  | .returned => .completed
  | .cancelSignal => .cancelled
  | .otherException => .uncaughtException

/-- What happens to the cancellation of a thread: a `cancel` takes effect, `cancel_enabled` sets the
flag and returns its old value, `test_cancel` throws or does not. -/
inductive CancelEvent where
  | requested
  | enabled (value last : Bool)
  | tested (threw : Bool)
deriving DecidableEq

/-- The context and what else the parties share. `alive` says that the context has not been deleted,
`created` that `pthread_create` has succeeded, `constructed` that there is a `thread` object,
`destroying` that `~thread` has been called, `finished` that the thread has returned from
`pthread_entry_wrapper`; `tls` says that the thread's `get_tls_cntx()` points to the context. The
last two fields record how the `try` block of the wrapper ended, and the history of the
cancellation. -/
structure ThreadData where
  cntx : ThreadCntx
  alive : Bool
  created : Bool
  constructed : Bool
  destroying : Bool
  finished : Bool
  tls : Bool
  ended : Option EntryEnd
  log : List CancelEvent

/-- `spawn_impl` has made the context. -/
def ThreadData.init (detached : Bool) : ThreadData where
  cntx := ⟨detached, .initializing, .na, true⟩
  alive := true
  created := false
  constructed := false
  destroying := false
  finished := false
  tls := false
  ended := none
  log := []

namespace ThreadData

variable (d : ThreadData)

/-- Set `m_state`. -/
def setState (s : ThreadState) : ThreadData := { d with cntx := { d.cntx with state := s } }

/-- Set `m_exit_cause`. -/
def setExitCause (x : ExitCause) : ThreadData := { d with cntx := { d.cntx with exitCause := x } }

/-- Set `m_cancel_enabled`. -/
def setCancelEnabled (b : Bool) : ThreadData :=
  { d with cntx := { d.cntx with cancelEnabled := b } }

/-- Record an event. -/
def record (e : CancelEvent) : ThreadData := { d with log := d.log ++ [e] }

end ThreadData

/-- What `pthread_cond_timedwait` returns. -/
inductive WaitResult where
  | ok
  | timedOut
  | other
deriving DecidableEq

/-- What is not determined by the code: whether `pthread_create` and the reset of the `tls_ptr`
succeed, what the entry function does next, what a timed wait returns, and which method a caller
calls. -/
inductive ThreadInput where
  | create (ok : Bool)
  | reset (ok : Bool)
  | finish (e : EntryEnd)
  | test
  | enable (value : Bool)
  | result (r : WaitResult)
  | cancel
  | join
  | timedJoin
  | destroy
deriving DecidableEq

/-! ### `spawn_impl` -/

/-- Where the spawner is. -/
inductive SpawnPc where
  | atCreate
  | atLock
  | atCheck
  | atWait
  | asleep
  | atUnlock
  | atReturn
  | returned
  /-- `bad_resource_alloc` has been thrown, and the `auto_ptr` has deleted the context. -/
  | failed
deriving DecidableEq

/-- `spawn_impl`, from `pthread_create` on. -/
def SpawnPc.code : SpawnPc → Instr ThreadData ThreadInput SpawnPc
  | .atCreate => .input fun
    | .create true, d => some ({ d with created := true }, .atLock)
    | .create false, d => some ({ d with alive := false }, .failed)
    | _, _ => none
  | .atLock => .lock .atCheck
  | .atCheck => .access fun d ↦
    (d, if d.cntx.state = .initializing then .atWait else .atUnlock)
  | .atWait => .wait .asleep
  | .asleep => .lock .atCheck
  | .atUnlock => .unlock .atReturn
  -- for a detached thread `pcntx` has been released before, and there is no object
  | .atReturn => .other fun d ↦ some ({ d with constructed := !d.cntx.detached }, .returned)
  | .returned => .other fun _ ↦ none
  | .failed => .other fun _ ↦ none

/-- In the scope of the guard, and not asleep. -/
def SpawnPc.Holds : SpawnPc → Prop
  | .atCheck | .atWait | .atUnlock => True
  | _ => False

theorem SpawnPc.disciplined (p : SpawnPc) : p.code.Disciplined Holds (· = .asleep) p := by
  cases p with
  | atCreate =>
    refine ⟨fun l d r h ↦ ?_, nofun⟩
    match l, h with
    | .create true, h => cases h; exact Iff.rfl
    | .create false, h => cases h; exact Iff.rfl
  | atCheck =>
    refine ⟨fun d ↦ ?_, nofun⟩
    by_cases hd : d.cntx.state = .initializing <;> simp [hd, Holds]
  | _ => simp [code, Instr.Disciplined, Holds]

/-! ### `pthread_entry_wrapper`, `test_cancel` and `cancel_enabled` -/

/-- Where the thread is. -/
inductive EntryPc where
  | notStarted
  | atLock
  | atSetRunning
  | atSignal
  | atTlsReset
  /-- At the end of the first guard's scope, normally or not. -/
  | atUnlock (ok : Bool)
  | inEntry
  | atTestLock
  | atTest
  | atTestUnlock
  | atEnableLock (value : Bool)
  | atEnable (value : Bool)
  | atEnableUnlock
  /-- The `try` block has ended. -/
  | atCause (e : EntryEnd)
  | atTlsRelease
  | atExitLock
  | atSetExited
  | atDetachedTest
  | atDelete
  | atExitSignal
  | atExitUnlock
  | atReturn
  | finished
deriving DecidableEq

/-- `pthread_entry_wrapper`, with what the entry function calls. Whether `test_cancel` throws is
recorded; what the entry function makes of the exception is up to it. -/
def EntryPc.code : EntryPc → Instr ThreadData ThreadInput EntryPc
  | .notStarted => .other fun d ↦ if d.created = true then some (d, .atLock) else none
  | .atLock => .lock .atSetRunning
  | .atSetRunning => .access fun d ↦ (d.setState .running, .atSignal)
  | .atSignal => .signal .atTlsReset
  | .atTlsReset => .input fun
    | .reset true, d => some ({ d with tls := true }, .atUnlock true)
    | .reset false, d => some ({ d with ended := some .otherException }, .atUnlock false)
    | _, _ => none
  | .atUnlock ok => .unlock (if ok = true then .inEntry else .atCause .otherException)
  | .inEntry => .input fun
    | .finish e, d => some ({ d with ended := some e }, .atCause e)
    | .test, d =>
      some (if d.tls = true then (d, .atTestLock) else (d.record (.tested false), .inEntry))
    | .enable value, d => some (d, if d.tls = true then .atEnableLock value else .inEntry)
    | _, _ => none
  | .atTestLock => .lock .atTest
  | .atTest => .access fun d ↦
    (d.record (.tested (decide (d.cntx.state = .cancelPending))), .atTestUnlock)
  | .atTestUnlock => .unlock .inEntry
  | .atEnableLock value => .lock (.atEnable value)
  | .atEnable value => .access fun d ↦
    ((d.setCancelEnabled value).record (.enabled value d.cntx.cancelEnabled), .atEnableUnlock)
  | .atEnableUnlock => .unlock .inEntry
  | .atCause e => .access fun d ↦ (d.setExitCause e.cause, .atTlsRelease)
  | .atTlsRelease => .other fun d ↦ some ({ d with tls := false }, .atExitLock)
  | .atExitLock => .lock .atSetExited
  | .atSetExited => .access fun d ↦ (d.setState .exited, .atDetachedTest)
  | .atDetachedTest => .access fun d ↦
    (d, if d.cntx.detached = true then .atDelete else .atExitSignal)
  | .atDelete => .other fun d ↦ some ({ d with alive := false }, .atExitUnlock)
  | .atExitSignal => .signal .atExitUnlock
  | .atExitUnlock => .unlock .atReturn
  | .atReturn => .other fun d ↦ some ({ d with finished := true }, .finished)
  | .finished => .other fun _ ↦ none

/-- In the scope of a guard. -/
def EntryPc.Holds : EntryPc → Prop
  | .atSetRunning | .atSignal | .atTlsReset | .atUnlock _ | .atTest | .atTestUnlock | .atEnable _
  | .atEnableUnlock | .atSetExited | .atDetachedTest | .atDelete | .atExitSignal
  | .atExitUnlock => True
  | _ => False

theorem EntryPc.disciplined (p : EntryPc) : p.code.Disciplined Holds (fun _ ↦ False) p := by
  cases p with
  | notStarted =>
    refine ⟨fun d r h ↦ ?_, id⟩
    obtain ⟨-, ⟨⟩⟩ := Option.ite_none_right_eq_some.1 h
    exact Iff.rfl
  | atTlsReset =>
    refine ⟨fun l d r h ↦ ?_, id⟩
    match l, h with
    | .reset true, h => cases h; exact Iff.rfl
    | .reset false, h => cases h; exact Iff.rfl
  | atUnlock ok => cases ok <;> simp [code, Instr.Disciplined, Holds]
  | inEntry =>
    refine ⟨fun l d r h ↦ ?_, id⟩
    match l, h with
    | .finish e, h => cases h; exact Iff.rfl
    | .test, h => cases h; by_cases hd : d.tls = true <;> simp [hd, Holds]
    | .enable value, h => cases h; by_cases hd : d.tls = true <;> simp [hd, Holds]
  | atDetachedTest =>
    refine ⟨fun d ↦ ?_, id⟩
    by_cases hd : d.cntx.detached = true <;> simp [hd, Holds]
  | _ => simp [code, Instr.Disciplined, Holds]

/-! ### The methods -/

/-- Who calls `join`. -/
inductive Joiner where
  | user
  | destructor
deriving DecidableEq

/-- Where a caller is. -/
inductive CallPc where
  | idle
  | cancelLock
  | cancelCheck
  | cancelWrite
  | cancelUnlock
  | joinLock (k : Joiner)
  | joinCheck (k : Joiner)
  | joinWait (k : Joiner)
  | joinAsleep (k : Joiner)
  | joinUnlock (k : Joiner)
  | timedLock
  | timedCheck
  | timedWait
  | timedAsleep
  | timedResult
  /-- With what the timed `join` returns. -/
  | timedUnlock (ret : Bool)
  | atPthreadJoin
  | atDelete
  | destroyed
deriving DecidableEq

/-- `cancel`, `join`, the timed `join` and `~thread`. -/
def CallPc.code : CallPc → Instr ThreadData ThreadInput CallPc
  | .idle => .input fun l d ↦
    if d.constructed = true ∧ d.destroying = false then
      match l with
      | .cancel => some (d, .cancelLock)
      | .join => some (d, .joinLock .user)
      | .timedJoin => some (d, .timedLock)
      | .destroy => some ({ d with destroying := true }, .joinLock .destructor)
      | _ => none
    else none
  | .cancelLock => .lock .cancelCheck
  | .cancelCheck => .access fun d ↦
    (d, if d.cntx.state ≠ .exited then .cancelWrite else .cancelUnlock)
  | .cancelWrite => .access fun d ↦
    ((d.setState .cancelPending).record .requested, .cancelUnlock)
  | .cancelUnlock => .unlock .idle
  | .joinLock k => .lock (.joinCheck k)
  | .joinCheck k => .access fun d ↦
    (d, if d.cntx.state ≠ .exited then .joinWait k else .joinUnlock k)
  | .joinWait k => .wait (.joinAsleep k)
  | .joinAsleep k => .lock (.joinCheck k)
  | .joinUnlock .user => .unlock .idle
  | .joinUnlock .destructor => .unlock .atPthreadJoin
  | .timedLock => .lock .timedCheck
  | .timedCheck => .access fun d ↦
    (d, if d.cntx.state ≠ .exited then .timedWait else .timedUnlock true)
  | .timedWait => .wait .timedAsleep
  | .timedAsleep => .lock .timedResult
  | .timedResult => .input fun
    | .result .ok, d => some (d, .timedUnlock true)
    | .result .timedOut, d => some (d, .timedUnlock false)
    | .result .other, d => some (d, .timedWait)
    | _, _ => none
  | .timedUnlock _ => .unlock .idle
  | .atPthreadJoin => .other fun d ↦ if d.finished = true then some (d, .atDelete) else none
  | .atDelete => .other fun d ↦ some ({ d with alive := false }, .destroyed)
  | .destroyed => .other fun _ ↦ none

/-- In the scope of a guard, and not asleep. -/
def CallPc.Holds : CallPc → Prop
  | .cancelCheck | .cancelWrite | .cancelUnlock | .joinCheck _ | .joinWait _ | .joinUnlock _
  | .timedCheck | .timedWait | .timedResult | .timedUnlock _ => True
  | _ => False

/-- In a wait. -/
def CallPc.Asleep : CallPc → Prop
  | .joinAsleep _ | .timedAsleep => True
  | _ => False

theorem CallPc.disciplined (p : CallPc) : p.code.Disciplined Holds Asleep p := by
  cases p with
  | idle =>
    refine ⟨fun l d r h ↦ ?_, id⟩
    obtain ⟨-, h⟩ := Option.ite_none_right_eq_some.1 h
    match l, h with
    | .cancel, h => cases h; exact Iff.rfl
    | .join, h => cases h; exact Iff.rfl
    | .timedJoin, h => cases h; exact Iff.rfl
    | .destroy, h => cases h; exact Iff.rfl
  | cancelCheck =>
    refine ⟨fun d ↦ ?_, id⟩
    by_cases hd : d.cntx.state = .exited <;> simp [hd, Holds]
  | joinCheck k =>
    refine ⟨fun d ↦ ?_, id⟩
    by_cases hd : d.cntx.state = .exited <;> simp [hd, Holds]
  | timedCheck =>
    refine ⟨fun d ↦ ?_, id⟩
    by_cases hd : d.cntx.state = .exited <;> simp [hd, Holds]
  | joinUnlock k => cases k <;> simp [code, Instr.Disciplined, Holds, Asleep]
  | timedResult =>
    refine ⟨fun l d r h ↦ ?_, id⟩
    match l, h with
    | .result .ok, h => cases h; exact Iff.rfl
    | .result .timedOut, h => cases h; exact Iff.rfl
    | .result .other, h => cases h; exact Iff.rfl
  | atPthreadJoin =>
    refine ⟨fun d r h ↦ ?_, id⟩
    obtain ⟨-, ⟨⟩⟩ := Option.ite_none_right_eq_some.1 h
    exact Iff.rfl
  | _ => simp [code, Instr.Disciplined, Holds, Asleep]

/-! ### The system -/

/-- The parties, with callers `τ`. -/
inductive Party (τ : Type*) where
  | spawner
  | thread
  | caller (t : τ)
deriving DecidableEq

/-- Where a party can be. -/
abbrev Party.Pc {τ : Type*} : Party τ → Type
  | .spawner => SpawnPc
  | .thread => EntryPc
  | .caller _ => CallPc

/-- The code of the parties. -/
def threadProgram (τ : Type*) : Program (Party τ) ThreadData ThreadInput Party.Pc where
  code
    | .spawner, p => SpawnPc.code p
    | .thread, p => EntryPc.code p
    | .caller _, p => CallPc.code p
  holds
    | .spawner, p => SpawnPc.Holds p
    | .thread, p => EntryPc.Holds p
    | .caller _, p => CallPc.Holds p
  asleep
    | .spawner, p => p = SpawnPc.asleep
    | .thread, _ => False
    | .caller _, p => CallPc.Asleep p
  disciplined
    | .spawner, p => SpawnPc.disciplined p
    | .thread, p => EntryPc.disciplined p
    | .caller _, p => CallPc.disciplined p

/-- The monitor, the data and where the parties are. -/
abbrev ThreadSys (τ : Type*) :=
  Interleaving.Config (Party τ) (Shared (Party τ) ThreadData) Party.Pc

/-- A sleeper wakes, or a party goes on. -/
abbrev ThreadLabel (τ : Type*) :=
  Interleaving.Label (Party τ) (Party τ) (Choice (Party τ) ThreadInput)

namespace ThreadSys

variable {τ : Type*}

/-- `spawn_impl` has made the context. -/
def start (τ : Type*) (detached : Bool) : ThreadSys τ where
  shared := ⟨.init, .init detached⟩
  pos
    | .spawner => SpawnPc.atCreate
    | .thread => EntryPc.notStarted
    | .caller _ => CallPc.idle

/-- One step. -/
def step [DecidableEq τ] : ThreadSys τ → ThreadLabel τ → Option (ThreadSys τ) :=
  (threadProgram τ).step

variable (c : ThreadSys τ)

/-- The context and what else the parties share. -/
def data : ThreadData := c.shared.data

/-- `m_state`. -/
def state : ThreadState := c.shared.data.cntx.state

/-- Where the spawner is. -/
def spawnerPc : SpawnPc := c.pos .spawner

/-- Where the thread is. -/
def threadPc : EntryPc := c.pos .thread

/-- Where caller `t` is. -/
def callerPc (t : τ) : CallPc := c.pos (.caller t)

end ThreadSys

end Libk2
