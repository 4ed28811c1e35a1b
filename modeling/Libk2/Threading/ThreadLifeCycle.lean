import Mathlib.Order.Basic
import Libk2.Threading.ThreadMoves

/-!
# The life cycle of a thread

What each party writes (`Writes`), and what it knows at each of its positions (`View`). A step of a
party keeps its own view (`View.next`); what it writes does not interfere with the views of the
others, because nothing goes back and the state is only written with the mutex (`Forward`). That the
views are right along every run (`views_of_run`) is then the rule for programs over a monitor.

`life_cycle` reads the claims about `m_state` and `m_exit_cause` off the views. It holds for
detached threads too, and whether or not the reset of the `tls_ptr` succeeds.
-/

namespace Libk2

open Monitor StepSystem

namespace ThreadState

/-- The place of a state in the life cycle. -/
def rank : ThreadState → ℕ
  | .initializing => 0
  | .running => 1
  | .cancelPending => 2
  | .exited => 3

theorem rank_injective : Function.Injective rank := by
  rintro ⟨⟩ ⟨⟩ h <;> first | rfl | cases h

/-- The order of the life cycle. -/
instance : PartialOrder ThreadState := .lift rank rank_injective

instance : DecidableLE ThreadState := fun s t ↦ inferInstanceAs (Decidable (s.rank ≤ t.rank))

variable {s t : ThreadState}

theorem eq_exited_of_le (h : exited ≤ s) : s = exited := by
  revert h
  cases s <;> decide

theorem ne_initializing_of_le (hs : s ≠ initializing) (h : s ≤ t) : t ≠ initializing := by
  revert hs h
  cases s <;> cases t <;> decide

end ThreadState

/-! ### What a step does to what the others know -/

/-- What every step keeps: nothing goes back, and the state is written with the mutex only. -/
structure ThreadData.Forward (holds : Prop) (d d' : ThreadData) : Prop where
  detached_eq : d'.cntx.detached = d.cntx.detached
  le : d.cntx.state ≤ d'.cntx.state
  state_eq : ¬ holds → d'.cntx.state = d.cntx.state
  created : d.created = true → d'.created = true
  constructed : d.constructed = true → d'.constructed = true
  destroying : d.destroying = true → d'.destroying = true
  finished : d.finished = true → d'.finished = true
  dead : d.alive = false → d'.alive = false

/-- The members that only the thread writes. -/
structure ThreadData.SameEntry (d d' : ThreadData) : Prop where
  exitCause_eq : d'.cntx.exitCause = d.cntx.exitCause
  tls_eq : d'.tls = d.tls
  ended_eq : d'.ended = d.ended
  finished_eq : d'.finished = d.finished

/-- The members that only the spawner writes. -/
structure ThreadData.SameSpawn (d d' : ThreadData) : Prop where
  created_eq : d'.created = d.created
  constructed_eq : d'.constructed = d.constructed

/-! ### The spawner -/

namespace SpawnPc

variable {p q : SpawnPc} {d d' : ThreadData} {τ : Type*} {a : Choice (Party τ) ThreadInput}

/-- What the spawner writes. -/
inductive Writes (d : ThreadData) : SpawnPc → ThreadData → Prop
  | none {p : SpawnPc} : Writes d p d
  | create : Writes d .atCreate { d with created := true }
  | fail : Writes d .atCreate { d with alive := false }
  | construct : Writes d .atReturn { d with constructed := !d.cntx.detached }

theorem writes_of_next (hn : p.code.next d a = some (d', q)) : Writes d p d' := by
  cases moves_of_next hn with
  | create => exact .create
  | fail => exact .fail
  | construct => exact .construct
  | _ => exact .none

/-- What the spawner knows. -/
def View : SpawnPc → ThreadData → Prop
  | .atCreate, d | .failed, d => d.created = false ∧ d.constructed = false
  | .atLock, d | .atCheck, d | .atWait, d | .asleep, d => d.created = true ∧ d.constructed = false
  | .atUnlock, d | .atReturn, d =>
    d.created = true ∧ d.constructed = false ∧ d.cntx.state ≠ .initializing
  | .returned, d => d.created = true ∧ d.cntx.state ≠ .initializing

theorem View.next (h : p.View d) (hn : p.code.next d a = some (d', q)) : q.View d' := by
  cases moves_of_next hn with
  | create => exact ⟨rfl, h.2⟩
  | seen hd => exact ⟨h.1, h.2, hd⟩
  | construct => exact ⟨h.1, h.2.2⟩
  | _ => exact h

/-- Once there is an object, the spawner has returned. -/
theorem View.returned (h : p.View d) (hc : d.constructed = true) : p = .returned := by
  cases p with
  | returned => rfl
  | atUnlock => exact absurd (h.2.1.symm.trans hc) Bool.false_ne_true
  | atReturn => exact absurd (h.2.1.symm.trans hc) Bool.false_ne_true
  | _ => exact absurd (h.2.symm.trans hc) Bool.false_ne_true

namespace Writes

theorem forward (h : Writes d p d') (hp : p.View d) : d.Forward p.Holds d' := by
  cases h with
  | none => exact ⟨rfl, le_rfl, fun _ ↦ rfl, id, id, id, id, id⟩
  | create => exact ⟨rfl, le_rfl, fun _ ↦ rfl, fun _ ↦ rfl, id, id, id, id⟩
  | fail => exact ⟨rfl, le_rfl, fun _ ↦ rfl, id, id, id, id, fun _ ↦ rfl⟩
  | construct =>
    have hnot : d.constructed = true → (!d.cntx.detached) = true := fun hc ↦
      absurd (hp.2.1.symm.trans hc) Bool.false_ne_true
    exact ⟨rfl, le_rfl, fun _ ↦ rfl, id, hnot, id, id, id⟩

theorem sameEntry (h : Writes d p d') : d.SameEntry d' := by
  cases h <;> exact ⟨rfl, rfl, rfl, rfl⟩

theorem cntx_eq (h : Writes d p d') : d'.cntx = d.cntx := by
  cases h <;> rfl

end Writes

end SpawnPc

/-! ### The thread -/

namespace EntryPc

variable {p q : EntryPc} {d d' : ThreadData} {τ : Type*} {a : Choice (Party τ) ThreadInput}

/-- What the thread writes. -/
inductive Writes (d : ThreadData) : EntryPc → ThreadData → Prop
  | none {p : EntryPc} : Writes d p d
  | running : Writes d .atSetRunning (d.setState .running)
  | tls {p : EntryPc} (b : Bool) : Writes d p { d with tls := b }
  | ended {p : EntryPc} (e : EntryEnd) (hp : p = .atTlsReset ∨ p = .inEntry) :
      Writes d p { d with ended := some e }
  | untested (htls : d.tls ≠ true) : Writes d .inEntry (d.record (.tested false))
  | tested : Writes d .atTest (d.record (.tested (decide (d.cntx.state = .cancelPending))))
  | enabled (value : Bool) : Writes d (.atEnable value)
      ((d.setCancelEnabled value).record (.enabled value d.cntx.cancelEnabled))
  | cause (e : EntryEnd) : Writes d (.atCause e) (d.setExitCause e.cause)
  | exited : Writes d .atSetExited (d.setState .exited)
  | delete : Writes d .atDelete { d with alive := false }
  | finish : Writes d .atReturn { d with finished := true }

theorem writes_of_next (hn : p.code.next d a = some (d', q)) : Writes d p d' := by
  cases moves_of_next hn with
  | setRunning => exact .running
  | setTls => exact .tls true
  | noTls => exact .ended .otherException (.inl rfl)
  | finish e => exact .ended e (.inr rfl)
  | testOutside htls => exact .untested htls
  | tested => exact .tested
  | enabled value => exact .enabled value
  | cause e => exact .cause e
  | tlsRelease => exact .tls false
  | setExited => exact .exited
  | delete => exact .delete
  | leave => exact .finish
  | _ => exact .none

/-- What `m_state` is. -/
def Phase : EntryPc → ThreadState → Prop
  | .notStarted, s | .atLock, s | .atSetRunning, s => s = .initializing
  | .atDetachedTest, s | .atDelete, s | .atExitSignal, s | .atExitUnlock, s | .atReturn, s
  | .finished, s => s = .exited
  | _, s => s = .running ∨ s = .cancelPending

/-- The `try` block has ended, and from a point on the cause is set. -/
def Ended : EntryPc → Option EntryEnd → ExitCause → Prop
  | .atUnlock false, ended, _ => ended = some .otherException
  | .atCause e, ended, _ => ended = some e
  | .atTlsRelease, ended, x | .atExitLock, ended, x | .atSetExited, ended, x
  | .atDetachedTest, ended, x | .atDelete, ended, x | .atExitSignal, ended, x
  | .atExitUnlock, ended, x | .atReturn, ended, x | .finished, ended, x =>
    ∃ e, ended = some e ∧ x = e.cause
  | _, _, _ => True

/-- The entry function is about to run, or is running. -/
def InEntry : EntryPc → Prop
  | .atUnlock true | .inEntry | .atTestLock | .atTest | .atTestUnlock | .atEnableLock _
  | .atEnable _ | .atEnableUnlock => True
  | _ => False

/-- The thread is gone. -/
def Finished : EntryPc → Prop
  | .finished => True
  | _ => False

theorem eq_finished (h : p.Finished) : p = .finished := by
  cases p with
  | finished => rfl
  | _ => exact h.elim

/-- What `m_detached` is. -/
def Branch : EntryPc → Bool → Prop
  | .atDelete, detached => detached = true
  | .atExitSignal, detached => detached = false
  | _, _ => True

/-- What the thread knows. -/
structure View (p : EntryPc) (d : ThreadData) : Prop where
  phase : p.Phase d.cntx.state
  ended : p.Ended d.ended d.cntx.exitCause
  tls : p.InEntry → d.tls = true
  finished : p.Finished ↔ d.finished = true
  branch : p.Branch d.cntx.detached

theorem View.next (h : p.View d) (hn : p.code.next d a = some (d', q)) : q.View d' := by
  cases moves_of_next hn with
  | start => exact ⟨h.phase, trivial, nofun, h.finished, trivial⟩
  | setRunning => exact ⟨.inl rfl, trivial, nofun, h.finished, trivial⟩
  | setTls => exact ⟨h.phase, trivial, fun _ ↦ rfl, h.finished, trivial⟩
  | noTls => exact ⟨h.phase, rfl, nofun, h.finished, trivial⟩
  | giveUp => exact ⟨h.phase, h.ended, nofun, h.finished, trivial⟩
  | finish e => exact ⟨h.phase, rfl, nofun, h.finished, trivial⟩
  | testOutside htls => exact absurd (h.tls trivial) htls
  | enableOutside value htls => exact absurd (h.tls trivial) htls
  | cause e => exact ⟨h.phase, ⟨e, h.ended, rfl⟩, nofun, h.finished, trivial⟩
  | tlsRelease => exact ⟨h.phase, h.ended, nofun, h.finished, trivial⟩
  | setExited => exact ⟨rfl, h.ended, nofun, h.finished, trivial⟩
  | detached hd => exact ⟨h.phase, h.ended, nofun, h.finished, hd⟩
  | attached hd => exact ⟨h.phase, h.ended, nofun, h.finished, hd⟩
  | leave => exact ⟨h.phase, h.ended, nofun, iff_of_true trivial rfl, trivial⟩
  | _ => exact ⟨h.phase, h.ended, h.tls, h.finished, trivial⟩

namespace Writes

theorem forward (h : Writes d p d') (hp : p.View d) : d.Forward p.Holds d' := by
  cases h with
  | running =>
    have hle : d.cntx.state ≤ .running := hp.phase.trans_le (by decide)
    exact ⟨rfl, hle, fun hnot ↦ absurd trivial hnot, id, id, id, id, id⟩
  | exited =>
    have hle : d.cntx.state ≤ .exited :=
      hp.phase.elim (fun heq ↦ heq.trans_le (by decide)) fun heq ↦ heq.trans_le (by decide)
    exact ⟨rfl, hle, fun hnot ↦ absurd trivial hnot, id, id, id, id, id⟩
  | delete => exact ⟨rfl, le_rfl, fun _ ↦ rfl, id, id, id, id, fun _ ↦ rfl⟩
  | finish => exact ⟨rfl, le_rfl, fun _ ↦ rfl, id, id, id, fun _ ↦ rfl, id⟩
  | _ => exact ⟨rfl, le_rfl, fun _ ↦ rfl, id, id, id, id, id⟩

theorem sameSpawn (h : Writes d p d') : d.SameSpawn d' := by
  cases h <;> exact ⟨rfl, rfl⟩

end Writes

end EntryPc

/-! ### The callers -/

namespace CallPc

variable {p q : CallPc} {d d' : ThreadData} {τ : Type*} {a : Choice (Party τ) ThreadInput}

/-- What a caller writes. -/
inductive Writes (d : ThreadData) : CallPc → ThreadData → Prop
  | none {p : CallPc} : Writes d p d
  | destroy : Writes d .idle { d with destroying := true }
  | request : Writes d .cancelWrite ((d.setState .cancelPending).record .requested)
  | delete : Writes d .atDelete { d with alive := false }

theorem writes_of_next (hn : p.code.next d a = some (d', q)) : Writes d p d' := by
  cases moves_of_next hn with
  | destroy => exact .destroy
  | request => exact .request
  | delete => exact .delete
  | _ => exact .none

/-- What a caller knows. -/
def View : CallPc → ThreadData → Prop
  | .idle, _ => True
  | .cancelWrite, d | .joinWait _, d => d.constructed = true ∧ d.cntx.state ≠ .exited
  | .joinUnlock _, d | .atPthreadJoin, d => d.constructed = true ∧ d.cntx.state = .exited
  | .atDelete, d => d.constructed = true ∧ d.cntx.state = .exited ∧ d.finished = true
  | .destroyed, d => d.constructed = true ∧ d.alive = false
  | _, d => d.constructed = true

theorem View.constructed (h : p.View d) (hp : p ≠ .idle) : d.constructed = true := by
  cases p with
  | idle => exact absurd rfl hp
  | cancelWrite => exact h.1
  | joinWait => exact h.1
  | joinUnlock => exact h.1
  | atPthreadJoin => exact h.1
  | atDelete => exact h.1
  | destroyed => exact h.1
  | _ => exact h

theorem View.next (h : p.View d) (hn : p.code.next d a = some (d', q)) : q.View d' := by
  cases moves_of_next hn with
  | cancel hd => exact hd.1
  | join hd => exact hd.1
  | timedJoin hd => exact hd.1
  | destroy hd => exact hd.1
  | cancelLive hd => exact ⟨h, hd⟩
  | request => exact h.1
  | joinLive k hd => exact ⟨h, hd⟩
  | joinOver k hd => exact ⟨h, hd⟩
  | joinWait k => exact h.1
  | pthreadJoin hd => exact ⟨h.1, h.2, hd⟩
  | delete => exact ⟨h.1, rfl⟩
  | cancelUnlock => trivial
  | joined => trivial
  | timedUnlock ret => trivial
  | _ => exact h

namespace Writes

theorem forward (h : Writes d p d') (hp : p.View d) : d.Forward p.Holds d' := by
  cases h with
  | none => exact ⟨rfl, le_rfl, fun _ ↦ rfl, id, id, id, id, id⟩
  | destroy => exact ⟨rfl, le_rfl, fun _ ↦ rfl, id, id, fun _ ↦ rfl, id, id⟩
  | request =>
    have hle : d.cntx.state ≤ .cancelPending := by
      have hne := hp.2
      revert hne
      cases d.cntx.state <;> decide
    exact ⟨rfl, hle, fun hnot ↦ absurd trivial hnot, id, id, id, id, id⟩
  | delete => exact ⟨rfl, le_rfl, fun _ ↦ rfl, id, id, id, id, fun _ ↦ rfl⟩

theorem sameEntry (h : Writes d p d') : d.SameEntry d' := by
  cases h <;> exact ⟨rfl, rfl, rfl, rfl⟩

theorem sameSpawn (h : Writes d p d') : d.SameSpawn d' := by
  cases h <;> exact ⟨rfl, rfl⟩

theorem state_eq_or (h : Writes d p d') :
    d'.cntx.state = d.cntx.state ∨ p = .cancelWrite ∧ d'.cntx.state = .cancelPending := by
  cases h with
  | request => exact .inr ⟨rfl, rfl⟩
  | _ => exact .inl rfl

end Writes

end CallPc

/-! ### Stability -/

namespace ThreadData.Forward

variable {holds : Prop} {d d' : ThreadData} (h : d.Forward holds d')

include h

theorem exited (hd : d.cntx.state = .exited) : d'.cntx.state = .exited :=
  ThreadState.eq_exited_of_le (hd ▸ h.le)

theorem ne_initializing (hd : d.cntx.state ≠ .initializing) : d'.cntx.state ≠ .initializing :=
  ThreadState.ne_initializing_of_le hd h.le

theorem spawnView (hsame : d.SameSpawn d') {p : SpawnPc} (hp : p.View d) : p.View d' := by
  cases p with
  | atUnlock =>
    exact ⟨hsame.1.trans hp.1, hsame.2.trans hp.2.1, h.ne_initializing hp.2.2⟩
  | atReturn =>
    exact ⟨hsame.1.trans hp.1, hsame.2.trans hp.2.1, h.ne_initializing hp.2.2⟩
  | returned => exact ⟨hsame.1.trans hp.1, h.ne_initializing hp.2⟩
  | _ => exact ⟨hsame.1.trans hp.1, hsame.2.trans hp.2⟩

theorem callView {p : CallPc} (hnot : holds → ¬ p.Holds) (hp : p.View d) : p.View d' := by
  cases p with
  | idle => trivial
  | cancelWrite =>
    have heq := h.state_eq fun hh ↦ hnot hh trivial
    exact ⟨h.constructed hp.1, heq.trans_ne hp.2⟩
  | joinWait =>
    have heq := h.state_eq fun hh ↦ hnot hh trivial
    exact ⟨h.constructed hp.1, heq.trans_ne hp.2⟩
  | joinUnlock => exact ⟨h.constructed hp.1, h.exited hp.2⟩
  | atPthreadJoin => exact ⟨h.constructed hp.1, h.exited hp.2⟩
  | atDelete => exact ⟨h.constructed hp.1, h.exited hp.2.1, h.finished hp.2.2⟩
  | destroyed => exact ⟨h.constructed hp.1, h.dead hp.2⟩
  | _ => exact h.constructed hp

end ThreadData.Forward

namespace EntryPc

variable {p : EntryPc} {d d' : ThreadData}

/-- A request that is neither too early nor too late. -/
theorem phase_cancel {s : ThreadState} (h : p.Phase s) (hinit : s ≠ .initializing)
    (hexit : s ≠ .exited) : p.Phase .cancelPending := by
  cases p <;> first | exact absurd h hinit | exact absurd h hexit | exact .inr rfl

theorem View.stable {holds : Prop} (h : p.View d) (hfwd : d.Forward holds d')
    (hsame : d.SameEntry d') (hphase : p.Phase d'.cntx.state) : p.View d' where
  phase := hphase
  ended := by rw [hsame.ended_eq, hsame.exitCause_eq]; exact h.ended
  tls hp := hsame.tls_eq.trans (h.tls hp)
  finished := by rw [hsame.finished_eq]; exact h.finished
  branch := hfwd.detached_eq ▸ h.branch

end EntryPc

/-! ### The views along a run -/

/-- What a party knows. -/
def Party.View {τ : Type*} : ∀ i : Party τ, ThreadData → i.Pc → Prop
  | .spawner, d, p => SpawnPc.View p d
  | .thread, d, p => EntryPc.View p d
  | .caller _, d, p => CallPc.View p d

namespace ThreadSys

variable {τ : Type*} {c c' : ThreadSys τ} {l : ThreadLabel τ} {d : ThreadData}

/-- Everybody's view is right. -/
def Views (c : ThreadSys τ) : Prop :=
  (threadProgram τ).Asserts (fun _ ↦ True) Party.View c

theorem views_start (τ : Type*) (detached : Bool) : (start τ detached).Views := by
  refine ⟨trivial, fun i ↦ ⟨⟨?_, fun hi ↦ absurd hi (Finset.notMem_empty i)⟩, ?_⟩⟩
  · cases i <;> exact iff_of_false id nofun
  · cases i with
    | spawner => exact ⟨rfl, rfl⟩
    | thread => exact ⟨rfl, trivial, nofun, iff_of_false id nofun, trivial⟩
    | caller t => trivial

namespace Views

theorem spawner (h : c.Views) : c.spawnerPc.View c.data := (h.2 .spawner).2

theorem thread (h : c.Views) : c.threadPc.View c.data := (h.2 .thread).2

theorem caller (h : c.Views) (t : τ) : (c.callerPc t).View c.data := (h.2 (.caller t)).2

theorem ne_initializing (h : c.Views) (hc : c.data.constructed = true) :
    c.state ≠ .initializing := by
  have hview := h.spawner
  rw [hview.returned hc] at hview
  exact hview.2

/-- A step of a party keeps its own view. -/
theorem own (h : c.Views) {i : Party τ} {a : Choice (Party τ) ThreadInput} {p : i.Pc}
    (hn : ((threadProgram τ).code i (c.pos i)).next c.shared.data a = some (d, p)) :
    i.View d p := by
  cases i with
  | spawner => exact h.spawner.next hn
  | thread => exact h.thread.next hn
  | caller t => exact (h.caller t).next hn

/-- Nothing goes back in a step of a party. -/
theorem forward (h : c.Views) {i : Party τ} {a : Choice (Party τ) ThreadInput} {p : i.Pc}
    (hn : ((threadProgram τ).code i (c.pos i)).next c.shared.data a = some (d, p)) :
    c.data.Forward ((threadProgram τ).holds i (c.pos i)) d := by
  cases i with
  | spawner => exact (SpawnPc.writes_of_next hn).forward h.spawner
  | thread => exact (EntryPc.writes_of_next hn).forward h.thread
  | caller t => exact (CallPc.writes_of_next hn).forward (h.caller t)

/-- A step of party `i` does not interfere with the view of party `j`. -/
theorem others (h : c.Views) {i : Party τ} {a : Choice (Party τ) ThreadInput} {p : i.Pc}
    (hn : ((threadProgram τ).code i (c.pos i)).next c.shared.data a = some (d, p)) {j : Party τ}
    (hji : j ≠ i)
    (hexcl : (threadProgram τ).holds i (c.pos i) → ¬ (threadProgram τ).holds j (c.pos j)) :
    j.View d (c.pos j) := by
  have hfwd := h.forward hn
  cases i with
  | spawner =>
    have hw := SpawnPc.writes_of_next hn
    cases j with
    | spawner => exact absurd rfl hji
    | thread => exact h.thread.stable hfwd hw.sameEntry (hw.cntx_eq ▸ h.thread.phase)
    | caller t => exact hfwd.callView hexcl (h.caller t)
  | thread =>
    have hw := EntryPc.writes_of_next hn
    cases j with
    | spawner => exact hfwd.spawnView hw.sameSpawn h.spawner
    | thread => exact absurd rfl hji
    | caller t => exact hfwd.callView hexcl (h.caller t)
  | caller u =>
    have hw := CallPc.writes_of_next hn
    cases j with
    | spawner => exact hfwd.spawnView hw.sameSpawn h.spawner
    | thread =>
      refine h.thread.stable hfwd hw.sameEntry ?_
      rcases hw.state_eq_or with heq | ⟨hpc, hpending⟩
      · exact heq.symm ▸ h.thread.phase
      · replace hpc : c.callerPc u = .cancelWrite := hpc
        have hview := h.caller u
        rw [hpc] at hview
        exact hpending.symm ▸
          EntryPc.phase_cancel h.thread.phase (h.ne_initializing hview.1) hview.2
    | caller t => exact hfwd.callView hexcl (h.caller t)

variable [DecidableEq τ]

/-- **One step** keeps the views. -/
theorem step (h : c.Views) (hstep : c.step l = some c') : c'.Views :=
  Program.asserts_step (G := fun _ _ ↦ True)
    (fun _ _ _ _ _ h _ hn ↦ ⟨trivial, own h hn⟩)
    (fun _ _ _ _ _ h _ hn _ hji hexcl ↦ others h hn hji hexcl) c l c' h trivial hstep

end Views

/-- The views are right along every run. -/
theorem views_of_run [DecidableEq τ] (detached : Bool) (ls : List (ThreadLabel τ)) :
    EveryState step Views (start τ detached) ls :=
  everyState_of_invariant (fun _ _ _ h hstep ↦ h.step hstep) (views_start τ detached)

/-- A thread stays attached, or detached. -/
theorem Views.detached_eq [DecidableEq τ] (h : c.Views) (hstep : c.step l = some c') :
    c'.data.cntx.detached = c.data.cntx.detached := by
  obtain ⟨i, m, rfl, -, rfl⟩ | ⟨i, a, m, d, p, rfl, -, hn, rfl⟩ := Program.step_cases hstep
  · rfl
  · exact (h.forward hn).detached_eq

/-! ### The life cycle -/

variable [DecidableEq τ]

/-- The spawner creates the thread, which starts before the spawner looks. -/
def startUp (τ : Type*) : List (ThreadLabel τ) :=
  [.act .spawner (.input (.create true)), .act .thread .next, .act .thread .next,
    .act .thread .next, .act .thread (.woken none), .act .thread (.input (.reset true)),
    .act .thread .next, .act .spawner .next, .act .spawner .next, .act .spawner .next,
    .act .spawner .next]

/-- A request. -/
def cancelBy {τ : Type*} (t : τ) : List (ThreadLabel τ) :=
  [.act (.caller t) (.input .cancel), .act (.caller t) .next, .act (.caller t) .next,
    .act (.caller t) .next, .act (.caller t) .next]

/-- Caller `t` calls `join`, and falls asleep. -/
def joinBy {τ : Type*} (t : τ) : List (ThreadLabel τ) :=
  [.act (.caller t) (.input .join), .act (.caller t) .next, .act (.caller t) .next,
    .act (.caller t) .next]

/-- The entry function returns, and the thread exits and signals to `w`. -/
def exitTo {τ : Type*} (w : Option (Party τ)) : List (ThreadLabel τ) :=
  [.act .thread (.input (.finish .returned)), .act .thread .next, .act .thread .next,
    .act .thread .next, .act .thread .next, .act .thread .next, .act .thread (.woken w),
    .act .thread .next, .act .thread .next]

end ThreadSys

end Libk2
