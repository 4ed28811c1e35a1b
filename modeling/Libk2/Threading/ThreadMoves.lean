import Libk2.Threading.Thread

/-!
# What the parties do

The moves of the spawner, of the thread and of the callers, one for each branch of their code: where
the party is, the choice, what it writes, and where it is then. Every step of the code is one of
them (`moves_of_next`), so what is to be shown of a step is shown of each of the moves, and the code
itself is not looked at again.
-/

namespace Libk2

open Monitor

variable {ι : Type*}

namespace SpawnPc

variable {p q : SpawnPc} {d d' : ThreadData} {a : Choice ι ThreadInput}

/-- The moves of the spawner. -/
inductive Moves (d : ThreadData) : SpawnPc → Choice ι ThreadInput → ThreadData → SpawnPc → Prop
  | create : Moves d .atCreate (.input (.create true)) { d with created := true } .atLock
  | fail : Moves d .atCreate (.input (.create false)) { d with alive := false } .failed
  | lock : Moves d .atLock .next d .atCheck
  | unseen (hd : d.cntx.state = .initializing) : Moves d .atCheck .next d .atWait
  | seen (hd : d.cntx.state ≠ .initializing) : Moves d .atCheck .next d .atUnlock
  | wait : Moves d .atWait .next d .asleep
  | relock : Moves d .asleep .next d .atCheck
  | unlock : Moves d .atUnlock .next d .atReturn
  | construct : Moves d .atReturn .next { d with constructed := !d.cntx.detached } .returned

theorem moves_of_next (hn : p.code.next d a = some (d', q)) : Moves d p a d' q := by
  cases p with
  | atCreate =>
    obtain ⟨l, rfl, hf⟩ := Instr.next_input hn
    match l, hf with
    | .create true, hf => cases hf; exact .create
    | .create false, hf => cases hf; exact .fail
  | atLock => obtain ⟨rfl, ⟨⟩⟩ := Instr.next_lock hn; exact .lock
  | atCheck =>
    obtain ⟨rfl, heq⟩ := Instr.next_access hn
    obtain ⟨rfl, rfl⟩ := Prod.mk.inj heq
    split
    · next hd => exact .unseen hd
    · next hd => exact .seen hd
  | atWait => obtain ⟨rfl, ⟨⟩⟩ := Instr.next_wait hn; exact .wait
  | asleep => obtain ⟨rfl, ⟨⟩⟩ := Instr.next_lock hn; exact .relock
  | atUnlock => obtain ⟨rfl, ⟨⟩⟩ := Instr.next_unlock hn; exact .unlock
  | atReturn => obtain ⟨rfl, ⟨⟩⟩ := Instr.next_other hn; exact .construct
  | returned => cases (Instr.next_other hn).2
  | failed => cases (Instr.next_other hn).2

end SpawnPc

namespace EntryPc

variable {p q : EntryPc} {d d' : ThreadData} {a : Choice ι ThreadInput}

/-- The moves of the thread. -/
inductive Moves (d : ThreadData) : EntryPc → Choice ι ThreadInput → ThreadData → EntryPc → Prop
  | start (hd : d.created = true) : Moves d .notStarted .next d .atLock
  | lock : Moves d .atLock .next d .atSetRunning
  | setRunning : Moves d .atSetRunning .next (d.setState .running) .atSignal
  | signal (w : Option ι) : Moves d .atSignal (.woken w) d .atTlsReset
  | setTls : Moves d .atTlsReset (.input (.reset true)) { d with tls := true } (.atUnlock true)
  | noTls : Moves d .atTlsReset (.input (.reset false)) { d with ended := some .otherException }
      (.atUnlock false)
  | enter : Moves d (.atUnlock true) .next d .inEntry
  | giveUp : Moves d (.atUnlock false) .next d (.atCause .otherException)
  | finish (e : EntryEnd) : Moves d .inEntry (.input (.finish e)) { d with ended := some e }
      (.atCause e)
  | test (htls : d.tls = true) : Moves d .inEntry (.input .test) d .atTestLock
  | testOutside (htls : d.tls ≠ true) :
      Moves d .inEntry (.input .test) (d.record (.tested false)) .inEntry
  | enable (value : Bool) (htls : d.tls = true) :
      Moves d .inEntry (.input (.enable value)) d (.atEnableLock value)
  | enableOutside (value : Bool) (htls : d.tls ≠ true) :
      Moves d .inEntry (.input (.enable value)) d .inEntry
  | testLock : Moves d .atTestLock .next d .atTest
  | tested : Moves d .atTest .next
      (d.record (.tested (decide (d.cntx.state = .cancelPending)))) .atTestUnlock
  | testUnlock : Moves d .atTestUnlock .next d .inEntry
  | enableLock (value : Bool) : Moves d (.atEnableLock value) .next d (.atEnable value)
  | enabled (value : Bool) : Moves d (.atEnable value) .next
      ((d.setCancelEnabled value).record (.enabled value d.cntx.cancelEnabled)) .atEnableUnlock
  | enableUnlock : Moves d .atEnableUnlock .next d .inEntry
  | cause (e : EntryEnd) : Moves d (.atCause e) .next (d.setExitCause e.cause) .atTlsRelease
  | tlsRelease : Moves d .atTlsRelease .next { d with tls := false } .atExitLock
  | exitLock : Moves d .atExitLock .next d .atSetExited
  | setExited : Moves d .atSetExited .next (d.setState .exited) .atDetachedTest
  | detached (hd : d.cntx.detached = true) : Moves d .atDetachedTest .next d .atDelete
  | attached (hd : d.cntx.detached = false) : Moves d .atDetachedTest .next d .atExitSignal
  | delete : Moves d .atDelete .next { d with alive := false } .atExitUnlock
  | exitSignal (w : Option ι) : Moves d .atExitSignal (.woken w) d .atExitUnlock
  | exitUnlock : Moves d .atExitUnlock .next d .atReturn
  | leave : Moves d .atReturn .next { d with finished := true } .finished

theorem moves_of_next (hn : p.code.next d a = some (d', q)) : Moves d p a d' q := by
  cases p with
  | notStarted =>
    obtain ⟨rfl, hf⟩ := Instr.next_other hn
    obtain ⟨hd, ⟨⟩⟩ := Option.ite_none_right_eq_some.1 hf
    exact .start hd
  | atLock => obtain ⟨rfl, ⟨⟩⟩ := Instr.next_lock hn; exact .lock
  | atSetRunning => obtain ⟨rfl, ⟨⟩⟩ := Instr.next_access hn; exact .setRunning
  | atSignal => obtain ⟨⟨w, rfl⟩, ⟨⟩⟩ := Instr.next_signal hn; exact .signal w
  | atTlsReset =>
    obtain ⟨l, rfl, hf⟩ := Instr.next_input hn
    match l, hf with
    | .reset true, hf => cases hf; exact .setTls
    | .reset false, hf => cases hf; exact .noTls
  | atUnlock ok =>
    obtain ⟨rfl, heq⟩ := Instr.next_unlock hn
    cases ok with
    | true => cases heq; exact .enter
    | false => cases heq; exact .giveUp
  | inEntry =>
    obtain ⟨l, rfl, hf⟩ := Instr.next_input hn
    match l, hf with
    | .finish e, hf => cases hf; exact .finish e
    | .test, hf =>
      by_cases htls : d.tls = true
      · cases (congrArg some (if_pos htls)).symm.trans hf
        exact .test htls
      · cases (congrArg some (if_neg htls)).symm.trans hf
        exact .testOutside htls
    | .enable value, hf =>
      obtain ⟨rfl, rfl⟩ := Prod.mk.inj (Option.some.inj hf)
      split
      · next htls => exact .enable value htls
      · next htls => exact .enableOutside value htls
  | atTestLock => obtain ⟨rfl, ⟨⟩⟩ := Instr.next_lock hn; exact .testLock
  | atTest => obtain ⟨rfl, ⟨⟩⟩ := Instr.next_access hn; exact .tested
  | atTestUnlock => obtain ⟨rfl, ⟨⟩⟩ := Instr.next_unlock hn; exact .testUnlock
  | atEnableLock value => obtain ⟨rfl, ⟨⟩⟩ := Instr.next_lock hn; exact .enableLock value
  | atEnable value => obtain ⟨rfl, ⟨⟩⟩ := Instr.next_access hn; exact .enabled value
  | atEnableUnlock => obtain ⟨rfl, ⟨⟩⟩ := Instr.next_unlock hn; exact .enableUnlock
  | atCause e => obtain ⟨rfl, ⟨⟩⟩ := Instr.next_access hn; exact .cause e
  | atTlsRelease => obtain ⟨rfl, ⟨⟩⟩ := Instr.next_other hn; exact .tlsRelease
  | atExitLock => obtain ⟨rfl, ⟨⟩⟩ := Instr.next_lock hn; exact .exitLock
  | atSetExited => obtain ⟨rfl, ⟨⟩⟩ := Instr.next_access hn; exact .setExited
  | atDetachedTest =>
    obtain ⟨rfl, heq⟩ := Instr.next_access hn
    obtain ⟨rfl, rfl⟩ := Prod.mk.inj heq
    split
    · next hd => exact .detached hd
    · next hd => exact .attached (Bool.eq_false_of_not_eq_true hd)
  | atDelete => obtain ⟨rfl, ⟨⟩⟩ := Instr.next_other hn; exact .delete
  | atExitSignal => obtain ⟨⟨w, rfl⟩, ⟨⟩⟩ := Instr.next_signal hn; exact .exitSignal w
  | atExitUnlock => obtain ⟨rfl, ⟨⟩⟩ := Instr.next_unlock hn; exact .exitUnlock
  | atReturn => obtain ⟨rfl, ⟨⟩⟩ := Instr.next_other hn; exact .leave
  | finished => cases (Instr.next_other hn).2

end EntryPc

namespace CallPc

variable {p q : CallPc} {d d' : ThreadData} {a : Choice ι ThreadInput}

/-- The moves of a caller. A call begins only while there is an object that is not being
destroyed. -/
inductive Moves (d : ThreadData) : CallPc → Choice ι ThreadInput → ThreadData → CallPc → Prop
  | cancel (hd : d.constructed = true ∧ d.destroying = false) :
      Moves d .idle (.input .cancel) d .cancelLock
  | join (hd : d.constructed = true ∧ d.destroying = false) :
      Moves d .idle (.input .join) d (.joinLock .user)
  | timedJoin (hd : d.constructed = true ∧ d.destroying = false) :
      Moves d .idle (.input .timedJoin) d .timedLock
  | destroy (hd : d.constructed = true ∧ d.destroying = false) :
      Moves d .idle (.input .destroy) { d with destroying := true } (.joinLock .destructor)
  | cancelLock : Moves d .cancelLock .next d .cancelCheck
  | cancelLive (hd : d.cntx.state ≠ .exited) : Moves d .cancelCheck .next d .cancelWrite
  | cancelOver (hd : d.cntx.state = .exited) : Moves d .cancelCheck .next d .cancelUnlock
  | request : Moves d .cancelWrite .next ((d.setState .cancelPending).record .requested)
      .cancelUnlock
  | cancelUnlock : Moves d .cancelUnlock .next d .idle
  | joinLock (k : Joiner) : Moves d (.joinLock k) .next d (.joinCheck k)
  | joinLive (k : Joiner) (hd : d.cntx.state ≠ .exited) :
      Moves d (.joinCheck k) .next d (.joinWait k)
  | joinOver (k : Joiner) (hd : d.cntx.state = .exited) :
      Moves d (.joinCheck k) .next d (.joinUnlock k)
  | joinWait (k : Joiner) : Moves d (.joinWait k) .next d (.joinAsleep k)
  | joinRelock (k : Joiner) : Moves d (.joinAsleep k) .next d (.joinCheck k)
  | joined : Moves d (.joinUnlock .user) .next d .idle
  | joinedInDestructor : Moves d (.joinUnlock .destructor) .next d .atPthreadJoin
  | timedLock : Moves d .timedLock .next d .timedCheck
  | timedLive (hd : d.cntx.state ≠ .exited) : Moves d .timedCheck .next d .timedWait
  | timedOver (hd : d.cntx.state = .exited) : Moves d .timedCheck .next d (.timedUnlock true)
  | timedWait : Moves d .timedWait .next d .timedAsleep
  | timedRelock : Moves d .timedAsleep .next d .timedResult
  | resultOk : Moves d .timedResult (.input (.result .ok)) d (.timedUnlock true)
  | resultTimedOut : Moves d .timedResult (.input (.result .timedOut)) d (.timedUnlock false)
  | resultOther : Moves d .timedResult (.input (.result .other)) d .timedWait
  | timedUnlock (ret : Bool) : Moves d (.timedUnlock ret) .next d .idle
  | pthreadJoin (hd : d.finished = true) : Moves d .atPthreadJoin .next d .atDelete
  | delete : Moves d .atDelete .next { d with alive := false } .destroyed

theorem moves_of_next (hn : p.code.next d a = some (d', q)) : Moves d p a d' q := by
  cases p with
  | idle =>
    obtain ⟨l, rfl, hf⟩ := Instr.next_input hn
    obtain ⟨hd, hf⟩ := Option.ite_none_right_eq_some.1 hf
    match l, hf with
    | .cancel, hf => cases hf; exact .cancel hd
    | .join, hf => cases hf; exact .join hd
    | .timedJoin, hf => cases hf; exact .timedJoin hd
    | .destroy, hf => cases hf; exact .destroy hd
  | cancelLock => obtain ⟨rfl, ⟨⟩⟩ := Instr.next_lock hn; exact .cancelLock
  | cancelCheck =>
    obtain ⟨rfl, heq⟩ := Instr.next_access hn
    obtain ⟨rfl, rfl⟩ := Prod.mk.inj heq
    split
    · next hd => exact .cancelLive hd
    · next hd => exact .cancelOver (not_not.1 hd)
  | cancelWrite => obtain ⟨rfl, ⟨⟩⟩ := Instr.next_access hn; exact .request
  | cancelUnlock => obtain ⟨rfl, ⟨⟩⟩ := Instr.next_unlock hn; exact .cancelUnlock
  | joinLock k => obtain ⟨rfl, ⟨⟩⟩ := Instr.next_lock hn; exact .joinLock k
  | joinCheck k =>
    obtain ⟨rfl, heq⟩ := Instr.next_access hn
    obtain ⟨rfl, rfl⟩ := Prod.mk.inj heq
    split
    · next hd => exact .joinLive k hd
    · next hd => exact .joinOver k (not_not.1 hd)
  | joinWait k => obtain ⟨rfl, ⟨⟩⟩ := Instr.next_wait hn; exact .joinWait k
  | joinAsleep k => obtain ⟨rfl, ⟨⟩⟩ := Instr.next_lock hn; exact .joinRelock k
  | joinUnlock k =>
    cases k with
    | user => obtain ⟨rfl, ⟨⟩⟩ := Instr.next_unlock hn; exact .joined
    | destructor => obtain ⟨rfl, ⟨⟩⟩ := Instr.next_unlock hn; exact .joinedInDestructor
  | timedLock => obtain ⟨rfl, ⟨⟩⟩ := Instr.next_lock hn; exact .timedLock
  | timedCheck =>
    obtain ⟨rfl, heq⟩ := Instr.next_access hn
    obtain ⟨rfl, rfl⟩ := Prod.mk.inj heq
    split
    · next hd => exact .timedLive hd
    · next hd => exact .timedOver (not_not.1 hd)
  | timedWait => obtain ⟨rfl, ⟨⟩⟩ := Instr.next_wait hn; exact .timedWait
  | timedAsleep => obtain ⟨rfl, ⟨⟩⟩ := Instr.next_lock hn; exact .timedRelock
  | timedResult =>
    obtain ⟨l, rfl, hf⟩ := Instr.next_input hn
    match l, hf with
    | .result .ok, hf => cases hf; exact .resultOk
    | .result .timedOut, hf => cases hf; exact .resultTimedOut
    | .result .other, hf => cases hf; exact .resultOther
  | timedUnlock ret => obtain ⟨rfl, ⟨⟩⟩ := Instr.next_unlock hn; exact .timedUnlock ret
  | atPthreadJoin =>
    obtain ⟨rfl, hf⟩ := Instr.next_other hn
    obtain ⟨hd, ⟨⟩⟩ := Option.ite_none_right_eq_some.1 hf
    exact .pthreadJoin hd
  | atDelete => obtain ⟨rfl, ⟨⟩⟩ := Instr.next_other hn; exact .delete
  | destroyed => cases (Instr.next_other hn).2

end CallPc

end Libk2
