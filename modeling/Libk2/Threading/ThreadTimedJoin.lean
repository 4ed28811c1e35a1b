import Libk2.Threading.ThreadJoin

/-!
# The timed join

`join(timer)` tests the state once, before it waits; after the wait it returns what the wait has
returned, and `cond_var::wait` takes that from `pthread_cond_timedwait`. Whether `true` means that
the thread has exited is therefore left to whoever wakes the caller: the answer is right exactly if
the result that is passed on fits the state (`ResultFitsState`), and so it is right along a run
exactly if that is so at every return of `pthread_cond_timedwait` (`tellsTruth_iff`).

Signals are not to blame: the only one that wakes a caller is that of the exit (`exited_of_woken`).
But POSIX lets a wait return without a signal, and then a running thread is reported to have exited
(`woken_early`); and the exit may come between a time-out and the mutex, and then an exited thread
is reported to be running (`timed_out_late`).
-/

namespace Libk2

open Monitor StepSystem

/-- The thread has not left the scope of its first guard. -/
def EntryPc.Early : EntryPc → Prop
  | .notStarted | .atLock | .atSetRunning | .atSignal | .atTlsReset | .atUnlock _ => True
  | _ => False

namespace EntryPc

variable {p q : EntryPc} {d d' : ThreadData} {τ : Type*} {a : Choice (Party τ) ThreadInput}

/-- It does not come back there. -/
theorem Early.of_next (hq : q.Early) (hn : p.code.next d a = some (d', q)) : p.Early := by
  cases moves_of_next hn <;> trivial

/-- Until it has the mutex the state is `initializing`. -/
theorem Early.holds (h : p.Early) {s : ThreadState} (hphase : p.Phase s) (hs : s ≠ .initializing) :
    p.Holds := by
  cases p with
  | notStarted => exact absurd hphase hs
  | atLock => exact absurd hphase hs
  | atSetRunning => exact absurd hphase hs
  | atSignal => trivial
  | atTlsReset => trivial
  | atUnlock => trivial
  | _ => exact h.elim

end EntryPc

/-- The spawner has seen the thread run. -/
def SpawnPc.Seen : SpawnPc → Prop
  | .atUnlock | .atReturn | .returned => True
  | _ => False

theorem SpawnPc.Seen.of_next {p q : SpawnPc} {d d' : ThreadData} {τ : Type*}
    {a : Choice (Party τ) ThreadInput} (hq : q.Seen) (hn : p.code.next d a = some (d', q)) :
    p.Seen ∨ p = .atCheck ∧ d.cntx.state ≠ .initializing := by
  cases moves_of_next hn with
  | seen hd => exact .inr ⟨rfl, hd⟩
  | unlock => exact .inl trivial
  | construct => exact .inl trivial
  | _ => exact hq.elim

namespace ThreadSys

variable {τ : Type*} {c c' : ThreadSys τ} {l : ThreadLabel τ} {t : τ}

/-- The timed `join` of caller `t`, if it is about to return, returns whether the thread has exited.
It does so with the mutex, so the state is the one at its `return`. -/
def AnswersTruly (c : ThreadSys τ) (t : τ) : Prop :=
  ∀ ret, c.callerPc t = .timedUnlock ret → (ret = true ↔ c.state = .exited)

/-- Every timed `join` that is about to return returns whether the thread has exited. -/
def TellsTruth (c : ThreadSys τ) : Prop :=
  ∀ t, c.AnswersTruly t

/-- **The condition.** When `pthread_cond_timedwait` returns to a caller of the timed `join`, it
returns 0 only if the thread has exited, and `ETIMEDOUT` only if it has not. -/
def ResultFitsState (c : ThreadSys τ) (l : ThreadLabel τ) : Prop :=
  ∀ t r, c.callerPc t = .timedResult → l = .act (.caller t) (.input (.result r)) →
    (r = .ok → c.state = .exited) ∧ (r = .timedOut → c.state ≠ .exited)

/-- The answers are right, and so are the views. -/
structure TruthInv (c : ThreadSys τ) : Prop where
  views : c.Views
  truth : c.TellsTruth

variable [DecidableEq τ]

/-- A caller that is about to return holds the mutex, so nobody else changes the state. -/
theorem AnswersTruly.of_other (h : c.AnswersTruly t) (hviews : c.Views) {i : Party τ}
    {m : Monitor (Party τ)} {d : ThreadData} {p : i.Pc} {a : Choice (Party τ) ThreadInput}
    (hn : ((threadProgram τ).code i (c.pos i)).next c.shared.data a = some (d, p))
    (hti : .caller t ≠ i) : AnswersTruly ⟨⟨m, d⟩, Function.update c.pos i p⟩ t := by
  intro ret hret
  have hpc : c.callerPc t = .timedUnlock ret :=
    (Function.update_of_ne hti p c.pos).symm.trans hret
  have hholds : (threadProgram τ).holds (.caller t) (c.pos (.caller t)) := by
    show (c.callerPc t).Holds
    rw [hpc]
    trivial
  have hnot : ¬ (threadProgram τ).holds i (c.pos i) := fun hi ↦
    hti ((hviews.2 (.caller t)).1.exclusive (hviews.2 i).1 hholds hi)
  have hstate : d.cntx.state = c.state := (hviews.forward hn).state_eq hnot
  exact (h ret hpc).trans (by rw [← hstate]; exact Iff.rfl)

/-- A result that fits the state makes the answer right. -/
theorem ResultFitsState.answersTruly {a : Choice (Party τ) ThreadInput}
    (hl : c.ResultFitsState (.act (.caller t) a)) {m : Monitor (Party τ)} {d : ThreadData}
    {p : CallPc} (hn : (c.callerPc t).code.next c.shared.data a = some (d, p)) :
    AnswersTruly ⟨⟨m, d⟩, Function.update c.pos (.caller t) p⟩ t := by
  intro ret hret
  have hself : callerPc ⟨⟨m, d⟩, Function.update c.pos (.caller t) p⟩ t = p :=
    Function.update_self (Party.caller t) _ c.pos
  obtain rfl : p = .timedUnlock ret := hself.symm.trans hret
  generalize hpc : c.callerPc t = pc at hn
  -- from the test of the state, or from the wait with what that has returned
  cases CallPc.moves_of_next hn with
  | timedOver hd => exact iff_of_true rfl hd
  | resultOk => exact iff_of_true rfl ((hl t .ok hpc rfl).1 rfl)
  | resultTimedOut => exact iff_of_false Bool.false_ne_true ((hl t .timedOut hpc rfl).2 rfl)

theorem TruthInv.step (h : c.TruthInv) (hl : c.ResultFitsState l) (hstep : c.step l = some c') :
    c'.TruthInv := by
  refine ⟨h.views.step hstep, fun t ↦ ?_⟩
  obtain ⟨i, m, rfl, -, rfl⟩ | ⟨i, a, m, d, p, rfl, -, hn, rfl⟩ := Program.step_cases hstep
  · exact h.truth t
  · by_cases hti : Party.caller t = i
    · subst hti
      exact hl.answersTruly hn
    · exact (h.truth t).of_other h.views hn hti

/-- The wait returns, and the timed `join` with it. -/
theorem step_result (hpc : c.callerPc t = .timedResult) {r : WaitResult} {p : CallPc}
    (hn : CallPc.timedResult.code.next c.shared.data (.input (.result r) : Choice (Party τ) _) =
      some (c.shared.data, p)) :
    c.step (.act (.caller t) (.input (.result r))) =
      some ⟨c.shared, Function.update c.pos (.caller t) p⟩ := by
  show ((c.callerPc t).code.exec (.caller t) c.shared (.input (.result r))).map _ = _
  rw [hpc]
  show ((CallPc.timedResult.code.next c.shared.data _).map _).map _ = _
  rw [hn]
  rfl

/-- Where the answer is right after the step, the result fits. -/
theorem resultFitsState_of_step (h : ∀ c', c.step l = some c' → c'.TellsTruth) :
    c.ResultFitsState l := by
  rintro t r hpc rfl
  have hself : ∀ p : CallPc,
      callerPc ⟨c.shared, Function.update c.pos (.caller t) p⟩ t = p :=
    fun p ↦ Function.update_self (Party.caller t) _ c.pos
  constructor
  · rintro rfl
    exact (h _ (step_result hpc rfl) t true (hself _)).1 rfl
  · rintro rfl hd
    exact Bool.false_ne_true ((h _ (step_result hpc rfl) t false (hself _)).2 hd)

/-- **The timed join tells the truth** along a run exactly if what its waits return fits the
state. -/
theorem tellsTruth_iff (ls : List (ThreadLabel τ)) :
    EveryState step TellsTruth (start τ false) ls ↔
      EveryStep step ResultFitsState (start τ false) ls := by
  constructor
  · intro h ls₁ l ls₂ c hls hrun
    exact resultFitsState_of_step (h.next ls₁ l ls₂ c hls hrun)
  · intro h
    have hinv : EveryState step TruthInv (start τ false) ls :=
      everyState_of_everyStep (fun _ _ _ hc hl hstep ↦ hc.step hl hstep)
        ⟨views_start τ false, fun _ _ heq ↦ nomatch heq⟩ h
    exact hinv.mono fun c hc ↦ hc.truth

/-! ### Who wakes a caller -/

/-- While the thread is in its first guard, the spawner has not seen it run. -/
structure GuardInv (c : ThreadSys τ) : Prop where
  views : c.Views
  unseen : c.threadPc.Early → ¬ c.spawnerPc.Seen

theorem GuardInv.step (h : c.GuardInv) (hstep : c.step l = some c') : c'.GuardInv := by
  refine ⟨h.views.step hstep, ?_⟩
  obtain ⟨i, m, rfl, -, rfl⟩ | ⟨i, a, m, d, p, rfl, -, hn, rfl⟩ := Program.step_cases hstep
  · exact h.unseen
  · cases i with
    | spawner =>
      intro hearly hseen
      rcases SpawnPc.Seen.of_next hseen hn with hseen | ⟨hpc, hd⟩
      · exact h.unseen hearly hseen
      · -- both would hold the mutex
        have hthread : c.threadPc.Holds := EntryPc.Early.holds hearly h.views.thread.phase hd
        have hspawner : SpawnPc.Holds (c.pos .spawner) := by rw [hpc]; trivial
        exact absurd ((h.views.2 .spawner).1.exclusive (h.views.2 .thread).1 hspawner hthread) nofun
    | thread => exact fun hearly ↦ h.unseen (EntryPc.Early.of_next hearly hn)
    | caller t => exact h.unseen

omit [DecidableEq τ] in
/-- While the thread is in its first guard, nobody sleeps in a call. -/
theorem GuardInv.notMem_waiting (h : c.GuardInv) (hearly : c.threadPc.Early) (t : τ) :
    Party.caller t ∉ c.shared.monitor.waiting := by
  intro hmem
  have hasleep : (c.callerPc t).Asleep := (h.views.2 (.caller t)).1.asleep_of_mem hmem
  have hcons : c.data.constructed = true :=
    (h.views.caller t).constructed fun hidle ↦ by rw [hidle] at hasleep; exact hasleep
  refine h.unseen hearly ?_
  rw [h.views.spawner.returned hcons]
  trivial

/-- **A caller that is woken by a signal** is woken by the exit. -/
theorem exited_of_woken {ls : List (ThreadLabel τ)} (h : run step (start τ false) ls = some c)
    (hstep : c.step (.act .thread (.woken (some (.caller t)))) = some c') : c.state = .exited := by
  have hguard : c.GuardInv :=
    run_invariant (fun _ _ _ hc hnext ↦ hc.step hnext) ⟨views_start τ false, fun _ ↦ id⟩ h
  obtain ⟨i, m, ⟨⟩, -⟩ | ⟨i, a, m, d, p, ⟨⟩, hm, hn, -⟩ := Program.step_cases hstep
  replace hm : c.threadPc.code.effect .thread c.shared.monitor _ = some m := hm
  replace hn : c.threadPc.code.next c.shared.data _ = some (d, p) := hn
  have hphase := hguard.views.thread.phase
  have hquiet := hguard.notMem_waiting
  generalize c.threadPc = pc at hm hn hphase hquiet
  cases EntryPc.moves_of_next hn with
  | signal =>
    obtain ⟨hmem, -⟩ := Option.ite_none_right_eq_some.1 hm
    exact absurd hmem (hquiet trivial t)
  | exitSignal => exact hphase

/-- Caller `t` calls the timed `join`, and falls asleep. -/
def timedJoinBy {τ : Type*} (t : τ) : List (ThreadLabel τ) :=
  [.act (.caller t) (.input .timedJoin), .act (.caller t) .next, .act (.caller t) .next,
    .act (.caller t) .next]

/-- **Woken early.** The wait returns without a signal, and the timed `join` of a running thread
returns `true`. -/
theorem woken_early : ¬ ∀ ls : List (ThreadLabel Unit),
    EveryState step TellsTruth (start Unit false) ls := by
  intro hall
  obtain ⟨c, hrun, hpc, hd⟩ : ∃ c : ThreadSys Unit, run step (start Unit false)
      (startUp Unit ++ timedJoinBy () ++ [.env (.caller ()), .act (.caller ()) .next,
        .act (.caller ()) (.input (.result .ok))]) = some c ∧
        c.callerPc () = .timedUnlock true ∧ c.state = .running := ⟨_, rfl, rfl, rfl⟩
  exact absurd (((hall _).last hrun () true hpc).1 rfl) (hd.trans_ne nofun)

/-- **Timed out late.** The thread exits after the time-out and before the caller has the mutex, and
the timed `join` of an exited thread returns `false`. -/
theorem timed_out_late : ∃ c : ThreadSys Unit, run step (start Unit false)
    (startUp Unit ++ timedJoinBy () ++ [.env (.caller ())] ++ exitTo none ++
      [.act (.caller ()) .next, .act (.caller ()) (.input (.result .timedOut))]) = some c ∧
      c.callerPc () = .timedUnlock false ∧ c.state = .exited :=
  ⟨_, rfl, rfl, rfl⟩

end ThreadSys

end Libk2
