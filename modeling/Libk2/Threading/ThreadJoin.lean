import Libk2.Threading.ThreadCancel

/-!
# Joining

The wrapper ends with `signal`, which wakes one sleeper. A caller of `join` is released by it if it
is the one that is woken (`joiners_released`), as it is if no other caller sleeps then
(`oneJoinerAtExit_of_alone`); of two sleeping callers one is left behind (`left_asleep`), and nobody
signals again.
-/

namespace Libk2

open Monitor StepSystem

/-- The wrapper's signal has been given. -/
def EntryPc.Signalled : EntryPc → Prop
  | .atExitUnlock | .atReturn | .finished => True
  | _ => False

namespace EntryPc

variable {p q : EntryPc} {d d' : ThreadData} {τ : Type*} {a : Choice (Party τ) ThreadInput}

theorem phase_of_signalled {s : ThreadState} (hp : p.Signalled) (h : p.Phase s) : s = .exited := by
  cases p with
  | atExitUnlock => exact h
  | atReturn => exact h
  | finished => exact h
  | _ => exact hp.elim

/-- Of an attached thread only the signal leads there. -/
theorem signalled_of_next (h : p.View d) (hatt : d.cntx.detached = false)
    (hn : p.code.next d a = some (d', q)) (hq : q.Signalled) : p.Signalled ∨ p = .atExitSignal := by
  cases moves_of_next hn with
  | exitSignal w => exact .inr rfl
  | exitUnlock => exact .inl trivial
  | leave => exact .inl trivial
  | delete => exact absurd (hatt.symm.trans h.branch) Bool.false_ne_true
  | _ => exact hq.elim

end EntryPc

namespace ThreadSys

variable {τ : Type*} {c c' : ThreadSys τ} {l : ThreadLabel τ}

/-- Caller `t` sleeps in `join`. -/
def JoinerAsleep (c : ThreadSys τ) (t : τ) : Prop :=
  (∃ k, c.callerPc t = .joinAsleep k) ∧ .caller t ∈ c.shared.monitor.waiting

/-- **The condition.** Whoever sleeps in `join` when the wrapper signals is woken by the signal, so
that there is one such caller at most. A caller of the timed `join` may sleep beside it. -/
def OneJoinerAtExit (c : ThreadSys τ) (l : ThreadLabel τ) : Prop :=
  ∀ w, c.threadPc = .atExitSignal → l = .act .thread (.woken w) → ∀ t, c.JoinerAsleep t →
    w = some (.caller t)

/-- After the signal nobody sleeps in `join`. -/
structure JoinInv (c : ThreadSys τ) : Prop where
  views : c.Views
  attached : c.data.cntx.detached = false
  released : c.threadPc.Signalled → ∀ t, ¬ c.JoinerAsleep t

variable [DecidableEq τ]

/-- Somebody else's step puts nobody to sleep. -/
theorem JoinerAsleep.of_effect {i : Party τ} {m : Monitor (Party τ)} {d : ThreadData} {p : i.Pc}
    {a : Choice (Party τ) ThreadInput} {t : τ}
    (hm : ((threadProgram τ).code i (c.pos i)).effect i c.shared.monitor a = some m)
    (hti : .caller t ≠ i)
    (h : JoinerAsleep ⟨⟨m, d⟩, Function.update c.pos i p⟩ t) : c.JoinerAsleep t := by
  obtain ⟨⟨k, hk⟩, hmem⟩ := h
  exact ⟨⟨k, (Function.update_of_ne hti p c.pos).symm.trans hk⟩,
    Instr.mem_waiting_of_effect hm hti hmem⟩

/-- A caller does not fall asleep in `join` once the state is `exited`. -/
theorem Views.not_joinerAsleep (h : c.Views) (hd : c.state = .exited) {m : Monitor (Party τ)}
    {d : ThreadData} {t : τ} {p : CallPc} {a : Choice (Party τ) ThreadInput}
    (hn : (c.callerPc t).code.next c.shared.data a = some (d, p)) :
    ¬ JoinerAsleep ⟨⟨m, d⟩, Function.update c.pos (.caller t) p⟩ t := by
  rintro ⟨⟨k, hk⟩, -⟩
  have hself : callerPc ⟨⟨m, d⟩, Function.update c.pos (.caller t) p⟩ t = p :=
    Function.update_self (Party.caller t) _ c.pos
  obtain rfl : p = .joinAsleep k := hself.symm.trans hk
  have hview := h.caller t
  generalize c.callerPc t = pc at hview hn
  cases CallPc.moves_of_next hn with
  | joinWait => exact hview.2 hd

omit [DecidableEq τ] in
/-- Beside a caller of `join` the other parties are not asleep. -/
theorem Views.exists_caller_of_mem (h : c.Views) {t : τ} (ht : c.JoinerAsleep t) {i : Party τ}
    (hi : i ∈ c.shared.monitor.waiting) : ∃ u, i = .caller u := by
  cases i with
  | spawner =>
    obtain ⟨⟨k, hk⟩, -⟩ := ht
    have hview := h.caller t
    rw [hk] at hview
    have hasleep : c.spawnerPc = .asleep := (h.2 .spawner).1.asleep_of_mem hi
    exact absurd (hasleep.symm.trans (h.spawner.returned hview)) nofun
  | thread => exact ((h.2 .thread).1.asleep_of_mem hi).elim
  | caller u => exact ⟨u, rfl⟩

/-- A caller of `join` that sleeps alone is woken. -/
theorem oneJoinerAtExit_of_alone (h : c.Views) (hstep : c.step l = some c')
    (halone : ∀ t, c.JoinerAsleep t → ∀ u, .caller u ∈ c.shared.monitor.waiting → u = t) :
    c.OneJoinerAtExit l := by
  rintro w hpc rfl t ht
  obtain ⟨i, m, ⟨⟩, -⟩ | ⟨i, b, m, d, p, ⟨⟩, hm, -, -⟩ := Program.step_cases hstep
  replace hm : c.threadPc.code.effect .thread c.shared.monitor _ = some m := hm
  rw [hpc] at hm
  cases w with
  | none =>
    have hempty : c.shared.monitor.waiting = ∅ := (Option.ite_none_right_eq_some.1 hm).1
    exact absurd ht.2 (hempty ▸ Finset.notMem_empty _)
  | some i =>
    have hi : i ∈ c.shared.monitor.waiting := (Option.ite_none_right_eq_some.1 hm).1
    obtain ⟨u, rfl⟩ := h.exists_caller_of_mem ht hi
    rw [halone t ht u hi]

/-- The signal leaves nobody asleep in `join`. -/
theorem not_asleep_of_signal {a : Choice (Party τ) ThreadInput}
    (hl : c.OneJoinerAtExit (.act .thread a)) (hpc : c.threadPc = .atExitSignal)
    {m : Monitor (Party τ)} {r : ThreadData × EntryPc}
    (hm : c.threadPc.code.effect .thread c.shared.monitor a = some m)
    (hn : c.threadPc.code.next c.shared.data a = some r) {t : τ} (ht : c.JoinerAsleep t) :
    Party.caller t ∉ m.waiting := by
  rw [hpc] at hm hn
  obtain ⟨⟨w, rfl⟩, -⟩ := Instr.next_signal hn
  obtain rfl : w = some (.caller t) := hl w hpc rfl t ht
  obtain ⟨-, ⟨⟩⟩ := Option.ite_none_right_eq_some.1 hm
  exact Finset.notMem_erase _ _

theorem JoinInv.step (h : c.JoinInv) (hl : c.OneJoinerAtExit l) (hstep : c.step l = some c') :
    c'.JoinInv := by
  refine ⟨h.views.step hstep, (h.views.detached_eq hstep).trans h.attached, ?_⟩
  obtain ⟨i, m, rfl, hm, rfl⟩ | ⟨i, a, m, d, p, rfl, hm, hn, rfl⟩ := Program.step_cases hstep
  · exact fun hpc t ⟨hk, hmem⟩ ↦ h.released hpc t ⟨hk, (quieter_of_wake hm).subset hmem⟩
  · intro hpc t ht
    cases i with
    | spawner => exact h.released hpc t (ht.of_effect hm nofun)
    | thread =>
      have ht' := ht.of_effect hm nofun
      rcases EntryPc.signalled_of_next h.views.thread h.attached hn hpc with hp | hp
      · exact h.released hp t ht'
      · exact (not_asleep_of_signal hl hp hm hn ht') ht.2
    | caller u =>
      by_cases htu : t = u
      · subst htu
        have hd := EntryPc.phase_of_signalled hpc h.views.thread.phase
        exact h.views.not_joinerAsleep hd hn ht
      · exact h.released hpc t (ht.of_effect hm fun heq ↦ htu (Party.caller.inj heq))

/-- **Every joiner is released** when the thread exits, along a run in which the exit's signal wakes
whoever sleeps in `join` then. -/
theorem joiners_released {ls : List (ThreadLabel τ)}
    (h : EveryStep step OneJoinerAtExit (start τ false) ls) :
    EveryState step (fun c ↦ c.threadPc = .finished → ∀ t, ¬ c.JoinerAsleep t) (start τ false)
      ls := by
  have hinv : EveryState step JoinInv (start τ false) ls :=
    everyState_of_everyStep (fun _ _ _ hc hl hstep ↦ hc.step hl hstep)
      ⟨views_start τ false, rfl, False.elim⟩ h
  exact hinv.mono fun c hc hpc ↦ hc.released (hpc ▸ trivial)

theorem joiners_released_one : ∃ c : ThreadSys Unit,
    run step (start Unit false) (startUp Unit ++ joinBy () ++ exitTo (some (.caller ()))) = some c ∧
      c.threadPc = .finished ∧ ∀ t, ¬ c.JoinerAsleep t := by
  obtain ⟨c, hrun, hpc⟩ : ∃ c : ThreadSys Unit, run step (start Unit false)
      (startUp Unit ++ joinBy () ++ exitTo (some (.caller ()))) = some c ∧ c.threadPc = .finished :=
    ⟨_, rfl, rfl⟩
  have hone : EveryStep step OneJoinerAtExit (start Unit false)
      (startUp Unit ++ joinBy () ++ exitTo (some (.caller ()))) := by
    refine (everyStep_of_run hrun).imp_of_everyState (views_of_run false _) fun s l hs hl ↦ ?_
    obtain ⟨s', hstep⟩ := hl
    exact oneJoinerAtExit_of_alone hs hstep fun _ _ _ _ ↦ rfl
  exact ⟨c, hrun, hpc, (joiners_released hone).last hrun hpc⟩

/-- Of two callers that sleep when the wrapper signals, one is still asleep after the signal. -/
theorem left_asleep {c' : ThreadSys τ} {a : Choice (Party τ) ThreadInput}
    (hpc : c.threadPc = .atExitSignal) (hstep : c.step (.act .thread a) = some c') {t u : τ}
    (ht : .caller t ∈ c.shared.monitor.waiting) (hu : .caller u ∈ c.shared.monitor.waiting)
    (htu : t ≠ u) :
    .caller t ∈ c'.shared.monitor.waiting ∨ .caller u ∈ c'.shared.monitor.waiting := by
  obtain ⟨i, m, ⟨⟩, -⟩ | ⟨i, b, m, d, p, ⟨⟩, hm, hn, rfl⟩ := Program.step_cases hstep
  replace hm : c.threadPc.code.effect .thread c.shared.monitor a = some m := hm
  replace hn : c.threadPc.code.next c.shared.data a = some (d, p) := hn
  rw [hpc] at hm hn
  obtain ⟨⟨w, rfl⟩, ⟨⟩⟩ := Instr.next_signal hn
  exact nonempty_of_signal hm ht hu fun heq ↦ htu (Party.caller.inj heq)

/-- **Two joiners.** The wrapper wakes one of them, and the other sleeps on after the thread has
finished. -/
theorem second_joiner_asleep : ¬ ∀ ls : List (ThreadLabel Bool),
    EveryState step (fun c ↦ c.threadPc = .finished → ∀ t, ¬ c.JoinerAsleep t)
      (start Bool false) ls := by
  intro hall
  obtain ⟨c, hrun, hpc, hasleep⟩ : ∃ c : ThreadSys Bool, run step (start Bool false)
      (startUp Bool ++ joinBy false ++ joinBy true ++ exitTo (some (.caller false))) = some c ∧
        c.threadPc = .finished ∧ c.JoinerAsleep true := ⟨_, rfl, rfl, ⟨.user, rfl⟩, by decide⟩
  exact (hall _).last hrun hpc true hasleep

end ThreadSys

end Libk2
