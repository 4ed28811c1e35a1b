import Libk2.Threading.SpinGuard

/-!
# Progress of `spin_lock`

A failed attempt to acquire the lock raises the counter and lowers it again, and while it is raised
other attempts fail. That alone never stops the lock for good: from every state that can be reached,
the threads can finish what they do, one after another, and leave the counter at -1
(`lock_never_wedged`).

But it may take as long as it pleases. Two threads can keep each other out, each trying while the
other has the counter raised, as often as one likes and with nobody holding the lock
(`attempts_collide`).
-/

namespace Libk2

open StepSystem

namespace SpinSys

variable {τ : Type*} [DecidableEq τ] {v : AtomicVariant} {s s' s'' : SpinSys τ} {t : τ}

/-! ### Single steps -/

section Steps

variable {timed : Bool}

@[simp] theorem pc_goto (s : SpinSys τ) (t : τ) (pc : SpinPc) (value : AtomicInt) :
    (s.goto t pc value).pc t = pc :=
  Function.update_self ..

theorem pc_goto_of_ne {u : τ} (h : u ≠ t) (s : SpinSys τ) (pc : SpinPc) (value : AtomicInt) :
    (s.goto t pc value).pc u = s.pc u :=
  Function.update_of_ne h ..

theorem next_atIncrease_gnu (ht : s.pc t = .atIncrease timed) :
    step .gnu s (.next t false) = some (s.goto t (.increased timed) (s.mCounter + 1)) := by
  simp [step, ht, exchangeAndAdd]

theorem next_atIncrease_locked (ht : s.pc t = .atIncrease timed) :
    step .locked s (.next t false) =
      some (s.goto t (afterIncrease (s.mCounter + 1 != 0) timed) (s.mCounter + 1)) := by
  simp [step, ht, atomicIncrease, AtomicOp.apply, AtomicOp.addend]

theorem next_increased (ht : s.pc t = .increased timed) :
    step v s (.next t false) =
      some (s.goto t (afterIncrease (s.mCounter != 0) timed) s.mCounter) := by
  simp [step, ht, exchangeAndAdd_zero]

theorem next_atDecrease_gnu (ht : s.pc t = .atDecrease timed) :
    step .gnu s (.next t false) = some (s.goto t (.decreased timed) (s.mCounter + -1)) := by
  simp [step, ht, exchangeAndAdd]

theorem next_atDecrease_locked (ht : s.pc t = .atDecrease timed) :
    step .locked s (.next t false) = some (s.goto t (.retry timed) (s.mCounter + -1)) := by
  simp [step, ht, atomicDecrease, AtomicOp.apply, AtomicOp.addend]

theorem next_decreased (ht : s.pc t = .decreased timed) :
    step v s (.next t false) = some (s.goto t (.retry timed) s.mCounter) := by
  simp [step, ht, exchangeAndAdd_zero]

theorem next_atTimer (ht : s.pc t = .atTimer) :
    step v s (.next t true) = some (s.goto t .idle s.mCounter) := by
  simp [step, ht]

theorem next_atRelease_gnu (ht : s.pc t = .atRelease) :
    step .gnu s (.next t false) = some (s.goto t .released (s.mCounter + -1)) := by
  simp [step, ht, exchangeAndAdd]

theorem next_atRelease_locked (ht : s.pc t = .atRelease) :
    step .locked s (.next t false) = some (s.goto t .idle (s.mCounter + -1)) := by
  simp [step, ht, atomicDecrease, AtomicOp.apply, AtomicOp.addend]

theorem next_released (ht : s.pc t = .released) :
    step v s (.next t false) = some (s.goto t .idle s.mCounter) := by
  simp [step, ht, exchangeAndAdd_zero]

end Steps

/-! ### One thread alone -/

/-- Some steps of `t` lead from `s` to `s'`. -/
structure Solo (v : AtomicVariant) (t : τ) (s s' : SpinSys τ) : Prop where
  run : ∃ ls, run (step v) s ls = some s'
  others : ∀ u ≠ t, s'.pc u = s.pc u

theorem Solo.refl (s : SpinSys τ) : Solo v t s s := ⟨⟨[], rfl⟩, fun _ _ ↦ rfl⟩

theorem Solo.step {pc : SpinPc} {value : AtomicInt} {l : SpinLabel τ}
    (h : step v s l = some (s.goto t pc value)) : Solo v t s (s.goto t pc value) :=
  ⟨⟨[l], by rw [run_cons, h]; rfl⟩, fun _ hu ↦ pc_goto_of_ne hu ..⟩

theorem Solo.trans (h : Solo v t s s') (h' : Solo v t s' s'') : Solo v t s s'' := by
  obtain ⟨ls, hrun⟩ := h.run
  obtain ⟨ls', hrun'⟩ := h'.run
  exact ⟨⟨ls ++ ls', run_append_eq_some.2 ⟨s', hrun, hrun'⟩⟩,
    fun u hu ↦ (h'.others u hu).trans (h.others u hu)⟩

/-- A thread in `release()` can end it. -/
theorem exists_solo_of_atRelease (ht : s.pc t = .atRelease) :
    ∃ s', Solo v t s s' ∧ s'.pc t = .idle ∧ s'.mCounter = s.mCounter + -1 := by
  cases v with
  | gnu =>
    have hreleased := Solo.step (next_atRelease_gnu ht)
    have hidle := Solo.step (next_released (v := .gnu)
      (pc_goto s t .released (s.mCounter + -1)))
    exact ⟨_, hreleased.trans hidle, pc_goto .., rfl⟩
  | locked => exact ⟨_, .step (next_atRelease_locked ht), pc_goto .., rfl⟩

/-- A thread that holds the lock can release it. -/
theorem exists_solo_of_holding (ht : s.pc t = .holding) :
    ∃ s', Solo v t s s' ∧ s'.pc t = .idle ∧ s'.mCounter = s.mCounter + -1 := by
  have h : Solo v t s (s.goto t .atRelease s.mCounter) :=
    .step (l := .release t) (by simp [SpinSys.step, ht])
  obtain ⟨s', hsolo, hidle, hcounter⟩ := exists_solo_of_atRelease (v := v) (pc_goto s t _ _)
  exact ⟨s', h.trans hsolo, hidle, hcounter⟩

/-- A thread whose attempt failed can take it back. -/
theorem exists_solo_of_atDecrease {timed : Bool} (ht : s.pc t = .atDecrease timed) :
    ∃ s', Solo v t s s' ∧ (s'.pc t).weight = 0 := by
  cases v with
  | gnu =>
    exact ⟨_, .step (next_atDecrease_gnu ht), by rw [pc_goto]; rfl⟩
  | locked =>
    exact ⟨_, .step (next_atDecrease_locked ht),
      by rw [pc_goto, weight_retry]⟩

/-- **A thread can take back** what it has added to the counter. -/
theorem exists_solo_weight (v : AtomicVariant) (s : SpinSys τ) (t : τ) :
    ∃ s', Solo v t s s' ∧ (s'.pc t).weight = 0 := by
  cases ht : s.pc t with
  | idle | atIncrease | decreased | atTimer | released => exact ⟨s, .refl s, by rw [ht]; rfl⟩
  | atDecrease timed => exact exists_solo_of_atDecrease ht
  | holding =>
    obtain ⟨s', hsolo, hidle, -⟩ := exists_solo_of_holding (v := v) ht
    exact ⟨s', hsolo, by rw [hidle]; rfl⟩
  | atRelease =>
    obtain ⟨s', hsolo, hidle, -⟩ := exists_solo_of_atRelease (v := v) ht
    exact ⟨s', hsolo, by rw [hidle]; rfl⟩
  | increased timed =>
    have h := Solo.step (next_increased (v := v) ht)
    cases hret : s.mCounter != 0 with
    | false =>
      rw [hret] at h
      obtain ⟨s', hsolo, hidle, -⟩ := exists_solo_of_holding (v := v) (pc_goto s t .holding _)
      exact ⟨s', h.trans hsolo, by rw [hidle]; rfl⟩
    | true =>
      rw [hret] at h
      obtain ⟨s', hsolo, hweight⟩ :=
        exists_solo_of_atDecrease (v := v) (pc_goto s t (.atDecrease timed) _)
      exact ⟨s', h.trans hsolo, hweight⟩

/-- A thread that calls `acquire`. -/
theorem solo_acquire (ht : s.pc t = .idle) (timed : Bool) :
    Solo v t s (s.goto t (.atIncrease timed) s.mCounter) :=
  .step (l := .acquire t timed) (if_pos ht)

/-- An attempt on a free lock gets it. -/
theorem exists_solo_acquires {timed : Bool} (ht : s.pc t = .atIncrease timed)
    (hfree : s.mCounter = -1) :
    ∃ s', Solo v t s s' ∧ s'.pc t = .holding ∧ s'.mCounter = 0 := by
  have hzero : s.mCounter + 1 = 0 := by rw [hfree]; rfl
  cases v with
  | gnu =>
    have hincreased := Solo.step (next_atIncrease_gnu ht)
    have hread := Solo.step (next_increased (v := .gnu)
      (pc_goto s t (.increased timed) (s.mCounter + 1)))
    refine ⟨_, hincreased.trans hread, ?_, hzero⟩
    rw [pc_goto]
    show afterIncrease (s.mCounter + 1 != 0) timed = .holding
    rw [hzero]
    rfl
  | locked =>
    refine ⟨_, .step (next_atIncrease_locked ht), ?_, hzero⟩
    rw [pc_goto, hzero]
    rfl

/-- An attempt on a lock that is held fails. -/
theorem exists_solo_fails {timed : Bool} (ht : s.pc t = .atIncrease timed)
    (hheld : s.mCounter = 0) :
    ∃ s', Solo v t s s' ∧ s'.pc t = .atDecrease timed ∧ s'.mCounter = 1 := by
  have hone : s.mCounter + 1 = 1 := by rw [hheld]; rfl
  cases v with
  | gnu =>
    have hincreased := Solo.step (next_atIncrease_gnu ht)
    have hread := Solo.step (next_increased (v := .gnu)
      (pc_goto s t (.increased timed) (s.mCounter + 1)))
    refine ⟨_, hincreased.trans hread, ?_, hone⟩
    rw [pc_goto]
    show afterIncrease (s.mCounter + 1 != 0) timed = .atDecrease timed
    rw [hone]
    rfl
  | locked =>
    refine ⟨_, .step (next_atIncrease_locked ht), ?_, hone⟩
    rw [pc_goto, hone]
    rfl

/-- A thread at the start of an attempt gets a free lock and can release it. -/
theorem exists_solo_of_atIncrease {timed : Bool} (ht : s.pc t = .atIncrease timed)
    (hfree : s.mCounter = -1) :
    ∃ s', Solo v t s s' ∧ s'.pc t = .idle ∧ s'.mCounter = -1 := by
  obtain ⟨s', hsolo, hpc, hcounter⟩ := exists_solo_acquires (v := v) ht hfree
  obtain ⟨s'', hsolo', hidle, hcounter'⟩ := exists_solo_of_holding (v := v) hpc
  exact ⟨s'', hsolo.trans hsolo', hidle, by rw [hcounter', hcounter]; rfl⟩

/-- **A thread can finish** what it does, if nothing is added to the counter. -/
theorem exists_solo_idle (v : AtomicVariant) (hweight : (s.pc t).weight = 0)
    (hfree : s.mCounter = -1) : ∃ s', Solo v t s s' ∧ s'.pc t = .idle ∧ s'.mCounter = -1 := by
  cases ht : s.pc t with
  | increased | atDecrease | holding | atRelease =>
    rw [ht] at hweight
    cases hweight
  | idle => exact ⟨s, .refl s, ht, hfree⟩
  | atIncrease timed => exact exists_solo_of_atIncrease ht hfree
  | atTimer => exact ⟨_, .step (next_atTimer ht), pc_goto .., hfree⟩
  | released => exact ⟨_, .step (next_released ht), pc_goto .., hfree⟩
  | decreased timed =>
    have h := Solo.step (next_decreased (v := v) ht)
    cases timed with
    | false =>
      obtain ⟨s', hsolo, hrest⟩ :=
        exists_solo_of_atIncrease (v := v) (pc_goto s t (.atIncrease false) _) hfree
      exact ⟨s', h.trans hsolo, hrest⟩
    | true =>
      -- the timer has expired
      exact ⟨_, h.trans (.step (next_atTimer (pc_goto s t .atTimer _))), pc_goto .., hfree⟩

/-! ### All threads, one after another -/

variable [Fintype τ]

/-- Nothing is added to the counter. -/
structure Settled (s : SpinSys τ) : Prop where
  weight : ∀ t, (s.pc t).weight = 0
  counter : s.mCounter = -1

omit [DecidableEq τ] in
theorem SpinInv.settled (h : s.SpinInv) (hweight : ∀ t, (s.pc t).weight = 0) : s.Settled where
  weight := hweight
  counter := by
    have hcounter := h.counter
    have htally : tally s.pc = 0 := Finset.sum_eq_zero fun t _ ↦ hweight t
    rw [htally] at hcounter
    exact Int32.toInt_inj.1 hcounter

/-- The threads can take back what they have added. -/
theorem SpinInv.exists_settled (hτ : Fintype.card τ < 2 ^ 31) (v : AtomicVariant) (h : s.SpinInv) :
    ∃ ls s', run (step v) s ls = some s' ∧ s'.Settled := by
  have hsolo : ∀ (s : SpinSys τ) t, s.SpinInv → ∃ ls s', run (step v) s ls = some s' ∧
      s'.SpinInv ∧ (s'.pc t).weight = 0 ∧ ∀ u ≠ t, s'.pc u = s.pc u := by
    intro s t hs
    obtain ⟨s', ⟨⟨ls, hrun⟩, hothers⟩, hweight⟩ := exists_solo_weight v s t
    have hstep : ∀ (s : SpinSys τ) l s', s.SpinInv → step v s l = some s' → s'.SpinInv := by
      intro s l s' hs hstep
      obtain ⟨t, pc, value, rfl, hshift⟩ := shift_of_step hstep
      exact hs.shift hτ hshift
    exact ⟨ls, s', hrun, run_invariant hstep hs hrun, hweight, hothers⟩
  obtain ⟨ls, s', hrun, hinv, hweight⟩ := exists_run_forall_mem (p := pc)
    (P := fun _ pc ↦ pc.weight = 0) hsolo h Finset.univ.toList
  exact ⟨ls, s', hrun, hinv.settled fun t ↦ hweight t (Finset.mem_toList.2 (Finset.mem_univ t))⟩

/-- Then they can finish. -/
theorem Settled.exists_idle (v : AtomicVariant) (h : s.Settled) :
    ∃ ls s', run (step v) s ls = some s' ∧ (∀ t, s'.pc t = .idle) ∧ s'.mCounter = -1 := by
  have hsolo : ∀ (s : SpinSys τ) t, s.Settled → ∃ ls s', run (step v) s ls = some s' ∧
      s'.Settled ∧ s'.pc t = .idle ∧ ∀ u ≠ t, s'.pc u = s.pc u := by
    intro s t hs
    obtain ⟨s', ⟨⟨ls, hrun⟩, hothers⟩, hidle, hcounter⟩ :=
      exists_solo_idle v (hs.weight t) hs.counter
    refine ⟨ls, s', hrun, ⟨fun u ↦ ?_, hcounter⟩, hidle, hothers⟩
    rcases eq_or_ne u t with rfl | hne
    · rw [hidle]
      rfl
    · rw [hothers u hne]
      exact hs.weight u
  obtain ⟨ls, s', hrun, hsettled, hidle⟩ := exists_run_forall_mem (p := pc)
    (P := fun _ pc ↦ pc = .idle) hsolo h Finset.univ.toList
  exact ⟨ls, s', hrun, fun t ↦ hidle t (Finset.mem_toList.2 (Finset.mem_univ t)),
    hsettled.counter⟩

/-- **Never wedged.** From every state that can be reached the threads can finish their calls, and
then any thread can have the lock at its first attempt. -/
theorem lock_never_wedged (hτ : Fintype.card τ < 2 ^ 31) (v : AtomicVariant)
    (ls : List (SpinLabel τ)) (s : SpinSys τ) (hrun : run (step v) (start τ) ls = some s) :
    ∃ ls' s', run (step v) s ls' = some s' ∧ (∀ t, s'.pc t = .idle) ∧ s'.mCounter = -1 ∧
      ∀ t, s'.AcquiresAtOnce v t := by
  have hinv := (spinInv_of_run hτ v ls).last hrun
  obtain ⟨ls₁, s₁, hrun₁, hsettled⟩ := hinv.exists_settled hτ v
  obtain ⟨ls₂, s₂, hrun₂, hidle, hcounter⟩ := hsettled.exists_idle v
  exact ⟨ls₁ ++ ls₂, s₂, run_append_eq_some.2 ⟨s₁, hrun₁, hrun₂⟩, hidle, hcounter,
    fun t ↦ acquiresAtOnce (hidle t) hcounter⟩

/-- Thread 0 has the lock, and thread 1 is in the middle of an attempt. -/
theorem lock_never_wedged_two : ∃ s s' : SpinSys (Fin 2), ∃ ls,
    run (step .gnu) (start (Fin 2)) [.acquire 0 false, .next 0 false, .next 0 false,
      .acquire 1 false, .next 1 false] = some s ∧ s.pc 0 = .holding ∧
    s.pc 1 = .increased false ∧ run (step .gnu) s ls = some s' ∧ s'.mCounter = -1 := by
  obtain ⟨s, hrun, hholding, hincreased⟩ : ∃ s, run (step .gnu) (start (Fin 2))
      [.acquire 0 false, .next 0 false, .next 0 false, .acquire 1 false, .next 1 false] = some s ∧
      s.pc 0 = .holding ∧ s.pc 1 = .increased false :=
    ⟨_, rfl, rfl, rfl⟩
  obtain ⟨ls, s', hrun', -, hcounter, -⟩ := lock_never_wedged (by decide) .gnu _ s hrun
  exact ⟨s, s', ls, hrun, hholding, hincreased, hrun', hcounter⟩

omit [Fintype τ]

/-! ### Attempts that collide -/

/-- Thread `c` tries while `b` has the counter raised, and then `b` lowers it. -/
def collide (v : AtomicVariant) (b c : τ) : List (SpinLabel τ) :=
  match v with
  | .gnu => [.next c false, .next c false, .next b false, .next b false]
  | .locked => [.next c false, .next b false]

/-- The same again and again, with the two taking turns. -/
def collisions (v : AtomicVariant) (b c : τ) : ℕ → List (SpinLabel τ)
  | 0 => []
  | n + 1 => collide v b c ++ collisions v c b n

/-- Both are in `acquire()`, and nobody has the lock. -/
structure InVain (b c : τ) (s : SpinSys τ) : Prop where
  free : ∀ t, ¬ (s.pc t).Holds
  left : (s.pc b).Acquiring
  right : (s.pc c).Acquiring

/-- Where a collision begins: `b` has failed, and `c` is about to try. -/
structure Colliding (b c : τ) (s : SpinSys τ) : Prop where
  free : ∀ t, ¬ (s.pc t).Holds
  raised : s.pc b = .atDecrease false
  tries : s.pc c = .atIncrease false
  counter : s.mCounter = 0

variable {b c : τ}

omit [DecidableEq τ] in
theorem Colliding.inVain (h : s.Colliding b c) : s.InVain b c :=
  ⟨h.free, h.raised ▸ .inr (.inr (.inl rfl)), h.tries ▸ .inl rfl⟩

theorem not_holds_of_acquiring {pc : SpinPc} (h : pc.Acquiring) : ¬ pc.Holds := by
  rcases h with rfl | rfl | rfl | rfl <;> simp [SpinPc.Holds]

/-- One of the two moves on and stays in `acquire()`. -/
theorem InVain.goto (h : s.InVain b c) {pc : SpinPc} (hpc : pc.Acquiring) (t : τ)
    (value : AtomicInt) : (s.goto t pc value).InVain b c := by
  have hupdate : ∀ u, (s.goto t pc value).pc u = pc ∨ (s.goto t pc value).pc u = s.pc u := by
    intro u
    rcases eq_or_ne u t with rfl | hne
    · exact .inl (pc_goto ..)
    · exact .inr (Function.update_of_ne hne ..)
  refine ⟨fun u ↦ ?_, ?_, ?_⟩
  · rcases hupdate u with hu | hu <;> rw [hu]
    · exact not_holds_of_acquiring hpc
    · exact h.free u
  · rcases hupdate b with hb | hb <;> rw [hb]
    · exact hpc
    · exact h.left
  · rcases hupdate c with hc | hc <;> rw [hc]
    · exact hpc
    · exact h.right

/-- **One collision**: both have tried for nothing, and have changed places. -/
theorem Colliding.collide (h : s.Colliding b c) (hne : b ≠ c) (v : AtomicVariant) :
    ∃ s', run (step v) s (collide v b c) = some s' ∧ s'.Colliding c b ∧
      EveryState (step v) (InVain b c) s (SpinSys.collide v b c) := by
  have hfailed : SpinPc.Acquiring (.atDecrease false) := .inr (.inr (.inl rfl))
  have hagain : SpinPc.Acquiring (.atIncrease false) := .inl rfl
  have hdown : (1 : AtomicInt) + -1 = 0 := by decide
  cases v with
  | gnu =>
    have hvain₁ := h.inVain.goto (.inr (.inl rfl) : SpinPc.Acquiring (.increased false)) c 1
    have hvain₂ := hvain₁.goto hfailed c 1
    have hvain₃ := hvain₂.goto (.inr (.inr (.inr rfl)) : SpinPc.Acquiring (.decreased false)) b 0
    have hvain₄ := hvain₃.goto hagain b 0
    set s₁ := s.goto c (.increased false) 1
    set s₂ := s₁.goto c (.atDecrease false) 1
    set s₃ := s₂.goto b (.decreased false) 0
    set s₄ := s₃.goto b (.atIncrease false) 0
    have hb : s₂.pc b = .atDecrease false := by
      rw [pc_goto_of_ne hne, pc_goto_of_ne hne, h.raised]
    have hstep₁ : step .gnu s (.next c false) = some s₁ := by
      rw [next_atIncrease_gnu h.tries, h.counter]
      rfl
    have hstep₂ : step .gnu s₁ (.next c false) = some s₂ := next_increased (pc_goto ..)
    have hstep₃ : step .gnu s₂ (.next b false) = some s₃ := by
      rw [next_atDecrease_gnu hb, show s₂.mCounter + -1 = 0 from hdown]
    have hstep₄ : step .gnu s₃ (.next b false) = some s₄ := next_decreased (pc_goto ..)
    refine ⟨s₄, ?_, ⟨hvain₄.free, ?_, pc_goto .., rfl⟩, ?_⟩
    · simp only [SpinSys.collide, run_cons, hstep₁, hstep₂, hstep₃, hstep₄, Option.bind_some,
        run_nil]
    · rw [pc_goto_of_ne hne.symm, pc_goto_of_ne hne.symm, pc_goto]
    · exact .cons h.inVain hstep₁ (.cons hvain₁ hstep₂ (.cons hvain₂ hstep₃
        (.cons hvain₃ hstep₄ (everyState_nil hvain₄))))
  | locked =>
    have hvain₁ := h.inVain.goto hfailed c 1
    have hvain₂ := hvain₁.goto hagain b 0
    set s₁ := s.goto c (.atDecrease false) 1
    set s₂ := s₁.goto b (.atIncrease false) 0
    have hb : s₁.pc b = .atDecrease false := by rw [pc_goto_of_ne hne, h.raised]
    have hstep₁ : step .locked s (.next c false) = some s₁ := by
      rw [next_atIncrease_locked h.tries, h.counter]
      rfl
    have hstep₂ : step .locked s₁ (.next b false) = some s₂ := by
      rw [next_atDecrease_locked hb, show s₁.mCounter + -1 = 0 from hdown]
      rfl
    refine ⟨s₂, ?_, ⟨hvain₂.free, ?_, pc_goto .., rfl⟩, ?_⟩
    · simp only [SpinSys.collide, run_cons, hstep₁, hstep₂, Option.bind_some, run_nil]
    · rw [pc_goto_of_ne hne.symm, pc_goto]
    · exact .cons h.inVain hstep₁ (.cons hvain₁ hstep₂ (everyState_nil hvain₂))

omit [DecidableEq τ] in
theorem InVain.symm (h : s.InVain b c) : s.InVain c b := ⟨h.free, h.right, h.left⟩

theorem Colliding.collisions (h : s.Colliding b c) (hne : b ≠ c) (v : AtomicVariant) (n : ℕ) :
    ∃ s', run (step v) s (collisions v b c n) = some s' ∧
      EveryState (step v) (InVain b c) s (SpinSys.collisions v b c n) := by
  induction n generalizing s b c with
  | zero => exact ⟨s, rfl, everyState_nil h.inVain⟩
  | succ n ih =>
    obtain ⟨s₁, hrun₁, hcolliding, hvain₁⟩ := h.collide hne v
    obtain ⟨s₂, hrun₂, hvain₂⟩ := ih hcolliding hne.symm
    exact ⟨s₂, run_append_eq_some.2 ⟨s₁, hrun₁, hrun₂⟩,
      hvain₁.append hrun₁ (hvain₂.mono fun _ hs ↦ hs.symm)⟩

/-- Thread `a` takes the lock, `b` tries and fails, `c` calls `acquire()`, and `a` releases. -/
theorem exists_colliding {a : τ} (hab : a ≠ b) (hac : a ≠ c) (hbc : b ≠ c) (v : AtomicVariant) :
    ∃ ls s, run (step v) (start τ) ls = some s ∧ s.Colliding b c := by
  have ha : Solo v a (start τ) ((start τ).goto a (.atIncrease false) (-1)) :=
    solo_acquire rfl false
  obtain ⟨s₁, h₁, hholding, hcounter₁⟩ :=
    exists_solo_acquires (v := v) (pc_goto (start τ) a (.atIncrease false) (-1)) rfl
  have hothers₁ : ∀ u ≠ a, s₁.pc u = .idle := fun u hu ↦ (ha.trans h₁).others u hu
  have hb := solo_acquire (v := v) (hothers₁ b hab.symm) false
  obtain ⟨s₂, h₂, hfailed, hcounter₂⟩ :=
    exists_solo_fails (v := v) (pc_goto s₁ b (.atIncrease false) s₁.mCounter) hcounter₁
  have hothers₂ := (hb.trans h₂).others
  have hc := solo_acquire (v := v) (t := c)
    ((hothers₂ c hbc.symm).trans (hothers₁ c hac.symm)) false
  obtain ⟨s₃, h₃, hidle, hcounter₃⟩ := exists_solo_of_holding (v := v) (t := a)
    (s := s₂.goto c (.atIncrease false) s₂.mCounter)
    (((hc.others a hac).trans (hothers₂ a hab)).trans hholding)
  obtain ⟨ls₁, hrun₁⟩ := (ha.trans h₁).run
  obtain ⟨ls₂, hrun₂⟩ := (hb.trans h₂).run
  obtain ⟨ls₃, hrun₃⟩ := hc.run
  obtain ⟨ls₄, hrun₄⟩ := h₃.run
  refine ⟨ls₁ ++ (ls₂ ++ (ls₃ ++ ls₄)), s₃, run_append_eq_some.2 ⟨s₁, hrun₁, run_append_eq_some.2
    ⟨s₂, hrun₂, run_append_eq_some.2 ⟨_, hrun₃, hrun₄⟩⟩⟩, ?_⟩
  have hraised : s₃.pc b = .atDecrease false := by
    rw [h₃.others b hab.symm, hc.others b hbc, hfailed]
  have htries : s₃.pc c = .atIncrease false := by rw [h₃.others c hac.symm, pc_goto]
  have hcounter : s₃.mCounter = 0 := by
    rw [hcounter₃, show (s₂.goto c (.atIncrease false) s₂.mCounter).mCounter = 1 from hcounter₂]
    rfl
  refine ⟨fun t ↦ ?_, hraised, htries, hcounter⟩
  -- everybody else has not moved
  by_cases hta : t = a
  · rw [hta, hidle]
    simp [SpinPc.Holds]
  · by_cases htb : t = b
    · rw [htb, hraised]
      simp [SpinPc.Holds]
    · by_cases htc : t = c
      · rw [htc, htries]
        simp [SpinPc.Holds]
      · rw [h₃.others t hta, hc.others t htc, hothers₂ t htb, hothers₁ t hta]
        simp [SpinPc.Holds]

/-- **Collisions.** With either variant of the atomic functions there are runs of any length in
which nobody has the lock and two threads try to acquire it in turns, and neither gets it. -/
theorem attempts_collide (v : AtomicVariant) (a b c : τ) (hab : a ≠ b) (hac : a ≠ c) (hbc : b ≠ c)
    (n : ℕ) : ∃ ls s s', run (step v) (start τ) ls = some s ∧
      run (step v) s (collisions v b c n) = some s' ∧
      EveryState (step v) (InVain b c) s (collisions v b c n) := by
  obtain ⟨ls, s, hrun, hcolliding⟩ := exists_colliding hab hac hbc v
  obtain ⟨s', hrun', hvain⟩ := hcolliding.collisions hbc v n
  exact ⟨ls, s, s', hrun, hrun', hvain⟩

theorem attempts_collide_three : ∃ ls s s',
    run (step .gnu) (start (Fin 3)) ls = some s ∧
      run (step .gnu) s (collisions .gnu 1 2 100) = some s' ∧
      EveryState (step .gnu) (InVain 1 2) s (collisions .gnu 1 2 100) :=
  attempts_collide .gnu 0 1 2 (by decide) (by decide) (by decide) 100

end SpinSys

end Libk2
