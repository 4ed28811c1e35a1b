import Mathlib.Algebra.BigOperators.Group.Finset.Basic
import Mathlib.Algebra.Order.BigOperators.Group.Finset
import Mathlib.Data.Fintype.BigOperators
import Libk2.Threading.Atomic

/-!
# `spin_lock`

`acquire()`, `acquire(timer)` and `release()` called by any number of threads, with either variant
of `atomic_increase` and `atomic_decrease`: a locked section is one step, and so is each of the two
`__exchange_and_add` calls of a GNU one. What the timer says when it is read is part of the step.

A position in the code has a `weight`: what the thread has added to `m_counter` and not yet taken
back. Every step moves one thread and changes the counter by the difference of the weights
(`shift_of_step`), so the counter is always one less than the sum of the weights, the `tally`. A
thread that finds 0 is the only one with a weight, whichever variant it found it with; that is all
`exclusive` needs.
-/

namespace Libk2

open StepSystem

/-- Where a thread is. `timed` tells the two forms of `acquire` apart. -/
inductive SpinPc where
  | idle
  /-- At `atomic_increase`. -/
  | atIncrease (timed : Bool)
  /-- Between the two halves of a GNU `atomic_increase`. -/
  | increased (timed : Bool)
  /-- The attempt failed: at `atomic_decrease`. -/
  | atDecrease (timed : Bool)
  /-- Between the two halves of that `atomic_decrease`. -/
  | decreased (timed : Bool)
  /-- At `timer.expired()`. -/
  | atTimer
  | holding
  /-- At the `atomic_decrease` of `release`. -/
  | atRelease
  /-- Between its two halves. -/
  | released
deriving DecidableEq

/-- What a thread has added to `m_counter` and not yet taken back. -/
def SpinPc.weight : SpinPc → ℕ
  | increased _ | atDecrease _ | holding | atRelease => 1
  | idle | atIncrease _ | decreased _ | atTimer | released => 0

/-- Between a successful `acquire` and its `release`. -/
def SpinPc.Holds (pc : SpinPc) : Prop := pc = .holding ∨ pc = .atRelease

/-- Where a failed attempt goes on. -/
def SpinPc.retry (timed : Bool) : SpinPc := if timed then .atTimer else .atIncrease false

/-- A `spin_lock` and the threads `τ` that use it. -/
structure SpinSys (τ : Type*) where
  mCounter : AtomicInt
  pc : τ → SpinPc

/-- A thread calls `acquire` or `release`, or goes on with its call; `expired` is what the timer
says if it is read. -/
inductive SpinLabel (τ : Type*) where
  | acquire (t : τ) (timed : Bool)
  | release (t : τ)
  | next (t : τ) (expired : Bool)

namespace SpinSys

variable {τ : Type*}

/-- The lock as its constructor leaves it. -/
def start (τ : Type*) : SpinSys τ := ⟨-1, fun _ ↦ .idle⟩

variable [DecidableEq τ]

/-- Thread `t` goes on to `pc`, and leaves the counter at `value`. -/
def goto (s : SpinSys τ) (t : τ) (pc : SpinPc) (value : AtomicInt) : SpinSys τ :=
  ⟨value, Function.update s.pc t pc⟩

/-- Where `acquire` goes after its `atomic_increase` has returned `ret`. -/
def afterIncrease (ret timed : Bool) : SpinPc := if ret then .atDecrease timed else .holding

/-- One step of a thread. -/
def step (v : AtomicVariant) (s : SpinSys τ) : SpinLabel τ → Option (SpinSys τ)
  | .acquire t timed =>
    if s.pc t = .idle then some (s.goto t (.atIncrease timed) s.mCounter) else none
  | .release t => if s.pc t = .holding then some (s.goto t .atRelease s.mCounter) else none
  | .next t expired =>
    match s.pc t, v with
    | .idle, _ => none
    | .atIncrease timed, .gnu =>
      some (s.goto t (.increased timed) (exchangeAndAdd s.mCounter 1).2)
    | .atIncrease timed, .locked =>
      let r := atomicIncrease s.mCounter
      some (s.goto t (afterIncrease r.1 timed) r.2)
    | .increased timed, _ =>
      let r := exchangeAndAdd s.mCounter 0
      some (s.goto t (afterIncrease (r.1 != 0) timed) r.2)
    | .atDecrease timed, .gnu =>
      some (s.goto t (.decreased timed) (exchangeAndAdd s.mCounter (-1)).2)
    | .atDecrease timed, .locked => some (s.goto t (.retry timed) (atomicDecrease s.mCounter).2)
    | .decreased timed, _ => some (s.goto t (.retry timed) (exchangeAndAdd s.mCounter 0).2)
    | .atTimer, _ => some (s.goto t (if expired then .idle else .atIncrease true) s.mCounter)
    | .holding, _ => none
    | .atRelease, .gnu => some (s.goto t .released (exchangeAndAdd s.mCounter (-1)).2)
    | .atRelease, .locked => some (s.goto t .idle (atomicDecrease s.mCounter).2)
    | .released, _ => some (s.goto t .idle (exchangeAndAdd s.mCounter 0).2)

/-! ### What a step does -/

/-- One thread moves, and the counter changes with its weight. It holds the lock only if it did
before or if it leaves the counter at 0. -/
structure Shift (s : SpinSys τ) (t : τ) (pc : SpinPc) (value : AtomicInt) : Prop where
  counter : pc.weight = (s.pc t).weight ∧ value = s.mCounter ∨
    (s.pc t).weight = 0 ∧ pc.weight = 1 ∧ value = s.mCounter + 1 ∨
    (s.pc t).weight = 1 ∧ pc.weight = 0 ∧ value = s.mCounter + -1
  holds : pc.Holds → (s.pc t).Holds ∨ value = 0

theorem weight_retry (timed : Bool) : (SpinPc.retry timed).weight = 0 := by
  cases timed <;> rfl

theorem not_holds_retry (timed : Bool) : ¬ (SpinPc.retry timed).Holds := by
  cases timed <;> simp [SpinPc.retry, SpinPc.Holds]

/-- Whatever `atomic_increase` returned, the thread has added one, and it holds the lock only if the
counter is 0. -/
theorem weight_afterIncrease (ret timed : Bool) : (afterIncrease ret timed).weight = 1 := by
  cases ret <;> rfl

theorem eq_zero_of_holds_afterIncrease {value : AtomicInt} {timed : Bool}
    (h : (afterIncrease (value != 0) timed).Holds) : value = 0 := by
  by_contra hne
  rw [bne_iff_ne.2 hne] at h
  simp [afterIncrease, SpinPc.Holds] at h

namespace Shift

variable {s : SpinSys τ} {t : τ} {pc pc' : SpinPc}

omit [DecidableEq τ] in
theorem keep (ht : s.pc t = pc) (hw : pc'.weight = pc.weight) (hnot : ¬ pc'.Holds) :
    s.Shift t pc' s.mCounter where
  counter := .inl ⟨ht ▸ hw, rfl⟩
  holds h := absurd h hnot

omit [DecidableEq τ] in
theorem up (ht : s.pc t = pc) (hw : pc.weight = 0) (hw' : pc'.weight = 1)
    (hholds : pc'.Holds → s.mCounter + 1 = 0) : s.Shift t pc' (s.mCounter + 1) where
  counter := .inr (.inl ⟨ht ▸ hw, hw', rfl⟩)
  holds h := .inr (hholds h)

omit [DecidableEq τ] in
theorem down (ht : s.pc t = pc) (hw : pc.weight = 1) (hw' : pc'.weight = 0) (hnot : ¬ pc'.Holds) :
    s.Shift t pc' (s.mCounter + -1) where
  counter := .inr (.inr ⟨ht ▸ hw, hw', rfl⟩)
  holds h := absurd h hnot

end Shift

/-- **Every step is a shift** of one thread. -/
theorem shift_of_step {v : AtomicVariant} {s s' : SpinSys τ} {l : SpinLabel τ}
    (h : step v s l = some s') :
    ∃ t pc value, s' = s.goto t pc value ∧ s.Shift t pc value := by
  have hnot : ∀ timed, ¬ (SpinPc.increased timed).Holds ∧ ¬ (SpinPc.decreased timed).Holds ∧
      ¬ (SpinPc.atIncrease timed).Holds := by
    simp [SpinPc.Holds]
  have hnot' : ¬ SpinPc.idle.Holds ∧ ¬ SpinPc.released.Holds := by
    simp [SpinPc.Holds]
  cases l with
  | acquire t timed =>
    obtain ⟨ht, ⟨⟩⟩ := Option.ite_none_right_eq_some.1 h
    exact ⟨t, _, _, rfl, .keep ht rfl (hnot timed).2.2⟩
  | release t =>
    obtain ⟨ht, ⟨⟩⟩ := Option.ite_none_right_eq_some.1 h
    exact ⟨t, _, _, rfl, .inl ⟨ht ▸ rfl, rfl⟩, fun _ ↦ .inl (.inl ht)⟩
  | next t expired =>
    cases ht : s.pc t with
    | idle => simp [step, ht] at h
    | holding => simp [step, ht] at h
    | atIncrease timed =>
      cases v with
      | gnu =>
        simp only [step, ht, exchangeAndAdd, Option.some.injEq] at h
        exact ⟨t, _, _, h.symm, .up ht rfl rfl fun hholds ↦ absurd hholds (hnot timed).1⟩
      | locked =>
        simp only [step, ht, atomicIncrease, AtomicOp.apply, AtomicOp.addend,
          Option.some.injEq] at h
        exact ⟨t, _, _, h.symm, .up ht rfl (weight_afterIncrease _ timed)
          eq_zero_of_holds_afterIncrease⟩
    | increased timed =>
      simp only [step, ht, exchangeAndAdd_zero, Option.some.injEq] at h
      exact ⟨t, _, _, h.symm, .inl ⟨by rw [ht, weight_afterIncrease]; rfl, rfl⟩,
        fun hholds ↦ .inr (eq_zero_of_holds_afterIncrease hholds)⟩
    | atDecrease timed =>
      cases v with
      | gnu =>
        simp only [step, ht, exchangeAndAdd, Option.some.injEq] at h
        exact ⟨t, _, _, h.symm, .down ht rfl rfl (hnot timed).2.1⟩
      | locked =>
        simp only [step, ht, atomicDecrease, AtomicOp.apply, AtomicOp.addend,
          Option.some.injEq] at h
        exact ⟨t, _, _, h.symm, .down ht rfl (weight_retry timed) (not_holds_retry timed)⟩
    | decreased timed =>
      simp only [step, ht, exchangeAndAdd_zero, Option.some.injEq] at h
      exact ⟨t, _, _, h.symm, .keep ht (weight_retry timed) (not_holds_retry timed)⟩
    | atTimer =>
      simp only [step, ht, Option.some.injEq] at h
      cases expired with
      | false => exact ⟨t, _, _, h.symm, .keep ht rfl (hnot true).2.2⟩
      | true => exact ⟨t, _, _, h.symm, .keep ht rfl hnot'.1⟩
    | atRelease =>
      cases v with
      | gnu =>
        simp only [step, ht, exchangeAndAdd, Option.some.injEq] at h
        exact ⟨t, _, _, h.symm, .down ht rfl rfl hnot'.2⟩
      | locked =>
        simp only [step, ht, atomicDecrease, AtomicOp.apply, AtomicOp.addend,
          Option.some.injEq] at h
        exact ⟨t, _, _, h.symm, .down ht rfl rfl hnot'.1⟩
    | released =>
      simp only [step, ht, exchangeAndAdd_zero, Option.some.injEq] at h
      exact ⟨t, _, _, h.symm, .keep ht rfl hnot'.1⟩

/-! ### The tally -/

variable [Fintype τ]

/-- What the threads have added to the counter and not yet taken back. -/
def tally (pc : τ → SpinPc) : ℕ := ∑ t, (pc t).weight

theorem weight_le_one (pc : SpinPc) : pc.weight ≤ 1 := by
  cases pc <;> simp [SpinPc.weight]

theorem weight_of_holds {pc : SpinPc} (h : pc.Holds) : pc.weight = 1 := by
  rcases h with rfl | rfl <;> rfl

omit [DecidableEq τ] in
theorem tally_le_card (pc : τ → SpinPc) : tally pc ≤ Fintype.card τ := by
  refine (Finset.sum_le_card_nsmul Finset.univ _ 1 fun t _ ↦ weight_le_one (pc t)).trans_eq ?_
  simp

/-- **One thread moves** and the tally changes with its weight. -/
theorem tally_update (pc : τ → SpinPc) (t : τ) (x : SpinPc) :
    tally (Function.update pc t x) + (pc t).weight = tally pc + x.weight := by
  have hrest : ∑ u ∈ Finset.univ.erase t, (Function.update pc t x u).weight =
      ∑ u ∈ Finset.univ.erase t, (pc u).weight :=
    Finset.sum_congr rfl fun u hu ↦ by rw [Function.update_of_ne (Finset.ne_of_mem_erase hu)]
  rw [tally, tally, ← Finset.add_sum_erase _ _ (Finset.mem_univ t),
    ← Finset.add_sum_erase _ (fun u ↦ (pc u).weight) (Finset.mem_univ t), hrest,
    Function.update_self]
  omega

/-- Two threads with a weight. -/
theorem two_le_tally {pc : τ → SpinPc} {t u : τ} (ht : (pc t).weight = 1) (hu : (pc u).weight = 1)
    (hne : t ≠ u) : 2 ≤ tally pc := by
  have hpair : ∑ x ∈ {t, u}, (pc x).weight = 2 := by rw [Finset.sum_pair hne, ht, hu]
  rw [← hpair]
  exact Finset.sum_le_sum_of_subset (Finset.subset_univ _)

/-- The counter is one less than the tally, and one thread at most holds the lock. -/
structure SpinInv (s : SpinSys τ) : Prop where
  counter : s.mCounter.toInt = tally s.pc - 1
  exclusive : ∀ t u, (s.pc t).Holds → (s.pc u).Holds → t = u

omit [DecidableEq τ] in
theorem spinInv_start (τ : Type*) [Fintype τ] : (start τ).SpinInv where
  counter := by
    have htally : tally (start τ).pc = 0 := Finset.sum_const_zero
    rw [htally]
    rfl
  exclusive t _ ht _ := by simp [start, SpinPc.Holds] at ht

namespace SpinInv

variable {s : SpinSys τ} {t : τ} {pc : SpinPc} {value : AtomicInt}

/-- A shift keeps the counter in step with the tally. -/
theorem counter_shift (hτ : Fintype.card τ < 2 ^ 31) (h : s.SpinInv) (hshift : s.Shift t pc value) :
    value.toInt = tally (Function.update s.pc t pc) - 1 := by
  have hlt : tally s.pc < 2 ^ 31 := (tally_le_card s.pc).trans_lt hτ
  have hupdate := tally_update s.pc t pc
  rcases hshift.counter with ⟨hw, rfl⟩ | ⟨hw, hw', rfl⟩ | ⟨hw, hw', rfl⟩
  · rw [h.counter]
    omega
  · rw [(toInt_increased h.counter hlt).1]
    omega
  · obtain ⟨n, hn⟩ : ∃ n, tally s.pc = n + 1 := ⟨tally (Function.update s.pc t pc), by omega⟩
    rw [toInt_decreased (n := n) (by rw [h.counter, hn]; simp) (by omega)]
    omega

/-- **One step** keeps the invariant: a thread that finds 0 is the only one with a weight. -/
theorem shift (hτ : Fintype.card τ < 2 ^ 31) (h : s.SpinInv) (hshift : s.Shift t pc value) :
    (s.goto t pc value).SpinInv where
  counter := h.counter_shift hτ hshift
  exclusive := by
    intro x y hx hy
    by_contra hne
    rcases eq_or_ne value 0 with hzero | hnonzero
    · -- at 0 the tally is 1, which leaves no room for two holders
      have hcounter := h.counter_shift hτ hshift
      have htwo := two_le_tally (weight_of_holds hx) (weight_of_holds hy) hne
      rw [hzero, Int32.toInt_zero] at hcounter
      exact absurd hcounter (by show (0 : ℤ) ≠ (tally (s.goto t pc value).pc : ℤ) - 1; omega)
    · -- nobody has begun to hold the lock
      have hold : ∀ z, (Function.update s.pc t pc z).Holds → (s.pc z).Holds := by
        intro z hz
        rcases eq_or_ne z t with rfl | hzt
        · rw [Function.update_self] at hz
          exact (hshift.holds hz).resolve_right hnonzero
        · rwa [Function.update_of_ne hzt] at hz
      exact hne (h.exclusive x y (hold x hx) (hold y hy))

end SpinInv

theorem spinInv_of_run (hτ : Fintype.card τ < 2 ^ 31) (v : AtomicVariant)
    (ls : List (SpinLabel τ)) : EveryState (step v) SpinInv (start τ) ls := by
  refine everyState_of_invariant (fun s l s' hs hstep ↦ ?_) (spinInv_start τ)
  obtain ⟨t, pc, value, rfl, hshift⟩ := shift_of_step hstep
  exact hs.shift hτ hshift

/-! ### The lock -/

/-- No thread is inside `acquire` or `release`. -/
def Quiet (s : SpinSys τ) : Prop := ∀ t, s.pc t = .idle ∨ s.pc t = .holding

/-- The counter shows whether the lock is held. -/
def CounterTells (s : SpinSys τ) : Prop :=
  (∃ t, s.pc t = .holding) ∧ s.mCounter = 0 ∨ (∀ t, s.pc t = .idle) ∧ s.mCounter = -1

/-- The steps of one attempt to acquire the lock. -/
def attempt (v : AtomicVariant) (t : τ) (timed expired expired' : Bool) : List (SpinLabel τ) :=
  match v with
  | .gnu => [.acquire t timed, .next t expired, .next t expired']
  | .locked => [.acquire t timed, .next t expired]

/-- A single attempt by `t` takes the lock, whatever the timer says. -/
def AcquiresAtOnce (v : AtomicVariant) (s : SpinSys τ) (t : τ) : Prop :=
  ∀ timed expired expired', ∃ s',
    run (step v) s (attempt v t timed expired expired') = some s' ∧ s'.pc t = .holding

omit [DecidableEq τ] in
theorem SpinInv.counterTells {s : SpinSys τ} (h : s.SpinInv) (hquiet : s.Quiet) :
    s.CounterTells := by
  have hcounter := h.counter
  by_cases hheld : ∃ t, s.pc t = .holding
  · obtain ⟨t, ht⟩ := hheld
    have htally : tally s.pc = 1 := by
      rw [tally, Finset.sum_eq_single t (fun u _ hut ↦ ?_)
        fun hmem ↦ absurd (Finset.mem_univ t) hmem, ht]
      · rfl
      · rcases hquiet u with hu | hu
        · rw [hu]
          rfl
        · exact absurd (h.exclusive u t (.inl hu) (.inl ht)) hut
    rw [htally] at hcounter
    exact .inl ⟨⟨t, ht⟩, Int32.toInt_inj.1 hcounter⟩
  · have hidle : ∀ t, s.pc t = .idle := fun t ↦ (hquiet t).resolve_right fun ht ↦ hheld ⟨t, ht⟩
    have htally : tally s.pc = 0 := Finset.sum_eq_zero fun t _ ↦ by rw [hidle t]; rfl
    rw [htally] at hcounter
    exact .inr ⟨hidle, Int32.toInt_inj.1 hcounter⟩

omit [Fintype τ] in
theorem acquiresAtOnce {v : AtomicVariant} {s : SpinSys τ} {t : τ} (ht : s.pc t = .idle)
    (hfree : s.mCounter = -1) : s.AcquiresAtOnce v t := by
  intro timed expired expired'
  cases v with
  | gnu =>
    refine ⟨((s.goto t (.atIncrease timed) (-1)).goto t (.increased timed) 0).goto t .holding 0, ?_,
      Function.update_self _ _ _⟩
    simp [attempt, run_cons, step, goto, ht, hfree, exchangeAndAdd, afterIncrease]
  | locked =>
    refine ⟨(s.goto t (.atIncrease timed) (-1)).goto t .holding 0, ?_, Function.update_self _ _ _⟩
    simp [attempt, run_cons, step, goto, ht, hfree, atomicIncrease, AtomicOp.apply, AtomicOp.addend,
      afterIncrease]

/-- **The lock excludes and leaves no residue**, with either variant of the atomic functions. -/
theorem spin_lock_excludes (hτ : Fintype.card τ < 2 ^ 31) (v : AtomicVariant)
    (ls : List (SpinLabel τ)) :
    EveryState (step v) (fun s ↦
      (∀ t u, (s.pc t).Holds → (s.pc u).Holds → t = u) ∧
      (s.Quiet → s.CounterTells ∧ ((∀ t, s.pc t ≠ .holding) → ∀ t, s.AcquiresAtOnce v t)))
      (start τ) ls := by
  refine (spinInv_of_run hτ v ls).mono fun s hs ↦ ⟨hs.exclusive, fun hquiet ↦ ?_⟩
  have htells := hs.counterTells hquiet
  refine ⟨htells, fun hfree t ↦ ?_⟩
  rcases htells with ⟨⟨u, hu⟩, -⟩ | ⟨hidle, hcounter⟩
  · exact absurd hu (hfree u)
  · exact acquiresAtOnce (hidle t) hcounter

/-- Thread 0 takes the lock, and thread 1 tries once and times out. -/
def timeout : List (SpinLabel (Fin 2)) :=
  [.acquire 0 false, .next 0 false, .next 0 false, .acquire 1 true, .next 1 false, .next 1 false,
    .next 1 false, .next 1 false, .next 1 true]

theorem spin_lock_excludes_two :
    ∃ s, run (step .gnu) (start (Fin 2)) timeout = some s ∧ s.pc 0 = .holding ∧ s.CounterTells := by
  obtain ⟨s, hrun, hholding, hquiet⟩ : ∃ s, run (step .gnu) (start (Fin 2)) timeout = some s ∧
      s.pc 0 = .holding ∧ s.Quiet :=
    ⟨_, rfl, rfl, Fin.forall_fin_two.2 ⟨.inr rfl, .inl rfl⟩⟩
  have hall := (spin_lock_excludes (by decide) .gnu timeout).last hrun
  exact ⟨s, hrun, hholding, (hall.2 hquiet).1⟩

end SpinSys

end Libk2
