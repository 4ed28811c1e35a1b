import Mathlib.Data.Fintype.Basic
import Libk2.Threading.ThreadOnce

/-!
# `thread_once` with the GNU variant of `atomic_increase`

`thread_once::run` once more, with `atomic_increase` as the two `__exchange_and_add` calls of GNU C:
one step increments `started`, and another reads it again to see whether it is zero.

The routine still runs at most once. But it may not run at all: if a second thread increments
`started` before the first has tested it, both find that they were not the first, and everybody
waits for good. That, and an exception, are the only ways to lose a `thread_once`
(`gnu_never_lost_iff`). The argument is a dichotomy: until then, somebody is on the way to the store
to `done`, or nobody has come yet (`GnuOnceInv`); from then on, nobody will ever read a zero
(`Condemned`).
-/

namespace Libk2

open StepSystem

/-- Where a thread is in `run_impl` and the `atomic_increase` it calls. -/
inductive GnuRunPc where
  | idle
  /-- At the first read of `done`. -/
  | atCheck
  | atIncrease
  /-- Between the two calls of `__exchange_and_add`. -/
  | atTest
  | inRoutine
  /-- The routine has returned. -/
  | atStore
  /-- In the loop that waits for `done`. -/
  | atWait
deriving DecidableEq

/-- On the way to the store to `done`. -/
def GnuRunPc.Inside (pc : GnuRunPc) : Prop := pc = .inRoutine ∨ pc = .atStore

/-- The increment of `started` is still to come, in this call or in the next one. -/
def GnuRunPc.Early (pc : GnuRunPc) : Prop := pc = .idle ∨ pc = .atCheck ∨ pc = .atIncrease

/-- A `thread_once` and the threads `τ` that call `run` on it. -/
structure GnuOnceSys (τ : Type*) where
  once : ThreadOnce
  pc : τ → GnuRunPc
  starts : ℕ
  completions : ℕ

namespace GnuOnceSys

variable {τ : Type*}

/-- Nobody has called `run`. -/
def start (τ : Type*) : GnuOnceSys τ := ⟨.init, fun _ ↦ .idle, 0, 0⟩

variable [DecidableEq τ]

/-- Thread `t` goes on to `pc`. -/
def goto (s : GnuOnceSys τ) (t : τ) (pc : GnuRunPc) : GnuOnceSys τ :=
  { s with pc := Function.update s.pc t pc }

/-- One step of a thread in `run_impl`. -/
def step (s : GnuOnceSys τ) : OnceLabel τ → Option (GnuOnceSys τ)
  | .call t => if s.pc t = .idle then some (s.goto t .atCheck) else none
  | .next t =>
    match s.pc t with
    | .idle => none
    | .atCheck => some (if s.once.done = false then s.goto t .atIncrease else s.goto t .idle)
    | .atIncrease =>
      let r := exchangeAndAdd s.once.started 1
      some { s.goto t .atTest with once := { s.once with started := r.2 } }
    | .atTest =>
      let r := exchangeAndAdd s.once.started 0
      let s := { s with once := { s.once with started := r.2 } }
      some (if (r.1 != 0) = false then { s.goto t .inRoutine with starts := s.starts + 1 }
        else s.goto t .atWait)
    | .inRoutine => some { s.goto t .atStore with completions := s.completions + 1 }
    | .atStore => some { s.goto t .idle with once := { s.once with done := true } }
    | .atWait => some (if s.once.done = false then s else s.goto t .idle)
  | .throw t => if s.pc t = .inRoutine then some (s.goto t .idle) else none

/-! ### What a step does -/

/-- The moves of the threads. -/
inductive Moves (s : GnuOnceSys τ) : OnceLabel τ → GnuOnceSys τ → Prop
  | call {t : τ} (ht : s.pc t = .idle) : Moves s (.call t) (s.goto t .atCheck)
  | check {t : τ} (ht : s.pc t = .atCheck) (hdone : s.once.done = false) :
      Moves s (.next t) (s.goto t .atIncrease)
  | increase {t : τ} (ht : s.pc t = .atIncrease) :
      Moves s (.next t)
        { s.goto t .atTest with once := { s.once with started := s.once.started + 1 } }
  | win {t : τ} (ht : s.pc t = .atTest) (hzero : s.once.started = 0) :
      Moves s (.next t) { s.goto t .inRoutine with starts := s.starts + 1 }
  | lose {t : τ} (ht : s.pc t = .atTest) (hzero : s.once.started ≠ 0) :
      Moves s (.next t) (s.goto t .atWait)
  | routine {t : τ} (ht : s.pc t = .inRoutine) :
      Moves s (.next t) { s.goto t .atStore with completions := s.completions + 1 }
  | store {t : τ} (ht : s.pc t = .atStore) :
      Moves s (.next t) { s.goto t .idle with once := { s.once with done := true } }
  | spin {t : τ} (ht : s.pc t = .atWait) (hdone : s.once.done = false) : Moves s (.next t) s
  | pass {t : τ} (ht : s.pc t = .atCheck ∨ s.pc t = .atWait) (hdone : s.once.done = true) :
      Moves s (.next t) (s.goto t .idle)
  | throw {t : τ} (ht : s.pc t = .inRoutine) : Moves s (.throw t) (s.goto t .idle)

/-- Every step is one of the moves. -/
theorem moves_of_step {s s' : GnuOnceSys τ} {l : OnceLabel τ} (h : s.step l = some s') :
    Moves s l s' := by
  cases l with
  | call t =>
    obtain ⟨ht, ⟨⟩⟩ := Option.ite_none_right_eq_some.1 h
    exact .call ht
  | throw t =>
    obtain ⟨ht, ⟨⟩⟩ := Option.ite_none_right_eq_some.1 h
    exact .throw ht
  | next t =>
    cases ht : s.pc t with
    | idle => simp [step, ht] at h
    | atCheck =>
      simp only [step, ht, Option.some.injEq] at h
      split at h
      · next hdone => exact h ▸ .check ht hdone
      · next hdone => exact h ▸ .pass (.inl ht) (Bool.eq_true_of_not_eq_false hdone)
    | atIncrease =>
      simp only [step, ht, exchangeAndAdd, Option.some.injEq] at h
      exact h ▸ .increase ht
    | atTest =>
      simp only [step, ht, exchangeAndAdd_zero, Option.some.injEq, bne_eq_false_iff_eq] at h
      split at h
      · next hzero => exact h ▸ .win ht hzero
      · next hzero => exact h ▸ .lose ht hzero
    | inRoutine =>
      simp only [step, ht, Option.some.injEq] at h
      exact h ▸ .routine ht
    | atStore =>
      simp only [step, ht, Option.some.injEq] at h
      exact h ▸ .store ht
    | atWait =>
      simp only [step, ht, Option.some.injEq] at h
      split at h
      · next hdone => exact h ▸ .spin ht hdone
      · next hdone => exact h ▸ .pass (.inr ht) (Bool.eq_true_of_not_eq_false hdone)

/-- **The condition.** The routine does not throw, and nobody increments `started` between the first
increment and the test that follows it. -/
def Undisturbed (s : GnuOnceSys τ) : OnceLabel τ → Prop
  | .call _ => True
  | .next t => s.pc t = .atIncrease → s.once.started = 0 → ∀ u, s.pc u ≠ .atTest
  | .throw _ => False

/-! ### As long as nothing goes wrong -/

/-- Where a thread may be, seen from the set `F` of the threads that have incremented `started`. -/
def Placed (F : Finset τ) (done completed : Prop) (t : τ) : GnuRunPc → Prop
  | .idle => t ∈ F → done
  | .atCheck => t ∈ F → done
  | .atIncrease => t ∉ F
  | .atTest => t ∈ F
  | .inRoutine => t ∈ F
  | .atStore => t ∈ F ∧ completed
  | .atWait => t ∈ F

/-- The invariant, for the set `F` of the threads that have incremented `started`, and the one of
them that has found itself to be the first. -/
structure GnuOnceInv (s : GnuOnceSys τ) (F : Finset τ) (w : Option τ) : Prop where
  started : s.once.started.toInt = F.card - 1
  starts : s.starts = w.toList.length
  winner : ∀ t ∈ w, t ∈ F ∧ s.pc t ≠ .atTest
  placed : ∀ t, Placed F (s.once.done = true) (1 ≤ s.completions) t (s.pc t)
  inside : ∀ t, (s.pc t).Inside → t ∈ w ∧ s.once.done = false
  completed : s.once.done = true → w ≠ none ∧ 1 ≤ s.completions
  /-- The first thread is on its way, and has not been disturbed. -/
  onward : s.once.done = false → F.Nonempty →
    (∃ t, (s.pc t).Inside) ∨ ∃ t, F = {t} ∧ s.pc t = .atTest

omit [DecidableEq τ] in
theorem gnuOnceInv_start (τ : Type*) : (start τ).GnuOnceInv ∅ none where
  started := rfl
  starts := rfl
  winner := nofun
  placed _ := fun h ↦ absurd h (Finset.notMem_empty _)
  inside _ h := by rcases h with h | h <;> cases h
  completed := nofun
  onward _ h := absurd h Finset.not_nonempty_empty

namespace GnuOnceInv

variable {s s' : GnuOnceSys τ} {l : OnceLabel τ} {F : Finset τ} {w : Option τ} {t u : τ}
  {pc : GnuRunPc}

omit [DecidableEq τ] in
/-- The first thread has not tested `started` yet. -/
theorem eq_singleton (h : s.GnuOnceInv F w) (ht : s.pc t = .atTest) (hzero : s.once.started = 0) :
    F = {t} ∧ w = none := by
  have hcard : F.card = 1 := by
    have hstarted := h.started
    rw [hzero, Int32.toInt_zero] at hstarted
    omega
  have hmem : t ∈ F := by
    have hplaced := h.placed t
    rwa [ht] at hplaced
  obtain ⟨x, rfl⟩ := Finset.card_eq_one.1 hcard
  obtain rfl := Finset.mem_singleton.1 hmem
  refine ⟨rfl, Option.eq_none_iff_forall_not_mem.2 fun u hu ↦ ?_⟩
  obtain ⟨hmem, hne⟩ := h.winner u hu
  exact hne (Finset.mem_singleton.1 hmem ▸ ht)

omit [DecidableEq τ] in
/-- Then nobody has come further. -/
theorem nothing_done (h : s.GnuOnceInv F none) :
    s.once.done = false ∧ s.starts = 0 ∧ ∀ u, ¬ (s.pc u).Inside :=
  ⟨Bool.eq_false_of_not_eq_true fun hdone ↦ (h.completed hdone).1 rfl, h.starts,
    fun u hu ↦ nomatch (h.inside u hu).1⟩

omit [DecidableEq τ] in
/-- Whoever has not incremented `started` in this call has not done so before. -/
theorem notMem_of_early (h : s.GnuOnceInv F w) (hdone : s.once.done = false)
    (ht : (s.pc t).Early) : t ∉ F := by
  have hplaced := h.placed t
  intro hmem
  rcases ht with ht | ht | ht <;> rw [ht] at hplaced
  · exact Bool.false_ne_true (hdone.symm.trans (hplaced hmem))
  · exact Bool.false_ne_true (hdone.symm.trans (hplaced hmem))
  · exact hplaced hmem

/-- A thread goes on outside the routine, and nothing else changes. -/
theorem goto (h : s.GnuOnceInv F w) (ht : ¬ (s.pc t).Inside)
    (htest : s.pc t = .atTest → s.once.started ≠ 0) (hpc : ¬ pc.Inside) (hpc' : pc ≠ .atTest)
    (hplaced : Placed F (s.once.done = true) (1 ≤ s.completions) t pc) :
    (s.goto t pc).GnuOnceInv F w where
  started := h.started
  starts := h.starts
  winner u hu := by
    refine ⟨(h.winner u hu).1, ?_⟩
    show Function.update s.pc t pc u ≠ .atTest
    rcases eq_or_ne u t with rfl | hut
    · rwa [Function.update_self]
    · rw [Function.update_of_ne hut]
      exact (h.winner u hu).2
  placed := (Function.forall_update_iff s.pc fun u pc ↦ Placed F _ _ u pc).2
    ⟨hplaced, fun u _ ↦ h.placed u⟩
  inside := (Function.forall_update_iff s.pc fun u pc ↦ pc.Inside → u ∈ w ∧ _).2
    ⟨fun hin ↦ absurd hin hpc, fun u _ ↦ h.inside u⟩
  completed := h.completed
  onward hdone hF := by
    -- whoever is on its way is another thread
    rcases h.onward hdone hF with ⟨u, hu⟩ | ⟨u, hFu, hu⟩
    · have hut : u ≠ t := fun heq ↦ ht (heq ▸ hu)
      exact .inl ⟨u, (congrArg GnuRunPc.Inside (Function.update_of_ne hut ..)).mpr hu⟩
    · have hzero : s.once.started = 0 := by
        have hstarted := h.started
        rw [hFu, Finset.card_singleton] at hstarted
        exact Int32.toInt_inj.1 hstarted
      have hut : u ≠ t := fun heq ↦ htest (heq ▸ hu) hzero
      exact .inr ⟨u, hFu, (Function.update_of_ne hut ..).trans hu⟩

/-- Another thread's increment. -/
theorem placed_insert {done completed : Prop} (h : Placed F done completed u pc) (hut : u ≠ t) :
    Placed (insert t F) done completed u pc := by
  have hmem : u ∈ insert t F ↔ u ∈ F := by
    rw [Finset.mem_insert, or_iff_right hut]
  cases pc <;> simpa only [Placed, hmem] using h

/-- A thread increments `started`, and nobody has done so just before. -/
theorem increase (h : s.GnuOnceInv F w) (ht : s.pc t = .atIncrease) (hcard : F.card < 2 ^ 31)
    (hsteady : s.once.started = 0 → ∀ u, s.pc u ≠ .atTest) :
    GnuOnceInv { s.goto t .atTest with once := { s.once with started := s.once.started + 1 } }
      (insert t F) w := by
  have hnot : t ∉ F := by
    have hplaced := h.placed t
    rwa [ht] at hplaced
  refine ⟨?_, h.starts, fun u hu ↦ ?_, ?_, ?_, h.completed, fun hdone _ ↦ ?_⟩
  · rw [Finset.card_insert_of_notMem hnot, Int.natCast_succ, Int.add_sub_cancel]
    exact (toInt_increased h.started hcard).1
  · obtain ⟨hmem, hne⟩ := h.winner u hu
    have hut : u ≠ t := fun heq ↦ hnot (heq ▸ hmem)
    exact ⟨Finset.mem_insert_of_mem hmem, (Function.update_of_ne hut ..).trans_ne hne⟩
  · exact (Function.forall_update_iff s.pc fun u pc ↦ Placed (insert t F) _ _ u pc).2
      ⟨Finset.mem_insert_self t F, fun u hut ↦ placed_insert (h.placed u) hut⟩
  · exact (Function.forall_update_iff s.pc fun u pc ↦ pc.Inside → u ∈ w ∧ _).2
      ⟨fun hin ↦ (by rcases hin with hin | hin <;> cases hin), fun u _ ↦ h.inside u⟩
  · rcases F.eq_empty_or_nonempty with rfl | hF
    · exact .inr ⟨t, rfl, Function.update_self ..⟩
    · rcases h.onward hdone hF with ⟨u, hu⟩ | ⟨u, rfl, hu⟩
      · have hut : u ≠ t := by
          rintro rfl
          rw [ht] at hu
          rcases hu with hu | hu <;> cases hu
        exact .inl ⟨u, (congrArg GnuRunPc.Inside (Function.update_of_ne hut ..)).mpr hu⟩
      · have hzero : s.once.started = 0 := Int32.toInt_inj.1 h.started
        exact absurd hu (hsteady hzero u)

/-- The first thread finds that it is. -/
theorem win (h : s.GnuOnceInv F w) (ht : s.pc t = .atTest) (hzero : s.once.started = 0) :
    GnuOnceInv { s.goto t .inRoutine with starts := s.starts + 1 } F (some t) := by
  obtain ⟨rfl, rfl⟩ := h.eq_singleton ht hzero
  obtain ⟨hdone, hstarts, hinside⟩ := h.nothing_done
  refine ⟨h.started, ?_, fun u hu ↦ ?_, ?_, ?_, fun hdone' ↦ ?_, fun _ _ ↦ ?_⟩
  · show s.starts + 1 = 1
    rw [hstarts]
  · obtain rfl := Option.mem_some_iff.1 hu
    exact ⟨Finset.mem_singleton_self _, (Function.update_self ..).trans_ne nofun⟩
  · exact (Function.forall_update_iff s.pc fun u pc ↦ Placed {t} _ _ u pc).2
      ⟨Finset.mem_singleton_self t, fun u _ ↦ h.placed u⟩
  · exact (Function.forall_update_iff s.pc fun u pc ↦ pc.Inside → u ∈ some t ∧ _).2
      ⟨fun _ ↦ ⟨rfl, hdone⟩, fun u _ hu ↦ absurd hu (hinside u)⟩
  · exact absurd (hdone.symm.trans hdone') nofun
  · exact .inl ⟨t, .inl (Function.update_self ..)⟩

/-- The routine returns. -/
theorem routine (h : s.GnuOnceInv F w) (ht : s.pc t = .inRoutine) :
    GnuOnceInv { s.goto t .atStore with completions := s.completions + 1 } F w := by
  obtain ⟨hw, hdone⟩ := h.inside t (.inl ht)
  have hcompleted : 1 ≤ s.completions + 1 := Nat.le_add_left 1 _
  refine ⟨h.started, h.starts, fun u hu ↦ ?_, ?_, ?_, fun hdone' ↦ ?_, fun _ _ ↦ ?_⟩
  · refine ⟨(h.winner u hu).1, ?_⟩
    obtain rfl := Option.mem_unique hu hw
    exact (Function.update_self ..).trans_ne nofun
  · refine (Function.forall_update_iff s.pc fun u pc ↦ Placed F _ _ u pc).2
      ⟨⟨(h.winner t hw).1, hcompleted⟩, fun u _ ↦ ?_⟩
    have hplaced := h.placed u
    cases hu : s.pc u <;> rw [hu] at hplaced
    case atStore => exact ⟨hplaced.1, hcompleted⟩
    all_goals exact hplaced
  · exact (Function.forall_update_iff s.pc fun u pc ↦ pc.Inside → u ∈ w ∧ _).2
      ⟨fun _ ↦ ⟨hw, hdone⟩, fun u _ ↦ h.inside u⟩
  · exact absurd (hdone.symm.trans hdone') nofun
  · exact .inl ⟨t, .inr (Function.update_self ..)⟩

/-- `done` is set. -/
theorem store (h : s.GnuOnceInv F w) (ht : s.pc t = .atStore) :
    GnuOnceInv { s.goto t .idle with once := { s.once with done := true } } F w := by
  obtain ⟨hw, -⟩ := h.inside t (.inr ht)
  have hcompleted : 1 ≤ s.completions := by
    have hplaced := h.placed t
    rw [ht] at hplaced
    exact hplaced.2
  refine ⟨h.started, h.starts, fun u hu ↦ ?_, ?_, ?_, fun _ ↦ ?_, nofun⟩
  · refine ⟨(h.winner u hu).1, ?_⟩
    obtain rfl := Option.mem_unique hu hw
    exact (Function.update_self ..).trans_ne nofun
  · refine (Function.forall_update_iff s.pc fun u pc ↦ Placed F _ _ u pc).2
      ⟨fun _ ↦ rfl, fun u _ ↦ ?_⟩
    have hplaced := h.placed u
    cases hu : s.pc u <;> rw [hu] at hplaced
    case idle | atCheck => exact fun _ ↦ rfl
    all_goals exact hplaced
  · -- nobody else is on the way to the store
    refine (Function.forall_update_iff s.pc fun u pc ↦ pc.Inside → u ∈ w ∧ _).2
      ⟨fun hin ↦ (by rcases hin with hin | hin <;> cases hin), fun u hut hu ↦ ?_⟩
    exact absurd (Option.mem_unique (h.inside u hu).1 hw) hut
  · exact ⟨Option.ne_none_iff_exists'.2 ⟨t, hw⟩, hcompleted⟩

/-- **One step** that is not disturbed. -/
theorem move [Fintype τ] (hτ : Fintype.card τ < 2 ^ 31) (h : s.GnuOnceInv F w)
    (hmove : Moves s l s') (hl : s.Undisturbed l) : ∃ F' w', s'.GnuOnceInv F' w' := by
  cases hmove with
  | spin => exact ⟨F, w, h⟩
  | throw => exact hl.elim
  | @increase t ht =>
    exact ⟨insert t F, w, h.increase ht ((Finset.card_le_univ F).trans_lt hτ) (hl ht)⟩
  | @win t ht hzero => exact ⟨F, some t, h.win ht hzero⟩
  | routine ht => exact ⟨F, w, h.routine ht⟩
  | store ht => exact ⟨F, w, h.store ht⟩
  | @call t ht =>
    have hplaced := h.placed t
    rw [ht] at hplaced
    exact ⟨F, w, h.goto (by simp [ht, GnuRunPc.Inside]) (by simp [ht]) (by simp [GnuRunPc.Inside])
      nofun hplaced⟩
  | @check t ht hdone =>
    have hnot : t ∉ F := h.notMem_of_early hdone (.inr (.inl ht))
    exact ⟨F, w, h.goto (by simp [ht, GnuRunPc.Inside]) (by simp [ht]) (by simp [GnuRunPc.Inside])
      nofun hnot⟩
  | @lose t ht hzero =>
    have hplaced := h.placed t
    rw [ht] at hplaced
    exact ⟨F, w, h.goto (by simp [ht, GnuRunPc.Inside]) (fun _ ↦ hzero)
      (by simp [GnuRunPc.Inside]) nofun hplaced⟩
  | @pass t ht hdone =>
    have hpc : ¬ (s.pc t).Inside ∧ s.pc t ≠ .atTest := by
      rcases ht with ht | ht <;> simp [ht, GnuRunPc.Inside]
    exact ⟨F, w, h.goto hpc.1 (fun htest ↦ absurd htest hpc.2) (by simp [GnuRunPc.Inside]) nofun
      fun _ ↦ hdone⟩

end GnuOnceInv

/-! ### Once something has gone wrong -/

/-- `started` is past zero, or at zero with nobody to test it, and nobody will set `done`. The set
`K` holds those that may still increment `started`; there are too few of them for it to come round
to zero. -/
structure Condemned [Fintype τ] (s : GnuOnceSys τ) : Prop where
  done : s.once.done = false
  inside : ∀ t, ¬ (s.pc t).Inside
  starts : s.starts ≤ 1
  test : s.once.started = 0 → ∀ t, s.pc t ≠ .atTest
  nonneg : 0 ≤ s.once.started.toInt
  room : ∃ K : Finset τ, (∀ t, (s.pc t).Early → t ∈ K) ∧
    s.once.started.toInt + K.card ≤ Fintype.card τ

namespace Condemned

variable [Fintype τ] {s s' : GnuOnceSys τ} {l : OnceLabel τ} {F : Finset τ} {w : Option τ} {t : τ}
  {pc : GnuRunPc}

theorem goto (h : s.Condemned) (hpc : ¬ pc.Inside) (hpc' : pc ≠ .atTest)
    (hearly : pc.Early → (s.pc t).Early) : (s.goto t pc).Condemned where
  done := h.done
  inside := (Function.forall_update_iff s.pc fun _ pc ↦ ¬ pc.Inside).2 ⟨hpc, fun u _ ↦ h.inside u⟩
  starts := h.starts
  test hzero := (Function.forall_update_iff s.pc fun _ pc ↦ pc ≠ .atTest).2
    ⟨hpc', fun u _ ↦ h.test hzero u⟩
  nonneg := h.nonneg
  room := by
    obtain ⟨K, hK, hle⟩ := h.room
    exact ⟨K, (Function.forall_update_iff s.pc fun u pc ↦ pc.Early → u ∈ K).2
      ⟨fun hpc ↦ hK t (hearly hpc), fun u _ ↦ hK u⟩, hle⟩

theorem increase (hτ : Fintype.card τ < 2 ^ 31) (h : s.Condemned) (ht : s.pc t = .atIncrease) :
    Condemned
      { s.goto t .atTest with once := { s.once with started := s.once.started + 1 } } := by
  obtain ⟨K, hK, hle⟩ := h.room
  have hmem : t ∈ K := hK t (.inr (.inr ht))
  have hcard : (K.erase t).card + 1 = K.card := Finset.card_erase_add_one hmem
  have hnonneg := h.nonneg
  have htoInt : (s.once.started + 1).toInt = s.once.started.toInt + 1 := by
    have hn : s.once.started.toInt = ((s.once.started.toInt + 1).toNat : ℤ) - 1 := by omega
    rw [(toInt_increased hn (by omega)).1]
    omega
  refine ⟨h.done, ?_, h.starts, fun hzero ↦ ?_, ?_, K.erase t, ?_, ?_⟩
  · exact (Function.forall_update_iff s.pc fun _ pc ↦ ¬ pc.Inside).2
      ⟨by simp [GnuRunPc.Inside], fun u _ ↦ h.inside u⟩
  · replace hzero : s.once.started + 1 = 0 := hzero
    rw [hzero, Int32.toInt_zero] at htoInt
    omega
  · show 0 ≤ (s.once.started + 1).toInt
    omega
  · exact (Function.forall_update_iff s.pc fun u pc ↦ pc.Early → u ∈ K.erase t).2
      ⟨by simp [GnuRunPc.Early], fun u hut hu ↦ Finset.mem_erase.2 ⟨hut, hK u hu⟩⟩
  · show (s.once.started + 1).toInt + ((K.erase t).card : ℤ) ≤ Fintype.card τ
    omega

/-- **It stays so.** -/
theorem move (hτ : Fintype.card τ < 2 ^ 31) (h : s.Condemned) (hmove : Moves s l s') :
    s'.Condemned := by
  cases hmove with
  | spin => exact h
  | increase ht => exact h.increase hτ ht
  | @call t ht => exact h.goto (by simp [GnuRunPc.Inside]) nofun fun _ ↦ .inl ht
  | @check t ht => exact h.goto (by simp [GnuRunPc.Inside]) nofun fun _ ↦ .inr (.inl ht)
  | lose => exact h.goto (by simp [GnuRunPc.Inside]) nofun (by simp [GnuRunPc.Early])
  | win ht hzero => exact absurd ht (h.test hzero _)
  | routine ht => exact absurd (.inl ht) (h.inside _)
  | store ht => exact absurd (.inr ht) (h.inside _)
  | throw ht => exact absurd (.inl ht) (h.inside _)
  | pass _ hdone => exact absurd (h.done.symm.trans hdone) nofun

/-- The first thread throws. -/
theorem of_throw (h : s.GnuOnceInv F w) (ht : s.pc t = .inRoutine) :
    (s.goto t .idle).Condemned := by
  obtain ⟨hw, hdone⟩ := h.inside t (.inl ht)
  have hmem : t ∈ F := (h.winner t hw).1
  have hpos : 0 < F.card := Finset.card_pos.2 ⟨t, hmem⟩
  have hstarted := h.started
  refine ⟨hdone, ?_, ?_, fun hzero ↦ ?_, ?_, insert t Fᶜ, ?_, ?_⟩
  · exact (Function.forall_update_iff s.pc fun _ pc ↦ ¬ pc.Inside).2
      ⟨by simp [GnuRunPc.Inside], fun u hut hu ↦ hut (Option.mem_unique (h.inside u hu).1 hw)⟩
  · show s.starts ≤ 1
    rw [h.starts]
    exact Option.length_toList_le
  · refine (Function.forall_update_iff s.pc fun _ pc ↦ pc ≠ .atTest).2 ⟨nofun, fun u _ hu ↦ ?_⟩
    rw [(h.eq_singleton hu hzero).2] at hw
    cases hw
  · show 0 ≤ s.once.started.toInt
    omega
  · exact (Function.forall_update_iff s.pc fun u pc ↦ pc.Early → u ∈ insert t Fᶜ).2
      ⟨fun _ ↦ Finset.mem_insert_self .., fun u _ hu ↦ Finset.mem_insert_of_mem
        (Finset.mem_compl.2 (h.notMem_of_early hdone hu))⟩
  · show s.once.started.toInt + ((insert t Fᶜ).card : ℤ) ≤ Fintype.card τ
    have hcompl : F.card + Fᶜ.card = Fintype.card τ := Finset.card_add_card_compl F
    have hinsert : (insert t Fᶜ).card ≤ Fᶜ.card + 1 := Finset.card_insert_le ..
    omega

/-- A second thread increments `started` before the first has tested it. -/
theorem of_increase (h : s.GnuOnceInv F w) (ht : s.pc t = .atIncrease) {u : τ}
    (hu : s.pc u = .atTest) (hzero : s.once.started = 0) :
    Condemned
      { s.goto t .atTest with once := { s.once with started := s.once.started + 1 } } := by
  obtain ⟨rfl, rfl⟩ := h.eq_singleton hu hzero
  obtain ⟨hdone, hstarts, hinside⟩ := h.nothing_done
  have hut : u ≠ t := by
    rintro rfl
    rw [ht] at hu
    cases hu
  refine ⟨hdone, ?_, hstarts.trans_le (Nat.zero_le 1), fun hone ↦ ?_, ?_, {u, t}ᶜ, ?_, ?_⟩
  · exact (Function.forall_update_iff s.pc fun _ pc ↦ ¬ pc.Inside).2
      ⟨by simp [GnuRunPc.Inside], fun v _ ↦ hinside v⟩
  · replace hone : s.once.started + 1 = 0 := hone
    rw [hzero] at hone
    cases hone
  · show 0 ≤ (s.once.started + 1).toInt
    rw [hzero]
    decide
  · refine (Function.forall_update_iff s.pc fun v pc ↦ pc.Early → v ∈ ({u, t} : Finset τ)ᶜ).2
      ⟨by simp [GnuRunPc.Early], fun v hvt hv ↦ ?_⟩
    have hvu : v ≠ u := fun heq ↦ h.notMem_of_early hdone hv (Finset.mem_singleton.2 heq)
    simp [hvu, hvt]
  · show (s.once.started + 1).toInt + (({u, t} : Finset τ)ᶜ.card : ℤ) ≤ Fintype.card τ
    have hcompl : ({u, t} : Finset τ).card + ({u, t} : Finset τ)ᶜ.card = Fintype.card τ :=
      Finset.card_add_card_compl _
    rw [Finset.card_pair hut] at hcompl
    have hone : (s.once.started + 1).toInt = 1 := by
      rw [hzero]
      rfl
    omega

/-- **How it begins**: with a step that the condition excludes. -/
theorem of_move (h : s.GnuOnceInv F w) (hmove : Moves s l s') (hl : ¬ s.Undisturbed l) :
    s'.Condemned := by
  cases hmove with
  | throw ht => exact of_throw h ht
  | call => exact absurd trivial hl
  | increase ht =>
    have hdisturbed : ¬ (s.once.started = 0 → ∀ u, s.pc u ≠ .atTest) := fun h ↦ hl fun _ ↦ h
    push Not at hdisturbed
    obtain ⟨hzero, u, hu⟩ := hdisturbed
    exact of_increase h ht hu hzero
  | check ht | win ht | lose ht | routine ht | store ht | spin ht =>
    exact absurd (fun hpc ↦ by rw [ht] at hpc; cases hpc) hl
  | pass ht =>
    refine absurd (fun hpc ↦ ?_) hl
    rcases ht with ht | ht <;> rw [ht] at hpc <;> cases hpc

end Condemned

/-! ### What the callers get -/

section Calls

variable {s s' : GnuOnceSys τ} {l : OnceLabel τ} {F : Finset τ} {w : Option τ} {t : τ}

/-- Whatever the threads do from here, `done` is not set. -/
def Lost (s : GnuOnceSys τ) : Prop :=
  ∀ ls s', run step s ls = some s' → s'.once.done = false

/-- A thread whose call returns does so once the routine has completed. -/
def ReturnsCompleted (s : GnuOnceSys τ) (l : OnceLabel τ) : Prop :=
  ∀ s' t, s.step l = some s' → l ≠ .throw t → s.pc t ≠ .idle → s'.pc t = .idle →
    1 ≤ s.completions

theorem not_lost_of_done (hdone : s.once.done = true) : ¬ s.Lost := by
  intro h
  exact Bool.false_ne_true ((h [] s rfl).symm.trans hdone)

theorem not_lost_of_step (hstep : s.step l = some s') (h : ¬ s'.Lost) : ¬ s.Lost :=
  fun hlost ↦ h fun ls s'' hrun ↦ hlost (l :: ls) s'' (run_cons_eq_some.2 ⟨s', hstep, hrun⟩)

theorem not_lost_of_atStore (ht : s.pc t = .atStore) : ¬ s.Lost := by
  have hstep : s.step (.next t) =
      some { s.goto t .idle with once := { s.once with done := true } } := by simp [step, ht]
  exact not_lost_of_step hstep (not_lost_of_done rfl)

theorem not_lost_of_inRoutine (ht : s.pc t = .inRoutine) : ¬ s.Lost := by
  have hstep : s.step (.next t) =
      some { s.goto t .atStore with completions := s.completions + 1 } := by simp [step, ht]
  exact not_lost_of_step hstep (not_lost_of_atStore (Function.update_self t _ _))

theorem not_lost_of_atTest (ht : s.pc t = .atTest) (hzero : s.once.started = 0) : ¬ s.Lost := by
  have hstep : s.step (.next t) = some { s.goto t .inRoutine with starts := s.starts + 1 } := by
    simp only [step, ht, exchangeAndAdd_zero, bne_eq_false_iff_eq, if_pos hzero]
  exact not_lost_of_step hstep (not_lost_of_inRoutine (Function.update_self t _ _))

theorem not_lost_of_atIncrease (ht : s.pc t = .atIncrease) (hfirst : s.once.started = -1) :
    ¬ s.Lost := by
  have hstep : s.step (.next t) =
      some { s.goto t .atTest with once := { s.once with started := s.once.started + 1 } } := by
    simp [step, ht, exchangeAndAdd]
  refine not_lost_of_step hstep (not_lost_of_atTest (Function.update_self t _ _) ?_)
  show s.once.started + 1 = 0
  rw [hfirst]
  rfl

theorem not_lost_of_atCheck (ht : s.pc t = .atCheck) (hfirst : s.once.started = -1)
    (hdone : s.once.done = false) : ¬ s.Lost := by
  have hstep : s.step (.next t) = some (s.goto t .atIncrease) := by simp [step, ht, hdone]
  exact not_lost_of_step hstep (not_lost_of_atIncrease (Function.update_self t _ _) hfirst)

theorem not_lost_of_idle (ht : s.pc t = .idle) (hfirst : s.once.started = -1)
    (hdone : s.once.done = false) : ¬ s.Lost := by
  have hstep : s.step (.call t) = some (s.goto t .atCheck) := by simp [step, ht]
  exact not_lost_of_step hstep (not_lost_of_atCheck (Function.update_self t _ _) hfirst hdone)

/-- As long as nothing has gone wrong, the routine can run. -/
theorem GnuOnceInv.not_lost [Nonempty τ] (h : s.GnuOnceInv F w) : ¬ s.Lost := by
  by_cases hdone : s.once.done = true
  · exact not_lost_of_done hdone
  have hdone : s.once.done = false := Bool.eq_false_of_not_eq_true hdone
  rcases F.eq_empty_or_nonempty with rfl | hF
  · -- nobody has come yet, so anybody can be the first
    have hfirst : s.once.started = -1 := Int32.toInt_inj.1 h.started
    obtain ⟨t⟩ := ‹Nonempty τ›
    have hplaced := h.placed t
    cases ht : s.pc t with
    | idle => exact not_lost_of_idle ht hfirst hdone
    | atCheck => exact not_lost_of_atCheck ht hfirst hdone
    | atIncrease => exact not_lost_of_atIncrease ht hfirst
    | atTest | inRoutine | atWait =>
      rw [ht] at hplaced
      exact absurd hplaced (Finset.notMem_empty t)
    | atStore =>
      rw [ht] at hplaced
      exact absurd hplaced.1 (Finset.notMem_empty t)
  · rcases h.onward hdone hF with ⟨t, ht | ht⟩ | ⟨t, rfl, ht⟩
    · exact not_lost_of_inRoutine ht
    · exact not_lost_of_atStore ht
    · exact not_lost_of_atTest ht (Int32.toInt_inj.1 h.started)

theorem Condemned.lost [Fintype τ] (hτ : Fintype.card τ < 2 ^ 31) (h : s.Condemned) : s.Lost :=
  fun _ _ hrun ↦
    (run_invariant (fun _ _ _ h hstep ↦ Condemned.move hτ h (moves_of_step hstep)) h hrun).done

theorem update_ne_idle {pc : τ → GnuRunPc} {u : τ} {x : GnuRunPc} (hx : x ≠ .idle)
    (hu : pc u ≠ .idle) : Function.update pc t x u ≠ .idle := by
  rcases eq_or_ne u t with rfl | hut
  · rwa [Function.update_self]
  · rwa [Function.update_of_ne hut]

/-- A call returns past `done`, or past the store to it. -/
theorem returnsCompleted_of (hdone : s.once.done = true → 1 ≤ s.completions)
    (hstore : ∀ t, s.pc t = .atStore → 1 ≤ s.completions) : s.ReturnsCompleted l := by
  intro s' u hstep hthrow hu hu'
  cases moves_of_step hstep with
  | spin => exact absurd hu' hu
  | pass _ hdone' => exact hdone hdone'
  | store ht => exact hstore _ ht
  | @throw t =>
    have hut : u ≠ t := fun heq ↦ hthrow (heq ▸ rfl)
    exact absurd ((Function.update_of_ne hut ..).symm.trans hu') hu
  | _ => exact absurd hu' (update_ne_idle nofun hu)

theorem GnuOnceInv.returnsCompleted (h : s.GnuOnceInv F w) : s.ReturnsCompleted l := by
  refine returnsCompleted_of (fun hdone ↦ (h.completed hdone).2) fun t ht ↦ ?_
  have hplaced := h.placed t
  rw [ht] at hplaced
  exact hplaced.2

theorem Condemned.returnsCompleted [Fintype τ] (h : s.Condemned) : s.ReturnsCompleted l :=
  returnsCompleted_of (fun hdone ↦ absurd (h.done.symm.trans hdone) nofun)
    fun t ht ↦ absurd (.inr ht) (h.inside t)

/-- **The dichotomy**, in every state. -/
theorem sound_or_condemned [Fintype τ] (hτ : Fintype.card τ < 2 ^ 31) (ls : List (OnceLabel τ)) :
    EveryState step (fun s ↦ (∃ F w, s.GnuOnceInv F w) ∨ s.Condemned) (start τ) ls := by
  refine everyState_of_invariant (fun s l s' hs hstep ↦ ?_) (.inl ⟨∅, none, gnuOnceInv_start τ⟩)
  have hmove := moves_of_step hstep
  rcases hs with ⟨F, w, h⟩ | h
  · by_cases hl : s.Undisturbed l
    · exact .inl (h.move hτ hmove hl)
    · exact .inr (.of_move h hmove hl)
  · exact .inr (h.move hτ hmove)

/-- **The GNU variant is safe**: with exceptions or without, the routine is started at most once,
and no call returns before it has completed. -/
theorem gnu_runs_once [Fintype τ] (hτ : Fintype.card τ < 2 ^ 31) (ls : List (OnceLabel τ)) :
    EveryState step (fun s ↦ s.starts ≤ 1) (start τ) ls ∧
      EveryStep step ReturnsCompleted (start τ) ls := by
  have hinv := sound_or_condemned hτ ls
  constructor
  · refine hinv.mono fun s hs ↦ ?_
    rcases hs with ⟨F, w, h⟩ | h
    · exact h.starts.trans_le Option.length_toList_le
    · exact h.starts
  · refine hinv.everyStep fun s l hs ↦ ?_
    rcases hs with ⟨F, w, h⟩ | h
    · exact h.returnsCompleted
    · exact h.returnsCompleted

/-- A caller, and another one after it. -/
def callersInTurn : List (OnceLabel Bool) :=
  [.call false, .next false, .next false, .next false, .next false, .next false, .call true,
    .next true]

theorem gnu_runs_once_two : ∃ s : GnuOnceSys Bool,
    run step (start Bool) callersInTurn = some s ∧ s.completions = 1 ∧ s.starts ≤ 1 :=
  ⟨_, rfl, rfl, (gnu_runs_once (by decide) callersInTurn).1.last rfl⟩

/-- **When it is lost.** Over a run, `done` can still be set from every state exactly if the routine
has not thrown and nobody has incremented `started` between the first increment and its test. -/
theorem gnu_never_lost_iff [Fintype τ] [Nonempty τ] (hτ : Fintype.card τ < 2 ^ 31)
    {ls : List (OnceLabel τ)} {s : GnuOnceSys τ} (hrun : run step (start τ) ls = some s) :
    EveryState step (fun s ↦ ¬ s.Lost) (start τ) ls ↔ EveryStep step Undisturbed (start τ) ls := by
  have hnot : ∀ s : GnuOnceSys τ, (∃ F w, s.GnuOnceInv F w) → ¬ s.Lost :=
    fun _ ⟨_, _, h⟩ ↦ h.not_lost
  refine everyState_iff_everyStep hnot (fun s l s' ⟨F, w, h⟩ hl hstep ↦ ?_)
    (fun s l s' ⟨F, w, h⟩ hl hstep ↦ ?_) ⟨∅, none, gnuOnceInv_start τ⟩ hrun
  · exact h.move hτ (moves_of_step hstep) hl
  · exact not_not_intro ((Condemned.of_move h (moves_of_step hstep) hl).lost hτ)

/-- Two callers, the second of which increments `started` before the first has tested it. -/
def collidingCallers : List (OnceLabel Bool) :=
  [.call false, .next false, .next false, .call true, .next true, .next true]

theorem gnu_never_lost_iff_two : ∃ s : GnuOnceSys Bool,
    run step (start Bool) collidingCallers = some s ∧
    ¬ EveryState step (fun s ↦ ¬ s.Lost) (start Bool) collidingCallers := by
  obtain ⟨s, hrun⟩ : ∃ s, run step (start Bool) collidingCallers = some s := ⟨_, rfl⟩
  refine ⟨s, hrun, fun hstates ↦ ?_⟩
  have hsteps := (gnu_never_lost_iff (by decide) hrun).1 hstates
  exact hsteps (collidingCallers.take 5) (.next true) [] _ rfl rfl rfl rfl false rfl

end Calls

end GnuOnceSys

end Libk2
