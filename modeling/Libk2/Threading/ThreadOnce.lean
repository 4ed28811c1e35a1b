import Mathlib.Data.Fintype.Card
import Libk2.Threading.Atomic

/-!
# `thread_once`

`thread_once::run` called by any number of threads, each read and write of `done` and each
`atomic_increase` being one step, and the once routine one step that returns or throws. The two
ghost counters say how often the routine was started and how often it completed. The assertion at
the top of `run_impl` is left out, because `run` always passes its own wrapper.

A thread is *ahead* between its winning increment and its store to `done`. `Moves` lists what the
steps do. Two arguments rest on it:

* while the routine always returns and there are too few threads for `started` to wrap around,
  `OnceInv` ties `started` to the set of threads that have incremented it, which gives
  `once_routine_runs_once`;
* with exceptions, what keeps every state usable is that whoever throws is not the only thread ahead
  (`never_wedged_iff`), and that needs no bound on the number of threads.
-/

namespace Libk2

open StepSystem

/-- `thread_once`. -/
structure ThreadOnce where
  started : AtomicInt
  done : Bool

/-- `K2_THREAD_ONCE_INIT`. -/
def ThreadOnce.init : ThreadOnce := ⟨-1, false⟩

/-- Where a thread is in `run_impl`. -/
inductive RunPc where
  | idle
  /-- At the first read of `done`. -/
  | atCheck
  | atIncrease
  | inRoutine
  /-- The routine has returned. -/
  | atStore
  /-- In the loop that waits for `done`. -/
  | atWait
deriving DecidableEq

/-- Between its winning increment and its store to `done`. -/
def RunPc.Ahead (pc : RunPc) : Prop := pc = .inRoutine ∨ pc = .atStore

/-- A `thread_once` and the threads `τ` that call `run` on it. -/
structure OnceSys (τ : Type*) where
  once : ThreadOnce
  pc : τ → RunPc
  starts : ℕ
  completions : ℕ

/-- A thread calls `run`, goes on with its call, or leaves the routine with an exception. -/
inductive OnceLabel (τ : Type*) where
  | call (t : τ)
  | next (t : τ)
  | throw (t : τ)

namespace OnceSys

variable {τ : Type*}

/-- Nobody has called `run`. -/
def start (τ : Type*) : OnceSys τ := ⟨.init, fun _ ↦ .idle, 0, 0⟩

variable [DecidableEq τ]

/-- Thread `t` goes on to `pc`. -/
def goto (s : OnceSys τ) (t : τ) (pc : RunPc) : OnceSys τ :=
  { s with pc := Function.update s.pc t pc }

/-- One step of a thread in `run_impl`. -/
def step (s : OnceSys τ) : OnceLabel τ → Option (OnceSys τ)
  | .call t => if s.pc t = .idle then some (s.goto t .atCheck) else none
  | .next t =>
    match s.pc t with
    | .idle => none
    | .atCheck => some (if s.once.done = false then s.goto t .atIncrease else s.goto t .idle)
    | .atIncrease =>
      let r := atomicIncrease s.once.started
      let s := { s with once := { s.once with started := r.2 } }
      some (if r.1 = false then { s.goto t .inRoutine with starts := s.starts + 1 }
        else s.goto t .atWait)
    | .inRoutine => some { s.goto t .atStore with completions := s.completions + 1 }
    | .atStore => some { s.goto t .idle with once := { s.once with done := true } }
    | .atWait => some (if s.once.done = false then s else s.goto t .idle)
  | .throw t => if s.pc t = .inRoutine then some (s.goto t .idle) else none

/-! ### What a step does -/

/-- `started` after one increment. -/
def increased (s : OnceSys τ) : OnceSys τ :=
  { s with once := { s.once with started := s.once.started + 1 } }

/-- The moves of the threads. -/
inductive Moves (s : OnceSys τ) : OnceLabel τ → OnceSys τ → Prop
  | call {t : τ} (ht : s.pc t = .idle) : Moves s (.call t) (s.goto t .atCheck)
  | check {t : τ} (ht : s.pc t = .atCheck) (hdone : s.once.done = false) :
      Moves s (.next t) (s.goto t .atIncrease)
  | win {t : τ} (ht : s.pc t = .atIncrease) (hzero : s.once.started + 1 = 0) :
      Moves s (.next t) { s.increased.goto t .inRoutine with starts := s.starts + 1 }
  | lose {t : τ} (ht : s.pc t = .atIncrease) (hzero : s.once.started + 1 ≠ 0) :
      Moves s (.next t) (s.increased.goto t .atWait)
  | routine {t : τ} (ht : s.pc t = .inRoutine) :
      Moves s (.next t) { s.goto t .atStore with completions := s.completions + 1 }
  | store {t : τ} (ht : s.pc t = .atStore) :
      Moves s (.next t) { s.goto t .idle with once := { s.once with done := true } }
  | spin {t : τ} (ht : s.pc t = .atWait) (hdone : s.once.done = false) : Moves s (.next t) s
  | pass {t : τ} (ht : s.pc t = .atCheck ∨ s.pc t = .atWait) (hdone : s.once.done = true) :
      Moves s (.next t) (s.goto t .idle)
  | throw {t : τ} (ht : s.pc t = .inRoutine) : Moves s (.throw t) (s.goto t .idle)

/-- Every step is one of the moves. -/
theorem moves_of_step {s s' : OnceSys τ} {l : OnceLabel τ} (h : s.step l = some s') :
    Moves s l s' := by
  cases l with
  | call t =>
    obtain ⟨ht, ⟨⟩⟩ := Option.ite_none_right_eq_some.1 h
    exact .call ht
  | throw t =>
    obtain ⟨ht, ⟨⟩⟩ := Option.ite_none_right_eq_some.1 h
    exact .throw ht
  | next t =>
    cases ht : s.pc t with
    | idle => simp [step, ht] at h
    | atCheck =>
      simp only [step, ht, Option.some.injEq] at h
      split at h
      · next hdone => exact h ▸ .check ht hdone
      · next hdone => exact h ▸ .pass (.inl ht) (Bool.eq_true_of_not_eq_false hdone)
    | atIncrease =>
      simp only [step, ht, atomicIncrease, AtomicOp.apply, AtomicOp.addend, Option.some.injEq,
        bne_eq_false_iff_eq] at h
      split at h
      · next hzero => exact h ▸ .win ht hzero
      · next hzero => exact h ▸ .lose ht hzero
    | inRoutine =>
      simp only [step, ht, Option.some.injEq] at h
      exact h ▸ .routine ht
    | atStore =>
      simp only [step, ht, Option.some.injEq] at h
      exact h ▸ .store ht
    | atWait =>
      simp only [step, ht, Option.some.injEq] at h
      split at h
      · next hdone => exact h ▸ .spin ht hdone
      · next hdone => exact h ▸ .pass (.inr ht) (Bool.eq_true_of_not_eq_false hdone)

/-- Some thread is ahead once `t` has moved: `t` itself, or another one that was before. -/
theorem ahead_update_iff {pc : τ → RunPc} {t : τ} {x : RunPc} :
    (∃ u, (Function.update pc t x u).Ahead) ↔ x.Ahead ∨ ∃ u ≠ t, (pc u).Ahead :=
  Function.exists_update_iff pc fun _ pc ↦ pc.Ahead

/-! ### The routine runs once -/

/-- Where a thread may be, seen from the set `F` of the threads that have incremented `started`. -/
def Placed (F : Finset τ) (done completed : Prop) (t : τ) : RunPc → Prop
  | .idle => t ∈ F → done
  | .atCheck => t ∈ F → done
  | .atIncrease => t ∉ F
  | .inRoutine => t ∈ F
  | .atStore => t ∈ F ∧ completed
  | .atWait => t ∈ F

/-- The invariant, for the set `F` of the threads that have incremented `started`. -/
structure OnceInv (s : OnceSys τ) (F : Finset τ) : Prop where
  started : s.once.started.toInt = F.card - 1
  starts : s.starts = min F.card 1
  placed : ∀ t, Placed F (s.once.done = true) (1 ≤ s.completions) t (s.pc t)
  completed : s.once.done = true → 1 ≤ s.completions
  ahead : s.once.done = false → F.Nonempty → ∃ t, (s.pc t).Ahead

omit [DecidableEq τ] in
theorem Placed.mono {F : Finset τ} {done completed done' completed' : Prop} {t : τ} {pc : RunPc}
    (h : Placed F done completed t pc) (hdone : done → done')
    (hcompleted : completed → completed') :
    Placed F done' completed' t pc := by
  cases pc with
  | idle => exact hdone ∘ h
  | atCheck => exact hdone ∘ h
  | atIncrease => exact h
  | inRoutine => exact h
  | atStore => exact ⟨h.1, hcompleted h.2⟩
  | atWait => exact h

/-- Another thread's increment. -/
theorem placed_insert {F : Finset τ} {done completed : Prop} {t u : τ} {pc : RunPc}
    (h : Placed F done completed u pc) (hut : u ≠ t) :
    Placed (insert t F) done completed u pc := by
  have hmem : u ∈ insert t F ↔ u ∈ F := by
    rw [Finset.mem_insert, or_iff_right hut]
  cases pc <;> simpa only [Placed, hmem] using h

theorem onceInv_start (τ : Type*) [DecidableEq τ] : (start τ).OnceInv ∅ where
  started := rfl
  starts := rfl
  placed _ := fun h ↦ absurd h (Finset.notMem_empty _)
  completed := nofun
  ahead _ h := absurd h Finset.not_nonempty_empty

namespace OnceInv

variable {s s' : OnceSys τ} {l : OnceLabel τ} {F : Finset τ} {t : τ}

/-- A thread goes on without incrementing `started`; it may record a completion and set `done`. -/
theorem advance (h : s.OnceInv F) {pc : RunPc} {done : Bool} {completions : ℕ}
    (hdone : s.once.done = true → done = true) (hcompletions : s.completions ≤ completions)
    (hcompleted : done = true → 1 ≤ completions)
    (ht : Placed F (done = true) (1 ≤ completions) t pc)
    (hahead : done = false → (s.pc t).Ahead → pc.Ahead) :
    OnceInv { s.goto t pc with
      once := { s.once with done := done }
      completions := completions } F where
  started := h.started
  starts := h.starts
  placed := (Function.forall_update_iff s.pc fun u pc ↦ Placed F _ _ u pc).2
    ⟨ht, fun u _ ↦ (h.placed u).mono hdone fun hone ↦ hone.trans hcompletions⟩
  completed := hcompleted
  ahead hnot hF := by
    have hnot' : s.once.done = false := Bool.eq_false_of_not_eq_true fun hd ↦
      Bool.false_ne_true (hnot.symm.trans (hdone hd))
    obtain ⟨u, hu⟩ := h.ahead hnot' hF
    rcases eq_or_ne u t with rfl | hut
    · exact ahead_update_iff.2 (.inl (hahead hnot hu))
    · exact ahead_update_iff.2 (.inr ⟨u, hut, hu⟩)

/-- A thread goes on, and nothing else changes. -/
theorem goto (h : s.OnceInv F) {pc : RunPc}
    (ht : Placed F (s.once.done = true) (1 ≤ s.completions) t pc)
    (hahead : s.once.done = false → (s.pc t).Ahead → pc.Ahead) : (s.goto t pc).OnceInv F :=
  h.advance id le_rfl h.completed ht hahead

/-- A thread increments `started`, for the first time. -/
theorem increase (h : s.OnceInv F) (ht : t ∉ F) (hcard : F.card < 2 ^ 31) {pc : RunPc}
    (hpc : pc = .inRoutine ∨ pc = .atWait)
    (hahead : s.once.done = false → pc.Ahead ∨ ∃ u ≠ t, (s.pc u).Ahead) :
    OnceInv { s.increased.goto t pc with starts := min (F.card + 1) 1 } (insert t F) where
  started := by
    rw [Finset.card_insert_of_notMem ht, Int.natCast_succ, Int.add_sub_cancel]
    exact (toInt_increased h.started hcard).1
  starts := by rw [Finset.card_insert_of_notMem ht]
  placed := by
    refine (Function.forall_update_iff s.pc fun u pc ↦ Placed (insert t F) _ _ u pc).2
      ⟨?_, fun u hut ↦ placed_insert (h.placed u) hut⟩
    rcases hpc with rfl | rfl <;> exact Finset.mem_insert_self t F
  completed := h.completed
  ahead hdone _ := ahead_update_iff.2 (hahead hdone)

/-- **One step** of a system whose routine returns keeps the invariant. -/
theorem move [Fintype τ] (hτ : Fintype.card τ < 2 ^ 31) (h : s.OnceInv F) (hmove : Moves s l s')
    (hnormal : ∀ t, l ≠ .throw t) : ∃ F', s'.OnceInv F' := by
  have hF : F.card < 2 ^ 31 := (Finset.card_le_univ F).trans_lt hτ
  cases hmove with
  | @call t ht =>
    have hplaced := h.placed t
    rw [ht] at hplaced
    exact ⟨F, h.goto hplaced (by simp [ht, RunPc.Ahead])⟩
  | @check t ht hdone =>
    have hplaced := h.placed t
    rw [ht] at hplaced
    refine ⟨F, h.goto (fun hmem ↦ ?_) (by simp [ht, RunPc.Ahead])⟩
    exact Bool.false_ne_true (hdone.symm.trans (hplaced hmem))
  | @win t ht hzero =>
    have hplaced := h.placed t
    rw [ht] at hplaced
    -- only the first increment leaves 0
    have hempty : F.card = 0 := (toInt_increased h.started hF).2.1 hzero
    have hstarts : s.starts + 1 = min (F.card + 1) 1 := by
      rw [h.starts, hempty]
      rfl
    rw [hstarts]
    exact ⟨insert t F, h.increase hplaced hF (.inl rfl) fun _ ↦ .inl (.inl rfl)⟩
  | @lose t ht hzero =>
    have hplaced := h.placed t
    rw [ht] at hplaced
    -- somebody has incremented before, and is ahead as long as `done` is false
    have hpos : 0 < F.card :=
      Nat.pos_of_ne_zero fun hF0 ↦ hzero ((toInt_increased h.started hF).2.2 hF0)
    have hstarts : s.starts = min (F.card + 1) 1 := by
      rw [h.starts]
      omega
    have hinc := h.increase hplaced hF (.inr rfl) fun hdone ↦ by
      obtain ⟨u, hu⟩ := h.ahead hdone (Finset.card_pos.1 hpos)
      refine .inr ⟨u, ?_, hu⟩
      rintro rfl
      simp [ht, RunPc.Ahead] at hu
    rw [← hstarts] at hinc
    exact ⟨insert t F, hinc⟩
  | @routine t ht =>
    have hplaced := h.placed t
    rw [ht] at hplaced
    exact ⟨F, h.advance id (Nat.le_add_right _ _) (fun _ ↦ Nat.le_add_left 1 _)
      ⟨hplaced, Nat.le_add_left 1 _⟩ fun _ _ ↦ .inr rfl⟩
  | @store t ht =>
    have hplaced := h.placed t
    rw [ht] at hplaced
    exact ⟨F, h.advance (fun _ ↦ rfl) le_rfl (fun _ ↦ hplaced.2) (fun _ ↦ rfl) nofun⟩
  | spin => exact ⟨F, h⟩
  | @pass t ht hdone =>
    exact ⟨F, h.goto (fun _ ↦ hdone) (by rw [hdone]; exact nofun)⟩
  | @throw t => exact absurd rfl (hnormal t)

end OnceInv

/-- A thread whose call returns does so once the routine has completed. -/
def ReturnsCompleted (s : OnceSys τ) (l : OnceLabel τ) : Prop :=
  ∀ s' t, s.step l = some s' → s.pc t ≠ .idle → s'.pc t = .idle → 1 ≤ s.completions

/-- Somebody waits for `done`, with nobody ahead who would set it. -/
def Stranded (s : OnceSys τ) : Prop :=
  s.once.done = false ∧ (∃ t, s.pc t = .atWait) ∧ ∀ t, ¬ (s.pc t).Ahead

theorem update_ne_idle {pc : τ → RunPc} {t u : τ} {x : RunPc} (hx : x ≠ .idle)
    (hu : pc u ≠ .idle) : Function.update pc t x u ≠ .idle := by
  rcases eq_or_ne u t with rfl | hut
  · rwa [Function.update_self]
  · rwa [Function.update_of_ne hut]

theorem OnceInv.returnsCompleted {s : OnceSys τ} {F : Finset τ} (h : s.OnceInv F) {l : OnceLabel τ}
    (hnormal : ∀ t, l ≠ .throw t) : s.ReturnsCompleted l := by
  intro s' u hstep hu hu'
  cases moves_of_step hstep with
  | throw => exact absurd rfl (hnormal _)
  | spin => exact absurd hu' hu
  | pass ht hdone => exact h.completed hdone
  | @store t ht =>
    have hplaced := h.placed t
    rw [ht] at hplaced
    exact hplaced.2
  | _ => exact absurd hu' (update_ne_idle nofun hu)

omit [DecidableEq τ] in
theorem OnceInv.not_stranded {s : OnceSys τ} {F : Finset τ} (h : s.OnceInv F) : ¬ s.Stranded := by
  rintro ⟨hdone, ⟨t, ht⟩, hnot⟩
  have hplaced := h.placed t
  rw [ht] at hplaced
  obtain ⟨u, hu⟩ := h.ahead hdone ⟨t, hplaced⟩
  exact hnot u hu

theorem everyStep_ne_throw {ls : List (OnceLabel τ)} (hnormal : ∀ t, .throw t ∉ ls) :
    EveryStep step (fun _ l ↦ ∀ t, l ≠ .throw t) (start τ) ls :=
  everyStep_of_forall_mem fun _ hl t heq ↦ hnormal t (heq ▸ hl)

theorem onceInv_of_run [Fintype τ] (hτ : Fintype.card τ < 2 ^ 31) {ls : List (OnceLabel τ)}
    (hnormal : ∀ t, .throw t ∉ ls) :
    EveryState step (fun s ↦ ∃ F, s.OnceInv F) (start τ) ls :=
  everyState_of_everyStep (fun _ _ _ ⟨_, h⟩ hl hstep ↦ h.move hτ (moves_of_step hstep) hl)
    ⟨∅, onceInv_start τ⟩ (everyStep_ne_throw hnormal)

/-- **The routine runs once**, and nobody gets ahead of it. -/
theorem once_routine_runs_once [Fintype τ] (hτ : Fintype.card τ < 2 ^ 31)
    {ls : List (OnceLabel τ)} (hnormal : ∀ t, .throw t ∉ ls) :
    EveryState step (fun s ↦ s.starts ≤ 1 ∧ ¬ s.Stranded) (start τ) ls ∧
      EveryStep step ReturnsCompleted (start τ) ls := by
  have hinv := onceInv_of_run hτ hnormal
  constructor
  · refine hinv.mono fun s ⟨F, h⟩ ↦ ⟨?_, h.not_stranded⟩
    exact h.starts.trans_le (min_le_right _ _)
  · refine (everyStep_ne_throw hnormal).imp_of_everyState hinv fun s l ⟨F, h⟩ hl ↦ ?_
    exact h.returnsCompleted hl

/-- Two callers, the second of which arrives while the first runs the routine, and waits. -/
def twoCallers : List (OnceLabel Bool) :=
  [.call false, .next false, .call true, .next false, .next true, .next true, .next true,
    .next false, .next false, .next true]

theorem not_throw_mem_twoCallers (t : Bool) : .throw t ∉ twoCallers := by
  simp [twoCallers]

/-- Both have returned, and the routine has run. -/
theorem once_routine_runs_once_two : ∃ s, run step (start Bool) twoCallers = some s ∧
    s.completions = 1 ∧ s.once.done = true ∧ (∀ t, s.pc t = .idle) ∧ s.starts ≤ 1 ∧
      ¬ s.Stranded := by
  have hstates := (once_routine_runs_once (by decide) not_throw_mem_twoCallers).1
  exact ⟨_, rfl, rfl, rfl, by decide, hstates.last rfl⟩

/-! ### Exceptions -/

/-- Nobody is ahead who could still set `done`, and yet a caller waits for it or would have to. -/
def Wedged (s : OnceSys τ) : Prop :=
  s.once.done = false ∧ (∀ t, ¬ (s.pc t).Ahead) ∧
    ((∃ t, s.pc t = .atWait) ∨ s.once.started + 1 ≠ 0)

/-- **The condition.** Whoever leaves the routine with an exception is not the only thread ahead,
unless `done` is already set. -/
def Covered (s : OnceSys τ) : OnceLabel τ → Prop
  | .throw t => s.once.done = true ∨ ∃ u ≠ t, (s.pc u).Ahead
  | _ => True

/-- Somebody is ahead, or nobody has incremented `started` since it was -1. -/
def Usable (s : OnceSys τ) : Prop :=
  s.once.done = false →
    (∃ t, (s.pc t).Ahead) ∨ s.once.started = -1 ∧ ∀ t, s.pc t ≠ .atWait

/-- Somebody waits, or `started` is where a winner put it, or nobody is ahead. -/
def Marked (s : OnceSys τ) : Prop :=
  s.once.done = false →
    (∃ t, s.pc t = .atWait) ∨ s.once.started = 0 ∨ s.once.started = -1 ∧ ∀ t, ¬ (s.pc t).Ahead

namespace Usable

variable {s s' : OnceSys τ} {l : OnceLabel τ} {t : τ}

theorem goto (h : s.Usable) {pc : RunPc} (ht : (s.pc t).Ahead → pc.Ahead) (hpc : pc ≠ .atWait) :
    (s.goto t pc).Usable := by
  intro hdone
  rcases h hdone with ⟨u, hu⟩ | ⟨hstarted, hwait⟩
  · rcases eq_or_ne u t with rfl | hut
    · exact .inl (ahead_update_iff.2 (.inl (ht hu)))
    · exact .inl (ahead_update_iff.2 (.inr ⟨u, hut, hu⟩))
  · exact .inr ⟨hstarted, (Function.forall_update_iff s.pc fun _ pc ↦ pc ≠ .atWait).2
      ⟨hpc, fun u _ ↦ hwait u⟩⟩

theorem move (h : s.Usable) (hl : s.Covered l) (hmove : Moves s l s') : s'.Usable := by
  cases hmove with
  | call ht => exact h.goto (by simp [ht, RunPc.Ahead]) nofun
  | check ht => exact h.goto (by simp [ht, RunPc.Ahead]) nofun
  | win => exact fun _ ↦ .inl (ahead_update_iff.2 (.inl (.inl rfl)))
  | @lose t ht hzero =>
    -- from -1 the thread would have won, so somebody else is ahead
    intro hdone
    rcases h hdone with ⟨u, hu⟩ | ⟨hstarted, -⟩
    · refine .inl (ahead_update_iff.2 (.inr ⟨u, ?_, hu⟩))
      rintro rfl
      simp [ht, RunPc.Ahead] at hu
    · exact absurd (by rw [hstarted]; rfl) hzero
  | routine ht => exact h.goto (fun _ ↦ .inr rfl) nofun
  | store => exact nofun
  | spin => exact h
  | pass ht hdone => exact fun hnot ↦ absurd (hdone.symm.trans hnot) nofun
  | throw ht =>
    intro hnot
    rcases hl with hdone | hahead
    · exact absurd (hdone.symm.trans hnot) nofun
    · exact .inl (ahead_update_iff.2 (.inr hahead))

omit [DecidableEq τ] in
theorem not_wedged (h : s.Usable) : ¬ s.Wedged := by
  rintro ⟨hdone, hnot, hwait⟩
  rcases h hdone with ⟨u, hu⟩ | ⟨hstarted, hnone⟩
  · exact hnot u hu
  · rcases hwait with ⟨u, hu⟩ | hne
    · exact hnone u hu
    · exact hne (by rw [hstarted]; rfl)

end Usable

namespace Marked

variable {s s' : OnceSys τ} {l : OnceLabel τ} {t : τ}

theorem goto (h : s.Marked) {pc : RunPc} (ht : s.pc t ≠ .atWait)
    (hpc : pc.Ahead → (s.pc t).Ahead) : (s.goto t pc).Marked := by
  intro hdone
  rcases h hdone with ⟨u, hu⟩ | hzero | ⟨hstarted, hnot⟩
  · have hut : u ≠ t := by
      rintro rfl
      exact ht hu
    refine .inl ⟨u, ?_⟩
    show Function.update s.pc t pc u = .atWait
    rw [Function.update_of_ne hut, hu]
  · exact .inr (.inl hzero)
  · refine .inr (.inr ⟨hstarted, (Function.forall_update_iff s.pc fun _ pc ↦ ¬ pc.Ahead).2
      ⟨fun hahead ↦ hnot t (hpc hahead), fun u _ ↦ hnot u⟩⟩)

theorem move (h : s.Marked) (hmove : Moves s l s') : s'.Marked := by
  cases hmove with
  | call ht => exact h.goto (by simp [ht]) (by simp [RunPc.Ahead])
  | check ht => exact h.goto (by simp [ht]) (by simp [RunPc.Ahead])
  | win _ hzero => exact fun _ ↦ .inr (.inl hzero)
  | @lose t => exact fun _ ↦ .inl ⟨t, Function.update_self _ _ _⟩
  | routine ht => exact h.goto (by simp [ht]) fun _ ↦ .inl ht
  | store => exact nofun
  | spin => exact h
  | pass ht hdone => exact fun hnot ↦ absurd (hdone.symm.trans hnot) nofun
  | throw ht => exact h.goto (by simp [ht]) (by simp [RunPc.Ahead])

/-- The only thread ahead throws: whoever waits, or comes later, waits for nobody. -/
theorem wedged_of_throw (h : s.Marked) (hl : ¬ s.Covered l) (hmove : Moves s l s') : s'.Wedged := by
  cases hmove with
  | @throw t ht =>
    obtain ⟨hdone, hnot⟩ := not_or.1 hl
    have hdone : s.once.done = false := Bool.eq_false_of_not_eq_true hdone
    refine ⟨hdone, (Function.forall_update_iff s.pc fun _ pc ↦ ¬ pc.Ahead).2
      ⟨by simp [RunPc.Ahead], fun u hut hu ↦ hnot ⟨u, hut, hu⟩⟩, ?_⟩
    rcases h hdone with ⟨u, hu⟩ | hzero | ⟨-, hnone⟩
    · have hut : u ≠ t := by
        rintro rfl
        simp [ht] at hu
      refine .inl ⟨u, ?_⟩
      show Function.update s.pc t .idle u = .atWait
      rw [Function.update_of_ne hut, hu]
    · refine .inr ?_
      show s.once.started + 1 ≠ 0
      rw [hzero]
      decide
    · exact absurd (.inl ht) (hnone t)
  | _ => exact absurd trivial hl

end Marked

/-- **A failed initialisation wedges the `thread_once`** unless another thread is ahead: over a run,
no state is wedged exactly when every exception is covered. -/
theorem never_wedged_iff {ls : List (OnceLabel τ)} {s : OnceSys τ}
    (h : run step (start τ) ls = some s) :
    EveryState step (fun s ↦ ¬ s.Wedged) (start τ) ls ↔ EveryStep step Covered (start τ) ls := by
  have hnot : ∀ s : OnceSys τ, s.Usable ∧ s.Marked → ¬ s.Wedged := fun _ hs ↦ hs.1.not_wedged
  have hstart : (start τ).Usable ∧ (start τ).Marked :=
    ⟨fun _ ↦ .inr ⟨rfl, fun _ ↦ by simp [start]⟩,
      fun _ ↦ .inr (.inr ⟨rfl, fun _ ↦ by simp [start, RunPc.Ahead]⟩)⟩
  refine everyState_iff_everyStep hnot (fun s l t hs hl hstep ↦ ?_) (fun s l t hs hl hstep ↦ ?_)
    hstart h
  · have hmove := moves_of_step hstep
    exact ⟨hs.1.move hl hmove, hs.2.move hmove⟩
  · exact not_not_intro (hs.2.wedged_of_throw hl (moves_of_step hstep))

theorem never_wedged_two :
    ∃ s, run step (start Bool) twoCallers = some s ∧ ¬ s.Wedged := by
  obtain ⟨s, hrun⟩ : ∃ s, run step (start Bool) twoCallers = some s := ⟨_, rfl⟩
  have hcovered : EveryStep step Covered (start Bool) twoCallers := by
    rintro ls₁ l ls₂ u hls -
    cases l with
    | throw t => exact absurd (hls ▸ by simp) (not_throw_mem_twoCallers t)
    | _ => trivial
  exact ⟨s, hrun, ((never_wedged_iff hrun).2 hcovered).last hrun⟩

/-- **One exception is enough.** The only caller throws, and the next one would wait for ever. -/
theorem wedged_by_exception : ¬ ∀ (ls : List (OnceLabel Bool)) (s : OnceSys Bool),
    run step (start Bool) ls = some s →
      EveryState step (fun s ↦ ¬ s.Wedged) (start Bool) ls := by
  intro hall
  obtain ⟨s, hrun, hpc, honce⟩ : ∃ s, run step (start Bool)
      [.call false, .next false, .next false, .throw false] = some s ∧ (∀ t, s.pc t = .idle) ∧
      s.once = ⟨0, false⟩ := ⟨_, rfl, by decide, rfl⟩
  refine (hall _ s hrun).last hrun ⟨by rw [honce], fun t ↦ ?_, .inr ?_⟩
  · simp [hpc, RunPc.Ahead]
  · rw [honce]
    decide

end OnceSys

end Libk2
