import Libk2.Threading.SpinLock
import Libk2.Foundation.LockedObject

/-!
# Methods guarded by a `spin_lock`

`mem_pool::alloc`, `mem_pool::dealloc` and `runtime::atexit_impl` begin with a
`scoped_guard<spin_lock>`: its constructor calls `acquire()`, its destructor calls `release()`,
however the method is left. `SpinGuarded` is an object with such methods, and with the lock as
`spin_lock.h` implements it: the constructor spins on `m_counter`, and the destructor's
`atomic_decrease` takes one or two steps like any other.

Each run of it is a run of the same object under an ideal lock (`exists_locked_run`): a thread
enters at the step of `acquire` that finds the counter at 0, and it has left as soon as `release` is
called. That nobody else is inside at the former is what `SpinInv` is for.
-/

namespace Libk2

open StepSystem LockedObject

/-- Where a thread is in a guarded method. -/
inductive GuardPlace (ω ρ κ : Type*) where
  /-- In the guard's constructor. -/
  | acquiring (op : ω)
  | inside (op : ω) (k : κ)
  /-- In the guard's destructor. -/
  | releasing (r : ρ)

/-- An object with guarded methods, and the threads that call them. -/
structure SpinGuarded (τ σ ω ρ κ : Type*) where
  state : σ
  stage : τ → Stage ρ (GuardPlace ω ρ κ)
  mLock : SpinSys τ

inductive GuardLabel (τ ω χ ρ ε : Type*) where
  | event (e : Event τ ω ρ ε)
  /-- One step of `acquire` or `release`. -/
  | spin (t : τ)
  /-- One step of the method. -/
  | next (t : τ) (x : χ)
  /-- The method is left. -/
  | leave (t : τ)

namespace GuardLabel

variable {τ ω χ ρ ε : Type*}

def visible : GuardLabel τ ω χ ρ ε → Option (Event τ ω ρ ε)
  | .event e => some e
  | _ => none

end GuardLabel

/-! ### Steps of the lock -/

/-- Inside `acquire()`. -/
def SpinPc.Acquiring (pc : SpinPc) : Prop :=
  pc = .atIncrease false ∨ pc = .increased false ∨ pc = .atDecrease false ∨ pc = .decreased false

/-- Inside `release()`. -/
def SpinPc.Releasing (pc : SpinPc) : Prop := pc = .atRelease ∨ pc = .released

namespace SpinSys

variable {τ : Type*} [DecidableEq τ] {v : AtomicVariant} {s s' : SpinSys τ} {t : τ}

/-- A step of `acquire()` stays there or ends it with the lock held. -/
theorem acquiring_next {expired : Bool} (h : (s.pc t).Acquiring)
    (hstep : s.step v (.next t expired) = some s') :
    ∃ pc value, s' = s.goto t pc value ∧ (pc.Acquiring ∨ pc = .holding) := by
  have hafter : ∀ ret, (afterIncrease ret false).Acquiring ∨
      afterIncrease ret false = .holding := by
    rintro (_ | _) <;> simp [afterIncrease, SpinPc.Acquiring]
  rcases h with ht | ht | ht | ht <;> cases v <;> simp only [step, ht, Option.some.injEq] at hstep
  · exact ⟨_, _, hstep.symm, .inl (.inr (.inl rfl))⟩
  · exact ⟨_, _, hstep.symm, hafter _⟩
  · exact ⟨_, _, hstep.symm, hafter _⟩
  · exact ⟨_, _, hstep.symm, hafter _⟩
  · exact ⟨_, _, hstep.symm, .inl (.inr (.inr (.inr rfl)))⟩
  · exact ⟨_, _, hstep.symm, .inl (.inl rfl)⟩
  · exact ⟨_, _, hstep.symm, .inl (.inl rfl)⟩
  · exact ⟨_, _, hstep.symm, .inl (.inl rfl)⟩

/-- A step of `release()` stays there or ends it. -/
theorem releasing_next {expired : Bool} (h : (s.pc t).Releasing)
    (hstep : s.step v (.next t expired) = some s') :
    ∃ pc value, s' = s.goto t pc value ∧ (pc.Releasing ∨ pc = .idle) := by
  rcases h with ht | ht <;> cases v <;> simp only [step, ht, Option.some.injEq] at hstep
  · exact ⟨_, _, hstep.symm, .inl (.inr rfl)⟩
  · exact ⟨_, _, hstep.symm, .inr rfl⟩
  · exact ⟨_, _, hstep.symm, .inr rfl⟩
  · exact ⟨_, _, hstep.symm, .inr rfl⟩

theorem SpinInv.of_step [Fintype τ] (hτ : Fintype.card τ < 2 ^ 31) {l : SpinLabel τ}
    (h : s.SpinInv) (hstep : s.step v l = some s') : s'.SpinInv := by
  obtain ⟨t, pc, value, rfl, hshift⟩ := shift_of_step hstep
  exact h.shift hτ hshift

end SpinSys

/-! ### The guarded object -/

namespace SpinGuarded

variable {τ σ ω χ ρ ε κ : Type*} [DecidableEq τ] [DecidableEq ρ]
variable (v : AtomicVariant) (S : Spec τ σ ω χ ρ ε) (P : Code σ ω χ ρ κ)

def start (s : σ) : SpinGuarded τ σ ω ρ κ := ⟨s, fun _ ↦ .idle, .start τ⟩

/-- What an event does to the lock: a call goes into `acquire`. -/
def lockEvent (lock : SpinSys τ) : Event τ ω ρ ε → Option (SpinSys τ)
  | .call t _ => lock.step v (.acquire t false)
  | _ => some lock

def step (g : SpinGuarded τ σ ω ρ κ) : GuardLabel τ ω χ ρ ε → Option (SpinGuarded τ σ ω ρ κ)
  | .event e =>
    (turn .acquiring g.stage e).bind fun stage ↦
      (S.note e g.state).bind fun s ↦ (lockEvent v g.mLock e).map fun lock ↦ ⟨s, stage, lock⟩
  | .spin t =>
    match g.stage t with
    | .busy (.acquiring op) =>
      (g.mLock.step v (.next t false)).map fun lock ↦
        { g with
          mLock := lock
          stage :=
            if lock.pc t = .holding then
              Function.update g.stage t (.busy (.inside op (P.start op)))
            else g.stage }
    | .busy (.releasing r) =>
      (g.mLock.step v (.next t false)).map fun lock ↦
        { g with
          mLock := lock
          stage := if lock.pc t = .idle then Function.update g.stage t (.done r) else g.stage }
    | _ => none
  | .next t x =>
    match g.stage t with
    | .busy (.inside op k) =>
      (P.next k x g.state).map fun r ↦
        { g with state := r.1, stage := Function.update g.stage t (.busy (.inside op r.2)) }
    | _ => none
  | .leave t =>
    match g.stage t with
    | .busy (.inside _ k) =>
      (P.result k).bind fun r ↦ (g.mLock.step v (.release t)).map fun lock ↦
        { g with mLock := lock, stage := Function.update g.stage t (.busy (.releasing r)) }
    | _ => none

/-! ### The same object under an ideal lock -/

/-- A thread as the ideal lock sees it. -/
def lockedStage : Stage ρ (GuardPlace ω ρ κ) → Stage ρ (ω × Option κ)
  | .idle => .idle
  | .done r => .done r
  | .busy (.acquiring op) => .busy (op, none)
  | .busy (.inside op k) => .busy (op, some k)
  | .busy (.releasing r) => .done r

/-- The configuration as the ideal lock sees it. -/
def locked (g : SpinGuarded τ σ ω ρ κ) : Locked τ σ ω ρ κ := ⟨g.state, lockedStage ∘ g.stage⟩

/-- Where a thread is in the lock, by where it is in the method. -/
def Agrees : Stage ρ (GuardPlace ω ρ κ) → SpinPc → Prop
  | .idle, pc => pc = .idle
  | .done _, pc => pc = .idle
  | .busy (.acquiring _), pc => pc.Acquiring
  | .busy (.inside _ _), pc => pc = .holding
  | .busy (.releasing _), pc => pc.Releasing

/-- The lock keeps its own invariant, and the threads are in it where their methods are. -/
structure Inv [Fintype τ] (g : SpinGuarded τ σ ω ρ κ) : Prop where
  spin : g.mLock.SpinInv
  agrees : ∀ t, Agrees (g.stage t) (g.mLock.pc t)

variable {v S P} [Fintype τ] {g g' : SpinGuarded τ σ ω ρ κ}

omit [DecidableEq τ] [DecidableEq ρ] in
theorem inv_start (s : σ) : (start s : SpinGuarded τ σ ω ρ κ).Inv where
  spin := SpinSys.spinInv_start τ
  agrees _ := rfl

omit [DecidableEq τ] [DecidableEq ρ] [Fintype τ] in
/-- Where a thread is inside, its lock is held. -/
theorem holding_of_inside {t : τ} (h : Agrees (g.stage t) (g.mLock.pc t))
    (hin : (g.locked.stage t).Inside) : g.mLock.pc t = .holding := by
  obtain ⟨op, k, hk⟩ := hin
  match ht : g.stage t with
  | .idle | .done _ | .busy (.acquiring _) | .busy (.releasing _) =>
    simp [locked, lockedStage, ht] at hk
  | .busy (.inside _ _) => simpa [Agrees, ht] using h

omit [DecidableEq ρ] [Fintype τ] in
/-- One thread moves on, in the method and in the lock. -/
theorem agrees_update (h : ∀ u, Agrees (g.stage u) (g.mLock.pc u)) {t : τ}
    {b : Stage ρ (GuardPlace ω ρ κ)} {pc : SpinPc} (ht : Agrees b pc) (u : τ) :
    Agrees (Function.update g.stage t b u) (Function.update g.mLock.pc t pc u) := by
  rcases eq_or_ne u t with rfl | hne
  · rwa [Function.update_self, Function.update_self]
  · rw [Function.update_of_ne hne, Function.update_of_ne hne]
    exact h u

omit [DecidableEq ρ] [Fintype τ] in
/-- One thread moves on in the lock alone. -/
theorem agrees_lock (h : ∀ u, Agrees (g.stage u) (g.mLock.pc u)) {t : τ} {pc : SpinPc}
    (ht : Agrees (g.stage t) pc) (u : τ) :
    Agrees (g.stage u) (Function.update g.mLock.pc t pc u) := by
  have hupdate := agrees_update (t := t) h ht u
  rwa [Function.update_eq_self] at hupdate

omit [DecidableEq ρ] [Fintype τ] in
/-- One thread moves on in the method alone. -/
theorem agrees_stage (h : ∀ u, Agrees (g.stage u) (g.mLock.pc u)) {t : τ}
    {b : Stage ρ (GuardPlace ω ρ κ)} (ht : Agrees b (g.mLock.pc t)) (u : τ) :
    Agrees (Function.update g.stage t b u) (g.mLock.pc u) := by
  have hupdate := agrees_update (t := t) h ht u
  rwa [Function.update_eq_self] at hupdate

/-- **Events** are the same under both locks. -/
theorem event_locked (hτ : Fintype.card τ < 2 ^ 31) (h : g.Inv) {e : Event τ ω ρ ε}
    (hstep : step v S P g (.event e) = some g') :
    g'.Inv ∧ Locked.step S P g.locked (.event e) = some g'.locked := by
  obtain ⟨stage, hturn, hrest⟩ := Option.bind_eq_some_iff.1 hstep
  obtain ⟨s, hs, hmap⟩ := Option.bind_eq_some_iff.1 hrest
  obtain ⟨lock, hlock, rfl⟩ := Option.map_eq_some_iff.1 hmap
  have hturn' : turn (fun op ↦ (op, none)) g.locked.stage e = some (lockedStage ∘ stage) :=
    turn_map (f := lockedStage) rfl (fun _ ↦ rfl) (fun _ ↦ rfl) hturn
  have hnote : S.note e g.locked.state = some s := hs
  refine ⟨?_, by simp only [Locked.step, hturn', hnote]; rfl⟩
  obtain ⟨t, op, rfl, ht, rfl⟩ | ⟨t, r, rfl, ht, rfl⟩ | ⟨x, rfl, rfl⟩ := turn_cases hturn
  · have hacquire : g.mLock.step v (.acquire t false) = some lock := hlock
    refine ⟨h.spin.of_step hτ hacquire, ?_⟩
    obtain ⟨-, ⟨⟩⟩ := Option.ite_none_right_eq_some.1 hacquire
    exact agrees_update h.agrees (.inl rfl)
  · obtain rfl := Option.some.inj hlock
    have hidle := h.agrees t
    rw [ht] at hidle
    exact ⟨h.spin, agrees_stage h.agrees hidle⟩
  · obtain rfl := Option.some.inj hlock
    exact ⟨h.spin, h.agrees⟩

/-- **The step of `acquire` that finds the counter at 0** enters the ideal lock; the other steps of
`acquire` and `release` are not seen by it. -/
theorem spin_locked (hτ : Fintype.card τ < 2 ^ 31) (h : g.Inv) {t : τ}
    (hstep : step v S P g (.spin t) = some g') :
    g'.Inv ∧ (g'.locked = g.locked ∨ Locked.step S P g.locked (.enter t) = some g'.locked) := by
  have hagrees := h.agrees t
  match ht : g.stage t with
  | .idle | .done _ | .busy (.inside _ _) => simp [step, ht] at hstep
  | .busy (.acquiring op) =>
    rw [ht] at hagrees
    simp only [step, ht] at hstep
    obtain ⟨lock, hlock, rfl⟩ := Option.map_eq_some_iff.1 hstep
    have hspin := h.spin.of_step hτ hlock
    obtain ⟨pc, value, rfl, hpc⟩ := SpinSys.acquiring_next hagrees hlock
    have hself : (g.mLock.goto t pc value).pc t = pc := Function.update_self _ _ _
    rcases hpc with hpc | rfl
    · have hne : pc ≠ .holding := by
        rintro rfl
        simp [SpinPc.Acquiring] at hpc
      rw [hself, if_neg hne]
      exact ⟨⟨hspin, agrees_lock h.agrees (ht ▸ hpc)⟩, .inl rfl⟩
    · rw [hself, if_pos rfl]
      refine ⟨⟨hspin, agrees_update h.agrees rfl⟩, .inr ?_⟩
      -- anybody else inside would hold the lock together with `t`
      have hfree : ∀ u, ¬ (g.locked.stage u).Inside := by
        intro u hin
        have hu := holding_of_inside (h.agrees u) hin
        have hne : u ≠ t := by
          rintro rfl
          rw [hu] at hagrees
          simp [Agrees, SpinPc.Acquiring] at hagrees
        refine hne (hspin.exclusive u t (.inl ?_) (.inl hself))
        exact (Function.update_of_ne hne _ _).trans hu
      have hwait : g.locked.stage t = .busy (op, none) := by simp [locked, lockedStage, ht]
      simp only [Locked.step, hwait, if_pos hfree]
      simp [locked, lockedStage, Function.comp_update]
  | .busy (.releasing r) =>
    rw [ht] at hagrees
    simp only [step, ht] at hstep
    obtain ⟨lock, hlock, rfl⟩ := Option.map_eq_some_iff.1 hstep
    have hspin := h.spin.of_step hτ hlock
    obtain ⟨pc, value, rfl, hpc⟩ := SpinSys.releasing_next hagrees hlock
    have hself : (g.mLock.goto t pc value).pc t = pc := Function.update_self _ _ _
    rcases hpc with hpc | rfl
    · have hne : pc ≠ .idle := by
        rintro rfl
        simp [SpinPc.Releasing] at hpc
      rw [hself, if_neg hne]
      exact ⟨⟨hspin, agrees_lock h.agrees (ht ▸ hpc)⟩, .inl rfl⟩
    · rw [hself, if_pos rfl]
      refine ⟨⟨hspin, agrees_update h.agrees rfl⟩, .inl ?_⟩
      have hdone : lockedStage (g.stage t) = .done r := by rw [ht]; rfl
      simp only [locked, Function.comp_update]
      rw [show lockedStage (.done r : Stage ρ (GuardPlace ω ρ κ)) = (lockedStage ∘ g.stage) t from
        hdone.symm, Function.update_eq_self]

/-- **A step of the method**, and leaving it, are the same under both locks. -/
theorem next_locked (h : g.Inv) {t : τ} {x : χ} (hstep : step v S P g (.next t x) = some g') :
    g'.Inv ∧ Locked.step S P g.locked (.next t x) = some g'.locked := by
  match ht : g.stage t with
  | .idle | .done _ | .busy (.acquiring _) | .busy (.releasing _) => simp [step, ht] at hstep
  | .busy (.inside op k) =>
    simp only [step, ht] at hstep
    obtain ⟨r, hr, rfl⟩ := Option.map_eq_some_iff.1 hstep
    have hholding := h.agrees t
    rw [ht] at hholding
    have hin : g.locked.stage t = .busy (op, some k) := by simp [locked, lockedStage, ht]
    refine ⟨⟨h.spin, agrees_stage h.agrees hholding⟩, ?_⟩
    simp only [Locked.step, hin]
    simp [locked, lockedStage, Function.comp_update, hr]

theorem leave_locked (hτ : Fintype.card τ < 2 ^ 31) (h : g.Inv) {t : τ}
    (hstep : step v S P g (.leave t) = some g') :
    g'.Inv ∧ Locked.step S P g.locked (.leave t) = some g'.locked := by
  match ht : g.stage t with
  | .idle | .done _ | .busy (.acquiring _) | .busy (.releasing _) => simp [step, ht] at hstep
  | .busy (.inside op k) =>
    simp only [step, ht] at hstep
    obtain ⟨r, hr, hrest⟩ := Option.bind_eq_some_iff.1 hstep
    obtain ⟨lock, hlock, rfl⟩ := Option.map_eq_some_iff.1 hrest
    refine ⟨⟨h.spin.of_step hτ hlock, ?_⟩, ?_⟩
    · obtain ⟨-, ⟨⟩⟩ := Option.ite_none_right_eq_some.1 hlock
      exact agrees_update h.agrees (.inl rfl)
    · have hin : g.locked.stage t = .busy (op, some k) := by simp [locked, lockedStage, ht]
      simp only [Locked.step, hin]
      simp [locked, lockedStage, Function.comp_update, hr]

/-! ### Runs -/

/-- **A guarded object is the object under an ideal lock**: every run shows the events of a run in
which a thread waits until nobody else is inside. -/
theorem exists_locked_run (hτ : Fintype.card τ < 2 ^ 31) {ls : List (GuardLabel τ ω χ ρ ε)}
    (h : g.Inv) (hrun : run (step v S P) g ls = some g') :
    ∃ ls', run (Locked.step S P) g.locked ls' = some g'.locked ∧ g'.Inv ∧
      ls'.filterMap LockedLabel.visible = ls.filterMap GuardLabel.visible := by
  have hstep : ∀ (g : SpinGuarded τ σ ω ρ κ) l g' c, (g.Inv ∧ c = g.locked) →
      step v S P g l = some g' → ∃ ls' c', run (Locked.step S P) c ls' = some c' ∧
        (g'.Inv ∧ c' = g'.locked) ∧
        ls'.filterMap LockedLabel.visible = (GuardLabel.visible l).toList := by
    rintro g l g' _ ⟨hg, rfl⟩ hstep
    cases l with
    | event e =>
      obtain ⟨hinv, hlocked⟩ := event_locked hτ hg hstep
      exact ⟨[.event e], g'.locked, by simp [run_cons, hlocked], ⟨hinv, rfl⟩, rfl⟩
    | spin t =>
      obtain ⟨hinv, hsame | hlocked⟩ := spin_locked hτ hg hstep
      · exact ⟨[], g.locked, rfl, ⟨hinv, hsame.symm⟩, rfl⟩
      · exact ⟨[.enter t], g'.locked, by simp [run_cons, hlocked], ⟨hinv, rfl⟩, rfl⟩
    | next t x =>
      obtain ⟨hinv, hlocked⟩ := next_locked hg hstep
      exact ⟨[.next t x], g'.locked, by simp [run_cons, hlocked], ⟨hinv, rfl⟩, rfl⟩
    | leave t =>
      obtain ⟨hinv, hlocked⟩ := leave_locked hτ hg hstep
      exact ⟨[.leave t], g'.locked, by simp [run_cons, hlocked], ⟨hinv, rfl⟩, rfl⟩
  obtain ⟨ls', _, hrun', ⟨hinv, rfl⟩, hvis⟩ := exists_run_of_simulation hstep ⟨h, rfl⟩ hrun
  exact ⟨ls', hrun', hinv, hvis⟩

/-- What every step under the ideal lock preserves holds in every state of the guarded object. -/
theorem everyState_locked (hτ : Fintype.card τ < 2 ^ 31) {Q : Locked τ σ ω ρ κ → Prop}
    (hQ : ∀ c (l : LockedLabel τ ω χ ρ ε) c', Q c → Locked.step S P c l = some c' → Q c') {s : σ}
    (hs : Q (.start s)) (ls : List (GuardLabel τ ω χ ρ ε)) :
    EveryState (step v S P) (fun g ↦ Q g.locked) (.start s) ls := by
  rintro ls₁ ls₂ g - hrun
  obtain ⟨ls', hrun', -, -⟩ := exists_locked_run hτ (inv_start s) hrun
  exact run_invariant hQ hs hrun'

/-- **Guarded calls take effect at one step.** With code that refines its specification under a
lock, a run of the guarded object shows the events of a run of atomic calls. -/
theorem exists_atomic_run (hτ : Fintype.card τ < 2 ^ 31) (R : Refinement (τ := τ) S P) {s : σ}
    (hs : R.Inv (.start s)) {ls : List (GuardLabel τ ω χ ρ ε)}
    (hrun : run (step v S P) (.start s) ls = some g') :
    ∃ ls' a, run (Atomic.step S) (.start s) ls' = some a ∧ R.Related g'.locked a ∧
      ls'.filterMap AtomicLabel.visible = ls.filterMap GuardLabel.visible := by
  obtain ⟨ls₁, hrun₁, -, hvis₁⟩ := exists_locked_run hτ (inv_start s) hrun
  obtain ⟨ls₂, a, hrun₂, hrelated, hvis₂⟩ :=
    Refinement.exists_atomic_run (Refinement.related_start hs) hrun₁
  exact ⟨ls₂, a, hrun₂, hrelated, hvis₂.trans hvis₁⟩

end SpinGuarded

end Libk2
