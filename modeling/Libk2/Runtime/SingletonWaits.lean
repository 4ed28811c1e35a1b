import Libk2.Foundation.WaitChain
import Libk2.Runtime.SingletonThreads

/-!
# Waiting for a `singleton`

A thread that refers to a class under construction waits for the thread that runs the constructor.
That one may be itself, or may be waiting for it in turn; and a class whose constructor has thrown
nobody constructs any more. Other waits there are none: `gets_out_iff` says which threads can still
get out of their calls.

`Onward` is what a thread does on its own: it finishes the constructors that it is running, and
nothing fails. If constructors refer to classes in some order and none throws, all threads can get
out, and every class that anybody has referred to is complete then (`no_deadlock`).
-/

namespace Libk2

open StepSystem WaitChain

/-- Whose step it is. -/
def InstanceLabel.thread {τ κ : Type*} : InstanceLabel τ κ → τ
  | .call t _ | .next t | .construct t | .throw t | .register t _ => t

/-- A step that gets on with a call, and does not fail. -/
def InstanceLabel.GoesOn {τ κ : Type*} : InstanceLabel τ κ → Prop
  | .next _ | .construct _ | .register _ (some _) => True
  | .call _ _ | .throw _ | .register _ none => False

namespace InstancePlace

variable {κ : Type*}

/-- It is on its way to the `done` of a class. -/
def Asks (p : InstancePlace κ) (c : κ) : Prop :=
  p.pc = .atCheck c ∨ p.pc = .atIncrease c ∨ p.pc = .atWait c

/-- It is the one to set the `done` of a class. -/
def Builds (p : InstancePlace κ) (c : κ) : Prop :=
  p.pc = .atRegister c ∨ p.pc = .atStore c ∨ c ∈ p.constructing

/-- The classes whose `instance` it is in, the innermost first. -/
def calls (p : InstancePlace κ) : List κ :=
  match p.pc with
  | .idle => p.constructing
  | .atCheck c | .atIncrease c | .atWait c | .atRegister c | .atStore c | .done c =>
    c :: p.constructing

/-- It is in no call. -/
def Out (p : InstancePlace κ) : Prop := p = ⟨.idle, []⟩

theorem Out.not_builds {p : InstancePlace κ} (h : p.Out) (c : κ) : ¬ p.Builds c := by
  rw [h]
  simp [Builds]

end InstancePlace

namespace SingletonSys

variable {τ κ : Type*} {lifetime : κ → Lifetime}

/-- Constructors refer to classes of lower rank, and nothing fails. -/
def Orderly (rank : κ → ℕ) (s : SingletonSys τ κ) : InstanceLabel τ κ → Prop
  | .call t c => ∀ d ∈ (s.place t).constructing.head?, rank c < rank d
  | .throw _ | .register _ none => False
  | .next _ | .construct _ | .register _ (some _) => True

theorem orderly_of_goesOn {rank : κ → ℕ} {s : SingletonSys τ κ} {a : InstanceLabel τ κ}
    (h : a.GoesOn) : s.Orderly rank a := by
  cases a with
  | call t c => exact h.elim
  | next t | construct t => trivial
  | throw t => exact h
  | register t newTask => cases newTask <;> exact h

/-- The thread can only go on when somebody else has set `done`. -/
def Needs (s : SingletonSys τ κ) (t : τ) (c : κ) : Prop :=
  (s.place t).Asks c ∧ (s.once c).done = false ∧ s.Taken c

variable [DecidableEq τ] [DecidableEq κ] {s s' s'' : SingletonSys τ κ} {a : InstanceLabel τ κ}
  {t : τ} {c : κ} {l : List κ}

/-! ### What a move changes -/

namespace Moves

/-- The other threads stay where they are. -/
theorem place_of_ne (h : s.Moves lifetime a s') {u : τ} (hu : u ≠ a.thread) :
    s'.place u = s.place u := by
  cases h <;> first | rfl | exact Function.update_of_ne hu ..

/-- `done` stays set. -/
theorem done_mono (h : s.Moves lifetime a s') (hdone : (s.once c).done = true) :
    (s'.once c).done = true := by
  cases h with
  | call | check | spin | pass | ret | construct | throw | register | giveUp => exact hdone
  | win | lose => exact (done_increased ..).trans hdone
  | @store t d l =>
    show ((s.write d _).once c).done = true
    rcases eq_or_ne c d with rfl | hcd
    · rw [once_write_self]
    · rwa [once_write_of_ne hcd]

/-- Only a thread that is at the store sets `done`. -/
theorem done_cases (h : s.Moves lifetime a s') (hdone : (s'.once c).done = true) :
    (s.once c).done = true ∨ (s.place a.thread).pc = .atStore c := by
  cases h with
  | call | check | spin | pass | ret | construct | throw | register | giveUp => exact .inl hdone
  | win | lose => exact .inl ((done_increased ..).symm.trans hdone)
  | @store t d l ht =>
    replace hdone : ((s.write d _).once c).done = true := hdone
    rcases eq_or_ne c d with rfl | hcd
    · exact .inr (congrArg InstancePlace.pc ht)
    · rw [once_write_of_ne hcd] at hdone
      exact .inl hdone

/-- A thread begins to build a class only as the first to refer to it. -/
theorem builds_cases (h : s.Moves lifetime a s') (hbuilds : (s'.place a.thread).Builds c) :
    (s.place a.thread).Builds c ∨ ¬ s.Taken c := by
  cases h with
  | spin => exact .inl hbuilds
  | @win t d l ht hfirst =>
    rw [InstanceLabel.thread, place_goto_self] at hbuilds
    rw [InstanceLabel.thread, ht]
    rcases hbuilds with hpc | hpc | hmem
    · cases hpc
    · cases hpc
    · rcases List.mem_cons.1 hmem with rfl | hmem
      · exact .inr hfirst
      · exact .inl (.inr (.inr hmem))
  | @pass t d l ht =>
    rw [InstanceLabel.thread, place_goto_self] at hbuilds
    refine .inl ?_
    rw [InstanceLabel.thread]
    rcases ht with ht | ht <;> rw [ht] <;> simpa [InstancePlace.Builds] using hbuilds
  | @call t l d ht | @check t d l ht | @lose t d l ht | @store t d l ht | @ret t d l ht
  | @construct t d l ht | @throw t d l ht | @register t d l ptask tasks ht | @giveUp t d l ht =>
    rw [InstanceLabel.thread, place_goto_self] at hbuilds
    rw [InstanceLabel.thread, ht]
    refine .inl ?_
    simp only [InstancePlace.Builds, List.mem_cons, reduceCtorEq, InstancePc.atRegister.injEq,
      InstancePc.atStore.injEq, false_or] at hbuilds ⊢
    tauto

/-- Nobody comes past a class that is under construction. -/
theorem asks (h : s.Moves lifetime a s') (hasks : (s.place a.thread).Asks c)
    (hdone : (s.once c).done = false) (htaken : s.Taken c) : (s'.place a.thread).Asks c := by
  cases h with
  | spin => exact hasks
  | @check t d l ht | @lose t d l ht =>
    rw [InstanceLabel.thread, ht] at hasks
    rw [InstanceLabel.thread, place_goto_self]
    simpa [InstancePlace.Asks] using hasks
  | @win t d l ht hfirst =>
    rw [InstanceLabel.thread, ht] at hasks
    simp only [InstancePlace.Asks, reduceCtorEq, InstancePc.atIncrease.injEq, false_or,
      or_false] at hasks
    exact absurd (hasks ▸ htaken) hfirst
  | @pass t d l ht hdone' =>
    rw [InstanceLabel.thread] at hasks
    rcases ht with ht | ht <;> rw [ht] at hasks <;>
      simp only [InstancePlace.Asks, reduceCtorEq, InstancePc.atCheck.injEq,
        InstancePc.atWait.injEq, false_or, or_false] at hasks <;>
      rw [hasks, hdone] at hdone' <;> cases hdone'
  | @call t l d ht | @store t d l ht | @ret t d l ht | @construct t d l ht | @throw t d l ht
  | @register t d l ptask tasks ht | @giveUp t d l ht =>
    rw [InstanceLabel.thread, ht] at hasks
    simp [InstancePlace.Asks] at hasks

/-- A class is referred to by a thread that then builds it. -/
theorem taken_cases (h : s.Moves lifetime a s') (htaken : s'.Taken c) :
    s.Taken c ∨ (s'.place a.thread).Builds c := by
  cases h with
  | call | check | spin | pass | ret | construct | throw | register | giveUp => exact .inl htaken
  | @lose t d l ht hd =>
    rcases eq_or_ne c d with rfl | hcd
    · exact .inl hd
    · replace htaken : (s.increased d).Taken c := htaken
      rw [Taken, increased, once_write_of_ne hcd] at htaken
      exact .inl htaken
  | @win t d l ht hfirst =>
    rcases eq_or_ne c d with rfl | hcd
    · rw [InstanceLabel.thread, place_goto_self]
      exact .inr (.inr (.inr List.mem_cons_self))
    · replace htaken : (s.increased d).Taken c := htaken
      rw [Taken, increased, once_write_of_ne hcd] at htaken
      exact .inl htaken
  | @store t d l ht =>
    replace htaken : (s.write d ⟨(s.once d).started, true⟩).Taken c := htaken
    rw [Taken] at htaken
    rcases eq_or_ne c d with rfl | hcd
    · rw [once_write_self] at htaken
      exact .inl htaken
    · rw [once_write_of_ne hcd] at htaken
      exact .inl htaken

/-- What a thread builds it builds until it is done, if nothing fails. -/
theorem builds_stays (h : s.Moves lifetime a s') {rank : κ → ℕ} (ha : s.Orderly rank a)
    (hbuilds : (s.place a.thread).Builds c) :
    (s'.place a.thread).Builds c ∨ (s'.once c).done = true := by
  cases h with
  | spin => exact .inl hbuilds
  | throw | giveUp => exact ha.elim
  | @store t d l ht =>
    rw [InstanceLabel.thread, ht] at hbuilds
    rw [InstanceLabel.thread, place_goto_self]
    rcases hbuilds with hpc | hpc | hmem
    · cases hpc
    · cases hpc
      exact .inr (congrArg ThreadOnce.done (once_write_self ..))
    · exact .inl (.inr (.inr hmem))
  | @pass t d l ht =>
    rw [InstanceLabel.thread] at hbuilds
    rw [InstanceLabel.thread, place_goto_self]
    refine .inl ?_
    rcases ht with ht | ht <;> rw [ht] at hbuilds <;> simpa [InstancePlace.Builds] using hbuilds
  | @call t l d ht | @check t d l ht | @win t d l ht | @lose t d l ht | @ret t d l ht
  | @construct t d l ht | @register t d l ptask tasks ht =>
    rw [InstanceLabel.thread, ht] at hbuilds
    rw [InstanceLabel.thread, place_goto_self]
    refine .inl ?_
    simp only [InstancePlace.Builds, List.mem_cons, reduceCtorEq, InstancePc.atRegister.injEq,
      InstancePc.atStore.injEq, false_or] at hbuilds ⊢
    tauto

/-- An orderly thread is in calls of ascending rank, the innermost first. -/
theorem calls_sorted (h : s.Moves lifetime a s') {rank : κ → ℕ} (ha : s.Orderly rank a)
    (hsorted : (s.place a.thread).calls.Pairwise (rank · < rank ·)) :
    (s'.place a.thread).calls.Pairwise (rank · < rank ·) := by
  cases h with
  | spin => exact hsorted
  | throw | giveUp => exact ha.elim
  | @call t l d ht =>
    replace ha : ∀ e ∈ (s.place t).constructing.head?, rank d < rank e := ha
    rw [InstanceLabel.thread, ht] at hsorted
    rw [ht] at ha
    rw [InstanceLabel.thread, place_goto_self]
    refine List.pairwise_cons.2 ⟨fun e he ↦ ?_, hsorted⟩
    cases l with
    | nil => cases he
    | cons f l =>
      rcases List.mem_cons.1 he with rfl | he
      · exact ha e rfl
      · exact (ha f rfl).trans (List.rel_of_pairwise_cons hsorted he)
  | @ret t d l ht =>
    rw [InstanceLabel.thread, ht] at hsorted
    rw [InstanceLabel.thread, place_goto_self]
    exact List.Pairwise.of_cons hsorted
  | @pass t d l ht =>
    rw [InstanceLabel.thread] at hsorted
    rw [InstanceLabel.thread, place_goto_self]
    rcases ht with ht | ht <;> rw [ht] at hsorted <;> exact hsorted
  | @check t d l ht | @win t d l ht | @lose t d l ht | @store t d l ht | @construct t d l ht
  | @register t d l ptask tasks ht =>
    rw [InstanceLabel.thread, ht] at hsorted
    rw [InstanceLabel.thread, place_goto_self]
    exact hsorted

end Moves

/-! ### A thread on its own -/

/-- Some steps of `t`, none of which fails, lead from `s` to `s'`. -/
structure Alone (lifetime : κ → Lifetime) (t : τ) (s s' : SingletonSys τ κ) : Prop where
  run : ∃ ls, run (step lifetime) s ls = some s' ∧ ∀ a ∈ ls, a.GoesOn
  others : ∀ u ≠ t, s'.place u = s.place u
  done : ∀ c, (s.once c).done = true → (s'.once c).done = true

theorem Alone.refl (s : SingletonSys τ κ) : Alone lifetime t s s :=
  ⟨⟨[], rfl, nofun⟩, fun _ _ ↦ rfl, fun _ ↦ id⟩

theorem Alone.trans (h : Alone lifetime t s s') (h' : Alone lifetime t s' s'') :
    Alone lifetime t s s'' := by
  obtain ⟨ls, hrun, hgoes⟩ := h.run
  obtain ⟨ls', hrun', hgoes'⟩ := h'.run
  exact ⟨⟨ls ++ ls', run_append_eq_some.2 ⟨s', hrun, hrun'⟩,
    fun a ha ↦ (List.mem_append.1 ha).elim (hgoes a) (hgoes' a)⟩,
    fun u hu ↦ (h'.others u hu).trans (h.others u hu), fun c hc ↦ h'.done c (h.done c hc)⟩

theorem Alone.step (h : s.step lifetime a = some s') (hgoes : a.GoesOn) :
    Alone lifetime a.thread s s' :=
  ⟨⟨[a], by rw [run_cons, h]; rfl, List.forall_mem_singleton.2 hgoes⟩,
    fun _ hu ↦ (moves_of_step h).place_of_ne hu, fun _ hc ↦ (moves_of_step h).done_mono hc⟩

theorem alone_next (h : s.next t = some s') : Alone lifetime t s s' :=
  Alone.step (a := .next t) h trivial

section Calls

variable (lifetime)

/-- A call that has its reference returns. -/
theorem exists_alone_of_done (ht : s.place t = ⟨.done c, l⟩) :
    ∃ s', Alone lifetime t s s' ∧ s'.place t = ⟨.idle, l⟩ ∧ s'.once = s.once := by
  have hret : Alone lifetime t s (s.goto t ⟨.idle, l⟩) := alone_next (by simp [next, ht])
  exact ⟨_, hret, place_goto_self .., rfl⟩

/-- A call that sees `done` returns. -/
theorem exists_alone_of_seen (ht : s.place t = ⟨.atCheck c, l⟩ ∨ s.place t = ⟨.atWait c, l⟩)
    (hdone : (s.once c).done = true) :
    ∃ s', Alone lifetime t s s' ∧ s'.place t = ⟨.idle, l⟩ := by
  have hseen : Alone lifetime t s (s.goto t ⟨.done c, l⟩) :=
    alone_next (by rcases ht with ht | ht <;> simp [next, ht, hdone])
  obtain ⟨s', halone, hplace, -⟩ := exists_alone_of_done lifetime
    (place_goto_self s t ⟨.done c, l⟩)
  exact ⟨s', hseen.trans halone, hplace⟩

/-- An increment of `started` after which the thread has no one to wait for. -/
theorem exists_alone_of_atIncrease (ht : s.place t = ⟨.atIncrease c, l⟩)
    (hc : (s.once c).done = true ∨ ¬ s.Taken c) :
    ∃ s' l', Alone lifetime t s s' ∧ s'.place t = ⟨.idle, l'⟩ ∧ l ⊆ l' := by
  by_cases htaken : s.Taken c
  · have hne : (s.once c).started + 1 ≠ 0 := by
      rw [Taken] at htaken
      grind
    have hlose : Alone lifetime t s ((s.increased c).goto t ⟨.atWait c, l⟩) :=
      alone_next (by
        simp [next, ht, atomicIncrease, AtomicOp.apply, AtomicOp.addend, increased, hne])
    have hdone : ((s.increased c).once c).done = true :=
      (done_increased s c c).trans (hc.resolve_right (not_not.2 htaken))
    obtain ⟨s', halone, hplace⟩ := exists_alone_of_seen lifetime
      (s := (s.increased c).goto t ⟨.atWait c, l⟩) (.inr (place_goto_self ..)) hdone
    exact ⟨s', l, hlose.trans halone, hplace, List.Subset.refl l⟩
  · have hwin : Alone lifetime t s ((s.increased c).goto t ⟨.idle, c :: l⟩) :=
      alone_next (by
        simp [next, ht, atomicIncrease, AtomicOp.apply, AtomicOp.addend, increased,
          not_not.1 htaken])
    exact ⟨_, c :: l, hwin, place_goto_self .., List.subset_cons_self c l⟩

/-- A reference that needs nothing. -/
theorem exists_alone_of_atCheck (ht : s.place t = ⟨.atCheck c, l⟩)
    (hc : (s.once c).done = true ∨ ¬ s.Taken c) :
    ∃ s' l', Alone lifetime t s s' ∧ s'.place t = ⟨.idle, l'⟩ ∧ l ⊆ l' := by
  by_cases hdone : (s.once c).done = true
  · obtain ⟨s', halone, hplace⟩ := exists_alone_of_seen lifetime (.inl ht) hdone
    exact ⟨s', l, halone, hplace, List.Subset.refl l⟩
  · have hcheck : Alone lifetime t s (s.goto t ⟨.atIncrease c, l⟩) :=
      alone_next (by simp [next, ht, hdone])
    obtain ⟨s', l', halone, hplace, hsub⟩ := exists_alone_of_atIncrease lifetime
      (place_goto_self s t ⟨.atIncrease c, l⟩) (.inr (hc.resolve_left hdone))
    exact ⟨s', l', hcheck.trans halone, hplace, hsub⟩

/-- A class that is complete is done. -/
theorem exists_alone_of_atStore (ht : s.place t = ⟨.atStore c, l⟩) :
    ∃ s', Alone lifetime t s s' ∧ s'.place t = ⟨.idle, l⟩ ∧ (s'.once c).done = true := by
  have hstore : Alone lifetime t s ((s.write c ⟨(s.once c).started, true⟩).goto t ⟨.done c, l⟩) :=
    alone_next (by simp [next, ht])
  obtain ⟨s', halone, hplace, honce⟩ := exists_alone_of_done lifetime
    (place_goto_self (s.write c ⟨(s.once c).started, true⟩) t ⟨.done c, l⟩)
  refine ⟨s', hstore.trans halone, hplace, ?_⟩
  rw [honce]
  show ((s.write c _).once c).done = true
  rw [once_write_self]

end Calls

variable [Fintype τ] {isDl : Bool}

omit [DecidableEq τ] [DecidableEq κ] in
/-- There is always an address for one more task. -/
theorem Inv.exists_fresh (h : s.Inv lifetime isDl) (c : κ) : ∃ ptask tasks,
    s.tasks.atexitImpl (Singletons.finiCall lifetime c (some ptask)) = some tasks := by
  obtain ⟨calls, hrun, -⟩ := h.registered
  obtain ⟨ptask, hptask⟩ := Infinite.exists_notMem_finset (0 :: addresses calls).toFinset
  rw [List.mem_toFinset, List.mem_cons, not_or] at hptask
  have hnew : (Singletons.finiCall lifetime c (some ptask)).newTask = some ptask := rfl
  exact ⟨ptask, AtexitStack.exists_atexitImpl hrun hnew hptask.1
    (AtexitStack.heap_of_run hrun hptask.2)⟩

/-- A class whose constructor has returned can be registered. -/
theorem Inv.exists_alone_of_atRegister (h : s.Inv lifetime isDl)
    (ht : s.place t = ⟨.atRegister c, l⟩) :
    ∃ s', Alone lifetime t s s' ∧ s'.place t = ⟨.idle, l⟩ ∧ (s'.once c).done = true := by
  obtain ⟨ptask, tasks, htasks⟩ := h.exists_fresh c
  have hregister : Alone lifetime t s ((s.record c tasks).goto t ⟨.atStore c, l⟩) :=
    Alone.step (a := .register t (some ptask)) (by simp [SingletonSys.step, ht, htasks]) trivial
  obtain ⟨s', halone, hplace, hdone⟩ := exists_alone_of_atStore lifetime
    (place_goto_self (s.record c tasks) t ⟨.atStore c, l⟩)
  exact ⟨s', hregister.trans halone, hplace, hdone⟩

/-- What holds before a thread has gone on holds afterwards. -/
theorem Alone.inv (hτ : Fintype.card τ < 2 ^ 31) (h : Alone lifetime t s s')
    (hs : s.Inv lifetime isDl) : s'.Inv lifetime isDl := by
  obtain ⟨ls, hrun, -⟩ := h.run
  exact run_invariant (fun _ _ _ hs hstep ↦ Inv.step hτ hs hstep) hs hrun

/-- **Constructors can return**, the innermost first. -/
theorem Inv.exists_alone_out (hτ : Fintype.card τ < 2 ^ 31) (h : s.Inv lifetime isDl)
    (ht : s.place t = ⟨.idle, l⟩) :
    ∃ s', Alone lifetime t s s' ∧ (s'.place t).Out ∧ ∀ c ∈ l, (s'.once c).done = true := by
  induction l generalizing s with
  | nil => exact ⟨s, .refl s, ht, nofun⟩
  | cons c l ih =>
    have hconstruct : Alone lifetime t s (s.goto t ⟨.atRegister c, l⟩) :=
      Alone.step (a := .construct t) (by simp [SingletonSys.step, ht]) trivial
    obtain ⟨s₁, halone, hplace, hdone⟩ :=
      (hconstruct.inv hτ h).exists_alone_of_atRegister (place_goto_self s t ⟨.atRegister c, l⟩)
    have halone' := hconstruct.trans halone
    obtain ⟨s₂, hrest, hout, hall⟩ := ih (halone'.inv hτ h) hplace
    exact ⟨s₂, halone'.trans hrest, hout, List.forall_mem_cons.2 ⟨hrest.done c hdone, hall⟩⟩

/-- **A call can return**, or begin to construct a class, if it needs nothing. -/
theorem Inv.exists_alone_idle (h : s.Inv lifetime isDl)
    (hneeds : ∀ c, ¬ s.Needs t c) : ∃ s' l, Alone lifetime t s s' ∧ s'.place t = ⟨.idle, l⟩ ∧
      ∀ c, (s.place t).Builds c → c ∈ l ∨ (s'.once c).done = true := by
  rcases ht : s.place t with ⟨pc, l⟩
  have hseen : ∀ c, (s.place t).Asks c → (s.once c).done = true ∨ ¬ s.Taken c := by
    intro c hasks
    by_contra hnot
    obtain ⟨hdone, htaken⟩ := not_or.1 hnot
    exact hneeds c ⟨hasks, Bool.eq_false_of_not_eq_true hdone, not_not.1 htaken⟩
  have hbuilds : ∀ {pc : InstancePc κ} {c : κ}, (∀ c, pc ≠ .atRegister c ∧ pc ≠ .atStore c) →
      (⟨pc, l⟩ : InstancePlace κ).Builds c → c ∈ l :=
    fun hpc hc ↦ (hc.resolve_left (hpc _).1).resolve_left (hpc _).2
  cases pc with
  | idle => exact ⟨s, l, .refl s, ht, fun c hc ↦ .inl (hbuilds (by simp) hc)⟩
  | done d =>
    obtain ⟨s', halone, hplace, -⟩ := exists_alone_of_done lifetime ht
    exact ⟨s', l, halone, hplace, fun c hc ↦ .inl (hbuilds (by simp) hc)⟩
  | atStore d =>
    obtain ⟨s', halone, hplace, hdone⟩ := exists_alone_of_atStore lifetime ht
    refine ⟨s', l, halone, hplace, fun c hc ↦ ?_⟩
    simp only [InstancePlace.Builds, reduceCtorEq, InstancePc.atStore.injEq, false_or] at hc
    rcases hc with rfl | hc
    · exact .inr hdone
    · exact .inl hc
  | atRegister d =>
    obtain ⟨s', halone, hplace, hdone⟩ := h.exists_alone_of_atRegister ht
    refine ⟨s', l, halone, hplace, fun c hc ↦ ?_⟩
    simp only [InstancePlace.Builds, reduceCtorEq, InstancePc.atRegister.injEq, false_or] at hc
    rcases hc with rfl | hc
    · exact .inr hdone
    · exact .inl hc
  | atWait d =>
    have hdone : (s.once d).done = true :=
      (hseen d (by rw [ht]; exact .inr (.inr rfl))).resolve_right
        (not_not.2 (h.waiting t d (by rw [ht])))
    obtain ⟨s', halone, hplace⟩ := exists_alone_of_seen lifetime (.inr ht) hdone
    exact ⟨s', l, halone, hplace, fun c hc ↦ .inl (hbuilds (by simp) hc)⟩
  | atIncrease d =>
    obtain ⟨s', l', halone, hplace, hsub⟩ := exists_alone_of_atIncrease lifetime ht
      (hseen d (by rw [ht]; exact .inr (.inl rfl)))
    exact ⟨s', l', halone, hplace, fun c hc ↦ .inl (hsub (hbuilds (by simp) hc))⟩
  | atCheck d =>
    obtain ⟨s', l', halone, hplace, hsub⟩ := exists_alone_of_atCheck lifetime ht
      (hseen d (by rw [ht]; exact .inl rfl))
    exact ⟨s', l', halone, hplace, fun c hc ↦ .inl (hsub (hbuilds (by simp) hc))⟩

/-! ### Who gets out -/

/-- On the way from `s` to `s'`, threads have got out and left what they were to build. -/
abbrev GetOn (s s' : SingletonSys τ κ) : Prop :=
  Onward place InstancePlace.Out InstancePlace.Builds (fun s c ↦ (s.once c).done = true) s s'

/-- **A thread that needs nothing** gets out on its own. -/
theorem Inv.exists_getOn (hτ : Fintype.card τ < 2 ^ 31) (h : s.Inv lifetime isDl)
    (hneeds : ∀ c, ¬ s.Needs t c) : ∃ ls s', run (SingletonSys.step lifetime) s ls = some s' ∧
      (∀ a ∈ ls, a.GoesOn) ∧ (s'.place t).Out ∧ GetOn s s' := by
  obtain ⟨s₁, l, halone, hplace, hbuilds⟩ := h.exists_alone_idle hneeds
  obtain ⟨s₂, halone', hout, hall⟩ := (halone.inv hτ h).exists_alone_out hτ hplace
  obtain ⟨⟨ls, hrun, hgoes⟩, hothers, hdone⟩ := halone.trans halone'
  refine ⟨ls, s₂, hrun, hgoes, hout, hdone, fun u ↦ ?_⟩
  by_cases hut : u = t
  · subst hut
    exact .inr ⟨hout, fun c hc ↦ (hbuilds c hc).elim (hall c) (halone'.done c)⟩
  · exact .inl (hothers u hut)

omit [DecidableEq τ] [DecidableEq κ] [Fintype τ] in
/-- A thread that needed a class needs nothing when the class is done. -/
theorem not_needs_of_done (h : s.Needs t c) (hplace : s'.place t = s.place t)
    (hdone : (s'.once c).done = true) (d : κ) : ¬ s'.Needs t d := by
  rintro ⟨hasks, hnot, -⟩
  rw [hplace] at hasks
  obtain rfl : c = d := by
    rcases h.1 with hc | hc | hc <;> rcases hasks with hd | hd | hd <;> rw [hc] at hd <;>
      cases hd <;> rfl
  rw [hdone] at hnot
  cases hnot

/-- Each thread of the set needs a class that only threads of the set build. -/
def Stuck (B : Set τ) (s : SingletonSys τ κ) : Prop :=
  ∀ t ∈ B, ∃ c, s.Needs t c ∧ ∀ u, (s.place u).Builds c → u ∈ B

/-- A class that has been referred to stays so. -/
theorem Inv.taken_mono (hτ : Fintype.card τ < 2 ^ 31) (h : s.Inv lifetime isDl)
    (hmove : s.Moves lifetime a s') (hc : s.Taken c) : s'.Taken c := by
  cases hmove with
  | call | check | spin | pass | ret | construct | throw | register | giveUp => exact hc
  | win ht => exact h.taken_increased hτ (congrArg InstancePlace.pc ht) (.inl hc)
  | lose ht => exact h.taken_increased hτ (congrArg InstancePlace.pc ht) (.inl hc)
  | @store t d l ht =>
    show ((s.write d _).once c).started ≠ -1
    rcases eq_or_ne c d with rfl | hcd
    · rwa [once_write_self]
    · rwa [once_write_of_ne hcd]

/-- **Deadlocks last**, whatever the other threads do. -/
theorem Stuck.move (hτ : Fintype.card τ < 2 ^ 31) (hs : s.Inv lifetime isDl) {B : Set τ}
    (h : s.Stuck B) (hmove : s.Moves lifetime a s') : s'.Stuck B := by
  intro t ht
  obtain ⟨c, ⟨hasks, hdone, htaken⟩, hbuilds⟩ := h t ht
  refine ⟨c, ⟨?_, ?_, hs.taken_mono hτ hmove htaken⟩, fun u hu ↦ ?_⟩
  · by_cases hthread : t = a.thread
    · subst hthread
      exact hmove.asks hasks hdone htaken
    · rwa [hmove.place_of_ne hthread]
  · -- who is about to set `done` is itself in the set
    refine Bool.eq_false_of_not_eq_true fun hset ↦ ?_
    rcases hmove.done_cases hset with hset | hstore
    · rw [hdone] at hset
      cases hset
    · obtain ⟨d, ⟨hasks', -⟩, -⟩ := h a.thread (hbuilds _ (.inr (.inl hstore)))
      rw [InstancePlace.Asks, hstore] at hasks'
      simp at hasks'
  · by_cases hthread : u = a.thread
    · subst hthread
      rcases hmove.builds_cases hu with hu | hfirst
      · exact hbuilds _ hu
      · exact absurd htaken hfirst
    · exact hbuilds u (hmove.place_of_ne hthread ▸ hu)

/-- Whoever comes out gets out by steps that do not fail, which leave what they preserve. -/
theorem exists_getOn_of_comesOut (hτ : Fintype.card τ < 2 ^ 31) {P : SingletonSys τ κ → Prop}
    (hinv : ∀ s, P s → s.Inv lifetime isDl)
    (hP : ∀ s a s', P s → a.GoesOn → s.step lifetime a = some s' → P s') (hs : P s)
    (h : ComesOut s.Needs (fun u ↦ (s.place u).Builds) t) :
    ∃ ls s', run (step lifetime) s ls = some s' ∧ P s' ∧ (s'.place t).Out ∧ GetOn s s' := by
  refine exists_run_of_comesOut (fun p c (hp : p.Out) ↦ hp.not_builds c)
    (fun s s' t c ↦ not_needs_of_done) (fun s t hs hneeds ↦ ?_) hs h
  obtain ⟨ls, s', hrun, hgoes, hout, hon⟩ := (hinv s hs).exists_getOn hτ hneeds
  exact ⟨ls, s', hrun, run_invariant_of_everyStep hP hs (everyStep_of_forall_mem hgoes) hrun, hout,
    hon⟩

/-- Whatever has been referred to is done or being built, and all threads are orderly. -/
structure Ranked (rank : κ → ℕ) (lifetime : κ → Lifetime) (isDl : Bool) (s : SingletonSys τ κ) :
    Prop where
  inv : s.Inv lifetime isDl
  built : ∀ c, s.Taken c → (s.once c).done = true ∨ ∃ t, (s.place t).Builds c
  sorted : ∀ t, (s.place t).calls.Pairwise (rank · < rank ·)

variable {rank : κ → ℕ}

omit [DecidableEq τ] [DecidableEq κ] in
theorem ranked_start (rank : κ → ℕ) (lifetime : κ → Lifetime) (isDl : Bool) :
    (start τ κ isDl).Ranked rank lifetime isDl :=
  ⟨inv_start lifetime isDl, fun _ h ↦ absurd rfl h, fun _ ↦ List.Pairwise.nil⟩

theorem Ranked.step (hτ : Fintype.card τ < 2 ^ 31) (h : s.Ranked rank lifetime isDl)
    (ha : s.Orderly rank a) (hstep : s.step lifetime a = some s') :
    s'.Ranked rank lifetime isDl := by
  have hmove := moves_of_step hstep
  refine ⟨h.inv.step hτ hstep, fun c hc ↦ ?_, fun t ↦ ?_⟩
  · rcases hmove.taken_cases hc with hc | hbuilds
    · rcases h.built c hc with hdone | ⟨t, hbuilds⟩
      · exact .inl (hmove.done_mono hdone)
      · by_cases ht : t = a.thread
        · subst ht
          exact (hmove.builds_stays ha hbuilds).symm.imp_right fun hbuilds ↦ ⟨_, hbuilds⟩
        · exact .inr ⟨t, by rwa [hmove.place_of_ne ht]⟩
    · exact .inr ⟨_, hbuilds⟩
  · by_cases ht : t = a.thread
    · subst ht
      exact hmove.calls_sorted ha (h.sorted _)
    · rw [hmove.place_of_ne ht]
      exact h.sorted t

omit [DecidableEq τ] [DecidableEq κ] in
/-- The classes a thread waits for are lower than those it builds. -/
theorem Ranked.rank_lt (h : s.Ranked rank lifetime isDl) {d : κ} (hneeds : s.Needs t c)
    (hbuilds : (s.place t).Builds d) : rank c < rank d := by
  have hsorted := h.sorted t
  have hasks := hneeds.1
  rcases hplace : s.place t with ⟨pc, l⟩
  rw [hplace] at hsorted hasks hbuilds
  rcases hasks with hpc | hpc | hpc <;> cases hpc <;>
    exact List.rel_of_pairwise_cons hsorted ((hbuilds.resolve_left nofun).resolve_left nofun)

omit [DecidableEq τ] [DecidableEq κ] in
theorem Ranked.comesOut (h : s.Ranked rank lifetime isDl) (t : τ) :
    ComesOut s.Needs (fun u ↦ (s.place u).Builds) t := by
  have hbuilt : ∀ t c, s.Needs t c → ∃ u, (s.place u).Builds c := by
    intro t c ⟨_, hnot, htaken⟩
    refine (h.built c htaken).resolve_left fun hdone ↦ ?_
    rw [hnot] at hdone
    cases hdone
  have hrank : ∀ t c d, s.Needs t c → (s.place t).Builds d → rank c < rank d :=
    fun _ _ _ ↦ h.rank_lt
  exact comesOut_of_rank rank hbuilt hrank t

/-- **No deadlock.** If constructors refer to classes of lower rank only, and neither they nor the
registrations fail, then all threads can get out from wherever they are, and what has been referred
to is complete then. -/
theorem no_deadlock (hτ : Fintype.card τ < 2 ^ 31) (lifetime : κ → Lifetime) (isDl : Bool)
    (rank : κ → ℕ) (ls : List (InstanceLabel τ κ)) (s : SingletonSys τ κ)
    (hrun : run (step lifetime) (start τ κ isDl) ls = some s)
    (horderly : EveryStep (step lifetime) (Orderly rank) (start τ κ isDl) ls) :
    ∃ ls' s', run (step lifetime) s ls' = some s' ∧ (∀ t, (s'.place t).Out) ∧
      ∀ c, s'.Taken c → (s'.once c).done = true ∧ c ∈ s'.constructed := by
  have hstep : ∀ (s : SingletonSys τ κ) (a : InstanceLabel τ κ) (s' : SingletonSys τ κ),
      s.Ranked rank lifetime isDl → s.Orderly rank a → s.step lifetime a = some s' →
      s'.Ranked rank lifetime isDl :=
    fun _ _ _ h ha ↦ h.step hτ ha
  have hs : s.Ranked rank lifetime isDl :=
    run_invariant_of_everyStep hstep (ranked_start rank lifetime isDl) horderly hrun
  obtain ⟨ls', s', hrun', hs', hout⟩ := exists_run_forall_out (fun s t hs ↦
    exists_getOn_of_comesOut hτ (fun _ h ↦ h.inv)
      (fun s a s' h ha ↦ hstep s a s' h (orderly_of_goesOn ha)) hs (hs.comesOut t)) hs
    Finset.univ.toList
  have hall : ∀ t, (s'.place t).Out := fun t ↦ hout t (Finset.mem_toList.2 (Finset.mem_univ t))
  refine ⟨ls', s', hrun', hall, fun c hc ↦ ?_⟩
  have hdone : (s'.once c).done = true :=
    (hs'.built c hc).resolve_right fun ⟨t, hbuilds⟩ ↦ (hall t).not_builds c hbuilds
  exact ⟨hdone, hs'.inv.done c hdone⟩

/-- A constructor refers to a class. -/
theorem no_deadlock_two : ∃ s : SingletonSys Bool Bool,
    run (step fun _ ↦ lifetimeDefault) (start Bool Bool false)
      [.call false true, .next false, .next false, .call false false] = some s ∧
    ∃ ls' s', run (step fun _ ↦ lifetimeDefault) s ls' = some s' ∧ (∀ t, (s'.place t).Out) ∧
      ∀ c, s'.Taken c → (s'.once c).done = true ∧ c ∈ s'.constructed := by
  have horderly : EveryStep (step fun _ ↦ lifetimeDefault) (Orderly Bool.toNat)
      (start Bool Bool false)
      [.call false true, .next false, .next false, .call false false] := by
    refine .cons rfl nofun <| .cons rfl trivial <| .cons rfl trivial <| .cons rfl ?_ everyStep_nil
    rintro d ⟨⟩
    exact Nat.zero_lt_one
  exact ⟨_, rfl, no_deadlock (by decide) (fun _ ↦ lifetimeDefault) false Bool.toNat _ _ rfl
    horderly⟩

end SingletonSys

end Libk2
