import Mathlib.Data.Fintype.Card
import Libk2.Foundation.Ownership
import Libk2.Runtime.Singleton

/-!
# `singleton` among threads

`singleton::instance` for any number of classes, called by any number of threads. Each read and
write of a `thread_once` and each `atomic_increase` is one step, as in `OnceSys`, and so is a call
of `runtime::atexit`, which takes effect at one moment (`AtexitLocked.atexitRefinement`). A
constructor may call `instance` of other classes, so a thread has, besides its place in the
innermost call, the classes whose constructors it is running.

A class is complete, or being constructed by one thread, or neither (`Apart`), and `started` counts
the threads that came too late to construct it (`Counted`), which there are too few of for it to
wrap around. So the references that `instance` returns are to complete instances, and at exit these
are destroyed as those of a single thread would be (`shared_singletons`).
-/

namespace Libk2

open StepSystem Ownership

/-- Where a thread is in `instance`, and in the `run_impl` that it calls. -/
inductive InstancePc (κ : Type*) where
  /-- In no call, or in a constructor. -/
  | idle
  | atCheck (c : κ)
  | atIncrease (c : κ)
  /-- In the loop that waits for `done`. -/
  | atWait (c : κ)
  /-- The constructor has returned. -/
  | atRegister (c : κ)
  | atStore (c : κ)
  | done (c : κ)
deriving DecidableEq

/-- Where a thread is, and the classes whose constructors it is running, the innermost first. -/
structure InstancePlace (κ : Type*) where
  pc : InstancePc κ
  constructing : List κ
deriving DecidableEq

namespace InstancePlace

variable {κ : Type*}

/-- The classes that a thread has begun to construct, and has not yet registered. -/
def owned (p : InstancePlace κ) : List κ :=
  match p.pc with
  | .atRegister c => c :: p.constructing
  | _ => p.constructing

end InstancePlace

/-- The exit tasks, the `thread_once` of every class, the threads, and, for the record, the classes
that are complete, in the order of their registration. -/
structure SingletonSys (τ κ : Type*) where
  tasks : AtexitStack Unit κ
  once : κ → ThreadOnce
  place : τ → InstancePlace κ
  constructed : List κ

/-- A thread calls `instance` or goes on in it; the innermost constructor returns or throws;
`runtime::atexit` is called, and `newTask` is what `new atexit_task` returns there, if it does. -/
inductive InstanceLabel (τ κ : Type*) where
  | call (t : τ) (c : κ)
  | next (t : τ)
  | construct (t : τ)
  | throw (t : τ)
  | register (t : τ) (newTask : Option ℕ)
deriving DecidableEq

namespace SingletonSys

variable {τ κ : Type*} (lifetime : κ → Lifetime)

/-- No class has been referred to. -/
def start (τ κ : Type*) (isDl : Bool) : SingletonSys τ κ :=
  ⟨AtexitStack.empty isDl, fun _ ↦ .init, fun _ ↦ ⟨.idle, []⟩, []⟩

section Steps

variable [DecidableEq τ] [DecidableEq κ] (s : SingletonSys τ κ)

/-- Thread `t` goes on to `p`. -/
def goto (t : τ) (p : InstancePlace κ) : SingletonSys τ κ :=
  { s with place := Function.update s.place t p }

/-- The `thread_once` of `c` is written. -/
def write (c : κ) (once : ThreadOnce) : SingletonSys τ κ :=
  { s with once := Function.update s.once c once }

/-- `started` of `c` after one increment. -/
def increased (c : κ) : SingletonSys τ κ :=
  s.write c ⟨(s.once c).started + 1, (s.once c).done⟩

/-- The destruction of `c` is registered. -/
def record (c : κ) (tasks : AtexitStack Unit κ) : SingletonSys τ κ :=
  { s with tasks := tasks, constructed := s.constructed ++ [c] }

/-- One step of a thread in `run_impl`. -/
def next (t : τ) : Option (SingletonSys τ κ) :=
  match s.place t with
  | ⟨.atCheck c, l⟩ =>
    some (s.goto t ⟨if (s.once c).done = false then .atIncrease c else .done c, l⟩)
  | ⟨.atIncrease c, l⟩ =>
    let r := atomicIncrease (s.once c).started
    let s := s.write c ⟨r.2, (s.once c).done⟩
    some (s.goto t (if r.1 = false then ⟨.idle, c :: l⟩ else ⟨.atWait c, l⟩))
  | ⟨.atWait c, l⟩ => some (if (s.once c).done = false then s else s.goto t ⟨.done c, l⟩)
  | ⟨.atStore c, l⟩ => some ((s.write c ⟨(s.once c).started, true⟩).goto t ⟨.done c, l⟩)
  | ⟨.done _, l⟩ => some (s.goto t ⟨.idle, l⟩)
  | ⟨.idle, _⟩ | ⟨.atRegister _, _⟩ => none

/-- One step. An exception leaves `run_impl` with `done` still false, and if `runtime::atexit` fails
`instance_init` destroys the instance and rethrows. -/
def step : InstanceLabel τ κ → Option (SingletonSys τ κ)
  | .call t c =>
    match s.place t with
    | ⟨.idle, l⟩ => some (s.goto t ⟨.atCheck c, l⟩)
    | _ => none
  | .next t => s.next t
  | .construct t =>
    match s.place t with
    | ⟨.idle, c :: l⟩ => some (s.goto t ⟨.atRegister c, l⟩)
    | _ => none
  | .throw t =>
    match s.place t with
    | ⟨.idle, _ :: l⟩ => some (s.goto t ⟨.idle, l⟩)
    | _ => none
  | .register t newTask =>
    match s.place t with
    | ⟨.atRegister c, l⟩ =>
      (s.tasks.atexitImpl (Singletons.finiCall lifetime c newTask)).map fun tasks ↦
        if newTask.isSome then (s.record c tasks).goto t ⟨.atStore c, l⟩
        else { s.goto t ⟨.idle, l⟩ with tasks := tasks }
    | _ => none

end Steps

/-- Somebody was the first to refer to the class. -/
def Taken (s : SingletonSys τ κ) (c : κ) : Prop := (s.once c).started ≠ -1

instance (s : SingletonSys τ κ) (c : κ) : Decidable (s.Taken c) :=
  inferInstanceAs (Decidable ((s.once c).started ≠ -1))

section Moves

variable [DecidableEq τ] [DecidableEq κ]

/-- The moves of the threads. -/
inductive Moves (s : SingletonSys τ κ) : InstanceLabel τ κ → SingletonSys τ κ → Prop
  | call {t : τ} {l : List κ} (c : κ) (ht : s.place t = ⟨.idle, l⟩) :
      Moves s (.call t c) (s.goto t ⟨.atCheck c, l⟩)
  | check {t : τ} {c : κ} {l : List κ} (ht : s.place t = ⟨.atCheck c, l⟩)
      (hdone : (s.once c).done = false) : Moves s (.next t) (s.goto t ⟨.atIncrease c, l⟩)
  | win {t : τ} {c : κ} {l : List κ} (ht : s.place t = ⟨.atIncrease c, l⟩) (hfirst : ¬ s.Taken c) :
      Moves s (.next t) ((s.increased c).goto t ⟨.idle, c :: l⟩)
  | lose {t : τ} {c : κ} {l : List κ} (ht : s.place t = ⟨.atIncrease c, l⟩) (htaken : s.Taken c) :
      Moves s (.next t) ((s.increased c).goto t ⟨.atWait c, l⟩)
  | spin {t : τ} {c : κ} {l : List κ} (ht : s.place t = ⟨.atWait c, l⟩)
      (hdone : (s.once c).done = false) : Moves s (.next t) s
  | pass {t : τ} {c : κ} {l : List κ}
      (ht : s.place t = ⟨.atCheck c, l⟩ ∨ s.place t = ⟨.atWait c, l⟩)
      (hdone : (s.once c).done = true) : Moves s (.next t) (s.goto t ⟨.done c, l⟩)
  | store {t : τ} {c : κ} {l : List κ} (ht : s.place t = ⟨.atStore c, l⟩) :
      Moves s (.next t) ((s.write c ⟨(s.once c).started, true⟩).goto t ⟨.done c, l⟩)
  | ret {t : τ} {c : κ} {l : List κ} (ht : s.place t = ⟨.done c, l⟩) :
      Moves s (.next t) (s.goto t ⟨.idle, l⟩)
  | construct {t : τ} {c : κ} {l : List κ} (ht : s.place t = ⟨.idle, c :: l⟩) :
      Moves s (.construct t) (s.goto t ⟨.atRegister c, l⟩)
  | throw {t : τ} {c : κ} {l : List κ} (ht : s.place t = ⟨.idle, c :: l⟩) :
      Moves s (.throw t) (s.goto t ⟨.idle, l⟩)
  | register {t : τ} {c : κ} {l : List κ} {ptask : ℕ} {tasks : AtexitStack Unit κ}
      (ht : s.place t = ⟨.atRegister c, l⟩)
      (htasks : s.tasks.atexitImpl (Singletons.finiCall lifetime c (some ptask)) = some tasks) :
      Moves s (.register t (some ptask)) ((s.record c tasks).goto t ⟨.atStore c, l⟩)
  | giveUp {t : τ} {c : κ} {l : List κ} (ht : s.place t = ⟨.atRegister c, l⟩) :
      Moves s (.register t none) (s.goto t ⟨.idle, l⟩)

variable {lifetime} {s s' : SingletonSys τ κ} {a : InstanceLabel τ κ} {t : τ}

theorem moves_of_next (h : s.next t = some s') : s.Moves lifetime (.next t) s' := by
  rcases ht : s.place t with ⟨pc, l⟩
  cases pc with
  | idle | atRegister c => simp [next, ht] at h
  | done c =>
    simp only [next, ht, Option.some.injEq] at h
    exact h ▸ .ret ht
  | atStore c =>
    simp only [next, ht, Option.some.injEq] at h
    exact h ▸ .store ht
  | atCheck c =>
    simp only [next, ht, Option.some.injEq] at h
    by_cases hdone : (s.once c).done = false
    · rw [if_pos hdone] at h
      exact h ▸ .check ht hdone
    · rw [if_neg hdone] at h
      exact h ▸ .pass (.inl ht) (Bool.eq_true_of_not_eq_false hdone)
  | atWait c =>
    simp only [next, ht, Option.some.injEq] at h
    by_cases hdone : (s.once c).done = false
    · rw [if_pos hdone] at h
      exact h ▸ .spin ht hdone
    · rw [if_neg hdone] at h
      exact h ▸ .pass (.inr ht) (Bool.eq_true_of_not_eq_false hdone)
  | atIncrease c =>
    have hzero : (s.once c).started + 1 = 0 ↔ (s.once c).started = -1 := by grind
    simp only [next, ht, atomicIncrease, AtomicOp.apply, AtomicOp.addend, Option.some.injEq,
      bne_eq_false_iff_eq, hzero] at h
    by_cases hfirst : (s.once c).started = -1
    · rw [if_pos hfirst] at h
      exact h ▸ .win ht (not_not.2 hfirst)
    · rw [if_neg hfirst] at h
      exact h ▸ .lose ht hfirst

/-- Every step is one of the moves. -/
theorem moves_of_step (h : s.step lifetime a = some s') : s.Moves lifetime a s' := by
  cases a with
  | next t => exact moves_of_next h
  | call t c =>
    rcases ht : s.place t with ⟨pc, l⟩
    cases pc <;> simp only [step, ht, reduceCtorEq, Option.some.injEq] at h
    exact h ▸ .call c ht
  | construct t =>
    rcases ht : s.place t with ⟨pc, _ | ⟨c, l⟩⟩ <;> cases pc <;>
      simp only [step, ht, reduceCtorEq, Option.some.injEq] at h
    exact h ▸ .construct ht
  | throw t =>
    rcases ht : s.place t with ⟨pc, _ | ⟨c, l⟩⟩ <;> cases pc <;>
      simp only [step, ht, reduceCtorEq, Option.some.injEq] at h
    exact h ▸ .throw ht
  | register t newTask =>
    rcases ht : s.place t with ⟨pc, l⟩
    cases pc <;> simp only [step, ht, reduceCtorEq] at h
    obtain ⟨tasks, htasks, rfl⟩ := Option.map_eq_some_iff.1 h
    cases newTask with
    | some ptask => exact .register ht htasks
    | none =>
      obtain rfl : s.tasks = tasks := Option.some.inj htasks
      exact .giveUp ht

/-! ### What a move changes -/

omit [DecidableEq κ] in
theorem place_goto_self (s : SingletonSys τ κ) (t : τ) (p : InstancePlace κ) :
    (s.goto t p).place t = p :=
  Function.update_self ..

omit [DecidableEq κ] in
theorem place_goto_of_ne {u : τ} (h : u ≠ t) (s : SingletonSys τ κ) (p : InstancePlace κ) :
    (s.goto t p).place u = s.place u :=
  Function.update_of_ne h ..

omit [DecidableEq τ] in
theorem once_write_of_ne {c d : κ} (h : d ≠ c) (s : SingletonSys τ κ) (once : ThreadOnce) :
    (s.write c once).once d = s.once d :=
  Function.update_of_ne h ..

omit [DecidableEq τ] in
theorem once_write_self (s : SingletonSys τ κ) (c : κ) (once : ThreadOnce) :
    (s.write c once).once c = once :=
  Function.update_self ..

omit [DecidableEq τ] in
/-- An increment of `started` leaves `done` alone. -/
theorem done_increased (s : SingletonSys τ κ) (c d : κ) :
    ((s.increased c).once d).done = (s.once d).done := by
  rcases eq_or_ne d c with rfl | hdc
  · rw [increased, once_write_self]
  · rw [increased, once_write_of_ne hdc]

/-! ### The invariant -/

section Invariant

variable [Fintype τ]

/-- The classes that a thread has begun to construct. -/
def own (s : SingletonSys τ κ) (t : τ) : Multiset κ := ↑(s.place t).owned

/-- The thread was not the first to refer to the class, and will not increment `started` again. -/
def Late (s : SingletonSys τ κ) (c : κ) (t : τ) : Prop :=
  (s.place t).pc ≠ .atIncrease c ∧ ((s.once c).done = true ∨ (s.place t).pc = .atWait c)

/-- `started` counts the threads that were not the first. -/
def Counted (s : SingletonSys τ κ) (c : κ) : Prop :=
  s.Taken c → ∃ late : Finset τ, (s.once c).started.toInt = late.card ∧ ∀ t ∈ late, s.Late c t

/-- No class is complete twice, constructed by two threads, or both; and none before somebody has
referred to it. -/
def Apart (s : SingletonSys τ κ) : Prop :=
  ∃ all : Multiset κ, Divided ↑s.constructed s.own all ∧ all.Nodup ∧ ∀ c ∈ all, s.Taken c

/-- The exit tasks are those of the complete classes, and what a thread may rely on. -/
structure Inv (lifetime : κ → Lifetime) (isDl : Bool) (s : SingletonSys τ κ) : Prop where
  registered : ∃ calls, run AtexitStack.atexitImpl (AtexitStack.empty isDl) calls = some s.tasks ∧
    registrations calls = Singletons.finiTasks lifetime s.constructed
  apart : s.Apart
  done : ∀ c, (s.once c).done = true → c ∈ s.constructed
  complete : ∀ t c, (s.place t).pc = .atStore c ∨ (s.place t).pc = .done c → c ∈ s.constructed
  waiting : ∀ t c, (s.place t).pc = .atWait c → s.Taken c
  counted : ∀ c, s.Counted c

variable {isDl : Bool} {c : κ} {l : List κ} {p : InstancePlace κ}

omit [DecidableEq τ] [DecidableEq κ] in
theorem inv_start (lifetime : κ → Lifetime) (isDl : Bool) :
    (start τ κ isDl).Inv lifetime isDl where
  registered := ⟨[], rfl, rfl⟩
  apart := by
    refine ⟨0, ?_, Multiset.nodup_zero, fun c hc ↦ absurd hc (Multiset.notMem_zero c)⟩
    show (0 : Multiset κ) + ∑ t, (start τ κ isDl).own t = 0
    rw [zero_add]
    exact Finset.sum_eq_zero fun t _ ↦ rfl
  done _ h := by cases h
  complete _ _ h := by rcases h with h | h <;> cases h
  waiting _ _ h := by cases h
  counted _ h := absurd rfl h

omit [DecidableEq κ] [Fintype τ] in
theorem own_goto (s : SingletonSys τ κ) (t : τ) (p : InstancePlace κ) :
    (s.goto t p).own = Function.update s.own t ↑p.owned :=
  Function.comp_update (fun p : InstancePlace κ ↦ (p.owned : Multiset κ)) s.place t p

omit [DecidableEq τ] [DecidableEq κ] [Fintype τ] in
/-- What is so of a thread that has not moved. -/
theorem Late.congr {u : τ} (h : s.Late c u) (hplace : s'.place u = s.place u)
    (hdone : (s.once c).done = true → (s'.once c).done = true) : s'.Late c u := by
  rw [Late, hplace]
  exact ⟨h.1, h.2.imp_left hdone⟩

omit [DecidableEq κ] in
/-- A thread gives up a class, or none. -/
theorem Apart.goto (h : s.Apart) {gone : Multiset κ} (howned : ↑p.owned + gone = s.own t) :
    (s.goto t p).Apart := by
  obtain ⟨all, hdivided, hnodup, htaken⟩ := h
  have hmove : (s.constructed : Multiset κ) + ↑p.owned + gone = ↑s.constructed + s.own t := by
    rw [add_assoc, howned]
  obtain ⟨all', hdivided', hall⟩ := hdivided.surrender hmove
  have hle : all' ≤ all := hall ▸ Multiset.le_add_right ..
  refine ⟨all', ?_, Multiset.nodup_of_le hle hnodup,
    fun c hc ↦ htaken c (Multiset.mem_of_le hle hc)⟩
  rw [own_goto]
  exact hdivided'

omit [DecidableEq κ] in
/-- A thread goes on, and nothing else changes. -/
theorem Inv.goto (h : s.Inv lifetime isDl) {gone : Multiset κ}
    (howned : ↑p.owned + gone = s.own t)
    (hcomplete : ∀ c, p.pc = .atStore c ∨ p.pc = .done c → c ∈ s.constructed)
    (hwaiting : ∀ c, p.pc = .atWait c → s.Taken c)
    (hlate : ∀ c, s.Late c t → (s.goto t p).Late c t) : (s.goto t p).Inv lifetime isDl where
  registered := h.registered
  apart := h.apart.goto howned
  done := h.done
  complete := (Function.forall_update_iff s.place fun _ p ↦ ∀ c,
    p.pc = .atStore c ∨ p.pc = .done c → c ∈ s.constructed).2 ⟨hcomplete, fun u _ ↦ h.complete u⟩
  waiting := (Function.forall_update_iff s.place fun _ p ↦ ∀ c, p.pc = .atWait c → s.Taken c).2
    ⟨hwaiting, fun u _ ↦ h.waiting u⟩
  counted c htaken := by
    obtain ⟨late, hcard, hall⟩ := h.counted c htaken
    refine ⟨late, hcard, fun u hu ↦ ?_⟩
    rcases eq_or_ne u t with rfl | hut
    · exact hlate c (hall u hu)
    · exact (hall u hu).congr (place_goto_of_ne hut s p) id

omit [DecidableEq κ] [Fintype τ] in
/-- A thread that neither comes to an increment nor leaves a wait early. -/
theorem late_goto (hp : ∀ c, p.pc ≠ .atIncrease c)
    (ht : ∀ c, (s.place t).pc = .atWait c → (s.once c).done = true) (c : κ) (h : s.Late c t) :
    (s.goto t p).Late c t := by
  rw [Late, place_goto_self]
  exact ⟨hp c, .inl (h.2.elim id (ht c))⟩

omit [DecidableEq κ] in
/-- The counter, before an increment. -/
theorem Inv.exists_late (hτ : Fintype.card τ < 2 ^ 31) (h : s.Inv lifetime isDl)
    (ht : (s.place t).pc = .atIncrease c) : ∃ late : Finset τ,
      ((s.once c).started + 1).toInt = late.card ∧ (∀ u ∈ late, u ≠ t → s.Late c u) ∧
      (t ∈ late → s.Taken c) := by
  by_cases htaken : s.Taken c
  · obtain ⟨late, hcard, hlate⟩ := h.counted c htaken
    have hnot : t ∉ late := fun hmem ↦ (hlate t hmem).1 ht
    have hinsert : (insert t late).card = late.card + 1 := Finset.card_insert_of_notMem hnot
    have hlt : late.card + 1 < 2 ^ 31 := hinsert ▸ (Finset.card_le_univ _).trans_lt hτ
    refine ⟨insert t late, ?_, fun u hu hut ↦ ?_, fun _ ↦ htaken⟩
    · rw [hinsert]
      exact (toInt_increased (by rw [hcard]; omega) hlt).1
    · exact hlate u ((Finset.mem_insert.1 hu).resolve_left hut)
  · refine ⟨∅, ?_, nofun, nofun⟩
    rw [not_not.1 htaken]
    rfl

/-- Then everybody sees that the class has been referred to. -/
theorem Inv.taken_increased (hτ : Fintype.card τ < 2 ^ 31) (h : s.Inv lifetime isDl)
    (ht : (s.place t).pc = .atIncrease c) {d : κ} (hd : s.Taken d ∨ d = c) :
    (s.increased c).Taken d := by
  rcases eq_or_ne d c with rfl | hdc
  · obtain ⟨late, hcard, -⟩ := h.exists_late hτ ht
    intro hstarted
    rw [increased, once_write_self] at hstarted
    replace hstarted : (s.once d).started + 1 = -1 := hstarted
    have hneg : (-1 : AtomicInt).toInt = -1 := rfl
    rw [hstarted] at hcard
    omega
  · rw [Taken, increased, once_write_of_ne hdc]
    exact hd.resolve_right hdc

/-- The first to refer to a class begins to construct it. -/
theorem Inv.apart_increased (hτ : Fintype.card τ < 2 ^ 31) (h : s.Inv lifetime isDl)
    (ht : s.place t = ⟨.atIncrease c, l⟩)
    (hp : s.Taken c ∧ p = ⟨.atWait c, l⟩ ∨ ¬ s.Taken c ∧ p = ⟨.idle, c :: l⟩) :
    ((s.increased c).goto t p).Apart := by
  have hstays : ∀ d, s.Taken d ∨ d = c → ((s.increased c).goto t p).Taken d :=
    fun d ↦ h.taken_increased hτ (congrArg InstancePlace.pc ht)
  have hown : s.own t = l := by rw [own, ht]; rfl
  obtain ⟨all, hdivided, hnodup, hall⟩ := h.apart
  obtain ⟨extra, hmove, hextra⟩ : ∃ extra, (↑p.owned : Multiset κ) = s.own t + extra ∧
      (extra = 0 ∨ ¬ s.Taken c ∧ extra = {c}) := by
    rcases hp with ⟨-, rfl⟩ | ⟨hfirst, rfl⟩
    · exact ⟨0, by rw [hown, add_zero]; rfl, .inl rfl⟩
    · exact ⟨{c}, by rw [hown, add_comm, Multiset.singleton_add]; rfl, .inr ⟨hfirst, rfl⟩⟩
  refine ⟨all + extra, ?_, ?_, fun d hd ↦ hstays d ?_⟩
  · rw [own_goto]
    refine hdivided.update ?_
    show (s.constructed : Multiset κ) + _ = _
    rw [hmove, add_assoc]
  · rcases hextra with rfl | ⟨hfirst, rfl⟩
    · rwa [add_zero]
    · rw [add_comm, Multiset.singleton_add]
      exact Multiset.nodup_cons.2 ⟨fun hc ↦ hfirst (hall c hc), hnodup⟩
  · rcases Multiset.mem_add.1 hd with hd | hd
    · exact .inl (hall d hd)
    · rcases hextra with rfl | ⟨-, rfl⟩
      · exact absurd hd (Multiset.notMem_zero d)
      · exact .inr (Multiset.mem_singleton.1 hd)

/-- The counters, after an increment. -/
theorem Inv.counted_increased (hτ : Fintype.card τ < 2 ^ 31) (h : s.Inv lifetime isDl)
    (ht : (s.place t).pc = .atIncrease c) (hp : ∀ d, p.pc ≠ .atIncrease d)
    (hwait : s.Taken c → p.pc = .atWait c) (d : κ) : ((s.increased c).goto t p).Counted d := by
  intro htaken
  have hdone : ∀ e, (s.once e).done = true → ((s.increased c).once e).done = true :=
    fun e ↦ (done_increased s c e).trans
  rcases eq_or_ne d c with rfl | hdc
  · obtain ⟨late, hcard, hlate, hfirst⟩ := h.exists_late hτ ht
    refine ⟨late, ?_, fun u hu ↦ ?_⟩
    · show ((s.increased d).once d).started.toInt = _
      rw [increased, once_write_self]
      exact hcard
    · rcases eq_or_ne u t with rfl | hut
      · rw [Late, place_goto_self]
        exact ⟨hp d, .inr (hwait (hfirst hu))⟩
      · exact (hlate u hu hut).congr (place_goto_of_ne hut ..) (hdone d)
  · -- the counter of another class
    have honce : (s.increased c).once d = s.once d := once_write_of_ne hdc ..
    obtain ⟨late, hcard, hlate⟩ := h.counted d (by rwa [Taken, ← honce])
    refine ⟨late, ?_, fun u hu ↦ ?_⟩
    · show ((s.increased c).once d).started.toInt = _
      rw [honce]
      exact hcard
    · have hu' : (s.increased c).Late d u := (hlate u hu).congr rfl (hdone d)
      rcases eq_or_ne u t with rfl | hut
      · exact late_goto (s := s.increased c) hp (fun e he ↦ absurd (he.symm.trans ht) nofun) d hu'
      · exact hu'.congr (place_goto_of_ne hut ..) id

/-- **An increment** of `started`, by the first thread to refer to the class or by another one. -/
theorem Inv.increase (hτ : Fintype.card τ < 2 ^ 31) (h : s.Inv lifetime isDl)
    (ht : s.place t = ⟨.atIncrease c, l⟩)
    (hp : s.Taken c ∧ p = ⟨.atWait c, l⟩ ∨ ¬ s.Taken c ∧ p = ⟨.idle, c :: l⟩) :
    ((s.increased c).goto t p).Inv lifetime isDl := by
  have hpc := congrArg InstancePlace.pc ht
  have hp' : ∀ d, p.pc ≠ .atIncrease d ∧ ¬ (p.pc = .atStore d ∨ p.pc = .done d) ∧
      (p.pc = .atWait d → d = c) := by
    intro d
    rcases hp with ⟨-, rfl⟩ | ⟨-, rfl⟩ <;> simp [eq_comm]
  refine ⟨h.registered, h.apart_increased hτ ht hp,
    fun d hd ↦ h.done d ((done_increased s c d).symm.trans hd), ?_, ?_,
    h.counted_increased hτ hpc (fun d ↦ (hp' d).1) fun htaken ↦ ?_⟩
  · refine (Function.forall_update_iff s.place fun _ p ↦ ∀ d, p.pc = .atStore d ∨ p.pc = .done d →
      d ∈ s.constructed).2 ⟨fun d hd ↦ absurd hd (hp' d).2.1, fun u _ ↦ h.complete u⟩
  · refine (Function.forall_update_iff s.place fun _ p ↦ ∀ d, p.pc = .atWait d →
      (s.increased c).Taken d).2 ⟨fun d hd ↦ ?_, fun u _ d hd ↦ ?_⟩
    · exact h.taken_increased hτ hpc (.inr ((hp' d).2.2 hd))
    · exact h.taken_increased hτ hpc (.inl (h.waiting u d hd))
  · rcases hp with ⟨-, rfl⟩ | ⟨hfirst, -⟩
    · rfl
    · exact absurd htaken hfirst

omit [DecidableEq τ] in
/-- `done` is set for a class that is complete. -/
theorem Inv.setDone (h : s.Inv lifetime isDl) (hc : c ∈ s.constructed) :
    (s.write c ⟨(s.once c).started, true⟩).Inv lifetime isDl := by
  have honce : ∀ d, ((s.write c ⟨(s.once c).started, true⟩).once d).started = (s.once d).started ∧
      ((s.once d).done = true → ((s.write c ⟨(s.once c).started, true⟩).once d).done = true) := by
    intro d
    rcases eq_or_ne d c with rfl | hdc
    · rw [once_write_self]
      exact ⟨rfl, fun _ ↦ rfl⟩
    · rw [once_write_of_ne hdc]
      exact ⟨rfl, id⟩
  have htaken : ∀ d, (s.write c ⟨(s.once c).started, true⟩).Taken d ↔ s.Taken d :=
    fun d ↦ by rw [Taken, (honce d).1, Taken]
  refine ⟨h.registered, ?_, fun d hd ↦ ?_, h.complete, fun u d hu ↦ (htaken d).2 (h.waiting u d hu),
    fun d hd ↦ ?_⟩
  · obtain ⟨all, hdivided, hnodup, hall⟩ := h.apart
    exact ⟨all, hdivided, hnodup, fun d hd ↦ (htaken d).2 (hall d hd)⟩
  · rcases eq_or_ne d c with rfl | hdc
    · exact hc
    · exact h.done d (by rwa [once_write_of_ne hdc] at hd)
  · obtain ⟨late, hcard, hall⟩ := h.counted d ((htaken d).1 hd)
    exact ⟨late, by rw [(honce d).1, hcard], fun u hu ↦ (hall u hu).congr rfl (honce d).2⟩

omit [DecidableEq κ] in
/-- **The destruction of a class is registered**, and with that it is complete. -/
theorem Inv.register (h : s.Inv lifetime isDl) (ht : s.place t = ⟨.atRegister c, l⟩) {ptask : ℕ}
    {tasks : AtexitStack Unit κ}
    (htasks : s.tasks.atexitImpl (Singletons.finiCall lifetime c (some ptask)) = some tasks) :
    ((s.record c tasks).goto t ⟨.atStore c, l⟩).Inv lifetime isDl where
  registered := by
    obtain ⟨calls, hrun, hcalls⟩ := h.registered
    refine ⟨calls ++ [Singletons.finiCall lifetime c (some ptask)],
      run_append_eq_some.2 ⟨s.tasks, hrun, run_cons_eq_some.2 ⟨tasks, htasks, rfl⟩⟩, ?_⟩
    show _ = Singletons.finiTasks lifetime (s.constructed ++ [c])
    rw [registrations_concat, hcalls, Singletons.length_finiTasks, Singletons.finiTasks,
      Singletons.finiTasks, List.mapIdx_concat]
    rfl
  apart := by
    obtain ⟨all, hdivided, hnodup, hall⟩ := h.apart
    have hown : s.own t = ↑(c :: l) := by rw [own, ht]; rfl
    refine ⟨all + 0, ?_, by rwa [add_zero], fun d hd ↦ hall d (by rwa [add_zero] at hd)⟩
    rw [own_goto]
    refine hdivided.update ?_
    show ((s.constructed ++ [c] : List κ) : Multiset κ) + (l : Multiset κ) = _
    rw [add_zero, hown, ← Multiset.coe_add, add_assoc]
    rfl
  done d hd := List.mem_append_left _ (h.done d hd)
  complete := by
    refine (Function.forall_update_iff s.place fun _ p ↦ ∀ d, p.pc = .atStore d ∨ p.pc = .done d →
      d ∈ s.constructed ++ [c]).2
      ⟨fun d hd ↦ ?_, fun u _ d hd ↦ List.mem_append_left _ (h.complete u d hd)⟩
    rcases hd with hd | hd <;> cases hd
    exact List.mem_append_right _ (List.mem_singleton_self c)
  waiting := (Function.forall_update_iff s.place fun _ p ↦ ∀ d, p.pc = .atWait d → s.Taken d).2
    ⟨fun d hd ↦ (by cases hd), fun u _ ↦ h.waiting u⟩
  counted d hd := by
    obtain ⟨late, hcard, hall⟩ := h.counted d hd
    refine ⟨late, hcard, fun u hu ↦ ?_⟩
    have hu' : (s.record c tasks).Late d u := (hall u hu).congr rfl id
    rcases eq_or_ne u t with rfl | hut
    · refine late_goto (fun d hd ↦ by cases hd) (fun d hd ↦ ?_) d hu'
      cases hd.symm.trans (congrArg InstancePlace.pc ht)
    · exact hu'.congr (place_goto_of_ne hut _ _) id

/-- **One step.** -/
theorem Inv.move (hτ : Fintype.card τ < 2 ^ 31) (h : s.Inv lifetime isDl)
    (hmove : s.Moves lifetime a s') : s'.Inv lifetime isDl := by
  -- what a thread owns, and that it has not waited
  have hown : ∀ {t : τ} {p : InstancePlace κ}, s.place t = p → ∀ {gone owned : Multiset κ},
      owned + gone = ↑p.owned → owned + gone = s.own t := by
    rintro t p rfl gone owned howned
    exact howned
  have hidle : ∀ {t : τ} {p : InstancePlace κ}, s.place t = p → (∀ c, p.pc ≠ .atWait c) →
      ∀ c, (s.place t).pc = .atWait c → (s.once c).done = true := by
    rintro t p rfl hp c hc
    exact absurd hc (hp c)
  cases hmove with
  | spin => exact h
  | win ht hfirst => exact h.increase hτ ht (.inr ⟨hfirst, rfl⟩)
  | lose ht htaken => exact h.increase hτ ht (.inl ⟨htaken, rfl⟩)
  | register ht htasks => exact h.register ht htasks
  | call c ht =>
    exact h.goto (hown ht (add_zero _)) nofun nofun (late_goto nofun (hidle ht nofun))
  | ret ht => exact h.goto (hown ht (add_zero _)) nofun nofun (late_goto nofun (hidle ht nofun))
  | construct ht =>
    exact h.goto (hown ht (add_zero _)) nofun nofun (late_goto nofun (hidle ht nofun))
  | @throw t c l ht =>
    have howned : (l : Multiset κ) + {c} = ↑(c :: l) := by
      rw [add_comm, Multiset.singleton_add, Multiset.cons_coe]
    exact h.goto (hown ht howned) nofun nofun (late_goto nofun (hidle ht nofun))
  | @giveUp t c l ht =>
    have howned : (l : Multiset κ) + {c} = ↑(c :: l) := by
      rw [add_comm, Multiset.singleton_add, Multiset.cons_coe]
    exact h.goto (hown ht howned) nofun nofun (late_goto nofun (hidle ht nofun))
  | @check t c l ht hdone =>
    refine h.goto (hown ht (add_zero _)) nofun nofun fun d hd ↦ ?_
    -- a thread that was late for this class would see `done`
    have hdone' : (s.once d).done = true :=
      hd.2.resolve_right fun hpc ↦ by rw [ht] at hpc; cases hpc
    rw [Late, place_goto_self]
    refine ⟨fun hpc ↦ ?_, .inl hdone'⟩
    cases hpc
    rw [hdone] at hdone'
    cases hdone'
  | @pass t c l ht hdone =>
    have hcomplete : ∀ d, (⟨.done c, l⟩ : InstancePlace κ).pc = .atStore d ∨
        (⟨.done c, l⟩ : InstancePlace κ).pc = .done d → d ∈ s.constructed := by
      rintro d (hd | hd) <;> cases hd
      exact h.done c hdone
    rcases ht with ht | ht
    · exact h.goto (hown ht (add_zero _)) hcomplete nofun (late_goto nofun (hidle ht nofun))
    · refine h.goto (hown ht (add_zero _)) hcomplete nofun (late_goto nofun fun d hd ↦ ?_)
      rw [ht] at hd
      cases hd
      exact hdone
  | @store t c l ht =>
    have hc : c ∈ s.constructed := h.complete t c (.inl (congrArg InstancePlace.pc ht))
    refine (h.setDone hc).goto (hown ht (add_zero _)) ?_ nofun (late_goto nofun fun d hd ↦ ?_)
    · rintro d (hd | hd) <;> cases hd
      exact hc
    · exact absurd (hd.symm.trans (congrArg InstancePlace.pc ht)) nofun

theorem Inv.step (hτ : Fintype.card τ < 2 ^ 31) (h : s.Inv lifetime isDl)
    (hstep : s.step lifetime a = some s') : s'.Inv lifetime isDl :=
  h.move hτ (moves_of_step hstep)

/-! ### What the threads get, and what happens at exit -/

/-- What the classes owe the threads that refer to them. -/
structure SharedSingletons (lifetime : κ → Lifetime) (s : SingletonSys τ κ) : Prop where
  /-- `instance` returns a reference to an instance that is complete, and will be destroyed. -/
  returned : ∀ t c, (s.place t).pc = .done c → c ∈ s.constructed
  nodup : s.constructed.Nodup
  /-- A class is constructed by one thread, once, and not when it is complete. -/
  alone : ∀ t, (s.place t).owned.Nodup ∧ ∀ c ∈ (s.place t).owned,
    c ∉ s.constructed ∧ ∀ u, c ∈ (s.place u).owned → u = t
  /-- If the process exits here, each complete instance is destroyed once, and without
  `lifetime_short` in the order of the lifetimes. -/
  destroyed : ∀ fuel, s.constructed.length < fuel → ∃ tasks,
    AtexitStack.fini fuel s.tasks = some tasks ∧ (Singletons.destroyed tasks).Nodup ∧
    (Singletons.destroyed tasks).Perm s.constructed ∧
    ((∀ c ∈ s.constructed, lifetime c ≠ lifetimeShort) →
      (Singletons.destroyed tasks).Pairwise (Singletons.DiesBefore lifetime s.constructed))

omit [DecidableEq τ] in
/-- The exit tasks are those of a thread that has constructed the classes all by itself. -/
theorem Inv.exists_singletonInv (h : s.Inv lifetime isDl) : ∃ (one : Singletons κ) (calls : _),
    Singletons.SingletonInv lifetime isDl one calls ∧ one.tasks = s.tasks ∧
      one.constructed = s.constructed := by
  obtain ⟨calls, hrun, hcalls⟩ := h.registered
  obtain ⟨all, hdivided, hnodup, -⟩ := h.apart
  refine ⟨⟨s.tasks, fun c ↦ ⟨-1, decide (c ∈ s.constructed)⟩, [], s.constructed⟩, calls,
    ⟨hrun, hcalls, fun c ↦ decide_eq_true_iff, ?_, nofun⟩, rfl, rfl⟩
  rw [List.append_nil]
  exact Multiset.coe_nodup.1 (hdivided.nodup_common hnodup)

omit [DecidableEq τ] in
theorem Inv.sharedSingletons (h : s.Inv lifetime isDl) : s.SharedSingletons lifetime := by
  obtain ⟨all, hdivided, hnodup, -⟩ := h.apart
  refine ⟨fun t c hc ↦ h.complete t c (.inr hc), hdivided.nodup_common hnodup,
    fun t ↦ ⟨Multiset.coe_nodup.1 (Multiset.nodup_of_le (hdivided.own_le t) hnodup),
      fun c hc ↦ ⟨hdivided.not_mem_common hnodup hc, fun u hu ↦ hdivided.unique hnodup hu hc⟩⟩,
    fun fuel hfuel ↦ ?_⟩
  obtain ⟨one, calls, hone, htasks, hconstructed⟩ := h.exists_singletonInv
  obtain ⟨order, hperm, hnodup', hruns, hfini⟩ := Singletons.fini_singletons hone
  rw [hconstructed] at hperm hruns hfini
  obtain ⟨tasks, hrun, horder⟩ := hfini fuel hfuel
  refine ⟨tasks, htasks ▸ hrun, horder ▸ hnodup', horder ▸ hperm, fun hlifetime ↦ horder ▸ ?_⟩
  refine hruns.imp_of_mem fun {c d} hc hd hbefore ↦ hbefore.diesBefore (.inl ?_)
  exact ⟨hlifetime c (hperm.subset hc), hlifetime d (hperm.subset hd)⟩

/-- **Shared singletons.** In every state that threads can reach, references are to complete
instances, no class is constructed twice, and the exit tasks destroy what has been constructed. -/
theorem shared_singletons (hτ : Fintype.card τ < 2 ^ 31) (lifetime : κ → Lifetime) (isDl : Bool)
    (ls : List (InstanceLabel τ κ)) :
    EveryState (step lifetime) (SharedSingletons lifetime) (start τ κ isDl) ls :=
  (everyState_of_invariant (fun _ _ _ hs hstep ↦ Inv.step hτ hs hstep)
    (inv_start lifetime isDl)).mono fun _ hs ↦ hs.sharedSingletons

/-- Two threads refer to a class for the first time, and both get it. -/
def firstReferences : List (InstanceLabel Bool Unit) :=
  [.call false (), .call true (), .next false, .next true, .next true, .next false,
    .construct true, .register true (some 1), .next true, .next false]

theorem shared_singletons_two : ∃ s : SingletonSys Bool Unit,
    run (step fun _ ↦ lifetimeDefault) (start Bool Unit false) firstReferences = some s ∧
    (s.place false).pc = .done () ∧ (s.place true).pc = .done () ∧
    s.SharedSingletons fun _ ↦ lifetimeDefault :=
  ⟨_, rfl, rfl, rfl,
    (shared_singletons (by decide) (fun _ ↦ lifetimeDefault) false firstReferences).last rfl⟩

end Invariant

end Moves

end SingletonSys

end Libk2
