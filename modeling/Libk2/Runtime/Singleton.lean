import Mathlib.Data.List.Nodup
import Libk2.Runtime.AtexitOrder
import Libk2.Threading.ThreadOnce

/-!
# `singleton`: construction and destruction order

The singletons of one thread. A first reference runs the constructor, which may refer to further
singletons before it returns; when it does, `instance_init` registers `instance_fini` with the
negated lifetime as its priority. `Singletons` is the exit tasks, the `thread_once` of every class,
the constructors that are running, innermost first, and, for the record, the classes whose
construction is complete, in that order.

At exit the tasks run in the order of `Before`. That is the order owed to the instances wherever
negation reverses the order of the lifetimes. On `int` it does, except at `INT_MIN`, which is its
own negative and is `lifetime_short`: `destroyedInOrder_iff` says that the instances die in order
exactly when none of them has that lifetime, or all have.
-/

namespace Libk2

open StepSystem

/-- `singleton_base::lifetime_t`. -/
abbrev Lifetime := Int32

/-- `singleton_base::lifetime_short`, `INT_MIN`. -/
def lifetimeShort : Lifetime := Int32.minValue

/-- `singleton_base::lifetime_long`, `INT_MAX - 1`. -/
def lifetimeLong : Lifetime := Int32.maxValue - 1

/-- `singleton_base::lifetime_default`. -/
def lifetimeDefault : Lifetime := 0

/-- The singleton classes `κ` in one thread. The tasks are `instance_fini` of a class, all through
the one adapter that `runtime::atexit` makes of it. -/
structure Singletons (κ : Type*) where
  tasks : AtexitStack Unit κ
  once : κ → ThreadOnce
  constructing : List κ
  constructed : List κ

/-- The thread refers to a class, or the innermost constructor returns and `runtime::atexit` is
called; `newTask` is what `new atexit_task` returns there, if it does. -/
inductive SingletonOp (κ : Type*) where
  | reference (c : κ)
  | initReturn (newTask : Option ℕ)

namespace Singletons

variable {κ : Type*} (lifetime : κ → Lifetime)

/-- No class has been referred to. -/
def start (κ : Type*) (isDl : Bool) : Singletons κ :=
  ⟨AtexitStack.empty isDl, fun _ ↦ .init, [], []⟩

/-- The call `runtime::atexit(instance_fini, -Lifetime)`. -/
def finiCall (c : κ) (newTask : Option ℕ) : AtexitCall Unit κ :=
  ⟨newTask, (), c, (-lifetime c).toInt⟩

variable [DecidableEq κ]

/-- One step. A reference to a class that is under construction waits for itself. If
`runtime::atexit` fails, `instance_init` destroys the instance and rethrows, and `done` stays false.
-/
def step (s : Singletons κ) : SingletonOp κ → Option (Singletons κ)
  | .reference c =>
    if (s.once c).done then some s
    else
      let r := atomicIncrease (s.once c).started
      if r.1 = false then
        some { s with
          once := Function.update s.once c ⟨r.2, false⟩
          constructing := c :: s.constructing }
      else none
  | .initReturn newTask =>
    match s.constructing with
    | [] => none
    | c :: rest => (s.tasks.atexitImpl (finiCall lifetime c newTask)).map fun tasks ↦
      if newTask.isSome then
        { tasks := tasks
          once := Function.update s.once c ⟨(s.once c).started, true⟩
          constructing := rest
          constructed := s.constructed ++ [c] }
      else { s with tasks := tasks, constructing := rest }

/-- The instance an event of `exec` destroys. -/
def destroys : ExitEvent Unit κ → Option κ
  | .ran _ _ c => some c
  | .deleted _ => none

/-- The instances `instance_fini` has destroyed, in order. -/
def destroyed (tasks : AtexitStack Unit κ) : List κ := tasks.log.filterMap destroys

/-- The order owed: smaller lifetime first, and among equals the one completed later. -/
def DiesBefore (constructed : List κ) (c d : κ) : Prop :=
  lifetime c < lifetime d ∨ lifetime c = lifetime d ∧ constructed.idxOf d < constructed.idxOf c

instance (constructed : List κ) (c d : κ) : Decidable (DiesBefore lifetime constructed c d) :=
  inferInstanceAs (Decidable (_ ∨ _))

/-- `runtime::fini` destroys each constructed instance exactly once, in the order owed. -/
def DestroyedInOrder (s : Singletons κ) : Prop :=
  ∀ fuel, s.constructed.length < fuel → ∃ tasks, AtexitStack.fini fuel s.tasks = some tasks ∧
    (destroyed tasks).Nodup ∧ (destroyed tasks).Perm s.constructed ∧
    (destroyed tasks).Pairwise (DiesBefore lifetime s.constructed)

/-! ### What construction registers -/

/-- The tasks of the constructed classes. -/
def finiTasks (constructed : List κ) : List (Registration Unit κ) :=
  constructed.mapIdx fun i c ↦ ⟨i, (), c, (-lifetime c).toInt⟩

/-- The invariant, for the registrations `calls` made so far. -/
structure SingletonInv (isDl : Bool) (s : Singletons κ) (calls : List (AtexitCall Unit κ)) :
    Prop where
  registered : run AtexitStack.atexitImpl (AtexitStack.empty isDl) calls = some s.tasks
  constructed : registrations calls = finiTasks lifetime s.constructed
  done : ∀ c, (s.once c).done = true ↔ c ∈ s.constructed
  nodup : (s.constructed ++ s.constructing).Nodup
  started : ∀ c ∈ s.constructing, (s.once c).started + 1 ≠ 0

omit [DecidableEq κ] in
theorem length_finiTasks (constructed : List κ) :
    (finiTasks lifetime constructed).length = constructed.length :=
  List.length_mapIdx

variable {lifetime}

theorem singletonInv_start (κ : Type*) [DecidableEq κ] (lifetime : κ → Lifetime) (isDl : Bool) :
    SingletonInv lifetime isDl (start κ isDl) [] where
  registered := rfl
  constructed := rfl
  done c := by simp [start, ThreadOnce.init]
  nodup := List.nodup_nil
  started _ h := absurd h List.not_mem_nil

namespace SingletonInv

variable {isDl : Bool} {s : Singletons κ} {calls : List (AtexitCall Unit κ)} {c : κ} {rest : List κ}

/-- A first reference. -/
theorem reference (h : SingletonInv lifetime isDl s calls) (hdone : (s.once c).done = false)
    (hzero : (s.once c).started + 1 = 0) : SingletonInv lifetime isDl { s with
      once := Function.update s.once c ⟨(s.once c).started + 1, false⟩
      constructing := c :: s.constructing } calls where
  registered := h.registered
  constructed := h.constructed
  done := by
    have hc : c ∉ s.constructed := fun hmem ↦ by
      rw [(h.done c).2 hmem] at hdone
      cases hdone
    exact (Function.forall_update_iff s.once fun d o ↦ o.done = true ↔ d ∈ s.constructed).2
      ⟨iff_of_false nofun hc, fun d _ ↦ h.done d⟩
  nodup := by
    refine List.nodup_middle.2 (List.nodup_cons.2 ⟨fun hmem ↦ ?_, h.nodup⟩)
    rcases List.mem_append.1 hmem with hmem | hmem
    · rw [(h.done c).2 hmem] at hdone
      cases hdone
    · exact h.started c hmem hzero
  started d hd := by
    rcases eq_or_ne d c with rfl | hdc
    · show (Function.update s.once d _ d).started + 1 ≠ 0
      rw [Function.update_self, hzero]
      decide
    · show (Function.update s.once c _ d).started + 1 ≠ 0
      rw [Function.update_of_ne hdc]
      exact h.started d ((List.mem_cons.1 hd).resolve_left hdc)

/-- The innermost constructor returns and `instance_fini` is registered. -/
theorem register (h : SingletonInv lifetime isDl s calls) (hc : s.constructing = c :: rest)
    {ptask : ℕ} {tasks : AtexitStack Unit κ}
    (htasks : s.tasks.atexitImpl (finiCall lifetime c (some ptask)) = some tasks) :
    SingletonInv lifetime isDl
      { tasks := tasks
        once := Function.update s.once c ⟨(s.once c).started, true⟩
        constructing := rest
        constructed := s.constructed ++ [c] }
      (calls ++ [finiCall lifetime c (some ptask)]) where
  registered :=
    run_append_eq_some.2 ⟨s.tasks, h.registered, run_cons_eq_some.2 ⟨tasks, htasks, rfl⟩⟩
  constructed := by
    rw [registrations_concat, h.constructed, length_finiTasks, finiTasks, finiTasks,
      List.mapIdx_concat]
    rfl
  done := by
    refine (Function.forall_update_iff s.once fun d o ↦ o.done = true ↔ d ∈ s.constructed ++ [c]).2
      ⟨iff_of_true rfl (List.mem_append_right _ (List.mem_singleton_self c)), fun d hdc ↦ ?_⟩
    rw [h.done d, List.mem_append, List.mem_singleton, or_iff_left hdc]
  nodup := by
    have hnodup := h.nodup
    rw [hc] at hnodup
    rwa [List.append_assoc]
  started d hd := by
    have hnodup := (List.nodup_append.1 h.nodup).2.1
    rw [hc] at hnodup
    have hdc : d ≠ c := by
      rintro rfl
      exact (List.nodup_cons.1 hnodup).1 hd
    show (Function.update s.once c _ d).started + 1 ≠ 0
    rw [Function.update_of_ne hdc]
    exact h.started d (hc ▸ List.mem_cons_of_mem c hd)

omit [DecidableEq κ] in
/-- `runtime::atexit` fails, and the innermost construction is given up. -/
theorem giveUp (h : SingletonInv lifetime isDl s calls) (hc : s.constructing = c :: rest) :
    SingletonInv lifetime isDl { s with constructing := rest } calls where
  registered := h.registered
  constructed := h.constructed
  done := h.done
  nodup := by
    refine h.nodup.sublist (List.Sublist.append_left ?_ _)
    rw [hc]
    exact List.sublist_cons_self c rest
  started d hd := h.started d (hc ▸ List.mem_cons_of_mem c hd)

end SingletonInv

/-- **One step** of the thread. -/
theorem singletonInv_step {isDl : Bool} {s s' : Singletons κ} {op : SingletonOp κ}
    (h : ∃ calls, SingletonInv lifetime isDl s calls) (hstep : step lifetime s op = some s') :
    ∃ calls, SingletonInv lifetime isDl s' calls := by
  obtain ⟨calls, h⟩ := h
  cases op with
  | reference c =>
    simp only [step, atomicIncrease, AtomicOp.apply, AtomicOp.addend, bne_eq_false_iff_eq] at hstep
    split at hstep
    · exact ⟨calls, Option.some.inj hstep ▸ h⟩
    · next hdone =>
      obtain ⟨hzero, ⟨⟩⟩ := Option.ite_none_right_eq_some.1 hstep
      exact ⟨calls, h.reference (Bool.eq_false_of_not_eq_true hdone) hzero⟩
  | initReturn newTask =>
    cases hc : s.constructing with
    | nil => simp [step, hc] at hstep
    | cons c rest =>
      simp only [step, hc] at hstep
      obtain ⟨tasks, htasks, rfl⟩ := Option.map_eq_some_iff.1 hstep
      cases newTask with
      | some ptask => exact ⟨_, h.register hc htasks⟩
      | none =>
        obtain rfl : s.tasks = tasks := Option.some.inj htasks
        exact ⟨calls, h.giveUp hc⟩

theorem singletonInv_of_run {isDl : Bool} {ops : List (SingletonOp κ)} {s : Singletons κ}
    (h : run (step lifetime) (start κ isDl) ops = some s) :
    ∃ calls, SingletonInv lifetime isDl s calls :=
  run_invariant (fun _ _ _ ↦ singletonInv_step) ⟨[], singletonInv_start κ lifetime isDl⟩ h

/-- A constructor that has returned is registered, given a fresh task. -/
theorem exists_initReturn {isDl : Bool} {ops : List (SingletonOp κ)} {s : Singletons κ}
    (h : run (step lifetime) (start κ isDl) ops = some s) {c : κ} {rest : List κ}
    (hc : s.constructing = c :: rest) {ptask : ℕ} (h0 : ptask ≠ 0)
    (hfresh : s.tasks.heap ptask = none) :
    ∃ s', step lifetime s (.initReturn (some ptask)) = some s' := by
  obtain ⟨calls, hinv⟩ := singletonInv_of_run h
  have hnew : (finiCall lifetime c (some ptask)).newTask = some ptask := rfl
  obtain ⟨tasks, htasks⟩ := AtexitStack.exists_atexitImpl hinv.registered hnew h0 hfresh
  refine Option.isSome_iff_exists.1 ?_
  simp only [step, hc, htasks, Option.map_some, Option.isSome_some]

/-! ### The order of destruction -/

/-- The order in which the tasks run, as an order of the classes. -/
def RunsBefore (lifetime : κ → Lifetime) (constructed : List κ) (c d : κ) : Prop :=
  (-lifetime d).toInt < (-lifetime c).toInt ∨
    (-lifetime c).toInt = (-lifetime d).toInt ∧ constructed.idxOf d < constructed.idxOf c

omit [DecidableEq κ] in
theorem filterMap_destroys (order : List (Registration Unit κ)) :
    (order.flatMap Registration.events).filterMap destroys = order.map Registration.arg := by
  induction order with
  | nil => rfl
  | cons r order ih =>
    rw [List.flatMap_cons, List.filterMap_append, ih]
    rfl

omit [DecidableEq κ] in
theorem map_arg_finiTasks (constructed : List κ) :
    (finiTasks lifetime constructed).map Registration.arg = constructed := by
  refine List.ext_getElem (by rw [List.length_map, length_finiTasks]) fun i _ _ ↦ ?_
  simp [finiTasks]

theorem eq_of_mem_finiTasks {constructed : List κ} (hnodup : constructed.Nodup)
    {r : Registration Unit κ} (hr : r ∈ finiTasks lifetime constructed) :
    r.prio = (-lifetime r.arg).toInt ∧ r.serial = constructed.idxOf r.arg := by
  obtain ⟨i, hi, rfl⟩ := List.mem_mapIdx.1 hr
  exact ⟨rfl, (hnodup.idxOf_getElem i hi).symm⟩

/-- **What `runtime::fini` does**: the instances constructed die in the order of their tasks. -/
theorem fini_singletons {isDl : Bool} {s : Singletons κ} {calls : List (AtexitCall Unit κ)}
    (h : SingletonInv lifetime isDl s calls) :
    ∃ order : List κ, order.Perm s.constructed ∧ order.Nodup ∧
      order.Pairwise (RunsBefore lifetime s.constructed) ∧
      ∀ fuel, s.constructed.length < fuel →
        ∃ tasks, AtexitStack.fini fuel s.tasks = some tasks ∧ destroyed tasks = order := by
  obtain ⟨⟨l, htasks, hordered, hperm⟩, hreg, hlog⟩ := AtexitStack.listed_of_run h.registered
  obtain ⟨heap, hexec⟩ := AtexitStack.exec_tasks htasks
  rw [hreg, h.constructed] at hperm
  have hnodup := (List.nodup_append.1 h.nodup).1
  have harg := (hperm.map Registration.arg).trans (.of_eq (map_arg_finiTasks s.constructed))
  refine ⟨(l.map Entry.toRegistration).map Registration.arg, harg, harg.nodup_iff.2 hnodup, ?_,
    fun fuel hfuel ↦ ?_⟩
  · refine List.pairwise_map.2 ((List.pairwise_map.2 hordered).imp_of_mem ?_)
    intro r r' hr hr' hbefore
    obtain ⟨hprio, hserial⟩ := eq_of_mem_finiTasks hnodup (hperm.subset hr)
    obtain ⟨hprio', hserial'⟩ := eq_of_mem_finiTasks hnodup (hperm.subset hr')
    rwa [Before, hprio, hprio', hserial, hserial'] at hbefore
  · refine ⟨_, hexec fuel ?_, ?_⟩
    · have hlen := hperm.length_eq
      rw [List.length_map, length_finiTasks] at hlen
      exact hlen.trans_lt hfuel
    · rw [destroyed, hlog, List.nil_append, filterMap_destroys]

/-- Negation reverses the order of lifetimes, except at `INT_MIN`. -/
theorem toInt_neg_of_ne {x : Lifetime} (h : x ≠ lifetimeShort) : (-x).toInt = -x.toInt := by
  have hne : x.toInt ≠ -2 ^ 31 := fun heq ↦ h (Int32.toInt_inj.1 heq)
  have hge := x.le_toInt
  have hlt := x.toInt_lt
  rw [Int32.toInt_neg]
  exact Int.bmod_eq_of_le (by omega) (by omega)

theorem neg_lifetimeShort : -lifetimeShort = lifetimeShort := by decide

/-- Where no lifetime is `INT_MIN`, or all are, the tasks run in the order owed. -/
theorem RunsBefore.diesBefore {constructed : List κ} {c d : κ}
    (h : RunsBefore lifetime constructed c d)
    (hcd : lifetime c ≠ lifetimeShort ∧ lifetime d ≠ lifetimeShort ∨
      lifetime c = lifetimeShort ∧ lifetime d = lifetimeShort) :
    DiesBefore lifetime constructed c d := by
  rw [DiesBefore, Int32.lt_iff_toInt_lt, ← Int32.toInt_inj]
  rcases hcd with ⟨hc, hd⟩ | ⟨hc, hd⟩
  · rw [RunsBefore, toInt_neg_of_ne hc, toInt_neg_of_ne hd] at h
    omega
  · rw [RunsBefore, hc, hd] at h
    rw [hc, hd]
    exact h.imp_left fun hlt ↦ absurd hlt (lt_irrefl _)

/-- A class of lifetime `INT_MIN` runs last and should die first. -/
theorem not_runsBefore_short (constructed : List κ) {c d : κ} (hc : lifetime c = lifetimeShort)
    (hd : lifetime d ≠ lifetimeShort) :
    ¬ RunsBefore lifetime constructed c d ∧ ¬ DiesBefore lifetime constructed d c := by
  have hd' := toInt_neg_of_ne hd
  have hlt := (lifetime d).toInt_lt
  have hge := (lifetime d).le_toInt
  have hne : (lifetime d).toInt ≠ -2 ^ 31 := fun heq ↦ hd (Int32.toInt_inj.1 heq)
  have hshort : lifetimeShort.toInt = -2 ^ 31 := rfl
  constructor
  · rw [RunsBefore, hc, neg_lifetimeShort, hshort, hd']
    omega
  · rw [DiesBefore, Int32.lt_iff_toInt_lt, ← Int32.toInt_inj, hc, hshort]
    omega

/-- **Singletons die in order of lifetime** exactly when no instance constructed has the lifetime
`INT_MIN`, or all have. -/
theorem destroyedInOrder_iff {isDl : Bool} {ops : List (SingletonOp κ)} {s : Singletons κ}
    (h : run (step lifetime) (start κ isDl) ops = some s) :
    DestroyedInOrder lifetime s ↔ (∀ c ∈ s.constructed, lifetime c ≠ lifetimeShort) ∨
      ∀ c ∈ s.constructed, lifetime c = lifetimeShort := by
  obtain ⟨calls, hinv⟩ := singletonInv_of_run h
  obtain ⟨order, hperm, hnodup, hruns, hfini⟩ := fini_singletons hinv
  constructor
  · intro hdestroyed
    obtain ⟨tasks, hrun, horder⟩ := hfini _ (Nat.lt_succ_self _)
    obtain ⟨tasks', hrun', -, -, hdies⟩ := hdestroyed _ (Nat.lt_succ_self _)
    obtain rfl : tasks = tasks' := Option.some.inj (hrun.symm.trans hrun')
    rw [horder] at hdies
    by_contra hmixed
    obtain ⟨hshort, hother⟩ := not_or.1 hmixed
    simp only [not_forall, not_not, exists_prop] at hshort hother
    obtain ⟨c, hc, hcshort⟩ := hshort
    obtain ⟨d, hd, hdother⟩ := hother
    -- `c` should die before `d`, but runs after it
    have hnot := not_runsBefore_short s.constructed hcshort hdother
    obtain ⟨l₁, l₂, hsplit⟩ := List.append_of_mem (hperm.mem_iff.2 hc)
    rw [hsplit] at hruns hdies hperm
    rcases List.mem_append.1 (hperm.mem_iff.2 hd) with hd | hd
    · exact hnot.2 ((List.pairwise_append.1 hdies).2.2 d hd c List.mem_cons_self)
    · rcases List.mem_cons.1 hd with rfl | hd
      · exact hdother hcshort
      · exact hnot.1 (List.rel_of_pairwise_cons (List.pairwise_append.1 hruns).2.1 hd)
  · intro hlifetimes fuel hfuel
    obtain ⟨tasks, hrun, horder⟩ := hfini fuel hfuel
    refine ⟨tasks, hrun, horder ▸ hnodup, horder ▸ hperm, horder ▸ ?_⟩
    refine hruns.imp_of_mem fun {c d} hc hd hbefore ↦ hbefore.diesBefore ?_
    rcases hlifetimes with hnone | hall
    · exact .inl ⟨hnone c (hperm.subset hc), hnone d (hperm.subset hd)⟩
    · exact .inr ⟨hall c (hperm.subset hc), hall d (hperm.subset hd)⟩

/-- The constructor of class 0 refers to class 1, and class 2 comes later. -/
def threeReferences : List (SingletonOp (Fin 3)) :=
  [.reference 0, .reference 1, .initReturn (some 8), .initReturn (some 16), .reference 2,
    .initReturn (some 24), .reference 0]

/-- Class 2 lives long. -/
def threeLifetimes (c : Fin 3) : Lifetime := if c = 2 then lifetimeLong else lifetimeDefault

theorem destroyedInOrder_three : ∃ s : Singletons (Fin 3),
    run (step threeLifetimes) (start (Fin 3) false) threeReferences = some s ∧
      s.constructed = [1, 0, 2] ∧ DestroyedInOrder threeLifetimes s := by
  obtain ⟨s, hrun, hconstructed⟩ : ∃ s : Singletons (Fin 3),
      run (step threeLifetimes) (start (Fin 3) false) threeReferences = some s ∧
        s.constructed = [1, 0, 2] := ⟨_, rfl, rfl⟩
  refine ⟨s, hrun, hconstructed, (destroyedInOrder_iff hrun).2 (.inl ?_)⟩
  rw [hconstructed]
  decide

/-- The lifetimes of a class that is to die early, and of one with nothing special about it. -/
def shortLifetime (early : Bool) : Lifetime := if early then lifetimeShort else lifetimeDefault

/-- **`lifetime_short` outlives the rest.** Its negation is the lowest priority, not the highest. -/
theorem short_lifetime_dies_last : ¬ ∀ (lifetime : Bool → Lifetime) (isDl : Bool)
    (ops : List (SingletonOp Bool)) (s : Singletons Bool),
    run (step lifetime) (start Bool isDl) ops = some s → DestroyedInOrder lifetime s := by
  intro hall
  obtain ⟨s, hrun, hconstructed, hfini⟩ : ∃ s : Singletons Bool,
      run (step shortLifetime) (start Bool false)
        [.reference true, .initReturn (some 8), .reference false, .initReturn (some 16)] = some s ∧
      s.constructed = [true, false] ∧
      (AtexitStack.fini 3 s.tasks).map destroyed = some [false, true] := ⟨_, rfl, rfl, rfl⟩
  obtain ⟨tasks, htasks, -, -, hdies⟩ := hall _ _ _ s hrun 3 (by rw [hconstructed]; decide)
  rw [htasks] at hfini
  rw [Option.some.inj hfini, hconstructed] at hdies
  exact absurd (List.rel_of_pairwise_cons hdies (List.mem_singleton_self true)) (by decide)

end Singletons

end Libk2
