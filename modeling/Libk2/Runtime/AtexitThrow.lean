import Libk2.Runtime.AtexitNested

/-!
# Exit tasks that throw

`exec` is called more than once: `atexit_impl` passes it to `std::atexit` at every registration, and
`runtime::fini` calls it as well. A call goes on with the list that the one before has left.

`exec` takes a task off the list after its routine has returned. If the routine throws, the task
stays where it is, so the next call starts it again, and does not get to the tasks behind it unless
this time it returns. So every routine is started at most once exactly if nothing throws or there is
no second call (`execsWell_iff`).
-/

namespace Libk2

open StepSystem

variable {ρ α : Type*}

namespace AtexitStack

/-! ### The calls -/

/-- `atexit_stack::exec`, where the routine of task `k` throws if `throws k`; with whether the call
has ended with an exception. -/
def execThrowing (throws : ℕ → Bool) : ℕ → AtexitStack ρ α → Option (AtexitStack ρ α × Bool)
  | 0, _ => none
  | fuel + 1, s =>
    if s.pstack = 0 then some (s, false)
    else (s.heap s.pstack).bind fun task ↦ s.execCall.bind fun r ↦
      if throws task.serial then some (r.2, true)
      else (r.2.execReturn r.1).bind (execThrowing throws fuel)

/-- `runtime::fini`. -/
def finiThrowing (throws : ℕ → Bool) (fuel : ℕ) (s : AtexitStack ρ α) :
    Option (AtexitStack ρ α × Bool) :=
  execThrowing throws fuel s

/-- Who calls: the C library, what was passed to `std::atexit`, or `runtime::fini`. -/
inductive ExecCall where
  | exec
  | fini
deriving DecidableEq

/-- The call. -/
def call (throws : ℕ → Bool) (fuel : ℕ) (s : AtexitStack ρ α) :
    ExecCall → Option (AtexitStack ρ α × Bool)
  | .exec => execThrowing throws fuel s
  | .fini => finiThrowing throws fuel s

/-- The state after the call. -/
def callStep (throws : ℕ → Bool) (fuel : ℕ) (s : AtexitStack ρ α) (c : ExecCall) :
    Option (AtexitStack ρ α) :=
  (s.call throws fuel c).map Prod.fst

/-- The tasks that have been started, in order. -/
def started (s : AtexitStack ρ α) : List ℕ := (s.log.filter ExitEvent.isRan).map ExitEvent.serial

/-- If nothing throws, this is `exec`. -/
theorem execThrowing_eq_exec (fuel : ℕ) (s : AtexitStack ρ α) :
    execThrowing (fun _ ↦ false) fuel s = (exec fuel s).map fun t ↦ (t, false) := by
  induction fuel generalizing s with
  | zero => rfl
  | succ fuel ih =>
    rw [execThrowing, exec]
    split
    · rfl
    · cases hhead : s.heap s.pstack with
      | none => simp [execCall, hhead]
      | some task =>
        rw [Option.bind_some, Option.map_bind]
        congr 1
        funext r
        rw [if_neg Bool.false_ne_true, Function.comp_apply, Option.map_bind]
        congr 1
        funext t
        exact ih t

/-! ### One call -/

variable {throws : ℕ → Bool} {fuel : ℕ} {s s' t : AtexitStack ρ α} {l l₁ l₂ : List (Entry ρ α)}
  {e : Entry ρ α}

theorem call_eq (c : ExecCall) : s.call throws fuel c = execThrowing throws fuel s := by
  cases c <;> rfl

/-- An event starts a task, or it does not. -/
theorem started_of_log_eq {events : List (ExitEvent ρ α)} (h : t.log = s.log ++ events) :
    t.started = s.started ++ (events.filter ExitEvent.isRan).map ExitEvent.serial := by
  rw [started, h, List.filter_append, List.map_append]
  rfl

/-- **Tasks that return** are run and deleted, one after another. -/
theorem execThrowing_append (h : Tasks s.heap s.pstack (l₁ ++ l₂))
    (hret : ∀ e ∈ l₁, throws e.serial = false) :
    ∃ t, Tasks t.heap t.pstack l₂ ∧ t.started = s.started ++ l₁.map (fun e ↦ e.serial) ∧
      ∀ fuel, execThrowing throws (fuel + l₁.length) s = execThrowing throws fuel t := by
  induction l₁ generalizing s with
  | nil => exact ⟨s, h, (List.append_nil _).symm, fun fuel ↦ rfl⟩
  | cons e l₁ ih =>
    obtain ⟨q, hp, hcall, hreturn, htail⟩ := tasks_iteration h
    obtain ⟨r, hr⟩ := h.stored e List.mem_cons_self
    have hhead : s.heap s.pstack = some (e.task r) := (Tasks.cons_iff.1 h).1 ▸ hr
    obtain ⟨t, htasks, hstarted, hrest⟩ := ih (s := { s with
      heap := Function.update s.heap s.pstack none
      pstack := q
      log := s.log ++ e.events }) htail fun x hx ↦ hret x (List.mem_cons_of_mem _ hx)
    refine ⟨t, htasks, ?_, fun fuel ↦ ?_⟩
    · rw [hstarted, started_of_log_eq (s := s) rfl, List.append_assoc]
      rfl
    · have hthrows : ¬ throws (e.task r).serial = true :=
        Bool.eq_false_iff.1 (hret e List.mem_cons_self)
      rw [List.length_cons, ← Nat.add_assoc, execThrowing, if_neg hp, hhead, Option.bind_some,
        hcall, Option.bind_some, if_neg hthrows, hreturn, Option.bind_some, hrest fuel]

/-- **A call in which nothing throws** runs the list. -/
theorem call_of_returns (h : Tasks s.heap s.pstack l) (hret : ∀ e ∈ l, throws e.serial = false)
    (hfuel : l.length < fuel) (c : ExecCall) :
    ∃ s', s.call throws fuel c = some (s', false) ∧ Tasks s'.heap s'.pstack [] ∧
      s'.started = s.started ++ l.map fun e ↦ e.serial := by
  rw [← List.append_nil l] at h
  obtain ⟨t, htasks, hstarted, hrest⟩ := execThrowing_append h hret
  obtain ⟨n, rfl⟩ := Nat.exists_eq_add_of_lt hfuel
  have hp : t.pstack = 0 := htasks.chain
  refine ⟨t, ?_, htasks, hstarted⟩
  rw [call_eq, show l.length + n + 1 = n + 1 + l.length by omega, hrest, execThrowing, if_pos hp]

/-- **A call in which a task throws** runs the list up to that task, and leaves it at the head. -/
theorem call_of_throws (h : Tasks s.heap s.pstack (l₁ ++ e :: l₂))
    (hret : ∀ e ∈ l₁, throws e.serial = false) (he : throws e.serial = true)
    (hfuel : l₁.length < fuel) (c : ExecCall) :
    ∃ s', s.call throws fuel c = some (s', true) ∧ Tasks s'.heap s'.pstack (e :: l₂) ∧
      s'.started = s.started ++ l₁.map (fun e ↦ e.serial) ++ [e.serial] := by
  obtain ⟨t, htasks, hstarted, hrest⟩ := execThrowing_append h hret
  obtain ⟨q, hp, hcall, -, -⟩ := tasks_iteration htasks
  obtain ⟨r, hr⟩ := htasks.stored e List.mem_cons_self
  have hhead : t.heap t.pstack = some (e.task r) := (Tasks.cons_iff.1 htasks).1 ▸ hr
  obtain ⟨n, rfl⟩ := Nat.exists_eq_add_of_lt hfuel
  refine ⟨{ t with log := t.log ++ [.ran e.serial e.routine e.arg] }, ?_, htasks, ?_⟩
  · have hthrows : throws (e.task r).serial = true := he
    rw [call_eq, show l₁.length + n + 1 = n + 1 + l₁.length by omega, hrest, execThrowing,
      if_neg hp, hhead, Option.bind_some, hcall, Option.bind_some, if_pos hthrows]
  · rw [started_of_log_eq (s := t) rfl, hstarted]
    rfl

/-- The first task that throws, if one does. -/
theorem exists_first_throw (throws : ℕ → Bool) (l : List (Entry ρ α)) :
    (∀ e ∈ l, throws e.serial = false) ∨ ∃ l₁ e l₂, l = l₁ ++ e :: l₂ ∧
      (∀ e ∈ l₁, throws e.serial = false) ∧ throws e.serial = true := by
  induction l with
  | nil => exact .inl fun e he ↦ absurd he List.not_mem_nil
  | cons a l ih =>
    cases ha : throws a.serial with
    | true => exact .inr ⟨[], a, l, rfl, fun e he ↦ absurd he List.not_mem_nil, ha⟩
    | false =>
      rcases ih with hret | ⟨l₁, e, l₂, rfl, hret, he⟩
      · exact .inl (List.forall_mem_cons.2 ⟨ha, hret⟩)
      · exact .inr ⟨a :: l₁, e, l₂, rfl, List.forall_mem_cons.2 ⟨ha, hret⟩, he⟩

/-! ### A sequence of calls -/

/-- The calls go through, and what has been started stays so. -/
theorem exists_run_calls (h : Tasks s.heap s.pstack l) (hfuel : l.length < fuel)
    (calls : List ExecCall) :
    ∃ s', run (callStep throws fuel) s calls = some s' ∧ s.started <+: s'.started := by
  induction calls generalizing s l with
  | nil => exact ⟨s, rfl, List.prefix_refl _⟩
  | cons c calls ih =>
    have hcall : ∃ t b l', s.call throws fuel c = some (t, b) ∧ Tasks t.heap t.pstack l' ∧
        l'.length < fuel ∧ s.started <+: t.started := by
      rcases exists_first_throw throws l with hret | ⟨l₁, e, l₂, rfl, hret, he⟩
      · obtain ⟨t, ht, htasks, hstarted⟩ := call_of_returns h hret hfuel c
        exact ⟨t, _, [], ht, htasks, Nat.zero_lt_of_lt hfuel, hstarted ▸ List.prefix_append _ _⟩
      · rw [List.length_append] at hfuel
        have hfuel' : l₁.length < fuel := by omega
        obtain ⟨t, ht, htasks, hstarted⟩ := call_of_throws h hret he hfuel' c
        refine ⟨t, _, e :: l₂, ht, htasks, by omega, ?_⟩
        rw [hstarted, List.append_assoc]
        exact List.prefix_append _ _
    obtain ⟨t, b, l', ht, htasks, hl', hprefix⟩ := hcall
    obtain ⟨s', hrun, hprefix'⟩ := ih htasks hl'
    exact ⟨s', run_cons_eq_some.2 ⟨t, by rw [callStep, ht, Option.map_some], hrun⟩,
      hprefix.trans hprefix'⟩

/-- No task is started twice, and a call that follows one which has ended with an exception starts a
task that has not been started, if there is one left. -/
structure ExecsWell (throws : ℕ → Bool) (fuel : ℕ) (s : AtexitStack ρ α) (calls : List ExecCall) :
    Prop where
  once : ∀ s', run (callStep throws fuel) s calls = some s' → s'.started.Nodup
  goes_on : ∀ pre c c' post t u v b, calls = pre ++ c :: c' :: post →
    run (callStep throws fuel) s pre = some t → t.call throws fuel c = some (u, true) →
    u.call throws fuel c' = some (v, b) → (∃ r ∈ s.registered, r.serial ∉ u.started) →
    ∃ r ∈ s.registered, r.serial ∉ u.started ∧ r.serial ∈ v.started

/-- The tasks on the list and those that have been started make up `l`. -/
def Divides (l : List (Entry ρ α)) (s : AtexitStack ρ α) : Prop :=
  ∃ l₁ l₂, l = l₁ ++ l₂ ∧ Tasks s.heap s.pstack l₂ ∧ s.started = l₁.map fun e ↦ e.serial

/-- Where nothing throws, a call runs what is left. -/
theorem Divides.call (h : Divides l s) (hret : ∀ e ∈ l, throws e.serial = false)
    (hfuel : l.length < fuel) (c : ExecCall) :
    ∃ t, s.call throws fuel c = some (t, false) ∧ Divides l t := by
  obtain ⟨l₁, l₂, rfl, htasks, hstarted⟩ := h
  rw [List.length_append] at hfuel
  have hfuel' : l₂.length < fuel := by omega
  obtain ⟨t, ht, htasks', hstarted'⟩ :=
    call_of_returns htasks (fun e he ↦ hret e (List.mem_append_right _ he)) hfuel' c
  refine ⟨t, ht, l₁ ++ l₂, [], (List.append_nil _).symm, htasks', ?_⟩
  rw [hstarted', hstarted, List.map_append]

theorem Divides.run {calls : List ExecCall} (h : Divides l s)
    (hret : ∀ e ∈ l, throws e.serial = false) (hfuel : l.length < fuel)
    (hrun : run (callStep throws fuel) s calls = some t) : Divides l t := by
  refine run_invariant (fun u c v hu hstep ↦ ?_) h hrun
  obtain ⟨v', hv, hdivides⟩ := hu.call hret hfuel c
  rw [callStep, hv, Option.map_some] at hstep
  exact Option.some.inj hstep ▸ hdivides

/-- Nothing throws, and all goes well. -/
theorem execsWell_of_returns (h : Divides l s) (hnodup : (l.map fun e ↦ e.serial).Nodup)
    (hret : ∀ e ∈ l, throws e.serial = false) (hfuel : l.length < fuel) (calls : List ExecCall) :
    ExecsWell throws fuel s calls where
  once s' hrun := by
    obtain ⟨l₁, l₂, rfl, -, hstarted⟩ := h.run hret hfuel hrun
    rw [List.map_append] at hnodup
    exact hstarted ▸ (List.nodup_append.1 hnodup).1
  goes_on pre c c' post t u v b hcalls hrun hcall := by
    obtain ⟨u', hu', -⟩ := (h.run hret hfuel hrun).call hret hfuel c
    cases hu'.symm.trans hcall

/-- One call may end with an exception. -/
theorem execsWell_of_single (h : Tasks s.heap s.pstack l) (hs : s.started = [])
    (hnodup : (l.map fun e ↦ e.serial).Nodup) (hfuel : l.length < fuel) {calls : List ExecCall}
    (hcalls : calls.length ≤ 1) : ExecsWell throws fuel s calls where
  once s' hrun := by
    match calls, hcalls with
    | [], _ =>
      obtain rfl := Option.some.inj hrun
      exact hs ▸ List.nodup_nil
    | [c], _ =>
      obtain ⟨t, hstep, hlast⟩ := run_cons_eq_some.1 hrun
      obtain rfl := Option.some.inj hlast
      rcases exists_first_throw throws l with hret | ⟨l₁, e, l₂, rfl, hret, he⟩
      · obtain ⟨t', ht', -, hstarted⟩ := call_of_returns h hret hfuel c
        rw [callStep, ht', Option.map_some] at hstep
        rw [← Option.some.inj hstep, hstarted, hs]
        exact hnodup
      · rw [List.length_append] at hfuel
        have hfuel' : l₁.length < fuel := by omega
        obtain ⟨t', ht', -, hstarted⟩ := call_of_throws h hret he hfuel' c
        rw [callStep, ht', Option.map_some] at hstep
        rw [← Option.some.inj hstep, hstarted, hs, List.nil_append]
        rw [List.append_cons, List.map_append, List.map_append] at hnodup
        exact (List.nodup_append.1 hnodup).1
  goes_on pre c c' post t u v b hsplit := by
    rw [hsplit, List.length_append, List.length_cons, List.length_cons] at hcalls
    omega

/-- A second call starts the task again that has thrown in the first. -/
theorem not_execsWell_of_throws (h : Tasks s.heap s.pstack l) (hfuel : l.length < fuel)
    (hthrows : ∃ e ∈ l, throws e.serial = true) {calls : List ExecCall}
    (hcalls : 1 < calls.length) : ¬ ExecsWell throws fuel s calls := by
  intro hwell
  match calls, hcalls with
  | c :: c' :: calls, _ =>
    rcases exists_first_throw throws l with hret | ⟨l₁, e, l₂, rfl, hret, he⟩
    · obtain ⟨e, he, hethrows⟩ := hthrows
      exact Bool.false_ne_true ((hret e he).symm.trans hethrows)
    · rw [List.length_append, List.length_cons] at hfuel
      have hfuel₁ : l₁.length < fuel := by omega
      have hfuel₂ : (e :: l₂).length < fuel := by
        rw [List.length_cons]
        omega
      obtain ⟨t, ht, htasks, hstarted⟩ := call_of_throws h hret he hfuel₁ c
      have hfirst : Tasks t.heap t.pstack ([] ++ e :: l₂) := htasks
      obtain ⟨u, hu, hutasks, hustarted⟩ :=
        call_of_throws hfirst (fun e he ↦ absurd he List.not_mem_nil) he
          (Nat.zero_lt_of_lt hfuel₁) c'
      obtain ⟨s', hrun, hprefix⟩ := exists_run_calls hutasks hfuel₂ calls
      have hall : StepSystem.run (callStep throws fuel) s (c :: c' :: calls) = some s' :=
        run_cons_eq_some.2 ⟨t, by rw [callStep, ht, Option.map_some],
          run_cons_eq_some.2 ⟨u, by rw [callStep, hu, Option.map_some], hrun⟩⟩
      have hnodup := (hwell.once s' hall).sublist hprefix.sublist
      rw [hustarted, hstarted, List.map_nil, List.append_nil] at hnodup
      exact (List.nodup_append.1 hnodup).2.2 e.serial (by simp) e.serial (by simp) rfl

theorem nodup_serial_registrations (calls : List (AtexitCall ρ α)) :
    ((registrations calls).map Registration.serial).Nodup := by
  have hrange : (registrations calls).map Registration.serial =
      List.range (registrations calls).length := by
    refine List.ext_getElem (by simp) fun i hi _ ↦ ?_
    simp [registrations]
  exact hrange ▸ List.nodup_range

/-- **Every exit task is started at most once**, and a later call goes on behind a task that has
thrown, exactly if there is at most one call, or no task throws. -/
theorem execsWell_iff {isDl : Bool} {regs : List (AtexitCall ρ α)}
    (h : StepSystem.run atexitImpl (empty isDl) regs = some s) (hfuel : s.registered.length < fuel)
    (throws : ℕ → Bool) (calls : List ExecCall) :
    (∃ s', StepSystem.run (callStep throws fuel) s calls = some s') ∧
      (ExecsWell throws fuel s calls ↔
        calls.length ≤ 1 ∨ ∀ r ∈ s.registered, throws r.serial = false) := by
  obtain ⟨⟨l, htasks, -, hperm⟩, hreg, hlog⟩ := listed_of_run h
  have hfuel' : l.length < fuel := by rwa [← List.length_map Entry.toRegistration, hperm.length_eq]
  have hstarted : s.started = [] := by rw [started, hlog]; rfl
  have hnodup : (l.map fun e ↦ e.serial).Nodup := by
    have hserials := hperm.map Registration.serial
    rw [List.map_map, hreg] at hserials
    exact hserials.nodup_iff.2 (nodup_serial_registrations regs)
  have hthrows : (∀ r ∈ s.registered, throws r.serial = false) ↔
      ∀ e ∈ l, throws e.serial = false := by
    simp only [← hperm.mem_iff, List.forall_mem_map]
  obtain ⟨s', hrun, -⟩ : ∃ s', StepSystem.run (callStep throws fuel) s calls = some s' ∧
      s.started <+: s'.started := exists_run_calls htasks hfuel' calls
  refine ⟨⟨s', hrun⟩, ?_⟩
  rw [hthrows]
  constructor
  · intro hwell
    by_contra! hnot
    obtain ⟨hcalls, e, he, hethrows⟩ := hnot
    exact not_execsWell_of_throws htasks hfuel' ⟨e, he, by simpa using hethrows⟩ hcalls hwell
  · rintro (hcalls | hret)
    · exact execsWell_of_single htasks hstarted hnodup hfuel' hcalls
    · exact execsWell_of_returns ⟨[], l, rfl, htasks, hstarted⟩ hnodup hret hfuel' calls

/-- Three tasks that return, and two calls; and the same tasks, of which the second throws, and one
call. -/
theorem execsWell_three : ∃ s : AtexitStack ℕ ℕ,
    StepSystem.run atexitImpl (empty false) threeCalls = some s ∧
      ExecsWell (fun _ ↦ false) 4 s [.exec, .fini] ∧ ExecsWell (fun k ↦ k == 1) 4 s [.exec] := by
  obtain ⟨s, hrun, hfuel⟩ : ∃ s : AtexitStack ℕ ℕ,
      StepSystem.run atexitImpl (empty false) threeCalls = some s ∧ s.registered.length < 4 :=
    ⟨_, rfl, by decide⟩
  exact ⟨s, hrun, (execsWell_iff hrun hfuel (fun _ ↦ false) _).2.2 (.inr fun _ _ ↦ rfl),
    (execsWell_iff hrun hfuel (fun k ↦ k == 1) [.exec]).2.2 (.inl (Nat.le_refl 1))⟩

/-- **A task that throws** is started a second time by `runtime::fini`. -/
theorem throwing_task_started_twice : ¬ ∀ (isDl : Bool) (regs : List (AtexitCall ℕ ℕ))
    (s : AtexitStack ℕ ℕ) (fuel : ℕ) (throws : ℕ → Bool) (calls : List ExecCall),
    StepSystem.run atexitImpl (empty isDl) regs = some s → s.registered.length < fuel →
      ExecsWell throws fuel s calls := by
  intro hall
  obtain ⟨s, s', hrun, hfuel, hcalls, htwice⟩ : ∃ s s' : AtexitStack ℕ ℕ,
      StepSystem.run atexitImpl (empty false) [⟨some 8, 0, 10, 0⟩] = some s ∧
      s.registered.length < 2 ∧
      StepSystem.run (callStep (fun _ ↦ true) 2) s [.exec, .fini] = some s' ∧
      s'.started = [0, 0] := ⟨_, _, rfl, by decide, rfl, rfl⟩
  have hnodup := (hall false _ s 2 _ _ hrun hfuel).once s' hcalls
  exact absurd (htwice ▸ hnodup) (by decide)

end AtexitStack

end Libk2
