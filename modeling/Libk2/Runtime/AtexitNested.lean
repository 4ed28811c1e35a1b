import Libk2.Runtime.AtexitOrder

/-!
# Exit tasks that register exit tasks

`exec` with the routines it calls as part of the system: while one runs it may call `atexit` any
number of times, and it may end with an exception. `ExitSys` is the stack together with where `exec`
stands — not running, between two iterations, or inside the routine of the task at `pstack` with the
link it saved — and a step is one call of `atexit`, one half of an iteration, or the entry or exit
of `exec`. What the routines do is the choice of the steps, so the runs of the system are the runs
of every program of routines; the plain `exec` is one of them (`run_of_exec`).

`exec` looks at the list twice, before and after the routine, and `push` may have changed it in
between. So the list is carried in two parts (`Shape`): `pre` up to the saved link, `post` from it
on. A task that `push` puts into `post` is run later. One that it puts into `pre` is out of reach:
`exec` deletes the head of `pre`, whatever that is by then, and goes on with `post`. `Moves` says
this once, as what each step does to the two parts, and both directions of
`every_task_runs_once_iff` are invariants read off it: `Exact` while every task lands in `post`, and
`Spoilt` from the first step on that goes wrong. Even then `exec` reads only tasks that exist
(`exec_not_stuck`).
-/

namespace Libk2

open StepSystem

variable {ρ α : Type*}

/-! ### The system -/

/-- Where `exec` stands. -/
inductive ExecControl where
  | idle
  | loop
  | routine (pnext : ℕ)
deriving DecidableEq

/-- The exit tasks and the `exec` that is running them, if one is. -/
structure ExitSys (ρ α : Type*) where
  stack : AtexitStack ρ α
  control : ExecControl

/-- What can happen: a call of `atexit`, the start of `exec`, the call of a routine, its return or
exception, the end of `exec`. -/
inductive ExitOp (ρ α : Type*) where
  | atexit (c : AtexitCall ρ α)
  | enter
  | call
  | ret
  | throw
  | leave

/-- The events of a task's run and of its deletion. -/
def Registration.ranEvent (r : Registration ρ α) : ExitEvent ρ α := .ran r.serial r.routine r.arg

def Registration.deletedEvent (r : Registration ρ α) : ExitEvent ρ α := .deleted r.serial

namespace ExitEvent

def serial : ExitEvent ρ α → ℕ
  | ran k _ _ => k
  | deleted k => k

def isRan : ExitEvent ρ α → Bool
  | ran _ _ _ => true
  | deleted _ => false

def isDeleted : ExitEvent ρ α → Bool
  | ran _ _ _ => false
  | deleted _ => true

end ExitEvent

namespace ExitSys

/-- Before any registration. -/
def start (isDl : Bool) : ExitSys ρ α := ⟨AtexitStack.empty isDl, .idle⟩

/-- One step. User code runs outside `exec` and inside the routines `exec` calls. -/
def step (s : ExitSys ρ α) : ExitOp ρ α → Option (ExitSys ρ α)
  | .atexit c =>
    if s.control = .loop then none
    else (s.stack.atexitImpl c).map fun stack ↦ { s with stack := stack }
  | .enter => if s.control = .idle then some { s with control := .loop } else none
  | .call =>
    if s.control = .loop ∧ s.stack.pstack ≠ 0 then
      s.stack.execCall.map fun r ↦ ⟨r.2, .routine r.1⟩
    else none
  | .ret =>
    match s.control with
    | .routine pnext => (s.stack.execReturn pnext).map fun stack ↦ ⟨stack, .loop⟩
    | _ => none
  | .throw =>
    match s.control with
    | .routine _ => some { s with control := .idle }
    | _ => none
  | .leave =>
    if s.control = .loop ∧ s.stack.pstack = 0 then some { s with control := .idle } else none

/-- **The condition.** No routine ends with an exception, and a task registered while one runs is of
lower priority than the task at the link `exec` has saved, which is not null. -/
def RegistersBehind (s : ExitSys ρ α) : ExitOp ρ α → Prop
  | .atexit c => ∀ pnext, s.control = .routine pnext → c.newTask.isSome →
      pnext ≠ 0 ∧ ∃ t, s.stack.heap pnext = some t ∧ c.prio < t.prio
  | .throw => False
  | _ => True

/-- The iterations of an `exec` whose routines register nothing. -/
def iterations (n : ℕ) : List (ExitOp ρ α) := (List.replicate n [.call, .ret]).flatten

/-- `AtexitStack.exec` is a run of the system: routine by routine, to the end of the list. -/
theorem run_of_exec {fuel : ℕ} {s t : AtexitStack ρ α} (h : AtexitStack.exec fuel s = some t) :
    t.pstack = 0 ∧ ∃ n, run step ⟨s, .loop⟩ (iterations n) = some ⟨t, .loop⟩ := by
  induction fuel generalizing s with
  | zero => cases h
  | succ fuel ih =>
    rw [AtexitStack.exec] at h
    split at h
    · next hp =>
      obtain rfl := Option.some.inj h
      exact ⟨hp, 0, rfl⟩
    · next hp =>
      obtain ⟨r, hcall, h⟩ := Option.bind_eq_some_iff.1 h
      obtain ⟨u, hreturn, h⟩ := Option.bind_eq_some_iff.1 h
      obtain ⟨ht, n, hn⟩ := ih h
      have hcall' : step ⟨s, .loop⟩ .call = some ⟨r.2, .routine r.1⟩ := by
        simp [step, hp, hcall]
      have hreturn' : step ⟨r.2, .routine r.1⟩ .ret = some ⟨u, .loop⟩ := by
        simp [step, hreturn]
      refine ⟨ht, n + 1, ?_⟩
      rw [iterations, List.replicate_succ, List.flatten_cons]
      exact run_cons_eq_some.2 ⟨_, hcall', run_cons_eq_some.2 ⟨_, hreturn', hn⟩⟩

/-! ### The two parts of the list -/

/-- The part up to the saved link: it holds the running task, which is on record as called. -/
def Position (s : ExitSys ρ α) (pre post : List (Entry ρ α)) : Prop :=
  match s.control with
  | .routine pnext => pnext = headAddr post ∧ ∃ e ∈ pre, e.ranEvent ∈ s.stack.log
  | _ => pre = []

/-- The list, in order, as the part up to the link `exec` has saved and the part from it on. -/
structure Shape (s : ExitSys ρ α) (pre post : List (Entry ρ α)) : Prop where
  tasks : Tasks s.stack.heap s.stack.pstack (pre ++ post)
  ordered : Ordered (pre ++ post)
  registered : ∀ e ∈ pre ++ post, e.toRegistration ∈ s.stack.registered
  numbered : s.stack.registered.map Registration.serial = List.range s.stack.registered.length
  logged : ∀ x ∈ s.stack.log, x.serial < s.stack.registered.length
  position : s.Position pre post

namespace Shape

variable {s : ExitSys ρ α} {pre post : List (Entry ρ α)}

theorem serial_lt (h : s.Shape pre post) {r : Registration ρ α} (hr : r ∈ s.stack.registered) :
    r.serial < s.stack.registered.length := by
  have hmem : r.serial ∈ s.stack.registered.map Registration.serial := List.mem_map_of_mem hr
  rwa [h.numbered, List.mem_range] at hmem

theorem length_le (h : s.Shape pre post) : (pre ++ post).length ≤ s.stack.registered.length := by
  have hnodup : ((pre ++ post).map Entry.toRegistration).Nodup := by
    refine List.pairwise_map.2 (h.ordered.imp fun hxy heq ↦ ?_)
    rw [heq] at hxy
    rcases hxy with hlt | ⟨-, hlt⟩ <;> exact lt_irrefl _ hlt
  have hsub : (pre ++ post).map Entry.toRegistration ⊆ s.stack.registered := by
    intro r hr
    obtain ⟨e, he, rfl⟩ := List.mem_map.1 hr
    exact h.registered e he
  exact (List.length_map Entry.toRegistration).symm.trans_le
    (List.subperm_of_subset hnodup hsub).length_le

/-- The condition, read off the second part: its first task outranks the new one. -/
theorem registersBehind_iff (h : s.Shape pre post) {pnext ptask : ℕ} {c : AtexitCall ρ α}
    (hcontrol : s.control = .routine pnext) (hc : c.newTask = some ptask) :
    s.RegistersBehind (.atexit c) ↔ ∃ x l, post = x :: l ∧ c.prio < x.prio := by
  have hpos := h.position
  rw [Position, hcontrol] at hpos
  have htasks : Tasks s.stack.heap pnext post := hpos.1 ▸ h.tasks.append_right
  constructor
  · intro hG
    obtain ⟨hpnext, t, ht, hprio⟩ := hG pnext hcontrol (by rw [hc]; rfl)
    obtain ⟨x, l, rfl, rfl⟩ := htasks.exists_cons hpnext
    obtain ⟨-, -, q, hq, -⟩ := Tasks.cons_iff.1 htasks
    obtain rfl : x.task q = t := Option.some.inj (hq.symm.trans ht)
    exact ⟨x, l, rfl, hprio⟩
  · rintro ⟨x, l, rfl, hprio⟩ pnext' hcontrol' -
    obtain ⟨hx, hx0, q, hq, -⟩ := Tasks.cons_iff.1 htasks
    obtain rfl : pnext = pnext' := ExecControl.routine.inj (hcontrol.symm.trans hcontrol')
    exact ⟨hx ▸ hx0, x.task q, hx ▸ hq, hprio⟩

end Shape

/-- A task of no lower priority than the first one of the second part stays in front of it. -/
theorem insertTask_of_post {e : Entry ρ α} {pre post : List (Entry ρ α)}
    (h : ∀ x ∈ post.head?, x.prio ≤ e.prio) :
    insertTask e (pre ++ post) = insertTask e pre ++ post := by
  induction pre with
  | nil => exact insertTask_of_head_le h
  | cons b pre ih =>
    by_cases hprio : b.prio ≤ e.prio
    · rw [List.cons_append, insertTask_front hprio, insertTask_front hprio, List.cons_append,
        List.cons_append]
    · rw [List.cons_append, insertTask_cons (not_le.1 hprio), insertTask_cons (not_le.1 hprio), ih,
        List.cons_append]

/-- A task of lower priority than the first one of the second part goes behind it. -/
theorem insertTask_of_pre {e x : Entry ρ α} {pre l : List (Entry ρ α)}
    (h : Ordered (pre ++ x :: l)) (hx : e.prio < x.prio) :
    insertTask e (pre ++ x :: l) = pre ++ insertTask e (x :: l) ∧
      headAddr (insertTask e (x :: l)) = headAddr (x :: l) := by
  constructor
  · refine insertTask_append fun b hb ↦ hx.trans_le ?_
    exact ((List.pairwise_append.1 h).2.2 b hb x List.mem_cons_self).prio_le
  · rw [insertTask_cons hx]
    rfl

/-! ### What a step does to the two parts -/

/-- The moves: what a step does to the two parts, to the registrations and to the log. -/
inductive Moves (s t : ExitSys ρ α) :
    ExitOp ρ α → (pre post pre' post' : List (Entry ρ α)) → Prop
  | none {op : ExitOp ρ α} {pre post : List (Entry ρ α)} (hop : s.RegistersBehind op)
      (hreg : t.stack.registered = s.stack.registered) (hlog : t.stack.log = s.stack.log) :
      Moves s t op pre post pre post
  | behind {c : AtexitCall ρ α} {e : Entry ρ α} {pre post : List (Entry ρ α)}
      (hop : s.RegistersBehind (.atexit c)) (hserial : e.serial = s.stack.registered.length)
      (hreg : t.stack.registered = s.stack.registered ++ [e.toRegistration])
      (hlog : t.stack.log = s.stack.log) :
      Moves s t (.atexit c) pre post pre (insertTask e post)
  | before {c : AtexitCall ρ α} {e : Entry ρ α} {pre post : List (Entry ρ α)}
      (hop : ¬ s.RegistersBehind (.atexit c)) (hserial : e.serial = s.stack.registered.length)
      (hreg : t.stack.registered = s.stack.registered ++ [e.toRegistration])
      (hlog : t.stack.log = s.stack.log) :
      Moves s t (.atexit c) pre post (insertTask e pre) post
  | called {e : Entry ρ α} {post : List (Entry ρ α)}
      (hreg : t.stack.registered = s.stack.registered)
      (hlog : t.stack.log = s.stack.log ++ [e.ranEvent]) :
      Moves s t .call [] (e :: post) [e] post
  | returned {e : Entry ρ α} {pre post : List (Entry ρ α)}
      (hreg : t.stack.registered = s.stack.registered)
      (hlog : t.stack.log = s.stack.log ++ [e.deletedEvent]) :
      Moves s t .ret (e :: pre) post [] post
  | thrown {e : Entry ρ α} {pre post : List (Entry ρ α)} (he : e ∈ pre)
      (hran : e.ranEvent ∈ s.stack.log) (hreg : t.stack.registered = s.stack.registered)
      (hlog : t.stack.log = s.stack.log) :
      Moves s t .throw pre post [] (pre ++ post)

/-- A registration keeps what `Shape` says about the list, whatever part the new task goes to. -/
theorem Shape.afterAtexit {s t : ExitSys ρ α} {pre post pre' post' : List (Entry ρ α)}
    (h : s.Shape pre post) {e : Entry ρ α} (hserial : e.serial = s.stack.registered.length)
    (hreg : t.stack.registered = s.stack.registered ++ [e.toRegistration])
    (hlog : t.stack.log = s.stack.log)
    (htasks : Tasks t.stack.heap t.stack.pstack (pre' ++ post'))
    (hlist : pre' ++ post' = insertTask e (pre ++ post)) (hpos : t.Position pre' post') :
    t.Shape pre' post' where
  tasks := htasks
  ordered := hlist ▸ h.ordered.insertTask fun x hx ↦
    (h.serial_lt (h.registered x hx)).trans_eq hserial.symm
  registered x hx := by
    rw [hreg]
    rw [hlist] at hx
    rcases List.mem_cons.1 ((perm_insertTask e _).mem_iff.1 hx) with rfl | hx
    · exact List.mem_append_right _ (List.mem_singleton_self _)
    · exact List.mem_append_left _ (h.registered x hx)
  numbered := by
    rw [hreg, List.map_append, h.numbered, List.length_append, List.map_singleton, hserial]
    exact List.range_succ.symm
  logged x hx := by
    rw [hreg, List.length_append]
    exact (h.logged x (hlog ▸ hx)).trans_le (Nat.le_add_right _ _)
  position := hpos

/-- A registration that goes through puts its task in one of the two parts. -/
theorem moves_atexit {s t : ExitSys ρ α} {pre post : List (Entry ρ α)} {c : AtexitCall ρ α}
    (h : s.Shape pre post) (hstep : s.step (.atexit c) = some t) :
    ∃ pre' post', t.Shape pre' post' ∧ Moves s t (.atexit c) pre post pre' post' := by
  obtain ⟨hloop, hstep⟩ := Option.ite_none_left_eq_some.1 hstep
  obtain ⟨stack, hstack, ht⟩ := Option.map_eq_some_iff.1 hstep
  have htcontrol : t.control = s.control := by rw [← ht]
  have htstack : stack = t.stack := by rw [← ht]
  subst htstack
  cases hc : c.newTask with
  | none =>
    rw [AtexitStack.atexitImpl, hc] at hstack
    rw [← Option.some.inj hstack] at ht
    subst ht
    refine ⟨pre, post, h, .none (fun _ _ hsome ↦ ?_) rfl rfl⟩
    rw [hc] at hsome
    cases hsome
  | some ptask =>
    obtain ⟨h0, hfresh⟩ := AtexitStack.fresh_of_atexitImpl hstack hc
    obtain ⟨stack, hstack', hlog, hreg, htasks⟩ :=
      AtexitStack.tasks_atexitImpl h.tasks hc hfresh h0 h.length_le
    obtain rfl := Option.some.inj (hstack'.symm.trans hstack)
    have hposition := h.position
    cases hcontrol : s.control with
    | idle =>
      -- outside `exec` there is no saved link, and the whole list is the second part
      rw [Position, hcontrol] at hposition
      subst hposition
      refine ⟨[], _, h.afterAtexit rfl hreg hlog htasks rfl ?_,
        .behind (fun pnext hroutine ↦ ?_) rfl hreg hlog⟩
      · rw [Position, htcontrol, hcontrol]
      · rw [hcontrol] at hroutine
        cases hroutine
    | loop => exact absurd hcontrol hloop
    | routine pnext =>
      have hbehind := h.registersBehind_iff hcontrol hc
      rw [Position, hcontrol] at hposition
      obtain ⟨hpnext, e, he, hran⟩ := hposition
      by_cases hG : s.RegistersBehind (.atexit c)
      · -- the first task behind the saved link outranks the new one, which goes behind it
        obtain ⟨x, l, rfl, hprio⟩ := hbehind.1 hG
        obtain ⟨hinsert, hhead⟩ :=
          insertTask_of_pre (e := s.stack.entryOf ptask c) h.ordered hprio
        rw [hinsert] at htasks
        refine ⟨pre, _, h.afterAtexit rfl hreg hlog htasks hinsert.symm ?_,
          .behind hG rfl hreg hlog⟩
        rw [Position, htcontrol, hcontrol]
        exact ⟨hpnext.trans hhead.symm, e, he, hlog.symm ▸ hran⟩
      · -- the new task does not get past the saved link
        have hinsert : insertTask (s.stack.entryOf ptask c) (pre ++ post) =
            insertTask (s.stack.entryOf ptask c) pre ++ post := by
          refine insertTask_of_post fun x hx ↦ not_lt.1 fun hlt ↦ hG (hbehind.2 ?_)
          obtain ⟨l, rfl⟩ := List.head?_eq_some_iff.1 hx
          exact ⟨x, l, rfl, hlt⟩
        rw [hinsert] at htasks
        refine ⟨_, post, h.afterAtexit rfl hreg hlog htasks hinsert.symm ?_,
          .before hG rfl hreg hlog⟩
        rw [Position, htcontrol, hcontrol]
        refine ⟨hpnext, e, (perm_insertTask _ pre).mem_iff.2 (List.mem_cons_of_mem _ he), ?_⟩
        exact hlog.symm ▸ hran

/-- The call of a routine: the head of the list becomes the first part. -/
theorem moves_call {s t : ExitSys ρ α} {pre post : List (Entry ρ α)} (h : s.Shape pre post)
    (hstep : s.step .call = some t) :
    ∃ pre' post', t.Shape pre' post' ∧ Moves s t .call pre post pre' post' := by
  obtain ⟨⟨hloop, hp⟩, hstep⟩ := Option.ite_none_right_eq_some.1 hstep
  obtain ⟨r, hcall, rfl⟩ := Option.map_eq_some_iff.1 hstep
  have hpre := h.position
  rw [Position, hloop] at hpre
  subst hpre
  obtain ⟨e, post, rfl, -⟩ := h.tasks.exists_cons hp
  obtain ⟨q, -, hcall', -, htail⟩ := AtexitStack.tasks_iteration h.tasks
  obtain rfl := Option.some.inj (hcall'.symm.trans hcall)
  obtain ⟨-, -, r, hr, hpost⟩ := Tasks.cons_iff.1 h.tasks
  refine ⟨[e], post, ⟨h.tasks, h.ordered, h.registered, h.numbered, fun x hx ↦ ?_, ?_⟩,
    .called rfl rfl⟩
  · rcases List.mem_append.1 hx with hx | hx
    · exact h.logged x hx
    · obtain rfl := List.mem_singleton.1 hx
      exact h.serial_lt (h.registered e List.mem_cons_self)
  · exact ⟨htail.eq_headAddr, e, List.mem_singleton_self e,
      List.mem_append_right _ (List.mem_singleton_self _)⟩

/-- The return of a routine: the head of the first part is deleted, and the first part is gone. -/
theorem moves_ret {s t : ExitSys ρ α} {pre post : List (Entry ρ α)} (h : s.Shape pre post)
    (hstep : s.step .ret = some t) :
    ∃ pre' post', t.Shape pre' post' ∧ Moves s t .ret pre post pre' post' := by
  have hposition := h.position
  cases hcontrol : s.control with
  | idle => simp [step, hcontrol] at hstep
  | loop => simp [step, hcontrol] at hstep
  | routine pnext =>
    simp only [step, hcontrol] at hstep
    obtain ⟨stack, hreturn, rfl⟩ := Option.map_eq_some_iff.1 hstep
    rw [Position, hcontrol] at hposition
    obtain ⟨rfl, running, hmem, -⟩ := hposition
    obtain ⟨e, pre, rfl⟩ := List.exists_cons_of_ne_nil (List.ne_nil_of_mem hmem)
    obtain ⟨hp, he0, q, hq, htail⟩ := Tasks.cons_iff.1 h.tasks
    rw [AtexitStack.execReturn, hp, hq] at hreturn
    obtain rfl := Option.some.inj hreturn
    have hnodup := h.tasks.nodup_addr
    rw [List.cons_append, List.map_cons, List.nodup_cons] at hnodup
    refine ⟨[], post, ⟨htail.append_right.congr fun x hx ↦ ?_, ?_, fun x hx ↦ ?_, h.numbered,
      fun x hx ↦ ?_, rfl⟩, .returned rfl rfl⟩
    · refine Function.update_of_ne (fun hxe ↦ hnodup.1 ?_) _ _
      exact hxe ▸ List.mem_map_of_mem (List.mem_append_right _ hx)
    · exact h.ordered.sublist (List.sublist_append_right _ _)
    · exact h.registered x (List.mem_append_right _ hx)
    · rcases List.mem_append.1 hx with hx | hx
      · exact h.logged x hx
      · obtain rfl := List.mem_singleton.1 hx
        exact h.serial_lt (h.registered e List.mem_cons_self)

/-- An exception: the list is whole again, with the running task still on it. -/
theorem moves_throw {s t : ExitSys ρ α} {pre post : List (Entry ρ α)} (h : s.Shape pre post)
    (hstep : s.step .throw = some t) :
    ∃ pre' post', t.Shape pre' post' ∧ Moves s t .throw pre post pre' post' := by
  have hposition := h.position
  cases hcontrol : s.control with
  | idle => simp [step, hcontrol] at hstep
  | loop => simp [step, hcontrol] at hstep
  | routine pnext =>
    simp only [step, hcontrol, Option.some.injEq] at hstep
    subst hstep
    rw [Position, hcontrol] at hposition
    obtain ⟨-, e, he, hran⟩ := hposition
    exact ⟨[], pre ++ post, ⟨h.tasks, h.ordered, h.registered, h.numbered, h.logged, rfl⟩,
      .thrown he hran rfl rfl⟩

/-- **What a step does.** Every step from a state of this shape leads to another, by a move. -/
theorem shape_step {s t : ExitSys ρ α} {op : ExitOp ρ α} {pre post : List (Entry ρ α)}
    (h : s.Shape pre post) (hstep : s.step op = some t) :
    ∃ pre' post', t.Shape pre' post' ∧ Moves s t op pre post pre' post' := by
  cases op with
  | atexit c => exact moves_atexit h hstep
  | call => exact moves_call h hstep
  | ret => exact moves_ret h hstep
  | throw => exact moves_throw h hstep
  | enter =>
    obtain ⟨hidle, ⟨⟩⟩ := Option.ite_none_right_eq_some.1 hstep
    have hpre := h.position
    rw [Position, hidle] at hpre
    exact ⟨pre, post, ⟨h.tasks, h.ordered, h.registered, h.numbered, h.logged, hpre⟩,
      .none trivial rfl rfl⟩
  | leave =>
    obtain ⟨⟨hloop, -⟩, ⟨⟩⟩ := Option.ite_none_right_eq_some.1 hstep
    have hpre := h.position
    rw [Position, hloop] at hpre
    exact ⟨pre, post, ⟨h.tasks, h.ordered, h.registered, h.numbered, h.logged, hpre⟩,
      .none trivial rfl rfl⟩

theorem shape_start (isDl : Bool) : (start isDl : ExitSys ρ α).Shape [] [] where
  tasks := Tasks.nil
  ordered := List.Pairwise.nil
  registered _ h := absurd h List.not_mem_nil
  numbered := rfl
  logged _ h := absurd h List.not_mem_nil
  position := rfl

/-- The list is in two parts, of which `P` holds. -/
def InParts (P : ExitSys ρ α → List (Entry ρ α) → List (Entry ρ α) → Prop) (s : ExitSys ρ α) :
    Prop :=
  ∃ pre post, s.Shape pre post ∧ P s pre post

/-- **The invariant rule for the two parts.** What every move of a step meeting `G` preserves holds
at the end of a run whose steps meet `G`. -/
theorem InParts.run {P : ExitSys ρ α → List (Entry ρ α) → List (Entry ρ α) → Prop}
    {G : ExitSys ρ α → ExitOp ρ α → Prop}
    (hP : ∀ s t op pre post pre' post', s.Shape pre post → P s pre post → G s op →
      Moves s t op pre post pre' post' → P t pre' post')
    {s t : ExitSys ρ α} {ops : List (ExitOp ρ α)} (h : s.InParts P) (hG : EveryStep step G s ops)
    (hrun : run step s ops = some t) : t.InParts P := by
  refine run_invariant_of_everyStep (fun u op v hu hop hstep ↦ ?_) h hG hrun
  obtain ⟨pre, post, hshape, hp⟩ := hu
  obtain ⟨pre', post', hshape', hmove⟩ := shape_step hshape hstep
  exact ⟨pre', post', hshape', hP u v op pre post pre' post' hshape hp hop hmove⟩

/-- Every state a run reaches has its list in two parts. -/
theorem inParts_of_run {isDl : Bool} {ops : List (ExitOp ρ α)} {s : ExitSys ρ α}
    (h : run step (start isDl) ops = some s) : ∃ pre post, s.Shape pre post := by
  have hparts : s.InParts fun _ _ _ ↦ True :=
    InParts.run (fun _ _ _ _ _ _ _ _ _ _ _ ↦ trivial) ⟨[], [], shape_start isDl, trivial⟩
      (everyStep_of_forall_mem fun _ _ ↦ trivial) h
  obtain ⟨pre, post, hshape, -⟩ := hparts
  exact ⟨pre, post, hshape⟩

/-- **`exec` is never stuck**, wherever the registrations of its routines have landed: between two
iterations it calls a routine or is through, a routine may return to it, and `atexit` goes through
with a fresh task. No step reads through null or a deleted task. -/
theorem exec_not_stuck {isDl : Bool} {ops : List (ExitOp ρ α)} {s : ExitSys ρ α}
    (h : run step (start isDl) ops = some s) :
    (s.control = .loop → (∃ t, s.step .call = some t) ∨ ∃ t, s.step .leave = some t) ∧
      (∀ pnext, s.control = .routine pnext → ∃ t, s.step .ret = some t) ∧
      ∀ c ptask, s.control ≠ .loop → c.newTask = some ptask → ptask ≠ 0 →
        s.stack.heap ptask = none → ∃ t, s.step (.atexit c) = some t := by
  obtain ⟨pre, post, hshape⟩ := inParts_of_run h
  have hposition := hshape.position
  refine ⟨fun hloop ↦ ?_, fun pnext hroutine ↦ ?_, fun c ptask hloop hc h0 hfresh ↦ ?_⟩
  · by_cases hp : s.stack.pstack = 0
    · exact .inr ⟨_, if_pos ⟨hloop, hp⟩⟩
    · rw [Position, hloop] at hposition
      subst hposition
      obtain ⟨e, post, rfl, -⟩ := hshape.tasks.exists_cons hp
      obtain ⟨q, -, hcall, -⟩ := AtexitStack.tasks_iteration hshape.tasks
      exact .inl ⟨_, by rw [step, if_pos ⟨hloop, hp⟩, hcall, Option.map_some]⟩
  · rw [Position, hroutine] at hposition
    obtain ⟨-, running, hmem, -⟩ := hposition
    obtain ⟨e, pre, rfl⟩ := List.exists_cons_of_ne_nil (List.ne_nil_of_mem hmem)
    obtain ⟨hp, -, q, hq, -⟩ := Tasks.cons_iff.1 hshape.tasks
    obtain ⟨stack, hreturn⟩ : ∃ stack, s.stack.execReturn pnext = some stack :=
      ⟨_, by rw [AtexitStack.execReturn, hp, hq, Option.map_some]⟩
    exact ⟨⟨stack, .loop⟩, by simp only [step, hroutine, hreturn, Option.map_some]⟩
  · obtain ⟨stack, hstack, -⟩ :=
      AtexitStack.tasks_atexitImpl hshape.tasks hc hfresh h0 hshape.length_le
    exact ⟨_, by rw [step, if_neg hloop, hstack, Option.map_some]⟩

/-! ### Every task exactly once, or never again -/

/-- The events of a kind in the log, with those the list `l` still owes, are those of the
registrations. -/
def Accounts (s : ExitSys ρ α) (kind : ExitEvent ρ α → Bool)
    (event : Registration ρ α → ExitEvent ρ α) (l : List (Entry ρ α)) : Prop :=
  (s.stack.log.filter kind ++ l.map fun e ↦ event e.toRegistration).Perm
    (s.stack.registered.map event)

/-- The books while all goes well: the second part is to be run, both parts are to be deleted, and
the first part is the running task at most. -/
structure Exact (s : ExitSys ρ α) (pre post : List (Entry ρ α)) : Prop where
  ran : s.Accounts ExitEvent.isRan Registration.ranEvent post
  deleted : s.Accounts ExitEvent.isDeleted Registration.deletedEvent (pre ++ post)
  running : pre.length ≤ 1

/-- The books once something has gone wrong: a task can no longer be run, or has been run and will
be run again, or has been run twice. -/
def Spoilt (s : ExitSys ρ α) (post : List (Entry ρ α)) : Prop :=
  (∃ r ∈ s.stack.registered, r.ranEvent ∉ s.stack.log ∧ ∀ e ∈ post, e.serial ≠ r.serial) ∨
    (∃ e ∈ post, e.ranEvent ∈ s.stack.log) ∨ ¬ (s.stack.log.filter ExitEvent.isRan).Nodup

/-- A new task that is owed its event keeps the books. -/
theorem Accounts.insert {s t : ExitSys ρ α} {kind : ExitEvent ρ α → Bool}
    {event : Registration ρ α → ExitEvent ρ α} {l l' : List (Entry ρ α)} {e : Entry ρ α}
    (h : s.Accounts kind event l)
    (hreg : t.stack.registered = s.stack.registered ++ [e.toRegistration])
    (hlog : t.stack.log = s.stack.log) (hl : l'.Perm (e :: l)) : t.Accounts kind event l' := by
  rw [Accounts, hreg, hlog, List.map_append]
  refine ((hl.map _).append_left _).trans ?_
  rw [List.map_cons]
  exact List.perm_middle.trans ((List.perm_append_singleton _ _).symm.trans (h.append_right _))

/-- The event of the first task owed one settles that task's account. -/
theorem Accounts.settle {s t : ExitSys ρ α} {kind : ExitEvent ρ α → Bool}
    {event : Registration ρ α → ExitEvent ρ α} {l : List (Entry ρ α)} {e : Entry ρ α}
    (h : s.Accounts kind event (e :: l)) (hkind : kind (event e.toRegistration) = true)
    (hreg : t.stack.registered = s.stack.registered)
    (hlog : t.stack.log = s.stack.log ++ [event e.toRegistration]) : t.Accounts kind event l := by
  rw [Accounts, hreg, hlog, List.filter_append, List.filter_singleton, hkind, cond_true,
    List.append_assoc]
  exact h

/-- An event of another kind settles nothing. -/
theorem Accounts.skip {s t : ExitSys ρ α} {kind : ExitEvent ρ α → Bool}
    {event : Registration ρ α → ExitEvent ρ α} {l : List (Entry ρ α)} {x : ExitEvent ρ α}
    (h : s.Accounts kind event l) (hkind : kind x = false)
    (hreg : t.stack.registered = s.stack.registered) (hlog : t.stack.log = s.stack.log ++ [x]) :
    t.Accounts kind event l := by
  rw [Accounts, hreg, hlog, List.filter_append, List.filter_singleton, hkind, cond_false,
    List.append_nil]
  exact h

theorem Exact.move {s t : ExitSys ρ α} {op : ExitOp ρ α} {pre post pre' post' : List (Entry ρ α)}
    (h : s.Exact pre post) (hop : s.RegistersBehind op) (hmove : Moves s t op pre post pre' post') :
    t.Exact pre' post' := by
  obtain ⟨hran, hdeleted, hrunning⟩ := h
  cases hmove with
  | none _ hreg hlog =>
    exact ⟨by rwa [Accounts, hreg, hlog], by rwa [Accounts, hreg, hlog], hrunning⟩
  | behind _ _ hreg hlog =>
    refine ⟨hran.insert hreg hlog (perm_insertTask _ post), hdeleted.insert hreg hlog ?_, hrunning⟩
    exact ((perm_insertTask _ post).append_left pre).trans List.perm_middle
  | before hnot => exact absurd hop hnot
  | called hreg hlog =>
    exact ⟨hran.settle rfl hreg hlog, hdeleted.skip rfl hreg hlog, Nat.le_refl 1⟩
  | returned hreg hlog =>
    obtain rfl : _ = [] :=
      List.length_eq_zero_iff.1 (Nat.le_zero.1 (Nat.le_of_succ_le_succ hrunning))
    exact ⟨hran.skip rfl hreg hlog, hdeleted.settle rfl hreg hlog, Nat.zero_le 1⟩
  | thrown => exact hop.elim

/-- What is spoilt stays spoilt. -/
theorem Spoilt.move {s t : ExitSys ρ α} {op : ExitOp ρ α} {pre post pre' post' : List (Entry ρ α)}
    (hshape : s.Shape pre post) (h : s.Spoilt post) (hmove : Moves s t op pre post pre' post') :
    t.Spoilt post' := by
  cases hmove with
  | none _ hreg hlog => rwa [Spoilt, hreg, hlog]
  | @behind _ e _ _ _ hserial hreg hlog =>
    rw [Spoilt, hreg, hlog]
    rcases h with ⟨r, hr, hnot, hpost⟩ | ⟨x, hx, hran⟩ | htwice
    · refine .inl ⟨r, List.mem_append_left _ hr, hnot, fun x hx ↦ ?_⟩
      rcases List.mem_cons.1 ((perm_insertTask _ post).mem_iff.1 hx) with rfl | hx
      · exact hserial.trans_ne (hshape.serial_lt hr).ne'
      · exact hpost x hx
    · exact .inr (.inl ⟨x, (perm_insertTask _ post).mem_iff.2 (List.mem_cons_of_mem _ hx), hran⟩)
    · exact .inr (.inr htwice)
  | before _ _ hreg hlog =>
    rw [Spoilt, hreg, hlog]
    exact h.imp_left fun ⟨r, hr, hlost⟩ ↦ ⟨r, List.mem_append_left _ hr, hlost⟩
  | @called e _ hreg hlog =>
    rw [Spoilt, hreg, hlog, List.filter_append]
    rcases h with ⟨r, hr, hnot, hpost⟩ | ⟨x, hx, hran⟩ | htwice
    · refine .inl ⟨r, hr, fun hmem ↦ ?_, fun x hx ↦ hpost x (List.mem_cons_of_mem _ hx)⟩
      rcases List.mem_append.1 hmem with hmem | hmem
      · exact hnot hmem
      · exact hpost e List.mem_cons_self
          (congrArg ExitEvent.serial (List.mem_singleton.1 hmem)).symm
    · rcases List.mem_cons.1 hx with rfl | hx
      · -- the task is called a second time
        refine .inr (.inr fun hnodup ↦ ?_)
        exact (List.nodup_append.1 hnodup).2.2 _ (List.mem_filter.2 ⟨hran, rfl⟩) _
          (List.mem_filter.2 ⟨List.mem_singleton_self _, rfl⟩) rfl
      · exact .inr (.inl ⟨x, hx, List.mem_append_left _ hran⟩)
    · exact .inr (.inr fun hnodup ↦ htwice (List.nodup_append.1 hnodup).1)
  | @returned e _ _ hreg hlog =>
    rw [Spoilt, hreg, hlog, List.filter_append]
    rcases h with ⟨r, hr, hnot, hpost⟩ | ⟨x, hx, hran⟩ | htwice
    · refine .inl ⟨r, hr, fun hmem ↦ ?_, hpost⟩
      rcases List.mem_append.1 hmem with hmem | hmem
      · exact hnot hmem
      · cases List.mem_singleton.1 hmem
    · exact .inr (.inl ⟨x, hx, List.mem_append_left _ hran⟩)
    · exact .inr (.inr fun hnodup ↦ htwice (List.nodup_append.1 hnodup).1)
  | @thrown e _ _ he hran _ hlog =>
    exact .inr (.inl ⟨e, List.mem_append_left _ he, hlog ▸ hran⟩)

/-- A step that breaks the condition spoils the books: the new task is out of reach, or the running
task is back on the list. -/
theorem spoilt_of_move {s t : ExitSys ρ α} {op : ExitOp ρ α}
    {pre post pre' post' : List (Entry ρ α)} (hshape : s.Shape pre post)
    (hop : ¬ s.RegistersBehind op) (hmove : Moves s t op pre post pre' post') : t.Spoilt post' := by
  cases hmove with
  | none hnot => exact absurd hnot hop
  | behind hnot => exact absurd hnot hop
  | @before _ e _ _ _ hserial hreg hlog =>
    refine .inl ⟨e.toRegistration, ?_, fun hmem ↦ ?_, fun x hx ↦ ?_⟩
    · exact hreg ▸ List.mem_append_right _ (List.mem_singleton_self _)
    · rw [hlog] at hmem
      exact (hshape.logged e.ranEvent hmem).ne hserial
    · rw [hserial]
      exact (hshape.serial_lt (hshape.registered x (List.mem_append_right _ hx))).ne
  | called => exact absurd trivial hop
  | returned => exact absurd trivial hop
  | @thrown e _ _ he hran _ hlog =>
    exact .inr (.inl ⟨e, List.mem_append_left _ he, hlog ▸ hran⟩)

/-! ### Nested registrations -/

/-- Every registered task was run exactly once, and deleted exactly once. -/
def EachOnce (s : ExitSys ρ α) : Prop :=
  (s.stack.log.filter ExitEvent.isRan).Perm (s.stack.registered.map Registration.ranEvent) ∧
    (s.stack.log.filter ExitEvent.isDeleted).Perm
      (s.stack.registered.map Registration.deletedEvent)

/-- Once `exec` is through, nothing is left on the list. -/
theorem parts_of_leave {s t : ExitSys ρ α} {pre post : List (Entry ρ α)} (h : s.Shape pre post)
    (hstep : s.step .leave = some t) : pre = [] ∧ post = [] ∧ t.stack = s.stack := by
  obtain ⟨⟨-, hp⟩, ⟨⟩⟩ := Option.ite_none_right_eq_some.1 hstep
  have htasks := h.tasks
  rw [hp] at htasks
  obtain ⟨hpre, hpost⟩ := List.append_eq_nil_iff.1 htasks.eq_nil
  exact ⟨hpre, hpost, rfl⟩

theorem Exact.eachOnce {s : ExitSys ρ α} (h : s.Exact [] []) : s.EachOnce := by
  have hran := h.ran
  have hdeleted := h.deleted
  rw [Accounts, List.append_nil, List.map_nil, List.append_nil] at hdeleted
  rw [Accounts, List.map_nil, List.append_nil] at hran
  exact ⟨hran, hdeleted⟩

/-- With nothing left on the list, a spoilt state has a task that ran too often or not at all. -/
theorem Spoilt.not_eachOnce {s : ExitSys ρ α} (hshape : s.Shape [] []) (h : s.Spoilt []) :
    ¬ s.EachOnce := by
  rintro ⟨hran, -⟩
  rcases h with ⟨r, hr, hnot, -⟩ | ⟨e, he, -⟩ | htwice
  · have hmem : r.ranEvent ∈ s.stack.log.filter ExitEvent.isRan :=
      hran.mem_iff.2 (List.mem_map_of_mem hr)
    exact hnot (List.mem_of_mem_filter hmem)
  · exact List.not_mem_nil he
  · refine htwice (hran.nodup_iff.2 (List.Nodup.of_map ExitEvent.serial ?_))
    rw [List.map_map, show ExitEvent.serial ∘ Registration.ranEvent = Registration.serial (ρ := ρ)
      (α := α) from rfl, hshape.numbered]
    exact List.nodup_range

/-- **Nested registrations.** When `exec` is through, every task has been run once and deleted once
exactly when no routine threw and every task registered by a running routine was of lower priority
than the task behind it. -/
theorem every_task_runs_once_iff {isDl : Bool} {ops : List (ExitOp ρ α)} {s : ExitSys ρ α}
    (h : run step (start isDl) (ops ++ [.leave]) = some s) :
    s.EachOnce ↔ EveryStep step RegistersBehind (start isDl) ops := by
  obtain ⟨u, hu, hlast⟩ := run_append_eq_some.1 h
  obtain ⟨s', hleave, hs'⟩ := run_cons_eq_some.1 hlast
  obtain rfl := Option.some.inj hs'
  constructor
  · intro honce
    by_contra hnot
    -- the first step that breaks the condition spoils the books for good
    obtain ⟨ops₁, op, ops₂, v, w, rfl, hv, hop, hstep, hrest⟩ :=
      exists_step_of_not_everyStep hu hnot
    obtain ⟨pre, post, hv⟩ := inParts_of_run hv
    obtain ⟨pre', post', hw, hmove⟩ := shape_step hv hstep
    have hspoilt : u.InParts fun u _ post ↦ u.Spoilt post :=
      InParts.run (fun _ _ _ _ _ _ _ hshape h _ hmove ↦ h.move hshape hmove)
        ⟨pre', post', hw, spoilt_of_move hv hop hmove⟩
        (everyStep_of_forall_mem fun _ _ ↦ trivial) hrest
    obtain ⟨pre, post, hu, hspoilt⟩ := hspoilt
    obtain ⟨rfl, rfl, hstack⟩ := parts_of_leave hu hleave
    rw [EachOnce, hstack] at honce
    exact hspoilt.not_eachOnce hu honce
  · intro hG
    have hexact : u.InParts Exact :=
      InParts.run (fun _ _ _ _ _ _ _ _ h hop hmove ↦ h.move hop hmove)
        ⟨[], [], shape_start isDl, List.Perm.refl _, List.Perm.refl _, Nat.zero_le 1⟩ hG hu
    obtain ⟨pre, post, hu, hexact⟩ := hexact
    obtain ⟨rfl, rfl, hstack⟩ := parts_of_leave hu hleave
    rw [EachOnce, hstack]
    exact hexact.eachOnce

/-- Two tasks, the first of which registers a third one while it runs. -/
def nestedOps : List (ExitOp ℕ ℕ) :=
  [.atexit ⟨some 8, 0, 10, 5⟩, .atexit ⟨some 16, 1, 11, 9⟩, .enter, .call,
    .atexit ⟨some 24, 2, 12, 3⟩, .ret, .call, .ret, .call, .ret]

/-- The third task is of lower priority than the second, so all three run. -/
theorem every_task_runs_once_nested :
    ∃ s, run step (start false) (nestedOps ++ [.leave]) = some s ∧ s.EachOnce := by
  have hidle : ∀ (c : AtexitCall ℕ ℕ) (s : ExitSys ℕ ℕ), s.control = .idle →
      s.RegistersBehind (.atexit c) := by
    intro c s hs pnext hpnext
    rw [hs] at hpnext
    cases hpnext
  have hnested : EveryStep step RegistersBehind (start false) nestedOps := by
    refine .cons rfl (hidle _ _ rfl) <| .cons rfl (hidle _ _ rfl) <| .cons rfl trivial <|
      .cons rfl trivial <| .cons rfl ?_ <| .cons rfl trivial <| .cons rfl trivial <|
      .cons rfl trivial <| .cons rfl trivial <| .cons rfl trivial everyStep_nil
    rintro pnext ⟨⟩ -
    exact ⟨by decide, _, rfl, by decide⟩
  exact ⟨_, rfl, (every_task_runs_once_iff rfl).2 hnested⟩

/-- **A task can be lost.** The only task registers another one of its own priority. That one goes
to the head of the list, where `exec` deletes it unrun. -/
theorem loses_nested_task : ¬ ∀ (isDl : Bool) (ops : List (ExitOp ℕ ℕ)) (s : ExitSys ℕ ℕ),
    run step (start isDl) (ops ++ [.leave]) = some s → s.EachOnce := by
  intro hall
  obtain ⟨s, hrun⟩ : ∃ s : ExitSys ℕ ℕ, run step (start false) ([.atexit ⟨some 8, 0, 10, 0⟩, .enter,
    .call, .atexit ⟨some 16, 1, 11, 0⟩, .ret] ++ [.leave]) = some s := ⟨_, rfl⟩
  obtain ⟨hran, -⟩ := hall _ _ s hrun
  obtain rfl := Option.some.inj hrun
  exact absurd hran.length_eq (by decide)

end ExitSys

end Libk2
