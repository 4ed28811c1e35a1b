import Libk2.Runtime.AtexitStack

/-!
# Exit tasks run in priority order

The list `push` builds and the order in which `exec` consumes it, for programs that register their
exit tasks first and run them afterwards, all routines returning.

`Before` is the order owed to the caller: higher priority first, and among equals the later
registration first. `push` keeps the list strictly sorted by it (`Ordered.insertTask`), because a
new task carries the highest serial and goes in front of the first task of no higher priority. So
after any registrations, which all go through (`exists_run`), the list is *the* sorted arrangement
of what was registered (`Listed`), and `exec_tasks` says that `exec` runs a list front to back,
deletes each task after its run, and ends with nothing left.
-/

namespace Libk2

open StepSystem

variable {ρ α : Type*}

/-- The order owed: higher priority first, among equals the later registration. -/
def Before (x y : Registration ρ α) : Prop :=
  y.prio < x.prio ∨ x.prio = y.prio ∧ y.serial < x.serial

theorem Before.prio_le {x y : Registration ρ α} (h : Before x y) : y.prio ≤ x.prio := by
  rcases h with h | ⟨h, -⟩
  · exact h.le
  · exact h.ge

theorem Before.trans {x y z : Registration ρ α} (hxy : Before x y) (hyz : Before y z) :
    Before x z := by
  unfold Before at *
  omega

/-- The entries of a list are in the order owed. -/
def Ordered (l : List (Entry ρ α)) : Prop :=
  l.Pairwise fun x y ↦ Before x.toRegistration y.toRegistration

/-- **Insertion keeps the order**, for an entry registered after all others. -/
theorem Ordered.insertTask {e : Entry ρ α} {l : List (Entry ρ α)} (h : Ordered l)
    (hserial : ∀ x ∈ l, x.serial < e.serial) : Ordered (insertTask e l) := by
  induction l with
  | nil => exact List.pairwise_singleton _ _
  | cons b l ih =>
    obtain ⟨hb, hl⟩ := List.pairwise_cons.1 h
    by_cases hprio : b.prio ≤ e.prio
    · rw [insertTask_front hprio]
      have heb : Before e.toRegistration b.toRegistration := by
        have := hserial b List.mem_cons_self
        unfold Before
        omega
      refine List.pairwise_cons.2 ⟨List.forall_mem_cons.2 ⟨heb, fun x hx ↦ ?_⟩, h⟩
      exact heb.trans (hb x hx)
    · have hlt : e.prio < b.prio := not_le.1 hprio
      rw [insertTask_cons hlt]
      refine List.pairwise_cons.2
        ⟨fun x hx ↦ ?_, ih hl fun x hx ↦ hserial x (List.mem_cons_of_mem _ hx)⟩
      rcases List.mem_cons.1 ((perm_insertTask e l).mem_iff.1 hx) with rfl | hx
      · exact Or.inl hlt
      · exact hb x hx

/-- The events of one task's run. -/
def Registration.events (r : Registration ρ α) : List (ExitEvent ρ α) :=
  [.ran r.serial r.routine r.arg, .deleted r.serial]

/-- The registrations a sequence of calls makes: the calls whose `new` succeeded, numbered. -/
def registrations (calls : List (AtexitCall ρ α)) : List (Registration ρ α) :=
  (calls.filter fun c ↦ c.newTask.isSome).mapIdx fun i c ↦ ⟨i, c.routine, c.arg, c.prio⟩

theorem length_registrations (calls : List (AtexitCall ρ α)) :
    (registrations calls).length = (calls.filter fun c ↦ c.newTask.isSome).length :=
  List.length_mapIdx

theorem registrations_concat (calls : List (AtexitCall ρ α)) (c : AtexitCall ρ α) :
    registrations (calls ++ [c]) = registrations calls ++
      if c.newTask.isSome then
        [⟨(registrations calls).length, c.routine, c.arg, c.prio⟩] else [] := by
  rw [length_registrations, registrations, List.filter_append]
  cases hc : c.newTask.isSome with
  | true => rw [List.filter_singleton, hc, cond_true, List.mapIdx_concat]; rfl
  | false => rw [List.filter_singleton, hc, cond_false, List.append_nil]; simp [registrations]

theorem serial_lt_of_mem_registrations {calls : List (AtexitCall ρ α)} {r : Registration ρ α}
    (h : r ∈ registrations calls) : r.serial < (registrations calls).length := by
  obtain ⟨i, hi, rfl⟩ := List.mem_mapIdx.1 h
  rw [length_registrations]
  exact hi

/-- The addresses of the tasks that the calls make. -/
def addresses (calls : List (AtexitCall ρ α)) : List ℕ := calls.filterMap AtexitCall.newTask

theorem addresses_concat (calls : List (AtexitCall ρ α)) (c : AtexitCall ρ α) :
    addresses (calls ++ [c]) = addresses calls ++ c.newTask.toList := by
  rw [addresses, List.filterMap_append]
  cases hc : c.newTask <;> simp [addresses, hc]

namespace AtexitStack

/-! ### The list after registrations -/

/-- The list holds what was registered, in the order owed. -/
def Listed (s : AtexitStack ρ α) : Prop :=
  ∃ l, Tasks s.heap s.pstack l ∧ Ordered l ∧ (l.map Entry.toRegistration).Perm s.registered

/-- **After any registrations** the list holds them, in the order owed, and nothing has run. -/
theorem listed_of_run {isDl : Bool} {calls : List (AtexitCall ρ α)} {s : AtexitStack ρ α}
    (h : run atexitImpl (empty isDl) calls = some s) :
    s.Listed ∧ s.registered = registrations calls ∧ s.log = [] := by
  induction calls using List.reverseRecOn generalizing s with
  | nil =>
    obtain rfl := Option.some.inj h
    exact ⟨⟨[], Tasks.nil, List.Pairwise.nil, List.Perm.refl _⟩, rfl, rfl⟩
  | append_singleton calls c ih =>
    obtain ⟨u, hu, hlast⟩ := run_append_eq_some.1 h
    obtain ⟨s', hstep, hs'⟩ := run_cons_eq_some.1 hlast
    obtain rfl := Option.some.inj hs'
    obtain ⟨⟨l, htasks, hordered, hperm⟩, hreg, hlog⟩ := ih hu
    rw [registrations_concat, ← hreg]
    cases hc : c.newTask with
    | none =>
      rw [atexitImpl, hc] at hstep
      obtain rfl := Option.some.inj hstep
      exact ⟨⟨l, htasks, hordered, hperm⟩, by simp, hlog⟩
    | some ptask =>
      obtain ⟨h0, hfresh⟩ := fresh_of_atexitImpl hstep hc
      have hlen : l.length ≤ u.registered.length := by
        rw [← hperm.length_eq, List.length_map]
      obtain ⟨t, ht, htlog, htreg, httasks⟩ := tasks_atexitImpl htasks hc hfresh h0 hlen
      obtain rfl := Option.some.inj (ht.symm.trans hstep)
      have hserial : ∀ x ∈ l, x.serial < (u.entryOf ptask c).serial := by
        intro x hx
        have hmem : x.toRegistration ∈ u.registered := hperm.subset (List.mem_map_of_mem hx)
        rw [hreg] at hmem
        exact (serial_lt_of_mem_registrations hmem).trans_eq (congrArg List.length hreg.symm)
      refine ⟨⟨_, httasks, hordered.insertTask hserial, ?_⟩, htreg, htlog.trans hlog⟩
      rw [htreg]
      refine ((perm_insertTask _ l).map _).trans ?_
      rw [List.map_cons]
      exact (List.perm_append_singleton _ _).symm.trans (hperm.append_right _)

/-- After any registrations one more goes through, given a fresh task. -/
theorem exists_atexitImpl {isDl : Bool} {calls : List (AtexitCall ρ α)} {s : AtexitStack ρ α}
    (h : run atexitImpl (empty isDl) calls = some s) {c : AtexitCall ρ α} {ptask : ℕ}
    (hc : c.newTask = some ptask) (h0 : ptask ≠ 0) (hfresh : s.heap ptask = none) :
    ∃ t, s.atexitImpl c = some t := by
  obtain ⟨⟨l, htasks, -, hperm⟩, -, -⟩ := listed_of_run h
  obtain ⟨t, ht, -⟩ := tasks_atexitImpl htasks hc hfresh h0
    (by rw [← hperm.length_eq, List.length_map])
  exact ⟨t, ht⟩

/-- Only the addresses of the registered tasks are in use. -/
theorem heap_of_run {isDl : Bool} {calls : List (AtexitCall ρ α)} {s : AtexitStack ρ α}
    (h : run atexitImpl (empty isDl) calls = some s) {a : ℕ} (ha : a ∉ addresses calls) :
    s.heap a = none := by
  induction calls using List.reverseRecOn generalizing s with
  | nil => exact Option.some.inj h ▸ rfl
  | append_singleton calls c ih =>
    obtain ⟨u, hu, hlast⟩ := run_append_eq_some.1 h
    obtain ⟨s', hstep, hs'⟩ := run_cons_eq_some.1 hlast
    obtain rfl := Option.some.inj hs'
    rw [addresses_concat, List.mem_append, not_or] at ha
    exact heap_atexitImpl_none hstep (ih hu ha.1) fun hc ↦ ha.2 (by simp [hc])

/-- **Registrations go through**, whatever their priorities, as long as `new` returns addresses that
are not null and not in use. -/
theorem exists_run (isDl : Bool) {calls : List (AtexitCall ρ α)}
    (hnodup : (addresses calls).Nodup) (h0 : 0 ∉ addresses calls) :
    ∃ s, run atexitImpl (empty isDl) calls = some s := by
  induction calls using List.reverseRecOn with
  | nil => exact ⟨_, rfl⟩
  | append_singleton calls c ih =>
    rw [addresses_concat] at hnodup h0
    obtain ⟨hnodup', -, hdisjoint⟩ := List.nodup_append.1 hnodup
    obtain ⟨u, hu⟩ := ih hnodup' fun hmem ↦ h0 (List.mem_append_left _ hmem)
    obtain ⟨s, hs⟩ : ∃ s, u.atexitImpl c = some s := by
      cases hc : c.newTask with
      | none => exact ⟨u, by rw [atexitImpl, hc]⟩
      | some ptask =>
        have hptask : ptask ∈ c.newTask.toList := by simp [hc]
        refine exists_atexitImpl hu hc ?_ (heap_of_run hu fun hmem ↦ ?_)
        · rintro rfl
          exact h0 (List.mem_append_right _ hptask)
        · exact hdisjoint ptask hmem ptask hptask rfl
    exact ⟨s, run_append_eq_some.2 ⟨u, hu, run_cons_eq_some.2 ⟨s, hs, rfl⟩⟩⟩

/-! ### `exec` consumes the list -/

/-- One iteration of `exec` on a list: the head's routine is called, and the head deleted. -/
theorem tasks_iteration {s : AtexitStack ρ α} {e : Entry ρ α} {l : List (Entry ρ α)}
    (h : Tasks s.heap s.pstack (e :: l)) : ∃ q, s.pstack ≠ 0 ∧
      s.execCall = some (q, { s with log := s.log ++ [.ran e.serial e.routine e.arg] }) ∧
      ({ s with log := s.log ++ [.ran e.serial e.routine e.arg] } : AtexitStack ρ α).execReturn q =
        some { s with
          heap := Function.update s.heap s.pstack none
          pstack := q
          log := s.log ++ e.events } ∧
      Tasks (Function.update s.heap s.pstack none) q l := by
  obtain ⟨hp, he0, q, hq, htail⟩ := Tasks.cons_iff.1 h
  have hnodup := h.nodup_addr
  rw [List.map_cons, List.nodup_cons] at hnodup
  refine ⟨q, hp ▸ he0, by rw [execCall, hp, hq]; rfl, ?_, htail.congr fun x hx ↦ ?_⟩
  · simp only [execReturn, hp, hq, Option.map_some, Registration.events, List.append_assoc]
    rfl
  · refine Function.update_of_ne (fun hxp ↦ hnodup.1 ?_) _ _
    exact (hxp.trans hp) ▸ List.mem_map_of_mem hx

/-- **`exec` runs the list front to back**, each task once with its own argument, deletes each after
its run, and leaves the list empty. -/
theorem exec_tasks {l : List (Entry ρ α)} {s : AtexitStack ρ α} (h : Tasks s.heap s.pstack l) :
    ∃ heap, ∀ fuel, l.length < fuel → exec fuel s = some { s with
      heap := heap
      pstack := 0
      log := s.log ++ (l.map Entry.toRegistration).flatMap Registration.events } := by
  induction l generalizing s with
  | nil =>
    have hp : s.pstack = 0 := h.chain
    refine ⟨s.heap, fun fuel hfuel ↦ ?_⟩
    obtain ⟨fuel, rfl⟩ := Nat.exists_eq_succ_of_ne_zero (Nat.ne_zero_of_lt hfuel)
    rw [exec, if_pos hp, List.map_nil, List.flatMap_nil, List.append_nil, ← hp]
  | cons e l ih =>
    obtain ⟨q, hp, hcall, hreturn, htail⟩ := tasks_iteration h
    obtain ⟨heap, hexec⟩ := ih (s := { s with
      heap := Function.update s.heap s.pstack none
      pstack := q
      log := s.log ++ e.events }) htail
    refine ⟨heap, fun fuel hfuel ↦ ?_⟩
    obtain ⟨fuel, rfl⟩ := Nat.exists_eq_succ_of_ne_zero (Nat.ne_zero_of_lt hfuel)
    rw [exec, if_neg hp, hcall, Option.bind_some, hreturn, Option.bind_some,
      hexec fuel (Nat.lt_of_succ_lt_succ hfuel), List.map_cons, List.flatMap_cons,
      List.append_assoc]

theorem exec_of_empty {s : AtexitStack ρ α} (h : s.pstack = 0) {fuel : ℕ} (hfuel : 0 < fuel) :
    exec fuel s = some s := by
  obtain ⟨fuel, rfl⟩ := Nat.exists_eq_succ_of_ne_zero (Nat.ne_zero_of_lt hfuel)
  rw [exec, if_pos h]

/-- **Exit tasks run in priority order**, last registered first among equals. The registrations go
through, each with a fresh task, and then `exec` runs them all and leaves nothing. -/
theorem exec_in_priority_order (isDl : Bool) {calls : List (AtexitCall ρ α)}
    (hnodup : (addresses calls).Nodup) (h0 : 0 ∉ addresses calls) :
    ∃ (s s' : AtexitStack ρ α) (order : List (Registration ρ α)),
      run atexitImpl (empty isDl) calls = some s ∧
      (∀ fuel, (registrations calls).length < fuel → exec fuel s = some s') ∧
      order.Perm (registrations calls) ∧ order.Pairwise Before ∧
      s'.log = order.flatMap Registration.events ∧ s'.pstack = 0 ∧
      ∀ fuel, 0 < fuel → exec fuel s' = some s' ∧ fini fuel s' = some s' := by
  obtain ⟨s, hrun⟩ := exists_run isDl hnodup h0
  obtain ⟨⟨l, htasks, hordered, hperm⟩, hreg, hlog⟩ := listed_of_run hrun
  obtain ⟨heap, hexec⟩ := exec_tasks htasks
  rw [hreg] at hperm
  rw [hlog, List.nil_append] at hexec
  refine ⟨s, _, l.map Entry.toRegistration, hrun, fun fuel hfuel ↦ hexec fuel ?_, hperm,
    List.pairwise_map.2 hordered, rfl, rfl, fun fuel hfuel ↦ ?_⟩
  · rwa [← List.length_map Entry.toRegistration, hperm.length_eq]
  · exact ⟨exec_of_empty rfl hfuel, exec_of_empty rfl hfuel⟩

/-- Three registrations, the second one of higher priority. -/
def threeCalls : List (AtexitCall ℕ ℕ) :=
  [⟨some 8, 0, 10, 0⟩, ⟨some 16, 0, 11, 5⟩, ⟨some 24, 0, 12, 0⟩]

theorem exec_in_priority_order_three : ∃ s s' : AtexitStack ℕ ℕ,
    run atexitImpl (empty false) threeCalls = some s ∧ exec 4 s = some s' ∧ s'.pstack = 0 := by
  have hnodup : (addresses threeCalls).Nodup := by decide
  obtain ⟨s, s', order, hrun, hexec, -, -, -, hempty, -⟩ :=
    exec_in_priority_order false hnodup (by decide)
  exact ⟨s, s', hrun, hexec 4 (by decide), hempty⟩

/-- The second task runs first, then the third and the first, each with its own argument. -/
example : ((run atexitImpl (empty false) threeCalls).bind (exec 4)).map AtexitStack.log =
    some [.ran 1 0 11, .deleted 1, .ran 2 0 12, .deleted 2, .ran 0 0 10, .deleted 0] := rfl

end AtexitStack

end Libk2
