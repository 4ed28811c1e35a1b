import Libk2.Runtime.AtexitNested
import Libk2.Threading.FunctorSpawn

/-!
# The functors of exit tasks

The copy goes from `runtime::atexit` through an `atexit_task` to `adapter`. If the task cannot be
allocated, the copy is never destroyed. And a task whose call has thrown is still on the list; the
next `exec` calls `adapter` once more, with a pointer to the destroyed copy. `FunctorExit.once_iff`
says that nothing else goes wrong, and `copies_destroyed_once_iff` puts the two operations together.
-/

namespace Libk2

open StepSystem

/-- The exit tasks and `exec`, with the copies that the tasks carry as their arguments. `running` is
the copy that the running `adapter` has adopted, `thrown` are those whose call has ended with an
exception. -/
structure FunctorExit (ρ : Type*) where
  sys : ExitSys ρ ℕ
  copies : Copies
  running : Option ℕ
  thrown : List ℕ

/-- A call of `runtime::atexit`, with what `new atexit_task` returns, and the `adapter` of the
functor's type; otherwise as `ExitOp`. -/
inductive FunctorOp (ρ : Type*) where
  | atexit (newTask : Option ℕ) (adapter : ρ) (prio : ℤ)
  | enter
  | call
  | ret
  | throw
  | leave

namespace FunctorExit

variable {ρ : Type*}

/-- Before any registration. -/
def start (isDl : Bool) : FunctorExit ρ := ⟨.start isDl, .none, none, []⟩

variable (s : FunctorExit ρ)

/-- The step of the exit tasks. The argument of a new task is the new copy. -/
def exitOp : FunctorOp ρ → ExitOp ρ ℕ
  | .atexit newTask adapter prio => .atexit ⟨newTask, adapter, s.copies.made, prio⟩
  | .enter => .enter
  | .call => .call
  | .ret => .ret
  | .throw => .throw
  | .leave => .leave

/-- The call in the running `adapter` ends. -/
def callEnds : Copies :=
  match s.running with
  | some k => s.copies.callEnds k
  | none => s.copies

/-- The copies after a step. -/
def after (sys : ExitSys ρ ℕ) : FunctorOp ρ → FunctorExit ρ
  | .atexit none _ _ => { s with sys := sys, copies := s.copies.copy.fail s.copies.made }
  | .atexit (some _) _ _ => { s with sys := sys, copies := s.copies.copy }
  | .enter => { s with sys := sys }
  | .call =>
    { s with sys := sys, running := (s.sys.stack.heap s.sys.stack.pstack).map AtexitTask.arg }
  | .ret => { s with sys := sys, copies := s.callEnds, running := none }
  | .throw => ⟨sys, s.callEnds, none, s.thrown ++ s.running.toList⟩
  | .leave => { s with sys := sys }

/-- One step. -/
def step (op : FunctorOp ρ) : Option (FunctorExit ρ) :=
  (s.sys.step (s.exitOp op)).map fun sys ↦ s.after sys op

/-- **The condition** for `runtime::atexit`: the task is allocated, and no call ends of a functor
that has thrown before. -/
def RunsOnce : FunctorOp ρ → Prop
  | .atexit newTask _ _ => newTask ≠ none
  | .ret | .throw => ∀ k, s.running = some k → k ∉ s.thrown
  | _ => True

/-- Nothing has failed so far: the copies on the list are different, and those among them that have
been destroyed are those whose call has thrown. -/
structure Sound (pre post : List (Entry ρ ℕ)) : Prop where
  shape : s.sys.Shape pre post
  settled : s.copies.Settled
  lt_made : ∀ k ∈ s.copies.destroyed, k < s.copies.made
  arg_lt : ∀ e ∈ pre ++ post, e.arg < s.copies.made
  nodup : ((pre ++ post).map fun e ↦ e.arg).Nodup
  running : ∀ pnext, s.sys.control = .routine pnext → ∃ e ∈ pre, s.running = some e.arg
  threw : ∀ e ∈ pre ++ post, e.arg ∈ s.copies.destroyed → e.arg ∈ s.thrown
  destroyed : ∀ k ∈ s.thrown, k ∈ s.copies.destroyed

variable {s} {t : FunctorExit ρ} {sys : ExitSys ρ ℕ} {pre post pre' post' : List (Entry ρ ℕ)}

theorem sound_start (isDl : Bool) : (start isDl : FunctorExit ρ).Sound [] [] where
  shape := ExitSys.shape_start isDl
  settled := Copies.settled_none
  lt_made _ hk := absurd hk List.not_mem_nil
  arg_lt _ he := absurd he List.not_mem_nil
  nodup := List.nodup_nil
  running _ h := nomatch h
  threw _ he := absurd he List.not_mem_nil
  destroyed _ hk := absurd hk List.not_mem_nil

/-- With nothing in the first part, no routine is running. -/
theorem not_routine (h : sys.Shape [] post) (pnext : ℕ) : sys.control ≠ .routine pnext := by
  intro hcontrol
  have hposition := h.position
  rw [ExitSys.Position, hcontrol] at hposition
  obtain ⟨-, e, he, -⟩ := hposition
  exact List.not_mem_nil he

namespace Sound

/-- The copies of the two parts are different. -/
theorem arg_ne (h : s.Sound pre post) {x y : Entry ρ ℕ} (hx : x ∈ pre) (hy : y ∈ post) :
    y.arg ≠ x.arg := by
  have hnodup := h.nodup
  rw [List.map_append] at hnodup
  exact fun heq ↦ (List.nodup_append.1 hnodup).2.2 x.arg (List.mem_map_of_mem hx) y.arg
    (List.mem_map_of_mem hy) heq.symm

/-- The call of a functor that has not thrown before ends, and its copy is destroyed. -/
theorem settle (h : s.Sound pre post) {x : Entry ρ ℕ} (hx : x ∈ pre) (hnot : x.arg ∉ s.thrown) :
    (s.copies.callEnds x.arg).Settled ∧ ∀ k ∈ s.copies.destroyed ++ [x.arg], k < s.copies.made := by
  have hmem : x.arg ∉ s.copies.destroyed :=
    fun hmem ↦ hnot (h.threw x (List.mem_append_left _ hx) hmem)
  refine ⟨h.settled.callEnds hmem, fun k hk ↦ ?_⟩
  rcases List.mem_append.1 hk with hk | hk
  · exact h.lt_made k hk
  · exact (List.mem_singleton.1 hk).symm ▸ h.arg_lt x (List.mem_append_left _ hx)

/-- A new task, with a new copy. -/
theorem register (h : s.Sound pre post) (hshape : sys.Shape pre' post')
    (hcontrol : sys.control = s.sys.control) {e : Entry ρ ℕ} (he : e.arg = s.copies.made)
    (hperm : (pre' ++ post').Perm (e :: (pre ++ post))) (hsub : ∀ x ∈ pre, x ∈ pre') :
    Sound { s with sys := sys, copies := s.copies.copy } pre' post' where
  shape := hshape
  settled := h.settled.copy
  lt_made k hk := Nat.lt_succ_of_lt (h.lt_made k hk)
  arg_lt x hx := by
    rcases List.mem_cons.1 (hperm.mem_iff.1 hx) with rfl | hx
    · exact Nat.lt_succ_of_le he.le
    · exact Nat.lt_succ_of_lt (h.arg_lt x hx)
  nodup := by
    refine (hperm.map _).nodup_iff.2 (List.nodup_cons.2 ⟨fun hmem ↦ ?_, h.nodup⟩)
    obtain ⟨x, hx, heq⟩ := List.mem_map.1 hmem
    exact (h.arg_lt x hx).ne (heq.trans he)
  running pnext hpnext := by
    obtain ⟨x, hx, hrunning⟩ := h.running pnext (hcontrol.symm.trans hpnext)
    exact ⟨x, hsub x hx, hrunning⟩
  threw x hx hmem := by
    rcases List.mem_cons.1 (hperm.mem_iff.1 hx) with rfl | hx
    · exact absurd he (h.lt_made _ hmem).ne
    · exact h.threw x hx hmem
  destroyed := h.destroyed

/-- `exec` starts, or is through. -/
theorem enter (h : s.Sound pre post) (hshape : sys.Shape pre post)
    (hcontrol : ∀ pnext, sys.control ≠ .routine pnext) : Sound { s with sys := sys } pre post :=
  ⟨hshape, h.settled, h.lt_made, h.arg_lt, h.nodup, fun pnext hpnext ↦ absurd hpnext
    (hcontrol pnext), h.threw, h.destroyed⟩

/-- `adapter` is called, and adopts the copy. -/
theorem call {e : Entry ρ ℕ} (h : s.Sound [] (e :: post)) (hshape : sys.Shape [e] post) :
    Sound { s with
      sys := sys
      running := (s.sys.stack.heap s.sys.stack.pstack).map AtexitTask.arg } [e] post where
  shape := hshape
  settled := h.settled
  lt_made := h.lt_made
  arg_lt := h.arg_lt
  nodup := h.nodup
  running pnext _ := by
    obtain ⟨hp, -, q, hq, -⟩ := Tasks.cons_iff.1 h.shape.tasks
    exact ⟨e, List.mem_singleton_self e, by rw [hp, hq]; rfl⟩
  threw := h.threw
  destroyed := h.destroyed

/-- The call returns: what was in front of the link goes off the list, the running task with it. -/
theorem ret (h : s.Sound pre post) (hshape : sys.Shape [] post) {x : Entry ρ ℕ} (hx : x ∈ pre)
    (hrunning : s.running = some x.arg) (hnot : x.arg ∉ s.thrown) :
    Sound { s with sys := sys, copies := s.callEnds, running := none } [] post := by
  have hcopies : s.callEnds = s.copies.callEnds x.arg := by rw [callEnds, hrunning]
  obtain ⟨hsettled, hlt⟩ := h.settle hx hnot
  rw [hcopies]
  refine ⟨hshape, hsettled, hlt, fun e he ↦ h.arg_lt e (List.mem_append_right _ he), ?_,
    fun pnext hpnext ↦ absurd hpnext (not_routine hshape pnext), fun e he hmem ↦ ?_,
    fun k hk ↦ List.mem_append_left _ (h.destroyed k hk)⟩
  · have hnodup := h.nodup
    rw [List.map_append] at hnodup
    exact (List.nodup_append.1 hnodup).2.1
  · rcases List.mem_append.1 hmem with hmem | hmem
    · exact h.threw e (List.mem_append_right _ he) hmem
    · exact absurd (List.mem_singleton.1 hmem) (h.arg_ne hx he)

/-- The call throws: the list stays as it is. -/
theorem throw (h : s.Sound pre post) (hshape : sys.Shape [] (pre ++ post)) {x : Entry ρ ℕ}
    (hx : x ∈ pre) (hrunning : s.running = some x.arg) (hnot : x.arg ∉ s.thrown) :
    Sound ⟨sys, s.callEnds, none, s.thrown ++ s.running.toList⟩ [] (pre ++ post) := by
  have hcopies : s.callEnds = s.copies.callEnds x.arg := by rw [callEnds, hrunning]
  obtain ⟨hsettled, hlt⟩ := h.settle hx hnot
  rw [hcopies, hrunning]
  refine ⟨hshape, hsettled, hlt, h.arg_lt, h.nodup,
    fun pnext hpnext ↦ absurd hpnext (not_routine hshape pnext), fun e he hmem ↦ ?_,
    fun k hk ↦ ?_⟩
  · rcases List.mem_append.1 hmem with hmem | hmem
    · exact List.mem_append_left _ (h.threw e he hmem)
    · exact List.mem_append_right _ hmem
  · rcases List.mem_append.1 hk with hk | hk
    · exact List.mem_append_left _ (h.destroyed k hk)
    · exact List.mem_append_right _ hk

end Sound

/-! ### What a step does -/

/-- A registration that goes through puts the new copy on the list. -/
theorem registered_of_atexit {u v : ExitSys ρ ℕ} {c : AtexitCall ρ ℕ} {ptask : ℕ}
    (h : u.Shape pre post) (hc : c.newTask = some ptask) (hstep : u.step (.atexit c) = some v) :
    v.control = u.control ∧ v.stack.registered =
      u.stack.registered ++ [(u.stack.entryOf ptask c).toRegistration] := by
  obtain ⟨-, hstep⟩ := Option.ite_none_left_eq_some.1 hstep
  obtain ⟨stack, hstack, rfl⟩ := Option.map_eq_some_iff.1 hstep
  obtain ⟨h0, hfresh⟩ := AtexitStack.fresh_of_atexitImpl hstack hc
  obtain ⟨stack', hstack', -, hreg, -⟩ :=
    AtexitStack.tasks_atexitImpl h.tasks hc hfresh h0 h.length_le
  obtain rfl := Option.some.inj (hstack'.symm.trans hstack)
  exact ⟨rfl, hreg⟩

/-- The list is in two parts, of which the above holds. -/
def SoundParts (s : FunctorExit ρ) : Prop := ∃ pre post, s.Sound pre post

theorem Sound.atexit {ptask : ℕ} {adapter : ρ} {prio : ℤ} (h : s.Sound pre post)
    (hstep : s.sys.step (s.exitOp (.atexit (some ptask) adapter prio)) = some sys) :
    (s.after sys (.atexit (some ptask) adapter prio)).SoundParts := by
  obtain ⟨hcontrol, hreg⟩ := registered_of_atexit h.shape rfl hstep
  obtain ⟨pre', post', hshape, hmove⟩ := ExitSys.shape_step h.shape hstep
  -- the new entry is the new copy's
  have harg : ∀ e : Entry ρ ℕ,
      sys.stack.registered = s.sys.stack.registered ++ [e.toRegistration] →
        e.arg = s.copies.made := by
    intro e he
    have hentry := List.append_cancel_left (he.symm.trans hreg)
    exact congrArg Registration.arg (List.singleton_injective hentry)
  generalize hop : s.exitOp (.atexit (some ptask) adapter prio) = op at hmove
  cases hmove with
  | none _ hsame =>
    exact absurd (hsame.symm.trans hreg) (by simp)
  | @behind _ e _ _ _ _ he =>
    exact ⟨_, _, h.register hshape hcontrol (harg e he)
      (((perm_insertTask e _).append_left _).trans List.perm_middle) fun _ hx ↦ hx⟩
  | @before _ e _ _ _ _ he =>
    exact ⟨_, _, h.register hshape hcontrol (harg e he)
      ((perm_insertTask e _).append_right _)
      fun _ hx ↦ (perm_insertTask e _).mem_iff.2 (List.mem_cons_of_mem _ hx)⟩
  | _ => cases hop

/-- Where `exec` stands when `adapter` is called. -/
theorem control_of_call {u v : ExitSys ρ ℕ} (h : u.step .call = some v) :
    u.control = .loop ∧ ∃ pnext, v.control = .routine pnext := by
  obtain ⟨⟨hloop, -⟩, h⟩ := Option.ite_none_right_eq_some.1 h
  obtain ⟨r, -, rfl⟩ := Option.map_eq_some_iff.1 h
  exact ⟨hloop, r.1, rfl⟩

/-- Where `exec` stands when the call returns. -/
theorem control_of_ret {u v : ExitSys ρ ℕ} (h : u.step .ret = some v) :
    (∃ pnext, u.control = .routine pnext) ∧ v.control = .loop := by
  cases hcontrol : u.control with
  | routine pnext =>
    simp only [ExitSys.step, hcontrol] at h
    obtain ⟨stack, -, rfl⟩ := Option.map_eq_some_iff.1 h
    exact ⟨⟨pnext, rfl⟩, rfl⟩
  | _ => simp [ExitSys.step, hcontrol] at h

/-- Where `exec` stands when the call throws. -/
theorem control_of_throw {u v : ExitSys ρ ℕ} (h : u.step .throw = some v) :
    ∃ pnext, u.control = .routine pnext := by
  cases hcontrol : u.control with
  | routine pnext => exact ⟨pnext, rfl⟩
  | _ => simp [ExitSys.step, hcontrol] at h

/-- While no routine is running, there is nothing in the first part. -/
theorem pre_eq_nil {u : ExitSys ρ ℕ} (h : u.Shape pre post)
    (hcontrol : ∀ pnext, u.control ≠ .routine pnext) : pre = [] := by
  have hposition := h.position
  cases hc : u.control with
  | routine pnext => exact absurd hc (hcontrol pnext)
  | _ =>
    rw [ExitSys.Position, hc] at hposition
    exact hposition

variable {op : FunctorOp ρ}

theorem Sound.step (h : s.Sound pre post) (hop : s.RunsOnce op) (hstep : s.step op = some t) :
    t.SoundParts := by
  obtain ⟨sys, hsys, rfl⟩ := Option.map_eq_some_iff.1 hstep
  cases op with
  | atexit newTask adapter prio =>
    cases newTask with
    | none => exact absurd rfl hop
    | some ptask => exact h.atexit hsys
  | enter =>
    obtain ⟨pre', post', hshape, hmove⟩ := ExitSys.shape_step h.shape hsys
    obtain ⟨-, ⟨⟩⟩ := Option.ite_none_right_eq_some.1 hsys
    cases hmove
    exact ⟨_, _, h.enter hshape nofun⟩
  | leave =>
    obtain ⟨pre', post', hshape, hmove⟩ := ExitSys.shape_step h.shape hsys
    obtain ⟨-, ⟨⟩⟩ := Option.ite_none_right_eq_some.1 hsys
    cases hmove
    exact ⟨_, _, h.enter hshape nofun⟩
  | call =>
    obtain ⟨pre', post', hshape, hmove⟩ := ExitSys.shape_step h.shape hsys
    obtain ⟨hloop, pnext, hroutine⟩ := control_of_call hsys
    cases hmove with
    | none =>
      -- the running task is in the first part
      obtain rfl := pre_eq_nil h.shape fun pnext hne ↦ by cases hloop.symm.trans hne
      exact absurd hroutine (not_routine hshape pnext)
    | called => exact ⟨_, _, h.call hshape⟩
  | ret =>
    obtain ⟨pre', post', hshape, hmove⟩ := ExitSys.shape_step h.shape hsys
    obtain ⟨⟨pnext, hroutine⟩, hloop⟩ := control_of_ret hsys
    obtain ⟨x, hx, hrunning⟩ := h.running pnext hroutine
    cases hmove with
    | none =>
      obtain rfl := pre_eq_nil hshape fun pnext hne ↦ by cases hloop.symm.trans hne
      exact absurd hx List.not_mem_nil
    | returned => exact ⟨_, _, h.ret hshape hx hrunning (hop x.arg hrunning)⟩
  | throw =>
    obtain ⟨pre', post', hshape, hmove⟩ := ExitSys.shape_step h.shape hsys
    obtain ⟨pnext, hroutine⟩ := control_of_throw hsys
    obtain ⟨x, hx, hrunning⟩ := h.running pnext hroutine
    cases hmove with
    | none hnot => exact hnot.elim
    | thrown => exact ⟨_, _, h.throw hshape hx hrunning (hop x.arg hrunning)⟩

/-- A call that ends with a copy which has been destroyed destroys it once more. -/
theorem Sound.not_once_callEnds (h : s.Sound pre post)
    (hop : ¬ ∀ k, s.running = some k → k ∉ s.thrown) : ¬ s.callEnds.Once := by
  push Not at hop
  obtain ⟨k, hrunning, hk⟩ := hop
  rw [callEnds, hrunning]
  exact Copies.not_once_callEnds (h.destroyed k hk)

/-- A task that is not allocated leaves the copy to nobody, and a task that has thrown is still on
the list. -/
theorem Sound.not_once_of_step (h : s.Sound pre post) (hop : ¬ s.RunsOnce op)
    (hstep : s.step op = some t) : ¬ t.copies.Once := by
  obtain ⟨sys, hsys, rfl⟩ := Option.map_eq_some_iff.1 hstep
  cases op with
  | atexit newTask adapter prio =>
    obtain rfl : newTask = none := not_not.1 hop
    have hmade : s.copies.made ∉ s.copies.destroyed := fun hk ↦ lt_irrefl _ (h.lt_made _ hk)
    exact Copies.not_once_fail hmade
  | ret => exact h.not_once_callEnds hop
  | throw => exact h.not_once_callEnds hop
  | _ => exact absurd trivial hop

/-- A functor given to `atexit` is destroyed once exactly if no task fails to be allocated, and none
that has thrown ends again. -/
theorem once_iff {isDl : Bool} {ops : List (FunctorOp ρ)}
    (h : run step (start isDl) ops = some s) :
    EveryState step (fun s ↦ s.copies.Once) (start isDl) ops ↔
      EveryStep step RunsOnce (start isDl) ops :=
  have hstart : (start isDl : FunctorExit ρ).SoundParts := ⟨[], [], sound_start isDl⟩
  everyState_iff_everyStep (fun _ ⟨_, _, hs⟩ ↦ hs.settled.once)
    (fun _ _ _ ⟨_, _, hs⟩ hop hstep ↦ hs.step hop hstep)
    (fun _ _ _ ⟨_, _, hs⟩ hop hstep ↦ hs.not_once_of_step hop hstep) hstart h

end FunctorExit

/-! ### Both -/

/-- **A functor's copy is destroyed exactly once**, by the time its operation has failed or its call
has ended, along exactly those runs in which the operations succeed and no exit task that has thrown
is called to its end again. -/
theorem copies_destroyed_once_iff {τ ρ : Type*} [DecidableEq τ] {detached isDl : Bool}
    {ls : List (SpawnLabel τ)} {c : FunctorSpawn τ} {ops : List (FunctorOp ρ)} {s : FunctorExit ρ}
    (hspawn : run FunctorSpawn.step (.start τ detached) ls = some c)
    (hexit : run FunctorExit.step (.start isDl) ops = some s) :
    (EveryState FunctorSpawn.step (fun c ↦ c.copies.Once) (.start τ detached) ls ↔
      EveryStep FunctorSpawn.step FunctorSpawn.Succeeds (.start τ detached) ls) ∧
    (EveryState FunctorExit.step (fun s ↦ s.copies.Once) (.start isDl) ops ↔
      EveryStep FunctorExit.step FunctorExit.RunsOnce (.start isDl) ops) :=
  ⟨FunctorSpawn.once_iff hspawn, FunctorExit.once_iff hexit⟩

/-- The thread starts, and the entry function ends with a `cancel_signal`. -/
def endsWithSignal : List (ThreadLabel Unit) :=
  ThreadSys.startUp Unit ++ [.act .thread (.input (.finish .cancelSignal))]

/-- The context is allocated, and so on. -/
def spawnAndCancel : List (SpawnLabel Unit) :=
  .context true :: endsWithSignal.map .thread

/-- Two exit tasks, the second of which throws. -/
def throwLast : List (FunctorOp Unit) :=
  [.atexit (some 8) () 0, .atexit (some 16) () 1, .enter, .call, .ret, .call, .throw]

theorem copies_destroyed_once_thrown :
    ∃ (c : FunctorSpawn Unit) (s : FunctorExit Unit),
      run FunctorSpawn.step (.start Unit true) spawnAndCancel = some c ∧
      run FunctorExit.step (.start false) throwLast = some s ∧
      c.copies.destroyed = [0] ∧ s.copies.destroyed = [1, 0] ∧ c.copies.Once ∧ s.copies.Once := by
  obtain ⟨c, s, hspawn, hexit, hc, hs⟩ : ∃ (c : FunctorSpawn Unit) (s : FunctorExit Unit),
      run FunctorSpawn.step (.start Unit true) spawnAndCancel = some c ∧
      run FunctorExit.step (.start false) throwLast = some s ∧
      c.copies.destroyed = [0] ∧ s.copies.destroyed = [1, 0] := ⟨_, _, rfl, rfl, rfl, rfl⟩
  have hfate : ∀ l ∈ endsWithSignal, FunctorSpawn.copyFate l ≠ .lost := by decide
  have hsucceeds : EveryStep FunctorSpawn.step FunctorSpawn.Succeeds (.start Unit true)
      spawnAndCancel := by
    intro ls₁ l ls₂ c hls _
    have hmem : l ∈ spawnAndCancel := hls ▸ List.mem_append_right _ List.mem_cons_self
    rcases List.mem_cons.1 hmem with rfl | hmem
    · rfl
    · obtain ⟨l', hl', rfl⟩ := List.mem_map.1 hmem
      exact hfate l' hl'
  have hruns : EveryStep FunctorExit.step FunctorExit.RunsOnce (.start false) throwLast :=
    .cons rfl nofun <| .cons rfl nofun <| .cons rfl trivial <| .cons rfl trivial <|
      .cons rfl (fun _ _ ↦ List.not_mem_nil) <| .cons rfl trivial <|
      .cons rfl (fun _ _ ↦ List.not_mem_nil) everyStep_nil
  obtain ⟨hspawned, hexited⟩ := copies_destroyed_once_iff hspawn hexit
  exact ⟨c, s, hspawn, hexit, hc, hs, (hspawned.2 hsucceeds).last hspawn,
    (hexited.2 hruns).last hexit⟩

/-- **A copy can be leaked**: `pthread_create` fails. -/
theorem copy_never_destroyed : ¬ ((∀ (detached : Bool) (ls : List (SpawnLabel Unit)),
      EveryState FunctorSpawn.step (fun c ↦ c.copies.Once) (.start Unit detached) ls) ∧
    ∀ (isDl : Bool) (ops : List (FunctorOp Unit)),
      EveryState FunctorExit.step (fun s ↦ s.copies.Once) (.start isDl) ops) := by
  rintro ⟨hspawn, -⟩
  obtain ⟨c, hrun, hfailed, hdestroyed⟩ : ∃ c : FunctorSpawn Unit,
      run FunctorSpawn.step (.start Unit false)
        [.context true, .thread (.act .spawner (.input (.create false)))] = some c ∧
      c.copies.failed = [0] ∧ c.copies.destroyed = [] := ⟨_, rfl, rfl, rfl⟩
  have hone := (hspawn false _).last hrun 0 (.inl (by rw [hfailed]; exact List.mem_cons_self))
  rw [hdestroyed] at hone
  cases hone

/-- **A copy can be destroyed twice**: its call throws, and the next `exec` calls it again. -/
theorem copy_destroyed_twice : ∃ s : FunctorExit Unit, run FunctorExit.step (.start false)
    [.atexit (some 8) () 0, .enter, .call, .throw, .enter, .call, .ret] = some s ∧
      s.copies.destroyed = [0, 0] :=
  ⟨_, rfl, rfl⟩

end Libk2
