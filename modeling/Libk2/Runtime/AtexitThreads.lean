import Libk2.Runtime.AtexitOrder
import Libk2.Threading.SpinGuard

/-!
# `runtime::atexit_impl` among threads

`atexit_impl` called by any number of threads at once. It runs inside a `scoped_guard` of
`atexit_stack::lock`, one access at a time: `new atexit_task`, the tests and the walk of `push`, the
stores that link the task in, and the call of `std::atexit`. `AtexitPos` is where a call is, with
the locals of `push`.

A call commits when `new` has answered. From there on `rest` is the part of `push` still to come;
the walk needs no fuel here, and agrees with the sequential loop because the list it walks is no
longer than the number of registrations (`findSlot_next`). So registrations that overlap are
registrations one after another (`registrations_are_atomic`), no pointer they follow is null or
dangling (`isSome_next`), and whenever no call is in progress `exec` runs what is registered in the
order owed.
-/

namespace Libk2

open StepSystem LockedObject

variable {ρ α : Type*}

/-- The arguments of `runtime::atexit_impl`. -/
structure AtexitArgs (ρ α : Type*) where
  routine : ρ
  arg : α
  prio : ℤ

/-- What a call of `atexit_impl` ends with. -/
inductive AtexitResult where
  | registered
  | threw
deriving DecidableEq

/-- The call, once `new atexit_task` has answered. -/
def AtexitArgs.call (a : AtexitArgs ρ α) (newTask : Option ℕ) : AtexitCall ρ α :=
  ⟨newTask, a.routine, a.arg, a.prio⟩

namespace AtexitStack

/-- A whole call; `newTask` is what `new atexit_task` returns. -/
def apply (a : AtexitArgs ρ α) (newTask : Option ℕ) (s : AtexitStack ρ α) :
    Option (AtexitResult × AtexitStack ρ α) :=
  (s.atexitImpl (a.call newTask)).map fun t ↦
    (if newTask.isSome then .registered else .threw, t)

/-- `push`, once the new task is there. -/
def linkTask (s : AtexitStack ρ α) (ptask : ℕ) (prio : ℤ) : Option (AtexitStack ρ α) :=
  if s.pstack = 0 then some (s.pushFront ptask)
  else (s.heap s.pstack).bind fun head ↦
    if prio ≥ head.prio then some (s.pushFront ptask)
    else if head.pnext ≠ 0 then
      (findSlot s.heap prio s.registered.length s.pstack).bind fun p ↦ s.pushBehind ptask p
    else some (s.setPnext s.pstack ptask)

theorem push_eq (s : AtexitStack ρ α) (ptask : ℕ) (c : AtexitCall ρ α) :
    s.push ptask c = (s.newTask ptask c).linkTask ptask c.prio := rfl

end AtexitStack

/-- `runtime::atexit_impl` as its callers see it. -/
def atexitSpec (ρ α τ : Type*) :
    Spec τ (AtexitStack ρ α) (AtexitArgs ρ α) (Option ℕ) AtexitResult Empty where
  note _ s := some s
  apply := AtexitStack.apply

/-- Where a call of `atexit_impl` is. -/
inductive AtexitPos (ρ α : Type*) where
  /-- At `new atexit_task(routine, arg, prio)`. -/
  | atNew (a : AtexitArgs ρ α)
  /-- At `pstack == 0 || pstack && prio >= pstack->prio`. -/
  | atTest (ptask : ℕ) (prio : ℤ)
  /-- At `ptask->pnext = pstack`. -/
  | frontLink (ptask : ℕ)
  /-- At `pstack = ptask`. -/
  | frontHead (ptask : ℕ)
  /-- At `if (pstack->pnext)`. -/
  | atSecond (ptask : ℕ) (prio : ℤ)
  /-- At the head of the loop, with its variable `p`. -/
  | walk (ptask : ℕ) (prio : ℤ) (p : ℕ)
  /-- At `ptask->pnext = p->pnext`. -/
  | behindLink (ptask p : ℕ)
  /-- At `p->pnext = ptask`. -/
  | behindStore (ptask p : ℕ)
  /-- At `pstack->pnext = ptask`. -/
  | onlyStore (ptask : ℕ)
  /-- At `if (atexit_stack::exec_registered == false && runtime::is_dl() == false)`. -/
  | atInstall
  | finished (r : AtexitResult)

namespace AtexitPos

open AtexitStack

/-- One access. -/
def next : AtexitPos ρ α → Option ℕ → AtexitStack ρ α → Option (AtexitStack ρ α × AtexitPos ρ α)
  | atNew _, none, s => some (s, finished .threw)
  | atNew a, some ptask, s =>
    if ptask ≠ 0 ∧ (s.heap ptask).isNone then
      some (s.newTask ptask (a.call (some ptask)), atTest ptask a.prio)
    else none
  | atTest ptask prio, _, s =>
    if s.pstack = 0 then some (s, frontLink ptask)
    else (s.heap s.pstack).map fun head ↦
      (s, if prio ≥ head.prio then frontLink ptask else atSecond ptask prio)
  | frontLink ptask, _, s => some (s.setPnext ptask s.pstack, frontHead ptask)
  | frontHead ptask, _, s => some ({ s with pstack := ptask }, atInstall)
  | atSecond ptask prio, _, s =>
    (s.heap s.pstack).map fun head ↦
      (s, if head.pnext ≠ 0 then walk ptask prio s.pstack else onlyStore ptask)
  | walk ptask prio p, _, s =>
    (s.heap p).bind fun t ↦
      if t.pnext = 0 then some (s, behindLink ptask p)
      else (s.heap t.pnext).map fun t' ↦
        (s, if prio ≥ t'.prio then behindLink ptask p else walk ptask prio t.pnext)
  | behindLink ptask p, _, s =>
    (s.heap p).map fun t ↦ (s.setPnext ptask t.pnext, behindStore ptask p)
  | behindStore ptask p, _, s => some (s.setPnext p ptask, atInstall)
  | onlyStore ptask, _, s => some (s.setPnext s.pstack ptask, atInstall)
  | atInstall, _, s => some (s.installExec, finished .registered)
  | finished _, _, _ => none

def result : AtexitPos ρ α → Option AtexitResult
  | finished r => some r
  | _ => none

/-- `new` has answered. -/
def Committed : AtexitPos ρ α → Prop
  | atNew _ => False
  | _ => True

/-- The end of a call that has linked its task in. -/
def finish (s : Option (AtexitStack ρ α)) : Option (AtexitResult × AtexitStack ρ α) :=
  s.map fun t ↦ (.registered, t.installExec)

/-- What a call that has committed still does. -/
def rest : AtexitPos ρ α → AtexitStack ρ α → Option (AtexitResult × AtexitStack ρ α)
  | atNew _, _ => none
  | atTest ptask prio, s => finish (s.linkTask ptask prio)
  | frontLink ptask, s => finish (some (s.pushFront ptask))
  | frontHead ptask, s => finish (some { s with pstack := ptask })
  | atSecond ptask prio, s =>
    finish ((s.heap s.pstack).bind fun head ↦
      if head.pnext ≠ 0 then
        (findSlot s.heap prio s.registered.length s.pstack).bind fun p ↦ s.pushBehind ptask p
      else some (s.setPnext s.pstack ptask))
  | walk ptask prio p, s =>
    finish ((findSlot s.heap prio s.registered.length p).bind fun q ↦ s.pushBehind ptask q)
  | behindLink ptask p, s => finish (s.pushBehind ptask p)
  | behindStore ptask p, s => finish (some (s.setPnext p ptask))
  | onlyStore ptask, s => finish (some (s.setPnext s.pstack ptask))
  | atInstall, s => finish (some s)
  | finished r, s => some (r, s)

/-- What a call relies on at a position. -/
def Ok (s : AtexitStack ρ α) : AtexitPos ρ α → Prop
  | atTest _ _ => ∃ l, Tasks s.heap s.pstack l ∧ l.length < s.registered.length
  | atSecond _ prio =>
    ∃ a l, Tasks s.heap s.pstack (a :: l) ∧ prio < a.prio ∧ l.length < s.registered.length
  | walk _ prio p =>
    ∃ a l, Tasks s.heap p (a :: l) ∧ prio < a.prio ∧ l.length < s.registered.length
  | behindLink _ p => (s.heap p).isSome
  | _ => True

end AtexitPos

/-- The code of `runtime::atexit_impl`. -/
def atexitCode (ρ α : Type*) :
    Code (AtexitStack ρ α) (AtexitArgs ρ α) (Option ℕ) AtexitResult (AtexitPos ρ α) where
  start := .atNew
  next := AtexitPos.next
  result := AtexitPos.result

/-! ### The walk -/

namespace AtexitStack

/-- More fuel does not change where the loop stops. -/
theorem findSlot_succ {heap : ℕ → Option (AtexitTask ρ α)} {prio : ℤ} {fuel p q : ℕ}
    (h : findSlot heap prio fuel p = some q) : findSlot heap prio (fuel + 1) p = some q := by
  induction fuel generalizing p with
  | zero => cases h
  | succ fuel ih =>
    rw [findSlot] at h ⊢
    obtain ⟨t, ht, h⟩ := Option.bind_eq_some_iff.1 h
    rw [ht, Option.bind_some]
    split at h
    · next h0 => rwa [if_pos h0]
    · next h0 =>
      rw [if_neg h0]
      obtain ⟨t', ht', h⟩ := Option.bind_eq_some_iff.1 h
      rw [ht', Option.bind_some]
      split at h
      · next hstop => rwa [if_pos hstop]
      · next hgo =>
        rw [if_neg hgo]
        exact ih h

/-- **One round of the loop**, from a task of higher priority to the next one: the loop stops at the
same place from both, with fuel for the whole list. -/
theorem findSlot_next {heap : ℕ → Option (AtexitTask ρ α)} {prio : ℤ} {fuel p : ℕ}
    {t t' : AtexitTask ρ α} {a : Entry ρ α} {l : List (Entry ρ α)} (h : Tasks heap p (a :: l))
    (hlen : l.length < fuel) (ht : heap p = some t) (h0 : t.pnext ≠ 0)
    (ht' : heap t.pnext = some t') (hgo : ¬ prio ≥ t'.prio) :
    findSlot heap prio fuel p = findSlot heap prio fuel t.pnext ∧
      ∃ a' l', Tasks heap t.pnext (a' :: l') ∧ prio < a'.prio ∧ l'.length < fuel := by
  obtain ⟨rfl, -, q, hq, htail⟩ := Tasks.cons_iff.1 h
  obtain rfl : a.task q = t := Option.some.inj (hq.symm.trans ht)
  obtain ⟨a', l', rfl, hq'⟩ := htail.exists_cons h0
  obtain ⟨-, -, q', hq'', -⟩ := Tasks.cons_iff.1 htail
  have hprio : prio < a'.prio := by
    obtain rfl : a'.task q' = t' := Option.some.inj ((hq' ▸ hq'').symm.trans ht')
    exact not_le.1 hgo
  obtain ⟨fuel, rfl⟩ := Nat.exists_eq_succ_of_ne_zero (Nat.ne_zero_of_lt hlen)
  rw [List.length_cons] at hlen
  refine ⟨?_, a', l', htail, hprio, by omega⟩
  obtain ⟨-, b, -, -, hslot, -⟩ := findSlot_spec fuel htail hprio (by omega)
  have hstep : findSlot heap prio (fuel + 1) a.addr = findSlot heap prio fuel q := by
    rw [findSlot, ht, Option.bind_some, if_neg h0, ht', Option.bind_some, if_neg hgo]
    rfl
  rw [hstep]
  exact hslot.trans (findSlot_succ hslot).symm

/-- Where the loop stops. -/
theorem findSlot_stop {heap : ℕ → Option (AtexitTask ρ α)} {prio : ℤ} {fuel p : ℕ}
    {t : AtexitTask ρ α} (hfuel : 0 < fuel) (ht : heap p = some t)
    (hstop : t.pnext = 0 ∨ ∃ t', heap t.pnext = some t' ∧ prio ≥ t'.prio) :
    findSlot heap prio fuel p = some p := by
  obtain ⟨fuel, rfl⟩ := Nat.exists_eq_succ_of_ne_zero (Nat.pos_iff_ne_zero.1 hfuel)
  rw [findSlot, ht, Option.bind_some]
  by_cases h0 : t.pnext = 0
  · rw [if_pos h0]
  · obtain ⟨t', ht', hprio⟩ := hstop.resolve_left h0
    rw [if_neg h0, ht', Option.bind_some, if_pos hprio]

end AtexitStack

/-! ### What a step of a call does -/

namespace AtexitPos

open AtexitStack

/-- **A step of a committed call** does a part of what is left, and leads to a position whose needs
are met. -/
theorem rest_of_next {k k' : AtexitPos ρ α} {newTask : Option ℕ} {s s' : AtexitStack ρ α}
    (hk : k.Committed) (hok : k.Ok s) (h : k.next newTask s = some (s', k')) :
    k'.Committed ∧ k'.Ok s' ∧ rest k' s' = rest k s := by
  cases k with
  | atNew a => exact absurd hk not_false
  | finished r => cases h
  | frontLink _ | frontHead _ | behindStore _ _ | onlyStore _ | atInstall =>
    obtain ⟨rfl, rfl⟩ := Prod.mk.inj (Option.some.inj h)
    exact ⟨trivial, trivial, rfl⟩
  | atTest ptask prio =>
    obtain ⟨l, htasks, hlen⟩ := hok
    rw [next] at h
    split at h
    · next h0 =>
      obtain ⟨rfl, rfl⟩ := Prod.mk.inj (Option.some.inj h)
      exact ⟨trivial, trivial, by rw [rest, rest, linkTask, if_pos h0]⟩
    · next h0 =>
      obtain ⟨head, hhead, hmap⟩ := Option.map_eq_some_iff.1 h
      obtain ⟨rfl, rfl⟩ := Prod.mk.inj hmap
      obtain ⟨a, l, rfl, hp⟩ := htasks.exists_cons h0
      obtain ⟨-, -, q, hq, -⟩ := Tasks.cons_iff.1 htasks
      have hprio : head.prio = a.prio := by
        obtain rfl : a.task q = head := Option.some.inj (hq.symm.trans (hp ▸ hhead))
        rfl
      rw [rest, linkTask, if_neg h0, hhead, Option.bind_some]
      split
      · next hfront => exact ⟨trivial, trivial, rfl⟩
      · next hgo =>
        rw [List.length_cons] at hlen
        refine ⟨trivial, ⟨a, l, htasks, hprio ▸ not_le.1 hgo, by omega⟩, ?_⟩
        rw [rest, hhead, Option.bind_some]
  | atSecond ptask prio =>
    obtain ⟨head, hhead, hmap⟩ := Option.map_eq_some_iff.1 h
    obtain ⟨rfl, rfl⟩ := Prod.mk.inj hmap
    rw [rest, hhead, Option.bind_some]
    split
    · next hsecond => exact ⟨trivial, hok, rfl⟩
    · next hsecond => exact ⟨trivial, trivial, rfl⟩
  | walk ptask prio p =>
    obtain ⟨a, l, htasks, hprio, hlen⟩ := hok
    obtain ⟨t, ht, hbind⟩ := Option.bind_eq_some_iff.1 h
    have hsome : (s.heap p).isSome := Option.isSome_iff_exists.2 ⟨t, ht⟩
    have hstop : (t.pnext = 0 ∨ ∃ t', s.heap t.pnext = some t' ∧ prio ≥ t'.prio) →
        rest (behindLink ptask p) s = rest (walk ptask prio p) s := by
      intro hstop
      rw [rest, rest, findSlot_stop (Nat.zero_lt_of_lt hlen) ht hstop, Option.bind_some]
    split at hbind
    · next h0 =>
      obtain ⟨rfl, rfl⟩ := Prod.mk.inj (Option.some.inj hbind)
      exact ⟨trivial, hsome, hstop (.inl h0)⟩
    · next h0 =>
      obtain ⟨t', ht', hmap⟩ := Option.map_eq_some_iff.1 hbind
      obtain ⟨rfl, rfl⟩ := Prod.mk.inj hmap
      by_cases hgo : prio ≥ t'.prio
      · rw [if_pos hgo]
        exact ⟨trivial, hsome, hstop (.inr ⟨t', ht', hgo⟩)⟩
      · obtain ⟨hslot, hok'⟩ := findSlot_next htasks hlen ht h0 ht' hgo
        rw [if_neg hgo]
        exact ⟨trivial, hok', by rw [rest, rest, hslot]⟩
  | behindLink ptask p =>
    obtain ⟨t, ht, hmap⟩ := Option.map_eq_some_iff.1 h
    obtain ⟨rfl, rfl⟩ := Prod.mk.inj hmap
    exact ⟨trivial, trivial, by rw [rest, rest, pushBehind, ht]; rfl⟩

/-- **No access goes through a null or dangling pointer.** -/
theorem isSome_next {k : AtexitPos ρ α} {newTask : Option ℕ} {s : AtexitStack ρ α}
    (hk : k.Committed) (hok : k.Ok s) (hresult : k.result = none) :
    (k.next newTask s).isSome := by
  cases k with
  | atNew a => exact absurd hk not_false
  | finished r => cases hresult
  | frontLink _ | frontHead _ | behindStore _ _ | onlyStore _ | atInstall => exact rfl
  | atTest ptask prio =>
    obtain ⟨l, htasks, -⟩ := hok
    by_cases h0 : s.pstack = 0
    · simp [next, h0]
    · obtain ⟨a, l, rfl, hp⟩ := htasks.exists_cons h0
      obtain ⟨-, -, q, hq, -⟩ := Tasks.cons_iff.1 htasks
      rw [← hp] at hq
      simp [next, h0, hq]
  | atSecond ptask prio =>
    obtain ⟨a, l, htasks, -⟩ := hok
    obtain ⟨hp, -, q, hq, -⟩ := Tasks.cons_iff.1 htasks
    rw [← hp] at hq
    simp [next, hq]
  | walk ptask prio p =>
    obtain ⟨a, l, htasks, -⟩ := hok
    obtain ⟨hp, -, q, hq, htail⟩ := Tasks.cons_iff.1 htasks
    rw [← hp] at hq
    by_cases h0 : q = 0
    · simp [next, hq, h0, Entry.task]
    · obtain ⟨a', l', rfl, hq'⟩ := htail.exists_cons h0
      obtain ⟨-, -, q', hq'', -⟩ := Tasks.cons_iff.1 htail
      rw [← hq'] at hq''
      simp [next, hq, h0, Entry.task, hq'']
  | behindLink ptask p =>
    obtain ⟨t, ht⟩ := Option.isSome_iff_exists.1 hok
    simp [next, ht]

end AtexitPos

/-! ### The invariant -/

namespace AtexitStack

/-- The list holds what was registered, in the order owed, and the registrations are numbered. -/
def Sound (s : AtexitStack ρ α) : Prop :=
  s.Listed ∧ ∀ r ∈ s.registered, r.serial < s.registered.length

theorem sound_empty (isDl : Bool) : (empty isDl : AtexitStack ρ α).Sound :=
  ⟨⟨[], Tasks.nil, List.Pairwise.nil, List.Perm.refl _⟩, fun _ h ↦ absurd h List.not_mem_nil⟩

/-- **A registration** with a fresh task goes through and leaves the list sound. -/
theorem Sound.atexitImpl {s : AtexitStack ρ α} (h : s.Sound) {c : AtexitCall ρ α} {ptask : ℕ}
    (hc : c.newTask = some ptask) (h0 : ptask ≠ 0) (hfresh : s.heap ptask = none) :
    ∃ t, s.atexitImpl c = some t ∧ t.Sound := by
  obtain ⟨⟨l, htasks, hordered, hperm⟩, hnumber⟩ := h
  obtain ⟨t, ht, -, hreg, htasks'⟩ := tasks_atexitImpl htasks hc hfresh h0
    (by rw [← hperm.length_eq, List.length_map])
  have hserial : ∀ x ∈ l, x.serial < (s.entryOf ptask c).serial :=
    fun x hx ↦ hnumber _ (hperm.subset (List.mem_map_of_mem hx))
  refine ⟨t, ht, ⟨_, htasks', hordered.insertTask hserial, ?_⟩, fun r hr ↦ ?_⟩
  · rw [hreg]
    refine ((perm_insertTask _ l).map _).trans ?_
    rw [List.map_cons]
    exact (List.perm_append_singleton _ _).symm.trans (hperm.append_right _)
  · rw [hreg, List.length_append, List.length_singleton]
    rw [hreg, List.mem_append, List.mem_singleton] at hr
    rcases hr with hr | rfl
    · exact (hnumber r hr).trans (Nat.lt_succ_self _)
    · exact Nat.lt_succ_self _

end AtexitStack

/-- Where a call inside may be: at its `new`, with the list sound, or past it, with what is left of
it leading to a sound list. -/
def AtexitPos.Fits (s : AtexitStack ρ α) (a : AtexitArgs ρ α) (k : AtexitPos ρ α) : Prop :=
  k = .atNew a ∧ s.Sound ∨ k.Committed ∧ k.Ok s ∧ ∃ r u, k.rest s = some (r, u) ∧ u.Sound

section Threads

variable {τ : Type*} [Fintype τ] [DecidableEq τ]

/-- The list of exit tasks under an ideal lock, and the threads that register. -/
abbrev AtexitLocked (τ ρ α : Type*) :=
  Locked τ (AtexitStack ρ α) (AtexitArgs ρ α) AtexitResult (AtexitPos ρ α)

namespace AtexitLocked

/-- **The invariant of the list among threads.** -/
structure Inv (c : AtexitLocked τ ρ α) : Prop where
  alone : c.Alone
  free : (∀ t, ¬ (c.stage t).Inside) → c.state.Sound
  place : ∀ t a k, c.stage t = .busy (a, some k) → k.Fits c.state a

variable {c c' : AtexitLocked τ ρ α}

omit [Fintype τ] [DecidableEq τ] in
theorem inv_start (isDl : Bool) : Inv (Locked.start (.empty isDl) : AtexitLocked τ ρ α) where
  alone := Locked.alone_start _
  free _ := AtexitStack.sound_empty isDl
  place _ _ _ ht := by cases ht

/-- **`new` answers**: the call fails, or what is left of it is what is left of `push`. -/
theorem fits_of_new {s s' : AtexitStack ρ α} {a : AtexitArgs ρ α} {newTask : Option ℕ}
    {k' : AtexitPos ρ α} (hs : s.Sound)
    (hnext : (AtexitPos.atNew a).next newTask s = some (s', k')) :
    k'.Committed ∧ k'.Ok s' ∧
      ∃ r u, AtexitStack.apply a newTask s = some (r, u) ∧ k'.rest s' = some (r, u) ∧ u.Sound := by
  cases newTask with
  | none =>
    obtain ⟨rfl, rfl⟩ := Prod.mk.inj (Option.some.inj hnext)
    exact ⟨trivial, trivial, .threw, s, rfl, rfl, hs⟩
  | some ptask =>
    obtain ⟨⟨h0, hfresh⟩, hsome⟩ := Option.ite_none_right_eq_some.1 hnext
    obtain ⟨rfl, rfl⟩ := Prod.mk.inj (Option.some.inj hsome)
    have hnone := Option.isNone_iff_eq_none.1 hfresh
    obtain ⟨u, hu, hsound⟩ := hs.atexitImpl (c := a.call (some ptask)) rfl h0 hnone
    obtain ⟨⟨l, htasks, -, hperm⟩, -⟩ := hs
    obtain ⟨hnew, -⟩ := AtexitStack.tasks_newTask (c := a.call (some ptask)) htasks hnone
    have hlen : l.length < (s.newTask ptask (a.call (some ptask))).registered.length := by
      rw [AtexitStack.newTask, List.length_append, ← hperm.length_eq, List.length_map]
      exact Nat.lt_succ_self _
    refine ⟨trivial, ⟨l, hnew, hlen⟩, .registered, u, ?_, ?_, hsound⟩
    · rw [AtexitStack.apply, hu]
      rfl
    · have hpush := hu
      rw [AtexitStack.atexitImpl_of_fresh rfl h0 hnone, AtexitStack.push_eq] at hpush
      obtain ⟨t, ht, rfl⟩ := Option.map_eq_some_iff.1 hpush
      exact congrArg AtexitPos.finish ht

/-- **Every step keeps the invariant.** -/
theorem inv_step {l : LockedLabel τ (AtexitArgs ρ α) (Option ℕ) AtexitResult Empty} (h : c.Inv)
    (hstep : Locked.step (atexitSpec ρ α τ) (atexitCode ρ α) c l = some c') : Inv c' := by
  have halone := Locked.alone_step h.alone hstep
  obtain ⟨e, stage, s, rfl, hturn, hnote, rfl⟩ | ⟨t, a, rfl, -, hfree, rfl⟩ |
    ⟨t, x, a, k, s, k', rfl, ht, hnext, rfl⟩ | ⟨t, a, k, r, rfl, ht, hr, rfl⟩ :=
    Locked.step_cases hstep
  · obtain rfl : c.state = s := Option.some.inj hnote
    refine ⟨halone, fun hfree ↦ h.free fun t ⟨a, k, ht⟩ ↦ ?_,
      fun t a k ht ↦ h.place t a k (Locked.position_of_turn hturn ht)⟩
    exact hfree t ⟨a, k, turn_of_busy hturn ht⟩
  · exact ⟨halone, fun hnot ↦ h.free hfree,
      Locked.forall_position halone (Function.update_self _ _ _) (.inl ⟨rfl, h.free hfree⟩)⟩
  · refine ⟨halone, fun hnot ↦ absurd ⟨a, k', Function.update_self _ _ _⟩ (hnot t),
      Locked.forall_position halone (Function.update_self _ _ _) ?_⟩
    rcases h.place t a k ht with ⟨rfl, hs⟩ | ⟨hk, hok, r, u, hrest, hu⟩
    · obtain ⟨hk', hok', r, u, -, hrest, hu⟩ := fits_of_new hs hnext
      exact .inr ⟨hk', hok', r, u, hrest, hu⟩
    · obtain ⟨hk', hok', hrest'⟩ := AtexitPos.rest_of_next hk hok hnext
      exact .inr ⟨hk', hok', r, u, hrest'.trans hrest, hu⟩
  · refine ⟨halone, fun _ ↦ ?_,
      fun u a' k' hu ↦ absurd ⟨a', k', hu⟩ (Locked.not_inside_of_leave h.alone ht r u)⟩
    have hk : k = .finished r := by
      cases k <;> simp_all [atexitCode, AtexitPos.result]
    rcases h.place t a k ht with ⟨rfl, hs⟩ | ⟨-, -, r', u, hrest, hu⟩
    · exact hs
    · rw [hk] at hrest
      obtain ⟨rfl, rfl⟩ := Prod.mk.inj (Option.some.inj hrest)
      exact hu

/-- **`atexit_impl` refines its specification** under a lock. -/
def atexitRefinement (τ ρ α : Type*) [Fintype τ] [DecidableEq τ] :
    Refinement (atexitSpec ρ α τ) (atexitCode ρ α) where
  Inv := Inv
  Committed := AtexitPos.Committed
  rest := AtexitPos.rest
  inv_step := inv_step
  not_committed_start _ := not_false
  look h ht hk hnext hk' := by
    rcases h.place _ _ _ ht with ⟨rfl, hs⟩ | ⟨hcommitted, -⟩
    · exact absurd (fits_of_new hs hnext).1 hk'
    · exact absurd hcommitted hk
  commit h ht hk hnext hk' := by
    rcases h.place _ _ _ ht with ⟨rfl, hs⟩ | ⟨hcommitted, -⟩
    · obtain ⟨-, -, r, u, happly, hrest, -⟩ := fits_of_new hs hnext
      exact ⟨_, (r, u), happly, hrest⟩
    · exact absurd hcommitted hk
  go_on h ht hk hnext := by
    rcases h.place _ _ _ ht with ⟨rfl, hs⟩ | ⟨-, hok, -⟩
    · exact absurd hk not_false
    · obtain ⟨hk', -, hrest⟩ := AtexitPos.rest_of_next hk hok hnext
      exact ⟨hk', hrest⟩
  finish {c t op k r} h ht hr := by
    have hk : k = .finished r := by
      cases k <;> simp_all [atexitCode, AtexitPos.result]
    rw [hk]
    exact ⟨trivial, rfl⟩
  apart {c t op k e s r u} h ht hk hstep hrest := by
    obtain ⟨stage, -, hmap⟩ := Option.bind_eq_some_iff.1 hstep
    obtain ⟨s', hs, rfl⟩ := Option.map_eq_some_iff.1 hmap
    obtain rfl : c.state = s' := Option.some.inj hs
    exact ⟨u, rfl, hrest⟩

end AtexitLocked

/-! ### The list and its spin lock -/

/-- The list of exit tasks with its `spin_lock`, and the threads that register. -/
abbrev AtexitGuarded (τ ρ α : Type*) :=
  SpinGuarded τ (AtexitStack ρ α) (AtexitArgs ρ α) AtexitResult (AtexitPos ρ α)

abbrev AtexitGuarded.step (v : AtomicVariant) (g : AtexitGuarded τ ρ α) :
    GuardLabel τ (AtexitArgs ρ α) (Option ℕ) AtexitResult Empty → Option (AtexitGuarded τ ρ α) :=
  SpinGuarded.step v (atexitSpec ρ α τ) (atexitCode ρ α) g

variable {g : AtexitGuarded τ ρ α}
  {ls : List (GuardLabel τ (AtexitArgs ρ α) (Option ℕ) AtexitResult Empty)}

/-- **Registrations are atomic.** Whatever registrations overlap, each of them is a call of
`atexit_impl` as a whole at one moment between its beginning and its end. -/
theorem registrations_are_atomic (hτ : Fintype.card τ < 2 ^ 31) (v : AtomicVariant) (isDl : Bool)
    (hrun : run (AtexitGuarded.step v) (.start (.empty isDl)) ls = some g) :
    ∃ ls' a, run (Atomic.step (atexitSpec ρ α τ)) (.start (.empty isDl)) ls' = some a ∧
      ls'.filterMap AtomicLabel.visible = ls.filterMap GuardLabel.visible ∧
      ((∀ t, ¬ (g.locked.stage t).Inside) → a.state = g.state) := by
  obtain ⟨ls', a, hrun', hrelated, hvis⟩ := SpinGuarded.exists_atomic_run hτ
    (AtexitLocked.atexitRefinement τ ρ α) (AtexitLocked.inv_start isDl) hrun
  exact ⟨ls', a, hrun', hvis, hrelated.state⟩

/-- What the list owes the threads that share it. -/
structure SharedTaskSafety (g : AtexitGuarded τ ρ α) : Prop where
  /-- A call in progress is never at a null or dangling pointer. -/
  no_fault : ∀ t a k newTask, g.stage t = .busy (.inside a k) → k.Committed → k.result = none →
    (k.next newTask g.state).isSome
  /-- With no call inside, `exec` runs all that is registered, each task once and in the order owed,
  and leaves nothing. -/
  exec_all : (∀ t, ¬ (g.locked.stage t).Inside) → ∃ (order : List (Registration ρ α)) (s' : _),
    order.Perm g.state.registered ∧ order.Pairwise Before ∧
    (∀ fuel, g.state.registered.length < fuel → AtexitStack.exec fuel g.state = some s') ∧
    s'.log = g.state.log ++ order.flatMap Registration.events ∧ s'.pstack = 0

/-- **Overlapping registrations lose no task**, in any state that threads registering together can
reach. -/
theorem shared_tasks_run_in_order (hτ : Fintype.card τ < 2 ^ 31) (v : AtomicVariant) (isDl : Bool)
    (ls : List (GuardLabel τ (AtexitArgs ρ α) (Option ℕ) AtexitResult Empty)) :
    EveryState (AtexitGuarded.step v) (SharedTaskSafety (τ := τ) (ρ := ρ) (α := α))
      (.start (.empty isDl)) ls := by
  refine (SpinGuarded.everyState_locked hτ (fun c l c' ↦ AtexitLocked.inv_step)
    (AtexitLocked.inv_start isDl) ls).mono fun g h ↦
      ⟨fun t a k newTask ht hk hresult ↦ ?_, fun hfree ↦ ?_⟩
  · have hin : g.locked.stage t = .busy (a, some k) := congrArg SpinGuarded.lockedStage ht
    rcases h.place t a k hin with ⟨rfl, -⟩ | ⟨-, hok, -⟩
    · exact absurd hk not_false
    · exact AtexitPos.isSome_next hk hok hresult
  · obtain ⟨⟨l, htasks, hordered, hperm⟩, -⟩ := h.free hfree
    obtain ⟨heap, hexec⟩ := AtexitStack.exec_tasks htasks
    refine ⟨l.map Entry.toRegistration, _, hperm, List.pairwise_map.2 hordered,
      fun fuel hfuel ↦ hexec fuel ?_, rfl, rfl⟩
    rwa [← List.length_map Entry.toRegistration, hperm.length_eq]

/-- Two threads register while the first one is still on its way through the list. -/
def twoRegistrations : List (GuardLabel Bool (AtexitArgs ℕ ℕ) (Option ℕ) AtexitResult Empty) :=
  [.event (.call false ⟨0, 10, 5⟩), .spin false, .next false (some 8),
    .event (.call true ⟨0, 11, 7⟩), .spin true, .next false none, .next false none,
    .next false none, .next false none, .leave false, .spin false, .spin true, .spin true,
    .next true (some 16)]

theorem registrations_are_atomic_two : ∃ g, run (AtexitGuarded.step .locked)
    (.start (.empty false)) twoRegistrations = some g ∧ ∃ ls' a,
      run (Atomic.step (atexitSpec ℕ ℕ Bool)) (.start (.empty false)) ls' = some a ∧
      ls'.filterMap AtomicLabel.visible = twoRegistrations.filterMap GuardLabel.visible ∧
      ((∀ t, ¬ (g.locked.stage t).Inside) → a.state = g.state) :=
  ⟨_, rfl, registrations_are_atomic (by decide) .locked false rfl⟩

theorem shared_tasks_run_in_order_two : EveryState (AtexitGuarded.step .locked)
    (SharedTaskSafety (τ := Bool) (ρ := ℕ) (α := ℕ)) (.start (.empty false)) twoRegistrations :=
  shared_tasks_run_in_order (by decide) .locked false twoRegistrations

end Threads

end Libk2
