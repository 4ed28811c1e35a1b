import Libk2.Foundation.ObjectHeap
import Libk2.Foundation.StepSystem

/-!
# Thread-specific pointers

One thread's use of a `tls_ptr`: `get`, `release` and `reset`, with the exit of the thread at the
end, where the key's destroy routine is applied to what is in the slot. Around the calls the thread
makes objects, and destroys those that it owns itself.

`reset` destroys the old object first and stores the new pointer then, and the store may fail. What
is in the slot after that has been destroyed: `get` returns it, and the exit destroys it again
(`destroyed_at_exit`). As long as no `reset` with an object to destroy fails, the `tls_ptr` owns
what is in its slot and nothing else (`Owns`), and that is exactly the condition for a run to go
well (`ownsOnce_iff`).
-/

namespace Libk2

open StepSystem

/-- The slot of the thread, with 0 for null, and the objects. `byPtr` records which of the destroyed
objects the `tls_ptr` has destroyed, and `released` which objects it has given away and not been
given again. -/
structure TlsPtr where
  slot : ℕ
  heap : ObjectHeap ℕ
  byPtr : List (ℕ × ℕ)
  released : List (ℕ × ℕ)
  exited : Bool

/-- What happens, and whether `pthread_setspecific` succeeds. -/
inductive TlsOp where
  | make (p : ℕ)
  | delete (p : ℕ)
  | get
  | release (ok : Bool)
  | reset (p : ℕ) (ok : Bool)
  | exit
deriving DecidableEq

namespace TlsPtr

/-- Each thread starts with the null pointer. -/
def start : TlsPtr := ⟨0, .empty ℕ, [], [], false⟩

variable (s : TlsPtr)

/-! ### The calls -/

/-- `tls_ptr_impl::get`. -/
def get : ℕ := s.slot

/-- `pthread_setspecific`; `false` says that it fails. -/
def setspecific (p : ℕ) (ok : Bool) : Bool × TlsPtr :=
  (ok, if ok = true then { s with slot := p } else s)

/-- `tls_ptr::cleanup`, the destroy routine. -/
def cleanup (p : ℕ) : TlsPtr :=
  { s with heap := s.heap.destroy p, byPtr := s.byPtr ++ [s.heap.object p] }

/-- `tls_ptr_impl::release`. Without a result it throws `thread_error`. -/
def release (ok : Bool) : Option ℕ × TlsPtr :=
  let oldP := s.get
  match s.setspecific 0 ok with
  | (false, s) => (none, s)
  | (true, s) => (some oldP, s)

/-- `tls_ptr_impl::reset`; `false` says that it throws `thread_error`. -/
def reset (p : ℕ) (ok : Bool) : Bool × TlsPtr :=
  let oldP := s.get
  let s := if oldP ≠ 0 ∧ oldP ≠ p then s.cleanup oldP else s
  s.setspecific p ok

/-- The thread exits: the slot is set to null, and the destroy routine applied to what was in it. -/
def exit : TlsPtr :=
  let s' := { s with slot := 0, exited := true }
  if s.slot ≠ 0 then s'.cleanup s.slot else s'

/-- The object at `p` is the caller's. -/
def give (p : ℕ) : TlsPtr := { s with released := s.released ++ [s.heap.object p] }

/-- The object at `p` is no longer the caller's. -/
def take (p : ℕ) : TlsPtr := { s with released := s.released.filter (· ≠ s.heap.object p) }

/-- What the thread does, with what the caller of `reset` has to keep to: the pointer is null, the
one in the slot, or that of an object which the slot does not own. -/
def call : TlsOp → Option TlsPtr
  | .make p => if p ≠ 0 ∧ ¬ s.heap.Live p then some { s with heap := s.heap.make p } else none
  | .delete p =>
    if s.heap.Live p ∧ p ≠ s.slot then some { s with heap := s.heap.destroy p } else none
  | .get => some s
  | .release ok =>
    match s.release ok with
    | (none, s) => some s
    | (some p, s) => some (if p = 0 then s else s.give p)
  | .reset p ok =>
    if p = 0 ∨ p = s.slot ∨ s.heap.Live p then
      match s.reset p ok with
      | (false, s) => some s
      | (true, s) => some (s.take p)
    else none
  | .exit => some s.exit

/-- One step. After the exit there is no more. -/
def step (op : TlsOp) : Option TlsPtr := if s.exited = true then none else s.call op

variable {s} {p : ℕ} {op : TlsOp} {s' : TlsPtr}

/-- What a call of `reset` does. -/
theorem call_reset {ok : Bool} (h : s.call (.reset p ok) = some s') :
    (p = 0 ∨ p = s.slot ∨ s.heap.Live p) ∧
      s' = if ok = true then (s.reset p ok).2.take p else (s.reset p ok).2 := by
  obtain ⟨hp, hreset⟩ := Option.ite_none_right_eq_some.1 h
  cases ok with
  | false => exact ⟨hp, (Option.some.inj hreset).symm⟩
  | true => exact ⟨hp, (Option.some.inj hreset).symm⟩

/-- A `reset` without an object to destroy that fails has done nothing. -/
theorem reset_fail (h : s.slot = 0 ∨ s.slot = p) : s.reset p false = (false, s) := by
  have hif : ¬ (s.slot ≠ 0 ∧ s.slot ≠ p) := fun hne ↦ h.elim hne.1 hne.2
  show (false, if s.slot ≠ 0 ∧ s.slot ≠ p then s.cleanup s.slot else s) = _
  rw [if_neg hif]

/-- A `reset` with an object to destroy that fails has destroyed it. -/
theorem reset_fail_of_ne (h : s.slot ≠ 0 ∧ s.slot ≠ p) :
    s.reset p false = (false, s.cleanup s.slot) := by
  show (false, if s.slot ≠ 0 ∧ s.slot ≠ p then s.cleanup s.slot else s) = _
  rw [if_pos h]

/-! ### Ownership -/

/-- What is in the slot is alive and has not been given away, and what the `tls_ptr` has destroyed
was its own. -/
structure Owns (s : TlsPtr) : Prop where
  heap : s.heap.Ok
  live : s.slot ≠ 0 → s.heap.Live s.slot
  kept : s.slot ≠ 0 → s.heap.object s.slot ∉ s.released
  byPtr : ∀ o ∈ s.byPtr, o ∈ s.heap.destroyed
  released : ∀ o ∈ s.released, o ∉ s.byPtr

theorem owns_start : start.Owns :=
  ⟨ObjectHeap.ok_empty, fun h ↦ absurd rfl h, fun h ↦ absurd rfl h,
    fun _ ho ↦ absurd ho List.not_mem_nil, fun _ ho ↦ absurd ho List.not_mem_nil⟩

namespace Owns

theorem make (h : s.Owns) (hp : ¬ s.heap.Live p) : Owns { s with heap := s.heap.make p } where
  heap := h.heap.make
  live hs := by
    have hne : s.slot ≠ p := fun heq ↦ hp (heq ▸ h.live hs)
    exact (h.live hs).make_of_ne hne
  kept hs := by
    have hne : s.slot ≠ p := fun heq ↦ hp (heq ▸ h.live hs)
    show (s.heap.make p).object s.slot ∉ s.released
    rw [ObjectHeap.object_make_of_ne hne]
    exact h.kept hs
  byPtr := h.byPtr
  released := h.released

/-- An object that is destroyed, by the thread itself. -/
theorem delete (h : s.Owns) (hp : s.heap.Live p) (hne : p ≠ s.slot) :
    Owns { s with heap := s.heap.destroy p } where
  heap := h.heap.destroy hp
  live hs := (h.live hs).destroy_of_ne hne.symm
  kept := h.kept
  byPtr o ho := List.mem_append_left _ (h.byPtr o ho)
  released := h.released

/-- The slot is emptied, and what was in it is nobody's. -/
theorem clear (h : s.Owns) (b : Bool) : Owns { s with slot := 0, exited := b } :=
  ⟨h.heap, fun hs ↦ absurd rfl hs, fun hs ↦ absurd rfl hs, h.byPtr, h.released⟩

/-- An object that is destroyed by the `tls_ptr`. -/
theorem cleanup (h : s.Owns) (hp : s.heap.Live p) (hne : p ≠ s.slot)
    (hkept : s.heap.object p ∉ s.released) : (s.cleanup p).Owns where
  heap := h.heap.destroy hp
  live hs := (h.live hs).destroy_of_ne hne.symm
  kept := h.kept
  byPtr o ho := by
    rcases List.mem_append.1 ho with ho | ho
    · exact List.mem_append_left _ (h.byPtr o ho)
    · exact List.mem_append_right _ ho
  released o ho hmem := by
    rcases List.mem_append.1 hmem with hmem | hmem
    · exact h.released o ho hmem
    · exact hkept (List.mem_singleton.1 hmem ▸ ho)

/-- An object that is given to the caller. -/
theorem give (h : s.Owns) (hs : s.slot = 0) (hp : s.heap.Live p) : (s.give p).Owns where
  heap := h.heap
  live := h.live
  kept hne := absurd hs hne
  byPtr := h.byPtr
  released o ho hmem := by
    rcases List.mem_append.1 ho with ho | ho
    · exact h.released o ho hmem
    · exact hp.2 (List.mem_singleton.1 ho ▸ h.byPtr o hmem)

/-- An object that is taken from the caller. -/
theorem store (h : s.Owns) (hp : p ≠ 0 → s.heap.Live p) : Owns (take { s with slot := p } p) where
  heap := h.heap
  live := hp
  kept _ hmem := absurd rfl (of_decide_eq_true (List.mem_filter.1 hmem).2)
  byPtr := h.byPtr
  released o ho := h.released o (List.mem_filter.1 ho).1

theorem exit (h : s.Owns) : s.exit.Owns := by
  have hclear := h.clear true
  unfold TlsPtr.exit
  split
  · next hs => exact hclear.cleanup (h.live hs) hs (h.kept hs)
  · exact hclear

theorem release (h : s.Owns) (ok : Bool) (hstep : s.call (.release ok) = some s') : s'.Owns := by
  cases ok with
  | false => cases hstep; exact h
  | true =>
    replace hstep : some (if s.slot = 0 then { s with slot := 0 } else
      TlsPtr.give { s with slot := 0 } s.slot) = some s' := hstep
    obtain rfl := Option.some.inj hstep
    have hclear := h.clear s.exited
    split
    · exact hclear
    · next hs => exact hclear.give rfl (h.live hs)

/-- A `reset` destroys what it replaces, and takes the new object. -/
theorem reset (h : s.Owns) (hp : p = 0 ∨ p = s.slot ∨ s.heap.Live p) :
    ((s.reset p true).2.take p).Owns := by
  have hclear := h.clear s.exited
  show Owns (take { (if s.slot ≠ 0 ∧ s.slot ≠ p then s.cleanup s.slot else s) with slot := p } p)
  split
  · next hs =>
    have hclean := hclear.cleanup (h.live hs.1) hs.1 (h.kept hs.1)
    exact hclean.store fun hp0 ↦
      (((hp.resolve_left hp0).resolve_left hs.2.symm).destroy_of_ne hs.2.symm)
  · next hs =>
    refine hclear.store fun hp0 ↦ ?_
    rcases hp.resolve_left hp0 with rfl | hlive
    · exact h.live hp0
    · exact hlive

end Owns

/-- **The condition.** No `reset` fails that has an object to destroy. -/
def StoresNext (s : TlsPtr) (op : TlsOp) : Prop :=
  ∀ p, op = .reset p false → s.slot = 0 ∨ s.slot = p

theorem Owns.step (h : s.Owns) (hop : s.StoresNext op) (hstep : s.step op = some s') : s'.Owns := by
  obtain ⟨-, hcall⟩ := Option.ite_none_left_eq_some.1 hstep
  cases op with
  | make p =>
    obtain ⟨hp, ⟨⟩⟩ := Option.ite_none_right_eq_some.1 hcall
    exact h.make hp.2
  | delete p =>
    obtain ⟨hp, ⟨⟩⟩ := Option.ite_none_right_eq_some.1 hcall
    exact h.delete hp.1 hp.2
  | get => cases hcall; exact h
  | release ok => exact h.release ok hcall
  | reset p ok =>
    obtain ⟨hp, rfl⟩ := call_reset hcall
    cases ok with
    | false =>
      rw [reset_fail (hop p rfl)]
      exact h
    | true => exact h.reset hp
  | exit => cases hcall; exact h.exit

/-- **Destroyed once**: no object has been destroyed twice, `get` does not return one that has been
destroyed, and none that the `tls_ptr` has given away has been destroyed by it. -/
structure OwnsOnce (s : TlsPtr) : Prop where
  once : s.heap.destroyed.Nodup
  get : s.get ≠ 0 → s.heap.object s.get ∉ s.heap.destroyed
  released : ∀ o ∈ s.released, o ∉ s.byPtr

theorem Owns.ownsOnce (h : s.Owns) : s.OwnsOnce :=
  ⟨h.heap.nodup, fun hs ↦ (h.live hs).2, h.released⟩

/-- A `reset` that fails with an object to destroy leaves it in the slot. -/
theorem not_ownsOnce_of_step (hop : ¬ s.StoresNext op) (hstep : s.step op = some s') :
    ¬ s'.OwnsOnce := by
  intro honce
  simp only [StoresNext, not_forall] at hop
  obtain ⟨p, rfl, hne⟩ := hop
  have hne' := not_or.1 hne
  obtain ⟨-, hcall⟩ := Option.ite_none_left_eq_some.1 hstep
  obtain ⟨-, heq⟩ := call_reset hcall
  obtain rfl : s' = s.cleanup s.slot := by rw [heq, reset_fail_of_ne hne']; rfl
  exact honce.get hne'.1 ObjectHeap.object_mem_destroyed

/-- **What the `tls_ptr` owns it destroys once** along a run exactly if no `reset` fails that has an
object to destroy. -/
theorem ownsOnce_iff {ops : List TlsOp} (h : run step start ops = some s) :
    EveryState step OwnsOnce start ops ↔ EveryStep step StoresNext start ops :=
  everyState_iff_everyStep (fun _ hs ↦ hs.ownsOnce) (fun _ _ _ hs hop hstep ↦ hs.step hop hstep)
    (fun _ _ _ _ hop hstep ↦ not_ownsOnce_of_step hop hstep) owns_start h

/-- An object is replaced, and the other is given away. -/
theorem ownsOnce_iff_replaced : EveryState step OwnsOnce start
    [.make 8, .reset 8 true, .make 16, .reset 16 true, .release false, .release true, .exit] := by
  obtain ⟨s, hrun⟩ : ∃ s, run step start
      [.make 8, .reset 8 true, .make 16, .reset 16 true, .release false, .release true, .exit] =
        some s := ⟨_, rfl⟩
  refine (ownsOnce_iff hrun).2 ?_
  rintro ops₁ op ops₂ t hops ht p rfl
  -- no `reset` of this run fails
  have hmem : TlsOp.reset p false ∈ ops₁ ++ .reset p false :: ops₂ :=
    List.mem_append_right _ List.mem_cons_self
  rw [← hops] at hmem
  simp at hmem

/-- **Destroyed at the exit**, after a `reset` that has failed to store has destroyed it already. -/
theorem destroyed_at_exit : ¬ ∀ ops : List TlsOp, EveryState step OwnsOnce start ops := by
  intro hall
  obtain ⟨s, hrun, hdestroyed⟩ : ∃ s, run step start
      [.make 8, .reset 8 true, .make 16, .reset 16 false, .exit] = some s ∧
        s.heap.destroyed = [(8, 1), (8, 1)] := ⟨_, rfl, rfl⟩
  exact absurd ((hall _).last hrun).once (by rw [hdestroyed]; decide)

end TlsPtr

end Libk2
