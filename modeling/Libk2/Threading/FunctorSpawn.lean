import Libk2.Runtime.FunctorCopies
import Libk2.Threading.ThreadCancel

/-!
# The functor of a thread

The copy goes from `thread::spawn` through `spawn_impl`, the `thread_cntx` and the new thread to
`thread_entry_wrapper`. If the context cannot be allocated, if `pthread_create` fails, or if the new
thread cannot set its context, it gets no further, and is never destroyed. `FunctorSpawn.once_iff`
says that nothing else goes wrong.
-/

namespace Libk2

open Monitor StepSystem

/-- The entry function has been called, and its call has ended. -/
def EntryPc.CallOver : EntryPc → Prop
  | .notStarted | .atLock | .atSetRunning | .atSignal | .atTlsReset | .atUnlock true | .inEntry
  | .atTestLock | .atTest | .atTestUnlock | .atEnableLock _ | .atEnable _ | .atEnableUnlock => False
  | _ => True

namespace EntryPc

variable {p q : EntryPc} {d d' : ThreadData} {τ : Type*} {a : Choice (Party τ) ThreadInput}

theorem CallOver.next (h : p.CallOver) (hn : p.code.next d a = some (d', q)) : q.CallOver := by
  cases moves_of_next hn <;> trivial

/-- Only the entry function's call can end. -/
theorem next_finish {e : EntryEnd}
    (hn : p.code.next d (.input (.finish e) : Choice (Party τ) _) = some (d', q)) :
    p = .inEntry ∧ q = .atCause e := by
  cases moves_of_next hn
  exact ⟨rfl, rfl⟩

theorem next_reset {ok : Bool}
    (hn : p.code.next d (.input (.reset ok) : Choice (Party τ) _) = some (d', q)) :
    p = .atTlsReset := by
  cases moves_of_next hn <;> rfl

/-- The thread starts once it has been created. -/
theorem created_of_next (hn : p.code.next d a = some (d', q)) (hp : p = .notStarted) :
    d.created = true := by
  subst hp
  cases moves_of_next hn with
  | start hd => exact hd

end EntryPc

theorem SpawnPc.next_create {p q : SpawnPc} {d d' : ThreadData} {τ : Type*} {ok : Bool}
    (hn : p.code.next d (.input (.create ok) : Choice (Party τ) _) = some (d', q)) :
    p = .atCreate := by
  cases moves_of_next hn <;> rfl

/-- `thread::spawn`, once the functor has been copied: the copy is number 0. `thread` is the thread,
with its spawner, once the context has been allocated; `refused` says that it could not be. -/
structure FunctorSpawn (τ : Type*) where
  detached : Bool
  thread : Option (ThreadSys τ)
  refused : Bool
  copies : Copies

/-- The allocation of the context succeeds or fails, or there is a step of the thread and its
parties. -/
inductive SpawnLabel (τ : Type*) where
  | context (ok : Bool)
  | thread (l : ThreadLabel τ)

/-- The copy is kept, or it is not handed on, or its call ends. -/
inductive CopyFate where
  | kept
  | lost
  | ended
deriving DecidableEq

/-- Copy 0 meets its fate. -/
def Copies.meet (c : Copies) : CopyFate → Copies
  | .kept => c
  | .lost => c.fail 0
  | .ended => c.callEnds 0

namespace FunctorSpawn

variable {τ : Type*}

/-- The functor has been copied. -/
def start (τ : Type*) (detached : Bool) : FunctorSpawn τ :=
  ⟨detached, none, false, Copies.none.copy⟩

/-- What a step of the thread and its parties means for the copy. -/
def copyFate : ThreadLabel τ → CopyFate
  | .act .spawner (.input (.create false)) => .lost
  -- the wrapper gets to its handlers without having called the entry function
  | .act .thread (.input (.reset false)) => .lost
  | .act .thread (.input (.finish _)) => .ended
  | _ => .kept

/-- One step. -/
def step [DecidableEq τ] (s : FunctorSpawn τ) : SpawnLabel τ → Option (FunctorSpawn τ)
  | .context ok =>
    if s.thread.isNone ∧ s.refused = false then
      some (if ok = true then { s with thread := some (ThreadSys.start τ s.detached) }
        else { s with refused := true, copies := s.copies.fail 0 })
    else none
  | .thread l => s.thread.bind fun c ↦ (c.step l).map fun c' ↦
    { s with thread := some c', copies := s.copies.meet (copyFate l) }

theorem eq_finish_of_ended {l : ThreadLabel τ} (h : copyFate l = .ended) :
    ∃ e, l = .act .thread (.input (.finish e)) := by
  unfold copyFate at h
  split at h
  · cases h
  · cases h
  · exact ⟨_, rfl⟩
  · cases h

/-- **The condition** for `thread::spawn`: the context is allocated, `pthread_create` succeeds, and
so does setting the context in the new thread. -/
def Succeeds (_ : FunctorSpawn τ) : SpawnLabel τ → Prop
  | .context ok => ok = true
  | .thread l => copyFate l ≠ .lost

/-- Where the thread is while the copy has not been destroyed. -/
structure Carries (c : ThreadSys τ) (k : Copies) : Prop where
  views : c.Views
  created : c.threadPc ≠ .notStarted → c.data.created = true
  kept : ¬ c.threadPc.CallOver → k.destroyed = []

/-- Nothing has failed so far. -/
structure Sound (s : FunctorSpawn τ) : Prop where
  settled : s.copies.Settled
  unmade : s.thread = none → s.copies.destroyed = []
  carries : ∀ c, s.thread = some c → Carries c s.copies

theorem sound_start (τ : Type*) (detached : Bool) : (start τ detached).Sound :=
  ⟨Copies.settled_none.copy, fun _ ↦ rfl, fun _ hc ↦ by cases hc⟩

namespace Carries

variable {c c' : ThreadSys τ} {k : Copies} {l : ThreadLabel τ}

/-- While `pthread_create` is to come, the thread has not started. -/
theorem destroyed_of_atCreate (h : Carries c k) (hpc : c.spawnerPc = .atCreate) :
    k.destroyed = [] := by
  have hview := h.views.spawner
  rw [hpc] at hview
  have hnot : c.threadPc = .notStarted := by
    by_contra hne
    exact Bool.false_ne_true (hview.1.symm.trans (h.created hne))
  exact h.kept (by rw [hnot]; exact id)

variable [DecidableEq τ]

/-- Until the copy meets its fate it has not been destroyed. -/
theorem destroyed_of_step (h : Carries c k) (hstep : c.step l = some c')
    (hl : copyFate l ≠ .kept) : k.destroyed = [] := by
  obtain ⟨i, m, rfl, -, -⟩ | ⟨i, a, m, d, p, rfl, -, hn, -⟩ := Program.step_cases hstep
  · exact absurd rfl hl
  · unfold copyFate at hl
    split at hl
    · next heq =>
      cases heq
      exact h.destroyed_of_atCreate (SpawnPc.next_create hn)
    · next heq =>
      cases heq
      have hpc : c.threadPc = .atTlsReset := EntryPc.next_reset hn
      exact h.kept (by rw [hpc]; exact id)
    · next heq =>
      cases heq
      have hpc : c.threadPc = .inEntry := (EntryPc.next_finish hn).1
      exact h.kept (by rw [hpc]; exact id)
    · exact absurd rfl hl

theorem step (h : Carries c k) (hstep : c.step l = some c') :
    Carries c' (k.meet (copyFate l)) := by
  have hviews := h.views.step hstep
  have hkept : copyFate l ≠ .ended → ¬ c.threadPc.CallOver →
      (k.meet (copyFate l)).destroyed = [] := by
    intro hl hover
    cases hfate : copyFate l with
    | kept => exact h.kept hover
    | lost => exact h.kept hover
    | ended => exact absurd hfate hl
  obtain ⟨i, m, rfl, -, rfl⟩ | ⟨i, a, m, d, p, rfl, -, hn, rfl⟩ := Program.step_cases hstep
  · exact ⟨hviews, h.created, h.kept⟩
  · have hfinish : copyFate (.act i a : ThreadLabel τ) = .ended →
        ∃ e, (.act i a : ThreadLabel τ) = .act .thread (.input (.finish e)) := eq_finish_of_ended
    have hcreated : c.data.created = true → d.created = true := (h.views.forward hn).created
    cases i with
    | spawner =>
      exact ⟨hviews, fun hne ↦ hcreated (h.created hne),
        hkept fun hl ↦ by obtain ⟨e, ⟨⟩⟩ := hfinish hl⟩
    | caller t => exact ⟨hviews, fun hne ↦ hcreated (h.created hne), hkept nofun⟩
    | thread =>
      refine ⟨hviews, fun _ ↦ hcreated ?_, fun hover ↦ hkept ?_ fun hp ↦ hover (hp.next hn)⟩
      · by_cases hpc : c.threadPc = .notStarted
        · exact EntryPc.created_of_next hn hpc
        · exact h.created hpc
      · intro hl
        obtain ⟨e, heq⟩ := hfinish hl
        cases heq
        obtain ⟨-, rfl⟩ := EntryPc.next_finish hn
        exact hover trivial

end Carries

variable [DecidableEq τ] {s s' : FunctorSpawn τ} {l : SpawnLabel τ}

/-- What a step can do. -/
theorem step_cases (h : s.step l = some s') :
    (∃ ok, l = .context ok ∧ s.thread = none ∧
      s' = if ok = true then { s with thread := some (ThreadSys.start τ s.detached) }
        else { s with refused := true, copies := s.copies.fail 0 }) ∨
    ∃ l' c c', l = .thread l' ∧ s.thread = some c ∧ c.step l' = some c' ∧
      s' = { s with thread := some c', copies := s.copies.meet (copyFate l') } := by
  cases l with
  | context ok =>
    obtain ⟨⟨hnone, -⟩, heq⟩ := Option.ite_none_right_eq_some.1 h
    exact .inl ⟨ok, rfl, Option.isNone_iff_eq_none.1 hnone, (Option.some.inj heq).symm⟩
  | thread l' =>
    obtain ⟨c, hc, heq⟩ := Option.bind_eq_some_iff.1 h
    obtain ⟨c', hc', rfl⟩ := Option.map_eq_some_iff.1 heq
    exact .inr ⟨l', c, c', rfl, hc, hc', rfl⟩

theorem Sound.step (h : s.Sound) (hl : s.Succeeds l) (hstep : s.step l = some s') : s'.Sound := by
  obtain ⟨ok, rfl, hnone, rfl⟩ | ⟨l', c, c', rfl, hc, hc', rfl⟩ := step_cases hstep
  · obtain rfl : ok = true := hl
    refine ⟨h.settled, nofun, fun c hc ↦ ?_⟩
    obtain rfl := Option.some.inj hc
    exact ⟨ThreadSys.views_start τ s.detached, fun hne ↦ absurd rfl hne, fun _ ↦ h.unmade hnone⟩
  · have hcarries := h.carries c hc
    refine ⟨?_, nofun, fun c'' hc'' ↦ Option.some.inj hc'' ▸ hcarries.step hc'⟩
    show (s.copies.meet (copyFate l')).Settled
    cases hfate : copyFate l' with
    | kept => exact h.settled
    | lost => exact absurd hfate hl
    | ended =>
      have hempty := hcarries.destroyed_of_step hc' (hfate.trans_ne nofun)
      exact h.settled.callEnds (hempty ▸ List.not_mem_nil)

/-- A failure leaves the copy to nobody. -/
theorem Sound.not_once_of_step (h : s.Sound) (hl : ¬ s.Succeeds l) (hstep : s.step l = some s') :
    ¬ s'.copies.Once := by
  obtain ⟨ok, rfl, hnone, rfl⟩ | ⟨l', c, c', rfl, hc, hc', rfl⟩ := step_cases hstep
  · obtain rfl : ok = false := Bool.eq_false_of_not_eq_true hl
    exact Copies.not_once_fail (h.unmade hnone ▸ List.not_mem_nil)
  · have hfate : copyFate l' = .lost := not_not.1 hl
    have hempty := (h.carries c hc).destroyed_of_step hc' (hfate.trans_ne nofun)
    show ¬ (s.copies.meet (copyFate l')).Once
    rw [hfate]
    exact Copies.not_once_fail (hempty ▸ List.not_mem_nil)

/-- A spawned functor is destroyed once exactly if nothing fails. -/
theorem once_iff {detached : Bool} {ls : List (SpawnLabel τ)}
    (h : run step (start τ detached) ls = some s) :
    EveryState step (fun s ↦ s.copies.Once) (start τ detached) ls ↔
      EveryStep step Succeeds (start τ detached) ls :=
  everyState_iff_everyStep (fun _ hs ↦ hs.settled.once) (fun _ _ _ hs hl hstep ↦ hs.step hl hstep)
    (fun _ _ _ hs hl hstep ↦ hs.not_once_of_step hl hstep) (sound_start τ detached) h

end FunctorSpawn

end Libk2
