import Mathlib.Data.Finset.Basic
import Mathlib.Data.Finset.Insert

/-!
# A mutex with a condition variable

The state of one mutex and of one condition variable used with it, among parties `ι`: who owns the
mutex, and who sleeps on the condition variable. To wait is to give up the mutex and fall asleep in
one step; a sleeper is woken by a signal, or without one (`wake`), and then has to acquire the mutex
again like everybody else. Which sleeper a signal wakes is not determined.

`Seen m i holds asleep` is a party's own view: it owns the mutex exactly if `holds`, and it sleeps
only if `asleep`. The rules say what each operation does to the view of the party that performs it
and that it leaves everybody else's view as it was; mutual exclusion is `Seen.exclusive`.
-/

/-- A mutex, by its owner, and a condition variable, by its sleepers. -/
structure Monitor (ι : Type*) where
  owner : Option ι
  waiting : Finset ι

namespace Monitor

variable {ι : Type*}

/-- Nobody holds it, nobody sleeps. -/
def init : Monitor ι := ⟨none, ∅⟩

/-- Give the mutex up. -/
def release (m : Monitor ι) : Monitor ι := { m with owner := none }

variable [DecidableEq ι]

/-- Take the mutex, if it is free and the party is awake. -/
def acquire (m : Monitor ι) (i : ι) : Option (Monitor ι) :=
  if m.owner = none ∧ i ∉ m.waiting then some { m with owner := some i } else none

/-- Give the mutex up and fall asleep. -/
def wait (m : Monitor ι) (i : ι) : Monitor ι := ⟨none, insert i m.waiting⟩

/-- Stop sleeping. -/
def wake (m : Monitor ι) (i : ι) : Option (Monitor ι) :=
  if i ∈ m.waiting then some { m with waiting := m.waiting.erase i } else none

/-- Wake one sleeper, if there is one. -/
def signal (m : Monitor ι) : Option ι → Option (Monitor ι)
  | none => if m.waiting = ∅ then some m else none
  | some i => m.wake i

/-- A party's view. -/
structure Seen (m : Monitor ι) (i : ι) (holds asleep : Prop) : Prop where
  owner_iff : holds ↔ m.owner = some i
  asleep_of_mem : i ∈ m.waiting → asleep

/-- The second operand has the same owner, and nobody sleeps there who does not sleep here. -/
structure Quieter (m m' : Monitor ι) : Prop where
  owner_eq : m'.owner = m.owner
  subset : m'.waiting ⊆ m.waiting

omit [DecidableEq ι] in
theorem Quieter.refl (m : Monitor ι) : m.Quieter m := ⟨rfl, Finset.Subset.refl _⟩

theorem quieter_of_wake {m m' : Monitor ι} {i : ι} (h : m.wake i = some m') : m.Quieter m' := by
  obtain ⟨-, ⟨⟩⟩ := Option.ite_none_right_eq_some.1 h
  exact ⟨rfl, Finset.erase_subset _ _⟩

theorem quieter_of_signal {m m' : Monitor ι} {woken : Option ι} (h : m.signal woken = some m') :
    m.Quieter m' := by
  cases woken with
  | none =>
    obtain ⟨-, ⟨⟩⟩ := Option.ite_none_right_eq_some.1 h
    exact .refl m
  | some i => exact quieter_of_wake h

/-- If two parties sleep, a signal leaves one of them asleep. -/
theorem nonempty_of_signal {m m' : Monitor ι} {woken : Option ι} (h : m.signal woken = some m')
    {i j : ι} (hi : i ∈ m.waiting) (hj : j ∈ m.waiting) (hij : i ≠ j) :
    i ∈ m'.waiting ∨ j ∈ m'.waiting := by
  cases woken with
  | none =>
    obtain ⟨-, ⟨⟩⟩ := Option.ite_none_right_eq_some.1 h
    exact .inl hi
  | some k =>
    obtain ⟨-, ⟨⟩⟩ := Option.ite_none_right_eq_some.1 h
    by_cases hik : i = k
    · exact .inr (Finset.mem_erase.2 ⟨fun hjk ↦ hij (hik.trans hjk.symm), hj⟩)
    · exact .inl (Finset.mem_erase.2 ⟨hik, hi⟩)

namespace Seen

variable {m m' : Monitor ι} {i j : ι} {holds asleep : Prop}

omit [DecidableEq ι] in
/-- **Mutual exclusion.** -/
theorem exclusive {holds' asleep' : Prop} (hi : m.Seen i holds asleep)
    (hj : m.Seen j holds' asleep') (h : holds) (h' : holds') : i = j :=
  Option.some.inj ((hi.owner_iff.1 h).symm.trans (hj.owner_iff.1 h'))

omit [DecidableEq ι] in
/-- A party that moves on without touching the monitor. -/
theorem move {holds' asleep' : Prop} (h : m.Seen i holds asleep) (hholds : holds' ↔ holds)
    (hasleep : asleep → asleep') : m.Seen i holds' asleep' :=
  ⟨hholds.trans h.owner_iff, fun hi ↦ hasleep (h.asleep_of_mem hi)⟩

omit [DecidableEq ι] in
theorem quieter (h : m.Seen i holds asleep) (hm : m.Quieter m') : m'.Seen i holds asleep :=
  ⟨by rw [h.owner_iff, hm.owner_eq], fun hi ↦ h.asleep_of_mem (hm.subset hi)⟩

/-- The party that takes the mutex owns it and is awake. -/
theorem acquire_self (hm : m.acquire i = some m') : m'.Seen i True False := by
  obtain ⟨⟨-, hi⟩, ⟨⟩⟩ := Option.ite_none_right_eq_some.1 hm
  exact ⟨iff_of_true trivial rfl, hi⟩

theorem acquire_of_ne (h : m.Seen j holds asleep) (hm : m.acquire i = some m') (hji : j ≠ i) :
    m'.Seen j holds asleep := by
  obtain ⟨⟨hfree, -⟩, ⟨⟩⟩ := Option.ite_none_right_eq_some.1 hm
  refine ⟨iff_of_false (fun hj ↦ ?_) (fun heq ↦ hji (Option.some.inj heq).symm), h.asleep_of_mem⟩
  exact absurd (h.owner_iff.1 hj) (by rw [hfree]; exact nofun)

omit [DecidableEq ι] in
/-- The owner that gives the mutex up no longer owns it. -/
theorem release_self (h : m.Seen i True asleep) : m.release.Seen i False asleep :=
  ⟨iff_of_false id nofun, h.asleep_of_mem⟩

omit [DecidableEq ι] in
theorem release_of_ne {asleep' : Prop} (h : m.Seen j holds asleep) (hi : m.Seen i True asleep')
    (hji : j ≠ i) : m.release.Seen j holds asleep :=
  ⟨iff_of_false (fun hj ↦ hji (h.exclusive hi hj trivial)) nofun, h.asleep_of_mem⟩

theorem wait_self (m : Monitor ι) (i : ι) : (m.wait i).Seen i False True :=
  ⟨iff_of_false id nofun, fun _ ↦ trivial⟩

theorem wait_of_ne {asleep' : Prop} (h : m.Seen j holds asleep) (hi : m.Seen i True asleep')
    (hji : j ≠ i) : (m.wait i).Seen j holds asleep :=
  ⟨iff_of_false (fun hj ↦ hji (h.exclusive hi hj trivial)) nofun,
    fun hj ↦ h.asleep_of_mem ((Finset.mem_insert.1 hj).resolve_left hji)⟩

end Seen

end Monitor
