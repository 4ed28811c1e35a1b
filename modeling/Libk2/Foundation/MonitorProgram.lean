import Libk2.Foundation.Interleaving
import Libk2.Foundation.Monitor

/-!
# Programs over a monitor

A program says of each position of each party what the party does there: an instruction on the mutex
or on the condition variable, an access to the data of the object they belong to, or something else
that may have to wait or depend on a choice from outside. Positions are labelled by whether the
party holds the mutex there and whether it may be asleep, and the labels are consistent with the
instructions (`Program.disciplined`), so a program carries its own proof that nobody releases a
mutex that it does not hold.

An assertion is `Q` about the data together with `P` about each party's position in view of the
data. The rule (`Program.asserts_step`) leaves only instructions as functions of the data to be
checked, and lets a party that holds the mutex assume that nobody else does.
-/

namespace Monitor

/-- What a party does in one step. -/
inductive Instr (σ ℓ π : Type*) where
  | lock (next : π)
  | unlock (next : π)
  | wait (next : π)
  | signal (next : π)
  /-- Read or write the data of the object. -/
  | access (f : σ → σ × π)
  /-- Do something else, as soon as that is possible. -/
  | other (f : σ → Option (σ × π))
  /-- Do something else, as it is chosen from outside. -/
  | input (f : ℓ → σ → Option (σ × π))

/-- What the step of a party depends on besides the state. -/
inductive Choice (ι ℓ : Type*) where
  | next
  | woken (w : Option ι)
  | input (l : ℓ)
deriving DecidableEq

/-- A monitor and the data that the parties share. -/
structure Shared (ι σ : Type*) where
  monitor : Monitor ι
  data : σ

variable {ι σ ℓ : Type*}

namespace Instr

variable {π : Type*}

/-- The instruction as a function of the data. -/
def next (d : σ) : Instr σ ℓ π → Choice ι ℓ → Option (σ × π)
  | .lock p, .next => some (d, p)
  | .unlock p, .next => some (d, p)
  | .wait p, .next => some (d, p)
  | .signal p, .woken _ => some (d, p)
  | .access f, .next => some (f d)
  | .other f, .next => f d
  | .input f, .input l => f l d
  | _, _ => none

/-- The instruction uses the object: its mutex, its condition variable or its data. -/
def Uses : Instr σ ℓ π → Prop
  | .other _ | .input _ => False
  | _ => True

theorem next_lock {p : π} {d : σ} {c : Choice ι ℓ} {r : σ × π}
    (h : (lock p : Instr σ ℓ π).next d c = some r) : c = .next ∧ r = (d, p) := by
  cases c with
  | next => exact ⟨rfl, (Option.some.inj h).symm⟩
  | _ => cases h

theorem next_unlock {p : π} {d : σ} {c : Choice ι ℓ} {r : σ × π}
    (h : (unlock p : Instr σ ℓ π).next d c = some r) : c = .next ∧ r = (d, p) := by
  cases c with
  | next => exact ⟨rfl, (Option.some.inj h).symm⟩
  | _ => cases h

theorem next_wait {p : π} {d : σ} {c : Choice ι ℓ} {r : σ × π}
    (h : (wait p : Instr σ ℓ π).next d c = some r) : c = .next ∧ r = (d, p) := by
  cases c with
  | next => exact ⟨rfl, (Option.some.inj h).symm⟩
  | _ => cases h

theorem next_signal {p : π} {d : σ} {c : Choice ι ℓ} {r : σ × π}
    (h : (signal p : Instr σ ℓ π).next d c = some r) : (∃ w, c = .woken w) ∧ r = (d, p) := by
  cases c with
  | woken w => exact ⟨⟨w, rfl⟩, (Option.some.inj h).symm⟩
  | _ => cases h

theorem next_access {f : σ → σ × π} {d : σ} {c : Choice ι ℓ} {r : σ × π}
    (h : (access f : Instr σ ℓ π).next d c = some r) : c = .next ∧ r = f d := by
  cases c with
  | next => exact ⟨rfl, (Option.some.inj h).symm⟩
  | _ => cases h

theorem next_other {f : σ → Option (σ × π)} {d : σ} {c : Choice ι ℓ} {r : σ × π}
    (h : (other f : Instr σ ℓ π).next d c = some r) : c = .next ∧ f d = some r := by
  cases c with
  | next => exact ⟨rfl, h⟩
  | _ => cases h

theorem next_input {f : ℓ → σ → Option (σ × π)} {d : σ} {c : Choice ι ℓ} {r : σ × π}
    (h : (input f).next d c = some r) : ∃ l, c = .input l ∧ f l d = some r := by
  cases c with
  | input l => exact ⟨l, rfl, h⟩
  | _ => cases h

variable [DecidableEq ι]

/-- What the instruction of party `i` does to the monitor. -/
def effect (i : ι) (m : Monitor ι) : Instr σ ℓ π → Choice ι ℓ → Option (Monitor ι)
  | .lock _, .next => m.acquire i
  | .unlock _, .next => some m.release
  | .wait _, .next => some (m.wait i)
  | .signal _, .woken w => m.signal w
  | _, _ => some m

/-- Carry the instruction out. -/
def exec (i : ι) (s : Shared ι σ) (instr : Instr σ ℓ π) (c : Choice ι ℓ) :
    Option (Shared ι σ × π) :=
  (instr.effect i s.monitor c).bind fun m ↦ (instr.next s.data c).map fun r ↦ (⟨m, r.1⟩, r.2)

theorem exec_eq_some {i : ι} {s s' : Shared ι σ} {instr : Instr σ ℓ π} {c : Choice ι ℓ} {p : π}
    (h : instr.exec i s c = some (s', p)) :
    instr.effect i s.monitor c = some s'.monitor ∧ instr.next s.data c = some (s'.data, p) := by
  obtain ⟨m, hm, hr⟩ := Option.bind_eq_some_iff.1 h
  obtain ⟨⟨d, q⟩, hd, heq⟩ := Option.map_eq_some_iff.1 hr
  cases heq
  exact ⟨hm, hd⟩

/-- From a position where the party holds the mutex, or may be asleep, only if the labels say so,
the instruction leads to one where the labels are right again. -/
def Disciplined (holds asleep : π → Prop) (p : π) : Instr σ ℓ π → Prop
  | .lock q => ¬ holds p ∧ holds q
  | .unlock q => holds p ∧ ¬ holds q ∧ ¬ asleep p
  | .wait q => holds p ∧ ¬ holds q ∧ asleep q
  | .signal q => (holds q ↔ holds p) ∧ ¬ asleep p
  | .access f => (∀ d, holds (f d).2 ↔ holds p) ∧ ¬ asleep p
  | .other f => (∀ d r, f d = some r → (holds r.2 ↔ holds p)) ∧ ¬ asleep p
  | .input f => (∀ l d r, f l d = some r → (holds r.2 ↔ holds p)) ∧ ¬ asleep p

/-- **The views** after an instruction: the party's own is right for its next position, and the
others' are as they were. -/
theorem seen_exec {holds asleep : π → Prop} {i : ι} {m m' : Monitor ι} {d d' : σ} {p q : π}
    {instr : Instr σ ℓ π} {c : Choice ι ℓ} (hdisc : instr.Disciplined holds asleep p)
    (h : m.Seen i (holds p) (asleep p)) (hm : instr.effect i m c = some m')
    (hq : instr.next d c = some (d', q)) :
    m'.Seen i (holds q) (asleep q) ∧
      ∀ j ≠ i, ∀ holds' asleep', m.Seen j holds' asleep' → m'.Seen j holds' asleep' := by
  cases instr with
  | lock =>
    cases c <;> cases hq
    exact ⟨(Seen.acquire_self hm).move (iff_true_intro hdisc.2) False.elim,
      fun j hji _ _ hj ↦ hj.acquire_of_ne hm hji⟩
  | unlock =>
    cases c <;> cases hq
    cases hm
    have hown : m.Seen i True False := h.move (iff_true_intro hdisc.1).symm hdisc.2.2
    exact ⟨hown.release_self.move (iff_false_intro hdisc.2.1) False.elim,
      fun j hji _ _ hj ↦ hj.release_of_ne hown hji⟩
  | wait =>
    cases c <;> cases hq
    cases hm
    have hown : m.Seen i True (asleep p) := h.move (iff_true_intro hdisc.1).symm id
    exact ⟨(Seen.wait_self m i).move (iff_false_intro hdisc.2.1) fun _ ↦ hdisc.2.2,
      fun j hji _ _ hj ↦ hj.wait_of_ne hown hji⟩
  | signal =>
    cases c <;> cases hq
    have hquiet := quieter_of_signal hm
    exact ⟨(h.move hdisc.1 fun hp ↦ absurd hp hdisc.2).quieter hquiet,
      fun _ _ _ _ hj ↦ hj.quieter hquiet⟩
  | access f =>
    obtain ⟨rfl, heq⟩ := next_access hq
    obtain rfl : q = (f d).2 := congrArg Prod.snd heq
    cases hm
    exact ⟨h.move (hdisc.1 d) fun hp ↦ absurd hp hdisc.2, fun _ _ _ _ hj ↦ hj⟩
  | other f =>
    obtain ⟨rfl, hf⟩ := next_other hq
    cases hm
    exact ⟨h.move (hdisc.1 d _ hf) fun hp ↦ absurd hp hdisc.2, fun _ _ _ _ hj ↦ hj⟩
  | input f =>
    obtain ⟨l, rfl, hf⟩ := next_input hq
    cases hm
    exact ⟨h.move (hdisc.1 l d _ hf) fun hp ↦ absurd hp hdisc.2, fun _ _ _ _ hj ↦ hj⟩

/-- Nobody else falls asleep by it. -/
theorem mem_waiting_of_effect {i j : ι} {m m' : Monitor ι} {instr : Instr σ ℓ π} {c : Choice ι ℓ}
    (hm : instr.effect i m c = some m') (hji : j ≠ i) (hj : j ∈ m'.waiting) : j ∈ m.waiting := by
  cases instr with
  | lock =>
    cases c with
    | next =>
      obtain ⟨-, ⟨⟩⟩ := Option.ite_none_right_eq_some.1 hm
      exact hj
    | _ => cases hm; exact hj
  | wait =>
    cases c with
    | next => cases hm; exact (Finset.mem_insert.1 hj).resolve_left hji
    | _ => cases hm; exact hj
  | signal =>
    cases c with
    | woken w => exact (quieter_of_signal hm).subset hj
    | _ => cases hm; exact hj
  | _ => cases c <;> cases hm <;> exact hj

end Instr

/-! ### Programs -/

/-- What each party does at each of its positions, and what is known of the mutex there. -/
structure Program (ι σ ℓ : Type*) (π : ι → Type*) where
  code : ∀ i, π i → Instr σ ℓ (π i)
  holds : ∀ i, π i → Prop
  asleep : ∀ i, π i → Prop
  disciplined : ∀ i p, (code i p).Disciplined (holds i) (asleep i) p

namespace Program

open Interleaving

variable [DecidableEq ι] {π : ι → Type*} (prog : Program ι σ ℓ π)

/-- One step: a sleeper wakes, or a party carries out the instruction at its position. -/
def step : Config ι (Shared ι σ) π → Label ι ι (Choice ι ℓ) → Option (Config ι (Shared ι σ) π) :=
  Interleaving.step (fun s i ↦ (s.monitor.wake i).map fun m ↦ { s with monitor := m })
    fun i s p c ↦ (prog.code i p).exec i s c

variable {prog}

/-- What a step can do. -/
theorem step_cases {c c' : Config ι (Shared ι σ) π} {l : Label ι ι (Choice ι ℓ)}
    (h : prog.step c l = some c') :
    (∃ i m, l = .env i ∧ c.shared.monitor.wake i = some m ∧ c' = ⟨⟨m, c.shared.data⟩, c.pos⟩) ∨
      ∃ i a m d p, l = .act i a ∧ (prog.code i (c.pos i)).effect i c.shared.monitor a = some m ∧
        (prog.code i (c.pos i)).next c.shared.data a = some (d, p) ∧
        c' = ⟨⟨m, d⟩, Function.update c.pos i p⟩ := by
  obtain ⟨i, s, rfl, hs, rfl⟩ | ⟨i, a, s, p, rfl, hs, rfl⟩ := Interleaving.step_cases h
  · obtain ⟨m, hm, rfl⟩ := Option.map_eq_some_iff.1 hs
    exact .inl ⟨i, m, rfl, hm, rfl⟩
  · obtain ⟨hm, hp⟩ := Instr.exec_eq_some hs
    exact .inr ⟨i, a, s.monitor, s.data, p, rfl, hm, hp, rfl⟩

variable (prog) in
/-- The views are right, the data meet `Q`, and every position meets `P` in view of the data. -/
def Asserts (Q : σ → Prop) (P : ∀ i, σ → π i → Prop) (c : Config ι (Shared ι σ) π) : Prop :=
  Holds (fun s ↦ Q s.data)
    (fun i s p ↦ s.monitor.Seen i (prog.holds i p) (prog.asleep i p) ∧ P i s.data p) c

/-- **Interference freedom**, for programs over a monitor. -/
theorem asserts_step {Q : σ → Prop} {P : ∀ i, σ → π i → Prop}
    {G : Config ι (Shared ι σ) π → Label ι ι (Choice ι ℓ) → Prop}
    (hown : ∀ c i a d p, prog.Asserts Q P c → G c (.act i a) →
      (prog.code i (c.pos i)).next c.shared.data a = some (d, p) → Q d ∧ P i d p)
    (hothers : ∀ c i a d p, prog.Asserts Q P c → G c (.act i a) →
      (prog.code i (c.pos i)).next c.shared.data a = some (d, p) →
      ∀ j ≠ i, (prog.holds i (c.pos i) → ¬ prog.holds j (c.pos j)) → P j d (c.pos j))
    (c : Config ι (Shared ι σ) π) (l : Label ι ι (Choice ι ℓ)) (c' : Config ι (Shared ι σ) π)
    (h : prog.Asserts Q P c) (hG : G c l) (hstep : prog.step c l = some c') :
    prog.Asserts Q P c' := by
  refine holds_step (G := G) ?_ ?_ c l c' h hG hstep
  · rintro c i s ⟨hQ, hP⟩ - hs
    obtain ⟨m, hm, rfl⟩ := Option.map_eq_some_iff.1 hs
    exact ⟨hQ, fun j ↦ ⟨(hP j).1.quieter (quieter_of_wake hm), (hP j).2⟩⟩
  · intro c i a s p h hG hs
    obtain ⟨hm, hp⟩ := Instr.exec_eq_some hs
    obtain ⟨hself, hseen⟩ := Instr.seen_exec (prog.disciplined i (c.pos i)) (h.2 i).1 hm hp
    obtain ⟨hQ, hP⟩ := hown c i a s.data p h hG hp
    refine ⟨hQ, ⟨hself, hP⟩, fun j hji ↦ ⟨hseen j hji _ _ (h.2 j).1, ?_⟩⟩
    exact hothers c i a s.data p h hG hp j hji fun hi hj ↦ hji ((h.2 j).1.exclusive (h.2 i).1 hj hi)

end Program

end Monitor
