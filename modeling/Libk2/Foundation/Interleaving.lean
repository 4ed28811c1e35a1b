import Mathlib.Logic.Function.Basic
import Libk2.Foundation.StepSystem

/-!
# Interleaved parties over a shared state

Parties `ι`, each at a position of its own kind `π i`, and a state `σ` that they share. A step is
either a party's, which changes the shared state and that party's position (`act`), or the
environment's, which changes the shared state alone (`env`).

An assertion about such a system is an assertion `Q` about the shared state together with an
assertion `P` about each party's position in view of it. The rule for it (`holds_step`) asks three
things of a party's step: that it keeps `Q`, that it keeps the party's own `P`, and that it does not
interfere with the `P` of another party. A guard on the steps may be assumed.
-/

namespace Interleaving

/-- The shared state, and where each party is. -/
structure Config (ι σ : Type*) (π : ι → Type*) where
  shared : σ
  pos : ∀ i, π i

/-- Who takes the step. -/
inductive Label (ι κ ℓ : Type*) where
  | env (k : κ)
  | act (i : ι) (l : ℓ)
deriving DecidableEq

variable {ι σ κ ℓ : Type*} {π : ι → Type*} [DecidableEq ι]

section Step

variable (env : σ → κ → Option σ) (act : ∀ i, σ → π i → ℓ → Option (σ × π i))

/-- One step. -/
def step (c : Config ι σ π) : Label ι κ ℓ → Option (Config ι σ π)
  | .env k => (env c.shared k).map fun s ↦ { c with shared := s }
  | .act i l => (act i c.shared (c.pos i) l).map fun r ↦ ⟨r.1, Function.update c.pos i r.2⟩

variable {env act}

/-- What a step can do. -/
theorem step_cases {c c' : Config ι σ π} {l : Label ι κ ℓ} (h : step env act c l = some c') :
    (∃ k s, l = .env k ∧ env c.shared k = some s ∧ c' = ⟨s, c.pos⟩) ∨
      ∃ i a s p, l = .act i a ∧ act i c.shared (c.pos i) a = some (s, p) ∧
        c' = ⟨s, Function.update c.pos i p⟩ := by
  cases l with
  | env k =>
    obtain ⟨s, hs, rfl⟩ := Option.map_eq_some_iff.1 h
    exact .inl ⟨k, s, rfl, hs, rfl⟩
  | act i a =>
    obtain ⟨⟨s, p⟩, hr, rfl⟩ := Option.map_eq_some_iff.1 h
    exact .inr ⟨i, a, s, p, rfl, hr, rfl⟩

end Step

/-! ### Assertions -/

/-- The shared state meets `Q`, and every party's position meets `P` in view of it. -/
def Holds (Q : σ → Prop) (P : ∀ i, σ → π i → Prop) (c : Config ι σ π) : Prop :=
  Q c.shared ∧ ∀ i, P i c.shared (c.pos i)

variable {env : σ → κ → Option σ} {act : ∀ i, σ → π i → ℓ → Option (σ × π i)}
  {Q : σ → Prop} {P : ∀ i, σ → π i → Prop} {G : Config ι σ π → Label ι κ ℓ → Prop}

/-- **Interference freedom.** An assertion is kept by every step that meets `G` if the environment
keeps it, and each party keeps its own part of it and does not interfere with the others'. -/
theorem holds_step
    (henv : ∀ c k s, Holds Q P c → G c (.env k) → env c.shared k = some s →
      Q s ∧ ∀ i, P i s (c.pos i))
    (hact : ∀ c i a s p, Holds Q P c → G c (.act i a) →
      act i c.shared (c.pos i) a = some (s, p) → Q s ∧ P i s p ∧ ∀ j ≠ i, P j s (c.pos j))
    (c : Config ι σ π) (l : Label ι κ ℓ) (c' : Config ι σ π) (h : Holds Q P c) (hG : G c l)
    (hstep : step env act c l = some c') : Holds Q P c' := by
  obtain ⟨k, s, rfl, hs, rfl⟩ | ⟨i, a, s, p, rfl, hs, rfl⟩ := step_cases hstep
  · exact henv c k s h hG hs
  · obtain ⟨hQ, hown, hothers⟩ := hact c i a s p h hG hs
    exact ⟨hQ, (Function.forall_update_iff c.pos fun j q ↦ P j s q).2 ⟨hown, hothers⟩⟩

end Interleaving
