import Mathlib.Data.List.Basic

/-!
# Loops that end from within

A loop `for(;;)` whose body either goes round again with a new state or leaves with an outcome. What
the body gets from outside in one round is an element of a list; when the list runs out the loop is
still under way.

The rules: `loop_append` continues a loop that is under way, `loop_eq_ended_iff` finds the round in
which it left, and `loop_map` carries a loop over to another one that its body simulates.

`guarded` waits before each round, and leaves if the wait fails; if it leaves in any other way, it
has done what the loop does without the waits (`loop_eq_ended_of_guarded`).
-/

namespace RoundLoop

variable {σ τ ε ρ ω σ' ρ' : Type*}

/-- After some rounds: going on, or out. -/
inductive Progress (σ ε : Type*)
  | more (s : σ)
  | ended (s : σ) (e : ε)
deriving DecidableEq

namespace Progress

/-- How it ended, if it has. -/
def outcome : Progress σ ε → Option ε
  | more _ => none
  | ended _ e => some e

/-- The state. -/
def state : Progress σ ε → σ
  | more s => s
  | ended s _ => s

/-- Look at the state through `f`. -/
def map (f : σ → σ') : Progress σ ε → Progress σ' ε
  | more s => more (f s)
  | ended s e => ended (f s) e

/-- Go on from where it is, if it has not ended. -/
def andThen (p : Progress σ ε) (next : σ → Progress σ ε) : Progress σ ε :=
  match p with
  | more s => next s
  | ended s e => ended s e

@[simp] theorem outcome_map (f : σ → σ') (p : Progress σ ε) : (p.map f).outcome = p.outcome := by
  cases p <;> rfl

theorem outcome_eq_some_iff {p : Progress σ ε} {e : ε} :
    p.outcome = some e ↔ ∃ s, p = ended s e := by
  cases p with
  | more s => exact iff_of_false nofun nofun
  | ended s e' => simp [outcome]

end Progress

/-- Go round, once for each element of the list, until the body leaves. -/
def loop (round : σ → ρ → Progress σ ε) : σ → List ρ → Progress σ ε
  | s, [] => .more s
  | s, r :: rs => (round s r).andThen fun s' ↦ loop round s' rs

section Rules

variable {round : σ → ρ → Progress σ ε} {s t : σ} {e : ε} {rs rs₁ rs₂ : List ρ}

@[simp] theorem loop_nil : loop round s [] = .more s := rfl

theorem loop_cons {r : ρ} :
    loop round s (r :: rs) = (round s r).andThen fun s' ↦ loop round s' rs := rfl

theorem loop_singleton {r : ρ} : loop round s [r] = round s r := by
  rw [loop_cons]
  cases round s r <;> rfl

theorem loop_append :
    loop round s (rs₁ ++ rs₂) = (loop round s rs₁).andThen fun t ↦ loop round t rs₂ := by
  induction rs₁ generalizing s with
  | nil => rfl
  | cons r rs₁ ih =>
    rw [List.cons_append, loop_cons, loop_cons]
    cases round s r with
    | more s' => exact ih
    | ended s' e => rfl

/-- Once it has left, nothing more happens. -/
theorem loop_append_of_ended (h : loop round s rs₁ = .ended t e) :
    loop round s (rs₁ ++ rs₂) = .ended t e := by
  rw [loop_append, h]
  rfl

/-- The round in which the loop left. -/
theorem loop_eq_ended_iff :
    loop round s rs = .ended t e ↔ ∃ rs₁ r rs₂ u, rs = rs₁ ++ r :: rs₂ ∧
      loop round s rs₁ = .more u ∧ round u r = .ended t e := by
  constructor
  · intro h
    induction rs generalizing s with
    | nil => cases h
    | cons r rs ih =>
      rw [loop_cons] at h
      cases hr : round s r with
      | ended s' e' =>
        rw [hr] at h
        exact ⟨[], r, rs, s, rfl, rfl, hr.trans h⟩
      | more s' =>
        rw [hr] at h
        obtain ⟨rs₁, r', rs₂, u, rfl, hu, hlast⟩ := ih h
        exact ⟨r :: rs₁, r', rs₂, u, rfl, by rw [loop_cons, hr]; exact hu, hlast⟩
  · rintro ⟨rs₁, r, rs₂, u, rfl, hu, hlast⟩
    rw [loop_append, hu]
    change loop round u (r :: rs₂) = _
    rw [loop_cons, hlast]
    rfl

/-- **Simulation.** -/
theorem loop_map {round' : σ' → ρ' → Progress σ' ε} {f : σ → σ'} {g : ρ → ρ'}
    (h : ∀ s r, (round s r).map f = round' (f s) (g r)) (s : σ) (rs : List ρ) :
    (loop round s rs).map f = loop round' (f s) (rs.map g) := by
  induction rs generalizing s with
  | nil => rfl
  | cons r rs ih =>
    rw [List.map_cons, loop_cons, loop_cons, ← h s r]
    cases round s r with
    | more s' => exact ih s'
    | ended s' e => rfl

end Rules

/-! ### Loops that wait before each round -/

/-- Wait before the round, and leave with `late` if the wait fails. -/
def guarded (wait : ω → τ → Bool × τ) (late : ε) (round : σ → ρ → Progress σ ε) :
    σ × τ → ω × ρ → Progress (σ × τ) ε
  | (s, t), (w, r) =>
    match wait w t with
    | (false, t') => .ended (s, t') late
    | (true, t') => (round s r).map fun s' ↦ (s', t')

section Guarded

variable {wait : ω → τ → Bool × τ} {late : ε} {round : σ → ρ → Progress σ ε}

theorem guarded_of_passes {s : σ} {t : τ} {w : ω} {r : ρ} (h : (wait w t).1 = true) :
    guarded wait late round (s, t) (w, r) = (round s r).map fun s' ↦ (s', (wait w t).2) := by
  rw [guarded]
  cases hw : wait w t with
  | mk passes t' =>
    obtain rfl : passes = true := by rwa [hw] at h
    rfl

theorem guarded_of_not_passes {s : σ} {t : τ} {w : ω} {r : ρ} (h : (wait w t).1 = false) :
    guarded wait late round (s, t) (w, r) = .ended (s, (wait w t).2) late := by
  rw [guarded]
  cases hw : wait w t with
  | mk passes t' =>
    obtain rfl : passes = false := by rwa [hw] at h
    rfl

/-- **If it does not leave for being late**, the loop does what it does without the waits. -/
theorem loop_eq_ended_of_guarded {s s' : σ} {t t' : τ} {e : ε} {rs : List (ω × ρ)} (he : e ≠ late)
    (h : loop (guarded wait late round) (s, t) rs = .ended (s', t') e) :
    loop round s (rs.map Prod.snd) = .ended s' e := by
  induction rs generalizing s t with
  | nil => cases h
  | cons x rs ih =>
    obtain ⟨w, r⟩ := x
    rw [loop_cons] at h
    rw [List.map_cons, loop_cons]
    by_cases hw : (wait w t).1 = true
    · rw [guarded_of_passes hw] at h
      cases hr : round s r with
      | more u =>
        rw [hr] at h
        exact ih h
      | ended u e' =>
        rw [hr] at h
        cases h
        rfl
    · rw [guarded_of_not_passes (Bool.eq_false_iff.2 hw)] at h
      cases h
      exact absurd rfl he

/-- What the waits keep, after these. -/
def afterWaits (wait : ω → τ → Bool × τ) (t : τ) (ws : List ω) : τ :=
  ws.foldl (fun t w ↦ (wait w t).2) t

@[simp] theorem afterWaits_nil {t : τ} : afterWaits wait t [] = t := rfl

@[simp] theorem afterWaits_concat {t : τ} {ws : List ω} {w : ω} :
    afterWaits wait t (ws ++ [w]) = (wait w (afterWaits wait t ws)).2 := by
  rw [afterWaits, afterWaits, List.foldl_concat]

/-- A round does to what the waits keep what its wait does. -/
theorem guarded_state_snd {s : σ} {t : τ} {w : ω} {r : ρ} :
    (guarded wait late round (s, t) (w, r)).state.2 = (wait w t).2 := by
  by_cases hw : (wait w t).1 = true
  · rw [guarded_of_passes hw]
    cases round s r <;> rfl
  · rw [guarded_of_not_passes (Bool.eq_false_iff.2 hw)]
    rfl

/-- **The waits** do not depend on the rounds, as long as the loop is under way. -/
theorem eq_afterWaits_of_loop {s s' : σ} {t t' : τ} {rs : List (ω × ρ)}
    (h : loop (guarded wait late round) (s, t) rs = .more (s', t')) :
    t' = afterWaits wait t (rs.map Prod.fst) := by
  induction rs generalizing s t with
  | nil => cases h; rfl
  | cons r rs ih =>
    obtain ⟨w, r⟩ := r
    have hsnd : (guarded wait late round (s, t) (w, r)).state.2 = (wait w t).2 := guarded_state_snd
    rw [loop_cons] at h
    cases hround : guarded wait late round (s, t) (w, r) with
    | ended u e =>
      rw [hround] at h
      cases h
    | more u =>
      obtain ⟨u, tu⟩ := u
      rw [hround] at h hsnd
      obtain rfl : tu = (wait w t).2 := hsnd
      exact ih h

end Guarded

end RoundLoop
