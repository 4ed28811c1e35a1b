import Mathlib.Order.Basic

/-!
# While loops

A loop `while (test) body` on a state. `rounds n` is where it stands after `n` rounds, or where it
stopped if that was earlier; `run fuel` is where it stopped, if `fuel` rounds were enough.

An invariant holds wherever the loop stands (`rounds_induction`). If a measure goes down with every
round, it stops (`exists_run_eq_some`); if an invariant keeps the test true, it never does
(`run_eq_none`).
-/

namespace WhileLoop

variable {σ : Type*} (test : σ → Bool) (body : σ → σ)

/-- After `n` rounds, or where it stopped. -/
def rounds : ℕ → σ → σ
  | 0, s => s
  | n + 1, s => if test s then rounds n (body s) else s

/-- Where it stopped, if it did so within `fuel` rounds. -/
def run (fuel : ℕ) (s : σ) : Option σ :=
  if test (rounds test body fuel s) then none else some (rounds test body fuel s)

variable {test body} {s t : σ} {P : σ → Prop} (measure : σ → ℕ)

theorem rounds_succ (n : ℕ) (s : σ) :
    rounds test body (n + 1) s = if test s then rounds test body n (body s) else s := rfl

/-- One round more, if it has not stopped. -/
theorem rounds_succ_of_test {n : ℕ} (htest : test (rounds test body n s) = true) :
    rounds test body (n + 1) s = body (rounds test body n s) := by
  induction n generalizing s with
  | zero =>
    have hs : test s = true := htest
    rw [rounds_succ, if_pos hs]
    rfl
  | succ n ih =>
    rw [rounds_succ n] at htest ⊢
    rw [rounds_succ]
    split
    · next hs =>
      rw [if_pos hs] at htest
      exact ih htest
    · next hs =>
      rw [if_neg hs] at htest
      exact absurd htest hs

/-- **The invariant rule.** -/
theorem rounds_induction (hs : P s) (hbody : ∀ t, P t → test t = true → P (body t)) (n : ℕ) :
    P (rounds test body n s) := by
  induction n generalizing s with
  | zero => exact hs
  | succ n ih =>
    rw [rounds_succ]
    split
    · next htest => exact ih (hbody s hs htest)
    · exact hs

theorem run_eq_some_iff {fuel : ℕ} :
    run test body fuel s = some t ↔ rounds test body fuel s = t ∧ test t = false := by
  rw [run]
  split
  · next htest =>
    refine iff_of_false nofun ?_
    rintro ⟨rfl, hfalse⟩
    exact Bool.false_ne_true (hfalse.symm.trans htest)
  · next htest =>
    rw [Option.some_inj]
    refine ⟨?_, And.left⟩
    rintro rfl
    exact ⟨rfl, Bool.eq_false_iff.2 htest⟩

/-- **The rule for termination.** The measure bounds the number of rounds. -/
theorem test_rounds_eq_false (hs : P s)
    (hbody : ∀ t, P t → test t = true → P (body t) ∧ measure (body t) < measure t) {fuel : ℕ}
    (hfuel : measure s ≤ fuel) : test (rounds test body fuel s) = false := by
  induction fuel generalizing s with
  | zero =>
    refine Bool.eq_false_iff.2 fun htest ↦ ?_
    exact Nat.not_lt_zero _ (Nat.lt_of_lt_of_le (hbody s hs htest).2 hfuel)
  | succ fuel ih =>
    rw [rounds_succ]
    split
    · next htest =>
      have hnext := hbody s hs htest
      exact ih hnext.1 (Nat.le_of_lt_succ (Nat.lt_of_lt_of_le hnext.2 hfuel))
    · next htest => exact Bool.eq_false_iff.2 htest

theorem rounds_eq_of_stopped {n k : ℕ} (hstop : test (rounds test body n s) = false) (hle : n ≤ k) :
    rounds test body k s = rounds test body n s := by
  induction n generalizing s k with
  | zero =>
    have hfalse : test s = false := hstop
    cases k with
    | zero => rfl
    | succ k => rw [rounds_succ, hfalse, if_neg Bool.false_ne_true, rounds]
  | succ n ih =>
    obtain ⟨k, rfl⟩ := Nat.exists_eq_add_one_of_ne_zero (show k ≠ 0 by omega)
    rw [rounds_succ] at hstop ⊢
    rw [rounds_succ]
    split
    · next htest =>
      rw [if_pos htest] at hstop
      exact ih hstop (Nat.le_of_succ_le_succ hle)
    · rfl

/-- It stops, the invariant holds there, and more fuel does not change where. -/
theorem exists_run_eq_some (hs : P s)
    (hbody : ∀ t, P t → test t = true → P (body t) ∧ measure (body t) < measure t) :
    ∃ t, (∀ fuel, measure s ≤ fuel → run test body fuel s = some t) ∧ P t ∧ test t = false := by
  have hstop := test_rounds_eq_false measure hs hbody (Nat.le_refl (measure s))
  refine ⟨rounds test body (measure s) s, fun fuel hfuel ↦ ?_, ?_, hstop⟩
  · exact run_eq_some_iff.2 ⟨rounds_eq_of_stopped hstop hfuel, hstop⟩
  · exact rounds_induction hs (fun t ht htest ↦ (hbody t ht htest).1) _

/-- **The rule for divergence.** -/
theorem run_eq_none (hs : P s) (hbody : ∀ t, P t → test t = true ∧ P (body t)) (fuel : ℕ) :
    run test body fuel s = none := by
  have hlast : P (rounds test body fuel s) := rounds_induction hs (fun t ht _ ↦ (hbody t ht).2) fuel
  exact if_pos (hbody _ hlast).1

end WhileLoop
