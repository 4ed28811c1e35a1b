import Mathlib.Data.List.Infix
import Mathlib.Data.Nat.Notation

/-!
# Runs of a partial step function

A system is a partial function `step : σ → ℓ → Option σ`: from a state, under a label, to the next
state. The label carries every choice that is not the program's own — which thread moves, what an
allocator returned, what a caller wrote — so a run is determined by its start and its labels, and
`none` says that the step is not enabled there.

`run` carries out a list of labels. Two ways to speak about what happens on the way are used:

* `EveryState P s ls` — `P` holds of every state the run along `ls` passes through;
* `EveryStep G s ls` — every step of the run is taken from a state and under a label that meet `G`.

The rules are the two inductions every safety argument needs, once each: `run_invariant` (the step
preserves the invariant outright) and `run_invariant_of_everyStep` (it does so under a guard that
the run's steps meet), with `everyState_of_invariant` and `everyState_of_everyStep` for the states
in between. `exists_step_of_not_everyStep` is the converse reading: a run that breaks a guard splits
at the step that breaks it. And where breaking the guard breaks what is to be shown, the guard is
the exact condition for it (`everyState_iff_everyStep`).

`exists_run_forall_mem` puts together a run from what each party of a system can do on its own. Two
systems are compared by what their runs show: `exists_run_of_simulation` carries a simulation of
single steps over to runs.
-/

namespace StepSystem

variable {σ ℓ : Type*} (step : σ → ℓ → Option σ)

/-! ### Runs -/

/-- Carry out a list of labels, one step each. Undefined as soon as one step is. -/
def run : σ → List ℓ → Option σ
  | s, [] => some s
  | s, l :: ls => (step s l).bind fun t ↦ run t ls

@[simp] theorem run_nil (s : σ) : run step s [] = some s := rfl

theorem run_cons (s : σ) (l : ℓ) (ls : List ℓ) :
    run step s (l :: ls) = (step s l).bind fun t ↦ run step t ls := rfl

theorem run_append (s : σ) (ls₁ ls₂ : List ℓ) :
    run step s (ls₁ ++ ls₂) = (run step s ls₁).bind fun t ↦ run step t ls₂ := by
  induction ls₁ generalizing s with
  | nil => rfl
  | cons l ls₁ ih =>
    rw [List.cons_append, run_cons, run_cons, Option.bind_assoc]
    simp only [ih]

variable {step}

theorem run_append_eq_some {s u : σ} {ls₁ ls₂ : List ℓ} :
    run step s (ls₁ ++ ls₂) = some u ↔ ∃ t, run step s ls₁ = some t ∧ run step t ls₂ = some u := by
  rw [run_append, Option.bind_eq_some_iff]

theorem run_cons_eq_some {s u : σ} {l : ℓ} {ls : List ℓ} :
    run step s (l :: ls) = some u ↔ ∃ t, step s l = some t ∧ run step t ls = some u := by
  rw [run_cons, Option.bind_eq_some_iff]

/-- The step that a run takes after `ls₁`, and the rest of it. -/
theorem run_split {s t u : σ} {ls₁ ls₂ : List ℓ} {l : ℓ}
    (hrun : run step s (ls₁ ++ l :: ls₂) = some u) (ht : run step s ls₁ = some t) :
    ∃ t', step t l = some t' ∧ run step t' ls₂ = some u := by
  obtain ⟨t₀, ht₀, hrest⟩ := run_append_eq_some.1 hrun
  obtain rfl : t = t₀ := Option.some.inj (ht.symm.trans ht₀)
  exact run_cons_eq_some.1 hrest

/-! ### States and steps along a run -/

variable (step)

/-- `P` holds of every state the run passes through, its first and its last included. -/
def EveryState (P : σ → Prop) (s : σ) (ls : List ℓ) : Prop :=
  ∀ ls₁ ls₂ t, ls = ls₁ ++ ls₂ → run step s ls₁ = some t → P t

/-- Every step of the run is taken from a state and under a label that meet `G`. -/
def EveryStep (G : σ → ℓ → Prop) (s : σ) (ls : List ℓ) : Prop :=
  ∀ ls₁ l ls₂ t, ls = ls₁ ++ l :: ls₂ → run step s ls₁ = some t → G t l

variable {step}

theorem EveryState.last {P : σ → Prop} {s t : σ} {ls : List ℓ} (h : EveryState step P s ls)
    (hrun : run step s ls = some t) : P t :=
  h ls [] t (List.append_nil ls).symm hrun

theorem EveryState.mono {P Q : σ → Prop} {s : σ} {ls : List ℓ} (h : EveryState step P s ls)
    (hPQ : ∀ t, P t → Q t) : EveryState step Q s ls :=
  fun ls₁ ls₂ t hls ht ↦ hPQ t (h ls₁ ls₂ t hls ht)

theorem EveryState.and {P Q : σ → Prop} {s : σ} {ls : List ℓ} (hP : EveryState step P s ls)
    (hQ : EveryState step Q s ls) : EveryState step (fun t ↦ P t ∧ Q t) s ls :=
  fun ls₁ ls₂ t hls ht ↦ ⟨hP ls₁ ls₂ t hls ht, hQ ls₁ ls₂ t hls ht⟩

theorem everyState_nil {P : σ → Prop} {s : σ} (h : P s) : EveryState step P s [] := by
  intro ls₁ ls₂ t hls ht
  obtain rfl := (List.append_eq_nil_iff.1 hls.symm).1
  exact Option.some.inj ht ▸ h

theorem EveryState.append {P : σ → Prop} {s t : σ} {ls₁ ls₂ : List ℓ} (h₁ : EveryState step P s ls₁)
    (ht : run step s ls₁ = some t) (h₂ : EveryState step P t ls₂) :
    EveryState step P s (ls₁ ++ ls₂) := by
  intro l₁ l₂ u hls hu
  rcases List.append_eq_append_iff.1 hls with ⟨rest, rfl, hrest⟩ | ⟨rest, hrest, rfl⟩
  · obtain ⟨t', ht', hu⟩ := run_append_eq_some.1 hu
    obtain rfl : t = t' := Option.some.inj (ht.symm.trans ht')
    exact h₂ rest l₂ u hrest hu
  · exact h₁ l₁ rest u hrest hu

theorem EveryState.cons {P : σ → Prop} {s t : σ} {l : ℓ} {ls : List ℓ} (hs : P s)
    (ht : step s l = some t) (h : EveryState step P t ls) : EveryState step P s (l :: ls) := by
  rintro (_ | ⟨l', ls₁⟩) ls₂ u hls hu
  · exact Option.some.inj hu ▸ hs
  · obtain ⟨rfl, rfl⟩ := List.cons_eq_cons.1 hls
    obtain ⟨t', ht', hu⟩ := run_cons_eq_some.1 hu
    obtain rfl : t = t' := Option.some.inj (ht.symm.trans ht')
    exact h ls₁ ls₂ u rfl hu

theorem EveryStep.of_append {G : σ → ℓ → Prop} {s : σ} {ls₁ ls₂ : List ℓ}
    (h : EveryStep step G s (ls₁ ++ ls₂)) : EveryStep step G s ls₁ := by
  intro l₁ l l₂ t hls ht
  exact h l₁ l (l₂ ++ ls₂) t (by rw [hls, List.append_assoc, List.cons_append]) ht

/-- A guard that only reads the label holds along every run whose labels meet it. -/
theorem everyStep_of_forall_mem {G : ℓ → Prop} {s : σ} {ls : List ℓ} (h : ∀ l ∈ ls, G l) :
    EveryStep step (fun _ l ↦ G l) s ls := by
  intro ls₁ l ls₂ t hls _
  exact h l (by simp [hls])

theorem everyStep_nil {G : σ → ℓ → Prop} {s : σ} : EveryStep step G s [] := by
  rintro ls₁ l ls₂ t hls -
  exact absurd hls.symm (List.append_ne_nil_of_right_ne_nil _ (List.cons_ne_nil _ _))

theorem EveryStep.cons {G : σ → ℓ → Prop} {s t : σ} {l : ℓ} {ls : List ℓ} (ht : step s l = some t)
    (hG : G s l) (h : EveryStep step G t ls) : EveryStep step G s (l :: ls) := by
  rintro (_ | ⟨l', ls₁⟩) l'' ls₂ u hls hu
  · obtain ⟨rfl, rfl⟩ := List.cons_eq_cons.1 hls
    exact Option.some.inj hu ▸ hG
  · obtain ⟨rfl, rfl⟩ := List.cons_eq_cons.1 hls
    obtain ⟨t', ht', hu⟩ := run_cons_eq_some.1 hu
    obtain rfl : t = t' := Option.some.inj (ht.symm.trans ht')
    exact h ls₁ l'' ls₂ u rfl hu

/-- Every step of a run is enabled. -/
theorem everyStep_of_run {s u : σ} {ls : List ℓ} (hrun : run step s ls = some u) :
    EveryStep step (fun t l ↦ ∃ t', step t l = some t') s ls := by
  rintro ls₁ l ls₂ t rfl ht
  obtain ⟨t', hstep, -⟩ := run_split hrun ht
  exact ⟨t', hstep⟩

/-- A run that breaks a guard splits at a step that breaks it. -/
theorem exists_step_of_not_everyStep {G : σ → ℓ → Prop} {s u : σ} {ls : List ℓ}
    (hrun : run step s ls = some u) (h : ¬ EveryStep step G s ls) :
    ∃ ls₁ l ls₂ t t', ls = ls₁ ++ l :: ls₂ ∧ run step s ls₁ = some t ∧ ¬ G t l ∧
      step t l = some t' ∧ run step t' ls₂ = some u := by
  simp only [EveryStep, not_forall] at h
  obtain ⟨ls₁, l, ls₂, t, rfl, ht, hG⟩ := h
  obtain ⟨t', hstep, hu⟩ := run_split hrun ht
  exact ⟨ls₁, l, ls₂, t, t', rfl, ht, hG, hstep, hu⟩

/-! ### The invariant rules -/

/-- **Invariants under a guard.** What every step meeting `G` preserves holds at the end of every
run whose steps meet `G`. -/
theorem run_invariant_of_everyStep {G : σ → ℓ → Prop} {Inv : σ → Prop}
    (hstep : ∀ s l t, Inv s → G s l → step s l = some t → Inv t) {s u : σ} {ls : List ℓ}
    (hs : Inv s) (hG : EveryStep step G s ls) (hrun : run step s ls = some u) : Inv u := by
  induction ls using List.reverseRecOn generalizing u with
  | nil => exact Option.some.inj hrun ▸ hs
  | append_singleton ls l ih =>
    obtain ⟨t, ht, hrest⟩ := run_append_eq_some.1 hrun
    obtain ⟨u', hu, hlast⟩ := run_cons_eq_some.1 hrest
    obtain rfl : u' = u := Option.some.inj hlast
    exact hstep t l u' (ih hG.of_append ht) (hG ls l [] t rfl ht) hu

/-- **Invariants.** What every step preserves holds at the end of every run. -/
theorem run_invariant {Inv : σ → Prop} (hstep : ∀ s l t, Inv s → step s l = some t → Inv t)
    {s u : σ} {ls : List ℓ} (hs : Inv s) (hrun : run step s ls = some u) : Inv u :=
  run_invariant_of_everyStep (G := fun _ _ ↦ True) (fun s l t hi _ ht ↦ hstep s l t hi ht) hs
    (fun _ _ _ _ _ _ ↦ trivial) hrun

/-- **Termination.** What goes down with every step bounds the length of a run. -/
theorem run_length_add_le {Inv : σ → Prop} {μ : σ → ℕ}
    (hstep : ∀ s l t, Inv s → step s l = some t → Inv t ∧ μ t < μ s) {s u : σ} {ls : List ℓ}
    (hs : Inv s) (hrun : run step s ls = some u) : ls.length + μ u ≤ μ s := by
  induction ls generalizing s with
  | nil => rw [Option.some.inj hrun, List.length_nil, Nat.zero_add]
  | cons l ls ih =>
    obtain ⟨t, ht, hrest⟩ := run_cons_eq_some.1 hrun
    obtain ⟨hinv, hlt⟩ := hstep s l t hs ht
    have := ih hinv hrest
    rw [List.length_cons]
    omega

theorem everyState_of_everyStep {G : σ → ℓ → Prop} {Inv : σ → Prop}
    (hstep : ∀ s l t, Inv s → G s l → step s l = some t → Inv t) {s : σ} {ls : List ℓ}
    (hs : Inv s) (hG : EveryStep step G s ls) : EveryState step Inv s ls := by
  rintro ls₁ ls₂ t rfl ht
  exact run_invariant_of_everyStep hstep hs hG.of_append ht

theorem everyState_of_invariant {Inv : σ → Prop}
    (hstep : ∀ s l t, Inv s → step s l = some t → Inv t) {s : σ} {ls : List ℓ} (hs : Inv s) :
    EveryState step Inv s ls := by
  rintro ls₁ ls₂ t - ht
  exact run_invariant hstep hs ht

/-- What a state meets, the step taken from it meets. -/
theorem EveryState.everyStep {Inv : σ → Prop} {H : σ → ℓ → Prop} {s : σ} {ls : List ℓ}
    (hInv : EveryState step Inv s ls) (h : ∀ t l, Inv t → H t l) : EveryStep step H s ls :=
  fun ls₁ l ls₂ t hls ht ↦ h t l (hInv ls₁ (l :: ls₂) t hls ht)

/-- What every state meets, every step leads to. -/
theorem EveryState.next {P : σ → Prop} {s : σ} {ls : List ℓ} (h : EveryState step P s ls) :
    EveryStep step (fun t l ↦ ∀ t', step t l = some t' → P t') s ls := by
  rintro ls₁ l ls₂ t rfl ht t' hstep
  refine h (ls₁ ++ [l]) ls₂ t' (by rw [List.append_assoc, List.singleton_append]) ?_
  exact run_append_eq_some.2 ⟨t, ht, run_cons_eq_some.2 ⟨t', hstep, rfl⟩⟩

/-- What the states and the steps of a run meet together. -/
theorem EveryStep.imp_of_everyState {G H : σ → ℓ → Prop} {Inv : σ → Prop} {s : σ} {ls : List ℓ}
    (hG : EveryStep step G s ls) (hInv : EveryState step Inv s ls)
    (h : ∀ t l, Inv t → G t l → H t l) : EveryStep step H s ls :=
  fun ls₁ l ls₂ t hls ht ↦ h t l (hInv ls₁ (l :: ls₂) t hls ht) (hG ls₁ l ls₂ t hls ht)

/-- **Exact conditions.** If a step from a state that meets the invariant keeps it where the step
meets `G`, and breaks `P` where it does not, then `P` holds all along a run exactly if every step of
the run meets `G`. -/
theorem everyState_iff_everyStep {P Inv : σ → Prop} {G : σ → ℓ → Prop} (hP : ∀ s, Inv s → P s)
    (hgood : ∀ s l t, Inv s → G s l → step s l = some t → Inv t)
    (hbad : ∀ s l t, Inv s → ¬ G s l → step s l = some t → ¬ P t) {s u : σ} {ls : List ℓ}
    (hs : Inv s) (hrun : run step s ls = some u) :
    EveryState step P s ls ↔ EveryStep step G s ls := by
  constructor
  · intro h
    have hInv : EveryState step Inv s ls := by
      refine everyState_of_everyStep (fun v l t hv hnext ht ↦ ?_) hs h.next
      by_contra hnot
      exact hbad v l t hv (fun hG ↦ hnot (hgood v l t hv hG ht)) ht (hnext t ht)
    rintro ls₁ l ls₂ v rfl hv
    obtain ⟨t, ht, -⟩ := run_split hrun hv
    by_contra hG
    exact hbad v l t (hInv ls₁ _ v rfl hv) hG ht (h.next ls₁ l ls₂ v rfl hv t ht)
  · intro hG
    exact (everyState_of_everyStep hgood hs hG).mono hP

/-! ### Reachable states -/

variable (step)

/-- The states some run from an initial state ends in. -/
def Reachable (init : σ → Prop) (s : σ) : Prop :=
  ∃ s₀ ls, init s₀ ∧ run step s₀ ls = some s

variable {step}

theorem Reachable.invariant {init Inv : σ → Prop} (hinit : ∀ s, init s → Inv s)
    (hstep : ∀ s l t, Inv s → step s l = some t → Inv t) {s : σ}
    (h : Reachable step init s) : Inv s := by
  obtain ⟨s₀, ls, h₀, hrun⟩ := h
  exact run_invariant hstep (hinit s₀ h₀) hrun

/-! ### One party after another -/

/-- **Parties in turn.** If each party can be brought to a position it likes with the others left
where they are, the parties of a list can all be, one after another. -/
theorem exists_run_forall_mem {ι π : Type*} {p : σ → ι → π} {Inv : σ → Prop} {P : ι → π → Prop}
    (h : ∀ s i, Inv s → ∃ ls t, run step s ls = some t ∧ Inv t ∧ P i (p t i) ∧
      ∀ j ≠ i, p t j = p s j) {s : σ} (hs : Inv s) (parties : List ι) :
    ∃ ls t, run step s ls = some t ∧ Inv t ∧ ∀ i ∈ parties, P i (p t i) := by
  induction parties with
  | nil => exact ⟨[], s, rfl, hs, nofun⟩
  | cons i parties ih =>
    obtain ⟨ls₁, t, hrun₁, ht, hP⟩ := ih
    obtain ⟨ls₂, u, hrun₂, hu, hi, hothers⟩ := h t i ht
    refine ⟨ls₁ ++ ls₂, u, run_append_eq_some.2 ⟨t, hrun₁, hrun₂⟩, hu, fun j hj ↦ ?_⟩
    by_cases hji : j = i
    · exact hji ▸ hi
    · rw [hothers j hji]
      exact hP j ((List.mem_cons.1 hj).resolve_left hji)

/-! ### Simulation -/

section Simulation

variable {σ' ℓ' ε : Type*} {step' : σ' → ℓ' → Option σ'} {visible : ℓ → Option ε}
  {visible' : ℓ' → Option ε} {R : σ → σ' → Prop}

/-- **Forward simulation.** If every step is answered by a run of the other system that shows the
same and leads to related states, so is every run. The answer may be empty, or several steps. -/
theorem exists_run_of_simulation
    (hstep : ∀ s l t s', R s s' → step s l = some t →
      ∃ ls' t', run step' s' ls' = some t' ∧ R t t' ∧ ls'.filterMap visible' = (visible l).toList)
    {s t : σ} {s' : σ'} {ls : List ℓ} (hR : R s s') (hrun : run step s ls = some t) :
    ∃ ls' t', run step' s' ls' = some t' ∧ R t t' ∧
      ls'.filterMap visible' = ls.filterMap visible := by
  induction ls generalizing s s' with
  | nil => exact ⟨[], s', rfl, Option.some.inj hrun ▸ hR, rfl⟩
  | cons l ls ih =>
    obtain ⟨u, hu, hrest⟩ := run_cons_eq_some.1 hrun
    obtain ⟨ls₁, u', hrun₁, hR', hvis₁⟩ := hstep s l u s' hR hu
    obtain ⟨ls₂, t', hrun₂, hRt, hvis₂⟩ := ih hR' hrest
    refine ⟨ls₁ ++ ls₂, t', run_append_eq_some.2 ⟨u', hrun₁, hrun₂⟩, hRt, ?_⟩
    rw [List.filterMap_append, hvis₁, hvis₂]
    cases hl : visible l <;> simp [hl]

end Simulation

end StepSystem
