import Mathlib.Logic.Function.Basic
import Mathlib.Data.Fintype.Defs
import Libk2.Foundation.StepSystem

/-!
# Objects whose methods run under a lock

An object is shared by threads `τ`. Its callers see events: a thread calls an operation, a thread
gets a result back, something else happens to the state the object lives in. `Spec` says what the
object is for. `note` is what the state records of an event, and whether the event may happen there;
`apply` is the effect of a whole call. The effect is given a choice, which stands for what the call
is told by its own environment.

Two systems run a specification.

* `Atomic` — a call takes effect at one step between the event that starts it and the event that
  ends it.
* `Locked` — a call waits until no other thread is inside, goes through the positions of its code
  (`Code`) one shared access at a time, and leaves. Other threads' events, and the environment's,
  happen in between.

`Refinement` is what has to be known about the code. Each call commits at one of its steps, before
which it has changed nothing; from then on `rest` says what it still has to do, the code does it
step by step, and no event interferes with it. Then the two systems cannot be told apart by their
events (`exists_atomic_run`).
-/

namespace LockedObject

open StepSystem

/-! ### Events and specifications -/

/-- What the callers of an object do and see. -/
inductive Event (τ ω ρ ε : Type*) where
  | call (t : τ) (op : ω)
  | ret (t : τ) (r : ρ)
  | env (e : ε)

/-- What an object is for. -/
structure Spec (τ σ ω χ ρ ε : Type*) where
  /-- What the state records of an event, where the event may happen. -/
  note : Event τ ω ρ ε → σ → Option σ
  /-- The effect of a call, with its result. -/
  apply : ω → χ → σ → Option (ρ × σ)

/-- What a thread is doing: nothing, something at a place of its own kind `β`, or it has a result to
hand over. -/
inductive Stage (ρ β : Type*) where
  | idle
  | busy (b : β)
  | done (r : ρ)

variable {τ σ ω χ ρ ε κ β : Type*}

namespace Stage

/-- Between acquiring the lock and releasing it. -/
def Inside (g : Stage ρ (ω × Option κ)) : Prop := ∃ op k, g = .busy (op, some k)

instance (g : Stage ρ (ω × Option κ)) : Decidable g.Inside :=
  match g with
  | .idle => .isFalse (by rintro ⟨_, _, h⟩; cases h)
  | .done _ => .isFalse (by rintro ⟨_, _, h⟩; cases h)
  | .busy (_, none) => .isFalse (by rintro ⟨_, _, h⟩; cases h)
  | .busy (op, some k) => .isTrue ⟨op, k, rfl⟩

theorem not_inside_idle : ¬ (idle : Stage ρ (ω × Option κ)).Inside := by
  rintro ⟨_, _, h⟩
  cases h

theorem not_inside_waiting (op : ω) : ¬ (busy (op, none) : Stage ρ (ω × Option κ)).Inside := by
  rintro ⟨_, _, h⟩
  cases h

end Stage

variable [DecidableEq τ] [DecidableEq ρ]

/-- The threads after an event: a call starts at `first`, and only a result there is can be
handed over. -/
def turn (first : ω → β) (stage : τ → Stage ρ β) :
    Event τ ω ρ ε → Option (τ → Stage ρ β)
  | .call t op =>
    match stage t with
    | .idle => some (Function.update stage t (.busy (first op)))
    | _ => none
  | .ret t r =>
    match stage t with
    | .done r' => if r' = r then some (Function.update stage t .idle) else none
    | _ => none
  | .env _ => some stage

/-- What an event does to the threads. -/
theorem turn_cases {first : ω → β} {stage stage' : τ → Stage ρ β} {e : Event τ ω ρ ε}
    (h : turn first stage e = some stage') :
    (∃ t op, e = .call t op ∧ stage t = .idle ∧
      stage' = Function.update stage t (.busy (first op))) ∨
    (∃ t r, e = .ret t r ∧ stage t = .done r ∧ stage' = Function.update stage t .idle) ∨
    ∃ x, e = .env x ∧ stage' = stage := by
  cases e with
  | call t op =>
    cases ht : stage t with
    | idle => exact .inl ⟨t, op, rfl, ht, by simpa [turn, ht] using h.symm⟩
    | busy b => simp [turn, ht] at h
    | done r => simp [turn, ht] at h
  | ret t r =>
    cases ht : stage t with
    | idle => simp [turn, ht] at h
    | busy b => simp [turn, ht] at h
    | done r' =>
      simp only [turn, ht, Option.ite_none_right_eq_some, Option.some.injEq] at h
      obtain ⟨rfl, rfl⟩ := h
      exact .inr (.inl ⟨t, r', rfl, ht, rfl⟩)
  | env x => exact .inr (.inr ⟨x, rfl, (Option.some.inj h).symm⟩)

/-- An event leaves the threads that are busy as they were. -/
theorem turn_of_busy {first : ω → β} {stage stage' : τ → Stage ρ β} {e : Event τ ω ρ ε} {t : τ}
    {b : β} (h : turn first stage e = some stage') (ht : stage t = .busy b) :
    stage' t = .busy b := by
  obtain ⟨u, op, -, hu, rfl⟩ | ⟨u, r, -, hu, rfl⟩ | ⟨x, -, rfl⟩ := turn_cases h
  · rw [Function.update_of_ne (by rintro rfl; rw [ht] at hu; cases hu), ht]
  · rw [Function.update_of_ne (by rintro rfl; rw [ht] at hu; cases hu), ht]
  · exact ht

/-- An event reads of a place only that it is one. -/
theorem turn_map {β' : Type*} {first : ω → β} {first' : ω → β'} {f : Stage ρ β → Stage ρ β'}
    (hidle : f .idle = .idle) (hdone : ∀ r, f (.done r) = .done r)
    (hfirst : ∀ op, f (.busy (first op)) = .busy (first' op)) {stage stage' : τ → Stage ρ β}
    {e : Event τ ω ρ ε} (h : turn first stage e = some stage') :
    turn first' (f ∘ stage) e = some (f ∘ stage') := by
  obtain ⟨t, op, rfl, ht, rfl⟩ | ⟨t, r, rfl, ht, rfl⟩ | ⟨x, rfl, rfl⟩ := turn_cases h
  · simp [turn, ht, hidle, hfirst, Function.comp_update]
  · simp [turn, ht, hidle, hdone, Function.comp_update]
  · rfl

/-! ### Calls that take effect at one step -/

/-- An object with calls in progress, each of which has either taken effect or not. -/
structure Atomic (τ σ ω ρ : Type*) where
  state : σ
  stage : τ → Stage ρ ω

inductive AtomicLabel (τ ω χ ρ ε : Type*) where
  | event (e : Event τ ω ρ ε)
  /-- The call of `t` takes effect. -/
  | commit (t : τ) (x : χ)

/-- The event a step shows. -/
def AtomicLabel.visible : AtomicLabel τ ω χ ρ ε → Option (Event τ ω ρ ε)
  | .event e => some e
  | .commit _ _ => none

namespace Atomic

variable (S : Spec τ σ ω χ ρ ε)

/-- No call in progress. -/
def start (s : σ) : Atomic τ σ ω ρ := ⟨s, fun _ ↦ .idle⟩

def step (a : Atomic τ σ ω ρ) : AtomicLabel τ ω χ ρ ε → Option (Atomic τ σ ω ρ)
  | .event e => (turn id a.stage e).bind fun stage ↦ (S.note e a.state).map fun s ↦ ⟨s, stage⟩
  | .commit t x =>
    match a.stage t with
    | .busy op => (S.apply op x a.state).map fun r ↦ ⟨r.2, Function.update a.stage t (.done r.1)⟩
    | _ => none

variable {S}

theorem step_event {a : Atomic τ σ ω ρ} {e : Event τ ω ρ ε} {stage : τ → Stage ρ ω} {s : σ}
    (hturn : turn id a.stage e = some stage) (hnote : S.note e a.state = some s) :
    step S a (.event e) = some ⟨s, stage⟩ := by
  simp [step, hturn, hnote]

theorem step_commit {a : Atomic τ σ ω ρ} {t : τ} {op : ω} {x : χ} {r : ρ} {s : σ}
    (ht : a.stage t = .busy op) (happly : S.apply op x a.state = some (r, s)) :
    step S a (.commit t x) = some ⟨s, Function.update a.stage t (.done r)⟩ := by
  simp [step, ht, happly]

end Atomic

/-! ### Calls that run under a lock -/

/-- The code of the operations: a position to start at, one shared access at a time, and the result
where there is nothing left to do. -/
structure Code (σ ω χ ρ κ : Type*) where
  start : ω → κ
  next : κ → χ → σ → Option (σ × κ)
  result : κ → Option ρ

/-- A call either waits for the lock (`none`) or is inside, at a position. -/
structure Locked (τ σ ω ρ κ : Type*) where
  state : σ
  stage : τ → Stage ρ (ω × Option κ)

inductive LockedLabel (τ ω χ ρ ε : Type*) where
  | event (e : Event τ ω ρ ε)
  /-- The lock is acquired by `t`. -/
  | enter (t : τ)
  /-- One step of the code `t` is in. -/
  | next (t : τ) (x : χ)
  /-- The lock is released by `t`. -/
  | leave (t : τ)

def LockedLabel.visible : LockedLabel τ ω χ ρ ε → Option (Event τ ω ρ ε)
  | .event e => some e
  | _ => none

namespace Locked

variable (S : Spec τ σ ω χ ρ ε) (P : Code σ ω χ ρ κ) [Fintype τ]

def start (s : σ) : Locked τ σ ω ρ κ := ⟨s, fun _ ↦ .idle⟩

def step (c : Locked τ σ ω ρ κ) : LockedLabel τ ω χ ρ ε → Option (Locked τ σ ω ρ κ)
  | .event e =>
    (turn (fun op ↦ (op, none)) c.stage e).bind fun stage ↦
      (S.note e c.state).map fun s ↦ ⟨s, stage⟩
  | .enter t =>
    match c.stage t with
    | .busy (op, none) =>
      if ∀ u, ¬ (c.stage u).Inside then
        some { c with stage := Function.update c.stage t (.busy (op, some (P.start op))) }
      else none
    | _ => none
  | .next t x =>
    match c.stage t with
    | .busy (op, some k) =>
      (P.next k x c.state).map fun r ↦ ⟨r.1, Function.update c.stage t (.busy (op, some r.2))⟩
    | _ => none
  | .leave t =>
    match c.stage t with
    | .busy (_, some k) =>
      (P.result k).map fun r ↦ { c with stage := Function.update c.stage t (.done r) }
    | _ => none

variable {S P}

/-- What a step can do. -/
theorem step_cases {c c' : Locked τ σ ω ρ κ} {l : LockedLabel τ ω χ ρ ε}
    (h : step S P c l = some c') :
    (∃ e stage s, l = .event e ∧ turn (fun op ↦ (op, none)) c.stage e = some stage ∧
      S.note e c.state = some s ∧ c' = ⟨s, stage⟩) ∨
    (∃ t op, l = .enter t ∧ c.stage t = .busy (op, none) ∧ (∀ u, ¬ (c.stage u).Inside) ∧
      c' = ⟨c.state, Function.update c.stage t (.busy (op, some (P.start op)))⟩) ∨
    (∃ t x op k s k', l = .next t x ∧ c.stage t = .busy (op, some k) ∧
      P.next k x c.state = some (s, k') ∧
      c' = ⟨s, Function.update c.stage t (.busy (op, some k'))⟩) ∨
    ∃ t op k r, l = .leave t ∧ c.stage t = .busy (op, some k) ∧ P.result k = some r ∧
      c' = ⟨c.state, Function.update c.stage t (.done r)⟩ := by
  cases l with
  | event e =>
    obtain ⟨stage, hturn, hnote⟩ := Option.bind_eq_some_iff.1 h
    obtain ⟨s, hs, rfl⟩ := Option.map_eq_some_iff.1 hnote
    exact .inl ⟨e, stage, s, rfl, hturn, hs, rfl⟩
  | enter t =>
    match ht : c.stage t with
    | .idle | .done _ | .busy (_, some _) => simp [step, ht] at h
    | .busy (op, none) =>
      simp only [step, ht, Option.ite_none_right_eq_some, Option.some.injEq] at h
      exact .inr (.inl ⟨t, op, rfl, ht, h.1, h.2.symm⟩)
  | next t x =>
    match ht : c.stage t with
    | .idle | .done _ | .busy (_, none) => simp [step, ht] at h
    | .busy (op, some k) =>
      simp only [step, ht] at h
      obtain ⟨⟨s, k'⟩, hnext, rfl⟩ := Option.map_eq_some_iff.1 h
      exact .inr (.inr (.inl ⟨t, x, op, k, s, k', rfl, ht, hnext, rfl⟩))
  | leave t =>
    match ht : c.stage t with
    | .idle | .done _ | .busy (_, none) => simp [step, ht] at h
    | .busy (op, some k) =>
      simp only [step, ht] at h
      obtain ⟨r, hr, rfl⟩ := Option.map_eq_some_iff.1 h
      exact .inr (.inr (.inr ⟨t, op, k, r, rfl, ht, hr, rfl⟩))

/-- Two threads are never inside together. -/
def Alone (c : Locked τ σ ω ρ κ) : Prop :=
  ∀ t u, (c.stage t).Inside → (c.stage u).Inside → t = u

omit [Fintype τ] in
/-- An event takes nobody inside. -/
theorem inside_of_turn {stage stage' : τ → Stage ρ (ω × Option κ)} {e : Event τ ω ρ ε} {u : τ}
    (h : turn (fun op ↦ (op, none)) stage e = some stage') (hu : (stage' u).Inside) :
    (stage u).Inside := by
  obtain ⟨t, op, -, ht, rfl⟩ | ⟨t, r, -, ht, rfl⟩ | ⟨x, -, rfl⟩ := turn_cases h
  · rcases eq_or_ne u t with rfl | hne
    · rw [Function.update_self] at hu
      exact absurd hu (Stage.not_inside_waiting op)
    · rwa [Function.update_of_ne hne] at hu
  · rcases eq_or_ne u t with rfl | hne
    · rw [Function.update_self] at hu
      exact absurd hu Stage.not_inside_idle
    · rwa [Function.update_of_ne hne] at hu
  · exact hu

omit [Fintype τ] in
/-- Who is inside after an event was there before. -/
theorem position_of_turn {stage stage' : τ → Stage ρ (ω × Option κ)} {e : Event τ ω ρ ε} {u : τ}
    {op : ω} {k : κ} (h : turn (fun op ↦ (op, none)) stage e = some stage')
    (hu : stage' u = .busy (op, some k)) : stage u = .busy (op, some k) := by
  obtain ⟨op', k', hu'⟩ := inside_of_turn h ⟨op, k, hu⟩
  rw [hu', ← turn_of_busy h hu', hu]

omit [Fintype τ] [DecidableEq τ] [DecidableEq ρ] in
/-- With `t` inside, what holds of its position holds of every position. -/
theorem forall_position {c : Locked τ σ ω ρ κ} {Q : ω → κ → Prop} (halone : c.Alone) {t : τ}
    {op : ω} {k : κ} (ht : c.stage t = .busy (op, some k)) (h : Q op k) (u : τ) (op' : ω) (k' : κ)
    (hu : c.stage u = .busy (op', some k')) : Q op' k' := by
  obtain rfl := halone t u ⟨op, k, ht⟩ ⟨op', k', hu⟩
  rw [ht] at hu
  cases hu
  exact h

omit [Fintype τ] [DecidableEq ρ] in
/-- With `t` gone, nobody is inside. -/
theorem not_inside_of_leave {c : Locked τ σ ω ρ κ} (halone : c.Alone) {t : τ} {op : ω} {k : κ}
    (ht : c.stage t = .busy (op, some k)) (r : ρ) (u : τ) :
    ¬ (Function.update c.stage t (.done r) u).Inside := by
  intro hu
  rcases eq_or_ne u t with rfl | hne
  · rw [Function.update_self] at hu
    obtain ⟨_, _, hdone⟩ := hu
    cases hdone
  · rw [Function.update_of_ne hne] at hu
    exact hne (halone u t hu ⟨op, k, ht⟩)

omit [Fintype τ] [DecidableEq τ] [DecidableEq ρ] in
theorem alone_start (s : σ) : (start s : Locked τ σ ω ρ κ).Alone :=
  fun _ _ ht _ ↦ absurd ht Stage.not_inside_idle

theorem alone_step {c c' : Locked τ σ ω ρ κ} {l : LockedLabel τ ω χ ρ ε} (h : c.Alone)
    (hstep : step S P c l = some c') : c'.Alone := by
  obtain ⟨e, stage, s, rfl, hturn, -, rfl⟩ | ⟨t, op, rfl, -, hfree, rfl⟩ |
    ⟨t, x, op, k, s, k', rfl, ht, -, rfl⟩ | ⟨t, op, k, r, rfl, ht, -, rfl⟩ := step_cases hstep
  · exact fun t u ht hu ↦ h t u (inside_of_turn hturn ht) (inside_of_turn hturn hu)
  · -- the thread that enters finds nobody inside
    have honly : ∀ u, (Function.update c.stage t (.busy (op, some (P.start op))) u).Inside →
        u = t := by
      intro u hu
      by_contra hne
      exact hfree u (by rwa [Function.update_of_ne hne] at hu)
    exact fun u w hu hw ↦ (honly u hu).trans (honly w hw).symm
  · have hback : ∀ u, (Function.update c.stage t (.busy (op, some k')) u).Inside →
        (c.stage u).Inside := by
      intro u hu
      rcases eq_or_ne u t with rfl | hne
      · exact ⟨op, k, ht⟩
      · rwa [Function.update_of_ne hne] at hu
    exact fun u w hu hw ↦ h u w (hback u hu) (hback w hw)
  · have hback : ∀ u, (Function.update c.stage t (.done r) u).Inside → (c.stage u).Inside := by
      intro u hu
      rcases eq_or_ne u t with rfl | hne
      · exact ⟨op, k, ht⟩
      · rwa [Function.update_of_ne hne] at hu
    exact fun u w hu hw ↦ h u w (hback u hu) (hback w hw)

end Locked

/-! ### Refinement -/

section Refinement

variable (S : Spec τ σ ω χ ρ ε) (P : Code σ ω χ ρ κ) [Fintype τ]

/-- What has to be known about the code of an object: where its calls commit, what is left to do
from there, and an invariant under which this is so. -/
structure Refinement where
  Inv : Locked τ σ ω ρ κ → Prop
  Committed : κ → Prop
  /-- What a call that has committed still does to the state, and its result. -/
  rest : κ → σ → Option (ρ × σ)
  inv_step : ∀ {c l c'}, Inv c → Locked.step S P c l = some c' → Inv c'
  not_committed_start : ∀ op, ¬ Committed (P.start op)
  /-- Before it commits, a call only looks. -/
  look : ∀ {c t op k x s k'}, Inv c → c.stage t = .busy (op, some k) → ¬ Committed k →
    P.next k x c.state = some (s, k') → ¬ Committed k' → s = c.state
  /-- The step that commits leaves as much to do as makes up the effect of the call. -/
  commit : ∀ {c t op k x s k'}, Inv c → c.stage t = .busy (op, some k) → ¬ Committed k →
    P.next k x c.state = some (s, k') → Committed k' →
    ∃ x' r, S.apply op x' c.state = some r ∧ rest k' s = some r
  /-- Every step after that does a part of what is left. -/
  go_on : ∀ {c t op k x s k'}, Inv c → c.stage t = .busy (op, some k) → Committed k →
    P.next k x c.state = some (s, k') → Committed k' ∧ rest k' s = rest k c.state
  /-- A call with a result has nothing left to do. -/
  finish : ∀ {c t op k r}, Inv c → c.stage t = .busy (op, some k) → P.result k = some r →
    Committed k ∧ rest k c.state = some (r, c.state)
  /-- An event does not interfere with what is left to do. -/
  apart : ∀ {c t op k e s r u}, Inv c → c.stage t = .busy (op, some k) → Committed k →
    Locked.step S P c (.event e) = some s → rest k c.state = some (r, u) →
    ∃ u', S.note e u = some u' ∧ rest k s.state = some (r, u')

namespace Refinement

variable {S P} (R : Refinement S P)

/-- A thread in the two systems. A call inside either has not committed, and the two states are the
same, or has, and its rest leads from one state to the other. -/
def View (s u : σ) : Stage ρ (ω × Option κ) → Stage ρ ω → Prop
  | .idle, g => g = .idle
  | .done r, g => g = .done r
  | .busy (op, none), g => g = .busy op
  | .busy (op, some k), g =>
    ¬ R.Committed k ∧ g = .busy op ∧ u = s ∨
      R.Committed k ∧ ∃ r, R.rest k s = some (r, u) ∧ g = .done r

/-- How the two systems are related. -/
structure Related (c : Locked τ σ ω ρ κ) (a : Atomic τ σ ω ρ) : Prop where
  inv : R.Inv c
  alone : c.Alone
  view : ∀ t, R.View c.state a.state (c.stage t) (a.stage t)
  state : (∀ t, ¬ (c.stage t).Inside) → a.state = c.state

variable {R}

theorem related_start {s : σ} (h : R.Inv (.start s)) : R.Related (.start s) (.start s) where
  inv := h
  alone := Locked.alone_start s
  view _ := rfl
  state _ := rfl

/-- A thread that is not inside looks the same in all states. -/
theorem View.of_not_inside {s u s' u' : σ} {g : Stage ρ (ω × Option κ)} {g' : Stage ρ ω}
    (h : R.View s u g g') (hg : ¬ g.Inside) : R.View s' u' g g' := by
  match g with
  | .idle | .done _ | .busy (_, none) => exact h
  | .busy (op, some k) => exact absurd ⟨op, k, rfl⟩ hg

/-- One thread moves on. -/
theorem view_update {s u s' u' : σ} {stage : τ → Stage ρ (ω × Option κ)} {stage' : τ → Stage ρ ω}
    (h : ∀ w, R.View s u (stage w) (stage' w)) {t : τ} {g : Stage ρ (ω × Option κ)}
    {d : Stage ρ ω} (ht : R.View s' u' g d) (hothers : ∀ w ≠ t, ¬ (stage w).Inside) (w : τ) :
    R.View s' u' (Function.update stage t g w) (Function.update stage' t d w) := by
  rcases eq_or_ne w t with rfl | hne
  · rwa [Function.update_self, Function.update_self]
  · rw [Function.update_of_ne hne, Function.update_of_ne hne]
    exact (h w).of_not_inside (hothers w hne)

/-- An event that may happen in one system may happen in the other. -/
theorem exists_turn {s u : σ} {stage stage₁ : τ → Stage ρ (ω × Option κ)} {stage' : τ → Stage ρ ω}
    (h : ∀ w, R.View s u (stage w) (stage' w)) {e : Event τ ω ρ ε}
    (hturn : turn (fun op ↦ (op, none)) stage e = some stage₁) :
    ∃ stage₁', turn id stage' e = some stage₁' ∧ ∀ w, R.View s u (stage₁ w) (stage₁' w) := by
  obtain ⟨t, op, rfl, ht, rfl⟩ | ⟨t, r, rfl, ht, rfl⟩ | ⟨x, rfl, rfl⟩ := turn_cases hturn
  · have hidle : stage' t = .idle := by simpa [View, ht] using h t
    refine ⟨Function.update stage' t (.busy op), by simp [turn, hidle], fun w ↦ ?_⟩
    rcases eq_or_ne w t with rfl | hne
    · rw [Function.update_self, Function.update_self]
      rfl
    · rw [Function.update_of_ne hne, Function.update_of_ne hne]
      exact h w
  · have hdone : stage' t = .done r := by simpa [View, ht] using h t
    refine ⟨Function.update stage' t .idle, by simp [turn, hdone], fun w ↦ ?_⟩
    rcases eq_or_ne w t with rfl | hne
    · rw [Function.update_self, Function.update_self]
      rfl
    · rw [Function.update_of_ne hne, Function.update_of_ne hne]
      exact h w
  · exact ⟨stage', rfl, h⟩

namespace Related

variable {c c' : Locked τ σ ω ρ κ} {a : Atomic τ σ ω ρ}

/-- **An event** happens in both systems, whatever the thread inside has done already. -/
theorem event (h : R.Related c a) {e : Event τ ω ρ ε}
    (hstep : Locked.step S P c (.event e) = some c') :
    ∃ a', Atomic.step S a (.event e) = some a' ∧ R.Related c' a' := by
  have hinv := R.inv_step h.inv hstep
  have halone := Locked.alone_step h.alone hstep
  obtain ⟨stage, hturn, hnote⟩ := Option.bind_eq_some_iff.1 hstep
  obtain ⟨s, hs, rfl⟩ := Option.map_eq_some_iff.1 hnote
  obtain ⟨stage', hturn', hview⟩ := exists_turn h.view hturn
  have hout : ∀ w, ¬ (c.stage w).Inside → ¬ (stage w).Inside :=
    fun w hw hin ↦ hw (Locked.inside_of_turn hturn hin)
  by_cases hfree : ∀ w, ¬ (c.stage w).Inside
  · refine ⟨⟨s, stage'⟩, Atomic.step_event hturn' (h.state hfree ▸ hs), hinv, halone,
      fun w ↦ (hview w).of_not_inside (hout w (hfree w)), fun _ ↦ rfl⟩
  · simp only [not_forall, not_not] at hfree
    obtain ⟨t, op, k, ht⟩ := hfree
    have ht' : stage t = .busy (op, some k) := turn_of_busy hturn ht
    have hothers : ∀ w ≠ t, ¬ (stage w).Inside :=
      fun w hw ↦ hout w fun hin ↦ hw (h.alone w t hin ⟨op, k, ht⟩)
    have hviews : ∀ u, R.View s u (stage t) (stage' t) → ∀ w, R.View s u (stage w) (stage' w) := by
      intro u hu w
      rcases eq_or_ne w t with rfl | hne
      · exact hu
      · exact (hview w).of_not_inside (hothers w hne)
    have hin : ∀ u, (∀ w, ¬ (stage w).Inside) → u = s :=
      fun u hnot ↦ absurd ⟨op, k, ht'⟩ (hnot t)
    have hviewt := hview t
    rw [ht'] at hviewt hviews
    rcases hviewt with ⟨hk, hbusy, heq⟩ | ⟨hk, r, hrest, hdone⟩
    · exact ⟨⟨s, stage'⟩, Atomic.step_event hturn' (heq ▸ hs), hinv, halone,
        hviews s (.inl ⟨hk, hbusy, rfl⟩), hin s⟩
    · obtain ⟨u', hu', hrest'⟩ := R.apart h.inv ht hk hstep hrest
      exact ⟨⟨u', stage'⟩, Atomic.step_event hturn' hu', hinv, halone,
        hviews u' (.inr ⟨hk, r, hrest', hdone⟩), hin u'⟩

/-- The thread inside moves on. -/
theorem move (h : R.Related c a) {t : τ} {op : ω} {k : κ} {s u : σ}
    {g : Stage ρ (ω × Option κ)} {d : Stage ρ ω} {l : LockedLabel τ ω χ ρ ε}
    (ht : c.stage t = .busy (op, some k))
    (hstep : Locked.step S P c l = some ⟨s, Function.update c.stage t g⟩)
    (hview : R.View s u g d) (hstate : ¬ g.Inside → u = s) :
    R.Related ⟨s, Function.update c.stage t g⟩ ⟨u, Function.update a.stage t d⟩ where
  inv := R.inv_step h.inv hstep
  alone := Locked.alone_step h.alone hstep
  view := view_update h.view hview fun w hw hin ↦ hw (h.alone w t hin ⟨op, k, ht⟩)
  state hfree := hstate (by simpa using hfree t)

/-- **Entering** is not seen: the call has changed nothing yet. -/
theorem enter (h : R.Related c a) {t : τ} (hstep : Locked.step S P c (.enter t) = some c') :
    R.Related c' a := by
  have hinv := R.inv_step h.inv hstep
  have halone := Locked.alone_step h.alone hstep
  obtain ⟨e, _, _, ⟨⟩, -⟩ | ⟨_, op, ⟨⟩, ht, hfree, rfl⟩ | ⟨_, _, _, _, _, _, ⟨⟩, -⟩ |
    ⟨_, _, _, _, ⟨⟩, -⟩ := Locked.step_cases hstep
  have hbusy : a.stage t = .busy op := by simpa [View, ht] using h.view t
  refine ⟨hinv, halone, fun w ↦ ?_, fun _ ↦ h.state hfree⟩
  have hview := view_update h.view (t := t) (g := .busy (op, some (P.start op))) (d := .busy op)
    (.inl ⟨R.not_committed_start op, rfl, h.state hfree⟩) (fun w _ ↦ hfree w) w
  rwa [← hbusy, Function.update_eq_self] at hview

/-- **A step of the code** is the call's effect if the call commits there, and is not seen
otherwise. -/
theorem next (h : R.Related c a) {t : τ} {x : χ} (hstep : Locked.step S P c (.next t x) = some c') :
    R.Related c' a ∨ ∃ x' a', Atomic.step S a (.commit t x') = some a' ∧ R.Related c' a' := by
  obtain ⟨e, _, _, ⟨⟩, -⟩ | ⟨_, op, ⟨⟩, -⟩ | ⟨_, _, op, k, s, k', ⟨⟩, ht, hnext, rfl⟩ |
    ⟨_, _, _, _, ⟨⟩, -⟩ := Locked.step_cases hstep
  have hin : ¬ (Stage.busy (op, some k') : Stage ρ _).Inside → ∀ u, u = s :=
    fun hnot ↦ absurd ⟨op, k', rfl⟩ hnot
  have hviewt := h.view t
  rw [ht] at hviewt
  rcases hviewt with ⟨hk, hbusy, heq⟩ | ⟨hk, r, hrest, hdone⟩
  · by_cases hk' : R.Committed k'
    · -- the call commits: what the atomic call does, the code has begun and its rest completes
      obtain ⟨x', ⟨r, u⟩, happly, hrest⟩ := R.commit h.inv ht hk hnext hk'
      exact .inr ⟨x', _, Atomic.step_commit hbusy (heq ▸ happly),
        h.move ht hstep (.inr ⟨hk', r, hrest, rfl⟩) fun hnot ↦ hin hnot u⟩
    · obtain rfl := R.look h.inv ht hk hnext hk'
      have hmove := h.move ht hstep (u := a.state) (d := .busy op) (.inl ⟨hk', rfl, heq⟩)
        fun hnot ↦ hin hnot a.state
      rw [← hbusy, Function.update_eq_self] at hmove
      exact .inl hmove
  · obtain ⟨hk', hrest'⟩ := R.go_on h.inv ht hk hnext
    have hmove := h.move ht hstep (u := a.state) (d := .done r)
      (.inr ⟨hk', r, hrest'.trans hrest, rfl⟩) fun hnot ↦ hin hnot a.state
    rw [← hdone, Function.update_eq_self] at hmove
    exact .inl hmove

/-- **Leaving** is not seen: there is nothing left to do. -/
theorem leave (h : R.Related c a) {t : τ} (hstep : Locked.step S P c (.leave t) = some c') :
    R.Related c' a := by
  obtain ⟨e, _, _, ⟨⟩, -⟩ | ⟨_, op, ⟨⟩, -⟩ | ⟨_, _, _, _, _, _, ⟨⟩, -⟩ |
    ⟨_, op, k, r, ⟨⟩, ht, hr, rfl⟩ := Locked.step_cases hstep
  obtain ⟨hk, hrest⟩ := R.finish h.inv ht hr
  have hviewt := h.view t
  rw [ht] at hviewt
  rcases hviewt with ⟨hnot, -⟩ | ⟨-, r', hrest', hdone⟩
  · exact absurd hk hnot
  · obtain ⟨rfl, hstate⟩ := Prod.mk.inj (Option.some.inj (hrest'.symm.trans hrest))
    have hmove := h.move ht hstep (u := a.state) (d := .done r') rfl fun _ ↦ hstate
    rwa [← hdone, Function.update_eq_self] at hmove

end Related

/-- **Locked calls take effect at one step.** Whatever the threads and the environment do, the
events of a run are the events of a run in which every call takes effect at one step, and the two
end in related configurations. -/
theorem exists_atomic_run {c c' : Locked τ σ ω ρ κ} {a : Atomic τ σ ω ρ}
    {ls : List (LockedLabel τ ω χ ρ ε)} (h : R.Related c a)
    (hrun : run (Locked.step S P) c ls = some c') :
    ∃ ls' a', run (Atomic.step S) a ls' = some a' ∧ R.Related c' a' ∧
      ls'.filterMap AtomicLabel.visible = ls.filterMap LockedLabel.visible := by
  refine exists_run_of_simulation (fun c l c' a hR hstep ↦ ?_) h hrun
  cases l with
  | event e =>
    obtain ⟨a', ha', hR'⟩ := hR.event hstep
    exact ⟨[.event e], a', by simp [run_cons, ha'], hR', rfl⟩
  | enter t => exact ⟨[], a, rfl, hR.enter hstep, rfl⟩
  | next t x =>
    rcases hR.next hstep with hR' | ⟨x', a', ha', hR'⟩
    · exact ⟨[], a, rfl, hR', rfl⟩
    · exact ⟨[.commit t x'], a', by simp [run_cons, ha'], hR', rfl⟩
  | leave t => exact ⟨[], a, rfl, hR.leave hstep, rfl⟩

end Refinement

end Refinement

end LockedObject
