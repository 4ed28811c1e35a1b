import Mathlib.Data.List.Basic
import Mathlib.Data.List.Nodup

/-!
# Linearizability

What it means for calls that overlap in time to behave as if each took effect at one instant. A
history is the list of calls and returns in the order in which they happened. It is linearizable for
a sequential specification `apply : σ → ω → ρ × σ` if some of its calls, every completed one among
them, can be put in one sequential order that `apply` answers with the results returned, and that
never puts a call before one that returned before it was made.

`Linearization` carries the order and the state it ends in, so that it can be built along a run. The
three rules are the proof method of linearization points: a new call leaves the order alone
(`Linearization.call`), a pending call may be put at the end at any moment (`Linearization.commit`),
and once it is there it may return with the result `apply` gave it (`Linearization.ret`).
-/

namespace Linearizability

/-- What happens in a history. -/
inductive Event (ι ω ρ : Type*) where
  | call (id : ι) (op : ω)
  | ret (id : ι) (result : ρ)
deriving DecidableEq

/-- A call in a sequential order, with the result it is given there. -/
structure SeqCall (ι ω ρ : Type*) where
  id : ι
  op : ω
  result : ρ

variable {ι ω ρ σ : Type*}

/-- Call `i` returned before call `j` was made. -/
def Precedes (h : List (Event ι ω ρ)) (i j : ι) : Prop :=
  ∃ h₁ h₂ r op, h = h₁ ++ .ret i r :: h₂ ∧ .call j op ∈ h₂

/-- The sequence takes the specification from one state to another, with the results it shows. -/
def Legal (apply : σ → ω → ρ × σ) : σ → List (SeqCall ι ω ρ) → σ → Prop
  | s, [], t => s = t
  | s, e :: es, t => (apply s e.op).1 = e.result ∧ Legal apply (apply s e.op).2 es t

/-- `es` is a sequential order for the history `h`, from state `s₀` to state `s`. -/
structure Linearization (apply : σ → ω → ρ × σ) (s₀ : σ) (h : List (Event ι ω ρ))
    (es : List (SeqCall ι ω ρ)) (s : σ) : Prop where
  legal : Legal apply s₀ es s
  nodup : (es.map SeqCall.id).Nodup
  called : ∀ e ∈ es, .call e.id e.op ∈ h
  returned : ∀ i r, .ret i r ∈ h → ∃ e ∈ es, e.id = i ∧ e.result = r
  realTime : es.Pairwise fun e e' ↦ ¬ Precedes h e'.id e.id

/-- The history has a sequential order. -/
def Linearizable (apply : σ → ω → ρ × σ) (s₀ : σ) (h : List (Event ι ω ρ)) : Prop :=
  ∃ es s, Linearization apply s₀ h es s

variable {apply : σ → ω → ρ × σ} {s₀ s : σ} {h : List (Event ι ω ρ)} {es : List (SeqCall ι ω ρ)}

theorem legal_concat {e : SeqCall ι ω ρ} (hlegal : Legal apply s₀ es s)
    (he : (apply s e.op).1 = e.result) : Legal apply s₀ (es ++ [e]) (apply s e.op).2 := by
  induction es generalizing s₀ with
  | nil =>
    obtain rfl : s₀ = s := hlegal
    exact ⟨he, rfl⟩
  | cons a es ih => exact ⟨hlegal.1, ih hlegal.2⟩

/-- An event at the end of a history makes nothing precede anything, unless it is a call. -/
theorem Precedes.of_concat {x : Event ι ω ρ} {i j : ι} (hp : Precedes (h ++ [x]) i j)
    (hx : ∀ op, x ≠ .call j op) : Precedes h i j := by
  obtain ⟨h₁, h₂, r, op, heq, hcall⟩ := hp
  rcases List.eq_nil_or_concat h₂ with rfl | ⟨h₂, y, rfl⟩
  · exact absurd hcall List.not_mem_nil
  · rw [List.concat_eq_append, ← List.cons_append, ← List.append_assoc] at heq
    obtain ⟨rfl, hxy⟩ := List.append_inj' heq rfl
    obtain rfl : x = y := List.singleton_inj.1 hxy
    rw [List.concat_eq_append, List.mem_append, List.mem_singleton] at hcall
    rcases hcall with hcall | hcall
    · exact ⟨h₁, h₂, r, op, rfl, hcall⟩
    · exact absurd hcall.symm (hx op)

namespace Linearization

/-- The empty history. -/
theorem nil : Linearization apply s₀ ([] : List (Event ι ω ρ)) [] s₀ where
  legal := rfl
  nodup := List.nodup_nil
  called _ he := absurd he List.not_mem_nil
  returned _ _ hr := absurd hr List.not_mem_nil
  realTime := List.Pairwise.nil

/-- **Call.** A new call leaves the order as it is. -/
theorem call (hl : Linearization apply s₀ h es s) {j : ι} (op : ω)
    (hfresh : ∀ op', .call j op' ∉ h) : Linearization apply s₀ (h ++ [.call j op]) es s where
  legal := hl.legal
  nodup := hl.nodup
  called e he := List.mem_append_left _ (hl.called e he)
  returned i r hr := by
    rw [List.mem_append, List.mem_singleton] at hr
    rcases hr with hr | hr
    · exact hl.returned i r hr
    · cases hr
  realTime := by
    refine hl.realTime.imp_of_mem fun {e e'} he _ hnot hp ↦ hnot (hp.of_concat fun op' heq ↦ ?_)
    -- the new call is not in the order, its identity being fresh
    obtain ⟨rfl, rfl⟩ := Event.call.inj heq
    exact hfresh _ (hl.called e he)

/-- **Commit.** A pending call may take effect now, with the result the specification gives. -/
theorem commit (hl : Linearization apply s₀ h es s) {j : ι} {op : ω} (hcall : .call j op ∈ h)
    (hnew : ∀ e ∈ es, e.id ≠ j) :
    Linearization apply s₀ h (es ++ [⟨j, op, (apply s op).1⟩]) (apply s op).2 where
  legal := legal_concat hl.legal rfl
  nodup := by
    rw [List.map_append, List.map_singleton]
    refine hl.nodup.append (List.nodup_singleton j) fun i hi hij ↦ ?_
    obtain ⟨e, he, rfl⟩ := List.mem_map.1 hi
    exact hnew e he (List.mem_singleton.1 hij)
  called e he := by
    rw [List.mem_append, List.mem_singleton] at he
    rcases he with he | rfl
    · exact hl.called e he
    · exact hcall
  returned i r hr := by
    obtain ⟨e, he, hi⟩ := hl.returned i r hr
    exact ⟨e, List.mem_append_left _ he, hi⟩
  realTime := by
    refine List.pairwise_append.2 ⟨hl.realTime, List.pairwise_singleton _ _, ?_⟩
    rintro e - e' he' ⟨h₁, h₂, r, op', rfl, -⟩
    obtain rfl := List.mem_singleton.1 he'
    obtain ⟨a, ha, haj, -⟩ :=
      hl.returned j r (List.mem_append_right _ List.mem_cons_self)
    exact hnew a ha haj

/-- **Return.** A call that has taken effect may return with its result. -/
theorem ret (hl : Linearization apply s₀ h es s) {e : SeqCall ι ω ρ} (he : e ∈ es) :
    Linearization apply s₀ (h ++ [.ret e.id e.result]) es s where
  legal := hl.legal
  nodup := hl.nodup
  called a ha := List.mem_append_left _ (hl.called a ha)
  returned i r hr := by
    rw [List.mem_append, List.mem_singleton] at hr
    rcases hr with hr | hr
    · exact hl.returned i r hr
    · obtain ⟨rfl, rfl⟩ := Event.ret.inj hr
      exact ⟨e, he, rfl, rfl⟩
  realTime := hl.realTime.imp fun hnot hp ↦ hnot (hp.of_concat fun op heq ↦ by cases heq)

end Linearization

end Linearizability
