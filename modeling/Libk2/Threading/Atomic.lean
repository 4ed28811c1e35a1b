import Mathlib.Algebra.Order.Ring.Nat
import Mathlib.Algebra.Ring.Int.Defs
import Mathlib.Logic.Function.Basic
import Libk2.Foundation.Linearizability
import Libk2.Foundation.StepSystem

/-!
# `atomic_increase` and `atomic_decrease`

The two variants of `atomic.h`. The GNU one is two `__exchange_and_add` calls, one that updates the
counter and one that adds zero to read it; the value the first one returns is dropped. The other one
does both in a section guarded by a mutex. `AtomicOp.apply` is what both are documented to do.

`AtomicSys` is the counter with any number of threads calling the two functions, each
`__exchange_and_add` and each locked section being one step, and with the history of calls and
returns. The locked variant takes effect in its one step. The GNU variant takes effect in its first
step but answers in its second, so its answer is that of its own update as long as the counter is
still, or again, on the same side of zero (`Undisturbed`).
-/

namespace Libk2

open StepSystem Linearizability

/-- `atomic_int_t`. -/
abbrev AtomicInt := Int32

/-- `__exchange_and_add(&value, n)`: what it returns, and the new value. -/
def exchangeAndAdd (value n : AtomicInt) : AtomicInt × AtomicInt := (value, value + n)

@[simp] theorem exchangeAndAdd_zero (value : AtomicInt) :
    exchangeAndAdd value 0 = (value, value) := by
  rw [exchangeAndAdd, Int32.add_zero]

/-- The two functions. -/
inductive AtomicOp where
  | increase
  | decrease
deriving DecidableEq

/-- What a function adds to the counter. -/
def AtomicOp.addend : AtomicOp → AtomicInt
  | increase => 1
  | decrease => -1

/-- The documented effect: add, and test the result. -/
def AtomicOp.apply (value : AtomicInt) (op : AtomicOp) : Bool × AtomicInt :=
  (value + op.addend != 0, value + op.addend)

/-- The section guarded by `local_mtx`: `ret = ++value` or `ret = --value`. -/
def lockedSection (value : AtomicInt) (op : AtomicOp) : Bool × AtomicInt :=
  let value := value + op.addend
  (value != 0, value)

/-- `atomic_increase` and `atomic_decrease` as one indivisible step. -/
def atomicIncrease (value : AtomicInt) : Bool × AtomicInt := AtomicOp.apply value .increase

def atomicDecrease (value : AtomicInt) : Bool × AtomicInt := AtomicOp.apply value .decrease

/-- `n` increments from -1 leave `n - 1`. One more does not wrap around, and only the first one
leaves 0. -/
theorem toInt_increased {v : AtomicInt} {n : ℕ} (hv : v.toInt = n - 1) (hn : n < 2 ^ 31) :
    (v + 1).toInt = n ∧ (v + 1 = 0 ↔ n = 0) := by
  have htoInt : (v + 1).toInt = n := by
    rw [Int32.toInt_add, hv, Int32.toInt_one, Int.sub_add_cancel]
    exact Int.bmod_eq_of_le (by omega) (by omega)
  refine ⟨htoInt, ?_⟩
  rw [← Int32.toInt_inj, htoInt, Int32.toInt_zero, Int.natCast_eq_zero]

/-- One fewer does not wrap around either. -/
theorem toInt_decreased {v : AtomicInt} {n : ℕ} (hv : v.toInt = n) (hn : n < 2 ^ 31) :
    (v + -1).toInt = n - 1 := by
  rw [Int32.toInt_add, hv, show (-1 : AtomicInt).toInt = -1 from rfl]
  exact Int.bmod_eq_of_le (by omega) (by omega)

/-! ### The system -/

/-- The two implementations. -/
inductive AtomicVariant where
  | gnu
  | locked
deriving DecidableEq

/-- Where a thread is in a call. `old` is what the first `__exchange_and_add` returned. -/
inductive AtomicPc where
  | idle
  | called (id : ℕ) (op : AtomicOp)
  | updated (id : ℕ) (op : AtomicOp) (old : AtomicInt)
  | returning (id : ℕ) (ret : Bool)

/-- The counter, the threads `τ`, and the calls and returns so far. -/
structure AtomicSys (τ : Type*) where
  value : AtomicInt
  pc : τ → AtomicPc
  calls : ℕ
  history : List (Event ℕ AtomicOp Bool)

/-- A thread makes a call, or goes on with the one it is in. -/
inductive AtomicLabel (τ : Type*) where
  | call (t : τ) (op : AtomicOp)
  | next (t : τ)

namespace AtomicSys

variable {τ : Type*}

/-- No call has been made. -/
def start (τ : Type*) (value : AtomicInt) : AtomicSys τ := ⟨value, fun _ ↦ .idle, 0, []⟩

variable [DecidableEq τ]

/-- Thread `t` goes on to `pc`. -/
def goto (s : AtomicSys τ) (t : τ) (pc : AtomicPc) : AtomicSys τ :=
  { s with pc := Function.update s.pc t pc }

@[simp] theorem pc_goto_self (s : AtomicSys τ) (t : τ) (pc : AtomicPc) : (s.goto t pc).pc t = pc :=
  Function.update_self _ _ _

theorem pc_goto_of_ne {s : AtomicSys τ} {t u : τ} {pc : AtomicPc} (h : u ≠ t) :
    (s.goto t pc).pc u = s.pc u :=
  Function.update_of_ne h _ _

/-- One step of a thread. -/
def step (v : AtomicVariant) (s : AtomicSys τ) : AtomicLabel τ → Option (AtomicSys τ)
  | .call t op =>
    match s.pc t with
    | .idle => some { s.goto t (.called s.calls op) with
        calls := s.calls + 1
        history := s.history ++ [.call s.calls op] }
    | _ => none
  | .next t =>
    match s.pc t with
    | .idle => none
    | .called id op =>
      match v with
      | .gnu =>
        let r := exchangeAndAdd s.value op.addend
        some { s.goto t (.updated id op r.1) with value := r.2 }
      | .locked =>
        let r := lockedSection s.value op
        some { s.goto t (.returning id r.1) with value := r.2 }
    | .updated id _ _ =>
      let r := exchangeAndAdd s.value 0
      some { s.goto t (.returning id (r.1 != 0)) with value := r.2 }
    | .returning id ret =>
      some { s.goto t .idle with history := s.history ++ [.ret id ret] }

/-- **The condition.** Where the GNU variant is about to test the counter, the counter is zero
exactly if the thread's own update left it zero. -/
def Undisturbed (v : AtomicVariant) (s : AtomicSys τ) : AtomicLabel τ → Prop
  | .call _ _ => True
  | .next t => v = .gnu → ∀ id op old, s.pc t = .updated id op old →
      (s.value = 0 ↔ old + op.addend = 0)

/-! ### The order of the updates -/

/-- Where a thread is, seen from the order of the updates: its call is not in the order until its
update, and then it is there with the result the thread is to return. -/
def Placed (v : AtomicVariant) (h : List (Event ℕ AtomicOp Bool))
    (es : List (SeqCall ℕ AtomicOp Bool)) : AtomicPc → Prop
  | .idle => True
  | .called id op => .call id op ∈ h ∧ ∀ e ∈ es, e.id ≠ id
  | .updated id op old => v = .gnu ∧ ⟨id, op, (AtomicOp.apply old op).1⟩ ∈ es
  | .returning id ret => ∃ op, ⟨id, op, ret⟩ ∈ es

/-- The invariant, for the order `es` of the updates. -/
structure Ordered (v : AtomicVariant) (value₀ : AtomicInt) (s : AtomicSys τ)
    (es : List (SeqCall ℕ AtomicOp Bool)) : Prop where
  linearization : Linearization AtomicOp.apply value₀ s.history es s.value
  placed : ∀ t, Placed v s.history es (s.pc t)
  fresh : ∀ id op, .call id op ∈ s.history → id < s.calls
  distinct : ∀ t u id op op', s.pc t = .called id op → s.pc u = .called id op' → t = u

/-- A place stays a place when the history and the order grow, unless the order takes in the call.
-/
theorem Placed.mono {v : AtomicVariant} {h h' : List (Event ℕ AtomicOp Bool)}
    {es es' : List (SeqCall ℕ AtomicOp Bool)} {pc : AtomicPc} (hp : Placed v h es pc) (hh : h ⊆ h')
    (hes : es ⊆ es') (hnew : ∀ id op, pc = .called id op → ∀ e ∈ es', e.id ≠ id) :
    Placed v h' es' pc := by
  cases pc with
  | idle => trivial
  | called id op => exact ⟨hh hp.1, hnew id op rfl⟩
  | updated id op old => exact ⟨hp.1, hes hp.2⟩
  | returning id ret =>
    obtain ⟨op, hop⟩ := hp
    exact ⟨op, hes hop⟩

/-- A place stays a place when the history grows. -/
theorem Placed.concat {v : AtomicVariant} {h : List (Event ℕ AtomicOp Bool)}
    {es : List (SeqCall ℕ AtomicOp Bool)} {pc : AtomicPc} (hp : Placed v h es pc)
    (x : Event ℕ AtomicOp Bool) : Placed v (h ++ [x]) es pc := by
  refine hp.mono (List.subset_append_left _ _) (List.Subset.refl _) fun id op hpc ↦ ?_
  subst hpc
  exact hp.2

namespace Ordered

variable {v : AtomicVariant} {value₀ : AtomicInt} {s : AtomicSys τ}
  {es : List (SeqCall ℕ AtomicOp Bool)} {t : τ}

/-- A thread that goes on to anything but a call leaves the pending calls distinct. -/
theorem distinct_goto (h : s.Ordered v value₀ es) (pc : AtomicPc)
    (hpc : ∀ id op, pc ≠ .called id op) (u w : τ) (id : ℕ) (op op' : AtomicOp)
    (hu : (s.goto t pc).pc u = .called id op)
    (hw : (s.goto t pc).pc w = .called id op') : u = w := by
  have hne : ∀ x op'', (s.goto t pc).pc x = .called id op'' → s.pc x = .called id op'' := by
    intro x op'' hx
    rcases eq_or_ne x t with rfl | hxt
    · exact absurd ((pc_goto_self s x pc).symm.trans hx) (hpc id op'')
    · exact (pc_goto_of_ne hxt).symm.trans hx
  exact h.distinct u w id op op' (hne u op hu) (hne w op' hw)

/-- A new call. -/
theorem call (h : s.Ordered v value₀ es) (op : AtomicOp) :
    Ordered v value₀ { s.goto t (.called s.calls op) with
      calls := s.calls + 1
      history := s.history ++ [.call s.calls op] } es where
  linearization := h.linearization.call op fun op' hmem ↦ lt_irrefl _ (h.fresh _ op' hmem)
  placed := by
    refine (Function.forall_update_iff s.pc fun _ pc ↦ Placed v _ es pc).2
      ⟨⟨List.mem_append_right _ (List.mem_singleton_self _), fun e he ↦ ?_⟩,
        fun u _ ↦ (h.placed u).concat _⟩
    exact (h.fresh e.id e.op (h.linearization.called e he)).ne
  fresh id op' hmem := by
    rcases List.mem_append.1 hmem with hmem | hmem
    · exact (h.fresh id op' hmem).trans (Nat.lt_succ_self _)
    · obtain ⟨rfl, -⟩ := Event.call.inj (List.mem_singleton.1 hmem)
      exact Nat.lt_succ_self _
  distinct u w id op₁ op₂ hu hw := by
    have hnew : ∀ op', (s.goto t (.called s.calls op)).pc t = .called id op' → s.calls = id := by
      intro op' hpc
      exact (AtomicPc.called.inj ((pc_goto_self s t _).symm.trans hpc)).1
    -- the pending call of another thread is older than the new one
    have hold : ∀ x op', x ≠ t → (s.goto t (.called s.calls op)).pc x = .called id op' →
        s.pc x = .called id op' ∧ id < s.calls := by
      intro x op' hxt hpc
      rw [pc_goto_of_ne hxt] at hpc
      have hplaced := h.placed x
      rw [hpc] at hplaced
      exact ⟨hpc, h.fresh id op' hplaced.1⟩
    rcases eq_or_ne u t with hut | hut <;> rcases eq_or_ne w t with hwt | hwt
    · exact hut.trans hwt.symm
    · exact absurd (hnew op₁ (hut ▸ hu)) (hold w op₂ hwt hw).2.ne'
    · exact absurd (hnew op₂ (hwt ▸ hw)) (hold u op₁ hut hu).2.ne'
    · exact h.distinct u w id op₁ op₂ (hold u op₁ hut hu).1 (hold w op₂ hwt hw).1

/-- The step in which a call takes effect. -/
theorem commit (h : s.Ordered v value₀ es) {id : ℕ} {op : AtomicOp} (ht : s.pc t = .called id op)
    (pc : AtomicPc) (hpc : ∀ id op, pc ≠ .called id op)
    (hplaced : Placed v s.history (es ++ [⟨id, op, (AtomicOp.apply s.value op).1⟩]) pc) :
    Ordered v value₀ { s.goto t pc with value := (AtomicOp.apply s.value op).2 }
      (es ++ [⟨id, op, (AtomicOp.apply s.value op).1⟩]) where
  linearization := by
    have hcalled := h.placed t
    rw [ht] at hcalled
    exact h.linearization.commit hcalled.1 hcalled.2
  placed := by
    refine (Function.forall_update_iff s.pc fun _ pc ↦ Placed v _ _ pc).2 ⟨hplaced, fun u hut ↦ ?_⟩
    refine (h.placed u).mono (List.Subset.refl _) (List.subset_append_left _ _)
      fun id' op' hu e he ↦ ?_
    rcases List.mem_append.1 he with he | he
    · have hcalled := h.placed u
      rw [hu] at hcalled
      exact hcalled.2 e he
    · rw [List.mem_singleton.1 he]
      rintro rfl
      exact hut (h.distinct u t _ op' op hu ht)
  fresh := h.fresh
  distinct := h.distinct_goto pc hpc

/-- A step that only moves the thread. -/
theorem move (h : s.Ordered v value₀ es) (pc : AtomicPc) (hpc : ∀ id op, pc ≠ .called id op)
    (hplaced : Placed v s.history es pc) : Ordered v value₀ (s.goto t pc) es where
  linearization := h.linearization
  placed := (Function.forall_update_iff s.pc fun _ pc ↦ Placed v _ _ pc).2
    ⟨hplaced, fun u _ ↦ h.placed u⟩
  fresh := h.fresh
  distinct := h.distinct_goto pc hpc

/-- A return. -/
theorem ret (h : s.Ordered v value₀ es) {id : ℕ} {ret : Bool} (ht : s.pc t = .returning id ret) :
    Ordered v value₀ { s.goto t .idle with history := s.history ++ [.ret id ret] } es where
  linearization := by
    have hreturning := h.placed t
    rw [ht] at hreturning
    obtain ⟨op, hop⟩ := hreturning
    exact h.linearization.ret hop
  placed := (Function.forall_update_iff s.pc fun _ pc ↦ Placed v _ _ pc).2
    ⟨trivial, fun u _ ↦ (h.placed u).concat _⟩
  fresh id' op hmem := by
    rcases List.mem_append.1 hmem with hmem | hmem
    · exact h.fresh id' op hmem
    · cases List.mem_singleton.1 hmem
  distinct := h.distinct_goto .idle nofun

end Ordered

/-- **One step** keeps the order of the updates, or adds an update to it. -/
theorem ordered_step {v : AtomicVariant} {value₀ : AtomicInt} {s s' : AtomicSys τ}
    {l : AtomicLabel τ} {es : List (SeqCall ℕ AtomicOp Bool)} (h : s.Ordered v value₀ es)
    (hl : s.Undisturbed v l) (hstep : step v s l = some s') : ∃ es', s'.Ordered v value₀ es' := by
  cases l with
  | call t op =>
    cases ht : s.pc t with
    | idle =>
      simp only [step, ht, Option.some.injEq] at hstep
      exact ⟨es, hstep ▸ h.call op⟩
    | called id op => simp [step, ht] at hstep
    | updated id op old => simp [step, ht] at hstep
    | returning id ret => simp [step, ht] at hstep
  | next t =>
    have hplaced := h.placed t
    cases ht : s.pc t with
    | idle => simp [step, ht] at hstep
    | called id op =>
      have hmem : (⟨id, op, (AtomicOp.apply s.value op).1⟩ : SeqCall ℕ AtomicOp Bool) ∈
          es ++ [⟨id, op, (AtomicOp.apply s.value op).1⟩] :=
        List.mem_append_right _ (List.mem_singleton_self _)
      cases v with
      | gnu =>
        simp only [step, ht, Option.some.injEq] at hstep
        exact ⟨_, hstep ▸ h.commit ht (.updated id op s.value) nofun ⟨rfl, hmem⟩⟩
      | locked =>
        simp only [step, ht, Option.some.injEq] at hstep
        exact ⟨_, hstep ▸ h.commit ht (.returning id _) nofun ⟨op, hmem⟩⟩
    | updated id op old =>
      rw [ht] at hplaced
      obtain ⟨hgnu, hmem⟩ := hplaced
      -- the test answers for the thread's own update
      have hanswer : (s.value != 0) = (AtomicOp.apply old op).1 := by
        have hiff := hl hgnu id op old ht
        rw [Bool.eq_iff_iff, AtomicOp.apply, bne_iff_ne, bne_iff_ne]
        exact not_congr hiff
      simp only [step, ht, Option.some.injEq, exchangeAndAdd_zero, hanswer] at hstep
      exact ⟨es, hstep ▸ h.move (.returning id _) nofun ⟨op, hmem⟩⟩
    | returning id ret =>
      simp only [step, ht, Option.some.injEq] at hstep
      exact ⟨es, hstep ▸ h.ret ht⟩

theorem ordered_start (τ : Type*) [DecidableEq τ] (v : AtomicVariant) (value : AtomicInt) :
    (start τ value).Ordered v value [] where
  linearization := Linearization.nil
  placed _ := trivial
  fresh _ _ h := absurd h List.not_mem_nil
  distinct _ _ _ _ _ h := nomatch h

theorem ordered_of_undisturbed {v : AtomicVariant} {value : AtomicInt} {ls : List (AtomicLabel τ)}
    (h : EveryStep (step v) (Undisturbed v) (start τ value) ls) :
    EveryState (step v) (fun s ↦ ∃ es, s.Ordered v value es) (start τ value) ls :=
  everyState_of_everyStep (fun _ _ _ ⟨_, hs⟩ hl hstep ↦ ordered_step hs hl hstep)
    ⟨[], ordered_start τ v value⟩ h

/-! ### Linearizability -/

/-- **The two functions are linearizable** in every state of a run in which each test of the GNU
variant finds the counter on the side of zero that the thread's own update left it on. -/
theorem linearizable_of_undisturbed {v : AtomicVariant} {value : AtomicInt}
    {ls : List (AtomicLabel τ)} (h : EveryStep (step v) (Undisturbed v) (start τ value) ls) :
    EveryState (step v) (fun s ↦ Linearizable AtomicOp.apply value s.history) (start τ value) ls :=
  (ordered_of_undisturbed h).mono fun s ⟨es, hs⟩ ↦ ⟨es, s.value, hs.linearization⟩

/-- Two calls of `atomic_increase`: both add, then both test. -/
def bothAddThenTest : List (AtomicLabel ℕ) :=
  [.call 0 .increase, .call 1 .increase, .next 0, .next 1, .next 0, .next 1, .next 0, .next 1]

/-- Two GNU calls that overlap, far away from zero. -/
theorem linearizable_of_undisturbed_both :
    ∃ s, run (step .gnu) (start ℕ 5) bothAddThenTest = some s ∧
      s.history = [.call 0 .increase, .call 1 .increase, .ret 0 true, .ret 1 true] ∧
      Linearizable AtomicOp.apply 5 s.history := by
  have h : EveryStep (step .gnu) (Undisturbed .gnu) (start ℕ 5) bothAddThenTest := by
    refine .cons rfl trivial <| .cons rfl trivial <| .cons rfl ?_ <| .cons rfl ?_ <|
      .cons rfl ?_ <| .cons rfl ?_ <| .cons rfl ?_ <| .cons rfl ?_ everyStep_nil
    · rintro - _ _ _ ⟨⟩
    · rintro - _ _ _ ⟨⟩
    · rintro - _ _ _ ⟨⟩
      decide
    · rintro - _ _ _ ⟨⟩
      decide
    · rintro - _ _ _ ⟨⟩
    · rintro - _ _ _ ⟨⟩
  exact ⟨_, rfl, rfl, (linearizable_of_undisturbed h).last rfl⟩

/-- **The locked variant is linearizable**, in every run. -/
theorem linearizable_locked {value : AtomicInt} {ls : List (AtomicLabel τ)} :
    EveryState (step .locked) (fun s ↦ Linearizable AtomicOp.apply value s.history)
      (start τ value) ls := by
  have h : EveryStep (step .locked) (Undisturbed .locked) (start τ value) ls := by
    rintro ls₁ (⟨t, op⟩ | t) ls₂ s - -
    · trivial
    · exact nofun
  exact (ordered_of_undisturbed h).mono fun s ⟨es, hs⟩ ↦ ⟨es, s.value, hs.linearization⟩

/-- No sequential order from -1 answers two increases with `true`: the first of them leaves 0. -/
theorem not_linearizable_of_two_true : ¬ Linearizable AtomicOp.apply (-1)
    ([.call 0 .increase, .call 1 .increase, .ret 0 true, .ret 1 true] :
      List (Event ℕ AtomicOp Bool)) := by
  rintro ⟨es, t, hl⟩
  obtain ⟨e, he, -⟩ := hl.returned 0 true (by decide)
  obtain ⟨a, es, rfl⟩ := List.exists_cons_of_ne_nil (List.ne_nil_of_mem he)
  have hcalled := hl.called a List.mem_cons_self
  simp only [List.mem_cons, Event.call.injEq, List.not_mem_nil, reduceCtorEq, or_false] at hcalled
  have hop : a.op = .increase := by
    rcases hcalled with ⟨-, h⟩ | ⟨-, h⟩ <;> exact h
  obtain ⟨b, hb, hba, hresult⟩ : ∃ b ∈ a :: es, b.id = a.id ∧ b.result = true := by
    rcases hcalled with ⟨h, -⟩ | ⟨h, -⟩ <;> exact h ▸ hl.returned _ true (by decide)
  obtain rfl : b = a := List.inj_on_of_nodup_map hl.nodup hb List.mem_cons_self hba
  have hfirst := hl.legal.1
  rw [hop, hresult] at hfirst
  exact absurd hfirst (by decide)

/-- **The GNU variant is not linearizable.** Neither of the two calls is answered that the counter
became zero, though the first update made it so. -/
theorem gnu_not_linearizable : ¬ ∀ (v : AtomicVariant) (value : AtomicInt)
    (ls : List (AtomicLabel ℕ)), EveryState (step v)
      (fun s ↦ Linearizable AtomicOp.apply value s.history) (start ℕ value) ls := by
  intro hall
  obtain ⟨s, hrun, hhistory⟩ : ∃ s, run (step .gnu) (start ℕ (-1)) bothAddThenTest = some s ∧
      s.history = [.call 0 .increase, .call 1 .increase, .ret 0 true, .ret 1 true] :=
    ⟨_, rfl, rfl⟩
  have hlinearizable := (hall .gnu (-1) bothAddThenTest).last hrun
  rw [hhistory] at hlinearizable
  exact not_linearizable_of_two_true hlinearizable

end AtomicSys

end Libk2
