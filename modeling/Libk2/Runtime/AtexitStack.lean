import Mathlib.Data.List.Sort
import Libk2.Foundation.PointerChain
import Libk2.Foundation.StepSystem

/-!
# `atexit_stack`: the list of exit tasks

The anonymous-namespace `atexit_stack` of `runtime.cpp`: a singly linked list of heap-allocated
tasks, kept by `push` in order of priority and consumed by `exec`. The model keeps the pointers. The
heap maps an address to the task stored there, reading through null or a dangling pointer is
undefined (`none`), and the address `new atexit_task` returns is an argument.

Two fields are bookkeeping of the model, not of the program: `registered` lists what has been
registered, and a task's `serial` is its position there, so that two registrations of one routine
can be told apart. `log` records the calls and deletions `exec` makes.

`Tasks heap p l` says that the list at `p` holds the entries `l`. The one theorem about `push` is
`tasks_push`: all its branches — empty list, new head, one element, middle — insert the new entry in
front of the first one of no higher priority.
-/

namespace Libk2

open PointerChain

/-- `atexit_task`. -/
structure AtexitTask (ρ α : Type*) where
  routine : ρ
  arg : α
  prio : ℤ
  pnext : ℕ
  serial : ℕ

/-- A registered exit task. -/
structure Registration (ρ α : Type*) where
  serial : ℕ
  routine : ρ
  arg : α
  prio : ℤ
deriving DecidableEq

/-- What `exec` does to a task. -/
inductive ExitEvent (ρ α : Type*) where
  | ran (serial : ℕ) (routine : ρ) (arg : α)
  | deleted (serial : ℕ)
deriving DecidableEq

/-- The statics of `runtime.cpp` that exit tasks involve, with the heap they live in. -/
structure AtexitStack (ρ α : Type*) where
  heap : ℕ → Option (AtexitTask ρ α)
  pstack : ℕ
  execRegistered : Bool
  /-- `runtime::is_dl()`. -/
  isDl : Bool
  /-- How often `exec` was passed to `std::atexit`. -/
  installed : ℕ
  registered : List (Registration ρ α)
  log : List (ExitEvent ρ α)

/-- A call of `runtime::atexit_impl`; `newTask` is what `new atexit_task` returns, if it does. -/
structure AtexitCall (ρ α : Type*) where
  newTask : Option ℕ
  routine : ρ
  arg : α
  prio : ℤ

variable {ρ α : Type*}

namespace AtexitStack

/-! ### `push` -/

/-- The statics before any registration. -/
def empty (isDl : Bool) : AtexitStack ρ α where
  heap _ := none
  pstack := 0
  execRegistered := false
  isDl := isDl
  installed := 0
  registered := []
  log := []

/-- `p->pnext = q`. -/
def setPnext (s : AtexitStack ρ α) (p q : ℕ) : AtexitStack ρ α :=
  { s with heap := Function.update s.heap p ((s.heap p).map fun t ↦ { t with pnext := q }) }

/-- `new atexit_task(routine, arg, prio)`, at the address `p`. -/
def newTask (s : AtexitStack ρ α) (p : ℕ) (c : AtexitCall ρ α) : AtexitStack ρ α :=
  { s with
    heap := Function.update s.heap p (some ⟨c.routine, c.arg, c.prio, 0, s.registered.length⟩)
    registered := s.registered ++ [⟨s.registered.length, c.routine, c.arg, c.prio⟩] }

/-- The loop of `push`: from `p` on, the last task of higher priority than `prio`. -/
def findSlot (heap : ℕ → Option (AtexitTask ρ α)) (prio : ℤ) : ℕ → ℕ → Option ℕ
  | 0, _ => none
  | fuel + 1, p => (heap p).bind fun t ↦
    if t.pnext = 0 then some p
    else (heap t.pnext).bind fun t' ↦
      if prio ≥ t'.prio then some p else findSlot heap prio fuel t.pnext

/-- `ptask->pnext = pstack; pstack = ptask;` -/
def pushFront (s : AtexitStack ρ α) (ptask : ℕ) : AtexitStack ρ α :=
  { s.setPnext ptask s.pstack with pstack := ptask }

/-- `ptask->pnext = p->pnext; p->pnext = ptask;` -/
def pushBehind (s : AtexitStack ρ α) (ptask p : ℕ) : Option (AtexitStack ρ α) :=
  (s.heap p).map fun t ↦ (s.setPnext ptask t.pnext).setPnext p ptask

/-- `atexit_stack::push`, once `new atexit_task` has returned `ptask`. The list is no longer than
the number of registrations, which bounds the loop. -/
def push (s : AtexitStack ρ α) (ptask : ℕ) (c : AtexitCall ρ α) : Option (AtexitStack ρ α) :=
  let s := s.newTask ptask c
  if s.pstack = 0 then some (s.pushFront ptask)
  else (s.heap s.pstack).bind fun head ↦
    if c.prio ≥ head.prio then some (s.pushFront ptask)
    else if head.pnext ≠ 0 then
      (findSlot s.heap c.prio s.registered.length s.pstack).bind fun p ↦ s.pushBehind ptask p
    else some (s.setPnext s.pstack ptask)

/-- The end of `runtime::atexit_impl`: `exec` goes to `std::atexit`, unless libk2 is a shared
library. `exec_registered` is tested but never set. -/
def installExec (s : AtexitStack ρ α) : AtexitStack ρ α :=
  if s.execRegistered = false ∧ s.isDl = false then { s with installed := s.installed + 1 } else s

/-- `runtime::atexit_impl`. A failed `new` throws before anything has changed; a fresh task is at an
address that is not null and not in use. -/
def atexitImpl (s : AtexitStack ρ α) (c : AtexitCall ρ α) : Option (AtexitStack ρ α) :=
  match c.newTask with
  | none => some s
  | some ptask =>
    if ptask ≠ 0 ∧ (s.heap ptask).isNone then
      (s.push ptask c).map installExec
    else none

/-! ### `exec` -/

/-- The first half of an iteration of `exec`: save `pstack->pnext` and call the routine. -/
def execCall (s : AtexitStack ρ α) : Option (ℕ × AtexitStack ρ α) :=
  (s.heap s.pstack).map fun t ↦
    (t.pnext, { s with log := s.log ++ [.ran t.serial t.routine t.arg] })

/-- The second half, once the routine has returned: delete the task at `pstack` and go on with the
saved one. -/
def execReturn (s : AtexitStack ρ α) (pnext : ℕ) : Option (AtexitStack ρ α) :=
  (s.heap s.pstack).map fun t ↦
    { s with
      heap := Function.update s.heap s.pstack none
      pstack := pnext
      log := s.log ++ [.deleted t.serial] }

/-- `atexit_stack::exec`, for routines that return and register nothing. -/
def exec : ℕ → AtexitStack ρ α → Option (AtexitStack ρ α)
  | 0, _ => none
  | fuel + 1, s =>
    if s.pstack = 0 then some s
    else s.execCall.bind fun r ↦ (r.2.execReturn r.1).bind (exec fuel)

/-- `runtime::fini`. -/
def fini (fuel : ℕ) (s : AtexitStack ρ α) : Option (AtexitStack ρ α) := exec fuel s

end AtexitStack

/-! ### The list in the heap -/

/-- A task of the list, by its address, without its link. -/
structure Entry (ρ α : Type*) extends Registration ρ α where
  addr : ℕ

/-- The task an entry stands for, with a given link. -/
def Entry.task (e : Entry ρ α) (pnext : ℕ) : AtexitTask ρ α :=
  ⟨e.routine, e.arg, e.prio, pnext, e.serial⟩

/-- The links of the heap. -/
def taskLinks (heap : ℕ → Option (AtexitTask ρ α)) (p : ℕ) : Option ℕ :=
  (heap p).map AtexitTask.pnext

/-- The list at `p` holds the entries `l`. -/
structure Tasks (heap : ℕ → Option (AtexitTask ρ α)) (p : ℕ) (l : List (Entry ρ α)) : Prop where
  chain : Chain 0 (taskLinks heap) p (l.map Entry.addr)
  stored : ∀ e ∈ l, ∃ q, heap e.addr = some (e.task q)

/-- The address a list starts at. -/
def headAddr (l : List (Entry ρ α)) : ℕ := (l.map Entry.addr).headD 0

namespace Tasks

variable {heap heap' : ℕ → Option (AtexitTask ρ α)} {p : ℕ} {e : Entry ρ α} {l : List (Entry ρ α)}

theorem nil : Tasks heap 0 ([] : List (Entry ρ α)) := ⟨rfl, fun _ h ↦ absurd h List.not_mem_nil⟩

theorem eq_headAddr (h : Tasks heap p l) : p = headAddr l := by
  cases l with
  | nil => exact h.chain
  | cons e l => exact h.chain.1

theorem eq_nil (h : Tasks heap 0 l) : l = [] := List.map_eq_nil_iff.1 h.chain.eq_nil

/-- The head of a list, and the rest from its link on. -/
theorem cons_iff : Tasks heap p (e :: l) ↔
    p = e.addr ∧ e.addr ≠ 0 ∧ ∃ q, heap e.addr = some (e.task q) ∧ Tasks heap q l := by
  constructor
  · rintro ⟨⟨hp, hne, r, hr, hchain⟩, hstored⟩
    obtain ⟨q, hq⟩ := hstored e List.mem_cons_self
    have hqr : q = r := by
      rw [taskLinks, hq] at hr
      exact Option.some.inj hr
    exact ⟨hp, hne, q, hq, hqr ▸ hchain, fun e' he' ↦ hstored e' (List.mem_cons_of_mem _ he')⟩
  · rintro ⟨hp, hne, q, hq, hchain, hstored⟩
    refine ⟨⟨hp, hne, q, ?_, hchain⟩, List.forall_mem_cons.2 ⟨⟨q, hq⟩, hstored⟩⟩
    rw [taskLinks, hq]
    rfl

theorem exists_cons (h : Tasks heap p l) (hp : p ≠ 0) : ∃ e l', l = e :: l' ∧ p = e.addr := by
  cases l with
  | nil => exact absurd h.chain hp
  | cons e l => exact ⟨e, l, rfl, h.chain.1⟩

/-- **Frame.** A list depends only on the tasks it holds. -/
theorem congr (h : Tasks heap p l) (hheap : ∀ e ∈ l, heap' e.addr = heap e.addr) :
    Tasks heap' p l where
  chain := h.chain.congr fun a ha ↦ by
    obtain ⟨e, he, rfl⟩ := List.mem_map.1 ha
    rw [taskLinks, taskLinks, hheap e he]
  stored e he := by
    rw [hheap e he]
    exact h.stored e he

theorem nodup_addr (h : Tasks heap p l) : (l.map Entry.addr).Nodup := h.chain.nodup

/-- An address not in use is not on the list. -/
theorem addr_ne (h : Tasks heap p l) {a : ℕ} (ha : heap a = none) (he : e ∈ l) : e.addr ≠ a := by
  rintro rfl
  obtain ⟨q, hq⟩ := h.stored e he
  rw [ha] at hq
  cases hq

/-- The list behind a prefix starts where its own first entry is. -/
theorem append_right {l₁ l₂ : List (Entry ρ α)} (h : Tasks heap p (l₁ ++ l₂)) :
    Tasks heap (headAddr l₂) l₂ := by
  have hchain := h.chain
  rw [List.map_append] at hchain
  obtain ⟨r, -, htail⟩ := seg_append.1 hchain
  have htasks : Tasks heap r l₂ := ⟨htail, fun e he ↦ h.stored e (List.mem_append_right _ he)⟩
  exact htasks.eq_headAddr ▸ htasks

end Tasks

/-! ### Insertion by priority -/

/-- Where `push` puts a new entry: in front of the first one of no higher priority. -/
def insertTask (e : Entry ρ α) (l : List (Entry ρ α)) : List (Entry ρ α) :=
  l.orderedInsert (fun x y ↦ y.prio ≤ x.prio) e

theorem insertTask_front {e b : Entry ρ α} {l : List (Entry ρ α)} (h : b.prio ≤ e.prio) :
    insertTask e (b :: l) = e :: b :: l :=
  List.orderedInsert_cons_of_le _ l h

theorem insertTask_cons {e b : Entry ρ α} {l : List (Entry ρ α)} (h : e.prio < b.prio) :
    insertTask e (b :: l) = b :: insertTask e l :=
  List.orderedInsert_of_not_le _ l (not_le.2 h)

theorem perm_insertTask (e : Entry ρ α) (l : List (Entry ρ α)) :
    (insertTask e l).Perm (e :: l) :=
  List.perm_orderedInsert _ e l

/-- Entries of higher priority stay in front. -/
theorem insertTask_append {e : Entry ρ α} {l₁ l₂ : List (Entry ρ α)}
    (h : ∀ x ∈ l₁, e.prio < x.prio) : insertTask e (l₁ ++ l₂) = l₁ ++ insertTask e l₂ := by
  induction l₁ with
  | nil => rfl
  | cons b l₁ ih =>
    rw [List.cons_append, insertTask_cons (h b List.mem_cons_self),
      ih fun x hx ↦ h x (List.mem_cons_of_mem _ hx), List.cons_append]

theorem insertTask_of_head_le {e : Entry ρ α} {l : List (Entry ρ α)}
    (h : ∀ x ∈ l.head?, x.prio ≤ e.prio) : insertTask e l = e :: l := by
  cases l with
  | nil => rfl
  | cons b l => exact insertTask_front (h b rfl)

/-! ### What `push` does to the list -/

namespace AtexitStack

/-- The entry a call would add. -/
def entryOf (s : AtexitStack ρ α) (ptask : ℕ) (c : AtexitCall ρ α) : Entry ρ α :=
  ⟨⟨s.registered.length, c.routine, c.arg, c.prio⟩, ptask⟩

/-- **The loop of `push`** stops at the last entry of higher priority. -/
theorem findSlot_spec {heap : ℕ → Option (AtexitTask ρ α)} {prio : ℤ} (fuel : ℕ) {a : Entry ρ α}
    {l : List (Entry ρ α)} {p : ℕ} (h : Tasks heap p (a :: l)) (ha : prio < a.prio)
    (hfuel : l.length < fuel) :
    ∃ l₁ b l₂, a :: l = l₁ ++ b :: l₂ ∧ findSlot heap prio fuel p = some b.addr ∧
      (∀ x ∈ l₁ ++ [b], prio < x.prio) ∧ ∀ x ∈ l₂.head?, x.prio ≤ prio := by
  induction l generalizing a p fuel with
  | nil =>
    obtain ⟨rfl, -, q, hq, htail⟩ := Tasks.cons_iff.1 h
    obtain rfl : q = 0 := htail.chain
    obtain ⟨fuel, rfl⟩ := Nat.exists_eq_succ_of_ne_zero (Nat.pos_iff_ne_zero.1 hfuel)
    refine ⟨[], a, [], rfl, ?_, by simpa using ha, by simp⟩
    rw [findSlot, hq]
    rfl
  | cons a' l ih =>
    obtain ⟨rfl, -, q, hq, htail⟩ := Tasks.cons_iff.1 h
    obtain ⟨rfl, hne, q', hq', -⟩ := Tasks.cons_iff.1 htail
    obtain ⟨fuel, rfl⟩ := Nat.exists_eq_succ_of_ne_zero (Nat.ne_zero_of_lt hfuel)
    have hstep : findSlot heap prio (fuel + 1) a.addr =
        if prio ≥ a'.prio then some a.addr else findSlot heap prio fuel a'.addr := by
      rw [findSlot, hq, Option.bind_some, if_neg (show (a.task a'.addr).pnext ≠ 0 from hne)]
      show (heap a'.addr).bind _ = _
      rw [hq']
      rfl
    rw [hstep]
    split
    · next hstop => exact ⟨[], a, a' :: l, rfl, rfl, by simpa using ha, by simpa using hstop⟩
    · next hgo =>
      rw [List.length_cons] at hfuel
      obtain ⟨l₁, b, l₂, hsplit, hslot, hhigh, hlow⟩ := ih fuel htail (not_le.1 hgo) (by omega)
      refine ⟨a :: l₁, b, l₂, by rw [hsplit, List.cons_append], hslot, ?_, hlow⟩
      exact List.forall_mem_cons.2 ⟨ha, hhigh⟩

theorem heap_setPnext_self {s : AtexitStack ρ α} {p q : ℕ} {t : AtexitTask ρ α}
    (h : s.heap p = some t) : (s.setPnext p q).heap p = some { t with pnext := q } := by
  simp [setPnext, h]

theorem heap_setPnext_of_ne {s : AtexitStack ρ α} {p q a : ℕ} (h : a ≠ p) :
    (s.setPnext p q).heap a = s.heap a :=
  Function.update_of_ne h _ _

/-- Changing a link puts nothing in the heap. -/
theorem heap_setPnext_none {s : AtexitStack ρ α} {p q a : ℕ} (h : s.heap a = none) :
    (s.setPnext p q).heap a = none := by
  rcases eq_or_ne a p with rfl | hap
  · simp [setPnext, h]
  · exact (heap_setPnext_of_ne hap).trans h

/-- Changing a link leaves every entry stored. -/
theorem stored_setPnext {s : AtexitStack ρ α} {p r : ℕ} {x : Entry ρ α}
    (h : ∃ q, s.heap x.addr = some (x.task q)) :
    ∃ q, (s.setPnext p r).heap x.addr = some (x.task q) := by
  obtain ⟨q, hq⟩ := h
  by_cases hxp : x.addr = p
  · subst hxp
    exact ⟨r, heap_setPnext_self hq⟩
  · exact ⟨q, (heap_setPnext_of_ne hxp).trans hq⟩

/-- Pushing to the front, once the new task is in the heap. -/
theorem tasks_pushFront {s : AtexitStack ρ α} {e : Entry ρ α} {q : ℕ} {l : List (Entry ρ α)}
    (h : Tasks s.heap s.pstack l) (he : s.heap e.addr = some (e.task q)) (h0 : e.addr ≠ 0)
    (hfresh : ∀ x ∈ l, x.addr ≠ e.addr) :
    Tasks (s.pushFront e.addr).heap (s.pushFront e.addr).pstack (e :: l) :=
  Tasks.cons_iff.2 ⟨rfl, h0, s.pstack, heap_setPnext_self he,
    h.congr fun x hx ↦ heap_setPnext_of_ne (hfresh x hx)⟩

/-- Pushing behind an entry of the list, once the new task is in the heap. -/
theorem tasks_pushBehind {s : AtexitStack ρ α} {e b : Entry ρ α} {q : ℕ}
    {l₁ l₂ : List (Entry ρ α)} (h : Tasks s.heap s.pstack (l₁ ++ b :: l₂))
    (he : s.heap e.addr = some (e.task q)) (h0 : e.addr ≠ 0)
    (hfresh : ∀ x ∈ l₁ ++ b :: l₂, x.addr ≠ e.addr) :
    ∃ r, s.pushBehind e.addr b.addr = some ((s.setPnext e.addr r).setPnext b.addr e.addr) ∧
      Tasks ((s.setPnext e.addr r).setPnext b.addr e.addr).heap s.pstack
        (l₁ ++ b :: e :: l₂) := by
  obtain ⟨r, hr⟩ := h.stored b (by simp)
  have hbe : b.addr ≠ e.addr := hfresh b (by simp)
  have hb' : ((s.setPnext e.addr r).setPnext b.addr e.addr).heap b.addr = some (b.task e.addr) :=
    heap_setPnext_self ((heap_setPnext_of_ne hbe).trans hr)
  have he' : ((s.setPnext e.addr r).setPnext b.addr e.addr).heap e.addr = some (e.task r) :=
    (heap_setPnext_of_ne hbe.symm).trans (heap_setPnext_self he)
  have hother : ∀ a, a ≠ b.addr → a ≠ e.addr →
      ((s.setPnext e.addr r).setPnext b.addr e.addr).heap a = s.heap a :=
    fun a hab hae ↦ (heap_setPnext_of_ne hab).trans (heap_setPnext_of_ne hae)
  refine ⟨r, by rw [pushBehind, hr]; rfl, ?_, fun x hx ↦ ?_⟩
  · have hchain := h.chain
    have hnodup := h.nodup_addr
    rw [List.map_append, List.map_cons] at hchain hnodup
    rw [List.map_append, List.map_cons, List.map_cons]
    refine Seg.splice hchain hnodup ?_ h0 (r := r) ?_ ?_ ?_ fun a hab hae ↦ ?_
    · rw [← List.map_cons, ← List.map_append]
      rintro hmem
      obtain ⟨x, hx, hxe⟩ := List.mem_map.1 hmem
      exact hfresh x hx hxe
    · rw [taskLinks, hr]; rfl
    · rw [taskLinks, he']; rfl
    · rw [taskLinks, hb']; rfl
    · rw [taskLinks, taskLinks, hother a hab hae]
  · refine stored_setPnext (stored_setPnext ?_)
    rw [List.append_cons, List.mem_append, List.mem_cons, ← or_assoc, or_right_comm,
      ← List.mem_append, ← List.append_cons] at hx
    rcases hx with hx | rfl
    · exact h.stored x hx
    · exact ⟨q, he⟩

/-- A fresh task in the heap, and the list as it was. -/
theorem tasks_newTask {s : AtexitStack ρ α} {ptask : ℕ} {c : AtexitCall ρ α} {l : List (Entry ρ α)}
    (h : Tasks s.heap s.pstack l) (hfresh : s.heap ptask = none) :
    Tasks (s.newTask ptask c).heap (s.newTask ptask c).pstack l ∧
      (s.newTask ptask c).heap ptask = some ((s.entryOf ptask c).task 0) ∧
      ∀ x ∈ l, x.addr ≠ ptask := by
  have hne : ∀ x ∈ l, x.addr ≠ ptask := fun x hx ↦ h.addr_ne hfresh hx
  exact ⟨h.congr fun x hx ↦ Function.update_of_ne (hne x hx) _ _, Function.update_self _ _ _, hne⟩

/-- **`push` inserts by priority**, whichever branch it takes, and changes nothing but the list. -/
theorem tasks_push {s : AtexitStack ρ α} {ptask : ℕ} {c : AtexitCall ρ α} {l : List (Entry ρ α)}
    (h : Tasks s.heap s.pstack l) (hfresh : s.heap ptask = none) (h0 : ptask ≠ 0)
    (hlen : l.length ≤ s.registered.length) :
    ∃ heap pstack,
      s.push ptask c = some { s.newTask ptask c with heap := heap, pstack := pstack } ∧
      Tasks heap pstack (insertTask (s.entryOf ptask c) l) := by
  obtain ⟨hnew, hptask, hne⟩ := tasks_newTask (c := c) h hfresh
  rw [push]
  generalize hs' : s.newTask ptask c = s' at hnew hptask
  have hreg : s'.registered.length = s.registered.length + 1 := by
    rw [← hs', newTask, List.length_append]
    rfl
  cases l with
  | nil =>
    have hp : s'.pstack = 0 := hnew.chain
    exact ⟨_, _, if_pos hp, tasks_pushFront (e := s.entryOf ptask c) hnew hptask h0 hne⟩
  | cons a l =>
    obtain ⟨hp, ha0, r, hr, htail⟩ := Tasks.cons_iff.1 hnew
    have hp0 : s'.pstack ≠ 0 := hp ▸ ha0
    rw [if_neg hp0, hp, hr, Option.bind_some]
    by_cases hprio : c.prio ≥ a.prio
    · refine ⟨_, _, if_pos hprio, ?_⟩
      rw [insertTask_front (e := s.entryOf ptask c) hprio]
      exact tasks_pushFront (e := s.entryOf ptask c) hnew hptask h0 hne
    · have hlt : c.prio < a.prio := not_le.1 hprio
      rw [if_neg (show ¬ c.prio ≥ (a.task r).prio from hprio)]
      by_cases hr0 : (a.task r).pnext ≠ 0
      · -- at least two tasks: the loop finds the slot
        rw [if_pos hr0, ← hp]
        rw [List.length_cons] at hlen
        obtain ⟨l₁, b, l₂, hsplit, hslot, hhigh, hlow⟩ :=
          findSlot_spec s'.registered.length hnew hlt (by omega)
        rw [hsplit] at hnew hne ⊢
        obtain ⟨q, hbehind, htasks⟩ :=
          tasks_pushBehind (e := s.entryOf ptask c) hnew hptask h0 hne
        rw [hslot, Option.bind_some]
        refine ⟨_, _, hbehind, ?_⟩
        rw [List.append_cons l₁ b l₂, insertTask_append hhigh, insertTask_of_head_le hlow,
          ← List.append_cons]
        exact htasks
      · -- one task: its link is null, as the new task's is already
        rw [if_neg hr0]
        obtain rfl : r = 0 := not_not.1 hr0
        obtain rfl := htail.eq_nil
        refine ⟨_, _, rfl, ?_⟩
        rw [insertTask_cons (e := s.entryOf ptask c) hlt, show insertTask (s.entryOf ptask c) [] =
          [s.entryOf ptask c] from rfl]
        have hae : (s.entryOf ptask c).addr ≠ a.addr := (hne a List.mem_cons_self).symm
        refine Tasks.cons_iff.2 ⟨hp, ha0, ptask, heap_setPnext_self hr, Tasks.cons_iff.2
          ⟨rfl, h0, 0, (heap_setPnext_of_ne hae).trans hptask, Tasks.nil⟩⟩

theorem installExec_eq (s : AtexitStack ρ α) :
    s.installExec = { s with installed := s.installExec.installed } := by
  unfold installExec
  split <;> rfl

theorem atexitImpl_of_fresh {s : AtexitStack ρ α} {c : AtexitCall ρ α} {ptask : ℕ}
    (hc : c.newTask = some ptask) (h0 : ptask ≠ 0) (hfresh : s.heap ptask = none) :
    s.atexitImpl c = (s.push ptask c).map installExec := by
  simp [atexitImpl, hc, h0, hfresh]

/-- **A registration** with a fresh task inserts by priority, and always succeeds. -/
theorem tasks_atexitImpl {s : AtexitStack ρ α} {ptask : ℕ} {c : AtexitCall ρ α}
    {l : List (Entry ρ α)} (h : Tasks s.heap s.pstack l) (hc : c.newTask = some ptask)
    (hfresh : s.heap ptask = none) (h0 : ptask ≠ 0) (hlen : l.length ≤ s.registered.length) :
    ∃ t, s.atexitImpl c = some t ∧ t.log = s.log ∧
      t.registered = s.registered ++ [(s.entryOf ptask c).toRegistration] ∧
      Tasks t.heap t.pstack (insertTask (s.entryOf ptask c) l) := by
  obtain ⟨heap, pstack, hpush, htasks⟩ := tasks_push (c := c) h hfresh h0 hlen
  refine ⟨_, by rw [atexitImpl_of_fresh hc h0 hfresh, hpush, Option.map_some], ?_⟩
  rw [installExec_eq]
  exact ⟨rfl, rfl, htasks⟩

/-- `push` puts nothing in the heap but the new task. -/
theorem heap_push_none {s t : AtexitStack ρ α} {ptask a : ℕ} {c : AtexitCall ρ α}
    (h : s.push ptask c = some t) (ha : s.heap a = none) (hne : a ≠ ptask) : t.heap a = none := by
  have hnew : (s.newTask ptask c).heap a = none := (Function.update_of_ne hne _ _).trans ha
  rw [push] at h
  generalize s.newTask ptask c = s' at h hnew
  have hfront : (s'.pushFront ptask).heap a = none := heap_setPnext_none hnew
  split at h
  · exact Option.some.inj h ▸ hfront
  · obtain ⟨head, -, h⟩ := Option.bind_eq_some_iff.1 h
    split at h
    · exact Option.some.inj h ▸ hfront
    · split at h
      · obtain ⟨p, -, h⟩ := Option.bind_eq_some_iff.1 h
        obtain ⟨r, -, rfl⟩ := Option.map_eq_some_iff.1 h
        exact heap_setPnext_none (heap_setPnext_none hnew)
      · exact Option.some.inj h ▸ heap_setPnext_none hnew

/-- A registration uses no address but that of its task. -/
theorem heap_atexitImpl_none {s t : AtexitStack ρ α} {c : AtexitCall ρ α} {a : ℕ}
    (h : s.atexitImpl c = some t) (ha : s.heap a = none) (hne : c.newTask ≠ some a) :
    t.heap a = none := by
  cases hc : c.newTask with
  | none =>
    rw [atexitImpl, hc] at h
    exact Option.some.inj h ▸ ha
  | some ptask =>
    simp only [atexitImpl, hc] at h
    obtain ⟨-, h⟩ := Option.ite_none_right_eq_some.1 h
    obtain ⟨r, hpush, rfl⟩ := Option.map_eq_some_iff.1 h
    have hr : r.heap a = none := heap_push_none hpush ha fun heq ↦ hne (heq ▸ hc)
    rw [installExec_eq]
    exact hr

/-- A registration that went through had a fresh task, if it had one. -/
theorem fresh_of_atexitImpl {s t : AtexitStack ρ α} {c : AtexitCall ρ α} {ptask : ℕ}
    (h : s.atexitImpl c = some t) (hc : c.newTask = some ptask) :
    ptask ≠ 0 ∧ s.heap ptask = none := by
  simp only [atexitImpl, hc] at h
  obtain ⟨⟨h0, hnone⟩, -⟩ := Option.ite_none_right_eq_some.1 h
  exact ⟨h0, Option.isNone_iff_eq_none.1 hnone⟩

end AtexitStack

end Libk2
