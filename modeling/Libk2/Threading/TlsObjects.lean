import Libk2.Foundation.Ownership
import Libk2.Threading.TlsThreads

/-!
# The objects of thread-specific pointers

Whose the objects are that threads put into their `tls_ptr`s. Each object that is alive is held by
the program or owned by one slot of one thread (`OwnedOnce`), whatever the threads do, as long as no
`reset` fails that has destroyed an object; and that is the exact condition (`objects_divided_iff`).
If one does, the address that is left in the slot may by then be that of another thread's object.

While a thread is in `reset`, what it is about to store counts as its own, and what is in the slot
does not (`view`).
-/

namespace Libk2

open StepSystem Ownership

namespace TlsSys

variable {τ : Type*} {s s' : TlsSys τ} {l : TlsLabel τ} {t : τ} {i k p keysMax : ℕ}

/-! ### What a slot owns -/

/-- A pointer as a resource: null is none. -/
def pointee (p : ℕ) : Multiset ℕ := if p = 0 then 0 else {p}

/-- What the first `n` slots hold. -/
def stored (n : ℕ) (f : ℕ → ℕ) : Multiset ℕ := ((Multiset.range n).map f).filter (· ≠ 0)

@[simp] theorem pointee_zero : pointee 0 = 0 := rfl

theorem pointee_of_ne (hp : p ≠ 0) : pointee p = {p} := if_neg hp

theorem filter_singleton_ne_zero (p : ℕ) : Multiset.filter (· ≠ 0) {p} = pointee p := by
  rcases eq_or_ne p 0 with rfl | hp
  · rfl
  · rw [Multiset.filter_singleton, if_pos hp, pointee_of_ne hp]

/-- One slot changes. -/
theorem stored_update {n : ℕ} (hk : k < n) (f : ℕ → ℕ) (p : ℕ) :
    stored n (Function.update f k p) + pointee (f k) = stored n f + pointee p := by
  obtain ⟨rest, hrest⟩ := Multiset.exists_cons_of_mem (Multiset.mem_range.2 hk)
  have hnot : k ∉ rest := (Multiset.nodup_cons.1 (hrest ▸ Multiset.nodup_range n)).1
  have hsame : rest.map (Function.update f k p) = rest.map f :=
    Multiset.map_congr rfl fun j hj ↦ Function.update_of_ne (ne_of_mem_of_not_mem hj hnot) _ _
  rw [stored, stored, hrest, Multiset.map_cons, Multiset.map_cons, hsame, Function.update_self,
    ← Multiset.singleton_add, ← Multiset.singleton_add, Multiset.filter_add, Multiset.filter_add,
    filter_singleton_ne_zero, filter_singleton_ne_zero]
  abel

/-- A new key is null. -/
theorem stored_succ (n : ℕ) (f : ℕ → ℕ) :
    stored (n + 1) (Function.update f n 0) = stored n f := by
  have hsame : (Multiset.range n).map (Function.update f n 0) = (Multiset.range n).map f :=
    Multiset.map_congr rfl fun j hj ↦ Function.update_of_ne (Multiset.mem_range.1 hj).ne _ _
  rw [stored, Multiset.range_succ, Multiset.map_cons, Function.update_self, hsame]
  exact Multiset.filter_cons_of_neg _ fun h ↦ h rfl

theorem mem_stored {n : ℕ} {f : ℕ → ℕ} : p ∈ stored n f ↔ p ≠ 0 ∧ ∃ k < n, f k = p := by
  rw [stored, Multiset.mem_filter, Multiset.mem_map, and_comm]
  simp only [Multiset.mem_range]

variable (s) in
/-- What the slots of a thread have once its call of `reset` is over. -/
def view (t : τ) : ℕ → ℕ :=
  match s.storing t with
  | none => s.slot t
  | some (k, p) => Function.update (s.slot t) k p

variable (s) in
/-- What a thread's slots own. -/
def own (t : τ) : Multiset ℕ := stored s.keys (s.view t)

theorem view_of_idle (h : s.storing t = none) : s.view t = s.slot t := by
  rw [view, h]

theorem view_of_storing (h : s.storing t = some (k, p)) :
    s.view t = Function.update (s.slot t) k p := by
  rw [view, h]

/-- The view of a thread that does nothing. -/
theorem view_congr (hslot : s'.slot t = s.slot t) (hstoring : s'.storing t = s.storing t) :
    s'.view t = s.view t := by
  rw [view, view, hslot, hstoring]

/-- A key that nobody has used holds nothing. -/
theorem own_construct (h : s.KeysOk) (i : ℕ) : (s.construct i true).own = s.own := by
  funext t
  have hview : (s.construct i true).view t = Function.update (s.view t) s.keys 0 := by
    rcases hstoring : s.storing t with _ | ⟨k, p⟩
    · rw [view_of_idle hstoring]
      exact view_of_idle hstoring
    · rw [view_of_storing hstoring, Function.update_comm (h.storing_lt t k p hstoring).ne]
      exact view_of_storing hstoring
  show stored (s.keys + 1) ((s.construct i true).view t) = _
  rw [hview, stored_succ, own]

/-- What a thread stores is what it owns already. -/
theorem own_store [DecidableEq τ] (h : s.storing t = some (k, p)) :
    (s.store t k p true).own = s.own := by
  funext u
  refine congrArg (stored s.keys) ?_
  rcases eq_or_ne u t with rfl | hut
  · rw [view_of_storing h]
    exact (view_of_idle (Function.update_self _ _ _)).trans (Function.update_self _ _ _)
  · have hstoring : (s.store t k p true).storing u = s.storing u := Function.update_of_ne hut _ _
    have hslot : (s.store t k p true).slot u = s.slot u := Function.update_of_ne hut _ _
    rw [view, view, hstoring, hslot]

/-- A thread that has exited, and whose slots are empty, owns nothing. -/
theorem KeysOk.own_eq_zero (h : s.KeysOk) (ht : s.ended t = true) (hslot : ∀ k, s.slot t k = 0) :
    s.own t = 0 := by
  refine Multiset.eq_zero_of_forall_notMem fun p hp ↦ ?_
  obtain ⟨hne, k, -, hk⟩ := mem_stored.1 hp
  rw [view_of_idle (h.ended t ht)] at hk
  exact hne (hk.symm.trans (hslot k))

variable [Fintype τ]

/-! ### Whose the objects are -/

/-- The objects that are alive are those held by the program and those owned by the slots, each
counted once. -/
def Accounted (s : TlsSys τ) : Prop :=
  ∃ all : Multiset ℕ, Divided ↑s.held s.own all ∧ all.Nodup ∧ ∀ p, p ∈ all ↔ s.heap.Live p

/-- What is gone is no longer alive. -/
theorem Accounted.of_gone {all all' gone : Multiset ℕ} (hnodup : all.Nodup)
    (hlive : ∀ p, p ∈ all ↔ s.heap.Live p) (hdivided : Divided ↑s'.held s'.own all')
    (hall : all' + gone = all) (hgone : ∀ p, s'.heap.Live p ↔ s.heap.Live p ∧ p ∉ gone) :
    s'.Accounted := by
  have hparts := Multiset.nodup_add.1 (hall ▸ hnodup)
  refine ⟨all', hdivided, hparts.1, fun p ↦ ?_⟩
  rw [hgone, ← hlive, ← hall, Multiset.mem_add]
  constructor
  · exact fun hp ↦ ⟨.inl hp, Multiset.disjoint_left.1 hparts.2.2 hp⟩
  · exact fun hp ↦ hp.1.resolve_right hp.2

/-- Nothing changes hands. -/
theorem Accounted.congr (h : s.Accounted) (hheld : s'.held = s.held) (hown : s'.own = s.own)
    (hheap : s'.heap = s.heap) : s'.Accounted := by
  obtain ⟨all, hdivided, hnodup, hlive⟩ := h
  exact ⟨all, by rw [hheld, hown]; exact hdivided, hnodup, fun p ↦ by rw [hheap]; exact hlive p⟩

theorem Accounted.make (h : s.Accounted) (hheap : s.heap.Ok) (hp : ¬ s.heap.Live p) :
    Accounted { s with heap := s.heap.make p, held := p :: s.held } := by
  obtain ⟨all, hdivided, hnodup, hlive⟩ := h
  refine ⟨p ::ₘ all, ?_, Multiset.nodup_cons.2 ⟨fun hmem ↦ hp ((hlive p).1 hmem), hnodup⟩,
    fun q ↦ ?_⟩
  · show ((p :: s.held : List ℕ) : Multiset ℕ) + ∑ t, s.own t = p ::ₘ all
    rw [← Multiset.cons_coe, Multiset.cons_add, hdivided]
  · rw [Multiset.mem_cons, hlive]
    exact hheap.live_make_iff.symm

theorem Accounted.delete (h : s.Accounted) (hp : p ∈ s.held) :
    Accounted { s with heap := s.heap.destroy p, held := s.held.erase p } := by
  obtain ⟨all, hdivided, hnodup, hlive⟩ := h
  have hheld : ((s.held.erase p : List ℕ) : Multiset ℕ) + {p} = s.held := by
    rw [add_comm, Multiset.singleton_add, ← Multiset.coe_erase]
    exact Multiset.cons_erase hp
  have hall : ((s.held.erase p : List ℕ) : Multiset ℕ) + ∑ t, s.own t + {p} = all := by
    rw [add_right_comm, hheld, hdivided]
  refine .of_gone hnodup hlive rfl hall fun q ↦ ?_
  rw [Multiset.mem_singleton]
  exact ObjectHeap.live_destroy_iff

/-- The invariant: keys and objects. Null is no object. -/
structure Inv (s : TlsSys τ) : Prop where
  keysOk : s.KeysOk
  heap : s.heap.Ok
  null : ¬ s.heap.Live 0
  accounted : s.Accounted

theorem inv_start : (start : TlsSys τ).Inv := by
  have hown : ∀ t, (start : TlsSys τ).own t = 0 := fun _ ↦ rfl
  refine ⟨keysOk_start, ObjectHeap.ok_empty, fun h ↦ absurd h.1 (lt_irrefl 0), 0, ?_,
    Multiset.nodup_zero, fun p ↦ ?_⟩
  · show (0 : Multiset ℕ) + ∑ t, (start : TlsSys τ).own t = 0
    simp only [hown, Finset.sum_const_zero, add_zero]
  · exact iff_of_false (Multiset.notMem_zero p) fun h ↦ absurd h.1 (lt_irrefl 0)

namespace Inv

/-- What is held or owned is alive. -/
theorem live_of_held (h : s.Inv) (hp : p ∈ s.held) : s.heap.Live p := by
  obtain ⟨all, hdivided, -, hlive⟩ := h.accounted
  exact (hlive p).1 (hdivided.mem_iff.2 (.inl hp))

theorem live_of_own (h : s.Inv) (hp : p ∈ s.own t) : s.heap.Live p := by
  obtain ⟨all, hdivided, -, hlive⟩ := h.accounted
  exact (hlive p).1 (hdivided.mem_iff.2 (.inr ⟨t, hp⟩))

/-- What is in a slot is alive, unless the thread is in `reset`. -/
theorem live_of_slot (h : s.Inv) (ht : s.storing t = none) (hp : s.slot t k ≠ 0) :
    s.heap.Live (s.slot t k) := by
  refine h.live_of_own (t := t) (mem_stored.2 ⟨hp, k, ?_, congrFun (view_of_idle ht) k⟩)
  exact lt_of_not_ge fun hle ↦ hp (h.keysOk.unused t k hle)

theorem ne_zero_of_held (h : s.Inv) (hp : p ∈ s.held) : p ≠ 0 := by
  rintro rfl
  exact h.null (h.live_of_held hp)

theorem not_held_of_own (h : s.Inv) (hp : p ∈ s.own t) : p ∉ s.held := by
  obtain ⟨all, hdivided, hnodup, -⟩ := h.accounted
  exact fun hheld ↦ hdivided.not_mem_common hnodup hp hheld

end Inv

/-- A pointer that the program gives away, if it is not null. -/
theorem Inv.erase_held (h : s.Inv) (hp : p = 0 ∨ p ∈ s.held) :
    ((s.held.erase p : List ℕ) : Multiset ℕ) + pointee p = s.held := by
  rcases hp with rfl | hp
  · rw [List.erase_of_not_mem fun hmem ↦ h.ne_zero_of_held hmem rfl, pointee_zero, add_zero]
  · rw [pointee_of_ne (h.ne_zero_of_held hp), add_comm, Multiset.singleton_add,
      ← Multiset.coe_erase]
    exact Multiset.cons_erase hp

/-- The program does not hold what is in a slot. -/
theorem Inv.slot_not_held (h : s.Inv) (ht : s.storing t = none) : s.slot t k ∉ s.held := by
  intro hmem
  have hne := h.ne_zero_of_held hmem
  have hk : k < s.keys := lt_of_not_ge fun hle ↦ hne (h.keysOk.unused t k hle)
  have hown : s.slot t k ∈ s.own t :=
    mem_stored.2 ⟨hne, k, hk, congrFun (view_of_idle ht) k⟩
  exact h.not_held_of_own hown hmem

/-- **Each object has one owner**, the program or a slot of a thread, and is destroyed once. -/
structure OwnedOnce (s : TlsSys τ) : Prop where
  once : s.heap.destroyed.Nodup
  live_iff : ∀ p, s.heap.Live p ↔ p ∈ s.held ∨ ∃ t, p ∈ s.own t
  nodup : ∀ t, (s.own t).Nodup
  apart : ∀ t, ∀ p ∈ s.own t, p ∉ s.held ∧ ∀ u, p ∈ s.own u → u = t

theorem Inv.ownedOnce (h : s.Inv) : s.OwnedOnce := by
  obtain ⟨all, hdivided, hnodup, hlive⟩ := h.accounted
  refine ⟨h.heap.nodup, fun p ↦ (hlive p).symm.trans hdivided.mem_iff,
    fun t ↦ Multiset.nodup_of_le (hdivided.own_le t) hnodup, fun t p hp ↦ ⟨?_, fun u hu ↦ ?_⟩⟩
  · exact hdivided.not_mem_common hnodup hp
  · exact hdivided.unique hnodup hu hp

/-- A `reset` that could not store its pointer has had no object to destroy. -/
def StoresNext (s : TlsSys τ) (l : TlsLabel τ) : Prop :=
  ∀ t i p k, l = .store t i p false → s.storing t = some (k, p) → s.slot t k = 0 ∨ s.slot t k = p

/-! ### One step -/

variable [DecidableEq τ]

/-- **A thread's pointer changes**, and with it what the program holds and what is alive. -/
theorem Accounted.put (h : s.Accounted) (hk : k < s.keys) (t : τ) {q : ℕ} (gone : Multiset ℕ)
    (hkeys : s'.keys = s.keys) (hview : s'.view t = Function.update (s.view t) k q)
    (hothers : ∀ u ≠ t, s'.view u = s.view u)
    (hmove : (s'.held : Multiset ℕ) + pointee q + gone = s.held + pointee (s.view t k))
    (hgone : ∀ p, s'.heap.Live p ↔ s.heap.Live p ∧ p ∉ gone) : s'.Accounted := by
  obtain ⟨all, hdivided, hnodup, hlive⟩ := h
  have hown : s'.own =
      Function.update s.own t (stored s.keys (Function.update (s.view t) k q)) := by
    funext u
    rw [own, hkeys]
    rcases eq_or_ne u t with rfl | hut
    · rw [Function.update_self, hview]
    · rw [Function.update_of_ne hut, hothers u hut, own]
  have hshare : (s'.held : Multiset ℕ) + stored s.keys (Function.update (s.view t) k q) + gone =
      s.held + s.own t := by
    refine add_right_cancel (b := pointee (s.view t k)) ?_
    calc (s'.held : Multiset ℕ) + stored s.keys (Function.update (s.view t) k q) + gone +
          pointee (s.view t k)
        = s'.held + gone + (stored s.keys (Function.update (s.view t) k q) +
            pointee (s.view t k)) := by abel
      _ = s'.held + pointee q + gone + stored s.keys (s.view t) := by
          rw [stored_update hk]
          abel
      _ = s.held + s.own t + pointee (s.view t k) := by
          rw [hmove, own]
          abel
  obtain ⟨all', hdivided', hall⟩ := hdivided.surrender hshare
  exact .of_gone hnodup hlive (hown ▸ hdivided') hall hgone

/-- `release` gives the program what was in the slot. -/
theorem Accounted.release (h : s.Accounted) (hk : k < s.keys) (ht : s.storing t = none) :
    (s.release t k).Accounted := by
  have hview : (s.release t k).view t = Function.update (s.view t) k 0 := by
    rw [view_of_idle ht]
    exact (view_of_idle (s := s.release t k) ht).trans (Function.update_self _ _ _)
  have hothers : ∀ u ≠ t, (s.release t k).view u = s.view u := fun u hut ↦
    view_congr (Function.update_of_ne hut _ _) rfl
  refine h.put hk t 0 rfl hview hothers ?_ fun p ↦ (and_iff_left (Multiset.notMem_zero p)).symm
  rw [view_of_idle ht, pointee_zero, add_zero, add_zero]
  show ((if s.slot t k = 0 then s.held else s.slot t k :: s.held : List ℕ) : Multiset ℕ) = _
  by_cases h0 : s.slot t k = 0
  · rw [if_pos h0, h0, pointee_zero, add_zero]
  · rw [if_neg h0, pointee_of_ne h0, ← Multiset.cons_coe, ← Multiset.singleton_add, add_comm]

/-- `reset` destroys what was in the slot, and takes the new object from the program. -/
theorem Inv.accounted_reset (h : s.Inv) (hk : k < s.keys) (ht : s.storing t = none)
    (hp : p = 0 ∨ p = s.slot t k ∨ p ∈ s.held) : (s.reset t k p).Accounted := by
  have hview : (s.reset t k p).view t = Function.update (s.view t) k p := by
    rw [view_of_idle ht]
    exact view_of_storing (s := s.reset t k p) (Function.update_self _ _ _)
  have hothers : ∀ u ≠ t, (s.reset t k p).view u = s.view u := fun u hut ↦
    view_congr rfl (Function.update_of_ne hut _ _)
  by_cases hold : s.slot t k ≠ 0 ∧ s.slot t k ≠ p
  · -- the old object goes, and the new one is null or held
    have hheld : p = 0 ∨ p ∈ s.held := hp.imp_right fun hp ↦ hp.resolve_left hold.2.symm
    refine h.accounted.put hk t {s.slot t k} rfl hview hothers ?_ fun q ↦ ?_
    · rw [view_of_idle ht, pointee_of_ne hold.1]
      exact congrArg (· + {s.slot t k}) (h.erase_held hheld)
    · show (if s.slot t k ≠ 0 ∧ s.slot t k ≠ p then (s.cleanup (s.slot t k)).heap
        else s.heap).Live q ↔ _
      rw [if_pos hold, Multiset.mem_singleton]
      exact ObjectHeap.live_destroy_iff
  · refine h.accounted.put hk t 0 rfl hview hothers ?_ fun q ↦ ?_
    · rw [view_of_idle ht, add_zero]
      show ((s.held.erase p : List ℕ) : Multiset ℕ) + pointee p = _
      rcases eq_or_ne p (s.slot t k) with rfl | hne
      · rw [List.erase_of_not_mem (h.slot_not_held ht)]
      · have h0 : s.slot t k = 0 := by_contra fun h0 ↦ hold ⟨h0, hne.symm⟩
        rw [h0, pointee_zero, add_zero]
        exact h.erase_held (hp.imp_right fun hp ↦ hp.resolve_left hne)
    · show (if s.slot t k ≠ 0 ∧ s.slot t k ≠ p then (s.cleanup (s.slot t k)).heap
        else s.heap).Live q ↔ _
      rw [if_neg hold]
      exact (and_iff_left (Multiset.notMem_zero q)).symm

/-- A `reset` that fails gives the pointer back, if nothing has been destroyed. -/
theorem Accounted.store_fail (h : s.Accounted) (hk : k < s.keys) (ht : s.storing t = some (k, p))
    (hslot : s.slot t k = 0 ∨ s.slot t k = p) : (s.store t k p false).Accounted := by
  have hview : (s.store t k p false).view t = Function.update (s.view t) k (s.slot t k) := by
    rw [view_of_storing ht, Function.update_idem, Function.update_eq_self]
    exact view_of_idle (s := s.store t k p false) (Function.update_self _ _ _)
  have hothers : ∀ u ≠ t, (s.store t k p false).view u = s.view u := fun u hut ↦
    view_congr rfl (Function.update_of_ne hut _ _)
  refine h.put hk t 0 rfl hview hothers ?_ fun q ↦ (and_iff_left (Multiset.notMem_zero q)).symm
  rw [view_of_storing ht, Function.update_self, add_zero]
  show ((if false = true ∨ p = 0 ∨ p = s.slot t k then s.held else p :: s.held : List ℕ) :
    Multiset ℕ) + pointee (s.slot t k) = _
  by_cases hp : p = 0 ∨ p = s.slot t k
  · rw [if_pos (.inr hp)]
    rcases hp with rfl | rfl
    · rw [or_self_iff.1 hslot]
    · rfl
  · have h0 : s.slot t k = 0 := hslot.resolve_right fun heq ↦ hp (.inr heq.symm)
    rw [if_neg (fun h ↦ hp (h.resolve_left Bool.false_ne_true)), h0, pointee_zero, add_zero,
      pointee_of_ne fun hp0 ↦ hp (.inl hp0), ← Multiset.cons_coe, ← Multiset.singleton_add,
      add_comm]

/-- The destroy routine gets what is in a slot of a thread that has exited. -/
theorem Accounted.cleanup (h : s.Accounted) (hk : k < s.keys) (ht : s.storing t = none)
    (hp : s.slot t k ≠ 0) : ((s.setspecific t k 0).cleanup (s.slot t k)).Accounted := by
  have hview : ((s.setspecific t k 0).cleanup (s.slot t k)).view t =
      Function.update (s.view t) k 0 := by
    rw [view_of_idle ht]
    exact (view_of_idle (s := (s.setspecific t k 0).cleanup (s.slot t k)) ht).trans
      (Function.update_self _ _ _)
  have hothers : ∀ u ≠ t, ((s.setspecific t k 0).cleanup (s.slot t k)).view u = s.view u :=
    fun u hut ↦ view_congr (Function.update_of_ne hut _ _) rfl
  refine h.put hk t {s.slot t k} rfl hview hothers ?_ fun q ↦ ?_
  · rw [view_of_idle ht, pointee_of_ne hp, pointee_zero, add_zero]
    rfl
  · rw [Multiset.mem_singleton]
    exact ObjectHeap.live_destroy_iff

/-- **Every step** keeps keys and objects in order, unless a `reset` fails that has destroyed an
object. -/
theorem Inv.step (h : s.Inv) (hl : s.StoresNext l) (hstep : s.step keysMax l = some s') :
    s'.Inv := by
  have hkeys := h.keysOk.step hstep
  have hdestroy : ∀ {p}, s.heap.Live p → (s.heap.destroy p).Ok ∧ ¬ (s.heap.destroy p).Live 0 :=
    fun hp ↦ ⟨h.heap.destroy hp, fun h0 ↦ h.null (ObjectHeap.live_destroy_iff.1 h0).1⟩
  cases l with
  | construct i made =>
    obtain ⟨-, ⟨⟩⟩ := Option.ite_none_right_eq_some.1 hstep
    cases made with
    | false => exact h
    | true => exact ⟨hkeys, h.heap, h.null, h.accounted.congr rfl (own_construct h.keysOk i) rfl⟩
  | destroy i =>
    obtain ⟨k, -, hfree⟩ := Option.bind_eq_some_iff.1 hstep
    obtain ⟨-, ⟨⟩⟩ := Option.ite_none_right_eq_some.1 hfree
    exact ⟨hkeys, h.heap, h.null, h.accounted.congr rfl rfl rfl⟩
  | make p =>
    obtain ⟨⟨hp, hfree⟩, ⟨⟩⟩ := Option.ite_none_right_eq_some.1 hstep
    refine ⟨hkeys, h.heap.make, fun h0 ↦ ?_, h.accounted.make h.heap hfree⟩
    rcases h.heap.live_make_iff.1 h0 with h0 | h0
    · exact hp h0.symm
    · exact h.null h0
  | delete p =>
    obtain ⟨hp, ⟨⟩⟩ := Option.ite_none_right_eq_some.1 hstep
    obtain ⟨hok, hnull⟩ := hdestroy (h.live_of_held hp)
    exact ⟨hkeys, hok, hnull, h.accounted.delete hp⟩
  | get t i r =>
    obtain ⟨k, -, hr⟩ := Option.bind_eq_some_iff.1 hstep
    obtain ⟨-, ⟨⟩⟩ := Option.ite_none_right_eq_some.1 hr
    exact h
  | release t i r =>
    cases r with
    | none =>
      obtain ⟨k, -, ⟨⟩⟩ := Option.map_eq_some_iff.1 hstep
      exact h
    | some r =>
      obtain ⟨k, hk, hr⟩ := Option.bind_eq_some_iff.1 hstep
      obtain ⟨-, ⟨⟩⟩ := Option.ite_none_right_eq_some.1 hr
      obtain ⟨⟨-, hidle⟩, hi⟩ := key_eq_some.1 hk
      exact ⟨hkeys, h.heap, h.null, h.accounted.release (h.keysOk.lt i k hi) hidle⟩
  | reset t i p =>
    obtain ⟨k, hk, hr⟩ := Option.bind_eq_some_iff.1 hstep
    obtain ⟨hp, ⟨⟩⟩ := Option.ite_none_right_eq_some.1 hr
    obtain ⟨⟨-, hidle⟩, hi⟩ := key_eq_some.1 hk
    have hacc := h.accounted_reset (h.keysOk.lt i k hi) hidle hp
    by_cases hold : s.slot t k ≠ 0 ∧ s.slot t k ≠ p
    · obtain ⟨hok, hnull⟩ := hdestroy (h.live_of_slot hidle hold.1)
      have hheap : (s.reset t k p).heap = s.heap.destroy (s.slot t k) := if_pos hold
      exact ⟨hkeys, hheap ▸ hok, hheap ▸ hnull, hacc⟩
    · have hheap : (s.reset t k p).heap = s.heap := if_neg hold
      exact ⟨hkeys, hheap ▸ h.heap, hheap ▸ h.null, hacc⟩
  | store t i p ok =>
    obtain ⟨k, hk, hr⟩ := Option.bind_eq_some_iff.1 hstep
    obtain ⟨ht, ⟨⟩⟩ := Option.ite_none_right_eq_some.1 hr
    cases ok with
    | true =>
      have hheld : (s.store t k p true).held = s.held := by simp [TlsSys.store]
      exact ⟨hkeys, h.heap, h.null, h.accounted.congr hheld (own_store ht) rfl⟩
    | false =>
      have hslot := hl t i p k rfl ht
      exact ⟨hkeys, h.heap, h.null, h.accounted.store_fail (h.keysOk.lt i k hk) ht hslot⟩
  | exit t =>
    obtain ⟨-, ⟨⟩⟩ := Option.ite_none_right_eq_some.1 hstep
    exact ⟨hkeys, h.heap, h.null, h.accounted.congr rfl rfl rfl⟩
  | cleanup t k =>
    obtain ⟨⟨hended, hne⟩, ⟨⟩⟩ := Option.ite_none_right_eq_some.1 hstep
    have hidle := h.keysOk.ended t hended
    have hk : k < s.keys := lt_of_not_ge fun hle ↦ hne (h.keysOk.unused t k hle)
    obtain ⟨hok, hnull⟩ := hdestroy (h.live_of_slot hidle hne)
    exact ⟨hkeys, hok, hnull, h.accounted.cleanup hk hidle hne⟩

/-! ### Over whole runs -/

/-- A `reset` that fails leaves in the slot what it has destroyed. -/
theorem Inv.not_ownedOnce_of_step (h : s.Inv) (hl : ¬ s.StoresNext l)
    (hstep : s.step keysMax l = some s') : ¬ s'.OwnedOnce := by
  intro honce
  simp only [StoresNext, not_forall] at hl
  obtain ⟨t, i, p, k, rfl, ht, hslot⟩ := hl
  obtain ⟨h0, hp⟩ := not_or.1 hslot
  obtain ⟨k', hk, hr⟩ := Option.bind_eq_some_iff.1 hstep
  obtain ⟨ht', ⟨⟩⟩ := Option.ite_none_right_eq_some.1 hr
  obtain ⟨rfl, -⟩ := Prod.mk.inj (Option.some.inj (ht.symm.trans ht'))
  have hkeys := h.keysOk.lt i k hk
  have hview : (s.store t k p false).view t = s.slot t :=
    view_of_idle (s := s.store t k p false) (Function.update_self _ _ _)
  have hown : s.slot t k ∈ (s.store t k p false).own t := by
    rw [own, hview]
    exact mem_stored.2 ⟨h0, k, hkeys, rfl⟩
  obtain ⟨hnot, hunique⟩ := honce.apart t _ hown
  have hlive : s.heap.Live (s.slot t k) := (honce.live_iff _).2 (.inr ⟨t, hown⟩)
  rcases (h.ownedOnce.live_iff _).1 hlive with hheld | ⟨u, hu⟩
  · refine hnot ?_
    show s.slot t k ∈ if _ ∨ _ then s.held else p :: s.held
    split
    · exact hheld
    · exact List.mem_cons_of_mem _ hheld
  · rcases eq_or_ne u t with rfl | hut
    · -- the thread would own it twice
      have hcount := congrArg (Multiset.count (s.slot u k)) (stored_update hkeys (s.slot u) p)
      have hone := Multiset.nodup_iff_count_le_one.1 (honce.nodup u) (s.slot u k)
      have hsome := Multiset.one_le_count_iff_mem.2 hu
      rw [own, view_of_storing ht] at hsome
      rw [own, hview] at hone
      have hnone : Multiset.count (s.slot u k) (pointee p) = 0 := by
        refine Multiset.count_eq_zero.2 fun hmem ↦ ?_
        unfold pointee at hmem
        split at hmem
        · exact Multiset.notMem_zero _ hmem
        · exact hp (Multiset.mem_singleton.1 hmem)
      rw [Multiset.count_add, Multiset.count_add, hnone, pointee_of_ne h0,
        Multiset.count_singleton_self] at hcount
      have hlt : Multiset.count (s.slot u k) (stored s.keys (s.slot u)) ≤ 1 := hone
      omega
    · refine hut (hunique u ?_)
      have hsame : (s.store t k p false).view u = s.view u :=
        view_congr rfl (Function.update_of_ne hut _ _)
      rw [own, hsame]
      exact hu

/-- **Whose the objects are.** Along every run each object has one owner and is destroyed once
exactly if no `reset` fails that has destroyed an object; and a thread that has exited owns nothing
once the destroy routine has been applied to all its slots, of destroyed `tls_ptr`s too. -/
theorem objects_divided_iff (keysMax : ℕ) (ls : List (TlsLabel τ)) (u : TlsSys τ)
    (hrun : run (step keysMax) start ls = some u) :
    (EveryState (step keysMax) OwnedOnce start ls ↔ EveryStep (step keysMax) StoresNext start ls) ∧
      EveryState (step keysMax) (fun s ↦ ∀ t, s.ended t = true →
        (∀ k, s.step keysMax (.cleanup t k) = none) → s.own t = 0) start ls := by
  constructor
  · exact everyState_iff_everyStep (fun _ hs ↦ hs.ownedOnce)
      (fun _ _ _ hs hl hstep ↦ hs.step hl hstep)
      (fun _ _ _ hs hl hstep ↦ hs.not_ownedOnce_of_step hl hstep) inv_start hrun
  · have hkeys : EveryState (step keysMax) KeysOk start ls :=
      everyState_of_invariant (fun _ _ _ hs hstep ↦ hs.step hstep) (keysOk_start (τ := τ))
    refine hkeys.mono fun s hs t ht hover ↦ hs.own_eq_zero ht fun k ↦ ?_
    by_contra hne
    have hstep : s.step keysMax (.cleanup t k) = some _ := if_pos ⟨ht, hne⟩
    cases (hover k).symm.trans hstep

/-- A thread fails to replace its object, and finds the other thread's in its slot when it exits. -/
def failedReset : List (TlsLabel Bool) :=
  [.construct 0 true, .make 8, .reset false 0 8, .store false 0 8 true, .make 16,
    .reset false 0 16, .make 8, .reset true 0 8, .store false 0 16 false, .store true 0 8 true,
    .exit false, .cleanup false 0]

theorem objects_divided_iff_two : EveryState (step 1) OwnedOnce start oneKey ∧
    ¬ EveryState (step 1) OwnedOnce start failedReset := by
  constructor
  · obtain ⟨u, hrun⟩ : ∃ u, run (step 1) start oneKey = some u := ⟨_, rfl⟩
    refine (objects_divided_iff 1 oneKey u hrun).1.2 ?_
    rintro ls₁ l ls₂ s hls hs t i p k rfl
    -- every `reset` of this run stores its pointer
    have hmem : TlsLabel.store t i p false ∈ oneKey := by rw [hls]; simp
    simp [oneKey] at hmem
  · obtain ⟨u, hrun⟩ : ∃ u, run (step 1) start failedReset = some u := ⟨_, rfl⟩
    intro hall
    have hstores := (objects_divided_iff 1 failedReset u hrun).1.1 hall
    have hslot : 8 = 0 ∨ 8 = 16 := hstores (failedReset.take 8) _ (failedReset.drop 9) _ rfl rfl
      false 0 16 0 rfl rfl
    omega

end TlsSys

end Libk2
