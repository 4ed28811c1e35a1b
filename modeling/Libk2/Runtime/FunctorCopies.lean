import Mathlib.Data.List.Nodup

/-!
# Functors on the heap

`thread::spawn` and `runtime::atexit` copy the user's functor to the heap and pass the copy on as a
`void*`, until `thread_entry_wrapper` or `adapter` adopts it with an `auto_ptr`. That destroys it
however the call ends, and until then nobody does. A copy is destroyed exactly once (`Once`) if its
operation does not fail before the call, and the call ends only once (`Settled`).
-/

namespace Libk2

/-- The copies of functors, numbered as they are made: which ones were not handed on because the
operation has failed, whose call has ended, and which have been destroyed, in order. -/
structure Copies where
  made : ℕ
  failed : List ℕ
  ended : List ℕ
  destroyed : List ℕ

namespace Copies

/-- No copies. -/
def none : Copies := ⟨0, [], [], []⟩

variable (c : Copies) (k : ℕ)

/-- `new ThreadEntry(thread_entry)`, or `new FuntionT(func)`. -/
def copy : Copies := { c with made := c.made + 1 }

/-- The operation fails between the copying and the call. -/
def fail : Copies := { c with failed := c.failed ++ [k] }

/-- The call ends in `thread_entry_wrapper` or in `adapter`, where an `auto_ptr` destroys the
copy. -/
def callEnds : Copies := { c with ended := c.ended ++ [k], destroyed := c.destroyed ++ [k] }

/-- **Destroyed once**: so is every copy, once its operation has failed or its call has ended. -/
def Once : Prop := ∀ k, k ∈ c.failed ∨ k ∈ c.ended → c.destroyed.count k = 1

/-- Nothing has failed, and no call has ended twice. -/
structure Settled : Prop where
  failed : c.failed = []
  ended_eq : c.ended = c.destroyed
  nodup : c.destroyed.Nodup

variable {c k}

theorem settled_none : none.Settled := ⟨rfl, rfl, List.nodup_nil⟩

namespace Settled

theorem once (h : c.Settled) : c.Once := by
  intro k hk
  rw [h.failed, h.ended_eq] at hk
  exact List.count_eq_one_of_mem h.nodup (hk.resolve_left List.not_mem_nil)

theorem copy (h : c.Settled) : c.copy.Settled := ⟨h.failed, h.ended_eq, h.nodup⟩

theorem callEnds (h : c.Settled) (hk : k ∉ c.destroyed) : (c.callEnds k).Settled where
  failed := h.failed
  ended_eq := congrArg (· ++ [k]) h.ended_eq
  nodup := by
    have hnodup := h.nodup.concat hk
    rwa [List.concat_eq_append] at hnodup

end Settled

/-- A copy that is not handed on is not destroyed. -/
theorem not_once_fail (hk : k ∉ c.destroyed) : ¬ (c.fail k).Once := fun honce ↦ by
  have hone : c.destroyed.count k = 1 :=
    honce k (.inl (List.mem_append_right _ (List.mem_singleton_self k)))
  rw [List.count_eq_zero_of_not_mem hk] at hone
  exact absurd hone Nat.zero_ne_one

/-- A copy whose call ends a second time is destroyed a second time. -/
theorem not_once_callEnds (hk : k ∈ c.destroyed) : ¬ (c.callEnds k).Once := fun honce ↦ by
  have hone : (c.destroyed ++ [k]).count k = 1 :=
    honce k (.inr (List.mem_append_right _ (List.mem_singleton_self k)))
  have hpos := List.count_pos_iff.2 hk
  rw [List.count_append, List.count_singleton_self] at hone
  omega

end Copies

end Libk2
