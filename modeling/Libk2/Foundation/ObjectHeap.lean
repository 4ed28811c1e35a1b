import Mathlib.Data.List.Nodup
import Mathlib.Logic.Function.Basic

/-!
# Objects at addresses

An address can be used again once the object at it has been destroyed, so an address alone does not
say which object is meant. An object is an address and the number of objects that had been made
there when it was made. The heap records how many that are at each address, and which objects have
been destroyed, in order. Nothing keeps a program from destroying what is not alive: that it does
not is what `Ok` says, and `Ok.destroy` is the rule for it.
-/

/-- Which objects have been made, and which destroyed. -/
structure ObjectHeap (α : Type*) where
  made : α → ℕ
  destroyed : List (α × ℕ)

namespace ObjectHeap

variable {α : Type*}

/-- Nothing has been made. -/
def empty (α : Type*) : ObjectHeap α := ⟨fun _ ↦ 0, []⟩

variable (h : ObjectHeap α)

/-- The object that was made last at `a`. -/
def object (a : α) : α × ℕ := (a, h.made a)

/-- There is an object at `a`. -/
def Live (a : α) : Prop := 0 < h.made a ∧ h.object a ∉ h.destroyed

/-- Destroy the object at `a`. -/
def destroy (a : α) : ObjectHeap α := { h with destroyed := h.destroyed ++ [h.object a] }

/-- No object has been destroyed twice, or before it was made. -/
structure Ok : Prop where
  nodup : h.destroyed.Nodup
  le_made : ∀ o ∈ h.destroyed, o.2 ≤ h.made o.1

variable {h} {a b : α}

theorem ok_empty : (empty α).Ok := ⟨List.nodup_nil, fun _ ho ↦ absurd ho List.not_mem_nil⟩

/-! ### Destroying -/

theorem object_inj (hab : h.object a = h.object b) : a = b := congrArg Prod.fst hab

/-- **What is alive may be destroyed.** -/
theorem Ok.destroy (hok : h.Ok) (ha : h.Live a) : (h.destroy a).Ok where
  nodup := by
    have hnodup := hok.nodup.concat ha.2
    rwa [List.concat_eq_append] at hnodup
  le_made o ho := by
    rcases List.mem_append.1 ho with ho | ho
    · exact hok.le_made o ho
    · exact (List.mem_singleton.1 ho).symm ▸ Nat.le_refl _

theorem object_mem_destroyed : h.object a ∈ (h.destroy a).destroyed :=
  List.mem_append_right _ (List.mem_singleton_self _)

/-- **Frame.** Destroying an object leaves the others alone. -/
theorem Live.destroy_of_ne (hb : h.Live b) (hba : b ≠ a) : (h.destroy a).Live b := by
  refine ⟨hb.1, fun hmem ↦ ?_⟩
  rcases List.mem_append.1 hmem with hmem | hmem
  · exact hb.2 hmem
  · exact hba (object_inj (List.mem_singleton.1 hmem))

theorem live_destroy_iff : (h.destroy a).Live b ↔ h.Live b ∧ b ≠ a := by
  refine ⟨fun hb ↦ ⟨⟨hb.1, fun hmem ↦ hb.2 (List.mem_append_left _ hmem)⟩, ?_⟩,
    fun hb ↦ hb.1.destroy_of_ne hb.2⟩
  rintro rfl
  exact hb.2 object_mem_destroyed

/-! ### Making -/

variable [DecidableEq α]

instance (a : α) : Decidable (h.Live a) := inferInstanceAs (Decidable (_ ∧ _))

variable (h a) in
/-- Make an object at `a`. -/
def make : ObjectHeap α := { h with made := Function.update h.made a (h.made a + 1) }

theorem made_make_self : (h.make a).made a = h.made a + 1 := Function.update_self a _ _

theorem made_make_of_ne (hba : b ≠ a) : (h.make a).made b = h.made b :=
  Function.update_of_ne hba _ _

theorem object_make_of_ne (hba : b ≠ a) : (h.make a).object b = h.object b :=
  congrArg (Prod.mk b) (made_make_of_ne hba)

theorem Ok.make (hok : h.Ok) : (h.make a).Ok where
  nodup := hok.nodup
  le_made o ho := by
    by_cases hoa : o.1 = a
    · rw [hoa, made_make_self]
      exact Nat.le_succ_of_le (hoa ▸ hok.le_made o ho)
    · rw [made_make_of_ne hoa]
      exact hok.le_made o ho

/-- **Frame.** Making an object leaves those elsewhere alone. -/
theorem Live.make_of_ne (hb : h.Live b) (hba : b ≠ a) : (h.make a).Live b := by
  rw [Live, object_make_of_ne hba, made_make_of_ne hba]
  exact hb

theorem Ok.live_make_iff (hok : h.Ok) : (h.make a).Live b ↔ b = a ∨ h.Live b := by
  by_cases hba : b = a
  · subst hba
    refine iff_of_true ⟨?_, fun hmem ↦ ?_⟩ (.inl rfl)
    · rw [made_make_self]
      exact Nat.succ_pos _
    · have hle : (h.make b).made b ≤ h.made b := hok.le_made _ hmem
      rw [made_make_self] at hle
      omega
  · rw [or_iff_right hba, Live, object_make_of_ne hba, made_make_of_ne hba]
    exact Iff.rfl

end ObjectHeap
