import Mathlib.Algebra.BigOperators.Group.Finset.Basic
import Mathlib.Algebra.Order.BigOperators.Group.Finset
import Mathlib.Algebra.Order.Group.Multiset
import Mathlib.Data.Fintype.BigOperators
import Mathlib.Tactic.Abel

/-!
# Resources divided among parties

Finitely many parties each own some resources, and some are owned in common. `Divided` says that
together these are all there are, each counted once. A party that moves on changes what it owns and
what is common at once; that nothing is lost or made in between is a fact about that party alone
(`Divided.update`). If the resources are all different, what is owned by one party is neither owned
by another nor common (`Divided.unique`, `Divided.not_mem_common`).
-/

namespace Ownership

variable {τ α : Type*} [Fintype τ]

/-- What is in `common` and what the parties own are all the resources. -/
def Divided (common : Multiset α) (own : τ → Multiset α) (all : Multiset α) : Prop :=
  common + ∑ t, own t = all

/-- One party's share changes. -/
theorem sum_update_add [DecidableEq τ] (own : τ → Multiset α) (t : τ) (x : Multiset α) :
    ∑ u, Function.update own t x u + own t = ∑ u, own u + x := by
  have hrest : ∑ u ∈ Finset.univ.erase t, Function.update own t x u =
      ∑ u ∈ Finset.univ.erase t, own u :=
    Finset.sum_congr rfl fun u hu ↦ Function.update_of_ne (Finset.ne_of_mem_erase hu) _ _
  rw [← Finset.add_sum_erase _ _ (Finset.mem_univ t), ← Finset.add_sum_erase _ own
    (Finset.mem_univ t), hrest, Function.update_self]
  abel

namespace Divided

variable {common common' all extra : Multiset α} {own : τ → Multiset α} {t u : τ} {a : α}

/-- **A party moves on**, and nothing is lost: what it had, with what was common and what is new, is
what it has, with what is common now. -/
theorem update [DecidableEq τ] (h : Divided common own all) {x : Multiset α}
    (hmove : common' + x = common + own t + extra) :
    Divided common' (Function.update own t x) (all + extra) := by
  have hsum := sum_update_add own t x
  refine add_right_cancel (b := own t) ?_
  calc common' + ∑ u, Function.update own t x u + own t
      = common' + (∑ u, own u + x) := by rw [add_assoc, hsum]
    _ = common' + x + ∑ u, own u := by abel
    _ = common + ∑ u, own u + extra + own t := by rw [hmove]; abel
    _ = all + extra + own t := by rw [h]

/-- A party moves on, and some resources cease to exist. -/
theorem surrender [DecidableEq τ] (h : Divided common own all) {x gone : Multiset α}
    (hmove : common' + x + gone = common + own t) :
    ∃ all', Divided common' (Function.update own t x) all' ∧ all' + gone = all := by
  refine ⟨_, rfl, add_right_cancel (b := own t) ?_⟩
  have hsum := sum_update_add own t x
  calc common' + ∑ u, Function.update own t x u + gone + own t
      = common' + (∑ u, Function.update own t x u + own t) + gone := by abel
    _ = common' + x + gone + ∑ u, own u := by rw [hsum]; abel
    _ = common + ∑ u, own u + own t := by rw [hmove]; abel
    _ = all + own t := by rw [h]

theorem mem_iff (h : Divided common own all) : a ∈ all ↔ a ∈ common ∨ ∃ t, a ∈ own t := by
  rw [← h, Multiset.mem_add, Multiset.mem_sum]
  simp

theorem own_le (h : Divided common own all) (t : τ) : own t ≤ all := by
  rw [← h]
  exact (Finset.single_le_sum (fun _ _ ↦ Multiset.zero_le _) (Finset.mem_univ t)).trans
    (Multiset.le_add_left _ _)

/-- What one party owns, no other does. -/
theorem unique (h : Divided common own all) (hnodup : all.Nodup) (ht : a ∈ own t) (hu : a ∈ own u) :
    t = u := by
  classical
  by_contra hne
  have hpair : ∑ w ∈ {t, u}, own w ≤ all := by
    rw [← h]
    refine (Finset.sum_le_sum_of_subset (Finset.subset_univ _)).trans ?_
    exact Multiset.le_add_left _ _
  rw [Finset.sum_pair hne] at hpair
  have hdisjoint := (Multiset.nodup_add.1 (Multiset.nodup_of_le hpair hnodup)).2.2
  exact Multiset.disjoint_left.1 hdisjoint ht hu

/-- What a party owns is not common. -/
theorem not_mem_common (h : Divided common own all) (hnodup : all.Nodup) (ht : a ∈ own t) :
    a ∉ common := by
  intro hcommon
  have hdisjoint := (Multiset.nodup_add.1 (h.symm ▸ hnodup)).2.2
  refine Multiset.disjoint_left.1 hdisjoint hcommon ?_
  exact Multiset.mem_sum.2 ⟨t, Finset.mem_univ t, ht⟩

theorem nodup_common (h : Divided common own all) (hnodup : all.Nodup) : common.Nodup :=
  (Multiset.nodup_add.1 (h.symm ▸ hnodup)).1

end Divided

end Ownership
