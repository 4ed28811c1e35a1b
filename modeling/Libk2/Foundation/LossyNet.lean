import Mathlib.Data.List.Perm.Basic
import Mathlib.Data.List.Count
import Mathlib.Data.Nat.Notation

/-!
# A network that loses, copies and reorders

What is sent is kept in a list, and what is under way are numbers of its elements: the same one
several times if it was copied, and in no particular order, as any of them can be delivered next.

Whatever such a network does, it delivers nothing that was not sent, and nothing more often than it
was sent and copied (`Net.Inv`).
-/

namespace LossyNet

/-- What was sent, and by its number there, each message that is under way and each one that was
copied or delivered. -/
structure Net (α : Type*) where
  sent : List α
  wire : List ℕ
  copied : List ℕ
  delivered : List ℕ

namespace Net

variable {α : Type*}

/-- Nothing was sent. -/
def empty : Net α := ⟨[], [], [], []⟩

/-- Send a message. -/
def send (n : Net α) (a : α) : Net α :=
  { n with sent := n.sent ++ [a], wire := n.wire ++ [n.sent.length] }

/-- Lose the `i`th message under way. -/
def lose (n : Net α) (i : ℕ) : Net α := { n with wire := n.wire.eraseIdx i }

/-- Copy the `i`th message under way. -/
def copy (n : Net α) (i : ℕ) : Net α :=
  { n with wire := n.wire ++ n.wire[i]?.toList, copied := n.copied ++ n.wire[i]?.toList }

/-- Deliver the `i`th message under way: its number, and the message. -/
def deliver (n : Net α) (i : ℕ) : Option ((ℕ × α) × Net α) :=
  n.wire[i]?.bind fun k ↦ n.sent[k]?.map fun a ↦
    ((k, a), { n with wire := n.wire.eraseIdx i, delivered := n.delivered ++ [k] })

/-- What is under way or delivered was sent, and not more often than it was sent and copied. -/
structure Inv (n : Net α) : Prop where
  wire : ∀ k ∈ n.wire, k < n.sent.length
  delivered : ∀ k ∈ n.delivered, k < n.sent.length
  count : ∀ k, n.delivered.count k + n.wire.count k ≤ n.copied.count k + 1

theorem inv_empty : (empty : Net α).Inv := ⟨nofun, nofun, fun _ ↦ Nat.zero_le _⟩

namespace Inv

variable {n : Net α} (h : n.Inv)

include h

/-- A number that was not given out yet is nowhere. -/
theorem count_length : n.delivered.count n.sent.length + n.wire.count n.sent.length = 0 := by
  rw [List.count_eq_zero.2 fun hmem ↦ absurd (h.delivered _ hmem) (Nat.lt_irrefl _),
    List.count_eq_zero.2 fun hmem ↦ absurd (h.wire _ hmem) (Nat.lt_irrefl _)]

theorem send (a : α) : (n.send a).Inv where
  wire k hk := by
    rw [Net.send, List.length_append, List.length_singleton]
    rcases List.mem_append.1 hk with hk | hk
    · exact Nat.lt_succ_of_lt (h.wire k hk)
    · rw [List.mem_singleton.1 hk]
      exact Nat.lt_succ_self _
  delivered k hk := by
    rw [Net.send, List.length_append, List.length_singleton]
    exact Nat.lt_succ_of_lt (h.delivered k hk)
  count k := by
    show n.delivered.count k + (n.wire ++ [n.sent.length]).count k ≤ n.copied.count k + 1
    rw [List.count_append, List.count_singleton]
    by_cases hk : k = n.sent.length
    · subst hk
      have := h.count_length
      simp only [beq_self_eq_true, if_true]
      omega
    · have := h.count k
      rw [if_neg (by simpa using Ne.symm hk)]
      omega

theorem lose (i : ℕ) : (n.lose i).Inv where
  wire k hk := h.wire k (List.mem_of_mem_eraseIdx hk)
  delivered := h.delivered
  count k := by
    have hle : (n.wire.eraseIdx i).count k ≤ n.wire.count k :=
      (List.eraseIdx_sublist n.wire i).count_le k
    exact Nat.le_trans (Nat.add_le_add_left hle _) (h.count k)

theorem copy (i : ℕ) : (n.copy i).Inv where
  wire k hk := by
    rcases List.mem_append.1 hk with hk | hk
    · exact h.wire k hk
    · exact h.wire k (List.mem_of_getElem? (Option.mem_toList.1 hk))
  delivered := h.delivered
  count k := by
    show n.delivered.count k + (n.wire ++ n.wire[i]?.toList).count k ≤
      (n.copied ++ n.wire[i]?.toList).count k + 1
    have := h.count k
    rw [List.count_append, List.count_append]
    omega

theorem deliver {i k : ℕ} {a : α} {n' : Net α} (hdeliver : n.deliver i = some ((k, a), n')) :
    n'.Inv := by
  obtain ⟨j, hj, hmap⟩ := Option.bind_eq_some_iff.1 hdeliver
  obtain ⟨b, -, heq⟩ := Option.map_eq_some_iff.1 hmap
  obtain rfl := (Prod.mk.inj heq).2
  obtain ⟨hi, hget⟩ := List.getElem?_eq_some_iff.1 hj
  refine ⟨fun m hm ↦ h.wire m (List.mem_of_mem_eraseIdx hm), fun m hm ↦ ?_, fun m ↦ ?_⟩
  · rcases List.mem_append.1 hm with hm | hm
    · exact h.delivered m hm
    · rw [List.mem_singleton.1 hm]
      exact h.wire j (List.mem_of_getElem? hj)
  · -- the message goes from the one list to the other
    have hwire := (List.getElem_cons_eraseIdx_perm hi).count_eq m
    rw [hget, List.count_cons] at hwire
    have := h.count m
    show (n.delivered ++ [j]).count m + (n.wire.eraseIdx i).count m ≤ n.copied.count m + 1
    rw [List.count_append, List.count_singleton]
    omega

end Inv

/-- What is delivered was sent, under its number. -/
theorem getElem?_of_deliver {n n' : Net α} {i k : ℕ} {a : α}
    (h : n.deliver i = some ((k, a), n')) :
    n.sent[k]? = some a ∧ n'.sent = n.sent ∧ n'.copied = n.copied ∧
      n'.delivered = n.delivered ++ [k] := by
  obtain ⟨j, -, hmap⟩ := Option.bind_eq_some_iff.1 h
  obtain ⟨b, hb, heq⟩ := Option.map_eq_some_iff.1 hmap
  cases heq
  exact ⟨hb, rfl, rfl, rfl⟩

end Net

end LossyNet
