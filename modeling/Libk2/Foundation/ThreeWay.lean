import Mathlib.Data.Prod.Lex
import Mathlib.Data.Int.Order.Basic
import Mathlib.Algebra.Order.Ring.Int

/-!
# Three-way comparison

A comparison that returns a number, whose sign says which operand comes first. `threeWay` compares
two elements of a linear order; on pairs it compares the first components and, if these are equal,
goes on to the second (`threeWay_toLex`), which is how a comparison of records is written field by
field.

`CompareLaws` are the laws of a comparison and of the equality and less-than built on it.
-/

variable {κ κ' : Type*} [LinearOrder κ] [LinearOrder κ']

/-- Positive if `x` comes after `y`, negative if it comes before. -/
def threeWay (x y : κ) : ℤ := if y < x then 1 else if x < y then -1 else 0

theorem threeWay_of_lt {x y : κ} (h : x < y) : threeWay x y = -1 := by
  rw [threeWay, if_neg h.not_gt, if_pos h]

theorem threeWay_of_gt {x y : κ} (h : y < x) : threeWay x y = 1 := if_pos h

@[simp] theorem threeWay_self (x : κ) : threeWay x x = 0 := by
  rw [threeWay, if_neg (lt_irrefl x), if_neg (lt_irrefl x)]

theorem threeWay_neg_iff {x y : κ} : threeWay x y < 0 ↔ x < y := by
  rcases lt_trichotomy x y with h | rfl | h
  · simp [threeWay_of_lt h, h]
  · simp
  · simp [threeWay_of_gt h, h.not_gt]

theorem threeWay_eq_zero_iff {x y : κ} : threeWay x y = 0 ↔ x = y := by
  rcases lt_trichotomy x y with h | rfl | h
  · simp [threeWay_of_lt h, h.ne]
  · simp
  · simp [threeWay_of_gt h, h.ne']

theorem threeWay_swap (x y : κ) : threeWay x y = -threeWay y x := by
  rcases lt_trichotomy x y with h | rfl | h
  · rw [threeWay_of_lt h, threeWay_of_gt h]
  · simp
  · rw [threeWay_of_lt h, threeWay_of_gt h, neg_neg]

/-- Field by field. -/
theorem threeWay_toLex (x y : κ) (x' y' : κ') :
    threeWay (toLex (x, x')) (toLex (y, y')) =
      if y < x then 1 else if x < y then -1 else threeWay x' y' := by
  simp only [threeWay, Prod.Lex.toLex_lt_toLex]
  rcases lt_trichotomy x y with h | rfl | h
  · simp [h, h.not_gt, h.ne']
  · simp
  · simp [h]

/-- A comparison is zero on equal elements only, changes its sign with the order of its operands and
is transitive; the equality and the less-than that go with it are equality and a strict total
order. -/
structure CompareLaws {α : Type*} (compare : α → α → ℤ) (eq lt : α → α → Bool) (a b c : α) :
    Prop where
  compare_eq_zero_iff : compare a b = 0 ↔ a = b
  sign_compare : (compare a b).sign = -(compare b a).sign
  compare_trans : compare a b < 0 → compare b c < 0 → compare a c < 0
  eq_iff : eq a b = true ↔ a = b
  lt_irrefl : lt a a = false
  lt_trans : lt a b = true → lt b c = true → lt a c = true
  lt_total : lt a b = true ∨ a = b ∨ lt b a = true
