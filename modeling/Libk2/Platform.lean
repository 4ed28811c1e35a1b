import Mathlib.Data.Nat.Bitwise

/-!
# The target: `size_t`, pointers, and `safe_alignof`

libk2 is built for 32- and 64-bit targets, so nothing below fixes the width: a `Target` has pointers
of two to eight bytes and a `size_t` of the same width, whose arithmetic wraps (`SizeT T` is a bit
vector). Addresses themselves are natural numbers; the ones a program can form are below
`2 ^ T.bits`.

`SafeAlignof.constant` is the template constant of `byte_manip.h`, the mask expression as it stands
there. `toNat_constant_eight` reads it at the default alignment as arithmetic: round up to a
multiple of eight, after the addition has wrapped.
-/

namespace Libk2

/-- A build target. -/
structure Target where
  /-- `sizeof(void*)`, and `sizeof(size_t)`. -/
  ptrBytes : ℕ
  /-- `size_t` has at least 16 bits. -/
  two_le : 2 ≤ ptrBytes
  /-- Pointers have at most 64 bits. -/
  le_eight : ptrBytes ≤ 8

namespace Target

variable (T : Target)

/-- The width of `size_t` and of an address. -/
def bits : ℕ := 8 * T.ptrBytes

theorem sixteen_le_bits : 16 ≤ T.bits := by
  have := T.two_le
  unfold bits
  omega

theorem two_pow_bits : 2 ^ T.bits = 256 ^ T.ptrBytes := by
  rw [bits, Nat.pow_mul]

/-- Every small constant of the source fits in `size_t`. -/
theorem lt_two_pow_bits {n : ℕ} (h : n < 2 ^ 16) : n < 2 ^ T.bits :=
  Nat.lt_of_lt_of_le h (Nat.pow_le_pow_right (by omega) T.sixteen_le_bits)

/-- The usual 64-bit target. -/
def lp64 : Target := ⟨8, by omega, by omega⟩

end Target

/-- `size_t`. -/
abbrev SizeT (T : Target) := BitVec T.bits

namespace SizeT

variable {T : Target}

/-- A constant of the source, as a `size_t`. -/
theorem toNat_ofNat_small {n : ℕ} (h : n < 2 ^ 16) : (BitVec.ofNat T.bits n).toNat = n := by
  rw [BitVec.toNat_ofNat, Nat.mod_eq_of_lt (T.lt_two_pow_bits h)]

theorem toNat_one : (1 : SizeT T).toNat = 1 := toNat_ofNat_small (n := 1) (by omega)

theorem toNat_two : (2 : SizeT T).toNat = 2 := toNat_ofNat_small (n := 2) (by omega)

end SizeT

namespace SafeAlignof

variable {w : ℕ}

/-- `safe_alignof::default_aligment`. -/
def defaultAligment (w : ℕ) : BitVec w := BitVec.ofNat w 8

/-- `safe_alignof::constant<Size, Alignment>::value`. -/
def constant (size alignment : BitVec w) : BitVec w :=
  (size + alignment - 1#w) &&& ~~~(alignment - 1#w)

/-- Clearing the low `k` bits of a number below `2 ^ w` rounds it down to a multiple of `2 ^ k`. -/
theorem and_clear_low {a k : ℕ} (ha : a < 2 ^ w) (hk : k ≤ w) :
    a &&& (2 ^ w - 1 - (2 ^ k - 1)) = a / 2 ^ k * 2 ^ k := by
  have hpow : 2 ^ k ≤ 2 ^ w := Nat.pow_le_pow_right (by omega) hk
  have hpos : 0 < 2 ^ k := Nat.two_pow_pos k
  refine Nat.eq_of_testBit_eq fun i ↦ ?_
  rw [Nat.testBit_and, show 2 ^ w - 1 - (2 ^ k - 1) = 2 ^ w - (2 ^ k - 1 + 1) by omega,
    Nat.testBit_two_pow_sub_succ (by omega), Nat.testBit_two_pow_sub_one,
    Nat.testBit_mul_two_pow, Nat.testBit_div_two_pow]
  by_cases hik : k ≤ i
  · have hclear : decide (i < k) = false := by simpa using hik
    by_cases hiw : i < w
    · simp [hik, hiw, hclear, Nat.sub_add_cancel hik]
    · have hhigh : a.testBit i = false :=
        Nat.testBit_lt_two_pow (Nat.lt_of_lt_of_le ha (Nat.pow_le_pow_right (by omega) (by omega)))
      simp [hhigh, Nat.sub_add_cancel hik]
  · simp [hik, Nat.lt_of_not_le hik]

/-- **Rounding.** At the default alignment the mask rounds up to a multiple of eight. -/
theorem toNat_constant_eight (hw : 16 ≤ w) (size : BitVec w) :
    (constant size (defaultAligment w)).toNat = (size.toNat + 7) % 2 ^ w / 8 * 8 := by
  have hbig : 2 ^ 16 ≤ 2 ^ w := Nat.pow_le_pow_right (by omega) hw
  have hseven : defaultAligment w - 1#w = BitVec.ofNat w 7 := by
    rw [defaultAligment, BitVec.ofNat_sub_ofNat_of_le _ _ (by omega) (by omega)]
  have hsum : (size + defaultAligment w - 1#w).toNat = (size.toNat + 7) % 2 ^ w := by
    rw [BitVec.sub_eq_add_neg, BitVec.add_assoc, ← BitVec.sub_eq_add_neg, hseven,
      BitVec.toNat_add, BitVec.toNat_ofNat, Nat.mod_eq_of_lt (show 7 < 2 ^ w by omega)]
  have hmask : (~~~(defaultAligment w - 1#w)).toNat = 2 ^ w - 1 - (2 ^ 3 - 1) := by
    rw [hseven, BitVec.toNat_not, BitVec.toNat_ofNat, Nat.mod_eq_of_lt (show 7 < 2 ^ w by omega)]
    rfl
  rw [constant, BitVec.toNat_and, hsum, hmask,
    and_clear_low (Nat.mod_lt _ (Nat.two_pow_pos w)) (by omega)]
  rfl

end SafeAlignof

end Libk2
