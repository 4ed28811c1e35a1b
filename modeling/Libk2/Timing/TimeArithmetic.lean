import Libk2.Timing.Timestamp
import Mathlib.Tactic.Ring

/-!
# Arithmetic of times

The operators add, subtract and multiply as the machine does, modulo `2 ^ 64`; only the difference
of two timestamps is clamped at zero. A result that can be represented is therefore exact. One that
cannot breaks the order that the operators should keep: a sum and a difference always (`le_add_iff`,
`sub_le_iff`), a product if the last summand passes a multiple of `2 ^ 64` (`le_mul_iff`).
-/

namespace Libk2

/-! ### Unsigned words -/

theorem le_add_iff (a b : UInt64) : a ≤ a + b ↔ a.toNat + b.toNat < 2 ^ 64 := by
  have ha := a.toNat_lt
  have hb := b.toNat_lt
  rw [UInt64.le_iff_toNat_le, UInt64.toNat_add]
  omega

theorem toNat_add_of_fits {a b : UInt64} (h : a.toNat + b.toNat < 2 ^ 64) :
    (a + b).toNat = a.toNat + b.toNat := by
  rw [UInt64.toNat_add, Nat.mod_eq_of_lt h]

theorem sub_le_iff (a b : UInt64) : a - b ≤ a ↔ b ≤ a := by
  have ha := a.toNat_lt
  have hb := b.toNat_lt
  rw [UInt64.le_iff_toNat_le, UInt64.le_iff_toNat_le, UInt64.toNat_sub]
  omega

/-- A multiple of `a`, reduced, is below `a` if the last summand has passed a multiple of `m`. -/
theorem le_mul_mod_iff {a k m : ℕ} (hm : 0 < m) (hk : 1 ≤ k) :
    a ≤ a * k % m ↔ a * (k - 1) / m = a * k / m := by
  obtain ⟨k, rfl⟩ := Nat.exists_eq_add_of_le' hk
  have hlast : a * (k + 1) = a * k + a := Nat.mul_succ a k
  have hdiv := Nat.div_add_mod (a * (k + 1)) m
  have hbefore := Nat.div_add_mod (a * k) m
  have hmod := Nat.mod_lt (a * k) hm
  have hle : a * k / m ≤ a * (k + 1) / m := Nat.div_le_div_right (by omega)
  rw [Nat.add_sub_cancel]
  constructor
  · intro h
    by_contra hne
    -- a multiple is passed, so that less than `a` is left of the product
    have hpassed : m * (a * k / m + 1) ≤ m * (a * (k + 1) / m) :=
      Nat.mul_le_mul_left m (Nat.lt_of_le_of_ne hle hne)
    rw [Nat.mul_succ] at hpassed
    omega
  · intro h
    rw [← h] at hdiv
    omega

theorem le_mul_iff (a : UInt64) {k : UInt32} (hk : 1 ≤ k.toNat) :
    a ≤ a * k.toUInt64 ↔ a.toNat * (k.toNat - 1) / 2 ^ 64 = a.toNat * k.toNat / 2 ^ 64 := by
  rw [UInt64.le_iff_toNat_le, UInt64.toNat_mul, UInt32.toNat_toUInt64]
  exact le_mul_mod_iff (by norm_num) hk

/-- A reading of the clock, later by `b`, is still to come unless the sum wraps around. -/
theorem not_add_le_iff (a : UInt64) {b : UInt64} (hb : 0 < b) :
    ¬ a + b ≤ a ↔ a.toNat + b.toNat < 2 ^ 64 := by
  have ha := a.toNat_lt
  have hlt := b.toNat_lt
  have hpos : 0 < b.toNat := UInt64.lt_iff_toNat_lt.1 hb
  rw [UInt64.le_iff_toNat_le, UInt64.toNat_add]
  omega

/-! ### The laws -/

/-- The laws of time arithmetic; `now` is what the clock reads. -/
structure NeverWraps (now : UInt64) (t u : Timestamp) (d e : TimeSpan) (k : UInt32) : Prop where
  le_add : t.msec ≤ (t.add d).msec
  sub_le : (t.subSpan d).msec ≤ t.msec
  le_span_add : d.msec ≤ (d.add e).msec
  span_sub_le : (d.sub e).msec ≤ d.msec
  le_span_mul : 1 ≤ k.toNat → d.msec ≤ (d.mul k).msec
  sub_eq_zero : t.msec ≤ u.msec → t.sub u = ⟨0⟩
  deadline : 0 < d.msec →
    (Timestamp.nowAdd now d).expired now = false ∧ (Timestamp.ofSpan now d).expired now = false
  exact_add : t.msec.toNat + d.msec.toNat < 2 ^ 64 →
    (t.add d).msec.toNat = t.msec.toNat + d.msec.toNat
  exact_sub : d.msec ≤ t.msec → (t.subSpan d).msec.toNat = t.msec.toNat - d.msec.toNat
  exact_span_add : d.msec.toNat + e.msec.toNat < 2 ^ 64 →
    (d.add e).msec.toNat = d.msec.toNat + e.msec.toNat
  exact_span_sub : e.msec ≤ d.msec → (d.sub e).msec.toNat = d.msec.toNat - e.msec.toNat
  exact_span_mul : d.msec.toNat * k.toNat < 2 ^ 64 →
    (d.mul k).msec.toNat = d.msec.toNat * k.toNat
  exact_diff : u.msec ≤ t.msec → (t.sub u).msec.toNat = t.msec.toNat - u.msec.toNat

/-- **The condition.** The sums can be represented, nothing longer is taken from anything shorter,
and the last of the `k` summands `d` does not pass a multiple of `2 ^ 64`. -/
structure Representable (now : UInt64) (t : Timestamp) (d e : TimeSpan) (k : UInt32) : Prop where
  add : t.msec.toNat + d.msec.toNat < 2 ^ 64
  sub : d.msec ≤ t.msec
  span_add : d.msec.toNat + e.msec.toNat < 2 ^ 64
  span_sub : e.msec ≤ d.msec
  span_mul : d.msec.toNat * (k.toNat - 1) / 2 ^ 64 = d.msec.toNat * k.toNat / 2 ^ 64
  deadline : now.toNat + d.msec.toNat < 2 ^ 64

theorem expired_nowAdd_iff (now : UInt64) {d : TimeSpan} (hd : 0 < d.msec) :
    (Timestamp.nowAdd now d).expired now = false ↔ now.toNat + d.msec.toNat < 2 ^ 64 := by
  rw [← not_add_le_iff now hd]
  exact decide_eq_false_iff_not

/-- **Arithmetic of times does not wrap around** exactly if the results can be represented. -/
theorem neverWraps_iff (now : UInt64) (t u : Timestamp) (d e : TimeSpan) (k : UInt32) :
    NeverWraps now t u d e k ↔ Representable now t d e k := by
  constructor
  · intro h
    refine ⟨(le_add_iff _ _).1 h.le_add, (sub_le_iff _ _).1 h.sub_le,
      (le_add_iff _ _).1 h.le_span_add, (sub_le_iff _ _).1 h.span_sub_le, ?_, ?_⟩
    · -- nothing is said about `d * 0`, and it needs no room
      rcases Nat.eq_zero_or_pos k.toNat with hzero | hpos
      · rw [hzero, Nat.zero_sub]
      · exact (le_mul_iff _ hpos).1 (h.le_span_mul hpos)
    · -- nor about a deadline without a span
      rcases Nat.eq_zero_or_pos d.msec.toNat with hzero | hpos
      · rw [hzero]
        exact now.toNat_lt
      · have hd : 0 < d.msec := UInt64.lt_iff_toNat_lt.2 hpos
        exact (expired_nowAdd_iff now hd).1 (h.deadline hd).1
  · intro h
    exact
      { le_add := (le_add_iff _ _).2 h.add
        sub_le := (sub_le_iff _ _).2 h.sub
        le_span_add := (le_add_iff _ _).2 h.span_add
        span_sub_le := (sub_le_iff _ _).2 h.span_sub
        le_span_mul := fun hk ↦ (le_mul_iff _ hk).2 h.span_mul
        sub_eq_zero := fun hle ↦ if_neg (UInt64.not_lt.2 hle)
        deadline := fun hd ↦
          ⟨(expired_nowAdd_iff now hd).2 h.deadline, (expired_nowAdd_iff now hd).2 h.deadline⟩
        exact_add := fun hlt ↦ toNat_add_of_fits hlt
        exact_sub := fun hle ↦ UInt64.toNat_sub_of_le _ _ hle
        exact_span_add := fun hlt ↦ toNat_add_of_fits hlt
        exact_span_sub := fun hle ↦ UInt64.toNat_sub_of_le _ _ hle
        exact_span_mul := fun hlt ↦ by
          rw [TimeSpan.mul, TimeSpan.mulAssign, UInt64.toNat_mul, UInt32.toNat_toUInt64]
          exact Nat.mod_eq_of_lt hlt
        exact_diff := fun _ ↦ t.toNat_sub u }

/-- **One millisecond less two** is almost the longest span there is. -/
theorem one_less_two_wraps : ¬ ∀ now t u d e k, NeverWraps now t u d e k := by
  intro hall
  exact absurd (hall 0 ⟨1⟩ ⟨0⟩ ⟨1⟩ ⟨2⟩ 1).span_sub_le (by decide)

end Libk2
