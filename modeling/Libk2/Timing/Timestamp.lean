import Mathlib.Data.UInt

/-!
# `timestamp` and `time_span`

Milliseconds, as unsigned 64-bit numbers. The operators on `timestamp` come twice, on two timestamps
and with `timestamp::now` in place of one; the latter read the clock once, and that reading is their
argument `now`.

The two agree (`nowIsCurrent_iff`) except in one place: `now - t` does not stop at the zero span, as
`timestamp` minus `timestamp` does, and wraps around if `t` is still to come.
-/

namespace Libk2

/-- `one_thousand`. -/
def oneThousand : UInt64 := 1000

/-- `time_span`. -/
@[ext]
structure TimeSpan where
  msec : UInt64
deriving DecidableEq

/-- `timestamp`. -/
@[ext]
structure Timestamp where
  msec : UInt64
deriving DecidableEq

namespace TimeSpan

/-- `time_span::in_msec`. -/
def inMsec (d : TimeSpan) : UInt64 := d.msec

/-- `time_span::in_sec`. -/
def inSec (d : TimeSpan) : UInt32 := (d.msec / oneThousand).toUInt32

/-- `time_span::msec_of_sec`. -/
def msecOfSec (d : TimeSpan) : UInt16 := (d.msec % oneThousand).toUInt16

/-- `operator>` on two spans. -/
def gt (lhs rhs : TimeSpan) : Bool := lhs.inMsec > rhs.inMsec

/-- `time_span::operator+=`. -/
def addAssign (d span : TimeSpan) : TimeSpan := ⟨d.msec + span.msec⟩

/-- `time_span::operator-=`. -/
def subAssign (d span : TimeSpan) : TimeSpan := ⟨d.msec - span.msec⟩

/-- `time_span::operator*=`. -/
def mulAssign (d : TimeSpan) (mul : UInt32) : TimeSpan := ⟨d.msec * mul.toUInt64⟩

/-- `operator+`, of two spans. -/
def add (val span : TimeSpan) : TimeSpan := val.addAssign span

/-- `operator-`, of two spans. -/
def sub (val span : TimeSpan) : TimeSpan := val.subAssign span

/-- `operator*`, of a span and an unsigned integer. -/
def mul (val : TimeSpan) (mul : UInt32) : TimeSpan := val.mulAssign mul

end TimeSpan

/-- The comparisons of C++. -/
inductive Comparison where
  | eq
  | ne
  | lt
  | le
  | gt
  | ge
deriving DecidableEq

/-- Carry the comparison out. -/
def Comparison.apply : Comparison → UInt64 → UInt64 → Bool
  | .eq, a, b => a == b
  | .ne, a, b => a != b
  | .lt, a, b => a < b
  | .le, a, b => a ≤ b
  | .gt, a, b => a > b
  | .ge, a, b => a ≥ b

namespace Timestamp

/-- `timestamp::in_msec`. -/
def inMsec (t : Timestamp) : UInt64 := t.msec

/-- `timestamp::in_sec`. -/
def inSec (t : Timestamp) : UInt32 := (t.msec / oneThousand).toUInt32

/-- `timestamp::msec_of_sec`. -/
def msecOfSec (t : Timestamp) : UInt16 := (t.msec % oneThousand).toUInt16

/-! ### Comparisons -/

/-- `operator==`. -/
def eq (lhs rhs : Timestamp) : Bool := Comparison.eq.apply lhs.inMsec rhs.inMsec

/-- `operator!=`. -/
def ne (lhs rhs : Timestamp) : Bool := Comparison.ne.apply lhs.inMsec rhs.inMsec

/-- `operator<`. -/
def lt (lhs rhs : Timestamp) : Bool := Comparison.lt.apply lhs.inMsec rhs.inMsec

/-- `operator<=`. -/
def le (lhs rhs : Timestamp) : Bool := Comparison.le.apply lhs.inMsec rhs.inMsec

/-- `operator>`. -/
def gt (lhs rhs : Timestamp) : Bool := Comparison.gt.apply lhs.inMsec rhs.inMsec

/-- `operator>=`. -/
def ge (lhs rhs : Timestamp) : Bool := Comparison.ge.apply lhs.inMsec rhs.inMsec

/-- `operator==` with `now` on the right. -/
def eqNow (lhs : Timestamp) (now : UInt64) : Bool := Comparison.eq.apply lhs.inMsec now

/-- `operator!=` with `now` on the right. -/
def neNow (lhs : Timestamp) (now : UInt64) : Bool := Comparison.ne.apply lhs.inMsec now

/-- `operator<` with `now` on the right. -/
def ltNow (lhs : Timestamp) (now : UInt64) : Bool := Comparison.lt.apply lhs.inMsec now

/-- `operator<=` with `now` on the right. -/
def leNow (lhs : Timestamp) (now : UInt64) : Bool := Comparison.le.apply lhs.inMsec now

/-- `operator>` with `now` on the right. -/
def gtNow (lhs : Timestamp) (now : UInt64) : Bool := Comparison.gt.apply lhs.inMsec now

/-- `operator>=` with `now` on the right. -/
def geNow (lhs : Timestamp) (now : UInt64) : Bool := Comparison.ge.apply lhs.inMsec now

/-- `operator==` with `now` on the left. -/
def nowEq (now : UInt64) (rhs : Timestamp) : Bool := Comparison.eq.apply now rhs.inMsec

/-- `operator!=` with `now` on the left. -/
def nowNe (now : UInt64) (rhs : Timestamp) : Bool := Comparison.ne.apply now rhs.inMsec

/-- `operator<` with `now` on the left. -/
def nowLt (now : UInt64) (rhs : Timestamp) : Bool := Comparison.lt.apply now rhs.inMsec

/-- `operator<=` with `now` on the left. -/
def nowLe (now : UInt64) (rhs : Timestamp) : Bool := Comparison.le.apply now rhs.inMsec

/-- `operator>` with `now` on the left. -/
def nowGt (now : UInt64) (rhs : Timestamp) : Bool := Comparison.gt.apply now rhs.inMsec

/-- `operator>=` with `now` on the left. -/
def nowGe (now : UInt64) (rhs : Timestamp) : Bool := Comparison.ge.apply now rhs.inMsec

/-- `timestamp::expired`. -/
def expired (t : Timestamp) (now : UInt64) : Bool := t.leNow now

/-! ### Arithmetic -/

/-- `timestamp::operator+=`. -/
def addAssign (t : Timestamp) (span : TimeSpan) : Timestamp := ⟨t.msec + span.inMsec⟩

/-- `timestamp::operator-=`, of a span. -/
def subAssignSpan (t : Timestamp) (span : TimeSpan) : Timestamp := ⟨t.msec - span.inMsec⟩

/-- `timestamp::operator-=`, of a timestamp. It only computes the difference. -/
def subAssign (t rhs : Timestamp) : TimeSpan :=
  if t.msec > rhs.inMsec then ⟨t.msec - rhs.inMsec⟩ else ⟨0⟩

/-- `timestamp::operator-=`, of `now`. -/
def subAssignNow (t : Timestamp) (now : UInt64) : TimeSpan :=
  if t.msec > now then ⟨t.msec - now⟩ else ⟨0⟩

/-- The constructor from a span, which starts from `now`. -/
def ofSpan (now : UInt64) (span : TimeSpan) : Timestamp := addAssign ⟨now⟩ span

/-- `operator+`, of a timestamp and a span. -/
def add (val : Timestamp) (span : TimeSpan) : Timestamp := val.addAssign span

/-- `operator-`, of a timestamp and a span. -/
def subSpan (val : Timestamp) (span : TimeSpan) : Timestamp := val.subAssignSpan span

/-- `operator+`, of `now` and a span. -/
def nowAdd (now : UInt64) (span : TimeSpan) : Timestamp := ⟨now + span.inMsec⟩

/-- `operator-`, of `now` and a span. -/
def nowSubSpan (now : UInt64) (span : TimeSpan) : Timestamp := ⟨now - span.inMsec⟩

/-- `operator-`, of two timestamps. -/
def sub (lhs rhs : Timestamp) : TimeSpan := lhs.subAssign rhs

/-- `operator-`, of `now` and a timestamp. -/
def nowSub (now : UInt64) (rhs : Timestamp) : TimeSpan := ⟨now - rhs.inMsec⟩

/-- `operator-`, of a timestamp and `now`. -/
def subNow (lhs : Timestamp) (now : UInt64) : TimeSpan := lhs.subAssignNow now

/-- The difference of two timestamps stops at zero. -/
theorem toNat_sub (lhs rhs : Timestamp) :
    (lhs.sub rhs).msec.toNat = lhs.msec.toNat - rhs.msec.toNat := by
  rw [sub, subAssign]
  split
  · next hgt => exact UInt64.toNat_sub_of_le _ _ (UInt64.le_of_lt hgt)
  · next hle => exact (Nat.sub_eq_zero_of_le (UInt64.le_iff_toNat_le.1 (UInt64.not_lt.1 hle))).symm

/-! ### The overloads with `now` -/

/-- When the clock reads `now`, each overload gives what the one on `timestamp(now)` gives, and `t`
is expired exactly if nothing is left of `t - now`. -/
structure NowIsCurrent (now : UInt64) (t : Timestamp) (d : TimeSpan) : Prop where
  eqNow : t.eqNow now = t.eq ⟨now⟩
  neNow : t.neNow now = t.ne ⟨now⟩
  ltNow : t.ltNow now = t.lt ⟨now⟩
  leNow : t.leNow now = t.le ⟨now⟩
  gtNow : t.gtNow now = t.gt ⟨now⟩
  geNow : t.geNow now = t.ge ⟨now⟩
  nowEq : nowEq now t = eq ⟨now⟩ t
  nowNe : nowNe now t = ne ⟨now⟩ t
  nowLt : nowLt now t = lt ⟨now⟩ t
  nowLe : nowLe now t = le ⟨now⟩ t
  nowGt : nowGt now t = gt ⟨now⟩ t
  nowGe : nowGe now t = ge ⟨now⟩ t
  nowAdd : nowAdd now d = add ⟨now⟩ d
  nowSubSpan : nowSubSpan now d = subSpan ⟨now⟩ d
  nowSub : nowSub now t = sub ⟨now⟩ t
  subNow : t.subNow now = t.sub ⟨now⟩
  subAssignNow : t.subAssignNow now = t.subAssign ⟨now⟩
  expired : t.expired now = true ↔ t.subNow now = ⟨0⟩

/-- `now - t` stops at the zero span exactly if `t` is not still to come. -/
theorem nowSub_eq_sub_iff (now : UInt64) (t : Timestamp) :
    nowSub now t = sub ⟨now⟩ t ↔ t.msec ≤ now := by
  rcases UInt64.lt_or_le t.msec now with hlt | hge
  · exact iff_of_true (if_pos hlt).symm (UInt64.le_of_lt hlt)
  · have hclamped : sub ⟨now⟩ t = ⟨0⟩ := if_neg (UInt64.not_lt.2 hge)
    rw [hclamped, nowSub, inMsec, TimeSpan.mk.injEq, UInt64.sub_eq_iff_eq_add, UInt64.zero_add]
    exact ⟨fun heq ↦ UInt64.le_of_eq heq.symm, fun hle ↦ UInt64.le_antisymm hge hle⟩

theorem expired_iff (now : UInt64) (t : Timestamp) :
    t.expired now = true ↔ t.subNow now = ⟨0⟩ := by
  rw [show t.expired now = decide (t.msec ≤ now) from rfl, decide_eq_true_iff]
  rcases UInt64.lt_or_le now t.msec with hlt | hge
  · have hleft : t.subNow now = ⟨t.msec - now⟩ := if_pos hlt
    rw [hleft, TimeSpan.mk.injEq, UInt64.sub_eq_iff_eq_add, UInt64.zero_add]
    exact iff_of_false (UInt64.not_le.2 hlt) (UInt64.ne_of_lt hlt).symm
  · exact iff_of_true hge (if_neg (UInt64.not_lt.2 hge))

/-- **`now` is the current timestamp** exactly if `t` is not still to come. -/
theorem nowIsCurrent_iff (now : UInt64) (t : Timestamp) (d : TimeSpan) :
    NowIsCurrent now t d ↔ t.msec ≤ now := by
  refine ⟨fun h ↦ (nowSub_eq_sub_iff now t).1 h.nowSub, fun hle ↦ ?_⟩
  exact ⟨rfl, rfl, rfl, rfl, rfl, rfl, rfl, rfl, rfl, rfl, rfl, rfl, rfl, rfl,
    (nowSub_eq_sub_iff now t).2 hle, rfl, rfl, expired_iff now t⟩

/-- **A timestamp one millisecond away.** `now - t` is almost the longest span there is. -/
theorem nowSub_wraps : ¬ ∀ now t d, NowIsCurrent now t d := by
  intro hall
  exact absurd (hall 0 ⟨1⟩ ⟨0⟩).nowSub (by decide)

end Timestamp

end Libk2
