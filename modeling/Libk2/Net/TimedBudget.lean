import Libk2.Net.TcpTransfer
import Mathlib.Algebra.BigOperators.Group.List.Basic

/-!
# The timeout of a timed transfer

On the systems other than Linux, `socket_wait2` reads the clock before and after `select` and takes
the difference off the timeout, for the next round of the transfer. The difference is at least zero
even if the clock has been set back, and it is compared with the timeout before it is subtracted. So
the timeouts go down, and what is gone is what has been clocked, until nothing is left
(`timeout_accounted`).
-/

namespace Libk2

open RoundLoop

/-! ### One wait -/

/-- The milliseconds between the two readings of the clock; none if it has gone back. -/
def Waited.clocked (w : Waited) : ℕ := w.now.msec.toNat - w.preWait.msec.toNat

/-- The subtraction is guarded. -/
theorem toNat_subAssign {t waited : TimeSpan} (h : waited.gt t = false) :
    (t.subAssign waited).msec.toNat + waited.msec.toNat = t.msec.toNat := by
  have hle : waited.msec ≤ t.msec := UInt64.not_lt.1 (of_decide_eq_false h)
  rw [TimeSpan.subAssign, UInt64.toNat_sub_of_le _ _ hle]
  exact Nat.sub_add_cancel (UInt64.le_iff_toNat_le.1 hle)

/-- **What a wait leaves** of the timeout. -/
theorem toNat_socketWait2 (w : Waited) (t : TimeSpan) :
    (socketWait2 false w t).2.msec.toNat =
      if w.ret = .ready then t.msec.toNat - w.clocked else 0 := by
  have hclocked : (w.now.sub w.preWait).msec.toNat = w.clocked := w.now.toNat_sub w.preWait
  cases hret : w.ret with
  | ready =>
    rw [if_pos rfl, socketWait2, hret, if_neg (by decide)]
    cases hgt : (w.now.sub w.preWait).gt t with
    | true =>
      have hlt : t.msec < (w.now.sub w.preWait).msec := of_decide_eq_true hgt
      rw [UInt64.lt_iff_toNat_lt, hclocked] at hlt
      simp [hgt, Nat.sub_eq_zero_of_le hlt.le]
    | false =>
      have hsub := toNat_subAssign hgt
      simp only [hgt, Bool.false_eq_true, if_false]
      omega
  | timedOut =>
    rw [socketWait2, hret]
    rfl
  | failed =>
    rw [socketWait2, hret]
    rfl

/-! ### The account -/

/-- What has been clocked. -/
def clockedBy (ws : List Waited) : ℕ := (ws.map Waited.clocked).sum

/-- Either nothing is left of the timeout, or what is gone has been clocked. -/
def Accounted (timeout left : TimeSpan) (ws : List Waited) : Prop :=
  left.msec = 0 ∨ left.msec.toNat + clockedBy ws = timeout.msec.toNat

theorem Accounted.wait {timeout left : TimeSpan} {ws : List Waited}
    (h : Accounted timeout left ws) (w : Waited) :
    Accounted timeout (socketWait2 false w left).2 (ws ++ [w]) := by
  have hleft := toNat_socketWait2 w left
  have hclocked : clockedBy (ws ++ [w]) = clockedBy ws + w.clocked := by
    rw [clockedBy, clockedBy, List.map_append, List.sum_append, List.map_singleton,
      List.sum_singleton]
  rw [Accounted, hclocked, ← UInt64.toNat_inj, UInt64.toNat_zero]
  split at hleft
  · rcases h with hzero | hsum
    · rw [hzero] at hleft
      exact .inl (hleft.trans (Nat.zero_sub _))
    · omega
  · exact .inl hleft

theorem accounted_afterWaits (timeout : TimeSpan) (ws : List Waited) :
    Accounted timeout (afterWaits (socketWait2 false) timeout ws) ws := by
  induction ws using List.reverseRecOn with
  | nil => exact .inr rfl
  | append_singleton ws w ih =>
    rw [afterWaits_concat]
    exact ih.wait w

/-! ### The timed transfers -/

section Timed

variable {σ ρ : Type*}

/-- A timed transfer hands out its timeout and no more. If it is under way after `rounds`, and
`socket_wait2` gets `left` in the next one, then the transfer goes on with what that leaves; this is
no more than it got, and after a wait that was ready it is what was clocked less, down to zero, so
that nothing has wrapped around; and the account is right before and after. -/
structure HandsOut (transfer : List (Waited × ρ) → Progress (σ × TimeSpan) CallEnd)
    (timeout : TimeSpan) : Prop where
  first : ∀ s left, transfer [] = .more (s, left) → left = timeout
  le : ∀ rounds round s left, transfer rounds = .more (s, left) →
    (transfer (rounds ++ [round])).state.2.msec ≤ left.msec
  next : ∀ rounds round s left, transfer rounds = .more (s, left) →
    (transfer (rounds ++ [round])).state.2 = (socketWait2 false round.1 left).2
  no_wrap : ∀ rounds (round : Waited × ρ) s left, transfer rounds = .more (s, left) →
    round.1.ret = .ready →
    (socketWait2 false round.1 left).2.msec.toNat = left.msec.toNat - round.1.clocked
  before : ∀ rounds s left, transfer rounds = .more (s, left) →
    Accounted timeout left (rounds.map Prod.fst)
  after : ∀ rounds round s left, transfer rounds = .more (s, left) →
    Accounted timeout (transfer (rounds ++ [round])).state.2 ((rounds ++ [round]).map Prod.fst)

variable {late : CallEnd} {round : σ → ρ → Progress σ CallEnd} {s₀ : σ} {timeout : TimeSpan}

/-- The next round takes off what its wait takes off. -/
theorem state_snd_concat {rounds : List (Waited × ρ)} {s : σ} {left : TimeSpan}
    (h : loop (guarded (socketWait2 false) late round) (s₀, timeout) rounds = .more (s, left))
    (r : Waited × ρ) :
    (loop (guarded (socketWait2 false) late round) (s₀, timeout) (rounds ++ [r])).state.2 =
      (socketWait2 false r.1 left).2 := by
  rw [loop_append, h, Progress.andThen, loop_singleton]
  exact guarded_state_snd

theorem handsOut_guarded :
    HandsOut (loop (guarded (socketWait2 false) late round) (s₀, timeout)) timeout where
  first s left h := by
    cases h
    rfl
  le rounds r s left h := by
    rw [state_snd_concat h, UInt64.le_iff_toNat_le, toNat_socketWait2]
    split
    · exact Nat.sub_le _ _
    · exact Nat.zero_le _
  next rounds r s left h := state_snd_concat h r
  no_wrap rounds r s left _ hready := (toNat_socketWait2 r.1 left).trans (if_pos hready)
  before rounds s left h := by
    rw [eq_afterWaits_of_loop h]
    exact accounted_afterWaits timeout _
  after rounds r s left h := by
    rw [state_snd_concat h, eq_afterWaits_of_loop h, List.map_append, List.map_singleton]
    exact (accounted_afterWaits timeout _).wait r.1

end Timed

/-- **A timed transfer never hands out more time than it was given.** -/
theorem timeout_accounted (timeout : TimeSpan) :
    (∀ buf bytes, HandsOut (timedWriteAll false buf bytes timeout) timeout) ∧
      ∀ buf bytes m, HandsOut (timedReadAll false buf bytes timeout m) timeout :=
  ⟨fun _ _ ↦ handsOut_guarded, fun _ _ _ ↦ handsOut_guarded⟩

/-- Two waits, of 3 and of 4 milliseconds, and one during which the clock was set back. -/
example : timedWriteAll false [1, 2, 3, 4] 4 ⟨10⟩ [(⟨.ready, 0, 0, ⟨100⟩, ⟨103⟩⟩, some 1),
    (⟨.ready, 0, 0, ⟨200⟩, ⟨150⟩⟩, some 1), (⟨.ready, 0, 0, ⟨150⟩, ⟨154⟩⟩, some 1)] =
      .more ((3, [1, 2, 3]), ⟨3⟩) := rfl

end Libk2
