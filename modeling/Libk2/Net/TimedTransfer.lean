import Libk2.Net.TcpTransfer
import Mathlib.Algebra.BigOperators.Group.List.Basic

/-!
# Why a timed transfer ends

Of what a timed loop gets in its rounds, only what `select` returned and how many bytes went through
decide how it ends: `timedWriteAll` and `timedReadAll` both run like `countRound`, which sees
nothing else, and the reasons are worked out there.

Every reason is the true one except for one: `socket_wait2` returns `false` when `select` fails, so
a failed `select` is reported as a wait that ran out.
-/

namespace Libk2

open RoundLoop

/-- What a round gets: from `select`, and a number of bytes from `send` or `recv`. -/
abbrev RoundResult := SelectRet × Option ℕ

/-! ### What the results say -/

/-- The rounds were all ready and moved `counts` bytes. A count of zero ends a read. -/
structure Moved (closes : Bool) (rounds : List RoundResult) (counts : List ℕ) : Prop where
  eq_map : rounds = counts.map fun k ↦ (.ready, some k)
  pos : closes = true → 0 ∉ counts

/-- The rounds were all ready and moved bytes, and at no time as many as `bytes`. -/
def UnderWay (closes : Bool) (bytes : ℕ) (rounds : List RoundResult) : Prop :=
  ∃ counts, Moved closes rounds counts ∧ ∀ p, p <+: counts → p.sum ≠ bytes

/-- The reason for which a transfer of `bytes` bytes ends is the true one. -/
structure TrueReason (closes : Bool) (bytes : ℕ) (rounds : List RoundResult)
    (reason : Option CallEnd) : Prop where
  returned_iff : reason = some (.returned bytes) ↔
    ∃ pre post counts, rounds = pre ++ post ∧ Moved closes pre counts ∧ counts.sum = bytes
  closed_iff : reason = some (.returned 0) ↔
    closes = true ∧ ∃ pre post, rounds = pre ++ (.ready, some 0) :: post ∧ UnderWay closes bytes pre
  connection_iff : reason = some (.threw .connection) ↔
    ∃ pre post, rounds = pre ++ (.ready, none) :: post ∧ UnderWay closes bytes pre
  timedout : reason = some (.threw .timedout) →
    ∃ pre ret post, rounds = pre ++ (.timedOut, ret) :: post ∧ UnderWay closes bytes pre
  none_iff : reason = none ↔ UnderWay closes bytes rounds

/-- `select` does not fail in the round in which the transfer ends. -/
def NoSelectFails (closes : Bool) (bytes : ℕ) (rounds : List RoundResult) : Prop :=
  ∀ pre ret post, rounds = pre ++ (.failed, ret) :: post → ¬ UnderWay closes bytes pre

/-! ### The loop over the counts -/

/-- A round of a timed transfer, over `bytes_done` alone. -/
def countRound (closes : Bool) (bytes : ℕ) : ℕ → RoundResult → Progress ℕ CallEnd
  | bytesDone, (.ready, none) => .ended bytesDone (.threw .connection)
  | bytesDone, (.ready, some k) =>
    if closes = true ∧ k = 0 then .ended bytesDone (.returned 0)
    else if bytesDone + k = bytes then .ended (bytesDone + k) (.returned bytes)
    else .more (bytesDone + k)
  | bytesDone, (.timedOut, _) => .ended bytesDone (.threw .timedout)
  | bytesDone, (.failed, _) => .ended bytesDone (.threw .timedout)

section CountRound

variable {closes : Bool} {bytes bytesDone d : ℕ} {r : RoundResult} {rounds : List RoundResult}

theorem countRound_eq_more_iff :
    countRound closes bytes bytesDone r = .more d ↔ ∃ k, r = (.ready, some k) ∧
      (closes = true → k ≠ 0) ∧ bytesDone + k ≠ bytes ∧ d = bytesDone + k := by
  match r with
  | (.ready, none) => simp [countRound]
  | (.ready, some k) =>
    rw [countRound]
    split_ifs with hzero hdone
    · simp [hzero.1, hzero.2]
    · simp [hdone]
    · have hpos : closes = true → k ≠ 0 := not_and.1 hzero
      constructor
      · rintro ⟨rfl⟩
        exact ⟨k, rfl, hpos, hdone, rfl⟩
      · rintro ⟨k', hk, -, -, rfl⟩
        cases hk
        rfl
  | (.timedOut, _) => simp [countRound]
  | (.failed, _) => simp [countRound]

theorem countRound_outcome_returned (hbytes : 0 < bytes) :
    (countRound closes bytes bytesDone r).outcome = some (.returned bytes) ↔
      ∃ k, r = (.ready, some k) ∧ (closes = true → k ≠ 0) ∧ bytesDone + k = bytes := by
  match r with
  | (.ready, none) => simp [countRound, Progress.outcome]
  | (.ready, some k) =>
    rw [countRound]
    split_ifs with hzero hdone
    · simp [Progress.outcome, hzero.1, hzero.2, hbytes.ne]
    · exact iff_of_true rfl ⟨k, rfl, not_and.1 hzero, hdone⟩
    · simp [Progress.outcome, hdone]
  | (.timedOut, _) => simp [countRound, Progress.outcome]
  | (.failed, _) => simp [countRound, Progress.outcome]

theorem countRound_outcome_closed (hbytes : 0 < bytes) :
    (countRound closes bytes bytesDone r).outcome = some (.returned 0) ↔
      closes = true ∧ r = (.ready, some 0) := by
  match r with
  | (.ready, none) => simp [countRound, Progress.outcome]
  | (.ready, some k) =>
    rw [countRound]
    split_ifs with hzero hdone
    · simp [Progress.outcome, hzero.1, hzero.2]
    · simpa [Progress.outcome, hbytes.ne'] using hzero
    · simpa [Progress.outcome] using hzero
  | (.timedOut, _) => simp [countRound, Progress.outcome]
  | (.failed, _) => simp [countRound, Progress.outcome]

theorem countRound_outcome_connection :
    (countRound closes bytes bytesDone r).outcome = some (.threw .connection) ↔
      r = (.ready, none) := by
  match r with
  | (.ready, none) => simp [countRound, Progress.outcome]
  | (.ready, some k) =>
    rw [countRound]
    split_ifs <;> simp [Progress.outcome]
  | (.timedOut, _) => simp [countRound, Progress.outcome]
  | (.failed, _) => simp [countRound, Progress.outcome]

theorem countRound_outcome_timedout :
    (countRound closes bytes bytesDone r).outcome = some (.threw .timedout) ↔
      r.1 = .timedOut ∨ r.1 = .failed := by
  match r with
  | (.ready, none) => simp [countRound, Progress.outcome]
  | (.ready, some k) =>
    rw [countRound]
    split_ifs <;> simp [Progress.outcome]
  | (.timedOut, _) => simp [countRound, Progress.outcome]
  | (.failed, _) => simp [countRound, Progress.outcome]

/-- **Under way** is what the results say it is. -/
theorem loop_countRound_eq_more_iff :
    loop (countRound closes bytes) bytesDone rounds = .more d ↔ ∃ counts,
      Moved closes rounds counts ∧ (∀ p, p <+: counts → p ≠ [] → bytesDone + p.sum ≠ bytes) ∧
      d = bytesDone + counts.sum := by
  induction rounds generalizing bytesDone with
  | nil =>
    constructor
    · rintro ⟨rfl⟩
      exact ⟨[], ⟨rfl, fun _ ↦ List.not_mem_nil⟩,
        fun p hp hne ↦ absurd (List.prefix_nil.1 hp) hne, rfl⟩
    · rintro ⟨counts, hmoved, -, rfl⟩
      obtain rfl : counts = [] := List.map_eq_nil_iff.1 hmoved.eq_map.symm
      rfl
  | cons r rounds ih =>
    have hcons : loop (countRound closes bytes) bytesDone (r :: rounds) = .more d ↔
        ∃ d', countRound closes bytes bytesDone r = .more d' ∧
          loop (countRound closes bytes) d' rounds = .more d := by
      rw [loop_cons]
      cases countRound closes bytes bytesDone r <;> simp [Progress.andThen]
    simp only [hcons, countRound_eq_more_iff, ih]
    constructor
    · rintro ⟨-, ⟨k, rfl, hk, hnot, rfl⟩, counts, hmoved, hprefix, rfl⟩
      refine ⟨k :: counts, ⟨by rw [hmoved.eq_map]; rfl, fun hc hmem ↦ ?_⟩, ?_, ?_⟩
      · exact (List.mem_cons.1 hmem).elim (fun h ↦ hk hc h.symm) (hmoved.pos hc)
      · rintro (_ | ⟨k', p⟩) hp hne
        · exact absurd rfl hne
        · obtain ⟨rfl, hrest⟩ := List.cons_prefix_cons.1 hp
          rw [List.sum_cons, ← Nat.add_assoc]
          rcases eq_or_ne p [] with rfl | hp'
          · exact hnot
          · exact hprefix p hrest hp'
      · rw [List.sum_cons, Nat.add_assoc]
    · rintro ⟨_ | ⟨k, counts⟩, hmoved, hprefix, rfl⟩
      · exact absurd hmoved.eq_map (List.cons_ne_nil _ _)
      · obtain ⟨rfl, hrounds⟩ := List.cons_eq_cons.1 hmoved.eq_map
        refine ⟨bytesDone + k, ⟨k, rfl, fun hc hk ↦ ?_, ?_, rfl⟩, counts,
          ⟨hrounds, fun hc hmem ↦ ?_⟩, fun p hp hne ↦ ?_, ?_⟩
        · exact hmoved.pos hc (hk ▸ List.mem_cons_self)
        · simpa using hprefix [k] (List.prefix_append [k] counts) (List.cons_ne_nil _ _)
        · exact hmoved.pos hc (List.mem_cons_of_mem _ hmem)
        · rw [Nat.add_assoc, ← List.sum_cons]
          exact hprefix (k :: p) (List.cons_prefix_cons.2 ⟨rfl, hp⟩) (List.cons_ne_nil _ _)
        · rw [List.sum_cons, Nat.add_assoc]

theorem underWay_iff (hbytes : 0 < bytes) :
    UnderWay closes bytes rounds ↔ ∃ d, loop (countRound closes bytes) 0 rounds = .more d := by
  simp only [loop_countRound_eq_more_iff, Nat.zero_add, UnderWay]
  constructor
  · rintro ⟨counts, hmoved, hprefix⟩
    exact ⟨_, counts, hmoved, fun p hp _ ↦ hprefix p hp, rfl⟩
  · rintro ⟨-, counts, hmoved, hprefix, rfl⟩
    refine ⟨counts, hmoved, fun p hp ↦ ?_⟩
    rcases eq_or_ne p [] with rfl | hne
    · exact hbytes.ne
    · exact hprefix p hp hne

/-- The last round. -/
theorem outcome_eq_some_iff {e : CallEnd} :
    (loop (countRound closes bytes) 0 rounds).outcome = some e ↔ ∃ pre r post bytesDone,
      rounds = pre ++ r :: post ∧ loop (countRound closes bytes) 0 pre = .more bytesDone ∧
      (countRound closes bytes bytesDone r).outcome = some e := by
  simp only [Progress.outcome_eq_some_iff, loop_eq_ended_iff]
  constructor
  · rintro ⟨d, pre, r, post, u, hrounds, hpre, hr⟩
    exact ⟨pre, r, post, u, hrounds, hpre, d, hr⟩
  · rintro ⟨pre, r, post, u, hrounds, hpre, d, hr⟩
    exact ⟨d, pre, r, post, u, hrounds, hpre, hr⟩

theorem outcome_returned_iff (hbytes : 0 < bytes) :
    (loop (countRound closes bytes) 0 rounds).outcome = some (.returned bytes) ↔
      ∃ pre post counts, rounds = pre ++ post ∧ Moved closes pre counts ∧ counts.sum = bytes := by
  constructor
  · intro h
    obtain ⟨pre, r, post, d, rfl, hpre, hr⟩ := outcome_eq_some_iff.1 h
    obtain ⟨k, rfl, hk, hsum⟩ := (countRound_outcome_returned hbytes).1 hr
    obtain ⟨counts, hmoved, -, rfl⟩ := loop_countRound_eq_more_iff.1 hpre
    refine ⟨pre ++ [(.ready, some k)], post, counts ++ [k], by simp, ⟨?_, fun hc hmem ↦ ?_⟩, ?_⟩
    · rw [hmoved.eq_map, List.map_append]
      rfl
    · rcases List.mem_append.1 hmem with hmem | hmem
      · exact hmoved.pos hc hmem
      · exact hk hc (List.mem_singleton.1 hmem).symm
    · rw [List.sum_append, List.sum_singleton, ← hsum, Nat.zero_add]
  · rintro ⟨pre, post, counts, rfl, hmoved, hsum⟩
    -- the loop has left after `pre`, and there it can only have returned
    cases hpre : loop (countRound closes bytes) 0 pre with
    | more d =>
      obtain ⟨counts', hmoved', hprefix⟩ := (underWay_iff hbytes).2 ⟨d, hpre⟩
      have hcounts : counts' = counts := by
        have heq := hmoved'.eq_map.symm.trans hmoved.eq_map
        refine List.map_injective_iff.2 (fun k k' h ↦ ?_) heq
        exact Option.some.inj (Prod.mk.inj h).2
      exact absurd hsum (hcounts ▸ hprefix counts' (List.prefix_refl counts'))
    | ended d e =>
      rw [loop_append_of_ended hpre]
      obtain ⟨pre', r, post', d', hpre', -, hr⟩ := loop_eq_ended_iff.1 hpre
      have hmem : r ∈ pre := by simp [hpre']
      rw [hmoved.eq_map, List.mem_map] at hmem
      obtain ⟨k, hk, rfl⟩ := hmem
      rw [countRound] at hr
      split_ifs at hr with hzero hdone
      · exact absurd (hzero.2 ▸ hk) (hmoved.pos hzero.1)
      · cases hr
        rfl

theorem outcome_closed_iff (hbytes : 0 < bytes) :
    (loop (countRound closes bytes) 0 rounds).outcome = some (.returned 0) ↔ closes = true ∧
      ∃ pre post, rounds = pre ++ (.ready, some 0) :: post ∧ UnderWay closes bytes pre := by
  simp only [outcome_eq_some_iff, countRound_outcome_closed hbytes, underWay_iff hbytes]
  constructor
  · rintro ⟨pre, _, post, d, hrounds, hpre, hc, rfl⟩
    exact ⟨hc, pre, post, hrounds, d, hpre⟩
  · rintro ⟨hc, pre, post, hrounds, d, hpre⟩
    exact ⟨pre, _, post, d, hrounds, hpre, hc, rfl⟩

theorem outcome_connection_iff (hbytes : 0 < bytes) :
    (loop (countRound closes bytes) 0 rounds).outcome = some (.threw .connection) ↔
      ∃ pre post, rounds = pre ++ (.ready, none) :: post ∧ UnderWay closes bytes pre := by
  simp only [outcome_eq_some_iff, countRound_outcome_connection, underWay_iff hbytes]
  constructor
  · rintro ⟨pre, _, post, d, hrounds, hpre, rfl⟩
    exact ⟨pre, post, hrounds, d, hpre⟩
  · rintro ⟨pre, post, hrounds, d, hpre⟩
    exact ⟨pre, _, post, d, hrounds, hpre, rfl⟩

theorem outcome_timedout_iff (hbytes : 0 < bytes) :
    (loop (countRound closes bytes) 0 rounds).outcome = some (.threw .timedout) ↔
      ∃ pre sel ret post, rounds = pre ++ (sel, ret) :: post ∧ UnderWay closes bytes pre ∧
        (sel = .timedOut ∨ sel = .failed) := by
  simp only [outcome_eq_some_iff, countRound_outcome_timedout, underWay_iff hbytes]
  constructor
  · rintro ⟨pre, ⟨sel, ret⟩, post, d, hrounds, hpre, hr⟩
    exact ⟨pre, sel, ret, post, hrounds, ⟨d, hpre⟩, hr⟩
  · rintro ⟨pre, sel, ret, post, hrounds, ⟨d, hpre⟩, hr⟩
    exact ⟨pre, (sel, ret), post, d, hrounds, hpre, hr⟩

theorem outcome_none_iff (hbytes : 0 < bytes) :
    (loop (countRound closes bytes) 0 rounds).outcome = none ↔ UnderWay closes bytes rounds := by
  rw [underWay_iff hbytes]
  cases loop (countRound closes bytes) 0 rounds <;> simp [Progress.outcome]

/-- A round of a transfer that is under way was ready. -/
theorem UnderWay.ready (h : UnderWay closes bytes rounds) (hr : r ∈ rounds) : r.1 = .ready := by
  obtain ⟨counts, hmoved, -⟩ := h
  rw [hmoved.eq_map, List.mem_map] at hr
  obtain ⟨k, -, rfl⟩ := hr
  rfl

/-- Only one round can be the first that was not ready. -/
theorem not_ready_unique {pre pre' post post' : List RoundResult} {r' : RoundResult}
    (h : pre ++ r :: post = pre' ++ r' :: post') (hpre : UnderWay closes bytes pre)
    (hpre' : UnderWay closes bytes pre') (hr : r.1 ≠ .ready) (hr' : r'.1 ≠ .ready) : r = r' := by
  rcases List.append_eq_append_iff.1 h with ⟨_ | ⟨x, xs⟩, hmid, hrest⟩ | ⟨_ | ⟨x, xs⟩, hmid, hrest⟩
  · exact (List.cons_eq_cons.1 hrest).1
  · obtain ⟨rfl, -⟩ := List.cons_eq_cons.1 hrest
    exact absurd (hpre'.ready (hmid ▸ by simp)) hr
  · exact (List.cons_eq_cons.1 hrest).1.symm
  · obtain ⟨rfl, -⟩ := List.cons_eq_cons.1 hrest
    exact absurd (hpre.ready (hmid ▸ by simp)) hr'

/-- **The loop over the counts** gives the true reason exactly if no `select` fails. -/
theorem trueReason_countRound_iff (hbytes : 0 < bytes) :
    TrueReason closes bytes rounds (loop (countRound closes bytes) 0 rounds).outcome ↔
      NoSelectFails closes bytes rounds := by
  constructor
  · rintro htrue pre ret post rfl hpre
    obtain ⟨pre', ret', post', heq, hpre'⟩ := htrue.timedout <|
      (outcome_timedout_iff hbytes).2 ⟨pre, .failed, ret, post, rfl, hpre, .inr rfl⟩
    cases not_ready_unique heq hpre hpre' nofun nofun
  · intro hno
    refine ⟨outcome_returned_iff hbytes, outcome_closed_iff hbytes, outcome_connection_iff hbytes,
      fun h ↦ ?_, outcome_none_iff hbytes⟩
    obtain ⟨pre, sel, ret, post, hrounds, hpre, rfl | rfl⟩ := (outcome_timedout_iff hbytes).1 h
    · exact ⟨pre, ret, post, hrounds, hpre⟩
    · exact absurd hpre (hno pre ret post hrounds)

end CountRound

/-! ### Timed loops -/

section Timed

variable {σ ρ : Type*} {closes : Bool} {bytes : ℕ} {count : ρ → Option ℕ}
  {round : ℕ × σ → ρ → Progress (ℕ × σ) CallEnd}

/-- What a round of a timed transfer gets, without the rest. -/
def roundResult (count : ρ → Option ℕ) (round : Waited × ρ) : RoundResult :=
  (round.1.ret, count round.2)

theorem guarded_round_map
    (h : ∀ s r, (round s r).map Prod.fst = countRound closes bytes s.1 (.ready, count r))
    (linux : Bool) (s : (ℕ × σ) × TimeSpan) (r : Waited × ρ) :
    (guarded (socketWait2 linux) (.threw .timedout) round s r).map (fun s ↦ s.1.1) =
      countRound closes bytes s.1.1 (roundResult count r) := by
  obtain ⟨s, timeout⟩ := s
  obtain ⟨w, ret⟩ := r
  cases hw : w.ret with
  | ready =>
    rw [guarded_of_passes (by rw [socketWait2_fst, hw]; rfl), roundResult, hw, ← h s ret]
    cases round s ret <;> rfl
  | timedOut =>
    rw [guarded_of_not_passes (by rw [socketWait2_fst, hw]; rfl), roundResult, hw]
    rfl
  | failed =>
    rw [guarded_of_not_passes (by rw [socketWait2_fst, hw]; rfl), roundResult, hw]
    rfl

/-- **A timed loop** ends for the true reason exactly if no `select` fails. -/
theorem trueReason_guarded_iff (hbytes : 0 < bytes)
    (h : ∀ s r, (round s r).map Prod.fst = countRound closes bytes s.1 (.ready, count r))
    (linux : Bool) (s : σ) (timeout : TimeSpan) (rounds : List (Waited × ρ)) :
    TrueReason closes bytes (rounds.map (roundResult count))
        (loop (guarded (socketWait2 linux) (.threw .timedout) round) ((0, s), timeout)
          rounds).outcome ↔
      NoSelectFails closes bytes (rounds.map (roundResult count)) := by
  rw [← Progress.outcome_map (fun s ↦ s.1.1), loop_map (guarded_round_map h linux)]
  exact trueReason_countRound_iff hbytes

end Timed

/-! ### The two transfers -/

/-- What a round of a timed write gets, without the rest. -/
def writeResult (round : Waited × Option ℕ) : RoundResult := (round.1.ret, round.2)

/-- What a round of a timed read gets, without the rest. -/
def readResult (round : Waited × Option (List UInt8)) : RoundResult :=
  (round.1.ret, round.2.map List.length)

theorem tcpWriteAllRound_map (buf : List UInt8) (bytes : ℕ) (s : ℕ × List UInt8)
    (ret : Option ℕ) :
    (tcpWriteAllRound buf bytes s ret).map Prod.fst =
      countRound false bytes s.1 (.ready, id ret) := by
  cases ret with
  | none => rfl
  | some k =>
    rw [id_eq, countRound, if_neg (by simp), tcpWriteAllRound, tcpWrite]
    dsimp only
    split_ifs <;> rfl

theorem tcpReadAllRound_map (buf bytes : ℕ) (s : ℕ × ByteMemory) (ret : Option (List UInt8)) :
    (tcpReadAllRound buf bytes s ret).map Prod.fst =
      countRound true bytes s.1 (.ready, ret.map List.length) := by
  cases ret with
  | none => rfl
  | some data =>
    rw [Option.map_some, countRound, tcpReadAllRound, tcpRead]
    simp only [true_and]
    split_ifs <;> rfl

/-- The timed `tcp_write_all` ends for the true reason and, if it has written everything, has sent
what the untimed one sends. -/
structure WriteAllTruthful (linux : Bool) (buf : List UInt8) (bytes : ℕ) (timeout : TimeSpan)
    (rounds : List (Waited × Option ℕ)) : Prop where
  reason : TrueReason false bytes (rounds.map writeResult)
    (timedWriteAll linux buf bytes timeout rounds).outcome
  untimed : ∀ s t, timedWriteAll linux buf bytes timeout rounds = .ended (s, t) (.returned bytes) →
    tcpWriteAll buf bytes (rounds.map Prod.snd) = .ended s (.returned bytes)

/-- The timed `tcp_read_all` ends for the true reason and, if it has read everything, leaves in
memory what the untimed one leaves. -/
structure ReadAllTruthful (linux : Bool) (buf bytes : ℕ) (timeout : TimeSpan) (m : ByteMemory)
    (rounds : List (Waited × Option (List UInt8))) : Prop where
  reason : TrueReason true bytes (rounds.map readResult)
    (timedReadAll linux buf bytes timeout m rounds).outcome
  untimed : ∀ s t,
    timedReadAll linux buf bytes timeout m rounds = .ended (s, t) (.returned bytes) →
      tcpReadAll buf bytes m (rounds.map Prod.snd) = .ended s (.returned bytes)

/-- **Timed transfers** end for the true reason exactly if `select` does not fail in the round in
which they end. -/
theorem timed_truthful_iff {bytes : ℕ} (hbytes : 0 < bytes) (linux : Bool) (timeout : TimeSpan) :
    (∀ buf rounds, WriteAllTruthful linux buf bytes timeout rounds ↔
      NoSelectFails false bytes (rounds.map writeResult)) ∧
    (∀ buf m rounds, ReadAllTruthful linux buf bytes timeout m rounds ↔
      NoSelectFails true bytes (rounds.map readResult)) := by
  constructor
  · intro buf rounds
    have hreason := trueReason_guarded_iff hbytes (tcpWriteAllRound_map buf bytes) linux []
      timeout rounds
    refine ⟨fun h ↦ hreason.1 h.reason, fun h ↦ ⟨hreason.2 h, fun s t hend ↦ ?_⟩⟩
    rw [timedWriteAll, timedWriteAllRound] at hend
    exact loop_eq_ended_of_guarded (by simp) hend
  · intro buf m rounds
    have hreason := trueReason_guarded_iff hbytes (tcpReadAllRound_map buf bytes) linux m
      timeout rounds
    refine ⟨fun h ↦ hreason.1 h.reason, fun h ↦ ⟨hreason.2 h, fun s t hend ↦ ?_⟩⟩
    rw [timedReadAll, timedReadAllRound] at hend
    exact loop_eq_ended_of_guarded (by simp) hend

/-- `select` returned this, at no cost of time. -/
def waitedFor (ret : SelectRet) : Waited := ⟨ret, 0, 0, ⟨0⟩, ⟨0⟩⟩

/-- Two bytes, one at a time. -/
theorem timed_truthful_two :
    ReadAllTruthful true 16 2 ⟨5⟩ (fun _ ↦ 0)
      [(waitedFor .ready, some [7]), (waitedFor .ready, some [8])] := by
  refine ((timed_truthful_iff (by decide) true ⟨5⟩).2 16 (fun _ ↦ 0) _).2 fun pre ret post h ↦ ?_
  have hmem : (SelectRet.failed, ret) ∈ pre ++ (.failed, ret) :: post := by simp
  rw [← h] at hmem
  simp [readResult, waitedFor] at hmem

/-- **A failed `select`** is reported as a wait that ran out. -/
theorem failed_select_times_out :
    ¬ ∀ (linux : Bool) (buf bytes : ℕ) (timeout : TimeSpan) (m : ByteMemory)
      (rounds : List (Waited × Option (List UInt8))), 0 < bytes →
        ReadAllTruthful linux buf bytes timeout m rounds := by
  intro h
  have htrue := (h true 16 2 ⟨5⟩ (fun _ ↦ 0) [(waitedFor .failed, none)] (by decide)).reason
  obtain ⟨pre, ret, post, hrounds, -⟩ := htrue.timedout rfl
  have hmem : (SelectRet.timedOut, ret) ∈ pre ++ (.timedOut, ret) :: post := by simp
  rw [← hrounds] at hmem
  simp [readResult, waitedFor] at hmem

end Libk2
