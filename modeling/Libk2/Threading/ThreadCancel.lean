import Libk2.Threading.ThreadLifeCycle

/-!
# Cancellation

The history of a thread's cancellation is the list of the requests that took effect, of the calls of
`cancel_enabled` and of the calls of `test_cancel`. A `test_cancel` is documented to throw exactly
if there has been a request and the flag is set (`Delivers`). It does not read the flag: along every
run it throws exactly if there has been a request (`Heeds`), so the documented rule holds exactly if
no `test_cancel` follows a request while the flag is not set.
-/

namespace Libk2

open Monitor StepSystem

/-- The cancel-enabled flag after a history. -/
def enabledAfter (log : List CancelEvent) : Bool :=
  log.foldl (fun enabled e ↦ match e with | .enabled value _ => value | _ => enabled) true

/-- The documented rule. -/
def Delivers (log : List CancelEvent) : Prop :=
  ∀ pre threw post, log = pre ++ .tested threw :: post →
    (threw = true ↔ .requested ∈ pre ∧ enabledAfter pre = true)

/-- What `test_cancel` does. -/
def Heeds (log : List CancelEvent) : Prop :=
  ∀ pre threw post, log = pre ++ .tested threw :: post → (threw = true ↔ .requested ∈ pre)

/-- A history with one more event. -/
theorem Heeds.append {log : List CancelEvent} (h : Heeds log) {e : CancelEvent}
    (he : ∀ threw, e = .tested threw → (threw = true ↔ .requested ∈ log)) : Heeds (log ++ [e]) := by
  intro pre threw post heq
  rcases List.eq_nil_or_concat post with rfl | ⟨post, e', rfl⟩
  · obtain ⟨rfl, he'⟩ := List.append_inj' heq rfl
    exact he threw (List.singleton_injective he')
  · rw [List.concat_eq_append, ← List.cons_append, ← List.append_assoc] at heq
    exact h pre threw post (List.append_inj' heq rfl).1

/-- The documented rule holds of what `test_cancel` does exactly if it is not called after a request
while the flag is not set. -/
theorem Heeds.delivers_iff_enabled {log : List CancelEvent} (h : Heeds log) :
    Delivers log ↔ ∀ pre threw post, log = pre ++ .tested threw :: post → .requested ∈ pre →
      enabledAfter pre = true := by
  constructor
  · intro hdel pre threw post heq hreq
    exact ((hdel pre threw post heq).1 ((h pre threw post heq).2 hreq)).2
  · intro henabled pre threw post heq
    rw [h pre threw post heq]
    exact ⟨fun hreq ↦ ⟨hreq, henabled pre threw post heq hreq⟩, And.left⟩

theorem ThreadData.requested_mem_record (d : ThreadData) {e : CancelEvent} (he : e ≠ .requested) :
    .requested ∈ (d.record e).log ↔ .requested ∈ d.log := by
  simp [ThreadData.record, he.symm]

namespace ThreadSys

variable {τ : Type*} {c c' : ThreadSys τ} {l : ThreadLabel τ}

/-- Until the thread exits, a request has been made exactly if it is pending. -/
structure CancelInv (d : ThreadData) : Prop where
  heeds : Heeds d.log
  pending : d.cntx.state ≠ .exited → (.requested ∈ d.log ↔ d.cntx.state = .cancelPending)

namespace CancelInv

variable {d d' : ThreadData}

theorem of_eq (h : CancelInv d) (hlog : d'.log = d.log) (hstate : d'.cntx.state = d.cntx.state) :
    CancelInv d' :=
  ⟨hlog ▸ h.heeds, by rw [hlog, hstate]; exact h.pending⟩

theorem spawner (h : CancelInv d) {p : SpawnPc} (hw : SpawnPc.Writes d p d') : CancelInv d' := by
  cases hw <;> exact h.of_eq rfl rfl

theorem thread (h : CancelInv d) {p : EntryPc} (hp : p.View d) (hw : EntryPc.Writes d p d') :
    CancelInv d' := by
  cases hw with
  | running =>
    -- nobody can have asked before the thread runs
    have hnone : .requested ∉ d.log := fun hreq ↦ by
      have hpending := (h.pending (hp.phase.trans_ne nofun)).1 hreq
      exact absurd (hp.phase.symm.trans hpending) nofun
    exact ⟨h.heeds, fun _ ↦ iff_of_false hnone nofun⟩
  | untested htls => exact absurd (hp.tls trivial) htls
  | tested =>
    have hne : d.cntx.state ≠ .exited :=
      hp.phase.elim (fun heq ↦ heq.trans_ne nofun) fun heq ↦ heq.trans_ne nofun
    refine ⟨h.heeds.append ?_,
      fun _ ↦ (d.requested_mem_record (by nofun)).trans (h.pending hne)⟩
    rintro threw ⟨⟩
    rw [decide_eq_true_iff, h.pending hne]
  | enabled value =>
    exact ⟨h.heeds.append nofun,
      fun hne ↦ (ThreadData.requested_mem_record _ (by nofun)).trans (h.pending hne)⟩
  | exited => exact ⟨h.heeds, fun hne ↦ absurd rfl hne⟩
  | _ => exact h.of_eq rfl rfl

theorem caller (h : CancelInv d) {p : CallPc} (hw : CallPc.Writes d p d') : CancelInv d' := by
  cases hw with
  | request =>
    have hmem : .requested ∈ d.log ++ [.requested] :=
      List.mem_append_right _ (List.mem_singleton_self _)
    exact ⟨h.heeds.append nofun, fun _ ↦ iff_of_true hmem rfl⟩
  | _ => exact h.of_eq rfl rfl

end CancelInv

variable [DecidableEq τ]

theorem CancelInv.step (h : CancelInv c.data) (hviews : c.Views) (hstep : c.step l = some c') :
    CancelInv c'.data := by
  obtain ⟨i, m, rfl, -, rfl⟩ | ⟨i, a, m, d, p, rfl, -, hn, rfl⟩ := Program.step_cases hstep
  · exact h
  · cases i with
    | spawner => exact h.spawner (SpawnPc.writes_of_next hn)
    | thread => exact h.thread hviews.thread (EntryPc.writes_of_next hn)
    | caller t => exact h.caller (CallPc.writes_of_next hn)

/-- Every `test_cancel` of a run throws exactly if there has been a request. -/
theorem heeds_of_run {detached : Bool} {ls : List (ThreadLabel τ)}
    (h : run step (start τ detached) ls = some c) : Heeds c.data.log := by
  have hkeep : ∀ (c : ThreadSys τ) l c', c.Views ∧ CancelInv c.data → c.step l = some c' →
      c'.Views ∧ CancelInv c'.data :=
    fun _ _ _ hc hstep ↦ ⟨hc.1.step hstep, hc.2.step hc.1 hstep⟩
  have hinit : CancelInv (start τ detached).data :=
    ⟨fun _ _ _ heq ↦ absurd heq (by simp [start, data, ThreadData.init]),
      fun _ ↦ iff_of_false List.not_mem_nil nofun⟩
  exact (run_invariant hkeep ⟨views_start τ detached, hinit⟩ h).2.heeds

/-- **Cancellation is delivered as documented** along a run exactly if no `test_cancel` is made
after a request while the flag is not set. -/
theorem delivers_iff {detached : Bool} {ls : List (ThreadLabel τ)}
    (h : run step (start τ detached) ls = some c) :
    Delivers c.data.log ↔ ∀ pre threw post, c.data.log = pre ++ .tested threw :: post →
      .requested ∈ pre → enabledAfter pre = true :=
  (heeds_of_run h).delivers_iff_enabled

/-- A call of `test_cancel`. -/
def testCancel (τ : Type*) : List (ThreadLabel τ) :=
  [.act .thread (.input .test), .act .thread .next, .act .thread .next, .act .thread .next]

/-- A call of `cancel_enabled`. -/
def cancelEnabled (τ : Type*) (value : Bool) : List (ThreadLabel τ) :=
  [.act .thread (.input (.enable value)), .act .thread .next, .act .thread .next,
    .act .thread .next]

/-- With the flag set, a request is delivered. -/
theorem delivers_iff_requested :
    ∃ c, run step (start Unit false) (startUp Unit ++ cancelBy () ++ testCancel Unit) = some c ∧
      c.data.log = [.requested, .tested true] ∧ Delivers c.data.log := by
  obtain ⟨c, hrun, hlog⟩ : ∃ c,
      run step (start Unit false) (startUp Unit ++ cancelBy () ++ testCancel Unit) = some c ∧
        c.data.log = [.requested, .tested true] := ⟨_, rfl, rfl⟩
  refine ⟨c, hrun, hlog, (delivers_iff hrun).2 fun pre threw post heq _ ↦ ?_⟩
  have hpre : pre <+: [.requested, .tested true] := ⟨_, (hlog ▸ heq).symm⟩
  have hall : ∀ pre ∈ [CancelEvent.requested, .tested true].inits, enabledAfter pre = true := by
    decide
  exact hall pre ((List.mem_inits _ _).2 hpre)

/-- **A masked request is delivered all the same.** -/
theorem delivered_while_disabled : ¬ ∀ (ls : List (ThreadLabel Unit)) (c : ThreadSys Unit),
    run step (start Unit false) ls = some c → Delivers c.data.log := by
  intro hall
  obtain ⟨c, hrun, hlog⟩ : ∃ c, run step (start Unit false)
      (startUp Unit ++ cancelEnabled Unit false ++ cancelBy () ++ testCancel Unit) = some c ∧
        c.data.log = [.enabled false true, .requested, .tested true] := ⟨_, rfl, rfl⟩
  have hthrew := (hall _ c hrun [.enabled false true, .requested] true [] hlog).1 rfl
  exact absurd hthrew.2 (by decide)

end ThreadSys

end Libk2
