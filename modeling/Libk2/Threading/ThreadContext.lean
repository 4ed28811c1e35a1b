import Libk2.Threading.ThreadJoin

/-!
# The life of the context

The context is deleted in three places: by the spawner if `pthread_create` fails, by the wrapper of
a detached thread, and by `~thread`. The wrapper deletes it in the scope of a guard on its mutex,
and the spawner may not have seen the thread run yet. `~thread` deletes it while other calls on the
object may be in progress. As long as neither happens (`Released`), whoever uses the context finds
it alive (`context_used_alive`), and along a run that is exactly the condition for nobody ever to be
caught between two uses by the delete (`context_safe_iff`).
-/

namespace Libk2

open Monitor StepSystem

/-! ### Who uses the context -/

/-- From the start of `spawn_impl` to its return. -/
def SpawnPc.InUse (p : SpawnPc) : Prop := p ≠ .returned ∧ p ≠ .failed

/-- From the start of the wrapper to its end. -/
def EntryPc.InUse (p : EntryPc) : Prop := p ≠ .notStarted ∧ p ≠ .atReturn ∧ p ≠ .finished

/-- During a call. -/
def CallPc.InUse (p : CallPc) : Prop := p ≠ .idle ∧ p ≠ .destroyed

/-- In `~thread`, before it has deleted the context. -/
def CallPc.InDestructor : CallPc → Prop
  | .joinLock k | .joinCheck k | .joinWait k | .joinAsleep k | .joinUnlock k => k = .destructor
  | .atPthreadJoin | .atDelete => True
  | _ => False

namespace Party

variable {τ : Type*}

/-- The party is between its first and its last use of the context. -/
def InUse : ∀ i : Party τ, i.Pc → Prop
  | .spawner, p => SpawnPc.InUse p
  | .thread, p => EntryPc.InUse p
  | .caller _, p => CallPc.InUse p

/-- The party's next step locks or unlocks the mutex, waits on the condition variable or signals it,
reads or writes a member, or deletes the context. -/
def Uses : ∀ i : Party τ, i.Pc → Prop
  | .spawner, p => p = SpawnPc.atCreate ∨ (SpawnPc.code p).Uses
  | .thread, p => p = EntryPc.atDelete ∨ (EntryPc.code p).Uses
  | .caller _, p => p = CallPc.atPthreadJoin ∨ p = CallPc.atDelete ∨ (CallPc.code p).Uses

theorem inUse_of_uses {i : Party τ} {p : i.Pc} (h : i.Uses p) : i.InUse p := by
  cases i with
  | spawner =>
    refine ⟨?_, ?_⟩ <;> rintro rfl <;> exact h.elim nofun id
  | thread =>
    refine ⟨?_, ?_, ?_⟩ <;> rintro rfl <;> exact h.elim nofun id
  | caller t =>
    refine ⟨?_, ?_⟩ <;> rintro rfl <;> exact h.elim nofun fun h ↦ h.elim nofun id

end Party

/-! ### What keeps it alive -/

/-- The spawner finds the context alive. -/
def SpawnPc.Safe (p : SpawnPc) (d : ThreadData) : Prop := p.InUse → d.alive = true

/-- The thread finds the context alive, also when it starts. -/
structure EntryPc.Safe (p : EntryPc) (d : ThreadData) : Prop where
  alive : p.InUse → d.alive = true
  created : p ≠ .notStarted → d.created = true
  start : p = .notStarted → d.created = true → d.alive = true

/-- A caller finds the context alive, and deletes it only in the destructor. -/
structure CallPc.Safe (p : CallPc) (d : ThreadData) : Prop where
  alive : p.InUse → d.alive = true
  destroying : p.InDestructor → d.destroying = true

/-- So does each party. -/
def Party.Safe {τ : Type*} : ∀ i : Party τ, ThreadData → i.Pc → Prop
  | .spawner, d, p => SpawnPc.Safe p d
  | .thread, d, p => EntryPc.Safe p d
  | .caller _, d, p => CallPc.Safe p d

/-- A new call finds the context alive. -/
def ThreadData.Open (d : ThreadData) : Prop :=
  d.constructed = true → d.destroying = false → d.alive = true

namespace SpawnPc

variable {p q : SpawnPc} {d d' : ThreadData} {τ : Type*} {a : Choice (Party τ) ThreadInput}

theorem Safe.next (h : p.Safe d) (hn : p.code.next d a = some (d', q)) : q.Safe d' := by
  intro hq
  cases moves_of_next hn with
  | fail => exact absurd rfl hq.2
  | construct => exact absurd rfl hq.1
  | _ => exact h ⟨nofun, nofun⟩

theorem Writes.open (hw : Writes d p d') (hv : p.View d) (h : p.Safe d) (hopen : d.Open) :
    d'.Open := by
  cases hw with
  | fail => exact fun hc ↦ absurd (hv.2.symm.trans hc) Bool.false_ne_true
  | construct => exact fun _ _ ↦ h ⟨nofun, nofun⟩
  | _ => exact hopen

/-- What the spawner writes leaves the thread safe. -/
theorem Writes.entrySafe (hw : Writes d p d') (hv : p.View d) (h : p.Safe d) {e : EntryPc}
    (he : e.Safe d) : e.Safe d' := by
  cases hw with
  | create => exact ⟨he.alive, fun _ ↦ rfl, fun _ _ ↦ h ⟨nofun, nofun⟩⟩
  | fail =>
    have hnot : d.created ≠ true := fun hc ↦ Bool.false_ne_true (hv.1.symm.trans hc)
    exact ⟨fun huse ↦ absurd (he.created huse.1) hnot, he.created, fun _ hc ↦ absurd hc hnot⟩
  | _ => exact ⟨he.alive, he.created, he.start⟩

/-- What the spawner writes leaves the callers safe. -/
theorem Writes.callSafe (hw : Writes d p d') (hv : p.View d) {c : CallPc} (hc : c.View d)
    (h : c.Safe d) : c.Safe d' := by
  cases hw with
  | fail =>
    have hidle : c = .idle := by
      by_contra hne
      exact Bool.false_ne_true (hv.2.symm.trans (hc.constructed hne))
    exact ⟨fun huse ↦ absurd hidle huse.1, h.destroying⟩
  | _ => exact ⟨h.alive, h.destroying⟩

end SpawnPc

namespace EntryPc

variable {p q : EntryPc} {d d' : ThreadData} {τ : Type*} {a : Choice (Party τ) ThreadInput}

theorem Writes.alive_eq (hw : Writes d p d') (hp : p ≠ .atDelete) : d'.alive = d.alive := by
  cases hw with
  | delete => exact absurd rfl hp
  | _ => rfl

theorem Writes.destroying_eq (hw : Writes d p d') : d'.destroying = d.destroying := by
  cases hw <;> rfl

/-- Unless the thread deletes the context, what it writes does not concern the others. -/
theorem Writes.open (hw : Writes d p d') (hp : p ≠ .atDelete) (hopen : d.Open) : d'.Open := by
  intro hc hdes
  rw [hw.sameSpawn.constructed_eq] at hc
  rw [hw.destroying_eq] at hdes
  exact (hw.alive_eq hp).trans (hopen hc hdes)

theorem Writes.callSafe (hw : Writes d p d') (hp : p ≠ .atDelete) {c : CallPc} (h : c.Safe d) :
    c.Safe d' where
  alive huse := (hw.alive_eq hp).trans (h.alive huse)
  destroying hdes := hw.destroying_eq.trans (h.destroying hdes)

theorem Safe.next (h : p.Safe d) (hp : p ≠ .atDelete) (hn : p.code.next d a = some (d', q)) :
    q.Safe d' := by
  cases moves_of_next hn with
  | start hd => exact ⟨fun _ ↦ h.start rfl hd, fun _ ↦ hd, nofun⟩
  | delete => exact absurd rfl hp
  | leave => exact ⟨fun huse ↦ absurd rfl huse.2.2, fun _ ↦ h.created nofun, nofun⟩
  | _ => exact ⟨fun _ ↦ h.alive ⟨nofun, nofun, nofun⟩, fun _ ↦ h.created nofun, nofun⟩

end EntryPc

namespace CallPc

variable {p q : CallPc} {d d' : ThreadData} {τ : Type*} {a : Choice (Party τ) ThreadInput}

theorem Writes.alive_eq (hw : Writes d p d') (hp : p ≠ .atDelete) : d'.alive = d.alive := by
  cases hw with
  | delete => exact absurd rfl hp
  | _ => rfl

theorem Writes.destroying (hw : Writes d p d') (h : d.destroying = true) :
    d'.destroying = true := by
  cases hw with
  | destroy => rfl
  | _ => exact h

/-- Unless a caller deletes the context, what it writes does not concern the others. -/
theorem Writes.entrySafe (hw : Writes d p d') (hp : p ≠ .atDelete) {e : EntryPc} (h : e.Safe d) :
    e.Safe d' where
  alive huse := (hw.alive_eq hp).trans (h.alive huse)
  created he := hw.sameSpawn.created_eq.trans (h.created he)
  start he hc := (hw.alive_eq hp).trans (h.start he (hw.sameSpawn.created_eq.symm.trans hc))

theorem Writes.callSafe (hw : Writes d p d') (hp : p ≠ .atDelete) {c : CallPc} (h : c.Safe d) :
    c.Safe d' where
  alive huse := (hw.alive_eq hp).trans (h.alive huse)
  destroying hdes := hw.destroying (h.destroying hdes)

/-- The deletion comes after everything else. -/
theorem Writes.open (hw : Writes d p d') (h : p.Safe d) (hopen : d.Open) : d'.Open := by
  cases hw with
  | destroy => exact fun _ hdes ↦ absurd hdes Bool.noConfusion
  | delete => exact fun _ hdes ↦ absurd (hdes.symm.trans (h.destroying trivial)) Bool.false_ne_true
  | _ => exact hopen

theorem Safe.next (h : p.Safe d) (hopen : d.Open) (hn : p.code.next d a = some (d', q)) :
    q.Safe d' := by
  cases moves_of_next hn with
  | cancel hd => exact ⟨fun _ ↦ hopen hd.1 hd.2, nofun⟩
  | join hd => exact ⟨fun _ ↦ hopen hd.1 hd.2, nofun⟩
  | timedJoin hd => exact ⟨fun _ ↦ hopen hd.1 hd.2, nofun⟩
  | destroy hd => exact ⟨fun _ ↦ hopen hd.1 hd.2, fun _ ↦ rfl⟩
  | cancelUnlock => exact ⟨fun huse ↦ absurd rfl huse.1, nofun⟩
  | joined => exact ⟨fun huse ↦ absurd rfl huse.1, nofun⟩
  | joinedInDestructor => exact ⟨fun _ ↦ h.alive ⟨nofun, nofun⟩, fun _ ↦ h.destroying rfl⟩
  | timedUnlock ret => exact ⟨fun huse ↦ absurd rfl huse.1, nofun⟩
  | delete => exact ⟨fun huse ↦ absurd rfl huse.2, nofun⟩
  | _ => exact ⟨fun _ ↦ h.alive ⟨nofun, nofun⟩, h.destroying⟩

end CallPc

namespace ThreadSys

variable {τ : Type*} {c c' : ThreadSys τ} {l : ThreadLabel τ} {d : ThreadData}

/-- **The condition.** The wrapper does not delete the context, and when `~thread` does, no other
call is in progress. -/
def Released (c : ThreadSys τ) (l : ThreadLabel τ) : Prop :=
  ((∃ a, l = .act .thread a) → c.threadPc ≠ .atDelete) ∧
    ∀ t, (∃ a, l = .act (.caller t) a) → c.callerPc t = .atDelete → ∀ u ≠ t, c.callerPc u = .idle

/-- Whoever is between its first and its last use of the context finds it alive. -/
def ContextSafe (c : ThreadSys τ) : Prop := ∀ i : Party τ, i.InUse (c.pos i) → c.data.alive = true

/-- A step that uses the context, or deletes it, finds it alive. -/
def UsesAlive (c : ThreadSys τ) (l : ThreadLabel τ) : Prop :=
  ∀ i a, l = .act i a → i.Uses (c.pos i) → c.data.alive = true

/-- The views are right, and everybody is safe. -/
def AllSafe (c : ThreadSys τ) : Prop :=
  (threadProgram τ).Asserts ThreadData.Open (fun i d p ↦ i.View d p ∧ i.Safe d p) c

namespace AllSafe

theorem views (h : c.AllSafe) : c.Views := ⟨trivial, fun i ↦ ⟨(h.2 i).1, (h.2 i).2.1⟩⟩

theorem safe (h : c.AllSafe) (i : Party τ) : i.Safe c.shared.data (c.pos i) := (h.2 i).2.2

theorem own (h : c.AllSafe) {i : Party τ} {a : Choice (Party τ) ThreadInput} {p : i.Pc}
    (hl : c.Released (.act i a))
    (hn : ((threadProgram τ).code i (c.pos i)).next c.shared.data a = some (d, p)) :
    d.Open ∧ i.Safe d p := by
  cases i with
  | spawner =>
    have hsafe := h.safe .spawner
    exact ⟨(SpawnPc.writes_of_next hn).open h.views.spawner hsafe h.1, hsafe.next hn⟩
  | thread =>
    have hpc := hl.1 ⟨a, rfl⟩
    exact ⟨(EntryPc.writes_of_next hn).open hpc h.1, (h.safe .thread).next hpc hn⟩
  | caller t =>
    have hsafe := h.safe (.caller t)
    exact ⟨(CallPc.writes_of_next hn).open hsafe h.1, hsafe.next h.1 hn⟩

/-- When `~thread` deletes the context, nobody else has a use for it. -/
theorem others_of_delete (h : c.AllSafe) {t : τ} (hpc : c.callerPc t = .atDelete)
    (hidle : ∀ u ≠ t, c.callerPc u = .idle) {j : Party τ} (hjt : j ≠ .caller t)
    (hd : d = { c.data with alive := false }) : j.Safe d (c.pos j) := by
  have hview := h.views.caller t
  rw [hpc] at hview
  cases j with
  | spawner => exact fun huse ↦ absurd (h.views.spawner.returned hview.1) huse.1
  | thread =>
    have hsafe := h.safe .thread
    have hgone : c.threadPc = .finished :=
      EntryPc.eq_finished (h.views.thread.finished.2 hview.2.2)
    subst hd
    exact ⟨fun huse ↦ absurd hgone huse.2.2, hsafe.created,
      fun hstart _ ↦ absurd (hgone.symm.trans hstart) nofun⟩
  | caller u =>
    have hu : c.callerPc u = .idle := hidle u fun heq ↦ hjt (congrArg _ heq)
    show CallPc.Safe (c.callerPc u) d
    rw [hu]
    exact ⟨fun huse ↦ absurd rfl huse.1, False.elim⟩

theorem others (h : c.AllSafe) {i : Party τ} {a : Choice (Party τ) ThreadInput} {p : i.Pc}
    (hl : c.Released (.act i a))
    (hn : ((threadProgram τ).code i (c.pos i)).next c.shared.data a = some (d, p)) {j : Party τ}
    (hji : j ≠ i) : j.Safe d (c.pos j) := by
  cases i with
  | spawner =>
    have hw := SpawnPc.writes_of_next hn
    have hsafe := h.safe .spawner
    cases j with
    | spawner => exact absurd rfl hji
    | thread => exact hw.entrySafe h.views.spawner hsafe (h.safe .thread)
    | caller u => exact hw.callSafe h.views.spawner (h.views.caller u) (h.safe (.caller u))
  | thread =>
    have hw := EntryPc.writes_of_next hn
    have hpc := hl.1 ⟨a, rfl⟩
    cases j with
    | spawner => exact fun huse ↦ (hw.alive_eq hpc).trans (h.safe .spawner huse)
    | thread => exact absurd rfl hji
    | caller u => exact hw.callSafe hpc (h.safe (.caller u))
  | caller t =>
    have hw := CallPc.writes_of_next hn
    by_cases hpc : c.callerPc t = .atDelete
    · refine h.others_of_delete hpc (hl.2 t ⟨a, rfl⟩ hpc) hji ?_
      replace hn : (c.callerPc t).code.next c.data a = some (d, p) := hn
      rw [hpc] at hn
      cases (Instr.next_other hn).2
      rfl
    · cases j with
      | spawner => exact fun huse ↦ (hw.alive_eq hpc).trans (h.safe .spawner huse)
      | thread => exact hw.entrySafe hpc (h.safe .thread)
      | caller u => exact hw.callSafe hpc (h.safe (.caller u))

theorem contextSafe (h : c.AllSafe) : c.ContextSafe := by
  intro i huse
  cases i with
  | spawner => exact h.safe .spawner huse
  | thread => exact (h.safe .thread).alive huse
  | caller t => exact (h.safe (.caller t)).alive huse

/-- **One step** that meets the condition keeps everybody safe. -/
theorem step [DecidableEq τ] (h : c.AllSafe) (hl : c.Released l) (hstep : c.step l = some c') :
    c'.AllSafe := by
  refine Program.asserts_step (G := Released) ?_ ?_ c l c' h hl hstep
  · intro c i a d p (h : AllSafe c) hl hn
    obtain ⟨hopen, hsafe⟩ := h.own hl hn
    exact ⟨hopen, h.views.own hn, hsafe⟩
  · intro c i a d p (h : AllSafe c) hl hn j hji hexcl
    exact ⟨h.views.others hn hji hexcl, h.others hl hn hji⟩

end AllSafe

theorem allSafe_start (τ : Type*) (detached : Bool) : (start τ detached).AllSafe := by
  refine ⟨fun hc ↦ absurd hc Bool.false_ne_true, fun i ↦ ?_⟩
  obtain ⟨hseen, hview⟩ := (views_start τ detached).2 i
  refine ⟨hseen, hview, ?_⟩
  cases i with
  | spawner => exact fun _ ↦ rfl
  | thread => exact ⟨fun _ ↦ rfl, fun hne ↦ absurd rfl hne, fun _ _ ↦ rfl⟩
  | caller t => exact ⟨fun _ ↦ rfl, False.elim⟩

variable [DecidableEq τ]

theorem allSafe_of_run {detached : Bool} {ls : List (ThreadLabel τ)}
    (h : EveryStep step Released (start τ detached) ls) :
    EveryState step AllSafe (start τ detached) ls :=
  everyState_of_everyStep (fun _ _ _ hc hl hstep ↦ hc.step hl hstep) (allSafe_start τ detached) h

/-- **The context is not used after its deletion**, nor deleted twice, along a run in which neither
the wrapper nor a hasty `~thread` deletes it. -/
theorem context_used_alive {detached : Bool} {ls : List (ThreadLabel τ)}
    (h : EveryStep step Released (start τ detached) ls) :
    EveryStep step UsesAlive (start τ detached) ls := by
  refine (allSafe_of_run h).everyStep ?_
  rintro c l hsafe i a rfl huse
  exact hsafe.contextSafe i (Party.inUse_of_uses huse)

/-- An attached thread that is joined and destroyed. -/
def lifeOf {τ : Type*} (t : τ) : List (ThreadLabel τ) :=
  startUp τ ++ exitTo none ++ [.act (.caller t) (.input .destroy), .act (.caller t) .next,
    .act (.caller t) .next, .act (.caller t) .next, .act (.caller t) .next, .act (.caller t) .next]

/-- A step that breaks the condition leaves somebody behind who still has a use for the context. -/
theorem not_contextSafe_of_step (hviews : c.Views) (hsafe : c.ContextSafe) (hl : ¬ c.Released l)
    (hstep : c.step l = some c') : ¬ c'.ContextSafe := by
  intro hsafe'
  refine hl ⟨?_, ?_⟩
  · rintro ⟨a, rfl⟩ hpc
    obtain ⟨i, m, ⟨⟩, -⟩ | ⟨i, b, m, d, p, ⟨⟩, -, hn, rfl⟩ := Program.step_cases hstep
    replace hn : c.threadPc.code.next c.data a = some (d, p) := hn
    rw [hpc] at hn
    cases (Instr.next_other hn).2
    -- the guard's destructor is still to come
    have huse : EntryPc.InUse (Function.update c.pos .thread EntryPc.atExitUnlock .thread) := by
      rw [Function.update_self]
      exact ⟨nofun, nofun, nofun⟩
    exact Bool.false_ne_true (hsafe' .thread huse)
  · rintro t ⟨a, rfl⟩ hpc u hut
    obtain ⟨i, m, ⟨⟩, -⟩ | ⟨i, b, m, d, p, ⟨⟩, -, hn, rfl⟩ := Program.step_cases hstep
    replace hn : (c.callerPc t).code.next c.data a = some (d, p) := hn
    rw [hpc] at hn
    cases (Instr.next_other hn).2
    have hinUse : CallPc.InUse (c.callerPc t) := by
      rw [hpc]
      exact ⟨nofun, nofun⟩
    have halive : c.data.alive = true := hsafe (.caller t) hinUse
    have hpresent : c.callerPc u ≠ .destroyed := fun hgone ↦ by
      have hview := hviews.caller u
      rw [hgone] at hview
      exact Bool.false_ne_true (hview.2.symm.trans halive)
    by_contra hidle
    have huse : CallPc.InUse (Function.update c.pos (.caller t) CallPc.destroyed (.caller u)) := by
      rw [Function.update_of_ne fun heq ↦ hut (Party.caller.inj heq)]
      exact ⟨hidle, hpresent⟩
    exact Bool.false_ne_true (hsafe' (.caller u) huse)

/-- **Along a run**, nobody is caught between two uses of the context by its deletion exactly if the
condition is met. -/
theorem context_safe_iff {detached : Bool} {ls : List (ThreadLabel τ)} {c : ThreadSys τ}
    (h : run step (start τ detached) ls = some c) :
    EveryState step ContextSafe (start τ detached) ls ↔
      EveryStep step Released (start τ detached) ls :=
  everyState_iff_everyStep (fun _ hc ↦ hc.contextSafe) (fun _ _ _ hc hl hstep ↦ hc.step hl hstep)
    (fun _ _ _ hc hl hstep ↦ not_contextSafe_of_step hc.views hc.contextSafe hl hstep)
    (allSafe_start τ detached) h

/-- The wrapper of an attached thread does not delete the context. -/
theorem threadPc_ne_atDelete {ls : List (ThreadLabel τ)} {c : ThreadSys τ}
    (h : run step (start τ false) ls = some c) : c.threadPc ≠ .atDelete := by
  have hkeep : ∀ (c : ThreadSys τ) l c', c.Views ∧ c.data.cntx.detached = false →
      c.step l = some c' → c'.Views ∧ c'.data.cntx.detached = false :=
    fun _ _ _ hc hstep ↦ ⟨hc.1.step hstep, (hc.1.detached_eq hstep).trans hc.2⟩
  obtain ⟨hviews, hattached⟩ := run_invariant hkeep ⟨views_start τ false, rfl⟩ h
  intro hpc
  have hbranch := hviews.thread.branch
  rw [hpc] at hbranch
  exact Bool.false_ne_true (hattached.symm.trans hbranch)

theorem context_used_alive_destroyed :
    ∃ c : ThreadSys Unit, run step (start Unit false) (lifeOf ()) = some c ∧ c.data.alive = false ∧
      EveryStep step UsesAlive (start Unit false) (lifeOf ()) := by
  obtain ⟨c, hrun, halive⟩ : ∃ c : ThreadSys Unit,
      run step (start Unit false) (lifeOf ()) = some c ∧ c.data.alive = false := ⟨_, rfl, rfl⟩
  refine ⟨c, hrun, halive, context_used_alive fun _ _ _ c _ hc ↦ ⟨fun _ ↦ ?_, ?_⟩⟩
  · exact threadPc_ne_atDelete hc
  · exact fun _ _ _ _ hne ↦ absurd rfl hne

/-- A detached thread that has deleted its context. -/
def detachedLife (τ : Type*) : List (ThreadLabel τ) :=
  startUp τ ++ [.act .thread (.input (.finish .returned)), .act .thread .next, .act .thread .next,
    .act .thread .next, .act .thread .next, .act .thread .next, .act .thread .next]

/-- **A detached thread** deletes the context in the scope of a guard on its mutex, and the guard
then unlocks it. -/
theorem detached_unlocks_deleted : ¬ ∀ (detached : Bool) (ls : List (ThreadLabel Unit))
    (c : ThreadSys Unit), run step (start Unit detached) ls = some c →
      EveryStep step UsesAlive (start Unit detached) ls := by
  intro hall
  obtain ⟨c, hrun⟩ : ∃ c, run step (start Unit true) (detachedLife Unit ++ [.act .thread .next]) =
      some c := ⟨_, rfl⟩
  obtain ⟨c', hrun', hpc, halive⟩ : ∃ c', run step (start Unit true) (detachedLife Unit) = some c' ∧
      c'.threadPc = .atExitUnlock ∧ c'.data.alive = false := ⟨_, rfl, rfl, rfl⟩
  have huse : Party.Uses .thread (c'.pos .thread) := by
    rw [show c'.pos .thread = .atExitUnlock from hpc]
    exact .inr trivial
  have hstep := hall true _ c hrun _ _ [] c' rfl hrun' .thread .next rfl huse
  exact Bool.false_ne_true (halive.symm.trans hstep)

end ThreadSys

end Libk2
