import Libk2.Foundation.StepSystem
import Mathlib.Data.Int.Notation
import Mathlib.Logic.Function.Basic

/-!
# Child processes

The parent side of `process_impl::create`, on POSIX, and `join_and_destroy`: a `process` object has
the id that `fork` returned, and its destructor waits for the child with that id. `create_detached`
keeps nothing. There is a test for the child, where `fork` returns 0, and none for a failure, where
it returns -1; and the destructor calls `waitpid` once and does not look at what it returns.

`ProcessSys` is a process that makes and destroys such objects in any order, next to code with
children of its own. `children_accounted` says when each object has its child and each attached
child its object: a `process` with the id -1 waits for any child there is, and takes it from its
object.
-/

namespace Libk2

open StepSystem

/-! ### The parent -/

/-- `process_impl`. The handle is the id again. -/
structure ProcessImpl where
  mId : ℤ
deriving DecidableEq

/-- What the parent does in `process_impl::create` when `fork` has returned `pid`. No object:
`bad_alloc`, if there is no memory for it. -/
def ProcessImpl.create (pid : ℤ) (detachedState allocated : Bool) : Option (Option ProcessImpl) :=
  if detachedState then some none else if allocated then some (some ⟨pid⟩) else none

/-- Who is to wait for a child: the object that its creation was for, nobody, or other code. -/
inductive ChildOwner where
  | object (i : ℕ)
  | detached
  | foreign
deriving DecidableEq

/-- A child, until it has been waited for. -/
structure ChildProcess where
  pid : ℤ
  owner : ChildOwner
  exited : Bool
deriving DecidableEq

/-- How `waitpid` returns: a child that has exited is gone, a signal came first, or there is no such
child. -/
inductive WaitAnswer where
  | reaped (pid : ℤ)
  | interrupted
  | noChild
deriving DecidableEq

/-- The children that `waitpid(id)` is about. -/
def ChildProcess.Matches (id : ℤ) (c : ChildProcess) : Prop := id = -1 ∨ c.pid = id

instance (id : ℤ) (c : ChildProcess) : Decidable (c.Matches id) :=
  inferInstanceAs (Decidable (_ ∨ _))

/-- `waitpid(id, 0, 0)`: the children afterwards. It does not return before one has exited. -/
def waitpid (children : List ChildProcess) (id : ℤ) : WaitAnswer → Option (List ChildProcess)
  | .reaped pid =>
    if ∃ c ∈ children, c.pid = pid ∧ c.Matches id ∧ c.exited = true then
      some (children.filter fun c ↦ c.pid ≠ pid)
    else none
  | .interrupted => if ∃ c ∈ children, c.Matches id then some children else none
  | .noChild => if ∀ c ∈ children, ¬ c.Matches id then some children else none

/-- `process_impl::join_and_destroy`: what it leaves of the children. -/
def ProcessImpl.joinAndDestroy (impl : ProcessImpl) (children : List ChildProcess) :
    WaitAnswer → Option (List ChildProcess) :=
  waitpid children impl.mId

/-! ### Objects and children -/

/-- The children there are, and the objects that live. -/
structure ProcessSys where
  children : List ChildProcess
  objects : ℕ → Option ProcessImpl

/-- An object is made or destroyed, a detached child is made, or other code makes one; a child
exits, or other code waits for one of its own. -/
inductive ProcessAction where
  | create (i : ℕ) (fork : ℤ) (allocated : Bool)
  | createDetached (fork : ℤ)
  | destroy (i : ℕ) (answer : WaitAnswer)
  | exits (pid : ℤ)
  | foreignFork (pid : ℤ)
  | foreignWait (pid : ℤ)

namespace ProcessSys

/-- No children and no objects. -/
def start : ProcessSys := ⟨[], fun _ ↦ none⟩

/-- What `fork` may return: -1, or the id of a new child. -/
def Forks (s : ProcessSys) (fork : ℤ) : Prop :=
  fork = -1 ∨ 0 < fork ∧ ∀ c ∈ s.children, c.pid ≠ fork

instance (s : ProcessSys) (fork : ℤ) : Decidable (s.Forks fork) :=
  inferInstanceAs (Decidable (_ ∨ _ ∧ _))

/-- The children after a `fork`. -/
def forked (s : ProcessSys) (fork : ℤ) (owner : ChildOwner) : List ChildProcess :=
  if fork = -1 then s.children else s.children ++ [⟨fork, owner, false⟩]

def step (s : ProcessSys) : ProcessAction → Option ProcessSys
  | .create i fork allocated =>
    if (s.objects i).isNone ∧ s.Forks fork then
      some ⟨s.forked fork (.object i),
        Function.update s.objects i (ProcessImpl.create fork false allocated).join⟩
    else none
  | .createDetached fork =>
    if s.Forks fork then some { s with children := s.forked fork .detached } else none
  | .destroy i answer =>
    (s.objects i).bind fun impl ↦ (impl.joinAndDestroy s.children answer).map fun children ↦
      ⟨children, Function.update s.objects i none⟩
  | .exits pid =>
    some { s with
      children := s.children.map fun c ↦ if c.pid = pid then { c with exited := true } else c }
  | .foreignFork pid =>
    if pid ≠ -1 ∧ s.Forks pid then some { s with children := s.forked pid .foreign } else none
  | .foreignWait pid =>
    if ∃ c ∈ s.children, c.pid = pid ∧ c.owner = .foreign ∧ c.exited = true then
      some { s with children := s.children.filter fun c ↦ c.pid ≠ pid }
    else none

/-! ### What is to hold -/

/-- Every object has its child, and every child that was made for an object has that object. -/
structure Paired (s : ProcessSys) : Prop where
  child : ∀ i impl, s.objects i = some impl →
    ∃ c ∈ s.children, c.pid = impl.mId ∧ c.owner = .object i
  object : ∀ c ∈ s.children, ∀ i, c.owner = .object i → s.objects i = some ⟨c.pid⟩

/-- A child that is waited for has exited, and it is its owner who waits. -/
def WaitsRight (s : ProcessSys) (a : ProcessAction) : Prop :=
  ∀ t, s.step a = some t → ∀ c ∈ s.children,
    (∃ c' ∈ t.children, c'.pid = c.pid ∧ c'.owner = c.owner) ∨
      c.exited = true ∧ (c.owner = .foreign ∧ a = .foreignWait c.pid ∨
        ∃ i answer, c.owner = .object i ∧ a = .destroy i answer)

/-- `fork` fails for an object only if there is no memory either, and the other way round; and no
signal gets a destructor out of `waitpid`. -/
def Orderly (_ : ProcessSys) : ProcessAction → Prop
  | .create _ fork allocated => fork ≠ -1 ↔ allocated = true
  | .destroy _ answer => answer ≠ .interrupted
  | _ => True

/-- Ids are positive, and tell the children apart. -/
structure Ids (s : ProcessSys) : Prop where
  pos : ∀ c ∈ s.children, 0 < c.pid
  distinct : ∀ c ∈ s.children, ∀ c' ∈ s.children, c.pid = c'.pid → c = c'

variable {s t : ProcessSys} {a : ProcessAction}

/-! ### The list of children -/

theorem mem_forked {fork : ℤ} {owner : ChildOwner} {c : ChildProcess} :
    c ∈ s.forked fork owner ↔ c ∈ s.children ∨ fork ≠ -1 ∧ c = ⟨fork, owner, false⟩ := by
  rw [forked]
  split
  · simp [*]
  · simp [*]

theorem mem_exits {pid : ℤ} {c : ChildProcess} (h : c ∈ s.children.map fun c ↦
    if c.pid = pid then { c with exited := true } else c) :
    ∃ c₀ ∈ s.children, c.pid = c₀.pid ∧ c.owner = c₀.owner ∧
      c = if c₀.pid = pid then { c₀ with exited := true } else c₀ := by
  obtain ⟨c₀, hc₀, rfl⟩ := List.mem_map.1 h
  refine ⟨c₀, hc₀, ?_⟩
  split <;> exact ⟨rfl, rfl, rfl⟩

/-- What a `waitpid` that returns leaves: everything, or everything but a child that has exited. -/
theorem waitpid_cases {children children' : List ChildProcess} {id : ℤ} {answer : WaitAnswer}
    (h : waitpid children id answer = some children') :
    (answer = .interrupted ∧ children' = children) ∨
      (answer = .noChild ∧ (∀ c ∈ children, ¬ c.Matches id) ∧ children' = children) ∨
      ∃ c ∈ children, answer = .reaped c.pid ∧ c.Matches id ∧ c.exited = true ∧
        children' = children.filter fun c' ↦ c'.pid ≠ c.pid := by
  cases answer with
  | reaped pid =>
    obtain ⟨⟨c, hc, rfl, hmatches, hexited⟩, heq⟩ := Option.ite_none_right_eq_some.1 h
    exact .inr (.inr ⟨c, hc, rfl, hmatches, hexited, (Option.some.inj heq).symm⟩)
  | interrupted =>
    exact .inl ⟨rfl, (Option.some.inj (Option.ite_none_right_eq_some.1 h).2).symm⟩
  | noChild =>
    obtain ⟨hnone, heq⟩ := Option.ite_none_right_eq_some.1 h
    exact .inr (.inl ⟨rfl, hnone, (Option.some.inj heq).symm⟩)

/-! ### Ids -/

theorem Ids.forked (h : s.Ids) {fork : ℤ} {owner : ChildOwner} (hforks : s.Forks fork) :
    Ids { s with children := s.forked fork owner } where
  pos c hc := by
    rcases mem_forked.1 hc with hc | ⟨hfork, rfl⟩
    · exact h.pos c hc
    · exact (hforks.resolve_left hfork).1
  distinct c hc c' hc' heq := by
    rcases mem_forked.1 hc with hc | ⟨hfork, rfl⟩ <;>
      rcases mem_forked.1 hc' with hc' | ⟨hfork', rfl⟩
    · exact h.distinct c hc c' hc' heq
    · exact absurd heq ((hforks.resolve_left hfork').2 c hc)
    · exact absurd heq.symm ((hforks.resolve_left hfork).2 c' hc')
    · rfl

theorem Ids.filter (h : s.Ids) (p : ChildProcess → Bool) (objects : ℕ → Option ProcessImpl) :
    Ids ⟨s.children.filter p, objects⟩ where
  pos c hc := h.pos c (List.mem_of_mem_filter hc)
  distinct c hc c' hc' := h.distinct c (List.mem_of_mem_filter hc) c' (List.mem_of_mem_filter hc')

theorem Ids.step (h : s.Ids) (hstep : s.step a = some t) : t.Ids := by
  cases a with
  | create i fork allocated =>
    obtain ⟨⟨-, hforks⟩, heq⟩ := Option.ite_none_right_eq_some.1 hstep
    cases heq
    exact ⟨(h.forked hforks).pos, (h.forked hforks).distinct⟩
  | createDetached fork =>
    obtain ⟨hforks, heq⟩ := Option.ite_none_right_eq_some.1 hstep
    cases heq
    exact h.forked hforks
  | destroy i answer =>
    obtain ⟨impl, -, hmap⟩ := Option.bind_eq_some_iff.1 hstep
    obtain ⟨children, hwait, rfl⟩ := Option.map_eq_some_iff.1 hmap
    obtain ⟨-, rfl⟩ | ⟨-, -, rfl⟩ | ⟨c, -, -, -, -, rfl⟩ := waitpid_cases hwait
    · exact ⟨h.pos, h.distinct⟩
    · exact ⟨h.pos, h.distinct⟩
    · exact h.filter _ _
  | exits pid =>
    cases hstep
    refine ⟨fun c hc ↦ ?_, fun c hc c' hc' heq ↦ ?_⟩
    · obtain ⟨c₀, hc₀, hpid, -⟩ := mem_exits hc
      exact hpid ▸ h.pos c₀ hc₀
    · obtain ⟨c₀, hc₀, hpid, -, rfl⟩ := mem_exits hc
      obtain ⟨c₁, hc₁, hpid', -, rfl⟩ := mem_exits hc'
      rw [h.distinct c₀ hc₀ c₁ hc₁ (hpid.symm.trans (heq.trans hpid'))]
  | foreignFork pid =>
    obtain ⟨⟨-, hforks⟩, heq⟩ := Option.ite_none_right_eq_some.1 hstep
    cases heq
    exact h.forked hforks
  | foreignWait pid =>
    obtain ⟨-, heq⟩ := Option.ite_none_right_eq_some.1 hstep
    cases heq
    exact h.filter _ _

/-! ### Objects and their children -/

/-- Making an object, if `fork` and the allocation go well or neither does. -/
theorem Paired.create (h : s.Paired) {i : ℕ} {fork : ℤ} {allocated : Bool}
    (hnone : s.objects i = none) (hagree : fork ≠ -1 ↔ allocated = true) :
    Paired ⟨s.forked fork (.object i),
      Function.update s.objects i (ProcessImpl.create fork false allocated).join⟩ := by
  by_cases hfork : fork = -1
  · obtain rfl : allocated = false := Bool.eq_false_iff.2 fun hmem ↦ hagree.2 hmem hfork
    have hobjects : Function.update s.objects i (ProcessImpl.create fork false false).join =
        s.objects := by
      show Function.update s.objects i none = s.objects
      rw [← hnone, Function.update_eq_self]
    rw [hobjects, ProcessSys.forked, if_pos hfork]
    exact ⟨h.child, h.object⟩
  · obtain rfl : allocated = true := hagree.1 hfork
    show Paired ⟨s.forked fork (.object i), Function.update s.objects i (some ⟨fork⟩)⟩
    refine ⟨fun j impl hj ↦ ?_, fun c hc j hj ↦ ?_⟩
    · rcases eq_or_ne j i with rfl | hne
      · obtain rfl : ⟨fork⟩ = impl := by simpa using hj
        exact ⟨_, mem_forked.2 (.inr ⟨hfork, rfl⟩), rfl, rfl⟩
      · obtain ⟨c, hc, hpid, howner⟩ :=
          h.child j impl ((Function.update_of_ne hne ..).symm.trans hj)
        exact ⟨c, mem_forked.2 (.inl hc), hpid, howner⟩
    · rcases mem_forked.1 hc with hc | ⟨-, rfl⟩
      · have hobject := h.object c hc j hj
        have hne : j ≠ i := by
          rintro rfl
          rw [hnone] at hobject
          cases hobject
        exact (Function.update_of_ne hne ..).trans hobject
      · cases hj
        exact Function.update_self ..

/-- **The destructor** waits for the child of its object. -/
theorem Paired.reaps_own (h : s.Paired) (hids : s.Ids) {i : ℕ} {impl : ProcessImpl}
    {children : List ChildProcess} {answer : WaitAnswer} (hi : s.objects i = some impl)
    (hwait : impl.joinAndDestroy s.children answer = some children) (ha : answer ≠ .interrupted) :
    ∃ c ∈ s.children, c.owner = .object i ∧ c.exited = true ∧
      children = s.children.filter fun c' ↦ c'.pid ≠ c.pid := by
  obtain ⟨own, hown, hpid, howner⟩ := h.child i impl hi
  obtain ⟨hinterrupted, -⟩ | ⟨-, hnone, -⟩ | ⟨c, hc, -, hmatches, hexited, rfl⟩ :=
    waitpid_cases hwait
  · exact absurd hinterrupted ha
  · exact absurd (.inr hpid) (hnone own hown)
  · have hne : impl.mId ≠ -1 := by
      have := hids.pos own hown
      omega
    obtain rfl := hids.distinct c hc own hown ((hmatches.resolve_left hne).trans hpid.symm)
    exact ⟨c, hc, howner, hexited, rfl⟩

/-- The child of one object goes with it. -/
theorem Paired.destroy (h : s.Paired) (hids : s.Ids) {i : ℕ} {c : ChildProcess}
    (hc : c ∈ s.children) (howner : c.owner = .object i) :
    Paired ⟨s.children.filter fun c' ↦ c'.pid ≠ c.pid, Function.update s.objects i none⟩ where
  child j impl hj := by
    rcases eq_or_ne j i with rfl | hne
    · cases (Function.update_self ..).symm.trans hj
    · obtain ⟨c', hc', hpid, howner'⟩ :=
        h.child j impl ((Function.update_of_ne hne ..).symm.trans hj)
      refine ⟨c', List.mem_filter.2 ⟨hc', decide_eq_true fun heq ↦ hne ?_⟩, hpid, howner'⟩
      rw [hids.distinct c' hc' c hc heq, howner] at howner'
      exact (ChildOwner.object.inj howner').symm
  object c' hc' j hj := by
    obtain ⟨hmem, hpid⟩ := List.mem_filter.1 hc'
    have hobject := h.object c' hmem j hj
    have hne : j ≠ i := by
      rintro rfl
      have hself := (h.object c hc j howner).symm.trans hobject
      exact of_decide_eq_true hpid (ProcessImpl.mk.inj (Option.some.inj hself)).symm
    exact (Function.update_of_ne hne ..).trans hobject

/-- As long as the children of objects stay. -/
theorem Paired.of_children (h : s.Paired) {children : List ChildProcess}
    (hkeep : ∀ c ∈ s.children, ∀ i, c.owner = .object i →
      ∃ c' ∈ children, c'.pid = c.pid ∧ c'.owner = c.owner)
    (hold : ∀ c ∈ children, ∀ i, c.owner = .object i →
      ∃ c' ∈ s.children, c.pid = c'.pid ∧ c.owner = c'.owner) :
    Paired { s with children } where
  child i impl hi := by
    obtain ⟨c, hc, hpid, howner⟩ := h.child i impl hi
    obtain ⟨c', hc', hpid', howner'⟩ := hkeep c hc i howner
    exact ⟨c', hc', hpid'.trans hpid, howner'.trans howner⟩
  object c hc i hi := by
    obtain ⟨c', hc', hpid, howner⟩ := hold c hc i hi
    rw [hpid]
    exact h.object c' hc' i (howner.symm.trans hi)

/-- Children that are nobody's, or other code's, are no object's. -/
theorem Paired.forked (h : s.Paired) (fork : ℤ) {owner : ChildOwner}
    (howner : ∀ i, owner ≠ .object i) : Paired { s with children := s.forked fork owner } := by
  refine h.of_children (fun c hc _ _ ↦ ⟨c, mem_forked.2 (.inl hc), rfl, rfl⟩) fun c hc i hi ↦ ?_
  rcases mem_forked.1 hc with hc | ⟨-, rfl⟩
  · exact ⟨c, hc, rfl, rfl⟩
  · exact absurd hi (howner i)

/-- A child exits and stays until it has been waited for. -/
theorem exists_exits {c : ChildProcess} (hc : c ∈ s.children) (pid : ℤ) :
    ∃ c' ∈ s.children.map fun c ↦ if c.pid = pid then { c with exited := true } else c,
      c'.pid = c.pid ∧ c'.owner = c.owner := by
  refine ⟨_, List.mem_map_of_mem hc, ?_⟩
  split <;> exact ⟨rfl, rfl⟩

/-- Other code waits for a child of its own. -/
theorem Ids.foreign_only (h : s.Ids) {pid : ℤ}
    (hwait : ∃ c ∈ s.children, c.pid = pid ∧ c.owner = .foreign ∧ c.exited = true)
    {c : ChildProcess} (hc : c ∈ s.children) :
    c ∈ (s.children.filter fun c ↦ c.pid ≠ pid) ∨
      c.pid = pid ∧ c.owner = .foreign ∧ c.exited = true := by
  obtain ⟨c₀, hc₀, hpid, howner, hexited⟩ := hwait
  by_cases heq : c.pid = pid
  · obtain rfl := h.distinct c hc c₀ hc₀ (heq.trans hpid.symm)
    exact .inr ⟨heq, howner, hexited⟩
  · exact .inl (List.mem_filter.2 ⟨hc, decide_eq_true heq⟩)

theorem Paired.step (h : s.Paired) (hids : s.Ids) (ha : s.Orderly a) (hstep : s.step a = some t) :
    t.Paired := by
  cases a with
  | create i fork allocated =>
    obtain ⟨⟨hnone, -⟩, heq⟩ := Option.ite_none_right_eq_some.1 hstep
    cases heq
    exact h.create (Option.isNone_iff_eq_none.1 hnone) ha
  | createDetached fork =>
    obtain ⟨-, heq⟩ := Option.ite_none_right_eq_some.1 hstep
    cases heq
    exact h.forked fork nofun
  | destroy i answer =>
    obtain ⟨impl, hi, hmap⟩ := Option.bind_eq_some_iff.1 hstep
    obtain ⟨children, hwait, rfl⟩ := Option.map_eq_some_iff.1 hmap
    obtain ⟨c, hc, howner, -, rfl⟩ := h.reaps_own hids hi hwait ha
    exact h.destroy hids hc howner
  | exits pid =>
    cases hstep
    refine h.of_children (fun c hc _ _ ↦ exists_exits hc pid) fun c hc i _ ↦ ?_
    obtain ⟨c₀, hc₀, hpid, howner, -⟩ := mem_exits hc
    exact ⟨c₀, hc₀, hpid, howner⟩
  | foreignFork pid =>
    obtain ⟨-, heq⟩ := Option.ite_none_right_eq_some.1 hstep
    cases heq
    exact h.forked pid nofun
  | foreignWait pid =>
    obtain ⟨hwait, heq⟩ := Option.ite_none_right_eq_some.1 hstep
    cases heq
    refine h.of_children (fun c hc i hi ↦ ?_) fun c hc _ _ ↦
      ⟨c, List.mem_of_mem_filter hc, rfl, rfl⟩
    rcases hids.foreign_only hwait hc with hmem | ⟨-, howner, -⟩
    · exact ⟨c, hmem, rfl, rfl⟩
    · rw [howner] at hi
      cases hi

/-- An object without a child, or a child without its object. -/
theorem Paired.not_step (h : s.Paired) (hids : s.Ids) (ha : ¬ s.Orderly a)
    (hstep : s.step a = some t) : ¬ t.Paired := by
  intro ht
  cases a with
  | create i fork allocated =>
    obtain ⟨⟨-, hforks⟩, heq⟩ := Option.ite_none_right_eq_some.1 hstep
    cases heq
    by_cases hfork : fork = -1
    · -- an object with the id -1
      obtain rfl : allocated = true := by
        by_contra hmem
        exact ha (iff_of_false (not_not.2 hfork) hmem)
      subst hfork
      obtain ⟨c, hc, hpid, -⟩ := ht.child i ⟨-1⟩ (Function.update_self ..)
      have hpos := (hids.forked hforks).pos c hc
      rw [hpid] at hpos
      exact absurd hpos (by decide)
    · -- a child, and no memory for the object
      obtain rfl : allocated = false := by
        by_contra hmem
        exact ha (iff_of_true hfork (Bool.not_eq_false _ ▸ hmem))
      have hobject := ht.object _ (mem_forked.2 (.inr ⟨hfork, rfl⟩)) i rfl
      cases (Function.update_self ..).symm.trans hobject
  | destroy i answer =>
    obtain rfl : answer = .interrupted := not_not.1 ha
    obtain ⟨impl, hi, hmap⟩ := Option.bind_eq_some_iff.1 hstep
    obtain ⟨children, hwait, rfl⟩ := Option.map_eq_some_iff.1 hmap
    obtain rfl := Option.some.inj (Option.ite_none_right_eq_some.1 hwait).2
    obtain ⟨c, hc, -, howner⟩ := h.child i impl hi
    cases (Function.update_self ..).symm.trans (ht.object c hc i howner)
  | createDetached | exits | foreignFork | foreignWait => exact ha trivial

theorem Paired.waitsRight (h : s.Paired) (hids : s.Ids) (ha : s.Orderly a) : s.WaitsRight a := by
  intro t hstep c hc
  cases a with
  | create i fork allocated =>
    obtain ⟨-, heq⟩ := Option.ite_none_right_eq_some.1 hstep
    cases heq
    exact .inl ⟨c, mem_forked.2 (.inl hc), rfl, rfl⟩
  | createDetached fork =>
    obtain ⟨-, heq⟩ := Option.ite_none_right_eq_some.1 hstep
    cases heq
    exact .inl ⟨c, mem_forked.2 (.inl hc), rfl, rfl⟩
  | destroy i answer =>
    obtain ⟨impl, hi, hmap⟩ := Option.bind_eq_some_iff.1 hstep
    obtain ⟨children, hwait, rfl⟩ := Option.map_eq_some_iff.1 hmap
    obtain ⟨own, hown, howner, hexited, rfl⟩ := h.reaps_own hids hi hwait ha
    by_cases hpid : c.pid = own.pid
    · obtain rfl := hids.distinct c hc own hown hpid
      exact .inr ⟨hexited, .inr ⟨i, answer, howner, rfl⟩⟩
    · exact .inl ⟨c, List.mem_filter.2 ⟨hc, decide_eq_true hpid⟩, rfl, rfl⟩
  | exits pid =>
    cases hstep
    exact .inl (exists_exits hc pid)
  | foreignFork pid =>
    obtain ⟨-, heq⟩ := Option.ite_none_right_eq_some.1 hstep
    cases heq
    exact .inl ⟨c, mem_forked.2 (.inl hc), rfl, rfl⟩
  | foreignWait pid =>
    obtain ⟨hwait, heq⟩ := Option.ite_none_right_eq_some.1 hstep
    cases heq
    rcases hids.foreign_only hwait hc with hmem | ⟨rfl, howner, hexited⟩
    · exact .inl ⟨c, hmem, rfl, rfl⟩
    · exact .inr ⟨hexited, .inl ⟨howner, rfl⟩⟩

/-! ### Runs -/

theorem ids_start : start.Ids := ⟨nofun, nofun⟩

theorem paired_start : start.Paired := ⟨nofun, nofun⟩

/-- **Accounting.** Along a run every object has its child and every child its object exactly if
`fork` fails for no object that gets its memory, no child is made for an object that does not, and
no signal ends the wait of a destructor. Then nobody waits for a child but its owner, and so nobody
for a detached one. -/
theorem children_accounted (as : List ProcessAction) (u : ProcessSys)
    (hrun : run step start as = some u) :
    (EveryState step Paired start as ↔ EveryStep step Orderly start as) ∧
      (EveryStep step Orderly start as → EveryStep step WaitsRight start as) := by
  have hgood : ∀ s a t, (s.Ids ∧ s.Paired) → s.Orderly a → step s a = some t → t.Ids ∧ t.Paired :=
    fun s a t hs ha h ↦ ⟨hs.1.step h, hs.2.step hs.1 ha h⟩
  refine ⟨?_, fun horderly ↦ ?_⟩
  · exact everyState_iff_everyStep (fun _ hs ↦ hs.2) hgood
      (fun _ _ _ hs ha h ↦ hs.2.not_step hs.1 ha h) ⟨ids_start, paired_start⟩ hrun
  · exact horderly.imp_of_everyState (everyState_of_everyStep hgood ⟨ids_start, paired_start⟩
      horderly) fun s a hs ha ↦ hs.2.waitsRight hs.1 ha

/-- `fork` gives one object its child and fails for the next one. That one is destroyed, and waits
for the child of the first. -/
def stolenChild : List ProcessAction :=
  [.create 0 7 true, .create 1 (-1) true, .exits 7, .destroy 1 (.reaped 7)]

/-- In the end there is an object, and no child. -/
theorem children_accounted_stolen : ∃ u, run step start stolenChild = some u ∧ u.children = [] ∧
    u.objects 0 = some ⟨7⟩ ∧ ¬ EveryState step Paired start stolenChild := by
  have hrun : (run step start stolenChild).isSome := by decide
  obtain ⟨u, hu⟩ := Option.isSome_iff_exists.1 hrun
  have hmapped : (run step start stolenChild).map (fun u ↦ (u.children, u.objects 0)) =
      some ([], some ⟨7⟩) := by decide
  rw [hu, Option.map_some] at hmapped
  obtain ⟨hchildren, hobject⟩ := Prod.mk.inj (Option.some.inj hmapped)
  refine ⟨u, hu, hchildren, hobject, fun hpaired ↦ ?_⟩
  have horderly := (children_accounted stolenChild u hu).1.1 hpaired
  obtain ⟨t, ht⟩ := Option.isSome_iff_exists.1
    (show (run step start (stolenChild.take 1)).isSome by decide)
  have hagree := horderly (stolenChild.take 1) (.create 1 (-1) true) (stolenChild.drop 2) t rfl ht
  exact hagree.2 rfl rfl

end ProcessSys

end Libk2
