import Mathlib.Data.Fintype.Basic
import Libk2.Foundation.ObjectHeap
import Libk2.Foundation.StepSystem

/-!
# Thread-specific pointers of many threads

Any number of threads that use any number of `tls_ptr`s. A `tls_ptr` is a key, made by
`pthread_key_create` when it is constructed, and each thread has a slot for each key. The destructor
of `tls_ptr_impl` does nothing: the key stays, and with it what the threads have in its slots, which
the destroy routine gets when they exit. `reset` is two steps here, since it destroys the old object
before it stores the new pointer, and in between other threads make and destroy objects.

To its callers a `tls_ptr` is one pointer for each thread (`TlsStore`), and no call changes what
another thread, or another `tls_ptr`, has (`tls_ptrs_are_separate`). But the keys run out: never
more `tls_ptr`s than there are keys are constructed, whether or not they have been destroyed.
-/

namespace Libk2

open StepSystem

/-- The threads' slots, with 0 for null, the objects, those `held` by the program itself, and the
`tls_ptr`s with their keys. `storing` says which key and pointer a thread in `reset` is about to
store. -/
structure TlsSys (τ : Type*) where
  heap : ObjectHeap ℕ
  held : List ℕ
  keys : ℕ
  mHandle : ℕ → Option ℕ
  slot : τ → ℕ → ℕ
  storing : τ → Option (ℕ × ℕ)
  ended : τ → Bool

/-- What happens, and with what result: whether the key is made, what `get` and `release` return, no
result being a `thread_error`, and whether the pointer is stored. -/
inductive TlsLabel (τ : Type*) where
  | construct (i : ℕ) (made : Bool)
  | destroy (i : ℕ)
  | make (p : ℕ)
  | delete (p : ℕ)
  | get (t : τ) (i r : ℕ)
  | release (t : τ) (i : ℕ) (r : Option ℕ)
  | reset (t : τ) (i p : ℕ)
  | store (t : τ) (i p : ℕ) (ok : Bool)
  | exit (t : τ)
  | cleanup (t : τ) (k : ℕ)
deriving DecidableEq

/-- What the callers see: a pointer is constructed or destroyed, or a call returns. -/
inductive StoreEvent (τ : Type*) where
  | construct (i : ℕ)
  | destroy (i : ℕ)
  | get (t : τ) (i r : ℕ)
  | release (t : τ) (i r : ℕ)
  | store (t : τ) (i p : ℕ)
deriving DecidableEq

/-- The pointers of each `tls_ptr`, one for each thread. -/
abbrev TlsStore (τ : Type*) := ℕ → Option (τ → ℕ)

variable {τ : Type*}

/-- A call changes the pointer of the thread that makes it. -/
def TlsStore.step [DecidableEq τ] (a : TlsStore τ) : StoreEvent τ → Option (TlsStore τ)
  | .construct i => if a i = none then some (Function.update a i (some fun _ ↦ 0)) else none
  | .destroy i => (a i).map fun _ ↦ Function.update a i none
  | .get t i r => (a i).bind fun f ↦ if f t = r then some a else none
  | .release t i r =>
    (a i).bind fun f ↦
      if f t = r then some (Function.update a i (some (Function.update f t 0))) else none
  | .store t i p => (a i).map fun f ↦ Function.update a i (some (Function.update f t p))

/-- What the callers see of a step. -/
def TlsLabel.seen : TlsLabel τ → Option (StoreEvent τ)
  | .construct i true => some (.construct i)
  | .destroy i => some (.destroy i)
  | .get t i r => some (.get t i r)
  | .release t i (some r) => some (.release t i r)
  | .store t i p true => some (.store t i p)
  | _ => none

/-- A key is made. -/
def TlsLabel.makesKey : TlsLabel τ → Bool
  | .construct _ made => made
  | _ => false

namespace TlsSys

/-- Each thread starts with null pointers. -/
def start : TlsSys τ :=
  ⟨.empty ℕ, [], 0, fun _ ↦ none, fun _ _ ↦ 0, fun _ ↦ none, fun _ ↦ false⟩

variable (s : TlsSys τ)

/-! ### The calls -/

/-- `pthread_key_create`, if it succeeds: a key that is null in every thread. -/
def keyCreate : ℕ × TlsSys τ :=
  (s.keys, { s with keys := s.keys + 1, slot := fun t ↦ Function.update (s.slot t) s.keys 0 })

/-- `pthread_setspecific`, if it succeeds. -/
def setspecific [DecidableEq τ] (t : τ) (k p : ℕ) : TlsSys τ :=
  { s with slot := Function.update s.slot t (Function.update (s.slot t) k p) }

/-- `tls_ptr::cleanup`, the destroy routine. -/
def cleanup (p : ℕ) : TlsSys τ := { s with heap := s.heap.destroy p }

/-- `tls_ptr_impl::tls_ptr_impl`; if the key is not made it throws `bad_resource_alloc`. -/
def construct (i : ℕ) (made : Bool) : TlsSys τ :=
  if made = true then
    { s.keyCreate.2 with mHandle := Function.update s.mHandle i (some s.keyCreate.1) }
  else s

/-- `tls_ptr_impl::release`, with what the caller has to destroy from then on. -/
def release [DecidableEq τ] (t : τ) (k : ℕ) : TlsSys τ :=
  { s.setspecific t k 0 with held := if s.slot t k = 0 then s.held else s.slot t k :: s.held }

/-- `tls_ptr_impl::reset`, up to `pthread_setspecific`. -/
def reset [DecidableEq τ] (t : τ) (k p : ℕ) : TlsSys τ :=
  let oldP := s.slot t k
  { s with
    heap := if oldP ≠ 0 ∧ oldP ≠ p then (s.cleanup oldP).heap else s.heap
    held := s.held.erase p
    storing := Function.update s.storing t (some (k, p)) }

/-- The rest of `tls_ptr_impl::reset`. If the pointer is not stored it throws `thread_error`, and a
pointer that was not in the slot before is the caller's again. -/
def store [DecidableEq τ] (t : τ) (k p : ℕ) (ok : Bool) : TlsSys τ :=
  { s with
    slot := if ok = true then (s.setspecific t k p).slot else s.slot
    held := if ok = true ∨ p = 0 ∨ p = s.slot t k then s.held else p :: s.held
    storing := Function.update s.storing t none }

/-- The key that a call of thread `t` on the `tls_ptr` at `i` uses. -/
def key (t : τ) (i : ℕ) : Option ℕ :=
  if s.ended t = false ∧ s.storing t = none then s.mHandle i else none

/-- One step. A pointer given to `reset` is null, the one in the slot, or one that the program
holds; a `tls_ptr` is destroyed when nobody is in a call on it. A thread that has exited has the
destroy routine applied to what is in its slots, one slot after another and in any order. -/
def step [DecidableEq τ] [Fintype τ] (keysMax : ℕ) (s : TlsSys τ) :
    TlsLabel τ → Option (TlsSys τ)
  | .construct i made =>
    if s.mHandle i = none ∧ (made = true → s.keys < keysMax) then some (s.construct i made)
    else none
  | .destroy i =>
    (s.mHandle i).bind fun k ↦
      if ∀ t, (s.storing t).map Prod.fst ≠ some k then
        some { s with mHandle := Function.update s.mHandle i none }
      else none
  | .make p =>
    if p ≠ 0 ∧ ¬ s.heap.Live p then some { s with heap := s.heap.make p, held := p :: s.held }
    else none
  | .delete p =>
    if p ∈ s.held then some { s with heap := s.heap.destroy p, held := s.held.erase p } else none
  | .get t i r => (s.key t i).bind fun k ↦ if s.slot t k = r then some s else none
  | .release t i none => (s.key t i).map fun _ ↦ s
  | .release t i (some r) =>
    (s.key t i).bind fun k ↦ if s.slot t k = r then some (s.release t k) else none
  | .reset t i p =>
    (s.key t i).bind fun k ↦
      if p = 0 ∨ p = s.slot t k ∨ p ∈ s.held then some (s.reset t k p) else none
  | .store t i p ok =>
    (s.mHandle i).bind fun k ↦
      if s.storing t = some (k, p) then some (s.store t k p ok) else none
  | .exit t =>
    if s.ended t = false ∧ s.storing t = none then
      some { s with ended := Function.update s.ended t true }
    else none
  | .cleanup t k =>
    if s.ended t = true ∧ s.slot t k ≠ 0 then some ((s.setspecific t k 0).cleanup (s.slot t k))
    else none

variable {s : TlsSys τ} {keysMax : ℕ} {s' : TlsSys τ} {l : TlsLabel τ} {t : τ} {i k p : ℕ}

/-- A call on a `tls_ptr` is one of a thread that goes on and is in no other call. -/
theorem key_eq_some : s.key t i = some k ↔
    (s.ended t = false ∧ s.storing t = none) ∧ s.mHandle i = some k := by
  rw [key, Option.ite_none_right_eq_some]

/-! ### The keys -/

/-- The new `tls_ptr` has the new key. -/
theorem mHandle_construct {j : ℕ} : (s.construct i true).mHandle j = some k ↔
    j = i ∧ k = s.keys ∨ j ≠ i ∧ s.mHandle j = some k := by
  show Function.update s.mHandle i (some s.keys) j = some k ↔ _
  rcases eq_or_ne j i with rfl | hji
  · simp [eq_comm]
  · simp [hji]

/-- Each `tls_ptr` has a key of its own, and what is not a key is in no use. -/
structure KeysOk (s : TlsSys τ) : Prop where
  lt : ∀ i k, s.mHandle i = some k → k < s.keys
  inj : ∀ i j k, s.mHandle i = some k → s.mHandle j = some k → i = j
  storing_lt : ∀ t k p, s.storing t = some (k, p) → k < s.keys
  ended : ∀ t, s.ended t = true → s.storing t = none
  unused : ∀ t k, s.keys ≤ k → s.slot t k = 0

theorem keysOk_start : (start : TlsSys τ).KeysOk :=
  ⟨nofun, nofun, nofun, nofun, fun _ _ _ ↦ rfl⟩

namespace KeysOk

theorem construct (h : s.KeysOk) (i : ℕ) (made : Bool) : (s.construct i made).KeysOk := by
  cases made with
  | false => exact h
  | true =>
    refine ⟨fun j k hj ↦ ?_, fun j j' k hj hj' ↦ ?_, fun u k p hu ↦ ?_, h.ended, fun u k hk ↦ ?_⟩
    · show k < s.keys + 1
      rcases mHandle_construct.1 hj with ⟨-, rfl⟩ | ⟨-, hj⟩
      · exact Nat.lt_succ_self _
      · exact (h.lt j k hj).trans (Nat.lt_succ_self _)
    · -- the new key is nobody else's
      rcases mHandle_construct.1 hj with ⟨hji, rfl⟩ | ⟨-, hj⟩
      · rcases mHandle_construct.1 hj' with ⟨hji', -⟩ | ⟨-, hj'⟩
        · exact hji.trans hji'.symm
        · exact absurd (h.lt j' s.keys hj') (lt_irrefl _)
      · rcases mHandle_construct.1 hj' with ⟨-, rfl⟩ | ⟨-, hj'⟩
        · exact absurd (h.lt j s.keys hj) (lt_irrefl _)
        · exact h.inj j j' k hj hj'
    · exact (h.storing_lt u k p hu).trans (Nat.lt_succ_self _)
    · show Function.update (s.slot u) s.keys 0 k = 0
      rw [Function.update_of_ne (by rintro rfl; exact absurd hk (Nat.not_succ_le_self _))]
      exact h.unused u k (Nat.le_of_succ_le hk)

variable [DecidableEq τ]

/-- A pointer is stored in a key's slot. -/
theorem setspecific (h : s.KeysOk) (hk : k < s.keys) (t : τ) (p : ℕ) :
    (s.setspecific t k p).KeysOk := by
  refine ⟨h.lt, h.inj, h.storing_lt, h.ended, fun u k' hk' ↦ ?_⟩
  show Function.update s.slot t (Function.update (s.slot t) k p) u k' = 0
  have hne : k' ≠ k := by rintro rfl; exact absurd hk (not_lt.2 hk')
  rcases eq_or_ne u t with rfl | hut
  · rw [Function.update_self, Function.update_of_ne hne]
    exact h.unused u k' hk'
  · rw [Function.update_of_ne hut]
    exact h.unused u k' hk'

/-- A thread is in `reset`. -/
theorem reset (h : s.KeysOk) (ht : s.ended t = false) (hk : k < s.keys) (p : ℕ) :
    (s.reset t k p).KeysOk := by
  refine ⟨h.lt, h.inj, fun u k' p' hu ↦ ?_, fun u hu ↦ ?_, h.unused⟩
  · rcases eq_or_ne u t with rfl | hut
    · obtain ⟨⟩ := (Function.update_self u _ _).symm.trans hu
      exact hk
    · exact h.storing_lt u k' p' ((Function.update_of_ne hut _ _).symm.trans hu)
  · have hut : u ≠ t := by
      rintro rfl
      exact Bool.false_ne_true (ht.symm.trans hu)
    exact (Function.update_of_ne hut _ _).trans (h.ended u hu)

/-- A thread is no longer in `reset`. -/
theorem store (h : s.KeysOk) (hk : k < s.keys) (t : τ) (p : ℕ) (ok : Bool) :
    (s.store t k p ok).KeysOk := by
  refine ⟨h.lt, h.inj, fun u k' p' hu ↦ ?_, fun u hu ↦ ?_, fun u k' hk' ↦ ?_⟩
  · rcases eq_or_ne u t with rfl | hut
    · obtain ⟨⟩ := (Function.update_self u _ _).symm.trans hu
    · exact h.storing_lt u k' p' ((Function.update_of_ne hut _ _).symm.trans hu)
  · rcases eq_or_ne u t with rfl | hut
    · exact Function.update_self u _ _
    · exact (Function.update_of_ne hut _ _).trans (h.ended u hu)
  · cases ok with
    | false => exact h.unused u k' hk'
    | true => exact (h.setspecific hk t p).unused u k' hk'

variable [Fintype τ]

/-- **Every step** keeps the keys apart. -/
theorem step (h : s.KeysOk) (hstep : s.step keysMax l = some s') : s'.KeysOk := by
  cases l with
  | construct i made =>
    obtain ⟨-, ⟨⟩⟩ := Option.ite_none_right_eq_some.1 hstep
    exact h.construct i made
  | destroy i =>
    obtain ⟨k, hk, hfree⟩ := Option.bind_eq_some_iff.1 hstep
    obtain ⟨-, ⟨⟩⟩ := Option.ite_none_right_eq_some.1 hfree
    have hold : ∀ {j k}, Function.update s.mHandle i none j = some k → s.mHandle j = some k := by
      intro j k hj
      rcases eq_or_ne j i with rfl | hji
      · rw [Function.update_self] at hj
        cases hj
      · rwa [Function.update_of_ne hji] at hj
    exact ⟨fun j k hj ↦ h.lt j k (hold hj), fun j j' k hj hj' ↦ h.inj j j' k (hold hj) (hold hj'),
      h.storing_lt, h.ended, h.unused⟩
  | make p =>
    obtain ⟨-, ⟨⟩⟩ := Option.ite_none_right_eq_some.1 hstep
    exact ⟨h.lt, h.inj, h.storing_lt, h.ended, h.unused⟩
  | delete p =>
    obtain ⟨-, ⟨⟩⟩ := Option.ite_none_right_eq_some.1 hstep
    exact ⟨h.lt, h.inj, h.storing_lt, h.ended, h.unused⟩
  | get t i r =>
    obtain ⟨k, -, hr⟩ := Option.bind_eq_some_iff.1 hstep
    obtain ⟨-, ⟨⟩⟩ := Option.ite_none_right_eq_some.1 hr
    exact h
  | release t i r =>
    cases r with
    | none =>
      obtain ⟨k, -, ⟨⟩⟩ := Option.map_eq_some_iff.1 hstep
      exact h
    | some r =>
      obtain ⟨k, hk, hr⟩ := Option.bind_eq_some_iff.1 hstep
      obtain ⟨-, ⟨⟩⟩ := Option.ite_none_right_eq_some.1 hr
      have hset := h.setspecific (h.lt i k (key_eq_some.1 hk).2) t 0
      exact ⟨hset.lt, hset.inj, hset.storing_lt, hset.ended, hset.unused⟩
  | reset t i p =>
    obtain ⟨k, hk, hr⟩ := Option.bind_eq_some_iff.1 hstep
    obtain ⟨-, ⟨⟩⟩ := Option.ite_none_right_eq_some.1 hr
    obtain ⟨⟨hgoing, -⟩, hkey⟩ := key_eq_some.1 hk
    exact h.reset hgoing (h.lt i k hkey) p
  | store t i p ok =>
    obtain ⟨k, hk, hr⟩ := Option.bind_eq_some_iff.1 hstep
    obtain ⟨-, ⟨⟩⟩ := Option.ite_none_right_eq_some.1 hr
    exact h.store (h.lt i k hk) t p ok
  | exit t =>
    obtain ⟨⟨-, hidle⟩, ⟨⟩⟩ := Option.ite_none_right_eq_some.1 hstep
    refine ⟨h.lt, h.inj, h.storing_lt, fun u hu ↦ ?_, h.unused⟩
    rcases eq_or_ne u t with rfl | hut
    · exact hidle
    · exact h.ended u ((Function.update_of_ne hut _ _).symm.trans hu)
  | cleanup t k =>
    obtain ⟨⟨-, hne⟩, ⟨⟩⟩ := Option.ite_none_right_eq_some.1 hstep
    have hk : k < s.keys := lt_of_not_ge fun hle ↦ hne (h.unused t k hle)
    have hset := h.setspecific hk t 0
    exact ⟨hset.lt, hset.inj, hset.storing_lt, hset.ended, hset.unused⟩

end KeysOk

/-! ### One pointer for each thread -/

/-- A `tls_ptr` has for each thread, until it exits, what the thread's slot for its key has. -/
structure Follows (s : TlsSys τ) (a : TlsStore τ) : Prop where
  keysOk : s.KeysOk
  not_there : ∀ i, s.mHandle i = none → a i = none
  there : ∀ i k, s.mHandle i = some k →
    ∃ f, a i = some f ∧ ∀ t, s.ended t = false → f t = s.slot t k

namespace Follows

variable {a : TlsStore τ}

theorem start : Follows (start : TlsSys τ) fun _ ↦ none :=
  ⟨keysOk_start, fun _ _ ↦ rfl, nofun⟩

/-- Nothing changes that is seen. -/
theorem congr (h : s.Follows a) (hkeys : s'.KeysOk) (hm : s'.mHandle = s.mHandle)
    (hslot : ∀ t, s'.ended t = false → s.ended t = false ∧ s'.slot t = s.slot t) :
    s'.Follows a := by
  refine ⟨hkeys, fun i hi ↦ h.not_there i (hm ▸ hi), fun i k hi ↦ ?_⟩
  obtain ⟨f, hf, hfs⟩ := h.there i k (hm ▸ hi)
  refine ⟨f, hf, fun t ht ↦ ?_⟩
  obtain ⟨hgoing, hsame⟩ := hslot t ht
  rw [hsame]
  exact hfs t hgoing

theorem construct (h : s.Follows a) (hi : s.mHandle i = none) :
    (s.construct i true).Follows (Function.update a i (some fun _ ↦ 0)) := by
  refine ⟨h.keysOk.construct i true, fun j hj ↦ ?_, fun j k hj ↦ ?_⟩
  · have hji : j ≠ i := by
      rintro rfl
      cases (Function.update_self j _ _).symm.trans hj
    rw [Function.update_of_ne hji]
    exact h.not_there j ((Function.update_of_ne hji _ _).symm.trans hj)
  · show ∃ f : τ → ℕ, _ ∧ ∀ t, _ → f t = Function.update (s.slot t) s.keys 0 k
    rcases mHandle_construct.1 hj with ⟨rfl, rfl⟩ | ⟨hji, hj⟩
    · exact ⟨_, Function.update_self _ _ _, fun t _ ↦ by rw [Function.update_self]⟩
    · obtain ⟨f, hf, hfs⟩ := h.there j k hj
      refine ⟨f, (Function.update_of_ne hji _ _).trans hf, fun t ht ↦ ?_⟩
      rw [Function.update_of_ne (h.keysOk.lt j k hj).ne]
      exact hfs t ht

theorem destroy (h : s.Follows a) (hkeys : KeysOk { s with
      mHandle := Function.update s.mHandle i none }) :
    Follows { s with mHandle := Function.update s.mHandle i none } (Function.update a i none) := by
  refine ⟨hkeys, fun j hj ↦ ?_, fun j k hj ↦ ?_⟩
  · rcases eq_or_ne j i with rfl | hji
    · exact Function.update_self _ _ _
    · rw [Function.update_of_ne hji]
      exact h.not_there j ((Function.update_of_ne hji _ _).symm.trans hj)
  · have hji : j ≠ i := by
      rintro rfl
      cases (Function.update_self j _ _).symm.trans hj
    rw [Function.update_of_ne hji]
    exact h.there j k ((Function.update_of_ne hji _ _).symm.trans hj)

variable [DecidableEq τ]

/-- A thread stores a pointer: no other `tls_ptr` has the key. -/
theorem put (h : s.Follows a) (hkeys : s'.KeysOk) (hi : s.mHandle i = some k) {f : τ → ℕ}
    (hf : a i = some f) (hm : s'.mHandle = s.mHandle) (hended : s'.ended = s.ended)
    (hslot : s'.slot = (s.setspecific t k p).slot) :
    s'.Follows (Function.update a i (some (Function.update f t p))) := by
  refine ⟨hkeys, fun j hj ↦ ?_, fun j k' hj ↦ ?_⟩
  · have hji : j ≠ i := by
      rintro rfl
      cases hi.symm.trans (hm ▸ hj)
    rw [Function.update_of_ne hji]
    exact h.not_there j (hm ▸ hj)
  · rw [hm] at hj
    rw [hended, hslot]
    show ∃ g : τ → ℕ, _ ∧
      ∀ u, _ → g u = Function.update s.slot t (Function.update (s.slot t) k p) u k'
    obtain ⟨g, hg, hgs⟩ := h.there j k' hj
    rcases eq_or_ne j i with rfl | hji
    · obtain rfl := Option.some.inj (hj.symm.trans hi)
      obtain rfl := Option.some.inj (hg.symm.trans hf)
      refine ⟨_, Function.update_self _ _ _, fun u hu ↦ ?_⟩
      rcases eq_or_ne u t with rfl | hut
      · rw [Function.update_self, Function.update_self, Function.update_self]
      · rw [Function.update_of_ne hut, Function.update_of_ne hut]
        exact hgs u hu
    · have hne : k' ≠ k := by
        rintro rfl
        exact hji (h.keysOk.inj j i k' hj hi)
      refine ⟨g, (Function.update_of_ne hji _ _).trans hg, fun u hu ↦ ?_⟩
      rcases eq_or_ne u t with rfl | hut
      · rw [Function.update_self, Function.update_of_ne hne]
        exact hgs u hu
      · rw [Function.update_of_ne hut]
        exact hgs u hu

variable [Fintype τ]

/-- **One step** is one of the pointers, if it is seen at all. -/
theorem step (h : s.Follows a) (hstep : s.step keysMax l = some s') :
    ∃ a', run TlsStore.step a l.seen.toList = some a' ∧ s'.Follows a' := by
  have hkeys := h.keysOk.step hstep
  cases l with
  | construct i made =>
    obtain ⟨⟨hi, -⟩, ⟨⟩⟩ := Option.ite_none_right_eq_some.1 hstep
    cases made with
    | false => exact ⟨a, rfl, h⟩
    | true =>
      refine ⟨_, ?_, h.construct hi⟩
      simp [TlsLabel.seen, run_cons, TlsStore.step, h.not_there i hi]
  | destroy i =>
    obtain ⟨k, hk, hfree⟩ := Option.bind_eq_some_iff.1 hstep
    obtain ⟨-, ⟨⟩⟩ := Option.ite_none_right_eq_some.1 hfree
    obtain ⟨f, hf, -⟩ := h.there i k hk
    refine ⟨_, ?_, h.destroy hkeys⟩
    simp [TlsLabel.seen, run_cons, TlsStore.step, hf]
  | make p =>
    obtain ⟨-, ⟨⟩⟩ := Option.ite_none_right_eq_some.1 hstep
    exact ⟨a, rfl, h.congr hkeys rfl fun t ht ↦ ⟨ht, rfl⟩⟩
  | delete p =>
    obtain ⟨-, ⟨⟩⟩ := Option.ite_none_right_eq_some.1 hstep
    exact ⟨a, rfl, h.congr hkeys rfl fun t ht ↦ ⟨ht, rfl⟩⟩
  | get t i r =>
    obtain ⟨k, hk, hr⟩ := Option.bind_eq_some_iff.1 hstep
    obtain ⟨rfl, ⟨⟩⟩ := Option.ite_none_right_eq_some.1 hr
    obtain ⟨⟨hgoing, -⟩, hi⟩ := key_eq_some.1 hk
    obtain ⟨f, hf, hfs⟩ := h.there i k hi
    refine ⟨a, ?_, h⟩
    simp [TlsLabel.seen, run_cons, TlsStore.step, hf, hfs t hgoing]
  | release t i r =>
    cases r with
    | none =>
      obtain ⟨k, -, ⟨⟩⟩ := Option.map_eq_some_iff.1 hstep
      exact ⟨a, rfl, h⟩
    | some r =>
      obtain ⟨k, hk, hr⟩ := Option.bind_eq_some_iff.1 hstep
      obtain ⟨rfl, ⟨⟩⟩ := Option.ite_none_right_eq_some.1 hr
      obtain ⟨⟨hgoing, -⟩, hi⟩ := key_eq_some.1 hk
      obtain ⟨f, hf, hfs⟩ := h.there i k hi
      refine ⟨_, ?_, h.put hkeys hi hf rfl rfl rfl⟩
      simp [TlsLabel.seen, run_cons, TlsStore.step, hf, hfs t hgoing]
  | reset t i p =>
    obtain ⟨k, -, hr⟩ := Option.bind_eq_some_iff.1 hstep
    obtain ⟨-, ⟨⟩⟩ := Option.ite_none_right_eq_some.1 hr
    exact ⟨a, rfl, h.congr hkeys rfl fun u hu ↦ ⟨hu, rfl⟩⟩
  | store t i p ok =>
    obtain ⟨k, hi, hr⟩ := Option.bind_eq_some_iff.1 hstep
    obtain ⟨-, ⟨⟩⟩ := Option.ite_none_right_eq_some.1 hr
    cases ok with
    | false => exact ⟨a, rfl, h.congr hkeys rfl fun u hu ↦ ⟨hu, rfl⟩⟩
    | true =>
      obtain ⟨f, hf, -⟩ := h.there i k hi
      refine ⟨_, ?_, h.put hkeys hi hf rfl rfl rfl⟩
      simp [TlsLabel.seen, run_cons, TlsStore.step, hf]
  | exit t =>
    obtain ⟨-, ⟨⟩⟩ := Option.ite_none_right_eq_some.1 hstep
    refine ⟨a, rfl, h.congr hkeys rfl fun u hu ↦ ⟨?_, rfl⟩⟩
    have hut : u ≠ t := by
      rintro rfl
      cases (Function.update_self u _ _).symm.trans hu
    exact (Function.update_of_ne hut _ _).symm.trans hu
  | cleanup t k =>
    obtain ⟨⟨hended, -⟩, ⟨⟩⟩ := Option.ite_none_right_eq_some.1 hstep
    refine ⟨a, rfl, h.congr hkeys rfl fun u hu ↦ ⟨hu, ?_⟩⟩
    -- a thread that goes on is not the one that has exited
    have hut : u ≠ t := by
      rintro rfl
      exact Bool.false_ne_true (hu.symm.trans hended)
    exact Function.update_of_ne hut _ _

end Follows

variable [DecidableEq τ] [Fintype τ]

/-- A step makes a key if it is a construction that succeeds, and there is one left then. -/
theorem keys_of_step (hstep : s.step keysMax l = some s') :
    s'.keys = s.keys + (if l.makesKey = true then 1 else 0) ∧
      (s.keys ≤ keysMax → s'.keys ≤ keysMax) := by
  cases l with
  | construct i made =>
    obtain ⟨⟨-, hleft⟩, ⟨⟩⟩ := Option.ite_none_right_eq_some.1 hstep
    cases made with
    | false => exact ⟨rfl, id⟩
    | true => exact ⟨rfl, fun _ ↦ Nat.succ_le_of_lt (hleft rfl)⟩
  | destroy i =>
    obtain ⟨k, -, hfree⟩ := Option.bind_eq_some_iff.1 hstep
    obtain ⟨-, ⟨⟩⟩ := Option.ite_none_right_eq_some.1 hfree
    exact ⟨rfl, id⟩
  | make p | delete p | exit t | cleanup t k =>
    obtain ⟨-, ⟨⟩⟩ := Option.ite_none_right_eq_some.1 hstep
    exact ⟨rfl, id⟩
  | get t i r =>
    obtain ⟨k, -, hr⟩ := Option.bind_eq_some_iff.1 hstep
    obtain ⟨-, ⟨⟩⟩ := Option.ite_none_right_eq_some.1 hr
    exact ⟨rfl, id⟩
  | release t i r =>
    cases r with
    | none =>
      obtain ⟨k, -, ⟨⟩⟩ := Option.map_eq_some_iff.1 hstep
      exact ⟨rfl, id⟩
    | some r =>
      obtain ⟨k, -, hr⟩ := Option.bind_eq_some_iff.1 hstep
      obtain ⟨-, ⟨⟩⟩ := Option.ite_none_right_eq_some.1 hr
      exact ⟨rfl, id⟩
  | reset t i p | store t i p ok =>
    obtain ⟨k, -, hr⟩ := Option.bind_eq_some_iff.1 hstep
    obtain ⟨-, ⟨⟩⟩ := Option.ite_none_right_eq_some.1 hr
    exact ⟨rfl, id⟩

/-- **No key comes back.** -/
theorem keys_of_run {u : TlsSys τ} {ls : List (TlsLabel τ)} (hkeys : s.keys ≤ keysMax)
    (hrun : run (step keysMax) s ls = some u) :
    u.keys = s.keys + ls.countP TlsLabel.makesKey ∧ u.keys ≤ keysMax := by
  induction ls generalizing s with
  | nil => exact ⟨congrArg keys (Option.some.inj hrun).symm, Option.some.inj hrun ▸ hkeys⟩
  | cons l ls ih =>
    obtain ⟨t, hstep, hrest⟩ := run_cons_eq_some.1 hrun
    obtain ⟨hsucc, hle⟩ := keys_of_step hstep
    obtain ⟨hcount, hmax⟩ := ih (hle hkeys) hrest
    refine ⟨?_, hmax⟩
    rw [hcount, hsucc, List.countP_cons]
    omega

/-- **Each `tls_ptr` is one pointer for each thread.** Whatever the threads do, and in whatever
order, their calls return what they would return if no thread, and no `tls_ptr`, could reach what
another has; and no more `tls_ptr`s are constructed than there are keys. -/
theorem tls_ptrs_are_separate (keysMax : ℕ) (ls : List (TlsLabel τ)) (u : TlsSys τ)
    (hrun : run (step keysMax) start ls = some u) :
    (∃ a, run TlsStore.step (fun _ ↦ none) (ls.filterMap TlsLabel.seen) = some a ∧
      ∀ i, a i = none ↔ u.mHandle i = none) ∧
      ls.countP TlsLabel.makesKey ≤ keysMax := by
  have hsim : ∀ (s : TlsSys τ) l t a, Follows s a → s.step keysMax l = some t →
      ∃ es a', run TlsStore.step a es = some a' ∧ Follows t a' ∧
        es.filterMap some = l.seen.toList := by
    intro s l t a h hstep
    obtain ⟨a', hrun, hfollows⟩ := h.step hstep
    exact ⟨l.seen.toList, a', hrun, hfollows, List.filterMap_some⟩
  constructor
  · obtain ⟨es, a, hrun', hfollows, hseen⟩ := exists_run_of_simulation hsim Follows.start hrun
    rw [List.filterMap_some] at hseen
    refine ⟨a, hseen ▸ hrun', fun i ↦ ⟨fun hi ↦ ?_, hfollows.not_there i⟩⟩
    cases hu : u.mHandle i with
    | none => rfl
    | some k =>
      obtain ⟨f, hf, -⟩ := hfollows.there i k hu
      cases hi.symm.trans hf
  · obtain ⟨hcount, hmax⟩ := keys_of_run (Nat.zero_le keysMax) hrun
    have hzero : (start : TlsSys τ).keys = 0 := rfl
    omega

/-- One thread has an object, the other thread sees nothing of it, and with one key there is no
second `tls_ptr`, although the first one has been destroyed. -/
def oneKey : List (TlsLabel Bool) :=
  [.construct 0 true, .make 8, .reset false 0 8, .store false 0 8 true, .get true 0 0,
    .get false 0 8, .exit false, .destroy 0, .construct 0 false, .cleanup false 0]

theorem tls_ptrs_are_separate_two :
    (∃ a, run TlsStore.step (fun _ ↦ none) (oneKey.filterMap TlsLabel.seen) = some a ∧ a 0 = none) ∧
      oneKey.countP TlsLabel.makesKey ≤ 1 := by
  obtain ⟨u, hrun, hu⟩ : ∃ u, run (step 1) start oneKey = some u ∧ u.mHandle 0 = none :=
    ⟨_, rfl, rfl⟩
  obtain ⟨⟨a, ha, hnone⟩, hcount⟩ := tls_ptrs_are_separate 1 oneKey u hrun
  exact ⟨⟨a, ha, (hnone 0).2 hu⟩, hcount⟩

end TlsSys

end Libk2
