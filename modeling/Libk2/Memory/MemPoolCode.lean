import Libk2.Memory.MemPoolSafety
import Libk2.Foundation.LockedObject

/-!
# `mem_pool`: the code of `alloc` and `dealloc`

`alloc` and `dealloc` one access to the object or to its storage at a time, between the constructor
and the destructor of their `scoped_guard`. `PoolPos` is where a call is, with its local variables:
`raw_mem` and what is left of `chunk_cnt` in the loop of `grow`, and `pchunk`. While a call is at
one of these positions, other threads write into the chunks they hold, so a link is only there for
certain once it is stored.

`poolSpec` is what the same calls do as a whole: the `alloc` and `dealloc` of `MemPool`. A caller
gives a chunk up when it calls `dealloc`, and has one when `alloc` returns it, not before. `rest` is
what is left of a call at a position; `rest_of_next` says that the code does just that, and
`rest_writeByte` that a byte outside the links it still touches does not matter.
-/

namespace Libk2

open ByteMemory PointerChain LockedObject

variable {T : Target}

/-! ### Calls as a whole -/

/-- A call of `mem_pool`. -/
inductive PoolCall where
  | alloc
  | dealloc (p : ℕ)
deriving DecidableEq

/-- What a call ends with: a chunk, an exception, or nothing. -/
inductive PoolResult where
  | chunk (p : ℕ)
  | threw
  | void
deriving DecidableEq

/-- What is returned to the caller of `alloc`. -/
def PoolResult.ofAlloc : Option ℕ → PoolResult
  | some p => .chunk p
  | none => .threw

namespace PoolSys

variable (A : PoolArgs T)

/-- What the callers do and see: chunks change hands at calls and returns, and bytes are written. -/
def note {τ : Type*} : Event τ PoolCall PoolResult (ℕ × UInt8) → PoolSys → Option PoolSys
  | .call _ .alloc, s => some s
  | .call _ (.dealloc p), s =>
    if p ∈ s.held then some { s with held := s.held.erase p } else none
  | .ret _ (.chunk p), s => some { s with held := p :: s.held }
  | .ret _ _, s => some s
  | .env (a, v), s => s.step A (.write a v)

/-- A whole call; `newArray` is what `new char[]` returns if it is asked. -/
def apply : PoolCall → Option ℕ → PoolSys → Option (PoolResult × PoolSys)
  | .alloc, newArray, s =>
    if ∀ B ∈ s.obtained A newArray, Fresh A s.blocks B then
      some (.ofAlloc (s.pool.alloc A newArray).1,
        { s with
          pool := (s.pool.alloc A newArray).2
          blocks := s.obtained A newArray ++ s.blocks })
    else none
  | .dealloc p, _, s => some (.void, { s with pool := s.pool.dealloc T p })

end PoolSys

/-- `mem_pool` as its callers see it. -/
def poolSpec (A : PoolArgs T) (τ : Type*) :
    Spec τ PoolSys PoolCall (Option ℕ) PoolResult (ℕ × UInt8) where
  note := PoolSys.note A
  apply := PoolSys.apply A

/-! ### Calls step by step -/

/-- Where a call is. -/
inductive PoolPos where
  /-- `alloc`: at `if (m_frees == 0)`. -/
  | atTest
  /-- `grow`: at `new char[chunk_cnt * alignment]`. -/
  | atNew
  /-- At `pchunk->pnext = m_allocs`. -/
  | atHeader (rawMem : ℕ)
  /-- At `m_allocs = pchunk`. -/
  | atAllocs (rawMem : ℕ)
  /-- In `deposit(raw_mem)`, at `pchunk->pnext = m_frees`, with `n` more chunks to come. -/
  | atLink (n rawMem : ℕ)
  /-- At `m_frees = pchunk`. -/
  | atHead (n rawMem : ℕ)
  /-- `alloc`: at `pchunk = m_frees`. -/
  | atTake
  /-- At `m_frees = m_frees->pnext`. -/
  | atUnlink (pchunk : ℕ)
  /-- `dealloc(p)`: at `pchunk->pnext = m_frees`. -/
  | giveLink (p : ℕ)
  /-- At `m_frees = pchunk`. -/
  | giveHead (p : ℕ)
  /-- The call is over. -/
  | finished (r : PoolResult)

namespace PoolPos

variable (A : PoolArgs T)

/-- The loop of `grow`, with `n` chunks to come. -/
def loop : ℕ → ℕ → PoolPos
  | 0, _ => atTake
  | n + 1, rawMem => atLink n rawMem

/-- One access; `newArray` is what `new char[]` returns. -/
def next : PoolPos → Option ℕ → PoolSys → Option (PoolSys × PoolPos)
  | atTest, _, s => some (s, if s.pool.mFrees = 0 then atNew else atTake)
  | atNew, none, s => some (s, finished .threw)
  | atNew, some rawMem, s =>
    if PoolSys.Fresh A s.blocks ⟨rawMem, A.refillCount.toNat⟩ then
      some ({ s with blocks := ⟨rawMem, A.refillCount.toNat⟩ :: s.blocks }, atHeader rawMem)
    else none
  | atHeader rawMem, _, s =>
    some ({ s with pool := s.pool.setPnext T rawMem s.pool.mAllocs }, atAllocs rawMem)
  | atAllocs rawMem, _, s =>
    some ({ s with pool := { s.pool with mAllocs := rawMem } }, loop A.refillCount.toNat rawMem)
  | atLink n rawMem, _, s =>
    some ({ s with pool := s.pool.setPnext T rawMem s.pool.mFrees }, atHead n rawMem)
  | atHead n rawMem, _, s =>
    some ({ s with pool := { s.pool with mFrees := rawMem } }, loop n (rawMem + A.stride))
  | atTake, _, s => some (s, atUnlink s.pool.mFrees)
  | atUnlink pchunk, _, s =>
    some ({ s with pool := { s.pool with mFrees := s.pool.pnext T s.pool.mFrees } },
      finished (.chunk pchunk))
  | giveLink p, _, s =>
    some ({ s with pool := s.pool.setPnext T p s.pool.mFrees }, giveHead p)
  | giveHead p, _, s => some ({ s with pool := { s.pool with mFrees := p } }, finished .void)
  | finished _, _, _ => none

def start : PoolCall → PoolPos
  | .alloc => atTest
  | .dealloc p => giveLink p

def result : PoolPos → Option PoolResult
  | finished r => some r
  | _ => none

end PoolPos

/-- The code of `mem_pool`. -/
def poolCode (A : PoolArgs T) : Code PoolSys PoolCall (Option ℕ) PoolResult PoolPos where
  start := PoolPos.start
  next := PoolPos.next A
  result := PoolPos.result

namespace PoolPos

variable (A : PoolArgs T)

/-! ### What is left of a call -/

/-- The call has decided what it does: `alloc` when it finds a free chunk or `new` has answered,
`dealloc` when it has stored its link. -/
def Committed : PoolPos → Prop
  | atTest | atNew | giveLink _ => False
  | _ => True

instance : DecidablePred Committed := fun k ↦ by
  cases k <;> unfold Committed <;> infer_instance

/-- Hand out the first free chunk. -/
def takeRest (s : MemPool) : PoolResult × MemPool := (.chunk s.mFrees, (s.take T).2)

/-- What a call that has committed still does to the object. -/
def rest : PoolPos → MemPool → PoolResult × MemPool
  | atHeader rawMem, s => takeRest (T := T) (MemPool.grow A s A.refillCount rawMem)
  | atAllocs rawMem, s =>
    takeRest (T := T)
      (MemPool.depositChunks A A.refillCount.toNat rawMem { s with mAllocs := rawMem })
  | atLink n rawMem, s => takeRest (T := T) (MemPool.depositChunks A (n + 1) rawMem s)
  | atHead n rawMem, s =>
    takeRest (T := T) (MemPool.depositChunks A n (rawMem + A.stride) { s with mFrees := rawMem })
  | atTake, s => takeRest (T := T) s
  | atUnlink pchunk, s => (.chunk pchunk, (s.take T).2)
  | giveHead p, s => (.void, { s with mFrees := p })
  | finished r, s => (r, s)
  | atTest, s | atNew, s | giveLink _, s => (.void, s)

theorem rest_loop (n rawMem : ℕ) (s : MemPool) :
    rest A (loop n rawMem) s = takeRest (T := T) (MemPool.depositChunks A n rawMem s) := by
  cases n <;> rfl

theorem committed_loop (n rawMem : ℕ) : (loop n rawMem).Committed := by
  cases n <;> exact trivial

variable {A}

/-- **A step of a committed call** does a part of what is left, and touches neither the blocks nor
what is held. -/
theorem rest_of_next {k k' : PoolPos} {newArray : Option ℕ} {s s' : PoolSys} (hk : k.Committed)
    (h : k.next A newArray s = some (s', k')) :
    k'.Committed ∧ rest A k' s'.pool = rest A k s.pool ∧ s'.blocks = s.blocks ∧
      s'.held = s.held := by
  cases k with
  | atTest | atNew | giveLink p => exact absurd hk not_false
  | finished r => cases h
  | atAllocs rawMem =>
    obtain ⟨rfl, rfl⟩ := Prod.mk.inj (Option.some.inj h)
    exact ⟨committed_loop _ _, rest_loop A _ _ _, rfl, rfl⟩
  | atHead n rawMem =>
    obtain ⟨rfl, rfl⟩ := Prod.mk.inj (Option.some.inj h)
    exact ⟨committed_loop _ _, rest_loop A _ _ _, rfl, rfl⟩
  | atHeader rawMem | atLink n rawMem | atTake | atUnlink pchunk | giveHead p =>
    obtain ⟨rfl, rfl⟩ := Prod.mk.inj (Option.some.inj h)
    exact ⟨trivial, rfl, rfl, rfl⟩

end PoolPos

/-! ### Bytes written meanwhile -/

namespace MemPool

/-- Somebody writes a byte. -/
def writeByte (s : MemPool) (a : ℕ) (v : UInt8) : MemPool :=
  { s with mem := Function.update s.mem a v }

variable {A : PoolArgs T} {s : MemPool} {a : ℕ} {v : UInt8}

theorem pnext_writeByte {p : ℕ} (h : a < p ∨ p + T.ptrBytes ≤ a) :
    (s.writeByte a v).pnext T p = s.pnext T p :=
  loadWord_update_of_outside h

theorem setPnext_writeByte {p q : ℕ} (h : a < p ∨ p + T.ptrBytes ≤ a) :
    (s.writeByte a v).setPnext T p q = (s.setPnext T p q).writeByte a v := by
  simp only [setPnext, writeByte, storeWord_update_of_outside h]

theorem depositChunks_writeByte {n rawMem : ℕ}
    (h : ∀ c ∈ chunksFrom A rawMem n, a < c ∨ c + T.ptrBytes ≤ a) :
    depositChunks A n rawMem (s.writeByte a v) = (depositChunks A n rawMem s).writeByte a v := by
  induction n generalizing rawMem s with
  | zero => rfl
  | succ n ih =>
    rw [chunksFrom_succ, List.forall_mem_cons] at h
    have hdeposit : (s.writeByte a v).deposit T rawMem = (s.deposit T rawMem).writeByte a v := by
      show { (s.writeByte a v).setPnext T rawMem s.mFrees with mFrees := rawMem } = _
      rw [setPnext_writeByte h.1]
      rfl
    rw [depositChunks, depositChunks, hdeposit, ih h.2]

/-- The loop of `grow` leaves the last of its chunks in front. -/
theorem mFrees_depositChunks (n rawMem : ℕ) (s : MemPool) :
    (depositChunks A (n + 1) rawMem s).mFrees ∈ chunksFrom A rawMem (n + 1) := by
  induction n generalizing rawMem s with
  | zero => simp [chunksFrom, depositChunks, deposit]
  | succ n ih =>
    rw [depositChunks, chunksFrom_succ]
    exact List.mem_cons_of_mem _ (ih _ _)

end MemPool

namespace PoolPos

variable (A : PoolArgs T)

/-- The chunks whose links are still read or stored. -/
def touched : PoolPos → MemPool → List ℕ
  | atHeader rawMem, _ | atAllocs rawMem, _ => MemPool.chunksFrom A rawMem A.refillCount.toNat
  | atLink n rawMem, _ | atHead n rawMem, _ => MemPool.chunksFrom A rawMem (n + 1)
  | atTake, s | atUnlink _, s => [s.mFrees]
  | _, _ => []

variable {A} {s : MemPool} {a : ℕ} {v : UInt8}

theorem takeRest_writeByte (h : a < s.mFrees ∨ s.mFrees + T.ptrBytes ≤ a) :
    takeRest (T := T) (s.writeByte a v) =
      ((takeRest (T := T) s).1, (takeRest (T := T) s).2.writeByte a v) := by
  have hnext : (s.writeByte a v).pnext T s.mFrees = s.pnext T s.mFrees := MemPool.pnext_writeByte h
  show (_, { s.writeByte a v with mFrees := (s.writeByte a v).pnext T s.mFrees }) = _
  rw [hnext]
  rfl

theorem takeRest_depositChunks_writeByte {n rawMem : ℕ}
    (h : ∀ c ∈ MemPool.chunksFrom A rawMem (n + 1), a < c ∨ c + T.ptrBytes ≤ a) :
    takeRest (T := T) (MemPool.depositChunks A (n + 1) rawMem (s.writeByte a v)) =
      ((takeRest (T := T) (MemPool.depositChunks A (n + 1) rawMem s)).1,
        (takeRest (T := T) (MemPool.depositChunks A (n + 1) rawMem s)).2.writeByte a v) := by
  rw [MemPool.depositChunks_writeByte h]
  exact takeRest_writeByte (h _ (MemPool.mFrees_depositChunks n rawMem s))

/-- **A byte outside the links still touched** makes no difference to what is left of a call. -/
theorem rest_writeByte {C : PoolConfig T} {k : PoolPos} (hk : k.Committed)
    (h : ∀ c ∈ k.touched C.toPoolArgs s, a < c ∨ c + T.ptrBytes ≤ a) :
    k.rest C.toPoolArgs (s.writeByte a v) =
      ((k.rest C.toPoolArgs s).1, (k.rest C.toPoolArgs s).2.writeByte a v) := by
  obtain ⟨n, hn⟩ := Nat.exists_eq_add_of_le' C.one_le_refillCount
  cases k with
  | atTest | atNew | giveLink p => exact absurd hk not_false
  | finished r | giveHead p => rfl
  | atTake => exact takeRest_writeByte (h _ List.mem_cons_self)
  | atUnlink pchunk =>
    have htake := takeRest_writeByte (v := v) (h s.mFrees List.mem_cons_self)
    exact Prod.ext rfl (congrArg (fun r ↦ r.2) htake)
  | atLink n rawMem => exact takeRest_depositChunks_writeByte h
  | atHead n rawMem =>
    rw [touched, MemPool.chunksFrom_succ, List.forall_mem_cons] at h
    cases n with
    | zero => exact takeRest_writeByte (s := { s with mFrees := rawMem }) h.1
    | succ n => exact takeRest_depositChunks_writeByte (s := { s with mFrees := rawMem }) h.2
  | atHeader rawMem =>
    have hhead : a < rawMem ∨ rawMem + T.ptrBytes ≤ a := by
      refine h rawMem ?_
      rw [touched, hn, MemPool.chunksFrom_succ]
      exact List.mem_cons_self
    simp only [touched, hn] at h
    simp only [rest, MemPool.grow, hn, MemPool.setPnext_writeByte hhead]
    exact takeRest_depositChunks_writeByte
      (s := { s.setPnext T rawMem s.mAllocs with mAllocs := rawMem }) h
  | atAllocs rawMem =>
    simp only [touched, hn] at h
    simp only [rest, hn]
    exact takeRest_depositChunks_writeByte (s := { s with mAllocs := rawMem }) h

end PoolPos

end Libk2
