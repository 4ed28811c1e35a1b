import Libk2.Memory.MemPoolSafety

/-!
# `mem_pool`: a stack of chunks

What the callers of a pool get does not depend on what they write. `ChunkStack` is the pool without
its memory: the free chunks are a list, `dealloc` puts a chunk in front, `alloc` takes the first
one, and a refill adds the chunks of its block in reverse. `pool_is_a_stack` says that this is all a
caller sees of a pool, whose free list lies in the memory that the callers write.

And it does not take more memory than it needs. A refill happens only when every chunk is held, so
the number of chunks stays within a refill of the most that were held at once (`pool_footprint`).
-/

namespace Libk2

open PointerChain StepSystem MemPool

variable {T : Target}

/-- The free chunks, the chunks that are held, and the blocks, the newest first. -/
structure ChunkStack where
  free : List ℕ
  held : List ℕ
  blocks : List Block
deriving DecidableEq

namespace ChunkStack

variable (A : PoolArgs T)

/-- A pool just constructed. -/
def start (rawMem : ℕ) : ChunkStack where
  free := (chunksFrom A rawMem A.chunkCount.toNat).reverse
  held := []
  blocks := [⟨rawMem, A.chunkCount.toNat⟩]

/-- Get a block, if there is no free chunk and `new[]` does not throw. -/
def refill (a : ChunkStack) (newArray : Option ℕ) : ChunkStack :=
  match a.free, newArray with
  | [], some rawMem =>
    { a with
      free := (chunksFrom A rawMem A.refillCount.toNat).reverse
      blocks := ⟨rawMem, A.refillCount.toNat⟩ :: a.blocks }
  | _, _ => a

/-- Hand out the first free chunk. -/
def take (a : ChunkStack) : ChunkStack :=
  match a.free with
  | [] => a
  | c :: free => { a with free := free, held := c :: a.held }

/-- One call. Writes are not seen. -/
def step (a : ChunkStack) : PoolOp → Option ChunkStack
  | .alloc newArray => some (a.refill A newArray).take
  | .dealloc p =>
    if p ∈ a.held then some { a with free := p :: a.free, held := a.held.erase p } else none
  | .write _ _ => some a

variable {A} {a : ChunkStack}

theorem refill_of_nil (h : a.free = []) (rawMem : ℕ) : a.refill A (some rawMem) =
    ⟨(chunksFrom A rawMem A.refillCount.toNat).reverse, a.held,
      ⟨rawMem, A.refillCount.toNat⟩ :: a.blocks⟩ := by
  obtain ⟨free, held, blocks⟩ := a
  subst h
  rfl

theorem refill_none (A : PoolArgs T) (a : ChunkStack) : a.refill A none = a := by
  obtain ⟨_ | ⟨c, free⟩, held, blocks⟩ := a <;> rfl

theorem refill_of_cons {c : ℕ} {free : List ℕ} (h : a.free = c :: free) (newArray : Option ℕ) :
    a.refill A newArray = a := by
  obtain ⟨_, held, blocks⟩ := a
  subst h
  rfl

theorem take_of_nil (h : a.free = []) : a.take = a := by
  obtain ⟨_, held, blocks⟩ := a
  subst h
  rfl

theorem take_of_cons {c : ℕ} {free : List ℕ} (h : a.free = c :: free) :
    a.take = ⟨free, c :: a.held, a.blocks⟩ := by
  obtain ⟨_, held, blocks⟩ := a
  subst h
  rfl

end ChunkStack

/-- The operation, if it is a call. -/
def PoolOp.call : PoolOp → Option PoolOp
  | .write _ _ => none
  | op => some op

namespace PoolSys

variable {C : PoolConfig T} {s t : PoolSys} {a : ChunkStack}

/-! ### The pool follows the stack -/

/-- The pool and the stack have the same chunks, free, held and in blocks. -/
structure Follows (C : PoolConfig T) (s : PoolSys) (a : ChunkStack) : Prop where
  inv : Inv C s
  free : s.pool.FreeList T a.free
  held : a.held = s.held
  blocks : a.blocks = s.blocks

/-- A refill of an empty pool. -/
theorem Follows.grow (h : Follows C s a) (h0 : s.pool.mFrees = 0) {rawMem : ℕ}
    (hfresh : Fresh C.toPoolArgs s.blocks ⟨rawMem, C.refillCount.toNat⟩) :
    Follows C ⟨MemPool.grow C.toPoolArgs s.pool C.refillCount rawMem,
      ⟨rawMem, C.refillCount.toNat⟩ :: s.blocks, s.held⟩ (a.refill C.toPoolArgs (some rawMem)) := by
  have hgrown := h.inv.grow C.one_le_refillCount hfresh
  have hnil : a.free = [] := h.free.eq_nil_of_mFrees h0
  have hsp : Spaced C (chunksFrom C.toPoolArgs rawMem C.refillCount.toNat ++ a.free) := by
    rw [hnil, List.append_nil]
    exact (spaced_chunks hgrown.blocksOk).sublist (List.sublist_append_left _ _)
  have hfree := h.free.grow C.one_le_refillCount hsp
  rw [hnil, List.append_nil] at hfree
  rw [ChunkStack.refill_of_nil hnil]
  exact ⟨hgrown, hfree, h.held, congrArg _ h.blocks⟩

/-- The first free chunk is handed out. -/
theorem Follows.take (h : Follows C s a) (h0 : s.pool.mFrees ≠ 0) :
    Follows C { s with pool := (s.pool.take T).2, held := (s.pool.take T).1 :: s.held } a.take := by
  obtain ⟨r, rest, hcons, hr, hrest⟩ := h.free.exists_cons h0
  obtain rfl : s.pool.pnext T s.pool.mFrees = r := Option.some.inj hr
  rw [ChunkStack.take_of_cons hcons]
  exact ⟨h.inv.take h0, hrest, congrArg _ h.held, h.blocks⟩

theorem Follows.alloc (h : Follows C s a) {newArray : Option ℕ}
    (hfresh : ∀ B ∈ s.obtained C.toPoolArgs newArray, Fresh C.toPoolArgs s.blocks B) :
    Follows C (s.afterAlloc C.toPoolArgs newArray) (a.refill C.toPoolArgs newArray).take := by
  by_cases h0 : s.pool.mFrees = 0
  · have hnil : a.free = [] := h.free.eq_nil_of_mFrees h0
    cases newArray with
    | none =>
      have hsame : s.afterAlloc C.toPoolArgs none = s := by
        simp [afterAlloc, obtained, alloc_none_of_empty _ h0]
      rw [hsame, ChunkStack.refill_none, ChunkStack.take_of_nil hnil]
      exact h
    | some rawMem =>
      have hgrown := h.grow h0 (hfresh ⟨rawMem, C.refillCount.toNat⟩ (by simp [obtained, h0]))
      have hfree := hgrown.free
      rw [ChunkStack.refill_of_nil hnil, ← List.append_nil (List.reverse _)] at hfree
      have hne := Inv.mFrees_ne_zero_of_grow C.one_le_refillCount hfree
      have htaken := hgrown.take hne
      simpa [afterAlloc, obtained, h0, alloc_of_empty _ h0, MemPool.take] using htaken
  · have htaken := h.take h0
    obtain ⟨r, rest, hcons, -⟩ := h.free.exists_cons h0
    rw [ChunkStack.refill_of_cons hcons]
    simpa [afterAlloc, obtained, h0, alloc_of_frees _ h0, MemPool.take] using htaken

/-- **One step** of the pool is one of the stack, or a write, which the stack does not see. -/
theorem Follows.step (h : Follows C s a) {op : PoolOp} (hstep : s.step C.toPoolArgs op = some t) :
    ∃ a', run (ChunkStack.step C.toPoolArgs) a op.call.toList = some a' ∧ Follows C t a' := by
  have hinv := inv_step h.inv hstep
  obtain ⟨newArray, rfl, hfresh, rfl⟩ | ⟨p, rfl, hp, rfl⟩ | ⟨b, v, rfl, hb, rfl⟩ := step_cases hstep
  · exact ⟨_, rfl, h.alloc hfresh⟩
  · have hmem : p ∈ a.held := h.held ▸ hp
    refine ⟨{ a with free := p :: a.free, held := a.held.erase p }, ?_, hinv, ?_, ?_, h.blocks⟩
    · simp [PoolOp.call, run_cons, ChunkStack.step, hmem]
    · -- the chunk is separate from the free ones, as it is held
      obtain ⟨frees, hfrees, hperm⟩ := h.inv.exists_frees
      obtain rfl : a.free = frees := h.free.unique hfrees
      have hmove : (p :: a.free ++ s.held.erase p).Perm (a.free ++ s.held) :=
        List.perm_middle.symm.trans ((List.perm_cons_erase hp).symm.append_left a.free)
      exact hfrees.deposit
        (((h.inv.spaced hperm).perm hmove.symm).sublist (List.sublist_append_left _ _))
    · rw [h.held]
  · refine ⟨a, rfl, hinv, ?_, h.held, h.blocks⟩
    obtain ⟨frees, hfrees, hperm⟩ := h.inv.exists_frees
    obtain rfl : a.free = frees := h.free.unique hfrees
    refine h.free.congr fun c hc ↦ congrArg some ?_
    have hout := h.inv.outside_of_writable hperm hb hc
    have hword := C.ptrBytes_le_stride
    exact ByteMemory.loadWord_update_of_outside (by omega)

theorem follows_start {mem : ByteMemory} {rawMem : ℕ}
    (hfresh : Fresh C.toPoolArgs [] ⟨rawMem, C.chunkCount.toNat⟩) :
    Follows C ⟨construct C.toPoolArgs mem rawMem, [⟨rawMem, C.chunkCount.toNat⟩], []⟩
      (.start C.toPoolArgs rawMem) := by
  have hinv : Inv C ⟨construct C.toPoolArgs mem rawMem, [⟨rawMem, C.chunkCount.toNat⟩], []⟩ :=
    inv_initial ⟨mem, rawMem, hfresh, rfl⟩
  refine ⟨hinv, ?_, rfl, rfl⟩
  have hempty : MemPool.FreeList T ⟨mem, 0, 0⟩ [] := rfl
  have hgrown := hempty.grow C.one_le_chunkCount (by
    rw [List.append_nil]
    exact (spaced_chunks hinv.blocksOk).sublist (List.sublist_append_left _ _))
  rwa [List.append_nil] at hgrown

/-- **A pool is a stack of chunks.** Along every run, the chunks that callers hold, and those they
will get, are what the calls of `alloc` and `dealloc` make of the stack, whatever was in the memory
and whatever is written there. -/
theorem pool_is_a_stack (mem : ByteMemory) (rawMem : ℕ)
    (hfresh : Fresh C.toPoolArgs [] ⟨rawMem, C.chunkCount.toNat⟩) (ops : List PoolOp) (t : PoolSys)
    (hrun : run (step C.toPoolArgs)
      ⟨construct C.toPoolArgs mem rawMem, [⟨rawMem, C.chunkCount.toNat⟩], []⟩ ops = some t) :
    ∃ a, run (ChunkStack.step C.toPoolArgs) (.start C.toPoolArgs rawMem)
        (ops.filterMap PoolOp.call) = some a ∧
      t.held = a.held ∧ t.blocks = a.blocks ∧ t.pool.FreeList T a.free := by
  have hsim : ∀ (s : PoolSys) op t a, Follows C s a → s.step C.toPoolArgs op = some t →
      ∃ ops' a', run (ChunkStack.step C.toPoolArgs) a ops' = some a' ∧ Follows C t a' ∧
        ops'.filterMap some = op.call.toList := by
    intro s op t a h hstep
    obtain ⟨a', hrun, hfollows⟩ := h.step hstep
    exact ⟨op.call.toList, a', hrun, hfollows, List.filterMap_some⟩
  obtain ⟨ops', a, hrun', hfollows, hcalls⟩ :=
    exists_run_of_simulation hsim (follows_start hfresh) hrun
  rw [List.filterMap_some] at hcalls
  exact ⟨a, hcalls ▸ hrun', hfollows.held.symm, hfollows.blocks.symm, hfollows.free⟩

/-- The only chunk is handed out, its holder overwrites the link, and a refill hands out another. -/
theorem pool_is_a_stack_tiny : ∃ t a,
    run (step tinyPool.toPoolArgs) tinyStart [.alloc none, .write 4096 255, .alloc (some 8192)] =
      some t ∧
      run (ChunkStack.step tinyPool.toPoolArgs) (.start tinyPool.toPoolArgs 4096)
        [.alloc none, .alloc (some 8192)] = some a ∧
      t.held = a.held ∧ t.blocks = a.blocks ∧ t.pool.FreeList Target.lp64 a.free := by
  refine ⟨_, _, rfl, rfl, ?_⟩
  obtain ⟨a, ha, hfollows⟩ := pool_is_a_stack (C := tinyPool) (fun _ ↦ 0) 4096 (by decide)
    [.alloc none, .write 4096 255, .alloc (some 8192)] _ rfl
  obtain rfl := Option.some.inj ha
  exact hfollows

/-! ### How much memory a pool takes -/

theorem length_chunksFrom (A : PoolArgs T) (rawMem n : ℕ) : (chunksFrom A rawMem n).length = n := by
  rw [chunksFrom, List.length_map, List.length_range]

/-- A call of `alloc` gets a block only for a pool without free chunks. -/
theorem obtained_cases (s : PoolSys) (newArray : Option ℕ) :
    s.obtained C.toPoolArgs newArray = [] ∨ ∃ rawMem, s.pool.mFrees = 0 ∧
      newArray = some rawMem ∧
      s.obtained C.toPoolArgs newArray = [⟨rawMem, C.refillCount.toNat⟩] := by
  by_cases h0 : s.pool.mFrees = 0
  · cases newArray with
    | none => exact .inl (by simp [obtained])
    | some rawMem => exact .inr ⟨rawMem, h0, rfl, by simp [obtained, h0]⟩
  · exact .inl (if_neg h0)

/-- Without free chunks, every chunk is held. -/
theorem Inv.all_held (h : Inv C s) (h0 : s.pool.mFrees = 0) :
    s.held.length = (s.chunks C.toPoolArgs).length := by
  obtain ⟨frees, hfrees, hperm⟩ := h.exists_frees
  obtain rfl := hfrees.eq_nil_of_mFrees h0
  exact hperm.length_eq

/-- A call of `alloc` that gets a block hands a chunk out on top of all others. -/
theorem Inv.length_afterAlloc (h : Inv C s) (h0 : s.pool.mFrees = 0) (rawMem : ℕ) :
    (s.afterAlloc C.toPoolArgs (some rawMem)).held.length = (s.chunks C.toPoolArgs).length + 1 ∧
      ((s.afterAlloc C.toPoolArgs (some rawMem)).chunks C.toPoolArgs).length =
        C.refillCount.toNat + (s.chunks C.toPoolArgs).length := by
  constructor
  · rw [held_afterAlloc (by rw [alloc_of_empty _ h0]), List.length_cons, h.all_held h0]
  · have hblock : s.obtained C.toPoolArgs (some rawMem) = [⟨rawMem, C.refillCount.toNat⟩] := by
      simp [obtained, h0]
    show ((s.obtained C.toPoolArgs (some rawMem) ++ s.blocks).flatMap _).length = _
    rw [hblock, List.singleton_append, List.flatMap_cons, List.length_append, Block.chunks,
      length_chunksFrom, chunks]

/-- The number of chunks that a pool needs for callers that hold at most `most`. -/
def footprint (C : PoolConfig T) (most : ℕ) : ℕ :=
  max C.chunkCount.toNat (most - 1 + C.refillCount.toNat)

/-- **One step**, if no more than `most` chunks are held after it. -/
theorem Inv.footprint_step (h : Inv C s) {most : ℕ} {op : PoolOp}
    (hle : (s.chunks C.toPoolArgs).length ≤ footprint C most)
    (hstep : s.step C.toPoolArgs op = some t) (hmost : t.held.length ≤ most) :
    (t.chunks C.toPoolArgs).length ≤ footprint C most := by
  obtain ⟨newArray, rfl, -, rfl⟩ | ⟨p, rfl, -, rfl⟩ | ⟨b, v, rfl, -, rfl⟩ := step_cases hstep
  · obtain hnone | ⟨rawMem, h0, rfl, -⟩ := obtained_cases (C := C) s newArray
    · show ((s.obtained C.toPoolArgs newArray ++ s.blocks).flatMap _).length ≤ _
      rw [hnone]
      exact hle
    · obtain ⟨hheld, hchunks⟩ := h.length_afterAlloc h0 rawMem
      rw [hheld] at hmost
      rw [hchunks, footprint]
      omega
  · exact hle
  · exact hle

/-- **A pool's memory.** If never more than `most` chunks are held, there are never more chunks than
those of the first block, or those held but one and a refill; and `new[]` is asked for a block only
when every chunk is held. -/
theorem pool_footprint (s : PoolSys) (hinitial : s.Initial C.toPoolArgs) (ops : List PoolOp)
    (most : ℕ) (hmost : EveryState (step C.toPoolArgs) (fun t ↦ t.held.length ≤ most) s ops) :
    EveryState (step C.toPoolArgs) (fun t ↦ (t.chunks C.toPoolArgs).length ≤ footprint C most)
        s ops ∧
      EveryStep (step C.toPoolArgs) (fun t op ↦ ∀ newArray, op = .alloc newArray →
        t.obtained C.toPoolArgs newArray ≠ [] →
          t.held.length = (t.chunks C.toPoolArgs).length) s ops := by
  have hinv : EveryState (step C.toPoolArgs) (Inv C) s ops :=
    everyState_of_invariant (fun _ _ _ ↦ inv_step) (inv_initial hinitial)
  constructor
  · have hstart : (s.chunks C.toPoolArgs).length ≤ footprint C most := by
      obtain ⟨mem, rawMem, -, rfl⟩ := hinitial
      simp [chunks, Block.chunks, length_chunksFrom, footprint]
    have hboth : EveryState (step C.toPoolArgs)
        (fun t ↦ Inv C t ∧ (t.chunks C.toPoolArgs).length ≤ footprint C most) s ops :=
      everyState_of_everyStep (fun t op u ht hnext hstep ↦
        ⟨inv_step ht.1 hstep, ht.1.footprint_step ht.2 hstep (hnext u hstep)⟩)
        ⟨inv_initial hinitial, hstart⟩ hmost.next
    exact hboth.mono fun t ht ↦ ht.2
  · refine hinv.everyStep fun t op ht newArray _ hne ↦ ?_
    obtain hnone | ⟨rawMem, h0, -, -⟩ := obtained_cases (C := C) t newArray
    · exact absurd hnone hne
    · exact ht.all_held h0

/-- A pool of one chunk at a time, of which two are held in the end. -/
theorem pool_footprint_tiny : EveryState (step tinyPool.toPoolArgs)
    (fun t ↦ (t.chunks tinyPool.toPoolArgs).length ≤ 2) tinyStart
    [.alloc none, .write 4096 255, .alloc (some 8192)] :=
  (pool_footprint (C := tinyPool) tinyStart tinyStart_initial
    [.alloc none, .write 4096 255, .alloc (some 8192)] 2
    (.cons (Nat.zero_le 2) rfl (.cons (Nat.le_succ 1) rfl
      (.cons (Nat.le_succ 1) rfl (everyState_nil (Nat.le_refl 2)))))).1

end PoolSys

end Libk2
