import Libk2.Memory.MemPool
import Libk2.Foundation.StepSystem

/-!
# `mem_pool`: every chunk has at most one holder

The pool among its callers. `PoolSys` adds to the object what the program around it knows: the
blocks `new[]` has handed over so far and the chunks callers hold now. A step is one call, or one
byte written by somebody — a holder inside its own chunk, or the rest of the program anywhere
outside the pool's blocks. Nothing is assumed about those bytes.

`new[]` is constrained only by its contract (`Fresh`): the block it returns is not null, lies inside
the address space, and meets no block obtained before. It may also throw, at any `alloc`.

The invariant `Inv` is one statement about the heap: the list that starts at `m_frees` and the
chunks held make up exactly the chunks of the blocks. Everything else follows from it, because the
chunks of separate blocks are separate (`spaced_chunks`) and so a holder's writes reach no free
chunk's link.
-/

namespace Libk2

open ByteMemory PointerChain StepSystem MemPool

variable {T : Target}

/-! ### Blocks -/

/-- A block obtained from `new[]`: its address and its number of chunks. -/
structure Block where
  base : ℕ
  chunkCnt : ℕ
deriving DecidableEq

namespace Block

variable (A : PoolArgs T)

/-- The size that was asked of `new[]`. -/
def bytes (B : Block) : ℕ := B.chunkCnt * A.stride

/-- The chunks of a block. -/
def chunks (B : Block) : List ℕ := chunksFrom A B.base B.chunkCnt

variable {A}

theorem mem_chunks {B : Block} {c : ℕ} :
    c ∈ B.chunks A ↔ ∃ i < B.chunkCnt, c = B.base + i * A.stride := by
  simp [chunks, chunksFrom, eq_comm]

/-- A chunk lies inside its block. -/
theorem chunk_inside {B : Block} {c : ℕ} (hc : c ∈ B.chunks A) :
    B.base ≤ c ∧ c + A.stride ≤ B.base + B.bytes A := by
  obtain ⟨i, hi, rfl⟩ := mem_chunks.1 hc
  have hmul : (i + 1) * A.stride ≤ B.chunkCnt * A.stride := Nat.mul_le_mul_right _ hi
  rw [Nat.succ_mul] at hmul
  rw [bytes]
  omega

end Block

/-! ### The pool and its callers -/

/-- The pool among its callers. -/
structure PoolSys where
  pool : MemPool
  /-- The blocks obtained from `new[]` so far, the newest first. -/
  blocks : List Block
  /-- The chunks callers hold. -/
  held : List ℕ

/-- What can happen to a pool. -/
inductive PoolOp where
  /-- A call of `alloc`, with what `new[]` answers if it is asked. -/
  | alloc (newArray : Option ℕ)
  /-- A call of `dealloc`. -/
  | dealloc (p : ℕ)
  /-- Somebody writes one byte. -/
  | write (a : ℕ) (v : UInt8)

namespace PoolSys

variable (A : PoolArgs T)

/-- The chunks of all blocks. -/
def chunks (s : PoolSys) : List ℕ := s.blocks.flatMap (Block.chunks A)

/-- The contract of `new[]`: a block it returns is not null, ends inside the address space, and does
not meet a block obtained before. -/
def Fresh (blocks : List Block) (B : Block) : Prop :=
  B.base ≠ 0 ∧ B.base + B.bytes A ≤ 2 ^ T.bits ∧
    ∀ B' ∈ blocks, Apart B.base (B.bytes A) B'.base (B'.bytes A)

instance (blocks : List Block) (B : Block) : Decidable (Fresh A blocks B) :=
  inferInstanceAs (Decidable (_ ∧ _ ∧ _))

/-- The block a call of `alloc` obtains: one if the pool is empty and `new[]` does not throw. -/
def obtained (s : PoolSys) (newArray : Option ℕ) : List Block :=
  if s.pool.mFrees = 0 then (newArray.map fun rawMem ↦ ⟨rawMem, A.refillCount.toNat⟩).toList else []

/-- The bytes the program may write: those of held chunks, and those outside the pool's blocks. -/
def Writable (s : PoolSys) (a : ℕ) : Prop :=
  (∀ B ∈ s.blocks, a < B.base ∨ B.base + B.bytes A ≤ a) ∨ ∃ c ∈ s.held, c ≤ a ∧ a < c + A.stride

instance (s : PoolSys) (a : ℕ) : Decidable (s.Writable A a) :=
  inferInstanceAs (Decidable (_ ∨ _))

/-- The state after a call of `alloc`. -/
def afterAlloc (s : PoolSys) (newArray : Option ℕ) : PoolSys where
  pool := (s.pool.alloc A newArray).2
  blocks := s.obtained A newArray ++ s.blocks
  held := (s.pool.alloc A newArray).1.toList ++ s.held

/-- One call, or one byte written. -/
def step (s : PoolSys) : PoolOp → Option PoolSys
  | .alloc newArray =>
    if ∀ B ∈ s.obtained A newArray, Fresh A s.blocks B then some (s.afterAlloc A newArray) else none
  | .dealloc p =>
    if p ∈ s.held then some { s with pool := s.pool.dealloc T p, held := s.held.erase p } else none
  | .write a v =>
    if s.Writable A a then
      some { s with pool := { s.pool with mem := Function.update s.pool.mem a v } }
    else none

/-- A pool just constructed: `new[]` returned a fresh block in some memory. -/
def Initial (s : PoolSys) : Prop :=
  ∃ mem rawMem, Fresh A [] ⟨rawMem, A.chunkCount.toNat⟩ ∧
    s = ⟨construct A mem rawMem, [⟨rawMem, A.chunkCount.toNat⟩], []⟩

variable {A} in
/-- What a step can do, guards included. -/
theorem step_cases {s t : PoolSys} {op : PoolOp} (h : s.step A op = some t) :
    (∃ newArray, op = .alloc newArray ∧ (∀ B ∈ s.obtained A newArray, Fresh A s.blocks B) ∧
      t = s.afterAlloc A newArray) ∨
    (∃ p, op = .dealloc p ∧ p ∈ s.held ∧
      t = { s with pool := s.pool.dealloc T p, held := s.held.erase p }) ∨
    (∃ a v, op = .write a v ∧ s.Writable A a ∧
      t = { s with pool := { s.pool with mem := Function.update s.pool.mem a v } }) := by
  cases op with
  | alloc newArray =>
    obtain ⟨hfresh, ht⟩ := Option.ite_none_right_eq_some.1 h
    exact Or.inl ⟨newArray, rfl, hfresh, (Option.some.inj ht).symm⟩
  | dealloc p =>
    obtain ⟨hp, ht⟩ := Option.ite_none_right_eq_some.1 h
    exact Or.inr (Or.inl ⟨p, rfl, hp, (Option.some.inj ht).symm⟩)
  | write a v =>
    obtain ⟨ha, ht⟩ := Option.ite_none_right_eq_some.1 h
    exact Or.inr (Or.inr ⟨a, v, rfl, ha, (Option.some.inj ht).symm⟩)

/-! ### Chunks of separate blocks are separate -/

variable (C : PoolConfig T)

/-- What `new[]` guarantees about all blocks together. -/
structure BlocksOk (blocks : List Block) : Prop where
  base_ne_zero : ∀ B ∈ blocks, B.base ≠ 0
  le_top : ∀ B ∈ blocks, B.base + B.bytes C.toPoolArgs ≤ 2 ^ T.bits
  apart : blocks.Pairwise fun B B' ↦
    Apart B.base (B.bytes C.toPoolArgs) B'.base (B'.bytes C.toPoolArgs)

variable {C}

theorem BlocksOk.cons {blocks : List Block} {B : Block} (h : BlocksOk C blocks)
    (hB : Fresh C.toPoolArgs blocks B) : BlocksOk C (B :: blocks) where
  base_ne_zero := List.forall_mem_cons.2 ⟨hB.1, h.base_ne_zero⟩
  le_top := List.forall_mem_cons.2 ⟨hB.2.1, h.le_top⟩
  apart := List.pairwise_cons.2 ⟨hB.2.2, h.apart⟩

theorem blocksOk_nil : BlocksOk C [] where
  base_ne_zero := by simp
  le_top := by simp
  apart := List.Pairwise.nil

theorem pairwise_chunksFrom (rawMem n : ℕ) :
    (chunksFrom C.toPoolArgs rawMem n).Pairwise fun c d ↦ Apart c C.stride d C.stride := by
  refine List.pairwise_map.2 (List.pairwise_lt_range.imp fun {i j} hij ↦ Or.inl ?_)
  have hmul : (i + 1) * C.stride ≤ j * C.stride := Nat.mul_le_mul_right _ hij
  rw [Nat.succ_mul] at hmul
  omega

/-- **All chunks are separate**: within a block by the stride, across blocks because the blocks
are. -/
theorem spaced_chunks {blocks : List Block} (h : BlocksOk C blocks) :
    Spaced C (blocks.flatMap (Block.chunks C.toPoolArgs)) := by
  refine ⟨fun c hc ↦ ?_, fun c hc ↦ ?_, ?_⟩
  · obtain ⟨B, hB, hcB⟩ := List.mem_flatMap.1 hc
    have := (Block.chunk_inside hcB).1
    have := h.base_ne_zero B hB
    omega
  · obtain ⟨B, hB, hcB⟩ := List.mem_flatMap.1 hc
    exact (Block.chunk_inside hcB).2.trans (h.le_top B hB)
  · refine List.pairwise_flatMap.2 ⟨fun B _ ↦ pairwise_chunksFrom B.base B.chunkCnt, ?_⟩
    refine h.apart.imp fun {B B'} hBB' c hc d hd ↦ ?_
    exact hBB'.mono (Block.chunk_inside hc).1 (Block.chunk_inside hc).2
      (Block.chunk_inside hd).1 (Block.chunk_inside hd).2

/-! ### The invariant -/

variable (C) in
/-- **The pool invariant.** The free chunks and the held chunks are the chunks of the blocks. -/
structure Inv (s : PoolSys) : Prop where
  blocksOk : BlocksOk C s.blocks
  exists_frees : ∃ frees, s.pool.FreeList T frees ∧
    (frees ++ s.held).Perm (s.chunks C.toPoolArgs)

theorem Inv.spaced {s : PoolSys} (h : Inv C s) {frees : List ℕ}
    (hperm : (frees ++ s.held).Perm (s.chunks C.toPoolArgs)) : Spaced C (frees ++ s.held) :=
  (spaced_chunks h.blocksOk).perm hperm.symm

/-- An emptied pool that grows: the new block's chunks are free, the others are where they were. -/
theorem Inv.grow {s : PoolSys} (h : Inv C s) {rawMem : ℕ} {chunkCnt : SizeT T}
    (hcnt : 1 ≤ chunkCnt.toNat) (hfresh : Fresh C.toPoolArgs s.blocks ⟨rawMem, chunkCnt.toNat⟩) :
    Inv C ⟨MemPool.grow C.toPoolArgs s.pool chunkCnt rawMem, ⟨rawMem, chunkCnt.toNat⟩ :: s.blocks,
      s.held⟩ := by
  obtain ⟨frees, hfrees, hperm⟩ := h.exists_frees
  have hblocks : BlocksOk C (⟨rawMem, chunkCnt.toNat⟩ :: s.blocks) := h.blocksOk.cons hfresh
  have hall : (chunksFrom C.toPoolArgs rawMem chunkCnt.toNat ++ (frees ++ s.held)).Perm
      (chunksFrom C.toPoolArgs rawMem chunkCnt.toNat ++ s.chunks C.toPoolArgs) :=
    hperm.append_left _
  have hsp : Spaced C (chunksFrom C.toPoolArgs rawMem chunkCnt.toNat ++ frees) := by
    refine ((spaced_chunks hblocks).perm hall.symm).sublist ?_
    rw [← List.append_assoc]
    exact List.sublist_append_left _ _
  refine ⟨hblocks, _, hfrees.grow hcnt hsp, ?_⟩
  rw [List.append_assoc]
  exact ((List.reverse_perm _).append_right _).trans hall

/-- Handing out the first free chunk. -/
theorem Inv.take {s : PoolSys} (h : Inv C s) (h0 : s.pool.mFrees ≠ 0) :
    Inv C { s with pool := (s.pool.take T).2, held := (s.pool.take T).1 :: s.held } := by
  obtain ⟨frees, hfrees, hperm⟩ := h.exists_frees
  obtain ⟨r, rest, rfl, hr, hrest⟩ := hfrees.exists_cons h0
  obtain rfl : s.pool.pnext T s.pool.mFrees = r := Option.some.inj hr
  exact ⟨h.blocksOk, rest, hrest, List.perm_middle.trans hperm⟩

theorem Inv.mFrees_ne_zero_of_grow {s : MemPool} {rawMem : ℕ} {chunkCnt : SizeT T} {l : List ℕ}
    (hcnt : 1 ≤ chunkCnt.toNat)
    (h : (MemPool.grow C.toPoolArgs s chunkCnt rawMem).FreeList T
      ((chunksFrom C.toPoolArgs rawMem chunkCnt.toNat).reverse ++ l)) :
    (MemPool.grow C.toPoolArgs s chunkCnt rawMem).mFrees ≠ 0 := by
  intro h0
  have hlen := congrArg List.length (h.eq_nil_of_mFrees h0)
  simp only [chunksFrom, List.length_append, List.length_reverse, List.length_map,
    List.length_range, List.length_nil] at hlen
  omega

/-- **`alloc` keeps the invariant**, whether it takes a free chunk, grows first, or throws. -/
theorem Inv.afterAlloc {s : PoolSys} (h : Inv C s) {newArray : Option ℕ}
    (hfresh : ∀ B ∈ s.obtained C.toPoolArgs newArray, Fresh C.toPoolArgs s.blocks B) :
    Inv C (s.afterAlloc C.toPoolArgs newArray) := by
  by_cases h0 : s.pool.mFrees = 0
  · cases newArray with
    | none => simpa [PoolSys.afterAlloc, obtained, alloc_none_of_empty _ h0] using h
    | some rawMem =>
      have hone := C.one_le_refillCount
      have hB : Fresh C.toPoolArgs s.blocks ⟨rawMem, C.refillCount.toNat⟩ :=
        hfresh _ (by simp [obtained, h0])
      have hgrown := h.grow hone hB
      obtain ⟨frees, hfrees, -⟩ := h.exists_frees
      obtain rfl := hfrees.eq_nil_of_mFrees h0
      have hne := Inv.mFrees_ne_zero_of_grow hone (hfrees.grow hone (by
        rw [List.append_nil]
        exact (spaced_chunks hgrown.blocksOk).sublist (List.sublist_append_left _ _)))
      have htaken := hgrown.take hne
      simpa [PoolSys.afterAlloc, obtained, h0, alloc_of_empty _ h0, MemPool.take] using htaken
  · have htaken := h.take h0
    simpa [PoolSys.afterAlloc, obtained, h0, alloc_of_frees _ h0, MemPool.take] using htaken

/-- **`dealloc` keeps the invariant**: the chunk given back is separate from every free one. -/
theorem Inv.dealloc {s : PoolSys} (h : Inv C s) {p : ℕ} (hp : p ∈ s.held) :
    Inv C { s with pool := s.pool.dealloc T p, held := s.held.erase p } := by
  obtain ⟨frees, hfrees, hperm⟩ := h.exists_frees
  have hmove : (p :: frees ++ s.held.erase p).Perm (frees ++ s.held) :=
    List.perm_middle.symm.trans ((List.perm_cons_erase hp).symm.append_left frees)
  have hsp : Spaced C (p :: frees) :=
    ((h.spaced hperm).perm hmove.symm).sublist (List.sublist_append_left _ _)
  exact ⟨h.blocksOk, p :: frees, hfrees.deposit hsp, hmove.trans hperm⟩

/-- A byte the program may write lies in no free chunk. -/
theorem Inv.outside_of_writable {s : PoolSys} (h : Inv C s) {frees : List ℕ}
    (hperm : (frees ++ s.held).Perm (s.chunks C.toPoolArgs)) {a : ℕ}
    (ha : s.Writable C.toPoolArgs a) {c : ℕ} (hc : c ∈ frees) : a < c ∨ c + C.stride ≤ a := by
  rcases ha with hout | ⟨d, hd, hda, had⟩
  · have hmem : c ∈ s.chunks C.toPoolArgs := hperm.subset (List.mem_append_left _ hc)
    obtain ⟨B, hB, hcB⟩ := List.mem_flatMap.1 hmem
    have hin := Block.chunk_inside hcB
    have := hout B hB
    omega
  · have hcd := (List.pairwise_append.1 (h.spaced hperm).apart).2.2 c hc d hd
    unfold Apart at hcd
    omega

/-- **Hostile writes keep the invariant.** -/
theorem Inv.write {s : PoolSys} (h : Inv C s) {a : ℕ} {v : UInt8}
    (ha : s.Writable C.toPoolArgs a) :
    Inv C { s with pool := { s.pool with mem := Function.update s.pool.mem a v } } := by
  obtain ⟨frees, hfrees, hperm⟩ := h.exists_frees
  refine ⟨h.blocksOk, frees, hfrees.congr fun c hc ↦ congrArg some ?_, hperm⟩
  have hout := h.outside_of_writable hperm ha hc
  have hword := C.ptrBytes_le_stride
  exact loadWord_update_of_outside (by omega)

theorem inv_step {s t : PoolSys} {op : PoolOp} (h : Inv C s)
    (hstep : s.step C.toPoolArgs op = some t) : Inv C t := by
  obtain ⟨newArray, -, hfresh, rfl⟩ | ⟨p, -, hp, rfl⟩ | ⟨a, v, -, ha, rfl⟩ := step_cases hstep
  · exact h.afterAlloc hfresh
  · exact h.dealloc hp
  · exact h.write ha

theorem inv_initial {s : PoolSys} (h : s.Initial C.toPoolArgs) : Inv C s := by
  obtain ⟨mem, rawMem, hfresh, rfl⟩ := h
  have hempty : Inv C ⟨⟨mem, 0, 0⟩, [], []⟩ := ⟨blocksOk_nil, [], rfl, List.Perm.refl _⟩
  exact hempty.grow C.one_le_chunkCount hfresh

/-- **Every reachable pool meets the invariant.** -/
theorem inv_of_reachable {s : PoolSys}
    (h : Reachable (step C.toPoolArgs) (Initial C.toPoolArgs) s) : Inv C s :=
  h.invariant (fun _ ↦ inv_initial) fun _ _ _ ↦ inv_step

/-! ### One holder at most -/

variable (C) in
/-- What the pool owes its callers in a state. -/
structure ChunkSafety (s : PoolSys) : Prop where
  /-- The free list is a finite chain without repetition of the chunks nobody holds. -/
  free_list : ∃ frees, s.pool.FreeList T frees ∧ frees.Nodup ∧
    ∀ c, c ∈ frees ↔ c ∈ s.chunks C.toPoolArgs ∧ c ∉ s.held
  /-- A call of `alloc` that returns, returns a chunk nobody holds. -/
  alloc_new : ∀ newArray t p, s.step C.toPoolArgs (.alloc newArray) = some t →
    (s.pool.alloc C.toPoolArgs newArray).1 = some p →
      p ≠ 0 ∧ p ∉ s.held ∧ p ∈ t.chunks C.toPoolArgs
  /-- A call of `alloc` that throws leaves the pool as it was. -/
  alloc_throws : ∀ newArray, (s.pool.alloc C.toPoolArgs newArray).1 = none →
    (s.pool.alloc C.toPoolArgs newArray).2 = s.pool
  /-- Held chunks are separate ranges of at least `ChunkBytes` bytes. -/
  held_apart : s.held.Pairwise fun c d ↦ Apart c C.stride d C.stride
  chunkBytes_le : C.chunkBytes.toNat ≤ C.stride
  /-- Held chunks lie inside blocks. -/
  held_inside : ∀ c ∈ s.held, ∃ B ∈ s.blocks,
    B.base ≤ c ∧ c + C.stride ≤ B.base + B.bytes C.toPoolArgs

/-- What `alloc` returns is held afterwards, on top of what was held before. -/
theorem held_afterAlloc {s : PoolSys} {newArray : Option ℕ} {p : ℕ}
    (hp : (s.pool.alloc C.toPoolArgs newArray).1 = some p) :
    (s.afterAlloc C.toPoolArgs newArray).held = p :: s.held := by
  rw [PoolSys.afterAlloc, hp]
  rfl

theorem Inv.spaced_held {s : PoolSys} (h : Inv C s) : Spaced C s.held := by
  obtain ⟨frees, -, hperm⟩ := h.exists_frees
  exact (h.spaced hperm).sublist (List.sublist_append_right _ _)

theorem Inv.held_subset {s : PoolSys} (h : Inv C s) {c : ℕ} (hc : c ∈ s.held) :
    c ∈ s.chunks C.toPoolArgs := by
  obtain ⟨frees, -, hperm⟩ := h.exists_frees
  exact hperm.subset (List.mem_append_right _ hc)

/-- The free chunks are the ones not held. -/
theorem Inv.mem_frees_iff {s : PoolSys} (h : Inv C s) {frees : List ℕ}
    (hperm : (frees ++ s.held).Perm (s.chunks C.toPoolArgs)) {c : ℕ} :
    c ∈ frees ↔ c ∈ s.chunks C.toPoolArgs ∧ c ∉ s.held := by
  have hnd := List.nodup_append.1 (h.spaced hperm).nodup
  constructor
  · intro hc
    exact ⟨hperm.subset (List.mem_append_left _ hc), fun hheld ↦ hnd.2.2 c hc c hheld rfl⟩
  · rintro ⟨hc, hheld⟩
    exact (List.mem_append.1 (hperm.mem_iff.2 hc)).resolve_right hheld

/-- **Each chunk has at most one holder**, in every state the pool can reach: whatever the callers
write into the chunks they hold, and whenever `new[]` throws. -/
theorem chunk_has_one_holder {s : PoolSys}
    (h : Reachable (step C.toPoolArgs) (Initial C.toPoolArgs) s) : ChunkSafety C s := by
  have hinv := inv_of_reachable h
  refine ⟨?_, fun newArray t p hstep hp ↦ ?_, fun newArray hnone ↦ ?_, hinv.spaced_held.apart,
    C.chunkBytes_le_stride, fun c hc ↦ ?_⟩
  · obtain ⟨frees, hfrees, hperm⟩ := hinv.exists_frees
    exact ⟨frees, hfrees, hfrees.nodup, fun c ↦ hinv.mem_frees_iff hperm⟩
  · -- the state afterwards holds `p` and everything held before, each chunk once
    have hafter := inv_step hinv hstep
    obtain ⟨-, ⟨⟩⟩ := Option.ite_none_right_eq_some.1 hstep
    have hheld := held_afterAlloc hp
    have hmem : p ∈ (s.afterAlloc C.toPoolArgs newArray).held := hheld ▸ List.mem_cons_self
    refine ⟨hafter.spaced_held.ne_zero p hmem, ?_, hafter.held_subset hmem⟩
    exact (List.nodup_cons.1 (hheld ▸ hafter.spaced_held.nodup)).1
  · by_cases h0 : s.pool.mFrees = 0
    · cases newArray with
      | none => rw [alloc_none_of_empty _ h0]
      | some rawMem => rw [alloc_of_empty _ h0] at hnone; cases hnone
    · rw [alloc_of_frees _ h0] at hnone
      cases hnone
  · obtain ⟨B, hB, hcB⟩ := List.mem_flatMap.1 (hinv.held_subset hc)
    exact ⟨B, hB, Block.chunk_inside hcB⟩

/-! ### A small pool -/

/-- One chunk of eight bytes, on the 64-bit target. -/
def tinyPool : PoolConfig Target.lp64 where
  chunkCount := 1
  chunkBytes := 8
  one_le_chunkBytes := by decide
  chunkBytes_le := by decide
  one_le_chunkCount := by decide
  fits := by decide

/-- The small pool just constructed, its block at 4096 in zeroed memory. -/
def tinyStart : PoolSys :=
  ⟨construct tinyPool.toPoolArgs (fun _ ↦ 0) 4096, [⟨4096, 1⟩], []⟩

theorem tinyStart_initial : tinyStart.Initial tinyPool.toPoolArgs :=
  ⟨fun _ ↦ 0, 4096, by decide, rfl⟩

/-- The only chunk is handed out, its holder overwrites the link, and a refill hands out another. -/
theorem chunk_has_one_holder_tiny : ∃ s,
    run (step tinyPool.toPoolArgs) tinyStart [.alloc none, .write 4096 255, .alloc (some 8192)] =
      some s ∧ s.held = [8192, 4096] ∧ ChunkSafety tinyPool s :=
  ⟨_, rfl, rfl, chunk_has_one_holder
    ⟨tinyStart, [.alloc none, .write 4096 255, .alloc (some 8192)], tinyStart_initial, rfl⟩⟩

end PoolSys

end Libk2
