import Libk2.Memory.MemPoolSafety

/-!
# `mem_pool`: what the destructor gives back

`~mem_pool` follows the block list from `m_allocs`: read the block's `pnext`, `delete[]` the block,
go on. But `grow` deposits the whole block, its first chunk included, and `deposit` overwrites that
chunk's first word — the very word the block link was just written to. From then on a block's header
link is whatever its first chunk's first word happens to be: the free-list link while the chunk is
free, and its holder's bytes while it is held (`pnext_eq_headerLink`).

So the destructor frees exactly the blocks only when those words chain the blocks together by
accident, and `destroys_exactly_iff_headersLinked` says precisely when. With a single block it comes
down to one word being null (`headersLinked_singleton`); a pool that refilled loses its older blocks
unless somebody put their addresses back.

`delete[]` is a parameter (`DeleteArray`): it may do anything to memory except change the bytes of a
block that has not been deleted.
-/

namespace Libk2

open ByteMemory PointerChain StepSystem MemPool

variable {T : Target}

/-! ### The destructor -/

/-- What `delete[]` does to memory, given what was deleted before: it leaves the blocks that are
still allocated alone. -/
structure DeleteArray (A : PoolArgs T) (blocks : List Block) where
  run : List ℕ → ByteMemory → ℕ → ByteMemory
  frame : ∀ deleted m p, ∀ B ∈ blocks, B.base ≠ p → B.base ∉ deleted →
    ∀ c, B.base ≤ c → c < B.base + B.bytes A → run deleted m p c = m c

/-- A `delete[]` that leaves all memory as it is. -/
def DeleteArray.idle (A : PoolArgs T) (blocks : List Block) : DeleteArray A blocks :=
  ⟨fun _ m _ ↦ m, fun _ _ _ _ _ _ _ _ _ _ ↦ rfl⟩

namespace MemPool

variable (T) in
/-- The loop of `mem_pool::~mem_pool` from the block `pchunk` on, with the addresses passed to
`delete[]` so far; the result is all of them. `none` is a loop that has not ended yet. -/
def destroy (delete : List ℕ → ByteMemory → ℕ → ByteMemory) :
    ℕ → List ℕ → ByteMemory → ℕ → Option (List ℕ)
  | 0, _, _, _ => none
  | fuel + 1, deleted, m, pchunk =>
    if pchunk = 0 then some deleted
    else destroy delete fuel (deleted ++ [pchunk]) (delete deleted m pchunk)
      (m.loadWord T.ptrBytes pchunk)

end MemPool

namespace PoolSys

variable {C : PoolConfig T}

/-- The destructor's loop ends, having deleted every block once and nothing else. -/
def DestroysExactly (s : PoolSys) (del : DeleteArray C.toPoolArgs s.blocks) : Prop :=
  ∃ fuel deleted, destroy T del.run fuel [] s.pool.mem s.pool.mAllocs = some deleted ∧
    deleted.Perm (s.blocks.map Block.base)

/-- The links in memory, as the destructor reads them. -/
def links (T : Target) (m : ByteMemory) (p : ℕ) : Option ℕ := some (m.loadWord T.ptrBytes p)

/-- Deleting one block leaves the links of the others. -/
theorem links_delete {blocks : List Block} (del : DeleteArray C.toPoolArgs blocks)
    (hcnt : ∀ B ∈ blocks, 1 ≤ B.chunkCnt) {deleted : List ℕ} {m : ByteMemory} {p b : ℕ}
    (hb : b ∈ blocks.map Block.base) (hbp : b ≠ p) (hbd : b ∉ deleted) :
    links T (del.run deleted m p) b = links T m b := by
  obtain ⟨B, hB, rfl⟩ := List.mem_map.1 hb
  refine congrArg some (loadWord_congr fun c hc hc' ↦ del.frame deleted m p B hB hbp hbd c hc ?_)
  have hword := C.ptrBytes_le_stride
  have hbytes : 1 * C.stride ≤ B.bytes C.toPoolArgs := Nat.mul_le_mul_right _ (hcnt B hB)
  omega

/-- Deleting the head of a chain of blocks leaves the chain behind it. -/
theorem chain_delete_iff {blocks : List Block} (del : DeleteArray C.toPoolArgs blocks)
    (hcnt : ∀ B ∈ blocks, 1 ≤ B.chunkCnt) {deleted l : List ℕ} {m : ByteMemory} {p q : ℕ}
    (hnodup : (deleted ++ p :: l).Nodup) (hl : ∀ b ∈ l, b ∈ blocks.map Block.base) :
    Chain 0 (links T (del.run deleted m p)) q l ↔ Chain 0 (links T m) q l := by
  have hsame : ∀ b ∈ l, links T (del.run deleted m p) b = links T m b := by
    intro b hb
    have hdis := List.nodup_append.1 hnodup
    refine links_delete del hcnt (hl b hb) ?_ fun hbd ↦ ?_
    · rintro rfl
      exact (List.nodup_cons.1 hdis.2.1).1 hb
    · exact hdis.2.2 b hbd b (List.mem_cons_of_mem _ hb) rfl
  exact ⟨fun h ↦ h.congr fun b hb ↦ (hsame b hb).symm, fun h ↦ h.congr hsame⟩

/-- The loop only adds to what has been deleted. -/
theorem prefix_destroy {delete : List ℕ → ByteMemory → ℕ → ByteMemory} {fuel : ℕ}
    {deleted all : List ℕ} {m : ByteMemory} {p : ℕ}
    (h : destroy T delete fuel deleted m p = some all) : deleted <+: all := by
  induction fuel generalizing deleted m p with
  | zero => cases h
  | succ fuel ih =>
    rw [destroy] at h
    split at h
    · exact Option.some.inj h ▸ List.prefix_refl _
    · exact (List.prefix_append _ _).trans (ih h)

/-- A chain of blocks is deleted in order, and then the loop ends. -/
theorem destroy_of_chain {blocks : List Block} (del : DeleteArray C.toPoolArgs blocks)
    (hcnt : ∀ B ∈ blocks, 1 ≤ B.chunkCnt) (deleted : List ℕ) {l : List ℕ} {m : ByteMemory} {p : ℕ}
    (hnodup : (deleted ++ l).Nodup) (hl : ∀ b ∈ l, b ∈ blocks.map Block.base)
    (h : Chain 0 (links T m) p l) :
    destroy T del.run (l.length + 1) deleted m p = some (deleted ++ l) := by
  induction l generalizing deleted m p with
  | nil => rw [chain_nil.1 h, List.append_nil, destroy, if_pos rfl]
  | cons b l ih =>
    obtain ⟨rfl, hp, r, hr, htail⟩ := h
    obtain rfl : m.loadWord T.ptrBytes p = r := Option.some.inj hr
    have hl' : ∀ b ∈ l, b ∈ blocks.map Block.base := fun b hb ↦ hl b (List.mem_cons_of_mem _ hb)
    rw [List.length_cons, destroy, if_neg hp, List.append_cons deleted p l]
    exact ih _ (List.append_cons deleted p l ▸ hnodup) hl'
      ((chain_delete_iff del hcnt hnodup hl').2 htail)

/-- Conversely, a loop that deleted blocks only, each once, followed a chain of them. -/
theorem chain_of_destroy {blocks : List Block} (del : DeleteArray C.toPoolArgs blocks)
    (hcnt : ∀ B ∈ blocks, 1 ≤ B.chunkCnt) (deleted : List ℕ) {fuel : ℕ} {l : List ℕ}
    {m : ByteMemory} {p : ℕ} (hnodup : (deleted ++ l).Nodup)
    (hl : ∀ b ∈ l, b ∈ blocks.map Block.base)
    (h : destroy T del.run fuel deleted m p = some (deleted ++ l)) :
    Chain 0 (links T m) p l := by
  induction fuel generalizing l deleted m p with
  | zero => cases h
  | succ fuel ih =>
    rw [destroy] at h
    split at h
    · next hp =>
      -- the loop ends here, so nothing more was deleted
      have hnil : l = [] := List.self_eq_append_right.1 (Option.some.inj h)
      rw [hnil, chain_nil, hp]
    · next hp =>
      obtain ⟨l', hall⟩ := prefix_destroy h
      rw [List.append_assoc, List.append_cancel_left_eq] at hall
      subst hall
      rw [List.cons_append, List.nil_append] at hnodup hl h
      have hl' : ∀ b ∈ l', b ∈ blocks.map Block.base :=
        fun b hb ↦ hl b (List.mem_cons_of_mem _ hb)
      have hchain :=
        ih (deleted ++ [p]) (by rwa [← List.append_cons]) hl' (by rwa [← List.append_cons])
      exact ⟨rfl, hp, _, rfl, (chain_delete_iff del hcnt hnodup hl').1 hchain⟩

/-! ### The header links -/

/-- The cell behind `a` in a list, null behind the last one. -/
def successorIn : List ℕ → ℕ → ℕ
  | [], _ => 0
  | b :: l, a => if b = a then l.headD 0 else successorIn l a

/-- In a chain the link of a cell is its successor. -/
theorem link_eq_successorIn {f : ℕ → ℕ} {p a : ℕ} {l : List ℕ}
    (h : Chain 0 (fun b ↦ some (f b)) p l) (ha : a ∈ l) : f a = successorIn l a := by
  induction l generalizing p with
  | nil => exact absurd ha List.not_mem_nil
  | cons b l ih =>
    obtain ⟨rfl, -, r, hr, htail⟩ := h
    rw [successorIn]
    split
    · next hpa =>
      subst hpa
      rw [Option.some.inj hr]
      cases l with
      | nil => exact htail
      | cons c l => exact htail.1
    · next hpa => exact ih htail ((List.mem_cons.1 ha).resolve_left fun hap ↦ hpa hap.symm)

/-- A block's header link in terms of the free list and the holders' bytes: the successor of its
first chunk on the free list while that chunk is free, the word its holder left there while it is
held. -/
def headerLink (T : Target) (s : PoolSys) (frees : List ℕ) (b : ℕ) : ℕ :=
  if b ∈ s.held then s.pool.pnext T b else successorIn frees b

/-- **The condition.** There is an order of all blocks, the newest first, in which each block's
header link is the next block, and the last one's is null. -/
def HeadersLinked (T : Target) (s : PoolSys) (frees : List ℕ) : Prop :=
  ∃ order : List ℕ, order.Perm (s.blocks.map Block.base) ∧
    Chain 0 (fun b ↦ some (headerLink T s frees b)) ((s.blocks.map Block.base).headD 0) order

/-! ### The block list along a run -/

/-- What the block list keeps: `m_allocs` is the newest block, and no block is empty. -/
structure AllocsOk (s : PoolSys) : Prop where
  mAllocs_eq : s.pool.mAllocs = (s.blocks.map Block.base).headD 0
  one_le_chunkCnt : ∀ B ∈ s.blocks, 1 ≤ B.chunkCnt

theorem allocsOk_step {s t : PoolSys} {op : PoolOp} (h : AllocsOk s)
    (hstep : s.step C.toPoolArgs op = some t) : AllocsOk t := by
  obtain ⟨newArray, -, -, rfl⟩ | ⟨p, -, -, rfl⟩ | ⟨a, v, -, -, rfl⟩ := step_cases hstep
  · by_cases h0 : s.pool.mFrees = 0
    · cases newArray with
      | none => simpa [PoolSys.afterAlloc, obtained, alloc_none_of_empty _ h0] using h
      | some rawMem =>
        refine ⟨?_, ?_⟩
        · simp [PoolSys.afterAlloc, obtained, h0, alloc_of_empty _ h0]
        · simpa [PoolSys.afterAlloc, obtained, h0] using ⟨C.one_le_refillCount, h.one_le_chunkCnt⟩
    · have hpool : (s.afterAlloc C.toPoolArgs newArray).pool.mAllocs = s.pool.mAllocs := by
        simp [PoolSys.afterAlloc, alloc_of_frees _ h0]
      have hblocks : (s.afterAlloc C.toPoolArgs newArray).blocks = s.blocks := by
        simp [PoolSys.afterAlloc, obtained, h0]
      exact ⟨by rw [hpool, hblocks, h.mAllocs_eq], by rw [hblocks]; exact h.one_le_chunkCnt⟩
  · exact ⟨h.mAllocs_eq, h.one_le_chunkCnt⟩
  · exact ⟨h.mAllocs_eq, h.one_le_chunkCnt⟩

theorem allocsOk_of_reachable {s : PoolSys}
    (h : Reachable (step C.toPoolArgs) (Initial C.toPoolArgs) s) : AllocsOk s := by
  refine h.invariant ?_ fun _ _ _ ↦ allocsOk_step
  rintro s ⟨mem, rawMem, -, rfl⟩
  exact ⟨mAllocs_grow _ _ _ _, by simpa using C.one_le_chunkCount⟩

/-- **The header link is what memory holds.** -/
theorem pnext_eq_headerLink {s : PoolSys} (hinv : Inv C s) (hall : AllocsOk s) {frees : List ℕ}
    (hfrees : s.pool.FreeList T frees) {b : ℕ} (hb : b ∈ s.blocks.map Block.base) :
    s.pool.pnext T b = headerLink T s frees b := by
  obtain ⟨B, hB, rfl⟩ := List.mem_map.1 hb
  rw [headerLink]
  split
  · rfl
  · next hheld =>
    obtain ⟨frees', hfrees', hperm⟩ := hinv.exists_frees
    obtain rfl := hfrees.unique hfrees'
    have hchunk : B.base ∈ s.chunks C.toPoolArgs :=
      List.mem_flatMap.2 ⟨B, hB, Block.mem_chunks.2 ⟨0, hall.one_le_chunkCnt B hB, by simp⟩⟩
    exact link_eq_successorIn hfrees ((hinv.mem_frees_iff hperm).2 ⟨hchunk, hheld⟩)

theorem nodup_bases {s : PoolSys} (hinv : Inv C s) (hall : AllocsOk s) :
    (s.blocks.map Block.base).Nodup := by
  refine List.pairwise_map.2 (hinv.blocksOk.apart.imp_of_mem fun {B B'} hB hB' hapart hne ↦ ?_)
  have hB1 : 1 * C.stride ≤ B.bytes C.toPoolArgs :=
    Nat.mul_le_mul_right _ (hall.one_le_chunkCnt B hB)
  have hB'1 : 1 * C.stride ≤ B'.bytes C.toPoolArgs :=
    Nat.mul_le_mul_right _ (hall.one_le_chunkCnt B' hB')
  have := C.stride_pos
  unfold Apart at hapart
  omega

/-! ### When the destructor frees exactly the blocks -/

/-- **The destructor frees every block once and nothing else exactly when the header links chain the
blocks together.** -/
theorem destroys_exactly_iff_headersLinked {s : PoolSys}
    (h : Reachable (step C.toPoolArgs) (Initial C.toPoolArgs) s) {frees : List ℕ}
    (hfrees : s.pool.FreeList T frees) (del : DeleteArray C.toPoolArgs s.blocks) :
    s.DestroysExactly del ↔ HeadersLinked T s frees := by
  have hinv := inv_of_reachable h
  have hall := allocsOk_of_reachable h
  have hlink : ∀ order : List ℕ, order.Perm (s.blocks.map Block.base) →
      ∀ b ∈ order, links T s.pool.mem b = some (headerLink T s frees b) :=
    fun order hperm b hb ↦
      congrArg some (pnext_eq_headerLink hinv hall hfrees (hperm.mem_iff.1 hb))
  rw [DestroysExactly, HeadersLinked, hall.mAllocs_eq]
  constructor
  · rintro ⟨fuel, order, hrun, hperm⟩
    have hchain := chain_of_destroy del hall.one_le_chunkCnt []
      (hperm.nodup_iff.2 (nodup_bases hinv hall)) (fun b ↦ hperm.mem_iff.1) hrun
    exact ⟨order, hperm, hchain.congr fun b hb ↦ (hlink order hperm b hb).symm⟩
  · rintro ⟨order, hperm, hchain⟩
    exact ⟨order.length + 1, order, destroy_of_chain del hall.one_le_chunkCnt []
      (hperm.nodup_iff.2 (nodup_bases hinv hall)) (fun b ↦ hperm.mem_iff.1)
      (hchain.congr (hlink order hperm)), hperm⟩

/-- A pool that never refilled has one header link to get right: it must be null. The first chunk
is then the last one on the free list, or held with a null first word. -/
theorem headersLinked_singleton {s : PoolSys} {B : Block} {frees : List ℕ} (hs : s.blocks = [B])
    (hB : B.base ≠ 0) : HeadersLinked T s frees ↔ headerLink T s frees B.base = 0 := by
  simp only [HeadersLinked, hs, List.map_cons, List.map_nil, List.headD_cons, List.perm_singleton,
    exists_eq_left]
  constructor
  · rintro ⟨-, -, r, hr, hnil⟩
    exact (Option.some.inj hr).trans hnil
  · intro hlink
    exact ⟨rfl, hB, 0, congrArg some hlink, rfl⟩

/-- The chunk of the small pool is handed out, then that of a refill, and they are given back in
this order. So the block of the refill comes first on the free list, and the other behind it. -/
def refillAndReturn : List PoolOp :=
  [.alloc none, .alloc (some 8192), .dealloc 4096, .dealloc 8192]

/-- A pool just constructed is destroyed correctly, and so is one that has refilled, if its free
list happens to name the blocks from the latest one on. -/
theorem destroys_exactly_tinyPool :
    tinyStart.DestroysExactly (C := tinyPool) (DeleteArray.idle _ _) ∧
      ∃ s : PoolSys, run (step tinyPool.toPoolArgs) tinyStart refillAndReturn = some s ∧
        s.blocks.map Block.base = [8192, 4096] ∧
        s.DestroysExactly (C := tinyPool) (DeleteArray.idle _ _) := by
  constructor
  · have hfrees : tinyStart.pool.FreeList Target.lp64 [4096] := ⟨rfl, by decide, 0, by decide, rfl⟩
    exact (destroys_exactly_iff_headersLinked (C := tinyPool)
      ⟨tinyStart, [], tinyStart_initial, rfl⟩ hfrees _).2
        ((headersLinked_singleton rfl (by decide)).2 (by decide))
  · obtain ⟨s, hrun, hblocks, hfrees, hheld⟩ : ∃ s : PoolSys,
        run (step tinyPool.toPoolArgs) tinyStart refillAndReturn = some s ∧
          s.blocks.map Block.base = [8192, 4096] ∧
          s.pool.FreeList Target.lp64 [8192, 4096] ∧ s.held = [] :=
      ⟨_, rfl, rfl, ⟨rfl, by decide, 4096, by decide, rfl, by decide, 0, by decide, rfl⟩, rfl⟩
    refine ⟨s, hrun, hblocks, ?_⟩
    refine (destroys_exactly_iff_headersLinked (C := tinyPool)
      ⟨tinyStart, refillAndReturn, tinyStart_initial, hrun⟩ hfrees _).2 ⟨[8192, 4096], ?_, ?_⟩
    · rw [hblocks]
    · rw [hblocks]
      refine ⟨rfl, by decide, 4096, ?_, rfl, by decide, 0, ?_, rfl⟩
      · simp [headerLink, hheld, successorIn]
      · simp [headerLink, hheld, successorIn]

/-- **One refill is enough to lose a block.** Two chunks of the small pool are handed out, nobody
writes anything, and the destructor frees the second block only. -/
theorem leaks_block_after_refill : ¬ ∀ (T : Target) (C : PoolConfig T) (s : PoolSys),
    Reachable (step C.toPoolArgs) (Initial C.toPoolArgs) s →
      ∀ del : DeleteArray C.toPoolArgs s.blocks, s.DestroysExactly del := by
  intro hall
  obtain ⟨s, hrun⟩ : ∃ s, run (step tinyPool.toPoolArgs) tinyStart
      [.alloc none, .alloc (some 8192)] = some s := ⟨_, rfl⟩
  obtain ⟨fuel, order, hdestroy, hperm⟩ :=
    hall _ tinyPool s ⟨tinyStart, _, tinyStart_initial, hrun⟩ (DeleteArray.idle _ _)
  obtain rfl := Option.some.inj hrun
  have hchain := chain_of_destroy (C := tinyPool) (DeleteArray.idle _ _) (by decide)
    [] (hperm.nodup_iff.2 (by decide)) (fun b ↦ hperm.mem_iff.1) hdestroy
  -- the link of the second block is null: it was the last free chunk when it was deposited
  have hlast : order = [8192] := hchain.unique ⟨rfl, by decide, 0, by decide, rfl⟩
  exact absurd hperm.length_eq (by rw [hlast]; decide)

end PoolSys

end Libk2
