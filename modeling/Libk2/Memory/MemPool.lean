import Libk2.Platform
import Libk2.Foundation.ByteMemory
import Libk2.Foundation.PointerChain

/-!
# `mem_pool`: the object

The fixed-size pool of `pool_alloc.h`. A pool is two pointers into memory, `m_allocs` and `m_frees`,
and both lists are threaded through the storage itself: a chunk's first word is its `pnext`. So the
model keeps the bytes — `MemPool` is the memory together with the two pointers, and `pnext` is a
word load.

`new char[n]` is a parameter: `grow` is given the address it returned, and `alloc` is given what it
would return if asked (`none` for a thrown `std::bad_alloc`). The lock that `alloc` and `dealloc`
take is left out; the calls modelled here come one after another.

`PoolArgs` are the template arguments as they are written. `PoolConfig` adds what the results need
of them: a `ChunkBytes` from 1 to 1024, and a positive `ChunkCount` whose product with the chunk
stride fits in `size_t`. The arithmetic of the stride and of the refill size is settled here, once.
-/

namespace Libk2

open ByteMemory PointerChain

variable {T : Target}

/-! ### Template arguments -/

/-- The template arguments `ChunkCount` and `ChunkBytes`. -/
structure PoolArgs (T : Target) where
  chunkCount : SizeT T
  chunkBytes : SizeT T

namespace PoolArgs

variable (A : PoolArgs T)

/-- `mem_pool::max_aligment`. -/
def maxAligment (T : Target) : SizeT T := BitVec.ofNat T.bits 1024

/-- `mem_pool::alignment`, the distance between neighbouring chunks. -/
def alignment : SizeT T :=
  SafeAlignof.constant A.chunkBytes (SafeAlignof.defaultAligment T.bits)

/-- The chunk stride as a number. -/
def stride : ℕ := A.alignment.toNat

/-- The `chunk_cnt` with which `alloc` refills an empty pool. -/
def refillCount : SizeT T :=
  if A.alignment * A.chunkCount > maxAligment T * 4 then maxAligment T * 4 / A.alignment
  else A.chunkCount

end PoolArgs

/-- Template arguments in the range the pool is meant for. -/
structure PoolConfig (T : Target) extends PoolArgs T where
  one_le_chunkBytes : 1 ≤ chunkBytes.toNat
  chunkBytes_le : chunkBytes.toNat ≤ 1024
  one_le_chunkCount : 1 ≤ chunkCount.toNat
  /-- The first block's size does not wrap. -/
  fits : chunkCount.toNat * toPoolArgs.stride < 2 ^ T.bits

namespace PoolConfig

variable (C : PoolConfig T)

theorem stride_eq : C.stride = (C.chunkBytes.toNat + 7) / 8 * 8 := by
  have hsmall : C.chunkBytes.toNat + 7 < 2 ^ T.bits :=
    T.lt_two_pow_bits (by have := C.chunkBytes_le; omega)
  rw [PoolArgs.stride, PoolArgs.alignment, SafeAlignof.toNat_constant_eight T.sixteen_le_bits,
    Nat.mod_eq_of_lt hsmall]

theorem chunkBytes_le_stride : C.chunkBytes.toNat ≤ C.stride := by
  rw [stride_eq]
  omega

theorem eight_le_stride : 8 ≤ C.stride := by
  have := C.one_le_chunkBytes
  rw [stride_eq]
  omega

theorem stride_le : C.stride ≤ 1024 := by
  have := C.chunkBytes_le
  rw [stride_eq]
  omega

theorem stride_pos : 0 < C.stride := Nat.lt_of_lt_of_le (by omega) C.eight_le_stride

/-- A chunk has room for its link. -/
theorem ptrBytes_le_stride : T.ptrBytes ≤ C.stride := T.le_eight.trans C.eight_le_stride

theorem toNat_maxAligment_mul_four : (PoolArgs.maxAligment T * 4).toNat = 4096 := by
  rw [BitVec.toNat_mul, PoolArgs.maxAligment, SizeT.toNat_ofNat_small (by omega),
    show (4 : SizeT T) = BitVec.ofNat T.bits 4 from rfl, SizeT.toNat_ofNat_small (by omega),
    Nat.mod_eq_of_lt (T.lt_two_pow_bits (by omega))]

theorem toNat_alignment_mul_chunkCount :
    (C.alignment * C.chunkCount).toNat = C.chunkCount.toNat * C.stride := by
  rw [BitVec.toNat_mul, Nat.mul_comm, ← PoolArgs.stride, Nat.mod_eq_of_lt C.fits]

/-- **The refill size**, as arithmetic: at most 4096 bytes' worth of chunks. -/
theorem toNat_refillCount : C.refillCount.toNat =
    if 4096 < C.chunkCount.toNat * C.stride then 4096 / C.stride else C.chunkCount.toNat := by
  have hcond : (C.alignment * C.chunkCount > PoolArgs.maxAligment T * 4) ↔
      4096 < C.chunkCount.toNat * C.stride := by
    rw [gt_iff_lt, BitVec.lt_def, toNat_maxAligment_mul_four, toNat_alignment_mul_chunkCount]
  rw [PoolArgs.refillCount]
  by_cases h : 4096 < C.chunkCount.toNat * C.stride
  · rw [if_pos (hcond.2 h), if_pos h, BitVec.toNat_udiv, toNat_maxAligment_mul_four]
    rfl
  · rw [if_neg (fun hc ↦ h (hcond.1 hc)), if_neg h]

/-- A refill adds at least one chunk. -/
theorem one_le_refillCount : 1 ≤ C.refillCount.toNat := by
  rw [toNat_refillCount]
  split
  · exact Nat.div_pos (C.stride_le.trans (by omega)) C.stride_pos
  · exact C.one_le_chunkCount

/-- The size of a refill does not wrap. -/
theorem refill_fits : C.refillCount.toNat * C.stride < 2 ^ T.bits := by
  rw [toNat_refillCount]
  split
  · exact Nat.lt_of_le_of_lt (Nat.div_mul_le_self 4096 C.stride) (T.lt_two_pow_bits (by omega))
  · exact C.fits

end PoolConfig

/-! ### The object and its operations -/

/-- A `mem_pool` object together with the memory its lists are threaded through. -/
structure MemPool where
  mem : ByteMemory
  mAllocs : ℕ
  mFrees : ℕ

namespace MemPool

variable (T) (A : PoolArgs T)

/-- `p->pnext`. -/
def pnext (s : MemPool) (p : ℕ) : ℕ := s.mem.loadWord T.ptrBytes p

/-- `p->pnext = q`. -/
def setPnext (s : MemPool) (p q : ℕ) : MemPool := { s with mem := s.mem.storeWord T.ptrBytes p q }

/-- `mem_pool::deposit`. -/
def deposit (s : MemPool) (p : ℕ) : MemPool := { s.setPnext T p s.mFrees with mFrees := p }

variable {T}

/-- The loop of `mem_pool::grow`: deposit `n` chunks, the first one at `rawMem`. -/
def depositChunks : ℕ → ℕ → MemPool → MemPool
  | 0, _, s => s
  | n + 1, rawMem, s => depositChunks n (rawMem + A.stride) (s.deposit T rawMem)

/-- `mem_pool::grow`, once `new char[chunkCnt * alignment]` has returned `rawMem`. The block's first
word receives the block link, and is then deposited like every other chunk's. -/
def grow (s : MemPool) (chunkCnt : SizeT T) (rawMem : ℕ) : MemPool :=
  depositChunks A chunkCnt.toNat rawMem { s.setPnext T rawMem s.mAllocs with mAllocs := rawMem }

/-- `mem_pool::mem_pool`, when its `new[]` returned `rawMem`. -/
def construct (mem : ByteMemory) (rawMem : ℕ) : MemPool :=
  grow A ⟨mem, 0, 0⟩ A.chunkCount rawMem

variable (T) in
/-- The end of `mem_pool::alloc`: unlink the first free chunk and hand it out. -/
def take (s : MemPool) : ℕ × MemPool := (s.mFrees, { s with mFrees := s.pnext T s.mFrees })

/-- `mem_pool::alloc`. `newArray` is what `new char[]` returns if the pool has to grow; the result
is `none` when that throws, and the pool is then as it was. -/
def alloc (s : MemPool) (newArray : Option ℕ) : Option ℕ × MemPool :=
  if s.mFrees = 0 then
    match newArray with
    | none => (none, s)
    | some rawMem => ((grow A s A.refillCount rawMem).take T).map some id
  else (s.take T).map some id

variable (T) in
/-- `mem_pool::dealloc`. -/
def dealloc (s : MemPool) (p : ℕ) : MemPool := s.deposit T p

/-! ### Reading the links -/

@[simp] theorem mAllocs_deposit (s : MemPool) (p : ℕ) : (s.deposit T p).mAllocs = s.mAllocs := rfl

theorem pnext_deposit_self {s : MemPool} {p : ℕ} (h : s.mFrees < 2 ^ T.bits) :
    (s.deposit T p).pnext T p = s.mFrees :=
  loadWord_storeWord_self (T.two_pow_bits ▸ h)

theorem pnext_deposit_of_apart {s : MemPool} {p q : ℕ} (h : Apart p T.ptrBytes q T.ptrBytes) :
    (s.deposit T p).pnext T q = s.pnext T q :=
  loadWord_storeWord_of_apart h

@[simp] theorem mAllocs_depositChunks (n rawMem : ℕ) (s : MemPool) :
    (depositChunks A n rawMem s).mAllocs = s.mAllocs := by
  induction n generalizing rawMem s with
  | zero => rfl
  | succ n ih => rw [depositChunks, ih, mAllocs_deposit]

@[simp] theorem mAllocs_grow (s : MemPool) (chunkCnt : SizeT T) (rawMem : ℕ) :
    (grow A s chunkCnt rawMem).mAllocs = rawMem := by
  rw [grow, mAllocs_depositChunks]

/-- What `alloc` does on a pool that has a free chunk. -/
theorem alloc_of_frees {s : MemPool} (h : s.mFrees ≠ 0) (newArray : Option ℕ) :
    s.alloc A newArray = (some s.mFrees, { s with mFrees := s.pnext T s.mFrees }) := by
  rw [alloc.eq_def, if_neg h]
  rfl

/-- What `alloc` does on an empty pool. -/
theorem alloc_of_empty {s : MemPool} (h : s.mFrees = 0) (rawMem : ℕ) :
    s.alloc A (some rawMem) =
      (some (grow A s A.refillCount rawMem).mFrees,
        { grow A s A.refillCount rawMem with
          mFrees := (grow A s A.refillCount rawMem).pnext T
            (grow A s A.refillCount rawMem).mFrees }) := by
  rw [alloc.eq_def, if_pos h]
  rfl

/-- A refill that fails leaves the pool as it was. -/
theorem alloc_none_of_empty {s : MemPool} (h : s.mFrees = 0) : s.alloc A none = (none, s) := by
  rw [alloc.eq_def, if_pos h]

/-! ### The free list -/

variable (T) in
/-- The chunks `frees`, in order, are the list that starts at `m_frees`. -/
def FreeList (s : MemPool) (frees : List ℕ) : Prop :=
  Chain 0 (fun p ↦ some (s.pnext T p)) s.mFrees frees

variable (C : PoolConfig T)

/-- Chunk-sized ranges inside the address space, away from null and from each other. -/
structure Spaced (l : List ℕ) : Prop where
  ne_zero : ∀ c ∈ l, c ≠ 0
  le_top : ∀ c ∈ l, c + C.stride ≤ 2 ^ T.bits
  apart : l.Pairwise fun c d ↦ Apart c C.stride d C.stride

variable {C}

theorem Spaced.perm {l l' : List ℕ} (h : Spaced C l) (hl : l.Perm l') : Spaced C l' where
  ne_zero c hc := h.ne_zero c (hl.mem_iff.2 hc)
  le_top c hc := h.le_top c (hl.mem_iff.2 hc)
  apart := (hl.pairwise_iff fun hab ↦ hab.symm).1 h.apart

theorem Spaced.sublist {l l' : List ℕ} (h : Spaced C l) (hl : l'.Sublist l) : Spaced C l' where
  ne_zero c hc := h.ne_zero c (hl.subset hc)
  le_top c hc := h.le_top c (hl.subset hc)
  apart := h.apart.sublist hl

theorem Spaced.nodup {l : List ℕ} (h : Spaced C l) : l.Nodup := by
  refine h.apart.imp fun {c d} hcd hne ↦ ?_
  have := C.stride_pos
  unfold Apart at hcd
  omega

/-- Links of separate chunks do not overlap. -/
theorem apart_link {c d : ℕ} (h : Apart c C.stride d C.stride) :
    Apart c T.ptrBytes d T.ptrBytes := by
  have := C.ptrBytes_le_stride
  exact h.mono (Nat.le_refl c) (by omega) (Nat.le_refl d) (by omega)

/-- A pointer to the first free chunk, or null, is an address. -/
theorem FreeList.mFrees_lt {s : MemPool} {frees : List ℕ} (h : s.FreeList T frees)
    (hsp : Spaced C frees) : s.mFrees < 2 ^ T.bits := by
  cases frees with
  | nil => exact (show s.mFrees = 0 from h) ▸ Nat.two_pow_pos _
  | cons c l =>
    rw [show s.mFrees = c from h.1]
    have htop := hsp.le_top c List.mem_cons_self
    have := C.stride_pos
    omega

theorem FreeList.eq_nil_of_mFrees {s : MemPool} {frees : List ℕ} (h : s.FreeList T frees)
    (h0 : s.mFrees = 0) : frees = [] := by
  unfold FreeList at h
  rw [h0] at h
  exact h.eq_nil

/-- **`deposit` puts the chunk in front.** -/
theorem FreeList.deposit {s : MemPool} {p : ℕ} {frees : List ℕ} (h : s.FreeList T frees)
    (hsp : Spaced C (p :: frees)) : (s.deposit T p).FreeList T (p :: frees) := by
  have htail : Spaced C frees := hsp.sublist (List.sublist_cons_self p frees)
  have hlink : (s.deposit T p).pnext T p = s.mFrees := pnext_deposit_self (h.mFrees_lt htail)
  refine ⟨rfl, hsp.ne_zero p List.mem_cons_self, s.mFrees, congrArg some hlink, ?_⟩
  refine h.congr fun c hc ↦ congrArg some (pnext_deposit_of_apart ?_)
  exact apart_link ((List.pairwise_cons.1 hsp.apart).1 c hc)

/-- The addresses of `n` chunks, the first one at `rawMem`. -/
def chunksFrom (rawMem n : ℕ) : List ℕ := (List.range n).map fun i ↦ rawMem + i * A.stride

theorem chunksFrom_succ (rawMem n : ℕ) :
    chunksFrom A rawMem (n + 1) = rawMem :: chunksFrom A (rawMem + A.stride) n := by
  rw [chunksFrom, List.range_succ_eq_map, List.map_cons, List.map_map, chunksFrom, Nat.zero_mul,
    Nat.add_zero]
  congr 1
  refine List.map_congr_left fun i _ ↦ ?_
  show rawMem + (i + 1) * A.stride = rawMem + A.stride + i * A.stride
  rw [Nat.succ_mul]
  omega

/-- **The loop of `grow`** puts its chunks in front, the last one first. -/
theorem FreeList.depositChunks {s : MemPool} {n rawMem : ℕ} {frees : List ℕ}
    (h : s.FreeList T frees) (hsp : Spaced C (chunksFrom C.toPoolArgs rawMem n ++ frees)) :
    (MemPool.depositChunks C.toPoolArgs n rawMem s).FreeList T
      ((chunksFrom C.toPoolArgs rawMem n).reverse ++ frees) := by
  induction n generalizing rawMem s frees with
  | zero => exact h
  | succ n ih =>
    rw [chunksFrom_succ, List.cons_append] at hsp
    have hhead : Spaced C (rawMem :: frees) := hsp.sublist (by simp)
    have hrest : Spaced C (chunksFrom C.toPoolArgs (rawMem + C.stride) n ++ rawMem :: frees) :=
      hsp.perm List.perm_middle.symm
    rw [MemPool.depositChunks, chunksFrom_succ, List.reverse_cons, List.append_assoc]
    exact ih (h.deposit hhead) hrest

/-- **`grow` puts the whole block in front.** The block link, written first, lies in the block's own
first chunk and so disturbs no free chunk. -/
theorem FreeList.grow {s : MemPool} {chunkCnt : SizeT T} {rawMem : ℕ} {frees : List ℕ}
    (h : s.FreeList T frees) (hcnt : 1 ≤ chunkCnt.toNat)
    (hsp : Spaced C (chunksFrom C.toPoolArgs rawMem chunkCnt.toNat ++ frees)) :
    (MemPool.grow C.toPoolArgs s chunkCnt rawMem).FreeList T
      ((chunksFrom C.toPoolArgs rawMem chunkCnt.toNat).reverse ++ frees) := by
  refine FreeList.depositChunks (h.congr fun c hc ↦ congrArg some ?_) hsp
  obtain ⟨n, hn⟩ := Nat.exists_eq_add_of_le' hcnt
  rw [hn, chunksFrom_succ, List.cons_append] at hsp
  exact loadWord_storeWord_of_apart
    (apart_link ((List.pairwise_cons.1 hsp.apart).1 c (List.mem_append_right _ hc)))

end MemPool

end Libk2
