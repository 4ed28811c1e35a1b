import Libk2.Memory.SharedPoolAllocator

/-!
# Sizes at the limits

What `size_t` arithmetic does to the sizes a pool is built from and to those it is asked for.

The static assertion looks at the chunk stride. It admits a stride of zero: for chunks of no bytes,
and for the seven sizes at the top, whose rounding wraps around. It does not look at the number of
chunks at all, which may be zero, or so large that the block size wraps around. The pools that
remain are the `PoolConfig`s (`usable_iff`).

`allocate` multiplies and then compares. Nothing looks at whether the product has wrapped around,
and if it has, no storage would be large enough (`largeEnough_iff`).
-/

namespace Libk2

open SharedPoolAllocator

variable {T : Target}

namespace PoolArgs

variable (A : PoolArgs T)

/-- The argument of `new char[]` in `grow`. -/
def blockSize (chunkCnt : SizeT T) : SizeT T := chunkCnt * A.alignment

/-- `K2_STATIC_ASSERT(alignment <= max_aligment)`. -/
def StaticAssert : Prop := A.alignment ≤ maxAligment T

instance : Decidable A.StaticAssert := inferInstanceAs (Decidable (_ ≤ _))

/-- A block of `chunkCnt` chunks is for at least one, and its size does not wrap around. -/
structure GrowsBy (chunkCnt : SizeT T) : Prop where
  one_le : 1 ≤ chunkCnt.toNat
  blockSize : (A.blockSize chunkCnt).toNat = chunkCnt.toNat * A.stride

/-- A pool can be built from the arguments, and used. -/
structure Usable : Prop where
  eight_dvd : 8 ∣ A.stride
  chunkBytes_le : A.chunkBytes.toNat ≤ A.stride
  ptrBytes_le : T.ptrBytes ≤ A.stride
  first : A.GrowsBy A.chunkCount
  refill : A.GrowsBy A.refillCount
  divisor : A.alignment * A.chunkCount > maxAligment T * 4 → A.alignment ≠ 0

/-- **The condition.** There is something to store, it is not larger than the limit, and there is
room for at least one of it, and not for more than `size_t` counts. -/
structure InRange : Prop where
  one_le_chunkBytes : 1 ≤ A.chunkBytes.toNat
  chunkBytes_le : A.chunkBytes.toNat ≤ 1024
  one_le_chunkCount : 1 ≤ A.chunkCount.toNat
  fits : A.chunkCount.toNat * A.stride < 2 ^ T.bits

variable {A}

/-- The arguments that are in range, as the pools of the other modules take them. -/
def InRange.config (h : A.InRange) : PoolConfig T where
  toPoolArgs := A
  one_le_chunkBytes := h.one_le_chunkBytes
  chunkBytes_le := h.chunkBytes_le
  one_le_chunkCount := h.one_le_chunkCount
  fits := h.fits

theorem stride_eq_mod : A.stride = (A.chunkBytes.toNat + 7) % 2 ^ T.bits / 8 * 8 :=
  SafeAlignof.toNat_constant_eight T.sixteen_le_bits A.chunkBytes

theorem StaticAssert.stride_le (h : A.StaticAssert) : A.stride ≤ 1024 := by
  have hmax : (maxAligment T).toNat = 1024 := SizeT.toNat_ofNat_small (by omega)
  rw [stride, ← hmax]
  exact BitVec.le_def.1 h

theorem toNat_blockSize_of_fits {chunkCnt : SizeT T} (h : chunkCnt.toNat * A.stride < 2 ^ T.bits) :
    (A.blockSize chunkCnt).toNat = chunkCnt.toNat * A.stride := by
  rw [blockSize, BitVec.toNat_mul, ← stride, Nat.mod_eq_of_lt h]

/-- The division is only reached with a product that is not zero. -/
theorem alignment_ne_zero (h : A.alignment * A.chunkCount > maxAligment T * 4) :
    A.alignment ≠ 0 := by
  intro hzero
  rw [gt_iff_lt, BitVec.lt_def, BitVec.toNat_mul, hzero] at h
  simp at h

theorem InRange.usable (h : A.InRange) : A.Usable where
  eight_dvd := stride_eq_mod ▸ Nat.dvd_mul_left 8 _
  chunkBytes_le := h.config.chunkBytes_le_stride
  ptrBytes_le := h.config.ptrBytes_le_stride
  first := ⟨h.one_le_chunkCount, toNat_blockSize_of_fits h.fits⟩
  refill := ⟨h.config.one_le_refillCount, toNat_blockSize_of_fits h.config.refill_fits⟩
  divisor := alignment_ne_zero

/-- **A pool that the static assertion admits is usable** exactly if its sizes are in range. -/
theorem usable_iff (hassert : A.StaticAssert) : A.Usable ↔ A.InRange := by
  refine ⟨fun h ↦ ?_, InRange.usable⟩
  have hptr := T.two_le.trans h.ptrBytes_le
  have hround := stride_eq_mod (A := A)
  have hlimit := hassert.stride_le
  have hbytes := h.chunkBytes_le
  refine ⟨?_, hbytes.trans hlimit, h.first.one_le, ?_⟩
  · -- the stride of a chunk of no bytes is zero
    by_contra hzero
    rw [Nat.eq_zero_of_not_pos hzero, Nat.mod_eq_of_lt (T.lt_two_pow_bits (by omega))] at hround
    omega
  · rw [← h.first.blockSize]
    exact (A.blockSize A.chunkCount).isLt

/-- Chunks of 48 bytes. -/
theorem usable_small_chunks : (⟨32, 48⟩ : PoolArgs .lp64).Usable :=
  (usable_iff (by decide)).2 ⟨by decide, by decide, by decide, by decide⟩

/-- **The largest `ChunkBytes` there is** passes the assertion, with a stride of zero. -/
theorem largest_chunks_are_admitted :
    ¬ ∀ (T : Target) (A : PoolArgs T), A.StaticAssert → A.Usable := by
  intro hall
  exact absurd (hall .lp64 ⟨1, BitVec.allOnes _⟩ (by decide)).ptrBytes_le (by decide)

end PoolArgs

/-! ### The size of what `allocate` returns -/

/-- The storage that `allocate` returns, and its source: `::operator new` gives as many bytes as it
is asked for, the pool a chunk. -/
def allocateStorage (A : PoolArgs T) (pool : MemPool) (sizeofT n : SizeT T)
    (operatorNew newArray : Option ℕ) : Option (Storage × Origin) :=
  if sizeofT * n > A.chunkBytes then
    operatorNew.map fun p ↦ (⟨p, (sizeofT * n).toNat⟩, .operatorNew)
  else (pool.alloc A newArray).1.map fun p ↦ (⟨p, A.stride⟩, .pool)

/-- It is the storage behind the pointer. -/
theorem map_base_allocateStorage (A : PoolArgs T) (pool : MemPool) (sizeofT n : SizeT T)
    (operatorNew newArray : Option ℕ) :
    (allocateStorage A pool sizeofT n operatorNew newArray).map (fun r ↦ r.1.base) =
      (allocate A pool sizeofT n operatorNew newArray).1 := by
  rw [allocateStorage, allocate]
  split
  · rw [Option.map_map]
    exact congrFun Option.map_id _
  · rw [Option.map_map]
    exact congrFun Option.map_id _

/-- No less than was asked for, and from the right source. -/
structure LargeEnough (A : PoolArgs T) (sizeofT n : SizeT T) (S : Storage) (origin : Origin) :
    Prop where
  bytes : sizeofT.toNat * n.toNat ≤ S.bytes
  route : origin = .pool ↔ sizeofT.toNat * n.toNat ≤ A.chunkBytes.toNat

section Allocate

variable {A : PoolArgs T} {pool : MemPool} {sizeofT n : SizeT T} {operatorNew newArray : Option ℕ}
  {S : Storage} {origin : Origin}

/-- What a call that returns has done. -/
theorem allocateStorage_cases
    (h : allocateStorage A pool sizeofT n operatorNew newArray = some (S, origin)) :
    (A.chunkBytes < sizeofT * n ∧ S.bytes = (sizeofT * n).toNat ∧ origin = .operatorNew) ∨
      (sizeofT * n ≤ A.chunkBytes ∧ S.bytes = A.stride ∧ origin = .pool) := by
  rw [allocateStorage] at h
  split at h
  · next hbig =>
    obtain ⟨p, -, hp⟩ := Option.map_eq_some_iff.1 h
    cases hp
    exact .inl ⟨hbig, rfl, rfl⟩
  · next hsmall =>
    obtain ⟨p, -, hp⟩ := Option.map_eq_some_iff.1 h
    cases hp
    exact .inr ⟨BitVec.not_lt.1 hsmall, rfl, rfl⟩

/-- **What `allocate` returns is large enough** exactly if the product does not wrap around. -/
theorem largeEnough_iff (hchunk : A.chunkBytes.toNat ≤ 1024)
    (h : allocateStorage A pool sizeofT n operatorNew newArray = some (S, origin)) :
    LargeEnough A sizeofT n S origin ↔ sizeofT.toNat * n.toNat < 2 ^ T.bits := by
  have hbits : 1031 < 2 ^ T.bits := T.lt_two_pow_bits (by omega)
  have hstride : A.stride = (A.chunkBytes.toNat + 7) / 8 * 8 := by
    rw [PoolArgs.stride_eq_mod, Nat.mod_eq_of_lt (by omega)]
  constructor
  · intro hlarge
    have hbytes := hlarge.bytes
    -- either source gives fewer bytes than `size_t` counts
    rcases allocateStorage_cases h with ⟨-, hsize, -⟩ | ⟨-, hsize, -⟩
    · exact Nat.lt_of_le_of_lt (hsize ▸ hbytes) (sizeofT * n).isLt
    · omega
  · intro hfits
    have hproduct : (sizeofT * n).toNat = sizeofT.toNat * n.toNat := by
      rw [BitVec.toNat_mul, Nat.mod_eq_of_lt hfits]
    rcases allocateStorage_cases h with ⟨hroute, hsize, rfl⟩ | ⟨hroute, hsize, rfl⟩
    · rw [BitVec.lt_def, hproduct] at hroute
      exact ⟨by omega, iff_of_false nofun (by omega)⟩
    · rw [BitVec.le_def, hproduct] at hroute
      exact ⟨by omega, iff_of_true rfl hroute⟩

end Allocate

/-- Three integers of 16 bytes, from a pool of chunks for four. -/
theorem largeEnough_three : LargeEnough (T := .lp64) ⟨32, 64⟩ 16 3 ⟨4096, 64⟩ .pool := by
  have hcall : allocateStorage (T := .lp64) ⟨32, 64⟩ ⟨fun _ ↦ 0, 4096, 4096⟩ 16 3 none none =
      some (⟨4096, 64⟩, .pool) := rfl
  exact (largeEnough_iff (by decide) hcall).2 (by decide)

/-- **A product of zero.** 2 ^ 60 times 16 bytes come out of one chunk. -/
theorem wrapped_product_from_one_chunk :
    ¬ ∀ (T : Target) (A : PoolArgs T) (pool : MemPool) (sizeofT n : SizeT T)
      (operatorNew newArray : Option ℕ) (S : Storage) (origin : Origin),
      1 ≤ sizeofT.toNat → 1 ≤ A.chunkBytes.toNat → A.chunkBytes.toNat ≤ 1024 →
      allocateStorage A pool sizeofT n operatorNew newArray = some (S, origin) →
      LargeEnough A sizeofT n S origin := by
  intro hall
  have hlarge := hall .lp64 ⟨32, 64⟩ ⟨fun _ ↦ 0, 4096, 4096⟩ 16 1152921504606846976 none none
    ⟨4096, 64⟩ .pool (by decide) (by decide) (by decide) rfl
  exact absurd hlarge.bytes (by decide)

end Libk2
