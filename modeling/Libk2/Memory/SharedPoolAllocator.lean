import Libk2.Memory.MemPoolSafety

/-!
# `shared_pool_allocator`: two sources behind one interface

`allocate(n)` takes storage from `::operator new` when `sizeof(ValueT) * n` exceeds `ChunkBytes`,
and a chunk from the shared pool otherwise. `deallocate(p, n)` repeats the comparison — but after
`::operator delete(p)` it goes on to `dealloc(p)` on the pool as well, there being no `return` and
no `else`. So an oversize `deallocate` makes two releases of one pointer (`deallocate`).

`AllocSys` is the allocator among its callers, over `PoolSys`: the storage obtained from
`::operator new` and not released, and the allocations outstanding, each with the source it came
from. `RoutedStep` and `PureFreeList` say what the interface owes: each release goes to the source
of the storage, no foreign storage is on the pool's free list, and what `allocate` returns is live,
large enough, and away from everything outstanding. `routed_iff_no_oversize_deallocate` is the exact
account: a run keeps to this if and only if nothing larger than a chunk is ever deallocated.
-/

namespace Libk2

open ByteMemory StepSystem MemPool PoolSys

variable {T : Target}

/-- Storage obtained from `::operator new`. -/
structure Storage where
  base : ℕ
  bytes : ℕ
deriving DecidableEq

/-- Where an allocation's storage came from. -/
inductive Origin where
  | operatorNew
  | pool
deriving DecidableEq

/-- Where a `deallocate` gives storage back to. -/
inductive Release where
  | operatorDelete (p : ℕ)
  | poolDealloc (p : ℕ)
deriving DecidableEq

/-- The release that matches an origin. -/
def Origin.release : Origin → ℕ → Release
  | .operatorNew, p => .operatorDelete p
  | .pool, p => .poolDealloc p

/-- An outstanding allocation: the pointer, the arguments of the call, and the source. -/
structure Grant (T : Target) where
  ptr : ℕ
  sizeofT : SizeT T
  n : SizeT T
  origin : Origin
deriving DecidableEq

/-- `size_type bytes = sizeof(ValueT) * n`, for the call behind a grant. -/
def Grant.bytes (g : Grant T) : SizeT T := g.sizeofT * g.n

/-- The size of the storage behind a grant. -/
def Grant.region (A : PoolArgs T) (g : Grant T) : ℕ :=
  match g.origin with
  | .operatorNew => g.bytes.toNat
  | .pool => A.stride

namespace SharedPoolAllocator

variable (A : PoolArgs T)

/-- `shared_pool_allocator::allocate`, with what `::operator new` and the pool's `new[]` answer if
they are asked. -/
def allocate (pool : MemPool) (sizeofT n : SizeT T) (operatorNew newArray : Option ℕ) :
    Option ℕ × MemPool :=
  if sizeofT * n > A.chunkBytes then (operatorNew, pool) else pool.alloc A newArray

/-- `shared_pool_allocator::deallocate`, as the releases it makes. The branch falls through. -/
def deallocate (p : ℕ) (sizeofT n : SizeT T) : List Release :=
  (if sizeofT * n > A.chunkBytes then [.operatorDelete p] else []) ++ [.poolDealloc p]

end SharedPoolAllocator

/-! ### The allocator and its callers -/

/-- The allocator among its callers. -/
structure AllocSys (T : Target) where
  sys : PoolSys
  /-- Storage obtained from `::operator new` and not released. -/
  storages : List Storage
  grants : List (Grant T)

/-- What can happen to the allocator. -/
inductive AllocOp (T : Target) where
  | allocate (sizeofT n : SizeT T) (operatorNew newArray : Option ℕ)
  | deallocate (g : Grant T)
  | write (a : ℕ) (v : UInt8)

namespace AllocSys

open SharedPoolAllocator

variable (A : PoolArgs T)

/-- The contract of `::operator new`: not null, inside the address space, and away from the pool's
blocks and from storage not released. -/
def NewOk (s : AllocSys T) (S : Storage) : Prop :=
  S.base ≠ 0 ∧ S.base + S.bytes ≤ 2 ^ T.bits ∧
    (∀ B ∈ s.sys.blocks, Apart S.base S.bytes B.base (B.bytes A)) ∧
    ∀ S' ∈ s.storages, Apart S.base S.bytes S'.base S'.bytes

instance (s : AllocSys T) (S : Storage) : Decidable (s.NewOk A S) :=
  inferInstanceAs (Decidable (_ ∧ _ ∧ _ ∧ _))

/-- The contract of the pool's `new[]`: also away from storage not released. -/
def NewArrayOk (s : AllocSys T) (B : Block) : Prop :=
  Fresh A s.sys.blocks B ∧ ∀ S ∈ s.storages, Apart S.base S.bytes B.base (B.bytes A)

instance (s : AllocSys T) (B : Block) : Decidable (s.NewArrayOk A B) :=
  inferInstanceAs (Decidable (_ ∧ _))

/-- The state after `allocate` went to `::operator new`. -/
def afterNew (s : AllocSys T) (sizeofT n : SizeT T) (operatorNew : Option ℕ) : AllocSys T :=
  match operatorNew with
  | none => s
  | some p => { s with
      storages := ⟨p, (sizeofT * n).toNat⟩ :: s.storages
      grants := ⟨p, sizeofT, n, .operatorNew⟩ :: s.grants }

/-- The state after `allocate` went to the pool. -/
def afterPool (s : AllocSys T) (sizeofT n : SizeT T) (newArray : Option ℕ) : AllocSys T :=
  { s with
    sys := s.sys.afterAlloc A newArray
    grants := ((s.sys.pool.alloc A newArray).1.map fun p ↦ ⟨p, sizeofT, n, .pool⟩).toList ++
      s.grants }

/-- One release. -/
def perform (s : AllocSys T) : Release → AllocSys T
  | .operatorDelete p => { s with storages := s.storages.filter fun S ↦ S.base ≠ p }
  | .poolDealloc p =>
    { s with sys := { s.sys with pool := s.sys.pool.dealloc T p, held := s.sys.held.erase p } }

/-- One call, or one byte written. The callers' side of the contract is that the byte count does not
overflow and that a `deallocate` matches an outstanding `allocate`. -/
def step (s : AllocSys T) : AllocOp T → Option (AllocSys T)
  | .allocate sizeofT n operatorNew newArray =>
    if sizeofT.toNat * n.toNat < 2 ^ T.bits then
      if sizeofT * n > A.chunkBytes then
        if ∀ S ∈ (operatorNew.map fun p ↦ (⟨p, (sizeofT * n).toNat⟩ : Storage)).toList,
            s.NewOk A S then
          some (s.afterNew sizeofT n operatorNew)
        else none
      else if ∀ B ∈ s.sys.obtained A newArray, s.NewArrayOk A B then
        some (s.afterPool A sizeofT n newArray)
      else none
    else none
  | .deallocate g =>
    if g ∈ s.grants then
      some { (deallocate A g.ptr g.sizeofT g.n).foldl perform s with grants := s.grants.erase g }
    else none
  | .write a v => (s.sys.step A (.write a v)).map fun sys ↦ { s with sys }

/-- A shared pool just constructed, nothing allocated. -/
def Initial (s : AllocSys T) : Prop :=
  s.sys.Initial A ∧ s.storages = [] ∧ s.grants = []

/-! ### What the interface owes -/

/-- The storage of `p`, `len` bytes long, is live: inside a block of the pool, or inside storage
from `::operator new` that has not been released. -/
def Live (s : AllocSys T) (p len : ℕ) : Prop :=
  (∃ B ∈ s.sys.blocks, B.base ≤ p ∧ p + len ≤ B.base + B.bytes A) ∨
    ∃ S ∈ s.storages, S.base ≤ p ∧ p + len ≤ S.base + S.bytes

/-- A grant that `allocate` may make: its storage is large enough, live, and away from every
outstanding one. -/
structure SoundGrant (s t : AllocSys T) (g : Grant T) : Prop where
  large : g.sizeofT.toNat * g.n.toNat ≤ g.region A
  live : t.Live A g.ptr (g.region A)
  apart : ∀ g' ∈ s.grants, Apart g.ptr (g.region A) g'.ptr (g'.region A)

/-- A step that keeps to the interface: `deallocate` releases to the source and nowhere else, and
what `allocate` adds is sound. -/
def RoutedStep (s : AllocSys T) : AllocOp T → Prop
  | .allocate sizeofT n operatorNew newArray =>
    ∀ t, s.step A (.allocate sizeofT n operatorNew newArray) = some t →
      ∀ p, (allocate A s.sys.pool sizeofT n operatorNew newArray).1 = some p →
        ∃ origin, t.grants = ⟨p, sizeofT, n, origin⟩ :: s.grants ∧
          SoundGrant A s t ⟨p, sizeofT, n, origin⟩
  | .deallocate g => deallocate A g.ptr g.sizeofT g.n = [g.origin.release g.ptr]
  | .write _ _ => True

/-- No storage but the pool's own chunks is on its free list. -/
def PureFreeList (s : AllocSys T) : Prop :=
  ∃ frees, s.sys.pool.FreeList T frees ∧ ∀ c ∈ frees, c ∈ s.sys.chunks A

/-- A run that keeps to the interface throughout. -/
def Routed (s : AllocSys T) (ops : List (AllocOp T)) : Prop :=
  EveryStep (step A) (RoutedStep A) s ops ∧ EveryState (step A) (PureFreeList A) s ops

/-! ### What a step can do -/

variable {A} in
/-- What a step can do, guards included. -/
theorem step_cases {s t : AllocSys T} {op : AllocOp T} (h : s.step A op = some t) :
    (∃ sizeofT n operatorNew newArray, op = .allocate sizeofT n operatorNew newArray ∧
      sizeofT.toNat * n.toNat < 2 ^ T.bits ∧ sizeofT * n > A.chunkBytes ∧
      (∀ p, operatorNew = some p → s.NewOk A ⟨p, (sizeofT * n).toNat⟩) ∧
      t = s.afterNew sizeofT n operatorNew) ∨
    (∃ sizeofT n operatorNew newArray, op = .allocate sizeofT n operatorNew newArray ∧
      sizeofT.toNat * n.toNat < 2 ^ T.bits ∧ ¬ sizeofT * n > A.chunkBytes ∧
      (∀ B ∈ s.sys.obtained A newArray, s.NewArrayOk A B) ∧ t = s.afterPool A sizeofT n newArray) ∨
    (∃ g, op = .deallocate g ∧ g ∈ s.grants ∧
      t = { (deallocate A g.ptr g.sizeofT g.n).foldl perform s with grants := s.grants.erase g }) ∨
    (∃ a v sys, op = .write a v ∧ s.sys.step A (.write a v) = some sys ∧ t = { s with sys }) := by
  cases op with
  | allocate sizeofT n operatorNew newArray =>
    obtain ⟨hfit, h⟩ := Option.ite_none_right_eq_some.1 h
    split at h
    · next hbig =>
      obtain ⟨hnew, ht⟩ := Option.ite_none_right_eq_some.1 h
      refine Or.inl ⟨_, _, _, _, rfl, hfit, hbig, fun p hp ↦ hnew _ ?_, (Option.some.inj ht).symm⟩
      simp [hp]
    · next hsmall =>
      obtain ⟨hnew, ht⟩ := Option.ite_none_right_eq_some.1 h
      exact Or.inr (Or.inl ⟨_, _, _, _, rfl, hfit, hsmall, hnew, (Option.some.inj ht).symm⟩)
  | deallocate g =>
    obtain ⟨hg, ht⟩ := Option.ite_none_right_eq_some.1 h
    exact Or.inr (Or.inr (Or.inl ⟨g, rfl, hg, (Option.some.inj ht).symm⟩))
  | write a v =>
    obtain ⟨sys, hsys, rfl⟩ := Option.map_eq_some_iff.1 h
    exact Or.inr (Or.inr (Or.inr ⟨a, v, sys, rfl, hsys, rfl⟩))

/-! ### The invariant while nothing oversize is deallocated -/

variable (C : PoolConfig T)

/-- What an outstanding grant stands for. -/
def GrantOk (s : AllocSys T) (g : Grant T) : Prop :=
  match g.origin with
  | .operatorNew => g.bytes > C.chunkBytes ∧ ⟨g.ptr, g.bytes.toNat⟩ ∈ s.storages
  | .pool => ¬ g.bytes > C.chunkBytes ∧ g.ptr ∈ s.sys.held

/-- **The allocator invariant**: the pool's own, and every grant stands for storage of its source,
away from all other storage. -/
structure Inv (s : AllocSys T) : Prop where
  pool : PoolSys.Inv C s.sys
  storages_apart : ∀ S ∈ s.storages, ∀ B ∈ s.sys.blocks,
    Apart S.base S.bytes B.base (B.bytes C.toPoolArgs)
  grantOk : ∀ g ∈ s.grants, GrantOk C s g
  grants_apart : s.grants.Pairwise fun g g' ↦
    Apart g.ptr (g.region C.toPoolArgs) g'.ptr (g'.region C.toPoolArgs)

variable {C}

theorem GrantOk.region_pos {s : AllocSys T} {g : Grant T} (h : GrantOk C s g) :
    0 < g.region C.toPoolArgs := by
  unfold GrantOk at h
  unfold Grant.region
  cases horigin : g.origin with
  | operatorNew =>
    rw [horigin] at h
    exact Nat.lt_of_le_of_lt (Nat.zero_le _) (BitVec.lt_def.1 h.1)
  | pool => exact C.stride_pos

/-- A grant's storage is a held chunk, inside a block, or storage from `::operator new`. -/
theorem Inv.grant_cases {s : AllocSys T} (h : Inv C s) {g : Grant T} (hg : g ∈ s.grants) :
    (⟨g.ptr, g.region C.toPoolArgs⟩ ∈ s.storages) ∨
    (g.region C.toPoolArgs = C.stride ∧ g.ptr ∈ s.sys.held ∧ ∃ B ∈ s.sys.blocks,
      B.base ≤ g.ptr ∧ g.ptr + C.stride ≤ B.base + B.bytes C.toPoolArgs) := by
  have hok := h.grantOk g hg
  unfold GrantOk at hok
  unfold Grant.region
  cases horigin : g.origin with
  | operatorNew =>
    rw [horigin] at hok
    exact Or.inl hok.2
  | pool =>
    rw [horigin] at hok
    obtain ⟨B, hB, hcB⟩ := List.mem_flatMap.1 (h.pool.held_subset hok.2)
    exact Or.inr ⟨rfl, hok.2, B, hB, Block.chunk_inside hcB⟩

/-- Storage the contract of `::operator new` allows is away from every grant. -/
theorem Inv.apart_of_newOk {s : AllocSys T} (h : Inv C s) {S : Storage}
    (hS : s.NewOk C.toPoolArgs S) {g : Grant T} (hg : g ∈ s.grants) :
    Apart S.base S.bytes g.ptr (g.region C.toPoolArgs) := by
  rcases h.grant_cases hg with hstore | ⟨hregion, -, B, hB, hlow, hhigh⟩
  · exact hS.2.2.2 _ hstore
  · rw [hregion]
    exact (hS.2.2.1 B hB).mono (Nat.le_refl _) (Nat.le_refl _) hlow hhigh

/-- A chunk the pool hands out is away from every grant. -/
theorem Inv.apart_of_alloc {s : AllocSys T} (h : Inv C s) {newArray : Option ℕ} {p : ℕ}
    (hnew : ∀ B ∈ s.sys.obtained C.toPoolArgs newArray, s.NewArrayOk C.toPoolArgs B)
    (hp : (s.sys.pool.alloc C.toPoolArgs newArray).1 = some p) {g : Grant T} (hg : g ∈ s.grants) :
    Apart p C.stride g.ptr (g.region C.toPoolArgs) := by
  have hafter : PoolSys.Inv C (s.sys.afterAlloc C.toPoolArgs newArray) :=
    h.pool.afterAlloc fun B hB ↦ (hnew B hB).1
  have hheld := held_afterAlloc hp
  rcases h.grant_cases hg with hstore | ⟨hregion, hmem, -⟩
  · -- the chunk lies in a block, old or new, and the storage is away from both
    obtain ⟨B, hB, hpB⟩ := List.mem_flatMap.1 (hafter.held_subset (hheld ▸ List.mem_cons_self))
    have hapart : Apart g.ptr (g.region C.toPoolArgs) B.base (B.bytes C.toPoolArgs) := by
      rcases List.mem_append.1 hB with hobt | hold
      · exact (hnew B hobt).2 _ hstore
      · exact h.storages_apart _ hstore B hold
    exact hapart.symm.mono (Block.chunk_inside hpB).1 (Block.chunk_inside hpB).2
      (Nat.le_refl _) (Nat.le_refl _)
  · rw [hregion]
    exact (List.pairwise_cons.1 (hheld ▸ hafter.spaced_held.apart)).1 g.ptr hmem

/-- `::operator new` answers an oversize `allocate`. -/
theorem Inv.afterNew {s : AllocSys T} (h : Inv C s) {sizeofT n : SizeT T} {operatorNew : Option ℕ}
    (hbig : sizeofT * n > C.chunkBytes)
    (hnew : ∀ p, operatorNew = some p → s.NewOk C.toPoolArgs ⟨p, (sizeofT * n).toNat⟩) :
    Inv C (s.afterNew sizeofT n operatorNew) := by
  cases operatorNew with
  | none => exact h
  | some p =>
    have hS := hnew p rfl
    refine ⟨h.pool, List.forall_mem_cons.2 ⟨hS.2.2.1, h.storages_apart⟩, ?_, ?_⟩
    · refine List.forall_mem_cons.2 ⟨⟨hbig, List.mem_cons_self⟩, fun g hg ↦ ?_⟩
      have hok := h.grantOk g hg
      unfold GrantOk at hok ⊢
      cases horigin : g.origin with
      | operatorNew =>
        rw [horigin] at hok
        exact ⟨hok.1, List.mem_cons_of_mem _ hok.2⟩
      | pool =>
        rw [horigin] at hok
        exact hok
    · exact List.pairwise_cons.2 ⟨fun g hg ↦ h.apart_of_newOk hS hg, h.grants_apart⟩

/-- The pool answers an `allocate` that fits. -/
theorem Inv.afterPool {s : AllocSys T} (h : Inv C s) {sizeofT n : SizeT T} {newArray : Option ℕ}
    (hsmall : ¬ sizeofT * n > C.chunkBytes)
    (hnew : ∀ B ∈ s.sys.obtained C.toPoolArgs newArray, s.NewArrayOk C.toPoolArgs B) :
    Inv C (s.afterPool C.toPoolArgs sizeofT n newArray) := by
  have hold : ∀ g ∈ s.grants, GrantOk C (s.afterPool C.toPoolArgs sizeofT n newArray) g := by
    intro g hg
    have hok := h.grantOk g hg
    unfold GrantOk at hok ⊢
    cases horigin : g.origin with
    | operatorNew =>
      rw [horigin] at hok
      exact hok
    | pool =>
      rw [horigin] at hok
      exact ⟨hok.1, List.mem_append_right _ hok.2⟩
  refine ⟨h.pool.afterAlloc fun B hB ↦ (hnew B hB).1, fun S hS B hB ↦ ?_, ?_, ?_⟩
  · rcases List.mem_append.1 hB with hobt | hB
    · exact (hnew B hobt).2 S hS
    · exact h.storages_apart S hS B hB
  · cases hp : (s.sys.pool.alloc C.toPoolArgs newArray).1 with
    | none => simpa [AllocSys.afterPool, hp] using hold
    | some p =>
      have hmem : p ∈ (s.sys.afterAlloc C.toPoolArgs newArray).held := by
        rw [held_afterAlloc hp]
        exact List.mem_cons_self
      have hgrant : GrantOk C (s.afterPool C.toPoolArgs sizeofT n newArray)
          ⟨p, sizeofT, n, .pool⟩ := ⟨hsmall, hmem⟩
      simpa [AllocSys.afterPool, hp] using And.intro hgrant hold
  · cases hp : (s.sys.pool.alloc C.toPoolArgs newArray).1 with
    | none => simpa [AllocSys.afterPool, hp] using h.grants_apart
    | some p =>
      have hapart : ∀ g ∈ s.grants, Apart p C.stride g.ptr (g.region C.toPoolArgs) :=
        fun g hg ↦ h.apart_of_alloc hnew hp hg
      simpa [AllocSys.afterPool, hp, Grant.region] using And.intro hapart h.grants_apart

/-- A grant that fits in a chunk came from the pool. -/
theorem Inv.origin_of_small {s : AllocSys T} (h : Inv C s) {g : Grant T} (hg : g ∈ s.grants)
    (hsmall : ¬ g.bytes > C.chunkBytes) : g.origin = .pool ∧ g.ptr ∈ s.sys.held := by
  have hok := h.grantOk g hg
  unfold GrantOk at hok
  cases horigin : g.origin with
  | operatorNew =>
    rw [horigin] at hok
    exact absurd hok.1 hsmall
  | pool =>
    rw [horigin] at hok
    exact ⟨rfl, hok.2⟩

/-- A `deallocate` of what fits in a chunk makes the one release to the pool. -/
theorem deallocate_of_small {g : Grant T} (hsmall : ¬ g.bytes > C.chunkBytes) :
    deallocate C.toPoolArgs g.ptr g.sizeofT g.n = [.poolDealloc g.ptr] := by
  have hbranch : ¬ g.sizeofT * g.n > C.chunkBytes := hsmall
  rw [deallocate, if_neg hbranch, List.nil_append]

/-- Giving a chunk back to the pool. -/
theorem Inv.release {s : AllocSys T} (h : Inv C s) {g : Grant T} (hg : g ∈ s.grants)
    (hsmall : ¬ g.bytes > C.chunkBytes) :
    Inv C { s.perform (.poolDealloc g.ptr) with grants := s.grants.erase g } := by
  obtain ⟨-, hheld⟩ := h.origin_of_small hg hsmall
  have hperm := List.perm_cons_erase hg
  have hapart :=
    List.pairwise_cons.1 ((hperm.pairwise_iff fun hab ↦ Apart.symm hab).1 h.grants_apart)
  refine ⟨h.pool.dealloc hheld, h.storages_apart, fun g' hg' ↦ ?_, hapart.2⟩
  have hok := h.grantOk g' (List.mem_of_mem_erase hg')
  have hne : g'.ptr ≠ g.ptr := by
    have hsep := hapart.1 g' hg'
    have hpos := (h.grantOk g hg).region_pos
    have hpos' := hok.region_pos
    unfold Apart at hsep
    omega
  unfold GrantOk at hok ⊢
  cases horigin : g'.origin with
  | operatorNew =>
    rw [horigin] at hok
    exact hok
  | pool =>
    rw [horigin] at hok
    exact ⟨hok.1, (List.mem_erase_of_ne hne).2 hok.2⟩

/-- The guard: no `deallocate` of more than a chunk. -/
def NotOversize (C : PoolConfig T) (op : AllocOp T) : Prop :=
  ∀ g, op = .deallocate g → ¬ g.bytes > C.chunkBytes

theorem inv_step {s t : AllocSys T} {op : AllocOp T} (h : Inv C s) (hop : NotOversize C op)
    (hstep : s.step C.toPoolArgs op = some t) : Inv C t := by
  obtain ⟨sizeofT, n, operatorNew, newArray, -, -, hbig, hnew, rfl⟩ |
    ⟨sizeofT, n, operatorNew, newArray, -, -, hsmall, hnew, rfl⟩ |
    ⟨g, rfl, hg, rfl⟩ | ⟨a, v, sys, -, hsys, rfl⟩ := step_cases hstep
  · exact h.afterNew hbig hnew
  · exact h.afterPool hsmall hnew
  · rw [deallocate_of_small (hop g rfl)]
    exact h.release hg (hop g rfl)
  · have hpool := PoolSys.inv_step h.pool hsys
    obtain ⟨-, ⟨⟩⟩ := Option.ite_none_right_eq_some.1 hsys
    exact ⟨hpool, h.storages_apart, h.grantOk, h.grants_apart⟩

theorem inv_initial {s : AllocSys T} (h : s.Initial C.toPoolArgs) : Inv C s := by
  obtain ⟨hsys, hstorages, hgrants⟩ := h
  exact ⟨PoolSys.inv_initial hsys, by simp [hstorages], by simp [hgrants],
    hgrants ▸ List.Pairwise.nil⟩

theorem Inv.pureFreeList {s : AllocSys T} (h : Inv C s) : s.PureFreeList C.toPoolArgs := by
  obtain ⟨frees, hfrees, hperm⟩ := h.pool.exists_frees
  exact ⟨frees, hfrees, fun c hc ↦ hperm.subset (List.mem_append_left _ hc)⟩

/-! ### When the interface is kept -/

/-- The byte count of a call that does not overflow. -/
theorem toNat_bytes {sizeofT n : SizeT T} (hfit : sizeofT.toNat * n.toNat < 2 ^ T.bits) :
    (sizeofT * n).toNat = sizeofT.toNat * n.toNat := by
  rw [BitVec.toNat_mul, Nat.mod_eq_of_lt hfit]

/-- An oversize `allocate` is sound: the storage is what `::operator new` returned. -/
theorem Inv.soundGrant_new {s : AllocSys T} (h : Inv C s) {sizeofT n : SizeT T} {p : ℕ}
    (hfit : sizeofT.toNat * n.toNat < 2 ^ T.bits)
    (hnew : s.NewOk C.toPoolArgs ⟨p, (sizeofT * n).toNat⟩) :
    SoundGrant C.toPoolArgs s (s.afterNew sizeofT n (some p)) ⟨p, sizeofT, n, .operatorNew⟩ where
  large := (toNat_bytes hfit).ge
  live := Or.inr ⟨_, List.mem_cons_self, Nat.le_refl _, Nat.le_refl _⟩
  apart _ hg := h.apart_of_newOk hnew hg

/-- An `allocate` that fits in a chunk is sound: the storage is a chunk nobody held. -/
theorem Inv.soundGrant_pool {s : AllocSys T} (h : Inv C s) {sizeofT n : SizeT T}
    {newArray : Option ℕ} {p : ℕ} (hfit : sizeofT.toNat * n.toNat < 2 ^ T.bits)
    (hsmall : ¬ sizeofT * n > C.chunkBytes)
    (hnew : ∀ B ∈ s.sys.obtained C.toPoolArgs newArray, s.NewArrayOk C.toPoolArgs B)
    (hp : (s.sys.pool.alloc C.toPoolArgs newArray).1 = some p) :
    SoundGrant C.toPoolArgs s (s.afterPool C.toPoolArgs sizeofT n newArray)
      ⟨p, sizeofT, n, .pool⟩ where
  large := by
    have hle : (sizeofT * n).toNat ≤ C.chunkBytes.toNat := BitVec.not_lt.1 hsmall
    rw [toNat_bytes hfit] at hle
    exact hle.trans C.chunkBytes_le_stride
  live := by
    have hafter := h.pool.afterAlloc fun B hB ↦ (hnew B hB).1
    have hmem : p ∈ (s.sys.afterAlloc C.toPoolArgs newArray).held := by
      rw [held_afterAlloc hp]
      exact List.mem_cons_self
    obtain ⟨B, hB, hpB⟩ := List.mem_flatMap.1 (hafter.held_subset hmem)
    exact Or.inl ⟨B, hB, Block.chunk_inside hpB⟩
  apart _ hg := h.apart_of_alloc hnew hp hg

theorem Inv.routedStep {s t : AllocSys T} {op : AllocOp T} (h : Inv C s) (hop : NotOversize C op)
    (hstep : s.step C.toPoolArgs op = some t) : s.RoutedStep C.toPoolArgs op := by
  obtain ⟨sizeofT, n, operatorNew, newArray, rfl, hfit, hbig, hnew, rfl⟩ |
    ⟨sizeofT, n, operatorNew, newArray, rfl, hfit, hsmall, hnew, rfl⟩ |
    ⟨g, rfl, hg, rfl⟩ | ⟨a, v, sys, rfl, -, -⟩ := step_cases hstep
  · intro t ht p hp
    obtain rfl := Option.some.inj (hstep.symm.trans ht)
    rw [allocate, if_pos hbig] at hp
    obtain rfl : operatorNew = some p := hp
    exact ⟨.operatorNew, rfl, h.soundGrant_new hfit (hnew p rfl)⟩
  · intro t ht p hp
    obtain rfl := Option.some.inj (hstep.symm.trans ht)
    rw [allocate, if_neg hsmall] at hp
    refine ⟨.pool, ?_, h.soundGrant_pool hfit hsmall hnew hp⟩
    rw [AllocSys.afterPool, hp]
    rfl
  · rw [RoutedStep, deallocate_of_small (hop g rfl), (h.origin_of_small hg (hop g rfl)).1]
    rfl
  · trivial

/-- A `deallocate` that makes one release is one of at most a chunk. -/
theorem le_of_routedStep {s : AllocSys T} {g : Grant T}
    (h : s.RoutedStep C.toPoolArgs (.deallocate g)) : ¬ g.bytes > C.chunkBytes := by
  intro hbig
  have hbranch : g.sizeofT * g.n > C.chunkBytes := hbig
  have hlen := congrArg List.length (show deallocate C.toPoolArgs g.ptr g.sizeofT g.n = _ from h)
  rw [deallocate, if_pos hbranch] at hlen
  cases hlen

/-- **Storage goes back where it came from exactly in the runs that deallocate nothing larger than a
chunk.** -/
theorem routed_iff_no_oversize_deallocate {s t : AllocSys T} (hs : s.Initial C.toPoolArgs)
    {ops : List (AllocOp T)} (hrun : run (step C.toPoolArgs) s ops = some t) :
    s.Routed C.toPoolArgs ops ↔
      ∀ g, AllocOp.deallocate g ∈ ops → g.bytes.toNat ≤ C.chunkBytes.toNat := by
  constructor
  · rintro ⟨hsteps, -⟩ g hg
    obtain ⟨ops₁, ops₂, rfl⟩ := List.append_of_mem hg
    obtain ⟨u, hu, -⟩ := run_append_eq_some.1 hrun
    exact BitVec.not_lt.1 (le_of_routedStep (hsteps ops₁ _ ops₂ u rfl hu))
  · intro hle
    have hguard : EveryStep (step C.toPoolArgs) (fun _ op ↦ NotOversize C op) s ops := by
      refine everyStep_of_forall_mem ?_
      rintro op hop g rfl
      exact BitVec.not_lt.2 (hle g hop)
    have hinv : EveryState (step C.toPoolArgs) (Inv C) s ops :=
      everyState_of_everyStep (fun _ _ _ ↦ inv_step) (inv_initial hs) hguard
    refine ⟨fun ops₁ op ops₂ u hops hu ↦ ?_, hinv.mono fun _ h ↦ h.pureFreeList⟩
    obtain ⟨v, hv⟩ := everyStep_of_run hrun ops₁ op ops₂ u hops hu
    exact (hinv ops₁ (op :: ops₂) u hops hu).routedStep (hguard ops₁ op ops₂ u hops hu) hv

/-! ### The small pool behind an allocator -/

/-- The small pool, shared, with nothing allocated. -/
def tinyAlloc : AllocSys Target.lp64 := ⟨tinyStart, [], []⟩

theorem tinyAlloc_initial : tinyAlloc.Initial tinyPool.toPoolArgs := ⟨tinyStart_initial, rfl, rfl⟩

/-- Sixteen bytes that come from `::operator new` and are kept, and one eight-byte value allocated
and deallocated. -/
theorem routed_tinyAlloc : tinyAlloc.Routed tinyPool.toPoolArgs
    [.allocate 16 1 (some 8192) none, .allocate 8 1 none none,
      .deallocate ⟨4096, 8, 1, .pool⟩] :=
  (routed_iff_no_oversize_deallocate tinyAlloc_initial (t := _) rfl).2 fun g hg ↦ by
    obtain rfl : g = ⟨4096, 8, 1, .pool⟩ := by simpa using hg
    decide

/-- **Released storage is handed out again.** Sixteen bytes come from `::operator new` at 8192 and
are deallocated; the next eight-byte `allocate` returns 8192, which is no storage of anyone. -/
theorem allocates_released_storage : ¬ ∀ (T : Target) (C : PoolConfig T) (s t : AllocSys T)
    (ops : List (AllocOp T)), s.Initial C.toPoolArgs → run (step C.toPoolArgs) s ops = some t →
      s.Routed C.toPoolArgs ops := by
  intro hall
  obtain ⟨hsteps, -⟩ := hall _ tinyPool tinyAlloc _
    [.allocate 16 1 (some 8192) none, .deallocate ⟨8192, 16, 1, .operatorNew⟩,
      .allocate 8 1 none none] tinyAlloc_initial rfl
  obtain ⟨origin, hgrants, hsound⟩ :=
    hsteps [.allocate 16 1 (some 8192) none, .deallocate ⟨8192, 16, 1, .operatorNew⟩]
      (.allocate 8 1 none none) [] _ rfl rfl _ rfl 8192 rfl
  obtain ⟨⟨⟩, -⟩ := List.cons.inj hgrants
  rcases hsound.live with ⟨B, hB, -, hhigh⟩ | ⟨S, hS, -⟩
  · obtain rfl : B = ⟨4096, 1⟩ := List.mem_singleton.1 hB
    exact absurd hhigh (by decide)
  · exact absurd hS List.not_mem_nil

end AllocSys

end Libk2
