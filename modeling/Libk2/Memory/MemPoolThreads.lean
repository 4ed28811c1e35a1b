import Libk2.Memory.MemPoolCode
import Libk2.Foundation.Ownership
import Libk2.Threading.SpinGuard

/-!
# `mem_pool` among threads

A `mem_pool` with `ThreadSafe = true`, used by any number of threads: `alloc` and `dealloc` run one
access at a time inside their `scoped_guard`, the guard's lock is a `spin_lock`, and all the while
threads write into the chunks they hold and the rest of the program writes outside the pool's
blocks.

The invariant `PoolLocked.Inv` divides the chunks of all blocks among the free list, the callers who
hold them, and the calls that have them in their hands: a block just obtained belongs to the call
that grows the pool, chunk by chunk until it is deposited, a chunk given back belongs to its
`dealloc`, and a chunk handed out belongs to its `alloc` until the caller has it. What a call stores
goes into chunks that are its own, and what others write goes into chunks that are not.

It says outright that a chunk has one holder at most (`shared_chunk_has_one_holder`), and it is what
`Refinement` asks for (`poolRefinement`): whatever the threads do, they see what they would see if
each call of `alloc` and `dealloc` were one step (`pool_calls_are_atomic`).
-/

namespace Libk2

open ByteMemory PointerChain StepSystem LockedObject Ownership MemPool PoolSys

variable {T : Target}

/-! ### What a call has in its hands -/

/-- The chunks a result hands over. -/
def PoolResult.owned : PoolResult → List ℕ
  | .chunk p => [p]
  | .threw | .void => []

namespace PoolPos

variable (A : PoolArgs T)

/-- The chunks that are in a call's hands. -/
def owned : PoolPos → List ℕ
  | atTest | atNew | atTake | atUnlink _ => []
  | atHeader rawMem | atAllocs rawMem => MemPool.chunksFrom A rawMem A.refillCount.toNat
  | atLink n rawMem | atHead n rawMem => MemPool.chunksFrom A rawMem (n + 1)
  | giveLink p | giveHead p => [p]
  | finished r => r.owned

/-- What a call relies on at a position. -/
def Ok (s : MemPool) (op : PoolCall) : PoolPos → Prop
  | atTest => op = .alloc
  | atNew => op = .alloc ∧ s.mFrees = 0
  | atTake => s.mFrees ≠ 0
  | atUnlink pchunk => s.mFrees = pchunk ∧ pchunk ≠ 0
  | atHead _ rawMem => s.pnext T rawMem = s.mFrees
  | giveLink p => op = .dealloc p
  | giveHead p => s.pnext T p = s.mFrees
  | atHeader _ | atAllocs _ | atLink _ _ | finished _ => True

theorem owned_loop (n rawMem : ℕ) : (loop n rawMem).owned A = MemPool.chunksFrom A rawMem n := by
  cases n <;> rfl

end PoolPos

namespace MemPool

variable {C : PoolConfig T} {s : MemPool} {frees : List ℕ} {p : ℕ}

/-- Different chunks are separate. -/
theorem Spaced.apart_of_ne {l : List ℕ} (h : Spaced C l) {c d : ℕ} (hc : c ∈ l) (hd : d ∈ l)
    (hne : c ≠ d) : Apart c C.stride d C.stride := by
  have : Std.Symm fun c d ↦ Apart c C.stride d C.stride := ⟨fun _ _ hcd ↦ hcd.symm⟩
  exact h.apart.forall hc hd hne

/-- Storing a link outside the free list. -/
theorem FreeList.setPnext (h : s.FreeList T frees) (hsp : Spaced C (p :: frees)) (q : ℕ) :
    (s.setPnext T p q).FreeList T frees := by
  refine Seg.congr h fun c hc ↦ congrArg some (loadWord_storeWord_of_apart ?_)
  exact apart_link ((List.pairwise_cons.1 hsp.apart).1 c hc)

/-- The link `deposit` stores. -/
theorem FreeList.pnext_setPnext (h : s.FreeList T frees) (hsp : Spaced C (p :: frees)) :
    (s.setPnext T p s.mFrees).pnext T p = s.mFrees :=
  loadWord_storeWord_self (T.two_pow_bits ▸ h.mFrees_lt (hsp.sublist (List.sublist_cons_self p _)))

/-- Its chunk becomes the first free one. -/
theorem FreeList.push (h : s.FreeList T frees) (hsp : Spaced C (p :: frees))
    (hlink : s.pnext T p = s.mFrees) : ({ s with mFrees := p } : MemPool).FreeList T (p :: frees) :=
  ⟨rfl, hsp.ne_zero p List.mem_cons_self, s.mFrees, congrArg some hlink, h⟩

end MemPool

namespace PoolPos

variable {C : PoolConfig T}

/-- **One access of a call** moves chunks between the free list and its hands, and takes up a new
block with `extra` chunks at most once. -/
theorem owned_of_next {k k' : PoolPos} {newArray : Option ℕ} {s s' : PoolSys} {op : PoolCall}
    {frees : List ℕ} (h : k.next C.toPoolArgs newArray s = some (s', k'))
    (hok : k.Ok (T := T) s.pool op) (hfrees : s.pool.FreeList T frees)
    (hsp : Spaced C (k.owned C.toPoolArgs ++ frees)) (hblocks : BlocksOk C s.blocks) :
    ∃ frees' extra, s'.pool.FreeList T frees' ∧ k'.Ok (T := T) s'.pool op ∧ s'.held = s.held ∧
      BlocksOk C s'.blocks ∧ s'.chunks C.toPoolArgs = extra ++ s.chunks C.toPoolArgs ∧
      (frees' ++ k'.owned C.toPoolArgs).Perm (frees ++ k.owned C.toPoolArgs ++ extra) := by
  obtain ⟨n, hn⟩ := Nat.exists_eq_add_of_le' C.one_le_refillCount
  have hhead : ∀ {rawMem n}, Spaced C (MemPool.chunksFrom C.toPoolArgs rawMem (n + 1) ++ frees) →
      Spaced C (rawMem :: frees) := by
    intro rawMem n h
    rw [MemPool.chunksFrom_succ] at h
    exact h.sublist (by simp)
  cases k with
  | finished r => cases h
  | atTest =>
    obtain ⟨rfl, rfl⟩ := Prod.mk.inj (Option.some.inj h)
    refine ⟨frees, [], hfrees, ?_, rfl, hblocks, rfl, ?_⟩
    · split
      · next h0 => exact ⟨hok, h0⟩
      · next h0 => exact h0
    · split <;> simp [owned]
  | atNew =>
    cases newArray with
    | none =>
      obtain ⟨rfl, rfl⟩ := Prod.mk.inj (Option.some.inj h)
      exact ⟨frees, [], hfrees, trivial, rfl, hblocks, rfl, by simp [owned, PoolResult.owned]⟩
    | some rawMem =>
      obtain ⟨hfresh, hsome⟩ := Option.ite_none_right_eq_some.1 h
      obtain ⟨rfl, rfl⟩ := Prod.mk.inj (Option.some.inj hsome)
      exact ⟨frees, MemPool.chunksFrom C.toPoolArgs rawMem C.refillCount.toNat, hfrees, trivial,
        rfl, hblocks.cons hfresh, rfl, by simp [owned]⟩
  | atHeader rawMem =>
    obtain ⟨rfl, rfl⟩ := Prod.mk.inj (Option.some.inj h)
    rw [owned, hn] at hsp
    exact ⟨frees, [], hfrees.setPnext (hhead hsp) _, trivial, rfl, hblocks, rfl, by simp [owned]⟩
  | atAllocs rawMem =>
    obtain ⟨rfl, rfl⟩ := Prod.mk.inj (Option.some.inj h)
    refine ⟨frees, [], hfrees, ?_, rfl, hblocks, rfl, ?_⟩
    · rw [hn]
      exact trivial
    · rw [owned_loop, List.append_nil]
      rfl
  | atLink n rawMem =>
    obtain ⟨rfl, rfl⟩ := Prod.mk.inj (Option.some.inj h)
    exact ⟨frees, [], hfrees.setPnext (hhead hsp) _, hfrees.pnext_setPnext (hhead hsp), rfl,
      hblocks, rfl, by simp [owned]⟩
  | atHead n rawMem =>
    obtain ⟨rfl, rfl⟩ := Prod.mk.inj (Option.some.inj h)
    refine ⟨rawMem :: frees, [], hfrees.push (hhead hsp) hok, ?_, rfl, hblocks, rfl, ?_⟩
    · cases n with
      | zero => exact (hhead hsp).ne_zero rawMem List.mem_cons_self
      | succ n => exact trivial
    · rw [owned_loop, owned, MemPool.chunksFrom_succ, List.append_nil, List.cons_append]
      exact List.perm_middle.symm
  | atTake =>
    obtain ⟨rfl, rfl⟩ := Prod.mk.inj (Option.some.inj h)
    exact ⟨frees, [], hfrees, ⟨rfl, hok⟩, rfl, hblocks, rfl, by simp [owned]⟩
  | atUnlink pchunk =>
    obtain ⟨rfl, rfl⟩ := Prod.mk.inj (Option.some.inj h)
    obtain ⟨rfl, h0⟩ := hok
    obtain ⟨r, rest, rfl, hr, hrest⟩ := hfrees.exists_cons h0
    obtain rfl : s.pool.pnext T s.pool.mFrees = r := Option.some.inj hr
    refine ⟨rest, [], hrest, trivial, rfl, hblocks, rfl, ?_⟩
    show (rest ++ [s.pool.mFrees]).Perm (s.pool.mFrees :: rest ++ [] ++ [])
    rw [List.append_nil, List.append_nil]
    exact List.perm_append_singleton s.pool.mFrees rest
  | giveLink p =>
    obtain ⟨rfl, rfl⟩ := Prod.mk.inj (Option.some.inj h)
    exact ⟨frees, [], hfrees.setPnext hsp _, hfrees.pnext_setPnext hsp, rfl, hblocks, rfl,
      by simp [owned]⟩
  | giveHead p =>
    obtain ⟨rfl, rfl⟩ := Prod.mk.inj (Option.some.inj h)
    refine ⟨p :: frees, [], hfrees.push hsp hok, trivial, rfl, hblocks, rfl, ?_⟩
    show (p :: frees ++ []).Perm (frees ++ [p] ++ [])
    rw [List.append_nil, List.append_nil]
    exact (List.perm_append_singleton p frees).symm

end PoolPos

/-! ### The invariant -/

section Threads

variable {τ : Type*} [Fintype τ]

/-- A pool under an ideal lock, and the threads that use it. -/
abbrev PoolLocked (τ : Type*) := Locked τ PoolSys PoolCall PoolResult PoolPos

namespace PoolLocked

variable (A : PoolArgs T)

/-- The chunks in a thread's hands. -/
def owned : Stage PoolResult (PoolCall × Option PoolPos) → List ℕ
  | .idle | .busy (.alloc, none) => []
  | .busy (.dealloc p, none) => [p]
  | .busy (_, some k) => k.owned A
  | .done r => r.owned

theorem owned_inside (op : PoolCall) (k : PoolPos) : owned A (.busy (op, some k)) = k.owned A := by
  cases op <;> rfl

/-- What each thread has in its hands. -/
def hands (c : PoolLocked τ) (t : τ) : Multiset ℕ := ↑(owned A (c.stage t))

omit [Fintype τ] in
theorem hands_update [DecidableEq τ] {c : PoolLocked τ} {s : PoolSys} {t : τ}
    {g : Stage PoolResult (PoolCall × Option PoolPos)} :
    hands A ⟨s, Function.update c.stage t g⟩ =
      Function.update (hands A c) t ↑(owned A g) := by
  funext u
  rcases eq_or_ne u t with rfl | hne
  · simp [hands]
  · simp [hands, Function.update_of_ne hne]

/-- The division of the chunks of `c`: `frees` are free, the others held or in a thread's hands. -/
def Split (c : PoolLocked τ) (frees : List ℕ) : Prop :=
  Divided (↑frees + ↑c.state.held) (hands A c) ↑(c.state.chunks A)

variable (C : PoolConfig T)

/-- **The invariant of a pool among threads.** -/
structure Inv (c : PoolLocked τ) : Prop where
  alone : c.Alone
  blocksOk : BlocksOk C c.state.blocks
  exists_frees : ∃ frees, c.state.pool.FreeList T frees ∧ Split C.toPoolArgs c frees
  place : ∀ t op k, c.stage t = .busy (op, some k) → k.Ok (T := T) c.state.pool op

variable {C} {c : PoolLocked τ} {frees : List ℕ}

omit [Fintype τ] in
theorem nodup_chunks {s : PoolSys} (h : BlocksOk C s.blocks) :
    (s.chunks C.toPoolArgs : Multiset ℕ).Nodup :=
  Multiset.coe_nodup.2 (spaced_chunks h).nodup

/-- Chunks that are together among all chunks are separate. -/
theorem spaced_of_le {s : PoolSys} (h : BlocksOk C s.blocks) {l : List ℕ}
    (hl : (l : Multiset ℕ) ≤ ↑(s.chunks C.toPoolArgs)) : Spaced C l := by
  obtain ⟨l', hperm, hsub⟩ := Multiset.coe_le.1 hl
  exact ((spaced_chunks h).sublist hsub).perm hperm

/-- A thread's chunks and the free ones are separate. -/
theorem Inv.spaced (h : Inv C c) (hsplit : Split C.toPoolArgs c frees) (t : τ) :
    Spaced C (owned C.toPoolArgs (c.stage t) ++ frees) := by
  refine spaced_of_le h.blocksOk ?_
  rw [← Multiset.coe_add, ← hsplit, add_comm]
  exact add_le_add (Multiset.le_add_right _ _)
    (Finset.single_le_sum (f := hands C.toPoolArgs c) (fun _ _ ↦ Multiset.zero_le _)
      (Finset.mem_univ t))

/-- What a caller or the rest of the program may write lies in no free chunk, and in none that is
in a thread's hands. -/
theorem Inv.outside_of_writable (h : Inv C c) (hsplit : Split C.toPoolArgs c frees) {a p : ℕ}
    (ha : c.state.Writable C.toPoolArgs a)
    (hp : p ∈ frees ∨ ∃ t, p ∈ owned C.toPoolArgs (c.stage t)) : a < p ∨ p + C.stride ≤ a := by
  have hnodup := nodup_chunks h.blocksOk
  have hmem : p ∈ c.state.chunks C.toPoolArgs := by
    refine Multiset.mem_coe.1 (hsplit.mem_iff.2 ?_)
    rcases hp with hp | ⟨t, ht⟩
    · exact .inl (Multiset.mem_add.2 (.inl hp))
    · exact .inr ⟨t, ht⟩
  have hheld : p ∉ c.state.held := by
    rcases hp with hp | ⟨t, ht⟩
    · exact fun hheld ↦ Multiset.disjoint_left.1
        (Multiset.nodup_add.1 (hsplit.nodup_common hnodup)).2.2 hp hheld
    · exact fun hheld ↦ hsplit.not_mem_common hnodup ht (Multiset.mem_add.2 (.inr hheld))
  rcases ha with hout | ⟨d, hd, hda, had⟩
  · obtain ⟨B, hB, hpB⟩ := List.mem_flatMap.1 hmem
    have hin := Block.chunk_inside hpB
    have := hout B hB
    omega
  · have hdmem : d ∈ c.state.chunks C.toPoolArgs :=
      Multiset.mem_coe.1 (hsplit.mem_iff.2 (.inl (Multiset.mem_add.2 (.inr hd))))
    have happart := (spaced_chunks h.blocksOk).apart_of_ne hmem hdmem fun heq ↦ hheld (heq ▸ hd)
    unfold Apart at happart
    omega

variable [DecidableEq τ]

/-- **A thread moves on**, and the division with it. -/
theorem Split.update (h : Split C.toPoolArgs c frees) {s : PoolSys} {t : τ}
    {g : Stage PoolResult (PoolCall × Option PoolPos)} {frees' extra : List ℕ}
    (hmove : (frees' ++ s.held ++ owned C.toPoolArgs g).Perm
      (frees ++ c.state.held ++ owned C.toPoolArgs (c.stage t) ++ extra))
    (hchunks : s.chunks C.toPoolArgs = extra ++ c.state.chunks C.toPoolArgs) :
    Split C.toPoolArgs ⟨s, Function.update c.stage t g⟩ frees' := by
  have hmove' := Multiset.coe_eq_coe.2 hmove
  simp only [← Multiset.coe_add] at hmove'
  have hdivided := Divided.update h hmove'
  show Divided (↑frees' + ↑s.held) (hands _ _) ↑(s.chunks C.toPoolArgs)
  rwa [hands_update, hchunks, ← Multiset.coe_add, add_comm (extra : Multiset ℕ)]

/-- A thread moves on, without new chunks. -/
theorem Split.pass (h : Split C.toPoolArgs c frees) {s : PoolSys} {t : τ}
    {g : Stage PoolResult (PoolCall × Option PoolPos)} {frees' : List ℕ}
    (hmove : (frees' ++ s.held ++ owned C.toPoolArgs g).Perm
      (frees ++ c.state.held ++ owned C.toPoolArgs (c.stage t)))
    (hchunks : s.chunks C.toPoolArgs = c.state.chunks C.toPoolArgs) :
    Split C.toPoolArgs ⟨s, Function.update c.stage t g⟩ frees' := by
  refine h.update (hmove.trans ?_) (hchunks.trans (List.nil_append _).symm)
  rw [List.append_nil]

omit [Fintype τ] [DecidableEq τ] in
/-- What an event does to the object: nothing, or one byte changes that may be written. -/
theorem note_cases {A : PoolArgs T} {e : Event τ PoolCall PoolResult (ℕ × UInt8)} {s s' : PoolSys}
    (h : PoolSys.note A e s = some s') : s'.blocks = s.blocks ∧
      (s'.pool = s.pool ∨ ∃ a v, s.Writable A a ∧ s'.pool = s.pool.writeByte a v) := by
  match e with
  | .call _ .alloc =>
    obtain rfl := Option.some.inj h
    exact ⟨rfl, .inl rfl⟩
  | .call _ (.dealloc p) =>
    obtain ⟨-, ⟨⟩⟩ := Option.ite_none_right_eq_some.1 h
    exact ⟨rfl, .inl rfl⟩
  | .ret _ (.chunk p) =>
    obtain rfl := Option.some.inj h
    exact ⟨rfl, .inl rfl⟩
  | .ret _ .threw | .ret _ .void =>
    obtain rfl := Option.some.inj h
    exact ⟨rfl, .inl rfl⟩
  | .env (a, v) =>
    obtain ⟨ha, ⟨⟩⟩ := Option.ite_none_right_eq_some.1 h
    exact ⟨rfl, .inr ⟨a, v, ha, rfl⟩⟩

/-- Chunks change hands at calls and returns. -/
theorem Split.event (h : Split C.toPoolArgs c frees)
    {e : Event τ PoolCall PoolResult (ℕ × UInt8)}
    {stage : τ → Stage PoolResult (PoolCall × Option PoolPos)} {s : PoolSys}
    (hturn : turn (fun op ↦ (op, none)) c.stage e = some stage)
    (hnote : PoolSys.note C.toPoolArgs e c.state = some s) :
    Split C.toPoolArgs ⟨s, stage⟩ frees := by
  have hchunks : s.chunks C.toPoolArgs = c.state.chunks C.toPoolArgs :=
    congrArg (List.flatMap (Block.chunks C.toPoolArgs)) (note_cases hnote).1
  obtain ⟨t, op, rfl, ht, rfl⟩ | ⟨t, r, rfl, ht, rfl⟩ | ⟨⟨a, v⟩, rfl, rfl⟩ := turn_cases hturn
  · cases op with
    | alloc =>
      obtain rfl := Option.some.inj hnote
      exact h.pass (by simp [owned, ht]) hchunks
    | dealloc p =>
      obtain ⟨hp, ⟨⟩⟩ := Option.ite_none_right_eq_some.1 hnote
      refine h.pass ?_ hchunks
      rw [ht, owned, owned, List.append_nil, List.append_assoc]
      exact ((List.perm_append_singleton p _).trans (List.perm_cons_erase hp).symm).append_left _
  · cases r with
    | chunk p =>
      obtain rfl := Option.some.inj hnote
      refine h.pass ?_ hchunks
      rw [ht, owned, owned, List.append_nil, List.append_assoc]
      exact (List.perm_append_singleton p _).symm.append_left _
    | threw | void =>
      obtain rfl := Option.some.inj hnote
      exact h.pass (by simp [owned, ht, PoolResult.owned]) hchunks
  · obtain ⟨-, ⟨⟩⟩ := Option.ite_none_right_eq_some.1 hnote
    exact h

/-- A position is not disturbed by bytes outside the chunks in its hands. -/
theorem ok_writeByte {k : PoolPos} {s : MemPool} {op : PoolCall} {a : ℕ} {v : UInt8}
    (hok : k.Ok (T := T) s op)
    (h : ∀ p ∈ k.owned C.toPoolArgs, a < p ∨ p + T.ptrBytes ≤ a) :
    k.Ok (T := T) (s.writeByte a v) op := by
  cases k with
  | atHead n rawMem =>
    rw [PoolPos.owned, chunksFrom_succ, List.forall_mem_cons] at h
    exact (pnext_writeByte h.1).trans hok
  | giveHead p => exact (pnext_writeByte (h p List.mem_cons_self)).trans hok
  | atTest | atNew | atHeader _ | atAllocs _ | atLink _ _ | atTake | atUnlink _ | giveLink _
  | finished _ => exact hok

theorem inv_event (h : Inv C c) {e : Event τ PoolCall PoolResult (ℕ × UInt8)} {c' : PoolLocked τ}
    (hstep : Locked.step (poolSpec C.toPoolArgs τ) (poolCode C.toPoolArgs) c (.event e) = some c') :
    Inv C c' := by
  have halone := Locked.alone_step h.alone hstep
  obtain ⟨stage, hturn, hmap⟩ := Option.bind_eq_some_iff.1 hstep
  obtain ⟨s, hs, rfl⟩ := Option.map_eq_some_iff.1 hmap
  obtain ⟨frees, hfrees, hsplit⟩ := h.exists_frees
  obtain ⟨hblocks, hsame | ⟨a, v, ha, hwrite⟩⟩ := note_cases hs
  · refine ⟨halone, hblocks ▸ h.blocksOk, ⟨frees, ?_, hsplit.event hturn hs⟩, fun u op k hu ↦ ?_⟩
    · rwa [hsame]
    · rw [hsame]
      exact h.place u op k (Locked.position_of_turn hturn hu)
  · have hword := C.ptrBytes_le_stride
    refine ⟨halone, hblocks ▸ h.blocksOk, ⟨frees, ?_, hsplit.event hturn hs⟩, fun u op k hu ↦ ?_⟩
    · rw [hwrite]
      refine Seg.congr hfrees fun p hp ↦ congrArg some (pnext_writeByte ?_)
      have := h.outside_of_writable hsplit ha (.inl hp)
      omega
    · rw [hwrite]
      refine ok_writeByte (C := C) (h.place u op k (Locked.position_of_turn hturn hu)) fun p hp ↦ ?_
      have hmine : p ∈ owned C.toPoolArgs (c.stage u) := by
        rwa [Locked.position_of_turn hturn hu, owned_inside]
      have := h.outside_of_writable hsplit ha (.inr ⟨u, hmine⟩)
      omega

theorem inv_enter (h : Inv C c) {t : τ} {c' : PoolLocked τ}
    (hstep : Locked.step (poolSpec C.toPoolArgs τ) (poolCode C.toPoolArgs) c (.enter t) = some c') :
    Inv C c' := by
  have halone := Locked.alone_step h.alone hstep
  obtain ⟨e, _, _, ⟨⟩, -⟩ | ⟨_, op, ⟨⟩, ht, hfree, rfl⟩ | ⟨_, _, _, _, _, _, ⟨⟩, -⟩ |
    ⟨_, _, _, _, ⟨⟩, -⟩ := Locked.step_cases hstep
  obtain ⟨frees, hfrees, hsplit⟩ := h.exists_frees
  refine ⟨halone, h.blocksOk, ⟨frees, hfrees, hsplit.pass ?_ rfl⟩,
    Locked.forall_position halone (Function.update_self _ _ _) ?_⟩
  · rw [ht, owned_inside]
    cases op <;> simp [owned, poolCode, PoolPos.start, PoolPos.owned]
  · cases op <;> exact rfl

theorem inv_next (h : Inv C c) {t : τ} {newArray : Option ℕ} {c' : PoolLocked τ}
    (hstep : Locked.step (poolSpec C.toPoolArgs τ) (poolCode C.toPoolArgs) c (.next t newArray) =
      some c') : Inv C c' := by
  have halone := Locked.alone_step h.alone hstep
  obtain ⟨e, _, _, ⟨⟩, -⟩ | ⟨_, op, ⟨⟩, -⟩ | ⟨_, _, op, k, s, k', ⟨⟩, ht, hnext, rfl⟩ |
    ⟨_, _, _, _, ⟨⟩, -⟩ := Locked.step_cases hstep
  obtain ⟨frees, hfrees, hsplit⟩ := h.exists_frees
  have hsp := h.spaced hsplit t
  rw [ht, owned_inside] at hsp
  obtain ⟨frees', extra, hfrees', hok, hheld, hblocks, hchunks, hperm⟩ :=
    PoolPos.owned_of_next hnext (h.place t op k ht) hfrees hsp h.blocksOk
  refine ⟨halone, hblocks, ⟨frees', hfrees', hsplit.update ?_ hchunks⟩,
    Locked.forall_position halone (Function.update_self _ _ _) hok⟩
  -- what is held stays where it is, between the free chunks and the ones in hand
  rw [ht, owned_inside, owned_inside, hheld]
  calc (frees' ++ c.state.held ++ k'.owned C.toPoolArgs).Perm
        (c.state.held ++ (frees' ++ k'.owned C.toPoolArgs)) := by
        rw [← List.append_assoc]
        exact List.perm_append_comm.append_right _
    _ |>.Perm (c.state.held ++ (frees ++ k.owned C.toPoolArgs ++ extra)) := hperm.append_left _
    _ |>.Perm (frees ++ c.state.held ++ k.owned C.toPoolArgs ++ extra) := by
        rw [← List.append_assoc, ← List.append_assoc]
        exact (List.perm_append_comm.append_right _).append_right _

theorem inv_leave (h : Inv C c) {t : τ} {c' : PoolLocked τ}
    (hstep : Locked.step (poolSpec C.toPoolArgs τ) (poolCode C.toPoolArgs) c (.leave t) = some c') :
    Inv C c' := by
  have halone := Locked.alone_step h.alone hstep
  obtain ⟨e, _, _, ⟨⟩, -⟩ | ⟨_, op, ⟨⟩, -⟩ | ⟨_, _, _, _, _, _, ⟨⟩, -⟩ |
    ⟨_, op, k, r, ⟨⟩, ht, hr, rfl⟩ := Locked.step_cases hstep
  obtain ⟨frees, hfrees, hsplit⟩ := h.exists_frees
  have hk : k = .finished r := by
    cases k <;> simp_all [poolCode, PoolPos.result]
  refine ⟨halone, h.blocksOk, ⟨frees, hfrees, hsplit.pass ?_ rfl⟩,
    fun u op' k' hu ↦ absurd ⟨op', k', hu⟩ (Locked.not_inside_of_leave h.alone ht r u)⟩
  rw [ht, hk, owned_inside]
  simp [owned, PoolPos.owned]

/-- **Every step keeps the invariant.** -/
theorem inv_step {l : LockedLabel τ PoolCall (Option ℕ) PoolResult (ℕ × UInt8)} {c' : PoolLocked τ}
    (h : Inv C c)
    (hstep : Locked.step (poolSpec C.toPoolArgs τ) (poolCode C.toPoolArgs) c l = some c') :
    Inv C c' := by
  cases l with
  | event e => exact inv_event h hstep
  | enter t => exact inv_enter h hstep
  | next t newArray => exact inv_next h hstep
  | leave t => exact inv_leave h hstep

/-! ### Refinement -/

/-- The chunks a call still touches are free or in its hands. -/
theorem touched_subset {k : PoolPos} {s : MemPool} {op : PoolCall} (hfrees : s.FreeList T frees)
    (hok : k.Ok (T := T) s op) {p : ℕ} (hp : p ∈ k.touched C.toPoolArgs s) :
    p ∈ frees ∨ p ∈ k.owned C.toPoolArgs := by
  have hfirst : s.mFrees ≠ 0 → s.mFrees ∈ frees := by
    intro h0
    obtain ⟨r, rest, rfl, -⟩ := hfrees.exists_cons h0
    exact List.mem_cons_self
  cases k with
  | atTake =>
    obtain rfl := List.mem_singleton.1 hp
    exact .inl (hfirst hok)
  | atUnlink pchunk =>
    obtain rfl := List.mem_singleton.1 hp
    exact .inl (hfirst (hok.1 ▸ hok.2))
  | atHeader rawMem | atAllocs rawMem | atLink n rawMem | atHead n rawMem => exact .inr hp
  | atTest | atNew | giveLink q | giveHead q | finished r => exact absurd hp List.not_mem_nil

/-- What is left of a call, with the blocks and the held chunks around it. -/
def rest (A : PoolArgs T) (k : PoolPos) (s : PoolSys) : PoolResult × PoolSys :=
  ((k.rest A s.pool).1, { s with pool := (k.rest A s.pool).2 })

omit [DecidableEq τ] in
/-- **An event does not interfere** with what is left of a call. -/
theorem rest_apart (h : Inv C c) {t : τ} {op : PoolCall} {k : PoolPos}
    (ht : c.stage t = .busy (op, some k)) (hk : k.Committed)
    {e : Event τ PoolCall PoolResult (ℕ × UInt8)} {s : PoolSys}
    (hnote : PoolSys.note C.toPoolArgs e c.state = some s) :
    PoolSys.note C.toPoolArgs e (rest C.toPoolArgs k c.state).2 =
        some (rest C.toPoolArgs k s).2 ∧
      (rest C.toPoolArgs k s).1 = (rest C.toPoolArgs k c.state).1 := by
  match e with
  | .call _ .alloc =>
    obtain rfl := Option.some.inj hnote
    exact ⟨rfl, rfl⟩
  | .call _ (.dealloc p) =>
    obtain ⟨hp, ⟨⟩⟩ := Option.ite_none_right_eq_some.1 hnote
    exact ⟨if_pos hp, rfl⟩
  | .ret _ (.chunk p) =>
    obtain rfl := Option.some.inj hnote
    exact ⟨rfl, rfl⟩
  | .ret _ .threw | .ret _ .void =>
    obtain rfl := Option.some.inj hnote
    exact ⟨rfl, rfl⟩
  | .env (a, v) =>
    obtain ⟨ha, hs⟩ := Option.ite_none_right_eq_some.1 hnote
    obtain rfl : { c.state with pool := c.state.pool.writeByte a v } = s := Option.some.inj hs
    obtain ⟨frees, hfrees, hsplit⟩ := h.exists_frees
    have hword := C.ptrBytes_le_stride
    have hwrite := PoolPos.rest_writeByte (s := c.state.pool) (a := a) (v := v) hk fun p hp ↦ by
      have hmine := touched_subset hfrees (h.place t op k ht) hp
      rw [← owned_inside _ op, ← ht] at hmine
      have := h.outside_of_writable hsplit ha (hmine.imp_right fun hq ↦ ⟨t, hq⟩)
      omega
    have ha' : (rest C.toPoolArgs k c.state).2.Writable C.toPoolArgs a := ha
    have hafter : rest C.toPoolArgs k { c.state with pool := c.state.pool.writeByte a v } =
        ((rest C.toPoolArgs k c.state).1,
          { (rest C.toPoolArgs k c.state).2 with
            pool := (rest C.toPoolArgs k c.state).2.pool.writeByte a v }) := by
      rw [rest, hwrite]
      rfl
    rw [hafter]
    exact ⟨if_pos ha', rfl⟩

/-- **The step that commits** leaves the rest of the whole call. -/
theorem exists_apply_of_commit {k k' : PoolPos} {newArray : Option ℕ} {s s' : PoolSys}
    {op : PoolCall} (hok : k.Ok (T := T) s.pool op) (hk : ¬ k.Committed)
    (hnext : k.next C.toPoolArgs newArray s = some (s', k')) (hk' : k'.Committed) :
    PoolSys.apply C.toPoolArgs op newArray s = some (rest C.toPoolArgs k' s') := by
  cases k with
  | atTest =>
    obtain ⟨rfl, rfl⟩ := Prod.mk.inj (Option.some.inj hnext)
    obtain rfl : op = .alloc := hok
    have h0 : s.pool.mFrees ≠ 0 := by
      intro h0
      rw [if_pos h0] at hk'
      exact hk'
    have hnone : s.obtained C.toPoolArgs newArray = [] := if_neg h0
    rw [if_neg h0, PoolSys.apply, hnone, if_pos (by simp), alloc_of_frees _ h0]
    rfl
  | atNew =>
    obtain ⟨rfl, h0⟩ := hok
    cases newArray with
    | none =>
      obtain ⟨rfl, rfl⟩ := Prod.mk.inj (Option.some.inj hnext)
      have hnone : s.obtained C.toPoolArgs none = [] := if_pos h0
      rw [PoolSys.apply, hnone, if_pos (by simp), alloc_none_of_empty _ h0]
      rfl
    | some rawMem =>
      obtain ⟨hfresh, hsome⟩ := Option.ite_none_right_eq_some.1 hnext
      obtain ⟨rfl, rfl⟩ := Prod.mk.inj (Option.some.inj hsome)
      have hone : s.obtained C.toPoolArgs (some rawMem) = [⟨rawMem, C.refillCount.toNat⟩] :=
        if_pos h0
      rw [PoolSys.apply, hone, if_pos (by simpa using hfresh), alloc_of_empty _ h0]
      rfl
  | giveLink p =>
    obtain ⟨rfl, rfl⟩ := Prod.mk.inj (Option.some.inj hnext)
    obtain rfl : op = .dealloc p := hok
    rfl
  | atHeader _ | atAllocs _ | atLink _ _ | atHead _ _ | atTake | atUnlink _ | giveHead _
  | finished _ =>
    exact absurd trivial hk

omit [Fintype τ] [DecidableEq τ] in
/-- Before that step, a call has changed nothing. -/
theorem eq_of_look {A : PoolArgs T} {k k' : PoolPos} {newArray : Option ℕ} {s s' : PoolSys}
    (hk : ¬ k.Committed) (hnext : k.next A newArray s = some (s', k')) (hk' : ¬ k'.Committed) :
    s' = s := by
  cases k with
  | atTest =>
    obtain ⟨rfl, -⟩ := Prod.mk.inj (Option.some.inj hnext)
    rfl
  | atNew =>
    cases newArray with
    | none =>
      obtain ⟨-, rfl⟩ := Prod.mk.inj (Option.some.inj hnext)
      exact absurd trivial hk'
    | some rawMem =>
      obtain ⟨-, hsome⟩ := Option.ite_none_right_eq_some.1 hnext
      obtain ⟨-, rfl⟩ := Prod.mk.inj (Option.some.inj hsome)
      exact absurd trivial hk'
  | giveLink p =>
    obtain ⟨-, rfl⟩ := Prod.mk.inj (Option.some.inj hnext)
    exact absurd trivial hk'
  | atHeader _ | atAllocs _ | atLink _ _ | atHead _ _ | atTake | atUnlink _ | giveHead _
  | finished _ =>
    exact absurd trivial hk

variable (C) in
/-- **`alloc` and `dealloc` refine their specification** under a lock. -/
def poolRefinement (τ : Type*) [Fintype τ] [DecidableEq τ] :
    Refinement (poolSpec C.toPoolArgs τ) (poolCode C.toPoolArgs) where
  Inv := Inv C
  Committed := PoolPos.Committed
  rest k s := some (rest C.toPoolArgs k s)
  inv_step := inv_step
  not_committed_start op := by cases op <;> exact not_false
  look _ _ hk hnext hk' := eq_of_look hk hnext hk'
  commit h ht hk hnext hk' :=
    ⟨_, _, exists_apply_of_commit (h.place _ _ _ ht) hk hnext hk', rfl⟩
  go_on h ht hk hnext := by
    obtain ⟨hk', hrest, hblocks, hheld⟩ := PoolPos.rest_of_next hk hnext
    refine ⟨hk', ?_⟩
    simp only [rest, hrest, hblocks, hheld]
  finish {c t op k r} h ht hr := by
    have hk : k = .finished r := by
      cases k <;> simp_all [poolCode, PoolPos.result]
    rw [hk]
    exact ⟨trivial, rfl⟩
  apart h ht hk hstep hrest := by
    obtain ⟨stage, -, hmap⟩ := Option.bind_eq_some_iff.1 hstep
    obtain ⟨s, hs, rfl⟩ := Option.map_eq_some_iff.1 hmap
    obtain ⟨hnote, hres⟩ := rest_apart h ht hk hs
    obtain ⟨rfl, rfl⟩ := Prod.mk.inj (Option.some.inj hrest)
    exact ⟨_, hnote, congrArg some (Prod.ext hres rfl)⟩

omit [DecidableEq τ] in
theorem inv_start {s : PoolSys} (h : s.Initial C.toPoolArgs) : Inv C (.start s : PoolLocked τ) := by
  obtain ⟨frees, hfrees, hperm⟩ := (inv_initial h).exists_frees
  refine ⟨Locked.alone_start s, (inv_initial h).blocksOk, ⟨frees, hfrees, ?_⟩,
    fun _ _ _ ht ↦ by cases ht⟩
  have hsum : ∑ t : τ, hands C.toPoolArgs (.start s) t = 0 :=
    Finset.sum_eq_zero fun _ _ ↦ rfl
  rw [Split, Divided, hsum, add_zero]
  exact Multiset.coe_eq_coe.2 hperm

end PoolLocked

/-! ### The pool and its spin lock -/

open PoolLocked

variable [DecidableEq τ] {C : PoolConfig T}

/-- A `mem_pool` with its `spin_lock`, and the threads that use it. -/
abbrev PoolGuarded (τ : Type*) := SpinGuarded τ PoolSys PoolCall PoolResult PoolPos

abbrev PoolGuarded.step (A : PoolArgs T) (v : AtomicVariant) (g : PoolGuarded τ) :
    GuardLabel τ PoolCall (Option ℕ) PoolResult (ℕ × UInt8) → Option (PoolGuarded τ) :=
  SpinGuarded.step v (poolSpec A τ) (poolCode A) g

/-- **`alloc` and `dealloc` are atomic.** What any number of threads see of a `mem_pool` with a
`spin_lock` — results and the bytes they write, in the order in which it happens — they would also
see if each call were carried out as a whole at one moment between its beginning and its end. -/
theorem pool_calls_are_atomic (hτ : Fintype.card τ < 2 ^ 31) (v : AtomicVariant) {s : PoolSys}
    (hs : s.Initial C.toPoolArgs) {g : PoolGuarded τ}
    {ls : List (GuardLabel τ PoolCall (Option ℕ) PoolResult (ℕ × UInt8))}
    (hrun : run (PoolGuarded.step C.toPoolArgs v) (.start s) ls = some g) :
    ∃ ls' a, run (Atomic.step (poolSpec C.toPoolArgs τ)) (.start s) ls' = some a ∧
      ls'.filterMap AtomicLabel.visible = ls.filterMap GuardLabel.visible ∧
      ((∀ t, ¬ (g.locked.stage t).Inside) → a.state = g.state) := by
  obtain ⟨ls', a, hrun', hrelated, hvis⟩ :=
    SpinGuarded.exists_atomic_run hτ (poolRefinement C τ) (PoolLocked.inv_start hs) hrun
  exact ⟨ls', a, hrun', hvis, hrelated.state⟩

variable (C) in
/-- What a pool owes the threads that share it. -/
structure SharedChunkSafety (g : PoolGuarded τ) : Prop where
  /-- Held chunks are separate ranges of at least `ChunkBytes` bytes inside blocks. -/
  held_apart : g.state.held.Pairwise fun c d ↦ Apart c C.stride d C.stride
  chunkBytes_le : C.chunkBytes.toNat ≤ C.stride
  held_inside : ∀ c ∈ g.state.held, ∃ B ∈ g.state.blocks,
    B.base ≤ c ∧ c + C.stride ≤ B.base + B.bytes C.toPoolArgs
  /-- A chunk that `alloc` is about to return is a chunk of the pool that nobody holds and that no
  other call is about to return. -/
  result_new : ∀ t p, g.locked.stage t = .done (.chunk p) →
    p ∈ g.state.chunks C.toPoolArgs ∧ p ∉ g.state.held ∧
      ∀ u, g.locked.stage u = .done (.chunk p) → u = t
  /-- Between calls, the free list is a finite chain of the chunks nobody holds. -/
  free_list : (∀ t, g.stage t = .idle) → ∃ frees, g.state.pool.FreeList T frees ∧ frees.Nodup ∧
    ∀ c, c ∈ frees ↔ c ∈ g.state.chunks C.toPoolArgs ∧ c ∉ g.state.held

/-- **No chunk is handed out twice**, in any state that threads sharing a pool can reach. -/
theorem shared_chunk_has_one_holder (hτ : Fintype.card τ < 2 ^ 31) (v : AtomicVariant)
    {s : PoolSys} (hs : s.Initial C.toPoolArgs)
    (ls : List (GuardLabel τ PoolCall (Option ℕ) PoolResult (ℕ × UInt8))) :
    EveryState (PoolGuarded.step C.toPoolArgs v) (SharedChunkSafety C) (.start s) ls := by
  refine (SpinGuarded.everyState_locked hτ (fun c l c' ↦ PoolLocked.inv_step)
    (PoolLocked.inv_start hs) ls).mono fun g h ↦ ?_
  obtain ⟨frees, hfrees, hsplit⟩ := h.exists_frees
  have hnodup := nodup_chunks h.blocksOk
  have hheld : ∀ c ∈ g.state.held, c ∈ g.state.chunks C.toPoolArgs :=
    fun c hc ↦ Multiset.mem_coe.1 (hsplit.mem_iff.2 (.inl (Multiset.mem_add.2 (.inr hc))))
  have hown : ∀ t p, g.locked.stage t = .done (.chunk p) →
      p ∈ hands C.toPoolArgs g.locked t := by
    intro t p ht
    rw [hands, ht]
    exact Multiset.mem_singleton_self p
  refine ⟨?_, C.chunkBytes_le_stride, fun c hc ↦ ?_, fun t p ht ↦ ⟨?_, ?_, fun u hu ↦ ?_⟩,
    fun hidle ↦ ?_⟩
  · have hle : (g.state.held : Multiset ℕ) ≤ ↑(g.state.chunks C.toPoolArgs) := by
      rw [← show _ = (g.state.chunks C.toPoolArgs : Multiset ℕ) from hsplit, add_assoc]
      exact (Multiset.le_add_right _ _).trans (Multiset.le_add_left _ _)
    exact (spaced_of_le h.blocksOk hle).apart
  · obtain ⟨B, hB, hcB⟩ := List.mem_flatMap.1 (hheld c hc)
    exact ⟨B, hB, Block.chunk_inside hcB⟩
  · exact Multiset.mem_coe.1 (hsplit.mem_iff.2 (.inr ⟨t, hown t p ht⟩))
  · exact fun hp ↦ hsplit.not_mem_common hnodup (hown t p ht) (Multiset.mem_add.2 (.inr hp))
  · exact hsplit.unique hnodup (hown u p hu) (hown t p ht)
  · -- nothing is in anybody's hands
    have hsum : ∑ t, hands C.toPoolArgs g.locked t = 0 :=
      Finset.sum_eq_zero fun t _ ↦ by
        have ht : g.locked.stage t = .idle := congrArg SpinGuarded.lockedStage (hidle t)
        rw [hands, ht]
        rfl
    have hinv : PoolSys.Inv C g.state := by
      refine ⟨h.blocksOk, frees, hfrees, Multiset.coe_eq_coe.1 ?_⟩
      rw [Split, Divided, hsum, add_zero] at hsplit
      exact hsplit
    obtain ⟨frees, hfrees, hperm⟩ := hinv.exists_frees
    exact ⟨frees, hfrees, hfrees.nodup, fun c ↦ hinv.mem_frees_iff hperm⟩

/-- Two threads allocate from the small pool; the second one has to grow it. -/
def twoAllocs : List (GuardLabel Bool PoolCall (Option ℕ) PoolResult (ℕ × UInt8)) :=
  [.event (.call false .alloc), .event (.call true .alloc), .spin true, .spin true, .spin false,
    .next true none, .next true none, .next true none, .leave true, .spin true, .spin true,
    .event (.ret true (.chunk 4096)), .event (.env (4096, 255)), .spin false, .next false none,
    .next false (some 8192), .next false none, .event (.env (4097, 255))]

theorem pool_calls_are_atomic_two : ∃ g, run (PoolGuarded.step tinyPool.toPoolArgs .gnu)
    (.start tinyStart) twoAllocs = some g ∧ ∃ ls' a,
      run (Atomic.step (poolSpec tinyPool.toPoolArgs Bool)) (.start tinyStart) ls' = some a ∧
      ls'.filterMap AtomicLabel.visible = twoAllocs.filterMap GuardLabel.visible ∧
      ((∀ t, ¬ (g.locked.stage t).Inside) → a.state = g.state) :=
  ⟨_, rfl, pool_calls_are_atomic (by decide) .gnu tinyStart_initial rfl⟩

theorem shared_chunk_has_one_holder_two :
    EveryState (PoolGuarded.step tinyPool.toPoolArgs .gnu) (SharedChunkSafety tinyPool)
      (.start tinyStart) twoAllocs :=
  shared_chunk_has_one_holder (by decide) .gnu tinyStart_initial twoAllocs

end Threads

end Libk2
