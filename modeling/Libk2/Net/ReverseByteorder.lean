import Libk2.Foundation.WhileLoop
import Libk2.Net.ByteOrder
import Libk2.Platform

/-!
# `reverse_byteorder`

Two pointers that run towards each other from the ends of the range, and swap what they point to.
After `i` rounds the `i` bytes at either end are where they belong and the ones between are as they
were (`Swept`). The pointers stop when they meet, over a middle byte that belongs where it is, or
when they have passed each other.

The tail of an empty range is before its head, unless the range is at address 0: there it wraps
around to the end of memory, and the loop reverses all of that (`reverseByteorder_null`). With
`K2_DEBUG` the call has returned by then. So the range is reversed, and nothing else, except for the
empty range at the null pointer in the other builds (`exists_reverses_iff`).
-/

namespace Libk2

open ByteMemory

variable {T : Target}

/-- The variables of the loop. -/
structure Sweep (T : Target) where
  mem : ByteMemory
  head : BitVec T.bits
  tail : BitVec T.bits

/-- `std::swap`. -/
def swapBytes (m : ByteMemory) (a b : ℕ) : ByteMemory :=
  Function.update (Function.update m a (m b)) b (m a)

namespace Sweep

/-- `head < tail`. -/
def test (s : Sweep T) : Bool := s.head < s.tail

/-- One round. -/
def body (s : Sweep T) : Sweep T :=
  ⟨swapBytes s.mem s.head.toNat s.tail.toNat, s.head + 1, s.tail - 1⟩

end Sweep

/-- `reverse_byteorder`, of the `n` bytes at `p`, in at most `fuel` rounds. With `K2_DEBUG` it looks
at `n` first. -/
def reverseByteorder (debug : Bool) (fuel : ℕ) (m : ByteMemory) (p : BitVec T.bits) (n : SizeT T) :
    Option ByteMemory :=
  if debug && n < 2 then some m
  else (WhileLoop.run Sweep.test Sweep.body fuel ⟨m, p, p + n - 1⟩).map Sweep.mem

/-! ### The loop -/

/-- After `i` rounds, where the pointers began at the ends of the `n` bytes at `p`. -/
structure Swept (m : ByteMemory) (p n i : ℕ) (s : Sweep T) : Prop where
  le : 2 * i ≤ n
  head : s.head.toNat = p + i
  tail : s.tail.toNat + 1 + i = p + n
  inner : ∀ b, p + i ≤ b → b + i < p + n → s.mem b = m b
  outer : ∀ b, b < p + i ∨ p + n ≤ b + i → s.mem b = m.reverseBytes p n b

theorem swept_zero (m : ByteMemory) {n : ℕ} {p tail : BitVec T.bits}
    (htail : tail.toNat + 1 = p.toNat + n) : Swept m p.toNat n 0 ⟨m, p, tail⟩ where
  le := Nat.zero_le n
  head := rfl
  tail := htail
  inner b _ _ := rfl
  outer b hb := (reverseBytes_of_outside (by omega)).symm

theorem swapBytes_of_ne {m : ByteMemory} {a b c : ℕ} (ha : c ≠ a) (hb : c ≠ b) :
    swapBytes m a b c = m c := by
  rw [swapBytes, Function.update_of_ne hb, Function.update_of_ne ha]

theorem swapBytes_right (m : ByteMemory) (a b : ℕ) : swapBytes m a b b = m a :=
  Function.update_self ..

theorem swapBytes_left {m : ByteMemory} {a b : ℕ} (h : a ≠ b) : swapBytes m a b a = m b := by
  rw [swapBytes, Function.update_of_ne h, Function.update_self]

/-- Below another pointer there is room for one more. -/
theorem toNat_add_one_of_lt {a b : BitVec T.bits} (h : a.toNat < b.toNat) :
    (a + 1).toNat = a.toNat + 1 := by
  have hb := b.isLt
  rw [BitVec.toNat_add, SizeT.toNat_one, Nat.mod_eq_of_lt (by omega)]

/-- Above another pointer there is room for one less. -/
theorem toNat_sub_one_of_lt {a b : BitVec T.bits} (h : a.toNat < b.toNat) :
    (b - 1).toNat + 1 = b.toNat := by
  have hone : (1 : BitVec T.bits).toNat = 1 := SizeT.toNat_one
  rw [BitVec.toNat_sub_of_le (BitVec.le_def.2 (by omega)), hone]
  omega

/-- The step. -/
theorem Swept.body {m : ByteMemory} {p n i : ℕ} {s : Sweep T} (h : Swept m p n i s)
    (htest : s.test = true) : Swept m p n (i + 1) s.body := by
  have hlt : s.head.toNat < s.tail.toNat := BitVec.lt_def.1 (of_decide_eq_true htest)
  have hhead := h.head
  have htail := h.tail
  have hroom : 2 * (i + 1) ≤ n := by omega
  refine ⟨hroom, ?_, ?_, fun b hb hb' ↦ ?_, fun b hb ↦ ?_⟩
  · show (s.head + 1).toNat = _
    rw [toNat_add_one_of_lt hlt, hhead, Nat.add_assoc]
  · show (s.tail - 1).toNat + 1 + (i + 1) = _
    rw [toNat_sub_one_of_lt hlt]
    omega
  · show swapBytes s.mem s.head.toNat s.tail.toNat b = m b
    rw [swapBytes_of_ne (by omega) (by omega)]
    exact h.inner b (by omega) (by omega)
  · show swapBytes s.mem s.head.toNat s.tail.toNat b = _
    -- the two bytes of this round, and those of the rounds before
    by_cases hleft : b = s.head.toNat
    · rw [hleft, swapBytes_left (by omega), h.inner _ (by omega) (by omega),
        reverseBytes_of_inside (by omega)]
      congr 1
      omega
    by_cases hright : b = s.tail.toNat
    · rw [hright, swapBytes_right, h.inner _ (by omega) (by omega),
        reverseBytes_of_inside (by omega)]
      congr 1
      omega
    · rw [swapBytes_of_ne hleft hright]
      exact h.outer b (by omega)

/-- The pointers have met. -/
theorem Swept.mem_eq {m : ByteMemory} {p n i : ℕ} {s : Sweep T} (h : Swept m p n i s)
    (htest : s.test = false) : s.mem = m.reverseBytes p n := by
  have hge : ¬ s.head.toNat < s.tail.toNat :=
    fun hlt ↦ of_decide_eq_false htest (BitVec.lt_def.2 hlt)
  have hhead := h.head
  have htail := h.tail
  have hle := h.le
  funext b
  -- at most one byte is left between the pointers, and it is opposite to itself
  by_cases hin : p + i ≤ b ∧ b + i < p + n
  · rw [h.inner b hin.1 hin.2, reverseBytes_of_inside (by omega)]
    congr 1
    omega
  · exact h.outer b (by omega)

/-- From the ends of a range the loop ends within `n` rounds, with the range reversed. -/
theorem exists_run_sweep (m : ByteMemory) {n : ℕ} {p tail : BitVec T.bits}
    (htail : tail.toNat + 1 = p.toNat + n) :
    ∃ s, (∀ fuel, n ≤ fuel → WhileLoop.run Sweep.test Sweep.body fuel ⟨m, p, tail⟩ = some s) ∧
      s.mem = m.reverseBytes p.toNat n := by
  have hbody : ∀ s : Sweep T, (∃ i, Swept m p.toNat n i s) → s.test = true →
      (∃ i, Swept m p.toNat n i s.body) ∧
        s.body.tail.toNat - s.body.head.toNat < s.tail.toNat - s.head.toNat := by
    rintro s ⟨i, hs⟩ htest
    have hlt : s.head.toNat < s.tail.toNat := BitVec.lt_def.1 (of_decide_eq_true htest)
    have hnext := hs.body htest
    refine ⟨⟨i + 1, hnext⟩, ?_⟩
    have hhead := hs.head
    have htail := hs.tail
    have hhead' := hnext.head
    have htail' := hnext.tail
    omega
  obtain ⟨s, hrun, ⟨i, hs⟩, htest⟩ :=
    WhileLoop.exists_run_eq_some (P := fun s ↦ ∃ i, Swept m p.toNat n i s)
      (fun s ↦ s.tail.toNat - s.head.toNat) ⟨0, swept_zero m htail⟩ hbody
  refine ⟨s, fun fuel hfuel ↦ hrun fuel ?_, hs.mem_eq htest⟩
  show tail.toNat - p.toNat ≤ fuel
  omega

/-! ### The call -/

/-- Bytes in a row: where they begin and how many they are. They lie in memory. -/
structure ByteRange (T : Target) where
  p : BitVec T.bits
  n : SizeT T
  fits : p.toNat + n.toNat ≤ 2 ^ T.bits

/-- The range with no bytes at the null pointer. -/
def ByteRange.null (T : Target) : ByteRange T := ⟨0, 0, by simp⟩

theorem ByteRange.eq_null (r : ByteRange T) (hp : r.p.toNat = 0) (hn : r.n.toNat = 0) :
    r = .null T := by
  obtain ⟨p, n, hfits⟩ := r
  obtain rfl : p = 0 := BitVec.eq_of_toNat_eq hp
  obtain rfl : n = 0 := BitVec.eq_of_toNat_eq hn
  rfl

/-- `tail` points to the last byte of the range, or to the byte before the range if that is
empty. -/
theorem ByteRange.toNat_tail (r : ByteRange T) (h : 0 < r.p.toNat + r.n.toNat) :
    (r.p + r.n - 1).toNat + 1 = r.p.toNat + r.n.toNat := by
  have hfits := r.fits
  have hsum : 2 ^ T.bits - 1 + (r.p.toNat + r.n.toNat) =
      r.p.toNat + r.n.toNat - 1 + 2 ^ T.bits := by
    have := Nat.two_pow_pos T.bits
    omega
  rw [BitVec.toNat_sub, BitVec.toNat_add, SizeT.toNat_one, Nat.add_mod_mod, hsum, Nat.add_mod_right,
    Nat.mod_eq_of_lt (by omega)]
  omega

/-- There is no byte before the null pointer. -/
theorem toNat_tail_null : (0 + 0 - 1 : BitVec T.bits).toNat + 1 = 2 ^ T.bits := by
  have hpos := Nat.two_pow_pos T.bits
  have hzero : (0 + 0 : BitVec T.bits).toNat = 0 := by simp
  rw [BitVec.toNat_sub, SizeT.toNat_one, hzero, Nat.add_zero, Nat.mod_eq_of_lt (by omega)]
  omega

/-- **What a call does**, unless the range is empty and at the null pointer. -/
theorem reverseByteorder_eq {debug : Bool} (r : ByteRange T)
    (h : debug = true ∨ 0 < r.p.toNat + r.n.toNat) {fuel : ℕ} (hfuel : r.n.toNat ≤ fuel)
    (m : ByteMemory) :
    reverseByteorder debug fuel m r.p r.n = some (m.reverseBytes r.p.toNat r.n.toNat) := by
  have hshort_iff : r.n < 2 ↔ r.n.toNat < 2 := by rw [BitVec.lt_def, SizeT.toNat_two]
  rw [reverseByteorder]
  split
  · next hguard =>
    have hshort : r.n < 2 := of_decide_eq_true (Bool.and_eq_true_iff.1 hguard).2
    rw [reverseBytes_of_short (hshort_iff.1 hshort)]
  · next hguard =>
    have hsum : 0 < r.p.toNat + r.n.toNat := by
      rcases h with hdebug | hsum
      · have hlong : ¬ r.n < 2 := fun hlt ↦ hguard (by rw [hdebug, decide_eq_true hlt]; rfl)
        rw [hshort_iff] at hlong
        omega
      · exact hsum
    obtain ⟨s, hrun, hmem⟩ := exists_run_sweep m (r.toNat_tail hsum)
    rw [hrun fuel hfuel, Option.map_some, hmem]

/-- **The empty range at the null pointer.** All of memory is reversed. -/
theorem reverseByteorder_null {fuel : ℕ} (hfuel : 2 ^ T.bits ≤ fuel) (m : ByteMemory) :
    reverseByteorder (T := T) false fuel m 0 0 = some (m.reverseBytes 0 (2 ^ T.bits)) := by
  have hnull : (0 : BitVec T.bits).toNat = 0 := BitVec.toNat_zero
  obtain ⟨s, hrun, hmem⟩ := exists_run_sweep (n := 2 ^ T.bits) m
    (toNat_tail_null.trans (by rw [hnull, Nat.zero_add]))
  rw [hnull] at hmem
  rw [reverseByteorder, Bool.false_and, if_neg Bool.false_ne_true, hrun fuel hfuel,
    Option.map_some, hmem]

/-! ### Against `net_conv` -/

/-- `net_conv` gives the bytes of the object in reverse. -/
theorem objectBytes_netConv (size : IntSize) {bs : List UInt8} (h : bs.length = size.bytes) :
    objectBytes size.bytes (netConv size (objectValue bs)) = bs.reverse := by
  refine List.ext_getElem (by simp [h]) fun i hi _ ↦ ?_
  rw [length_objectBytes] at hi
  rw [List.getElem_reverse, ← UInt8.toNat_inj]
  simp only [objectBytes, List.getElem_map, List.getElem_range]
  rw [byteAt_netConv hi, byteAt_objectValue, List.getD_eq_getElem _ _ (by simp; omega),
    List.getElem_map, UInt8.toNat_ofNat', Nat.mod_eq_of_lt (UInt8.toNat_lt _)]
  congr 2
  omega

/-- A call on a range ends in `m'`, however much more fuel it gets, with the bytes of the range
reversed and no other changed; a second call ends where the first one began; and an integer in the
range comes out as from `net_conv`. -/
structure Reverses (debug : Bool) (m : ByteMemory) (r : ByteRange T) (m' : ByteMemory) : Prop where
  ends : ∃ k, ∀ fuel, k ≤ fuel → reverseByteorder debug fuel m r.p r.n = some m'
  range : m'.loadBytes r.p.toNat r.n.toNat = (m.loadBytes r.p.toNat r.n.toNat).reverse
  frame : ∀ b, b < r.p.toNat ∨ r.p.toNat + r.n.toNat ≤ b → m' b = m b
  twice : ∃ k, ∀ fuel, k ≤ fuel → reverseByteorder debug fuel m' r.p r.n = some m
  netConv : ∀ size : IntSize, r.n.toNat = size.bytes →
    m'.loadBytes r.p.toNat size.bytes =
      objectBytes size.bytes (netConv size (objectValue (m.loadBytes r.p.toNat size.bytes)))

/-- Memory reads the same from either end. -/
def MemoryPalindrome (T : Target) (m : ByteMemory) : Prop :=
  ∀ b < 2 ^ T.bits, m b = m (2 ^ T.bits - 1 - b)

/-- Where the pointers begin at the ends of the range. -/
theorem reverses_of_pos {debug : Bool} (m : ByteMemory) {r : ByteRange T}
    (h : debug = true ∨ 0 < r.p.toNat + r.n.toNat) :
    Reverses debug m r (m.reverseBytes r.p.toNat r.n.toNat) where
  ends := ⟨r.n.toNat, fun _ hfuel ↦ reverseByteorder_eq r h hfuel m⟩
  range := loadBytes_reverseBytes m r.p.toNat r.n.toNat
  frame _ := reverseBytes_of_outside
  twice := ⟨r.n.toNat, fun fuel hfuel ↦ by
    rw [reverseByteorder_eq r h hfuel, reverseBytes_reverseBytes]⟩
  netConv size hsize := by
    rw [hsize, loadBytes_reverseBytes, objectBytes_netConv size (length_loadBytes _ _ _)]

theorem MemoryPalindrome.reverseBytes_eq {m : ByteMemory} (h : MemoryPalindrome T m) :
    m.reverseBytes 0 (2 ^ T.bits) = m := by
  funext b
  by_cases hb : b < 2 ^ T.bits
  · rw [reverseBytes_of_inside (by omega), Nat.mul_zero, Nat.zero_add, h b hb]
  · exact reverseBytes_of_outside (by omega)

/-- Of no bytes none may change, and all of memory has been reversed. -/
theorem Reverses.memoryPalindrome {m m' : ByteMemory} (h : Reverses false m (.null T) m') :
    MemoryPalindrome T m := by
  obtain ⟨k, hends⟩ := h.ends
  have hnull := reverseByteorder_null (Nat.le_max_right k (2 ^ T.bits)) m
  have hm' : m' = m.reverseBytes 0 (2 ^ T.bits) :=
    Option.some.inj ((hends _ (Nat.le_max_left k (2 ^ T.bits))).symm.trans hnull)
  intro b hb
  have hframe : m' b = m b := h.frame b (.inr (Nat.zero_le b))
  rw [← hframe, hm', reverseBytes_of_inside (by omega), Nat.mul_zero, Nat.zero_add]

/-- Where the swaps change nothing. -/
theorem MemoryPalindrome.reverses {m : ByteMemory} (h : MemoryPalindrome T m) :
    Reverses false m (.null T) m := by
  have hends : ∀ fuel, 2 ^ T.bits ≤ fuel →
      reverseByteorder false fuel m (ByteRange.null T).p (ByteRange.null T).n = some m := by
    intro fuel hfuel
    rw [ByteRange.null, reverseByteorder_null hfuel, h.reverseBytes_eq]
  refine ⟨⟨_, hends⟩, rfl, fun _ _ ↦ rfl, ⟨_, hends⟩, fun size hsize ↦ ?_⟩
  cases size <;> cases hsize

/-- **`reverse_byteorder` reverses its range** exactly if that is not the empty one at the null
pointer, or `K2_DEBUG` is defined, or reversing all of memory does not change it. -/
theorem exists_reverses_iff (debug : Bool) (m : ByteMemory) (r : ByteRange T) :
    (∃ m', Reverses debug m r m') ↔
      debug = true ∨ 0 < r.n.toNat ∨ r.p ≠ 0 ∨ MemoryPalindrome T m := by
  have hp : r.p ≠ 0 ↔ 0 < r.p.toNat := by
    rw [Nat.pos_iff_ne_zero, ne_eq, ne_eq, ← BitVec.toNat_inj]
    rfl
  by_cases hplain : debug = true ∨ 0 < r.p.toNat + r.n.toNat
  · refine iff_of_true ⟨_, reverses_of_pos m hplain⟩ (hplain.imp_right fun hsum ↦ ?_)
    rw [hp]
    omega
  · obtain ⟨hdebug, hsum⟩ := not_or.1 hplain
    obtain rfl := Bool.eq_false_of_not_eq_true hdebug
    obtain rfl : r = .null T := r.eq_null (by omega) (by omega)
    refine ⟨fun ⟨_, h⟩ ↦ .inr (.inr (.inr h.memoryPalindrome)), fun h ↦ ⟨m, ?_⟩⟩
    have hmem : MemoryPalindrome T m := by simpa [ByteRange.null] using h
    exact hmem.reverses

/-- **Memory is reversed** by a call on no bytes at all. -/
theorem null_range_reverses_memory : ¬ ∀ (T : Target) (debug : Bool) (m : ByteMemory)
    (r : ByteRange T), ∃ m', Reverses debug m r m' := by
  intro hall
  obtain ⟨m', h⟩ := hall .lp64 false (fun b ↦ if b = 0 then 1 else 0) (.null _)
  exact absurd (h.memoryPalindrome 0 (Nat.two_pow_pos _)) (by decide)

end Libk2
