import Libk2.Foundation.ByteMemory
import Mathlib.Data.List.GetD

/-!
# Network byte order

`net_encode` and `net_decode` on a little-endian host, for unsigned integers of 2 and of 4 bytes. An
integer object is its bytes, least significant first, so that copying an object is storing or
loading a word.

`net_encode` converts to network byte order before it copies; `net_decode` only copies. What is
decoded is therefore what was encoded with its bytes reversed, and the round trip succeeds exactly
for palindromes (`roundTrips_iff`).
-/

namespace Libk2

open ByteMemory

/-- `sizeof(Int)`. -/
inductive IntSize where
  | two
  | four
deriving DecidableEq

/-- In bytes. -/
def IntSize.bytes : IntSize → ℕ
  | .two => 2
  | .four => 4

/-- An unsigned integer of 2 or of 4 bytes. -/
structure NetInt where
  size : IntSize
  val : ℕ
  lt : val < 256 ^ size.bytes

/-- Byte `i` of the object representation of `v`. -/
def byteAt (v i : ℕ) : ℕ := v / 256 ^ i % 256

/-- The value of an object from its bytes. -/
def ofBytes : List ℕ → ℕ
  | [] => 0
  | b :: bs => b + 256 * ofBytes bs

/-- `net_conv`, on a little-endian host. -/
def netConv : IntSize → ℕ → ℕ
  | .two, v => ofBytes [byteAt v 1, byteAt v 0]
  | .four, v => ofBytes [byteAt v 3, byteAt v 2, byteAt v 1, byteAt v 0]

/-- `net_encode`, to position `p` of a byte buffer. -/
def netEncode (m : ByteMemory) (v : NetInt) (p : ℕ) : ByteMemory × ℕ :=
  (m.storeWord v.size.bytes p (netConv v.size v.val), p + v.size.bytes)

/-- `net_decode`, from position `p` of a byte buffer. -/
def netDecode (m : ByteMemory) (size : IntSize) (p : ℕ) : ℕ × ℕ :=
  (m.loadWord size.bytes p, p + size.bytes)

/-- Encode one after another, each from where the one before has ended; with the positions that the
calls return. -/
def encodeAll : ByteMemory → ℕ → List NetInt → ByteMemory × List ℕ
  | m, _, [] => (m, [])
  | m, p, v :: vs =>
    let call := netEncode m v p
    let rest := encodeAll call.1 call.2 vs
    (rest.1, call.2 :: rest.2)

/-- Decode one after another; with the positions that the calls return. -/
def decodeAll (m : ByteMemory) : ℕ → List IntSize → List ℕ × List ℕ
  | _, [] => ([], [])
  | p, size :: sizes =>
    let call := netDecode m size p
    let rest := decodeAll m call.2 sizes
    (call.1 :: rest.1, call.2 :: rest.2)

/-! ### Bytes of a value -/

theorem byteAt_lt (v i : ℕ) : byteAt v i < 256 := Nat.mod_lt _ (by norm_num)

theorem byteAt_zero (v : ℕ) : byteAt v 0 = v % 256 := by
  rw [byteAt, Nat.pow_zero, Nat.div_one]

theorem byteAt_succ (v i : ℕ) : byteAt v (i + 1) = byteAt (v / 256) i := by
  rw [byteAt, byteAt, Nat.pow_succ', Nat.div_div_eq_div_mul]

theorem byteAt_ofBytes {bs : List ℕ} (h : ∀ b ∈ bs, b < 256) (i : ℕ) :
    byteAt (ofBytes bs) i = bs.getD i 0 := by
  induction bs generalizing i with
  | nil => rw [ofBytes, byteAt, Nat.zero_div, Nat.zero_mod, List.getD_nil]
  | cons b bs ih =>
    have hb := h b List.mem_cons_self
    cases i with
    | zero =>
      rw [byteAt_zero, ofBytes, List.getD_cons_zero]
      omega
    | succ i =>
      have hdiv : (b + 256 * ofBytes bs) / 256 = ofBytes bs := by omega
      rw [byteAt_succ, ofBytes, hdiv, List.getD_cons_succ]
      exact ih (fun b' hb' ↦ h b' (List.mem_cons_of_mem b hb')) i

theorem ofBytes_lt {bs : List ℕ} (h : ∀ b ∈ bs, b < 256) : ofBytes bs < 256 ^ bs.length := by
  induction bs with
  | nil => exact Nat.one_pos
  | cons b bs ih =>
    have hb := h b List.mem_cons_self
    have hbs := ih fun b' hb' ↦ h b' (List.mem_cons_of_mem b hb')
    rw [ofBytes, List.length_cons, Nat.pow_succ']
    omega

/-- A value is determined by its bytes. -/
theorem eq_of_byteAt {n v w : ℕ} (hv : v < 256 ^ n) (hw : w < 256 ^ n)
    (h : ∀ i < n, byteAt v i = byteAt w i) : v = w := by
  induction n generalizing v w with
  | zero => omega
  | succ n ih =>
    rw [Nat.pow_succ'] at hv hw
    have hlow := h 0 (Nat.succ_pos n)
    rw [byteAt_zero, byteAt_zero] at hlow
    have hhigh : v / 256 = w / 256 := by
      refine ih (by omega) (by omega) fun i hi ↦ ?_
      have hi' := h (i + 1) (Nat.succ_lt_succ hi)
      rwa [byteAt_succ, byteAt_succ] at hi'
    omega

/-- The object representation of `v`, in an object of `n` bytes. -/
def objectBytes (n v : ℕ) : List UInt8 := (List.range n).map fun i ↦ UInt8.ofNat (byteAt v i)

/-- The value of an object with these bytes. -/
def objectValue (bs : List UInt8) : ℕ := ofBytes (bs.map UInt8.toNat)

@[simp] theorem length_objectBytes (n v : ℕ) : (objectBytes n v).length = n := by
  rw [objectBytes, List.length_map, List.length_range]

theorem byteAt_objectValue (bs : List UInt8) (i : ℕ) :
    byteAt (objectValue bs) i = (bs.map UInt8.toNat).getD i 0 := by
  refine byteAt_ofBytes (fun b hb ↦ ?_) i
  obtain ⟨b, -, rfl⟩ := List.mem_map.1 hb
  exact b.toNat_lt

theorem objectValue_lt (bs : List UInt8) : objectValue bs < 256 ^ bs.length := by
  rw [← List.length_map UInt8.toNat]
  refine ofBytes_lt fun b hb ↦ ?_
  obtain ⟨b, -, rfl⟩ := List.mem_map.1 hb
  exact b.toNat_lt

/-- Copying an object to bytes and back. -/
theorem objectValue_objectBytes {n v : ℕ} (h : v < 256 ^ n) :
    objectValue (objectBytes n v) = v := by
  have hlt := objectValue_lt (objectBytes n v)
  rw [length_objectBytes] at hlt
  refine eq_of_byteAt hlt h fun i hi ↦ ?_
  rw [byteAt_objectValue, objectBytes, List.map_map, List.getD_eq_getElem _ _ (by simpa using hi),
    List.getElem_map, List.getElem_range, Function.comp_apply, UInt8.toNat_ofNat']
  exact Nat.mod_eq_of_lt (byteAt_lt v i)

/-- Copying bytes to an object and back. -/
theorem objectBytes_objectValue (bs : List UInt8) :
    objectBytes bs.length (objectValue bs) = bs := by
  refine List.ext_getElem (length_objectBytes _ _) fun i _ hi ↦ ?_
  rw [← UInt8.toNat_inj]
  simp only [objectBytes, List.getElem_map, List.getElem_range, byteAt_objectValue]
  rw [List.getD_eq_getElem _ _ (by simpa using hi), List.getElem_map]
  exact congrArg UInt8.toNat UInt8.ofNat_toNat

/-! ### Reversing the bytes -/

/-- **`net_conv` reverses the bytes.** -/
theorem byteAt_netConv {size : IntSize} {v i : ℕ} (hi : i < size.bytes) :
    byteAt (netConv size v) i = byteAt v (size.bytes - 1 - i) := by
  have hb := byteAt_lt v
  cases size with
  | two =>
    rw [netConv, byteAt_ofBytes (by simp [hb])]
    match i, hi with
    | 0, _ => rfl
    | 1, _ => rfl
  | four =>
    rw [netConv, byteAt_ofBytes (by simp [hb])]
    match i, hi with
    | 0, _ => rfl
    | 1, _ => rfl
    | 2, _ => rfl
    | 3, _ => rfl

theorem netConv_lt (size : IntSize) (v : ℕ) : netConv size v < 256 ^ size.bytes := by
  have hb := byteAt_lt v
  cases size <;> exact ofBytes_lt (by simp [hb])

/-- Twice reversed is as before. -/
theorem netConv_netConv {size : IntSize} {v : ℕ} (h : v < 256 ^ size.bytes) :
    netConv size (netConv size v) = v := by
  refine eq_of_byteAt (netConv_lt size _) h fun i hi ↦ ?_
  rw [byteAt_netConv hi, byteAt_netConv (by omega)]
  congr 1
  omega

/-- The same bytes from either end. -/
def NetInt.Palindrome (v : NetInt) : Prop :=
  ∀ i < v.size.bytes, byteAt v.val i = byteAt v.val (v.size.bytes - 1 - i)

theorem netConv_eq_self_iff (v : NetInt) : netConv v.size v.val = v.val ↔ v.Palindrome := by
  constructor
  · intro h i hi
    rw [← byteAt_netConv hi, h]
  · intro h
    refine eq_of_byteAt (netConv_lt v.size v.val) v.lt fun i hi ↦ ?_
    rw [byteAt_netConv hi, h i hi]

/-! ### A buffer of values -/

/-- The values stand in the buffer one after another from `p`, most significant byte first. -/
def InNetworkOrder (m : ByteMemory) : ℕ → List NetInt → Prop
  | _, [] => True
  | p, v :: vs =>
    (∀ i < v.size.bytes, m (p + i) = UInt8.ofNat (byteAt v.val (v.size.bytes - 1 - i))) ∧
      InNetworkOrder m (p + v.size.bytes) vs

theorem encodeAll_cons (m : ByteMemory) (p : ℕ) (v : NetInt) (vs : List NetInt) :
    encodeAll m p (v :: vs) =
      ((encodeAll (netEncode m v p).1 (p + v.size.bytes) vs).1,
        (p + v.size.bytes) :: (encodeAll (netEncode m v p).1 (p + v.size.bytes) vs).2) := rfl

/-- What is below the start of the buffer stays. -/
theorem encodeAll_of_lt {m : ByteMemory} {p b : ℕ} {vs : List NetInt} (hb : b < p) :
    (encodeAll m p vs).1 b = m b := by
  induction vs generalizing m p with
  | nil => rfl
  | cons v vs ih =>
    rw [encodeAll_cons, ih (Nat.lt_add_right _ hb)]
    exact storeWord_of_outside (.inl hb)

theorem inNetworkOrder_encodeAll (m : ByteMemory) (p : ℕ) (vs : List NetInt) :
    InNetworkOrder (encodeAll m p vs).1 p vs := by
  induction vs generalizing m p with
  | nil => trivial
  | cons v vs ih =>
    refine ⟨fun i hi ↦ ?_, ih _ _⟩
    rw [encodeAll_cons, encodeAll_of_lt (Nat.add_lt_add_left hi p), ← byteAt_netConv hi]
    have hin : p ≤ p + i ∧ p + i < p + v.size.bytes := ⟨Nat.le_add_right p i, by omega⟩
    show storeWord m v.size.bytes p (netConv v.size v.val) (p + i) = _
    rw [storeWord, if_pos hin, Nat.add_sub_cancel_left, byteAt]
    exact UInt8.ofNat_mod_size.symm

/-- Every value comes out with its bytes reversed, and the positions are those of the encoder. -/
theorem decodeAll_encodeAll (m : ByteMemory) (p : ℕ) (vs : List NetInt) :
    decodeAll (encodeAll m p vs).1 p (vs.map NetInt.size) =
      (vs.map fun v ↦ netConv v.size v.val, (encodeAll m p vs).2) := by
  induction vs generalizing m p with
  | nil => rfl
  | cons v vs ih =>
    have hself : (encodeAll (netEncode m v p).1 (p + v.size.bytes) vs).1.loadWord v.size.bytes p =
        netConv v.size v.val := by
      rw [loadWord_congr fun b _ hb ↦ encodeAll_of_lt hb]
      exact loadWord_storeWord_self (netConv_lt v.size v.val)
    rw [encodeAll_cons, List.map_cons, List.map_cons, decodeAll, netDecode, ih, hself]

/-- Encoding and decoding as they are meant to be. -/
structure RoundTrips (m : ByteMemory) (p : ℕ) (vs : List NetInt) : Prop where
  network : InNetworkOrder (encodeAll m p vs).1 p vs
  values : (decodeAll (encodeAll m p vs).1 p (vs.map NetInt.size)).1 = vs.map NetInt.val
  positions : (decodeAll (encodeAll m p vs).1 p (vs.map NetInt.size)).2 = (encodeAll m p vs).2

/-- **`net_decode` undoes `net_encode`** exactly if every value is a palindrome. -/
theorem roundTrips_iff (m : ByteMemory) (p : ℕ) (vs : List NetInt) :
    RoundTrips m p vs ↔ ∀ v ∈ vs, v.Palindrome := by
  have hdecode := decodeAll_encodeAll m p vs
  have hvalues : (vs.map fun v ↦ netConv v.size v.val) = vs.map NetInt.val ↔
      ∀ v ∈ vs, v.Palindrome := by
    simp only [List.map_inj_left, netConv_eq_self_iff]
  refine ⟨fun h ↦ hvalues.1 ?_, fun h ↦ ⟨inNetworkOrder_encodeAll m p vs, ?_, ?_⟩⟩
  · rw [← h.values, hdecode]
  · rw [hdecode, hvalues.2 h]
  · rw [hdecode]

/-- **One, in two bytes**, comes out as 256. -/
theorem one_comes_out_reversed : ¬ ∀ m p vs, RoundTrips m p vs := by
  intro hall
  have h := (hall (fun _ ↦ 0) 0 [⟨.two, 1, by decide⟩]).values
  exact absurd h (by decide)

end Libk2
