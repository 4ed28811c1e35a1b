import Mathlib.Data.Nat.ModEq
import Mathlib.Tactic.Ring
import Mathlib.Logic.Function.Basic

/-!
# Byte memory with little-endian words

Memory is one byte per address. A word of `n` bytes at `a` is read least significant byte first
(`loadWord`) and written the same way (`storeWord`); a stored word reads back as long as it fits in
`n` bytes (`loadWord_storeWord_self`), and neither sees what happens outside its own range
(`loadWord_congr`, `loadWord_storeWord_of_apart`).

Bytes in a row are written and read as lists (`storeBytes`, `loadBytes`); what is written behind
bytes that are there follows on from them (`loadBytes_storeBytes`), and a range can be reversed
(`reverseBytes`).

`Apart a m b n` is the disjointness of the ranges `[a, a + m)` and `[b, b + n)`, in the form `omega`
decides.
-/

/-- A memory: the byte at every address. -/
abbrev ByteMemory := ℕ → UInt8

namespace ByteMemory

/-- The ranges `[a, a + m)` and `[b, b + n)` do not meet. -/
def Apart (a m b n : ℕ) : Prop := a + m ≤ b ∨ b + n ≤ a

instance (a m b n : ℕ) : Decidable (Apart a m b n) :=
  inferInstanceAs (Decidable (_ ∨ _))

theorem Apart.symm {a m b n : ℕ} (h : Apart a m b n) : Apart b n a m := Or.symm h

/-- Smaller ranges inside separate ones are separate. -/
theorem Apart.mono {a m b n a' m' b' n' : ℕ} (h : Apart a m b n) (ha : a ≤ a')
    (hm : a' + m' ≤ a + m) (hb : b ≤ b') (hn : b' + n' ≤ b + n) : Apart a' m' b' n' := by
  unfold Apart at *
  omega

/-- The word of `n` bytes at `a`, least significant byte first. -/
def loadWord (m : ByteMemory) : ℕ → ℕ → ℕ
  | 0, _ => 0
  | n + 1, a => (m a).toNat + 256 * loadWord m n (a + 1)

/-- Write `v` as `n` bytes at `a`, least significant byte first. -/
def storeWord (m : ByteMemory) (n a v : ℕ) : ByteMemory :=
  fun b ↦ if a ≤ b ∧ b < a + n then UInt8.ofNat (v / 256 ^ (b - a)) else m b

/-! ### Reading -/

/-- A word depends only on its own bytes. -/
theorem loadWord_congr {m m' : ByteMemory} {n a : ℕ} (h : ∀ b, a ≤ b → b < a + n → m' b = m b) :
    loadWord m' n a = loadWord m n a := by
  induction n generalizing a with
  | zero => rfl
  | succ n ih =>
    rw [loadWord, loadWord, h a (Nat.le_refl a) (by omega),
      ih fun b hb hb' ↦ h b (by omega) (by omega)]

/-- Bytes holding the base-256 digits of `v` read as `v`, up to their number. -/
theorem loadWord_eq_mod {m : ByteMemory} {n a v : ℕ}
    (h : ∀ i, i < n → (m (a + i)).toNat = v / 256 ^ i % 256) :
    loadWord m n a = v % 256 ^ n := by
  induction n generalizing a v with
  | zero => rw [loadWord, Nat.pow_zero, Nat.mod_one]
  | succ n ih =>
    have hlow : (m a).toNat = v % 256 := by simpa using h 0 (by omega)
    have hrest : loadWord m n (a + 1) = v / 256 % 256 ^ n := by
      refine ih fun i hi ↦ ?_
      have hdigit := h (i + 1) (by omega)
      rw [Nat.pow_succ', ← Nat.div_div_eq_div_mul] at hdigit
      rwa [show a + 1 + i = a + (i + 1) by omega]
    rw [loadWord, hlow, hrest, Nat.pow_succ', Nat.mod_mul]

/-! ### Writing -/

theorem storeWord_of_outside {m : ByteMemory} {n a v b : ℕ} (h : b < a ∨ a + n ≤ b) :
    storeWord m n a v b = m b := by
  rw [storeWord, if_neg (by omega)]

/-- **A stored word reads back**, when it fits. -/
theorem loadWord_storeWord_self {m : ByteMemory} {n a v : ℕ} (hv : v < 256 ^ n) :
    loadWord (storeWord m n a v) n a = v := by
  rw [loadWord_eq_mod (v := v), Nat.mod_eq_of_lt hv]
  intro i hi
  rw [storeWord, if_pos ⟨by omega, by omega⟩, Nat.add_sub_cancel_left]
  simp

/-- **Frame.** A word outside the range written is unchanged. -/
theorem loadWord_storeWord_of_apart {m : ByteMemory} {n k a v b : ℕ} (h : Apart a n b k) :
    loadWord (storeWord m n a v) k b = loadWord m k b := by
  refine loadWord_congr fun c hc hc' ↦ storeWord_of_outside ?_
  unfold Apart at h
  omega

/-- Overwriting one byte leaves the words that do not contain it. -/
theorem loadWord_update_of_outside {m : ByteMemory} {n a c : ℕ} {v : UInt8}
    (h : c < a ∨ a + n ≤ c) : loadWord (Function.update m c v) n a = loadWord m n a :=
  loadWord_congr fun b hb hb' ↦ Function.update_of_ne (by omega) _ _

/-- A byte outside the range may be overwritten before or after. -/
theorem storeWord_update_of_outside {m : ByteMemory} {n a w c : ℕ} {v : UInt8}
    (h : c < a ∨ a + n ≤ c) :
    storeWord (Function.update m c v) n a w = Function.update (storeWord m n a w) c v := by
  funext b
  rcases eq_or_ne b c with rfl | hne
  · rw [storeWord_of_outside h, Function.update_self, Function.update_self]
  · rw [Function.update_of_ne hne, storeWord, storeWord, Function.update_of_ne hne]

/-! ### Bytes in a row -/

/-- Write `data` at `a`. -/
def storeBytes (m : ByteMemory) (a : ℕ) (data : List UInt8) : ByteMemory :=
  fun b ↦ if a ≤ b then data[b - a]?.getD (m b) else m b

/-- The `n` bytes at `a`. -/
def loadBytes (m : ByteMemory) (a n : ℕ) : List UInt8 := (List.range n).map fun i ↦ m (a + i)

@[simp] theorem length_loadBytes (m : ByteMemory) (a n : ℕ) : (m.loadBytes a n).length = n := by
  rw [loadBytes, List.length_map, List.length_range]

theorem loadBytes_add (m : ByteMemory) (a n k : ℕ) :
    m.loadBytes a (n + k) = m.loadBytes a n ++ m.loadBytes (a + n) k := by
  rw [loadBytes, loadBytes, loadBytes, List.range_add, List.map_append, List.map_map]
  simp only [Function.comp_def, Nat.add_assoc]

theorem loadBytes_congr {m m' : ByteMemory} {a n : ℕ}
    (h : ∀ b, a ≤ b → b < a + n → m' b = m b) : m'.loadBytes a n = m.loadBytes a n := by
  refine List.map_congr_left fun i hi ↦ h (a + i) (Nat.le_add_right a i) ?_
  have := List.mem_range.1 hi
  omega

theorem storeBytes_of_outside {m : ByteMemory} {a b : ℕ} {data : List UInt8}
    (h : b < a ∨ a + data.length ≤ b) : m.storeBytes a data b = m b := by
  rw [storeBytes]
  split
  · rw [List.getElem?_eq_none (by omega), Option.getD_none]
  · rfl

theorem loadBytes_storeBytes_self (m : ByteMemory) (a : ℕ) (data : List UInt8) :
    (m.storeBytes a data).loadBytes a data.length = data := by
  refine List.ext_getElem (length_loadBytes _ _ _) fun i _ hi ↦ ?_
  simp only [loadBytes, List.getElem_map, List.getElem_range, storeBytes, Nat.le_add_right, if_true,
    Nat.add_sub_cancel_left]
  rw [List.getElem?_eq_getElem hi, Option.getD_some]

/-- **Bytes that follow on** from those that are there. -/
theorem loadBytes_storeBytes (m : ByteMemory) (a n : ℕ) (data : List UInt8) :
    (m.storeBytes (a + n) data).loadBytes a (n + data.length) = m.loadBytes a n ++ data := by
  rw [loadBytes_add, loadBytes_storeBytes_self,
    loadBytes_congr fun b _ hb ↦ storeBytes_of_outside (.inl hb)]

/-- The stores that `storeBytes` makes: where, and which byte. -/
def byteStores (a : ℕ) (data : List UInt8) : List (ℕ × UInt8) :=
  (List.range' a data.length).zip data

/-- Make the stores, one after another. -/
def storeAll (m : ByteMemory) (stores : List (ℕ × UInt8)) : ByteMemory :=
  stores.foldl (fun m store ↦ Function.update m store.1 store.2) m

@[simp] theorem length_byteStores (a : ℕ) (data : List UInt8) :
    (byteStores a data).length = data.length := by
  simp [byteStores]

@[simp] theorem map_snd_byteStores (a : ℕ) (data : List UInt8) :
    (byteStores a data).map Prod.snd = data :=
  List.map_snd_zip (by simp)

theorem mem_byteStores {a b : ℕ} {v : UInt8} {data : List UInt8} (h : (b, v) ∈ byteStores a data) :
    a ≤ b ∧ b < a + data.length :=
  List.mem_range'_1.1 (List.of_mem_zip h).1

/-- A part of the bytes goes to a part of the range. -/
theorem drop_take_byteStores (a n k : ℕ) (data : List UInt8) :
    ((byteStores a data).drop n).take k = byteStores (a + n) ((data.drop n).take k) := by
  rw [byteStores, byteStores, List.zip_eq_zipWith, List.drop_zipWith, List.take_zipWith,
    List.drop_range', Nat.mul_one, List.length_take, List.length_drop, List.zip_eq_zipWith]
  rcases Nat.le_total (data.length - n) k with h | h
  · rw [List.take_range'_of_length_le h, Nat.min_eq_right h]
  · rw [List.take_range'_of_length_ge h, Nat.min_eq_left h]

theorem storeAll_append (m : ByteMemory) (stores stores' : List (ℕ × UInt8)) :
    m.storeAll (stores ++ stores') = (m.storeAll stores).storeAll stores' :=
  List.foldl_append

theorem storeBytes_eq_storeAll (m : ByteMemory) (a : ℕ) (data : List UInt8) :
    m.storeBytes a data = m.storeAll (byteStores a data) := by
  induction data generalizing m a with
  | nil =>
    funext b
    exact storeBytes_of_outside (by simp; omega)
  | cons v data ih =>
    have hcons : byteStores a (v :: data) = (a, v) :: byteStores (a + 1) data := rfl
    rw [hcons]
    change _ = storeAll (Function.update m a v) (byteStores (a + 1) data)
    rw [← ih]
    funext b
    rcases Nat.lt_trichotomy b a with hlt | rfl | hgt
    · rw [storeBytes_of_outside (.inl hlt), storeBytes_of_outside (.inl (by omega)),
        Function.update_of_ne (by omega)]
    · rw [storeBytes_of_outside (.inl (Nat.lt_succ_self b)), Function.update_self]
      simp [storeBytes]
    · rw [storeBytes, storeBytes, if_pos (by omega), if_pos (by omega),
        show b - a = b - (a + 1) + 1 by omega, List.getElem?_cons_succ,
        Function.update_of_ne (by omega)]

/-! ### Reversing a range -/

/-- The `n` bytes at `a` in reverse. -/
def reverseBytes (m : ByteMemory) (a n : ℕ) : ByteMemory :=
  fun b ↦ if a ≤ b ∧ b < a + n then m (2 * a + n - 1 - b) else m b

theorem reverseBytes_of_inside {m : ByteMemory} {a n b : ℕ} (h : a ≤ b ∧ b < a + n) :
    m.reverseBytes a n b = m (2 * a + n - 1 - b) := if_pos h

theorem reverseBytes_of_outside {m : ByteMemory} {a n b : ℕ} (h : b < a ∨ a + n ≤ b) :
    m.reverseBytes a n b = m b := if_neg (by omega)

/-- Nothing to reverse. -/
theorem reverseBytes_of_short {n : ℕ} (h : n < 2) (m : ByteMemory) (a : ℕ) :
    m.reverseBytes a n = m := by
  funext b
  by_cases hin : a ≤ b ∧ b < a + n
  · rw [reverseBytes_of_inside hin]
    congr 1
    omega
  · exact reverseBytes_of_outside (by omega)

theorem loadBytes_reverseBytes (m : ByteMemory) (a n : ℕ) :
    (m.reverseBytes a n).loadBytes a n = (m.loadBytes a n).reverse := by
  refine List.ext_getElem (by simp) fun i hi _ ↦ ?_
  rw [length_loadBytes] at hi
  rw [List.getElem_reverse]
  simp only [loadBytes, List.getElem_map, List.getElem_range, List.length_map, List.length_range]
  rw [reverseBytes_of_inside ⟨Nat.le_add_right a i, by omega⟩]
  congr 1
  omega

@[simp] theorem reverseBytes_reverseBytes (m : ByteMemory) (a n : ℕ) :
    (m.reverseBytes a n).reverseBytes a n = m := by
  funext b
  by_cases hin : a ≤ b ∧ b < a + n
  · rw [reverseBytes_of_inside hin, reverseBytes_of_inside (by omega)]
    congr 1
    omega
  · rw [reverseBytes_of_outside (by omega), reverseBytes_of_outside (by omega)]

end ByteMemory
