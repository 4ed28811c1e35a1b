import Mathlib.Data.List.GetD
import Mathlib.Logic.Function.Basic

/-!
# Zero-terminated strings

A string is its characters, none of them zero, and stands for the bytes from some address on: the
characters, then a zero (`byte`). It stands at the start of a buffer if the characters are there and
the zero after them (`Holds`), which determines it (`Holds.unique`).

`strncpy` copies at most `n` characters, and pads with zeros up to `n`. It does not terminate a
string of `n` characters or more. A call or an assignment that would write behind the buffer has no
result.
-/

/-- A zero-terminated string. -/
@[ext]
structure CString where
  chars : List UInt8
  zero_notMem : 0 ∉ chars

namespace CString

/-- Byte `i`; behind the terminator, which nothing below reads, zero as well. -/
def byte (s : CString) (i : ℕ) : UInt8 := s.chars.getD i 0

/-- The first `n` characters. -/
def take (s : CString) (n : ℕ) : CString :=
  ⟨s.chars.take n, fun h ↦ s.zero_notMem (List.mem_of_mem_take h)⟩

/-- A string literal. -/
def literal (text : String) : CString where
  chars := (text.toList.map fun c ↦ UInt8.ofNat c.toNat).filter fun b ↦ b ≠ 0
  zero_notMem h := by simpa using (List.mem_filter.1 h).2

variable {s s' : CString} {size : ℕ} {b : Fin size → UInt8}

theorem byte_ne_zero {i : ℕ} (h : i < s.chars.length) : s.byte i ≠ 0 := by
  rw [byte, List.getD_eq_getElem _ _ h]
  exact fun hzero ↦ s.zero_notMem (hzero ▸ List.getElem_mem h)

theorem byte_eq_zero {i : ℕ} (h : s.chars.length ≤ i) : s.byte i = 0 :=
  List.getD_eq_default _ _ h

theorem take_eq_take_iff {m n : ℕ} :
    s.take m = s.take n ↔ min m s.chars.length = min n s.chars.length := by
  rw [CString.ext_iff]
  exact List.take_eq_take_iff

theorem length_take_le (s : CString) (n : ℕ) : (s.take n).chars.length ≤ n :=
  List.length_take_le _ _

theorem byte_take {n i : ℕ} (h : i < n) : (s.take n).byte i = s.byte i := by
  rw [byte, byte, take, List.getD_eq_getElem?_getD, List.getElem?_take_of_lt h,
    List.getD_eq_getElem?_getD]

/-- The string stands at the start of the buffer, with its terminator. -/
def Holds (b : Fin size → UInt8) (s : CString) : Prop :=
  ∀ i ≤ s.chars.length, ∃ h : i < size, b ⟨i, h⟩ = s.byte i

theorem Holds.length_le (h : Holds b s) (h' : Holds b s') : s'.chars.length ≤ s.chars.length := by
  by_contra hlt
  have hshort : s.chars.length < s'.chars.length := Nat.lt_of_not_le hlt
  obtain ⟨_, hend⟩ := h _ (Nat.le_refl _)
  obtain ⟨_, hmid⟩ := h' s.chars.length (Nat.le_of_lt hshort)
  exact byte_ne_zero hshort (hmid.symm.trans (hend.trans (byte_eq_zero (Nat.le_refl _))))

/-- **One string** stands at the start of a buffer. -/
theorem Holds.unique (h : Holds b s) (h' : Holds b s') : s = s' := by
  have hlength : s.chars.length = s'.chars.length :=
    Nat.le_antisymm (h'.length_le h) (h.length_le h')
  refine CString.ext (List.ext_getElem hlength fun i hi hi' ↦ ?_)
  obtain ⟨_, hb⟩ := h i (Nat.le_of_lt hi)
  obtain ⟨_, hb'⟩ := h' i (Nat.le_of_lt hi')
  rw [hb, byte, byte, List.getD_eq_getElem _ _ hi, List.getD_eq_getElem _ _ hi'] at hb'
  exact hb'

/-- `strncpy`, which writes `n` bytes. -/
def strncpy (b : Fin size → UInt8) (s : CString) (n : ℕ) : Option (Fin size → UInt8) :=
  if n ≤ size then some fun i ↦ if i < n then s.byte i else b i else none

/-- An assignment to byte `n`. -/
def store (b : Fin size → UInt8) (n : ℕ) (ch : UInt8) : Option (Fin size → UInt8) :=
  if n < size then some fun i ↦ if i = n then ch else b i else none

/-! ### A copy, terminated by hand -/

section Copy

variable (b : Fin size → UInt8) (s : CString) {n : ℕ}

/-- There is room for `n` bytes and the terminator. -/
theorem exists_store_strncpy (h : n < size) : ∃ b', ((strncpy b s n).bind fun b ↦ store b n 0) =
    some b' ∧ ∀ i : Fin size, i ≤ n → b' i = (s.take n).byte i := by
  refine ⟨_, by rw [strncpy, if_pos (Nat.le_of_lt h), Option.bind_some, store, if_pos h],
    fun i hi ↦ ?_⟩
  rcases Nat.lt_or_eq_of_le hi with hlt | heq
  · rw [if_neg (Nat.ne_of_lt hlt), if_pos hlt, byte_take hlt]
  · rw [if_pos heq, byte_eq_zero (heq ▸ length_take_le s n)]

/-- There is none. -/
theorem store_strncpy_eq_none (h : size ≤ n) :
    ((strncpy b s n).bind fun b ↦ store b n 0) = none := by
  refine Option.bind_eq_none_iff.2 fun b' _ ↦ ?_
  rw [store, if_neg (Nat.not_lt.2 h)]

/-- **What a copy holds**: the string, cut off where the terminator is. -/
theorem holds_store_strncpy_iff : (∃ b', ((strncpy b s n).bind fun b ↦ store b n 0) = some b' ∧
    Holds b' s') ↔ n < size ∧ s' = s.take n := by
  by_cases hroom : n < size
  · obtain ⟨b', hb', hbytes⟩ := exists_store_strncpy b s hroom
    have hholds : Holds b' (s.take n) := by
      intro i hi
      have hle : i ≤ n := Nat.le_trans hi (length_take_le s n)
      exact ⟨Nat.lt_of_le_of_lt hle hroom, hbytes ⟨i, Nat.lt_of_le_of_lt hle hroom⟩ hle⟩
    refine ⟨?_, fun ⟨_, heq⟩ ↦ ⟨b', hb', heq ▸ hholds⟩⟩
    rintro ⟨b'', hb'', h⟩
    obtain rfl : b' = b'' := Option.some.inj (hb'.symm.trans hb'')
    exact ⟨hroom, h.unique hholds⟩
  · rw [store_strncpy_eq_none b s (Nat.not_lt.1 hroom)]
    exact iff_of_false (fun ⟨_, heq, _⟩ ↦ nomatch heq) fun h ↦ hroom h.1

end Copy

end CString
