import Libk2.Foundation.WhileLoop
import Mathlib.Data.List.Basic

/-!
# The argument vector of a child process

The child side of `process_impl::create`, up to the call of `execvp`: a loop that cuts the command
line into words. It cuts the file name instead, never moves on, and asks `calloc` for as many
objects as it needs bytes, of no bytes each.

So for a file name that is not empty it copies the first word again and again (`visited_eq`), into
`argv[64]` and beyond; for an empty one it ends, without a look at the command line. And no copy has
any room, not even that of an empty file name (`Reached.roomless`).
-/

namespace Libk2

namespace ProcessArgv

open WhileLoop

/-- `MAX_ARGC`. -/
def maxArgc : ℕ := 64

/-- `isspace`, in the "C" locale. -/
def isspace (ch : Char) : Bool := ch ∈ [' ', '\t', '\n', '\x0b', '\x0c', '\r']

/-- `notspace`. Nothing uses it. -/
def notspace (ch : Char) : Bool := !isspace ch

/-! ### The child -/

/-- The bytes that `calloc` gives. -/
def calloc (count size : ℕ) : ℕ := count * size

/-- An argument: the bytes of its storage, and the characters copied there. -/
structure Argument where
  storage : ℕ
  copied : List Char
deriving DecidableEq

/-- The variables of the child. `first` is an index into the file name; `writes` is what has been
written to `argv`, and where, with `none` for a null pointer. -/
structure Child where
  first : ℕ
  idx : ℕ
  writes : List (ℕ × Option Argument)
deriving DecidableEq

/-- Before the loop. -/
def childStart (filename : List Char) : Child where
  first := 0
  idx := 1
  writes := [(0, some ⟨calloc (filename.length + 1) 0, filename⟩)]

/-- `first != end`. -/
def childTest (filename : List Char) (s : Child) : Bool := s.first ≠ filename.length

/-- `find_if(first, end, isspace)`, as an index. -/
def findSpace (filename : List Char) (first : ℕ) : ℕ :=
  first + ((filename.drop first).takeWhile notspace).length

/-- The body of the loop. The test at its start is the one of the loop again. -/
def childBody (filename : List Char) (s : Child) : Child :=
  let length := findSpace filename s.first - s.first
  { s with
    idx := s.idx + 1
    writes := s.writes ++
      [(s.idx, some ⟨calloc (length + 1) 0, (filename.drop s.first).take length⟩)] }

/-- After `n` rounds of the loop. -/
def visited (filename : List Char) (n : ℕ) : Child :=
  rounds (childTest filename) (childBody filename) n (childStart filename)

/-- The child until it calls `execvp`, if the loop ends within `fuel` rounds. -/
def createChild (fuel : ℕ) (filename _cmdline : List Char) : Option Child :=
  (run (childTest filename) (childBody filename) fuel (childStart filename)).map fun s ↦
    { s with writes := s.writes ++ [(s.idx, none)] }

/-- `argv[i]`, if it has been written. -/
def Child.argv (s : Child) (i : ℕ) : Option (Option Argument) :=
  (s.writes.findRev? fun w ↦ w.1 = i).map Prod.snd

/-! ### What it is for -/

/-- The maximal runs of characters that are not spaces. -/
def words (cmdline : List Char) : List (List Char) :=
  (cmdline.splitOnP isspace).filter fun word ↦ !word.isEmpty

example : words [' ', 'l', 's', ' ', ' ', '-', 'l', ' '] = [['l', 's'], ['-', 'l']] := by decide

/-- The argument vector, to the null entry: what the arguments should be. -/
def expectedArgv (filename cmdline : List Char) : List (Option (List Char)) :=
  (filename :: words cmdline).map some ++ [none]

/-- The child is in state `s` at some time. -/
def Reached (filename cmdline : List Char) (s : Child) : Prop :=
  (∃ n, s = visited filename n) ∨ ∃ fuel, createChild fuel filename cmdline = some s

/-- The argument vector is built as it should be. -/
structure BuildsArgv (filename cmdline : List Char) : Prop where
  ends : ∃ fuel, (createChild fuel filename cmdline).isSome
  bounded : ∀ s, Reached filename cmdline s → ∀ w ∈ s.writes, w.1 < maxArgc
  room : ∀ s, Reached filename cmdline s → ∀ w ∈ s.writes, ∀ a ∈ w.2,
    a.copied.length + 1 ≤ a.storage
  words : (words cmdline).length ≤ maxArgc - 2 →
    ∃ fuel s, createChild fuel filename cmdline = some s ∧
      ∀ i, (s.argv i).map (Option.map Argument.copied) = (expectedArgv filename cmdline)[i]?

/-! ### What it does -/

variable {filename cmdline : List Char}

/-- The first word of the file name, as it is copied. -/
def firstWord (filename : List Char) : Argument := ⟨0, filename.takeWhile notspace⟩

theorem childTest_eq_true_iff {s : Child} :
    childTest filename s = true ↔ s.first ≠ filename.length :=
  decide_eq_true_iff

/-- One round: the first word again. -/
theorem childBody_of_first {s : Child} (hfirst : s.first = 0) :
    childBody filename s =
      ⟨0, s.idx + 1, s.writes ++ [(s.idx, some (firstWord filename))]⟩ := by
  have htake : filename.take (filename.takeWhile notspace).length = filename.takeWhile notspace :=
    (List.prefix_iff_eq_take.1 (List.takeWhile_prefix notspace)).symm
  simp only [childBody, findSpace, hfirst, List.drop_zero, Nat.zero_add, Nat.sub_zero, calloc,
    Nat.mul_zero, htake, firstWord]

/-- **The loop does not move on.** -/
theorem visited_eq (h : filename ≠ []) (n : ℕ) :
    visited filename n = ⟨0, n + 1, (0, some ⟨0, filename⟩) ::
      (List.range n).map fun k ↦ (k + 1, some (firstWord filename))⟩ := by
  induction n with
  | zero => rfl
  | succ n ih =>
    have hfirst : (visited filename n).first = 0 := by rw [ih]
    have htest : childTest filename (visited filename n) = true := by
      rw [childTest_eq_true_iff, hfirst]
      exact Nat.ne_of_lt (List.length_pos_of_ne_nil h)
    have hround : visited filename (n + 1) = childBody filename (visited filename n) :=
      rounds_succ_of_test htest
    rw [hround, childBody_of_first hfirst, ih, List.range_succ, List.map_append]
    rfl

theorem createChild_of_ne_nil (h : filename ≠ []) (fuel : ℕ) :
    createChild fuel filename cmdline = none := by
  -- the cursor stays at the start, and that is not the end
  have hbody : ∀ s : Child, s.first = 0 →
      childTest filename s = true ∧ (childBody filename s).first = 0 := by
    intro s hfirst
    rw [childTest_eq_true_iff, hfirst, childBody_of_first hfirst]
    exact ⟨Nat.ne_of_lt (List.length_pos_of_ne_nil h), rfl⟩
  rw [createChild, run_eq_none (s := childStart filename) (P := fun s ↦ s.first = 0) rfl hbody]
  rfl

theorem visited_nil (n : ℕ) : visited [] n = ⟨0, 1, [(0, some ⟨0, []⟩)]⟩ := by
  cases n <;> rfl

/-- Nothing but the empty file name and the null entry. -/
theorem createChild_nil (fuel : ℕ) :
    createChild fuel [] cmdline = some ⟨0, 1, [(0, some ⟨0, []⟩), (1, none)]⟩ := by
  have hrun : run (childTest []) (childBody []) fuel (childStart []) = some (visited [] fuel) :=
    run_eq_some_iff.2 ⟨rfl, by rw [visited_nil]; rfl⟩
  rw [createChild, hrun, visited_nil]
  rfl

/-- **It ends** exactly if the file name is empty. -/
theorem ends_iff : (∃ fuel, (createChild fuel filename cmdline).isSome) ↔ filename = [] := by
  constructor
  · rintro ⟨fuel, hsome⟩
    by_contra hne
    rw [createChild_of_ne_nil hne] at hsome
    exact Bool.false_ne_true hsome
  · rintro rfl
    exact ⟨0, by rw [createChild_nil]; rfl⟩

/-- **It stays inside `argv`** exactly if the file name is empty. -/
theorem bounded_iff :
    (∀ s, Reached filename cmdline s → ∀ w ∈ s.writes, w.1 < maxArgc) ↔ filename = [] := by
  constructor
  · intro hbounded
    by_contra hne
    have hwrite : (maxArgc, some (firstWord filename)) ∈ (visited filename maxArgc).writes := by
      rw [visited_eq hne]
      exact List.mem_cons_of_mem _ (List.mem_map.2 ⟨63, by decide, rfl⟩)
    exact absurd (hbounded _ (.inl ⟨maxArgc, rfl⟩) _ hwrite) (Nat.lt_irrefl _)
  · rintro rfl s hs
    rcases hs with ⟨n, rfl⟩ | ⟨fuel, hfuel⟩
    · rw [visited_nil]
      decide
    · rw [createChild_nil] at hfuel
      cases hfuel
      decide

/-- What is written has no room. -/
def Roomless (s : Child) : Prop := ∀ w ∈ s.writes, ∀ a ∈ w.2, a.storage = 0

theorem roomless_childStart (filename : List Char) : Roomless (childStart filename) := by
  intro w hw a ha
  obtain rfl := List.mem_singleton.1 hw
  obtain rfl := Option.mem_some.1 ha
  exact Nat.mul_zero _

theorem Roomless.childBody {s : Child} (h : Roomless s) : Roomless (childBody filename s) := by
  intro w hw a ha
  rcases List.mem_append.1 hw with hold | hnew
  · exact h w hold a ha
  · obtain rfl := List.mem_singleton.1 hnew
    obtain rfl := Option.mem_some.1 ha
    exact Nat.mul_zero _

/-- **No copy has any room.** -/
theorem Reached.roomless {s : Child} (hs : Reached filename cmdline s) : Roomless s := by
  have hvisited : ∀ n, Roomless (visited filename n) :=
    rounds_induction (roomless_childStart filename) fun t ht _ ↦ ht.childBody
  rcases hs with ⟨n, rfl⟩ | ⟨fuel, hfuel⟩
  · exact hvisited n
  · obtain ⟨t, hrun, rfl⟩ := Option.map_eq_some_iff.1 hfuel
    obtain ⟨rfl, -⟩ := run_eq_some_iff.1 hrun
    intro w hw a ha
    rcases List.mem_append.1 hw with hold | hnew
    · exact hvisited fuel w hold a ha
    · obtain rfl := List.mem_singleton.1 hnew
      exact absurd ha nofun

/-- **The argument vector is never built as it should be.** Not even the file name has room. -/
theorem not_buildsArgv (filename cmdline : List Char) : ¬ BuildsArgv filename cmdline := by
  intro h
  have hstart : Reached filename cmdline (visited filename 0) := .inl ⟨0, rfl⟩
  have hwrite : (0, some ⟨calloc (filename.length + 1) 0, filename⟩) ∈
      (visited filename 0).writes := List.mem_cons_self
  have hroom := h.room _ hstart _ hwrite _ rfl
  rw [hstart.roomless _ hwrite _ rfl] at hroom
  exact Nat.not_succ_le_zero _ hroom

/-- **`ls` with its own name** as the command line. -/
theorem ls_is_not_built : ¬ ∀ filename cmdline, BuildsArgv filename cmdline := by
  intro hall
  have hends := (hall ['l', 's'] ['l', 's']).ends
  exact absurd (ends_iff.1 hends) (by decide)

end ProcessArgv

end Libk2
