import Mathlib.Data.List.Basic
import Mathlib.Data.List.Nodup

/-!
# Null-terminated pointer chains

A singly linked list as the heap has it: `next a` is the link stored at `a`, undefined where nothing
is stored. `Seg null next p l q` says that following links from `p` visits exactly the cells `l`, in
order, and arrives at `q`; `Chain null next p l` is the null-terminated case. Neither mentions what
a cell holds besides its link.

The rules follow the cells: segments compose (`seg_append`), depend only on the links of the cells
they visit (`Seg.congr`), and are determined by where they start (`Chain.unique`). That a chain
never visits a cell twice is not an extra hypothesis but a consequence of its being finite
(`Chain.nodup`). `Seg.splice` is the one update rule: putting a new cell behind an old one.
-/

namespace PointerChain

variable {α : Type*} (null : α) (next : α → Option α)

/-- Following links from `p` visits the cells `l`, in order, and arrives at `q`. -/
def Seg : α → List α → α → Prop
  | p, [], q => p = q
  | p, a :: l, q => p = a ∧ a ≠ null ∧ ∃ r, next a = some r ∧ Seg r l q

/-- The null-terminated case. -/
def Chain (p : α) (l : List α) : Prop := Seg null next p l null

variable {null next}

/-! ### Composition -/

theorem seg_append {p q : α} {l₁ l₂ : List α} :
    Seg null next p (l₁ ++ l₂) q ↔ ∃ r, Seg null next p l₁ r ∧ Seg null next r l₂ q := by
  induction l₁ generalizing p with
  | nil =>
    constructor
    · intro h
      exact ⟨p, rfl, h⟩
    · rintro ⟨r, rfl, h⟩
      exact h
  | cons a l₁ ih =>
    constructor
    · rintro ⟨hp, ha, r, hr, h⟩
      obtain ⟨t, h₁, h₂⟩ := ih.1 h
      exact ⟨t, ⟨hp, ha, r, hr, h₁⟩, h₂⟩
    · rintro ⟨t, ⟨hp, ha, r, hr, h₁⟩, h₂⟩
      exact ⟨hp, ha, r, hr, ih.2 ⟨t, h₁, h₂⟩⟩

/-- **Frame.** A segment depends only on the links of the cells it visits. -/
theorem Seg.congr {next' : α → Option α} {p q : α} {l : List α} (h : Seg null next p l q)
    (hnext : ∀ a ∈ l, next' a = next a) : Seg null next' p l q := by
  induction l generalizing p with
  | nil => exact h
  | cons a l ih =>
    obtain ⟨hp, ha, r, hr, h⟩ := h
    refine ⟨hp, ha, r, ?_, ih h fun b hb ↦ hnext b (List.mem_cons_of_mem _ hb)⟩
    rw [hnext a List.mem_cons_self, hr]

/-! ### Null-terminated chains -/

@[simp] theorem chain_nil {p : α} : Chain null next p [] ↔ p = null := Iff.rfl

/-- The chain from null is empty. -/
theorem Chain.eq_nil {l : List α} (h : Chain null next null l) : l = [] := by
  cases l with
  | nil => rfl
  | cons a l => exact absurd h.1.symm h.2.1

/-- A chain from anything else has that cell at its head. -/
theorem Chain.exists_cons {p : α} {l : List α} (h : Chain null next p l) (hp : p ≠ null) :
    ∃ r l', l = p :: l' ∧ next p = some r ∧ Chain null next r l' := by
  cases l with
  | nil => exact absurd h hp
  | cons a l =>
    obtain ⟨rfl, -, r, hr, h⟩ := h
    exact ⟨r, l, rfl, hr, h⟩

theorem Chain.unique {p : α} {l l' : List α} (h : Chain null next p l)
    (h' : Chain null next p l') : l = l' := by
  induction l generalizing p l' with
  | nil =>
    rw [chain_nil] at h
    subst h
    exact h'.eq_nil.symm
  | cons a l ih =>
    obtain ⟨rfl, ha, r, hr, h⟩ := h
    obtain ⟨r', l'', rfl, hr', h'⟩ := h'.exists_cons ha
    obtain rfl : r = r' := Option.some.inj (hr.symm.trans hr')
    rw [ih h h']

/-- **A chain visits no cell twice.** The chain from a repeated cell would be its own proper tail.
-/
theorem Chain.nodup {p : α} {l : List α} (h : Chain null next p l) : l.Nodup := by
  induction l generalizing p with
  | nil => exact List.nodup_nil
  | cons a l ih =>
    obtain ⟨rfl, hp, r, hr, h⟩ := h
    refine List.nodup_cons.2 ⟨fun hmem ↦ ?_, ih h⟩
    obtain ⟨l₁, l₂, rfl⟩ := List.append_of_mem hmem
    obtain ⟨t, -, htail⟩ := seg_append.1 h
    obtain rfl : t = p := htail.1
    have hwhole : Chain null next t (t :: (l₁ ++ t :: l₂)) := ⟨rfl, hp, r, hr, h⟩
    have hlen := congrArg List.length (Chain.unique hwhole htail)
    simp only [List.length_cons, List.length_append] at hlen
    omega

/-! ### Splicing in a cell -/

/-- **Insertion.** A fresh cell `x` that takes over the link of `a`, and to which `a` then points,
sits right behind `a`. -/
theorem Seg.splice {next' : α → Option α} {p q r a x : α} {l₁ l₂ : List α}
    (h : Seg null next p (l₁ ++ a :: l₂) q) (hnodup : (l₁ ++ a :: l₂).Nodup)
    (hx : x ∉ l₁ ++ a :: l₂) (hx0 : x ≠ null) (hr : next a = some r)
    (hnext_x : next' x = some r) (hnext_a : next' a = some x)
    (hother : ∀ b, b ≠ a → b ≠ x → next' b = next b) :
    Seg null next' p (l₁ ++ a :: x :: l₂) q := by
  obtain ⟨t, h₁, rfl, ha, r', hr', h₂⟩ := seg_append.1 h
  obtain rfl : r = r' := Option.some.inj (hr.symm.trans hr')
  simp only [List.mem_append, List.mem_cons, not_or] at hx
  have hdis := List.nodup_append.1 hnodup
  have h₁' : Seg null next' p l₁ t := by
    refine h₁.congr fun b hb ↦ hother b (fun hbt ↦ ?_) fun hbx ↦ hx.1 (hbx ▸ hb)
    exact hdis.2.2 b hb t List.mem_cons_self hbt
  have h₂' : Seg null next' r l₂ q := by
    refine h₂.congr fun b hb ↦ hother b (fun hbt ↦ ?_) fun hbx ↦ hx.2.2 (hbx ▸ hb)
    exact (List.nodup_cons.1 hdis.2.1).1 (hbt ▸ hb)
  exact seg_append.2 ⟨t, h₁', rfl, ha, x, hnext_a, rfl, hx0, r, hnext_x, h₂'⟩

end PointerChain
