import Mathlib.Data.List.Lex
import Mathlib.Order.Lex
import Libk2.Foundation.ThreeWay

/-!
# Addresses

`interface_addr` and `transport_addr` of `ipv4` and of `ipv6`, with their comparison and the
operators built on it.

`interface_addr::compare` returns what `std::lexicographical_compare` returns, which is whether the
left operand is less: 1 or 0, and never a negative number. `transport_addr::compare` expects a
three-way result of it. Over any keys (`FirstByLess`) such a comparison meets the laws of a total
order exactly where the interface addresses are equal, or are in the opposite order to the rest.
-/

namespace Libk2

/-! ### Interface addresses -/

/-- `std::lexicographical_compare`. -/
def lexicographicalCompare : List UInt8 → List UInt8 → Bool
  | _, [] => false
  | [], _ :: _ => true
  | x :: xs, y :: ys =>
    if x < y then true else if y < x then false else lexicographicalCompare xs ys

/-- `interface_addr`, of `size` bytes. -/
@[ext]
structure InterfaceAddr (size : ℕ) where
  data : List UInt8
  length_eq : data.length = size
deriving DecidableEq

namespace InterfaceAddr

variable {size : ℕ}

/-- `interface_addr::compare`. -/
def compare (lhs rhs : InterfaceAddr size) : ℤ :=
  (lexicographicalCompare lhs.data rhs.data).toInt

/-- `operator==`. -/
def eq (lhs rhs : InterfaceAddr size) : Bool := lhs.compare rhs == 0

/-- `operator<`. -/
def lt (lhs rhs : InterfaceAddr size) : Bool := lhs.compare rhs < 0

/-- The bytes, as a key. -/
def key (a : InterfaceAddr size) : List ℕ := a.data.map UInt8.toNat

end InterfaceAddr

theorem lexicographicalCompare_iff {xs ys : List UInt8} :
    lexicographicalCompare xs ys = true ↔ xs.map UInt8.toNat < ys.map UInt8.toNat := by
  induction xs generalizing ys with
  | nil => cases ys <;> simp [lexicographicalCompare]
  | cons x xs ih =>
    cases ys with
    | nil => simp [lexicographicalCompare]
    | cons y ys =>
      rw [lexicographicalCompare, List.map_cons, List.map_cons, List.cons_lt_cons_iff, ← ih]
      rcases lt_trichotomy x.toNat y.toNat with h | h | h
      · simp [UInt8.lt_iff_toNat_lt, h]
      · simp [UInt8.lt_iff_toNat_lt, h]
      · simp [UInt8.lt_iff_toNat_lt, h, h.not_gt, h.ne']

/-! ### A first key compared by `less` -/

/-- Compare the first key by whether it is less, which gives 1 or 0, and the rest by `threeWay`. -/
structure FirstByLess {α κ κ' : Type*} [LinearOrder κ] [LinearOrder κ'] (first : α → κ)
    (rest : α → κ') (compare : α → α → ℤ) (eq lt : α → α → Bool) : Prop where
  ext : ∀ a b, first a = first b → rest a = rest b → a = b
  compare_of_lt : ∀ {a b}, first a < first b → compare a b = 1
  compare_of_not_lt : ∀ {a b}, ¬ first a < first b → compare a b = threeWay (rest a) (rest b)
  eq_iff : ∀ a b, eq a b = true ↔ ¬ first a < first b ∧ rest a = rest b
  lt_iff : ∀ a b, lt a b = true ↔ compare a b < 0

namespace FirstByLess

variable {α κ κ' : Type*} [LinearOrder κ] [LinearOrder κ'] {first : α → κ} {rest : α → κ'}
  {compare : α → α → ℤ} {eq lt : α → α → Bool} (h : FirstByLess first rest compare eq lt)

include h

theorem compare_neg_iff {a b : α} : compare a b < 0 ↔ ¬ first a < first b ∧ rest a < rest b := by
  by_cases hlt : first a < first b
  · rw [h.compare_of_lt hlt]
    exact iff_of_false (by decide) fun hand ↦ hand.1 hlt
  · rw [h.compare_of_not_lt hlt, threeWay_neg_iff, and_iff_right hlt]

theorem compare_zero_iff {a b : α} : compare a b = 0 ↔ ¬ first a < first b ∧ rest a = rest b := by
  by_cases hlt : first a < first b
  · rw [h.compare_of_lt hlt]
    exact iff_of_false (by decide) fun hand ↦ hand.1 hlt
  · rw [h.compare_of_not_lt hlt, threeWay_eq_zero_iff, and_iff_right hlt]

theorem compare_trans {a b c : α} (hab : compare a b < 0) (hbc : compare b c < 0) :
    compare a c < 0 := by
  rw [h.compare_neg_iff] at *
  refine ⟨fun hac ↦ ?_, hab.2.trans hbc.2⟩
  exact hac.not_ge ((not_lt.1 hbc.1).trans (not_lt.1 hab.1))

/-- **The laws** of a total order hold of `a` and `b` exactly if their first keys are equal, or
stand the other way round than the rest. -/
theorem compareLaws_iff (a b c : α) :
    CompareLaws compare eq lt a b c ↔
      first a = first b ∨ first a < first b ∧ rest b < rest a ∨
        first b < first a ∧ rest a < rest b := by
  constructor
  · intro hlaws
    have hsign := hlaws.sign_compare
    rcases lt_trichotomy (first a) (first b) with hlt | heq | hgt
    · rw [h.compare_of_lt hlt, eq_neg_iff_add_eq_zero, add_comm, ← eq_neg_iff_add_eq_zero] at hsign
      have hneg : compare b a < 0 := Int.sign_eq_neg_one_iff_neg.1 hsign
      exact .inr (.inl ⟨hlt, (h.compare_neg_iff.1 hneg).2⟩)
    · exact .inl heq
    · rw [h.compare_of_lt hgt] at hsign
      have hneg : compare a b < 0 := Int.sign_eq_neg_one_iff_neg.1 hsign
      exact .inr (.inr ⟨hgt, (h.compare_neg_iff.1 hneg).2⟩)
  · intro hagree
    have hsame : ¬ first a < first b ∧ rest a = rest b ↔ a = b := by
      refine ⟨fun ⟨hnot, hrest⟩ ↦ ?_, fun heq ↦ heq ▸ ⟨lt_irrefl _, rfl⟩⟩
      rcases hagree with hfirst | ⟨hlt, -⟩ | ⟨-, hlt⟩
      · exact h.ext a b hfirst hrest
      · exact absurd hlt hnot
      · exact absurd hrest hlt.ne
    refine ⟨h.compare_zero_iff.trans hsame, ?_, h.compare_trans, (h.eq_iff a b).trans hsame,
      ?_, ?_, ?_⟩
    · rcases hagree with hfirst | ⟨hfirst, hrest⟩ | ⟨hfirst, hrest⟩
      · rw [h.compare_of_not_lt hfirst.not_lt, h.compare_of_not_lt hfirst.symm.not_lt,
          threeWay_swap, Int.sign_neg]
      · rw [h.compare_of_lt hfirst, h.compare_of_not_lt hfirst.not_gt, threeWay_of_lt hrest]
        rfl
      · rw [h.compare_of_lt hfirst, h.compare_of_not_lt hfirst.not_gt, threeWay_of_lt hrest]
        rfl
    · exact Bool.eq_false_of_not_eq_true fun hlt ↦
        (h.compare_neg_iff.1 ((h.lt_iff a a).1 hlt)).2.false
    · rw [h.lt_iff, h.lt_iff, h.lt_iff]
      exact h.compare_trans
    · rw [h.lt_iff, h.lt_iff, h.compare_neg_iff, h.compare_neg_iff]
      rcases hagree with hfirst | ⟨hfirst, hrest⟩ | ⟨hfirst, hrest⟩
      · rcases lt_trichotomy (rest a) (rest b) with hrest | hrest | hrest
        · exact .inl ⟨hfirst.not_lt, hrest⟩
        · exact .inr (.inl (h.ext a b hfirst hrest))
        · exact .inr (.inr ⟨hfirst.symm.not_lt, hrest⟩)
      · exact .inr (.inr ⟨hfirst.not_gt, hrest⟩)
      · exact .inl ⟨hfirst.not_gt, hrest⟩

end FirstByLess

/-! ### Comparing interface addresses -/

namespace InterfaceAddr

variable {size : ℕ}

theorem key_inj {a b : InterfaceAddr size} : a.key = b.key ↔ a = b := by
  refine ⟨fun h ↦ InterfaceAddr.ext ?_, congrArg key⟩
  exact List.map_injective_iff.2 (fun _ _ ↦ UInt8.toNat_inj.1) h

theorem compare_of_lt {a b : InterfaceAddr size} (h : a.key < b.key) : a.compare b = 1 := by
  rw [compare, lexicographicalCompare_iff.2 h]
  rfl

theorem compare_of_not_lt {a b : InterfaceAddr size} (h : ¬ a.key < b.key) : a.compare b = 0 := by
  rw [compare, Bool.eq_false_of_not_eq_true fun hlt ↦ h (lexicographicalCompare_iff.1 hlt)]
  rfl

theorem compare_eq_zero_iff {a b : InterfaceAddr size} : a.compare b = 0 ↔ ¬ a.key < b.key := by
  by_cases h : a.key < b.key
  · exact iff_of_false (by rw [compare_of_lt h]; decide) (not_not.2 h)
  · exact iff_of_true (compare_of_not_lt h) h

theorem eq_iff {a b : InterfaceAddr size} : a.eq b = true ↔ ¬ a.key < b.key := by
  rw [eq, beq_iff_eq, compare_eq_zero_iff]

theorem firstByLess : FirstByLess key (fun _ : InterfaceAddr size ↦ ()) compare eq lt where
  ext _ _ h _ := key_inj.1 h
  compare_of_lt h := compare_of_lt h
  compare_of_not_lt h := (compare_of_not_lt h).trans (threeWay_self ()).symm
  eq_iff _ _ := eq_iff.trans (and_iff_left rfl).symm
  lt_iff _ _ := decide_eq_true_iff

end InterfaceAddr

/-! ### Transport addresses -/

namespace Ipv4

/-- `ipv4::interface_addr`. -/
abbrev InterfaceAddr := Libk2.InterfaceAddr 4

/-- `ipv4::transport_addr`. -/
@[ext]
structure TransportAddr where
  ifAddr : InterfaceAddr
  port : UInt16
deriving DecidableEq

namespace TransportAddr

/-- `transport_addr::compare`. -/
def compare (lhs rhs : TransportAddr) : ℤ :=
  if lhs.ifAddr.compare rhs.ifAddr > 0 then 1
  else if lhs.ifAddr.compare rhs.ifAddr < 0 then -1
  else if lhs.port > rhs.port then 1
  else if lhs.port < rhs.port then -1
  else 0

/-- `operator==`, which does not use `transport_addr::compare`. -/
def eq (lhs rhs : TransportAddr) : Bool := lhs.ifAddr.eq rhs.ifAddr && lhs.port == rhs.port

/-- `operator<`. -/
def lt (lhs rhs : TransportAddr) : Bool := lhs.compare rhs < 0

theorem firstByLess :
    FirstByLess (fun a : TransportAddr ↦ a.ifAddr.key) (fun a ↦ a.port.toNat) compare eq lt where
  ext _ _ h h' := TransportAddr.ext (InterfaceAddr.key_inj.1 h) (UInt16.toNat_inj.1 h')
  compare_of_lt h := by
    rw [compare, InterfaceAddr.compare_of_lt h]
    rfl
  compare_of_not_lt h := by
    rw [compare, InterfaceAddr.compare_of_not_lt h]
    simp only [threeWay, gt_iff_lt, UInt16.lt_iff_toNat_lt, lt_irrefl, if_false]
  eq_iff _ _ := by
    rw [eq, Bool.and_eq_true, InterfaceAddr.eq_iff, beq_iff_eq, UInt16.toNat_inj]
  lt_iff _ _ := decide_eq_true_iff

end TransportAddr

end Ipv4

namespace Ipv6

/-- `ipv6::interface_addr`. -/
abbrev InterfaceAddr := Libk2.InterfaceAddr 16

/-- `ipv6::transport_addr`. -/
@[ext]
structure TransportAddr where
  ifAddr : InterfaceAddr
  port : UInt16
  mFlowinfo : UInt32
  scopeId : UInt32
deriving DecidableEq

namespace TransportAddr

/-- `transport_addr::flowinfo`, of a constant address. -/
def flowinfo (a : TransportAddr) : UInt32 := a.mFlowinfo &&& 0x000fffff

/-- `transport_addr::compare`. -/
def compare (lhs rhs : TransportAddr) : ℤ :=
  if lhs.ifAddr.compare rhs.ifAddr > 0 then 1
  else if lhs.ifAddr.compare rhs.ifAddr < 0 then -1
  else if lhs.port > rhs.port then 1
  else if lhs.port < rhs.port then -1
  else if lhs.mFlowinfo &&& 0x000fffff > rhs.flowinfo then 1
  -- the left operand is not masked here
  else if lhs.mFlowinfo < rhs.flowinfo then -1
  else if lhs.scopeId > rhs.scopeId then 1
  else if lhs.scopeId < rhs.scopeId then -1
  else 0

/-- `operator==`. -/
def eq (lhs rhs : TransportAddr) : Bool := lhs.compare rhs == 0

/-- `operator<`. -/
def lt (lhs rhs : TransportAddr) : Bool := lhs.compare rhs < 0

/-- The flow information is within its 20 bits. -/
def LowFlow (a : TransportAddr) : Prop := a.mFlowinfo.toNat < 2 ^ 20

/-- What is compared after the interface address. -/
def rest (a : TransportAddr) : ℕ ×ₗ ℕ ×ₗ ℕ :=
  toLex (a.port.toNat, toLex (a.mFlowinfo.toNat, a.scopeId.toNat))

theorem LowFlow.flowinfo_eq {a : TransportAddr} (h : a.LowFlow) : a.flowinfo = a.mFlowinfo := by
  refine UInt32.toNat_inj.1 ?_
  rw [flowinfo, UInt32.toNat_and]
  exact (Nat.and_two_pow_sub_one_eq_mod _ 20).trans (Nat.mod_eq_of_lt h)

theorem compare_of_lt {a b : TransportAddr} (h : a.ifAddr.key < b.ifAddr.key) :
    a.compare b = 1 := by
  rw [compare, InterfaceAddr.compare_of_lt h]
  rfl

theorem compare_of_not_lt {a b : TransportAddr} (h : ¬ a.ifAddr.key < b.ifAddr.key)
    (ha : a.LowFlow) (hb : b.LowFlow) : a.compare b = threeWay a.rest b.rest := by
  have hmask : a.mFlowinfo &&& 0x000fffff = a.mFlowinfo := ha.flowinfo_eq
  rw [compare, InterfaceAddr.compare_of_not_lt h, hmask, hb.flowinfo_eq, rest, rest,
    threeWay_toLex, threeWay_toLex]
  simp only [threeWay, gt_iff_lt, UInt16.lt_iff_toNat_lt, UInt32.lt_iff_toNat_lt, lt_irrefl,
    if_false]

theorem eq_iff {a b : TransportAddr} (ha : a.LowFlow) (hb : b.LowFlow) :
    a.eq b = true ↔ ¬ a.ifAddr.key < b.ifAddr.key ∧ a.rest = b.rest := by
  by_cases h : a.ifAddr.key < b.ifAddr.key
  · simp [eq, compare_of_lt h, h]
  · simp [eq, compare_of_not_lt h ha hb, h, threeWay_eq_zero_iff]

theorem eq_of_rest_eq {a b : TransportAddr} (h : a.ifAddr.key = b.ifAddr.key)
    (h' : a.rest = b.rest) : a = b := by
  simp only [rest, toLex_inj, Prod.mk.injEq] at h'
  exact TransportAddr.ext (InterfaceAddr.key_inj.1 h) (UInt16.toNat_inj.1 h'.1)
    (UInt32.toNat_inj.1 h'.2.1) (UInt32.toNat_inj.1 h'.2.2)

theorem firstByLess : FirstByLess (fun a : {a : TransportAddr // a.LowFlow} ↦ a.1.ifAddr.key)
    (fun a ↦ a.1.rest) (fun a b ↦ a.1.compare b.1) (fun a b ↦ a.1.eq b.1)
    (fun a b ↦ a.1.lt b.1) where
  ext _ _ h h' := Subtype.ext (eq_of_rest_eq h h')
  compare_of_lt h := compare_of_lt h
  compare_of_not_lt {a b} h := compare_of_not_lt h a.2 b.2
  eq_iff a b := eq_iff a.2 b.2
  lt_iff _ _ := decide_eq_true_iff

end TransportAddr

end Ipv6

/-! ### When the comparisons are total orders -/

/-- The address types. -/
inductive AddrType
  | ipv4Interface
  | ipv6Interface
  | ipv4Transport
  | ipv6Transport

namespace AddrType

/-- The addresses of a type. -/
abbrev Addr : AddrType → Type
  | ipv4Interface => Ipv4.InterfaceAddr
  | ipv6Interface => Ipv6.InterfaceAddr
  | ipv4Transport => Ipv4.TransportAddr
  | ipv6Transport => {a : Ipv6.TransportAddr // a.LowFlow}

/-- `compare`, of each type. -/
def compare : ∀ type : AddrType, type.Addr → type.Addr → ℤ
  | ipv4Interface => InterfaceAddr.compare
  | ipv6Interface => InterfaceAddr.compare
  | ipv4Transport => Ipv4.TransportAddr.compare
  | ipv6Transport => fun a b ↦ a.1.compare b.1

/-- `operator==`, of each type. -/
def eq : ∀ type : AddrType, type.Addr → type.Addr → Bool
  | ipv4Interface => InterfaceAddr.eq
  | ipv6Interface => InterfaceAddr.eq
  | ipv4Transport => Ipv4.TransportAddr.eq
  | ipv6Transport => fun a b ↦ a.1.eq b.1

/-- `operator<`, of each type. -/
def lt : ∀ type : AddrType, type.Addr → type.Addr → Bool
  | ipv4Interface => InterfaceAddr.lt
  | ipv6Interface => InterfaceAddr.lt
  | ipv4Transport => Ipv4.TransportAddr.lt
  | ipv6Transport => fun a b ↦ a.1.lt b.1

/-- Interface addresses are equal. Transport addresses have equal interface addresses, or these are
the other way round than the other fields. -/
def Opposed : ∀ type : AddrType, type.Addr → type.Addr → Prop
  | ipv4Interface => fun a b ↦ a = b
  | ipv6Interface => fun a b ↦ a = b
  | ipv4Transport => fun a b ↦ a.ifAddr = b.ifAddr ∨
      a.ifAddr.key < b.ifAddr.key ∧ b.port < a.port ∨
      b.ifAddr.key < a.ifAddr.key ∧ a.port < b.port
  | ipv6Transport => fun a b ↦ a.1.ifAddr = b.1.ifAddr ∨
      a.1.ifAddr.key < b.1.ifAddr.key ∧ b.1.rest < a.1.rest ∨
      b.1.ifAddr.key < a.1.ifAddr.key ∧ a.1.rest < b.1.rest

/-- **The laws** of a total order hold of two addresses exactly if they are opposed. -/
theorem addr_compareLaws_iff (type : AddrType) (a b c : type.Addr) :
    CompareLaws type.compare type.eq type.lt a b c ↔ type.Opposed a b := by
  have hinterface : ∀ {size : ℕ} (a b c : InterfaceAddr size),
      CompareLaws InterfaceAddr.compare InterfaceAddr.eq InterfaceAddr.lt a b c ↔ a = b := by
    intro size a b c
    rw [InterfaceAddr.firstByLess.compareLaws_iff, InterfaceAddr.key_inj]
    simp
  cases type with
  | ipv4Interface => exact hinterface a b c
  | ipv6Interface => exact hinterface a b c
  | ipv4Transport =>
    exact (Ipv4.TransportAddr.firstByLess.compareLaws_iff a b c).trans
      (or_congr_left InterfaceAddr.key_inj)
  | ipv6Transport =>
    exact (Ipv6.TransportAddr.firstByLess.compareLaws_iff a b c).trans
      (or_congr_left InterfaceAddr.key_inj)

/-- `127.0.0.1` and `127.0.0.2`: neither order of the two gives a negative number. -/
theorem compare_never_negative :
    ¬ ∀ (type : AddrType) (a b c : type.Addr),
      CompareLaws type.compare type.eq type.lt a b c := by
  intro h
  have hsign := (h .ipv4Interface ⟨[127, 0, 0, 1], rfl⟩ ⟨[127, 0, 0, 2], rfl⟩
    ⟨[127, 0, 0, 1], rfl⟩).sign_compare
  exact absurd hsign (by decide)

end AddrType

end Libk2
