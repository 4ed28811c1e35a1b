import Libk2.Net.Addr
import Libk2.Net.ByteOrder

/-!
# Addresses and the BSD structures

The conversions of `transport_addr` to and from `sockaddr_in` and `sockaddr_in6`, on a little-endian
host. An address goes over byte by byte, a port, a flow information and a scope id through
`net_conv`, which puts the most significant byte first and undoes itself (`addresses_survive`).

An `ipv6::transport_addr` keeps all 32 bits of its flow information, of which 20 count, and every
use masks them again. One does not: the second comparison in `compare`. What it takes for the upper
bits to show is that this comparison decides (`indistinguishable_iff`).
-/

namespace Libk2

/-! ### The BSD structures -/

/-- `net_conv` of a `host16_t`. -/
def netConv16 (v : UInt16) : UInt16 := .ofNat (netConv .two v.toNat)

/-- `net_conv` of a `host32_t`. -/
def netConv32 (v : UInt32) : UInt32 := .ofNat (netConv .four v.toNat)

/-- `in_addr`. -/
@[ext]
structure InAddr where
  sAddr : UInt32
deriving DecidableEq

/-- `in6_addr`. -/
@[ext]
structure In6Addr where
  s6Addr : List UInt8
  length_eq : s6Addr.length = 16
deriving DecidableEq

/-- `sockaddr_in`. -/
@[ext]
structure SockaddrIn where
  sinFamily : UInt16
  sinPort : UInt16
  sinAddr : InAddr
deriving DecidableEq

/-- `sockaddr_in6`. -/
@[ext]
structure SockaddrIn6 where
  sin6Family : UInt16
  sin6Port : UInt16
  sin6Flowinfo : UInt32
  sin6Addr : In6Addr
  sin6ScopeId : UInt32
deriving DecidableEq

/-- A field in network byte order: its first byte is the most significant one of the value. -/
def NetworkOrder (size : IntSize) (field value : ℕ) : Prop :=
  ∀ i < size.bytes, byteAt field i = byteAt value (size.bytes - 1 - i)

/-- `AF_INET`. -/
def afInet : UInt16 := 2

/-- `AF_INET6`. -/
def afInet6 : UInt16 := 10

/-! ### `ipv4` -/

namespace Ipv4

/-- `interface_addr`, from an `in_addr`. -/
def ofInAddr (bsdIfAddr : InAddr) : InterfaceAddr where
  data := objectBytes 4 bsdIfAddr.sAddr.toNat
  length_eq := length_objectBytes _ _

/-- `interface_addr::operator const in_addr`. -/
def toInAddr (a : InterfaceAddr) : InAddr := ⟨.ofNat (objectValue a.data)⟩

namespace TransportAddr

/-- `transport_addr`, from a `sockaddr_in`. -/
def ofSockaddrIn (bsdTpAddr : SockaddrIn) : TransportAddr where
  ifAddr := ofInAddr bsdTpAddr.sinAddr
  port := netConv16 bsdTpAddr.sinPort

/-- `transport_addr::operator const sockaddr_in`. -/
def toSockaddrIn (a : TransportAddr) : SockaddrIn where
  sinFamily := afInet
  sinAddr := toInAddr a.ifAddr
  sinPort := netConv16 a.port

/-- The structure says what the address does, the port in network byte order. -/
structure Encoded (a : TransportAddr) (s : SockaddrIn) : Prop where
  family : s.sinFamily = afInet
  addr : objectBytes 4 s.sinAddr.sAddr.toNat = a.ifAddr.data
  port : NetworkOrder .two s.sinPort.toNat a.port.toNat

end TransportAddr

end Ipv4

/-! ### `ipv6` -/

namespace Ipv6

/-- `interface_addr`, from an `in6_addr`. -/
def ofIn6Addr (bsdIfAddr : In6Addr) : InterfaceAddr := ⟨bsdIfAddr.s6Addr, bsdIfAddr.length_eq⟩

/-- `interface_addr::operator const in6_addr`. -/
def toIn6Addr (a : InterfaceAddr) : In6Addr := ⟨a.data, a.length_eq⟩

/-- The `i`th `uint32_t` of the bytes of an `interface_addr`. -/
def word (a : InterfaceAddr) (i : ℕ) : UInt32 := .ofNat (objectValue ((a.data.drop (4 * i)).take 4))

/-- `interface_addr::hash`. -/
def hashInterface (a : InterfaceAddr) : UInt32 := (word a 0 ^^^ word a 1) + (word a 2 ^^^ word a 3)

namespace TransportAddr

/-- `transport_addr`, from a `sockaddr_in6`. -/
def ofSockaddrIn6 (bsdTpAddr : SockaddrIn6) : TransportAddr where
  ifAddr := ofIn6Addr bsdTpAddr.sin6Addr
  port := netConv16 bsdTpAddr.sin6Port
  mFlowinfo := netConv32 bsdTpAddr.sin6Flowinfo
  scopeId := netConv32 bsdTpAddr.sin6ScopeId

/-- `transport_addr::operator const sockaddr_in6`. -/
def toSockaddrIn6 (a : TransportAddr) : SockaddrIn6 where
  sin6Family := afInet6
  sin6Addr := toIn6Addr a.ifAddr
  sin6Port := netConv16 a.port
  sin6Flowinfo := netConv32 (a.mFlowinfo &&& 0x000fffff)
  sin6ScopeId := netConv32 a.scopeId

/-- The structure says what the address does, the numbers in network byte order. -/
structure Encoded (a : TransportAddr) (s : SockaddrIn6) : Prop where
  family : s.sin6Family = afInet6
  addr : s.sin6Addr.s6Addr = a.ifAddr.data
  port : NetworkOrder .two s.sin6Port.toNat a.port.toNat
  flowinfo : NetworkOrder .four s.sin6Flowinfo.toNat a.mFlowinfo.toNat
  scopeId : NetworkOrder .four s.sin6ScopeId.toNat a.scopeId.toNat

/-- `transport_addr::hash`. -/
def hash (a : TransportAddr) : UInt32 :=
  hashInterface a.ifAddr ^^^ ((a.mFlowinfo &&& 0x000fffff) <<< 6 ^^^ a.scopeId)

/-- `operator!=`. -/
def ne (lhs rhs : TransportAddr) : Bool := !lhs.eq rhs

end TransportAddr

end Ipv6

/-- The flow information is below `2 ^ 20` in host order: of its bytes, the most significant first,
the first one is zero, and so is the upper half of the second. -/
def SockaddrIn6.LowFlow (s : SockaddrIn6) : Prop :=
  byteAt s.sin6Flowinfo.toNat 0 = 0 ∧ byteAt s.sin6Flowinfo.toNat 1 < 16

instance (s : SockaddrIn6) : Decidable s.LowFlow := inferInstanceAs (Decidable (_ ∧ _))

/-! ### There and back -/

theorem toNat_netConv16 (v : UInt16) : (netConv16 v).toNat = netConv .two v.toNat :=
  UInt16.toNat_ofNat_of_lt' (netConv_lt .two v.toNat)

theorem toNat_netConv32 (v : UInt32) : (netConv32 v).toNat = netConv .four v.toNat :=
  UInt32.toNat_ofNat_of_lt' (netConv_lt .four v.toNat)

theorem networkOrder_netConv16 (v : UInt16) : NetworkOrder .two (netConv16 v).toNat v.toNat := by
  intro i hi
  rw [toNat_netConv16]
  exact byteAt_netConv hi

theorem networkOrder_netConv32 (v : UInt32) : NetworkOrder .four (netConv32 v).toNat v.toNat := by
  intro i hi
  rw [toNat_netConv32]
  exact byteAt_netConv hi

@[simp] theorem netConv16_netConv16 (v : UInt16) : netConv16 (netConv16 v) = v := by
  rw [← UInt16.toNat_inj, toNat_netConv16, toNat_netConv16]
  exact netConv_netConv v.toNat_lt

@[simp] theorem netConv32_netConv32 (v : UInt32) : netConv32 (netConv32 v) = v := by
  rw [← UInt32.toNat_inj, toNat_netConv32, toNat_netConv32]
  exact netConv_netConv v.toNat_lt

namespace Ipv4

@[simp] theorem ofInAddr_toInAddr (a : InterfaceAddr) : ofInAddr (toInAddr a) = a := by
  have hlt := objectValue_lt a.data
  have hbytes := objectBytes_objectValue a.data
  rw [a.length_eq] at hlt hbytes
  refine InterfaceAddr.ext ?_
  show objectBytes 4 (UInt32.ofNat (objectValue a.data)).toNat = a.data
  rw [UInt32.toNat_ofNat_of_lt' hlt, hbytes]

@[simp] theorem toInAddr_ofInAddr (b : InAddr) : toInAddr (ofInAddr b) = b := by
  have hvalue : objectValue (objectBytes 4 b.sAddr.toNat) = b.sAddr.toNat :=
    objectValue_objectBytes b.sAddr.toNat_lt
  rw [toInAddr, ofInAddr, hvalue, UInt32.ofNat_toNat]

namespace TransportAddr

theorem ofSockaddrIn_toSockaddrIn (a : TransportAddr) : ofSockaddrIn a.toSockaddrIn = a := by
  rw [ofSockaddrIn, toSockaddrIn, ofInAddr_toInAddr, netConv16_netConv16]

theorem toSockaddrIn_ofSockaddrIn {s : SockaddrIn} (h : s.sinFamily = afInet) :
    (ofSockaddrIn s).toSockaddrIn = s := by
  rw [toSockaddrIn, ofSockaddrIn, toInAddr_ofInAddr, netConv16_netConv16, ← h]

theorem encoded_toSockaddrIn (a : TransportAddr) : a.Encoded a.toSockaddrIn where
  family := rfl
  addr := congrArg Libk2.InterfaceAddr.data (ofInAddr_toInAddr a.ifAddr)
  port := networkOrder_netConv16 a.port

end TransportAddr

end Ipv4

namespace Ipv6.TransportAddr

theorem ofSockaddrIn6_toSockaddrIn6 {a : TransportAddr} (h : a.LowFlow) :
    ofSockaddrIn6 a.toSockaddrIn6 = a := by
  have hmask : a.mFlowinfo &&& 0x000fffff = a.mFlowinfo := h.flowinfo_eq
  rw [ofSockaddrIn6, toSockaddrIn6, hmask, netConv16_netConv16, netConv32_netConv32,
    netConv32_netConv32]
  rfl

theorem encoded_toSockaddrIn6 {a : TransportAddr} (h : a.LowFlow) : a.Encoded a.toSockaddrIn6 where
  family := rfl
  addr := rfl
  port := networkOrder_netConv16 a.port
  flowinfo := by
    have hmask : a.mFlowinfo &&& 0x000fffff = a.mFlowinfo := h.flowinfo_eq
    rw [toSockaddrIn6, hmask]
    exact networkOrder_netConv32 a.mFlowinfo
  scopeId := networkOrder_netConv32 a.scopeId

/-- The bytes that have to be zero are the most significant ones. -/
theorem lowFlow_ofSockaddrIn6 {s : SockaddrIn6} (h : s.LowFlow) : (ofSockaddrIn6 s).LowFlow := by
  have hflow : NetworkOrder .four (netConv32 s.sin6Flowinfo).toNat s.sin6Flowinfo.toNat :=
    networkOrder_netConv32 s.sin6Flowinfo
  have hfirst := hflow 3 (by decide)
  have hsecond := hflow 2 (by decide)
  have hlt := (netConv32 s.sin6Flowinfo).toNat_lt
  obtain ⟨hzero, hhalf⟩ := h
  simp only [IntSize.bytes, byteAt] at hfirst hsecond hzero hhalf
  show (netConv32 s.sin6Flowinfo).toNat < 2 ^ 20
  omega

theorem toSockaddrIn6_ofSockaddrIn6 {s : SockaddrIn6} (hfamily : s.sin6Family = afInet6)
    (hflow : s.LowFlow) : (ofSockaddrIn6 s).toSockaddrIn6 = s := by
  have hmask : netConv32 s.sin6Flowinfo &&& 0x000fffff = netConv32 s.sin6Flowinfo :=
    (lowFlow_ofSockaddrIn6 hflow).flowinfo_eq
  rw [toSockaddrIn6, ofSockaddrIn6, hmask, netConv16_netConv16, netConv32_netConv32,
    netConv32_netConv32, ← hfamily]
  rfl

end Ipv6.TransportAddr

/-- **Addresses survive** the conversion to the BSD structures and back, and the structures the
conversion to addresses. In the structures the numbers are in network byte order. -/
theorem addresses_survive :
    (∀ a : Ipv4.TransportAddr, a.Encoded a.toSockaddrIn ∧ .ofSockaddrIn a.toSockaddrIn = a) ∧
    (∀ s : SockaddrIn, s.sinFamily = afInet →
      (Ipv4.TransportAddr.ofSockaddrIn s).Encoded s ∧
        (Ipv4.TransportAddr.ofSockaddrIn s).toSockaddrIn = s) ∧
    (∀ a : Ipv6.TransportAddr, a.mFlowinfo.toNat < 2 ^ 20 →
      a.Encoded a.toSockaddrIn6 ∧ .ofSockaddrIn6 a.toSockaddrIn6 = a) ∧
    ∀ s : SockaddrIn6, s.sin6Family = afInet6 → s.LowFlow →
      (Ipv6.TransportAddr.ofSockaddrIn6 s).Encoded s ∧
        (Ipv6.TransportAddr.ofSockaddrIn6 s).toSockaddrIn6 = s := by
  refine ⟨fun a ↦ ⟨a.encoded_toSockaddrIn, a.ofSockaddrIn_toSockaddrIn⟩, fun s hfamily ↦ ?_,
    fun a hflow ↦ ?_, fun s hfamily hflow ↦ ?_⟩
  · have hback := Ipv4.TransportAddr.toSockaddrIn_ofSockaddrIn hfamily
    have hencoded := (Ipv4.TransportAddr.ofSockaddrIn s).encoded_toSockaddrIn
    rw [hback] at hencoded
    exact ⟨hencoded, hback⟩
  · exact ⟨Ipv6.TransportAddr.encoded_toSockaddrIn6 hflow,
      Ipv6.TransportAddr.ofSockaddrIn6_toSockaddrIn6 hflow⟩
  · have hback := Ipv6.TransportAddr.toSockaddrIn6_ofSockaddrIn6 hfamily hflow
    have hencoded := Ipv6.TransportAddr.encoded_toSockaddrIn6
      (Ipv6.TransportAddr.lowFlow_ofSockaddrIn6 hflow)
    rw [hback] at hencoded
    exact ⟨hencoded, hback⟩

/-- `127.0.0.1:80`. The port is the bytes 0 and 80, which makes 20480 on this host. -/
def localhost80 : SockaddrIn := ⟨afInet, 20480, ⟨16777343⟩⟩

/-- Port 80 on some host, with a flow information of three bytes and scope id 3. -/
def someHost : SockaddrIn6 := ⟨afInet6, 20480, 0x67450200, ⟨List.replicate 16 1, rfl⟩, 0x03000000⟩

theorem addresses_survive_localhost :
    (Ipv4.TransportAddr.ofSockaddrIn localhost80).port = 80 ∧
      (Ipv4.TransportAddr.ofSockaddrIn localhost80).toSockaddrIn = localhost80 ∧
      (Ipv6.TransportAddr.ofSockaddrIn6 someHost).mFlowinfo = 0x00024567 ∧
      (Ipv6.TransportAddr.ofSockaddrIn6 someHost).toSockaddrIn6 = someHost ∧
      Ipv6.TransportAddr.ofSockaddrIn6
        (Ipv6.TransportAddr.ofSockaddrIn6 someHost).toSockaddrIn6 = .ofSockaddrIn6 someHost :=
  ⟨by decide, (addresses_survive.2.1 localhost80 rfl).2, by decide,
    (addresses_survive.2.2.2 someHost rfl (by decide)).2,
    (addresses_survive.2.2.1 (.ofSockaddrIn6 someHost) (by decide)).2⟩

/-! ### The upper bits of the flow information -/

namespace Ipv6.TransportAddr

/-- The same address, but for the upper 12 bits of the flow information. -/
structure SameButHighFlow (a b : TransportAddr) : Prop where
  ifAddr_eq : a.ifAddr = b.ifAddr
  port_eq : a.port = b.port
  flow_eq : a.mFlowinfo &&& 0x000fffff = b.mFlowinfo &&& 0x000fffff
  scopeId_eq : a.scopeId = b.scopeId

/-- Nothing tells `a` from `b`: not the comparison with `c`, nor the hash, nor an accessor, nor the
conversion. -/
structure Indistinguishable (a b c : TransportAddr) : Prop where
  compare_left : a.compare c = b.compare c
  compare_right : c.compare a = c.compare b
  eq_left : a.eq c = b.eq c
  eq_right : c.eq a = c.eq b
  ne_left : a.ne c = b.ne c
  ne_right : c.ne a = c.ne b
  lt_left : a.lt c = b.lt c
  lt_right : c.lt a = c.lt b
  hash : a.hash = b.hash
  ifAddr : a.ifAddr = b.ifAddr
  port : a.port = b.port
  flowinfo : a.flowinfo = b.flowinfo
  scopeId : a.scopeId = b.scopeId
  sockaddr : a.toSockaddrIn6 = b.toSockaddrIn6

/-- The bytes of the interface address of `a` do not come before those of `c` in the lexicographic
order, the ports are equal, and in its low 20 bits the flow information of `a` is less. -/
structure LessByFlow (a c : TransportAddr) : Prop where
  ifAddr : ¬ a.ifAddr.key < c.ifAddr.key
  port : a.port = c.port
  flowinfo : a.mFlowinfo.toNat % 2 ^ 20 < c.mFlowinfo.toNat % 2 ^ 20

/-- Only one of `a` and `b` has upper bits, they are less than `c` by their flow information, and
they would not be by their scope id. -/
def HighFlowShows (a b c : TransportAddr) : Prop :=
  LessByFlow a c ∧ ¬ a.scopeId < c.scopeId ∧ ¬ (a.LowFlow ↔ b.LowFlow)

instance (a : TransportAddr) : Decidable a.LowFlow :=
  inferInstanceAs (Decidable (a.mFlowinfo.toNat < 2 ^ 20))

variable {a b c : TransportAddr}

theorem toNat_flowinfo (a : TransportAddr) : a.flowinfo.toNat = a.mFlowinfo.toNat % 2 ^ 20 := by
  rw [flowinfo, UInt32.toNat_and]
  exact Nat.and_two_pow_sub_one_eq_mod _ 20

/-- What `compare` makes of it. -/
theorem lessByFlow_iff_compare : LessByFlow a c ↔
    a.ifAddr.compare c.ifAddr = 0 ∧ a.port = c.port ∧ a.flowinfo < c.flowinfo := by
  rw [InterfaceAddr.compare_eq_zero_iff, UInt32.lt_iff_toNat_lt, toNat_flowinfo, toNat_flowinfo]
  exact ⟨fun h ↦ ⟨h.ifAddr, h.port, h.flowinfo⟩, fun ⟨hif, hport, hflow⟩ ↦ ⟨hif, hport, hflow⟩⟩

/-- Unmasked, a value with upper bits is never less. -/
theorem mFlowinfo_lt_iff : a.mFlowinfo < c.flowinfo ↔ a.LowFlow ∧ a.flowinfo < c.flowinfo := by
  have hc := toNat_flowinfo c
  have hlt : c.mFlowinfo.toNat % 2 ^ 20 < 2 ^ 20 := Nat.mod_lt _ (by decide)
  constructor
  · intro h
    have hlow : a.LowFlow := by
      rw [UInt32.lt_iff_toNat_lt] at h
      rw [LowFlow]
      omega
    exact ⟨hlow, hlow.flowinfo_eq.symm ▸ h⟩
  · rintro ⟨hlow, h⟩
    rwa [hlow.flowinfo_eq] at h

/-- The end of `compare`. -/
def compareScope (a c : TransportAddr) : ℤ :=
  if a.scopeId > c.scopeId then 1 else if a.scopeId < c.scopeId then -1 else 0

theorem compareScope_eq_neg_one_iff : compareScope a c = -1 ↔ a.scopeId < c.scopeId := by
  rw [compareScope]
  split_ifs with hgt hlt
  · exact iff_of_false (by decide) (UInt32.lt_asymm hgt)
  · exact iff_of_true rfl hlt
  · exact iff_of_false (by decide) hlt

/-- With upper bits in `a`, being less by the flow information does not count. -/
theorem LessByFlow.compare_eq (h : LessByFlow a c) :
    a.compare c = if a.LowFlow then -1 else compareScope a c := by
  obtain ⟨hif, hport, hflow⟩ := lessByFlow_iff_compare.1 h
  have hnot : ¬ a.mFlowinfo &&& 0x000fffff > c.flowinfo :=
    UInt32.not_lt.2 (UInt32.le_of_lt hflow)
  rw [compare, compareScope, hif, hport]
  simp only [gt_iff_lt, lt_irrefl, if_false, UInt16.lt_irrefl, mFlowinfo_lt_iff, hflow, and_true]
  rw [if_neg hnot]

namespace SameButHighFlow

variable (h : SameButHighFlow a b)

include h

theorem flowinfo_eq : a.flowinfo = b.flowinfo := h.flow_eq

theorem lessByFlow_iff : LessByFlow a c ↔ LessByFlow b c := by
  rw [lessByFlow_iff_compare, lessByFlow_iff_compare, h.ifAddr_eq, h.port_eq, h.flowinfo_eq]

theorem compare_right (c : TransportAddr) : c.compare a = c.compare b := by
  rw [compare, compare, h.ifAddr_eq, h.port_eq, h.flowinfo_eq, h.scopeId_eq]

/-- Where the flow information does not decide, one of the tests before does, or both go on. -/
theorem compare_left_of_not (hnot : ¬ LessByFlow a c) : a.compare c = b.compare c := by
  have hsame : b.ifAddr.compare c.ifAddr ≠ 0 ∨ b.port ≠ c.port ∨
      (a.mFlowinfo < c.flowinfo ↔ b.mFlowinfo < c.flowinfo) := by
    by_contra! hdecides
    obtain ⟨hif, hport, hflow⟩ := hdecides
    rw [h.lessByFlow_iff, lessByFlow_iff_compare] at hnot
    have hlt : ¬ b.flowinfo < c.flowinfo := fun hlt ↦ hnot ⟨hif, hport, hlt⟩
    rw [mFlowinfo_lt_iff, mFlowinfo_lt_iff, h.flowinfo_eq] at hflow
    simp [hlt] at hflow
  rw [compare, compare, h.ifAddr_eq, h.port_eq, h.flow_eq, h.scopeId_eq]
  rcases hsame with hif | hport | hflow
  · rcases lt_or_gt_of_ne hif with hlt | hgt
    · rw [if_neg hlt.not_gt, if_pos hlt, if_neg hlt.not_gt, if_pos hlt]
    · rw [if_pos hgt, if_pos hgt]
  · rcases UInt16.lt_or_lt_of_ne hport with hlt | hgt
    · simp only [gt_iff_lt, hlt, UInt16.lt_asymm hlt, if_true, if_false]
    · simp only [gt_iff_lt, hgt, if_true]
  · simp only [hflow]

theorem compare_left_iff : a.compare c = b.compare c ↔ ¬ HighFlowShows a b c := by
  by_cases hless : LessByFlow a c
  · have hscope : compareScope b c = compareScope a c := by
      rw [compareScope, compareScope, h.scopeId_eq]
    rw [hless.compare_eq, (h.lessByFlow_iff.1 hless).compare_eq, hscope, HighFlowShows,
      and_iff_right hless, ← compareScope_eq_neg_one_iff, not_and_or, not_not, not_not]
    -- one of the two is less, and the other is what its scope id makes it
    by_cases ha : a.LowFlow <;> by_cases hb : b.LowFlow
    · simp [ha, hb]
    · simp [ha, hb, eq_comm]
    · simp [ha, hb]
    · simp [ha, hb]
  · exact iff_of_true (h.compare_left_of_not hless) fun hshows ↦ hless hshows.1

end SameButHighFlow

/-- **The upper bits of the flow information** are invisible exactly if the flow information does
not decide the comparison in a way that the scope id would not. -/
theorem indistinguishable_iff (h : SameButHighFlow a b) (c : TransportAddr) :
    Indistinguishable a b c ↔ ¬ HighFlowShows a b c := by
  rw [← h.compare_left_iff]
  refine ⟨Indistinguishable.compare_left, fun hleft ↦ ?_⟩
  have hright := h.compare_right c
  have heq : a.eq c = b.eq c ∧ c.eq a = c.eq b := by
    rw [eq, eq, eq, eq, hleft, hright]
    exact ⟨rfl, rfl⟩
  refine ⟨hleft, hright, heq.1, heq.2, ?_, ?_, ?_, ?_, ?_, h.ifAddr_eq, h.port_eq, h.flowinfo_eq,
    h.scopeId_eq, ?_⟩
  · rw [ne, ne, heq.1]
  · rw [ne, ne, heq.2]
  · rw [lt, lt, hleft]
  · rw [lt, lt, hright]
  · rw [hash, hash, h.ifAddr_eq, h.flow_eq, h.scopeId_eq]
  · rw [toSockaddrIn6, toSockaddrIn6, h.ifAddr_eq, h.port_eq, h.flow_eq, h.scopeId_eq]

/-- The address `::`, port 0, with a flow information and a scope id. -/
def unspecified (mFlowinfo scopeId : UInt32) : TransportAddr :=
  ⟨⟨List.replicate 16 0, rfl⟩, 0, mFlowinfo, scopeId⟩

/-- Upper bits are invisible next to an address of the same flow information. -/
theorem indistinguishable_unspecified :
    Indistinguishable (unspecified 7 0) (unspecified 0x00100007 0) (unspecified 7 3) := by
  have hsame : SameButHighFlow (unspecified 7 0) (unspecified 0x00100007 0) :=
    ⟨rfl, rfl, by decide, rfl⟩
  refine (indistinguishable_iff hsame (unspecified 7 3)).2 fun hshows ↦ ?_
  exact absurd hshows.1.flowinfo (by decide)

/-- **Stray bits show.** Of two addresses that differ in them, one is less than a third address and
one is not. -/
theorem stray_bits_show : ¬ ∀ a b c : TransportAddr, SameButHighFlow a b →
    Indistinguishable a b c := by
  intro hall
  have hleft := (hall (unspecified 0 0) (unspecified 0x00100000 0) (unspecified 1 0)
    ⟨rfl, rfl, by decide, rfl⟩).compare_left
  exact absurd hleft (by decide)

end Ipv6.TransportAddr

end Libk2
