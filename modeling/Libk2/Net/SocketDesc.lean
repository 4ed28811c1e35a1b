import Libk2.Foundation.StepSystem
import Mathlib.Logic.Function.Basic
import Mathlib.Data.Int.Notation

/-!
# Socket descriptors and the wrappers around them

A `socket_desc` holds a descriptor and the flag `m_own`, which its destructor asks before it closes
the descriptor. `tcp_listener`, `tcp_transport` and `udp_transport` can each be made from a
descriptor that exists already and a flag, and forward the two to their `socket_desc`:
`tcp_transport` as they are, `tcp_listener` with the flag always set, and `udp_transport` not at
all, as it opens a socket of its own.

The system is a process that makes such wrappers and destroys them in any order, next to code that
opens and closes descriptors on its own account. What a step does to the descriptors is a list of
`DescEvent`s, and `SocketSys.asked` is what the flags ask for.
-/

namespace Libk2

open StepSystem

/-! ### `socket_desc` -/

/-- `socket_desc::family_enum`. -/
inductive FamilyEnum
  | ipv4
  | ipv6
deriving DecidableEq

/-- `socket_desc::type_enum`. -/
inductive TypeEnum
  | dgram
  | stream
deriving DecidableEq

/-- What the constructors and destructors do to descriptors. -/
inductive DescEvent
  | opened (family : FamilyEnum) (type : TypeEnum) (desc : ℤ)
  | closed (desc : ℤ)
deriving DecidableEq

/-- The descriptors that are open afterwards. -/
def DescEvent.apply (isOpen : ℤ → Bool) : DescEvent → ℤ → Bool
  | opened _ _ desc => Function.update isOpen desc true
  | closed desc => Function.update isOpen desc false

/-- `socket_desc`. -/
structure SocketDesc where
  mDesc : ℤ
  mOwn : Bool
deriving DecidableEq

namespace SocketDesc

/-- `~socket_desc`. -/
def destroy (s : SocketDesc) : List DescEvent := if s.mOwn then [.closed s.mDesc] else []

/-- `socket_desc::get`. -/
def get (s : SocketDesc) : ℤ := s.mDesc

/-- `socket_desc(family, type)`, where `socket` returns `ret`. No object: `socket_open_error`. -/
def ofType (family : FamilyEnum) (type : TypeEnum) (ret : ℤ) :
    List DescEvent × Option SocketDesc :=
  if ret = -1 then ([], none) else ([.opened family type ret], some ⟨ret, true⟩)

/-- `socket_desc(get, own)`. No object: `socket_open_error`. -/
def ofDesc (get : ℤ) (own : Bool) : List DescEvent × Option SocketDesc :=
  ([], if get = -1 then none else some ⟨get, own⟩)

end SocketDesc

/-! ### The wrappers -/

/-- `tcp_listener(desc, own)`. -/
def TcpListener.ofDesc (desc : ℤ) (_own : Bool) : List DescEvent × Option SocketDesc :=
  SocketDesc.ofDesc desc true

/-- `tcp_transport(tcp_desc, own)`. -/
def TcpTransport.ofDesc (tcpDesc : ℤ) (own : Bool) : List DescEvent × Option SocketDesc :=
  SocketDesc.ofDesc tcpDesc own

/-- `udp_transport(udp_desc, own)`, where `socket` returns `ret`. -/
def UdpTransport.ofDesc (_udpDesc : ℤ) (_own : Bool) (ret : ℤ) :
    List DescEvent × Option SocketDesc :=
  SocketDesc.ofType .ipv4 .dgram ret

/-- The classes that can be made from a descriptor. -/
inductive WrapperClass
  | tcpListener
  | tcpTransport
  | udpTransport
deriving DecidableEq

/-- The constructor of a class, from a descriptor and a flag. -/
def WrapperClass.construct (desc : ℤ) (own : Bool) (ret : ℤ) :
    WrapperClass → List DescEvent × Option SocketDesc
  | tcpListener => TcpListener.ofDesc desc own
  | tcpTransport => TcpTransport.ofDesc desc own
  | udpTransport => UdpTransport.ofDesc desc own ret

/-- A wrapper that lives, and what it was given. -/
structure Wrapper where
  cls : WrapperClass
  desc : ℤ
  own : Bool
  mDesc : SocketDesc
deriving DecidableEq

namespace Wrapper

/-- `get_desc`, of all three classes. -/
def getDesc (w : Wrapper) : ℤ := w.mDesc.get

/-- What the constructor of `w` left in `m_desc`. -/
def Built (w : Wrapper) : Prop :=
  match w.cls with
  | .tcpListener => w.mDesc = ⟨w.desc, true⟩
  | .tcpTransport => w.mDesc = ⟨w.desc, w.own⟩
  | .udpTransport => w.mDesc.mOwn = true

end Wrapper

/-! ### Making and destroying them -/

/-- The descriptors that are open, and the wrappers that live. -/
structure SocketSys where
  isOpen : ℤ → Bool
  wrappers : ℕ → Option Wrapper

/-- A wrapper made from a descriptor and a flag, where `socket`, if called, returns `ret`; a wrapper
destroyed; or any change of the descriptors by other code. -/
inductive SocketAction
  | construct (i : ℕ) (cls : WrapperClass) (desc : ℤ) (own : Bool) (ret : ℤ)
  | destroy (i : ℕ)
  | others (isOpen : ℤ → Bool)

namespace SocketSys

/-- Before any wrapper is made. -/
def start (isOpen : ℤ → Bool) : SocketSys := ⟨isOpen, fun _ ↦ none⟩

/-- What the constructor or destructor does to the descriptors. -/
def events (s : SocketSys) : SocketAction → List DescEvent
  | .construct _ cls desc own ret => (cls.construct desc own ret).1
  | .destroy i => ((s.wrappers i).map fun w ↦ w.mDesc.destroy).getD []
  | .others _ => []

/-- A wrapper is made from a descriptor that is open, and `socket` returns one that is not. -/
def step (s : SocketSys) (a : SocketAction) : Option SocketSys :=
  let isOpen := (s.events a).foldl DescEvent.apply s.isOpen
  match a with
  | .construct i cls desc own ret =>
    if (s.wrappers i).isNone ∧ s.isOpen desc ∧ desc ≠ -1 ∧ (ret = -1 ∨ !s.isOpen ret) then
      some ⟨isOpen, Function.update s.wrappers i
        ((cls.construct desc own ret).2.map fun mDesc ↦ ⟨cls, desc, own, mDesc⟩)⟩
    else none
  | .destroy i =>
    if (s.wrappers i).isSome then some ⟨isOpen, Function.update s.wrappers i none⟩ else none
  | .others isOpen => some { s with isOpen }

/-- What the flags ask for: a wrapper closes its descriptor when it is destroyed, if it owns it. -/
def asked (s : SocketSys) : SocketAction → List DescEvent
  | .construct _ _ _ _ _ => []
  | .destroy i => ((s.wrappers i).map fun w ↦ if w.own then [.closed w.desc] else []).getD []
  | .others _ => []

/-- Every wrapper has the descriptor it was given. -/
def HasItsDesc (s : SocketSys) : Prop := ∀ i w, s.wrappers i = some w → w.getDesc = w.desc

/-- Not the making of a `udp_transport`, nor the end of a listener on a borrowed descriptor. -/
def ForwardsOwn (s : SocketSys) : SocketAction → Prop
  | .construct _ cls _ _ ret => cls = .udpTransport → ret = -1
  | .destroy i => ∀ w, s.wrappers i = some w → w.cls = .tcpListener → w.own = true
  | .others _ => True

/-- Every wrapper that lives is what its constructor left. -/
def AllBuilt (s : SocketSys) : Prop := ∀ i w, s.wrappers i = some w → w.Built

/-- No `udp_transport` lives. -/
def NoUdp (s : SocketSys) : Prop := ∀ i w, s.wrappers i = some w → w.cls ≠ .udpTransport

end SocketSys

namespace WrapperClass

variable {cls : WrapperClass} {desc ret : ℤ} {own : Bool}

theorem built_of_construct {mDesc : SocketDesc}
    (h : (cls.construct desc own ret).2 = some mDesc) :
    (⟨cls, desc, own, mDesc⟩ : Wrapper).Built := by
  cases cls with
  | tcpListener =>
    simp only [construct, TcpListener.ofDesc, SocketDesc.ofDesc, Option.ite_none_left_eq_some,
      Option.some.injEq] at h
    exact h.2.symm
  | tcpTransport =>
    simp only [construct, TcpTransport.ofDesc, SocketDesc.ofDesc, Option.ite_none_left_eq_some,
      Option.some.injEq] at h
    exact h.2.symm
  | udpTransport =>
    rw [construct, UdpTransport.ofDesc, SocketDesc.ofType] at h
    split at h
    · cases h
    · cases h
      rfl

theorem construct_events_eq_nil_iff :
    (cls.construct desc own ret).1 = [] ↔ (cls = .udpTransport → ret = -1) := by
  cases cls with
  | tcpListener => exact iff_of_true rfl nofun
  | tcpTransport => exact iff_of_true rfl nofun
  | udpTransport =>
    rw [construct, UdpTransport.ofDesc, SocketDesc.ofType]
    by_cases h : ret = -1 <;> simp [h]

theorem not_udp_of_construct {mDesc : SocketDesc} (hret : cls = .udpTransport → ret = -1)
    (h : (cls.construct desc own ret).2 = some mDesc) : cls ≠ .udpTransport := by
  rintro rfl
  rw [construct, UdpTransport.ofDesc, SocketDesc.ofType, if_pos (hret rfl)] at h
  cases h

end WrapperClass

namespace Wrapper

variable {w : Wrapper}

theorem Built.getDesc_eq (h : w.Built) (hudp : w.cls ≠ .udpTransport) : w.getDesc = w.desc := by
  rw [getDesc, SocketDesc.get]
  unfold Built at h
  split at h
  · rw [h]
  · rw [h]
  · exact absurd ‹_› hudp

theorem Built.destroy_eq_iff (h : w.Built) (hudp : w.cls ≠ .udpTransport) :
    w.mDesc.destroy = (if w.own then [.closed w.desc] else []) ↔
      (w.cls = .tcpListener → w.own = true) := by
  unfold Built at h
  split at h
  · rename_i hcls
    simp [h, SocketDesc.destroy, hcls]
  · rename_i hcls
    simp [h, SocketDesc.destroy, hcls]
  · exact absurd ‹_› hudp

end Wrapper

namespace SocketSys

variable {s t : SocketSys} {a : SocketAction}

/-- A step either adds the wrapper its constructor made, or leaves wrappers that were there. -/
theorem wrappers_of_step (h : s.step a = some t) {i : ℕ} {w : Wrapper}
    (hw : t.wrappers i = some w) :
    s.wrappers i = some w ∨ ∃ cls desc own ret mDesc, a = .construct i cls desc own ret ∧
      (cls.construct desc own ret).2 = some mDesc ∧ w = ⟨cls, desc, own, mDesc⟩ := by
  cases a with
  | construct j cls desc own ret =>
    simp only [step, Option.ite_none_right_eq_some, Option.some.injEq] at h
    obtain ⟨-, rfl⟩ := h
    change Function.update s.wrappers j _ i = some w at hw
    by_cases hij : i = j
    · subst hij
      rw [Function.update_self, Option.map_eq_some_iff] at hw
      obtain ⟨mDesc, hmDesc, rfl⟩ := hw
      exact .inr ⟨cls, desc, own, ret, mDesc, rfl, hmDesc, rfl⟩
    · rw [Function.update_of_ne hij] at hw
      exact .inl hw
  | destroy j =>
    simp only [step, Option.ite_none_right_eq_some, Option.some.injEq] at h
    obtain ⟨-, rfl⟩ := h
    change Function.update s.wrappers j none i = some w at hw
    by_cases hij : i = j
    · rw [hij, Function.update_self] at hw
      cases hw
    · rw [Function.update_of_ne hij] at hw
      exact .inl hw
  | others isOpen =>
    cases h
    exact .inl hw

theorem AllBuilt.step (hs : s.AllBuilt) (h : s.step a = some t) : t.AllBuilt := by
  intro i w hw
  rcases wrappers_of_step h hw with hw | ⟨cls, desc, own, ret, mDesc, -, hmDesc, rfl⟩
  · exact hs i w hw
  · exact WrapperClass.built_of_construct hmDesc

theorem NoUdp.step (hs : s.NoUdp) (ha : s.ForwardsOwn a) (h : s.step a = some t) : t.NoUdp := by
  intro i w hw
  rcases wrappers_of_step h hw with hw | ⟨cls, desc, own, ret, mDesc, rfl, hmDesc, rfl⟩
  · exact hs i w hw
  · exact WrapperClass.not_udp_of_construct ha hmDesc

theorem NoUdp.step_of_events (hs : s.NoUdp) (ha : s.events a = s.asked a) (h : s.step a = some t) :
    t.NoUdp := by
  intro i w hw
  rcases wrappers_of_step h hw with hw | ⟨cls, desc, own, ret, mDesc, rfl, hmDesc, rfl⟩
  · exact hs i w hw
  · exact WrapperClass.not_udp_of_construct (WrapperClass.construct_events_eq_nil_iff.1 ha) hmDesc

/-- One step. -/
theorem events_eq_asked_iff (hbuilt : s.AllBuilt) (hudp : s.NoUdp) :
    s.events a = s.asked a ↔ s.ForwardsOwn a := by
  cases a with
  | construct i cls desc own ret => exact WrapperClass.construct_events_eq_nil_iff
  | destroy i =>
    rw [events, asked, ForwardsOwn]
    cases hw : s.wrappers i with
    | none => simp
    | some w => simpa using (hbuilt i w hw).destroy_eq_iff (hudp i w hw)
  | others isOpen => exact iff_of_true rfl trivial

theorem allBuilt_start (isOpen : ℤ → Bool) : (start isOpen).AllBuilt := nofun

theorem noUdp_start (isOpen : ℤ → Bool) : (start isOpen).NoUdp := nofun

theorem hasItsDesc (hbuilt : s.AllBuilt) (hudp : s.NoUdp) : s.HasItsDesc :=
  fun i w hw ↦ (hbuilt i w hw).getDesc_eq (hudp i w hw)

/-- **Ownership.** Along a run, the wrappers have the descriptors they were given and the
descriptors are opened and closed as the flags ask, exactly if no `udp_transport` is made and no
listener that borrows its descriptor is destroyed. -/
theorem ownership_iff (isOpen : ℤ → Bool) (as : List SocketAction) :
    EveryState step HasItsDesc (start isOpen) as ∧
        EveryStep step (fun s a ↦ s.events a = s.asked a) (start isOpen) as ↔
      EveryStep step ForwardsOwn (start isOpen) as := by
  have hbuilt : EveryState step AllBuilt (start isOpen) as :=
    everyState_of_invariant (fun _ _ _ hs h ↦ hs.step h) (allBuilt_start isOpen)
  constructor
  · rintro ⟨-, hevents⟩
    have hudp : EveryState step NoUdp (start isOpen) as :=
      everyState_of_everyStep (fun _ _ _ hs ha h ↦ hs.step_of_events ha h) (noUdp_start isOpen)
        hevents
    refine hevents.imp_of_everyState (hbuilt.and hudp) fun s a hs ha ↦ ?_
    exact (events_eq_asked_iff hs.1 hs.2).1 ha
  · intro hforwards
    have hudp : EveryState step NoUdp (start isOpen) as :=
      everyState_of_everyStep (fun _ _ _ hs ha h ↦ hs.step ha h) (noUdp_start isOpen) hforwards
    refine ⟨(hbuilt.and hudp).mono fun s hs ↦ hasItsDesc hs.1 hs.2, ?_⟩
    refine hforwards.imp_of_everyState (hbuilt.and hudp) fun s a hs ha ↦ ?_
    exact (events_eq_asked_iff hs.1 hs.2).2 ha

/-- A listener is made from descriptor 3, which it is told not to own, and destroyed. -/
def borrowedListener : List SocketAction := [.construct 0 .tcpListener 3 false (-1), .destroy 0]

/-- The listener closes the descriptor it borrowed. -/
theorem listener_closes_borrowed :
    ¬ ∀ (isOpen : ℤ → Bool) (as : List SocketAction),
      EveryState step HasItsDesc (start isOpen) as ∧
        EveryStep step (fun s a ↦ s.events a = s.asked a) (start isOpen) as := by
  intro h
  have hevents := (h (fun desc ↦ desc == 3) borrowedListener).2
    [.construct 0 .tcpListener 3 false (-1)] (.destroy 0) [] _ rfl rfl
  exact absurd hevents (by decide)

end SocketSys

end Libk2
