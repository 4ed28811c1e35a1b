import Libk2.Net.SocketDesc
import Libk2.Net.TimedConnect

/-!
# Opening, accepting and closing sockets

The constructors of `tcp_listener`, `tcp_transport` and `udp_transport` that get a descriptor of
their own from the system, and `tcp_listener::accept`. Each of them opens a socket or accepts a
connection first and goes on with calls that may fail: `bind`, `listen`, `connect`. The descriptor
is in `m_desc` by then, so an exception destroys it on the way out (`SocketDesc.construct`).
`tcp_listener::accept` holds the descriptor in a local variable instead, while `new tcp_transport`
has its memory allocated; if that throws, nobody has the descriptor.

`TransportSys` is a process that makes and destroys such objects in any order, next to code with
descriptors of its own. `descriptors_accounted` says what holds of all its runs.
-/

namespace Libk2

open StepSystem

/-! ### The calls of `transport.cpp` -/

/-- The exceptions. -/
inductive TransportError where
  | socketOpenError
  | socketBindError
  | socketConnectError
  | socketAcceptError
  | socketTimedoutError
  | badAlloc
deriving DecidableEq

/-- `transport_bind`, where `bind` returns `ret`. -/
def transportBind (ret : ℤ) : Except TransportError Unit :=
  if ret = -1 then .error .socketBindError else .ok ()

/-- `tcp_listen`, where `listen` returns `ret`. -/
def tcpListen (ret : ℤ) : Except TransportError Unit :=
  if ret = -1 then .error .socketBindError else .ok ()

/-- How a connection is made: with `connect` returning `ret`, or with a timeout. -/
inductive ConnectCall where
  | plain (ret : ℤ)
  | timed (outcome : TimedConnect.Outcome)
deriving DecidableEq

/-- `transport_connect`, in both forms. -/
def transportConnect : ConnectCall → Except TransportError Unit
  | .plain ret => if ret = -1 then .error .socketConnectError else .ok ()
  | .timed .returned => .ok ()
  | .timed .socketConnectError => .error .socketConnectError

/-- `socket_wait`, where `select` returns `ret`; there is no call without a timeout. -/
def waited : Option ℤ → Bool
  | none => true
  | some ret => !decide (ret < 1)

/-- `tcp_accept_no_throw`, where `accept` returns `ret`. -/
def tcpAcceptNoThrow (select : Option ℤ) (ret : ℤ) : ℤ := if waited select then ret else -1

/-- `tcp_accept`. -/
def tcpAccept (select : Option ℤ) (ret : ℤ) : Except TransportError ℤ :=
  if waited select = false then .error .socketTimedoutError
  else if ret = -1 then .error .socketAcceptError
  else .ok ret

/-! ### Constructors -/

/-- What a constructor does to the descriptors, and the object it makes. -/
abbrev Made := List DescEvent × Except TransportError SocketDesc

/-- A constructor that does not throw has an object. -/
def Made.always (made : Made) : List DescEvent × Except TransportError (Option SocketDesc) :=
  (made.1, made.2.map some)

/-- A constructor whose `m_desc` opens a socket. If the body throws, `m_desc` is destroyed. -/
def SocketDesc.construct (family : FamilyEnum) (type : TypeEnum) (ret : ℤ)
    (body : Except TransportError Unit) : Made :=
  match ofType family type ret, body with
  | (events, none), _ => (events, .error .socketOpenError)
  | (events, some mDesc), .ok _ => (events, .ok mDesc)
  | (events, some mDesc), .error e => (events ++ mDesc.destroy, .error e)

/-- `tcp_listener(local_addr)`. -/
def TcpListener.ofAddr (socket bind listen : ℤ) : Made :=
  SocketDesc.construct .ipv4 .stream socket (do transportBind bind; tcpListen listen)

/-- `tcp_transport(remote_addr)`, also with a timeout. -/
def TcpTransport.ofRemote (socket : ℤ) (connect : ConnectCall) : Made :=
  SocketDesc.construct .ipv4 .stream socket (transportConnect connect)

/-- `tcp_transport(local_addr, remote_addr)`, also with a timeout. -/
def TcpTransport.ofBoth (socket bind : ℤ) (connect : ConnectCall) : Made :=
  SocketDesc.construct .ipv4 .stream socket (do transportBind bind; transportConnect connect)

/-- `udp_transport()`. -/
def UdpTransport.unbound (socket : ℤ) : Made :=
  SocketDesc.construct .ipv4 .dgram socket (.ok ())

/-- `udp_transport(local_addr)`. -/
def UdpTransport.ofAddr (socket bind : ℤ) : Made :=
  SocketDesc.construct .ipv4 .dgram socket (transportBind bind)

/-- `tcp_transport(listener)`, also with a timeout: the descriptor goes straight into `m_desc`. -/
def TcpTransport.ofListener (select : Option ℤ) (accept : ℤ) : Made :=
  match tcpAccept select accept with
  | .error e => ([], .error e)
  | .ok tcp =>
    match SocketDesc.ofDesc tcp true with
    | (events, none) => (.opened .ipv4 .stream tcp :: events, .error .socketOpenError)
    | (events, some mDesc) => (.opened .ipv4 .stream tcp :: events, .ok mDesc)

/-- `tcp_listener::accept`, also with a timeout. There may be no connection; `allocated` says
whether `new` gets the memory for the transport. -/
def TcpListener.accept (select : Option ℤ) (accept : ℤ) (allocated : Bool) :
    List DescEvent × Except TransportError (Option SocketDesc) :=
  let tcp := tcpAcceptNoThrow select accept
  if tcp = -1 then ([], .ok none)
  else if allocated then
    match TcpTransport.ofDesc tcp true with
    | (events, none) => (.opened .ipv4 .stream tcp :: events, .error .socketOpenError)
    | (events, some mDesc) => (.opened .ipv4 .stream tcp :: events, .ok (some mDesc))
  else ([.opened .ipv4 .stream tcp], .error .badAlloc)

/-! ### Making and destroying them -/

/-- How an object is made: what the calls of its constructor return. -/
inductive Making where
  | listener (socket bind listen : ℤ)
  | transport (socket : ℤ) (bind : Option ℤ) (connect : ConnectCall)
  | udp (socket : ℤ) (bind : Option ℤ)
  /-- `tcp_transport(listener)`. -/
  | fromListener (l : ℕ) (select : Option ℤ) (accept : ℤ)
  /-- `listener.accept()`. -/
  | accepted (l : ℕ) (select : Option ℤ) (accept : ℤ) (allocated : Bool)
deriving DecidableEq

namespace Making

/-- The descriptor the system returns. -/
def desc : Making → ℤ
  | listener socket _ _ | transport socket _ _ | udp socket _ => socket
  | fromListener _ _ accept | accepted _ _ accept _ => accept

/-- The class of the object. -/
def cls : Making → WrapperClass
  | listener _ _ _ => .tcpListener
  | transport _ _ _ | fromListener _ _ _ | accepted _ _ _ _ => .tcpTransport
  | udp _ _ => .udpTransport

/-- The listener that is asked for a connection. -/
def asks : Making → Option ℕ
  | fromListener l _ _ | accepted l _ _ _ => some l
  | _ => none

/-- What is done to the descriptors, and the object, if there is one. -/
def outcome : Making → List DescEvent × Except TransportError (Option SocketDesc)
  | listener socket bind listen => (TcpListener.ofAddr socket bind listen).always
  | transport socket none connect => (TcpTransport.ofRemote socket connect).always
  | transport socket (some bind) connect =>
    (TcpTransport.ofBoth socket bind connect).always
  | udp socket none => (UdpTransport.unbound socket).always
  | udp socket (some bind) => (UdpTransport.ofAddr socket bind).always
  | fromListener _ select accept => (TcpTransport.ofListener select accept).always
  | accepted _ select accept allocated => TcpListener.accept select accept allocated

/-- The object that lives afterwards. -/
def object (how : Making) : Option SocketDesc := how.outcome.2.toOption.join

/-- A connection is accepted, and there is no memory for the transport. -/
def Leaks : Making → Prop
  | accepted _ select accept allocated => tcpAcceptNoThrow select accept ≠ -1 ∧ allocated = false
  | _ => False

end Making

/-- An object that lives. -/
structure LiveSocket where
  cls : WrapperClass
  mDesc : SocketDesc
deriving DecidableEq

/-- The descriptors this code has opened, those of other code, and the objects that live. -/
structure TransportSys where
  isOpen : ℤ → Bool
  foreign : ℤ → Bool
  objects : ℕ → Option LiveSocket

/-- An object is made or destroyed, or other code opens or closes a descriptor of its own. -/
inductive TransportAction where
  | make (i : ℕ) (how : Making)
  | destroy (i : ℕ)
  | others (desc : ℤ) (opens : Bool)

namespace TransportSys

/-- Before any object is made. -/
def start (foreign : ℤ → Bool) : TransportSys := ⟨fun _ ↦ false, foreign, fun _ ↦ none⟩

/-- What is done to the descriptors. -/
def events (s : TransportSys) : TransportAction → List DescEvent
  | .make _ how => how.outcome.1
  | .destroy i => ((s.objects i).map fun w ↦ w.mDesc.destroy).getD []
  | .others _ _ => []

/-- A descriptor the system may return: none, or one that is not open. -/
def Fresh (s : TransportSys) (desc : ℤ) : Prop :=
  desc = -1 ∨ s.isOpen desc = false ∧ s.foreign desc = false

/-- A listener is asked for a connection while it lives. -/
def HasListener (s : TransportSys) (asks : Option ℕ) : Prop :=
  ∀ l ∈ asks, (s.objects l).map LiveSocket.cls = some .tcpListener

instance (s : TransportSys) (desc : ℤ) : Decidable (s.Fresh desc) :=
  inferInstanceAs (Decidable (_ ∨ _ ∧ _))

instance (s : TransportSys) (asks : Option ℕ) : Decidable (s.HasListener asks) :=
  inferInstanceAs (Decidable (∀ l ∈ asks, _))

def step (s : TransportSys) (a : TransportAction) : Option TransportSys :=
  let isOpen := (s.events a).foldl DescEvent.apply s.isOpen
  match a with
  | .make i how =>
    if (s.objects i).isNone ∧ s.HasListener how.asks ∧ s.Fresh how.desc then
      some { s with
        isOpen := isOpen
        objects := Function.update s.objects i (how.object.map fun mDesc ↦ ⟨how.cls, mDesc⟩) }
    else none
  | .destroy i =>
    if (s.objects i).isSome then
      some { s with isOpen := isOpen, objects := Function.update s.objects i none }
    else none
  | .others desc opens =>
    if s.isOpen desc = false then
      some { s with foreign := Function.update s.foreign desc opens }
    else none

/-- Only what is not open is opened, and only what this code has opened is closed. -/
def LegalFrom (foreign : ℤ → Bool) : (ℤ → Bool) → List DescEvent → Prop
  | _, [] => True
  | isOpen, e@(.opened _ _ desc) :: es =>
    isOpen desc = false ∧ foreign desc = false ∧ LegalFrom foreign (e.apply isOpen) es
  | isOpen, e@(.closed desc) :: es =>
    isOpen desc = true ∧ foreign desc = false ∧ LegalFrom foreign (e.apply isOpen) es

/-- What a step does to the descriptors is legal. -/
def Legal (s : TransportSys) (a : TransportAction) : Prop :=
  LegalFrom s.foreign s.isOpen (s.events a)

/-- The step leaves no accepted connection without an object. -/
def Keeps (_ : TransportSys) : TransportAction → Prop
  | .make _ how => ¬ how.Leaks
  | _ => True

/-- Every object owns an open descriptor, no two the same, and none is other code's. -/
structure Sound (s : TransportSys) : Prop where
  owns : ∀ i w, s.objects i = some w → w.mDesc.mOwn = true ∧ s.isOpen w.mDesc.mDesc = true
  distinct : ∀ i j w w', s.objects i = some w → s.objects j = some w' →
    w.mDesc.mDesc = w'.mDesc.mDesc → i = j
  apart : ∀ desc, s.isOpen desc = true → s.foreign desc = false

/-- Every descriptor this code has open belongs to an object that lives. -/
def Covered (s : TransportSys) : Prop :=
  ∀ desc, s.isOpen desc = true → ∃ i w, s.objects i = some w ∧ w.mDesc.mDesc = desc

end TransportSys

/-! ### What a constructor can do -/

namespace Making

variable {how : Making}

/-- What becomes of a constructor that gets `desc` from the system: it fails before it has it, or
makes an object that owns it, or closes it again. -/
inductive Ends (desc : ℤ) : List DescEvent → Option SocketDesc → Prop
  | early : Ends desc [] none
  | made (family type) : desc ≠ -1 → Ends desc [.opened family type desc] (some ⟨desc, true⟩)
  | undone (family type) : desc ≠ -1 → Ends desc [.opened family type desc, .closed desc] none

theorem ends_construct (family : FamilyEnum) (type : TypeEnum) (ret : ℤ)
    (body : Except TransportError Unit) :
    Ends ret (SocketDesc.construct family type ret body).1
      (SocketDesc.construct family type ret body).2.toOption := by
  unfold SocketDesc.construct SocketDesc.ofType
  by_cases hret : ret = -1
  · rw [if_pos hret]
    exact .early
  · rw [if_neg hret]
    cases body with
    | error e => exact .undone family type hret
    | ok _ => exact .made family type hret

theorem ends_ofListener (select : Option ℤ) (accept : ℤ) :
    Ends accept (TcpTransport.ofListener select accept).1
      (TcpTransport.ofListener select accept).2.toOption := by
  unfold TcpTransport.ofListener tcpAccept
  by_cases hselect : waited select = false
  · rw [if_pos hselect]
    exact .early
  · rw [if_neg hselect]
    by_cases haccept : accept = -1
    · rw [if_pos haccept]
      exact .early
    · simp only [SocketDesc.ofDesc, if_neg haccept]
      exact .made .ipv4 .stream haccept

theorem Ends.always {desc : ℤ} {made : Made} (h : Ends desc made.1 made.2.toOption) :
    Ends desc made.always.1 made.always.2.toOption.join := by
  obtain ⟨events, _ | mDesc⟩ := made <;> exact h

theorem tcpAcceptNoThrow_of_ne {select : Option ℤ} {accept : ℤ}
    (h : tcpAcceptNoThrow select accept ≠ -1) : tcpAcceptNoThrow select accept = accept := by
  unfold tcpAcceptNoThrow at h ⊢
  split at h
  · exact if_pos ‹_›
  · exact absurd rfl h

/-- A connection that is accepted has its descriptor open, whatever comes of the allocation. -/
theorem accept_of_ne {select : Option ℤ} {accept : ℤ} {allocated : Bool}
    (h : tcpAcceptNoThrow select accept ≠ -1) :
    TcpListener.accept select accept allocated = ([.opened .ipv4 .stream accept],
      if allocated then .ok (some ⟨accept, true⟩) else .error .badAlloc) := by
  have haccept := tcpAcceptNoThrow_of_ne h
  rw [haccept] at h
  unfold TcpListener.accept TcpTransport.ofDesc SocketDesc.ofDesc
  cases allocated <;> simp [haccept, h]

/-- A constructor that does not leak ends in one of three ways. -/
theorem ends_outcome (h : ¬ how.Leaks) : Ends how.desc how.outcome.1 how.object := by
  cases how with
  | listener socket bind listen => exact (ends_construct ..).always
  | transport socket bind connect => cases bind <;> exact (ends_construct ..).always
  | udp socket bind => cases bind <;> exact (ends_construct ..).always
  | fromListener l select accept => exact (ends_ofListener ..).always
  | accepted l select accept allocated =>
    by_cases hret : tcpAcceptNoThrow select accept = -1
    · have haccept : TcpListener.accept select accept allocated = ([], .ok none) := if_pos hret
      rw [object, outcome, haccept]
      exact .early
    · obtain rfl : allocated = true := by
        by_contra hmemory
        exact h ⟨hret, Bool.eq_false_iff.2 hmemory⟩
      rw [object, outcome, accept_of_ne hret]
      exact .made .ipv4 .stream (tcpAcceptNoThrow_of_ne hret ▸ hret)

/-- One that leaks opens its descriptor and makes no object. -/
theorem outcome_of_leaks (h : how.Leaks) : how.desc ≠ -1 ∧ ∃ family type,
    how.outcome.1 = [.opened family type how.desc] ∧ how.object = none := by
  cases how with
  | listener | transport | udp | fromListener => exact h.elim
  | accepted l select accept allocated =>
    obtain ⟨hret, rfl⟩ := h
    refine ⟨tcpAcceptNoThrow_of_ne hret ▸ hret, .ipv4, .stream, ?_, ?_⟩
    · rw [outcome, accept_of_ne hret]
      rfl
    · rw [object, outcome, accept_of_ne hret]
      rfl

end Making

namespace TransportSys

variable {s t : TransportSys} {a : TransportAction}

/-! ### One step -/

/-- What an object has made of the descriptors when it has been destroyed. -/
theorem Sound.destroy_eq (hs : s.Sound) {i : ℕ} {w : LiveSocket} (hw : s.objects i = some w) :
    s.events (.destroy i) = [.closed w.mDesc.mDesc] := by
  rw [events, hw, Option.map_some, Option.getD_some, SocketDesc.destroy, if_pos (hs.owns i w hw).1]

/-- Whatever a constructor does is legal. -/
theorem legal_of_ends {foreign isOpen : ℤ → Bool} {desc : ℤ} {es : List DescEvent}
    {object : Option SocketDesc} (hends : Making.Ends desc es object)
    (hfresh : desc = -1 ∨ isOpen desc = false ∧ foreign desc = false) :
    LegalFrom foreign isOpen es := by
  cases hends with
  | early => trivial
  | made family type hdesc =>
    obtain ⟨hopen, hforeign⟩ := hfresh.resolve_left hdesc
    exact ⟨hopen, hforeign, trivial⟩
  | undone family type hdesc =>
    obtain ⟨hopen, hforeign⟩ := hfresh.resolve_left hdesc
    exact ⟨hopen, hforeign, Function.update_self .., hforeign, trivial⟩

theorem Sound.legal (hs : s.Sound) (h : s.step a = some t) : s.Legal a := by
  cases a with
  | make i how =>
    simp only [step, Option.ite_none_right_eq_some] at h
    obtain ⟨⟨-, -, hfresh⟩, -⟩ := h
    by_cases hleaks : how.Leaks
    · obtain ⟨hdesc, family, type, hevents, -⟩ := Making.outcome_of_leaks hleaks
      obtain ⟨hopen, hforeign⟩ := hfresh.resolve_left hdesc
      rw [Legal, events, hevents]
      exact ⟨hopen, hforeign, trivial⟩
    · exact legal_of_ends (Making.ends_outcome hleaks) hfresh
  | destroy i =>
    simp only [step, Option.ite_none_right_eq_some] at h
    obtain ⟨w, hw⟩ := Option.isSome_iff_exists.1 h.1
    obtain ⟨-, hopen⟩ := hs.owns i w hw
    rw [Legal, hs.destroy_eq hw]
    exact ⟨hopen, hs.apart _ hopen, trivial⟩
  | others desc opens => trivial

/-- A constructor fails and leaves everything as it was, or makes an object with a new descriptor,
or leaves a new descriptor without one. -/
theorem make_cases {i : ℕ} {how : Making} (h : s.step (.make i how) = some t) :
    s.objects i = none ∧ (t = s ∧ ¬ how.Leaks ∨
      ∃ desc, s.isOpen desc = false ∧ s.foreign desc = false ∧
        (¬ how.Leaks ∧ t = { s with
          isOpen := Function.update s.isOpen desc true
          objects := Function.update s.objects i (some ⟨how.cls, desc, true⟩) } ∨
        how.Leaks ∧ t = { s with isOpen := Function.update s.isOpen desc true })) := by
  simp only [step, Option.ite_none_right_eq_some, Option.some.injEq] at h
  obtain ⟨⟨hnone, -, hfresh⟩, rfl⟩ := h
  have hi : s.objects i = none := Option.isNone_iff_eq_none.1 hnone
  have hself : Function.update s.objects i none = s.objects := hi ▸ Function.update_eq_self i _
  refine ⟨hi, ?_⟩
  by_cases hleaks : how.Leaks
  · obtain ⟨hdesc, family, type, hevents, hobject⟩ := Making.outcome_of_leaks hleaks
    obtain ⟨hopen, hforeign⟩ := hfresh.resolve_left hdesc
    refine .inr ⟨how.desc, hopen, hforeign, .inr ⟨hleaks, ?_⟩⟩
    rw [events, hevents, hobject, Option.map_none, hself]
    rfl
  · have hends := Making.ends_outcome hleaks
    rw [events]
    generalize how.outcome.1 = es at hends ⊢
    generalize how.object = object at hends ⊢
    cases hends with
    | early => exact .inl ⟨by rw [Option.map_none, hself]; rfl, hleaks⟩
    | made family type hdesc =>
      obtain ⟨hopen, hforeign⟩ := hfresh.resolve_left hdesc
      exact .inr ⟨how.desc, hopen, hforeign, .inl ⟨hleaks, rfl⟩⟩
    | undone family type hdesc =>
      have hopen := (hfresh.resolve_left hdesc).1
      refine .inl ⟨?_, hleaks⟩
      simp only [List.foldl_cons, List.foldl_nil, DescEvent.apply, Function.update_idem,
        Option.map_none, hself]
      rw [← hopen, Function.update_eq_self]

/-- An object is destroyed and its descriptor closed. -/
theorem Sound.destroy_cases (hs : s.Sound) {i : ℕ} (h : s.step (.destroy i) = some t) :
    ∃ w, s.objects i = some w ∧ t = { s with
      isOpen := Function.update s.isOpen w.mDesc.mDesc false
      objects := Function.update s.objects i none } := by
  simp only [step, Option.ite_none_right_eq_some, Option.some.injEq] at h
  obtain ⟨hsome, rfl⟩ := h
  obtain ⟨w, hw⟩ := Option.isSome_iff_exists.1 hsome
  refine ⟨w, hw, ?_⟩
  rw [hs.destroy_eq hw]
  rfl

/-! ### Every object has its own descriptor -/

theorem sound_start (foreign : ℤ → Bool) : (start foreign).Sound := ⟨nofun, nofun, nofun⟩

/-- A new descriptor is open, whether an object has it or not. -/
theorem Sound.open (hs : s.Sound) {desc : ℤ} (hforeign : s.foreign desc = false) :
    Sound { s with isOpen := Function.update s.isOpen desc true } where
  owns i w hw := by
    obtain ⟨hown, hopen⟩ := hs.owns i w hw
    refine ⟨hown, ?_⟩
    show Function.update s.isOpen desc true w.mDesc.mDesc = true
    rw [Function.update_apply, hopen, ite_self]
  distinct := hs.distinct
  apart d hd := by
    rcases eq_or_ne d desc with rfl | hne
    · exact hforeign
    · exact hs.apart d ((Function.update_of_ne hne ..).symm.trans hd)

theorem Sound.make (hs : s.Sound) {i : ℕ} {desc : ℤ} {cls : WrapperClass}
    (hopen : s.isOpen desc = true)
    (hnew : ∀ j w, s.objects j = some w → w.mDesc.mDesc ≠ desc) :
    Sound { s with objects := Function.update s.objects i (some ⟨cls, desc, true⟩) } where
  owns j w hw := by
    rcases eq_or_ne j i with rfl | hne
    · simp only [Function.update_self, Option.some.injEq] at hw
      subst hw
      exact ⟨rfl, hopen⟩
    · exact hs.owns j w ((Function.update_of_ne hne ..).symm.trans hw)
  distinct j k w w' hw hw' heq := by
    simp only [Function.update_apply] at hw hw'
    split at hw <;> split at hw'
    · exact ‹j = i›.trans ‹k = i›.symm
    · cases hw
      exact absurd heq.symm (hnew k w' hw')
    · cases hw'
      exact absurd heq (hnew j w hw)
    · exact hs.distinct j k w w' hw hw' heq
  apart := hs.apart

theorem Sound.destroy (hs : s.Sound) {i : ℕ} {w : LiveSocket} (hw : s.objects i = some w) :
    Sound { s with
      isOpen := Function.update s.isOpen w.mDesc.mDesc false
      objects := Function.update s.objects i none } where
  owns j w' hw' := by
    simp only [Function.update_apply] at hw' ⊢
    split at hw'
    · cases hw'
    · obtain ⟨hown, hopen⟩ := hs.owns j w' hw'
      refine ⟨hown, ?_⟩
      rw [if_neg fun heq ↦ ‹j ≠ i› (hs.distinct j i w' w hw' hw heq), hopen]
  distinct j k w₁ w₂ h₁ h₂ heq := by
    simp only [Function.update_apply] at h₁ h₂
    split at h₁
    · cases h₁
    · split at h₂
      · cases h₂
      · exact hs.distinct j k w₁ w₂ h₁ h₂ heq
  apart d hd := by
    simp only [Function.update_apply] at hd
    split at hd
    · cases hd
    · exact hs.apart d hd

theorem Sound.others (hs : s.Sound) {desc : ℤ} {opens : Bool} (hdesc : s.isOpen desc = false) :
    Sound { s with foreign := Function.update s.foreign desc opens } where
  owns := hs.owns
  distinct := hs.distinct
  apart d hd := by
    have hne : d ≠ desc := by
      rintro rfl
      exact Bool.false_ne_true (hdesc.symm.trans hd)
    exact (Function.update_of_ne hne ..).trans (hs.apart d hd)

/-- No object has a descriptor that is not open. -/
theorem Sound.ne_of_not_open (hs : s.Sound) {desc : ℤ} (hdesc : s.isOpen desc = false) (i : ℕ)
    (w : LiveSocket) (hw : s.objects i = some w) : w.mDesc.mDesc ≠ desc := by
  rintro rfl
  exact Bool.false_ne_true (hdesc.symm.trans (hs.owns i w hw).2)

theorem Sound.step (hs : s.Sound) (h : s.step a = some t) : t.Sound := by
  cases a with
  | make i how =>
    obtain ⟨-, ⟨rfl, -⟩ | ⟨desc, hopen, hforeign, ⟨-, rfl⟩ | ⟨-, rfl⟩⟩⟩ := make_cases h
    · exact hs
    · exact (hs.open hforeign).make (Function.update_self ..) (hs.ne_of_not_open hopen)
    · exact hs.open hforeign
  | destroy i =>
    obtain ⟨w, hw, rfl⟩ := hs.destroy_cases h
    exact hs.destroy hw
  | others desc opens =>
    simp only [TransportSys.step, Option.ite_none_right_eq_some, Option.some.injEq] at h
    obtain ⟨hopen, rfl⟩ := h
    exact hs.others hopen

/-! ### Every descriptor has its object -/

theorem Covered.step (hc : s.Covered) (hs : s.Sound) (ha : s.Keeps a) (h : s.step a = some t) :
    t.Covered := by
  cases a with
  | make i how =>
    obtain ⟨hi, ⟨rfl, -⟩ | ⟨desc, -, -, ⟨-, rfl⟩ | ⟨hleaks, -⟩⟩⟩ := make_cases h
    · exact hc
    · intro d hd
      rcases eq_or_ne d desc with rfl | hne
      · exact ⟨i, _, Function.update_self .., rfl⟩
      · obtain ⟨j, w, hw, rfl⟩ := hc d (by rwa [← Function.update_of_ne hne true s.isOpen])
        have hji : j ≠ i := by
          rintro rfl
          rw [hi] at hw
          cases hw
        exact ⟨j, w, (Function.update_of_ne hji ..).trans hw, rfl⟩
    · exact absurd hleaks ha
  | destroy i =>
    obtain ⟨w, hw, rfl⟩ := hs.destroy_cases h
    intro d hd
    simp only [Function.update_apply] at hd
    split at hd
    · cases hd
    · obtain ⟨j, w', hw', rfl⟩ := hc d hd
      have hji : j ≠ i := by
        rintro rfl
        rw [hw] at hw'
        cases hw'
        exact absurd rfl ‹_›
      exact ⟨j, w', (Function.update_of_ne hji ..).trans hw', rfl⟩
  | others desc opens =>
    simp only [TransportSys.step, Option.ite_none_right_eq_some, Option.some.injEq] at h
    obtain ⟨-, rfl⟩ := h
    exact hc

/-- The descriptor of a connection that got no transport is nobody's. -/
theorem Sound.not_covered (hs : s.Sound) (ha : ¬ s.Keeps a) (h : s.step a = some t) :
    ¬ t.Covered := by
  cases a with
  | make i how =>
    have hleaks : how.Leaks := not_not.1 ha
    obtain ⟨-, ⟨-, hnot⟩ | ⟨desc, hopen, -, ⟨hnot, -⟩ | ⟨-, rfl⟩⟩⟩ := make_cases h
    · exact absurd hleaks hnot
    · exact absurd hleaks hnot
    · intro hc
      obtain ⟨j, w, hw, heq⟩ := hc desc (Function.update_self ..)
      exact hs.ne_of_not_open hopen j w hw heq
  | destroy i => exact absurd trivial ha
  | others desc opens => exact absurd trivial ha

/-- **Accounting.** Along every run each object owns an open descriptor of its own; only what is not
open is opened and only what this code has opened, and not yet closed, is closed. And every
descriptor it has open belongs to an object, exactly as long as no `accept` fails to allocate the
transport for a connection it has accepted. -/
theorem descriptors_accounted (foreign : ℤ → Bool) (as : List TransportAction) (u : TransportSys)
    (hrun : run step (start foreign) as = some u) :
    EveryState step Sound (start foreign) as ∧ EveryStep step Legal (start foreign) as ∧
      (EveryState step Covered (start foreign) as ↔ EveryStep step Keeps (start foreign) as) := by
  have hsound : EveryState step Sound (start foreign) as :=
    everyState_of_invariant (fun _ _ _ hs h ↦ hs.step h) (sound_start foreign)
  refine ⟨hsound, ?_, ?_⟩
  · refine (everyStep_of_run hrun).imp_of_everyState hsound fun s a hs ⟨t, ht⟩ ↦ ?_
    exact hs.legal ht
  · have hboth : (start foreign).Sound ∧ (start foreign).Covered := ⟨sound_start foreign, nofun⟩
    exact everyState_iff_everyStep (fun s (hs : s.Sound ∧ s.Covered) ↦ hs.2)
      (fun _ _ _ hs ha h ↦ ⟨hs.1.step h, hs.2.step hs.1 ha h⟩)
      (fun _ _ _ hs ha h ↦ hs.1.not_covered ha h) hboth hrun

/-- A listener accepts a connection, which is closed again, and one there is no memory for. -/
def lostConnection : List TransportAction :=
  [.make 0 (.listener 3 0 0), .make 1 (.accepted 0 none 4 true), .destroy 1,
    .make 1 (.accepted 0 (some 1) 4 false)]

/-- Descriptor 4 is nobody's in the end. -/
theorem descriptors_accounted_lost : EveryState step Sound (start fun _ ↦ false) lostConnection ∧
    EveryStep step Legal (start fun _ ↦ false) lostConnection ∧
    ¬ EveryState step Covered (start fun _ ↦ false) lostConnection := by
  have hrun : (run step (start fun _ ↦ false) lostConnection).isSome := by decide
  obtain ⟨u, hu⟩ := Option.isSome_iff_exists.1 hrun
  obtain ⟨hsound, hlegal, hcovered⟩ := descriptors_accounted (fun _ ↦ false) lostConnection u hu
  refine ⟨hsound, hlegal, fun h ↦ ?_⟩
  obtain ⟨t, ht⟩ := Option.isSome_iff_exists.1
    (show (run step (start fun _ ↦ false) (lostConnection.take 3)).isSome by decide)
  exact hcovered.1 h (lostConnection.take 3) (.make 1 (.accepted 0 (some 1) 4 false)) [] t rfl ht
    ⟨by decide, rfl⟩

end TransportSys

end Libk2
