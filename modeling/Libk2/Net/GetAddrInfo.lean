import Libk2.Foundation.PointerChain
import Libk2.Net.SockAddr

/-!
# `getaddrinfo_impl`

The function behind `ipv4::getaddrinfo`. The system's `::getaddrinfo` is a parameter: it fails with
a code, and leaves `results` unset, or succeeds with a null-terminated list of nodes. Which
operations of the vector throw, and whether `::freeaddrinfo` comes back from a call on the unset
pointer, are parameters as well.

The `for` over the list ends in a semicolon. What looks like its body is a block that is executed
once, when `results` is null already (`skipToEnd_of_chain`), and `results` is also what the handler
releases. So nothing good comes of a call that succeeded, unless it throws before the loop
(`resolvesAll_iff`, `releasesOnce_iff`).
-/

namespace Libk2.Ipv4

open PointerChain

/-! ### What the system gives -/

/-- The hint, of type `addrinfo`. -/
structure Hint where
  aiFlags : ℕ
  aiFamily : ℕ
  aiSocktype : ℕ
deriving DecidableEq

/-- A node, of type `addrinfo`. `ai_addr` points to a `sockaddr_in`. -/
structure AddrInfo where
  aiFamily : ℕ
  aiSocktype : ℕ
  aiAddr : SockaddrIn
  aiNext : ℕ
deriving DecidableEq

/-- The links of the nodes. -/
def addrLinks (nodes : ℕ → Option AddrInfo) (p : ℕ) : Option ℕ := (nodes p).map AddrInfo.aiNext

/-- A list of nodes, as `::getaddrinfo` returns it. -/
structure AddrList where
  head : ℕ
  nodes : ℕ → Option AddrInfo
  cells : List ℕ
  chain : Chain 0 (addrLinks nodes) head cells

/-- The nodes, in order. -/
def AddrList.contents (l : AddrList) : List AddrInfo := l.cells.filterMap l.nodes

/-- The error codes: `EAI_NONAME`, `EAI_SERVICE` and the others. -/
inductive GaiError where
  | noname
  | service
  | other (code : ℤ)
deriving DecidableEq

/-- What `::getaddrinfo` does. -/
inductive GaiAnswer where
  | success (list : AddrList)
  | failure (error : GaiError)

/-- What `getaddrinfo_impl` depends on. `reserve` and the `n`th `push_back` may throw. -/
structure GaiEnv where
  getaddrinfo : (host portNum : List Char) → Hint → GaiAnswer
  gaiStrerror : ℤ → List Char
  /-- `NDEBUG` is defined. -/
  ndebug : Bool
  reserveThrows : Bool
  pushBackThrows : ℕ → Bool
  /-- `::freeaddrinfo` comes back when it is called on the unset pointer. -/
  unsetFreeReturns : Bool

/-! ### The function -/

/-- `PF_INET`. -/
def pfInet : ℕ := 2

/-- `SOCK_STREAM`. -/
def sockStream : ℕ := 1

/-- `SOCK_DGRAM`. -/
def sockDgram : ℕ := 2

/-- `AI_PASSIVE`. -/
def aiPassive : ℕ := 1

/-- `AI_NUMERICHOST`. -/
def aiNumericHost : ℕ := 4

/-- The arguments. -/
structure GaiRequest where
  isUdp : Bool
  isPassive : Bool
  isNumericHost : Bool
  host : List Char
  portNum : List Char

/-- `getaddrinfo`, for `udp_transport`. -/
def GaiRequest.udpTransport (isPassive isNumericHost : Bool) (host portNum : List Char) :
    GaiRequest :=
  ⟨true, isPassive, isNumericHost, host, portNum⟩

/-- `getaddrinfo`, for `tcp_transport`. -/
def GaiRequest.tcpTransport (isNumericHost : Bool) (host portNum : List Char) : GaiRequest :=
  ⟨false, false, isNumericHost, host, portNum⟩

/-- `getaddrinfo`, for `tcp_listener`. -/
def GaiRequest.tcpListener (isNumericHost : Bool) (host portNum : List Char) : GaiRequest :=
  ⟨false, true, isNumericHost, host, portNum⟩

/-- `hint`. -/
def GaiRequest.hint (r : GaiRequest) : Hint where
  aiFlags :=
    (if r.isPassive then aiPassive else 0) ||| (if r.isNumericHost then aiNumericHost else 0)
  aiFamily := pfInet
  aiSocktype := if r.isUdp then sockDgram else sockStream

/-- The call of `::getaddrinfo`. -/
def GaiEnv.answer (env : GaiEnv) (r : GaiRequest) : GaiAnswer :=
  env.getaddrinfo r.host r.portNum r.hint

/-- The exceptions, all of them a `std::exception`. -/
inductive GaiException where
  | runtimeError (what : List Char)
  | vector
deriving DecidableEq

/-- `k2::runtime_error`. The base class copies as many characters as a pointer has bytes. -/
def runtimeError (what : List Char) : GaiException := .runtimeError (what.take 8)

/-- Where the execution ends. -/
inductive GaiFault where
  /-- A read through null, or through a pointer to nothing. -/
  | badRead
  | assertion
  | unsetFree
deriving DecidableEq

/-- How the function ends. -/
inductive GaiEnd where
  | returned (addrs : List TransportAddr)
  | threw (error : GaiException)
  | fault (fault : GaiFault)
deriving DecidableEq

/-- How the function ends, and what it has called `::freeaddrinfo` on; `none` is the unset pointer.
-/
structure GaiResult where
  ending : GaiEnd
  freed : List (Option ℕ)
deriving DecidableEq

/-- `for(;results != 0; results = results->ai_next);`, with the number of tests it may make. -/
def skipToEnd (nodes : ℕ → Option AddrInfo) : ℕ → ℕ → Option ℕ
  | 0, _ => none
  | tests + 1, results =>
    if results = 0 then some results
    else (nodes results).bind fun node ↦ skipToEnd nodes tests node.aiNext

/-- The block behind the loop. -/
def pushNode (env : GaiEnv) (hint : Hint) (nodes : ℕ → Option AddrInfo) (results : ℕ)
    (addrs : List TransportAddr) : GaiEnd :=
  match if results = 0 then none else nodes results with
  | none => .fault .badRead
  | some node =>
    if env.ndebug = false ∧ node.aiFamily ≠ hint.aiFamily then .fault .assertion
    -- the family again, and not the socket type of the node
    else if env.ndebug = false ∧ node.aiFamily ≠ hint.aiSocktype then .fault .assertion
    else if env.pushBackThrows addrs.length then .threw .vector
    else .returned (addrs ++ [.ofSockaddrIn node.aiAddr])

/-- The `try` block: how it ends, and `results`. -/
def tryBlock (env : GaiEnv) (r : GaiRequest) : GaiEnd × Option ℕ :=
  match env.answer r with
  | .failure .noname => (.returned [], none)
  | .failure .service => (.returned [], none)
  | .failure (.other code) => (.threw (runtimeError (env.gaiStrerror code)), none)
  | .success l =>
    if env.reserveThrows then (.threw .vector, some l.head)
    else
      match skipToEnd l.nodes (l.cells.length + 1) l.head with
      | none => (.fault .badRead, some l.head)
      | some results => (pushNode env r.hint l.nodes results [], some results)

/-- `::freeaddrinfo(results); throw;` -/
def handler (env : GaiEnv) (results : Option ℕ) (error : GaiException) : GaiResult where
  ending := if results.isSome ∨ env.unsetFreeReturns then .threw error else .fault .unsetFree
  freed := [results]

/-- `getaddrinfo_impl`. The call of `::freeaddrinfo` behind the handler is not reached: the `try`
block returns. -/
def getaddrinfoImpl (env : GaiEnv) (r : GaiRequest) : GaiResult :=
  match tryBlock env r with
  | (.threw error, results) => handler env results error
  | (ending, _) => ⟨ending, []⟩

/-! ### What it does -/

variable {env : GaiEnv} {r : GaiRequest} {l : AddrList}

/-- **The loop** does nothing but make `results` null. -/
theorem skipToEnd_of_chain {nodes : ℕ → Option AddrInfo} {p : ℕ} {cells : List ℕ}
    (h : Chain 0 (addrLinks nodes) p cells) : skipToEnd nodes (cells.length + 1) p = some 0 := by
  induction cells generalizing p with
  | nil =>
    obtain rfl : p = 0 := h
    rfl
  | cons a cells ih =>
    obtain ⟨rfl, ha, q, hq, hrest⟩ := h
    obtain ⟨node, hnode, rfl⟩ := Option.map_eq_some_iff.1 hq
    rw [List.length_cons, skipToEnd, if_neg ha, hnode, Option.bind_some]
    exact ih hrest

/-- After a success it reads through null, unless `reserve` has thrown. -/
theorem getaddrinfoImpl_of_success (h : env.answer r = .success l) :
    getaddrinfoImpl env r =
      if env.reserveThrows then ⟨.threw .vector, [some l.head]⟩ else ⟨.fault .badRead, []⟩ := by
  cases hreserve : env.reserveThrows with
  | true => simp [getaddrinfoImpl, tryBlock, h, hreserve, handler]
  | false => simp [getaddrinfoImpl, tryBlock, h, hreserve, skipToEnd_of_chain l.chain, pushNode]

theorem getaddrinfoImpl_of_noname (h : env.answer r = .failure .noname) :
    getaddrinfoImpl env r = ⟨.returned [], []⟩ := by
  rw [getaddrinfoImpl, tryBlock, h]

theorem getaddrinfoImpl_of_service (h : env.answer r = .failure .service) :
    getaddrinfoImpl env r = ⟨.returned [], []⟩ := by
  rw [getaddrinfoImpl, tryBlock, h]

/-- After another failure it releases the unset pointer. -/
theorem getaddrinfoImpl_of_other {code : ℤ} (h : env.answer r = .failure (.other code)) :
    getaddrinfoImpl env r =
      ⟨if env.unsetFreeReturns then .threw (runtimeError (env.gaiStrerror code))
        else .fault .unsetFree, [none]⟩ := by
  rw [getaddrinfoImpl, tryBlock, h]
  simp [handler]

/-! ### Every address, and one release -/

/-- The nodes are of the family and the socket type asked for. -/
def AddrList.AsAsked (l : AddrList) (hint : Hint) : Prop :=
  ∀ node ∈ l.contents, node.aiFamily = hint.aiFamily ∧ node.aiSocktype = hint.aiSocktype

/-- `getaddrinfo_impl` returns every address of the list, and none if there is nothing to resolve;
it throws `runtime_error` for another error. -/
structure ResolvesAll (env : GaiEnv) (r : GaiRequest) : Prop where
  success : ∀ l, env.answer r = .success l → l.AsAsked r.hint →
    (getaddrinfoImpl env r).ending =
      .returned (l.contents.map fun node ↦ .ofSockaddrIn node.aiAddr)
  noname : env.answer r = .failure .noname → (getaddrinfoImpl env r).ending = .returned []
  service : env.answer r = .failure .service → (getaddrinfoImpl env r).ending = .returned []
  other : ∀ code, env.answer r = .failure (.other code) →
    ∃ what, (getaddrinfoImpl env r).ending = .threw (.runtimeError what)

/-- **The condition.** The system fails, and if it does so with another error than the two,
`::freeaddrinfo` comes back from a call on the unset pointer. -/
def FailsHarmlessly (env : GaiEnv) (r : GaiRequest) : Prop :=
  ∃ error, env.answer r = .failure error ∧
    (error = .noname ∨ error = .service ∨ env.unsetFreeReturns = true)

/-- **Every address is returned** only if there is none: exactly if the call fails harmlessly. -/
theorem resolvesAll_iff (h : ∀ l, env.answer r = .success l → l.AsAsked r.hint) :
    ResolvesAll env r ↔ FailsHarmlessly env r := by
  constructor
  · intro hresolves
    cases hanswer : env.answer r with
    | success l =>
      have hend := hresolves.success l hanswer (h l hanswer)
      rw [getaddrinfoImpl_of_success hanswer] at hend
      split at hend <;> cases hend
    | failure error =>
      refine ⟨error, hanswer, ?_⟩
      cases error with
      | noname => exact .inl rfl
      | service => exact .inr (.inl rfl)
      | other code =>
        obtain ⟨what, hend⟩ := hresolves.other code hanswer
        rw [getaddrinfoImpl_of_other hanswer] at hend
        cases hfree : env.unsetFreeReturns with
        | true => exact .inr (.inr rfl)
        | false => simp [hfree] at hend
  · rintro ⟨error, hanswer, hharmless⟩
    refine ⟨fun l hl ↦ ?_, fun hnoname ↦ ?_, fun hservice ↦ ?_, fun code hcode ↦ ?_⟩
    · cases hanswer.symm.trans hl
    · rw [getaddrinfoImpl_of_noname hnoname]
    · rw [getaddrinfoImpl_of_service hservice]
    · cases hanswer.symm.trans hcode
      have hfree : env.unsetFreeReturns = true := by simpa using hharmless
      rw [getaddrinfoImpl_of_other hcode, if_pos hfree]
      exact ⟨_, rfl⟩

/-- A system that gives one answer, and in which nothing else goes wrong. -/
def answering (answer : GaiAnswer) : GaiEnv where
  getaddrinfo _ _ _ := answer
  gaiStrerror _ := ['e', 'r', 'r', 'o', 'r']
  ndebug := false
  reserveThrows := false
  pushBackThrows _ := false
  unsetFreeReturns := true

/-- The one address `127.0.0.1:80`. -/
def oneNode : AddrList where
  head := 16
  nodes p := if p = 16 then some ⟨pfInet, sockStream, localhost80, 0⟩ else none
  cells := [16]
  chain := ⟨rfl, by decide, 0, rfl, rfl⟩

theorem asAsked_oneNode (passive : Bool) (l : AddrList)
    (h : (answering (.success oneNode)).answer (.tcpTransport passive ['x'] ['8', '0']) =
      .success l) : l.AsAsked (GaiRequest.tcpTransport passive ['x'] ['8', '0']).hint := by
  cases h
  rw [AddrList.AsAsked]
  cases passive <;> decide

/-- A name that is not known, and one that is known. -/
theorem resolvesAll_noname_not_oneNode :
    ResolvesAll (answering (.failure .noname)) (.tcpTransport false ['x'] ['8', '0']) ∧
      ¬ ResolvesAll (answering (.success oneNode)) (.tcpTransport false ['x'] ['8', '0']) := by
  refine ⟨(resolvesAll_iff (by rintro l ⟨⟩)).2 ⟨.noname, rfl, .inl rfl⟩, fun hresolves ↦ ?_⟩
  obtain ⟨error, hanswer, -⟩ := (resolvesAll_iff (asAsked_oneNode false)).1 hresolves
  cases hanswer

/-- **One address** is too many: the function reads through null. -/
theorem one_address_not_returned : ¬ ∀ (env : GaiEnv) (r : GaiRequest),
    (∀ l, env.answer r = .success l → l.AsAsked r.hint) → ResolvesAll env r := by
  intro hall
  have hend := (hall (answering (.success oneNode)) (.tcpTransport true ['x'] ['8', '0'])
    (asAsked_oneNode true)).success oneNode rfl (asAsked_oneNode true oneNode rfl)
  rw [getaddrinfoImpl_of_success rfl] at hend
  cases hend

/-- A list that the system returned is released once, at its head. The unset pointer is not
released. -/
structure ReleasesOnce (env : GaiEnv) (r : GaiRequest) : Prop where
  success : ∀ l, env.answer r = .success l → (getaddrinfoImpl env r).freed = [some l.head]
  failure : ∀ error, env.answer r = .failure error → none ∉ (getaddrinfoImpl env r).freed

/-- **The list is released once**, and the unset pointer is not, exactly if `reserve` throws after
a success, and a failure is one of the two. -/
theorem releasesOnce_iff (env : GaiEnv) (r : GaiRequest) :
    ReleasesOnce env r ↔ (∀ l, env.answer r = .success l → env.reserveThrows = true) ∧
      ∀ code, env.answer r ≠ .failure (.other code) := by
  constructor
  · intro hreleases
    refine ⟨fun l hl ↦ ?_, fun code hcode ↦ ?_⟩
    · have hfreed := hreleases.success l hl
      rw [getaddrinfoImpl_of_success hl] at hfreed
      cases hreserve : env.reserveThrows with
      | true => rfl
      | false => simp [hreserve] at hfreed
    · have hfreed := hreleases.failure _ hcode
      rw [getaddrinfoImpl_of_other hcode] at hfreed
      exact hfreed (List.mem_singleton_self none)
  · rintro ⟨hsuccess, hfailure⟩
    refine ⟨fun l hl ↦ ?_, fun error herror ↦ ?_⟩
    · rw [getaddrinfoImpl_of_success hl, if_pos (hsuccess l hl)]
    · cases error with
      | noname => rw [getaddrinfoImpl_of_noname herror]; exact List.not_mem_nil
      | service => rw [getaddrinfoImpl_of_service herror]; exact List.not_mem_nil
      | other code => exact absurd herror (hfailure code)

/-- **An error of the resolver** makes the function release a pointer that was never set. -/
theorem unset_pointer_released : ¬ ∀ (env : GaiEnv) (r : GaiRequest), ReleasesOnce env r := by
  intro hall
  have hfreed := (hall (answering (.failure (.other (-3)))) (.tcpTransport true ['x'] ['8', '0'])
    ).failure _ rfl
  exact absurd hfreed (by decide)

end Libk2.Ipv4
