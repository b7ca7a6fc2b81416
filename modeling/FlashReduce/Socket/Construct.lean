import FlashReduce.Library.Triple

/-!
# The constructors of SocketEndpoint

The constructors resolve an address, open a socket, and connect it or accept a connection
on it.  They retry, and throw in several places; the operating system may let any call
fail.

* `Os` are the calls that the constructors make, over any type of worlds.  A `Ledger` is
  what a world owes its caller: open descriptors, strings and address lists that were not
  freed, and the history of the calls that try an address, with their results.  The laws of
  a call say how it changes the ledger, and only where the call is allowed: nothing is known
  of a world in which something was freed twice or a closed descriptor was used.
* `startListening`, `SocketEndpoint.daemon` and `SocketEndpoint.client` are the code, and
  `SocketEndpoint.destroy` is the destructor.
-/

namespace FlashReduce
namespace Socket

open Library Library.Fallible

/-- A call that tries an address, with its result, or a `sleep(1)`. -/
inductive SocketEvent (Address : Type) where
  | socket (t : Address) (fd : Int)
  | bind (fd : Int) (t : Address) (rc : Int)
  | connect (fd : Int) (t : Address) (rc : Int)
  | sleep
  deriving DecidableEq

/-- What is open or allocated, and what was done to get there. -/
structure Ledger (Address : Type) where
  descriptors : List Int
  /-- the strings of `asprintf` -/
  strings : List Nat
  /-- the lists of `getaddrinfo` -/
  infos : List Nat
  /-- the addresses of the last such list -/
  resolved : List Address
  events : List (SocketEvent Address)
  deriving DecidableEq

/-- The ledger after one more call. -/
def Ledger.record {Address : Type} (L : Ledger Address) (event : SocketEvent Address) :
    Ledger Address :=
  { L with events := L.events ++ [event] }

/-- What `getaddrinfo` returns: its result, the list, and the addresses in the list. -/
structure Resolution (Address : Type) where
  n : Int
  res : Nat
  addresses : List Address

/-- The calls of the constructors. -/
structure Os (World Address : Type) where
  ledger : World → Ledger Address
  asprintf : Int → World → Option Nat × World
  free : Nat → World → World
  getaddrinfo : Option String → Nat → Bool → World → Resolution Address × World
  freeaddrinfo : Nat → World → World
  socket : Address → World → Int × World
  setsockopt : Int → World → World
  bind : Int → Address → World → Int × World
  connect : Int → Address → World → Int × World
  listen : Int → World → World
  accept : Int → World → Int × World
  getpeername : Int → World → World
  close : Int → World → World
  sleep : World → World
  asprintf_none : ∀ port w, (asprintf port w).1 = none → ledger (asprintf port w).2 = ledger w
  asprintf_some : ∀ port w service, (asprintf port w).1 = some service →
    service ∉ (ledger w).strings ∧
      ledger (asprintf port w).2 = { ledger w with strings := service :: (ledger w).strings }
  free_ledger : ∀ service w, service ∈ (ledger w).strings →
    ledger (free service w) = { ledger w with strings := (ledger w).strings.erase service }
  -- the errors of `getaddrinfo` are negative
  getaddrinfo_fail : ∀ node service passive w, service ∈ (ledger w).strings →
    (getaddrinfo node service passive w).1.n < 0 →
      ledger (getaddrinfo node service passive w).2 = ledger w
  getaddrinfo_list : ∀ node service passive w, service ∈ (ledger w).strings →
    0 ≤ (getaddrinfo node service passive w).1.n →
      (getaddrinfo node service passive w).1.res ∉ (ledger w).infos ∧
      ledger (getaddrinfo node service passive w).2 =
        { ledger w with
          infos := (getaddrinfo node service passive w).1.res :: (ledger w).infos
          resolved := (getaddrinfo node service passive w).1.addresses }
  freeaddrinfo_ledger : ∀ res w, res ∈ (ledger w).infos →
    ledger (freeaddrinfo res w) = { ledger w with infos := (ledger w).infos.erase res }
  socket_fail : ∀ t w, (socket t w).1 < 0 →
    ledger (socket t w).2 = (ledger w).record (.socket t (socket t w).1)
  socket_open : ∀ t w, 0 ≤ (socket t w).1 → (socket t w).1 ∉ (ledger w).descriptors ∧
    ledger (socket t w).2 =
      { (ledger w).record (.socket t (socket t w).1) with
        descriptors := (socket t w).1 :: (ledger w).descriptors }
  setsockopt_ledger : ∀ fd w, fd ∈ (ledger w).descriptors →
    ledger (setsockopt fd w) = ledger w
  bind_ledger : ∀ fd t w, fd ∈ (ledger w).descriptors →
    ledger (bind fd t w).2 = (ledger w).record (.bind fd t (bind fd t w).1)
  connect_ledger : ∀ fd t w, fd ∈ (ledger w).descriptors →
    ledger (connect fd t w).2 = (ledger w).record (.connect fd t (connect fd t w).1)
  listen_ledger : ∀ fd w, fd ∈ (ledger w).descriptors → ledger (listen fd w) = ledger w
  accept_fail : ∀ fd w, fd < 0 ∨ fd ∈ (ledger w).descriptors → (accept fd w).1 < 0 →
    ledger (accept fd w).2 = ledger w
  accept_open : ∀ fd w, fd ∈ (ledger w).descriptors → 0 ≤ (accept fd w).1 →
    (accept fd w).1 ∉ (ledger w).descriptors ∧
      ledger (accept fd w).2 =
        { ledger w with descriptors := (accept fd w).1 :: (ledger w).descriptors }
  accept_bad : ∀ fd w, fd < 0 → (accept fd w).1 < 0
  getpeername_ledger : ∀ fd w, fd ∈ (ledger w).descriptors →
    ledger (getpeername fd w) = ledger w
  close_open : ∀ fd w, 0 ≤ fd → fd ∈ (ledger w).descriptors →
    ledger (close fd w) = { ledger w with descriptors := (ledger w).descriptors.erase fd }
  close_bad : ∀ fd w, fd < 0 → ledger (close fd w) = ledger w
  sleep_ledger : ∀ w, ledger (sleep w) = (ledger w).record .sleep

variable {World Address : Type} (os : Os World Address)

/-- Code of the constructors; an exception is the message of a `std::runtime_error`. -/
abbrev Code (World α : Type) := Fallible World String α

/-- A call without a result. -/
def act (f : World → World) : Code World Unit := call fun w => ((), f w)

/-- The loop `for (t = res; t; t = t->ai_next)` of `startListening` and of the client: it stops
at the first socket for which `attempt` returns 0. -/
def openFirst (attempt : Int → Address → Code World Int) : Int → List Address → Code World Int
  | sockfd, [] => pure sockfd
  | _, t :: rest => do
      let sockfd ← call (os.socket t)
      if 0 ≤ sockfd then
        let rc ← attempt sockfd t
        if rc = 0 then pure sockfd
        else
          act (os.close sockfd)
          openFirst attempt (-1) rest
      else openFirst attempt sockfd rest

/-- `SocketEndpoint::startListening` -/
def startListening (port : Int) : Code World Int := do
  match ← call (os.asprintf port) with
  | none => raise "asprintf failed"
  | some service =>
      let found ← call (os.getaddrinfo none service true)
      if found.n < 0 then
        act (os.free service)
        pure (-1)
      else
        let sockfd ← openFirst os (fun sockfd t => do
          act (os.setsockopt sockfd)
          call (os.bind sockfd t)) (-1) found.addresses
        act (os.freeaddrinfo found.res)
        act (os.free service)
        if sockfd < 0 then raise s!"Couldn't listen to port {port}"
        else
          act (os.listen sockfd)
          pure sockfd

structure SocketEndpoint where
  sockfd : Int
  isDaemon : Bool
  deriving DecidableEq

/-- `SocketEndpoint(int port)` -/
def SocketEndpoint.daemon (port : Int) : Code World SocketEndpoint := do
  let sockfd ← startListening os port
  let connfd ← call (os.accept sockfd)
  act (os.close sockfd)
  if connfd < 0 then raise "accept() failed"
  else
    act (os.getpeername connfd)
    pure ⟨connfd, true⟩

/-- The label `connect:` of the client, where `left` is `5 - retry`. -/
def connectLoop (addresses : List Address) : Nat → Int → Code World Int
  | 0, sockfd => openFirst os (fun sockfd t => call (os.connect sockfd t)) sockfd addresses
  | left + 1, sockfd => do
      let sockfd ← openFirst os (fun sockfd t => call (os.connect sockfd t)) sockfd addresses
      if sockfd < 0 then
        act os.sleep
        connectLoop addresses left sockfd
      else pure sockfd

/-- `SocketEndpoint(const std::string &serverName, int port)` -/
def SocketEndpoint.client (serverName : String) (port : Int) : Code World SocketEndpoint := do
  match ← call (os.asprintf port) with
  | none => raise "asprintf failed"
  | some service =>
      let found ← call (os.getaddrinfo (some serverName) service false)
      if found.n < 0 then
        act (os.free service)
        raise "getaddrinfo failed"
      else
        let sockfd ← connectLoop os found.addresses 5 (-1)
        act (os.freeaddrinfo found.res)
        act (os.free service)
        if sockfd < 0 then raise s!"Couldn't connect to {serverName}:{port}"
        else pure ⟨sockfd, false⟩

/-- `~SocketEndpoint()` -/
def SocketEndpoint.destroy (endpoint : SocketEndpoint) (w : World) : World :=
  os.close endpoint.sockfd w

end Socket
end FlashReduce
