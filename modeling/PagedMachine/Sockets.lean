/-!
# Host sockets

The guest names sockets of the host by descriptor. Only descriptors that were opened for the guest
reach the host; a call on any other is answered here with -1. The host itself is a `Network`, which
answers a call in view of the calls made before, and `Sockets.calls` records what reached it.
-/

set_option autoImplicit false

namespace PagedMachine

/-- A call that the host answers. The address of a peer is two words. -/
inductive HostCall
  | socket
  | close (fd : Int32)
  | connect (fd : Int32) (peer host : UInt32)
  | bind (fd : Int32) (peer host : UInt32)
  | listen (fd : Int32) (backlog : Int32)
  /-- Asks for input on a descriptor: 1 if there is some, 0 if not, negative on an error. -/
  | readable (fd : Int32)
  | accept (fd : Int32)
  | receive (fd : Int32) (len : Nat)
  | send (fd : Int32) (data : ByteArray)

structure HostReply where
  result : Int32
  /-- The bytes received. -/
  data : ByteArray := ByteArray.empty

/-- The host's side: its answer to a call after the given calls, latest first. -/
structure Network where
  answer : List (HostCall × HostReply) → HostCall → HostReply

/-- A network without peers: sockets open and close, and nothing is ever exchanged. -/
def Network.isolated : Network where
  answer past
    | .socket => ⟨3 + Int32.ofNat (past.countP (·.1 matches .socket)), ByteArray.empty⟩
    | .close _ | .readable _ => ⟨0, ByteArray.empty⟩
    | _ => ⟨-1, ByteArray.empty⟩

structure Sockets where
  network : Network := Network.isolated
  /-- The open descriptors. -/
  owned : List Int32 := []
  /-- What reached the host, latest first. -/
  calls : List (HostCall × HostReply) := []

namespace Sockets

instance : Inhabited Sockets := ⟨{}⟩

/-- The most bytes that one transfer moves. -/
def maxTransfer : UInt32 := 4096

/-- The descriptor a guest word names, if it is open. -/
def owned? (s : Sockets) (fd : UInt32) : Option Int32 :=
  if s.owned.contains fd.toInt32 then some fd.toInt32 else none

/-- Makes a call and records it. -/
def ask (s : Sockets) (call : HostCall) : HostReply × Sockets :=
  let reply := s.network.answer s.calls call
  (reply, { s with calls := (call, reply) :: s.calls })

/-- Adds a descriptor that the host handed out; negative ones are errors. -/
def own (s : Sockets) (fd : Int32) : Sockets :=
  if fd ≥ 0 then { s with owned := s.owned.insert fd } else s

/-- Makes `call` on a descriptor of the guest. -/
def onOwned (s : Sockets) (fd : UInt32) (call : Int32 → HostCall) : Int32 × Sockets :=
  match s.owned? fd with
  | none => (-1, s)
  | some fd =>
    let (reply, s) := s.ask (call fd)
    (reply.result, s)

/-- Opens a socket; only TCP over IPv4 is offered. -/
def socket (s : Sockets) (family type protocol : UInt32) : Int32 × Sockets :=
  if family = 2 ∧ type = 1 ∧ (protocol = 0 ∨ protocol = 6) then
    let (reply, s) := s.ask .socket
    (reply.result, s.own reply.result)
  else (-1, s)

def close (s : Sockets) (fd : UInt32) : Int32 × Sockets :=
  match s.owned? fd with
  | none => (-1, s)
  | some fd =>
    let (reply, s) := { s with owned := s.owned.erase fd }.ask (.close fd)
    (reply.result, s)

def connect (s : Sockets) (fd peer host : UInt32) : Int32 × Sockets :=
  s.onOwned fd (.connect · peer host)

def bind (s : Sockets) (fd peer host : UInt32) : Int32 × Sockets :=
  s.onOwned fd (.bind · peer host)

def listen (s : Sockets) (fd backlog : UInt32) : Int32 × Sockets :=
  s.onOwned fd (.listen · backlog.toInt32)

/-- 1 if there is input, 0 if there is none, -1 on an error. -/
def readable (s : Sockets) (fd : UInt32) : Int32 × Sockets :=
  match s.onOwned fd .readable with
  | (r, s) => (if r < 0 then -1 else if r = 0 then 0 else 1, s)

/-- The descriptor of a waiting connection, -1 if none waits. -/
def accept (s : Sockets) (fd : UInt32) : Int32 × Sockets :=
  match s.readable fd with
  | (1, s) =>
    match s.onOwned fd .accept with
    | (conn, s) => (conn, s.own conn)
  | (_, s) => (-1, s)

/-- Reads at most `len` bytes, and no more than one transfer moves; the count is -1 if none are
ready. -/
def receive (s : Sockets) (fd : UInt32) (len : Nat) : Int32 × ByteArray × Sockets :=
  match s.readable fd with
  | (1, s) =>
    let len := min len maxTransfer.toNat
    let (reply, s) := s.ask (.receive fd.toInt32 len)
    if reply.result < 0 then (reply.result, ByteArray.empty, s)
    else
      let data := reply.data.extract 0 len
      (Int32.ofNat data.size, data, s)
  | (_, s) => (-1, ByteArray.empty, s)

/-- Sends the first bytes, as many as one transfer moves, and gives the count that the host took. -/
def send (s : Sockets) (fd : UInt32) (data : ByteArray) : Int32 × Sockets :=
  s.onOwned fd (.send · (data.extract 0 maxTransfer.toNat))

end Sockets

end PagedMachine
