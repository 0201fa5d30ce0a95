import PagedMachine.Access

/-!
# Socket transfers

The socket operations of the guest, with descriptor and arguments in registers a, b and c and the
result in a. The addresses of a guest buffer are all resolved before the host is called, so a page
fault restarts the instruction before anything has reached the host.
-/

set_option autoImplicit false

namespace PagedMachine.Machine

/-- Resolves all pages of a guest buffer. -/
def resolveRange (vaddr : UInt32) (len : Nat) (access : Access) : Guarded Unit := do
  let r ← getRegs
  onMemory (Memory.resolveRange r.space vaddr len access r.user)

/-- The length of a transfer of `c` bytes, which is at most `Sockets.maxTransfer`. -/
def transferLength (c : UInt32) : Nat := min c.toNat Sockets.maxTransfer.toNat

/-- Writes bytes to guest memory within a page. -/
def writeChunk (vaddr : UInt32) (data : ByteArray) : Guarded Unit := do
  let pa ← resolve .data vaddr .store
  require ((← getRam).holds pa data.size) (.badPhysicalAddress (some vaddr))
  modifyRam (·.blit pa data)

/-- Reads `len` bytes of guest memory within a page. -/
def readChunk (vaddr : UInt32) (len : Nat) : Guarded ByteArray := do
  let pa ← resolve .data vaddr .load
  match (← getRam).slice? pa len with
  | some data => return data
  | none => throw (.badPhysicalAddress (some vaddr))

/-- Copies bytes into guest memory, page by page. -/
def copyToGuest (vaddr : UInt32) (data : ByteArray) : Guarded Unit :=
  if data.size = 0 then
    pure ()
  else do
    let n := min (pageLeft vaddr).toNat data.size
    writeChunk vaddr (data.extract 0 n)
    copyToGuest (vaddr + n.toUInt32) (data.extract n data.size)
termination_by data.size
decreasing_by
  have := pageLeft_pos vaddr
  simp only [ByteArray.size_extract]
  omega

/-- Sends the `len` bytes at `vaddr`, page by page, until the host takes less than it is given.
The result is the count of all bytes sent, `sent` of them before, or the host's error if none
were. -/
def sendFromGuest (fd vaddr : UInt32) (len sent : Nat) : Guarded UInt32 :=
  if len = 0 then
    return sent.toUInt32
  else do
    let n := min (pageLeft vaddr).toNat len
    let data ← readChunk vaddr n
    let r ← onSockets (·.send fd data)
    let taken := r.toInt.toNat
    if taken = 0 then
      return if sent > 0 then sent.toUInt32 else r.toUInt32
    else if taken < n then
      return (sent + taken).toUInt32
    else
      sendFromGuest fd (vaddr + taken.toUInt32) (len - taken) (sent + taken)
termination_by len
decreasing_by omega

def receiveToGuest (fd vaddr c : UInt32) : Guarded UInt32 := do
  if c.toInt32 ≤ 0 then
    return 0
  else
    resolveRange vaddr (transferLength c) .store
    let (n, data) ← onSockets fun s =>
      match s.receive fd (transferLength c) with
      | (n, data, s) => ((n, data), s)
    copyToGuest vaddr data
    return n.toUInt32

def sendBuffer (fd vaddr c : UInt32) : Guarded UInt32 := do
  if c.toInt32 ≤ 0 then
    return c
  else
    resolveRange vaddr (transferLength c) .load
    sendFromGuest fd vaddr (transferLength c) 0

/-- Runs a call that the socket table answers at once. -/
@[inline] def callSockets (call : Sockets → Int32 × Sockets) : Guarded UInt32 := do
  let r ← onSockets call
  return r.toUInt32

/-- Runs a socket operation and gives its result. -/
def socketResult (op : SocketOp) (a b c : UInt32) : Guarded UInt32 :=
  match op with
  | .socket => callSockets (·.socket a b c)
  | .close => callSockets (·.close a)
  | .connect => callSockets (·.connect a b c)
  | .receive => receiveToGuest a b c
  | .send => sendBuffer a b c
  | .readable => callSockets (·.readable a)
  | .bind => callSockets (·.bind a b c)
  | .listen => callSockets (·.listen a b)
  | .accept => callSockets (·.accept a)

/-- Runs a socket operation on the registers. -/
def network (op : SocketOp) : Guarded Unit := do
  let r ← getRegs
  setInt .a (← socketResult op r.a r.b r.c)

end PagedMachine.Machine
