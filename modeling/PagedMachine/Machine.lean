import PagedMachine.Bridge
import PagedMachine.Double
import PagedMachine.Instruction
import PagedMachine.Memory
import PagedMachine.Timer

/-!
# The machine

Registers, memory, timer and host bridge. Code that may stop runs in a state monad that keeps the
machine when it stops: `Guarded` stops with a fault of the guest, `Delivery` with a fatal error,
`Exec` with either.
-/

set_option autoImplicit false

namespace PagedMachine

structure Registers where
  a : UInt32 := 0
  b : UInt32 := 0
  c : UInt32 := 0
  f : Double := Double.zero
  g : Double := Double.zero
  sp : UInt32 := 0
  /-- Address of the next instruction. -/
  pc : UInt32 := 0
  /-- User mode. -/
  user : Bool := false
  /-- Interrupts are enabled. -/
  iena : Bool := false
  /-- Interrupts that came while they were masked. -/
  ipend : UInt32 := 0
  /-- Code of the last entry to the kernel. -/
  trap : UInt32 := 0
  /-- Where the kernel is entered. -/
  ivec : UInt32 := 0
  /-- The last address that could not be resolved. -/
  vadr : UInt32 := 0
  space : AddressSpace := {}
  /-- The stack pointer of user mode while the kernel runs. -/
  usp : UInt32 := 0
  /-- The stack pointer of the kernel while user mode runs. -/
  ssp : UInt32 := 0
  cycle : UInt64 := 0
deriving DecidableEq, Inhabited

namespace Registers

def int (r : Registers) : IntReg → UInt32
  | .a => r.a
  | .b => r.b
  | .c => r.c

def setInt (r : Registers) (dst : IntReg) (v : UInt32) : Registers :=
  match dst with
  | .a => { r with a := v }
  | .b => { r with b := v }
  | .c => { r with c := v }

def float (r : Registers) : FloatReg → Double
  | .f => r.f
  | .g => r.g

def setFloat (r : Registers) (dst : FloatReg) (v : Double) : Registers :=
  match dst with
  | .f => { r with f := v }
  | .g => { r with g := v }

end Registers

/-- What passed between the devices and the guest. -/
inductive Event
  /-- A byte came from the console into the latch. -/
  | keyLatched (b : UInt8)
  /-- The guest took the latched byte. -/
  | keyRead (b : UInt8)
  | timerExpired
  /-- A timer or keyboard interrupt entered the kernel. -/
  | interrupted (cause : Fault)
deriving DecidableEq

structure Machine where
  regs : Registers := {}
  memory : Memory
  timer : Timer := {}
  bridge : Bridge := {}
  /-- Address of the instruction that runs. -/
  ipc : UInt32 := 0
  /-- The instruction that runs. -/
  ir : Instruction := ⟨0⟩
  /-- Bytes stored by block copies and fills. -/
  blockBytes : Nat := 0
  /-- What the devices did, latest first. -/
  journal : List Event := []
deriving Inhabited

/-- Why a machine cannot go on. -/
inductive FatalReason
  | doubleFault
  | kernelStackFault
  | misalignedPc (pc : UInt32)
  | idleWithoutInterruptSource
deriving DecidableEq, Inhabited

def FatalReason.message : FatalReason → String
  | doubleFault => "exception in interrupt handler"
  | kernelStackFault => "kernel stack fault"
  | misalignedPc pc => s!"pc {Radix.address pc} not word aligned"
  | idleWithoutInterruptSource => "idle with no interrupt source"

/-- Why an instruction did not complete. -/
inductive Stop
  | fault (f : Fault)
  | fatal (r : FatalReason)
deriving DecidableEq, Inhabited

/-- What a step tells the loop that runs it. -/
inductive Flow
  | go
  | halt (code : UInt32)
  | escape
deriving DecidableEq, Inhabited

abbrev Guarded := EStateM Fault Machine

abbrev Delivery := EStateM FatalReason Machine

abbrev Exec := EStateM Stop Machine

@[inline] instance : MonadLift Guarded Exec := ⟨EStateM.adaptExcept .fault⟩

@[inline] instance : MonadLift Delivery Exec := ⟨EStateM.adaptExcept .fatal⟩

namespace Machine

variable {ε : Type}

/-! ## Parts of the state -/

@[inline] def getRegs : EStateM ε Machine Registers := do
  return (← get).regs

@[inline] def modifyRegs (fn : Registers → Registers) : EStateM ε Machine Unit :=
  modify fun m =>
    match m with
    | { regs, memory, timer, bridge, ipc, ir, blockBytes, journal } =>
      { regs := fn regs, memory, timer, bridge, ipc, ir, blockBytes, journal }

@[inline] def setInt (dst : IntReg) (v : UInt32) : EStateM ε Machine Unit :=
  modifyRegs (·.setInt dst v)

@[inline] def setFloat (dst : FloatReg) (v : Double) : EStateM ε Machine Unit :=
  modifyRegs (·.setFloat dst v)

@[inline] def setPc (pc : UInt32) : EStateM ε Machine Unit :=
  modifyRegs ({ · with pc })

@[inline] def setSp (sp : UInt32) : EStateM ε Machine Unit :=
  modifyRegs ({ · with sp })

@[inline] def modifyMemory (fn : Memory → Memory) : EStateM ε Machine Unit :=
  modify fun m =>
    match m with
    | { regs, memory, timer, bridge, ipc, ir, blockBytes, journal } =>
      { regs, memory := fn memory, timer, bridge, ipc, ir, blockBytes, journal }

@[inline] def modifyRam (fn : Ram → Ram) : EStateM ε Machine Unit :=
  modifyMemory (·.mapRam fn)

@[inline] def getRam : EStateM ε Machine Ram := do
  return (← get).memory.ram

/-- Runs code on the memory alone. -/
@[inline] def onMemory {α : Type} (x : EStateM ε Memory α) : EStateM ε Machine α := fun m =>
  match m with
  | { regs, memory, timer, bridge, ipc, ir, blockBytes, journal } =>
    match x memory with
    | .ok v memory => .ok v { regs, memory, timer, bridge, ipc, ir, blockBytes, journal }
    | .error e memory => .error e { regs, memory, timer, bridge, ipc, ir, blockBytes, journal }

/-- Runs a call of the bridge. -/
@[inline] def onBridge {α : Type} (fn : Bridge → α × Bridge) : EStateM ε Machine α :=
  modifyGet fun m =>
    match m with
    | { regs, memory, timer, bridge, ipc, ir, blockBytes, journal } =>
      match fn bridge with
      | (v, bridge) => (v, { regs, memory, timer, bridge, ipc, ir, blockBytes, journal })

/-- Runs a call of the socket table. -/
@[inline] def onSockets {α : Type} (fn : Sockets → α × Sockets) : EStateM ε Machine α :=
  onBridge fun b =>
    match b with
    | { console, sockets, latch, escape } =>
      match fn sockets with
      | (v, sockets) => (v, { console, sockets, latch, escape })

@[inline] def note (e : Event) : EStateM ε Machine Unit :=
  modify fun m => { m with journal := e :: m.journal }

/-- Advances the timer by `ticks` and says whether it fired. -/
def tickTimer (ticks : UInt32) : EStateM ε Machine Bool :=
  modifyGet fun m =>
    match m.timer.tick ticks with
    | (true, timer) => (true, { m with timer, journal := .timerExpired :: m.journal })
    | (false, timer) => (false, { m with timer })

/-- Polls the console; a byte that is not the escape byte goes into the latch. -/
def pollConsole : EStateM ε Machine ConsoleEvent := do
  match ← onBridge (·.poll) with
  | .key b =>
    note (.keyLatched b)
    return .key b
  | event => return event

/-! ## Memory accesses -/

/-- The physical address of `vaddr` in the current mode. -/
def resolve (slot : Slot) (vaddr : UInt32) (access : Access) : Guarded UInt32 := do
  let r ← getRegs
  onMemory (Memory.resolve r.space slot vaddr access r.user)

end Machine

end PagedMachine
