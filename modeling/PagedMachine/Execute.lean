import PagedMachine.Arith
import PagedMachine.Block
import PagedMachine.Transfer
import PagedMachine.Trap

/-!
# Execution of instructions

`execute` runs one decoded operation, with the program counter already behind it, and `executeNext`
fetches, decodes and runs the next one.
-/

set_option autoImplicit false

namespace PagedMachine.Machine

/-- Cycles between two polls of the devices. -/
def pollInterval : UInt32 := 4096

/-- The address an immediate names: relative to the stack pointer, to the program counter, or to
the register `index`. -/
def effectiveAddress (r : Registers) (slot : Slot) (index imm : UInt32) : UInt32 :=
  match slot with
  | .stack => r.sp + imm
  | .code => r.pc + imm
  | .data => index + imm

/-- Changes the paging registers and empties the caches. -/
def setSpace (space : AddressSpace) : Exec Unit := do
  modifyRegs ({ · with space })
  modifyMemory (·.flush)

/-- Waits for an interrupt: polls the devices once, and runs again unless one came. -/
def idle : Exec Flow := do
  let m ← get
  require m.regs.iena (.fault .illegalInstruction)
  require (m.timer.enabled || m.bridge.console.isOpen) (.fatal .idleWithoutInterruptSource)
  match ← pollConsole with
  | .escape => return .escape
  | .key _ =>
    raiseInterrupt .keyboard
    return .go
  | .quiet =>
    modifyRegs fun r => { r with cycle := r.cycle + pollInterval.toUInt64 }
    if ← tickTimer pollInterval then
      raiseInterrupt .timer
      return .go
    else
      setPc (← get).ipc
      return .go

/-- Runs integer arithmetic on register a. -/
def intArith (op : IntOp) (x : UInt32) : Exec Unit := do
  match op.eval? (← getRegs).a x with
  | some v => setInt .a v
  | none => throw (.fault .arithmetic)

/-- Runs an operation other than `halt` and `idle`. -/
def perform (op : Operation) (i : Instruction) : Exec Unit := do
  let r ← getRegs
  let imm := i.imm
  match op with
  | .halt | .idle | .nop => return
  -- calls
  | .enter => setSp (r.sp + imm)
  | .leave =>
    let frame := r.sp + imm
    setPc (← readSlot frame)
    setSp (frame + 8)
  | .jump => setPc (r.pc + imm)
  | .jumpTable =>
    let offset ← loadInt .code (r.pc + imm + (r.a <<< 2)) .word
    setPc (r.pc + offset)
  | .call =>
    push r.pc
    setPc (r.pc + imm)
  | .callIndirect =>
    push r.pc
    setPc r.a
  | .address slot => setInt .a (effectiveAddress r slot 0 imm)
  | .readCycle => setInt .a r.cycle.toUInt32
  | .block op => block op
  -- registers and memory
  | .load dst slot w =>
    setInt dst (← loadInt slot (effectiveAddress r slot (r.int dst) imm) w)
  | .loadFloat dst slot w =>
    let index := match dst with
      | .f => r.a
      | .g => r.b
    setFloat dst (← loadFloat slot (effectiveAddress r slot index imm) w)
  | .immediate dst => setInt dst imm
  | .immediateHigh dst => setInt dst ((r.int dst <<< 24) ||| i.rawImm)
  | .immediateFloat dst => setFloat dst ((Double.ofSigned imm).div (Double.ofSigned 256))
  | .copyA dst => setInt dst r.a
  | .copyF => setFloat .g r.f
  | .store slot w => storeInt slot (effectiveAddress r slot r.b imm) w r.a
  | .storeFloat slot w => storeFloat slot (effectiveAddress r slot r.b imm) w r.f
  -- arithmetic
  | .floatArith op =>
    match op.eval? r.f r.g with
    | some v => setFloat .f v
    | none => throw (.fault .arithmetic)
  | .intArith op .register => intArith op r.b
  | .intArith op .immediate => intArith op imm
  | .intArith op .stack => intArith op (← loadInt .stack (r.sp + imm) .word)
  | .compare rel => setInt .a (if rel.eval r.a r.b r.f r.g then 1 else 0)
  | .branch cond =>
    if cond.eval r.a r.b r.f r.g then setPc (r.pc + imm)
  | .convert .ofSigned => setFloat .f (Double.ofSigned r.a)
  | .convert .ofUnsigned => setFloat .f (Double.ofUnsigned r.a)
  | .convert .toSigned => setInt .a r.f.toSigned
  | .convert .toUnsigned => setInt .a r.f.toUnsigned
  | .math op => setFloat .f (op.eval r.f r.g)
  -- stack
  | .setStack => setSp r.a
  | .push src => push (r.int src)
  | .pushImmediate => push imm
  | .pushFloat src => pushFloat (r.float src)
  | .pop dst => setInt dst (← pop)
  | .popFloat dst => setFloat dst (← popFloat)
  -- control
  | .trap => throw (.fault .syscallTrap)
  | .disableInterrupts =>
    modifyRegs fun r => { r with a := if r.iena then 1 else 0, iena := false }
  | .enableInterrupts => enableInterrupts
  | .returnFromInterrupt => returnFromInterrupt
  | .setVector => modifyRegs fun r => { r with ivec := r.a }
  | .setDirectory =>
    let base := pageBase r.a
    require (base.toNat + pageSize.toNat ≤ (← getRam).size.toNat)
      (.fault (.badPhysicalAddress none))
    setSpace { r.space with directory := some base }
  | .setPaging =>
    require (r.a = 0 || r.space.directory.isSome) (.fault (.badPhysicalAddress none))
    setSpace { r.space with paging := r.a ≠ 0 }
  | .setTimer =>
    if imm = 0 then
      modify fun m => { m with timer := m.timer.setTimeout r.a }
  | .faultAddress => setInt .a r.vadr
  | .userStack => setInt .a r.usp
  | .setUserStack => modifyRegs fun r => { r with usp := r.a }
  | .memorySize => setInt .a (← getRam).size
  -- host
  | .readKey =>
    match ← onBridge (·.takeKey) with
    | some k =>
      note (.keyRead k)
      setInt .a k.toUInt32
    | none => setInt .a 0xffffffff
  | .writeByte =>
    let result ← onBridge (·.put r.a r.b.toUInt8)
    setInt .a result.toUInt32
  | .network op => network op

/-- Runs a decoded operation. -/
def execute (op : Operation) (i : Instruction) : Exec Flow := do
  match op with
  | .halt => return .halt (← getRegs).a
  | .idle => idle
  | op =>
    perform op i
    return .go

/-- Fetches the instruction at the program counter, which must be aligned. -/
def fetch : Exec Instruction := do
  let pc := (← getRegs).pc
  require (pc &&& 3 = 0) (.fatal (.misalignedPc pc))
  modify fun m => { m with ipc := pc }
  let pa ← resolve .code pc .fetch
  let i : Instruction := ⟨(← getRam).read32 pa⟩
  modify fun m => { m with ir := i }
  setPc (pc + 4)
  return i

/-- The operation of an instruction, if the current mode may execute it. -/
def decode (i : Instruction) : Exec Operation := do
  match i.operation? with
  | none => throw (.fault .illegalInstruction)
  | some op =>
    require (!((← getRegs).user && op.privileged)) (.fault .privilegeViolation)
    return op

def executeNext : Exec Flow := do
  let i ← fetch
  let op ← decode i
  execute op i

end PagedMachine.Machine
