import PagedMachine.Access

/-!
# Entering and leaving the kernel

An entry switches to the kernel's stack, pushes the address to resume at and the code of the cause,
and goes on at the interrupt vector:

```text
sp + 8  address to resume at
sp + 0  code, with 16 added if it came from user mode
```

Interrupts are masked while `iena` is clear; one that comes then waits in `ipend`.
-/

set_option autoImplicit false

namespace PagedMachine

namespace Registers

/-- Records a fault of the instruction at `ipc`: where to resume, and the address if it has one. -/
def blame (r : Registers) (cause : Fault) (ipc : UInt32) : Registers :=
  { r with
    pc := if cause.restarts then ipc else r.pc
    vadr := cause.vaddr?.getD r.vadr }

/-- Goes on at `pc`, in user mode if the code says that the kernel was entered from there. -/
def resume (r : Registers) (code pc : UInt32) : Registers :=
  if code &&& Fault.userBit ≠ 0 then
    { r with pc, ssp := r.sp, sp := r.usp, user := true }
  else
    { r with pc }

end Registers

namespace Machine

/-! ## Entry -/

/-- Runs an access to the kernel's stack, where every fault is fatal. -/
@[inline] def onKernelStack {α : Type} (x : Guarded α) : Delivery α :=
  EStateM.adaptExcept (fun _ => .kernelStackFault) x

def pushKernel (v : UInt32) : Delivery Unit := onKernelStack (push v)

def popKernel : Delivery UInt32 := onKernelStack pop

/-- Leaves user mode for the kernel's stack, if user mode runs, and gives the code for the cause. -/
def enterKernel (cause : Fault) : Delivery UInt32 := do
  if (← getRegs).user then
    modifyRegs fun r => { r with usp := r.sp, sp := r.ssp, user := false }
    return cause.code ||| Fault.userBit
  else
    return cause.code

/-- Enters the kernel for `cause`. -/
def deliver (cause : Fault) : Delivery Unit := do
  let code ← enterKernel cause
  modifyRegs ({ · with trap := code })
  pushKernel (← getRegs).pc
  pushKernel code
  setPc (← getRegs).ivec
  modifyMemory (·.invalidatePath)

/-- Enters the kernel for a fault of the running instruction, which needs interrupts enabled. -/
def raiseException (cause : Fault) : Delivery Unit := do
  if (← getRegs).iena then
    let ipc := (← get).ipc
    modifyRegs (·.blame cause ipc)
    deliver cause
  else
    modifyRegs ({ · with trap := cause.code })
    throw .doubleFault

/-- Enters the kernel for an interrupt and masks further ones. -/
def raiseInterrupt (cause : Fault) : Delivery Unit := do
  modifyRegs ({ · with iena := false })
  deliver cause
  note (.interrupted cause)

/-- Delivers an interrupt if they are enabled and records it as pending if not; says which. -/
def postInterrupt (cause : Fault) : Delivery Bool := do
  if (← getRegs).iena then
    raiseInterrupt cause
    return true
  else
    modifyRegs fun r => { r with ipend := r.ipend ||| cause.pendingBit }
    return false

/-- Delivers the lowest pending interrupt, if there is one. -/
def deliverPending : Delivery Bool := do
  match Fault.ofPending? (← getRegs).ipend with
  | some cause =>
    modifyRegs fun r => { r with ipend := r.ipend &&& ~~~cause.pendingBit }
    raiseInterrupt cause
    return true
  | none => return false

/-! ## Exit -/

/-- Enables interrupts, unless one is pending: it is delivered instead. -/
def enableInterrupts : Delivery Unit := do
  if ← deliverPending then
    return
  else
    modifyRegs ({ · with iena := true })

/-- Returns from the kernel to what the top of its stack describes. -/
def returnFromInterrupt : Delivery Unit := do
  let code ← popKernel
  let pc ← popKernel
  modifyRegs (·.resume code pc)
  modifyMemory (·.invalidatePath)
  if (← getRegs).iena then
    return
  else
    enableInterrupts

end Machine

end PagedMachine
