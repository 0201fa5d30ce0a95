/-!
# Faults

The causes of an entry to the kernel: faults of an instruction and the two device interrupts. Each
has a code that the kernel finds on its stack. A fault over an address lets the instruction start
over; any other cause resumes after it.
-/

set_option autoImplicit false

namespace PagedMachine

inductive Fault
  /-- A physical address outside memory, reached through an address or, without one, given to a
  paging register. -/
  | badPhysicalAddress (vaddr : Option UInt32)
  | timer
  | keyboard
  | privilegeViolation
  | illegalInstruction
  | syscallTrap
  | arithmetic
  | instructionPageFault (vaddr : UInt32)
  | writePageFault (vaddr : UInt32)
  | readPageFault (vaddr : UInt32)
deriving DecidableEq, Inhabited

namespace Fault

def code : Fault → UInt32
  | badPhysicalAddress _ => 0
  | timer => 1
  | keyboard => 2
  | privilegeViolation => 3
  | illegalInstruction => 4
  | syscallTrap => 5
  | arithmetic => 6
  | instructionPageFault _ => 7
  | writePageFault _ => 8
  | readPageFault _ => 9

/-- Set beside the code of a fault that was taken from user mode. -/
def userBit : UInt32 := 16

/-- The address that could not be resolved. -/
def vaddr? : Fault → Option UInt32
  | badPhysicalAddress v => v
  | instructionPageFault v | writePageFault v | readPageFault v => some v
  | _ => none

/-- Whether the kernel returns to the faulting instruction and not to the next one. -/
def restarts (f : Fault) : Bool := f.vaddr?.isSome

/-! ## Pending interrupts -/

/-- The bit that records a masked interrupt; other causes have none. -/
def pendingBit : Fault → UInt32
  | timer => 1
  | keyboard => 2
  | _ => 0

/-- The lowest pending interrupt. -/
def ofPending? (pending : UInt32) : Option Fault :=
  if pending &&& timer.pendingBit ≠ 0 then some timer
  else if pending &&& keyboard.pendingBit ≠ 0 then some keyboard
  else none

end Fault

end PagedMachine
