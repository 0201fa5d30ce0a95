import PagedMachine.Machine
import PagedMachine.Width

/-!
# Loads, stores and the stack

Every access resolves its address before it changes a register, so an instruction that faults
here can be run again. The stack grows down in slots of eight bytes, each rounded down to a
multiple of eight; a word takes the low half of a slot.
-/

set_option autoImplicit false

namespace PagedMachine.Machine

def loadInt (slot : Slot) (vaddr : UInt32) (w : LoadWidth) : Guarded UInt32 := do
  let pa ← resolve slot (w.align vaddr) .load
  return w.read (← getRam) pa

def loadFloat (slot : Slot) (vaddr : UInt32) (w : FloatWidth) : Guarded Double := do
  let pa ← resolve slot (w.align vaddr) .load
  return w.read (← getRam) pa

def storeInt (slot : Slot) (vaddr : UInt32) (w : StoreWidth) (v : UInt32) : Guarded Unit := do
  let pa ← resolve slot (w.align vaddr) .store
  modifyRam (w.write · pa v)

def storeFloat (slot : Slot) (vaddr : UInt32) (w : FloatWidth) (v : Double) : Guarded Unit := do
  let pa ← resolve slot (w.align vaddr) .store
  modifyRam (w.write · pa v)

/-! ## Stack -/

/-- The word in the stack slot at `vaddr`. -/
def readSlot (vaddr : UInt32) : Guarded UInt32 := do
  let pa ← resolve .stack (alignTo8 vaddr) .load
  return (← getRam).read32 pa

def push (v : UInt32) : Guarded Unit := do
  let sp := (← getRegs).sp - 8
  let pa ← resolve .stack (alignTo8 sp) .store
  modifyRam (·.write32 pa v)
  setSp sp

def pushFloat (v : Double) : Guarded Unit := do
  let sp := (← getRegs).sp - 8
  let pa ← resolve .stack (alignTo8 sp) .store
  modifyRam (·.write64 pa v.bits)
  setSp sp

def pop : Guarded UInt32 := do
  let sp := (← getRegs).sp
  let v ← readSlot sp
  setSp (sp + 8)
  return v

def popFloat : Guarded Double := do
  let sp := (← getRegs).sp
  let pa ← resolve .stack (alignTo8 sp) .load
  setSp (sp + 8)
  return ⟨(← getRam).read64 pa⟩

end PagedMachine.Machine
