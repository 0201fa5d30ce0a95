import PagedMachine.Double
import PagedMachine.Instruction

/-!
# Widths of memory accesses

Each width rounds an address down to a multiple of its size, and reads or writes that many bytes
of physical memory.
-/

set_option autoImplicit false

namespace PagedMachine

@[inline] def alignTo2 (addr : UInt32) : UInt32 := addr &&& ~~~1

@[inline] def alignTo4 (addr : UInt32) : UInt32 := addr &&& ~~~3

@[inline] def alignTo8 (addr : UInt32) : UInt32 := addr &&& ~~~7

namespace LoadWidth

def align : LoadWidth → UInt32 → UInt32
  | word => alignTo4
  | short | half => alignTo2
  | char | byte => id

def read (w : LoadWidth) (ram : Ram) (addr : UInt32) : UInt32 :=
  match w with
  | word => ram.read32 addr
  | short => (ram.read16 addr).toInt16.toInt32.toUInt32
  | half => (ram.read16 addr).toUInt32
  | char => (ram.read8 addr).toInt8.toInt32.toUInt32
  | byte => (ram.read8 addr).toUInt32

end LoadWidth

namespace StoreWidth

def align : StoreWidth → UInt32 → UInt32
  | word => alignTo4
  | half => alignTo2
  | byte => id

/-- Writes the low bits of `v`. -/
def write (w : StoreWidth) (ram : Ram) (addr v : UInt32) : Ram :=
  match w with
  | word => ram.write32 addr v
  | half => ram.write16 addr v.toUInt16
  | byte => ram.write8 addr v.toUInt8

end StoreWidth

namespace FloatWidth

def align : FloatWidth → UInt32 → UInt32
  | double => alignTo8
  | single => alignTo4

def read (w : FloatWidth) (ram : Ram) (addr : UInt32) : Double :=
  match w with
  | double => ⟨ram.read64 addr⟩
  | single => Double.ofSingle (ram.read32 addr)

def write (w : FloatWidth) (ram : Ram) (addr : UInt32) (v : Double) : Ram :=
  match w with
  | double => ram.write64 addr v.bits
  | single => ram.write32 addr v.toSingle

end FloatWidth

end PagedMachine
