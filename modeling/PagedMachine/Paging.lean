import PagedMachine.Fault
import PagedMachine.Guard
import PagedMachine.Ram

/-!
# Page tables

A directory of 1024 entries, one for each 4 MiB of the address space, points to tables of 1024
entries, one for each page. Both lie in physical memory and belong to the guest; `walk` follows
them for one address and writes nothing but the accessed and dirty bits.
-/

set_option autoImplicit false

namespace PagedMachine

/-- What an address is used for. -/
inductive Access
  | fetch
  | load
  | store
deriving DecidableEq, Inhabited

namespace Access

def writes : Access → Bool
  | store => true
  | fetch | load => false

def pageFault (access : Access) (vaddr : UInt32) : Fault :=
  match access with
  | fetch => .instructionPageFault vaddr
  | load => .readPageFault vaddr
  | store => .writePageFault vaddr

end Access

/-- The paging registers. -/
structure AddressSpace where
  paging : Bool := false
  /-- Physical address of the directory. -/
  directory : Option UInt32 := none
deriving DecidableEq, Inhabited

/-! ## Entries -/

/-- A word of a directory or table: the address of a page and, in its low bits, flags. -/
structure PageEntry where
  word : UInt32
deriving DecidableEq, Inhabited

namespace PageEntry

def presentBit : UInt32 := 0x01

def writableBit : UInt32 := 0x02

def userBit : UInt32 := 0x04

def accessedBit : UInt32 := 0x20

def dirtyBit : UInt32 := 0x40

@[inline] def has (e : PageEntry) (bit : UInt32) : Bool := e.word &&& bit ≠ 0

@[inline] def present (e : PageEntry) : Bool := e.has presentBit

@[inline] def writable (e : PageEntry) : Bool := e.has writableBit

@[inline] def user (e : PageEntry) : Bool := e.has userBit

@[inline] def accessed (e : PageEntry) : Bool := e.has accessedBit

@[inline] def dirty (e : PageEntry) : Bool := e.has dirtyBit

@[inline] def base (e : PageEntry) : UInt32 := pageBase e.word

/-- The entry after an access: accessed, and dirty as well if it was written through. -/
def marked (e : PageEntry) (access : Access) : PageEntry :=
  ⟨e.word ||| accessedBit ||| if access.writes then dirtyBit else 0⟩

/-- Where the directory entry of an address lies. -/
@[inline] def directorySlot (directory vaddr : UInt32) : UInt32 :=
  directory + ((vaddr >>> 22) <<< 2)

/-- Where the table entry of an address lies, in the table that a directory entry names. -/
@[inline] def tableSlot (pde : PageEntry) (vaddr : UInt32) : UInt32 :=
  pde.base + ((vaddr >>> 10) &&& 0xffc)

end PageEntry

/-! ## The walk -/

/-- A mapped page. -/
structure Mapping where
  frame : UInt32
  /-- Whether a write needs no further walk. -/
  writable : Bool
  /-- Whether user mode may use the page. -/
  user : Bool
deriving DecidableEq, Inhabited

/-- Reads the entry at `addr`. -/
@[inline] def readEntry (addr : UInt32) : EStateM Fault Ram PageEntry := do
  return ⟨(← get).read32 addr⟩

/-- Records an access in the entry `e`, which lies at `addr`, if it does not show yet. -/
@[inline] def markEntry (addr : UInt32) (e : PageEntry) (access : Access) :
    EStateM Fault Ram Unit := do
  if e.marked access ≠ e then
    modify (·.write32 addr (e.marked access).word)

/-- Passes on a mapping whose frame is in memory. -/
@[inline] def inMemory (vaddr : UInt32) (mapping : Mapping) : EStateM Fault Ram Mapping := do
  require (mapping.frame < (← get).size) (.badPhysicalAddress (some vaddr))
  return mapping

/-- Finds the directory entry of `vaddr` and marks it. -/
def walkDirectory (directory vaddr : UInt32) (access : Access) : EStateM Fault Ram PageEntry := do
  let slot := PageEntry.directorySlot directory vaddr
  let pde ← readEntry slot
  require pde.present (access.pageFault vaddr)
  markEntry slot pde .load
  require (pde.word < (← get).size) (.badPhysicalAddress (some vaddr))
  return pde

/-- Whether a page mapped by these two entries may be used: a flag counts if both have it. -/
def PageEntry.permits (pde pte : PageEntry) (access : Access) (user : Bool) : Bool :=
  pte.present && (!user || (pde.user && pte.user)) &&
    (!access.writes || (pde.writable && pte.writable))

/-- Finds the table entry of `vaddr` and marks it, if it permits the access. -/
def walkTable (pde : PageEntry) (vaddr : UInt32) (access : Access) (user : Bool) :
    EStateM Fault Ram Mapping := do
  let slot := PageEntry.tableSlot pde vaddr
  let pte ← readEntry slot
  require (pde.permits pte access user) (access.pageFault vaddr)
  markEntry slot pte access
  inMemory vaddr
    { frame := pte.base,
      writable := (access.writes || pte.dirty) && (pde.writable && pte.writable),
      user := pde.user && pte.user }

/-- Follows the page tables for `vaddr`. A page must be present, open to user mode if `user`, and
writable for a store, where a flag counts if both levels have it. A read does not grant writes
before the page is dirty, so that the first write comes back here and marks it. -/
def walk (space : AddressSpace) (vaddr : UInt32) (access : Access) (user : Bool) :
    EStateM Fault Ram Mapping := do
  if space.paging then
    match space.directory with
    | none => throw (.badPhysicalAddress (some vaddr))
    | some directory =>
      let pde ← walkDirectory directory vaddr access
      walkTable pde vaddr access user
  else
    inMemory vaddr { frame := pageBase vaddr, writable := true, user := true }

end PagedMachine
