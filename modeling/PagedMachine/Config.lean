import PagedMachine.Bridge
import PagedMachine.Image
import PagedMachine.Tlb

/-!
# Configuration
-/

set_option autoImplicit false

namespace PagedMachine

structure Config where
  /-- Physical memory in MiB. -/
  megabytes : UInt32 := 128
  /-- Remember the current code and stack pages. -/
  fastPath : Bool := true
  /-- The file with the filesystem image. -/
  filesystem : Option String := none
  escape : Option UInt8 := some Bridge.defaultEscape
  /-- Pages in the lookaside buffer. -/
  tlbCapacity : Nat := Tlb.defaultCapacity
deriving DecidableEq, Inhabited

namespace Config

def maxMegabytes : UInt32 := 2048

def memoryBytes (c : Config) : UInt32 := Ram.megabytes c.megabytes

/-- Refuses memory of no size, too much of it, and too little for the filesystem. -/
def validate (c : Config) : Except LoadError Unit :=
  if c.megabytes = 0 ∨ c.megabytes > maxMegabytes then
    .error (.invalidMemorySize c.megabytes)
  else if c.filesystem.isSome ∧ c.memoryBytes ≤ Image.windowSize then
    .error (.noRoomForFilesystem c.megabytes)
  else .ok ()

end Config

end PagedMachine
