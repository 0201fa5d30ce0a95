import PagedMachine.LoadError
import PagedMachine.Ram

/-!
# Images

An executable is a header of 16 bytes followed by code and data, which go to address 0 and are
followed in memory by zeroed space. A filesystem image fills a window at the top of memory; where
there is room for one, the stack starts below it.
-/

set_option autoImplicit false

namespace PagedMachine

namespace Image

def magic : UInt32 := 0xC0DEF00D

def headerSize : Nat := 16

/-- The size of the filesystem window. -/
def windowSize : UInt32 := 0x400000

structure Header where
  magic : UInt32
  bss : UInt32
  entry : UInt32
  flags : UInt32
deriving DecidableEq, Inhabited

namespace Header

def ofBytes? (data : ByteArray) : Except LoadError Header :=
  if data.size < headerSize then
    .error (.truncated data.size)
  else if Bytes.get32 data 0 ≠ Image.magic then
    .error (.badMagic (Bytes.get32 data 0))
  else
    .ok { magic := Bytes.get32 data 0, bss := Bytes.get32 data 4, entry := Bytes.get32 data 8,
          flags := Bytes.get32 data 12 }

def toBytes (h : Header) : ByteArray :=
  [h.magic, h.bss, h.entry, h.flags].foldl Bytes.push32 ByteArray.empty

end Header

/-- Where a loaded executable starts. -/
structure Entry where
  pc : UInt32
  sp : UInt32
deriving DecidableEq, Inhabited

/-- The initial stack pointer in memory of `size` bytes. -/
def stackTop (size : UInt32) : UInt32 :=
  if size > windowSize then size - windowSize else size

/-- Loads an executable. The result has the memory also on an error, when it is unchanged. -/
def loadExecutable (ram : Ram) (data : ByteArray) : Except LoadError Entry × Ram :=
  match Header.ofBytes? data with
  | .error e => (.error e, ram)
  | .ok header =>
    let payload := data.extract headerSize data.size
    let sp := stackTop ram.size
    let needed := payload.size + header.bss.toNat
    if needed > sp.toNat || !ram.holds 0 payload.size then
      (.error (.memoryExhausted needed sp), ram)
    else
      let ram := ram.blit 0 payload
      (.ok ⟨header.entry, sp⟩, ram.fill payload.size.toUInt32 header.bss.toNat 0)

/-- Loads a filesystem image into its window. -/
def loadFilesystem (ram : Ram) (data : ByteArray) : Except LoadError Unit × Ram :=
  if ram.size ≤ windowSize then
    (.error (.noRoomForFilesystem (ram.size >>> 20)), ram)
  else if data.size > windowSize.toNat || !ram.holds (ram.size - windowSize) data.size then
    (.error (.filesystemTooLarge data.size windowSize), ram)
  else
    let base := ram.size - windowSize
    (.ok (), ram.blit base data)

end Image

end PagedMachine
