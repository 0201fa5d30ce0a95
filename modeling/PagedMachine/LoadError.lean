import PagedMachine.Radix

/-!
# Load errors

Why a machine could not be built, loaded or restored.
-/

set_option autoImplicit false

namespace PagedMachine

/-- Why bytes are not the encoding of a snapshot. -/
inductive DecodeError
  | unexpectedEnd
  | badBool (found : UInt8)
  | badTag (found : UInt8)
deriving DecidableEq, Inhabited

def DecodeError.message : DecodeError → String
  | unexpectedEnd => "io error: unexpected end of file"
  | badBool n => s!"invalid u8 while decoding bool, expected 0 or 1, found {n.toNat}"
  | badTag n => s!"tag for enum is not valid, found {n.toNat}"

inductive LoadError
  /-- A file that cannot be read. -/
  | io (path : String)
  | badMagic (found : UInt32)
  | truncated (size : Nat)
  | memoryExhausted (needed : Nat) (limit : UInt32)
  | filesystemTooLarge (size : Nat) (max : UInt32)
  | noRoomForFilesystem (megabytes : UInt32)
  | invalidMemorySize (megabytes : UInt32)
  /-- A compressed file that cannot be inflated. -/
  | decompress (reason : String)
  /-- A snapshot that cannot be compressed. -/
  | compress (reason : String)
  | badSnapshot (e : DecodeError)
  | snapshotVersion (version : UInt32)
deriving DecidableEq, Inhabited

def LoadError.message : LoadError → String
  | io path => s!"I/O error reading {path}: no such file"
  | badMagic found => s!"bad image magic {Radix.address found}"
  | truncated size => s!"truncated image: {size} bytes is shorter than the header"
  | memoryExhausted needed limit =>
    s!"image of {needed} bytes does not fit below the stack at {Radix.address limit}"
  | filesystemTooLarge size max =>
    s!"filesystem image of {size} bytes exceeds the {max.toNat} byte window"
  | noRoomForFilesystem mb =>
    s!"memory of {mb.toNat} MiB is too small to hold a filesystem image"
  | invalidMemorySize mb => s!"invalid memory size: {mb.toNat} MiB"
  | decompress reason => s!"decompression failed: {reason}"
  | compress reason => s!"snapshot error: compression error: {reason}"
  | badSnapshot e => s!"snapshot error: deserialization error: {e.message}"
  | snapshotVersion version => s!"snapshot error: unsupported snapshot version {version.toNat}"

end PagedMachine
