import PagedMachine.Bytes
import PagedMachine.Compression

/-!
# Stored frames

Data that cannot be made smaller is stored as it is: a zstd frame of one raw block. The codec that
stores all data is lossless (`Codec.lossless_stored`).
-/

set_option autoImplicit false

namespace PagedMachine.Codec

/-- The header of a frame that does not tell its size. -/
def frameHeader : ByteArray := Compression.zstdMagic ++ ⟨#[0, 0x58]⟩

/-- The header of a raw block that is the last one. -/
def blockHeader (size : Nat) : ByteArray :=
  let w := (8 * size + 1).toUInt32
  ⟨#[Bytes.byteOf32 w 0, Bytes.byteOf32 w 1, Bytes.byteOf32 w 2]⟩

def headers (size : Nat) : ByteArray := frameHeader ++ blockHeader size

theorem size_headers (size : Nat) : (headers size).size = 9 := rfl

def stored : Codec where
  gunzip _ := .error "invalid gzip header"
  decompress file :=
    if Compression.hasMagic frameHeader file then .ok (file.extract 9 file.size)
    else .error "Unknown frame descriptor"
  compress data := .ok (headers data.size ++ data)

theorem lossless_stored : stored.Lossless := by
  refine ⟨fun data => ⟨headers data.size ++ data, rfl, ?_⟩⟩
  have hframe : Compression.hasMagic frameHeader (headers data.size ++ data) = true := by
    rw [headers, ByteArray.append_assoc]
    exact Compression.hasMagic_append ..
  have hdata : (headers data.size ++ data).extract 9 (headers data.size ++ data).size = data :=
    ByteArray.extract_append_eq_right (size_headers _).symm ByteArray.size_append
  unfold stored
  dsimp only
  rw [if_pos hframe, hdata]

end PagedMachine.Codec
