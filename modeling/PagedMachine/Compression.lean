import PagedMachine.LoadError

/-!
# Compressed files

A file that starts with the magic of gzip or zstd is inflated, any other is taken as it is. The two
formats themselves are not defined here: all that is known of them is a `Codec`, which reads and
writes them.
-/

set_option autoImplicit false

namespace PagedMachine

/-- Readers of gzip and zstd, and a writer of zstd. A failure gives its reason. -/
structure Codec where
  gunzip : ByteArray → Except String ByteArray
  decompress : ByteArray → Except String ByteArray
  compress : ByteArray → Except String ByteArray

/-- Whether all bytes can be compressed, and decompression undoes it. -/
structure Codec.Lossless (codec : Codec) : Prop where
  decompress_compress : ∀ data, ∃ file,
    codec.compress data = .ok file ∧ codec.decompress file = .ok data

namespace Compression

def gzipMagic : ByteArray := ⟨#[0x1f, 0x8b]⟩

def zstdMagic : ByteArray := ⟨#[0x28, 0xb5, 0x2f, 0xfd]⟩

/-- Whether a file starts with these bytes. -/
def hasMagic (magic data : ByteArray) : Bool := data.extract 0 magic.size == magic

theorem hasMagic_append (magic data : ByteArray) : hasMagic magic (magic ++ data) = true := by
  rw [hasMagic, ByteArray.extract_append_eq_left rfl]
  exact beq_self_eq_true magic.data

/-- The bytes of a file that may be compressed. -/
def inflate (codec : Codec) (data : ByteArray) : Except LoadError ByteArray :=
  if hasMagic gzipMagic data then (codec.gunzip data).mapError .decompress
  else if hasMagic zstdMagic data then (codec.decompress data).mapError .decompress
  else .ok data

end Compression

end PagedMachine
