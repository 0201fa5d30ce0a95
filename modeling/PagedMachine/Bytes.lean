/-!
# Byte strings and little-endian words

Words of 16, 32 and 64 bits as byte strings, least significant byte first.
-/

set_option autoImplicit false

namespace PagedMachine.Bytes

/-! ## Copies of one byte -/

/-- `n` copies of `b`, built by doubling. -/
def doubled (n : Nat) (b : UInt8) : ByteArray :=
  if n = 0 then
    ByteArray.empty
  else
    let half := doubled (n / 2) b
    let twice := half ++ half
    if n % 2 = 1 then twice.push b else twice
termination_by n
decreasing_by omega

/-- Appends `n` copies of `chunk`. -/
def appendCopies (chunk : ByteArray) : (n : Nat) → ByteArray → ByteArray
  | 0, out => out
  | n + 1, out => appendCopies chunk n (out ++ chunk)

/-- The size of the chunks that long rows of one byte are made of. -/
def chunkSize : Nat := 0x10000

/-- `n` copies of `b`. Long ones fill a buffer of the right size chunk by chunk, so that a large
memory is cheap to make. -/
def replicate (n : Nat) (b : UInt8) : ByteArray :=
  if n < chunkSize then
    doubled n b
  else
    let chunks := appendCopies (doubled chunkSize b) (n / chunkSize) (.emptyWithCapacity n)
    chunks ++ doubled (n % chunkSize) b

/-! ## Reading -/

/-- Byte `i` of `bytes`, zero past the end. -/
@[inline] def at0 (bytes : ByteArray) (i : Nat) : UInt8 :=
  if h : i < bytes.size then bytes[i] else 0

/-! ## Words from bytes -/

@[inline] def le16 (b0 b1 : UInt8) : UInt16 :=
  b0.toUInt16 ||| (b1.toUInt16 <<< 8)

@[inline] def le32 (b0 b1 b2 b3 : UInt8) : UInt32 :=
  b0.toUInt32 ||| (b1.toUInt32 <<< 8) ||| (b2.toUInt32 <<< 16) ||| (b3.toUInt32 <<< 24)

@[inline] def le64 (low high : UInt32) : UInt64 :=
  low.toUInt64 ||| (high.toUInt64 <<< 32)

/-! ## Bytes of words -/

/-- Byte `i` of a word, counted from the least significant one. -/
@[inline] def byteOf16 (w : UInt16) (i : UInt16) : UInt8 := (w >>> (8 * i)).toUInt8

/-- Byte `i` of a word, counted from the least significant one. -/
@[inline] def byteOf32 (w : UInt32) (i : UInt32) : UInt8 := (w >>> (8 * i)).toUInt8

@[inline] def low32 (w : UInt64) : UInt32 := w.toUInt32

@[inline] def high32 (w : UInt64) : UInt32 := (w >>> 32).toUInt32

/-! ## Appending words to a byte string -/

def push32 (bytes : ByteArray) (w : UInt32) : ByteArray :=
  (((bytes.push (byteOf32 w 0)).push (byteOf32 w 1)).push (byteOf32 w 2)).push (byteOf32 w 3)

def push64 (bytes : ByteArray) (w : UInt64) : ByteArray :=
  push32 (push32 bytes (low32 w)) (high32 w)

/-- The little-endian word at byte `i`, read with zeros past the end. -/
def get32 (bytes : ByteArray) (i : Nat) : UInt32 :=
  le32 (at0 bytes i) (at0 bytes (i + 1)) (at0 bytes (i + 2)) (at0 bytes (i + 3))

def get64 (bytes : ByteArray) (i : Nat) : UInt64 :=
  le64 (get32 bytes i) (get32 bytes (i + 4))

end PagedMachine.Bytes
