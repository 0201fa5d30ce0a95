import PagedMachine.Bytes
import PagedMachine.Radix

/-!
# Physical memory

One flat array of bytes from address 0. A read that is not wholly inside gives zero and a write
that is not wholly inside is dropped, so no address can reach anything but the array. `Ram.byte`
is the view through which all reads are defined.
-/

set_option autoImplicit false

namespace PagedMachine

def pageSize : UInt32 := 4096

def pageMask : UInt32 := 4095

/-- The address of the page that holds `addr`. -/
@[inline] def pageBase (addr : UInt32) : UInt32 := addr &&& ~~~pageMask

@[inline] def pageOffset (addr : UInt32) : UInt32 := addr &&& pageMask

@[inline] def pageNumber (addr : UInt32) : UInt32 := addr >>> 12

/-- Bytes from `addr` to the end of its page. -/
@[inline] def pageLeft (addr : UInt32) : UInt32 := pageSize - pageOffset addr

theorem pageLeft_toNat (addr : UInt32) : (pageLeft addr).toNat = 4096 - addr.toNat % 4096 := by
  have h : (pageOffset addr).toNat = addr.toNat % 4096 := by
    simp only [pageOffset, pageMask, UInt32.toNat_and]
    exact Nat.and_two_pow_sub_one_eq_mod addr.toNat 12
  have hle : pageOffset addr ≤ pageSize := by
    rw [UInt32.le_iff_toNat_le, h]
    simp only [pageSize, UInt32.reduceToNat]
    omega
  rw [pageLeft, UInt32.toNat_sub_of_le _ _ hle, h]
  rfl

theorem pageLeft_pos (addr : UInt32) : 0 < (pageLeft addr).toNat := by
  rw [pageLeft_toNat]
  omega

structure Ram where
  bytes : ByteArray

namespace Ram

instance : Inhabited Ram := ⟨⟨ByteArray.empty⟩⟩

@[ext] theorem ext {r s : Ram} (h : r.bytes = s.bytes) : r = s := by
  cases r; cases s; simp_all

/-- Zeroed memory of `size` bytes, rounded down to whole pages. -/
def zeroed (size : UInt32) : Ram :=
  ⟨Bytes.replicate (pageBase size).toNat 0⟩

/-- `mb` MiB as a number of bytes, or the largest word where that is more. -/
def megabytes (mb : UInt32) : UInt32 :=
  if mb < 4096 then mb <<< 20 else 0xffffffff

@[inline] def size (r : Ram) : UInt32 := r.bytes.size.toUInt32

@[inline] def contains (r : Ram) (addr : UInt32) : Bool := addr < r.size

/-- Whether all of the `len` bytes from `addr` on are inside. -/
@[inline] def holds (r : Ram) (addr : UInt32) (len : Nat) : Bool :=
  addr.toNat + len ≤ r.bytes.size

/-- The byte at `i`, zero outside. -/
@[inline] def byte (r : Ram) (i : Nat) : UInt8 := Bytes.at0 r.bytes i

@[inline] def setByte (r : Ram) (i : Nat) (v : UInt8) : Ram :=
  if h : i < r.bytes.size then ⟨r.bytes.set i v h⟩ else r

/-! ## Words -/

@[inline] def read8 (r : Ram) (addr : UInt32) : UInt8 := r.byte addr.toNat

@[inline] def write8 (r : Ram) (addr : UInt32) (v : UInt8) : Ram := r.setByte addr.toNat v

def read16 (r : Ram) (addr : UInt32) : UInt16 :=
  let i := addr.toNat
  if r.holds addr 2 then Bytes.le16 (r.byte i) (r.byte (i + 1)) else 0

def write16 (r : Ram) (addr : UInt32) (v : UInt16) : Ram :=
  let i := addr.toNat
  if r.holds addr 2 then
    (r.setByte i (Bytes.byteOf16 v 0)).setByte (i + 1) (Bytes.byteOf16 v 1)
  else r

/-- The word whose bytes start at `i`. -/
def word (r : Ram) (i : Nat) : UInt32 :=
  Bytes.le32 (r.byte i) (r.byte (i + 1)) (r.byte (i + 2)) (r.byte (i + 3))

def setWord (r : Ram) (i : Nat) (v : UInt32) : Ram :=
  (((r.setByte i (Bytes.byteOf32 v 0)).setByte (i + 1) (Bytes.byteOf32 v 1)).setByte
    (i + 2) (Bytes.byteOf32 v 2)).setByte (i + 3) (Bytes.byteOf32 v 3)

def read32 (r : Ram) (addr : UInt32) : UInt32 :=
  if r.holds addr 4 then r.word addr.toNat else 0

def write32 (r : Ram) (addr : UInt32) (v : UInt32) : Ram :=
  if r.holds addr 4 then r.setWord addr.toNat v else r

def read64 (r : Ram) (addr : UInt32) : UInt64 :=
  let i := addr.toNat
  if r.holds addr 8 then Bytes.le64 (r.word i) (r.word (i + 4)) else 0

def write64 (r : Ram) (addr : UInt32) (v : UInt64) : Ram :=
  let i := addr.toNat
  if r.holds addr 8 then
    (r.setWord i (Bytes.low32 v)).setWord (i + 4) (Bytes.high32 v)
  else r

/-! ## Ranges -/

def slice? (r : Ram) (addr : UInt32) (len : Nat) : Option ByteArray :=
  if r.holds addr len then some (r.bytes.extract addr.toNat (addr.toNat + len)) else none

/-- Puts `data` at `addr`; nothing happens unless all of it fits. -/
def blit (r : Ram) (addr : UInt32) (data : ByteArray) : Ram :=
  if r.holds addr data.size then
    ⟨data.copySlice 0 r.bytes addr.toNat data.size⟩
  else r

def fill (r : Ram) (addr : UInt32) (len : Nat) (v : UInt8) : Ram :=
  if r.holds addr len then r.blit addr (Bytes.replicate len v) else r

/-- Copies `len` bytes as if through a buffer, so that the ranges may overlap; nothing happens
unless both are inside. -/
def copyWithin (r : Ram) (src dst : UInt32) (len : Nat) : Ram :=
  if r.holds src len && r.holds dst len then
    let chunk := r.bytes.extract src.toNat (src.toNat + len)
    r.blit dst chunk
  else r

/-- A byte string that does not fit where it was to be loaded. -/
structure Overflow where
  len : Nat
  addr : UInt32
  ramSize : Nat

def Overflow.message (e : Overflow) : String :=
  s!"binary of {e.len} bytes at {Radix.address e.addr} exceeds RAM of {e.ramSize} bytes"

def load (r : Ram) (addr : UInt32) (data : ByteArray) : Except Overflow Ram :=
  if r.holds addr data.size then .ok (r.blit addr data)
  else .error ⟨data.size, addr, r.bytes.size⟩

end Ram

end PagedMachine
