import PagedMachine.Ram.Lemmas
import PagedMachine.Width

/-!
# Widths as numbers of bytes

An access of each width covers `size` bytes, which the rounded address keeps within a page
(`LoadWidth.align_fits` and its like). What is read depends on these bytes only (`Ram.ReadsAt`), and
what is written is a byte string put there.
-/

set_option autoImplicit false

namespace PagedMachine

/-! ## Rounding -/

theorem alignTo2_toNat (addr : UInt32) : (alignTo2 addr).toNat = addr.toNat / 2 * 2 := by
  have hlow : (addr &&& 1).toNat = addr.toNat % 2 := by
    rw [UInt32.toNat_and]
    exact Nat.and_two_pow_sub_one_eq_mod addr.toNat 1
  rw [alignTo2, toNat_and_not, hlow]
  omega

theorem alignTo4_toNat (addr : UInt32) : (alignTo4 addr).toNat = addr.toNat / 4 * 4 := by
  have hlow : (addr &&& 3).toNat = addr.toNat % 4 := by
    rw [UInt32.toNat_and]
    exact Nat.and_two_pow_sub_one_eq_mod addr.toNat 2
  rw [alignTo4, toNat_and_not, hlow]
  omega

theorem alignTo8_toNat (addr : UInt32) : (alignTo8 addr).toNat = addr.toNat / 8 * 8 := by
  have hlow : (addr &&& 7).toNat = addr.toNat % 8 := by
    rw [UInt32.toNat_and]
    exact Nat.and_two_pow_sub_one_eq_mod addr.toNat 3
  rw [alignTo8, toNat_and_not, hlow]
  omega

/-- Up to eight bytes at a rounded address are in one page. -/
theorem alignTo8_fits (addr : UInt32) {n : Nat} (hn : n ≤ 8) :
    (alignTo8 addr).toNat % 4096 + n ≤ 4096 := by
  rw [alignTo8_toNat]
  omega

theorem mod_four_of_aligned {addr : UInt32} (h : addr &&& 3 = 0) : addr.toNat % 4 = 0 := by
  have hlow : (addr &&& 3).toNat = addr.toNat % 4 := by
    rw [UInt32.toNat_and]
    exact Nat.and_two_pow_sub_one_eq_mod addr.toNat 2
  rw [h] at hlow
  exact hlow.symm

/-- A word at an aligned address is in one page. -/
theorem word_fits {addr : UInt32} (h : addr &&& 3 = 0) : addr.toNat % 4096 + 4 ≤ 4096 := by
  have := mod_four_of_aligned h
  omega

/-! ## What a read depends on -/

namespace Ram

/-- Whether a read at an address depends on the `n` bytes there only, if they are in memory. -/
def ReadsAt {α : Type} (n : Nat) (read : Ram → UInt32 → α) : Prop :=
  ∀ (r s : Ram) (addr : UInt32), r.holds addr n = true → s.holds addr n = true →
    (∀ k < n, r.byte (addr.toNat + k) = s.byte (addr.toNat + k)) → read r addr = read s addr

variable {α β : Type} {n : Nat}

theorem ReadsAt.map {read : Ram → UInt32 → α} (h : ReadsAt n read) (fn : α → β) :
    ReadsAt n fun r addr => fn (read r addr) :=
  fun r s addr hr hs hb => congrArg fn (h r s addr hr hs hb)

theorem readsAt_read8 : ReadsAt 1 read8 := fun _ _ _ _ _ hb => hb 0 Nat.one_pos

theorem readsAt_read16 : ReadsAt 2 read16 := by
  intro r s addr hr hs hb
  have h0 : r.byte addr.toNat = s.byte addr.toNat := hb 0 (by omega)
  simp only [read16, hr, hs, if_true, h0, hb 1 (by omega)]

theorem readsAt_read32 : ReadsAt 4 read32 := by
  intro r s addr hr hs hb
  simp only [read32, hr, hs, if_true, word_congr hb]

theorem readsAt_read64 : ReadsAt 8 read64 := by
  intro r s addr hr hs hb
  have hlow : r.word addr.toNat = s.word addr.toNat := word_congr fun k hk => hb k (by omega)
  have hhigh : r.word (addr.toNat + 4) = s.word (addr.toNat + 4) := word_congr fun k hk => by
    rw [Nat.add_assoc]
    exact hb (4 + k) (by omega)
  simp only [read64, hr, hs, if_true, hlow, hhigh]

theorem readsAt_slice? (n : Nat) : ReadsAt n (slice? · · n) := by
  intro r s addr hr hs hb
  have hr' := holds_iff.1 hr
  have hs' := holds_iff.1 hs
  simp only [slice?, hr, hs, if_true]
  refine congrArg some (ByteArray.ext_getElem ?_ fun i hi hi' => ?_)
  · simp only [ByteArray.size_extract]
    omega
  · simp only [ByteArray.size_extract] at hi hi'
    have hbyte := hb i (by omega)
    simp only [byte, Bytes.at0, show addr.toNat + i < r.bytes.size by omega,
      show addr.toNat + i < s.bytes.size by omega, dif_pos] at hbyte
    simpa only [ByteArray.getElem_extract] using hbyte

end Ram

/-! ## Writes as byte strings -/

namespace Bytes

theorem at0_empty (i : Nat) : at0 .empty i = 0 := at0_of_size_le (Nat.zero_le i)

@[simp] theorem size_push32 (bytes : ByteArray) (w : UInt32) :
    (push32 bytes w).size = bytes.size + 4 := by
  simp only [push32, ByteArray.size_push]

theorem at0_push32 (bytes : ByteArray) (w : UInt32) (i : Nat) :
    at0 (push32 bytes w) i =
      if bytes.size ≤ i ∧ i < bytes.size + 4 then byteOf32 w (i - bytes.size).toUInt32
      else at0 bytes i := by
  split
  · rename_i hi
    obtain ⟨k, rfl⟩ := Nat.exists_eq_add_of_le hi.1
    rw [push32, Nat.add_sub_cancel_left]
    obtain rfl | rfl | rfl | rfl : k = 0 ∨ k = 1 ∨ k = 2 ∨ k = 3 := by omega
    all_goals simp only [at0_push, ByteArray.size_push]; grind
  · simp only [push32, at0_push, ByteArray.size_push]
    grind

end Bytes

namespace Ram

/-- Memories that are written in the same places are equal. -/
theorem eq_blit {r s : Ram} {addr : UInt32} {data : ByteArray} (hs : s.bytes.size = r.bytes.size)
    (hout : r.holds addr data.size = false → s = r)
    (hin : r.holds addr data.size = true → ∀ j, s.byte j =
      if addr.toNat ≤ j ∧ j < addr.toNat + data.size then Bytes.at0 data (j - addr.toNat)
      else r.byte j) : s = r.blit addr data := by
  cases h : r.holds addr data.size with
  | false => rw [hout h, blit_of_not_holds h]
  | true => exact ext_byte (by rw [size_blit, hs]) fun j => by rw [hin h, byte_blit h]

theorem write8_eq_blit (r : Ram) (addr : UInt32) (v : UInt8) :
    r.write8 addr v = r.blit addr (ByteArray.empty.push v) := by
  refine eq_blit (size_write8 ..) (fun h => ?_) fun h j => ?_
  · have hout : ¬addr.toNat < r.bytes.size := by
      have hle : r.bytes.size < addr.toNat + 1 := by simpa [holds] using h
      omega
    rw [write8, setByte, dif_neg hout]
  · have hin := holds_iff.1 h
    simp only [write8, byte_setByte, ByteArray.size_push, ByteArray.size_empty, Bytes.at0_push,
      Bytes.at0_empty] at hin ⊢
    grind

theorem write16_eq_blit (r : Ram) (addr : UInt32) (v : UInt16) :
    r.write16 addr v =
      r.blit addr ((ByteArray.empty.push (Bytes.byteOf16 v 0)).push (Bytes.byteOf16 v 1)) := by
  refine eq_blit (size_write16 ..) (fun h => ?_) fun h j => ?_
  · rw [write16, if_neg (by simpa using h)]
  · have hin := holds_iff.1 h
    have h2 : r.holds addr 2 = true := h
    simp only [write16, h2, if_true, byte_setByte, size_setByte, ByteArray.size_push,
      ByteArray.size_empty, Bytes.at0_push, Bytes.at0_empty] at hin ⊢
    grind

theorem write32_eq_blit (r : Ram) (addr v : UInt32) :
    r.write32 addr v = r.blit addr (Bytes.push32 .empty v) := by
  refine eq_blit (size_write32 ..) (fun h => ?_) fun h j => ?_
  · rw [write32, if_neg (by simpa using h)]
  · have h4 : r.holds addr 4 = true := h
    rw [byte_write32 h4, Bytes.at0_push32]
    simp only [Bytes.size_push32, ByteArray.size_empty, Bytes.at0_empty]
    grind

theorem write64_eq_blit (r : Ram) (addr : UInt32) (v : UInt64) :
    r.write64 addr v = r.blit addr (Bytes.push64 .empty v) := by
  refine eq_blit (size_write64 ..) (fun h => ?_) fun h j => ?_
  · rw [write64, if_neg (by simpa [Bytes.push64] using h)]
  · have h8 : r.holds addr 8 = true := by simpa [Bytes.push64] using h
    have hin := holds_iff.1 h8
    simp only [write64, h8, if_true]
    rw [byte_setWord (by rw [size_setWord]; omega), byte_setWord (by omega), Bytes.push64,
      Bytes.at0_push32, Bytes.at0_push32]
    simp only [Bytes.size_push32, ByteArray.size_empty, Bytes.at0_empty]
    grind

theorem fill_eq_blit (r : Ram) (addr : UInt32) (n : Nat) (v : UInt8) :
    r.fill addr n v = r.blit addr (Bytes.replicate n v) := by
  cases h : r.holds addr n with
  | false => rw [fill, if_neg (by simp [h]), blit_of_not_holds (by rw [Bytes.size_replicate, h])]
  | true => rw [fill, if_pos h]

end Ram

/-! ## Widths -/

namespace LoadWidth

/-- The number of bytes that are read. -/
def size : LoadWidth → Nat
  | word => 4
  | short | half => 2
  | char | byte => 1

theorem align_fits (w : LoadWidth) (vaddr : UInt32) :
    (w.align vaddr).toNat % 4096 + w.size ≤ 4096 := by
  cases w <;> simp only [align, size, alignTo4_toNat, alignTo2_toNat, id] <;> omega

theorem readsAt_read (w : LoadWidth) : Ram.ReadsAt w.size w.read := by
  cases w with
  | word => exact Ram.readsAt_read32
  | short => exact Ram.readsAt_read16.map fun v => v.toInt16.toInt32.toUInt32
  | half => exact Ram.readsAt_read16.map UInt16.toUInt32
  | char => exact Ram.readsAt_read8.map fun v => v.toInt8.toInt32.toUInt32
  | byte => exact Ram.readsAt_read8.map UInt8.toUInt32

end LoadWidth

namespace StoreWidth

/-- The bytes that are written. -/
def bytes (w : StoreWidth) (v : UInt32) : ByteArray :=
  match w with
  | word => Bytes.push32 .empty v
  | half => (ByteArray.empty.push (Bytes.byteOf16 v.toUInt16 0)).push (Bytes.byteOf16 v.toUInt16 1)
  | byte => ByteArray.empty.push v.toUInt8

theorem align_fits (w : StoreWidth) (vaddr v : UInt32) :
    (w.align vaddr).toNat % 4096 + (w.bytes v).size ≤ 4096 := by
  cases w <;>
    simp only [align, bytes, alignTo4_toNat, alignTo2_toNat, id, Bytes.size_push32,
      ByteArray.size_push, ByteArray.size_empty] <;> omega

theorem write_eq_blit (w : StoreWidth) (r : Ram) (addr v : UInt32) :
    w.write r addr v = r.blit addr (w.bytes v) := by
  cases w with
  | word => exact Ram.write32_eq_blit ..
  | half => exact Ram.write16_eq_blit ..
  | byte => exact Ram.write8_eq_blit ..

end StoreWidth

namespace FloatWidth

/-- The number of bytes that are read. -/
def size : FloatWidth → Nat
  | double => 8
  | single => 4

/-- The bytes that are written. -/
def bytes (w : FloatWidth) (v : Double) : ByteArray :=
  match w with
  | double => Bytes.push64 .empty v.bits
  | single => Bytes.push32 .empty v.toSingle

theorem align_fits (w : FloatWidth) (vaddr : UInt32) :
    (w.align vaddr).toNat % 4096 + w.size ≤ 4096 := by
  cases w <;> simp only [align, size, alignTo8_toNat, alignTo4_toNat] <;> omega

theorem size_bytes (w : FloatWidth) (v : Double) : (w.bytes v).size = w.size := by
  cases w <;> rfl

theorem readsAt_read (w : FloatWidth) : Ram.ReadsAt w.size w.read := by
  cases w with
  | double => exact Ram.readsAt_read64.map Double.mk
  | single => exact Ram.readsAt_read32.map Double.ofSingle

theorem write_eq_blit (w : FloatWidth) (r : Ram) (addr : UInt32) (v : Double) :
    w.write r addr v = r.blit addr (w.bytes v) := by
  cases w with
  | double => exact Ram.write64_eq_blit ..
  | single => exact Ram.write32_eq_blit ..

end FloatWidth

end PagedMachine
