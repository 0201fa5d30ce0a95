import PagedMachine.Bytes.Lemmas
import PagedMachine.Ram

/-!
# Memory, byte by byte

What each write does to `Ram.byte`. No write changes the size, a write that is not inside changes
nothing, and any other changes exactly the bytes it covers. Before that, page addresses as numbers.
-/

set_option autoImplicit false

namespace PagedMachine

/-! ## Masks and page addresses -/

theorem or_and_distrib (a b c : UInt32) : (a ||| b) &&& c = (a &&& c) ||| (b &&& c) :=
  UInt32.toBitVec_inj.1 BitVec.and_or_distrib_right

/-- Clearing the bits of a mask takes their value away. -/
theorem toNat_and_not (a mask : UInt32) :
    (a &&& ~~~mask).toNat = a.toNat - (a &&& mask).toNat := by
  have hd : (a &&& ~~~mask) &&& (a &&& mask) = 0 := by
    rw [UInt32.and_assoc, ← UInt32.and_assoc (~~~mask), UInt32.and_comm (~~~mask),
      UInt32.and_assoc a, UInt32.not_and_self]
    simp
  have hor : (a &&& ~~~mask) ||| (a &&& mask) = a := by
    rw [UInt32.and_comm a, UInt32.and_comm a, ← or_and_distrib, UInt32.not_or_self,
      UInt32.neg_one_and]
  have hadd : (a &&& ~~~mask) + (a &&& mask) = a := by
    refine UInt32.toBitVec_inj.1 ?_
    rw [UInt32.toBitVec_add, BitVec.add_eq_or_of_and_eq_zero _ _ (congrArg UInt32.toBitVec hd)]
    exact congrArg UInt32.toBitVec hor
  have hle : (a &&& ~~~mask).toNat ≤ a.toNat := by
    rw [UInt32.toNat_and]
    exact Nat.and_le_left
  have hle' : (a &&& mask).toNat ≤ a.toNat := by
    rw [UInt32.toNat_and]
    exact Nat.and_le_left
  have hsum := congrArg UInt32.toNat hadd
  rw [UInt32.toNat_add] at hsum
  have := a.toNat_lt
  omega

theorem pageOffset_toNat (addr : UInt32) : (pageOffset addr).toNat = addr.toNat % 4096 := by
  simp only [pageOffset, pageMask, UInt32.toNat_and]
  exact Nat.and_two_pow_sub_one_eq_mod addr.toNat 12

theorem pageNumber_toNat (addr : UInt32) : (pageNumber addr).toNat = addr.toNat / 4096 := by
  simp [pageNumber, UInt32.toNat_shiftRight, Nat.shiftRight_eq_div_pow]

theorem pageBase_toNat (addr : UInt32) : (pageBase addr).toNat = addr.toNat / 4096 * 4096 := by
  have ho : (addr &&& pageMask).toNat = addr.toNat % 4096 := pageOffset_toNat addr
  rw [pageBase, toNat_and_not, ho]
  omega

@[simp] theorem pageBase_pageBase (addr : UInt32) : pageBase (pageBase addr) = pageBase addr := by
  apply UInt32.toNat_inj.1
  simp only [pageBase_toNat]
  omega

/-- Addresses of one page have one base. -/
theorem pageBase_eq_of_pageNumber {v w : UInt32} (h : pageNumber v = pageNumber w) :
    pageBase v = pageBase w := by
  have hn := congrArg UInt32.toNat h
  apply UInt32.toNat_inj.1
  simp only [pageBase_toNat, pageNumber_toNat] at hn ⊢
  rw [hn]

/-- An offset put beside the address of a page is added to it. -/
theorem toNat_or {base off : UInt32} (hb : base.toNat % 4096 = 0) (ho : off.toNat < 4096) :
    (base ||| off).toNat = base.toNat + off.toNat := by
  rw [UInt32.toNat_or]
  obtain ⟨k, hk⟩ := Nat.dvd_of_mod_eq_zero hb
  rw [hk]
  exact (Nat.two_pow_add_eq_or_of_lt (i := 12) ho k).symm

namespace Ram

theorem size_eq_of {r s : Ram} (h : r.bytes.size = s.bytes.size) : r.size = s.size := by
  simp [size, h]

theorem holds_iff {r : Ram} {addr : UInt32} {len : Nat} :
    r.holds addr len = true ↔ addr.toNat + len ≤ r.bytes.size := by
  simp [holds]

/-- Memories of one size with the same bytes are equal. -/
theorem ext_byte {r s : Ram} (hs : r.bytes.size = s.bytes.size)
    (hb : ∀ i, r.byte i = s.byte i) : r = s := by
  apply Ram.ext
  apply ByteArray.ext_getElem hs
  intro i hr hs
  simpa [byte, Bytes.at0, hr, hs] using hb i

@[simp] theorem size_zeroed (size : UInt32) :
    (zeroed size).bytes.size = (pageBase size).toNat := Bytes.size_replicate ..

theorem size_of_zeroed (size : UInt32) : (zeroed size).size = pageBase size := by
  simp [Ram.size]

theorem byte_zeroed (size : UInt32) (i : Nat) : (zeroed size).byte i = 0 := by
  rw [zeroed, byte, Bytes.at0_replicate]
  split <;> rfl

theorem read32_zeroed (size addr : UInt32) : (zeroed size).read32 addr = 0 := by
  simp only [read32, word, byte_zeroed]
  split
  · decide
  · rfl

/-! ## Single bytes -/

@[simp] theorem size_setByte (r : Ram) (i : Nat) (v : UInt8) :
    (r.setByte i v).bytes.size = r.bytes.size := by
  simp only [setByte]
  split
  · exact Array.size_set ..
  · rfl

theorem byte_setByte (r : Ram) (i j : Nat) (v : UInt8) :
    (r.setByte i v).byte j = if i = j ∧ i < r.bytes.size then v else r.byte j := by
  simp only [setByte]
  split
  · rename_i h
    have hd : i < r.bytes.data.size := h
    simp only [byte, Bytes.at0_eq_data, ByteArray.set, Array.getD_eq_getD_getElem?,
      Array.getElem?_set]
    grind
  · grind

theorem byte_setByte_self {r : Ram} {i : Nat} (h : i < r.bytes.size) (v : UInt8) :
    (r.setByte i v).byte i = v := by
  simp [byte_setByte, h]

theorem byte_setByte_of_ne {r : Ram} {i j : Nat} (h : i ≠ j) (v : UInt8) :
    (r.setByte i v).byte j = r.byte j := by
  simp [byte_setByte, h]

/-! ## Words -/

@[simp] theorem size_setWord (r : Ram) (i : Nat) (v : UInt32) :
    (r.setWord i v).bytes.size = r.bytes.size := by
  simp [setWord]

theorem byte_setWord_of_disjoint {r : Ram} {i j : Nat} (h : j < i ∨ i + 4 ≤ j) (v : UInt32) :
    (r.setWord i v).byte j = r.byte j := by
  simp only [setWord]
  repeat rw [byte_setByte_of_ne (by omega)]

theorem byte_setWord {r : Ram} {i : Nat} (h : i + 4 ≤ r.bytes.size) (v : UInt32) (j : Nat) :
    (r.setWord i v).byte j =
      if i ≤ j ∧ j < i + 4 then Bytes.byteOf32 v (j - i).toUInt32 else r.byte j := by
  split
  · rename_i hj
    obtain ⟨k, rfl⟩ := Nat.exists_eq_add_of_le hj.1
    rw [setWord, Nat.add_sub_cancel_left]
    obtain rfl | rfl | rfl | rfl : k = 0 ∨ k = 1 ∨ k = 2 ∨ k = 3 := by omega
    all_goals simp only [byte_setByte, size_setByte]; grind
  · rename_i hj
    exact byte_setWord_of_disjoint (by omega) v

/-- A word that was written is read back. -/
theorem word_setWord {r : Ram} {i : Nat} (h : i + 4 ≤ r.bytes.size) (v : UInt32) :
    (r.setWord i v).word i = v := by
  have hv := Bytes.le32_byteOf32 v
  simp only [word, setWord, byte_setByte, size_setByte]
  grind

theorem word_setWord_of_disjoint {r : Ram} {i j : Nat} (h : j + 4 ≤ i ∨ i + 4 ≤ j) (v : UInt32) :
    (r.setWord i v).word j = r.word j := by
  simp only [word]
  repeat rw [byte_setWord_of_disjoint (by omega)]

@[simp] theorem size_write8 (r : Ram) (addr : UInt32) (v : UInt8) :
    (r.write8 addr v).bytes.size = r.bytes.size := size_setByte ..

@[simp] theorem size_write16 (r : Ram) (addr : UInt32) (v : UInt16) :
    (r.write16 addr v).bytes.size = r.bytes.size := by
  simp only [write16]
  split <;> simp

@[simp] theorem size_write32 (r : Ram) (addr : UInt32) (v : UInt32) :
    (r.write32 addr v).bytes.size = r.bytes.size := by
  simp only [write32]
  split <;> simp

@[simp] theorem size_write64 (r : Ram) (addr : UInt32) (v : UInt64) :
    (r.write64 addr v).bytes.size = r.bytes.size := by
  simp only [write64]
  split <;> simp

theorem byte_write32_of_disjoint {r : Ram} {addr : UInt32} {j : Nat}
    (h : j < addr.toNat ∨ addr.toNat + 4 ≤ j) (v : UInt32) :
    (r.write32 addr v).byte j = r.byte j := by
  simp only [write32]
  split
  · exact byte_setWord_of_disjoint h v
  · rfl

@[simp] theorem holds_write32 (r : Ram) (addr other v : UInt32) (len : Nat) :
    (r.write32 addr v).holds other len = r.holds other len := by
  simp [holds]

theorem byte_write32 {r : Ram} {addr : UInt32} (h : r.holds addr 4 = true) (v : UInt32) (j : Nat) :
    (r.write32 addr v).byte j =
      if addr.toNat ≤ j ∧ j < addr.toNat + 4 then Bytes.byteOf32 v (j - addr.toNat).toUInt32
      else r.byte j := by
  rw [write32, if_pos h, byte_setWord (holds_iff.1 h)]

/-- Words that do not overlap are written in any order. -/
theorem write32_comm {a b : UInt32} (h : a.toNat + 4 ≤ b.toNat ∨ b.toNat + 4 ≤ a.toNat) (r : Ram)
    (v w : UInt32) : (r.write32 a v).write32 b w = (r.write32 b w).write32 a v := by
  by_cases ha : r.holds a 4 = true
  · by_cases hb : r.holds b 4 = true
    · refine ext_byte (by simp) fun j => ?_
      rw [byte_write32 (by simpa using hb), byte_write32 ha, byte_write32 (by simpa using ha),
        byte_write32 hb]
      grind
    · have hdrop (s : Ram) (hs : s.holds b 4 = r.holds b 4) : s.write32 b w = s := by
        rw [write32, hs, if_neg hb]
      rw [hdrop _ (holds_write32 ..), hdrop r rfl]
  · have hdrop (s : Ram) (hs : s.holds a 4 = r.holds a 4) : s.write32 a v = s := by
      rw [write32, hs, if_neg ha]
    rw [hdrop _ (holds_write32 ..), hdrop r rfl]

theorem read32_write32 {r : Ram} {addr : UInt32} (h : r.holds addr 4 = true) (v : UInt32) :
    (r.write32 addr v).read32 addr = v := by
  have hs := holds_iff.1 h
  have h' : (r.setWord addr.toNat v).holds addr 4 = true := by simpa [holds_iff] using hs
  simp [read32, write32, h, h', word_setWord hs]

/-- Aligned words are equal or apart. -/
theorem read32_write32_of_ne {r : Ram} {addr other : UInt32} (ha : addr.toNat % 4 = 0)
    (ho : other.toNat % 4 = 0) (h : addr ≠ other) (v : UInt32) :
    (r.write32 addr v).read32 other = r.read32 other := by
  have hne : addr.toNat ≠ other.toNat := fun he => h (UInt32.toNat_inj.1 he)
  have hholds : (r.write32 addr v).holds other 4 = r.holds other 4 := by simp [holds]
  simp only [read32, hholds]
  split
  · simp only [write32]
    split
    · exact word_setWord_of_disjoint (by omega) v
    · rfl
  · rfl

theorem holds_of_read32_ne_zero {r : Ram} {addr : UInt32} (h : r.read32 addr ≠ 0) :
    r.holds addr 4 = true := by
  apply Classical.byContradiction
  intro hn
  exact h (by simp [read32, hn])

theorem byte_write64_of_disjoint {r : Ram} {addr : UInt32} {j : Nat}
    (h : j < addr.toNat ∨ addr.toNat + 8 ≤ j) (v : UInt64) :
    (r.write64 addr v).byte j = r.byte j := by
  simp only [write64]
  split
  · rw [byte_setWord_of_disjoint (by omega), byte_setWord_of_disjoint (by omega)]
  · rfl

theorem read64_write64 {r : Ram} {addr : UInt32} (h : r.holds addr 8 = true) (v : UInt64) :
    (r.write64 addr v).read64 addr = v := by
  have hs := holds_iff.1 h
  have h' : ((r.setWord addr.toNat (Bytes.low32 v)).setWord (addr.toNat + 4)
      (Bytes.high32 v)).holds addr 8 = true := by simpa [holds_iff] using hs
  simp only [read64, write64, h, h', if_true]
  rw [word_setWord_of_disjoint (by omega), word_setWord (by omega),
    word_setWord (by simp; omega), Bytes.le64_low32_high32]

/-! ## Ranges -/

theorem blit_of_not_holds {r : Ram} {addr : UInt32} {data : ByteArray}
    (h : r.holds addr data.size = false) : r.blit addr data = r := by
  simp [blit, h]

@[simp] theorem size_blit (r : Ram) (addr : UInt32) (data : ByteArray) :
    (r.blit addr data).bytes.size = r.bytes.size := by
  simp only [blit]
  split
  · rename_i h
    exact Bytes.size_copySlice (holds_iff.1 h)
  · rfl

theorem byte_blit {r : Ram} {addr : UInt32} {data : ByteArray} (h : r.holds addr data.size = true)
    (j : Nat) :
    (r.blit addr data).byte j =
      if addr.toNat ≤ j ∧ j < addr.toNat + data.size then Bytes.at0 data (j - addr.toNat)
      else r.byte j := by
  simp only [blit, h, if_true]
  exact Bytes.at0_copySlice (holds_iff.1 h) j

@[simp] theorem size_fill (r : Ram) (addr : UInt32) (len : Nat) (v : UInt8) :
    (r.fill addr len v).bytes.size = r.bytes.size := by
  simp only [fill]
  split
  · exact size_blit ..
  · rfl

theorem byte_fill {r : Ram} {addr : UInt32} {len : Nat} (h : r.holds addr len = true) (v : UInt8)
    (j : Nat) :
    (r.fill addr len v).byte j =
      if addr.toNat ≤ j ∧ j < addr.toNat + len then v else r.byte j := by
  simp only [fill, h, if_true]
  rw [byte_blit (by simpa using h), Bytes.size_replicate, Bytes.at0_replicate]
  grind

@[simp] theorem size_copyWithin (r : Ram) (src dst : UInt32) (len : Nat) :
    (r.copyWithin src dst len).bytes.size = r.bytes.size := by
  simp only [copyWithin]
  split
  · exact size_blit ..
  · rfl

/-- The bytes are those that were there before, also where the ranges overlap. -/
theorem byte_copyWithin {r : Ram} {src dst : UInt32} {len : Nat} (hs : r.holds src len = true)
    (hd : r.holds dst len = true) (j : Nat) :
    (r.copyWithin src dst len).byte j =
      if dst.toNat ≤ j ∧ j < dst.toNat + len then r.byte (src.toNat + (j - dst.toNat))
      else r.byte j := by
  have hsize : (r.bytes.extract src.toNat (src.toNat + len)).size = len := by
    have := holds_iff.1 hs
    rw [ByteArray.size_extract]
    omega
  simp only [copyWithin, hs, hd, Bool.and_self, if_true]
  rw [byte_blit (by rw [hsize]; exact hd), hsize, Bytes.at0_extract]
  simp only [byte]
  grind

theorem word_congr {r s : Ram} {i : Nat} (h : ∀ k < 4, r.byte (i + k) = s.byte (i + k)) :
    r.word i = s.word i := by
  have h0 : r.byte i = s.byte i := h 0 (by omega)
  simp only [word, h0, h 1 (by omega), h 2 (by omega), h 3 (by omega)]

/-- A word that is copied. -/
theorem read32_copyWithin {r : Ram} {src dst : UInt32} (hs : r.holds src 4 = true)
    (hd : r.holds dst 4 = true) : (r.copyWithin src dst 4).read32 dst = r.read32 src := by
  have hholds : (r.copyWithin src dst 4).holds dst 4 = true := by
    rw [holds_iff, size_copyWithin]
    exact holds_iff.1 hd
  have hbyte (k : Nat) (hk : k < 4) :
      (r.copyWithin src dst 4).byte (dst.toNat + k) = r.byte (src.toNat + k) := by
    rw [byte_copyWithin hs hd, if_pos ⟨by omega, by omega⟩, Nat.add_sub_cancel_left]
  have hbyte₀ : (r.copyWithin src dst 4).byte dst.toNat = r.byte src.toNat := hbyte 0 (by omega)
  simp only [read32, hholds, hs, if_true, word, hbyte₀, hbyte 1 (by omega), hbyte 2 (by omega),
    hbyte 3 (by omega)]

theorem read32_copyWithin_of_apart {r : Ram} {src dst : UInt32} (hs : r.holds src 4 = true)
    (hd : r.holds dst 4 = true) {addr : UInt32}
    (h : addr.toNat + 4 ≤ dst.toNat ∨ dst.toNat + 4 ≤ addr.toNat) :
    (r.copyWithin src dst 4).read32 addr = r.read32 addr := by
  have hholds : (r.copyWithin src dst 4).holds addr 4 = r.holds addr 4 := by
    rw [holds, holds, size_copyWithin]
  have hbyte (k : Nat) (hk : k < 4) :
      (r.copyWithin src dst 4).byte (addr.toNat + k) = r.byte (addr.toNat + k) := by
    rw [byte_copyWithin hs hd, if_neg (by omega)]
  simp only [read32, hholds, word_congr hbyte]

/-! ## Words laid out in memory -/

/-- Memory with words stored at addresses, the first of them last. -/
def laid (words : List (UInt32 × UInt32)) (r : Ram) : Ram :=
  words.foldr (fun word r => r.write32 word.1 word.2) r

theorem size_laid (words : List (UInt32 × UInt32)) (r : Ram) :
    (r.laid words).bytes.size = r.bytes.size := by
  induction words with
  | nil => rfl
  | cons word words ih => rw [laid, List.foldr_cons, size_write32, ← laid, ih]

/-- The first word at an address is the one that is there. -/
theorem read32_laid {words : List (UInt32 × UInt32)} {r : Ram}
    (h : ∀ word ∈ words, word.1.toNat % 4 = 0 ∧ word.1.toNat + 4 ≤ r.bytes.size) {addr : UInt32}
    (ha : addr.toNat % 4 = 0) :
    (r.laid words).read32 addr = (words.lookup addr).getD (r.read32 addr) := by
  induction words with
  | nil => rfl
  | cons word words ih =>
    obtain ⟨⟨hword, hin⟩, h⟩ := List.forall_mem_cons.1 h
    rw [laid, List.foldr_cons, ← laid, List.lookup_cons]
    by_cases he : addr = word.1
    · rw [he, beq_self_eq_true, read32_write32 (holds_iff.2 (by rwa [size_laid]))]
      rfl
    · rw [read32_write32_of_ne hword ha (Ne.symm he), ih h, beq_eq_false_iff_ne.2 he]

end Ram

end PagedMachine
