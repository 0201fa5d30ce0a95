import PagedMachine.Bytes

/-!
# Bytes one by one

What the operations on byte strings do to `at0`, and that a word is given back by its bytes.
-/

set_option autoImplicit false

namespace PagedMachine.Bytes

theorem at0_eq_data (bytes : ByteArray) (i : Nat) : at0 bytes i = bytes.data.getD i 0 := by
  simp only [at0, Array.getD, ByteArray.size_data]
  split <;> rfl

theorem at0_of_size_le {bytes : ByteArray} {i : Nat} (h : bytes.size ≤ i) : at0 bytes i = 0 := by
  simp [at0, Nat.not_lt.2 h]

theorem at0_append (a b : ByteArray) (i : Nat) :
    at0 (a ++ b) i = if i < a.size then at0 a i else at0 b (i - a.size) := by
  obtain ⟨a⟩ := a
  obtain ⟨b⟩ := b
  simp only [at0_eq_data, ByteArray.data_append, ByteArray.size, Array.getD_eq_getD_getElem?,
    Array.getElem?_append]
  split <;> rfl

theorem at0_push (a : ByteArray) (b : UInt8) (i : Nat) :
    at0 (a.push b) i = if i = a.size then b else at0 a i := by
  obtain ⟨a⟩ := a
  simp only [at0_eq_data, ByteArray.data_push, ByteArray.size, Array.getD_eq_getD_getElem?,
    Array.getElem?_push]
  split <;> rfl

theorem ext_at0 {a b : ByteArray} (hs : a.size = b.size) (h : ∀ i, at0 a i = at0 b i) : a = b := by
  apply ByteArray.ext_getElem hs
  intro i ha hb
  simpa [at0, ha, hb] using h i

theorem append_push (a b : ByteArray) (x : UInt8) : (a ++ b).push x = a ++ b.push x := by
  refine ext_at0 (by simp [Nat.add_assoc]) fun i => ?_
  simp only [at0_push, at0_append, ByteArray.size_append]
  grind

theorem at0_extract (a : ByteArray) (start stop i : Nat) :
    at0 (a.extract start stop) i = if start + i < stop then at0 a (start + i) else 0 := by
  obtain ⟨a⟩ := a
  simp only [at0_eq_data, ByteArray.data_extract, Array.getD_eq_getD_getElem?,
    Array.getElem?_extract]
  grind

/-- Bytes put over part of a byte string. -/
theorem at0_copySlice {src dst : ByteArray} {i : Nat} (h : i + src.size ≤ dst.size) (j : Nat) :
    at0 (src.copySlice 0 dst i src.size) j =
      if i ≤ j ∧ j < i + src.size then at0 src (j - i) else at0 dst j := by
  obtain ⟨s⟩ := src
  obtain ⟨d⟩ := dst
  simp only [ByteArray.size] at h
  simp only [at0_eq_data, ByteArray.copySlice, ByteArray.size, Array.getD_eq_getD_getElem?,
    Array.getElem?_append, Array.getElem?_extract, Array.size_append, Array.size_extract]
  grind

theorem size_copySlice {src dst : ByteArray} {i : Nat} (h : i + src.size ≤ dst.size) :
    (src.copySlice 0 dst i src.size).size = dst.size := by
  obtain ⟨s⟩ := src
  obtain ⟨d⟩ := dst
  simp only [ByteArray.size] at h
  simp only [ByteArray.copySlice, ByteArray.size, Array.size_append, Array.size_extract]
  omega

/-! ## Copies of one byte -/

@[simp] theorem size_doubled (n : Nat) (b : UInt8) : (doubled n b).size = n := by
  fun_induction doubled n b with
  | case1 => simp
  | case2 n _ half twice h ih =>
    simp only [ByteArray.size_push, twice, ByteArray.size_append, half, ih]
    omega
  | case3 n _ half twice h ih =>
    simp only [twice, ByteArray.size_append, half, ih]
    omega

theorem at0_doubled (n : Nat) (b : UInt8) (i : Nat) :
    at0 (doubled n b) i = if i < n then b else 0 := by
  fun_induction doubled n b generalizing i with
  | case1 => simp [at0]
  | case2 n _ half twice h ih =>
    simp only [at0_push, at0_append, ByteArray.size_append, twice, half, ih, size_doubled]
    grind
  | case3 n _ half twice h ih =>
    simp only [at0_append, twice, half, ih, size_doubled]
    grind

@[simp] theorem size_appendCopies (chunk : ByteArray) (n : Nat) (out : ByteArray) :
    (appendCopies chunk n out).size = out.size + n * chunk.size := by
  induction n generalizing out with
  | zero => simp [appendCopies]
  | succ n ih => rw [appendCopies, ih, ByteArray.size_append, Nat.succ_mul]; omega

/-- Copies of a row of `b` continue a row of `b`. -/
theorem at0_appendCopies {chunk out : ByteArray} {b : UInt8}
    (hc : ∀ i < chunk.size, at0 chunk i = b) (n : Nat) (ho : ∀ i < out.size, at0 out i = b) :
    ∀ i < (appendCopies chunk n out).size, at0 (appendCopies chunk n out) i = b := by
  induction n generalizing out with
  | zero => exact ho
  | succ n ih =>
    refine ih fun i hi => ?_
    rw [ByteArray.size_append] at hi
    rw [at0_append]
    split
    · exact ho i ‹_›
    · exact hc _ (by omega)

@[simp] theorem size_replicate (n : Nat) (b : UInt8) : (replicate n b).size = n := by
  unfold replicate
  split
  · exact size_doubled n b
  · simp only [ByteArray.size_append, size_appendCopies, size_doubled]
    exact (Nat.zero_add _).symm ▸ Nat.div_add_mod' n chunkSize

theorem at0_replicate (n : Nat) (b : UInt8) (i : Nat) :
    at0 (replicate n b) i = if i < n then b else 0 := by
  split
  · rename_i hi
    unfold replicate
    split
    · rw [at0_doubled, if_pos hi]
    · rw [at0_append]
      split
      · refine at0_appendCopies (fun j hj => ?_) _ (fun j hj => ?_) i ‹_›
        · rw [at0_doubled, if_pos (by simpa using hj)]
        · exact absurd hj (Nat.not_lt_zero j)
      · rw [at0_doubled, if_pos]
        have hn := size_replicate n b
        rw [replicate, if_neg ‹_›, ByteArray.size_append, size_doubled] at hn
        omega
  · exact at0_of_size_le (by rw [size_replicate]; omega)

/-! ## Words

Two words are equal if their bits are; `%` keeps the bits below a width and drops the others.
-/

theorem testBit_mod_two_pow_8 (x i : Nat) :
    (x % 256).testBit i = (decide (i < 8) && x.testBit i) :=
  Nat.testBit_mod_two_pow x 8 i

theorem testBit_mod_two_pow_16 (x i : Nat) :
    (x % 65536).testBit i = (decide (i < 16) && x.testBit i) :=
  Nat.testBit_mod_two_pow x 16 i

theorem testBit_mod_two_pow_32 (x i : Nat) :
    (x % 4294967296).testBit i = (decide (i < 32) && x.testBit i) :=
  Nat.testBit_mod_two_pow x 32 i

theorem testBit_mod_two_pow_64 (x i : Nat) :
    (x % 18446744073709551616).testBit i = (decide (i < 64) && x.testBit i) :=
  Nat.testBit_mod_two_pow x 64 i

theorem testBit_eq_false_of_lt {x n i : Nat} (hx : x < Nat.pow 2 n) (h : n ≤ i) :
    x.testBit i = false :=
  Nat.testBit_lt_two_pow (Nat.lt_of_lt_of_le hx (Nat.pow_le_pow_right (by decide) h))

theorem le16_byteOf16 (w : UInt16) : le16 (byteOf16 w 0) (byteOf16 w 1) = w := by
  apply UInt16.toNat_inj.1
  apply Nat.eq_of_testBit_eq
  intro i
  have := @testBit_eq_false_of_lt _ _ i w.toNat_lt
  simp [le16, byteOf16, testBit_mod_two_pow_8, testBit_mod_two_pow_16, Nat.testBit_shiftLeft,
    Nat.testBit_shiftRight]
  grind

theorem le32_byteOf32 (w : UInt32) :
    le32 (byteOf32 w 0) (byteOf32 w 1) (byteOf32 w 2) (byteOf32 w 3) = w := by
  apply UInt32.toNat_inj.1
  apply Nat.eq_of_testBit_eq
  intro i
  have := @testBit_eq_false_of_lt _ _ i w.toNat_lt
  simp [le32, byteOf32, testBit_mod_two_pow_8, testBit_mod_two_pow_32, Nat.testBit_shiftLeft,
    Nat.testBit_shiftRight]
  grind

/-- Bits put beside a word below 256 show in its lowest byte only. -/
theorem byteOf32_le32_or (b0 b1 b2 b3 x : UInt8) :
    let w := le32 b0 b1 b2 b3 ||| x.toUInt32
    byteOf32 w 0 = b0 ||| x ∧ byteOf32 w 1 = b1 ∧ byteOf32 w 2 = b2 ∧ byteOf32 w 3 = b3 := by
  have hbits (b : UInt8) (i : Nat) (hi : 8 ≤ i) : b.toNat.testBit i = false :=
    testBit_eq_false_of_lt b.toNat_lt hi
  refine ⟨?_, ?_, ?_, ?_⟩ <;> apply UInt8.toNat_inj.1 <;> apply Nat.eq_of_testBit_eq <;> intro i <;>
    simp [le32, byteOf32, testBit_mod_two_pow_8, testBit_mod_two_pow_32, Nat.testBit_shiftLeft,
      Nat.testBit_shiftRight] <;> grind

/-- The bytes of a word are those that it was made of. -/
theorem byteOf32_le32 (b0 b1 b2 b3 : UInt8) :
    let w := le32 b0 b1 b2 b3
    byteOf32 w 0 = b0 ∧ byteOf32 w 1 = b1 ∧ byteOf32 w 2 = b2 ∧ byteOf32 w 3 = b3 := by
  have h := byteOf32_le32_or b0 b1 b2 b3 0
  simpa using h

theorem low32_le64 (low high : UInt32) : low32 (le64 low high) = low := by
  apply UInt32.toNat_inj.1
  apply Nat.eq_of_testBit_eq
  intro i
  have := @testBit_eq_false_of_lt _ _ i low.toNat_lt
  simp [le64, low32, testBit_mod_two_pow_32, Nat.testBit_shiftLeft]
  grind

theorem high32_le64 (low high : UInt32) : high32 (le64 low high) = high := by
  apply UInt32.toNat_inj.1
  apply Nat.eq_of_testBit_eq
  intro i
  have := @testBit_eq_false_of_lt _ _ i high.toNat_lt
  have := @testBit_eq_false_of_lt _ _ (32 + i) low.toNat_lt
  simp [le64, high32, testBit_mod_two_pow_32, testBit_mod_two_pow_64, Nat.testBit_shiftLeft,
    Nat.testBit_shiftRight]
  grind

theorem le64_low32_high32 (w : UInt64) : le64 (low32 w) (high32 w) = w := by
  apply UInt64.toNat_inj.1
  apply Nat.eq_of_testBit_eq
  intro i
  have := @testBit_eq_false_of_lt _ _ i w.toNat_lt
  simp [le64, low32, high32, testBit_mod_two_pow_32, testBit_mod_two_pow_64,
    Nat.testBit_shiftLeft, Nat.testBit_shiftRight]
  grind

/-! ## Byte strings inside others -/

/-- Whether `chunk` stands at byte `pos`. -/
def Stands (data : ByteArray) (pos : Nat) (chunk : ByteArray) : Prop :=
  pos + chunk.size ≤ data.size ∧ data.extract pos (pos + chunk.size) = chunk

section
variable {data a b : ByteArray} {pos : Nat}

theorem stands_append :
    Stands data pos (a ++ b) ↔ Stands data pos a ∧ Stands data (pos + a.size) b := by
  have hsplit : data.extract pos (pos + (a.size + b.size)) = data.extract pos (pos + a.size) ++
      data.extract (pos + a.size) (pos + a.size + b.size) := by
    rw [ByteArray.extract_append_extract]
    congr 1 <;> omega
  simp only [Stands, ByteArray.size_append, hsplit]
  constructor
  · rintro ⟨hin, heq⟩
    have hsize : (data.extract pos (pos + a.size)).size = a.size := by
      rw [ByteArray.size_extract]
      omega
    have ha := ByteArray.append_inj_left heq hsize
    refine ⟨⟨by omega, ha⟩, by omega, ?_⟩
    rwa [ha, ByteArray.append_right_inj] at heq
  · rintro ⟨⟨-, ha⟩, hin, hb⟩
    exact ⟨by omega, by rw [ha, hb]⟩

theorem stands_zero : Stands data 0 a ↔ ∃ t, data = a ++ t := by
  simp only [Stands, Nat.zero_add]
  constructor
  · rintro ⟨hin, heq⟩
    refine ⟨data.extract a.size data.size, ?_⟩
    have hall : data.extract 0 a.size ++ data.extract a.size data.size = data := by
      rw [ByteArray.extract_append_extract, Nat.zero_min, Nat.max_eq_right hin,
        ByteArray.extract_zero_size]
    rw [heq] at hall
    exact hall.symm
  · rintro ⟨t, rfl⟩
    exact ⟨by simp, ByteArray.extract_append_eq_left rfl⟩

end

end PagedMachine.Bytes
