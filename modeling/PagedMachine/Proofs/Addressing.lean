import PagedMachine.Block.Lemmas
import PagedMachine.Machine.Lemmas
import PagedMachine.Width.Lemmas

/-!
# How operations access memory

Operations access memory in four ways: they read the bytes at an address, or at two addresses, put
bytes at an address, or copy bytes (`Machine.reading`, `reading₂`, `writing`, `copying`), each within a
page. `Addressed R W` goes through the unprivileged operations with these as its parts. `R` may be
followed by more code; `W` is the property of code that has stored, which then only changes registers.
-/

set_option autoImplicit false

namespace PagedMachine

namespace Machine

/-! ## The accesses -/

/-- Stops where a test fails, unless the test is left out. -/
def confirm : (fault : Option Fault) → (ok : Bool) → Guarded Unit
  | none, _ => pure ()
  | some fault, ok => require ok fault

section
variable {α : Type}

/-- Reads `n` bytes at the place of `vaddr`. -/
def reading (slot : Slot) (vaddr : UInt32) (access : Access) (n : Nat) (fault : Option Fault)
    (read : Ram → UInt32 → α) : Guarded α := do
  let pa ← resolve slot vaddr access
  let ram ← getRam
  confirm fault (ram.holds pa n)
  return read ram pa

/-- Reads `n` bytes each at the places of `b` and `a`. -/
def reading₂ (b a : UInt32) (n : Nat) (fault : Fault) (read : Ram → UInt32 → UInt32 → α) :
    Guarded α := do
  let pb ← resolve .data b .load
  let pa ← resolve .data a .load
  let ram ← getRam
  require (ram.holds pa n && ram.holds pb n) fault
  return read ram pa pb

end

/-- Puts bytes at the place of `vaddr`. -/
def writing (slot : Slot) (vaddr : UInt32) (fault : Option Fault) (data : ByteArray) :
    Guarded Unit := do
  let pa ← resolve slot vaddr .store
  let ram ← getRam
  confirm fault (ram.holds pa data.size)
  modifyRam (·.blit pa data)

/-- Copies `n` bytes from the place of `b` to that of `a`. -/
def copying (b a : UInt32) (n : Nat) (fault : Fault) : Guarded Unit := do
  let src ← resolve .data b .load
  let dst ← resolve .data a .store
  let ram ← getRam
  require (ram.holds src n && ram.holds dst n) fault
  modifyRam (·.copyWithin src dst n)

/-- How much the first two bytes that differ do so, of `n` at each address. -/
def mismatch (n : Nat) (ram : Ram) (pa pb : UInt32) : Option UInt32 :=
  (firstMismatch ram pa.toNat pb.toNat n).map fun i =>
    (ram.byte (pa.toNat + i)).toUInt32 - (ram.byte (pb.toNat + i)).toUInt32

/-- Where `needle` is first, of the `n` bytes at an address. -/
def place (needle : UInt8) (n : Nat) (ram : Ram) (pa : UInt32) : Option Nat :=
  firstMatch ram needle pa.toNat n

end Machine

namespace Ram

/-- Whether reads at two addresses depend on the `n` bytes at each only, if they are in memory. -/
def ReadsAt₂ {α : Type} (n : Nat) (read : Ram → UInt32 → UInt32 → α) : Prop :=
  ∀ (r s : Ram) (pa pb : UInt32), r.holds pa n = true → r.holds pb n = true →
    s.holds pa n = true → s.holds pb n = true →
    (∀ k < n, r.byte (pa.toNat + k) = s.byte (pa.toNat + k)) →
    (∀ k < n, r.byte (pb.toNat + k) = s.byte (pb.toNat + k)) → read r pa pb = read s pa pb

theorem readsAt₂_mismatch (n : Nat) : ReadsAt₂ n (Machine.mismatch n) := by
  intro r s pa pb _ _ _ _ ha hb
  rw [Machine.mismatch, Machine.mismatch, firstMismatch_congr ha hb]
  cases hf : firstMismatch s pa.toNat pb.toNat n with
  | none => rfl
  | some i =>
    have hi := firstMismatch_lt hf
    simp only [Option.map_some, ha i hi, hb i hi]

theorem readsAt_place (needle : UInt8) (n : Nat) : ReadsAt n (Machine.place needle n) :=
  fun _ _ _ _ _ h => firstMatch_congr h

/-- Nothing is read where only the address is wanted. -/
theorem readsAt_address : ReadsAt 0 fun _ addr => addr := fun _ _ _ _ _ _ => rfl

end Ram

namespace Machine

/-- A chunk is in one page of its operand. -/
theorem chunkLeft_fits (a c : UInt32) : a.toNat % 4096 + (chunkLeft a c).toNat ≤ 4096 := by
  have hleft := pageLeft_toNat a
  rw [chunkLeft_toNat]
  omega

theorem chunkLeft₂_fits (a b c : UInt32) :
    a.toNat % 4096 + (chunkLeft₂ a b c).toNat ≤ 4096 ∧
      b.toNat % 4096 + (chunkLeft₂ a b c).toNat ≤ 4096 := by
  have ha := pageLeft_toNat a
  have hb := pageLeft_toNat b
  rw [chunkLeft₂_toNat]
  omega

/-! ## Which accesses each operation makes -/

section
variable (slot : Slot) (vaddr : UInt32)

theorem resolve_eq (access : Access) :
    resolve slot vaddr access = reading slot vaddr access 0 none fun _ pa => pa := by
  funext m
  simp only [reading, confirm, bind_apply, getRam_apply, pure_apply]
  cases resolve slot vaddr access m <;> rfl

theorem loadInt_eq (w : LoadWidth) :
    loadInt slot vaddr w = reading slot (w.align vaddr) .load w.size none w.read := rfl

theorem loadFloat_eq (w : FloatWidth) :
    loadFloat slot vaddr w = reading slot (w.align vaddr) .load w.size none w.read := rfl

theorem readSlot_eq :
    readSlot vaddr = reading .stack (alignTo8 vaddr) .load 4 none Ram.read32 := rfl

theorem storeInt_eq (w : StoreWidth) (v : UInt32) :
    storeInt slot vaddr w v = writing slot (w.align vaddr) none (w.bytes v) := by
  simp only [storeInt, w.write_eq_blit]
  rfl

theorem storeFloat_eq (w : FloatWidth) (v : Double) :
    storeFloat slot vaddr w v = writing slot (w.align vaddr) none (w.bytes v) := by
  simp only [storeFloat, w.write_eq_blit]
  rfl

end

theorem push_eq (v : UInt32) :
    push v = (getRegs >>= fun r =>
      writing .stack (alignTo8 (r.sp - 8)) none (Bytes.push32 .empty v) >>= fun _ =>
        setSp (r.sp - 8)) := by
  simp only [push, Ram.write32_eq_blit, writing, bind_assoc]
  rfl

theorem pushFloat_eq (v : Double) :
    pushFloat v = (getRegs >>= fun r =>
      writing .stack (alignTo8 (r.sp - 8)) none (Bytes.push64 .empty v.bits) >>= fun _ =>
        setSp (r.sp - 8)) := by
  simp only [pushFloat, Ram.write64_eq_blit, writing, bind_assoc]
  rfl

theorem popFloat_eq :
    popFloat = (getRegs >>= fun r =>
      reading .stack (alignTo8 r.sp) .load 8 none Ram.read64 >>= fun bits =>
        setSp (r.sp + 8) >>= fun _ => pure ⟨bits⟩) := by
  funext m
  simp only [popFloat, reading, confirm, bind_apply, getRegs_apply]
  cases resolve .stack (alignTo8 m.regs.sp) .load m <;> rfl

theorem fetch_eq :
    fetch = (getRegs >>= fun r => require (r.pc &&& 3 = 0) (.fatal (.misalignedPc r.pc)) >>= fun _ =>
      modify (fun m => { m with ipc := r.pc }) >>= fun _ =>
      liftM (reading .code r.pc .fetch 4 none Ram.read32) >>= fun word =>
      modify (fun m => { m with ir := ⟨word⟩ }) >>= fun _ =>
      setPc (r.pc + 4) >>= fun _ => pure ⟨word⟩) := by
  refine bind_congr fun r => bind_congr fun _ => bind_congr fun _ => ?_
  funext m
  simp only [reading, confirm, bind_apply, liftGuarded_apply]
  cases resolve .code r.pc .fetch m <;> rfl

/-! ### Block operations -/

theorem copyChunk_eq (a b c : UInt32) :
    copyChunk a b c =
      let u := chunkLeft₂ a b c
      copying b a u.toNat (.badPhysicalAddress (some a)) >>= fun _ => countBlock u >>= fun _ =>
        modifyRegs ({ · with a := a + u, b := b + u, c := c - u }) := by
  simp only [copyChunk, copying, bind_assoc]

theorem compareChunk_eq (a b c : UInt32) :
    compareChunk a b c =
      let u := chunkLeft₂ a b c
      reading₂ b a u.toNat (.badPhysicalAddress (some a)) (mismatch u.toNat) >>= fun diff =>
        match diff with
        | some diff => modifyRegs ({ · with a := diff, b := b + c, c := 0 }) >>= fun _ => pure true
        | none =>
          modifyRegs ({ · with a := a + u, b := b + u, c := c - u }) >>= fun _ => pure false := by
  simp only [compareChunk, reading₂, bind_assoc, pure_bind]
  refine bind_congr fun pb => bind_congr fun pa => bind_congr fun ram => bind_congr fun _ => ?_
  rw [mismatch]
  cases firstMismatch ram pa.toNat pb.toNat (chunkLeft₂ a b c).toNat <;> rfl

theorem scanChunk_eq (needle : UInt8) (a c : UInt32) :
    scanChunk needle a c =
      let u := chunkLeft a c
      reading .data a .load u.toNat (some (.badPhysicalAddress (some a))) (place needle u.toNat) >>=
        fun found =>
        match found with
        | some i => modifyRegs ({ · with a := a + i.toUInt32, c := 0 }) >>= fun _ => pure true
        | none => modifyRegs ({ · with a := a + u, c := c - u }) >>= fun _ => pure false := by
  simp only [scanChunk, reading, confirm, bind_assoc, pure_bind]
  refine bind_congr fun pa => bind_congr fun ram => bind_congr fun _ => ?_
  unfold place
  cases firstMatch ram needle pa.toNat (chunkLeft a c).toNat <;> rfl

theorem fillChunk_eq (value : UInt8) (a c : UInt32) :
    fillChunk value a c =
      let u := chunkLeft a c
      writing .data a (some (.badPhysicalAddress (some a))) (Bytes.replicate u.toNat value) >>=
        fun _ => countBlock u >>= fun _ => modifyRegs ({ · with a := a + u, c := c - u }) := by
  simp only [fillChunk, writing, confirm, Ram.fill_eq_blit, Bytes.size_replicate, bind_assoc]

/-! ### Guest buffers -/

theorem writeChunk_eq (vaddr : UInt32) (data : ByteArray) :
    writeChunk vaddr data =
      writing .data vaddr (some (.badPhysicalAddress (some vaddr))) data := rfl

theorem readChunk_eq (vaddr : UInt32) (len : Nat) :
    readChunk vaddr len =
      reading .data vaddr .load len none (Ram.slice? · · len) >>= fun data =>
        match data with
        | some data => pure data
        | none => throw (.badPhysicalAddress (some vaddr)) := by
  funext m
  simp only [readChunk, reading, confirm, bind_apply]
  cases resolve .data vaddr .load m <;> rfl

/-- Addresses of a buffer are resolved page by page. -/
theorem resolveRange_eq (vaddr : UInt32) (len : Nat) (access : Access) :
    resolveRange vaddr len access =
      if len = 0 then pure ()
      else resolve .data vaddr access >>= fun _ =>
        resolveRange (vaddr + pageLeft vaddr) (len - (pageLeft vaddr).toNat) access := by
  funext m
  rw [resolveRange, bind_apply, getRegs_apply]
  dsimp only
  rw [Memory.resolveRange]
  split
  · rfl
  · rw [onMemory_bind, bind_apply, bind_apply, resolve, bind_apply, getRegs_apply]
    dsimp only
    rw [onMemory_apply]
    cases Memory.resolve m.regs.space .data vaddr access m.regs.user m.memory <;> rfl

end Machine

end PagedMachine
