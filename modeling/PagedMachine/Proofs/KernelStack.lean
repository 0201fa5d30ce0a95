import PagedMachine.Proofs.Frames
import PagedMachine.Proofs.Visits
import PagedMachine.Trap.Lemmas
import PagedMachine.Width.Lemmas

/-!
# The frame on the kernel's stack

An entry to the kernel needs room for two words below the stack pointer (`Memory.TakesFrame`). If
there is, it completes, and the two words are where to resume and the code of the cause
(`TakesFrame.pushFrame`, `Machine.raiseException_of_takesFrame`).
-/

set_option autoImplicit false

namespace PagedMachine

/-- Slots of the stack that follow each other lie at different places of their pages. -/
theorem alignTo8_offset_ne (sp : UInt32) :
    (alignTo8 (sp - 8)).toNat % 4096 ≠ (alignTo8 sp).toNat % 4096 := by
  have hsub : (sp - 8).toNat = (sp.toNat + 4294967288) % 4294967296 := by
    rw [UInt32.toNat_sub, Nat.add_comm]
    rfl
  have hlt := sp.toNat_lt
  rw [alignTo8_toNat, alignTo8_toNat, hsub]
  omega

namespace Memory

/-- Whether the kernel's stack is accessible below `sp`: its next two slots are the words of memory at
`upper` and at `lower`, the first of which is not one that the walk for the second reads. -/
def TakesFrame (m : Memory) (space : AddressSpace) (sp upper lower : UInt32) : Prop :=
  ∃ m₁ m₂,
    resolve space .stack (alignTo8 (sp - 8)) .store false m = .ok upper m₁ ∧
    resolve space .stack (alignTo8 (sp - 8 - 8)) .store false m₁ = .ok lower m₂ ∧
    m.ram.holds upper 4 = true ∧ m.ram.holds lower 4 = true ∧
    ∀ entry ∈ m₁.ram.walkSlots space (alignTo8 (sp - 8 - 8)), Ram.Apart entry upper

variable {m : Memory} {space : AddressSpace} {sp upper lower : UInt32}

/-- The frame is pushed and read back. -/
theorem TakesFrame.pushFrame (h : m.TakesFrame space sp upper lower) (hf : m.FramesAligned)
    (pc code : UInt32) :
    ∃ m', Memory.pushFrame space sp pc code m = .ok () m' ∧ m'.ram.read32 upper = pc ∧
      m'.ram.read32 lower = code := by
  obtain ⟨m₁, m₂, hupper, hlower, hh, hh', hapart⟩ := h
  have hc := consulted_resolve space .stack (alignTo8 (sp - 8)) .store false m
  have hf₁ := hf.resolve space .stack (alignTo8 (sp - 8)) .store false
  have hc' := consulted_resolve space .stack (alignTo8 (sp - 8 - 8)) .store false m₁
  rw [hupper, stateOf_ok] at hc hf₁
  rw [hlower, stateOf_ok] at hc'
  rw [← hc.holds, ← hc'.holds] at hh hh'
  -- the slots are at different places of their pages, so they are different words
  have hu := hf.offset space .stack _ .store false hupper
  have hl := hf₁.offset space .stack _ .store false hlower
  have hne : lower ≠ upper := by
    rintro rfl
    exact alignTo8_offset_ne (sp - 8) (hl.symm.trans hu)
  have h4 (addr pa : UInt32) (h : pa.toNat % 4096 = (alignTo8 addr).toNat % 4096) :
      pa.toNat % 4 = 0 := by
    rw [alignTo8_toNat] at h
    omega
  have hfirst : pushWord space sp pc false m = .ok () (m₁.mapRam (·.write32 upper pc)) := by
    rw [pushWord, bind_apply, hupper]
    rfl
  have hsecond : pushWord space (sp - 8) code false (m₁.mapRam (·.write32 upper pc)) =
      .ok () ((m₂.mapRam (·.write32 upper pc)).mapRam (·.write32 lower code)) := by
    rw [pushWord, bind_apply, resolve_write32 hapart, hlower]
    rfl
  have hpushed : Memory.pushFrame space sp pc code m =
      .ok () ((m₂.mapRam (·.write32 upper pc)).mapRam (·.write32 lower code)) := by
    rw [Memory.pushFrame, bind_apply, hfirst]
    exact hsecond
  refine ⟨_, hpushed, ?_, ?_⟩
  · simp only [mapRam]
    rw [Ram.read32_write32_of_ne (h4 _ _ hl) (h4 _ _ hu) hne, Ram.read32_write32 hh]
  · exact Ram.read32_write32 (by rwa [Ram.holds_write32]) code

end Memory

/-- A fault is delivered where interrupts are enabled and the kernel's stack has room. -/
theorem Machine.raiseException_of_takesFrame {m : Machine} (cause : Fault) {upper lower : UInt32}
    (hi : m.regs.iena = true) (hf : m.memory.FramesAligned)
    (h : m.memory.TakesFrame m.regs.space m.regs.kernelSp upper lower) :
    ∃ memory, raiseException cause m =
        .ok () { m with regs := (m.regs.blame cause m.ipc).entered cause, memory } ∧
      memory.ram.read32 upper = (m.regs.blame cause m.ipc).pc ∧
      memory.ram.read32 lower = m.regs.entryCode cause := by
  obtain ⟨memory, hpush, hupper, hlower⟩ :=
    h.pushFrame hf (m.regs.blame cause m.ipc).pc (m.regs.entryCode cause)
  refine ⟨memory.invalidatePath, ?_, hupper, hlower⟩
  exact raiseException_eq_ok_iff.2 ⟨hi, deliver_eq_ok_iff.2 ⟨memory, hpush, rfl⟩⟩

end PagedMachine
