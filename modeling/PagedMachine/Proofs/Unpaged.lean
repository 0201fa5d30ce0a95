import PagedMachine.Proofs.KernelStack
import PagedMachine.Step.Lemmas

/-!
# Running without paging

While paging is off the caches hold each page at its own address (`Memory.Direct`), so an address in
memory names itself (`Direct.resolve`). What the next step executes and what the stack holds are then
words of memory (`Machine.step_of_direct`, `Machine.returnFromInterrupt_of_direct`).
-/

set_option autoImplicit false

namespace PagedMachine

namespace Memory

/-- Whether the caches remember each page at its own address, as it is without paging. -/
def Direct (m : Memory) : Prop :=
  m.Remembers fun page frame => ∀ vaddr, pageNumber vaddr = page → frame = pageBase vaddr

variable {m : Memory} {space : AddressSpace} {sp : UInt32}

/-- Without paging an address in memory names itself. -/
theorem Direct.resolve (h : m.Direct) (hspace : space.paging = false) (slot : Slot) {vaddr : UInt32}
    (hv : pageBase vaddr < m.ram.size) (access : Access) (user : Bool) :
    ∃ m', Memory.resolve space slot vaddr access user m = .ok vaddr m' ∧ m'.Direct ∧
      m'.ram = m.ram := by
  have hwalk (mapping : Mapping) (ram : Ram)
      (hw : walk space vaddr access user m.ram = .ok mapping ram) (other : UInt32)
      (ho : pageNumber other = pageNumber vaddr) : mapping.frame = pageBase other := by
    rw [walk_of_not_paging hspace, if_pos hv] at hw
    obtain ⟨rfl, -⟩ := EStateM.Result.ok.inj hw
    exact pageBase_eq_of_pageNumber ho.symm
  have hd : (stateOf (Memory.resolve space slot vaddr access user m)).Direct :=
    Remembers.resolve h hwalk
  have hram := ram_resolve_of_not_paging slot vaddr access user hspace m
  obtain ⟨pa, m', hr⟩ := resolve_of_not_paging slot vaddr access user hspace hv
  obtain ⟨frame, hframe, rfl⟩ := Remembers.frame h hwalk hr
  rw [hr] at hd hram
  rw [hframe vaddr rfl, pageBase_or_pageOffset] at hr
  exact ⟨m', hr, hd, hram⟩

/-- The frame of an entry to the kernel lies below `sp` itself. -/
theorem Direct.takesFrame (h : m.Direct) (hspace : space.paging = false)
    (hsize : m.ram.size.toNat = m.ram.bytes.size) (hupper : m.ram.holds (alignTo8 (sp - 8)) 4 = true)
    (hlower : m.ram.holds (alignTo8 (sp - 8 - 8)) 4 = true) :
    m.TakesFrame space sp (alignTo8 (sp - 8)) (alignTo8 (sp - 8 - 8)) := by
  have hin (vaddr : UInt32) (hv : m.ram.holds vaddr 4 = true) : pageBase vaddr < m.ram.size := by
    rw [Ram.holds_iff] at hv
    rw [UInt32.lt_iff_toNat_lt, pageBase_toNat, hsize]
    omega
  obtain ⟨m₁, hr₁, h₁, hram₁⟩ := h.resolve hspace .stack (hin _ hupper) .store false
  have hlower₁ : pageBase (alignTo8 (sp - 8 - 8)) < m₁.ram.size := by
    rw [hram₁]
    exact hin _ hlower
  obtain ⟨m₂, hr₂, -, -⟩ := h₁.resolve hspace .stack hlower₁ .store false
  refine ⟨m₁, m₂, hr₁, hr₂, hupper, hlower, ?_⟩
  rw [Ram.walkSlots, if_neg (by simp [hspace])]
  intro entry hentry
  cases hentry

/-- Without paging a word in memory can be pushed. -/
theorem Direct.pushWord (h : m.Direct) (hspace : space.paging = false)
    (hsp : pageBase (alignTo8 (sp - 8)) < m.ram.size) (v : UInt32) (user : Bool) :
    ∃ m', Memory.pushWord space sp v user m = .ok () m' ∧ m'.Direct ∧ m'.ram.size = m.ram.size := by
  obtain ⟨m', hr, hd, hram⟩ := h.resolve hspace .stack hsp .store user
  refine ⟨m'.mapRam (·.write32 (alignTo8 (sp - 8)) v), ?_, hd.mapRam _, ?_⟩
  · rw [Memory.pushWord, bind_apply, hr]
    rfl
  · rw [← hram]
    exact Ram.size_eq_of (Ram.size_write32 ..)

theorem Direct.pushFrame (h : m.Direct) (hspace : space.paging = false)
    (hupper : pageBase (alignTo8 (sp - 8)) < m.ram.size)
    (hlower : pageBase (alignTo8 (sp - 8 - 8)) < m.ram.size) (pc code : UInt32) :
    ∃ m', Memory.pushFrame space sp pc code m = .ok () m' := by
  obtain ⟨m₁, hr₁, h₁, hsize₁⟩ := h.pushWord hspace hupper pc false
  obtain ⟨m₂, hr₂, -⟩ := h₁.pushWord hspace (by rwa [hsize₁]) code false
  refine ⟨m₂, ?_⟩
  rw [Memory.pushFrame, bind_apply, hr₁]
  exact hr₂

end Memory

namespace Machine

variable {m : Machine}

/-- The next instruction is the word at the program counter. -/
theorem fetch_of_direct (h : m.memory.Direct) (hspace : m.regs.space.paging = false)
    (halign : m.regs.pc &&& 3 = 0) (hpc : pageBase m.regs.pc < m.memory.ram.size) :
    ∃ memory, memory.Direct ∧ memory.ram = m.memory.ram ∧
      fetch m = .ok ⟨m.memory.ram.read32 m.regs.pc⟩ { m with
        regs := { m.regs with pc := m.regs.pc + 4 }, memory, ipc := m.regs.pc
        ir := ⟨m.memory.ram.read32 m.regs.pc⟩ } := by
  obtain ⟨memory, hr, hd, hram⟩ := h.resolve hspace .code hpc .fetch m.regs.user
  refine ⟨memory, hd, hram, ?_⟩
  rw [fetch_of_resolved halign hr, hram]

/-- A step in which no device is polled executes the word at the program counter. -/
theorem step_of_direct (word : UInt32) (op : Operation) (h : m.memory.Direct)
    (hspace : m.regs.space.paging = false)
    (hdue : (m.regs.cycle + 1) % pollInterval.toUInt64 ≠ 0) (halign : m.regs.pc &&& 3 = 0)
    (hpc : pageBase m.regs.pc < m.memory.ram.size) (hword : m.memory.ram.read32 m.regs.pc = word)
    (hop : (Instruction.mk word).operation? = some op)
    (hmode : m.regs.user = true → op.privileged = false) :
    ∃ memory, memory.Direct ∧ memory.ram = m.memory.ram ∧
      ∀ flow m', execute op ⟨word⟩ { m with
          regs := { m.regs with pc := m.regs.pc + 4, cycle := m.regs.cycle + 1 }, memory
          ipc := m.regs.pc, ir := ⟨word⟩ } = .ok flow m' →
        step m = .ok flow m' := by
  obtain ⟨memory, hr, hd, hram⟩ := h.resolve hspace .code hpc .fetch m.regs.user
  exact ⟨memory, hd, hram, fun flow m' =>
    step_of_resolved hdue halign hr (by rw [hram, hword]) hop hmode⟩

/-- A return goes on where the top of the stack says. -/
theorem returnFromInterrupt_of_direct (h : m.memory.Direct) (hspace : m.regs.space.paging = false)
    {lower upper code pc : UInt32} (hlower : alignTo8 m.regs.sp = lower)
    (hupper : alignTo8 (m.regs.sp + 8) = upper) (hcode : pageBase lower < m.memory.ram.size)
    (hpc : pageBase upper < m.memory.ram.size) (hcode' : m.memory.ram.read32 lower = code)
    (hpc' : m.memory.ram.read32 upper = pc) :
    ∃ memory, memory.Direct ∧ memory.ram = m.memory.ram ∧
      let resumed := { m with
        regs := ({ m.regs with sp := m.regs.sp + 8 + 8 } : Registers).resume code pc, memory }
      returnFromInterrupt m = if m.regs.iena then .ok () resumed else enableInterrupts resumed := by
  subst hlower hupper
  obtain ⟨memory₁, hr₁, hd₁, hram₁⟩ := h.resolve hspace .stack hcode .load m.regs.user
  obtain ⟨memory₂, hr₂, hd₂, hram₂⟩ := hd₁.resolve hspace .stack (by rwa [hram₁]) .load m.regs.user
  refine ⟨memory₂.invalidatePath, Memory.Remembers.invalidatePath hd₂, hram₂.trans hram₁, ?_⟩
  have hreturn := returnFromInterrupt_of_resolved hr₁ hr₂
  rwa [hram₂, hram₁, hcode', hpc'] at hreturn

end Machine

end PagedMachine
