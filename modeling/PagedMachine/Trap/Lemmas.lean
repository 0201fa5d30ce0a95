import PagedMachine.Machine.Lemmas

/-!
# Entries to the kernel, as a whole

An entry to the kernel changes the registers as `Registers.entered` says and memory by the two pushes
of `Memory.pushFrame`; if a push faults, the entry is fatal (`deliver_eq_ok_iff`,
`deliver_eq_error`). What raises, posts and redelivers an interrupt, and what returns from one, is
stated in these terms.
-/

set_option autoImplicit false

namespace PagedMachine

/-- Stores a word in the stack slot below `sp`. -/
def Memory.pushWord (space : AddressSpace) (sp v : UInt32) (user : Bool) :
    EStateM Fault Memory Unit := do
  let pa ← resolve space .stack (alignTo8 (sp - 8)) .store user
  modify (·.mapRam (·.write32 pa v))

/-- Stores where to resume and, below it, the code of the cause on the kernel's stack. -/
def Memory.pushFrame (space : AddressSpace) (sp pc code : UInt32) : EStateM Fault Memory Unit := do
  pushWord space sp pc false
  pushWord space (sp - 8) code false

/-- What an entry to the kernel does to memory: stores the frame and drops the page caches. -/
def Memory.enterKernel (space : AddressSpace) (sp pc code : UInt32) : EStateM Fault Memory Unit := do
  pushFrame space sp pc code
  modify (·.invalidatePath)

/-- What is stored last is the code. -/
theorem Memory.pushFrame_eq_ok {space : AddressSpace} {sp pc code : UInt32} {m m' : Memory} {u : Unit}
    (h : pushFrame space sp pc code m = .ok u m') :
    ∃ pa before after, resolve space .stack (alignTo8 (sp - 16)) .store false before = .ok pa after ∧
      m' = after.mapRam (·.write32 pa code) := by
  have hsp : sp - 8 - 8 = sp - 16 := by grind
  obtain ⟨_, before, -, hcode⟩ := bind_eq_ok_iff.1 h
  obtain ⟨pa, after, hr, hwrite⟩ := bind_eq_ok_iff.1 hcode
  obtain ⟨-, rfl⟩ := EStateM.Result.ok.inj hwrite
  rw [hsp] at hr
  exact ⟨pa, before, after, hr, rfl⟩

namespace Registers

/-- Where the stack of the kernel is when it is entered. -/
def kernelSp (r : Registers) : UInt32 := if r.user then r.ssp else r.sp

/-- The code that an entry leaves for `cause`. -/
def entryCode (r : Registers) (cause : Fault) : UInt32 :=
  if r.user then cause.code ||| Fault.userBit else cause.code

/-- The registers after an entry for `cause`. -/
def entered (r : Registers) (cause : Fault) : Registers :=
  { r with
    usp := if r.user then r.sp else r.usp
    sp := r.kernelSp - 16
    user := false
    trap := r.entryCode cause
    pc := r.ivec }

section
variable (r : Registers)

@[simp] theorem resume_ipend (code pc : UInt32) : (r.resume code pc).ipend = r.ipend := by
  simp only [resume]
  split <;> rfl

@[simp] theorem resume_iena (code pc : UInt32) : (r.resume code pc).iena = r.iena := by
  simp only [resume]
  split <;> rfl

end

end Registers

namespace Machine

section
variable {m m' : Machine}

/-! ## The kernel's stack -/

theorem push_apply (v : UInt32) (m : Machine) :
    push v m =
      match Memory.pushWord m.regs.space m.regs.sp v m.regs.user m.memory with
      | .ok _ memory => .ok () { m with regs := { m.regs with sp := m.regs.sp - 8 }, memory }
      | .error fault memory => .error fault { m with memory } := by
  simp only [push, Memory.pushWord, bind_apply, getRegs_apply, resolve_apply, modify_apply]
  cases Memory.resolve m.regs.space .stack (alignTo8 (m.regs.sp - 8)) .store m.regs.user
    m.memory <;> rfl

theorem onKernelStack_eq_ok_iff {α : Type} {x : Guarded α} {a : α} :
    onKernelStack x m = .ok a m' ↔ x m = .ok a m' := by
  simp only [onKernelStack, adaptExcept_apply]
  cases x m <;> simp

theorem onKernelStack_eq_error {α : Type} {x : Guarded α} {reason : FatalReason}
    (h : onKernelStack x m = .error reason m') : reason = .kernelStackFault := by
  simp only [onKernelStack, adaptExcept_apply] at h
  cases hx : x m with
  | ok a m₁ =>
    rw [hx] at h
    cases h
  | error fault m₁ =>
    rw [hx] at h
    exact (EStateM.Result.error.inj h).1.symm

theorem pushKernel_apply (v : UInt32) (m : Machine) :
    pushKernel v m =
      match Memory.pushWord m.regs.space m.regs.sp v m.regs.user m.memory with
      | .ok _ memory => .ok () { m with regs := { m.regs with sp := m.regs.sp - 8 }, memory }
      | .error _ memory => .error .kernelStackFault { m with memory } := by
  simp only [pushKernel, onKernelStack, adaptExcept_apply, push_apply]
  cases Memory.pushWord m.regs.space m.regs.sp v m.regs.user m.memory <;> rfl

/-- What is popped leaves everything but the stack pointer and the caches. -/
theorem popKernel_eq_ok {v : UInt32} (h : popKernel m = .ok v m') :
    ∃ memory, m' = { m with regs := { m.regs with sp := m.regs.sp + 8 }, memory } := by
  obtain ⟨r, m₁, hr, h⟩ := bind_eq_ok_iff.1 (onKernelStack_eq_ok_iff.1 h)
  obtain ⟨rfl, rfl⟩ := EStateM.Result.ok.inj hr
  obtain ⟨v', m₂, hread, h⟩ := bind_eq_ok_iff.1 h
  obtain ⟨pa, m₃, hpa, hread⟩ := bind_eq_ok_iff.1 hread
  rw [resolve_apply] at hpa
  cases hres : Memory.resolve m.regs.space .stack (alignTo8 m.regs.sp) .load m.regs.user m.memory with
  | ok pa' memory =>
    rw [hres] at hpa
    obtain ⟨-, rfl⟩ := EStateM.Result.ok.inj hpa
    obtain ⟨-, rfl⟩ := EStateM.Result.ok.inj hread
    obtain ⟨-, rfl⟩ := EStateM.Result.ok.inj h
    exact ⟨memory, rfl⟩
  | error fault memory =>
    rw [hres] at hpa
    cases hpa

/-- What is popped is the word where the slot is resolved to. -/
theorem popKernel_of_resolved {pa : UInt32} {memory : Memory}
    (hr : Memory.resolve m.regs.space .stack (alignTo8 m.regs.sp) .load m.regs.user m.memory =
      .ok pa memory) :
    popKernel m = .ok (memory.ram.read32 pa)
      { m with regs := { m.regs with sp := m.regs.sp + 8 }, memory } := by
  refine onKernelStack_eq_ok_iff.2 ?_
  rw [pop, bind_apply, getRegs_apply]
  dsimp only
  rw [bind_apply, readSlot, bind_apply, resolve_apply, hr]
  rfl

/-! ## Entry -/

/-- Entering chooses the kernel's stack and the code. -/
theorem enterKernel_apply (cause : Fault) (m : Machine) :
    enterKernel cause m =
      .ok (m.regs.entryCode cause)
        { m with
          regs := { m.regs with
            usp := if m.regs.user then m.regs.sp else m.regs.usp
            sp := m.regs.kernelSp
            user := false } } := by
  obtain ⟨⟨⟩⟩ := m
  rename_i user _ _ _ _ _ _ _ _ _
  cases user <;> rfl

theorem deliver_eq_ok_iff {cause : Fault} {u : Unit} :
    deliver cause m = .ok u m' ↔
      ∃ memory, Memory.pushFrame m.regs.space m.regs.kernelSp m.regs.pc (m.regs.entryCode cause)
          m.memory = .ok () memory ∧
        m' = { m with regs := m.regs.entered cause, memory := memory.invalidatePath } := by
  have hsp : m.regs.kernelSp - 8 - 8 = m.regs.kernelSp - 16 := by grind
  simp only [deliver, Memory.pushFrame, bind_apply, enterKernel_apply, modifyRegs_apply,
    getRegs_apply, pushKernel_apply]
  cases Memory.pushWord m.regs.space m.regs.kernelSp m.regs.pc false m.memory with
  | error fault memory => simp
  | ok _ memory₁ =>
    dsimp only
    cases Memory.pushWord m.regs.space (m.regs.kernelSp - 8) (m.regs.entryCode cause) false
      memory₁ with
    | error fault memory => simp
    | ok _ memory₂ =>
      simp only [setPc, modifyRegs_apply, modifyMemory_apply, EStateM.Result.ok.injEq, hsp]
      constructor
      · rintro ⟨-, rfl⟩
        exact ⟨memory₂, ⟨trivial, rfl⟩, rfl⟩
      · rintro ⟨memory, ⟨-, rfl⟩, rfl⟩
        exact ⟨trivial, rfl⟩

/-- What an entry does to memory, whether it completes or not. -/
theorem memory_deliver (cause : Fault) (m : Machine) :
    (stateOf (deliver cause m)).memory =
      stateOf (Memory.enterKernel m.regs.space m.regs.kernelSp m.regs.pc (m.regs.entryCode cause)
        m.memory) := by
  simp only [deliver, Memory.enterKernel, Memory.pushFrame, bind_apply, Machine.enterKernel_apply,
    modifyRegs_apply, getRegs_apply, pushKernel_apply]
  cases Memory.pushWord m.regs.space m.regs.kernelSp m.regs.pc false m.memory with
  | error fault memory => rfl
  | ok _ memory₁ =>
    dsimp only
    cases Memory.pushWord m.regs.space (m.regs.kernelSp - 8) (m.regs.entryCode cause) false
      memory₁ <;> rfl

/-- An entry leaves user mode, whether it completes or not. -/
theorem user_deliver (cause : Fault) (m : Machine) :
    (stateOf (deliver cause m)).regs.user = false := by
  simp only [deliver, bind_apply, Machine.enterKernel_apply, modifyRegs_apply, getRegs_apply,
    pushKernel_apply]
  cases Memory.pushWord m.regs.space m.regs.kernelSp m.regs.pc false m.memory with
  | error fault memory => rfl
  | ok _ memory₁ =>
    dsimp only
    cases Memory.pushWord m.regs.space (m.regs.kernelSp - 8) (m.regs.entryCode cause) false
      memory₁ <;> rfl

/-- The kernel's stack is all that can be in the way of an entry. -/
theorem deliver_eq_error {cause : Fault} {reason : FatalReason}
    (h : deliver cause m = .error reason m') : reason = .kernelStackFault := by
  rw [deliver, bind_apply, enterKernel_apply] at h
  rcases bind_eq_error_iff.1 h with h | ⟨_, m₁, -, h⟩
  · cases h
  rcases bind_eq_error_iff.1 h with h | ⟨_, m₂, -, h⟩
  · cases h
  rcases bind_eq_error_iff.1 h with h | ⟨_, m₃, -, h⟩
  · exact onKernelStack_eq_error h
  rcases bind_eq_error_iff.1 h with h | ⟨_, m₄, -, h⟩
  · exact onKernelStack_eq_error h
  · cases h

/-! ## Faults and interrupts -/

theorem raiseException_of_iena (cause : Fault) (hi : m.regs.iena = true) :
    raiseException cause m = deliver cause { m with regs := m.regs.blame cause m.ipc } := by
  simp only [raiseException, bind_apply, getRegs_apply, hi]
  rfl

/-- A fault enters the kernel if interrupts are enabled, with the registers that blame it. -/
theorem raiseException_eq_ok_iff {cause : Fault} {u : Unit} :
    raiseException cause m = .ok u m' ↔
      m.regs.iena = true ∧
        deliver cause { m with regs := m.regs.blame cause m.ipc } = .ok u m' := by
  simp only [raiseException, bind_apply, getRegs_apply]
  cases m.regs.iena with
  | true => exact ⟨fun h => ⟨rfl, h⟩, fun h => h.2⟩
  | false => exact ⟨nofun, nofun⟩

theorem raiseException_eq_error {cause : Fault} {reason : FatalReason}
    (h : raiseException cause m = .error reason m') :
    reason = if m.regs.iena then .kernelStackFault else .doubleFault := by
  simp only [raiseException, bind_apply, getRegs_apply] at h
  cases hi : m.regs.iena with
  | true =>
    rw [hi] at h
    exact deliver_eq_error h
  | false =>
    rw [hi] at h
    exact (EStateM.Result.error.inj h).1.symm

/-- An interrupt enters the kernel, masks others and is noted. -/
theorem raiseInterrupt_eq_ok_iff {cause : Fault} {u : Unit} :
    raiseInterrupt cause m = .ok u m' ↔
      ∃ memory, Memory.pushFrame m.regs.space m.regs.kernelSp m.regs.pc (m.regs.entryCode cause)
          m.memory = .ok () memory ∧
        m' = { m with
          regs := { m.regs.entered cause with iena := false }
          memory := memory.invalidatePath
          journal := .interrupted cause :: m.journal } := by
  rw [raiseInterrupt, bind_apply, modifyRegs_apply]
  constructor
  · intro h
    obtain ⟨_, m₁, hd, hn⟩ := bind_eq_ok_iff.1 h
    obtain ⟨memory, hp, rfl⟩ := deliver_eq_ok_iff.1 hd
    obtain ⟨-, rfl⟩ := EStateM.Result.ok.inj hn
    exact ⟨memory, hp, rfl⟩
  · rintro ⟨memory, hp, rfl⟩
    exact bind_eq_ok_iff.2 ⟨(), _, deliver_eq_ok_iff.2 ⟨memory, hp, rfl⟩, rfl⟩

theorem memory_raiseInterrupt (cause : Fault) (m : Machine) :
    (stateOf (raiseInterrupt cause m)).memory =
      stateOf (Memory.enterKernel m.regs.space m.regs.kernelSp m.regs.pc (m.regs.entryCode cause)
        m.memory) := by
  have hm := memory_deliver cause { m with regs := { m.regs with iena := false } }
  rw [raiseInterrupt, bind_apply, modifyRegs_apply]
  dsimp only
  rw [bind_apply]
  cases hr : deliver cause { m with regs := { m.regs with iena := false } } <;> rwa [hr] at hm

theorem user_raiseInterrupt (cause : Fault) (m : Machine) :
    (stateOf (raiseInterrupt cause m)).regs.user = false := by
  have hu := user_deliver cause { m with regs := { m.regs with iena := false } }
  rw [raiseInterrupt, bind_apply, modifyRegs_apply]
  dsimp only
  rw [bind_apply]
  cases hr : deliver cause { m with regs := { m.regs with iena := false } } <;> rwa [hr] at hu

theorem raiseInterrupt_eq_error {cause : Fault} {reason : FatalReason}
    (h : raiseInterrupt cause m = .error reason m') : reason = .kernelStackFault := by
  rw [raiseInterrupt, bind_apply, modifyRegs_apply] at h
  rcases bind_eq_error_iff.1 h with h | ⟨_, m₁, -, h⟩
  · exact deliver_eq_error h
  · cases h

/-- An interrupt is delivered if they are enabled and left pending if not. -/
theorem postInterrupt_apply (cause : Fault) (m : Machine) :
    postInterrupt cause m =
      if m.regs.iena then
        match raiseInterrupt cause m with
        | .ok _ m' => .ok true m'
        | .error reason m' => .error reason m'
      else
        .ok false { m with regs := { m.regs with ipend := m.regs.ipend ||| cause.pendingBit } } := by
  simp only [postInterrupt, bind_apply, getRegs_apply]
  by_cases hi : m.regs.iena = true
  · rw [if_pos hi, if_pos hi, bind_apply]
    cases raiseInterrupt cause m <;> rfl
  · rw [if_neg hi, if_neg hi]
    rfl

/-- Enabling interrupts delivers the lowest that is pending, and enables them if there is none. -/
theorem enableInterrupts_apply (m : Machine) :
    enableInterrupts m =
      match Fault.ofPending? m.regs.ipend with
      | some cause =>
        raiseInterrupt cause
          { m with regs := { m.regs with ipend := m.regs.ipend &&& ~~~cause.pendingBit } }
      | none => .ok () { m with regs := { m.regs with iena := true } } := by
  simp only [enableInterrupts, deliverPending, bind_apply, getRegs_apply]
  cases Fault.ofPending? m.regs.ipend with
  | none => rfl
  | some cause =>
    simp only [bind_apply, modifyRegs_apply]
    cases raiseInterrupt cause
      { m with regs := { m.regs with ipend := m.regs.ipend &&& ~~~cause.pendingBit } } <;> rfl

theorem enableInterrupts_of_none (h : Fault.ofPending? m.regs.ipend = none) :
    enableInterrupts m = .ok () { m with regs := { m.regs with iena := true } } := by
  rw [enableInterrupts_apply, h]

theorem enableInterrupts_eq_error {reason : FatalReason}
    (h : enableInterrupts m = .error reason m') : reason = .kernelStackFault := by
  rw [enableInterrupts_apply] at h
  split at h
  · exact raiseInterrupt_eq_error h
  · cases h

/-- A return takes two words off the kernel's stack and then enables interrupts, unless they are. -/
theorem returnFromInterrupt_apply {m m₁ : Machine} {code pc : UInt32} {m₂ : Machine}
    (hcode : popKernel m = .ok code m₁) (hpc : popKernel m₁ = .ok pc m₂) :
    let resumed := { m₂ with regs := m₂.regs.resume code pc, memory := m₂.memory.invalidatePath }
    returnFromInterrupt m = if m.regs.iena then .ok () resumed else enableInterrupts resumed := by
  obtain ⟨memory₁, rfl⟩ := popKernel_eq_ok hcode
  obtain ⟨memory₂, rfl⟩ := popKernel_eq_ok hpc
  simp only [returnFromInterrupt, bind_apply, hcode, hpc, modifyRegs_apply, modifyMemory_apply,
    getRegs_apply, Registers.resume_iena]
  by_cases hi : m.regs.iena = true
  · rw [if_pos hi, if_pos hi]
    rfl
  · rw [if_neg hi, if_neg hi]

/-- A return goes on where the words say that its two slots are resolved to. -/
theorem returnFromInterrupt_of_resolved {lower upper : UInt32} {memory₁ memory₂ : Memory}
    (hlower : Memory.resolve m.regs.space .stack (alignTo8 m.regs.sp) .load m.regs.user m.memory =
      .ok lower memory₁)
    (hupper : Memory.resolve m.regs.space .stack (alignTo8 (m.regs.sp + 8)) .load m.regs.user
      memory₁ = .ok upper memory₂) :
    let resumed := { m with
      regs := ({ m.regs with sp := m.regs.sp + 8 + 8 } : Registers).resume
        (memory₁.ram.read32 lower) (memory₂.ram.read32 upper)
      memory := memory₂.invalidatePath }
    returnFromInterrupt m = if m.regs.iena then .ok () resumed else enableInterrupts resumed := by
  have hpop := popKernel_of_resolved
    (m := { m with regs := { m.regs with sp := m.regs.sp + 8 }, memory := memory₁ }) hupper
  have hreturn := returnFromInterrupt_apply (popKernel_of_resolved hlower) hpop
  dsimp only at hreturn ⊢
  rw [hreturn]

/-- A return that completes took two words off the kernel's stack. -/
theorem returnFromInterrupt_eq_ok {u : Unit} (h : returnFromInterrupt m = .ok u m') :
    ∃ code pc memory,
      let resumed := { m with
        regs := ({ m.regs with sp := m.regs.sp + 8 + 8 } : Registers).resume code pc, memory }
      (if m.regs.iena then .ok () resumed else enableInterrupts resumed) = .ok () m' := by
  obtain ⟨code, m₁, hcode, h'⟩ := bind_eq_ok_iff.1 h
  obtain ⟨pc, m₂, hpc, -⟩ := bind_eq_ok_iff.1 h'
  rw [returnFromInterrupt_apply hcode hpc] at h
  obtain ⟨memory₁, rfl⟩ := popKernel_eq_ok hcode
  obtain ⟨memory₂, rfl⟩ := popKernel_eq_ok hpc
  exact ⟨code, pc, _, h⟩

theorem returnFromInterrupt_eq_error {reason : FatalReason}
    (h : returnFromInterrupt m = .error reason m') : reason = .kernelStackFault := by
  rcases bind_eq_error_iff.1 h with hcode | ⟨code, m₁, hcode, h'⟩
  · exact onKernelStack_eq_error hcode
  rcases bind_eq_error_iff.1 h' with hpc | ⟨pc, m₂, hpc, -⟩
  · exact onKernelStack_eq_error hpc
  rw [returnFromInterrupt_apply hcode hpc] at h
  split at h
  · cases h
  · exact enableInterrupts_eq_error h

end

end Machine

end PagedMachine
