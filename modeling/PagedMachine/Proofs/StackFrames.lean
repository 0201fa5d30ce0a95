import PagedMachine.Proofs.Agreement
import PagedMachine.Proofs.KernelStack

/-!
# Frames on the kernel's stack

An entry leaves a frame of two words on the kernel's stack (`StackFrame`, `Machine.Enters`), and a
return takes one off. Where the caches agree with the tables (`Machine.Regular`) and the words are no
part of them, an entry that succeeds puts its frame where the tables say (`Enters.held`), and a return
from a frame that is in memory goes on where the frame says, whatever the caches hold by then
(`Regular.returnFromInterrupt_of_returns`), or enters the kernel again for an interrupt that waits
(`Regular.returnFromInterrupt_of_pending`).
-/

set_option autoImplicit false

namespace PagedMachine

/-- The codes of causes leave the bit for user mode free. -/
theorem Fault.code_and_userBit (cause : Fault) : cause.code &&& userBit = 0 := by
  cases cause <;> simp only [code] <;> decide

theorem Fault.code_or_userBit (cause : Fault) : (cause.code ||| userBit) &&& userBit ≠ 0 := by
  cases cause <;> simp only [code] <;> decide

/-- The bit says whether user mode was left. -/
theorem Registers.entryCode_and_userBit (r : Registers) (cause : Fault) :
    r.entryCode cause &&& Fault.userBit ≠ 0 ↔ r.user = true := by
  rw [entryCode]
  cases r.user with
  | true => simpa using cause.code_or_userBit
  | false => simpa using cause.code_and_userBit

/-! ## Frames -/

/-- What an entry leaves on the kernel's stack: the stack pointer that it found, the places of its two
words in memory, and the words. -/
structure StackFrame where
  sp : UInt32
  upper : UInt32
  lower : UInt32
  pc : UInt32
  code : UInt32

namespace StackFrame

/-- Whether the words of two frames do not overlap. -/
structure Apart (f g : StackFrame) : Prop where
  upper_upper : Ram.Apart f.upper g.upper
  upper_lower : Ram.Apart f.upper g.lower
  lower_upper : Ram.Apart f.lower g.upper
  lower_lower : Ram.Apart f.lower g.lower

/-- Whether the tables give these places to the words, and no word is part of the tables. -/
structure Placed (f : StackFrame) (space : AddressSpace) (r : Ram) : Prop where
  upper : r.locate space (alignTo8 (f.sp - 8)) .store false = .ok f.upper
  lower : r.locate space (alignTo8 (f.sp - 16)) .store false = .ok f.lower
  upper_spares : r.SparesTables space f.upper
  lower_spares : r.SparesTables space f.lower

/-- Whether the frame is in memory. -/
structure Held (f : StackFrame) (space : AddressSpace) (r : Ram) : Prop extends Placed f space r where
  pc : r.read32 f.upper = f.pc
  code : r.read32 f.lower = f.code

/-- The registers after a return to where the frame says. -/
def resume (f : StackFrame) (r : Registers) : Registers :=
  ({ r with sp := f.sp } : Registers).resume f.code f.pc

/-- The frame after it was taken off for an interrupt that waits. -/
def redelivered (f : StackFrame) (next : Fault) : StackFrame :=
  { f with code := if f.code &&& Fault.userBit ≠ 0 then next.code ||| Fault.userBit else next.code }

section
variable {f : StackFrame} {space : AddressSpace} {r r' : Ram} {stores : List UInt32}

theorem Placed.of_stored (h : f.Placed space r) (hr : r.Stored space stores r') :
    f.Placed space r' where
  upper := (hr.locate ..).trans h.upper
  lower := (hr.locate ..).trans h.lower
  upper_spares := hr.sparesTables.2 h.upper_spares
  lower_spares := hr.sparesTables.2 h.lower_spares

/-- A frame stays while words apart from it are stored. -/
theorem Held.of_stored (h : f.Held space r) (hr : r.Stored space stores r')
    (hupper : ∀ a ∈ stores, Ram.Apart a f.upper) (hlower : ∀ a ∈ stores, Ram.Apart a f.lower) :
    f.Held space r' :=
  ⟨h.toPlaced.of_stored hr, (hr.word _ h.upper_spares hupper).trans h.pc,
    (hr.word _ h.lower_spares hlower).trans h.code⟩

theorem Held.of_stored_frame {g : StackFrame} (h : g.Held space r)
    (hr : r.Stored space [f.upper, f.lower] r') (hf : f.Apart g) : g.Held space r' := by
  refine h.of_stored hr (fun a ha => ?_) fun a ha => ?_
  · rcases List.mem_cons.1 ha with rfl | ha
    · exact hf.upper_upper
    · obtain rfl := List.mem_singleton.1 ha
      exact hf.lower_upper
  · rcases List.mem_cons.1 ha with rfl | ha
    · exact hf.upper_lower
    · obtain rfl := List.mem_singleton.1 ha
      exact hf.lower_lower

/-- The two words of a frame do not overlap. -/
theorem Placed.apart (h : f.Placed space r) : Ram.Apart f.lower f.upper := by
  have hu := Ram.offset_of_locate h.upper
  have hl := Ram.offset_of_locate h.lower
  have hne := alignTo8_offset_ne (f.sp - 8)
  rw [show f.sp - 8 - 8 = f.sp - 16 by grind] at hne
  have hau := alignTo8_toNat (f.sp - 8)
  have hal := alignTo8_toNat (f.sp - 16)
  unfold Ram.Apart
  omega

/-- A return goes on where the frame says, and everything else is as it was. -/
theorem resume_eq (f : StackFrame) (r : Registers) :
    f.resume r = { r with
      pc := f.pc
      sp := if f.code &&& Fault.userBit ≠ 0 then r.usp else f.sp
      ssp := if f.code &&& Fault.userBit ≠ 0 then f.sp else r.ssp
      user := if f.code &&& Fault.userBit ≠ 0 then true else r.user } := by
  rw [resume, Registers.resume]
  split <;> rfl

/-- A return to the kernel. -/
theorem resume_of_kernel (hf : f.code &&& Fault.userBit = 0) (r : Registers) :
    f.resume r = { r with pc := f.pc, sp := f.sp } := by
  rw [resume_eq, hf]
  rfl

theorem kernelSp_resume {r : Registers} (h : r.user = false) : (f.resume r).kernelSp = f.sp := by
  rw [resume_eq, Registers.kernelSp, h]
  by_cases hu : f.code &&& Fault.userBit ≠ 0 <;> simp [hu]

theorem entryCode_resume {r : Registers} (h : r.user = false) (next : Fault) :
    (f.resume r).entryCode next = (f.redelivered next).code := by
  rw [resume_eq, Registers.entryCode, redelivered, h]
  by_cases hu : f.code &&& Fault.userBit ≠ 0 <;> simp [hu]

/-- The registers after a return that enters the kernel again: little has changed. -/
theorem entered_resume {r : Registers} (hu : r.user = false) (hi : r.iena = false)
    (hsp : r.sp = f.sp - 16) (pending : UInt32) (next : Fault) :
    { ({ f.resume r with ipend := pending } : Registers).entered next with iena := false } =
      { r with
        pc := r.ivec
        ipend := pending
        trap := (f.redelivered next).code
        ssp := if f.code &&& Fault.userBit ≠ 0 then f.sp else r.ssp } := by
  obtain ⟨⟩ := r
  dsimp only at hu hi hsp
  subst hu hi hsp
  rw [resume_eq, redelivered]
  by_cases huser : f.code &&& Fault.userBit ≠ 0 <;>
    simp [Registers.entered, Registers.kernelSp, Registers.entryCode, huser]

end

end StackFrame

/-! ## Pushing and popping a frame -/

section
variable {space : AddressSpace} {m : Memory}

/-- A word is pushed where the tables say. -/
theorem Memory.Faithful.pushWord (h : m.Faithful space .stack true) {sp pa : UInt32}
    (hpa : m.ram.locate space (alignTo8 (sp - 8)) .store false = .ok pa)
    (hspares : m.ram.SparesTables space pa) (v : UInt32) :
    ∃ m', Memory.pushWord space sp v false m = .ok () m' ∧ m'.Faithful space .stack true ∧
      m.ram.Stored space [pa] m'.ram ∧ m'.ram.read32 pa = v := by
  obtain ⟨m₁, hresolve, h₁, hstored⟩ := Faithful.resolve_of_locate .store h hpa
  have hwrite := Ram.stored_write32 h₁.paged (hstored.sparesTables.2 hspares) v
  have halign := alignTo8_toNat (sp - 8)
  have hholds := h.paged.holds_of_locate hpa (n := 4) (by omega)
  refine ⟨m₁.mapRam (·.write32 pa v), ?_, h₁.of_stored hwrite, hstored.trans hwrite, ?_⟩
  · rw [Memory.pushWord, bind_apply, hresolve]
    rfl
  · refine Ram.read32_write32 ?_ v
    rwa [Ram.holds, hstored.size]

/-- A frame is pushed where the tables say. -/
theorem Memory.Agrees.pushFrame (h : m.Agrees space) (hs : space.Aligned) (hr : m.ram.Paged)
    {f : StackFrame} (hf : f.Placed space m.ram) :
    ∃ m', Memory.pushFrame space f.sp f.pc f.code m = .ok () m' ∧ m'.Faithful space .stack true ∧
      m.ram.Stored space [f.upper, f.lower] m'.ram ∧ f.Held space m'.ram := by
  obtain ⟨m₁, hpush, h₁, hstored, hpc⟩ :=
    (h.faithful hs hr .stack true).pushWord hf.upper hf.upper_spares f.pc
  have hf₁ := hf.of_stored hstored
  have hlower : m₁.ram.locate space (alignTo8 (f.sp - 8 - 8)) .store false = .ok f.lower := by
    rw [show f.sp - 8 - 8 = f.sp - 16 by grind]
    exact hf₁.lower
  obtain ⟨m₂, hpush', h₂, hstored', hcode⟩ := h₁.pushWord hlower hf₁.lower_spares f.code
  have hboth := hstored.trans hstored'
  refine ⟨m₂, ?_, h₂, hboth, hf.of_stored hboth, ?_, hcode⟩
  · rw [Memory.pushFrame, bind_apply, hpush]
    exact hpush'
  · -- the second word is apart from the first
    refine (hstored'.word _ hf₁.upper_spares fun b hb => ?_).trans hpc
    obtain rfl := List.mem_singleton.1 hb
    exact hf.apart

/-- A push that succeeds is one to where the tables say. -/
theorem Memory.Faithful.locate_of_pushWord (h : m.Faithful space .stack true) {sp v : UInt32}
    {m' : Memory} (hpush : Memory.pushWord space sp v false m = .ok () m') :
    ∃ pa, m.ram.locate space (alignTo8 (sp - 8)) .store false = .ok pa := by
  obtain ⟨pa, m₁, hresolve, -⟩ := bind_eq_ok_iff.1 hpush
  obtain ⟨hanswer, -, -⟩ := Faithful.resolve .store h (alignTo8 (sp - 8)) false
  rw [hresolve] at hanswer
  exact ⟨pa, hanswer.symm⟩

end

namespace Machine

/-- Whether a word of the frame of an entry from `m` would be at `pa`. -/
def PushesTo (m : Machine) (pa : UInt32) : Prop :=
  ∃ vaddr ∈ [alignTo8 (m.regs.kernelSp - 8), alignTo8 (m.regs.kernelSp - 16)],
    m.memory.ram.locate m.regs.space vaddr .store false = .ok pa

/-- An entry to the kernel, with the frame that it leaves. -/
structure Enters (cause : Fault) (f : StackFrame) (m m' : Machine) : Prop where
  sp : f.sp = m.regs.kernelSp
  pc : f.pc = m.regs.pc
  code : f.code = m.regs.entryCode cause
  placed : f.Placed m.regs.space m.memory.ram
  deliver : deliver cause m = .ok () m'

section
variable {m m' : Machine} {cause : Fault} {f : StackFrame}

/-- Whether a return from `m` does not find an interrupt that it has to deliver. -/
def Returns (m : Machine) : Prop := m.regs.iena = true ∨ Fault.ofPending? m.regs.ipend = none

/-- What is known of a machine between entries and returns: its caches agree with the tables. -/
structure Regular (m : Machine) : Prop where
  aligned : m.regs.space.Aligned
  paged : m.memory.ram.Paged
  agrees : m.memory.Agrees m.regs.space

theorem Regular.of_eq (h : m.Regular) (hmemory : m'.memory = m.memory)
    (hspace : m'.regs.space = m.regs.space) : m'.Regular :=
  ⟨by rw [hspace]; exact h.aligned, by rw [hmemory]; exact h.paged,
    by rw [hmemory, hspace]; exact h.agrees⟩

/-- An entry that succeeds leaves a frame. -/
theorem Regular.enters (h : m.Regular) (hd : Machine.deliver cause m = .ok () m')
    (hspares : ∀ pa, m.PushesTo pa → m.memory.ram.SparesTables m.regs.space pa) :
    ∃ f, m.Enters cause f m' := by
  obtain ⟨memory, hpush, -⟩ := deliver_eq_ok_iff.1 hd
  obtain ⟨_, m₁, hfirst, hsecond⟩ := bind_eq_ok_iff.1 hpush
  have hfaithful := h.agrees.faithful h.aligned h.paged .stack true
  obtain ⟨upper, hupper⟩ := hfaithful.locate_of_pushWord hfirst
  have hupper_spares := hspares upper ⟨_, List.mem_cons_self .., hupper⟩
  obtain ⟨m₁', hfirst', h₁, hstored, -⟩ := hfaithful.pushWord hupper hupper_spares m.regs.pc
  obtain rfl : m₁ = m₁' := by
    rw [hfirst] at hfirst'
    exact (EStateM.Result.ok.inj hfirst').2
  obtain ⟨lower, hlower⟩ := h₁.locate_of_pushWord hsecond
  rw [hstored.locate, show m.regs.kernelSp - 8 - 8 = m.regs.kernelSp - 16 by grind] at hlower
  have hlower_spares := hspares lower ⟨_, List.mem_cons_of_mem _ (List.mem_singleton_self _), hlower⟩
  exact ⟨⟨m.regs.kernelSp, upper, lower, m.regs.pc, m.regs.entryCode cause⟩, rfl, rfl, rfl,
    ⟨hupper, hlower, hupper_spares, hlower_spares⟩, hd⟩

/-- There is one such frame. -/
theorem Enters.eq_frame {g : StackFrame} {m'' : Machine} (h : m.Enters cause f m')
    (h' : m.Enters cause g m'') : f = g := by
  have hsp := h.sp.trans h'.sp.symm
  have hupper := h.placed.upper.symm.trans (hsp ▸ h'.placed.upper)
  have hlower := h.placed.lower.symm.trans (hsp ▸ h'.placed.lower)
  obtain ⟨⟩ := f
  obtain ⟨⟩ := g
  exact StackFrame.mk.injEq .. |>.mpr ⟨hsp, Except.ok.inj hupper, Except.ok.inj hlower,
    h.pc.trans h'.pc.symm, h.code.trans h'.code.symm⟩

/-- After an entry its frame is in memory. -/
theorem Enters.held (h : m.Enters cause f m') (hm : m.Regular) :
    m'.Regular ∧ m'.regs = m.regs.entered cause ∧
      m.memory.ram.Stored m.regs.space [f.upper, f.lower] m'.memory.ram ∧
      f.Held m.regs.space m'.memory.ram := by
  obtain ⟨memory, hpush, h₁, hstored, hheld⟩ := hm.agrees.pushFrame hm.aligned hm.paged h.placed
  rw [h.sp, h.pc, h.code] at hpush
  obtain ⟨memory', hpush', rfl⟩ := deliver_eq_ok_iff.1 h.deliver
  rw [hpush] at hpush'
  obtain ⟨-, rfl⟩ := EStateM.Result.ok.inj hpush'
  exact ⟨⟨hm.aligned, hm.paged.of_size hstored.size, h₁.invalidatePath⟩, rfl, hstored, hheld⟩

/-- A return takes the frame off the stack. -/
theorem Regular.returnFromInterrupt (hm : m.Regular) (hf : f.Held m.regs.space m.memory.ram)
    (hu : m.regs.user = false) (hsp : m.regs.sp = f.sp - 16) :
    ∃ memory, m.memory.ram.Stored m.regs.space [] memory.ram ∧ memory.Agrees m.regs.space ∧
      let resumed := { m with regs := f.resume m.regs, memory }
      Machine.returnFromInterrupt m =
        if m.regs.iena then .ok () resumed else enableInterrupts resumed := by
  have hlower := Ram.locate_load hf.lower
  obtain ⟨m₁, hresolve, h₁, hstored⟩ := Memory.Faithful.resolve_of_locate .load
    (hm.agrees.faithful hm.aligned hm.paged .stack false) hlower
  have hupper := Ram.locate_load (hf.toPlaced.of_stored hstored).upper
  obtain ⟨m₂, hresolve', h₂, hstored'⟩ := Memory.Faithful.resolve_of_locate .load h₁ hupper
  have hboth := hstored.trans hstored'
  rw [← hsp, ← hu] at hresolve
  rw [show f.sp - 8 = m.regs.sp + 8 by rw [hsp]; grind, ← hu] at hresolve'
  refine ⟨m₂.invalidatePath, hboth, h₂.invalidatePath, ?_⟩
  have hreturn := returnFromInterrupt_of_resolved hresolve hresolve'
  have hnone (a : UInt32) (b : UInt32) (hb : b ∈ ([] : List UInt32)) : Ram.Apart b a := by cases hb
  rw [hstored.word _ hf.lower_spares (hnone _), hf.code,
    hboth.word _ hf.upper_spares (hnone _), hf.pc,
    show m.regs.sp + 8 + 8 = f.sp by rw [hsp]; grind] at hreturn
  exact hreturn

/-- Where the frame of an entry has a place, the entry succeeds. -/
theorem Regular.deliver_of_placed (hm : m.Regular) (cause : Fault)
    (hf : f.Placed m.regs.space m.memory.ram) (hsp : f.sp = m.regs.kernelSp) (hpc : f.pc = m.regs.pc)
    (hcode : f.code = m.regs.entryCode cause) :
    ∃ m', m.Enters cause f m' := by
  obtain ⟨memory, hpush, -⟩ := hm.agrees.pushFrame hm.aligned hm.paged hf
  rw [hsp, hpc, hcode] at hpush
  exact ⟨_, hsp, hpc, hcode, hf, deliver_eq_ok_iff.2 ⟨memory, hpush, rfl⟩⟩

/-- So does that of an interrupt. -/
theorem Regular.raiseInterrupt_of_placed (hm : m.Regular) (cause : Fault)
    (hf : f.Placed m.regs.space m.memory.ram) (hsp : f.sp = m.regs.kernelSp) (hpc : f.pc = m.regs.pc)
    (hcode : f.code = m.regs.entryCode cause) :
    ∃ m', raiseInterrupt cause m = .ok () m' ∧ m'.memory.Agrees m.regs.space ∧
      m.memory.ram.Stored m.regs.space [f.upper, f.lower] m'.memory.ram ∧
      f.Held m.regs.space m'.memory.ram ∧
      m'.regs = { m.regs.entered cause with iena := false } ∧
      m'.journal = .interrupted cause :: m.journal := by
  obtain ⟨memory, hpush, h', hstored, hheld⟩ := hm.agrees.pushFrame hm.aligned hm.paged hf
  rw [hsp, hpc, hcode] at hpush
  exact ⟨_, raiseInterrupt_eq_ok_iff.2 ⟨memory, hpush, rfl⟩, h'.invalidatePath, hstored, hheld, rfl,
    rfl⟩

/-- A return that delivers nothing ends where the frame says, with interrupts enabled. -/
theorem Regular.returnFromInterrupt_of_returns (hm : m.Regular)
    (hf : f.Held m.regs.space m.memory.ram) (hu : m.regs.user = false) (hsp : m.regs.sp = f.sp - 16)
    (hreturns : m.Returns) :
    ∃ memory, m.memory.ram.Stored m.regs.space [] memory.ram ∧ memory.Agrees m.regs.space ∧
      Machine.returnFromInterrupt m =
        .ok () { m with regs := { f.resume m.regs with iena := true }, memory } := by
  obtain ⟨memory, hstored, hagrees, hreturn⟩ := hm.returnFromInterrupt hf hu hsp
  refine ⟨memory, hstored, hagrees, ?_⟩
  have hiena : (f.resume m.regs).iena = m.regs.iena := by rw [StackFrame.resume_eq]
  have hpending : (f.resume m.regs).ipend = m.regs.ipend := by rw [StackFrame.resume_eq]
  dsimp only at hreturn
  rw [hreturn]
  split
  · rename_i hi
    rw [← hi, ← hiena]
  · rename_i hi
    exact enableInterrupts_of_none (hpending ▸ hreturns.resolve_left hi)

/-- A return while an interrupt waits takes the frame off and puts one for the interrupt there. -/
theorem Regular.returnFromInterrupt_of_pending (hm : m.Regular)
    (hf : f.Held m.regs.space m.memory.ram) (hu : m.regs.user = false) (hsp : m.regs.sp = f.sp - 16)
    (hi : m.regs.iena = false) {next : Fault} (hn : Fault.ofPending? m.regs.ipend = some next) :
    ∃ m', Machine.returnFromInterrupt m = .ok () m' ∧ m'.memory.Agrees m.regs.space ∧
      m.memory.ram.Stored m.regs.space [f.upper, f.lower] m'.memory.ram ∧
      (f.redelivered next).Held m.regs.space m'.memory.ram ∧
      m'.regs = { m.regs with
        pc := m.regs.ivec
        ipend := m.regs.ipend &&& ~~~next.pendingBit
        trap := (f.redelivered next).code
        ssp := if f.code &&& Fault.userBit ≠ 0 then f.sp else m.regs.ssp } ∧
      m'.journal = .interrupted next :: m.journal := by
  obtain ⟨memory, hstored, hagrees, hreturn⟩ := hm.returnFromInterrupt hf hu hsp
  have hplaced : (f.redelivered next).Placed m.regs.space memory.ram :=
    { hf.toPlaced.of_stored hstored with }
  have hpc : (f.resume m.regs).pc = f.pc := by rw [StackFrame.resume_eq]
  have hspace : (f.resume m.regs).space = m.regs.space := by rw [StackFrame.resume_eq]
  have hpending : (f.resume m.regs).ipend = m.regs.ipend := by rw [StackFrame.resume_eq]
  have hkernelSp := f.kernelSp_resume hu
  have hcode := f.entryCode_resume hu next
  dsimp only at hreturn
  have hentered := f.entered_resume hu hi hsp (m.regs.ipend &&& ~~~next.pendingBit) next
  rw [hi, if_neg nofun, enableInterrupts_apply] at hreturn
  generalize f.resume m.regs = r at hreturn hpc hspace hpending hkernelSp hcode hentered
  dsimp only at hreturn
  rw [hpending, hn] at hreturn
  have hregular : Regular
      { m with regs := { r with ipend := m.regs.ipend &&& ~~~next.pendingBit }, memory } :=
    ⟨hspace ▸ hm.aligned, hm.paged.of_size hstored.size, hspace ▸ hagrees⟩
  obtain ⟨m', hraise, hagrees', hstored', hheld, hregs, hjournal⟩ :=
    hregular.raiseInterrupt_of_placed (f := f.redelivered next) next (hspace ▸ hplaced)
      hkernelSp.symm hpc.symm hcode.symm
  exact ⟨m', hreturn.trans hraise, hspace ▸ hagrees', hstored.trans (hspace ▸ hstored'),
    hspace ▸ hheld, hregs.trans hentered, hjournal⟩

end

end Machine

end PagedMachine
