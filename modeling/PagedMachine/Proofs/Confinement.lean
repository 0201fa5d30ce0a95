import PagedMachine.Proofs.Interrupts

/-!
# User mode is confined

A step of user mode stays in user mode and leaves what belongs to the kernel and to the host
(`Confined`), or it enters the kernel where the vector says (`EnteredFrom`). A step is a turn of the
devices, which shows in nothing or interrupts (`turn_of_tick`), and after a quiet turn an instruction,
which completes or whose fault enters the kernel (`Polled.executed`).
-/

set_option autoImplicit false

namespace PagedMachine

namespace Machine

/-! ## The devices in between -/

/-- `m'` is `m` after a turn of the devices that interrupted nothing. -/
structure Polled (m m' : Machine) : Prop where
  regs : ∃ cycle, m'.regs = { m.regs with cycle }
  timeout : m'.timer.timeout = m.timer.timeout
  output : m'.bridge.console.output = m.bridge.console.output
  sockets : m'.bridge.sockets = m.bridge.sockets

section
variable {m m' m₁ : Machine}

theorem Polled.trans (h : Polled m m₁) (h' : Polled m₁ m') : Polled m m' := by
  obtain ⟨cycle, hregs⟩ := h.regs
  obtain ⟨cycle', hregs'⟩ := h'.regs
  refine ⟨⟨cycle', ?_⟩, h'.timeout.trans h.timeout, h'.output.trans h.output,
    h'.sockets.trans h.sockets⟩
  rw [hregs', hregs]

/-- What a turn of the devices comes to where interrupts are enabled: nothing that shows, or an
interrupt, which ends the step. -/
inductive Turn (m : Machine) : Option Flow → Machine → Prop
  | quiet {flow : Option Flow} {m' : Machine} : Polled m m' →
      m'.bridge.latch = m.bridge.latch → Turn m flow m'
  | interrupted {cause : Fault} {m₁ m' : Machine} : Polled m m₁ →
      raiseInterrupt cause m₁ = .ok () m' → Turn m (some .go) m'

theorem Turn.after {flow : Option Flow} (hp : Polled m m₁)
    (hl : m₁.bridge.latch = m.bridge.latch) (h : Turn m₁ flow m') : Turn m flow m' := by
  cases h with
  | quiet hp' hl' => exact .quiet (hp.trans hp') (hl'.trans hl)
  | interrupted hp' hr => exact .interrupted (hp.trans hp') hr

theorem Polled.iena (h : Polled m m') : m'.regs.iena = m.regs.iena := by
  obtain ⟨cycle, hregs⟩ := h.regs
  rw [hregs]

theorem Polled.user (h : Polled m m') : m'.regs.user = m.regs.user := by
  obtain ⟨cycle, hregs⟩ := h.regs
  rw [hregs]

/-- What user mode leaves as it is: the privileged registers, the timeout and the host's devices. -/
structure Confined (m m' : Machine) : Prop where
  iena : m'.regs.iena = m.regs.iena
  ipend : m'.regs.ipend = m.regs.ipend
  trap : m'.regs.trap = m.regs.trap
  ivec : m'.regs.ivec = m.regs.ivec
  vadr : m'.regs.vadr = m.regs.vadr
  space : m'.regs.space = m.regs.space
  usp : m'.regs.usp = m.regs.usp
  ssp : m'.regs.ssp = m.regs.ssp
  timeout : m'.timer.timeout = m.timer.timeout
  latch : m'.bridge.latch = m.bridge.latch
  output : m'.bridge.console.output = m.bridge.console.output
  sockets : m'.bridge.sockets = m.bridge.sockets

/-- The kernel was entered from user mode, and found what it left there. -/
structure EnteredFrom (m m' : Machine) : Prop where
  pc : m'.regs.pc = m.regs.ivec
  usp : m'.regs.usp = m.regs.sp
  sp : m'.regs.sp = m.regs.ssp - 16
  ssp : m'.regs.ssp = m.regs.ssp
  ivec : m'.regs.ivec = m.regs.ivec
  space : m'.regs.space = m.regs.space
  timeout : m'.timer.timeout = m.timer.timeout
  output : m'.bridge.console.output = m.bridge.console.output
  sockets : m'.bridge.sockets = m.bridge.sockets
  /-- The code, which was stored last, says that user mode ran. -/
  code : m'.regs.trap &&& Fault.userBit ≠ 0 ∧ ∃ pa before after,
    Memory.resolve m.regs.space .stack (alignTo8 m'.regs.sp) .store false before = .ok pa after ∧
      m'.memory = (after.mapRam (·.write32 pa m'.regs.trap)).invalidatePath

theorem Confined.trans (h : Confined m m₁) (h' : Confined m₁ m') : Confined m m' :=
  ⟨h'.iena.trans h.iena, h'.ipend.trans h.ipend, h'.trap.trans h.trap, h'.ivec.trans h.ivec,
    h'.vadr.trans h.vadr, h'.space.trans h.space, h'.usp.trans h.usp, h'.ssp.trans h.ssp,
    h'.timeout.trans h.timeout, h'.latch.trans h.latch, h'.output.trans h.output,
    h'.sockets.trans h.sockets⟩

theorem Polled.confined (h : Polled m m') (hl : m'.bridge.latch = m.bridge.latch) :
    Confined m m' := by
  obtain ⟨⟨cycle, hregs⟩, htimeout, houtput, hsockets⟩ := h
  constructor
  case timeout => exact htimeout
  case latch => exact hl
  case output => exact houtput
  case sockets => exact hsockets
  all_goals rw [hregs]

theorem confined_of_privileged (h : m'.privileged = m.privileged) : Confined m m' := by
  obtain ⟨a, b, c, f, g, sp, pc, memory, ipc, ir, blockBytes, rfl⟩ := eq_of_privileged h
  constructor <;> rfl

/-- An entry to the kernel for `cause` with the registers `r`, which are still those of `m`. -/
theorem EnteredFrom.of_entry {r : Registers} {cause : Fault} {pc : UInt32} {before after : Memory}
    (hu : r.user = true)
    (hr : r.sp = m.regs.sp ∧ r.ssp = m.regs.ssp ∧ r.ivec = m.regs.ivec ∧ r.space = m.regs.space)
    (hdevices : m'.timer.timeout = m.timer.timeout ∧
      m'.bridge.console.output = m.bridge.console.output ∧ m'.bridge.sockets = m.bridge.sockets)
    (hpush : Memory.pushFrame r.space r.kernelSp pc (r.entryCode cause) before = .ok () after)
    (hregs : ∃ iena, m'.regs = { r.entered cause with iena })
    (hmemory : m'.memory = after.invalidatePath) : EnteredFrom m m' := by
  obtain ⟨hsp, hssp, hivec, hspace⟩ := hr
  obtain ⟨iena, hregs⟩ := hregs
  have hkernel : r.kernelSp = m.regs.ssp := by rw [Registers.kernelSp, if_pos hu, hssp]
  have hcode : r.entryCode cause = cause.code ||| Fault.userBit := by
    rw [Registers.entryCode, if_pos hu]
  have hentered : r.entered cause =
      { r with
        usp := r.sp
        sp := r.ssp - 16
        user := false
        trap := cause.code ||| Fault.userBit
        pc := r.ivec } := by
    rw [Registers.entered, hkernel, hcode, if_pos hu, hssp]
  obtain ⟨pa, mid, after', hresolve, rfl⟩ := Memory.pushFrame_eq_ok hpush
  rw [hkernel, hspace] at hresolve
  rw [hcode] at hmemory
  rw [hentered] at hregs
  refine ⟨?_, ?_, ?_, ?_, ?_, ?_, hdevices.1, hdevices.2.1, hdevices.2.2, ?_, pa, mid, after', ?_, ?_⟩
  · rw [hregs, ← hivec]
  · rw [hregs, ← hsp]
  · rw [hregs, ← hssp]
  · rw [hregs, ← hssp]
  · rw [hregs, ← hivec]
  · rw [hregs, ← hspace]
  · rw [hregs]
    cases cause <;> simp only [Fault.code] <;> decide
  · rw [hregs, hssp]
    exact hresolve
  · rw [hregs]
    exact hmemory

/-- An interrupt that comes before an instruction of user mode. -/
theorem Polled.entered {cause : Fault} (hu : m.regs.user = true) (h : Polled m m₁)
    (hraise : raiseInterrupt cause m₁ = .ok () m') : EnteredFrom m m' := by
  obtain ⟨⟨cycle, hregs⟩, htimeout, houtput, hsockets⟩ := h
  obtain ⟨after, hpush, rfl⟩ := raiseInterrupt_eq_ok_iff.1 hraise
  have hr : m₁.regs.user = true ∧ m₁.regs.sp = m.regs.sp ∧ m₁.regs.ssp = m.regs.ssp ∧
      m₁.regs.ivec = m.regs.ivec ∧ m₁.regs.space = m.regs.space := by
    rw [hregs]
    exact ⟨hu, rfl, rfl, rfl, rfl⟩
  exact .of_entry hr.1 hr.2 ⟨htimeout, houtput, hsockets⟩ hpush ⟨false, rfl⟩ rfl

/-- A fault of user mode that is delivered, after a turn of the devices. -/
theorem Polled.faulted {m₂ : Machine} {cause : Fault} (hu : m.regs.user = true) (h : Polled m m₁)
    (hnext : executeNext m₁ = .error (.fault cause) m₂)
    (hraise : raiseException cause m₂ = .ok () m') : EnteredFrom m m' := by
  obtain ⟨⟨cycle, hregs⟩, htimeout, houtput, hsockets⟩ := h
  have hu₁ : m₁.regs.user = true := by rwa [hregs]
  have hkept : m₂.privileged = m₁.privileged := by
    have hkept := shielded_privileged.executeNext_user hu₁
    rwa [hnext, stateOf_error] at hkept
  have htimer : m₂.timer = m₁.timer := congrArg (·.2.1) hkept
  have hbridge : m₂.bridge = m₁.bridge := congrArg (·.2.2.1) hkept
  obtain ⟨a, b, c, pc, hregs₂⟩ := (faulted_of_executeNext hnext (not_transfers hu₁)).operands
  obtain ⟨hiena, hdeliver⟩ := raiseException_eq_ok_iff.1 hraise
  obtain ⟨after, hpush, rfl⟩ := deliver_eq_ok_iff.1 hdeliver
  have hr : m₂.regs.user = true ∧ m₂.regs.sp = m.regs.sp ∧ m₂.regs.ssp = m.regs.ssp ∧
      m₂.regs.ivec = m.regs.ivec ∧ m₂.regs.space = m.regs.space := by
    rw [hregs₂, hregs]
    exact ⟨hu, rfl, rfl, rfl, rfl⟩
  refine .of_entry (r := m₂.regs.blame cause m₂.ipc) hr.1 hr.2 ⟨?_, ?_, ?_⟩ hpush ⟨_, rfl⟩ rfl
  · exact (congrArg Timer.timeout htimer).trans htimeout
  · exact (congrArg (·.console.output) hbridge).trans houtput
  · exact (congrArg Bridge.sockets hbridge).trans hsockets

/-- An instruction of user mode, after a turn of the devices. -/
theorem Polled.executed {flow : Flow} (hu : m.regs.user = true) (h : Polled m m₁)
    (hl : m₁.bridge.latch = m.bridge.latch) (hexecute : executeGuarded m₁ = .ok flow m') :
    m'.regs.user = true ∧ Confined m m' ∨
      m'.regs.user = false ∧ flow = .go ∧ EnteredFrom m m' := by
  have hu₁ : m₁.regs.user = true := h.user.trans hu
  rw [executeGuarded] at hexecute
  cases hnext : executeNext m₁ with
  | ok flow' m₂ =>
    have hkept : m₂.privileged = m₁.privileged := by
      have hkept := shielded_privileged.executeNext_user hu₁
      rwa [hnext, stateOf_ok] at hkept
    rw [hnext] at hexecute
    obtain ⟨-, rfl⟩ := EStateM.Result.ok.inj hexecute
    refine .inl ⟨?_, (h.confined hl).trans (confined_of_privileged hkept)⟩
    obtain ⟨-, -, -, -, -, -, -, -, -, -, -, rfl⟩ := eq_of_privileged hkept
    exact hu₁
  | error stop m₂ =>
    rw [hnext] at hexecute
    cases stop with
    | fatal reason => cases hexecute
    | fault cause =>
      dsimp only at hexecute
      cases hraise : raiseException cause m₂ with
      | error reason m₃ =>
        rw [hraise] at hexecute
        cases hexecute
      | ok u m₃ =>
        rw [hraise] at hexecute
        obtain ⟨rfl, rfl⟩ := EStateM.Result.ok.inj hexecute
        refine .inr ⟨?_, rfl, h.faulted hu hnext hraise⟩
        obtain ⟨-, hdeliver⟩ := raiseException_eq_ok_iff.1 hraise
        obtain ⟨memory, -, rfl⟩ := deliver_eq_ok_iff.1 hdeliver
        rfl

end

end Machine

open Machine

end PagedMachine
