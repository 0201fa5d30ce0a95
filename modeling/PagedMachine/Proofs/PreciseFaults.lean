import PagedMachine.Proofs.Unpaged
import PagedMachine.Proofs.Untouched
import PagedMachine.Step.Lemmas

/-!
# Precise faults

An instruction that stops with a fault leaves the machine as it was where the instruction `Begun`: at
its start or, in a block operation, after some whole chunks. All that is not `Spared` are marks of the
walks in page tables. When the fault is delivered, the frame on the kernel's stack names the
instruction and the cause (`fault_precise`).
-/

set_option autoImplicit false

namespace PagedMachine

/-- Bytes that are counted as stored when `n` bytes of a block operation are done. -/
def BlockOp.counted (op : BlockOp) (n : UInt32) : Nat :=
  match op with
  | .copy | .fill => n.toNat
  | .compare | .scan => 0

namespace Machine

/-! ## Between two chunks -/

/-- A chunk that decides nothing changes the operands, memory and the count of bytes stored. -/
theorem chunk_eq_ok {op : BlockOp} {m m' : Machine} (h : chunk op m = .ok false m') :
    ∃ memory, m' = { m with
      regs := op.rest m.regs, memory
      blockBytes := m.blockBytes + op.counted (op.length m.regs) } := by
  have hu := (quiet_operands op m.regs).untouched m
  rw [chunk_apply] at h
  cases ho : operands op m.regs m with
  | error fault m₁ =>
    rw [ho] at h
    cases h
  | ok pas m₁ =>
    rw [ho] at h hu
    obtain ⟨memory, -, rfl⟩ := hu
    dsimp only at h
    split at h
    · obtain ⟨hd, rfl⟩ := EStateM.Result.ok.inj h
      cases op with
      | copy | fill => exact ⟨_, rfl⟩
      | compare =>
        rw [effect] at hd ⊢
        simp only [compared] at hd ⊢
        split at hd
        · cases hd
        · exact ⟨memory, rfl⟩
      | scan =>
        rw [effect] at hd ⊢
        simp only [scanned] at hd ⊢
        split at hd
        · cases hd
        · exact ⟨memory, rfl⟩
    · cases h

/-- `m'` is `m` with the first `n` bytes of a block operation done. -/
structure Advanced (op : BlockOp) (n : UInt32) (m m' : Machine) : Prop where
  le : n ≤ m.regs.c
  regs : m'.regs = op.advance n m.regs
  timer : m'.timer = m.timer
  bridge : m'.bridge = m.bridge
  ipc : m'.ipc = m.ipc
  blockBytes : m'.blockBytes = m.blockBytes + op.counted n
  journal : m'.journal = m.journal

theorem Commits.advanced {op : BlockOp} {m m' : Machine} (h : Commits (.block op) m m') :
    ∃ n, Advanced op n m m' := by
  generalize hop : Operation.block op = operation at h
  induction h with
  | refl m =>
    refine ⟨0, UInt32.zero_le, (op.advance_zero _).symm, rfl, rfl, rfl, ?_, rfl⟩
    cases op <;> rfl
  | chunk hb hc hr _ ih =>
    obtain rfl := Operation.block.inj (hop.trans hb)
    obtain ⟨n, ih⟩ := ih
    obtain ⟨memory, rfl⟩ := chunk_eq_ok hr
    obtain ⟨hle, hsum⟩ := op.length_add ih.le
    refine ⟨op.length _ + n, hle, ?_, ih.timer, ih.bridge, ih.ipc, ?_, ih.journal⟩
    · rw [ih.regs, BlockOp.rest, op.advance_advance]
    · rw [ih.blockBytes, Nat.add_assoc]
      cases op <;> simp only [BlockOp.counted, hsum]

/-! ## Instructions that stop with a fault -/

/-- Whether the next instruction moves bytes of an open socket. -/
def Transfers (m : Machine) : Prop :=
  m.regs.user = false ∧
    (m.next? = some (.network .receive) ∨ m.next? = some (.network .send)) ∧
    m.bridge.sockets.owned? m.regs.a ≠ none

/-- From where the next instruction is run again: where it starts or, if it is a block operation,
after whole chunks of it. -/
inductive Begun (m : Machine) : Machine → Prop
  | start : Begun m m
  | chunks {i : Instruction} {op : BlockOp} {n : UInt32} {m₁ m' : Machine} :
      fetch m = .ok i m₁ → i.operation? = some (.block op) → Commits (.block op) m₁ m' →
      Advanced op n m₁ m' → Begun m m'

/-- What a fault leaves as it was: the whole machine, but for the program counter, the instruction at
hand, the caches and accessed and dirty bits of the entries that were walked. -/
structure Spared (m m' : Machine) : Prop where
  regs : { m'.regs with pc := m.regs.pc } = m.regs
  timer : m'.timer = m.timer
  bridge : m'.bridge = m.bridge
  blockBytes : m'.blockBytes = m.blockBytes
  journal : m'.journal = m.journal
  ram : ∃ visits, m'.memory.ram = m.memory.ram.walked m.regs.space m.regs.user visits ∧
    m'.memory.tlb.misses = m.memory.tlb.misses + visits.length ∧
    m.memory.ram.Marked (m.memory.ram.visited m.regs.space m.regs.user visits) m'.memory.ram

theorem Spared.of_consulted {m : Machine} {memory : Memory}
    (h : m.memory.Consulted m.regs.space m.regs.user memory) (pc ipc : UInt32) (ir : Instruction) :
    m.Spared { m with regs := { m.regs with pc }, memory, ipc, ir } := by
  obtain ⟨visits, hram, hmiss⟩ := h
  refine ⟨rfl, rfl, rfl, rfl, rfl, visits, hram, hmiss, ?_⟩
  rw [hram]
  exact Ram.marked_walked _ _ _ _

theorem Untouched.spared {m m' : Machine} (h : m.Untouched m') : m.Spared m' := by
  obtain ⟨memory, hc, rfl⟩ := h
  exact .of_consulted hc m.regs.pc m.ipc m.ir

/-- The machine where an instruction stopped with a fault. -/
structure Faulted (cause : Fault) (m m' : Machine) : Prop where
  spared : ∃ start, Begun m start ∧ Spared start m'
  operands : ∃ a b c pc, m'.regs = { m.regs with a, b, c, pc }
  ipc : m'.ipc = m.regs.pc
  /-- Only a fetch stops before the program counter has moved on. -/
  pc : m'.regs.pc = m.regs.pc + 4 ∨ cause.restarts = true

section
variable {m m₁ m' : Machine} {i : Instruction} {op : Operation} {cause : Fault}

/-- What stops before anything else happened is run again as a whole. -/
theorem Faulted.of_fetched (hfetch : fetch m = .ok i m₁) (hu : m₁.Untouched m') :
    Faulted cause m m' := by
  obtain ⟨-, memory, hc, rfl⟩ := fetch_eq_ok hfetch
  obtain ⟨memory', hc', rfl⟩ := hu
  exact ⟨⟨m, .start, .of_consulted (hc.trans hc') ..⟩, ⟨_, _, _, _, rfl⟩, rfl, .inl rfl⟩

theorem Faulted.of_commits (hfetch : fetch m = .ok i m₁) (hop : i.operation? = some op)
    {start : Machine} (hstart : Commits op m₁ start) (hu : start.Untouched m') :
    Faulted cause m m' := by
  cases hstart with
  | refl => exact .of_fetched hfetch hu
  | @chunk b _ m₂ _ hb hc hr hrest =>
    subst hb
    have hcommits : Commits (.block b) m₁ start := .chunk rfl hc hr hrest
    obtain ⟨n, hadv⟩ := hcommits.advanced
    have hspared := hu.spared
    obtain ⟨memory', -, rfl⟩ := hu
    obtain ⟨-, memory, -, rfl⟩ := fetch_eq_ok hfetch
    refine ⟨⟨start, .chunks hfetch hop hcommits hadv, hspared⟩, ?_, hadv.ipc, .inl ?_⟩
    · dsimp only
      rw [hadv.regs]
      cases b <;> exact ⟨_, _, _, _, rfl⟩
    · dsimp only
      rw [hadv.regs]
      cases b <;> rfl

/-- An instruction that stops with a fault has done nothing but whole chunks. -/
theorem faulted_of_executeNext (h : executeNext m = .error (.fault cause) m')
    (ht : ¬Transfers m) : Faulted cause m m' := by
  rcases executeNext_eq_error h with
    hfetch | ⟨i, hfetch, -⟩ | ⟨i, op, m₁, hfetch, hop, hmode, hexecute⟩
  · rcases fetch_eq_error hfetch with ⟨hstop, -⟩ | ⟨cause', memory, hstop, hv, hc, rfl⟩
    · cases hstop
    · obtain rfl := Stop.fault.inj hstop
      refine ⟨⟨m, .start, .of_consulted hc ..⟩, ⟨_, _, _, _, rfl⟩, rfl, .inr ?_⟩
      rw [Fault.restarts, hv]
      rfl
  · exact .of_fetched hfetch (.refl m')
  rcases execute_eq_error hexecute with ⟨-, hidle⟩ | hperform
  · rcases idle_eq_error hidle with ⟨-, -, rfl⟩ | ⟨-, hstop | hstop⟩
    · exact .of_fetched hfetch (.refl m')
    · cases hstop
    · cases hstop
  · have hfd : op = .network .receive ∨ op = .network .send →
        m₁.bridge.sockets.owned? m₁.regs.a = none := by
      intro hnet
      obtain ⟨-, memory, -, rfl⟩ := fetch_eq_ok hfetch
      have hkernel : m.regs.user = false := by
        refine Bool.eq_false_iff.2 fun hu => ?_
        rcases hnet with rfl | rfl <;> cases hmode hu
      refine Classical.byContradiction fun howned => ht ⟨hkernel, ?_, howned⟩
      rw [hop]
      exact hnet.imp (congrArg some) (congrArg some)
    rcases stopsAt_perform hperform hfd with ⟨-, start, hstart, hu⟩ | ⟨-, hstop⟩
    · exact .of_commits hfetch ((next?_of_fetch hfetch).symm.trans hop) hstart hu
    · cases hstop

/-- A fault that blames the instruction, as it enters the kernel. -/
theorem Faulted.raised (h : Faulted cause m m') (hi : m.regs.iena = true)
    (hf : m'.memory.FramesAligned) {upper lower : UInt32}
    (hframe : m'.memory.TakesFrame m.regs.space m.regs.kernelSp upper lower) :
    ∃ m₃, raiseException cause m' = .ok () m₃ ∧
      m₃.memory.ram.read32 upper = (if cause.restarts then m.regs.pc else m.regs.pc + 4) ∧
      m₃.memory.ram.read32 lower = m.regs.entryCode cause ∧
      m₃.regs.vadr = cause.vaddr?.getD m.regs.vadr := by
  obtain ⟨a, b, c, pc, hregs⟩ := h.operands
  have hkernel : m'.regs.kernelSp = m.regs.kernelSp := by rw [hregs]; rfl
  have hcode : m'.regs.entryCode cause = m.regs.entryCode cause := by rw [hregs]; rfl
  obtain ⟨memory, hraise, hupper, hlower⟩ :=
    raiseException_of_takesFrame cause (by rwa [hregs]) hf
      (by rwa [hkernel, show m'.regs.space = m.regs.space by rw [hregs]])
  refine ⟨_, hraise, ?_, hlower.trans hcode, ?_⟩
  · rw [hupper, Registers.blame, h.ipc]
    rcases h.pc with hpc | hrestarts
    · rw [hpc]
    · rw [if_pos hrestarts, if_pos hrestarts]
  · show cause.vaddr?.getD m'.regs.vadr = _
    rw [hregs]

end

end Machine

open Machine

/-- Faults are precise. An instruction that stops with one, other than a transfer of an open socket,
leaves the machine as it was, after whole chunks if it is a block operation. Where interrupts are
enabled and the kernel's stack is accessible, the step that delivers the fault leaves there where to
resume, which is the instruction itself if the fault is one of an address, and below it the code. -/
theorem fault_precise {m m' : Machine} {cause : Fault}
    (h : executeNext m = .error (.fault cause) m') (ht : ¬Transfers m) :
    (∃ start, Begun m start ∧ Spared start m') ∧
      ∀ m₀ upper lower, tick m₀ = .ok none m → m.regs.iena = true → m.memory.FramesAligned →
        m'.memory.TakesFrame m.regs.space m.regs.kernelSp upper lower →
        ∃ m₃, step m₀ = .ok .go m₃ ∧
          m₃.memory.ram.read32 upper = (if cause.restarts then m.regs.pc else m.regs.pc + 4) ∧
          m₃.memory.ram.read32 lower =
            (if m.regs.user then cause.code ||| Fault.userBit else cause.code) ∧
          m₃.regs.vadr = cause.vaddr?.getD m.regs.vadr := by
  have hfault := faulted_of_executeNext h ht
  refine ⟨hfault.spared, fun m₀ upper lower htick hi hf hframe => ?_⟩
  have hf' : m'.memory.FramesAligned := by
    have hkept := closed_framesAligned.executeNext m hf
    rwa [h] at hkept
  obtain ⟨m₃, hraise, hupper, hlower, hvadr⟩ := hfault.raised hi hf' hframe
  refine ⟨m₃, ?_, hupper, hlower, hvadr⟩
  rw [step_of_tick htick]
  simp only [executeGuarded, h, hraise]

/-- User mode about to call the kernel. -/
def Machine.trapping : Machine :=
  { regs := { ssp := 8192, user := true, iena := true }
    memory :=
      { ram := (Ram.zeroed 8192).write32 0 0xa9, tlb := .ofCapacity 1, path := .make true } }

theorem fault_precise_trapping :
    ∃ m m' m₃, tick .trapping = .ok none m ∧ executeNext m = .error (.fault .syscallTrap) m' ∧
      (∃ start, Begun m start ∧ Spared start m') ∧ step .trapping = .ok .go m₃ ∧
      m₃.memory.ram.read32 8184 = 4 ∧ m₃.memory.ram.read32 8176 = 21 ∧ m₃.regs.vadr = 0 := by
  let m := Machine.trapping.counted
  have hsize : m.memory.ram.bytes.size = 8192 := by
    show ((Ram.zeroed 8192).write32 0 0xa9).bytes.size = 8192
    rw [Ram.size_write32, Ram.size_zeroed]
    decide
  have hsize32 : m.memory.ram.size = 8192 := by
    rw [Ram.size, hsize]
    rfl
  have hdirect : m.memory.Direct := .fresh _ _ 1 true
  have htick : tick .trapping = .ok none m := tick_of_not_due (by decide)
  obtain ⟨memory, hmemory, hram, hfetch⟩ := fetch_of_direct hdirect rfl (by decide)
    (by rw [hsize32]; decide)
  have hword : m.memory.ram.read32 m.regs.pc = 0xa9 := by
    refine Ram.read32_write32 (Ram.holds_iff.2 ?_) _
    rw [Ram.size_zeroed]
    decide
  rw [hword] at hfetch
  have hop : (Instruction.mk 0xa9).operation? = some .trap := by decide +kernel
  have hnext : ∃ m', executeNext m = .error (.fault .syscallTrap) m' ∧ m'.memory = memory := by
    rw [executeNext, bind_apply, hfetch]
    dsimp only
    rw [bind_apply, decode_apply hop]
    exact ⟨_, rfl, rfl⟩
  obtain ⟨m', hnext, rfl⟩ := hnext
  have ht : ¬Transfers m := fun ht => Bool.noConfusion ht.1
  obtain ⟨hspared, hdelivered⟩ := fault_precise hnext ht
  have hframe : m'.memory.TakesFrame {} 8192 (alignTo8 (8192 - 8)) (alignTo8 (8192 - 8 - 8)) := by
    have hholds (addr : UInt32) (h : addr.toNat + 4 ≤ 8192) : m'.memory.ram.holds addr 4 = true := by
      rwa [hram, Ram.holds_iff, hsize]
    refine hmemory.takesFrame rfl ?_ (hholds _ (by decide)) (hholds _ (by decide))
    rw [hram, hsize32, hsize]
    rfl
  obtain ⟨m₃, hstep, hupper, hlower, hvadr⟩ := hdelivered .trapping 8184 8176 htick rfl
    (.fresh _ _ 1 true) hframe
  exact ⟨m, m', m₃, htick, hnext, hspared, hstep, hupper, hlower, hvadr⟩

end PagedMachine
