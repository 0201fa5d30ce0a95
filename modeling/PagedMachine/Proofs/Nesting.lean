import PagedMachine.Proofs.StackFrames

/-!
# Entries and returns, nested

While the handler of an entry runs, more entries may come and return (`Machine.Nested`). As long as
their words are apart from the tables and from those of the frames that are still open, all open frames
stay as they were left (`Nested.serving`). So the return that ends the handler brings back what the
entry found, or enters the kernel again for an interrupt that waits. Where two pages of the stack are
the same memory, being apart from the tables is not enough: an inner entry may overwrite an open frame.
-/

set_option autoImplicit false

namespace PagedMachine

/-! ## Handlers that are interrupted -/

/-- Registers that a handler does not change, or has put back: the operands, and all that says where to
return to but the stack pointer. -/
structure Registers.SameContext (r r' : Registers) : Prop where
  a : r'.a = r.a
  b : r'.b = r.b
  c : r'.c = r.c
  f : r'.f = r.f
  g : r'.g = r.g
  user : r'.user = r.user
  usp : r'.usp = r.usp
  ssp : r'.ssp = r.ssp
  space : r'.space = r.space

namespace Machine

/-- What a handler comes to from `start` by more entries and returns, with the frames that are still
open above `outer`, the last first. What `clear` asks of two frames is asked of each new one and those
that are open. A return that delivers an interrupt is a return and an entry in one. -/
inductive Nested (clear : StackFrame → StackFrame → Prop) (outer : StackFrame) (start : Machine) :
    List StackFrame → Machine → Prop
  | start : Nested clear outer start [] start
  /-- Interrupts are masked or not, come and wait, the program counter moves. -/
  | handle {frames : List StackFrame} {m m' : Machine} : Nested clear outer start frames m →
      m'.memory = m.memory → m'.regs.sp = m.regs.sp → m.regs.SameContext m'.regs →
      Nested clear outer start frames m'
  | enter {frames : List StackFrame} {f : StackFrame} {cause : Fault} {m m' : Machine} :
      Nested clear outer start frames m → m.Enters cause f m' → (∀ g ∈ frames ++ [outer], clear f g) →
      Nested clear outer start (f :: frames) m'
  | leave {frames : List StackFrame} {f : StackFrame} {m m' : Machine} :
      Nested clear outer start (f :: frames) m → m.Returns → returnFromInterrupt m = .ok () m' →
      Nested clear outer start frames m'
  | redeliver {frames : List StackFrame} {f : StackFrame} {next : Fault} {m m' : Machine} :
      Nested clear outer start (f :: frames) m → m.regs.iena = false →
      Fault.ofPending? m.regs.ipend = some next → returnFromInterrupt m = .ok () m' →
      Nested clear outer start (f.redelivered next :: frames) m'

/-- Frames of the kernel that are stacked from `outer` down to `sp`, apart from each other. -/
def Stacked (outer : StackFrame) : (sp : UInt32) → List StackFrame → Prop
  | sp, [] => sp = outer.sp - 16
  | sp, f :: frames =>
    sp = f.sp - 16 ∧ f.code &&& Fault.userBit = 0 ∧ (∀ g ∈ frames ++ [outer], f.Apart g) ∧
      Stacked outer f.sp frames

/-- What holds while the handler of `outer` runs that began at `start`. -/
structure Serving (outer : StackFrame) (start : Machine) (frames : List StackFrame) (m : Machine) :
    Prop where
  regular : m.Regular
  kernel : m.regs.user = false
  context : start.regs.SameContext m.regs
  stacked : Stacked outer m.regs.sp frames
  held : ∀ g ∈ frames ++ [outer], g.Held m.regs.space m.memory.ram

end Machine

section
variable {r r' r'' : Registers}

theorem Registers.SameContext.refl (r : Registers) : r.SameContext r :=
  ⟨rfl, rfl, rfl, rfl, rfl, rfl, rfl, rfl, rfl⟩

theorem Registers.SameContext.trans (h : r.SameContext r') (h' : r'.SameContext r'') :
    r.SameContext r'' where
  a := h'.a.trans h.a
  b := h'.b.trans h.b
  c := h'.c.trans h.c
  f := h'.f.trans h.f
  g := h'.g.trans h.g
  user := h'.user.trans h.user
  usp := h'.usp.trans h.usp
  ssp := h'.ssp.trans h.ssp
  space := h'.space.trans h.space

/-- An entry from the kernel keeps the context. -/
theorem Registers.sameContext_entered (hu : r.user = false) (cause : Fault) :
    r.SameContext (r.entered cause) where
  a := rfl
  b := rfl
  c := rfl
  f := rfl
  g := rfl
  user := hu.symm
  usp := by rw [entered, hu]; rfl
  ssp := rfl
  space := rfl

/-- So does a return to the kernel. -/
theorem Registers.sameContext_resume {f : StackFrame} (hf : f.code &&& Fault.userBit = 0)
    (r : Registers) : r.SameContext (f.resume r) := by
  rw [StackFrame.resume_of_kernel hf]
  exact ⟨rfl, rfl, rfl, rfl, rfl, rfl, rfl, rfl, rfl⟩

end

namespace Machine

section
variable {outer f : StackFrame} {start m m' : Machine} {frames : List StackFrame} {cause next : Fault}

namespace Serving

theorem handle (h : Serving outer start frames m) (hmemory : m'.memory = m.memory)
    (hsp : m'.regs.sp = m.regs.sp) (hc : m.regs.SameContext m'.regs) :
    Serving outer start frames m' where
  regular := h.regular.of_eq hmemory hc.space
  kernel := hc.user.trans h.kernel
  context := h.context.trans hc
  stacked := by
    rw [hsp]
    exact h.stacked
  held g hg := by
    rw [hmemory, hc.space]
    exact h.held g hg

/-- An entry adds a frame, and the others stay. -/
theorem enter (h : Serving outer start frames m) (he : m.Enters cause f m')
    (hclear : ∀ g ∈ frames ++ [outer], f.Apart g) : Serving outer start (f :: frames) m' := by
  obtain ⟨hregular, hregs, hstored, hheld⟩ := he.held h.regular
  have hkernelSp : m.regs.kernelSp = m.regs.sp := by rw [Registers.kernelSp, h.kernel]; rfl
  have hcode : f.code = cause.code := by rw [he.code, Registers.entryCode, h.kernel]; rfl
  have hspace : m'.regs.space = m.regs.space := by rw [hregs]; rfl
  refine ⟨hregular, by rw [hregs]; rfl, ?_, ⟨?_, ?_, hclear, ?_⟩, fun g hg => ?_⟩
  · rw [hregs]
    exact h.context.trans (Registers.sameContext_entered h.kernel cause)
  · rw [hregs, he.sp]
    rfl
  · rw [hcode, cause.code_and_userBit]
  · rw [he.sp, hkernelSp]
    exact h.stacked
  · rw [hspace]
    rcases List.mem_cons.1 hg with rfl | hg
    · exact hheld
    · exact (h.held g hg).of_stored_frame hstored (hclear g hg)

/-- A return takes the last frame off, and the others stay. -/
theorem leave (h : Serving outer start (f :: frames) m) (hreturns : m.Returns)
    (hr : returnFromInterrupt m = .ok () m') : Serving outer start frames m' := by
  obtain ⟨hsp, hcode, -, hstacked⟩ := h.stacked
  have hf := h.held f (List.mem_cons_self ..)
  obtain ⟨memory, hstored, hagrees, hreturn⟩ :=
    h.regular.returnFromInterrupt_of_returns hf h.kernel hsp hreturns
  rw [hreturn] at hr
  obtain ⟨-, rfl⟩ := EStateM.Result.ok.inj hr
  have hc := Registers.sameContext_resume hcode m.regs
  have hsp' : (f.resume m.regs).sp = f.sp := by rw [StackFrame.resume_of_kernel hcode]
  exact
    { regular := ⟨hc.space ▸ h.regular.aligned, h.regular.paged.of_size hstored.size,
        hc.space ▸ hagrees⟩
      kernel := hc.user.trans h.kernel
      context := h.context.trans ⟨hc.a, hc.b, hc.c, hc.f, hc.g, hc.user, hc.usp, hc.ssp, hc.space⟩
      stacked := hsp'.symm ▸ hstacked
      held := fun g hg => hc.space.symm ▸
        (h.held g (List.mem_cons_of_mem _ hg)).of_stored hstored nofun nofun }

/-- A return that delivers an interrupt puts another frame in the place of the last. -/
theorem redeliver (h : Serving outer start (f :: frames) m) (hi : m.regs.iena = false)
    (hn : Fault.ofPending? m.regs.ipend = some next) (hr : returnFromInterrupt m = .ok () m') :
    Serving outer start (f.redelivered next :: frames) m' := by
  obtain ⟨hsp, hcode, hapart, hstacked⟩ := h.stacked
  have hf := h.held f (List.mem_cons_self ..)
  obtain ⟨m'', hreturn, hagrees, hstored, hheld, hregs, -⟩ :=
    h.regular.returnFromInterrupt_of_pending hf h.kernel hsp hi hn
  rw [hreturn] at hr
  obtain ⟨-, rfl⟩ := EStateM.Result.ok.inj hr
  rw [if_neg (not_not_intro hcode)] at hregs
  have hspace : m''.regs.space = m.regs.space := by rw [hregs]
  refine ⟨⟨hspace ▸ h.regular.aligned, h.regular.paged.of_size hstored.size, hspace ▸ hagrees⟩,
    by rw [hregs]; exact h.kernel, ?_, ⟨?_, ?_, ?_, hstacked⟩, fun g hg => ?_⟩
  · rw [hregs]
    exact h.context.trans ⟨rfl, rfl, rfl, rfl, rfl, rfl, rfl, rfl, rfl⟩
  · rw [hregs]
    exact hsp
  · rw [StackFrame.redelivered, if_neg (not_not_intro hcode)]
    exact next.code_and_userBit
  · exact fun g hg => ⟨(hapart g hg).1, (hapart g hg).2, (hapart g hg).3, (hapart g hg).4⟩
  · rw [hspace]
    rcases List.mem_cons.1 hg with rfl | hg
    · exact hheld
    · exact (h.held g (List.mem_cons_of_mem _ hg)).of_stored_frame hstored (hapart g hg)

end Serving

/-- While the handler runs, all open frames stay as they were left. -/
theorem Nested.serving (h : Nested StackFrame.Apart outer start frames m)
    (hstart : Serving outer start [] start) : Serving outer start frames m := by
  induction h with
  | start => exact hstart
  | handle _ hmemory hsp hc ih => exact ih.handle hmemory hsp hc
  | enter _ he hclear ih => exact ih.enter he hclear
  | leave _ hreturns hr ih => exact ih.leave hreturns hr
  | redeliver _ hi hn hr ih => exact ih.redeliver hi hn hr

end

/-! ## The return that ends the handler -/

/-- What a return brings back of the registers that an entry found. -/
structure Restores (before after : Registers) : Prop where
  pc : after.pc = before.pc
  sp : after.sp = before.sp
  user : after.user = before.user
  a : after.a = before.a
  b : after.b = before.b
  c : after.c = before.c
  f : after.f = before.f
  g : after.g = before.g
  ssp : after.ssp = before.ssp
  usp : after.usp = if before.user then before.sp else before.usp
  iena : after.iena = true

/-- How a return from `m` ends that delivers `next` from where the frame says. -/
structure Redelivers (f : StackFrame) (next : Fault) (before : Registers) (m m' : Machine) : Prop where
  pc : m'.regs.pc = m.regs.ivec
  sp : m'.regs.sp = m.regs.sp
  user : m'.regs.user = false
  iena : m'.regs.iena = false
  ipend : m'.regs.ipend = m.regs.ipend &&& ~~~next.pendingBit
  journal : m'.journal = .interrupted next :: m.journal
  /-- Where to resume is pushed again. -/
  resume : m'.memory.ram.read32 f.upper = before.pc
  code : m'.memory.ram.read32 f.lower = before.entryCode next
  /-- The bit for user mode is as it was in the code that was popped. -/
  user_code : m'.memory.ram.read32 f.lower &&& Fault.userBit ≠ 0 ↔
    m.memory.ram.read32 f.lower &&& Fault.userBit ≠ 0

/-- A return from the frame of an entry brings back what the entry found. -/
theorem Enters.restores {m m₁ : Machine} {cause : Fault} {f : StackFrame} (he : m.Enters cause f m₁)
    {r : Registers} (hc : (m.regs.entered cause).SameContext r) :
    Restores m.regs { f.resume r with iena := true } := by
  have hresume := f.resume_eq r
  simp only [he.code, he.sp, he.pc, Registers.entryCode_and_userBit] at hresume
  have husp := hc.usp
  have hssp := hc.ssp
  rw [Registers.entered] at husp hssp
  rw [hresume, Registers.kernelSp]
  cases hu : m.regs.user with
  | true =>
    rw [hu] at husp
    exact ⟨rfl, husp, hu.symm, hc.a, hc.b, hc.c, hc.f, hc.g, rfl, husp.trans (by rw [hu]), rfl⟩
  | false =>
    rw [hu] at husp
    exact ⟨rfl, rfl, hc.user.trans hu.symm, hc.a, hc.b, hc.c, hc.f, hc.g, hssp, husp.trans (by rw [hu]),
      rfl⟩

/-- A return undoes an entry that succeeds, whatever was entered and returned from in between, or
delivers an interrupt that waits from where the entry was. -/
theorem return_undoes_entry {m m₁ : Machine} {cause : Fault} (hm : m.Regular)
    (hd : deliver cause m = .ok () m₁)
    (hspares : ∀ pa, m.PushesTo pa → m.memory.ram.SparesTables m.regs.space pa) :
    ∃ f, m.Enters cause f m₁ ∧ ∀ m₂, Nested StackFrame.Apart f m₁ [] m₂ →
      (m₂.Returns → ∃ m₃, returnFromInterrupt m₂ = .ok () m₃ ∧ Restores m.regs m₃.regs) ∧
      ∀ next, m₂.regs.iena = false → Fault.ofPending? m₂.regs.ipend = some next →
        ∃ m₃, returnFromInterrupt m₂ = .ok () m₃ ∧ Redelivers f next m.regs m₂ m₃ := by
  obtain ⟨f, he⟩ := hm.enters hd hspares
  refine ⟨f, he, fun m₂ hn => ?_⟩
  obtain ⟨hregular, hregs, -, hheld⟩ := he.held hm
  have hstart : Serving f m₁ [] m₁ := by
    refine ⟨hregular, by rw [hregs]; rfl, .refl _, ?_, fun g hg => ?_⟩
    · rw [hregs, Stacked, he.sp]
      rfl
    · obtain rfl := List.mem_singleton.1 hg
      rw [hregs]
      exact hheld
  have hserving := hn.serving hstart
  have hf := hserving.held f (List.mem_cons_self ..)
  have hc := hserving.context
  rw [hregs] at hc
  refine ⟨fun hreturns => ?_, fun next hi hnext => ?_⟩
  · obtain ⟨memory, -, -, hreturn⟩ :=
      hserving.regular.returnFromInterrupt_of_returns hf hserving.kernel hserving.stacked hreturns
    exact ⟨_, hreturn, he.restores hc⟩
  · obtain ⟨m₃, hreturn, -, -, hheld₃, hregs₃, hjournal⟩ :=
      hserving.regular.returnFromInterrupt_of_pending hf hserving.kernel hserving.stacked hi hnext
    have hcode₃ : (f.redelivered next).code = m.regs.entryCode next := by
      simp only [StackFrame.redelivered, he.code, Registers.entryCode_and_userBit]
      rfl
    refine ⟨m₃, hreturn, by rw [hregs₃], by rw [hregs₃], by rw [hregs₃]; exact hserving.kernel,
      by rw [hregs₃]; exact hi, by rw [hregs₃], hjournal, ?_, ?_, ?_⟩
    · exact hheld₃.pc.trans he.pc
    · exact hheld₃.code.trans hcode₃
    · rw [show m₃.memory.ram.read32 f.lower = _ from hheld₃.code, hcode₃, hf.code, he.code,
        Registers.entryCode_and_userBit, Registers.entryCode_and_userBit]

end Machine

/-! ## A stack whose pages are one -/

/-- A directory and a table that maps the first two pages to the last. -/
def Ram.mirrored : Ram := (zeroed 12288).laid [(0, 0x1007), (0x1000, 0x2007), (0x1004, 0x2007)]

namespace Ram

theorem size_mirrored : mirrored.bytes.size = 12288 := by
  rw [mirrored, size_laid, size_zeroed]
  rfl

theorem paged_mirrored : mirrored.Paged := by
  rw [Paged, size_mirrored]

theorem entry_mirrored {addr : UInt32} (ha : addr.toNat % 4 = 0) :
    mirrored.entry addr =
      ⟨([(0, 0x1007), (0x1000, 0x2007), (0x1004, 0x2007)].lookup addr).getD 0⟩ := by
  have hlaid : ∀ word ∈ [((0 : UInt32), (0x1007 : UInt32)), (0x1000, 0x2007), (0x1004, 0x2007)],
      word.1.toNat % 4 = 0 ∧ word.1.toNat + 4 ≤ (zeroed 12288).bytes.size := by
    rw [show (zeroed 12288).bytes.size = 12288 by rw [size_zeroed]; rfl]
    simp
  rw [entry, mirrored, read32_laid hlaid ha, read32_zeroed]

/-- Both pages are the last. -/
theorem locate_mirrored {vaddr : UInt32} (h : vaddr.toNat < 0x2000) :
    mirrored.locate ⟨true, some 0⟩ vaddr .store false = .ok (0x2000 ||| pageOffset vaddr) := by
  have hsize : mirrored.size = 12288 := by
    rw [size, size_mirrored]
    rfl
  have hdir : PageEntry.directorySlot 0 vaddr = 0 := by
    refine UInt32.toNat_inj.1 ?_
    rw [PageEntry.directorySlot_toNat (by decide)]
    simp only [UInt32.reduceToNat]
    omega
  have hpde : mirrored.directoryEntry 0 vaddr = ⟨0x1007⟩ := by
    rw [directoryEntry, hdir, entry_mirrored (by decide)]
    rfl
  have hpte : mirrored.tableEntry 0 vaddr = ⟨0x2007⟩ := by
    have hslot := PageEntry.tableSlot_toNat ⟨0x1007⟩ vaddr
    rw [show (PageEntry.base ⟨0x1007⟩).toNat = 0x1000 from rfl] at hslot
    rw [tableEntry, hpde, entry_mirrored (PageEntry.tableSlot_aligned ..)]
    obtain h | h : PageEntry.tableSlot ⟨0x1007⟩ vaddr = 0x1000 ∨
        PageEntry.tableSlot ⟨0x1007⟩ vaddr = 0x1004 := by
      simp only [← UInt32.toNat_inj, hslot, UInt32.reduceToNat]
      omega
    · rw [h]
      rfl
    · rw [h]
      rfl
  have ht : mirrored.translate ⟨true, some 0⟩ vaddr .store false = .ok 0x2000 := by
    refine (translate_eq_ok_iff rfl rfl).2 ?_
    rw [hpde, hpte, hsize]
    decide
  rw [locate, ht]
  rfl

/-- The last page is not part of the tables. -/
theorem sparesTables_mirrored {a : UInt32} (h : 0x2000 ≤ a.toNat) :
    mirrored.SparesTables ⟨true, some 0⟩ a := by
  intro vaddr e he
  have hslot := PageEntry.directorySlot_toNat (show (0 : UInt32).toNat % 4096 = 0 by decide) vaddr
  have hv := vaddr.toNat_lt
  simp only [UInt32.reduceToNat] at hslot
  rw [walkSlots, if_pos rfl] at he
  dsimp only at he
  split at he
  · rename_i hpde
    rcases List.mem_cons.1 he with rfl | he
    · exact .inl (by omega)
    · -- the only entry that is present names the table behind the directory
      have hpde' : mirrored.directoryEntry 0 vaddr = ⟨0x1007⟩ := by
        have ha := PageEntry.directorySlot_aligned (show (0 : UInt32).toNat % 4 = 0 by decide) vaddr
        have hne (w : UInt32) (hw : 4096 ≤ w.toNat) : PageEntry.directorySlot 0 vaddr ≠ w := by
          rintro rfl
          omega
        rw [directoryEntry, entry_mirrored ha] at hpde ⊢
        by_cases hzero : PageEntry.directorySlot 0 vaddr = 0
        · rw [hzero]
          rfl
        · simp only [List.lookup_cons, beq_eq_false_iff_ne.2 hzero,
            beq_eq_false_iff_ne.2 (hne 0x1000 (by decide)),
            beq_eq_false_iff_ne.2 (hne 0x1004 (by decide)), List.lookup_nil] at hpde
          cases hpde
      have htable := PageEntry.tableSlot_toNat ⟨0x1007⟩ vaddr
      rw [show (PageEntry.base ⟨0x1007⟩).toNat = 0x1000 from rfl] at htable
      obtain rfl := List.mem_singleton.1 he
      rw [hpde']
      exact .inl (by omega)
  · obtain rfl := List.mem_singleton.1 he
    exact .inl (by omega)

end Ram

namespace Machine

/-- A machine in user mode, with the kernel's stack on the second page. -/
def mirrored : Machine :=
  { regs :=
      { sp := 7, pc := 12, user := true, iena := true, ivec := 64, space := ⟨true, some 0⟩
        ssp := 4112 }
    memory := ⟨.mirrored, .ofCapacity 1, .uncached⟩ }

theorem regular_mirrored : mirrored.Regular where
  aligned directory hd := by
    obtain rfl := Option.some.inj hd
    decide
  paged := Ram.paged_mirrored
  agrees := by
    refine ⟨fun page mapping h => ?_, fun slot write e h => ?_⟩
    · simp [mirrored, Tlb.ofCapacity] at h
    · cases h

end Machine

/-- The frame of the `n`-th entry on top of another. -/
def StackFrame.mirrored (n : Nat) : StackFrame :=
  { sp := .ofNat (4112 - 16 * n)
    upper := .ofNat (0x2000 + (4104 - 16 * n) % 4096)
    lower := .ofNat (0x2000 + (4096 - 16 * n) % 4096)
    pc := 64
    code := Fault.syscallTrap.code }

namespace StackFrame

variable {n k : Nat}

theorem mirrored_toNat (h : n ≤ 256) :
    (mirrored n).sp.toNat = 4112 - 16 * n ∧
      (mirrored n).upper.toNat = 0x2000 + (4104 - 16 * n) % 4096 ∧
      (mirrored n).lower.toNat = 0x2000 + (4096 - 16 * n) % 4096 := by
  have hsmall {k : Nat} (hk : k < 16384) : (UInt32.ofNat k).toNat = k :=
    UInt32.toNat_ofNat_of_lt' (Nat.lt_trans hk (by decide))
  exact ⟨hsmall (by omega), hsmall (by omega), hsmall (by omega)⟩

/-- The stack pointer of an entry is where the one before left it. -/
theorem mirrored_sp (h : n < 256) : (mirrored (n + 1)).sp = (mirrored n).sp - 16 := by
  refine UInt32.toNat_inj.1 ?_
  rw [(mirrored_toNat h).1, UInt32.toNat_sub, (mirrored_toNat (Nat.le_of_lt h)).1]
  simp only [UInt32.reduceToNat]
  omega

theorem placed_mirrored (h : n ≤ 256) : (mirrored n).Placed ⟨true, some 0⟩ .mirrored := by
  obtain ⟨hsp, hupper, hlower⟩ := mirrored_toNat h
  have hplace {vaddr pa : UInt32} (hv : vaddr.toNat < 0x2000)
      (hpa : pa.toNat = 0x2000 + vaddr.toNat % 4096) :
      Ram.mirrored.locate ⟨true, some 0⟩ vaddr .store false = .ok pa := by
    rw [Ram.locate_mirrored hv]
    have ho := pageOffset_toNat vaddr
    refine congrArg Except.ok (UInt32.toNat_inj.1 ?_)
    rw [toNat_or (by decide) (by omega), ho, hpa]
    rfl
  have hslot₈ : (alignTo8 ((mirrored n).sp - 8)).toNat = 4104 - 16 * n := by
    rw [alignTo8_toNat, UInt32.toNat_sub, hsp]
    simp only [UInt32.reduceToNat]
    omega
  have hslot₁₆ : (alignTo8 ((mirrored n).sp - 16)).toNat = 4096 - 16 * n := by
    rw [alignTo8_toNat, UInt32.toNat_sub, hsp]
    simp only [UInt32.reduceToNat]
    omega
  exact ⟨hplace (by omega) (by omega), hplace (by omega) (by omega),
    Ram.sparesTables_mirrored (by omega), Ram.sparesTables_mirrored (by omega)⟩

/-- All frames but the first have a place of their own. -/
theorem apart_mirrored (hn : n ≤ 256) (hk : k < n) (hpos : 0 < k) :
    (mirrored n).Apart (mirrored k) := by
  obtain ⟨-, hupper, hlower⟩ := mirrored_toNat hn
  obtain ⟨-, hupper', hlower'⟩ := mirrored_toNat (n := k) (by omega)
  constructor <;> unfold Ram.Apart <;> omega

/-- The frames of `n` entries. -/
def mirroredAll : Nat → List StackFrame
  | 0 => []
  | n + 1 => mirrored (n + 1) :: mirroredAll n

end StackFrame

namespace Machine

/-- A kernel with `n` entries open after the first, where the frames up to `top` are in memory. -/
structure Deep (n top : Nat) (m : Machine) : Prop where
  regular : m.Regular
  space : m.regs.space = ⟨true, some 0⟩
  sp : m.regs.sp = (StackFrame.mirrored n).sp - 16
  pc : m.regs.pc = 64
  ivec : m.regs.ivec = 64
  user : m.regs.user = false
  iena : m.regs.iena = true
  ipend : m.regs.ipend = 0
  placed : ∀ k ≤ 256, (StackFrame.mirrored k).Placed ⟨true, some 0⟩ m.memory.ram
  held : ∀ k ≤ top, 0 < k → (StackFrame.mirrored k).Held ⟨true, some 0⟩ m.memory.ram

section
variable {start m : Machine} {n : Nat}

/-- One more entry. -/
theorem Deep.enter (h : Deep n n m) (hn : n < 256) :
    ∃ m', m.Enters .syscallTrap (StackFrame.mirrored (n + 1)) m' ∧ Deep (n + 1) (n + 1) m' := by
  have hsp : (StackFrame.mirrored (n + 1)).sp = m.regs.kernelSp := by
    rw [StackFrame.mirrored_sp hn, Registers.kernelSp, h.user, ← h.sp]
    rfl
  have hcode : (StackFrame.mirrored (n + 1)).code = m.regs.entryCode .syscallTrap := by
    rw [Registers.entryCode, h.user]
    rfl
  obtain ⟨m', he⟩ := h.regular.deliver_of_placed .syscallTrap (h.space ▸ h.placed (n + 1) hn) hsp
    h.pc.symm hcode
  obtain ⟨hregular, hregs, hstored, hheld⟩ := he.held h.regular
  rw [h.space] at hstored hheld
  refine ⟨m', he, {
      regular := hregular
      space := by rw [hregs]; exact h.space
      sp := by rw [hregs, hsp]; rfl
      pc := by rw [hregs]; exact h.ivec
      ivec := by rw [hregs]; exact h.ivec
      user := by rw [hregs]; rfl
      iena := by rw [hregs]; exact h.iena
      ipend := by rw [hregs]; exact h.ipend
      placed := fun k hk => (h.placed k hk).of_stored hstored
      held := fun k hk hpos => ?_ }⟩
  rcases Nat.lt_or_eq_of_le hk with hk | rfl
  · exact (h.held k (Nat.le_of_lt_succ hk) hpos).of_stored_frame hstored
      (StackFrame.apart_mirrored hn hk hpos)
  · exact hheld

/-- One return. -/
theorem Deep.leave {top : Nat} (h : Deep (n + 1) top m) (hn : n < 256) (htop : n < top) :
    ∃ m', m.Returns ∧ returnFromInterrupt m = .ok () m' ∧ Deep n top m' := by
  obtain ⟨memory, hstored, hagrees, hreturn⟩ := h.regular.returnFromInterrupt_of_returns
    (h.space ▸ h.held (n + 1) htop n.succ_pos) h.user h.sp (.inl h.iena)
  rw [h.space] at hstored hagrees
  rw [StackFrame.resume_of_kernel Fault.syscallTrap.code_and_userBit] at hreturn
  exact ⟨_, .inl h.iena, hreturn,
    { regular := ⟨h.regular.aligned, h.regular.paged.of_size hstored.size, h.space ▸ hagrees⟩
      space := h.space
      sp := StackFrame.mirrored_sp hn
      pc := rfl
      ivec := h.ivec
      user := h.user
      iena := rfl
      ipend := h.ipend
      placed := fun k hk => (h.placed k hk).of_stored hstored
      held := fun k hk hpos => (h.held k hk hpos).of_stored hstored nofun nofun }⟩

/-- `n` entries, the last of which overlaps the first if there are 256. -/
theorem Deep.enters (h : Deep 0 0 start) (f : StackFrame) (hn : n ≤ 256) :
    ∃ m, Nested (fun _ _ => True) f start (StackFrame.mirroredAll n) m ∧ Deep n n m := by
  induction n with
  | zero => exact ⟨start, .start, h⟩
  | succ n ih =>
    obtain ⟨m, hm, hdeep⟩ := ih (Nat.le_of_lt hn)
    obtain ⟨m', he, hdeep'⟩ := hdeep.enter hn
    exact ⟨m', hm.enter he fun _ _ => trivial, hdeep'⟩

/-- As many returns. -/
theorem Deep.leaves {f : StackFrame}
    (hm : Nested (fun _ _ => True) f start (StackFrame.mirroredAll n) m) (h : Deep n 256 m)
    (hn : n ≤ 256) :
    ∃ m', Nested (fun _ _ => True) f start [] m' ∧ Deep 0 256 m' := by
  induction n generalizing m with
  | zero => exact ⟨m, hm, h⟩
  | succ n ih =>
    obtain ⟨m', hreturns, hr, hdeep⟩ := h.leave hn hn
    exact ih (hm.leave hreturns hr) hdeep (Nat.le_of_lt hn)

end

/-- The frame of the first entry. -/
def firstFrame : StackFrame :=
  { StackFrame.mirrored 0 with pc := 12, code := Fault.syscallTrap.code ||| Fault.userBit }

theorem enters_mirrored : ∃ m₁, mirrored.Enters .syscallTrap firstFrame m₁ ∧ Deep 0 0 m₁ := by
  have hplaced (k : Nat) (hk : k ≤ 256) := StackFrame.placed_mirrored hk
  have hfirst : firstFrame.Placed ⟨true, some 0⟩ .mirrored := { hplaced 0 (by decide) with }
  obtain ⟨m₁, he⟩ := regular_mirrored.deliver_of_placed .syscallTrap hfirst rfl rfl rfl
  obtain ⟨hregular, hregs, hstored, -⟩ := he.held regular_mirrored
  refine ⟨m₁, he, hregular, ?_, ?_, ?_, ?_, ?_, ?_, ?_, fun k hk => (hplaced k hk).of_stored hstored,
    fun k hk hpos => absurd hk (Nat.not_le_of_lt hpos)⟩
  all_goals
    rw [hregs]
    rfl

/-- Its words are no part of the tables. -/
theorem spares_mirrored {pa : UInt32} (h : mirrored.PushesTo pa) :
    mirrored.memory.ram.SparesTables mirrored.regs.space pa := by
  obtain ⟨vaddr, hv, hpa⟩ := h
  have hplaced := StackFrame.placed_mirrored (n := 0) (by decide)
  rcases List.mem_cons.1 hv with rfl | hv
  · obtain rfl := Except.ok.inj (hpa.symm.trans hplaced.upper)
    exact hplaced.upper_spares
  · obtain rfl := List.mem_singleton.1 hv
    obtain rfl := Except.ok.inj (hpa.symm.trans hplaced.lower)
    exact hplaced.lower_spares

/-- An entry from user mode, one from its handler, and both returns. -/
theorem return_undoes_entry_mirrored :
    mirrored.Regular ∧
      (∀ pa, mirrored.PushesTo pa → mirrored.memory.ram.SparesTables mirrored.regs.space pa) ∧
      ∃ f m₁ m₂ m₃, deliver .syscallTrap mirrored = .ok () m₁ ∧ Nested StackFrame.Apart f m₁ [] m₂ ∧
        m₂.Returns ∧ returnFromInterrupt m₂ = .ok () m₃ ∧ Restores mirrored.regs m₃.regs := by
  obtain ⟨m₁, he, hdeep⟩ := enters_mirrored
  obtain ⟨f, hf, hundoes⟩ :=
    return_undoes_entry regular_mirrored he.deliver fun _ => spares_mirrored
  obtain rfl := hf.eq_frame he
  obtain ⟨m, hinner, hdeep⟩ := hdeep.enter (by decide)
  obtain ⟨m₂, hreturns, hr, hdeep⟩ := hdeep.leave (by decide) (by decide)
  have hapart : ∀ g ∈ [firstFrame], (StackFrame.mirrored 1).Apart g := by
    intro g hg
    obtain rfl := List.mem_singleton.1 hg
    constructor <;> unfold Ram.Apart <;> decide
  have hnested := (Nested.start.enter hinner hapart).leave hreturns hr
  obtain ⟨m₃, hr₃, hrestores⟩ := (hundoes m₂ hnested).1 (.inl hdeep.iena)
  exact ⟨regular_mirrored, fun _ => spares_mirrored, _, m₁, m₂, m₃, he.deliver, hnested,
    .inl hdeep.iena, hr₃, hrestores⟩

/-- Where two pages of the stack are the same memory, the 256th entry from the handler overwrites the
frame of the first, and its return does not go back. -/
theorem not_return_undoes_entry_mirrored :
    mirrored.Regular ∧
      (∀ pa, mirrored.PushesTo pa → mirrored.memory.ram.SparesTables mirrored.regs.space pa) ∧
      ∃ f m₁ m₂ m₃, mirrored.Enters .syscallTrap f m₁ ∧ Nested (fun _ _ => True) f m₁ [] m₂ ∧
        m₂.regs.ipend = 0 ∧ returnFromInterrupt m₂ = .ok () m₃ ∧
        m₃.regs.pc ≠ mirrored.regs.pc ∧ m₃.regs.user ≠ mirrored.regs.user := by
  obtain ⟨m₁, he, hdeep⟩ := enters_mirrored
  obtain ⟨m, hm, hdeep⟩ := hdeep.enters firstFrame (Nat.le_refl 256)
  obtain ⟨m₂, hm₂, hdeep⟩ := hdeep.leaves hm (Nat.le_refl 256)
  -- the last frame is where the first was
  obtain ⟨-, hupper, hlower⟩ := StackFrame.mirrored_toNat (n := 0) (by decide)
  obtain ⟨hplaced, hpc, hcode⟩ := hdeep.held 256 (Nat.le_refl 256) (by decide)
  obtain ⟨-, hupper', hlower'⟩ := StackFrame.mirrored_toNat (n := 256) (by decide)
  rw [UInt32.toNat_inj.1 (hupper'.trans hupper.symm)] at hpc
  rw [UInt32.toNat_inj.1 (hlower'.trans hlower.symm)] at hcode
  have hfirst : (StackFrame.mirrored 0).Held ⟨true, some 0⟩ m₂.memory.ram :=
    { hdeep.placed 0 (by decide) with pc := hpc, code := hcode }
  obtain ⟨memory, -, -, hreturn⟩ := hdeep.regular.returnFromInterrupt_of_returns
    (hdeep.space ▸ hfirst) hdeep.user hdeep.sp (.inl hdeep.iena)
  rw [StackFrame.resume_of_kernel Fault.syscallTrap.code_and_userBit] at hreturn
  refine ⟨regular_mirrored, fun _ => spares_mirrored, _, m₁, m₂, _, he, hm₂, hdeep.ipend, hreturn,
    ?_, ?_⟩
  · exact (by decide : (StackFrame.mirrored 0).pc ≠ mirrored.regs.pc)
  · dsimp only
    rw [hdeep.user]
    decide

end Machine

end PagedMachine
