import PagedMachine.Proofs.Interrupts
import PagedMachine.Proofs.OnePage

/-!
# A program that owns its page table

Where the buffer has room for one page, what is cached after an access is known (`Memory.resolve_held`
and its like). Words that are laid out in memory are read back (`Ram.read32_laid`). So a short run can
be followed word by word: that of a kernel which turns paging on and starts a program that may write to
its own page table (`Ram.Hosts.run`).
-/

set_option autoImplicit false

namespace PagedMachine

/-! ## The program -/

/-- A directory with one table, which maps itself and the page with the program, all open to user
mode. The kernel at 0x2000 sets the directory and the operands of a copy, turns paging on and returns
to user mode, which copies from the end of its page to where the table maps the page at 0x3000. The
word `load` has the number of bytes. -/
def Ram.tenantWords (load : UInt32) : List (UInt32 × UInt32) :=
  [(0, 0x1067), (0x1004, 0x1067), (0x1008, 0x2067), (0x2000, 165), (0x2004, load), (0x2008, 173),
    (0x200c, 0x100c23), (0x2010, 0x2ffc3b), (0x2014, 166), (0x2018, 152), (0x201c, 10), (0x2f00, 16),
    (0x2f08, 0x201c), (0x2ffc, 0x3067)]

/-- Memory with these words and, in the last page, a key of the kernel. -/
def Ram.tenant (load key : UInt32) : Ram :=
  ((zeroed 16384).laid (tenantWords load)).write32 0x3000 key

/-- Whether these are the words below the last page. -/
structure Ram.Hosts (load : UInt32) (r : Ram) : Prop where
  size : r.bytes.size = 16384
  word : ∀ addr : UInt32, addr.toNat % 4 = 0 → addr.toNat < 0x3000 →
    r.read32 addr = ((tenantWords load).lookup addr).getD 0

theorem Ram.hosts_tenant (load key : UInt32) : (tenant load key).Hosts load := by
  have hsize : (zeroed 16384).bytes.size = 16384 := by
    rw [size_zeroed]
    decide
  refine ⟨by rw [tenant, size_write32, size_laid, hsize], fun addr ha hlt => ?_⟩
  have hne : (0x3000 : UInt32) ≠ addr := by
    rintro rfl
    exact absurd hlt (by decide)
  have hlaid : ∀ word ∈ tenantWords load, word.1.toNat % 4 = 0 ∧
      word.1.toNat + 4 ≤ (zeroed 16384).bytes.size := by
    rw [hsize]
    simp [tenantWords]
  rw [tenant, read32_write32_of_ne (by decide) ha hne, read32_laid hlaid ha, read32_zeroed]

/-- The key makes no difference anywhere else. -/
theorem Ram.byte_tenant_of_ne {load key key' : UInt32} {i : Nat}
    (h : (tenant load key').byte i ≠ (tenant load key).byte i) : 0x3000 ≤ i ∧ i < 0x3004 := by
  refine Classical.byContradiction fun hi => h ?_
  have hout : i < (0x3000 : UInt32).toNat ∨ (0x3000 : UInt32).toNat + 4 ≤ i := by
    rw [show (0x3000 : UInt32).toNat = 0x3000 from rfl]
    omega
  rw [tenant, tenant, byte_write32_of_disjoint hout, byte_write32_of_disjoint hout]

theorem Ram.read32_key (load key : UInt32) : (tenant load key).read32 0x3000 = key := by
  refine read32_write32 (holds_iff.2 ?_) key
  rw [size_laid, size_zeroed]
  decide

namespace Machine

/-- The page with the program, which is mapped to itself with paging and without. -/
def program : Mapping := { frame := 0x2000, writable := true, user := true }

theorem grants_program (right : Right) : program.grants right = true := by
  obtain ⟨user, write⟩ := right
  cases user <;> cases write <;> rfl

/-- A machine of the run, with what changes in it. -/
def following (ram : Ram) (regs : Registers) (tlb : Tlb) (ipc word : UInt32) : Machine :=
  { regs, memory := ⟨ram, tlb, .uncached⟩, ipc, ir := ⟨word⟩ }

/-- Whether there is an instruction at `pc` in the page with the program, and no device is polled when
`cycle` are counted. -/
def Due (pc : UInt32) (cycle : UInt64) : Prop :=
  pageNumber pc = 2 ∧ (0x2000 : UInt32) ||| pageOffset pc = pc ∧ pc &&& 3 = 0 ∧
    (cycle + 1) % pollInterval.toUInt64 ≠ 0

instance (pc : UInt32) (cycle : UInt64) : Decidable (Due pc cycle) :=
  inferInstanceAs (Decidable (_ ∧ _))

section
variable {ram : Ram} {regs : Registers} {epoch hits misses flushes : Nat} {ipc ir word : UInt32}
  {flow : Flow} {m' : Machine}

/-- A step from the page that is held. -/
theorem step_held (op : Operation) (pc : UInt32) (cycle : UInt64) (hpc : regs.pc = pc)
    (hcycle : regs.cycle = cycle) (hdue : Due pc cycle)
    (hword : ram.read32 pc = word) (hop : (Instruction.mk word).operation? = some op)
    (hmode : regs.user = true → op.privileged = false)
    (hexecute : execute op ⟨word⟩ (following ram { regs with pc := pc + 4, cycle := cycle + 1 }
      (.holding 2 program epoch (hits + 1) misses flushes) pc word) = .ok flow m') :
    step (following ram regs (.holding 2 program epoch hits misses flushes) ipc ir) = .ok flow m' := by
  subst hpc hcycle
  obtain ⟨hpage, hpa, halign, hpoll⟩ := hdue
  have hr : Memory.resolve regs.space .code regs.pc .fetch regs.user
        ⟨ram, .holding 2 program epoch hits misses flushes, .uncached⟩ =
      .ok (program.frame ||| pageOffset regs.pc)
        ⟨ram, .holding 2 program epoch (hits + 1) misses flushes, .uncached⟩ :=
    Memory.resolve_held Memory.missed_uncached hpage (grants_program _)
  rw [show program.frame = 0x2000 from rfl, hpa] at hr
  exact step_of_resolved (m := following ram regs _ ipc ir) hpoll halign hr hword hop hmode hexecute

/-- A step where nothing is held. -/
theorem step_emptied (op : Operation) (pc : UInt32) (cycle : UInt64) (hpc : regs.pc = pc)
    (hcycle : regs.cycle = cycle) (hdue : Due pc cycle)
    (hwalk : walk regs.space pc .fetch regs.user ram = .ok program ram)
    (hword : ram.read32 pc = word) (hop : (Instruction.mk word).operation? = some op)
    (hmode : regs.user = true → op.privileged = false)
    (hexecute : execute op ⟨word⟩ (following ram { regs with pc := pc + 4, cycle := cycle + 1 }
      (.holding 2 program epoch hits (misses + 1) flushes) pc word) = .ok flow m') :
    step (following ram regs (.emptied epoch hits misses flushes) ipc ir) = .ok flow m' := by
  subst hpc hcycle
  obtain ⟨hpage, hpa, halign, hpoll⟩ := hdue
  have hr : Memory.resolve regs.space .code regs.pc .fetch regs.user
        ⟨ram, .emptied epoch hits misses flushes, .uncached⟩ =
      .ok (program.frame ||| pageOffset regs.pc)
        ⟨ram, .holding (pageNumber regs.pc) program epoch hits (misses + 1) flushes, .uncached⟩ :=
    Memory.resolve_emptied Memory.missed_uncached hwalk
  rw [show program.frame = 0x2000 from rfl, hpa, hpage] at hr
  exact step_of_resolved (m := following ram regs _ ipc ir) hpoll halign hr hword hop hmode hexecute

end

/-- The machine at the start of the run. -/
def hosting (ram : Ram) : Machine := { memory := ⟨ram, .ofCapacity 1, .uncached⟩ }

/-- The machine when the kernel is about to return. -/
def returnDue (ram : Ram) (load : UInt32) : Machine :=
  following ram
    { a := 0x100c, b := 0x2ffc, c := (Instruction.mk load).imm, pc := 0x2018, sp := 0x2f00
      cycle := 6, space := { paging := true, directory := some 0 } }
    (.emptied 3 4 2 3) 0x2014 166

/-- The machine when the program is about to copy. -/
def copyDue (ram : Ram) (load : UInt32) : Machine :=
  following ram
    { a := 0x100c, b := 0x2ffc, c := (Instruction.mk load).imm, pc := 0x201c, user := true
      iena := true, ssp := 0x2f10, cycle := 7, space := { paging := true, directory := some 0 } }
    (.holding 2 program 3 6 3 3) 0x2018 152

end Machine

open Machine

namespace Ram.Hosts

variable {ram : Ram} {load : UInt32} (h : ram.Hosts load)
include h

theorem size_eq : ram.size = 16384 := by
  rw [Ram.size, h.size]
  rfl

/-- The kernel sets the directory, then the operands, and turns paging on. -/
theorem run_kernel (hload : (Instruction.mk load).operation? = some (.immediate .a)) :
    ∃ t, Run ((hosting ram).reset 0x2000 0x2f00) t (returnDue ram load) := by
  have hcode₁ : ram.read32 0x2000 = 165 := h.word 0x2000 (by decide) (by decide)
  have hcode₂ : ram.read32 0x2004 = load := h.word 0x2004 (by decide) (by decide)
  have hcode₃ : ram.read32 0x2008 = 173 := h.word 0x2008 (by decide) (by decide)
  have hcode₄ : ram.read32 0x200c = 0x100c23 := h.word 0x200c (by decide) (by decide)
  have hcode₅ : ram.read32 0x2010 = 0x2ffc3b := h.word 0x2010 (by decide) (by decide)
  have hcode₆ : ram.read32 0x2014 = 166 := h.word 0x2014 (by decide) (by decide)
  have hwalk (vaddr : UInt32) (hv : pageBase vaddr = 0x2000) {space : AddressSpace}
      (hs : space.paging = false) : walk space vaddr .fetch false ram = .ok program ram := by
    rw [walk_of_not_paging hs, hv, if_pos (by rw [h.size_eq]; decide)]
    rfl
  let space : AddressSpace := { directory := some 0 }
  let m₁ := following ram { pc := 0x2004, sp := 0x2f00, cycle := 1, space }
    (.emptied 2 0 1 2) 0x2000 165
  let m₂ := following ram
    { a := (Instruction.mk load).imm, pc := 0x2008, sp := 0x2f00, cycle := 2, space }
    (.holding 2 program 2 0 2 2) 0x2004 load
  let m₃ := following ram
    { a := (Instruction.mk load).imm, c := (Instruction.mk load).imm, pc := 0x200c, sp := 0x2f00
      cycle := 3, space }
    (.holding 2 program 2 1 2 2) 0x2008 173
  let m₄ := following ram
    { a := 0x100c, c := (Instruction.mk load).imm, pc := 0x2010, sp := 0x2f00, cycle := 4, space }
    (.holding 2 program 2 2 2 2) 0x200c 0x100c23
  let m₅ := following ram
    { a := 0x100c, b := 0x2ffc, c := (Instruction.mk load).imm, pc := 0x2014, sp := 0x2f00
      cycle := 5, space }
    (.holding 2 program 2 3 2 2) 0x2010 0x2ffc3b
  have h₁ : step ((hosting ram).reset 0x2000 0x2f00) = .ok .go m₁ := by
    refine step_emptied .setDirectory 0x2000 0 rfl rfl (by decide) (hwalk _ (by decide) rfl) hcode₁
      (by decide +kernel) (fun h => Bool.noConfusion h)
      (execute_of_perform (u := ()) (fun h => by cases h) (fun h => by cases h) ?_)
    have hbase : pageBase 0 = 0 := by decide
    rw [perform_setDirectory, if_pos]
    all_goals dsimp only [following]
    all_goals rw [hbase]
    · rfl
    · rw [h.size_eq]
      decide
  have h₂ : step m₁ = .ok .go m₂ :=
    step_emptied (.immediate .a) 0x2004 1 rfl rfl (by decide) (hwalk _ (by decide) rfl) hcode₂ hload
      (fun h => Bool.noConfusion h) rfl
  have h₃ : step m₂ = .ok .go m₃ :=
    step_held (.copyA .c) 0x2008 2 rfl rfl (by decide) hcode₃ (by decide +kernel)
      (fun h => Bool.noConfusion h) rfl
  have h₄ : step m₃ = .ok .go m₄ :=
    step_held (.immediate .a) 0x200c 3 rfl rfl (by decide) hcode₄ (by decide +kernel)
      (fun h => Bool.noConfusion h) rfl
  have h₅ : step m₄ = .ok .go m₅ :=
    step_held (.immediate .b) 0x2010 4 rfl rfl (by decide) hcode₅ (by decide +kernel)
      (fun h => Bool.noConfusion h) rfl
  have h₆ : step m₅ = .ok .go (returnDue ram load) := by
    refine step_held .setPaging 0x2014 5 rfl rfl (by decide) hcode₆ (by decide +kernel)
      (fun h => Bool.noConfusion h)
      (execute_of_perform (u := ()) (fun h => by cases h) (fun h => by cases h) ?_)
    rw [perform_setPaging, if_pos]
    · rfl
    · rfl
  exact ⟨_, (((((Run.start.step h₁).step h₂).step h₃).step h₄).step h₅).step h₆⟩

/-- The words at the top of the kernel's stack send it to the program. -/
theorem step_returnDue : step (returnDue ram load) = .ok .go (copyDue ram load) := by
  have hword : ram.read32 0x2018 = 152 := h.word 0x2018 (by decide) (by decide)
  have hcode : ram.read32 0x2f00 = 16 := h.word 0x2f00 (by decide) (by decide)
  have hpc : ram.read32 0x2f08 = 0x201c := h.word 0x2f08 (by decide) (by decide)
  have hpde : ram.directoryEntry 0 0x2018 = ⟨0x1067⟩ :=
    congrArg PageEntry.mk (h.word 0 (by decide) (by decide))
  have hpte : ram.tableEntry 0 0x2018 = ⟨0x2067⟩ := by
    rw [Ram.tableEntry, hpde]
    exact congrArg PageEntry.mk (h.word 0x1008 (by decide) (by decide))
  let space : AddressSpace := { paging := true, directory := some 0 }
  have hwalk : walk space 0x2018 .fetch false ram = .ok program ram := by
    rw [walk_of_marked rfl rfl hpde hpte (by decide) (by rw [h.size_eq]; decide) (by decide)
      (by rw [h.size_eq]; decide) (by decide) (by decide)]
    rfl
  have hlower : Memory.resolve space .stack (alignTo8 0x2f00) .load false
        ⟨ram, .holding 2 program 3 4 3 3, .uncached⟩ =
      .ok 0x2f00 ⟨ram, .holding 2 program 3 5 3 3, .uncached⟩ :=
    Memory.resolve_held Memory.missed_uncached (by decide) (grants_program _)
  have hupper : Memory.resolve space .stack (alignTo8 0x2f08) .load false
        ⟨ram, .holding 2 program 3 5 3 3, .uncached⟩ =
      .ok 0x2f08 ⟨ram, .holding 2 program 3 6 3 3, .uncached⟩ :=
    Memory.resolve_held Memory.missed_uncached (by decide) (grants_program _)
  let kernel : Registers :=
    { a := 0x100c, b := 0x2ffc, c := (Instruction.mk load).imm, pc := 0x201c, sp := 0x2f00
      cycle := 7, space }
  have hreturn := returnFromInterrupt_of_resolved
    (m := following ram kernel (.holding 2 program 3 4 3 3) 0x2018 152) hlower hupper
  have hresumed : ({ kernel with sp := 0x2f10 } : Registers).resume 16 0x201c =
      { kernel with sp := 0, ssp := 0x2f10, user := true } := by
    rw [Registers.resume, if_pos (by decide)]
  refine step_emptied .returnFromInterrupt 0x2018 6 rfl rfl (by decide) hwalk hword
    (by decide +kernel) (fun h => Bool.noConfusion h) (liftDelivery_then_of_ok (u := ()) ?_ .go)
  have hmasked : ¬(following ram kernel (.holding 2 program 3 4 3 3) 0x2018 152).regs.iena = true :=
    Bool.false_ne_true
  refine hreturn.trans ((if_neg hmasked).trans ?_)
  show enableInterrupts (following ram
    (({ kernel with sp := 0x2f10 } : Registers).resume (ram.read32 0x2f00) (ram.read32 0x2f08))
    (.holding 2 program 3 6 3 3) 0x2018 152) = _
  rw [hcode, hpc, hresumed]
  exact enableInterrupts_of_none (show Fault.ofPending? 0 = none by decide)

/-- The run of the kernel to the program. -/
theorem run (hload : (Instruction.mk load).operation? = some (.immediate .a)) :
    ∃ t, Run ((hosting ram).reset 0x2000 0x2f00) t (copyDue ram load) := by
  obtain ⟨t, hrun⟩ := h.run_kernel hload
  exact ⟨_, hrun.step h.step_returnDue⟩

end Ram.Hosts

/-! ## The copy -/

namespace Machine

/-- The page with the table. -/
def table : Mapping := { frame := 0x1000, writable := true, user := true }

/-- The machine when the copy was fetched. -/
def copyFetched (ram : Ram) (load : UInt32) : Machine :=
  following ram
    { a := 0x100c, b := 0x2ffc, c := (Instruction.mk load).imm, pc := 0x2020, user := true
      iena := true, ssp := 0x2f10, cycle := 8, space := { paging := true, directory := some 0 } }
    (.holding 2 program 3 7 3 3) 0x201c 10

/-- The machine when the word at the end of the page is copied. -/
def copyBegun (ram : Ram) (load : UInt32) : Machine :=
  { following (ram.copyWithin 0x2ffc 0x100c 4)
      { a := 0x1010, b := 0x3000, c := (Instruction.mk load).imm - 4, pc := 0x2020, user := true
        iena := true, ssp := 0x2f10, cycle := 8, space := { paging := true, directory := some 0 } }
      (.holding 1 table 4 8 4 4) 0x201c 10 with
    blockBytes := 4 }

/-- The machine when the word after that is copied as well. -/
def copyEnded (ram : Ram) (load : UInt32) : Machine :=
  { following ((ram.copyWithin 0x2ffc 0x100c 4).copyWithin 0x3000 0x1010 4)
      { a := 0x1014, b := 0x3004, c := (Instruction.mk load).imm - 4 - 4, pc := 0x2020, user := true
        iena := true, ssp := 0x2f10, cycle := 8, space := { paging := true, directory := some 0 } }
      (.holding 1 table 6 8 6 6) 0x201c 10 with
    blockBytes := 8 }

end Machine

namespace Ram.Hosts

variable {ram : Ram} {load : UInt32} (h : ram.Hosts load)
include h

theorem fetch : Machine.fetch (copyDue ram load).counted = .ok ⟨10⟩ (copyFetched ram load) := by
  have hr : Memory.resolve { paging := true, directory := some 0 } .code 0x201c .fetch true
        ⟨ram, .holding 2 program 3 6 3 3, .uncached⟩ =
      .ok 0x201c ⟨ram, .holding 2 program 3 7 3 3, .uncached⟩ :=
    Memory.resolve_held Memory.missed_uncached (by decide) (grants_program _)
  have hfetch := fetch_of_resolved (m := (copyDue ram load).counted)
    (show (0x201c : UInt32) &&& 3 = 0 by decide) hr
  rw [h.word 0x201c (by decide) (by decide)] at hfetch
  exact hfetch

/-- A step of the program does what the copy does. -/
theorem step {m' : Machine} (hcopy : block .copy (copyFetched ram load) = .ok () m') :
    Machine.step (copyDue ram load) = .ok .go m' := by
  have hop : (Instruction.mk 10).operation? = some (.block .copy) := by decide +kernel
  have hnext : executeNext (copyDue ram load).counted = .ok .go m' := by
    rw [executeNext_of_fetch h.fetch hop fun _ => rfl]
    exact execute_of_block hcopy
  have hdue : ((copyDue ram load).regs.cycle + 1) % pollInterval.toUInt64 ≠ 0 := by
    show (7 + 1 : UInt64) % pollInterval.toUInt64 ≠ 0
    decide
  rw [step_of_tick (tick_of_not_due hdue), executeGuarded, hnext]

theorem paged : ram.Paged := by
  rw [Ram.Paged, h.size]

theorem holds {addr : UInt32} {n : Nat} (hn : addr.toNat + n ≤ 16384) : ram.holds addr n = true := by
  rwa [Ram.holds_iff, h.size]

/-- The first chunk ends at the end of the page. -/
theorem chunk (hn : BlockOp.copy.length (copyFetched ram load).regs = 4) :
    Machine.chunk .copy (copyFetched ram load) = .ok false (copyBegun ram load) := by
  have hsize : ram.size = 16384 := by
    rw [Ram.size, h.size]
    rfl
  have hb : Memory.resolve { paging := true, directory := some 0 } .data 0x2ffc .load true
        ⟨ram, .holding 2 program 3 7 3 3, .uncached⟩ =
      .ok 0x2ffc ⟨ram, .holding 2 program 3 8 3 3, .uncached⟩ :=
    Memory.resolve_held Memory.missed_uncached (by decide) (grants_program _)
  have hpde : ram.directoryEntry 0 0x100c = ⟨0x1067⟩ :=
    congrArg PageEntry.mk (h.word 0 (by decide) (by decide))
  have hpte : ram.tableEntry 0 0x100c = ⟨0x1067⟩ := by
    rw [Ram.tableEntry, hpde]
    exact congrArg PageEntry.mk (h.word 0x1004 (by decide) (by decide))
  have ha : Memory.resolve { paging := true, directory := some 0 } .data 0x100c .store true
        ⟨ram, .holding 2 program 3 8 3 3, .uncached⟩ =
      .ok 0x100c ⟨ram, .holding 1 table 4 8 4 4, .uncached⟩ :=
    Memory.resolve_replaced Memory.missed_uncached (by decide)
      (walk_of_marked rfl rfl hpde hpte (by decide) (by rw [hsize]; decide) (by decide)
        (by rw [hsize]; decide) (by decide) (by decide))
  have hchunk := chunk_copy_of_resolved (m := copyFetched ram load)
    (congrArg UInt32.toNat hn) hb ha (h.holds (by decide)) (h.holds (by decide))
  rw [hchunk, BlockOp.rest, hn]
  rfl

omit h in
theorem length_of_four : BlockOp.copy.length (copyFetched ram 0x423).regs = 4 := by
  show chunkLeft₂ 0x100c 0x2ffc (Instruction.mk 0x423).imm = 4
  decide

omit h in
theorem left_of_four : (copyBegun ram 0x423).regs.c = 0 := by
  show (Instruction.mk 0x423).imm - 4 = 0
  decide

omit h in
/-- A copy of one word is over after the first chunk. -/
theorem step_of_four (h : ram.Hosts 0x423) :
    Machine.step (copyDue ram 0x423) = .ok .go (copyBegun ram 0x423) := by
  have hc : (copyFetched ram 0x423).regs.c ≠ 0 := by
    show (Instruction.mk 0x423).imm ≠ 0
    decide
  refine h.step ?_
  rw [block_apply, if_neg hc, h.chunk length_of_four]
  dsimp only
  rw [block_apply, if_pos left_of_four]
  rfl

omit h in
theorem epoch_of_four (h : ram.Hosts 0x423) :
    (stateOf (Machine.step (copyDue ram 0x423))).memory.tlb.epoch < UInt64.size := by
  rw [h.step_of_four]
  show 4 < UInt64.size
  decide

/-- What the table maps after the first chunk. -/
theorem read32_copied {addr : UInt32} (ha : addr.toNat % 4 = 0) (hlt : addr.toNat < 0x3000) :
    (ram.copyWithin 0x2ffc 0x100c 4).read32 addr =
      if addr = 0x100c then 0x3067 else ((tenantWords load).lookup addr).getD 0 := by
  have hs : ram.holds 0x2ffc 4 = true := h.holds (by decide)
  have hd : ram.holds 0x100c 4 = true := h.holds (by decide)
  split
  · rename_i he
    rw [he, read32_copyWithin hs hd]
    exact h.word 0x2ffc (by decide) (by decide)
  · rename_i hne
    have hne' : addr.toNat ≠ 0x100c := fun he => hne (UInt32.toNat_inj.1 he)
    rw [read32_copyWithin_of_apart hs hd (by
      rw [show (0x100c : UInt32).toNat = 0x100c from rfl]
      omega)]
    exact h.word addr ha hlt

/-- The second chunk goes through the word that the first one put into the table. -/
theorem chunk_begun (hn : BlockOp.copy.length (copyBegun ram load).regs = 4) :
    Machine.chunk .copy (copyBegun ram load) = .ok false (copyEnded ram load) := by
  have hholds {addr : UInt32} (ha : addr.toNat + 4 ≤ 16384) :
      (ram.copyWithin 0x2ffc 0x100c 4).holds addr 4 = true := by
    rw [Ram.holds, size_copyWithin]
    exact h.holds ha
  have hsize : (ram.copyWithin 0x2ffc 0x100c 4).size = 16384 := by
    rw [Ram.size, size_copyWithin, h.size]
    rfl
  have hpde (vaddr : UInt32) (hv : PageEntry.directorySlot 0 vaddr = 0) :
      (ram.copyWithin 0x2ffc 0x100c 4).directoryEntry 0 vaddr = ⟨0x1067⟩ := by
    rw [directoryEntry, hv]
    exact congrArg PageEntry.mk (h.read32_copied (by decide) (by decide))
  have hpte₃ : (ram.copyWithin 0x2ffc 0x100c 4).tableEntry 0 0x3000 = ⟨0x3067⟩ := by
    rw [tableEntry, hpde _ (by decide)]
    exact congrArg PageEntry.mk (h.read32_copied (by decide) (by decide))
  have hpte₁ : (ram.copyWithin 0x2ffc 0x100c 4).tableEntry 0 0x1010 = ⟨0x1067⟩ := by
    rw [tableEntry, hpde _ (by decide)]
    exact congrArg PageEntry.mk (h.read32_copied (by decide) (by decide))
  have hb : Memory.resolve { paging := true, directory := some 0 } .data 0x3000 .load true
        ⟨ram.copyWithin 0x2ffc 0x100c 4, .holding 1 table 4 8 4 4, .uncached⟩ =
      .ok 0x3000 ⟨ram.copyWithin 0x2ffc 0x100c 4,
        .holding 3 { frame := 0x3000, writable := true, user := true } 5 8 5 5, .uncached⟩ :=
    Memory.resolve_replaced Memory.missed_uncached (by decide)
      (walk_of_marked rfl rfl (hpde _ (by decide)) hpte₃ (by decide) (by rw [hsize]; decide) (by decide)
        (by rw [hsize]; decide) (by decide) (by decide))
  have ha : Memory.resolve { paging := true, directory := some 0 } .data 0x1010 .store true
        ⟨ram.copyWithin 0x2ffc 0x100c 4,
          .holding 3 { frame := 0x3000, writable := true, user := true } 5 8 5 5, .uncached⟩ =
      .ok 0x1010 ⟨ram.copyWithin 0x2ffc 0x100c 4, .holding 1 table 6 8 6 6, .uncached⟩ :=
    Memory.resolve_replaced Memory.missed_uncached (by decide)
      (walk_of_marked rfl rfl (hpde _ (by decide)) hpte₁ (by decide) (by rw [hsize]; decide) (by decide)
        (by rw [hsize]; decide) (by decide) (by decide))
  have hchunk := chunk_copy_of_resolved (m := copyBegun ram load)
    (congrArg UInt32.toNat hn) hb ha (hholds (by decide)) (hholds (by decide))
  rw [hchunk, BlockOp.rest, hn]
  rfl

omit h in
/-- A copy of two words reads the key. -/
theorem step_of_eight (h : ram.Hosts 0x823) :
    Machine.step (copyDue ram 0x823) = .ok .go (copyEnded ram 0x823) := by
  have hc : (copyFetched ram 0x823).regs.c ≠ 0 := by
    show (Instruction.mk 0x823).imm ≠ 0
    decide
  have hc₁ : (copyBegun ram 0x823).regs.c ≠ 0 := by
    show (Instruction.mk 0x823).imm - 4 ≠ 0
    decide
  have hc₂ : (copyEnded ram 0x823).regs.c = 0 := by
    show (Instruction.mk 0x823).imm - 4 - 4 = 0
    decide
  have hlength : BlockOp.copy.length (copyFetched ram 0x823).regs = 4 := by
    show chunkLeft₂ 0x100c 0x2ffc (Instruction.mk 0x823).imm = 4
    decide
  have hlength₁ : BlockOp.copy.length (copyBegun ram 0x823).regs = 4 := by
    show chunkLeft₂ 0x1010 0x3000 ((Instruction.mk 0x823).imm - 4) = 4
    decide
  refine h.step ?_
  rw [block_apply, if_neg hc, h.chunk hlength]
  dsimp only
  rw [block_apply, if_neg hc₁, h.chunk_begun hlength₁]
  dsimp only
  rw [block_apply, if_pos hc₂]
  rfl

/-- The entries that are in the directory and in the table. -/
theorem entry_of_ne {addr : UInt32} (ha : addr.toNat % 4 = 0) (hlt : addr.toNat < 0x2000)
    (hne : ram.read32 addr ≠ 0) :
    ram.read32 addr = 0x1067 ∨ 0x1000 ≤ addr.toNat ∧ ram.read32 addr = 0x2067 := by
  have hwords : ∀ word ∈ tenantWords load, word.1.toNat < 0x2000 →
      word.2 = 0x1067 ∨ 0x1000 ≤ word.1.toNat ∧ word.2 = 0x2067 := by
    simp [tenantWords]
  have hword := h.word addr ha (by omega)
  cases hl : (tenantWords load).lookup addr with
  | none =>
    rw [hl] at hword
    exact absurd hword hne
  | some v =>
    rw [hl] at hword
    obtain ⟨before, after, hsplit, -⟩ := List.lookup_eq_some_iff.1 hl
    rw [hword]
    exact hwords (addr, v) (by rw [hsplit]; simp) hlt

end Ram.Hosts

end PagedMachine
