import PagedMachine.Proofs.Alike
import PagedMachine.Proofs.Confinement
import PagedMachine.Proofs.Tenant

/-!
# What user mode reads

A byte is protected in user mode if it lies in no page that the tables open to user mode, and in none of
the tables (`Machine.Protected`). A step of user mode does the same from any two machines that differ in
protected bytes only, and they differ in such bytes only afterwards (`user_reads_isolated`). Between two
chunks of a block operation, and between the two words that an entry pushes, the tables may come to
open what they hid before, so that the rest of the step sees it: the bytes have to be protected there as
well (`Machine.Midway`).
-/

set_option autoImplicit false

namespace PagedMachine

namespace Machine

variable {hidden : Nat → Prop}

/-! ## Block operations -/

/-- A chunk that stores, which is the code `x` on the operands in the registers. -/
theorem Sealed.ends_storing {m : Machine} (h : m.Sealed hidden) (hu : m.regs.user = true)
    {op : BlockOp} (hop : op = .copy ∨ op = .fill) {x : Registers → Guarded Unit}
    (hx : ∀ r, Stores hidden (x r))
    (heq : ∀ m, x m.regs m =
      match chunk op m with
      | .ok _ m' => .ok () m'
      | .error fault m' => .error fault m')
    (hn : (stateOf (chunk op m)).memory.tlb.epoch < UInt64.size) : Ends hidden (chunk op) m := by
  have hchunk (m : Machine) : chunk op m = (x m.regs >>= fun _ => pure false) m := by
    rw [bind_apply, heq]
    cases hr : chunk op m with
    | ok decided m' =>
      obtain rfl := chunk_copy_fill hop hr
      rfl
    | error fault m' => rfl
  rw [hchunk] at hn
  have hends := (hx m.regs).ends m h hu (epoch_lt_of_bind (fun _ => .pure false) hn).1
  have hpure := hends.after (f := fun _ => pure false) fun _ m =>
    ⟨false, m, rfl, rfl, rfl, rfl, fun _ => rfl⟩
  exact hpure.of_eq (hchunk m) fun ram => hchunk (m.withRam ram)

/-- A chunk stores at most, and accesses no memory after that. -/
theorem Sealed.ends_chunk {m : Machine} (h : m.Sealed hidden) (hu : m.regs.user = true) (op : BlockOp)
    (hn : (stateOf (chunk op m)).memory.tlb.epoch < UInt64.size) : Ends hidden (chunk op) m := by
  have haddressed := addressed_alike hidden
  cases op with
  | copy =>
    exact h.ends_storing hu (.inl rfl) (fun r => haddressed.copyChunk r.a r.b r.c) copyChunk_apply hn
  | fill =>
    exact h.ends_storing hu (.inr rfl) (fun r => haddressed.fillChunk r.b.toUInt8 r.a r.c)
      fillChunk_apply hn
  | compare =>
    rw [← compareChunk_apply] at hn
    exact ((haddressed.compareChunk ..).ends m h hu hn).of_eq (compareChunk_apply m).symm
      fun ram => (compareChunk_apply (m.withRam ram)).symm
  | scan =>
    rw [← scanChunk_apply] at hn
    exact ((haddressed.scanChunk ..).ends m h hu hn).of_eq (scanChunk_apply m).symm
      fun ram => (scanChunk_apply (m.withRam ram)).symm

/-- A block operation whose chunks bring no hidden byte into sight, as long as another one follows. -/
theorem Veiled.ends_block {op : BlockOp} {m : Machine} (h : m.Veiled hidden)
    (hu : m.regs.user = true)
    (hk : ∀ m₁, Commits (.block op) m m₁ → m₁.regs.c ≠ 0 →
      m₁.memory.ram.Secures hidden m₁.regs.space)
    (hn : (stateOf (block op m)).memory.tlb.epoch < UInt64.size) : Ends hidden (block op) m := by
  have hblind : Blind (block op) := Blind.closed.governed.addressed.block op
  induction hc : m.regs.c.toNat using Nat.strongRecOn generalizing m with
  | ind c ih =>
    by_cases hzero : m.regs.c = 0
    · have heq (m : Machine) (hzero : m.regs.c = 0) :
          block op m = .ok () { m with regs := op.finish m.regs } := by
        rw [block_apply, if_pos hzero]
      obtain ⟨a, b, c', hfinish⟩ := op.finish_operands m.regs
      refine ⟨fun ram hram => ⟨ram, ?_, ?_⟩, ?_, ?_, fun e m' hr => ?_⟩
      · rw [heq m hzero]
        exact hram
      · rw [heq m hzero, heq (m.withRam ram) hzero]
        rfl
      · rw [heq m hzero, hfinish]
        exact ⟨h.caches, h.paging⟩
      · rw [heq m hzero, hfinish]
        rfl
      · rw [heq m hzero] at hr
        cases hr
    · have hsealed : m.Sealed hidden := ⟨h, hk m (.refl m) hzero⟩
      let rest (decided : Bool) : Guarded Unit := if decided then pure () else block op
      have heq (m : Machine) (hzero : m.regs.c ≠ 0) : block op m = (chunk op >>= rest) m := by
        rw [block_apply, if_neg hzero, bind_apply]
        cases chunk op m with
        | ok decided m' => cases decided <;> rfl
        | error fault m' => rfl
      have hrest decided : Blind (rest decided) := by
        cases decided with
        | true => exact .pure ()
        | false => exact hblind
      rw [heq m hzero] at hn
      obtain ⟨hn₁, hn₂⟩ := epoch_lt_of_bind hrest hn
      have hchunk := hsealed.ends_chunk hu op hn₁
      refine (hchunk.bind fun decided m₁ hr => ?_).of_eq (heq m hzero) fun ram =>
        heq (m.withRam ram) hzero
      have hveiled := hchunk.veiled
      have huser := hchunk.user
      rw [hr, stateOf_ok] at hveiled huser
      cases decided with
      | true => exact .pure hveiled ()
      | false =>
        have hlt : m₁.regs.c.toNat < c := by
          rw [← hc, regs_chunk hr]
          exact op.rest_c_lt hzero
        exact ih _ hlt hveiled (huser.trans hu)
          (fun m₂ hcommits => hk m₂ (.chunk rfl hzero hr hcommits)) (hn₂ false m₁ hr) rfl

/-- Whether `m'` is where one chunk is done and another follows, when the operation begins at `m`. -/
def Between (op : BlockOp) (m m' : Machine) : Prop :=
  ∃ m₁, m.regs.c ≠ 0 ∧ chunk op m = .ok false m₁ ∧ Commits (.block op) m₁ m' ∧ m'.regs.c ≠ 0

/-! ## Instructions -/

/-- An instruction but a block operation makes one access to store at most. -/
theorem stores_execute {op : Operation} (hop : op.privileged = false) (hblock : ∀ b, op ≠ .block b)
    (i : Instruction) : Stores hidden (execute op i) := by
  have haddressed := addressed_alike hidden
  unfold Machine.execute
  split
  · exact haddressed.still (haddressed.bind haddressed.getRegs fun _ => haddressed.pure _)
  · cases hop
  · exact (haddressed.perform hop hblock i).after (fun _ => .pure _) fun _ m =>
      ⟨.go, m, rfl, rfl, rfl, rfl, fun _ => rfl⟩

theorem Sealed.ends_execute_block {op : BlockOp} {m : Machine} (h : m.Sealed hidden)
    (hu : m.regs.user = true)
    (hk : ∀ m₁, Between op m m₁ → m₁.memory.ram.Secures hidden m₁.regs.space) (i : Instruction)
    (hn : (stateOf (execute (.block op) i m)).memory.tlb.epoch < UInt64.size) :
    Ends hidden (execute (.block op) i) m := by
  have heq (m : Machine) :
      execute (.block op) i m = ((liftM (block op) : Exec Unit) >>= fun _ => pure .go) m := rfl
  rw [heq] at hn
  have hlift := (epoch_lt_of_bind (fun _ => .pure _) hn).1
  rw [liftGuarded_apply] at hlift
  have hsecures (m₁ : Machine) (hcommits : Commits (.block op) m m₁) (hc : m₁.regs.c ≠ 0) :
      m₁.memory.ram.Secures hidden m₁.regs.space := by
    cases hcommits with
    | refl => exact h.tables
    | chunk hb hne hr hrest =>
      obtain rfl := Operation.block.inj hb
      exact hk m₁ ⟨_, hne, hr, hrest, hc⟩
  have hblock : Ends hidden (block op) m := h.toVeiled.ends_block hu hsecures (by
    cases hr : block op m <;> rwa [hr] at hlift)
  have hends := (hblock.adapt Stop.fault).after (f := fun _ => pure Flow.go) fun _ m =>
    ⟨.go, m, rfl, rfl, rfl, rfl, fun _ => rfl⟩
  exact hends.of_eq (heq m) fun ram => heq (m.withRam ram)

/-- An instruction of user mode, if its chunks bring no hidden byte into sight. -/
theorem Sealed.ends_executeUnprivileged {m : Machine} (h : m.Sealed hidden) (hu : m.regs.user = true)
    (hk : ∀ i op m₁ m₂, fetch m = .ok i m₁ → i.operation? = some (.block op) →
      Between op m₁ m₂ → m₂.memory.ram.Secures hidden m₂.regs.space)
    (hn : (stateOf (executeUnprivileged m)).memory.tlb.epoch < UInt64.size) :
    Ends hidden executeUnprivileged m := by
  have haddressed := addressed_alike hidden
  have hblind := Blind.closed.governed.addressed
  have hrest (op : Operation) (i : Instruction) : Blind (if op.privileged then
      throw (.fault .privilegeViolation) else execute op i : Exec Flow) := by
    cases hop : op.privileged with
    | true => exact .throw _
    | false => exact hblind.execute hop i
  refine haddressed.fetch.bind_ends (fun i => (hblind.decode i).bind fun op => hrest op i) h hu hn
    fun i m₁ hfetch h₁ hu₁ hn₁ => ?_
  refine (haddressed.decode i).bind_ends (fun op => hrest op i) h₁ hu₁ hn₁
    fun op m₂ hdecode h₂ hu₂ hn₂ => ?_
  obtain ⟨hop, -, rfl⟩ := decode_eq_ok hdecode
  cases hprivileged : op.privileged with
  | true =>
    rw [hprivileged] at hn₂
    exact (haddressed.throw (Stop.fault .privilegeViolation)).ends m₂ h₂ hu₂ hn₂
  | false =>
    rw [hprivileged] at hn₂
    by_cases hblock : ∃ b, op = .block b
    · obtain ⟨b, rfl⟩ := hblock
      exact h₂.ends_execute_block hu₂ (fun m₃ => hk i b m₂ m₃ hfetch hop) i hn₂
    · exact (stores_execute hprivileged (fun b hb => hblock ⟨b, hb⟩) i).ends m₂ h₂ hu₂ hn₂

/-! ## Entering the kernel -/

theorem Sealed.ends_pushKernel {m : Machine} (h : m.Sealed hidden) (v : UInt32) :
    Ends hidden (pushKernel v) m := by
  have hfits : (alignTo8 (m.regs.sp - 8)).toNat % 4096 + (Bytes.push32 .empty v).size ≤ 4096 :=
    alignTo8_fits _ (by simp)
  have hwriting : Ends hidden
      (writing .stack (alignTo8 (m.regs.sp - 8)) none (Bytes.push32 .empty v)) m :=
    h.ends_writing hfits
  have hpush := hwriting.after (f := fun _ => setSp (m.regs.sp - 8)) fun _ m' =>
    ⟨(), { m' with regs := { m'.regs with sp := m.regs.sp - 8 } }, rfl, rfl, rfl, rfl, fun _ => rfl⟩
  refine (hpush.adapt fun _ => FatalReason.kernelStackFault).of_eq ?_ fun ram => ?_
  all_goals
    rw [pushKernel, push_eq]
    rfl

/-- An entry to the kernel, if the first word that it stores, which is where to resume, brings no
hidden byte into sight. As an entry of a table it could if it had the present bit. -/
theorem Sealed.alike_deliver {m : Machine} (h : m.Sealed hidden) (cause : Fault)
    (hk : (PageEntry.mk m.regs.pc).present = true →
      ∀ memory, Memory.pushWord m.regs.space m.regs.kernelSp m.regs.pc false m.memory =
        .ok () memory → memory.ram.Secures hidden m.regs.space) : Alike hidden (deliver cause) m := by
  have henter : Alike hidden (enterKernel cause) m := by
    refine .of_apart (fun ram => ?_) ?_
    · rw [enterKernel_apply, enterKernel_apply]
      rfl
    · rw [enterKernel_apply]
      rfl
  refine henter.bind fun code m₁ hr => ?_
  rw [enterKernel_apply] at hr
  obtain ⟨rfl, rfl⟩ := EStateM.Result.ok.inj hr
  refine Alike.bind (.of_apart (fun _ => rfl) rfl) fun _ m₂ hr => ?_
  obtain ⟨-, rfl⟩ := EStateM.Result.ok.inj hr
  refine Alike.bind (.of_apart (fun _ => rfl) rfl) fun r m₃ hr => ?_
  obtain ⟨rfl, rfl⟩ := EStateM.Result.ok.inj hr
  have hentered : Sealed hidden { m with regs := { m.regs with
      usp := if m.regs.user then m.regs.sp else m.regs.usp
      sp := m.regs.kernelSp
      user := false
      trap := m.regs.entryCode cause } } := h.of_eq rfl rfl
  have hpush := hentered.ends_pushKernel m.regs.pc
  refine Alike.bind hpush.alike fun _ m₄ hr => ?_
  have hveiled := hpush.veiled
  rw [hr, stateOf_ok] at hveiled
  have hpushed : m₄.Sealed hidden := by
    refine ⟨hveiled, ?_⟩
    rw [pushKernel_apply] at hr
    dsimp only at hr
    cases hword : Memory.pushWord m.regs.space m.regs.kernelSp m.regs.pc false m.memory with
    | ok u memory =>
      rw [hword] at hr
      obtain ⟨-, rfl⟩ := EStateM.Result.ok.inj hr
      cases hpresent : (PageEntry.mk m.regs.pc).present with
      | true => exact hk hpresent memory hword
      | false => exact h.caches.pushWord h.tables h.paging hpresent hword
    | error fault memory =>
      rw [hword] at hr
      cases hr
  refine Alike.bind (hpushed.ends_pushKernel _).alike fun _ m₅ _ => ?_
  exact fun ram hram => ⟨ram, hram, rfl⟩

theorem Sealed.alike_raiseInterrupt {m : Machine} (h : m.Sealed hidden) (cause : Fault)
    (hk : (PageEntry.mk m.regs.pc).present = true →
      ∀ memory, Memory.pushWord m.regs.space m.regs.kernelSp m.regs.pc false m.memory =
        .ok () memory → memory.ram.Secures hidden m.regs.space) :
    Alike hidden (raiseInterrupt cause) m := by
  refine Alike.bind (.of_apart (fun _ => rfl) rfl) fun _ m₁ hr => ?_
  obtain ⟨-, rfl⟩ := EStateM.Result.ok.inj hr
  have hmasked : Sealed hidden { m with regs := { m.regs with iena := false } } := h.of_eq rfl rfl
  refine Alike.bind (hmasked.alike_deliver cause hk) fun _ m₂ _ => ?_
  exact .of_apart (fun _ => rfl) rfl

/-! ## Steps -/

theorem Commits.space {op : Operation} {m m' : Machine} (h : Commits op m m') :
    m'.regs.space = m.regs.space := by
  induction h with
  | refl m => rfl
  | @chunk b m m₁ m' hop hc hr hrest ih =>
    obtain ⟨a, b', c, hregs⟩ := b.rest_operands m.regs
    rw [ih, regs_chunk hr, hregs]

theorem Between.space {op : BlockOp} {m m' : Machine} (h : Between op m m') :
    m'.regs.space = m.regs.space := by
  obtain ⟨m₁, hne, hr, hrest, -⟩ := h
  exact Commits.space (.chunk rfl hne hr hrest)

theorem space_of_fetch {i : Instruction} {m m' : Machine} (h : fetch m = .ok i m') :
    m'.regs.space = m.regs.space := by
  obtain ⟨-, memory, -, rfl⟩ := fetch_eq_ok h
  rfl

theorem blind_onStop (stop : Stop) : Blind (onStop stop) := by
  have hgoverned := Blind.closed.governed
  cases stop with
  | fatal reason => exact hgoverned.throw reason
  | fault cause => exact hgoverned.bind (hgoverned.raiseException cause) fun _ => hgoverned.pure _

/-- The memories that a step of user mode leaves in its middle: where a chunk of a block operation is
done and another follows, and where an interrupt has stored the first of its words, which has the
present bit of an entry. -/
inductive Midway (m : Machine) : Memory → Prop
  | chunk {i : Instruction} {op : BlockOp} {m₁ m₂ : Machine} : m.turn.1 = .quiet none →
      fetch m.turn.2 = .ok i m₁ → i.operation? = some (.block op) → Between op m₁ m₂ →
      Midway m m₂.memory
  | interrupt {cause : Fault} {memory : Memory} : m.turn.1 = .interrupt cause →
      (PageEntry.mk m.regs.pc).present = true →
      Memory.pushWord m.regs.space m.regs.ssp m.regs.pc false m.memory = .ok () memory →
      Midway m memory

/-- Where to resume after a fault is the address of an instruction, so as an entry it is not present. -/
theorem present_blame {m m' : Machine} {cause : Fault} (hu : m.regs.user = true)
    (h : executeNext m = .error (.fault cause) m') :
    (PageEntry.mk (m'.regs.blame cause m'.ipc).pc).present = false := by
  have hfaulted := faulted_of_executeNext h (not_transfers hu)
  have halign : m.regs.pc.toNat % 4 = 0 := by
    refine mod_four_of_aligned (Classical.not_not.1 fun hne => ?_)
    rw [executeNext, bind_apply, fetch_apply, if_neg hne] at h
    cases (EStateM.Result.error.inj h).1
  have hlow (v : UInt32) (hv : v.toNat % 4 = 0) : (PageEntry.mk v).present = false := by
    have hone : (v &&& PageEntry.presentBit).toNat = v.toNat % 2 := by
      rw [UInt32.toNat_and]
      exact Nat.and_two_pow_sub_one_eq_mod v.toNat 1
    have hzero : v &&& PageEntry.presentBit = 0 :=
      UInt32.toNat_inj.1 (hone.trans (show v.toNat % 2 = 0 by omega))
    simp only [PageEntry.present, PageEntry.has, hzero, ne_eq, not_true_eq_false, decide_false]
  have hnext : (m.regs.pc + 4).toNat % 4 = 0 := by
    rw [UInt32.toNat_add, show (4 : UInt32).toNat = 4 from rfl]
    omega
  rw [Registers.blame, hfaulted.ipc]
  dsimp only
  split
  · exact hlow _ halign
  · rename_i hrestarts
    rw [hfaulted.pc.resolve_right hrestarts]
    exact hlow _ hnext

/-- An instruction and, if it faults, the entry to the kernel after it. -/
theorem Sealed.alike_executeGuarded {m : Machine} (h : m.Sealed hidden) (hu : m.regs.user = true)
    (hiena : m.regs.iena = true)
    (hk : ∀ i op m₁ m₂, fetch m = .ok i m₁ → i.operation? = some (.block op) →
      Between op m₁ m₂ → m₂.memory.ram.Secures hidden m.regs.space)
    (hn : (stateOf (executeGuarded m)).memory.tlb.epoch < UInt64.size) :
    Alike hidden executeGuarded m := by
  have hnext (ram : Ram) : executeNext (m.withRam ram) = executeUnprivileged (m.withRam ram) :=
    executeNext_of_user hu
  have hends : Ends hidden executeUnprivileged m := by
    refine h.ends_executeUnprivileged hu (fun i op m₁ m₂ hfetch hop hbetween => ?_) ?_
    · rw [hbetween.space, space_of_fetch hfetch]
      exact hk i op m₁ m₂ hfetch hop hbetween
    · rw [← executeNext_of_user hu]
      refine Nat.lt_of_le_of_lt ?_ hn
      rw [executeGuarded_eq, handle_apply]
      cases hr : executeNext m with
      | ok flow m₁ => exact Nat.le_refl _
      | error stop m₁ => exact (blind_onStop stop).epoch m₁
  have hkept := shielded_privileged.executeNext_user hu
  rw [executeGuarded_eq]
  refine Alike.of_eq (y := handle executeUnprivileged onStop) (hends.alike.handle fun stop m₁ hr => ?_)
    (by rw [handle_apply, handle_apply, executeNext_of_user hu])
    fun ram => by rw [handle_apply, handle_apply, hnext]
  rw [← executeNext_of_user hu] at hr
  cases stop with
  | fatal reason => exact .of_apart (fun _ => rfl) rfl
  | fault cause =>
    rw [hr, stateOf_error] at hkept
    have hsealed : m₁.Sealed hidden := hends.stopped _ m₁ (executeNext_of_user hu ▸ hr)
    have hiena₁ : m₁.regs.iena = true := by
      obtain ⟨a, b, c, f, g, sp, pc, memory, ipc, ir, blockBytes, rfl⟩ := eq_of_privileged hkept
      exact hiena
    have hblamed : Sealed hidden { m₁ with regs := m₁.regs.blame cause m₁.ipc } :=
      hsealed.of_eq rfl rfl
    have hdeliver := hblamed.alike_deliver cause fun hpresent =>
      absurd (hpresent.symm.trans (present_blame hu hr)) nofun
    refine Alike.bind (hdeliver.of_moved rfl (raiseException_of_iena cause hiena₁) fun ram => ?_)
      fun _ _ _ => .of_apart (fun _ => rfl) rfl
    exact raiseException_of_iena (m := m₁.withRam ram) cause hiena₁

theorem Sealed.alike_step {m : Machine} (h : m.Sealed hidden) (hu : m.regs.user = true)
    (hiena : m.regs.iena = true)
    (hk : ∀ memory, m.Midway memory → memory.ram.Secures hidden m.regs.space)
    (hn : (stateOf (step m)).memory.tlb.epoch < UInt64.size) : Alike hidden step m := by
  obtain ⟨cycle, timer, bridge, journal, hturn⟩ := m.turn_eq
  have hmoved (ram : Ram) : step (m.withRam ram) = m.turn.1.rest (m.turn.2.withRam ram) := by
    have hblind := m.turn_blind { m.memory with ram }
    rw [step_of_iena (m := m.withRam ram) hiena]
    rw [withRam, hblind, withRam]
    congr 2
    rw [hturn]
  rw [step_of_iena hiena] at hn
  refine Alike.of_moved ?_ (by rw [hturn]) (step_of_iena hiena) hmoved
  have h' : m.turn.2.Sealed hidden := h.of_eq (by rw [hturn]) (by rw [hturn])
  have hregs : m.turn.2.memory = m.memory ∧ m.turn.2.regs.space = m.regs.space ∧
      m.turn.2.regs.kernelSp = m.regs.ssp ∧ m.turn.2.regs.pc = m.regs.pc ∧
      m.turn.2.regs.user = true ∧ m.turn.2.regs.iena = true := by
    rw [hturn]
    exact ⟨rfl, rfl, if_pos hu, rfl, hu, hiena⟩
  obtain ⟨hmem, hspace, hkernel, hpc, hu', hiena'⟩ := hregs
  cases hturned : m.turn.1 with
  | interrupt cause =>
    refine Alike.bind (h'.alike_raiseInterrupt cause fun hpresent memory hpush => ?_) fun _ _ _ =>
      .of_apart (fun _ => rfl) rfl
    rw [hmem, hspace, hkernel, hpc] at hpush
    rw [hpc] at hpresent
    rw [hspace]
    exact hk memory (.interrupt hturned hpresent hpush)
  | quiet ended =>
    cases ended with
    | some flow => exact .of_apart (fun _ => rfl) rfl
    | none =>
      rw [hturned] at hn
      refine h'.alike_executeGuarded hu' hiena' (fun i op m₁ m₂ hfetch hop hbetween => ?_) hn
      rw [hspace]
      exact hk _ (.chunk hturned hfetch hop hbetween)

/-! ## Protected bytes -/

/-- Whether a byte is out of sight of user mode: it is not in the directory, nor in a table that the
directory refers to, nor in a page that both entries open to user mode, nor in one that the
translation buffer lets user mode read. -/
structure Protected (m : Machine) (i : Nat) : Prop where
  tables : m.memory.ram.Secures (· = i) m.regs.space
  entries : ∀ (page : UInt32) mapping, m.memory.tlb.entries[page]? = some mapping →
    mapping.grants (Memory.rightOf .load true) = true → InSight (· = i) mapping.frame

/-- A machine whose hidden bytes are all protected. -/
theorem sealed_of_protected {m : Machine} (hi : m.Inside) (hc : m.memory.Coherent)
    (hp : m.regs.space.paging = true) (h : ∀ i, hidden i → m.Protected i) : m.Sealed hidden :=
  { caches := ⟨hi, hc, fun page mapping he hu k hk hh =>
      (h _ hh).entries page mapping he
        (by simp [Mapping.grants, Memory.rightOf, Access.writes, hu]) k hk rfl⟩
    paging := hp
    tables := .of_forall fun i hh => (h i hh).tables }

end Machine

open Machine

/-- The page cache of a reachable machine holds nothing that the translation buffer does not back. -/
theorem Run.coherent {start m : Machine} {t : Tally} (h : Run start t m)
    (hs : start.memory.Coherent) : m.memory.Coherent := by
  induction h with
  | start => exact hs
  | @step t m m' flow _ hstep ih =>
    have hc := Blind.closed.step.coherent m ih
    rwa [hstep] at hc
  | outside bridge timer _ ih => exact ih

/-- What user mode reads is isolated. Of two machines that differ in protected bytes only, a step of
user mode brings the one where it brings the other, and they differ in no more bytes than before. The
step may change the tables on its way, where a chunk of a block operation is done and another follows
and where an interrupt has stored an odd program counter: what was protected before must be so by
these tables as well. -/
theorem user_reads_isolated {m₀ m : Machine} {pc sp : UInt32} {t : Tally}
    (hpaged : m₀.memory.ram.Paged) (h : Run (m₀.reset pc sp) t m) (hu : m.regs.user = true)
    (hp : m.regs.space.paging = true) (hn : (stateOf (step m)).memory.tlb.epoch < UInt64.size)
    (hkept : ∀ memory, m.Midway memory → ∀ i, m.Protected i →
      memory.ram.Secures (· = i) m.regs.space)
    {ram : Ram} (hsize : ram.bytes.size = m.memory.ram.bytes.size)
    (hprotected : ∀ i, ram.byte i ≠ m.memory.ram.byte i → m.Protected i) :
    ∃ ram', step (m.withRam ram) = mapState (·.withRam ram') (step m) ∧
      ram'.bytes.size = (stateOf (step m)).memory.ram.bytes.size ∧
      ∀ i, ram'.byte i ≠ (stateOf (step m)).memory.ram.byte i →
        m.Protected i ∧ ram.byte i ≠ m.memory.ram.byte i := by
  have hg : m.signals.Guarded := h.guarded (guarded_reset pc sp m₀)
  have hi : m.Inside := h.inside (inside_reset hpaged pc sp)
  have hc : m.memory.Coherent := h.coherent (m₀.memory.coherent_flush)
  let hidden (i : Nat) : Prop := ram.byte i ≠ m.memory.ram.byte i
  have hsealed : m.Sealed hidden := sealed_of_protected hi hc hp hprotected
  have hsame : Ram.SameBut hidden m.memory.ram ram := ⟨hsize, fun i hh => Classical.not_not.1 hh⟩
  obtain ⟨ram', hsame', heq⟩ := hsealed.alike_step hu (hg.user hu)
    (fun memory hmid => .of_forall fun i hh => hkept memory hmid i (hprotected i hh)) hn ram hsame
  refine ⟨ram', heq, hsame'.size, fun i hne => ?_⟩
  have hh : hidden i := Classical.not_not.1 fun hh => hne (hsame'.byte i hh)
  exact ⟨hprotected i hh, hh⟩

/-! ## A program that owns its page table -/

/-- The tables of the program show user mode nothing of the last page. -/
theorem Ram.Hosts.secures {ram : Ram} {load : UInt32} (h : ram.Hosts load) {i : Nat}
    (hi : 0x3000 ≤ i) : ram.Secures (· = i) { paging := true, directory := some 0 } := by
  have hpde (vaddr : UInt32) (hp : (ram.directoryEntry 0 vaddr).present = true) :
      ram.directoryEntry 0 vaddr = ⟨0x1067⟩ := by
    have hslot : (PageEntry.directorySlot 0 vaddr).toNat = vaddr.toNat / 4194304 * 4 := by
      rw [PageEntry.directorySlot_toNat (by decide)]
      exact Nat.zero_add _
    have hv := vaddr.toNat_lt
    have hne : ram.read32 (PageEntry.directorySlot 0 vaddr) ≠ 0 := by
      intro hz
      rw [directoryEntry, entry, hz] at hp
      cases hp
    rcases h.entry_of_ne (by omega) (by omega) hne with he | ⟨hle, -⟩
    · exact congrArg PageEntry.mk he
    · omega
  have hbase : (PageEntry.mk 0x1067).base.toNat = 0x1000 := by decide
  have hbase' : (PageEntry.mk 0x2067).base.toNat = 0x2000 := by decide
  refine ⟨fun directory hd => ?_, fun directory vaddr hd hp => ?_,
    fun directory vaddr hd hp _ hp' _ => ?_⟩
  all_goals
    obtain rfl := Option.some.inj hd
    intro k hk he
  case refine_1 =>
    rw [show (0 : UInt32).toNat = 0 from rfl] at he
    omega
  case refine_2 =>
    rw [hpde vaddr hp, hbase] at he
    omega
  case refine_3 =>
    have hslot := PageEntry.tableSlot_toNat ⟨0x1067⟩ vaddr
    rw [hbase] at hslot
    rw [tableEntry, hpde vaddr hp] at hp' he
    have hne : ram.read32 (PageEntry.tableSlot ⟨0x1067⟩ vaddr) ≠ 0 := by
      intro hz
      rw [entry, hz] at hp'
      cases hp'
    rcases h.entry_of_ne (by omega) (by omega) hne with hw | ⟨-, hw⟩
    · rw [entry, hw, hbase] at he
      omega
    · rw [entry, hw, hbase'] at he
      omega

/-- The last page is protected from the program. -/
theorem Ram.Hosts.protected {ram : Ram} {load : UInt32} (h : ram.Hosts load) {i : Nat}
    (hi : 0x3000 ≤ i) : (copyDue ram load).Protected i := by
  refine ⟨h.secures hi, fun page mapping he _ k hk heq => ?_⟩
  have hheld := Tlb.getElem?_holding.symm.trans he
  split at hheld
  · obtain rfl := Option.some.inj hheld
    have hframe : program.frame.toNat = 0x2000 := rfl
    omega
  · cases hheld

/-- A copy of one word leaves the tables as they are where it is not over. -/
theorem Ram.Hosts.midway {ram : Ram} (h : ram.Hosts 0x423) {memory : Memory}
    (hm : (copyDue ram 0x423).Midway memory) : memory.ram = ram := by
  have hturn : (copyDue ram 0x423).turn = (.quiet none, (copyDue ram 0x423).counted) := by
    have hdue : ¬(copyDue ram 0x423).counted.regs.cycle % pollInterval.toUInt64 = 0 := by
      show ¬(7 + 1 : UInt64) % pollInterval.toUInt64 = 0
      decide
    rw [turn, if_neg hdue]
  cases hm with
  | @chunk i op m₁ m₂ hquiet hfetch hop hbetween =>
    rw [hturn, h.fetch] at hfetch
    obtain ⟨rfl, rfl⟩ := EStateM.Result.ok.inj hfetch
    have hcopy : (Instruction.mk 10).operation? = some (.block .copy) := by decide +kernel
    obtain rfl : BlockOp.copy = op :=
      Operation.block.inj (Option.some.inj (hcopy.symm.trans hop))
    obtain ⟨m₃, -, hchunk, hrest, hc⟩ := hbetween
    rw [h.chunk length_of_four] at hchunk
    obtain ⟨-, rfl⟩ := EStateM.Result.ok.inj hchunk
    cases hrest with
    | refl => exact absurd left_of_four hc
    | chunk hb hne => exact absurd left_of_four hne
  | interrupt hinterrupt =>
    rw [hturn] at hinterrupt
    cases hinterrupt

/-- The program copies a word, with the one key and with the other. -/
theorem user_reads_isolated_copying :
    ∃ ram₀ ram₁ t m ram', ram₀.Paged ∧ Run ((hosting ram₀).reset 0x2000 0x2f00) t m ∧
      m.regs.user = true ∧ m.regs.space.paging = true ∧
      (stateOf (step m)).memory.tlb.epoch < UInt64.size ∧
      (∀ memory, m.Midway memory → ∀ i, m.Protected i → memory.ram.Secures (· = i) m.regs.space) ∧
      ram₁.read32 0x3000 ≠ m.memory.ram.read32 0x3000 ∧
      (∀ i, ram₁.byte i ≠ m.memory.ram.byte i → m.Protected i) ∧
      step (m.withRam ram₁) = mapState (·.withRam ram') (step m) ∧
      ∀ i, ram'.byte i ≠ (stateOf (step m)).memory.ram.byte i →
        m.Protected i ∧ ram₁.byte i ≠ m.memory.ram.byte i := by
  have h := Ram.hosts_tenant 0x423 0
  have hsize : (Ram.tenant 0x423 1).bytes.size = (Ram.tenant 0x423 0).bytes.size :=
    (Ram.hosts_tenant 0x423 1).size.trans h.size.symm
  have hkey := Ram.read32_key 0x423 0
  have hkey' := Ram.read32_key 0x423 1
  have hbyte (i : Nat) (hi : (Ram.tenant 0x423 1).byte i ≠ (Ram.tenant 0x423 0).byte i) : 0x3000 ≤ i :=
    (Ram.byte_tenant_of_ne hi).1
  generalize Ram.tenant 0x423 0 = ram₀ at *
  generalize Ram.tenant 0x423 1 = ram₁ at *
  obtain ⟨t, hrun⟩ := h.run (by decide +kernel)
  have hprotected (i : Nat) (hi : ram₁.byte i ≠ ram₀.byte i) : (copyDue ram₀ 0x423).Protected i :=
    h.protected (hbyte i hi)
  have hkept (memory : Memory) (hm : (copyDue ram₀ 0x423).Midway memory) (i : Nat)
      (hi : (copyDue ram₀ 0x423).Protected i) :
      memory.ram.Secures (· = i) { paging := true, directory := some 0 } := by
    rw [h.midway hm]
    exact hi.tables
  obtain ⟨ram', hstep, -, hdiffer⟩ :=
    user_reads_isolated h.paged hrun rfl rfl h.epoch_of_four hkept hsize hprotected
  refine ⟨ram₀, ram₁, t, copyDue ram₀ 0x423, ram', h.paged, hrun, rfl, rfl, h.epoch_of_four, hkept, ?_,
    hprotected, hstep, hdiffer⟩
  show ram₁.read32 0x3000 ≠ ram₀.read32 0x3000
  rw [hkey, hkey']
  decide

/-- What the program reads when it copies two words. -/
theorem Ram.Hosts.read32_ended {ram : Ram} {load key : UInt32} (h : ram.Hosts load)
    (hkey : ram.read32 0x3000 = key) : (copyEnded ram load).memory.ram.read32 0x1010 = key := by
  have hholds (addr : UInt32) (ha : addr.toNat + 4 ≤ 16384) :
      (ram.copyWithin 0x2ffc 0x100c 4).holds addr 4 = true := by
    rw [Ram.holds, size_copyWithin]
    exact h.holds ha
  show ((ram.copyWithin 0x2ffc 0x100c 4).copyWithin 0x3000 0x1010 4).read32 0x1010 = key
  rw [read32_copyWithin (hholds _ (by decide)) (hholds _ (by decide)),
    read32_copyWithin_of_apart (h.holds (by decide)) (h.holds (by decide)) (by decide), hkey]

theorem Ram.Hosts.holds_ended {ram : Ram} {load : UInt32} (h : ram.Hosts load) :
    (copyEnded ram load).memory.ram.holds 0x1010 4 = true := by
  show ((ram.copyWithin 0x2ffc 0x100c 4).copyWithin 0x3000 0x1010 4).holds 0x1010 4 = true
  rw [Ram.holds, size_copyWithin, size_copyWithin]
  exact h.holds (by decide)

/-- The program's table is not protected from it. -/
theorem Ram.Hosts.not_protected {ram : Ram} {load : UInt32} (h : ram.Hosts load) {k : Nat}
    (hk : k < 4) : ¬(copyDue ram load).Protected (0x1010 + k) := by
  intro hprotected
  have hpde : ram.directoryEntry 0 0 = ⟨0x1067⟩ :=
    congrArg PageEntry.mk (h.word 0 (by decide) (by decide))
  refine hprotected.tables.table 0 0 rfl ?_ (0x10 + k) (by omega) ?_
  · show (ram.directoryEntry 0 0).present = true
    rw [hpde]
    rfl
  · show (ram.directoryEntry 0 0).base.toNat + (0x10 + k) = 0x1010 + k
    rw [hpde, show (PageEntry.mk 0x1067).base.toNat = 0x1000 by decide]
    omega

/-- Without the condition on its middle a step of user mode can tell machines apart that differ in
protected bytes only: the program maps the last page with the first chunk of a copy and reads the key
with the second. -/
theorem not_user_reads_isolated_midway :
    ¬∀ (m₀ m₁ m : Machine) (pc sp pc' sp' : UInt32) (t t' : Tally) (ram : Ram),
      m₀.memory.ram.Paged → m₁.memory.ram.Paged → Run (m₀.reset pc sp) t m →
      Run (m₁.reset pc' sp') t' (m.withRam ram) → m.regs.user = true →
      m.regs.space.paging = true → (stateOf (step m)).memory.tlb.epoch < UInt64.size →
      (stateOf (step (m.withRam ram))).memory.tlb.epoch < UInt64.size →
      ram.bytes.size = m.memory.ram.bytes.size →
      (∀ i, ram.byte i ≠ m.memory.ram.byte i → m.Protected i) →
      ∃ ram', step (m.withRam ram) = mapState (·.withRam ram') (step m) ∧
        ram'.bytes.size = (stateOf (step m)).memory.ram.bytes.size ∧
        ∀ i, ram'.byte i ≠ (stateOf (step m)).memory.ram.byte i →
          m.Protected i ∧ ram.byte i ≠ m.memory.ram.byte i := by
  intro hclaim
  have h := Ram.hosts_tenant 0x823 0
  have h' := Ram.hosts_tenant 0x823 1
  have hkey := Ram.read32_key 0x823 0
  have hkey' := Ram.read32_key 0x823 1
  have hbyte (i : Nat) (hi : (Ram.tenant 0x823 1).byte i ≠ (Ram.tenant 0x823 0).byte i) : 0x3000 ≤ i :=
    (Ram.byte_tenant_of_ne hi).1
  generalize Ram.tenant 0x823 0 = ram₀ at *
  generalize Ram.tenant 0x823 1 = ram₁ at *
  obtain ⟨t, hrun⟩ := h.run (by decide +kernel)
  obtain ⟨t', hrun'⟩ := h'.run (by decide +kernel)
  have hepoch {ram : Ram} (h : ram.Hosts 0x823) :
      (stateOf (step (copyDue ram 0x823))).memory.tlb.epoch < UInt64.size := by
    rw [h.step_of_eight]
    show 6 < UInt64.size
    decide
  obtain ⟨ram', hstep, -, hdiffer⟩ := hclaim (hosting ram₀) (hosting ram₁) (copyDue ram₀ 0x823) _ _ _ _
    t t' ram₁ h.paged h'.paged hrun hrun' rfl rfl (hepoch h) (hepoch h') (h'.size.trans h.size.symm)
    fun i hi => h.protected (hbyte i hi)
  rw [show (copyDue ram₀ 0x823).withRam ram₁ = copyDue ram₁ 0x823 from rfl, h.step_of_eight,
    h'.step_of_eight] at hstep
  rw [h.step_of_eight] at hdiffer
  have hram : (copyEnded ram₁ 0x823).memory.ram = ram' := by
    obtain ⟨-, hm⟩ := EStateM.Result.ok.inj hstep
    exact congrArg (·.memory.ram) hm
  have hread := h.read32_ended hkey
  have hread' := h'.read32_ended hkey'
  rw [hram] at hread'
  -- the words that were read differ, so one of their bytes does, in the page with the table
  have hne : ¬∀ k < 4, ram'.byte (0x1010 + k) =
      (copyEnded ram₀ 0x823).memory.ram.byte (0x1010 + k) := by
    intro hsame
    have hword := Ram.readsAt_read32 ram' (copyEnded ram₀ 0x823).memory.ram 0x1010
      (hram ▸ h'.holds_ended) h.holds_ended hsame
    rw [hread, hread'] at hword
    cases hword
  exact hne fun k hk => Classical.byContradiction fun hk' => h.not_protected hk (hdiffer _ hk').1

end PagedMachine
