import PagedMachine.Proofs.Brackets
import PagedMachine.Proofs.Calm
import PagedMachine.Proofs.Mirrors

/-!
# What is pushed is popped

A well-bracketed sequence does what `Bracketed.trace` says, instruction by instruction
(`stack_discipline`), if its code and its stack slots are where the tables say (`Ram.Houses`), the caches
mirror the tables (`Memory.Mirrors`) and no interrupt is delivered in between (`Machine.Calm`).

Every instruction leaves the bytes of code and of the slots in use (`Ram.held`), those of a push and of a
call but for the slot that is new. So does a whole sequence with the slots in use around it
(`Bracketed.runs`), which is why a pop finds what its push left.
-/

set_option autoImplicit false

namespace PagedMachine

/-- Whether an instruction is the one of the moment. -/
structure Moment.Encodes (x : Moment) (i : Instruction) : Prop where
  operation : i.operation? = some x.op
  immediate : ∀ v ∈ x.imm, i.imm = v

namespace Ram

/-! ## Where memory has a sequence -/

/-- The code of the moments is where `C` says and their slots are where `T` says. The slots may be
written. They overlap neither code nor tables, and different slots in use at one time do not overlap
each other. -/
structure Houses (r : Ram) (space : AddressSpace) (user : Bool) (C T : UInt32 → UInt32)
    (moments : List Moment) : Prop where
  aligned : ∀ x ∈ moments, x.pc &&& 3 = 0
  code : ∀ x ∈ moments, r.locate space x.pc .fetch user = .ok (C x.pc)
  word : ∀ x ∈ moments, x.Encodes ⟨r.read32 (C x.pc)⟩
  fixed : ∀ x ∈ moments, ∀ k < 4, r.Fixed space ((C x.pc).toNat + k)
  slot : ∀ x ∈ moments, ∀ v ∈ x.stack, r.locate space v .store user = .ok (T v)
  spares : ∀ x ∈ moments, ∀ v ∈ x.stack, ∀ k < 8, ¬r.InEntries space ((T v).toNat + k)
  apart : ∀ x ∈ moments, ∀ v ∈ x.stack, ∀ y ∈ moments,
    (T v).toNat + 8 ≤ (C y.pc).toNat ∨ (C y.pc).toNat + 4 ≤ (T v).toNat
  separate : ∀ x ∈ moments, ∀ v ∈ x.stack, ∀ w ∈ x.stack, v ≠ w →
    (T v).toNat + 8 ≤ (T w).toNat ∨ (T w).toNat + 8 ≤ (T v).toNat

/-- The bytes of the code and of the slots in use. -/
def held (C T : UInt32 → UInt32) (moments : List Moment) (stack : List UInt32) : Set Nat :=
  {i | (∃ x ∈ moments, (C x.pc).toNat ≤ i ∧ i < (C x.pc).toNat + 4) ∨
    ∃ v ∈ stack, (T v).toNat ≤ i ∧ i < (T v).toNat + 8}

section
variable {r r' : Ram} {space : AddressSpace} {user : Bool} {C T : UInt32 → UInt32}
  {moments : List Moment} {x : Moment} {stack : List UInt32} {v : UInt32}

theorem held_mono (C T : UInt32 → UInt32) (moments : List Moment) {stack stack' : List UInt32}
    (h : stack ⊆ stack') : held C T moments stack ⊆ held C T moments stack' := by
  rintro i (hi | ⟨v, hv, hi⟩)
  · exact .inl hi
  · exact .inr ⟨v, h hv, hi⟩

theorem mem_held (C T : UInt32 → UInt32) (moments : List Moment) (h : v ∈ stack) {k : Nat}
    (hk : k < 8) : (T v).toNat + k ∈ held C T moments stack :=
  .inr ⟨v, h, Nat.le_add_right .., Nat.add_lt_add_left hk _⟩

namespace Houses

/-- No walk changes code or slots. -/
theorem fixed_held (h : r.Houses space user C T moments) (hx : x ∈ moments) :
    ∀ i ∈ held C T moments x.stack, r.Fixed space i := by
  rintro i (⟨y, hy, hle, hlt⟩ | ⟨v, hv, hle, hlt⟩)
  · have hfixed := h.fixed y hy (i - (C y.pc).toNat) (by omega)
    rwa [Nat.add_sub_cancel' hle] at hfixed
  · have hspares := h.spares x hx v hv (i - (T v).toNat) (by omega)
    rw [Nat.add_sub_cancel' hle] at hspares
    exact fixed_of_not_inEntries hspares

/-- The latest slot overlaps neither code nor the other slots. -/
theorem not_mem_held (h : r.Houses space user C T moments) (hx : x ∈ moments)
    (hstack : x.stack = v :: stack) (hnodup : x.stack.Nodup) {k : Nat} (hk : k < 8) :
    (T v).toNat + k ∉ held C T moments stack := by
  have hv : v ∈ x.stack := hstack ▸ List.mem_cons_self ..
  rw [hstack, List.nodup_cons] at hnodup
  rintro (⟨y, hy, hle, hlt⟩ | ⟨w, hw, hle, hlt⟩)
  · have happart := h.apart x hx v hv y hy
    omega
  · have hother := h.separate x hx v hv w (hstack ▸ List.mem_cons_of_mem v hw) fun heq =>
      hnodup.1 (heq ▸ hw)
    omega

theorem holds_code (h : r.Houses space user C T moments) (hr : r.Paged) (hx : x ∈ moments) :
    r.holds (C x.pc) 4 = true :=
  hr.holds_of_locate (h.code x hx) (word_fits (h.aligned x hx))

/-- A sequence stays where it is while its code is kept. -/
theorem of_keeps (h : r.Houses space user C T moments) (hr : r.Paged)
    (hkeeps : r.Keeps space (held C T moments stack) r') : r'.Houses space user C T moments := by
  have hcode {x : Moment} (hx : x ∈ moments) {k : Nat} (hk : k < 4) :
      (C x.pc).toNat + k ∈ held C T moments stack :=
    .inl ⟨x, hx, Nat.le_add_right .., Nat.add_lt_add_left hk _⟩
  refine ⟨h.aligned, fun x hx => (hkeeps.locate ..).trans (h.code x hx), fun x hx => ?_,
    fun x hx k hk => hkeeps.fixed (hcode hx hk) (h.fixed x hx k hk),
    fun x hx v hv => (hkeeps.locate ..).trans (h.slot x hx v hv),
    fun x hx v hv k hk hin => h.spares x hx v hv k hk (hkeeps.inEntries_iff.1 hin), h.apart,
    h.separate⟩
  rw [hkeeps.read_eq readsAt_read32 (h.holds_code hr hx) fun k hk => hcode hx hk]
  exact h.word x hx

end Houses

end

end Ram

/-! ## What is pushed -/

/-- Whether an operation runs in every mode and does not end the run. -/
def Operation.ordinary (op : Operation) : Bool := !op.privileged && op ≠ .halt

namespace PushPop

theorem ordinary_push (pair : PushPop) : pair.push.ordinary = true := by
  rcases pair with ⟨src | v, dst⟩ | ⟨src, dst⟩ <;> rfl

theorem ordinary_pop (pair : PushPop) : pair.pop.ordinary = true := by
  rcases pair with ⟨src, dst⟩ | ⟨src, dst⟩ <;> rfl

theorem restore_keeps (pair : PushPop) (r r' : Registers) :
    (pair.restore r r').space = r'.space ∧ (pair.restore r r').user = r'.user := by
  rcases pair with ⟨src, _ | _ | _⟩ | ⟨src, _ | _⟩ <;> exact ⟨rfl, rfl⟩

/-- Puts what is pushed from `r` to `pa`. -/
def write (pair : PushPop) (r : Registers) (pa : UInt32) (ram : Ram) : Ram :=
  match pair with
  | .word src _ => ram.write32 pa (src.value r)
  | .double src _ => ram.write64 pa (r.float src).bits

/-- Whether what was pushed from `r` is at `pa`. -/
def IsAt (pair : PushPop) (r : Registers) (pa : UInt32) (ram : Ram) : Prop :=
  match pair with
  | .word src _ => ram.read32 pa = src.value r
  | .double src _ => ram.read64 pa = (r.float src).bits

variable (pair : PushPop) (r : Registers) {pa : UInt32} {ram : Ram}

theorem size_write (pa : UInt32) (ram : Ram) :
    (pair.write r pa ram).bytes.size = ram.bytes.size := by
  cases pair with
  | word src dst => exact Ram.size_write32 ..
  | double src dst => exact Ram.size_write64 ..

theorem byte_write (ram : Ram) {i : Nat} (hi : i < pa.toNat ∨ pa.toNat + 8 ≤ i) :
    (pair.write r pa ram).byte i = ram.byte i := by
  cases pair with
  | word src dst => exact Ram.byte_write32_of_disjoint (by omega) _
  | double src dst => exact Ram.byte_write64_of_disjoint hi _

theorem isAt_write (h : ram.holds pa 8 = true) : pair.IsAt r pa (pair.write r pa ram) := by
  cases pair with
  | word src dst =>
    rw [Ram.holds_iff] at h
    exact Ram.read32_write32 (Ram.holds_iff.2 (by omega)) _
  | double src dst => exact Ram.read64_write64 h _

variable {pair r}

theorem isAt_congr {r' : Registers} (hint : r'.int = r.int) (hfloat : r'.float = r.float) :
    pair.IsAt r' pa ram ↔ pair.IsAt r pa ram := by
  rcases pair with ⟨src | v, dst⟩ | ⟨src, dst⟩
  · rw [IsAt, IsAt, Source.value, Source.value, hint]
  · rfl
  · rw [IsAt, IsAt, hfloat]

theorem IsAt.of_keeps (h : pair.IsAt r pa ram) {space : AddressSpace} {kept : Set Nat} {ram' : Ram}
    (hkeeps : ram.Keeps space kept ram') (hholds : ram.holds pa 8 = true)
    (hkept : ∀ k < 8, pa.toNat + k ∈ kept) : pair.IsAt r pa ram' := by
  cases pair with
  | word src dst =>
    rw [Ram.holds_iff] at hholds
    exact (hkeeps.read_eq Ram.readsAt_read32 (Ram.holds_iff.2 (by omega))
      fun k hk => hkept k (by omega)).trans h
  | double src dst => exact (hkeeps.read_eq Ram.readsAt_read64 hholds hkept).trans h

end PushPop

namespace Machine

/-! ## Pushing and popping -/

section
variable {m : Machine} {pa : UInt32} {memory : Memory}

theorem push_of_resolved (hr : Memory.resolve m.regs.space .stack m.regs.nextSlot .store m.regs.user
      m.memory = .ok pa memory) (v : UInt32) :
    push v m = .ok () { m with
      regs := { m.regs with sp := m.regs.sp - 8 }, memory := memory.mapRam (·.write32 pa v) } := by
  rw [push, bind_apply, getRegs_apply]
  dsimp only
  rw [bind_apply, resolve_apply]
  rw [show alignTo8 (m.regs.sp - 8) = m.regs.nextSlot from rfl, hr]
  rfl

theorem pushFloat_of_resolved (hr : Memory.resolve m.regs.space .stack m.regs.nextSlot .store
      m.regs.user m.memory = .ok pa memory) (v : Double) :
    pushFloat v m = .ok () { m with
      regs := { m.regs with sp := m.regs.sp - 8 }
      memory := memory.mapRam (·.write64 pa v.bits) } := by
  rw [pushFloat, bind_apply, getRegs_apply]
  dsimp only
  rw [bind_apply, resolve_apply]
  rw [show alignTo8 (m.regs.sp - 8) = m.regs.nextSlot from rfl, hr]
  rfl

theorem readSlot_of_resolved {vaddr : UInt32} (hr : Memory.resolve m.regs.space .stack
      (alignTo8 vaddr) .load m.regs.user m.memory = .ok pa memory) :
    readSlot vaddr m = .ok (memory.ram.read32 pa) { m with memory } := by
  rw [readSlot, bind_apply, resolve_apply, hr]
  rfl

theorem pop_of_resolved (hr : Memory.resolve m.regs.space .stack (alignTo8 m.regs.sp) .load
      m.regs.user m.memory = .ok pa memory) :
    pop m = .ok (memory.ram.read32 pa)
      { m with regs := { m.regs with sp := m.regs.sp + 8 }, memory } := by
  rw [pop, bind_apply, getRegs_apply]
  dsimp only
  rw [bind_apply, readSlot_of_resolved hr]
  rfl

theorem popFloat_of_resolved (hr : Memory.resolve m.regs.space .stack (alignTo8 m.regs.sp) .load
      m.regs.user m.memory = .ok pa memory) :
    popFloat m = .ok ⟨memory.ram.read64 pa⟩
      { m with regs := { m.regs with sp := m.regs.sp + 8 }, memory } := by
  rw [popFloat, bind_apply, getRegs_apply]
  dsimp only
  rw [bind_apply, resolve_apply, hr]
  rfl

theorem perform_push (pair : PushPop) {i : Instruction} (himm : ∀ v ∈ pair.immediate, i.imm = v)
    (hr : Memory.resolve m.regs.space .stack m.regs.nextSlot .store m.regs.user m.memory =
      .ok pa memory) :
    perform pair.push i m = .ok () { m with
      regs := { m.regs with sp := m.regs.sp - 8 }, memory := memory.mapRam (pair.write m.regs pa) } := by
  rw [perform, bind_apply, getRegs_apply]
  dsimp only
  cases pair with
  | word src dst =>
    cases src with
    | register src =>
      show (liftM (push (m.regs.int src)) : Exec Unit) m = _
      rw [liftGuarded_apply, push_of_resolved hr]
      rfl
    | immediate v =>
      obtain rfl := himm v rfl
      show (liftM (push i.imm) : Exec Unit) m = _
      rw [liftGuarded_apply, push_of_resolved hr]
      rfl
  | double src dst =>
    show (liftM (pushFloat (m.regs.float src)) : Exec Unit) m = _
    rw [liftGuarded_apply, pushFloat_of_resolved hr]
    rfl

theorem perform_pop (pair : PushPop) (i : Instruction) {r : Registers}
    (hr : Memory.resolve m.regs.space .stack (alignTo8 m.regs.sp) .load m.regs.user m.memory =
      .ok pa memory) (hat : pair.IsAt r pa memory.ram) :
    perform pair.pop i m = .ok ()
      { m with regs := { pair.restore r m.regs with sp := m.regs.sp + 8 }, memory } := by
  cases pair with
  | word src dst =>
    rw [PushPop.pop, perform, bind_apply, getRegs_apply]
    dsimp only
    rw [bind_apply, liftGuarded_apply, pop_of_resolved hr]
    dsimp only
    rw [show memory.ram.read32 pa = src.value r from hat]
    cases dst <;> rfl
  | double src dst =>
    rw [PushPop.pop, perform, bind_apply, getRegs_apply]
    dsimp only
    rw [bind_apply, liftGuarded_apply, popFloat_of_resolved hr]
    dsimp only
    rw [show memory.ram.read64 pa = (r.float src).bits from hat]
    cases dst <;> rfl

theorem perform_call (callee : Callee) {i : Instruction} (himm : ∀ v ∈ callee.immediate, i.imm = v)
    (hr : Memory.resolve m.regs.space .stack m.regs.nextSlot .store m.regs.user m.memory =
      .ok pa memory) :
    let target := match callee with
      | .relative offset => m.regs.pc + offset
      | .indirect => m.regs.a
    perform callee.operation i m = .ok () { m with
      regs := { m.regs with pc := target, sp := m.regs.sp - 8 }
      memory := memory.mapRam (·.write32 pa m.regs.pc) } := by
  cases callee with
  | relative offset =>
    obtain rfl := himm offset rfl
    rw [Callee.operation, perform, bind_apply, getRegs_apply]
    dsimp only
    rw [bind_apply, liftGuarded_apply, push_of_resolved hr]
    rfl
  | indirect =>
    rw [Callee.operation, perform, bind_apply, getRegs_apply]
    dsimp only
    rw [bind_apply, liftGuarded_apply, push_of_resolved hr]
    rfl

theorem perform_leave (i : Instruction) (hr : Memory.resolve m.regs.space .stack
      (alignTo8 (m.regs.sp + i.imm)) .load m.regs.user m.memory = .ok pa memory) :
    perform .leave i m = .ok () { m with
      regs := { m.regs with pc := memory.ram.read32 pa, sp := m.regs.sp + i.imm + 8 }, memory } := by
  rw [perform, bind_apply, getRegs_apply]
  dsimp only
  rw [bind_apply, liftGuarded_apply, readSlot_of_resolved hr]
  rfl

end

/-! ## Single instructions -/

/-- A machine with a sequence in memory, whose caches mirror the tables. -/
structure Prepared (space : AddressSpace) (user : Bool) (C T : UInt32 → UInt32)
    (moments : List Moment) (n : Nat) (m : Machine) : Prop where
  space_eq : m.regs.space = space
  user_eq : m.regs.user = user
  mirrors : m.memory.Mirrors space n
  houses : m.memory.ram.Houses space user C T moments
  nodup : ∀ x ∈ moments, x.stack.Nodup

section
variable {space : AddressSpace} {user : Bool} {C T : UInt32 → UInt32} {moments : List Moment}
  {n : Nat} {m : Machine} {r : Registers} {host : Bridge → Bridge}
  {hosts : List (Bridge → Bridge)} {x : Moment} {stack : List UInt32} {v : UInt32}

namespace Prepared

theorem mono (h : m.Prepared space user C T moments n) {n' : Nat} (hn : n' ≤ n) :
    m.Prepared space user C T moments n' :=
  ⟨h.space_eq, h.user_eq, h.mirrors.mono hn, h.houses, h.nodup⟩

/-- The next step runs the instruction of the moment at the program counter. -/
theorem fetch (h : m.Prepared space user C T moments (n + 1)) (hr : m.regs.settled = r)
    (hcalm : m.Calm (host :: hosts)) (hx : x ∈ moments) (hpc : x.pc = r.pc)
    (hop : x.op.ordinary = true) :
    ∃ i fetched, x.Encodes i ∧ fetched.regs.settled = { r with pc := r.pc + 4 } ∧
      fetched.Prepared space user C T moments n ∧
      m.memory.ram.Keeps space (Ram.held C T moments x.stack) fetched.memory.ram ∧
      ∀ m', perform x.op i fetched = .ok () m' →
        step (m.hosted host) = .ok .go m' ∧ m'.Calm hosts := by
  obtain ⟨m₁, htick, hcalm⟩ := hcalm
  have hmemory : m₁.memory = m.memory := congrArg Prod.fst (still_tick htick)
  have hregs : m₁.regs.settled = r := (congrArg Prod.snd (still_tick htick)).trans hr
  have hspace : m₁.regs.space = space :=
    (congrArg Registers.space (hregs.trans hr.symm)).trans h.space_eq
  have huser : m₁.regs.user = user :=
    (congrArg Registers.user (hregs.trans hr.symm)).trans h.user_eq
  replace hpc : x.pc = m₁.regs.pc := hpc.trans (congrArg Registers.pc hregs).symm
  obtain ⟨memory, hresolve, hmirrors, hkeeps⟩ := h.mirrors.resolve_of_locate .code
    (h.houses.code x hx) (h.houses.fixed_held hx)
  have hhouses := h.houses.of_keeps h.mirrors.paged hkeeps
  rw [← hspace, ← huser, ← hmemory, hpc] at hresolve
  have hfetch := fetch_of_resolved (hpc ▸ h.houses.aligned x hx) hresolve
  have hword := hhouses.word x hx
  rw [hpc] at hword
  have hidle : x.op ≠ .idle := fun hidle => by rw [hidle] at hop; cases hop
  simp only [Operation.ordinary, Bool.and_eq_true, Bool.not_eq_true', decide_eq_true_eq] at hop
  obtain ⟨hmode, hhalt⟩ := hop
  have hnext := executeNext_of_fetch hfetch hword.operation fun _ => hmode
  let i : Instruction := ⟨memory.ram.read32 (C m₁.regs.pc)⟩
  let fetched : Machine :=
    { m₁ with regs := { m₁.regs with pc := m₁.regs.pc + 4 }, memory, ipc := m₁.regs.pc, ir := i }
  refine ⟨i, fetched, hword, congrArg (fun q : Registers => { q with pc := q.pc + 4 }) hregs,
    ⟨hspace, huser, hmirrors, hhouses, h.nodup⟩, hkeeps, fun m' hperform => ?_⟩
  have hguarded : executeGuarded m₁ = .ok .go m' := by
    rw [executeGuarded, hnext, execute_of_perform hhalt hidle hperform]
  exact ⟨(step_of_tick htick).trans hguarded, hcalm m' hguarded⟩

/-- A slot in use is found where it is. -/
theorem load (h : m.Prepared space user C T moments (n + 1)) (hx : x ∈ moments) (hv : v ∈ x.stack) :
    ∃ memory, Memory.resolve m.regs.space .stack v .load m.regs.user m.memory = .ok (T v) memory ∧
      memory.Mirrors space n ∧ memory.ram.Houses space user C T moments ∧
      m.memory.ram.Keeps space (Ram.held C T moments x.stack) memory.ram := by
  obtain ⟨memory, hresolve, hmirrors, hkeeps⟩ := h.mirrors.resolve_of_locate .stack
    (Ram.locate_load (h.houses.slot x hx v hv)) (h.houses.fixed_held hx)
  rw [← h.space_eq, ← h.user_eq] at hresolve
  exact ⟨memory, hresolve, hmirrors, h.houses.of_keeps h.mirrors.paged hkeeps, hkeeps⟩

/-- What is stored to the latest slot leaves the others and the code. -/
theorem store (h : m.Prepared space user C T moments (n + 1)) (hx : x ∈ moments)
    (hstack : x.stack = v :: stack) (hfits : v.toNat % 4096 + 8 ≤ 4096) {fn : Ram → Ram}
    (hsize : ∀ r, (fn r).bytes.size = r.bytes.size)
    (hbyte : ∀ r i, (i < (T v).toNat ∨ (T v).toNat + 8 ≤ i) → (fn r).byte i = r.byte i) :
    ∃ memory, Memory.resolve m.regs.space .stack v .store m.regs.user m.memory = .ok (T v) memory ∧
      (memory.mapRam fn).Mirrors space n ∧ (fn memory.ram).Houses space user C T moments ∧
      m.memory.ram.Keeps space (Ram.held C T moments stack) (fn memory.ram) ∧
      memory.ram.holds (T v) 8 = true := by
  have hv : v ∈ x.stack := hstack ▸ List.mem_cons_self ..
  have hsub : stack ⊆ x.stack := hstack ▸ List.subset_cons_self v stack
  have hslot := h.houses.slot x hx v hv
  obtain ⟨memory, hresolve, hmirrors, hkeeps, hsame⟩ := h.mirrors.store_of_locate .stack hslot
    (fun i hi => h.houses.fixed_held hx i (Ram.held_mono C T moments hsub hi)) hsize hbyte
    fun k hk => ⟨h.houses.spares x hx v hv k hk, h.houses.not_mem_held hx hstack (h.nodup x hx) hk⟩
  rw [← h.space_eq, ← h.user_eq] at hresolve
  refine ⟨memory, hresolve, hmirrors, h.houses.of_keeps h.mirrors.paged hkeeps, hkeeps, ?_⟩
  rw [Ram.holds, hsame]
  exact h.mirrors.paged.holds_of_locate hslot hfits

/-- A push leaves its value in the next slot. -/
theorem push (h : m.Prepared space user C T moments (n + 2)) (hr : m.regs.settled = r)
    (hcalm : m.Calm (host :: hosts)) (pair : PushPop) (hx : x ∈ moments) (hpc : x.pc = r.pc)
    (hop : x.op = pair.push) (himm : x.imm = pair.immediate) (hstack : x.stack = r.nextSlot :: stack) :
    ∃ m', step (m.hosted host) = .ok .go m' ∧ m'.Calm hosts ∧ m'.regs.settled = r.afterPush ∧
      m'.Prepared space user C T moments n ∧
      m.memory.ram.Keeps space (Ram.held C T moments stack) m'.memory.ram ∧
      pair.IsAt r (T r.nextSlot) m'.memory.ram := by
  obtain ⟨i, fetched, hi, hregs, h₁, hkeeps, hrun⟩ := h.fetch hr hcalm hx hpc (hop ▸ pair.ordinary_push)
  have hnext : fetched.regs.nextSlot = r.nextSlot := (congrArg Registers.nextSlot hregs :)
  rw [← hnext] at hstack ⊢
  obtain ⟨memory, hresolve, hmirrors, hhouses, hstored, hholds⟩ :=
    h₁.store hx hstack (alignTo8_fits _ (Nat.le_refl 8)) (pair.size_write fetched.regs _)
      fun ram k hk => pair.byte_write fetched.regs ram hk
  have hperform := perform_push pair (fun v hv => hi.immediate v (himm ▸ hv)) hresolve
  rw [← hop] at hperform
  obtain ⟨hstep, hcalm⟩ := hrun _ hperform
  refine ⟨_, hstep, hcalm, congrArg (fun q : Registers => { q with sp := q.sp - 8 }) hregs,
    ⟨h₁.space_eq, h₁.user_eq, hmirrors, hhouses, h₁.nodup⟩, ?_, ?_⟩
  · exact (hkeeps.mono (Ram.held_mono C T moments (hstack ▸ List.subset_cons_self ..))).trans hstored
  · exact (PushPop.isAt_congr (congrArg Registers.int hregs) (congrArg Registers.float hregs)).1
      (pair.isAt_write fetched.regs hholds)

/-- A pop takes the value from the latest slot. -/
theorem pop (h : m.Prepared space user C T moments (n + 2)) (hr : m.regs.settled = r)
    (hcalm : m.Calm (host :: hosts)) (pair : PushPop) (hx : x ∈ moments) (hpc : x.pc = r.pc)
    (hop : x.op = pair.pop) (hstack : x.stack = v :: stack) (hsp : alignTo8 r.sp = v) {r₀ : Registers}
    (hat : pair.IsAt r₀ (T v) m.memory.ram) :
    ∃ m', step (m.hosted host) = .ok .go m' ∧ m'.Calm hosts ∧
      m'.regs.settled = { pair.restore r₀ r with pc := r.pc + 4, sp := r.sp + 8 } ∧
      m'.Prepared space user C T moments n ∧
      m.memory.ram.Keeps space (Ram.held C T moments x.stack) m'.memory.ram := by
  have hv : v ∈ x.stack := hstack ▸ List.mem_cons_self ..
  have hholds := h.mirrors.paged.holds_of_locate (h.houses.slot x hx v hv)
    (hsp ▸ alignTo8_fits r.sp (Nat.le_refl 8))
  obtain ⟨i, fetched, hi, hregs, h₁, hkeeps, hrun⟩ := h.fetch hr hcalm hx hpc (hop ▸ pair.ordinary_pop)
  obtain ⟨memory, hresolve, hmirrors, hhouses, hkeeps'⟩ := h₁.load hx hv
  have hkept := hkeeps.trans hkeeps'
  have hat := hat.of_keeps hkept hholds fun k hk => Ram.mem_held C T moments hv hk
  obtain rfl : alignTo8 fetched.regs.sp = v :=
    (congrArg (fun q : Registers => alignTo8 q.sp) hregs).trans hsp
  have hperform := perform_pop pair i hresolve hat
  rw [← hop] at hperform
  obtain ⟨hstep, hcalm⟩ := hrun _ hperform
  obtain ⟨hspace, huser⟩ := pair.restore_keeps r₀ fetched.regs
  refine ⟨_, hstep, hcalm, ?_,
    ⟨hspace.trans h₁.space_eq, huser.trans h₁.user_eq, hmirrors, hhouses, h₁.nodup⟩, hkept⟩
  have hrestored := congrArg (fun q : Registers => { pair.restore r₀ q with sp := q.sp + 8 }) hregs
  rcases pair with ⟨src, _ | _ | _⟩ | ⟨src, _ | _⟩ <;> exact hrestored

/-- A call leaves the address behind it in the next slot. -/
theorem call (h : m.Prepared space user C T moments (n + 2)) (hr : m.regs.settled = r)
    (hcalm : m.Calm (host :: hosts)) (callee : Callee) (hx : x ∈ moments) (hpc : x.pc = r.pc)
    (hop : x.op = callee.operation) (himm : x.imm = callee.immediate)
    (hstack : x.stack = r.nextSlot :: stack) :
    ∃ m', step (m.hosted host) = .ok .go m' ∧ m'.Calm hosts ∧
      m'.regs.settled = r.afterCall callee ∧ m'.Prepared space user C T moments n ∧
      m.memory.ram.Keeps space (Ram.held C T moments stack) m'.memory.ram ∧
      m'.memory.ram.read32 (T r.nextSlot) = r.pc + 4 := by
  obtain ⟨i, fetched, hi, hregs, h₁, hkeeps, hrun⟩ :=
    h.fetch hr hcalm hx hpc (by rw [hop]; cases callee <;> rfl)
  have hnext : fetched.regs.nextSlot = r.nextSlot := (congrArg Registers.nextSlot hregs :)
  rw [← hnext] at hstack ⊢
  let pa := T fetched.regs.nextSlot
  have hbyte (ram : Ram) (k : Nat) (hk : k < pa.toNat ∨ pa.toNat + 8 ≤ k) :
      (ram.write32 pa fetched.regs.pc).byte k = ram.byte k :=
    Ram.byte_write32_of_disjoint (by omega) _
  obtain ⟨memory, hresolve, hmirrors, hhouses, hstored, hholds⟩ :=
    h₁.store hx hstack (alignTo8_fits _ (Nat.le_refl 8)) (Ram.size_write32 · pa _) hbyte
  have hperform := perform_call callee (fun v hv => hi.immediate v (himm ▸ hv)) hresolve
  rw [← hop] at hperform
  obtain ⟨hstep, hcalm⟩ := hrun _ hperform
  refine ⟨_, hstep, hcalm, ?_, ⟨h₁.space_eq, h₁.user_eq, hmirrors, hhouses, h₁.nodup⟩, ?_, ?_⟩
  · cases callee with
    | relative offset =>
      exact congrArg (fun q : Registers => { q with pc := q.pc + offset, sp := q.sp - 8 }) hregs
    | indirect => exact congrArg (fun q : Registers => { q with pc := q.a, sp := q.sp - 8 }) hregs
  · exact (hkeeps.mono (Ram.held_mono C T moments (hstack ▸ List.subset_cons_self ..))).trans hstored
  · rw [Ram.holds_iff] at hholds
    exact (Ram.read32_write32 (Ram.holds_iff.2 (by omega)) _).trans (congrArg Registers.pc hregs)

/-- Room for locals is made without a look at the stack. -/
theorem enter (h : m.Prepared space user C T moments (n + 2)) (hr : m.regs.settled = r)
    (hcalm : m.Calm (host :: hosts)) (locals : UInt32) (hx : x ∈ moments) (hpc : x.pc = r.pc)
    (hop : x.op = .enter) (himm : x.imm = some (0 - locals)) :
    ∃ m', step (m.hosted host) = .ok .go m' ∧ m'.Calm hosts ∧
      m'.regs.settled = r.afterEnter locals ∧ m'.Prepared space user C T moments n ∧
      m.memory.ram.Keeps space (Ram.held C T moments x.stack) m'.memory.ram := by
  obtain ⟨i, fetched, hi, hregs, h₁, hkeeps, hrun⟩ := h.fetch hr hcalm hx hpc (by rw [hop]; rfl)
  have hi := hi.immediate (0 - locals) himm
  have hperform : perform .enter i fetched =
      .ok () { fetched with regs := { fetched.regs with sp := fetched.regs.sp + i.imm } } := rfl
  rw [← hop] at hperform
  obtain ⟨hstep, hcalm⟩ := hrun _ hperform
  refine ⟨_, hstep, hcalm, ?_,
    ⟨h₁.space_eq, h₁.user_eq, h₁.mirrors.mono (Nat.le_succ n), h₁.houses, h₁.nodup⟩, hkeeps⟩
  have hsub : r.sp + (0 - locals) = r.sp - locals := by grind
  rw [Registers.afterEnter, ← hsub, ← hi]
  exact congrArg (fun q : Registers => { q with sp := q.sp + i.imm }) hregs

/-- A return takes the address from the latest slot. -/
theorem leave (h : m.Prepared space user C T moments (n + 2)) (hr : m.regs.settled = r)
    (hcalm : m.Calm (host :: hosts)) (locals : UInt32) (hx : x ∈ moments) (hpc : x.pc = r.pc)
    (hop : x.op = .leave) (himm : x.imm = some locals) (hstack : x.stack = v :: stack)
    (hsp : alignTo8 (r.sp + locals) = v) {ret : UInt32} (hat : m.memory.ram.read32 (T v) = ret) :
    ∃ m', step (m.hosted host) = .ok .go m' ∧ m'.Calm hosts ∧
      m'.regs.settled = { r with pc := ret, sp := r.sp + locals + 8 } ∧
      m'.Prepared space user C T moments n ∧
      m.memory.ram.Keeps space (Ram.held C T moments x.stack) m'.memory.ram := by
  have hv : v ∈ x.stack := hstack ▸ List.mem_cons_self ..
  have hholds := h.mirrors.paged.holds_of_locate (h.houses.slot x hx v hv)
    (hsp ▸ alignTo8_fits (r.sp + locals) (show 4 ≤ 8 by decide))
  obtain ⟨i, fetched, hi, hregs, h₁, hkeeps, hrun⟩ := h.fetch hr hcalm hx hpc (by rw [hop]; rfl)
  obtain ⟨memory, hresolve, hmirrors, hhouses, hkeeps'⟩ := h₁.load hx hv
  have hkept := hkeeps.trans hkeeps'
  have hread := (hkept.read_eq Ram.readsAt_read32 hholds fun k hk =>
    Ram.mem_held C T moments hv (by omega)).trans hat
  obtain rfl : i.imm = locals := hi.immediate locals himm
  obtain rfl : alignTo8 (fetched.regs.sp + i.imm) = v :=
    (congrArg (fun q : Registers => alignTo8 (q.sp + i.imm)) hregs).trans hsp
  have hperform := perform_leave i hresolve
  rw [← hop, hread] at hperform
  obtain ⟨hstep, hcalm⟩ := hrun _ hperform
  exact ⟨_, hstep, hcalm,
    congrArg (fun q : Registers => { q with pc := ret, sp := q.sp + i.imm + 8 }) hregs,
    ⟨h₁.space_eq, h₁.user_eq, hmirrors, hhouses, h₁.nodup⟩, hkept⟩

end Prepared

/-! ## Sequences -/

theorem exists_append_cons {α : Type} {l : List α} {a b : Nat} (h : l.length = a + (b + 1)) :
    ∃ l₁ x l₂, l = l₁ ++ x :: l₂ ∧ l₁.length = a ∧ l₂.length = b := by
  have ha : a < l.length := by omega
  refine ⟨l.take a, l[a], l.drop (a + 1), ?_, ?_, ?_⟩
  · rw [← List.drop_eq_getElem_cons, List.take_append_drop]
  · rw [List.length_take]
    omega
  · rw [List.length_drop]
    omega

end

end Machine

namespace Bracketed

open Machine

/-- Whether a sequence does what it is meant to do, wherever memory has it, and leaves code and the slots
in use around it. -/
def Runs (s : Bracketed) : Prop :=
  ∀ {space : AddressSpace} {user : Bool} {C T : UInt32 → UInt32} {moments : List Moment} {n : Nat}
    {m : Machine} {r : Registers} {hosts more : List (Bridge → Bridge)} {stack : List UInt32},
    m.Prepared space user C T moments (n + 2 * hosts.length) → m.regs.settled = r →
    m.Calm (hosts ++ more) → hosts.length = (s.trace stack r).length →
    (∀ x ∈ s.trace stack r, x ∈ moments) →
    ∃ m', Steps hosts m ((s.trace stack r).map (·.regs)) m' ∧ m'.Calm more ∧
      m'.regs.settled = s.after r ∧ m'.Prepared space user C T moments n ∧
      m.memory.ram.Keeps space (Ram.held C T moments stack) m'.memory.ram

theorem runs_nil : nil.Runs := by
  intro space user C T moments n m r hosts more stack h hr hcalm hlength _
  obtain rfl := List.length_eq_zero_iff.1 hlength
  exact ⟨m, .none m, hcalm, hr, h, .refl ..⟩

variable {body rest : Bracketed}

/-- A pop finds what its push left, as the body leaves it. -/
theorem Runs.pushed (hbody : body.Runs) (hrest : rest.Runs) (pair : PushPop) :
    (pushed pair body rest).Runs := by
  intro space user C T moments n m r hosts more stack h hr hcalm hlength hsub
  simp only [Bracketed.trace, List.forall_mem_cons, List.forall_mem_append] at hsub
  obtain ⟨hpush, hsubbody, hpop, hsubrest⟩ := hsub
  simp only [Bracketed.trace, List.length_cons, List.length_append] at hlength
  obtain ⟨host, hosts, rfl⟩ := List.exists_cons_of_length_eq_add_one hlength
  obtain ⟨hosts₁, host', hosts₂, rfl, hlength₁, hlength₂⟩ :=
    exists_append_cons (Nat.succ.inj hlength)
  have h : m.Prepared space user C T moments
      (n + 2 * hosts₂.length + 2 + 2 * hosts₁.length + 2) :=
    h.mono (by simp only [List.length_cons, List.length_append]; omega)
  rw [List.cons_append, List.append_assoc, List.cons_append] at hcalm
  obtain ⟨m₁, hstep₁, hcalm₁, hr₁, h₁, hkeeps₁, hat⟩ :=
    h.push hr hcalm pair hpush rfl rfl rfl rfl
  obtain ⟨m₂, hsteps₂, hcalm₂, hr₂, h₂, hkeeps₂⟩ := hbody h₁ hr₁ hcalm₁ hlength₁ hsubbody
  have hslot : r.nextSlot ∈ r.nextSlot :: stack := List.mem_cons_self ..
  have hsp : (body.after r.afterPush).sp = r.sp - 8 := body.sp_after _
  have hat := hat.of_keeps hkeeps₂ (h₁.mirrors.paged.holds_of_locate
    (h₁.houses.slot _ hpush _ hslot) (alignTo8_fits _ (Nat.le_refl 8)))
    fun k hk => Ram.mem_held C T moments hslot hk
  obtain ⟨m₃, hstep₃, hcalm₃, hr₃, h₃, hkeeps₃⟩ :=
    h₂.pop hr₂ hcalm₂ pair hpop rfl rfl rfl (congrArg alignTo8 hsp) hat
  replace hr₃ : m₃.regs.settled = r.afterPop pair (body.after r.afterPush) := by
    rw [hr₃, hsp, UInt32.sub_add_cancel]
    rfl
  obtain ⟨m', hsteps, hcalm', hr', h', hkeeps⟩ := hrest h₃ hr₃ hcalm₃ hlength₂ hsubrest
  have hall := Steps.step hstep₁ (hsteps₂.append (.step hstep₃ hsteps))
  rw [hr₁, hr₃] at hall
  have hsub := Ram.held_mono C T moments (List.subset_cons_self r.nextSlot stack)
  refine ⟨m', ?_, hcalm', hr', h', ?_⟩
  · simpa only [Bracketed.trace, List.map_cons, List.map_append] using hall
  · exact hkeeps₁.trans ((hkeeps₂.mono hsub).trans ((hkeeps₃.mono hsub).trans hkeeps))

/-- A return finds the address that its call left, as the body leaves it. -/
theorem Runs.called (hbody : body.Runs) (hrest : rest.Runs) (callee : Callee) (locals : UInt32) :
    (called callee locals body rest).Runs := by
  intro space user C T moments n m r hosts more stack h hr hcalm hlength hsub
  simp only [Bracketed.trace, List.forall_mem_cons, List.forall_mem_append] at hsub
  obtain ⟨hcall, henter, hsubbody, hleave, hsubrest⟩ := hsub
  simp only [Bracketed.trace, List.length_cons, List.length_append] at hlength
  obtain ⟨host₁, hosts, rfl⟩ := List.exists_cons_of_length_eq_add_one hlength
  obtain ⟨host₂, hosts, rfl⟩ := List.exists_cons_of_length_eq_add_one (Nat.succ.inj hlength)
  obtain ⟨hosts₁, host', hosts₂, rfl, hlength₁, hlength₂⟩ :=
    exists_append_cons (Nat.succ.inj (Nat.succ.inj hlength))
  have h : m.Prepared space user C T moments
      (n + 2 * hosts₂.length + 2 + 2 * hosts₁.length + 2 + 2) :=
    h.mono (by simp only [List.length_cons, List.length_append]; omega)
  rw [List.cons_append, List.cons_append, List.append_assoc, List.cons_append] at hcalm
  obtain ⟨m₁, hstep₁, hcalm₁, hr₁, h₁, hkeeps₁, hat⟩ :=
    h.call hr hcalm callee hcall rfl rfl rfl rfl
  obtain ⟨m₂, hstep₂, hcalm₂, hr₂, h₂, hkeeps₂⟩ := h₁.enter hr₁ hcalm₁ locals henter rfl rfl rfl
  obtain ⟨m₃, hsteps₃, hcalm₃, hr₃, h₃, hkeeps₃⟩ := hbody h₂ hr₂ hcalm₂ hlength₁ hsubbody
  have hslot : r.nextSlot ∈ r.nextSlot :: stack := List.mem_cons_self ..
  have hsp : (body.after ((r.afterCall callee).afterEnter locals)).sp + locals = r.sp - 8 := by
    rw [body.sp_after]
    exact UInt32.sub_add_cancel ..
  have hholds := h₁.mirrors.paged.holds_of_locate (h₁.houses.slot _ hcall _ hslot)
    (alignTo8_fits _ (show 4 ≤ 8 by decide))
  have hat := ((hkeeps₂.trans hkeeps₃).read_eq Ram.readsAt_read32 hholds
    fun k hk => Ram.mem_held C T moments hslot (by omega)).trans hat
  obtain ⟨m₄, hstep₄, hcalm₄, hr₄, h₄, hkeeps₄⟩ :=
    h₃.leave hr₃ hcalm₃ locals hleave rfl rfl rfl rfl (congrArg alignTo8 hsp) hat
  replace hr₄ : m₄.regs.settled =
      r.afterLeave (body.after ((r.afterCall callee).afterEnter locals)) := by
    rw [hr₄, hsp, UInt32.sub_add_cancel]
    rfl
  obtain ⟨m', hsteps, hcalm', hr', h', hkeeps⟩ := hrest h₄ hr₄ hcalm₄ hlength₂ hsubrest
  have hall := Steps.step hstep₁ (.step hstep₂ (hsteps₃.append (.step hstep₄ hsteps)))
  rw [hr₁, hr₂, hr₄] at hall
  have hsub := Ram.held_mono C T moments (List.subset_cons_self r.nextSlot stack)
  refine ⟨m', ?_, hcalm', hr', h', ?_⟩
  · simpa only [Bracketed.trace, List.map_cons, List.map_append] using hall
  · exact hkeeps₁.trans ((hkeeps₂.mono hsub).trans
      ((hkeeps₃.mono hsub).trans ((hkeeps₄.mono hsub).trans hkeeps)))

theorem runs (s : Bracketed) : s.Runs := by
  induction s with
  | nil => exact runs_nil
  | pushed pair body rest hbody hrest => exact hbody.pushed hrest pair
  | called callee locals body rest hbody hrest => exact hbody.called hrest callee locals

end Bracketed

/-! ## A procedure -/

instance (x : Moment) (i : Instruction) : Decidable (x.Encodes i) :=
  decidable_of_iff (i.operation? = some x.op ∧ x.imm.all (i.imm == ·) = true)
    ⟨fun ⟨hop, himm⟩ => ⟨hop, fun v hv => eq_of_beq ((Option.all_eq_true _ _).1 himm v hv)⟩,
      fun h => ⟨h.operation, (Option.all_eq_true _ _).2 fun v hv => beq_of_eq (h.immediate v hv)⟩⟩

/-- A call of a procedure with four bytes of locals. It pushes 7 and, on top of it, f, which is popped
to g. -/
def procedure : Bracketed :=
  .called (.relative 12) 4
    (.pushed (.word (.immediate 7) .b) (.pushed (.double .f .g) .nil .nil) .nil) .nil

def procedureWords : List (UInt32 × UInt32) :=
  [(0, 0xc05), (16, 0xfffffc01), (20, 0x79e), (24, 0x9f), (28, 0xb2), (32, 0xa1), (36, 0x402)]

/-- A stack pointer that is not aligned, and a float that is not a number. -/
def procedureRegisters : Registers := { f := ⟨0x7ff8000000000001⟩, sp := 0x1ffd }

theorem Ram.locate_of_unpaged {r : Ram} {space : AddressSpace} (hspace : space.paging = false)
    {vaddr : UInt32} (h : pageBase vaddr < r.size) (access : Access) (user : Bool) :
    r.locate space vaddr access user = .ok vaddr := by
  rw [locate, translate, if_neg (by simp [hspace]), if_pos h]
  exact congrArg Except.ok (pageBase_or_pageOffset vaddr)

/-- Without paging caches agree with the tables if they hold each page in memory at its own address. -/
theorem Memory.agrees_of_unpaged {m : Memory} {space : AddressSpace} (hspace : space.paging = false)
    (h : m.Remembers fun page frame =>
      ∀ vaddr, pageNumber vaddr = page → frame = pageBase vaddr ∧ pageBase vaddr < m.ram.size) :
    m.Agrees space := by
  have htranslate (vaddr frame : UInt32) (access : Access) (user : Bool)
      (hframe : frame = pageBase vaddr ∧ pageBase vaddr < m.ram.size) :
      m.ram.translate space vaddr access user = .ok frame := by
    rw [Ram.translate, if_neg (by simp [hspace]), if_pos hframe.2, hframe.1]
  exact ⟨fun page mapping he vaddr access user hv _ => htranslate _ _ _ _ (h.tlb _ _ he vaddr hv),
    fun slot write e he _ vaddr access user hv _ => htranslate _ _ _ _ (h.path _ _ _ he vaddr hv)⟩

theorem Ram.not_inEntries_of_unpaged {r : Ram} {space : AddressSpace} (hspace : space.paging = false)
    (i : Nat) : ¬r.InEntries space i := by
  rintro ⟨vaddr, slot, hslot, -⟩
  rw [walkSlots, if_neg (by simp [hspace])] at hslot
  cases hslot

theorem mem_procedureStack {x : Moment} (hx : x ∈ procedure.trace [] procedureRegisters) {v : UInt32}
    (hv : v ∈ x.stack) : v = 0x1fe0 ∨ v = 0x1fe8 ∨ v = 0x1ff0 := by
  have hsuffix : ∀ x ∈ procedure.trace [] procedureRegisters, x.stack <:+ [0x1fe0, 0x1fe8, 0x1ff0] := by
    decide +kernel
  simpa using (hsuffix x hx).subset hv

theorem Ram.houses_procedure {r : Ram} (hr : r.size = 8192)
    (hword : ∀ x ∈ procedure.trace [] procedureRegisters,
      r.read32 x.pc = (procedureWords.lookup x.pc).getD 0) :
    r.Houses {} false id id (procedure.trace [] procedureRegisters) := by
  have hcode : ∀ x ∈ procedure.trace [] procedureRegisters, x.pc.toNat ≤ 36 := by decide +kernel
  have hwords : ∀ x ∈ procedure.trace [] procedureRegisters,
      x.Encodes ⟨(procedureWords.lookup x.pc).getD 0⟩ := by decide +kernel
  refine ⟨by decide +kernel, fun x hx => locate_of_unpaged rfl ?_ .., fun x hx => ?_,
    fun x hx k hk => fixed_of_not_inEntries (not_inEntries_of_unpaged rfl _),
    fun x hx v hv => locate_of_unpaged rfl ?_ .., fun x hx v hv k hk => not_inEntries_of_unpaged rfl _,
    fun x hx v hv y hy => ?_, fun x hx v hv w hw hne => ?_⟩
  · rw [hr, UInt32.lt_iff_toNat_lt, pageBase_toNat]
    have hpc := hcode x hx
    simp only [UInt32.reduceToNat]
    omega
  · rw [id, hword x hx]
    exact hwords x hx
  · rw [hr]
    obtain rfl | rfl | rfl := mem_procedureStack hx hv <;> decide
  · right
    have hpc := hcode y hy
    obtain rfl | rfl | rfl := mem_procedureStack hx hv <;>
      simp only [id, UInt32.reduceToNat] <;> omega
  · revert hne
    obtain rfl | rfl | rfl := mem_procedureStack hx hv <;>
      obtain rfl | rfl | rfl := mem_procedureStack hx hw <;> decide

/-! ## Main result -/

namespace Machine

/-- A well-bracketed sequence leaves behind each of its instructions the registers that it is meant to:
a pop has the value of its push, a return is behind its call, and in the end the stack pointer is what
it was. The stack pointer may be anything, and slots that are in use at one time are different unless
the stack is deeper than the address space. -/
theorem stack_discipline (s : Bracketed) {m : Machine} {hosts : List (Bridge → Bridge)}
    {C T : UInt32 → UInt32} (hmirrors : m.memory.Mirrors m.regs.space (2 * hosts.length))
    (hhouses : m.memory.ram.Houses m.regs.space m.regs.user C T (s.trace [] m.regs.settled))
    (hdeep : UInt32.size < s.depth → ∀ x ∈ s.trace [] m.regs.settled, x.stack.Nodup)
    (hlength : hosts.length = (s.trace [] m.regs.settled).length) (hcalm : m.Calm hosts) :
    ∃ m', Steps hosts m ((s.trace [] m.regs.settled).map (·.regs)) m' ∧
      m'.regs.settled = s.after m.regs.settled ∧ m'.regs.sp = m.regs.sp := by
  have hnodup : ∀ x ∈ s.trace [] m.regs.settled, x.stack.Nodup := by
    rcases Nat.lt_or_ge UInt32.size s.depth with hlt | hle
    · exact hdeep hlt
    · exact s.nodup_of_depth _ hle
  have hprepared : m.Prepared m.regs.space m.regs.user C T (s.trace [] m.regs.settled)
      (0 + 2 * hosts.length) := ⟨rfl, rfl, by rwa [Nat.zero_add], hhouses, hnodup⟩
  rw [← List.append_nil hosts] at hcalm
  obtain ⟨m', hsteps, -, hregs, -⟩ := s.runs hprepared rfl hcalm hlength fun x hx => hx
  exact ⟨m', hsteps, hregs, (congrArg Registers.sp hregs).trans (s.sp_after _)⟩

end Machine

/-- The page with the stack is cached when the procedure is called. -/
theorem Machine.stack_discipline_procedure :
    let cold : Memory :=
      { ram := (Ram.zeroed 8192).laid procedureWords, tlb := .ofCapacity 1, path := .make true }
    let m : Machine :=
      { regs := procedureRegisters
        memory := stateOf (Memory.resolve {} .stack 0x1ff0 .store false cold) }
    let hosts : List (Bridge → Bridge) := List.replicate 7 id
    let moments := procedure.trace [] m.regs.settled
    m.memory.Coherent ∧ m.memory.Agrees m.regs.space ∧
      m.memory.Mirrors m.regs.space (2 * hosts.length) ∧
      m.memory.ram.Houses m.regs.space m.regs.user id id moments ∧
      (UInt32.size < procedure.depth → ∀ x ∈ moments, x.stack.Nodup) ∧
      hosts.length = moments.length ∧ m.Calm hosts ∧
      ∃ m', Steps hosts m (moments.map (·.regs)) m' ∧
        m'.regs.settled = procedure.after m.regs.settled ∧ m'.regs.sp = m.regs.sp := by
  intro cold m hosts moments
  have hram : m.memory.ram = cold.ram :=
    Memory.ram_resolve_of_not_paging .stack 0x1ff0 .store false rfl cold
  have hbytes : m.memory.ram.bytes.size = 8192 := by
    rw [hram]
    exact (Ram.size_laid ..).trans (Ram.size_zeroed 8192)
  have hcold : cold.Coherent :=
    Memory.coherent_of_forget fun slot write => by cases slot <;> cases write <;> rfl
  have hcoherent : m.memory.Coherent := hcold.resolve {} .stack 0x1ff0 .store false
  have hremembers : m.memory.Remembers fun page frame =>
      ∀ vaddr, pageNumber vaddr = page → frame = pageBase vaddr ∧ pageBase vaddr < cold.ram.size := by
    refine Memory.Remembers.resolve (.fresh _ _ 1 true) fun mapping ram hw vaddr hv => ?_
    rw [walk_of_not_paging rfl] at hw
    split at hw
    · obtain ⟨rfl, -⟩ := EStateM.Result.ok.inj hw
      have hbase := pageBase_eq_of_pageNumber hv.symm
      exact ⟨hbase, hbase ▸ ‹_›⟩
    · cases hw
  have hagrees : m.memory.Agrees m.regs.space :=
    Memory.agrees_of_unpaged rfl (by rw [hram]; exact hremembers)
  have hepoch : m.memory.tlb.epoch ≤ 1 := cold.epoch_resolve_le {} .stack 0x1ff0 .store false
  have hmirrors : m.memory.Mirrors m.regs.space (2 * hosts.length) :=
    hcoherent.mirrors hagrees nofun (by rw [Ram.Paged, hbytes])
      (Nat.lt_of_le_of_lt (Nat.add_le_add_right hepoch _) (by decide))
  have hlaid : ∀ word ∈ procedureWords, word.1.toNat % 4 = 0 ∧
      word.1.toNat + 4 ≤ (Ram.zeroed 8192).bytes.size := by
    rw [show (Ram.zeroed 8192).bytes.size = 8192 from Ram.size_zeroed 8192]
    simp [procedureWords]
  have haligned : ∀ x ∈ moments, x.pc.toNat % 4 = 0 := by decide +kernel
  have hhouses : m.memory.ram.Houses m.regs.space m.regs.user id id moments :=
    Ram.houses_procedure (by rw [Ram.size, hbytes]; rfl) fun x hx => by
      rw [hram, Ram.read32_laid hlaid (haligned x hx), Ram.read32_zeroed]
  have hdeep : UInt32.size < procedure.depth → ∀ x ∈ moments, x.stack.Nodup :=
    fun h => absurd h (by decide)
  have hcalm : m.Calm hosts := calm_of_phase hosts (by decide)
  exact ⟨hcoherent, hagrees, hmirrors, hhouses, hdeep, rfl, hcalm,
    stack_discipline procedure hmirrors hhouses hdeep rfl hcalm⟩

end PagedMachine
