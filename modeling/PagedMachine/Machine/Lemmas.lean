import PagedMachine.Execute

/-!
# The machine, operation by operation

What the operations that read and change parts of the machine do, each as one equation.
-/

set_option autoImplicit false

namespace PagedMachine.Machine

/-- The machine with other bytes and the same caches. -/
def withRam (m : Machine) (ram : Ram) : Machine :=
  { m with memory := { m.memory with ram } }

section
variable {ε : Type} (m : Machine)

theorem getRegs_apply : (getRegs : EStateM ε Machine Registers) m = .ok m.regs m := rfl

theorem getRam_apply : (getRam : EStateM ε Machine Ram) m = .ok m.memory.ram m := rfl

theorem modifyRegs_apply (fn : Registers → Registers) :
    (modifyRegs fn : EStateM ε Machine Unit) m = .ok () { m with regs := fn m.regs } := rfl

theorem modifyMemory_apply (fn : Memory → Memory) :
    (modifyMemory fn : EStateM ε Machine Unit) m = .ok () { m with memory := fn m.memory } := rfl

theorem modifyRam_apply (fn : Ram → Ram) :
    (modifyRam fn : EStateM ε Machine Unit) m =
      .ok () { m with memory := { m.memory with ram := fn m.memory.ram } } := rfl

theorem onSockets_apply {α : Type} (fn : Sockets → α × Sockets) :
    (onSockets fn : EStateM ε Machine α) m =
      .ok (fn m.bridge.sockets).1
        { m with bridge := { m.bridge with sockets := (fn m.bridge.sockets).2 } } := rfl

theorem onMemory_apply {α : Type} (x : EStateM ε Memory α) :
    onMemory x m =
      match x m.memory with
      | .ok a memory => .ok a { m with memory }
      | .error e memory => .error e { m with memory } := rfl

end

theorem onMemory_bind {ε α β : Type} (x : EStateM ε Memory α) (f : α → EStateM ε Memory β) :
    onMemory (x >>= f) = onMemory x >>= fun a => onMemory (f a) := by
  funext m
  simp only [onMemory_apply, bind_apply]
  cases x m.memory <;> rfl

theorem resolve_apply (slot : Slot) (vaddr : UInt32) (access : Access) (m : Machine) :
    resolve slot vaddr access m =
      match Memory.resolve m.regs.space slot vaddr access m.regs.user m.memory with
      | .ok pa memory => .ok pa { m with memory }
      | .error fault memory => .error fault { m with memory } := by
  simp only [resolve, bind_apply, getRegs_apply, onMemory_apply]
  cases Memory.resolve m.regs.space slot vaddr access m.regs.user m.memory <;> rfl

theorem resolve_mapState (slot : Slot) (vaddr : UInt32) (access : Access) (m : Machine) :
    resolve slot vaddr access m =
      mapState (fun memory => { m with memory })
        (Memory.resolve m.regs.space slot vaddr access m.regs.user m.memory) := by
  rw [resolve_apply]
  cases Memory.resolve m.regs.space slot vaddr access m.regs.user m.memory <;> rfl

theorem liftGuarded_apply {α : Type} (x : Guarded α) (m : Machine) :
    (liftM x : Exec α) m =
      match x m with
      | .ok a m => .ok a m
      | .error fault m => .error (.fault fault) m := by
  show EStateM.adaptExcept Stop.fault x m = _
  rw [adaptExcept_apply]
  cases x m <;> rfl

theorem liftGuarded_eq_error {α : Type} {x : Guarded α} {m m' : Machine} {stop : Stop}
    (h : (liftM x : Exec α) m = .error stop m') :
    ∃ fault, stop = .fault fault ∧ x m = .error fault m' := by
  rw [liftGuarded_apply] at h
  cases hr : x m with
  | ok a m₁ =>
    rw [hr] at h
    cases h
  | error fault m₁ =>
    rw [hr] at h
    obtain ⟨rfl, rfl⟩ := EStateM.Result.error.inj h
    exact ⟨fault, rfl, rfl⟩

theorem liftDelivery_apply {α : Type} (x : Delivery α) (m : Machine) :
    (liftM x : Exec α) m =
      match x m with
      | .ok a m => .ok a m
      | .error reason m => .error (.fatal reason) m := by
  show EStateM.adaptExcept Stop.fatal x m = _
  rw [adaptExcept_apply]
  cases x m <;> rfl

theorem liftDelivery_eq_ok {α : Type} {x : Delivery α} {m m' : Machine} {a : α}
    (h : (liftM x : Exec α) m = .ok a m') : x m = .ok a m' := by
  rw [liftDelivery_apply] at h
  cases hr : x m with
  | ok a' m₁ =>
    rw [hr] at h
    obtain ⟨rfl, rfl⟩ := EStateM.Result.ok.inj h
    rfl
  | error reason m₁ =>
    rw [hr] at h
    cases h

theorem liftDelivery_eq_error {α : Type} {x : Delivery α} {m m' : Machine} {stop : Stop}
    (h : (liftM x : Exec α) m = .error stop m') :
    ∃ reason, stop = .fatal reason ∧ x m = .error reason m' := by
  rw [liftDelivery_apply] at h
  cases hr : x m with
  | ok a m₁ =>
    rw [hr] at h
    cases h
  | error reason m₁ =>
    rw [hr] at h
    obtain ⟨rfl, rfl⟩ := EStateM.Result.error.inj h
    exact ⟨reason, rfl, rfl⟩

theorem liftDelivery_then_of_ok {x : Delivery Unit} {m m' : Machine} {u : Unit}
    (h : x m = .ok u m') (flow : Flow) :
    (liftM x >>= fun _ => pure flow : Exec Flow) m = .ok flow m' := by
  rw [bind_apply, liftDelivery_apply, h]
  rfl

/-- Fetching resolves one address and moves on by a word. -/
theorem fetch_apply (m : Machine) :
    fetch m =
      if m.regs.pc &&& 3 = 0 then
        match Memory.resolve m.regs.space .code m.regs.pc .fetch m.regs.user m.memory with
        | .ok pa memory =>
          .ok ⟨memory.ram.read32 pa⟩
            { m with
              regs := { m.regs with pc := m.regs.pc + 4 }, memory, ipc := m.regs.pc
              ir := ⟨memory.ram.read32 pa⟩ }
        | .error fault memory => .error (.fault fault) { m with memory, ipc := m.regs.pc }
      else .error (.fatal (.misalignedPc m.regs.pc)) m := by
  by_cases hpc : m.regs.pc &&& 3 = 0
  · simp only [fetch, bind_apply, getRegs_apply, require_apply, hpc, decide_true, if_true,
      modify_apply, liftGuarded_apply, resolve_apply]
    cases Memory.resolve m.regs.space .code m.regs.pc .fetch m.regs.user m.memory <;> rfl
  · simp only [fetch, bind_apply, getRegs_apply, require_apply, hpc, decide_false,
      if_false, Bool.false_eq_true]

/-- The instruction is the word where the program counter is resolved to. -/
theorem fetch_of_resolved {m : Machine} {pa : UInt32} {memory : Memory} (halign : m.regs.pc &&& 3 = 0)
    (hr : Memory.resolve m.regs.space .code m.regs.pc .fetch m.regs.user m.memory = .ok pa memory) :
    fetch m = .ok ⟨memory.ram.read32 pa⟩ { m with
      regs := { m.regs with pc := m.regs.pc + 4 }, memory, ipc := m.regs.pc
      ir := ⟨memory.ram.read32 pa⟩ } := by
  rw [fetch_apply, if_pos halign, hr]

theorem user_of_fetch {i : Instruction} {m m' : Machine} (h : fetch m = .ok i m') :
    m'.regs.user = m.regs.user := by
  rw [fetch_apply] at h
  split at h
  · cases hr : Memory.resolve m.regs.space .code m.regs.pc .fetch m.regs.user m.memory with
    | ok pa memory =>
      rw [hr] at h
      obtain ⟨-, rfl⟩ := EStateM.Result.ok.inj h
      rfl
    | error fault memory =>
      rw [hr] at h
      cases h
  · cases h

theorem decode_apply {i : Instruction} {op : Operation} (h : i.operation? = some op) (m : Machine) :
    decode i m =
      if m.regs.user && op.privileged then .error (.fault .privilegeViolation) m else .ok op m := by
  unfold decode
  rw [h]
  dsimp only
  simp only [bind_apply, getRegs_apply, require_apply]
  cases m.regs.user && op.privileged <;> rfl

/-- A decoded operation is one that the current mode may execute. -/
theorem decode_eq_ok {i : Instruction} {op : Operation} {m m' : Machine}
    (h : decode i m = .ok op m') :
    i.operation? = some op ∧ (m.regs.user = true → op.privileged = false) ∧ m' = m := by
  cases ho : i.operation? with
  | none =>
    unfold decode at h
    rw [ho] at h
    cases h
  | some op' =>
    rw [decode_apply ho] at h
    split at h
    · cases h
    · rename_i hmode
      obtain ⟨rfl, rfl⟩ := EStateM.Result.ok.inj h
      exact ⟨rfl, by simpa using hmode, rfl⟩

/-- What is not decoded faults, and nothing changes. -/
theorem decode_eq_error {i : Instruction} {stop : Stop} {m m' : Machine}
    (h : decode i m = .error stop m') :
    (stop = .fault .illegalInstruction ∨ stop = .fault .privilegeViolation) ∧ m' = m := by
  cases ho : i.operation? with
  | none =>
    unfold decode at h
    rw [ho] at h
    obtain ⟨rfl, rfl⟩ := EStateM.Result.error.inj h
    exact ⟨.inl rfl, rfl⟩
  | some op =>
    rw [decode_apply ho] at h
    split at h
    · obtain ⟨rfl, rfl⟩ := EStateM.Result.error.inj h
      exact ⟨.inr rfl, rfl⟩
    · cases h

/-- The operation that the next instruction names, if it can be fetched and names one. -/
def next? (m : Machine) : Option Operation :=
  match fetch m with
  | .ok i _ => i.operation?
  | .error _ _ => none

theorem next?_of_fetch {i : Instruction} {m m' : Machine} (h : fetch m = .ok i m') :
    m.next? = i.operation? := by
  rw [next?, h]

theorem next?_eq_some {op : Operation} {m : Machine} (h : m.next? = some op) :
    ∃ i m', fetch m = .ok i m' ∧ i.operation? = some op := by
  cases hr : fetch m with
  | ok i m' =>
    rw [next?_of_fetch hr] at h
    exact ⟨i, m', rfl, h⟩
  | error stop m' =>
    rw [next?, hr] at h
    cases h

/-- What is fetched and may be executed is executed. -/
theorem executeNext_of_fetch {i : Instruction} {op : Operation} {m m' : Machine}
    (hfetch : fetch m = .ok i m') (hop : i.operation? = some op)
    (hmode : m'.regs.user = true → op.privileged = false) : executeNext m = execute op i m' := by
  rw [executeNext, bind_apply, hfetch]
  dsimp only
  rw [bind_apply, decode_apply hop, if_neg (by simpa using hmode)]

/-- What an operation does is what is executed, unless it ends the run or waits. -/
theorem execute_of_perform {op : Operation} {i : Instruction} {m m' : Machine} {u : Unit}
    (hhalt : op ≠ .halt) (hidle : op ≠ .idle) (h : perform op i m = .ok u m') :
    execute op i m = .ok .go m' := by
  unfold execute
  split
  · exact absurd rfl hhalt
  · exact absurd rfl hidle
  · rw [bind_apply, h]
    rfl

theorem execute_of_block {op : BlockOp} {i : Instruction} {m m' : Machine}
    (h : block op m = .ok () m') : execute (.block op) i m = .ok .go m' := by
  show ((liftM (block op) : Exec Unit) >>= fun _ => pure Flow.go) m = _
  rw [bind_apply, liftGuarded_apply, h]
  rfl

/-- An instruction that completes was fetched, decoded and run. -/
theorem executeNext_eq_ok {m m' : Machine} {flow : Flow} (h : executeNext m = .ok flow m') :
    ∃ i op m₁, fetch m = .ok i m₁ ∧ m.next? = some op ∧
      (m₁.regs.user = true → op.privileged = false) ∧ execute op i m₁ = .ok flow m' := by
  obtain ⟨i, m₁, hfetch, hrest⟩ := bind_eq_ok_iff.1 h
  obtain ⟨op, m₂, hdecode, hexecute⟩ := bind_eq_ok_iff.1 hrest
  obtain ⟨hop, hmode, rfl⟩ := decode_eq_ok hdecode
  exact ⟨i, op, m₂, hfetch, (next?_of_fetch hfetch).trans hop, hmode, hexecute⟩

/-- An instruction that stops was not fetched, was refused, or stopped while it ran. -/
theorem executeNext_eq_error {m m' : Machine} {stop : Stop} (h : executeNext m = .error stop m') :
    fetch m = .error stop m' ∨
      (∃ i, fetch m = .ok i m' ∧
        (stop = .fault .illegalInstruction ∨ stop = .fault .privilegeViolation)) ∨
      ∃ i op m₁, fetch m = .ok i m₁ ∧ m.next? = some op ∧
        (m₁.regs.user = true → op.privileged = false) ∧ execute op i m₁ = .error stop m' := by
  rcases bind_eq_error_iff.1 h with hfetch | ⟨i, m₁, hfetch, hrest⟩
  · exact .inl hfetch
  rcases bind_eq_error_iff.1 hrest with hdecode | ⟨op, m₂, hdecode, hexecute⟩
  · obtain ⟨hstop, rfl⟩ := decode_eq_error hdecode
    exact .inr (.inl ⟨i, hfetch, hstop⟩)
  · obtain ⟨hop, hmode, rfl⟩ := decode_eq_ok hdecode
    exact .inr (.inr ⟨i, op, m₂, hfetch, (next?_of_fetch hfetch).trans hop, hmode, hexecute⟩)

/-- Setting the directory empties the caches, unless its page is not in memory. -/
theorem perform_setDirectory (i : Instruction) (m : Machine) :
    perform .setDirectory i m =
      if (pageBase m.regs.a).toNat + pageSize.toNat ≤ m.memory.ram.size.toNat then
        setSpace { m.regs.space with directory := some (pageBase m.regs.a) } m
      else .error (.fault (.badPhysicalAddress none)) m := by
  simp only [perform, bind_apply, getRegs_apply, getRam_apply, require_apply, decide_eq_true_eq]
  by_cases h : (pageBase m.regs.a).toNat + pageSize.toNat ≤ m.memory.ram.size.toNat
  · simp only [if_pos h]
  · simp only [if_neg h]

/-- Setting paging empties the caches, unless it is turned on without a directory. -/
theorem perform_setPaging (i : Instruction) (m : Machine) :
    perform .setPaging i m =
      if m.regs.a = 0 || m.regs.space.directory.isSome then
        setSpace { m.regs.space with paging := m.regs.a ≠ 0 } m
      else .error (.fault (.badPhysicalAddress none)) m := by
  simp only [perform, bind_apply, getRegs_apply, require_apply]
  by_cases h : (m.regs.a = 0 || m.regs.space.directory.isSome) = true
  · simp only [if_pos h]
  · simp only [if_neg h]

end PagedMachine.Machine
