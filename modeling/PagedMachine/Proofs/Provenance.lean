import PagedMachine.Emulator
import PagedMachine.Machine.Lemmas
import PagedMachine.Proofs.Coherence
import PagedMachine.Proofs.OnePage

/-!
# Where a translation comes from

Whatever the guest does to its tables, an address is resolved by the latest walk of its page, made
since the buffer was last emptied (`resolve_latest`). The walks and the flushes of a run are kept in a
log beside the machine, and the buffer is at all times what the log says (`Recorded`).
-/

set_option autoImplicit false

namespace PagedMachine

/-! ## The log -/

/-- What happens to the lookaside buffer. -/
inductive TlbEvent
  | flushed
  /-- The tables were walked for a page, with this result. -/
  | walked (page : UInt32) (mapping : Mapping)
deriving DecidableEq

/-- The result of the latest walk of a page since the latest flush, in a log with the latest event
first. -/
def lastWalk (page : UInt32) : List TlbEvent → Option Mapping
  | [] => none
  | .flushed :: _ => none
  | .walked other mapping :: log => if other = page then some mapping else lastWalk page log

theorem lastWalk_eq_some {page : UInt32} {mapping : Mapping} {log : List TlbEvent}
    (h : lastWalk page log = some mapping) :
    ∃ after before, log = after ++ .walked page mapping :: before ∧ .flushed ∉ after ∧
      ∀ other, .walked page other ∉ after := by
  induction log with
  | nil => cases h
  | cons event log ih =>
    cases event with
    | flushed => cases h
    | walked other mapping' =>
      by_cases hp : other = page
      · subst hp
        simp only [lastWalk, if_true, Option.some.injEq] at h
        subst h
        exact ⟨[], log, rfl, by simp, by simp⟩
      · simp only [lastWalk, if_neg hp] at h
        obtain ⟨after, before, rfl, hf, hw⟩ := ih h
        refine ⟨.walked other mapping' :: after, before, rfl, by simpa using hf, fun m hm => ?_⟩
        rcases List.mem_cons.1 hm with heq | hm
        · exact hp (TlbEvent.walked.inj heq).1.symm
        · exact hw m hm

/-! ## Runs -/

/-- What may happen between two accesses, and the accesses themselves. -/
inductive MachineOp
  | resolve (space : AddressSpace) (slot : Slot) (vaddr : UInt32) (access : Access) (user : Bool)
  /-- Any bytes are written, those of tables too. -/
  | write (fn : Ram → Ram)
  | registers (fn : Registers → Registers)
  /-- The instruction that sets the directory. -/
  | setDirectory (i : Instruction)
  /-- The instruction that turns paging on and off. -/
  | setPaging (i : Instruction)
  | reset (pc sp : UInt32)
  | restore (regs : Registers) (timer : Timer)
  | flush
  | invalidatePath

namespace MachineOp

def run (m : Machine) : MachineOp → Machine
  | resolve space slot vaddr access user =>
    { m with memory := stateOf (Memory.resolve space slot vaddr access user m.memory) }
  | write fn => { m with memory := m.memory.mapRam fn }
  | registers fn => { m with regs := fn m.regs }
  | setDirectory i => stateOf (Machine.perform .setDirectory i m)
  | setPaging i => stateOf (Machine.perform .setPaging i m)
  | reset pc sp => m.reset pc sp
  | restore regs timer => m.restore regs timer
  | flush => { m with memory := m.memory.flush }
  | invalidatePath => { m with memory := m.memory.invalidatePath }

/-- What the log gains by an operation that takes `m` to `m'`. The tables were walked if the buffer
counted a miss. A full buffer is emptied before the mapping of the walk goes in, so that flush counts
as earlier than the walk. -/
def events (m m' : Machine) : MachineOp → List TlbEvent
  | resolve space _ vaddr access user =>
    if m'.memory.tlb.misses = m.memory.tlb.misses then []
    else
      match walk space vaddr access user m.memory.ram with
      | .ok mapping _ =>
        .walked (pageNumber vaddr) mapping ::
          if m.memory.tlb.overflows (pageNumber vaddr) then [.flushed] else []
      | .error .. => []
  | setDirectory i =>
    match Machine.perform .setDirectory i m with
    | .ok .. => [.flushed]
    | .error .. => []
  | setPaging i =>
    match Machine.perform .setPaging i m with
    | .ok .. => [.flushed]
    | .error .. => []
  | reset .. | restore .. | flush => [.flushed]
  | write _ | registers _ | invalidatePath => []

end MachineOp

/-- The machine and the log after some operations. -/
def history (m : Machine) (log : List TlbEvent) : List MachineOp → Machine × List TlbEvent
  | [] => (m, log)
  | op :: ops => history (op.run m) (op.events m (op.run m) ++ log) ops

/-! ## The buffer is what the log says -/

/-- The instructions that change the space empty the caches, or fault and change nothing. -/
theorem setDirectory_cases (i : Instruction) (m : Machine) :
    (∃ m', Machine.perform .setDirectory i m = .ok () m' ∧ m'.memory = m.memory.flush) ∨
      ∃ e, Machine.perform .setDirectory i m = .error e m := by
  rw [Machine.perform_setDirectory]
  split
  · exact .inl ⟨_, rfl, rfl⟩
  · exact .inr ⟨_, rfl⟩

theorem setPaging_cases (i : Instruction) (m : Machine) :
    (∃ m', Machine.perform .setPaging i m = .ok () m' ∧ m'.memory = m.memory.flush) ∨
      ∃ e, Machine.perform .setPaging i m = .error e m := by
  rw [Machine.perform_setPaging]
  split
  · exact .inl ⟨_, rfl, rfl⟩
  · exact .inr ⟨_, rfl⟩

/-- The buffer holds the latest walks, and the page cache follows it. -/
structure Recorded (m : Machine) (log : List TlbEvent) : Prop where
  coherent : m.memory.Coherent
  entries : ∀ page, m.memory.tlb.entries[page]? = lastWalk page log

theorem recorded_make (ram : Ram) (fastPath : Bool) (capacity : Nat) (bridge : Bridge) :
    Recorded (.make ram fastPath capacity bridge) [] := by
  refine ⟨Memory.coherent_of_forget fun slot write => ?_, fun page => by
    simp [Machine.make, Tlb.ofCapacity, lastWalk]⟩
  cases fastPath with
  | true => cases slot <;> cases write <;> rfl
  | false => rfl

namespace Recorded

variable {m : Machine} {log : List TlbEvent}

theorem keep {op : MachineOp} (h : Recorded m log) (he : op.events m (op.run m) = [])
    (ht : (op.run m).memory.tlb = m.memory.tlb) (hc : (op.run m).memory.Coherent) :
    Recorded (op.run m) (op.events m (op.run m) ++ log) := by
  refine ⟨hc, fun page => ?_⟩
  rw [ht, he]
  exact h.entries page

theorem empty {op : MachineOp} (he : op.events m (op.run m) = [.flushed])
    (hm : (op.run m).memory = m.memory.flush) :
    Recorded (op.run m) (op.events m (op.run m) ++ log) := by
  refine ⟨hm ▸ m.memory.coherent_flush, fun page => ?_⟩
  rw [hm, he]
  simp [Memory.flush, Tlb.flush, lastWalk]

theorem resolve (h : Recorded m log) (space : AddressSpace) (slot : Slot) (vaddr : UInt32)
    (access : Access) (user : Bool) :
    let op := MachineOp.resolve space slot vaddr access user
    Recorded (op.run m) (op.events m (op.run m) ++ log) := by
  intro op
  have hc := h.coherent.resolve space slot vaddr access user
  refine ⟨hc, fun page => ?_⟩
  show (stateOf (Memory.resolve space slot vaddr access user m.memory)).tlb.entries[page]? =
    lastWalk page (op.events m
      { m with memory := stateOf (Memory.resolve space slot vaddr access user m.memory) } ++ log)
  have hresult := Memory.resolve_resolved space slot vaddr access user m.memory
  generalize Memory.resolve space slot vaddr access user m.memory = result at hresult
  simp only [MachineOp.events, op]
  cases hresult with
  | remembered hl => simpa using h.entries page
  | found hm hf => simpa using h.entries page
  | @walked mapping ram hm hf hw =>
    simp only [stateOf_ok, Tlb.misses_insert, Tlb.getElem?_insert, hw,
      Nat.succ_ne_self, if_false, pageBase_of_walk hw]
    by_cases hp : pageNumber vaddr = page
    · simp [lastWalk, hp]
    · rw [if_neg hp]
      have hsame : ({ m.memory.tlb with misses := m.memory.tlb.misses + 1 } : Tlb).overflows
          (pageNumber vaddr) = m.memory.tlb.overflows (pageNumber vaddr) := rfl
      rw [hsame]
      by_cases ho : m.memory.tlb.overflows (pageNumber vaddr) = true
      · simp [lastWalk, hp, ho]
      · simpa [lastWalk, hp, ho] using h.entries page
  | faulted hm hf hw => simpa [hw] using h.entries page

theorem run (h : Recorded m log) (op : MachineOp) :
    Recorded (op.run m) (op.events m (op.run m) ++ log) := by
  cases op with
  | resolve space slot vaddr access user => exact h.resolve space slot vaddr access user
  | write fn => exact h.keep rfl rfl h.coherent
  | registers fn => exact h.keep rfl rfl h.coherent
  | setDirectory i =>
    rcases setDirectory_cases i m with ⟨m', hp, hm⟩ | ⟨e, hp⟩
    · exact empty (by simp [MachineOp.events, hp]) (by simpa [MachineOp.run, hp] using hm)
    · have hrun : (MachineOp.setDirectory i).run m = m := by simp [MachineOp.run, hp]
      exact h.keep (by simp [MachineOp.events, hp]) (by rw [hrun]) (by rw [hrun]; exact h.coherent)
  | setPaging i =>
    rcases setPaging_cases i m with ⟨m', hp, hm⟩ | ⟨e, hp⟩
    · exact empty (by simp [MachineOp.events, hp]) (by simpa [MachineOp.run, hp] using hm)
    · have hrun : (MachineOp.setPaging i).run m = m := by simp [MachineOp.run, hp]
      exact h.keep (by simp [MachineOp.events, hp]) (by rw [hrun]) (by rw [hrun]; exact h.coherent)
  | reset pc sp => exact empty rfl rfl
  | restore regs timer => exact empty rfl rfl
  | flush => exact empty rfl rfl
  | invalidatePath => exact h.keep rfl rfl m.memory.coherent_invalidatePath

theorem history (h : Recorded m log) (ops : List MachineOp) :
    Recorded (history m log ops).1 (PagedMachine.history m log ops).2 := by
  induction ops generalizing m log with
  | nil => exact h
  | cons op ops ih => exact ih (h.run op)

end Recorded

theorem history_append (m : Machine) (log : List TlbEvent) (ops ops' : List MachineOp) :
    history m log (ops ++ ops') = history (history m log ops).1 (history m log ops).2 ops' := by
  induction ops generalizing m log with
  | nil => rfl
  | cons op ops ih => exact ih ..

/-! ## How many epochs pass -/

/-- One operation begins at most one epoch. -/
theorem MachineOp.epoch_run_le (m : Machine) (op : MachineOp) :
    (op.run m).memory.tlb.epoch ≤ m.memory.tlb.epoch + 1 := by
  cases op with
  | resolve space slot vaddr access user => exact Memory.epoch_resolve_le ..
  | write fn => exact Nat.le_succ _
  | registers fn => exact Nat.le_succ _
  | setDirectory i =>
    rcases setDirectory_cases i m with ⟨m', hp, hm⟩ | ⟨e, hp⟩
    · have hrun : (run m (.setDirectory i)).memory = m.memory.flush := by
        rw [run, hp, stateOf_ok, hm]
      exact Nat.le_of_eq (congrArg (·.tlb.epoch) hrun)
    · have hrun : run m (.setDirectory i) = m := by rw [run, hp, stateOf_error]
      rw [hrun]
      exact Nat.le_succ _
  | setPaging i =>
    rcases setPaging_cases i m with ⟨m', hp, hm⟩ | ⟨e, hp⟩
    · have hrun : (run m (.setPaging i)).memory = m.memory.flush := by
        rw [run, hp, stateOf_ok, hm]
      exact Nat.le_of_eq (congrArg (·.tlb.epoch) hrun)
    · have hrun : run m (.setPaging i) = m := by rw [run, hp, stateOf_error]
      rw [hrun]
      exact Nat.le_succ _
  | reset pc sp => exact Nat.le_refl _
  | restore regs timer => exact Nat.le_refl _
  | flush => exact Nat.le_refl _
  | invalidatePath => exact Nat.le_succ _

/-- So generations are distinct in every run of fewer than `UInt64.size` operations. -/
theorem epoch_history_le (m : Machine) (log : List TlbEvent) (ops : List MachineOp) :
    (history m log ops).1.memory.tlb.epoch ≤ m.memory.tlb.epoch + ops.length := by
  induction ops generalizing m log with
  | nil => exact Nat.le_refl _
  | cons op ops ih =>
    have h := ih (op.run m) (op.events m (op.run m) ++ log)
    have hop := op.epoch_run_le m
    rw [List.length_cons]
    show (history (op.run m) (op.events m (op.run m) ++ log) ops).1.memory.tlb.epoch ≤ _
    omega

/-! ## A table that is rewritten -/

section
variable {space : AddressSpace} {slot : Slot} {vaddr pa : UInt32} {access : Access} {user : Bool}
  {m m' : Machine} {memory : Memory}

theorem MachineOp.run_resolve
    (h : Memory.resolve space slot vaddr access user m.memory = .ok pa memory) :
    run m (.resolve space slot vaddr access user) = { m with memory } := by
  simp only [run, h, stateOf_ok]

theorem MachineOp.events_of_hit (h : m'.memory.tlb.misses = m.memory.tlb.misses) :
    events m m' (.resolve space slot vaddr access user) = [] :=
  if_pos h

theorem MachineOp.events_of_miss {mapping : Mapping} {ram : Ram}
    (hmiss : m'.memory.tlb.misses ≠ m.memory.tlb.misses)
    (hwalk : walk space vaddr access user m.memory.ram = .ok mapping ram)
    (hroom : m.memory.tlb.overflows (pageNumber vaddr) = false) :
    events m m' (.resolve space slot vaddr access user) = [.walked (pageNumber vaddr) mapping] := by
  rw [events, if_neg hmiss, hwalk]
  dsimp only
  rw [hroom]
  rfl

end

theorem history_cons {m m' : Machine} {op : MachineOp} {events log : List TlbEvent}
    (hrun : op.run m = m') (he : op.events m m' = events) (ops : List MachineOp) :
    history m log (op :: ops) = history m' (events ++ log) ops := by
  subst hrun he
  rfl

namespace Memory

/-- Memory in which the page at 0x2000 was read through the page cache. -/
def reread (later : List (UInt32 × UInt32)) (hits : Nat) : Memory where
  ram := .twoPages later
  tlb := .holding 2 (.kernel 0x2000) 0 0 1 0
  path := .cached { codeRead := some ⟨⟨false, false⟩, 2, 0x2000, 0⟩, hits }

/-- The same page, read again after a flush. -/
def renewed (later : List (UInt32 × UInt32)) (frame : UInt32) : Memory where
  ram := .twoPages later
  tlb := .holding 2 (.kernel frame) 1 0 2 1
  path := .cached { codeRead := some ⟨⟨false, false⟩, 2, frame, 1⟩, hits := 1 }

/-- The page cache answers, whatever the table says by now. -/
theorem resolve_reread (space : AddressSpace) (later : List (UInt32 × UInt32)) (hits : Nat) :
    resolve space .code 0x2004 .load false (.reread later hits) =
      .ok 0x2004 (.reread later (hits + 1)) := by
  have hline : (reread later hits).path.line .code Access.load.writes =
      some ⟨rightOf .load false, pageNumber 0x2004, 0x2000, 0⟩ := rfl
  exact resolve_of_line hline

/-- After a flush the table does. -/
theorem resolve_renewed {later : List (UInt32 × UInt32)}
    (hwalk : walk ⟨true, some 0⟩ 0x2004 .load false (.twoPages later) =
      .ok (.kernel 0x3000) (.twoPages later)) :
    resolve ⟨true, some 0⟩ .code 0x2004 .load false (reread later 1).flush =
      .ok 0x3004 (.renewed later 0x3000) :=
  resolve_emptied (fun _ h => Option.some_ne_none _ h.symm) hwalk

end Memory

/-! ## The latest walk answers -/

/-- An address is resolved by the latest walk of its page. That walk granted the access, and the
buffer was not emptied since. -/
theorem resolve_latest {ram : Ram} {fastPath : Bool} {capacity : Nat} {bridge : Bridge}
    {ops : List MachineOp} {space : AddressSpace} {slot : Slot} {vaddr : UInt32} {access : Access}
    {user : Bool} {pa : UInt32} {memory : Memory}
    (hn : (history (.make ram fastPath capacity bridge) [] ops).1.memory.tlb.epoch < UInt64.size)
    (hr : Memory.resolve space slot vaddr access user
      (history (.make ram fastPath capacity bridge) [] ops).1.memory = .ok pa memory) :
    ∃ mapping after before,
      (history (.make ram fastPath capacity bridge) []
        (ops ++ [.resolve space slot vaddr access user])).2 =
          after ++ .walked (pageNumber vaddr) mapping :: before ∧
      .flushed ∉ after ∧ (∀ other, .walked (pageNumber vaddr) other ∉ after) ∧
      mapping.grants { user, write := access.writes } = true ∧
      pa = mapping.frame ||| pageOffset vaddr := by
  have hrec := (recorded_make ram fastPath capacity bridge).history ops
  rw [history_append]
  generalize history (.make ram fastPath capacity bridge) [] ops = state at hn hr hrec
  obtain ⟨m, log⟩ := state
  obtain ⟨mapping, he, hg, hpa⟩ := hrec.coherent.entry_of_resolve hn hr
  have hlast := (hrec.resolve space slot vaddr access user).entries (pageNumber vaddr)
  have hrun : ((MachineOp.resolve space slot vaddr access user).run m).memory = memory :=
    congrArg stateOf hr
  rw [hrun, he] at hlast
  obtain ⟨after, before, hlog, hf, hw⟩ := lastWalk_eq_some hlast.symm
  exact ⟨mapping, after, before, hlog, hf, hw, hg, hpa⟩

/-- After the table was rewritten the old walk answers, through the page cache, until the caches are
emptied. -/
theorem resolve_latest_rewritten :
    let start := Machine.make (.twoPages []) true 1 {}
    let space : AddressSpace := ⟨true, some 0⟩
    let load (vaddr : UInt32) : MachineOp := .resolve space .code vaddr .load false
    let rewritten := [load 0x2000, .write (·.write32 0x1008 0x3023)]
    let flushed := rewritten ++ [load 0x2004, .flush]
    (∃ memory, Memory.resolve space .code 0x2004 .load false (history start [] rewritten).1.memory =
      .ok 0x2004 memory) ∧
    (history start [] (flushed ++ [load 0x2004])).2 =
      [.walked 2 (.kernel 0x3000), .flushed, .walked 2 (.kernel 0x2000)] ∧
    (history start [] flushed).1.memory.tlb.epoch < UInt64.size ∧
    ∃ pa memory,
      Memory.resolve space .code 0x2004 .load false (history start [] flushed).1.memory =
        .ok pa memory ∧ pa = 0x3004 ∧
      ∃ mapping after before,
        (history start [] (flushed ++ [load 0x2004])).2 =
          after ++ .walked (pageNumber 0x2004) mapping :: before ∧
        .flushed ∉ after ∧ (∀ other, .walked (pageNumber 0x2004) other ∉ after) ∧
        mapping.grants { user := false, write := false } = true ∧
        pa = mapping.frame ||| pageOffset 0x2004 := by
  intro start space load rewritten flushed
  let later : List (UInt32 × UInt32) := [(0x1008, 0x3023)]
  let holding (memory : Memory) : Machine := { start with memory }
  have hold : walk space 0x2000 .load false (.twoPages []) =
      .ok (.kernel 0x2000) (.twoPages []) :=
    walk_twoPages (by simp) (by decide) rfl (by decide) rfl (by decide)
  have hnew : walk space 0x2004 .load false (.twoPages later) =
      .ok (.kernel 0x3000) (.twoPages later) :=
    walk_twoPages (by simp [later]) (by decide) rfl (by decide) rfl (by decide)
  have hfirst : Memory.resolve space .code 0x2000 .load false start.memory =
      .ok 0x2000 (.reread [] 0) :=
    Memory.resolve_emptied (fun _ h => Option.some_ne_none _ h.symm) hold
  have hstale := Memory.resolve_reread space later 0
  have hagain := Memory.resolve_renewed hnew
  have hwrite : (MachineOp.write (·.write32 0x1008 0x3023)).run (holding (.reread [] 0)) =
      holding (.reread later 0) :=
    congrArg (fun ram => holding { Memory.reread [] 0 with ram }) (Ram.write32_twoPages 0x1008 0x3023)
  have hrewritten : history start [] rewritten =
      (holding (.reread later 0), [.walked 2 (.kernel 0x2000)]) := by
    refine (history_cons (MachineOp.run_resolve hfirst)
      (MachineOp.events_of_miss (Nat.succ_ne_zero 0) hold Tlb.overflows_emptied) _).trans ?_
    exact history_cons hwrite rfl []
  have hflushed : history start [] flushed =
      (holding (Memory.reread later 1).flush, [.flushed, .walked 2 (.kernel 0x2000)]) := by
    rw [history_append, hrewritten]
    exact history_cons (MachineOp.run_resolve (m := holding (.reread later 0)) hstale)
      (MachineOp.events_of_hit rfl) [.flush]
  have hlog : (history start [] (flushed ++ [load 0x2004])).2 =
      [.walked 2 (.kernel 0x3000), .flushed, .walked 2 (.kernel 0x2000)] := by
    rw [history_append, hflushed]
    exact congrArg Prod.snd (history_cons (MachineOp.run_resolve hagain)
      (MachineOp.events_of_miss (Nat.succ_ne_self 1) hnew Tlb.overflows_emptied) [])
  have hn : (history start [] flushed).1.memory.tlb.epoch < UInt64.size :=
    Nat.lt_of_le_of_lt (epoch_history_le start [] flushed) (by decide)
  have hr : Memory.resolve space .code 0x2004 .load false (history start [] flushed).1.memory =
      .ok 0x3004 (.renewed later 0x3000) := by
    rw [hflushed]
    exact hagain
  refine ⟨⟨.reread later 1, ?_⟩, hlog, hn, 0x3004, _, hr, rfl, resolve_latest hn hr⟩
  rw [hrewritten]
  exact hstale

end PagedMachine
