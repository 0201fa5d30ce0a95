import PagedMachine.Proofs.Expiry
import PagedMachine.Proofs.Keystrokes

/-!
# Budgets of cycles

Nothing that code does changes the count of cycles, except that a step counts one and an instruction
that waits adds a poll interval (`cycle_executeNext`, `cycle_step`). So elapsed cycles, which are a
difference of words, grow from step to step until a budget is used up, and do not pass over the end of
their range: a run is what stepping comes to, and it takes no more steps than its budget has cycles
(`budget_kept`).
-/

set_option autoImplicit false

namespace PagedMachine.Machine

/-! ## Code that takes no time -/

theorem shielded_cycle : Shielded (·.regs.cycle) := fun _ _ _ _ _ _ _ _ _ _ _ _ => rfl

theorem secluded_cycle : Secluded (·.regs.cycle) := fun _ _ _ _ _ _ _ => rfl

/-- Code leaves the count of cycles. -/
abbrev Timeless {ε α : Type} (x : EStateM ε Machine α) : Prop := Keeps (·.regs.cycle) x

theorem plain_timeless : Plain Timeless := shielded_cycle.plain

theorem timeless_modifyRegs {ε : Type} {fn : Registers → Registers}
    (h : ∀ r, (fn r).cycle = r.cycle) : Timeless (modifyRegs fn : EStateM ε Machine Unit) :=
  .modify fun m => h m.regs

section
variable {ε : Type}

theorem timeless_note (e : Event) : Timeless (note e : EStateM ε Machine Unit) := .modify fun _ => rfl

theorem timeless_tickTimer (ticks : UInt32) :
    Timeless (tickTimer ticks : EStateM ε Machine Bool) := fun m => by
  rw [tickTimer_apply]
  rfl

theorem timeless_pollConsole : Timeless (pollConsole : EStateM ε Machine ConsoleEvent) := fun m => by
  rw [pollConsole_apply]
  rfl

theorem timeless_invalidatePath :
    Timeless (modifyMemory (·.invalidatePath) : EStateM ε Machine Unit) := .modify fun _ => rfl

end

/-! ## Entering and leaving the kernel -/

theorem timeless_pushKernel (v : UInt32) : Timeless (pushKernel v) :=
  .adapt _ (plain_timeless.push v)

theorem timeless_popKernel : Timeless popKernel := .adapt _ plain_timeless.pop

theorem timeless_enterKernel (cause : Fault) : Timeless (enterKernel cause) := by
  refine .bind plain_timeless.getRegs fun r => ?_
  split
  · exact .bind (timeless_modifyRegs fun _ => rfl) fun _ => .pure _
  · exact .pure _

theorem timeless_deliver (cause : Fault) : Timeless (deliver cause) := by
  refine .bind (timeless_enterKernel cause) fun code => ?_
  refine .bind (timeless_modifyRegs fun _ => rfl) fun _ => .bind plain_timeless.getRegs fun r => ?_
  refine .bind (timeless_pushKernel _) fun _ => .bind (timeless_pushKernel _) fun _ => ?_
  refine .bind plain_timeless.getRegs fun r => .bind (timeless_modifyRegs fun _ => rfl) fun _ => ?_
  exact timeless_invalidatePath

theorem timeless_raiseException (cause : Fault) : Timeless (raiseException cause) := by
  refine .bind plain_timeless.getRegs fun r => ?_
  split
  · refine .bind (fun _ => rfl) fun m => ?_
    exact .bind (timeless_modifyRegs fun _ => rfl) fun _ => timeless_deliver cause
  · exact .bind (timeless_modifyRegs fun _ => rfl) fun _ => .throw _

theorem timeless_raiseInterrupt (cause : Fault) : Timeless (raiseInterrupt cause) :=
  .bind (timeless_modifyRegs fun _ => rfl) fun _ =>
    .bind (timeless_deliver cause) fun _ => timeless_note _

theorem timeless_postInterrupt (cause : Fault) : Timeless (postInterrupt cause) := by
  refine .bind plain_timeless.getRegs fun r => ?_
  split
  · exact .bind (timeless_raiseInterrupt cause) fun _ => .pure _
  · exact .bind (timeless_modifyRegs fun _ => rfl) fun _ => .pure _

theorem timeless_enableInterrupts : Timeless enableInterrupts := by
  refine .bind (.bind plain_timeless.getRegs fun r => ?_) fun delivered => ?_
  · split
    · refine .bind (timeless_modifyRegs fun _ => rfl) fun _ => ?_
      exact .bind (timeless_raiseInterrupt _) fun _ => .pure _
    · exact .pure _
  · split
    · exact .pure _
    · exact timeless_modifyRegs fun _ => rfl

theorem timeless_returnFromInterrupt : Timeless returnFromInterrupt := by
  refine .bind timeless_popKernel fun code => .bind timeless_popKernel fun pc => ?_
  refine .bind (timeless_modifyRegs fun r => ?_) fun _ => .bind timeless_invalidatePath fun _ => ?_
  · rw [Registers.resume]
    split <;> rfl
  refine .bind plain_timeless.getRegs fun r => ?_
  split
  · exact .pure _
  · exact timeless_enableInterrupts

/-! ## Instructions -/

theorem timeless_perform (op : Operation) (i : Instruction) : Timeless (perform op i) := by
  by_cases hop : op.interrupts = false ∧ op ≠ .setTimer
  · exact shielded_cycle.perform secluded_cycle hop.1 hop.2 i
  refine .bind plain_timeless.getRegs fun r => ?_
  cases op with
  | idle => exact .pure _
  | disableInterrupts => exact timeless_modifyRegs fun _ => rfl
  | enableInterrupts => exact .adapt _ timeless_enableInterrupts
  | returnFromInterrupt => exact .adapt _ timeless_returnFromInterrupt
  | setTimer =>
    dsimp only
    split
    · exact .modify fun _ => rfl
    · exact .pure _
  | readKey =>
    refine .bind (.modifyGet fun _ => rfl) fun key => ?_
    cases key with
    | some k => exact .bind (timeless_note _) fun _ => plain_timeless.setInt _ _
    | none => exact plain_timeless.setInt _ _
  | _ => exact absurd ⟨rfl, nofun⟩ hop

/-- The next instruction waits for an interrupt, and none comes: it is neither refused nor without a
source of interrupts, and the console has neither a key nor the escape byte for it. -/
def pauses (m : Machine) : Bool :=
  m.next? = some .idle && !m.regs.user && m.regs.iena &&
    (m.timer.enabled || m.bridge.console.isOpen) && m.bridge.poll.1 = .quiet

section
variable {m m' : Machine}

/-- Waiting takes a poll interval where the console is quiet. -/
theorem cycle_idle (m : Machine) :
    (stateOf (idle m)).regs.cycle = m.regs.cycle +
      if m.regs.iena && (m.timer.enabled || m.bridge.console.isOpen) && m.bridge.poll.1 = .quiet
      then 4096 else 0 := by
  have hraise (cause : Fault) (m : Machine) :
      (stateOf ((liftM (raiseInterrupt cause) >>= fun _ => pure Flow.go : Exec Flow) m)).regs.cycle =
        m.regs.cycle :=
    Keeps.bind (.adapt _ (timeless_raiseInterrupt cause)) (fun _ => .pure Flow.go) m
  cases hi : m.regs.iena with
  | false =>
    rw [idle_of_masked hi]
    exact (UInt64.add_zero _).symm
  | true =>
    cases hs : m.timer.enabled || m.bridge.console.isOpen with
    | false =>
      rw [idle_without_source hi hs]
      exact (UInt64.add_zero _).symm
    | true =>
      rw [idle_apply hi hs]
      cases hp : m.bridge.poll.1 with
      | escape => exact (UInt64.add_zero _).symm
      | key b =>
        dsimp only
        rw [hraise]
        exact (UInt64.add_zero _).symm
      | quiet =>
        have hwaited : m.heard.waited.regs.cycle = m.regs.cycle + 4096 := rfl
        dsimp only
        split
        · rw [hraise]
          exact hwaited
        · exact hwaited

theorem timeless_execute {op : Operation} (hop : op ≠ .idle) (i : Instruction) :
    Timeless (execute op i) := by
  unfold execute
  split
  · exact .bind plain_timeless.getRegs fun _ => .pure _
  · exact absurd rfl hop
  · exact .bind (timeless_perform _ i) fun _ => .pure _

/-- What does not wait does not pause. -/
theorem pauses_of_not_idle (h : ¬(m.next? = some .idle ∧ m.regs.user = false)) :
    m.pauses = false := by
  refine Bool.eq_false_iff.2 fun hp => h ?_
  simp only [pauses, Bool.and_eq_true, decide_eq_true_eq, Bool.not_eq_true'] at hp
  exact hp.1.1.1

theorem cycle_executeNext_of_not_idle (h : ¬(m.next? = some .idle ∧ m.regs.user = false)) :
    (stateOf (executeNext m)).regs.cycle = m.regs.cycle := by
  unfold executeNext
  rw [bind_apply]
  cases hfetch : fetch m with
  | error stop m₁ => exact plain_timeless.fetch.of_error hfetch
  | ok i m₁ =>
    have hcycle : m₁.regs.cycle = m.regs.cycle := plain_timeless.fetch.of_ok hfetch
    rw [next?_of_fetch hfetch] at h
    rw [← hcycle]
    dsimp only
    rw [bind_apply]
    cases hdecode : decode i m₁ with
    | error stop m₂ =>
      obtain ⟨-, rfl⟩ := decode_eq_error hdecode
      rfl
    | ok op m₂ =>
      obtain ⟨hop, hmode, rfl⟩ := decode_eq_ok hdecode
      refine timeless_execute (fun hidle => h ⟨hop.trans (congrArg some hidle), ?_⟩) i m₂
      subst hidle
      rw [← user_of_fetch hfetch]
      exact Bool.eq_false_iff.2 fun hu => absurd (hmode hu) (by decide)

/-- An instruction takes a poll interval if it pauses, and no time if not. -/
theorem cycle_executeNext (m : Machine) :
    (stateOf (executeNext m)).regs.cycle = m.regs.cycle + if m.pauses then 4096 else 0 := by
  by_cases hidle : m.next? = some .idle ∧ m.regs.user = false
  · obtain ⟨hnext, hu⟩ := hidle
    obtain ⟨i, m₁, hfetch, hop⟩ := next?_eq_some hnext
    -- a fetch leaves all that waiting looks at
    have hsame : m₁.privileged = m.privileged := shielded_privileged.plain.fetch.of_ok hfetch
    obtain ⟨a, b, c, f, g, sp, pc, memory, ipc, ir, blockBytes, rfl⟩ := eq_of_privileged hsame
    have hpauses : m.pauses = (m.regs.iena &&
        (m.timer.enabled || m.bridge.console.isOpen) && m.bridge.poll.1 = .quiet) := by
      rw [pauses, hnext, hu]
      rfl
    rw [executeNext_of_fetch hfetch hop fun h => absurd (hu.symm.trans h) Bool.false_ne_true, hpauses]
    exact cycle_idle _
  · rw [pauses_of_not_idle hidle, cycle_executeNext_of_not_idle hidle]
    exact (UInt64.add_zero _).symm

end

/-! ## Steps -/

theorem timeless_onStop (stop : Stop) : Timeless (onStop stop) := by
  cases stop with
  | fatal reason => exact .throw reason
  | fault cause => exact .bind (timeless_raiseException cause) fun _ => .pure _

/-- The fault of an instruction is delivered in no time. -/
theorem cycle_executeGuarded (m : Machine) :
    (stateOf (executeGuarded m)).regs.cycle = m.regs.cycle + if m.pauses then 4096 else 0 := by
  rw [executeGuarded_eq, handle_apply, ← cycle_executeNext]
  cases executeNext m with
  | ok flow m₁ => rfl
  | error stop m₁ => exact timeless_onStop stop m₁

theorem timeless_postAndEnd (cause : Fault) : Timeless (postAndEnd cause) :=
  .bind (timeless_postInterrupt cause) fun _ => .pure _

theorem timeless_pollKeyboard : Timeless pollKeyboard := by
  refine .bind plain_timeless.getRegs fun r => ?_
  split
  · refine .bind timeless_pollConsole fun event => ?_
    cases event with
    | escape => exact .pure _
    | key b => exact timeless_postAndEnd _
    | quiet => exact .pure _
  · exact .pure _

theorem timeless_pollDevices : Timeless pollDevices := by
  refine .bind timeless_pollKeyboard fun ended => ?_
  cases ended with
  | some flow => exact .pure _
  | none =>
    refine .bind (timeless_tickTimer _) fun expired => ?_
    split
    · exact timeless_postAndEnd _
    · exact .pure _

theorem cycle_tick (m : Machine) : (stateOf (tick m)).regs.cycle = m.regs.cycle + 1 := by
  rw [tick_apply]
  split
  · exact timeless_pollDevices m.counted
  · rfl

/-- The next step comes to its instruction, and that pauses. -/
def paused (m : Machine) : Bool :=
  match tick m with
  | .ok none m₁ => m₁.pauses
  | _ => false

/-- A step takes one cycle, and a poll interval more if it pauses. -/
theorem cycle_step (m : Machine) :
    (stateOf (step m)).regs.cycle = m.regs.cycle + if m.paused then 4097 else 1 := by
  have hcycle := cycle_tick m
  cases htick : tick m with
  | error reason m₁ =>
    rw [htick] at hcycle
    rw [step_of_tick_error htick, paused, htick]
    exact hcycle
  | ok ended m₁ =>
    rw [htick] at hcycle
    cases ended with
    | some flow =>
      rw [step_of_tick_some htick, paused, htick]
      exact hcycle
    | none =>
      have hpaused : m.paused = m₁.pauses := by rw [paused, htick]
      rw [step_of_tick htick, hpaused, cycle_executeGuarded]
      change m₁.regs.cycle = m.regs.cycle + 1 at hcycle
      rw [hcycle, UInt64.add_assoc]
      cases m₁.pauses <;> rfl

/-! ## Runs -/

/-- From `m`, `n` steps go on to a machine, and each was begun with less than `budget` cycles gone. -/
inductive Afforded (budget : UInt64) (m : Machine) : Nat → Machine → Prop
  | start : Afforded budget m 0 m
  | step {n : Nat} {m₁ m₂ : Machine} : Afforded budget m n m₁ →
      m₁.regs.cycle - m.regs.cycle < budget → Machine.step m₁ = .ok .go m₂ →
      Afforded budget m (n + 1) m₂

/-- What `n` steps from `m` come to. They end with the first that does not go on, or at the first
boundary at which `budget` cycles are gone. -/
inductive Ran (budget : UInt64) (m : Machine) :
    Nat → EStateM.Result FatalReason Machine RunExit → Prop
  | spent {n : Nat} {m₁ : Machine} : Afforded budget m n m₁ →
      budget ≤ m₁.regs.cycle - m.regs.cycle → Ran budget m n (.ok .budgetExhausted m₁)
  | halted {n : Nat} {m₁ m₂ : Machine} {code : UInt32} : Afforded budget m n m₁ →
      m₁.regs.cycle - m.regs.cycle < budget → Machine.step m₁ = .ok (.halt code) m₂ →
      Ran budget m (n + 1) (.ok (.halted code) m₂)
  | escaped {n : Nat} {m₁ m₂ : Machine} : Afforded budget m n m₁ →
      m₁.regs.cycle - m.regs.cycle < budget → Machine.step m₁ = .ok .escape m₂ →
      Ran budget m (n + 1) (.ok .escaped m₂)
  | failed {n : Nat} {m₁ m₂ : Machine} {reason : FatalReason} : Afforded budget m n m₁ →
      m₁.regs.cycle - m.regs.cycle < budget → Machine.step m₁ = .error reason m₂ →
      Ran budget m (n + 1) (.error reason m₂)

section
variable {budget start : UInt64} {m m₁ m₂ : Machine} {n : Nat}

/-- A step within the budget adds its cycles to those that are gone, without passing over the end of
their range. -/
theorem elapsed_step (hb : budget.toNat + 4097 ≤ UInt64.size) (hin : m.regs.cycle - start < budget)
    {flow : Flow} (h : step m = .ok flow m₁) :
    (m₁.regs.cycle - start).toNat =
      (m.regs.cycle - start).toNat + if m.paused then 4097 else 1 := by
  have hcycle := cycle_step m
  rw [h, stateOf_ok] at hcycle
  have hin := UInt64.lt_iff_toNat_lt.1 hin
  have helapsed : m₁.regs.cycle - start =
      m.regs.cycle - start + if m.paused then 4097 else 1 := by
    rw [hcycle, UInt64.sub_eq_add_neg, UInt64.sub_eq_add_neg, UInt64.add_assoc, UInt64.add_assoc,
      UInt64.add_comm (-start)]
  rw [helapsed, UInt64.toNat_add]
  cases m.paused with
  | false => exact Nat.mod_eq_of_lt (show _ + 1 < UInt64.size by omega)
  | true => exact Nat.mod_eq_of_lt (show _ + 4097 < UInt64.size by omega)

/-- Every step takes a cycle. -/
theorem Afforded.le (hb : budget.toNat + 4097 ≤ UInt64.size) (h : Afforded budget m n m₁) :
    n ≤ (m₁.regs.cycle - m.regs.cycle).toNat := by
  induction h with
  | start => exact Nat.zero_le _
  | step _ hin hstep ih =>
    rw [elapsed_step hb hin hstep]
    split <;> omega

theorem runFrom_of_spent {fuel : Nat} (h : budget ≤ m.regs.cycle - start) :
    runFrom start budget fuel m = .ok .budgetExhausted m := by
  cases fuel with
  | zero => rfl
  | succ fuel =>
    rw [runFrom, bind_apply, getRegs_apply]
    dsimp only
    rw [if_neg (UInt64.not_lt.2 h)]
    rfl

theorem runFrom_of_go {fuel : Nat} (hin : m.regs.cycle - start < budget)
    (hstep : Machine.step m = .ok .go m₁) :
    runFrom start budget (fuel + 1) m = runFrom start budget fuel m₁ := by
  rw [runFrom, bind_apply, getRegs_apply]
  dsimp only
  rw [if_pos hin, bind_apply, hstep]

/-- A run goes on from where its steps have come to, as long as there is a step for each cycle that
remains of its budget. -/
theorem Afforded.ran (hb : budget.toNat + 4097 ≤ UInt64.size) (h : Afforded budget m n m₁) {fuel : Nat}
    (hfuel : n + fuel = budget.toNat) :
    ∃ n' ≤ budget.toNat, Ran budget m n' (runFrom m.regs.cycle budget fuel m₁) := by
  induction fuel generalizing n m₁ with
  | zero =>
    have hspent : budget ≤ m₁.regs.cycle - m.regs.cycle :=
      UInt64.le_iff_toNat_le.2 (hfuel ▸ h.le hb)
    exact ⟨n, Nat.le_of_eq hfuel, .spent h hspent⟩
  | succ fuel ih =>
    by_cases hin : m₁.regs.cycle - m.regs.cycle < budget
    · rw [runFrom, bind_apply, getRegs_apply]
      dsimp only
      rw [if_pos hin, bind_apply]
      have hn : n + 1 ≤ budget.toNat := by omega
      cases hstep : Machine.step m₁ with
      | error reason m₂ => exact ⟨n + 1, hn, .failed h hin hstep⟩
      | ok flow m₂ =>
        cases flow with
        | go => exact ih (h.step hin hstep) (by omega)
        | halt code => exact ⟨n + 1, hn, .halted h hin hstep⟩
        | escape => exact ⟨n + 1, hn, .escaped h hin hstep⟩
    · rw [runFrom_of_spent (UInt64.not_lt.1 hin)]
      exact ⟨n, by omega, .spent h (UInt64.not_lt.1 hin)⟩

/-- The last step of a run is the only one that may take more cycles than are left. -/
theorem Afforded.overshoot (hb : budget.toNat + 4097 ≤ UInt64.size) (h : Afforded budget m n m₁)
    (hspent : budget ≤ m₁.regs.cycle - m.regs.cycle) :
    (m₁.regs.cycle - m.regs.cycle).toNat ≤ budget.toNat + 4096 ∧
      (m₁.regs.cycle - m.regs.cycle = budget ∨ ∃ n m₂, Afforded budget m n m₂ ∧
        Machine.step m₂ = .ok .go m₁ ∧ m₂.paused = true) := by
  have hspent := UInt64.le_iff_toNat_le.1 hspent
  cases h with
  | start =>
    rw [UInt64.sub_self] at hspent ⊢
    exact ⟨Nat.zero_le _, .inl (UInt64.toNat_inj.1 (Nat.le_antisymm (Nat.zero_le _) hspent))⟩
  | @step n m₂ _ h hin hstep =>
    have helapsed := elapsed_step hb hin hstep
    have hin := UInt64.lt_iff_toNat_lt.1 hin
    cases hpaused : m₂.paused with
    | false =>
      rw [hpaused] at helapsed
      change _ = _ + 1 at helapsed
      exact ⟨by omega, .inl (UInt64.toNat_inj.1 (by omega))⟩
    | true =>
      rw [hpaused] at helapsed
      change _ = _ + 4097 at helapsed
      exact ⟨by omega, .inr ⟨n, m₂, h, hstep, hpaused⟩⟩

end

/-! ## A run that is spent exactly, and one that goes over -/

/-- A machine that jumps to itself uses its budget up, if no poll comes before. -/
theorem Spins.spend {budget : UInt64} (hpoll : budget.toNat < 4096) {fuel : Nat} :
    ∀ {n : Nat} {m : Machine}, m.Spins n.toUInt64 → n + fuel = budget.toNat →
      ∃ m', runFrom 0 budget fuel m = .ok .budgetExhausted m' ∧ m'.Spins budget := by
  induction fuel with
  | zero =>
    intro n m h hn
    have hspent : n.toUInt64 = budget := UInt64.toNat_inj.1
      ((UInt64.toNat_ofNat_of_lt' (Nat.lt_of_le_of_lt (Nat.le_of_eq hn) budget.toNat_lt)).trans hn)
    exact ⟨m, rfl, hspent ▸ h⟩
  | succ fuel ih =>
    intro n m h hn
    obtain ⟨m', hstep, h'⟩ := h.next (by omega)
    obtain ⟨m'', hrest, h''⟩ := ih h' (by omega)
    have hcount : n.toUInt64.toNat = n :=
      UInt64.toNat_ofNat_of_lt' (Nat.lt_of_le_of_lt (by omega) budget.toNat_lt)
    have hin : m.regs.cycle - 0 < budget := by
      rw [h.regs, UInt64.lt_iff_toNat_lt, UInt64.sub_zero, hcount]
      omega
    exact ⟨m'', (runFrom_of_go hin hstep).trans hrest, h''⟩

/-- Where neither a poll is due nor the timer, a machine that waits pauses for an interval. -/
theorem Idling.pause {m : Machine} (h : m.Idling)
    (hdue : (m.regs.cycle + 1) % pollInterval.toUInt64 ≠ 0)
    (hearly : (m.timer.tick pollInterval).1 = false) :
    ∃ m', Machine.step m = .ok .go m' ∧ m'.regs.cycle = m.regs.cycle + 4097 := by
  obtain ⟨hpoll, -⟩ := poll_of_quiet h.quiet
  obtain ⟨halign, pa, memory, hresolve, hop⟩ := next?_eq_some_iff.1 h.next
  have hs : (m.timer.enabled || m.bridge.console.isOpen) = true := by
    simp [Timer.enabled, h.timer]
  have hpaused : m.paused = true := by
    have hnext : m.counted.next? = some .idle :=
      next?_eq_some_iff.2 ⟨halign, pa, memory, hresolve, hop⟩
    have hmode : m.counted.regs.user = false ∧ m.counted.regs.iena = true := ⟨h.kernel, h.iena⟩
    have hdevices : (m.counted.timer.enabled || m.counted.bridge.console.isOpen) = true ∧
      m.counted.bridge.poll.1 = .quiet := ⟨hs, hpoll⟩
    rw [paused, tick_of_not_due hdue]
    simp [pauses, hnext, hmode, hdevices]
  let fetched : Machine :=
    { m with
      regs := { m.regs with pc := m.regs.pc + 4, cycle := m.regs.cycle + 1 }, memory
      ipc := m.regs.pc, ir := ⟨memory.ram.read32 pa⟩ }
  have hidle : idle fetched =
      .ok .go { fetched.heard.waited with
        regs := { fetched.heard.waited.regs with pc := fetched.ipc } } := by
    have hearly : ¬(fetched.heard.timer.tick pollInterval).1 = true :=
      fun hfired => Bool.false_ne_true (hearly.symm.trans hfired)
    rw [idle_apply (m := fetched) h.iena hs, show fetched.bridge.poll.1 = .quiet from hpoll]
    exact if_neg hearly
  have hstep := step_of_resolved hdue halign hresolve rfl hop
    (fun hu => absurd (h.kernel.symm.trans hu) Bool.false_ne_true) hidle
  have hcycle := cycle_step m
  rw [hstep, hpaused] at hcycle
  exact ⟨_, hstep, hcycle⟩

/-! ## Main result -/

/-- An instruction leaves the count of cycles, unless it pauses; a step counts one cycle, and the poll
interval of an instruction that pauses. A run takes at most as many steps as its budget has cycles, and
comes to what they come to. If the budget ends it, the budget is used up exactly, or a step that paused
went over it by at most a poll interval. -/
theorem budget_kept (m : Machine) :
    (stateOf (executeNext m)).regs.cycle = m.regs.cycle + (if m.pauses then 4096 else 0) ∧
      (stateOf (step m)).regs.cycle = m.regs.cycle + (if m.paused then 4097 else 1) ∧
      ∀ budget : UInt64, budget.toNat + 4097 ≤ UInt64.size →
        (∃ n ≤ budget.toNat, Ran budget m n (run budget m)) ∧
        ∀ m', run budget m = .ok .budgetExhausted m' →
          budget ≤ m'.regs.cycle - m.regs.cycle ∧
          (m'.regs.cycle - m.regs.cycle).toNat ≤ budget.toNat + 4096 ∧
          (m'.regs.cycle - m.regs.cycle = budget ∨ ∃ n m₁, Afforded budget m n m₁ ∧
            step m₁ = .ok .go m' ∧ m₁.paused = true) := by
  refine ⟨cycle_executeNext m, cycle_step m, fun budget hb => ?_⟩
  have hrun : run budget m = runFrom m.regs.cycle budget budget.toNat m := by
    rw [run, bind_apply, getRegs_apply]
  obtain ⟨n, hn, hran⟩ := Afforded.start.ran hb (Nat.zero_add budget.toNat)
  rw [← hrun] at hran
  refine ⟨⟨n, hn, hran⟩, fun m' hspent => ?_⟩
  rw [hspent] at hran
  cases hran with
  | spent h hspent => exact ⟨hspent, h.overshoot hb hspent⟩

/-- One run uses its budget up exactly. The other begins to wait in its first step, and goes over. -/
theorem budget_kept_spent :
    (∃ m m' : Machine, run 1000 m = .ok .budgetExhausted m' ∧
      m'.regs.cycle - m.regs.cycle = 1000 ∧
      ∃ n ≤ (1000 : UInt64).toNat, Ran 1000 m n (run 1000 m)) ∧
    ∃ m m' : Machine, run 1000 m = .ok .budgetExhausted m' ∧
      m'.regs.cycle - m.regs.cycle = 4097 ∧
      (m'.regs.cycle - m.regs.cycle).toNat ≤ (1000 : UInt64).toNat + 4096 ∧
      ∃ n m₁, Afforded 1000 m n m₁ ∧ step m₁ = .ok .go m' ∧ m₁.paused = true := by
  constructor
  · let config : Config := { megabytes := 1, tlbCapacity := 1 }
    let e : Emulator :=
      { machine := .make (.zeroed config.memoryBytes) true 1
          { console := { pending := [65] }, escape := some 96 }
        config }
    obtain ⟨e', -, hspins⟩ := load_spinning (e := e) rfl
      ((Ram.size_zeroed _).trans (by decide)) rfl .stored fun _ => none
    have hbudget : (1000 : UInt64).toNat < 4096 := by decide
    obtain ⟨m', hspent, hspins'⟩ := Spins.spend hbudget hspins (Nat.zero_add _)
    have hrun : run 1000 e'.machine = .ok .budgetExhausted m' := by
      rw [run, bind_apply, getRegs_apply, hspins.regs]
      exact hspent
    have hcycle : m'.regs.cycle - e'.machine.regs.cycle = 1000 := by
      rw [hspins'.regs, hspins.regs]
      rfl
    obtain ⟨-, -, hkept⟩ := budget_kept e'.machine
    exact ⟨e'.machine, m', hrun, hcycle, (hkept 1000 (by decide)).1⟩
  · obtain ⟨m', hstep, hcycle⟩ := idling_dozing.pause (by decide) (by decide)
    have helapsed : m'.regs.cycle - dozing.regs.cycle = 4097 := by
      rw [hcycle]
      rfl
    have hover : 1000 ≤ m'.regs.cycle - dozing.regs.cycle := by
      rw [helapsed]
      decide
    have hrun : run 1000 dozing = .ok .budgetExhausted m' := by
      rw [run, bind_apply, getRegs_apply]
      show runFrom dozing.regs.cycle 1000 (999 + 1) dozing = _
      rw [runFrom_of_go (by decide) hstep, runFrom_of_spent hover]
    obtain ⟨-, -, hkept⟩ := budget_kept dozing
    obtain ⟨-, hmost, hexact | hpaused⟩ := (hkept 1000 (by decide)).2 m' hrun
    · rw [helapsed] at hexact
      exact absurd hexact (by decide)
    · exact ⟨dozing, m', hrun, helapsed, hmost, hpaused⟩

end PagedMachine.Machine
