import PagedMachine.Step
import PagedMachine.Trap.Lemmas

/-!
# Steps, part by part

A step is what comes before its instruction, `Machine.tick`, and then the instruction, unless the
former ended it (`step_eq`). What the two devices do when they are polled is said here as well: the
console in three cases (`Bridge.Polled`), the timer in one equation.
-/

set_option autoImplicit false

namespace PagedMachine

/-- What one poll of the console can bring, and the bridge after it. -/
inductive Bridge.Polled (b : Bridge) : ConsoleEvent → Bridge → Prop
  | quiet (supply : Supply) : b.console.pending = [] →
      Polled b .quiet { b with console := { b.console with supply } }
  | key {k : UInt8} {rest : List UInt8} : b.console.pending = k :: rest → b.escape ≠ some k →
      Polled b (.key k)
        { b with console := { b.console with pending := rest }, latch := some k }
  | escape {k : UInt8} {rest : List UInt8} : b.console.pending = k :: rest → b.escape = some k →
      Polled b .escape { b with console := { b.console with pending := rest } }

theorem Bridge.polled_poll (b : Bridge) : b.Polled b.poll.1 b.poll.2 := by
  obtain ⟨⟨pending, supply, output⟩, sockets, latch, escape⟩ := b
  cases pending with
  | cons k rest =>
    by_cases he : escape = some k
    · simp only [poll, Console.poll, if_pos he]
      exact .escape rfl he
    · simp only [poll, Console.poll, if_neg he]
      exact .key rfl he
  | nil =>
    simp only [poll, Console.poll]
    cases supply with
    | live => exact .quiet .live rfl
    | file => exact .quiet .closed rfl
    | closed => exact .quiet .closed rfl

namespace Machine

/-! ## Devices -/

/-- The machine with one more cycle counted. -/
def counted (m : Machine) : Machine :=
  { m with regs := { m.regs with cycle := m.regs.cycle + 1 } }

/-- What is noted of a poll of the console. -/
def noted (journal : List Event) : ConsoleEvent → List Event
  | .key b => .keyLatched b :: journal
  | .quiet | .escape => journal

/-- The machine after one poll of the console. -/
def heard (m : Machine) : Machine :=
  { m with bridge := m.bridge.poll.2, journal := noted m.journal m.bridge.poll.1 }

/-- The machine after the timer was advanced. -/
def ticked (ticks : UInt32) (m : Machine) : Machine :=
  { m with
    timer := (m.timer.tick ticks).2
    journal := if (m.timer.tick ticks).1 then .timerExpired :: m.journal else m.journal }

/-- The machine after a poll interval went by. -/
def waited (m : Machine) : Machine :=
  ticked pollInterval
    { m with regs := { m.regs with cycle := m.regs.cycle + pollInterval.toUInt64 } }

section
variable {ε : Type}

theorem pollConsole_apply (m : Machine) :
    (pollConsole : EStateM ε Machine ConsoleEvent) m = .ok m.bridge.poll.1 m.heard := by
  have hb : (onBridge (·.poll) : EStateM ε Machine ConsoleEvent) m =
      .ok m.bridge.poll.1 { m with bridge := m.bridge.poll.2 } := rfl
  rw [pollConsole, bind_apply, hb, heard]
  cases m.bridge.poll.1 <;> rfl

theorem tickTimer_apply (ticks : UInt32) (m : Machine) :
    (tickTimer ticks : EStateM ε Machine Bool) m =
      .ok (m.timer.tick ticks).1 (m.ticked ticks) := by
  rw [tickTimer, modifyGet_apply, ticked]
  cases m.timer.tick ticks with
  | mk fired timer => cases fired <;> rfl

end

/-- What waiting for an interrupt does where it may: the console is polled first and, if nothing came
from it, the timer is advanced. -/
theorem idle_apply {m : Machine} (hi : m.regs.iena = true)
    (hs : (m.timer.enabled || m.bridge.console.isOpen) = true) :
    idle m =
      match m.bridge.poll.1 with
      | .escape => .ok .escape m.heard
      | .key _ => (liftM (raiseInterrupt .keyboard) >>= fun _ => pure Flow.go : Exec Flow) m.heard
      | .quiet =>
        if (m.heard.timer.tick pollInterval).1 then
          (liftM (raiseInterrupt .timer) >>= fun _ => pure Flow.go : Exec Flow) m.heard.waited
        else .ok .go { m.heard.waited with regs := { m.heard.waited.regs with pc := m.ipc } } := by
  rw [idle, bind_apply, get_apply]
  dsimp only
  rw [bind_apply, require_apply, if_pos hi]
  dsimp only
  rw [bind_apply, require_apply, if_pos hs]
  dsimp only
  rw [bind_apply, pollConsole_apply]
  cases hp : m.bridge.poll.1 with
  | escape => rfl
  | key b => rfl
  | quiet =>
    dsimp only
    rw [bind_apply, modifyRegs_apply]
    dsimp only
    rw [bind_apply, tickTimer_apply]
    dsimp only
    have hipc : m.heard.waited.ipc = m.ipc := by simp only [waited, ticked, heard]
    rw [← hipc, waited]
    cases (m.heard.timer.tick pollInterval).1 with
    | true => rw [if_pos rfl, if_pos rfl]
    | false =>
      rw [if_neg Bool.false_ne_true, if_neg Bool.false_ne_true]
      generalize ticked pollInterval _ = m₁
      rfl

theorem raiseInterrupt_then_eq_error {m m' : Machine} {cause : Fault} {flow : Flow} {stop : Stop}
    (h : (liftM (raiseInterrupt cause) >>= fun _ => pure flow : Exec Flow) m = .error stop m') :
    stop = .fatal .kernelStackFault := by
  rcases bind_eq_error_iff.1 h with h | ⟨_, m₁, -, h⟩
  · obtain ⟨reason, rfl, hraise⟩ := liftDelivery_eq_error h
    rw [raiseInterrupt_eq_error hraise]
  · cases h

/-- Waiting is refused where no interrupt could be delivered. -/
theorem idle_of_masked {m : Machine} (hi : m.regs.iena = false) :
    idle m = .error (.fault .illegalInstruction) m := by
  rw [idle, bind_apply, get_apply]
  dsimp only
  rw [hi]
  rfl

/-- Waiting is fatal where no interrupt can come. -/
theorem idle_without_source {m : Machine} (hi : m.regs.iena = true)
    (hs : (m.timer.enabled || m.bridge.console.isOpen) = false) :
    idle m = .error (.fatal .idleWithoutInterruptSource) m := by
  rw [idle, bind_apply, get_apply]
  dsimp only
  rw [hi, hs]
  rfl

theorem idle_eq_error {m m' : Machine} {stop : Stop} (h : idle m = .error stop m') :
    (m.regs.iena = false ∧ stop = .fault .illegalInstruction ∧ m' = m) ∨
      m.regs.iena = true ∧
        (stop = .fatal .idleWithoutInterruptSource ∨ stop = .fatal .kernelStackFault) := by
  by_cases hi : m.regs.iena = true
  · refine .inr ⟨hi, ?_⟩
    by_cases hs : (m.timer.enabled || m.bridge.console.isOpen) = true
    · right
      rw [idle_apply hi hs] at h
      split at h
      · cases h
      · exact raiseInterrupt_then_eq_error h
      · split at h
        · exact raiseInterrupt_then_eq_error h
        · cases h
    · left
      rw [idle_without_source hi (Bool.eq_false_iff.2 hs)] at h
      exact (EStateM.Result.error.inj h).1.symm
  · have hoff : m.regs.iena = false := Bool.eq_false_iff.2 hi
    rw [idle_of_masked hoff] at h
    obtain ⟨rfl, rfl⟩ := EStateM.Result.error.inj h
    exact .inl ⟨hoff, rfl, rfl⟩

/-! ## Before the instruction -/

/-- What a step does before its instruction: counts the cycle and polls the devices if that is due. It
is over if an interrupt was delivered or the escape byte came. -/
def tick : Delivery (Option Flow) := do
  modifyRegs fun r => { r with cycle := r.cycle + 1 }
  if (← getRegs).cycle % pollInterval.toUInt64 = 0 then pollDevices else return none

theorem step_eq :
    step = (do
      match ← tick with
      | some flow => return flow
      | none => executeGuarded) := by
  funext m
  simp only [step, tick, bind_apply, modifyRegs_apply, getRegs_apply]
  split
  · rfl
  · rfl

/-- A step whose instruction is due goes on with it. -/
theorem step_of_tick {m m₁ : Machine} (h : tick m = .ok none m₁) : step m = executeGuarded m₁ := by
  rw [step_eq, bind_apply, h]

theorem step_of_tick_some {m m₁ : Machine} {flow : Flow} (h : tick m = .ok (some flow) m₁) :
    step m = .ok flow m₁ := by
  rw [step_eq, bind_apply, h]
  rfl

theorem step_of_tick_error {m m₁ : Machine} {reason : FatalReason}
    (h : tick m = .error reason m₁) : step m = .error reason m₁ := by
  rw [step_eq, bind_apply, h]

/-- An interrupt is delivered, which ends the step, or left pending. -/
theorem postAndEnd_apply (cause : Fault) (m : Machine) :
    postAndEnd cause m =
      if m.regs.iena then
        match raiseInterrupt cause m with
        | .ok _ m' => .ok (some .go) m'
        | .error reason m' => .error reason m'
      else
        .ok none { m with regs := { m.regs with ipend := m.regs.ipend ||| cause.pendingBit } } := by
  rw [postAndEnd, bind_apply, postInterrupt_apply]
  by_cases hi : m.regs.iena = true
  · rw [if_pos hi, if_pos hi]
    cases raiseInterrupt cause m <;> rfl
  · rw [if_neg hi, if_neg hi]
    rfl

theorem postAndEnd_eq_ok {m m' : Machine} {cause : Fault} {ended : Option Flow}
    (h : postAndEnd cause m = .ok ended m') :
    (m.regs.iena = true ∧ ended = some .go ∧ raiseInterrupt cause m = .ok () m') ∨
      m.regs.iena = false ∧ ended = none ∧
        m' = { m with regs := { m.regs with ipend := m.regs.ipend ||| cause.pendingBit } } := by
  rw [postAndEnd_apply] at h
  split at h
  · rename_i hi
    split at h
    · rename_i hraise
      obtain ⟨rfl, rfl⟩ := EStateM.Result.ok.inj h
      exact .inl ⟨hi, rfl, hraise⟩
    · cases h
  · rename_i hi
    obtain ⟨rfl, rfl⟩ := EStateM.Result.ok.inj h
    exact .inr ⟨Bool.eq_false_iff.2 hi, rfl, rfl⟩

/-- The console is polled unless a key waits to be delivered. -/
theorem pollKeyboard_apply (m : Machine) :
    pollKeyboard m =
      if m.regs.iena || m.regs.ipend &&& Fault.keyboard.pendingBit = 0 then
        match m.bridge.poll.1 with
        | .escape => .ok (some .escape) m.heard
        | .key _ => postAndEnd .keyboard m.heard
        | .quiet => .ok none m.heard
      else .ok none m := by
  rw [pollKeyboard, bind_apply, getRegs_apply]
  dsimp only
  split
  · rw [bind_apply, pollConsole_apply]
    cases m.bridge.poll.1 <;> rfl
  · rfl

theorem pollTimer_apply (m : Machine) :
    pollTimer m =
      if (m.timer.tick pollInterval).1 then postAndEnd .timer (m.ticked pollInterval)
      else .ok none (m.ticked pollInterval) := by
  rw [pollTimer, bind_apply, tickTimer_apply]
  dsimp only
  split <;> rfl

theorem pollTimer_of_disabled {m : Machine} (h : m.timer.timeout = 0) :
    pollTimer m = .ok none m := by
  rw [pollTimer_apply, ticked, Timer.tick_disabled h]
  rfl

/-- The timer is advanced if the console did not end the step. -/
theorem pollDevices_eq_ok {m m' : Machine} {flow : Option Flow} (h : pollDevices m = .ok flow m') :
    (flow.isSome = true ∧ pollKeyboard m = .ok flow m') ∨
      ∃ m₁, pollKeyboard m = .ok none m₁ ∧ pollTimer m₁ = .ok flow m' := by
  obtain ⟨ended, m₁, hkey, hrest⟩ := bind_eq_ok_iff.1 h
  cases ended with
  | some flow' =>
    obtain ⟨rfl, rfl⟩ := EStateM.Result.ok.inj hrest
    exact .inl ⟨rfl, hkey⟩
  | none => exact .inr ⟨m₁, hkey, hrest⟩

/-- Before its instruction a step counts a cycle and may poll the devices. -/
theorem tick_apply (m : Machine) :
    tick m =
      if m.counted.regs.cycle % pollInterval.toUInt64 = 0 then pollDevices m.counted
      else .ok none m.counted := by
  rw [tick, bind_apply, modifyRegs_apply]
  dsimp only
  rw [bind_apply, getRegs_apply]
  dsimp only [counted]
  by_cases hdue : (m.regs.cycle + 1) % pollInterval.toUInt64 = 0
  · rw [if_pos hdue]
    exact (if_pos hdue).symm
  · rw [if_neg hdue]
    exact (if_neg hdue).symm

theorem postAndEnd_eq_error {m m' : Machine} {cause : Fault} {reason : FatalReason}
    (h : postAndEnd cause m = .error reason m') : reason = .kernelStackFault := by
  rw [postAndEnd_apply] at h
  split at h
  · cases hr : raiseInterrupt cause m with
    | ok u m₁ =>
      rw [hr] at h
      cases h
    | error reason' m₁ =>
      rw [hr] at h
      obtain ⟨rfl, -⟩ := EStateM.Result.error.inj h
      exact raiseInterrupt_eq_error hr
  · cases h

/-- A step stops before its instruction only if an interrupt finds no room on the kernel's stack. -/
theorem tick_eq_error {m m' : Machine} {reason : FatalReason} (h : tick m = .error reason m') :
    reason = .kernelStackFault := by
  rw [tick_apply] at h
  split at h
  · rcases bind_eq_error_iff.1 h with hkey | ⟨ended, m₁, -, hrest⟩
    · rw [pollKeyboard_apply] at hkey
      split at hkey
      · split at hkey
        · cases hkey
        · exact postAndEnd_eq_error hkey
        · cases hkey
      · cases hkey
    · cases ended with
      | some flow => cases hrest
      | none =>
        dsimp only at hrest
        rw [pollTimer_apply] at hrest
        split at hrest
        · exact postAndEnd_eq_error hrest
        · cases hrest
  · cases h

/-- Between two polls a cycle is counted, and that is all. -/
theorem tick_of_not_due {m : Machine} (h : (m.regs.cycle + 1) % pollInterval.toUInt64 ≠ 0) :
    tick m = .ok none m.counted := by
  rw [tick_apply]
  exact if_neg h

/-- A step in which no device is polled executes the word where the program counter is resolved to. -/
theorem step_of_resolved {m m' : Machine} {flow : Flow} {pa word : UInt32} {op : Operation}
    {memory : Memory} (hdue : (m.regs.cycle + 1) % pollInterval.toUInt64 ≠ 0)
    (halign : m.regs.pc &&& 3 = 0)
    (hr : Memory.resolve m.regs.space .code m.regs.pc .fetch m.regs.user m.memory = .ok pa memory)
    (hword : memory.ram.read32 pa = word) (hop : (Instruction.mk word).operation? = some op)
    (hmode : m.regs.user = true → op.privileged = false)
    (hexecute : execute op ⟨word⟩ { m with
      regs := { m.regs with pc := m.regs.pc + 4, cycle := m.regs.cycle + 1 }, memory
      ipc := m.regs.pc, ir := ⟨word⟩ } = .ok flow m') : step m = .ok flow m' := by
  subst hword
  have hnext : executeNext m.counted = .ok flow m' :=
    (executeNext_of_fetch (fetch_of_resolved (m := m.counted) halign hr) hop hmode).trans hexecute
  rw [step_of_tick (tick_of_not_due hdue), executeGuarded, hnext]

/-- The machine after a `halt`, with the memory it was fetched from. -/
def halted (m : Machine) (memory : Memory) : Machine :=
  { m with
    regs := { m.regs with pc := m.regs.pc + 4, cycle := m.regs.cycle + 1 }
    memory, ipc := m.regs.pc, ir := ⟨0⟩ }

theorem step_of_halt {m : Machine} {pa : UInt32} {memory : Memory}
    (hdue : (m.regs.cycle + 1) % pollInterval.toUInt64 ≠ 0) (halign : m.regs.pc &&& 3 = 0)
    (hr : Memory.resolve m.regs.space .code m.regs.pc .fetch m.regs.user m.memory = .ok pa memory)
    (hword : memory.ram.read32 pa = 0) : step m = .ok (.halt m.regs.a) (m.halted memory) := by
  have hop : (Instruction.mk 0).operation? = some .halt := by decide +kernel
  exact step_of_resolved hdue halign hr hword hop (fun _ => rfl) rfl

/-! ## Where interrupts are enabled -/

/-- What comes before an instruction: an interrupt, which ends the step, or nothing but a change of the
devices, after which the step may be over as well. -/
inductive Turned
  | interrupt (cause : Fault)
  | quiet (ended : Option Flow)

/-- What polling the devices comes to where interrupts are enabled, and the machine after it. -/
def turn (m : Machine) : Turned × Machine :=
  if m.counted.regs.cycle % pollInterval.toUInt64 = 0 then
    match m.bridge.poll.1 with
    | .escape => (.quiet (some .escape), m.counted.heard)
    | .key _ => (.interrupt .keyboard, m.counted.heard)
    | .quiet =>
      (if (m.timer.tick pollInterval).1 then .interrupt .timer else .quiet none,
        m.counted.heard.ticked pollInterval)
  else (.quiet none, m.counted)

theorem tick_of_iena {m : Machine} (hi : m.regs.iena = true) :
    tick m =
      match m.turn.1 with
      | .interrupt cause =>
        match raiseInterrupt cause m.turn.2 with
        | .ok _ m' => .ok (some .go) m'
        | .error reason m' => .error reason m'
      | .quiet ended => .ok ended m.turn.2 := by
  have hkey : m.counted.regs.iena = true := hi
  have htimer : (m.counted.heard.ticked pollInterval).regs.iena = true := hi
  have hpoll : m.counted.bridge.poll = m.bridge.poll := rfl
  have hfired : m.counted.heard.timer.tick pollInterval = m.timer.tick pollInterval := rfl
  rw [tick_apply, turn]
  split
  · rw [pollDevices, bind_apply, pollKeyboard_apply, hkey, Bool.true_or, if_pos rfl, hpoll]
    cases m.bridge.poll.1 with
    | escape => rfl
    | key b =>
      dsimp only
      rw [postAndEnd_apply, if_pos (show m.counted.heard.regs.iena = true from hi)]
      cases raiseInterrupt .keyboard m.counted.heard <;> rfl
    | quiet =>
      dsimp only
      rw [pollTimer_apply, hfired]
      split
      · rw [postAndEnd_apply, if_pos htimer]
      · rfl
  · rfl

/-- The devices do not touch memory, nor any register but the count of cycles. -/
theorem turn_eq (m : Machine) : ∃ cycle timer bridge journal,
    m.turn.2 = { m with regs := { m.regs with cycle }, timer, bridge, journal } := by
  rw [turn]
  split
  · cases m.bridge.poll.1 <;> exact ⟨_, _, _, _, rfl⟩
  · exact ⟨_, _, _, _, rfl⟩

/-- What they do does not depend on memory. -/
theorem turn_blind (m : Machine) (memory : Memory) :
    turn { m with memory } = (m.turn.1, { m.turn.2 with memory }) := by
  have hcycle : ({ m with memory } : Machine).counted.regs.cycle = m.counted.regs.cycle := rfl
  have hpoll : ({ m with memory } : Machine).bridge.poll = m.bridge.poll := rfl
  rw [turn, turn, hcycle, hpoll]
  by_cases hdue : m.counted.regs.cycle % pollInterval.toUInt64 = 0
  · rw [if_pos hdue, if_pos hdue]
    cases m.bridge.poll.1 <;> rfl
  · rw [if_neg hdue, if_neg hdue]
    rfl

/-- What is left of a step after a turn of the devices. -/
def Turned.rest : Turned → Delivery Flow
  | .interrupt cause => do
    raiseInterrupt cause
    return .go
  | .quiet (some flow) => return flow
  | .quiet none => executeGuarded

/-- A step is an interrupt, or an instruction if the devices leave it a turn. -/
theorem step_of_iena {m : Machine} (hi : m.regs.iena = true) : step m = m.turn.1.rest m.turn.2 := by
  rw [step_eq, bind_apply, tick_of_iena hi]
  cases m.turn.1 with
  | interrupt cause =>
    simp only [Turned.rest, bind_apply]
    cases raiseInterrupt cause m.turn.2 <;> rfl
  | quiet ended => cases ended <;> rfl

end Machine

end PagedMachine
