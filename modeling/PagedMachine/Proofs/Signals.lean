import PagedMachine.Proofs.Privilege

/-!
# Interrupts, step by step

`Machine.signals` is what a step reads and writes of interrupts: the mode, the two interrupt
registers, the bytes that wait at the console and what is noted of the devices. What comes before an
instruction (`Signals.Ticked`) and the instruction (`Signals.Executed`) change them in a few ways, each
with the state in which it may happen (`signals_step`).
-/

set_option autoImplicit false

namespace PagedMachine

structure Signals where
  user : Bool
  iena : Bool
  ipend : UInt32
  /-- Bytes that wait at the console. -/
  input : List UInt8
  escape : Option UInt8
  journal : List Event

namespace Signals

variable (s : Signals)

/-! ## What can happen -/

/-- A byte came into the latch. -/
def latched (b : UInt8) (rest : List UInt8) : Signals :=
  { s with input := rest, journal := .keyLatched b :: s.journal }

/-- The timer expired. -/
def expired : Signals := { s with journal := .timerExpired :: s.journal }

/-- An interrupt entered the kernel. -/
def interrupted (cause : Fault) : Signals :=
  { s with user := false, iena := false, journal := .interrupted cause :: s.journal }

def pended (cause : Fault) : Signals := { s with ipend := s.ipend ||| cause.pendingBit }

def cleared (cause : Fault) : Signals := { s with ipend := s.ipend &&& ~~~cause.pendingBit }

/-- A poll of the console. -/
inductive Heard : ConsoleEvent → Signals → Prop
  | quiet : Heard .quiet s
  | key {b : UInt8} {rest : List UInt8} : s.input = b :: rest → s.escape ≠ some b →
      Heard (.key b) (s.latched b rest)
  | escape {b : UInt8} {rest : List UInt8} : s.input = b :: rest → s.escape = some b →
      Heard .escape { s with input := rest }

/-- An interrupt is delivered, which ends the step, or left pending. -/
inductive Posted (cause : Fault) : Option Flow → Signals → Prop
  | delivered : s.iena = true → Posted cause (some .go) (s.interrupted cause)
  | pended : s.iena = false → Posted cause none (s.pended cause)

/-- The console is polled before an instruction. -/
inductive KeyPolled : Option Flow → Signals → Prop
  | quiet : KeyPolled none s
  | escape {s' : Signals} : s.Heard .escape s' → KeyPolled (some .escape) s'
  | key {b : UInt8} {flow : Option Flow} {s₁ s' : Signals} :
      (s.iena || s.ipend &&& Fault.keyboard.pendingBit = 0) = true → s.Heard (.key b) s₁ →
      s₁.Posted .keyboard flow s' → KeyPolled flow s'

/-- The timer is advanced before an instruction. -/
inductive TimerPolled : Option Flow → Signals → Prop
  | quiet : TimerPolled none s
  | expired {flow : Option Flow} {s' : Signals} :
      s.expired.Posted .timer flow s' → TimerPolled flow s'

/-- What a step does before its instruction. -/
inductive Ticked : Option Flow → Signals → Prop
  | ended {flow : Flow} {s' : Signals} : s.KeyPolled (some flow) s' → Ticked (some flow) s'
  | timed {flow : Option Flow} {s₁ s' : Signals} : s.KeyPolled none s₁ → s₁.TimerPolled flow s' →
      Ticked flow s'

/-- What an instruction does that runs the operation `op`, if it can be fetched, or faults. -/
inductive Executed (op : Option Operation) : Signals → Prop
  | calm : Executed op s
  | keyRead (b : UInt8) : Executed op { s with journal := .keyRead b :: s.journal }
  | faulted : s.iena = true → Executed op { s with user := false }
  | masked : s.user = false → Executed op { s with iena := false }
  | resumed (user : Bool) : s.user = false → s.iena = true → Executed op { s with user }
  | enabled (user : Bool) : s.user = false → Fault.ofPending? s.ipend = none →
      Executed op { s with user, iena := true }
  | redelivered {cause : Fault} : op = some .enableInterrupts ∨ op = some .returnFromInterrupt →
      s.user = false → Fault.ofPending? s.ipend = some cause →
      Executed op ((s.cleared cause).interrupted cause)
  | escaped {s' : Signals} : s.Heard .escape s' → Executed op s'
  | woken {b : UInt8} {s₁ : Signals} : s.iena = true → s.Heard (.key b) s₁ →
      Executed op (s₁.interrupted .keyboard)
  | expired : s.iena = true → Executed op (s.expired.interrupted .timer)

end Signals

/-- Whether an operation takes part in interrupts: changes the interrupt registers, waits, or takes a
key. -/
def Operation.interrupts : Operation → Bool
  | .disableInterrupts | .enableInterrupts | .returnFromInterrupt | .idle | .readKey => true
  | _ => false

namespace Machine

open Signals

def signals (m : Machine) : Signals :=
  { user := m.regs.user, iena := m.regs.iena, ipend := m.regs.ipend
    input := m.bridge.console.pending, escape := m.bridge.escape, journal := m.journal }

theorem shielded_signals : Shielded signals := fun _ _ _ _ _ _ _ _ _ _ _ _ => rfl

section
variable {m m' : Machine}

/-! ## Devices -/

theorem signals_heard (m : Machine) : m.signals.Heard m.bridge.poll.1 m.heard.signals := by
  have hp := m.bridge.polled_poll
  rw [heard]
  generalize m.bridge.poll.1 = event at hp ⊢
  generalize m.bridge.poll.2 = bridge at hp ⊢
  cases hp with
  | quiet => exact .quiet
  | key hpending hne => exact .key hpending hne
  | escape hpending heq => exact .escape hpending heq

theorem signals_ticked (ticks : UInt32) (m : Machine) :
    (m.ticked ticks).signals =
      if (m.timer.tick ticks).1 then m.signals.expired else m.signals := by
  rw [ticked]
  cases (m.timer.tick ticks).1 <;> rfl

theorem signals_waited (m : Machine) :
    m.waited.signals =
      if (m.timer.tick pollInterval).1 then m.signals.expired else m.signals := by
  rw [waited]
  generalize hm : ({ m with
    regs := { m.regs with cycle := m.regs.cycle + pollInterval.toUInt64 } } : Machine) = m₁
  have hs : m₁.signals = m.signals := by rw [← hm, signals, signals]
  have ht : m₁.timer = m.timer := by rw [← hm]
  rw [signals_ticked, hs, ht]

theorem signals_raiseInterrupt {cause : Fault} {u : Unit} (h : raiseInterrupt cause m = .ok u m') :
    m'.signals = m.signals.interrupted cause := by
  obtain ⟨memory, -, rfl⟩ := raiseInterrupt_eq_ok_iff.1 h
  rfl

theorem signals_postAndEnd {cause : Fault} {flow : Option Flow}
    (h : postAndEnd cause m = .ok flow m') : m.signals.Posted cause flow m'.signals := by
  rcases postAndEnd_eq_ok h with ⟨hi, rfl, hraise⟩ | ⟨hi, rfl, rfl⟩
  · rw [signals_raiseInterrupt hraise]
    exact .delivered hi
  · exact .pended hi

theorem signals_pollKeyboard {flow : Option Flow} (h : pollKeyboard m = .ok flow m') :
    m.signals.KeyPolled flow m'.signals := by
  have hheard := signals_heard m
  rw [pollKeyboard_apply] at h
  split at h
  · rename_i hpoll
    cases hp : m.bridge.poll.1 with
    | escape =>
      rw [hp] at h hheard
      obtain ⟨rfl, rfl⟩ := EStateM.Result.ok.inj h
      exact .escape hheard
    | key b =>
      rw [hp] at h hheard
      exact .key hpoll hheard (signals_postAndEnd h)
    | quiet =>
      rw [hp] at h hheard
      obtain ⟨rfl, rfl⟩ := EStateM.Result.ok.inj h
      generalize m.heard.signals = s' at hheard
      cases hheard
      exact .quiet
  · obtain ⟨rfl, rfl⟩ := EStateM.Result.ok.inj h
    exact .quiet

theorem signals_pollTimer {flow : Option Flow} (h : pollTimer m = .ok flow m') :
    m.signals.TimerPolled flow m'.signals := by
  have hticked := signals_ticked pollInterval m
  rw [pollTimer_apply] at h
  split at h
  · rename_i hfired
    rw [if_pos hfired] at hticked
    exact .expired (by rw [← hticked]; exact signals_postAndEnd h)
  · rename_i hfired
    rw [if_neg hfired] at hticked
    obtain ⟨rfl, rfl⟩ := EStateM.Result.ok.inj h
    rw [hticked]
    exact .quiet

theorem signals_tick {flow : Option Flow} (h : tick m = .ok flow m') :
    m.signals.Ticked flow m'.signals := by
  rw [tick_apply] at h
  rw [show m.signals = m.counted.signals from rfl]
  split at h
  · rcases pollDevices_eq_ok h with ⟨hsome, hkey⟩ | ⟨m₁, hkey, htimer⟩
    · obtain ⟨flow', rfl⟩ := Option.isSome_iff_exists.1 hsome
      exact .ended (signals_pollKeyboard hkey)
    · exact .timed (signals_pollKeyboard hkey) (signals_pollTimer htimer)
  · obtain ⟨rfl, rfl⟩ := EStateM.Result.ok.inj h
    exact .timed .quiet .quiet

/-! ## Operations -/

/-- A part that nothing but the devices and the interrupt registers is in, nor the output of the
console. -/
def Secluded {β : Type} (part : Machine → β) : Prop :=
  ∀ (m : Machine) ivec usp space memory sockets output,
    part { m with
      regs := { m.regs with ivec, usp, space }, memory
      bridge := { m.bridge with sockets, console := { m.bridge.console with output } } } = part m

theorem secluded_signals : Secluded signals := fun _ _ _ _ _ _ _ => rfl

section
variable {β : Type} {part : Machine → β} (h : Secluded part)
include h

theorem Secluded.setSpace (space : AddressSpace) : Keeps part (setSpace space) := fun m =>
  h m m.regs.ivec m.regs.usp space m.memory.flush m.bridge.sockets m.bridge.console.output

theorem Secluded.modifyRegs {fn : Registers → Registers}
    (hfn : ∀ r, ∃ ivec usp, fn r = { r with ivec, usp }) :
    Keeps part (modifyRegs fn : Exec Unit) := by
  intro m
  obtain ⟨ivec, usp, hr⟩ := hfn m.regs
  rw [modifyRegs_apply, stateOf_ok, hr]
  exact h m ivec usp m.regs.space m.memory m.bridge.sockets m.bridge.console.output

theorem Secluded.put (fd : UInt32) (byte : UInt8) :
    Keeps part (onBridge (·.put fd byte) : Exec Int32) := by
  intro m
  show part { m with bridge := (m.bridge.put fd byte).2 } = part m
  rw [Bridge.put]
  split
  · exact h m m.regs.ivec m.regs.usp m.regs.space m.memory m.bridge.sockets
      (m.bridge.console.output.push byte)
  · rfl

theorem Secluded.onSockets {α : Type} (fn : Sockets → α × Sockets) :
    Keeps part (onSockets fn : Guarded α) := fun m =>
  h m m.regs.ivec m.regs.usp m.regs.space m.memory (fn m.bridge.sockets).2 m.bridge.console.output

end

/-- What takes no part in interrupts nor sets the timer keeps a secluded part. -/
theorem Shielded.perform {β : Type} {part : Machine → β} (h : Shielded part)
    (hpart : Secluded part) {op : Operation} (hop : op.interrupts = false) (htimer : op ≠ .setTimer)
    (i : Instruction) : Keeps part (perform op i) := by
  have hplain := h.plain
  cases hpriv : op.privileged with
  | false => exact hplain.perform hpriv i
  | true =>
    refine hplain.bind hplain.getRegs fun r => ?_
    cases op with
    | setVector => exact hpart.modifyRegs fun r => ⟨r.a, r.usp, rfl⟩
    | setDirectory =>
      refine hplain.bind hplain.getRam fun ram => ?_
      exact hplain.bind (hplain.require _ _) fun _ => hpart.setSpace _
    | setPaging => exact hplain.bind (hplain.require _ _) fun _ => hpart.setSpace _
    | setTimer => exact absurd rfl htimer
    | faultAddress => exact hplain.setInt _ _
    | userStack => exact hplain.setInt _ _
    | setUserStack => exact hpart.modifyRegs fun r => ⟨r.ivec, r.a, rfl⟩
    | memorySize => exact hplain.bind hplain.getRam fun _ => hplain.setInt _ _
    | writeByte => exact hplain.bind (hpart.put _ _) fun result => hplain.setInt _ _
    | network op => exact hplain.liftGuarded (hplain.network (fun fn => hpart.onSockets fn) op)
    | disableInterrupts | enableInterrupts | returnFromInterrupt | idle | readKey => cases hop
    | _ => cases hpriv

theorem keeps_signals_perform {op : Operation} (hop : op.interrupts = false) (i : Instruction) :
    Keeps signals (perform op i) := by
  by_cases htimer : op = .setTimer
  · subst htimer
    refine shielded_signals.plain.bind shielded_signals.plain.getRegs fun r => ?_
    dsimp only
    split
    · exact .modify fun _ => rfl
    · exact .pure _
  · exact shielded_signals.perform secluded_signals hop htimer i

/-- Interrupts are enabled, after a return perhaps to user mode. -/
theorem executed_enableInterrupts {op : Operation} {s : Signals} {user : Bool} {u : Unit}
    (hop : op = .enableInterrupts ∨ op = .returnFromInterrupt) (hkernel : s.user = false)
    (hm : m.signals = { s with user }) (h : enableInterrupts m = .ok u m') :
    s.Executed (some op) m'.signals := by
  have hipend : m.regs.ipend = s.ipend := congrArg Signals.ipend hm
  rw [enableInterrupts_apply] at h
  cases hp : Fault.ofPending? m.regs.ipend with
  | some cause =>
    rw [hp] at h
    have hcleared : m'.signals = (m.signals.cleared cause).interrupted cause :=
      signals_raiseInterrupt h
    rw [hcleared, hm]
    exact .redelivered (hop.imp (congrArg some) (congrArg some)) hkernel (hipend ▸ hp)
  | none =>
    rw [hp] at h
    obtain ⟨-, rfl⟩ := EStateM.Result.ok.inj h
    have henabled : signals { m with regs := { m.regs with iena := true } } =
        { m.signals with iena := true } := rfl
    rw [henabled, hm]
    exact .enabled user hkernel (hipend ▸ hp)

theorem executed_returnFromInterrupt {u : Unit} (hkernel : m.regs.user = false)
    (h : returnFromInterrupt m = .ok u m') :
    m.signals.Executed (some .returnFromInterrupt) m'.signals := by
  obtain ⟨code, pc, memory, h⟩ := returnFromInterrupt_eq_ok h
  dsimp only at h
  generalize hregs : ({ m.regs with sp := m.regs.sp + 8 + 8 } : Registers).resume code pc = regs at h
  have hiena : regs.iena = m.regs.iena := by rw [← hregs, Registers.resume_iena]
  have hipend : regs.ipend = m.regs.ipend := by rw [← hregs, Registers.resume_ipend]
  have hresumed : signals { m with regs, memory } = { m.signals with user := regs.user } := by
    simp only [signals, hiena, hipend]
  split at h
  · rename_i hi
    obtain ⟨-, rfl⟩ := EStateM.Result.ok.inj h
    rw [hresumed]
    exact .resumed regs.user hkernel hi
  · exact executed_enableInterrupts (.inr rfl) hkernel hresumed h

theorem executed_perform {op : Operation} {i : Instruction} {u : Unit}
    (hmode : m.regs.user = true → op.privileged = false) (h : perform op i m = .ok u m') :
    m.signals.Executed (some op) m'.signals := by
  have hkernel (hop : op.privileged = true) : m.regs.user = false := by
    refine Bool.eq_false_iff.2 fun hu => ?_
    rw [hmode hu] at hop
    cases hop
  cases hop : op.interrupts with
  | false =>
    rw [(keeps_signals_perform hop i).of_ok h]
    exact .calm
  | true =>
    rw [perform, bind_apply, getRegs_apply] at h
    cases op with
    | idle =>
      obtain ⟨-, rfl⟩ := EStateM.Result.ok.inj h
      exact .calm
    | disableInterrupts =>
      obtain ⟨-, rfl⟩ := EStateM.Result.ok.inj h
      exact .masked (hkernel rfl)
    | enableInterrupts =>
      have hsame : m.signals = { m.signals with user := m.regs.user } := rfl
      exact executed_enableInterrupts (.inl rfl) (hkernel rfl) hsame (liftDelivery_eq_ok h)
    | returnFromInterrupt =>
      exact executed_returnFromInterrupt (hkernel rfl) (liftDelivery_eq_ok h)
    | readKey =>
      dsimp only at h
      obtain ⟨key, m₁, hkey, h⟩ := bind_eq_ok_iff.1 h
      obtain ⟨rfl, rfl⟩ := EStateM.Result.ok.inj hkey
      cases hlatch : m.bridge.latch with
      | some b =>
        simp only [hlatch] at h
        obtain ⟨-, rfl⟩ := EStateM.Result.ok.inj h
        exact .keyRead b
      | none =>
        simp only [hlatch] at h
        obtain ⟨-, rfl⟩ := EStateM.Result.ok.inj h
        exact .calm
    | _ => cases hop

theorem executed_idle {op : Option Operation} {flow : Flow} (h : idle m = .ok flow m') :
    m.signals.Executed op m'.signals := by
  have hi : m.regs.iena = true := by
    refine Bool.of_not_eq_false fun hi => ?_
    rw [idle_of_masked hi] at h
    cases h
  have hs : (m.timer.enabled || m.bridge.console.isOpen) = true := by
    refine Bool.of_not_eq_false fun hs => ?_
    rw [idle_without_source hi hs] at h
    cases h
  have hheard := signals_heard m
  have hwaited := signals_waited m.heard
  rw [idle_apply hi hs] at h
  cases hp : m.bridge.poll.1 with
  | escape =>
    rw [hp] at h hheard
    obtain ⟨-, rfl⟩ := EStateM.Result.ok.inj h
    exact .escaped hheard
  | key b =>
    rw [hp] at h hheard
    obtain ⟨_, m₁, hraise, hpure⟩ := bind_eq_ok_iff.1 h
    obtain ⟨-, rfl⟩ := EStateM.Result.ok.inj hpure
    rw [signals_raiseInterrupt (liftDelivery_eq_ok hraise)]
    exact .woken hi hheard
  | quiet =>
    rw [hp] at h hheard
    have hquiet : m.heard.signals = m.signals := by
      generalize m.heard.signals = s at hheard
      cases hheard
      rfl
    rw [hquiet] at hwaited
    dsimp only at h
    split at h
    · rename_i hfired
      rw [if_pos hfired] at hwaited
      obtain ⟨_, m₁, hraise, hpure⟩ := bind_eq_ok_iff.1 h
      obtain ⟨-, rfl⟩ := EStateM.Result.ok.inj hpure
      rw [signals_raiseInterrupt (liftDelivery_eq_ok hraise), hwaited]
      exact .expired hi
    · rename_i hfired
      rw [if_neg hfired] at hwaited
      obtain ⟨-, rfl⟩ := EStateM.Result.ok.inj h
      generalize m.heard.waited = m₁ at hwaited ⊢
      have hpc : signals { m₁ with regs := { m₁.regs with pc := m.ipc } } = m₁.signals := rfl
      rw [hpc, hwaited]
      exact .calm

/-! ## Steps -/

theorem executed_executeNext {flow : Flow} (h : executeNext m = .ok flow m') :
    m.signals.Executed m.next? m'.signals := by
  obtain ⟨i, op, m₁, hfetch, hop, hmode, hexecute⟩ := executeNext_eq_ok h
  rw [hop, ← shielded_signals.plain.fetch.of_ok hfetch]
  unfold execute at hexecute
  split at hexecute
  · obtain ⟨-, rfl⟩ := EStateM.Result.ok.inj hexecute
    exact .calm
  · exact executed_idle hexecute
  · obtain ⟨_, m₂, hperform, hpure⟩ := bind_eq_ok_iff.1 hexecute
    obtain ⟨-, rfl⟩ := EStateM.Result.ok.inj hpure
    exact executed_perform hmode hperform

/-- A fault leaves a secluded part as it was, until it is delivered. -/
theorem Shielded.of_fault {β : Type} {part : Machine → β} (h : Shielded part)
    (hpart : Secluded part) {cause : Fault} (hfault : executeNext m = .error (.fault cause) m') :
    part m' = part m := by
  rcases executeNext_eq_error hfault with
    hfetch | ⟨i, hfetch, -⟩ | ⟨i, op, m₁, hfetch, -, -, hexecute⟩
  · exact h.plain.fetch.of_error hfetch
  · exact h.plain.fetch.of_ok hfetch
  · rw [← h.plain.fetch.of_ok hfetch]
    rcases execute_eq_error hexecute with ⟨-, hidle⟩ | hperform
    · rcases idle_eq_error hidle with ⟨-, -, rfl⟩ | ⟨-, hstop | hstop⟩
      · rfl
      · cases hstop
      · cases hstop
    · by_cases hop : op.interrupts = false ∧ op ≠ .setTimer
      · exact (h.perform hpart hop.1 hop.2 i).of_error hperform
      · have hfd : op = .network .receive ∨ op = .network .send →
            m₁.bridge.sockets.owned? m₁.regs.a = none := by
          rintro (rfl | rfl) <;> exact absurd ⟨rfl, nofun⟩ hop
        rcases stopsAt_perform hperform hfd with ⟨-, start, hstart, memory, -, rfl⟩ | ⟨-, hstop⟩
        · cases hstart with
          | refl =>
            exact h m₁ m₁.regs.a m₁.regs.b m₁.regs.c m₁.regs.f m₁.regs.g m₁.regs.sp m₁.regs.pc memory
              m₁.ipc m₁.ir m₁.blockBytes
          | chunk hb => exact absurd ⟨hb ▸ rfl, hb ▸ nofun⟩ hop
        · cases hstop

theorem signals_of_fault {cause : Fault} (h : executeNext m = .error (.fault cause) m') :
    m'.signals = m.signals :=
  shielded_signals.of_fault secluded_signals h

/-- A fault enters the kernel with interrupts enabled. -/
theorem signals_raiseException {cause : Fault} {u : Unit} (h : raiseException cause m = .ok u m') :
    m.regs.iena = true ∧ m'.signals = { m.signals with user := false } := by
  obtain ⟨hi, hdeliver⟩ := raiseException_eq_ok_iff.1 h
  obtain ⟨memory, -, rfl⟩ := deliver_eq_ok_iff.1 hdeliver
  exact ⟨hi, rfl⟩

theorem executed_executeGuarded {flow : Flow} (h : executeGuarded m = .ok flow m') :
    m.signals.Executed m.next? m'.signals := by
  rw [executeGuarded] at h
  cases hr : executeNext m with
  | ok flow' m₁ =>
    rw [hr] at h
    obtain ⟨-, rfl⟩ := EStateM.Result.ok.inj h
    exact executed_executeNext hr
  | error stop m₁ =>
    rw [hr] at h
    cases stop with
    | fatal reason => cases h
    | fault cause =>
      have hfault := signals_of_fault hr
      dsimp only at h
      cases hraise : raiseException cause m₁ with
      | error reason m₂ =>
        rw [hraise] at h
        cases h
      | ok u m₂ =>
        rw [hraise] at h
        obtain ⟨-, rfl⟩ := EStateM.Result.ok.inj h
        obtain ⟨hi, hsignals⟩ := signals_raiseException hraise
        rw [hsignals, hfault]
        exact .faulted ((congrArg Signals.iena hfault).symm.trans hi)

/-- A step ends before its instruction or with it. -/
theorem signals_step {flow : Flow} (h : step m = .ok flow m') :
    m.signals.Ticked (some flow) m'.signals ∨
      ∃ m₁, tick m = .ok none m₁ ∧ m.signals.Ticked none m₁.signals ∧
        m₁.signals.Executed m₁.next? m'.signals := by
  cases hr : tick m with
  | error reason m₁ =>
    rw [step_of_tick_error hr] at h
    cases h
  | ok ended m₁ =>
    have hticked := signals_tick hr
    cases ended with
    | some flow' =>
      rw [step_of_tick_some hr] at h
      obtain ⟨rfl, rfl⟩ := EStateM.Result.ok.inj h
      exact .inl hticked
    | none =>
      rw [step_of_tick hr] at h
      exact .inr ⟨m₁, rfl, hticked, executed_executeGuarded h⟩

end

end Machine

end PagedMachine
