import Mathlib.Logic.Function.Iterate
import PagedMachine.Proofs.Interrupts

/-!
# Time along a run

The timer is advanced by a poll interval whenever the count of cycles reaches or passes a multiple of
it, before an instruction or while one waits (`clock_step`). There is one exception: where a poll of
the devices delivers a key's interrupt, the timer has no turn. So over a run the timer is advanced as
often as multiples were reached, less the polls that a key took (`timer_advanced`); it is not advanced
as often as multiples were reached (`interval_lost`).
-/

set_option autoImplicit false

namespace PagedMachine

/-! ## Cycles and the timer -/

structure Clock where
  cycle : UInt64
  timer : Timer
  /-- How often the timer expired. -/
  expiries : Nat

namespace Clock

/-- The timer was advanced by a poll interval. -/
def advanced (c : Clock) : Clock :=
  { c with
    timer := (c.timer.tick Machine.pollInterval).2
    expiries := c.expiries + (c.timer.tick Machine.pollInterval).1.toNat }

def passed (c : Clock) (cycles : Nat) : Clock := { c with cycle := c.cycle + .ofNat cycles }

/-- What an instruction may do: nothing, wait for a poll interval, or set the timer. -/
def Ran (c c' : Clock) : Prop :=
  c' = c ∨ c' = (c.passed 4096).advanced ∨
    ∃ timeout, c' = { c with timer := c.timer.setTimeout timeout }

/-- Setting the timer to the timeout that it has changes nothing. -/
theorem Ran.of_timeout {c c' : Clock} (h : c.Ran c') (htimeout : c'.timer.timeout = c.timer.timeout) :
    c' = c ∨ c' = (c.passed 4096).advanced := by
  rcases h with h | h | ⟨timeout, rfl⟩
  · exact .inl h
  · exact .inr h
  · left
    obtain rfl : timeout = c.timer.timeout := htimeout
    rfl

theorem passed_zero (c : Clock) : c.passed 0 = c := by
  rw [passed, show UInt64.ofNat 0 = 0 from rfl, UInt64.add_zero]

theorem passed_passed (c : Clock) (i j : Nat) : (c.passed i).passed j = c.passed (i + j) := by
  simp only [passed, UInt64.ofNat_add, UInt64.add_assoc]

theorem iterate_advanced_passed (n : Nat) (c : Clock) (cycles : Nat) :
    advanced^[n] (c.passed cycles) = (advanced^[n] c).passed cycles :=
  Function.Commute.iterate_left (f := advanced) (g := (·.passed cycles)) (fun _ => rfl) n c

theorem advanced_passed_trans (c : Clock) (i j k l : Nat) :
    (advanced^[k] ((advanced^[i] c).passed j)).passed l = (advanced^[i + k] c).passed (j + l) := by
  rw [iterate_advanced_passed, passed_passed, Nat.add_comm i, Function.iterate_add_apply]

@[simp] theorem iterate_advanced_timeout (n : Nat) (c : Clock) :
    (advanced^[n] c).timer.timeout = c.timer.timeout := by
  induction n with
  | zero => rfl
  | succ n ih =>
    rw [Function.iterate_succ_apply', ← ih]
    exact Timer.tick_timeout ..

theorem cycle_advanced_passed (n : Nat) (c : Clock) (cycles : Nat) :
    ((advanced^[n] c).passed cycles).cycle = c.cycle + .ofNat cycles := by
  rw [← iterate_advanced_passed]
  induction n with
  | zero => rfl
  | succ n ih =>
    rw [Function.iterate_succ_apply']
    exact ih

end Clock

/-- How many multiples of the poll interval are reached or passed in `cycles` cycles after `cycle`. -/
def intervals (cycle : UInt64) (cycles : Nat) : Nat :=
  (cycle.toNat + cycles) / 4096 - cycle.toNat / 4096

/-- The count of cycles may wrap: the interval divides where it does. -/
theorem intervals_add (cycle : UInt64) (i j : Nat) :
    intervals cycle (i + j) = intervals cycle i + intervals (cycle + .ofNat i) j := by
  have hlater : (cycle + .ofNat i).toNat = (cycle.toNat + i) % 18446744073709551616 := by
    rw [UInt64.toNat_add, UInt64.toNat_ofNat']
    omega
  simp only [intervals, hlater]
  omega

theorem intervals_wait (cycle : UInt64) (waits : Nat) :
    intervals cycle (1 + 4096 * waits) = intervals cycle 1 + waits := by
  simp only [intervals]
  omega

namespace Machine

open Clock

def clock (m : Machine) : Clock :=
  { cycle := m.regs.cycle, timer := m.timer, expiries := m.journal.count .timerExpired }

theorem shielded_clock : Shielded clock := fun _ _ _ _ _ _ _ _ _ _ _ _ => rfl

theorem secluded_clock : Secluded clock := fun _ _ _ _ _ _ _ => rfl

/-- The devices are polled before the next instruction. -/
def due (m : Machine) : Bool := m.counted.regs.cycle % pollInterval.toUInt64 = 0

/-- A key's interrupt is delivered at this poll, and the timer has no turn. -/
def preempted (m : Machine) : Bool :=
  m.due && m.regs.iena && m.bridge.poll.1 matches .key _

section
variable {m m' : Machine}

theorem clock_counted (m : Machine) : m.counted.clock = m.clock.passed 1 := rfl

theorem clock_heard (m : Machine) : m.heard.clock = m.clock := by
  simp only [heard, clock]
  cases m.bridge.poll.1 <;> simp [noted]

theorem clock_ticked (m : Machine) : (m.ticked pollInterval).clock = m.clock.advanced := by
  simp only [ticked, clock, advanced]
  cases (m.timer.tick pollInterval).1 <;> simp

theorem clock_waited (m : Machine) : m.waited.clock = (m.clock.passed 4096).advanced := by
  rw [waited, clock_ticked]
  rfl

theorem clock_raiseInterrupt {cause : Fault} {u : Unit} (h : raiseInterrupt cause m = .ok u m') :
    m'.clock = m.clock := by
  obtain ⟨memory, -, rfl⟩ := raiseInterrupt_eq_ok_iff.1 h
  simp [clock, Registers.entered]

/-! ## Before the instruction -/

/-- Posting an interrupt takes no time. It ends what polls if interrupts are enabled. -/
theorem clock_postAndEnd {cause : Fault} {ended : Option Flow}
    (h : postAndEnd cause m = .ok ended m') : m'.clock = m.clock ∧ ended.isSome = m.regs.iena := by
  rcases postAndEnd_eq_ok h with ⟨hi, rfl, hraise⟩ | ⟨hi, rfl, rfl⟩
  · exact ⟨clock_raiseInterrupt hraise, hi.symm⟩
  · exact ⟨rfl, hi.symm⟩

theorem clock_pollKeyboard {ended : Option Flow} (h : pollKeyboard m = .ok ended m')
    (hesc : ended ≠ some .escape) :
    m'.clock = m.clock ∧ ended.isSome = (m.regs.iena && m.bridge.poll.1 matches .key _) := by
  rw [pollKeyboard_apply] at h
  split at h
  · split at h
    · obtain ⟨rfl, -⟩ := EStateM.Result.ok.inj h
      exact absurd rfl hesc
    · rename_i hkey
      obtain ⟨hclock, hended⟩ := clock_postAndEnd h
      rw [hkey, Bool.and_true]
      exact ⟨hclock.trans (clock_heard m), hended⟩
    · rename_i hquiet
      obtain ⟨rfl, rfl⟩ := EStateM.Result.ok.inj h
      rw [hquiet, Bool.and_false]
      exact ⟨clock_heard m, rfl⟩
  · rename_i hmasked
    obtain ⟨rfl, rfl⟩ := EStateM.Result.ok.inj h
    simp only [Bool.or_eq_true, not_or, Bool.not_eq_true] at hmasked
    rw [hmasked.1, Bool.false_and]
    exact ⟨rfl, rfl⟩

theorem clock_pollTimer {ended : Option Flow} (h : pollTimer m = .ok ended m') :
    m'.clock = m.clock.advanced := by
  rw [pollTimer_apply] at h
  split at h
  · rw [(clock_postAndEnd h).1, clock_ticked]
  · obtain ⟨-, rfl⟩ := EStateM.Result.ok.inj h
    exact clock_ticked m

/-- How often the timer is advanced before the instruction. -/
def turns (m : Machine) : Nat := if m.due && !m.preempted then 1 else 0

/-- A poll advances the timer once, unless a key's interrupt preempts it. -/
theorem clock_tick {ended : Option Flow} (h : tick m = .ok ended m') (hesc : ended ≠ some .escape) :
    m'.clock = (advanced^[m.turns] m.clock).passed 1 := by
  rw [tick_apply] at h
  rw [← iterate_advanced_passed, ← clock_counted, turns]
  split at h
  · rename_i hdue
    have hdue : m.due = true := decide_eq_true hdue
    rcases pollDevices_eq_ok h with ⟨hsome, hkey⟩ | ⟨m₁, hkey, htimer⟩
    · obtain ⟨hclock, hkeyed⟩ := clock_pollKeyboard hkey hesc
      have hpre : m.preempted = true := by
        rw [preempted, hdue, Bool.true_and]
        exact hkeyed.symm.trans hsome
      rw [hdue, hpre]
      exact hclock
    · obtain ⟨hclock, hkeyed⟩ := clock_pollKeyboard hkey nofun
      have hpre : m.preempted = false := by
        rw [preempted, hdue, Bool.true_and]
        exact hkeyed.symm
      rw [hdue, hpre, clock_pollTimer htimer, hclock]
      rfl
  · rename_i hdue
    have hdue : m.due = false := decide_eq_false hdue
    obtain ⟨-, rfl⟩ := EStateM.Result.ok.inj h
    rw [hdue]
    rfl

/-! ## The instruction -/

theorem clock_enableInterrupts {u : Unit} (h : enableInterrupts m = .ok u m') :
    m'.clock = m.clock := by
  rw [enableInterrupts_apply] at h
  split at h
  · have hclock := clock_raiseInterrupt h
    exact hclock
  · obtain ⟨-, rfl⟩ := EStateM.Result.ok.inj h
    rfl

theorem clock_returnFromInterrupt {u : Unit} (h : returnFromInterrupt m = .ok u m') :
    m'.clock = m.clock := by
  obtain ⟨code, pc, memory, h⟩ := returnFromInterrupt_eq_ok h
  have hresumed : clock { m with
      regs := ({ m.regs with sp := m.regs.sp + 8 + 8 } : Registers).resume code pc, memory } =
      m.clock := by
    simp only [clock, Registers.resume]
    split <;> rfl
  rw [← hresumed]
  dsimp only at h
  split at h
  · obtain ⟨-, rfl⟩ := EStateM.Result.ok.inj h
    rfl
  · exact clock_enableInterrupts h

/-- Operations take no time, and only one sets the timer. -/
theorem clock_perform {op : Operation} {i : Instruction} {u : Unit} (h : perform op i m = .ok u m') :
    m.clock.Ran m'.clock := by
  by_cases htimer : op = .setTimer
  · subst htimer
    simp only [perform, bind_apply, getRegs_apply] at h
    split at h
    · obtain ⟨-, rfl⟩ := EStateM.Result.ok.inj h
      exact .inr (.inr ⟨m.regs.a, rfl⟩)
    · obtain ⟨-, rfl⟩ := EStateM.Result.ok.inj h
      exact .inl rfl
  left
  cases hop : op.interrupts with
  | false => exact (shielded_clock.perform secluded_clock hop htimer i).of_ok h
  | true =>
    rw [perform, bind_apply, getRegs_apply] at h
    cases op with
    | idle | disableInterrupts =>
      obtain ⟨-, rfl⟩ := EStateM.Result.ok.inj h
      rfl
    | enableInterrupts => exact clock_enableInterrupts (liftDelivery_eq_ok h)
    | returnFromInterrupt => exact clock_returnFromInterrupt (liftDelivery_eq_ok h)
    | readKey =>
      dsimp only at h
      obtain ⟨key, m₁, hkey, h⟩ := bind_eq_ok_iff.1 h
      obtain ⟨rfl, rfl⟩ := EStateM.Result.ok.inj hkey
      cases hlatch : m.bridge.latch with
      | some k =>
        simp only [hlatch] at h
        obtain ⟨-, rfl⟩ := EStateM.Result.ok.inj h
        rfl
      | none =>
        simp only [hlatch] at h
        obtain ⟨-, rfl⟩ := EStateM.Result.ok.inj h
        rfl
    | _ => cases hop

/-- Waiting passes a poll interval and advances the timer, unless a key comes. -/
theorem clock_idle {flow : Flow} (h : idle m = .ok flow m') : m.clock.Ran m'.clock := by
  have hi : m.regs.iena = true := by
    refine Bool.of_not_eq_false fun hi => ?_
    rw [idle_of_masked hi] at h
    cases h
  have hs : (m.timer.enabled || m.bridge.console.isOpen) = true := by
    refine Bool.of_not_eq_false fun hs => ?_
    rw [idle_without_source hi hs] at h
    cases h
  rw [idle_apply hi hs] at h
  split at h
  · obtain ⟨-, rfl⟩ := EStateM.Result.ok.inj h
    exact .inl (clock_heard m)
  · obtain ⟨_, m₁, hraise, hpure⟩ := bind_eq_ok_iff.1 h
    obtain ⟨-, rfl⟩ := EStateM.Result.ok.inj hpure
    exact .inl ((clock_raiseInterrupt (liftDelivery_eq_ok hraise)).trans (clock_heard m))
  · right; left
    rw [← clock_heard m, ← clock_waited]
    split at h
    · obtain ⟨_, m₁, hraise, hpure⟩ := bind_eq_ok_iff.1 h
      obtain ⟨-, rfl⟩ := EStateM.Result.ok.inj hpure
      exact clock_raiseInterrupt (liftDelivery_eq_ok hraise)
    · obtain ⟨-, rfl⟩ := EStateM.Result.ok.inj h
      generalize m.heard.waited = m₁
      rfl

/-- An instruction may wait, and then a poll interval goes by. -/
theorem clock_executeNext {flow : Flow} (h : executeNext m = .ok flow m') :
    m.clock.Ran m'.clock := by
  obtain ⟨i, op, m₁, hfetch, -, -, hexecute⟩ := executeNext_eq_ok h
  have hfetched : m₁.clock = m.clock := shielded_clock.plain.fetch.of_ok hfetch
  rw [← hfetched]
  unfold execute at hexecute
  split at hexecute
  · obtain ⟨-, rfl⟩ := EStateM.Result.ok.inj hexecute
    exact .inl rfl
  · exact clock_idle hexecute
  · obtain ⟨_, m₂, hperform, hpure⟩ := bind_eq_ok_iff.1 hexecute
    obtain ⟨-, rfl⟩ := EStateM.Result.ok.inj hpure
    exact clock_perform hperform

theorem clock_executeGuarded {flow : Flow} (h : executeGuarded m = .ok flow m') :
    m.clock.Ran m'.clock := by
  rw [executeGuarded] at h
  split at h
  · rename_i hnext
    obtain ⟨-, rfl⟩ := EStateM.Result.ok.inj h
    exact clock_executeNext hnext
  · cases h
  · rename_i hfault
    split at h
    · rename_i hraise
      obtain ⟨-, rfl⟩ := EStateM.Result.ok.inj h
      have hkept := shielded_clock.of_fault secluded_clock hfault
      obtain ⟨-, hdeliver⟩ := raiseException_eq_ok_iff.1 hraise
      obtain ⟨memory, -, rfl⟩ := deliver_eq_ok_iff.1 hdeliver
      exact .inl hkept
    · cases h

/-! ## Steps -/

/-- A step takes a cycle, and a poll interval more if it waits. The timer is advanced for each multiple
of the interval that is reached or passed, but not at a poll that a key's interrupt preempts. -/
theorem clock_step {flow : Flow} (h : step m = .ok flow m') (hesc : flow ≠ .escape)
    (htimeout : m'.timer.timeout = m.timer.timeout) :
    ∃ waits ≤ 1, m'.clock = (advanced^[m.turns + waits] m.clock).passed (1 + 4096 * waits) := by
  cases htick : tick m with
  | error reason m₁ =>
    rw [step_of_tick_error htick] at h
    cases h
  | ok ended m₁ =>
    cases ended with
    | some flow' =>
      rw [step_of_tick_some htick] at h
      obtain ⟨rfl, rfl⟩ := EStateM.Result.ok.inj h
      exact ⟨0, Nat.zero_le 1, clock_tick htick fun heq => hesc (Option.some.inj heq)⟩
    | none =>
      have hclock := clock_tick htick nofun
      have hkept : m₁.timer.timeout = m.timer.timeout :=
        (congrArg (·.timer.timeout) hclock).trans (iterate_advanced_timeout m.turns m.clock)
      rw [step_of_tick htick] at h
      rcases (clock_executeGuarded h).of_timeout (htimeout.trans hkept.symm) with hsame | hwaited
      · exact ⟨0, Nat.zero_le 1, hsame.trans hclock⟩
      · refine ⟨1, Nat.le_refl 1, ?_⟩
        rw [hwaited, hclock, ← advanced_passed_trans]
        rfl

/-- The devices are polled where the count reaches a multiple of the interval. -/
theorem due_iff : m.due = true ↔ (m.regs.cycle.toNat + 1) % 4096 = 0 := by
  have hinterval : pollInterval.toUInt64.toNat = 4096 := by decide
  rw [due, decide_eq_true_iff, ← UInt64.toNat_inj, UInt64.toNat_mod, hinterval]
  show (m.regs.cycle + 1).toNat % 4096 = 0 ↔ _
  rw [UInt64.toNat_add, show (1 : UInt64).toNat = 1 from rfl]
  omega

theorem turns_add_preempted : m.turns + m.preempted.toNat = intervals m.regs.cycle 1 := by
  have hle : m.preempted = true → m.due = true := by
    rw [preempted, Bool.and_assoc, Bool.and_eq_true]
    exact And.left
  have hdue := due_iff (m := m)
  rw [turns, intervals]
  cases hd : m.due <;> cases hp : m.preempted <;> simp_all <;> omega

end

end Machine

/-! ## Runs -/

/-- What is counted of a run. -/
structure Elapsed where
  cycles : Nat := 0
  /-- Polls of the devices that a key's interrupt preempted. -/
  preempted : Nat := 0

namespace Elapsed

/-- Adds what went by in a step from `m` to `m'`. -/
def step (e : Elapsed) (m m' : Machine) : Elapsed :=
  { cycles := e.cycles + (m'.regs.cycle - m.regs.cycle).toNat
    preempted := e.preempted + m.preempted.toNat }

end Elapsed

/-- The machines that `start` comes to by steps in which the timeout is not changed and no escape byte
comes. Between two steps the host may do anything. -/
inductive TimedRun (start : Machine) : Elapsed → Machine → Prop
  | start : TimedRun start {} start
  | step {e : Elapsed} {m m' : Machine} {flow : Flow} :
      TimedRun start e m → Machine.step m = .ok flow m' → flow ≠ .escape →
        m'.timer.timeout = m.timer.timeout → TimedRun start (e.step m m') m'
  | outside {e : Elapsed} {m : Machine} (bridge : Bridge) :
      TimedRun start e m → TimedRun start e { m with bridge }

section
open Machine Clock
variable {start m : Machine} {e : Elapsed}

theorem TimedRun.clock (h : TimedRun start e m) :
    e.preempted ≤ intervals start.regs.cycle e.cycles ∧
      m.clock = (advanced^[intervals start.regs.cycle e.cycles - e.preempted] start.clock).passed
        e.cycles := by
  induction h with
  | start =>
    have hnone : intervals start.regs.cycle 0 = 0 := Nat.sub_self _
    exact ⟨Nat.zero_le _, by rw [hnone]; exact (passed_zero _).symm⟩
  | outside bridge _ ih => exact ih
  | @step e m m' flow _ hstep hesc htimeout ih =>
    obtain ⟨hle, hm⟩ := ih
    obtain ⟨waits, hwaits, hm'⟩ := clock_step hstep hesc htimeout
    have hcycle : m.regs.cycle = start.regs.cycle + .ofNat e.cycles :=
      (congrArg Clock.cycle hm).trans (cycle_advanced_passed ..)
    have hcycle' : m'.regs.cycle = m.regs.cycle + .ofNat (1 + 4096 * waits) :=
      (congrArg Clock.cycle hm').trans (cycle_advanced_passed ..)
    have hcycles : (m'.regs.cycle - m.regs.cycle).toNat = 1 + 4096 * waits := by
      rw [hcycle', UInt64.add_comm, UInt64.add_sub_cancel, UInt64.toNat_ofNat']
      omega
    have hturns := turns_add_preempted (m := m)
    have hsum : intervals start.regs.cycle (e.cycles + (1 + 4096 * waits)) =
        intervals start.regs.cycle e.cycles + (m.turns + m.preempted.toNat) + waits := by
      rw [intervals_add, ← hcycle, intervals_wait, ← hturns]
      omega
    simp only [Elapsed.step, hcycles, hsum]
    refine ⟨by omega, ?_⟩
    have hadvances : intervals start.regs.cycle e.cycles + (m.turns + m.preempted.toNat) + waits -
        (e.preempted + m.preempted.toNat) =
          intervals start.regs.cycle e.cycles - e.preempted + (m.turns + waits) := by omega
    rw [hm', hm, advanced_passed_trans, hadvances]

theorem turn_of_preempted (hp : m.preempted = true) :
    m.regs.iena = true ∧ m.turn = (.interrupt .keyboard, m.counted.heard) ∧
      ∃ k, m.bridge.poll.1 = .key k := by
  simp only [preempted, Bool.and_eq_true] at hp
  obtain ⟨⟨hdue, hi⟩, hkey⟩ := hp
  rw [turn, if_pos (of_decide_eq_true hdue)]
  cases hpoll : m.bridge.poll.1 with
  | key k => exact ⟨hi, rfl, k, rfl⟩
  | quiet | escape =>
    rw [hpoll] at hkey
    cases hkey

/-- A key's interrupt that preempts the timer is delivered in that step, and the timer stands. -/
theorem clock_of_preempted {m' : Machine} {flow : Flow} (hp : m.preempted = true)
    (h : step m = .ok flow m') :
    m'.clock = m.clock.passed 1 ∧ .interrupted .keyboard ∈ m.since m' := by
  obtain ⟨hi, hturn, k, hk⟩ := turn_of_preempted hp
  rw [step_of_iena hi, hturn, Turned.rest, bind_apply] at h
  split at h
  · rename_i hraise
    obtain ⟨-, rfl⟩ := EStateM.Result.ok.inj h
    have hclock : m.counted.heard.clock = m.clock.passed 1 := clock_heard m.counted
    refine ⟨(clock_raiseInterrupt hraise).trans hclock, ?_⟩
    obtain ⟨memory, -, rfl⟩ := raiseInterrupt_eq_ok_iff.1 hraise
    have hjournal : m.counted.heard.journal = .keyLatched k :: m.journal := by
      show noted m.journal m.bridge.poll.1 = _
      rw [hk, noted]
    rw [show m.since _ = [.interrupted .keyboard, .keyLatched k] from
      since_eq (congrArg (List.cons _) hjournal)]
    exact List.mem_cons_self
  · cases h

/-! ## A key at a poll -/

/-- A machine whose devices are polled in the next step, with a key at the console. -/
def Machine.keyed : Machine :=
  { regs := { iena := true, ivec := 256, sp := 4096, cycle := 4095 }
    memory := { ram := .zeroed 16384, tlb := .ofCapacity 64, path := .make true }
    timer := { timeout := 10000 }
    bridge := { console := { pending := [65] } } }

theorem preempted_keyed : keyed.preempted = true := by decide

theorem step_keyed : ∃ m', step keyed = .ok .go m' := by
  have hsize : (Ram.zeroed 16384).size = 16384 := by
    rw [Ram.size, Ram.size_zeroed]
    rfl
  have hdirect : keyed.memory.Direct := .fresh _ _ _ _
  obtain ⟨memory, hpush⟩ :
      ∃ memory, Memory.pushFrame {} 4096 0 Fault.keyboard.code keyed.memory = .ok () memory :=
    hdirect.pushFrame rfl
      (show pageBase (alignTo8 (4096 - 8)) < (Ram.zeroed 16384).size by rw [hsize]; decide)
      (show pageBase (alignTo8 (4096 - 8 - 8)) < (Ram.zeroed 16384).size by rw [hsize]; decide) 0 _
  obtain ⟨hi, hturn, -⟩ := turn_of_preempted preempted_keyed
  obtain ⟨m', hraise⟩ : ∃ m', raiseInterrupt .keyboard keyed.counted.heard = .ok () m' :=
    ⟨_, raiseInterrupt_eq_ok_iff.2 ⟨memory, hpush, rfl⟩⟩
  exact ⟨m', by rw [step_of_iena hi, hturn, Turned.rest, bind_apply, hraise]; rfl⟩

/-! ## Main results -/

/-- Over a run the timer is advanced by a poll interval as often as the count of cycles reaches or
passes a multiple of it, less the polls at which a key's interrupt is delivered. Those leave the timer
as it stands. -/
theorem timer_advanced (h : TimedRun start e m) :
    e.preempted ≤ intervals start.regs.cycle e.cycles ∧
      m.clock = (advanced^[intervals start.regs.cycle e.cycles - e.preempted] start.clock).passed
        e.cycles ∧
      ∀ flow m', step m = .ok flow m' → m.preempted = true →
        m'.clock = m.clock.passed 1 ∧ .interrupted .keyboard ∈ m.since m' :=
  ⟨h.clock.1, h.clock.2, fun _ _ hstep hp => clock_of_preempted hp hstep⟩

theorem timer_advanced_keyed :
    ∃ m, TimedRun keyed { cycles := 1, preempted := 1 } m ∧ m.clock = keyed.clock.passed 1 := by
  obtain ⟨m, hstep⟩ := step_keyed
  have hclock := (clock_of_preempted preempted_keyed hstep).1
  have helapsed : ({} : Elapsed).step keyed m = { cycles := 1, preempted := 1 } := by
    have hcycle : m.regs.cycle = 4096 := congrArg Clock.cycle hclock
    rw [Elapsed.step, hcycle, preempted_keyed]
    rfl
  have hrun : TimedRun keyed { cycles := 1, preempted := 1 } m := by
    rw [← helapsed]
    exact .step .start hstep nofun (congrArg (·.timer.timeout) hclock)
  exact ⟨m, hrun, (timer_advanced hrun).2.1⟩

/-- The timer is not advanced at every multiple: one is lost where a key's interrupt is delivered. -/
theorem interval_lost :
    ¬∀ start m e, TimedRun start e m → start.timer.enabled = true →
      m.clock = (advanced^[intervals start.regs.cycle e.cycles] start.clock).passed e.cycles := by
  intro hnone
  obtain ⟨m, hstep⟩ := step_keyed
  have hclock := (clock_of_preempted preempted_keyed hstep).1
  have hrun : TimedRun keyed (({} : Elapsed).step keyed m) m :=
    .step .start hstep nofun (congrArg (·.timer.timeout) hclock)
  have hlost := hnone _ _ _ hrun rfl
  have hcycle : m.regs.cycle = 4096 := congrArg Clock.cycle hclock
  rw [Elapsed.step, hcycle, hclock] at hlost
  exact absurd (congrArg (·.timer.count) hlost) (by decide)

end

end PagedMachine
