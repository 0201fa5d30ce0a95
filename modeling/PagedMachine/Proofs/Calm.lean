import PagedMachine.Proofs.Clock

/-!
# Calm runs

`Steps` are steps of the machine between which the host may act on the bridge. A run is `Calm` if every
step gets to its instruction: no interrupt is delivered before it, and the escape byte does not come.
All that changes then before an instruction are the devices, the count of cycles and the interrupts
that are pending (`still_tick`). As the devices are polled every 4096 cycles only, a run is calm
that ends before the next poll (`calm_of_phase`).
-/

set_option autoImplicit false

namespace PagedMachine

/-- The registers but for what changes with time. -/
def Registers.settled (r : Registers) : Registers := { r with ipend := 0, cycle := 0 }

namespace Machine

/-- The machine with what the host did to the bridge. -/
def hosted (host : Bridge → Bridge) (m : Machine) : Machine := { m with bridge := host m.bridge }

/-- As many steps as the host has turns, with the registers behind each. -/
inductive Steps : List (Bridge → Bridge) → Machine → List Registers → Machine → Prop
  | none (m : Machine) : Steps [] m [] m
  | step {host : Bridge → Bridge} {hosts : List (Bridge → Bridge)} {m m₁ m' : Machine}
      {regs : List Registers} : Machine.step (m.hosted host) = .ok .go m₁ → Steps hosts m₁ regs m' →
      Steps (host :: hosts) m (m₁.regs.settled :: regs) m'

theorem Steps.append {hosts hosts' : List (Bridge → Bridge)} {m m₁ m' : Machine}
    {regs regs' : List Registers} (h : Steps hosts m regs m₁) (h' : Steps hosts' m₁ regs' m') :
    Steps (hosts ++ hosts') m (regs ++ regs') m' := by
  induction h with
  | none => exact h'
  | step hstep _ ih => exact .step hstep (ih h')

/-- Whether no step ends before its instruction: no interrupt is delivered there, and the escape byte
does not come. -/
def Calm : List (Bridge → Bridge) → Machine → Prop
  | [], _ => True
  | host :: hosts, m => ∃ m₁, tick (m.hosted host) = .ok none m₁ ∧
      ∀ m', executeGuarded m₁ = .ok .go m' → Calm hosts m'

/-! ## Before an instruction -/

section
variable {m m' : Machine}

/-- Memory, and the registers but for what changes with time. -/
def still (m : Machine) : Memory × Registers := (m.memory, m.regs.settled)

theorem still_postAndEnd {cause : Fault} (h : postAndEnd cause m = .ok none m') :
    m'.still = m.still := by
  rcases postAndEnd_eq_ok h with ⟨-, hnone, -⟩ | ⟨-, -, rfl⟩
  · cases hnone
  · rfl

theorem still_pollKeyboard (h : pollKeyboard m = .ok none m') : m'.still = m.still := by
  rw [pollKeyboard_apply] at h
  split at h
  · split at h
    · cases h
    · have hstill := still_postAndEnd h
      exact hstill
    · obtain ⟨-, rfl⟩ := EStateM.Result.ok.inj h
      rfl
  · obtain ⟨-, rfl⟩ := EStateM.Result.ok.inj h
    rfl

theorem still_pollTimer (h : pollTimer m = .ok none m') : m'.still = m.still := by
  rw [pollTimer_apply] at h
  split at h
  · have hstill := still_postAndEnd h
    exact hstill
  · obtain ⟨-, rfl⟩ := EStateM.Result.ok.inj h
    rfl

/-- What does not end a step leaves memory and registers, but for interrupts that are pending. -/
theorem still_tick (h : tick m = .ok none m') : m'.still = m.still := by
  rw [tick_apply] at h
  split at h
  · rcases pollDevices_eq_ok h with ⟨hsome, -⟩ | ⟨m₁, hkey, htimer⟩
    · cases hsome
    · have hstill := (still_pollTimer htimer).trans (still_pollKeyboard hkey)
      exact hstill
  · obtain ⟨-, rfl⟩ := EStateM.Result.ok.inj h
    rfl

end

/-! ## Between two polls -/

/-- How many cycles have been counted since the devices were last polled. -/
def phase (m : Machine) : Nat := m.regs.cycle.toNat % 4096

section
variable {m m' : Machine}

/-- An instruction that waits does so for whole poll intervals. -/
theorem phase_executeGuarded {flow : Flow} (h : executeGuarded m = .ok flow m') :
    m'.phase = m.phase := by
  rw [phase, phase]
  rcases clock_executeGuarded h with h | h | ⟨timeout, h⟩
  · rw [show m'.regs.cycle = m.regs.cycle from congrArg Clock.cycle h]
  · rw [show m'.regs.cycle = m.regs.cycle + 4096 from congrArg Clock.cycle h, UInt64.toNat_add,
      show (4096 : UInt64).toNat = 4096 from rfl]
    omega
  · rw [show m'.regs.cycle = m.regs.cycle from congrArg Clock.cycle h]

/-- A run is calm while no device is polled. -/
theorem calm_of_phase (hosts : List (Bridge → Bridge)) (h : m.phase + hosts.length < 4096) :
    m.Calm hosts := by
  induction hosts generalizing m with
  | nil => trivial
  | cons host hosts ih =>
    rw [List.length_cons] at h
    have hcycle : (m.regs.cycle + 1).toNat % 4096 = m.phase + 1 := by
      rw [UInt64.toNat_add, phase] at *
      simp only [UInt64.reduceToNat]
      omega
    have hdue : (m.regs.cycle + 1) % pollInterval.toUInt64 ≠ 0 := by
      intro hdue
      have hdue := congrArg UInt64.toNat hdue
      rw [UInt64.toNat_mod, show pollInterval.toUInt64.toNat = 4096 by decide, hcycle] at hdue
      cases hdue
    refine ⟨_, tick_of_not_due hdue, fun m' hexecute => ih ?_⟩
    rw [phase_executeGuarded hexecute]
    show (m.regs.cycle + 1).toNat % 4096 + hosts.length < 4096
    omega

end

end Machine

end PagedMachine
