import PagedMachine.Execute

/-!
# Steps and runs

A step counts one cycle, polls the devices when the count reaches a multiple of the poll interval,
and runs one instruction unless an interrupt came first. A fault of the instruction is delivered to
the guest within the step.
-/

set_option autoImplicit false

namespace PagedMachine.Machine

/-- Delivers an interrupt or leaves it pending; delivery ends the step. -/
def postAndEnd (cause : Fault) : Delivery (Option Flow) := do
  return if ← postInterrupt cause then some .go else none

/-- Polls the console, unless a key waits to be delivered. -/
def pollKeyboard : Delivery (Option Flow) := do
  let r ← getRegs
  if r.iena || r.ipend &&& Fault.keyboard.pendingBit = 0 then
    match ← pollConsole with
    | .escape => return some .escape
    | .key _ => postAndEnd .keyboard
    | .quiet => return none
  else
    return none

/-- Advances the timer by the cycles between two polls. -/
def pollTimer : Delivery (Option Flow) := do
  if ← tickTimer pollInterval then postAndEnd .timer else return none

/-- Polls the console and, if that does not end the step, the timer. What ends a step is an
interrupt that was delivered or the escape byte. -/
def pollDevices : Delivery (Option Flow) := do
  match ← pollKeyboard with
  | some flow => return some flow
  | none => pollTimer

/-- Runs the next instruction and delivers its fault, if there is one. -/
def executeGuarded : Delivery Flow := fun m =>
  match executeNext m with
  | .ok flow m => .ok flow m
  | .error (.fatal reason) m => .error reason m
  | .error (.fault cause) m =>
    match raiseException cause m with
    | .ok _ m => .ok .go m
    | .error reason m => .error reason m

def step : Delivery Flow := do
  modifyRegs fun r => { r with cycle := r.cycle + 1 }
  if (← getRegs).cycle % pollInterval.toUInt64 = 0 then
    match ← pollDevices with
    | some flow => return flow
    | none => executeGuarded
  else
    executeGuarded

/-! ## Starting over -/

/-- Kernel mode, interrupts and paging off, caches empty. -/
def reset (pc sp : UInt32) (m : Machine) : Machine :=
  match m with
  | { memory, bridge, journal, .. } =>
    { regs := { pc, sp }, memory := memory.flush, timer := {}, bridge, ipc := pc, ir := ⟨0⟩,
      blockBytes := 0, journal }

/-- Goes on from other registers and another timer, with empty caches. -/
def restore (regs : Registers) (timer : Timer) (m : Machine) : Machine :=
  match m with
  | { memory, bridge, ir, blockBytes, journal, .. } =>
    { regs, memory := memory.flush, timer, bridge, ipc := regs.pc, ir, blockBytes, journal }

/-! ## Fatal errors -/

/-- The registers that a fatal error shows. -/
structure Dump where
  cycle : UInt64
  pc : UInt32
  ir : UInt32
  sp : UInt32
  a : UInt32
  b : UInt32
  c : UInt32
  trap : UInt32
deriving DecidableEq

def dump (m : Machine) : Dump :=
  { cycle := m.regs.cycle, pc := m.regs.pc, ir := m.ir.word, sp := m.regs.sp, a := m.regs.a,
    b := m.regs.b, c := m.regs.c, trap := m.regs.trap }

def Dump.text (d : Dump) : String :=
  let hex (w : UInt32) := Radix.hex 8 w.toNat
  s!"cycle = {d.cycle.toNat} pc = {hex d.pc} ir = {hex d.ir} sp = {hex d.sp} " ++
  s!"a = {Radix.signed d.a} b = {Radix.signed d.b} c = {Radix.signed d.c} trap = {d.trap.toNat}"

/-- What is said of a machine that stopped for good. -/
def fatalMessage (reason : FatalReason) (m : Machine) : String :=
  s!"processor halted! {reason.message}: {m.dump.text}"

/-! ## Runs -/

/-- Why a run ended. -/
inductive RunExit
  | halted (code : UInt32)
  | escaped
  /-- The budget of cycles was used up. -/
  | budgetExhausted
deriving DecidableEq

/-- Steps until `budget` cycles have passed since `start`, at most `fuel` times. -/
def runFrom (start budget : UInt64) : (fuel : Nat) → Delivery RunExit
  | 0 => return .budgetExhausted
  | fuel + 1 => do
    if (← getRegs).cycle - start < budget then
      match ← step with
      | .go => runFrom start budget fuel
      | .halt code => return .halted code
      | .escape => return .escaped
    else
      return .budgetExhausted

/-- Runs until the guest halts, the escape byte comes or `budget` cycles have passed. A step takes
at least one cycle, so there are at most `budget` of them. -/
def run (budget : UInt64) : Delivery RunExit := do
  runFrom (← getRegs).cycle budget budget.toNat

end PagedMachine.Machine
