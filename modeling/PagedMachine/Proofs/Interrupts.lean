import PagedMachine.Proofs.Balance

/-!
# Interrupts along a run

A `Run` is any number of steps since a reset, with any change of the devices between them. The
interrupt registers are guarded all along (`interrupts_guarded`), and no interrupt is lost or
delivered twice (`interrupts_conserved`): the `Tally` of a run counts what came from the devices and
what was delivered.
-/

set_option autoImplicit false

namespace PagedMachine

namespace Machine

/-- The events that were noted after `m` and until `m'`, latest first. -/
def since (m m' : Machine) : List Event := m'.journal.take (m'.journal.length - m.journal.length)

/-- The bytes that were taken from the console after `m` and until `m'`. -/
def taken (m m' : Machine) : List UInt8 :=
  m.bridge.console.pending.take
    (m.bridge.console.pending.length - m'.bridge.console.pending.length)

theorem since_eq {m m' : Machine} {events : List Event} (h : m'.journal = events ++ m.journal) :
    m.since m' = events := by
  rw [since, h, List.length_append, Nat.add_sub_cancel, List.take_left']
  rfl

theorem taken_eq {m m' : Machine} {bytes : List UInt8}
    (h : m.bridge.console.pending = bytes ++ m'.bridge.console.pending) : m.taken m' = bytes := by
  rw [taken, h, List.length_append, Nat.add_sub_cancel, List.take_left']
  rfl

end Machine

open Machine

/-! ## Runs -/

/-- What happened in a run. -/
structure Tally where
  /-- Bytes taken from the console, without the escape byte. -/
  keys : Nat := 0
  /-- How often the timer expired. -/
  expiries : Nat := 0
  /-- How often it did so while its interrupt was pending. -/
  absorbed : Nat := 0
  /-- How often an interrupt entered the kernel. -/
  delivered : Fault → Nat := fun _ => 0

/-- Adds what happened in a step from `m` to `m'`. -/
def Tally.step (t : Tally) (m m' : Machine) : Tally :=
  { keys := t.keys + (m.taken m').countP fun b => m.bridge.escape ≠ some b
    expiries := t.expiries + (m.since m').count .timerExpired
    absorbed := t.absorbed +
      if m.regs.ipend &&& Fault.timer.pendingBit = 0 then 0 else (m.since m').count .timerExpired
    delivered := fun cause => t.delivered cause + (m.since m').count (.interrupted cause) }

/-- The machines that `start` comes to by steps without a fatal error. The devices may be changed from
outside between two steps. -/
inductive Run (start : Machine) : Tally → Machine → Prop
  | start : Run start {} start
  | step {t : Tally} {m m' : Machine} {flow : Flow} :
      Run start t m → step m = .ok flow m' → Run start (t.step m m') m'
  | outside {t : Tally} {m : Machine} (bridge : Bridge) (timer : Timer) :
      Run start t m → Run start t { m with bridge, timer }

section
variable {m m' : Machine}

/-! ## One step -/

theorem guarded_reset (pc sp : UInt32) (m : Machine) : (m.reset pc sp).signals.Guarded :=
  ⟨nofun, nofun, show (0 : UInt32) &&& ~~~3 = 0 by decide⟩

theorem guarded_step {flow : Flow} (hg : m.signals.Guarded) (h : step m = .ok flow m') :
    m'.signals.Guarded := by
  rcases signals_step h with hticked | ⟨m₁, -, hticked, hexecuted⟩
  · exact hg.ticked hticked
  · exact (hg.ticked hticked).executed hexecuted

/-- A step is balanced. While interrupts are masked only an instruction that enables them delivers
one. -/
theorem balanced_step {flow : Flow} (hg : m.signals.Guarded) (h : step m = .ok flow m') :
    ∃ bytes events,
      m.signals.Balanced bytes events (Fault.waits m.regs.ipend .timer * events.count .timerExpired)
        m'.signals ∧
      (m.regs.iena = false → ∀ cause, .interrupted cause ∈ events → ∃ m₁, tick m = .ok none m₁ ∧
        (m₁.next? = some .enableInterrupts ∨ m₁.next? = some .returnFromInterrupt)) := by
  rcases signals_step h with hticked | ⟨m₁, htick, hticked, hexecuted⟩
  · obtain ⟨bytes, events, hb, hmasked⟩ := hticked.balanced hg
    exact ⟨bytes, events, hb, fun hoff cause hmem => absurd hmem (hmasked hoff cause)⟩
  · obtain ⟨bytes, events, hb, hmasked⟩ := hticked.balanced hg
    obtain ⟨bytes', events', hb', hmasked'⟩ := hexecuted.balanced (hg.ticked hticked)
    have hiena : m₁.signals.iena = m.signals.iena := hticked.same.2
    refine ⟨bytes ++ bytes', events' ++ events, ?_, fun hoff cause hmem => ⟨m₁, htick, ?_⟩⟩
    · -- a timer interrupt that waits has interrupts masked, so the instruction sees no expiry
      have hnone : Fault.waits m.regs.ipend .timer * events'.count .timerExpired = 0 := by
        by_cases hoff : m.signals.iena = true
        · rw [show m.regs.ipend = 0 from hg.enabled hoff]
          exact Nat.zero_mul _
        · have hno := (hmasked' (hiena.trans (Bool.eq_false_iff.2 hoff))).1
          rw [List.count_eq_zero.2 hno, Nat.mul_zero]
      have hsum := hb.trans hb'
      rwa [Nat.add_zero, show m.signals.ipend = m.regs.ipend from rfl, ← Nat.zero_add (_ * _),
        ← hnone, ← Nat.mul_add, ← List.count_append] at hsum
    · rcases List.mem_append.1 hmem with hmem | hmem
      · exact (hmasked' (hiena.trans hoff)).2 cause hmem
      · exact absurd hmem (hmasked hoff cause)

/-- What is fatal to user mode: an address that is not aligned, or no room on the kernel's stack. -/
theorem step_eq_error_of_user {reason : FatalReason} (hu : m.regs.user = true)
    (hi : m.regs.iena = true) (h : step m = .error reason m') :
    (∃ pc, reason = .misalignedPc pc) ∨ reason = .kernelStackFault := by
  cases htick : tick m with
  | error reason' m₁ =>
    rw [step_of_tick_error htick] at h
    obtain ⟨rfl, -⟩ := EStateM.Result.error.inj h
    exact .inr (tick_eq_error htick)
  | ok ended m₁ =>
    cases ended with
    | some flow =>
      rw [step_of_tick_some htick] at h
      cases h
    | none =>
      obtain ⟨huser, hiena⟩ := (signals_tick htick).same
      rw [step_of_tick htick, executeGuarded] at h
      cases hr : executeNext m₁ with
      | ok flow m₂ =>
        rw [hr] at h
        cases h
      | error stop m₂ =>
        rw [hr] at h
        cases stop with
        | fatal reason' =>
          obtain ⟨rfl, -⟩ := EStateM.Result.error.inj h
          exact .inl ⟨_, executeNext_eq_fatal (huser.trans hu) hr⟩
        | fault cause =>
          have hiena₂ : m₂.regs.iena = true :=
            (congrArg Signals.iena (signals_of_fault hr)).trans (hiena.trans hi)
          dsimp only at h
          cases hraise : raiseException cause m₂ with
          | ok u m₃ =>
            rw [hraise] at h
            cases h
          | error reason' m₃ =>
            rw [hraise] at h
            obtain ⟨rfl, -⟩ := EStateM.Result.error.inj h
            have hreason := raiseException_eq_error hraise
            rw [if_pos hiena₂] at hreason
            exact .inr hreason

/-! ## Interrupts that waited -/

namespace Machine

/-- A pending interrupt entered the kernel. -/
structure Redelivered (cause : Fault) (m m' : Machine) : Prop where
  journal : m'.journal = .interrupted cause :: m.journal
  ipend : m'.regs.ipend = m.regs.ipend &&& ~~~cause.pendingBit
  iena : m'.regs.iena = false
  user : m'.regs.user = false
  pc : m'.regs.pc = m.regs.ivec
  trap : m'.regs.trap = cause.code ∨ m'.regs.trap = cause.code ||| Fault.userBit

variable {cause : Fault} {u : Unit}

theorem redelivered_of_enable (h : enableInterrupts m = .ok u m')
    (hp : Fault.ofPending? m.regs.ipend = some cause) : Redelivered cause m m' := by
  rw [enableInterrupts_apply, hp] at h
  obtain ⟨memory, -, rfl⟩ := raiseInterrupt_eq_ok_iff.1 h
  refine ⟨rfl, rfl, rfl, rfl, rfl, ?_⟩
  show Registers.entryCode _ cause = _ ∨ Registers.entryCode _ cause = _
  rw [Registers.entryCode]
  split
  · exact .inr rfl
  · exact .inl rfl

theorem redelivered_of_return (h : returnFromInterrupt m = .ok u m') (hi : m.regs.iena = false)
    (hp : Fault.ofPending? m.regs.ipend = some cause) : Redelivered cause m m' := by
  obtain ⟨code, pc, memory, h⟩ := returnFromInterrupt_eq_ok h
  dsimp only at h
  rw [if_neg (by simp [hi])] at h
  have hivec : (({ m.regs with sp := m.regs.sp + 8 + 8 } : Registers).resume code pc).ivec =
      m.regs.ivec := by
    rw [Registers.resume]
    split <;> rfl
  have hr := redelivered_of_enable h (by simpa using hp)
  exact ⟨hr.journal, by simpa using hr.ipend, hr.iena, hr.user, hr.pc.trans hivec, hr.trap⟩

/-- The kernel runs what it fetches. -/
theorem executeNext_of_kernel {op : Operation} (hu : m.regs.user = false)
    (hnext : m.next? = some op) : ∃ i m₁, fetch m = .ok i m₁ ∧ executeNext m = execute op i m₁ := by
  obtain ⟨i, m₁, hfetch, hop⟩ := next?_eq_some hnext
  refine ⟨i, m₁, hfetch, executeNext_of_fetch hfetch hop fun h => ?_⟩
  exact absurd ((user_of_fetch hfetch).symm.trans h) (by simp [hu])

/-- An operation of the kernel that may enter it again is run after the fetch. -/
theorem executeGuarded_of_delivery {op : Operation} {x : Delivery Unit} (hu : m.regs.user = false)
    (hnext : m.next? = some op)
    (hx : ∀ i m₁, execute op i m₁ = (liftM x >>= fun _ => pure Flow.go : Exec Flow) m₁) :
    ∃ memory i, executeGuarded m =
      match x { m with
        regs := { m.regs with pc := m.regs.pc + 4 }, memory, ipc := m.regs.pc, ir := i } with
      | .ok _ m' => .ok .go m'
      | .error reason m' => .error reason m' := by
  obtain ⟨i, m₁, hfetch, hexecute⟩ := executeNext_of_kernel hu hnext
  obtain ⟨-, memory, -, rfl⟩ := fetch_eq_ok hfetch
  refine ⟨memory, i, ?_⟩
  rw [hx, bind_apply, liftDelivery_apply] at hexecute
  rw [executeGuarded, hexecute]
  cases x { m with
    regs := { m.regs with pc := m.regs.pc + 4 }, memory, ipc := m.regs.pc, ir := i } <;> rfl

/-- Enabling interrupts delivers the one that waited, unless the kernel's stack gives out. -/
theorem executeGuarded_of_pending (hu : m.regs.user = false)
    (hp : Fault.ofPending? m.regs.ipend = some cause)
    (hop : m.next? = some .enableInterrupts ∨
      m.next? = some .returnFromInterrupt ∧ m.regs.iena = false) :
    (∃ m', executeGuarded m = .error .kernelStackFault m') ∨
      ∃ m', executeGuarded m = .ok .go m' ∧ Redelivered cause m m' := by
  rcases hop with hop | ⟨hop, hi⟩
  · obtain ⟨memory, i, hx⟩ := executeGuarded_of_delivery hu hop fun _ _ => rfl
    rw [hx]
    cases hr : enableInterrupts _ with
    | error reason m' =>
      obtain rfl := enableInterrupts_eq_error hr
      exact .inl ⟨m', rfl⟩
    | ok _ m' =>
      have hd := redelivered_of_enable hr hp
      exact .inr ⟨m', rfl, hd.journal, hd.ipend, hd.iena, hd.user, hd.pc, hd.trap⟩
  · obtain ⟨memory, i, hx⟩ := executeGuarded_of_delivery hu hop fun _ _ => rfl
    rw [hx]
    cases hr : returnFromInterrupt _ with
    | error reason m' =>
      obtain rfl := returnFromInterrupt_eq_error hr
      exact .inl ⟨m', rfl⟩
    | ok _ m' =>
      have hd := redelivered_of_return hr hi hp
      exact .inr ⟨m', rfl, hd.journal, hd.ipend, hd.iena, hd.user, hd.pc, hd.trap⟩

end Machine

/-! ## Along a run -/

variable {start : Machine} {t : Tally}

theorem Run.guarded (h : Run start t m) (hs : start.signals.Guarded) : m.signals.Guarded := by
  induction h with
  | start => exact hs
  | step _ hstep ih => exact guarded_step ih hstep
  | outside bridge timer _ ih => exact ⟨ih.user, ih.enabled, ih.only⟩

/-- What came is what was delivered and what is pending. -/
theorem Run.tally (h : Run start t m) (hs : start.signals.Guarded) (hp : start.regs.ipend = 0) :
    t.keys = t.delivered .keyboard + Fault.waits m.regs.ipend .keyboard ∧
      t.expiries = t.delivered .timer + Fault.waits m.regs.ipend .timer + t.absorbed := by
  induction h with
  | start =>
    rw [hp]
    exact ⟨rfl, rfl⟩
  | outside bridge timer _ ih => exact ih
  | @step t m m' flow hrun hstep ih =>
    obtain ⟨bytes, events, hb, -⟩ := balanced_step (hrun.guarded hs) hstep
    have hsince : m.since m' = events := since_eq hb.journal
    have htaken : m.taken m' = bytes := taken_eq hb.input
    have hkeys : bytes.countP (fun b => m.bridge.escape ≠ some b) +
        Fault.waits m.regs.ipend .keyboard =
          events.count (.interrupted .keyboard) + Fault.waits m'.regs.ipend .keyboard := hb.keys
    have htimer : events.count .timerExpired + Fault.waits m.regs.ipend .timer =
        events.count (.interrupted .timer) + Fault.waits m'.regs.ipend .timer +
          Fault.waits m.regs.ipend .timer * events.count .timerExpired := hb.timer
    have habsorbed : (if m.regs.ipend &&& Fault.timer.pendingBit = 0 then 0
        else events.count .timerExpired) =
        Fault.waits m.regs.ipend .timer * events.count .timerExpired := by
      rw [Fault.waits]
      split
      · exact (Nat.zero_mul _).symm
      · exact (Nat.one_mul _).symm
    simp only [Tally.step, hsince, htaken, habsorbed]
    omega

end

/-! ## Two short runs -/

/-- A machine with two kernels. The one at 0 returns to a user program that halts, the one at 8
enables interrupts and waits for a key, which is there. -/
def Machine.loaded : Machine :=
  { memory :=
      { ram := ((((Ram.zeroed 4096).write32 0 152).write32 8 151).write32 12 208).write32 64 16
          |>.write32 72 4
        tlb := .ofCapacity 1
        path := .make true }
    bridge := { console := { pending := [65] } } }

theorem ram_loaded :
    loaded.memory.ram.size = 4096 ∧ loaded.memory.ram.read32 0 = 152 ∧
      loaded.memory.ram.read32 4 = 0 ∧ loaded.memory.ram.read32 8 = 151 ∧
      loaded.memory.ram.read32 12 = 208 ∧ loaded.memory.ram.read32 64 = 16 ∧
      loaded.memory.ram.read32 72 = 4 := by
  have hword (r : Ram) (addr v : UInt32) (hr : r.bytes.size = 4096) (h : addr.toNat + 4 ≤ 4096) :
      (r.write32 addr v).read32 addr = v :=
    Ram.read32_write32 (Ram.holds_iff.2 (by rwa [hr])) v
  refine ⟨?_, ?_, ?_, ?_, ?_, ?_, ?_⟩ <;> simp only [loaded]
  case refine_1 =>
    simp only [Ram.size, Ram.size_write32, Ram.size_zeroed]
    decide
  all_goals
    repeat rw [Ram.read32_write32_of_ne (by decide) (by decide) (by decide)]
  case refine_3 => exact Ram.read32_zeroed _ _
  all_goals exact hword _ _ _ (by simp only [Ram.size_write32, Ram.size_zeroed]; decide) (by decide)

/-- The run to the user program. -/
theorem run_to_user :
    ∃ t m, Run (loaded.reset 0 64) t m ∧ m.memory.Direct ∧ m.memory.ram = loaded.memory.ram ∧
      m.regs = { pc := 4, ssp := 80, user := true, iena := true, cycle := 1 } := by
  obtain ⟨hsize, hword, -, -, -, hcode, hpc⟩ := ram_loaded
  obtain ⟨memory, hd, hram, hstep⟩ := step_of_direct (m := loaded.reset 0 64) 152
    .returnFromInterrupt (.flush _ loaded.memory) rfl (by decide) (by decide)
    (show pageBase 0 < loaded.memory.ram.size by rw [hsize]; decide) hword (by decide +kernel)
    (fun h => Bool.noConfusion h)
  rw [show (loaded.reset 0 64).memory.ram = loaded.memory.ram from rfl] at hram
  rw [← hram] at hsize hcode hpc
  let kernel : Machine :=
    { regs := { pc := 4, sp := 64, cycle := 1 }, memory, bridge := loaded.bridge, ir := ⟨152⟩ }
  obtain ⟨memory', hd', hram', hreturn⟩ := returnFromInterrupt_of_direct (m := kernel) hd rfl
    (show alignTo8 64 = 64 by decide) (show alignTo8 (64 + 8) = 72 by decide)
    (by rw [hsize]; decide) (by rw [hsize]; decide) hcode hpc
  let entered : Machine :=
    { kernel with
      regs := { pc := 4, ssp := 80, user := true, iena := true, cycle := 1 }
      memory := memory' }
  have hresume : ({ pc := 4, sp := 64 + 8 + 8, cycle := 1 } : Registers).resume 16 4 =
      { pc := 4, ssp := 80, user := true, cycle := 1 } := by
    rw [Registers.resume, if_pos (by decide)]
    rfl
  have hentered : returnFromInterrupt kernel = .ok () entered := by
    rw [hreturn, if_neg Bool.false_ne_true]
    simp only [kernel, hresume]
    exact enableInterrupts_of_none (show Fault.ofPending? 0 = none by decide)
  refine ⟨_, entered, .step .start (hstep .go _ ?_), hd', hram'.trans hram, rfl⟩
  exact liftDelivery_then_of_ok hentered .go

/-- The run to where the key was taken. -/
theorem run_to_key :
    ∃ t m, Run (loaded.reset 8 4096) t m ∧ t.keys = 1 ∧ m.regs.ipend = 0 := by
  obtain ⟨hsize, -, -, henable, hidle, -, -⟩ := ram_loaded
  obtain ⟨memory₁, hd₁, hram₁, hstep₁⟩ := step_of_direct (m := loaded.reset 8 4096) 151
    .enableInterrupts (.flush _ loaded.memory) rfl (by decide) (by decide)
    (show pageBase 8 < loaded.memory.ram.size by rw [hsize]; decide) henable (by decide +kernel)
    (fun h => Bool.noConfusion h)
  rw [show (loaded.reset 8 4096).memory.ram = loaded.memory.ram from rfl] at hram₁
  rw [← hram₁] at hsize hidle
  let enabled : Machine :=
    { regs := { pc := 12, sp := 4096, iena := true, cycle := 1 }
      memory := memory₁
      bridge := loaded.bridge
      ipc := 8
      ir := ⟨151⟩ }
  have hrun : Run (loaded.reset 8 4096) _ enabled := .step .start (hstep₁ .go _
    (liftDelivery_then_of_ok
      (enableInterrupts_of_none (show Fault.ofPending? 0 = none by decide)) .go))
  obtain ⟨memory₂, hd₂, hram₂, hstep₂⟩ := step_of_direct (m := enabled) 208 .idle hd₁ rfl
    (show (1 + 1 : UInt64) % _ ≠ 0 by decide) (show (12 : UInt32) &&& 3 = 0 by decide)
    (show pageBase 12 < memory₁.ram.size by rw [hsize]; decide) hidle (by decide +kernel)
    (fun h => Bool.noConfusion h)
  rw [show enabled.memory.ram = memory₁.ram from rfl] at hram₂
  rw [← hram₂] at hsize
  obtain ⟨memory₃, hpush⟩ := hd₂.pushFrame (show ({} : AddressSpace).paging = false from rfl)
    (show pageBase (alignTo8 (4096 - 8)) < memory₂.ram.size by rw [hsize]; decide)
    (by rw [hsize]; decide) 16 Fault.keyboard.code
  let fetched : Machine :=
    { enabled with
      regs := { pc := 16, sp := 4096, iena := true, cycle := 2 }
      memory := memory₂
      ipc := 12
      ir := ⟨208⟩ }
  let heard : Machine :=
    { fetched with bridge := { latch := some 65 }, journal := [.keyLatched 65] }
  let delivered : Machine :=
    { heard with
      regs := { heard.regs.entered .keyboard with iena := false }
      memory := memory₃.invalidatePath
      journal := [.interrupted .keyboard, .keyLatched 65] }
  have hdelivered : raiseInterrupt .keyboard heard = .ok () delivered :=
    raiseInterrupt_eq_ok_iff.2 ⟨memory₃, hpush, rfl⟩
  have hheard : fetched.heard = heard := rfl
  have hpoll : fetched.bridge.poll.1 = .key 65 := rfl
  have hwait : idle fetched = .ok .go delivered := by
    rw [idle_apply rfl rfl, hheard, hpoll]
    exact liftDelivery_then_of_ok hdelivered .go
  refine ⟨_, delivered, hrun.step (hstep₂ .go delivered hwait), ?_, rfl⟩
  have hnone : (loaded.reset 8 4096).taken enabled = [] := rfl
  have hkey : enabled.taken delivered = [65] := rfl
  rw [Tally.step, Tally.step, hnone, hkey]
  rfl

/-! ## Main results -/

/-- Between two steps of a run user mode has interrupts enabled, none is pending while they are, and
nothing else than the two interrupts is ever pending. So a fault in user mode is never a double fault,
and `idle` does not wait while an interrupt is pending: it faults. -/
theorem interrupts_guarded {m₀ m : Machine} {pc sp : UInt32} {t : Tally}
    (h : Run (m₀.reset pc sp) t m) :
    (m.regs.user = true → m.regs.iena = true) ∧
      (m.regs.iena = true → m.regs.ipend &&& Fault.timer.pendingBit = 0 ∧
        m.regs.ipend &&& Fault.keyboard.pendingBit = 0) ∧
      m.regs.ipend &&& ~~~(Fault.timer.pendingBit ||| Fault.keyboard.pendingBit) = 0 ∧
      (m.regs.user = true → ∀ m', step m ≠ .error .doubleFault m') ∧
      ∀ m₁, tick m = .ok none m₁ → m₁.next? = some .idle →
        (∀ cause m', executeNext m₁ ≠ .error (.fault cause) m') → m₁.regs.ipend = 0 := by
  have hg : m.signals.Guarded := h.guarded (guarded_reset pc sp m₀)
  refine ⟨hg.user, fun hi => ?_, hg.only, fun hu m' hstep => ?_, fun m₁ htick hidle hwaits => ?_⟩
  · rw [show m.regs.ipend = 0 from hg.enabled hi]
    exact ⟨UInt32.zero_and, UInt32.zero_and⟩
  · rcases step_eq_error_of_user hu (hg.user hu) hstep with ⟨pc, hreason⟩ | hreason
    · cases hreason
    · cases hreason
  · have hg₁ : m₁.signals.Guarded := hg.ticked (signals_tick htick)
    by_cases hi : m₁.regs.iena = true
    · exact hg₁.enabled hi
    · -- with interrupts masked the kernel runs, and there idle faults
      have hu : m₁.regs.user = false := Bool.eq_false_iff.2 fun hu => hi (hg₁.user hu)
      obtain ⟨i, m₂, hfetch, hexecute⟩ := executeNext_of_kernel hu hidle
      have hiena : m₂.regs.iena = false :=
        (congrArg Signals.iena (shielded_signals.plain.fetch.of_ok hfetch)).trans
          (Bool.eq_false_iff.2 hi)
      exact absurd (hexecute.trans (idle_of_masked hiena)) (hwaits _ _)

theorem interrupts_guarded_loaded :
    ∃ t m, Run (loaded.reset 0 64) t m ∧ m.regs.user = true ∧ m.regs.iena = true ∧
      m.regs.ipend &&& Fault.timer.pendingBit = 0 ∧ m.regs.ipend &&& Fault.keyboard.pendingBit = 0 ∧
      ∀ m', step m ≠ .error .doubleFault m' := by
  obtain ⟨t, m, hrun, -, -, hregs⟩ := run_to_user
  have hu : m.regs.user = true := by rw [hregs]
  obtain ⟨huser, hiena, -, hdouble, -⟩ := interrupts_guarded hrun
  exact ⟨t, m, hrun, hu, huser hu, (hiena (huser hu)).1, (hiena (huser hu)).2, hdouble hu⟩

/-- Interrupts are delivered exactly once. Along a run every key taken and every expiry of the timer
was delivered or is pending, but for expiries while one was pending. While interrupts are masked only
an instruction that enables them delivers one, and if one is pending that instruction delivers the
lowest, within its step, and leaves the other. -/
theorem interrupts_conserved {m₀ m : Machine} {pc sp : UInt32} {t : Tally}
    (h : Run (m₀.reset pc sp) t m) :
    (t.keys = t.delivered .keyboard +
        if m.regs.ipend &&& Fault.keyboard.pendingBit = 0 then 0 else 1) ∧
      (t.expiries = t.delivered .timer +
        (if m.regs.ipend &&& Fault.timer.pendingBit = 0 then 0 else 1) + t.absorbed) ∧
      (∀ flow m' cause, step m = .ok flow m' → m.regs.iena = false →
        .interrupted cause ∈ m.since m' → ∃ m₁, tick m = .ok none m₁ ∧
          (m₁.next? = some .enableInterrupts ∨ m₁.next? = some .returnFromInterrupt)) ∧
      ∀ m₁, tick m = .ok none m₁ → m₁.regs.ipend ≠ 0 →
        (m₁.next? = some .enableInterrupts ∨
          m₁.next? = some .returnFromInterrupt ∧ m₁.regs.iena = false) →
        (∃ m', step m = .error .kernelStackFault m') ∨
          ∃ m', step m = .ok .go m' ∧
            Redelivered (if m₁.regs.ipend &&& Fault.timer.pendingBit = 0 then .keyboard else .timer)
              m₁ m' := by
  have hstart := guarded_reset pc sp m₀
  have hg : m.signals.Guarded := h.guarded hstart
  obtain ⟨hkeys, htimer⟩ := h.tally hstart rfl
  refine ⟨hkeys, htimer, fun flow m' cause hstep hi hmem => ?_, fun m₁ htick hne hop => ?_⟩
  · obtain ⟨bytes, events, hb, hmasked⟩ := balanced_step hg hstep
    rw [since_eq hb.journal] at hmem
    exact hmasked hi cause hmem
  · have hg₁ : m₁.signals.Guarded := hg.ticked (signals_tick htick)
    have hi : m₁.regs.iena ≠ true := fun hi => hne (hg₁.enabled hi)
    have hu : m₁.regs.user = false := Bool.eq_false_iff.2 fun hu => hi (hg₁.user hu)
    have hlowest : Fault.ofPending? m₁.regs.ipend =
        some (if m₁.regs.ipend &&& Fault.timer.pendingBit = 0 then .keyboard else .timer) := by
      have honly : m₁.regs.ipend &&& ~~~3 = 0 := hg₁.only
      rcases Fault.pending_cases honly with h0 | h1 | h2 | h3
      · exact absurd h0 hne
      · rw [h1]
        decide
      · rw [h2]
        decide
      · rw [h3]
        decide
    rw [step_of_tick htick]
    exact executeGuarded_of_pending hu hlowest hop

theorem interrupts_conserved_loaded :
    ∃ t m, Run (loaded.reset 8 4096) t m ∧ t.keys = 1 ∧ t.delivered .keyboard = 1 := by
  obtain ⟨t, m, hrun, hkeys, hpending⟩ := run_to_key
  refine ⟨t, m, hrun, hkeys, ?_⟩
  have hconserved := (interrupts_conserved hrun).1
  rw [hkeys, hpending, if_pos (by decide)] at hconserved
  exact hconserved.symm

end PagedMachine
