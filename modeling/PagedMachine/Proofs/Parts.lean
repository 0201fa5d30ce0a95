import PagedMachine.Proofs.Addressed
import PagedMachine.Step.Lemmas

/-!
# The parts of a step

`Parts P`: the property `P` of code holds of the accesses, of the calls of the host, of what changes the
address space, and of what the machine does apart from these (`Apart`), so it holds of a whole step and
of runs (`Parts.step`, `Parts.run`). This file goes through the machine once, so that a proof about all
instructions need not. Where only faults and waiting are concerned, code looks at the address of the
running instruction (`LooksBack`).
-/

set_option autoImplicit false

namespace PagedMachine

/-! ## Apart from memory and the host -/

/-- Bridges that differ in what was written to the console and what the host was asked. -/
structure Bridge.Twin (b b' : Bridge) : Prop where
  latch : b'.latch = b.latch
  escape : b'.escape = b.escape
  pending : b'.console.pending = b.console.pending
  supply : b'.console.supply = b.console.supply
  owned : b'.sockets.owned = b.sockets.owned

namespace Bridge

variable {b b' : Bridge}

theorem sockets_poll (b : Bridge) : b.poll.2.sockets = b.sockets := by
  have h := b.polled_poll
  generalize b.poll = polled at h
  obtain ⟨event, b'⟩ := polled
  cases h <;> rfl

theorem output_poll (b : Bridge) : b.poll.2.console.output = b.console.output := by
  have h := b.polled_poll
  generalize b.poll = polled at h
  obtain ⟨event, b'⟩ := polled
  cases h <;> rfl

theorem sockets_put (b : Bridge) (fd : UInt32) (byte : UInt8) :
    (b.put fd byte).2.sockets = b.sockets := by
  unfold put
  split <;> rfl

/-- The same byte is written, if one is. -/
theorem output_put (b b' : Bridge) (fd : UInt32) (byte : UInt8) : ∃ more,
    (b.put fd byte).2.console.output = b.console.output ++ more ∧
      (b'.put fd byte).2.console.output = b'.console.output ++ more := by
  unfold put
  split
  · have hpush (out : ByteArray) : out.push byte = out ++ ByteArray.empty.push byte := by
      rw [← Bytes.append_push, ByteArray.append_empty]
    exact ⟨_, hpush _, hpush _⟩
  · exact ⟨.empty, by rw [ByteArray.append_empty], by rw [ByteArray.append_empty]⟩

namespace Twin

variable (h : Twin b b')
include h

theorem isOpen : b'.console.isOpen = b.console.isOpen := by
  rw [Console.isOpen, Console.isOpen, h.pending, h.supply]

theorem poll : b'.poll.1 = b.poll.1 ∧ Twin b.poll.2 b'.poll.2 := by
  obtain ⟨⟨pending, supply, output⟩, sockets, latch, escape⟩ := b
  obtain ⟨⟨pending', supply', output'⟩, sockets', latch', escape'⟩ := b'
  obtain ⟨hl, he, hp, hs, ho⟩ := h
  dsimp only at hl he hp hs
  subst hl he hp hs
  simp only [Bridge.poll, Console.poll]
  cases pending' with
  | nil => cases supply' <;> exact ⟨rfl, rfl, rfl, rfl, rfl, ho⟩
  | cons k rest =>
    dsimp only
    split <;> exact ⟨rfl, rfl, rfl, rfl, rfl, ho⟩

theorem put (fd : UInt32) (byte : UInt8) :
    (b'.put fd byte).1 = (b.put fd byte).1 ∧ Twin (b.put fd byte).2 (b'.put fd byte).2 := by
  unfold Bridge.put
  split
  · exact ⟨rfl, h.latch, h.escape, h.pending, h.supply, h.owned⟩
  · exact ⟨rfl, h⟩

end Twin

end Bridge

namespace Machine

/-- Machines that differ in memory and in what no code looks at: what was written to the console, what
the host was asked, the journal, counts, and which instruction runs. -/
structure Twin (m m' : Machine) : Prop where
  regs : m'.regs = m.regs
  timer : m'.timer = m.timer
  bridge : m.bridge.Twin m'.bridge

/-- What the machine does that needs neither memory nor the host. -/
inductive Apart : {α : Type} → (Machine → α × Machine) → Prop
  | registers {fn : Registers → Registers} :
    (∀ r, (fn r).space = r.space) → Apart fun m => ((), { m with regs := fn m.regs })
  /-- Which instruction runs. -/
  | current (ipc : UInt32 → UInt32) (ir : Instruction → Instruction) :
    Apart fun m => ((), { m with ipc := ipc m.ipc, ir := ir m.ir })
  | countBlock (n : Nat) : Apart fun m => ((), { m with blockBytes := m.blockBytes + n })
  | note (e : Event) : Apart fun m => ((), { m with journal := e :: m.journal })
  | tick (ticks : UInt32) : Apart fun m => ((m.timer.tick ticks).1, m.ticked ticks)
  | setTimeout (timeout : UInt32) :
    Apart fun m => ((), { m with timer := m.timer.setTimeout timeout })
  | poll : Apart fun m => (m.bridge.poll.1, { m with bridge := m.bridge.poll.2 })
  | takeKey : Apart fun m => (m.bridge.takeKey.1, { m with bridge := m.bridge.takeKey.2 })
  | put (fd : UInt32) (b : UInt8) :
    Apart fun m => ((m.bridge.put fd b).1, { m with bridge := (m.bridge.put fd b).2 })

namespace Apart

variable {α : Type} {fn : Machine → α × Machine} (h : Apart fn)
include h

theorem memory (m : Machine) (memory : Memory) :
    fn { m with memory } = ((fn m).1, { (fn m).2 with memory }) := by
  cases h <;> rfl

theorem space (m : Machine) : (fn m).2.regs.space = m.regs.space := by
  cases h with
  | registers hspace => exact hspace m.regs
  | _ => rfl

theorem sockets (m : Machine) : (fn m).2.bridge.sockets = m.bridge.sockets := by
  cases h with
  | poll => exact m.bridge.sockets_poll
  | put fd b => exact m.bridge.sockets_put fd b
  | _ => rfl

theorem twin {m m' : Machine} (ht : Twin m m') :
    (fn m').1 = (fn m).1 ∧ Twin (fn m).2 (fn m').2 := by
  obtain ⟨hregs, htimer, hbridge⟩ := ht
  cases h with
  | @registers fn _ => exact ⟨rfl, congrArg fn hregs, htimer, hbridge⟩
  | tick ticks =>
    exact ⟨congrArg (fun t => (Timer.tick t ticks).1) htimer, hregs,
      congrArg (fun t => (Timer.tick t ticks).2) htimer, hbridge⟩
  | setTimeout timeout => exact ⟨rfl, hregs, congrArg (Timer.setTimeout · timeout) htimer, hbridge⟩
  | poll => exact ⟨hbridge.poll.1, hregs, htimer, hbridge.poll.2⟩
  | takeKey =>
    exact ⟨hbridge.latch, hregs, htimer, rfl, hbridge.escape, hbridge.pending, hbridge.supply,
      hbridge.owned⟩
  | put fd b => exact ⟨(hbridge.put fd b).1, hregs, htimer, (hbridge.put fd b).2⟩
  | _ => exact ⟨rfl, hregs, htimer, hbridge⟩

/-- Which instruction runs is set or stays, whatever else there is. -/
theorem ipc : ∃ next : UInt32 → UInt32, ∀ m, (fn m).2.ipc = next m.ipc ∧
    ∀ i, fn { m with ipc := i } = ((fn m).1, { (fn m).2 with ipc := next i }) := by
  cases h with
  | current ipc ir => exact ⟨ipc, fun m => ⟨rfl, fun i => rfl⟩⟩
  | _ => exact ⟨id, fun m => ⟨rfl, fun i => rfl⟩⟩

omit h in
/-- The same is written to the console. -/
theorem output (h : Apart fn) (m m' : Machine) : ∃ more,
    (fn m).2.bridge.console.output = m.bridge.console.output ++ more ∧
      (fn m').2.bridge.console.output = m'.bridge.console.output ++ more := by
  have hnothing : ∃ more, m.bridge.console.output = m.bridge.console.output ++ more ∧
      m'.bridge.console.output = m'.bridge.console.output ++ more :=
    ⟨.empty, by rw [ByteArray.append_empty], by rw [ByteArray.append_empty]⟩
  cases h with
  | poll => rwa [Bridge.output_poll, Bridge.output_poll]
  | put fd b => exact Bridge.output_put m.bridge m'.bridge fd b
  | _ => exact hnothing

end Apart

structure Parts (P : ∀ {ε α : Type}, EStateM ε Machine α → Prop) : Prop where
  pure {ε α : Type} (a : α) : P (pure a : EStateM ε Machine α)
  throw {ε α : Type} (e : ε) : P (throw e : EStateM ε Machine α)
  bind {ε α β : Type} {x : EStateM ε Machine α} {f : α → EStateM ε Machine β} :
    P x → (∀ a, P (f a)) → P (x >>= f)
  handle {ε ε' α : Type} {x : EStateM ε Machine α} {f : ε → EStateM ε' Machine α} :
    P x → (∀ e, P (f e)) → P (handle x f)
  /-- Code may look at what twins have in common. -/
  look {ε α : Type} {f : Machine → EStateM ε Machine α} :
    (∀ m m', Twin m m' → f m' = f m) → (∀ m, P (f m)) → P (get >>= f)
  apart {ε α : Type} {fn : Machine → α × Machine} :
    Apart fn → P (modifyGet fn : EStateM ε Machine α)
  sockets {α : Type} {fn : Sockets → α × Sockets} :
    Sockets.Steady fn → P (onSockets fn : Guarded α)
  size {ε α : Type} {f : UInt32 → EStateM ε Machine α} :
    (∀ size, P (f size)) → P (getRam >>= fun ram => f ram.size)
  reading {α : Type} {slot : Slot} {vaddr : UInt32} {access : Access} {n : Nat}
    {fault : Option Fault} {read : Ram → UInt32 → α} : vaddr.toNat % 4096 + n ≤ 4096 →
      Ram.ReadsAt n read → P (reading slot vaddr access n fault read)
  reading₂ {α : Type} {b a : UInt32} {n : Nat} {fault : Fault} {read : Ram → UInt32 → UInt32 → α} :
    b.toNat % 4096 + n ≤ 4096 → a.toNat % 4096 + n ≤ 4096 → Ram.ReadsAt₂ n read →
      P (reading₂ b a n fault read)
  writing {slot : Slot} {vaddr : UInt32} {fault : Option Fault} {data : ByteArray} :
    vaddr.toNat % 4096 + data.size ≤ 4096 → P (writing slot vaddr fault data)
  copying {b a : UInt32} {n : Nat} {fault : Fault} : b.toNat % 4096 + n ≤ 4096 →
    a.toNat % 4096 + n ≤ 4096 → P (copying b a n fault)
  setDirectory (i : Instruction) : P (perform .setDirectory i)
  setPaging (i : Instruction) : P (perform .setPaging i)
  invalidatePath {ε : Type} : P (modifyMemory Memory.invalidatePath : EStateM ε Machine Unit)

/-- Whether code may look at the address of the running instruction. -/
def LooksBack (P : ∀ {ε α : Type}, EStateM ε Machine α → Prop) : Prop :=
  ∀ {ε α : Type} {f : UInt32 → EStateM ε Machine α},
    (∀ ipc, P (f ipc)) → P (get >>= fun m => f m.ipc)

/-- Delivers the fault that stopped an instruction. -/
def onStop : Stop → Delivery Flow
  | .fatal reason => throw reason
  | .fault cause => do
    raiseException cause
    return .go

theorem executeGuarded_eq : executeGuarded = handle executeNext onStop := by
  funext m
  rw [executeGuarded, handle_apply]
  cases executeNext m with
  | ok flow m => rfl
  | error stop m =>
    cases stop with
    | fatal reason => rfl
    | fault cause =>
      simp only [onStop, bind_apply]
      cases raiseException cause m <;> rfl

/-- Errors that are named anew are handled by another error. -/
theorem adaptExcept_eq_handle {ε ε' α : Type} (fn : ε → ε') (x : EStateM ε Machine α) :
    EStateM.adaptExcept fn x = handle x fun e => throw (fn e) := by
  funext m
  rw [adaptExcept_apply, handle_apply]
  cases x m <;> rfl

namespace Parts

variable {P : ∀ {ε α : Type}, EStateM ε Machine α → Prop} (h : Parts P)

include h

/-! ## Parts of the state -/

section
variable {ε ε' α : Type}

theorem adapt (fn : ε → ε') {x : EStateM ε Machine α} (hx : P x) : P (EStateM.adaptExcept fn x) := by
  rw [adaptExcept_eq_handle]
  exact h.handle hx fun e => h.throw _

theorem liftGuarded {x : Guarded α} (hx : P x) : P (liftM x : Exec α) := h.adapt _ hx

theorem liftDelivery {x : Delivery α} (hx : P x) : P (liftM x : Exec α) := h.adapt _ hx

theorem require (ok : Bool) (e : ε) : P (require ok e : EStateM ε Machine Unit) := by
  cases ok with
  | true => exact h.pure ()
  | false => exact h.throw e

theorem getRegs : P (getRegs : EStateM ε Machine Registers) :=
  h.look (fun _ _ ht => by rw [ht.regs]) fun _ => h.pure _

theorem modifyRegs {fn : Registers → Registers} (hspace : ∀ r, (fn r).space = r.space) :
    P (modifyRegs fn : EStateM ε Machine Unit) :=
  h.apart (.registers hspace)

theorem setInt (dst : IntReg) (v : UInt32) : P (setInt dst v : EStateM ε Machine Unit) :=
  h.modifyRegs fun _ => by cases dst <;> rfl

theorem setPc (pc : UInt32) : P (setPc pc : EStateM ε Machine Unit) := h.modifyRegs fun _ => rfl

theorem note (e : Event) : P (note e : EStateM ε Machine Unit) := h.apart (.note e)

theorem tickTimer (ticks : UInt32) : P (tickTimer ticks : EStateM ε Machine Bool) := by
  have htick : (Machine.tickTimer ticks : EStateM ε Machine Bool) =
      modifyGet fun m => ((m.timer.tick ticks).1, m.ticked ticks) := by
    funext m
    rw [tickTimer_apply, modifyGet_apply]
  rw [htick]
  exact h.apart (.tick ticks)

theorem pollConsole : P (pollConsole : EStateM ε Machine ConsoleEvent) := by
  refine h.bind (h.apart .poll) fun event => ?_
  cases event with
  | quiet => exact h.pure _
  | key b => exact h.bind (h.note _) fun _ => h.pure _
  | escape => exact h.pure _

end

/-! ## Unprivileged operations -/

theorem addressed : Addressed P P where
  pure := h.pure
  throw := h.throw
  bind := h.bind
  adapt fn _ := h.adapt fn
  getRegs := h.getRegs
  modifyRegs hfn := h.modifyRegs fun r => by
    obtain ⟨a, b, c, f, g, sp, pc, hr⟩ := hfn r
    rw [hr]
  current ipc ir := h.apart (.current ipc ir)
  reading := h.reading
  reading₂ := h.reading₂
  still hx := hx
  before := h.bind
  adaptStored fn _ := h.adapt fn
  writing := h.writing
  copying := h.copying
  after hfn hx := h.bind hx fun _ => h.modifyRegs fun r => by
    obtain ⟨a, b, c, f, g, sp, pc, hr⟩ := hfn r
    rw [hr]
  counted n hx := h.bind hx fun _ => h.apart (.countBlock n.toNat)

/-! ## Entering and leaving the kernel -/

theorem pushKernel (v : UInt32) : P (pushKernel v) := h.adapt _ (h.addressed.push v)

theorem popKernel : P popKernel := h.adapt _ h.addressed.pop

theorem enterKernel (cause : Fault) : P (enterKernel cause) := by
  refine h.bind h.getRegs fun r => ?_
  split
  · exact h.bind (h.modifyRegs fun _ => rfl) fun _ => h.pure _
  · exact h.pure _

theorem deliver (cause : Fault) : P (deliver cause) := by
  refine h.bind (h.enterKernel _) fun code => h.bind (h.modifyRegs fun _ => rfl) fun _ => ?_
  refine h.bind h.getRegs fun r => h.bind (h.pushKernel _) fun _ => h.bind (h.pushKernel _) fun _ => ?_
  exact h.bind h.getRegs fun r => h.bind (h.setPc _) fun _ => h.invalidatePath

theorem raiseException (hback : LooksBack P) (cause : Fault) : P (raiseException cause) := by
  refine h.bind h.getRegs fun r => ?_
  split
  · refine @hback _ _ (fun ipc => do Machine.modifyRegs (·.blame cause ipc); Machine.deliver cause)
      fun ipc => ?_
    exact h.bind (h.modifyRegs fun _ => rfl) fun _ => h.deliver _
  · exact h.bind (h.modifyRegs fun _ => rfl) fun _ => h.throw _

theorem raiseInterrupt (cause : Fault) : P (raiseInterrupt cause) :=
  h.bind (h.modifyRegs fun _ => rfl) fun _ => h.bind (h.deliver _) fun _ => h.note _

theorem postInterrupt (cause : Fault) : P (postInterrupt cause) := by
  refine h.bind h.getRegs fun r => ?_
  split
  · exact h.bind (h.raiseInterrupt _) fun _ => h.pure _
  · exact h.bind (h.modifyRegs fun _ => rfl) fun _ => h.pure _

theorem deliverPending : P deliverPending := by
  refine h.bind h.getRegs fun r => ?_
  split
  · exact h.bind (h.modifyRegs fun _ => rfl) fun _ => h.bind (h.raiseInterrupt _) fun _ => h.pure _
  · exact h.pure _

theorem enableInterrupts : P enableInterrupts := by
  refine h.bind h.deliverPending fun delivered => ?_
  split
  · exact h.pure _
  · exact h.modifyRegs fun _ => rfl

theorem returnFromInterrupt : P returnFromInterrupt := by
  refine h.bind h.popKernel fun code => h.bind h.popKernel fun pc => ?_
  refine h.bind (h.modifyRegs fun _ => ?_) fun _ => h.bind h.invalidatePath fun _ => ?_
  · rw [Registers.resume]
    split <;> rfl
  refine h.bind h.getRegs fun r => ?_
  split
  · exact h.pure _
  · exact h.enableInterrupts

/-! ## Instructions -/

theorem idle (hback : LooksBack P) : P idle := by
  refine h.look (fun m m' ht => ?_) fun m => h.bind (h.require _ _) fun _ => ?_
  · rw [ht.regs, ht.timer, ht.bridge.isOpen]
  refine h.bind (h.require _ _) fun _ => h.bind h.pollConsole fun event => ?_
  cases event with
  | escape => exact h.pure _
  | key b => exact h.bind (h.liftDelivery (h.raiseInterrupt _)) fun _ => h.pure _
  | quiet =>
    refine h.bind (h.modifyRegs fun _ => rfl) fun _ => h.bind (h.tickTimer _) fun fired => ?_
    cases fired with
    | true => exact h.bind (h.liftDelivery (h.raiseInterrupt _)) fun _ => h.pure _
    | false =>
      refine @hback _ _ (fun ipc => do Machine.setPc ipc; return Flow.go) fun ipc => ?_
      exact h.bind (h.setPc _) fun _ => h.pure _

theorem perform (op : Operation) (i : Instruction) : P (perform op i) := by
  cases hop : op.privileged with
  | false => exact h.addressed.performAny hop i
  | true =>
    -- two of them change the space, which other code may not
    by_cases hdir : op = .setDirectory
    · rw [hdir]
      exact h.setDirectory i
    by_cases hpaging : op = .setPaging
    · rw [hpaging]
      exact h.setPaging i
    refine h.bind h.getRegs fun r => ?_
    cases op with
    | idle => exact h.pure _
    | disableInterrupts => exact h.modifyRegs fun _ => rfl
    | enableInterrupts => exact h.liftDelivery h.enableInterrupts
    | returnFromInterrupt => exact h.liftDelivery h.returnFromInterrupt
    | setVector => exact h.modifyRegs fun _ => rfl
    | setDirectory => exact absurd rfl hdir
    | setPaging => exact absurd rfl hpaging
    | setTimer =>
      dsimp only
      split
      · exact h.apart (.setTimeout _)
      · exact h.pure _
    | faultAddress => exact h.setInt ..
    | userStack => exact h.setInt ..
    | setUserStack => exact h.modifyRegs fun _ => rfl
    | memorySize => exact h.size fun _ => h.setInt ..
    | readKey =>
      refine h.bind (h.apart .takeKey) fun key => ?_
      cases key with
      | some k => exact h.bind (h.note _) fun _ => h.setInt ..
      | none => exact h.setInt ..
    | writeByte => exact h.bind (h.apart (.put _ _)) fun _ => h.setInt ..
    | network op => exact h.liftGuarded (h.addressed.network h.sockets op)
    | _ => cases hop

theorem execute (hback : LooksBack P) (op : Operation) (i : Instruction) : P (execute op i) := by
  unfold Machine.execute
  split
  · exact h.bind h.getRegs fun _ => h.pure _
  · exact h.idle hback
  · exact h.bind (h.perform ..) fun _ => h.pure _

theorem executeNext (hback : LooksBack P) : P executeNext :=
  h.bind h.addressed.fetch fun _ => h.bind (h.addressed.decode _) fun _ => h.execute hback ..

/-! ## Steps -/

theorem postAndEnd (cause : Fault) : P (postAndEnd cause) :=
  h.bind (h.postInterrupt _) fun _ => h.pure _

theorem pollKeyboard : P pollKeyboard := by
  refine h.bind h.getRegs fun r => ?_
  split
  · refine h.bind h.pollConsole fun event => ?_
    cases event with
    | escape => exact h.pure _
    | key b => exact h.postAndEnd _
    | quiet => exact h.pure _
  · exact h.pure _

theorem pollTimer : P pollTimer := by
  refine h.bind (h.tickTimer _) fun fired => ?_
  split
  · exact h.postAndEnd _
  · exact h.pure _

theorem pollDevices : P pollDevices := by
  refine h.bind h.pollKeyboard fun ended => ?_
  cases ended with
  | some flow => exact h.pure _
  | none => exact h.pollTimer

theorem executeGuarded (hback : LooksBack P) : P executeGuarded := by
  rw [executeGuarded_eq]
  refine h.handle (h.executeNext hback) fun stop => ?_
  cases stop with
  | fatal reason => exact h.throw _
  | fault cause => exact h.bind (h.raiseException hback _) fun _ => h.pure _

theorem tick : P tick := by
  refine h.bind (h.modifyRegs fun _ => rfl) fun _ => h.bind h.getRegs fun r => ?_
  split
  · exact h.pollDevices
  · exact h.pure _

theorem step (hback : LooksBack P) : P step := by
  rw [step_eq]
  refine h.bind h.tick fun ended => ?_
  cases ended with
  | some flow => exact h.pure _
  | none => exact h.executeGuarded hback

theorem runFrom (hback : LooksBack P) (start budget : UInt64) (fuel : Nat) :
    P (runFrom start budget fuel) := by
  induction fuel with
  | zero => exact h.pure _
  | succ fuel ih =>
    refine h.bind h.getRegs fun r => ?_
    split
    · refine h.bind (h.step hback) fun flow => ?_
      cases flow with
      | go => exact ih
      | halt code => exact h.pure _
      | escape => exact h.pure _
    · exact h.pure _

theorem run (hback : LooksBack P) (budget : UInt64) : P (run budget) :=
  h.bind h.getRegs fun _ => h.runFrom hback ..

end Parts

/-! ## Where the accesses are taken apart -/

/-- The parts of a step, down to single accesses. -/
structure Pieces (P : ∀ {ε α : Type}, EStateM ε Machine α → Prop) : Prop where
  pure {ε α : Type} (a : α) : P (pure a : EStateM ε Machine α)
  throw {ε α : Type} (e : ε) : P (throw e : EStateM ε Machine α)
  bind {ε α β : Type} {x : EStateM ε Machine α} {f : α → EStateM ε Machine β} :
    P x → (∀ a, P (f a)) → P (x >>= f)
  handle {ε ε' α : Type} {x : EStateM ε Machine α} {f : ε → EStateM ε' Machine α} :
    P x → (∀ e, P (f e)) → P (handle x f)
  /-- Code may look at what twins have in common, and at memory apart from its caches. -/
  look {ε α : Type} {f : Machine → EStateM ε Machine α} :
    (∀ m m', Twin m m' → m'.memory.ram = m.memory.ram → f m' = f m) → (∀ m, P (f m)) →
      P (get >>= f)
  apart {ε α : Type} {fn : Machine → α × Machine} :
    Apart fn → P (modifyGet fn : EStateM ε Machine α)
  sockets {α : Type} {fn : Sockets → α × Sockets} :
    Sockets.Steady fn → P (onSockets fn : Guarded α)
  resolve (slot : Slot) (vaddr : UInt32) (access : Access) : P (resolve slot vaddr access)
  ram {ε : Type} {fn : Ram → Ram} : (∀ r, (fn r).bytes.size = r.bytes.size) →
    P (modifyRam fn : EStateM ε Machine Unit)
  setDirectory (i : Instruction) : P (perform .setDirectory i)
  setPaging (i : Instruction) : P (perform .setPaging i)
  invalidatePath {ε : Type} : P (modifyMemory Memory.invalidatePath : EStateM ε Machine Unit)

namespace Pieces

variable {P : ∀ {ε α : Type}, EStateM ε Machine α → Prop} (h : Pieces P)

include h

theorem accesses : Accesses P where
  pure := h.pure
  throw := h.throw
  bind := h.bind
  getRam := h.look (fun _ _ _ hram => by rw [hram]) fun _ => h.pure _
  resolve := h.resolve
  ram := h.ram

theorem parts : Parts P where
  pure := h.pure
  throw := h.throw
  bind := h.bind
  handle := h.handle
  look hf := h.look fun m m' ht _ => hf m m' ht
  apart := h.apart
  sockets := h.sockets
  size hf := h.bind h.accesses.getRam fun _ => hf _
  reading _ _ := h.accesses.reading ..
  reading₂ _ _ _ := h.accesses.reading₂ ..
  writing _ := h.accesses.writing ..
  copying _ _ := h.accesses.copying ..
  setDirectory := h.setDirectory
  setPaging := h.setPaging
  invalidatePath := h.invalidatePath

end Pieces

end Machine

end PagedMachine
