import PagedMachine.Proofs.Parts

/-!
# What code does, event by event

`Traced x m events` says that code `x`, run from `m`, makes these accesses, writes and calls of the
host. It follows the code part by part. All code of a step has such a trace (`exists_traced_step`), and
so has any number of steps (`exists_onward`).
-/

set_option autoImplicit false

namespace PagedMachine

/-- What happens to memory, to the caches and to the host. -/
inductive MachineEvent
  /-- An address of a page was resolved or faulted. -/
  | accessed (page : UInt32) (granted : Bool)
  /-- Bytes were written, other than by a walk. -/
  | written (space : AddressSpace) (before after : Ram)
  /-- The caches were emptied because the guest or the host asked for it. -/
  | emptied
  /-- The host was called. -/
  | asked (call : HostCall) (reply : HostReply)

/-- The calls of the host among events. -/
def calls : List MachineEvent → HostLog
  | [] => []
  | .asked call reply :: events => (call, reply) :: calls events
  | _ :: events => calls events

theorem calls_append (events' events : List MachineEvent) :
    calls (events' ++ events) = calls events' ++ calls events := by
  induction events' with
  | nil => rfl
  | cons event events' ih => cases event <;> simp [calls, ih]

theorem calls_asked (asked : HostLog) :
    calls (asked.map fun call => .asked call.1 call.2) = asked := by
  induction asked with
  | nil => rfl
  | cons call asked ih => simp [calls, ih]

namespace Machine

/-- The space that an instruction goes over to, unless it faults. -/
def newSpace? (op : Operation) (r : Registers) (ram : Ram) : Option AddressSpace :=
  match op with
  | .setDirectory =>
    if (pageBase r.a).toNat + pageSize.toNat ≤ ram.size.toNat then
      some { r.space with directory := some (pageBase r.a) }
    else none
  | .setPaging =>
    if r.a = 0 || r.space.directory.isSome then some { r.space with paging := r.a ≠ 0 } else none
  | _ => none

/-- The instructions that change the space empty the caches, unless they fault. -/
theorem perform_newSpace {op : Operation} (h : op = .setDirectory ∨ op = .setPaging) (i : Instruction)
    (m : Machine) :
    perform op i m =
      match newSpace? op m.regs m.memory.ram with
      | some space =>
        .ok () { m with regs := { m.regs with space }, memory := m.memory.flush }
      | none => .error (.fault (.badPhysicalAddress none)) m := by
  rcases h with rfl | rfl
  · rw [perform_setDirectory, newSpace?]
    split <;> rfl
  · rw [perform_setPaging, newSpace?]
    split <;> rfl

/-- The events of code that is run from a machine, latest first. -/
inductive Traced : {ε α : Type} → EStateM ε Machine α → Machine → List MachineEvent → Prop
  | pure {ε α : Type} (a : α) (m : Machine) : Traced (pure a : EStateM ε Machine α) m []
  | throw {ε α : Type} (e : ε) (m : Machine) : Traced (throw e : EStateM ε Machine α) m []
  | bind {ε α β : Type} {x : EStateM ε Machine α} {f : α → EStateM ε Machine β} {m m' : Machine}
    {a : α} {events events' : List MachineEvent} : Traced x m events → x m = .ok a m' →
      Traced (f a) m' events' → Traced (x >>= f) m (events' ++ events)
  | stop {ε α β : Type} {x : EStateM ε Machine α} {f : α → EStateM ε Machine β} {m m' : Machine}
    {e : ε} {events : List MachineEvent} : Traced x m events → x m = .error e m' →
      Traced (x >>= f) m events
  | handled {ε ε' α : Type} {x : EStateM ε Machine α} {f : ε → EStateM ε' Machine α} {m m' : Machine}
    {e : ε} {events events' : List MachineEvent} : Traced x m events → x m = .error e m' →
      Traced (f e) m' events' → Traced (handle x f) m (events' ++ events)
  | unhandled {ε ε' α : Type} {x : EStateM ε Machine α} {f : ε → EStateM ε' Machine α}
    {m m' : Machine} {a : α} {events : List MachineEvent} : Traced x m events → x m = .ok a m' →
      Traced (handle x f) m events
  /-- Looking at the machine, apart from its caches, is no event. -/
  | look {ε α : Type} {f : Machine → EStateM ε Machine α} {m : Machine}
    {events : List MachineEvent} :
      (∀ m m', Twin m m' → m'.memory.ram = m.memory.ram → m'.ipc = m.ipc → f m' = f m) →
        Traced (f m) m events → Traced (get >>= f) m events
  | apart {ε α : Type} {fn : Machine → α × Machine} (m : Machine) : Apart fn →
      Traced (modifyGet fn : EStateM ε Machine α) m []
  | sockets {α : Type} {fn : Sockets → α × Sockets} {m : Machine} {asked : HostLog} :
      Sockets.Steady fn → (fn m.bridge.sockets).2.calls = asked ++ m.bridge.sockets.calls →
        Traced (onSockets fn : Guarded α) m (asked.map fun call => .asked call.1 call.2)
  | access (slot : Slot) (vaddr : UInt32) (access : Access) (m : Machine) :
      Traced (resolve slot vaddr access) m
        [.accessed (pageNumber vaddr) (answerOf (resolve slot vaddr access m)).isOk]
  | write {ε : Type} {fn : Ram → Ram} (m : Machine) : (∀ r, (fn r).bytes.size = r.bytes.size) →
      Traced (modifyRam fn : EStateM ε Machine Unit) m
        [.written m.regs.space m.memory.ram (fn m.memory.ram)]
  | enter {op : Operation} (i : Instruction) (m : Machine) :
      op = .setDirectory ∨ op = .setPaging → Traced (perform op i) m
        (if (newSpace? op m.regs m.memory.ram).isSome then [.emptied] else [])
  | invalidatePath {ε : Type} (m : Machine) :
      Traced (modifyMemory Memory.invalidatePath : EStateM ε Machine Unit) m []

/-! ## All code of a step is traced -/

theorem pieces_traced : Pieces fun x => ∀ m, ∃ events, Traced x m events where
  pure a m := ⟨[], .pure a m⟩
  throw e m := ⟨[], .throw e m⟩
  bind {_ _ _ x _} hx hf m := by
    obtain ⟨events, h⟩ := hx m
    cases hr : x m with
    | ok a m' =>
      obtain ⟨events', h'⟩ := hf a m'
      exact ⟨_, h.bind hr h'⟩
    | error e m' => exact ⟨_, h.stop hr⟩
  handle {_ _ _ x _} hx hf m := by
    obtain ⟨events, h⟩ := hx m
    cases hr : x m with
    | ok a m' => exact ⟨_, h.unhandled hr⟩
    | error e m' =>
      obtain ⟨events', h'⟩ := hf e m'
      exact ⟨_, h.handled hr h'⟩
  look hf hP m := by
    obtain ⟨events, h⟩ := hP m m
    exact ⟨events, .look (fun m m' ht hram _ => hf m m' ht hram) h⟩
  apart hfn m := ⟨[], .apart m hfn⟩
  sockets hfn m := by
    obtain ⟨asked, hcalls, -⟩ := hfn m.bridge.sockets
    exact ⟨_, .sockets hfn hcalls⟩
  resolve slot vaddr access m := ⟨_, .access slot vaddr access m⟩
  ram hfn m := ⟨_, .write m hfn⟩
  setDirectory i m := ⟨_, .enter i m (.inl rfl)⟩
  setPaging i m := ⟨_, .enter i m (.inr rfl)⟩
  invalidatePath m := ⟨_, .invalidatePath m⟩

theorem looksBack_traced : LooksBack fun x => ∀ m, ∃ events, Traced x m events := fun hf m => by
  obtain ⟨events, h⟩ := hf m.ipc m
  exact ⟨events, .look (fun m m' _ _ hipc => by rw [hipc]) h⟩

theorem exists_traced_step (m : Machine) : ∃ events, Traced step m events :=
  pieces_traced.parts.step looksBack_traced m

/-! ## Where a step begins -/

section
variable {ε α β : Type} {x : EStateM ε Machine α} {f : α → EStateM ε Machine β} {m m' : Machine} {a : α}
  {events : List MachineEvent}

/-- Nothing happens before. -/
theorem Traced.then (h : Traced x m []) (hr : x m = .ok a m') (h' : Traced (f a) m' events) :
    Traced (x >>= f) m events := by
  simpa using h.bind hr h'

/-- Nothing happens afterwards. -/
theorem Traced.last (h : Traced x m events) (hr : x m = .ok a m') (h' : Traced (f a) m' []) :
    Traced (x >>= f) m events :=
  h.bind hr h'

theorem traced_getRegs (m : Machine) : Traced (getRegs : EStateM ε Machine Registers) m [] :=
  .look (fun _ _ ht _ _ => by rw [ht.regs]) (.pure m.regs m)

theorem traced_modifyRegs {fn : Registers → Registers} (h : ∀ r, (fn r).space = r.space)
    (m : Machine) : Traced (modifyRegs fn : EStateM ε Machine Unit) m [] :=
  .apart m (.registers h)

theorem traced_setPc (pc : UInt32) (m : Machine) :
    Traced (setPc pc : EStateM ε Machine Unit) m [] := by
  refine traced_modifyRegs ?_ m
  exact fun _ => rfl

theorem traced_require {ok : Bool} (h : ok = true) (e : ε) (m : Machine) :
    Traced (require ok e : EStateM ε Machine Unit) m [] ∧ require ok e m = .ok () m := by
  subst h
  exact ⟨.pure () m, rfl⟩

end

theorem traced_fetch {m : Machine} {pa : UInt32} {memory : Memory} (halign : m.regs.pc &&& 3 = 0)
    (hr : Memory.resolve m.regs.space .code m.regs.pc .fetch m.regs.user m.memory = .ok pa memory) :
    Traced fetch m [.accessed (pageNumber m.regs.pc) true] := by
  obtain ⟨hrequire, haligned⟩ :=
    traced_require (decide_eq_true halign) (Stop.fatal (.misalignedPc m.regs.pc)) m
  let m₁ : Machine := { m with ipc := m.regs.pc }
  have hresolve : resolve .code m.regs.pc .fetch m₁ = .ok pa { m₁ with memory } := by
    rw [resolve_apply]
    simp only [m₁, hr]
  have haccess : Traced (liftM (resolve .code m.regs.pc .fetch) : Exec UInt32) m₁
      [.accessed (pageNumber m.regs.pc) true] := by
    have h := Traced.access .code m.regs.pc .fetch m₁
    rw [hresolve] at h
    show Traced (EStateM.adaptExcept Stop.fault _) _ _
    rw [adaptExcept_eq_handle]
    exact h.unhandled hresolve
  refine (traced_getRegs m).then rfl (hrequire.then haligned ?_)
  refine (Traced.apart m (.current (fun _ => m.regs.pc) id)).then rfl ?_
  refine haccess.last (by rw [liftGuarded_apply, hresolve]) ?_
  refine Traced.then (.look (fun _ _ _ hram _ => by rw [hram]) (.pure memory.ram _)) rfl ?_
  refine (Traced.apart _ (.current id fun _ => ⟨memory.ram.read32 pa⟩)).then rfl ?_
  exact Traced.then (traced_setPc _ _) rfl (.pure _ _)

theorem traced_decode {i : Instruction} {op : Operation} {m : Machine} (hop : i.operation? = some op)
    (hmode : m.regs.user = true → op.privileged = false) :
    Traced (decode i) m [] ∧ decode i m = .ok op m := by
  have hallowed : (!(m.regs.user && op.privileged)) = true := by
    cases hu : m.regs.user with
    | false => rfl
    | true => rw [hmode hu, Bool.and_false, Bool.not_false]
  obtain ⟨hrequire, hpassed⟩ := traced_require hallowed (Stop.fault .privilegeViolation) m
  refine ⟨?_, (decode_apply hop m).trans (if_neg (by simpa using hmode))⟩
  unfold decode
  rw [hop]
  exact (traced_getRegs m).then rfl (hrequire.then hpassed (.pure op m))

/-- A step in which no device is polled accesses the page of its instruction first. -/
theorem traced_step_of_resolved {m m' : Machine} {flow : Flow} {pa word : UInt32} {op : Operation}
    {memory : Memory} {events : List MachineEvent}
    (hdue : (m.regs.cycle + 1) % pollInterval.toUInt64 ≠ 0) (halign : m.regs.pc &&& 3 = 0)
    (hr : Memory.resolve m.regs.space .code m.regs.pc .fetch m.regs.user m.memory = .ok pa memory)
    (hword : memory.ram.read32 pa = word) (hop : (Instruction.mk word).operation? = some op)
    (hmode : m.regs.user = true → op.privileged = false)
    (hexecute : execute op ⟨word⟩ { m with
      regs := { m.regs with pc := m.regs.pc + 4, cycle := m.regs.cycle + 1 }, memory
      ipc := m.regs.pc, ir := ⟨word⟩ } = .ok flow m')
    (htraced : Traced (execute op ⟨word⟩) { m with
      regs := { m.regs with pc := m.regs.pc + 4, cycle := m.regs.cycle + 1 }, memory
      ipc := m.regs.pc, ir := ⟨word⟩ } events) :
    Traced step m (events ++ [.accessed (pageNumber m.regs.pc) true]) := by
  subst hword
  have htick : Traced tick m [] := by
    rw [tick]
    refine (traced_modifyRegs ?_ m).then rfl ((traced_getRegs _).then rfl ?_)
    · exact fun _ => rfl
    · rw [if_neg hdue]
      exact .pure _ _
  have hfetch := fetch_of_resolved (m := m.counted) halign hr
  have hnext := (executeNext_of_fetch hfetch hop hmode).trans hexecute
  have hdecode := traced_decode hop (m := (stateOf (fetch m.counted))) (by rw [hfetch]; exact hmode)
  rw [hfetch] at hdecode
  rw [step_eq]
  refine htick.then (tick_of_not_due hdue) ?_
  dsimp only
  rw [executeGuarded_eq]
  refine .unhandled ((@traced_fetch m.counted _ _ halign hr).bind hfetch ?_) hnext
  exact hdecode.1.then hdecode.2 htraced

/-! ## Steps -/

/-- The machine after some steps. -/
def after (m : Machine) : Nat → Machine
  | 0 => m
  | n + 1 => stateOf (step (m.after n))

/-- What these steps answered, latest first. -/
def answers (m : Machine) : Nat → List (Except FatalReason Flow)
  | 0 => []
  | n + 1 => answerOf (step (m.after n)) :: m.answers n

/-- The events of some steps, latest first. -/
inductive Onward (m : Machine) : Nat → List MachineEvent → Prop
  | none : Onward m 0 []
  | step {n : Nat} {events events' : List MachineEvent} : Onward m n events →
      Traced step (m.after n) events' → Onward m (n + 1) (events' ++ events)

theorem exists_onward (m : Machine) (n : Nat) : ∃ events, m.Onward n events := by
  induction n with
  | zero => exact ⟨[], .none⟩
  | succ n ih =>
    obtain ⟨events, h⟩ := ih
    obtain ⟨events', h'⟩ := exists_traced_step (m.after n)
    exact ⟨_, h.step h'⟩

end Machine

end PagedMachine
