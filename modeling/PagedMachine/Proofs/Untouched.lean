import PagedMachine.Block.Lemmas
import PagedMachine.Proofs.Visits
import PagedMachine.Trap.Lemmas

/-!
# Where instructions stop

An operation resolves its addresses before it changes anything. So where it stops, the machine is
`Untouched`: it is as before, but for what walks did to memory (`precise_perform`). Code is `Quiet` if
all it does is to resolve addresses, and `Precise` if that is all it has done where it stops, as quiet
code followed by code that does not stop. A block operation stops in this way after some whole chunks
(`precise_block`).
-/

set_option autoImplicit false

namespace PagedMachine

/-- Whether an instruction stopped with a fault of the guest. -/
def Stop.IsFault (stop : Stop) : Prop := ∃ cause, stop = .fault cause

namespace Machine

/-- `m'` is `m` but for the walks that were needed to resolve addresses. -/
def Untouched (m m' : Machine) : Prop :=
  ∃ memory, m.memory.Consulted m.regs.space m.regs.user memory ∧ m' = { m with memory }

theorem Untouched.refl (m : Machine) : m.Untouched m := ⟨m.memory, .refl .., rfl⟩

theorem Untouched.trans {m m' m'' : Machine} (h : m.Untouched m') (h' : m'.Untouched m'') :
    m.Untouched m'' := by
  obtain ⟨memory, hc, rfl⟩ := h
  obtain ⟨memory', hc', rfl⟩ := h'
  exact ⟨memory', hc.trans hc', rfl⟩

/-! ## Code that stops in time -/

section
variable {ε : Type} (stops : ε → Prop) {α : Type}

/-- Code that only resolves addresses, and stops with none but these errors. -/
structure Quiet (x : EStateM ε Machine α) : Prop where
  untouched : ∀ m : Machine, m.Untouched (stateOf (x m))
  stops : ∀ m e m', x m = .error e m' → stops e

/-- Code that stops with none but these errors, and has only resolved addresses where it stops. -/
def Precise (x : EStateM ε Machine α) : Prop :=
  ∀ (m : Machine) e m', x m = .error e m' → stops e ∧ m.Untouched m'

/-- Code that does not stop. -/
def Sure (x : EStateM ε Machine α) : Prop := ∀ m e m', x m ≠ .error e m'

end

section
variable {ε : Type} {stops : ε → Prop} {α β : Type} {x : EStateM ε Machine α}
  {f : α → EStateM ε Machine β}

theorem Sure.of_ok {a : Machine → α} {fn : Machine → Machine} (h : ∀ m, x m = .ok (a m) (fn m)) :
    Sure x := by
  intro m e m' he
  rw [h] at he
  cases he

theorem Sure.modifyGet (fn : Machine → α × Machine) :
    Sure (modifyGet fn : EStateM ε Machine α) := .of_ok fun m => modifyGet_apply fn m

theorem Sure.modify (fn : Machine → Machine) : Sure (modify fn : EStateM ε Machine PUnit) :=
  .modifyGet _

theorem Sure.pure (a : α) : Sure (pure a : EStateM ε Machine α) := .of_ok (pure_apply a)

theorem Sure.getRegs : Sure (getRegs : EStateM ε Machine Registers) := .of_ok getRegs_apply

theorem Sure.getRam : Sure (getRam : EStateM ε Machine Ram) := .of_ok getRam_apply

theorem Sure.bind (hx : Sure x) (hf : ∀ a, Sure (f a)) : Sure (x >>= f) := by
  intro m e m' h
  rcases bind_eq_error_iff.1 h with h | ⟨a, m₁, -, h⟩
  · exact hx m e m' h
  · exact hf a m₁ e m' h

theorem Sure.precise (hx : Sure x) : Precise stops x := fun m e m' h => absurd h (hx m e m')

theorem Quiet.precise (hx : Quiet stops x) : Precise stops x := by
  intro m e m' h
  have hu := hx.untouched m
  rw [h] at hu
  exact ⟨hx.stops m e m' h, hu⟩

theorem Quiet.pure (a : α) : Quiet stops (pure a : EStateM ε Machine α) :=
  ⟨fun m => .refl m, fun m e m' h => absurd h (Sure.pure a m e m')⟩

theorem Quiet.throw {e : ε} (he : stops e) : Quiet stops (throw e : EStateM ε Machine α) := by
  refine ⟨fun m => .refl m, fun m e' m' h => ?_⟩
  rw [throw_apply] at h
  obtain ⟨rfl, -⟩ := EStateM.Result.error.inj h
  exact he

theorem Quiet.require {ok : Bool} {e : ε} (he : stops e) :
    Quiet stops (require ok e : EStateM ε Machine Unit) := by
  cases ok with
  | true => exact .pure ()
  | false => exact .throw he

theorem Quiet.getRegs : Quiet stops (getRegs : EStateM ε Machine Registers) :=
  ⟨fun m => .refl m, fun m e m' h => absurd h (Sure.getRegs m e m')⟩

theorem Quiet.getRam : Quiet stops (getRam : EStateM ε Machine Ram) :=
  ⟨fun m => .refl m, fun m e m' h => absurd h (Sure.getRam m e m')⟩

theorem Quiet.bind (hx : Quiet stops x) (hf : ∀ a, Quiet stops (f a)) : Quiet stops (x >>= f) := by
  refine ⟨fun m => ?_, fun m e m' h => ?_⟩
  · have hu := hx.untouched m
    rw [bind_apply]
    cases hr : x m with
    | ok a m₁ =>
      rw [hr] at hu
      exact hu.trans ((hf a).untouched m₁)
    | error e m₁ => rwa [hr] at hu
  · rcases bind_eq_error_iff.1 h with h | ⟨a, m₁, -, h⟩
    · exact hx.stops m e m' h
    · exact (hf a).stops m₁ e m' h

/-- What was only resolved so far may stop later. -/
theorem Quiet.bind_precise (hx : Quiet stops x) (hf : ∀ a, Precise stops (f a)) :
    Precise stops (x >>= f) := by
  intro m e m' h
  rcases bind_eq_error_iff.1 h with h | ⟨a, m₁, hr, h⟩
  · exact hx.precise m e m' h
  · have hu := hx.untouched m
    rw [hr] at hu
    obtain ⟨he, hu'⟩ := hf a m₁ e m' h
    exact ⟨he, hu.trans hu'⟩

/-- What changes the machine comes after all that may stop. -/
theorem Precise.bind_sure (hx : Precise stops x) (hf : ∀ a, Sure (f a)) :
    Precise stops (x >>= f) := by
  intro m e m' h
  rcases bind_eq_error_iff.1 h with h | ⟨a, m₁, -, h⟩
  · exact hx m e m' h
  · exact absurd h (hf a m₁ e m')

theorem Quiet.bind_sure (hx : Quiet stops x) (hf : ∀ a, Sure (f a)) : Precise stops (x >>= f) :=
  hx.precise.bind_sure hf

end

section
variable {α : Type} {x : Guarded α}

theorem Quiet.liftGuarded (hx : Quiet (fun _ => True) x) :
    Quiet Stop.IsFault (liftM x : Exec α) := by
  refine ⟨fun m => ?_, fun m e m' h => ?_⟩
  · have hu := hx.untouched m
    rw [liftGuarded_apply]
    cases hr : x m <;> rwa [hr] at hu
  · obtain ⟨fault, rfl, -⟩ := liftGuarded_eq_error h
    exact ⟨fault, rfl⟩

theorem Precise.liftGuarded (hx : Precise (fun _ => True) x) :
    Precise Stop.IsFault (liftM x : Exec α) := by
  intro m e m' h
  obtain ⟨fault, rfl, hfault⟩ := liftGuarded_eq_error h
  exact ⟨⟨fault, rfl⟩, (hx m fault m' hfault).2⟩

end

/-! ## Registers -/

section
variable {ε : Type}

theorem sure_setInt (dst : IntReg) (v : UInt32) : Sure (setInt dst v : EStateM ε Machine Unit) :=
  .modify _

theorem sure_setFloat (dst : FloatReg) (v : Double) :
    Sure (setFloat dst v : EStateM ε Machine Unit) := .modify _

theorem sure_setPc (pc : UInt32) : Sure (setPc pc : EStateM ε Machine Unit) := .modify _

theorem sure_setSp (sp : UInt32) : Sure (setSp sp : EStateM ε Machine Unit) := .modify _

end

/-! ## Loads, stores and the stack -/

/-- What resolves addresses in the space and the mode of the machine leaves it untouched. -/
theorem untouched_onMemory {α : Type} {x : EStateM Fault Memory α} {m : Machine}
    (h : m.memory.Consulted m.regs.space m.regs.user (stateOf (x m.memory))) :
    m.Untouched (stateOf (onMemory x m)) := by
  rw [onMemory_apply]
  cases hr : x m.memory with
  | ok a memory => exact ⟨memory, by rwa [hr] at h, rfl⟩
  | error fault memory => exact ⟨memory, by rwa [hr] at h, rfl⟩

theorem quiet_resolve (slot : Slot) (vaddr : UInt32) (access : Access) :
    Quiet (fun _ => True) (resolve slot vaddr access) :=
  ⟨fun m => untouched_onMemory (Memory.consulted_resolve _ slot vaddr access _ m.memory),
    fun _ _ _ _ => trivial⟩

theorem quiet_loadInt (slot : Slot) (vaddr : UInt32) (w : LoadWidth) :
    Quiet (fun _ => True) (loadInt slot vaddr w) :=
  (quiet_resolve ..).bind fun _ => Quiet.getRam.bind fun _ => .pure _

theorem quiet_loadFloat (slot : Slot) (vaddr : UInt32) (w : FloatWidth) :
    Quiet (fun _ => True) (loadFloat slot vaddr w) :=
  (quiet_resolve ..).bind fun _ => Quiet.getRam.bind fun _ => .pure _

theorem quiet_readSlot (vaddr : UInt32) : Quiet (fun _ => True) (readSlot vaddr) :=
  (quiet_resolve ..).bind fun _ => Quiet.getRam.bind fun _ => .pure _

theorem precise_storeInt (slot : Slot) (vaddr : UInt32) (w : StoreWidth) (v : UInt32) :
    Precise (fun _ => True) (storeInt slot vaddr w v) :=
  (quiet_resolve ..).bind_sure fun _ => .modify _

theorem precise_storeFloat (slot : Slot) (vaddr : UInt32) (w : FloatWidth) (v : Double) :
    Precise (fun _ => True) (storeFloat slot vaddr w v) :=
  (quiet_resolve ..).bind_sure fun _ => .modify _

theorem precise_push (v : UInt32) : Precise (fun _ => True) (push v) := by
  refine Quiet.getRegs.bind_precise fun r => (quiet_resolve ..).bind_sure fun pa => ?_
  exact (Sure.modify _).bind fun _ => sure_setSp _

theorem precise_pushFloat (v : Double) : Precise (fun _ => True) (pushFloat v) := by
  refine Quiet.getRegs.bind_precise fun r => (quiet_resolve ..).bind_sure fun pa => ?_
  exact (Sure.modify _).bind fun _ => sure_setSp _

theorem precise_pop : Precise (fun _ => True) pop := by
  refine Quiet.getRegs.bind_precise fun r => (quiet_readSlot _).bind_sure fun v => ?_
  exact (sure_setSp _).bind fun _ => .pure _

theorem precise_popFloat : Precise (fun _ => True) popFloat := by
  refine Quiet.getRegs.bind_precise fun r => (quiet_resolve ..).bind_sure fun pa => ?_
  exact (sure_setSp _).bind fun _ => Sure.getRam.bind fun _ => .pure _

/-! ## Block operations -/

theorem quiet_operands (op : BlockOp) (r : Registers) :
    Quiet (fun _ => True) (operands op r) := by
  cases op with
  | copy | compare =>
    exact (quiet_resolve ..).bind fun _ => (quiet_resolve ..).bind fun _ => .pure _
  | scan | fill => exact (quiet_resolve ..).bind fun _ => .pure _

theorem precise_chunk (op : BlockOp) : Precise (fun _ => True) (chunk op) := by
  refine Quiet.getRegs.bind_precise fun r => (quiet_operands op r).bind_precise fun pas => ?_
  refine Quiet.getRam.bind_precise fun ram => (Quiet.require trivial).bind_sure fun _ => ?_
  exact .modifyGet _

/-- The machines between two chunks of a block operation; other operations have but one. -/
inductive Commits (op : Operation) : Machine → Machine → Prop
  | refl (m : Machine) : Commits op m m
  | chunk {b : BlockOp} {m m₁ m' : Machine} : op = .block b → m.regs.c ≠ 0 →
      Machine.chunk b m = .ok false m₁ → Commits op m₁ m' → Commits op m m'

/-- A block operation stops with some whole chunks done and the next one untouched. -/
theorem precise_block {op : BlockOp} {m m' : Machine} {fault : Fault}
    (h : block op m = .error fault m') :
    ∃ start, Commits (.block op) m start ∧ start.Untouched m' := by
  induction hn : m.regs.c.toNat using Nat.strongRecOn generalizing m with
  | ind n ih =>
    rw [block_apply] at h
    split at h
    · cases h
    · rename_i hc
      cases hr : chunk op m with
      | error fault' m₁ =>
        rw [hr] at h
        obtain ⟨-, rfl⟩ := EStateM.Result.error.inj h
        exact ⟨m, .refl m, (precise_chunk op m fault' m₁ hr).2⟩
      | ok decided m₁ =>
        rw [hr] at h
        cases decided with
        | true => cases h
        | false =>
          have hlt : m₁.regs.c.toNat < n := by
            rw [regs_chunk hr, ← hn]
            exact op.rest_c_lt hc
          obtain ⟨start, hchunks, hu⟩ := ih _ hlt h rfl
          exact ⟨start, .chunk rfl hc hr hchunks, hu⟩

/-! ## Socket transfers -/

theorem consulted_resolveRange (space : AddressSpace) (vaddr : UInt32) (len : Nat)
    (access : Access) (user : Bool) (m : Memory) :
    m.Consulted space user (stateOf (Memory.resolveRange space vaddr len access user m)) := by
  induction vaddr, len using Memory.resolveRange.induct generalizing m with
  | case1 vaddr =>
    rw [Memory.resolveRange, if_pos rfl]
    exact .refl space user m
  | case2 vaddr len hlen ih =>
    have hc := Memory.consulted_resolve space .data vaddr access user m
    rw [Memory.resolveRange, if_neg hlen, bind_apply]
    cases hr : Memory.resolve space .data vaddr access user m with
    | ok pa m₁ =>
      rw [hr] at hc
      exact hc.trans (ih m₁)
    | error fault m₁ => rwa [hr] at hc

theorem quiet_resolveRange (vaddr : UInt32) (len : Nat) (access : Access) :
    Quiet (fun _ => True) (resolveRange vaddr len access) :=
  ⟨fun m => untouched_onMemory (consulted_resolveRange _ vaddr len access _ m.memory),
    fun _ _ _ _ => trivial⟩

theorem quiet_readChunk (vaddr : UInt32) (len : Nat) :
    Quiet (fun _ => True) (readChunk vaddr len) := by
  refine (quiet_resolve ..).bind fun pa => Quiet.getRam.bind fun ram => ?_
  split
  · exact .pure _
  · exact .throw trivial

theorem sure_callSockets (call : Sockets → Int32 × Sockets) : Sure (callSockets call) :=
  (Sure.modifyGet _).bind fun _ => .pure _

section
variable {m m' : Machine} {fd vaddr c : UInt32} {fault : Fault}
  (hfd : m.bridge.sockets.owned? fd = none)
include hfd

/-- For a descriptor that is not open nothing is received, and so nothing stored. -/
theorem untouched_receive (h : receiveToGuest fd vaddr c m = .error fault m') :
    m.Untouched m' := by
  rw [receiveToGuest] at h
  split at h
  · cases h
  rcases bind_eq_error_iff.1 h with h | ⟨_, m₁, hr, h⟩
  · exact ((quiet_resolveRange ..).precise m fault m' h).2
  · have hu := (quiet_resolveRange vaddr (transferLength c) .store).untouched m
    rw [hr] at hu
    obtain ⟨memory, -, rfl⟩ : m.Untouched m₁ := hu
    have hnone (len : Nat) : m.bridge.sockets.receive fd len =
        (-1, ByteArray.empty, m.bridge.sockets) := by
      simp only [Sockets.receive, Sockets.readable, Sockets.onOwned, hfd]
      rfl
    rw [bind_apply, onSockets_apply, hnone] at h
    dsimp only at h
    rw [bind_apply, copyToGuest, if_pos ByteArray.size_empty] at h
    cases h

/-- Nor is anything sent. -/
theorem untouched_send (h : sendBuffer fd vaddr c m = .error fault m') : m.Untouched m' := by
  rw [sendBuffer] at h
  split at h
  · cases h
  rcases bind_eq_error_iff.1 h with h | ⟨_, m₁, hr, h⟩
  · exact ((quiet_resolveRange ..).precise m fault m' h).2
  · have hu := (quiet_resolveRange vaddr (transferLength c) .load).untouched m
    rw [hr, stateOf_ok] at hu
    rw [sendFromGuest] at h
    split at h
    · cases h
    rcases bind_eq_error_iff.1 h with h | ⟨data, m₂, hr', h⟩
    · exact hu.trans ((quiet_readChunk ..).precise m₁ fault m' h).2
    · have hu' := (quiet_readChunk vaddr (min (pageLeft vaddr).toNat (transferLength c))).untouched m₁
      rw [hr', stateOf_ok] at hu'
      obtain ⟨memory, -, rfl⟩ := hu.trans hu'
      have hnone (data : ByteArray) : m.bridge.sockets.send fd data = (-1, m.bridge.sockets) := by
        simp [Sockets.send, Sockets.onOwned, hfd]
      rw [bind_apply, onSockets_apply, hnone] at h
      cases h

end

/-! ## Operations -/

/-- How an operation may stop at `m`: with a fault, between whole chunks if it has any, or since the
kernel's stack gave out in an operation that enables interrupts. -/
def StopsAt (op : Operation) (m : Machine) (stop : Stop) (m' : Machine) : Prop :=
  (stop.IsFault ∧ ∃ start, Commits op m start ∧ start.Untouched m') ∨
    (op = .enableInterrupts ∨ op = .returnFromInterrupt) ∧ stop = .fatal .kernelStackFault

section
variable {op : Operation} {m m' : Machine} {stop : Stop}

theorem Precise.stopsAt {α : Type} {x : Exec α} (hx : Precise Stop.IsFault x)
    (h : x m = .error stop m') : StopsAt op m stop m' := by
  obtain ⟨hs, hu⟩ := hx m stop m' h
  exact .inl ⟨hs, m, .refl m, hu⟩

theorem Sure.stopsAt {α : Type} {x : Exec α} (hx : Sure x) (h : x m = .error stop m') :
    StopsAt op m stop m' :=
  absurd h (hx m stop m')

theorem precise_intArith (op : IntOp) (x : UInt32) : Precise Stop.IsFault (intArith op x) := by
  refine Quiet.getRegs.bind_precise fun r => ?_
  split
  · exact (sure_setInt _ _).precise
  · exact (Quiet.throw ⟨_, rfl⟩).precise

theorem sure_setSpace (space : AddressSpace) : Sure (setSpace space) :=
  (Sure.modify _).bind fun _ => .modify _

theorem stopsAt_network {op : SocketOp} (h : (liftM (network op) : Exec Unit) m = .error stop m')
    (hfd : op = .receive ∨ op = .send → m.bridge.sockets.owned? m.regs.a = none) :
    StopsAt (.network op) m stop m' := by
  obtain ⟨fault, rfl, hnet⟩ := liftGuarded_eq_error h
  refine .inl ⟨⟨fault, rfl⟩, m, .refl m, ?_⟩
  rw [network, bind_apply, getRegs_apply] at hnet
  rcases bind_eq_error_iff.1 hnet with h | ⟨result, m₁, -, h⟩
  · cases op with
    | receive => exact untouched_receive (hfd (.inl rfl)) h
    | send => exact untouched_send (hfd (.inr rfl)) h
    | socket | close | connect | readable | bind | listen | accept =>
      exact absurd h (sure_callSockets _ m fault m')
  · exact absurd h (sure_setInt _ _ m₁ fault m')

/-- An operation stops only as `StopsAt` says, unless it moves bytes of an open socket. -/
theorem stopsAt_perform {i : Instruction} (h : perform op i m = .error stop m')
    (hfd : op = .network .receive ∨ op = .network .send →
      m.bridge.sockets.owned? m.regs.a = none) : StopsAt op m stop m' := by
  rw [perform, bind_apply, getRegs_apply] at h
  cases op with
  | halt | idle | nop => exact (Sure.pure ()).stopsAt h
  | enter => exact (sure_setSp _).stopsAt h
  | leave =>
    refine ((quiet_readSlot _).liftGuarded.bind_sure fun _ => ?_).stopsAt h
    exact (sure_setPc _).bind fun _ => sure_setSp _
  | jump => exact (sure_setPc _).stopsAt h
  | jumpTable => exact ((quiet_loadInt ..).liftGuarded.bind_sure fun _ => sure_setPc _).stopsAt h
  | call => exact ((precise_push _).liftGuarded.bind_sure fun _ => sure_setPc _).stopsAt h
  | callIndirect => exact ((precise_push _).liftGuarded.bind_sure fun _ => sure_setPc _).stopsAt h
  | address slot => exact (sure_setInt _ _).stopsAt h
  | readCycle => exact (sure_setInt _ _).stopsAt h
  | block op =>
    obtain ⟨fault, rfl, hblock⟩ := liftGuarded_eq_error h
    exact .inl ⟨⟨fault, rfl⟩, precise_block hblock⟩
  | load dst slot w =>
    exact ((quiet_loadInt ..).liftGuarded.bind_sure fun _ => sure_setInt _ _).stopsAt h
  | loadFloat dst slot w =>
    exact ((quiet_loadFloat ..).liftGuarded.bind_sure fun _ => sure_setFloat _ _).stopsAt h
  | immediate dst => exact (sure_setInt _ _).stopsAt h
  | immediateHigh dst => exact (sure_setInt _ _).stopsAt h
  | immediateFloat dst => exact (sure_setFloat _ _).stopsAt h
  | copyA dst => exact (sure_setInt _ _).stopsAt h
  | copyF => exact (sure_setFloat _ _).stopsAt h
  | store slot w => exact (precise_storeInt _ _ _ _).liftGuarded.stopsAt h
  | storeFloat slot w => exact (precise_storeFloat _ _ _ _).liftGuarded.stopsAt h
  | floatArith op =>
    cases hv : op.eval? m.regs.f m.regs.g with
    | some v =>
      simp only [hv] at h
      exact (sure_setFloat _ _).stopsAt h
    | none =>
      simp only [hv] at h
      exact (Quiet.throw ⟨_, rfl⟩).precise.stopsAt h
  | intArith op source =>
    cases source with
    | register => exact (precise_intArith _ _).stopsAt h
    | immediate => exact (precise_intArith _ _).stopsAt h
    | stack =>
      refine ((quiet_loadInt ..).liftGuarded.bind_precise fun _ => ?_).stopsAt h
      exact precise_intArith _ _
  | compare rel => exact (sure_setInt _ _).stopsAt h
  | branch cond =>
    dsimp only at h
    split at h
    · exact (sure_setPc _).stopsAt h
    · exact (Sure.pure ()).stopsAt h
  | convert conversion =>
    cases conversion with
    | ofSigned | ofUnsigned => exact (sure_setFloat _ _).stopsAt h
    | toSigned | toUnsigned => exact (sure_setInt _ _).stopsAt h
  | math op => exact (sure_setFloat _ _).stopsAt h
  | setStack => exact (sure_setSp _).stopsAt h
  | push src => exact (precise_push _).liftGuarded.stopsAt h
  | pushImmediate => exact (precise_push _).liftGuarded.stopsAt h
  | pushFloat src => exact (precise_pushFloat _).liftGuarded.stopsAt h
  | pop dst => exact (precise_pop.liftGuarded.bind_sure fun _ => sure_setInt _ _).stopsAt h
  | popFloat dst => exact (precise_popFloat.liftGuarded.bind_sure fun _ => sure_setFloat _ _).stopsAt h
  | trap => exact (Quiet.throw ⟨_, rfl⟩).precise.stopsAt h
  | disableInterrupts => exact (Sure.modify _).stopsAt h
  | enableInterrupts =>
    obtain ⟨reason, rfl, henable⟩ := liftDelivery_eq_error h
    exact .inr ⟨.inl rfl, by rw [enableInterrupts_eq_error henable]⟩
  | returnFromInterrupt =>
    obtain ⟨reason, rfl, hreturn⟩ := liftDelivery_eq_error h
    exact .inr ⟨.inr rfl, by rw [returnFromInterrupt_eq_error hreturn]⟩
  | setVector => exact (Sure.modify _).stopsAt h
  | setDirectory =>
    refine (Quiet.getRam.bind_precise fun ram => ?_).stopsAt h
    exact (Quiet.require ⟨_, rfl⟩).bind_sure fun _ => sure_setSpace _
  | setPaging =>
    exact ((Quiet.require ⟨_, rfl⟩).bind_sure fun _ => sure_setSpace _).stopsAt h
  | setTimer =>
    dsimp only at h
    split at h
    · exact (Sure.modify _).stopsAt h
    · exact (Sure.pure ()).stopsAt h
  | faultAddress => exact (sure_setInt _ _).stopsAt h
  | userStack => exact (sure_setInt _ _).stopsAt h
  | setUserStack => exact (Sure.modify _).stopsAt h
  | memorySize => exact (Sure.getRam.bind fun _ => sure_setInt _ _).stopsAt h
  | readKey =>
    refine ((Sure.modifyGet _).bind fun key => ?_).stopsAt h
    cases key with
    | some k => exact (Sure.modify _).bind fun _ => sure_setInt _ _
    | none => exact sure_setInt _ _
  | writeByte => exact ((Sure.modifyGet _).bind fun _ => sure_setInt _ _).stopsAt h
  | network op =>
    exact stopsAt_network h fun hop => hfd (hop.imp (congrArg _) (congrArg _))

/-! ## Instructions -/

/-- A fetch moves on by a word, and its walks are all that happened to memory. -/
theorem fetch_eq_ok {i : Instruction} (h : fetch m = .ok i m') :
    m.regs.pc &&& 3 = 0 ∧ ∃ memory, m.memory.Consulted m.regs.space m.regs.user memory ∧
      m' = { m with
        regs := { m.regs with pc := m.regs.pc + 4 }, memory, ipc := m.regs.pc, ir := i } := by
  have hc := Memory.consulted_resolve m.regs.space .code m.regs.pc .fetch m.regs.user m.memory
  rw [fetch_apply] at h
  split at h
  · rename_i halign
    cases hr : Memory.resolve m.regs.space .code m.regs.pc .fetch m.regs.user m.memory with
    | ok pa memory =>
      rw [hr] at h hc
      obtain ⟨rfl, rfl⟩ := EStateM.Result.ok.inj h
      exact ⟨halign, memory, hc, rfl⟩
    | error fault memory =>
      rw [hr] at h
      cases h
  · cases h

/-- A fetch that fails blames the address of the instruction. -/
theorem fetch_eq_error (h : fetch m = .error stop m') :
    (stop = .fatal (.misalignedPc m.regs.pc) ∧ m' = m) ∨
      ∃ cause memory, stop = .fault cause ∧ cause.vaddr? = some m.regs.pc ∧
        m.memory.Consulted m.regs.space m.regs.user memory ∧
        m' = { m with memory, ipc := m.regs.pc } := by
  have hc := Memory.consulted_resolve m.regs.space .code m.regs.pc .fetch m.regs.user m.memory
  rw [fetch_apply] at h
  split at h
  · cases hr : Memory.resolve m.regs.space .code m.regs.pc .fetch m.regs.user m.memory with
    | ok pa memory =>
      rw [hr] at h
      cases h
    | error cause memory =>
      rw [hr] at h hc
      obtain ⟨rfl, rfl⟩ := EStateM.Result.error.inj h
      exact .inr ⟨cause, memory, rfl, Memory.vaddr_of_resolve _ _ _ _ _ hr, hc, rfl⟩
  · obtain ⟨rfl, rfl⟩ := EStateM.Result.error.inj h
    exact .inl ⟨rfl, rfl⟩

/-- Running an operation stops where the operation does. -/
theorem execute_eq_error {i : Instruction} (h : execute op i m = .error stop m') :
    op = .idle ∧ idle m = .error stop m' ∨ perform op i m = .error stop m' := by
  unfold execute at h
  split at h
  · cases h
  · exact .inl ⟨rfl, h⟩
  · rcases bind_eq_error_iff.1 h with h | ⟨_, m₁, -, h⟩
    · exact .inr h
    · cases h

end

end Machine

end PagedMachine
