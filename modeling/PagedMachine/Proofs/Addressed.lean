import PagedMachine.Proofs.Addressing
import PagedMachine.Sockets.Lemmas

/-!
# Code that accesses memory at addresses

`Addressed R W` goes through the unprivileged operations with the accesses as its parts. `R` is a
property of code that may be followed by more code, `W` one of code that may have stored, after which
only registers change: so it is with each operation but the block operations (`Addressed.perform`).
Where the two are one, the block operations and the socket transfers have it as well
(`Addressed.block`, `Addressed.network`).
-/

set_option autoImplicit false

namespace PagedMachine.Machine

/-- Executes the next instruction, unless it is privileged. -/
def executeUnprivileged : Exec Flow := do
  let i ← fetch
  let op ← decode i
  if op.privileged then throw (.fault .privilegeViolation) else execute op i

/-- In user mode that is what executing an instruction means. -/
theorem executeNext_of_user {m : Machine} (hu : m.regs.user = true) :
    executeNext m = executeUnprivileged m := by
  rw [executeNext, executeUnprivileged, bind_apply, bind_apply]
  cases hfetch : fetch m with
  | error stop m₁ => rfl
  | ok i m₁ =>
    dsimp only
    rw [bind_apply, bind_apply]
    cases hdecode : decode i m₁ with
    | error stop m₂ => rfl
    | ok op m₂ =>
      obtain ⟨-, hmode, rfl⟩ := decode_eq_ok hdecode
      dsimp only
      rw [hmode ((user_of_fetch hfetch).trans hu)]
      rfl

structure Addressed (R W : ∀ {ε α : Type}, EStateM ε Machine α → Prop) : Prop where
  pure {ε α : Type} (a : α) : R (pure a : EStateM ε Machine α)
  throw {ε α : Type} (e : ε) : R (throw e : EStateM ε Machine α)
  bind {ε α β : Type} {x : EStateM ε Machine α} {f : α → EStateM ε Machine β} :
    R x → (∀ a, R (f a)) → R (x >>= f)
  adapt {ε ε' α : Type} (fn : ε → ε') {x : EStateM ε Machine α} :
    R x → R (EStateM.adaptExcept fn x)
  getRegs {ε : Type} : R (getRegs : EStateM ε Machine Registers)
  modifyRegs {ε : Type} {fn : Registers → Registers} :
    (∀ r, ∃ a b c f g sp pc, fn r = { r with a, b, c, f, g, sp, pc }) →
      R (modifyRegs fn : EStateM ε Machine Unit)
  /-- Which instruction runs. -/
  current {ε : Type} (ipc : UInt32 → UInt32) (ir : Instruction → Instruction) :
    R (modify (fun m => { m with ipc := ipc m.ipc, ir := ir m.ir }) : EStateM ε Machine PUnit)
  reading {α : Type} {slot : Slot} {vaddr : UInt32} {access : Access} {n : Nat}
    {fault : Option Fault} {read : Ram → UInt32 → α} : vaddr.toNat % 4096 + n ≤ 4096 →
      Ram.ReadsAt n read → R (reading slot vaddr access n fault read)
  reading₂ {α : Type} {b a : UInt32} {n : Nat} {fault : Fault} {read : Ram → UInt32 → UInt32 → α} :
    b.toNat % 4096 + n ≤ 4096 → a.toNat % 4096 + n ≤ 4096 → Ram.ReadsAt₂ n read →
      R (reading₂ b a n fault read)
  /-- Code need not store. -/
  still {ε α : Type} {x : EStateM ε Machine α} : R x → W x
  before {ε α β : Type} {x : EStateM ε Machine α} {f : α → EStateM ε Machine β} :
    R x → (∀ a, W (f a)) → W (x >>= f)
  adaptStored {ε ε' α : Type} (fn : ε → ε') {x : EStateM ε Machine α} :
    W x → W (EStateM.adaptExcept fn x)
  writing {slot : Slot} {vaddr : UInt32} {fault : Option Fault} {data : ByteArray} :
    vaddr.toNat % 4096 + data.size ≤ 4096 → W (writing slot vaddr fault data)
  copying {b a : UInt32} {n : Nat} {fault : Fault} : b.toNat % 4096 + n ≤ 4096 →
    a.toNat % 4096 + n ≤ 4096 → W (copying b a n fault)
  /-- The registers may change after a store. -/
  after {ε : Type} {x : EStateM ε Machine Unit} {fn : Registers → Registers} :
    (∀ r, ∃ a b c f g sp pc, fn r = { r with a, b, c, f, g, sp, pc }) → W x →
      W (x >>= fun _ => Machine.modifyRegs fn)
  counted {x : Guarded Unit} (n : UInt32) : W x → W (x >>= fun _ => countBlock n)

namespace Addressed

variable {R W : ∀ {ε α : Type}, EStateM ε Machine α → Prop} (h : Addressed R W)

include h

/-! ## Registers -/

section
variable {ε α : Type}

theorem liftGuarded {x : Guarded α} (hx : R x) : R (liftM x : Exec α) := h.adapt _ hx

theorem liftStored {x : Guarded α} (hx : W x) : W (liftM x : Exec α) := h.adaptStored _ hx

theorem require (ok : Bool) (e : ε) : R (require ok e : EStateM ε Machine Unit) := by
  cases ok with
  | true => exact h.pure ()
  | false => exact h.throw e

theorem setInt (dst : IntReg) (v : UInt32) : R (setInt dst v : EStateM ε Machine Unit) := by
  refine h.modifyRegs fun r => ?_
  cases dst <;> exact ⟨_, _, _, _, _, _, _, rfl⟩

theorem setFloat (dst : FloatReg) (v : Double) : R (setFloat dst v : EStateM ε Machine Unit) := by
  refine h.modifyRegs fun r => ?_
  cases dst <;> exact ⟨_, _, _, _, _, _, _, rfl⟩

theorem setPc (pc : UInt32) : R (setPc pc : EStateM ε Machine Unit) :=
  h.modifyRegs fun _ => ⟨_, _, _, _, _, _, _, rfl⟩

theorem setSp (sp : UInt32) : R (setSp sp : EStateM ε Machine Unit) :=
  h.modifyRegs fun _ => ⟨_, _, _, _, _, _, _, rfl⟩

theorem thenPc (pc : UInt32) {x : EStateM ε Machine Unit} (hx : W x) :
    W (x >>= fun _ => Machine.setPc pc) :=
  h.after (fun _ => ⟨_, _, _, _, _, _, _, rfl⟩) hx

theorem thenSp (sp : UInt32) {x : EStateM ε Machine Unit} (hx : W x) :
    W (x >>= fun _ => Machine.setSp sp) :=
  h.after (fun _ => ⟨_, _, _, _, _, _, _, rfl⟩) hx

end

/-! ## Loads, stores and the stack -/

theorem resolve (slot : Slot) (vaddr : UInt32) (access : Access) : R (resolve slot vaddr access) := by
  rw [resolve_eq]
  exact h.reading (Nat.le_of_lt (Nat.mod_lt _ (by decide))) Ram.readsAt_address

theorem loadInt (slot : Slot) (vaddr : UInt32) (w : LoadWidth) : R (loadInt slot vaddr w) := by
  rw [loadInt_eq]
  exact h.reading (w.align_fits vaddr) w.readsAt_read

theorem loadFloat (slot : Slot) (vaddr : UInt32) (w : FloatWidth) : R (loadFloat slot vaddr w) := by
  rw [loadFloat_eq]
  exact h.reading (w.align_fits vaddr) w.readsAt_read

theorem storeInt (slot : Slot) (vaddr : UInt32) (w : StoreWidth) (v : UInt32) :
    W (storeInt slot vaddr w v) := by
  rw [storeInt_eq]
  exact h.writing (w.align_fits vaddr v)

theorem storeFloat (slot : Slot) (vaddr : UInt32) (w : FloatWidth) (v : Double) :
    W (storeFloat slot vaddr w v) := by
  rw [storeFloat_eq]
  exact h.writing (by rw [w.size_bytes]; exact w.align_fits vaddr)

theorem readSlot (vaddr : UInt32) : R (readSlot vaddr) := by
  rw [readSlot_eq]
  exact h.reading (alignTo8_fits vaddr (by decide)) Ram.readsAt_read32

theorem push (v : UInt32) : W (push v) := by
  rw [push_eq]
  exact h.before h.getRegs fun r => h.thenSp _ (h.writing (alignTo8_fits _ (by simp)))

theorem pushFloat (v : Double) : W (pushFloat v) := by
  rw [pushFloat_eq]
  exact h.before h.getRegs fun r => h.thenSp _ (h.writing (alignTo8_fits _ (by simp [Bytes.push64])))

theorem pop : R pop :=
  h.bind h.getRegs fun _ => h.bind (h.readSlot _) fun _ => h.bind (h.setSp _) fun _ => h.pure _

theorem popFloat : R popFloat := by
  rw [popFloat_eq]
  refine h.bind h.getRegs fun r => h.bind (h.reading (alignTo8_fits _ (by decide)) ?_) fun bits => ?_
  · exact Ram.readsAt_read64
  · exact h.bind (h.setSp _) fun _ => h.pure _

/-! ## Chunks of block operations -/

theorem copyChunk (a b c : UInt32) : W (copyChunk a b c) := by
  have hfit := chunkLeft₂_fits a b c
  rw [copyChunk_eq]
  dsimp only
  rw [← bind_assoc]
  exact h.after (fun _ => ⟨_, _, _, _, _, _, _, rfl⟩) (h.counted _ (h.copying hfit.2 hfit.1))

theorem compareChunk (a b c : UInt32) : R (compareChunk a b c) := by
  have hfit := chunkLeft₂_fits a b c
  rw [compareChunk_eq]
  refine h.bind (h.reading₂ hfit.2 hfit.1 (Ram.readsAt₂_mismatch _)) fun diff => ?_
  cases diff with
  | some diff => exact h.bind (h.modifyRegs fun _ => ⟨_, _, _, _, _, _, _, rfl⟩) fun _ => h.pure _
  | none => exact h.bind (h.modifyRegs fun _ => ⟨_, _, _, _, _, _, _, rfl⟩) fun _ => h.pure _

theorem scanChunk (needle : UInt8) (a c : UInt32) : R (scanChunk needle a c) := by
  rw [scanChunk_eq]
  refine h.bind (h.reading (chunkLeft_fits a c) (Ram.readsAt_place needle _)) fun found => ?_
  cases found with
  | some i => exact h.bind (h.modifyRegs fun _ => ⟨_, _, _, _, _, _, _, rfl⟩) fun _ => h.pure _
  | none => exact h.bind (h.modifyRegs fun _ => ⟨_, _, _, _, _, _, _, rfl⟩) fun _ => h.pure _

theorem fillChunk (value : UInt8) (a c : UInt32) : W (fillChunk value a c) := by
  rw [fillChunk_eq]
  dsimp only
  rw [← bind_assoc]
  refine h.after (fun _ => ⟨_, _, _, _, _, _, _, rfl⟩) (h.counted _ (h.writing ?_))
  rw [Bytes.size_replicate]
  exact chunkLeft_fits a c

/-! ## Instructions -/

theorem intArith (op : IntOp) (x : UInt32) : R (intArith op x) := by
  refine h.bind h.getRegs fun r => ?_
  split
  · exact h.setInt ..
  · exact h.throw _

/-- An operation that user mode may execute makes its accesses before it stores. -/
theorem perform {op : Operation} (hop : op.privileged = false) (hblock : ∀ b, op ≠ .block b)
    (i : Instruction) : W (perform op i) := by
  refine h.before h.getRegs fun r => ?_
  cases op with
  | halt | idle | nop => exact h.still (h.pure _)
  | enter => exact h.still (h.setSp _)
  | leave =>
    exact h.still (h.bind (h.liftGuarded (h.readSlot _)) fun _ => h.bind (h.setPc _) fun _ =>
      h.setSp _)
  | jump => exact h.still (h.setPc _)
  | jumpTable => exact h.still (h.bind (h.liftGuarded (h.loadInt ..)) fun _ => h.setPc _)
  | call => exact h.thenPc _ (h.liftStored (h.push _))
  | callIndirect => exact h.thenPc _ (h.liftStored (h.push _))
  | address slot => exact h.still (h.setInt ..)
  | readCycle => exact h.still (h.setInt ..)
  | block b => exact absurd rfl (hblock b)
  | load dst slot w => exact h.still (h.bind (h.liftGuarded (h.loadInt ..)) fun _ => h.setInt ..)
  | loadFloat dst slot w =>
    exact h.still (h.bind (h.liftGuarded (h.loadFloat ..)) fun _ => h.setFloat ..)
  | immediate dst => exact h.still (h.setInt ..)
  | immediateHigh dst => exact h.still (h.setInt ..)
  | immediateFloat dst => exact h.still (h.setFloat ..)
  | copyA dst => exact h.still (h.setInt ..)
  | copyF => exact h.still (h.setFloat ..)
  | store slot w => exact h.liftStored (h.storeInt ..)
  | storeFloat slot w => exact h.liftStored (h.storeFloat ..)
  | floatArith op =>
    dsimp only
    split
    · exact h.still (h.setFloat ..)
    · exact h.still (h.throw _)
  | intArith op source =>
    cases source with
    | register => exact h.still (h.intArith ..)
    | immediate => exact h.still (h.intArith ..)
    | stack => exact h.still (h.bind (h.liftGuarded (h.loadInt ..)) fun _ => h.intArith ..)
  | compare rel => exact h.still (h.setInt ..)
  | branch cond =>
    dsimp only
    split
    · exact h.still (h.setPc _)
    · exact h.still (h.pure _)
  | convert conversion =>
    cases conversion <;> first | exact h.still (h.setFloat ..) | exact h.still (h.setInt ..)
  | math op => exact h.still (h.setFloat ..)
  | setStack => exact h.still (h.setSp _)
  | push src => exact h.liftStored (h.push _)
  | pushImmediate => exact h.liftStored (h.push _)
  | pushFloat src => exact h.liftStored (h.pushFloat _)
  | pop dst => exact h.still (h.bind (h.liftGuarded h.pop) fun _ => h.setInt ..)
  | popFloat dst => exact h.still (h.bind (h.liftGuarded h.popFloat) fun _ => h.setFloat ..)
  | trap => exact h.still (h.throw _)
  | disableInterrupts | enableInterrupts | returnFromInterrupt | setVector | setDirectory
  | setPaging | setTimer | faultAddress | userStack | setUserStack | memorySize | readKey
  | writeByte | network op => cases hop

theorem fetch : R fetch := by
  rw [fetch_eq]
  refine h.bind h.getRegs fun r => ?_
  by_cases hpc : r.pc &&& 3 = 0
  · refine h.bind (h.require _ _) fun _ => h.bind (h.current (fun _ => r.pc) fun i => i) fun _ => ?_
    refine h.bind (h.liftGuarded (h.reading ?_ Ram.readsAt_read32)) fun word => ?_
    · exact word_fits hpc
    · refine h.bind (h.current (fun pc => pc) fun _ => ⟨word⟩) fun _ => ?_
      exact h.bind (h.setPc _) fun _ => h.pure _
  · rw [decide_eq_false hpc]
    exact h.throw _

theorem decode (i : Instruction) : R (decode i) := by
  unfold Machine.decode
  cases i.operation? with
  | none => exact h.throw _
  | some op => exact h.bind h.getRegs fun _ => h.bind (h.require _ _) fun _ => h.pure _

end Addressed

/-! ## Where stores may be followed by accesses -/

namespace Addressed

variable {P : ∀ {ε α : Type}, EStateM ε Machine α → Prop} (h : Addressed P P)

include h

theorem blockCopy (a b c : UInt32) : P (blockCopy a b c) := by
  induction a, b, c using blockCopy.induct with
  | case1 a b =>
    rw [Machine.blockCopy, if_pos rfl]
    exact h.pure _
  | case2 a b c hc u ih =>
    rw [Machine.blockCopy, if_neg hc]
    exact h.bind (h.copyChunk ..) fun _ => ih

theorem blockCompare (a b c : UInt32) : P (blockCompare a b c) := by
  induction a, b, c using blockCompare.induct with
  | case1 a b =>
    rw [Machine.blockCompare, if_pos rfl]
    exact h.setInt ..
  | case2 a b c hc u ih =>
    rw [Machine.blockCompare, if_neg hc]
    refine h.bind (h.compareChunk ..) fun decided => ?_
    cases decided with
    | true => exact h.pure _
    | false => exact ih

theorem blockScan (needle : UInt8) (a c : UInt32) : P (blockScan needle a c) := by
  induction a, c using blockScan.induct with
  | case1 a =>
    rw [Machine.blockScan, if_pos rfl]
    exact h.setInt ..
  | case2 a c hc u ih =>
    rw [Machine.blockScan, if_neg hc]
    refine h.bind (h.scanChunk ..) fun found => ?_
    cases found with
    | true => exact h.pure _
    | false => exact ih

theorem blockFill (value : UInt8) (a c : UInt32) : P (blockFill value a c) := by
  induction a, c using blockFill.induct with
  | case1 a =>
    rw [Machine.blockFill, if_pos rfl]
    exact h.pure _
  | case2 a c hc u ih =>
    rw [Machine.blockFill, if_neg hc]
    exact h.bind (h.fillChunk ..) fun _ => ih

theorem block (op : BlockOp) : P (block op) := by
  refine h.bind h.getRegs fun r => ?_
  cases op with
  | copy => exact h.blockCopy ..
  | compare => exact h.blockCompare ..
  | scan => exact h.blockScan ..
  | fill => exact h.blockFill ..

theorem performAny {op : Operation} (hop : op.privileged = false) (i : Instruction) :
    P (Machine.perform op i) := by
  by_cases hblock : ∃ b, op = .block b
  · obtain ⟨b, rfl⟩ := hblock
    exact h.bind h.getRegs fun _ => h.liftGuarded (h.block b)
  · exact h.perform hop (fun b hb => hblock ⟨b, hb⟩) i

theorem execute {op : Operation} (hop : op.privileged = false) (i : Instruction) :
    P (Machine.execute op i) := by
  unfold Machine.execute
  split
  · exact h.bind h.getRegs fun _ => h.pure _
  · cases hop
  · exact h.bind (h.performAny hop i) fun _ => h.pure _

theorem executeUnprivileged : P executeUnprivileged := by
  refine h.bind h.fetch fun i => h.bind (h.decode i) fun op => ?_
  cases hop : op.privileged with
  | true => exact h.throw _
  | false => exact h.execute hop i

/-! ### Guest buffers -/

theorem resolveRange (vaddr : UInt32) (len : Nat) (access : Access) :
    P (resolveRange vaddr len access) := by
  induction len using Nat.strongRecOn generalizing vaddr with
  | ind len ih =>
    rw [resolveRange_eq]
    split
    · exact h.pure _
    · have := pageLeft_pos vaddr
      exact h.bind (h.resolve ..) fun _ => ih _ (by omega) _

theorem writeChunk {vaddr : UInt32} {data : ByteArray} (hfit : vaddr.toNat % 4096 + data.size ≤ 4096) :
    P (writeChunk vaddr data) := by
  rw [writeChunk_eq]
  exact h.writing hfit

theorem readChunk {vaddr : UInt32} {len : Nat} (hfit : vaddr.toNat % 4096 + len ≤ 4096) :
    P (readChunk vaddr len) := by
  rw [readChunk_eq]
  refine h.bind (h.reading hfit (Ram.readsAt_slice? len)) fun data => ?_
  cases data with
  | some data => exact h.pure _
  | none => exact h.throw _

theorem copyToGuest (vaddr : UInt32) (data : ByteArray) : P (copyToGuest vaddr data) := by
  induction vaddr, data using copyToGuest.induct with
  | case1 vaddr data hsize =>
    rw [Machine.copyToGuest, if_pos hsize]
    exact h.pure _
  | case2 vaddr data hsize n ih =>
    rw [Machine.copyToGuest, if_neg hsize]
    refine h.bind (h.writeChunk ?_) fun _ => ih
    have := pageLeft_toNat vaddr
    rw [ByteArray.size_extract]
    omega

/-! ### Socket transfers

These are privileged, and they change the socket table. -/

section
variable (hs : ∀ {α : Type} {fn : Sockets → α × Sockets}, Sockets.Steady fn →
  P (onSockets fn : Guarded α))
include hs

theorem sendFromGuest (fd vaddr : UInt32) (len sent : Nat) : P (sendFromGuest fd vaddr len sent) := by
  induction len using Nat.strongRecOn generalizing vaddr sent with
  | ind len ih =>
    rw [Machine.sendFromGuest]
    split
    · exact h.pure _
    · have := pageLeft_toNat vaddr
      refine h.bind (h.readChunk (by omega)) fun data => ?_
      refine h.bind (hs (Sockets.steady_send _ _)) fun r => ?_
      dsimp only
      by_cases htaken : r.toInt.toNat = 0
      · rw [if_pos htaken]
        exact h.pure _
      · rw [if_neg htaken]
        split
        · exact h.pure _
        · exact ih _ (by omega) _ _

theorem receiveToGuest (fd vaddr c : UInt32) : P (receiveToGuest fd vaddr c) := by
  rw [Machine.receiveToGuest]
  split
  · exact h.pure _
  · refine h.bind (h.resolveRange ..) fun _ => ?_
    refine h.bind (hs (Sockets.steady_receive _ _)) fun received => ?_
    exact h.bind (h.copyToGuest ..) fun _ => h.pure _

theorem sendBuffer (fd vaddr c : UInt32) : P (sendBuffer fd vaddr c) := by
  rw [Machine.sendBuffer]
  split
  · exact h.pure _
  · exact h.bind (h.resolveRange ..) fun _ => h.sendFromGuest hs ..

theorem callSockets {call : Sockets → Int32 × Sockets} (hcall : Sockets.Steady call) :
    P (callSockets call) :=
  h.bind (hs hcall) fun _ => h.pure _

theorem network (op : SocketOp) : P (network op) := by
  refine h.bind h.getRegs fun r => h.bind ?_ fun result => h.setInt ..
  cases op with
  | receive => exact h.receiveToGuest hs ..
  | send => exact h.sendBuffer hs ..
  | socket => exact h.callSockets hs (Sockets.steady_socket _ _ _)
  | close => exact h.callSockets hs (Sockets.steady_close _)
  | readable => exact h.callSockets hs (Sockets.steady_readable _)
  | accept => exact h.callSockets hs (Sockets.steady_accept _)
  | connect | bind | listen => exact h.callSockets hs (Sockets.steady_onOwned _ _)

end

end Addressed

/-! ## The accesses taken apart -/

/-- What the accesses are made of: an address is resolved, and then bytes are read or written. -/
structure Accesses (P : ∀ {ε α : Type}, EStateM ε Machine α → Prop) : Prop where
  pure {ε α : Type} (a : α) : P (pure a : EStateM ε Machine α)
  throw {ε α : Type} (e : ε) : P (throw e : EStateM ε Machine α)
  bind {ε α β : Type} {x : EStateM ε Machine α} {f : α → EStateM ε Machine β} :
    P x → (∀ a, P (f a)) → P (x >>= f)
  getRam {ε : Type} : P (getRam : EStateM ε Machine Ram)
  resolve (slot : Slot) (vaddr : UInt32) (access : Access) : P (resolve slot vaddr access)
  ram {ε : Type} {fn : Ram → Ram} : (∀ r, (fn r).bytes.size = r.bytes.size) →
    P (modifyRam fn : EStateM ε Machine Unit)

namespace Accesses

variable {P : ∀ {ε α : Type}, EStateM ε Machine α → Prop} (h : Accesses P)

include h

theorem require {ε : Type} (ok : Bool) (e : ε) : P (require ok e : EStateM ε Machine Unit) := by
  cases ok with
  | true => exact h.pure ()
  | false => exact h.throw e

theorem confirm (fault : Option Fault) (ok : Bool) : P (confirm fault ok) := by
  cases fault with
  | none => exact h.pure ()
  | some fault => exact h.require ok fault

theorem reading {α : Type} (slot : Slot) (vaddr : UInt32) (access : Access) (n : Nat)
    (fault : Option Fault) (read : Ram → UInt32 → α) : P (reading slot vaddr access n fault read) :=
  h.bind (h.resolve ..) fun _ => h.bind h.getRam fun _ => h.bind (h.confirm ..) fun _ => h.pure _

theorem reading₂ {α : Type} (b a : UInt32) (n : Nat) (fault : Fault)
    (read : Ram → UInt32 → UInt32 → α) : P (reading₂ b a n fault read) := by
  refine h.bind (h.resolve ..) fun _ => h.bind (h.resolve ..) fun _ => h.bind h.getRam fun _ => ?_
  exact h.bind (h.require _ _) fun _ => h.pure _

theorem writing (slot : Slot) (vaddr : UInt32) (fault : Option Fault) (data : ByteArray) :
    P (writing slot vaddr fault data) := by
  refine h.bind (h.resolve ..) fun _ => h.bind h.getRam fun _ => h.bind (h.confirm ..) fun _ => ?_
  exact h.ram fun _ => Ram.size_blit ..

theorem copying (b a : UInt32) (n : Nat) (fault : Fault) : P (copying b a n fault) := by
  refine h.bind (h.resolve ..) fun _ => h.bind (h.resolve ..) fun _ => h.bind h.getRam fun _ => ?_
  exact h.bind (h.require _ _) fun _ => h.ram fun _ => Ram.size_copyWithin ..

end Accesses

/-! ## Transitions -/

theorem stateOf_require {ε : Type} (ok : Bool) (e : ε) (m : Machine) :
    stateOf (require ok e m) = m := by
  cases ok <;> rfl

theorem stateOf_confirm (fault : Option Fault) (ok : Bool) (m : Machine) :
    stateOf (confirm fault ok m) = m := by
  cases fault with
  | none => rfl
  | some fault => exact stateOf_require ok fault m

section
variable {T : Machine → Machine → Prop}

/-- What two pieces of code are transitions of, their sequence is. -/
theorem transition_bind {ε α β : Type} {x : EStateM ε Machine α} {f : α → EStateM ε Machine β}
    (trans : ∀ {m m' m''}, T m m' → T m' m'' → T m m'') (hx : ∀ m, T m (stateOf (x m)))
    (hf : ∀ a m, T m (stateOf (f a m))) (m : Machine) : T m (stateOf ((x >>= f) m)) := by
  have h := hx m
  rw [bind_apply]
  cases hr : x m with
  | ok a m₁ =>
    rw [hr] at h
    exact trans h (hf a m₁)
  | error e m₁ => rwa [hr] at h

/-- Reading is no more than resolving the addresses. -/
theorem transition_reading {α : Type} {slot : Slot} {vaddr : UInt32} {access : Access} {n : Nat}
    {fault : Option Fault} {read : Ram → UInt32 → α} (refl : ∀ m, T m m)
    (trans : ∀ {m m' m''}, T m m' → T m' m'' → T m m'')
    (resolve : ∀ slot vaddr access m, T m (stateOf (resolve slot vaddr access m))) :
    ∀ m, T m (stateOf (reading slot vaddr access n fault read m)) := by
  refine transition_bind trans (resolve _ _ _) fun pa => transition_bind trans refl fun ram => ?_
  exact transition_bind trans (fun m => (stateOf_confirm _ _ m).symm ▸ refl m) fun _ => refl

theorem transition_reading₂ {α : Type} {b a : UInt32} {n : Nat} {fault : Fault}
    {read : Ram → UInt32 → UInt32 → α} (refl : ∀ m, T m m)
    (trans : ∀ {m m' m''}, T m m' → T m' m'' → T m m'')
    (resolve : ∀ slot vaddr access m, T m (stateOf (resolve slot vaddr access m))) :
    ∀ m, T m (stateOf (reading₂ b a n fault read m)) := by
  refine transition_bind trans (resolve _ _ _) fun pb => transition_bind trans (resolve _ _ _) ?_
  refine fun pa => transition_bind trans refl fun ram => ?_
  exact transition_bind trans (fun m => (stateOf_require _ _ m).symm ▸ refl m) fun _ => refl

/-- A transition that the accesses make, unprivileged operations make. -/
theorem addressed_of_transitions (refl : ∀ m, T m m)
    (trans : ∀ {m m' m''}, T m m' → T m' m'' → T m m'')
    (own : ∀ (m : Machine) a b c f g sp pc ipc ir blockBytes,
      T m { m with regs := { m.regs with a, b, c, f, g, sp, pc }, ipc, ir, blockBytes })
    (resolve : ∀ slot vaddr access m, T m (stateOf (resolve slot vaddr access m)))
    (writing : ∀ {slot : Slot} {vaddr : UInt32} {fault : Option Fault} {data : ByteArray},
      vaddr.toNat % 4096 + data.size ≤ 4096 → ∀ m, T m (stateOf (writing slot vaddr fault data m)))
    (copying : ∀ {b a : UInt32} {n : Nat} {fault : Fault}, b.toNat % 4096 + n ≤ 4096 →
      a.toNat % 4096 + n ≤ 4096 → ∀ m, T m (stateOf (copying b a n fault m))) :
    Addressed (fun x => ∀ m, T m (stateOf (x m))) fun x => ∀ m, T m (stateOf (x m)) := by
  have hregs {ε : Type} {fn : Registers → Registers}
      (hfn : ∀ r, ∃ a b c f g sp pc, fn r = { r with a, b, c, f, g, sp, pc }) (m : Machine) :
      T m (stateOf ((modifyRegs fn : EStateM ε Machine Unit) m)) := by
    obtain ⟨a, b, c, f, g, sp, pc, h⟩ := hfn m.regs
    rw [modifyRegs_apply, stateOf_ok, h]
    exact own m a b c f g sp pc m.ipc m.ir m.blockBytes
  have hadapt {ε ε' α : Type} (fn : ε → ε') {x : EStateM ε Machine α}
      (hx : ∀ m, T m (stateOf (x m))) (m : Machine) :
      T m (stateOf (EStateM.adaptExcept fn x m)) := by
    have h := hx m
    rw [adaptExcept_apply]
    cases hr : x m <;> rwa [hr] at h
  constructor
  case pure => exact fun _ => refl
  case throw => exact fun _ => refl
  case bind => exact transition_bind trans
  case adapt => exact hadapt
  case getRegs => exact refl
  case modifyRegs => exact hregs
  case current =>
    intro ε ipc ir m
    exact own m m.regs.a m.regs.b m.regs.c m.regs.f m.regs.g m.regs.sp m.regs.pc (ipc m.ipc) (ir m.ir)
      m.blockBytes
  case reading => exact fun _ _ => transition_reading refl trans resolve
  case reading₂ => exact fun _ _ _ => transition_reading₂ refl trans resolve
  case still => exact fun h => h
  case before => exact transition_bind trans
  case adaptStored => exact hadapt
  case writing => exact writing
  case copying => exact copying
  case after => exact fun hfn hx => transition_bind trans hx fun _ => hregs hfn
  case counted =>
    intro x n hx
    refine transition_bind trans hx fun _ m => ?_
    exact own m m.regs.a m.regs.b m.regs.c m.regs.f m.regs.g m.regs.sp m.regs.pc m.ipc m.ir
      (m.blockBytes + n.toNat)

end

end PagedMachine.Machine
