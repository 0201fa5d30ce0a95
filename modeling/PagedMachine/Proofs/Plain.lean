import PagedMachine.Proofs.Addressed

/-!
# What user mode can do

`Plain P`: the property `P` of code holds of the few parts that unprivileged operations are made of,
so it holds of the operations (`Plain.perform`), and of what comes before them. Other registers than
those for data, the stack pointer and the program counter are out of their reach, and so are the
devices.
-/

set_option autoImplicit false

namespace PagedMachine.Machine

structure Plain (P : ∀ {ε α : Type}, EStateM ε Machine α → Prop) : Prop where
  pure {ε α : Type} (a : α) : P (pure a : EStateM ε Machine α)
  throw {ε α : Type} (e : ε) : P (throw e : EStateM ε Machine α)
  bind {ε α β : Type} {x : EStateM ε Machine α} {f : α → EStateM ε Machine β} :
    P x → (∀ a, P (f a)) → P (x >>= f)
  adapt {ε ε' α : Type} (fn : ε → ε') {x : EStateM ε Machine α} :
    P x → P (EStateM.adaptExcept fn x)
  getRegs {ε : Type} : P (getRegs : EStateM ε Machine Registers)
  getRam {ε : Type} : P (getRam : EStateM ε Machine Ram)
  modifyRegs {ε : Type} {fn : Registers → Registers} :
    (∀ r, ∃ a b c f g sp pc, fn r = { r with a, b, c, f, g, sp, pc }) →
      P (modifyRegs fn : EStateM ε Machine Unit)
  countBlock (n : UInt32) : P (countBlock n)
  /-- Which instruction runs. -/
  current {ε : Type} (ipc : UInt32 → UInt32) (ir : Instruction → Instruction) :
    P (modify (fun m => { m with ipc := ipc m.ipc, ir := ir m.ir }) : EStateM ε Machine PUnit)
  ram {ε : Type} {fn : Ram → Ram} : (∀ r, (fn r).bytes.size = r.bytes.size) →
    P (modifyRam fn : EStateM ε Machine Unit)
  access (space : AddressSpace) (slot : Slot) (vaddr : UInt32) (access : Access) (user : Bool) :
    P (onMemory (Memory.resolve space slot vaddr access user))

namespace Plain

variable {P : ∀ {ε α : Type}, EStateM ε Machine α → Prop} (h : Plain P)

include h

theorem resolve (slot : Slot) (vaddr : UInt32) (access : Access) : P (resolve slot vaddr access) :=
  h.bind h.getRegs fun _ => h.access ..

theorem accesses : Accesses P where
  pure := h.pure
  throw := h.throw
  bind := h.bind
  getRam := h.getRam
  resolve := h.resolve
  ram := h.ram

theorem require {ε : Type} (ok : Bool) (e : ε) : P (require ok e : EStateM ε Machine Unit) :=
  h.accesses.require ok e

/-- What does not depend on where memory is accessed holds of the accesses. -/
theorem addressed : Addressed P P where
  pure := h.pure
  throw := h.throw
  bind := h.bind
  adapt := h.adapt
  getRegs := h.getRegs
  modifyRegs := h.modifyRegs
  current := h.current
  reading _ _ := h.accesses.reading ..
  reading₂ _ _ _ := h.accesses.reading₂ ..
  still hx := hx
  before := h.bind
  adaptStored := h.adapt
  writing _ := h.accesses.writing ..
  copying _ _ := h.accesses.copying ..
  after hfn hx := h.bind hx fun _ => h.modifyRegs hfn
  counted n hx := h.bind hx fun _ => h.countBlock n

theorem liftGuarded {α : Type} {x : Guarded α} (hx : P x) : P (liftM x : Exec α) := h.adapt _ hx

theorem setInt {ε : Type} (dst : IntReg) (v : UInt32) : P (setInt dst v : EStateM ε Machine Unit) :=
  h.addressed.setInt dst v

theorem push (v : UInt32) : P (push v) := h.addressed.push v

theorem pop : P pop := h.addressed.pop

theorem network (hs : ∀ {α : Type} (fn : Sockets → α × Sockets), P (onSockets fn : Guarded α))
    (op : SocketOp) : P (network op) := h.addressed.network (fun _ => hs _) op

/-- An operation that user mode may execute is put together from the parts. -/
theorem perform {op : Operation} (hop : op.privileged = false) (i : Instruction) :
    P (perform op i) := h.addressed.performAny hop i

theorem fetch : P fetch := h.addressed.fetch

end Plain

end PagedMachine.Machine
