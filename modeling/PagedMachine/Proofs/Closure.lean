import PagedMachine.Proofs.Governed
import PagedMachine.Proofs.Plain

/-!
# What depends on no address

`Closed P`: the property `P` of code holds of the parts that steps are made of, wherever they access
memory. Such a property holds of a whole step and of runs (`Closed.step`, `Closed.run`).
-/

set_option autoImplicit false

namespace PagedMachine.Machine

structure Closed (P : ∀ {ε α : Type}, EStateM ε Machine α → Prop) : Prop where
  pure {ε α : Type} (a : α) : P (pure a : EStateM ε Machine α)
  throw {ε α : Type} (e : ε) : P (throw e : EStateM ε Machine α)
  bind {ε α β : Type} {x : EStateM ε Machine α} {f : α → EStateM ε Machine β} :
    P x → (∀ a, P (f a)) → P (x >>= f)
  handle {ε ε' α : Type} {x : EStateM ε Machine α} {f : ε → EStateM ε' Machine α} :
    P x → (∀ e, P (f e)) → P (handle x f)
  /-- Code may look at the machine, apart from its caches. -/
  look {ε α : Type} {f : Machine → EStateM ε Machine α} :
    (∀ m memory, memory.ram = m.memory.ram → f { m with memory } = f m) → (∀ m, P (f m)) →
      P (get >>= f)
  /-- Code may use and change anything but memory. -/
  apart {ε α : Type} {fn : Machine → α × Machine} :
    (∀ m memory, fn { m with memory } = ((fn m).1, { (fn m).2 with memory })) →
      P (modifyGet fn : EStateM ε Machine α)
  ram {ε : Type} {fn : Ram → Ram} : (∀ r, (fn r).bytes.size = r.bytes.size) →
    P (modifyRam fn : EStateM ε Machine Unit)
  access (space : AddressSpace) (slot : Slot) (vaddr : UInt32) (access : Access) (user : Bool) :
    P (onMemory (Memory.resolve space slot vaddr access user))
  flush {ε : Type} : P (modifyMemory Memory.flush : EStateM ε Machine Unit)
  invalidatePath {ε : Type} : P (modifyMemory Memory.invalidatePath : EStateM ε Machine Unit)

namespace Closed

variable {P : ∀ {ε α : Type}, EStateM ε Machine α → Prop} (h : Closed P)

include h

theorem adapt {ε ε' α : Type} (fn : ε → ε') {x : EStateM ε Machine α} (hx : P x) :
    P (EStateM.adaptExcept fn x) := by
  rw [adaptExcept_eq_handle]
  exact h.handle hx fun e => h.throw _

theorem require {ε : Type} (ok : Bool) (e : ε) : P (require ok e : EStateM ε Machine Unit) := by
  cases ok with
  | true => exact h.pure ()
  | false => exact h.throw e

theorem getRegs {ε : Type} : P (getRegs : EStateM ε Machine Registers) :=
  h.look (fun _ _ _ => rfl) fun _ => h.pure _

theorem getRam {ε : Type} : P (getRam : EStateM ε Machine Ram) :=
  h.look (fun _ _ hr => by simp only [hr]) fun _ => h.pure _

theorem modify {ε : Type} {fn : Machine → Machine}
    (hf : ∀ m memory, fn { m with memory } = { fn m with memory }) :
    P (modify fn : EStateM ε Machine PUnit) :=
  h.apart fun m memory => by rw [hf]

/-- What user mode can do is among what code may do. -/
theorem plain : Plain P where
  pure := h.pure
  throw := h.throw
  bind := h.bind
  adapt fn _ := h.adapt fn
  getRegs := h.getRegs
  getRam := h.getRam
  modifyRegs _ := h.modify fun _ _ => rfl
  countBlock _ := h.modify fun _ _ => rfl
  current _ _ := h.modify fun _ _ => rfl
  ram := h.ram
  access := h.access

theorem setSpace (space : AddressSpace) : P (setSpace space) :=
  h.bind (h.modify fun _ _ => rfl) fun _ => h.flush

theorem governed : Governed P where
  pure := h.pure
  throw := h.throw
  bind := h.bind
  handle := h.handle
  look hf := h.look fun m memory _ => hf m memory
  apart hf _ := h.apart hf
  size hf := h.bind h.getRam fun _ => hf _
  reading := h.plain.addressed.reading
  reading₂ := h.plain.addressed.reading₂
  writing := h.plain.addressed.writing
  copying := h.plain.addressed.copying
  setDirectory _ := by
    refine h.bind h.getRegs fun r => h.bind h.getRam fun ram => ?_
    exact h.bind (h.require _ _) fun _ => h.setSpace _
  setPaging _ := h.bind h.getRegs fun _ => h.bind (h.require _ _) fun _ => h.setSpace _
  invalidatePath := h.invalidatePath

theorem executeNext : P executeNext := h.governed.executeNext

theorem step : P step := h.governed.step

theorem run (budget : UInt64) : P (run budget) := h.governed.run budget

end Closed

/-- What resolving and forgetting keep of memory, and changes of the bytes as well, all code keeps. -/
theorem closed_of_memory {I : Memory → Prop}
    (hram : ∀ fn : Ram → Ram, (∀ r, (fn r).bytes.size = r.bytes.size) →
      ∀ m : Memory, I m → I (m.mapRam fn))
    (haccess : ∀ (space : AddressSpace) (slot : Slot) (vaddr : UInt32) (access : Access)
      (user : Bool) (m : Memory), I m → I (stateOf (m.resolve space slot vaddr access user)))
    (hflush : ∀ m : Memory, I m → I m.flush) (hforget : ∀ m : Memory, I m → I m.invalidatePath) :
    Closed fun x => ∀ m, I m.memory → I (stateOf (x m)).memory where
  pure _ _ hi := hi
  throw _ _ hi := hi
  bind {_ _ _ x _} hx hf m hi := by
    have h1 := hx m hi
    rw [bind_apply]
    cases hr : x m with
    | ok a m1 => exact hf a m1 (by rwa [hr] at h1)
    | error e m1 => rwa [hr] at h1
  handle {_ _ _ x _} hx hf m hi := by
    have h1 := hx m hi
    rw [handle_apply]
    cases hr : x m with
    | ok a m1 => rwa [hr] at h1
    | error e m1 => exact hf e m1 (by rwa [hr] at h1)
  look _ hf m := hf m m
  apart {_ _ fn} hfn m hi := by
    rw [modifyGet_apply, stateOf_ok, show (fn m).2.memory = m.memory from
      congrArg (·.2.memory) (hfn m m.memory)]
    exact hi
  ram hfn m := hram _ hfn m.memory
  access space slot vaddr access user m hi := by
    have h := haccess space slot vaddr access user m.memory hi
    rw [onMemory_apply]
    cases hr : Memory.resolve space slot vaddr access user m.memory <;> rwa [hr] at h
  flush m := hflush m.memory
  invalidatePath m := hforget m.memory

end PagedMachine.Machine
