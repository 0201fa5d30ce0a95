import PagedMachine.Proofs.Parts

/-!
# What holds of every step

`Governed P`: the property `P` of code holds of the accesses, of what changes the address space and of
code apart from both, so it holds of the parts that a step is put together from (`Governed.parts`), of
the step and of runs. Less is asked than `Parts` gives: such code may do anything to the rest of the
machine.
-/

set_option autoImplicit false

namespace PagedMachine.Machine

structure Governed (P : ∀ {ε α : Type}, EStateM ε Machine α → Prop) : Prop where
  pure {ε α : Type} (a : α) : P (pure a : EStateM ε Machine α)
  throw {ε α : Type} (e : ε) : P (throw e : EStateM ε Machine α)
  bind {ε α β : Type} {x : EStateM ε Machine α} {f : α → EStateM ε Machine β} :
    P x → (∀ a, P (f a)) → P (x >>= f)
  handle {ε ε' α : Type} {x : EStateM ε Machine α} {f : ε → EStateM ε' Machine α} :
    P x → (∀ e, P (f e)) → P (handle x f)
  /-- Code may look at the machine, apart from memory. -/
  look {ε α : Type} {f : Machine → EStateM ε Machine α} :
    (∀ m memory, f { m with memory } = f m) → (∀ m, P (f m)) → P (get >>= f)
  /-- Code may use and change anything but memory and the address space. -/
  apart {ε α : Type} {fn : Machine → α × Machine} :
    (∀ m memory, fn { m with memory } = ((fn m).1, { (fn m).2 with memory })) →
      (∀ m, (fn m).2.regs.space = m.regs.space) → P (modifyGet fn : EStateM ε Machine α)
  size {ε α : Type} {f : UInt32 → EStateM ε Machine α} :
    (∀ size, P (f size)) → P (getRam >>= fun ram => f ram.size)
  reading {α : Type} {slot : Slot} {vaddr : UInt32} {access : Access} {n : Nat}
    {fault : Option Fault} {read : Ram → UInt32 → α} : vaddr.toNat % 4096 + n ≤ 4096 →
      Ram.ReadsAt n read → P (reading slot vaddr access n fault read)
  reading₂ {α : Type} {b a : UInt32} {n : Nat} {fault : Fault} {read : Ram → UInt32 → UInt32 → α} :
    b.toNat % 4096 + n ≤ 4096 → a.toNat % 4096 + n ≤ 4096 → Ram.ReadsAt₂ n read →
      P (reading₂ b a n fault read)
  writing {slot : Slot} {vaddr : UInt32} {fault : Option Fault} {data : ByteArray} :
    vaddr.toNat % 4096 + data.size ≤ 4096 → P (writing slot vaddr fault data)
  copying {b a : UInt32} {n : Nat} {fault : Fault} : b.toNat % 4096 + n ≤ 4096 →
    a.toNat % 4096 + n ≤ 4096 → P (copying b a n fault)
  setDirectory (i : Instruction) : P (perform .setDirectory i)
  setPaging (i : Instruction) : P (perform .setPaging i)
  invalidatePath {ε : Type} : P (modifyMemory Memory.invalidatePath : EStateM ε Machine Unit)

namespace Governed

variable {P : ∀ {ε α : Type}, EStateM ε Machine α → Prop} (h : Governed P)

include h

theorem parts : Parts P where
  pure := h.pure
  throw := h.throw
  bind := h.bind
  handle := h.handle
  look hf := h.look fun m memory => hf m { m with memory } ⟨rfl, rfl, ⟨rfl, rfl, rfl, rfl, rfl⟩⟩
  apart hfn := h.apart hfn.memory hfn.space
  sockets _ := h.apart (fun _ _ => rfl) fun _ => rfl
  size := h.size
  reading := h.reading
  reading₂ := h.reading₂
  writing := h.writing
  copying := h.copying
  setDirectory := h.setDirectory
  setPaging := h.setPaging
  invalidatePath := h.invalidatePath

theorem looksBack : LooksBack P := fun hf => h.look (fun _ _ => rfl) fun _ => hf _

theorem addressed : Addressed P P := h.parts.addressed

theorem raiseException (cause : Fault) : P (raiseException cause) :=
  h.parts.raiseException h.looksBack cause

theorem executeNext : P executeNext := h.parts.executeNext h.looksBack

theorem step : P step := h.parts.step h.looksBack

theorem run (budget : UInt64) : P (run budget) := h.parts.run h.looksBack budget

end Governed

/-! ## Transitions -/

section
variable {T : Machine → Machine → Prop}

/-- A transition that the accesses make, and what changes the address space, every step makes. -/
theorem governed_of_transitions (refl : ∀ m, T m m)
    (trans : ∀ {m m' m''}, T m m' → T m' m'' → T m m'')
    (apart : ∀ {m m' : Machine}, m'.memory = m.memory → m'.regs.space = m.regs.space → T m m')
    (resolve : ∀ slot vaddr access m, T m (stateOf (resolve slot vaddr access m)))
    (writing : ∀ {slot : Slot} {vaddr : UInt32} {fault : Option Fault} {data : ByteArray},
      vaddr.toNat % 4096 + data.size ≤ 4096 → ∀ m, T m (stateOf (writing slot vaddr fault data m)))
    (copying : ∀ {b a : UInt32} {n : Nat} {fault : Fault}, b.toNat % 4096 + n ≤ 4096 →
      a.toNat % 4096 + n ≤ 4096 → ∀ m, T m (stateOf (copying b a n fault m)))
    (setDirectory : ∀ i m, T m (stateOf (perform .setDirectory i m)))
    (setPaging : ∀ i m, T m (stateOf (perform .setPaging i m)))
    (forget : ∀ m : Machine, T m { m with memory := m.memory.invalidatePath }) :
    Governed fun x => ∀ m, T m (stateOf (x m)) where
  pure _ m := refl m
  throw _ m := refl m
  bind := transition_bind trans
  handle {_ _ _ x _} hx hf m := by
    have h := hx m
    rw [handle_apply]
    cases hr : x m with
    | ok a m₁ => rwa [hr] at h
    | error e m₁ =>
      rw [hr] at h
      exact trans h (hf e m₁)
  look _ hf m := hf m m
  apart hfn hspace m := apart (congrArg (·.2.memory) (hfn m m.memory)) (hspace m)
  size hf m := hf m.memory.ram.size m
  reading _ _ := transition_reading refl trans resolve
  reading₂ _ _ _ := transition_reading₂ refl trans resolve
  writing := writing
  copying := copying
  setDirectory := setDirectory
  setPaging := setPaging
  invalidatePath := forget

/-- A chunk of a block operation is such a transition as well. -/
theorem Governed.chunk (h : Governed fun x => ∀ m, T m (stateOf (x m))) (op : BlockOp) (m : Machine) :
    T m (stateOf (chunk op m)) := by
  cases op with
  | copy =>
    have hc := h.addressed.copyChunk m.regs.a m.regs.b m.regs.c m
    rw [copyChunk_apply] at hc
    cases hr : Machine.chunk .copy m <;> rwa [hr] at hc
  | compare =>
    rw [← compareChunk_apply]
    exact h.addressed.compareChunk m.regs.a m.regs.b m.regs.c m
  | scan =>
    rw [← scanChunk_apply]
    exact h.addressed.scanChunk m.regs.b.toUInt8 m.regs.a m.regs.c m
  | fill =>
    have hc := h.addressed.fillChunk m.regs.b.toUInt8 m.regs.a m.regs.c m
    rw [fillChunk_apply] at hc
    cases hr : Machine.chunk .fill m <;> rwa [hr] at hc

end

end PagedMachine.Machine
