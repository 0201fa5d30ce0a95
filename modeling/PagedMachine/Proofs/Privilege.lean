import PagedMachine.Proofs.PreciseFaults

/-!
# What user mode cannot reach

Code `Keeps` a part of the machine if it leaves it as it is, also where it stops. A part is `Shielded`
if it depends neither on memory nor on the registers that unprivileged operations change, so what is
made of those keeps it (`Shielded.plain`). In user mode no other operation runs: an instruction leaves
all of `Machine.privileged` (`Shielded.executeNext_user`) and stops for good only if its address is
not aligned (`executeNext_eq_fatal`).
-/

set_option autoImplicit false

namespace PagedMachine

namespace Machine

/-! ## Code that leaves a part of the machine -/

section
variable {β : Type} {part : Machine → β} {ε ε' α γ : Type}

/-- Code that leaves a part of the machine as it is. -/
def Keeps (part : Machine → β) {ε α : Type} (x : EStateM ε Machine α) : Prop :=
  ∀ m, part (stateOf (x m)) = part m

theorem Keeps.of_ok {x : EStateM ε Machine α} {m m' : Machine} {a : α} (hx : Keeps part x)
    (h : x m = .ok a m') : part m' = part m := by
  have hm := hx m
  rwa [h] at hm

theorem Keeps.of_error {x : EStateM ε Machine α} {m m' : Machine} {e : ε} (hx : Keeps part x)
    (h : x m = .error e m') : part m' = part m := by
  have hm := hx m
  rwa [h] at hm

theorem Keeps.pure (a : α) : Keeps part (pure a : EStateM ε Machine α) := fun _ => rfl

theorem Keeps.throw (e : ε) : Keeps part (throw e : EStateM ε Machine α) := fun _ => rfl

theorem Keeps.bind {x : EStateM ε Machine α} {f : α → EStateM ε Machine γ} (hx : Keeps part x)
    (hf : ∀ a, Keeps part (f a)) : Keeps part (x >>= f) := by
  intro m
  have hm := hx m
  rw [bind_apply]
  cases hr : x m with
  | ok a m₁ =>
    rw [hr] at hm
    exact (hf a m₁).trans hm
  | error e m₁ => rwa [hr] at hm

theorem Keeps.adapt (fn : ε → ε') {x : EStateM ε Machine α} (hx : Keeps part x) :
    Keeps part (EStateM.adaptExcept fn x) := by
  intro m
  have hm := hx m
  rw [adaptExcept_apply]
  cases hr : x m <;> rwa [hr] at hm

theorem Keeps.modifyGet {fn : Machine → α × Machine} (h : ∀ m, part (fn m).2 = part m) :
    Keeps part (modifyGet fn : EStateM ε Machine α) := h

theorem Keeps.modify {fn : Machine → Machine} (h : ∀ m, part (fn m) = part m) :
    Keeps part (modify fn : EStateM ε Machine PUnit) := h

/-- A part of the machine that has neither memory nor the registers of user mode. -/
def Shielded (part : Machine → β) : Prop :=
  ∀ (m : Machine) a b c f g sp pc memory ipc ir blockBytes,
    part { m with regs := { m.regs with a, b, c, f, g, sp, pc }, memory, ipc, ir, blockBytes } = part m

/-- What unprivileged operations are made of keeps a shielded part. -/
theorem Shielded.plain (h : Shielded part) : Plain (Keeps part) where
  pure := .pure
  throw := .throw
  bind := .bind
  adapt := .adapt
  getRegs _ := rfl
  getRam _ := rfl
  modifyRegs {_ fn} hfn m := by
    obtain ⟨a, b, c, f, g, sp, pc, hfn⟩ := hfn m.regs
    rw [modifyRegs_apply, stateOf_ok, hfn]
    exact h m a b c f g sp pc m.memory m.ipc m.ir m.blockBytes
  countBlock n m := h m m.regs.a m.regs.b m.regs.c m.regs.f m.regs.g m.regs.sp m.regs.pc m.memory
    m.ipc m.ir (m.blockBytes + n.toNat)
  current ipc ir m := h m m.regs.a m.regs.b m.regs.c m.regs.f m.regs.g m.regs.sp m.regs.pc m.memory
    (ipc m.ipc) (ir m.ir) m.blockBytes
  ram {_ fn} _ m := h m m.regs.a m.regs.b m.regs.c m.regs.f m.regs.g m.regs.sp m.regs.pc
    (m.memory.mapRam fn) m.ipc m.ir m.blockBytes
  access space slot vaddr access user m := by
    rw [onMemory_apply]
    cases Memory.resolve space slot vaddr access user m.memory with
    | ok pa memory =>
      exact h m m.regs.a m.regs.b m.regs.c m.regs.f m.regs.g m.regs.sp m.regs.pc memory m.ipc m.ir
        m.blockBytes
    | error fault memory =>
      exact h m m.regs.a m.regs.b m.regs.c m.regs.f m.regs.g m.regs.sp m.regs.pc memory m.ipc m.ir
        m.blockBytes

/-- An instruction of user mode keeps a shielded part. -/
theorem Shielded.executeNext_user (h : Shielded part) {m : Machine} (hu : m.regs.user = true) :
    part (stateOf (executeNext m)) = part m := by
  rw [executeNext_of_user hu]
  exact h.plain.addressed.executeUnprivileged m

end

/-! ## In user mode -/

/-- The registers and devices that only the kernel may use. -/
def privileged (m : Machine) : Registers × Timer × Bridge × List Event :=
  ({ m.regs with a := 0, b := 0, c := 0, f := Double.zero, g := Double.zero, sp := 0, pc := 0 },
    m.timer, m.bridge, m.journal)

theorem shielded_privileged : Shielded privileged := fun _ _ _ _ _ _ _ _ _ _ _ _ => rfl

/-- What is privileged is all but memory, the instruction at hand and the registers of user mode. -/
theorem eq_of_privileged {m m' : Machine} (h : m'.privileged = m.privileged) :
    ∃ a b c f g sp pc memory ipc ir blockBytes, m' = { m with
      regs := { m.regs with a, b, c, f, g, sp, pc }, memory, ipc, ir, blockBytes } := by
  obtain ⟨⟨⟩⟩ := m
  obtain ⟨⟨⟩⟩ := m'
  simp only [privileged, Prod.mk.injEq, Registers.mk.injEq] at h
  obtain ⟨⟨-, -, -, -, -, -, -, rfl, rfl, rfl, rfl, rfl, rfl, rfl, rfl, rfl, rfl⟩, rfl, rfl, rfl⟩ := h
  exact ⟨_, _, _, _, _, _, _, _, _, _, _, rfl⟩

section
variable {m m' : Machine} (hu : m.regs.user = true)
include hu

/-- User mode may not move bytes of sockets. -/
theorem not_transfers : ¬Transfers m := by
  rintro ⟨hkernel, -⟩
  rw [hu] at hkernel
  cases hkernel

/-- Only an address that is not aligned is fatal to an instruction of user mode. -/
theorem executeNext_eq_fatal {reason : FatalReason} (h : executeNext m = .error (.fatal reason) m') :
    reason = .misalignedPc m.regs.pc := by
  rcases executeNext_eq_error h with
    hfetch | ⟨i, -, hstop | hstop⟩ | ⟨i, op, m₁, hfetch, -, hop, hexecute⟩
  · rcases fetch_eq_error hfetch with ⟨hstop, -⟩ | ⟨cause, memory, hstop, -⟩
    · exact Stop.fatal.inj hstop
    · cases hstop
  · cases hstop
  · cases hstop
  · have hplain := hop ((user_of_fetch hfetch).trans hu)
    rcases execute_eq_error hexecute with ⟨rfl, -⟩ | hperform
    · cases hplain
    · have hfd : op = .network .receive ∨ op = .network .send →
          m₁.bridge.sockets.owned? m₁.regs.a = none := by
        rintro (rfl | rfl) <;> cases hplain
      rcases stopsAt_perform hperform hfd with ⟨⟨cause, hstop⟩, -⟩ | ⟨rfl | rfl, -⟩
      · cases hstop
      · cases hplain
      · cases hplain

end

end Machine

end PagedMachine
