import PagedMachine.Proofs.FastPath
import PagedMachine.Proofs.Hidden

/-!
# Code that hidden bytes make no difference to

Two machines are alike but for hidden bytes of memory. Code in user mode that reads ends alike from
both, as long as no page with a hidden byte is in its sight (`Machine.Reads`). A store may bring one
into sight, by a change of the tables, so it has to be the last access (`Machine.Stores`). With these as
the parts, `addressed_alike` covers the unprivileged operations that make one access to store.
-/

set_option autoImplicit false

namespace PagedMachine

namespace Machine

variable {hidden : Nat → Prop}

/-! ## Machines that are alike -/

section
variable {ε ε' α β : Type} {m : Machine}

/-- Whether code ends alike from all machines that differ from `m` in hidden bytes only. -/
def Alike (hidden : Nat → Prop) (x : EStateM ε Machine α) (m : Machine) : Prop :=
  ∀ ram, Ram.SameBut hidden m.memory.ram ram → ∃ ram',
    Ram.SameBut hidden (stateOf (x m)).memory.ram ram' ∧
      x (m.withRam ram) = mapState (·.withRam ram') (x m)

namespace Alike

/-- Code that neither looks at memory nor changes it. -/
theorem of_apart {x : EStateM ε Machine α}
    (hx : ∀ ram, x (m.withRam ram) = mapState (·.withRam ram) (x m))
    (hm : (stateOf (x m)).memory.ram = m.memory.ram) : Alike hidden x m :=
  fun ram hs => ⟨ram, by rwa [hm], hx ram⟩

/-- Code that is other code from another place, with the same memory. -/
theorem of_moved {x y : EStateM ε Machine α} {m' : Machine} (hy : Alike hidden y m')
    (hm : m'.memory.ram = m.memory.ram) (h : x m = y m')
    (hram : ∀ ram, x (m.withRam ram) = y (m'.withRam ram)) : Alike hidden x m := by
  intro ram hs
  rw [h, hram]
  exact hy ram (hm ▸ hs)

theorem of_eq {x y : EStateM ε Machine α} (hy : Alike hidden y m) (h : x m = y m)
    (hram : ∀ ram, x (m.withRam ram) = y (m.withRam ram)) : Alike hidden x m :=
  hy.of_moved rfl h hram

theorem bind {x : EStateM ε Machine α} {f : α → EStateM ε Machine β} (hx : Alike hidden x m)
    (hf : ∀ a m₁, x m = .ok a m₁ → Alike hidden (f a) m₁) : Alike hidden (x >>= f) m := by
  intro ram hs
  obtain ⟨ram₁, hs₁, heq⟩ := hx ram hs
  rw [bind_apply, bind_apply, heq]
  cases hr : x m with
  | ok a m₁ =>
    rw [hr] at hs₁
    exact hf a m₁ hr ram₁ hs₁
  | error e m₁ =>
    rw [hr] at hs₁
    exact ⟨ram₁, hs₁, rfl⟩

theorem handle {x : EStateM ε Machine α} {f : ε → EStateM ε' Machine α} (hx : Alike hidden x m)
    (hf : ∀ e m₁, x m = .error e m₁ → Alike hidden (f e) m₁) : Alike hidden (handle x f) m := by
  intro ram hs
  obtain ⟨ram₁, hs₁, heq⟩ := hx ram hs
  rw [handle_apply, handle_apply, heq]
  cases hr : x m with
  | ok a m₁ =>
    rw [hr] at hs₁
    exact ⟨ram₁, hs₁, rfl⟩
  | error e m₁ =>
    rw [hr] at hs₁
    exact hf e m₁ hr ram₁ hs₁

end Alike

end

/-! ## What is in sight -/

/-- A machine whose caches remember no page for user mode that has a hidden byte. -/
structure Veiled (hidden : Nat → Prop) (m : Machine) : Prop where
  caches : m.memory.Secures hidden m.regs.space
  paging : m.regs.space.paging = true

/-- One whose tables open none either. -/
structure Sealed (hidden : Nat → Prop) (m : Machine) : Prop extends Veiled hidden m where
  tables : m.memory.ram.Secures hidden m.regs.space

theorem Veiled.of_eq {m m' : Machine} (h : m.Veiled hidden) (hm : m'.memory = m.memory)
    (hs : m'.regs.space = m.regs.space) : m'.Veiled hidden :=
  ⟨by rw [hm, hs]; exact h.caches, by rw [hs]; exact h.paging⟩

theorem Sealed.of_eq {m m' : Machine} (h : m.Sealed hidden) (hm : m'.memory = m.memory)
    (hs : m'.regs.space = m.regs.space) : m'.Sealed hidden :=
  ⟨h.toVeiled.of_eq hm hs, by rw [hm, hs]; exact h.tables⟩

/-- What is written changes the tables at most. -/
theorem Veiled.mapRam {m : Machine} (h : m.Veiled hidden) {fn : Ram → Ram}
    (hs : (fn m.memory.ram).bytes.size = m.memory.ram.bytes.size) :
    Veiled hidden { m with memory := m.memory.mapRam fn } :=
  ⟨h.caches.mapRam hs, h.paging⟩

namespace Sealed

variable {m : Machine} (h : m.Sealed hidden)
include h

theorem inside : m.Inside := h.caches.inside

theorem inside_withRam {ram : Ram} (hs : Ram.SameBut hidden m.memory.ram ram) :
    (m.withRam ram).Inside :=
  Memory.Inside.of_size h.inside hs.size ⟨h.inside.frames.tlb, h.inside.frames.path⟩

theorem resolve (slot : Slot) (vaddr : UInt32) (access : Access) :
    Alike hidden (resolve slot vaddr access) m ∧
      (stateOf (Machine.resolve slot vaddr access m)).Sealed hidden := by
  have hs := h.caches.resolve h.tables slot vaddr access m.regs.user h.paging
  refine ⟨fun ram hram => ?_, ?_⟩
  · obtain ⟨ram', hram', heq⟩ :=
      h.caches.resolve_sameBut h.tables slot vaddr access m.regs.user hram
    refine ⟨ram', ?_, ?_⟩
    · rw [resolve_apply]
      cases hr : Memory.resolve m.regs.space slot vaddr access m.regs.user m.memory <;>
        rwa [hr] at hram'
    · rw [resolve_apply, resolve_apply, withRam]
      dsimp only
      rw [heq]
      cases Memory.resolve m.regs.space slot vaddr access m.regs.user m.memory <;> rfl
  · rw [resolve_apply]
    cases hr : Memory.resolve m.regs.space slot vaddr access m.regs.user m.memory <;>
      rw [hr] at hs <;> exact ⟨⟨hs.1, h.paging⟩, hs.2⟩

/-- The bytes that user mode may access are in sight. -/
theorem not_hidden (hu : m.regs.user = true) (hn : m.memory.tlb.epoch < UInt64.size) {slot : Slot}
    {vaddr pa : UInt32} {access : Access} {m' : Machine}
    (hr : Machine.resolve slot vaddr access m = .ok pa m') {k : Nat}
    (hk : vaddr.toNat % 4096 + k < 4096) : ¬hidden (pa.toNat + k) := by
  rw [resolve_apply, hu] at hr
  cases hc : Memory.resolve m.regs.space slot vaddr access true m.memory with
  | ok pa' memory =>
    rw [hc] at hr
    obtain ⟨rfl, -⟩ := EStateM.Result.ok.inj hr
    exact h.caches.not_hidden h.tables h.paging hn hc hk
  | error fault memory =>
    rw [hc] at hr
    cases hr

/-- Two addresses that user mode resolves one after the other. -/
theorem not_hidden₂ (hu : m.regs.user = true) {m₁ m₂ : Machine}
    (hn : m₂.memory.tlb.epoch < UInt64.size) {b a pb pa : UInt32} {access access' : Access}
    (hrb : Machine.resolve .data b access m = .ok pb m₁)
    (hra : Machine.resolve .data a access' m₁ = .ok pa m₂) {n : Nat}
    (hb : b.toNat % 4096 + n ≤ 4096) (ha : a.toNat % 4096 + n ≤ 4096) :
    (∀ k < n, ¬hidden (pb.toNat + k)) ∧ ∀ k < n, ¬hidden (pa.toNat + k) := by
  have hblind vaddr access : Blind (Machine.resolve .data vaddr access) :=
    Blind.closed.governed.addressed.resolve .data vaddr access
  have hle := (hblind a access').epoch m₁
  have hle' := (hblind b access).epoch m
  have h₁ := (h.resolve .data b access).2
  rw [hra, stateOf_ok] at hle
  rw [hrb, stateOf_ok] at hle' h₁
  have hn₁ := Nat.lt_of_le_of_lt hle hn
  have hu₁ : m₁.regs.user = true := by rw [regs_resolve hrb, hu]
  exact ⟨fun k hk => h.not_hidden hu (Nat.lt_of_le_of_lt hle' hn₁) hrb (by omega),
    fun k hk => h₁.not_hidden hu₁ hn₁ hra (by omega)⟩

end Sealed

/-! ## Code that reads and code that stores -/

/-- How code ends that may have stored: hidden bytes made no difference, and if the code stopped, none
came into sight. -/
structure Ends {ε α : Type} (hidden : Nat → Prop) (x : EStateM ε Machine α) (m : Machine) : Prop where
  alike : Alike hidden x m
  veiled : (stateOf (x m)).Veiled hidden
  user : (stateOf (x m)).regs.user = m.regs.user
  stopped : ∀ e m', x m = .error e m' → m'.Sealed hidden

/-- Code of user mode that reads, as far as epochs are told apart. -/
structure Reads {ε α : Type} (hidden : Nat → Prop) (x : EStateM ε Machine α) : Prop where
  blind : Blind x
  ends : ∀ m, m.Sealed hidden → m.regs.user = true →
    (stateOf (x m)).memory.tlb.epoch < UInt64.size → Ends hidden x m
  after : ∀ m, m.Sealed hidden → m.regs.user = true →
    (stateOf (x m)).memory.tlb.epoch < UInt64.size → (stateOf (x m)).Sealed hidden

/-- Code of user mode that may store, but does not access memory after that. -/
structure Stores {ε α : Type} (hidden : Nat → Prop) (x : EStateM ε Machine α) : Prop where
  blind : Blind x
  ends : ∀ m, m.Sealed hidden → m.regs.user = true →
    (stateOf (x m)).memory.tlb.epoch < UInt64.size → Ends hidden x m

section
variable {ε ε' α β : Type}

theorem Ends.pure {m : Machine} (h : m.Veiled hidden) (a : α) :
    Ends hidden (pure a : EStateM ε Machine α) m :=
  ⟨.of_apart (fun _ => rfl) rfl, h, rfl, fun e m' hr => by cases hr⟩

theorem Ends.of_eq {x y : EStateM ε Machine α} {m : Machine} (hy : Ends hidden y m) (h : x m = y m)
    (hram : ∀ ram, x (m.withRam ram) = y (m.withRam ram)) : Ends hidden x m :=
  ⟨hy.alike.of_eq h hram, by rw [h]; exact hy.veiled, by rw [h]; exact hy.user,
    fun e m' hr => hy.stopped e m' (h ▸ hr)⟩

theorem Ends.bind {x : EStateM ε Machine α} {f : α → EStateM ε Machine β} {m : Machine}
    (hx : Ends hidden x m) (hf : ∀ a m₁, x m = .ok a m₁ → Ends hidden (f a) m₁) :
    Ends hidden (x >>= f) m := by
  have hveiled := hx.veiled
  have huser := hx.user
  refine ⟨hx.alike.bind fun a m₁ hr => (hf a m₁ hr).alike, ?_, ?_, fun e m' hr => ?_⟩
  · rw [bind_apply]
    cases hr : x m with
    | ok a m₁ => exact (hf a m₁ hr).veiled
    | error e m₁ => rwa [hr] at hveiled
  · rw [bind_apply]
    cases hr : x m with
    | ok a m₁ =>
      rw [hr] at huser
      exact (hf a m₁ hr).user.trans huser
    | error e m₁ => rwa [hr] at huser
  · rcases bind_eq_error_iff.1 hr with hr | ⟨a, m₁, hr, hr'⟩
    · exact hx.stopped e m' hr
    · exact (hf a m₁ hr).stopped e m' hr'

/-- Errors that are named anew. -/
theorem Ends.adapt {x : EStateM ε Machine α} {m : Machine} (hx : Ends hidden x m) (fn : ε → ε') :
    Ends hidden (EStateM.adaptExcept fn x) m := by
  have hstate : stateOf (EStateM.adaptExcept fn x m) = stateOf (x m) := by
    rw [adaptExcept_apply]
    cases x m <;> rfl
  refine ⟨?_, by rw [hstate]; exact hx.veiled, by rw [hstate]; exact hx.user, fun e m' hr => ?_⟩
  · rw [adaptExcept_eq_handle]
    exact hx.alike.handle fun e m₁ _ => .of_apart (fun _ => rfl) rfl
  · rw [adaptExcept_apply] at hr
    cases hr' : x m with
    | ok a m₁ =>
      rw [hr'] at hr
      cases hr
    | error e₁ m₁ =>
      rw [hr'] at hr
      obtain ⟨-, rfl⟩ := EStateM.Result.error.inj hr
      exact hx.stopped e₁ m₁ hr'

/-- What comes before a continuation does not pass more epochs than both. -/
theorem epoch_lt_of_bind {x : EStateM ε Machine α} {f : α → EStateM ε Machine β}
    (hf : ∀ a, Blind (f a)) {m : Machine}
    (hn : (stateOf ((x >>= f) m)).memory.tlb.epoch < UInt64.size) :
    (stateOf (x m)).memory.tlb.epoch < UInt64.size ∧
      ∀ a m₁, x m = .ok a m₁ → (stateOf (f a m₁)).memory.tlb.epoch < UInt64.size := by
  rw [bind_apply] at hn
  cases hr : x m with
  | ok a m₁ =>
    rw [hr] at hn
    have hle : m₁.memory.tlb.epoch ≤ (stateOf (f a m₁)).memory.tlb.epoch := (hf a).epoch m₁
    refine ⟨Nat.lt_of_le_of_lt hle hn, fun a' m' h => ?_⟩
    obtain ⟨rfl, rfl⟩ := EStateM.Result.ok.inj h
    exact hn
  | error e m₁ =>
    rw [hr] at hn
    refine ⟨hn, fun a m' h => ?_⟩
    cases h

/-- What was read leaves the machine as the continuation needs it. -/
theorem Reads.bind_ends {x : EStateM ε Machine α} {f : α → EStateM ε Machine β}
    (hx : Reads hidden x) (hf : ∀ a, Blind (f a)) {m : Machine} (h : m.Sealed hidden)
    (hu : m.regs.user = true) (hn : (stateOf ((x >>= f) m)).memory.tlb.epoch < UInt64.size)
    (hrest : ∀ a m₁, x m = .ok a m₁ → m₁.Sealed hidden → m₁.regs.user = true →
      (stateOf (f a m₁)).memory.tlb.epoch < UInt64.size → Ends hidden (f a) m₁) :
    Ends hidden (x >>= f) m := by
  obtain ⟨hn₁, hn₂⟩ := epoch_lt_of_bind hf hn
  have hends := hx.ends m h hu hn₁
  refine hends.bind fun a m₁ hr => ?_
  have h₁ := hx.after m h hu hn₁
  have hu₁ := hends.user
  rw [hr, stateOf_ok] at h₁ hu₁
  exact hrest a m₁ hr h₁ (hu₁.trans hu) (hn₂ a m₁ hr)

theorem Reads.bind {x : EStateM ε Machine α} {f : α → EStateM ε Machine β} (hx : Reads hidden x)
    (hf : ∀ a, Reads hidden (f a)) : Reads hidden (x >>= f) := by
  refine ⟨hx.blind.bind fun a => (hf a).blind, fun m h hu hn => ?_, fun m h hu hn => ?_⟩
  · exact hx.bind_ends (fun a => (hf a).blind) h hu hn fun a m₁ _ => (hf a).ends m₁
  · obtain ⟨hn₁, hn₂⟩ := epoch_lt_of_bind (fun a => (hf a).blind) hn
    have h₁ := hx.after m h hu hn₁
    have hu₁ := (hx.ends m h hu hn₁).user
    rw [bind_apply]
    cases hr : x m with
    | ok a m₁ =>
      rw [hr, stateOf_ok] at h₁ hu₁
      exact (hf a).after m₁ h₁ (hu₁.trans hu) (hn₂ a m₁ hr)
    | error e m₁ => rwa [hr] at h₁

theorem Reads.adapt {x : EStateM ε Machine α} (hx : Reads hidden x) (fn : ε → ε') :
    Reads hidden (EStateM.adaptExcept fn x) := by
  have hstate (m : Machine) : stateOf (EStateM.adaptExcept fn x m) = stateOf (x m) := by
    rw [adaptExcept_apply]
    cases x m <;> rfl
  refine ⟨Blind.closed.adapt fn hx.blind, fun m h hu hn => ?_, fun m h hu hn => ?_⟩
  · rw [hstate] at hn
    exact (hx.ends m h hu hn).adapt fn
  · rw [hstate] at hn ⊢
    exact hx.after m h hu hn

/-- Code that does not look at memory and leaves the mode and the address space. -/
theorem Reads.of_apart {x : EStateM ε Machine α} (hb : Blind x)
    (hx : ∀ m ram, x (m.withRam ram) = mapState (·.withRam ram) (x m))
    (hm : ∀ m, (stateOf (x m)).memory = m.memory)
    (hr : ∀ m, (stateOf (x m)).regs.space = m.regs.space ∧ (stateOf (x m)).regs.user = m.regs.user) :
    Reads hidden x := by
  have hsealed m (h : m.Sealed hidden) : (stateOf (x m)).Sealed hidden := h.of_eq (hm m) (hr m).1
  refine ⟨hb, fun m h _ _ => ⟨.of_apart (hx m) (by rw [hm]), (hsealed m h).toVeiled, (hr m).2,
    fun e m' he => ?_⟩, fun m h _ _ => hsealed m h⟩
  have hs := hsealed m h
  rwa [he] at hs

theorem Reads.stores {x : EStateM ε Machine α} (hx : Reads hidden x) : Stores hidden x :=
  ⟨hx.blind, hx.ends⟩

theorem Reads.before {x : EStateM ε Machine α} {f : α → EStateM ε Machine β}
    (hx : Reads hidden x) (hf : ∀ a, Stores hidden (f a)) : Stores hidden (x >>= f) :=
  ⟨hx.blind.bind fun a => (hf a).blind, fun _ h hu hn => hx.bind_ends (fun a => (hf a).blind) h hu hn
    fun a m₁ _ => (hf a).ends m₁⟩

theorem Stores.adapt {x : EStateM ε Machine α} (hx : Stores hidden x) (fn : ε → ε') :
    Stores hidden (EStateM.adaptExcept fn x) := by
  refine ⟨Blind.closed.adapt fn hx.blind, fun m h hu hn => ?_⟩
  rw [adaptExcept_apply] at hn
  refine (hx.ends m h hu ?_).adapt fn
  cases hr : x m <;> rwa [hr] at hn

/-- Code without an access that does not stop may come after a store. -/
theorem Ends.after {x : EStateM ε Machine Unit} {f : Unit → EStateM ε Machine α} {m : Machine}
    (hx : Ends hidden x m)
    (hf : ∀ u m, ∃ a m', f u m = .ok a m' ∧ m'.memory = m.memory ∧ m'.regs.space = m.regs.space ∧
      m'.regs.user = m.regs.user ∧ ∀ ram, f u (m.withRam ram) = .ok a (m'.withRam ram)) :
    Ends hidden (x >>= f) m := by
  refine hx.bind fun u m₁ hr => ?_
  have hveiled := hx.veiled
  rw [hr, stateOf_ok] at hveiled
  obtain ⟨a, m', heq, hm, hs, hu, hram⟩ := hf u m₁
  refine ⟨.of_apart (fun ram => ?_) ?_, ?_, ?_, fun e m₂ he => ?_⟩
  · rw [hram, heq]
    rfl
  · rw [heq, stateOf_ok, hm]
  · rw [heq]
    exact hveiled.of_eq hm hs
  · rw [heq]
    exact hu
  · rw [heq] at he
    cases he

theorem Stores.after {x : EStateM ε Machine Unit} {f : Unit → EStateM ε Machine α}
    (hx : Stores hidden x) (hb : ∀ u, Blind (f u))
    (hf : ∀ u m, ∃ a m', f u m = .ok a m' ∧ m'.memory = m.memory ∧ m'.regs.space = m.regs.space ∧
      m'.regs.user = m.regs.user ∧ ∀ ram, f u (m.withRam ram) = .ok a (m'.withRam ram)) :
    Stores hidden (x >>= f) :=
  ⟨hx.blind.bind hb, fun m h hu hn => (hx.ends m h hu (epoch_lt_of_bind hb hn).1).after hf⟩

end

/-! ## Accesses -/

/-- Reading makes no difference where the bytes are in sight, which user mode may access. -/
theorem reads_reading {α : Type} {slot : Slot} {vaddr : UInt32} {access : Access} {n : Nat}
    {fault : Option Fault} {read : Ram → UInt32 → α} (hn : vaddr.toNat % 4096 + n ≤ 4096)
    (hread : Ram.ReadsAt n read) : Reads hidden (reading slot vaddr access n fault read) := by
  have hblind : Blind (reading slot vaddr access n fault read) :=
    Blind.closed.governed.reading hn hread
  have hafter m (h : m.Sealed hidden) :
      (stateOf (reading slot vaddr access n fault read m)).Sealed hidden := by
    have hsealed := (h.resolve slot vaddr access).2
    rw [reading_apply h.inside hn]
    cases hr : resolve slot vaddr access m <;> rwa [hr] at hsealed
  refine ⟨hblind, fun m h hu hb => ⟨fun ram hram => ?_, (hafter m h).toVeiled, ?_, fun e m' hr => ?_⟩,
    fun m h _ _ => hafter m h⟩
  · have hlt := Nat.lt_of_le_of_lt (hblind.epoch m) hb
    obtain ⟨ram', hram', heq⟩ := (h.resolve slot vaddr access).1 ram hram
    rw [reading_apply h.inside hn, reading_apply (h.inside_withRam hram) hn, heq]
    refine ⟨ram', ?_, ?_⟩
    · cases hr : resolve slot vaddr access m <;> rwa [hr] at hram'
    · cases hr : resolve slot vaddr access m with
      | ok pa m' =>
        rw [hr, stateOf_ok] at hram'
        have hsame := hram'.read hread (h.inside.holds hr hn) fun k hk =>
          h.not_hidden hu hlt hr (by omega)
        exact congrArg (fun a => EStateM.Result.ok a (m'.withRam ram')) hsame
      | error e m' => rfl
  · rw [reading_apply h.inside hn, resolve_apply]
    cases Memory.resolve m.regs.space slot vaddr access m.regs.user m.memory <;> rfl
  · have hsealed := hafter m h
    rwa [hr] at hsealed

theorem user_resolve (slot : Slot) (vaddr : UInt32) (access : Access) (m : Machine) :
    (stateOf (resolve slot vaddr access m)).regs.user = m.regs.user := by
  rw [resolve_apply]
  cases Memory.resolve m.regs.space slot vaddr access m.regs.user m.memory <;> rfl

theorem reads_resolve (slot : Slot) (vaddr : UInt32) (access : Access) :
    Reads hidden (resolve slot vaddr access) := by
  rw [resolve_eq]
  exact reads_reading (Nat.le_of_lt (Nat.mod_lt _ (by decide))) Ram.readsAt_address

/-- Two addresses are resolved, and then used without a further access. -/
theorem Sealed.ends_resolve₂ {α : Type} {b a : UInt32} {access : Access} {n : Nat}
    {tail : UInt32 → UInt32 → Guarded α} (htail : ∀ pb pa, Blind (tail pb pa)) {m : Machine}
    (h : m.Sealed hidden) (hu : m.regs.user = true)
    (hb : b.toNat % 4096 + n ≤ 4096) (ha : a.toNat % 4096 + n ≤ 4096)
    (hn : (stateOf ((Machine.resolve .data b .load >>= fun pb =>
      Machine.resolve .data a access >>= fun pa => tail pb pa) m)).memory.tlb.epoch < UInt64.size)
    (hrest : ∀ pb pa m₂, m₂.Sealed hidden → m₂.memory.ram.holds pb n = true →
      m₂.memory.ram.holds pa n = true → (∀ k < n, ¬hidden (pb.toNat + k)) →
      (∀ k < n, ¬hidden (pa.toNat + k)) → Ends hidden (tail pb pa) m₂) :
    Ends hidden (Machine.resolve .data b .load >>= fun pb =>
      Machine.resolve .data a access >>= fun pa => tail pb pa) m := by
  have hresolve vaddr access : Blind (Machine.resolve .data vaddr access) :=
    Blind.closed.plain.resolve .data vaddr access
  obtain ⟨hn₁, hn'⟩ := epoch_lt_of_bind (fun pb => (hresolve a access).bind (htail pb)) hn
  refine ((reads_resolve .data b .load).ends m h hu hn₁).bind fun pb m₁ hrb => ?_
  have h₁ := (h.resolve .data b .load).2
  rw [hrb, stateOf_ok] at h₁
  have hu₁ : m₁.regs.user = true := by rw [regs_resolve hrb, hu]
  obtain ⟨hn₂, hn''⟩ := epoch_lt_of_bind (htail pb) (hn' pb m₁ hrb)
  refine ((reads_resolve .data a access).ends m₁ h₁ hu₁ hn₂).bind fun pa m₂ hra => ?_
  have h₂ := (h₁.resolve .data a access).2
  rw [hra, stateOf_ok] at h₂ hn₂
  obtain ⟨hpb, hpa⟩ := h.inside.holds₂ hrb hra hb ha
  obtain ⟨hkb, hka⟩ := h.not_hidden₂ hu hn₂ hrb hra hb ha
  exact hrest pb pa m₂ h₂ hpb hpa hkb hka

theorem reads_reading₂ {α : Type} {b a : UInt32} {n : Nat} {fault : Fault}
    {read : Ram → UInt32 → UInt32 → α} (hb : b.toNat % 4096 + n ≤ 4096)
    (ha : a.toNat % 4096 + n ≤ 4096) (hread : Ram.ReadsAt₂ n read) :
    Reads hidden (reading₂ b a n fault read) := by
  refine ⟨Blind.closed.governed.reading₂ hb ha hread, fun m h hu hn => ?_, fun m h _ _ => ?_⟩
  · refine h.ends_resolve₂ (fun pb pa => ?_) hu hb ha hn fun pb pa m₂ h₂ hpb hpa hkb hka => ?_
    · exact Blind.closed.getRam.bind fun ram => (Blind.closed.require _ _).bind fun _ => .pure _
    · have hcheck (m : Machine) (hpb : m.memory.ram.holds pb n = true)
          (hpa : m.memory.ram.holds pa n = true) :
          (getRam >>= fun ram => require (ram.holds pa n && ram.holds pb n) fault >>= fun _ =>
            pure (read ram pa pb) : Guarded α) m = .ok (read m.memory.ram pa pb) m := by
        simp only [bind_apply, getRam_apply, require_apply, hpa, hpb, Bool.and_self, if_true,
          pure_apply]
      refine ⟨fun ram hram => ⟨ram, ?_, ?_⟩, ?_, ?_, fun e m' hr => ?_⟩
      · rw [hcheck m₂ hpb hpa]
        exact hram
      · have hsame : read ram pa pb = read m₂.memory.ram pa pb :=
          hread _ _ pa pb ((hram.holds ..).trans hpa) ((hram.holds ..).trans hpb) hpa hpb
            (fun k hk => hram.byte _ (hka k hk)) fun k hk => hram.byte _ (hkb k hk)
        rw [hcheck m₂ hpb hpa, hcheck (m₂.withRam ram) ((hram.holds ..).trans hpb)
          ((hram.holds ..).trans hpa)]
        exact congrArg (fun a => EStateM.Result.ok a (m₂.withRam ram)) hsame
      · rw [hcheck m₂ hpb hpa]
        exact h₂.toVeiled
      · rw [hcheck m₂ hpb hpa]
        rfl
      · rw [hcheck m₂ hpb hpa] at hr
        cases hr
  · rw [reading₂_apply h.inside hb ha]
    have h₁ := (h.resolve .data b .load).2
    cases hrb : resolve .data b .load m with
    | error e m₁ => rwa [hrb] at h₁
    | ok pb m₁ =>
      rw [hrb, stateOf_ok] at h₁
      have h₂ := (h₁.resolve .data a .load).2
      dsimp only
      cases hra : resolve .data a .load m₁ <;> rwa [hra] at h₂

/-- The same bytes at the same place make no difference, in any mode. -/
theorem Sealed.ends_writing {m : Machine} (h : m.Sealed hidden) {slot : Slot} {vaddr : UInt32}
    {fault : Option Fault} {data : ByteArray} (hn : vaddr.toNat % 4096 + data.size ≤ 4096) :
    Ends hidden (writing slot vaddr fault data) m := by
  obtain ⟨halike, hsealed⟩ := h.resolve slot vaddr .store
  have huser := user_resolve slot vaddr .store m
  refine ⟨fun ram hram => ?_, ?_, ?_, fun e m' hr => ?_⟩
  · obtain ⟨ram', hram', heq⟩ := halike ram hram
    rw [writing_apply h.inside hn, writing_apply (h.inside_withRam hram) hn, heq]
    cases hr : Machine.resolve slot vaddr .store m with
    | ok pa m' =>
      rw [hr] at hram'
      exact ⟨ram'.blit pa data, hram'.blit pa data, rfl⟩
    | error e m' =>
      rw [hr] at hram'
      exact ⟨ram', hram', rfl⟩
  · rw [writing_apply h.inside hn]
    cases hr : Machine.resolve slot vaddr .store m with
    | ok pa m' =>
      rw [hr] at hsealed
      exact hsealed.toVeiled.mapRam (Ram.size_blit ..)
    | error e m' =>
      rw [hr] at hsealed
      exact hsealed.toVeiled
  · rw [writing_apply h.inside hn]
    cases hr : Machine.resolve slot vaddr .store m <;> rwa [hr] at huser
  · rw [writing_apply h.inside hn] at hr
    cases hc : Machine.resolve slot vaddr .store m with
    | ok pa m₁ =>
      rw [hc] at hr
      cases hr
    | error e₁ m₁ =>
      rw [hc] at hr hsealed
      obtain ⟨-, rfl⟩ := EStateM.Result.error.inj hr
      exact hsealed

/-- What is copied was read, so it is in sight. -/
theorem stores_copying {b a : UInt32} {n : Nat} {fault : Fault} (hb : b.toNat % 4096 + n ≤ 4096)
    (ha : a.toNat % 4096 + n ≤ 4096) : Stores hidden (copying b a n fault) := by
  refine ⟨Blind.closed.governed.copying hb ha, fun m h hu hn => ?_⟩
  refine h.ends_resolve₂ (fun pb pa => ?_) hu hb ha hn fun pb pa m₂ h₂ hpb hpa hkb hka => ?_
  · exact Blind.closed.getRam.bind fun ram => (Blind.closed.require _ _).bind fun _ =>
      Blind.closed.ram fun _ => Ram.size_copyWithin ..
  · have hcopy (m : Machine) (hpb : m.memory.ram.holds pb n = true)
        (hpa : m.memory.ram.holds pa n = true) :
        (getRam >>= fun ram => require (ram.holds pb n && ram.holds pa n) fault >>= fun _ =>
          modifyRam (·.copyWithin pb pa n) : Guarded Unit) m =
          .ok () (m.withRam (m.memory.ram.copyWithin pb pa n)) := by
      simp only [bind_apply, getRam_apply, require_apply, hpa, hpb, Bool.and_self, if_true]
      rfl
    refine ⟨fun ram hram => ⟨ram.copyWithin pb pa n, ?_, ?_⟩, ?_, ?_, fun e m' hr => ?_⟩
    · rw [hcopy m₂ hpb hpa]
      exact hram.copyWithin hpb hpa hkb
    · rw [hcopy m₂ hpb hpa, hcopy (m₂.withRam ram) ((hram.holds ..).trans hpb)
        ((hram.holds ..).trans hpa)]
      rfl
    · rw [hcopy m₂ hpb hpa]
      exact h₂.toVeiled.mapRam (Ram.size_copyWithin ..)
    · rw [hcopy m₂ hpb hpa]
      rfl
    · rw [hcopy m₂ hpb hpa] at hr
      cases hr

/-- Unprivileged code makes its accesses where hidden bytes make no difference. -/
theorem addressed_alike (hidden : Nat → Prop) :
    Addressed (fun x => Reads hidden x) fun x => Stores hidden x where
  pure a := .of_apart (.pure a) (fun _ _ => rfl) (fun _ => rfl) fun _ => ⟨rfl, rfl⟩
  throw e := .of_apart (.throw e) (fun _ _ => rfl) (fun _ => rfl) fun _ => ⟨rfl, rfl⟩
  bind := .bind
  adapt fn _ hx := Reads.adapt hx fn
  getRegs := .of_apart Blind.closed.getRegs (fun _ _ => rfl) (fun _ => rfl) fun _ => ⟨rfl, rfl⟩
  modifyRegs {_ fn} hfn := by
    refine .of_apart (Blind.closed.plain.modifyRegs hfn) (fun _ _ => rfl) (fun _ => rfl) fun m => ?_
    obtain ⟨a, b, c, f, g, sp, pc, hregs⟩ := hfn m.regs
    rw [modifyRegs_apply, stateOf_ok, hregs]
    exact ⟨rfl, rfl⟩
  current ipc ir := .of_apart (Blind.closed.plain.current ipc ir) (fun _ _ => rfl) (fun _ => rfl)
    fun _ => ⟨rfl, rfl⟩
  reading := reads_reading
  reading₂ := reads_reading₂
  still := Reads.stores
  before := Reads.before
  adaptStored fn _ hx := Stores.adapt hx fn
  writing hn := ⟨Blind.closed.governed.writing hn, fun _ h _ _ => h.ends_writing hn⟩
  copying := stores_copying
  after {_ _ fn} hfn hx := by
    refine hx.after (fun _ => Blind.closed.plain.modifyRegs hfn) fun _ m => ?_
    obtain ⟨a, b, c, f, g, sp, pc, hregs⟩ := hfn m.regs
    refine ⟨(), { m with regs := fn m.regs }, rfl, rfl, ?_, ?_, fun ram => rfl⟩
    · rw [hregs]
    · rw [hregs]
  counted n hx := hx.after (fun _ => Blind.closed.plain.countBlock n) fun _ m =>
    ⟨(), { m with blockBytes := m.blockBytes + n.toNat }, rfl, rfl, rfl, rfl, fun _ => rfl⟩

end Machine

end PagedMachine
