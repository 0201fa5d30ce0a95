import PagedMachine.Proofs.Confinement
import PagedMachine.Proofs.Tenant
import PagedMachine.Proofs.Touches

/-!
# What user mode writes

What a machine does to memory is a list of touches (`Machine.Shows`), from the start of a run to its
last step. A step of user mode looks addresses up and puts bytes in the mode it is in, and then may
enter the kernel (`step_touches`). So a byte that it changes lies in a page that a walk found open to
user mode, in an entry that was marked, or in a word of the frame that the entry pushed
(`user_writes_isolated`).
-/

set_option autoImplicit false

namespace PagedMachine

/-- Whether a touch is an access of one mode. -/
def Touch.MadeBy (user : Bool) : Touch → Prop
  | look _ _ _ u => u = user
  | put _ _ u _ _ => u = user
  | enter _ | forget => False

theorem Touch.MadeBy.ne_enter {user : Bool} {τ : Touch} (h : τ.MadeBy user) (space : AddressSpace) :
    τ ≠ .enter space := by
  rintro rfl
  exact h

namespace Machine

/-- Whether what was watched is what the machine has. -/
structure Shows (m : Machine) (w : Watched) : Prop where
  memory : w.memory = m.memory
  space : w.space = m.regs.space

/-! ## Accesses are touches -/

section
variable {m : Machine} {w : Watched} (hw : m.Shows w)
include hw

theorem Shows.look (slot : Slot) (vaddr : UInt32) (access : Access) :
    (stateOf (resolve slot vaddr access m)).Shows
      (w.touch (.look slot vaddr access m.regs.user)) := by
  rw [resolve_apply]
  have hm : (w.touch (.look slot vaddr access m.regs.user)).memory =
      stateOf (Memory.resolve m.regs.space slot vaddr access m.regs.user m.memory) := by
    rw [← hw.memory, ← hw.space]
    rfl
  cases hr : Memory.resolve m.regs.space slot vaddr access m.regs.user m.memory with
  | ok pa memory => exact ⟨hm.trans (congrArg stateOf hr), hw.space⟩
  | error fault memory => exact ⟨hm.trans (congrArg stateOf hr), hw.space⟩

/-- Bytes that are put where an address was resolved to. -/
theorem Shows.put_of_ok {slot : Slot} {vaddr pa : UInt32} {m' : Machine} (data : ByteArray)
    (fits : vaddr.toNat % 4096 + data.size ≤ 4096) (hr : resolve slot vaddr .store m = .ok pa m') :
    Shows { m' with memory := m'.memory.mapRam (·.blit pa data) }
      (w.touch (.put slot vaddr m.regs.user data fits)) := by
  rw [resolve_apply] at hr
  simp only [Watched.touch, hw.memory, hw.space]
  cases hc : Memory.resolve m.regs.space slot vaddr .store m.regs.user m.memory with
  | ok pa' memory =>
    rw [hc] at hr
    obtain ⟨rfl, rfl⟩ := EStateM.Result.ok.inj hr
    exact ⟨rfl, hw.space⟩
  | error fault memory =>
    rw [hc] at hr
    cases hr

theorem Shows.put_of_error {slot : Slot} {vaddr : UInt32} {fault : Fault} {m' : Machine}
    (data : ByteArray) (fits : vaddr.toNat % 4096 + data.size ≤ 4096)
    (hr : resolve slot vaddr .store m = .error fault m') :
    m'.Shows (w.touch (.put slot vaddr m.regs.user data fits)) := by
  have hl := hw.look slot vaddr .store
  rw [hr, stateOf_error] at hl
  rw [resolve_apply] at hr
  simp only [Watched.touch, hw.memory, hw.space]
  cases hc : Memory.resolve m.regs.space slot vaddr .store m.regs.user m.memory with
  | ok pa memory =>
    rw [hc] at hr
    cases hr
  | error fault' memory => exact hl

end

/-- Whether accesses of the mode that the machine is in led to `m'`. -/
def Accessed (m m' : Machine) : Prop :=
  m.Inside → m'.Inside ∧ m'.regs.user = m.regs.user ∧ ∀ w, m.Shows w →
    ∃ touches, (∀ τ ∈ touches, τ.MadeBy m.regs.user) ∧ m'.Shows (w.after touches)

namespace Accessed

variable {m m' m'' : Machine}

theorem refl (m : Machine) : m.Accessed m := fun h => ⟨h, rfl, fun _ hw => ⟨[], nofun, hw⟩⟩

theorem trans (h : m.Accessed m') (h' : m'.Accessed m'') : m.Accessed m'' := by
  intro hi
  obtain ⟨hi₁, hu, ht⟩ := h hi
  obtain ⟨hi₂, hu', ht'⟩ := h' hi₁
  refine ⟨hi₂, hu'.trans hu, fun w hw => ?_⟩
  obtain ⟨touches, hmade, hw₁⟩ := ht w hw
  obtain ⟨touches', hmade', hw₂⟩ := ht' _ hw₁
  rw [hu] at hmade'
  refine ⟨touches ++ touches', fun τ hτ => ?_, ?_⟩
  · exact (List.mem_append.1 hτ).elim (hmade τ) (hmade' τ)
  · rwa [Watched.after_append]

/-- One touch. -/
theorem of_touch {τ : Touch} (hmade : τ.MadeBy m.regs.user) (hi : m'.Inside)
    (hu : m'.regs.user = m.regs.user) (ht : ∀ w, m.Shows w → m'.Shows (w.touch τ)) :
    m.Accessed m' := by
  refine fun _ => ⟨hi, hu, fun w hw => ⟨[τ], fun τ' hτ' => ?_, ht w hw⟩⟩
  obtain rfl := List.mem_singleton.1 hτ'
  exact hmade

theorem resolve (slot : Slot) (vaddr : UInt32) (access : Access) (m : Machine) :
    m.Accessed (stateOf (resolve slot vaddr access m)) := by
  intro hi
  refine of_touch (τ := .look slot vaddr access m.regs.user) rfl (hi.resolve slot vaddr access) ?_
    (fun w hw => hw.look slot vaddr access) hi
  rw [resolve_apply]
  cases Memory.resolve m.regs.space slot vaddr access m.regs.user m.memory <;> rfl

/-- A store, given where its address is resolved to. -/
theorem stored (slot : Slot) {vaddr : UInt32} {data : ByteArray}
    (hn : vaddr.toNat % 4096 + data.size ≤ 4096) (m : Machine) :
    m.Accessed (match Machine.resolve slot vaddr .store m with
      | .ok pa m' => { m' with memory := m'.memory.mapRam (·.blit pa data) }
      | .error _ m' => m') := by
  intro hi
  obtain ⟨hi', hu, -⟩ := resolve slot vaddr .store m hi
  cases hr : Machine.resolve slot vaddr .store m with
  | ok pa m' =>
    rw [hr, stateOf_ok] at hi' hu
    exact of_touch (τ := .put slot vaddr m.regs.user data hn) rfl (hi'.mapRam (Ram.size_blit ..)) hu
      (fun w hw => hw.put_of_ok data hn hr) hi
  | error fault m' =>
    rw [hr, stateOf_error] at hi' hu
    exact of_touch (τ := .put slot vaddr m.regs.user data hn) rfl hi' hu
      (fun w hw => hw.put_of_error data hn hr) hi

theorem writing {slot : Slot} {vaddr : UInt32} {fault : Option Fault} {data : ByteArray}
    (hn : vaddr.toNat % 4096 + data.size ≤ 4096) (m : Machine) :
    m.Accessed (stateOf (writing slot vaddr fault data m)) := by
  intro hi
  have hs := stored slot hn m
  rw [writing_apply hi hn]
  cases hr : Machine.resolve slot vaddr .store m with
  | ok pa m' =>
    rw [hr] at hs
    exact hs hi
  | error fault m' =>
    rw [hr] at hs
    exact hs hi

/-- What is copied are the bytes that are read. -/
theorem copying {b a : UInt32} {n : Nat} {fault : Fault} (hb : b.toNat % 4096 + n ≤ 4096)
    (ha : a.toNat % 4096 + n ≤ 4096) (m : Machine) :
    m.Accessed (stateOf (copying b a n fault m)) := by
  intro hi
  rw [copying_apply hi hb ha]
  have hlook := resolve .data b .load m
  cases hrb : Machine.resolve .data b .load m with
  | error fault m₁ =>
    rw [hrb] at hlook
    exact hlook hi
  | ok src m₁ =>
    rw [hrb, stateOf_ok] at hlook
    obtain ⟨hi₁, -⟩ := hlook hi
    dsimp only
    cases hra : Machine.resolve .data a .store m₁ with
    | error fault m₂ =>
      have hlook' := resolve .data a .store m₁
      rw [hra] at hlook'
      exact hlook.trans hlook' hi
    | ok dst m₂ =>
      obtain ⟨hsrc, hdst⟩ := hi.holds₂ hrb hra hb ha
      have hle := Ram.holds_iff.1 hsrc
      have hsize : (m₂.memory.ram.bytes.extract src.toNat (src.toNat + n)).size = n := by
        rw [ByteArray.size_extract]
        omega
      have hfits : a.toNat % 4096 +
          (m₂.memory.ram.bytes.extract src.toNat (src.toNat + n)).size ≤ 4096 := by rwa [hsize]
      have hs := stored .data hfits m₁
      rw [hra] at hs
      have hcopy : m₂.memory.mapRam (·.copyWithin src dst n) =
          m₂.memory.mapRam
            (·.blit dst (m₂.memory.ram.bytes.extract src.toNat (src.toNat + n))) := by
        simp only [Memory.mapRam, Ram.copyWithin, hsrc, hdst, Bool.and_self, if_true]
      rw [stateOf_ok, hcopy]
      exact hlook.trans hs hi

end Accessed

/-- Unprivileged code only makes accesses of the mode that it runs in. -/
theorem addressed_accessed : Addressed (fun x => ∀ m, Accessed m (stateOf (x m)))
    fun x => ∀ m, Accessed m (stateOf (x m)) :=
  addressed_of_transitions .refl .trans
    (fun _ _ _ _ _ _ _ _ _ _ _ h => ⟨h, rfl, fun _ hw => ⟨[], nofun, ⟨hw.memory, hw.space⟩⟩⟩)
    Accessed.resolve Accessed.writing Accessed.copying

/-! ## Runs are touches -/

/-- Whether touches led to `m'`. -/
def Touched (m m' : Machine) : Prop :=
  m.Inside → m'.Inside ∧ ∀ w, m.Shows w → ∃ touches, m'.Shows (w.after touches)

theorem Accessed.touched {m m' : Machine} (h : m.Accessed m') : m.Touched m' := by
  intro hi
  obtain ⟨hi', -, ht⟩ := h hi
  refine ⟨hi', fun w hw => ?_⟩
  obtain ⟨touches, -, hw'⟩ := ht w hw
  exact ⟨touches, hw'⟩

theorem Touched.refl (m : Machine) : m.Touched m := (Accessed.refl m).touched

theorem Touched.trans {m m' m'' : Machine} (h : m.Touched m') (h' : m'.Touched m'') :
    m.Touched m'' := by
  intro hi
  obtain ⟨hi₁, ht⟩ := h hi
  obtain ⟨hi₂, ht'⟩ := h' hi₁
  refine ⟨hi₂, fun w hw => ?_⟩
  obtain ⟨touches, hw₁⟩ := ht w hw
  obtain ⟨touches', hw₂⟩ := ht' _ hw₁
  refine ⟨touches ++ touches', ?_⟩
  rwa [Watched.after_append]

/-- A change of the address space, if its directory lies in memory. -/
theorem Touched.setSpace {m : Machine} {space : AddressSpace}
    (hi : m.Inside → (stateOf (setSpace space m)).Inside) :
    m.Touched (stateOf (setSpace space m)) := by
  refine fun h => ⟨hi h, fun w hw => ⟨[.enter space], ?_, rfl⟩⟩
  exact congrArg Memory.flush hw.memory

/-- Whatever the machine does to memory, touches do. -/
theorem governed_touched : Governed fun x => ∀ m, Touched m (stateOf (x m)) := by
  refine governed_of_transitions .refl .trans (fun {m m'} hm hs h => ?_)
    (fun slot vaddr access m => (Accessed.resolve slot vaddr access m).touched)
    (fun hn m => (Accessed.writing hn m).touched)
    (fun hb ha m => (Accessed.copying hb ha m).touched) (fun i m => ?_) (fun i m => ?_)
    (fun m h => ⟨Memory.Inside.invalidatePath h, fun w hw => ⟨[.forget], ?_, hw.space⟩⟩)
  case refine_1 =>
    refine ⟨by rwa [Inside, hm, hs], fun w hw => ⟨[], hw.memory.trans hm.symm, ?_⟩⟩
    exact hw.space.trans hs.symm
  case refine_2 =>
    have hi := governed_inside.setDirectory i m
    rw [perform_setDirectory] at hi ⊢
    split
    · rename_i hle
      rw [if_pos hle] at hi
      exact .setSpace hi
    · exact .refl m
  case refine_3 =>
    have hi := governed_inside.setPaging i m
    rw [perform_setPaging] at hi ⊢
    split
    · rename_i hok
      rw [if_pos hok] at hi
      exact .setSpace hi
    · exact .refl m
  case refine_4 => exact congrArg Memory.invalidatePath hw.memory

end Machine

/-- From its start a run is a list of touches. -/
theorem Run.touched {start m : Machine} {t : Tally} (h : Run start t m) (hi : start.Inside)
    {w : Watched} (hw : start.Shows w) : ∃ touches, m.Shows (w.after touches) := by
  induction h with
  | start => exact ⟨[], hw⟩
  | @step t m m' flow hrun hstep ih =>
    obtain ⟨touches, hm⟩ := ih
    obtain ⟨-, ht⟩ := Machine.governed_touched.step m (hrun.inside hi)
    obtain ⟨touches', hm'⟩ := ht _ hm
    rw [hstep, stateOf_ok] at hm'
    exact ⟨touches ++ touches', by rwa [Watched.after_append]⟩
  | outside bridge timer _ ih =>
    obtain ⟨touches, hm⟩ := ih
    exact ⟨touches, hm.memory, hm.space⟩

/-! ## Entering the kernel -/

namespace Touch

/-- A word is stored in a stack slot of the kernel. -/
def pushed (sp v : UInt32) : Touch :=
  put .stack (alignTo8 sp) false (Bytes.push32 .empty v) (alignTo8_fits sp (by simp))

/-- What an entry to the kernel does to memory, if it completes. -/
def delivery (sp pc code : UInt32) : List Touch := [pushed (sp - 8) pc, pushed (sp - 16) code, forget]

end Touch

namespace Watched

theorem memory_pushed (w : Watched) (sp v : UInt32) :
    (w.touch (.pushed (sp - 8) v)).memory =
      stateOf (Memory.pushWord w.space sp v false w.memory) := by
  simp only [Touch.pushed, touch, look, Memory.pushWord, bind_apply, Ram.write32_eq_blit]
  cases Memory.resolve w.space .stack (alignTo8 (sp - 8)) .store false w.memory <;> rfl

theorem space_pushed (w : Watched) (sp v : UInt32) : (w.touch (.pushed sp v)).space = w.space := by
  simp only [Touch.pushed, touch]
  cases Memory.resolve w.space .stack (alignTo8 sp) .store false w.memory <;> rfl

/-- An entry that does not complete made the first of its touches. -/
theorem memory_enterKernel (w : Watched) (sp pc code : UInt32) :
    ∃ entry, entry <+: Touch.delivery sp pc code ∧
      (w.after entry).memory = stateOf (Memory.enterKernel w.space sp pc code w.memory) := by
  have hsp : sp - 8 - 8 = sp - 16 := by grind
  have hfirst := w.memory_pushed sp pc
  have hsecond := (w.touch (.pushed (sp - 8) pc)).memory_pushed (sp - 8) code
  rw [hsp, hfirst, space_pushed] at hsecond
  simp only [Memory.enterKernel, Memory.pushFrame, bind_apply]
  cases hr : Memory.pushWord w.space sp pc false w.memory with
  | error fault memory₁ =>
    rw [hr] at hfirst
    exact ⟨[.pushed (sp - 8) pc], ⟨_, rfl⟩, hfirst⟩
  | ok u memory₁ =>
    rw [hr, stateOf_ok] at hsecond
    dsimp only
    cases hr' : Memory.pushWord w.space (sp - 8) code false memory₁ with
    | error fault memory₂ =>
      exact ⟨[.pushed (sp - 8) pc, .pushed (sp - 16) code], ⟨_, rfl⟩,
        hsecond.trans (congrArg stateOf hr')⟩
    | ok u memory₂ =>
      exact ⟨Touch.delivery sp pc code, List.prefix_refl _,
        congrArg Memory.invalidatePath (hsecond.trans (congrArg stateOf hr'))⟩

end Watched

namespace Machine

section
variable {m : Machine} {w : Watched} (hw : m.Shows w) (hu : m.regs.user = true)
include hw hu

/-- An entry from user mode pushes on the stack that is kept for the kernel. -/
theorem Shows.entered (code : UInt32) :
    ∃ entry, entry <+: Touch.delivery m.regs.ssp m.regs.pc code ∧
      (w.after entry).memory = stateOf
        (Memory.enterKernel m.regs.space m.regs.kernelSp m.regs.pc code m.memory) := by
  obtain ⟨entry, hentry, hmem⟩ := w.memory_enterKernel m.regs.ssp m.regs.pc code
  rw [hw.memory, hw.space] at hmem
  rw [Registers.kernelSp, if_pos hu]
  exact ⟨entry, hentry, hmem⟩

theorem Shows.interrupted (cause : Fault) :
    ∃ entry pc code, entry <+: Touch.delivery m.regs.ssp pc code ∧
      (w.after entry).memory = (stateOf (raiseInterrupt cause m)).memory ∧
      (stateOf (raiseInterrupt cause m)).regs.user = false := by
  obtain ⟨entry, hentry, hmem⟩ := hw.entered hu (m.regs.entryCode cause)
  rw [memory_raiseInterrupt]
  exact ⟨entry, _, _, hentry, hmem, user_raiseInterrupt cause m⟩

theorem Shows.faulted (hiena : m.regs.iena = true) (cause : Fault) :
    ∃ entry pc code, entry <+: Touch.delivery m.regs.ssp pc code ∧
      (w.after entry).memory = (stateOf (onStop (.fault cause) m)).memory ∧
      (stateOf (onStop (.fault cause) m)).regs.user = false := by
  have hstate : stateOf (onStop (.fault cause) m) =
      stateOf (deliver cause { m with regs := m.regs.blame cause m.ipc }) := by
    simp only [onStop, bind_apply, raiseException_of_iena cause hiena]
    cases deliver cause { m with regs := m.regs.blame cause m.ipc } <;> rfl
  have hblamed : Shows { m with regs := m.regs.blame cause m.ipc } w := ⟨hw.memory, hw.space⟩
  obtain ⟨entry, hentry, hmem⟩ :=
    hblamed.entered hu ((m.regs.blame cause m.ipc).entryCode cause)
  rw [hstate, memory_deliver]
  exact ⟨entry, _, _, hentry, hmem, user_deliver ..⟩

end

/-- An instruction of user mode makes accesses, and then may enter the kernel. -/
theorem executeGuarded_touches {m : Machine} (hi : m.Inside) (hu : m.regs.user = true)
    (hiena : m.regs.iena = true) {w : Watched} (hw : m.Shows w) :
    ∃ byUser entry pc code, (∀ τ ∈ byUser, τ.MadeBy true) ∧
      entry <+: Touch.delivery m.regs.ssp pc code ∧
      (w.after (byUser ++ entry)).memory = (stateOf (executeGuarded m)).memory ∧
      ((stateOf (executeGuarded m)).regs.user = true → entry = []) := by
  have hkept := shielded_privileged.executeNext_user hu
  have haccessed := addressed_accessed.executeUnprivileged m
  rw [← executeNext_of_user hu] at haccessed
  obtain ⟨-, -, ht⟩ := haccessed hi
  obtain ⟨byUser, hmade, hw'⟩ := ht w hw
  rw [hu] at hmade
  rw [executeGuarded_eq, handle_apply]
  cases hr : executeNext m with
  | ok flow m' =>
    rw [hr] at hw'
    exact ⟨byUser, [], 0, 0, hmade, List.nil_prefix, by rw [List.append_nil]; exact hw'.memory,
      fun _ => rfl⟩
  | error stop m' =>
    rw [hr, stateOf_error] at hw' hkept
    cases stop with
    | fatal reason =>
      exact ⟨byUser, [], 0, 0, hmade, List.nil_prefix, by rw [List.append_nil]; exact hw'.memory,
        fun _ => rfl⟩
    | fault cause =>
      -- the registers that choose the stack of the kernel are those from before
      have hregs : m'.regs.user = true ∧ m'.regs.iena = true ∧ m'.regs.ssp = m.regs.ssp := by
        obtain ⟨-, -, -, -, -, -, -, -, -, -, -, rfl⟩ := eq_of_privileged hkept
        exact ⟨hu, hiena, rfl⟩
      obtain ⟨entry, pc, code, hentry, hmem, hleft⟩ := hw'.faulted hregs.1 hregs.2.1 cause
      rw [hregs.2.2] at hentry
      refine ⟨byUser, entry, pc, code, hmade, hentry, ?_,
        fun h => Bool.noConfusion (hleft.symm.trans h)⟩
      rw [Watched.after_append, hmem]

/-- A step of user mode is an interrupt, or an instruction after a turn of the devices. -/
theorem step_touches {m : Machine} (hi : m.Inside) (hu : m.regs.user = true)
    (hiena : m.regs.iena = true) {w : Watched} (hw : m.Shows w) :
    ∃ byUser entry pc code, (∀ τ ∈ byUser, τ.MadeBy true) ∧
      entry <+: Touch.delivery m.regs.ssp pc code ∧
      (w.after (byUser ++ entry)).memory = (stateOf (step m)).memory ∧
      ((stateOf (step m)).regs.user = true → entry = []) := by
  obtain ⟨cycle, timer, bridge, journal, hturn⟩ := m.turn_eq
  rw [step_of_iena hiena, hturn]
  cases m.turn.1 with
  | interrupt cause =>
    have hturned : Shows { m with regs := { m.regs with cycle }, timer, bridge, journal } w :=
      ⟨hw.memory, hw.space⟩
    obtain ⟨entry, pc, code, hentry, hmem, hleft⟩ := hturned.interrupted hu cause
    have hstate (m' : Machine) :
        stateOf (Turned.rest (.interrupt cause) m') = stateOf (raiseInterrupt cause m') := by
      rw [Turned.rest, bind_apply]
      cases raiseInterrupt cause m' <;> rfl
    rw [hstate]
    exact ⟨[], entry, pc, code, List.forall_mem_nil _, hentry, hmem,
      fun h => Bool.noConfusion (hleft.symm.trans h)⟩
  | quiet ended =>
    cases ended with
    | some flow => exact ⟨[], [], 0, 0, List.forall_mem_nil _, List.nil_prefix, hw.memory, fun _ => rfl⟩
    | none =>
      exact executeGuarded_touches
        (m := { m with regs := { m.regs with cycle }, timer, bridge, journal }) hi hu hiena
        ⟨hw.memory, hw.space⟩

end Machine

/-! ## Bytes that change -/

namespace Watched

/-- Why touches of user mode and then of an entry may have changed the byte at `i`. -/
inductive Affected (w : Watched) (byUser entry : List Touch) (i : Nat) : Prop
  /-- User mode put bytes into the page, which a walk since the caches were last emptied had found
  open to it. -/
  | stored {before rest : List Touch} {slot : Slot} {vaddr : UInt32} {data : ByteArray}
      {fits : vaddr.toNat % 4096 + data.size ≤ 4096} {v : MadeWalk} :
      byUser = before ++ .put slot vaddr true data fits :: rest →
      v ∈ ((w.after before).look slot vaddr .store true).walks →
      v.Genuine → v.space = w.space → v.OpenToUser →
      v.mapping.frame.toNat ≤ i → i < v.mapping.frame.toNat + 4096 → Affected w byUser entry i
  /-- The entry that the byte is in was walked through, and gained marks and nothing else. -/
  | marked {e : UInt32} {before rest : List Touch} {τ : Touch} :
      e.toNat % 4 = 0 → e.toNat ≤ i → i < e.toNat + 4 →
      byUser ++ entry = before ++ τ :: rest → (w.after before).Visits τ e →
      (w.memory.ram.entry e).MarkedTo ((w.after (byUser ++ entry)).memory.ram.entry e) →
      Affected w byUser entry i
  /-- The byte is in a word that was pushed on the kernel's stack. -/
  | pushed {before rest : List Touch} {sp v pa : UInt32} {memory : Memory} :
      entry = before ++ .pushed sp v :: rest →
      Memory.resolve w.space .stack (alignTo8 sp) .store false (w.after (byUser ++ before)).memory =
        .ok pa memory →
      pa.toNat ≤ i → i < pa.toNat + 4 → Affected w byUser entry i

variable {w : Watched} {byUser entry : List Touch}

/-- What user mode puts into a word goes to a page that is open to it. -/
theorem Sound.affected_of_user (hs : w.Sound) (hi : w.memory.Inside w.space)
    (hp : w.space.paging = true) (hmade : ∀ τ ∈ byUser, τ.MadeBy true)
    (hn : (w.after byUser).memory.tlb.epoch < UInt64.size) {before rest : List Touch} {τ : Touch}
    (hsplit : byUser = before ++ τ :: rest) {e : UInt32} (he : e.toNat % 4 = 0)
    (hputs : (w.after before).Puts τ e) {i : Nat} (hle : e.toNat ≤ i) (hlt : i < e.toNat + 4) :
    w.Affected byUser entry i := by
  obtain ⟨slot, vaddr, user, data, fits, pa, memory, rfl, hr, hput⟩ := hputs
  have huser := hmade (.put slot vaddr user data fits)
    (hsplit ▸ List.mem_append_right _ (List.mem_cons_self ..))
  obtain rfl : user = true := huser
  obtain ⟨hi', hspace⟩ := inside_after hi before fun space h =>
    (hmade _ (hsplit ▸ List.mem_append_left _ h)).ne_enter space rfl
  have hn' : (w.after before).memory.tlb.epoch < UInt64.size := by
    refine Nat.lt_of_le_of_lt ?_ hn
    rw [hsplit, after_append]
    exact epoch_le_after ..
  obtain ⟨v, hv, ⟨hgenuine, hvspace, hopen⟩, hframe, hpa⟩ :=
    (hs.after before).openToUser hi' (hspace ▸ hp) hn' hr
  refine .stored hsplit hv hgenuine (hvspace.trans hspace) hopen ?_ ?_
  all_goals omega

/-- What an entry puts into a word is a word of its own. -/
theorem affected_of_entry (hi : (w.after byUser).memory.Inside (w.after byUser).space)
    (hspace : (w.after byUser).space = w.space) {sp pc code : UInt32}
    (hentry : entry <+: Touch.delivery sp pc code) {before rest : List Touch} {τ : Touch}
    (hsplit : entry = before ++ τ :: rest) {e : UInt32} (he : e.toNat % 4 = 0)
    (hputs : (w.after (byUser ++ before)).Puts τ e) {i : Nat} (hle : e.toNat ≤ i)
    (hlt : i < e.toNat + 4) : w.Affected byUser entry i := by
  have hsub : ∀ τ' ∈ entry, τ' ∈ Touch.delivery sp pc code := fun _ h => hentry.subset h
  have hpushed : τ = .forget ∨ ∃ sp' v, τ = .pushed sp' v := by
    have hτ := hsub τ (hsplit ▸ List.mem_append_right _ (List.mem_cons_self ..))
    simp only [Touch.delivery, List.mem_cons, List.not_mem_nil, or_false] at hτ
    rcases hτ with rfl | rfl | rfl
    · exact .inr ⟨_, _, rfl⟩
    · exact .inr ⟨_, _, rfl⟩
    · exact .inl rfl
  rw [after_append] at hputs
  obtain ⟨hi', hspace'⟩ := inside_after hi before fun space h => by
    have := hsub _ (hsplit ▸ List.mem_append_left _ h)
    simp [Touch.delivery, Touch.pushed] at this
  obtain ⟨slot, vaddr, user, data, fits, pa, memory, hτ, hr, hput⟩ := hputs
  rcases hpushed with rfl | ⟨sp', v, rfl⟩
  · cases hτ
  · obtain ⟨rfl, rfl, rfl, rfl⟩ := Touch.put.inj hτ
    rw [hspace', hspace, ← after_append] at hr
    have hframe := hi'.frame (by rw [hspace', hspace, ← after_append]; exact hr)
    obtain ⟨frame, ⟨hframe, -⟩, -, hpa⟩ := hframe
    rw [Bytes.size_push32, ByteArray.size_empty] at hput
    rw [alignTo8_toNat] at hpa
    refine .pushed hsplit hr ?_ ?_
    all_goals omega

/-- A byte that touches of user mode, and then of an entry, change is one of those that they may. -/
theorem Sound.affected (hs : w.Sound) (hi : w.memory.Inside w.space) (hp : w.space.paging = true)
    (hmade : ∀ τ ∈ byUser, τ.MadeBy true) {sp pc code : UInt32}
    (hentry : entry <+: Touch.delivery sp pc code)
    (hn : (w.after (byUser ++ entry)).memory.tlb.epoch < UInt64.size) {i : Nat}
    (hne : (w.after (byUser ++ entry)).memory.ram.byte i ≠ w.memory.ram.byte i) :
    w.Affected byUser entry i := by
  have huser : ∀ space, .enter space ∉ byUser := fun space h => (hmade _ h).ne_enter space rfl
  have hstays : ∀ space, .enter space ∉ byUser ++ entry := by
    intro space h
    rcases List.mem_append.1 h with h | h
    · exact huser space h
    · have := hentry.subset h
      simp [Touch.delivery, Touch.pushed] at this
  have hsize : i < UInt32.size := by
    refine Nat.lt_of_not_le fun hle => hne ?_
    exact byte_after_of_le hi hstays hle
  have he : (UInt32.ofNat (i / 4 * 4)).toNat = i / 4 * 4 := by
    rw [UInt32.toNat_ofNat']
    exact Nat.mod_eq_of_lt (Nat.lt_of_le_of_lt (Nat.div_mul_le_self i 4) hsize)
  generalize UInt32.ofNat (i / 4 * 4) = e at he
  have halign : e.toNat % 4 = 0 := by omega
  rcases word_after hi halign (k := i - e.toNat) (by omega) hstays with
    ⟨before, τ, rest, hsplit, hputs⟩ | ⟨hmarked, hvisits⟩
  · rcases List.append_eq_append_iff.1 hsplit with ⟨tail, hbefore, hentry'⟩ | ⟨tail, hbyUser, htail⟩
    · rw [hbefore] at hputs
      obtain ⟨hi', hspace⟩ := inside_after hi byUser huser
      exact affected_of_entry hi' hspace hentry hentry' halign hputs (by omega) (by omega)
    · cases tail with
      | nil =>
        rw [List.append_nil] at hbyUser
        obtain ⟨hi', hspace⟩ := inside_after hi byUser huser
        rw [← hbyUser, ← List.append_nil byUser] at hputs
        have hentry' : entry = [] ++ τ :: rest := htail.symm
        exact affected_of_entry hi' hspace hentry hentry' halign hputs (by omega) (by omega)
      | cons τ' tail =>
        obtain ⟨rfl, -⟩ := List.cons.inj htail
        refine hs.affected_of_user hi hp hmade (Nat.lt_of_le_of_lt ?_ hn) hbyUser halign hputs
          (by omega) (by omega)
        rw [after_append]
        exact epoch_le_after ..
  · have hat : e.toNat + (i - e.toNat) = i := by omega
    rw [hat] at hvisits
    obtain ⟨before, τ, rest, hsplit, hvisit⟩ := hvisits hne
    exact .marked halign (by omega) (by omega) hsplit hvisit hmarked

end Watched

/-- A machine as it is before anything was watched. -/
def Machine.watched (m : Machine) : Watched where
  space := m.regs.space
  memory := m.memory

open Machine

/-- What user mode writes is isolated. The memory of a machine is what touches from the start of its
run led to. Whichever these were, a step of user mode makes accesses of user mode, followed, if it
leaves that mode, by an entry to the kernel. Each byte that the step changes lies in a page that user
mode stored into and that a walk, since the caches were last emptied, had found present, writable and
open to user mode in both entries; or in an entry that only gained marks; or in a word that the entry
pushed on the kernel's stack. -/
theorem user_writes_isolated {m₀ m : Machine} {pc sp : UInt32} {t : Tally}
    (hpaged : m₀.memory.ram.Paged) (h : Run (m₀.reset pc sp) t m) (hu : m.regs.user = true)
    (hp : m.regs.space.paging = true) (hn : (stateOf (step m)).memory.tlb.epoch < UInt64.size) :
    (∃ past, m.Shows ((m₀.reset pc sp).watched.after past)) ∧
      ∀ past, m.Shows ((m₀.reset pc sp).watched.after past) →
        ∃ byUser entry resume code, (∀ τ ∈ byUser, τ.MadeBy true) ∧
          entry <+: Touch.delivery m.regs.ssp resume code ∧
          ((m₀.reset pc sp).watched.after (past ++ (byUser ++ entry))).memory =
            (stateOf (step m)).memory ∧
          ((stateOf (step m)).regs.user = true → entry = []) ∧
          ∀ i, (stateOf (step m)).memory.ram.byte i ≠ m.memory.ram.byte i →
            ((m₀.reset pc sp).watched.after past).Affected byUser entry i := by
  have hg : m.signals.Guarded := h.guarded (guarded_reset pc sp m₀)
  have hstart : (m₀.reset pc sp).Inside := inside_reset hpaged pc sp
  have hi : m.Inside := h.inside hstart
  refine ⟨h.touched hstart ⟨rfl, rfl⟩, fun past hw => ?_⟩
  obtain ⟨byUser, entry, resume, code, hmade, hentry, hmem, hkernel⟩ :=
    step_touches hi hu (hg.user hu) hw
  refine ⟨byUser, entry, resume, code, hmade, hentry, ?_, hkernel, fun i hne => ?_⟩
  · rwa [Watched.after_append]
  · have hsound : (m₀.reset pc sp).watched.Sound := Watched.sound_flush _ _
    rw [← hmem] at hn hne
    rw [← hw.memory] at hne
    refine (hsound.after past).affected ?_ (hw.space ▸ hp) hmade hentry hn hne
    rw [hw.memory, hw.space]
    exact hi

/-- A program copies a word into its own page table. -/
theorem user_writes_isolated_copying :
    ∃ ram t m past, ram.Paged ∧ Run ((hosting ram).reset 0x2000 0x2f00) t m ∧ m.regs.user = true ∧
      m.regs.space.paging = true ∧ (stateOf (step m)).memory.tlb.epoch < UInt64.size ∧
      m.Shows (((hosting ram).reset 0x2000 0x2f00).watched.after past) ∧
      (stateOf (step m)).memory.ram.read32 0x100c ≠ m.memory.ram.read32 0x100c ∧
      ∃ byUser entry, (∀ τ ∈ byUser, τ.MadeBy true) ∧
        ∀ i, (stateOf (step m)).memory.ram.byte i ≠ m.memory.ram.byte i →
          (((hosting ram).reset 0x2000 0x2f00).watched.after past).Affected byUser entry i := by
  have h := Ram.hosts_tenant 0x423 0
  generalize Ram.tenant 0x423 0 = ram at h
  obtain ⟨t, hrun⟩ := h.run (by decide +kernel)
  obtain ⟨⟨past, hpast⟩, haffected⟩ :=
    user_writes_isolated h.paged hrun rfl rfl h.epoch_of_four
  obtain ⟨byUser, entry, resume, code, hmade, -, -, -, hbytes⟩ := haffected past hpast
  refine ⟨ram, t, copyDue ram 0x423, past, h.paged, hrun, rfl, rfl, h.epoch_of_four, hpast, ?_, byUser,
    entry, hmade, hbytes⟩
  rw [h.step_of_four]
  show (ram.copyWithin 0x2ffc 0x100c 4).read32 0x100c ≠ ram.read32 0x100c
  rw [h.read32_copied (by decide) (by decide), h.word 0x100c (by decide) (by decide)]
  decide

end PagedMachine
