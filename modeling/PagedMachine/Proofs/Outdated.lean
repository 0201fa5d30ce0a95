import PagedMachine.Proofs.FastPath
import PagedMachine.Proofs.Frames
import PagedMachine.Proofs.Traces
import PagedMachine.Proofs.Transparency
import PagedMachine.Proofs.Visits

/-!
# What may be outdated

The events since the caches were emptied last say what they may hold. Only pages that were translated
since then are cached (`Translated`), and the tables still say the same of such a page unless an entry
that its walk reads was rewritten (`Outdated`). `Memory.Backed` is that as an invariant: code keeps it
(`Traced.kept`), and so does the host (`Past.backed`, `Dated.session`).
-/

set_option autoImplicit false

namespace PagedMachine

/-- An address of the page was resolved since the caches were emptied. -/
def Translated (page : UInt32) : List MachineEvent → Prop
  | [] | .emptied :: _ => False
  | .accessed page' granted :: log => page' = page ∧ granted = true ∨ Translated page log
  | .written .. :: log | .asked .. :: log => Translated page log

/-- An entry that a walk for the page reads is another afterwards. -/
def Ram.Rewrites (before after : Ram) (space : AddressSpace) (page : UInt32) : Prop :=
  ∃ vaddr, pageNumber vaddr = page ∧
    ∃ slot ∈ before.walkSlots space vaddr, after.entry slot ≠ before.entry slot

/-- An entry that a walk for the page reads was rewritten since an address of it was resolved. -/
def Outdated (page : UInt32) : List MachineEvent → Prop
  | [] | .emptied :: _ => False
  | .written space before after :: log =>
    Translated page log ∧ before.Rewrites after space page ∨ Outdated page log
  | .accessed .. :: log | .asked .. :: log => Outdated page log

/-- No page is accessed that is outdated then. The events come after those of `log`. -/
def Careful (log : List MachineEvent) : List MachineEvent → Prop
  | [] => True
  | .accessed page _ :: events => Careful log events ∧ ¬Outdated page (events ++ log)
  | .emptied :: events | .written .. :: events | .asked .. :: events => Careful log events

theorem careful_append {log events events' : List MachineEvent} :
    Careful log (events' ++ events) ↔ Careful log events ∧ Careful (events ++ log) events' := by
  induction events' with
  | nil => simp [Careful]
  | cons event events' ih =>
    cases event <;> simp only [List.cons_append, Careful, ih, List.append_assoc, and_assoc]

theorem translated_asked (page : UInt32) (asked : HostLog) (log : List MachineEvent) :
    Translated page (asked.map (fun call => .asked call.1 call.2) ++ log) ↔ Translated page log := by
  induction asked with
  | nil => rfl
  | cons call asked ih => exact ih

theorem outdated_asked (page : UInt32) (asked : HostLog) (log : List MachineEvent) :
    Outdated page (asked.map (fun call => .asked call.1 call.2) ++ log) ↔ Outdated page log := by
  induction asked with
  | nil => rfl
  | cons call asked ih => exact ih

/-! ## Memory -/

/-- What is settled of an address lasts while the entries that its walk reads stay as they are. -/
theorem Ram.Settled.of_not_rewrites {r r' : Ram} {space : AddressSpace} {vaddr frame : UInt32}
    {access : Access} {user : Bool} (h : r.Settled space vaddr access user frame) (hr : r.Paged)
    (hsize : r'.bytes.size = r.bytes.size) (hn : ¬r.Rewrites r' space (pageNumber vaddr)) :
    r'.Settled space vaddr access user frame := by
  refine h.congr hsize fun hp d hd hpresent hbase => ?_
  have hword : (r.directoryEntry d vaddr).word < r.size := (hr.lt_size_iff _).2 hbase
  have hslots : r.walkSlots space vaddr = [PageEntry.directorySlot d vaddr,
      PageEntry.tableSlot (r.directoryEntry d vaddr) vaddr] := by
    simp [walkSlots, hp, hd, hpresent, hword]
  have hkeep (slot : UInt32) (hslot : slot ∈ r.walkSlots space vaddr) :
      r'.entry slot = r.entry slot :=
    Decidable.byContradiction fun hne => hn ⟨vaddr, rfl, slot, hslot, hne⟩
  rw [hslots] at hkeep
  have hdir : r'.directoryEntry d vaddr = r.directoryEntry d vaddr := hkeep _ (by simp)
  refine ⟨hdir, ?_⟩
  rw [tableEntry, hdir]
  exact hkeep _ (by simp)

namespace Memory

/-- Only what was translated is cached, and the caches can be trusted but for what is outdated. -/
structure Backed (log : List MachineEvent) (space : AddressSpace) (m : Memory) : Prop where
  translated : m.Remembers fun page _ => Translated page log
  trusted : m.TrustedOn (fun page => ¬Outdated page log) space

namespace Backed

variable {log : List MachineEvent} {space : AddressSpace} {m : Memory}

/-- Empty caches are backed by any events. -/
theorem of_empty (h : m.Remembers fun _ _ => False) : m.Backed log space :=
  ⟨h.mono fun _ _ => False.elim, fun _ _ _ he => (h.tlb _ _ he).elim,
    fun _ _ _ _ he => (h.path _ _ _ he).elim⟩

theorem flush (m : Memory) : m.flush.Backed log space := of_empty (.flush _ m)

theorem invalidatePath (h : m.Backed log space) : m.invalidatePath.Backed log space := by
  refine ⟨h.translated.invalidatePath, h.trusted.tlb, fun slot write e _ he => ?_⟩
  rw [show m.invalidatePath.path = m.path.invalidate from rfl, AccessPath.line_invalidate] at he
  cases he

theorem resolve (h : m.Backed log space) (hs : space.Aligned) (hr : m.ram.Paged) (slot : Slot)
    (vaddr : UInt32) (access : Access) (user : Bool) :
    let result := Memory.resolve space slot vaddr access user m
    (stateOf result).Backed (.accessed (pageNumber vaddr) (answerOf result).isOk :: log) space := by
  intro result
  refine ⟨Remembers.resolve (h.translated.mono fun _ _ => .inr) fun mapping ram hw => .inl ⟨rfl, ?_⟩,
    (TrustedOn.resolve slot vaddr access user hs hr h.trusted).1⟩
  have hresult : Resolved space slot vaddr access user m result :=
    resolve_resolved space slot vaddr access user m
  clear_value result
  cases hresult with
  | faulted hm hf hw' =>
    rw [hw] at hw'
    cases hw'
  | _ => rfl

/-- A write leaves what is cached of the pages whose entries it does not rewrite. -/
theorem write (h : m.Backed log space) (hr : m.ram.Paged) {fn : Ram → Ram}
    (hsize : (fn m.ram).bytes.size = m.ram.bytes.size) :
    (m.mapRam fn).Backed (.written space m.ram (fn m.ram) :: log) space := by
  have hkeep {page vaddr frame : UInt32} {access : Access} {user : Bool} (hv : pageNumber vaddr = page)
      (hcached : Translated page log) (hn : ¬Outdated page (.written space m.ram (fn m.ram) :: log))
      (hset : ¬Outdated page log → m.ram.Settled space vaddr access user frame) :
      (fn m.ram).Settled space vaddr access user frame := by
    obtain ⟨hwrite, hold⟩ := not_or.1 hn
    exact (hset hold).of_not_rewrites hr hsize fun hre => hwrite ⟨hcached, hv ▸ hre⟩
  exact ⟨h.translated.mapRam fn,
    fun page mapping hp he vaddr access user hv hg => hkeep hv (h.translated.tlb _ _ he) hp
      fun hold => h.trusted.tlb page mapping hold he vaddr access user hv hg,
    fun slot write e hp he vaddr access user hv hg => hkeep hv (h.translated.path _ _ _ he) hp
      fun hold => h.trusted.path slot write e hold he vaddr access user hv hg⟩

theorem asked (h : m.Backed log space) (asked : HostLog) :
    m.Backed (asked.map (fun call => .asked call.1 call.2) ++ log) space := by
  constructor
  · simpa only [translated_asked] using h.translated
  · simpa only [outdated_asked] using h.trusted

end Backed

end Memory

/-! ## Code -/

namespace Machine

/-- Whether the events since a machine was made say what its caches may hold, in memory of whole
pages with a directory that is aligned. -/
def Backed (log : List MachineEvent) (m : Machine) : Prop :=
  m.memory.ram.Paged → m.regs.space.Aligned → m.memory.Backed log m.regs.space

theorem aligned_newSpace {op : Operation} {r : Registers} {ram : Ram} {space : AddressSpace}
    (h : newSpace? op r ram = some space) (hr : r.space.Aligned) : space.Aligned := by
  have hbase : (pageBase r.a).toNat % 4 = 0 := by
    rw [pageBase_toNat]
    omega
  cases op with
  | setDirectory =>
    rw [newSpace?] at h
    split at h
    · obtain rfl := Option.some.inj h
      intro d hd
      rwa [← Option.some.inj hd]
    · cases h
  | setPaging =>
    rw [newSpace?] at h
    split at h
    · obtain rfl := Option.some.inj h
      exact hr
    · cases h
  | _ => cases h

/-- What becomes of memory with these events. -/
structure Kept (m : Machine) (events : List MachineEvent) (m' : Machine) : Prop where
  size : m'.memory.ram.bytes.size = m.memory.ram.bytes.size
  aligned : m.regs.space.Aligned → m'.regs.space.Aligned
  backed : ∀ log, m.Backed log → m'.Backed (events ++ log)

namespace Kept

variable {m m' m'' : Machine} {events events' : List MachineEvent}

theorem paged (h : Kept m events m') (hr : m.memory.ram.Paged) : m'.memory.ram.Paged := by
  rwa [Ram.Paged, h.size]

/-- Memory stays as it is while the host is asked. -/
theorem apart (hm : m'.memory = m.memory) (hs : m'.regs.space = m.regs.space) (asked : HostLog) :
    Kept m (asked.map fun call => .asked call.1 call.2) m' := by
  refine ⟨by rw [hm], by rw [hs]; exact id, fun log h hr ha => ?_⟩
  rw [hm] at hr ⊢
  rw [hs] at ha ⊢
  exact (h hr ha).asked asked

theorem refl (m : Machine) : Kept m [] m := apart rfl rfl []

theorem trans (h : Kept m events m') (h' : Kept m' events' m'') : Kept m (events' ++ events) m'' := by
  refine ⟨h'.size.trans h.size, fun ha => h'.aligned (h.aligned ha), fun log hb => ?_⟩
  rw [List.append_assoc]
  exact h'.backed _ (h.backed _ hb)

theorem access (slot : Slot) (vaddr : UInt32) (access : Access) (m : Machine) :
    Kept m [.accessed (pageNumber vaddr) (answerOf (Machine.resolve slot vaddr access m)).isOk]
      (stateOf (Machine.resolve slot vaddr access m)) := by
  have hsize := Memory.size_resolve m.regs.space slot vaddr access m.regs.user m.memory
  have hbacked (log) (h : m.Backed log) (hr : m.memory.ram.Paged) (ha : m.regs.space.Aligned) :=
    (h hr ha).resolve ha hr slot vaddr access m.regs.user
  rw [resolve_apply]
  cases hresult : Memory.resolve m.regs.space slot vaddr access m.regs.user m.memory <;>
    rw [hresult] at hsize <;>
    simp only [hresult] at hbacked <;>
    exact ⟨hsize, id, fun log h hr ha => hbacked log h (by rwa [Ram.Paged, ← hsize]) ha⟩

theorem write {fn : Ram → Ram} (hsize : ∀ r, (fn r).bytes.size = r.bytes.size) (m : Machine) :
    Kept m [.written m.regs.space m.memory.ram (fn m.memory.ram)]
      { m with memory := m.memory.mapRam fn } :=
  ⟨hsize _, id, fun log h hr ha =>
    have hr : m.memory.ram.Paged := by
      rw [Ram.Paged, ← hsize m.memory.ram]
      exact hr
    (h hr ha).write hr (hsize _)⟩

theorem enter {op : Operation} (h : op = .setDirectory ∨ op = .setPaging) (i : Instruction)
    (m : Machine) :
    Kept m (if (newSpace? op m.regs m.memory.ram).isSome then [.emptied] else [])
      (stateOf (perform op i m)) := by
  rw [perform_newSpace h]
  cases hs : newSpace? op m.regs m.memory.ram with
  | none => exact .refl m
  | some space => exact ⟨rfl, aligned_newSpace hs, fun log _ _ _ => .flush _⟩

end Kept

theorem Traced.kept {ε α : Type} {x : EStateM ε Machine α} {m : Machine} {events : List MachineEvent}
    (h : Traced x m events) : Kept m events (stateOf (x m)) := by
  induction h with
  | pure a m => exact .refl m
  | throw e m => exact .refl m
  | bind h hr h' ih ih' =>
    rw [hr] at ih
    rw [bind_apply, hr]
    exact ih.trans ih'
  | stop h hr ih =>
    rw [hr] at ih
    rwa [bind_apply, hr]
  | handled h hr h' ih ih' =>
    rw [hr] at ih
    rw [handle_apply, hr]
    exact ih.trans ih'
  | unhandled h hr ih =>
    rw [hr] at ih
    rwa [handle_apply, hr]
  | look hf h ih => exact ih
  | apart m hfn => exact .apart (hfn.memory m m.memory ▸ rfl) (hfn.space m) []
  | sockets hfn hcalls =>
    rw [onSockets_apply]
    refine .apart ?_ ?_ _ <;> rfl
  | access slot vaddr access m => exact .access slot vaddr access m
  | write m hsize => exact .write hsize m
  | enter i m h => exact .enter h i m
  | invalidatePath m => exact ⟨rfl, id, fun log h hr ha => (h hr ha).invalidatePath⟩

/-! ## Machines in the hands of the host -/

/-- What happened to a machine since it was made, latest first. -/
inductive Past : Machine → List MachineEvent → Prop
  | made (ram : Ram) (fastPath : Bool) (capacity : Nat) (bridge : Bridge) :
      Past (.make ram fastPath capacity bridge) []
  /-- It ran. -/
  | ran {α : Type} {x : Delivery α} {m : Machine} {events log : List MachineEvent} : Past m log →
      Traced x m events → Past (stateOf (x m)) (events ++ log)
  /-- The host wrote to its memory. -/
  | poked {fn : Ram → Ram} {m : Machine} {log : List MachineEvent} : Past m log →
      (∀ r, (fn r).bytes.size = r.bytes.size) →
        Past { m with memory := m.memory.mapRam fn }
          (.written m.regs.space m.memory.ram (fn m.memory.ram) :: log)
  /-- The host changed what memory and its use do not depend on. -/
  | changed {m m' : Machine} {log : List MachineEvent} : Past m log → m'.memory = m.memory →
      m'.regs.space = m.regs.space → Past m' log
  | invalidatedPath {m : Machine} {log : List MachineEvent} : Past m log →
      Past { m with memory := m.memory.invalidatePath } log
  /-- The host emptied the caches: it started the machine over, or went on from a snapshot. -/
  | emptied {m m' : Machine} {ram : Ram} {log : List MachineEvent} : Past m log →
      m'.memory = m.memory.flush.mapRam (fun _ => ram) → Past m' (.emptied :: log)

theorem Past.backed {m : Machine} {log : List MachineEvent} (h : Past m log) : m.Backed log := by
  induction h with
  | made ram fastPath capacity bridge => exact fun _ _ => .of_empty (.fresh _ ram capacity fastPath)
  | ran h htraced ih => exact htraced.kept.backed _ ih
  | poked h hsize ih => exact (Kept.write hsize _).backed _ ih
  | changed h hm hs ih => exact (Kept.apart hm hs []).backed _ ih
  | invalidatedPath h ih => exact fun hr ha => (ih hr ha).invalidatePath
  | emptied h hm ih =>
    intro _ _
    rw [hm]
    exact .of_empty ((Memory.Remembers.flush _ _).mapRam _)

end Machine

/-! ## Sessions -/

/-- Whether memory keeps its size, and its use stays as the guest set it. -/
def SessionOp.Orderly : SessionOp → Prop
  | .poke fn => ∀ r, (fn r).bytes.size = r.bytes.size
  | .change regs _ _ => ∀ r, (regs r).space = r.space
  | _ => True

namespace Emulator

/-- Operations of the host after which the machine has a past if it had one. -/
def Dated {α : Type} (f : Emulator → α × Emulator) : Prop :=
  ∀ e : Emulator, (∃ log, e.machine.Past log) → ∃ log, (f e).2.machine.Past log

namespace Dated

variable {α β : Type}

theorem seq {f : Emulator → α × Emulator} {g : α → Emulator → β × Emulator} (hf : Dated f)
    (hg : ∀ a, Dated (g a)) : Dated fun e => g (f e).1 (f e).2 :=
  fun e h => hg _ _ (hf e h)

theorem const (a : α) : Dated fun e => (a, e) := fun _ h => h

theorem map {f : Emulator → α × Emulator} (hf : Dated f) (fn : α → β) :
    Dated fun e => (f e).map fn id :=
  fun e h => hf e h

theorem onMachine {x : Delivery α} (hx : ∀ m, ∃ events, Machine.Traced x m events) :
    Dated (onMachine x) := by
  rintro e ⟨log, h⟩
  obtain ⟨events, htraced⟩ := hx e.machine
  rw [machine_onMachine]
  exact ⟨_, h.ran htraced⟩

theorem onRam {fn : Ram → α × Ram} (hsize : ∀ r, (fn r).2.bytes.size = r.bytes.size) :
    Dated (onRam fn) :=
  fun _ ⟨_, h⟩ => ⟨_, @Machine.Past.poked (fun r => (fn r).2) _ _ h hsize⟩

theorem reset (pc sp : UInt32) (a : α) :
    Dated fun e => (a, { e with machine := e.machine.reset pc sp }) :=
  fun _ ⟨_, h⟩ => ⟨_, h.emptied rfl⟩

theorem loadFilesystem (codec : Codec) (files : Files) : Dated (loadFilesystem codec files) := by
  intro e h
  rw [Emulator.loadFilesystem]
  split
  · exact h
  · split
    · exact h
    · refine onRam (fun r => ?_) e h
      unfold Image.loadFilesystem
      split
      · rfl
      · split
        · rfl
        · exact Ram.size_blit ..

theorem loadExecutable (image : ByteArray) : Dated (loadExecutable image) := by
  rw [loadExecutable_eq]
  refine (onRam fun r => ?_).seq fun result => ?_
  · unfold Image.loadExecutable
    split
    · rfl
    · dsimp only
      split
      · rfl
      · rw [Ram.size_fill, Ram.size_blit]
  · cases result with
    | error err => exact const _
    | ok entry => exact reset entry.pc entry.sp _

theorem load (codec : Codec) (files : Files) (image : ByteArray) :
    Dated (load codec files image) := by
  rw [load_eq]
  refine (loadFilesystem codec files).seq fun result => ?_
  cases result with
  | error err => exact const _
  | ok u => exact loadExecutable image

theorem restore (snapshot : Snapshot) : Dated (restore snapshot) := by
  rintro e ⟨log, h⟩
  rw [Emulator.restore]
  split
  · exact ⟨log, h⟩
  · exact ⟨_, h.emptied rfl⟩

theorem serve {op : SessionOp} (h : op.Orderly) : Dated (serve · op) := by
  cases op with
  | step => exact (onMachine Machine.exists_traced_step).map _
  | run budget =>
    exact (onMachine (Machine.pieces_traced.parts.run Machine.looksBack_traced budget)).map _
  | load codec files image => exact (load codec files image).map _
  | restore snapshot => exact (restore snapshot).map _
  | reset pc sp => exact reset pc sp _
  | resume regs timer => exact fun _ ⟨_, hp⟩ => ⟨_, hp.emptied rfl⟩
  | poke fn =>
    have hpoke : Dated (Emulator.onRam fun ram => ((), fn ram)) := onRam h
    exact hpoke.seq fun _ => const _
  | change regs timer bridge => exact fun _ ⟨_, hp⟩ => ⟨_, hp.changed rfl (h _)⟩
  | flush => exact fun _ ⟨_, hp⟩ => ⟨_, hp.emptied rfl⟩
  | invalidatePath => exact fun _ ⟨_, hp⟩ => ⟨_, hp.invalidatedPath⟩

/-- Every machine that a session leads to has a past. -/
theorem session {ops : List SessionOp} (h : ∀ op ∈ ops, op.Orderly) : Dated (session · ops) := by
  induction ops with
  | nil => exact const _
  | cons op ops ih =>
    have hrest := ih fun op hop => h op (List.mem_cons_of_mem _ hop)
    exact (serve (h op (List.mem_cons_self ..))).seq fun reply => hrest.map (reply :: ·)

end Dated

end Emulator

end PagedMachine
