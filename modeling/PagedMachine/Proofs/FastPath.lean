import PagedMachine.Emulator
import PagedMachine.Proofs.Closure
import PagedMachine.Proofs.Coherence
import PagedMachine.Proofs.OnePage

/-!
# The page cache does not show

Two emulators that differ only in whether they have a page cache answer every sequence of operations
of the host alike, and their machines stay equal but for the cache and for the hits that the buffer
counts in its place (`session_safe_eq_fast`). The proof is a simulation: `Machine.forget` takes the
cache away, and code is `Blind` if it does the same to a machine without its cache.
-/

set_option autoImplicit false

namespace PagedMachine

/-! ## Taking the page cache away -/

/-- Memory without its page cache, as if the buffer had answered instead. -/
def Memory.forget (m : Memory) : Memory :=
  { m with tlb := m.tlb.credit m.path.hits, path := .uncached }

/-- The machine with such a memory. -/
def Machine.forget (m : Machine) : Machine := { m with memory := m.memory.forget }

namespace Memory

theorem forget_flush (m : Memory) : m.flush.forget = m.forget.flush := by
  simp only [forget, flush, AccessPath.hits_invalidate, Tlb.flush_credit]
  rfl

theorem forget_invalidatePath (m : Memory) : m.invalidatePath.forget = m.forget.invalidatePath := by
  simp only [forget, invalidatePath, AccessPath.hits_invalidate]
  rfl

section
variable {m : Memory}

/-- Without a page cache the buffer is asked first. -/
theorem resolve_forget (space : AddressSpace) (slot : Slot) (vaddr : UInt32) (access : Access)
    (user : Bool) (m : Memory) :
    resolve space slot vaddr access user m.forget =
      match m.tlb.find? (rightOf access user) (pageNumber vaddr) with
      | some mapping =>
        .ok (mapping.frame ||| pageOffset vaddr)
          { m.forget with tlb := m.tlb.credit (m.path.hits + 1) }
      | none =>
        match walk space vaddr access user m.ram with
        | .ok mapping ram =>
          .ok (mapping.frame ||| pageOffset vaddr)
            { ram
              tlb := (({ m.tlb with misses := m.tlb.misses + 1 } : Tlb).insert (pageNumber vaddr)
                mapping).credit m.path.hits
              path := .uncached }
        | .error fault ram =>
          .error fault
            { ram
              tlb := ({ m.tlb with misses := m.tlb.misses + 1 } : Tlb).credit m.path.hits
              path := .uncached } := by
  have hright : (⟨user, access.writes⟩ : Right) = rightOf access user := rfl
  simp only [resolve, forget, AccessPath.probe_uncached, Tlb.lookup, Tlb.find?_credit, hright]
  cases m.tlb.find? (rightOf access user) (pageNumber vaddr) with
  | some mapping => rfl
  | none =>
    dsimp only
    cases walk space vaddr access user m.ram with
    | ok mapping ram =>
      dsimp only
      rw [← Tlb.insert_credit]
      rfl
    | error fault ram => rfl

/-- Resolving an address is the same without the page cache. -/
theorem Coherent.resolve_forget (space : AddressSpace) (slot : Slot) (vaddr : UInt32)
    (access : Access) (user : Bool) (h : m.Coherent) (ht : m.tlb.epoch < UInt64.size) :
    Memory.resolve space slot vaddr access user m.forget =
      mapState forget (Memory.resolve space slot vaddr access user m) := by
  rw [Memory.resolve_forget]
  have hresult := resolve_resolved space slot vaddr access user m
  generalize Memory.resolve space slot vaddr access user m = result at hresult
  cases hresult with
  | remembered hl =>
    obtain ⟨mapping, hf, rfl⟩ := h.find?_of_line ht hl
    simp only [hf, mapState, forget, AccessPath.hits_answered hl]
  | found hm hf =>
    simp only [hf, mapState, forget, AccessPath.hits_fill]
    simp only [Tlb.credit, Nat.add_assoc, Nat.add_comm 1]
  | walked hm hf hw => simp only [hf, hw, mapState, forget, AccessPath.hits_fill]
  | faulted hm hf hw => simp only [hf, hw, mapState, forget]

end

end Memory

/-! ## Code that does not notice -/

/-- Code that keeps the page cache coherent and does the same without it, as long as the epochs of
the buffer have their own generations. -/
structure Blind {ε α : Type} (x : EStateM ε Machine α) : Prop where
  coherent : ∀ m, m.memory.Coherent → (stateOf (x m)).memory.Coherent
  epoch : ∀ m, m.memory.tlb.epoch ≤ (stateOf (x m)).memory.tlb.epoch
  forget : ∀ m, m.memory.Coherent → (stateOf (x m)).memory.tlb.epoch < UInt64.size →
    x m.forget = mapState Machine.forget (x m)

namespace Blind

variable {ε ε' α β : Type}

theorem pure (a : α) : Blind (pure a : EStateM ε Machine α) :=
  ⟨fun _ hc => hc, fun _ => Nat.le_refl _, fun _ _ _ => rfl⟩

theorem throw (e : ε) : Blind (throw e : EStateM ε Machine α) :=
  ⟨fun _ hc => hc, fun _ => Nat.le_refl _, fun _ _ _ => rfl⟩

theorem bind {x : EStateM ε Machine α} {f : α → EStateM ε Machine β} (hx : Blind x)
    (hf : ∀ a, Blind (f a)) : Blind (x >>= f) := by
  refine ⟨fun m hc => ?_, fun m => ?_, fun m hc hn => ?_⟩
  · have h1 := hx.coherent m hc
    rw [bind_apply]
    cases hr : x m with
    | ok a m1 => exact (hf a).coherent m1 (by rwa [hr] at h1)
    | error e m1 => rwa [hr] at h1
  · have h1 := hx.epoch m
    rw [bind_apply]
    cases hr : x m with
    | ok a m1 =>
      rw [hr] at h1
      exact Nat.le_trans h1 ((hf a).epoch m1)
    | error e m1 => rwa [hr] at h1
  · have h1 := hx.coherent m hc
    rw [bind_apply] at hn
    rw [bind_apply, bind_apply]
    cases hr : x m with
    | ok a m1 =>
      rw [hr] at hn h1
      have h2 := hx.forget m hc (by rw [hr]; exact Nat.lt_of_le_of_lt ((hf a).epoch m1) hn)
      rw [h2, hr]
      exact (hf a).forget m1 h1 hn
    | error e m1 =>
      rw [hr] at hn
      have h2 := hx.forget m hc (by rwa [hr])
      rw [h2, hr]
      rfl

theorem handle {x : EStateM ε Machine α} {f : ε → EStateM ε' Machine α} (hx : Blind x)
    (hf : ∀ e, Blind (f e)) : Blind (handle x f) := by
  refine ⟨fun m hc => ?_, fun m => ?_, fun m hc hn => ?_⟩
  · have h1 := hx.coherent m hc
    rw [handle_apply]
    cases hr : x m with
    | ok a m1 => rwa [hr] at h1
    | error e m1 => exact (hf e).coherent m1 (by rwa [hr] at h1)
  · have h1 := hx.epoch m
    rw [handle_apply]
    cases hr : x m with
    | ok a m1 => rwa [hr] at h1
    | error e m1 =>
      rw [hr] at h1
      exact Nat.le_trans h1 ((hf e).epoch m1)
  · have h1 := hx.coherent m hc
    rw [handle_apply] at hn
    rw [handle_apply, handle_apply]
    cases hr : x m with
    | ok a m1 =>
      rw [hr] at hn
      have h2 := hx.forget m hc (by rwa [hr])
      rw [h2, hr]
      rfl
    | error e m1 =>
      rw [hr] at hn h1
      have h2 := hx.forget m hc (by rw [hr]; exact Nat.lt_of_le_of_lt ((hf e).epoch m1) hn)
      rw [h2, hr]
      exact (hf e).forget m1 h1 hn

theorem look {f : Machine → EStateM ε Machine α}
    (hv : ∀ m memory, memory.ram = m.memory.ram → f { m with memory } = f m)
    (hf : ∀ m, Blind (f m)) : Blind (get >>= f) := by
  refine ⟨fun m hc => (hf m).coherent m hc, fun m => (hf m).epoch m, fun m hc hn => ?_⟩
  have hview : f m.forget = f m := hv m m.memory.forget rfl
  show f m.forget m.forget = mapState Machine.forget (f m m)
  rw [hview]
  exact (hf m).forget m hc hn

/-- What does not touch memory does not touch the caches. -/
theorem apart {fn : Machine → α × Machine}
    (hfn : ∀ m memory, fn { m with memory } = ((fn m).1, { (fn m).2 with memory })) :
    Blind (modifyGet fn : EStateM ε Machine α) := by
  have hm (m : Machine) : (fn m).2.memory = m.memory := congrArg (·.2.memory) (hfn m m.memory)
  refine ⟨fun m hc => ?_, fun m => ?_, fun m hc hn => ?_⟩
  · rw [modifyGet_apply, stateOf_ok, hm]
    exact hc
  · exact Nat.le_of_eq (congrArg (·.tlb.epoch) (hm m).symm)
  · rw [modifyGet_apply, modifyGet_apply, Machine.forget, hfn, mapState, Machine.forget, hm]

/-- Changes of memory that the page cache does not notice. -/
theorem modifyMemory {fn : Memory → Memory} (hc : ∀ m, m.Coherent → (fn m).Coherent)
    (he : ∀ m, m.tlb.epoch ≤ (fn m).tlb.epoch) (hf : ∀ m, (fn m).forget = fn m.forget) :
    Blind (Machine.modifyMemory fn : EStateM ε Machine Unit) :=
  ⟨fun m => hc m.memory, fun m => he m.memory, fun m _ _ => by
    simp only [Machine.modifyMemory_apply, Machine.forget, mapState, hf]⟩

theorem access (space : AddressSpace) (slot : Slot) (vaddr : UInt32) (access : Access)
    (user : Bool) : Blind (Machine.onMemory (Memory.resolve space slot vaddr access user)) := by
  refine ⟨fun m hc => ?_, fun m => ?_, fun m hc hn => ?_⟩
  · have h := hc.resolve space slot vaddr access user
    rw [Machine.onMemory_apply]
    cases hr : Memory.resolve space slot vaddr access user m.memory <;> rwa [hr] at h
  · have h := m.memory.epoch_le_resolve space slot vaddr access user
    rw [Machine.onMemory_apply]
    cases hr : Memory.resolve space slot vaddr access user m.memory <;> rwa [hr] at h
  · have h := m.memory.epoch_le_resolve space slot vaddr access user
    have hlt : m.memory.tlb.epoch < UInt64.size := by
      rw [Machine.onMemory_apply] at hn
      cases hr : Memory.resolve space slot vaddr access user m.memory with
      | ok pa memory =>
        rw [hr] at hn h
        exact Nat.lt_of_le_of_lt h hn
      | error fault memory =>
        rw [hr] at hn h
        exact Nat.lt_of_le_of_lt h hn
    have hforget := hc.resolve_forget space slot vaddr access user hlt
    rw [Machine.onMemory_apply, Machine.onMemory_apply, Machine.forget, hforget]
    cases Memory.resolve space slot vaddr access user m.memory <;> rfl

/-- So no instruction notices the page cache. -/
theorem closed : Machine.Closed Blind where
  pure := pure
  throw := throw
  bind := bind
  handle := handle
  look := look
  apart := apart
  ram _ := modifyMemory (fun _ hc => hc) (fun _ => Nat.le_refl _) fun _ => rfl
  access := access
  flush := modifyMemory (fun m _ => m.coherent_flush) (fun _ => Nat.le_succ _) Memory.forget_flush
  invalidatePath := modifyMemory (fun m _ => m.coherent_invalidatePath) (fun _ => Nat.le_refl _)
    Memory.forget_invalidatePath

end Blind

/-! ## Sessions of the host -/

/-- What the host does with an emulator. -/
inductive SessionOp
  | step
  | run (budget : UInt64)
  | load (codec : Codec) (files : Files) (image : ByteArray)
  | restore (snapshot : Snapshot)
  /-- Starts the machine over at an address. -/
  | reset (pc sp : UInt32)
  /-- Goes on from other registers and another timer. -/
  | resume (regs : Registers) (timer : Timer)
  /-- Writes to memory. -/
  | poke (fn : Ram → Ram)
  /-- Changes the state outside memory: types keys, connects sockets, sets registers. -/
  | change (regs : Registers → Registers) (timer : Timer → Timer) (bridge : Bridge → Bridge)
  | flush
  | invalidatePath

/-- What the host sees of an operation. A fatal error comes with the registers it shows. -/
inductive SessionReply
  | stepped (result : Except (FatalReason × Machine.Dump) Flow)
  | ran (result : Except (FatalReason × Machine.Dump) Machine.RunExit)
  | loaded (result : Except LoadError Image.Entry)
  | restored (result : Except LoadError Unit)
  | done

namespace Emulator

/-- Runs code on the machine. -/
def onMachine {α : Type} (x : Delivery α) (e : Emulator) :
    Except (FatalReason × Machine.Dump) α × Emulator :=
  match x e.machine with
  | .ok a machine => (.ok a, { e with machine })
  | .error reason machine => (.error (reason, machine.dump), { e with machine })

theorem machine_onMachine {α : Type} (x : Delivery α) (e : Emulator) :
    (e.onMachine x).2.machine = stateOf (x e.machine) := by
  rw [onMachine]
  cases x e.machine <;> rfl

/-- One operation of the host. -/
def serve (e : Emulator) : SessionOp → SessionReply × Emulator
  | .step => (e.onMachine Machine.step).map .stepped id
  | .run budget => (e.onMachine (Machine.run budget)).map .ran id
  | .load codec files image => (e.load codec files image).map .loaded id
  | .restore snapshot => (e.restore snapshot).map .restored id
  | .reset pc sp => (.done, { e with machine := e.machine.reset pc sp })
  | .resume regs timer => (.done, { e with machine := e.machine.restore regs timer })
  | .poke fn => (.done, (e.onRam fun ram => ((), fn ram)).2)
  | .change regs timer bridge =>
    (.done, { e with machine := { e.machine with
      regs := regs e.machine.regs
      timer := timer e.machine.timer
      bridge := bridge e.machine.bridge } })
  | .flush => (.done, { e with machine := { e.machine with memory := e.machine.memory.flush } })
  | .invalidatePath =>
    (.done, { e with machine := { e.machine with memory := e.machine.memory.invalidatePath } })

/-- All replies to some operations, and the emulator after them. -/
def session (e : Emulator) : List SessionOp → List SessionReply × Emulator
  | [] => ([], e)
  | op :: ops =>
    let (reply, e) := e.serve op
    let (replies, e) := e.session ops
    (reply :: replies, e)

/-- Starts the machine over at the entry of an executable that was loaded. -/
def enter (result : Except LoadError Image.Entry) (e : Emulator) :
    Except LoadError Image.Entry × Emulator :=
  match result with
  | .error err => (.error err, e)
  | .ok entry => (.ok entry, { e with machine := e.machine.reset entry.pc entry.sp })

/-- Loads an executable behind the filesystem. -/
def loadBehind (image : ByteArray) (result : Except LoadError Unit) (e : Emulator) :
    Except LoadError Image.Entry × Emulator :=
  match result with
  | .error err => (.error err, e)
  | .ok _ => e.loadExecutable image

theorem loadExecutable_eq (image : ByteArray) :
    loadExecutable image = fun e =>
      enter (e.onRam (Image.loadExecutable · image)).1 (e.onRam (Image.loadExecutable · image)).2 := by
  funext e
  rw [loadExecutable]
  cases e.onRam (Image.loadExecutable · image) with
  | mk result e => cases result <;> rfl

theorem load_eq (codec : Codec) (files : Files) (image : ByteArray) :
    load codec files image = fun e =>
      loadBehind image (e.loadFilesystem codec files).1 (e.loadFilesystem codec files).2 := by
  funext e
  rw [load]
  cases e.loadFilesystem codec files with
  | mk result e => cases result <;> rfl

/-- The emulator without its page cache, configured so. -/
def forget (e : Emulator) : Emulator :=
  { machine := e.machine.forget, config := { e.config with fastPath := false } }

/-- What is done to an emulator without notice of the page cache, as `PagedMachine.Blind`. -/
structure Blind {α : Type} (f : Emulator → α × Emulator) : Prop where
  coherent : ∀ e, e.machine.memory.Coherent → (f e).2.machine.memory.Coherent
  epoch : ∀ e, e.machine.memory.tlb.epoch ≤ (f e).2.machine.memory.tlb.epoch
  forget : ∀ e, e.machine.memory.Coherent → (f e).2.machine.memory.tlb.epoch < UInt64.size →
    f e.forget = ((f e).1, (f e).2.forget)

namespace Blind

variable {α β : Type}

theorem seq {f : Emulator → α × Emulator} {g : α → Emulator → β × Emulator} (hf : Blind f)
    (hg : ∀ a, Blind (g a)) : Blind fun e => g (f e).1 (f e).2 := by
  refine ⟨fun e hc => ?_, fun e => ?_, fun e hc hn => ?_⟩
  · exact (hg _).coherent _ (hf.coherent e hc)
  · exact Nat.le_trans (hf.epoch e) ((hg _).epoch _)
  · rw [hf.forget e hc (Nat.lt_of_le_of_lt ((hg _).epoch _) hn)]
    exact (hg _).forget _ (hf.coherent e hc) hn

theorem const (a : α) : Blind fun e => (a, e) :=
  ⟨fun _ hc => hc, fun _ => Nat.le_refl _, fun _ _ _ => rfl⟩

theorem map {f : Emulator → α × Emulator} (hf : Blind f) (fn : α → β) :
    Blind fun e => (f e).map fn id :=
  hf.seq fun a => const (fn a)

theorem onMachine {x : Delivery α} (hx : PagedMachine.Blind x) : Blind (onMachine x) := by
  refine ⟨fun e hc => ?_, fun e => ?_, fun e hc hn => ?_⟩
  · have h := hx.coherent e.machine hc
    rw [Emulator.onMachine]
    cases hr : x e.machine <;> rwa [hr] at h
  · have h := hx.epoch e.machine
    rw [Emulator.onMachine]
    cases hr : x e.machine <;> rwa [hr] at h
  · have h : x e.machine.forget = _ := hx.forget e.machine hc (by
      rw [Emulator.onMachine] at hn
      cases hr : x e.machine <;> rwa [hr] at hn)
    rw [Emulator.onMachine, Emulator.onMachine, Emulator.forget, h]
    cases x e.machine <;> rfl

theorem onRam (fn : Ram → α × Ram) : Blind (onRam fn) :=
  ⟨fun _ hc => hc, fun _ => Nat.le_refl _, fun _ _ _ => rfl⟩

/-- A change that empties the caches. -/
theorem of_flush {f : Emulator → α × Emulator}
    (hm : ∀ e, (f e).2.machine.memory.tlb = e.machine.memory.tlb.flush)
    (hp : ∀ e, (f e).2.machine.memory.path = e.machine.memory.path.invalidate)
    (hf : ∀ e, f e.forget = ((f e).1, (f e).2.forget)) : Blind f := by
  refine ⟨fun e _ => Memory.coherent_of_forget fun slot write => ?_, fun e => ?_,
    fun e _ _ => hf e⟩
  · rw [hp]
    exact AccessPath.line_invalidate ..
  · rw [hm]
    exact Nat.le_succ _

theorem loadFilesystem (codec : Codec) (files : Files) : Blind (loadFilesystem codec files) := by
  refine ⟨fun e hc => ?_, fun e => ?_, fun e hc hn => ?_⟩
  · rw [Emulator.loadFilesystem]
    split
    · exact hc
    · split
      · exact hc
      · exact (onRam _).coherent e hc
  · rw [Emulator.loadFilesystem]
    split
    · exact Nat.le_refl _
    · split
      · exact Nat.le_refl _
      · exact (onRam _).epoch e
  · have hconfig : e.forget.config.filesystem = e.config.filesystem := rfl
    rw [Emulator.loadFilesystem, Emulator.loadFilesystem, hconfig]
    cases e.config.filesystem with
    | none => rfl
    | some path =>
      dsimp only
      cases files.inflated codec path with
      | error err => rfl
      | ok data => rfl

theorem reset (pc sp : UInt32) (a : α) :
    Blind fun e => (a, { e with machine := e.machine.reset pc sp }) := by
  refine of_flush (fun _ => rfl) (fun _ => rfl) fun e => ?_
  simp only [Emulator.forget, Machine.forget, Machine.reset, Memory.forget_flush]

theorem loadExecutable (image : ByteArray) : Blind (loadExecutable image) := by
  rw [loadExecutable_eq]
  refine (onRam _).seq fun result => ?_
  cases result with
  | error err => exact const _
  | ok entry => exact reset ..

theorem load (codec : Codec) (files : Files) (image : ByteArray) :
    Blind (load codec files image) := by
  rw [load_eq]
  refine (loadFilesystem codec files).seq fun result => ?_
  cases result with
  | error err => exact const _
  | ok u => exact loadExecutable image

theorem restore (snapshot : Snapshot) : Blind (restore snapshot) := by
  by_cases hv : snapshot.version ≠ Snapshot.currentVersion
  · have he : Emulator.restore snapshot =
        fun e => (.error (.snapshotVersion snapshot.version), e) := by
      funext e
      rw [Emulator.restore, if_pos hv]
    rw [he]
    exact const _
  · refine of_flush (fun e => ?_) (fun e => ?_) fun e => ?_
    · rw [Emulator.restore, if_neg hv]
      rfl
    · rw [Emulator.restore, if_neg hv]
      rfl
    · rw [Emulator.restore, Emulator.restore, if_neg hv, if_neg hv]
      simp only [Emulator.forget, Machine.forget, Machine.restore, Memory.forget, Memory.flush,
        AccessPath.hits_invalidate, Tlb.flush_credit]
      rfl

theorem serve (op : SessionOp) : Blind (serve · op) := by
  cases op with
  | step => exact (onMachine PagedMachine.Blind.closed.step).map _
  | run budget => exact (onMachine (PagedMachine.Blind.closed.run budget)).map _
  | load codec files image => exact (load codec files image).map _
  | restore snapshot => exact (restore snapshot).map _
  | reset pc sp => exact reset pc sp _
  | resume regs timer =>
    refine of_flush (fun _ => rfl) (fun _ => rfl) fun e => ?_
    simp only [Emulator.serve, Emulator.forget, Machine.forget, Machine.restore, Memory.forget_flush]
  | poke fn => exact (onRam fun ram => ((), fn ram)).seq fun _ => const _
  | change regs timer bridge => exact ⟨fun _ hc => hc, fun _ => Nat.le_refl _, fun _ _ _ => rfl⟩
  | flush =>
    refine of_flush (fun _ => rfl) (fun _ => rfl) fun e => ?_
    simp only [Emulator.serve, Emulator.forget, Machine.forget, Memory.forget_flush]
  | invalidatePath =>
    refine ⟨fun e _ => e.machine.memory.coherent_invalidatePath, fun _ => Nat.le_refl _,
      fun e _ _ => ?_⟩
    simp only [Emulator.serve, Emulator.forget, Machine.forget, Memory.forget_invalidatePath]

theorem session (ops : List SessionOp) : Blind (session · ops) := by
  induction ops with
  | nil => exact const _
  | cons op ops ih => exact (serve op).seq fun reply => ih.map (reply :: ·)

end Blind

end Emulator

/-! ## Fetches that the page cache answers -/

namespace Memory

/-- Zeroed memory without paging from which the page of `pc` was fetched last. The buffer has room for
one page; whenever another took its place the count of its epochs went up, as it did at each flush. -/
def fetched (size pc : UInt32) (epoch misses hits : Nat) : Memory where
  ram := .zeroed size
  tlb := .holding (pageNumber pc) { frame := pageBase pc, writable := true, user := true } epoch 0
    misses epoch
  path := .cached { codeRead := some ⟨⟨false, false⟩, pageNumber pc, pageBase pc, epoch.toUInt64⟩, hits }

variable {space : AddressSpace} {size pc pc' : UInt32} {epoch misses hits : Nat}

theorem walk_zeroed (hs : space.paging = false) (hpc : pageBase pc < pageBase size) :
    walk space pc .fetch false (.zeroed size) =
      .ok { frame := pageBase pc, writable := true, user := true } (.zeroed size) := by
  rw [walk_of_not_paging hs, Ram.size_of_zeroed, if_pos hpc]

/-- The first fetch walks. -/
theorem resolve_unfetched (hs : space.paging = false) (hpc : pageBase pc < pageBase size) :
    resolve space .code pc .fetch false ⟨.zeroed size, .emptied epoch 0 0 epoch, .cached {}⟩ =
      .ok (pageBase pc ||| pageOffset pc) (fetched size pc epoch 1 0) := by
  have hm : Missed ⟨.zeroed size, .emptied epoch 0 0 epoch, .cached {}⟩ .code pc .fetch false :=
    fun _ h => Option.some_ne_none _ h.symm
  exact resolve_emptied hm (walk_zeroed hs hpc)

/-- The next fetches from the page are answered by the page cache. -/
theorem resolve_fetched (hpage : pageNumber pc' = pageNumber pc) :
    resolve space .code pc' .fetch false (fetched size pc epoch misses hits) =
      .ok (pageBase pc ||| pageOffset pc') (fetched size pc epoch misses (hits + 1)) := by
  refine resolve_of_line ?_
  rw [hpage]
  rfl

/-- One from another page walks, and that page takes its place. -/
theorem resolve_elsewhere (hs : space.paging = false) (hpc : pageBase pc' < pageBase size)
    (hpage : pageNumber pc ≠ pageNumber pc') :
    resolve space .code pc' .fetch false (fetched size pc epoch misses hits) =
      .ok (pageBase pc' ||| pageOffset pc') (fetched size pc' (epoch + 1) (misses + 1) hits) := by
  have hm : (fetched size pc epoch misses hits).Missed .code pc' .fetch false :=
    fun _ h => hpage (congrArg CachedPage.page (Option.some.inj h))
  exact resolve_replaced hm hpage (walk_zeroed hs hpc)

end Memory

namespace Machine

/-- A machine that executes one `halt` after the other. -/
def halting (bridge : Bridge) (pc : UInt32) (cycle : UInt64) (ipc : UInt32) (memory : Memory) :
    Machine :=
  { regs := { pc, cycle }, memory, bridge, ipc }

theorem step_halting {bridge : Bridge} {pc ipc pa size pc' : UInt32} {cycle : UInt64}
    {memory : Memory} {epoch misses hits : Nat} (hdue : (cycle + 1) % pollInterval.toUInt64 ≠ 0)
    (halign : pc &&& 3 = 0)
    (hr : Memory.resolve {} .code pc .fetch false memory =
      .ok pa (.fetched size pc' epoch misses hits)) :
    step (halting bridge pc cycle ipc memory) =
      .ok (.halt 0)
        (halting bridge (pc + 4) (cycle + 1) pc (.fetched size pc' epoch misses hits)) :=
  step_of_halt (m := halting bridge pc cycle ipc memory) hdue halign hr (Ram.read32_zeroed ..)

end Machine

namespace Emulator

theorem session_cons {e e' : Emulator} {op : SessionOp} (h : (e.serve op).2 = e')
    (ops : List SessionOp) : (e.session (op :: ops)).2 = (e'.session ops).2 := by
  subst h
  rfl

theorem serve_step {config : Config} {m m' : Machine} {flow : Flow} (h : m.step = .ok flow m') :
    (serve ⟨m, config⟩ .step).2 = ⟨m', config⟩ := by
  simp only [serve, onMachine, h, Prod.map, id]

end Emulator

/-! ## With and without the page cache -/

/-- Machines that are equal but for the page cache of the first, whose answers the buffer of the
second has counted. -/
structure Machine.SameButPageCache (fast safe : Machine) : Prop where
  regs : safe.regs = fast.regs
  ram : safe.memory.ram = fast.memory.ram
  timer : safe.timer = fast.timer
  bridge : safe.bridge = fast.bridge
  ipc : safe.ipc = fast.ipc
  ir : safe.ir = fast.ir
  blockBytes : safe.blockBytes = fast.blockBytes
  journal : safe.journal = fast.journal
  entries : safe.memory.tlb.entries = fast.memory.tlb.entries
  capacity : safe.memory.tlb.capacity = fast.memory.tlb.capacity
  epoch : safe.memory.tlb.epoch = fast.memory.tlb.epoch
  misses : safe.memory.tlb.misses = fast.memory.tlb.misses
  flushes : safe.memory.tlb.flushes = fast.memory.tlb.flushes
  hits : safe.memory.tlb.hits = fast.memory.tlb.hits + fast.memory.path.hits

theorem Machine.sameButPageCache_forget (m : Machine) : m.SameButPageCache m.forget := by
  constructor <;> rfl

/-- Emulators built with and without the page cache give the same replies to all operations of the
host and have the same machine after them. -/
theorem session_safe_eq_fast {config : Config} {console : Console} {fast safe : Emulator}
    {ops : List SessionOp}
    (hf : Emulator.ofConfig? { config with fastPath := true } console = .ok fast)
    (hs : Emulator.ofConfig? { config with fastPath := false } console = .ok safe)
    (hn : (fast.session ops).2.machine.memory.tlb.epoch < UInt64.size) :
    (safe.session ops).1 = (fast.session ops).1 ∧
      (fast.session ops).2.machine.SameButPageCache (safe.session ops).2.machine := by
  have hstart : fast.machine.memory.Coherent ∧ safe = fast.forget := by
    simp only [Emulator.ofConfig?, Bind.bind, Except.bind] at hf hs
    split at hf
    · cases hf
    · split at hs
      · cases hs
      · obtain rfl := Except.ok.inj hf
        obtain rfl := Except.ok.inj hs
        refine ⟨Memory.coherent_of_forget fun slot write => ?_, rfl⟩
        cases slot <;> cases write <;> rfl
  obtain ⟨hc, rfl⟩ := hstart
  have h := (Emulator.Blind.session ops).forget fast hc hn
  rw [h]
  exact ⟨rfl, Machine.sameButPageCache_forget _⟩

/-- Both run four halts, on two pages in turn. The page cache answers the second fetch of each, and the
buffer of one mapping drops the first page for the second. -/
theorem session_safe_eq_fast_halt :
    let config : Config := { megabytes := 1, tlbCapacity := 1 }
    let ops : List SessionOp :=
      [.reset 4096 0, .step, .step, .change (fun regs => { regs with pc := 8192 }) id id, .step, .step]
    ∃ fast safe, Emulator.ofConfig? { config with fastPath := true } {} = .ok fast ∧
      Emulator.ofConfig? { config with fastPath := false } {} = .ok safe ∧
      (fast.session ops).2.machine.memory.path.hits = 2 ∧
      (fast.session ops).2.machine.memory.tlb.flushes = 2 ∧
      (fast.session ops).2.machine.memory.tlb.epoch < UInt64.size ∧
      (safe.session ops).1 = (fast.session ops).1 ∧
      (fast.session ops).2.machine.SameButPageCache (safe.session ops).2.machine := by
  intro config ops
  -- the size is not to be computed with, or the memory is built
  obtain ⟨size, hsize⟩ : ∃ size, config.memoryBytes = size := ⟨_, rfl⟩
  have hin : pageBase 4096 < pageBase size ∧ pageBase 8192 < pageBase size := by
    rw [← hsize]
    decide
  let fast : Emulator :=
    { machine := .make (.zeroed size) true 1 { escape := config.escape }
      config := { config with fastPath := true } }
  let m₀ : Machine :=
    .halting fast.machine.bridge 4096 0 4096 ⟨.zeroed size, .emptied 1 0 0 1, .cached {}⟩
  let m₁ : Machine := .halting fast.machine.bridge 4100 1 4096 (.fetched size 4096 1 1 0)
  let m₂ : Machine := .halting fast.machine.bridge 4104 2 4100 (.fetched size 4096 1 1 1)
  let m₃ : Machine := .halting fast.machine.bridge 8192 2 4100 (.fetched size 4096 1 1 1)
  let m₄ : Machine := .halting fast.machine.bridge 8196 3 8192 (.fetched size 8192 2 2 1)
  let m₅ : Machine := .halting fast.machine.bridge 8200 4 8196 (.fetched size 8192 2 2 2)
  have hwalked : m₀.step = .ok (.halt 0) m₁ :=
    Machine.step_halting (by decide) (by decide) (Memory.resolve_unfetched rfl hin.1)
  have hanswered : m₁.step = .ok (.halt 0) m₂ :=
    Machine.step_halting (by decide) (by decide) (Memory.resolve_fetched (by decide))
  have hreplaced : m₃.step = .ok (.halt 0) m₄ :=
    Machine.step_halting (by decide) (by decide)
      (Memory.resolve_elsewhere rfl hin.2 (by decide))
  have hagain : m₄.step = .ok (.halt 0) m₅ :=
    Machine.step_halting (by decide) (by decide) (Memory.resolve_fetched (by decide))
  have hreset : (fast.serve (.reset 4096 0)).2 = ⟨m₀, fast.config⟩ := rfl
  have hchange : (Emulator.serve ⟨m₂, fast.config⟩
    (.change (fun regs => { regs with pc := 8192 }) id id)).2 = ⟨m₃, fast.config⟩ := rfl
  have hrun : (fast.session ops).2 = ⟨m₅, fast.config⟩ := by
    refine (Emulator.session_cons hreset _).trans ?_
    refine (Emulator.session_cons (Emulator.serve_step hwalked) _).trans ?_
    refine (Emulator.session_cons (Emulator.serve_step hanswered) _).trans ?_
    refine (Emulator.session_cons hchange _).trans ?_
    refine (Emulator.session_cons (Emulator.serve_step hreplaced) _).trans ?_
    exact Emulator.session_cons (Emulator.serve_step hagain) _
  have hn : (fast.session ops).2.machine.memory.tlb.epoch < UInt64.size := by
    rw [hrun]
    show 2 < UInt64.size
    decide
  have hf : Emulator.ofConfig? { config with fastPath := true } {} = .ok fast := by
    subst hsize
    rfl
  refine ⟨fast, _, hf, rfl, ?_, ?_, hn, session_safe_eq_fast hf rfl hn⟩
  · rw [hrun]
    rfl
  · rw [hrun]
    rfl

end PagedMachine
