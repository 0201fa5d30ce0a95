import PagedMachine.Proofs.Inside
import PagedMachine.Proofs.PreciseFaults

/-!
# No access leaves memory

In memory of whole pages no access ever goes past the end (`no_access_leaves_memory`). One part of
that is said of what is past the end: if there were more bytes, any bytes, a step would neither see
them nor change them (`Machine.governed_extended`).
-/

set_option autoImplicit false

namespace PagedMachine

namespace Ram

/-- Memory with more bytes past its end. -/
def extend (r : Ram) (tail : ByteArray) : Ram := ⟨r.bytes ++ tail⟩

variable {r : Ram} {tail : ByteArray} {addr : UInt32}

@[simp] theorem bytes_size_extend (r : Ram) (tail : ByteArray) :
    (r.extend tail).bytes.size = r.bytes.size + tail.size := ByteArray.size_append

/-- The size, as a word, does not tell whether there are further bytes, if they are 4 GiB. -/
theorem size_extend (ht : tail.size = UInt32.size) (r : Ram) : (r.extend tail).size = r.size := by
  refine UInt32.toNat_inj.1 ?_
  rw [size, size, UInt32.toNat_ofNat', UInt32.toNat_ofNat', bytes_size_extend, ht]
  exact Nat.add_mod_right ..

theorem byte_extend (r : Ram) (tail : ByteArray) (i : Nat) :
    (r.extend tail).byte i =
      if i < r.bytes.size then r.byte i else Bytes.at0 tail (i - r.bytes.size) :=
  Bytes.at0_append ..

theorem byte_extend_of_lt (tail : ByteArray) {i : Nat} (h : i < r.bytes.size) :
    (r.extend tail).byte i = r.byte i := by
  rw [byte_extend, if_pos h]

theorem holds_extend (tail : ByteArray) {n : Nat} (h : r.holds addr n = true) :
    (r.extend tail).holds addr n = true := by
  rw [holds_iff] at h ⊢
  rw [bytes_size_extend]
  omega

/-- What is read inside is the same. -/
theorem ReadsAt.extend {α : Type} {n : Nat} {read : Ram → UInt32 → α} (hread : ReadsAt n read)
    (tail : ByteArray) (h : r.holds addr n = true) : read (r.extend tail) addr = read r addr := by
  refine hread _ _ addr (holds_extend tail h) h fun k hk => byte_extend_of_lt tail ?_
  have := holds_iff.1 h
  omega

theorem ReadsAt₂.extend {α : Type} {n : Nat} {read : Ram → UInt32 → UInt32 → α}
    (hread : ReadsAt₂ n read) (tail : ByteArray) {pa pb : UInt32} (ha : r.holds pa n = true)
    (hb : r.holds pb n = true) : read (r.extend tail) pa pb = read r pa pb := by
  refine hread _ _ pa pb (holds_extend tail ha) (holds_extend tail hb) ha hb
    (fun k hk => byte_extend_of_lt tail ?_) fun k hk => byte_extend_of_lt tail ?_
  · have := holds_iff.1 ha
    omega
  · have := holds_iff.1 hb
    omega

/-- What is written inside does not touch the bytes past the end. -/
theorem blit_extend (tail : ByteArray) {data : ByteArray} (h : r.holds addr data.size = true) :
    (r.extend tail).blit addr data = (r.blit addr data).extend tail := by
  have hin := holds_iff.1 h
  refine ext_byte (by simp only [bytes_size_extend, size_blit]) fun j => ?_
  rw [byte_blit (holds_extend tail h), byte_extend, byte_extend, byte_blit h, size_blit]
  split
  · rw [if_pos (by omega)]
  · rfl

theorem copyWithin_extend (tail : ByteArray) {src dst : UInt32} {n : Nat}
    (hs : r.holds src n = true) (hd : r.holds dst n = true) :
    (r.extend tail).copyWithin src dst n = (r.copyWithin src dst n).extend tail := by
  have hs' := holds_iff.1 hs
  have hd' := holds_iff.1 hd
  refine ext_byte (by simp only [bytes_size_extend, size_copyWithin]) fun j => ?_
  rw [byte_copyWithin (holds_extend tail hs) (holds_extend tail hd), byte_extend, byte_extend,
    byte_extend, byte_copyWithin hs hd, size_copyWithin]
  split
  · rw [if_pos (by omega), if_pos (by omega)]
  · rfl

/-- Walks that read their entries inside do not see what is past the end. -/
theorem related_extend (ht : tail.size = UInt32.size) (n : Nat) :
    Related (fun r r' => r.bytes.size = n ∧ r' = r.extend tail) fun e => e.toNat + 4 ≤ n where
  size h := by
    rw [h.2]
    exact size_extend ht _
  entry h he := by
    rw [h.2]
    exact congrArg PageEntry.mk (readsAt_read32.extend tail (holds_iff.2 (h.1.symm ▸ he)))
  mark {r r' e} access h he := by
    have hin : r.holds e 4 = true := holds_iff.2 (h.1.symm ▸ he)
    have hentry : (r.extend tail).entry e = r.entry e :=
      congrArg PageEntry.mk (readsAt_read32.extend tail hin)
    refine ⟨(bytes_size_mark ..).trans h.1, ?_⟩
    rw [h.2, mark, mark, hentry]
    split
    · rw [write32_eq_blit, write32_eq_blit]
      exact blit_extend tail hin
    · rfl

end Ram

namespace Memory

/-- The entries that a walk reads lie in memory. -/
theorem Inside.holds_walkSlots {space : AddressSpace} {m : Memory} (h : m.Inside space)
    {vaddr slot : UInt32} (hslot : slot ∈ m.ram.walkSlots space vaddr) :
    m.ram.holds slot 4 = true := by
  rw [Ram.walkSlots] at hslot
  split at hslot
  · cases hd : space.directory with
    | none =>
      rw [hd] at hslot
      cases hslot
    | some directory =>
      rw [hd] at hslot
      obtain ⟨hmod, hle⟩ := h.directory directory hd
      have hv := vaddr.toNat_lt
      have hdir : m.ram.holds (PageEntry.directorySlot directory vaddr) 4 = true := by
        rw [Ram.holds_iff, PageEntry.directorySlot_toNat hmod]
        omega
      dsimp only at hslot
      split at hslot
      · rename_i hpde
        simp only [Bool.and_eq_true, decide_eq_true_eq] at hpde
        have hbase : m.ram.HoldsPage (m.ram.directoryEntry directory vaddr).base :=
          h.paged.holdsPage (pageBase_pageBase _) ((h.paged.lt_size_iff _).1 hpde.2)
        rcases List.mem_cons.1 hslot with rfl | hslot
        · exact hdir
        · obtain rfl := List.mem_singleton.1 hslot
          have hin := hbase.2
          rw [Ram.holds_iff, PageEntry.tableSlot_toNat]
          omega
      · obtain rfl := List.mem_singleton.1 hslot
        exact hdir
  · cases hslot

/-- Resolving an address neither sees nor changes bytes past the end. -/
theorem Inside.resolve_extend {space : AddressSpace} {m : Memory} (h : m.Inside space)
    {tail : ByteArray} (ht : tail.size = UInt32.size) (slot : Slot) (vaddr : UInt32)
    (access : Access) (user : Bool) :
    Memory.resolve space slot vaddr access user (m.mapRam (·.extend tail)) =
      mapState (Memory.mapRam (·.extend tail)) (Memory.resolve space slot vaddr access user m) := by
  obtain ⟨ram, hram, heq⟩ := resolve_related (Ram.related_extend ht _) ⟨rfl, rfl⟩
    (fun _ hslot => Ram.holds_iff.1 (h.holds_walkSlots hslot)) slot access
  refine heq.trans ?_
  cases hr : Memory.resolve space slot vaddr access user m <;> rw [hr] at hram <;>
    rw [hram.2] <;> rfl

end Memory

namespace Machine

/-- The machine with more bytes past the end of its memory. -/
def extend (m : Machine) (tail : ByteArray) : Machine :=
  { m with memory := m.memory.mapRam (·.extend tail) }

/-- Code that neither sees nor changes bytes past the end. -/
def Unextended (tail : ByteArray) {ε α : Type} (x : EStateM ε Machine α) : Prop :=
  ∀ m, m.Inside → x (m.extend tail) = mapState (·.extend tail) (x m)

section
variable {m : Machine} {tail : ByteArray}

theorem extend_mapRam {fn : Ram → Ram}
    (h : fn (m.memory.ram.extend tail) = (fn m.memory.ram).extend tail) :
    ({ m.extend tail with memory := (m.extend tail).memory.mapRam fn } : Machine) =
      extend { m with memory := m.memory.mapRam fn } tail := by
  simp only [extend, Memory.mapRam, h]

theorem Inside.extend (h : m.Inside) (ht : tail.size = UInt32.size) : (m.extend tail).Inside := by
  have hpage (frame : UInt32) (hp : m.memory.ram.HoldsPage frame) :
      (m.memory.ram.extend tail).HoldsPage frame := by
    rw [Ram.HoldsPage, Ram.bytes_size_extend] at *
    omega
  refine ⟨?_, fun d hd => hpage d (h.directory d hd), fun page mapping he => hpage _ ?_,
    fun slot write e he => hpage _ ?_⟩
  · have hp : m.memory.ram.bytes.size % 4096 = 0 := h.paged
    show (m.memory.ram.extend tail).bytes.size % 4096 = 0
    rw [Ram.bytes_size_extend, ht]
    simp only [UInt32.size]
    omega
  · exact h.frames.tlb page mapping he
  · exact h.frames.path slot write e he

theorem unextended_resolve (ht : tail.size = UInt32.size) (slot : Slot) (vaddr : UInt32)
    (access : Access) : Unextended tail (resolve slot vaddr access) := by
  intro m h
  have hr := Memory.Inside.resolve_extend h ht slot vaddr access m.regs.user
  rw [resolve_apply, resolve_apply, extend]
  dsimp only
  rw [hr]
  cases Memory.resolve m.regs.space slot vaddr access m.regs.user m.memory <;> rfl

section
variable {α : Type} {slot : Slot} {vaddr b a : UInt32} {access : Access} {n : Nat}
  (ht : tail.size = UInt32.size)
include ht

theorem unextended_reading {fault : Option Fault} {read : Ram → UInt32 → α}
    (hn : vaddr.toNat % 4096 + n ≤ 4096) (hread : Ram.ReadsAt n read) :
    Unextended tail (reading slot vaddr access n fault read) := by
  intro m h
  rw [reading_apply (h.extend ht) hn, reading_apply h hn, unextended_resolve ht slot vaddr access m h]
  cases hr : resolve slot vaddr access m with
  | ok pa m₁ => exact congrArg (EStateM.Result.ok · _) (hread.extend tail (h.holds hr hn))
  | error fault m₁ => rfl

theorem unextended_reading₂ {fault : Fault} {read : Ram → UInt32 → UInt32 → α}
    (hb : b.toNat % 4096 + n ≤ 4096) (ha : a.toNat % 4096 + n ≤ 4096) (hread : Ram.ReadsAt₂ n read) :
    Unextended tail (reading₂ b a n fault read) := by
  intro m h
  have h₁ := h.resolve .data b .load
  rw [reading₂_apply (h.extend ht) hb ha, reading₂_apply h hb ha,
    unextended_resolve ht .data b .load m h]
  cases hrb : resolve .data b .load m with
  | ok pb m₁ =>
    rw [hrb, stateOf_ok] at h₁
    simp only [mapState, unextended_resolve ht .data a .load m₁ h₁]
    cases hra : resolve .data a .load m₁ with
    | ok pa m₂ =>
      obtain ⟨hpb, hpa⟩ := h.holds₂ hrb hra hb ha
      exact congrArg (EStateM.Result.ok · _) (hread.extend tail hpa hpb)
    | error fault m₂ => rfl
  | error fault m₁ => rfl

theorem unextended_writing {fault : Option Fault} {data : ByteArray}
    (hn : vaddr.toNat % 4096 + data.size ≤ 4096) : Unextended tail (writing slot vaddr fault data) := by
  intro m h
  rw [writing_apply (h.extend ht) hn, writing_apply h hn, unextended_resolve ht slot vaddr .store m h]
  cases hr : resolve slot vaddr .store m with
  | ok pa m₁ =>
    exact congrArg (EStateM.Result.ok ()) (extend_mapRam (Ram.blit_extend tail (h.holds hr hn)))
  | error fault m₁ => rfl

theorem unextended_copying {fault : Fault} (hb : b.toNat % 4096 + n ≤ 4096)
    (ha : a.toNat % 4096 + n ≤ 4096) : Unextended tail (copying b a n fault) := by
  intro m h
  have h₁ := h.resolve .data b .load
  rw [copying_apply (h.extend ht) hb ha, copying_apply h hb ha,
    unextended_resolve ht .data b .load m h]
  cases hrb : resolve .data b .load m with
  | ok src m₁ =>
    rw [hrb, stateOf_ok] at h₁
    simp only [mapState, unextended_resolve ht .data a .store m₁ h₁]
    cases hra : resolve .data a .store m₁ with
    | ok dst m₂ =>
      obtain ⟨hsrc, hdst⟩ := h.holds₂ hrb hra hb ha
      exact congrArg (EStateM.Result.ok ()) (extend_mapRam (Ram.copyWithin_extend tail hsrc hdst))
    | error fault m₂ => rfl
  | error fault m₁ => rfl

end

/-- Code sees nothing past the end of memory and changes nothing there. -/
theorem governed_unextended (ht : tail.size = UInt32.size) :
    Governed fun x => (∀ m, m.Inside → (stateOf (x m)).Inside) ∧ Unextended tail x where
  pure a := ⟨governed_inside.pure a, fun _ _ => rfl⟩
  throw e := ⟨governed_inside.throw e, fun _ _ => rfl⟩
  bind {_ _ _ x f} hx hf := by
    refine ⟨governed_inside.bind hx.1 fun a => (hf a).1, fun m h => ?_⟩
    have h' := hx.1 m h
    rw [bind_apply, bind_apply, hx.2 m h]
    cases hr : x m with
    | ok a m₁ =>
      rw [hr] at h'
      exact (hf a).2 m₁ h'
    | error e m₁ => rfl
  handle {_ _ _ x f} hx hf := by
    refine ⟨governed_inside.handle hx.1 fun e => (hf e).1, fun m h => ?_⟩
    have h' := hx.1 m h
    rw [handle_apply, handle_apply, hx.2 m h]
    cases hr : x m with
    | ok a m₁ => rfl
    | error e m₁ =>
      rw [hr] at h'
      exact (hf e).2 m₁ h'
  look {_ _ f} hblind hf := by
    refine ⟨governed_inside.look hblind fun m => (hf m).1, fun m h => ?_⟩
    show f (m.extend tail) (m.extend tail) = _
    rw [extend, hblind]
    exact (hf m).2 m h
  apart {_ _ fn} hblind hspace := by
    refine ⟨governed_inside.apart hblind hspace, fun m h => ?_⟩
    have hmem : (fn m).2.memory = m.memory := congrArg (·.2.memory) (hblind m m.memory)
    rw [modifyGet_apply, modifyGet_apply, extend, hblind]
    simp only [mapState, extend, hmem]
  size {_ _ f} hf := by
    refine ⟨governed_inside.size fun n => (hf n).1, fun m h => ?_⟩
    show f (m.memory.ram.extend tail).size (m.extend tail) = _
    rw [Ram.size_extend ht]
    exact (hf _).2 m h
  reading hn hread := ⟨governed_inside.reading hn hread, unextended_reading ht hn hread⟩
  reading₂ hb ha hread := ⟨governed_inside.reading₂ hb ha hread, unextended_reading₂ ht hb ha hread⟩
  writing hn := ⟨governed_inside.writing hn, unextended_writing ht hn⟩
  copying hb ha := ⟨governed_inside.copying hb ha, unextended_copying ht hb ha⟩
  setDirectory i := by
    refine ⟨governed_inside.setDirectory i, fun m h => ?_⟩
    have hsize : (m.extend tail).memory.ram.size = m.memory.ram.size := Ram.size_extend ht _
    rw [perform_setDirectory, perform_setDirectory, hsize]
    show (if (pageBase m.regs.a).toNat + _ ≤ _ then _ else _) = _
    split <;> rfl
  setPaging i := by
    refine ⟨governed_inside.setPaging i, fun m h => ?_⟩
    rw [perform_setPaging, perform_setPaging]
    show (if (m.regs.a = 0 || m.regs.space.directory.isSome) = true then _ else _) = _
    split <;> rfl
  invalidatePath := ⟨governed_inside.invalidatePath, fun _ _ => rfl⟩

end

/-! ## Within a step -/

section
variable {m m' : Machine}

/-- The ranges of a chunk are in memory, so only its operands may fault. -/
theorem Inside.chunk_eq_error (h : m.Inside) {op : BlockOp} {fault : Fault}
    (hr : chunk op m = .error fault m') : operands op m.regs m = .error fault m' := by
  rw [chunk_apply] at hr
  cases ho : operands op m.regs m with
  | error fault' m₁ =>
    rw [ho] at hr
    obtain ⟨rfl, rfl⟩ := EStateM.Result.error.inj hr
    rfl
  | ok pas m₁ =>
    rw [ho] at hr
    dsimp only at hr
    suffices hin : m₁.memory.ram.holds pas.1 (op.length m.regs).toNat = true ∧
        m₁.memory.ram.holds pas.2 (op.length m.regs).toNat = true by
      rw [hin.1, hin.2] at hr
      cases hr
    have hfit := chunkLeft₂_fits m.regs.a m.regs.b m.regs.c
    cases op with
    | copy | compare =>
      obtain ⟨pb, m₂, hb, ho⟩ := bind_eq_ok_iff.1 ho
      obtain ⟨pa, m₃, ha, ho⟩ := bind_eq_ok_iff.1 ho
      obtain ⟨rfl, rfl⟩ := EStateM.Result.ok.inj ho
      exact (h.holds₂ hb ha hfit.2 hfit.1).symm
    | scan | fill =>
      obtain ⟨pa, m₂, ha, ho⟩ := bind_eq_ok_iff.1 ho
      obtain ⟨rfl, rfl⟩ := EStateM.Result.ok.inj ho
      have hin := h.holds ha (chunkLeft_fits m.regs.a m.regs.c)
      exact ⟨hin, hin⟩

theorem Inside.commits {op : Operation} (h : Commits op m m') (hi : m.Inside) : m'.Inside := by
  induction h with
  | refl m => exact hi
  | @chunk b m _ _ _ _ hr _ ih =>
    have hc := governed_inside.chunk (T := fun m m' => m.Inside → m'.Inside) b m hi
    rw [hr] at hc
    exact ih hc

theorem Inside.begun (h : Begun m m') (hi : m.Inside) : m'.Inside := by
  cases h with
  | start => exact hi
  | chunks hfetch _ hc _ =>
    have hf := governed_inside.addressed.fetch m hi
    rw [hfetch] at hf
    exact Inside.commits hc hf

end

end Machine

open Machine

/-! ## Main result -/

/-- No access leaves memory. In every machine that a run comes to, with memory of whole pages, the
directory and the frames in the caches are pages in memory; what is resolved is in memory up to the
end of its page, and what is not resolved is a bad address or a page fault; the entries that walks
read are in memory; and the chunks of block operations are, so nothing but their operands faults.
Were there 4 GiB more bytes past the end, a step would neither see nor change any of them. -/
theorem no_access_leaves_memory {m₀ m : Machine} {pc sp : UInt32} {t : Tally}
    (hp : m₀.memory.ram.Paged) (h : Run (m₀.reset pc sp) t m) :
    (∀ directory, m.regs.space.directory = some directory → m.memory.ram.HoldsPage directory) ∧
      m.memory.Remembers (fun _ frame => m.memory.ram.HoldsPage frame) ∧
      (∀ slot vaddr access pa m', resolve slot vaddr access m = .ok pa m' →
        ∀ n, vaddr.toNat % 4096 + n ≤ 4096 → pa.toNat + n ≤ m'.memory.ram.bytes.size) ∧
      (∀ slot vaddr access fault m', resolve slot vaddr access m = .error fault m' →
        fault = .badPhysicalAddress (some vaddr) ∨ fault = access.pageFault vaddr) ∧
      (∀ vaddr, ∀ slot ∈ m.memory.ram.walkSlots m.regs.space vaddr,
        slot.toNat + 4 ≤ m.memory.ram.bytes.size) ∧
      (∀ m₁ start, tick m = .ok none m₁ → Begun m₁ start → ∀ op fault m',
        chunk op start = .error fault m' → operands op start.regs start = .error fault m') ∧
      ∀ tail : ByteArray, tail.size = UInt32.size →
        step (m.extend tail) = mapState (·.extend tail) (step m) := by
  have hi : m.Inside := h.inside (inside_reset hp pc sp)
  refine ⟨hi.directory, hi.frames, fun slot vaddr access pa m' hr n hn => ?_,
    fun slot vaddr access fault m' hr => ?_, fun vaddr slot hslot => ?_,
    fun m₁ start htick hb op fault m' hr => ?_, fun tail ht => ?_⟩
  · exact Ram.holds_iff.1 (hi.holds hr hn)
  · rw [resolve_apply] at hr
    cases hc : Memory.resolve m.regs.space slot vaddr access m.regs.user m.memory with
    | ok pa memory =>
      rw [hc] at hr
      cases hr
    | error fault' memory =>
      rw [hc] at hr
      obtain ⟨rfl, -⟩ := EStateM.Result.error.inj hr
      exact Memory.resolve_eq_error _ _ _ _ _ hc
  · exact Ram.holds_iff.1 (Memory.Inside.holds_walkSlots hi hslot)
  · have hticked := governed_inside.parts.tick m hi
    rw [htick] at hticked
    exact (Inside.begun hb hticked).chunk_eq_error hr
  · exact (governed_unextended ht).step.2 m hi

theorem no_access_leaves_memory_loaded :
    ∃ t m, loaded.memory.ram.Paged ∧ Run (loaded.reset 0 64) t m ∧ m.regs.user = true ∧
      ∀ slot vaddr access pa m', resolve slot vaddr access m = .ok pa m' →
        ∀ n, vaddr.toNat % 4096 + n ≤ 4096 → pa.toNat + n ≤ m'.memory.ram.bytes.size := by
  obtain ⟨t, m, hrun, -, -, hregs⟩ := run_to_user
  have hp : loaded.memory.ram.Paged := by
    simp only [loaded, Ram.Paged, Ram.size_write32, Ram.size_zeroed]
    decide
  exact ⟨t, m, hp, hrun, by rw [hregs], (no_access_leaves_memory hp hrun).2.2.1⟩

end PagedMachine
