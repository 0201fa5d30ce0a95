import PagedMachine.Proofs.Coherence
import PagedMachine.Proofs.Inside

/-!
# A store is what every later access sees

Memory is `Memory.Reached` if translations, flushes and writes of any bytes led to it from empty
caches, whatever address spaces were used on the way; so its caches may hold mappings that the tables
have dropped. Even so a page that was just resolved for a store is answered from the lookaside buffer
for every stream (`Memory.Coherent.resolve_of_entry`), with the frame that the store went to. So a load
of the same width, or a fetch, sees the value that was stored, and the store changed no other bytes but
for marks of its walk (`Machine.store_seen`).
-/

set_option autoImplicit false

namespace PagedMachine

/-- A mapping is only made of a page that begins in memory. -/
theorem frame_lt_of_walk {space : AddressSpace} {vaddr : UInt32} {access : Access} {user : Bool}
    {r r' : Ram} {mapping : Mapping} (hw : walk space vaddr access user r = .ok mapping r') :
    mapping.frame < r.size := by
  cases hp : space.paging with
  | true =>
    cases hd : space.directory with
    | none =>
      rw [walk_of_no_directory hp hd] at hw
      cases hw
    | some directory =>
      simp only [walk_of_directory hp hd, bind_apply, walkDirectory_apply] at hw
      by_cases hpresent : (r.directoryEntry directory vaddr).present = true
      · by_cases hlt : (r.directoryEntry directory vaddr).word < r.size
        · simp only [hpresent, hlt, if_true, walkTable_apply, Ram.size_mark] at hw
          split at hw
          · split at hw
            · obtain ⟨rfl, -⟩ := EStateM.Result.ok.inj hw
              assumption
            · cases hw
          · cases hw
        · simp [hpresent, hlt] at hw
      · simp [hpresent] at hw
  | false =>
    rw [walk_of_not_paging hp] at hw
    split at hw
    · obtain ⟨rfl, -⟩ := EStateM.Result.ok.inj hw
      assumption
    · cases hw

namespace Memory

/-! ## What memory comes to -/

/-- Memory of whole pages that began with empty caches. Between translations and flushes any bytes may
be written, those of tables too. -/
inductive Reached : Memory → Prop
  | fresh {ram : Ram} (hp : ram.Paged) (capacity : Nat) (fast : Bool) :
      Reached { ram, tlb := .ofCapacity capacity, path := .make fast }
  | write {m : Memory} (h : Reached m) {fn : Ram → Ram}
      (hs : (fn m.ram).bytes.size = m.ram.bytes.size) : Reached (m.mapRam fn)
  | resolve {m : Memory} (h : Reached m) (space : AddressSpace) (slot : Slot) (vaddr : UInt32)
      (access : Access) (user : Bool) :
      Reached (stateOf (Memory.resolve space slot vaddr access user m))
  | flush {m : Memory} (h : Reached m) : Reached m.flush
  | invalidatePath {m : Memory} (h : Reached m) : Reached m.invalidatePath

theorem Reached.write32 {m : Memory} (h : m.Reached) (addr v : UInt32) :
    (m.mapRam (·.write32 addr v)).Reached :=
  h.write (Ram.size_write32 ..)

/-- Whether the page cache follows the buffer and all frames are pages in memory. -/
structure Sound (m : Memory) : Prop where
  paged : m.ram.Paged
  coherent : m.Coherent
  frames : m.Remembers fun _ frame => m.ram.HoldsPage frame

namespace Sound

variable {m : Memory}

theorem of_size (h : m.Sound) {m' : Memory} (hs : m'.ram.bytes.size = m.ram.bytes.size)
    (hc : m'.Coherent) (hf : m'.Remembers fun _ frame => m.ram.HoldsPage frame) : m'.Sound :=
  ⟨h.paged.of_size hs, hc, hf.mono fun _ _ hpage => hpage.of_size hs⟩

theorem holdsPage_of_walk (h : m.Sound) {space : AddressSpace} {vaddr : UInt32} {access : Access}
    {user : Bool} {mapping : Mapping} {ram : Ram}
    (hw : walk space vaddr access user m.ram = .ok mapping ram) : m.ram.HoldsPage mapping.frame :=
  h.paged.holdsPage (pageBase_of_walk hw) (frame_lt_of_walk hw)

theorem resolve (h : m.Sound) (space : AddressSpace) (slot : Slot) (vaddr : UInt32) (access : Access)
    (user : Bool) : (stateOf (Memory.resolve space slot vaddr access user m)).Sound :=
  h.of_size (size_resolve space slot vaddr access user m)
    (h.coherent.resolve space slot vaddr access user)
    (h.frames.resolve fun _ _ hw => h.holdsPage_of_walk hw)

end Sound

theorem Reached.sound {m : Memory} (h : m.Reached) : m.Sound := by
  induction h with
  | @fresh ram hp capacity fast =>
    refine ⟨hp, coherent_of_forget fun slot write => ?_, .fresh _ ram capacity fast⟩
    cases fast <;> cases slot <;> cases write <;> rfl
  | write h hs ih => exact ih.of_size hs ih.coherent (ih.frames.mapRam _)
  | resolve h space slot vaddr access user ih => exact ih.resolve space slot vaddr access user
  | @flush m h ih => exact ih.of_size rfl m.coherent_flush (.flush _ m)
  | @invalidatePath m h ih => exact ih.of_size rfl m.coherent_invalidatePath ih.frames.invalidatePath

/-! ## Resolving an address again -/

section
variable {space : AddressSpace} {slot : Slot} {vaddr : UInt32} {access : Access} {user : Bool}
  {m m' : Memory}

/-- What the buffer maps is resolved to its frame, through every stream and without a walk. -/
theorem Coherent.resolve_of_entry (h : m.Coherent) (ht : m.tlb.epoch < UInt64.size)
    {mapping : Mapping} (he : m.tlb.entries[pageNumber vaddr]? = some mapping)
    (hg : mapping.grants (rightOf access user) = true) (space : AddressSpace) (slot : Slot) :
    ∃ m', Memory.resolve space slot vaddr access user m = .ok (mapping.frame ||| pageOffset vaddr) m' ∧
      m'.ram = m.ram := by
  have hfind := Tlb.find?_eq_some_iff.2 ⟨he, hg⟩
  have hresult := resolve_resolved space slot vaddr access user m
  generalize Memory.resolve space slot vaddr access user m = result at hresult
  cases hresult with
  | remembered hl =>
    obtain ⟨found, hf, rfl⟩ := h.find?_of_line ht hl
    obtain rfl := Option.some.inj (hf.symm.trans hfind)
    exact ⟨_, rfl, rfl⟩
  | found hm hf =>
    obtain rfl := Option.some.inj (hf.symm.trans hfind)
    exact ⟨_, rfl, rfl⟩
  | walked hm hf hw => exact absurd (hfind.symm.trans hf) (by simp)
  | faulted hm hf hw => exact absurd (hfind.symm.trans hf) (by simp)

/-- An access that the tables allow leaves an entry that grants it. -/
theorem Sound.entry_of_translate (h : m.Sound) (haligned : space.Aligned) {pa : UInt32}
    (ht : m.ram.translate space vaddr access user = .ok pa) (hn : m.tlb.epoch < UInt64.size)
    (slot : Slot) :
    let m' := stateOf (Memory.resolve space slot vaddr access user m)
    ∃ mapping, m'.tlb.entries[pageNumber vaddr]? = some mapping ∧
      mapping.grants (rightOf access user) = true ∧ m'.tlb.epoch ≤ m.tlb.epoch + 1 := by
  have hepoch := epoch_resolve_le space slot vaddr access user m
  have hresult := resolve_resolved space slot vaddr access user m
  cases hr : Memory.resolve space slot vaddr access user m with
  | ok pa' memory =>
    rw [hr, stateOf_ok] at hepoch
    obtain ⟨mapping, he, hg, -⟩ := h.coherent.entry_of_resolve hn hr
    exact ⟨mapping, he, hg, hepoch⟩
  | error fault memory =>
    rw [hr] at hresult
    cases hresult with
    | faulted hm hf hw =>
      rw [translate_eq_walk _ _ _ haligned h.paged, hw] at ht
      cases ht

/-- The place that an address is resolved to has the `n` bytes there, if these stay in a page. -/
theorem Sound.holds (h : m.Sound) {pa : UInt32}
    (hr : Memory.resolve space slot vaddr access user m = .ok pa m') {n : Nat}
    (hn : vaddr.toNat % 4096 + n ≤ 4096) :
    pa.toNat % 4096 = vaddr.toNat % 4096 ∧ m'.ram.holds pa n = true := by
  obtain ⟨frame, ⟨hbase, hend⟩, rfl⟩ := h.frames.frame (fun _ _ hw => h.holdsPage_of_walk hw) hr
  have hs := size_resolve space slot vaddr access user m
  rw [hr, stateOf_ok] at hs
  have ho := pageOffset_toNat vaddr
  have hpa := toNat_or hbase (show (pageOffset vaddr).toNat < 4096 by omega)
  rw [Ram.holds_iff]
  omega

/-- What an access does not write is as before, but for the marks of its walk. -/
theorem marked_resolve (space : AddressSpace) (slot : Slot) (vaddr : UInt32) (access : Access)
    (user : Bool) (m : Memory) :
    Ram.Marked (m.ram.walkSlots space vaddr) m.ram
      (stateOf (Memory.resolve space slot vaddr access user m)).ram := by
  rcases ram_resolve space slot vaddr access user m with hr | hr
  · rw [hr]
    exact (Ram.Marked.refl _).mono (List.nil_subset _)
  · rw [hr]
    exact marked_walk space vaddr access user m.ram

end

end Memory

/-! ## Values in memory -/

namespace Ram

theorem read8_write8 {r : Ram} {addr : UInt32} (h : r.holds addr 1 = true) (v : UInt8) :
    (r.write8 addr v).read8 addr = v :=
  byte_setByte_self (holds_iff.1 h) v

theorem read16_write16 {r : Ram} {addr : UInt32} (h : r.holds addr 2 = true) (v : UInt16) :
    (r.write16 addr v).read16 addr = v := by
  have hs := holds_iff.1 h
  have h' : (r.write16 addr v).holds addr 2 = true := by rw [holds_iff, size_write16]; exact hs
  rw [read16, if_pos h', write16, if_pos h, byte_setByte_of_ne (by omega),
    byte_setByte_self (by omega), byte_setByte_self (by rw [size_setByte]; omega),
    Bytes.le16_byteOf16]

/-- The bytes of a word at `pa` were written, and elsewhere only accessed and dirty bits of the entries
at `slots` were. -/
structure Changed (pa : UInt32) (n : Nat) (slots : List UInt32) (r r' : Ram) : Prop where
  size : r'.bytes.size = r.bytes.size
  inside : pa.toNat + n ≤ r.bytes.size
  byte : ∀ i, i < pa.toNat ∨ pa.toNat + n ≤ i → r'.byte i = r.byte i ∨
    ∃ slot ∈ slots, slot.toNat = i ∧ ∃ marks, r'.byte i = r.byte i ||| (marks &&& 0x60)

theorem changed_of_marked {r r₁ : Ram} {pa : UInt32} {data : ByteArray} {slots : List UInt32}
    (hm : Marked slots r r₁) (h : r₁.holds pa data.size = true) :
    Changed pa data.size slots r (r₁.blit pa data) := by
  refine ⟨by rw [size_blit, hm.size], ?_, fun i hi => ?_⟩
  · rw [← hm.size]
    exact holds_iff.1 h
  · rw [byte_blit h, if_neg (by omega)]
    exact hm.byte i

end Ram

/-- The value that a load of this form returns after `v` was stored: the low bits, with zeros or the
sign above. -/
def LoadWidth.extend (v : UInt32) : LoadWidth → UInt32
  | word => v
  | short => ⟨(v.toBitVec.setWidth 16).signExtend 32⟩
  | half => ⟨(v.toBitVec.setWidth 16).setWidth 32⟩
  | char => ⟨(v.toBitVec.setWidth 8).signExtend 32⟩
  | byte => ⟨(v.toBitVec.setWidth 8).setWidth 32⟩

/-- The load forms that have the width of a store. -/
def StoreWidth.Matches : StoreWidth → LoadWidth → Prop
  | word, .word | half, .short | half, .half | byte, .char | byte, .byte => True
  | _, _ => False

namespace StoreWidth.Matches

variable {w : StoreWidth} {form : LoadWidth}

theorem align_eq (h : w.Matches form) (vaddr : UInt32) : form.align vaddr = w.align vaddr := by
  cases w <;> cases form <;> first | rfl | exact h.elim

/-- A value that was stored is read back. -/
theorem read_write (h : w.Matches form) {r : Ram} {pa v : UInt32}
    (hr : r.holds pa (w.bytes v).size = true) : form.read (w.write r pa v) pa = form.extend v := by
  cases w with
  | word =>
    cases form <;> first | exact h.elim | exact Ram.read32_write32 hr v
  | half =>
    have h16 := Ram.read16_write16 hr v.toUInt16
    cases form with
    | short => simp only [LoadWidth.read, write, h16]; rfl
    | half => simp only [LoadWidth.read, write, h16]; rfl
    | word | char | byte => exact h.elim
  | byte =>
    have h8 := Ram.read8_write8 hr v.toUInt8
    cases form with
    | char => simp only [LoadWidth.read, write, h8]; rfl
    | byte => simp only [LoadWidth.read, write, h8]; rfl
    | word | short | half => exact h.elim

end StoreWidth.Matches

namespace StoreWidth

/-- The number of bytes that are written. -/
def size : StoreWidth → Nat
  | word => 4
  | half => 2
  | byte => 1

theorem size_bytes (w : StoreWidth) (v : UInt32) : (w.bytes v).size = w.size := by
  cases w <;> simp [bytes, size]

end StoreWidth

/-! ## Stores of the machine -/

namespace Machine

variable {m m' : Machine} {slot : Slot} {vaddr : UInt32}

/-- All code keeps memory among what translations, flushes and writes lead to. -/
theorem closed_reached :
    Closed fun x => ∀ m, m.memory.Reached → (stateOf (x m)).memory.Reached :=
  closed_of_memory (fun _ hs _ h => h.write (hs _))
    (fun space slot vaddr access user _ h => h.resolve space slot vaddr access user)
    (fun _ h => h.flush) fun _ h => h.invalidatePath

/-- A store resolves its address and then writes there. -/
theorem store_eq_ok {fn : UInt32 → Ram → Ram}
    (h : (resolve slot vaddr .store >>= fun pa => modifyRam (fn pa) : Guarded Unit) m = .ok () m') :
    ∃ pa memory, Memory.resolve m.regs.space slot vaddr .store m.regs.user m.memory = .ok pa memory ∧
      m' = { m with memory := memory.mapRam (fn pa) } := by
  rw [bind_apply, resolve_apply] at h
  cases hr : Memory.resolve m.regs.space slot vaddr .store m.regs.user m.memory with
  | ok pa memory =>
    rw [hr] at h
    obtain ⟨-, rfl⟩ := EStateM.Result.ok.inj h
    exact ⟨pa, memory, rfl, rfl⟩
  | error fault memory =>
    rw [hr] at h
    cases h

/-- A store that the buffer grants goes to the frame of its page. -/
theorem storeInt_of_entry (hm : m.memory.Sound) (hn : m.memory.tlb.epoch < UInt64.size)
    (slot : Slot) (w : StoreWidth) (v : UInt32) {mapping : Mapping}
    (he : m.memory.tlb.entries[pageNumber (w.align vaddr)]? = some mapping)
    (hg : mapping.grants (Memory.rightOf .store m.regs.user) = true) :
    ∃ m', storeInt slot vaddr w v m = .ok () m' ∧
      m'.memory.tlb.epoch ≤ m.memory.tlb.epoch + 1 := by
  obtain ⟨memory, hr, -⟩ := hm.coherent.resolve_of_entry hn he hg m.regs.space slot
  have hepoch := Memory.epoch_resolve_le m.regs.space slot (w.align vaddr) .store m.regs.user m.memory
  rw [hr, stateOf_ok] at hepoch
  rw [storeInt, bind_apply, resolve_apply, hr]
  exact ⟨_, rfl, hepoch⟩

/-- A load reads where its address is resolved to. -/
theorem load_of_resolved {α : Type} {read : Ram → UInt32 → α} {pa : UInt32} {memory : Memory}
    (hr : Memory.resolve m.regs.space slot vaddr .load m.regs.user m.memory = .ok pa memory) :
    (do
      let pa ← resolve slot vaddr .load
      return read (← getRam) pa : Guarded α) m = .ok (read memory.ram pa) { m with memory } := by
  rw [bind_apply, resolve_apply, hr]
  rfl

/-- The word that an address is resolved to is fetched from there. -/
theorem fetch_of_word {pa v : UInt32} {memory : Memory}
    (hr : Memory.resolve m.regs.space .code (alignTo4 vaddr) .fetch m.regs.user m.memory =
      .ok pa memory) (hword : memory.ram.read32 pa = v) :
    ∃ m', fetch { m with regs := { m.regs with pc := alignTo4 vaddr } } = .ok ⟨v⟩ m' := by
  have hpc : alignTo4 vaddr &&& 3 = 0 := by
    rw [alignTo4, UInt32.and_assoc]
    simp
  have hfetch := fetch_of_resolved
    (m := { m with regs := { m.regs with pc := alignTo4 vaddr } }) hpc hr
  rw [hword] at hfetch
  exact ⟨_, hfetch⟩

/-- After `data` was stored, its address is resolved to the same place for every access of every
stream, and no walk changes bytes again. -/
theorem resolve_after_store (hm : m.memory.Sound) {data : ByteArray}
    (hfits : vaddr.toNat % 4096 + data.size ≤ 4096) {pa : UInt32} {memory : Memory}
    (hr : Memory.resolve m.regs.space slot vaddr .store m.regs.user m.memory = .ok pa memory)
    (hn : memory.tlb.epoch < UInt64.size) :
    memory.ram.holds pa data.size = true ∧
      Ram.Changed pa data.size (m.memory.ram.walkSlots m.regs.space vaddr) m.memory.ram
        (memory.ram.blit pa data) ∧
      ∀ fn slot' access, ∃ memory', Memory.resolve m.regs.space slot' vaddr access m.regs.user
        (memory.mapRam fn) = .ok pa memory' ∧ memory'.ram = fn memory.ram := by
  have hholds := (hm.holds hr hfits).2
  have hmarked := Memory.marked_resolve m.regs.space slot vaddr .store m.regs.user m.memory
  have hsound := hm.resolve m.regs.space slot vaddr .store m.regs.user
  have hle := Memory.epoch_le_resolve m.regs.space slot vaddr .store m.regs.user m.memory
  rw [hr] at hmarked hsound hle
  obtain ⟨mapping, he, hg, rfl⟩ := hm.coherent.entry_of_resolve (Nat.lt_of_le_of_lt hle hn) hr
  refine ⟨hholds, Ram.changed_of_marked hmarked hholds, fun fn slot' access => ?_⟩
  have hcoherent : (memory.mapRam fn).Coherent := hsound.coherent
  have hgrants : mapping.grants (Memory.rightOf access m.regs.user) = true := by
    cases access with
    | store => exact hg
    | load | fetch => exact Mapping.grants_read_of_grants hg
  exact hcoherent.resolve_of_entry hn he hgrants m.regs.space slot'

/-! ## A page whose table entry is cleared -/

/-- A machine whose tables map no page any more. -/
def unmapped (cached : Memory) : Machine :=
  { regs := { space := ⟨true, some 0⟩ }, memory := cached.mapRam (·.write32 4096 0) }

/-- Memory may have cached the one page of its tables. -/
theorem exists_cachedPage : ∃ cached : Memory, cached.Reached ∧ cached.tlb.epoch ≤ 1 ∧
    ∃ mapping, cached.tlb.entries[pageNumber 16]? = some mapping ∧
      mapping.grants (Memory.rightOf .store false) = true := by
  have hpaged : Ram.onePage.Paged := by rw [Ram.Paged, Ram.size_onePage]
  have haligned : AddressSpace.Aligned ⟨true, some 0⟩ := by
    rintro directory ⟨⟩
    rfl
  have ht : Ram.onePage.translate ⟨true, some 0⟩ 16 .store false = .ok 0x2000 := by
    obtain ⟨hdir, htab⟩ := Ram.entry_onePage
    have hsize : Ram.onePage.size = 12288 := by rw [Ram.size, Ram.size_onePage]; rfl
    refine (translate_eq_ok_iff rfl rfl).2 ?_
    rw [hdir, htab, hsize]
    decide
  have hfresh := Memory.Reached.fresh hpaged 1 true
  obtain ⟨mapping, he, hg, hepoch⟩ := hfresh.sound.entry_of_translate haligned ht (by decide) .data
  exact ⟨_, hfresh.resolve _ .data _ _ _, hepoch, mapping, he, hg⟩

/-! ## Main result -/

/-- A store that succeeds is seen by every load of its width at the same address and privilege,
through every stream, with the low bits of the value extended as the form of the load says; a word
is seen by a fetch, and a number of 64 bits is loaded bit for bit. In memory the bytes of the
access are written, and no others but for marks in the entries of its walk. The memory is again such as
this holds of, and so is that of every machine that runs come to. -/
theorem store_seen (hm : m.memory.Reached) (slot : Slot) (vaddr : UInt32) :
    (∀ budget, (stateOf (run budget m)).memory.Reached) ∧
    (∀ (w : StoreWidth) (v : UInt32) (m' : Machine), storeInt slot vaddr w v m = .ok () m' →
      m'.memory.Reached ∧ (m'.memory.tlb.epoch < UInt64.size →
      (∀ form, w.Matches form → ∀ slot', ∃ m'',
        loadInt slot' vaddr form m' = .ok (form.extend v) m'' ∧ m''.memory.ram = m'.memory.ram) ∧
      (w = .word → ∃ m'',
        fetch { m' with regs := { m'.regs with pc := alignTo4 vaddr } } = .ok ⟨v⟩ m'') ∧
      ∃ pa memory, Memory.resolve m.regs.space slot (w.align vaddr) .store m.regs.user m.memory =
          .ok pa memory ∧
        Ram.Changed pa w.size (m.memory.ram.walkSlots m.regs.space (w.align vaddr)) m.memory.ram
          m'.memory.ram)) ∧
    ∀ (v : Double) (m' : Machine), storeFloat slot vaddr .double v m = .ok () m' →
      m'.memory.Reached ∧ (m'.memory.tlb.epoch < UInt64.size →
      (∀ slot', ∃ m'',
        loadFloat slot' vaddr .double m' = .ok v m'' ∧ m''.memory.ram = m'.memory.ram) ∧
      ∃ pa memory, Memory.resolve m.regs.space slot (alignTo8 vaddr) .store m.regs.user m.memory =
          .ok pa memory ∧
        Ram.Changed pa 8 (m.memory.ram.walkSlots m.regs.space (alignTo8 vaddr)) m.memory.ram
          m'.memory.ram) := by
  have hstores := closed_reached.plain.addressed
  refine ⟨fun budget => closed_reached.run budget m hm, fun w v m' hs => ⟨?_, fun hn => ?_⟩,
    fun v m' hs => ⟨?_, fun hn => ?_⟩⟩
  · have hreached := hstores.storeInt slot vaddr w v m hm
    rwa [hs] at hreached
  · obtain ⟨pa, memory, hr, rfl⟩ := store_eq_ok hs
    obtain ⟨hholds, hchanged, hagain⟩ := resolve_after_store hm.sound (w.align_fits vaddr v) hr hn
    refine ⟨fun form hform slot' => ?_, ?_, pa, memory, hr, ?_⟩
    · obtain ⟨memory', hr', hram⟩ := hagain (w.write · pa v) slot' .load
      rw [← hform.align_eq] at hr'
      refine ⟨{ m with memory := memory' }, (load_of_resolved hr').trans ?_, hram⟩
      rw [hram, hform.read_write hholds]
    · rintro rfl
      obtain ⟨memory', hr', hram⟩ := hagain (·.write32 pa v) .code .fetch
      have hword : memory'.ram.read32 pa = v := by
        rw [hram, Ram.read32_write32 hholds]
      exact fetch_of_word (m := { m with memory := memory.mapRam (·.write32 pa v) }) hr' hword
    · rw [w.size_bytes v, ← w.write_eq_blit] at hchanged
      exact hchanged
  · have hreached := hstores.storeFloat slot vaddr .double v m hm
    rwa [hs] at hreached
  · obtain ⟨pa, memory, hr, rfl⟩ := store_eq_ok hs
    have hfits : (FloatWidth.align .double vaddr).toNat % 4096 + (FloatWidth.bytes .double v).size ≤
        4096 := by
      rw [FloatWidth.size_bytes]
      exact FloatWidth.align_fits .double vaddr
    obtain ⟨hholds, hchanged, hagain⟩ := resolve_after_store hm.sound hfits hr hn
    refine ⟨fun slot' => ?_, pa, memory, hr, ?_⟩
    · obtain ⟨memory', hr', hram⟩ := hagain (·.write64 pa v.bits) slot' .load
      refine ⟨{ m with memory := memory' }, (load_of_resolved hr').trans ?_, hram⟩
      rw [hram]
      exact congrArg (EStateM.Result.ok · _) (congrArg Double.mk (Ram.read64_write64 hholds v.bits))
    · rw [FloatWidth.size_bytes, ← FloatWidth.write_eq_blit] at hchanged
      exact hchanged

/-- The mapping of the page is still cached, and a store through it is seen. -/
theorem store_seen_unmapped :
    ∃ cached m', (unmapped cached).memory.Reached ∧
      storeInt .stack 17 .half 0x8001beef (unmapped cached) = .ok () m' ∧
      m'.memory.Reached ∧ m'.memory.tlb.epoch < UInt64.size ∧
      (∃ m'', loadInt .code 17 .short m' = .ok 0xffffbeef m'') ∧
      ∃ m'', loadInt .data 17 .half m' = .ok 0xbeef m'' := by
  obtain ⟨cached, hcached, hepoch, mapping, he, hg⟩ := exists_cachedPage
  have hreached : (unmapped cached).memory.Reached := hcached.write32 4096 0
  have hn : (unmapped cached).memory.tlb.epoch + 1 < UInt64.size :=
    Nat.lt_of_le_of_lt (Nat.succ_le_succ hepoch) (by decide)
  have he' : (unmapped cached).memory.tlb.entries[pageNumber (StoreWidth.align .half 17)]? =
      some mapping := he
  obtain ⟨m', hs, hle⟩ := storeInt_of_entry hreached.sound (Nat.lt_of_succ_lt hn) .stack .half
    0x8001beef he' hg
  have hn' := Nat.lt_of_le_of_lt hle hn
  obtain ⟨-, hints, -⟩ := store_seen hreached .stack 17
  obtain ⟨hreached', hseen⟩ := hints .half 0x8001beef m' hs
  obtain ⟨hseen, -⟩ := hseen hn'
  obtain ⟨m₁, h₁, -⟩ := hseen .short trivial .code
  obtain ⟨m₂, h₂, -⟩ := hseen .half trivial .data
  exact ⟨cached, m', hreached, hs, hreached', hn', ⟨m₁, h₁⟩, m₂, h₂⟩

end Machine

end PagedMachine
