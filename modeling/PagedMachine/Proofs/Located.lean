import Mathlib.Data.Set.Function
import PagedMachine.Block.Lemmas
import PagedMachine.Proofs.Nesting

/-!
# Operands where the tables say

A block operation is given addresses, and `T` says where the tables put each of them. If the caches
agree with the tables, a chunk finds its operands there and marks at most the tables
(`Machine.chunk_of_located`). So it goes chunk by chunk: what bytes apart from the entries are stored
leaves the tables as they are (`Ram.preserved_of_stores`), and within a page the bytes of an operand
follow each other (`Ram.Lies.toNat`).
-/

set_option autoImplicit false

namespace PagedMachine

/-- The addresses of the `n` bytes from `v` on. -/
def addresses (v : UInt32) (n : Nat) : Set UInt32 := {w | ∃ i < n, w = v + i.toUInt32}

/-- Where they are in memory, by way of `T`. -/
def places (T : UInt32 → UInt32) (v : UInt32) (n : Nat) : Set Nat :=
  (fun w => (T w).toNat) '' addresses v n

theorem add_add_toUInt32 (v u : UInt32) (i : Nat) :
    v + u + i.toUInt32 = v + (u.toNat + i).toUInt32 := by
  simp only [Nat.toUInt32_eq, UInt32.ofNat_add, UInt32.ofNat_toNat, UInt32.add_assoc]

theorem addresses_append (v u : UInt32) (n : Nat) :
    addresses v (u.toNat + n) = addresses v u.toNat ∪ addresses (v + u) n := by
  ext w
  simp only [addresses, Set.mem_union, Set.mem_ofPred_eq]
  constructor
  · rintro ⟨i, hi, rfl⟩
    by_cases h : i < u.toNat
    · exact .inl ⟨i, h, rfl⟩
    · refine .inr ⟨i - u.toNat, by omega, ?_⟩
      rw [add_add_toUInt32, Nat.add_sub_cancel' (by omega)]
  · rintro (⟨i, hi, rfl⟩ | ⟨i, hi, rfl⟩)
    · exact ⟨i, by omega, rfl⟩
    · exact ⟨u.toNat + i, by omega, add_add_toUInt32 v u i⟩

theorem places_append (T : UInt32 → UInt32) (v u : UInt32) (n : Nat) :
    places T v (u.toNat + n) = places T v u.toNat ∪ places T (v + u) n := by
  rw [places, addresses_append, Set.image_union]
  rfl

namespace Ram

/-- Whether byte `i` is part of an entry of the directory or of a table that it names. -/
def InEntries (r : Ram) (space : AddressSpace) (i : Nat) : Prop :=
  ∃ vaddr, ∃ slot ∈ r.walkSlots space vaddr, slot.toNat ≤ i ∧ i < slot.toNat + 4

/-- `r'` is `r` but for the bytes in `stores` and for `flags` that were set in entries. The tables say
the same in both. -/
structure Preserved (space : AddressSpace) (flags : UInt8) (stores : Set Nat) (r r' : Ram) :
    Prop where
  size : r'.bytes.size = r.bytes.size
  translate : ∀ vaddr access user,
    r'.translate space vaddr access user = r.translate space vaddr access user
  walkSlots : ∀ vaddr, r'.walkSlots space vaddr = r.walkSlots space vaddr
  byte : ∀ i, i ∉ stores → r'.byte i = r.byte i ∨
    ∃ vaddr, ∃ slot ∈ r.walkSlots space vaddr, slot.toNat = i ∧
      ∃ marks, r'.byte i = r.byte i ||| (marks &&& flags)

/-- The `n` bytes from `v` on are where `T` says, apart from the entries. -/
structure Lies (r : Ram) (space : AddressSpace) (access : Access) (user : Bool)
    (T : UInt32 → UInt32) (v : UInt32) (n : Nat) : Prop where
  located : ∀ w ∈ addresses v n, r.locate space w access user = .ok (T w)
  apart : ∀ i ∈ places T v n, ¬r.InEntries space i

section
variable {space : AddressSpace} {access : Access} {user : Bool} {flags : UInt8}
  {stores stores' : Set Nat} {r r' r'' : Ram}

/-! ## What is preserved -/

namespace Preserved

theorem refl (space : AddressSpace) (flags : UInt8) (r : Ram) : Preserved space flags ∅ r r :=
  ⟨rfl, fun _ _ _ => rfl, fun _ => rfl, fun _ _ => .inl rfl⟩

theorem inEntries_iff (h : Preserved space flags stores r r') {i : Nat} :
    r'.InEntries space i ↔ r.InEntries space i := by
  simp only [InEntries, h.walkSlots]

/-- A byte that is neither stored to nor part of an entry. -/
theorem byte_eq (h : Preserved space flags stores r r') {i : Nat} (hstores : i ∉ stores)
    (hapart : ¬r.InEntries space i) : r'.byte i = r.byte i := by
  rcases h.byte i hstores with hsame | ⟨vaddr, slot, hslot, rfl, -⟩
  · exact hsame
  · exact absurd ⟨vaddr, slot, hslot, Nat.le_refl _, by omega⟩ hapart

theorem trans (h : Preserved space flags stores r r') (h' : Preserved space flags stores' r' r'') :
    Preserved space flags (stores ∪ stores') r r'' := by
  refine ⟨h'.size.trans h.size, fun v a u => (h'.translate v a u).trans (h.translate v a u),
    fun v => (h'.walkSlots v).trans (h.walkSlots v), fun i hi => ?_⟩
  rw [Set.mem_union, not_or] at hi
  rcases h.byte i hi.1 with hsame | ⟨vaddr, slot, hslot, hat, x, hx⟩
  · rw [← hsame]
    rcases h'.byte i hi.2 with hsame' | ⟨vaddr, slot, hslot, hy⟩
    · exact .inl hsame'
    · exact .inr ⟨vaddr, slot, h.walkSlots vaddr ▸ hslot, hy⟩
  · refine .inr ⟨vaddr, slot, hslot, hat, ?_⟩
    rcases h'.byte i hi.2 with hsame' | ⟨-, -, -, -, y, hy⟩
    · exact ⟨x, by rw [hsame', hx]⟩
    · have hor : (x &&& flags) ||| (y &&& flags) = (x ||| y) &&& flags :=
        UInt8.toBitVec_inj.1 BitVec.and_or_distrib_right.symm
      exact ⟨x ||| y, by rw [hy, hx, UInt8.or_assoc, hor]⟩

/-- Flags that were set before. -/
theorem of_flags (h : Preserved space flags ∅ r r') (h' : Preserved space flags stores r' r'') :
    Preserved space flags stores r r'' := by
  have htrans := h.trans h'
  rwa [Set.empty_union] at htrans

/-- More flags may be set. -/
theorem flags_mono {flags' : UInt8} (h : Preserved space flags stores r r')
    (hflags : flags &&& flags' = flags) : Preserved space flags' stores r r' := by
  refine ⟨h.size, h.translate, h.walkSlots, fun i hi => (h.byte i hi).imp_right ?_⟩
  rintro ⟨vaddr, slot, hslot, hat, x, hx⟩
  exact ⟨vaddr, slot, hslot, hat, x &&& flags, by rw [hx, UInt8.and_assoc, hflags]⟩

end Preserved

/-- Bytes that are part of no entry may be stored. -/
theorem preserved_of_stores (hr : r.Paged) (flags : UInt8) (hsize : r'.bytes.size = r.bytes.size)
    (hbyte : ∀ i, i ∉ stores → r'.byte i = r.byte i)
    (hapart : ∀ i ∈ stores, ¬r.InEntries space i) : Preserved space flags stores r r' := by
  have hentry (vaddr slot : UInt32) (hslot : slot ∈ r.walkSlots space vaddr) :
      r'.entry slot = r.entry slot := by
    refine entry_congr hsize fun k hk => hbyte _ fun hmem => hapart _ hmem ?_
    exact ⟨vaddr, slot, hslot, by omega, by omega⟩
  obtain ⟨htranslate, hslots⟩ := tables_congr hr hsize hentry
  exact ⟨hsize, htranslate, hslots, fun i hi => .inl (hbyte i hi)⟩

/-- A walk sets flags of its access. -/
theorem byte_walk_marks (space : AddressSpace) (vaddr : UInt32) (access : Access) (user : Bool)
    (r : Ram) (i : Nat) :
    ∃ marks, (stateOf (walk space vaddr access user r)).byte i =
      r.byte i ||| (marks &&& markByte access) := by
  have hmark (r : Ram) (addr : UInt32) (access' : Access)
      (hflags : markByte access' &&& markByte access = markByte access') :
      ∃ marks, (r.mark addr access').byte i = r.byte i ||| (marks &&& markByte access) := by
    rcases byte_mark r addr access' i with h | ⟨-, h⟩
    · exact ⟨0, by rw [h]; simp⟩
    · exact ⟨markByte access', by rw [h, hflags]⟩
  have hload : markByte .load &&& markByte access = markByte .load := by cases access <;> rfl
  by_cases hp : space.paging = true
  · cases hd : space.directory with
    | none =>
      rw [walk_of_no_directory hp hd]
      exact ⟨0, by simp⟩
    | some directory =>
      rcases @stateOf_walk space directory vaddr access user hp hd r with h | h | h
      · exact ⟨0, by rw [h]; simp⟩
      · rw [h]
        exact hmark r _ .load hload
      · obtain ⟨x, hx⟩ := hmark r (PageEntry.directorySlot directory vaddr) .load hload
        obtain ⟨y, hy⟩ := hmark (r.mark (PageEntry.directorySlot directory vaddr) .load)
          (PageEntry.tableSlot (r.directoryEntry directory vaddr) vaddr) access (UInt8.and_self ..)
        have hor : (x &&& markByte access) ||| (y &&& markByte access) =
            (x ||| y) &&& markByte access := UInt8.toBitVec_inj.1 BitVec.and_or_distrib_right.symm
        exact ⟨x ||| y, by rw [h, hy, hx, UInt8.or_assoc, hor]⟩
  · rw [stateOf_walk_of_not_paging _ _ _ (by simpa using hp)]
    exact ⟨0, by simp⟩

theorem preserved_walk (hs : space.Aligned) (hr : r.Paged) (vaddr : UInt32) (access : Access)
    (user : Bool) :
    Preserved space (markByte access) ∅ r (stateOf (walk space vaddr access user r)) := by
  have hstored := r.stored_walk hs hr vaddr access user
  refine ⟨hstored.size, hstored.translate, hstored.walkSlots, fun i _ => ?_⟩
  rcases (marked_walk space vaddr access user r).byte i with h | ⟨slot, hslot, hat, -⟩
  · exact .inl h
  · exact .inr ⟨vaddr, slot, hslot, hat, byte_walk_marks space vaddr access user r i⟩

/-! ## Addresses of one page -/

/-- Addresses of a page are put in one frame. -/
theorem translate_of_pageNumber {v w frame : UInt32} (hv : pageNumber w = pageNumber v)
    (h : r.translate space v access user = .ok frame) :
    r.translate space w access user = .ok frame := by
  cases hp : space.paging with
  | true =>
    obtain ⟨directory, hd⟩ := directory_of_translate h hp
    have hdir : r.directoryEntry directory w = r.directoryEntry directory v := by
      rw [directoryEntry, PageEntry.directorySlot_eq_of_pageNumber hv, directoryEntry]
    have htab : r.tableEntry directory w = r.tableEntry directory v := by
      rw [tableEntry, hdir, PageEntry.tableSlot_eq_of_pageNumber hv, tableEntry]
    rw [translate_eq_ok_iff hp hd] at h ⊢
    rwa [hdir, htab]
  | false =>
    rw [translate_of_not_paging_eq_ok_iff hp] at h ⊢
    rwa [pageBase_eq_of_pageNumber hv]

/-- In a page the bytes follow each other. -/
theorem locate_add {v pa : UInt32} (h : r.locate space v access user = .ok pa) {i : Nat}
    (hi : v.toNat % 4096 + i < 4096) :
    r.locate space (v + i.toUInt32) access user = .ok (pa + i.toUInt32) ∧
      (pa + i.toUInt32).toNat = pa.toNat + i := by
  obtain ⟨frame, ht, rfl⟩ := locate_eq_ok h
  have hv := v.toNat_lt
  have hframe : frame.toNat % 4096 = 0 := by
    rw [← (pageBase_of_translate ht).1, pageBase_toNat]
    omega
  have hlt := frame.toNat_lt
  have hsmall : i.toUInt32.toNat = i := 
    UInt32.toNat_ofNat_of_lt' (Nat.lt_trans (Nat.lt_of_le_of_lt (Nat.le_add_left ..) hi) (by decide))
  have hsum : (v + i.toUInt32).toNat = v.toNat + i := by
    rw [UInt32.toNat_add, hsmall]
    omega
  have hpage : pageNumber (v + i.toUInt32) = pageNumber v := by
    apply UInt32.toNat_inj.1
    rw [pageNumber_toNat, pageNumber_toNat, hsum]
    omega
  have hoff : (pageOffset (v + i.toUInt32)).toNat = v.toNat % 4096 + i := by
    rw [pageOffset_toNat, hsum]
    omega
  have hoff' := pageOffset_toNat v
  have hplace : (frame ||| pageOffset v).toNat = frame.toNat + v.toNat % 4096 := by
    rw [toNat_or hframe (by omega), hoff']
  have hnext : ((frame ||| pageOffset v) + i.toUInt32).toNat =
      (frame ||| pageOffset v).toNat + i := by
    rw [UInt32.toNat_add, hsmall, hplace]
    omega
  refine ⟨?_, hnext⟩
  rw [locate, translate_of_pageNumber hpage ht]
  refine congrArg Except.ok (UInt32.toNat_inj.1 ?_)
  rw [hnext, hplace, toNat_or hframe (by omega), hoff]
  omega

/-! ## Operands -/

namespace Lies

variable {T : UInt32 → UInt32} {v u : UInt32} {n k : Nat}

theorem mono (h : r.Lies space access user T v n) (hk : k ≤ n) :
    r.Lies space access user T v k := by
  have hsub : addresses v k ⊆ addresses v n := by
    rintro w ⟨i, hi, rfl⟩
    exact ⟨i, by omega, rfl⟩
  exact ⟨fun w hw => h.located w (hsub hw), fun i hi => h.apart i (Set.image_mono hsub hi)⟩

/-- The bytes behind the first. -/
theorem drop (h : r.Lies space access user T v (u.toNat + n)) :
    r.Lies space access user T (v + u) n := by
  refine ⟨fun w hw => h.located w ?_, fun i hi => h.apart i ?_⟩
  · rw [addresses_append]
    exact .inr hw
  · rw [places_append]
    exact .inr hi

theorem preserved (h : r.Lies space access user T v n) (hr : Preserved space flags stores r r') :
    r'.Lies space access user T v n := by
  refine ⟨fun w hw => ?_, fun i hi => ?_⟩
  · rw [locate, hr.translate]
    exact h.located w hw
  · rw [hr.inEntries_iff]
    exact h.apart i hi

/-- What may be stored to may be loaded from. -/
theorem load (h : r.Lies space .store user T v n) : r.Lies space .load user T v n :=
  ⟨fun w hw => locate_load (h.located w hw), h.apart⟩

theorem first (h : r.Lies space access user T v n) (hn : 0 < n) :
    r.locate space v access user = .ok (T v) :=
  h.located v ⟨0, hn, by simp⟩

/-- In the page of the first byte they follow it. -/
theorem toNat (h : r.Lies space access user T v n) {i : Nat} (hi : i < n)
    (hpage : v.toNat % 4096 + i < 4096) : (T (v + i.toUInt32)).toNat = (T v).toNat + i := by
  obtain ⟨hlocate, hnat⟩ := locate_add (h.first (Nat.zero_lt_of_lt hi)) hpage
  rw [h.located _ ⟨i, hi, rfl⟩] at hlocate
  rw [Except.ok.inj hlocate, hnat]

/-- The places of bytes of one page. -/
theorem mem_places_iff (h : r.Lies space access user T v n) (hpage : v.toNat % 4096 + n ≤ 4096)
    {j : Nat} : j ∈ places T v n ↔ (T v).toNat ≤ j ∧ j < (T v).toNat + n := by
  constructor
  · rintro ⟨w, ⟨i, hi, rfl⟩, rfl⟩
    have hnat := h.toNat hi (by omega)
    dsimp only
    omega
  · rintro ⟨hle, hlt⟩
    refine ⟨v + (j - (T v).toNat).toUInt32, ⟨j - (T v).toNat, by omega, rfl⟩, ?_⟩
    have hnat := h.toNat (i := j - (T v).toNat) (by omega) (by omega)
    dsimp only
    omega

end Lies

end

end Ram

/-! ## Chunks -/

namespace Memory.Faithful

variable {space : AddressSpace} {m : Memory}

/-- The page cache has no line for data. -/
theorem data {write : Bool} (h : m.Faithful space .data write) (write' : Bool) :
    m.Faithful space .data write' :=
  ⟨h.aligned, h.paged, h.tlb, fun e he => by rw [AccessPath.line_data] at he; cases he⟩

/-- Data is found where the tables say. -/
theorem resolve_data {access : Access} {user : Bool} {vaddr pa : UInt32}
    (h : m.Faithful space .data false) (hpa : m.ram.locate space vaddr access user = .ok pa) :
    ∃ m', Memory.resolve space .data vaddr access user m = .ok pa m' ∧
      m'.Faithful space .data false ∧ m.ram.Preserved space (Ram.markByte access) ∅ m'.ram := by
  obtain ⟨m', hresolve, hfaithful, -⟩ := (h.data access.writes).resolve_of_locate access hpa
  refine ⟨m', hresolve, hfaithful.data false, ?_⟩
  have hram := ram_resolve space .data vaddr access user m
  rw [hresolve, stateOf_ok] at hram
  rcases hram with hram | hram
  · rw [hram]
    exact .refl space _ m.ram
  · rw [hram]
    exact m.ram.preserved_walk h.aligned h.paged vaddr access user

end Memory.Faithful

namespace Machine

variable {op : BlockOp} {m : Machine} {T : UInt32 → UInt32}

theorem advance_operands (op : BlockOp) (n : UInt32) (r : Registers) :
    (op.advance n r).a = r.a + n ∧ (op.advance n r).c = r.c - n ∧
      (op.advance n r).space = r.space ∧ (op.advance n r).user = r.user := by
  cases op <;> exact ⟨rfl, rfl, rfl, rfl⟩

/-- The next chunk and the rest. -/
theorem length_add_rest (op : BlockOp) (r : Registers) :
    (op.length r).toNat + (r.c - op.length r).toNat = r.c.toNat ∧
      op.length r + (r.c - op.length r) = r.c := by
  have hle := op.length_le r
  have hrest := UInt32.toNat_sub_of_le _ _ (UInt32.le_iff_toNat_le.2 hle)
  have hsum : op.length r + (r.c - op.length r) = r.c := by grind
  exact ⟨by omega, hsum⟩

/-- A chunk stays in the pages of its operands. -/
theorem length_fits {r : Registers} {t : UInt32 × Access} (ht : t ∈ op.touches r) :
    t.1.toNat % 4096 + (op.length r).toNat ≤ 4096 := by
  have hle := BlockOp.length_le_pageLeft ht
  have hmod := Nat.mod_lt t.1.toNat (show 0 < 4096 by decide)
  rw [pageLeft_toNat] at hle
  omega

/-- The operands of a chunk are found where the tables say. -/
theorem operands_of_located (h : m.memory.Faithful m.regs.space .data false)
    (hT : ∀ t ∈ op.touches m.regs,
      m.memory.ram.locate m.regs.space t.1 t.2 m.regs.user = .ok (T t.1)) :
    ∃ memory : Memory, operands op m.regs m =
        .ok (T m.regs.a, T (op.other m.regs)) { m with memory } ∧
      memory.Faithful m.regs.space .data false ∧
      m.memory.ram.Preserved m.regs.space (Ram.markByte op.access) ∅ memory.ram := by
  have hload : Ram.markByte .load &&& Ram.markByte op.access = Ram.markByte .load := by
    cases op <;> rfl
  cases op with
  | copy | compare =>
    obtain ⟨memory₁, hb, h₁, hkept₁⟩ := h.resolve_data (hT (m.regs.b, .load) (List.mem_cons_self ..))
    have ha := hT (m.regs.a, _) (List.mem_cons_of_mem _ (List.mem_singleton_self _))
    rw [Ram.locate, ← hkept₁.translate, ← Ram.locate] at ha
    obtain ⟨memory₂, ha, h₂, hkept₂⟩ := h₁.resolve_data ha
    refine ⟨memory₂, ?_, h₂, ?_⟩
    · rw [operands, bind_apply, resolve_apply, hb]
      dsimp only
      rw [bind_apply, resolve_apply, ha]
      rfl
    · exact (hkept₁.flags_mono hload).of_flags hkept₂
  | scan | fill =>
    obtain ⟨memory₁, ha, h₁, hkept₁⟩ := h.resolve_data (hT (m.regs.a, _) (List.mem_singleton_self _))
    refine ⟨memory₁, ?_, h₁, hkept₁⟩
    rw [operands, bind_apply, resolve_apply, ha]
    rfl

/-- A chunk does its work there. -/
theorem chunk_of_located (h : m.memory.Faithful m.regs.space .data false)
    (hT : ∀ t ∈ op.touches m.regs,
      m.memory.ram.locate m.regs.space t.1 t.2 m.regs.user = .ok (T t.1)) :
    ∃ memory : Memory,
      (let result := effect op (T m.regs.a) (T (op.other m.regs)) { m with memory }
       chunk op m = .ok result.1 result.2) ∧
      memory.Faithful m.regs.space .data false ∧
      m.memory.ram.Preserved m.regs.space (Ram.markByte op.access) ∅ memory.ram ∧
      memory.ram.holds (T m.regs.a) (op.length m.regs).toNat = true ∧
      memory.ram.holds (T (op.other m.regs)) (op.length m.regs).toNat = true := by
  obtain ⟨memory, hoperands, hfaithful, hkept⟩ := operands_of_located h hT
  have hholds (t : UInt32 × Access) (ht : t ∈ op.touches m.regs) :
      memory.ram.holds (T t.1) (op.length m.regs).toNat = true := by
    have hlocate := hT t ht
    rw [Ram.locate, ← hkept.translate, ← Ram.locate] at hlocate
    exact hfaithful.paged.holds_of_locate hlocate (length_fits ht)
  have ha := hholds _ (op.mem_touches m.regs)
  obtain ⟨access, hother⟩ := op.other_mem_touches m.regs
  have hb := hholds _ hother
  refine ⟨memory, ?_, hfaithful, hkept, ha, hb⟩
  rw [chunk_apply, hoperands]
  dsimp only
  rw [ha, hb]
  rfl

end Machine

/-! ## Two pages that are one -/

/-- The place of an address in the page behind both. -/
def mirroredPlace (v : UInt32) : UInt32 := 0x2000 ||| pageOffset v

theorem mirroredPlace_toNat (v : UInt32) : (mirroredPlace v).toNat = 0x2000 + v.toNat % 4096 := by
  have hoff := pageOffset_toNat v
  rw [mirroredPlace, toNat_or (by decide) (by omega), hoff]
  rfl

theorem Ram.not_inEntries_mirrored {i : Nat} (h : 0x2000 ≤ i) (h' : i < 0x3000) :
    ¬mirrored.InEntries ⟨true, some 0⟩ i := by
  rintro ⟨vaddr, slot, hslot, hle, hlt⟩
  have hi : i.toUInt32.toNat = i := UInt32.toNat_ofNat_of_lt' (Nat.lt_trans h' (by decide))
  have hapart := sparesTables_mirrored (a := i.toUInt32) (by omega) vaddr slot hslot
  unfold Apart at hapart
  omega

theorem Ram.lies_mirrored {v : UInt32} {n : Nat} (h : v.toNat + n ≤ 0x2000) :
    mirrored.Lies ⟨true, some 0⟩ .store false mirroredPlace v n := by
  constructor
  · rintro _ ⟨i, hi, rfl⟩
    refine locate_mirrored ?_
    rw [UInt32.toNat_add, UInt32.toNat_ofNat']
    omega
  · rintro _ ⟨w, -, rfl⟩
    have hplace := mirroredPlace_toNat w
    exact not_inEntries_mirrored (by dsimp only; omega) (by dsimp only; omega)

end PagedMachine
