import PagedMachine.Paging
import PagedMachine.Ram.Lemmas

/-!
# Page tables, entry by entry

What an access does to an entry and a walk to memory. An access only adds marks, the accessed and
dirty bits (`PageEntry.MarkedTo`), and a walk marks at most the two entries of its address
(`walk_markedTo`, `byte_walk`).
-/

set_option autoImplicit false

namespace PagedMachine

namespace PageEntry

/-! ## Flags -/

theorem has_or (a b bit : UInt32) :
    (⟨a ||| b⟩ : PageEntry).has bit = ((⟨a⟩ : PageEntry).has bit || (⟨b⟩ : PageEntry).has bit) := by
  simp only [has, or_and_distrib]
  by_cases ha : a &&& bit = 0 <;> by_cases hb : b &&& bit = 0 <;> simp [ha, hb]

/-- The flags that the walk sets by itself. -/
def markBits : UInt32 := accessedBit ||| dirtyBit

/-- `e'` is `e` after any number of accesses. -/
def MarkedTo (e e' : PageEntry) : Prop := ∃ marks, e'.word = e.word ||| (marks &&& markBits)

namespace MarkedTo

variable {e e' e'' : PageEntry}

theorem refl (e : PageEntry) : e.MarkedTo e := ⟨0, by simp⟩

theorem trans (h : e.MarkedTo e') (h' : e'.MarkedTo e'') : e.MarkedTo e'' := by
  obtain ⟨x, hx⟩ := h
  obtain ⟨y, hy⟩ := h'
  exact ⟨x ||| y, by rw [hy, hx, or_and_distrib, UInt32.or_assoc]⟩

/-- Accesses clear no flag. -/
theorem has_of_has (h : e.MarkedTo e') {bit : UInt32} (hb : e.has bit = true) :
    e'.has bit = true := by
  obtain ⟨x, hx⟩ := h
  obtain ⟨w⟩ := e'
  subst hx
  rw [has_or, Bool.or_eq_true]
  exact .inl hb

theorem has_eq (h : e.MarkedTo e') {bit : UInt32} (hb : markBits &&& bit = 0) :
    e'.has bit = e.has bit := by
  obtain ⟨x, hx⟩ := h
  obtain ⟨w⟩ := e'
  subst hx
  rw [has_or]
  simp [has, UInt32.and_assoc, hb]

theorem present_eq (h : e.MarkedTo e') : e'.present = e.present := h.has_eq (by decide)

theorem writable_eq (h : e.MarkedTo e') : e'.writable = e.writable := h.has_eq (by decide)

theorem user_eq (h : e.MarkedTo e') : e'.user = e.user := h.has_eq (by decide)

theorem base_eq (h : e.MarkedTo e') : e'.base = e.base := by
  obtain ⟨x, hx⟩ := h
  have hm : markBits &&& ~~~pageMask = 0 := by decide
  rw [base, base, hx, pageBase, or_and_distrib, UInt32.and_assoc x, hm]
  simp [pageBase]

/-- An entry that an access would not change stays so. -/
theorem marked_eq (h : e.MarkedTo e') {access : Access} (hm : e.marked access = e) :
    e'.marked access = e' := by
  obtain ⟨x, hx⟩ := h
  have hw := congrArg word hm
  obtain ⟨w⟩ := e'
  simp only [marked, UInt32.or_assoc] at hw hx ⊢
  rw [hx, UInt32.or_comm e.word, UInt32.or_assoc, hw]

theorem permits_eq {pde pde' pte pte' : PageEntry} (hd : pde.MarkedTo pde')
    (ht : pte.MarkedTo pte') (access : Access) (user : Bool) :
    pde'.permits pte' access user = pde.permits pte access user := by
  simp only [permits, ht.present_eq, hd.user_eq, ht.user_eq, hd.writable_eq, ht.writable_eq]

end MarkedTo

theorem markedTo_marked (e : PageEntry) (access : Access) : e.MarkedTo (e.marked access) := by
  refine ⟨accessedBit ||| if access.writes then dirtyBit else 0, ?_⟩
  simp only [marked, UInt32.or_assoc]
  congr 1
  cases access <;> decide

theorem accessed_marked (e : PageEntry) (access : Access) : (e.marked access).accessed = true := by
  simp only [marked, accessed, has_or, Bool.or_eq_true]
  exact .inl (.inr (by decide))

theorem dirty_marked {access : Access} (h : access.writes = true) (e : PageEntry) :
    (e.marked access).dirty = true := by
  simp only [marked, dirty, has_or, Bool.or_eq_true, h, if_true]
  exact .inr (by decide)

theorem or_dirtyBit {e : PageEntry} (h : e.dirty = true) : e.word ||| dirtyBit = e.word := by
  have hbit : dirtyBit.toBitVec = BitVec.twoPow 32 6 := by decide
  have hand : e.word &&& dirtyBit = dirtyBit := by
    simp only [dirty, has, ne_eq, decide_eq_true_eq] at h
    rw [← UInt32.toBitVec_inj] at h ⊢
    rw [UInt32.toBitVec_and, hbit, BitVec.and_twoPow] at h ⊢
    split at h
    · rw [if_pos ‹_›]
    · exact absurd rfl h
  rw [← hand, UInt32.or_comm, UInt32.and_comm]
  apply UInt32.toBitVec_inj.1
  ext i hi
  simp

/-- After an access that dirtied the entry, or found it dirty, no further access changes it. -/
theorem marked_marked {e : PageEntry} {access access' : Access}
    (h : access'.writes = true → access.writes = true ∨ e.dirty = true) :
    (e.marked access).marked access' = e.marked access := by
  have hd : access'.writes = true → (e.marked access).dirty = true := by
    intro h'
    rcases h h' with h | h
    · exact dirty_marked h e
    · exact (markedTo_marked e access).has_of_has h
  have hacc : (e.marked access).word ||| accessedBit = (e.marked access).word := by
    simp only [marked]
    generalize (if access.writes = true then dirtyBit else 0) = d
    rw [UInt32.or_assoc (e.word ||| accessedBit), UInt32.or_comm d, ← UInt32.or_assoc,
      UInt32.or_assoc e.word, UInt32.or_self]
  rw [marked, hacc]
  by_cases h' : access'.writes = true
  · rw [if_pos h', or_dirtyBit (hd h')]
  · rw [if_neg h', UInt32.or_zero]

/-! ## Where entries lie -/

/-- An index into a table, in bytes, is a multiple of four below the size of a page. -/
theorem tableIndex_toNat (w : UInt32) : (w &&& 0xffc).toNat = w.toNat % 4096 / 4 * 4 := by
  have hlow (n : Nat) : n % 4096 &&& 3 = n % 4096 % 4 := Nat.and_two_pow_sub_one_eq_mod _ 2
  have hpage : w.toNat &&& 4095 = w.toNat % 4096 := Nat.and_two_pow_sub_one_eq_mod _ 12
  rw [show (0xffc : UInt32) = 4095 &&& ~~~3 by decide, ← UInt32.and_assoc, toNat_and_not]
  simp only [UInt32.toNat_and, UInt32.reduceToNat, hpage, hlow]
  omega

theorem tableSlot_toNat (pde : PageEntry) (vaddr : UInt32) :
    (tableSlot pde vaddr).toNat = pde.base.toNat + vaddr.toNat / 4096 % 1024 * 4 := by
  have hb : pde.base.toNat = pde.word.toNat / 4096 * 4096 := pageBase_toNat pde.word
  have hw := pde.word.toNat_lt
  rw [tableSlot, UInt32.toNat_add, tableIndex_toNat, UInt32.toNat_shiftRight]
  simp only [UInt32.reduceToNat, Nat.reduceMod, Nat.shiftRight_eq_div_pow]
  omega

theorem directorySlot_toNat {directory : UInt32} (h : directory.toNat % 4096 = 0)
    (vaddr : UInt32) :
    (directorySlot directory vaddr).toNat = directory.toNat + vaddr.toNat / 4194304 * 4 := by
  have hv := vaddr.toNat_lt
  have hd := directory.toNat_lt
  rw [directorySlot, UInt32.toNat_add, UInt32.toNat_shiftLeft, UInt32.toNat_shiftRight]
  simp only [UInt32.reduceToNat, Nat.reduceMod, Nat.shiftRight_eq_div_pow, Nat.shiftLeft_eq]
  omega

theorem tableSlot_aligned (pde : PageEntry) (vaddr : UInt32) :
    (tableSlot pde vaddr).toNat % 4 = 0 := by
  have hb : pde.base.toNat = pde.word.toNat / 4096 * 4096 := pageBase_toNat pde.word
  rw [tableSlot_toNat]
  omega

theorem directorySlot_aligned {directory : UInt32} (h : directory.toNat % 4 = 0)
    (vaddr : UInt32) : (directorySlot directory vaddr).toNat % 4 = 0 := by
  have hv := vaddr.toNat_lt
  rw [directorySlot, UInt32.toNat_add, UInt32.toNat_shiftLeft, UInt32.toNat_shiftRight]
  simp only [UInt32.reduceToNat, Nat.reduceMod, Nat.shiftRight_eq_div_pow, Nat.shiftLeft_eq]
  omega

/-- The entries of an address are those of its page. -/
theorem tableSlot_eq_of_pageNumber {v w : UInt32} (h : pageNumber v = pageNumber w)
    (pde : PageEntry) : tableSlot pde v = tableSlot pde w := by
  have hn := congrArg UInt32.toNat h
  apply UInt32.toNat_inj.1
  simp only [tableSlot_toNat, pageNumber_toNat] at hn ⊢
  rw [hn]

theorem directorySlot_eq_of_pageNumber {v w : UInt32} (h : pageNumber v = pageNumber w)
    (directory : UInt32) : directorySlot directory v = directorySlot directory w := by
  have hn := congrArg UInt32.toNat h
  have hi : v >>> 22 = w >>> 22 := by
    apply UInt32.toNat_inj.1
    simp only [pageNumber_toNat] at hn
    simp only [UInt32.toNat_shiftRight, UInt32.reduceToNat, Nat.reduceMod,
      Nat.shiftRight_eq_div_pow]
    omega
  rw [directorySlot, directorySlot, hi]

end PageEntry

/-! ## Marks in memory -/

namespace Ram

/-- The entry that lies at `addr`. -/
def entry (r : Ram) (addr : UInt32) : PageEntry := ⟨r.read32 addr⟩

/-- The directory entry of `vaddr`. -/
def directoryEntry (r : Ram) (directory vaddr : UInt32) : PageEntry :=
  r.entry (PageEntry.directorySlot directory vaddr)

/-- The table entry of `vaddr`, in the table that its directory entry names. -/
def tableEntry (r : Ram) (directory vaddr : UInt32) : PageEntry :=
  r.entry (PageEntry.tableSlot (r.directoryEntry directory vaddr) vaddr)

/-- Memory after an access through the entry at `addr`. -/
def mark (r : Ram) (addr : UInt32) (access : Access) : Ram :=
  if (r.entry addr).marked access ≠ r.entry addr then
    r.write32 addr ((r.entry addr).marked access).word
  else r

/-- Entries are alike where their bytes are. -/
theorem entry_congr {r r' : Ram} {slot : UInt32} (hs : r'.bytes.size = r.bytes.size)
    (hb : ∀ k < 4, r'.byte (slot.toNat + k) = r.byte (slot.toNat + k)) :
    r'.entry slot = r.entry slot := by
  have hw : r'.word slot.toNat = r.word slot.toNat := by
    simp only [word]
    rw [← Nat.add_zero slot.toNat, hb 0 (by omega), Nat.add_zero, hb 1 (by omega),
      hb 2 (by omega), hb 3 (by omega)]
  have hholds : r'.holds slot 4 = r.holds slot 4 := by simp [holds, hs]
  simp only [entry, read32, hholds, hw]

theorem holds_of_present {r : Ram} {addr : UInt32} (h : (r.entry addr).present = true) :
    r.holds addr 4 = true := by
  apply holds_of_read32_ne_zero
  intro h0
  simp [entry, h0, PageEntry.present, PageEntry.has] at h

theorem mark_eq_self {r : Ram} {addr : UInt32} {access : Access}
    (h : (r.entry addr).marked access = r.entry addr) : r.mark addr access = r := by
  simp [mark, h]

@[simp] theorem bytes_size_mark (r : Ram) (addr : UInt32) (access : Access) :
    (r.mark addr access).bytes.size = r.bytes.size := by
  simp only [mark]
  split
  · exact size_write32 ..
  · rfl

@[simp] theorem size_mark (r : Ram) (addr : UInt32) (access : Access) :
    (r.mark addr access).size = r.size :=
  size_eq_of (bytes_size_mark r addr access)

theorem entry_mark_self {r : Ram} {addr : UInt32} (h : r.holds addr 4 = true) (access : Access) :
    (r.mark addr access).entry addr = (r.entry addr).marked access := by
  by_cases hm : (r.entry addr).marked access = r.entry addr
  · rw [mark_eq_self hm, hm]
  · rw [mark, if_pos hm, entry, read32_write32 h]

theorem entry_mark_of_ne {r : Ram} {addr other : UInt32} (ha : addr.toNat % 4 = 0)
    (ho : other.toNat % 4 = 0) (h : addr ≠ other) (access : Access) :
    (r.mark addr access).entry other = r.entry other := by
  simp only [mark]
  split
  · simp only [entry, read32_write32_of_ne ha ho h]
  · rfl

theorem byte_mark_of_disjoint {r : Ram} {addr : UInt32} {i : Nat}
    (h : i < addr.toNat ∨ addr.toNat + 4 ≤ i) (access : Access) :
    (r.mark addr access).byte i = r.byte i := by
  simp only [mark]
  split
  · exact byte_write32_of_disjoint h _
  · rfl

/-- `r'` is `r` after accesses through some of its entries. -/
structure MarkedTo (r r' : Ram) : Prop where
  size : r'.bytes.size = r.bytes.size
  entry : ∀ addr, addr.toNat % 4 = 0 → (r.entry addr).MarkedTo (r'.entry addr)

namespace MarkedTo

variable {r r' r'' : Ram}

theorem refl (r : Ram) : r.MarkedTo r := ⟨rfl, fun _ _ => .refl _⟩

theorem trans (h : r.MarkedTo r') (h' : r'.MarkedTo r'') : r.MarkedTo r'' :=
  ⟨h'.size.trans h.size, fun addr ha => (h.entry addr ha).trans (h'.entry addr ha)⟩

theorem directoryEntry (h : r.MarkedTo r') {directory : UInt32} (hd : directory.toNat % 4 = 0)
    (vaddr : UInt32) :
    (r.directoryEntry directory vaddr).MarkedTo (r'.directoryEntry directory vaddr) :=
  h.entry _ (PageEntry.directorySlot_aligned hd vaddr)

/-- Marks leave the table of an address where it was. -/
theorem tableSlot_eq (h : r.MarkedTo r') {directory : UInt32} (hd : directory.toNat % 4 = 0)
    (vaddr : UInt32) :
    PageEntry.tableSlot (r'.directoryEntry directory vaddr) vaddr =
      PageEntry.tableSlot (r.directoryEntry directory vaddr) vaddr := by
  rw [PageEntry.tableSlot, PageEntry.tableSlot, (h.directoryEntry hd vaddr).base_eq]

theorem tableEntry (h : r.MarkedTo r') {directory : UInt32} (hd : directory.toNat % 4 = 0)
    (vaddr : UInt32) :
    (r.tableEntry directory vaddr).MarkedTo (r'.tableEntry directory vaddr) := by
  rw [Ram.tableEntry, Ram.tableEntry, h.tableSlot_eq hd]
  exact h.entry _ (PageEntry.tableSlot_aligned _ vaddr)

end MarkedTo

theorem markedTo_mark {r : Ram} {addr : UInt32} (ha : addr.toNat % 4 = 0) (access : Access) :
    r.MarkedTo (r.mark addr access) := by
  refine ⟨bytes_size_mark r addr access, fun other ho => ?_⟩
  by_cases h : addr = other
  · subst h
    by_cases hh : r.holds addr 4 = true
    · rw [entry_mark_self hh]
      exact PageEntry.markedTo_marked _ access
    · have hw : ∀ v, r.write32 addr v = r := fun v => by simp [write32, hh]
      simp only [mark, hw, ite_self]
      exact .refl _
  · rw [entry_mark_of_ne ha ho h]
    exact .refl _

end Ram

/-! ## The walk -/

theorem markEntry_apply (addr : UInt32) (access : Access) (r : Ram) :
    markEntry addr (r.entry addr) access r = .ok () (r.mark addr access) := by
  simp only [markEntry, Ram.mark]
  split <;> rfl

theorem walkDirectory_apply (directory vaddr : UInt32) (access : Access) (r : Ram) :
    walkDirectory directory vaddr access r =
      if (r.directoryEntry directory vaddr).present then
        if (r.directoryEntry directory vaddr).word < r.size then
          .ok (r.directoryEntry directory vaddr)
            (r.mark (PageEntry.directorySlot directory vaddr) .load)
        else
          .error (.badPhysicalAddress (some vaddr))
            (r.mark (PageEntry.directorySlot directory vaddr) .load)
      else .error (access.pageFault vaddr) r := by
  have he : (⟨r.read32 (PageEntry.directorySlot directory vaddr)⟩ : PageEntry) =
    r.directoryEntry directory vaddr := rfl
  have hm : markEntry _ (r.directoryEntry directory vaddr) _ r = _ :=
    markEntry_apply (PageEntry.directorySlot directory vaddr) .load r
  simp only [walkDirectory, readEntry, bind_apply, get_apply, pure_apply, require_apply, he]
  by_cases hp : (r.directoryEntry directory vaddr).present = true
  · simp only [hp, if_true, hm, Ram.size_mark]
    by_cases hw : (r.directoryEntry directory vaddr).word < r.size <;> simp [hw]
  · simp [hp]

theorem walkTable_apply (pde : PageEntry) (vaddr : UInt32) (access : Access) (user : Bool)
    (r : Ram) :
    walkTable pde vaddr access user r =
      let slot := PageEntry.tableSlot pde vaddr
      let pte := r.entry slot
      if pde.permits pte access user then
        if pte.base < r.size then
          .ok { frame := pte.base,
                writable := (access.writes || pte.dirty) && (pde.writable && pte.writable),
                user := pde.user && pte.user } (r.mark slot access)
        else .error (.badPhysicalAddress (some vaddr)) (r.mark slot access)
      else .error (access.pageFault vaddr) r := by
  have he : (⟨r.read32 (PageEntry.tableSlot pde vaddr)⟩ : PageEntry) =
    r.entry (PageEntry.tableSlot pde vaddr) := rfl
  have hm := markEntry_apply (PageEntry.tableSlot pde vaddr) access r
  simp only [walkTable, inMemory, readEntry, bind_apply, get_apply, pure_apply, require_apply, he]
  by_cases hp : pde.permits (r.entry (PageEntry.tableSlot pde vaddr)) access user = true
  · simp only [hp, if_true, hm, Ram.size_mark]
    by_cases hw : (r.entry (PageEntry.tableSlot pde vaddr)).base < r.size <;> simp [hw]
  · simp [hp]

section
variable {space : AddressSpace} {directory vaddr : UInt32} {access : Access} {user : Bool}

theorem walk_of_not_paging (h : space.paging = false) (r : Ram) :
    walk space vaddr access user r =
      if pageBase vaddr < r.size then
        .ok { frame := pageBase vaddr, writable := true, user := true } r
      else .error (.badPhysicalAddress (some vaddr)) r := by
  simp only [walk, h, inMemory, bind_apply, get_apply, pure_apply, require_apply,
    Bool.false_eq_true, if_false]
  by_cases hw : pageBase vaddr < r.size <;> simp [hw]

theorem walk_of_no_directory (h : space.paging = true) (hd : space.directory = none) (r : Ram) :
    walk space vaddr access user r = .error (.badPhysicalAddress (some vaddr)) r := by
  simp [walk, h, hd, throw_apply]

theorem walk_of_directory (h : space.paging = true) (hd : space.directory = some directory) :
    walk space vaddr access user =
      (walkDirectory directory vaddr access >>= fun pde => walkTable pde vaddr access user) := by
  simp [walk, h, hd]

theorem Access.vaddr_pageFault (access : Access) (vaddr : UInt32) :
    (access.pageFault vaddr).vaddr? = some vaddr := by
  cases access <;> rfl

/-- A walk faults since an address is not in memory or the page may not be used. -/
theorem walk_eq_error {fault : Fault} {r r' : Ram}
    (h : walk space vaddr access user r = .error fault r') :
    fault = .badPhysicalAddress (some vaddr) ∨ fault = access.pageFault vaddr := by
  by_cases hp : space.paging = true
  · cases hd : space.directory with
    | none =>
      rw [walk_of_no_directory hp hd] at h
      obtain ⟨rfl, -⟩ := EStateM.Result.error.inj h
      exact .inl rfl
    | some directory =>
      rw [walk_of_directory hp hd, bind_apply, walkDirectory_apply] at h
      split at h
      · rename_i hdir
        split at hdir
        · split at hdir
          · obtain ⟨rfl, rfl⟩ := EStateM.Result.ok.inj hdir
            rw [walkTable_apply] at h
            dsimp only at h
            split at h
            · split at h
              · cases h
              · obtain ⟨rfl, -⟩ := EStateM.Result.error.inj h
                exact .inl rfl
            · obtain ⟨rfl, -⟩ := EStateM.Result.error.inj h
              exact .inr rfl
          · cases hdir
        · cases hdir
      · rename_i hdir
        obtain ⟨rfl, rfl⟩ := EStateM.Result.error.inj h
        split at hdir
        · split at hdir
          · cases hdir
          · obtain ⟨rfl, -⟩ := EStateM.Result.error.inj hdir
            exact .inl rfl
        · obtain ⟨rfl, -⟩ := EStateM.Result.error.inj hdir
          exact .inr rfl
  · rw [walk_of_not_paging (by simpa using hp)] at h
    split at h
    · cases h
    · obtain ⟨rfl, -⟩ := EStateM.Result.error.inj h
      exact .inl rfl

/-- A walk leaves memory as it was, or with its directory entry marked, or with both of its entries
marked. -/
theorem stateOf_walk (h : space.paging = true) (hd : space.directory = some directory) (r : Ram) :
    let r' := stateOf (walk space vaddr access user r)
    let slot := PageEntry.directorySlot directory vaddr
    r' = r ∨ r' = r.mark slot .load ∨
      r' = (r.mark slot .load).mark
        (PageEntry.tableSlot (r.directoryEntry directory vaddr) vaddr) access := by
  intro r' slot
  simp only [r', slot, walk_of_directory h hd, bind_apply, walkDirectory_apply]
  by_cases hp : (r.directoryEntry directory vaddr).present = true
  · by_cases hw : (r.directoryEntry directory vaddr).word < r.size
    · simp only [hp, hw, if_true, walkTable_apply]
      split
      · split
        · exact .inr (.inr rfl)
        · exact .inr (.inr rfl)
      · exact .inr (.inl rfl)
    · simp [hp, hw]
  · simp [hp]

variable (vaddr access user)

theorem stateOf_walk_of_not_paging (h : space.paging = false) (r : Ram) :
    stateOf (walk space vaddr access user r) = r := by
  rw [walk_of_not_paging h]
  split <;> rfl

/-- A walk only adds marks. -/
theorem walk_markedTo (hd : ∀ d, space.directory = some d → d.toNat % 4 = 0) (r : Ram) :
    r.MarkedTo (stateOf (walk space vaddr access user r)) := by
  by_cases h : space.paging = true
  · cases hs : space.directory with
    | none =>
      rw [walk_of_no_directory h hs]
      exact .refl r
    | some directory =>
      have h1 := r.markedTo_mark (PageEntry.directorySlot_aligned (hd _ hs) vaddr) .load
      have h2 := h1.trans (Ram.markedTo_mark (PageEntry.tableSlot_aligned
        (r.directoryEntry directory vaddr) vaddr) access)
      rcases stateOf_walk h hs r with he | he | he <;> rw [he]
      · exact .refl r
      · exact h1
      · exact h2
  · rw [stateOf_walk_of_not_paging _ _ _ (by simpa using h)]
    exact .refl r

variable {vaddr access user}

/-- A walk changes no byte outside its two entries. -/
theorem byte_walk (hd : space.directory = some directory) {i : Nat} (r : Ram)
    (hi : i < (PageEntry.directorySlot directory vaddr).toNat ∨
      (PageEntry.directorySlot directory vaddr).toNat + 4 ≤ i)
    (hi' : i < (PageEntry.tableSlot (r.directoryEntry directory vaddr) vaddr).toNat ∨
      (PageEntry.tableSlot (r.directoryEntry directory vaddr) vaddr).toNat + 4 ≤ i) :
    (stateOf (walk space vaddr access user r)).byte i = r.byte i := by
  by_cases h : space.paging = true
  · rcases stateOf_walk h hd r with he | he | he <;> rw [he]
    · rw [Ram.byte_mark_of_disjoint hi]
    · rw [Ram.byte_mark_of_disjoint hi', Ram.byte_mark_of_disjoint hi]
  · rw [stateOf_walk_of_not_paging _ _ _ (by simpa using h)]

end

/-- A walk through entries that have their marks leaves them as they are. -/
theorem walk_of_marked {space : AddressSpace} {directory vaddr : UInt32} {access : Access} {user : Bool}
    {r : Ram} {pde pte : PageEntry} (hp : space.paging = true) (hd : space.directory = some directory)
    (hpde : r.directoryEntry directory vaddr = pde) (hpte : r.tableEntry directory vaddr = pte)
    (hpresent : pde.present = true) (hlt : pde.word < r.size)
    (hperm : pde.permits pte access user = true) (hbase : pte.base < r.size)
    (hmarked : pde.marked .load = pde) (hmarked' : pte.marked access = pte) :
    walk space vaddr access user r =
      .ok { frame := pte.base
            writable := (access.writes || pte.dirty) && (pde.writable && pte.writable)
            user := pde.user && pte.user } r := by
  have hentry : r.entry (PageEntry.tableSlot pde vaddr) = pte := by
    rw [← hpte, Ram.tableEntry, hpde]
  have hmark : r.mark (PageEntry.directorySlot directory vaddr) .load = r := by
    rw [Ram.mark, if_neg (not_not_intro ?_)]
    exact (congrArg (·.marked .load) hpde).trans (hmarked.trans hpde.symm)
  have hmark' : r.mark (PageEntry.tableSlot pde vaddr) access = r := by
    rw [Ram.mark, hentry, if_neg (not_not_intro hmarked')]
  rw [walk_of_directory hp hd, bind_apply, walkDirectory_apply, hpde, if_pos hpresent, if_pos hlt]
  dsimp only
  rw [walkTable_apply, hmark]
  dsimp only
  rw [hentry, if_pos hperm, if_pos hbase, hmark']

end PagedMachine
