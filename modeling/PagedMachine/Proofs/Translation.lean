import PagedMachine.Paging.Lemmas
import PagedMachine.Tlb

/-!
# What the tables say

`Ram.translate` reads the tables for an address and marks nothing. A walk answers as it says
(`translate_eq_walk`), marks do not change it (`translate_markedTo`), and once an access is noted in
its entries the walk changes nothing at all (`walk_of_settled`). `settled_of_walk` is the fact behind
every cache: after a walk, all that its mapping grants is said by the tables and noted in them.
-/

set_option autoImplicit false

namespace PagedMachine

namespace Ram

/-- The address of the page of `vaddr`, or the fault of the access. -/
def translate (r : Ram) (space : AddressSpace) (vaddr : UInt32) (access : Access) (user : Bool) :
    Except Fault UInt32 :=
  if space.paging then
    match space.directory with
    | none => .error (.badPhysicalAddress (some vaddr))
    | some directory =>
      let pde := r.directoryEntry directory vaddr
      let pte := r.tableEntry directory vaddr
      if pde.present then
        if pde.base < r.size then
          if pde.permits pte access user then
            if pte.base < r.size then .ok pte.base else .error (.badPhysicalAddress (some vaddr))
          else .error (access.pageFault vaddr)
        else .error (.badPhysicalAddress (some vaddr))
      else .error (access.pageFault vaddr)
  else if pageBase vaddr < r.size then .ok (pageBase vaddr)
  else .error (.badPhysicalAddress (some vaddr))

/-- Whether an access shows in the entries of `vaddr`. -/
def Noted (r : Ram) (space : AddressSpace) (vaddr : UInt32) (access : Access) : Prop :=
  space.paging = true → ∀ directory, space.directory = some directory →
    (r.directoryEntry directory vaddr).marked .load = r.directoryEntry directory vaddr ∧
      (r.tableEntry directory vaddr).marked access = r.tableEntry directory vaddr

/-- The tables map `vaddr` to `frame` for this access, and it is noted. -/
def Settled (r : Ram) (space : AddressSpace) (vaddr : UInt32) (access : Access) (user : Bool)
    (frame : UInt32) : Prop :=
  r.translate space vaddr access user = .ok frame ∧ r.Noted space vaddr access

/-- Memory of whole pages. -/
def Paged (r : Ram) : Prop := r.bytes.size % 4096 = 0

theorem Paged.size {r : Ram} (h : r.Paged) : r.size.toNat % 4096 = 0 := by
  have hs : r.size.toNat = r.bytes.size % 4294967296 := rfl
  unfold Paged at h
  omega

/-- Whether a word lies below the end of memory shows in its page. -/
theorem Paged.lt_size_iff {r : Ram} (h : r.Paged) (w : UInt32) :
    w < r.size ↔ pageBase w < r.size := by
  have hs := h.size
  rw [UInt32.lt_iff_toNat_lt, UInt32.lt_iff_toNat_lt, pageBase_toNat]
  omega

end Ram

/-- A space whose directory is aligned to words. -/
def AddressSpace.Aligned (space : AddressSpace) : Prop :=
  ∀ directory, space.directory = some directory → directory.toNat % 4 = 0

section
variable {space : AddressSpace} {directory vaddr : UInt32} {access : Access} {user : Bool}
  {r r' : Ram} {mapping : Mapping}

/-! ## Marks do not change what the tables say -/

theorem translate_markedTo (hs : space.Aligned) (h : r.MarkedTo r') :
    r'.translate space vaddr access user = r.translate space vaddr access user := by
  have hsize : r'.size = r.size := Ram.size_eq_of h.size
  simp only [Ram.translate, hsize]
  split
  · cases hd : space.directory with
    | none => rfl
    | some directory =>
      have hpde := h.directoryEntry (hs _ hd) vaddr
      have hpte := h.tableEntry (hs _ hd) vaddr
      simp only [hpde.present_eq, hpde.base_eq, hpte.base_eq, hpde.permits_eq hpte]
  · rfl

theorem noted_markedTo (hs : space.Aligned) (h : r.MarkedTo r') (hn : r.Noted space vaddr access) :
    r'.Noted space vaddr access := by
  intro hp directory hd
  obtain ⟨h1, h2⟩ := hn hp directory hd
  exact ⟨(h.directoryEntry (hs _ hd) vaddr).marked_eq h1,
    (h.tableEntry (hs _ hd) vaddr).marked_eq h2⟩

theorem Ram.Settled.markedTo {frame : UInt32} (hs : space.Aligned) (h : r.MarkedTo r')
    (hr : r.Settled space vaddr access user frame) : r'.Settled space vaddr access user frame :=
  ⟨(translate_markedTo hs h).trans hr.1, noted_markedTo hs h hr.2⟩

/-! ## The walk answers what the tables say -/

/-- A walk that succeeds in the tables, step by step. -/
theorem walk_eq_ok_of_directory (h : space.paging = true) (hd : space.directory = some directory)
    (hw : walk space vaddr access user r = .ok mapping r') :
    let pde := r.directoryEntry directory vaddr
    let slot := PageEntry.tableSlot pde vaddr
    let marked := r.mark (PageEntry.directorySlot directory vaddr) .load
    let pte := marked.entry slot
    pde.present = true ∧ pde.permits pte access user = true ∧
      mapping = { frame := pte.base,
                  writable := (access.writes || pte.dirty) && (pde.writable && pte.writable),
                  user := pde.user && pte.user } ∧
      r' = marked.mark slot access := by
  simp only [walk_of_directory h hd, bind_apply, walkDirectory_apply] at hw
  by_cases hp : (r.directoryEntry directory vaddr).present = true
  · by_cases hlt : (r.directoryEntry directory vaddr).word < r.size
    · simp only [hp, hlt, if_true, walkTable_apply] at hw
      split at hw
      · rename_i hperm
        split at hw
        · obtain ⟨rfl, rfl⟩ := EStateM.Result.ok.inj hw
          exact ⟨hp, hperm, rfl, rfl⟩
        · cases hw
      · cases hw
    · simp [hp, hlt] at hw
  · simp [hp] at hw

theorem translate_eq_walk (vaddr : UInt32) (access : Access) (user : Bool) (hs : space.Aligned)
    (hr : r.Paged) :
    r.translate space vaddr access user =
      match walk space vaddr access user r with
      | .ok mapping _ => .ok mapping.frame
      | .error fault _ => .error fault := by
  by_cases hp : space.paging = true
  · cases hd : space.directory with
    | none => simp [Ram.translate, hp, hd, walk_of_no_directory hp hd]
    | some directory =>
      -- the table entry is read after the directory entry was marked
      have hm := Ram.markedTo_mark (r := r) (PageEntry.directorySlot_aligned (hs _ hd) vaddr) .load
      have hpte := hm.entry _
        (PageEntry.tableSlot_aligned (r.directoryEntry directory vaddr) vaddr)
      have hperm := (PageEntry.MarkedTo.refl (r.directoryEntry directory vaddr)).permits_eq hpte
        access user
      have hlt : ((r.directoryEntry directory vaddr).word < r.size) =
          ((r.directoryEntry directory vaddr).base < r.size) := propext (hr.lt_size_iff _)
      simp only [Ram.translate, Ram.tableEntry, hp, hd, if_true, walk_of_directory hp hd, bind_apply,
        walkDirectory_apply, hlt]
      by_cases h1 : (r.directoryEntry directory vaddr).present = true
      · by_cases h2 : (r.directoryEntry directory vaddr).base < r.size
        · simp only [h1, h2, if_true, walkTable_apply, hpte.base_eq, Ram.size_mark, hperm]
          by_cases h3 : (r.directoryEntry directory vaddr).permits
              (r.entry (PageEntry.tableSlot (r.directoryEntry directory vaddr) vaddr)) access user =
                true
          · by_cases h4 :
                (r.entry (PageEntry.tableSlot (r.directoryEntry directory vaddr) vaddr)).base <
                  r.size
            · simp [h3, h4]
            · simp [h3, h4]
          · simp [h3]
        · simp [h1, h2]
      · simp [h1]
  · have hp : space.paging = false := by simpa using hp
    rw [walk_of_not_paging hp]
    simp only [Ram.translate, hp, Bool.false_eq_true, if_false]
    split <;> rfl

theorem translate_of_walk (hs : space.Aligned) (hr : r.Paged)
    (hw : walk space vaddr access user r = .ok mapping r') :
    r.translate space vaddr access user = .ok mapping.frame := by
  rw [translate_eq_walk _ _ _ hs hr, hw]

theorem translate_eq_ok_iff (h : space.paging = true) (hd : space.directory = some directory)
    {frame : UInt32} :
    r.translate space vaddr access user = .ok frame ↔
      (r.directoryEntry directory vaddr).present = true ∧
        (r.directoryEntry directory vaddr).base < r.size ∧
        (r.directoryEntry directory vaddr).permits (r.tableEntry directory vaddr) access user =
          true ∧
        (r.tableEntry directory vaddr).base < r.size ∧
        frame = (r.tableEntry directory vaddr).base := by
  simp only [Ram.translate, h, hd, if_true]
  constructor
  · intro ht
    split at ht
    · split at ht
      · split at ht
        · split at ht
          · rename_i h1 h2 h3 h4
            exact ⟨h1, h2, h3, h4, (Except.ok.inj ht).symm⟩
          · cases ht
        · cases ht
      · cases ht
    · cases ht
  · rintro ⟨h1, h2, h3, h4, rfl⟩
    rw [if_pos h1, if_pos h2, if_pos h3, if_pos h4]

theorem translate_of_not_paging_eq_ok_iff (h : space.paging = false) {frame : UInt32} :
    r.translate space vaddr access user = .ok frame ↔
      pageBase vaddr < r.size ∧ frame = pageBase vaddr := by
  simp only [Ram.translate, h, Bool.false_eq_true, if_false]
  constructor
  · intro ht
    split at ht
    · rename_i h1
      exact ⟨h1, (Except.ok.inj ht).symm⟩
    · cases ht
  · rintro ⟨h1, rfl⟩
    rw [if_pos h1]

/-- An address that is translated has a directory, if paging is on. -/
theorem directory_of_translate {frame : UInt32}
    (ht : r.translate space vaddr access user = .ok frame) (h : space.paging = true) :
    ∃ directory, space.directory = some directory := by
  cases hd : space.directory with
  | none => simp [Ram.translate, h, hd] at ht
  | some directory => exact ⟨directory, rfl⟩

/-- Addresses are translated to the start of a page in memory. -/
theorem pageBase_of_translate {frame : UInt32}
    (ht : r.translate space vaddr access user = .ok frame) :
    pageBase frame = frame ∧ frame < r.size := by
  cases hp : space.paging with
  | true =>
    obtain ⟨directory, hd⟩ := directory_of_translate ht hp
    obtain ⟨-, -, -, hlt, rfl⟩ := (translate_eq_ok_iff hp hd).1 ht
    exact ⟨pageBase_pageBase _, hlt⟩
  | false =>
    obtain ⟨hlt, rfl⟩ := (translate_of_not_paging_eq_ok_iff hp).1 ht
    exact ⟨pageBase_pageBase _, hlt⟩

/-! ## What a walk grants -/

/-- A mapping grants the access that was walked for. -/
theorem grants_of_walk (hw : walk space vaddr access user r = .ok mapping r') :
    mapping.grants { user, write := access.writes } = true := by
  cases hp : space.paging with
  | true =>
    cases hd : space.directory with
    | none =>
      rw [walk_of_no_directory hp hd] at hw
      cases hw
    | some directory =>
      obtain ⟨-, hperm, rfl, -⟩ := walk_eq_ok_of_directory hp hd hw
      simp only [PageEntry.permits, Bool.and_eq_true] at hperm
      simp only [Mapping.grants, Bool.and_eq_true]
      refine ⟨?_, hperm.1.2⟩
      cases hacc : access.writes with
      | true => simpa [hacc] using hperm.2
      | false => rfl
  | false =>
    rw [walk_of_not_paging hp] at hw
    split at hw
    · obtain ⟨rfl, -⟩ := EStateM.Result.ok.inj hw
      simp [Mapping.grants]
    · cases hw

/-- The frame of a mapping is the address of a page. -/
theorem pageBase_of_walk (hw : walk space vaddr access user r = .ok mapping r') :
    pageBase mapping.frame = mapping.frame := by
  cases hp : space.paging with
  | true =>
    cases hd : space.directory with
    | none =>
      rw [walk_of_no_directory hp hd] at hw
      cases hw
    | some directory =>
      obtain ⟨-, -, rfl, -⟩ := walk_eq_ok_of_directory hp hd hw
      exact pageBase_pageBase _
  | false =>
    rw [walk_of_not_paging hp] at hw
    split at hw
    · obtain ⟨rfl, -⟩ := EStateM.Result.ok.inj hw
      exact pageBase_pageBase _
    · cases hw

variable {vaddr' : UInt32} {access' : Access} {user' : Bool}

/-- What a mapping grants is what the tables say of every address of the page. -/
theorem translate_of_grants (hs : space.Aligned) (hr : r.Paged)
    (hw : walk space vaddr access user r = .ok mapping r')
    (hg : mapping.grants { user := user', write := access'.writes } = true)
    (hv : pageNumber vaddr' = pageNumber vaddr) :
    r.translate space vaddr' access' user' = .ok mapping.frame := by
  have ht := translate_of_walk hs hr hw
  cases hp : space.paging with
  | true =>
    obtain ⟨directory, hd⟩ := directory_of_translate ht hp
    obtain ⟨h1, h2, -, h4, hframe⟩ := (translate_eq_ok_iff hp hd).1 ht
    obtain ⟨-, hperm, hmap, -⟩ := walk_eq_ok_of_directory hp hd hw
    have hm := Ram.markedTo_mark (r := r) (PageEntry.directorySlot_aligned (hs _ hd) vaddr) .load
    have hpte := hm.entry _ (PageEntry.tableSlot_aligned (r.directoryEntry directory vaddr) vaddr)
    have hdir : r.directoryEntry directory vaddr' = r.directoryEntry directory vaddr := by
      rw [Ram.directoryEntry, PageEntry.directorySlot_eq_of_pageNumber hv, Ram.directoryEntry]
    have htab : r.tableEntry directory vaddr' = r.tableEntry directory vaddr := by
      rw [Ram.tableEntry, hdir, PageEntry.tableSlot_eq_of_pageNumber hv, Ram.tableEntry]
    refine (translate_eq_ok_iff hp hd).2 ?_
    rw [hdir, htab]
    refine ⟨h1, h2, ?_, h4, hframe⟩
    rw [Ram.tableEntry,
      ← (PageEntry.MarkedTo.refl (r.directoryEntry directory vaddr)).permits_eq hpte]
    simp only [PageEntry.permits, Bool.and_eq_true] at hperm ⊢
    simp only [hmap, Mapping.grants, Bool.and_eq_true] at hg
    refine ⟨⟨hperm.1.1, hg.2⟩, ?_⟩
    cases hacc : access'.writes with
    | true =>
      rw [hacc] at hg
      simp only [Bool.not_true, Bool.false_or, Bool.and_eq_true] at hg ⊢
      exact hg.1.2
    | false => rfl
  | false =>
    obtain ⟨hlt, hframe⟩ := (translate_of_not_paging_eq_ok_iff hp).1 ht
    refine (translate_of_not_paging_eq_ok_iff hp).2 ?_
    rw [pageBase_eq_of_pageNumber hv]
    exact ⟨hlt, hframe⟩

/-- After a walk, what its mapping grants is noted in the entries, for every address of the page. -/
theorem settled_of_walk (hs : space.Aligned) (hr : r.Paged)
    (hw : walk space vaddr access user r = .ok mapping r')
    (hg : mapping.grants { user := user', write := access'.writes } = true)
    (hv : pageNumber vaddr' = pageNumber vaddr) :
    r'.Settled space vaddr' access' user' mapping.frame := by
  have hm : r.MarkedTo r' := by
    have h := walk_markedTo vaddr access user hs r
    rwa [hw] at h
  refine ⟨(translate_markedTo hs hm).trans (translate_of_grants hs hr hw hg hv),
    fun hp directory hd => ?_⟩
  obtain ⟨hpres, hperm, hmap, hr'⟩ := walk_eq_ok_of_directory hp hd hw
  have hslot := PageEntry.directorySlot_aligned (hs _ hd) vaddr
  -- the directory entry was marked first; later marks keep it so
  have hdir := Ram.entry_mark_self (Ram.holds_of_present hpres) .load
  have htab : ((r.mark (PageEntry.directorySlot directory vaddr) .load).entry
      (PageEntry.tableSlot (r.directoryEntry directory vaddr) vaddr)).present = true := by
    simp only [PageEntry.permits, Bool.and_eq_true] at hperm
    exact hperm.1.1
  have htab := Ram.entry_mark_self (Ram.holds_of_present htab) access
  have hrest := Ram.markedTo_mark (r := r.mark (PageEntry.directorySlot directory vaddr) .load)
    (PageEntry.tableSlot_aligned (r.directoryEntry directory vaddr) vaddr) access
  rw [← hr'] at hrest htab
  refine ⟨?_, ?_⟩
  · rw [Ram.directoryEntry, PageEntry.directorySlot_eq_of_pageNumber hv]
    refine (hrest.entry _ hslot).marked_eq ?_
    rw [hdir, PageEntry.marked_marked (by simp [Access.writes])]
  · rw [Ram.tableEntry, PageEntry.tableSlot_eq_of_pageNumber hv, Ram.directoryEntry,
      PageEntry.directorySlot_eq_of_pageNumber hv, ← Ram.directoryEntry,
      hm.tableSlot_eq (hs _ hd), htab]
    refine PageEntry.marked_marked fun hacc => ?_
    simp only [hmap, Mapping.grants, hacc, Bool.and_eq_true, Bool.not_true, Bool.false_or,
      Bool.or_eq_true] at hg
    exact hg.1.1

/-- Where an access is settled, a walk for it changes nothing. -/
theorem walk_of_settled (hs : space.Aligned) (hr : r.Paged) {frame : UInt32}
    (h : r.Settled space vaddr access user frame) :
    ∃ mapping, walk space vaddr access user r = .ok mapping r ∧ mapping.frame = frame := by
  obtain ⟨ht, hn⟩ := h
  have hf := translate_eq_walk vaddr access user hs hr
  rw [ht] at hf
  cases hw : walk space vaddr access user r with
  | error fault r' =>
    rw [hw] at hf
    cases hf
  | ok mapping r' =>
    rw [hw] at hf
    refine ⟨mapping, ?_, (Except.ok.inj hf).symm⟩
    congr 1
    cases hp : space.paging with
    | true =>
      obtain ⟨directory, hd⟩ := directory_of_translate ht hp
      obtain ⟨h1, h2⟩ := hn hp directory hd
      obtain ⟨-, -, -, rfl⟩ := walk_eq_ok_of_directory hp hd hw
      rw [Ram.mark_eq_self h1]
      exact Ram.mark_eq_self h2
    | false =>
      have hst := stateOf_walk_of_not_paging vaddr access user hp r
      rwa [hw] at hst

end

/-! ## A directory, a table and a page -/

/-- A directory, a table and the one page that it maps, at address 0. -/
def Ram.onePage : Ram := ((Ram.zeroed 12288).write32 4096 0x2007).write32 0 0x1007

theorem Ram.size_onePage : onePage.bytes.size = 12288 := by
  rw [onePage, size_write32, size_write32, size_zeroed]
  rfl

theorem Ram.directoryEntry_onePage {vaddr : UInt32} (h : (onePage.directoryEntry 0 vaddr).present) :
    onePage.directoryEntry 0 vaddr = ⟨0x1007⟩ := by
  by_cases hslot : 0 = PageEntry.directorySlot 0 vaddr
  · have hholds := holds_iff.2 (show (0 : UInt32).toNat + 4 ≤ onePage.bytes.size by
      rw [size_onePage]
      decide)
    rw [onePage, holds_iff, size_write32, ← holds_iff] at hholds
    rw [directoryEntry, ← hslot, onePage, entry, read32_write32 hholds]
  · have ha := PageEntry.directorySlot_aligned (show (0 : UInt32).toNat % 4 = 0 by decide) vaddr
    have hslot' : 4096 ≠ PageEntry.directorySlot 0 vaddr := by
      intro heq
      have hn := PageEntry.directorySlot_toNat (show (0 : UInt32).toNat % 4096 = 0 by decide) vaddr
      have := vaddr.toNat_lt
      rw [← heq] at hn
      simp only [UInt32.reduceToNat] at hn
      omega
    rw [directoryEntry, onePage, entry, read32_write32_of_ne (by decide) ha hslot,
      read32_write32_of_ne (by decide) ha hslot', read32_zeroed] at h
    simp [PageEntry.present, PageEntry.has] at h

theorem Ram.entry_onePage :
    onePage.directoryEntry 0 16 = ⟨0x1007⟩ ∧ onePage.tableEntry 0 16 = ⟨0x2007⟩ := by
  have hholds (addr : UInt32) (h : addr.toNat + 4 ≤ 12288) (r : Ram)
      (hr : r.bytes.size = onePage.bytes.size) : r.holds addr 4 = true := by
    rw [holds_iff, hr, size_onePage]
    exact h
  have hdir : onePage.directoryEntry 0 16 = ⟨0x1007⟩ := by
    rw [directoryEntry, show PageEntry.directorySlot 0 16 = 0 by decide, entry, onePage,
      read32_write32 (hholds 0 (by decide) _ (by simp [onePage]))]
  refine ⟨hdir, ?_⟩
  rw [tableEntry, hdir, show PageEntry.tableSlot ⟨0x1007⟩ 16 = 4096 by decide, entry, onePage,
    read32_write32_of_ne (by decide) (by decide) (by decide),
    read32_write32 (hholds 4096 (by decide) _ (by simp [onePage]))]

end PagedMachine
