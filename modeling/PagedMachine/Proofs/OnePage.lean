import PagedMachine.Memory.Lemmas
import PagedMachine.Proofs.Translation

/-!
# Room for one page

Where the translation buffer has room for one page, what it holds after an access is known: the page
that it held (`Memory.resolve_held`) or the page of the access, which takes the place of another
(`Memory.resolve_replaced`) or is the first (`Memory.resolve_emptied`). What the page cache remembers
does not matter here, unless it answers itself. The walks of such a run are those of a small table that
is laid out in memory (`walk_twoPages`).
-/

set_option autoImplicit false

namespace PagedMachine

namespace Tlb

/-- A buffer with room for one page that is empty. -/
def emptied (epoch hits misses flushes : Nat) : Tlb :=
  { capacity := 1, epoch, hits, misses, flushes }

/-- One that holds `page`. -/
def holding (page : UInt32) (mapping : Mapping) (epoch hits misses flushes : Nat) : Tlb :=
  { entries := (∅ : Std.HashMap UInt32 Mapping).insert page mapping
    capacity := 1, epoch, hits, misses, flushes }

variable {page other : UInt32} {mapping mapping' : Mapping} {epoch hits misses flushes : Nat}

theorem getElem?_holding :
    (holding page mapping epoch hits misses flushes).entries[other]? =
      if page = other then some mapping else none := by
  simp [holding, Std.HashMap.getElem?_insert]

theorem overflows_emptied : (emptied epoch hits misses flushes).overflows page = false := by
  simp [overflows, emptied, live]

theorem insert_emptied :
    (emptied epoch hits misses flushes).insert page mapping =
      holding page { mapping with frame := pageBase mapping.frame } epoch hits misses flushes := by
  simp [insert, emptied, holding, live]

theorem insert_holding (h : page ≠ other) :
    (holding page mapping epoch hits misses flushes).insert other mapping' =
      holding other { mapping' with frame := pageBase mapping'.frame } (epoch + 1) hits misses
        (flushes + 1) := by
  simp [insert, holding, live, flush, h, Std.HashMap.size_insert]

end Tlb

namespace Memory

variable {space : AddressSpace} {slot : Slot} {vaddr page : UInt32} {access : Access} {user : Bool}
  {r r' : Ram} {path : AccessPath} {mapping mapping' : Mapping} {epoch hits misses flushes : Nat}

theorem missed_uncached {ram : Ram} {tlb : Tlb} :
    Missed ⟨ram, tlb, .uncached⟩ slot vaddr access user :=
  fun _ h => by cases h

/-- The page that is held needs no walk. -/
theorem resolve_held
    (hm : Missed ⟨r, .holding page mapping epoch hits misses flushes, path⟩ slot vaddr access user)
    (hpage : pageNumber vaddr = page) (hg : mapping.grants (rightOf access user) = true) :
    resolve space slot vaddr access user
        ⟨r, .holding page mapping epoch hits misses flushes, path⟩ =
      .ok (mapping.frame ||| pageOffset vaddr)
        ⟨r, .holding page mapping epoch (hits + 1) misses flushes,
          path.fill slot (rightOf access user) (pageNumber vaddr) mapping.frame epoch.toUInt64⟩ := by
  have hf : (Tlb.holding page mapping epoch hits misses flushes).find? (rightOf access user)
      (pageNumber vaddr) = some mapping :=
    Tlb.find?_eq_some_iff.2 ⟨by rw [Tlb.getElem?_holding, if_pos hpage.symm], hg⟩
  exact resolve_of_find? hm hf

/-- Any other page is looked up in the tables and takes its place. -/
theorem resolve_replaced
    (hm : Missed ⟨r, .holding page mapping epoch hits misses flushes, path⟩ slot vaddr access user)
    (hpage : page ≠ pageNumber vaddr) (hw : walk space vaddr access user r = .ok mapping' r') :
    resolve space slot vaddr access user
        ⟨r, .holding page mapping epoch hits misses flushes, path⟩ =
      .ok (mapping'.frame ||| pageOffset vaddr)
        ⟨r', .holding (pageNumber vaddr) mapping' (epoch + 1) hits (misses + 1) (flushes + 1),
          path.fill slot (rightOf access user) (pageNumber vaddr) mapping'.frame
            (epoch + 1).toUInt64⟩ := by
  have hf : (Tlb.holding page mapping epoch hits misses flushes).find? (rightOf access user)
      (pageNumber vaddr) = none := by
    rw [Tlb.find?, Tlb.getElem?_holding, if_neg hpage]
    rfl
  have hinsert : (Tlb.holding page mapping epoch hits (misses + 1) flushes).insert (pageNumber vaddr)
      mapping' = .holding (pageNumber vaddr) mapping' (epoch + 1) hits (misses + 1) (flushes + 1) := by
    rw [Tlb.insert_holding hpage, pageBase_of_walk hw]
  refine (resolve_of_walk hm hf hw).trans ?_
  show EStateM.Result.ok _ (⟨r', (Tlb.holding page mapping epoch hits (misses + 1) flushes).insert
      (pageNumber vaddr) mapping', path.fill slot (rightOf access user) (pageNumber vaddr)
        mapping'.frame ((Tlb.holding page mapping epoch hits (misses + 1) flushes).insert
          (pageNumber vaddr) mapping').generation⟩ : Memory) = _
  rw [hinsert]
  rfl

/-- So is the first page. -/
theorem resolve_emptied
    (hm : Missed ⟨r, .emptied epoch hits misses flushes, path⟩ slot vaddr access user)
    (hw : walk space vaddr access user r = .ok mapping r') :
    resolve space slot vaddr access user ⟨r, .emptied epoch hits misses flushes, path⟩ =
      .ok (mapping.frame ||| pageOffset vaddr)
        ⟨r', .holding (pageNumber vaddr) mapping epoch hits (misses + 1) flushes,
          path.fill slot (rightOf access user) (pageNumber vaddr) mapping.frame epoch.toUInt64⟩ := by
  have hf : (Tlb.emptied epoch hits misses flushes).find? (rightOf access user)
      (pageNumber vaddr) = none := by
    simp [Tlb.find?, Tlb.emptied]
  have hinsert : (Tlb.emptied epoch hits (misses + 1) flushes).insert (pageNumber vaddr) mapping =
      .holding (pageNumber vaddr) mapping epoch hits (misses + 1) flushes := by
    rw [Tlb.insert_emptied, pageBase_of_walk hw]
  refine (resolve_of_walk hm hf hw).trans ?_
  show EStateM.Result.ok _ (⟨r', (Tlb.emptied epoch hits (misses + 1) flushes).insert
      (pageNumber vaddr) mapping, path.fill slot (rightOf access user) (pageNumber vaddr)
        mapping.frame ((Tlb.emptied epoch hits (misses + 1) flushes).insert
          (pageNumber vaddr) mapping).generation⟩ : Memory) = _
  rw [hinsert]
  rfl

end Memory

/-! ## Two pages in a table -/

/-- A directory and a table that maps the pages at 0x2000 and 0x3000 to themselves, all with their
marks. The words `later` were stored last. -/
def Ram.twoPages (later : List (UInt32 × UInt32)) : Ram :=
  (zeroed 16384).laid (later ++ [(0, 0x1023), (0x1008, 0x2023), (0x100c, 0x3023)])

/-- A page of the kernel that is only read. -/
def Mapping.kernel (frame : UInt32) : Mapping := { frame, writable := false, user := false }

section
variable {later : List (UInt32 × UInt32)}

theorem Ram.size_twoPages : (twoPages later).bytes.size = 16384 := by
  rw [twoPages, size_laid, size_zeroed]
  rfl

theorem Ram.write32_twoPages (addr v : UInt32) :
    (twoPages later).write32 addr v = twoPages ((addr, v) :: later) := by
  rw [twoPages, twoPages, List.cons_append, laid, laid, List.foldr_cons]

variable (h : ∀ word ∈ later, word.1.toNat % 4 = 0 ∧ 0 < word.1 ∧ word.1.toNat + 4 ≤ 16384)
include h

theorem Ram.entry_twoPages {addr : UInt32} (ha : addr.toNat % 4 = 0) :
    (twoPages later).entry addr =
      ⟨((later ++ [(0, 0x1023), (0x1008, 0x2023), (0x100c, 0x3023)]).lookup addr).getD 0⟩ := by
  have hsize : (zeroed 16384).bytes.size = 16384 := by
    rw [size_zeroed]
    rfl
  rw [entry, twoPages, read32_laid ?_ ha, read32_zeroed]
  rw [hsize]
  refine List.forall_mem_append.2 ⟨fun word hword => ?_, by simp⟩
  obtain ⟨hw, -, hin⟩ := h word hword
  exact ⟨hw, hin⟩

theorem Ram.directoryEntry_twoPages {vaddr : UInt32}
    (hslot : PageEntry.directorySlot 0 vaddr = 0) :
    (twoPages later).directoryEntry 0 vaddr = ⟨0x1023⟩ := by
  have hnone : later.lookup 0 = none := by
    refine List.lookup_eq_none_iff.2 fun word hword => ?_
    have hpos := (h word hword).2.1
    exact bne_iff_ne.2 (UInt32.ne_of_lt hpos)
  rw [directoryEntry, hslot, entry_twoPages h rfl, List.lookup_append, hnone]
  rfl

theorem Ram.tableEntry_twoPages {vaddr slot : UInt32} (hdir : PageEntry.directorySlot 0 vaddr = 0)
    (hslot : PageEntry.tableSlot ⟨0x1023⟩ vaddr = slot) (ha : slot.toNat % 4 = 0) :
    (twoPages later).tableEntry 0 vaddr =
      ⟨((later ++ [(0, 0x1023), (0x1008, 0x2023), (0x100c, 0x3023)]).lookup slot).getD 0⟩ := by
  rw [tableEntry, directoryEntry_twoPages h hdir, hslot, entry_twoPages h ha]

/-- A page that is mapped to `frame`. -/
theorem walk_twoPages {vaddr slot frame : UInt32} (hdir : PageEntry.directorySlot 0 vaddr = 0)
    (hslot : PageEntry.tableSlot ⟨0x1023⟩ vaddr = slot) (ha : slot.toNat % 4 = 0)
    (hword : (later ++ [(0, 0x1023), (0x1008, 0x2023), (0x100c, 0x3023)]).lookup slot =
      some (frame ||| 0x23))
    (hframe : PageEntry.base ⟨frame ||| 0x23⟩ = frame ∧ frame < 16384 ∧
      PageEntry.permits ⟨0x1023⟩ ⟨frame ||| 0x23⟩ .load false = true ∧
      PageEntry.marked ⟨frame ||| 0x23⟩ .load = ⟨frame ||| 0x23⟩ ∧
      PageEntry.dirty ⟨frame ||| 0x23⟩ = false) :
    walk ⟨true, some 0⟩ vaddr .load false (.twoPages later) =
      .ok (.kernel frame) (.twoPages later) := by
  have hsize : (Ram.twoPages later).size = 16384 := by
    rw [Ram.size, Ram.size_twoPages]
    rfl
  have hpte : (Ram.twoPages later).tableEntry 0 vaddr = ⟨frame ||| 0x23⟩ := by
    rw [Ram.tableEntry_twoPages h hdir hslot ha, hword]
    rfl
  obtain ⟨hbase, hlt, hperm, hmarked, hclean⟩ := hframe
  rw [walk_of_marked rfl rfl (Ram.directoryEntry_twoPages h hdir) hpte (by decide)
    (by rw [hsize]; decide) hperm (by rwa [hbase, hsize]) (by decide) hmarked, hbase, hclean]
  rfl

end

end PagedMachine
