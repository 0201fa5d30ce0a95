import Mathlib.Data.Set.Basic
import PagedMachine.Memory.Lemmas
import PagedMachine.Proofs.Translation

/-!
# Tables that are completed on demand

Memory `r` lacks table entries that `M` has. `Ram.Backs` says that what `r` maps it maps as `M`
does, for the accesses that `M` serves. They keep it, and so does putting an entry back. Such an
access is resolved as in `M`, or faults at a missing entry (`Memory.resolve_of_backs`). The lookaside
buffer is not flushed meanwhile, and need not be: its mappings are those of `M` (`Memory.Framed`).
-/

set_option autoImplicit false

namespace PagedMachine

/-- `e'` maps the page of `e` or none, whatever it permits. -/
def PageEntry.Withheld (e e' : PageEntry) : Prop := e'.present = true → e'.base = e.base

theorem PageEntry.Withheld.markedTo {e e' e'' : PageEntry} (h : e.Withheld e')
    (hm : e'.MarkedTo e'') : e.Withheld e'' := by
  intro hp
  rw [hm.base_eq]
  exact h (hm.present_eq ▸ hp)

namespace Ram

/-- Where the table entry of `vaddr` lies. -/
def tableSlot (r : Ram) (d vaddr : UInt32) : UInt32 :=
  PageEntry.tableSlot (r.directoryEntry d vaddr) vaddr

/-- The physical address of `vaddr` by its table entry alone. -/
def physical (r : Ram) (d vaddr : UInt32) : UInt32 :=
  (r.tableEntry d vaddr).base ||| pageOffset vaddr

/-- Whether byte `i` lies in the directory or in a table that it names. -/
def InTables (r : Ram) (d : UInt32) (i : Nat) : Prop :=
  (d.toNat ≤ i ∧ i < d.toNat + 4096) ∨
    ∃ vaddr, (r.directoryEntry d vaddr).present = true ∧
      (r.directoryEntry d vaddr).base.toNat ≤ i ∧
      i < (r.directoryEntry d vaddr).base.toNat + 4096

/-- The tables in `M` map each access in `T` to an address outside the tables. -/
structure Serves (M : Ram) (d : UInt32) (user : Bool) (T : UInt32 → Access → Prop) : Prop where
  aligned : d.toNat % 4096 = 0
  paged : M.Paged
  mapped : ∀ vaddr access, T vaddr access →
    ∃ frame, M.translate ⟨true, some d⟩ vaddr access user = .ok frame
  apart : ∀ vaddr access, T vaddr access → ¬M.InTables d (M.physical d vaddr).toNat

/-- `r` is `M` with the entries of some addresses in `T` withheld. -/
structure Withholds (M : Ram) (d : UInt32) (T : UInt32 → Access → Prop) (r : Ram) : Prop where
  size : r.bytes.size = M.bytes.size
  byte : ∀ i, (∀ vaddr access, T vaddr access → i < (M.tableSlot d vaddr).toNat ∨
    (M.tableSlot d vaddr).toNat + 4 ≤ i) → r.byte i = M.byte i
  entry : ∀ vaddr access, T vaddr access →
    (M.tableEntry d vaddr).Withheld (r.entry (M.tableSlot d vaddr))

/-- Whether `r` has the table entry of `vaddr` in `M`, but for marks. -/
def Restored (M : Ram) (d : UInt32) (r : Ram) (vaddr : UInt32) : Prop :=
  (M.tableEntry d vaddr).MarkedTo (r.entry (M.tableSlot d vaddr))

/-- The tables in `r` have the directory of `M` and map what is in `T` as `M` does or not at all. -/
structure Backs (M : Ram) (d : UInt32) (T : UInt32 → Access → Prop) (r : Ram) : Prop where
  size : r.bytes.size = M.bytes.size
  directory : ∀ vaddr, (M.directoryEntry d vaddr).MarkedTo (r.directoryEntry d vaddr)
  table : ∀ vaddr access, T vaddr access →
    (M.tableEntry d vaddr).Withheld (r.entry (M.tableSlot d vaddr))

/-- Puts the table entry of `vaddr` in `M` into `r`. -/
def repair (M : Ram) (d vaddr : UInt32) (r : Ram) : Ram :=
  r.write32 (M.tableSlot d vaddr) (M.tableEntry d vaddr).word

/-- The addresses in `T` whose entries in `M` are not in `r`. -/
def missing (M : Ram) (d : UInt32) (T : UInt32 → Access → Prop) (r : Ram) : Set UInt32 :=
  { vaddr | (∃ access, T vaddr access) ∧ ¬M.Restored d r vaddr }

section
variable {M r r' : Ram} {d vaddr : UInt32} {access : Access} {user : Bool}
  {T : UInt32 → Access → Prop}

theorem tableEntry_eq_entry (r : Ram) (d vaddr : UInt32) :
    r.tableEntry d vaddr = r.entry (r.tableSlot d vaddr) := rfl

theorem tableSlot_aligned (r : Ram) (d vaddr : UInt32) : (r.tableSlot d vaddr).toNat % 4 = 0 :=
  PageEntry.tableSlot_aligned _ vaddr

/-! ## Where the tables lie -/

theorem inTables_directorySlot (M : Ram) (hd : d.toNat % 4096 = 0) (vaddr : UInt32) {k : Nat}
    (hk : k < 4) : M.InTables d ((PageEntry.directorySlot d vaddr).toNat + k) := by
  have hslot := PageEntry.directorySlot_toNat hd vaddr
  have := vaddr.toNat_lt
  exact .inl ⟨by omega, by omega⟩

theorem inTables_tableSlot (hp : (M.directoryEntry d vaddr).present = true) {k : Nat} (hk : k < 4) :
    M.InTables d ((M.tableSlot d vaddr).toNat + k) := by
  have hslot : (M.tableSlot d vaddr).toNat = _ :=
    PageEntry.tableSlot_toNat (M.directoryEntry d vaddr) vaddr
  exact .inr ⟨vaddr, hp, by omega, by omega⟩

/-- A byte outside the tables is in none of their words. -/
theorem outside_of_not_inTables {slot i : Nat} (hslot : ∀ k < 4, M.InTables d (slot + k))
    (hi : ¬M.InTables d i) : i < slot ∨ slot + 4 ≤ i := by
  refine Classical.byContradiction fun hn => hi ?_
  obtain ⟨k, hk, rfl⟩ : ∃ k < 4, i = slot + k := ⟨i - slot, by omega, by omega⟩
  exact hslot k hk

/-- An address lies in the page of its table entry. -/
theorem physical_toNat (M : Ram) (d vaddr : UInt32) :
    (M.physical d vaddr).toNat = (M.tableEntry d vaddr).base.toNat + vaddr.toNat % 4096 := by
  have hb : (M.tableEntry d vaddr).base.toNat % 4096 = 0 := by
    rw [PageEntry.base, pageBase_toNat]
    omega
  rw [physical, toNat_or hb (by rw [pageOffset_toNat]; omega), pageOffset_toNat]

namespace Serves

variable (h : M.Serves d user T) (hT : T vaddr access)
include h

theorem aligned_space : AddressSpace.Aligned ⟨true, some d⟩ := by
  intro _ hd
  obtain rfl := Option.some.inj hd
  have := h.aligned
  omega

include hT

theorem present : (M.directoryEntry d vaddr).present = true := by
  obtain ⟨frame, ht⟩ := h.mapped vaddr access hT
  exact ((translate_eq_ok_iff rfl rfl).1 ht).1

theorem holds {n : Nat} (hn : n ≤ (pageLeft vaddr).toNat) :
    M.holds (M.physical d vaddr) n = true := by
  obtain ⟨frame, ht⟩ := h.mapped vaddr access hT
  obtain ⟨-, -, -, hlt, -⟩ := (translate_eq_ok_iff rfl rfl).1 ht
  have hsize := h.paged.size
  have hle : M.size.toNat ≤ M.bytes.size := Nat.mod_le _ _
  rw [UInt32.lt_iff_toNat_lt, PageEntry.base, pageBase_toNat] at hlt
  rw [holds_iff, physical_toNat, PageEntry.base, pageBase_toNat]
  rw [pageLeft_toNat] at hn
  omega

/-- No entry in use is at once an entry of the directory: what it maps would be a table. -/
theorem tableSlot_ne (w : UInt32) : M.tableSlot d vaddr ≠ PageEntry.directorySlot d w := by
  intro heq
  have hentry : M.tableEntry d vaddr = M.directoryEntry d w := by
    rw [tableEntry_eq_entry, heq, directoryEntry]
  obtain ⟨frame, ht⟩ := h.mapped vaddr access hT
  obtain ⟨-, -, hperm, -⟩ := (translate_eq_ok_iff rfl rfl).1 ht
  simp only [PageEntry.permits, Bool.and_eq_true] at hperm
  have hpres : (M.directoryEntry d w).present = true := hentry ▸ hperm.1.1
  have hphys := M.physical_toNat d vaddr
  rw [hentry] at hphys
  exact h.apart vaddr access hT (.inr ⟨w, hpres, by omega, by omega⟩)

end Serves

/-! ## What the incomplete tables say -/

namespace Backs

variable (h : M.Backs d T r)
include h

/-- Both memories have the table entry of an address in one place. -/
theorem tableEntry_eq (vaddr : UInt32) : r.tableEntry d vaddr = r.entry (M.tableSlot d vaddr) := by
  rw [tableEntry, tableSlot, PageEntry.tableSlot, PageEntry.tableSlot, (h.directory vaddr).base_eq]

theorem markedTo (hd : d.toNat % 4096 = 0) (hm : r.MarkedTo r') : M.Backs d T r' := by
  refine ⟨hm.size.trans h.size, fun v => ?_, fun v access hT => ?_⟩
  · exact (h.directory v).trans (hm.directoryEntry (by omega) v)
  · exact (h.table v access hT).markedTo (hm.entry _ (PageEntry.tableSlot_aligned _ v))

/-- What is written outside the tables does not matter. -/
theorem of_byte (hS : M.Serves d user T) (hs : r'.bytes.size = r.bytes.size)
    (hb : ∀ i, M.InTables d i → r'.byte i = r.byte i) : M.Backs d T r' := by
  refine ⟨hs.trans h.size, fun v => ?_, fun v access hT => ?_⟩
  · have he : r'.entry (PageEntry.directorySlot d v) = r.entry (PageEntry.directorySlot d v) :=
      entry_congr hs fun k hk => hb _ (M.inTables_directorySlot hS.aligned v hk)
    rw [directoryEntry, directoryEntry, he]
    exact h.directory v
  · have he : r'.entry (M.tableSlot d v) = r.entry (M.tableSlot d v) :=
      entry_congr hs fun k hk => hb _ (inTables_tableSlot (hS.present hT) hk)
    rw [he]
    exact h.table v access hT

/-- An access is translated as in the complete tables, or faults where its entry is missing. -/
theorem translate (hS : M.Serves d user T) (hT : T vaddr access) :
    r.translate ⟨true, some d⟩ vaddr access user = .ok (M.tableEntry d vaddr).base ∨
      r.translate ⟨true, some d⟩ vaddr access user = .error (access.pageFault vaddr) ∧
        ¬M.Restored d r vaddr := by
  obtain ⟨frame, ht⟩ := hS.mapped vaddr access hT
  obtain ⟨h1, h2, h3, h4, -⟩ := (translate_eq_ok_iff rfl rfl).1 ht
  have hd := h.directory vaddr
  have hsize : r.size = M.size := size_eq_of h.size
  have htab := h.tableEntry_eq vaddr
  by_cases hperm : (r.directoryEntry d vaddr).permits (r.tableEntry d vaddr) access user = true
  · left
    have hp : (r.entry (M.tableSlot d vaddr)).present = true := by
      simp only [PageEntry.permits, Bool.and_eq_true] at hperm
      exact htab ▸ hperm.1.1
    have hbase := h.table vaddr access hT hp
    refine (translate_eq_ok_iff rfl rfl).2 ⟨hd.present_eq.trans h1, ?_, hperm, ?_, ?_⟩
    · rwa [hd.base_eq, hsize]
    · rwa [htab, hbase, hsize]
    · rw [htab, hbase]
  · right
    refine ⟨?_, fun hres => hperm ?_⟩
    · simp only [Ram.translate, if_true, hd.present_eq, hd.base_eq, hsize, h1, h2]
      rw [if_neg hperm]
    · rw [htab, hd.permits_eq hres]
      exact h3

end Backs

/-! ## Putting entries back -/

theorem entry_repair_of_ne {slot : UInt32} (ha : slot.toNat % 4 = 0)
    (hne : M.tableSlot d vaddr ≠ slot) (r : Ram) :
    (M.repair d vaddr r).entry slot = r.entry slot := by
  rw [repair, entry, read32_write32_of_ne (M.tableSlot_aligned d vaddr) ha hne, entry]

section
variable (hS : M.Serves d user T) (hT : T vaddr access)
include hS hT

theorem byte_repair {i : Nat} (hi : ¬M.InTables d i) (r : Ram) :
    (M.repair d vaddr r).byte i = r.byte i := by
  exact byte_write32_of_disjoint
    (outside_of_not_inTables (fun _ => inTables_tableSlot (hS.present hT)) hi) _

theorem entry_repair_self (hs : r.bytes.size = M.bytes.size) :
    (M.repair d vaddr r).entry (M.tableSlot d vaddr) = M.tableEntry d vaddr := by
  obtain ⟨frame, ht⟩ := hS.mapped vaddr access hT
  obtain ⟨-, -, hperm, -⟩ := (translate_eq_ok_iff rfl rfl).1 ht
  simp only [PageEntry.permits, Bool.and_eq_true] at hperm
  have hholds : r.holds (M.tableSlot d vaddr) 4 = true := by
    rw [holds_iff, hs, ← holds_iff]
    exact holds_of_present hperm.1.1
  rw [repair, entry, read32_write32 hholds]

/-- Every table entry is now that of `M` or what it was. -/
theorem entry_repair (hs : r.bytes.size = M.bytes.size) (v : UInt32) :
    (M.repair d vaddr r).entry (M.tableSlot d v) = M.tableEntry d v ∨
      vaddr ≠ v ∧ (M.repair d vaddr r).entry (M.tableSlot d v) = r.entry (M.tableSlot d v) := by
  by_cases heq : M.tableSlot d vaddr = M.tableSlot d v
  · left
    rw [← heq, entry_repair_self hS hT hs, tableEntry_eq_entry, heq, tableEntry_eq_entry]
  · right
    exact ⟨fun hv => heq (hv ▸ rfl), entry_repair_of_ne (M.tableSlot_aligned d v) heq r⟩

theorem Backs.repair (h : M.Backs d T r) : M.Backs d T (M.repair d vaddr r) := by
  refine ⟨(size_write32 ..).trans h.size, fun v => ?_, fun v access' hT' => ?_⟩
  · have hd := hS.aligned
    rw [directoryEntry, directoryEntry, entry_repair_of_ne
      (PageEntry.directorySlot_aligned (by omega) v) (hS.tableSlot_ne hT v)]
    exact h.directory v
  · rcases entry_repair hS hT h.size v with he | ⟨-, he⟩ <;> rw [he]
    · exact fun _ => rfl
    · exact h.table v access' hT'

/-- Putting an entry back takes its address off the missing ones. -/
theorem missing_repair (h : M.Backs d T r) :
    M.missing d T (M.repair d vaddr r) ⊆ M.missing d T r \ {vaddr} := by
  rintro v ⟨hTv, hres⟩
  rw [Restored] at hres
  rcases entry_repair hS hT h.size v with he | ⟨hne, he⟩ <;> rw [he] at hres
  · exact absurd (.refl _) hres
  · exact ⟨⟨hTv, hres⟩, fun hv => hne hv.symm⟩

end

/-! ## What is missing -/

theorem missing_markedTo (hm : r.MarkedTo r') : M.missing d T r' ⊆ M.missing d T r := by
  rintro v ⟨hT, hres⟩
  refine ⟨hT, fun hold => hres ?_⟩
  exact hold.trans (hm.entry _ (M.tableSlot_aligned d v))

theorem missing_of_byte (hS : M.Serves d user T) (hs : r'.bytes.size = r.bytes.size)
    (hb : ∀ i, M.InTables d i → r'.byte i = r.byte i) :
    M.missing d T r' ⊆ M.missing d T r := by
  rintro v ⟨⟨access, hT⟩, hres⟩
  have he : r'.entry (M.tableSlot d v) = r.entry (M.tableSlot d v) :=
    entry_congr hs fun k hk => hb _ (inTables_tableSlot (hS.present hT) hk)
  rw [Restored, he] at hres
  exact ⟨⟨access, hT⟩, hres⟩

namespace Withholds

variable (hS : M.Serves d user T) (h : M.Withholds d T r)
include hS h

theorem byte_eq {i : Nat} (hi : ¬M.InTables d i) : r.byte i = M.byte i := by
  exact h.byte i fun v access hT =>
    outside_of_not_inTables (fun _ => inTables_tableSlot (hS.present hT)) hi

theorem backs : M.Backs d T r := by
  refine ⟨h.size, fun v => ?_, h.entry⟩
  have hd := hS.aligned
  have hslot := PageEntry.directorySlot_aligned (show d.toNat % 4 = 0 by omega) v
  have he : r.entry (PageEntry.directorySlot d v) = M.entry (PageEntry.directorySlot d v) := by
    refine entry_congr h.size fun k hk => h.byte _ fun w access hT => ?_
    -- aligned words are equal or apart
    have hne : (M.tableSlot d w).toNat ≠ (PageEntry.directorySlot d v).toNat :=
      fun heq => hS.tableSlot_ne hT v (UInt32.toNat_inj.1 heq)
    have ha := M.tableSlot_aligned d w
    omega
  rw [directoryEntry, directoryEntry, he]
  exact .refl _

end Withholds

end

end Ram

namespace Memory

/-- All cached mappings are those of the tables in `M`. -/
def Framed (M : Ram) (d : UInt32) (m : Memory) : Prop :=
  ∀ vaddr mapping, m.tlb.entries[pageNumber vaddr]? = some mapping →
    mapping.frame = (M.tableEntry d vaddr).base

section
variable {M : Ram} {d vaddr : UInt32} {access : Access} {user : Bool} {T : UInt32 → Access → Prop}
  {m : Memory}

theorem byte_resolve (hS : M.Serves d user T) (hT : T vaddr access) (hb : M.Backs d T m.ram)
    {i : Nat} (hi : ¬M.InTables d i) :
    (stateOf (resolve ⟨true, some d⟩ .data vaddr access user m)).ram.byte i = m.ram.byte i := by
  rcases ram_resolve ⟨true, some d⟩ .data vaddr access user m with hr | hr <;> rw [hr]
  have hslot : PageEntry.tableSlot (m.ram.directoryEntry d vaddr) vaddr = M.tableSlot d vaddr := by
    rw [Ram.tableSlot, PageEntry.tableSlot, PageEntry.tableSlot, (hb.directory vaddr).base_eq]
  refine byte_walk rfl m.ram ?_ ?_
  · exact Ram.outside_of_not_inTables
      (fun _ => Ram.inTables_directorySlot M hS.aligned vaddr) hi
  · rw [hslot]
    exact Ram.outside_of_not_inTables (fun _ => Ram.inTables_tableSlot (hS.present hT)) hi

theorem Framed.insert (h : m.Framed M d) {mapping : Mapping} {vaddr : UInt32}
    (hb : pageBase mapping.frame = mapping.frame)
    (hm : mapping.frame = (M.tableEntry d vaddr).base) :
    Framed M d { m with tlb := m.tlb.insert (pageNumber vaddr) mapping } := by
  intro v mapping' he
  rw [Tlb.getElem?_insert] at he
  split at he
  · rename_i hpage
    obtain rfl := Option.some.inj he
    rw [hb, hm, Ram.tableEntry, Ram.tableEntry, Ram.directoryEntry, Ram.directoryEntry,
      PageEntry.directorySlot_eq_of_pageNumber hpage, PageEntry.tableSlot_eq_of_pageNumber hpage]
  · split at he
    · cases he
    · exact h v mapping' he

/-- An access that the complete tables serve gets their address, or faults at a missing entry. -/
theorem resolve_of_backs (hS : M.Serves d user T) (hT : T vaddr access) (hb : M.Backs d T m.ram)
    (hf : m.Framed M d) :
    let result := resolve ⟨true, some d⟩ .data vaddr access user m
    (stateOf result).Framed M d ∧
      (answerOf result = .ok (M.physical d vaddr) ∨
        answerOf result = .error (access.pageFault vaddr) ∧ vaddr ∈ M.missing d T m.ram) := by
  intro result
  have hr : m.ram.Paged := by
    rw [Ram.Paged, hb.size]
    exact hS.paged
  have hwalk := translate_eq_walk vaddr access user hS.aligned_space hr
  have hresult : Resolved ⟨true, some d⟩ .data vaddr access user m result :=
    resolve_resolved ⟨true, some d⟩ .data vaddr access user m
  clear_value result
  cases hresult with
  | remembered hl =>
    rw [AccessPath.line_data] at hl
    cases hl
  | @found mapping hm hfind =>
    obtain ⟨he, -⟩ := Tlb.find?_eq_some_iff.1 hfind
    refine ⟨hf, .inl ?_⟩
    rw [answerOf_ok, hf vaddr mapping he, Ram.physical]
  | @walked mapping ram hm hfind hw =>
    rw [hw] at hwalk
    have hframe : mapping.frame = (M.tableEntry d vaddr).base := by
      rcases hb.translate hS hT with ht | ⟨ht, -⟩ <;> rw [ht] at hwalk
      · exact (Except.ok.inj hwalk).symm
      · cases hwalk
    refine ⟨Framed.insert (m := { m with tlb := { m.tlb with misses := m.tlb.misses + 1 } }) hf
      (pageBase_of_walk hw) hframe, .inl ?_⟩
    rw [answerOf_ok, hframe, Ram.physical]
  | @faulted fault ram hm hfind hw =>
    rw [hw] at hwalk
    refine ⟨hf, .inr ?_⟩
    rcases hb.translate hS hT with ht | ⟨ht, hmiss⟩ <;> rw [ht] at hwalk
    · cases hwalk
    · refine ⟨?_, ⟨access, hT⟩, hmiss⟩
      rw [answerOf_error, ← Except.error.inj hwalk]

end

end Memory

end PagedMachine
