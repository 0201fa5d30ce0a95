import PagedMachine.Proofs.Coherence
import PagedMachine.Proofs.Inside
import PagedMachine.Width.Lemmas

/-!
# Bytes that are hidden from user mode

Some bytes of memory are hidden. Tables that show user mode no page with one of them
(`Ram.Secures`), and caches that remember none for it (`Memory.Secures`), stay so when an address is
resolved (`Memory.Secures.resolve`). Two memories that differ in hidden bytes only then resolve it
alike (`Memory.Secures.resolve_sameBut`), and what user mode may access has no hidden byte
(`Memory.Secures.not_hidden`).
-/

set_option autoImplicit false

namespace PagedMachine

/-- Whether no byte of a page is hidden. -/
def InSight (hidden : Nat → Prop) (frame : UInt32) : Prop :=
  ∀ k < 4096, ¬hidden (frame.toNat + k)

namespace Ram

variable {hidden : Nat → Prop}

/-! ## Memories that differ in hidden bytes -/

/-- Whether two memories differ in hidden bytes only. -/
structure SameBut (hidden : Nat → Prop) (r r' : Ram) : Prop where
  size : r'.bytes.size = r.bytes.size
  byte : ∀ i, ¬hidden i → r'.byte i = r.byte i

section
variable {r r' : Ram}

theorem SameBut.holds (h : SameBut hidden r r') (addr : UInt32) (n : Nat) :
    r'.holds addr n = r.holds addr n := by
  rw [Ram.holds, Ram.holds, h.size]

/-- The same bytes at the same place make no difference. -/
theorem SameBut.blit (h : SameBut hidden r r') (addr : UInt32) (data : ByteArray) :
    SameBut hidden (r.blit addr data) (r'.blit addr data) := by
  refine ⟨by rw [size_blit, size_blit, h.size], fun i hi => ?_⟩
  cases hh : r.holds addr data.size with
  | true =>
    rw [byte_blit hh, byte_blit ((h.holds ..).trans hh), h.byte i hi]
  | false =>
    rw [blit_of_not_holds hh, blit_of_not_holds ((h.holds ..).trans hh)]
    exact h.byte i hi

theorem SameBut.entry (h : SameBut hidden r r') {e : UInt32} (he : ∀ k < 4, ¬hidden (e.toNat + k)) :
    r'.entry e = r.entry e :=
  entry_congr h.size fun k hk => h.byte _ (he k hk)

/-- Walks do not tell such memories apart, where no entry is hidden. -/
theorem related_sameBut (hidden : Nat → Prop) :
    Related (SameBut hidden) fun e => ∀ k < 4, ¬hidden (e.toNat + k) where
  size h := size_eq_of h.size
  entry h he := h.entry he
  mark access h he := by
    rw [mark, mark, h.entry he]
    split
    · rw [write32_eq_blit, write32_eq_blit]
      exact h.blit _ _
    · exact h

theorem SameBut.read {α : Type} {n : Nat} {read : Ram → UInt32 → α} (h : SameBut hidden r r')
    (hread : ReadsAt n read) {addr : UInt32} (hin : r.holds addr n = true)
    (hk : ∀ k < n, ¬hidden (addr.toNat + k)) : read r' addr = read r addr :=
  hread r' r addr ((h.holds ..).trans hin) hin fun k hk' => h.byte _ (hk k hk')

/-- What is copied has to be in sight. -/
theorem SameBut.copyWithin (h : SameBut hidden r r') {src dst : UInt32} {n : Nat}
    (hs : r.holds src n = true) (hd : r.holds dst n = true)
    (hk : ∀ k < n, ¬hidden (src.toNat + k)) :
    SameBut hidden (r.copyWithin src dst n) (r'.copyWithin src dst n) := by
  refine ⟨by rw [size_copyWithin, size_copyWithin, h.size], fun i hi => ?_⟩
  rw [byte_copyWithin hs hd, byte_copyWithin ((h.holds ..).trans hs) ((h.holds ..).trans hd)]
  split
  · exact h.byte _ (hk _ (by omega))
  · exact h.byte i hi

end

/-! ## Tables -/

/-- Whether the directory, the tables it refers to and the pages that they open to user mode have no
hidden byte. -/
structure Secures (hidden : Nat → Prop) (space : AddressSpace) (r : Ram) : Prop where
  directory : ∀ directory, space.directory = some directory → InSight hidden directory
  table : ∀ directory vaddr, space.directory = some directory →
    (r.directoryEntry directory vaddr).present = true →
    InSight hidden (r.directoryEntry directory vaddr).base
  frame : ∀ directory vaddr, space.directory = some directory →
    (r.directoryEntry directory vaddr).present = true →
    (r.directoryEntry directory vaddr).user = true →
    (r.tableEntry directory vaddr).present = true → (r.tableEntry directory vaddr).user = true →
    InSight hidden (r.tableEntry directory vaddr).base

section
variable {space : AddressSpace} {r r' : Ram}

/-- A word that is stored over an entry opens no page if it has no present bit. -/
theorem Secures.write32_of_absent (h : r.Secures hidden space) (hs : space.Aligned) {a v : UInt32}
    (ha : a.toNat % 4 = 0) (hv : (PageEntry.mk v).present = false) :
    (r.write32 a v).Secures hidden space := by
  have hentry (e : UInt32) (he : e.toNat % 4 = 0) (hp : ((r.write32 a v).entry e).present = true) :
      (r.write32 a v).entry e = r.entry e := by
    by_cases hne : a = e
    · subst hne
      cases hh : r.holds a 4 with
      | true =>
        rw [entry, read32_write32 hh, hv] at hp
        cases hp
      | false => rw [write32, if_neg (by rw [hh]; exact Bool.false_ne_true)]
    · rw [entry, entry, read32_write32_of_ne ha he hne]
  have hslot {directory} (hd : space.directory = some directory) (vaddr : UInt32) :=
    PageEntry.directorySlot_aligned (hs directory hd) vaddr
  refine ⟨h.directory, fun directory vaddr hd hp => ?_, fun directory vaddr hd hp hu hp' hu' => ?_⟩
  · have hpde := hentry _ (hslot hd vaddr) hp
    rw [directoryEntry, hpde] at hp ⊢
    exact h.table directory vaddr hd hp
  · have hpde := hentry _ (hslot hd vaddr) hp
    have hpte := hentry _ (PageEntry.tableSlot_aligned _ _) hp'
    rw [tableEntry, hpte, directoryEntry, hpde] at hp' hu' ⊢
    rw [directoryEntry, hpde] at hp hu
    exact h.frame directory vaddr hd hp hu hp' hu'

/-- One byte at a time. -/
theorem Secures.of_forall (h : ∀ i, hidden i → r.Secures (· = i) space) : r.Secures hidden space where
  directory directory hd k hk hh := (h _ hh).directory directory hd k hk rfl
  table directory vaddr hd hp k hk hh := (h _ hh).table directory vaddr hd hp k hk rfl
  frame directory vaddr hd hp hu hp' hu' k hk hh :=
    (h _ hh).frame directory vaddr hd hp hu hp' hu' k hk rfl

/-- Marks open no page. -/
theorem Secures.of_markedTo (h : r.Secures hidden space) (hm : r.MarkedTo r') (hs : space.Aligned) :
    r'.Secures hidden space := by
  have hpde {directory} (hd : space.directory = some directory) (vaddr : UInt32) :=
    hm.directoryEntry (hs directory hd) vaddr
  have hpte {directory} (hd : space.directory = some directory) (vaddr : UInt32) :=
    hm.tableEntry (hs directory hd) vaddr
  refine ⟨h.directory, fun directory vaddr hd hp => ?_, fun directory vaddr hd hp hu hp' hu' => ?_⟩
  · rw [(hpde hd vaddr).present_eq] at hp
    rw [(hpde hd vaddr).base_eq]
    exact h.table directory vaddr hd hp
  · rw [(hpde hd vaddr).present_eq] at hp
    rw [(hpde hd vaddr).user_eq] at hu
    rw [(hpte hd vaddr).present_eq] at hp'
    rw [(hpte hd vaddr).user_eq] at hu'
    rw [(hpte hd vaddr).base_eq]
    exact h.frame directory vaddr hd hp hu hp' hu'

end

end Ram

/-! ## Caches -/

namespace Memory

variable {hidden : Nat → Prop} {space : AddressSpace}

/-- Whether the caches remember no page for user mode that has a hidden byte. -/
structure Secures (hidden : Nat → Prop) (space : AddressSpace) (m : Memory) : Prop where
  inside : m.Inside space
  coherent : m.Coherent
  entries : ∀ (page : UInt32) mapping, m.tlb.entries[page]? = some mapping → mapping.user = true →
    InSight hidden mapping.frame

namespace Secures

variable {m : Memory} (h : m.Secures hidden space)
include h

/-- Writing does not change what is remembered. -/
theorem mapRam {fn : Ram → Ram} (hs : (fn m.ram).bytes.size = m.ram.bytes.size) :
    (m.mapRam fn).Secures hidden space :=
  ⟨h.inside.mapRam hs, h.coherent, h.entries⟩

/-- The entries that a walk reads are in sight. -/
theorem walkSlots_inSight (ht : m.ram.Secures hidden space) {vaddr e : UInt32}
    (he : e ∈ m.ram.walkSlots space vaddr) : ∀ k < 4, ¬hidden (e.toNat + k) := by
  intro k hk
  rw [Ram.walkSlots] at he
  split at he
  · cases hd : space.directory with
    | none =>
      rw [hd] at he
      cases he
    | some directory =>
      rw [hd] at he
      have hdir : ¬hidden ((PageEntry.directorySlot directory vaddr).toNat + k) := by
        have hv := vaddr.toNat_lt
        rw [PageEntry.directorySlot_toNat (h.inside.directory directory hd).1, Nat.add_assoc]
        exact ht.directory directory hd _ (by omega)
      dsimp only at he
      split at he
      · rename_i hpde
        simp only [Bool.and_eq_true, decide_eq_true_eq] at hpde
        rcases List.mem_cons.1 he with rfl | he
        · exact hdir
        · obtain rfl := List.mem_singleton.1 he
          rw [PageEntry.tableSlot_toNat, Nat.add_assoc]
          exact ht.table directory vaddr hd hpde.1 _ (by omega)
      · obtain rfl := List.mem_singleton.1 he
        exact hdir
  · cases he

/-- A page that a walk opens to user mode is in sight. -/
theorem inSight_of_walk (ht : m.ram.Secures hidden space) (hp : space.paging = true) {vaddr : UInt32}
    {access : Access} {user : Bool} {mapping : Mapping} {ram : Ram}
    (hw : walk space vaddr access user m.ram = .ok mapping ram) (hu : mapping.user = true) :
    InSight hidden mapping.frame := by
  cases hd : space.directory with
  | none =>
    rw [walk_of_no_directory hp hd] at hw
    cases hw
  | some directory =>
    obtain ⟨hpresent, hperm, hmap, -⟩ := walk_eq_ok_of_directory hp hd hw
    -- the table entry was read after the directory entry was marked
    have hm := Ram.markedTo_mark (r := m.ram)
      (PageEntry.directorySlot_aligned (h.inside.aligned _ hd) vaddr) .load
    have hpte := hm.entry _ (PageEntry.tableSlot_aligned (m.ram.directoryEntry directory vaddr) vaddr)
    simp only [PageEntry.permits, Bool.and_eq_true, hpte.present_eq] at hperm
    simp only [hmap, Bool.and_eq_true, hpte.user_eq] at hu
    rw [hmap]
    dsimp only
    rw [hpte.base_eq]
    exact ht.frame directory vaddr hd hpresent hu.1 hperm.1.1 hu.2

variable (ht : m.ram.Secures hidden space) (slot : Slot) (vaddr : UInt32) (access : Access)
  (user : Bool)
include ht

/-- Resolving an address brings no hidden byte into sight. -/
theorem resolve (hp : space.paging = true) :
    (stateOf (Memory.resolve space slot vaddr access user m)).Secures hidden space ∧
      (stateOf (Memory.resolve space slot vaddr access user m)).ram.Secures hidden space := by
  have hmarked : m.ram.MarkedTo (stateOf (Memory.resolve space slot vaddr access user m)).ram := by
    rcases ram_resolve space slot vaddr access user m with hr | hr <;> rw [hr]
    · exact .refl _
    · exact walk_markedTo vaddr access user h.inside.aligned m.ram
  refine ⟨⟨h.inside.resolve slot vaddr access user, Coherent.resolve _ _ _ _ _ h.coherent,
    fun page mapping he hu => ?_⟩,
    ht.of_markedTo hmarked h.inside.aligned⟩
  have hresult := resolve_resolved space slot vaddr access user m
  generalize Memory.resolve space slot vaddr access user m = result at hresult he
  cases hresult with
  | remembered hl => exact h.entries page mapping he hu
  | found hm hf => exact h.entries page mapping he hu
  | @walked mapping' ram hm hf hw =>
    rw [stateOf_ok, Tlb.getElem?_insert, pageBase_of_walk hw] at he
    split at he
    · obtain rfl := Option.some.inj he
      exact h.inSight_of_walk ht hp hw hu
    · split at he
      · cases he
      · exact h.entries page mapping he hu
  | faulted hm hf hw => exact h.entries page mapping he hu

/-- Memories that differ in hidden bytes resolve an address alike. -/
theorem resolve_sameBut {ram : Ram} (hs : Ram.SameBut hidden m.ram ram) :
    ∃ ram', Ram.SameBut hidden (stateOf (Memory.resolve space slot vaddr access user m)).ram ram' ∧
      Memory.resolve space slot vaddr access user { m with ram } =
        mapState ({ · with ram := ram' }) (Memory.resolve space slot vaddr access user m) :=
  resolve_related (Ram.related_sameBut hidden) hs (fun _ he => h.walkSlots_inSight ht he) slot access

/-- A word with no present bit may be pushed on any stack. -/
theorem pushWord (hp : space.paging = true) {sp v : UInt32} {user : Bool}
    (hv : (PageEntry.mk v).present = false) {m' : Memory}
    (hr : Memory.pushWord space sp v user m = .ok () m') : m'.ram.Secures hidden space := by
  obtain ⟨pa, m₁, hpa, hwrite⟩ := bind_eq_ok_iff.1 hr
  obtain ⟨-, rfl⟩ := EStateM.Result.ok.inj hwrite
  obtain ⟨h₁, ht₁⟩ := h.resolve ht .stack (alignTo8 (sp - 8)) .store user hp
  rw [hpa, stateOf_ok] at h₁ ht₁
  obtain ⟨frame, hpage, -, hpa⟩ := h.inside.frame hpa
  have halign := alignTo8_toNat (sp - 8)
  have hframe := hpage.1
  exact ht₁.write32_of_absent h₁.inside.aligned (by omega) hv

variable {slot vaddr access}

/-- What user mode may access has no hidden byte. -/
theorem not_hidden (hp : space.paging = true) (hn : m.tlb.epoch < UInt64.size) {pa : UInt32}
    {m' : Memory} (hr : Memory.resolve space slot vaddr access true m = .ok pa m') {k : Nat}
    (hk : vaddr.toNat % 4096 + k < 4096) : ¬hidden (pa.toNat + k) := by
  obtain ⟨h', -⟩ := h.resolve ht slot vaddr access true hp
  rw [hr, stateOf_ok] at h'
  obtain ⟨mapping, he, hg, rfl⟩ := h.coherent.entry_of_resolve hn hr
  have hpage := (h'.inside.frames.tlb _ _ he).1
  have ho := pageOffset_toNat vaddr
  simp only [Mapping.grants, rightOf, Bool.not_true, Bool.false_or, Bool.and_eq_true] at hg
  rw [toNat_or hpage (by omega), ho, Nat.add_assoc]
  exact h'.entries _ _ he hg.2 _ (by omega)

end Secures

end Memory

end PagedMachine
