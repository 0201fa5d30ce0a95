import PagedMachine.Proofs.Translation
import PagedMachine.Proofs.Visits

/-!
# Walks in any order

A walk sets the flags of the entries in `Ram.marks` and does nothing else to memory
(`stateOf_walk_eq`), and it answers what `answerOf_walk_eq` reads from the tables. Neither the
entries nor the answer depend on flags that walks set, but for the permission to write, which may
come (`Ram.marks_markedTo`, `reanswers_of_markedTo`). Marks may be set in any order, and once is as
good as twice (`Ram.mark_comm`, `Ram.mark_mark`). So one walk does not disturb another.
-/

set_option autoImplicit false

namespace PagedMachine

/-- An address that is looked up. -/
structure Lookup where
  vaddr : UInt32
  access : Access
  user : Bool

/-- The walk for it. -/
def Lookup.walk (q : Lookup) (space : AddressSpace) : EStateM Fault Ram Mapping :=
  PagedMachine.walk space q.vaddr q.access q.user

/-- Two answers of which the second may grant writes where the first does not. -/
inductive Reanswers : Except Fault Mapping → Except Fault Mapping → Prop
  | fault (fault : Fault) : Reanswers (.error fault) (.error fault)
  | mapping {found found' : Mapping} : found'.frame = found.frame → found'.user = found.user →
      (found.writable = true → found'.writable = true) → Reanswers (.ok found) (.ok found')

namespace Ram

/-- Sets flags of the entry at `slot`. -/
def setFlags (r : Ram) (slot flags : UInt32) : Ram := r.write32 slot (r.read32 slot ||| flags)

/-- The memories that a walk may leave of `r`: the directory entry is accessed, and then the table
entry, which is dirty as well after a store that both entries permit. -/
inductive Bookkept (space : AddressSpace) (q : Lookup) (r : Ram) : Ram → Prop
  | untouched : Bookkept space q r r
  | directory {d : UInt32} : space.paging = true → space.directory = some d →
      Bookkept space q r (r.setFlags (PageEntry.directorySlot d q.vaddr) PageEntry.accessedBit)
  | accessed {d : UInt32} : space.paging = true → space.directory = some d →
      Bookkept space q r
        ((r.setFlags (PageEntry.directorySlot d q.vaddr) PageEntry.accessedBit).setFlags
          (PageEntry.tableSlot (r.directoryEntry d q.vaddr) q.vaddr) PageEntry.accessedBit)
  | dirtied {d : UInt32} : space.paging = true → space.directory = some d → q.access = .store →
      (r.directoryEntry d q.vaddr).present = true → (r.tableEntry d q.vaddr).present = true →
      (r.directoryEntry d q.vaddr).writable = true → (r.tableEntry d q.vaddr).writable = true →
      (q.user = true →
        (r.directoryEntry d q.vaddr).user = true ∧ (r.tableEntry d q.vaddr).user = true) →
      Bookkept space q r
        ((r.setFlags (PageEntry.directorySlot d q.vaddr) PageEntry.accessedBit).setFlags
          (PageEntry.tableSlot (r.directoryEntry d q.vaddr) q.vaddr)
          (PageEntry.accessedBit ||| PageEntry.dirtyBit))

/-! ## Marks, one after the other -/

theorem write32_read32 (r : Ram) (addr : UInt32) : r.write32 addr (r.read32 addr) = r := by
  by_cases hh : r.holds addr 4 = true
  · refine ext_byte (size_write32 ..) fun i => ?_
    rw [byte_write32 hh, read32, if_pos hh, word]
    split
    · rename_i hi
      obtain ⟨k, rfl⟩ := Nat.exists_eq_add_of_le hi.1
      obtain ⟨h0, h1, h2, h3⟩ := Bytes.byteOf32_le32 (r.byte addr.toNat) (r.byte (addr.toNat + 1))
        (r.byte (addr.toNat + 2)) (r.byte (addr.toNat + 3))
      rw [Nat.add_sub_cancel_left]
      obtain rfl | rfl | rfl | rfl : k = 0 ∨ k = 1 ∨ k = 2 ∨ k = 3 := by omega
      · exact h0
      · exact h1
      · exact h2
      · exact h3
    · rfl
  · rw [write32, if_neg hh]

/-- A mark that is there may be set again. -/
theorem mark_eq_write32 (r : Ram) (addr : UInt32) (access : Access) :
    r.mark addr access = r.write32 addr ((r.entry addr).marked access).word := by
  by_cases h : (r.entry addr).marked access = r.entry addr
  · rw [mark_eq_self h, h, entry, write32_read32]
  · rw [mark, if_pos h]

theorem mark_eq_setFlags (r : Ram) (addr : UInt32) (access : Access) :
    r.mark addr access = r.setFlags addr
      (if access.writes then PageEntry.accessedBit ||| PageEntry.dirtyBit
        else PageEntry.accessedBit) := by
  rw [mark_eq_write32, setFlags, PageEntry.marked, UInt32.or_assoc, entry]
  cases access <;> rfl

/-- A mark, byte by byte. -/
theorem byte_mark_eq (r : Ram) (addr : UInt32) (access : Access) (i : Nat) :
    (r.mark addr access).byte i =
      if r.holds addr 4 = true ∧ addr.toNat = i then r.byte i ||| markByte access else r.byte i := by
  rw [mark_eq_write32]
  by_cases hh : r.holds addr 4 = true
  · rw [byte_write32 hh, marked_word, entry, read32, if_pos hh, word]
    obtain ⟨h0, h1, h2, h3⟩ := Bytes.byteOf32_le32_or (r.byte addr.toNat)
      (r.byte (addr.toNat + 1)) (r.byte (addr.toNat + 2)) (r.byte (addr.toNat + 3))
      (markByte access)
    split
    · rename_i hi
      obtain ⟨k, rfl⟩ := Nat.exists_eq_add_of_le hi.1
      rw [Nat.add_sub_cancel_left]
      obtain rfl | rfl | rfl | rfl : k = 0 ∨ k = 1 ∨ k = 2 ∨ k = 3 := by omega
      · rw [if_pos ⟨hh, rfl⟩]
        exact h0
      · rw [if_neg (by omega)]
        exact h1
      · rw [if_neg (by omega)]
        exact h2
      · rw [if_neg (by omega)]
        exact h3
    · rw [if_neg (by omega)]
  · rw [write32, if_neg hh, if_neg fun h => hh h.1]

@[simp] theorem holds_mark (r : Ram) (addr other : UInt32) (access : Access) (len : Nat) :
    (r.mark addr access).holds other len = r.holds other len := by
  rw [holds, holds, bytes_size_mark]

/-- Marks may be set in any order, also where their entries overlap. -/
theorem mark_comm (r : Ram) (addr addr' : UInt32) (access access' : Access) :
    (r.mark addr access).mark addr' access' = (r.mark addr' access').mark addr access := by
  refine ext_byte (by simp only [bytes_size_mark]) fun i => ?_
  simp only [byte_mark_eq, holds_mark]
  split
  · split
    · rw [UInt8.or_assoc, UInt8.or_comm (markByte access), ← UInt8.or_assoc]
    · rfl
  · rfl

/-- Once is as good as twice. -/
theorem mark_mark (r : Ram) (addr : UInt32) (access : Access) :
    (r.mark addr access).mark addr access = r.mark addr access := by
  refine ext_byte (by simp only [bytes_size_mark]) fun i => ?_
  simp only [byte_mark_eq, holds_mark]
  split
  · rw [UInt8.or_assoc, UInt8.or_self]
  · rfl

/-! ## Lists of marks -/

/-- Sets marks: each is the place of an entry and the access that it is marked for. -/
def markAll (r : Ram) (marks : List (UInt32 × Access)) : Ram :=
  marks.foldl (fun r mark => r.mark mark.1 mark.2) r

theorem markAll_append (r : Ram) (marks marks' : List (UInt32 × Access)) :
    r.markAll (marks ++ marks') = (r.markAll marks).markAll marks' :=
  List.foldl_append

theorem markAll_perm {marks marks' : List (UInt32 × Access)} (h : marks.Perm marks') (r : Ram) :
    r.markAll marks = r.markAll marks' :=
  h.foldl_eq' (fun mark _ mark' _ r => mark_comm r mark.1 mark'.1 mark.2 mark'.2) r

theorem markAll_comm (r : Ram) (marks marks' : List (UInt32 × Access)) :
    (r.markAll marks).markAll marks' = (r.markAll marks').markAll marks := by
  rw [← markAll_append, ← markAll_append]
  exact markAll_perm List.perm_append_comm r

/-- Marks that are there may be set again. -/
theorem markAll_markAll (r : Ram) (marks : List (UInt32 × Access)) :
    (r.markAll marks).markAll marks = r.markAll marks := by
  induction marks generalizing r with
  | nil => rfl
  | cons mark marks ih =>
    have hhead : (r.mark mark.1 mark.2).markAll [mark] = r.mark mark.1 mark.2 :=
      mark_mark r mark.1 mark.2
    calc (r.markAll (mark :: marks)).markAll (mark :: marks)
        = (((r.mark mark.1 mark.2).markAll marks).markAll [mark]).markAll marks := rfl
      _ = (((r.mark mark.1 mark.2).markAll [mark]).markAll marks).markAll marks := by
          rw [markAll_comm _ marks [mark]]
      _ = r.markAll (mark :: marks) := by
          rw [hhead, ih]
          rfl

/-! ## What a walk marks -/

/-- What a walk marks. -/
def marks (r : Ram) (space : AddressSpace) (q : Lookup) : List (UInt32 × Access) :=
  if space.paging then
    match space.directory with
    | none => []
    | some d =>
      let pde := r.directoryEntry d q.vaddr
      if pde.present then
        if pde.base < r.size && pde.permits (r.tableEntry d q.vaddr) q.access q.user then
          [(PageEntry.directorySlot d q.vaddr, .load), (PageEntry.tableSlot pde q.vaddr, q.access)]
        else [(PageEntry.directorySlot d q.vaddr, .load)]
      else []
  else []

/-- A walk marks what it marked before. -/
theorem marks_markedTo {space : AddressSpace} {r r' : Ram} (hs : space.Aligned)
    (h : r.MarkedTo r') (q : Lookup) : r'.marks space q = r.marks space q := by
  rw [marks, marks]
  split
  · cases hd : space.directory with
    | none => rfl
    | some d =>
      have hpde := h.directoryEntry (hs d hd) q.vaddr
      have hpte := h.tableEntry (hs d hd) q.vaddr
      simp only [hpde.present_eq, hpde.base_eq, hpde.permits_eq hpte, size_eq_of h.size,
        h.tableSlot_eq (hs d hd)]
  · rfl

/-- What a walk reports of a page that it finds at `frame`. -/
def mapping (r : Ram) (space : AddressSpace) (q : Lookup) (frame : UInt32) : Mapping :=
  match space.paging, space.directory with
  | true, some d =>
    let pde := r.directoryEntry d q.vaddr
    let pte := r.tableEntry d q.vaddr
    { frame
      writable := (q.access.writes || pte.dirty) && (pde.writable && pte.writable)
      user := pde.user && pte.user }
  | _, _ => { frame, writable := true, user := true }

/-- Reading through an entry does not dirty it. -/
theorem dirty_mark_load (r : Ram) {addr other : UInt32} (ha : addr.toNat % 4 = 0)
    (ho : other.toNat % 4 = 0) :
    ((r.mark addr .load).entry other).dirty = (r.entry other).dirty := by
  have hclean : (⟨PageEntry.accessedBit⟩ : PageEntry).has PageEntry.dirtyBit = false := by decide
  by_cases h : addr = other
  · subst h
    by_cases hh : r.holds addr 4 = true
    · rw [entry_mark_self hh, PageEntry.dirty, PageEntry.marked, UInt32.or_assoc, PageEntry.has_or,
        Access.writes, if_neg Bool.false_ne_true, UInt32.or_zero, hclean, Bool.or_false]
      rfl
    · rw [mark_eq_write32, write32, if_neg hh]
  · rw [entry_mark_of_ne ha ho h]

end Ram

section
variable {space : AddressSpace} {r r' : Ram}

/-- What a walk does to memory. -/
theorem stateOf_walk_eq (hs : space.Aligned) (hr : r.Paged) (q : Lookup) :
    stateOf (q.walk space r) = r.markAll (r.marks space q) := by
  rw [Lookup.walk, Ram.marks]
  by_cases hp : space.paging = true
  · rw [if_pos hp]
    cases hd : space.directory with
    | none =>
      rw [walk_of_no_directory hp hd]
      rfl
    | some d =>
      dsimp only
      rw [walk_of_directory hp hd, bind_apply, walkDirectory_apply]
      by_cases hpresent : (r.directoryEntry d q.vaddr).present = true
      · rw [if_pos hpresent, if_pos hpresent]
        by_cases hlt : (r.directoryEntry d q.vaddr).word < r.size
        · -- the table entry is read after the directory entry was marked
          have hpte := (Ram.markedTo_mark (r := r)
            (PageEntry.directorySlot_aligned (hs d hd) q.vaddr) .load).entry _
            (PageEntry.tableSlot_aligned (r.directoryEntry d q.vaddr) q.vaddr)
          have hperm := (PageEntry.MarkedTo.refl (r.directoryEntry d q.vaddr)).permits_eq hpte
            q.access q.user
          have hlt' : (r.directoryEntry d q.vaddr).base < r.size := (hr.lt_size_iff _).1 hlt
          rw [if_pos hlt]
          simp only [walkTable_apply, hperm, hlt', decide_true, Bool.true_and, Ram.tableEntry]
          split
          · split <;> rfl
          · rfl
        · have hlt' : ¬(r.directoryEntry d q.vaddr).base < r.size :=
            fun h => hlt ((hr.lt_size_iff _).2 h)
          rw [if_neg hlt, decide_eq_false hlt', Bool.false_and, if_neg Bool.false_ne_true]
          rfl
      · rw [if_neg hpresent, if_neg hpresent]
        rfl
  · rw [stateOf_walk_of_not_paging _ _ _ (by simpa using hp), if_neg hp]
    rfl

/-- What a walk answers. -/
theorem answerOf_walk_eq (hs : space.Aligned) (hr : r.Paged) (q : Lookup) :
    answerOf (q.walk space r) =
      (r.translate space q.vaddr q.access q.user).map (r.mapping space q) := by
  rw [translate_eq_walk q.vaddr q.access q.user hs hr, Lookup.walk]
  cases hw : walk space q.vaddr q.access q.user r with
  | error fault r₁ => rfl
  | ok found r₁ =>
    refine congrArg Except.ok ?_
    by_cases hp : space.paging = true
    · obtain ⟨d, hd⟩ := directory_of_translate (translate_of_walk hs hr hw) hp
      have hslot := PageEntry.directorySlot_aligned (hs d hd) q.vaddr
      have htable := PageEntry.tableSlot_aligned (r.directoryEntry d q.vaddr) q.vaddr
      have hpte := (Ram.markedTo_mark (r := r) hslot .load).entry _ htable
      obtain ⟨-, -, rfl, -⟩ := walk_eq_ok_of_directory hp hd hw
      rw [Ram.mapping, hp, hd]
      simp only [Ram.dirty_mark_load r hslot htable, hpte.writable_eq, hpte.user_eq,
        Ram.tableEntry]
    · have hoff : space.paging = false := by simpa using hp
      rw [walk_of_not_paging hoff] at hw
      split at hw
      · obtain ⟨rfl, -⟩ := EStateM.Result.ok.inj hw
        rw [Ram.mapping, hoff]
      · cases hw

/-- Marks may let a walk grant writes, and change nothing else of its answer. -/
theorem reanswers_of_markedTo (hs : space.Aligned) (hr : r.Paged) (h : r.MarkedTo r')
    (q : Lookup) : Reanswers (answerOf (q.walk space r)) (answerOf (q.walk space r')) := by
  have hr' : r'.Paged := by rwa [Ram.Paged, h.size]
  rw [answerOf_walk_eq hs hr, answerOf_walk_eq hs hr', translate_markedTo hs h]
  cases r.translate space q.vaddr q.access q.user with
  | error fault => exact .fault fault
  | ok frame =>
    by_cases hp : space.paging = true
    · cases hd : space.directory with
      | none =>
        simp only [Except.map, Ram.mapping, hp, hd]
        exact .mapping rfl rfl id
      | some d =>
        have hpde := h.directoryEntry (hs d hd) q.vaddr
        have hpte := h.tableEntry (hs d hd) q.vaddr
        simp only [Except.map, Ram.mapping, hp, hd]
        refine .mapping rfl ?_ ?_
        · rw [hpde.user_eq, hpte.user_eq]
        · simp only [hpde.writable_eq, hpte.writable_eq, Bool.and_eq_true, Bool.or_eq_true]
          rintro ⟨hdirty, hwritable⟩
          exact ⟨hdirty.imp_right hpte.has_of_has, hwritable⟩
    · have hoff : space.paging = false := by simpa using hp
      simp only [Except.map, Ram.mapping, hoff]
      exact .mapping rfl rfl id

/-- What a walk may leave. -/
theorem bookkept_walk (hs : space.Aligned) (hr : r.Paged) (q : Lookup) :
    Ram.Bookkept space q r (stateOf (q.walk space r)) := by
  rw [stateOf_walk_eq hs hr, Ram.marks]
  by_cases hp : space.paging = true
  · rw [if_pos hp]
    cases hd : space.directory with
    | none => exact .untouched
    | some d =>
      have hdirectory : (r.mark (PageEntry.directorySlot d q.vaddr) .load) =
          r.setFlags (PageEntry.directorySlot d q.vaddr) PageEntry.accessedBit :=
        Ram.mark_eq_setFlags ..
      dsimp only
      split
      · rename_i hpresent
        split
        · rename_i hperm
          rw [Bool.and_eq_true, PageEntry.permits, Bool.and_eq_true, Bool.and_eq_true] at hperm
          obtain ⟨-, ⟨hpage, huser⟩, hwritable⟩ := hperm
          simp only [Ram.markAll, List.foldl_cons, List.foldl_nil, hdirectory]
          rw [Ram.mark_eq_setFlags]
          cases hacc : q.access with
          | store =>
            rw [hacc, Access.writes, Bool.not_true, Bool.false_or, Bool.and_eq_true] at hwritable
            refine .dirtied hp hd hacc hpresent hpage hwritable.1 hwritable.2 fun hu => ?_
            rwa [hu, Bool.not_true, Bool.false_or, Bool.and_eq_true] at huser
          | load => exact .accessed hp hd
          | fetch => exact .accessed hp hd
        · simp only [Ram.markAll, List.foldl_cons, List.foldl_nil, hdirectory]
          exact .directory hp hd
      · exact .untouched
  · rw [if_neg hp]
    exact .untouched

/-- Walks keep the books and disturb no walk. -/
theorem walks_independent (hs : space.Aligned) (hr : r.Paged) (q q' : Lookup) :
    let r₁ := stateOf (q.walk space r)
    let r₂ := stateOf (q'.walk space r)
    Ram.Bookkept space q r r₁ ∧
      Reanswers (answerOf (q'.walk space r)) (answerOf (q'.walk space r₁)) ∧
      stateOf (q'.walk space r₁) = stateOf (q.walk space r₂) ∧
      Reanswers (answerOf (q.walk space r)) (answerOf (q.walk space r₁)) ∧
      stateOf (q.walk space r₁) = r₁ := by
  intro r₁ r₂
  have hm : r.MarkedTo r₁ := walk_markedTo q.vaddr q.access q.user hs r
  have hm' : r.MarkedTo r₂ := walk_markedTo q'.vaddr q'.access q'.user hs r
  have hr₁ : r₁.Paged := by rwa [Ram.Paged, hm.size]
  have hr₂ : r₂.Paged := by rwa [Ram.Paged, hm'.size]
  have hr₁_eq : r₁ = r.markAll (r.marks space q) := stateOf_walk_eq hs hr q
  have hr₂_eq : r₂ = r.markAll (r.marks space q') := stateOf_walk_eq hs hr q'
  refine ⟨bookkept_walk hs hr q, reanswers_of_markedTo hs hr hm q', ?_,
    reanswers_of_markedTo hs hr hm q, ?_⟩
  · calc stateOf (q'.walk space r₁)
        = r₁.markAll (r.marks space q') := by
          rw [stateOf_walk_eq hs hr₁, Ram.marks_markedTo hs hm]
      _ = r₂.markAll (r.marks space q) := by rw [hr₁_eq, hr₂_eq, Ram.markAll_comm]
      _ = stateOf (q.walk space r₂) := by
          rw [stateOf_walk_eq hs hr₂, Ram.marks_markedTo hs hm']
  · calc stateOf (q.walk space r₁)
        = r₁.markAll (r.marks space q) := by
          rw [stateOf_walk_eq hs hr₁, Ram.marks_markedTo hs hm]
      _ = r₁ := by rw [hr₁_eq, Ram.markAll_markAll]

/-- A store and a load, by way of a directory that is its own table and its own page. -/
theorem walks_independent_mirrored :
    let space : AddressSpace := ⟨true, some 0⟩
    let r : Ram := (Ram.zeroed 4096).write32 0 7
    let q : Lookup := ⟨12, .store, true⟩
    let q' : Lookup := ⟨16, .load, true⟩
    let r₁ := stateOf (q.walk space r)
    let r₂ := stateOf (q'.walk space r)
    (space.Aligned ∧ r.Paged) ∧ Ram.Bookkept space q r r₁ ∧
      Reanswers (answerOf (q'.walk space r)) (answerOf (q'.walk space r₁)) ∧
      stateOf (q'.walk space r₁) = stateOf (q.walk space r₂) ∧
      Reanswers (answerOf (q.walk space r)) (answerOf (q.walk space r₁)) ∧
      stateOf (q.walk space r₁) = r₁ := by
  have hs : AddressSpace.Aligned ⟨true, some 0⟩ := fun _ hd => Option.some.inj hd ▸ rfl
  have hr : Ram.Paged ((Ram.zeroed 4096).write32 0 7) := by
    rw [Ram.Paged, Ram.size_write32, Ram.size_zeroed]
    rfl
  exact ⟨⟨hs, hr⟩, walks_independent hs hr ⟨12, .store, true⟩ ⟨16, .load, true⟩⟩

end

end PagedMachine
