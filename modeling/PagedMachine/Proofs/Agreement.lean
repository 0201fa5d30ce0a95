import PagedMachine.Proofs.Inside

/-!
# Caches that agree with the tables

`Ram.locate` is the physical address that the tables give. If the caches hold no other mapping
(`Memory.Agrees`), an access is answered so, and all that happens to memory are marks in the tables
(`Memory.Faithful.resolve`). Words apart from the tables may then be stored in between: the tables say
the same as before, and the other words stay (`Ram.Stored`). One stream of accesses is followed at a
time, since that is what its line of the page cache is good for.
-/

set_option autoImplicit false

namespace PagedMachine

namespace Ram

/-- The physical address that the tables give for `vaddr`, or the fault of the access. -/
def locate (r : Ram) (space : AddressSpace) (vaddr : UInt32) (access : Access) (user : Bool) :
    Except Fault UInt32 :=
  (r.translate space vaddr access user).map (· ||| pageOffset vaddr)

/-- Whether the word at `a` overlaps no entry of the directory or of a table that it names. -/
def SparesTables (r : Ram) (space : AddressSpace) (a : UInt32) : Prop :=
  ∀ vaddr, ∀ entry ∈ r.walkSlots space vaddr, Apart entry a

/-- `r'` is `r` but for marks in the tables and the words at `stores`, which are not part of them. -/
structure Stored (space : AddressSpace) (stores : List UInt32) (r r' : Ram) : Prop where
  size : r'.bytes.size = r.bytes.size
  translate : ∀ vaddr access user,
    r'.translate space vaddr access user = r.translate space vaddr access user
  walkSlots : ∀ vaddr, r'.walkSlots space vaddr = r.walkSlots space vaddr
  word : ∀ a, r.SparesTables space a → (∀ b ∈ stores, Apart b a) → r'.read32 a = r.read32 a

section
variable {space : AddressSpace} {vaddr pa : UInt32} {access : Access} {user : Bool} {r r' r'' : Ram}
  {stores stores' : List UInt32}

/-! ## Where an address is -/

theorem locate_eq_ok (h : r.locate space vaddr access user = .ok pa) :
    ∃ frame, r.translate space vaddr access user = .ok frame ∧ pa = frame ||| pageOffset vaddr := by
  rw [locate] at h
  cases ht : r.translate space vaddr access user with
  | error fault =>
    rw [ht] at h
    cases h
  | ok frame =>
    rw [ht] at h
    exact ⟨frame, rfl, (Except.ok.inj h).symm⟩

/-- An address keeps its place in the page. -/
theorem offset_of_locate (h : r.locate space vaddr access user = .ok pa) :
    pa.toNat % 4096 = vaddr.toNat % 4096 := by
  obtain ⟨frame, ht, rfl⟩ := locate_eq_ok h
  have ho := pageOffset_toNat vaddr
  have hf : frame.toNat % 4096 = 0 := by
    rw [← (pageBase_of_translate ht).1, pageBase_toNat]
    omega
  rw [toNat_or hf (by omega), ho]
  omega

/-- What stays in the page of its address is in memory. -/
theorem Paged.holds_of_locate (hr : r.Paged) (h : r.locate space vaddr access user = .ok pa) {n : Nat}
    (hn : vaddr.toNat % 4096 + n ≤ 4096) : r.holds pa n = true := by
  obtain ⟨frame, ht, rfl⟩ := locate_eq_ok h
  obtain ⟨hbase, hlt⟩ := pageBase_of_translate ht
  obtain ⟨hframe, hin⟩ := hr.holdsPage hbase hlt
  have ho := pageOffset_toNat vaddr
  rw [holds_iff, toNat_or hframe (by omega), ho]
  omega

/-- What may be stored to may be loaded from. -/
theorem locate_load (h : r.locate space vaddr .store user = .ok pa) :
    r.locate space vaddr .load user = .ok pa := by
  obtain ⟨frame, ht, rfl⟩ := locate_eq_ok h
  suffices hload : r.translate space vaddr .load user = .ok frame by rw [locate, hload]; rfl
  cases hp : space.paging with
  | false =>
    rw [translate_of_not_paging_eq_ok_iff hp] at ht ⊢
    exact ht
  | true =>
    obtain ⟨directory, hd⟩ := directory_of_translate ht hp
    obtain ⟨hpresent, hin, hperm, hframe⟩ := (translate_eq_ok_iff hp hd).1 ht
    refine (translate_eq_ok_iff hp hd).2 ⟨hpresent, hin, ?_, hframe⟩
    simp only [PageEntry.permits, Bool.and_eq_true] at hperm ⊢
    exact ⟨hperm.1, rfl⟩

/-! ## What is stored apart from the tables -/

namespace Stored

theorem refl (space : AddressSpace) (r : Ram) : Stored space [] r r :=
  ⟨rfl, fun _ _ _ => rfl, fun _ => rfl, fun _ _ _ => rfl⟩

theorem locate (h : Stored space stores r r') (vaddr : UInt32) (access : Access) (user : Bool) :
    r'.locate space vaddr access user = r.locate space vaddr access user := by
  rw [Ram.locate, Ram.locate, h.translate]

theorem sparesTables (h : Stored space stores r r') {a : UInt32} :
    r'.SparesTables space a ↔ r.SparesTables space a := by
  simp only [SparesTables, h.walkSlots]

theorem trans (h : Stored space stores r r') (h' : Stored space stores' r' r'') :
    Stored space (stores ++ stores') r r'' where
  size := h'.size.trans h.size
  translate vaddr access user := (h'.translate ..).trans (h.translate ..)
  walkSlots vaddr := (h'.walkSlots vaddr).trans (h.walkSlots vaddr)
  word a ha hstores := by
    rw [h'.word a (h.sparesTables.2 ha) fun b hb => hstores b (List.mem_append_right _ hb)]
    exact h.word a ha fun b hb => hstores b (List.mem_append_left _ hb)

end Stored

/-- Marks do not change which entries are read. -/
theorem walkSlots_markedTo (hs : space.Aligned) (hr : r.Paged) (h : r.MarkedTo r') (vaddr : UInt32) :
    r'.walkSlots space vaddr = r.walkSlots space vaddr := by
  have hsize : r'.size = r.size := size_eq_of h.size
  simp only [walkSlots]
  split
  · cases hd : space.directory with
    | none => rfl
    | some directory =>
      have hpde := h.directoryEntry (hs _ hd) vaddr
      have hslot := h.tableSlot_eq (hs _ hd) vaddr
      have hword : ((r'.directoryEntry directory vaddr).word < r'.size) =
          ((r.directoryEntry directory vaddr).word < r.size) := by
        refine propext (((hr.of_size h.size).lt_size_iff _).trans ?_)
        rw [show pageBase (r'.directoryEntry directory vaddr).word =
          pageBase (r.directoryEntry directory vaddr).word from hpde.base_eq, hsize]
        exact (hr.lt_size_iff _).symm
      simp only [hpde.present_eq, hslot, hword]
  · rfl

/-- A walk stores nothing. -/
theorem stored_walk (hs : space.Aligned) (hr : r.Paged) (vaddr : UInt32) (access : Access)
    (user : Bool) : Stored space [] r (stateOf (walk space vaddr access user r)) := by
  have hmarked := walk_markedTo vaddr access user hs r
  have hslots := marked_walk space vaddr access user r
  refine ⟨hmarked.size, fun _ _ _ => translate_markedTo hs hmarked, walkSlots_markedTo hs hr hmarked,
    fun a ha _ => ?_⟩
  refine congrArg PageEntry.word (entry_congr hslots.size fun k hk => ?_)
  rcases hslots.byte (a.toNat + k) with hb | ⟨slot, hslot, hat, -⟩
  · exact hb
  · have := ha vaddr slot hslot
    unfold Apart at this
    omega

/-- The tables say the same where the entries that are read are the same. -/
theorem tables_congr (hr : r.Paged) (hsize : r'.bytes.size = r.bytes.size)
    (h : ∀ vaddr, ∀ slot ∈ r.walkSlots space vaddr, r'.entry slot = r.entry slot) :
    (∀ vaddr access user,
        r'.translate space vaddr access user = r.translate space vaddr access user) ∧
      ∀ vaddr, r'.walkSlots space vaddr = r.walkSlots space vaddr := by
  have hsize : r'.size = r.size := size_eq_of hsize
  have hpde (hp : space.paging = true) {directory} (hd : space.directory = some directory)
      (vaddr : UInt32) : r'.directoryEntry directory vaddr = r.directoryEntry directory vaddr := by
    refine h vaddr _ ?_
    rw [walkSlots, if_pos hp, hd]
    dsimp only
    split <;> exact List.mem_cons_self ..
  refine ⟨fun vaddr access user => ?_, fun vaddr => ?_⟩
  · simp only [translate, hsize]
    split
    · rename_i hp
      cases hd : space.directory with
      | none => rfl
      | some directory =>
        dsimp only
        rw [hpde hp hd]
        split
        · rename_i hpresent
          split
          · rename_i hlt
            have hpte : r'.tableEntry directory vaddr = r.tableEntry directory vaddr := by
              rw [tableEntry, hpde hp hd]
              refine h vaddr _ ?_
              have hword := (hr.lt_size_iff (r.directoryEntry directory vaddr).word).2 hlt
              rw [walkSlots, if_pos hp, hd]
              simp [hpresent, hword]
            rw [hpte]
          · rfl
        · rfl
    · rfl
  · simp only [walkSlots, hsize]
    split
    · rename_i hp
      cases hd : space.directory with
      | none => rfl
      | some directory =>
        dsimp only
        rw [hpde hp hd]
    · rfl

/-- A word apart from the tables may be stored. -/
theorem stored_write32 (hr : r.Paged) {a : UInt32} (ha : r.SparesTables space a) (v : UInt32) :
    Stored space [a] r (r.write32 a v) := by
  obtain ⟨htranslate, hslots⟩ := tables_congr hr (size_write32 r a v) fun vaddr slot hslot =>
    entry_write32_of_apart (ha vaddr slot hslot) v
  refine ⟨size_write32 .., htranslate, hslots, fun b _ hb => ?_⟩
  have hapart := hb a (List.mem_singleton_self a)
  exact congrArg PageEntry.word (entry_write32_of_apart (Or.symm hapart) v)

end

end Ram

/-! ## Caches -/

namespace Memory

/-- Whether the caches hold no mapping but those of the tables; what the page cache remembers from
before the last change of the lookaside buffer does not count. -/
structure Agrees (space : AddressSpace) (m : Memory) : Prop where
  tlb : ∀ page mapping, m.tlb.entries[page]? = some mapping → ∀ vaddr access user,
    pageNumber vaddr = page → mapping.grants (rightOf access user) = true →
      m.ram.translate space vaddr access user = .ok mapping.frame
  path : ∀ slot write e, m.path.line slot write = some e → e.generation = m.tlb.generation →
    ∀ vaddr access user, pageNumber vaddr = e.page → rightOf access user = e.right →
      m.ram.translate space vaddr access user = .ok e.frame

/-- Memory of whole pages where the lookaside buffer and one line of the page cache agree with the
tables. -/
structure Faithful (space : AddressSpace) (slot : Slot) (write : Bool) (m : Memory) : Prop where
  aligned : space.Aligned
  paged : m.ram.Paged
  tlb : ∀ page mapping, m.tlb.entries[page]? = some mapping → ∀ vaddr access user,
    pageNumber vaddr = page → mapping.grants (rightOf access user) = true →
      m.ram.translate space vaddr access user = .ok mapping.frame
  line : ∀ e, m.path.line slot write = some e → e.generation = m.tlb.generation →
    ∀ vaddr access user, pageNumber vaddr = e.page → rightOf access user = e.right →
      m.ram.translate space vaddr access user = .ok e.frame

section
variable {space : AddressSpace} {slot : Slot} {write : Bool} {m : Memory}

theorem Agrees.faithful (h : m.Agrees space) (hs : space.Aligned) (hr : m.ram.Paged) (slot : Slot)
    (write : Bool) : m.Faithful space slot write :=
  ⟨hs, hr, h.tlb, h.path slot write⟩

namespace Faithful

/-- Without a page cache the lookaside buffer decides. -/
theorem invalidatePath (h : m.Faithful space slot write) : m.invalidatePath.Agrees space := by
  refine ⟨h.tlb, fun other write' e he => ?_⟩
  rw [show m.invalidatePath.path = m.path.invalidate from rfl, AccessPath.line_invalidate] at he
  cases he

/-- Caches agree with memory where the tables say the same. -/
theorem of_translate {ram : Ram} (h : m.Faithful space slot write)
    (hsize : ram.bytes.size = m.ram.bytes.size)
    (htranslate : ∀ vaddr access user,
      ram.translate space vaddr access user = m.ram.translate space vaddr access user) :
    Faithful space slot write { m with ram } where
  aligned := h.aligned
  paged := h.paged.of_size hsize
  tlb page mapping he vaddr access user hv hg :=
    (htranslate ..).trans (h.tlb page mapping he vaddr access user hv hg)
  line e he hgen vaddr access user hv hg :=
    (htranslate ..).trans (h.line e he hgen vaddr access user hv hg)

/-- What is stored apart from the tables does not matter to the caches. -/
theorem of_stored {stores : List UInt32} {ram : Ram} (h : m.Faithful space slot write)
    (hram : m.ram.Stored space stores ram) : Faithful space slot write { m with ram } :=
  h.of_translate hram.size hram.translate

/-- An access of the stream is answered as the tables say, and marks at most the tables. -/
theorem resolve (access : Access) (h : m.Faithful space slot access.writes) (vaddr : UInt32)
    (user : Bool) :
    let result := Memory.resolve space slot vaddr access user m
    answerOf result = m.ram.locate space vaddr access user ∧
      (stateOf result).Faithful space slot access.writes ∧
      m.ram.Stored space [] (stateOf result).ram := by
  intro result
  have hresult : Resolved space slot vaddr access user m result :=
    resolve_resolved space slot vaddr access user m
  clear_value result
  have hline {frame : UInt32} {generation : UInt64} {e : CachedPage}
      (he : (m.path.fill slot (rightOf access user) (pageNumber vaddr) frame generation).line slot
        access.writes = some e) : e = ⟨rightOf access user, pageNumber vaddr, frame, generation⟩ :=
    AccessPath.eq_of_line_fill_self he
  cases hresult with
  | @remembered frame hl =>
    have ht := h.line _ hl rfl vaddr access user rfl rfl
    exact ⟨by rw [Ram.locate, ht]; rfl, ⟨h.aligned, h.paged, h.tlb,
      fun e he => h.line e (by simpa using he)⟩, .refl space m.ram⟩
  | @found mapping hm hf =>
    obtain ⟨hentry, hg⟩ := Tlb.find?_eq_some_iff.1 hf
    have ht := h.tlb _ mapping hentry vaddr access user rfl hg
    refine ⟨by rw [Ram.locate, ht]; rfl, ⟨h.aligned, h.paged, h.tlb, fun e he _ v a u hv hr => ?_⟩,
      .refl space m.ram⟩
    obtain rfl := hline he
    exact h.tlb _ mapping hentry v a u hv (hr ▸ hg)
  | @walked mapping ram hm hf hw =>
    have hstored := m.ram.stored_walk h.aligned h.paged vaddr access user
    rw [hw, stateOf_ok] at hstored
    have ht := translate_of_walk h.aligned h.paged hw
    have hnew (v : UInt32) (a : Access) (u : Bool) (hv : pageNumber v = pageNumber vaddr)
        (hg : mapping.grants (rightOf a u) = true) :
        ram.translate space v a u = .ok mapping.frame :=
      (hstored.translate ..).trans (translate_of_grants h.aligned h.paged hw hg hv)
    refine ⟨by rw [Ram.locate, ht]; rfl, ⟨h.aligned, h.paged.of_size hstored.size,
      fun page mapping' he v a u hv hg => ?_, fun e he _ v a u hv hr => ?_⟩, hstored⟩
    · rw [stateOf_ok, Tlb.getElem?_insert, pageBase_of_walk hw] at he
      split at he
      · rename_i hpage
        obtain rfl := Option.some.inj he
        exact hnew v a u (hv.trans hpage.symm) hg
      · split at he
        · cases he
        · exact (hstored.translate ..).trans (h.tlb page mapping' he v a u hv hg)
    · obtain rfl := hline he
      exact hnew v a u hv (hr ▸ grants_of_walk hw)
  | @faulted fault ram hm hf hw =>
    have hstored := m.ram.stored_walk h.aligned h.paged vaddr access user
    rw [hw, stateOf_error] at hstored
    have ht := translate_eq_walk vaddr access user h.aligned h.paged
    rw [hw] at ht
    have hrest := h.of_stored hstored
    exact ⟨by rw [Ram.locate, ht]; rfl, ⟨hrest.aligned, hrest.paged, hrest.tlb, hrest.line⟩, hstored⟩

/-- What the tables give an address for is where an access of the stream ends. -/
theorem resolve_of_locate (access : Access) (h : m.Faithful space slot access.writes)
    {vaddr pa : UInt32} {user : Bool}
    (hpa : m.ram.locate space vaddr access user = .ok pa) :
    ∃ m', Memory.resolve space slot vaddr access user m = .ok pa m' ∧
      m'.Faithful space slot access.writes ∧ m.ram.Stored space [] m'.ram := by
  obtain ⟨hanswer, hfaithful, hstored⟩ := h.resolve access vaddr user
  rw [hpa] at hanswer
  cases hr : Memory.resolve space slot vaddr access user m with
  | error fault m' =>
    rw [hr] at hanswer
    cases hanswer
  | ok pa' m' =>
    rw [hr] at hanswer hfaithful hstored
    obtain rfl := Except.ok.inj hanswer
    exact ⟨m', rfl, hfaithful, hstored⟩

end Faithful

end

end Memory

end PagedMachine
