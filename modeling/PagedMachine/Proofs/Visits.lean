import PagedMachine.Memory.Lemmas

/-!
# What walks leave in memory

A walk reads the entries at `Ram.walkSlots`. All that it changes are accessed and dirty bits there
(`marked_walk`), and so it is for any number of walks (`Ram.marked_walked`), as the caches ask for
(`Memory.Consulted`). A word elsewhere may be written before the walk or after it (`walk_write32`).
-/

set_option autoImplicit false

namespace PagedMachine

namespace Ram

/-- Where the entries lie that a walk for `vaddr` reads. -/
def walkSlots (r : Ram) (space : AddressSpace) (vaddr : UInt32) : List UInt32 :=
  if space.paging then
    match space.directory with
    | none => []
    | some directory =>
      let pde := r.directoryEntry directory vaddr
      if pde.present && pde.word < r.size then
        [PageEntry.directorySlot directory vaddr, PageEntry.tableSlot pde vaddr]
      else [PageEntry.directorySlot directory vaddr]
  else []

/-- Memory after walks for some addresses, each with what it is used for. -/
def walked (r : Ram) (space : AddressSpace) (user : Bool) : (visits : List (UInt32 × Access)) → Ram
  | [] => r
  | (vaddr, access) :: rest => (stateOf (walk space vaddr access user r)).walked space user rest

/-- Where the entries lie that these walks read. -/
def visited (r : Ram) (space : AddressSpace) (user : Bool) :
    (visits : List (UInt32 × Access)) → List UInt32
  | [] => []
  | (vaddr, access) :: rest =>
    r.walkSlots space vaddr ++ (stateOf (walk space vaddr access user r)).visited space user rest

/-- `r'` is `r` but for accessed and dirty bits of the entries at `slots`. -/
structure Marked (slots : List UInt32) (r r' : Ram) : Prop where
  size : r'.bytes.size = r.bytes.size
  byte : ∀ i, r'.byte i = r.byte i ∨
    ∃ slot ∈ slots, slot.toNat = i ∧ ∃ marks, r'.byte i = r.byte i ||| (marks &&& 0x60)

/-! ## Marks, byte by byte -/

/-- The bits of an access, in the lowest byte of its entry. -/
def markByte (access : Access) : UInt8 := if access.writes then 0x60 else 0x20

theorem marked_word (e : PageEntry) (access : Access) :
    (e.marked access).word = e.word ||| (markByte access).toUInt32 := by
  rw [PageEntry.marked, UInt32.or_assoc]
  cases access <;> rfl

/-- A mark shows in the lowest byte of its entry only. -/
theorem byte_mark (r : Ram) (addr : UInt32) (access : Access) (i : Nat) :
    (r.mark addr access).byte i = r.byte i ∨
      addr.toNat = i ∧ (r.mark addr access).byte i = r.byte i ||| markByte access := by
  rw [mark]
  split
  · by_cases hh : r.holds addr 4 = true
    · have hw : ((r.entry addr).marked access).word =
          Bytes.le32 (r.byte addr.toNat) (r.byte (addr.toNat + 1)) (r.byte (addr.toNat + 2))
            (r.byte (addr.toNat + 3)) ||| (markByte access).toUInt32 := by
        rw [marked_word, entry, read32, if_pos hh, word]
      obtain ⟨h0, h1, h2, h3⟩ := Bytes.byteOf32_le32_or (r.byte addr.toNat)
        (r.byte (addr.toNat + 1)) (r.byte (addr.toNat + 2)) (r.byte (addr.toNat + 3))
        (markByte access)
      rw [byte_write32 hh, hw]
      split
      · rename_i hi
        obtain ⟨k, rfl⟩ := Nat.exists_eq_add_of_le hi.1
        rw [Nat.add_sub_cancel_left]
        obtain rfl | rfl | rfl | rfl : k = 0 ∨ k = 1 ∨ k = 2 ∨ k = 3 := by omega
        · exact .inr ⟨rfl, h0⟩
        · exact .inl h1
        · exact .inl h2
        · exact .inl h3
      · exact .inl rfl
    · rw [write32, if_neg hh]
      exact .inl rfl
  · exact .inl rfl

namespace Marked

variable {r r' r'' : Ram} {slots slots' : List UInt32}

theorem refl (r : Ram) : Marked [] r r := ⟨rfl, fun _ => .inl rfl⟩

theorem mono (h : Marked slots r r') (hs : slots ⊆ slots') : Marked slots' r r' := by
  refine ⟨h.size, fun i => ?_⟩
  rcases h.byte i with hi | ⟨slot, hslot, hi⟩
  · exact .inl hi
  · exact .inr ⟨slot, hs hslot, hi⟩

theorem trans (h : Marked slots r r') (h' : Marked slots' r' r'') :
    Marked (slots ++ slots') r r'' := by
  refine ⟨h'.size.trans h.size, fun i => ?_⟩
  rcases h.byte i with hi | ⟨slot, hslot, hat, x, hx⟩
  · rcases h'.byte i with hi' | ⟨slot, hslot, hat, y, hy⟩
    · exact .inl (hi'.trans hi)
    · exact .inr ⟨slot, List.mem_append_right _ hslot, hat, y, by rw [hy, hi]⟩
  · rcases h'.byte i with hi' | ⟨-, -, -, y, hy⟩
    · exact .inr ⟨slot, List.mem_append_left _ hslot, hat, x, hi'.trans hx⟩
    · have hor : (x &&& 0x60) ||| (y &&& 0x60) = (x ||| y) &&& 0x60 :=
        UInt8.toBitVec_inj.1 BitVec.and_or_distrib_right.symm
      exact .inr ⟨slot, List.mem_append_left _ hslot, hat, x ||| y, by
        rw [hy, hx, UInt8.or_assoc, hor]⟩

/-- The bytes of a word that is not among those entries stay. -/
theorem byte_eq (h : Marked slots r r') (hs : ∀ slot ∈ slots, slot.toNat % 4 = 0) {e : UInt32}
    (he : e.toNat % 4 = 0) (hnot : e ∉ slots) {k : Nat} (hk : k < 4) :
    r'.byte (e.toNat + k) = r.byte (e.toNat + k) := by
  rcases h.byte (e.toNat + k) with hb | ⟨slot, hslot, hat, -⟩
  · exact hb
  · have hmod := hs slot hslot
    have heq : slot = e := UInt32.toNat_inj.1 (by omega)
    exact absurd (heq ▸ hslot) hnot

end Marked

theorem aligned_walkSlots {r : Ram} {space : AddressSpace} {vaddr slot : UInt32}
    (hs : ∀ directory, space.directory = some directory → directory.toNat % 4 = 0)
    (h : slot ∈ r.walkSlots space vaddr) : slot.toNat % 4 = 0 := by
  rw [walkSlots] at h
  split at h
  · cases hd : space.directory with
    | none =>
      rw [hd] at h
      cases h
    | some directory =>
      rw [hd] at h
      have hdir := PageEntry.directorySlot_aligned (hs directory hd) vaddr
      dsimp only at h
      split at h
      · rcases List.mem_cons.1 h with rfl | h
        · exact hdir
        · obtain rfl := List.mem_singleton.1 h
          exact PageEntry.tableSlot_aligned _ vaddr
      · obtain rfl := List.mem_singleton.1 h
        exact hdir
  · cases h

theorem marked_mark (r : Ram) (addr : UInt32) (access : Access) :
    Marked [addr] r (r.mark addr access) := by
  refine ⟨bytes_size_mark r addr access, fun i => ?_⟩
  rcases byte_mark r addr access i with h | ⟨hat, h⟩
  · exact .inl h
  · refine .inr ⟨addr, List.mem_singleton_self addr, hat, markByte access, ?_⟩
    rw [h]
    cases access <;> rfl

end Ram

section
variable (space : AddressSpace) (vaddr : UInt32) (access : Access) (user : Bool)

/-- A walk marks some of the entries that it reads. -/
theorem marked_walk (r : Ram) :
    Ram.Marked (r.walkSlots space vaddr) r (stateOf (walk space vaddr access user r)) := by
  by_cases h : space.paging = true
  · cases hd : space.directory with
    | none =>
      rw [walk_of_no_directory h hd, Ram.walkSlots, if_pos h, hd]
      exact .refl r
    | some directory =>
      have h1 := r.marked_mark (PageEntry.directorySlot directory vaddr) .load
      rw [walk_of_directory h hd, bind_apply, walkDirectory_apply, Ram.walkSlots, if_pos h, hd]
      dsimp only
      by_cases hp : (r.directoryEntry directory vaddr).present = true
      · by_cases hw : (r.directoryEntry directory vaddr).word < r.size
        · have h2 := h1.trans
            (Ram.marked_mark _ (PageEntry.tableSlot (r.directoryEntry directory vaddr) vaddr) access)
          simp only [hp, hw, walkTable_apply, if_true, decide_true, Bool.and_self]
          split
          · split
            · exact h2
            · exact h2
          · exact h1.mono (List.subset_append_left _ _)
        · simp only [hp, hw, if_true, if_false, decide_false, Bool.and_false, Bool.false_eq_true]
          exact h1
      · simp only [hp, if_false, Bool.false_and, Bool.false_eq_true]
        exact (Ram.Marked.refl r).mono (List.nil_subset _)
  · rw [stateOf_walk_of_not_paging _ _ _ (by simpa using h), Ram.walkSlots, if_neg h]
    exact .refl r

end

/-- Walks leave nothing but accessed and dirty bits in the entries that they read. -/
theorem Ram.marked_walked (space : AddressSpace) (user : Bool) (visits : List (UInt32 × Access))
    (r : Ram) : Marked (r.visited space user visits) r (r.walked space user visits) := by
  induction visits generalizing r with
  | nil => exact .refl r
  | cons visit rest ih => exact (marked_walk space visit.1 visit.2 user r).trans (ih _)

theorem Ram.walked_append (space : AddressSpace) (user : Bool) (first rest : List (UInt32 × Access))
    (r : Ram) :
    r.walked space user (first ++ rest) = (r.walked space user first).walked space user rest := by
  induction first generalizing r with
  | nil => rfl
  | cons visit first ih => exact ih _

/-! ## Memories that walks do not tell apart -/

/-- What a relation of memories needs so that walks keep it which only read entries at `ok` places. -/
structure Ram.Related (R : Ram → Ram → Prop) (ok : UInt32 → Prop) : Prop where
  size {r r' : Ram} : R r r' → r'.size = r.size
  entry {r r' : Ram} {e : UInt32} : R r r' → ok e → r'.entry e = r.entry e
  mark {r r' : Ram} {e : UInt32} (access : Access) : R r r' → ok e →
    R (r.mark e access) (r'.mark e access)

/-- The second level of a walk. -/
theorem Ram.Related.walkTable {R : Ram → Ram → Prop} {ok : UInt32 → Prop} (hR : Ram.Related R ok)
    {pde : PageEntry} {vaddr : UInt32} {r r' : Ram} (h : R r r')
    (hok : ok (PageEntry.tableSlot pde vaddr)) (access : Access) (user : Bool) :
    answerOf (walkTable pde vaddr access user r') = answerOf (walkTable pde vaddr access user r) ∧
      R (stateOf (walkTable pde vaddr access user r))
        (stateOf (walkTable pde vaddr access user r')) := by
  have hmark := hR.mark access h hok
  rw [walkTable_apply, walkTable_apply]
  dsimp only
  rw [hR.entry h hok, hR.size h]
  split
  · split
    · exact ⟨rfl, hmark⟩
    · exact ⟨rfl, hmark⟩
  · exact ⟨rfl, h⟩

/-- A walk ends alike, and leaves related memories. -/
theorem Ram.Related.walk {R : Ram → Ram → Prop} {ok : UInt32 → Prop} (hR : Ram.Related R ok)
    {space : AddressSpace} {vaddr : UInt32} {r r' : Ram} (h : R r r')
    (hok : ∀ slot ∈ r.walkSlots space vaddr, ok slot) (access : Access) (user : Bool) :
    answerOf (walk space vaddr access user r') = answerOf (walk space vaddr access user r) ∧
      R (stateOf (walk space vaddr access user r)) (stateOf (walk space vaddr access user r')) := by
  by_cases hp : space.paging = true
  · cases hd : space.directory with
    | none =>
      rw [walk_of_no_directory hp hd, walk_of_no_directory hp hd]
      exact ⟨rfl, h⟩
    | some directory =>
      rw [Ram.walkSlots, if_pos hp, hd] at hok
      have hdir : ok (PageEntry.directorySlot directory vaddr) := by
        dsimp only at hok
        split at hok <;> exact hok _ (List.mem_cons_self ..)
      have hpde : r'.directoryEntry directory vaddr = r.directoryEntry directory vaddr :=
        hR.entry h hdir
      have hmark := hR.mark .load h hdir
      rw [walk_of_directory hp hd, bind_apply, bind_apply, walkDirectory_apply, walkDirectory_apply,
        hpde, hR.size h]
      by_cases hpresent : (r.directoryEntry directory vaddr).present = true
      · rw [if_pos hpresent, if_pos hpresent]
        by_cases hw : (r.directoryEntry directory vaddr).word < r.size
        · rw [if_pos hw, if_pos hw]
          refine hR.walkTable hmark (hok _ ?_) access user
          simp [hpresent, hw]
        · rw [if_neg hw, if_neg hw]
          exact ⟨rfl, hmark⟩
      · rw [if_neg hpresent, if_neg hpresent]
        exact ⟨rfl, h⟩
  · have hoff : space.paging = false := by simpa using hp
    rw [walk_of_not_paging hoff, walk_of_not_paging hoff, hR.size h]
    split <;> exact ⟨rfl, h⟩

namespace Memory

/-! ## Behind the caches -/

/-- All that happened to the bytes of `m` until `m'` are walks, one for each miss of the buffer. -/
def Consulted (space : AddressSpace) (user : Bool) (m m' : Memory) : Prop :=
  ∃ visits, m'.ram = m.ram.walked space user visits ∧
    m'.tlb.misses = m.tlb.misses + visits.length

section
variable {space : AddressSpace} {user : Bool} {m m' m'' : Memory}

theorem Consulted.refl (space : AddressSpace) (user : Bool) (m : Memory) :
    Consulted space user m m :=
  ⟨[], rfl, rfl⟩

theorem Consulted.trans (h : Consulted space user m m') (h' : Consulted space user m' m'') :
    Consulted space user m m'' := by
  obtain ⟨first, hram, hmiss⟩ := h
  obtain ⟨rest, hram', hmiss'⟩ := h'
  refine ⟨first ++ rest, ?_, ?_⟩
  · rw [hram', hram, Ram.walked_append]
  · rw [hmiss', hmiss, List.length_append, Nat.add_assoc]

/-- Resolving an address is a walk or none. -/
theorem consulted_resolve (space : AddressSpace) (slot : Slot) (vaddr : UInt32) (access : Access)
    (user : Bool) (m : Memory) :
    Consulted space user m (stateOf (resolve space slot vaddr access user m)) := by
  have hresult := resolve_resolved space slot vaddr access user m
  generalize resolve space slot vaddr access user m = result at hresult
  cases hresult with
  | remembered hl => exact .refl space user m
  | found hm hf => exact ⟨[], rfl, rfl⟩
  | walked hm hf hw =>
    refine ⟨[(vaddr, access)], ?_, Tlb.misses_insert ..⟩
    simp only [Ram.walked, hw, stateOf_ok]
  | faulted hm hf hw =>
    refine ⟨[(vaddr, access)], ?_, rfl⟩
    simp only [Ram.walked, hw, stateOf_error]

/-- Resolving an address does not change the size of memory. -/
theorem size_resolve (space : AddressSpace) (slot : Slot) (vaddr : UInt32) (access : Access)
    (user : Bool) (m : Memory) :
    (stateOf (resolve space slot vaddr access user m)).ram.bytes.size = m.ram.bytes.size := by
  rcases ram_resolve space slot vaddr access user m with hr | hr
  · rw [hr]
  · rw [hr, (marked_walk space vaddr access user m.ram).size]

theorem Consulted.holds (h : Consulted space user m m') (addr : UInt32) (len : Nat) :
    m'.ram.holds addr len = m.ram.holds addr len := by
  obtain ⟨visits, hram, -⟩ := h
  rw [Ram.holds, Ram.holds, hram, (Ram.marked_walked space user visits m.ram).size]

/-- So does resolving an address; the caches are alike before and after. -/
theorem resolve_related {R : Ram → Ram → Prop} {ok : UInt32 → Prop} (hR : Ram.Related R ok)
    {vaddr : UInt32} {ram : Ram} (h : R m.ram ram)
    (hok : ∀ entry ∈ m.ram.walkSlots space vaddr, ok entry) (slot : Slot) (access : Access) :
    ∃ ram', R (stateOf (resolve space slot vaddr access user m)).ram ram' ∧
      resolve space slot vaddr access user { m with ram } =
        mapState ({ · with ram := ram' }) (resolve space slot vaddr access user m) := by
  obtain ⟨hanswer, hstate⟩ := hR.walk h hok access user
  obtain ⟨r, tlb, path⟩ := m
  simp only [resolve]
  cases path.probe slot ⟨user, access.writes⟩ (pageNumber vaddr) tlb.generation with
  | mk frame path =>
    cases frame with
    | some frame => exact ⟨ram, h, rfl⟩
    | none =>
      dsimp only
      cases tlb.lookup ⟨user, access.writes⟩ (pageNumber vaddr) with
      | mk mapping tlb =>
        cases mapping with
        | some mapping => exact ⟨ram, h, rfl⟩
        | none =>
          dsimp only
          refine ⟨stateOf (walk space vaddr access user ram), ?_, ?_⟩
          · cases hw : walk space vaddr access user r <;> rwa [hw] at hstate
          · cases hw : walk space vaddr access user r with
            | ok mapping r₁ =>
              cases hw' : walk space vaddr access user ram with
              | ok mapping' r₂ =>
                rw [hw, hw'] at hanswer
                obtain rfl := Except.ok.inj hanswer
                rfl
              | error fault r₂ =>
                rw [hw, hw'] at hanswer
                cases hanswer
            | error fault r₁ =>
              cases hw' : walk space vaddr access user ram with
              | ok mapping r₂ =>
                rw [hw, hw'] at hanswer
                cases hanswer
              | error fault' r₂ =>
                rw [hw, hw'] at hanswer
                obtain rfl := Except.error.inj hanswer
                rfl

end

end Memory

/-! ## Words elsewhere -/

namespace Ram

/-- Whether the words at two addresses do not overlap. -/
def Apart (a b : UInt32) : Prop := a.toNat + 4 ≤ b.toNat ∨ b.toNat + 4 ≤ a.toNat

theorem entry_write32_of_apart {r : Ram} {a e : UInt32} (h : Apart e a) (v : UInt32) :
    (r.write32 a v).entry e = r.entry e := by
  refine entry_congr (size_write32 ..) fun k hk => byte_write32_of_disjoint ?_ v
  rcases h with h | h <;> omega

/-- A write apart from entries has no part in them. -/
theorem related_write32 (a v : UInt32) :
    Related (fun r r' => r' = r.write32 a v) fun e => Apart e a where
  size h := by
    rw [h]
    exact size_eq_of (size_write32 ..)
  entry h he := by
    rw [h]
    exact entry_write32_of_apart he v
  mark access h he := by
    rw [h, mark, mark, entry_write32_of_apart he]
    split
    · exact (write32_comm he _ _ v).symm
    · rfl

end Ram

/-- A word apart from the entries of an address may be written before it is resolved or after. -/
theorem Memory.resolve_write32 {space : AddressSpace} {user : Bool} {m : Memory} {vaddr a : UInt32}
    (h : ∀ entry ∈ m.ram.walkSlots space vaddr, Ram.Apart entry a) (v : UInt32) (slot : Slot)
    (access : Access) :
    resolve space slot vaddr access user (m.mapRam (·.write32 a v)) =
      mapState (mapRam (·.write32 a v)) (resolve space slot vaddr access user m) := by
  obtain ⟨ram, hram, heq⟩ := resolve_related (Ram.related_write32 a v) rfl h slot access
  refine heq.trans ?_
  cases hr : resolve space slot vaddr access user m <;> rw [hr] at hram <;> subst hram <;> rfl

end PagedMachine
