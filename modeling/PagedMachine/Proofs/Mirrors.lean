import PagedMachine.Proofs.Coherence
import PagedMachine.Proofs.Located

/-!
# Caches that mirror the tables

`Memory.Faithful` follows one stream of accesses. Where code and its stack are accessed in turn, what
the page cache holds for the one has to outlast accesses of the other, which begin new epochs of the
lookaside buffer: `Memory.Mirrors` says that no mapping disagrees with the tables, be it current or
dated with one of the next epochs. An access uses up one of these (`Mirrors.resolve`). If the page cache
follows the buffer, only current mappings count until generations wrap around (`Coherent.mirrors`).

What is relied on between accesses are bytes that no walk changes and no store is made to: `Ram.Keeps`.
-/

set_option autoImplicit false

namespace PagedMachine

namespace Ram

/-! ## Bytes that are kept -/

/-- Whether no walk changes byte `i`: it is not part of an entry, or has no flag to be set. -/
def Fixed (r : Ram) (space : AddressSpace) (i : Nat) : Prop :=
  ∀ vaddr, ∀ slot ∈ r.walkSlots space vaddr, slot.toNat = i → r.byte i ||| markByte .store = r.byte i

/-- `r'` is as `r` where the tables are concerned and at the bytes in `kept`. -/
structure Keeps (space : AddressSpace) (kept : Set Nat) (r r' : Ram) : Prop where
  size : r'.bytes.size = r.bytes.size
  translate : ∀ vaddr access user,
    r'.translate space vaddr access user = r.translate space vaddr access user
  walkSlots : ∀ vaddr, r'.walkSlots space vaddr = r.walkSlots space vaddr
  byte : ∀ i ∈ kept, r'.byte i = r.byte i

section
variable {space : AddressSpace} {kept kept' : Set Nat} {r r' r'' : Ram}

theorem fixed_of_not_inEntries {i : Nat} (h : ¬r.InEntries space i) : r.Fixed space i :=
  fun vaddr slot hslot hat => absurd ⟨vaddr, slot, hslot, by omega, by omega⟩ h

theorem or_mark_eq_self {x : UInt8} (h : x ||| markByte .store = x) (marks : UInt8)
    (access : Access) : x ||| (marks &&& markByte access) = x := by
  have hflags : markByte access ||| markByte .store = markByte .store := by cases access <;> rfl
  have habsorbed : markByte .store ||| (marks &&& markByte access) = markByte .store := by
    rw [← hflags]
    exact UInt8.toBitVec_inj.1 (by ext i; simp; grind)
  rw [← h, UInt8.or_assoc, habsorbed]

namespace Keeps

theorem refl (space : AddressSpace) (kept : Set Nat) (r : Ram) : Keeps space kept r r :=
  ⟨rfl, fun _ _ _ => rfl, fun _ => rfl, fun _ _ => rfl⟩

theorem trans (h : Keeps space kept r r') (h' : Keeps space kept r' r'') : Keeps space kept r r'' :=
  ⟨h'.size.trans h.size, fun v a u => (h'.translate v a u).trans (h.translate v a u),
    fun v => (h'.walkSlots v).trans (h.walkSlots v),
    fun i hi => (h'.byte i hi).trans (h.byte i hi)⟩

theorem mono (h : Keeps space kept r r') (hsub : kept' ⊆ kept) : Keeps space kept' r r' :=
  ⟨h.size, h.translate, h.walkSlots, fun i hi => h.byte i (hsub hi)⟩

theorem locate (h : Keeps space kept r r') (vaddr : UInt32) (access : Access) (user : Bool) :
    r'.locate space vaddr access user = r.locate space vaddr access user := by
  rw [Ram.locate, Ram.locate, h.translate]

theorem inEntries_iff (h : Keeps space kept r r') {i : Nat} :
    r'.InEntries space i ↔ r.InEntries space i := by
  simp only [InEntries, h.walkSlots]

theorem fixed (h : Keeps space kept r r') {i : Nat} (hi : i ∈ kept) (hfixed : r.Fixed space i) :
    r'.Fixed space i := by
  intro vaddr slot hslot hat
  rw [h.byte i hi]
  exact hfixed vaddr slot (h.walkSlots vaddr ▸ hslot) hat

/-- A read of bytes that are kept. -/
theorem read_eq (h : Keeps space kept r r') {α : Type} {n : Nat} {read : Ram → UInt32 → α}
    (hread : ReadsAt n read) {addr : UInt32} (hholds : r.holds addr n = true)
    (hkept : ∀ k < n, addr.toNat + k ∈ kept) : read r' addr = read r addr :=
  hread r' r addr (by rwa [holds, h.size]) hholds fun k hk => h.byte _ (hkept k hk)

end Keeps

/-- Where only flags are set, fixed bytes are kept. -/
theorem Preserved.keeps {access : Access} (h : Preserved space (markByte access) ∅ r r')
    (hfixed : ∀ i ∈ kept, r.Fixed space i) : Keeps space kept r r' := by
  refine ⟨h.size, h.translate, h.walkSlots, fun i hi => ?_⟩
  rcases h.byte i (Set.notMem_empty i) with hsame | ⟨vaddr, slot, hslot, hat, marks, hmarked⟩
  · exact hsame
  · rw [hmarked, or_mark_eq_self (hfixed i hi vaddr slot hslot hat)]

/-- Other bytes that are part of no entry may be stored. -/
theorem keeps_of_stores (hr : r.Paged) (hsize : r'.bytes.size = r.bytes.size) {stores : Set Nat}
    (hbyte : ∀ i, i ∉ stores → r'.byte i = r.byte i)
    (hapart : ∀ i ∈ stores, ¬r.InEntries space i ∧ i ∉ kept) : Keeps space kept r r' := by
  have h := preserved_of_stores hr 0 hsize hbyte fun i hi => (hapart i hi).1
  exact ⟨h.size, h.translate, h.walkSlots, fun i hi => hbyte i fun hmem => (hapart i hmem).2 hi⟩

end

end Ram

namespace Memory

/-! ## Caches -/

/-- Memory of whole pages whose caches hold no mapping but those of the tables. What the page cache
remembers from other epochs counts as well, if it is dated with one of the next `n`. -/
structure Mirrors (space : AddressSpace) (n : Nat) (m : Memory) : Prop where
  aligned : space.Aligned
  paged : m.ram.Paged
  tlb : ∀ page mapping, m.tlb.entries[page]? = some mapping → ∀ vaddr access user,
    pageNumber vaddr = page → mapping.grants (rightOf access user) = true →
      m.ram.translate space vaddr access user = .ok mapping.frame
  path : ∀ slot write e, m.path.line slot write = some e →
    ∀ k ≤ n, e.generation = (m.tlb.epoch + k).toUInt64 → ∀ vaddr access user,
      pageNumber vaddr = e.page → rightOf access user = e.right →
        m.ram.translate space vaddr access user = .ok e.frame

section
variable {space : AddressSpace} {m : Memory} {n : Nat}

/-- A page cache that follows the buffer has nothing that is dated with an epoch to come. -/
theorem Coherent.mirrors (h : m.Coherent) (hagrees : m.Agrees space) (hs : space.Aligned)
    (hr : m.ram.Paged) (hn : m.tlb.epoch + n < UInt64.size) : m.Mirrors space n := by
  refine ⟨hs, hr, hagrees.tlb, fun slot write e he k hk hgen => hagrees.path slot write e he ?_⟩
  obtain ⟨past, hle, hpast, -⟩ := h slot write e he
  have hepoch := congrArg UInt64.toNat (hpast.symm.trans hgen)
  rw [UInt64.toNat_ofNat_of_lt' (by omega), UInt64.toNat_ofNat_of_lt' (by omega)] at hepoch
  have hzero : k = 0 := by omega
  rw [hgen, hzero]
  rfl

namespace Mirrors

theorem mono (h : m.Mirrors space n) {n' : Nat} (hn : n' ≤ n) : m.Mirrors space n' :=
  ⟨h.aligned, h.paged, h.tlb, fun slot write e he k hk => h.path slot write e he k (hk.trans hn)⟩

/-- Caches mirror the tables as long as these say the same. -/
theorem of_keeps {kept : Set Nat} (h : m.Mirrors space n) {ram : Ram}
    (hram : m.ram.Keeps space kept ram) : Mirrors space n { m with ram } where
  aligned := h.aligned
  paged := h.paged.of_size hram.size
  tlb page mapping he vaddr access user hv hg :=
    (hram.translate ..).trans (h.tlb page mapping he vaddr access user hv hg)
  path slot write e he k hk hgen vaddr access user hv hg :=
    (hram.translate ..).trans (h.path slot write e he k hk hgen vaddr access user hv hg)

/-- The page cache may be filled with what the tables say, whatever its date. -/
theorem fill (h : m.Mirrors space n) (slot : Slot) (generation : UInt64) {right : Right}
    {page frame : UInt32} (hnew : ∀ vaddr access user, pageNumber vaddr = page →
      rightOf access user = right → m.ram.translate space vaddr access user = .ok frame) :
    Mirrors space n { m with path := m.path.fill slot right page frame generation } := by
  refine ⟨h.aligned, h.paged, h.tlb, fun other write e he k hk hgen => ?_⟩
  rcases AccessPath.line_of_line_fill he with rfl | he
  · exact hnew
  · exact h.path other write e he k hk hgen

/-- An insertion into the buffer may begin an epoch. -/
theorem insert (h : m.Mirrors space (n + 1)) {page : UInt32} {mapping : Mapping}
    (hbase : pageBase mapping.frame = mapping.frame)
    (hnew : ∀ vaddr access user, pageNumber vaddr = page →
      mapping.grants (rightOf access user) = true →
        m.ram.translate space vaddr access user = .ok mapping.frame) :
    Mirrors space n { m with tlb := m.tlb.insert page mapping } := by
  refine ⟨h.aligned, h.paged, fun other mapping' he => ?_, fun slot write e he k hk hgen => ?_⟩
  · rw [Tlb.getElem?_insert, hbase] at he
    split at he
    · rename_i hpage
      obtain rfl := Option.some.inj he
      exact hpage ▸ hnew
    · split at he
      · cases he
      · exact h.tlb other mapping' he
  · -- the epoch has advanced by one at most
    have hle := m.tlb.epoch_le_insert page mapping
    have hge := m.tlb.epoch_insert_le page mapping
    refine h.path slot write e he ((m.tlb.insert page mapping).epoch + k - m.tlb.epoch) (by omega) ?_
    rw [hgen]
    congr 1
    show (m.tlb.insert page mapping).epoch + k = m.tlb.epoch + _
    omega

variable (slot : Slot) (vaddr : UInt32) (access : Access) (user : Bool)

/-- An access is answered as the tables say and begins at most one epoch. -/
theorem resolve (h : m.Mirrors space (n + 1)) :
    let result := Memory.resolve space slot vaddr access user m
    answerOf result = m.ram.locate space vaddr access user ∧ (stateOf result).Mirrors space n := by
  intro result
  have hresult : Resolved space slot vaddr access user m result :=
    resolve_resolved space slot vaddr access user m
  clear_value result
  have hwalked : m.ram.Keeps space ∅ (stateOf (walk space vaddr access user m.ram)) :=
    (m.ram.preserved_walk h.aligned h.paged vaddr access user).keeps fun _ => False.elim
  cases hresult with
  | @remembered frame hl =>
    have ht := h.path slot access.writes _ hl 0 (Nat.zero_le _) rfl vaddr access user rfl rfl
    refine ⟨by rw [Ram.locate, ht]; rfl, h.aligned, h.paged, h.tlb, fun other write e he k hk => ?_⟩
    exact h.path other write e (by simpa using he) k (Nat.le_succ_of_le hk)
  | @found mapping hm hf =>
    obtain ⟨hentry, hg⟩ := Tlb.find?_eq_some_iff.1 hf
    have hsays := h.tlb _ mapping hentry
    have hfilled := (h.mono (Nat.le_succ n)).fill slot m.tlb.generation
      fun v a u hv hr => hsays v a u hv (hr ▸ hg)
    exact ⟨by rw [Ram.locate, hsays vaddr access user rfl hg]; rfl,
      hfilled.aligned, hfilled.paged, hfilled.tlb, hfilled.path⟩
  | @walked mapping ram hm hf hw =>
    rw [hw, stateOf_ok] at hwalked
    have hnew (v : UInt32) (a : Access) (u : Bool) (hv : pageNumber v = pageNumber vaddr)
        (hg : mapping.grants (rightOf a u) = true) :
        ram.translate space v a u = .ok mapping.frame :=
      (hwalked.translate ..).trans (translate_of_grants h.aligned h.paged hw hg hv)
    have hram := h.of_keeps hwalked
    have hmissed : Mirrors space (n + 1)
        { m with ram, tlb := { m.tlb with misses := m.tlb.misses + 1 } } :=
      ⟨hram.aligned, hram.paged, hram.tlb, hram.path⟩
    exact ⟨by rw [Ram.locate, translate_of_walk h.aligned h.paged hw]; rfl,
      (hmissed.insert (pageBase_of_walk hw) hnew).fill slot _
        fun v a u hv hr => hnew v a u hv (hr ▸ grants_of_walk hw)⟩
  | @faulted fault ram hm hf hw =>
    rw [hw, stateOf_error] at hwalked
    have ht := translate_eq_walk vaddr access user h.aligned h.paged
    rw [hw] at ht
    have hram := (h.mono (Nat.le_succ n)).of_keeps hwalked
    exact ⟨by rw [Ram.locate, ht]; rfl, hram.aligned, hram.paged, hram.tlb, hram.path⟩

variable {vaddr access user} {pa : UInt32}

/-- What the tables give an address for is where an access ends, and fixed bytes are kept. -/
theorem resolve_of_locate (h : m.Mirrors space (n + 1))
    (hpa : m.ram.locate space vaddr access user = .ok pa) {kept : Set Nat}
    (hfixed : ∀ i ∈ kept, m.ram.Fixed space i) :
    ∃ m', Memory.resolve space slot vaddr access user m = .ok pa m' ∧ m'.Mirrors space n ∧
      m.ram.Keeps space kept m'.ram := by
  obtain ⟨hanswer, hmirrors⟩ := h.resolve slot vaddr access user
  have hram := ram_resolve space slot vaddr access user m
  rw [hpa] at hanswer
  cases hr : Memory.resolve space slot vaddr access user m with
  | error fault m' =>
    rw [hr] at hanswer
    cases hanswer
  | ok pa' m' =>
    rw [hr] at hanswer hmirrors hram
    obtain rfl := Except.ok.inj hanswer
    refine ⟨m', rfl, hmirrors, ?_⟩
    rw [stateOf_ok] at hram
    rcases hram with hram | hram
    · rw [hram]
      exact .refl space kept m.ram
    · rw [hram]
      exact (m.ram.preserved_walk h.aligned h.paged vaddr access user).keeps hfixed

/-- Bytes apart from the tables may be stored where an access ends. -/
theorem store_of_locate (h : m.Mirrors space (n + 1))
    (hpa : m.ram.locate space vaddr .store user = .ok pa) {kept : Set Nat}
    (hfixed : ∀ i ∈ kept, m.ram.Fixed space i) {size : Nat} {fn : Ram → Ram}
    (hsize : ∀ r, (fn r).bytes.size = r.bytes.size)
    (hbyte : ∀ r i, (i < pa.toNat ∨ pa.toNat + size ≤ i) → (fn r).byte i = r.byte i)
    (hapart : ∀ k < size, ¬m.ram.InEntries space (pa.toNat + k) ∧ pa.toNat + k ∉ kept) :
    ∃ m', Memory.resolve space slot vaddr .store user m = .ok pa m' ∧
      (m'.mapRam fn).Mirrors space n ∧ m.ram.Keeps space kept (fn m'.ram) ∧
      m'.ram.bytes.size = m.ram.bytes.size := by
  obtain ⟨m', hresolve, hmirrors, hkept⟩ := h.resolve_of_locate slot hpa hfixed
  let stores : Set Nat := {i | pa.toNat ≤ i ∧ i < pa.toNat + size}
  have houtside (i : Nat) (hi : i ∉ stores) : (fn m'.ram).byte i = m'.ram.byte i := by
    refine hbyte _ i ?_
    rw [Set.mem_ofPred_eq] at hi
    omega
  have hinside (i : Nat) (hi : i ∈ stores) : ¬m'.ram.InEntries space i ∧ i ∉ kept := by
    obtain ⟨hle, hlt⟩ := hi
    obtain ⟨hentries, hnot⟩ := hapart (i - pa.toNat) (by omega)
    rw [Nat.add_sub_cancel' hle] at hentries hnot
    exact ⟨fun hin => hentries (hkept.inEntries_iff.1 hin), hnot⟩
  have hstored := Ram.keeps_of_stores hmirrors.paged (hsize _) houtside hinside
  exact ⟨m', hresolve, hmirrors.of_keeps hstored, hkept.trans hstored, hkept.size⟩

end Mirrors

end

end Memory

end PagedMachine
