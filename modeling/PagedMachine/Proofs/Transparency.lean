import PagedMachine.Memory.Lemmas
import PagedMachine.Proofs.Translation

/-!
# The caches are transparent

A memory with empty caches serves any operations as one without caches does, which walks the tables
on every access: the same addresses, the same faults, the same bytes after each (`replies_flush`).
Between two accesses anything may be written but the tables. The invariant is `Memory.Trusted`: every
cached mapping is `Settled`, so that the walk it saves would give its frame and write nothing.
-/

set_option autoImplicit false

namespace PagedMachine

/-! ## Memory without caches -/

/-- The physical address of `vaddr`, by a walk. -/
def Ram.resolve (space : AddressSpace) (vaddr : UInt32) (access : Access) (user : Bool) :
    EStateM Fault Ram UInt32 := do
  let mapping ← walk space vaddr access user
  return mapping.frame ||| pageOffset vaddr

theorem Ram.resolve_apply (space : AddressSpace) (vaddr : UInt32) (access : Access) (user : Bool)
    (r : Ram) :
    r.resolve space vaddr access user =
      match walk space vaddr access user r with
      | .ok mapping r' => .ok (mapping.frame ||| pageOffset vaddr) r'
      | .error fault r' => .error fault r' := by
  rw [Ram.resolve, bind_apply]
  cases walk space vaddr access user r <;> rfl

/-- Something that is done to memory while one space is in use. -/
inductive MemoryOp
  | resolve (slot : Slot) (vaddr : UInt32) (access : Access) (user : Bool)
  /-- Bytes are written. -/
  | change (fn : Ram → Ram)

/-- The answer to an access and memory after it. -/
structure Reply where
  vaddr : UInt32
  access : Access
  answer : Except Fault UInt32
  ram : Ram

/-- The replies of a memory with caches. -/
def Memory.replies (space : AddressSpace) : List MemoryOp → Memory → List Reply
  | [], _ => []
  | .resolve slot vaddr access user :: ops, m =>
    let result := Memory.resolve space slot vaddr access user m
    ⟨vaddr, access, answerOf result, (stateOf result).ram⟩ ::
      replies space ops (stateOf result)
  | .change fn :: ops, m => replies space ops (m.mapRam fn)

/-- The replies of a memory that walks the tables on every access. -/
def Ram.replies (space : AddressSpace) : List MemoryOp → Ram → List Reply
  | [], _ => []
  | .resolve _ vaddr access user :: ops, r =>
    let result := Ram.resolve space vaddr access user r
    ⟨vaddr, access, answerOf result, stateOf result⟩ :: replies space ops (stateOf result)
  | .change fn :: ops, r => replies space ops (fn r)

/-- `r'` has the directory of `r` and the tables that its present entries name. -/
structure Ram.SameTables (space : AddressSpace) (r r' : Ram) : Prop where
  size : r'.bytes.size = r.bytes.size
  directory : space.paging = true → ∀ d, space.directory = some d → ∀ vaddr,
    r'.directoryEntry d vaddr = r.directoryEntry d vaddr
  table : space.paging = true → ∀ d, space.directory = some d → ∀ vaddr,
    (r.directoryEntry d vaddr).present = true → r'.tableEntry d vaddr = r.tableEntry d vaddr

/-- Whether only walks write to the tables, from memory `r` on. -/
def Ram.KeepsTables (space : AddressSpace) : List MemoryOp → Ram → Prop
  | [], _ => True
  | .resolve _ vaddr access user :: ops, r =>
    KeepsTables space ops (stateOf (r.resolve space vaddr access user))
  | .change fn :: ops, r => r.SameTables space (fn r) ∧ KeepsTables space ops (fn r)

section
variable {space : AddressSpace} {slot : Slot} {vaddr : UInt32} {access : Access} {user : Bool}

theorem stateOf_resolve (r : Ram) :
    stateOf (r.resolve space vaddr access user) = stateOf (walk space vaddr access user r) := by
  rw [Ram.resolve_apply]
  cases walk space vaddr access user r <;> rfl

/-- What is settled of an address depends on its two entries only. -/
theorem Ram.Settled.congr {r r' : Ram} {frame : UInt32} (h : r.Settled space vaddr access user frame)
    (hsize : r'.bytes.size = r.bytes.size)
    (hentries : space.paging = true → ∀ d, space.directory = some d →
      (r.directoryEntry d vaddr).present = true → (r.directoryEntry d vaddr).base < r.size →
        r'.directoryEntry d vaddr = r.directoryEntry d vaddr ∧
          r'.tableEntry d vaddr = r.tableEntry d vaddr) :
    r'.Settled space vaddr access user frame := by
  have hsize : r'.size = r.size := Ram.size_eq_of hsize
  obtain ⟨ht, hn⟩ := h
  cases hp : space.paging with
  | false =>
    refine ⟨(translate_of_not_paging_eq_ok_iff hp).2 ?_, fun hp' => by simp [hp] at hp'⟩
    rw [hsize]
    exact (translate_of_not_paging_eq_ok_iff hp).1 ht
  | true =>
    obtain ⟨directory, hd⟩ := directory_of_translate ht hp
    have hok := (translate_eq_ok_iff hp hd).1 ht
    obtain ⟨hdir, htab⟩ := hentries hp directory hd hok.1 hok.2.1
    refine ⟨(translate_eq_ok_iff hp hd).2 (by rwa [hsize, hdir, htab]), fun _ d hd' => ?_⟩
    rw [hd] at hd'
    obtain rfl := Option.some.inj hd'
    rw [hdir, htab]
    exact hn hp directory hd

theorem Ram.SameTables.settled {r r' : Ram} (h : r.SameTables space r') {frame : UInt32}
    (hr : r.Settled space vaddr access user frame) : r'.Settled space vaddr access user frame :=
  hr.congr h.size fun hp d hd hpresent _ =>
    ⟨h.directory hp d hd vaddr, h.table hp d hd vaddr hpresent⟩

theorem Ram.SameTables.paged {r r' : Ram} (h : r.SameTables space r') (hr : r.Paged) :
    r'.Paged := by
  rw [Ram.Paged, h.size]
  exact hr

/-! ## Caches that can be trusted -/

/-- Every cached mapping of these pages is what the tables say, and is noted in them. -/
structure Memory.TrustedOn (pages : UInt32 → Prop) (space : AddressSpace) (m : Memory) : Prop where
  tlb : ∀ page mapping, pages page → m.tlb.entries[page]? = some mapping → ∀ vaddr access user,
    pageNumber vaddr = page → mapping.grants (rightOf access user) = true →
      m.ram.Settled space vaddr access user mapping.frame
  path : ∀ slot write e, pages e.page → m.path.line slot write = some e → ∀ vaddr access user,
    pageNumber vaddr = e.page → rightOf access user = e.right →
      m.ram.Settled space vaddr access user e.frame

/-- Every cached mapping is what the tables say, and is noted in them. -/
def Memory.Trusted (space : AddressSpace) (m : Memory) : Prop := m.TrustedOn (fun _ => True) space

namespace Memory

variable {m : Memory} {pages : UInt32 → Prop}

/-- Nothing is cached. -/
theorem trustedOn_of_empty (htlb : ∀ page : UInt32, m.tlb.entries[page]? = none)
    (hpath : ∀ slot write, m.path.line slot write = none) : m.TrustedOn pages space := by
  refine ⟨fun page mapping _ h => ?_, fun slot write e _ h => ?_⟩
  · rw [htlb] at h
    cases h
  · rw [hpath] at h
    cases h

theorem trustedOn_flush (m : Memory) : m.flush.TrustedOn pages space :=
  trustedOn_of_empty (by simp [flush, Tlb.flush]) (by simp [flush])

theorem trusted_flush (m : Memory) : m.flush.Trusted space := m.trustedOn_flush

/-- Trust outlasts every change of memory that keeps what is settled of the pages that are cached. -/
theorem TrustedOn.of_settled {ram : Ram} (h : m.TrustedOn pages space)
    (hr : ∀ vaddr access user frame, m.ram.Settled space vaddr access user frame →
      ram.Settled space vaddr access user frame) : TrustedOn pages space { m with ram } :=
  ⟨fun page mapping hp he _ _ _ hv hg => hr _ _ _ _ (h.tlb page mapping hp he _ _ _ hv hg),
    fun slot write e hp he _ _ _ hv hg => hr _ _ _ _ (h.path slot write e hp he _ _ _ hv hg)⟩

/-- Counting accesses keeps trust. -/
theorem TrustedOn.of_entries {tlb : Tlb} (h : m.TrustedOn pages space)
    (he : tlb.entries = m.tlb.entries) : TrustedOn pages space { m with tlb } :=
  ⟨fun page mapping hp hm => h.tlb page mapping hp (he ▸ hm), h.path⟩

/-- A page may be put into the page cache if its mapping is settled. -/
theorem TrustedOn.fill {right : Right} {page frame : UInt32} {generation : UInt64}
    (h : m.TrustedOn pages space)
    (hr : pages page → ∀ vaddr access user, pageNumber vaddr = page →
      rightOf access user = right → m.ram.Settled space vaddr access user frame) :
    TrustedOn pages space { m with path := m.path.fill slot right page frame generation } := by
  refine ⟨h.tlb, fun other write e hp he vaddr access user hv hg => ?_⟩
  rcases AccessPath.line_of_line_fill he with rfl | he
  · exact hr hp vaddr access user hv hg
  · exact h.path other write e hp he vaddr access user hv hg

/-- A mapping may be put into the lookaside buffer if it is settled. -/
theorem TrustedOn.insert {page : UInt32} {mapping : Mapping} (h : m.TrustedOn pages space)
    (hb : pageBase mapping.frame = mapping.frame)
    (hr : ∀ vaddr access user, pageNumber vaddr = page →
      mapping.grants (rightOf access user) = true →
        m.ram.Settled space vaddr access user mapping.frame) :
    TrustedOn pages space { m with tlb := m.tlb.insert page mapping } := by
  refine ⟨fun other mapping' hp he vaddr access user hv hg => ?_, h.path⟩
  rw [Tlb.getElem?_insert] at he
  split at he
  · rename_i hpage
    obtain rfl := Option.some.inj he
    rw [hb]
    exact hr vaddr access user (hv.trans hpage.symm) hg
  · split at he
    · cases he
    · exact h.tlb other mapping' hp he vaddr access user hv hg

/-- A cache answers for the pages where it can be trusted as a walk does, and can be trusted there
after any access. -/
theorem TrustedOn.resolve (slot : Slot) (vaddr : UInt32) (access : Access) (user : Bool)
    (hs : space.Aligned) (hr : m.ram.Paged) (h : m.TrustedOn pages space) :
    let result := Memory.resolve space slot vaddr access user m
    (stateOf result).TrustedOn pages space ∧ (pages (pageNumber vaddr) →
      answerOf result = answerOf (m.ram.resolve space vaddr access user) ∧
        (stateOf result).ram = stateOf (m.ram.resolve space vaddr access user)) := by
  intro result
  have hresult : Resolved space slot vaddr access user m result :=
    resolve_resolved space slot vaddr access user m
  clear_value result
  rw [Ram.resolve_apply]
  cases hresult with
  | @remembered frame hl =>
    refine ⟨⟨h.tlb, fun other write e hp he => h.path other write e hp (by simpa using he)⟩,
      fun hp => ?_⟩
    have hset := h.path slot access.writes _ hp hl vaddr access user rfl rfl
    obtain ⟨mapping, hw, rfl⟩ := walk_of_settled hs hr hset
    rw [hw]
    exact ⟨rfl, rfl⟩
  | @found mapping hm hf =>
    obtain ⟨he, hg⟩ := Tlb.find?_eq_some_iff.1 hf
    have hcount : TrustedOn pages space { m with tlb := { m.tlb with hits := m.tlb.hits + 1 } } :=
      h.of_entries rfl
    refine ⟨hcount.fill fun hp v a u hv hright => h.tlb _ mapping hp he v a u hv (hright ▸ hg),
      fun hp => ?_⟩
    obtain ⟨mapping', hw, hframe⟩ :=
      walk_of_settled hs hr (h.tlb _ mapping hp he vaddr access user rfl hg)
    rw [hw]
    exact ⟨by simp [hframe], rfl⟩
  | @walked mapping ram hm hf hw =>
    rw [hw]
    have hmark := walk_markedTo vaddr access user hs m.ram
    rw [hw] at hmark
    have hnew (v : UInt32) (a : Access) (u : Bool) (hv : pageNumber v = pageNumber vaddr)
        (hg : mapping.grants (rightOf a u) = true) : ram.Settled space v a u mapping.frame :=
      settled_of_walk hs hr hw hg hv
    have hold : TrustedOn pages space
        { m with ram, tlb := { m.tlb with misses := m.tlb.misses + 1 } } :=
      (h.of_settled fun _ _ _ _ hset => hset.markedTo hs hmark).of_entries rfl
    refine ⟨(hold.insert (pageBase_of_walk hw) hnew).fill fun _ v a u hv hright => ?_,
      fun _ => ⟨rfl, rfl⟩⟩
    exact hnew v a u hv (hright ▸ grants_of_walk hw)
  | @faulted fault ram hm hf hw =>
    rw [hw]
    have hmark := walk_markedTo vaddr access user hs m.ram
    rw [hw] at hmark
    exact ⟨(h.of_settled fun _ _ _ _ hset => hset.markedTo hs hmark).of_entries rfl,
      fun _ => ⟨rfl, rfl⟩⟩

/-- A trusted cache answers as a walk does, and can be trusted afterwards. -/
theorem Trusted.resolve (slot : Slot) (vaddr : UInt32) (access : Access) (user : Bool)
    (hs : space.Aligned) (hr : m.ram.Paged) (h : m.Trusted space) :
    let result := Memory.resolve space slot vaddr access user m
    answerOf result = answerOf (m.ram.resolve space vaddr access user) ∧
      (stateOf result).ram = stateOf (m.ram.resolve space vaddr access user) ∧
      (stateOf result).Trusted space := by
  obtain ⟨htrust, hsame⟩ := TrustedOn.resolve slot vaddr access user hs hr h
  exact ⟨(hsame trivial).1, (hsame trivial).2, htrust⟩

end Memory

/-! ## Whole runs -/

theorem paged_resolve (hs : space.Aligned) {r : Ram} (hr : r.Paged) :
    (stateOf (r.resolve space vaddr access user)).Paged := by
  have h := (walk_markedTo vaddr access user hs r).size
  rw [← stateOf_resolve] at h
  rwa [Ram.Paged, h]

theorem Memory.Trusted.replies (hs : space.Aligned) {ops : List MemoryOp} {m : Memory}
    (h : m.Trusted space) (hr : m.ram.Paged) (hk : m.ram.KeepsTables space ops) :
    m.replies space ops = m.ram.replies space ops := by
  induction ops generalizing m with
  | nil => rfl
  | cons op ops ih =>
    cases op with
    | resolve slot vaddr access user =>
      obtain ⟨hanswer, hram, htrust⟩ := h.resolve slot vaddr access user hs hr
      have hrest := ih htrust (by rw [hram]; exact paged_resolve hs hr) (by rw [hram]; exact hk)
      simp only [Memory.replies, Ram.replies, hanswer, hram, hrest]
    | change fn =>
      obtain ⟨hsame, hk⟩ := hk
      have htrust : Trusted space (m.mapRam fn) := TrustedOn.of_settled h fun _ _ _ _ => hsame.settled
      exact ih htrust (hsame.paged hr) hk

/-- An address that was resolved shows as accessed in both of its entries, and as dirty if it was
stored to. -/
def Reply.Noted (space : AddressSpace) (reply : Reply) : Prop :=
  ∀ pa, reply.answer = .ok pa → space.paging = true →
    ∃ directory, space.directory = some directory ∧
      (reply.ram.directoryEntry directory reply.vaddr).accessed = true ∧
      (reply.ram.tableEntry directory reply.vaddr).accessed = true ∧
      (reply.access.writes = true → (reply.ram.tableEntry directory reply.vaddr).dirty = true)

theorem noted_resolve (hs : space.Aligned) {r : Ram} (hr : r.Paged) :
    Reply.Noted space ⟨vaddr, access, answerOf (r.resolve space vaddr access user),
      stateOf (r.resolve space vaddr access user)⟩ := by
  intro pa hpa hp
  rw [stateOf_resolve]
  rw [Ram.resolve_apply] at hpa
  cases hw : walk space vaddr access user r with
  | error fault r' =>
    simp [hw] at hpa
  | ok mapping r' =>
    obtain ⟨directory, hd⟩ := directory_of_translate (translate_of_walk hs hr hw) hp
    obtain ⟨h1, h2⟩ := (settled_of_walk hs hr hw (grants_of_walk hw) rfl).2 hp directory hd
    refine ⟨directory, hd, ?_, ?_, fun hacc => ?_⟩
    · rw [stateOf_ok, ← h1]
      exact PageEntry.accessed_marked _ _
    · rw [stateOf_ok, ← h2]
      exact PageEntry.accessed_marked _ _
    · rw [stateOf_ok, ← h2]
      exact PageEntry.dirty_marked hacc _

theorem Ram.noted_replies (hs : space.Aligned) {ops : List MemoryOp} {r : Ram} (hr : r.Paged)
    (hk : r.KeepsTables space ops) :
    ∀ reply ∈ r.replies space ops, reply.Noted space := by
  induction ops generalizing r with
  | nil => simp [Ram.replies]
  | cons op ops ih =>
    cases op with
    | resolve slot vaddr access user =>
      intro reply hmem
      rcases List.mem_cons.1 hmem with rfl | hmem
      · exact noted_resolve hs hr
      · exact ih (paged_resolve hs hr) hk reply hmem
    | change fn =>
      obtain ⟨hsame, hk⟩ := hk
      exact ih (hsame.paged hr) hk

/-- After a flush, a memory with caches replies as one that walks the tables on every access. -/
theorem replies_flush {m : Memory} {ops : List MemoryOp} (hs : space.Aligned)
    (hr : m.ram.Paged) (hk : m.ram.KeepsTables space ops) :
    m.flush.replies space ops = m.ram.replies space ops ∧
      ∀ reply ∈ m.flush.replies space ops, reply.Noted space := by
  have h := m.trusted_flush.replies hs hr hk
  refine ⟨h, ?_⟩
  rw [h]
  exact m.ram.noted_replies hs hr hk

end

/-- Writing to the page leaves the tables as they are. -/
theorem Ram.sameTables_onePage (v : UInt32) :
    onePage.SameTables ⟨true, some 0⟩ (onePage.write32 0x2000 v) := by
  have hdir (vaddr : UInt32) :
      (onePage.write32 0x2000 v).directoryEntry 0 vaddr = onePage.directoryEntry 0 vaddr := by
    have hn := PageEntry.directorySlot_toNat (show (0 : UInt32).toNat % 4096 = 0 by decide) vaddr
    have ha := PageEntry.directorySlot_aligned (show (0 : UInt32).toNat % 4 = 0 by decide) vaddr
    have := vaddr.toNat_lt
    rw [directoryEntry, entry, read32_write32_of_ne (by decide) ha, directoryEntry, entry]
    intro heq
    rw [← heq] at hn
    simp only [UInt32.reduceToNat] at hn
    omega
  refine ⟨size_write32 .., fun _ d hd vaddr => ?_, fun _ d hd vaddr hp => ?_⟩
  · obtain rfl := Option.some.inj hd
    exact hdir vaddr
  · obtain rfl := Option.some.inj hd
    have hn := PageEntry.tableSlot_toNat ⟨0x1007⟩ vaddr
    have ha := PageEntry.tableSlot_aligned ⟨0x1007⟩ vaddr
    rw [tableEntry, hdir, directoryEntry_onePage hp, entry, read32_write32_of_ne (by decide) ha,
      tableEntry, directoryEntry_onePage hp, entry]
    intro heq
    rw [← heq] at hn
    have hb : (PageEntry.base ⟨0x1007⟩).toNat = 4096 := by decide
    rw [hb] at hn
    simp only [UInt32.reduceToNat] at hn
    omega

theorem replies_flush_onePage :
    let m : Memory := { ram := .onePage, tlb := .ofCapacity 1, path := .make true }
    let ops : List MemoryOp := [.change (·.write32 0x2000 7), .resolve .stack 8 .load true,
      .resolve .data 4096 .fetch true, .resolve .stack 12 .store true]
    m.flush.replies ⟨true, some 0⟩ ops = m.ram.replies ⟨true, some 0⟩ ops ∧
      ∀ reply ∈ m.flush.replies ⟨true, some 0⟩ ops, reply.Noted ⟨true, some 0⟩ := by
  have hs : AddressSpace.Aligned ⟨true, some 0⟩ := fun _ hd => Option.some.inj hd ▸ rfl
  intro m ops
  refine replies_flush hs (by rw [Ram.Paged, Ram.size_onePage]) ?_
  simp only [ops, Ram.KeepsTables, and_true]
  exact Ram.sameTables_onePage 7

end PagedMachine
