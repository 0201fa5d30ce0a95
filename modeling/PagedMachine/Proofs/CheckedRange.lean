import PagedMachine.Proofs.Provenance
import PagedMachine.Proofs.Tenant

/-!
# Checked ranges

A range of addresses is checked by resolving the chunks that it has in each page (`chunkStarts`).
Resolving them again succeeds if the lookaside buffer was not emptied during the check, or if the
tables still grant what it held of the range before (`range_resolves_again`). Otherwise the second
pass may fault: a page that the buffer answered from a mapping which the tables have dropped may make
room for a later one (`range_may_fault`).
-/

set_option autoImplicit false

namespace PagedMachine

/-- The addresses at which the chunks of the `len` bytes from `vaddr` on begin. -/
def chunkStarts (vaddr : UInt32) (len : Nat) : List UInt32 :=
  if len = 0 then []
  else vaddr :: chunkStarts (vaddr + pageLeft vaddr) (len - (pageLeft vaddr).toNat)
termination_by len
decreasing_by
  have := pageLeft_pos vaddr
  omega

/-- Whether the tables grant an access to `vaddr`. -/
def Ram.Grants (r : Ram) (space : AddressSpace) (access : Access) (user : Bool) (vaddr : UInt32) :
    Prop :=
  ∃ frame, r.translate space vaddr access user = .ok frame

theorem Ram.Grants.markedTo {space : AddressSpace} {access : Access} {user : Bool} {vaddr : UInt32}
    {r r' : Ram} (hs : space.Aligned) (hm : r.MarkedTo r') (h : r.Grants space access user vaddr) :
    r'.Grants space access user vaddr := by
  rwa [Grants, translate_markedTo hs hm]

namespace Memory

/-- Resolves addresses one after the other, for a host call. -/
def resolveEach (space : AddressSpace) (access : Access) (user : Bool) :
    List UInt32 → EStateM Fault Memory Unit
  | [] => pure ()
  | vaddr :: rest => do
    let _ ← resolve space .data vaddr access user
    resolveEach space access user rest

section
variable {space : AddressSpace} {access : Access} {user : Bool}

theorem resolveRange_eq_each (vaddr : UInt32) (len : Nat) :
    resolveRange space vaddr len access user =
      resolveEach space access user (chunkStarts vaddr len) := by
  induction vaddr, len using resolveRange.induct with
  | case1 vaddr => rw [resolveRange, chunkStarts, if_pos rfl, if_pos rfl, resolveEach]
  | case2 vaddr len hlen ih =>
    rw [resolveRange, chunkStarts, if_neg hlen, if_neg hlen, resolveEach, ih]

variable {m m' : Memory} {vaddr : UInt32} {rest : List UInt32}

theorem resolveEach_cons_eq_ok (h : resolveEach space access user (vaddr :: rest) m = .ok () m') :
    ∃ pa m₁, resolve space .data vaddr access user m = .ok pa m₁ ∧
      resolveEach space access user rest m₁ = .ok () m' :=
  bind_eq_ok_iff.1 h

theorem resolveEach_cons_of_ok {pa : UInt32} {m₁ : Memory}
    (h : resolve space .data vaddr access user m = .ok pa m₁)
    (hrest : resolveEach space access user rest m₁ = .ok () m') :
    resolveEach space access user (vaddr :: rest) m = .ok () m' :=
  bind_eq_ok_iff.2 ⟨pa, m₁, h, hrest⟩

/-! ## While the buffer is not emptied -/

/-- Whether the buffer answers an access to `vaddr`. -/
def Holds (m : Memory) (access : Access) (user : Bool) (vaddr : UInt32) : Prop :=
  ∃ mapping, m.tlb.find? (rightOf access user) (pageNumber vaddr) = some mapping

theorem Holds.of_entries (he : m'.tlb.entries = m.tlb.entries) (h : m.Holds access user vaddr) :
    m'.Holds access user vaddr := by
  rwa [Holds, Tlb.find?, he]

theorem flushes_le_resolve (space : AddressSpace) (slot : Slot) (vaddr : UInt32) (access : Access)
    (user : Bool) (m : Memory) :
    m.tlb.flushes ≤ (stateOf (resolve space slot vaddr access user m)).tlb.flushes := by
  have hresult := resolve_resolved space slot vaddr access user m
  generalize resolve space slot vaddr access user m = result at hresult
  cases hresult with
  | remembered | found | faulted => exact Nat.le_refl _
  | walked =>
    simp only [stateOf_ok, Tlb.flushes_insert]
    split <;> simp

theorem epoch_le_resolveEach {starts : List UInt32}
    (h : resolveEach space access user starts m = .ok () m') : m.tlb.epoch ≤ m'.tlb.epoch := by
  induction starts generalizing m with
  | nil =>
    obtain ⟨-, rfl⟩ := EStateM.Result.ok.inj h
    exact Nat.le_refl _
  | cons vaddr rest ih =>
    obtain ⟨pa, m₁, hr, hrest⟩ := resolveEach_cons_eq_ok h
    have hle := epoch_le_resolve space .data vaddr access user m
    rw [hr] at hle
    exact Nat.le_trans hle (ih hrest)

theorem flushes_le_resolveEach {starts : List UInt32}
    (h : resolveEach space access user starts m = .ok () m') : m.tlb.flushes ≤ m'.tlb.flushes := by
  induction starts generalizing m with
  | nil =>
    obtain ⟨-, rfl⟩ := EStateM.Result.ok.inj h
    exact Nat.le_refl _
  | cons vaddr rest ih =>
    obtain ⟨pa, m₁, hr, hrest⟩ := resolveEach_cons_eq_ok h
    have hle := flushes_le_resolve space .data vaddr access user m
    rw [hr] at hle
    exact Nat.le_trans hle (ih hrest)

/-- A page stays in a buffer that is not emptied. -/
theorem Holds.resolve {pa other : UInt32} (h : m.Holds access user other)
    (hr : Memory.resolve space .data vaddr access user m = .ok pa m')
    (hkept : m'.tlb.flushes = m.tlb.flushes) : m'.Holds access user other := by
  have hresult := resolve_resolved space .data vaddr access user m
  rw [hr] at hresult
  cases hresult with
  | remembered | found => exact h.of_entries rfl
  | @walked mapping ram hm hf hw =>
    simp only [Tlb.flushes_insert] at hkept
    split at hkept
    · simp at hkept
    · rename_i hroom
      obtain ⟨mapping', hfind⟩ := h
      obtain ⟨hentry, hgrants⟩ := Tlb.find?_eq_some_iff.1 hfind
      by_cases hp : pageNumber vaddr = pageNumber other
      · refine ⟨mapping, Tlb.find?_eq_some_iff.2 ⟨?_, grants_of_walk hw⟩⟩
        rw [Tlb.getElem?_insert, if_pos hp, pageBase_of_walk hw]
      · refine ⟨mapping', Tlb.find?_eq_some_iff.2 ⟨?_, hgrants⟩⟩
        rw [Tlb.getElem?_insert, if_neg hp, if_neg hroom]
        exact hentry

theorem Holds.resolveEach {starts : List UInt32} {other : UInt32} (h : m.Holds access user other)
    (hr : Memory.resolveEach space access user starts m = .ok () m')
    (hkept : m'.tlb.flushes = m.tlb.flushes) : m'.Holds access user other := by
  induction starts generalizing m with
  | nil =>
    obtain ⟨-, rfl⟩ := EStateM.Result.ok.inj hr
    exact h
  | cons vaddr rest ih =>
    obtain ⟨pa, m₁, hfirst, hrest⟩ := resolveEach_cons_eq_ok hr
    have hle := flushes_le_resolve space .data vaddr access user m
    rw [hfirst, stateOf_ok] at hle
    have hle' := flushes_le_resolveEach hrest
    exact ih (h.resolve hfirst (by omega)) hrest (by omega)

/-- All chunks are in the buffer after a pass that did not empty it. -/
theorem holds_of_resolveEach {starts : List UInt32} (hc : m.Coherent)
    (hr : Memory.resolveEach space access user starts m = .ok () m')
    (hn : m'.tlb.epoch < UInt64.size) (hkept : m'.tlb.flushes = m.tlb.flushes) :
    ∀ start ∈ starts, m'.Holds access user start := by
  induction starts generalizing m with
  | nil =>
    intro start hmem
    cases hmem
  | cons vaddr rest ih =>
    obtain ⟨pa, m₁, hfirst, hrest⟩ := resolveEach_cons_eq_ok hr
    have hle := flushes_le_resolve space .data vaddr access user m
    have hepoch := epoch_le_resolve space .data vaddr access user m
    have hc₁ := hc.resolve space .data vaddr access user
    rw [hfirst, stateOf_ok] at hle hepoch hc₁
    have hle' := flushes_le_resolveEach hrest
    have hepoch' := epoch_le_resolveEach hrest
    intro start hmem
    rcases List.mem_cons.1 hmem with rfl | hmem
    · obtain ⟨mapping, hentry, hgrants, -⟩ := hc.entry_of_resolve (by omega) hfirst
      have hheld : m₁.Holds access user start :=
        ⟨mapping, Tlb.find?_eq_some_iff.2 ⟨hentry, hgrants⟩⟩
      exact hheld.resolveEach hrest (by omega)
    · exact ih hc₁ hrest (by omega) start hmem

/-- What the buffer has is answered without a look at the tables. -/
theorem Holds.answered (h : m.Holds access user vaddr) (space : AddressSpace) (slot : Slot) :
    ∃ pa m₁, Memory.resolve space slot vaddr access user m = .ok pa m₁ ∧
      m₁.tlb.entries = m.tlb.entries ∧ m₁.ram = m.ram := by
  have hresult := resolve_resolved space slot vaddr access user m
  generalize Memory.resolve space slot vaddr access user m = result at hresult
  cases hresult with
  | remembered | found => exact ⟨_, _, rfl, rfl, rfl⟩
  | walked hm hnone | faulted hm hnone =>
    obtain ⟨mapping, hfind⟩ := h
    rw [hnone] at hfind
    cases hfind

theorem resolveEach_of_holds {starts : List UInt32} (h : ∀ start ∈ starts, m.Holds access user start) :
    ∃ m', resolveEach space access user starts m = .ok () m' ∧ m'.ram = m.ram := by
  induction starts generalizing m with
  | nil => exact ⟨m, rfl, rfl⟩
  | cons vaddr rest ih =>
    obtain ⟨hfirst, hrest⟩ := List.forall_mem_cons.1 h
    obtain ⟨pa, m₁, hr, hentries, hram⟩ := hfirst.answered space .data
    obtain ⟨m', heach, hram'⟩ := ih fun start hmem => (hrest start hmem).of_entries hentries
    exact ⟨m', resolveEach_cons_of_ok hr heach, hram'.trans hram⟩

/-! ## While the tables grant what the buffer holds -/

/-- The tables grant what the buffer would answer. -/
def Honest (m : Memory) (space : AddressSpace) (access : Access) (user : Bool) (vaddr : UInt32) :
    Prop :=
  m.Holds access user vaddr → m.ram.Grants space access user vaddr

variable (hs : space.Aligned)
include hs

/-- An address that is resolved by an honest buffer is granted. -/
theorem Honest.grants {pa : UInt32} (hp : m.ram.Paged) (hc : m.Coherent)
    (hn : m.tlb.epoch < UInt64.size) (h : m.Honest space access user vaddr)
    (hr : resolve space .data vaddr access user m = .ok pa m') :
    m.ram.Grants space access user vaddr := by
  have hresult := resolve_resolved space .data vaddr access user m
  rw [hr] at hresult
  cases hresult with
  | remembered hl =>
    obtain ⟨mapping, hfind, -⟩ := hc.find?_of_line hn hl
    exact h ⟨mapping, hfind⟩
  | found hm hf => exact h ⟨_, hf⟩
  | walked hm hf hw => exact ⟨_, translate_of_walk hs hp hw⟩

/-- A buffer stays honest, since what comes in is what the tables say. -/
theorem Honest.resolve {pa other : UInt32} (hp : m.ram.Paged) (h : m.Honest space access user other)
    (hr : Memory.resolve space .data vaddr access user m = .ok pa m') :
    m'.Honest space access user other := by
  have hmarked : m.ram.MarkedTo (stateOf (Memory.resolve space .data vaddr access user m)).ram :=
    markedTo_resolve .data hs
  have hresult := resolve_resolved space .data vaddr access user m
  rw [hr] at hresult hmarked
  intro hheld
  refine Ram.Grants.markedTo hs hmarked ?_
  cases hresult with
  | remembered | found => exact h (hheld.of_entries rfl)
  | @walked mapping ram hm hf hw =>
    obtain ⟨mapping', hfind⟩ := hheld
    obtain ⟨hentry, hgrants⟩ := Tlb.find?_eq_some_iff.1 hfind
    rw [Tlb.getElem?_insert] at hentry
    split at hentry
    · rename_i hpage
      obtain rfl := Option.some.inj hentry
      exact ⟨_, translate_of_grants hs hp hw hgrants hpage.symm⟩
    · split at hentry
      · cases hentry
      · exact h ⟨mapping', Tlb.find?_eq_some_iff.2 ⟨hentry, hgrants⟩⟩

theorem grants_of_resolveEach {starts : List UInt32} (hp : m.ram.Paged) (hc : m.Coherent)
    (hr : resolveEach space access user starts m = .ok () m') (hn : m'.tlb.epoch < UInt64.size)
    (h : ∀ start ∈ starts, m.Honest space access user start) :
    m.ram.MarkedTo m'.ram ∧ ∀ start ∈ starts, m'.ram.Grants space access user start := by
  induction starts generalizing m with
  | nil =>
    obtain ⟨-, rfl⟩ := EStateM.Result.ok.inj hr
    exact ⟨.refl _, fun start hmem => by cases hmem⟩
  | cons vaddr rest ih =>
    obtain ⟨pa, m₁, hfirst, hrest⟩ := resolveEach_cons_eq_ok hr
    obtain ⟨hhonest, hall⟩ := List.forall_mem_cons.1 h
    have hmarked : m.ram.MarkedTo (stateOf (resolve space .data vaddr access user m)).ram :=
      markedTo_resolve .data hs
    have hepoch := epoch_le_resolve space .data vaddr access user m
    have hc₁ := hc.resolve space .data vaddr access user
    rw [hfirst, stateOf_ok] at hmarked hepoch hc₁
    have hepoch' := epoch_le_resolveEach hrest
    have hp₁ : m₁.ram.Paged := by rw [Ram.Paged, hmarked.size]; exact hp
    obtain ⟨hmarked', hgrants⟩ :=
      ih hp₁ hc₁ hrest fun start hmem => (hall start hmem).resolve hs hp hfirst
    have hfirst' := hhonest.grants hs hp hc (by omega) hfirst
    exact ⟨hmarked.trans hmarked',
      List.forall_mem_cons.2 ⟨hfirst'.markedTo hs (hmarked.trans hmarked'), hgrants⟩⟩

theorem resolveEach_of_grants {starts : List UInt32} (hp : m.ram.Paged)
    (h : ∀ start ∈ starts, m.ram.Grants space access user start) :
    ∃ m', resolveEach space access user starts m = .ok () m' := by
  induction starts generalizing m with
  | nil => exact ⟨m, rfl⟩
  | cons vaddr rest ih =>
    obtain ⟨⟨frame, hfirst⟩, hrest⟩ := List.forall_mem_cons.1 h
    have hmarked : m.ram.MarkedTo (stateOf (resolve space .data vaddr access user m)).ram :=
      markedTo_resolve .data hs
    cases hr : resolve space .data vaddr access user m with
    | ok pa m₁ =>
      rw [hr, stateOf_ok] at hmarked
      have hp₁ : m₁.ram.Paged := by rw [Ram.Paged, hmarked.size]; exact hp
      obtain ⟨m', heach⟩ := ih hp₁ fun start hmem => (hrest start hmem).markedTo hs hmarked
      exact ⟨m', resolveEach_cons_of_ok hr heach⟩
    | error fault m₁ =>
      -- only a walk faults, and the walk finds what the tables grant
      have hresult := resolve_resolved space .data vaddr access user m
      rw [hr] at hresult
      cases hresult with
      | faulted hm hf hw =>
        have heq := translate_eq_walk vaddr access user hs hp
        rw [hw, hfirst] at heq
        cases heq

end

end Memory

/-! ## A check that makes room -/

namespace Memory

theorem aligned_zero : AddressSpace.Aligned ⟨true, some 0⟩ := fun _ hd => Option.some.inj hd ▸ rfl

/-- Memory with the first page in the buffer, which has room for no other. -/
def checking (later : List (UInt32 × UInt32)) : Memory :=
  ⟨.twoPages later, .holding 2 (.kernel 0x2000) 0 0 1 0, .uncached⟩

/-- The check of a range that begins in the first page and ends in the second. -/
def checked (later : List (UInt32 × UInt32)) : Memory :=
  ⟨.twoPages later, .holding 3 (.kernel 0x3000) 1 1 2 1, .uncached⟩

theorem paged_checking (later : List (UInt32 × UInt32)) : (checking later).ram.Paged := by
  rw [checking, Ram.Paged, Ram.size_twoPages]

theorem flushes_checked (later : List (UInt32 × UInt32)) :
    (checked later).tlb.flushes ≠ (checking later).tlb.flushes :=
  Nat.succ_ne_zero 0

theorem epoch_checked (later : List (UInt32 × UInt32)) :
    (checked later).tlb.epoch < UInt64.size := by
  have hepoch : (checked later).tlb.epoch = 1 := rfl
  rw [hepoch]
  decide

theorem chunkStarts_checking : chunkStarts 0x2ffc 8 = [0x2ffc, 0x3000] := by
  rw [chunkStarts, if_neg (by decide), show (0x2ffc : UInt32) + pageLeft 0x2ffc = 0x3000 by decide,
    show 8 - (pageLeft 0x2ffc).toNat = 4 by decide, chunkStarts, if_neg (by decide),
    show 4 - (pageLeft 0x3000).toNat = 0 by decide, chunkStarts, if_pos rfl]

theorem walk_second {later : List (UInt32 × UInt32)} (h : later = [] ∨ later = [(0x1008, 0)]) :
    walk ⟨true, some 0⟩ 0x3000 .load false (.twoPages later) =
      .ok (.kernel 0x3000) (.twoPages later) := by
  have hslot : PageEntry.tableSlot ⟨0x1023⟩ 0x3000 = 0x100c := by decide
  refine walk_twoPages ?_ (by decide) hslot rfl ?_ (by decide)
  · rcases h with rfl | rfl <;> simp
  · rcases h with rfl | rfl <;> rfl

/-- The check hits the first page and makes room for the second. -/
theorem resolveRange_checking {later : List (UInt32 × UInt32)}
    (h : later = [] ∨ later = [(0x1008, 0)]) :
    resolveRange ⟨true, some 0⟩ 0x2ffc 8 .load false (checking later) = .ok () (checked later) := by
  have hfirst : resolve ⟨true, some 0⟩ .data 0x2ffc .load false (checking later) =
      .ok _ ⟨.twoPages later, .holding 2 (.kernel 0x2000) 0 1 1 0, .uncached⟩ :=
    resolve_held missed_uncached (by decide) (by decide)
  have hsecond : resolve ⟨true, some 0⟩ .data 0x3000 .load false
      ⟨.twoPages later, .holding 2 (.kernel 0x2000) 0 1 1 0, .uncached⟩ = .ok _ (checked later) :=
    resolve_replaced missed_uncached (by decide) (walk_second h)
  rw [resolveRange_eq_each, chunkStarts_checking]
  exact resolveEach_cons_of_ok hfirst (resolveEach_cons_of_ok hsecond rfl)

/-- While the table has both pages, both are granted. -/
theorem walk_checking {vaddr : UInt32} (hdir : PageEntry.directorySlot 0 vaddr = 0)
    (hslot : PageEntry.tableSlot ⟨0x1023⟩ vaddr = 0x1008) :
    walk ⟨true, some 0⟩ vaddr .load false (.twoPages []) = .ok (.kernel 0x2000) (.twoPages []) :=
  walk_twoPages (by simp) hdir hslot rfl rfl (by decide)

/-- The table has no first page any more, and the buffer holds the second. -/
theorem resolve_checked (pa : UInt32) (m' : Memory) :
    resolve ⟨true, some 0⟩ .data 0x2ffc .load false (checked [(0x1008, 0)]) ≠ .ok pa m' := by
  intro hr
  have hpde : (Ram.twoPages [(0x1008, 0)]).directoryEntry 0 0x2ffc = ⟨0x1023⟩ :=
    Ram.directoryEntry_twoPages (by simp) (by decide)
  have hslot : PageEntry.tableSlot ⟨0x1023⟩ 0x2ffc = 0x1008 := by decide
  have hpte : (Ram.twoPages [(0x1008, 0)]).tableEntry 0 0x2ffc = ⟨0⟩ :=
    Ram.tableEntry_twoPages (by simp) (by decide) hslot rfl
  have hresult := resolve_resolved ⟨true, some 0⟩ .data 0x2ffc .load false (checked [(0x1008, 0)])
  rw [hr] at hresult
  cases hresult with
  | remembered hl => cases hl
  | found hm hf =>
    have hentry := (Tlb.find?_eq_some_iff.1 hf).1
    rw [checked, Tlb.getElem?_holding, if_neg (by decide)] at hentry
    cases hentry
  | walked hm hf hw =>
    have hp : (Ram.twoPages [(0x1008, 0)]).Paged := by rw [Ram.Paged, Ram.size_twoPages]
    obtain ⟨-, -, hperm, -⟩ := (translate_eq_ok_iff rfl rfl).1 (translate_of_walk aligned_zero hp hw)
    rw [hpde, hpte] at hperm
    exact absurd hperm (by decide)

/-- The machine's memory when the first page is in the buffer. -/
theorem memory_checking :
    ((MachineOp.resolve ⟨true, some 0⟩ .data 0x2000 .load false).run
      (.make (.twoPages []) false 1 {})).memory = checking [] := by
  have hfirst : resolve ⟨true, some 0⟩ .data 0x2000 .load false
      ⟨.twoPages [], .emptied 0 0 0 0, .uncached⟩ = .ok _ (checking []) :=
    resolve_emptied missed_uncached (walk_checking (by decide) (by decide))
  have hmake : (Machine.make (.twoPages []) false 1 {}).memory =
      ⟨.twoPages [], .emptied 0 0 0 0, .uncached⟩ := rfl
  rw [MachineOp.run, hmake, hfirst, stateOf_ok]

/-- Then the page is dropped from the table. -/
theorem memory_dropped :
    (history (.make (.twoPages []) false 1 {}) []
      [.resolve ⟨true, some 0⟩ .data 0x2000 .load false, .write (·.write32 0x1008 0)]).1.memory =
        checking [(0x1008, 0)] := by
  show Memory.mapRam (·.write32 0x1008 0) (MachineOp.run _ _).memory = _
  rw [memory_checking, checking, mapRam, Ram.write32_twoPages, checking]

end Memory

/-! ## Main results -/

section
open Memory

/-- The chunks of a range that was checked can all be resolved again, without a look at the tables if
the buffer was not emptied during the check, and also if the tables grant what it held of the range. -/
theorem range_resolves_again {ram : Ram} {fastPath : Bool} {capacity : Nat} {bridge : Bridge}
    {ops : List MachineOp} {space : AddressSpace} {vaddr : UInt32} {len : Nat} {access : Access}
    {user : Bool} {m m' : Memory}
    (hm : (history (.make ram fastPath capacity bridge) [] ops).1.memory = m)
    (hr : resolveRange space vaddr len access user m = .ok () m')
    (hn : m'.tlb.epoch < UInt64.size) :
    (m'.tlb.flushes = m.tlb.flushes →
      ∃ m'', resolveRange space vaddr len access user m' = .ok () m'' ∧ m''.ram = m'.ram) ∧
    (space.Aligned → m.ram.Paged →
      (∀ start ∈ chunkStarts vaddr len, m.Honest space access user start) →
        ∃ m'', resolveRange space vaddr len access user m' = .ok () m'') := by
  have hc : m.Coherent := by
    rw [← hm]
    exact ((recorded_make ram fastPath capacity bridge).history ops).coherent
  rw [resolveRange_eq_each] at hr ⊢
  refine ⟨fun hkept => resolveEach_of_holds (holds_of_resolveEach hc hr hn hkept),
    fun hs hp hhonest => ?_⟩
  obtain ⟨hmarked, hgrants⟩ := grants_of_resolveEach hs hp hc hr hn hhonest
  exact resolveEach_of_grants hs (by rw [Ram.Paged, hmarked.size]; exact hp) hgrants

theorem range_resolves_again_checking :
    ∃ m, (history (.make (.twoPages []) false 1 {}) []
        [.resolve ⟨true, some 0⟩ .data 0x2000 .load false]).1.memory = m ∧
      (∀ start ∈ chunkStarts 0x2ffc 8, m.Honest ⟨true, some 0⟩ .load false start) ∧
      ∃ m' m'', resolveRange ⟨true, some 0⟩ 0x2ffc 8 .load false m = .ok () m' ∧
        m'.tlb.flushes ≠ m.tlb.flushes ∧
        resolveRange ⟨true, some 0⟩ 0x2ffc 8 .load false m' = .ok () m'' := by
  have hm : (history (.make (.twoPages []) false 1 {}) []
      [.resolve ⟨true, some 0⟩ .data 0x2000 .load false]).1.memory = checking [] := memory_checking
  have hp := paged_checking []
  have hhonest : ∀ start ∈ chunkStarts 0x2ffc 8,
      (checking []).Honest ⟨true, some 0⟩ .load false start := by
    rw [chunkStarts_checking]
    simp only [List.forall_mem_cons]
    have hfirst : walk ⟨true, some 0⟩ 0x2ffc .load false (.twoPages []) = .ok _ _ :=
      walk_checking (by decide) (by decide)
    exact ⟨fun _ => ⟨_, translate_of_walk aligned_zero hp hfirst⟩,
      fun _ => ⟨_, translate_of_walk aligned_zero hp (walk_second (.inl rfl))⟩, nofun⟩
  have hr := resolveRange_checking (.inl rfl)
  obtain ⟨m'', hagain⟩ := (range_resolves_again hm hr (epoch_checked _)).2 aligned_zero hp hhonest
  exact ⟨_, hm, hhonest, _, m'', hr, flushes_checked _, hagain⟩

/-- A range that was checked may fault, if the buffer was emptied and what it held was dropped from the
tables. -/
theorem range_may_fault :
    ¬∀ ram fastPath capacity bridge ops space vaddr len access user m m',
      (history (.make ram fastPath capacity bridge) [] ops).1.memory = m →
        resolveRange space vaddr len access user m = .ok () m' → m'.tlb.epoch < UInt64.size →
          ∃ m'', resolveRange space vaddr len access user m' = .ok () m'' := by
  intro hall
  obtain ⟨m'', hagain⟩ := hall _ _ _ _ _ _ _ _ _ _ _ _ memory_dropped
    (resolveRange_checking (.inr rfl)) (epoch_checked _)
  rw [resolveRange_eq_each, chunkStarts_checking] at hagain
  obtain ⟨pa, m₁, hfirst, -⟩ := resolveEach_cons_eq_ok hagain
  exact resolve_checked pa m₁ hfirst

end

end PagedMachine
