import PagedMachine.Memory
import PagedMachine.PageCache.Lemmas
import PagedMachine.Paging.Lemmas
import PagedMachine.Tlb.Lemmas

/-!
# How an address is resolved

The four ways in which `Memory.resolve` ends (`Resolved`, `resolve_resolved`): the page cache answers,
the lookaside buffer answers, or the tables are walked, with a mapping or with a fault.
-/

set_option autoImplicit false

namespace PagedMachine

namespace Memory

/-- What an access to `vaddr` asks of its page. -/
@[inline] def rightOf (access : Access) (user : Bool) : Right := { user, write := access.writes }

/-- Whether the page cache does not answer an access. -/
def Missed (m : Memory) (slot : Slot) (vaddr : UInt32) (access : Access) (user : Bool) : Prop :=
  ∀ frame, m.path.line slot access.writes ≠
    some ⟨rightOf access user, pageNumber vaddr, frame, m.tlb.generation⟩

section
variable (space : AddressSpace) (slot : Slot) (vaddr : UInt32) (access : Access) (user : Bool)

/-- The results that resolving `vaddr` can have. -/
inductive Resolved (m : Memory) : EStateM.Result Fault Memory UInt32 → Prop
  | remembered {frame : UInt32} :
      m.path.line slot access.writes =
        some ⟨rightOf access user, pageNumber vaddr, frame, m.tlb.generation⟩ →
      Resolved m (.ok (frame ||| pageOffset vaddr) { m with path := m.path.answered })
  | found {mapping : Mapping} : m.Missed slot vaddr access user →
      m.tlb.find? (rightOf access user) (pageNumber vaddr) = some mapping →
      Resolved m (.ok (mapping.frame ||| pageOffset vaddr)
        { ram := m.ram
          tlb := { m.tlb with hits := m.tlb.hits + 1 }
          path := m.path.fill slot (rightOf access user) (pageNumber vaddr) mapping.frame
            m.tlb.generation })
  | walked {mapping : Mapping} {ram : Ram} : m.Missed slot vaddr access user →
      m.tlb.find? (rightOf access user) (pageNumber vaddr) = none →
      walk space vaddr access user m.ram = .ok mapping ram →
      Resolved m (.ok (mapping.frame ||| pageOffset vaddr)
        { ram
          tlb := ({ m.tlb with misses := m.tlb.misses + 1 } : Tlb).insert (pageNumber vaddr) mapping
          path := m.path.fill slot (rightOf access user) (pageNumber vaddr) mapping.frame
            (({ m.tlb with misses := m.tlb.misses + 1 } : Tlb).insert (pageNumber vaddr)
              mapping).generation })
  | faulted {fault : Fault} {ram : Ram} : m.Missed slot vaddr access user →
      m.tlb.find? (rightOf access user) (pageNumber vaddr) = none →
      walk space vaddr access user m.ram = .error fault ram →
      Resolved m (.error fault
        { m with ram, tlb := { m.tlb with misses := m.tlb.misses + 1 } })

variable {space slot vaddr access user} {m : Memory} {mapping : Mapping} {ram : Ram}

/-- The page cache answers for the page that it remembers. -/
theorem resolve_of_line {frame : UInt32}
    (hl : m.path.line slot access.writes =
      some ⟨rightOf access user, pageNumber vaddr, frame, m.tlb.generation⟩) :
    resolve space slot vaddr access user m =
      .ok (frame ||| pageOffset vaddr) { m with path := m.path.answered } := by
  obtain ⟨ram, tlb, path⟩ := m
  have hp : path.probe slot (rightOf access user) (pageNumber vaddr) tlb.generation = _ :=
    AccessPath.probe_of_line hl
  simp only [resolve, show (⟨user, access.writes⟩ : Right) = rightOf access user from rfl, hp]

/-- Where it does not, the buffer answers for a page that it holds. -/
theorem resolve_of_find? (hm : m.Missed slot vaddr access user)
    (hf : m.tlb.find? (rightOf access user) (pageNumber vaddr) = some mapping) :
    resolve space slot vaddr access user m =
      .ok (mapping.frame ||| pageOffset vaddr)
        { ram := m.ram
          tlb := { m.tlb with hits := m.tlb.hits + 1 }
          path := m.path.fill slot (rightOf access user) (pageNumber vaddr) mapping.frame
            m.tlb.generation } := by
  obtain ⟨ram, tlb, path⟩ := m
  have hp : path.probe slot (rightOf access user) (pageNumber vaddr) tlb.generation = _ :=
    AccessPath.probe_of_line_ne hm
  simp only [resolve, show (⟨user, access.writes⟩ : Right) = rightOf access user from rfl, hp,
    Tlb.lookup, hf]
  rfl

/-- Where neither does, the tables are walked, and what they map is kept. -/
theorem resolve_of_walk (hm : m.Missed slot vaddr access user)
    (hf : m.tlb.find? (rightOf access user) (pageNumber vaddr) = none)
    (hw : walk space vaddr access user m.ram = .ok mapping ram) :
    resolve space slot vaddr access user m =
      .ok (mapping.frame ||| pageOffset vaddr)
        { ram
          tlb := ({ m.tlb with misses := m.tlb.misses + 1 } : Tlb).insert (pageNumber vaddr) mapping
          path := m.path.fill slot (rightOf access user) (pageNumber vaddr) mapping.frame
            (({ m.tlb with misses := m.tlb.misses + 1 } : Tlb).insert (pageNumber vaddr)
              mapping).generation } := by
  obtain ⟨ram₀, tlb, path⟩ := m
  have hp : path.probe slot (rightOf access user) (pageNumber vaddr) tlb.generation = _ :=
    AccessPath.probe_of_line_ne hm
  simp only [resolve, show (⟨user, access.writes⟩ : Right) = rightOf access user from rfl, hp,
    Tlb.lookup, hf, hw]

theorem resolve_of_walk_error {fault : Fault} (hm : m.Missed slot vaddr access user)
    (hf : m.tlb.find? (rightOf access user) (pageNumber vaddr) = none)
    (hw : walk space vaddr access user m.ram = .error fault ram) :
    resolve space slot vaddr access user m =
      .error fault { m with ram, tlb := { m.tlb with misses := m.tlb.misses + 1 } } := by
  obtain ⟨ram₀, tlb, path⟩ := m
  have hp : path.probe slot (rightOf access user) (pageNumber vaddr) tlb.generation = _ :=
    AccessPath.probe_of_line_ne hm
  simp only [resolve, show (⟨user, access.writes⟩ : Right) = rightOf access user from rfl, hp,
    Tlb.lookup, hf, hw]

variable (space slot vaddr access user)

theorem resolve_resolved (m : Memory) :
    Resolved space slot vaddr access user m (resolve space slot vaddr access user m) := by
  by_cases hl : ∃ frame, m.path.line slot access.writes =
      some ⟨rightOf access user, pageNumber vaddr, frame, m.tlb.generation⟩
  · obtain ⟨frame, hl⟩ := hl
    rw [resolve_of_line hl]
    exact .remembered hl
  · have hm : m.Missed slot vaddr access user := fun frame h => hl ⟨frame, h⟩
    cases hf : m.tlb.find? (rightOf access user) (pageNumber vaddr) with
    | some mapping =>
      rw [resolve_of_find? hm hf]
      exact .found hm hf
    | none =>
      cases hw : walk space vaddr access user m.ram with
      | ok mapping ram =>
        rw [resolve_of_walk hm hf hw]
        exact .walked hm hf hw
      | error fault ram =>
        rw [resolve_of_walk_error hm hf hw]
        exact .faulted hm hf hw

/-- An address that cannot be resolved is not in memory or may not be used. -/
theorem resolve_eq_error {fault : Fault} {m m' : Memory}
    (h : resolve space slot vaddr access user m = .error fault m') :
    fault = .badPhysicalAddress (some vaddr) ∨ fault = access.pageFault vaddr := by
  have hresult := resolve_resolved space slot vaddr access user m
  rw [h] at hresult
  cases hresult with
  | faulted hm hf hw => exact walk_eq_error hw

/-- An address that cannot be resolved is blamed. -/
theorem vaddr_of_resolve {fault : Fault} {m m' : Memory}
    (h : resolve space slot vaddr access user m = .error fault m') : fault.vaddr? = some vaddr := by
  rcases resolve_eq_error space slot vaddr access user h with rfl | rfl
  · rfl
  · exact access.vaddr_pageFault vaddr

/-- Resolving an address changes bytes by a walk only. -/
theorem ram_resolve (m : Memory) :
    (stateOf (resolve space slot vaddr access user m)).ram = m.ram ∨
      (stateOf (resolve space slot vaddr access user m)).ram =
        stateOf (walk space vaddr access user m.ram) := by
  have hresult := resolve_resolved space slot vaddr access user m
  generalize resolve space slot vaddr access user m = result at hresult
  cases hresult with
  | remembered hl => exact .inl rfl
  | found hm hf => exact .inl rfl
  | walked hm hf hw => exact .inr (by rw [hw]; rfl)
  | faulted hm hf hw => exact .inr (by rw [hw]; rfl)

variable {space vaddr access user}

theorem markedTo_resolve (hs : ∀ d, space.directory = some d → d.toNat % 4 = 0) {m : Memory} :
    m.ram.MarkedTo (stateOf (resolve space slot vaddr access user m)).ram := by
  rcases ram_resolve space slot vaddr access user m with hr | hr <;> rw [hr]
  · exact .refl _
  · exact walk_markedTo vaddr access user hs m.ram

variable (vaddr access user)

theorem ram_resolve_of_not_paging (h : space.paging = false) (m : Memory) :
    (stateOf (resolve space slot vaddr access user m)).ram = m.ram := by
  rcases ram_resolve space slot vaddr access user m with hr | hr
  · exact hr
  · rw [hr, stateOf_walk_of_not_paging _ _ _ h]

/-- Without paging an address in memory is resolved. -/
theorem resolve_of_not_paging (h : space.paging = false) {m : Memory}
    (hv : pageBase vaddr < m.ram.size) :
    ∃ pa m', resolve space slot vaddr access user m = .ok pa m' := by
  have hresult := resolve_resolved space slot vaddr access user m
  generalize resolve space slot vaddr access user m = result at hresult
  cases hresult with
  | remembered hl => exact ⟨_, _, rfl⟩
  | found hm hf => exact ⟨_, _, rfl⟩
  | walked hm hf hw => exact ⟨_, _, rfl⟩
  | faulted hm hf hw =>
    rw [walk_of_not_paging h, if_pos hv] at hw
    cases hw

end

end Memory

end PagedMachine
