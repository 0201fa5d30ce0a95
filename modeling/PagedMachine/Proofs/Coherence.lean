import PagedMachine.Memory.Lemmas
import PagedMachine.Proofs.Translation

/-!
# The page cache follows the lookaside buffer

The buffer forgets and replaces mappings without a look at the page cache, whose pages go stale only
by the epoch they are dated with. `Memory.Coherent` is what keeps this sound: a page that is dated
with the current epoch is still in the buffer, with its frame and its right. Every operation keeps it
(`Coherent.resolve`), so what the page cache answers is what the buffer would answer
(`Coherent.find?_of_line`), as long as epochs are told apart by their generations.
-/

set_option autoImplicit false

namespace PagedMachine

namespace Tlb

theorem epoch_le_insert (t : Tlb) (page : UInt32) (m : Mapping) :
    t.epoch ≤ (t.insert page m).epoch := by
  rw [epoch_insert]
  split <;> omega

theorem epoch_insert_le (t : Tlb) (page : UInt32) (m : Mapping) :
    (t.insert page m).epoch ≤ t.epoch + 1 := by
  rw [epoch_insert]
  split <;> omega

/-- Generations tell epochs apart until they wrap around. -/
theorem eq_epoch_of_generation {t : Tlb} {n : Nat} (hn : n ≤ t.epoch) (ht : t.epoch < UInt64.size)
    (h : n.toUInt64 = t.generation) : n = t.epoch := by
  have h := congrArg UInt64.toNat h
  simp only [generation, Nat.toUInt64, UInt64.toNat_ofNat', UInt64.size] at h ht
  omega

end Tlb

/-- The page comes from an epoch of the buffer, and is still in it if that epoch lasts. -/
def CachedPage.BackedBy (e : CachedPage) (t : Tlb) : Prop :=
  ∃ n ≤ t.epoch, e.generation = n.toUInt64 ∧
    (n = t.epoch → ∃ m, t.entries[e.page]? = some m ∧ m.grants e.right = true ∧ m.frame = e.frame)

namespace CachedPage.BackedBy

variable {e : CachedPage} {t t' : Tlb}

theorem of_entries (h : e.BackedBy t) (he : t'.entries = t.entries) (hn : t'.epoch = t.epoch) :
    e.BackedBy t' := by
  rw [BackedBy, he, hn]
  exact h

/-- A new epoch makes every page stale. -/
theorem of_epoch_lt (h : e.BackedBy t) (hn : t.epoch < t'.epoch) : e.BackedBy t' := by
  obtain ⟨n, hle, hg, -⟩ := h
  exact ⟨n, by omega, hg, fun heq => by omega⟩

theorem insert (h : e.BackedBy t) (page : UInt32) (m : Mapping) : e.BackedBy (t.insert page m) := by
  have hn := t.epoch_insert page m
  by_cases hnew : (t.entries.contains page || t.overflows page) = true
  · rw [if_pos hnew] at hn
    exact h.of_epoch_lt (by omega)
  · -- the page is new and the buffer has room, so all others stay
    rw [if_neg hnew] at hn
    simp only [Bool.or_eq_true, not_or, Bool.not_eq_true] at hnew
    obtain ⟨n, hle, hg, hback⟩ := h
    refine ⟨n, by omega, hg, fun heq => ?_⟩
    obtain ⟨m', he, hgrant⟩ := hback (heq.trans hn)
    refine ⟨m', ?_, hgrant⟩
    have hne : page ≠ e.page := by
      rintro rfl
      simp [Std.HashMap.getElem?_eq_none_of_contains_eq_false hnew.1] at he
    rw [Tlb.getElem?_insert, if_neg hne, hnew.2]
    exact he

end CachedPage.BackedBy

namespace Memory

/-- Whether the buffer backs every page that the page cache remembers. -/
def Coherent (m : Memory) : Prop :=
  ∀ slot write e, m.path.line slot write = some e → e.BackedBy m.tlb

theorem coherent_of_forget {m : Memory} (h : ∀ slot write, m.path.line slot write = none) :
    m.Coherent := by
  intro slot write e he
  rw [h] at he
  cases he

theorem coherent_flush (m : Memory) : m.flush.Coherent :=
  coherent_of_forget fun _ _ => AccessPath.line_invalidate ..

theorem coherent_invalidatePath (m : Memory) : m.invalidatePath.Coherent :=
  coherent_of_forget fun _ _ => AccessPath.line_invalidate ..

section
variable {space : AddressSpace} {slot : Slot} {vaddr : UInt32} {access : Access} {user : Bool}
  {m : Memory}

/-- A page may be put into the page cache, dated with the current epoch, if the buffer has it. -/
theorem Coherent.fill {right : Right} {page frame : UInt32} {mapping : Mapping} (h : m.Coherent)
    (he : m.tlb.entries[page]? = some mapping) (hg : mapping.grants right = true)
    (hf : mapping.frame = frame) :
    Coherent { m with path := m.path.fill slot right page frame m.tlb.generation } := by
  intro other write e hl
  rcases AccessPath.line_of_line_fill hl with rfl | hl
  · exact ⟨m.tlb.epoch, Nat.le_refl _, rfl, fun _ => ⟨mapping, he, hg, hf⟩⟩
  · exact h other write e hl

/-- What the page cache answers, the buffer would answer. -/
theorem Coherent.find?_of_line {right : Right} {page frame : UInt32} {write : Bool}
    (h : m.Coherent) (ht : m.tlb.epoch < UInt64.size)
    (hl : m.path.line slot write = some ⟨right, page, frame, m.tlb.generation⟩) :
    ∃ mapping, m.tlb.find? right page = some mapping ∧ mapping.frame = frame := by
  obtain ⟨n, hle, hg, hback⟩ := h slot write _ hl
  obtain ⟨mapping, he, hgrant, hf⟩ := hback (Tlb.eq_epoch_of_generation hle ht hg.symm)
  exact ⟨mapping, Tlb.find?_eq_some_iff.2 ⟨he, hgrant⟩, hf⟩

variable (space slot vaddr access user)

theorem Coherent.resolve (h : m.Coherent) :
    (stateOf (Memory.resolve space slot vaddr access user m)).Coherent := by
  have hresult := resolve_resolved space slot vaddr access user m
  generalize Memory.resolve space slot vaddr access user m = result at hresult
  cases hresult with
  | remembered hl => exact fun other write e he => h other write e (by simpa using he)
  | @found mapping hm hf =>
    obtain ⟨he, hg⟩ := Tlb.find?_eq_some_iff.1 hf
    have hcount : Coherent { m with tlb := { m.tlb with hits := m.tlb.hits + 1 } } :=
      fun other write e hl => (h other write e hl).of_entries rfl rfl
    exact hcount.fill he hg rfl
  | @walked mapping ram hm hf hw =>
    have hinsert : Coherent { m with
        ram, tlb := ({ m.tlb with misses := m.tlb.misses + 1 } : Tlb).insert (pageNumber vaddr)
          mapping } := by
      intro other write e hl
      have hold : e.BackedBy { m.tlb with misses := m.tlb.misses + 1 } :=
        (h other write e hl).of_entries rfl rfl
      exact hold.insert ..
    have hgrant : mapping.grants (rightOf access user) = true := grants_of_walk hw
    refine hinsert.fill ?_ hgrant rfl
    rw [Tlb.getElem?_insert, if_pos rfl, pageBase_of_walk hw]
  | faulted hm hf hw => exact fun other write e hl => (h other write e hl).of_entries rfl rfl

theorem epoch_le_resolve (m : Memory) :
    m.tlb.epoch ≤ (stateOf (Memory.resolve space slot vaddr access user m)).tlb.epoch := by
  have hresult := resolve_resolved space slot vaddr access user m
  generalize Memory.resolve space slot vaddr access user m = result at hresult
  cases hresult with
  | remembered hl => exact Nat.le_refl _
  | found hm hf => exact Nat.le_refl _
  | walked hm hf hw => exact Tlb.epoch_le_insert { m.tlb with misses := m.tlb.misses + 1 } _ _
  | faulted hm hf hw => exact Nat.le_refl _

theorem epoch_resolve_le (m : Memory) :
    (stateOf (Memory.resolve space slot vaddr access user m)).tlb.epoch ≤ m.tlb.epoch + 1 := by
  have hresult := resolve_resolved space slot vaddr access user m
  generalize Memory.resolve space slot vaddr access user m = result at hresult
  cases hresult with
  | remembered hl => exact Nat.le_succ _
  | found hm hf => exact Nat.le_succ _
  | walked hm hf hw => exact Tlb.epoch_insert_le { m.tlb with misses := m.tlb.misses + 1 } _ _
  | faulted hm hf hw => exact Nat.le_succ _

variable {space slot vaddr access user}

/-- After an address was resolved, the buffer has the mapping that resolved it. -/
theorem Coherent.entry_of_resolve (h : m.Coherent) (ht : m.tlb.epoch < UInt64.size) {pa : UInt32}
    {m' : Memory} (hr : Memory.resolve space slot vaddr access user m = .ok pa m') :
    ∃ mapping, m'.tlb.entries[pageNumber vaddr]? = some mapping ∧
      mapping.grants (rightOf access user) = true ∧ pa = mapping.frame ||| pageOffset vaddr := by
  have hresult := resolve_resolved space slot vaddr access user m
  rw [hr] at hresult
  cases hresult with
  | remembered hl =>
    obtain ⟨mapping, hf, rfl⟩ := h.find?_of_line ht hl
    obtain ⟨he, hg⟩ := Tlb.find?_eq_some_iff.1 hf
    exact ⟨mapping, he, hg, rfl⟩
  | @found mapping hm hf =>
    obtain ⟨he, hg⟩ := Tlb.find?_eq_some_iff.1 hf
    exact ⟨mapping, he, hg, rfl⟩
  | @walked mapping ram hm hf hw =>
    refine ⟨mapping, ?_, grants_of_walk hw, rfl⟩
    rw [Tlb.getElem?_insert, if_pos rfl, pageBase_of_walk hw]

end

end Memory

end PagedMachine
