import PagedMachine.Tlb

/-!
# The lookaside buffer as a map

What each operation does to `Tlb.find?`, to the number of pages held and to the generation.
-/

set_option autoImplicit false

namespace PagedMachine

namespace Mapping

/-- What a mapping grants for writing it grants for reading. -/
theorem grants_read_of_grants {m : Mapping} {right : Right} (h : m.grants right = true) :
    m.grants { right with write := false } = true := by
  simp only [grants, Bool.and_eq_true] at h ⊢
  exact ⟨by simp, h.2⟩

end Mapping

namespace Tlb

/-! ## Looking up -/

theorem lookup_fst (t : Tlb) (right : Right) (page : UInt32) :
    (t.lookup right page).1 = t.find? right page := by
  simp only [lookup]
  split <;> simp_all

@[simp] theorem lookup_entries (t : Tlb) (right : Right) (page : UInt32) :
    (t.lookup right page).2.entries = t.entries := by
  simp only [lookup]
  split <;> rfl

@[simp] theorem lookup_epoch (t : Tlb) (right : Right) (page : UInt32) :
    (t.lookup right page).2.epoch = t.epoch := by
  simp only [lookup]
  split <;> rfl

theorem find?_eq_some_iff {t : Tlb} {right : Right} {page : UInt32} {m : Mapping} :
    t.find? right page = some m ↔ t.entries[page]? = some m ∧ m.grants right = true := by
  simp [find?, Option.filter_eq_some_iff]

/-! ## Flushing -/

@[simp] theorem find?_flush (t : Tlb) (right : Right) (page : UInt32) :
    t.flush.find? right page = none := by
  simp [find?, flush]

@[simp] theorem live_flush (t : Tlb) : t.flush.live = 0 := by
  simp [live, flush]

@[simp] theorem epoch_flush (t : Tlb) : t.flush.epoch = t.epoch + 1 := rfl

theorem generation_flush (t : Tlb) : t.flush.generation = t.generation + 1 := by
  simp only [generation, epoch_flush]
  exact UInt64.ofNat_add t.epoch 1

/-! ## Inserting -/

/-- Whether putting `page` in empties the buffer first. -/
def overflows (t : Tlb) (page : UInt32) : Bool := !t.entries.contains page && t.live ≥ t.capacity

theorem getElem?_insert (t : Tlb) (page other : UInt32) (m : Mapping) :
    (t.insert page m).entries[other]? =
      if page = other then some { m with frame := pageBase m.frame }
      else if t.overflows page then none else t.entries[other]? := by
  simp only [insert, overflows]
  split
  · rename_i hp
    simp [Std.HashMap.getElem?_insert, hp]
  · rename_i hp
    split
    · rename_i hl
      simp [flush, Std.HashMap.getElem?_insert, hp, hl]
    · rename_i hl
      simp [Std.HashMap.getElem?_insert, hl]

/-- An insertion begins a new epoch unless it only adds a page. -/
theorem epoch_insert (t : Tlb) (page : UInt32) (m : Mapping) :
    (t.insert page m).epoch =
      if t.entries.contains page || t.overflows page then t.epoch + 1 else t.epoch := by
  simp only [insert, overflows]
  split
  · rename_i hp
    simp [hp]
  · rename_i hp
    split
    · rename_i hl
      simp [flush, hl]
    · rename_i hl
      simp [hp, hl]

@[simp] theorem misses_insert (t : Tlb) (page : UInt32) (m : Mapping) :
    (t.insert page m).misses = t.misses := by
  simp only [insert]
  split
  · rfl
  · split <;> rfl

theorem flushes_insert (t : Tlb) (page : UInt32) (m : Mapping) :
    (t.insert page m).flushes = if t.overflows page then t.flushes + 1 else t.flushes := by
  simp only [insert, overflows]
  split
  · rename_i hp
    simp [hp]
  · rename_i hp
    split
    · rename_i hl
      simp [flush, hp, hl]
    · rename_i hl
      simp [hl]

/-- A page that was inserted has the new mapping. -/
theorem find?_insert_self (t : Tlb) (right : Right) (page : UInt32) (m : Mapping) :
    (t.insert page m).find? right page =
      (some { m with frame := pageBase m.frame }).filter (·.grants right) := by
  simp only [insert]
  split
  · simp [find?]
  · simp [find?]

@[simp] theorem insert_capacity (t : Tlb) (page : UInt32) (m : Mapping) :
    (t.insert page m).capacity = t.capacity := by
  simp only [insert]
  split
  · rfl
  · split <;> rfl

/-- The number of pages held stays within the capacity. -/
theorem live_insert_le {t : Tlb} (h : t.live ≤ t.capacity) (hc : 0 < t.capacity) (page : UInt32)
    (m : Mapping) : (t.insert page m).live ≤ (t.insert page m).capacity := by
  rw [insert_capacity]
  simp only [insert]
  split
  · rename_i hp
    simp only [live, Std.HashMap.size_insert, Std.HashMap.mem_iff_contains, hp] at h ⊢
    simpa using h
  · rename_i hp
    split
    · simp [live, flush, Std.HashMap.size_insert]
      omega
    · rename_i hl
      simp only [live, Std.HashMap.size_insert, Std.HashMap.mem_iff_contains, hp] at hl ⊢
      simp only [Bool.false_eq_true, if_false]
      omega

/-! ## Counting hits -/

/-- The buffer after `n` more hits. -/
def credit (n : Nat) (t : Tlb) : Tlb := { t with hits := t.hits + n }

@[simp] theorem find?_credit (n : Nat) (t : Tlb) (right : Right) (page : UInt32) :
    (t.credit n).find? right page = t.find? right page := rfl

@[simp] theorem flush_credit (n : Nat) (t : Tlb) : (t.credit n).flush = t.flush.credit n := rfl

theorem insert_credit (n : Nat) (t : Tlb) (page : UInt32) (m : Mapping) :
    (t.credit n).insert page m = (t.insert page m).credit n := by
  have hc : (t.credit n).entries.contains page = t.entries.contains page := rfl
  have hl : ((t.credit n).live ≥ (t.credit n).capacity) = (t.live ≥ t.capacity) := rfl
  simp only [insert, hc, hl]
  by_cases hp : t.entries.contains page = true
  · simp only [if_pos hp]
    rfl
  · simp only [if_neg hp]
    by_cases hfull : t.live ≥ t.capacity
    · simp only [if_pos hfull]
      rfl
    · simp only [if_neg hfull]
      rfl

end Tlb

end PagedMachine
