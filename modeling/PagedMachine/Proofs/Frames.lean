import PagedMachine.Memory.Lemmas
import PagedMachine.Proofs.Closure
import PagedMachine.Proofs.Translation

/-!
# What the caches remember

`Memory.Remembers` says that all pages in the caches are mapped in a certain way. Resolving an address
keeps it if the walks map pages in that way (`Remembers.resolve`), and answers with such a page
(`Remembers.frame`). One instance holds whatever runs: the frames are the addresses of pages
(`Memory.FramesAligned`, `Machine.closed_framesAligned`).
-/

set_option autoImplicit false

namespace PagedMachine

/-- An address is its page and the place in it. -/
theorem pageBase_or_pageOffset (vaddr : UInt32) : pageBase vaddr ||| pageOffset vaddr = vaddr := by
  have ho := pageOffset_toNat vaddr
  have hb := pageBase_toNat vaddr
  refine UInt32.toNat_inj.1 ?_
  rw [toNat_or (by omega) (by omega)]
  omega

namespace Memory

/-- Whether the caches remember only pages with frames that `Q` allows. -/
structure Remembers (Q : UInt32 → UInt32 → Prop) (m : Memory) : Prop where
  tlb : ∀ (page : UInt32) mapping, m.tlb.entries[page]? = some mapping → Q page mapping.frame
  path : ∀ slot write e, m.path.line slot write = some e → Q e.page e.frame

namespace Remembers

variable {Q : UInt32 → UInt32 → Prop} {m : Memory}

theorem mono (h : m.Remembers Q) {Q' : UInt32 → UInt32 → Prop}
    (hq : ∀ page frame, Q page frame → Q' page frame) : m.Remembers Q' :=
  ⟨fun _ _ he => hq _ _ (h.tlb _ _ he), fun _ _ _ he => hq _ _ (h.path _ _ _ he)⟩

/-- Caches start empty. -/
theorem fresh (Q : UInt32 → UInt32 → Prop) (ram : Ram) (capacity : Nat) (fast : Bool) :
    Remembers Q { ram, tlb := .ofCapacity capacity, path := .make fast } := by
  refine ⟨fun page mapping h => ?_, fun slot write e h => ?_⟩
  · simp [Tlb.ofCapacity] at h
  · cases fast <;> cases slot <;> cases write <;> cases h

theorem flush (Q : UInt32 → UInt32 → Prop) (m : Memory) : m.flush.Remembers Q := by
  refine ⟨fun page mapping h => ?_, fun slot write e h => ?_⟩
  · have hnone : m.flush.tlb.entries[page]? = none := by simp [Memory.flush, Tlb.flush]
    rw [hnone] at h
    cases h
  · rw [show m.flush.path = m.path.invalidate from rfl, AccessPath.line_invalidate] at h
    cases h

theorem invalidatePath (h : m.Remembers Q) : m.invalidatePath.Remembers Q := by
  refine ⟨h.tlb, fun slot write e he => ?_⟩
  rw [show m.invalidatePath.path = m.path.invalidate from rfl, AccessPath.line_invalidate] at he
  cases he

theorem mapRam (h : m.Remembers Q) (fn : Ram → Ram) : (m.mapRam fn).Remembers Q := ⟨h.tlb, h.path⟩

theorem insert {t : Tlb}
    (h : ∀ (page : UInt32) mapping, t.entries[page]? = some mapping → Q page mapping.frame)
    {page : UInt32} {mapping : Mapping} (hq : Q page mapping.frame)
    (hbase : pageBase mapping.frame = mapping.frame) (other : UInt32) (found : Mapping)
    (hf : (t.insert page mapping).entries[other]? = some found) : Q other found.frame := by
  rw [Tlb.getElem?_insert] at hf
  split at hf
  · rename_i heq
    obtain rfl := Option.some.inj hf
    rwa [← heq, hbase]
  · split at hf
    · cases hf
    · exact h other found hf

theorem fill {path : AccessPath}
    (h : ∀ slot write e, path.line slot write = some e → Q e.page e.frame) {slot : Slot}
    {right : Right} {page frame : UInt32} {generation : UInt64} (hq : Q page frame) (other : Slot)
    (write : Bool) (e : CachedPage)
    (he : (path.fill slot right page frame generation).line other write = some e) :
    Q e.page e.frame := by
  rcases AccessPath.line_of_line_fill he with rfl | he
  · exact hq
  · exact h other write e he

section
variable {space : AddressSpace} {slot : Slot} {vaddr : UInt32} {access : Access} {user : Bool}

theorem resolve (h : m.Remembers Q)
    (hwalk : ∀ mapping ram, walk space vaddr access user m.ram = .ok mapping ram →
      Q (pageNumber vaddr) mapping.frame) :
    (stateOf (Memory.resolve space slot vaddr access user m)).Remembers Q := by
  have hresult := resolve_resolved space slot vaddr access user m
  generalize Memory.resolve space slot vaddr access user m = result at hresult
  cases hresult with
  | remembered hl => exact ⟨h.tlb, fun other write e he => h.path other write e (by simpa using he)⟩
  | found hm hf => exact ⟨h.tlb, fill h.path (h.tlb _ _ (Tlb.find?_eq_some_iff.1 hf).1)⟩
  | walked hm hf hw =>
    have hq := hwalk _ _ hw
    exact ⟨insert (t := { m.tlb with misses := m.tlb.misses + 1 }) h.tlb hq (pageBase_of_walk hw),
      fill h.path hq⟩
  | faulted hm hf hw => exact ⟨h.tlb, h.path⟩

/-- An address is resolved into a page of this kind. -/
theorem frame (h : m.Remembers Q)
    (hwalk : ∀ mapping ram, walk space vaddr access user m.ram = .ok mapping ram →
      Q (pageNumber vaddr) mapping.frame) {pa : UInt32} {m' : Memory}
    (hr : Memory.resolve space slot vaddr access user m = .ok pa m') :
    ∃ frame, Q (pageNumber vaddr) frame ∧ pa = frame ||| pageOffset vaddr := by
  have hresult := resolve_resolved space slot vaddr access user m
  rw [hr] at hresult
  cases hresult with
  | remembered hl => exact ⟨_, h.path _ _ _ hl, rfl⟩
  | found hm hf => exact ⟨_, h.tlb _ _ (Tlb.find?_eq_some_iff.1 hf).1, rfl⟩
  | walked hm hf hw => exact ⟨_, hwalk _ _ hw, rfl⟩

end

end Remembers

/-! ## Frames are pages -/

/-- Whether what the caches remember are addresses of pages. -/
def FramesAligned (m : Memory) : Prop := m.Remembers fun _ frame => pageBase frame = frame

section
variable {m : Memory} (space : AddressSpace) (slot : Slot) (vaddr : UInt32) (access : Access)
  (user : Bool)

theorem FramesAligned.resolve (h : m.FramesAligned) :
    (stateOf (Memory.resolve space slot vaddr access user m)).FramesAligned :=
  Remembers.resolve h fun _ _ hw => pageBase_of_walk hw

/-- An address keeps its place in the page. -/
theorem FramesAligned.offset (h : m.FramesAligned) {pa : UInt32} {m' : Memory}
    (hr : Memory.resolve space slot vaddr access user m = .ok pa m') :
    pa.toNat % 4096 = vaddr.toNat % 4096 := by
  obtain ⟨frame, hbase, rfl⟩ := Remembers.frame h (fun _ _ hw => pageBase_of_walk hw) hr
  have ho := pageOffset_toNat vaddr
  have hf : frame.toNat % 4096 = 0 := by
    rw [← hbase, pageBase_toNat]
    omega
  rw [toNat_or hf (by omega), ho]
  omega

end

end Memory

/-- Code leaves the caches with addresses of pages. -/
theorem Machine.closed_framesAligned :
    Closed fun x => ∀ m, m.memory.FramesAligned → (stateOf (x m)).memory.FramesAligned :=
  closed_of_memory (fun fn _ _ h => h.mapRam fn)
    (fun space slot vaddr access user _ h => h.resolve space slot vaddr access user)
    (fun m _ => .flush _ m) fun _ h => h.invalidatePath

end PagedMachine
