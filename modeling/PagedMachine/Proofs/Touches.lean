import PagedMachine.Proofs.Coherence
import PagedMachine.Proofs.Inside

/-!
# Memory as a record of accesses

What happened to memory is a list of `Touch`es: addresses that were looked up, bytes that were put
somewhere, new address spaces. `Watched.after` replays the list and keeps, beside the memory, the walks
that were made since the caches were last emptied. Each entry of the lookaside buffer comes from one of
them (`Watched.Sound`). An aligned word that no touch puts bytes into only gains marks
(`Watched.word_after`).
-/

set_option autoImplicit false

namespace PagedMachine

/-- A walk that succeeded, with the memory that it found. -/
structure MadeWalk where
  ram : Ram
  space : AddressSpace
  vaddr : UInt32
  access : Access
  user : Bool
  mapping : Mapping

namespace MadeWalk

/-- Whether the mapping is what the walk gives. -/
def Genuine (v : MadeWalk) : Prop :=
  ∃ ram, walk v.space v.vaddr v.access v.user v.ram = .ok v.mapping ram

/-- Whether both entries of the page were present, writable and open to user mode. -/
def OpenToUser (v : MadeWalk) : Prop :=
  ∃ directory, v.space.paging = true ∧ v.space.directory = some directory ∧
    let pde := v.ram.directoryEntry directory v.vaddr
    let pte := v.ram.tableEntry directory v.vaddr
    (pde.present = true ∧ pde.writable = true ∧ pde.user = true) ∧
      (pte.present = true ∧ pte.writable = true ∧ pte.user = true) ∧ v.mapping.frame = pte.base

/-- A mapping that grants writes to user mode comes from two entries that do. -/
theorem Genuine.openToUser {v : MadeWalk} (h : v.Genuine) (hp : v.space.paging = true)
    (hs : v.space.Aligned) (hg : v.mapping.grants { user := true, write := true } = true) :
    v.OpenToUser := by
  obtain ⟨ram, hw⟩ := h
  cases hd : v.space.directory with
  | none =>
    rw [walk_of_no_directory hp hd] at hw
    cases hw
  | some directory =>
    obtain ⟨hpresent, hperm, hmap, -⟩ := walk_eq_ok_of_directory hp hd hw
    -- the table entry was read after the directory entry was marked
    have hm := Ram.markedTo_mark (r := v.ram) (PageEntry.directorySlot_aligned (hs _ hd) v.vaddr) .load
    have hpte := hm.entry _
      (PageEntry.tableSlot_aligned (v.ram.directoryEntry directory v.vaddr) v.vaddr)
    simp only [PageEntry.permits, Bool.and_eq_true, hpte.present_eq] at hperm
    simp only [hmap, Mapping.grants, Bool.not_true, Bool.false_or, Bool.and_eq_true, hpte.writable_eq,
      hpte.user_eq] at hg
    refine ⟨directory, hp, hd, ⟨hpresent, hg.1.2.1, hg.2.1⟩, ⟨hperm.1.1, hg.1.2.2, hg.2.2⟩, ?_⟩
    rw [hmap]
    exact hpte.base_eq

end MadeWalk

/-! ## Touches -/

/-- What the machine does to memory. -/
inductive Touch
  /-- An address is resolved. -/
  | look (slot : Slot) (vaddr : UInt32) (access : Access) (user : Bool)
  /-- Bytes are put where an address is resolved to, within a page. -/
  | put (slot : Slot) (vaddr : UInt32) (user : Bool) (data : ByteArray)
    (fits : vaddr.toNat % 4096 + data.size ≤ 4096)
  /-- The address space is changed, which empties the caches. -/
  | enter (space : AddressSpace)
  /-- The page caches are dropped. -/
  | forget

/-- The address that is resolved. -/
def Touch.address? : Touch → Option UInt32
  | look _ vaddr .. => some vaddr
  | put _ vaddr .. => some vaddr
  | enter _ | forget => none

/-- Memory with the walks that were made since the caches were last emptied, latest first. -/
structure Watched where
  space : AddressSpace
  memory : Memory
  walks : List MadeWalk := []

namespace Watched

/-- Resolves an address. The tables were walked if the buffer counted a miss; a full buffer is emptied
before the new mapping goes in. -/
def look (w : Watched) (slot : Slot) (vaddr : UInt32) (access : Access) (user : Bool) : Watched :=
  let memory := stateOf (Memory.resolve w.space slot vaddr access user w.memory)
  let walks :=
    if memory.tlb.misses = w.memory.tlb.misses then w.walks
    else
      match walk w.space vaddr access user w.memory.ram with
      | .ok mapping _ =>
        ⟨w.memory.ram, w.space, vaddr, access, user, mapping⟩ ::
          if w.memory.tlb.overflows (pageNumber vaddr) then [] else w.walks
      | .error .. => w.walks
  { w with memory, walks }

def touch (w : Watched) : Touch → Watched
  | .look slot vaddr access user => w.look slot vaddr access user
  | .put slot vaddr user data _ =>
    let looked := w.look slot vaddr .store user
    match Memory.resolve w.space slot vaddr .store user w.memory with
    | .ok pa memory => { looked with memory := memory.mapRam (·.blit pa data) }
    | .error .. => looked
  | .enter space => { space, memory := w.memory.flush }
  | .forget => { w with memory := w.memory.invalidatePath }

/-- Replays the touches, first to last. -/
def after (w : Watched) (touches : List Touch) : Watched := touches.foldl touch w

theorem after_append (w : Watched) (first rest : List Touch) :
    w.after (first ++ rest) = (w.after first).after rest := List.foldl_append

/-! ## What the buffer holds -/

/-- Each entry of the buffer comes from one of the walks, and these are genuine. -/
structure Sound (w : Watched) : Prop where
  coherent : w.memory.Coherent
  entries : ∀ (page : UInt32) mapping, w.memory.tlb.entries[page]? = some mapping →
    ∃ v ∈ w.walks, v.mapping = mapping
  walks : ∀ v ∈ w.walks, v.Genuine ∧ v.space = w.space

section
variable {w : Watched}

theorem sound_flush (space : AddressSpace) (m : Memory) :
    Sound { space, memory := m.flush } := by
  refine ⟨m.coherent_flush, fun page mapping he => ?_, nofun⟩
  simp [Memory.flush, Tlb.flush] at he

theorem Sound.look (h : w.Sound) (slot : Slot) (vaddr : UInt32) (access : Access) (user : Bool) :
    (w.look slot vaddr access user).Sound := by
  refine ⟨Memory.Coherent.resolve _ _ _ _ _ h.coherent, fun page mapping he => ?_,
    fun v hv => ?_⟩
  · have hresult := Memory.resolve_resolved w.space slot vaddr access user w.memory
    simp only [Watched.look] at he ⊢
    generalize Memory.resolve w.space slot vaddr access user w.memory = result at hresult he
    cases hresult with
    | remembered hl => simpa using h.entries page mapping he
    | found hm hf => simpa using h.entries page mapping he
    | @walked mapping' ram hm hf hw =>
      have hsame : ({ w.memory.tlb with misses := w.memory.tlb.misses + 1 } : Tlb).overflows
          (pageNumber vaddr) = w.memory.tlb.overflows (pageNumber vaddr) := rfl
      simp only [stateOf_ok, Tlb.misses_insert, hw, Nat.succ_ne_self, if_false]
      rw [stateOf_ok, Tlb.getElem?_insert, pageBase_of_walk hw, hsame] at he
      split at he
      · exact ⟨_, List.mem_cons_self .., Option.some.inj he⟩
      · split at he
        · cases he
        · rename_i ho
          obtain ⟨v, hv, hmap⟩ := h.entries page mapping he
          rw [if_neg ho]
          exact ⟨v, List.mem_cons_of_mem _ hv, hmap⟩
    | faulted hm hf hw => simpa [hw] using h.entries page mapping he
  · simp only [Watched.look] at hv
    split at hv
    · exact h.walks v hv
    · cases hw : walk w.space vaddr access user w.memory.ram with
      | error fault ram =>
        rw [hw] at hv
        exact h.walks v hv
      | ok mapping ram =>
        rw [hw] at hv
        rcases List.mem_cons.1 hv with rfl | hv
        · exact ⟨⟨ram, hw⟩, rfl⟩
        · split at hv
          · cases hv
          · exact h.walks v hv

theorem Sound.touch (h : w.Sound) (τ : Touch) : (w.touch τ).Sound := by
  cases τ with
  | look slot vaddr access user => exact h.look slot vaddr access user
  | put slot vaddr user data fits =>
    have hl := h.look slot vaddr .store user
    simp only [Watched.touch]
    cases hr : Memory.resolve w.space slot vaddr .store user w.memory with
    | error fault memory => exact hl
    | ok pa memory =>
      have hm : (w.look slot vaddr .store user).memory = memory := congrArg stateOf hr
      rw [← hm]
      exact ⟨hl.coherent, hl.entries, hl.walks⟩
  | enter space => exact sound_flush space w.memory
  | forget => exact ⟨w.memory.coherent_invalidatePath, h.entries, h.walks⟩

theorem Sound.after (h : w.Sound) (touches : List Touch) : (w.after touches).Sound := by
  induction touches generalizing w with
  | nil => exact h
  | cons τ touches ih => exact ih (h.touch τ)

end

/-! ## Epochs -/

theorem epoch_le_touch (w : Watched) (τ : Touch) :
    w.memory.tlb.epoch ≤ (w.touch τ).memory.tlb.epoch := by
  cases τ with
  | look slot vaddr access user => exact Memory.epoch_le_resolve ..
  | put slot vaddr user data fits =>
    have hle := Memory.epoch_le_resolve w.space slot vaddr .store user w.memory
    simp only [touch]
    cases hr : Memory.resolve w.space slot vaddr .store user w.memory with
    | error fault memory => exact hle
    | ok pa memory => rwa [hr] at hle
  | enter space => exact Nat.le_succ _
  | forget => exact Nat.le_refl _

theorem epoch_le_after (w : Watched) (touches : List Touch) :
    w.memory.tlb.epoch ≤ (w.after touches).memory.tlb.epoch := by
  induction touches generalizing w with
  | nil => exact Nat.le_refl _
  | cons τ touches ih => exact Nat.le_trans (w.epoch_le_touch τ) (ih _)

/-- User mode puts bytes only where a walk found the page open to it. -/
theorem Sound.openToUser {w : Watched} (h : w.Sound) (hi : w.memory.Inside w.space)
    (hp : w.space.paging = true) (hn : w.memory.tlb.epoch < UInt64.size) {slot : Slot}
    {vaddr pa : UInt32} {memory : Memory}
    (hr : Memory.resolve w.space slot vaddr .store true w.memory = .ok pa memory) :
    ∃ v ∈ (w.look slot vaddr .store true).walks, (v.Genuine ∧ v.space = w.space ∧ v.OpenToUser) ∧
      v.mapping.frame.toNat % 4096 = 0 ∧ pa.toNat = v.mapping.frame.toNat + vaddr.toNat % 4096 := by
  obtain ⟨mapping, he, hg, hpa⟩ := h.coherent.entry_of_resolve hn hr
  have hl := h.look slot vaddr .store true
  have hm : (w.look slot vaddr .store true).memory = memory := congrArg stateOf hr
  obtain ⟨v, hv, rfl⟩ := hl.entries _ _ (by rwa [hm])
  obtain ⟨hgenuine, hspace⟩ := hl.walks v hv
  have hspace : v.space = w.space := hspace
  have hbase : v.mapping.frame.toNat % 4096 = 0 := by
    obtain ⟨ram, hw⟩ := hgenuine
    have hb := congrArg UInt32.toNat (pageBase_of_walk hw)
    rw [pageBase_toNat] at hb
    omega
  have ho := pageOffset_toNat vaddr
  have hopen := hgenuine.openToUser (hspace ▸ hp) (hspace ▸ hi.aligned) hg
  refine ⟨v, hv, ⟨hgenuine, hspace, hopen⟩, hbase, ?_⟩
  rw [hpa, toNat_or hbase (by omega), ho]

/-! ## Words that are not written -/

/-- Whether a touch puts bytes into the word at `e`. -/
def Puts (w : Watched) (τ : Touch) (e : UInt32) : Prop :=
  ∃ slot vaddr user data fits pa memory, τ = .put slot vaddr user data fits ∧
    Memory.resolve w.space slot vaddr .store user w.memory = .ok pa memory ∧
    pa.toNat < e.toNat + 4 ∧ e.toNat < pa.toNat + data.size

/-- Whether a touch may have walked through the entry at `e`. -/
def Visits (w : Watched) (τ : Touch) (e : UInt32) : Prop :=
  ∃ vaddr, τ.address? = some vaddr ∧ e ∈ w.memory.ram.walkSlots w.space vaddr

section
variable {w : Watched} (hi : w.memory.Inside w.space)
include hi

/-- Touches that stay in the address space leave all pages in memory. -/
theorem inside_touch {τ : Touch} (hτ : ∀ space, τ ≠ .enter space) :
    (w.touch τ).memory.Inside (w.touch τ).space ∧ (w.touch τ).space = w.space := by
  cases τ with
  | look slot vaddr access user => exact ⟨hi.resolve slot vaddr access user, rfl⟩
  | put slot vaddr user data fits =>
    have hl := hi.resolve slot vaddr .store user
    simp only [touch]
    cases hr : Memory.resolve w.space slot vaddr .store user w.memory with
    | error fault memory => exact ⟨hl, rfl⟩
    | ok pa memory =>
      rw [hr, stateOf_ok] at hl
      exact ⟨hl.mapRam (Ram.size_blit ..), rfl⟩
  | enter space => exact absurd rfl (hτ space)
  | forget => exact ⟨hi.invalidatePath, rfl⟩

theorem inside_after (touches : List Touch) (hτ : ∀ space, .enter space ∉ touches) :
    (w.after touches).memory.Inside (w.after touches).space ∧ (w.after touches).space = w.space := by
  induction touches generalizing w with
  | nil => exact ⟨hi, rfl⟩
  | cons τ touches ih =>
    obtain ⟨hi', hs⟩ := inside_touch hi (τ := τ) fun space h => hτ space (h ▸ List.mem_cons_self ..)
    obtain ⟨hi'', hs'⟩ := ih hi' fun space h => hτ space (List.mem_cons_of_mem _ h)
    exact ⟨hi'', hs'.trans hs⟩

/-- Nothing lies where no address reaches. -/
theorem byte_touch_of_le {τ : Touch} (hτ : ∀ space, τ ≠ .enter space) {i : Nat}
    (hle : UInt32.size ≤ i) : (w.touch τ).memory.ram.byte i = w.memory.ram.byte i := by
  have hlook slot vaddr access user :
      (w.look slot vaddr access user).memory.ram.byte i = w.memory.ram.byte i := by
    rcases Memory.ram_resolve w.space slot vaddr access user w.memory with hr | hr
    · simp only [look, hr]
    · simp only [look, hr]
      rcases (marked_walk w.space vaddr access user w.memory.ram).byte i with hb | ⟨e, -, rfl, -⟩
      · exact hb
      · exact absurd e.toNat_lt (Nat.not_lt.2 hle)
  cases τ with
  | look slot vaddr access user => exact hlook ..
  | put slot vaddr user data fits =>
    rw [← hlook slot vaddr .store user]
    simp only [touch]
    cases hr : Memory.resolve w.space slot vaddr .store user w.memory with
    | error fault memory => rfl
    | ok pa memory =>
      have hl : (w.look slot vaddr .store user).memory = memory := congrArg stateOf hr
      obtain ⟨frame, hpage, -, hpa⟩ := hi.frame hr
      have hframe := hpage.1
      have hlt := frame.toNat_lt
      rw [hl]
      simp only [Memory.mapRam]
      rw [Ram.byte_blit (hi.holds hr fits), if_neg]
      have hsize : UInt32.size = 4294967296 := rfl
      omega
  | enter space => exact absurd rfl (hτ space)
  | forget => rfl

theorem byte_after_of_le {touches : List Touch} (hτ : ∀ space, .enter space ∉ touches) {i : Nat}
    (hle : UInt32.size ≤ i) : (w.after touches).memory.ram.byte i = w.memory.ram.byte i := by
  induction touches generalizing w with
  | nil => rfl
  | cons τ touches ih =>
    have hstays : ∀ space, τ ≠ .enter space := fun space h => hτ space (h ▸ List.mem_cons_self ..)
    obtain ⟨hi', -⟩ := inside_touch hi hstays
    exact (ih hi' fun space h => hτ space (List.mem_cons_of_mem _ h)).trans
      (byte_touch_of_le hi hstays hle)

variable {e : UInt32} (he : e.toNat % 4 = 0) {k : Nat} (hk : k < 4)
include he hk

/-- Looking an address up only marks entries that a walk for it reads. -/
theorem word_look (slot : Slot) (vaddr : UInt32) (access : Access) (user : Bool) :
    (w.memory.ram.entry e).MarkedTo ((w.look slot vaddr access user).memory.ram.entry e) ∧
      ((w.look slot vaddr access user).memory.ram.byte (e.toNat + k) ≠
          w.memory.ram.byte (e.toNat + k) →
        e ∈ w.memory.ram.walkSlots w.space vaddr) := by
  rcases Memory.ram_resolve w.space slot vaddr access user w.memory with hr | hr
  · simp only [look, hr]
    exact ⟨.refl _, fun h => absurd rfl h⟩
  · simp only [look, hr]
    refine ⟨(walk_markedTo vaddr access user hi.aligned w.memory.ram).entry e he, fun hne => ?_⟩
    refine Classical.byContradiction fun hnot => hne ?_
    exact (marked_walk w.space vaddr access user w.memory.ram).byte_eq
      (fun _ hs => Ram.aligned_walkSlots hi.aligned hs) he hnot hk

theorem word_touch {τ : Touch} (hτ : ∀ space, τ ≠ .enter space) (hputs : ¬w.Puts τ e) :
    (w.memory.ram.entry e).MarkedTo ((w.touch τ).memory.ram.entry e) ∧
      ((w.touch τ).memory.ram.byte (e.toNat + k) ≠ w.memory.ram.byte (e.toNat + k) →
        w.Visits τ e) := by
  cases τ with
  | look slot vaddr access user =>
    obtain ⟨hm, hv⟩ := word_look hi he hk slot vaddr access user
    exact ⟨hm, fun hne => ⟨vaddr, rfl, hv hne⟩⟩
  | put slot vaddr user data fits =>
    obtain ⟨hm, hv⟩ := word_look hi he hk slot vaddr .store user
    -- the bytes go elsewhere, so the word is as looking the address up left it
    have hsize : (w.touch (.put slot vaddr user data fits)).memory.ram.bytes.size =
        (w.look slot vaddr .store user).memory.ram.bytes.size := by
      simp only [touch]
      cases hr : Memory.resolve w.space slot vaddr .store user w.memory with
      | error fault memory => rfl
      | ok pa memory =>
        have hl : (w.look slot vaddr .store user).memory = memory := congrArg stateOf hr
        rw [hl]
        exact Ram.size_blit ..
    have hsame : ∀ j < 4, (w.touch (.put slot vaddr user data fits)).memory.ram.byte (e.toNat + j) =
        (w.look slot vaddr .store user).memory.ram.byte (e.toNat + j) := by
      intro j hj
      simp only [touch]
      cases hr : Memory.resolve w.space slot vaddr .store user w.memory with
      | error fault memory => rfl
      | ok pa memory =>
        have hl : (w.look slot vaddr .store user).memory = memory := congrArg stateOf hr
        rw [hl]
        simp only [Memory.mapRam]
        rw [Ram.byte_blit (hi.holds hr fits), if_neg]
        rintro ⟨hle, hlt⟩
        exact hputs ⟨slot, vaddr, user, data, fits, pa, memory, rfl, hr, by omega, by omega⟩
    rw [Ram.entry_congr hsize hsame, hsame k hk]
    exact ⟨hm, fun hne => ⟨vaddr, rfl, hv hne⟩⟩
  | enter space => exact absurd rfl (hτ space)
  | forget => exact ⟨.refl _, fun h => absurd rfl h⟩

/-- A word into which nothing is put only gains marks, and that if a walk goes through it. -/
theorem word_after {touches : List Touch} (hτ : ∀ space, .enter space ∉ touches) :
    (∃ before τ rest, touches = before ++ τ :: rest ∧ (w.after before).Puts τ e) ∨
      (w.memory.ram.entry e).MarkedTo ((w.after touches).memory.ram.entry e) ∧
        ((w.after touches).memory.ram.byte (e.toNat + k) ≠ w.memory.ram.byte (e.toNat + k) →
          ∃ before τ rest, touches = before ++ τ :: rest ∧ (w.after before).Visits τ e) := by
  induction touches generalizing w with
  | nil => exact .inr ⟨.refl _, fun h => absurd rfl h⟩
  | cons τ touches ih =>
    have hstays : ∀ space, τ ≠ .enter space := fun space h => hτ space (h ▸ List.mem_cons_self ..)
    by_cases hputs : w.Puts τ e
    · exact .inl ⟨[], τ, touches, rfl, hputs⟩
    · obtain ⟨hm, hv⟩ := word_touch hi he hk hstays hputs
      obtain ⟨hi', -⟩ := inside_touch hi hstays
      rcases ih hi' fun space h => hτ space (List.mem_cons_of_mem _ h) with
        ⟨before, τ', rest, rfl, hputs'⟩ | ⟨hm', hv'⟩
      · exact .inl ⟨τ :: before, τ', rest, rfl, hputs'⟩
      · refine .inr ⟨hm.trans hm', fun hne => ?_⟩
        by_cases hsame : (w.touch τ).memory.ram.byte (e.toNat + k) =
            w.memory.ram.byte (e.toNat + k)
        · obtain ⟨before, τ', rest, rfl, hvisit⟩ := hv' (by rwa [hsame])
          exact ⟨τ :: before, τ', rest, rfl, hvisit⟩
        · exact ⟨[], τ, touches, rfl, hv hsame⟩

end

end Watched

end PagedMachine
