import PagedMachine.Proofs.Frames
import PagedMachine.Proofs.Interrupts
import PagedMachine.Proofs.Visits

/-!
# Pages lie in memory

In memory of whole pages the directory and the frames that the caches remember are pages that lie
wholly in memory (`Memory.Inside`), in every machine that a run comes to (`Run.inside`). So the bytes of
an access that stays in its page are in memory (`Memory.Inside.holds`), and the checks of ranges pass
(`Machine.reading_apply` and its like).
-/

set_option autoImplicit false

namespace PagedMachine

/-- Whether there is a page at `frame` that lies wholly in memory. -/
def Ram.HoldsPage (r : Ram) (frame : UInt32) : Prop :=
  frame.toNat % 4096 = 0 ∧ frame.toNat + 4096 ≤ r.bytes.size

theorem Ram.HoldsPage.of_size {r r' : Ram} {frame : UInt32} (h : r.HoldsPage frame)
    (hs : r'.bytes.size = r.bytes.size) : r'.HoldsPage frame := by
  rw [HoldsPage, hs]
  exact h

/-- In memory of whole pages the page of an address below the end lies in memory. -/
theorem Ram.Paged.holdsPage {r : Ram} (h : r.Paged) {frame : UInt32} (hb : pageBase frame = frame)
    (hlt : frame < r.size) : r.HoldsPage frame := by
  have hs := h.size
  have hle : r.size.toNat = r.bytes.size % 4294967296 := rfl
  have hbase := congrArg UInt32.toNat hb
  rw [pageBase_toNat] at hbase
  rw [UInt32.lt_iff_toNat_lt] at hlt
  refine ⟨by omega, ?_⟩
  have := Nat.mod_le r.bytes.size 4294967296
  omega

theorem Ram.Paged.of_size {r r' : Ram} (h : r.Paged) (hs : r'.bytes.size = r.bytes.size) :
    r'.Paged := by
  rw [Paged, hs]
  exact h

namespace Memory

/-- Whether the directory and all frames in the caches are pages that lie in memory. -/
structure Inside (space : AddressSpace) (m : Memory) : Prop where
  paged : m.ram.Paged
  directory : ∀ directory, space.directory = some directory → m.ram.HoldsPage directory
  frames : m.Remembers fun _ frame => m.ram.HoldsPage frame

namespace Inside

variable {space : AddressSpace} {m : Memory}

theorem aligned (h : m.Inside space) : space.Aligned := by
  intro directory hd
  have := (h.directory directory hd).1
  omega

theorem flush (hr : m.ram.Paged)
    (hd : ∀ directory, space.directory = some directory → m.ram.HoldsPage directory) :
    m.flush.Inside space :=
  ⟨hr, hd, .flush _ m⟩

theorem invalidatePath (h : m.Inside space) : m.invalidatePath.Inside space :=
  ⟨h.paged, h.directory, h.frames.invalidatePath⟩

/-- What is written makes no difference to where pages lie. -/
theorem of_size (h : m.Inside space) {m' : Memory} (hs : m'.ram.bytes.size = m.ram.bytes.size)
    (hf : m'.Remembers fun _ frame => m.ram.HoldsPage frame) : m'.Inside space :=
  ⟨h.paged.of_size hs, fun d hd => (h.directory d hd).of_size hs,
    fun page mapping he => (hf.tlb page mapping he).of_size hs,
    fun slot write e he => (hf.path slot write e he).of_size hs⟩

theorem mapRam (h : m.Inside space) {fn : Ram → Ram}
    (hs : (fn m.ram).bytes.size = m.ram.bytes.size) : (m.mapRam fn).Inside space :=
  h.of_size hs (h.frames.mapRam fn)

section
variable {slot : Slot} {vaddr : UInt32} {access : Access} {user : Bool}

/-- A page that is mapped lies in memory. -/
theorem holdsPage_of_walk (h : m.Inside space) {mapping : Mapping} {ram : Ram}
    (hw : walk space vaddr access user m.ram = .ok mapping ram) : m.ram.HoldsPage mapping.frame := by
  obtain ⟨hbase, hlt⟩ := pageBase_of_translate (translate_of_walk h.aligned h.paged hw)
  exact h.paged.holdsPage hbase hlt

variable (slot vaddr access user)

theorem resolve (h : m.Inside space) :
    (stateOf (Memory.resolve space slot vaddr access user m)).Inside space :=
  h.of_size (size_resolve space slot vaddr access user m)
    (h.frames.resolve fun _ _ hw => h.holdsPage_of_walk hw)

variable {slot vaddr access user}

/-- An address is resolved to its place in a page that lies in memory. -/
theorem frame (h : m.Inside space) {pa : UInt32} {m' : Memory}
    (hr : Memory.resolve space slot vaddr access user m = .ok pa m') :
    ∃ frame, m'.ram.HoldsPage frame ∧ pa = frame ||| pageOffset vaddr ∧
      pa.toNat = frame.toNat + vaddr.toNat % 4096 := by
  obtain ⟨frame, hpage, rfl⟩ := h.frames.frame (fun _ _ hw => h.holdsPage_of_walk hw) hr
  have hs := size_resolve space slot vaddr access user m
  rw [hr, stateOf_ok] at hs
  have ho := pageOffset_toNat vaddr
  refine ⟨frame, hpage.of_size hs, rfl, ?_⟩
  rw [toNat_or hpage.1 (by omega), ho]

/-- What stays in the page of its address is in memory. -/
theorem holds (h : m.Inside space) {pa : UInt32} {m' : Memory}
    (hr : Memory.resolve space slot vaddr access user m = .ok pa m') {n : Nat}
    (hn : vaddr.toNat % 4096 + n ≤ 4096) : m'.ram.holds pa n = true := by
  obtain ⟨frame, hpage, -, hpa⟩ := h.frame hr
  rw [Ram.holds_iff, hpa]
  have := hpage.2
  omega

end

end Inside

end Memory

namespace Machine

/-- Whether the pages that the machine knows of lie in its memory. -/
def Inside (m : Machine) : Prop := m.memory.Inside m.regs.space

section
variable {slot : Slot} {vaddr : UInt32} {access : Access} {m : Machine}

variable (slot vaddr access) in
theorem Inside.resolve (h : m.Inside) : (stateOf (resolve slot vaddr access m)).Inside := by
  have hr := Memory.Inside.resolve slot vaddr access m.regs.user h
  rw [resolve_apply]
  cases hc : Memory.resolve m.regs.space slot vaddr access m.regs.user m.memory <;> rwa [hc] at hr

theorem Inside.holds (h : m.Inside) {pa : UInt32} {m' : Machine}
    (hr : Machine.resolve slot vaddr access m = .ok pa m') {n : Nat}
    (hn : vaddr.toNat % 4096 + n ≤ 4096) : m'.memory.ram.holds pa n = true := by
  rw [resolve_apply] at hr
  cases hc : Memory.resolve m.regs.space slot vaddr access m.regs.user m.memory with
  | ok pa' memory =>
    rw [hc] at hr
    obtain ⟨rfl, rfl⟩ := EStateM.Result.ok.inj hr
    exact Memory.Inside.holds h hc hn
  | error fault memory =>
    rw [hc] at hr
    cases hr

end

theorem size_of_resolve {slot : Slot} {vaddr : UInt32} {access : Access} {pa : UInt32}
    {m m' : Machine} (hr : resolve slot vaddr access m = .ok pa m') :
    m'.memory.ram.bytes.size = m.memory.ram.bytes.size := by
  have hs := Memory.size_resolve m.regs.space slot vaddr access m.regs.user m.memory
  rw [resolve_apply] at hr
  cases hc : Memory.resolve m.regs.space slot vaddr access m.regs.user m.memory with
  | ok pa' memory =>
    rw [hc] at hr hs
    obtain ⟨-, rfl⟩ := EStateM.Result.ok.inj hr
    exact hs
  | error fault memory =>
    rw [hc] at hr
    cases hr

/-- Two addresses that are resolved one after the other. -/
theorem Inside.holds₂ {b a : UInt32} {access access' : Access} {m m₁ m₂ : Machine} (h : m.Inside)
    {pb pa : UInt32} (hrb : Machine.resolve .data b access m = .ok pb m₁)
    (hra : Machine.resolve .data a access' m₁ = .ok pa m₂) {n : Nat}
    (hb : b.toNat % 4096 + n ≤ 4096) (ha : a.toNat % 4096 + n ≤ 4096) :
    m₂.memory.ram.holds pb n = true ∧ m₂.memory.ram.holds pa n = true := by
  have h₁ := h.resolve .data b access
  rw [hrb, stateOf_ok] at h₁
  refine ⟨?_, h₁.holds hra ha⟩
  rw [Ram.holds, size_of_resolve hra]
  exact h.holds hrb hb

/-! ## Checks of ranges pass -/

theorem confirm_of_ok (fault : Option Fault) : confirm fault true = pure () := by
  cases fault <;> rfl

section
variable {m : Machine} (h : m.Inside)
include h

theorem reading_apply {α : Type} {slot : Slot} {vaddr : UInt32} {access : Access} {n : Nat}
    {fault : Option Fault} {read : Ram → UInt32 → α} (hn : vaddr.toNat % 4096 + n ≤ 4096) :
    reading slot vaddr access n fault read m =
      match resolve slot vaddr access m with
      | .ok pa m' => .ok (read m'.memory.ram pa) m'
      | .error fault m' => .error fault m' := by
  rw [reading, bind_apply]
  cases hr : resolve slot vaddr access m with
  | ok pa m' =>
    simp only [bind_apply, getRam_apply, h.holds hr hn, confirm_of_ok, pure_apply]
  | error fault m' => rfl

theorem writing_apply {slot : Slot} {vaddr : UInt32} {fault : Option Fault} {data : ByteArray}
    (hn : vaddr.toNat % 4096 + data.size ≤ 4096) :
    writing slot vaddr fault data m =
      match resolve slot vaddr .store m with
      | .ok pa m' => .ok () { m' with memory := m'.memory.mapRam (·.blit pa data) }
      | .error fault m' => .error fault m' := by
  rw [writing, bind_apply]
  cases hr : resolve slot vaddr .store m with
  | ok pa m' =>
    simp only [bind_apply, getRam_apply, h.holds hr hn, confirm_of_ok, pure_apply]
    rfl
  | error fault m' => rfl

theorem reading₂_apply {α : Type} {b a : UInt32} {n : Nat} {fault : Fault}
    {read : Ram → UInt32 → UInt32 → α} (hb : b.toNat % 4096 + n ≤ 4096)
    (ha : a.toNat % 4096 + n ≤ 4096) :
    reading₂ b a n fault read m =
      match resolve .data b .load m with
      | .ok pb m₁ =>
        match resolve .data a .load m₁ with
        | .ok pa m₂ => .ok (read m₂.memory.ram pa pb) m₂
        | .error fault m₂ => .error fault m₂
      | .error fault m₁ => .error fault m₁ := by
  rw [reading₂, bind_apply]
  cases hrb : resolve .data b .load m with
  | ok pb m₁ =>
    simp only [bind_apply]
    cases hra : resolve .data a .load m₁ with
    | ok pa m₂ =>
      obtain ⟨hpb, hpa⟩ := h.holds₂ hrb hra hb ha
      simp only [getRam_apply, hpa, hpb, Bool.and_self, require_apply, if_true, pure_apply]
    | error fault m₂ => rfl
  | error fault m₁ => rfl

theorem copying_apply {b a : UInt32} {n : Nat} {fault : Fault} (hb : b.toNat % 4096 + n ≤ 4096)
    (ha : a.toNat % 4096 + n ≤ 4096) :
    copying b a n fault m =
      match resolve .data b .load m with
      | .ok src m₁ =>
        match resolve .data a .store m₁ with
        | .ok dst m₂ => .ok () { m₂ with memory := m₂.memory.mapRam (·.copyWithin src dst n) }
        | .error fault m₂ => .error fault m₂
      | .error fault m₁ => .error fault m₁ := by
  rw [copying, bind_apply]
  cases hrb : resolve .data b .load m with
  | ok src m₁ =>
    simp only [bind_apply]
    cases hra : resolve .data a .store m₁ with
    | ok dst m₂ =>
      obtain ⟨hsrc, hdst⟩ := h.holds₂ hrb hra hb ha
      simp only [getRam_apply, hsrc, hdst, Bool.and_self, require_apply, if_true]
      rfl
    | error fault m₂ => rfl
  | error fault m₁ => rfl

end

/-! ## Along a run -/

theorem Inside.mapRam {m : Machine} (h : m.Inside) {fn : Ram → Ram}
    (hs : (fn m.memory.ram).bytes.size = m.memory.ram.bytes.size) :
    Inside { m with memory := m.memory.mapRam fn } :=
  Memory.Inside.mapRam h hs

/-- A change of the address space to a directory in memory, with empty caches. -/
theorem Inside.setSpace {m : Machine} (h : m.Inside) {space : AddressSpace}
    (hd : ∀ directory, space.directory = some directory → m.memory.ram.HoldsPage directory) :
    (stateOf (setSpace space m)).Inside :=
  .flush h.paged hd

/-- Code leaves the pages that the machine knows of in its memory. -/
theorem governed_inside : Governed fun x => ∀ m, m.Inside → (stateOf (x m)).Inside := by
  refine governed_of_transitions (T := fun m m' => m.Inside → m'.Inside) (fun _ h => h)
    (fun h h' hi => h' (h hi)) (fun hm hs h => ?_)
    (fun slot vaddr access _ h => h.resolve slot vaddr access)
    (fun hn m h => ?_) (fun hb ha m h => ?_) (fun i m h => ?_) (fun i m h => ?_)
    fun _ h => Memory.Inside.invalidatePath h
  case refine_1 => rwa [Inside, hm, hs]
  case refine_2 slot vaddr fault data =>
    rw [writing_apply h hn]
    have hr := h.resolve slot vaddr .store
    cases hc : Machine.resolve slot vaddr .store m with
    | ok pa m₁ =>
      rw [hc] at hr
      exact hr.mapRam (Ram.size_blit ..)
    | error fault m₁ => rwa [hc] at hr
  case refine_3 b a n fault =>
    rw [copying_apply h hb ha]
    have hr := h.resolve .data b .load
    cases hcb : Machine.resolve .data b .load m with
    | ok src m₁ =>
      rw [hcb] at hr
      have hr' := Inside.resolve .data a .store hr
      dsimp only
      cases hca : Machine.resolve .data a .store m₁ with
      | ok dst m₂ =>
        rw [stateOf_ok, hca] at hr'
        exact hr'.mapRam (Ram.size_copyWithin ..)
      | error fault m₂ => rwa [stateOf_ok, hca] at hr'
    | error fault m₁ => rwa [hcb] at hr
  case refine_4 =>
    rw [perform_setDirectory]
    split
    · rename_i hle
      refine h.setSpace fun directory hd => ?_
      obtain rfl := Option.some.inj hd
      have hsize : m.memory.ram.size.toNat = m.memory.ram.bytes.size % 4294967296 := rfl
      have := Nat.mod_le m.memory.ram.bytes.size 4294967296
      rw [pageBase_toNat] at hle
      rw [Ram.HoldsPage, pageBase_toNat]
      simp only [pageSize, UInt32.reduceToNat] at hle
      omega
    · exact h
  case refine_5 =>
    rw [perform_setPaging]
    split
    · exact h.setSpace h.directory
    · exact h

end Machine

open Machine

/-- In memory of whole pages a machine starts over with no page outside. -/
theorem Machine.inside_reset {m : Machine} (h : m.memory.ram.Paged) (pc sp : UInt32) :
    (m.reset pc sp).Inside :=
  .flush h nofun

/-- What is so of the machine when it starts stays so in every run. -/
theorem Run.inside {start m : Machine} {t : Tally} (h : Run start t m) (hs : start.Inside) :
    m.Inside := by
  induction h with
  | start => exact hs
  | @step t m m' flow _ hstep ih =>
    have hi := governed_inside.step m ih
    rwa [hstep] at hi
  | outside bridge timer _ ih => exact ih

end PagedMachine
