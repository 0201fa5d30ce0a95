import Mathlib.Data.FinEnum
import Mathlib.Data.Fintype.Powerset
import PagedMachine.Proofs.Chunks
import PagedMachine.Proofs.DemandPaging

/-!
# Block operations restart

A block operation that is run under incomplete tables, and again each time the entry it faulted at
was put back, ends as under the complete tables (`block_restarts`). Both runs go through the chunks
of `Machine.blockAt`, which has the physical addresses of the complete tables (`Follows.block`): a
fault stops between two chunks, with registers that say which.
-/

set_option autoImplicit false

namespace PagedMachine

/-! ## One run beside the other -/

/-- `m` is `J` but for the tables, which back those in `M`, and for caches that hold no others. -/
structure Follows (M : Ram) (d : UInt32) (user : Bool) (T : UInt32 → Access → Prop)
    (J m : Machine) : Prop where
  space : J.regs.space = ⟨true, some d⟩
  user : J.regs.user = user
  regs : m.regs = J.regs
  blockBytes : m.blockBytes = J.blockBytes
  size : J.memory.ram.bytes.size = M.bytes.size
  byte : ∀ i, ¬M.InTables d i → m.memory.ram.byte i = J.memory.ram.byte i
  backs : M.Backs d T m.memory.ram
  framed : m.memory.Framed M d

/-- The chunk of an access that the tables serve is in memory. -/
theorem Ram.Serves.holds_chunk {M r : Ram} {d : UInt32} {user : Bool} {T : UInt32 → Access → Prop}
    {op : BlockOp} {regs : Registers} {t : UInt32 × Access} (hS : M.Serves d user T)
    (ht : t ∈ op.touches regs) (hT : T t.1 t.2) (hs : r.bytes.size = M.bytes.size) :
    r.holds (M.physical d t.1) (op.length regs).toNat = true := by
  rw [Ram.holds_iff, hs, ← Ram.holds_iff]
  exact hS.holds hT (BlockOp.length_le_pageLeft ht)

namespace Follows

variable {M : Ram} {d : UInt32} {user : Bool} {T : UInt32 → Access → Prop} {op : BlockOp}
  {J m : Machine}

theorem size_eq (h : Follows M d user T J m) : m.memory.ram.bytes.size = J.memory.ram.bytes.size :=
  h.backs.size.trans h.size.symm

/-- An access that the tables serve gets their address, or faults at a missing entry. -/
theorem resolve (hS : M.Serves d user T) (h : Follows M d user T J m)
    {vaddr : UInt32} {access : Access} (hT : T vaddr access) :
    ∃ m', Follows M d user T J m' ∧ M.missing d T m'.memory.ram ⊆ M.missing d T m.memory.ram ∧
      (Machine.resolve .data vaddr access m = .ok (M.physical d vaddr) m' ∨
        vaddr ∈ M.missing d T m.memory.ram ∧
          Machine.resolve .data vaddr access m = .error (access.pageFault vaddr) m') := by
  obtain ⟨hframed, hanswer⟩ := Memory.resolve_of_backs hS hT h.backs h.framed
  have hmark : m.memory.ram.MarkedTo (stateOf (Memory.resolve ⟨true, some d⟩ .data vaddr access
    user m.memory)).ram := Memory.markedTo_resolve .data hS.aligned_space
  have hbyte (i : Nat) (hi : ¬M.InTables d i) := Memory.byte_resolve hS hT h.backs hi
  have hspace : m.regs.space = ⟨true, some d⟩ := by rw [h.regs, h.space]
  have huser : m.regs.user = user := by rw [h.regs, h.user]
  rw [Machine.resolve_apply, hspace, huser]
  cases hr : Memory.resolve ⟨true, some d⟩ .data vaddr access user m.memory with
  | ok pa memory =>
    rw [hr] at hframed hanswer hmark hbyte
    refine ⟨{ m with memory }, ⟨h.space, h.user, h.regs, h.blockBytes, h.size,
      fun i hi => ?_, h.backs.markedTo hS.aligned hmark, hframed⟩, Ram.missing_markedTo hmark,
      .inl ?_⟩
    · exact (hbyte i hi).trans (h.byte i hi)
    · rcases hanswer with ha | ⟨ha, -⟩
      · rw [Except.ok.inj ha]
      · cases ha
  | error fault memory =>
    rw [hr] at hframed hanswer hmark hbyte
    refine ⟨{ m with memory }, ⟨h.space, h.user, h.regs, h.blockBytes, h.size,
      fun i hi => ?_, h.backs.markedTo hS.aligned hmark, hframed⟩, Ram.missing_markedTo hmark,
      .inr ?_⟩
    · exact (hbyte i hi).trans (h.byte i hi)
    · rcases hanswer with ha | ⟨ha, hmiss⟩
      · cases ha
      · exact ⟨hmiss, by rw [Except.error.inj ha]⟩

theorem operands (hS : M.Serves d user T) (h : Follows M d user T J m)
    (hT : ∀ t ∈ op.touches J.regs, T t.1 t.2) :
    ∃ m', Follows M d user T J m' ∧ M.missing d T m'.memory.ram ⊆ M.missing d T m.memory.ram ∧
      (Machine.operands op m.regs m =
          .ok (M.physical d J.regs.a, M.physical d (op.other J.regs)) m' ∨
        ∃ t ∈ op.touches J.regs, t.1 ∈ M.missing d T m.memory.ram ∧
          Machine.operands op m.regs m = .error (t.2.pageFault t.1) m') := by
  rw [h.regs]
  have hmem := op.mem_touches J.regs
  cases op with
  | copy | compare =>
    obtain ⟨m₁, h₁, hsub₁, hb | ⟨hmiss, hb⟩⟩ :=
      h.resolve hS (hT (J.regs.b, .load) (List.mem_cons_self ..))
    · obtain ⟨m₂, h₂, hsub₂, ha | ⟨hmiss, ha⟩⟩ := h₁.resolve hS (hT _ hmem)
      · refine ⟨m₂, h₂, hsub₂.trans hsub₁, .inl ?_⟩
        simp only [Machine.operands, bind_apply, hb, ha, pure_apply, BlockOp.other]
      · refine ⟨m₂, h₂, hsub₂.trans hsub₁, .inr ⟨_, hmem, hsub₁ hmiss, ?_⟩⟩
        simp only [Machine.operands, bind_apply, hb, ha]
    · refine ⟨m₁, h₁, hsub₁, .inr ⟨(J.regs.b, .load), List.mem_cons_self .., hmiss, ?_⟩⟩
      simp only [Machine.operands, bind_apply, hb]
  | scan | fill =>
    obtain ⟨m₁, h₁, hsub₁, ha | ⟨hmiss, ha⟩⟩ := h.resolve hS (hT _ hmem)
    · refine ⟨m₁, h₁, hsub₁, .inl ?_⟩
      simp only [Machine.operands, bind_apply, ha, pure_apply, BlockOp.other]
    · refine ⟨m₁, h₁, hsub₁, .inr ⟨_, hmem, hmiss, ?_⟩⟩
      simp only [Machine.operands, bind_apply, ha]

theorem setRegs (h : Follows M d user T J m) {r : Registers}
    (hr : ∃ a b c, r = { J.regs with a, b, c }) :
    Follows M d user T { J with regs := r } { m with regs := r } := by
  obtain ⟨a, b, c, rfl⟩ := hr
  exact ⟨h.space, h.user, rfl, h.blockBytes, h.size, h.byte, h.backs, h.framed⟩

/-- Bytes may be stored outside the tables. -/
theorem stored (hS : M.Serves d user T) (h : Follows M d user T J m) {fn : Ram → Ram}
    (hsize : ∀ r, (fn r).bytes.size = r.bytes.size)
    (hin : ∀ i, M.InTables d i → (fn m.memory.ram).byte i = m.memory.ram.byte i)
    (hout : ∀ i, ¬M.InTables d i → (fn m.memory.ram).byte i = (fn J.memory.ram).byte i) :
    Follows M d user T (Machine.stored op fn J) (Machine.stored op fn m) ∧
      M.missing d T (Machine.stored op fn m).memory.ram ⊆ M.missing d T m.memory.ram := by
  refine ⟨⟨?_, ?_, ?_, ?_, (hsize _).trans h.size, hout, h.backs.of_byte hS (hsize _) hin,
    h.framed⟩, Ram.missing_of_byte hS (hsize _) hin⟩
  · obtain ⟨a, b, c, hr⟩ := op.rest_operands J.regs
    rw [Machine.stored, hr]
    exact h.space
  · obtain ⟨a, b, c, hr⟩ := op.rest_operands J.regs
    rw [Machine.stored, hr]
    exact h.user
  · rw [Machine.stored, Machine.stored, h.regs]
  · rw [Machine.stored, Machine.stored, h.regs, h.blockBytes]

/-- Bytes outside the tables compare alike. -/
theorem compared (h : Follows M d user T J m) {pa pb n : Nat}
    (hpa : ∀ k < n, ¬M.InTables d (pa + k)) (hpb : ∀ k < n, ¬M.InTables d (pb + k)) :
    (Machine.compared pa pb n m).1 = (Machine.compared pa pb n J).1 ∧
      Follows M d user T (Machine.compared pa pb n J).2 (Machine.compared pa pb n m).2 ∧
      (Machine.compared pa pb n m).2.memory = m.memory := by
  have hfirst : firstMismatch m.memory.ram pa pb n = firstMismatch J.memory.ram pa pb n :=
    firstMismatch_congr (fun k hk => h.byte _ (hpa k hk)) fun k hk => h.byte _ (hpb k hk)
  rw [Machine.compared, Machine.compared, hfirst, h.regs]
  cases hf : firstMismatch J.memory.ram pa pb n with
  | none => exact ⟨rfl, h.setRegs (BlockOp.rest_operands ..), rfl⟩
  | some i =>
    have hi := firstMismatch_lt hf
    simp only [h.byte _ (hpa i hi), h.byte _ (hpb i hi)]
    exact ⟨trivial, h.setRegs ⟨_, _, _, rfl⟩, trivial⟩

theorem scanned (h : Follows M d user T J m) {pa n : Nat}
    (hpa : ∀ k < n, ¬M.InTables d (pa + k)) :
    (Machine.scanned pa n m).1 = (Machine.scanned pa n J).1 ∧
      Follows M d user T (Machine.scanned pa n J).2 (Machine.scanned pa n m).2 ∧
      (Machine.scanned pa n m).2.memory = m.memory := by
  have hfirst : firstMatch m.memory.ram J.regs.b.toUInt8 pa n =
      firstMatch J.memory.ram J.regs.b.toUInt8 pa n :=
    firstMatch_congr fun k hk => h.byte _ (hpa k hk)
  rw [Machine.scanned, Machine.scanned, h.regs, hfirst]
  cases firstMatch J.memory.ram J.regs.b.toUInt8 pa n with
  | none => exact ⟨rfl, h.setRegs (BlockOp.rest_operands ..), rfl⟩
  | some i => exact ⟨rfl, h.setRegs ⟨_, _, _, rfl⟩, rfl⟩

section
variable (hS : M.Serves d user T) (h : Follows M d user T J m)
  (hu : ∀ t ∈ op.touches J.regs, T t.1 t.2 ∧ ∀ k < (op.length J.regs).toNat,
    ¬M.InTables d ((M.physical d t.1).toNat + k))
include hS h hu

/-- A chunk outside the tables takes the same effect in both runs. -/
theorem chunkAt :
    let next := Machine.chunkAt op (M.physical d)
    (next m).1 = (next J).1 ∧ Follows M d user T (next J).2 (next m).2 ∧
      M.missing d T (next m).2.memory.ram ⊆ M.missing d T m.memory.ram := by
  intro next
  simp only [next, Machine.chunkAt, h.regs]
  have hmem := op.mem_touches J.regs
  obtain ⟨access, hother⟩ := op.other_mem_touches J.regs
  obtain ⟨hTa, hpa⟩ := hu _ hmem
  obtain ⟨hTb, hpb⟩ := hu _ hother
  have ha (r : Ram) := hS.holds_chunk (r := r) hmem hTa
  have hb (r : Ram) := hS.holds_chunk (r := r) hother hTb
  dsimp only at hpa hpb ha hb
  generalize M.physical d J.regs.a = pa at *
  generalize M.physical d (op.other J.regs) = pb at *
  -- a byte of the tables is not in the chunk that is stored
  have hnot (i : Nat) (hi : M.InTables d i) :
      ¬(pa.toNat ≤ i ∧ i < pa.toNat + (op.length J.regs).toNat) := by
    rintro ⟨hle, hlt⟩
    exact hpa (i - pa.toNat) (by omega) (by rwa [Nat.add_sub_cancel' hle])
  cases op with
  | copy =>
    simp only [Machine.effect, h.regs]
    refine ⟨trivial, h.stored hS (fun _ => Ram.size_copyWithin ..) (fun i hi => ?_)
      (fun i hi => ?_)⟩
    · rw [Ram.byte_copyWithin (hb _ h.backs.size) (ha _ h.backs.size), if_neg (hnot i hi)]
    · rw [Ram.byte_copyWithin (hb _ h.backs.size) (ha _ h.backs.size),
        Ram.byte_copyWithin (hb _ h.size) (ha _ h.size), h.byte i hi]
      split
      · rw [h.byte _ (hpb _ (by omega))]
      · rfl
  | fill =>
    simp only [Machine.effect, h.regs]
    refine ⟨trivial, h.stored hS (fun _ => Ram.size_fill ..) (fun i hi => ?_) (fun i hi => ?_)⟩
    · rw [Ram.byte_fill (ha _ h.backs.size), if_neg (hnot i hi)]
    · rw [Ram.byte_fill (ha _ h.backs.size), Ram.byte_fill (ha _ h.size), h.byte i hi]
  | compare =>
    simp only [Machine.effect, h.regs]
    obtain ⟨hd, hfollows, hsame⟩ := h.compared hpa hpb
    exact ⟨hd, hfollows, by rw [hsame]⟩
  | scan =>
    simp only [Machine.effect, h.regs]
    obtain ⟨hd, hfollows, hsame⟩ := h.scanned hpa
    exact ⟨hd, hfollows, by rw [hsame]⟩

/-- A chunk takes effect as with the addresses of the complete tables, or faults at a missing
entry. -/
theorem chunk :
    ∃ m', M.missing d T m'.memory.ram ⊆ M.missing d T m.memory.ram ∧
      (Machine.chunk op m = .ok (Machine.chunkAt op (M.physical d) J).1 m' ∧
          Follows M d user T (Machine.chunkAt op (M.physical d) J).2 m' ∨
        ∃ t ∈ op.touches J.regs, t.1 ∈ M.missing d T m.memory.ram ∧
          Machine.chunk op m = .error (t.2.pageFault t.1) m' ∧ Follows M d user T J m') := by
  rw [Machine.chunk_apply]
  obtain ⟨m₁, h₁, hsub, ho | ⟨t, ht, hmiss, ho⟩⟩ := h.operands hS fun t ht => (hu t ht).1
  · have hmem := op.mem_touches J.regs
    obtain ⟨access, hother⟩ := op.other_mem_touches J.regs
    obtain ⟨hd, hfollows, hsub'⟩ := h₁.chunkAt hS hu
    have ha := hS.holds_chunk hmem (hu _ hmem).1 h₁.backs.size
    have hb := hS.holds_chunk hother (hu _ hother).1 h₁.backs.size
    refine ⟨_, hsub'.trans hsub, .inl ⟨?_, hfollows⟩⟩
    rw [ho, h.regs]
    dsimp only at ha hb ⊢
    rw [ha, hb, Bool.and_self, if_pos rfl, ← hd, Machine.chunkAt, h₁.regs]
  · exact ⟨m₁, hsub, .inr ⟨t, ht, hmiss, by rw [ho], h₁⟩⟩

end

end Follows

/-! ## Whole runs -/

/-- All that the operation uses is in `T` and outside the tables. -/
def Machine.Within (M : Ram) (d : UInt32) (T : UInt32 → Access → Prop) (op : BlockOp)
    (m : Machine) : Prop :=
  ∀ vaddr access n, m.Touches op (M.physical d) vaddr access n →
    T vaddr access ∧ ∀ k < n, ¬M.InTables d ((M.physical d vaddr).toNat + k)

theorem Machine.Within.of_reaches {M : Ram} {d : UInt32} {T : UInt32 → Access → Prop} {op : BlockOp}
    {m m' : Machine} (h : m.Within M d T op) (hm : Reaches op (M.physical d) m m') :
    m'.Within M d T op := by
  intro vaddr access n ht
  obtain ⟨m'', hreach, hrest⟩ := ht
  exact h vaddr access n ⟨m'', hm.trans hreach, hrest⟩

/-- Gives the page of `vaddr` the table entry that it has in `M`. -/
def Machine.repair (M : Ram) (d vaddr : UInt32) (m : Machine) : Machine :=
  { m with memory := { m.memory with ram := M.repair d vaddr m.memory.ram } }

/-- Runs of a block operation until it completes, each from where the last one faulted, with the
entry of `M` put back: the machines at the faults and the machine at the end. -/
inductive Retries (op : BlockOp) (M : Ram) (d : UInt32) : Machine → List Machine → Machine → Prop
  | done {m m' : Machine} : Machine.block op m = .ok () m' → Retries op M d m [] m'
  | retry {m m' f : Machine} {faults : List Machine} {vaddr : UInt32} {access : Access} :
      Machine.block op m = .error (access.pageFault vaddr) f →
      Retries op M d (f.repair M d vaddr) faults m' → Retries op M d m (f :: faults) m'

theorem Access.pageFault_inj {access access' : Access} {vaddr vaddr' : UInt32}
    (h : access.pageFault vaddr = access'.pageFault vaddr') : vaddr = vaddr' := by
  cases access <;> cases access' <;> simp_all [pageFault]

/-- There is but one way to go on. -/
theorem Retries.unique {op : BlockOp} {M : Ram} {d : UInt32} {m m₁ m₂ : Machine}
    {faults₁ faults₂ : List Machine} (h₁ : Retries op M d m faults₁ m₁)
    (h₂ : Retries op M d m faults₂ m₂) : faults₁ = faults₂ ∧ m₁ = m₂ := by
  induction h₁ generalizing faults₂ with
  | done hb₁ =>
    cases h₂ with
    | done hb₂ => exact ⟨rfl, (EStateM.Result.ok.inj (hb₁.symm.trans hb₂)).2⟩
    | retry hb₂ _ => exact absurd (hb₁.symm.trans hb₂) nofun
  | retry hb₁ _ ih =>
    cases h₂ with
    | done hb₂ => exact absurd (hb₁.symm.trans hb₂) nofun
    | retry hb₂ hrest =>
      obtain ⟨hfault, rfl⟩ := EStateM.Result.error.inj (hb₁.symm.trans hb₂)
      obtain rfl := Access.pageFault_inj hfault
      obtain ⟨rfl, rfl⟩ := ih hrest
      exact ⟨rfl, rfl⟩

namespace Follows

variable {M : Ram} {d : UInt32} {user : Bool} {T : UInt32 → Access → Prop} {op : BlockOp}
  {J m : Machine}

/-- A run ends as with the addresses of the complete tables, or faults at a missing entry between
two chunks. -/
theorem block (hS : M.Serves d user T) (h : Follows M d user T J m) (hw : J.Within M d T op) :
    (∃ m', Machine.block op m = .ok () m' ∧
      Follows M d user T (Machine.blockAt op (M.physical d) J) m') ∨
    ∃ (J' f : Machine) (vaddr : UInt32) (access : Access),
      Machine.block op m = .error (access.pageFault vaddr) f ∧
      vaddr ∈ M.missing d T m.memory.ram ∧
      M.missing d T f.memory.ram ⊆ M.missing d T m.memory.ram ∧
      Machine.Reaches op (M.physical d) J J' ∧ Follows M d user T J' f := by
  induction hn : J.regs.c.toNat using Nat.strongRecOn generalizing J m with
  | ind n ih =>
    rw [Machine.block_apply, Machine.blockAt, h.regs]
    by_cases hc : J.regs.c = 0
    · rw [if_pos hc, dif_pos hc]
      exact .inl ⟨_, rfl, h.setRegs (op.finish_operands _)⟩
    · rw [if_neg hc, dif_neg hc]
      have hu (t : UInt32 × Access) (ht : t ∈ op.touches J.regs) :=
        hw t.1 t.2 _ ⟨J, .refl J, hc, ht, rfl⟩
      obtain ⟨m₁, hsub, ⟨hchunk, h₁⟩ | ⟨t, ht, hmiss, hchunk, h₁⟩⟩ := h.chunk hS hu
      · rw [hchunk]
        cases hd : (Machine.chunkAt op (M.physical d) J).1 with
        | true =>
          rw [dif_pos rfl]
          exact .inl ⟨m₁, rfl, h₁⟩
        | false =>
          rw [dif_neg Bool.false_ne_true]
          have hlt := Machine.c_chunkAt_lt op (M.physical d) hc hd
          have hw₁ := hw.of_reaches (.chunk hc hd (.refl _))
          rcases ih _ (hn ▸ hlt) h₁ hw₁ rfl with
            hok | ⟨J', f, v, access, hb, hmiss, hsub', hreach, hf⟩
          · exact .inl hok
          · refine .inr ⟨J', f, v, access, hb, hsub hmiss, hsub'.trans hsub, ?_, hf⟩
            exact .chunk hc hd hreach
      · rw [hchunk]
        exact .inr ⟨J, m₁, t.1, t.2, rfl, hmiss, hsub, .refl J, h₁⟩

/-- Putting a missing entry back leaves the run where it was. -/
theorem repair (hS : M.Serves d user T) (h : Follows M d user T J m) {vaddr : UInt32}
    {access : Access} (hT : T vaddr access) : Follows M d user T J (m.repair M d vaddr) :=
  ⟨h.space, h.user, h.regs, h.blockBytes, h.size,
    fun i hi => (Ram.byte_repair hS hT hi _).trans (h.byte i hi), Ram.Backs.repair hS hT h.backs,
    h.framed⟩

/-- The loop completes, since each fault takes an address off the missing ones for good. -/
theorem retries (hS : M.Serves d user T) (h : Follows M d user T J m) (hw : J.Within M d T op) :
    ∃ faults m', Retries op M d m faults m' ∧
      Follows M d user T (Machine.blockAt op (M.physical d) J) m' ∧
      ∀ f ∈ faults, ∃ J', Machine.Reaches op (M.physical d) J J' ∧ Follows M d user T J' f := by
  induction hs : M.missing d T m.memory.ram using WellFoundedLT.induction generalizing J m with
  | ind missing ih =>
    rcases h.block hS hw with ⟨m', hb, hm'⟩ | ⟨J', f, v, access, hb, hmiss, hsub, hreach, hf⟩
    · exact ⟨[], m', .done hb, hm', by simp⟩
    · obtain ⟨access', hT⟩ := hmiss.1
      have hrepair := Ram.missing_repair hS hT hf.backs
      have hlt : M.missing d T (f.repair M d v).memory.ram < missing := by
        rw [← hs]
        refine Set.ssubset_iff_exists.2 ⟨fun w hw => hsub (hrepair hw).1, v, hmiss, fun hv => ?_⟩
        exact (hrepair hv).2 rfl
      obtain ⟨faults, m', hretry, hm', hfaults⟩ :=
        ih _ hlt (hf.repair hS hT) (hw.of_reaches hreach) rfl
      refine ⟨f :: faults, m', .retry hb hretry, ?_, fun g hg => ?_⟩
      · rwa [← Machine.blockAt_of_reaches hreach]
      · rcases List.mem_cons.1 hg with rfl | hg
        · exact ⟨J', hreach, hf⟩
        · obtain ⟨J'', hreach', hg'⟩ := hfaults g hg
          exact ⟨J'', hreach.trans hreach', hg'⟩

end Follows

/-! ## The operation restarts -/

/-- What the operation uses is mapped by the tables in memory, outside of these tables. -/
structure Machine.Mapped (op : BlockOp) (d : UInt32) (m : Machine) : Prop where
  space : m.regs.space = ⟨true, some d⟩
  aligned : d.toNat % 4096 = 0
  paged : m.memory.ram.Paged
  mapped : ∀ vaddr access n, m.Touches op (m.memory.ram.physical d) vaddr access n →
    ∃ frame, m.memory.ram.translate m.regs.space vaddr access m.regs.user = .ok frame
  apart : ∀ vaddr access n, m.Touches op (m.memory.ram.physical d) vaddr access n →
    ∀ k < n, ¬m.memory.ram.InTables d ((m.memory.ram.physical d vaddr).toNat + k)

/-- The accesses of the operation under the tables in memory. -/
def Machine.Uses (op : BlockOp) (d : UInt32) (m : Machine) (vaddr : UInt32) (access : Access) :
    Prop :=
  ∃ n, m.Touches op (m.memory.ram.physical d) vaddr access n

section
variable {op : BlockOp} {d : UInt32} {m : Machine} {r : Ram}

theorem Machine.Mapped.serves (h : m.Mapped op d) :
    m.memory.ram.Serves d m.regs.user (m.Uses op d) := by
  refine ⟨h.aligned, h.paged, fun vaddr access hT => ?_, fun vaddr access hT => ?_⟩
  · obtain ⟨n, hT⟩ := hT
    rw [← h.space]
    exact h.mapped vaddr access n hT
  · obtain ⟨n, m', hreach, hc, ht, hn⟩ := hT
    have hpos := op.length_pos hc
    exact h.apart vaddr access n ⟨m', hreach, hc, ht, hn⟩ 0 (by omega)

theorem Machine.Mapped.within (h : m.Mapped op d) :
    m.Within m.memory.ram d (m.Uses op d) op :=
  fun vaddr access n hT => ⟨⟨n, hT⟩, h.apart vaddr access n hT⟩

theorem Machine.Mapped.follows (h : m.Mapped op d)
    (hcache : ∀ page : UInt32, m.memory.tlb.entries[page]? = none)
    (hr : m.memory.ram.Withholds d (m.Uses op d) r) :
    Follows m.memory.ram d m.regs.user (m.Uses op d) m (m.withRam r) := by
  refine ⟨h.space, rfl, rfl, rfl, rfl, fun i hi => hr.byte_eq h.serves hi, hr.backs h.serves, ?_⟩
  intro vaddr mapping he
  have hnone : (m.withRam r).memory.tlb.entries[pageNumber vaddr]? = none := hcache _
  rw [hnone] at he
  cases he

theorem Ram.withholds_self (M : Ram) (d : UInt32) (T : UInt32 → Access → Prop) :
    M.Withholds d T M :=
  ⟨rfl, fun _ _ => rfl, fun _ _ _ _ => rfl⟩

theorem Ram.missing_self (M : Ram) (d : UInt32) (T : UInt32 → Access → Prop) :
    M.missing d T M = ∅ :=
  Set.eq_empty_of_forall_notMem fun _ h => h.2 (.refl _)

end

/-! ## A page that is mapped only after a fill of it faulted -/

/-- A machine about to store eight bytes in the one page that it maps. -/
def Machine.onePage : Machine :=
  { regs := { a := 16, b := 7, c := 8, space := ⟨true, some 0⟩ }
    memory := { ram := .onePage, tlb := .ofCapacity 1, path := .make true } }

theorem Machine.touches_onePage {vaddr : UInt32} {access : Access} {n : Nat}
    {phys : UInt32 → UInt32} (h : Touches .fill phys onePage vaddr access n) :
    vaddr = 16 ∧ access = .store := by
  have ht := h.of_length_eq (by decide)
  simpa [BlockOp.touches, BlockOp.access, onePage] using ht

theorem Ram.inTables_onePage {i : Nat} (h : onePage.InTables 0 i) : i < 8192 := by
  rcases h with ⟨-, h⟩ | ⟨vaddr, hp, -, h⟩
  · simp only [UInt32.reduceToNat] at h
    omega
  · rw [directoryEntry_onePage hp, show (PageEntry.base ⟨0x1007⟩).toNat = 4096 by decide] at h
    omega

theorem Machine.mapped_onePage : onePage.Mapped .fill 0 := by
  have hpaged : Ram.onePage.Paged := by rw [Ram.Paged, Ram.size_onePage]
  refine ⟨rfl, rfl, hpaged, fun vaddr access n h => ?_, fun vaddr access n h => ?_⟩
  · obtain ⟨rfl, rfl⟩ := touches_onePage h
    obtain ⟨hdir, htab⟩ := Ram.entry_onePage
    refine ⟨0x2000, (translate_eq_ok_iff rfl rfl).2 ?_⟩
    have hsize : Ram.onePage.size = 12288 := by rw [Ram.size, Ram.size_onePage]; rfl
    simp only [onePage, hdir, htab, hsize]
    decide
  · obtain ⟨rfl, rfl⟩ := touches_onePage h
    intro k hk hin
    have hlt := Ram.inTables_onePage hin
    have hphys := Ram.physical_toNat Ram.onePage 0 16
    rw [Ram.entry_onePage.2, show (PageEntry.base ⟨0x2007⟩).toNat = 8192 by decide] at hphys
    simp only [onePage, hphys] at hlt
    omega

theorem Machine.withholds_onePage :
    Ram.onePage.Withholds 0 (onePage.Uses .fill 0) (Ram.onePage.write32 4096 0) := by
  have hslot : Ram.onePage.tableSlot 0 16 = 4096 := by
    rw [Ram.tableSlot, Ram.entry_onePage.1]
    decide
  refine ⟨Ram.size_write32 .., fun i hi => ?_, fun vaddr access h => ?_⟩
  · have huse : onePage.Uses .fill 0 16 .store :=
      ⟨_, _, .refl _, by decide, by decide, rfl⟩
    have h := hi 16 .store huse
    rw [hslot] at h
    exact Ram.byte_write32_of_disjoint h _
  · obtain ⟨n, h⟩ := h
    obtain ⟨rfl, rfl⟩ := touches_onePage h
    have hholds : Ram.onePage.holds 4096 4 = true := by
      rw [Ram.holds_iff, Ram.size_onePage]
      decide
    rw [hslot, Ram.entry, Ram.read32_write32 hholds]
    exact fun hp => absurd hp (by decide)

/-! ## Main result -/

/-- Under tables with entries withheld, and put back one by one where it faults, a block operation
completes, in one way only, with the registers, the count and the bytes outside the tables that it has
under the complete tables. At each fault some first bytes are done, and no byte was stored twice. -/
theorem block_restarts {op : BlockOp} {d : UInt32} {m : Machine} {r : Ram} (h : m.Mapped op d)
    (hcache : ∀ page : UInt32, m.memory.tlb.entries[page]? = none)
    (hr : m.memory.ram.Withholds d (m.Uses op d) r) :
    ∃ faults m₁ m₂, Retries op m.memory.ram d (m.withRam r) faults m₁ ∧
      (∀ faults' m', Retries op m.memory.ram d (m.withRam r) faults' m' →
        faults' = faults ∧ m' = m₁) ∧
      Machine.block op m = .ok () m₂ ∧ m₁.regs = m₂.regs ∧ m₁.blockBytes = m₂.blockBytes ∧
      m₁.memory.ram.bytes.size = m₂.memory.ram.bytes.size ∧
      (∀ i, ¬m.memory.ram.InTables d i → m₁.memory.ram.byte i = m₂.memory.ram.byte i) ∧
      ∀ f ∈ faults, ∃ n, n ≤ m.regs.c ∧ f.regs = op.advance n m.regs ∧
        (op = .copy ∨ op = .fill → f.blockBytes = m.blockBytes + n.toNat) := by
  obtain ⟨faults, m₁, hretry, h₁, hfaults⟩ := (h.follows hcache hr).retries h.serves h.within
  -- under the complete tables nothing is missing, so the first run completes
  have hself := h.follows hcache (Ram.withholds_self _ d (m.Uses op d))
  rcases hself.block h.serves h.within with ⟨m₂, hb, h₂⟩ | ⟨J', f, v, access, -, hmiss, -⟩
  · refine ⟨faults, m₁, m₂, hretry, fun _ _ h => h.unique hretry, hb, h₁.regs.trans h₂.regs.symm,
      h₁.blockBytes.trans h₂.blockBytes.symm, h₁.size_eq.trans h₂.size_eq.symm,
      fun i hi => (h₁.byte i hi).trans (h₂.byte i hi).symm, fun f hf => ?_⟩
    obtain ⟨J', hreach, hf'⟩ := hfaults f hf
    obtain ⟨n, hn, hregs, hbytes⟩ := hreach.advance
    exact ⟨n, hn, hf'.regs.trans hregs, fun hop => hf'.blockBytes.trans (hbytes hop)⟩
  · rw [Machine.withRam, Ram.missing_self] at hmiss
    exact absurd hmiss (Set.notMem_empty v)

theorem block_restarts_onePage :
    ∃ faults m₁ m₂, Retries .fill .onePage 0
        (Machine.onePage.withRam (Ram.onePage.write32 4096 0)) faults m₁ ∧
      (∀ faults' m', Retries .fill .onePage 0
        (Machine.onePage.withRam (Ram.onePage.write32 4096 0)) faults' m' →
        faults' = faults ∧ m' = m₁) ∧
      Machine.block .fill Machine.onePage = .ok () m₂ ∧ m₁.regs = m₂.regs ∧
      m₁.blockBytes = m₂.blockBytes ∧
      m₁.memory.ram.bytes.size = m₂.memory.ram.bytes.size ∧
      (∀ i, ¬Ram.onePage.InTables 0 i → m₁.memory.ram.byte i = m₂.memory.ram.byte i) ∧
      ∀ f ∈ faults, ∃ n, n ≤ Machine.onePage.regs.c ∧
        f.regs = BlockOp.fill.advance n Machine.onePage.regs ∧
        (BlockOp.fill = .copy ∨ BlockOp.fill = .fill →
          f.blockBytes = Machine.onePage.blockBytes + n.toNat) :=
  block_restarts Machine.mapped_onePage (fun _ => by simp [Machine.onePage, Tlb.ofCapacity])
    Machine.withholds_onePage

end PagedMachine
