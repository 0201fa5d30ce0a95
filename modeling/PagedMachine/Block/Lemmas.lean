import PagedMachine.Block
import PagedMachine.Machine.Lemmas
import PagedMachine.Ram.Lemmas

/-!
# Block operations, chunk by chunk

A block operation is its next chunk and then the operation again on the operands that are left
(`block_apply`). A chunk resolves its operands (`BlockOp.touches`) and then does what
`Machine.effect` says of their physical addresses (`chunk_cases`).
-/

set_option autoImplicit false

namespace PagedMachine

/-! ## Operands -/

namespace BlockOp

/-- What a is used for. -/
def access : BlockOp → Access
  | copy | fill => .store
  | compare | scan => .load

/-- The accesses of a chunk, in their order. -/
def touches (op : BlockOp) (r : Registers) : List (UInt32 × Access) :=
  match op with
  | copy | compare => [(r.b, .load), (r.a, op.access)]
  | scan | fill => [(r.a, op.access)]

/-- The length of the next chunk. -/
def length (op : BlockOp) (r : Registers) : UInt32 :=
  match op with
  | copy | compare => chunkLeft₂ r.a r.b r.c
  | scan | fill => chunkLeft r.a r.c

/-- The other address of a chunk: a again, where b is only a byte. -/
def other (op : BlockOp) (r : Registers) : UInt32 :=
  match op with
  | copy | compare => r.b
  | scan | fill => r.a

/-- The registers with the first `n` bytes done. -/
def advance (op : BlockOp) (n : UInt32) (r : Registers) : Registers :=
  match op with
  | copy | compare => { r with a := r.a + n, b := r.b + n, c := r.c - n }
  | scan | fill => { r with a := r.a + n, c := r.c - n }

/-- The registers after a chunk that decided nothing. -/
def rest (op : BlockOp) (r : Registers) : Registers := op.advance (op.length r) r

/-- The registers where nothing is left. -/
def finish (op : BlockOp) (r : Registers) : Registers :=
  match op with
  | copy | fill => r
  | compare | scan => { r with a := 0 }

theorem length_le (op : BlockOp) (r : Registers) : (op.length r).toNat ≤ r.c.toNat := by
  cases op with
  | copy | compare =>
    rw [length, chunkLeft₂_toNat]
    omega
  | scan | fill =>
    rw [length, chunkLeft_toNat]
    omega

theorem mem_touches (op : BlockOp) (r : Registers) : (r.a, op.access) ∈ op.touches r := by
  cases op <;> simp [touches]

theorem other_mem_touches (op : BlockOp) (r : Registers) :
    ∃ access, (op.other r, access) ∈ op.touches r := by
  cases op with
  | copy | compare => exact ⟨.load, List.mem_cons_self ..⟩
  | scan | fill => exact ⟨_, List.mem_cons_self ..⟩

/-- A chunk ends where the page of an operand does, at the latest. -/
theorem length_le_pageLeft {op : BlockOp} {r : Registers} {t : UInt32 × Access}
    (ht : t ∈ op.touches r) : (op.length r).toNat ≤ (pageLeft t.1).toNat := by
  cases op with
  | copy | compare =>
    rw [length, chunkLeft₂_toNat]
    simp only [touches, List.mem_cons, List.not_mem_nil, or_false] at ht
    rcases ht with rfl | rfl <;> dsimp only <;> omega
  | scan | fill =>
    rw [length, chunkLeft_toNat]
    simp only [touches, List.mem_cons, List.not_mem_nil, or_false] at ht
    rcases ht with rfl
    dsimp only
    omega

theorem length_pos (op : BlockOp) {r : Registers} (h : r.c ≠ 0) : 0 < (op.length r).toNat := by
  have hc : 0 < r.c.toNat := Nat.pos_of_ne_zero fun h0 => h (UInt32.toNat_inj.1 h0)
  have ha := pageLeft_pos r.a
  have hb := pageLeft_pos r.b
  cases op with
  | copy | compare =>
    rw [length, chunkLeft₂_toNat]
    omega
  | scan | fill =>
    rw [length, chunkLeft_toNat]
    omega

theorem rest_c (op : BlockOp) (r : Registers) : (op.rest r).c = r.c - op.length r := by
  cases op <;> rfl

/-- A chunk and what is done of the rest is part of the whole, so the sum does not wrap around. -/
theorem length_add (op : BlockOp) {r : Registers} {n : UInt32} (h : n ≤ (op.rest r).c) :
    op.length r + n ≤ r.c ∧ (op.length r + n).toNat = (op.length r).toNat + n.toNat := by
  have hle := op.length_le r
  have hlt := r.c.toNat_lt
  rw [rest_c, UInt32.le_iff_toNat_le, UInt32.toNat_sub_of_le _ _ (UInt32.le_iff_toNat_le.2 hle)] at h
  have hsum : (op.length r + n).toNat = (op.length r).toNat + n.toNat := by
    rw [UInt32.toNat_add]
    omega
  refine ⟨?_, hsum⟩
  rw [UInt32.le_iff_toNat_le, hsum]
  omega

theorem rest_c_lt (op : BlockOp) {r : Registers} (h : r.c ≠ 0) :
    (op.rest r).c.toNat < r.c.toNat := by
  cases op with
  | copy | compare => exact sub_chunkLeft₂_lt h
  | scan | fill => exact sub_chunkLeft_lt h

/-- Only operands advance. -/
theorem rest_operands (op : BlockOp) (r : Registers) :
    ∃ a b c, op.rest r = { r with a, b, c } := by
  cases op <;> exact ⟨_, _, _, rfl⟩

theorem finish_operands (op : BlockOp) (r : Registers) :
    ∃ a b c, op.finish r = { r with a, b, c } := by
  cases op <;> exact ⟨_, _, _, rfl⟩

theorem advance_zero (op : BlockOp) (r : Registers) : op.advance 0 r = r := by
  cases op <;> simp [advance]

theorem advance_advance (op : BlockOp) (n k : UInt32) (r : Registers) :
    op.advance k (op.advance n r) = op.advance (n + k) r := by
  have hc : r.c - n - k = r.c - (n + k) := by grind
  cases op <;> simp [advance, UInt32.add_assoc, hc]

end BlockOp

/-! ## Searching -/

theorem firstMismatch_lt {ram : Ram} {i j n k : Nat} (h : firstMismatch ram i j n = some k) :
    k < n := by
  induction n generalizing i j k with
  | zero => simp [firstMismatch] at h
  | succ n ih =>
    rw [firstMismatch] at h
    split at h
    · obtain rfl := Option.some.inj h
      omega
    · obtain ⟨k', hk, rfl⟩ := Option.map_eq_some_iff.1 h
      exact Nat.succ_lt_succ (ih hk)

theorem firstMismatch_congr {r s : Ram} {i j n : Nat}
    (hi : ∀ k < n, r.byte (i + k) = s.byte (i + k))
    (hj : ∀ k < n, r.byte (j + k) = s.byte (j + k)) :
    firstMismatch r i j n = firstMismatch s i j n := by
  induction n generalizing i j with
  | zero => rfl
  | succ n ih =>
    have hi0 : r.byte i = s.byte i := hi 0 (Nat.succ_pos n)
    have hj0 : r.byte j = s.byte j := hj 0 (Nat.succ_pos n)
    have hrest := ih (i := i + 1) (j := j + 1)
      (fun k hk => by simpa [Nat.add_assoc, Nat.add_comm 1] using hi (k + 1) (by omega))
      (fun k hk => by simpa [Nat.add_assoc, Nat.add_comm 1] using hj (k + 1) (by omega))
    rw [firstMismatch, firstMismatch, hi0, hj0, hrest]

theorem firstMatch_congr {r s : Ram} {needle : UInt8} {i n : Nat}
    (hi : ∀ k < n, r.byte (i + k) = s.byte (i + k)) :
    firstMatch r needle i n = firstMatch s needle i n := by
  induction n generalizing i with
  | zero => rfl
  | succ n ih =>
    have hi0 : r.byte i = s.byte i := hi 0 (Nat.succ_pos n)
    have hrest := ih (i := i + 1)
      (fun k hk => by simpa [Nat.add_assoc, Nat.add_comm 1] using hi (k + 1) (by omega))
    rw [firstMatch, firstMatch, hi0, hrest]

namespace Machine

/-! ## Chunks -/

/-- The machine after a chunk that stored bytes. -/
def stored (op : BlockOp) (fn : Ram → Ram) (m : Machine) : Machine :=
  { m with
    regs := op.rest m.regs
    memory := { m.memory with ram := fn m.memory.ram }
    blockBytes := m.blockBytes + (op.length m.regs).toNat }

/-- The machine after a chunk of `n` equal bytes, or with the difference that was found. -/
def compared (pa pb n : Nat) (m : Machine) : Bool × Machine :=
  let ram := m.memory.ram
  match firstMismatch ram pa pb n with
  | some i =>
    let diff := (ram.byte (pa + i)).toUInt32 - (ram.byte (pb + i)).toUInt32
    (true, { m with regs := { m.regs with a := diff, b := m.regs.b + m.regs.c, c := 0 } })
  | none => (false, { m with regs := BlockOp.compare.rest m.regs })

/-- The machine after a chunk of `n` other bytes, or with the address of the byte. -/
def scanned (pa n : Nat) (m : Machine) : Bool × Machine :=
  match firstMatch m.memory.ram m.regs.b.toUInt8 pa n with
  | some i => (true, { m with regs := { m.regs with a := m.regs.a + i.toUInt32, c := 0 } })
  | none => (false, { m with regs := BlockOp.scan.rest m.regs })

/-- Whether a chunk with its operands at `pa` and `pb` decides the operation, and the machine after
it. -/
def effect (op : BlockOp) (pa pb : UInt32) (m : Machine) : Bool × Machine :=
  let n := (op.length m.regs).toNat
  match op with
  | .copy => (false, stored op (·.copyWithin pb pa n) m)
  | .compare => compared pa.toNat pb.toNat n m
  | .scan => scanned pa.toNat n m
  | .fill => (false, stored op (·.fill pa n m.regs.b.toUInt8) m)

/-- The physical addresses of the operands a and b; b is only a byte in some operations. -/
def operands (op : BlockOp) (r : Registers) : Guarded (UInt32 × UInt32) :=
  match op with
  | .copy | .compare => do
    let pb ← resolve .data r.b .load
    let pa ← resolve .data r.a op.access
    return (pa, pb)
  | .scan | .fill => do
    let pa ← resolve .data r.a op.access
    return (pa, pa)

/-- Does the next chunk of a block operation and says whether that decided it. -/
def chunk (op : BlockOp) : Guarded Bool := do
  let r ← getRegs
  let (pa, pb) ← operands op r
  let ram ← getRam
  let n := (op.length r).toNat
  require (ram.holds pa n && ram.holds pb n) (.badPhysicalAddress (some r.a))
  modifyGet (effect op pa pb)

section
variable {op : BlockOp} {pa pb : UInt32} {m m' : Machine}

theorem regs_compared {pa pb n : Nat} (h : (compared pa pb n m).1 = false) :
    (compared pa pb n m).2.regs = BlockOp.compare.rest m.regs := by
  rw [compared] at h ⊢
  split
  · rename_i hf
    rw [hf] at h
    cases h
  · rfl

theorem regs_scanned {pa n : Nat} (h : (scanned pa n m).1 = false) :
    (scanned pa n m).2.regs = BlockOp.scan.rest m.regs := by
  rw [scanned] at h ⊢
  split
  · rename_i hf
    rw [hf] at h
    cases h
  · rfl

/-- A chunk that decides nothing leaves the operands of the rest. -/
theorem regs_effect (h : (effect op pa pb m).1 = false) :
    (effect op pa pb m).2.regs = op.rest m.regs := by
  cases op with
  | copy | fill => rw [effect, stored]
  | compare =>
    rw [effect] at h ⊢
    exact regs_compared h
  | scan =>
    rw [effect] at h ⊢
    exact regs_scanned h

/-- Resolving an address changes memory only. -/
theorem regs_resolve {slot : Slot} {vaddr : UInt32} {access : Access}
    (h : resolve slot vaddr access m = .ok pa m') : m'.regs = m.regs := by
  rw [resolve_apply] at h
  cases hr : Memory.resolve m.regs.space slot vaddr access m.regs.user m.memory with
  | ok pa' memory =>
    rw [hr] at h
    obtain ⟨-, rfl⟩ := EStateM.Result.ok.inj h
    rfl
  | error fault memory =>
    rw [hr] at h
    cases h

theorem regs_operands {r : Registers} {pas : UInt32 × UInt32} (h : operands op r m = .ok pas m') :
    m'.regs = m.regs := by
  cases op with
  | copy | compare =>
    obtain ⟨pb, m₁, hb, h⟩ := bind_eq_ok_iff.1 h
    obtain ⟨pa, m₂, ha, h⟩ := bind_eq_ok_iff.1 h
    obtain ⟨-, rfl⟩ := EStateM.Result.ok.inj h
    exact (regs_resolve ha).trans (regs_resolve hb)
  | scan | fill =>
    obtain ⟨pa, m₁, ha, h⟩ := bind_eq_ok_iff.1 h
    obtain ⟨-, rfl⟩ := EStateM.Result.ok.inj h
    exact regs_resolve ha

theorem chunk_apply (op : BlockOp) (m : Machine) :
    chunk op m =
      match operands op m.regs m with
      | .ok (pa, pb) m' =>
        if m'.memory.ram.holds pa (op.length m.regs).toNat &&
            m'.memory.ram.holds pb (op.length m.regs).toNat then
          .ok (effect op pa pb m').1 (effect op pa pb m').2
        else .error (.badPhysicalAddress (some m.regs.a)) m'
      | .error fault m' => .error fault m' := by
  simp only [chunk, bind_apply, getRegs_apply]
  cases operands op m.regs m with
  | ok pas m' =>
    simp only [getRam_apply, require_apply, modifyGet_apply]
    cases m'.memory.ram.holds pas.1 (op.length m.regs).toNat &&
      m'.memory.ram.holds pas.2 (op.length m.regs).toNat <;> rfl
  | error fault m' => rfl

/-- A chunk of a copy, given where its operands are resolved to. -/
theorem chunk_copy_of_resolved {m : Machine} {src dst : UInt32} {memory₁ memory₂ : Memory} {n : Nat}
    (hn : (BlockOp.copy.length m.regs).toNat = n)
    (hb : Memory.resolve m.regs.space .data m.regs.b .load m.regs.user m.memory = .ok src memory₁)
    (ha : Memory.resolve m.regs.space .data m.regs.a .store m.regs.user memory₁ = .ok dst memory₂)
    (hs : memory₂.ram.holds src n = true) (hd : memory₂.ram.holds dst n = true) :
    chunk .copy m = .ok false { m with
      regs := BlockOp.copy.rest m.regs
      memory := memory₂.mapRam (·.copyWithin src dst n)
      blockBytes := m.blockBytes + n } := by
  subst hn
  have hoperands : operands .copy m.regs m = .ok (dst, src) { m with memory := memory₂ } := by
    rw [operands, bind_apply, resolve_apply, hb]
    dsimp only
    rw [bind_apply, resolve_apply, BlockOp.access]
    dsimp only
    rw [ha]
    rfl
  rw [chunk_apply, hoperands]
  dsimp only
  rw [hs, hd]
  rfl

theorem regs_chunk (h : chunk op m = .ok false m') : m'.regs = op.rest m.regs := by
  rw [chunk_apply] at h
  cases ho : operands op m.regs m with
  | ok pas m₁ =>
    rw [ho] at h
    dsimp only at h
    split at h
    · obtain ⟨hd, rfl⟩ := EStateM.Result.ok.inj h
      rw [regs_effect hd, regs_operands ho]
    · cases h
  | error fault m₁ =>
    rw [ho] at h
    cases h

/-! ## The operation as its chunks -/

theorem copyChunk_apply (m : Machine) :
    copyChunk m.regs.a m.regs.b m.regs.c m =
      match chunk .copy m with
      | .ok _ m' => .ok () m'
      | .error fault m' => .error fault m' := by
  simp only [chunk, operands, BlockOp.access, copyChunk, bind_apply, getRegs_apply]
  cases hb : resolve .data m.regs.b .load m with
  | error fault m₁ => rfl
  | ok src m₁ =>
    dsimp only
    cases ha : resolve .data m.regs.a .store m₁ with
    | error fault m₂ => rfl
    | ok dst m₂ =>
      have hr : m₂.regs = m.regs := (regs_resolve ha).trans (regs_resolve hb)
      simp only [pure_apply, getRam_apply, require_apply, modifyGet_apply, BlockOp.length]
      rw [Bool.and_comm]
      cases m₂.memory.ram.holds dst (chunkLeft₂ m.regs.a m.regs.b m.regs.c).toNat &&
        m₂.memory.ram.holds src (chunkLeft₂ m.regs.a m.regs.b m.regs.c).toNat with
      | false => rfl
      | true =>
        simp only [if_true, modifyRam_apply, countBlock, modify_apply, modifyRegs_apply,
          effect, stored, BlockOp.rest, BlockOp.advance,
          BlockOp.length, hr]

theorem compareChunk_apply (m : Machine) :
    compareChunk m.regs.a m.regs.b m.regs.c m = chunk .compare m := by
  simp only [chunk, operands, BlockOp.access, compareChunk, bind_apply, getRegs_apply]
  cases hb : resolve .data m.regs.b .load m with
  | error fault m₁ => rfl
  | ok pb m₁ =>
    dsimp only
    cases ha : resolve .data m.regs.a .load m₁ with
    | error fault m₂ => rfl
    | ok pa m₂ =>
      have hr : m₂.regs = m.regs := (regs_resolve ha).trans (regs_resolve hb)
      simp only [pure_apply, getRam_apply, require_apply, modifyGet_apply, BlockOp.length]
      cases m₂.memory.ram.holds pa (chunkLeft₂ m.regs.a m.regs.b m.regs.c).toNat &&
        m₂.memory.ram.holds pb (chunkLeft₂ m.regs.a m.regs.b m.regs.c).toNat with
      | false => rfl
      | true =>
        simp only [if_true, effect, compared, BlockOp.rest, BlockOp.advance,
          BlockOp.length, hr]
        generalize (chunkLeft₂ m.regs.a m.regs.b m.regs.c) = u
        cases firstMismatch m₂.memory.ram pa.toNat pb.toNat u.toNat with
        | some i => simp only [bind_apply, modifyRegs_apply, pure_apply, hr]
        | none => simp only [bind_apply, modifyRegs_apply, pure_apply, hr]

theorem scanChunk_apply (m : Machine) :
    scanChunk m.regs.b.toUInt8 m.regs.a m.regs.c m = chunk .scan m := by
  simp only [chunk, operands, BlockOp.access, scanChunk, bind_apply, getRegs_apply]
  cases ha : resolve .data m.regs.a .load m with
  | error fault m₁ => rfl
  | ok pa m₁ =>
    have hr : m₁.regs = m.regs := regs_resolve ha
    simp only [pure_apply, getRam_apply, require_apply, modifyGet_apply, BlockOp.length,
      Bool.and_self]
    cases m₁.memory.ram.holds pa (chunkLeft m.regs.a m.regs.c).toNat with
    | false => rfl
    | true =>
      simp only [if_true, effect, scanned, BlockOp.rest, BlockOp.advance,
          BlockOp.length, hr]
      generalize (chunkLeft m.regs.a m.regs.c) = u
      cases firstMatch m₁.memory.ram m.regs.b.toUInt8 pa.toNat u.toNat with
      | some i => simp only [bind_apply, modifyRegs_apply, pure_apply, hr]
      | none => simp only [bind_apply, modifyRegs_apply, pure_apply, hr]

theorem fillChunk_apply (m : Machine) :
    fillChunk m.regs.b.toUInt8 m.regs.a m.regs.c m =
      match chunk .fill m with
      | .ok _ m' => .ok () m'
      | .error fault m' => .error fault m' := by
  simp only [chunk, operands, BlockOp.access, fillChunk, bind_apply, getRegs_apply]
  cases ha : resolve .data m.regs.a .store m with
  | error fault m₁ => rfl
  | ok pa m₁ =>
    have hr : m₁.regs = m.regs := regs_resolve ha
    simp only [pure_apply, getRam_apply, require_apply, modifyGet_apply, BlockOp.length,
      Bool.and_self]
    cases m₁.memory.ram.holds pa (chunkLeft m.regs.a m.regs.c).toNat with
    | false => rfl
    | true =>
      simp only [if_true, modifyRam_apply, countBlock, modify_apply, modifyRegs_apply, effect,
        stored, BlockOp.rest, BlockOp.advance,
          BlockOp.length, hr]

/-- Copies and fills are decided by no chunk. -/
theorem chunk_copy_fill {op : BlockOp} (hop : op = .copy ∨ op = .fill) {decided : Bool}
    (h : chunk op m = .ok decided m') : decided = false := by
  rw [chunk_apply] at h
  cases ho : operands op m.regs m with
  | ok pas m₁ =>
    rw [ho] at h
    dsimp only at h
    split at h
    · obtain ⟨rfl, -⟩ := EStateM.Result.ok.inj h
      rcases hop with rfl | rfl <;> rw [effect]
    · cases h
  | error fault m₁ =>
    rw [ho] at h
    cases h

/-- A block operation does its next chunk and then the rest. -/
theorem block_apply (op : BlockOp) (m : Machine) :
    block op m =
      if m.regs.c = 0 then .ok () { m with regs := op.finish m.regs }
      else
        match chunk op m with
        | .ok true m' => .ok () m'
        | .ok false m' => block op m'
        | .error fault m' => .error fault m' := by
  have hrest (m' : Machine) (h : chunk op m = .ok false m') := regs_chunk h
  simp only [block, bind_apply, getRegs_apply]
  cases op with
  | copy =>
    rw [blockCopy]
    by_cases hc : m.regs.c = 0
    · rw [if_pos hc, if_pos hc]
      rfl
    · rw [if_neg hc, if_neg hc]
      simp only [bind_apply, copyChunk_apply]
      cases h : chunk .copy m with
      | error fault m' => rfl
      | ok decided m' =>
        obtain rfl := chunk_copy_fill (.inl rfl) h
        simp only [hrest m' h, BlockOp.rest, BlockOp.advance, BlockOp.length]
  | compare =>
    rw [blockCompare]
    by_cases hc : m.regs.c = 0
    · rw [if_pos hc, if_pos hc]
      rfl
    · rw [if_neg hc, if_neg hc]
      simp only [bind_apply, compareChunk_apply]
      cases h : chunk .compare m with
      | error fault m' => rfl
      | ok decided m' =>
        cases decided with
        | true => rfl
        | false =>
          simp only [hrest m' h, BlockOp.rest, BlockOp.advance, BlockOp.length, Bool.false_eq_true,
            if_false]
  | scan =>
    rw [blockScan]
    by_cases hc : m.regs.c = 0
    · rw [if_pos hc, if_pos hc]
      rfl
    · rw [if_neg hc, if_neg hc]
      simp only [bind_apply, scanChunk_apply]
      cases h : chunk .scan m with
      | error fault m' => rfl
      | ok decided m' =>
        cases decided with
        | true => rfl
        | false =>
          simp only [hrest m' h, BlockOp.rest, BlockOp.advance, BlockOp.length, Bool.false_eq_true,
            if_false]
  | fill =>
    rw [blockFill]
    by_cases hc : m.regs.c = 0
    · rw [if_pos hc, if_pos hc]
      rfl
    · rw [if_neg hc, if_neg hc]
      simp only [bind_apply, fillChunk_apply]
      cases h : chunk .fill m with
      | error fault m' => rfl
      | ok decided m' =>
        obtain rfl := chunk_copy_fill (.inr rfl) h
        simp only [hrest m' h, BlockOp.rest, BlockOp.advance, BlockOp.length]

end

end Machine

end PagedMachine
