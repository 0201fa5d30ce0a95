import PagedMachine.Block.Lemmas

/-!
# Runs of block operations with given addresses

A block operation where the physical addresses of its operands are known: `Machine.chunkAt` for one
chunk, `Machine.blockAt` for the whole. `Machine.Reaches` has the machines between two chunks, whose
registers say how much is done (`Reaches.advance`), and `Machine.Touches` the accesses.
-/

set_option autoImplicit false

namespace PagedMachine

namespace Machine

section
variable (op : BlockOp) (phys : UInt32 → UInt32)

/-- Whether the next chunk with operands where `phys` says decides the operation, and the machine
after it. -/
def chunkAt (m : Machine) : Bool × Machine := effect op (phys m.regs.a) (phys (op.other m.regs)) m

theorem c_chunkAt_lt {m : Machine} (hc : m.regs.c ≠ 0) (hd : (chunkAt op phys m).1 = false) :
    (chunkAt op phys m).2.regs.c.toNat < m.regs.c.toNat := by
  rw [chunkAt, regs_effect hd]
  exact op.rest_c_lt hc

/-- The machine at the end of a block operation with its operands where `phys` says. -/
def blockAt (m : Machine) : Machine :=
  if _hc : m.regs.c = 0 then { m with regs := op.finish m.regs }
  else if _hd : (chunkAt op phys m).1 = true then (chunkAt op phys m).2
  else blockAt (chunkAt op phys m).2
termination_by m.regs.c.toNat
decreasing_by exact c_chunkAt_lt op phys _hc (by simpa using _hd)

/-- The machines between two chunks of the operation. -/
inductive Reaches : Machine → Machine → Prop
  | refl (m : Machine) : Reaches m m
  | chunk {m m' : Machine} : m.regs.c ≠ 0 → (chunkAt op phys m).1 = false →
      Reaches (chunkAt op phys m).2 m' → Reaches m m'

/-- The accesses of the operation, each with the number of bytes that it is for. -/
def Touches (m : Machine) (vaddr : UInt32) (access : Access) (n : Nat) : Prop :=
  ∃ m', Reaches op phys m m' ∧ m'.regs.c ≠ 0 ∧ (vaddr, access) ∈ op.touches m'.regs ∧
    n = (op.length m'.regs).toNat

variable {op phys}

theorem Reaches.trans {m m' m'' : Machine} (h : Reaches op phys m m')
    (h' : Reaches op phys m' m'') : Reaches op phys m m'' := by
  induction h with
  | refl m => exact h'
  | chunk hc hd _ ih => exact .chunk hc hd (ih h')

/-- An operation that ends where its first chunk does has no other. -/
theorem Touches.of_length_eq {m : Machine} {vaddr : UInt32} {access : Access} {n : Nat}
    (h : Touches op phys m vaddr access n) (hlen : op.length m.regs = m.regs.c) :
    (vaddr, access) ∈ op.touches m.regs := by
  obtain ⟨m', hreach, hc', ht, -⟩ := h
  cases hreach with
  | refl => exact ht
  | chunk hc hd hrest =>
    have hzero : (chunkAt op phys m).2.regs.c = 0 := by
      rw [chunkAt, regs_effect hd, op.rest_c, hlen, UInt32.sub_self]
    cases hrest with
    | refl => exact absurd hzero hc'
    | chunk hc₁ _ _ => exact absurd hzero hc₁

theorem blockAt_of_reaches {m m' : Machine} (h : Reaches op phys m m') :
    blockAt op phys m' = blockAt op phys m := by
  induction h with
  | refl m => rfl
  | @chunk m m' hc hd _ ih =>
    have hstep : blockAt op phys m = blockAt op phys (chunkAt op phys m).2 := by
      rw [blockAt, dif_neg hc, dif_neg (by simp [hd])]
    rw [ih, hstep]

/-- Between two chunks the registers say how much is done, and so does the count of bytes stored. -/
theorem Reaches.advance {m m' : Machine} (h : Reaches op phys m m') :
    ∃ n, n ≤ m.regs.c ∧ m'.regs = op.advance n m.regs ∧
      (op = .copy ∨ op = .fill → m'.blockBytes = m.blockBytes + n.toNat) := by
  induction h with
  | refl m => exact ⟨0, UInt32.zero_le, (op.advance_zero _).symm, fun _ => rfl⟩
  | @chunk m m' hc hd _ ih =>
    obtain ⟨n, hn, hregs, hbytes⟩ := ih
    have hrest : (chunkAt op phys m).2.regs = op.rest m.regs := regs_effect hd
    rw [hrest] at hn hregs
    obtain ⟨hle, hsum⟩ := op.length_add hn
    refine ⟨op.length m.regs + n, hle, ?_, fun hop => ?_⟩
    · rw [hregs, BlockOp.rest, op.advance_advance]
    · rw [hbytes hop, hsum, ← Nat.add_assoc]
      rcases hop with rfl | rfl <;> rw [chunkAt, effect, stored]

end

end Machine

end PagedMachine
