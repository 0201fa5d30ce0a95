import PagedMachine.Access

/-!
# Block operations

Copy, compare, scan and fill work on one chunk at a time, a chunk ending where a page of an operand
ends, and commit registers a, b and c after each. A fault on a later chunk leaves the registers at
the work that remains, so running the instruction again repeats no chunk.
-/

set_option autoImplicit false

namespace PagedMachine

/-! ## Chunks -/

/-- The length of the next chunk of `c` bytes at `a`. -/
def chunkLeft (a c : UInt32) : UInt32 := if pageLeft a ≤ c then pageLeft a else c

/-- The length of the next chunk of `c` bytes at both `a` and `b`. -/
def chunkLeft₂ (a b c : UInt32) : UInt32 := chunkLeft b (chunkLeft a c)

theorem chunkLeft_toNat (a c : UInt32) :
    (chunkLeft a c).toNat = min (pageLeft a).toNat c.toNat := by
  rw [chunkLeft]
  split <;> rename_i h <;> rw [UInt32.le_iff_toNat_le] at h <;> omega

theorem chunkLeft₂_toNat (a b c : UInt32) :
    (chunkLeft₂ a b c).toNat = min (pageLeft b).toNat (min (pageLeft a).toNat c.toNat) := by
  rw [chunkLeft₂, chunkLeft_toNat, chunkLeft_toNat]

theorem sub_chunkLeft_lt {a c : UInt32} (h : c ≠ 0) : (c - chunkLeft a c).toNat < c.toNat := by
  have hc : 0 < c.toNat := Nat.pos_of_ne_zero fun h0 => h (UInt32.toNat_inj.1 h0)
  have ha := pageLeft_pos a
  have hu := chunkLeft_toNat a c
  rw [UInt32.toNat_sub_of_le _ _ (by rw [UInt32.le_iff_toNat_le]; omega)]
  omega

theorem sub_chunkLeft₂_lt {a b c : UInt32} (h : c ≠ 0) :
    (c - chunkLeft₂ a b c).toNat < c.toNat := by
  have hc : 0 < c.toNat := Nat.pos_of_ne_zero fun h0 => h (UInt32.toNat_inj.1 h0)
  have ha := pageLeft_pos a
  have hb := pageLeft_pos b
  have hu := chunkLeft₂_toNat a b c
  rw [UInt32.toNat_sub_of_le _ _ (by rw [UInt32.le_iff_toNat_le]; omega)]
  omega

/-- The index of the first place below `n` where two byte strings differ, `x` from `i` and `y` from
`j` on. -/
def firstMismatch (ram : Ram) (i j : Nat) : (n : Nat) → Option Nat
  | 0 => none
  | n + 1 =>
    if ram.byte i ≠ ram.byte j then some 0
    else (firstMismatch ram (i + 1) (j + 1) n).map (· + 1)

/-- The index of the first of the `n` bytes from `i` on that is `needle`. -/
def firstMatch (ram : Ram) (needle : UInt8) (i : Nat) : (n : Nat) → Option Nat
  | 0 => none
  | n + 1 =>
    if ram.byte i = needle then some 0
    else (firstMatch ram needle (i + 1) n).map (· + 1)

namespace Machine

/-- Counts bytes stored by a block operation. -/
def countBlock (n : UInt32) : Guarded Unit :=
  modify fun m => { m with blockBytes := m.blockBytes + n.toNat }

/-- Copies the first chunk of the `c` bytes at `b` to `a`. -/
def copyChunk (a b c : UInt32) : Guarded Unit := do
  let src ← resolve .data b .load
  let dst ← resolve .data a .store
  let u := chunkLeft₂ a b c
  let ram ← getRam
  require (ram.holds src u.toNat && ram.holds dst u.toNat) (.badPhysicalAddress (some a))
  modifyRam (·.copyWithin src dst u.toNat)
  countBlock u
  modifyRegs ({ · with a := a + u, b := b + u, c := c - u })

/-- Copies `c` bytes from `b` to `a`. -/
def blockCopy (a b c : UInt32) : Guarded Unit :=
  if c = 0 then
    pure ()
  else do
    let u := chunkLeft₂ a b c
    copyChunk a b c
    blockCopy (a + u) (b + u) (c - u)
termination_by c.toNat
decreasing_by exact sub_chunkLeft₂_lt ‹_›

/-- Compares the first chunk of the `c` bytes at `a` and at `b`, and says whether that decided it:
register a then has the difference of the first pair that differs. -/
def compareChunk (a b c : UInt32) : Guarded Bool := do
  let pb ← resolve .data b .load
  let pa ← resolve .data a .load
  let u := chunkLeft₂ a b c
  let ram ← getRam
  require (ram.holds pa u.toNat && ram.holds pb u.toNat) (.badPhysicalAddress (some a))
  match firstMismatch ram pa.toNat pb.toNat u.toNat with
  | some i =>
    let diff := (ram.byte (pa.toNat + i)).toUInt32 - (ram.byte (pb.toNat + i)).toUInt32
    modifyRegs ({ · with a := diff, b := b + c, c := 0 })
    return true
  | none =>
    modifyRegs ({ · with a := a + u, b := b + u, c := c - u })
    return false

/-- Compares the `c` bytes at `a` with those at `b`; register a gets 0 if they are equal. -/
def blockCompare (a b c : UInt32) : Guarded Unit :=
  if c = 0 then
    setInt .a 0
  else do
    let u := chunkLeft₂ a b c
    if ← compareChunk a b c then
      pure ()
    else
      blockCompare (a + u) (b + u) (c - u)
termination_by c.toNat
decreasing_by exact sub_chunkLeft₂_lt ‹_›

/-- Looks for `needle` in the first chunk of the `c` bytes at `a`, and says whether it is there:
register a then has its address. -/
def scanChunk (needle : UInt8) (a c : UInt32) : Guarded Bool := do
  let pa ← resolve .data a .load
  let u := chunkLeft a c
  let ram ← getRam
  require (ram.holds pa u.toNat) (.badPhysicalAddress (some a))
  match firstMatch ram needle pa.toNat u.toNat with
  | some i =>
    modifyRegs ({ · with a := a + i.toUInt32, c := 0 })
    return true
  | none =>
    modifyRegs ({ · with a := a + u, c := c - u })
    return false

/-- Looks for `needle` in the `c` bytes at `a`; register a gets 0 if it is not there. -/
def blockScan (needle : UInt8) (a c : UInt32) : Guarded Unit :=
  if c = 0 then
    setInt .a 0
  else do
    let u := chunkLeft a c
    if ← scanChunk needle a c then
      pure ()
    else
      blockScan needle (a + u) (c - u)
termination_by c.toNat
decreasing_by exact sub_chunkLeft_lt ‹_›

/-- Stores `value` in the first chunk of the `c` bytes at `a`. -/
def fillChunk (value : UInt8) (a c : UInt32) : Guarded Unit := do
  let pa ← resolve .data a .store
  let u := chunkLeft a c
  require ((← getRam).holds pa u.toNat) (.badPhysicalAddress (some a))
  modifyRam (·.fill pa u.toNat value)
  countBlock u
  modifyRegs ({ · with a := a + u, c := c - u })

/-- Stores `value` in the `c` bytes at `a`. -/
def blockFill (value : UInt8) (a c : UInt32) : Guarded Unit :=
  if c = 0 then
    pure ()
  else do
    let u := chunkLeft a c
    fillChunk value a c
    blockFill value (a + u) (c - u)
termination_by c.toNat
decreasing_by exact sub_chunkLeft_lt ‹_›

/-- Runs a block operation on the operands in the registers. -/
def block (op : BlockOp) : Guarded Unit := do
  let r ← getRegs
  match op with
  | .copy => blockCopy r.a r.b r.c
  | .compare => blockCompare r.a r.b r.c
  | .scan => blockScan r.b.toUInt8 r.a r.c
  | .fill => blockFill r.b.toUInt8 r.a r.c

end Machine

end PagedMachine
