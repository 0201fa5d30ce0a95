import Mathlib.Data.List.Basic
import PagedMachine.Proofs.Located

/-!
# Comparisons and scans, byte by byte

A comparison looks for the first place where two operands differ, a scan for the first byte that is
the needle (`BlockOp.stops`), and either is the first such place of all (`firstBelow`) whatever the
chunks are: a chunk looks at its part (`Machine.search_chunk`), and the first place below a sum is
one in the first part or else in the second (`firstBelow_add`). The bytes behind that place are not
asked for (`reach`), so nothing need be mapped there.
-/

set_option autoImplicit false

namespace PagedMachine

/-! ## The first place -/

/-- The first number below `n` that has a property. -/
def firstBelow (p : Nat → Bool) (n : Nat) : Option Nat := (List.range n).find? p

/-- How far a search among `n` places looks that ends where something is found. -/
def reach (found : Option Nat) (n : Nat) : Nat := (found.map (· + 1)).getD n

section
variable {p q : Nat → Bool} {n : Nat}

theorem firstBelow_add (p : Nat → Bool) (n k : Nat) :
    firstBelow p (n + k) =
      (firstBelow p n).or ((firstBelow (fun i => p (n + i)) k).map (n + ·)) := by
  rw [firstBelow, List.range_add, List.find?_append, List.find?_map]
  rfl

theorem firstBelow_succ (p : Nat → Bool) (n : Nat) :
    firstBelow p (n + 1) =
      if p 0 then some 0 else (firstBelow (fun i => p (i + 1)) n).map (· + 1) := by
  rw [firstBelow, List.range_succ_eq_map, List.find?_cons, List.find?_map]
  cases p 0 <;> rfl

theorem lt_of_firstBelow {i : Nat} (h : firstBelow p n = some i) : i < n :=
  List.mem_range.1 (List.find?_range_eq_some.1 h).2.1

/-- A search does not depend on what is out of its reach. -/
theorem firstBelow_congr (h : ∀ i < n, i < reach (firstBelow p n) n → q i = p i) :
    firstBelow q n = firstBelow p n := by
  cases hp : firstBelow p n with
  | none =>
    rw [hp] at h
    refine List.find?_range_eq_none.2 fun i hi => ?_
    rw [h i hi hi]
    exact List.find?_range_eq_none.1 hp i hi
  | some k =>
    rw [hp] at h
    obtain ⟨hk, hmem, hbefore⟩ := List.find?_range_eq_some.1 hp
    have hlt := List.mem_range.1 hmem
    refine List.find?_range_eq_some.2 ⟨?_, hmem, fun j hj => ?_⟩
    · rw [h k hlt (Nat.lt_succ_self k)]
      exact hk
    · rw [h j (by omega) (Nat.lt_succ_of_lt hj)]
      exact hbefore j hj

theorem reach_pos (h : 0 < n) : 0 < reach (firstBelow p n) n := by
  cases firstBelow p n with
  | none => exact h
  | some i => exact Nat.succ_pos i

/-- In its first part a search reaches as far as it does at all. -/
theorem reach_first {k : Nat} :
    reach (firstBelow p n) n ≤ reach (firstBelow p (n + k)) (n + k) := by
  rw [firstBelow_add]
  cases firstBelow p n with
  | none =>
    cases firstBelow (fun i => p (n + i)) k with
    | none => exact Nat.le_add_right n k
    | some i => exact Nat.le_succ_of_le (Nat.le_add_right n i)
  | some i => exact Nat.le_refl _

/-- A search that finds nothing in its first part goes on in the second. -/
theorem reach_rest {k : Nat} (h : firstBelow p n = none) :
    reach (firstBelow p (n + k)) (n + k) =
      n + reach (firstBelow (fun i => p (n + i)) k) k := by
  rw [firstBelow_add, h]
  cases firstBelow (fun i => p (n + i)) k <;> rfl

end

/-- What a chunk of a comparison finds. -/
theorem firstMismatch_eq (ram : Ram) (i j n : Nat) :
    firstMismatch ram i j n = firstBelow (fun k => ram.byte (i + k) ≠ ram.byte (j + k)) n := by
  induction n generalizing i j with
  | zero => rfl
  | succ n ih =>
    rw [firstMismatch, firstBelow_succ, ih]
    simp only [Nat.add_zero, decide_eq_true_eq, Nat.add_assoc, Nat.add_comm 1]

/-- What a chunk of a scan finds. -/
theorem firstMatch_eq (ram : Ram) (needle : UInt8) (i n : Nat) :
    firstMatch ram needle i n = firstBelow (fun k => ram.byte (i + k) = needle) n := by
  induction n generalizing i with
  | zero => rfl
  | succ n ih =>
    rw [firstMatch, firstBelow_succ, ih]
    simp only [Nat.add_zero, decide_eq_true_eq, Nat.add_assoc, Nat.add_comm 1]

/-- A difference of bytes as a signed number. -/
theorem toInt_sub_bytes (x y : UInt8) :
    (x.toUInt32 - y.toUInt32).toInt32.toInt = (x.toNat : Int) - y.toNat := by
  have hx := x.toNat_lt
  have hy := y.toNat_lt
  have hbmod : (x.toUInt32 - y.toUInt32).toInt32.toInt =
      Int.bmod (x.toUInt32 - y.toUInt32).toNat 4294967296 := BitVec.toInt_eq_toNat_bmod _
  rw [hbmod, UInt32.toNat_sub, UInt8.toNat_toUInt32, UInt8.toNat_toUInt32, Int.bmod]
  split <;> omega

/-! ## What is looked for -/

/-- Where bytes at `a` and at `b` differ first. -/
def Ram.mismatch (r : Ram) (T : UInt32 → UInt32) (a b : UInt32) (n : Nat) : Option Nat :=
  firstBelow (fun i => r.byte (T (a + i.toUInt32)).toNat ≠ r.byte (T (b + i.toUInt32)).toNat) n

/-- Where `needle` is first. -/
def Ram.occurrence (r : Ram) (T : UInt32 → UInt32) (needle : UInt8) (a : UInt32) (n : Nat) :
    Option Nat :=
  firstBelow (fun i => r.byte (T (a + i.toUInt32)).toNat = needle) n

namespace BlockOp

/-- Whether a search ends at place `i` of its operands. -/
def stops (op : BlockOp) (T : UInt32 → UInt32) (ram : Ram) (r : Registers) (i : Nat) : Bool :=
  match op with
  | copy | compare =>
    ram.byte (T (r.a + i.toUInt32)).toNat ≠ ram.byte (T (r.b + i.toUInt32)).toNat
  | scan | fill => ram.byte (T (r.a + i.toUInt32)).toNat = r.b.toUInt8

/-- The registers after a search that ended at place `i`. -/
def found (op : BlockOp) (T : UInt32 → UInt32) (ram : Ram) (i : Nat) (r : Registers) : Registers :=
  match op with
  | copy | compare =>
    let x := ram.byte (T (r.a + i.toUInt32)).toNat
    let y := ram.byte (T (r.b + i.toUInt32)).toNat
    { r with a := x.toUInt32 - y.toUInt32, b := r.b + r.c, c := 0 }
  | scan | fill => { r with a := r.a + i.toUInt32, c := 0 }

variable {op : BlockOp} {T : UInt32 → UInt32} {ram : Ram} {r : Registers} {n : UInt32}

/-- Places of the rest are later places of the whole. -/
theorem stops_advance (i : Nat) :
    op.stops T ram (op.advance n r) i = op.stops T ram r (n.toNat + i) := by
  cases op <;> simp only [stops, advance, add_add_toUInt32]

theorem found_advance (i : Nat) :
    op.found T ram i (op.advance n r) = op.found T ram (n.toNat + i) r := by
  have hb : r.b + n + (r.c - n) = r.b + r.c := by grind
  cases op <;> simp only [found, advance, add_add_toUInt32, hb]

/-- The registers after a search. -/
def searched (op : BlockOp) (T : UInt32 → UInt32) (ram : Ram) (r : Registers) : Registers :=
  match firstBelow (op.stops T ram r) r.c.toNat with
  | some i => op.found T ram i r
  | none => op.finish (op.advance r.c r)

/-- The registers after a comparison. -/
theorem searched_compare (T : UInt32 → UInt32) (ram : Ram) (r : Registers) :
    compare.searched T ram r =
        { r with a := (compare.searched T ram r).a, b := r.b + r.c, c := 0 } ∧
      (compare.searched T ram r).a.toInt32.toInt =
        match ram.mismatch T r.a r.b r.c.toNat with
        | none => 0
        | some i => ((ram.byte (T (r.a + i.toUInt32)).toNat).toNat : Int) -
            (ram.byte (T (r.b + i.toUInt32)).toNat).toNat := by
  rw [searched, show firstBelow (compare.stops T ram r) r.c.toNat =
    ram.mismatch T r.a r.b r.c.toNat from rfl]
  cases ram.mismatch T r.a r.b r.c.toNat with
  | none => exact ⟨by simp only [finish, advance, UInt32.sub_self], rfl⟩
  | some i => exact ⟨rfl, toInt_sub_bytes ..⟩

/-- The registers after a scan. -/
theorem searched_scan (T : UInt32 → UInt32) (ram : Ram) (r : Registers) :
    scan.searched T ram r =
      { r with
        a := match ram.occurrence T r.b.toUInt8 r.a r.c.toNat with
          | none => 0
          | some i => r.a + i.toUInt32
        c := 0 } := by
  rw [searched, show firstBelow (scan.stops T ram r) r.c.toNat =
    ram.occurrence T r.b.toUInt8 r.a r.c.toNat from rfl]
  cases ram.occurrence T r.b.toUInt8 r.a r.c.toNat with
  | none => simp only [finish, advance, UInt32.sub_self]
  | some i => rfl

/-- The bytes that a search reads are where `T` says, apart from the entries. -/
def Readable (op : BlockOp) (T : UInt32 → UInt32) (ram : Ram) (r : Registers) : Prop :=
  ∀ t ∈ op.touches r, ram.Lies r.space .load r.user T t.1
    (reach (firstBelow (op.stops T ram r) r.c.toNat) r.c.toNat)

/-- What a chunk finds is found. -/
theorem searched_of_found {i : Nat}
    (h : firstBelow (op.stops T ram r) (op.length r).toNat = some i) :
    op.searched T ram r = op.found T ram i r := by
  obtain ⟨hsplit, -⟩ := Machine.length_add_rest op r
  rw [searched, ← hsplit, firstBelow_add, h, Option.some_or]

/-- A chunk that finds nothing leaves the search as it is. -/
theorem searched_rest (h : firstBelow (op.stops T ram r) (op.length r).toNat = none) :
    op.searched T ram (op.rest r) = op.searched T ram r := by
  obtain ⟨hsplit, hsum⟩ := Machine.length_add_rest op r
  obtain ⟨-, hc, -⟩ := Machine.advance_operands op (op.length r) r
  rw [searched, searched, rest, hc, funext (stops_advance (n := op.length r)), ← hsplit,
    firstBelow_add, h, Option.none_or]
  cases firstBelow (fun i => op.stops T ram r ((op.length r).toNat + i))
      (r.c - op.length r).toNat with
  | some i => exact found_advance i
  | none =>
    dsimp only [Option.map_none]
    rw [advance_advance, hsum]

theorem touches_rest {t : UInt32 × Access} (ht : t ∈ op.touches (op.rest r)) :
    ∃ t' ∈ op.touches r, t.1 = t'.1 + op.length r := by
  cases op with
  | copy | compare =>
    rcases List.mem_cons.1 ht with rfl | ht
    · exact ⟨_, List.mem_cons_self .., rfl⟩
    · obtain rfl := List.mem_singleton.1 ht
      exact ⟨_, List.mem_cons_of_mem _ (List.mem_singleton_self _), rfl⟩
  | scan | fill =>
    obtain rfl := List.mem_singleton.1 ht
    exact ⟨_, List.mem_singleton_self _, rfl⟩

theorem Readable.rest (hread : op.Readable T ram r)
    (h : firstBelow (op.stops T ram r) (op.length r).toNat = none) :
    op.Readable T ram (op.rest r) := by
  intro t ht
  obtain ⟨t', ht', hat⟩ := touches_rest ht
  obtain ⟨hsplit, -⟩ := Machine.length_add_rest op r
  obtain ⟨-, hc, hspace, huser⟩ := Machine.advance_operands op (op.length r) r
  have hlies := hread t' ht'
  rw [← hsplit, reach_rest h] at hlies
  rw [hat, BlockOp.rest, hc, hspace, huser, funext (stops_advance (n := op.length r))]
  exact hlies.drop

/-- What a chunk reads of the bytes in its reach. -/
theorem Readable.byte_eq {ram' : Ram} (hread : op.Readable T ram r)
    (hkept : ram.Preserved r.space 0x20 ∅ ram') {t : UInt32 × Access} (ht : t ∈ op.touches r)
    {i : Nat} (hi : i < (op.length r).toNat)
    (hreach : i < reach (firstBelow (op.stops T ram r) (op.length r).toNat) (op.length r).toNat) :
    ram'.byte ((T t.1).toNat + i) = ram.byte (T (t.1 + i.toUInt32)).toNat := by
  obtain ⟨hsplit, -⟩ := Machine.length_add_rest op r
  have hlies := hread t ht
  have hfits := Machine.length_fits ht
  have hfirst := Nat.lt_of_lt_of_le hreach (reach_first (k := (r.c - op.length r).toNat))
  rw [hsplit] at hfirst
  have hplace := hlies.toNat hfirst (by omega)
  rw [← hplace]
  exact hkept.byte_eq (Set.notMem_empty _) (hlies.apart _ ⟨_, ⟨i, hfirst, rfl⟩, rfl⟩)

end BlockOp

namespace Machine

variable {op : BlockOp} {T : UInt32 → UInt32} {ram : Ram} {m m₁ : Machine}

/-- A chunk of a search, over memory that differs from `ram` in accessed flags only. -/
theorem effect_search (hop : op = .compare ∨ op = .scan)
    (hkept : ram.Preserved m.regs.space 0x20 ∅ m.memory.ram) (hread : op.Readable T ram m.regs) :
    effect op (T m.regs.a) (T (op.other m.regs)) m =
      match firstBelow (op.stops T ram m.regs) (op.length m.regs).toNat with
      | some i => (true, { m with regs := op.found T ram i m.regs })
      | none => (false, { m with regs := op.rest m.regs }) := by
  rcases hop with rfl | rfl
  · have hb {i : Nat} := hread.byte_eq hkept (t := (m.regs.b, .load)) (List.mem_cons_self ..) (i := i)
    have ha {i : Nat} := hread.byte_eq hkept (t := (m.regs.a, .load))
      (List.mem_cons_of_mem _ (List.mem_singleton_self _)) (i := i)
    have hsame : firstMismatch m.memory.ram (T m.regs.a).toNat (T m.regs.b).toNat
        (BlockOp.compare.length m.regs).toNat =
          firstBelow (BlockOp.compare.stops T ram m.regs) (BlockOp.compare.length m.regs).toNat := by
      rw [firstMismatch_eq]
      refine firstBelow_congr fun i hi hreach => ?_
      rw [ha hi hreach, hb hi hreach, BlockOp.stops]
    rw [effect, compared, BlockOp.other, hsame]
    cases hfound : firstBelow (BlockOp.compare.stops T ram m.regs)
        (BlockOp.compare.length m.regs).toNat with
    | none => rfl
    | some i =>
      have hi := lt_of_firstBelow hfound
      rw [hfound] at ha hb
      dsimp only
      rw [ha hi (Nat.lt_succ_self i), hb hi (Nat.lt_succ_self i), BlockOp.found]
  · have ha {i : Nat} := hread.byte_eq hkept (t := (m.regs.a, .load)) (List.mem_singleton_self _)
      (i := i)
    have hsame : firstMatch m.memory.ram m.regs.b.toUInt8 (T m.regs.a).toNat
        (BlockOp.scan.length m.regs).toNat =
          firstBelow (BlockOp.scan.stops T ram m.regs) (BlockOp.scan.length m.regs).toNat := by
      rw [firstMatch_eq]
      refine firstBelow_congr fun i hi hreach => ?_
      rw [ha hi hreach, BlockOp.stops]
    rw [effect, scanned, hsame]
    cases firstBelow (BlockOp.scan.stops T ram m.regs) (BlockOp.scan.length m.regs).toNat <;> rfl

/-- A chunk of a search finds something in its part, or the search goes on behind it. -/
theorem search_chunk (hop : op = .compare ∨ op = .scan)
    (h : m.memory.Faithful m.regs.space .data false)
    (hkept : ram.Preserved m.regs.space 0x20 ∅ m.memory.ram) (hread : op.Readable T ram m.regs)
    (hc : m.regs.c ≠ 0) :
    ∃ memory : Memory, memory.Faithful m.regs.space .data false ∧
      ram.Preserved m.regs.space 0x20 ∅ memory.ram ∧
      block op m =
        match firstBelow (op.stops T ram m.regs) (op.length m.regs).toNat with
        | some i => .ok () { m with memory, regs := op.found T ram i m.regs }
        | none => block op { m with memory, regs := op.rest m.regs } := by
  have hpos : 0 < m.regs.c.toNat := Nat.lt_of_lt_of_le (op.length_pos hc) (op.length_le m.regs)
  have hloads : op.access = .load ∧ ∀ t ∈ op.touches m.regs, t.2 = .load := by
    rcases hop with rfl | rfl <;> simp [BlockOp.touches, BlockOp.access]
  have hT : ∀ t ∈ op.touches m.regs,
      m.memory.ram.locate m.regs.space t.1 t.2 m.regs.user = .ok (T t.1) := by
    intro t ht
    rw [hloads.2 t ht]
    exact ((hread t ht).preserved hkept).first (reach_pos hpos)
  obtain ⟨memory, hchunk, hfaithful, hmarked, -⟩ := chunk_of_located h hT
  rw [hloads.1] at hmarked
  have hkept₁ : ram.Preserved m.regs.space 0x20 ∅ memory.ram := hkept.of_flags hmarked
  rw [effect_search (m := { m with memory }) hop hkept₁ hread] at hchunk
  refine ⟨memory, hfaithful, hkept₁, ?_⟩
  rw [block_apply, if_neg hc, hchunk]
  cases firstBelow (op.stops T ram m.regs) (op.length m.regs).toNat <;> rfl

/-- A search to its end. -/
theorem block_searched (hop : op = .compare ∨ op = .scan)
    (h : m.memory.Faithful m.regs.space .data false)
    (hkept : ram.Preserved m.regs.space 0x20 ∅ m.memory.ram) (hread : op.Readable T ram m.regs) :
    ∃ m', block op m = .ok () m' ∧ m'.regs = op.searched T ram m.regs ∧
      ram.Preserved m.regs.space 0x20 ∅ m'.memory.ram := by
  induction hn : m.regs.c.toNat using Nat.strongRecOn generalizing m with
  | ind n ih =>
    by_cases hc : m.regs.c = 0
    · refine ⟨{ m with regs := op.finish m.regs }, ?_, ?_, hkept⟩
      · rw [block_apply, if_pos hc]
      · rw [BlockOp.searched, hc, BlockOp.advance_zero]
        rfl
    · obtain ⟨memory, hfaithful, hkept₁, hblock⟩ := search_chunk hop h hkept hread hc
      cases hfound : firstBelow (op.stops T ram m.regs) (op.length m.regs).toNat with
      | some i =>
        rw [hfound] at hblock
        exact ⟨_, hblock, (BlockOp.searched_of_found hfound).symm, hkept₁⟩
      | none =>
        rw [hfound] at hblock
        have hspace : (op.rest m.regs).space = m.regs.space :=
          (advance_operands op (op.length m.regs) m.regs).2.2.1
        let m₁ : Machine := { m with memory, regs := op.rest m.regs }
        have hfaithful₁ : m₁.memory.Faithful m₁.regs.space .data false := by rwa [hspace]
        have hkept₂ : ram.Preserved m₁.regs.space 0x20 ∅ m₁.memory.ram := by rwa [hspace]
        obtain ⟨m', hrun, hregs, hmemory⟩ :=
          ih m₁.regs.c.toNat (hn ▸ op.rest_c_lt hc) hfaithful₁ hkept₂ (hread.rest hfound) rfl
        rw [hspace] at hmemory
        exact ⟨m', hblock.trans hrun, hregs.trans (BlockOp.searched_rest hfound), hmemory⟩

end Machine

/-- Comparisons and scans end with the first place there is, and read no further. -/
theorem block_searches {m : Machine} {T : UInt32 → UInt32} (hm : m.Regular) :
    let r := m.memory.ram
    let differ := r.mismatch T m.regs.a m.regs.b m.regs.c.toNat
    let here := r.occurrence T m.regs.b.toUInt8 m.regs.a m.regs.c.toNat
    (r.Lies m.regs.space .load m.regs.user T m.regs.a (reach differ m.regs.c.toNat) →
      r.Lies m.regs.space .load m.regs.user T m.regs.b (reach differ m.regs.c.toNat) →
      ∃ m', Machine.block .compare m = .ok () m' ∧
        m'.regs = { m.regs with a := m'.regs.a, b := m.regs.b + m.regs.c, c := 0 } ∧
        m'.regs.a.toInt32.toInt =
          (match differ with
            | none => 0
            | some i => ((r.byte (T (m.regs.a + i.toUInt32)).toNat).toNat : Int) -
                (r.byte (T (m.regs.b + i.toUInt32)).toNat).toNat) ∧
        r.Preserved m.regs.space 0x20 ∅ m'.memory.ram) ∧
    (r.Lies m.regs.space .load m.regs.user T m.regs.a (reach here m.regs.c.toNat) →
      ∃ m', Machine.block .scan m = .ok () m' ∧
        m'.regs = { m.regs with
          a := match here with
            | none => 0
            | some i => m.regs.a + i.toUInt32
          c := 0 } ∧
        r.Preserved m.regs.space 0x20 ∅ m'.memory.ram) := by
  intro r differ here
  have hfaithful := hm.agrees.faithful hm.aligned hm.paged .data false
  have hkept := Ram.Preserved.refl m.regs.space 0x20 m.memory.ram
  constructor
  · intro ha hb
    have hread : BlockOp.compare.Readable T r m.regs := by
      intro t ht
      rcases List.mem_cons.1 ht with rfl | ht
      · exact hb
      · obtain rfl := List.mem_singleton.1 ht
        exact ha
    obtain ⟨m', hrun, hregs, hmemory⟩ :=
      Machine.block_searched (.inl rfl) hfaithful hkept hread
    obtain ⟨hends, hdiffer⟩ := BlockOp.searched_compare T r m.regs
    rw [← hregs] at hends hdiffer
    exact ⟨m', hrun, hends, hdiffer, hmemory⟩
  · intro ha
    have hread : BlockOp.scan.Readable T r m.regs := by
      intro t ht
      obtain rfl := List.mem_singleton.1 ht
      exact ha
    obtain ⟨m', hrun, hregs, hmemory⟩ :=
      Machine.block_searched (.inr rfl) hfaithful hkept hread
    exact ⟨m', hrun, hregs.trans (BlockOp.searched_scan T r m.regs), hmemory⟩

/-! A search across the end of a page, decided at its sixth byte. Most of its operands are not
mapped. -/

/-- The two pages that are one, which holds zeros and one nine. -/
@[irreducible] def Ram.nine : Ram := (mirrored.fill 0x2000 4096 0).fill 0x2001 1 9

def Machine.seeking : Machine :=
  { regs := { a := 4092, b := 9, c := 0x100000, space := ⟨true, some 0⟩ }
    memory := ⟨.nine, .ofCapacity 1, .uncached⟩ }

namespace Ram

theorem byte_nine (j : Nat) :
    nine.byte j =
      if j = 0x2001 then 9 else if 0x2000 ≤ j ∧ j < 0x3000 then 0 else mirrored.byte j := by
  have hpage : mirrored.holds 0x2000 4096 = true := by
    rw [holds_iff, size_mirrored]
    decide
  have hbyte : (mirrored.fill 0x2000 4096 0).holds 0x2001 1 = true := by
    rw [holds_iff, size_fill, size_mirrored]
    decide
  rw [nine, byte_fill hbyte, byte_fill hpage]
  simp only [UInt32.reduceToNat]
  grind

theorem byte_nine_place (v : UInt32) :
    nine.byte (mirroredPlace v).toNat = if v.toNat % 4096 = 1 then 9 else 0 := by
  rw [byte_nine, mirroredPlace_toNat]
  grind

theorem preserved_nine :
    mirrored.Preserved ⟨true, some 0⟩ 0 {j | 0x2000 ≤ j ∧ j < 0x3000} nine := by
  refine preserved_of_stores paged_mirrored 0 ?_ (fun j hj => ?_) fun j hj =>
    not_inEntries_mirrored hj.1 hj.2
  · rw [nine, size_fill, size_fill]
  · have hne : j ≠ 0x2001 := by
      rintro rfl
      exact hj ⟨by decide, by decide⟩
    rw [byte_nine, if_neg hne, if_neg (show ¬(0x2000 ≤ j ∧ j < 0x3000) from hj)]

theorem mismatch_nine : nine.mismatch mirroredPlace 4092 9 0x100000 = some 5 := by
  refine List.find?_range_eq_some.2 ⟨?_, by simp, fun j hj => ?_⟩
  · simp only [byte_nine_place]
    decide
  · simp only [byte_nine_place, UInt32.toNat_add, UInt32.toNat_ofNat', UInt32.reduceToNat]
    grind

theorem occurrence_nine : nine.occurrence mirroredPlace 9 4092 0x100000 = some 5 := by
  refine List.find?_range_eq_some.2 ⟨?_, by simp, fun j hj => ?_⟩
  · simp only [byte_nine_place]
    decide
  · simp only [byte_nine_place, UInt32.toNat_add, UInt32.toNat_ofNat', UInt32.reduceToNat]
    grind

end Ram

theorem Machine.regular_seeking : seeking.Regular where
  aligned := regular_mirrored.aligned
  paged := Ram.paged_mirrored.of_size Ram.preserved_nine.size
  agrees := by
    refine ⟨fun page mapping h => ?_, fun slot write e h => ?_⟩
    · simp [seeking, Tlb.ofCapacity] at h
    · cases h

theorem block_searches_seeking :
    let m := Machine.seeking
    let r := m.memory.ram
    (m.Regular ∧ r.Lies m.regs.space .load m.regs.user mirroredPlace 4092 6 ∧
      r.Lies m.regs.space .load m.regs.user mirroredPlace 9 6) ∧
    (∃ m', Machine.block .compare m = .ok () m' ∧
      m'.regs = { m.regs with a := m'.regs.a, b := m.regs.b + m.regs.c, c := 0 } ∧
      m'.regs.a.toInt32.toInt = 9 ∧ r.Preserved m.regs.space 0x20 ∅ m'.memory.ram) ∧
    ∃ m', Machine.block .scan m = .ok () m' ∧ m'.regs = { m.regs with a := 4097, c := 0 } ∧
      r.Preserved m.regs.space 0x20 ∅ m'.memory.ram := by
  intro m r
  have hm : m.Regular := Machine.regular_seeking
  have hlies {v : UInt32} (hv : v.toNat + 6 ≤ 0x2000) :
      r.Lies m.regs.space .load m.regs.user mirroredPlace v 6 :=
    ((Ram.lies_mirrored hv).preserved Ram.preserved_nine).load
  have ha := hlies (v := 4092) (by decide)
  have hb := hlies (v := 9) (by decide)
  have hc : m.regs.c.toNat = 0x100000 := by decide
  have hdiffer : m.memory.ram.mismatch mirroredPlace m.regs.a m.regs.b m.regs.c.toNat = some 5 := by
    rw [hc]
    exact Ram.mismatch_nine
  have hhere : m.memory.ram.occurrence mirroredPlace m.regs.b.toUInt8 m.regs.a m.regs.c.toNat =
      some 5 := by
    rw [hc]
    exact Ram.occurrence_nine
  obtain ⟨hcompare, hscan⟩ := block_searches (m := m) (T := mirroredPlace) hm
  rw [hdiffer] at hcompare
  rw [hhere] at hscan
  obtain ⟨m', hrun, hregs, hdiff, hmemory⟩ := hcompare ha hb
  refine ⟨⟨hm, ha, hb⟩, ⟨m', hrun, hregs, hdiff.trans ?_, hmemory⟩, hscan ha⟩
  have hnine : m.memory.ram = Ram.nine := rfl
  simp only [hnine, Ram.byte_nine_place]
  decide

end PagedMachine
