import PagedMachine.Proofs.Located

/-!
# Copies and fills, byte by byte

What a copy or a fill does to memory that is mapped, said of the bytes where the tables put them. A
chunk stores its part and marks entries (`Machine.wrote_stored`), and parts put one behind the other
make a whole where no part changes what an earlier one stored (`Wrote.append`). For a fill the parts
store the same byte. For a copy they are apart, and so is what later parts read from what earlier
ones stored, since it goes forward (`Copyable`).
-/

set_option autoImplicit false

namespace PagedMachine

namespace Machine

/-- The operation stored the first `n` bytes of its target, `value i` at place `i`, and did nothing
else to memory but set accessed and dirty flags of entries. -/
structure Wrote (op : BlockOp) (T : UInt32 → UInt32) (value : Nat → UInt8) (n : UInt32)
    (m m' : Machine) : Prop where
  byte : ∀ i < n.toNat, m'.memory.ram.byte (T (m.regs.a + i.toUInt32)).toNat = value i
  memory : m.memory.ram.Preserved m.regs.space 0x60 (places T m.regs.a n.toNat) m'.memory.ram
  regs : m'.regs = op.advance n m.regs
  blockBytes : m'.blockBytes = m.blockBytes + n.toNat

/-- A copy of bytes that are mapped, to others that are mapped for storing, all apart from the
entries, each in its own place. The target is not among the later bytes of the source. -/
structure Copyable (T : UInt32 → UInt32) (m : Machine) : Prop where
  source : m.memory.ram.Lies m.regs.space .load m.regs.user T m.regs.b m.regs.c.toNat
  target : m.memory.ram.Lies m.regs.space .store m.regs.user T m.regs.a m.regs.c.toNat
  source_fits : m.regs.b.toNat + m.regs.c.toNat ≤ UInt32.size
  target_fits : m.regs.a.toNat + m.regs.c.toNat ≤ UInt32.size
  injective : Set.InjOn T
    (addresses m.regs.a m.regs.c.toNat ∪ addresses m.regs.b m.regs.c.toNat)
  forward : m.regs.a ≤ m.regs.b ∨ m.regs.b.toNat + m.regs.c.toNat ≤ m.regs.a.toNat

section
variable {op : BlockOp} {T : UInt32 → UInt32} {value value' : Nat → UInt8} {n k : UInt32}
  {m m₁ m' : Machine}

theorem Wrote.congr (h : Wrote op T value n m m') (hv : ∀ i < n.toNat, value i = value' i) :
    Wrote op T value' n m m' :=
  ⟨fun i hi => (h.byte i hi).trans (hv i hi), h.memory, h.regs, h.blockBytes⟩

theorem wrote_zero (op : BlockOp) (T : UInt32 → UInt32) (value : Nat → UInt8) (m : Machine) :
    Wrote op T value 0 m m := by
  refine ⟨fun i hi => absurd hi (Nat.not_lt_zero i), ?_, (op.advance_zero m.regs).symm, rfl⟩
  have hnone : places T m.regs.a (0 : UInt32).toNat = ∅ := by
    simp [places, addresses]
  rw [hnone]
  exact .refl ..

/-- A part and then the part behind it. -/
theorem Wrote.append (h : Wrote op T value n m m₁)
    (h' : Wrote op T (fun i => value (n.toNat + i)) k m₁ m')
    (hsum : (n + k).toNat = n.toNat + k.toNat)
    (hapart : ∀ i ∈ places T m.regs.a n.toNat, ¬m.memory.ram.InEntries m.regs.space i)
    (hover : ∀ i < n.toNat, ∀ j < k.toNat,
      (T (m.regs.a + i.toUInt32)).toNat = (T (m.regs.a + n + j.toUInt32)).toNat →
        value (n.toNat + j) = value i) :
    Wrote op T value (n + k) m m' := by
  obtain ⟨ha, -, hspace, -⟩ := advance_operands op n m.regs
  rw [← h.regs] at ha hspace
  have hmemory := h'.memory
  rw [ha, hspace] at hmemory
  refine ⟨fun i hi => ?_, ?_, ?_, ?_⟩
  · by_cases hpart : i < n.toNat
    · by_cases hagain : (T (m.regs.a + i.toUInt32)).toNat ∈ places T (m.regs.a + n) k.toNat
      · obtain ⟨w, ⟨j, hj, rfl⟩, hat⟩ := hagain
        have hbyte := h'.byte j hj
        rw [ha] at hbyte
        rw [← hat]
        exact hbyte.trans (hover i hpart j hj hat.symm)
      · have hplace : (T (m.regs.a + i.toUInt32)).toNat ∈ places T m.regs.a n.toNat :=
          ⟨_, ⟨i, hpart, rfl⟩, rfl⟩
        rw [hmemory.byte_eq hagain (h.memory.inEntries_iff.not.2 (hapart _ hplace))]
        exact h.byte i hpart
    · have hbyte := h'.byte (i - n.toNat) (by omega)
      rwa [ha, add_add_toUInt32, Nat.add_sub_cancel' (by omega)] at hbyte
  · rw [hsum, places_append]
    exact h.memory.trans hmemory
  · rw [h'.regs, h.regs, BlockOp.advance_advance]
  · rw [h'.blockBytes, h.blockBytes, hsum, Nat.add_assoc]

/-! ## Chunks -/

/-- A chunk that stores the bytes `value` at its target. -/
theorem wrote_stored (fn : Ram → Ram) (value : Nat → UInt8) {memory : Memory}
    (hfaithful : memory.Faithful m.regs.space .data false)
    (hkept : m.memory.ram.Preserved m.regs.space 0x60 ∅ memory.ram)
    (htarget : m.memory.ram.Lies m.regs.space .store m.regs.user T m.regs.a
      (op.length m.regs).toNat)
    (hsize : (fn memory.ram).bytes.size = memory.ram.bytes.size)
    (hbyte : ∀ i < (op.length m.regs).toNat,
      (fn memory.ram).byte ((T m.regs.a).toNat + i) = value i)
    (hrest : ∀ j, ¬((T m.regs.a).toNat ≤ j ∧ j < (T m.regs.a).toNat + (op.length m.regs).toNat) →
      (fn memory.ram).byte j = memory.ram.byte j) :
    (stored op fn { m with memory }).memory.Faithful m.regs.space .data false ∧
      Wrote op T value (op.length m.regs) m (stored op fn { m with memory }) := by
  have hpage : m.regs.a.toNat % 4096 + (op.length m.regs).toNat ≤ 4096 :=
    length_fits (op.mem_touches m.regs)
  have hstores : memory.ram.Preserved m.regs.space 0x60
      (places T m.regs.a (op.length m.regs).toNat) (fn memory.ram) := by
    refine Ram.preserved_of_stores hfaithful.paged 0x60 hsize (fun j hj => hrest j ?_)
      (htarget.preserved hkept).apart
    rwa [htarget.mem_places_iff hpage] at hj
  refine ⟨hfaithful.of_translate hsize hstores.translate, fun i hi => ?_,
    hkept.of_flags hstores, rfl, rfl⟩
  rw [htarget.toNat hi (by omega)]
  exact hbyte i hi

/-- A chunk of a fill. -/
theorem fill_chunk (h : m.memory.Faithful m.regs.space .data false) (hc : m.regs.c ≠ 0)
    (htarget : m.memory.ram.Lies m.regs.space .store m.regs.user T m.regs.a m.regs.c.toNat) :
    ∃ m₁, block .fill m = block .fill m₁ ∧ m₁.memory.Faithful m.regs.space .data false ∧
      Wrote .fill T (fun _ => m.regs.b.toUInt8) (BlockOp.fill.length m.regs) m m₁ := by
  have hpart := htarget.mono (BlockOp.fill.length_le m.regs)
  have hT : ∀ t ∈ BlockOp.fill.touches m.regs,
      m.memory.ram.locate m.regs.space t.1 t.2 m.regs.user = .ok (T t.1) := by
    intro t ht
    obtain rfl := List.mem_singleton.1 ht
    exact hpart.first (BlockOp.fill.length_pos hc)
  obtain ⟨memory, hchunk, hfaithful, hkept, hholds, -⟩ := chunk_of_located h hT
  obtain ⟨hfaithful₁, hwrote⟩ := wrote_stored
    (·.fill (T m.regs.a) (BlockOp.fill.length m.regs).toNat m.regs.b.toUInt8)
    (fun _ => m.regs.b.toUInt8) hfaithful hkept hpart (Ram.size_fill ..)
    (fun i hi => by rw [Ram.byte_fill hholds, if_pos ⟨by omega, by omega⟩])
    (fun j hj => by rw [Ram.byte_fill hholds, if_neg hj])
  refine ⟨_, ?_, hfaithful₁, hwrote⟩
  rw [block_apply, if_neg hc, hchunk]
  rfl

/-- A chunk of a copy. -/
theorem copy_chunk (h : m.memory.Faithful m.regs.space .data false) (hc : m.regs.c ≠ 0)
    (hsource : m.memory.ram.Lies m.regs.space .load m.regs.user T m.regs.b m.regs.c.toNat)
    (htarget : m.memory.ram.Lies m.regs.space .store m.regs.user T m.regs.a m.regs.c.toNat) :
    ∃ m₁, block .copy m = block .copy m₁ ∧ m₁.memory.Faithful m.regs.space .data false ∧
      Wrote .copy T (fun i => m.memory.ram.byte (T (m.regs.b + i.toUInt32)).toNat)
        (BlockOp.copy.length m.regs) m m₁ := by
  replace hsource := hsource.mono (BlockOp.copy.length_le m.regs)
  replace htarget := htarget.mono (BlockOp.copy.length_le m.regs)
  have hpos := BlockOp.copy.length_pos hc
  have hT : ∀ t ∈ BlockOp.copy.touches m.regs,
      m.memory.ram.locate m.regs.space t.1 t.2 m.regs.user = .ok (T t.1) := by
    intro t ht
    rcases List.mem_cons.1 ht with rfl | ht
    · exact hsource.first hpos
    · obtain rfl := List.mem_singleton.1 ht
      exact htarget.first hpos
  obtain ⟨memory, hchunk, hfaithful, hkept, hdst, hsrc⟩ := chunk_of_located h hT
  rw [show BlockOp.copy.other m.regs = m.regs.b from rfl] at hsrc
  have hfits : m.regs.b.toNat % 4096 + (BlockOp.copy.length m.regs).toNat ≤ 4096 :=
    length_fits (t := (m.regs.b, .load)) (List.mem_cons_self ..)
  have hbyte : ∀ i < (BlockOp.copy.length m.regs).toNat,
      (memory.ram.copyWithin (T m.regs.b) (T m.regs.a) (BlockOp.copy.length m.regs).toNat).byte
        ((T m.regs.a).toNat + i) = m.memory.ram.byte (T (m.regs.b + i.toUInt32)).toNat := by
    intro i hi
    have hplace := hsource.toNat hi (by omega)
    -- the walks left the byte, which is part of no entry
    have hsame := hkept.byte_eq (Set.notMem_empty _) (hsource.apart _ ⟨_, ⟨i, hi, rfl⟩, rfl⟩)
    rw [Ram.byte_copyWithin hsrc hdst, if_pos ⟨by omega, by omega⟩, Nat.add_sub_cancel_left]
    exact hplace ▸ hsame
  obtain ⟨hfaithful₁, hwrote⟩ := wrote_stored
    (·.copyWithin (T m.regs.b) (T m.regs.a) (BlockOp.copy.length m.regs).toNat) _
    hfaithful hkept htarget (Ram.size_copyWithin ..) hbyte
    (fun j hj => by rw [Ram.byte_copyWithin hsrc hdst, if_neg hj])
  refine ⟨_, ?_, hfaithful₁, hwrote⟩
  rw [block_apply, if_neg hc, hchunk]
  rfl

/-! ## All chunks -/

/-- An operation that keeps `P` from chunk to chunk stores all its bytes, if each chunk with the rest
behind it makes a whole. -/
theorem wrote_of_chunks (P : Machine → Prop) (value : Machine → Nat → UInt8)
    (hfinish : ∀ r, op.finish r = r)
    (hchunk : ∀ m, P m → m.regs.c ≠ 0 → ∃ m₁, block op m = block op m₁ ∧ P m₁ ∧
      m₁.regs = op.rest m.regs ∧
      ∀ m', Wrote op T (value m₁) m₁.regs.c m₁ m' → Wrote op T (value m) m.regs.c m m')
    (h : P m) :
    ∃ m', block op m = .ok () m' ∧ Wrote op T (value m) m.regs.c m m' := by
  induction hn : m.regs.c.toNat using Nat.strongRecOn generalizing m with
  | ind n ih =>
    by_cases hc : m.regs.c = 0
    · refine ⟨m, ?_, ?_⟩
      · rw [block_apply, if_pos hc, hfinish]
      · rw [hc]
        exact wrote_zero ..
    · obtain ⟨m₁, hblock, h₁, hregs, hwhole⟩ := hchunk m h hc
      have hlt : m₁.regs.c.toNat < n := by
        rw [hregs, ← hn]
        exact op.rest_c_lt hc
      obtain ⟨m', hrun, hwrote⟩ := ih _ hlt h₁ rfl
      exact ⟨m', hblock.trans hrun, hwhole m' hwrote⟩

theorem fill_wrote (h : m.memory.Faithful m.regs.space .data false)
    (htarget : m.memory.ram.Lies m.regs.space .store m.regs.user T m.regs.a m.regs.c.toNat) :
    ∃ m', block .fill m = .ok () m' ∧
      Wrote .fill T (fun _ => m.regs.b.toUInt8) m.regs.c m m' := by
  refine wrote_of_chunks
    (fun m => m.memory.Faithful m.regs.space .data false ∧
      m.memory.ram.Lies m.regs.space .store m.regs.user T m.regs.a m.regs.c.toNat)
    (fun m _ => m.regs.b.toUInt8) (fun _ => rfl) ?_ ⟨h, htarget⟩
  rintro m ⟨h, htarget⟩ hc
  obtain ⟨m₁, hblock, hfaithful, hwrote⟩ := fill_chunk h hc htarget
  obtain ⟨ha, hc₁, hspace, huser⟩ := advance_operands .fill (BlockOp.fill.length m.regs) m.regs
  obtain ⟨hsplit, hsum⟩ := length_add_rest .fill m.regs
  have hpart := htarget.mono (BlockOp.fill.length_le m.regs)
  rw [← hwrote.regs] at ha hc₁ hspace huser
  rw [← hsplit] at htarget
  have hrest := htarget.drop.preserved hwrote.memory
  rw [← ha, ← hc₁, ← hspace, ← huser] at hrest
  rw [← hspace] at hfaithful
  refine ⟨m₁, hblock, ⟨hfaithful, hrest⟩, hwrote.regs, fun m' hwrote' => ?_⟩
  have hb : m₁.regs.b = m.regs.b := by rw [hwrote.regs, BlockOp.advance]
  rw [hb, hc₁] at hwrote'
  have hall := hwrote.append hwrote' (by rw [hsum, hsplit]) hpart.apart fun _ _ _ _ _ => rfl
  rwa [hsum] at hall

/-- No later byte, of the source or of the target, is where a byte of the target was stored. -/
theorem Copyable.kept (hcopy : Copyable T m) {i j : Nat} (hij : i < j) (hj : j < m.regs.c.toNat) :
    T (m.regs.a + i.toUInt32) ≠ T (m.regs.b + j.toUInt32) ∧
      T (m.regs.a + i.toUInt32) ≠ T (m.regs.a + j.toUInt32) := by
  have ha := hcopy.target_fits
  have hb := hcopy.source_fits
  have hforward := hcopy.forward
  have hmem : m.regs.a + i.toUInt32 ∈ addresses m.regs.a m.regs.c.toNat := ⟨i, by omega, rfl⟩
  simp only [UInt32.size, UInt32.le_iff_toNat_le] at ha hb hforward
  constructor
  · intro heq
    have hnat := congrArg UInt32.toNat (hcopy.injective (.inl hmem) (.inr ⟨j, hj, rfl⟩) heq)
    rw [UInt32.toNat_add, UInt32.toNat_add, UInt32.toNat_ofNat', UInt32.toNat_ofNat'] at hnat
    omega
  · intro heq
    have hnat := congrArg UInt32.toNat (hcopy.injective (.inl hmem) (.inl ⟨j, hj, rfl⟩) heq)
    rw [UInt32.toNat_add, UInt32.toNat_add, UInt32.toNat_ofNat', UInt32.toNat_ofNat'] at hnat
    omega

/-- After a chunk, the rest may be copied. -/
theorem Copyable.rest (hcopy : Copyable T m)
    (hwrote : Wrote .copy T value (BlockOp.copy.length m.regs) m m₁) : Copyable T m₁ := by
  obtain ⟨hsplit, -⟩ := length_add_rest .copy m.regs
  have hregs := hwrote.regs
  rw [BlockOp.advance] at hregs
  generalize BlockOp.copy.length m.regs = n at hsplit hregs hwrote
  have hsource := hcopy.source
  have htarget := hcopy.target
  have hinjective := hcopy.injective
  have hsource_fits := hcopy.source_fits
  have htarget_fits := hcopy.target_fits
  have ha : (m.regs.a + n).toNat = (m.regs.a.toNat + n.toNat) % UInt32.size := UInt32.toNat_add ..
  have hb : (m.regs.b + n).toNat = (m.regs.b.toNat + n.toNat) % UInt32.size := UInt32.toNat_add ..
  have hforward := hcopy.forward
  rw [UInt32.le_iff_toNat_le] at hforward
  rw [← hsplit] at hsource htarget hinjective
  rw [addresses_append, addresses_append] at hinjective
  simp only [UInt32.size] at ha hb hsource_fits htarget_fits
  constructor
  · rw [hregs]
    exact hsource.drop.preserved hwrote.memory
  · rw [hregs]
    exact htarget.drop.preserved hwrote.memory
  · simp only [hregs, UInt32.size]
    omega
  · simp only [hregs, UInt32.size]
    omega
  · rw [hregs]
    exact hinjective.mono (Set.union_subset_union Set.subset_union_right Set.subset_union_right)
  · simp only [hregs, UInt32.le_iff_toNat_le]
    omega

/-- A chunk of a copy and the rest of it are the copy: the chunk left the bytes that the rest reads. -/
theorem Copyable.whole (hcopy : Copyable T m)
    (hwrote : Wrote .copy T (fun i => m.memory.ram.byte (T (m.regs.b + i.toUInt32)).toNat)
      (BlockOp.copy.length m.regs) m m₁)
    (hwrote' : Wrote .copy T (fun i => m₁.memory.ram.byte (T (m₁.regs.b + i.toUInt32)).toNat)
      m₁.regs.c m₁ m') :
    Wrote .copy T (fun i => m.memory.ram.byte (T (m.regs.b + i.toUInt32)).toNat) m.regs.c m m' := by
  obtain ⟨-, hc₁, -, -⟩ := advance_operands .copy (BlockOp.copy.length m.regs) m.regs
  obtain ⟨hsplit, hsum⟩ := length_add_rest .copy m.regs
  have hpart := hcopy.target.mono (BlockOp.copy.length_le m.regs)
  have hb : m₁.regs.b = m.regs.b + BlockOp.copy.length m.regs := by
    rw [hwrote.regs, BlockOp.advance]
  rw [← hwrote.regs] at hc₁
  rw [hb, hc₁] at hwrote'
  generalize BlockOp.copy.length m.regs = n at *
  have hlater : ∀ j < (m.regs.c - n).toNat,
      m₁.memory.ram.byte (T (m.regs.b + n + j.toUInt32)).toNat =
        m.memory.ram.byte (T (m.regs.b + (n.toNat + j).toUInt32)).toNat := by
    intro j hj
    rw [add_add_toUInt32]
    refine hwrote.memory.byte_eq ?_ (hcopy.source.apart _ ⟨_, ⟨_, by omega, rfl⟩, rfl⟩)
    rintro ⟨_, ⟨i, hi, rfl⟩, hat⟩
    exact (hcopy.kept (show i < _ by omega) (by omega)).1 (UInt32.toNat_inj.1 hat)
  have hall := hwrote.append (hwrote'.congr hlater) (by rw [hsum, hsplit]) hpart.apart
    fun i hi j hj hat => by
      rw [add_add_toUInt32] at hat
      exact absurd (UInt32.toNat_inj.1 hat) (hcopy.kept (by omega) (by omega)).2
  rwa [hsum] at hall

theorem copy_wrote (h : m.memory.Faithful m.regs.space .data false) (hcopy : Copyable T m) :
    ∃ m', block .copy m = .ok () m' ∧
      Wrote .copy T (fun i => m.memory.ram.byte (T (m.regs.b + i.toUInt32)).toNat) m.regs.c
        m m' := by
  refine wrote_of_chunks (fun m => m.memory.Faithful m.regs.space .data false ∧ Copyable T m)
    (fun m i => m.memory.ram.byte (T (m.regs.b + i.toUInt32)).toNat) (fun _ => rfl) ?_ ⟨h, hcopy⟩
  rintro m ⟨h, hcopy⟩ hc
  obtain ⟨m₁, hblock, hfaithful, hwrote⟩ := copy_chunk h hc hcopy.source hcopy.target
  obtain ⟨-, -, hspace, -⟩ := advance_operands .copy (BlockOp.copy.length m.regs) m.regs
  rw [← hwrote.regs] at hspace
  rw [← hspace] at hfaithful
  exact ⟨m₁, hblock, ⟨hfaithful, hcopy.rest hwrote⟩, hwrote.regs, fun _ => hcopy.whole hwrote⟩

end

end Machine

/-- Copies and fills store what they should, where they should, and nothing else. -/
theorem block_stores {m : Machine} {T : UInt32 → UInt32} (hm : m.Regular) :
    (Machine.Copyable T m → ∃ m', Machine.block .copy m = .ok () m' ∧
      (∀ i < m.regs.c.toNat, m'.memory.ram.byte (T (m.regs.a + i.toUInt32)).toNat =
        m.memory.ram.byte (T (m.regs.b + i.toUInt32)).toNat) ∧
      m.memory.ram.Preserved m.regs.space 0x60 (places T m.regs.a m.regs.c.toNat) m'.memory.ram ∧
      m'.regs = { m.regs with a := m.regs.a + m.regs.c, b := m.regs.b + m.regs.c, c := 0 } ∧
      m'.blockBytes = m.blockBytes + m.regs.c.toNat) ∧
    (m.memory.ram.Lies m.regs.space .store m.regs.user T m.regs.a m.regs.c.toNat →
      ∃ m', Machine.block .fill m = .ok () m' ∧
      (∀ i < m.regs.c.toNat,
        m'.memory.ram.byte (T (m.regs.a + i.toUInt32)).toNat = m.regs.b.toUInt8) ∧
      m.memory.ram.Preserved m.regs.space 0x60 (places T m.regs.a m.regs.c.toNat) m'.memory.ram ∧
      m'.regs = { m.regs with a := m.regs.a + m.regs.c, c := 0 } ∧
      m'.blockBytes = m.blockBytes + m.regs.c.toNat) := by
  have hfaithful := hm.agrees.faithful hm.aligned hm.paged .data false
  constructor
  · intro hcopy
    obtain ⟨m', hrun, hwrote⟩ := Machine.copy_wrote hfaithful hcopy
    have hregs := hwrote.regs
    rw [BlockOp.advance, UInt32.sub_self] at hregs
    exact ⟨m', hrun, hwrote.byte, hwrote.memory, hregs, hwrote.blockBytes⟩
  · intro htarget
    obtain ⟨m', hrun, hwrote⟩ := Machine.fill_wrote hfaithful htarget
    have hregs := hwrote.regs
    rw [BlockOp.advance, UInt32.sub_self] at hregs
    exact ⟨m', hrun, hwrote.byte, hwrote.memory, hregs, hwrote.blockBytes⟩

/-! A copy of four bytes to two bytes before them, across the end of a page. -/

/-- A machine about to copy or fill in pages that are one. -/
def Machine.straddling : Machine :=
  { regs := { a := 4092, b := 4094, c := 4, space := ⟨true, some 0⟩ }
    memory := ⟨.mirrored, .ofCapacity 1, .uncached⟩ }

theorem Machine.copyable_straddling : Copyable mirroredPlace straddling where
  source := (Ram.lies_mirrored (by decide)).load
  target := Ram.lies_mirrored (by decide)
  source_fits := by decide
  target_fits := by decide
  injective := by
    have hrange {w : UInt32}
        (hw : w ∈ addresses 4092 4 ∪ addresses 4094 4) : 4092 ≤ w.toNat ∧ w.toNat < 4098 := by
      rcases hw with ⟨i, hi, rfl⟩ | ⟨i, hi, rfl⟩
      · rw [UInt32.toNat_add, UInt32.toNat_ofNat']
        simp only [UInt32.reduceToNat]
        omega
      · rw [UInt32.toNat_add, UInt32.toNat_ofNat']
        simp only [UInt32.reduceToNat]
        omega
    intro v hv w hw heq
    have hv := hrange hv
    have hw := hrange hw
    have hplace := congrArg UInt32.toNat heq
    rw [mirroredPlace_toNat, mirroredPlace_toNat] at hplace
    apply UInt32.toNat_inj.1
    omega
  forward := .inl (by decide)

theorem block_stores_straddling :
    let m := Machine.straddling
    (m.Regular ∧ Machine.Copyable mirroredPlace m ∧
      m.memory.ram.Lies m.regs.space .store m.regs.user mirroredPlace m.regs.a m.regs.c.toNat) ∧
    (∃ m', Machine.block .copy m = .ok () m' ∧
      (∀ i < 4, m'.memory.ram.byte (mirroredPlace (4092 + i.toUInt32)).toNat =
        m.memory.ram.byte (mirroredPlace (4094 + i.toUInt32)).toNat) ∧
      m.memory.ram.Preserved m.regs.space 0x60 (places mirroredPlace 4092 4) m'.memory.ram ∧
      m'.regs = { m.regs with a := 4096, b := 4098, c := 0 } ∧ m'.blockBytes = 4) ∧
    ∃ m', Machine.block .fill m = .ok () m' ∧
      (∀ i < 4, m'.memory.ram.byte (mirroredPlace (4092 + i.toUInt32)).toNat = 0xfe) ∧
      m.memory.ram.Preserved m.regs.space 0x60 (places mirroredPlace 4092 4) m'.memory.ram ∧
      m'.regs = { m.regs with a := 4096, c := 0 } ∧ m'.blockBytes = 4 := by
  intro m
  have hm : m.Regular := Machine.regular_mirrored.of_eq rfl rfl
  have hcopy := Machine.copyable_straddling
  have hstores := block_stores (T := mirroredPlace) hm
  obtain ⟨m', hrun, hbyte, hrest⟩ := hstores.2 hcopy.target
  refine ⟨⟨hm, hcopy, hcopy.target⟩, hstores.1 hcopy, m', hrun, fun i hi => ?_, hrest⟩
  exact (hbyte i hi).trans (by decide)

end PagedMachine
