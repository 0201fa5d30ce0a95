import Mathlib.Data.List.Dedup
import PagedMachine.Proofs.Coherence

/-!
# The lookaside buffer is a bounded map

Whatever is inserted, looked up and flushed, the buffer answers from the insertions since it was last
emptied (`Tlb.Reflects`), and as long as its epoch lasts it only gains pages (`Tlb.getElem?_run`).

The buffer may be laid out as a table with one entry for each page, whose permissions are a set of bits,
beside the list of the pages that have an entry and a generation of 64 bits that wraps around:
`EntryTable`. `EntryTable.Lays` says that such a table is laid out for a buffer. Every operation keeps
this and gives the same answers, so table and buffer go together through all sequences of operations
(`bounded_map`).
-/

set_option autoImplicit false

namespace PagedMachine

/-! ## Operations -/

inductive TlbOp
  | insert (page : UInt32) (mapping : Mapping)
  | lookup (right : Right) (page : UInt32)
  | flush

/-- What a lookup answers for a page that may be accessed: its frame, and whether the same privilege
may write it. -/
structure TlbAnswer where
  frame : UInt32
  writable : Bool

/-- The mapping with its frame rounded down to a page. -/
def Mapping.aligned (m : Mapping) : Mapping := { m with frame := pageBase m.frame }

theorem Mapping.grants_iff {m : Mapping} {right : Right} :
    m.grants right = true ↔
      (right.write = true → m.writable = true) ∧ (right.user = true → m.user = true) := by
  cases right with
  | mk user write => cases user <;> cases write <;> simp [grants]

/-! ## The buffer over a sequence of operations -/

namespace Tlb

def perform (t : Tlb) : TlbOp → Tlb
  | .insert page m => t.insert page m
  | .lookup right page => (t.lookup right page).2
  | .flush => t.flush

def run (t : Tlb) (ops : List TlbOp) : Tlb := ops.foldl perform t

/-- What a lookup answers. -/
def answer (t : Tlb) (right : Right) (page : UInt32) : Option TlbAnswer :=
  (t.lookup right page).1.map fun m => ⟨m.frame, m.grants { right with write := true }⟩

variable {t : Tlb} {log : List (UInt32 × Mapping)}

/-- The insertions since the buffer was last emptied, the latest first. A new page empties a buffer
for `capacity` pages that already holds so many. -/
def record (capacity : Nat) (log : List (UInt32 × Mapping)) : TlbOp → List (UInt32 × Mapping)
  | .insert page m =>
    if page ∉ log.map Prod.fst ∧ capacity ≤ (log.map Prod.fst).dedup.length then [(page, m)]
    else (page, m) :: log
  | .lookup .. => log
  | .flush => []

def insertions (capacity : Nat) (ops : List TlbOp) : List (UInt32 × Mapping) :=
  ops.foldl (record capacity) []

/-- The buffer holds what was inserted last for each page. -/
def Reflects (t : Tlb) (log : List (UInt32 × Mapping)) : Prop :=
  ∀ page, t.entries[page]? = (log.lookup page).map Mapping.aligned

namespace Reflects

theorem mem_iff (h : t.Reflects log) (page : UInt32) :
    page ∈ t.entries ↔ page ∈ log.map Prod.fst := by
  rw [Std.HashMap.mem_iff_isSome_getElem?, h page, Option.isSome_map, List.lookup_isSome_iff,
    List.mem_map]
  simp only [beq_iff_eq, eq_comm (a := page)]

/-- The number of pages held is the number of different pages inserted. -/
theorem live_eq (h : t.Reflects log) : t.live = (log.map Prod.fst).dedup.length := by
  have hperm : t.entries.keys.Perm (log.map Prod.fst).dedup := by
    rw [List.perm_ext_iff_of_nodup Std.HashMap.nodup_keys (List.nodup_dedup _)]
    intro page
    rw [Std.HashMap.mem_keys, h.mem_iff, List.mem_dedup]
  rw [live, ← Std.HashMap.length_keys, hperm.length_eq]

theorem overflows_iff (h : t.Reflects log) (page : UInt32) :
    t.overflows page = true ↔
      page ∉ log.map Prod.fst ∧ t.capacity ≤ (log.map Prod.fst).dedup.length := by
  rw [overflows, Bool.and_eq_true, Bool.not_eq_true', decide_eq_true_iff, h.live_eq,
    Std.HashMap.contains_eq_false_iff_not_mem, h.mem_iff]

theorem perform (h : t.Reflects log) (op : TlbOp) :
    (t.perform op).Reflects (record t.capacity log op) := by
  intro other
  cases op with
  | insert page m =>
    show (t.insert page m).entries[other]? = _
    rw [getElem?_insert, record]
    by_cases hp : page = other
    · subst hp
      rw [if_pos rfl]
      split <;> simp [Mapping.aligned]
    · have hne : (other == page) = false := by simpa using Ne.symm hp
      rw [if_neg hp]
      by_cases ho : t.overflows page = true
      · rw [if_pos ho, if_pos ((h.overflows_iff page).1 ho), List.lookup_cons, hne]
        rfl
      · rw [if_neg ho, if_neg fun hc => ho ((h.overflows_iff page).2 hc), List.lookup_cons, hne]
        exact h other
  | lookup right page => simpa [Tlb.perform, record] using h other
  | flush => simp [Tlb.perform, Tlb.flush, record]

end Reflects

@[simp] theorem capacity_perform (t : Tlb) (op : TlbOp) : (t.perform op).capacity = t.capacity := by
  cases op with
  | insert page m => exact insert_capacity t page m
  | lookup right page =>
    show (t.lookup right page).2.capacity = t.capacity
    rw [lookup]
    split <;> rfl
  | flush => rfl

theorem capacity_run (t : Tlb) (ops : List TlbOp) : (t.run ops).capacity = t.capacity := by
  induction ops generalizing t with
  | nil => rfl
  | cons op ops ih => exact (ih (t.perform op)).trans (capacity_perform t op)

theorem Reflects.run (h : t.Reflects log) (ops : List TlbOp) :
    (t.run ops).Reflects (ops.foldl (record t.capacity) log) := by
  induction ops generalizing t log with
  | nil => exact h
  | cons op ops ih =>
    have := ih (h.perform op)
    rwa [capacity_perform] at this

/-- A buffer that began empty holds what was inserted since it was last emptied. -/
theorem reflects_insertions (capacity : Nat) (ops : List TlbOp) :
    ((ofCapacity capacity).run ops).Reflects (insertions (max 1 (min capacity pages)) ops) := by
  have hstart : (ofCapacity capacity).Reflects [] := fun page => by simp [ofCapacity]
  exact hstart.run ops

/-- A lookup answers from the latest insertion of its page. -/
theorem Reflects.answer_eq_some_iff (h : t.Reflects log) {right : Right} {page frame : UInt32}
    {writable : Bool} :
    t.answer right page = some ⟨frame, writable⟩ ↔
      ∃ m, log.lookup page = some m ∧
        (right.write = true → m.writable = true) ∧ (right.user = true → m.user = true) ∧
        frame = pageBase m.frame ∧ writable = (m.writable && (!right.user || m.user)) := by
  rw [answer, lookup_fst, find?, h page, Option.map_eq_some_iff]
  cases log.lookup page with
  | none => simp
  | some m =>
    have hwritable : m.aligned.grants { right with write := true } =
        (m.writable && (!right.user || m.user)) := by
      simp [Mapping.aligned, Mapping.grants]
    simp only [Option.map_some, Option.filter_eq_some_iff, Option.some.injEq, and_assoc,
      exists_eq_left', TlbAnswer.mk.injEq, Mapping.grants_iff, hwritable]
    exact and_congr_right fun _ => and_congr_right fun _ => and_congr eq_comm eq_comm

/-- Another page is answered as before, unless a full buffer was emptied. -/
theorem answer_insert_of_ne {page other : UInt32} (hne : page ≠ other) (m : Mapping) (right : Right) :
    (t.insert page m).answer right other =
      if t.overflows page then none else t.answer right other := by
  simp only [answer, lookup_fst, find?, getElem?_insert, if_neg hne]
  split <;> rfl

theorem mem_insert {page other : UInt32} (m : Mapping) :
    other ∈ (t.insert page m).entries ↔
      other = page ∨ t.overflows page = false ∧ other ∈ t.entries := by
  rw [Std.HashMap.mem_iff_isSome_getElem?, getElem?_insert]
  by_cases hp : page = other
  · simp [hp]
  · rw [if_neg hp, Std.HashMap.mem_iff_isSome_getElem?]
    cases t.overflows page <;> simp [Ne.symm hp]

theorem live_perform_le (h : t.live ≤ t.capacity) (hc : 0 < t.capacity) (op : TlbOp) :
    (t.perform op).live ≤ (t.perform op).capacity := by
  cases op with
  | insert page m => exact live_insert_le h hc page m
  | lookup right page =>
    have hl : (t.perform (.lookup right page)).live = t.live := by simp [perform, live]
    rwa [hl, capacity_perform]
  | flush => exact Nat.le_trans (Nat.le_of_eq (live_flush t)) (Nat.zero_le _)

theorem live_run_le (h : t.live ≤ t.capacity) (hc : 0 < t.capacity) (ops : List TlbOp) :
    (t.run ops).live ≤ (t.run ops).capacity := by
  induction ops generalizing t with
  | nil => exact h
  | cons op ops ih => exact ih (live_perform_le h hc op) (by rwa [capacity_perform])

/-! ### Epochs -/

theorem epoch_le_perform (t : Tlb) (op : TlbOp) : t.epoch ≤ (t.perform op).epoch := by
  cases op with
  | insert page m => exact epoch_le_insert t page m
  | lookup right page => exact Nat.le_of_eq (lookup_epoch t right page).symm
  | flush => exact Nat.le_succ _

theorem epoch_le_run (t : Tlb) (ops : List TlbOp) : t.epoch ≤ (t.run ops).epoch := by
  induction ops generalizing t with
  | nil => exact Nat.le_refl _
  | cons op ops ih => exact Nat.le_trans (epoch_le_perform t op) (ih _)

/-- Within an epoch pages are added, and none is replaced or dropped. -/
theorem getElem?_perform {op : TlbOp} (he : (t.perform op).epoch = t.epoch) {page : UInt32}
    {m : Mapping} (hm : t.entries[page]? = some m) : (t.perform op).entries[page]? = some m := by
  cases op with
  | insert other m' =>
    have hold : ¬(t.entries.contains other || t.overflows other) = true := by
      intro hnew
      have := epoch_insert t other m'
      rw [if_pos hnew] at this
      exact absurd (this.symm.trans he) (Nat.succ_ne_self _)
    simp only [Bool.or_eq_true, not_or, Bool.not_eq_true] at hold
    have hne : other ≠ page := by
      rintro rfl
      simp [Std.HashMap.getElem?_eq_none_of_contains_eq_false hold.1] at hm
    show (t.insert other m').entries[page]? = some m
    rwa [getElem?_insert, if_neg hne, hold.2]
  | lookup right other => simpa [perform] using hm
  | flush => exact absurd he (Nat.succ_ne_self _)

theorem getElem?_run {ops : List TlbOp} (he : (t.run ops).epoch = t.epoch) {page : UInt32}
    {m : Mapping} (hm : t.entries[page]? = some m) : (t.run ops).entries[page]? = some m := by
  induction ops generalizing t with
  | nil => exact hm
  | cons op ops ih =>
    have hop : (t.perform op).epoch = t.epoch :=
      Nat.le_antisymm (Nat.le_trans (epoch_le_run _ ops) (Nat.le_of_eq he)) (epoch_le_perform t op)
    exact ih (he.trans hop.symm) (getElem?_perform hop hm)

/-- What a lookup answers it answers as long as the generation stays the same. -/
theorem answer_run {ops : List TlbOp} (hg : (t.run ops).generation = t.generation)
    (hn : (t.run ops).epoch < t.epoch + UInt64.size) {right : Right} {page : UInt32}
    {a : TlbAnswer} (ha : t.answer right page = some a) :
    (t.run ops).answer right page = some a := by
  have hle := epoch_le_run t ops
  have he : (t.run ops).epoch = t.epoch := by
    have hg := congrArg UInt64.toNat hg
    simp only [generation, Nat.toUInt64, UInt64.toNat_ofNat', UInt64.size] at hg hn
    omega
  obtain ⟨m, hm, rfl⟩ := Option.map_eq_some_iff.1 ha
  rw [lookup_fst, find?_eq_some_iff] at hm
  rw [answer, lookup_fst, find?_eq_some_iff.2 ⟨getElem?_run he hm.1, hm.2⟩]
  rfl

end Tlb

/-! ## The buffer laid out as a table -/

/-- The bit of the accesses that need `right`. -/
def Right.bit (right : Right) : UInt8 :=
  if right.user then if right.write then 8 else 4 else if right.write then 2 else 1

/-- The bits of the accesses that a mapping is valid for. -/
def Mapping.permissions (m : Mapping) : UInt8 :=
  1 ||| (if m.writable then 2 else 0) |||
    (if m.user then 4 ||| (if m.writable then 8 else 0) else 0)

theorem Mapping.permissions_ne_zero (m : Mapping) : m.permissions ≠ 0 := by
  simp only [permissions]
  generalize m.writable = writable, m.user = user
  decide +revert

theorem Mapping.permissions_and_bit (m : Mapping) (right : Right) :
    (m.permissions &&& right.bit != 0) = m.grants right := by
  simp only [permissions, Right.bit, grants]
  generalize m.writable = writable, m.user = user, right.write = write, right.user = ruser
  decide +revert

/-- The entry of a page. Without permissions there is no mapping. -/
structure TableEntry where
  frame : UInt32 := 0
  permissions : UInt8 := 0
deriving DecidableEq

structure EntryTable where
  /-- One entry for each page of the address space. -/
  entries : Vector TableEntry Tlb.pages
  /-- The pages that have a mapping, in the order they got it. -/
  live : List UInt32
  capacity : Nat
  /-- Goes up with every flush and overwrite, and wraps around. -/
  generation : UInt64
  hits : Nat
  misses : Nat
  flushes : Nat

namespace EntryTable

/-- A table without mappings for `capacity` pages, at least one and at most all. -/
def ofCapacity (capacity : Nat) : EntryTable where
  entries := .replicate Tlb.pages {}
  live := []
  capacity := max 1 (min capacity Tlb.pages)
  generation := 0
  hits := 0
  misses := 0
  flushes := 0

def entry (b : EntryTable) (page : UInt32) : TableEntry := b.entries[page.toNat]?.getD {}

def lookup (b : EntryTable) (right : Right) (page : UInt32) : Option TlbAnswer × EntryTable :=
  let e := b.entry page
  if e.permissions &&& right.bit != 0 then
    (some ⟨e.frame, e.permissions &&& { right with write := true : Right }.bit != 0⟩,
      { b with hits := b.hits + 1 })
  else (none, { b with misses := b.misses + 1 })

/-- Takes the mappings of the live pages away, one after the other. -/
def flush (b : EntryTable) : EntryTable :=
  { b with
    entries := b.live.foldl (fun entries page => entries.setIfInBounds page.toNat {}) b.entries
    live := []
    generation := b.generation + 1
    flushes := b.flushes + 1 }

def insert (b : EntryTable) (page : UInt32) (m : Mapping) : EntryTable :=
  let b :=
    if (b.entry page).permissions = 0 then
      let b := if b.live.length ≥ b.capacity then b.flush else b
      { b with live := b.live ++ [page] }
    else { b with generation := b.generation + 1 }
  { b with entries := b.entries.setIfInBounds page.toNat ⟨pageBase m.frame, m.permissions⟩ }

def perform (b : EntryTable) : TlbOp → EntryTable
  | .insert page m => b.insert page m
  | .lookup right page => (b.lookup right page).2
  | .flush => b.flush

def run (b : EntryTable) (ops : List TlbOp) : EntryTable := ops.foldl perform b

/-! ### Entries -/

theorem getD_set (entries : Vector TableEntry Tlb.pages) {page : UInt32}
    (hp : page.toNat < Tlb.pages) (e : TableEntry) (other : UInt32) :
    (entries.setIfInBounds page.toNat e)[other.toNat]?.getD {} =
      if page = other then e else entries[other.toNat]?.getD {} := by
  rw [Vector.getElem?_setIfInBounds]
  by_cases h : page = other
  · rw [if_pos h, if_pos (congrArg _ h), if_pos hp, Option.getD_some]
  · rw [if_neg h, if_neg (mt UInt32.toNat_inj.1 h)]

/-- Clearing some pages leaves the entries of the others. -/
theorem getD_clear {live : List UInt32} (hlive : ∀ page ∈ live, page.toNat < Tlb.pages)
    (entries : Vector TableEntry Tlb.pages) (other : UInt32) :
    (live.foldl (fun entries page => entries.setIfInBounds page.toNat {}) entries)[other.toNat]?.getD
        {} =
      if other ∈ live then {} else entries[other.toNat]?.getD {} := by
  induction live generalizing entries with
  | nil => simp
  | cons page live ih =>
    rw [List.foldl_cons, ih (fun p hp => hlive p (.tail _ hp)),
      getD_set entries (hlive page (.head _))]
    by_cases hmem : other ∈ live
    · simp [hmem]
    · by_cases hp : page = other
      · simp [hp]
      · simp [hmem, hp, Ne.symm hp]

/-! ### Agreement with the buffer -/

/-- What the table says of a page that the buffer maps so. -/
def ofMapping : Option Mapping → TableEntry
  | some m => ⟨m.frame, m.permissions⟩
  | none => {}

theorem permissions_ofMapping (m : Option Mapping) : (ofMapping m).permissions = 0 ↔ m = none := by
  cases m with
  | none => simp [ofMapping]
  | some m => simp [ofMapping, m.permissions_ne_zero]

/-- The table is laid out for the buffer. -/
structure Lays (b : EntryTable) (t : Tlb) : Prop where
  entry : ∀ page, b.entry page = ofMapping t.entries[page]?
  nodup : b.live.Nodup
  live : ∀ page, page ∈ b.live ↔ page ∈ t.entries
  /-- No page lies beyond the table. -/
  page : ∀ page ∈ b.live, page.toNat < Tlb.pages
  capacity : b.capacity = t.capacity
  generation : b.generation = t.generation
  hits : b.hits = t.hits
  misses : b.misses = t.misses
  flushes : b.flushes = t.flushes

namespace Lays

variable {b : EntryTable} {t : Tlb}

theorem length_live (h : b.Lays t) : b.live.length = t.live := by
  have hperm : b.live.Perm t.entries.keys := by
    rw [List.perm_ext_iff_of_nodup h.nodup Std.HashMap.nodup_keys]
    intro page
    rw [h.live, Std.HashMap.mem_keys]
  rw [hperm.length_eq, Std.HashMap.length_keys, Tlb.live]

/-- The live pages are those with permissions. -/
theorem mem_live_iff (h : b.Lays t) (page : UInt32) :
    page ∈ b.live ↔ (b.entry page).permissions ≠ 0 := by
  rw [h.live, h.entry, Ne, permissions_ofMapping, Std.HashMap.mem_iff_isSome_getElem?,
    Option.isSome_iff_ne_none]

theorem ofCapacity (capacity : Nat) : (EntryTable.ofCapacity capacity).Lays (.ofCapacity capacity) where
  entry page := by
    have : (Vector.replicate Tlb.pages ({} : TableEntry))[page.toNat]?.getD {} = {} := by
      rw [Vector.getElem?_replicate]
      split <;> rfl
    simpa [EntryTable.entry, EntryTable.ofCapacity, Tlb.ofCapacity, ofMapping] using this
  nodup := List.nodup_nil
  live page := by simp [EntryTable.ofCapacity, Tlb.ofCapacity]
  page page hp := by simp [EntryTable.ofCapacity] at hp
  capacity := rfl
  generation := rfl
  hits := rfl
  misses := rfl
  flushes := rfl

/-- The table answers as the buffer does. -/
theorem answer (h : b.Lays t) (right : Right) (page : UInt32) :
    (b.lookup right page).1 = t.answer right page := by
  have hanswer : t.answer right page = (t.entries[page]?.filter (·.grants right)).map fun m =>
      ⟨m.frame, m.grants { right with write := true }⟩ := by
    rw [Tlb.answer, Tlb.lookup_fst, Tlb.find?]
  rw [hanswer, EntryTable.lookup, h.entry]
  cases t.entries[page]? with
  | none => simp [ofMapping]
  | some m =>
    simp only [ofMapping, m.permissions_and_bit]
    cases hg : m.grants right <;> simp [Option.filter, hg]

theorem lookup (h : b.Lays t) (right : Right) (page : UInt32) :
    (b.lookup right page).2.Lays (t.lookup right page).2 := by
  have hfst := h.answer right page
  rw [Tlb.answer] at hfst
  simp only [EntryTable.lookup, Tlb.lookup] at hfst ⊢
  cases hf : t.find? right page with
  | none =>
    rw [hf] at hfst
    split at hfst
    · simp at hfst
    · rename_i hp
      rw [if_neg hp]
      exact { h with misses := congrArg (· + 1) h.misses }
  | some m =>
    rw [hf] at hfst
    split at hfst
    · rename_i hp
      rw [if_pos hp]
      exact { h with hits := congrArg (· + 1) h.hits }
    · simp at hfst

theorem flush (h : b.Lays t) : b.flush.Lays t.flush where
  entry page := by
    show (b.live.foldl _ b.entries)[page.toNat]?.getD {} = ofMapping t.flush.entries[page]?
    have hnone : t.flush.entries[page]? = none := by simp [Tlb.flush]
    rw [getD_clear h.page, hnone]
    by_cases hp : page ∈ b.live
    · rw [if_pos hp]
      rfl
    · rw [if_neg hp]
      have hentry : b.entry page = ofMapping none := by
        rw [h.entry]
        rw [h.live] at hp
        rw [Std.HashMap.getElem?_eq_none hp]
      exact hentry
  nodup := List.nodup_nil
  live page := by simp [EntryTable.flush, Tlb.flush]
  page page hp := by simp [EntryTable.flush] at hp
  capacity := h.capacity
  generation := by
    rw [Tlb.generation_flush, ← h.generation]
    rfl
  hits := h.hits
  misses := h.misses
  flushes := congrArg (· + 1) h.flushes

/-- A page without a mapping gets one while there is room. -/
theorem add (h : b.Lays t) {page : UInt32} (hp : page.toNat < Tlb.pages) (hnew : page ∉ t.entries)
    (hroom : t.live < t.capacity) (m : Mapping) : (b.insert page m).Lays (t.insert page m) := by
  have hb : (b.entry page).permissions = 0 := by
    rw [h.entry, permissions_ofMapping, Std.HashMap.getElem?_eq_none hnew]
  have hbroom : ¬b.live.length ≥ b.capacity := by
    rw [h.length_live, h.capacity]
    omega
  have hcontains : t.entries.contains page = false :=
    Std.HashMap.contains_eq_false_iff_not_mem.2 hnew
  have hbi : b.insert page m = { b with
      live := b.live ++ [page]
      entries := b.entries.setIfInBounds page.toNat ⟨pageBase m.frame, m.permissions⟩ } := by
    rw [insert, if_pos hb, if_neg hbroom]
  have hti : t.insert page m = { t with entries := t.entries.insert page m.aligned } := by
    simp only [Tlb.insert, hcontains, Bool.false_eq_true, if_false, ge_iff_le,
      if_neg (Nat.not_le_of_gt hroom), Mapping.aligned]
  rw [hbi, hti]
  refine { h with entry := ?_, nodup := ?_, live := ?_, page := ?_ }
  · intro other
    show (b.entries.setIfInBounds page.toNat _)[other.toNat]?.getD {} = _
    rw [getD_set _ hp, Std.HashMap.getElem?_insert]
    by_cases ho : page = other
    · simp [ho, ofMapping, Mapping.aligned, Mapping.permissions]
    · rw [if_neg ho, if_neg (by simpa using ho)]
      exact h.entry other
  · refine h.nodup.append (List.nodup_singleton page) ?_
    rw [List.disjoint_singleton]
    exact fun hmem => hnew ((h.live page).1 hmem)
  · intro other
    rw [List.mem_append, List.mem_singleton, h.live, Std.HashMap.mem_insert, beq_iff_eq, or_comm,
      eq_comm]
  · intro other ho
    rcases List.mem_append.1 ho with ho | ho
    · exact h.page other ho
    · rwa [List.mem_singleton.1 ho]

/-- A page that has a mapping gets another. -/
theorem replace (h : b.Lays t) {page : UInt32} (hold : page ∈ t.entries) (m : Mapping) :
    (b.insert page m).Lays (t.insert page m) := by
  have hlive := (h.live page).2 hold
  have hb : ¬(b.entry page).permissions = 0 := (h.mem_live_iff page).1 hlive
  have hbi : b.insert page m = { b with
      generation := b.generation + 1
      entries := b.entries.setIfInBounds page.toNat ⟨pageBase m.frame, m.permissions⟩ } := by
    rw [insert, if_neg hb]
  have hti : t.insert page m =
      { t with entries := t.entries.insert page m.aligned, epoch := t.epoch + 1 } := by
    simp only [Tlb.insert, Std.HashMap.contains_iff_mem.2 hold, if_true, Mapping.aligned]
  rw [hbi, hti]
  refine { h with entry := ?_, live := ?_, generation := ?_ }
  · intro other
    show (b.entries.setIfInBounds page.toNat _)[other.toNat]?.getD {} = _
    rw [getD_set _ (h.page page hlive), Std.HashMap.getElem?_insert]
    by_cases ho : page = other
    · simp [ho, ofMapping, Mapping.aligned, Mapping.permissions]
    · rw [if_neg ho, if_neg (by simpa using ho)]
      exact h.entry other
  · intro other
    rw [h.live, Std.HashMap.mem_insert]
    constructor
    · exact Or.inr
    · rintro (ho | ho)
      · rwa [← beq_iff_eq.1 ho]
      · exact ho
  · show b.generation + 1 = t.flush.generation
    rw [Tlb.generation_flush, h.generation]

theorem insert (h : b.Lays t) (hc : 0 < t.capacity) {page : UInt32} (hp : page.toNat < Tlb.pages)
    (m : Mapping) : (b.insert page m).Lays (t.insert page m) := by
  by_cases hold : page ∈ t.entries
  · exact h.replace hold m
  by_cases hroom : t.live < t.capacity
  · exact h.add hp hold hroom m
  -- a full buffer is emptied, and then there is room
  have hb : (b.entry page).permissions = 0 := by
    rw [h.entry, permissions_ofMapping, Std.HashMap.getElem?_eq_none hold]
  have hbfull : b.live.length ≥ b.capacity := by
    rw [h.length_live, h.capacity]
    omega
  have hnew : page ∉ t.flush.entries := by simp [Tlb.flush]
  have hempty := h.flush
  have hb' : (b.flush.entry page).permissions = 0 := by
    rw [hempty.entry, permissions_ofMapping, Std.HashMap.getElem?_eq_none hnew]
  have hbi : b.insert page m = b.flush.insert page m := by
    have hroom' : ¬b.flush.live.length ≥ b.flush.capacity := by
      rw [hempty.length_live, hempty.capacity, Tlb.live_flush]
      exact Nat.not_le_of_gt hc
    rw [EntryTable.insert, EntryTable.insert, if_pos hb, if_pos hbfull, if_pos hb', if_neg hroom']
  have hti : t.insert page m = t.flush.insert page m := by
    have hroom' : ¬t.flush.live ≥ t.flush.capacity := by
      rw [Tlb.live_flush]
      exact Nat.not_le_of_gt hc
    have hcontains := Std.HashMap.contains_eq_false_iff_not_mem.2 hold
    have hcontains' := Std.HashMap.contains_eq_false_iff_not_mem.2 hnew
    simp only [Tlb.insert, hcontains, hcontains', Bool.false_eq_true, if_false, if_neg hroom',
      ge_iff_le, if_pos (Nat.le_of_not_gt hroom)]
  rw [hbi, hti]
  exact hempty.add hp hnew (by rw [Tlb.live_flush]; exact hc) m

theorem perform (h : b.Lays t) (hc : 0 < t.capacity) {op : TlbOp}
    (hpage : ∀ page m, op = .insert page m → page.toNat < Tlb.pages) :
    (b.perform op).Lays (t.perform op) := by
  cases op with
  | insert page m => exact h.insert hc (hpage page m rfl) m
  | lookup right page => exact h.lookup right page
  | flush => exact h.flush

theorem run (h : b.Lays t) (hc : 0 < t.capacity) {ops : List TlbOp}
    (hpages : ∀ page m, .insert page m ∈ ops → page.toNat < Tlb.pages) :
    (b.run ops).Lays (t.run ops) := by
  induction ops generalizing b t with
  | nil => exact h
  | cons op ops ih =>
    refine ih (h.perform hc fun page m hop => hpages page m (hop ▸ .head _)) ?_
      fun page m hmem => hpages page m (.tail _ hmem)
    rwa [Tlb.capacity_perform]

theorem overflows_iff (h : b.Lays t) (page : UInt32) :
    t.overflows page = true ↔ page ∉ b.live ∧ t.capacity ≤ b.live.length := by
  rw [Tlb.overflows, Bool.and_eq_true, Bool.not_eq_true', decide_eq_true_iff, h.length_live,
    Std.HashMap.contains_eq_false_iff_not_mem, h.live]

/-- A new page in a full table is the only one left. -/
theorem insert_full (h : b.Lays t) (hc : 0 < t.capacity) {page : UInt32}
    (hp : page.toNat < Tlb.pages) (hnew : page ∉ b.live) (hfull : t.capacity ≤ b.live.length)
    (m : Mapping) :
    (b.insert page m).live = [page] ∧ (b.insert page m).flushes = b.flushes + 1 ∧
      ∀ other ≠ page, ∀ right, ((b.insert page m).lookup right other).1 = none := by
  have hover := (h.overflows_iff page).2 ⟨hnew, hfull⟩
  have hins := h.insert hc hp m
  refine ⟨?_, ?_, fun other hne right => ?_⟩
  · rw [← List.perm_singleton, List.perm_ext_iff_of_nodup hins.nodup (List.nodup_singleton page)]
    intro other
    simp [hins.live, Tlb.mem_insert, hover]
  · rw [hins.flushes, h.flushes, Tlb.flushes_insert, if_pos hover]
  · rw [hins.answer, Tlb.answer_insert_of_ne hne.symm, if_pos hover]

/-- Any other insertion leaves the other pages alone. -/
theorem insert_room (h : b.Lays t) (hc : 0 < t.capacity) {page : UInt32}
    (hp : page.toNat < Tlb.pages) (hroom : page ∈ b.live ∨ b.live.length < t.capacity)
    (m : Mapping) :
    (∀ other, other ∈ (b.insert page m).live ↔ other = page ∨ other ∈ b.live) ∧
      (b.insert page m).flushes = b.flushes ∧
      ∀ other ≠ page, ∀ right, ((b.insert page m).lookup right other).1 = (b.lookup right other).1 := by
  have hover : t.overflows page = false := by
    rw [← Bool.not_eq_true, h.overflows_iff]
    rintro ⟨hnew, hfull⟩
    exact hroom.elim hnew (Nat.not_lt_of_ge hfull)
  have hins := h.insert hc hp m
  refine ⟨fun other => ?_, ?_, fun other hne right => ?_⟩
  · simp [hins.live, Tlb.mem_insert, hover, h.live]
  · rw [hins.flushes, h.flushes, Tlb.flushes_insert, hover]
    rfl
  · rw [hins.answer, h.answer, Tlb.answer_insert_of_ne hne.symm, hover]
    rfl

end Lays

end EntryTable

/-! ## The bounded map -/

/-- Through every sequence of operations on pages of the address space, the table stays laid out for
the buffer. Its live list has the pages with permissions, each once and never more than the capacity.
A lookup is answered from the latest insertion of the page since the buffer was last emptied, if that
grants the right. It is emptied when a page that is not live meets a full table, and only then do
other pages lose their answers by an insertion. While the generation stays the same, within as many
epochs as it can tell apart, every answer stays what it was. -/
theorem bounded_map (capacity : Nat) (ops : List TlbOp)
    (hpages : ∀ page m, .insert page m ∈ ops → page.toNat < Tlb.pages) :
    let bound := max 1 (min capacity Tlb.pages)
    let t := (Tlb.ofCapacity capacity).run ops
    let b := (EntryTable.ofCapacity capacity).run ops
    let log := Tlb.insertions bound ops
    b.Lays t ∧
    (b.live.Nodup ∧ b.live.length ≤ bound ∧
      ∀ page, (page ∈ b.live ↔ (b.entry page).permissions ≠ 0) ∧
        (page ∈ b.live ↔ page ∈ log.map Prod.fst)) ∧
    (∀ right page, (b.lookup right page).1 = t.answer right page ∧
      ∀ frame writable, (b.lookup right page).1 = some ⟨frame, writable⟩ ↔
        ∃ m, log.lookup page = some m ∧
          (right.write = true → m.writable = true) ∧ (right.user = true → m.user = true) ∧
          frame = pageBase m.frame ∧ writable = (m.writable && (!right.user || m.user))) ∧
    (∀ page m, page.toNat < Tlb.pages →
      if page ∉ b.live ∧ b.live.length = bound then
        (b.insert page m).live = [page] ∧ (b.insert page m).flushes = b.flushes + 1 ∧
          ∀ other ≠ page, ∀ right, ((b.insert page m).lookup right other).1 = none
      else
        (∀ other, other ∈ (b.insert page m).live ↔ other = page ∨ other ∈ b.live) ∧
          (b.insert page m).flushes = b.flushes ∧
          ∀ other ≠ page, ∀ right,
            ((b.insert page m).lookup right other).1 = (b.lookup right other).1) ∧
    ∀ later, (∀ page m, .insert page m ∈ later → page.toNat < Tlb.pages) →
      (b.run later).generation = b.generation → (t.run later).epoch < t.epoch + UInt64.size →
      ∀ right page a, (b.lookup right page).1 = some a →
        ((b.run later).lookup right page).1 = some a := by
  intro bound t b log
  have hstart := EntryTable.Lays.ofCapacity capacity
  have hcap : t.capacity = bound := Tlb.capacity_run _ ops
  have hpos : 0 < t.capacity := by
    rw [hcap]
    exact Nat.lt_of_lt_of_le Nat.one_pos (Nat.le_max_left _ _)
  have hpos' : 0 < (Tlb.ofCapacity capacity).capacity := by rwa [← Tlb.capacity_run _ ops]
  have hlays : b.Lays t := hstart.run hpos' hpages
  have hlog : t.Reflects log := Tlb.reflects_insertions capacity ops
  have hle : b.live.length ≤ bound := by
    rw [hlays.length_live, ← hcap]
    exact Tlb.live_run_le (by simp [Tlb.live, Tlb.ofCapacity]) hpos' ops
  refine ⟨hlays, ⟨hlays.nodup, hle, fun page => ⟨hlays.mem_live_iff page, ?_⟩⟩,
    fun right page => ⟨hlays.answer right page, fun frame writable => ?_⟩, fun page m hp => ?_, ?_⟩
  · rw [hlays.live, hlog.mem_iff]
  · rw [hlays.answer, hlog.answer_eq_some_iff]
  · split
    · rename_i hfull
      exact hlays.insert_full hpos hp hfull.1 (by omega) m
    · rename_i hroom
      refine hlays.insert_room hpos hp ?_ m
      rw [hcap]
      by_cases hmem : page ∈ b.live
      · exact .inl hmem
      · exact .inr (Nat.lt_of_le_of_ne hle fun heq => hroom ⟨hmem, heq⟩)
  · intro later hlater hgen hepoch right page a ha
    have hlays' := hlays.run hpos hlater
    rw [hlays'.generation, hlays.generation] at hgen
    rw [hlays.answer] at ha
    rw [hlays'.answer]
    exact Tlb.answer_run hgen hepoch ha

/-- A table of two pages: one of them is inserted again, and a third page empties the table. -/
theorem bounded_map_overflow :
    let ops : List TlbOp := [.insert 5 ⟨0x7abc, true, false⟩, .insert 6 ⟨0x1000, true, true⟩,
      .insert 5 ⟨0x2000, false, false⟩, .insert 0xfffff ⟨0x8fff, false, true⟩]
    let b := (EntryTable.ofCapacity 2).run ops
    (∀ page m, .insert page m ∈ ops → page.toNat < Tlb.pages) ∧ b.live.length ≤ 2 ∧
      (b.lookup ⟨true, false⟩ 0xfffff).1 = some ⟨0x8000, false⟩ ∧
      (b.lookup ⟨false, true⟩ 0xfffff).1 = none ∧ 6 ∉ b.live := by
  intro ops b
  have hpages : ∀ page m, .insert page m ∈ ops → page.toNat < Tlb.pages := by
    intro page m hmem
    simp only [ops, List.mem_cons, TlbOp.insert.injEq, List.not_mem_nil, or_false] at hmem
    obtain ⟨rfl, -⟩ | ⟨rfl, -⟩ | ⟨rfl, -⟩ | ⟨rfl, -⟩ := hmem <;> decide
  obtain ⟨-, ⟨-, hle, hlive⟩, hlookup, -, -⟩ := bounded_map 2 ops hpages
  have hlog : Tlb.insertions (max 1 (min 2 Tlb.pages)) ops = [(0xfffff, ⟨0x8fff, false, true⟩)] := by
    decide
  rw [hlog] at hlive
  simp only [hlog] at hlookup
  refine ⟨hpages, hle, ?_, ?_, ?_⟩
  · exact ((hlookup ⟨true, false⟩ 0xfffff).2 0x8000 false).2 ⟨_, rfl, by decide⟩
  · rw [Option.eq_none_iff_forall_ne_some]
    rintro ⟨frame, writable⟩ ha
    obtain ⟨m, hm, hw, -⟩ := ((hlookup ⟨false, true⟩ 0xfffff).2 frame writable).1 ha
    cases hm
    exact absurd (hw rfl) (by decide)
  · exact fun hmem => absurd ((hlive 6).2.1 hmem) (by decide)

end PagedMachine
