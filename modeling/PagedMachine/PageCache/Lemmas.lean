import PagedMachine.PageCache

/-!
# The page caches as maps

What each operation does to the pages that are remembered for the streams. A cache that was cleared
remembers none, and one that was filled the page it was filled with.
-/

set_option autoImplicit false

namespace PagedMachine

namespace PageCache

/-- The page remembered for a stream after another was filled in. -/
theorem line_fill (c : PageCache) (slot other : Slot) (right : Right) (page frame : UInt32)
    (generation : UInt64) (write : Bool) :
    (c.fill slot right page frame generation).line other write =
      if slot = other ∧ right.write = write ∧ slot ≠ .data then
        some ⟨right, page, frame, generation⟩
      else c.line other write := by
  obtain ⟨user, w⟩ := right
  cases slot <;> cases other <;> cases w <;> cases write <;> rfl

@[simp] theorem line_clear (c : PageCache) (slot : Slot) (write : Bool) :
    c.clear.line slot write = none := by
  cases slot <;> cases write <;> rfl

theorem find?_eq_some_iff {c : PageCache} {slot : Slot} {right : Right} {page frame : UInt32}
    {generation : UInt64} :
    c.find? slot right page generation = some frame ↔
      c.line slot right.write = some ⟨right, page, frame, generation⟩ := by
  simp only [find?]
  split
  · rename_i e he
    obtain ⟨r, p, f, g⟩ := e
    grind
  · simp_all

end PageCache

namespace AccessPath

/-- The page remembered for a stream; a path without a cache remembers none. -/
def line (path : AccessPath) (slot : Slot) (write : Bool) : Option CachedPage :=
  match path with
  | cached c => c.line slot write
  | uncached => none

/-- The path after it answered once more. -/
def answered : AccessPath → AccessPath
  | cached c => cached { c with hits := c.hits + 1 }
  | uncached => uncached

/-- A path answers for a page if that is the one it remembers, with this right and generation. -/
theorem probe_of_line {path : AccessPath} {slot : Slot} {right : Right} {page frame : UInt32}
    {generation : UInt64}
    (h : path.line slot right.write = some ⟨right, page, frame, generation⟩) :
    path.probe slot right page generation = (some frame, path.answered) := by
  cases path with
  | cached c => simp only [probe, PageCache.find?_eq_some_iff.2 h, answered]
  | uncached => cases h

theorem probe_of_line_ne {path : AccessPath} {slot : Slot} {right : Right} {page : UInt32}
    {generation : UInt64}
    (h : ∀ frame, path.line slot right.write ≠ some ⟨right, page, frame, generation⟩) :
    path.probe slot right page generation = (none, path) := by
  cases path with
  | cached c =>
    have hn : c.find? slot right page generation = none := by
      refine Option.eq_none_iff_forall_ne_some.2 fun frame hf => ?_
      exact h frame (PageCache.find?_eq_some_iff.1 hf)
    simp only [probe, hn]
  | uncached => rfl

theorem line_fill (path : AccessPath) (slot other : Slot) (right : Right) (page frame : UInt32)
    (generation : UInt64) (write : Bool) :
    (path.fill slot right page frame generation).line other write =
      if path ≠ uncached ∧ slot = other ∧ right.write = write ∧ slot ≠ .data then
        some ⟨right, page, frame, generation⟩
      else path.line other write := by
  cases path with
  | cached c => simp [fill, line, PageCache.line_fill]
  | uncached => simp [fill, line]

/-- A page remembered after another was filled in is that one or was there before. -/
theorem line_of_line_fill {path : AccessPath} {slot other : Slot} {right : Right}
    {page frame : UInt32} {generation : UInt64} {write : Bool} {e : CachedPage}
    (h : (path.fill slot right page frame generation).line other write = some e) :
    e = ⟨right, page, frame, generation⟩ ∨ path.line other write = some e := by
  rw [line_fill] at h
  split at h
  · exact .inl (Option.some.inj h).symm
  · exact .inr h

@[simp] theorem line_data (path : AccessPath) (write : Bool) : path.line .data write = none := by
  cases path <;> cases write <;> rfl

/-- What a stream remembers after its page was filled in is that page. -/
theorem eq_of_line_fill_self {path : AccessPath} {slot : Slot} {right : Right} {page frame : UInt32}
    {generation : UInt64} {e : CachedPage}
    (h : (path.fill slot right page frame generation).line slot right.write = some e) :
    e = ⟨right, page, frame, generation⟩ := by
  rw [line_fill] at h
  split at h
  · exact (Option.some.inj h).symm
  · rename_i hnone
    cases path with
    | uncached => cases h
    | cached c =>
      obtain rfl : slot = .data := by simpa using hnone
      rw [line_data] at h
      cases h

@[simp] theorem line_invalidate (path : AccessPath) (slot : Slot) (write : Bool) :
    path.invalidate.line slot write = none := by
  cases path <;> simp [invalidate, line]

@[simp] theorem line_answered (path : AccessPath) (slot : Slot) (write : Bool) :
    path.answered.line slot write = path.line slot write := by
  cases path with
  | cached c => cases slot <;> cases write <;> rfl
  | uncached => rfl

theorem hits_answered {path : AccessPath} {slot : Slot} {write : Bool} {e : CachedPage}
    (h : path.line slot write = some e) : path.answered.hits = path.hits + 1 := by
  cases path with
  | cached c => rfl
  | uncached => cases h

@[simp] theorem hits_fill (path : AccessPath) (slot : Slot) (right : Right) (page frame : UInt32)
    (generation : UInt64) : (path.fill slot right page frame generation).hits = path.hits := by
  obtain ⟨user, w⟩ := right
  cases path <;> cases slot <;> cases w <;> rfl

@[simp] theorem probe_uncached (slot : Slot) (right : Right) (page : UInt32)
    (generation : UInt64) : uncached.probe slot right page generation = (none, uncached) := rfl

@[simp] theorem hits_invalidate (path : AccessPath) : path.invalidate.hits = path.hits := by
  cases path <;> rfl

end AccessPath

end PagedMachine
