import PagedMachine.Paging
import Std.Data.HashMap

/-!
# Lookaside buffer

A bounded map from virtual pages to the mappings of their last walk. Putting a new page into a full
buffer empties it first. Every flush and every overwrite begins a new epoch, so a copy of an entry is
current as long as the generation, which is the epoch in 64 bits, is the one it was made under.
-/

set_option autoImplicit false

namespace PagedMachine

/-- What an access needs of a page: user mode or kernel, and a write or a read. -/
structure Right where
  user : Bool
  write : Bool
deriving DecidableEq, Inhabited

/-- The kernel may read every mapped page; writes and user mode need their flags. -/
@[inline] def Mapping.grants (m : Mapping) (right : Right) : Bool :=
  (!right.write || m.writable) && (!right.user || m.user)

structure Tlb where
  entries : Std.HashMap UInt32 Mapping := ∅
  capacity : Nat
  /-- How often mappings were dropped or replaced. -/
  epoch : Nat := 0
  hits : Nat := 0
  misses : Nat := 0
  flushes : Nat := 0

namespace Tlb

/-- The number of pages of the address space. -/
def pages : Nat := 0x100000

def defaultCapacity : Nat := 4096

/-- An empty buffer for `capacity` pages, at least one and at most all. -/
def ofCapacity (capacity : Nat) : Tlb :=
  { capacity := max 1 (min capacity pages) }

instance : Inhabited Tlb := ⟨ofCapacity defaultCapacity⟩

/-- What copies of entries are dated with: the epoch, as far as a word holds it. -/
@[inline] def generation (t : Tlb) : UInt64 := t.epoch.toUInt64

/-- The number of pages held. -/
def live (t : Tlb) : Nat := t.entries.size

/-- The mapping of `page` if it grants `right`. -/
def find? (t : Tlb) (right : Right) (page : UInt32) : Option Mapping :=
  t.entries[page]?.filter (·.grants right)

/-- As `find?`, and counts the hit or miss. -/
def lookup (t : Tlb) (right : Right) (page : UInt32) : Option Mapping × Tlb :=
  match t.find? right page with
  | some m => (some m, { t with hits := t.hits + 1 })
  | none => (none, { t with misses := t.misses + 1 })

def flush (t : Tlb) : Tlb :=
  { t with entries := ∅, epoch := t.epoch + 1, flushes := t.flushes + 1 }

/-- Sets the mapping of `page`. -/
def insert (t : Tlb) (page : UInt32) (m : Mapping) : Tlb :=
  let m := { m with frame := pageBase m.frame }
  if t.entries.contains page then
    match t with
    | { entries, capacity, epoch, hits, misses, flushes } =>
      { entries := entries.insert page m, capacity, epoch := epoch + 1, hits, misses, flushes }
  else
    match if t.live ≥ t.capacity then t.flush else t with
    | { entries, capacity, epoch, hits, misses, flushes } =>
      { entries := entries.insert page m, capacity, epoch, hits, misses, flushes }

end Tlb

end PagedMachine
