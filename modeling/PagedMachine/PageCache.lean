import PagedMachine.Tlb

/-!
# Page caches

Fetches and stack accesses tend to stay on one page. A `PageCache` remembers the last page of each
of these streams, for reads and for writes, under the generation of the buffer it came from. An
`AccessPath` uses such a cache or none; the machine behaves the same either way.
-/

set_option autoImplicit false

namespace PagedMachine

/-- The stream an access belongs to. -/
inductive Slot
  /-- Fetches and data relative to the program counter. -/
  | code
  /-- Data relative to the stack pointer, pushes and pops. -/
  | stack
  /-- All else. -/
  | data
deriving DecidableEq, Inhabited

/-- A remembered page. -/
structure CachedPage where
  right : Right
  page : UInt32
  frame : UInt32
  generation : UInt64
deriving DecidableEq

structure PageCache where
  codeRead : Option CachedPage := none
  codeWrite : Option CachedPage := none
  stackRead : Option CachedPage := none
  stackWrite : Option CachedPage := none
  /-- Accesses answered from here. -/
  hits : Nat := 0
deriving DecidableEq, Inhabited

namespace PageCache

/-- The page remembered for a stream; the data stream has none. -/
def line (c : PageCache) (slot : Slot) (write : Bool) : Option CachedPage :=
  match slot, write with
  | .code, false => c.codeRead
  | .code, true => c.codeWrite
  | .stack, false => c.stackRead
  | .stack, true => c.stackWrite
  | .data, _ => none

/-- The frame of `page` if it is the one remembered for this right and still current. -/
def find? (c : PageCache) (slot : Slot) (right : Right) (page : UInt32) (generation : UInt64) :
    Option UInt32 :=
  match c.line slot right.write with
  | some e =>
    if e.page = page ∧ e.right = right ∧ e.generation = generation then some e.frame else none
  | none => none

def fill (c : PageCache) (slot : Slot) (right : Right) (page frame : UInt32)
    (generation : UInt64) : PageCache :=
  let e := some ⟨right, page, frame, generation⟩
  match slot, right.write with
  | .code, false => { c with codeRead := e }
  | .code, true => { c with codeWrite := e }
  | .stack, false => { c with stackRead := e }
  | .stack, true => { c with stackWrite := e }
  | .data, _ => c

/-- Forgets the pages and keeps the count. -/
def clear (c : PageCache) : PageCache := { hits := c.hits }

end PageCache

inductive AccessPath
  | cached (cache : PageCache)
  /-- Every access goes to the lookaside buffer. -/
  | uncached
deriving DecidableEq, Inhabited

namespace AccessPath

/-- A path with an empty cache, or without one. -/
def make (fast : Bool) : AccessPath := if fast then cached {} else uncached

def name : AccessPath → String
  | cached _ => "fast"
  | uncached => "safe"

/-- Accesses answered from the cache. -/
def hits : AccessPath → Nat
  | cached c => c.hits
  | uncached => 0

/-- The cached frame of `page`, counting the hit. -/
def probe (path : AccessPath) (slot : Slot) (right : Right) (page : UInt32)
    (generation : UInt64) : Option UInt32 × AccessPath :=
  match path with
  | cached c =>
    match c.find? slot right page generation with
    | some frame => (some frame, cached { c with hits := c.hits + 1 })
    | none => (none, cached c)
  | uncached => (none, uncached)

def fill (path : AccessPath) (slot : Slot) (right : Right) (page frame : UInt32)
    (generation : UInt64) : AccessPath :=
  match path with
  | cached c => cached (c.fill slot right page frame generation)
  | uncached => uncached

def invalidate : AccessPath → AccessPath
  | cached c => cached c.clear
  | uncached => uncached

end AccessPath

end PagedMachine
