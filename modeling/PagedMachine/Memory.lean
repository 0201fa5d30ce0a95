import PagedMachine.PageCache

/-!
# Memory behind its caches

Physical memory with the lookaside buffer and the page caches in front of the page tables.
`Memory.resolve` asks the page cache, then the buffer, and walks the tables last.
-/

set_option autoImplicit false

namespace PagedMachine

structure Memory where
  ram : Ram
  tlb : Tlb
  path : AccessPath
deriving Inhabited

namespace Memory

/-- Applies a change to the bytes. -/
@[inline] def mapRam (fn : Ram → Ram) (m : Memory) : Memory :=
  match m with
  | { ram, tlb, path } => { ram := fn ram, tlb, path }

/-- Forgets all cached mappings. -/
def flush (m : Memory) : Memory :=
  match m with
  | { ram, tlb, path } => { ram, tlb := tlb.flush, path := path.invalidate }

/-- Drops the page caches and keeps the lookaside buffer. -/
def invalidatePath (m : Memory) : Memory :=
  match m with
  | { ram, tlb, path } => { ram, tlb, path := path.invalidate }

/-- The physical address of `vaddr`. -/
def resolve (space : AddressSpace) (slot : Slot) (vaddr : UInt32) (access : Access)
    (user : Bool) : EStateM Fault Memory UInt32
  | { ram, tlb, path } =>
    let right : Right := { user, write := access.writes }
    let page := pageNumber vaddr
    match path.probe slot right page tlb.generation with
    | (some frame, path) => .ok (frame ||| pageOffset vaddr) { ram, tlb, path }
    | (none, path) =>
      match tlb.lookup right page with
      | (some mapping, tlb) =>
        let path := path.fill slot right page mapping.frame tlb.generation
        .ok (mapping.frame ||| pageOffset vaddr) { ram, tlb, path }
      | (none, tlb) =>
        match walk space vaddr access user ram with
        | .error fault ram => .error fault { ram, tlb, path }
        | .ok mapping ram =>
          let tlb := tlb.insert page mapping
          let path := path.fill slot right page mapping.frame tlb.generation
          .ok (mapping.frame ||| pageOffset vaddr) { ram, tlb, path }

/-- Resolves every page of the `len` bytes from `vaddr` on, so that using them afterwards does
not fault. -/
def resolveRange (space : AddressSpace) (vaddr : UInt32) (len : Nat) (access : Access)
    (user : Bool) : EStateM Fault Memory Unit :=
  if len = 0 then
    pure ()
  else do
    let _ ← resolve space .data vaddr access user
    resolveRange space (vaddr + pageLeft vaddr) (len - (pageLeft vaddr).toNat) access user
termination_by len
decreasing_by
  have := pageLeft_pos vaddr
  omega

end Memory

end PagedMachine
