import PagedMachine.LoadError
import PagedMachine.Machine

/-!
# Snapshots

Registers, timer, latched key and memory, as a byte string: words little-endian with their full
width, a byte for a truth value, a byte before a value that may be missing, and the length of the
memory before its bytes. What follows the memory is not read.
-/

set_option autoImplicit false

namespace PagedMachine

structure Snapshot where
  version : UInt32
  regs : Registers
  timer : Timer
  latch : Option UInt8
  ram : Ram
deriving Inhabited

namespace Snapshot

/-- The version that can be restored. -/
def currentVersion : UInt32 := 1

/-! ## Encoding -/

def pushBool (out : ByteArray) (v : Bool) : ByteArray := out.push (if v then 1 else 0)

def pushOption {α : Type} (put : ByteArray → α → ByteArray) (out : ByteArray) :
    Option α → ByteArray
  | none => out.push 0
  | some v => put (out.push 1) v

def pushRegisters (out : ByteArray) (r : Registers) : ByteArray :=
  let out := [r.a, r.b, r.c].foldl Bytes.push32 out
  let out := [r.f.bits, r.g.bits].foldl Bytes.push64 out
  let out := [r.sp, r.pc].foldl Bytes.push32 out
  let out := [r.user, r.iena].foldl pushBool out
  let out := [r.ipend, r.trap, r.ivec, r.vadr].foldl Bytes.push32 out
  let out := pushOption Bytes.push32 (pushBool out r.space.paging) r.space.directory
  let out := [r.usp, r.ssp].foldl Bytes.push32 out
  Bytes.push64 out r.cycle

/-- All of the encoding before the bytes of the memory. -/
def head (s : Snapshot) : ByteArray :=
  let out := pushRegisters (Bytes.push32 ByteArray.empty s.version) s.regs
  let out := [s.timer.count, s.timer.timeout].foldl Bytes.push32 out
  let out := pushOption ByteArray.push out s.latch
  Bytes.push64 out s.ram.bytes.size.toUInt64

def encode (s : Snapshot) : ByteArray := s.head ++ s.ram.bytes

/-! ## Decoding -/

/-- Reads from a byte string at a position that moves on. -/
abbrev Reader := ReaderT ByteArray (StateT Nat (Except DecodeError))

namespace Reader

/-- Moves past `n` bytes and gives the position before them. -/
def skip (n : Nat) : Reader Nat := do
  let pos ← get
  if pos + n ≤ (← read).size then
    set (pos + n)
    return pos
  else
    throw .unexpectedEnd

def u8 : Reader UInt8 := do
  return Bytes.at0 (← read) (← skip 1)

def u32 : Reader UInt32 := do
  return Bytes.get32 (← read) (← skip 4)

def u64 : Reader UInt64 := do
  return Bytes.get64 (← read) (← skip 8)

def double : Reader Double := do
  return ⟨← u64⟩

def bool : Reader Bool := do
  match ← u8 with
  | 0 => return false
  | 1 => return true
  | n => throw (.badBool n)

def option {α : Type} (value : Reader α) : Reader (Option α) := do
  match ← u8 with
  | 0 => return none
  | 1 => return some (← value)
  | n => throw (.badTag n)

def registers : Reader Registers := do
  let a ← u32
  let b ← u32
  let c ← u32
  let f ← double
  let g ← double
  let sp ← u32
  let pc ← u32
  let user ← bool
  let iena ← bool
  let ipend ← u32
  let trap ← u32
  let ivec ← u32
  let vadr ← u32
  let paging ← bool
  let directory ← option u32
  let usp ← u32
  let ssp ← u32
  let cycle ← u64
  return { a, b, c, f, g, sp, pc, user, iena, ipend, trap, ivec, vadr,
           space := { paging, directory }, usp, ssp, cycle }

def ram : Reader Ram := do
  let len ← u64
  let start ← skip len.toNat
  return ⟨(← read).extract start (start + len.toNat)⟩

def snapshot : Reader Snapshot := do
  let version ← u32
  let regs ← registers
  let count ← u32
  let timeout ← u32
  let latch ← option u8
  return { version, regs, timer := { count, timeout }, latch, ram := ← ram }

end Reader

def decode? (data : ByteArray) : Except DecodeError Snapshot :=
  (·.1) <$> (Reader.snapshot.run data).run 0

/-! ## Machines -/

def ofMachine (m : Machine) : Snapshot :=
  { version := currentVersion, regs := m.regs, timer := m.timer, latch := m.bridge.latch,
    ram := m.memory.ram }

end Snapshot

end PagedMachine
