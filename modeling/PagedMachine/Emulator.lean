import PagedMachine.Compression
import PagedMachine.Config
import PagedMachine.Snapshot
import PagedMachine.Step

/-!
# Emulators

A machine built from a configuration, with loading and snapshots. Files are given by a function
from paths to contents, compressed ones by a codec besides.
-/

set_option autoImplicit false

namespace PagedMachine

/-- The contents of the files that exist. -/
abbrev Files := String → Option ByteArray

/-- The bytes of a file, inflated if it is compressed. -/
def Files.inflated (codec : Codec) (files : Files) (path : String) : Except LoadError ByteArray :=
  match files path with
  | some data => Compression.inflate codec data
  | none => .error (.io path)

/-- A machine as it is built: zeroed memory, empty caches, nothing loaded. -/
def Machine.make (ram : Ram) (fastPath : Bool) (tlbCapacity : Nat) (bridge : Bridge) : Machine :=
  { memory := { ram, tlb := .ofCapacity tlbCapacity, path := .make fastPath }, bridge }

/-- Applies a change to the memory's bytes from outside. -/
@[inline] def Machine.onRam {α : Type} (fn : Ram → α × Ram) (m : Machine) : α × Machine :=
  match m with
  | { regs, memory := { ram, tlb, path }, timer, bridge, ipc, ir, blockBytes, journal } =>
    match fn ram with
    | (v, ram) =>
      (v, { regs, memory := { ram, tlb, path }, timer, bridge, ipc, ir, blockBytes, journal })

namespace Snapshot

/-- Reads the file of a snapshot, which is always compressed. -/
def ofFileBytes? (codec : Codec) (file : ByteArray) : Except LoadError Snapshot := do
  let data ← (codec.decompress file).mapError .decompress
  (decode? data).mapError .badSnapshot

/-- The file of a snapshot. -/
def toFileBytes (codec : Codec) (s : Snapshot) : Except LoadError ByteArray :=
  (codec.compress s.encode).mapError .compress

end Snapshot

structure Emulator where
  machine : Machine
  config : Config

namespace Emulator

/-- An emulator as configured, if the configuration is valid. -/
def ofConfig? (config : Config) (console : Console) : Except LoadError Emulator := do
  config.validate
  let bridge : Bridge := { console, escape := config.escape }
  return { machine := .make (.zeroed config.memoryBytes) config.fastPath config.tlbCapacity bridge,
           config }

/-! ## Loading -/

/-- Applies a change to the machine's memory. -/
@[inline] def onRam {α : Type} (fn : Ram → α × Ram) (e : Emulator) : α × Emulator :=
  match e with
  | { machine, config } =>
    match machine.onRam fn with
    | (v, machine) => (v, { machine, config })

/-- Loads the configured filesystem, if there is one. -/
def loadFilesystem (codec : Codec) (files : Files) (e : Emulator) :
    Except LoadError Unit × Emulator :=
  match e.config.filesystem with
  | none => (.ok (), e)
  | some path =>
    match files.inflated codec path with
    | .error err => (.error err, e)
    | .ok data => e.onRam (Image.loadFilesystem · data)

/-- Loads an executable and starts the machine over at its entry. -/
def loadExecutable (image : ByteArray) (e : Emulator) : Except LoadError Image.Entry × Emulator :=
  match e.onRam (Image.loadExecutable · image) with
  | (.error err, e) => (.error err, e)
  | (.ok entry, { machine, config }) =>
    (.ok entry, { machine := machine.reset entry.pc entry.sp, config })

/-- Loads the configured filesystem and an executable. -/
def load (codec : Codec) (files : Files) (image : ByteArray) (e : Emulator) :
    Except LoadError Image.Entry × Emulator :=
  match e.loadFilesystem codec files with
  | (.error err, e) => (.error err, e)
  | (.ok _, e) => e.loadExecutable image

/-- As `load`, with an executable from a file. -/
def loadFile (codec : Codec) (files : Files) (path : String) (e : Emulator) :
    Except LoadError Image.Entry × Emulator :=
  match files.inflated codec path with
  | .error err => (.error err, e)
  | .ok image => e.load codec files image

/-! ## Snapshots -/

def snapshot (e : Emulator) : Snapshot := .ofMachine e.machine

/-- Goes on from a snapshot of the current version; the caches start empty. -/
def restore (snapshot : Snapshot) (e : Emulator) : Except LoadError Unit × Emulator :=
  if snapshot.version ≠ Snapshot.currentVersion then
    (.error (.snapshotVersion snapshot.version), e)
  else
    let m := e.machine.restore snapshot.regs snapshot.timer
    let machine := { m with
      memory := { m.memory with ram := snapshot.ram }
      bridge := { m.bridge with latch := snapshot.latch } }
    (.ok (), { e with machine })

/-- Goes on from the snapshot in a file. -/
def restoreFile (codec : Codec) (file : ByteArray) (e : Emulator) :
    Except LoadError Unit × Emulator :=
  match Snapshot.ofFileBytes? codec file with
  | .error err => (.error err, e)
  | .ok s => e.restore s

/-! ## Statistics -/

structure Stats where
  cycles : UInt64
  hits : Nat
  misses : Nat
  flushes : Nat
  blockBytes : Nat
deriving DecidableEq

def stats (e : Emulator) : Stats :=
  { cycles := e.machine.regs.cycle, hits := e.machine.memory.tlb.hits,
    misses := e.machine.memory.tlb.misses, flushes := e.machine.memory.tlb.flushes,
    blockBytes := e.machine.blockBytes }

end Emulator

end PagedMachine
