import PagedMachine.Compression.Stored
import PagedMachine.Emulator
import PagedMachine.Machine.Lemmas
import PagedMachine.Memory.Lemmas

/-!
# Loading

An executable fills two windows at the bottom of memory, one with its payload and one with zeros
(`Image.placed_of_windows`), a filesystem image fills one at the top (`Image.loadFilesystem_of_room`).
The stack starts where the top window begins, and an executable is only loaded if it ends there at the
latest (`Image.loadExecutable_of_fits`), so what is loaded last spares what is loaded first
(`Emulator.load_of_room`). What is refused leaves the machine as it was, except for a filesystem that
was loaded before an executable was refused (`Emulator.load_of_no_room`).
-/

set_option autoImplicit false

namespace PagedMachine

/-! ## Windows -/

namespace Ram

/-- The `len` bytes from `start` on are those of `value`, and the others are as they were. -/
structure Window (start len : Nat) (value : Nat → UInt8) (r r' : Ram) : Prop where
  size : r'.bytes.size = r.bytes.size
  inside : ∀ i < len, r'.byte (start + i) = value i
  outside : ∀ i, i < start ∨ start + len ≤ i → r'.byte i = r.byte i

variable {r : Ram} {addr : UInt32}

theorem window_blit {data : ByteArray} (h : r.holds addr data.size = true) :
    Window addr.toNat data.size (Bytes.at0 data) r (r.blit addr data) := by
  refine ⟨size_blit .., fun i hi => ?_, fun i hi => ?_⟩
  · rw [byte_blit h, if_pos (by omega), Nat.add_sub_cancel_left]
  · rw [byte_blit h, if_neg (by omega)]

theorem window_fill {len : Nat} (h : r.holds addr len = true) (v : UInt8) :
    Window addr.toNat len (fun _ => v) r (r.fill addr len v) := by
  refine ⟨size_fill .., fun i hi => ?_, fun i hi => ?_⟩
  · rw [byte_fill h, if_pos (by omega)]
  · rw [byte_fill h, if_neg (by omega)]

theorem size_toNat_le (r : Ram) : r.size.toNat ≤ r.bytes.size := by
  simp only [size, UInt32.toNat_ofNat']
  exact Nat.mod_le ..

theorem size_toNat (h : r.bytes.size < UInt32.size) : r.size.toNat = r.bytes.size :=
  UInt32.toNat_ofNat_of_lt' h

end Ram

/-! ## Executables -/

namespace Image

/-- The bytes of code and data that follow the header. -/
def payloadSize (image : ByteArray) : Nat := image.size - headerSize

/-- The zeroed bytes that the header asks for. -/
def bssSize (image : ByteArray) : Nat := (Bytes.get32 image 4).toNat

/-- An executable that is one, and ends below `limit` when it is loaded. -/
structure Fits (image : ByteArray) (limit : UInt32) : Prop where
  header : headerSize ≤ image.size
  magic : Bytes.get32 image 0 = Image.magic
  room : payloadSize image + bssSize image ≤ limit.toNat

/-- Why an executable that does not fit is refused: the first reason that applies. -/
def refusal (image : ByteArray) (limit : UInt32) : LoadError :=
  if image.size < headerSize then .truncated image.size
  else if Bytes.get32 image 0 ≠ Image.magic then .badMagic (Bytes.get32 image 0)
  else .memoryExhausted (payloadSize image + bssSize image) limit

/-- The payload is at the bottom of memory and zeros follow it; the rest is as it was. -/
structure Placed (image : ByteArray) (r r' : Ram) : Prop where
  size : r'.bytes.size = r.bytes.size
  payload : ∀ i < payloadSize image, r'.byte i = Bytes.at0 image (headerSize + i)
  bss : ∀ i, payloadSize image ≤ i → i < payloadSize image + bssSize image → r'.byte i = 0
  rest : ∀ i, payloadSize image + bssSize image ≤ i → r'.byte i = r.byte i

section
variable {image data : ByteArray} {r r₁ r' : Ram} {limit : UInt32}

theorem stackTop_le (r : Ram) : (stackTop r.size).toNat ≤ r.bytes.size := by
  unfold stackTop
  split
  · rename_i h
    rw [UInt32.toNat_sub_of_le _ _ (UInt32.le_of_lt h)]
    exact Nat.le_trans (Nat.sub_le ..) r.size_toNat_le
  · exact r.size_toNat_le

/-- The stack starts below the filesystem's window, or at the end of memory that is too small for one. -/
theorem stackTop_toNat (h : r.bytes.size < UInt32.size) :
    (stackTop r.size).toNat =
      if windowSize.toNat < r.bytes.size then r.bytes.size - windowSize.toNat else r.bytes.size := by
  have hsize := Ram.size_toNat h
  unfold stackTop
  by_cases hw : windowSize < r.size
  · rw [if_pos hw, if_pos (hsize ▸ UInt32.lt_iff_toNat_lt.1 hw),
      UInt32.toNat_sub_of_le _ _ (UInt32.le_of_lt hw), hsize]
  · rw [if_neg hw, if_neg fun hlt => hw (UInt32.lt_iff_toNat_lt.2 (hsize ▸ hlt)), hsize]

theorem size_payload (image : ByteArray) :
    (image.extract headerSize image.size).size = payloadSize image := by
  rw [ByteArray.size_extract, Nat.min_self]
  rfl

theorem at0_payload {i : Nat} (h : i < payloadSize image) :
    Bytes.at0 (image.extract headerSize image.size) i = Bytes.at0 image (headerSize + i) := by
  unfold payloadSize at h
  rw [Bytes.at0_extract, if_pos (by omega)]

/-- Zeros that are put behind the payload do not reach it. -/
theorem placed_of_windows
    (hpayload : Ram.Window 0 (payloadSize image) (Bytes.at0 (image.extract headerSize image.size)) r r₁)
    (hbss : Ram.Window (payloadSize image) (bssSize image) (fun _ => 0) r₁ r') :
    Placed image r r' := by
  refine ⟨hbss.size.trans hpayload.size, fun i hi => ?_, fun i hle hlt => ?_, fun i hi => ?_⟩
  · have hinside := hpayload.inside i hi
    rw [Nat.zero_add] at hinside
    rw [hbss.outside i (.inl hi), hinside, at0_payload hi]
  · obtain ⟨k, rfl⟩ := Nat.exists_eq_add_of_le hle
    exact hbss.inside k (by omega)
  · rw [hbss.outside i (.inr hi), hpayload.outside i (.inr (by omega))]

theorem loadExecutable_of_fits (h : Fits image (stackTop r.size)) :
    ∃ r', loadExecutable r image = (.ok ⟨Bytes.get32 image 8, stackTop r.size⟩, r') ∧
      Placed image r r' := by
  obtain ⟨hheader, hmagic, hroom⟩ := h
  have hlimit := (stackTop r.size).toNat_lt
  have hsize := stackTop_le r
  have hpayload : r.holds 0 (image.extract headerSize image.size).size = true := by
    rw [Ram.holds_iff, size_payload, UInt32.toNat_zero]
    omega
  have hend : (payloadSize image).toUInt32.toNat = payloadSize image :=
    UInt32.toNat_ofNat_of_lt' (Nat.lt_of_le_of_lt (by omega) hlimit)
  have hbss : (r.blit 0 (image.extract headerSize image.size)).holds (payloadSize image).toUInt32
      (bssSize image) = true := by
    rw [Ram.holds_iff, Ram.size_blit, hend]
    omega
  have hfirst := Ram.window_blit hpayload
  have hsecond := Ram.window_fill hbss 0
  rw [size_payload] at hfirst
  rw [hend] at hsecond
  refine ⟨_, ?_, placed_of_windows hfirst hsecond⟩
  have hparsed : Header.ofBytes? image = .ok ⟨Bytes.get32 image 0, Bytes.get32 image 4,
      Bytes.get32 image 8, Bytes.get32 image 12⟩ := by
    unfold Header.ofBytes?
    rw [if_neg (Nat.not_lt.2 hheader), if_neg (not_not_intro hmagic)]
  unfold loadExecutable
  rw [hparsed]
  dsimp only
  rw [hpayload, size_payload]
  exact if_neg (by simpa [bssSize] using hroom)

theorem loadExecutable_of_not_fits (h : ¬Fits image (stackTop r.size)) :
    loadExecutable r image = (.error (refusal image (stackTop r.size)), r) := by
  unfold loadExecutable Header.ofBytes? refusal
  by_cases hheader : image.size < headerSize
  · rw [if_pos hheader, if_pos hheader]
  by_cases hmagic : Bytes.get32 image 0 = Image.magic
  · rw [if_neg hheader, if_neg hheader, if_neg (not_not_intro hmagic), if_neg (not_not_intro hmagic)]
    have hroom : (stackTop r.size).toNat < payloadSize image + bssSize image :=
      Nat.lt_of_not_le fun hroom => h ⟨Nat.le_of_not_lt hheader, hmagic, hroom⟩
    dsimp only
    rw [size_payload]
    exact if_pos (by simpa [bssSize] using .inl hroom)
  · rw [if_neg hheader, if_neg hheader, if_pos hmagic, if_pos hmagic]

/-! ## Filesystem images -/

theorem loadFilesystem_of_room (hwindow : windowSize < r.size) (hdata : data.size ≤ windowSize.toNat) :
    ∃ r', loadFilesystem r data = (.ok (), r') ∧
      Ram.Window (stackTop r.size).toNat data.size (Bytes.at0 data) r r' := by
  have hbase : stackTop r.size = r.size - windowSize := if_pos hwindow
  have hsize := r.size_toNat_le
  have hlt := UInt32.lt_iff_toNat_lt.1 hwindow
  have hholds : r.holds (r.size - windowSize) data.size = true := by
    rw [Ram.holds_iff, UInt32.toNat_sub_of_le _ _ (UInt32.le_of_lt hwindow)]
    omega
  rw [hbase]
  refine ⟨r.blit (r.size - windowSize) data, ?_, Ram.window_blit hholds⟩
  unfold loadFilesystem
  rw [if_neg (UInt32.not_le.2 hwindow), hholds]
  exact if_neg (by simpa using hdata)

theorem loadFilesystem_of_no_room (h : ¬(windowSize < r.size ∧ data.size ≤ windowSize.toNat)) :
    ∃ err, loadFilesystem r data = (.error err, r) := by
  unfold loadFilesystem
  split
  · exact ⟨_, rfl⟩
  · rename_i hwindow
    have hdata : windowSize.toNat < data.size :=
      Nat.lt_of_not_le fun hdata => h ⟨UInt32.not_le.1 hwindow, hdata⟩
    exact ⟨_, if_pos (by simp [hdata])⟩

end

end Image

/-! ## Machines that start over -/

/-- The processor as it is after a reset: all is zero but the program counter and the stack pointer, and
nothing is cached. -/
structure Machine.Started (pc sp : UInt32) (m : Machine) : Prop where
  regs : m.regs = { pc, sp }
  timer : m.timer = {}
  ipc : m.ipc = pc
  ir : m.ir = ⟨0⟩
  blockBytes : m.blockBytes = 0
  buffer : ∀ right page, m.memory.tlb.find? right page = none
  lines : ∀ slot write, m.memory.path.line slot write = none

theorem Machine.started_reset (pc sp : UInt32) (m : Machine) : (m.reset pc sp).Started pc sp where
  regs := rfl
  timer := rfl
  ipc := rfl
  ir := rfl
  blockBytes := rfl
  buffer := Tlb.find?_flush m.memory.tlb
  lines := AccessPath.line_invalidate m.memory.path

/-! ## Loading both -/

namespace Emulator

/-- The bytes of memory. -/
abbrev ram (e : Emulator) : Ram := e.machine.memory.ram

/-- Where the filesystem's window begins. -/
def windowStart (e : Emulator) : Nat := e.ram.bytes.size - Image.windowSize.toNat

/-- There is a window, the filesystem image fits in it and the executable fits below it. -/
structure HasRoom (data image : ByteArray) (e : Emulator) : Prop where
  window : Image.windowSize.toNat < e.ram.bytes.size
  filesystem : data.size ≤ Image.windowSize.toNat
  executable : Image.Fits image (Image.stackTop e.ram.size)

/-- A filesystem image and an executable were loaded: each is in its place, they are apart, and the
machine starts at the entry with its stack below the window. -/
structure Loaded (data image : ByteArray) (entry : Image.Entry) (e e' : Emulator) : Prop where
  size : e'.ram.bytes.size = e.ram.bytes.size
  filesystem : ∀ i < data.size, e'.ram.byte (e.windowStart + i) = Bytes.at0 data i
  payload : ∀ i < Image.payloadSize image, e'.ram.byte i = Bytes.at0 image (Image.headerSize + i)
  bss : ∀ i, Image.payloadSize image ≤ i → i < Image.payloadSize image + Image.bssSize image →
    e'.ram.byte i = 0
  rest : ∀ i, Image.payloadSize image + Image.bssSize image ≤ i →
    i < e.windowStart ∨ e.windowStart + data.size ≤ i → e'.ram.byte i = e.ram.byte i
  apart : Image.payloadSize image + Image.bssSize image ≤ e.windowStart
  pc : entry.pc = Bytes.get32 image 8
  sp : entry.sp.toNat = e.windowStart
  started : e'.machine.Started entry.pc entry.sp
  bridge : e'.machine.bridge = e.machine.bridge
  config : e'.config = e.config

/-- Nothing changed but, where there is a filesystem's window, bytes in it. -/
def Spared (e e' : Emulator) : Prop :=
  ∃ r : Ram, e' = { e with machine := e.machine.withRam r } ∧ r.bytes.size = e.ram.bytes.size ∧
    ∀ i, r.byte i ≠ e.ram.byte i →
      Image.windowSize.toNat < e.ram.bytes.size ∧ e.windowStart ≤ i ∧ i < e.ram.bytes.size

variable {codec : Codec} {files : Files} {path : String} {data image : ByteArray} {e : Emulator}

theorem loadFilesystem_eq (hpath : e.config.filesystem = some path)
    (hdata : files.inflated codec path = .ok data) :
    e.loadFilesystem codec files = ((Image.loadFilesystem e.ram data).1,
      { e with machine := e.machine.withRam (Image.loadFilesystem e.ram data).2 }) := by
  unfold loadFilesystem
  rw [hpath]
  dsimp only
  rw [hdata]
  rfl

theorem loadExecutable_of_ok {entry : Image.Entry} {r : Ram}
    (h : Image.loadExecutable e.ram image = (.ok entry, r)) :
    e.loadExecutable image =
      (.ok entry, { e with machine := (e.machine.withRam r).reset entry.pc entry.sp }) := by
  unfold loadExecutable onRam Machine.onRam
  dsimp only
  rw [h]
  rfl

theorem loadExecutable_of_error {err : LoadError} {r : Ram}
    (h : Image.loadExecutable e.ram image = (.error err, r)) :
    e.loadExecutable image = (.error err, { e with machine := e.machine.withRam r }) := by
  unfold loadExecutable onRam Machine.onRam
  dsimp only
  rw [h]
  rfl

/-- An executable is loaded into the memory that has the filesystem. -/
theorem load_of_filesystem (hpath : e.config.filesystem = some path)
    (hdata : files.inflated codec path = .ok data) {r : Ram}
    (h : Image.loadFilesystem e.ram data = (.ok (), r)) :
    e.load codec files image =
      loadExecutable image { e with machine := e.machine.withRam r } := by
  unfold load
  rw [loadFilesystem_eq hpath hdata, h]

/-- The executable is loaded last, and spares the filesystem because it ends below the window. -/
theorem load_of_room (hsize : e.ram.bytes.size < UInt32.size)
    (hpath : e.config.filesystem = some path) (hdata : files.inflated codec path = .ok data)
    (h : e.HasRoom data image) :
    ∃ entry e', e.load codec files image = (.ok entry, e') ∧ Loaded data image entry e e' := by
  obtain ⟨hwindow, hfilesystem, hfits⟩ := h
  have hbase : (Image.stackTop e.ram.size).toNat = e.windowStart := by
    rw [Image.stackTop_toNat hsize, if_pos hwindow]
    rfl
  have hlt : Image.windowSize < e.ram.size := by
    rwa [UInt32.lt_iff_toNat_lt, Ram.size_toNat hsize]
  obtain ⟨r₁, hfirst, htop⟩ := Image.loadFilesystem_of_room hlt hfilesystem
  rw [hbase] at htop
  have hsame : r₁.size = e.ram.size := Ram.size_eq_of htop.size
  have hroom := hfits.room
  rw [hbase] at hroom
  rw [← hsame] at hfits hbase
  obtain ⟨r₂, hsecond, hbottom⟩ := Image.loadExecutable_of_fits hfits
  have hload : e.load codec files image = (.ok _, _) :=
    (load_of_filesystem hpath hdata hfirst).trans (loadExecutable_of_ok hsecond)
  exact ⟨_, _, hload, {
    size := hbottom.size.trans htop.size
    filesystem := fun i hi => (hbottom.rest _ (by omega)).trans (htop.inside i hi)
    payload := hbottom.payload
    bss := hbottom.bss
    rest := fun i hi hout => (hbottom.rest i hi).trans (htop.outside i hout)
    apart := hroom
    pc := rfl
    sp := hbase
    started := Machine.started_reset _ _ ((e.machine.withRam r₁).withRam r₂)
    bridge := rfl
    config := rfl }⟩

theorem load_of_no_room (hsize : e.ram.bytes.size < UInt32.size)
    (hpath : e.config.filesystem = some path) (hdata : files.inflated codec path = .ok data)
    (h : ¬e.HasRoom data image) :
    ∃ err e', e.load codec files image = (.error err, e') ∧ e.Spared e' := by
  by_cases hroom : Image.windowSize < e.ram.size ∧ data.size ≤ Image.windowSize.toNat
  · obtain ⟨hlt, hfilesystem⟩ := hroom
    have hwindow : Image.windowSize.toNat < e.ram.bytes.size := by
      rwa [UInt32.lt_iff_toNat_lt, Ram.size_toNat hsize] at hlt
    obtain ⟨r₁, hfirst, htop⟩ := Image.loadFilesystem_of_room hlt hfilesystem
    rw [Image.stackTop_toNat hsize, if_pos hwindow] at htop
    have hsame : r₁.size = e.ram.size := Ram.size_eq_of htop.size
    have hfits : ¬Image.Fits image (Image.stackTop r₁.size) := by
      rw [hsame]
      exact fun hfits => h ⟨hwindow, hfilesystem, hfits⟩
    have hload : e.load codec files image = (.error _, _) := (load_of_filesystem hpath hdata hfirst).trans
      (loadExecutable_of_error (Image.loadExecutable_of_not_fits hfits))
    refine ⟨_, _, hload, r₁, rfl, htop.size, fun i hne => ?_⟩
    unfold windowStart
    by_cases hout : i < e.ram.bytes.size - Image.windowSize.toNat ∨
        e.ram.bytes.size - Image.windowSize.toNat + data.size ≤ i
    · exact absurd (htop.outside i hout) hne
    · omega
  · obtain ⟨err, hfirst⟩ := Image.loadFilesystem_of_no_room hroom
    refine ⟨err, e, ?_, e.ram, rfl, rfl, fun i hne => absurd rfl hne⟩
    unfold load
    rw [loadFilesystem_eq hpath hdata, hfirst]
    rfl

end Emulator

/-! ## Main result -/

/-- An executable is loaded if and only if it fits below the stack. Its payload is then at the bottom of
memory, zeros follow it and no other byte changes; if it is refused nothing changes, and the error is
the first that applies. A filesystem image and an executable that have room are loaded into disjoint
windows, with the stack below the upper one, and the machine starts over with empty caches; if they have
none, only bytes in the upper window may have changed. -/
theorem loading_overlaps_nothing (image : ByteArray) :
    (∀ r : Ram, r.bytes.size < UInt32.size →
      (Image.stackTop r.size).toNat =
        (if Image.windowSize.toNat < r.bytes.size then r.bytes.size - Image.windowSize.toNat
         else r.bytes.size) ∧
      (Image.Fits image (Image.stackTop r.size) →
        ∃ r', Image.loadExecutable r image =
            (.ok ⟨Bytes.get32 image 8, Image.stackTop r.size⟩, r') ∧ Image.Placed image r r') ∧
      (¬Image.Fits image (Image.stackTop r.size) →
        Image.loadExecutable r image = (.error (Image.refusal image (Image.stackTop r.size)), r))) ∧
    ∀ (e : Emulator) (codec : Codec) (files : Files) (path : String) (data : ByteArray),
      e.ram.bytes.size < UInt32.size → e.config.filesystem = some path →
      files.inflated codec path = .ok data →
      (e.HasRoom data image →
        ∃ entry e', e.load codec files image = (.ok entry, e') ∧ Emulator.Loaded data image entry e e') ∧
      (¬e.HasRoom data image →
        ∃ err e', e.load codec files image = (.error err, e') ∧ e.Spared e') := by
  constructor
  · intro r hr
    exact ⟨Image.stackTop_toNat hr, Image.loadExecutable_of_fits, Image.loadExecutable_of_not_fits⟩
  · intro e codec files path data hsize hpath hdata
    exact ⟨Emulator.load_of_room hsize hpath hdata, Emulator.load_of_no_room hsize hpath hdata⟩

/-- An executable of four bytes, which asks for sixteen zeros behind them. -/
def fourBytes : ByteArray :=
  ⟨#[0x0d, 0xf0, 0xde, 0xc0, 16, 0, 0, 0, 8, 0, 0, 0, 0, 0, 0, 0, 1, 2, 3, 4]⟩

theorem loading_overlaps_nothing_fourBytes :
    let config : Config := { megabytes := 8, filesystem := some "fs" }
    let files : Files := fun path => if path = "fs" then some ⟨#[102]⟩ else none
    ∃ e entry e', Emulator.ofConfig? config {} = .ok e ∧
      e.load .stored files fourBytes = (.ok entry, e') ∧ entry.pc = 8 ∧ entry.sp.toNat = 0x400000 ∧
      e'.ram.byte 3 = 4 ∧ e'.ram.byte 19 = 0 ∧ e'.ram.byte 0x400000 = 102 ∧
      ∃ err e'', e.load .stored files ByteArray.empty = (.error err, e'') ∧ e.Spared e'' := by
  intro config files
  let e : Emulator :=
    { machine := .make (.zeroed config.memoryBytes) true 4096 { console := {}, escape := some 96 }
      config }
  have hvalid : config.validate = .ok () := by
    unfold Config.validate
    rw [if_neg (by decide), if_neg (by decide)]
  have hconfig : Emulator.ofConfig? config {} = .ok e := by
    unfold Emulator.ofConfig?
    rw [hvalid]
    rfl
  have hpath : e.config.filesystem = some "fs" := rfl
  have hbytes : e.ram.bytes.size = 0x800000 := (Ram.size_zeroed _).trans (by decide)
  have hsize : e.ram.bytes.size < UInt32.size := by
    rw [hbytes]
    decide
  have hdata : files.inflated .stored "fs" = .ok ⟨#[102]⟩ := by
    unfold Files.inflated
    rfl
  have hstack : Image.stackTop e.ram.size = 0x400000 := by
    unfold Ram.size
    rw [hbytes]
    decide
  have hfits : Image.Fits fourBytes (Image.stackTop e.ram.size) := by
    rw [hstack]
    exact ⟨by decide, by decide, by decide⟩
  have hroom : e.HasRoom ⟨#[102]⟩ fourBytes := ⟨by rw [hbytes]; decide, by decide, hfits⟩
  have hshort : ¬e.HasRoom ⟨#[102]⟩ ByteArray.empty := fun h => absurd h.executable.header (by decide)
  have hstart : e.windowStart = 0x400000 := by
    unfold Emulator.windowStart
    rw [hbytes]
    decide
  obtain ⟨entry, e', hload, hloaded⟩ :=
    ((loading_overlaps_nothing fourBytes).2 e .stored files "fs" _ hsize hpath hdata).1 hroom
  refine ⟨e, entry, e', hconfig, hload, hloaded.pc.trans (by decide), hloaded.sp.trans hstart,
    hloaded.payload 3 (by decide), hloaded.bss 19 (by decide) (by decide), ?_, ?_⟩
  · have hfirst := hloaded.filesystem 0 (by decide)
    rw [hstart] at hfirst
    exact hfirst
  · exact ((loading_overlaps_nothing ByteArray.empty).2 e .stored files "fs" _ hsize hpath hdata).2 hshort

end PagedMachine
