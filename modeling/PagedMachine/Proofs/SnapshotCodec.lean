import Mathlib.Data.List.Basic
import PagedMachine.Bytes.Lemmas
import PagedMachine.Compression.Stored
import PagedMachine.Emulator
import PagedMachine.Width.Lemmas

/-!
# Encoded snapshots

A reader `Reads` a format if it accepts exactly the byte strings that the format writes, and stops
behind them. Such readers compose (`Reads.next`), so decoding accepts exactly what encoding writes,
with anything behind it (`decode?_eq_ok_iff`). In a file the encoding is compressed, by a codec of which
only its law is used (`Codec.Lossless`). A snapshot that cannot be decoded or has another version leaves
the emulator as it was (`Emulator.restoreFile_error`).
-/

set_option autoImplicit false

namespace PagedMachine

namespace Bytes

/-! ## What is written behind bytes -/

def ofByte (b : UInt8) : ByteArray := ByteArray.empty.push b

def ofWord32 (w : UInt32) : ByteArray := push32 .empty w

def ofWord64 (w : UInt64) : ByteArray := push64 .empty w

theorem append_push32 (a b : ByteArray) (w : UInt32) : push32 (a ++ b) w = a ++ push32 b w := by
  simp only [push32, append_push]

theorem push_eq (out : ByteArray) (b : UInt8) : out.push b = out ++ ofByte b := by
  rw [ofByte, ← append_push, ByteArray.append_empty]

theorem push32_eq (out : ByteArray) (w : UInt32) : push32 out w = out ++ ofWord32 w := by
  rw [ofWord32, ← append_push32, ByteArray.append_empty]

theorem push64_eq (out : ByteArray) (w : UInt64) : push64 out w = out ++ ofWord64 w := by
  rw [ofWord64, push64, push64, ← append_push32, ← append_push32, ByteArray.append_empty]

@[simp] theorem size_ofByte (b : UInt8) : (ofByte b).size = 1 := rfl

@[simp] theorem size_ofWord32 (w : UInt32) : (ofWord32 w).size = 4 := by simp [ofWord32]

@[simp] theorem size_ofWord64 (w : UInt64) : (ofWord64 w).size = 8 := by simp [ofWord64, push64]

/-! ## What is read is what was written -/

theorem ofByte_at0 {data : ByteArray} {pos : Nat} (h : pos + 1 ≤ data.size) :
    ofByte (at0 data pos) = data.extract pos (pos + 1) := by
  refine ext_at0 (by simp; omega) fun i => ?_
  simp only [ofByte, at0_push, at0_extract, ByteArray.size_empty, at0_empty]
  grind

theorem ofWord32_get32 {data : ByteArray} {pos : Nat} (h : pos + 4 ≤ data.size) :
    ofWord32 (get32 data pos) = data.extract pos (pos + 4) := by
  obtain ⟨h0, h1, h2, h3⟩ := byteOf32_le32 (at0 data pos) (at0 data (pos + 1))
    (at0 data (pos + 2)) (at0 data (pos + 3))
  refine ext_at0 (by simp; omega) fun i => ?_
  simp only [ofWord32, push32, get32, h0, h1, h2, h3, at0_push, at0_extract, ByteArray.size_push,
    ByteArray.size_empty, at0_empty]
  grind

theorem ofWord64_get64 {data : ByteArray} {pos : Nat} (h : pos + 8 ≤ data.size) :
    ofWord64 (get64 data pos) = data.extract pos (pos + 8) := by
  rw [ofWord64, push64, get64, low32_le64, high32_le64, push32_eq, ← ofWord32,
    ofWord32_get32 (by omega), ofWord32_get32 (by omega), ByteArray.extract_append_extract]
  congr 1 <;> omega

theorem ofByte_injective : Function.Injective ofByte := by
  intro b c h
  simpa [ofByte, at0_push] using congrArg (at0 · 0) h

theorem ofWord32_injective : Function.Injective ofWord32 := by
  have hget (w : UInt32) : get32 (ofWord32 w) 0 = w := by
    simp [get32, ofWord32, push32, at0_push, le32_byteOf32]
  intro v w h
  rw [← hget v, h, hget]

theorem ofWord64_injective : Function.Injective ofWord64 := by
  have hget (w : UInt64) : get64 (ofWord64 w) 0 = w := by
    simp [get64, get32, ofWord64, push64, push32, at0_push, le32_byteOf32, le64_low32_high32]
  intro v w h
  rw [← hget v, h, hget]

end Bytes

namespace Snapshot

open Bytes

/-! ## Formats -/

/-- Whether a reader accepts exactly the byte strings that stand for a value in a format, and stops
behind them. -/
def Reads {α : Type} (r : Reader α) (format : α → ByteArray → Prop) : Prop :=
  ∀ data pos, pos ≤ data.size → ∀ v next, r data pos = .ok (v, next) ↔
    ∃ chunk, format v chunk ∧ Stands data pos chunk ∧ next = pos + chunk.size

section
variable {α β : Type} {r : Reader α} {p p' : α → ByteArray → Prop}

theorem Reads.congr (h : Reads r p) (hp : ∀ v c, p v c ↔ p' v c) : Reads r p' := by
  have : p = p' := by
    funext v c
    exact propext (hp v c)
  rwa [← this]

theorem reads_pure (v : α) : Reads (pure v) fun v' c => v' = v ∧ c = .empty := by
  intro data pos hpos v' next
  have hrun : (pure v : Reader α) data pos = .ok (v, pos) := rfl
  rw [hrun]
  constructor
  · rintro h
    obtain ⟨rfl, rfl⟩ := by simpa using h
    exact ⟨.empty, ⟨rfl, rfl⟩, ⟨hpos, by simp⟩, rfl⟩
  · rintro ⟨c, ⟨rfl, rfl⟩, -, rfl⟩
    rfl

theorem reads_throw (e : DecodeError) : Reads (throw e : Reader α) fun _ _ => False := by
  intro data pos _ v next
  constructor
  · rintro ⟨⟩
  · rintro ⟨_, ⟨⟩, _⟩

theorem Reads.bind {f : α → Reader β} {q : α → β → ByteArray → Prop} (hr : Reads r p)
    (hf : ∀ a, Reads (f a) (q a)) :
    Reads (r >>= f) fun b c => ∃ a c₁ c₂, p a c₁ ∧ q a b c₂ ∧ c = c₁ ++ c₂ := by
  intro data pos hpos b next
  have hrun : (r >>= f) data pos = r data pos >>= fun x => f x.1 data x.2 := rfl
  rw [hrun]
  constructor
  · intro h
    match hx : r data pos with
    | .error e =>
      rw [hx] at h
      cases h
    | .ok (a, mid) =>
      obtain ⟨c₁, hp, h₁, rfl⟩ := (hr data pos hpos a mid).1 hx
      rw [hx] at h
      obtain ⟨c₂, hq, h₂, rfl⟩ := (hf a data _ h₁.1 b next).1 h
      exact ⟨c₁ ++ c₂, ⟨a, c₁, c₂, hp, hq, rfl⟩, stands_append.2 ⟨h₁, h₂⟩, by
        rw [ByteArray.size_append, Nat.add_assoc]⟩
  · rintro ⟨_, ⟨a, c₁, c₂, hp, hq, rfl⟩, hs, rfl⟩
    obtain ⟨h₁, h₂⟩ := stands_append.1 hs
    rw [(hr data pos hpos a _).2 ⟨c₁, hp, h₁, rfl⟩]
    exact (hf a data _ h₁.1 b _).2 ⟨c₂, hq, h₂, by rw [ByteArray.size_append, Nat.add_assoc]⟩

section
variable {put : α → ByteArray} {field : β → ByteArray} {ok : β → Prop} (proj : β → α)

/-- The next field of a record, which is `proj` of it. -/
theorem Reads.next {f : α → Reader β} {rest : β → ByteArray} (hr : Reads r fun v c => c = put v)
    (hf : ∀ a, Reads (f a) fun b c => (proj b = a ∧ ok b) ∧ c = rest b)
    (hput : ∀ b, field b = put (proj b) := by intro; rfl) :
    Reads (r >>= f) fun b c => ok b ∧ c = field b ++ rest b :=
  (hr.bind hf).congr fun b c => by simp [hput]

/-- The last field of a record. -/
theorem Reads.last {k : α → β} {good : α → Prop} (hr : Reads r fun v c => good v ∧ c = put v)
    (hk : ∀ a b, good a ∧ b = k a ↔ proj b = a ∧ ok b)
    (hput : ∀ b, field b = put (proj b) := by intro; rfl) :
    Reads (r >>= fun a => pure (k a)) fun b c => ok b ∧ c = field b := by
  refine (hr.bind fun a => reads_pure (k a)).congr fun b c => ?_
  constructor
  · rintro ⟨a, _, _, ⟨hgood, rfl⟩, ⟨rfl, rfl⟩, rfl⟩
    obtain ⟨hproj, hok⟩ := (hk a _).1 ⟨hgood, rfl⟩
    exact ⟨hok, by rw [hput, hproj, ByteArray.append_empty]⟩
  · rintro ⟨hok, rfl⟩
    obtain ⟨hgood, hb⟩ := (hk (proj b) b).2 ⟨rfl, hok⟩
    exact ⟨_, _, _, ⟨hgood, rfl⟩, ⟨hb, rfl⟩, by rw [hput, ByteArray.append_empty]⟩

end

end

/-! ## The readers -/

theorem skip_apply (n : Nat) (data : ByteArray) (pos : Nat) :
    Reader.skip n data pos =
      if pos + n ≤ data.size then .ok (pos, pos + n) else .error .unexpectedEnd := by
  have hrun : Reader.skip n data pos = (if pos + n ≤ data.size then
      (do set (pos + n); return pos : Reader Nat) else throw .unexpectedEnd) data pos := rfl
  rw [hrun]
  split <;> rfl

/-- A reader of `n` bytes. -/
theorem reads_fixed {α : Type} {r : Reader α} {n : Nat} {get : ByteArray → Nat → α}
    {put : α → ByteArray}
    (hr : ∀ data pos, r data pos = Reader.skip n data pos >>= fun x => .ok (get data x.1, x.2))
    (hput : Function.Injective put)
    (hget : ∀ data pos, pos + n ≤ data.size → put (get data pos) = data.extract pos (pos + n)) :
    Reads r fun v c => (put v).size = n ∧ c = put v := by
  intro data pos _ v next
  rw [hr, skip_apply]
  constructor
  · intro h
    split at h
    · rename_i hin
      obtain ⟨rfl, rfl⟩ : get data pos = v ∧ pos + n = next := by simpa [bind, Except.bind] using h
      have hsize : (put (get data pos)).size = n := by
        rw [hget _ _ hin, ByteArray.size_extract]
        omega
      exact ⟨_, ⟨hsize, rfl⟩, ⟨by rwa [hsize], by rw [hsize, hget _ _ hin]⟩, by rw [hsize]⟩
    · cases h
  · rintro ⟨_, ⟨hsize, rfl⟩, ⟨hin, heq⟩, rfl⟩
    rw [hsize] at hin heq ⊢
    rw [if_pos hin, ← hput ((hget data pos hin).trans heq)]
    rfl

theorem reads_u8 : Reads Reader.u8 fun v c => c = ofByte v :=
  (reads_fixed (fun _ _ => rfl) ofByte_injective fun _ _ => ofByte_at0).congr fun v c => by simp

theorem reads_u32 : Reads Reader.u32 fun v c => c = ofWord32 v :=
  (reads_fixed (fun _ _ => rfl) ofWord32_injective fun _ _ => ofWord32_get32).congr fun v c => by simp

theorem reads_u64 : Reads Reader.u64 fun v c => c = ofWord64 v :=
  (reads_fixed (fun _ _ => rfl) ofWord64_injective fun _ _ => ofWord64_get64).congr fun v c => by simp

theorem reads_double : Reads Reader.double fun v c => c = ofWord64 v.bits := by
  refine (reads_u64.bind fun w => reads_pure (Double.mk w)).congr fun v c => ?_
  cases v
  simp

/-- A truth value as a byte. -/
def ofBool (v : Bool) : ByteArray := ofByte (if v then 1 else 0)

theorem reads_bool : Reads Reader.bool fun v c => c = ofBool v := by
  unfold Reader.bool
  refine Reads.congr (@Reads.bind _ _ _ _ _ (fun tag v c => tag = (if v then 1 else 0) ∧ c = .empty)
    reads_u8 fun tag => ?_) fun v c => ?_
  · split
    · exact (reads_pure false).congr fun v c => by cases v <;> simp
    · exact (reads_pure true).congr fun v c => by cases v <;> simp
    · exact (reads_throw _).congr fun v c => by cases v <;> simp_all
  · simp [ofBool]

/-- A value that may be missing, behind a byte that says whether it is there. -/
def ofOption {α : Type} (put : α → ByteArray) : Option α → ByteArray
  | none => ofByte 0
  | some v => ofByte 1 ++ put v

theorem reads_option {α : Type} {value : Reader α} {put : α → ByteArray}
    (h : Reads value fun v c => c = put v) :
    Reads (Reader.option value) fun o c => c = ofOption put o := by
  unfold Reader.option
  refine Reads.congr (@Reads.bind _ _ _ _ _ (fun tag o c =>
    o.elim (tag = 0 ∧ c = .empty) fun v => tag = 1 ∧ c = put v) reads_u8 fun tag => ?_) fun o c => ?_
  · split
    · exact (reads_pure none).congr fun o c => by cases o <;> simp
    · refine (h.bind fun v => reads_pure (some v)).congr fun o c => ?_
      cases o <;> simp
    · exact (reads_throw _).congr fun o c => by cases o <;> simp_all
  · cases o <;> simp [ofOption, and_assoc]

/-- The registers, field by field. -/
def ofRegisters (r : Registers) : ByteArray :=
  ofWord32 r.a ++ (ofWord32 r.b ++ (ofWord32 r.c ++ (ofWord64 r.f.bits ++ (ofWord64 r.g.bits ++
    (ofWord32 r.sp ++ (ofWord32 r.pc ++ (ofBool r.user ++ (ofBool r.iena ++ (ofWord32 r.ipend ++
    (ofWord32 r.trap ++ (ofWord32 r.ivec ++ (ofWord32 r.vadr ++ (ofBool r.space.paging ++
    (ofOption ofWord32 r.space.directory ++ (ofWord32 r.usp ++ (ofWord32 r.ssp ++
    ofWord64 r.cycle))))))))))))))))

theorem reads_registers : Reads Reader.registers fun r c => c = ofRegisters r := by
  suffices Reads Reader.registers fun r c => True ∧ c = ofRegisters r by simpa using this
  unfold Reader.registers ofRegisters
  refine .next (·.a) reads_u32 fun a => .next (·.b) reads_u32 fun b => .next (·.c) reads_u32 fun c =>
    .next (·.f) reads_double fun f => .next (·.g) reads_double fun g =>
    .next (·.sp) reads_u32 fun sp => .next (·.pc) reads_u32 fun pc =>
    .next (·.user) reads_bool fun user => .next (·.iena) reads_bool fun iena =>
    .next (·.ipend) reads_u32 fun ipend => .next (·.trap) reads_u32 fun trap =>
    .next (·.ivec) reads_u32 fun ivec => .next (·.vadr) reads_u32 fun vadr =>
    .next (·.space.paging) reads_bool fun paging =>
    .next (·.space.directory) (reads_option reads_u32) fun directory =>
    .next (·.usp) reads_u32 fun usp => .next (·.ssp) reads_u32 fun ssp =>
    .last (·.cycle) (reads_u64.congr fun _ _ => (true_and _).to_iff.symm) fun cycle r => ?_
  constructor
  · rintro ⟨-, rfl⟩
    simp
  · rintro ⟨rfl, rfl, rfl, rfl, rfl, rfl, rfl, rfl, rfl, rfl, rfl, rfl, rfl, rfl, rfl, rfl, rfl, rfl, -⟩
    exact ⟨trivial, rfl⟩

/-- The memory's bytes behind their number. -/
def ofRam (r : Ram) : ByteArray := ofWord64 r.bytes.size.toUInt64 ++ r.bytes

/-- A number of bytes that does not fit in 64 bits is cut, so such a memory is not read back. -/
theorem reads_ram : Reads Reader.ram fun r c => r.bytes.size < UInt64.size ∧ c = ofRam r := by
  have hinj : Function.Injective Ram.bytes := fun a b h => by
    cases a
    cases b
    simpa using h
  have hbytes (len : UInt64) : Reads (do
      let start ← Reader.skip len.toNat
      return (⟨(← read).extract start (start + len.toNat)⟩ : Ram))
      fun r c => r.bytes.size = len.toNat ∧ c = r.bytes :=
    reads_fixed (fun _ _ => rfl) hinj fun _ _ _ => rfl
  refine (reads_u64.bind hbytes).congr fun r c => ?_
  constructor
  · rintro ⟨len, _, _, rfl, ⟨hsize, rfl⟩, rfl⟩
    exact ⟨hsize ▸ len.toNat_lt, by simp [ofRam, hsize]⟩
  · rintro ⟨hlt, rfl⟩
    exact ⟨_, _, _, rfl, ⟨(UInt64.toNat_ofNat_of_lt hlt).symm, rfl⟩, rfl⟩

theorem reads_snapshot :
    Reads Reader.snapshot fun s c => s.ram.bytes.size < UInt64.size ∧
      c = ofWord32 s.version ++ (ofRegisters s.regs ++ (ofWord32 s.timer.count ++
        (ofWord32 s.timer.timeout ++ (ofOption ofByte s.latch ++ ofRam s.ram)))) := by
  unfold Reader.snapshot
  refine .next (·.version) reads_u32 fun version => .next (·.regs) reads_registers fun regs =>
    .next (·.timer.count) reads_u32 fun count => .next (·.timer.timeout) reads_u32 fun timeout =>
    .next (·.latch) (reads_option reads_u8) fun latch => .last (·.ram) reads_ram fun ram s => ?_
  constructor
  · rintro ⟨hlt, rfl⟩
    exact ⟨rfl, rfl, rfl, rfl, rfl, rfl, hlt⟩
  · rintro ⟨rfl, rfl, rfl, rfl, rfl, rfl, hlt⟩
    exact ⟨hlt, rfl⟩

/-! ## Encoding -/

section
variable (out : ByteArray)

theorem pushBool_eq (v : Bool) : pushBool out v = out ++ ofBool v := push_eq ..

theorem pushOption_eq {α : Type} {push : ByteArray → α → ByteArray} {put : α → ByteArray}
    (h : ∀ out v, push out v = out ++ put v) (o : Option α) :
    pushOption push out o = out ++ ofOption put o := by
  cases o with
  | none => exact push_eq ..
  | some v => simp only [pushOption, ofOption, h, push_eq out, ByteArray.append_assoc]

theorem pushRegisters_eq (r : Registers) : pushRegisters out r = out ++ ofRegisters r := by
  simp only [pushRegisters, ofRegisters, List.foldl, push32_eq, push64_eq, pushBool_eq,
    pushOption_eq _ push32_eq, ByteArray.append_assoc]

end

theorem encode_eq (s : Snapshot) :
    s.encode = ofWord32 s.version ++ (ofRegisters s.regs ++ (ofWord32 s.timer.count ++
      (ofWord32 s.timer.timeout ++ (ofOption ofByte s.latch ++ ofRam s.ram)))) := by
  simp only [encode, head, pushRegisters_eq, List.foldl, push32_eq, push64_eq,
    pushOption_eq _ push_eq, ofRam, ByteArray.append_assoc, ByteArray.empty_append]

/-- Decoding accepts exactly the encodings, with anything behind them. -/
theorem decode?_eq_ok_iff {data : ByteArray} {s : Snapshot} :
    decode? data = .ok s ↔ s.ram.bytes.size < UInt64.size ∧ ∃ t, data = s.encode ++ t := by
  have hrun : decode? data = .ok s ↔ ∃ next, Reader.snapshot data 0 = .ok (s, next) := by
    unfold decode? ReaderT.run StateT.run
    cases Reader.snapshot data 0 <;> simp [Functor.map, Except.map, Prod.ext_iff]
  rw [hrun, ← stands_zero]
  simp [reads_snapshot data 0 (Nat.zero_le _), ← encode_eq, and_assoc]

section
variable {s s' : Snapshot} {data file t : ByteArray} {codec : Codec}

theorem decode?_encode_append (h : s.ram.bytes.size < UInt64.size) (t : ByteArray) :
    decode? (s.encode ++ t) = .ok s :=
  decode?_eq_ok_iff.2 ⟨h, t, rfl⟩

/-- No encoding goes on after another one, so a part of one is not accepted. -/
theorem decode?_prefix (h : s.ram.bytes.size < UInt64.size) (hs : s.encode = data ++ t)
    (ht : t ≠ .empty) : ∃ e, decode? data = .error e := by
  match hd : decode? data with
  | .error e => exact ⟨e, rfl⟩
  | .ok s' =>
    obtain ⟨h', t', rfl⟩ := decode?_eq_ok_iff.1 hd
    have hsame : s' = s := by
      have hall := decode?_encode_append h .empty
      rw [ByteArray.append_empty, hs, ByteArray.append_assoc, decode?_encode_append h'] at hall
      exact Except.ok.inj hall
    subst hsame
    have hsize := congrArg ByteArray.size hs
    simp only [ByteArray.size_append] at hsize
    exact absurd (ByteArray.size_eq_zero_iff.1 (by omega)) ht

theorem ofFileBytes?_eq_ok_iff : ofFileBytes? codec file = .ok s ↔
    ∃ data, codec.decompress file = .ok data ∧ decode? data = .ok s := by
  unfold ofFileBytes?
  cases codec.decompress file with
  | error reason => simp [Except.mapError, Bind.bind, Except.bind]
  | ok data => cases h : decode? data <;> simp [Except.mapError, Bind.bind, Except.bind, h]

/-- What is written to a file is read back from it. -/
theorem ofFileBytes?_toFileBytes (hcodec : codec.Lossless) (h : s.ram.bytes.size < UInt64.size) :
    ∃ file, s.toFileBytes codec = .ok file ∧ ofFileBytes? codec file = .ok s := by
  obtain ⟨file, hfile, hdata⟩ := hcodec.decompress_compress s.encode
  refine ⟨file, ?_, ofFileBytes?_eq_ok_iff.2 ⟨s.encode, hdata, ?_⟩⟩
  · rw [toFileBytes, hfile]
    rfl
  · simpa using decode?_encode_append h .empty

end

end Snapshot

/-! ## Restoring -/

namespace Emulator

theorem restore_error {s : Snapshot} {e : Emulator} {err : LoadError}
    (h : (e.restore s).1 = .error err) :
    s.version ≠ Snapshot.currentVersion ∧ (e.restore s).2 = e := by
  unfold restore at h ⊢
  split at h
  · rename_i hv
    exact ⟨hv, by rw [if_pos hv]⟩
  · cases h

section
variable {codec : Codec} {file : ByteArray} {e : Emulator}

theorem restoreFile_error {err : LoadError} (h : (e.restoreFile codec file).1 = .error err) :
    (e.restoreFile codec file).2 = e := by
  unfold restoreFile at h ⊢
  split at h
  · rfl
  · exact (restore_error h).2

theorem restoreFile_eq_ok_iff :
    (e.restoreFile codec file).1 = .ok () ↔
      ∃ s, Snapshot.ofFileBytes? codec file = .ok s ∧ s.version = Snapshot.currentVersion := by
  unfold restoreFile
  cases h : Snapshot.ofFileBytes? codec file with
  | error err => simp
  | ok s =>
    simp only [restore]
    split <;> simp_all

end

end Emulator

namespace Snapshot

/-- Encoding keeps all of a snapshot, whatever stands behind it, and so does its file if decompression
undoes compression. Only encodings are accepted, and no part of one. A file that cannot be restored
leaves the emulator as it was. -/
theorem codec_exact (codec : Codec) :
    (∀ s : Snapshot, s.ram.bytes.size < UInt64.size →
      (∀ t, decode? (s.encode ++ t) = .ok s) ∧
      (codec.Lossless → ∃ file, s.toFileBytes codec = .ok file ∧ ofFileBytes? codec file = .ok s) ∧
      ∀ data t, s.encode = data ++ t → t ≠ .empty → ∃ e, decode? data = .error e) ∧
    (∀ data s, decode? data = .ok s → ∃ t, data = s.encode ++ t) ∧
    ∀ (e : Emulator) file,
      ((e.restoreFile codec file).1 = .ok () ↔
        ∃ s, ofFileBytes? codec file = .ok s ∧ s.version = currentVersion) ∧
      ∀ err, (e.restoreFile codec file).1 = .error err → (e.restoreFile codec file).2 = e := by
  refine ⟨fun s h => ⟨decode?_encode_append h, fun hcodec => ofFileBytes?_toFileBytes hcodec h,
    fun data t => decode?_prefix h⟩, fun data s h => (decode?_eq_ok_iff.1 h).2, fun e file =>
    ⟨Emulator.restoreFile_eq_ok_iff, fun err => Emulator.restoreFile_error⟩⟩

/-- A snapshot of another version, with a NaN, a directory and three bytes of memory. Nothing repeats in
it, so it is stored as it is. -/
def odd : Snapshot :=
  { version := 0x9c41e7d5
    regs := {
      a := 0x3b8f6a12, b := 0xd40c97e6, c := 0x715eab29
      f := ⟨0x7ff8c35d1e92b047⟩, g := ⟨0x4a86f0d319be627c⟩
      sp := 0xe2537d98, pc := 0x0fb66ca4, user := true
      ipend := 0x8d21f45b, trap := 0xc97a3e10, ivec := 0x56e80b9f, vadr := 0xa31dd472
      space := { paging := true, directory := some 0x64b9f000 }
      usp := 0x2a77c8ee, ssp := 0xf1058b33, cycle := 0x5dc29a6f3074e1b8 }
    timer := { count := 0xbb92164d, timeout := 0x07e5a9dc }
    latch := some 0x78
    ram := ⟨⟨#[0x95, 0x2c, 0xea]⟩⟩ }

theorem codec_exact_odd :
    let e : Emulator := { machine := .make (.zeroed 4096) true 1 {}, config := {} }
    Codec.stored.Lossless ∧ odd.ram.bytes.size < UInt64.size ∧
      decode? (odd.encode ++ ⟨#[9]⟩) = .ok odd ∧ (∃ err, decode? odd.head = .error err) ∧
      ∃ file, odd.toFileBytes .stored = .ok file ∧ file.size = 9 + odd.encode.size ∧
        ofFileBytes? .stored file = .ok odd ∧
        (e.restoreFile .stored file).1 = .error (.snapshotVersion odd.version) ∧
        (e.restoreFile .stored file).2 = e := by
  intro e
  have h : odd.ram.bytes.size < UInt64.size := by decide
  obtain ⟨hodd, -, hrestore⟩ := codec_exact .stored
  obtain ⟨hall, hfile, hpart⟩ := hodd odd h
  obtain ⟨file, hwritten, hread⟩ := hfile Codec.lossless_stored
  have hmore : odd.ram.bytes ≠ .empty := by decide
  have hsize : file.size = 9 + odd.encode.size := by
    obtain rfl : _ = file := Except.ok.inj hwritten
    rw [ByteArray.size_append, Codec.size_headers]
  have hrefused : (e.restoreFile .stored file).1 = .error (.snapshotVersion odd.version) := by
    unfold Emulator.restoreFile
    rw [hread]
    rfl
  exact ⟨Codec.lossless_stored, h, hall _, hpart odd.head odd.ram.bytes rfl hmore, file, hwritten,
    hsize, hread, hrefused, (hrestore e file).2 _ hrefused⟩

end Snapshot

end PagedMachine
