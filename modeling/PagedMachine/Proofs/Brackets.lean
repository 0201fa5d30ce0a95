import PagedMachine.Machine
import PagedMachine.Proofs.KernelStack

/-!
# Well-bracketed sequences

A sequence of instructions is well bracketed if every push has its pop and every call its return
(`Bracketed`). What it is meant to do needs no stack: a pop sets its register to what the matching push
had, a return goes on behind the matching call, and the stack pointer is then what it was
(`Bracketed.after`). `Bracketed.trace` has every instruction in the order of execution, with the
registers that are meant to be there behind it and with the stack slots in use while it runs.

Slots are rounded down to multiples of eight while the stack pointer is not. Those in use at one time
are different all the same, unless the stack is deeper than the address space
(`Bracketed.nodup_of_depth`).
-/

set_option autoImplicit false

namespace PagedMachine

/-! ## Sequences -/

/-- What a word is pushed from. -/
inductive Source
  | register (src : IntReg)
  | immediate (v : UInt32)

/-- A push with its pop. -/
inductive PushPop
  | word (src : Source) (dst : IntReg)
  | double (src dst : FloatReg)

/-- What is called: code at a distance from the next instruction, or where a register says. -/
inductive Callee
  | relative (offset : UInt32)
  | indirect

/-- A sequence in the order of execution. The code of a procedure is an `enter` that makes room for its
locals, the body, and the `leave` that returns. -/
inductive Bracketed
  | nil
  | pushed (pair : PushPop) (body rest : Bracketed)
  | called (callee : Callee) (locals : UInt32) (body rest : Bracketed)

/-! ## What it is meant to do -/

def Source.value (r : Registers) : Source → UInt32
  | .register src => r.int src
  | .immediate v => v

namespace PushPop

/-- The operation of the push. -/
def push : PushPop → Operation
  | .word (.register src) _ => .push src
  | .word (.immediate _) _ => .pushImmediate
  | .double src _ => .pushFloat src

def immediate : PushPop → Option UInt32
  | .word (.immediate v) _ => some v
  | .word (.register _) _ | .double _ _ => none

/-- The operation of the pop. -/
def pop : PushPop → Operation
  | .word _ dst => .pop dst
  | .double _ dst => .popFloat dst

/-- The registers `r'` with what was pushed from `r`. -/
def restore (pair : PushPop) (r r' : Registers) : Registers :=
  match pair with
  | .word src dst => r'.setInt dst (src.value r)
  | .double src dst => r'.setFloat dst (r.float src)

end PushPop

namespace Callee

def operation : Callee → Operation
  | .relative _ => .call
  | .indirect => .callIndirect

def immediate : Callee → Option UInt32
  | .relative offset => some offset
  | .indirect => none

def target (r : Registers) : Callee → UInt32
  | .relative offset => r.pc + 4 + offset
  | .indirect => r.a

end Callee

namespace Registers

/-- The slot of the next push. -/
def nextSlot (r : Registers) : UInt32 := alignTo8 (r.sp - 8)

/-- After a push. -/
def afterPush (r : Registers) : Registers := { r with pc := r.pc + 4, sp := r.sp - 8 }

/-- After the pop of what was pushed from `r`. -/
def afterPop (pair : PushPop) (r r' : Registers) : Registers :=
  { pair.restore r r' with pc := r'.pc + 4, sp := r.sp }

def afterCall (callee : Callee) (r : Registers) : Registers :=
  { r with pc := callee.target r, sp := r.sp - 8 }

def afterEnter (locals : UInt32) (r : Registers) : Registers :=
  { r with pc := r.pc + 4, sp := r.sp - locals }

/-- After the return of what was called from `r`. -/
def afterLeave (r r' : Registers) : Registers := { r' with pc := r.pc + 4, sp := r.sp }

end Registers

/-- One instruction of a sequence. -/
structure Moment where
  pc : UInt32
  op : Operation
  /-- The immediate that the instruction has, if that matters. -/
  imm : Option UInt32
  /-- The slots in use while the instruction runs, the latest first. -/
  stack : List UInt32
  /-- The registers behind it. -/
  regs : Registers

namespace Bracketed

/-- The registers after a sequence. -/
def after : Bracketed → Registers → Registers
  | .nil, r => r
  | .pushed pair body rest, r => rest.after (r.afterPop pair (body.after r.afterPush))
  | .called callee locals body rest, r =>
    rest.after (r.afterLeave (body.after ((r.afterCall callee).afterEnter locals)))

/-- The instructions of a sequence, where the slots of `stack` are in use around it. -/
def trace : Bracketed → List UInt32 → Registers → List Moment
  | .nil, _, _ => []
  | .pushed pair body rest, stack, r =>
    let r' := body.after r.afterPush
    ⟨r.pc, pair.push, pair.immediate, r.nextSlot :: stack, r.afterPush⟩ ::
      (body.trace (r.nextSlot :: stack) r.afterPush ++
        ⟨r'.pc, pair.pop, none, r.nextSlot :: stack, r.afterPop pair r'⟩ ::
          rest.trace stack (r.afterPop pair r'))
  | .called callee locals body rest, stack, r =>
    let called := r.afterCall callee
    let r' := body.after (called.afterEnter locals)
    ⟨r.pc, callee.operation, callee.immediate, r.nextSlot :: stack, called⟩ ::
      ⟨called.pc, .enter, some (0 - locals), r.nextSlot :: stack, called.afterEnter locals⟩ ::
        (body.trace (r.nextSlot :: stack) (called.afterEnter locals) ++
          ⟨r'.pc, .leave, some locals, r.nextSlot :: stack, r.afterLeave r'⟩ ::
            rest.trace stack (r.afterLeave r'))

/-- The bytes by which the stack grows. -/
def depth : Bracketed → Nat
  | .nil => 0
  | .pushed _ body rest => max (8 + body.depth) rest.depth
  | .called _ locals body rest => max (8 + locals.toNat + body.depth) rest.depth

theorem sp_after (s : Bracketed) (r : Registers) : (s.after r).sp = r.sp := by
  induction s generalizing r with
  | nil => rfl
  | pushed pair body rest _ ih => exact ih _
  | called callee locals body rest _ ih => exact ih _

end Bracketed

/-! ## Slots in use at one time -/

/-- The slots in `stack` are those of pushes at falling distances below `top`, the first of them at
`depth` at most. -/
def Stacked (top : UInt32) : (depth : Nat) → (stack : List UInt32) → Prop
  | _, [] => True
  | depth, v :: stack =>
    ∃ d, 8 ≤ d ∧ d ≤ depth ∧ v = alignTo8 (top - d.toUInt32) ∧ Stacked top (d - 8) stack

theorem sub_toUInt32 (top : UInt32) (depth : Nat) (n : UInt32) :
    top - depth.toUInt32 - n = top - (depth + n.toNat).toUInt32 := by
  simp only [Nat.toUInt32_eq, UInt32.ofNat_add, UInt32.ofNat_toNat]
  grind

/-- Rounding down does not bring two slots together, unless they are the whole address space apart. -/
theorem alignTo8_sub_ne {top : UInt32} {d e : Nat} (hd : d + 8 ≤ e) (he : e ≤ d + (UInt32.size - 8)) :
    alignTo8 (top - e.toUInt32) ≠ alignTo8 (top - d.toUInt32) := by
  intro h
  have h := congrArg UInt32.toNat h
  rw [alignTo8_toNat, alignTo8_toNat, UInt32.toNat_sub, UInt32.toNat_sub, Nat.toUInt32_eq,
    Nat.toUInt32_eq, UInt32.toNat_ofNat', UInt32.toNat_ofNat'] at h
  have htop := top.toNat_lt
  simp only [UInt32.size] at he
  omega

namespace Stacked

variable {top : UInt32} {depth : Nat} {stack : List UInt32}

theorem eq_of_mem (h : Stacked top depth stack) {v : UInt32} (hv : v ∈ stack) :
    ∃ d, 8 ≤ d ∧ d ≤ depth ∧ v = alignTo8 (top - d.toUInt32) := by
  induction stack generalizing depth with
  | nil => cases hv
  | cons w stack ih =>
    obtain ⟨d, hle, hge, hw, hrest⟩ := h
    rcases List.mem_cons.1 hv with rfl | hv
    · exact ⟨d, hle, hge, hw⟩
    · obtain ⟨e, he, hed, hv⟩ := ih hrest hv
      exact ⟨e, he, by omega, hv⟩

theorem nodup (h : Stacked top depth stack) (hdepth : depth ≤ UInt32.size) : stack.Nodup := by
  induction stack generalizing depth with
  | nil => exact List.nodup_nil
  | cons v stack ih =>
    obtain ⟨d, hle, hge, rfl, hrest⟩ := h
    refine List.nodup_cons.2 ⟨fun hmem => ?_, ih hrest (by omega)⟩
    obtain ⟨e, he, hed, heq⟩ := hrest.eq_of_mem hmem
    exact alignTo8_sub_ne (by omega) (by omega) heq

theorem mono (h : Stacked top depth stack) {depth' : Nat} (hle : depth ≤ depth') :
    Stacked top depth' stack := by
  cases stack with
  | nil => trivial
  | cons v stack =>
    obtain ⟨d, hd, hdepth, hrest⟩ := h
    exact ⟨d, hd, Nat.le_trans hdepth hle, hrest⟩

theorem push (h : Stacked top depth stack) {r : Registers} (hsp : r.sp = top - depth.toUInt32) :
    Stacked top (depth + 8) (r.nextSlot :: stack) := by
  refine ⟨depth + 8, by omega, Nat.le_refl _, ?_, h⟩
  rw [Registers.nextSlot, hsp]
  exact congrArg alignTo8 (sub_toUInt32 top depth 8)

end Stacked

namespace Bracketed

theorem stacked_trace (s : Bracketed) {top : UInt32} {depth : Nat} {stack : List UInt32}
    {r : Registers} (h : Stacked top depth stack) (hsp : r.sp = top - depth.toUInt32)
    (hdepth : depth + s.depth ≤ UInt32.size) :
    ∀ x ∈ s.trace stack r, ∃ d ≤ UInt32.size, Stacked top d x.stack := by
  induction s generalizing depth stack r with
  | nil => exact fun x hx => nomatch hx
  | pushed pair body rest ihbody ihrest =>
    rw [Bracketed.depth] at hdepth
    have hinside := h.push hsp
    have hsp' : r.afterPush.sp = top - (depth + 8).toUInt32 := by
      rw [Registers.afterPush, hsp]
      exact sub_toUInt32 top depth 8
    intro x hx
    simp only [trace, List.mem_cons, List.mem_append] at hx
    rcases hx with rfl | hx | rfl | hx
    · exact ⟨depth + 8, by omega, hinside⟩
    · exact ihbody hinside hsp' (by omega) x hx
    · exact ⟨depth + 8, by omega, hinside⟩
    · exact ihrest h (show (r.afterPop pair _).sp = _ from hsp) (by omega) x hx
  | called callee locals body rest ihbody ihrest =>
    rw [Bracketed.depth] at hdepth
    have hinside := h.push hsp
    have hsp' : ((r.afterCall callee).afterEnter locals).sp =
        top - (depth + 8 + locals.toNat).toUInt32 := by
      rw [Registers.afterEnter, Registers.afterCall, hsp]
      exact (congrArg (· - locals) (sub_toUInt32 top depth 8)).trans (sub_toUInt32 top _ locals)
    intro x hx
    simp only [trace, List.mem_cons, List.mem_append] at hx
    rcases hx with rfl | rfl | hx | rfl | hx
    · exact ⟨depth + 8, by omega, hinside⟩
    · exact ⟨depth + 8, by omega, hinside⟩
    · exact ihbody (hinside.mono (by omega)) hsp' (by omega) x hx
    · exact ⟨depth + 8, by omega, hinside⟩
    · exact ihrest h (show (r.afterLeave _).sp = _ from hsp) (by omega) x hx

/-- The slots in use at one time are different, if the stack is not deeper than the address space. -/
theorem nodup_of_depth (s : Bracketed) (r : Registers) (hdepth : s.depth ≤ UInt32.size) :
    ∀ x ∈ s.trace [] r, x.stack.Nodup := by
  intro x hx
  have hnone : Stacked r.sp 0 [] := trivial
  obtain ⟨d, hd, hstacked⟩ := s.stacked_trace hnone (by simp) (by omega) x hx
  exact hstacked.nodup hd

end Bracketed

end PagedMachine
