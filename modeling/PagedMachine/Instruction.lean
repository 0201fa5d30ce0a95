import PagedMachine.PageCache

/-!
# Instructions

An instruction is one word: the low eight bits choose the operation and the upper 24 are an
immediate. Operations come in families, by the stream they address, the width they move and the
register they use; `Operation.table` lists them in the order of their codes, with mnemonics.
-/

set_option autoImplicit false

namespace PagedMachine

inductive IntReg
  | a | b | c
deriving DecidableEq, Inhabited

inductive FloatReg
  | f | g
deriving DecidableEq, Inhabited

/-- What an integer load reads and how it fills the register. -/
inductive LoadWidth
  | word
  /-- 16 bits, with their sign. -/
  | short
  /-- 16 bits, with zeros. -/
  | half
  /-- 8 bits, with their sign. -/
  | char
  /-- 8 bits, with zeros. -/
  | byte
deriving DecidableEq, Inhabited

inductive StoreWidth
  | word | half | byte
deriving DecidableEq, Inhabited

inductive FloatWidth
  | double | single
deriving DecidableEq, Inhabited

/-- The second operand of integer arithmetic: register b, the immediate, or a word on the stack. -/
inductive Operand
  | register | immediate | stack
deriving DecidableEq, Inhabited

inductive IntOp
  | add | sub | mul
  | div | divUnsigned | mod | modUnsigned
  | and | or | xor
  /-- Shift left, right with the sign, right with zeros. -/
  | shl | shr | shrUnsigned
deriving DecidableEq, Inhabited

inductive FloatOp
  | add | sub | mul | div
deriving DecidableEq, Inhabited

/-- A relation between a and b or between f and g. -/
inductive Relation
  | eq | eqFloat | ne | neFloat
  | lt | ltUnsigned | ltFloat
  | ge | geUnsigned | geFloat
deriving DecidableEq, Inhabited

/-- When a branch is taken. -/
inductive Condition
  | zero | zeroFloat | nonzero | nonzeroFloat
  | holds (r : Relation)
deriving DecidableEq, Inhabited

/-- Conversions between a and f. -/
inductive Conversion
  | ofSigned | ofUnsigned | toSigned | toUnsigned
deriving DecidableEq, Inhabited

inductive BlockOp
  | copy | compare | scan | fill
deriving DecidableEq, Inhabited

inductive SocketOp
  | socket | close | connect | receive | send | readable | bind | listen | accept
deriving DecidableEq, Inhabited

/-- Functions of f, and of g as the second argument. -/
inductive MathOp
  | pow | atan2 | abs | atan | log | log10 | exp | floor | ceil | hypot
  | sin | cos | tan | asin | acos | sinh | cosh | tanh | sqrt | fmod
deriving DecidableEq, Inhabited

inductive Operation
  -- system and calls
  | halt | idle | enter | leave | jump | jumpTable | call | callIndirect
  | address (slot : Slot)
  | readCycle
  | block (op : BlockOp)
  -- registers and memory
  | load (dst : IntReg) (slot : Slot) (width : LoadWidth)
  | loadFloat (dst : FloatReg) (slot : Slot) (width : FloatWidth)
  | immediate (dst : IntReg)
  | immediateHigh (dst : IntReg)
  | immediateFloat (dst : FloatReg)
  | copyA (dst : IntReg)
  | copyF
  | store (slot : Slot) (width : StoreWidth)
  | storeFloat (slot : Slot) (width : FloatWidth)
  -- arithmetic
  | floatArith (op : FloatOp)
  | intArith (op : IntOp) (operand : Operand)
  | compare (r : Relation)
  | branch (c : Condition)
  | convert (c : Conversion)
  | math (op : MathOp)
  -- stack
  | setStack
  | push (src : IntReg)
  | pushImmediate
  | pushFloat (src : FloatReg)
  | pop (dst : IntReg)
  | popFloat (dst : FloatReg)
  -- control
  | nop | trap
  | disableInterrupts | enableInterrupts | returnFromInterrupt
  | setVector | setDirectory | setPaging | setTimer
  | faultAddress | userStack | setUserStack | memorySize
  -- host
  | readKey | writeByte
  | network (op : SocketOp)
deriving DecidableEq, Inhabited

namespace Operation

/-- Operations that user mode may not execute. -/
def privileged : Operation → Bool
  | idle | readKey | writeByte | memorySize
  | disableInterrupts | enableInterrupts | returnFromInterrupt
  | setVector | setDirectory | setPaging | setTimer
  | faultAddress | userStack | setUserStack | network _ => true
  | _ => false

/-- Mnemonic and operation of each code, from 0 on. -/
def table : Array (String × Operation) := #[
  ("HALT", halt), ("ENT", enter), ("LEV", leave), ("JMP", jump), ("JMPI", jumpTable),
  ("JSR", call), ("JSRA", callIndirect), ("LEA", address .stack), ("LEAG", address .code),
  ("CYC", readCycle),
  ("MCPY", block .copy), ("MCMP", block .compare), ("MCHR", block .scan), ("MSET", block .fill),
  -- loads into a and f
  ("LL", load .a .stack .word), ("LLS", load .a .stack .short), ("LLH", load .a .stack .half),
  ("LLC", load .a .stack .char), ("LLB", load .a .stack .byte),
  ("LLD", loadFloat .f .stack .double), ("LLF", loadFloat .f .stack .single),
  ("LG", load .a .code .word), ("LGS", load .a .code .short), ("LGH", load .a .code .half),
  ("LGC", load .a .code .char), ("LGB", load .a .code .byte),
  ("LGD", loadFloat .f .code .double), ("LGF", loadFloat .f .code .single),
  ("LX", load .a .data .word), ("LXS", load .a .data .short), ("LXH", load .a .data .half),
  ("LXC", load .a .data .char), ("LXB", load .a .data .byte),
  ("LXD", loadFloat .f .data .double), ("LXF", loadFloat .f .data .single),
  ("LI", immediate .a), ("LHI", immediateHigh .a), ("LIF", immediateFloat .f),
  -- loads into b and g
  ("LBL", load .b .stack .word), ("LBLS", load .b .stack .short), ("LBLH", load .b .stack .half),
  ("LBLC", load .b .stack .char), ("LBLB", load .b .stack .byte),
  ("LBLD", loadFloat .g .stack .double), ("LBLF", loadFloat .g .stack .single),
  ("LBG", load .b .code .word), ("LBGS", load .b .code .short), ("LBGH", load .b .code .half),
  ("LBGC", load .b .code .char), ("LBGB", load .b .code .byte),
  ("LBGD", loadFloat .g .code .double), ("LBGF", loadFloat .g .code .single),
  ("LBX", load .b .data .word), ("LBXS", load .b .data .short), ("LBXH", load .b .data .half),
  ("LBXC", load .b .data .char), ("LBXB", load .b .data .byte),
  ("LBXD", loadFloat .g .data .double), ("LBXF", loadFloat .g .data .single),
  ("LBI", immediate .b), ("LBHI", immediateHigh .b), ("LBIF", immediateFloat .g),
  ("LBA", copyA .b), ("LBAD", copyF),
  -- stores
  ("SL", store .stack .word), ("SLH", store .stack .half), ("SLB", store .stack .byte),
  ("SLD", storeFloat .stack .double), ("SLF", storeFloat .stack .single),
  ("SG", store .code .word), ("SGH", store .code .half), ("SGB", store .code .byte),
  ("SGD", storeFloat .code .double), ("SGF", storeFloat .code .single),
  ("SX", store .data .word), ("SXH", store .data .half), ("SXB", store .data .byte),
  ("SXD", storeFloat .data .double), ("SXF", storeFloat .data .single),
  -- arithmetic
  ("ADDF", floatArith .add), ("SUBF", floatArith .sub), ("MULF", floatArith .mul),
  ("DIVF", floatArith .div),
  ("ADD", intArith .add .register), ("ADDI", intArith .add .immediate),
  ("ADDL", intArith .add .stack),
  ("SUB", intArith .sub .register), ("SUBI", intArith .sub .immediate),
  ("SUBL", intArith .sub .stack),
  ("MUL", intArith .mul .register), ("MULI", intArith .mul .immediate),
  ("MULL", intArith .mul .stack),
  ("DIV", intArith .div .register), ("DIVI", intArith .div .immediate),
  ("DIVL", intArith .div .stack),
  ("DVU", intArith .divUnsigned .register), ("DVUI", intArith .divUnsigned .immediate),
  ("DVUL", intArith .divUnsigned .stack),
  ("MOD", intArith .mod .register), ("MODI", intArith .mod .immediate),
  ("MODL", intArith .mod .stack),
  ("MDU", intArith .modUnsigned .register), ("MDUI", intArith .modUnsigned .immediate),
  ("MDUL", intArith .modUnsigned .stack),
  ("AND", intArith .and .register), ("ANDI", intArith .and .immediate),
  ("ANDL", intArith .and .stack),
  ("OR", intArith .or .register), ("ORI", intArith .or .immediate), ("ORL", intArith .or .stack),
  ("XOR", intArith .xor .register), ("XORI", intArith .xor .immediate),
  ("XORL", intArith .xor .stack),
  ("SHL", intArith .shl .register), ("SHLI", intArith .shl .immediate),
  ("SHLL", intArith .shl .stack),
  ("SHR", intArith .shr .register), ("SHRI", intArith .shr .immediate),
  ("SHRL", intArith .shr .stack),
  ("SRU", intArith .shrUnsigned .register), ("SRUI", intArith .shrUnsigned .immediate),
  ("SRUL", intArith .shrUnsigned .stack),
  -- comparisons
  ("EQ", compare .eq), ("EQF", compare .eqFloat), ("NE", compare .ne), ("NEF", compare .neFloat),
  ("LT", compare .lt), ("LTU", compare .ltUnsigned), ("LTF", compare .ltFloat),
  ("GE", compare .ge), ("GEU", compare .geUnsigned), ("GEF", compare .geFloat),
  -- branches
  ("BZ", branch .zero), ("BZF", branch .zeroFloat), ("BNZ", branch .nonzero),
  ("BNZF", branch .nonzeroFloat),
  ("BE", branch (.holds .eq)), ("BEF", branch (.holds .eqFloat)),
  ("BNE", branch (.holds .ne)), ("BNEF", branch (.holds .neFloat)),
  ("BLT", branch (.holds .lt)), ("BLTU", branch (.holds .ltUnsigned)),
  ("BLTF", branch (.holds .ltFloat)),
  ("BGE", branch (.holds .ge)), ("BGEU", branch (.holds .geUnsigned)),
  ("BGEF", branch (.holds .geFloat)),
  -- conversions
  ("CID", convert .ofSigned), ("CUD", convert .ofUnsigned), ("CDI", convert .toSigned),
  ("CDU", convert .toUnsigned),
  -- control and stack
  ("CLI", disableInterrupts), ("STI", enableInterrupts), ("RTI", returnFromInterrupt),
  ("BIN", readKey), ("BOUT", writeByte), ("NOP", nop), ("SSP", setStack),
  ("PSHA", push .a), ("PSHI", pushImmediate), ("PSHF", pushFloat .f), ("PSHB", push .b),
  ("POPB", pop .b), ("POPF", popFloat .f), ("POPA", pop .a),
  ("IVEC", setVector), ("PDIR", setDirectory), ("SPAG", setPaging), ("TIME", setTimer),
  ("LVAD", faultAddress), ("TRAP", trap), ("LUSP", userStack), ("SUSP", setUserStack),
  ("LCL", load .c .stack .word), ("LCA", copyA .c),
  ("PSHC", push .c), ("POPC", pop .c), ("MSIZ", memorySize),
  ("PSHG", pushFloat .g), ("POPG", popFloat .g),
  -- sockets
  ("NET1", network .socket), ("NET2", network .close), ("NET3", network .connect),
  ("NET4", network .receive), ("NET5", network .send), ("NET6", network .readable),
  ("NET7", network .bind), ("NET8", network .listen), ("NET9", network .accept),
  -- functions
  ("POW", math .pow), ("ATN2", math .atan2), ("FABS", math .abs), ("ATAN", math .atan),
  ("LOG", math .log), ("LOGT", math .log10), ("EXP", math .exp), ("FLOR", math .floor),
  ("CEIL", math .ceil), ("HYPO", math .hypot), ("SIN", math .sin), ("COS", math .cos),
  ("TAN", math .tan), ("ASIN", math .asin), ("ACOS", math .acos), ("SINH", math .sinh),
  ("COSH", math .cosh), ("TANH", math .tanh), ("SQRT", math .sqrt), ("FMOD", math .fmod),
  ("IDLE", idle)]

/-- The operation with code `code`. -/
def ofCode? (code : UInt8) : Option Operation := table[code.toNat]?.map (·.2)

/-- The mnemonic of the operation with code `code`. -/
def mnemonic? (code : UInt8) : Option String := table[code.toNat]?.map (·.1)

/-- The code of the operation called `mnemonic`. -/
def codeOf? (mnemonic : String) : Option UInt8 :=
  (table.findIdx? (·.1 == mnemonic)).map Nat.toUInt8

end Operation

/-! ## Instruction words -/

/-- A word as it is fetched. -/
structure Instruction where
  word : UInt32
deriving DecidableEq, Inhabited

namespace Instruction

@[inline] def code (i : Instruction) : UInt8 := i.word.toUInt8

/-- The immediate with its sign. -/
@[inline] def imm (i : Instruction) : UInt32 := (i.word.toInt32 >>> 8).toUInt32

/-- The immediate with zeros in front. -/
@[inline] def rawImm (i : Instruction) : UInt32 := i.word >>> 8

@[inline] def operation? (i : Instruction) : Option Operation := Operation.ofCode? i.code

/-- The word for an operation code and an immediate, of which the upper eight bits are lost. -/
def make (code : UInt8) (imm : UInt32) : Instruction := ⟨(imm <<< 8) ||| code.toUInt32⟩

end Instruction

end PagedMachine
