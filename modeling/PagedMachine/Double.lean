/-!
# Double-precision registers

A floating-point register holds 64 bits, and moving a value keeps each of them, those of a NaN
too. Arithmetic reads the bits as a number of the IEEE 754 format.
-/

set_option autoImplicit false

namespace PagedMachine

structure Double where
  bits : UInt64
deriving DecidableEq, Inhabited

namespace Double

def zero : Double := ⟨0⟩

def nan : Double := ⟨0x7ff8000000000000⟩

@[inline] def toFloat (x : Double) : Float := Float.ofBits x.bits

@[inline] def ofFloat (x : Float) : Double := ⟨x.toBits⟩

def isNaN (x : Double) : Bool := x.bits <<< 1 > 0xffe0000000000000

def isInfinite (x : Double) : Bool := x.bits <<< 1 == 0xffe0000000000000

/-- Zero of either sign. -/
def isZero (x : Double) : Bool := x.bits <<< 1 == 0

def isNegative (x : Double) : Bool := x.bits >>> 63 == 1

/-! ## Arithmetic and comparison -/

@[inline] def map (fn : Float → Float) (x : Double) : Double := ofFloat (fn x.toFloat)

@[inline] def map₂ (fn : Float → Float → Float) (x y : Double) : Double :=
  ofFloat (fn x.toFloat y.toFloat)

def add : Double → Double → Double := map₂ (· + ·)

def sub : Double → Double → Double := map₂ (· - ·)

def mul : Double → Double → Double := map₂ (· * ·)

def div : Double → Double → Double := map₂ (· / ·)

/-- Equality of numbers: the two zeros are equal and a NaN equals nothing. -/
def eq (x y : Double) : Bool := x.toFloat == y.toFloat

def lt (x y : Double) : Bool := x.toFloat < y.toFloat

def ge (x y : Double) : Bool := y.toFloat ≤ x.toFloat

/-- The value without its sign, also of a NaN. -/
def abs (x : Double) : Double := ⟨x.bits &&& 0x7fffffffffffffff⟩

/-! ## Integers -/

def ofSigned (w : UInt32) : Double := ofFloat w.toInt32.toFloat

def ofUnsigned (w : UInt32) : Double := ofFloat w.toFloat

/-- Truncates toward zero; values out of range go to the nearest end and a NaN to zero. -/
def toSigned (x : Double) : UInt32 := x.toFloat.toInt32.toUInt32

@[inherit_doc toSigned]
def toUnsigned (x : Double) : UInt32 := x.toFloat.toUInt32

/-! ## Single precision -/

/-- Widens the bits of a single. A NaN keeps its sign and payload and becomes quiet. -/
def ofSingle (w : UInt32) : Double :=
  if w <<< 1 > 0xff000000 then
    let sign : UInt64 := (w &&& 0x80000000).toUInt64 <<< 32
    let payload : UInt64 := (w &&& 0x007fffff).toUInt64 <<< 29
    ⟨sign ||| nan.bits ||| payload⟩
  else ofFloat (Float32.ofBits w).toFloat

/-- The bits of the nearest single. A NaN keeps its sign and the top of its payload and becomes
quiet. -/
def toSingle (x : Double) : UInt32 :=
  if x.isNaN then
    let sign : UInt32 := (x.bits >>> 32).toUInt32 &&& 0x80000000
    let payload : UInt32 := (x.bits >>> 29).toUInt32 &&& 0x003fffff
    sign ||| 0x7fc00000 ||| payload
  else x.toFloat.toFloat32.toBits

end Double

end PagedMachine
