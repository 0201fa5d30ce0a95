import PagedMachine.Double.Exact
import PagedMachine.Instruction

/-!
# Arithmetic of the registers

Integer arithmetic wraps, signed where not said otherwise, and shift counts are taken modulo 32.
Division by zero has no result.
-/

set_option autoImplicit false

namespace PagedMachine

/-- The result for `a` and the operand `x`; none on a division by zero. -/
def IntOp.eval? (op : IntOp) (a x : UInt32) : Option UInt32 :=
  match op with
  | add => some (a + x)
  | sub => some (a - x)
  | mul => some (a * x)
  | div => if x = 0 then none else some (a.toInt32 / x.toInt32).toUInt32
  | divUnsigned => if x = 0 then none else some (a / x)
  | mod => if x = 0 then none else some (a.toInt32 % x.toInt32).toUInt32
  | modUnsigned => if x = 0 then none else some (a % x)
  | and => some (a &&& x)
  | or => some (a ||| x)
  | xor => some (a ^^^ x)
  | shl => some (a <<< x)
  | shr => some (a.toInt32 >>> x.toInt32).toUInt32
  | shrUnsigned => some (a >>> x)

/-- The result for f and g; none on a division by either zero. -/
def FloatOp.eval? (op : FloatOp) (f g : Double) : Option Double :=
  match op with
  | add => some (f.add g)
  | sub => some (f.sub g)
  | mul => some (f.mul g)
  | div => if g.isZero then none else some (f.div g)

def Relation.eval (r : Relation) (a b : UInt32) (f g : Double) : Bool :=
  match r with
  | eq => a = b
  | eqFloat => f.eq g
  | ne => a ≠ b
  | neFloat => !f.eq g
  | lt => a.toInt32 < b.toInt32
  | ltUnsigned => a < b
  | ltFloat => f.lt g
  | ge => a.toInt32 ≥ b.toInt32
  | geUnsigned => a ≥ b
  | geFloat => f.ge g

def Condition.eval (c : Condition) (a b : UInt32) (f g : Double) : Bool :=
  match c with
  | zero => a = 0
  | zeroFloat => f.isZero
  | nonzero => a ≠ 0
  | nonzeroFloat => !f.isZero
  | holds r => r.eval a b f g

/-- The new f. The logarithms leave a zero as it is. -/
def MathOp.eval (op : MathOp) (f g : Double) : Double :=
  match op with
  | pow => Double.map₂ Float.pow f g
  | atan2 => Double.map₂ Float.atan2 f g
  | abs => f.abs
  | atan => Double.map Float.atan f
  | log => if f.isZero then f else Double.map Float.log f
  | log10 => if f.isZero then f else Double.map Float.log10 f
  | exp => Double.map Float.exp f
  | floor => Double.map Float.floor f
  | ceil => Double.map Float.ceil f
  | hypot => f.hypot g
  | sin => Double.map Float.sin f
  | cos => Double.map Float.cos f
  | tan => Double.map Float.tan f
  | asin => Double.map Float.asin f
  | acos => Double.map Float.acos f
  | sinh => Double.map Float.sinh f
  | cosh => Double.map Float.cosh f
  | tanh => Double.map Float.tanh f
  | sqrt => Double.map Float.sqrt f
  | fmod => f.fmod g

end PagedMachine
