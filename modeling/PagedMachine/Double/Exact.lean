import PagedMachine.Double

/-!
# Remainder and hypotenuse of doubles

Both are computed on integers: a finite double is `m * 2 ^ e` with `m < 2 ^ 53`, the remainder of
two of them is again such a number, and the hypotenuse is the square root of an integer, rounded
once.
-/

set_option autoImplicit false

namespace PagedMachine.Double

/-- The exponent of the least positive double. -/
def minExponent : Int := -1074

/-- `m` and `e` with `m * 2 ^ e` the size of a finite double. -/
def magnitude (x : Double) : Nat × Int :=
  let fraction := (x.bits &&& 0x000fffffffffffff).toNat
  let exponent := ((x.bits >>> 52) &&& 0x7ff).toNat
  if exponent = 0 then (fraction, minExponent)
  else (fraction + 1 <<< 52, minExponent + (exponent - 1 : Nat))

/-- The nearest integer to `m / 2 ^ k`, the even one of two. -/
def roundShift (m k : Nat) : Nat :=
  let q := m >>> k
  let rest := m - q <<< k
  let half := 1 <<< k / 2
  if k = 0 then m
  else if rest > half ∨ (rest = half ∧ q % 2 = 1) then q + 1
  else q

/-- The double nearest to `m * 2 ^ e`, of two the one with an even last bit; past the largest
double it is infinite. -/
def nearest (negative : Bool) (m : Nat) (e : Int) : Double :=
  let sign : UInt64 := if negative then 0x8000000000000000 else 0
  if m = 0 then ⟨sign⟩
  else
    -- keep 53 bits, fewer below the normal range
    let drop : Nat := max ((m.log2 : Int) - 52) (minExponent - e) |>.toNat
    let q := roundShift m drop
    let scale := e + drop - minExponent
    let biased : Nat := if q < 1 <<< 52 ∧ scale ≤ 0 then q else
      -- shift short values up to the normal range
      let up := 52 - q.log2
      let lift := min up scale.toNat
      let q := q <<< lift
      q + (scale.toNat - lift) * 1 <<< 52
    if biased ≥ 0x7ff0000000000000 then ⟨sign ||| 0x7ff0000000000000⟩
    else ⟨sign ||| biased.toUInt64⟩

/-- The remainder of truncated division, with the sign of the dividend. -/
def fmod (x y : Double) : Double :=
  if x.isNaN || y.isNaN || x.isInfinite || y.isZero then nan
  else if y.isInfinite then x
  else
    let (m, e) := x.magnitude
    let (n, f) := y.magnitude
    let low := min e f
    let r := (m <<< (e - low).toNat) % (n <<< (f - low).toNat)
    nearest x.isNegative r low

/-- Adds to `root` those of the bits below `2 ^ k` that keep its square within `n`. -/
def rootBits (n : Nat) : Nat → Nat → Nat
  | 0, root => root
  | k + 1, root =>
    let next := root + 1 <<< k
    rootBits n k (if next * next ≤ n then next else root)

/-- The integer square root. -/
def isqrt (n : Nat) : Nat := rootBits n (n.log2 / 2 + 1) 0

/-- The nearest double to the length of the hypotenuse; infinite as soon as one leg is. -/
def hypot (x y : Double) : Double :=
  if x.isInfinite || y.isInfinite then ⟨0x7ff0000000000000⟩
  else if x.isNaN || y.isNaN then nan
  else
    let (m, e) := x.magnitude
    let (n, f) := y.magnitude
    let low := min e f
    let a := m <<< (e - low).toNat
    let b := n <<< (f - low).toNat
    -- 120 more bits, and a last one that says whether the root is exact
    let square := (a * a + b * b) <<< 120
    let root := isqrt square
    let m := 2 * root + (if root * root = square then 0 else 1)
    nearest false m (low - 61)

end PagedMachine.Double
