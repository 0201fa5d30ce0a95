/-!
# Numbers as digits

Hexadecimal text with leading zeros, as addresses and byte strings are written.
-/

set_option autoImplicit false

namespace PagedMachine.Radix

/-- The lowercase hexadecimal digits of `n`, at least `width` of them. -/
def hex (width n : Nat) : String :=
  let digits := Nat.toDigits 16 n
  String.ofList (List.replicate (width - digits.length) '0' ++ digits)

/-- An address: `0x` and at least eight hexadecimal digits. -/
def address (a : UInt32) : String :=
  "0x" ++ hex 8 a.toNat

/-- A word read as a signed number, in decimal. -/
def signed (w : UInt32) : String :=
  toString w.toInt32.toInt

end PagedMachine.Radix
