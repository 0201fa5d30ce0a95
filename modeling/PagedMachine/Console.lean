/-!
# Console

A stream of input bytes that is polled and a record of the bytes written.
-/

set_option autoImplicit false

namespace PagedMachine

/-- What is known of the end of the input. -/
inductive Supply
  /-- More bytes may be added at any time. -/
  | live
  /-- No bytes will be added; the end shows only when a poll runs into it. -/
  | file
  /-- No bytes will be added, and this is known. -/
  | closed
deriving DecidableEq, Inhabited

/-- The result of one poll. -/
inductive Input
  | empty
  | byte (b : UInt8)
  | closed
deriving DecidableEq

structure Console where
  pending : List UInt8 := []
  supply : Supply := .live
  output : ByteArray := ByteArray.empty
deriving Inhabited

namespace Console

def push (c : Console) (bytes : List UInt8) : Console :=
  { c with pending := c.pending ++ bytes }

def close (c : Console) : Console := { c with supply := .closed }

/-- Takes the next byte if there is one. -/
def poll (c : Console) : Input × Console :=
  match c.pending with
  | b :: rest => (.byte b, { c with pending := rest })
  | [] =>
    match c.supply with
    | .live => (.empty, c)
    | .file => (.closed, { c with supply := .closed })
    | .closed => (.closed, c)

/-- Whether a byte may still come. -/
def isOpen (c : Console) : Bool := !c.pending.isEmpty || c.supply ≠ .closed

def write (c : Console) (b : UInt8) : Console :=
  match c with
  | { pending, supply, output } => { pending, supply, output := output.push b }

end Console

end PagedMachine
