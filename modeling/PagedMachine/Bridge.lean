import PagedMachine.Console
import PagedMachine.Sockets

/-!
# Host bridge

The machine's only way out: a console with a latch for the last key, and the sockets of the host.
-/

set_option autoImplicit false

namespace PagedMachine

structure Bridge where
  console : Console := {}
  sockets : Sockets := {}
  /-- The last byte received, until it is taken. -/
  latch : Option UInt8 := none
  /-- The byte that ends the emulation. -/
  escape : Option UInt8 := none
deriving Inhabited

/-- What one poll of the console brought. -/
inductive ConsoleEvent
  | quiet
  /-- A byte, now in the latch. -/
  | key (b : UInt8)
  | escape
deriving DecidableEq

namespace Bridge

/-- The escape byte that is set unless another is asked for. -/
def defaultEscape : UInt8 := 96

def poll (b : Bridge) : ConsoleEvent × Bridge :=
  match b with
  | { console, sockets, latch, escape } =>
    match console.poll with
    | (.byte k, console) =>
      if escape = some k then (.escape, { console, sockets, latch, escape })
      else (.key k, { console, sockets, latch := some k, escape })
    | (_, console) => (.quiet, { console, sockets, latch, escape })

/-- Empties the latch. -/
def takeKey (b : Bridge) : Option UInt8 × Bridge :=
  (b.latch, { b with latch := none })

/-- Writes a byte to the console, which has the descriptor 1; any other is refused. -/
def put (b : Bridge) (fd : UInt32) (byte : UInt8) : Int32 × Bridge :=
  if fd = 1 then
    match b with
    | { console, sockets, latch, escape } =>
      (1, { console := console.write byte, sockets, latch, escape })
  else (-1, b)

end Bridge

end PagedMachine
