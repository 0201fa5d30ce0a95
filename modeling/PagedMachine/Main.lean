import PagedMachine.CommandLine

/-!
# Entry point

Feeds the command with files, standard input and output; an executable links it with the codec of
compressed files. Input that does not come from a terminal is read to its end first. With a terminal
a run goes in slices, between which new keys are handed to the console and new output is printed.
-/

set_option autoImplicit false

namespace PagedMachine.CommandLine

/-- Input that has arrived and was not handed on yet, and whether it has ended. -/
structure Arrived where
  bytes : List UInt8 := []
  ended : Bool := false
  /-- No more input is wanted. -/
  stopped : Bool := false

/-- Reads standard input to its end. -/
partial def listen (arrived : IO.Ref Arrived) : IO Unit := do
  let chunk ← (← IO.getStdin).read 1
  if chunk.isEmpty then
    arrived.modify ({ · with ended := true })
  else
    arrived.modify fun a => { a with bytes := a.bytes ++ chunk.toList }
    if !(← arrived.get).stopped then listen arrived

/-- Steps between two looks at the input. -/
def slice : Nat := 65536

/-- Hands arrived input to the machine. -/
def feed (a : Arrived) (m : Machine) : Machine :=
  let console := m.bridge.console.push a.bytes
  let console := if a.ended then { console with supply := .file } else console
  if a.bytes.isEmpty && !(a.ended && m.bridge.console.supply == .live) then m
  else { m with bridge := { m.bridge with console } }

/-- Empties the records that have been printed or that nobody asks for. -/
def trim (m : Machine) : Machine :=
  { m with
    journal := []
    bridge := { m.bridge with console := { m.bridge.console with output := ByteArray.empty } } }

/-- Prints the machine's output. -/
def print (m : Machine) : IO Unit := do
  let out ← IO.getStdout
  out.write m.bridge.console.output
  out.flush

/-- Runs to the end of the budget, slice by slice. -/
partial def drive (args : Arguments) (arrived : IO.Ref Arrived) (start : UInt64) (m : Machine) :
    IO Report := do
  let m := feed (← arrived.modifyGet fun a => (a, { a with bytes := [] })) m
  match (Machine.runFrom start (budget args) slice).run m with
  | .error reason m => do
    print m
    return report args (.error reason) (trim m)
  | .ok .budgetExhausted m => do
    print m
    if m.regs.cycle - start < budget args then drive args arrived start (trim m)
    else return report args (.ok .budgetExhausted) (trim m)
  | .ok exit m => do
    print m
    return report args (.ok exit) (trim m)

def readFile (path : String) : IO (Option ByteArray) := do
  try
    return some (← IO.FS.readBinFile path)
  catch _ =>
    return none

/-- The files that a run reads. -/
def readFiles (args : Arguments) : IO Files := do
  let paths := args.image.toList ++ args.filesystem.toList
  let found ← paths.mapM fun path => return (path, ← readFile path)
  return fun path => (found.lookup path).join

/-- Runs on a terminal, whose keys come while the machine runs. -/
def runInteractive (codec : Codec) (args : Arguments) (files : Files) : IO Report := do
  match prepare codec args files {} with
  | .error e => return loadFailed e
  | .ok emulator => do
    let arrived ← IO.mkRef {}
    let _ ← IO.asTask (listen arrived) .dedicated
    let report ← drive args arrived emulator.machine.regs.cycle emulator.machine
    arrived.modify ({ · with stopped := true })
    return report

def runArguments (codec : Codec) (args : Arguments) : IO Report := do
  let files ← readFiles args
  let input ← IO.getStdin
  if ← input.isTty then
    runInteractive codec args files
  else
    return run codec args files { pending := (← input.readBinToEnd).toList, supply := .file }

def save (codec : Codec) (path : String) (snapshot : Snapshot) : IO Unit := do
  match snapshot.toFileBytes codec with
  | .error e => IO.eprintln s!"snapshot {path}: {e.message}"
  | .ok file =>
    try
      IO.FS.writeBinFile path file
    catch e =>
      IO.eprintln s!"snapshot {path}: {e}"

def finish (codec : Codec) (r : Report) : IO Unit := do
  let out ← IO.getStdout
  out.write r.stdout
  out.flush
  if let some message := r.stderr then IO.eprintln message
  if let some (path, snapshot) := r.snapshot then save codec path snapshot

def main (codec : Codec) (words : List String) : IO UInt32 := do
  let report ←
    match answer (Arguments.parse words) with
    | .inl report => pure report
    | .inr args => runArguments codec args
  finish codec report
  return report.exit.toUInt32

end PagedMachine.CommandLine
