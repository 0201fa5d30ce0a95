import PagedMachine.Arguments
import PagedMachine.Emulator

/-!
# The command

Runs an image as the arguments say. The exit status is the low byte of the halt code; other ends
have a status of their own. A snapshot is written at the end of a run, however it ended.
-/

set_option autoImplicit false

namespace PagedMachine.CommandLine

/-! ## Exit statuses -/

def exitUsage : UInt8 := 2

def exitLoadError : UInt8 := 1

def exitFatal : UInt8 := 2

def exitEscape : UInt8 := 3

/-! ## Texts -/

def versionText : String := "em32 0.1.0\n"

def helpText : String := "\n".intercalate [
  "Run an em32 executable image",
  "",
  "Usage: em32 [OPTIONS] <IMAGE>",
  "",
  "Arguments:",
  "  <IMAGE>  Executable image (optionally gzip or zstd compressed)",
  "",
  "Options:",
  "  -v, --verbose                  Trace faults and host-bridge calls",
  "  -m, --memory <MEMORY>          Guest memory in MiB [default: 128]",
  "  -f, --filesystem <FILESYSTEM>  Flat ram-filesystem image loaded at the top of memory",
  "      --safe                     " ++
    "Revalidate every access instead of caching code and stack pages",
  "      --snapshot <SNAPSHOT>      Write a snapshot here when the run ends",
  "      --max-cycles <MAX_CYCLES>  Stop after this many cycles",
  "  -h, --help                     Print help",
  "  -V, --version                  Print version",
  ""]

/-- What the command leaves behind. -/
structure Report where
  exit : UInt8
  stdout : ByteArray := ByteArray.empty
  /-- A message for the user. -/
  stderr : Option String := none
  /-- The file that a snapshot is written to, and the snapshot. -/
  snapshot : Option (String × Snapshot) := none

/-! ## A run -/

def config (args : Arguments) : Config :=
  let c : Config := { fastPath := !args.safe, filesystem := args.filesystem }
  { c with megabytes := args.memory.getD c.megabytes }

def budget (args : Arguments) : UInt64 := args.maxCycles.getD 0xffffffffffffffff

/-- The loaded machine, or why there is none. -/
def prepare (codec : Codec) (args : Arguments) (files : Files) (console : Console) :
    Except LoadError Emulator := do
  let emulator ← Emulator.ofConfig? (config args) console
  match emulator.loadFile codec files (args.image.getD "") with
  | (.ok _, emulator) => return emulator
  | (.error e, _) => throw e

def loadFailed (e : LoadError) : Report :=
  { exit := exitLoadError, stderr := some e.message }

/-- The report on a run that ended with `result` and left `m`. -/
def report (args : Arguments) (result : Except FatalReason Machine.RunExit) (m : Machine) :
    Report :=
  let exit := match result with
    | .ok (.halted code) => code.toUInt8
    | .ok .escaped => exitEscape
    | .ok .budgetExhausted => 0
    | .error _ => exitFatal
  let stderr := match result with
    | .ok _ => none
    | .error reason => some (Machine.fatalMessage reason m)
  { exit, stderr, stdout := m.bridge.console.output,
    snapshot := args.snapshot.map fun path => (path, .ofMachine m) }

def run (codec : Codec) (args : Arguments) (files : Files) (console : Console) : Report :=
  match prepare codec args files console with
  | .error e => loadFailed e
  | .ok emulator =>
    match (Machine.run (budget args)).run emulator.machine with
    | .ok exit m => report args (.ok exit) m
    | .error reason m => report args (.error reason) m

/-- What is said of words that are no request, and of requests that run nothing. -/
def answer (request : Except UsageError Request) : Report ⊕ Arguments :=
  match request with
  | .error e => .inl { exit := exitUsage, stderr := some ("error: " ++ e.message) }
  | .ok .help => .inl { exit := 0, stdout := helpText.toUTF8 }
  | .ok .version => .inl { exit := 0, stdout := versionText.toUTF8 }
  | .ok (.run args) => .inr args

/-- The command with all its input at hand: the words, the files and what the console will read. -/
def command (codec : Codec) (words : List String) (files : Files) (console : Console) : Report :=
  match answer (Arguments.parse words) with
  | .inl report => report
  | .inr args => run codec args files console

end PagedMachine.CommandLine
