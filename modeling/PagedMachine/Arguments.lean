import PagedMachine.Config

/-!
# Arguments of the command

Options have a long name, some also a letter, and may come before and after the image. A value
follows its option as the next word, after `=`, or directly behind the letter; letters of options
without a value may be joined. Nothing may be given twice. Words are read from left to right, and
the first that asks for help or the version, or is wrong, decides.
-/

set_option autoImplicit false

namespace PagedMachine

structure Arguments where
  verbose : Bool := false
  memory : Option UInt32 := none
  filesystem : Option String := none
  safe : Bool := false
  snapshot : Option String := none
  maxCycles : Option UInt64 := none
  image : Option String := none
deriving DecidableEq, Inhabited

/-- What the command is asked to do. -/
inductive Request
  | run (args : Arguments)
  | help
  | version
deriving DecidableEq

inductive UsageError
  | unknown (word : String)
  | repeated (option : String)
  | missingValue (option : String)
  | unneededValue (option : String)
  | badValue (option value : String)
  | missingImage
deriving DecidableEq

namespace UsageError

def message : UsageError → String
  | unknown word => s!"unexpected argument '{word}' found"
  | repeated option => s!"the argument '{option}' cannot be used multiple times"
  | missingValue option => s!"a value is required for '{option}' but none was supplied"
  | unneededValue option => s!"no value is expected for '{option}'"
  | badValue option value => s!"invalid value '{value}' for '{option}'"
  | missingImage => "the following required arguments were not provided: <IMAGE>"

end UsageError

namespace Arguments

/-- Options without a value. -/
inductive Flag
  | verbose | safe | help | version
deriving DecidableEq

/-- Options with a value. -/
inductive Setting
  | memory | filesystem | snapshot | maxCycles
deriving DecidableEq

inductive Opt
  | flag (f : Flag)
  | setting (s : Setting)
deriving DecidableEq

def Flag.name : Flag → String
  | verbose => "verbose"
  | safe => "safe"
  | help => "help"
  | version => "version"

def Setting.name : Setting → String
  | memory => "memory"
  | filesystem => "filesystem"
  | snapshot => "snapshot"
  | maxCycles => "max-cycles"

def flags : List Flag := [.verbose, .safe, .help, .version]

def settings : List Setting := [.memory, .filesystem, .snapshot, .maxCycles]

def ofLongName? (name : String) : Option Opt :=
  match flags.find? (·.name == name), settings.find? (·.name == name) with
  | some f, _ => some (.flag f)
  | none, some s => some (.setting s)
  | none, none => none

def ofLetter? : Char → Option Opt
  | 'v' => some (.flag .verbose)
  | 'h' => some (.flag .help)
  | 'V' => some (.flag .version)
  | 'm' => some (.setting .memory)
  | 'f' => some (.setting .filesystem)
  | _ => none

/-! ## Values -/

/-- The number that decimal digits stand for. -/
def decimal? (digits : List Char) : Option Nat :=
  if digits.isEmpty then none
  else digits.foldl (fun acc c => do
    let n ← acc
    if c.isDigit then some (10 * n + (c.toNat - '0'.toNat)) else none) (some 0)

/-- A number below `limit`, with a plus sign or none. -/
def unsigned? (limit : Nat) (value : List Char) : Option Nat :=
  let digits := match value with
    | '+' :: rest => rest
    | _ => value
  (decimal? digits).filter (· < limit)

/-- As `unsigned?`, where a zero may have a minus sign. -/
def word? (value : List Char) : Option UInt32 :=
  match value with
  | '-' :: rest => if decimal? rest = some 0 then some 0 else none
  | _ => (unsigned? UInt32.size value).map Nat.toUInt32

/-- A path may not be empty. -/
def path? (value : String) : Option String := if value.isEmpty then none else some value

/-- Why reading the words ends early. -/
inductive Early
  | request (r : Request)
  | error (e : UsageError)
deriving DecidableEq

abbrev Reading := Except Early

def bad {α : Type} (e : UsageError) : Reading α := throw (.error e)

/-- The parsed value of an option that is not set yet. -/
def fresh {α : Type} (name value : String) (old parsed : Option α) : Reading (Option α) :=
  match parsed, old with
  | none, _ => bad (.badValue name value)
  | some _, some _ => bad (.repeated name)
  | some v, none => return some v

def setFlag (args : Arguments) : Flag → Reading Arguments
  | .help => throw (.request .help)
  | .version => throw (.request .version)
  | .verbose =>
    if args.verbose then bad (.repeated "--verbose") else return { args with verbose := true }
  | .safe =>
    if args.safe then bad (.repeated "--safe") else return { args with safe := true }

def setValue (args : Arguments) (value : String) : Setting → Reading Arguments
  | .memory => do
    return { args with memory := ← fresh "--memory" value args.memory (word? value.toList) }
  | .filesystem => do
    return { args with filesystem := ← fresh "--filesystem" value args.filesystem (path? value) }
  | .snapshot => do
    return { args with snapshot := ← fresh "--snapshot" value args.snapshot (path? value) }
  | .maxCycles => do
    let n := (unsigned? UInt64.size value.toList).map Nat.toUInt64
    return { args with maxCycles := ← fresh "--max-cycles" value args.maxCycles n }

def setImage (args : Arguments) (word : String) : Reading Arguments :=
  match args.image with
  | some _ => bad (.unknown word)
  | none =>
    match path? word with
    | some path => return { args with image := some path }
    | none => bad (.badValue "<IMAGE>" word)

/-! ## Words -/

/-- A long option, given without its two dashes; the second result is an option that still needs
its value. -/
def readLong (args : Arguments) (word : List Char) : Reading (Arguments × Option Setting) := do
  let name := String.ofList (word.takeWhile (· ≠ '='))
  let value := match word.dropWhile (· ≠ '=') with
    | '=' :: value => some (String.ofList value)
    | _ => none
  match ofLongName? name, value with
  | none, _ => bad (.unknown ("--" ++ name))
  | some (.flag f), none => return (← args.setFlag f, none)
  | some (.flag _), some _ => bad (.unneededValue ("--" ++ name))
  | some (.setting s), some value => return (← args.setValue value s, none)
  | some (.setting s), none => return (args, some s)

/-- Joined letters, given without their dash. -/
def readLetters (args : Arguments) : List Char → Reading (Arguments × Option Setting)
  | [] => return (args, none)
  | c :: rest => do
    match ofLetter? c with
    | none => bad (.unknown ("-" ++ String.singleton c))
    | some (.flag f) => readLetters (← args.setFlag f) rest
    | some (.setting s) =>
      match rest with
      | [] => return (args, some s)
      | '=' :: value => return (← args.setValue (String.ofList value) s, none)
      | value => return (← args.setValue (String.ofList value) s, none)

/-- Reads the words from left to right; `waiting` is an option whose value is the next word. -/
def readWords (args : Arguments) (waiting : Option Setting) : List String → Reading Arguments
  | [] =>
    match waiting with
    | some s => bad (.missingValue ("--" ++ s.name))
    | none => return args
  | word :: words => do
    match word.toList, waiting with
    | ['-'], some s => readWords (← args.setValue word s) none words
    | ['-'], none => readWords (← args.setImage word) none words
    | '-' :: _, some s => bad (.missingValue ("--" ++ s.name))
    | ['-', '-'], none => words.foldlM setImage args
    | '-' :: '-' :: name, none =>
      let (args, waiting) ← args.readLong name
      readWords args waiting words
    | '-' :: letters, none =>
      let (args, waiting) ← args.readLetters letters
      readWords args waiting words
    | _, some s => readWords (← args.setValue word s) none words
    | _, none => readWords (← args.setImage word) none words

/-- What the words ask for. A run needs an image. -/
def parse (words : List String) : Except UsageError Request :=
  match readWords {} none words with
  | .error (.request r) => .ok r
  | .error (.error e) => .error e
  | .ok args => if args.image.isSome then .ok (.run args) else .error .missingImage

end Arguments

end PagedMachine
