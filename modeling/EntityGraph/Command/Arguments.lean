import EntityGraph.Assoc
import EntityGraph.Duration

/-!
# Command lines

Reads the words of a command line.  A command has options, each of which takes a value, and
flags.  A value is the next word, which must not start with a dash unless it is the dash alone,
or stands behind `=`.  No option and no flag is given twice.  Words that ask for help or for the
version end the reading, and so does the first mistake.
-/

namespace EntityGraph

inductive Command where
  | normalize (graph : String) (out : Option String) (pretty : Bool)
  | validate (graph entity payload : String) (limit : Option Duration)

/-- What a command line asks for. -/
inductive Invocation where
  | run (command : Command)
  | help
  | version
  | misuse

namespace Invocation

/-! ## Options -/

/-- The words that a command knows: its options, each with the values it takes, and its
flags. -/
structure Known where
  options : List (String × (String → Bool))
  flags : List String

/-- The options and flags of a command line. -/
structure Given where
  options : List (String × String)
  flags : List String

/-- Whether a word stands for an option or a flag. -/
def dashed (word : String) : Bool :=
  match word.toList with
  | '-' :: _ :: _ => true
  | _ => false

/-- The parts of a word before and after its first `=`. -/
def splitValue (word : String) : String × Option String :=
  let cs := word.toList
  match cs.dropWhile (· ≠ '=') with
  | _ :: value => (String.ofList (cs.takeWhile (· ≠ '=')), some (String.ofList value))
  | [] => (word, none)

def addOption (known : Known) (given : Given) (name value : String) : Option Given :=
  match Assoc.find? name known.options with
  | some allowed =>
    if allowed value && (Assoc.find? name given.options).isNone then
      some { given with options := given.options ++ [(name, value)] }
    else none
  | none => none

def addFlag (known : Known) (given : Given) (name : String) : Option Given :=
  if known.flags.contains name && !given.flags.contains name then
    some { given with flags := given.flags ++ [name] }
  else none

/-- Reads the options and flags of a command; the error is what the command line asks for
instead. -/
def options (known : Known) : Given → List String → Except Invocation Given
  | given, [] => .ok given
  | given, ["--"] => .ok given
  | given, word :: rest =>
    match splitValue word with
    | (name, some value) =>
      match addOption known given name value with
      | some given => options known given rest
      | none => .error .misuse
    | (name, none) =>
      if name = "--help" || (name.toList.take 2 = ['-', 'h']) then .error .help
      else if (Assoc.find? name known.options).isSome then
        match rest with
        | value :: rest =>
          if dashed value then .error .misuse
          else
            match addOption known given name value with
            | some given => options known given rest
            | none => .error .misuse
        | [] => .error .misuse
      else
        match addFlag known given name with
        | some given => options known given rest
        | none => .error .misuse

/-! ## Values -/

def isPath (value : String) : Bool := !value.isEmpty

/-- A number of milliseconds of at most 64 bits, with a plus sign at most. -/
def millis? (value : String) : Option Nat :=
  let digits := match value.toList with
    | '+' :: rest => rest
    | cs => cs
  if digits.isEmpty || !digits.all Char.isDigit then none
  else
    let n := digits.foldl (fun n c => 10 * n + (c.toNat - '0'.toNat)) 0
    if n < Nat.pow 2 64 then some n else none

/-! ## Commands -/

def normalizeKnown : Known := ⟨[("--graph", isPath), ("--out", isPath)], ["--pretty", "--log-json"]⟩

def validateKnown : Known :=
  ⟨[("--graph", isPath), ("--entity", fun _ => true), ("--payload", isPath),
    ("--timeout-ms", fun v => (millis? v).isSome)], ["--log-json"]⟩

def ofResult (command : Except Invocation (Option Command)) : Invocation :=
  match command with
  | .ok (some c) => .run c
  | .ok none => .misuse
  | .error i => i

def normalize (words : List String) : Invocation := ofResult do
  let given ← options normalizeKnown ⟨[], []⟩ words
  return (Assoc.find? "--graph" given.options).map fun graph =>
    .normalize graph (Assoc.find? "--out" given.options) (given.flags.contains "--pretty")

def validate (words : List String) : Invocation := ofResult do
  let given ← options validateKnown ⟨[], []⟩ words
  return do
    let graph ← Assoc.find? "--graph" given.options
    let entity ← Assoc.find? "--entity" given.options
    let payload ← Assoc.find? "--payload" given.options
    let limit := (Assoc.find? "--timeout-ms" given.options).bind millis?
    return .validate graph entity payload (limit.map .ofMillis)

def commands : List (String × (List String → Invocation)) :=
  [("normalize", normalize), ("validate", validate)]

def helpOn : List String → Invocation
  | [] => .help
  | [name] => if name = "help" || (Assoc.find? name commands).isSome then .help else .misuse
  | _ => .misuse

/-- Reads a command line; `logged` says that the flag for all commands has been given. -/
def ofWords (logged : Bool) : List String → Invocation
  | [] => .misuse
  | word :: rest =>
    if word = "--log-json" then if logged then .misuse else ofWords true rest
    else if word = "--help" || word.toList.take 2 = ['-', 'h'] then .help
    else if word = "--version" || word.toList.take 2 = ['-', 'V'] then .version
    else if word = "help" then helpOn rest
    else
      match Assoc.find? word commands with
      | some read => read rest
      | none => .misuse

end Invocation

end EntityGraph
