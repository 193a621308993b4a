import EntityGraph.Command.Arguments
import EntityGraph.Command.Directories
import EntityGraph.Command.Report
import EntityGraph.Document.Load
import EntityGraph.Document.Result
import EntityGraph.Validate.Basic

/-!
# The commands

`normalize` loads a graph and prints its schemas, or writes them to `input.json` and
`output.json` in a directory.  `validate` loads a graph and a payload, and prints what becomes
of the payload under an object of the graph's input schema.

A command ends with 0, or with 1 and a report of its failure, or with 2 if the command line
makes no sense.  It runs over any surroundings, and with any reader of YAML.
-/

namespace EntityGraph

/-- The path of a file in a directory. -/
def joinPath (directory name : String) : String :=
  if directory.endsWith "/" then directory ++ name else directory ++ "/" ++ name

/-- The causes of a failed load, from the nearest on. -/
def LoadError.causes : LoadError → List String
  | .json cause => [LoadError.message (.json cause), cause.message]
  | .yaml => [LoadError.message .yaml, "the text is no document of the expected form"]

namespace Command

variable {m : Type → Type} [Monad m] [Host m]

/-- A part of a command that may fail. -/
abbrev Step (m : Type → Type) := ExceptT Failure m

def host {α : Type} (what path : String) (action : m (Except OsError α)) : Step m α := do
  match ← action with
  | .ok a => return a
  | .error e => throw ⟨s!"failed to {what} {path}", [e.message]⟩

/-- Reads a document in the format of its file name. -/
def readDocument {α : Type} (load : Format → String → Except LoadError α) (path : String) :
    Step m α := do
  let text ← host "read" path (Host.read path)
  match load (.ofPath path) text with
  | .ok a => return a
  | .error e => throw ⟨s!"failed to load {path}", e.causes⟩

def render (pretty : Bool) (doc : Json) : String := if pretty then doc.pretty else doc.compact

def runNormalize [YamlReader] (graph : String) (out : Option String) (pretty : Bool) :
    Step m Unit := do
  let g ← readDocument Graph.load graph
  let n ← match g.normalize with
    | .ok n => pure n
    | .error e => throw ⟨s!"failed to normalize {graph}", [e.message]⟩
  n.diagnostics.forM fun d => (Host.warn ("warning: " ++ d.message ++ "\n") : m Unit)
  match out with
  | some directory =>
    host "create" directory (Directories.make directory)
    let input := joinPath directory "input.json"
    host "write" input (Host.write input (render pretty (Encode.inputSchema n.input)))
    let output := joinPath directory "output.json"
    host "write" output (Host.write output (render pretty (Encode.outputSchema n.output)))
  | none => (Host.print (render pretty (Encode.normalized n) ++ "\n") : m Unit)

def runValidate [YamlReader] (graph entity payload : String) (limit : Option Duration) :
    Step m Unit := do
  let g ← readDocument Graph.load graph
  let value ← readDocument Json.load payload
  let n ← match g.normalize with
    | .ok n => pure n
    | .error e => throw ⟨e.message, []⟩
  match (Validator.validateEntity ⟨n.input, limit⟩ entity value none).outcome with
  | .done v => (Host.print (v.pretty ++ "\n") : m Unit)
  | .failed e => throw ⟨e.message, []⟩
  | .unfinished => throw ⟨s!"validation of {entity} does not end", []⟩

def run [YamlReader] : Command → Step m Unit
  | .normalize graph out pretty => runNormalize graph out pretty
  | .validate graph entity payload limit => runValidate graph entity payload limit

end Command

namespace Invocation

variable {m : Type → Type} [Monad m] [Host m]

def versionText : String := "modelgraph 0.1.0\n"

def usage : String :=
  "Usage: modelgraph [--log-json] <COMMAND>\n\n" ++
  "Commands:\n" ++
  "  normalize --graph <GRAPH> [--out <OUT>] [--pretty]\n" ++
  "  validate --graph <GRAPH> --entity <ENTITY> --payload <PAYLOAD> [--timeout-ms <N>]\n"

/-- Does what a command line asks for, and gives the exit code. -/
def perform [YamlReader] : Invocation → m Nat
  | .run command => do
    match ← command.run.run with
    | .ok () => return 0
    | .error failure => do
      Host.warn failure.text
      return 1
  | .help => do
    Host.print usage
    return 0
  | .version => do
    Host.print versionText
    return 0
  | .misuse => do
    Host.warn usage
    return 2

end Invocation

end EntityGraph
