import EntityGraph.Command.Host
import EntityGraph.Document.Format

/-!
# Directories and those above them

A directory is made as it is written, and where that fails for want of a place, those above it
are made first, from the outermost on.  A failure counts only where there is no directory
afterwards.  A directory above is written without empty names and without `.`, so a path that
ends in `.` is made only if what it stands for is there.
-/

namespace EntityGraph.Directories

/-- The names of a path as written, between its slashes. -/
def names (path : String) : List String := (FileName.components path.toList).map String.ofList

/-- Whether a path starts at the root. -/
def rooted (path : String) : Bool := path.toList.head? = some '/'

/-- The path with the given names. -/
def written (rooted : Bool) (names : List String) : String :=
  (if rooted then "/" else "") ++ "/".intercalate names

/-- The directories above the last of some names, in reverse, from the nearest on. -/
def aboveNames (rooted : Bool) : List String → List String
  | [] => []
  | [_] => []
  | _ :: rest => written rooted rest.reverse :: aboveNames rooted rest

/-- The directories above a path, from the nearest on. -/
def above (path : String) : List String :=
  aboveNames (rooted path) ((names path).filter fun name => name ≠ "" && name ≠ ".").reverse

variable {m : Type → Type} [Monad m] [Host m]

/-- Whether there is a directory: something that cannot be read for being one. -/
def present (path : String) : m Bool := do
  match ← Host.read path with
  | .error .isDirectory => return true
  | _ => return false

/-- A result, of which a failure counts only where there is no directory. -/
def settle (path : String) : Except OsError Unit → m (Except OsError Unit)
  | .ok () => return .ok ()
  | .error e => do
    if ← present path then return .ok () else return .error e

/-- Makes a directory, given those above it. -/
def makeUnder (path : String) : (above : List String) → m (Except OsError Unit)
  | [] => do settle path (← Host.makeDirectory path)
  | parent :: rest => do
    match ← Host.makeDirectory path with
    | .error .notFound =>
      match ← makeUnder parent rest with
      | .ok () => settle path (← Host.makeDirectory path)
      | .error e => return .error e
    | result => settle path result

/-- Makes a directory and those above it that are missing. -/
def make (path : String) : m (Except OsError Unit) := makeUnder path (above path)

end EntityGraph.Directories
